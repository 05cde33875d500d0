import CommandScript.Standard.Arrays
import CommandScript.Standard.Channels
import CommandScript.Standard.Children
import CommandScript.Standard.Control
import CommandScript.Standard.Lists
import CommandScript.Standard.Namespaces
import CommandScript.Standard.Strings

/-!
# The standard commands

`Builtin` lists the standard commands, `Builtin.run` says what each does, and `standardRegistry`
gives them their names. Commands that reach the system are not safe.
-/

namespace CommandScript

inductive Builtin where
  | append | array | breakLoop | catchError | concat | continueLoop | defer | error | eval | forLoop
  | foreachLoop | global | ifElse | incr | interp | join | lappend | lindex | list | llength
  | inNamespace | proc | rename | returnValue | set | time | unset | uplevel | upvar | declare
  | whileLoop | expr | info | string | eof | flush | gets | puts | read | seek | tell
  | close | exec | exit | openFile | source
  deriving DecidableEq, Repr, Inhabited

namespace Builtin

def run {κ : Type} : Builtin → Native κ
  | append => Standard.append
  | array => Standard.Arrays.array
  | breakLoop => Standard.breakCommand
  | catchError => Standard.catchCommand
  | concat => Standard.concat
  | continueLoop => Standard.continueCommand
  | defer => Standard.defer
  | error => Standard.error
  | eval => Standard.eval
  | forLoop => Standard.forCommand
  | foreachLoop => Standard.foreachCommand
  | global => Standard.global
  | ifElse => Standard.ifCommand
  | incr => Standard.incr
  | interp => Standard.Children.interp
  | join => Standard.join
  | lappend => Standard.lappend
  | lindex => Standard.lindex
  | list => Standard.list
  | llength => Standard.llength
  | inNamespace => Standard.Namespaces.namespace
  | proc => Standard.proc
  | rename => Standard.rename
  | returnValue => Standard.returnCommand
  | set => Standard.setCommand
  | time => Standard.time
  | unset => Standard.unset
  | uplevel => Standard.uplevel
  | upvar => Standard.upvar
  | declare => Standard.declare
  | whileLoop => Standard.whileCommand
  | expr => Standard.expr
  | info => Standard.Info.info
  | string => Standard.Strings.string
  | eof => Standard.eof
  | flush => Standard.flush
  | gets => Standard.gets
  | puts => Standard.puts
  | read => Standard.read
  | seek => Standard.seek
  | tell => Standard.tell
  | close => Standard.close
  | exec => Standard.exec
  | exit => Standard.exit
  | openFile => Standard.openCommand
  | source => Standard.source

/-- The commands that safe interpreters may run, by name. -/
def safeCommands : List (String × Builtin) :=
  [("append", append), ("array", array), ("break", breakLoop), ("catch", catchError),
    ("concat", concat), ("continue", continueLoop), ("defer", defer), ("error", error),
    ("eval", eval), ("for", forLoop), ("foreach", foreachLoop), ("global", global),
    ("if", ifElse), ("incr", incr), ("interp", interp), ("join", join), ("lappend", lappend),
    ("lindex", lindex), ("list", list), ("llength", llength), ("namespace", inNamespace),
    ("proc", proc), ("rename", rename), ("return", returnValue), ("set", set), ("time", time),
    ("unset", unset), ("uplevel", uplevel), ("upvar", upvar), ("variable", declare),
    ("while", whileLoop), ("expr", expr), ("info", info), ("string", string), ("eof", eof),
    ("flush", flush), ("gets", gets), ("puts", puts), ("read", read), ("seek", seek),
    ("tell", tell)]

/-- The commands that reach the system, by name. -/
def hostCommands : List (String × Builtin) :=
  [("close", close), ("exec", exec), ("exit", exit), ("open", openFile), ("source", source)]

end Builtin

/-- The standard commands, under keys of another type. -/
def standardRegistry {κ : Type} (key : Builtin → κ) : Registry κ :=
  Builtin.safeCommands.map (fun (name, b) => (name, { key := key b, safe := true })) ++
    Builtin.hostCommands.map (fun (name, b) => (name, { key := key b, safe := false }))

end CommandScript
