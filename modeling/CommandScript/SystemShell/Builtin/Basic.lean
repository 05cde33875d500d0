import CommandScript.SystemShell.Background
import CommandScript.SystemShell.Redirection

/-!
# The shell's own commands

A command of the shell itself runs in the shell and changes it. Special ones cannot be hidden by a
function, keep the assignments before them, and end the shell if they fail.
-/

namespace CommandScript.SystemShell

/-- What a command of the shell does with its arguments; it gives its status. -/
abbrev Deed := Kernel → Circumstances → List String → Shell Nat

structure Builtin where
  /-- Whether its arguments may be assignments, which are not split. -/
  assigns : Bool := false
  deed : Deed

namespace Builtin

/-- Takes options off arguments; a letter followed by a colon in `allowed` takes a value. -/
def takeLetters (allowed : List Char) : (letters : List Char) → List String →
    Shell (List (Char × String) × List String)
  | [], rest => return ([], rest)
  | c :: cs, rest => do
    match allowed.dropWhile (· != c) with
    | [] => Shell.fail s!"Illegal option -{c}"
    | _ :: ':' :: _ =>
      if !cs.isEmpty then return ([(c, String.ofList cs)], rest)
      match rest with
      | value :: rest => return ([(c, value)], rest)
      | [] => Shell.fail s!"No arg for -{c} option"
    | _ =>
      let (more, rest) ← takeLetters allowed cs rest
      return ((c, "") :: more, rest)

/-- Takes the options at the start of arguments, `fuel` of them at most. -/
def takeOptionsWithin (allowed : List Char) : (fuel : Nat) → List String →
    Shell (List (Char × String) × List String)
  | 0, args => return ([], args)
  | _, [] => return ([], [])
  | fuel + 1, arg :: rest => do
    match arg.toList with
    | ['-', '-'] => return ([], rest)
    | '-' :: c :: cs =>
      let (found, rest) ← takeLetters allowed (c :: cs) rest
      let (more, rest) ← takeOptionsWithin allowed fuel rest
      return (found ++ more, rest)
    | _ => return ([], arg :: rest)

def takeOptions (allowed : String) (args : List String) :
    Shell (List (Char × String) × List String) :=
  takeOptionsWithin (allowed.toList.filter (· != ' ')) args.length args

/-- A text in single quotes, as the shell would have to be given it. -/
def quoted (s : String) : String :=
  "'" ++ "'\"'\"'".intercalate (s.splitOn "'") ++ "'"

/-- Names and values in order, each after a word. -/
def listing (front : String) (vars : Table Variable) : String :=
  let sorted := vars.mergeSort fun a b => a.1 ≤ b.1
  String.join (sorted.map fun entry =>
    match entry.2.value with
    | some value => s!"{front}{entry.1}={quoted value}\n"
    | none => if front.isEmpty then "" else s!"{front}{entry.1}\n")

/-- Splits a name from the value after an equals sign. -/
def splitAssignment (arg : String) : List Char × Option String :=
  let name := arg.toList.takeWhile (· != '=')
  match arg.toList.drop name.length with
  | _ :: value => (name, some (String.ofList value))
  | [] => (name, none)

/-- The name in an argument, which must be one. -/
def nameOf (cs : List Char) : Shell String := do
  let name := String.ofList cs
  if !isName cs then Shell.fail s!"{name}: bad variable name"
  return name

end Builtin

end CommandScript.SystemShell
