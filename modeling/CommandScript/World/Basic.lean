import CommandScript.Program.Signal
import CommandScript.Table
import CommandScript.Text.Utf8

/-!
# The world

What a program can see of the system around it: the files of the working directory, the standard
streams, the clock, the journal that an application's own commands write, and how the system
answers when a program is to be started. It is a value, so a run is a function of it.
-/

namespace CommandScript

/-- Why the system refuses. -/
inductive SystemError where
  | notFound | notDirectory | isDirectory | invalidArgument | nameTooLong | notPermitted
  | nulInName | nulInArgument | invalidText
  deriving DecidableEq, Repr

namespace SystemError

/-- The reason in words. -/
def reason : SystemError → String
  | notFound => "No such file or directory"
  | notDirectory => "Not a directory"
  | isDirectory => "Is a directory"
  | invalidArgument => "Invalid argument"
  | nameTooLong => "File name too long"
  | notPermitted => "Permission denied"
  | nulInName => "file name contained an unexpected NUL byte"
  | nulInArgument => "nul byte found in provided data"
  | invalidText => "stream did not contain valid UTF-8"

/-- The number that the system has for it. -/
def code? : SystemError → Option Nat
  | notFound => some 2
  | notDirectory => some 20
  | isDirectory => some 21
  | invalidArgument => some 22
  | nameTooLong => some 36
  | notPermitted => some 13
  | nulInName | nulInArgument | invalidText => none

def message (e : SystemError) : String :=
  match e.code? with
  | some code => s!"{e.reason} (os error {code})"
  | none => e.reason

end SystemError

/-- What a program is started with. -/
structure Start where
  name : String
  args : List String
  files : Table ByteArray
  directory : String
  environment : Table String

/-- What a program leaves behind. -/
structure Ran where
  output : ByteArray
  errors : ByteArray
  ending : Ending
  files : Table ByteArray

/-- The programs of a system: what one that is started leaves behind, or nothing if it is not done
before the fuel runs out. -/
abbrev Host := (fuel : Nat) → Start → Except SystemError (Option Ran)

structure World where
  files : Table ByteArray := []
  /-- The standard input still to be read. -/
  input : List Char := []
  output : String := ""
  errors : String := ""
  /-- What the application's own commands wrote down. -/
  journal : List String := []
  /-- The path of the working directory. -/
  directory : String := "/work"
  /-- The variables that programs get. -/
  environment : Table String :=
    [("HOME", "/root"), ("PATH", "/usr/local/sbin:/usr/local/bin:/usr/sbin:/usr/bin:/sbin:/bin")]
  /-- The time in microseconds. It is the run's own: every command takes one. -/
  clock : Nat := 0
  /-- The system's programs, of which there need not be any. -/
  host : Host := fun _ _ => .error .notFound
  deriving Inhabited

namespace World

/-- What a path leads to. -/
inductive Target where
  | file (name : String)
  | directory
  /-- A name with a slash after it, which only a directory may have. -/
  | slashed (name : String)
  | nothing (reason : SystemError)
  deriving DecidableEq, Repr

/-- The components of a relative path. -/
def pathParts (path : String) : List String :=
  ((path.splitOn "/").filter fun part => part != "" && part != ".")

/-- Finds what a path leads to. All files lie in the working directory, which has no directories
below it. -/
def target (w : World) (path : String) : Target :=
  if path.isEmpty then .nothing .notFound
  else if path.toList.contains '\x00' then .nothing .nulInName
  else if (pathParts path).any fun part => part.utf8ByteSize > 255 then .nothing .nameTooLong
  else
    let absolute := path.startsWith "/"
    match pathParts path with
    | [] => .directory
    | [name] =>
      if absolute then .nothing .notFound
      else if name = ".." then .directory
      else if path.endsWith "/" then .slashed name
      else .file name
    | name :: _ =>
      if !absolute && w.files.contains name then .nothing .notDirectory else .nothing .notFound

/-- Why a name with a slash after it leads to no directory. -/
def slashedError (w : World) (name : String) : SystemError :=
  if w.files.contains name then .notDirectory else .notFound

/-- The bytes of a file. -/
def contents (w : World) (path : String) : Except SystemError ByteArray :=
  match w.target path with
  | .file name => (w.files.get? name).elim (.error .notFound) .ok
  | .directory => .error .isDirectory
  | .slashed name => .error (w.slashedError name)
  | .nothing reason => .error reason

/-- The text of a file. -/
def readText (w : World) (path : String) : Except SystemError String := do
  let bytes ← w.contents path
  (Text.decode? bytes).elim (.error .invalidText) .ok

/-- Runs a program with arguments. -/
def execute (w : World) (fuel : Nat) (name : String) (args : List String) :
    Except SystemError (Option Ran) :=
  w.host fuel ⟨name, args, w.files, w.directory, w.environment⟩

/-- Takes a line of the standard input, its end included. -/
def takeLine (w : World) : List Char × World :=
  let line := w.input.takeWhile (· != '\n')
  match w.input.dropWhile (· != '\n') with
  | [] => (line, { w with input := [] })
  | newline :: rest => (line ++ [newline], { w with input := rest })

/-- Lets a microsecond pass. -/
def tick (w : World) : World := { w with clock := w.clock + 1 }

def write (w : World) (text : String) : World := { w with output := w.output ++ text }

def writeError (w : World) (text : String) : World := { w with errors := w.errors ++ text }

end World

/-- A line without its end: a newline, or a carriage return and a newline. -/
def chompLine (line : List Char) : List Char :=
  match line.reverse with
  | '\n' :: '\r' :: rest => rest.reverse
  | '\n' :: rest => rest.reverse
  | _ => line

end CommandScript
