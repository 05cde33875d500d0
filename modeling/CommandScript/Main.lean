import CommandScript.Shell
import CommandScript.SystemShell.Host

/-!
# The command line

Loads the files of the working directory, the standard input and the variables of the system into a
world, runs the shell on it, and puts what it wrote back into the system. At a terminal the prompt
loop takes one line at a time.
-/

namespace CommandScript.Main

/-- Enough for any evaluation that ends. -/
def fuel : Nat := 1000000000000000

def engine : Engine Builtin := Engine.within Builtin.run fuel fuel

/-- The variables of the system, from their text: entries `name=value`, each ended by a zero. -/
def parseVariables (text : String) : List (String × String) :=
  (text.splitOn "\x00").filterMap fun entry =>
    match entry.splitOn "=" with
    | name :: rest@(_ :: _) => some (name, "=".intercalate rest)
    | _ => none

def loadVariables : IO (List (String × String)) := do
  try
    return parseVariables (Text.decodeLossy (← IO.FS.readBinFile "/proc/self/environ"))
  catch _ => return []

/-- The files of the working directory. -/
def loadFiles : IO (Table ByteArray) := do
  let mut files : Table ByteArray := []
  for entry in ← (← IO.currentDir).readDir do
    unless ← entry.path.isDir do
      try
        files := files.insert entry.fileName (← IO.FS.readBinFile entry.path)
      catch _ => pure ()
  return files

/-- Writes what a run has written and the files it has changed, and forgets the output. -/
def release (before : Table ByteArray) (s : State Builtin) : IO (State Builtin) := do
  let output ← IO.getStdout
  output.putStr s.world.output
  output.flush
  (← IO.getStderr).putStr s.world.errors
  for (name, bytes) in s.world.files do
    unless (before.get? name).any (·.data == bytes.data) do
      IO.FS.writeBinFile name bytes
  return { s with world := { s.world with output := "", errors := "" } }

/-- Runs an action; being cut short counts as a failure. -/
def perform {α : Type} (act : Act Builtin α) (failed : α) (s : State Builtin) :
    IO (α × State Builtin) := do
  let before := s.world.files
  match act s with
  | .ok a s => return (a, ← release before s)
  | .error _ s => return (failed, ← release before s)

/-- The prompt loop at a terminal. -/
partial def interact (pending : String) (s : State Builtin) : IO Int := do
  let (shown, s) ← perform (Shell.linePrompt engine pending) "" s
  let output ← IO.getStdout
  output.putStr shown
  output.flush
  let line ← (← IO.getStdin).getLine
  if line.isEmpty then return 0
  let (next, s) ←
    perform (Shell.takeIn engine pending (String.ofList (chompLine line.toList))) (.inr 1) s
  match next with
  | .inl pending => interact pending s
  | .inr status => return status

end CommandScript.Main

open CommandScript in
def main (args : List String) : IO UInt32 := do
  let vars ← Main.loadVariables
  let stdin ← IO.getStdin
  let interp : Interp Builtin := Interp.create (standardRegistry id) false
  let directory := (← IO.currentDir).toString
  let world : World :=
    { files := ← Main.loadFiles, directory, environment := vars, host := SystemShell.host }
  if args.isEmpty && (← stdin.isTty) then
    let ((), s) ← Main.perform (Shell.loadVariables vars) () { interp, world }
    return (Shell.processStatus (← Main.interact "" s)).toUInt32
  let input ← stdin.readToEnd
  let dumb := vars.lookup "TERM" == some "dumb"
  let (status, _) ←
    Main.perform (Shell.commandLine Main.engine vars args dumb) 1
      { interp, world := { world with input := input.toList } }
  return status.toUInt32
