import CommandScript.SystemShell.Pattern
import CommandScript.SystemShell.System

/-!
# The state of a shell

A shell is a process with variables, functions, options and descriptors. Its actions change it and
the system around it, and may leave what they are in by a jump: out of loops, out of a function, or
out of the shell.
-/

namespace CommandScript.SystemShell

structure Variable where
  /-- The value; a variable may be known and have none. -/
  value : Option String := none
  exported : Bool := false
  readOnly : Bool := false
  deriving DecidableEq, Repr, Inhabited

structure Function where
  body : Command
  line : Nat

structure Process where
  /-- The number of the process. -/
  id : Nat
  /-- The number that the shell gives as its own, also where a copy of it runs. -/
  shell : Nat
  /-- The name under which it complains. -/
  name : String
  arguments : List String := []
  vars : Table Variable := []
  /-- The variables that functions and commands hide while they run, innermost first. -/
  hidden : List (Table (Option Variable)) := []
  functions : Table Function := []
  aliases : Table String := []
  /-- The programs whose places are remembered. -/
  known : List String := []
  /-- The letters of the options that are on. -/
  options : List Char := []
  descriptors : List (Nat × Nat) := []
  /-- The status of the last command. -/
  status : Nat := 0
  /-- The status of the last command whose output was taken. -/
  outputStatus : Nat := 0
  /-- The last process in the background. -/
  lastBackground : Option Nat := none
  /-- The statuses of processes in the background. -/
  jobs : List (Nat × Nat) := []
  /-- The commands that signals run; an empty one ignores its signal, and 0 stands for the end. -/
  traps : List (Signal × String) := []
  /-- The line of the command that runs. -/
  line : Nat := 0
  /-- The line up to which commands were read. -/
  readLine : Nat := 1
  /-- What the current command has to write when it is done. -/
  pending : String := ""
  /-- The command that complains. -/
  speaker : Option String := none
  /-- How many loops the current command is in. -/
  loops : Nat := 0
  /-- How many functions the current command is in. -/
  calls : Nat := 0
  documents : List (Nat × Spelling) := []
  nextDocument : Nat := 0
  /-- The directory that the shell went to, if it left the first one. -/
  away : Option String := none
  mask : Nat := 18
  /-- How far the options of one argument were read. -/
  optionOffset : Nat := 0

/-- A command in the background that did not begin yet. -/
structure Job where
  id : Nat
  /-- The shell that started it. -/
  owner : Nat
  /-- Whether it needs no other program to begin. -/
  quick : Bool
  /-- The process that it runs in. -/
  process : Process
  command : Command

structure State where
  process : Process
  system : System
  /-- The commands in the background that did not begin yet. -/
  waiting : List Job := []

/-- Why an action does not go on. -/
inductive Jump where
  /-- The shell ends, with a status of its own or with that of the last command. -/
  | exit (status : Option Nat)
  /-- A command failed in a way that ends the shell, unless something catches it. -/
  | failure
  | breakLoops (count : Nat)
  | continueLoops (count : Nat)
  /-- A function or a file of commands ends. -/
  | returned
  | killed (signal : Signal)
  | outOfFuel
  deriving DecidableEq, Repr

abbrev Shell := EStateM Jump State

namespace Shell

variable {α : Type}

def process : Shell Process := return (← get).process

def modifyProcess (f : Process → Process) : Shell Unit :=
  modify fun s => { s with process := f s.process }

def system : Shell System := return (← get).system

def setSystem (system : System) : Shell Unit := modify fun s => { s with system }

def setStatus (status : Nat) : Shell Unit := modifyProcess fun p => { p with status }

/-- Runs an action and tells how it ended, but for running out of fuel. -/
def attempt (act : Shell α) : Shell (Except Jump α) := fun s =>
  match act s with
  | .ok a s => .ok (.ok a) s
  | .error .outOfFuel s => .error .outOfFuel s
  | .error j s => .ok (.error j) s

/-- Ends as an attempt did. -/
def conclude : Except Jump α → Shell α
  | .ok a => return a
  | .error j => throw j

/-- Runs an action and, however it ends, changes the process afterwards. -/
def andThen (act : Shell α) (after : Process → Process) : Shell α := do
  let result ← attempt act
  modifyProcess after
  conclude result

/-! ## Options -/

def hasOption (letter : Char) : Shell Bool := return (← process).options.contains letter

/-- The options: their names and letters. -/
def optionNames : List (String × Char) :=
  [("errexit", 'e'), ("noglob", 'f'), ("ignoreeof", 'I'), ("interactive", 'i'), ("monitor", 'm'),
    ("noexec", 'n'), ("stdin", 's'), ("xtrace", 'x'), ("verbose", 'v'), ("vi", 'V'),
    ("emacs", 'E'), ("noclobber", 'C'), ("allexport", 'a'), ("notify", 'b'), ("nounset", 'u'),
    ("privileged", 'p'), ("nolog", '\x00'), ("debug", '\x01')]

def setOption (letter : Char) (on : Bool) : Shell Unit :=
  modifyProcess fun p =>
    let others := p.options.filter (· != letter)
    { p with options := if on then letter :: others else others }

/-- The letters of the options that are on, as a parameter shows them. -/
def optionLetters : Shell String := do
  let p ← process
  let letters := (optionNames.map Prod.snd).reverse.filter fun c =>
    c.toNat > 1 && p.options.contains c
  return String.ofList letters

/-! ## Output -/

/-- Writes to a descriptor, and says whether that could be done. -/
def write (descriptor : Nat) (text : String) : Shell Bool := do
  let s ← get
  match s.process.descriptors.lookup descriptor with
  | none => return false
  | some n =>
    match s.system.write? n text with
    | some system =>
      setSystem system
      return true
    | none => return false

/-- Writes to the errors. -/
def writeError (text : String) : Shell Unit := do
  let _ ← write 2 text

/-- Complains, with the shell's name, the line and the command that speaks. -/
def complain (message : String) : Shell Unit := do
  let p ← process
  let speaker := (p.speaker.map (· ++ ": ")).getD ""
  writeError s!"{p.name}: {p.line}: {speaker}{message}\n"

/-- Complains and fails. -/
def fail (message : String) : Shell α := do
  complain message
  setStatus 2
  throw .failure

/-- Complains of the text that is read, and fails. -/
def failGrammar (line : Nat) (message : String) : Shell α := do
  modifyProcess fun p => { p with line }
  fail s!"Syntax error: {message}"

/-- Puts down a text that the current command writes when it is done. -/
def put (text : String) : Shell Unit :=
  modifyProcess fun p => { p with pending := p.pending ++ text }

/-- Fails because of an argument that should be a number. -/
def badNumber (text : String) : Shell α := fail s!"Illegal number: {text}"

/-- A number of digits only. -/
def number (text : String) : Shell Nat := do
  let cs := text.toList
  if cs.isEmpty || !cs.all Char.isDigit then badNumber text
  let n := cs.foldl (fun n c => n * 10 + (c.toNat - '0'.toNat)) 0
  if n > 0x7FFFFFFF then badNumber text
  return n

/-! ## Variables -/

def valueOf? (name : String) : Shell (Option String) := do
  return ((← process).vars.get? name).bind Variable.value

/-- Gives a variable a value. -/
def setVariable (name value : String) : Shell Unit := do
  let p ← process
  let old := (p.vars.get? name).getD {}
  if old.readOnly then fail s!"{name}: is read only"
  let exported := old.exported || p.options.contains 'a'
  modifyProcess fun p =>
    { p with vars := p.vars.insert name { old with value := some value, exported } }
  if name == "OPTIND" then modifyProcess fun p => { p with optionOffset := 0 }
  if name == "PATH" then modifyProcess fun p => { p with known := [] }

/-- Takes a variable away. -/
def unsetVariable (name : String) : Shell Unit := do
  let p ← process
  let old := (p.vars.get? name).getD {}
  if old.readOnly then fail s!"{name}: is read only"
  modifyProcess fun p => { p with vars := p.vars.erase name }
  if name == "PATH" then modifyProcess fun p => { p with known := [] }

/-- Hides a variable for as long as the innermost function or command runs. -/
def hideVariable (name : String) : Shell Unit :=
  modifyProcess fun p =>
    match p.hidden with
    | [] => p
    | table :: rest =>
      if table.contains name then p
      else { p with hidden := table.insert name (p.vars.get? name) :: rest }

/-- Brings back the variables that the innermost function or command hid. -/
def revealVariables (p : Process) : Process :=
  match p.hidden with
  | [] => p
  | table :: rest =>
    let vars := table.foldl (fun (vars : Table Variable) (entry : String × Option Variable) =>
      match entry.2 with
      | some v => vars.insert entry.1 v
      | none => vars.erase entry.1) p.vars
    { p with vars, hidden := rest, known := if table.contains "PATH" then [] else p.known }

/-- The characters that divide fields; nothing if the variable for them is not set. -/
def separators? : Shell (Option (List Char)) := do
  return (← valueOf? "IFS").map String.toList

/-! ## Descriptors -/

/-- Gives a descriptor a new stream. -/
def setDescriptor (descriptor : Nat) (stream : Option Nat) : Shell Unit :=
  modifyProcess fun p =>
    let others := p.descriptors.filter fun entry => entry.1 != descriptor
    { p with descriptors := (stream.map fun n => (descriptor, n) :: others).getD others }

def addStream (stream : Stream) : Shell Nat := do
  let (n, system) := (← system).add stream
  setSystem system
  return n

/-- The directory that the shell is in. -/
def directory : Shell String := do
  let first := Text.toOctets (← system).world.directory
  return (← process).away.getD first

/-- The path as seen from the first directory. -/
def resolve (path : String) : Shell String := do
  let first := Text.toOctets (← system).world.directory
  let whole := match (← process).away with
    | none => path
    | some directory =>
      if path.startsWith "/" || path.isEmpty then path else directory ++ "/" ++ path
  if whole == first then return "."
  else if whole.startsWith (first ++ "/") then
    return "." ++ String.ofList (whole.toList.drop first.length)
  else return whole

/-! ## Programs by name -/

/-- The programs of the system. -/
def programs : List String := ["cat", "echo", "false", "printf", "sh", "true"]

/-- The directories that programs are in. -/
def programDirectories : List String := ["/usr/bin/", "/bin/"]

/-- The program that a path leads to. -/
def programAt? (path : String) : Option String :=
  if !path.startsWith "/" || path.endsWith "/" then none
  else
    programDirectories.findSome? fun directory =>
      programs.find? fun name => plainPath path == directory ++ name

end Shell

end CommandScript.SystemShell
