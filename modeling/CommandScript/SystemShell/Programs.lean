import CommandScript.Program.Cat
import CommandScript.Program.Echo
import CommandScript.Program.Printf
import CommandScript.SystemShell.Run

/-!
# Running programs

The programs of the system run as processes of their own, on the descriptors of the shell that
starts them. One of them is the shell itself: it reads commands from an argument, from a file or
from its input.
-/

namespace CommandScript.SystemShell.Shell

/-! ## Programs that write -/

/-- Why nothing can be written to a descriptor. -/
def writeFault (descriptor : Nat) : Shell String := do
  let s ← get
  match (s.process.descriptors.lookup descriptor).bind fun n => s.system.streams[n]? with
  | some .full => return "No space left on device"
  | _ => return "Bad file descriptor"

/-- Writes what a program reports. -/
def deliver (called : String) (report : Program.Report) : Shell Ending := do
  let mut failed := false
  for w in report.writes do
    let text := String.ofList w.text
    if w.complaint then writeError text
    else if !text.isEmpty then
      if !(← write 1 text) then failed := true
  if failed then
    let reason ← writeFault 1
    writeError s!"{called}: write error: {reason}\n"
    return .exited 1
  return .exited report.status

/-! ## `cat` -/

/-- The stream that a file's name leads to; a dash is the input. -/
def catStream (name : String) : Shell (Except String Nat) := do
  let shared ← if name == "-" then pure ((← process).descriptors.lookup 0) else sharedStream? name
  match shared with
  | some n => return .ok n
  | none =>
    if name == "-" then return .error "Bad file descriptor"
    let path ← resolve name
    let system ← system
    match system.openFile path .read false with
    | .ok (stream, _) => return .ok (← addStream stream)
    | .error _ =>
      match system.world.contents (Text.ofOctets path) with
      | .error reason => return .error reason.reason
      | .ok _ => return .error SystemError.notFound.reason

/-- Whether a stream gives what is written to the output, so that it would never end. -/
def givesOutput (n : Nat) : Shell Bool := do
  let s ← get
  let output := (s.process.descriptors.lookup 1).bind fun m => s.system.streams[m]?
  match s.system.streams[n]?, output with
  | some (.file source position ..), some (.file target written _ _ append) =>
    let size := (s.system.bytes target).size
    return source == target && position < (if append then size else written)
  | _, _ => return false

/-- How far the copying of files got. -/
structure Copying where
  position : Program.Cat.Position := {}
  status : Nat := 0
  /-- Whether the output can take no more. -/
  stopped : Bool := false

/-- Copies a file to the output. -/
def catFile (called : String) (o : Program.Cat.Options) (c : Copying) (name : String) :
    Shell Copying := do
  if c.stopped then return c
  let shown := String.ofList (Program.shellQuoted false name.toList)
  let refuse (reason : String) : Shell Copying := do
    writeError s!"{called}: {shown}: {reason}\n"
    return { c with status := 1 }
  match ← catStream name with
  | .error reason => refuse reason
  | .ok n =>
    if ← givesOutput n then refuse "input file is output file"
    else
      let system ← system
      match system.rest n with
      | .directory => refuse SystemError.isDirectory.reason
      | .closed => refuse "Bad file descriptor"
      | .text cs =>
        setSystem (system.advance n cs.length)
        let (text, position) := Program.Cat.render o c.position cs
        if text.isEmpty || (← write 1 (String.ofList text)) then return { c with position }
        let reason ← writeFault 1
        writeError s!"{called}: write error: {reason}\n"
        return { position, status := 1, stopped := true }

def cat (called : String) (args : List String) : Shell Ending := do
  match Program.Cat.Options.parse {} [] args with
  | .error reason =>
    writeError s!"{called}: {reason}\nTry '{called} --help' for more information.\n"
    return .exited 1
  | .ok (o, files) =>
    let p ← process
    if (p.descriptors.lookup 1).isNone then
      writeError s!"{called}: standard output: Bad file descriptor\n"
      return .exited 1
    let files := if files.isEmpty then ["-"] else files
    let done ← files.foldlM (catFile called o) {}
    if !done.stopped then
      let left := Program.Cat.finish done.position
      if !left.isEmpty then let _ ← write 1 (String.ofList left)
    if files.contains "-" && (p.descriptors.lookup 0).isNone then
      writeError s!"{called}: closing standard input: Bad file descriptor\n"
      return .exited 1
    return .exited done.status

/-! ## The shell as a program -/

/-- The variables of a new shell: those that its parent exports, and its own. -/
def initialVariables (parent : Process) (directory : String) : Table Variable :=
  let inherited := parent.vars.filterMap fun entry =>
    if entry.2.exported && entry.2.value.isSome && isName entry.1.toList then
      some (entry.1, { value := entry.2.value, exported := true })
    else none
  let always (name value : String) (vars : Table Variable) : Table Variable :=
    vars.insert name { (vars.get? name).getD {} with value := some value }
  let unlessSet (name value : String) (vars : Table Variable) : Table Variable :=
    if vars.contains name then vars else vars.insert name { value := some value }
  inherited |> always "IFS" " \t\n" |> always "OPTIND" "1" |> always "PPID" (toString parent.id)
    |> unlessSet "PATH" "/usr/local/sbin:/usr/local/bin:/usr/sbin:/usr/bin:/sbin:/bin"
    |> unlessSet "PS1" "# " |> unlessSet "PS2" "> " |> unlessSet "PS4" "+ "
    |> fun vars => vars.insert "PWD" { value := some directory, exported := true }

/-- A new shell that a process starts. -/
def newShell (id : Nat) (name directory : String) (parent : Process) : Process :=
  { id, name, shell := id
    vars := initialVariables parent directory
    descriptors := parent.descriptors
    traps := parent.traps.filter fun entry => entry.2.isEmpty
    away := parent.away
    mask := parent.mask }

/-- Sets the options of some letters; `c` says that commands follow as an argument. -/
def startLetters (on : Bool) : List Char → List String → (text : Bool) →
    Shell (Bool × List String)
  | [], rest, text => return (text, rest)
  | 'c' :: cs, rest, _ => startLetters on cs rest true
  | 'l' :: cs, rest, text => startLetters on cs rest text
  | 'o' :: cs, rest, text => do
    match rest with
    | name :: rest =>
      Builtin.setNamed on name
      startLetters on cs rest text
    | [] =>
      let _ ← write 1 (← Builtin.optionReport (!on))
      startLetters on cs [] text
  | c :: cs, rest, text => do
    Builtin.setLetter on c
    startLetters on cs rest text

/-- Takes the options of a shell's arguments, `fuel` of them at most. -/
def startOptions : (fuel : Nat) → List String → (text : Bool) → Shell (Bool × List String)
  | 0, args, text => return (text, args)
  | _, [], text => return (text, [])
  | fuel + 1, arg :: rest, text => do
    match arg.toList with
    | ['-'] | ['-', '-'] => return (text, rest)
    | '-' :: cs =>
      let (text, rest) ← startLetters true cs rest text
      startOptions fuel rest text
    | '+' :: cs =>
      let (text, rest) ← startLetters false cs rest text
      startOptions fuel rest text
    | _ => return (text, arg :: rest)

/-- Runs the commands that the input gives. -/
def runInput (k : Kernel) : Shell Unit := do
  let system ← system
  if let some n := (← process).descriptors.lookup 0 then
    if let .text cs := system.rest n then
      setSystem (system.advance n cs.length)
      let _ ← k.runText {} (String.ofList cs)

/-- Runs the commands of a file. -/
def runFile (k : Kernel) (path : String) (arguments : List String) : Shell Unit := do
  let system ← system
  match system.openFile (← resolve path) .read false with
  | .error .missing => fail s!"cannot open {path}: No such file"
  | .error _ => fail s!"cannot open {path}: Permission denied"
  | .ok (.file name .., _) =>
    modifyProcess fun p => { p with name := path, arguments }
    let _ ← k.runText {} (Text.ofBytes (system.bytes name))
  | .ok _ => return

/-- Does what a shell's arguments ask for. -/
def begin (k : Kernel) (args : List String) : Shell Unit := do
  let (text, rest) ← startOptions (args.length + 1) args false
  let readsInput ← hasOption 's'
  if text then
    match rest with
    | [] => fail "-c requires an argument"
    | text :: rest =>
      if let name :: arguments := rest then modifyProcess fun p => { p with name, arguments }
      let _ ← k.runText {} text
      if readsInput then runInput k
  else if readsInput then
    modifyProcess fun p => { p with arguments := rest }
    runInput k
  else
    match rest with
    | [] =>
      setOption 's' true
      runInput k
    | path :: arguments => runFile k path arguments

/-- Runs a shell as a process of its own. -/
def sh (k : Kernel) (called : String) (args : List String) : Shell Ending := do
  let parent ← process
  let system ← system
  setSystem { system with nextProcess := system.nextProcess + 1 }
  let directory ← directory
  modifyProcess fun _ => newShell system.nextProcess called directory parent
  let ending ← finish k (← attempt (begin k args))
  modifyProcess fun _ => parent
  return ending

/-! ## All programs -/

/-- Runs a program under the name by which it was called. -/
def runProgram (k : Kernel) (program called : String) (args : List String) : Shell Ending := do
  match program with
  | "cat" => cat called args
  | "echo" => deliver called (Program.Echo.run args)
  | "printf" => deliver called (Program.Printf.run called args)
  | "false" => return .exited 1
  | "sh" => sh k called args
  | _ => return .exited 0

/-- The kernel whose actions may nest to some depth. A shell that goes deeper dies of it. -/
def kernel (rounds : Nat) : (depth : Nat) → Kernel
  | 0 =>
    { expand := fun _ _ => throw (.killed 11)
      run := fun _ _ => throw (.killed 11)
      runText := fun _ _ => throw (.killed 11)
      output := fun _ => throw (.killed 11)
      program := fun _ _ _ => throw (.killed 11)
      runJob := fun _ => throw (.killed 11)
      rounds }
  | depth + 1 =>
    { expand := fun mode word => expandParts (kernel rounds depth) mode true word
      run := fun c command => run (kernel rounds depth) c command
      runText := fun c text => runText (kernel rounds depth) c text
      output := fun body => output (kernel rounds depth) body
      program := fun program called args => runProgram (kernel rounds depth) program called args
      runJob := fun job => runJob (kernel rounds depth) job
      rounds }

end CommandScript.SystemShell.Shell
