import CommandScript.SystemShell.Builtin.Basic
import CommandScript.SystemShell.Condition

/-!
# Control

The commands that steer the shell: leaving loops, functions and the shell itself, running text as
commands, signals and what is done about them, and the directory.
-/

namespace CommandScript.SystemShell.Builtin

def succeed : Deed := fun _ _ _ => return 0

def failPlainly : Deed := fun _ _ _ => return 1

def test : Deed := fun _ _ args => return if ← Condition.evaluate false args then 0 else 1

/-- The condition in brackets, the last of which must begin the last word. -/
def bracket : Deed := fun k c args => do
  if (args.getLast?.bind fun word => word.toList.head?) == some ']' then test k c args.dropLast
  else Shell.fail "missing ]"

/-! ## Leaving -/

/-- How many loops to leave; no more than there are. -/
def loopCount (args : List String) : Shell Nat := do
  let n ← match args with
    | [] => pure 1
    | arg :: _ =>
      let n ← Shell.number arg
      if n = 0 then Shell.badNumber arg
      pure n
  return min n (← Shell.process).loops

def breakLoop : Deed := fun _ _ args => do
  let n ← loopCount args
  if n = 0 then return 0
  Shell.setStatus 0
  throw (.breakLoops n)

def continueLoop : Deed := fun _ _ args => do
  let n ← loopCount args
  if n = 0 then return 0
  Shell.setStatus 0
  throw (.continueLoops n)

/-- The status that an argument gives. -/
def statusOf? (args : List String) : Shell (Option Nat) := do
  match args with
  | [] => return none
  | arg :: _ => return some (← Shell.number arg)

def returnNow : Deed := fun _ _ args => do
  if let some status ← statusOf? args then Shell.setStatus status
  throw .returned

def exit : Deed := fun _ _ args => do
  let status? ← statusOf? args
  if let some status := status? then Shell.setStatus status
  throw (.exit status?)

/-! ## Running text -/

def eval : Deed := fun k c args => do
  let ran ← k.runText { tested := c.tested } (" ".intercalate args)
  let status := (← Shell.process).status
  return if ran then status else 0

/-- Runs the commands of a file. -/
def source : Deed := fun k _ args => do
  let (_, args) ← takeOptions "" args
  match args with
  | [] => return 0
  | path :: _ =>
    if !path.toList.contains '/' then Shell.fail s!"{path}: not found"
    let system ← Shell.system
    match system.openFile (← Shell.resolve path) .read false with
    | .error .missing => Shell.fail s!"cannot open {path}: No such file"
    | .error _ => Shell.fail s!"cannot open {path}: Permission denied"
    | .ok (stream, system) =>
      let text := match stream with
        | .file name _ _ _ _ => Text.ofBytes (system.bytes name)
        | _ => ""
      Shell.modifyProcess fun p => { p with speaker := some path }
      let result ← Shell.attempt (k.runText {} text)
      let status := (← Shell.process).status
      match result with
      | .ok ran => return if ran then status else 0
      | .error .returned => return status
      | .error j => throw j

/-! ## Signals -/

/-- The name that the shell gives a signal. -/
def signalName (s : Signal) : String :=
  if s = 0 then "EXIT"
  else if s = 16 then "16"
  else
    match s.name? with
    | some name => name
    | none =>
      if s < 34 then toString s
      else if s = 34 then "RTMIN"
      else if s < 50 then s!"RTMIN+{s - 34}"
      else if s = 64 then "RTMAX"
      else s!"RTMAX-{64 - s}"

/-- The signal of a name or a number from `least` on. -/
def signalOf? (least : Nat) (text : String) : Option Signal :=
  let cs := text.toList
  if !cs.isEmpty && cs.all Char.isDigit then
    let n := Integer.ofDigits 10 cs
    if least ≤ n && n < Signal.count || n = 0 then some n else none
  else
    (List.range Signal.count).find? fun s =>
      least ≤ s && (signalName s).toList.map Char.toUpper == cs.map Char.toUpper

def trap : Deed := fun _ _ args => do
  let (_, args) ← takeOptions "" args
  match args with
  | [] =>
    let traps := (← Shell.process).traps.mergeSort fun a b => a.1 ≤ b.1
    for entry in traps do
      Shell.put s!"trap -- {quoted entry.2} {signalName entry.1}\n"
    return 0
  | first :: rest =>
    let isNumber := first.toList.all Char.isDigit && (signalOf? 0 first).isSome
    let (action, names) : Option String × List String :=
      if rest.isEmpty || isNumber then (none, args)
      else (if first == "-" then none else some first, rest)
    for name in names do
      match signalOf? 0 name with
      | none =>
        Shell.writeError s!"trap: {name}: bad trap\n"
        return 1
      | some s =>
        Shell.modifyProcess fun p =>
          let others := p.traps.filter fun entry => entry.1 != s
          { p with traps := (action.map fun text => (s, text) :: others).getD others }
    return 0

/-- Puts a signal on its way. -/
def post (target : Nat) (s : Signal) : Shell Unit :=
  modify fun st =>
    { st with system := { st.system with signals := st.system.signals ++ [(target, s)] } }

/-- Sends a signal to the shell itself, or to the shell that it is a copy of. A shell dies of a
signal that it is not prepared for, and of one that cannot be caught. -/
def send (target : Nat) (s : Signal) : Shell Bool := do
  let p ← Shell.process
  if target = p.id then
    if s = 0 then return true
    match p.traps.lookup s with
    | some action =>
      if s = 9 then throw (.killed s)
      if !action.isEmpty then post p.id s
    | none => if !s.isIgnored then throw (.killed s)
    return true
  else if target = p.shell then
    if s != 0 then post target s
    return true
  else Shell.signalJob target s

def killUsage {α : Type} : Shell α :=
  Shell.fail "Usage: kill [-s sigspec | -signum | -sigspec] [pid | job]... or\nkill -l [exitstatus]"

/-- Lists the names of signals. -/
def listSignals (args : List String) : Shell Nat := do
  match args with
  | [] =>
    Shell.put "0\n"
    for s in List.range Signal.count do
      if s != 0 then Shell.put (signalName s ++ "\n")
    return 0
  | arg :: _ =>
    let n ← Shell.number arg
    let s := if n > 128 then n - 128 else n
    if 0 < s && s < Signal.count then
      Shell.put (signalName s ++ "\n")
      return 0
    Shell.fail s!"invalid signal number or exit status: {arg}"

/-- Sends a signal to processes in turn. -/
def sendAll (s : Signal) (args : List String) : Shell Nat := do
  let mut status := 0
  for arg in args do
    let target ← match arg.toList with
      | '-' :: cs => Shell.number (String.ofList cs)
      | '%' :: _ => Shell.fail s!"No such job: {arg}"
      | _ => Shell.number arg
    if !(← send target s) then
      Shell.complain "No such process\n"
      status := 1
  return status

def kill : Deed := fun _ _ args => do
  match args with
  | [] => killUsage
  | first :: rest =>
    match first.toList with
    | '-' :: cs =>
      match signalOf? 1 (String.ofList cs) with
      | some s => if rest.isEmpty then killUsage else sendAll s rest
      | none =>
        let (options, targets) ← takeOptions "ls:" args
        if options.any fun option => option.1 == 'l' then listSignals targets
        else
          let mut s : Signal := 15
          for option in options do
            match signalOf? 1 option.2 with
            | some found => s := found
            | none => Shell.fail s!"invalid signal number or name: {option.2}"
          if targets.isEmpty then killUsage
          sendAll s targets
    | _ => sendAll 15 args

/-- Waits for processes in the background, all of which run to their ends. -/
def wait : Deed := fun k _ args => do
  let (_, args) ← takeOptions "" args
  Shell.runWaiting k true
  if args.isEmpty then
    Shell.modifyProcess fun p => { p with jobs := [] }
    return 0
  let mut status := 0
  for arg in args do
    let id ← Shell.number arg
    status := ((← Shell.process).jobs.lookup id).getD 127
  return status

def jobs : Deed := fun _ _ _ => return 0

def noJob : Deed := fun _ _ _ => Shell.fail "No current job"

/-! ## The directory and the process -/

def pwd : Deed := fun _ _ args => do
  let _ ← takeOptions "LP" args
  Shell.put ((← Shell.directory) ++ "\n")
  return 0

/-- Sets a variable that programs get. -/
def setExported (name value : String) : Shell Unit := do
  Shell.setVariable name value
  Shell.modifyProcess fun p =>
    { p with vars := p.vars.insert name { (p.vars.get? name).getD {} with exported := true } }

def changeDirectory : Deed := fun _ _ args => do
  let (_, args) ← takeOptions "LP" args
  let valueOr (name : String) : Shell String := do return (← Shell.valueOf? name).getD ""
  let target ← match args with
    | [] => valueOr "HOME"
    | "-" :: _ => valueOr "OLDPWD"
    | path :: _ => pure path
  let old ← Shell.directory
  let path := plainPath (if target.startsWith "/" then target else old ++ "/" ++ target)
  let first := Text.toOctets (← Shell.system).world.directory
  if path != first && !directories.contains path && !first.startsWith (path ++ "/") then
    Shell.fail s!"can't cd to {target}"
  Shell.modifyProcess fun p => { p with away := if path == first then none else some path }
  setExported "OLDPWD" old
  setExported "PWD" path
  if args.head? == some "-" then Shell.put (path ++ "\n")
  return 0

/-! ### Rights that new files do not get -/

/-- The users whose rights a letter stands for: one bit for each kind of them. -/
def usersOf? (c : Char) : Option Nat :=
  match c with
  | 'a' => some 0o111
  | 'u' => some 0o100
  | 'g' => some 0o010
  | 'o' => some 0o001
  | _ => none

/-- The rights that a letter stands for, where `rights` are given to new files. -/
def rightsOf? (rights : Nat) (c : Char) : Option Nat :=
  match c with
  | 'r' => some 4
  | 'w' => some 2
  | 'x' => some 1
  | 'u' => some (rights / 64 % 8)
  | 'g' => some (rights / 8 % 8)
  | 'o' => some (rights % 8)
  | 'X' => some (if rights &&& 0o111 = 0 then 0 else 1)
  | 's' => some 0
  | _ => none

/-- Changes rights as a text says: users, a sign and rights, with a comma between such parts. -/
def changeRights (rights : Nat) : (fuel : Nat) → (users new : Nat) → List Char → Option Nat
  | 0, _, _, _ => none
  | _, _, new, [] => some new
  | fuel + 1, users, new, cs =>
    let named := cs.takeWhile fun c => (usersOf? c).isSome
    let users := (named.filterMap usersOf?).foldl (· ||| ·) users
    let users := if users = 0 then 0o111 else users
    match cs.drop named.length with
    | sign :: cs =>
      let letters := cs.takeWhile fun c => (rightsOf? rights c).isSome
      let value := ((letters.filterMap (rightsOf? rights)).foldl (· ||| ·) 0) * users
      let cs := cs.drop letters.length
      let without (mask : Nat) : Nat := new &&& (0o777 ^^^ mask)
      let next : Option Nat := match sign with
        | '-' => some (without value)
        | '=' => some (value ||| without (users * 7))
        | '+' => some (new ||| value)
        | _ => none
      match next, cs with
      | none, _ => none
      | some new, ',' :: cs => changeRights rights fuel 0 new cs
      | some new, [] => some new
      | some new, c :: cs =>
        if c == '=' || c == '+' || c == '-' then changeRights rights fuel users new (c :: cs)
        else none
    | [] => none

def umask : Deed := fun _ _ args => do
  let (options, args) ← takeOptions "S" args
  let mask := (← Shell.process).mask
  match args with
  | [] =>
    if options.isEmpty then
      let digits := String.ofList (Nat.toDigits 8 mask)
      Shell.put (String.ofList (List.replicate (4 - digits.length) '0') ++ digits ++ "\n")
    else
      let rights (n : Nat) : String :=
        (if n / 4 % 2 = 0 then "r" else "") ++ (if n / 2 % 2 = 0 then "w" else "") ++
          (if n % 2 = 0 then "x" else "")
      Shell.put s!"u={rights (mask / 64)},g={rights (mask / 8)},o={rights mask}\n"
    return 0
  | arg :: _ =>
    let cs := arg.toList
    if cs.head?.any Char.isDigit then
      if !cs.all (Integer.isDigitOf 8) then Shell.badNumber arg
      Shell.modifyProcess fun p => { p with mask := Integer.ofDigits 8 cs % 512 }
    else
      match changeRights (0o777 ^^^ mask) (cs.length + 1) 0 (0o777 ^^^ mask) cs with
      | some rights => Shell.modifyProcess fun p => { p with mask := 0o777 ^^^ rights }
      | none => Shell.fail s!"Illegal mode: {arg}"
    return 0

def times : Deed := fun _ _ _ => do
  Shell.put "0m0.000000s 0m0.000000s\n0m0.000000s 0m0.000000s\n"
  return 0

def ulimit : Deed := fun _ _ args => do
  let (_, args) ← takeOptions "HSatfdsmcnpvlwr" args
  if args.isEmpty then Shell.put "unlimited\n"
  return 0

end CommandScript.SystemShell.Builtin
