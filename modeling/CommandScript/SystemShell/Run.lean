import CommandScript.SystemShell.Builtin.Control
import CommandScript.SystemShell.Builtin.Lookup
import CommandScript.SystemShell.Builtin.Output
import CommandScript.SystemShell.Builtin.Variables
import CommandScript.SystemShell.Parser

/-!
# Running commands

Each kind of command and what it does. A command in parentheses, in a pipeline or in the background
runs in a copy of the shell, of which only what it did to the system remains. The commands of a
pipeline run one after another, each on all that the one before it wrote.
-/

namespace CommandScript.SystemShell

/-- The commands of the shell itself. -/
def builtins : Table Builtin :=
  [(".", { deed := Builtin.source }),
    (":", { deed := Builtin.succeed }),
    ("break", { deed := Builtin.breakLoop }),
    ("continue", { deed := Builtin.continueLoop }),
    ("eval", { deed := Builtin.eval }),
    ("exec", { deed := Builtin.exec }),
    ("exit", { deed := Builtin.exit }),
    ("export", { assigns := true, deed := Builtin.exportNames }),
    ("local", { assigns := true, deed := Builtin.makeLocal }),
    ("readonly", { assigns := true, deed := Builtin.protectNames }),
    ("return", { deed := Builtin.returnNow }),
    ("set", { deed := Builtin.set }),
    ("shift", { deed := Builtin.shift }),
    ("times", { deed := Builtin.times }),
    ("trap", { deed := Builtin.trap }),
    ("unset", { deed := Builtin.unset }),
    ("[", { deed := Builtin.bracket }),
    ("alias", { deed := Builtin.nameAlias }),
    ("bg", { deed := Builtin.noJob }),
    ("cd", { deed := Builtin.changeDirectory }),
    ("chdir", { deed := Builtin.changeDirectory }),
    ("command", { deed := Builtin.command }),
    ("echo", { deed := Builtin.echo }),
    ("false", { deed := Builtin.failPlainly }),
    ("fg", { deed := Builtin.noJob }),
    ("getopts", { deed := Builtin.getopts }),
    ("hash", { deed := Builtin.hash }),
    ("jobs", { deed := Builtin.jobs }),
    ("kill", { deed := Builtin.kill }),
    ("printf", { deed := Builtin.printf }),
    ("pwd", { deed := Builtin.pwd }),
    ("read", { deed := Builtin.read }),
    ("test", { deed := Builtin.test }),
    ("true", { deed := Builtin.succeed }),
    ("type", { deed := Builtin.type }),
    ("ulimit", { deed := Builtin.ulimit }),
    ("umask", { deed := Builtin.umask }),
    ("unalias", { deed := Builtin.dropAlias }),
    ("wait", { deed := Builtin.wait })]

namespace Shell

/-! ## Signals and endings -/

/-- Does what the shell has to do about the signals that came for it. -/
def settle (k : Kernel) : Shell Unit := do
  let s ← get
  let mine := s.system.signals.filter fun entry => entry.1 = s.process.id
  if mine.isEmpty then return
  let others := s.system.signals.filter fun entry => entry.1 != s.process.id
  setSystem { s.system with signals := others }
  for entry in mine do
    match (← process).traps.lookup entry.2 with
    | some action =>
      if !action.isEmpty then
        let status := (← process).status
        let _ ← k.runText {} action
        setStatus status
    | none => if !entry.2.isIgnored then throw (.killed entry.2)

/-- Runs the command that was left for the end of the shell; `status` is the shell's otherwise. -/
def runExitTrap (k : Kernel) (status : Nat) : Shell Ending := do
  let p ← process
  match p.traps.lookup 0 with
  | none => return .exited (status % 256)
  | some action =>
    modifyProcess fun p => { p with traps := p.traps.filter fun entry => entry.1 != 0 }
    setStatus status
    match ← attempt (k.runText {} action) with
    | .error (.exit (some status)) => return .exited (status % 256)
    | .error .failure => return .exited ((← process).status % 256)
    | .error (.killed s) => return .killed s
    | _ => return .exited (status % 256)

/-- How a shell ends whose commands ended in some way. -/
def finish {α : Type} (k : Kernel) (result : Except Jump α) : Shell Ending := do
  let ending ← match result with
    | .error (.killed s) => pure (.killed s)
    | .error (.exit (some status)) => runExitTrap k status
    | _ => runExitTrap k (← process).status
  runWaiting k true
  return ending

/-- Runs an action in another process. -/
def runAs (k : Kernel) (p : Process) (act : Shell Unit) : Shell Ending := do
  let parent ← process
  modifyProcess fun _ => p
  let ending ← finish k (← attempt act)
  modifyProcess fun _ => parent
  return ending

/-- Runs an action in a copy of the shell. -/
def inCopy (k : Kernel) (act : Shell Unit) : Shell Ending := do
  runWaiting k false
  runAs k (← newCopy) act

/-- Takes the status of a process that ended. If a signal ended it, the shell says so. -/
def takeEnding (ending : Ending) : Shell Unit := do
  setStatus ending.status
  if let .killed s := ending then
    if s != 2 && s != 13 then writeError (s.description ++ "\n")

/-- Ends the shell if a command failed that must not. -/
def checkStatus (c : Circumstances) : Shell Unit := do
  let status := (← process).status
  if status != 0 && !c.tested && (← hasOption 'e') then throw (.exit (some status))

/-! ## Simple commands -/

/-- The words after `command` and its options, if it is to run one. -/
def afterCommand? : List String → Option (List String)
  | [] => none
  | "-p" :: rest => afterCommand? rest
  | "--" :: rest => if rest.isEmpty then none else some rest
  | word :: rest => if word.startsWith "-" then none else some (word :: rest)

/-- Takes `command` off words, perhaps many times, and says whether it was there. -/
def dropCommand : (fuel : Nat) → List String → List String × Bool
  | 0, words => (words, false)
  | fuel + 1, words =>
    match words with
    | "command" :: rest =>
      match afterCommand? rest with
      | some words => ((dropCommand fuel words).1, true)
      | none => (words, false)
    | words => (words, false)

/-- Whether the words so far are of a command whose arguments may be assignments. -/
def takesAssignments (args : List String) : Shell Bool := do
  match (dropCommand args.length args).1 with
  | name :: _ => return ((builtins.get? name).map Builtin.assigns).getD false
  | [] => return false

/-- Expands the words of a command. -/
def expandCommand (k : Kernel) : List String → List Spelling → Shell (List String)
  | args, [] => return args
  | args, word :: rest => do
    let new ← match ← takesAssignments args, word.assignment? with
      | true, some (name, value) => do
        pure [name ++ "=" ++ (← expandText k .assignment value)]
      | _, _ => expandWord k word
    expandCommand k (args ++ new) rest

/-- Makes the assignments of a command; hidden ones last as long as it runs and are exported. -/
def assign (k : Kernel) (hidden exported : Bool) :
    List (String × Spelling) → Shell (List String)
  | [] => return []
  | (name, word) :: rest => do
    let value ← expandText k .assignment word
    if hidden then hideVariable name
    setVariable name value
    if hidden || exported then Builtin.markVariable name fun v => { v with exported := true }
    return (name ++ "=" ++ value) :: (← assign k hidden exported rest)

/-- Shows a command before it runs, if the shell was asked to, where the errors went before. -/
def trace (old : Process) (words : List String) : Shell Unit := do
  if !(← hasOption 'x') then return
  let mark := (← valueOf? "PS4").getD ""
  let text := mark ++ " ".intercalate words ++ "\n"
  if let some n := old.descriptors.lookup 2 then
    if let some system := (← system).write? n text then setSystem system

/-- Runs a command of the shell itself. What it puts down is written when it is done. -/
def runBuiltin (k : Kernel) (c : Circumstances) (name : String) (special : Bool)
    (args : List String) : Shell Unit := do
  let deed := ((builtins.get? name).map Builtin.deed).getD Builtin.succeed
  let speaker := (← process).speaker
  modifyProcess fun p => { p with speaker := some name, pending := "" }
  let result ← attempt (deed k c args)
  let text := (← process).pending
  modifyProcess fun p => { p with pending := "" }
  let written ← if text.isEmpty then pure true else write 1 text
  match result with
  | .ok status =>
    if !written then complain s!"{name}: I/O error"
    setStatus (if written then status else max status 1)
    modifyProcess fun p => { p with speaker }
  | .error j =>
    modifyProcess fun p => { p with speaker }
    if j == .failure && !special then return
    throw j

/-- How deep functions may call each other. -/
def deepest : Nat := 1000

/-- Runs a function. -/
def runFunction (k : Kernel) (c : Circumstances) (f : Function) (arguments : List String) :
    Shell Unit := do
  let old ← process
  if old.calls ≥ deepest then fail s!"Maximum function recursion depth ({deepest}) reached"
  modifyProcess fun p => { p with arguments, loops := 0, calls := p.calls + 1, optionOffset := 0 }
  let result ← attempt (k.run { tested := c.tested } f.body)
  modifyProcess fun p =>
    { p with
      arguments := old.arguments, loops := old.loops, calls := old.calls
      optionOffset := old.optionOffset }
  match result with
  | .ok () | .error .returned => return
  | .error j => throw j

/-- Runs what a command's name leads to. -/
def runTarget (k : Kernel) (c : Circumstances) (special : Bool) (target : Target) (name : String)
    (args : List String) : Shell Unit := do
  match target with
  | .function f => runFunction k c f args
  | .builtin name => runBuiltin k c name special args
  | .program program =>
    runWaiting k false
    let ending ← k.program program name args
    match ending with
    | .killed s =>
      if c.last && (← process).traps.isEmpty then throw (.killed s)
      takeEnding ending
    | .exited status => setStatus status
  | target => setStatus (← Builtin.notRun name target)

/-- Runs a simple command: expands its words, redirects, assigns, and goes where the name leads. -/
def runSimple (k : Kernel) (c : Circumstances) (line : Nat)
    (assignments : List (String × Spelling)) (words : List Spelling) (redirects : List Redirect) :
    Shell Unit := do
  modifyProcess fun p => { p with line, outputStatus := 0 }
  let all ← expandCommand k [] words
  let (args, viaCommand) := dropCommand all.length all
  let target ← match args with
    | name :: _ => Target.find (!viaCommand) name
    | [] => pure .missing
  let isSpecial := match target with
    | .builtin name => specialNames.contains name
    | _ => false
  let special := isSpecial && !viaCommand
  let isExec := match target with
    | .builtin name => name == "exec"
    | _ => false
  let hides := !args.isEmpty && !special
  let openings ← redirects.mapM (expandRedirect k)
  let old ← process
  if hides then modifyProcess fun p => { p with hidden := [] :: p.hidden }
  andThen (do
    if ← openAll k openings then
      let shown ← assign k hides (isExec && args.length > 1) assignments
      if !(shown.isEmpty && all.isEmpty) then trace old (shown ++ all)
      match args with
      | [] => setStatus (← process).outputStatus
      | name :: rest => runTarget k c special target name rest
    else
      setStatus 2
      if special then throw .failure)
    (fun p =>
      let p := if hides then revealVariables p else p
      if isExec && p.status == 0 then p else restoreDescriptors old p)

/-! ## Compound commands -/

/-- Runs a part of a command that may be missing; a missing one succeeds. -/
def runOption (k : Kernel) (c : Circumstances) : Option Command → Shell Unit
  | some command => k.run c command
  | none => setStatus 0

/-- Runs a command in a copy of the shell with some descriptors. -/
def runPiece (k : Kernel) (c : Circumstances) (command : Command) (input output : Option Nat) :
    Shell Ending :=
  inCopy k do
    if input.isSome then setDescriptor 0 input
    if output.isSome then setDescriptor 1 output
    k.run { c with last := true } command

/-- Remembers the program of a command whose name is plain. -/
def remember : Command → Shell Unit
  | .simple _ _ (word :: _) _ => do
    if let some name := Spelling.plain? word then
      let _ ← Target.find true name
  | _ => return

/-- The text that a stream kept. -/
def keptText (n : Nat) : Shell String := do
  match (← system).streams[n]? with
  | some (.sink text) => return text
  | _ => return ""

/-- Runs the commands of a pipeline; the last one's ending counts. All begin with the status from
before the pipeline. -/
def runPipeline (k : Kernel) (c : Circumstances) (status : Nat) (input : Option Nat) :
    List Command → Shell Unit
  | [] => return
  | [last] => do
    remember last
    setStatus status
    takeEnding (← runPiece k c last input none)
  | command :: rest => do
    remember command
    let output ← addStream (.sink "")
    setStatus status
    takeEnding (← runPiece k c command input (some output))
    let next ← addStream (.supply (← keptText output).toList)
    runPipeline k c status (some next) rest

/-- What a round of a loop means for the loop. -/
inductive Round where
  | next
  | leave

/-- Runs the body of a loop. -/
def runBody (act : Shell Unit) : Shell Round := do
  match ← attempt act with
  | .ok () => return .next
  | .error (.breakLoops n) => if n > 1 then throw (.breakLoops (n - 1)) else return .leave
  | .error (.continueLoops n) => if n > 1 then throw (.continueLoops (n - 1)) else return .next
  | .error j => throw j

/-- Runs a loop's action inside one more loop. -/
def inLoop (act : Shell Unit) : Shell Unit := do
  let loops := (← process).loops
  modifyProcess fun p => { p with loops := loops + 1 }
  andThen act fun p => { p with loops }

/-- A round of `while` or `until`. The status of the last body is kept aside while the test runs. -/
def loopRound (k : Kernel) (c : Circumstances) (untilSuccess : Bool) (test body : Option Command)
    (bodyStatus : Nat) : Shell (Round × Nat) := do
  match ← runBody (runOption k { tested := true } test) with
  | .leave => return (.leave, 0)
  | .next =>
    if ((← process).status == 0) == untilSuccess then return (.leave, bodyStatus)
    let round ← runBody (runOption k { tested := c.tested } body)
    return (round, (← process).status)

/-- Runs `while` or `until`. -/
def runLoop (k : Kernel) (c : Circumstances) (untilSuccess : Bool) (test body : Option Command) :
    (rounds : Nat) → (bodyStatus : Nat) → Shell Unit
  | 0, _ => throw .outOfFuel
  | rounds + 1, bodyStatus => do
    match ← loopRound k c untilSuccess test body bodyStatus with
    | (.next, status) => runLoop k c untilSuccess test body rounds status
    | (.leave, status) => setStatus status

/-- Runs the body of `for` for each word. -/
def runEach (k : Kernel) (c : Circumstances) (name : String) (body : Option Command) :
    List String → Shell Unit
  | [] => return
  | word :: rest => do
    setVariable name word
    match ← runBody (runOption k { tested := c.tested } body) with
    | .next => runEach k c name body rest
    | .leave => return

/-- Whether a word matches one of some patterns. -/
def matchesAny (k : Kernel) (word : String) : List Spelling → Shell Bool
  | [] => return false
  | spelling :: rest => do
    let pattern ← expandPattern k spelling
    if pattern.isMatch word.toList then return true
    matchesAny k word rest

/-- Runs the first case that a word matches. -/
def runCases (k : Kernel) (c : Circumstances) (word : String) :
    List (List Spelling × Option Command) → Shell Unit
  | [] => setStatus 0
  | (patterns, body) :: rest => do
    if ← matchesAny k word patterns then runOption k c body
    else runCases k c word rest

/-- Whether a command begins without another program. -/
def isQuick : Command → Shell Bool
  | .simple _ _ (word :: _) _ => do
    match ← Target.locate true ((Spelling.plain? word).getD "") with
    | .program _ => return false
    | _ => return true
  | .pipeline (first :: _) => isQuick first
  | _ => return true

/-- Runs a command of the background to its end. -/
def runJob (k : Kernel) (job : Job) : Shell Ending :=
  runAs k job.process (k.run { last := true } job.command)

def setLine (line : Nat) : Shell Unit := modifyProcess fun p => { p with line }

/-- Runs a command. -/
def runKind (k : Kernel) (c : Circumstances) : Command → Shell Unit
  | .simple line assignments words redirects => do
    runSimple k c line assignments words redirects
    settle k
    checkStatus c
  | .pipeline commands => do
    runPipeline k c (← process).status none commands
    settle k
    checkStatus c
  | .negation command => do
    k.run { tested := true } command
    setStatus (if (← process).status == 0 then 1 else 0)
  | .conjunction first second => do
    k.run { tested := true } first
    if (← process).status == 0 then k.run c second
  | .disjunction first second => do
    k.run { tested := true } first
    if (← process).status != 0 then k.run c second
  | .sequence first second => do
    k.run { tested := c.tested } first
    k.run c second
  | .background line command => do
    setLine line
    addJob (← isQuick command) command
    setStatus 0
  | .subshell line body redirects => do
    setLine line
    let openings ← redirects.mapM (expandRedirect k)
    let ending ← inCopy k do
      openings.forM (carryOut k false)
      runOption k { c with last := true } body
    takeEnding ending
    settle k
    checkStatus c
  | .redirected line body redirects => do
    setLine line
    redirected k redirects (runOption k { tested := c.tested } body) (checkStatus c)
  | .branch test yes no => do
    runOption k { tested := true } test
    if (← process).status == 0 then runOption k c yes
    else runOption k c no
  | .loop untilSuccess test body => inLoop (runLoop k c untilSuccess test body k.rounds 0)
  | .each line name words body => do
    setLine line
    let lists ← words.mapM (expandWord k)
    if lists.flatten.isEmpty then setStatus 0
    inLoop (runEach k c name body lists.flatten)
  | .choice line word cases => do
    setLine line
    let text ← expandText k .start word
    runCases k c text cases
  | .define name line body => do
    modifyProcess fun p => { p with functions := p.functions.insert name { body, line } }
    setStatus 0

/-- Runs a command, unless the shell only reads. -/
def run (k : Kernel) (c : Circumstances) (command : Command) : Shell Unit := do
  if ← hasOption 'n' then return
  runKind k c command
  settle k

/-! ## Text and output -/

/-- Runs the lines of a source, `fuel` of them at most, and says whether there was a command. -/
def runLines (k : Kernel) (c : Circumstances) : (fuel : Nat) → (ran : Bool) → Source → Shell Bool
  | 0, ran, _ => return ran
  | fuel + 1, ran, source => do
    let aliases := (← process).aliases
    match Reader.line { source with aliases } with
    | .error fault _ => failGrammar fault.line fault.message
    | .ok none _ => return ran
    | .ok (some body) source =>
      modifyProcess fun p =>
        { p with
          readLine := source.line
          documents := source.documents ++ p.documents
          nextDocument := source.nextDocument }
      if let some command := body then k.run { tested := c.tested } command
      runLines k c fuel (ran || body.isSome) { source with documents := [] }

/-- Runs a text of commands. -/
def runText (k : Kernel) (c : Circumstances) (text : String) : Shell Bool := do
  let source : Source := { rest := text.toList, nextDocument := (← process).nextDocument }
  runLines k c (text.length + 2) false source

/-- Takes newlines off the end of an output, and what is no text out of it. -/
def outputText (text : String) : String :=
  let cs := text.toList.filter (· != '\x00')
  String.ofList (cs.reverse.dropWhile (· == '\n')).reverse

/-- Runs commands and takes what they write. -/
def output (k : Kernel) (body : Option Command) : Shell String := do
  let stream ← addStream (.sink "")
  match body with
  | none => return ""
  | some command =>
    let status := (← process).status
    let ending ← runPiece k {} command none (some stream)
    takeEnding ending
    modifyProcess fun p => { p with outputStatus := ending.status, status }
    return outputText (← keptText stream)

end Shell

end CommandScript.SystemShell
