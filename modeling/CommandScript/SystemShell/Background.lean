import CommandScript.SystemShell.Expansion

/-!
# Commands in the background

A command in the background runs in a copy of the shell that is made at once. It begins when the
shell starts another process, waits or ends, so what the shell itself writes until then comes
first.
-/

namespace CommandScript.SystemShell.Shell

/-- A copy of the shell. Signals that the shell catches do what they do to any process. -/
def newCopy : Shell Process := do
  let system ← system
  setSystem { system with nextProcess := system.nextProcess + 1 }
  let p ← process
  return { p with
    id := system.nextProcess
    traps := p.traps.filter fun entry => entry.2.isEmpty
    jobs := [] }

/-- Puts a command in the background, where its input is empty. -/
def addJob (quick : Bool) (command : Command) : Shell Unit := do
  let input ← addStream .nothing
  let p ← newCopy
  let others := p.descriptors.filter fun entry => entry.1 != 0
  let job : Job :=
    { id := p.id, owner := (← process).id, quick, command
      process := { p with descriptors := (0, input) :: others } }
  modify fun s => { s with waiting := s.waiting ++ [job] }
  modifyProcess fun p => { p with lastBackground := some job.id }

def addEnding (job : Job) (ending : Ending) : Shell Unit :=
  modifyProcess fun p => { p with jobs := (job.id, ending.status) :: p.jobs }

/-- Runs commands that wait in the background: all of them, or only those that begin quickly. The
quick ones are first. -/
def runWaiting (k : Kernel) (all : Bool) : Shell Unit := do
  let s ← get
  let due (job : Job) : Bool := job.owner = s.process.id && (all || job.quick)
  set { s with waiting := s.waiting.filter fun job => !due job }
  let jobs := s.waiting.filter due
  for job in jobs.filter Job.quick ++ jobs.filter fun job => !job.quick do
    addEnding job (← k.runJob job)

/-- Sends a signal to a command in the background, and says whether there is such a process. One
that did not begin dies of it, unless it ignores it. -/
def signalJob (target : Nat) (signal : Signal) : Shell Bool := do
  let s ← get
  match s.waiting.find? fun job => job.id = target with
  | some job =>
    if !signal.isIgnored && (job.process.traps.lookup signal).isNone then
      set { s with waiting := s.waiting.filter fun job => job.id != target }
      addEnding job (.killed signal)
    return true
  | none => return (s.process.jobs.lookup target).isSome

end CommandScript.SystemShell.Shell
