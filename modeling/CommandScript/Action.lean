import CommandScript.Exception

/-!
# Actions

An action runs on a state and gives a value, or stops: with an exception of the language, or
because it is cut short. A run is cut short when the fuel that bounds its loops runs out, when it
breaks down, or when evaluations are nested deeper than it has room for; then the stop lists those
in progress. Either way the state that was reached is kept.
-/

namespace CommandScript

/-- An evaluation in progress. -/
inductive Activation where
  /-- A counted evaluation, at work on its script. -/
  | counted
  /-- A counted evaluation that runs deferred scripts on its way to an exit. -/
  | exiting
  /-- A nested script. -/
  | nested
  /-- A counted evaluation that was begun in a child of the interpreter. -/
  | inChild
  deriving DecidableEq, Repr

/-- Why a run goes no further, whatever its script says of errors. -/
inductive Halt where
  /-- The fuel that bounds its loops has run out. -/
  | outOfFuel
  /-- It breaks down on a number or a size that 64 bits do not hold. -/
  | overflow
  /-- It breaks down as it splits a text inside a character. -/
  | splitCharacter
  /-- It breaks down on a `return` that comes to a boundary and has none left to pass. -/
  | spentReturn
  deriving DecidableEq, Repr, Inhabited

inductive Stop where
  | raised (e : Exception)
  | halted (why : Halt)
  /-- No room for another evaluation inside those in progress, outermost first. -/
  | outOfDepth (active : List Activation)
  deriving Inhabited

namespace Stop

/-- The stop as seen from outside an evaluation. -/
def within (evaluation : Activation) : Stop → Stop
  | outOfDepth active => outOfDepth (evaluation :: active)
  | stop => stop

/-- The stop as seen by the parent of the interpreter. -/
def fromChild : Stop → Stop
  | outOfDepth (_ :: active) => outOfDepth (.inChild :: active)
  | stop => stop

end Stop

abbrev Action (σ α : Type) := EStateM Stop σ α

namespace Action

variable {σ α ε : Type}

def raise (e : Exception) : Action σ α := throw (.raised e)

def halt (why : Halt) : Action σ α := throw (.halted why)

def fail [Fault ε] (fault : ε) : Action σ α := raise (.ofFault fault)

def ofExcept [Fault ε] : Except ε α → Action σ α
  | .ok a => pure a
  | .error fault => fail fault

/-- How an action ended. -/
inductive Outcome (α : Type) where
  | value (a : α)
  | raised (e : Exception)

/-- Runs an action and reports how it ended; being cut short is not caught. -/
def attempt (act : Action σ α) : Action σ (Outcome α) := fun s =>
  match act s with
  | .ok a s => .ok (.value a) s
  | .error (.raised e) s => .ok (.raised e) s
  | .error stop s => .error stop s

/-- Runs an action as part of an evaluation. -/
def inside (evaluation : Activation) (act : Action σ α) : Action σ α := fun s =>
  match act s with
  | .ok a s => .ok a s
  | .error stop s => .error (stop.within evaluation) s

/-- Ends as an outcome says. -/
def conclude : Outcome α → Action σ α
  | .value a => pure a
  | .raised e => raise e

end Action

end CommandScript
