import CommandScript.Expr.Eval
import CommandScript.Interp.Basic
import CommandScript.Script.Command

/-!
# Evaluating scripts

A script is evaluated in one of two ways. A nested script, in brackets, simply runs in the frame it
stands in. A counted evaluation, as of a procedure's body or a loop's, also adds to the nesting
level, which is limited, and at the outermost level turns `return` into its value and a stray
`break` or `continue` into an error.

What the built-in commands do is a parameter, a function `ops` from keys to actions. Commands call
back through an `Engine`, which has room for one evaluation less inside it than the command itself
was given: `run ops fuel (depth + 1)` is one `step` over the engine that `run ops fuel depth` makes.
-/

namespace CommandScript

/-- What a command may ask of the evaluator. -/
structure Engine (κ : Type) where
  /-- A bound for loops. -/
  fuel : Nat
  /-- A counted evaluation. -/
  eval : Value → Act κ Value
  /-- The evaluation of a nested script. -/
  nested : String → Act κ Value

/-- What a built-in command does with its words. -/
abbrev Native (κ : Type) := Engine κ → List Value → Act κ Value

inductive EvalFault where
  | tooDeep
  | breakOutside
  | continueOutside
  | unexpectedCode (code : Int)
  | noCommand (name : String)
  | forbidden (name : String)
  deriving DecidableEq, Repr

instance : Fault EvalFault where
  kind
    | .noCommand _ => .undefinedCommand
    | .forbidden _ => .forbiddenCommand
    | _ => .generic
  message
    | .tooDeep => "too many nested calls to Interp::eval (infinite loop?)"
    | .breakOutside => "invoked \"break\" outside of a loop"
    | .continueOutside => "invoked \"continue\" outside of a loop"
    | .unexpectedCode code => s!"unexpected result code {code}"
    | .noCommand name => s!"invalid command name \"{name}\""
    | .forbidden name => s!"permission denied: \"{name}\" can't be used in a safe interpreter"

open CommandScript.Action (Outcome)

/-- What an exception is to the caller of a procedure, or of the outermost evaluation. -/
def Exception.leave (e : Exception) : Outcome Value :=
  match e.passBoundary with
  | .plain .okay v => .value v
  | .plain .broken _ => .raised (.ofFault EvalFault.breakOutside)
  | .plain .continued _ => .raised (.ofFault EvalFault.continueOutside)
  | .plain (.other code) _ => .raised (.ofFault (EvalFault.unexpectedCode code))
  | e => .raised e

def Action.Outcome.leave : Outcome Value → Outcome Value
  | .value v => .value v
  | .raised e => e.leave

def Action.Outcome.isSpent : Outcome Value → Bool
  | .value _ => false
  | .raised e => e.isSpent

/-- Comes to a boundary with an outcome, which has to be able to pass it. -/
def Action.checkBoundary {σ : Type} (outcome : Outcome Value) : Action σ Unit :=
  if outcome.isSpent then halt .spentReturn else pure ()

/-- Adds to an error's trace the command it passed. -/
def Exception.traced (e : Exception) (name : String) (isProcedure : Bool) (source : String) :
    Exception :=
  if !e.isError then e
  else if e.isNew then (e.addInfo "    while executing").addInfo ("\"" ++ source ++ "\"")
  else if isProcedure then
    ((e.addInfo ("    (procedure \"" ++ name ++ "\")")).addInfo "    invoked from within").addInfo
      ("\"" ++ source ++ "\"")
  else e

namespace Engine

variable {κ : Type} (engine : Engine κ)

/-- Variables are those of the environment, scripts are nested scripts. -/
def substitutor : Substitutor (State κ) where
  resolve := Act.readVariable
  execute := engine.nested

/-! ## Frames -/

/-- Runs the deferred scripts of the top frame. One that raises an exception replaces the outcome;
one that is deferred meanwhile runs before those still waiting. -/
def drain : (fuel : Nat) → Outcome Value → Act κ (Outcome Value)
  | fuel, outcome => do
    match (← Act.env).stack.top.deferred with
    | [] => return outcome
    | script :: rest =>
      match fuel with
      | 0 => Action.halt .outOfFuel
      | fuel + 1 =>
        Act.modifyStack (·.modifyTop fun f => { f with deferred := rest })
        match ← Action.attempt (engine.eval script) with
        | .value _ => drain fuel outcome
        | .raised e => drain fuel (.raised e)

/-- Runs the deferred scripts of the top frame; the last result stays what it was. -/
def runDeferred (outcome : Outcome Value) : Act κ (Outcome Value) := do
  let saved := (← Act.interp).lastResult
  let outcome ← engine.drain engine.fuel outcome
  Act.modifyInterp fun i => { i with lastResult := saved }
  return outcome

/-- Evaluates a script in a new frame, which goes once its deferred scripts have run. -/
def evalInFrame (frame : Frame) (script : Value) : Act κ (Outcome Value) := do
  Act.modifyStack (·.push frame)
  let outcome ← Action.attempt (engine.eval script)
  let outcome ← engine.runDeferred outcome
  Act.modifyStack Stack.pop
  return outcome

/-- Calls a procedure with the words of a command. -/
def call (p : Procedure) (words : List Value) : Act κ Value := do
  let locals ← Action.ofExcept (p.bind (words.headD {}).text words.tail)
  let frame : Frame := { storage := .own locals, namespaceId := p.namespaceId, invocation := words }
  let outcome ← engine.evalInFrame frame p.body
  Action.checkBoundary outcome
  Action.conclude outcome.leave

/-- Evaluates a script in a namespace, which is created if it does not exist. -/
def evalInNamespace (path : String) (script : Value) : Act κ Value := do
  let env ← Act.env
  let (id, namespaces) := env.namespaces.ensure env.current path
  Act.modifyEnv fun env => { env with namespaces }
  let frame : Frame :=
    { storage := .shared id, namespaceId := id, invocation := env.stack.top.command }
  Action.conclude (← engine.evalInFrame frame script)

/-- Evaluates a script in the frame at depth `level`, as if it were on top. -/
def evalAtLevel (level : Nat) (script : Value) : Act κ Value := do
  let stack := (← Act.env).stack
  if level > stack.depth then Action.fail (Name.BadLevel.mk ("#" ++ toString level))
  let command := (stack.frame level).command
  Act.modifyStack (·.upTo level)
  let outcome ← Action.attempt (engine.eval script)
  Act.modifyStack fun reached =>
    Stack.putBack (stack.above level)
      ((reached.upTo level).modifyTop fun f => { f with command })
  Action.conclude outcome

/-! ## Expressions -/

def operand (expression : Value) : Act κ Operand := do
  match ← Action.attempt (Expr.evalText engine.substitutor expression.text) with
  | .value x => return x
  | .raised e =>
    Act.recordError e
    Action.raise e

/-- The value of an expression. -/
def expr (expression : Value) : Act κ Value := return (← engine.operand expression).toValue

/-- Whether an expression is true. -/
def test (expression : Value) : Act κ Bool := return (← engine.operand expression).isTrue

end Engine

/-! ## Commands -/

section

variable {κ : Type} (ops : κ → Native κ) (engine : Engine κ)

/-- Runs what a command name stands for. -/
def Executable.execute (command : Executable κ) (words : List Value) : Act κ Value :=
  match command with
  | .native key _ => ops key engine words
  | .closure key _ => ops key engine words
  | .procedure p => engine.call p words

/-- Runs a command that was found, if it is allowed. -/
def Command.invoke (c : Command) (name : String) (command : Executable κ) (words : List Value) :
    Act κ Value := do
  if (← Act.interp).safe && !command.isSafe then Action.fail (EvalFault.forbidden name)
  Act.modifyStack (·.modifyTop fun f => { f with command := words })
  match ← Action.attempt (command.execute ops engine words) with
  | .value v => return v
  | .raised e => Action.raise (e.traced name command.isProcedure c.source)

/-- Runs a command. One that is not found is handed to `unknown`, if there is such a command. -/
def Command.dispatch (c : Command) : Act κ Value := do
  Act.modifyInterp fun i => { i with commandCount := i.commandCount + 1 }
  modify fun s => { s with world := s.world.tick }
  let name := (c.words.headD {}).text
  let env ← Act.env
  match env.command? name with
  | some command => c.invoke ops engine name command c.words
  | none =>
    match env.command? "unknown" with
    | some handler => c.invoke ops engine name handler (.string "unknown" :: c.words)
    | none => Action.fail (EvalFault.noCommand name)

/-- Runs the commands that the given words make, at most `fuel` of them. -/
def runCommands : (fuel : Nat) → List Word → (result : Value) → Act κ Value
  | 0, _, _ => Action.halt .outOfFuel
  | fuel + 1, script, result => fun s =>
    let built := Builder.next engine.substitutor script s
    match built.result with
    | .error stop => .error stop built.state
    | .ok none => .ok result built.state
    | .ok (some command) =>
      (do
        let result ← command.dispatch ops engine
        Act.modifyInterp fun i => { i with lastResult := result }
        runCommands fuel built.rest result : Act κ Value) built.state

/-- Runs a script where it stands. Each command takes a word at least. -/
def runNested (script : String) : Act κ Value :=
  let ws := words .command script
  runCommands ops engine (ws.length + 1) ws {}

/-! ## Counted evaluations -/

/-- What the outermost evaluation ends with. -/
def settleOutermost (outcome : Outcome Value) : Act κ (Outcome Value) := do
  Action.checkBoundary outcome
  match outcome.leave with
  | .raised (.plain (.exited status) v) =>
    Action.inside .exiting (engine.runDeferred (.raised (.plain (.exited status) v)))
  | outcome => return outcome

def runCounted (script : Value) : Act κ Value := do
  let i ← Act.interp
  if i.level + 1 > i.recursionLimit then Action.fail EvalFault.tooDeep
  Act.modifyInterp fun i => { i with level := i.level + 1 }
  let outcome ← Action.attempt (Action.inside .counted (runNested ops engine script.text))
  Act.modifyInterp fun i => { i with level := i.level - 1 }
  let outcome ← if (← Act.interp).level = 0 then settleOutermost engine outcome else pure outcome
  match outcome with
  | .raised (.error message data) => Act.recordError (.error message data)
  | _ => pure ()
  Action.conclude outcome

/-! ## Evaluation within bounds -/

inductive Request where
  | counted (script : Value)
  | nested (script : String)

def step : Request → Act κ Value
  | .counted script => runCounted ops engine script
  | .nested script => Action.inside .nested (runNested ops engine script)

/-- Evaluates with loops bounded by `fuel` and evaluations nested at most `depth` deep. -/
def run (fuel : Nat) : (depth : Nat) → Request → Act κ Value
  | 0, _ => throw (.outOfDepth [])
  | depth + 1, request =>
    step ops
      { fuel
        eval := fun script => run fuel depth (.counted script)
        nested := fun script => run fuel depth (.nested script) }
      request

/-- The engine with given bounds on loops and on the nesting of evaluations. -/
def Engine.within (fuel depth : Nat) : Engine κ where
  fuel := fuel
  eval script := run ops fuel depth (.counted script)
  nested script := run ops fuel depth (.nested script)

end

end CommandScript
