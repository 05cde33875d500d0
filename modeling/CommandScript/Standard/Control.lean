import CommandScript.Standard.Arguments

/-!
# Control flow

Conditions, loops, `return`, errors and their capture, and evaluation at other levels.
-/

namespace CommandScript.Standard

open CommandScript.Action (Outcome)

variable {κ : Type}

def eval : Native κ := fun engine argv =>
  match argv with
  | _ :: args@(_ :: _) => engine.eval (scriptOf args)
  | _ => wrongArguments argv "arg ?arg ...?"

def expr : Native κ := fun engine argv =>
  match argv with
  | _ :: args@(_ :: _) => engine.expr (scriptOf args)
  | _ => wrongArguments argv "arg ?arg ...?"

/-! ## Conditions -/

/-- Words missing from an `if`, or too many. -/
inductive IfFault where
  | noExpression (after : String)
  | noScript (after : String)
  | extraWords
  deriving DecidableEq, Repr

instance : Fault IfFault where
  kind _ := .generic
  message
    | .noExpression after => s!"wrong # args: no expression after \"{after}\" argument"
    | .noScript after => s!"wrong # args: no script following \"{after}\" argument"
    | .extraWords => "wrong # args: extra words after \"else\" clause in \"if\" command"

/-- The words of an `if`, read as far as they make sense. A fault counts only once all conditions
before it have failed. -/
inductive Branches where
  | test (condition body : Value) (otherwise : Branches)
  | final (body : Value)
  | nothing
  | wrong (fault : IfFault)

namespace Branches

mutual

/-- Reads a condition and what follows; `before` is the word before it. -/
def ofWords (before : Value) : List Value → Branches
  | [] => .wrong (.noExpression before.text)
  | [condition] => .wrong (.noScript condition.text)
  | condition :: word :: rest =>
    if word.text = "then" then
      match rest with
      | [] => .wrong (.noScript word.text)
      | body :: rest => .test condition body (ofRest rest)
    else .test condition word (ofRest rest)

/-- Reads what follows a body. -/
def ofRest : List Value → Branches
  | [] => .nothing
  | word :: rest =>
    if word.text = "elseif" then ofWords word rest
    else
      match if word.text = "else" then rest else word :: rest with
      | [body] => .final body
      | [] => .wrong (.noScript "else")
      | _ => .wrong .extraWords

end

def run (engine : Engine κ) : Branches → Act κ Value
  | test condition body otherwise => do
    if ← engine.test condition then engine.eval body else otherwise.run engine
  | final body => engine.eval body
  | nothing => return {}
  | wrong fault => Action.fail fault

end Branches

def ifCommand : Native κ := fun engine argv =>
  (Branches.ofWords (argv.headD {}) argv.tail).run engine

/-! ## Loops -/

/-- Runs the body of a loop; tells whether the loop goes on. -/
def loopBody (engine : Engine κ) (body : Value) : Act κ Bool := do
  match ← Action.attempt (engine.eval body) with
  | .value _ => return true
  | .raised e =>
    match e.code with
    | .broken => return false
    | .continued => return true
    | _ => Action.raise e

/-- Loops while a condition holds, `next` being done after each round, for less than `fuel`
rounds. -/
def loop (engine : Engine κ) (condition body : Value) (next : Act κ Unit) :
    (fuel : Nat) → Act κ Value
  | 0 => Action.halt .outOfFuel
  | fuel + 1 => do
    if ← engine.test condition then
      if ← loopBody engine body then
        next
        loop engine condition body next fuel
      else return {}
    else return {}

def whileCommand : Native κ := fun engine argv =>
  match argv with
  | [_, condition, body] => loop engine condition body (pure ()) engine.fuel
  | _ => wrongArguments argv "test command"

def forCommand : Native κ := fun engine argv =>
  match argv with
  | [_, start, condition, next, body] => do
    let _ ← engine.eval start
    loop engine condition body (do let _ ← engine.eval next) engine.fuel
  | _ => wrongArguments argv "start test next command"

structure NoLoopVariables where
  deriving DecidableEq, Repr

instance : Fault NoLoopVariables where
  kind _ := .generic
  message _ := "foreach varlist is empty"

/-- Sets variables to the elements of a list, which is empty once it runs out. -/
def assignEach : List Value → List Value → Act κ Unit
  | [], _ => pure ()
  | name :: names, items => do
    Act.setVariable name.text (items.headD {})
    assignEach names items.tail

/-- Goes through a list, as many elements at a time as there are variables. -/
def foreachFrom (engine : Engine κ) (names : List Value) (body : Value) :
    (rounds : Nat) → List Value → Act κ Value
  | 0, _ => return {}
  | rounds + 1, items => do
    if items.isEmpty then return {}
    assignEach names items
    if ← loopBody engine body then foreachFrom engine names body rounds (items.drop names.length)
    else return {}

def foreachCommand : Native κ := fun engine argv =>
  match argv with
  | [_, names, items, body] => do
    let names ← Action.ofExcept names.toList
    let items ← Action.ofExcept items.toList
    if names.isEmpty then Action.fail NoLoopVariables.mk
    foreachFrom engine names body items.length items
  | _ => wrongArguments argv "varList list body"

def breakCommand : Native κ := fun _ argv =>
  match argv with
  | [_] => Action.raise .breakLoop
  | _ => wrongArguments argv ""

def continueCommand : Native κ := fun _ argv =>
  match argv with
  | [_] => Action.raise .continueLoop
  | _ => wrongArguments argv ""

/-! ## Returning -/

/-- What the options of a `return` ask for. -/
structure ReturnOptions where
  code : Completion := .okay
  level : Nat := 1
  errorCode : Option Value := none
  errorInfo : Option Value := none

inductive ReturnFault where
  | badCode (fault : BadCompletion)
  | badLevel (text : String)
  | levelNotInteger (fault : CastFault)
  | badOption (text : String)
  deriving DecidableEq, Repr

instance : Fault ReturnFault where
  kind
    | .badCode fault => Fault.kind fault
    | .levelNotInteger fault => Fault.kind fault
    | _ => .generic
  message
    | .badCode fault => Fault.message fault
    | .levelNotInteger fault => Fault.message fault
    | .badLevel text => s!"bad -level value: expected non-negative integer but got \"{text}\""
    | .badOption text =>
      s!"bad option \"{text}\": must be -code, -errorcode, -errorinfo, or -level"

/-- Takes in one option. -/
def ReturnOptions.add (o : ReturnOptions) (option v : Value) : Except ReturnFault ReturnOptions :=
  match option.text with
  | "-code" =>
    match Completion.ofValue v with
    | .ok code => .ok { o with code }
    | .error fault => .error (.badCode fault)
  | "-level" =>
    match v.toInt with
    | .ok n => if n < 0 then .error (.badLevel v.text) else .ok { o with level := n.toInt.toNat }
    | .error fault => .error (.levelNotInteger fault)
  | "-errorcode" => .ok { o with errorCode := some v }
  | "-errorinfo" => .ok { o with errorInfo := some v }
  | other => .error (.badOption other)

/-- Reads options with their values, and a last word that is the value returned. -/
def ReturnOptions.parse (o : ReturnOptions) :
    List Value → Except ReturnFault (ReturnOptions × Value)
  | [] => .ok (o, {})
  | [v] => .ok (o, v)
  | option :: v :: rest => do (← o.add option v).parse rest

/-- What a `return` with given options does. -/
def ReturnOptions.outcome (o : ReturnOptions) (v : Value) : Outcome Value :=
  match o.code, o.level with
  | .error, level => .raised (.returnError v level o.errorCode o.errorInfo)
  | .okay, 0 => .value v
  | .broken, 0 => .raised .breakLoop
  | .continued, 0 => .raised .continueLoop
  | .returned, 0 => .raised (.returnValue v)
  | code, 0 => .raised (.returnWith v 1 code)
  | code, level => .raised (.returnWith v level code)

def returnCommand : Native κ := fun _ argv => do
  let (options, v) ← Action.ofExcept (ReturnOptions.parse {} argv.tail)
  Action.conclude (options.outcome v)

/-! ## Errors -/

def error : Native κ := fun _ argv =>
  let raise (message : Value) (info code : Option Value) : Act κ Value :=
    Action.raise (.returnError message 0 code (info.filter fun v => !v.isEmpty))
  match argv with
  | [_, message] => raise message none none
  | [_, message, info] => raise message (some info) none
  | [_, message, info, code] => raise message (some info) (some code)
  | _ => wrongArguments argv "message ?errorInfo? ?errorCode?"

/-- The options of a `return` that would end as an evaluation did. -/
def returnOptions : Outcome Value → Value
  | .value _ => .list [.string "-code", .ofNat 0, .string "-level", .ofNat 0]
  | .raised e =>
    let trace := match e.data? with
      | some data =>
        [.string "-errorcode", data.code, .string "-errorinfo", .string data.info]
      | none => []
    .list ([.string "-code", .ofInt e.next.toInt, .string "-level", .ofNat e.level] ++ trace)

/-- Evaluates a script and tells how it ended. An `exit` is not held up. -/
def catchWith (engine : Engine κ) (script : Value) (names : List Value) : Act κ Value := do
  let outcome ← Action.attempt (engine.eval script)
  let (code, v) : Int × Value ←
    match outcome with
    | .value v => pure (0, v)
    | .raised e =>
      match e.code with
      | .exited _ => Action.raise e
      | code => pure (code.toInt, e.value)
  match names with
  | [] => pure ()
  | [result] => Act.setVariable result.text v
  | result :: options :: _ =>
    Act.setVariable result.text v
    Act.setVariable options.text (returnOptions outcome)
  return .ofInt code

def catchCommand : Native κ := fun engine argv =>
  match argv with
  | [_, script] => catchWith engine script []
  | [_, script, result] => catchWith engine script [result]
  | [_, script, result, options] => catchWith engine script [result, options]
  | _ => wrongArguments argv "script ?resultVarName? ?optionsVarName?"

/-! ## Other levels -/

def uplevel : Native κ := fun engine argv => do
  match argv with
  | _ :: first :: rest =>
    let depth := (← Act.env).depth
    if !rest.isEmpty && Name.isLevel first.text then
      let level ← Action.ofExcept (Name.parseLevel first.text depth)
      engine.evalAtLevel level (scriptOf rest)
    else
      let level ← Action.ofExcept (Name.parseLevel "1" depth)
      engine.evalAtLevel level (scriptOf (first :: rest))
  | _ => wrongArguments argv "?level? command ?arg ...?"

def defer : Native κ := fun _ argv => do
  match argv with
  | _ :: args@(_ :: _) =>
    Act.defer (.string (concatenate args))
    return {}
  | _ => wrongArguments argv "script ?arg ...?"

/-! ## Exit and time -/

structure BadStatus where
  text : String
  deriving DecidableEq, Repr

instance : Fault BadStatus where
  kind _ := .generic
  message f := s!"exit code out of range: \"{f.text}\""

def exit : Native κ := fun _ argv =>
  match argv with
  | [_] => Action.raise (.exit 0)
  | [_, status] => do
    let n := (← Action.ofExcept status.toInt).toInt
    if n < Int32.minValue.toInt || n > Int32.maxValue.toInt then
      Action.fail (BadStatus.mk status.text)
    Action.raise (.exit n)
  | _ => wrongArguments argv "?returnCode?"

def evalTimes (engine : Engine κ) (script : Value) : (count : Nat) → Act κ Unit
  | 0 => pure ()
  | count + 1 => do
    let _ ← engine.eval script
    evalTimes engine script count

/-- Evaluates a script some times and reports the mean time. -/
def timed (engine : Engine κ) (script : Value) (count : Nat) : Act κ Value := do
  let start := (← get).world.clock
  evalTimes engine script count
  let elapsed := (← get).world.clock - start
  return .string (toString (elapsed / count) ++ " microseconds per iteration")

def time : Native κ := fun engine argv =>
  match argv with
  | [_, script] => timed engine script 1
  | [_, script, count] => do
    timed engine script (← Action.ofExcept count.toInt).toInt.toNat
  | _ => wrongArguments argv "script ?count?"

end CommandScript.Standard
