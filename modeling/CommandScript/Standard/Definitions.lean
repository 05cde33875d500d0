import CommandScript.Standard.Arguments

/-!
# Procedures and what is known of them

Defining and renaming commands, and the `info` command.
-/

namespace CommandScript.Standard

variable {κ : Type}

def proc : Native κ := fun _ argv => do
  match argv with
  | [_, name, parameters, body] =>
    Act.edit (·.defineProcedure name.text parameters body)
    return {}
  | _ => wrongArguments argv "name args body"

def rename : Native κ := fun _ argv => do
  match argv with
  | [_, old, new] =>
    Act.edit (·.rename old.text new.text)
    return {}
  | _ => wrongArguments argv "oldName newName"

namespace Info

/-- A list of names as a value. -/
def namesValue (names : List String) : Value := .list (names.map .string)

/-- A subcommand without arguments. -/
def plain (answer : Interp κ → Value) : Native κ := fun _ argv => do
  match argv with
  | [_, _] => return answer (← Act.interp)
  | _ => wrongSubArguments argv ""

def args : Native κ := fun _ argv => do
  match argv with
  | [_, _, name] => return namesValue (← Act.query (·.procedureParameters name.text))
  | _ => wrongSubArguments argv "procname"

def body : Native κ := fun _ argv =>
  match argv with
  | [_, _, name] => Act.query (·.procedureBody name.text)
  | _ => wrongSubArguments argv "procname"

def complete : Native κ := fun _ argv =>
  match argv with
  | [_, _, script] => return .boolean (isComplete script.text)
  | _ => wrongSubArguments argv "command"

/-- Stores a parameter's default, and tells whether it has one. -/
def default : Native κ := fun _ argv => do
  match argv with
  | [_, _, name, parameter, variableName] =>
    let v? ← Act.query (·.parameterDefault name.text parameter.text)
    Act.setVariable variableName.text (v?.getD {})
    return .boolean v?.isSome
  | _ => wrongSubArguments argv "procname arg varname"

def exists' : Native κ := fun _ argv => do
  match argv with
  | [_, _, name] => return .boolean ((← Act.env).exists? name.text)
  | _ => wrongSubArguments argv "varName"

/-- A level that does not exist. -/
structure NoLevel where
  text : String
  deriving DecidableEq, Repr

instance : Fault NoLevel where
  kind _ := .generic
  message f := s!"bad level \"{f.text}\""

/-- The depth that a number denotes: counted from the bottom, or back from the top if it is not
positive. -/
def depthOf (current : Nat) (number : Int64) : Act κ (Option Nat) := do
  if number > 0 then return some number.toInt.toNat
  let back ← Action.checked (-number.toInt)
  return if back.toNat ≤ current then some (current - back.toNat) else none

def level : Native κ := fun _ argv => do
  let env ← Act.env
  match argv with
  | [_, _] => return .ofNat env.depth
  | [_, _, number] =>
    let depth? ← depthOf env.depth (← Action.ofExcept number.toInt)
    match depth?.bind env.stack.levelCommand? with
    | some command => return command
    | none => Action.fail (NoLevel.mk number.text)
  | _ => wrongSubArguments argv "?number?"

def info : Native κ :=
  ensemble [("args", args), ("body", body), ("cmdcount", plain fun i => .ofNat i.commandCount),
    ("commands", plain fun i => namesValue i.env.commandNames), ("complete", complete),
    ("default", default), ("exists", exists'),
    ("globals", plain fun i => namesValue i.env.globalVariables), ("level", level),
    ("locals", plain fun i => namesValue i.env.localVariables),
    ("procs", plain fun i => namesValue i.env.procedureNames),
    ("vars", plain fun i => namesValue i.env.visibleVariables)]

end Info

end CommandScript.Standard
