import CommandScript.Standard.Arguments

/-!
# Commands on variables
-/

namespace CommandScript.Standard

variable {κ : Type}

/-- A sum that does not fit in 64 bits. -/
structure Overflow where
  deriving DecidableEq, Repr

instance : Fault Overflow where
  kind _ := .generic
  message _ := "integer overflow"

/-- Reads a variable, or gives `absent` if it does not exist. -/
def readOr {α : Type} (name : String) (absent : α) (convert : Value → Act κ α) : Act κ α := do
  if (← Act.env).exists? name then
    let v ← Act.readVariable name
    convert v
  else return absent

def setCommand : Native κ := fun _ argv =>
  match argv with
  | [_, name] => Act.readVariable name.text
  | [_, name, v] => do
    Act.setVariable name.text v
    return v
  | _ => wrongArguments argv "varName ?newValue?"

/-- Unsets variables in turn. -/
def unsetAll (complain : Bool) : List Value → Act κ Unit
  | [] => pure ()
  | name :: rest => do
    match (← Act.env).unset name.text with
    | .ok env => Act.modifyEnv fun _ => env
    | .error fault => if complain then Action.fail fault
    unsetAll complain rest

/-- Drops an option that stands first. -/
def dropOption (option : String) : List Value → Bool × List Value
  | [] => (false, [])
  | arg :: rest => if arg.text = option then (true, rest) else (false, arg :: rest)

def unset : Native κ := fun _ argv => do
  let (quiet, names) := dropOption "-nocomplain" argv.tail
  let (_, names) := dropOption "--" names
  unsetAll (!quiet) names
  return {}

def incrBy (name : String) (increment : Int64) : Act κ Value := do
  let current ← readOr name 0 fun v => Action.ofExcept v.toInt
  let sum := current.toInt + increment.toInt
  if !Integer.fits sum then Action.fail Overflow.mk
  let v := Value.ofInt sum
  Act.setVariable name v
  return v

def incr : Native κ := fun _ argv =>
  match argv with
  | [_, name] => incrBy name.text 1
  | [_, name, increment] => do incrBy name.text (← Action.ofExcept increment.toInt)
  | _ => wrongArguments argv "varName ?increment?"

def append : Native κ := fun _ argv =>
  match argv with
  | _ :: name :: pieces => do
    let text ← readOr name.text "" fun v => pure v.text
    let v := Value.string (text ++ String.join (pieces.map Value.text))
    Act.setVariable name.text v
    return v
  | _ => wrongArguments argv "varName ?value value ...?"

def globals : List Value → Act κ Unit
  | [] => pure ()
  | name :: rest => do
    Act.edit (·.linkGlobal name.text)
    globals rest

def global : Native κ := fun _ argv => do
  globals argv.tail
  return {}

/-- Links names in pairs: a variable of the frame at `level`, and its name here. -/
def linkPairs (argv : List Value) (usage : String) (level : Nat) : List Value → Act κ Unit
  | [] => pure ()
  | [_] => wrongArguments argv usage
  | target :: name :: rest => do
    Act.edit (·.link level target.text name.text)
    linkPairs argv usage level rest

def upvar : Native κ := fun _ argv => do
  let usage := "?level? otherVar localVar ?otherVar localVar ...?"
  match argv with
  | _ :: first :: rest@(_ :: _) =>
    let depth := (← Act.env).depth
    let (level, pairs) ←
      if Name.isLevel first.text && argv.length % 2 == 0 then do
        let level ← Action.ofExcept (Name.parseLevel first.text depth)
        pure (level, rest)
      else pure (depth - 1, first :: rest)
    if pairs.length % 2 != 0 then wrongArguments argv usage
    linkPairs argv usage level pairs
    return {}
  | _ => wrongArguments argv usage

/-- Declares names in pairs with their values; the last may have none. -/
def declarePairs : List Value → Act κ Unit
  | [] => pure ()
  | [name] => Act.declareVariable name.text none
  | name :: v :: rest => do
    Act.declareVariable name.text (some v)
    declarePairs rest

def declare : Native κ := fun _ argv => do
  match argv with
  | _ :: names@(_ :: _) =>
    declarePairs names
    return {}
  | _ => wrongArguments argv "?name value...? name ?value?"

end CommandScript.Standard
