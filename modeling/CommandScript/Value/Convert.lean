import CommandScript.Fault
import CommandScript.Value.Basic

/-!
# Conversions

Every conversion of a value to another representation. They follow fixed rules:

* A string is a number, a boolean or a list if its text reads as one.
* A number is a boolean by its integer part: true if that is zero.
* A list of one element converts to a number, a boolean or an integer as its element does.
* A list with an even number of elements is an array, and an array is a list of its keys and
  values in turn. Of a key that comes twice the first place and the last value stay.
-/

namespace CommandScript

/-- Why a value has no representation of the wanted type. -/
inductive CastFault where
  | notConvertible (typeName text target : String)
  | notBoolean (text : String)
  | notInteger (text : String)
  | notFloat (text : String)
  | oddElements
  | notList (fault : ListText.Malformed)
  deriving DecidableEq, Repr

instance : Fault CastFault where
  kind
    | .notList _ => .parsing
    | _ => .cast
  message
    | .notConvertible typeName text target => s!"can't convert {typeName} \"{text}\" to {target}"
    | .notBoolean text => s!"expected boolean value but got \"{text}\""
    | .notInteger text => s!"expected integer but got \"{text}\""
    | .notFloat text => s!"expected floating-point number but got \"{text}\""
    | .oddElements => "list must have an even number of elements"
    | .notList ⟨text, reason⟩ => s!"invalid list \"{text}\": {reason}"

/-- Reads one of the words for true and false, in any case. -/
def parseBoolean? (s : String) : Option Bool :=
  match (Text.trim s).toLower with
  | "1" | "true" | "yes" | "on" => some true
  | "0" | "false" | "no" | "off" => some false
  | _ => none

/-- Reads a floating-point number, blanks around it allowed. -/
def parseFloat? (s : String) : Option Float :=
  match Decimal.parse? (Text.trimBoth Text.isBlank s.toList) with
  | some x => some x
  | none => (Integer.parse? s).map Number.ofInt64

namespace Value

def notConvertible (v : Value) (target : String) : CastFault :=
  .notConvertible v.typeName v.text target

def toNumber (v : Value) : Except CastFault Float :=
  match v.unwrap with
  | number x => .ok x
  | boolean b => .ok (if b then 1 else 0)
  | string s => (parseFloat? s).elim (.error (.notFloat s)) .ok
  | w => .error (w.notConvertible "number")

def toBoolean (v : Value) : Except CastFault Bool :=
  match v.unwrap with
  | boolean b => .ok b
  | number x => .ok (Number.truncate x == 0)
  | string s =>
    match parseBoolean? s with
    | some b => .ok b
    | none => (parseFloat? s).elim (.error (.notBoolean s)) fun x => .ok (x != 0)
  | w => .error (w.notConvertible "boolean")

def toInt (v : Value) : Except CastFault Int64 :=
  match v.unwrap with
  | boolean b => .ok (if b then 1 else 0)
  | string s => (Integer.parse? s).elim (.error (.notInteger s)) .ok
  | number x =>
    if Number.isWhole x then .ok x.toInt64 else .error ((number x).notConvertible "integer")
  | w => .error (w.notConvertible "integer")

def toList (v : Value) : Except CastFault (List Value) :=
  match v with
  | list items => .ok items
  | string s =>
    match ListText.parse s with
    | .ok elements => .ok (elements.map string)
    | .error fault => .error (.notList fault)
  | number _ | boolean _ => .ok [v]
  | array entries => .ok (flatten entries)
  | link _ _ => .error (v.notConvertible "list")

/-- The entries that a row of keys and values, in turn, gives. -/
def pairs? : List Value → Option (List (String × Value))
  | [] => some []
  | [_] => none
  | key :: v :: rest => (pairs? rest).map ((key.text, v) :: ·)

def arrayOfItems (items : List Value) : Except CastFault (Table Value) :=
  match pairs? items with
  | some entries => .ok (Table.ofList entries)
  | none => .error .oddElements

def toArray (v : Value) : Except CastFault (Table Value) :=
  match v with
  | array entries => .ok entries
  | list items => arrayOfItems items
  | string _ => v.toList >>= arrayOfItems
  | _ => .error (v.notConvertible "array")

end Value

end CommandScript
