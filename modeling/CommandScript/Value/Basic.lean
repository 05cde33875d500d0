import CommandScript.ListText
import CommandScript.Table
import CommandScript.Value.Number

/-!
# Values

A value is a string, a number, a boolean, a list or an array. Each has a text (`Value.text`), and
programs see values through it: structure is a representation that is computed when asked for.

A `link` is no value of the language. It stands in a table of variables and makes its name another
name for a variable seen from the frame at some depth.
-/

namespace CommandScript

inductive Value where
  | string (s : String)
  | number (x : Float)
  | boolean (b : Bool)
  | list (items : List Value)
  | array (entries : List (String × Value))
  | link (name : String) (depth : Nat)
  deriving Inhabited, Repr

namespace Value

mutual

/-- The text of a value. -/
def text : Value → String
  | string s => s
  | number x => Number.toText x
  | boolean b => if b then "1" else "0"
  | list items => ListText.format (texts items)
  | array entries => ListText.format (entryTexts entries)
  | link name _ => name

/-- The texts of a row of values. -/
def texts : List Value → List String
  | [] => []
  | v :: rest => text v :: texts rest

/-- The keys and the texts of the values of an array, in turn. -/
def entryTexts : List (String × Value) → List String
  | [] => []
  | (key, v) :: rest => key :: text v :: entryTexts rest

end

theorem texts_eq_map (vs : List Value) : texts vs = vs.map text := by
  induction vs with
  | nil => rfl
  | cons v rest ih => simp [texts, ih]

instance : ToString Value := ⟨text⟩

def empty : Value := string ""

instance : EmptyCollection Value := ⟨empty⟩

/-- Whether a value is the empty string, list or array. -/
def isEmpty : Value → Bool
  | string s => s.isEmpty
  | list items => items.isEmpty
  | array entries => entries.isEmpty
  | _ => false

/-- The name of the representation. -/
def typeName : Value → String
  | string _ => "string"
  | number _ => "number"
  | boolean _ => "boolean"
  | list _ => "list"
  | array _ => "array"
  | link _ _ => "link"

/-- Two numbers are equal as numbers, other values if their texts are. -/
def equal : Value → Value → Bool
  | number x, number y => x == y
  | boolean a, boolean b => a == b
  | v, w => v.text == w.text

/-- An integer as a value: a number where floating point is exact, else its text. -/
def ofInt (n : Int) : Value :=
  if -Number.exactBound ≤ n && n ≤ Number.exactBound then number (Float.ofInt n)
  else string (toString n)

def ofNat (n : Nat) : Value := ofInt n

def ofInt64 (n : Int64) : Value := ofInt n.toInt

/-- The keys and values of an array, in turn. -/
def flatten (entries : List (String × Value)) : List Value :=
  entries.flatMap fun (key, v) => [string key, v]

/-- The innermost value of nested one-element lists. -/
def unwrap : Value → Value
  | list [v] => unwrap v
  | v => v

end Value

end CommandScript
