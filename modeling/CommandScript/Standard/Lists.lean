import CommandScript.Standard.Variables

/-!
# Commands on lists
-/

namespace CommandScript.Standard

variable {κ : Type}

def list : Native κ := fun _ argv => return .list argv.tail

def llength : Native κ := fun _ argv => do
  match argv with
  | [_, items] => return .ofNat (← Action.ofExcept items.toList).length
  | _ => wrongArguments argv "list"

/-- The element that indices lead to, each in the list found by the one before it; empty outside
a list. -/
def element (v : Value) : List Value → Act κ Value
  | [] => return v
  | index :: rest => do
    let items ← Action.ofExcept v.toList
    let i ← parseIndex index items.length
    match i.toNat?.bind (items[·]?) with
    | some v => element v rest
    | none => return {}

def lindex : Native κ := fun _ argv =>
  match argv with
  | _ :: v :: indices => element v indices
  | _ => wrongArguments argv "list ?index ...?"

def lappend : Native κ := fun _ argv =>
  match argv with
  | _ :: name :: new => do
    let items ← readOr name.text [] fun v => Action.ofExcept v.toList
    let v := Value.list (items ++ new)
    Act.setVariable name.text v
    return v
  | _ => wrongArguments argv "varName ?value ...?"

def joinWith (items : Value) (separator : String) : Act κ Value := do
  let items ← Action.ofExcept items.toList
  return .string (separator.intercalate (items.map Value.text))

def join : Native κ := fun _ argv =>
  match argv with
  | [_, items] => joinWith items " "
  | [_, items, separator] => joinWith items separator.text
  | _ => wrongArguments argv "list ?joinString?"

def concat : Native κ := fun _ argv => return .string (concatenate argv.tail)

end CommandScript.Standard
