import CommandScript.Standard.Arguments

/-!
# Commands on arrays
-/

namespace CommandScript.Standard.Arrays

variable {κ : Type}

def exists' : Native κ := fun _ argv => do
  match argv with
  | [_, _, name] => return .boolean ((← Act.env).array? name.text).isSome
  | _ => wrongSubArguments argv "arrayName"

def get : Native κ := fun _ argv => do
  match argv with
  | [_, _, name] => return .list (Value.flatten ((← Act.env).arrayEntries name.text))
  | _ => wrongSubArguments argv "arrayName"

def names : Native κ := fun _ argv => do
  match argv with
  | [_, _, name] => return .list (((← Act.env).arrayEntries name.text).names.map Value.string)
  | _ => wrongSubArguments argv "arrayName"

def set : Native κ := fun _ argv => do
  match argv with
  | [_, _, name, entries] =>
    let items ← Action.ofExcept entries.toList
    Act.editAll (·.setArray name.text items)
    return {}
  | _ => wrongSubArguments argv "arrayName list"

def size : Native κ := fun _ argv => do
  match argv with
  | [_, _, name] => return .ofNat ((← Act.env).arrayEntries name.text).length
  | _ => wrongSubArguments argv "arrayName"

def unset : Native κ := fun _ argv => do
  match argv with
  | [_, _, name] =>
    Act.modifyEnv (·.unsetArray name.text)
    return {}
  | [_, _, name, index] =>
    let element := Name.element name.text index.text
    if (← Act.env).exists? element then Act.edit (·.unset element)
    return {}
  | _ => wrongSubArguments argv "arrayName ?index?"

def array : Native κ :=
  ensemble [("exists", exists'), ("get", get), ("names", names), ("set", set), ("size", size),
    ("unset", unset)]

end CommandScript.Standard.Arrays
