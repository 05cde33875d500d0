import CommandScript.Standard.Definitions

/-!
# Commands on namespaces
-/

namespace CommandScript.Standard.Namespaces

variable {κ : Type}

open Info (namesValue plain)

def children : Native κ := fun _ argv => do
  match argv with
  | [_, _] => return namesValue (← Act.query (·.namespaceChildren ""))
  | [_, _, path] => return namesValue (← Act.query (·.namespaceChildren path.text))
  | _ => wrongSubArguments argv "?name?"

def deleteAll : List Value → Act κ Unit
  | [] => pure ()
  | path :: rest => do
    Act.edit (·.deleteNamespace path.text)
    deleteAll rest

def delete : Native κ := fun _ argv => do
  deleteAll (argv.drop 2)
  return {}

def eval : Native κ := fun engine argv =>
  match argv with
  | _ :: _ :: path :: args@(_ :: _) => engine.evalInNamespace path.text (scriptOf args)
  | _ => wrongSubArguments argv "name arg ?arg ...?"

def exists' : Native κ := fun _ argv => do
  match argv with
  | [_, _, path] => return .boolean ((← Act.env).hasNamespace path.text)
  | _ => wrongSubArguments argv "name"

def parent : Native κ := fun _ argv => do
  match argv with
  | [_, _] => return .string (← Act.query (·.namespaceParent ""))
  | [_, _, path] => return .string (← Act.query (·.namespaceParent path.text))
  | _ => wrongSubArguments argv "?name?"

def qualifiers : Native κ := fun _ argv =>
  match argv with
  | [_, _, name] => return .string ((Name.splitQualified name.text).1.getD "")
  | _ => wrongSubArguments argv "string"

def tail : Native κ := fun _ argv =>
  match argv with
  | [_, _, name] => return .string (Name.splitQualified name.text).2
  | _ => wrongSubArguments argv "string"

def «namespace» : Native κ :=
  ensemble [("children", children), ("current", plain fun i => .string i.env.currentName),
    ("delete", delete), ("eval", eval), ("exists", exists'), ("parent", parent),
    ("qualifiers", qualifiers), ("tail", tail)]

end CommandScript.Standard.Namespaces
