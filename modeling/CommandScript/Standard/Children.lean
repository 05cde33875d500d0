import CommandScript.Standard.Definitions

/-!
# Commands on child interpreters
-/

namespace CommandScript.Standard.Children

variable {κ : Type}

open Info (namesValue)

/-- Answers about the descendant at a path. -/
def ask (path : Option Value) (answer : Interp κ → Value) : Act κ Value := do
  let path ← Action.ofExcept ((path.map ChildPath.ofValue).getD (.ok []))
  match (← Act.interp).child? path with
  | some child => return answer child
  | none => Action.fail (ChildFault.notFound path)

def children : Native κ := fun _ argv =>
  let answer (i : Interp κ) : Value := namesValue i.childNames
  match argv with
  | [_, _] => ask none answer
  | [_, _, path] => ask (some path) answer
  | _ => wrongSubArguments argv "?path?"

def issafe : Native κ := fun _ argv =>
  let answer (i : Interp κ) : Value := .boolean i.safe
  match argv with
  | [_, _] => ask none answer
  | [_, _, path] => ask (some path) answer
  | _ => wrongSubArguments argv "?path?"

inductive CreateFault where
  | badOption (text : String)
  | arguments (fault : WrongArguments)
  deriving DecidableEq, Repr

instance : Fault CreateFault where
  kind
    | .badOption _ => .generic
    | .arguments fault => Fault.kind fault
  message
    | .badOption text => s!"bad option \"{text}\": must be -safe or --"
    | .arguments fault => Fault.message fault

/-- Reads the options and the path of a new child: whether it is safe, and the path if there is
one. -/
def createOptions (tooMany : CreateFault) (safe : Bool) (path : Option Value) :
    List Value → Except CreateFault (Bool × Option Value)
  | [] => .ok (safe, path)
  | arg :: rest =>
    if arg.text = "-safe" then createOptions tooMany true path rest
    else if arg.text = "--" then
      match rest with
      | [] => .ok (safe, path)
      | [last] => .ok (safe, some last)
      | _ => .error tooMany
    else if arg.text.startsWith "-" then .error (.badOption arg.text)
    else if path.isNone then createOptions tooMany safe (some arg) rest
    else .error tooMany

/-- The first of the names `interp0`, `interp1` and so on that is free. -/
def freshName (taken : List String) : String :=
  let names := (List.range (taken.length + 1)).map fun n => "interp" ++ toString n
  (names.find? fun name => !taken.contains name).getD ""

def edit {ε : Type} [Fault ε] (f : Interp κ → Except ε (Interp κ)) : Act κ Unit := do
  let changed ← Action.ofExcept (f (← Act.interp))
  Act.modifyInterp fun _ => changed

def create : Native κ := fun _ argv => do
  let usage := "?-safe? ?--? ?path?"
  if argv.length > 5 then wrongSubArguments argv usage
  let tooMany : CreateFault := .arguments (.ofWords 2 argv usage)
  let (safe, path) ← Action.ofExcept (createOptions tooMany false none (argv.drop 2))
  match path with
  | some word =>
    let path ← Action.ofExcept (ChildPath.ofValue word)
    edit (·.createChild path safe)
    return word
  | none =>
    let name := freshName (← Act.interp).childNames
    edit (·.createChild [name] safe)
    return .string name

def deleteAll : List Value → Act κ Unit
  | [] => pure ()
  | word :: rest => do
    let path ← Action.ofExcept (ChildPath.ofValue word)
    edit (·.deleteChild path)
    deleteAll rest

def delete : Native κ := fun _ argv => do
  deleteAll (argv.drop 2)
  return {}

def eval : Native κ := fun engine argv => do
  match argv with
  | _ :: _ :: word :: args@(_ :: _) =>
    let path ← Action.ofExcept (ChildPath.ofValue word)
    Act.inChild path (engine.eval (scriptOf args))
  | _ => wrongSubArguments argv "path arg ?arg ...?"

def exists' : Native κ := fun _ argv => do
  match argv with
  | [_, _, word] =>
    let path ← Action.ofExcept (ChildPath.ofValue word)
    return .boolean ((← Act.interp).child? path).isSome
  | _ => wrongSubArguments argv "path"

def interp : Native κ :=
  ensemble [("children", children), ("create", create), ("delete", delete), ("eval", eval),
    ("exists", exists'), ("issafe", issafe)]

end CommandScript.Standard.Children
