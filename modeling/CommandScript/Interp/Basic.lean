import CommandScript.Environment.Command
import CommandScript.Environment.Variable
import CommandScript.Interp.Path
import CommandScript.World.Channel

/-!
# Interpreters

An interpreter has an environment, channels and children, which are interpreters of their own. A
safe interpreter refuses commands that reach the system, and so do all its descendants.
-/

namespace CommandScript

structure Interp (κ : Type) where
  /-- The built-in commands that its children start with too. -/
  registry : Registry κ
  env : Environment κ
  /-- The children, sorted by name. -/
  children : List (String × Interp κ)
  channels : Channels
  safe : Bool
  /-- The result of the last command that completed normally. -/
  lastResult : Value
  /-- The last error that reached the end of an evaluation. -/
  lastError : Option Exception
  /-- How many commands were run. -/
  commandCount : Nat
  /-- How many evaluations may be nested. -/
  recursionLimit : Nat
  /-- How many evaluations are nested now. -/
  level : Nat

/-- Why an operation on a child is refused. -/
inductive ChildFault where
  | noName
  | notFound (path : ChildPath)
  | alreadyExists (path : ChildPath)
  deriving DecidableEq, Repr

instance : Fault ChildFault where
  kind _ := .generic
  message
    | .noName => "can't create an interpreter with an empty name"
    | .notFound path => "could not find interpreter \"" ++ " ".intercalate path ++ "\""
    | .alreadyExists path =>
      "interpreter named \"" ++ ListText.format path ++ "\" already exists, cannot create"

namespace Interp

variable {κ : Type}

/-- A new interpreter with the commands of a registry. -/
def create (registry : Registry κ) (safe : Bool) : Interp κ where
  registry := registry
  env :=
    { namespaces :=
        { nodes := [{ name := "", parent := none, commands := registry.commands,
                      vars := [("errorInfo", {})] }] } }
  children := []
  channels := {}
  safe := safe
  lastResult := {}
  lastError := none
  commandCount := 0
  recursionLimit := 1000
  level := 0

instance : Inhabited (Interp κ) := ⟨create [] false⟩

/-! ## Children -/

/-- The descendant at a path; the empty path is the interpreter itself. -/
def child? : Interp κ → ChildPath → Option (Interp κ)
  | interp, [] => some interp
  | interp, name :: rest => (Table.get? interp.children name).bind fun child => child.child? rest

/-- Changes the descendant at a path, if there is one. -/
def modifyChild (f : Interp κ → Interp κ) : Interp κ → ChildPath → Interp κ
  | interp, [] => f interp
  | interp, name :: rest =>
    match Table.get? interp.children name with
    | some child =>
      { interp with children := Table.insert interp.children name (child.modifyChild f rest) }
    | none => interp

/-- Creates a child with the registry of its parent. -/
def createChild (interp : Interp κ) (path : ChildPath) (safe : Bool) :
    Except ChildFault (Interp κ) :=
  match path.getLast? with
  | none => .error .noName
  | some name =>
    match interp.child? path.dropLast with
    | none => .error (.notFound path.dropLast)
    | some parent =>
      if Table.contains parent.children name then .error (.alreadyExists path)
      else
        let child := create parent.registry (safe || parent.safe)
        .ok (interp.modifyChild
          (fun parent => { parent with children := Table.insertSorted parent.children name child })
          path.dropLast)

/-- Deletes a child with all its descendants. -/
def deleteChild (interp : Interp κ) (path : ChildPath) : Except ChildFault (Interp κ) :=
  match path.getLast?, interp.child? path with
  | some name, some _ =>
    .ok (interp.modifyChild
      (fun parent => { parent with children := Table.erase parent.children name }) path.dropLast)
  | _, _ => .error (.notFound path)

def childNames (interp : Interp κ) : List String := Table.names interp.children

end Interp

/-! ## Actions of an interpreter -/

/-- What a command works on: the interpreter that runs it and the world. -/
structure State (κ : Type) where
  interp : Interp κ
  world : World

abbrev Act (κ α : Type) := Action (State κ) α

namespace Act

variable {κ α ε : Type}

def interp : Act κ (Interp κ) := return (← get).interp

def modifyInterp (f : Interp κ → Interp κ) : Act κ Unit :=
  modify fun s => { s with interp := f s.interp }

def env : Act κ (Environment κ) := return (← get).interp.env

def modifyEnv (f : Environment κ → Environment κ) : Act κ Unit :=
  modifyInterp fun i => { i with env := f i.env }

def modifyStack (f : Stack → Stack) : Act κ Unit :=
  modifyEnv fun env => { env with stack := f env.stack }

/-- Asks the environment. -/
def query [Fault ε] (f : Environment κ → Except ε α) : Act κ α := do
  Action.ofExcept (f (← env))

/-- Changes the environment. -/
def edit [Fault ε] (f : Environment κ → Except ε (Environment κ)) : Act κ Unit := do
  let changed ← query f
  modifyEnv fun _ => changed

/-- Changes the environment also where it fails. -/
def editAll [Fault ε] (f : Environment κ → Except ε α × Environment κ) : Act κ α := do
  let (result, changed) := f (← env)
  modifyEnv fun _ => changed
  Action.ofExcept result

/-- Runs an action on the channels of the interpreter. -/
def channels (act : Action Channels.View α) : Act κ α := fun s =>
  let back (v : Channels.View) : State κ :=
    { interp := { s.interp with channels := v.channels }, world := v.world }
  match act { channels := s.interp.channels, world := s.world } with
  | .ok a v => .ok a (back v)
  | .error stop v => .error stop (back v)

/-- Runs an action in the descendant at a path. -/
def inChild (path : ChildPath) (act : Act κ α) : Act κ α := fun s =>
  match s.interp.child? path with
  | none => Action.fail (ChildFault.notFound path) s
  | some child =>
    let back (t : State κ) : State κ :=
      { interp := s.interp.modifyChild (fun _ => t.interp) path, world := t.world }
    match act { interp := child, world := s.world } with
    | .ok a t => .ok a (back t)
    | .error stop t => .error stop.fromChild (back t)

def setVariable (name : String) (v : Value) : Act κ Unit := edit (·.set name v)

def readVariable (name : String) : Act κ Value := query (·.read name)

/-- Has a script run before the current frame goes, ahead of those deferred already. -/
def defer (script : Value) : Act κ Unit :=
  modifyStack (·.modifyTop fun f => { f with deferred := script :: f.deferred })

/-- Declares a variable of a namespace. In a procedure the name becomes a link to it. -/
def declareVariable (name : String) (v : Option Value) : Act κ Unit := do
  let env ← env
  let (qualifiers, tail) := Name.splitQualified name
  let id ←
    match qualifiers with
    | none => pure env.current
    | some "" => pure NamespaceTree.root
    | some path => Action.ofExcept (env.namespaceAt path)
  let qualified :=
    if id = NamespaceTree.root then "::" ++ tail else env.namespaces.path id ++ "::" ++ tail
  if env.stack.top.isOwn then edit (·.link env.depth qualified tail)
  match v with
  | some v => setVariable qualified v
  | none => pure ()

/-- Saves an error in the global variables `errorInfo` and `errorCode`. -/
def recordError (e : Exception) : Act κ Unit := do
  match e.data? with
  | some data =>
    modifyEnv fun env =>
      (env.assign (.inNamespace NamespaceTree.root) "errorInfo" (.string data.info)).assign
        (.inNamespace NamespaceTree.root) "errorCode" data.code
  | none => pure ()
  modifyInterp fun i => { i with lastError := some e }

end Act

end CommandScript
