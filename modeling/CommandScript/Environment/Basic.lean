import CommandScript.Frame
import CommandScript.Namespace

/-!
# The environment

What names mean in an interpreter: its namespaces, which hold commands and variables, and its stack
of frames. A `Slot` is a place that holds variables: a frame or a namespace.
-/

namespace CommandScript

structure Environment (κ : Type) where
  namespaces : NamespaceTree κ := {}
  stack : Stack := { top := .bottom NamespaceTree.root }

inductive Slot where
  | frame (depth : Nat)
  | inNamespace (id : NamespaceId)
  deriving DecidableEq, Repr

namespace Environment

variable {κ : Type}

/-- The depth of the current frame. -/
def depth (env : Environment κ) : Nat := env.stack.depth

/-- The namespace in which the current frame looks up commands. -/
def current (env : Environment κ) : NamespaceId := env.stack.top.namespaceId

def currentName (env : Environment κ) : String := env.namespaces.path env.current

/-- The variables in a slot. -/
def scope (env : Environment κ) : Slot → Table Value
  | .frame depth =>
    match (env.stack.frame depth).storage with
    | .own vars => vars
    | .shared id => (env.namespaces.node id).vars
  | .inNamespace id => (env.namespaces.node id).vars

/-- Changes the variables of a namespace. -/
def modifyNamespaceScope (env : Environment κ) (id : NamespaceId)
    (f : Table Value → Table Value) : Environment κ :=
  { env with
    namespaces := env.namespaces.update id fun n => { n with vars := f n.vars } }

/-- Changes the variables in a slot. -/
def modifyScope (env : Environment κ) (slot : Slot) (f : Table Value → Table Value) :
    Environment κ :=
  match slot with
  | .frame depth =>
    match (env.stack.frame depth).storage with
    | .own vars =>
      { env with
        stack := env.stack.modify depth fun fr => { fr with storage := .own (f vars) } }
    | .shared id => env.modifyNamespaceScope id f
  | .inNamespace id => env.modifyNamespaceScope id f

/-! ## Namespaces by path -/

/-- A namespace that does not exist. -/
structure NoNamespace where
  path : String
  deriving DecidableEq, Repr

instance : Fault NoNamespace where
  kind _ := .generic
  message f := s!"namespace \"{f.path}\" not found"

/-- The root cannot be deleted. -/
inductive DeleteFault where
  | missing (fault : NoNamespace)
  | isRoot
  deriving DecidableEq, Repr

instance : Fault DeleteFault where
  kind _ := .generic
  message
    | .missing fault => Fault.message fault
    | .isRoot => "can't delete the global namespace"

/-- Finds a namespace from the current one; the empty path is the current one itself. -/
def namespaceAt (env : Environment κ) (path : String) : Except NoNamespace NamespaceId :=
  if path.isEmpty then .ok env.current
  else
    match env.namespaces.find env.current path with
    | some id => if (env.namespaces.node id).deleted then .error ⟨path⟩ else .ok id
    | none => .error ⟨path⟩

def hasNamespace (env : Environment κ) (path : String) : Bool :=
  (env.namespaces.find env.current path).isSome

/-- The full names of a namespace's children. -/
def namespaceChildren (env : Environment κ) (path : String) : Except NoNamespace (List String) := do
  let id ← env.namespaceAt path
  return (env.namespaces.childIds id).map env.namespaces.path

/-- The full name of a namespace's parent; empty for the root. -/
def namespaceParent (env : Environment κ) (path : String) : Except NoNamespace String := do
  let id ← env.namespaceAt path
  return ((env.namespaces.node id).parent.map env.namespaces.path).getD ""

def deleteNamespace (env : Environment κ) (path : String) :
    Except DeleteFault (Environment κ) :=
  match env.namespaceAt path with
  | .error fault => .error (.missing fault)
  | .ok id =>
    if id = NamespaceTree.root then .error .isRoot
    else .ok { env with namespaces := env.namespaces.delete id }

end Environment

end CommandScript
