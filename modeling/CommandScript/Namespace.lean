import CommandScript.Name
import CommandScript.Registry

/-!
# Namespaces

Namespaces form a tree. They are kept in a row and know each other by their places in it, so that a
place stays good for whoever holds it: a deleted namespace stays in the row, emptied and cut off
from its parent. The children of a namespace are sorted by name.
-/

namespace CommandScript

structure Namespace (κ : Type) where
  name : String
  parent : Option NamespaceId
  children : List (String × NamespaceId) := []
  commands : Table (Executable κ) := []
  vars : Table Value := []
  deleted : Bool := false

/-- What stands at a place that was never given out. -/
def Namespace.absent {κ : Type} : Namespace κ := { name := "", parent := none, deleted := true }

structure NamespaceTree (κ : Type) where
  nodes : List (Namespace κ) := [{ name := "", parent := none }]

namespace NamespaceTree

variable {κ : Type}

/-- The namespace all others descend from. -/
def root : NamespaceId := 0

def node (t : NamespaceTree κ) (id : NamespaceId) : Namespace κ := t.nodes.getD id Namespace.absent

/-- The row, made long enough for a place. -/
def filledTo (t : NamespaceTree κ) (id : NamespaceId) : List (Namespace κ) :=
  t.nodes ++ List.replicate (id + 1 - t.nodes.length) Namespace.absent

def update (t : NamespaceTree κ) (id : NamespaceId) (f : Namespace κ → Namespace κ) :
    NamespaceTree κ :=
  { nodes := (t.filledTo id).modify id f }

/-! ## Finding -/

def child? (t : NamespaceTree κ) (id : NamespaceId) (name : String) : Option NamespaceId :=
  Table.get? (t.node id).children name

/-- Follows names down from a namespace. -/
def walk (t : NamespaceTree κ) : NamespaceId → List String → Option NamespaceId
  | id, [] => some id
  | id, name :: rest => (t.child? id name).bind fun child => t.walk child rest

/-- Finds a namespace by its path: from the root if the path starts with `::`, else from the
given namespace, and then from the root. -/
def find (t : NamespaceTree κ) (start : NamespaceId) (path : String) : Option NamespaceId :=
  match Name.absolute? path with
  | some rest => t.walk root (Name.components rest)
  | none => t.walk start (Name.components path) <|> t.walk root (Name.components path)

/-- The names on the way down to a namespace; `fuel` bounds the way. -/
def namesTo (t : NamespaceTree κ) : (fuel : Nat) → NamespaceId → List String
  | 0, _ => []
  | fuel + 1, id =>
    if id = root then []
    else
      match (t.node id).parent with
      | some parent => t.namesTo fuel parent ++ [(t.node id).name]
      | none => [(t.node id).name]

/-- The full name of a namespace. -/
def path (t : NamespaceTree κ) (id : NamespaceId) : String :=
  "::" ++ "::".intercalate (t.namesTo t.nodes.length id)

/-! ## Creating and deleting -/

def addChild (t : NamespaceTree κ) (parent : NamespaceId) (name : String) :
    NamespaceId × NamespaceTree κ :=
  let id := t.nodes.length
  let t : NamespaceTree κ := { nodes := t.nodes ++ [{ name, parent := some parent }] }
  (id, t.update parent fun n => { n with children := Table.insertSorted n.children name id })

/-- Follows names down from a namespace, creating what is missing. -/
def ensureFrom (t : NamespaceTree κ) : NamespaceId → List String → NamespaceId × NamespaceTree κ
  | id, [] => (id, t)
  | id, name :: rest =>
    match t.child? id name with
    | some child => t.ensureFrom child rest
    | none =>
      let (child, t) := t.addChild id name
      t.ensureFrom child rest

/-- Finds a namespace by its path, creating what is missing. -/
def ensure (t : NamespaceTree κ) (start : NamespaceId) (path : String) :
    NamespaceId × NamespaceTree κ :=
  match Name.absolute? path with
  | some rest => t.ensureFrom root (Name.components rest)
  | none => t.ensureFrom start (Name.components path)

/-- Empties the given namespaces and all below them, at most `fuel` in number. -/
def clear (t : NamespaceTree κ) : (fuel : Nat) → List NamespaceId → NamespaceTree κ
  | 0, _ => t
  | _, [] => t
  | fuel + 1, id :: rest =>
    let below := (t.node id).children.map Prod.snd
    let t := t.update id fun n =>
      { n with children := [], commands := [], vars := [], deleted := true }
    t.clear fuel (below ++ rest)

/-- Deletes a namespace and all below it; the root stays. -/
def delete (t : NamespaceTree κ) (id : NamespaceId) : NamespaceTree κ :=
  if id = root then t
  else
    let cut :=
      match (t.node id).parent with
      | some parent =>
        t.update parent fun n => { n with children := n.children.filter fun c => c.2 != id }
      | none => t
    cut.clear cut.nodes.length [id]

/-! ## Children -/

def childIds (t : NamespaceTree κ) (id : NamespaceId) : List NamespaceId :=
  (t.node id).children.map Prod.snd

end NamespaceTree

end CommandScript
