import CommandScript.Environment.Basic

/-!
# Variables

Lookup is dynamic: a plain name means the variable of that name in the nearest frame that has one,
from the current frame down to the global one, and a new variable of the current frame if none has.
A qualified name means a variable of a namespace. A link found under a name is followed, as seen
from the frame the link was made for.

* `locate` finds the place a name means.
* `read`, `set`, `unset` and `exists` work on that place.
* `link` makes a name of the current frame another name for a variable.
-/

namespace CommandScript

/-- What was to be done with a variable. -/
inductive Access where
  | read | set | unset | reach
  deriving DecidableEq, Repr

def Access.verb : Access → String
  | read => "read"
  | set => "set"
  | unset => "unset"
  | reach => "access"

inductive VariableFault where
  | noVariable (access : Access) (name : String)
  | noElement (access : Access) (name : String)
  | isArray (access : Access) (name : String)
  | notArray (access : Access) (name : String)
  | noNamespace (name : String)
  | tooManyLinks (name : String)
  /-- Keys and values that do not pair up. -/
  | oddElements
  deriving DecidableEq, Repr

instance : Fault VariableFault where
  kind
    | .noVariable _ _ | .noElement _ _ | .noNamespace _ => .undefinedVariable
    | .isArray _ _ | .notArray _ _ => .typeMismatch
    | .tooManyLinks _ => .linkScope
    | .oddElements => .generic
  message
    | .noVariable access name => s!"can't {access.verb} \"{name}\": no such variable"
    | .noElement access name => s!"can't {access.verb} \"{name}\": no such element in array"
    | .isArray access name => s!"can't {access.verb} \"{name}\": variable is array"
    | .notArray access name => s!"can't {access.verb} \"{name}\": variable isn't array"
    | .noNamespace name => s!"can't access \"{name}\": parent namespace doesn't exist"
    | .tooManyLinks name => s!"can't access \"{name}\": too many nested variable links"
    | .oddElements => "list must have an even number of elements"

/-- Why a link cannot be made. -/
inductive LinkFault where
  | atGlobalLevel
  | badLevel (level : Nat)
  | toItself
  | looksLikeElement (name : String)
  | alreadyExists (name : String)
  deriving DecidableEq, Repr

instance : Fault LinkFault where
  kind _ := .linkScope
  message
    | .atGlobalLevel => "cannot link variables at global level"
    | .badLevel level => s!"bad level \"#{level}\""
    | .toItself => "can't upvar from variable to itself"
    | .looksLikeElement name => s!"bad variable name \"{name}\": " ++
        "can't create a scalar variable that looks like an array element"
    | .alreadyExists name => s!"variable \"{name}\" already exists"

/-- The place that a variable name means. -/
structure Location where
  slot : Slot
  /-- The variable's name in its slot. -/
  name : String
  /-- The element of the array, if one is meant. -/
  index : Option String
  deriving DecidableEq, Repr

namespace Environment

variable {κ : Type}

/-! ## Locating -/

/-- How many links a name may lead through. -/
def maxLinks : Nat := 100

/-- The depth of the nearest frame, from a depth down, that has a variable. -/
def owner? (env : Environment κ) (name : String) : (depth : Nat) → Option Nat
  | 0 => if (env.scope (.frame 0)).contains name then some 0 else none
  | depth + 1 =>
    if (env.scope (.frame (depth + 1))).contains name then some (depth + 1)
    else env.owner? name depth

/-- The slot and the name in it that a name without index means, seen from a depth and before
links are followed; nothing if its namespace does not exist. -/
def slotOf? (env : Environment κ) (name : String) (depth : Nat) : Option (Slot × String) :=
  match Name.splitQualified name with
  | (some qualifiers, tail) =>
    if qualifiers.isEmpty then some (.inNamespace NamespaceTree.root, tail)
    else
      (env.namespaces.find (env.stack.frame depth).namespaceId qualifiers).map fun id =>
        (.inNamespace id, tail)
  | (none, _) => some (.frame ((env.owner? name depth).getD depth), name)

/-- Follows at most `hops` names; `whole` is the name that complaints show. -/
def locateWithin (env : Environment κ) (whole : String) :
    (hops : Nat) → (name : String) → (index : Option String) → (depth : Nat) →
      Except VariableFault Location
  | 0, _, _, _ => .error (.tooManyLinks whole)
  | hops + 1, name, index, depth =>
    match env.slotOf? name depth with
    | none => .error (.noNamespace whole)
    | some (slot, key) =>
      match (env.scope slot).get? key with
      | some (.link target linkDepth) =>
        let depth := min linkDepth env.depth
        match Name.splitIndex target, index with
        | (_, some _), some _ => .error (.notArray .reach whole)
        | (base, some i), none => env.locateWithin whole hops base (some i) depth
        | (base, none), index => env.locateWithin whole hops base index depth
      | _ => .ok { slot, name := key, index }

/-- The place that a name means, links followed. -/
def locate (env : Environment κ) (name : String) : Except VariableFault Location :=
  let (base, index) := Name.splitIndex name
  env.locateWithin name maxLinks base index env.depth

/-- The variable at a place, elements not told apart. -/
def held? (env : Environment κ) (l : Location) : Option Value :=
  (env.scope l.slot).get? l.name

/-! ## Reading -/

def read (env : Environment κ) (name : String) : Except VariableFault Value := do
  let l ← env.locate name
  match env.held? l, l.index with
  | none, _ => .error (.noVariable .read name)
  | some (.array entries), some index =>
    (Table.get? entries index).elim (.error (.noElement .read name)) .ok
  | some (.array _), none => .error (.isArray .read name)
  | some _, some _ => .error (.notArray .read name)
  | some v, none => .ok v

/-- Whether a variable, or an element of an array, exists. -/
def exists? (env : Environment κ) (name : String) : Bool :=
  match env.locate name with
  | .error _ => false
  | .ok l =>
    match env.held? l, l.index with
    | some (.array entries), some index => Table.contains entries index
    | some _, some _ => false
    | some _, none => true
    | none, _ => false

/-! ## Changing -/

/-- Puts a value under a name in a slot. -/
def assign (env : Environment κ) (slot : Slot) (name : String) (v : Value) : Environment κ :=
  env.modifyScope slot fun scope => scope.insert name v

/-- Sets a variable. Setting an element of a variable that does not exist makes an array. -/
def set (env : Environment κ) (name : String) (v : Value) :
    Except VariableFault (Environment κ) := do
  let l ← env.locate name
  match env.held? l, l.index with
  | some (.array _), none => .error (.isArray .set name)
  | _, none => .ok (env.assign l.slot l.name v)
  | some (.array entries), some index =>
    .ok (env.assign l.slot l.name (.array (Table.insert entries index v)))
  | some _, some _ => .error (.notArray .set name)
  | none, some index => .ok (env.assign l.slot l.name (.array [(index, v)]))

/-- Unsets a variable or an element. Of a link, what it leads to is unset. -/
def unset (env : Environment κ) (name : String) : Except VariableFault (Environment κ) := do
  let l ← env.locate name
  match env.held? l, l.index with
  | none, _ => .error (.noVariable .unset name)
  | some _, none => .ok (env.modifyScope l.slot fun scope => scope.erase l.name)
  | some (.array entries), some index =>
    if Table.contains entries index then
      .ok (env.assign l.slot l.name (.array (Table.erase entries index)))
    else .error (.noElement .unset name)
  | some _, some _ => .error (.notArray .unset name)

/-! ## Linking -/

/-- Makes `name` in the current frame another name for `target` as seen from the frame at depth
`level`. -/
def link (env : Environment κ) (level : Nat) (target name : String) :
    Except LinkFault (Environment κ) :=
  if env.depth = 0 then .error .atGlobalLevel
  else if level > env.depth then .error (.badLevel level)
  else if level = env.depth ∧ target = name then .error .toItself
  else if (Name.splitIndex name).2.isSome then .error (.looksLikeElement name)
  else
    let linked := env.assign (.frame env.depth) name (.link target level)
    match (env.scope (.frame env.depth)).get? name with
    | none => .ok linked
    | some (.link _ _) => .ok linked
    | some _ => .error (.alreadyExists name)

/-- Links a name to the global variable of that name. At the global level it means that already. -/
def linkGlobal (env : Environment κ) (name : String) : Except LinkFault (Environment κ) :=
  if env.depth = 0 then .ok env else env.link 0 name (Name.splitQualified name).2

/-! ## Listing -/

/-- The variables of the current frame, links included. -/
def visibleVariables (env : Environment κ) : List String := (env.scope (.frame env.depth)).names

def globalVariables (env : Environment κ) : List String :=
  (env.scope (.inNamespace NamespaceTree.root)).names

/-- The current procedure's own variables; none outside a procedure. -/
def localVariables (env : Environment κ) : List String :=
  match env.stack.top.storage with
  | .own vars =>
    vars.filterMap fun
      | (_, .link _ _) => none
      | (name, _) => some name
  | .shared _ => []

/-! ## Arrays -/

/-- The entries of an array, if there is one of that name. -/
def array? (env : Environment κ) (name : String) : Option (Table Value) :=
  match env.locate name with
  | .ok l =>
    match env.held? l, l.index with
    | some (.array entries), none => some entries
    | _, _ => none
  | .error _ => none

def arrayEntries (env : Environment κ) (name : String) : Table Value := (env.array? name).getD []

/-- Sets elements one after another, and stops at the first that cannot be set. -/
def setElements (env : Environment κ) (name : String) :
    List (String × Value) → Except VariableFault Unit × Environment κ
  | [] => (.ok (), env)
  | (key, v) :: rest =>
    match env.set (Name.element name key) v with
    | .ok env => env.setElements name rest
    | .error fault => (.error fault, env)

/-- Merges a row of keys and values, in turn, into an array, which is made if there is none. -/
def setArray (env : Environment κ) (name : String) (items : List Value) :
    Except VariableFault Unit × Environment κ :=
  match Value.pairs? items with
  | none => (.error .oddElements, env)
  | some entries =>
    if entries.isEmpty && !env.exists? name then
      match env.set name (.array []) with
      | .ok env => (.ok (), env)
      | .error fault => (.error fault, env)
    else env.setElements name entries

/-- Unsets an array, if there is one. -/
def unsetArray (env : Environment κ) (name : String) : Environment κ :=
  if (env.array? name).isSome then
    match env.unset name with
    | .ok env => env
    | .error _ => env
  else env

end Environment

end CommandScript
