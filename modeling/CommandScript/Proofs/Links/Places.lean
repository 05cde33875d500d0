import CommandScript.Proofs.Application
import CommandScript.Proofs.Interp.Tree

/-!
# Links in their places

A link stands in a table of variables and nowhere else: the values that scripts see have none, and
none inside a list or an array. An interpreter is well linked if its environment holds, besides
links, only values free of links, and if so do those of all its descendants. Evaluations, commands
and applications that store no links keep that.

* `Value.Kind.linkFree`: the kind of values free of links.
* `Discipline.holding`: the discipline of interpreters that hold values of one kind.
-/

namespace CommandScript

/-- A value that is no link and has none inside. -/
inductive Value.LinkFree : Value → Prop
  | string (s : String) : LinkFree (.string s)
  | number (x : Float) : LinkFree (.number x)
  | boolean (b : Bool) : LinkFree (.boolean b)
  | list {items : List Value} (h : ∀ v ∈ items, LinkFree v) : LinkFree (.list items)
  | array {entries : List (String × Value)} (h : ∀ e ∈ entries, LinkFree e.2) :
      LinkFree (.array entries)

def Value.Kind.linkFree : Value.Kind where
  Has := LinkFree
  string := .string
  number := .number
  boolean := .boolean
  list := ⟨fun h => by cases h; assumption, .list⟩
  array := ⟨fun h => by cases h; assumption, .array⟩

/-! ## Interpreters -/

namespace Interp

variable {κ : Type} {K : Value.Kind} {allowed : Nat → Prop} {i j : Interp κ}

/-- An interpreter and all its descendants hold what they may hold. -/
def HoldsAll (K : Value.Kind) (allowed : Nat → Prop) (i : Interp κ) : Prop :=
  i.Everywhere (HoldsHere K allowed)

theorem holdsHere_create (registry : Registry κ) (safe : Bool) :
    (create registry safe).HoldsHere K allowed := by
  refine ⟨⟨fun n hn => ?_, fun depth f hf => ?_⟩, .empty, fun _ he => by cases he⟩
  · cases List.mem_singleton.1 hn
    refine ⟨fun e he => ?_, fun e he p hp => ?_⟩
    · cases List.mem_singleton.1 he
      exact .value .empty
    · obtain ⟨entry, _, rfl⟩ := List.mem_map.1 he
      cases hp
  · have hdepth : depth = 0 := Nat.le_zero.1 (Stack.le_depth_of_frame? hf)
    subst hdepth
    cases hf
    exact ⟨fun _ hown => (by cases hown), fun _ hv => (by cases hv), fun _ hv => (by cases hv)⟩

theorem rearrangeable_holdsHere : Rearrangeable (HoldsHere (κ := κ) K allowed) where
  rearrange _ h := ⟨h.env, h.lastResult, h.lastError⟩
  fresh _ _ := holdsHere_create _ _

namespace HoldsAll

theorem env (h : i.HoldsAll K allowed) : i.env.Holds K allowed := h.here.env

theorem create (registry : Registry κ) (safe : Bool) :
    (Interp.create registry safe).HoldsAll K allowed :=
  .node (holdsHere_create registry safe) fun _ hc => by cases hc

/-- The same children below an interpreter that holds what it may hold. -/
theorem of_here (h : i.HoldsAll K allowed) (hj : j.HoldsHere K allowed)
    (hchildren : j.children = i.children) : j.HoldsAll K allowed :=
  .node hj fun _ hc => h.inside (hchildren ▸ hc)

theorem withEnv (h : i.HoldsAll K allowed) {env : Environment κ} (henv : env.Holds K allowed) :
    ({ i with env } : Interp κ).HoldsAll K allowed :=
  h.of_here ⟨henv, h.here.lastResult, h.here.lastError⟩ rfl

theorem withStack (h : i.HoldsAll K allowed) {stack : Stack} (hstack : stack.Holds K) :
    ({ i with env := { i.env with stack } } : Interp κ).HoldsAll K allowed :=
  h.withEnv (h.env.withStack hstack)

theorem withLevel (h : i.HoldsAll K allowed) (level : Nat) :
    ({ i with level } : Interp κ).HoldsAll K allowed :=
  h.of_here ⟨h.env, h.here.lastResult, h.here.lastError⟩ rfl

end HoldsAll

/-- The frames have the same shapes, and the flag is the same. -/
structure Alike (i j : Interp κ) : Prop where
  shape : j.env.stack.shape = i.env.stack.shape
  safe : j.safe = i.safe

/-- Children come and go without a change of the frames. -/
theorem Alike.modifyChild {c : Interp κ} {path : ChildPath} (hc : i.child? path = some c)
    (hj : Alike c j) : Alike i (i.modifyChild (fun _ => j) path) := by
  cases path with
  | nil => cases hc; exact hj
  | cons name rest =>
    unfold Interp.modifyChild
    split
    · exact ⟨rfl, rfl⟩
    · exact ⟨rfl, rfl⟩

theorem Alike.trans {k : Interp κ} (h : Alike i j) (h' : Alike j k) : Alike i k :=
  ⟨h'.shape.trans h.shape, h'.safe.trans h.safe⟩

end Interp

theorem Environment.stack_install {κ : Type} (env : Environment κ) (name : String)
    (command : Executable κ) : (env.install name command).stack = env.stack := by
  unfold install
  split
  rfl

/-! ## The discipline -/

namespace Discipline

variable {κ : Type} {K : Value.Kind} {allowed : Nat → Prop}

/-- The frames above a level are put back as they were. -/
theorem holds_fromLevel {s t : State κ} {level : Nat} (hs : s.interp.HoldsAll K allowed)
    (ht : t.interp.HoldsAll K allowed) (hshape : t.stack.shape = (s.stack.upTo level).shape)
    (hlevel : level ≤ s.stack.depth) {command : List Value} (hcommand : K.All command) :
    (s.fromLevel level command t).interp.HoldsAll K allowed ∧
      (s.fromLevel level command t).stack.shape = s.stack.shape := by
  have hdepth : t.stack.depth = level :=
    (Stack.depth_of_shape hshape).trans (Stack.depth_upTo hlevel)
  unfold State.fromLevel
  rw [Stack.upTo_of_shape hlevel hshape]
  refine ⟨ht.withStack ?_, ?_⟩
  · exact hs.env.stack.putBack (ht.env.stack.withCommand hcommand) hdepth hlevel
  · exact Stack.shape_putBack_above hlevel ((Stack.shape_modifyTop _ rfl).trans hshape)

/-- Evaluations leave the frames as they are in shape, and keep what is held of the kind. -/
def holding (K : Value.Kind) (allowed : Nat → Prop) (hzero : allowed 0) : Discipline κ where
  inv s := s.interp.HoldsAll K allowed
  moves s t := s.interp.Alike t.interp
  stops _ _ _ := True
  values := K
  refl _ := ⟨rfl, rfl⟩
  trans := .trans
  unwinds s t := s.interp.Alike t.interp
  unwinds_trans := .trans
  shared := allowed
  shared_zero := hzero
  holds hs := hs.here
  takeDeferred s script rest hs _ := by
    have htop := hs.env.stack.top
    exact ⟨hs.withStack (hs.env.stack.modifyTop ⟨htop.vars, htop.invocation, htop.command⟩),
      Stack.shape_modifyTop _ rfl, rfl⟩
  record s channels result error count world hs hresult herror :=
    ⟨hs.of_here ⟨hs.env, hresult, herror⟩ rfl, rfl, rfl⟩
  edit s env hs hedit := ⟨hs.withEnv (hedit.holds hs.env), hedit.stack_shape, rfl⟩
  createChild s path safe i hs hi := by
    refine ⟨hs.createChild Interp.rearrangeable_holdsHere hi, ?_⟩
    obtain ⟨name, parent, _, hparent, _, rfl⟩ := Interp.createChild_ok hi
    exact .modifyChild hparent ⟨rfl, rfl⟩
  deleteChild s path i hs hi := by
    refine ⟨hs.deleteChild Interp.rearrangeable_holdsHere hi, ?_⟩
    obtain ⟨name, parent, _, hparent, rfl⟩ := Interp.deleteChild_ok hi
    exact .modifyChild hparent ⟨rfl, rfl⟩
  enterFrame s frame hs hframe := hs.withStack (hs.env.stack.push hframe)
  leaveFrame s frame t _ ht halike :=
    ⟨ht.withStack ht.env.stack.pop, Stack.shape_pop halike.shape, halike.safe⟩
  enterLevel s level hs hlevel := hs.withStack (hs.env.stack.upTo hlevel)
  leaveLevel s level command t hs hlevel hcommand ht := by
    obtain ⟨hholds, hshape⟩ := holds_fromLevel hs ht.1 ht.2.shape hlevel hcommand
    exact ⟨hholds, hshape, ht.2.safe⟩
  enterChild s path child hs hchild := hs.child? hchild
  leaveChild s path child t hs hchild ht :=
    ⟨hs.modifyChild Interp.rearrangeable_holdsHere hchild ht.1 ht.2.safe, .modifyChild hchild ht.2⟩
  enterCounted s hs _ := hs.withLevel _
  leaveCounted s t _ _ ht := ⟨ht.1.withLevel _, ht.2.shape, ht.2.safe⟩

/-- An application may install any command. -/
theorem open_holding (hzero : allowed 0) :
    (holding K allowed hzero : Discipline κ).Open fun _ _ => True where
  limit s limit hs := ⟨hs.of_here ⟨hs.env, hs.here.lastResult, hs.here.lastError⟩ rfl, rfl, rfl⟩
  install s name key safe isClosure hs _ := by
    refine ⟨hs.withEnv (hs.env.install name fun p hp => ?_), ?_, rfl⟩
    · split at hp <;> cases hp
    · show (s.interp.env.install name _).stack.shape = _
      rw [Environment.stack_install]

end Discipline

end CommandScript
