import CommandScript.Proofs.Evaluation.Run
import CommandScript.Proofs.Interp.Tree

/-!
# What every evaluation keeps

An evaluation leaves an interpreter with the stack it found, in shape, at the same level, with the
same limit, the same registry and the same flag. And a property that commands cannot break holds of
an interpreter and all its descendants after an evaluation if it did before.

* `Discipline.keeping`: the discipline that says all this.
* `Discipline.tracking`: one that says less, and so lets limits change and commands be installed.
* `Action.ended?`, `Action.outOfDepth?`: how a run ended, or what was in progress.
-/

namespace CommandScript

/-! ## The discipline -/

namespace State

variable {κ : Type}

theorem kept_fromLevel {s t : State κ} {level : Nat} (hlevel : level ≤ s.stack.depth)
    (h : Interp.Kept (s.withStack (s.stack.upTo level)).interp t.interp) (command : List Value) :
    Interp.Kept s.interp (s.fromLevel level command t).interp := by
  refine ⟨?_, h.level, h.recursionLimit, h.safe, h.registry⟩
  have hshape : t.stack.shape = (s.stack.upTo level).shape := h.shape
  show (Stack.putBack (s.stack.above level) ((t.stack.upTo level).modifyTop _)).shape =
    s.stack.shape
  -- Cutting the stack down to the level drops nothing, as nothing was left above it.
  rw [Stack.upTo_of_shape hlevel hshape]
  exact Stack.shape_putBack_above hlevel ((Stack.shape_modifyTop _ rfl).trans hshape)

end State

namespace Discipline

variable {κ : Type} {P : Interp κ → Prop}

open Interp (Kept Everywhere Evolves)

/-- Evaluations keep what `Kept` lists, and keep the property everywhere. -/
def keeping (P : Interp κ → Prop) (hP : Interp.Stable (fun _ _ => False) P) : Discipline κ where
  inv s := Everywhere P s.interp
  moves s t := Kept s.interp t.interp
  stops _ _ _ := True
  values := .any
  shared _ := True
  shared_zero := trivial
  holds {s} _ := s.interp.holdsHere_any
  refl s := Kept.refl s.interp
  trans := Kept.trans
  unwinds s t := Kept s.interp t.interp
  unwinds_trans := Kept.trans
  takeDeferred s script rest hs _ :=
    ⟨hs.evolve hP (.of_eq rfl rfl rfl rfl rfl) rfl,
      ⟨Stack.shape_modifyTop _ rfl, rfl, rfl, rfl, rfl⟩⟩
  record s channels result error count world hs _ _ :=
    ⟨hs.evolve hP (.of_eq rfl rfl rfl rfl rfl) rfl, ⟨rfl, rfl, rfl, rfl, rfl⟩⟩
  edit s env hs hedit :=
    ⟨hs.evolve hP (.edit hedit) rfl,
      ⟨hedit.stack_shape, rfl, rfl, rfl, rfl⟩⟩
  createChild s path safe i hs hi := by
    refine ⟨hs.createChild hP.rearrangeable hi, ?_⟩
    obtain ⟨name, parent, _, hparent, _, rfl⟩ := Interp.createChild_ok hi
    exact Kept.modifyChild hparent ⟨rfl, rfl, rfl, rfl, rfl⟩
  deleteChild s path i hs hi := by
    refine ⟨hs.deleteChild hP.rearrangeable hi, ?_⟩
    obtain ⟨name, parent, _, hparent, rfl⟩ := Interp.deleteChild_ok hi
    exact Kept.modifyChild hparent ⟨rfl, rfl, rfl, rfl, rfl⟩
  enterFrame s frame hs _ := hs.evolve hP (.of_eq rfl rfl rfl rfl rfl) rfl
  leaveFrame s frame t _ ht hkept :=
    ⟨ht.evolve hP (.of_eq rfl rfl rfl rfl rfl) rfl,
      ⟨Stack.shape_pop hkept.shape, hkept.level, hkept.recursionLimit, hkept.safe,
        hkept.registry⟩⟩
  enterLevel s level hs _ := hs.evolve hP (.of_eq rfl rfl rfl rfl rfl) rfl
  leaveLevel s level command t _ hlevel _ ht :=
    ⟨ht.1.evolve hP (.of_eq rfl rfl rfl rfl rfl) rfl, State.kept_fromLevel hlevel ht.2 command⟩
  enterChild s path child hs hchild := hs.child? hchild
  leaveChild s path child t hs hchild ht :=
    ⟨hs.modifyChild hP.rearrangeable hchild ht.1 ht.2.safe, Kept.modifyChild hchild ht.2⟩
  enterCounted s hs _ := hs.evolve hP (.of_eq rfl rfl rfl rfl rfl) rfl
  leaveCounted s t _ _ ht := by
    refine ⟨ht.1.evolve hP (.of_eq rfl rfl rfl rfl rfl) rfl,
      ⟨ht.2.shape, ?_, ht.2.recursionLimit, ht.2.safe, ht.2.registry⟩⟩
    have hlevel : t.interp.level = s.interp.level + 1 := ht.2.level
    show t.interp.level - 1 = s.interp.level
    omega

end Discipline

/-! ## Tracking changes -/

/-- A relation between interpreters that all single changes give where a property holds: changes of
one interpreter alone, of a descendant, and of the children that there are. -/
structure Interp.Relates {κ : Type} (installs : κ → Bool → Prop) (P : Interp κ → Prop)
    (R : Interp κ → Interp κ → Prop) : Prop where
  refl : ∀ i, R i i
  trans : ∀ {i j k}, R i j → R j k → R i k
  safe : ∀ {i j}, R i j → j.safe = i.safe
  evolve : ∀ {i j}, Evolves installs i j → j.children = i.children → R i j
  limit : ∀ (i : Interp κ) limit, R i { i with recursionLimit := limit }
  modifyChild : ∀ {i c d : Interp κ} {path : ChildPath}, i.child? path = some c → R c d →
    R i (i.modifyChild (fun _ => d) path)
  create : ∀ {i : Interp κ} {name : String} (safe : Bool), P i →
    Table.contains i.children name = false → R i (i.withNewChild name safe)
  delete : ∀ {i : Interp κ} (name : String), P i →
    R i { i with children := Table.erase i.children name }

section

variable {κ : Type} {installs : κ → Bool → Prop} {P : Interp κ → Prop}
  {R : Interp κ → Interp κ → Prop}

open Interp (Everywhere)

theorem Interp.Relates.of_eq (h : Relates installs P R) {i j : Interp κ}
    (hr : j.registry = i.registry) (hs : j.safe = i.safe)
    (hl : j.recursionLimit = i.recursionLimit) (hn : j.env.namespaces = i.env.namespaces)
    (hc : j.children = i.children) : R i j := h.evolve (.of_eq hr hs hl hn hc) hc

/-- Evaluations keep the property everywhere, and relate the interpreters before and after. Nothing
is said of frames, levels and limits. -/
def Discipline.tracking (hP : Interp.Stable installs P) (hR : Interp.Relates installs P R) :
    Discipline κ where
  inv s := Everywhere P s.interp
  moves s t := R s.interp t.interp
  stops _ _ _ := True
  values := .any
  shared _ := True
  shared_zero := trivial
  holds {s} _ := s.interp.holdsHere_any
  refl s := hR.refl s.interp
  trans := hR.trans
  unwinds s t := R s.interp t.interp
  unwinds_trans := hR.trans
  takeDeferred s script rest hs _ :=
    ⟨hs.evolve hP (.of_eq rfl rfl rfl rfl rfl) rfl, hR.of_eq rfl rfl rfl rfl rfl⟩
  record s channels result error count world hs _ _ :=
    ⟨hs.evolve hP (.of_eq rfl rfl rfl rfl rfl) rfl, hR.of_eq rfl rfl rfl rfl rfl⟩
  edit s env hs hedit := ⟨hs.evolve hP (.edit hedit) rfl, hR.evolve (.edit hedit) rfl⟩
  createChild s path safe i hs hi := by
    refine ⟨hs.createChild hP.rearrangeable hi, ?_⟩
    obtain ⟨name, parent, _, hparent, hnew, rfl⟩ := Interp.createChild_ok hi
    exact hR.modifyChild hparent (hR.create safe (hs.child? hparent).here hnew)
  deleteChild s path i hs hi := by
    refine ⟨hs.deleteChild hP.rearrangeable hi, ?_⟩
    obtain ⟨name, parent, _, hparent, rfl⟩ := Interp.deleteChild_ok hi
    exact hR.modifyChild hparent (hR.delete name (hs.child? hparent).here)
  enterFrame s frame hs _ := hs.evolve hP (.of_eq rfl rfl rfl rfl rfl) rfl
  leaveFrame s frame t _ ht h :=
    have hpushed : R s.interp (s.withStack (s.stack.push frame)).interp :=
      hR.of_eq rfl rfl rfl rfl rfl
    ⟨ht.evolve hP (.of_eq rfl rfl rfl rfl rfl) rfl,
      hR.trans (hR.trans hpushed h) (hR.of_eq rfl rfl rfl rfl rfl)⟩
  enterLevel s level hs _ := hs.evolve hP (.of_eq rfl rfl rfl rfl rfl) rfl
  leaveLevel s level command t _ _ _ ht :=
    have hcut : R s.interp (s.withStack (s.stack.upTo level)).interp :=
      hR.of_eq rfl rfl rfl rfl rfl
    ⟨ht.1.evolve hP (.of_eq rfl rfl rfl rfl rfl) rfl,
      hR.trans (hR.trans hcut ht.2) (hR.of_eq rfl rfl rfl rfl rfl)⟩
  enterChild s path child hs hchild := hs.child? hchild
  leaveChild s path child t hs hchild ht :=
    ⟨hs.modifyChild hP.rearrangeable hchild ht.1 (hR.safe ht.2), hR.modifyChild hchild ht.2⟩
  enterCounted s hs _ := hs.evolve hP (.of_eq rfl rfl rfl rfl rfl) rfl
  leaveCounted s t _ _ ht :=
    have hcounted : R s.interp (s.withLevel (s.interp.level + 1)).interp :=
      hR.of_eq rfl rfl rfl rfl rfl
    ⟨ht.1.evolve hP (.of_eq rfl rfl rfl rfl rfl) rfl,
      hR.trans (hR.trans hcounted ht.2) (hR.of_eq rfl rfl rfl rfl rfl)⟩

end

/-! ## How runs end -/

namespace Action

variable {σ α : Type}

/-- The state in which a run came to an end, with a value or an exception; none if it was cut
short. -/
def ended? : EStateM.Result Stop σ α → Option σ
  | .ok _ t => some t
  | .error (.raised _) t => some t
  | .error _ _ => none

/-- The evaluations in progress where a run was cut short for want of room. -/
def outOfDepth? : EStateM.Result Stop σ α → Option (List Activation)
  | .error (.outOfDepth active) _ => some active
  | _ => none

theorem mem_outOfDepth? {r : EStateM.Result Stop σ α} {active : List Activation} :
    active ∈ outOfDepth? r ↔ ∃ t, r = .error (.outOfDepth active) t := by
  constructor
  · intro h
    unfold outOfDepth? at h
    split at h
    · cases h; exact ⟨_, rfl⟩
    · cases h
  · rintro ⟨t, rfl⟩
    rfl

end Action

namespace Discipline

variable {κ α : Type} [Data α] {D : Discipline κ} {room : Nat} {x y : Act κ α} {s t : State κ}

theorem allows_of_ended (h : D.Agree room x y) (hs : D.inv s) (ht : t ∈ Action.ended? (x s)) :
    D.Allows s t := by
  have hends := (h s hs).2
  generalize x s = r at hends ht
  cases r with
  | ok a u => cases ht; exact hends.1
  | error stop u =>
    cases stop with
    | raised e => cases ht; exact hends.1
    | halted => cases ht
    | outOfDepth active => cases ht

end Discipline

end CommandScript
