import Mathlib.Data.List.Forall2
import CommandScript.Proofs.Frames

/-!
# Scripts that wait

A script that is deferred in a frame waits there until the frame goes. Inside an evaluation nothing
but that takes it out again: whatever commands do, in the frame, in frames above it or at its level
from further up, each frame that was there before has its scripts waiting still, in the same order,
behind those deferred meanwhile. Only the outermost evaluation, when it exits, runs what waits in
the frame it is in.

* `Stack.Awaits`: the frames of one stack with all that waits in another.
* `Discipline.awaiting`: evaluations keep scripts waiting.
* `awaits_of_runNested`: hence so does a script inside an evaluation.
-/

namespace CommandScript

/-! ## Stacks -/

/-- All that waits in a frame waits in another one, behind what was deferred later. -/
def Frame.Awaits (f g : Frame) : Prop := f.deferred <:+ g.deferred

namespace Frame.Awaits

theorem refl (f : Frame) : f.Awaits f := List.suffix_refl _

theorem trans {f g h : Frame} (hfg : f.Awaits g) (hgh : g.Awaits h) : f.Awaits h :=
  List.IsSuffix.trans hfg hgh

theorem of_eq {f g : Frame} (h : g.deferred = f.deferred) : f.Awaits g :=
  ⟨[], h.symm⟩

end Frame.Awaits

/-- Frame by frame, all that waits in a stack waits in another one. -/
def Stack.Awaits (s t : Stack) : Prop := List.Forall₂ Frame.Awaits s.toList t.toList

theorem awaits_refl (frames : List Frame) : List.Forall₂ Frame.Awaits frames frames :=
  List.forall₂_same.2 fun f _ => .refl f

theorem awaits_trans {a b c : List Frame} (hab : List.Forall₂ Frame.Awaits a b)
    (hbc : List.Forall₂ Frame.Awaits b c) : List.Forall₂ Frame.Awaits a c := by
  induction hab generalizing c with
  | nil => exact hbc
  | cons h _ ih =>
    cases hbc with
    | cons h' hrest => exact .cons (h.trans h') (ih hrest)

namespace Stack.Awaits

variable {s t u : Stack}

theorem refl (s : Stack) : s.Awaits s := awaits_refl _

theorem trans (hst : s.Awaits t) (htu : t.Awaits u) : s.Awaits u := awaits_trans hst htu

theorem top (h : s.Awaits t) : s.top.Awaits t.top := (List.forall₂_cons.1 h).1

theorem below (h : s.Awaits t) : List.Forall₂ Frame.Awaits s.below t.below :=
  (List.forall₂_cons.1 h).2

theorem modifyTop (s : Stack) {f : Frame → Frame} (h : s.top.Awaits (f s.top)) :
    s.Awaits (s.modifyTop f) := .cons h (awaits_refl _)

theorem modify (s : Stack) (depth : Nat) {f : Frame → Frame} (h : ∀ g : Frame, g.Awaits (f g)) :
    s.Awaits (s.modify depth f) := by
  have hrow : ∀ (frames : List Frame) (n : Nat),
      List.Forall₂ Frame.Awaits frames (frames.modify n f) := by
    intro frames n
    induction frames generalizing n with
    | nil => simp
    | cons g rest ih =>
      cases n with
      | zero => exact .cons (h g) (awaits_refl _)
      | succ n => exact .cons (.refl g) (ih n)
  unfold Stack.modify
  split
  · exact .cons (.refl _) (hrow _ _)
  · split
    · exact modifyTop s (h _)
    · exact refl s

/-- The frame that was pushed goes, whatever waits in it. -/
theorem pop {frame : Frame} (h : List.Forall₂ Frame.Awaits (s.push frame).below t.below) :
    s.Awaits t.pop := by
  have h : List.Forall₂ Frame.Awaits (s.top :: s.below) t.below := h
  obtain ⟨top, below⟩ := t
  cases h with
  | cons htop hbelow => exact .cons htop hbelow

theorem putBack_above {level : Nat} (hlevel : level ≤ s.depth) (h : (s.upTo level).Awaits t) :
    s.Awaits (Stack.putBack (s.above level) t) := by
  have h : List.Forall₂ Frame.Awaits (s.toList.drop (s.depth - level)) t.toList :=
    toList_upTo hlevel ▸ h
  show List.Forall₂ Frame.Awaits s.toList (Stack.putBack (s.above level) t).toList
  rw [toList_putBack, ← List.take_append_drop (s.depth - level) s.toList]
  exact List.rel_append (awaits_refl _) h

end Stack.Awaits

theorem Environment.awaits_modifyScope {κ : Type} (env : Environment κ) (slot : Slot)
    (f : Table Value → Table Value) : env.stack.Awaits (env.modifyScope slot f).stack := by
  unfold Environment.modifyScope
  split
  · split
    · exact .modify _ _ fun _ => .of_eq rfl
    · exact .refl _
  · exact .refl _

/-- Edits take no waiting script away. -/
theorem Environment.Edit.awaits {κ : Type} {K : Value.Kind} {allowed : Nat → Prop}
    {env env' : Environment κ} (h : env.Edit K allowed env') : env.stack.Awaits env'.stack := by
  induction h with
  | refl env => exact .refl _
  | trans _ _ ih ih' => exact ih.trans ih'
  | assign env slot name _ => exact awaits_modifyScope env slot _
  | erase env slot name => exact awaits_modifyScope env slot _
  | tie env target name _ _ => exact awaits_modifyScope env _ _
  | define env id name _ => exact .refl _
  | remove env id name => exact .refl _
  | transfer env id id' name name' command _ => exact .refl _
  | ensure env start path => exact .refl _
  | deleteNamespace env id => exact .refl _
  | running env _ => exact .modifyTop _ (.of_eq rfl)
  | defer env script => exact .modifyTop _ (List.suffix_cons _ _)

/-! ## The discipline -/

/-- What becomes of a descendant leaves the frames of an interpreter alone. -/
theorem Interp.awaits_modifyChild {κ : Type} {i c : Interp κ} {path : ChildPath}
    {f : Interp κ → Interp κ} (hc : i.child? path = some c)
    (hf : path = [] → c.env.stack.Awaits (f c).env.stack) :
    i.env.stack.Awaits (i.modifyChild f path).env.stack := by
  cases path with
  | nil => cases hc; exact hf rfl
  | cons name rest =>
    unfold Interp.modifyChild
    split
    · exact .refl _
    · exact .refl _

namespace Discipline

variable {κ : Type}

open Interp (Kept)

/-- Inside an evaluation scripts are kept waiting in all frames; while a frame goes, or the
outermost evaluation exits, in the frames below. -/
def awaiting : Discipline κ :=
  let steady : Discipline κ := keeping _ Interp.stable_true
  { steady with
    moves := fun s t => Kept s.interp t.interp ∧ (1 ≤ s.interp.level → s.stack.Awaits t.stack)
    refl := fun s => ⟨.refl _, fun _ => .refl _⟩
    trans := fun hst htu =>
      ⟨hst.1.trans htu.1, fun hlevel =>
        (hst.2 hlevel).trans (htu.2 (hst.1.level ▸ hlevel))⟩
    stops_of_moves := fun _ _ => trivial
    unwinds := fun s t => Kept s.interp t.interp ∧
      (1 ≤ s.interp.level → List.Forall₂ Frame.Awaits s.stack.below t.stack.below)
    unwinds_of_moves := fun h => ⟨h.1, fun hlevel => (h.2 hlevel).below⟩
    unwinds_trans := fun hst htu =>
      ⟨hst.1.trans htu.1, fun hlevel =>
        awaits_trans (hst.2 hlevel) (htu.2 (hst.1.level ▸ hlevel))⟩
    stops_of_unwinds := fun _ _ => trivial
    takeDeferred := fun s script rest hs h =>
      ⟨(steady.takeDeferred s script rest hs h).1, (steady.takeDeferred s script rest hs h).2,
        fun _ => awaits_refl _⟩
    record := fun s channels result error count world hs hresult herror =>
      ⟨(steady.record s channels result error count world hs hresult herror).1,
        ⟨rfl, rfl, rfl, rfl, rfl⟩, fun _ => .refl _⟩
    edit := fun s env hs hedit =>
      ⟨(steady.edit s env hs hedit).1, (steady.edit s env hs hedit).2, fun _ => hedit.awaits⟩
    createChild := fun s path safe i hs hi => by
      obtain ⟨hinv, hkept⟩ := steady.createChild s path safe i hs hi
      refine ⟨hinv, hkept, fun _ => ?_⟩
      obtain ⟨name, parent, _, hparent, _, rfl⟩ := Interp.createChild_ok hi
      exact Interp.awaits_modifyChild hparent fun _ => .refl _
    deleteChild := fun s path i hs hi => by
      obtain ⟨hinv, hkept⟩ := steady.deleteChild s path i hs hi
      refine ⟨hinv, hkept, fun _ => ?_⟩
      obtain ⟨name, parent, _, hparent, rfl⟩ := Interp.deleteChild_ok hi
      exact Interp.awaits_modifyChild hparent fun _ => .refl _
    leaveFrame := fun s frame t hs ht h => by
      obtain ⟨hinv, hkept⟩ := steady.leaveFrame s frame t hs ht h.1
      exact ⟨hinv, hkept, fun hlevel => .pop (h.2 hlevel)⟩
    leaveLevel := fun s level command t hs hlevel hcommand h => by
      obtain ⟨hinv, hkept⟩ := steady.leaveLevel s level command t hs hlevel hcommand ⟨h.1, h.2.1⟩
      refine ⟨hinv, hkept, fun hcounted => .putBack_above hlevel ?_⟩
      have hshape : t.stack.shape = (s.stack.upTo level).shape := h.2.1.shape
      rw [Stack.upTo_of_shape hlevel hshape]
      exact (h.2.2 hcounted).trans (.modifyTop _ (.of_eq rfl))
    leaveChild := fun s path child t hs hchild h => by
      obtain ⟨hinv, hkept⟩ := steady.leaveChild s path child t hs hchild ⟨h.1, h.2.1⟩
      refine ⟨hinv, hkept, fun hlevel => Interp.awaits_modifyChild hchild fun hpath => ?_⟩
      subst hpath
      cases hchild
      exact h.2.2 hlevel
    leaveCounted := fun s t hs hlimit h => by
      obtain ⟨hinv, hkept⟩ := steady.leaveCounted s t hs hlimit ⟨h.1, h.2.1⟩
      exact ⟨hinv, hkept, fun _ => h.2.2 (Nat.le_add_left 1 _)⟩
    leaveExit := fun s t hs hlevel ht h => ⟨h.1, fun hcounted => by omega⟩ }

theorem awaiting_standard : awaiting.Permits Builtin.run Builtin.run :=
  permits_standard fun _ => trivial

end Discipline

theorem kept_of_run {κ : Type} {ops : κ → Native κ} {fuel room : Nat} {request : Request}
    {s t : State κ} (hops : Discipline.awaiting.Permits ops ops)
    (h : t ∈ Action.ended? (run ops fuel room request s)) : s.interp.Kept t.interp := by
  have hinv : Discipline.awaiting.inv s := Interp.Everywhere.of_forall (fun _ => trivial) s.interp
  have hallows : s.interp.Kept t.interp ∧ (1 ≤ s.interp.level → s.stack.Awaits t.stack) :=
    (Discipline.allows_of_ended (Discipline.agree_run hops fuel room request) hinv h).2
  exact hallows.1

/-- What a script leaves inside an evaluation: the frames, with all that waited in them. -/
theorem awaits_of_runNested {κ : Type} {ops : κ → Native κ} {fuel room : Nat} {script : String}
    {s t : State κ} (hops : Discipline.awaiting.Permits ops ops) (hlevel : 1 ≤ s.interp.level)
    (h : t ∈ Action.ended? (runNested ops (.within ops fuel room) script s)) :
    s.interp.Kept t.interp ∧ s.stack.Awaits t.stack := by
  have hengine := Discipline.agreeEngine_within hops fuel room
  have hagree := Discipline.agree_runNested hengine hops script
  have hinv : Discipline.awaiting.inv s := Interp.Everywhere.of_forall (fun _ => trivial) s.interp
  have hallows : s.interp.Kept t.interp ∧ (1 ≤ s.interp.level → s.stack.Awaits t.stack) :=
    (Discipline.allows_of_ended hagree hinv h).2
  exact ⟨hallows.1, hallows.2 hlevel⟩

end CommandScript
