import CommandScript.Proofs.Evaluation.Conduct
import CommandScript.Proofs.Standard.Control

/-!
# Frames come and go in pairs

Whatever a script does, and however its evaluation ends, the frames below and above are those that
were there before: calls, evaluations in namespaces and at other levels, and deferred scripts that
fail put the stack back, and so does an evaluation that is refused for being nested too deep.
-/

namespace CommandScript

/-- A new interpreter with the standard commands, in an empty world. -/
def State.standard : State Builtin where
  interp := .create (standardRegistry id) false
  world := {}

theorem Interp.stable_true {κ : Type} {installs : κ → Bool → Prop} :
    Stable installs fun _ : Interp κ => True where
  evolve _ _ := trivial
  fresh _ _ := trivial

theorem Discipline.permits_standard {D : Discipline Builtin} (h : ∀ level, D.shared level) :
    D.Permits Builtin.run Builtin.run :=
  fun _ _ _ _ _ _ _ _ => Standard.respects_run fun _ => h

/-- What the evaluation of any script keeps. -/
theorem kept_of_ended {fuel depth : Nat} {request : Request} {s t : State Builtin}
    (ht : t ∈ Action.ended? (run Builtin.run fuel depth request s)) :
    s.interp.Kept t.interp := by
  have hagree := Discipline.agree_run
    (Discipline.permits_standard (D := .keeping _ Interp.stable_true) fun _ => trivial)
    fuel depth request
  exact (Discipline.allows_of_ended hagree (.of_forall (fun _ => trivial) s.interp) ht).2

/-- After an evaluation the frames are those that were there before: each with variables of its own
or those of the same namespace, in the same namespace and made by the same words; and the level is
what it was. So where a script runs at another level, what is on the stack when it has ended is
what was left there, and cutting the stack down to the level drops nothing. -/
theorem evaluation_keeps_frames (fuel depth : Nat) (script : Value) (s : State Builtin) :
    (∀ t ∈ Action.ended? (run Builtin.run fuel depth (.counted script) s),
      t.stack.shape = s.stack.shape ∧ t.interp.level = s.interp.level) ∧
    ∀ level ≤ s.stack.depth,
      ∀ t ∈ Action.ended?
          (run Builtin.run fuel depth (.counted script) (s.withStack (s.stack.upTo level))),
        t.stack.upTo level = t.stack := by
  refine ⟨fun t ht => ?_, fun level hlevel t ht => ?_⟩
  · have hkept := kept_of_ended ht
    exact ⟨hkept.shape, hkept.level⟩
  · have hshape : t.stack.shape = (s.stack.upTo level).shape := (kept_of_ended ht).shape
    have hdepth : t.stack.depth = level :=
      (Stack.depth_of_shape hshape).trans (Stack.depth_upTo hlevel)
    rw [← hdepth, Stack.upTo_depth]

/-- A procedure that fails at its caller's level, called inside a call. -/
theorem evaluation_keeps_frames_uplevel :
    let s := State.standard.withStack
      (State.standard.stack.push { storage := .own [], namespaceId := NamespaceTree.root })
    let script : Value :=
      .string "proc f \x7b\x7d \x7buplevel 1 \x7berror x\x7d\x7d; defer break; catch f; f"
    (∃ t ∈ Action.ended? (run Builtin.run 20 20 (.counted script) s),
      t.stack.shape = s.stack.shape ∧ t.interp.level = 0) ∧
    ∃ t ∈ Action.ended? (run Builtin.run 20 20 (.counted script) (s.withStack (s.stack.upTo 0))),
      t.stack.upTo 0 = t.stack := by
  intro s script
  have ends : ∀ s : State Builtin,
      (Action.ended? (run Builtin.run 20 20 (.counted script) s)).isSome = true →
      ∃ t, t ∈ Action.ended? (run Builtin.run 20 20 (.counted script) s) :=
    fun _ h => Option.isSome_iff_exists.1 h
  obtain ⟨t, ht⟩ := ends s (by decide +kernel)
  obtain ⟨u, hu⟩ := ends (s.withStack (s.stack.upTo 0)) (by decide +kernel)
  have h := evaluation_keeps_frames 20 20 script s
  exact ⟨⟨t, ht, h.1 t ht⟩, u, hu, h.2 0 (Nat.zero_le _) u hu⟩

end CommandScript
