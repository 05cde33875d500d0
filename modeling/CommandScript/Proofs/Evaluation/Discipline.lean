import CommandScript.Proofs.Evaluation.Data

/-!
# Disciplines of actions

A discipline says what actions keep: an invariant of states, a relation between the state before an
action and the state after it, the kind of the data that actions hand on, as values or in
exceptions, and which evaluations may be in progress where a run is cut short. Two actions *agree*
under a discipline if from every state that satisfies the invariant they do the same and keep to the
discipline. An action that agrees with itself simply keeps to the discipline, so invariants of one
run and the comparison of two runs are proved in one go.

* `Discipline.Agree.bind`: what is made of agreeing parts agrees.
* `Discipline.Agree.attempt`, `Discipline.Agree.conclude`: exceptions can be caught and raised
  again; a run that is cut short stays so.
-/

namespace CommandScript.Action

/-! ## Results -/

section

variable {σ α β : Type} {x : Action σ α} {f : α → Action σ β} {s t : σ}

theorem bind_ok {a : α} (h : x s = .ok a t) : (x >>= f) s = f a t := by
  show EStateM.bind x f s = f a t
  rw [EStateM.bind, h]

theorem bind_error {stop : Stop} (h : x s = .error stop t) : (x >>= f) s = .error stop t := by
  show EStateM.bind x f s = .error stop t
  rw [EStateM.bind, h]

/-- Coming to a boundary changes nothing, if the outcome can pass it. -/
theorem checkBoundary_eq {outcome : Outcome Value} (h : outcome.isSpent = false) :
    checkBoundary outcome s = .ok () s := by
  rw [checkBoundary, h]
  rfl

theorem checkBoundary_spent {outcome : Outcome Value} (h : outcome.isSpent = true) :
    checkBoundary outcome s = .error (.halted .spentReturn) s := by
  rw [checkBoundary, h]
  rfl

theorem checkBoundary_ok {outcome : Outcome Value} {u : Unit}
    (h : checkBoundary outcome s = .ok u t) : outcome.isSpent = false ∧ t = s := by
  unfold checkBoundary at h
  split at h
  · cases h
  · rename_i hspent
    cases h
    exact ⟨Bool.eq_false_iff.2 hspent, rfl⟩

theorem attempt_outOfDepth {active : List Activation} (h : x s = .error (.outOfDepth active) t) :
    attempt x s = .error (.outOfDepth active) t := by
  rw [attempt, h]

theorem inside_outOfDepth {active : List Activation} (evaluation : Activation)
    (h : x s = .error (.outOfDepth active) t) :
    inside evaluation x s = .error (.outOfDepth (evaluation :: active)) t := by
  rw [inside, h]
  rfl

end

/-! ## Disciplines -/

structure Discipline (σ : Type) where
  /-- Holds of every state in which an action starts or comes to an end. -/
  inv : σ → Prop
  /-- Relates the state before an action to the state after it. -/
  moves : σ → σ → Prop
  /-- The evaluations that may be in progress where a run with some room for nesting, started in a
  state, is cut short for want of room. -/
  stops : (room : Nat) → σ → List Activation → Prop
  /-- The kind of what actions hand on. -/
  values : Value.Kind
  refl : ∀ s, moves s s
  trans : ∀ {s t u}, moves s t → moves t u → moves s u
  stops_of_moves : ∀ {room s t active}, moves s t → stops room t active → stops room s active := by
    intros; trivial

namespace Discipline

section

variable {σ α β : Type} {x : Action σ α}

/-- An action that raises no exception. -/
def Calm (x : Action σ α) : Prop := ∀ s e t, x s ≠ .error (.raised e) t

theorem Calm.of_ok (h : ∀ s, ∃ a t, x s = .ok a t) : Calm x := by
  intro s e t hx
  obtain ⟨a, u, ha⟩ := h s
  rw [ha] at hx
  cases hx

theorem Calm.attempt (x : Action σ α) : Calm (Action.attempt x) := by
  intro s e t
  unfold Action.attempt
  split
  · nofun
  · nofun
  · rename_i hnot _
    intro h
    cases h
    exact hnot e rfl

theorem Calm.bind {f : α → Action σ β} (hx : Calm x) (hf : ∀ a, Calm (f a)) : Calm (x >>= f) := by
  intro s e t h
  have h : EStateM.bind x f s = .error (.raised e) t := h
  unfold EStateM.bind at h
  split at h
  · exact hf _ _ _ _ h
  · rename_i stop u hx'
    cases h
    exact hx _ _ _ hx'

end

variable {σ α β ε : Type} [Data α] [Data β] (D : Discipline σ) (room : Nat)

/-- An action may end in `t` if it starts in `s`. -/
def Allows (s t : σ) : Prop := D.inv t ∧ D.moves s t

/-- How an action may end that starts in `s`. -/
def Ends (s : σ) : EStateM.Result Stop σ α → Prop
  | .ok a t => D.Allows s t ∧ D.values.All a
  | .error (.raised e) t => D.Allows s t ∧ e.Has D.values
  | .error (.halted _) _ => True
  | .error (.outOfDepth active) _ => D.stops room s active

/-- Two actions do the same from the state `s` and keep to the discipline. -/
def AgreeFrom (s : σ) (x y : Action σ α) : Prop := x s = y s ∧ D.Ends room s (x s)

/-- Two actions do the same and keep to the discipline. -/
def Agree (x y : Action σ α) : Prop := ∀ s, D.inv s → D.AgreeFrom room s x y

variable {D room} {s t u : σ} {x y : Action σ α}

theorem Allows.refl (h : D.inv s) : D.Allows s s := ⟨h, D.refl s⟩

theorem Allows.of_moves (h : D.Allows t u) (hs : D.moves s t) : D.Allows s u :=
  ⟨h.1, D.trans hs h.2⟩

theorem Ends.of_moves (h : D.moves s t) {r : EStateM.Result Stop σ α} (hr : D.Ends room t r) :
    D.Ends room s r := by
  match r, hr with
  | .ok _ _, hr => exact ⟨hr.1.of_moves h, hr.2⟩
  | .error (.raised _) _, hr => exact ⟨hr.1.of_moves h, hr.2⟩
  | .error (.halted _) _, _ => trivial
  | .error (.outOfDepth _) _, hr => exact D.stops_of_moves h hr

theorem Ends.ok {r : EStateM.Result Stop σ α} (h : D.Ends room s r) {a : α} (hr : r = .ok a t) :
    D.Allows s t ∧ D.values.All a := by
  subst hr
  exact h

theorem Ends.outOfDepth {r : EStateM.Result Stop σ α} (h : D.Ends room s r)
    {active : List Activation} (hr : r = .error (.outOfDepth active) t) :
    D.stops room s active := by
  subst hr
  exact h

/-- What keeps to a discipline keeps to one that allows more. -/
theorem AgreeFrom.mono {D' : Discipline σ} (h : D.AgreeFrom room s x y)
    (hvalues : D.values = D'.values) (hallows : ∀ t, D.Allows s t → D'.Allows s t)
    (hstops : ∀ active, D.stops room s active → D'.stops room s active) :
    D'.AgreeFrom room s x y := by
  obtain ⟨heq, hends⟩ := h
  refine ⟨heq, ?_⟩
  generalize x s = r at hends ⊢
  cases r with
  | ok a t => exact ⟨hallows t hends.1, hvalues ▸ hends.2⟩
  | error stop t =>
    cases stop with
    | raised e => exact ⟨hallows t hends.1, hvalues ▸ hends.2⟩
    | halted => trivial
    | outOfDepth active => exact hstops active hends

/-! ## Sequences -/

theorem AgreeFrom.bind {f g : α → Action σ β} (h : D.AgreeFrom room s x y)
    (hf : ∀ a t, x s = .ok a t → D.Allows s t → D.values.All a →
      D.AgreeFrom room t (f a) (g a)) :
    D.AgreeFrom room s (x >>= f) (y >>= g) := by
  obtain ⟨heq, hends⟩ := h
  show (EStateM.bind x f s = EStateM.bind y g s) ∧ D.Ends room s (EStateM.bind x f s)
  unfold EStateM.bind
  rw [← heq]
  cases hx : x s with
  | ok a t =>
    rw [hx] at hends
    obtain ⟨hfg, hf⟩ := hf a t hx hends.1 hends.2
    exact ⟨hfg, hf.of_moves hends.1.2⟩
  | error stop t =>
    rw [hx] at hends
    refine ⟨rfl, ?_⟩
    cases stop <;> exact hends

theorem Agree.bind {f g : α → Action σ β} (h : D.Agree room x y)
    (hf : ∀ a, D.values.All a → D.Agree room (f a) (g a)) :
    D.Agree room (x >>= f) (y >>= g) :=
  fun s hs => (h s hs).bind fun a t _ ht ha => hf a ha t ht.1

theorem AgreeFrom.pure (hs : D.inv s) {a : α} (ha : D.values.All a) :
    D.AgreeFrom room s (Pure.pure a : Action σ α) (Pure.pure a) := ⟨rfl, .refl hs, ha⟩

theorem Agree.pure {a : α} (ha : D.values.All a) :
    D.Agree room (Pure.pure a : Action σ α) (Pure.pure a) := fun _ hs => .pure hs ha

/-- An action and what is made of its result at once. -/
theorem Agree.return {f : α → β} (h : D.Agree room x y)
    (hf : ∀ a, D.values.All a → D.values.All (f a)) :
    D.Agree room (do return f (← x)) (do return f (← y)) := h.bind fun a ha => .pure (hf a ha)

theorem Agree.get_bind {f g : σ → Action σ α}
    (h : ∀ s, D.inv s → D.AgreeFrom room s (f s) (g s)) :
    D.Agree room (get >>= f) (get >>= g) := fun s hs => h s hs

/-! ## Exceptions -/

theorem Agree.raise {e : Exception} (he : e.Has D.values) :
    D.Agree room (Action.raise e : Action σ α) (Action.raise e) :=
  fun _ hs => ⟨rfl, .refl hs, he⟩

theorem Agree.fail [Fault ε] (fault : ε) :
    D.Agree room (Action.fail fault : Action σ α) (Action.fail fault) :=
  Agree.raise (.ofFault fault)

/-- What follows a failure does not matter, whatever it would be given. -/
theorem Agree.fail_bind {γ : Type} [Fault ε] (fault : ε) (f g : γ → Action σ α) :
    D.Agree room (Action.fail fault >>= f) (Action.fail fault >>= g) :=
  fun _ hs => ⟨rfl, .refl hs, .ofFault fault⟩

theorem Agree.ofExcept [Fault ε] {r : Except ε α} (h : ∀ a, r = .ok a → D.values.All a) :
    D.Agree room (Action.ofExcept r : Action σ α) (Action.ofExcept r) := by
  cases r with
  | ok a => exact Agree.pure (h a rfl)
  | error fault => exact Agree.fail fault

/-- What follows a result or a failure, the result being data of any kind. -/
theorem Agree.ofExcept_bind {γ : Type} [Fault ε] {r : Except ε γ} {f g : γ → Action σ α}
    (h : ∀ a, r = .ok a → D.Agree room (f a) (g a)) :
    D.Agree room (Action.ofExcept r >>= f) (Action.ofExcept r >>= g) := by
  cases r with
  | ok a => exact fun s hs => h a rfl s hs
  | error fault => exact Agree.fail_bind fault f g

theorem Agree.halt (why : Halt) :
    D.Agree room (Action.halt why : Action σ α) (Action.halt why) := fun _ _ => ⟨rfl, trivial⟩

theorem Agree.conclude {outcome : Outcome α} (h : D.values.All outcome) :
    D.Agree room (Action.conclude outcome : Action σ α) (Action.conclude outcome) := by
  cases outcome with
  | value a => exact Agree.pure h
  | raised e => exact Agree.raise h

theorem AgreeFrom.attempt (h : D.AgreeFrom room s x y) :
    D.AgreeFrom room s (Action.attempt x) (Action.attempt y) := by
  obtain ⟨heq, hends⟩ := h
  unfold AgreeFrom Action.attempt
  rw [← heq]
  refine ⟨rfl, ?_⟩
  generalize x s = r at hends ⊢
  cases r with
  | ok a t => exact hends
  | error stop t => cases stop <;> exact hends

theorem Agree.attempt (h : D.Agree room x y) :
    D.Agree room (Action.attempt x) (Action.attempt y) := fun s hs => (h s hs).attempt

/-! ## Going elsewhere and coming back -/

theorem AgreeFrom.inside {room' : Nat} {evaluation : Activation} (h : D.AgreeFrom room s x y)
    (hstops : ∀ active, D.stops room s active → D.stops room' s (evaluation :: active)) :
    D.AgreeFrom room' s (Action.inside evaluation x) (Action.inside evaluation y) := by
  obtain ⟨heq, hends⟩ := h
  unfold AgreeFrom Action.inside
  rw [← heq]
  refine ⟨rfl, ?_⟩
  generalize x s = r at hends ⊢
  cases r with
  | ok a t => exact hends
  | error stop t =>
    cases stop with
    | raised e => exact hends
    | halted => trivial
    | outOfDepth active => exact hstops active hends

/-- How an evaluation ends whose exceptions are caught. -/
theorem AgreeFrom.attempt_inside (h : D.AgreeFrom room s x y) (evaluation : Activation) :
    Action.attempt (Action.inside evaluation x) s = Action.attempt (Action.inside evaluation y) s ∧
      (∀ outcome t, Action.attempt (Action.inside evaluation x) s = .ok outcome t →
        D.Allows s t ∧ D.values.All outcome) ∧
      ∀ active t, Action.attempt (Action.inside evaluation x) s = .error (.outOfDepth active) t →
        ∃ inner, active = evaluation :: inner ∧ D.stops room s inner := by
  obtain ⟨heq, hends⟩ := h
  unfold Action.attempt Action.inside
  rw [← heq]
  refine ⟨rfl, ?_⟩
  generalize x s = r at hends ⊢
  cases r with
  | ok a t => exact ⟨fun _ _ h => by cases h; exact hends, fun _ _ h => by cases h⟩
  | error stop t =>
    cases stop with
    | raised e => exact ⟨fun _ _ h => by cases h; exact hends, fun _ _ h => by cases h⟩
    | halted => exact ⟨(fun _ _ h => by cases h), fun _ _ h => by cases h⟩
    | outOfDepth inner =>
      exact ⟨(fun _ _ h => by cases h), fun _ _ h => by cases h; exact ⟨inner, rfl, hends⟩⟩

/-- Actions that prepare the state, do the same there, and put the state right again. -/
theorem AgreeFrom.detour (enter leave : Action σ Unit) (inner : σ) (back : σ → σ)
    {f g : α → Action σ β} (henter : enter s = .ok () inner)
    (hleave : ∀ t, leave t = .ok () (back t)) (heq : x inner = y inner) (hcalm : Calm x)
    (hback : ∀ a t, x inner = .ok a t → D.Allows s (back t) ∧ D.values.All a)
    (hstops : ∀ active t, x inner = .error (.outOfDepth active) t → D.stops room s active)
    (hf : ∀ a, D.values.All a → D.Agree room (f a) (g a)) :
    D.AgreeFrom room s (do enter; let a ← x; leave; f a) (do enter; let a ← y; leave; g a) := by
  have ok : ∀ {x : Action σ α} {f : α → Action σ β} {a t}, x inner = .ok a t →
      (do enter; let a ← x; leave; f a : Action σ β) s = f a (back t) :=
    fun h => (bind_ok henter).trans ((bind_ok h).trans (bind_ok (hleave _)))
  have error : ∀ {x : Action σ α} {f : α → Action σ β} {stop t}, x inner = .error stop t →
      (do enter; let a ← x; leave; f a : Action σ β) s = .error stop t :=
    fun h => (bind_ok henter).trans (bind_error h)
  unfold AgreeFrom
  cases hx : x inner with
  | ok a t =>
    rw [ok hx, ok (heq.symm.trans hx)]
    obtain ⟨hkept, ha⟩ := hback a t hx
    obtain ⟨hfg, hends⟩ := hf a ha (back t) hkept.1
    exact ⟨hfg, hends.of_moves hkept.2⟩
  | error stop t =>
    rw [error hx, error (heq.symm.trans hx)]
    refine ⟨rfl, ?_⟩
    cases stop with
    | raised e => exact absurd hx (hcalm _ _ _)
    | halted => trivial
    | outOfDepth active => exact hstops active t hx

/-! ## Conditions -/

theorem Agree.ite {x' y' : Action σ α} (c : Prop) [Decidable c] (h : D.Agree room x y)
    (h' : D.Agree room x' y') :
    D.Agree room (if c then x else x') (if c then y else y') := by
  split
  · exact h
  · exact h'

end Discipline

end CommandScript.Action
