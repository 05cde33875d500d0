import CommandScript.Proofs.Environment.Edit
import CommandScript.Proofs.Evaluation.Script

/-!
# Disciplines of interpreters

A discipline for interpreters allows whatever commands and evaluations do to one with data of one
kind. Its fields list that once: records that are kept, edits of the environment, children
that come and go, and the excursions from which an evaluation returns, into a frame, to another
level, into a child and into a counted evaluation. All actions that commands are made of keep to
such a discipline.

Commands only add to the scripts that are deferred in a frame. They are taken out again where the
frame goes, or where the outermost evaluation exits, and a discipline may let go of the frame's own
rules there: between these states the weaker relation `unwinds` holds.
-/

namespace CommandScript

namespace State

variable {κ : Type}

def stack (s : State κ) : Stack := s.interp.env.stack

def withEnv (s : State κ) (env : Environment κ) : State κ :=
  { s with interp := { s.interp with env } }

def withStack (s : State κ) (stack : Stack) : State κ := s.withEnv { s.interp.env with stack }

/-- The state with other scripts deferred in the top frame. -/
def withDeferred (s : State κ) (scripts : List Value) : State κ :=
  s.withStack (s.stack.modifyTop fun f => { f with deferred := scripts })

def withLevel (s : State κ) (level : Nat) : State κ :=
  { s with interp := { s.interp with level } }

/-- The state with other channels, results and counts, in another world. -/
def withRecords (s : State κ) (channels : Channels) (result : Value) (error : Option Exception)
    (count : Nat) (world : World) : State κ where
  interp := { s.interp with channels, lastResult := result, lastError := error,
                            commandCount := count }
  world := world

/-- The state with another interpreter in the place of a descendant. -/
def withChild (s : State κ) (path : ChildPath) (t : State κ) : State κ :=
  { interp := s.interp.modifyChild (fun _ => t.interp) path, world := t.world }

/-- The state after a script has run at the level `level` of the stack. -/
def fromLevel (s : State κ) (level : Nat) (command : List Value) (t : State κ) : State κ :=
  t.withStack (Stack.putBack (s.stack.above level)
    ((t.stack.upTo level).modifyTop fun f => { f with command }))

end State

/-- The evaluations in progress as the parent of an interpreter sees them. -/
def Activation.fromChild : List Activation → List Activation
  | [] => []
  | _ :: active => .inChild :: active

/-- The environment holds what it may hold, and the last result and last error are of the kind. -/
structure Interp.HoldsHere {κ : Type} (K : Value.Kind) (allowed : Nat → Prop) (i : Interp κ) :
    Prop where
  env : i.env.Holds K allowed
  lastResult : K.Has i.lastResult
  lastError : ∀ e, i.lastError = some e → e.Has K

theorem Interp.holdsHere_any {κ : Type} {allowed : Nat → Prop} (i : Interp κ) :
    i.HoldsHere .any allowed := ⟨i.env.holds_any, trivial, fun e _ => Value.Kind.all_any e⟩

/-- A discipline of interpreters. Where a run may be cut short in any way there is nothing to be
shown of the ways it is. -/
structure Discipline (κ : Type) extends Action.Discipline (State κ) where
  /-- The depths to which the variables of namespaces may link. -/
  shared : Nat → Prop
  shared_zero : shared 0
  holds : ∀ {s}, inv s → s.interp.HoldsHere values shared
  /-- Relates states between which deferred scripts of the top frame have been run. -/
  unwinds : State κ → State κ → Prop
  unwinds_of_moves : ∀ {s t}, moves s t → unwinds s t := by exact id
  unwinds_trans : ∀ {s t u}, unwinds s t → unwinds t u → unwinds s u
  stops_of_unwinds : ∀ {room s t active}, unwinds s t → stops room t active →
    stops room s active := by intros; trivial
  takeDeferred : ∀ s script rest, inv s → s.stack.top.deferred = script :: rest →
    inv (s.withDeferred rest) ∧ unwinds s (s.withDeferred rest)
  /-- Channels, results, counts and the world may change freely. -/
  record : ∀ s channels result error count world, inv s → values.Has result → values.All error →
    toDiscipline.Allows s (s.withRecords channels result error count world)
  edit : ∀ s env, inv s → s.interp.env.Edit values shared env →
    toDiscipline.Allows s (s.withEnv env)
  createChild : ∀ s path safe i, inv s → s.interp.createChild path safe = .ok i →
    toDiscipline.Allows s { s with interp := i }
  deleteChild : ∀ s path i, inv s → s.interp.deleteChild path = .ok i →
    toDiscipline.Allows s { s with interp := i }
  enterFrame : ∀ s frame, inv s → frame.Holds values (s.stack.depth + 1) →
    inv (s.withStack (s.stack.push frame))
  leaveFrame : ∀ s frame t, inv s → inv t → unwinds (s.withStack (s.stack.push frame)) t →
    toDiscipline.Allows s (t.withStack t.stack.pop)
  stopInFrame : ∀ room s frame active, inv s →
    stops room (s.withStack (s.stack.push frame)) active → stops room s active := by
    intros; trivial
  enterLevel : ∀ s level, inv s → level ≤ s.stack.depth → inv (s.withStack (s.stack.upTo level))
  leaveLevel : ∀ s level command t, inv s → level ≤ s.stack.depth → values.All command →
    toDiscipline.Allows (s.withStack (s.stack.upTo level)) t →
    toDiscipline.Allows s (s.fromLevel level command t)
  stopAtLevel : ∀ room s level active, inv s → level ≤ s.stack.depth →
    stops room (s.withStack (s.stack.upTo level)) active → stops room s active := by
    intros; trivial
  enterChild : ∀ s path child, inv s → s.interp.child? path = some child →
    inv { s with interp := child }
  leaveChild : ∀ s path child t, inv s → s.interp.child? path = some child →
    toDiscipline.Allows { s with interp := child } t → toDiscipline.Allows s (s.withChild path t)
  stopInChild : ∀ room s path child active, inv s → s.interp.child? path = some child →
    stops room { s with interp := child } active →
    stops room s (Activation.fromChild active) := by intros; trivial
  enterCounted : ∀ s, inv s → s.interp.level + 1 ≤ s.interp.recursionLimit →
    inv (s.withLevel (s.interp.level + 1))
  leaveCounted : ∀ s t, inv s → s.interp.level + 1 ≤ s.interp.recursionLimit →
    toDiscipline.Allows (s.withLevel (s.interp.level + 1)) t →
    toDiscipline.Allows s (t.withLevel (t.interp.level - 1))
  stopInCounted : ∀ room s active, inv s → s.interp.level + 1 ≤ s.interp.recursionLimit →
    stops room (s.withLevel (s.interp.level + 1)) active →
    stops (room + 1) s (.counted :: active) := by intros; trivial
  leaveExit : ∀ s t, inv s → s.interp.level = 0 → inv t → unwinds s t → moves s t := by
    exact fun _ _ _ _ _ h => h
  stopInExit : ∀ room s active, inv s → s.interp.level = 0 → stops room s active →
    stops (room + 1) s (.exiting :: active) := by intros; trivial
  stopInNested : ∀ room s active, inv s → stops room s active →
    stops (room + 1) s (.nested :: active) := by intros; trivial
  noRoom : ∀ s, inv s → stops 0 s [] := by intros; trivial

/-- An edit of the environment that is refused leaves the state as it was. -/
theorem Act.edit_eq {κ ε : Type} [Fault ε] (f : Environment κ → Except ε (Environment κ))
    (s : State κ) :
    Act.edit f s =
      match f s.interp.env with
      | .ok env => .ok () (s.withEnv env)
      | .error fault => .error (.raised (.ofFault fault)) s := by
  show (Action.ofExcept (f s.interp.env) >>= fun changed => Act.modifyEnv fun _ => changed) s = _
  cases f s.interp.env with
  | ok env => rfl
  | error fault => rfl

theorem Act.edit_ok {κ ε : Type} [Fault ε] {f : Environment κ → Except ε (Environment κ)}
    {s t : State κ} {u : Unit} (h : Act.edit f s = .ok u t) :
    ∃ env, f s.interp.env = .ok env ∧ t = s.withEnv env := by
  rw [Act.edit_eq] at h
  cases hf : f s.interp.env with
  | error fault => rw [hf] at h; cases h
  | ok env => rw [hf] at h; cases h; exact ⟨env, rfl, rfl⟩

namespace Discipline

open Action.Discipline (Agree AgreeFrom Calm)

variable {κ α ε : Type} [Data α] {D : Discipline κ} {room : Nat}

/-- What holds while deferred scripts are run. -/
def unwinding (D : Discipline κ) : Action.Discipline (State κ) where
  inv := D.inv
  moves := D.unwinds
  stops := D.stops
  values := D.values
  refl s := D.unwinds_of_moves (D.refl s)
  trans := D.unwinds_trans
  stops_of_moves := D.stops_of_unwinds

theorem agree_unwinding {x y : Act κ α} (h : D.Agree room x y) : D.unwinding.Agree room x y :=
  fun s hs => (h s hs).mono rfl (fun _ ht => ⟨ht.1, D.unwinds_of_moves ht.2⟩) fun _ hstop => hstop

/-! ## Asking -/

theorem agreeFrom_interp_bind {s : State κ} {f g : Interp κ → Act κ α}
    (h : D.AgreeFrom room s (f s.interp) (g s.interp)) :
    D.AgreeFrom room s (Act.interp >>= f) (Act.interp >>= g) := h

theorem agree_interp_bind {f g : Interp κ → Act κ α}
    (h : ∀ s, D.inv s → D.AgreeFrom room s (f s.interp) (g s.interp)) :
    D.Agree room (Act.interp >>= f) (Act.interp >>= g) := fun s hs => h s hs

theorem agreeFrom_env_bind {s : State κ} {f g : Environment κ → Act κ α}
    (h : D.AgreeFrom room s (f s.interp.env) (g s.interp.env)) :
    D.AgreeFrom room s (Act.env >>= f) (Act.env >>= g) := h

theorem agree_env_bind {f g : Environment κ → Act κ α}
    (h : ∀ s, D.inv s → D.AgreeFrom room s (f s.interp.env) (g s.interp.env)) :
    D.Agree room (Act.env >>= f) (Act.env >>= g) := fun s hs => h s hs

section

variable [Fault ε]

theorem agree_query {f : Environment κ → Except ε α}
    (h : ∀ env a, env.Holds D.values D.shared → f env = .ok a → D.values.All a) :
    D.Agree room (Act.query f) (Act.query f) :=
  agree_env_bind fun s hs => Agree.ofExcept (fun a ha => h _ a (D.holds hs).env ha) s hs

theorem agree_readVariable (name : String) :
    D.Agree room (Act.readVariable name : Act κ Value) (Act.readVariable name) :=
  agree_query fun _ _ henv => henv.has_read

/-! ## Changing -/

/-- A change of the state that the discipline allows wherever it is made. -/
theorem agree_modify {f : State κ → State κ} (h : ∀ s, D.inv s → D.Allows s (f s)) :
    D.Agree room (modify f : Act κ PUnit) (modify f) := fun s hs => ⟨rfl, h s hs, trivial⟩

theorem agree_modifyEnv {f : Environment κ → Environment κ}
    (h : ∀ env : Environment κ, env.Holds D.values D.shared →
      env.Edit D.values D.shared (f env)) :
    D.Agree room (Act.modifyEnv f) (Act.modifyEnv f) :=
  agree_modify fun s hs => D.edit s _ hs (h _ (D.holds hs).env)

theorem agreeFrom_edit {f : Environment κ → Except ε (Environment κ)} {s : State κ} (hs : D.inv s)
    (h : ∀ env, f s.interp.env = .ok env → s.interp.env.Edit D.values D.shared env) :
    D.AgreeFrom room s (Act.edit f) (Act.edit f) := by
  refine ⟨rfl, ?_⟩
  rw [Act.edit_eq]
  cases hf : f s.interp.env with
  | error fault => exact ⟨.refl hs, .ofFault fault⟩
  | ok env => exact ⟨D.edit s env hs (h env hf), trivial⟩

theorem agree_edit {f : Environment κ → Except ε (Environment κ)}
    (h : ∀ env env', env.Holds D.values D.shared → f env = .ok env' →
      env.Edit D.values D.shared env') : D.Agree room (Act.edit f) (Act.edit f) :=
  fun _ hs => agreeFrom_edit hs fun env hf => h _ env (D.holds hs).env hf

theorem agree_editAll {f : Environment κ → Except ε α × Environment κ}
    (h : ∀ env : Environment κ, env.Holds D.values D.shared →
      env.Edit D.values D.shared (f env).2)
    (hresult : ∀ env a, (f env).1 = .ok a → D.values.All a) :
    D.Agree room (Act.editAll f) (Act.editAll f) := by
  intro s hs
  have hedit : D.Allows s (s.withEnv (f s.interp.env).2) := D.edit s _ hs (h _ (D.holds hs).env)
  have hthen : D.Agree room _ _ := Agree.ofExcept (hresult s.interp.env)
  obtain ⟨heq, hends⟩ := hthen (s.withEnv (f s.interp.env).2) hedit.1
  exact ⟨heq, hends.of_moves hedit.2⟩

theorem agree_setVariable (name : String) {v : Value} (hv : D.values.Has v) :
    D.Agree room (Act.setVariable name v : Act κ Unit) (Act.setVariable name v) :=
  agree_edit fun _ _ henv => .set henv hv

/-- What a declaration in a procedure makes is a link to the depth of the procedure's frame. -/
theorem agree_declareVariable (name : String) {v : Option Value} (hv : D.values.All v) :
    D.Agree room (Act.declareVariable name v : Act κ Unit) (Act.declareVariable name v) := by
  unfold Act.declareVariable
  refine agree_env_bind fun s hs => ?_
  split
  rename_i qualifiers tail _
  -- What follows the link is the same as what is done without one.
  have hthen : ∀ (qualified : String) (after : Act κ Unit), D.Agree room after after →
      let declare : Act κ Unit :=
        if s.interp.env.stack.top.isOwn then
          Act.edit (·.link s.interp.env.depth qualified tail) >>= fun _ => after
        else after
      D.AgreeFrom room s declare declare := by
    intro qualified after hafter
    dsimp only
    split
    · rename_i hown
      refine AgreeFrom.bind (agreeFrom_edit hs fun _ hf => .link (.inl hown) hf) ?_
      exact fun _ t _ ht _ => hafter t ht.1
    · exact hafter s hs
  -- The namespace is known, or looked up, which may fail.
  have hhome : ∀ (home : Except Environment.NoNamespace NamespaceId)
      (declare : NamespaceId → Act κ Unit),
      (∀ id, D.AgreeFrom room s (declare id) (declare id)) →
      D.AgreeFrom room s (Action.ofExcept home >>= declare) (Action.ofExcept home >>= declare) := by
    intro home declare hdeclare
    cases home with
    | error fault => exact Agree.fail_bind fault _ _ s hs
    | ok id => exact hdeclare id
  dsimp only
  cases v with
  | none =>
    split
    · exact hthen _ _ (Agree.pure trivial)
    · exact hthen _ _ (Agree.pure trivial)
    · exact hhome _ _ fun _ => hthen _ _ (Agree.pure trivial)
  | some v =>
    split
    · exact hthen _ _ (agree_setVariable _ (hv v rfl))
    · exact hthen _ _ (agree_setVariable _ (hv v rfl))
    · exact hhome _ _ fun _ => hthen _ _ (agree_setVariable _ (hv v rfl))

end

theorem agree_defer (script : Value) :
    D.Agree room (Act.defer script : Act κ Unit) (Act.defer script) :=
  agree_modify fun s hs => D.edit s _ hs (.defer s.interp.env script)

/-- Channels, counts and the world change, and the last result and error stay. -/
theorem allows_keep {s : State κ} (hs : D.inv s) (channels : Channels) (count : Nat)
    (world : World) :
    D.Allows s (s.withRecords channels s.interp.lastResult s.interp.lastError count world) :=
  D.record s _ _ _ _ _ hs (D.holds hs).lastResult (D.holds hs).lastError

theorem agree_setLastResult {v : Value} (hv : D.values.Has v) :
    D.Agree room (Act.modifyInterp fun i => { i with lastResult := v } : Act κ Unit)
      (Act.modifyInterp fun i => { i with lastResult := v }) :=
  agree_modify fun s hs => D.record s _ v _ _ _ hs hv (D.holds hs).lastError

theorem agree_modifyWorld (f : World → World) :
    D.Agree room (modify fun s => { s with world := f s.world } : Act κ PUnit)
      (modify fun s => { s with world := f s.world }) :=
  agree_modify fun ⟨⟨_, _, _, _, _, _, _, _, _, _⟩, _⟩ hs => allows_keep hs _ _ _

theorem agree_recordError {e : Exception} (he : e.Has D.values) :
    D.Agree room (Act.recordError e : Act κ Unit) (Act.recordError e) := by
  have hlast : D.Agree room (Act.modifyInterp fun i => { i with lastError := some e } : Act κ Unit)
      (Act.modifyInterp fun i => { i with lastError := some e }) :=
    agree_modify fun s hs => D.record s _ _ (some e) _ _ hs (D.holds hs).lastResult
      fun _ h => by cases h; exact he
  unfold Act.recordError
  split
  · rename_i data hdata
    refine (agree_modifyEnv fun env _ => ?_).bind fun _ _ => hlast
    exact (Environment.Edit.assign _ _ _ (.string _)).trans
      (Environment.Edit.assign _ _ _ (he.code data hdata))
  · exact hlast

/-! ## Channels -/

/-- The discipline of actions that are never cut short for want of room. -/
def roomless (K : Value.Kind) (σ : Type) : Action.Discipline σ where
  inv _ := True
  moves _ _ := True
  stops _ _ _ := False
  values := K
  refl _ := trivial
  trans _ _ := trivial
  stops_of_moves _ h := h

theorem agree_channels {act : Action Channels.View α} (h : (roomless D.values _).Agree 0 act act) :
    D.Agree room (Act.channels act : Act κ α) (Act.channels act) := by
  intro s hs
  refine ⟨rfl, ?_⟩
  have hact := (h { channels := s.interp.channels, world := s.world } trivial).2
  unfold Act.channels
  generalize act { channels := s.interp.channels, world := s.world } = r at hact ⊢
  cases r with
  | ok a v => exact ⟨allows_keep hs v.channels _ v.world, hact.2⟩
  | error stop v =>
    cases stop with
    | raised e => exact ⟨allows_keep hs v.channels _ v.world, hact.2⟩
    | halted => trivial
    | outOfDepth active => exact hact.elim

/-! ## Children -/

theorem agree_inChild (path : ChildPath) {x y : Act κ α} (h : D.Agree room x y) :
    D.Agree room (Act.inChild path x) (Act.inChild path y) := by
  intro s hs
  unfold AgreeFrom Act.inChild
  cases hchild : s.interp.child? path with
  | none => exact ⟨rfl, .refl hs, .ofFault _⟩
  | some child =>
    obtain ⟨heq, hends⟩ := h { s with interp := child } (D.enterChild s path child hs hchild)
    simp only [← heq, true_and]
    generalize x { s with interp := child } = r at hends ⊢
    cases r with
    | ok a t => exact ⟨D.leaveChild s path child t hs hchild hends.1, hends.2⟩
    | error stop t =>
      cases stop with
      | raised e => exact ⟨D.leaveChild s path child t hs hchild hends.1, hends.2⟩
      | halted => trivial
      | outOfDepth active =>
        have hstop := D.stopInChild room s path child active hs hchild hends
        cases active with
        | nil => exact hstop
        | cons a rest => exact hstop

end Discipline

end CommandScript
