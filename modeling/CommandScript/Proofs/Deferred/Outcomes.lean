import CommandScript.Proofs.Deferred.Unwinding

/-!
# What deferred scripts do to an outcome

The call of a procedure, or an evaluation in a namespace, has an outcome of its own: that of the
body, with nothing deferred (`FrameCall.runAlone`). Deferred scripts that complete normally leave it
as it is, error, exit or value. A `return` in a deferred script does not: inside another evaluation
it counts as an exception of the script, and takes the place of whatever was pending.

* `FrameEntry.eval_ends`: the body of a frame and the scripts it leaves waiting, as one log.
* `outcome_after_deferred`: the outcome when the deferred scripts complete normally or by `return`.
-/

namespace CommandScript

open CommandScript.Action (Outcome bind_ok bind_error)

/-! ## Evaluations in a frame of their own -/

/-- Evaluates a script in a new frame, and drops what it has deferred there. -/
def evalInFrameAlone {κ : Type} (ops : κ → Native κ) (engine : Engine κ) (frame : Frame)
    (script : Value) : Act κ (Outcome Value) := do
  Act.modifyStack (·.push frame)
  let outcome ← evalAlone ops engine script
  Act.modifyStack Stack.pop
  return outcome

/-- A script that is to be evaluated in a new frame. -/
structure FrameEntry (κ : Type) where
  frame : Frame
  body : Value
  before : State κ

namespace FrameEntry

variable {κ : Type} (entry : FrameEntry κ) (ops : κ → Native κ) (fuel room : Nat)

/-- The state in which the body starts. -/
def entered : State κ := entry.before.withStack (entry.before.stack.push entry.frame)

def eval (engine : Engine κ) : EStateM.Result Stop (State κ) (Outcome Value) :=
  engine.evalInFrame entry.frame entry.body entry.before

/-- The body has been executed, and after it the scripts of a log. -/
structure Executes (x : Execution κ) (log : List (Execution κ)) (room' : Nat) (t : State κ) :
    Prop where
  script : x.script = entry.body
  start : x.start = entry.entered
  made : x.Made ops fuel room
  log : ∃ next, x.GoesOn room next ∧ CommandScript.Executes ops fuel next x.finish log room' t

/-- How the evaluation ends: with nothing left to run, or at a script that is cut short, or after
too many. -/
inductive Ends : EStateM.Result Stop (State κ) (Outcome Value) → Prop
  | done {x : Execution κ} {log : List (Execution κ)} {room' : Nat} {t u : State κ} :
      entry.Executes ops fuel room x log room' t → t.waiting = [] → u.stack = t.stack.pop →
      Ends (.ok (settled log x.outcome) u)
  | bodyCut {r : EStateM.Result Stop (State κ) (Outcome Value)} : Action.ended? r = none →
      Action.ended? (evalAlone ops (.within ops fuel room) entry.body
        entry.entered) = none → Ends r
  | cut {x : Execution κ} {log : List (Execution κ)} {room' : Nat} {t : State κ} {script : Value}
      {rest : List Value} {r : EStateM.Result Stop (State κ) (Outcome Value)} :
      Action.ended? r = none → entry.Executes ops fuel room x log room' t →
      t.waiting = script :: rest →
      (fuel ≤ log.length ∨ Action.ended?
        ((Engine.within ops fuel room').eval script (t.withDeferred rest)) = none) →
      Ends r

end FrameEntry

section

variable {κ : Type} {ops : κ → Native κ} {entry : FrameEntry κ} {engine : Engine κ}
  {fuel room : Nat} {outcome : Outcome Value} {t : State κ}

theorem FrameEntry.eval_of_eval (h : engine.eval entry.body entry.entered =
    Action.conclude outcome t) : entry.eval engine = engine.popFrame outcome t :=
  evalInFrame_of_eval h

theorem FrameEntry.eval_cut (h : Action.ended? (engine.eval entry.body entry.entered) = none) :
    Action.ended? (entry.eval engine) = none := by
  obtain ⟨stop, u, hcut, hstop⟩ := Action.cut_of_ended? h
  have hrun : entry.eval engine = .error stop u :=
    (bind_ok rfl).trans (bind_error (Action.attempt_cut hcut hstop))
  rw [hrun, Action.ended?_cut hstop]

/-- The evaluation of a script in a frame of its own is the execution of its body, and then of the
scripts that wait. -/
theorem FrameEntry.eval_ends (hops : Discipline.awaiting.Permits ops ops) (entry : FrameEntry κ)
    (fuel room : Nat) :
    entry.Ends ops fuel room (entry.eval (.within ops fuel (room + 1))) := by
  cases halone : evalAlone ops (.within ops fuel room) entry.body
      entry.entered with
  | error stop t =>
    have hstop : ∀ e, stop ≠ .raised e := by
      rintro e rfl
      exact calm_evalAlone _ _ _ _ _ _ halone
    have hcut : Action.ended? (evalAlone ops (.within ops fuel room) entry.body
        entry.entered) = none := halone ▸ Action.ended?_cut hstop
    exact .bodyCut (eval_cut (CommandScript.eval_cut hcut)) hcut
  | ok outcome t =>
    let x : Execution κ := ⟨entry.body, entry.entered, outcome, t⟩
    have hmade : x.Made ops fuel room := halone
    by_cases hexit : x.Exits
    · have hlevel : t.interp.level = 0 := (hmade.kept hops).level.trans hexit.2
      obtain ⟨log, room', u, hlog, hends⟩ := drain_ends hops fuel room (Nat.le_refl fuel) outcome t
      have hexecutes : entry.Executes ops fuel room x log room' u :=
        ⟨rfl, rfl, hmade, room, .inr ⟨hexit, rfl⟩, hlog⟩
      generalize hdrain : (Engine.within ops fuel room).drain fuel outcome t = r at hends
      cases hends with
      | cut hnext hwhy hcut =>
        have hbody := eval_cut_of_exit halone hexit.1 hlevel (hdrain ▸ hcut)
        exact .cut (eval_cut hbody) hexecutes hnext hwhy
      | @done w hdone hstack hworld =>
        obtain ⟨v, heval, hstack', _⟩ := eval_of_exit halone hexit.1 hlevel hdrain
        have hnone : v.waiting = [] := by
          rw [State.waiting, hstack', hstack]
          exact hdone
        rw [eval_of_eval heval, popFrame_done (Engine.drain_of_none hnone _ _)]
        exact .done hexecutes hdone (congrArg Stack.pop (hstack'.trans hstack))
    · have hstay : ¬ (outcome.IsExit ∧ t.interp.level = 0) :=
        fun h => hexit ⟨h.1, (hmade.kept hops).level.symm.trans h.2⟩
      rw [eval_of_eval (eval_of_evalAlone halone hstay)]
      obtain ⟨log, room', u, hlog, hends⟩ :=
        drain_ends hops fuel (room + 1) (Nat.le_refl fuel) outcome t
      have hexecutes : entry.Executes ops fuel room x log room' u :=
        ⟨rfl, rfl, hmade, room + 1, .inl ⟨hexit, rfl⟩, hlog⟩
      generalize hdrain : (Engine.within ops fuel (room + 1)).drain fuel outcome t = r
        at hends
      cases hends with
      | cut hnext hwhy hcut => exact .cut (popFrame_cut (hdrain ▸ hcut)) hexecutes hnext hwhy
      | done hdone hstack hworld =>
        rw [popFrame_done hdrain]
        exact .done hexecutes hdone (congrArg Stack.pop hstack)

end

/-! ## Calls -/

/-- What gets a frame of its own: the call of a procedure, or an evaluation in a namespace. -/
inductive FrameCall where
  | call (p : Procedure) (words : List Value)
  | namespaceEval (path : String) (script : Value)

namespace FrameCall

variable {κ : Type} (ops : κ → Native κ)

def run (engine : Engine κ) : FrameCall → Act κ Value
  | call p words => engine.call p words
  | namespaceEval path script => engine.evalInNamespace path script

/-- What the call makes of the outcome of its frame. At the boundary of a procedure a run breaks
down on a `return` that has none left to pass. -/
def finish : FrameCall → Outcome Value → Act κ Value
  | call _ _, outcome => do
    Action.checkBoundary outcome
    Action.conclude outcome.leave
  | namespaceEval _ _, outcome => Action.conclude outcome

/-- The same with another way to evaluate a script in a frame. -/
def runWith (evalInFrame : Frame → Value → Act κ (Outcome Value)) (c : FrameCall) : Act κ Value :=
  match c with
  | call p words => do
    let locals ← Action.ofExcept (p.bind (words.headD {}).text words.tail)
    c.finish (← evalInFrame
      { storage := .own locals, namespaceId := p.namespaceId, invocation := words } p.body)
  | namespaceEval path script => do
    let env ← Act.env
    let (id, namespaces) := env.namespaces.ensure env.current path
    Act.modifyEnv fun env => { env with namespaces }
    c.finish (← evalInFrame
      { storage := .shared id, namespaceId := id, invocation := env.stack.top.command } script)

theorem run_eq (engine : Engine κ) (c : FrameCall) :
    c.run engine = c.runWith engine.evalInFrame := by
  cases c <;> rfl

/-- The call as it would be if nothing were deferred. -/
def runAlone (engine : Engine κ) (c : FrameCall) : Act κ Value :=
  c.runWith (evalInFrameAlone ops engine)

/-- What is evaluated, if the call is not refused for its arguments. -/
def entry? (c : FrameCall) (s : State κ) : Except WrongCall (FrameEntry κ) :=
  match c with
  | call p words =>
    match p.bind (words.headD {}).text words.tail with
    | .ok locals =>
      .ok ⟨{ storage := .own locals, namespaceId := p.namespaceId, invocation := words }, p.body, s⟩
    | .error fault => .error fault
  | namespaceEval path script =>
    let ensured := s.interp.env.namespaces.ensure s.interp.env.current path
    .ok ⟨{ storage := .shared ensured.1, namespaceId := ensured.1,
           invocation := s.stack.top.command }, script,
      s.withEnv { s.interp.env with namespaces := ensured.2 }⟩

variable {ops} {c : FrameCall} {s : State κ} {entry : FrameEntry κ}
  {evalInFrame : Frame → Value → Act κ (Outcome Value)}

theorem runWith_of_entry (h : c.entry? s = .ok entry) :
    c.runWith evalInFrame s =
      (evalInFrame entry.frame entry.body >>= c.finish) entry.before := by
  cases c with
  | call p words =>
    unfold entry? at h
    dsimp only at h
    split at h
    · rename_i locals hbind
      cases h
      exact bind_ok (congrFun (congrArg Action.ofExcept hbind) s)
    · cases h
  | namespaceEval path script =>
    cases h
    exact (bind_ok rfl).trans (bind_ok rfl)

theorem runAlone_of_entry {fuel room room' : Nat} {x : Execution κ} {log : List (Execution κ)}
    {t : State κ} (h : c.entry? s = .ok entry)
    (hexecutes : entry.Executes ops fuel room x log room' t) :
    c.runAlone ops (.within ops fuel room) s =
      c.finish x.outcome (x.finish.withStack x.finish.stack.pop) := by
  have hmade : evalAlone ops (.within ops fuel room) entry.body entry.entered =
      .ok x.outcome x.finish := hexecutes.script ▸ hexecutes.start ▸ hexecutes.made
  have hframe : evalInFrameAlone ops (.within ops fuel room) entry.frame entry.body
      entry.before = .ok x.outcome (x.finish.withStack x.finish.stack.pop) :=
    (bind_ok rfl).trans ((bind_ok hmade).trans rfl)
  exact (runWith_of_entry h).trans (bind_ok hframe)

theorem runAlone_cut {engine : Engine κ} (h : c.entry? s = .ok entry)
    (hbody : Action.ended? (evalAlone ops engine entry.body entry.entered) = none) :
    Action.ended? (c.runAlone ops engine s) = none := by
  obtain ⟨stop, u, hcut, hstop⟩ := Action.cut_of_ended? hbody
  have hframe : evalInFrameAlone ops engine entry.frame entry.body entry.before = .error stop u :=
    (bind_ok rfl).trans (bind_error hcut)
  rw [runAlone, runWith_of_entry h, bind_error hframe, Action.ended?_cut hstop]

theorem level_of_entry (h : c.entry? s = .ok entry) :
    entry.before.interp.level = s.interp.level := by
  cases c with
  | call p words =>
    unfold entry? at h
    dsimp only at h
    split at h <;> cases h
    rfl
  | namespaceEval path script => cases h; rfl

end FrameCall

/-! ## Outcomes -/

section

variable {κ : Type} {ops : κ → Native κ} {fuel room room' : Nat} {x y : Execution κ}
  {log before after : List (Execution κ)} {e : Exception} {o pending : Outcome Value}
  {entry : FrameEntry κ} {s t : State κ}

theorem Execution.Ran.outcome_eq (h : x.Ran ops fuel o) :
    x.outcome = o.atLevel x.start.interp.level := by
  obtain ⟨_, _, _, houtcome, _⟩ := h
  exact houtcome

theorem Execution.Ran.value {v : Value} (h : x.Ran ops fuel (.value v)) : x.exception? = none := by
  have houtcome : x.outcome = .value v := by
    rw [h.outcome_eq, Action.Outcome.atLevel]
    split <;> rfl
  rw [Execution.exception?, houtcome]

/-- Scripts that raise no exception leave the outcome as it is. -/
theorem settled_of_forall (h : ∀ y ∈ log, y.exception? = none) : settled log pending = pending := by
  have hnone : log.filterMap Execution.exception? = [] := List.filterMap_eq_nil_iff.2 h
  rw [settled, hnone]
  rfl

/-- The last script that raises an exception decides. -/
theorem settled_of_last (hy : y.outcome = .raised e) (hafter : ∀ z ∈ after, z.exception? = none) :
    settled (before ++ y :: after) pending = .raised e := by
  have hexception : y.exception? = some e := by rw [Execution.exception?, hy]
  have hnone : after.filterMap Execution.exception? = [] := List.filterMap_eq_nil_iff.2 hafter
  rw [settled, List.filterMap_append, List.filterMap_cons_some hexception, hnone,
    List.getLast?_concat]

/-- All scripts are run at the level of the call. -/
theorem FrameEntry.Executes.level (hops : Discipline.awaiting.Permits ops ops)
    (h : entry.Executes ops fuel room x log room' t) (hy : y ∈ log) :
    y.start.interp.level = entry.before.interp.level := by
  obtain ⟨_, hstart, hmade, _, _, hlog⟩ := h
  rw [(hlog.kept hops y hy).level, (hmade.kept hops).level, hstart]
  rfl

end

/-- **The outcome of a call and the scripts deferred in it.** The functions of commands may be any
that keep to the frames and let waiting scripts wait, as the standard ones do. Take the call of a
procedure or an evaluation in a namespace, and the log of the scripts that are run when its body has
come to an outcome. The outcome of the call is that of the body, as it would be with nothing
deferred,

* if all deferred scripts complete normally;
* outside any evaluation, also if some of them complete by a plain `return`.

Inside another evaluation the last script that does not complete normally decides, and that is so
for a `return` too: whatever was pending, an error or an exit, is lost, and the call ends as if its
body had ended with that `return`.

If the call is cut short, so is its body, or else a deferred script is, or they go on without
end. -/
theorem outcome_after_deferred {κ : Type} {ops : κ → Native κ}
    (hops : Discipline.awaiting.Permits ops ops) (c : FrameCall) (fuel room : Nat) (s : State κ)
    {entry : FrameEntry κ} (hentry : c.entry? s = .ok entry) :
    let call := c.run (.within ops fuel (room + 1)) s
    let alone := c.runAlone ops (.within ops fuel room) s
    (∃ x log room' t u w, entry.Executes ops fuel room x log room' t ∧ t.waiting = [] ∧
      call = c.finish (settled log x.outcome) u ∧ alone = c.finish x.outcome w ∧
      ((∀ y ∈ log, ∃ v, y.Ran ops fuel (.value v)) → settled log x.outcome = x.outcome) ∧
      (s.interp.level = 0 →
        (∀ y ∈ log, ∃ v, y.Ran ops fuel (.value v) ∨ y.Ran ops fuel (.raised (.returnValue v))) →
        settled log x.outcome = x.outcome) ∧
      (1 ≤ s.interp.level → ∀ before y after e, log = before ++ y :: after →
        y.Ran ops fuel (.raised e) → (∀ z ∈ after, ∃ v, z.Ran ops fuel (.value v)) →
        settled log x.outcome = .raised e)) ∨
    (Action.ended? call = none ∧
      (Action.ended? alone = none ∨
        ∃ x log room' t script rest, entry.Executes ops fuel room x log room' t ∧
          t.waiting = script :: rest ∧
          (fuel ≤ log.length ∨
            Action.ended? ((Engine.within ops fuel room').eval script
              (t.withDeferred rest)) = none))) := by
  intro call alone
  have hends := entry.eval_ends hops fuel room
  generalize heval : entry.eval (.within ops fuel (room + 1)) = r at hends
  have hcall : call = (Engine.evalInFrame (.within ops fuel (room + 1)) entry.frame
      entry.body >>= c.finish) entry.before :=
    (congrFun (c.run_eq _) s).trans (FrameCall.runWith_of_entry hentry)
  have hcut : Action.ended? r = none → Action.ended? call = none := by
    intro hr
    obtain ⟨stop, u, rfl, hstop⟩ := Action.cut_of_ended? hr
    rw [hcall, bind_error heval, Action.ended?_cut hstop]
  cases hends with
  | @done x log room' t u hexecutes hdone hstack =>
    have hlevel : ∀ y ∈ log, y.start.interp.level = s.interp.level := fun y hy =>
      (hexecutes.level hops hy).trans (FrameCall.level_of_entry hentry)
    refine .inl ⟨x, log, room', t, u, _, hexecutes, hdone, hcall.trans (bind_ok heval),
      FrameCall.runAlone_of_entry hentry hexecutes, fun h => settled_of_forall fun y hy => ?_,
      fun hzero h => settled_of_forall fun y hy => ?_, ?_⟩
    · obtain ⟨v, hran⟩ := h y hy
      exact hran.value
    · obtain ⟨v, hran | hran⟩ := h y hy
      · exact hran.value
      · have houtcome := hran.outcome_eq
        rw [hlevel y hy, hzero] at houtcome
        rw [Execution.exception?, houtcome]
        rfl
    · rintro hinside before y after e rfl hran hafter
      have houtcome := hran.outcome_eq
      rw [hlevel y (by simp), Action.Outcome.atLevel, if_neg (by omega)] at houtcome
      refine settled_of_last houtcome fun z hz => ?_
      obtain ⟨v, hz⟩ := hafter z hz
      exact hz.value
  | bodyCut hr hbody => exact .inr ⟨hcut hr, .inl (FrameCall.runAlone_cut hentry hbody)⟩
  | cut hr hexecutes hnext hwhy =>
    exact .inr ⟨hcut hr, .inr ⟨_, _, _, _, _, _, hexecutes, hnext, hwhy⟩⟩

/-! ## A `return` that hides an error -/

/-- The code with which a run ends. -/
def Action.code? {σ α : Type} : EStateM.Result Stop σ α → Option Completion
  | .ok _ _ => some .okay
  | .error (.raised e) _ => some e.code
  | .error _ _ => none

theorem Action.code?_conclude {σ α : Type} (outcome : Outcome α) (s t : σ) :
    code? (conclude outcome s) = code? (conclude outcome t) := by
  cases outcome <;> rfl

/-- How a call ends depends on the outcome of its frame only. -/
theorem FrameCall.code?_finish {κ : Type} (c : FrameCall) (outcome : Outcome Value)
    (s t : State κ) : Action.code? (c.finish outcome s) = Action.code? (c.finish outcome t) := by
  cases c with
  | namespaceEval path script => exact Action.code?_conclude outcome s t
  | call p words =>
    cases hspent : outcome.isSpent with
    | true =>
      have hfinish : ∀ s : State κ, (call p words).finish outcome s =
          .error (.halted .spentReturn) s := fun _ => bind_error (Action.checkBoundary_spent hspent)
      rw [hfinish, hfinish]
      rfl
    | false =>
      have hfinish : ∀ s : State κ, (call p words).finish outcome s =
          Action.conclude outcome.leave s := fun _ => bind_ok (Action.checkBoundary_eq hspent)
      rw [hfinish, hfinish]
      exact Action.code?_conclude outcome.leave s t

/-- The call of a procedure that fails and has deferred a `return`. -/
def failingCall : FrameCall :=
  .call { parameters := [], body := .string "defer return; error boom", namespaceId := 0 }
    [.string "p"]

theorem code_failingCall :
    Action.code? (failingCall.run (.within Builtin.run 1 1) .evaluating) = some .okay ∧
      Action.code? (failingCall.runAlone Builtin.run (.within Builtin.run 1 0) .evaluating) =
        some .error := by
  decide +kernel

theorem outcome_after_deferred_return :
    ∃ entry, failingCall.entry? .evaluating = .ok entry ∧
      ∃ x log room' t, entry.Executes Builtin.run 1 0 x log room' t ∧ t.waiting = [] ∧
        settled log x.outcome ≠ x.outcome := by
  refine ⟨_, rfl, ?_⟩
  obtain ⟨hcall, halone⟩ := code_failingCall
  rcases outcome_after_deferred Discipline.awaiting_standard failingCall 1 0 .evaluating rfl with
    h | ⟨hcut, -⟩
  · obtain ⟨x, log, room', t, u, w, hexecutes, hdone, hrun, hrunAlone, -⟩ := h
    refine ⟨x, log, room', t, hexecutes, hdone, fun heq => ?_⟩
    rw [hrun, heq, failingCall.code?_finish _ u w, ← hrunAlone, halone] at hcall
    cases hcall
  · obtain ⟨stop, u, hstop, hraised⟩ := Action.cut_of_ended? hcut
    rw [hstop] at hcall
    cases stop with
    | raised e => exact absurd rfl (hraised e)
    | halted why => cases hcall
    | outOfDepth active => cases hcall

/-- The deferred script completes by `return`, and yet the error of the body is lost. -/
theorem deferred_return_hides_error :
    Action.code? ((Engine.within Builtin.run 1 1).eval (.string "return") .evaluating) =
        some .returned ∧
      Action.code? (failingCall.run (.within Builtin.run 1 1) .evaluating) ≠
        Action.code? (failingCall.runAlone Builtin.run (.within Builtin.run 1 0) .evaluating) := by
  obtain ⟨hcall, halone⟩ := code_failingCall
  rw [hcall, halone]
  decide +kernel

end CommandScript
