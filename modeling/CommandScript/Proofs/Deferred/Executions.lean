import CommandScript.Proofs.Deferred.Waiting
import CommandScript.Proofs.Procedures.Calls

/-!
# Evaluations and the scripts they leave waiting

A counted evaluation first comes to an outcome, by running the commands of its script, and then it
ends. Ending is more than handing the outcome on in one case only: the outermost evaluation, if it
exits, runs the deferred scripts of the frame it is in. `evalAlone` is the first part and
`endEvaluation` the second, so that each script can be looked at by itself.

* `runCounted_eq`: a counted evaluation is the one after the other.
* `Execution`: a script that was evaluated. `Execution.Made.kept` and `Execution.Made.waiting` say
  what it leaves, `Execution.Made.ran` that only the limit keeps it from being run.
-/

namespace CommandScript

open CommandScript.Action (Outcome bind_ok bind_error)

/-! ## Outcomes -/

namespace Action.Outcome

/-- The outcome of an evaluation with so many around it. -/
def atLevel (outcome : Outcome Value) (level : Nat) : Outcome Value :=
  if level = 0 then outcome.leave else outcome

def IsExit : Outcome Value → Prop
  | .raised (.plain (.exited _) _) => True
  | _ => False

end Action.Outcome

theorem Action.eq_conclude_of_attempt {σ α : Type} {act : Action σ α} {evaluation : Activation}
    {outcome : Outcome α} {s t : σ} (h : attempt (inside evaluation act) s = .ok outcome t) :
    act s = conclude outcome t := by
  unfold attempt inside at h
  cases hact : act s with
  | ok a u => simp only [hact] at h; cases h; rfl
  | error stop u =>
    simp only [hact] at h
    cases stop with
    | raised e => cases h; rfl
    | halted why => cases h
    | outOfDepth active => cases h

section Cut

variable {σ α β : Type} {act : Action σ α} {r : EStateM.Result Stop σ α} {stop : Stop} {s t : σ}

/-- A run that is cut short stops, but not with an exception. -/
theorem Action.cut_of_ended? (h : ended? r = none) :
    ∃ stop t, r = .error stop t ∧ ∀ e, stop ≠ .raised e := by
  match r, h with
  | .error (.halted why) t, _ => exact ⟨_, t, rfl, fun e h => by cases h⟩
  | .error (.outOfDepth active) t, _ => exact ⟨_, t, rfl, fun e h => by cases h⟩

theorem Action.ended?_cut (h : ∀ e, stop ≠ .raised e) :
    ended? (.error stop t : EStateM.Result Stop σ β) = none := by
  cases stop with
  | raised e => exact absurd rfl (h e)
  | halted why => rfl
  | outOfDepth active => rfl

theorem Action.attempt_cut (hact : act s = .error stop t) (h : ∀ e, stop ≠ .raised e) :
    attempt act s = .error stop t := by
  rw [attempt, hact]
  cases stop with
  | raised e => exact absurd rfl (h e)
  | halted why => rfl
  | outOfDepth active => rfl

end Cut

namespace State

variable {κ : Type} (s : State κ) (outcome : Outcome Value)

/-- Saving an error changes neither the frames nor the level. -/
theorem kept_noting : s.interp.Kept (s.noting outcome).interp ∧
    (s.noting outcome).stack = s.stack ∧ (s.noting outcome).world = s.world := by
  cases outcome with
  | value v => exact ⟨.refl _, rfl, rfl⟩
  | raised e => cases e <;> exact ⟨⟨rfl, rfl, rfl, rfl, rfl⟩, rfl, rfl⟩

theorem noting_of_isExit {outcome : Outcome Value} (h : outcome.IsExit) :
    s.noting outcome = s := by
  match outcome, h with
  | .raised (.plain (.exited status) v), _ => rfl

end State

/-! ## The two parts of an evaluation -/

section

variable {κ : Type} (ops : κ → Native κ) (engine : Engine κ)

/-- Takes an outcome out of an evaluation. The outermost one is a boundary. -/
def leaveLevel (outcome : Outcome Value) : Act κ (Outcome Value) := do
  if (← Act.interp).level = 0 then
    Action.checkBoundary outcome
    return outcome.leave
  else return outcome

/-- A counted evaluation, apart from the deferred scripts that it runs if it is the outermost one
and exits. -/
def evalAlone (script : Value) : Act κ (Outcome Value) := do
  let i ← Act.interp
  if i.level + 1 > i.recursionLimit then return .raised (.ofFault EvalFault.tooDeep)
  Act.modifyInterp fun i => { i with level := i.level + 1 }
  let outcome ← Action.attempt (Action.inside .counted (runNested ops engine script.text))
  Act.modifyInterp fun i => { i with level := i.level - 1 }
  let outcome ← leaveLevel outcome
  modify fun s => s.noting outcome
  return outcome

/-- Ends an evaluation. The outermost one, if it exits, runs the deferred scripts first. -/
def endEvaluation (outcome : Outcome Value) : Act κ Value := do
  match outcome with
  | .raised (.plain (.exited status) v) =>
    if (← Act.interp).level = 0 then
      let outcome ←
        Action.inside .exiting (engine.runDeferred (.raised (.plain (.exited status) v)))
      modify fun s => s.noting outcome
      Action.conclude outcome
    else Action.raise (.plain (.exited status) v)
  | outcome => Action.conclude outcome

variable {ops engine} {script : Value} {outcome : Outcome Value} {s t : State κ}

theorem evalAlone_refused (hlimit : s.interp.recursionLimit < s.interp.level + 1) :
    evalAlone ops engine script s = .ok (.raised (.ofFault EvalFault.tooDeep)) s := by
  refine (bind_ok rfl).trans ?_
  rw [if_pos hlimit]
  rfl

theorem evalAlone_cut {stop : Stop} (hlimit : s.interp.level + 1 ≤ s.interp.recursionLimit)
    (hrun : Action.attempt (Action.inside .counted (runNested ops engine script.text))
      (s.withLevel (s.interp.level + 1)) = .error stop t) :
    evalAlone ops engine script s = .error stop t := by
  refine (bind_ok rfl).trans ?_
  rw [if_neg (Nat.not_lt.2 hlimit)]
  exact (bind_ok rfl).trans ((bind_ok rfl).trans (bind_error hrun))

theorem evalAlone_eq (hlimit : s.interp.level + 1 ≤ s.interp.recursionLimit)
    (hrun : Action.attempt (Action.inside .counted (runNested ops engine script.text))
      (s.withLevel (s.interp.level + 1)) = .ok outcome t) :
    evalAlone ops engine script s =
      (do
        let outcome ← leaveLevel outcome
        modify fun s => s.noting outcome
        return outcome : Act κ (Outcome Value)) (t.withLevel (t.interp.level - 1)) := by
  refine (bind_ok rfl).trans ?_
  rw [if_neg (Nat.not_lt.2 hlimit)]
  exact (bind_ok rfl).trans ((bind_ok rfl).trans ((bind_ok hrun).trans (bind_ok rfl)))

/-- An outcome can leave its evaluation unless that is the outermost one and it is a `return` with
no boundary left to pass. -/
theorem leaveLevel_eq (h : s.interp.level = 0 → outcome.isSpent = false) :
    leaveLevel outcome s = .ok (outcome.atLevel s.interp.level) s := by
  refine (bind_ok rfl).trans ?_
  unfold Action.Outcome.atLevel
  split
  · rename_i hlevel
    exact bind_ok (Action.checkBoundary_eq (h hlevel))
  · rfl

theorem leaveLevel_spent (hlevel : s.interp.level = 0) (h : outcome.isSpent = true) :
    leaveLevel outcome s = .error (.halted .spentReturn) s := by
  refine (bind_ok rfl).trans ?_
  rw [if_pos hlevel]
  exact bind_error (Action.checkBoundary_spent h)

theorem evalAlone_spent (hlimit : s.interp.level + 1 ≤ s.interp.recursionLimit)
    (hrun : Action.attempt (Action.inside .counted (runNested ops engine script.text))
      (s.withLevel (s.interp.level + 1)) = .ok outcome t)
    (hlevel : t.interp.level - 1 = 0) (hspent : outcome.isSpent = true) :
    evalAlone ops engine script s =
      .error (.halted .spentReturn) (t.withLevel (t.interp.level - 1)) :=
  (evalAlone_eq hlimit hrun).trans (bind_error (leaveLevel_spent hlevel hspent))

theorem evalAlone_ran (hlimit : s.interp.level + 1 ≤ s.interp.recursionLimit)
    (hrun : Action.attempt (Action.inside .counted (runNested ops engine script.text))
      (s.withLevel (s.interp.level + 1)) = .ok outcome t)
    (hpasses : t.interp.level - 1 = 0 → outcome.isSpent = false) :
    evalAlone ops engine script s =
      .ok (outcome.atLevel (t.interp.level - 1))
        ((t.withLevel (t.interp.level - 1)).noting (outcome.atLevel (t.interp.level - 1))) :=
  (evalAlone_eq hlimit hrun).trans ((bind_ok (leaveLevel_eq hpasses)).trans rfl)

/-- An evaluation that is not cut short comes to an outcome. -/
theorem calm_evalAlone (ops : κ → Native κ) (engine : Engine κ) (script : Value) :
    Action.Discipline.Calm (evalAlone ops engine script) := by
  intro s e t h
  by_cases hlimit : s.interp.level + 1 ≤ s.interp.recursionLimit
  · cases hrun : Action.attempt (Action.inside .counted (runNested ops engine script.text))
      (s.withLevel (s.interp.level + 1)) with
    | ok outcome u =>
      by_cases hspent : u.interp.level - 1 = 0 ∧ outcome.isSpent = true
      · rw [evalAlone_spent hlimit hrun hspent.1 hspent.2] at h
        cases h
      · rw [evalAlone_ran hlimit hrun fun hlevel => eq_false_of_ne_true fun h => hspent ⟨hlevel, h⟩]
          at h
        cases h
    | error stop u =>
      rw [evalAlone_cut hlimit hrun] at h
      cases h
      exact Action.Discipline.Calm.attempt _ _ _ _ hrun
  · rw [evalAlone_refused (Nat.not_le.1 hlimit)] at h
    cases h

theorem endEvaluation_exit (hexit : outcome.IsExit) (hlevel : s.interp.level = 0) :
    endEvaluation engine outcome s =
      (do
        let outcome ← Action.inside .exiting (engine.runDeferred outcome)
        modify fun s => s.noting outcome
        Action.conclude outcome : Act κ Value) s := by
  match outcome, hexit with
  | .raised (.plain (.exited status) v), _ =>
    refine (bind_ok rfl).trans ?_
    rw [if_pos hlevel]

theorem endEvaluation_stay (h : ¬ (outcome.IsExit ∧ s.interp.level = 0)) :
    endEvaluation engine outcome s = Action.conclude outcome s := by
  unfold endEvaluation
  split
  · refine (bind_ok rfl).trans ?_
    rw [if_neg fun hlevel => h ⟨trivial, hlevel⟩]
    rfl
  · rfl

theorem settleOutermost_spent (hspent : outcome.isSpent = true) :
    settleOutermost engine outcome s = .error (.halted .spentReturn) s :=
  bind_error (Action.checkBoundary_spent hspent)

theorem settleOutermost_exit (hspent : outcome.isSpent = false) (hexit : outcome.leave.IsExit) :
    settleOutermost engine outcome s =
      Action.inside .exiting (engine.runDeferred outcome.leave) s := by
  refine (bind_ok (Action.checkBoundary_eq hspent)).trans ?_
  match hleave : outcome.leave, hexit with
  | .raised (.plain (.exited status) v), _ => rfl

theorem settleOutermost_stay (hspent : outcome.isSpent = false) (hexit : ¬ outcome.leave.IsExit) :
    settleOutermost engine outcome s = .ok outcome.leave s := by
  unfold settleOutermost
  split
  · rename_i heq
    rw [heq] at hexit
    exact absurd trivial hexit
  · exact bind_ok (Action.checkBoundary_eq hspent)

theorem concludeNoting_eq (outcome : Outcome Value) (s : State κ) :
    concludeNoting outcome s = Action.conclude outcome (s.noting outcome) := by
  cases outcome with
  | value v => rfl
  | raised e => cases e <;> rfl

/-- What is left to do once the commands of a counted evaluation have run. -/
theorem afterCounted_eq (h : s.interp.level = 0 → outcome.isSpent = false) :
    afterCounted engine outcome s =
      endEvaluation engine (outcome.atLevel s.interp.level)
        (s.noting (outcome.atLevel s.interp.level)) := by
  refine (bind_ok rfl).trans ?_
  by_cases hlevel : s.interp.level = 0
  · rw [if_pos hlevel, Action.Outcome.atLevel, if_pos hlevel]
    by_cases hexit : outcome.leave.IsExit
    · have hsettle : settleOutermost engine outcome s = _ :=
        settleOutermost_exit (h hlevel) hexit
      rw [s.noting_of_isExit hexit, endEvaluation_exit hexit hlevel]
      cases hrun : Action.inside .exiting (engine.runDeferred outcome.leave) s with
      | error stop t => rw [bind_error (hsettle.trans hrun), bind_error hrun]
      | ok outcome t =>
        rw [bind_ok (hsettle.trans hrun), bind_ok hrun]
        exact concludeNoting_eq outcome t
    · rw [endEvaluation_stay fun h => hexit h.1]
      exact (bind_ok (settleOutermost_stay (h hlevel) hexit)).trans (concludeNoting_eq _ s)
  · have hkept := (s.kept_noting outcome).1.level
    rw [if_neg hlevel, Action.Outcome.atLevel, if_neg hlevel,
      endEvaluation_stay fun h => hlevel (hkept ▸ h.2)]
    exact (bind_ok rfl).trans (concludeNoting_eq outcome s)

theorem afterCounted_spent (hlevel : s.interp.level = 0) (hspent : outcome.isSpent = true) :
    afterCounted engine outcome s = .error (.halted .spentReturn) s := by
  refine (bind_ok rfl).trans ?_
  rw [if_pos hlevel]
  exact bind_error (settleOutermost_spent hspent)

/-- A counted evaluation comes to an outcome, and then it ends. -/
theorem runCounted_eq (script : Value) (s : State κ) :
    runCounted ops engine script s =
      (evalAlone ops engine script >>= endEvaluation engine) s := by
  by_cases hlimit : s.interp.recursionLimit < s.interp.level + 1
  · rw [bind_ok (evalAlone_refused hlimit)]
    refine (bind_ok rfl).trans ?_
    rw [if_pos hlimit]
    rfl
  cases hrun : Action.attempt (Action.inside .counted (runNested ops engine script.text))
    (s.withLevel (s.interp.level + 1)) with
  | error stop t =>
    rw [bind_error (evalAlone_cut (Nat.not_lt.1 hlimit) hrun)]
    refine (bind_ok rfl).trans ?_
    rw [if_neg hlimit]
    exact (bind_ok rfl).trans ((bind_ok rfl).trans (bind_error hrun))
  | ok outcome t =>
    have hcounted : runCounted ops engine script s =
        afterCounted engine outcome (t.withLevel (t.interp.level - 1)) := by
      refine (bind_ok rfl).trans ?_
      rw [if_neg hlimit]
      exact (bind_ok rfl).trans ((bind_ok rfl).trans ((bind_ok hrun).trans (bind_ok rfl)))
    rw [hcounted]
    by_cases hspent : t.interp.level - 1 = 0 ∧ outcome.isSpent = true
    · rw [bind_error (evalAlone_spent (Nat.not_lt.1 hlimit) hrun hspent.1 hspent.2)]
      exact afterCounted_spent hspent.1 hspent.2
    · have hpasses : t.interp.level - 1 = 0 → outcome.isSpent = false :=
        fun hlevel => eq_false_of_ne_true fun h => hspent ⟨hlevel, h⟩
      rw [bind_ok (evalAlone_ran (Nat.not_lt.1 hlimit) hrun hpasses)]
      exact afterCounted_eq hpasses

end

/-! ## Executions -/

/-- The scripts that wait in the top frame, the next one to run first. -/
def State.waiting {κ : Type} (s : State κ) : List Value := s.stack.top.deferred

/-- A script that was evaluated: from where, with what outcome, and up to where. -/
structure Execution (κ : Type) where
  script : Value
  start : State κ
  outcome : Outcome Value
  finish : State κ

namespace Execution

variable {κ : Type} (x : Execution κ) (ops : κ → Native κ) (fuel : Nat)

/-- The evaluation has been made, with some room for others inside it. -/
def Made (room : Nat) : Prop :=
  evalAlone ops (.within ops fuel room) x.script x.start = .ok x.outcome x.finish

/-- The commands of the script have been run, and have come to an outcome. -/
def Ran (outcome : Outcome Value) : Prop := ∃ room t,
  runNested ops (.within ops fuel room) x.script.text
      (x.start.withLevel (x.start.interp.level + 1)) = Action.conclude outcome t ∧
    x.outcome = outcome.atLevel x.start.interp.level ∧
    x.finish = (t.withLevel x.start.interp.level).noting x.outcome

/-- The evaluation is the outermost one and exits, so that it goes on with the scripts that wait. -/
def Exits : Prop := x.outcome.IsExit ∧ x.start.interp.level = 0

/-- The scripts that were deferred in the frame meanwhile. -/
def added : List Value := x.finish.waiting.take (x.finish.waiting.length - x.start.waiting.length)

/-- The exception that the script has raised. -/
def exception? : Option Exception :=
  match x.outcome with
  | .value _ => none
  | .raised e => some e

variable {x ops fuel} {room : Nat}

theorem Made.ran (hops : Discipline.awaiting.Permits ops ops) (h : x.Made ops fuel room)
    (hlimit : x.start.interp.level + 1 ≤ x.start.interp.recursionLimit) :
    ∃ outcome, x.Ran ops fuel outcome := by
  unfold Made at h
  cases hrun : Action.attempt (Action.inside .counted (runNested ops
      (.within ops fuel room) x.script.text))
    (x.start.withLevel (x.start.interp.level + 1)) with
  | error stop t =>
    rw [evalAlone_cut hlimit hrun] at h
    cases h
  | ok outcome t =>
    have hnested := Action.eq_conclude_of_attempt hrun
    have hlevel : t.interp.level - 1 = x.start.interp.level := by
      rw [(awaits_of_runNested hops (Nat.le_add_left 1 _)
        (Action.mem_ended?_of_conclude hnested)).1.level]
      rfl
    have hpasses : t.interp.level - 1 = 0 → outcome.isSpent = false := by
      refine fun hzero => eq_false_of_ne_true fun hspent => ?_
      rw [evalAlone_spent hlimit hrun hzero hspent] at h
      cases h
    rw [evalAlone_ran hlimit hrun hpasses, hlevel] at h
    obtain ⟨houtcome, hfinish⟩ := EStateM.Result.ok.inj h
    exact ⟨outcome, room, t, hnested, houtcome.symm, by rw [← hfinish, houtcome]⟩

theorem Made.awaits (hops : Discipline.awaiting.Permits ops ops) (h : x.Made ops fuel room) :
    x.start.interp.Kept x.finish.interp ∧ x.start.stack.Awaits x.finish.stack := by
  by_cases hlimit : x.start.interp.level + 1 ≤ x.start.interp.recursionLimit
  · obtain ⟨outcome, _, t, hrun, _, hfinish⟩ := h.ran hops hlimit
    obtain ⟨hkept, hawaits⟩ := awaits_of_runNested hops (Nat.le_add_left 1 x.start.interp.level)
      (Action.mem_ended?_of_conclude hrun)
    obtain ⟨hnoting, hstack, _⟩ := (t.withLevel x.start.interp.level).kept_noting x.outcome
    rw [hfinish, hstack]
    have hback : x.start.interp.Kept (t.withLevel x.start.interp.level).interp :=
      ⟨hkept.shape, rfl, hkept.recursionLimit, hkept.safe, hkept.registry⟩
    exact ⟨hback.trans hnoting, hawaits⟩
  · unfold Made at h
    rw [evalAlone_refused (Nat.not_le.1 hlimit)] at h
    obtain ⟨-, hfinish⟩ := EStateM.Result.ok.inj h
    rw [← hfinish]
    exact ⟨.refl _, .refl _⟩

theorem Made.kept (hops : Discipline.awaiting.Permits ops ops) (h : x.Made ops fuel room) :
    x.start.interp.Kept x.finish.interp := (h.awaits hops).1

/-- What waited in the frame waits there still, behind what was deferred meanwhile. -/
theorem Made.waiting (hops : Discipline.awaiting.Permits ops ops) (h : x.Made ops fuel room) :
    x.finish.waiting = x.added ++ x.start.waiting := by
  obtain ⟨new, hnew⟩ : x.start.waiting <:+ x.finish.waiting := (h.awaits hops).2.top
  simp [added, ← hnew]

end Execution

/-- How an evaluation ends whose script has come to an outcome. -/
theorem Engine.eval_eq {κ : Type} (ops : κ → Native κ) (fuel room : Nat) (script : Value)
    (s : State κ) :
    (Engine.within ops fuel (room + 1)).eval script s =
      (evalAlone ops (.within ops fuel room) script >>=
        endEvaluation (.within ops fuel room)) s := runCounted_eq script s

end CommandScript
