import CommandScript.Proofs.Deferred.Executions

/-!
# Deferred scripts run last in, first out

Before a frame goes, the scripts deferred in it are run, while it is still on top. `Executes` is the
log of that, script by script: each execution takes the first script that waits, and what was
deferred while it ran comes before those that waited already. An exception of one script does not
keep the others from running. Where the outermost evaluation exits, the scripts that are left are
run inside it, but they are the same scripts in the same order, so they are in the same log.

* `LastInFirstOut`: the order of a log, and `Executes.lastInFirstOut`: that it is kept.
* `drain_ends`: running the scripts that wait is such a log, to its end or up to a script that
  does not end.
* `deferred_scripts_run_in_turn`: all of this for a frame that goes.
-/

namespace CommandScript

open CommandScript.Action (Outcome bind_ok bind_error)

/-! ## Order -/

/-- Scripts that wait have been executed in turn: the first one, then those that were deferred while
it ran, in the same way, and then the others. -/
inductive LastInFirstOut {κ : Type} : List Value → List (Execution κ) → Prop
  | nil : LastInFirstOut [] []
  | cons {x : Execution κ} {rest : List Value} {meanwhile later : List (Execution κ)} :
      LastInFirstOut x.added meanwhile → LastInFirstOut rest later →
      LastInFirstOut (x.script :: rest) (x :: (meanwhile ++ later))

namespace LastInFirstOut

variable {κ : Type} {waiting first rest : List Value} {log : List (Execution κ)}

/-- Those that come first are done with before the rest begin. -/
theorem split (h : LastInFirstOut (first ++ rest) log) :
    ∃ before after, log = before ++ after ∧ LastInFirstOut first before ∧
      LastInFirstOut rest after := by
  induction first generalizing log with
  | nil => exact ⟨[], log, rfl, .nil, h⟩
  | cons script first ih =>
    cases h with
    | cons hmeanwhile hlater =>
      obtain ⟨before, after, rfl, hbefore, hafter⟩ := ih hlater
      refine ⟨_, after, ?_, .cons hmeanwhile hbefore, hafter⟩
      rw [List.cons_append, List.append_assoc]

/-- Each script that waits, or is deferred meanwhile, is executed exactly once. -/
theorem perm (h : LastInFirstOut waiting log) :
    (log.map Execution.script).Perm (waiting ++ log.flatMap Execution.added) := by
  induction h with
  | nil => exact .nil
  | @cons x rest meanwhile later _ _ ihm ihl =>
    simp only [List.map_cons, List.map_append, List.flatMap_cons, List.flatMap_append,
      List.cons_append]
    refine .cons _ ?_
    calc meanwhile.map Execution.script ++ later.map Execution.script
      _ |>.Perm ((x.added ++ meanwhile.flatMap Execution.added) ++
          (rest ++ later.flatMap Execution.added)) := ihm.append ihl
      _ |>.Perm (rest ++ ((x.added ++ meanwhile.flatMap Execution.added) ++
          later.flatMap Execution.added)) := List.perm_append_comm_assoc _ _ _
      _ |>.Perm (rest ++ (x.added ++ (meanwhile.flatMap Execution.added ++
          later.flatMap Execution.added))) := by rw [List.append_assoc]

/-- The scripts that wait are executed in their order. -/
theorem sublist (h : LastInFirstOut waiting log) :
    waiting.Sublist (log.map Execution.script) := by
  induction h with
  | nil => exact .slnil
  | cons _ _ _ ihl =>
    rw [List.map_cons, List.map_append]
    exact (ihl.trans (List.sublist_append_right _ _)).cons_cons _

end LastInFirstOut

/-! ## Logs -/

/-- The execution is that of the first script that waits. -/
structure Execution.Takes {κ : Type} (x : Execution κ) (s : State κ) : Prop where
  first : s.waiting = x.script :: x.start.waiting
  start : x.start = s.withDeferred x.start.waiting

/-- The room for evaluations in the scripts that come next. After an exit from the outermost
evaluation they run inside it. -/
def Execution.GoesOn {κ : Type} (x : Execution κ) (room next : Nat) : Prop :=
  ¬ x.Exits ∧ next = room + 1 ∨ x.Exits ∧ next = room

/-- Scripts that wait in the top frame have been executed, one after the other. -/
inductive Executes {κ : Type} (ops : κ → Native κ) (fuel : Nat) :
    (room : Nat) → State κ → List (Execution κ) → (room' : Nat) → State κ → Prop
  | refl (room : Nat) (s : State κ) : Executes ops fuel room s [] room s
  | step {room next room' : Nat} {s t : State κ} {x : Execution κ} {log : List (Execution κ)} :
      x.Takes s → x.Made ops fuel room → x.GoesOn room next →
      Executes ops fuel next x.finish log room' t →
      Executes ops fuel (room + 1) s (x :: log) room' t

/-- The outcome that is pending after one more script. -/
def Action.Outcome.orElse (ended pending : Outcome Value) : Outcome Value :=
  match ended with
  | .value _ => pending
  | .raised e => .raised e

/-- The outcome when scripts have been executed: the exception of the last one that has raised one,
or else the outcome that was pending. -/
def settled {κ : Type} (log : List (Execution κ)) (pending : Outcome Value) : Outcome Value :=
  match (log.filterMap Execution.exception?).getLast? with
  | some e => .raised e
  | none => pending

section

variable {κ : Type} {ops : κ → Native κ} {fuel room room' : Nat} {s t : State κ} {x : Execution κ}
  {log : List (Execution κ)} {pending : Outcome Value}

theorem settled_cons (x : Execution κ) (log : List (Execution κ)) (pending : Outcome Value) :
    settled (x :: log) pending = settled log (x.outcome.orElse pending) := by
  cases h : x.outcome with
  | value v =>
    have hx : x.exception? = none := by simp [Execution.exception?, h]
    simp only [settled, List.filterMap_cons, hx]
    rfl
  | raised e =>
    have hx : x.exception? = some e := by simp [Execution.exception?, h]
    simp only [settled, List.filterMap_cons, hx, List.getLast?_cons]
    cases (log.filterMap Execution.exception?).getLast? <;> rfl

/-- A pending exit is only ever replaced by another exception. -/
theorem settled_orElse_of_isExit {outcome : Outcome Value} (h : outcome.IsExit) :
    (settled log outcome).orElse pending = settled log (outcome.orElse pending) := by
  match outcome, h with
  | .raised e, _ =>
    unfold settled
    cases (log.filterMap Execution.exception?).getLast? <;> rfl

theorem Execution.Takes.kept (h : x.Takes s) : s.interp.Kept x.start.interp := by
  rw [h.start]
  exact ⟨Stack.shape_modifyTop _ rfl, rfl, rfl, rfl, rfl⟩

/-- What an execution leaves waiting is what was deferred meanwhile, and then the rest. -/
theorem LastInFirstOut.step (hops : Discipline.awaiting.Permits ops ops) (htakes : x.Takes s)
    (hmade : x.Made ops fuel room) (h : LastInFirstOut x.finish.waiting log) :
    LastInFirstOut s.waiting (x :: log) := by
  rw [hmade.waiting hops] at h
  obtain ⟨meanwhile, later, rfl, hmeanwhile, hlater⟩ := h.split
  rw [htakes.first]
  exact .cons hmeanwhile hlater

namespace Executes

/-- Every script is run with the frame on top, and at the same level. -/
theorem kept (hops : Discipline.awaiting.Permits ops ops)
    (h : Executes ops fuel room s log room' t) : ∀ x ∈ log, s.interp.Kept x.start.interp := by
  induction h with
  | refl room s => exact fun x hx => nomatch hx
  | step htakes hmade _ _ ih =>
    intro y hy
    rcases List.mem_cons.1 hy with rfl | hy
    · exact htakes.kept
    · exact (htakes.kept.trans (hmade.kept hops)).trans (ih y hy)

theorem made (h : Executes ops fuel room s log room' t) :
    ∀ x ∈ log, ∃ room, x.Made ops fuel room := by
  induction h with
  | refl room s => exact fun x hx => nomatch hx
  | step _ hmade _ _ ih =>
    intro y hy
    rcases List.mem_cons.1 hy with rfl | hy
    · exact ⟨_, hmade⟩
    · exact ih y hy

/-- The limit keeps no script from being run where it lets one more evaluation begin. -/
theorem ran (hops : Discipline.awaiting.Permits ops ops)
    (h : Executes ops fuel room s log room' t)
    (hlimit : s.interp.level < s.interp.recursionLimit) (hx : x ∈ log) :
    ∃ outcome, x.Ran ops fuel outcome := by
  obtain ⟨room, hmade⟩ := h.made x hx
  have hkept := h.kept hops x hx
  refine hmade.ran hops ?_
  rw [hkept.level, hkept.recursionLimit]
  exact hlimit

theorem lastInFirstOut (hops : Discipline.awaiting.Permits ops ops)
    (h : Executes ops fuel room s log room' t) (hdone : t.waiting = []) :
    LastInFirstOut s.waiting log := by
  induction h with
  | refl room s => rw [hdone]; exact .nil
  | step htakes hmade _ _ ih => exact .step hops htakes hmade (ih hdone)

end Executes

/-! ## Running the scripts that wait -/

section

variable {engine : Engine κ} {left : Nat} {script : Value} {rest : List Value}
  {ended : Outcome Value} {stop : Stop}

theorem drain_zero (h : s.waiting = script :: rest) :
    engine.drain 0 pending s = .error (.halted .outOfFuel) s := by
  rw [Engine.drain]
  refine (bind_ok rfl).trans ?_
  rw [show s.interp.env.stack.top.deferred = script :: rest from h]
  rfl

theorem drain_ended (h : s.waiting = script :: rest)
    (heval : engine.eval script (s.withDeferred rest) = Action.conclude ended t) :
    engine.drain (left + 1) pending s = engine.drain left (ended.orElse pending) t := by
  rw [Engine.drain]
  refine (bind_ok rfl).trans ?_
  rw [show s.interp.env.stack.top.deferred = script :: rest from h]
  refine (bind_ok rfl).trans ((bind_ok (Action.attempt_of_conclude heval)).trans ?_)
  cases ended <;> rfl

theorem drain_cut (h : s.waiting = script :: rest)
    (heval : Action.ended? (engine.eval script (s.withDeferred rest)) = none) :
    Action.ended? (engine.drain (left + 1) pending s) = none := by
  obtain ⟨stop, t, hcut, hstop⟩ := Action.cut_of_ended? heval
  have hdrain : engine.drain (left + 1) pending s = .error stop t := by
    rw [Engine.drain]
    refine (bind_ok rfl).trans ?_
    rw [show s.interp.env.stack.top.deferred = script :: rest from h]
    exact (bind_ok rfl).trans (bind_error (Action.attempt_cut hcut hstop))
  rw [hdrain, Action.ended?_cut hstop]

end

/-! ## Logs of the scripts that wait -/

/-- How running the scripts that wait ends, after those in a log: none is left, or the next one is
cut short, or there have been too many. -/
inductive DrainEnds {κ : Type} (ops : κ → Native κ) (fuel left : Nat) (pending : Outcome Value)
    (log : List (Execution κ)) (room : Nat) (t : State κ) :
    EStateM.Result Stop (State κ) (Outcome Value) → Prop
  | done {u : State κ} : t.waiting = [] → u.stack = t.stack → u.world = t.world →
      DrainEnds ops fuel left pending log room t (.ok (settled log pending) u)
  | cut {script : Value} {rest : List Value}
      {r : EStateM.Result Stop (State κ) (Outcome Value)} :
      t.waiting = script :: rest →
      (left ≤ log.length ∨ Action.ended?
        ((Engine.within ops fuel room).eval script (t.withDeferred rest)) = none) →
      Action.ended? r = none → DrainEnds ops fuel left pending log room t r

section

variable {script : Value} {outcome outcome' : Outcome Value} {u : State κ}

theorem eval_of_evalAlone (h : evalAlone ops (.within ops fuel room) script s = .ok outcome t)
    (hexit : ¬ (outcome.IsExit ∧ t.interp.level = 0)) :
    (Engine.within ops fuel (room + 1)).eval script s = Action.conclude outcome t := by
  rw [Engine.eval_eq, bind_ok h, endEvaluation_stay hexit]

/-- The outermost evaluation, if it exits, ends as the scripts do that wait. -/
theorem eval_of_exit (h : evalAlone ops (.within ops fuel room) script s = .ok outcome t)
    (hexit : outcome.IsExit) (hlevel : t.interp.level = 0)
    (hdrain : (Engine.within ops fuel room).drain fuel outcome t = .ok outcome' u) :
    ∃ w, (Engine.within ops fuel (room + 1)).eval script s = Action.conclude outcome' w ∧
      w.stack = u.stack ∧ w.world = u.world := by
  refine ⟨_, ?_, ((u.withResult t.interp.lastResult).kept_noting outcome').2⟩
  rw [Engine.eval_eq, bind_ok h, endEvaluation_exit hexit hlevel]
  have hrun : (Engine.within ops fuel room).runDeferred outcome t =
      Action.conclude (.value outcome') (u.withResult t.interp.lastResult) :=
    (bind_ok rfl).trans ((bind_ok hdrain).trans rfl)
  exact (bind_ok (Action.inside_of_conclude hrun)).trans rfl

theorem eval_cut_of_exit (h : evalAlone ops (.within ops fuel room) script s = .ok outcome t)
    (hexit : outcome.IsExit) (hlevel : t.interp.level = 0)
    (hdrain : Action.ended? ((Engine.within ops fuel room).drain fuel outcome t) = none) :
    Action.ended? ((Engine.within ops fuel (room + 1)).eval script s) = none := by
  obtain ⟨stop, u, hcut, hstop⟩ := Action.cut_of_ended? hdrain
  rw [Engine.eval_eq, bind_ok h, endEvaluation_exit hexit hlevel]
  have hrun : (Engine.within ops fuel room).runDeferred outcome t = .error stop u :=
    (bind_ok rfl).trans (bind_error hcut)
  rw [bind_error (show Action.inside .exiting _ t = _ by rw [Action.inside, hrun])]
  cases stop with
  | raised e => exact absurd rfl (hstop e)
  | halted why => rfl
  | outOfDepth active => rfl

theorem eval_cut (h : Action.ended? (evalAlone ops (.within ops fuel room) script s) = none) :
    Action.ended? ((Engine.within ops fuel (room + 1)).eval script s) = none := by
  obtain ⟨stop, u, hcut, hstop⟩ := Action.cut_of_ended? h
  rw [Engine.eval_eq, bind_error hcut, Action.ended?_cut hstop]

end

/-- Running the scripts that wait is a log of executions, up to where it ends. The induction is on
the room there is, for exits, and then on the number of scripts that may be run. -/
theorem drain_ends (hops : Discipline.awaiting.Permits ops ops) (fuel room : Nat) {left : Nat}
    (hleft : left ≤ fuel) (pending : Outcome Value) (s : State κ) :
    ∃ log room' t, Executes ops fuel room s log room' t ∧
      DrainEnds ops fuel left pending log room' t
        ((Engine.within ops fuel room).drain left pending s) := by
  induction room generalizing left pending s with
  | zero =>
    cases hwaiting : s.waiting with
    | nil => exact ⟨[], 0, s, .refl _ _, Engine.drain_of_none hwaiting _ _ ▸ .done hwaiting rfl rfl⟩
    | cons script rest =>
      refine ⟨[], 0, s, .refl _ _, .cut hwaiting (.inr rfl) ?_⟩
      cases left with
      | zero => rw [drain_zero hwaiting]; rfl
      | succ left => exact drain_cut hwaiting rfl
  | succ room ihroom =>
    induction left generalizing pending s with
    | zero =>
      cases hwaiting : s.waiting with
      | nil =>
        exact ⟨[], _, s, .refl _ _, Engine.drain_of_none hwaiting _ _ ▸ .done hwaiting rfl rfl⟩
      | cons script rest =>
        refine ⟨[], _, s, .refl _ _, .cut hwaiting (.inl (Nat.le_refl 0)) ?_⟩
        rw [drain_zero hwaiting]
        rfl
    | succ left ihleft =>
      cases hwaiting : s.waiting with
      | nil =>
        exact ⟨[], _, s, .refl _ _, Engine.drain_of_none hwaiting _ _ ▸ .done hwaiting rfl rfl⟩
      | cons script rest =>
        cases halone : evalAlone ops (.within ops fuel room) script (s.withDeferred rest) with
        | error stop t =>
          have hstop : ∀ e, stop ≠ .raised e := by
            rintro e rfl
            exact calm_evalAlone _ _ _ _ _ _ halone
          have hcut := eval_cut (halone ▸ Action.ended?_cut hstop)
          exact ⟨[], _, s, .refl _ _, .cut hwaiting (.inr hcut) (drain_cut hwaiting hcut)⟩
        | ok outcome t =>
          let x : Execution κ := ⟨script, s.withDeferred rest, outcome, t⟩
          have htakes : x.Takes s := ⟨hwaiting, rfl⟩
          have hmade : x.Made ops fuel room := halone
          by_cases hexit : x.Exits
          · have hlevel : t.interp.level = 0 := (hmade.kept hops).level.trans hexit.2
            obtain ⟨log, room', u, hexecutes, hends⟩ := ihroom (Nat.le_refl fuel) outcome t
            refine ⟨x :: log, room', u, .step htakes hmade (.inr ⟨hexit, rfl⟩) hexecutes, ?_⟩
            generalize hdrain : (Engine.within ops fuel room).drain fuel outcome t = r
              at hends
            cases hends with
            | cut hnext hwhy hcut =>
              have hlong : fuel ≤ log.length → left + 1 ≤ (x :: log).length :=
                fun h => Nat.le_succ_of_le (Nat.le_trans hleft h)
              exact .cut hnext (hwhy.imp_left hlong)
                (drain_cut hwaiting (eval_cut_of_exit halone hexit.1 hlevel (hdrain ▸ hcut)))
            | @done w hdone hstack hworld =>
              obtain ⟨v, heval, hstack', hworld'⟩ := eval_of_exit halone hexit.1 hlevel hdrain
              have hnone : v.waiting = [] := by
                rw [State.waiting, hstack', hstack]
                exact hdone
              rw [drain_ended hwaiting heval, Engine.drain_of_none hnone,
                settled_orElse_of_isExit hexit.1, ← settled_cons x]
              exact .done hdone (hstack'.trans hstack) (hworld'.trans hworld)
          · have hstay : ¬ (outcome.IsExit ∧ t.interp.level = 0) :=
              fun h => hexit ⟨h.1, (hmade.kept hops).level.symm.trans h.2⟩
            have heval := eval_of_evalAlone halone hstay
            obtain ⟨log, room', u, hexecutes, hends⟩ :=
              ihleft (Nat.le_of_succ_le hleft) (outcome.orElse pending) t
            refine ⟨x :: log, room', u, .step htakes hmade (.inl ⟨hexit, rfl⟩) hexecutes, ?_⟩
            rw [drain_ended hwaiting heval]
            generalize (Engine.within ops fuel (room + 1)).drain left
              (outcome.orElse pending) t = r at hends ⊢
            cases hends with
            | cut hnext hwhy hcut => exact .cut hnext (hwhy.imp_left Nat.succ_le_succ) hcut
            | done hdone hstack hworld =>
              rw [← settled_cons x]
              exact .done hdone hstack hworld

end

/-! ## Frames that go -/

/-- Runs what waits in the top frame, and then the frame goes. -/
def Engine.popFrame {κ : Type} (engine : Engine κ) (outcome : Outcome Value) :
    Act κ (Outcome Value) := do
  let outcome ← engine.runDeferred outcome
  Act.modifyStack Stack.pop
  return outcome

section

variable {κ : Type} {engine : Engine κ} {frame : Frame} {body : Value}
  {pending outcome : Outcome Value} {s t u : State κ}

/-- Whatever the body of a frame comes to, the frame goes. -/
theorem evalInFrame_of_eval
    (h : engine.eval body (s.withStack (s.stack.push frame)) = Action.conclude outcome t) :
    engine.evalInFrame frame body s = engine.popFrame outcome t :=
  (bind_ok rfl).trans (bind_ok (Action.attempt_of_conclude h))

theorem popFrame_done (h : engine.drain engine.fuel pending s = .ok outcome u) :
    engine.popFrame pending s =
      .ok outcome ((u.withResult s.interp.lastResult).withStack u.stack.pop) := by
  have hrun : engine.runDeferred pending s = .ok outcome (u.withResult s.interp.lastResult) :=
    (bind_ok rfl).trans ((bind_ok h).trans rfl)
  exact (bind_ok hrun).trans rfl

theorem popFrame_cut (h : Action.ended? (engine.drain engine.fuel pending s) = none) :
    Action.ended? (engine.popFrame pending s) = none := by
  obtain ⟨stop, u, hcut, hstop⟩ := Action.cut_of_ended? h
  have hrun : engine.runDeferred pending s = .error stop u :=
    (bind_ok rfl).trans (bind_error hcut)
  exact (congrArg Action.ended? (bind_error hrun)).trans (Action.ended?_cut hstop)

end

/-- **Deferred scripts run last in, first out.** The functions of commands may be any that keep to
the frames and let waiting scripts wait, as the standard ones do. When a frame goes, with whatever
outcome pending, there is a log of the scripts that are run:

* each execution takes the script that was deferred last of those that wait; the frame is still on
  top, the level and its limit are the same, and what waited waits still, behind what was deferred
  meanwhile;
* if the body of the frame was within the limit, the commands of all scripts are run;
* at the end nothing waits. Then each script that waited, or was deferred meanwhile, has been run
  exactly once, one deferred meanwhile before those that waited already. The outcome is the
  exception of the last script that has raised one, or else the one that was pending; the frame
  goes, and the last result is what it was.

Only a script that does not end keeps the frame from going, or scripts that defer others without
end. -/
theorem deferred_scripts_run_in_turn {κ : Type} {ops : κ → Native κ}
    (hops : Discipline.awaiting.Permits ops ops) (fuel room : Nat) (pending : Outcome Value)
    (s : State κ) :
    let engine : Engine κ := .within ops fuel room
    ∃ log room' t, Executes ops fuel room s log room' t ∧
      (∀ x ∈ log, s.interp.Kept x.start.interp ∧ x.finish.waiting = x.added ++ x.start.waiting) ∧
      (∀ frame body before,
        engine.eval body (before.withStack (before.stack.push frame)) =
          Action.conclude pending s →
        engine.evalInFrame frame body before = engine.popFrame pending s ∧
          (before.interp.level < before.interp.recursionLimit →
            ∀ x ∈ log, ∃ outcome, x.Ran ops fuel outcome)) ∧
      ((t.waiting = [] ∧ LastInFirstOut s.waiting log ∧
          s.waiting.Sublist (log.map Execution.script) ∧
          (log.map Execution.script).Perm (s.waiting ++ log.flatMap Execution.added) ∧
          ∃ u, engine.popFrame pending s = .ok (settled log pending) u ∧
            u.stack = t.stack.pop ∧ u.world = t.world ∧
            u.interp.lastResult = s.interp.lastResult) ∨
        (Action.ended? (engine.popFrame pending s) = none ∧
          ∃ script rest, t.waiting = script :: rest ∧
            (fuel ≤ log.length ∨
              Action.ended? ((Engine.within ops fuel room').eval script
                (t.withDeferred rest)) = none))) := by
  intro engine
  obtain ⟨log, room', t, hexecutes, hends⟩ :=
    drain_ends hops fuel room (Nat.le_refl fuel) pending s
  refine ⟨log, room', t, hexecutes, fun x hx => ⟨hexecutes.kept hops x hx, ?_⟩,
    fun frame body before hbody => ⟨evalInFrame_of_eval hbody, fun hlimit x hx => ?_⟩, ?_⟩
  · obtain ⟨_, hmade⟩ := hexecutes.made x hx
    exact hmade.waiting hops
  · have hended : s ∈ Action.ended? (run ops fuel room (.counted body)
        (before.withStack (before.stack.push frame))) := Action.mem_ended?_of_conclude hbody
    have hkept := kept_of_run hops hended
    refine hexecutes.ran hops ?_ hx
    rw [hkept.level, hkept.recursionLimit]
    exact hlimit
  · generalize hdrain : (Engine.within ops fuel room).drain fuel pending s = r at hends
    cases hends with
    | @done u hdone hstack hworld =>
      have horder := hexecutes.lastInFirstOut hops hdone
      exact .inl ⟨hdone, horder, horder.sublist, horder.perm, _, popFrame_done hdrain,
        congrArg Stack.pop hstack, hworld, rfl⟩
    | cut hnext hwhy hcut =>
      exact .inr ⟨popFrame_cut (hdrain ▸ hcut), _, _, hnext, hwhy⟩

/-- Inside an evaluation, in a new interpreter. -/
def State.evaluating : State Builtin := State.standard.withLevel 1

/-- The same, with two scripts deferred in the frame. -/
def State.twoDeferred : State Builtin :=
  State.evaluating.withDeferred [.string "set b 2", .string "set a 1"]

theorem deferred_scripts_run_in_turn_two :
    Discipline.awaiting.Permits Builtin.run Builtin.run ∧
      ∃ log room' t, Executes Builtin.run 2 1 .twoDeferred log room' t ∧ t.waiting = [] ∧
        LastInFirstOut [.string "set b 2", .string "set a 1"] log := by
  refine ⟨Discipline.awaiting_standard, ?_⟩
  obtain ⟨log, room', t, hexecutes, -, -, ⟨hdone, horder, -⟩ | ⟨hcut, -⟩⟩ :=
    deferred_scripts_run_in_turn Discipline.awaiting_standard 2 1 (.value {}) .twoDeferred
  · exact ⟨log, room', t, hexecutes, hdone, horder⟩
  · have hended : (Action.ended? ((Engine.within Builtin.run 2 1).popFrame (.value {})
        .twoDeferred)).isSome = true := by decide +kernel
    rw [hcut] at hended
    cases hended

end CommandScript
