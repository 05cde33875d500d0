import CommandScript.Proofs.Nesting
import CommandScript.Proofs.Script.Building

/-!
# Scripts command by command, and calls of procedures

A script runs its commands in turn and stops at the first that does not complete normally; what
comes after that one is not even built. `Comes` says which command a script has come to, in which
state. The call of a procedure is such a command: it evaluates the procedure's body in a frame of
its own, and the frame goes once its deferred scripts have run.

* `Comes.runNested`: a script ends as the command does that it has come to, if that one fails.
* `Leaves`: the deferred scripts of the top frame complete normally and the frame goes.
* `Call.run_of_body`: what becomes of a `return` that has ended the body of a procedure.
-/

namespace CommandScript

open CommandScript.Action (Outcome bind_ok bind_error)

/-! ## What evaluations keep -/

section

variable {fuel depth : Nat} {s t : State Builtin}

/-- The discipline that only says what every evaluation keeps. -/
def Discipline.steady : Discipline Builtin := .keeping _ Interp.stable_true

theorem Discipline.steady_inv (s : State Builtin) : Discipline.steady.inv s :=
  .of_forall (fun _ => trivial) s.interp

theorem Discipline.steady_permits : Discipline.steady.Permits Builtin.run Builtin.run :=
  permits_standard fun _ => trivial

theorem Discipline.steady_within (fuel depth : Nat) :
    Discipline.steady.AgreeEngine depth (.within Builtin.run fuel depth)
      (.within Builtin.run fuel depth) :=
  ⟨rfl, fun _ => agree_run steady_permits fuel depth _,
    fun _ => agree_run steady_permits fuel depth _⟩

theorem kept_of_runNested {script : String}
    (h : t ∈ Action.ended? (runNested Builtin.run (.within Builtin.run fuel depth) script s)) :
    s.interp.Kept t.interp :=
  (Discipline.allows_of_ended (Discipline.agree_runNested (Discipline.steady_within fuel depth)
    Discipline.steady_permits script) (Discipline.steady_inv s) h).2

theorem kept_of_dispatch {c : Command}
    (h : t ∈ Action.ended? (c.dispatch Builtin.run (.within Builtin.run fuel depth) s)) :
    s.interp.Kept t.interp :=
  (Discipline.allows_of_ended (Discipline.agree_dispatch (Discipline.steady_within fuel depth)
    Discipline.steady_permits fun v _ => Value.Kind.all_any v) (Discipline.steady_inv s) h).2

theorem kept_of_next {ws rest : List Word} {built : Option Command}
    (h : Builder.next (Engine.within Builtin.run fuel depth).substitutor ws s =
      ⟨.ok built, rest, t⟩) : s.interp.Kept t.interp := by
  have hbuilt := ((Discipline.steady_within fuel depth).substitutor.nextFrom .empty ws
    (Discipline.steady_inv s)).2
  rw [show Builder.nextFrom (Engine.within Builtin.run fuel depth).substitutor {} ws s =
    ⟨.ok built, rest, t⟩ from h] at hbuilt
  exact hbuilt.1.2

end

/-! ## Commands in turn -/

namespace State

variable {κ : Type}

/-- The state with another last result. -/
def withResult (s : State κ) (v : Value) : State κ :=
  { s with interp := { s.interp with lastResult := v } }

end State

/-- The commands at the head of a script run normally, and leave words to be read. -/
inductive Runs (engine : Engine Builtin) :
    List Word → State Builtin → List Word → State Builtin → Prop
  | refl (ws : List Word) (s : State Builtin) : Runs engine ws s ws s
  | step {ws rest last : List Word} {s t u w : State Builtin} {c : Command} {v : Value} :
      Builder.next engine.substitutor ws s = ⟨.ok (some c), rest, t⟩ →
      c.dispatch Builtin.run engine t = .ok v u →
      Runs engine rest (u.withResult v) last w → Runs engine ws s last w

/-- A script comes to a command: those before it have run normally, and it has been built, with the
words `rest` left to be read. -/
def Comes (engine : Engine Builtin) (script : String) (s : State Builtin) (c : Command)
    (rest : List Word) (t : State Builtin) : Prop :=
  ∃ ws u, Runs engine (words .command script) s ws u ∧
    Builder.next engine.substitutor ws u = ⟨.ok (some c), rest, t⟩

section

variable {engine : Engine Builtin} {ws rest last : List Word} {s t u : State Builtin} {c : Command}
  {script : String} {v : Value}

/-- A command takes a word at least. -/
theorem length_rest_lt (h : Builder.next engine.substitutor ws s = ⟨.ok (some c), rest, t⟩) :
    rest.length < ws.length := by
  cases ws with
  | nil => cases h
  | cons w ws =>
    have hlt := Builder.length_rest_next_lt engine.substitutor w ws s
    rw [h] at hlt
    exact hlt

theorem runCommands_step {fuel : Nat} {result : Value}
    (hnext : Builder.next engine.substitutor ws s = ⟨.ok (some c), rest, t⟩)
    (hrun : c.dispatch Builtin.run engine t = .ok v u) :
    runCommands Builtin.run engine (fuel + 1) ws result s =
      runCommands Builtin.run engine fuel rest v (u.withResult v) := by
  rw [runCommands]
  simp only [hnext]
  exact (bind_ok hrun).trans (bind_ok rfl)

theorem Runs.runCommands (h : Runs engine ws s last u) {fuel : Nat} (hfuel : ws.length < fuel)
    (result : Value) :
    ∃ fuel' result', last.length < fuel' ∧
      runCommands Builtin.run engine fuel ws result s =
        CommandScript.runCommands Builtin.run engine fuel' last result' u := by
  induction h generalizing fuel result with
  | refl ws s => exact ⟨fuel, result, hfuel, rfl⟩
  | step hnext hrun _ ih =>
    have hlt := length_rest_lt hnext
    obtain ⟨fuel, rfl⟩ : ∃ n, fuel = n + 1 := ⟨fuel - 1, by omega⟩
    rw [runCommands_step hnext hrun]
    exact ih (by omega) _

/-- What comes after a command that does not complete normally is not run. -/
theorem Comes.runNested {stop : Stop} (h : Comes engine script s c rest t)
    (hrun : c.dispatch Builtin.run engine t = .error stop u) :
    runNested Builtin.run engine script s = .error stop u := by
  obtain ⟨ws, w, hruns, hnext⟩ := h
  obtain ⟨fuel, result, hfuel, heq⟩ := hruns.runCommands (Nat.lt_succ_self _) {}
  obtain ⟨fuel, rfl⟩ : ∃ n, fuel = n + 1 := ⟨fuel - 1, by omega⟩
  refine Eq.trans heq ?_
  rw [CommandScript.runCommands]
  simp only [hnext]
  exact bind_error hrun

/-- A script completes as its last command does. -/
theorem Comes.runNested_last (h : Comes engine script s c [] t)
    (hrun : c.dispatch Builtin.run engine t = .ok v u) :
    CommandScript.runNested Builtin.run engine script s = .ok v (u.withResult v) := by
  obtain ⟨ws, w, hruns, hnext⟩ := h
  obtain ⟨fuel, result, hfuel, heq⟩ := hruns.runCommands (Nat.lt_succ_self _) {}
  have hlt := length_rest_lt hnext
  obtain ⟨fuel, rfl⟩ : ∃ n, fuel = n + 2 := ⟨fuel - 2, by omega⟩
  refine Eq.trans heq ?_
  rw [runCommands_step hnext hrun]
  rfl

theorem Runs.kept {fuel depth : Nat} (h : Runs (.within Builtin.run fuel depth) ws s last t) :
    s.interp.Kept t.interp := by
  induction h with
  | refl ws s => exact .refl _
  | step hnext hrun _ ih =>
    have hdispatch := kept_of_dispatch (by rw [hrun]; rfl)
    exact ((kept_of_next hnext).trans hdispatch).trans ⟨ih.shape, ih.level, ih.recursionLimit,
      ih.safe, ih.registry⟩

theorem Comes.kept {fuel depth : Nat}
    (h : Comes (.within Builtin.run fuel depth) script s c rest t) :
    s.interp.Kept t.interp := by
  obtain ⟨ws, u, hruns, hnext⟩ := h
  exact hruns.kept.trans (kept_of_next hnext)

end

/-! ## Commands that are found -/

namespace Action

variable {σ α : Type} {act : Action σ α} {outcome : Outcome α} {s t : σ}

theorem attempt_of_conclude (h : act s = conclude outcome t) : attempt act s = .ok outcome t := by
  cases outcome <;> simp only [attempt, h] <;> rfl

theorem inside_of_conclude {evaluation : Activation} (h : act s = conclude outcome t) :
    inside evaluation act s = conclude outcome t := by
  cases outcome <;> simp only [inside, h] <;> rfl

theorem mem_ended?_of_conclude (h : act s = conclude outcome t) : t ∈ ended? (act s) := by
  rw [h]
  cases outcome <;> rfl

end Action

section

variable {engine : Engine Builtin} {command : Executable Builtin} {c : Command} {e : Exception}
  {s t : State Builtin}

/-- The outcome of a command with the trace that the command adds. -/
def Action.Outcome.traced (outcome : Outcome Value) (name : String) (isProcedure : Bool)
    (source : String) : Outcome Value :=
  match outcome with
  | .value v => .value v
  | .raised e => .raised (e.traced name isProcedure source)

/-- The command is found in a state, and may be used there. -/
structure Command.Found (c : Command) (s : State Builtin) (command : Executable Builtin) :
    Prop where
  found : s.interp.env.command? (c.words.headD {}).text = some command
  allowed : s.interp.safe = true → command.isSafe = true

theorem Command.Found.dispatch (h : c.Found s command) {outcome : Outcome Value}
    (hrun : command.execute Builtin.run engine c.words (s.running c.words) =
      Action.conclude outcome t) :
    c.dispatch Builtin.run engine s =
      Action.conclude (outcome.traced (c.words.headD {}).text command.isProcedure c.source) t := by
  have hallowed : (s.interp.safe && !command.isSafe) = false := by
    cases hsafe : s.interp.safe with
    | false => rfl
    | true => simp [h.allowed hsafe]
  refine (bind_ok rfl).trans ((bind_ok rfl).trans ((bind_ok rfl).trans ?_))
  dsimp only
  rw [h.found]
  refine (bind_ok rfl).trans ?_
  rw [show (_ && !command.isSafe) = false from hallowed, if_neg Bool.false_ne_true]
  have hattempt := Action.attempt_of_conclude hrun
  refine (bind_ok rfl).trans ((bind_ok rfl).trans ((bind_ok hattempt).trans ?_))
  cases outcome <;> rfl

end

/-! ## Counted evaluations -/

/-- An evaluation saves the error it ends with. -/
def State.noting {κ : Type} (s : State κ) : Outcome Value → State κ
  | .raised (.error message data) =>
    { s with interp := { s.interp with
      env := (s.interp.env.assign (.inNamespace NamespaceTree.root) "errorInfo"
        (.string data.info)).assign (.inNamespace NamespaceTree.root) "errorCode" data.code
      lastError := some (.error message data) } }
  | _ => s

theorem State.withLevel_noting {κ : Type} (s : State κ) (level : Nat) (outcome : Outcome Value) :
    (s.noting outcome).withLevel level = (s.withLevel level).noting outcome := by
  cases outcome with
  | value v => rfl
  | raised e => cases e <;> rfl

section

variable {fuel room : Nat} {script : Value} {outcome : Outcome Value} {s t : State Builtin}

/-- Inside another evaluation a script ends as its commands do. -/
theorem eval_of_runNested (hlevel : 1 ≤ s.interp.level)
    (hlimit : s.interp.level + 1 ≤ s.interp.recursionLimit)
    (hrun : runNested Builtin.run (.within Builtin.run fuel room) script.text
      (s.withLevel (s.interp.level + 1)) = Action.conclude outcome t) :
    (Engine.within Builtin.run fuel (room + 1)).eval script s =
      Action.conclude outcome ((t.withLevel s.interp.level).noting outcome) := by
  have hkept : t.interp.level - 1 = s.interp.level := by
    rw [(kept_of_runNested (Action.mem_ended?_of_conclude hrun)).level]
    rfl
  have hlow : ¬ t.interp.level - 1 = 0 := by omega
  refine (bind_ok rfl).trans ?_
  rw [if_neg (Nat.not_lt.2 hlimit)]
  refine (bind_ok rfl).trans ((bind_ok rfl).trans
    ((bind_ok (Action.attempt_of_conclude (Action.inside_of_conclude hrun))).trans ?_))
  refine (bind_ok rfl).trans ((bind_ok rfl).trans ?_)
  dsimp only
  rw [if_neg hlow]
  refine (bind_ok rfl).trans ?_
  rw [← hkept]
  cases outcome with
  | value v => rfl
  | raised e => cases e <;> rfl

end

/-! ## Frames that go -/

/-- A frame in which nothing is deferred can go at once. -/
theorem Engine.drain_of_none {κ : Type} {engine : Engine κ} {s : State κ}
    (hnone : s.stack.top.deferred = []) (fuel : Nat) (outcome : Outcome Value) :
    engine.drain fuel outcome s = .ok outcome s := by
  rw [Engine.drain]
  refine (bind_ok rfl).trans ?_
  rw [show s.interp.env.stack.top.deferred = [] from hnone]
  rfl

/-- The deferred scripts of the top frame all complete normally, and so do those that are deferred
meanwhile. -/
inductive Drains (engine : Engine Builtin) : (fuel : Nat) → State Builtin → State Builtin → Prop
  | done {fuel : Nat} {s : State Builtin} :
      s.stack.top.deferred = [] → Drains engine fuel s s
  | next {fuel : Nat} {s t u : State Builtin} {script : Value} {rest : List Value} {v : Value} :
      s.stack.top.deferred = script :: rest →
      engine.eval script (s.withStack (s.stack.modifyTop fun f => { f with deferred := rest })) =
        .ok v t →
      Drains engine fuel t u → Drains engine (fuel + 1) s u

/-- The deferred scripts of the top frame complete normally, and then the frame goes. -/
def Leaves (engine : Engine Builtin) (s t : State Builtin) : Prop :=
  ∃ u, Drains engine engine.fuel s u ∧ t = (u.withResult s.interp.lastResult).withStack u.stack.pop

section

variable {engine : Engine Builtin} {frame : Frame} {script : Value} {outcome : Outcome Value}
  {s t u : State Builtin}

theorem Drains.drain {fuel : Nat} (h : Drains engine fuel s t) (outcome : Outcome Value) :
    engine.drain fuel outcome s = .ok outcome t := by
  induction h with
  | done hnone => exact Engine.drain_of_none hnone _ outcome
  | @next fuel s t u script rest v hsome hrun _ ih =>
    rw [Engine.drain]
    refine (bind_ok rfl).trans ?_
    rw [show s.interp.env.stack.top.deferred = script :: rest from hsome]
    have hvalue : engine.eval script _ = Action.conclude (.value v) t := hrun
    exact (bind_ok rfl).trans ((bind_ok (Action.attempt_of_conclude hvalue)).trans ih)

theorem Leaves.evalInFrame
    (hrun : engine.eval script (s.withStack (s.stack.push frame)) = Action.conclude outcome t)
    (h : Leaves engine t u) : engine.evalInFrame frame script s = .ok outcome u := by
  obtain ⟨w, hdrains, rfl⟩ := h
  have hattempt := Action.attempt_of_conclude hrun
  refine (bind_ok rfl).trans ((bind_ok hattempt).trans ((bind_ok ?_).trans rfl))
  exact (bind_ok rfl).trans ((bind_ok (hdrains.drain outcome)).trans rfl)

end

/-! ## Calls of procedures -/

/-- The call of a procedure: the command, the state in which it is run, what it calls with which
arguments, and how deep evaluations may nest in the body. -/
structure Procedure.Call where
  command : Command
  state : State Builtin
  procedure : Procedure
  locals : Table Value
  room : Nat

namespace Procedure.Call

variable (call : Procedure.Call) (fuel : Nat)

def name : String := (call.command.words.headD {}).text

/-- The procedure is found, takes the arguments and is within the limit. -/
structure Made : Prop where
  found : call.state.interp.env.command? call.name = some (.procedure call.procedure)
  bound : call.procedure.bind call.name call.command.words.tail = .ok call.locals
  limit : call.state.interp.level + 1 ≤ call.state.interp.recursionLimit

/-- The state in which the body starts to run. -/
def entered : State Builtin :=
  let s := call.state.running call.command.words
  (s.withStack (s.stack.push
    { storage := .own call.locals
      namespaceId := call.procedure.namespaceId
      invocation := call.command.words })).withLevel (s.interp.level + 1)

/-- Runs the body as a script. -/
def body : EStateM.Result Stop (State Builtin) Value :=
  runNested Builtin.run (.within Builtin.run fuel call.room) call.procedure.body.text call.entered

/-- Runs the call as a command. -/
def run : EStateM.Result Stop (State Builtin) Value :=
  call.command.dispatch Builtin.run (.within Builtin.run fuel (call.room + 1)) call.state

/-- The frame of the call goes, in the state in which its body has ended. -/
def Leaves (s t : State Builtin) : Prop :=
  CommandScript.Leaves (.within Builtin.run fuel (call.room + 1))
    (s.withLevel call.state.interp.level) t

variable {call fuel}

theorem run_of_body {e : Exception} {t u : State Builtin} (hmade : call.Made)
    (hlevel : 1 ≤ call.state.interp.level) (hspent : e.isSpent = false)
    (hbody : call.body fuel = .error (.raised e) t)
    (hleaves : call.Leaves fuel (t.noting (.raised e)) u) :
    call.run fuel =
      Action.conclude (e.leave.traced call.name true call.command.source) u := by
  have heval : (Engine.within Builtin.run fuel (call.room + 1)).eval call.procedure.body _ =
      Action.conclude (.raised e) _ :=
    eval_of_runNested (s := (call.state.running call.command.words).withStack _) hlevel
      hmade.limit hbody
  rw [Procedure.Call.Leaves, State.withLevel_noting] at hleaves
  refine Command.Found.dispatch ⟨hmade.found, fun _ => rfl⟩ ?_
  refine (bind_ok (congrFun (congrArg Action.ofExcept hmade.bound) _)).trans ?_
  refine (bind_ok (hleaves.evalInFrame heval)).trans ?_
  exact bind_ok (Action.checkBoundary_eq hspent)

end Procedure.Call

end CommandScript
