import CommandScript.Proofs.Evaluation.Interp

/-!
# Evaluation under a discipline

If the commands that an interpreter may run agree under a discipline, then so do whole evaluations:
two runs, with different functions behind the commands that may not be run, do the same, and keep
to the discipline however they end.

* `AgreeEngine`: two engines do the same and keep to the discipline.
* `Respects`: a pair of commands agrees whenever the engines they call agree.
* `agree_step`: one step of the evaluator agrees over engines that do.
* `agree_run`: hence so does a run, by induction on the room it has for nested evaluations.
-/

namespace CommandScript.Discipline

open Action.Discipline (Agree AgreeFrom AgreeSubstitutor Calm)
open CommandScript.Action (Outcome)

variable {κ : Type} {D : Discipline κ} {room : Nat} {engine engine' : Engine κ}

/-- Two engines do the same and keep to the discipline. -/
structure AgreeEngine (D : Discipline κ) (room : Nat) (engine engine' : Engine κ) : Prop where
  fuel : engine.fuel = engine'.fuel
  eval : ∀ script, D.Agree room (engine.eval script) (engine'.eval script)
  nested : ∀ script, D.Agree room (engine.nested script) (engine'.nested script)

/-- Two commands do the same with words of the kind and keep to the discipline, if the engines they
call do. -/
def Respects (D : Discipline κ) (native native' : Native κ) : Prop :=
  ∀ room engine engine', D.AgreeEngine room engine engine' →
    ∀ argv : List Value, D.values.All argv →
      D.Agree room (native engine argv) (native' engine' argv)

namespace AgreeEngine

theorem substitutor (h : D.AgreeEngine room engine engine') :
    D.AgreeSubstitutor room engine.substitutor engine'.substitutor where
  resolve := agree_readVariable
  execute := h.nested

/-! ## Frames -/

theorem drain (h : D.AgreeEngine room engine engine') (fuel : Nat) {outcome : Outcome Value}
    (houtcome : D.values.All outcome) :
    D.unwinding.Agree room (engine.drain fuel outcome) (engine'.drain fuel outcome) := by
  induction fuel generalizing outcome with
  | zero =>
    unfold Engine.drain
    refine Agree.get_bind fun s hs => ?_
    split
    · exact agree_unwinding (Agree.pure houtcome) s hs
    · exact agree_unwinding (Agree.halt _) s hs
  | succ fuel ih =>
    unfold Engine.drain
    refine Agree.get_bind fun s hs => ?_
    split
    · exact agree_unwinding (Agree.pure houtcome) s hs
    · rename_i script rest hdeferred
      have htake := D.takeDeferred s script rest hs hdeferred
      refine AgreeFrom.bind ⟨rfl, htake, trivial⟩ fun _ t _ ht _ => ?_
      refine (agree_unwinding (h.eval script)).attempt.bind (fun ended hended => ?_) t ht.1
      split
      · exact ih houtcome
      · exact ih hended

theorem runDeferred (h : D.AgreeEngine room engine engine') {outcome : Outcome Value}
    (houtcome : D.values.All outcome) :
    D.unwinding.Agree room (engine.runDeferred outcome) (engine'.runDeferred outcome) := by
  unfold Engine.runDeferred
  rw [h.fuel]
  refine Agree.get_bind fun s hs => (h.drain _ houtcome).bind (fun outcome houtcome => ?_) s hs
  exact (agree_unwinding (agree_setLastResult (D.holds hs).lastResult)).bind
    fun _ _ => Agree.pure houtcome

end AgreeEngine

theorem calm_drain (engine : Engine κ) (fuel : Nat) (outcome : Outcome Value) :
    Calm (engine.drain fuel outcome) := by
  have hget : Calm (Act.env : Act κ (Environment κ)) := .of_ok fun _ => ⟨_, _, rfl⟩
  have hpure : ∀ outcome : Outcome Value, Calm (pure outcome : Act κ (Outcome Value)) :=
    fun _ => .of_ok fun _ => ⟨_, _, rfl⟩
  induction fuel generalizing outcome with
  | zero =>
    unfold Engine.drain
    refine hget.bind fun env => ?_
    split
    · exact hpure _
    · intro s e t hcut
      have hcut : EStateM.Result.error (Stop.halted _) s = .error (.raised e) t := hcut
      cases hcut
  | succ fuel ih =>
    unfold Engine.drain
    refine hget.bind fun env => ?_
    split
    · exact hpure _
    · refine Calm.bind (.of_ok fun _ => ⟨_, _, rfl⟩) fun _ => ?_
      refine (Calm.attempt _).bind fun ended => ?_
      split
      · exact ih _
      · exact ih _

theorem calm_runDeferred (engine : Engine κ) (outcome : Outcome Value) :
    Calm (engine.runDeferred outcome) := by
  refine Calm.bind (.of_ok fun _ => ⟨_, _, rfl⟩) fun i => ?_
  refine (calm_drain engine _ outcome).bind fun outcome => ?_
  exact .of_ok fun _ => ⟨_, _, rfl⟩

theorem agree_checkBoundary (outcome : Outcome Value) :
    D.Agree room (Action.checkBoundary outcome) (Action.checkBoundary outcome) :=
  Agree.ite _ (Agree.halt _) (Agree.pure trivial)

namespace AgreeEngine

theorem evalInFrame (h : D.AgreeEngine room engine engine') {frame : Frame} {s : State κ}
    (hs : D.inv s) (hframe : frame.Holds D.values (s.stack.depth + 1)) (script : Value) :
    D.AgreeFrom room s (engine.evalInFrame frame script) (engine'.evalInFrame frame script) := by
  -- The script and the deferred scripts run in the new frame.
  have hbody : D.unwinding.Agree room (Action.attempt (engine.eval script) >>= engine.runDeferred)
      (Action.attempt (engine'.eval script) >>= engine'.runDeferred) :=
    (agree_unwinding (h.eval script)).attempt.bind fun _ houtcome => h.runDeferred houtcome
  obtain ⟨heq, hends⟩ := hbody _ (D.enterFrame s frame hs hframe)
  unfold Engine.evalInFrame
  simp only [← bind_assoc (Action.attempt _)]
  refine AgreeFrom.detour (Act.modifyStack (·.push frame)) (Act.modifyStack Stack.pop)
    (s.withStack (s.stack.push frame)) (fun t => t.withStack t.stack.pop) rfl (fun _ => rfl) heq
    ((Calm.attempt _).bind (calm_runDeferred engine)) (fun _ t hrun => ?_)
    (fun active _ hrun => D.stopInFrame room s frame active hs (hends.outOfDepth hrun))
    fun _ houtcome => Agree.pure houtcome
  obtain ⟨⟨ht, hmoved⟩, houtcome⟩ := hends.ok hrun
  exact ⟨D.leaveFrame s frame t hs ht hmoved, houtcome⟩

theorem call (h : D.AgreeEngine room engine engine') {p : Procedure} (hp : p.Has D.values)
    {words : List Value} (hwords : D.values.All words) :
    D.Agree room (engine.call p words) (engine'.call p words) := by
  unfold Engine.call
  refine .ofExcept_bind fun locals hlocals s hs => ?_
  have hlocals := hp.bind (fun v hv => hwords v (List.mem_of_mem_tail hv)) hlocals
  refine (h.evalInFrame hs ⟨fun vars hvars e he => ?_, fun v hv => hwords v hv, fun _ hv => ?_⟩
    p.body).bind fun outcome t _ ht houtcome => ?_
  · cases hvars
    exact .value (hlocals e he)
  · cases hv
  · exact (agree_checkBoundary outcome).bind
      (fun _ _ => Agree.conclude (Value.Kind.all_leave houtcome)) t ht.1

theorem evalInNamespace (h : D.AgreeEngine room engine engine') (path : String) (script : Value) :
    D.Agree room (engine.evalInNamespace path script) (engine'.evalInNamespace path script) := by
  unfold Engine.evalInNamespace
  refine agree_env_bind fun s hs => ?_
  have hedit := D.edit s _ hs (.ensure s.interp.env s.interp.env.current path)
  refine AgreeFrom.bind ⟨rfl, hedit, trivial⟩ fun _ t _ ht _ => ?_
  refine (h.evalInFrame ht.1 ⟨fun _ hvars => ?_, (D.holds hs).env.stack.top.command, fun _ hv => ?_⟩
    script).bind fun outcome u _ hu houtcome => Agree.conclude houtcome u hu.1
  · cases hvars
  · cases hv

theorem evalAtLevel (h : D.AgreeEngine room engine engine') (level : Nat) (script : Value) :
    D.Agree room (engine.evalAtLevel level script) (engine'.evalAtLevel level script) := by
  unfold Engine.evalAtLevel
  refine agree_env_bind fun s hs => ?_
  dsimp only
  split
  · exact Agree.fail_bind _ _ _ s hs
  · rename_i hlevel
    have hlevel : level ≤ s.stack.depth := Nat.not_lt.1 hlevel
    obtain ⟨heq, hends⟩ := (h.eval script).attempt _ (D.enterLevel s level hs hlevel)
    refine AgreeFrom.detour (Act.modifyStack (·.upTo level)) _
      (s.withStack (s.stack.upTo level)) (s.fromLevel level (s.stack.frame level).command) rfl
      (fun _ => rfl) heq (Calm.attempt _) (fun _ t hrun => ?_)
      (fun active _ hrun => D.stopAtLevel room s level active hs hlevel (hends.outOfDepth hrun))
      fun _ houtcome => Agree.conclude houtcome
    have hcommand := (D.holds hs).env.stack.has_command level
    exact (hends.ok hrun).imp_left (D.leaveLevel s level _ t hs hlevel hcommand)

/-! ## Expressions -/

theorem operand (h : D.AgreeEngine room engine engine') (expression : Value) :
    D.Agree room (engine.operand expression) (engine'.operand expression) := by
  unfold Engine.operand
  refine (h.substitutor.evalText expression.text).attempt.bind fun ended hended => ?_
  split
  · exact Agree.pure trivial
  · exact (agree_recordError hended).bind fun _ _ => Agree.raise hended

theorem expr (h : D.AgreeEngine room engine engine') (expression : Value) :
    D.Agree room (engine.expr expression) (engine'.expr expression) :=
  (h.operand expression).return fun x _ => .operand x

theorem test (h : D.AgreeEngine room engine engine') (expression : Value) :
    D.Agree room (engine.test expression) (engine'.test expression) :=
  (h.operand expression).return fun _ _ => trivial

end AgreeEngine

end CommandScript.Discipline

namespace CommandScript

open CommandScript.Action (Outcome)

section

variable {κ : Type} (ops : κ → Native κ) (engine : Engine κ)

/-- Runs a command that was built, and then the rest of its script. -/
def runBuilt (fuel : Nat) (command : Command) (rest : List Word) : Act κ Value := do
  let result ← command.dispatch ops engine
  Act.modifyInterp fun i => { i with lastResult := result }
  runCommands ops engine fuel rest result

/-- Records an error, and ends with the outcome. -/
def concludeNoting (outcome : Outcome Value) : Act κ Value :=
  match outcome with
  | .raised (.error message data) => do
    Act.recordError (.error message data)
    Action.conclude outcome
  | _ => Action.conclude outcome

/-- What a counted evaluation does once its script has ended. -/
def afterCounted (outcome : Outcome Value) : Act κ Value := do
  let outcome ← if (← Act.interp).level = 0 then settleOutermost engine outcome else pure outcome
  concludeNoting outcome

end

namespace Discipline

open Action.Discipline (Agree AgreeFrom AgreeSubstitutor Calm)

variable {κ : Type} {D : Discipline κ} {room : Nat} {engine engine' : Engine κ}
  {ops ops' : κ → Native κ}

/-! ## Commands -/

/-- The functions behind every command that an interpreter may run respect the discipline. -/
def Permits (D : Discipline κ) (ops ops' : κ → Native κ) : Prop :=
  ∀ s, D.inv s → ∀ name command, s.interp.env.command? name = some command →
    (s.interp.safe = true → command.isSafe = true) →
      ∀ key, command.key? = some key → D.Respects (ops key) (ops' key)

theorem agree_execute (h : D.AgreeEngine room engine engine') {command : Executable κ}
    (hkey : ∀ key, command.key? = some key → D.Respects (ops key) (ops' key))
    (hprocedure : ∀ p, command = .procedure p → p.Has D.values) {words : List Value}
    (hwords : D.values.All words) :
    D.Agree room (command.execute ops engine words) (command.execute ops' engine' words) := by
  cases command with
  | native key safe => exact hkey key rfl _ _ _ h words hwords
  | closure key safe => exact hkey key rfl _ _ _ h words hwords
  | procedure p => exact h.call (hprocedure p rfl) hwords

theorem agree_invoke (h : D.AgreeEngine room engine engine') (hops : D.Permits ops ops')
    {s : State κ} (hs : D.inv s) (c : Command) (name : String) {found : String}
    {command : Executable κ} (hfound : s.interp.env.command? found = some command)
    {words : List Value} (hwords : D.values.All words) :
    D.AgreeFrom room s (c.invoke ops engine name command words)
      (c.invoke ops' engine' name command words) := by
  unfold Command.invoke
  refine agreeFrom_interp_bind ?_
  dsimp only
  split
  · exact Agree.fail_bind _ _ _ s hs
  · rename_i hallowed
    have hallowed : s.interp.safe = true → command.isSafe = true := by
      intro hsafe
      simpa [hsafe] using hallowed
    have hexecute := agree_execute h (hops s hs found command hfound hallowed)
      (fun p hp => (D.holds hs).env.has_command (hp ▸ hfound)) hwords
    refine Agree.bind ?_ (fun _ _ => ?_) s hs
    · exact agree_modifyEnv fun env _ => .running env hwords
    · refine hexecute.attempt.bind fun ended hended => ?_
      split
      · exact Agree.pure hended
      · exact Agree.raise (hended.traced _ _ _)

theorem agree_dispatch (h : D.AgreeEngine room engine engine') (hops : D.Permits ops ops')
    {c : Command} (hc : D.values.All c.words) :
    D.Agree room (c.dispatch ops engine) (c.dispatch ops' engine') := by
  have hcount : D.Agree room
      (Act.modifyInterp fun i => { i with commandCount := i.commandCount + 1 } : Act κ Unit)
      (Act.modifyInterp fun i => { i with commandCount := i.commandCount + 1 }) :=
    agree_modify fun s hs => allows_keep hs _ _ _
  have hunknown : D.values.All (Value.string "unknown" :: c.words) :=
    List.forall_mem_cons.2 ⟨.string _, hc⟩
  unfold Command.dispatch
  refine hcount.bind fun _ _ => (agree_modifyWorld World.tick).bind fun _ _ => ?_
  refine agree_env_bind fun s hs => ?_
  split
  · rename_i command hfound
    exact agree_invoke h hops hs c _ hfound hc
  · split
    · rename_i handler hfound
      exact agree_invoke h hops hs c _ hfound hunknown
    · exact Agree.fail _ s hs

theorem agree_runCommands (h : D.AgreeEngine room engine engine') (hops : D.Permits ops ops')
    (fuel : Nat) (script : List Word) {result : Value} (hresult : D.values.Has result) :
    D.Agree room (runCommands ops engine fuel script result)
      (runCommands ops' engine' fuel script result) := by
  induction fuel generalizing script result with
  | zero => exact Agree.halt _
  | succ fuel ih =>
    intro s hs
    obtain ⟨heq, hbuilt⟩ := h.substitutor.nextFrom .empty script hs
    have heq : Builder.next engine.substitutor script s =
        Builder.next engine'.substitutor script s := heq
    unfold AgreeFrom runCommands
    rw [← heq]
    change AgreeSubstitutor.BuiltEnds _ _ _ (Builder.next engine.substitutor script s) at hbuilt
    revert hbuilt
    rcases Builder.next engine.substitutor script s with ⟨_ | _ | command, rest, t⟩
    · intro hbuilt
      rename_i stop
      refine ⟨rfl, ?_⟩
      cases stop <;> exact hbuilt
    · exact fun hbuilt => ⟨rfl, hbuilt.1, hresult⟩
    · intro hbuilt
      have hnext : D.Agree room (runBuilt ops engine fuel command rest)
          (runBuilt ops' engine' fuel command rest) :=
        (agree_dispatch h hops (hbuilt.2 command rfl)).bind fun v hv =>
          (agree_setLastResult hv).bind fun _ _ => ih rest hv
      obtain ⟨hrun, hends⟩ := hnext t hbuilt.1.1
      exact ⟨hrun, hends.of_moves hbuilt.1.2⟩

theorem agree_runNested (h : D.AgreeEngine room engine engine') (hops : D.Permits ops ops')
    (script : String) :
    D.Agree room (runNested ops engine script) (runNested ops' engine' script) :=
  agree_runCommands h hops _ _ .empty

/-! ## Counted evaluations -/

theorem agree_settleOutermost (h : D.AgreeEngine room engine engine') {outcome : Outcome Value}
    (houtcome : D.values.All outcome) {s : State κ} (hs : D.inv s) (hlevel : s.interp.level = 0) :
    D.AgreeFrom (room + 1) s (settleOutermost engine outcome)
      (settleOutermost engine' outcome) := by
  have hleft := Value.Kind.all_leave houtcome
  unfold settleOutermost
  refine (agree_checkBoundary outcome s hs).bind fun _ t hchecked _ _ => ?_
  cases (Action.checkBoundary_ok hchecked).2
  split
  · rename_i hexit
    rw [hexit] at hleft
    refine AgreeFrom.inside ?_ fun active => D.stopInExit room s active hs hlevel
    exact (h.runDeferred hleft s hs).mono rfl
      (fun t ht => ⟨ht.1, D.leaveExit s t hs hlevel ht.1 ht.2⟩) fun _ hstop => hstop
  · exact Agree.pure hleft s hs

theorem agree_concludeNoting {outcome : Outcome Value} (houtcome : D.values.All outcome) :
    D.Agree room (concludeNoting outcome) (concludeNoting outcome) := by
  unfold concludeNoting
  split
  · exact (agree_recordError houtcome).bind fun _ _ => Agree.conclude houtcome
  · exact Agree.conclude houtcome

theorem agree_afterCounted (h : D.AgreeEngine room engine engine') {outcome : Outcome Value}
    (houtcome : D.values.All outcome) :
    D.Agree (room + 1) (afterCounted engine outcome) (afterCounted engine' outcome) := by
  refine agree_interp_bind fun s hs => ?_
  split
  · rename_i hlevel
    exact (agree_settleOutermost h houtcome hs hlevel).bind fun outcome t _ ht houtcome =>
      agree_concludeNoting houtcome t ht.1
  · exact (Agree.pure houtcome).bind (fun _ => agree_concludeNoting) s hs

theorem agree_runCounted (h : D.AgreeEngine room engine engine') (hops : D.Permits ops ops')
    (script : Value) :
    D.Agree (room + 1) (runCounted ops engine script) (runCounted ops' engine' script) := by
  unfold runCounted
  refine agree_interp_bind fun s hs => ?_
  dsimp only
  split
  · exact Agree.fail_bind _ _ _ s hs
  · rename_i hlimit
    have hlimit : s.interp.level + 1 ≤ s.interp.recursionLimit := Nat.not_lt.1 hlimit
    obtain ⟨heq, hended, hstopped⟩ := AgreeFrom.attempt_inside
      (agree_runNested h hops script.text _ (D.enterCounted s hs hlimit)) .counted
    refine AgreeFrom.detour _ _ (s.withLevel (s.interp.level + 1))
      (fun t => t.withLevel (t.interp.level - 1)) rfl (fun _ => rfl) heq (Calm.attempt _)
      (fun _ t hrun => (hended _ t hrun).imp_left (D.leaveCounted s t hs hlimit)) ?_
      fun _ houtcome => agree_afterCounted h houtcome
    intro active t hrun
    obtain ⟨inner, rfl, hinner⟩ := hstopped active t hrun
    exact D.stopInCounted room s inner hs hlimit hinner

/-! ## Runs -/

theorem agree_step (h : D.AgreeEngine room engine engine') (hops : D.Permits ops ops')
    (request : Request) :
    D.Agree (room + 1) (step ops engine request) (step ops' engine' request) := by
  cases request with
  | counted script => exact agree_runCounted h hops script
  | nested script =>
    intro s hs
    exact (agree_runNested h hops script s hs).inside fun active => D.stopInNested room s active hs

theorem agree_run (hops : D.Permits ops ops') (fuel depth : Nat) (request : Request) :
    D.Agree depth (run ops fuel depth request) (run ops' fuel depth request) := by
  induction depth generalizing request with
  | zero => exact fun s hs => ⟨rfl, D.noRoom s hs⟩
  | succ depth ih =>
    have hengine : D.AgreeEngine depth (Engine.within ops fuel depth)
        (Engine.within ops' fuel depth) :=
      ⟨rfl, fun script => ih (.counted script), fun script => ih (.nested script)⟩
    exact agree_step hengine hops request

theorem agreeEngine_within (hops : D.Permits ops ops') (fuel depth : Nat) :
    D.AgreeEngine depth (Engine.within ops fuel depth) (Engine.within ops' fuel depth) :=
  ⟨rfl, fun script => agree_run hops fuel depth (.counted script),
    fun script => agree_run hops fuel depth (.nested script)⟩

end Discipline

end CommandScript
