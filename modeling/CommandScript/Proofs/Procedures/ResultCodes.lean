import CommandScript.Proofs.Procedures.Return

/-!
# Result codes of calls

A `return -code` asks for a result code of the call. Only two of the codes get there: with `ok` the
call completes, with `error` it fails. Any other code is settled at the boundary of the procedure,
where it is a stray one, so that the call fails as it would if the body had run a `break` outside of
a loop. Neither `catch` nor a loop around the call ever sees the code that was asked for.

* `Call.Completes`, `Call.Fails`: how a call ends, and what it does to a `catch` or a loop around
  it.
* `call_of_return_code`: which of them a `return -code` comes to.
-/

namespace CommandScript

open CommandScript.Action (bind_ok bind_error)
open Standard (ReturnOptions loopBody loop foreachFrom catchWith assignEach)

/-! ## Codes -/

namespace Completion

theorem ofInt_ne_exited (n status : Int) : ofInt n ≠ .exited status := by
  unfold ofInt
  split <;> exact fun h => by cases h

/-- No code that can be written makes a `return` an exit. -/
theorem ne_exited_of_ofValue {v : Value} {code : Completion} (h : ofValue v = .ok code)
    (status : Int) : code ≠ .exited status := by
  unfold ofValue at h
  split at h
  case h_6 =>
    split at h
    · cases h
      exact ofInt_ne_exited _ _
    · cases h
  all_goals
    cases h
    exact fun h => by cases h

end Completion

/-- The message of the error that a `return` with a code comes to. -/
def Standard.ReturnOptions.message (o : ReturnOptions) (v : Value) : Value :=
  match o.code with
  | .broken => .string "invoked \"break\" outside of a loop"
  | .continued => .string "invoked \"continue\" outside of a loop"
  | .other code => .string s!"unexpected result code {code}"
  | _ => v

/-- At its last boundary a code that is neither `ok` nor `return` makes an error. -/
theorem Exception.leave_last {o : ReturnOptions} {c v : Value}
    (hcode : Completion.ofValue c = .ok o.code) (hokay : o.code ≠ .okay)
    (hreturn : o.code ≠ .returned) :
    ∃ data, (returning v 1 o.code (o.data? v)).leave = .raised (error (o.message v) data) := by
  unfold ReturnOptions.message
  cases h : o.code with
  | okay => exact absurd h hokay
  | error => exact ⟨_, rfl⟩
  | returned => exact absurd h hreturn
  | broken => exact ⟨_, rfl⟩
  | continued => exact ⟨_, rfl⟩
  | exited status => exact absurd h (Completion.ne_exited_of_ofValue hcode status)
  | other code => exact ⟨_, rfl⟩

/-! ## Loops -/

section

variable {engine : Engine Builtin} {condition body : Value} {next : Act Builtin Unit}
  {names items left : List Value} {n m : Nat} {s t u : State Builtin}

/-- Rounds of a `while` or a `for` that go on, and the rounds that it may take from there. -/
inductive Rounds (engine : Engine Builtin) (condition body : Value) (next : Act Builtin Unit) :
    Nat → State Builtin → Nat → State Builtin → Prop
  | refl (n : Nat) (s : State Builtin) : Rounds engine condition body next n s n s
  | step {n m : Nat} {s t u w x : State Builtin} : engine.test condition s = .ok true t →
      loopBody engine body t = .ok true u → next u = .ok () w →
      Rounds engine condition body next n w m x → Rounds engine condition body next (n + 1) s m x

theorem Rounds.loop (h : Rounds engine condition body next n s m t) :
    loop engine condition body next n s = Standard.loop engine condition body next m t := by
  induction h with
  | refl n s => rfl
  | step htest hbody hnext _ ih =>
    rw [Standard.loop]
    refine (bind_ok htest).trans ?_
    rw [if_pos rfl]
    refine (bind_ok hbody).trans ?_
    rw [if_pos rfl]
    exact (bind_ok hnext).trans ih

/-- Rounds of a `foreach` that go on, and the elements that are left. -/
inductive ForeachRounds (engine : Engine Builtin) (names : List Value) (body : Value) :
    Nat → List Value → State Builtin → Nat → List Value → State Builtin → Prop
  | refl (n : Nat) (items : List Value) (s : State Builtin) :
      ForeachRounds engine names body n items s n items s
  | step {n m : Nat} {items left : List Value} {s t u w : State Builtin} : items ≠ [] →
      assignEach names items s = .ok () t → loopBody engine body t = .ok true u →
      ForeachRounds engine names body n (items.drop names.length) u m left w →
      ForeachRounds engine names body (n + 1) items s m left w

theorem ForeachRounds.foreachFrom (h : ForeachRounds engine names body n items s m left t) :
    foreachFrom engine names body n items s =
      Standard.foreachFrom engine names body m left t := by
  induction h with
  | refl n items s => rfl
  | step hitems hassign hbody _ ih =>
    rw [Standard.foreachFrom, if_neg (by simpa using hitems)]
    refine (bind_ok hassign).trans ((bind_ok hbody).trans ?_)
    rw [if_pos rfl]
    exact ih

/-- A body that fails makes its round fail. -/
theorem loopBody_of_error {message : Value} {data : ErrorData}
    (h : engine.eval body s = .error (.raised (.error message data)) t) :
    loopBody engine body s = .error (.raised (.error message data)) t := by
  have hraised : engine.eval body s = Action.conclude (.raised (.error message data)) t := h
  exact (bind_ok (Action.attempt_of_conclude hraised)).trans rfl

end

/-! ## What stands around a call -/

namespace Procedure.Call

variable (call : Procedure.Call) (fuel : Nat)

/-- The engine of the command around a call. -/
def around : Engine Builtin := .within Builtin.run fuel (call.room + 2)

/-- A script, evaluated in a state inside another evaluation, comes to the call; the words `rest`
stand after it. -/
structure StandsIn (script : Value) (rest : List Word) (s : State Builtin) : Prop where
  level : 1 ≤ s.interp.level
  limit : s.interp.level + 1 ≤ s.interp.recursionLimit
  comes : Comes (.within Builtin.run fuel (call.room + 1)) script.text
    (s.withLevel (s.interp.level + 1)) call.command rest call.state

/-- The call completes with a value. A `catch` of the call alone reports 0, and a loop whose body it
is goes on. -/
structure Completes (v : Value) (w : State Builtin) : Prop where
  run : call.run fuel = .ok v w
  caught {script : Value} {s : State Builtin} : call.StandsIn fuel script [] s →
    ∃ t, catchWith (call.around fuel) script [] s = .ok (.ofInt 0) t
  goesOn {body : Value} {s : State Builtin} : call.StandsIn fuel body [] s →
    ∃ t, loopBody (call.around fuel) body s = .ok true t

/-- The call fails with a message. A `catch` around it reports 1, and a loop around it fails with
the same message, in whichever round. -/
structure Fails (message : Value) (w : State Builtin) : Prop where
  run : ∃ data, call.run fuel = .error (.raised (.error message data)) w
  caught {script : Value} {rest : List Word} {s : State Builtin} :
    call.StandsIn fuel script rest s →
    ∃ t, catchWith (call.around fuel) script [] s = .ok (.ofInt 1) t
  loop {condition body : Value} {next : Act Builtin Unit} {rest : List Word} {n m : Nat}
      {s t u : State Builtin} :
    Rounds (call.around fuel) condition body next n s (m + 1) t →
    (call.around fuel).test condition t = .ok true u → call.StandsIn fuel body rest u →
    ∃ data x, loop (call.around fuel) condition body next n s =
      .error (.raised (.error message data)) x
  foreachLoop {names items left : List Value} {body : Value} {rest : List Word} {n m : Nat}
      {s t u : State Builtin} :
    ForeachRounds (call.around fuel) names body n items s (m + 1) left t → left ≠ [] →
    assignEach names left t = .ok () u → call.StandsIn fuel body rest u →
    ∃ data x, foreachFrom (call.around fuel) names body n items s =
      .error (.raised (.error message data)) x

variable {call fuel} {v message : Value} {w : State Builtin}

theorem completes_of_run (hrun : call.run fuel = .ok v w) : call.Completes fuel v w := by
  have heval {script : Value} {s : State Builtin} (h : call.StandsIn fuel script [] s) :
      ∃ t, (call.around fuel).eval script s = Action.conclude (.value v) t :=
    ⟨_, eval_of_runNested h.level h.limit (h.comes.runNested_last hrun)⟩
  refine ⟨hrun, fun h => ?_, fun h => ?_⟩
  · obtain ⟨t, ht⟩ := heval h
    exact ⟨t, (bind_ok (Action.attempt_of_conclude ht)).trans rfl⟩
  · obtain ⟨t, ht⟩ := heval h
    exact ⟨t, (bind_ok (Action.attempt_of_conclude ht)).trans rfl⟩

theorem fails_of_run {data : ErrorData}
    (hrun : call.run fuel = .error (.raised (.error message data)) w) :
    call.Fails fuel message w := by
  have heval {script : Value} {rest : List Word} {s : State Builtin}
      (h : call.StandsIn fuel script rest s) :
      ∃ t, (call.around fuel).eval script s = Action.conclude (.raised (.error message data)) t :=
    ⟨_, eval_of_runNested h.level h.limit (h.comes.runNested hrun)⟩
  refine ⟨⟨data, hrun⟩, fun h => ?_, fun hrounds htest h => ?_, fun hrounds hleft hassign h => ?_⟩
  · obtain ⟨t, ht⟩ := heval h
    exact ⟨t, (bind_ok (Action.attempt_of_conclude ht)).trans rfl⟩
  · obtain ⟨t, ht⟩ := heval h
    refine ⟨data, t, hrounds.loop.trans ?_⟩
    rw [Standard.loop]
    refine (bind_ok htest).trans ?_
    rw [if_pos rfl]
    exact bind_error (loopBody_of_error ht)
  · obtain ⟨t, ht⟩ := heval h
    refine ⟨data, t, hrounds.foreachFrom.trans ?_⟩
    rw [Standard.foreachFrom, if_neg (by simpa using hleft)]
    exact (bind_ok hassign).trans (bind_error (loopBody_of_error ht))

end Procedure.Call

namespace Procedure

variable {fuel : Nat} {o : ReturnOptions} {c v : Value} {call : Call} {t w : State Builtin}

/-- A procedure whose body runs `return -code c v` gives its call no other result codes than those
of `ok` and `error`, where the call is made inside an evaluation, as every call of a script is, at a
level of 1 at least. With `ok` the call completes with the value. With any other code it fails: with
the value as its message if the code is `error`, and else with a message that says the code is a
stray one. So a `catch` around it reports 0 or 1, a `break` does not end a loop around it and a
`continue` does not start its next round. -/
theorem call_of_return_code (h : Chain fuel o v t [call]) (hlevel : 1 ≤ call.state.interp.level)
    (hone : o.level = 1) (hcode : Completion.ofValue c = .ok o.code) (hreturn : o.code ≠ .returned)
    (hunwinds : Unwinds fuel [call] t w) :
    (o.code = .okay → call.Completes fuel v w) ∧
    (o.code ≠ .okay → call.Fails fuel (o.message v) w) := by
  have hrun := h.run_eq hlevel (Nat.lt_of_lt_of_eq Nat.zero_lt_one hone.symm) hunwinds
  rw [List.length_nil, Nat.sub_zero, hone] at hrun
  constructor
  · intro hokay
    rw [hokay] at hrun
    exact Call.completes_of_run hrun
  · intro hokay
    obtain ⟨data, hleave⟩ := Exception.leave_last hcode hokay hreturn
    obtain ⟨_, _, htraced⟩ := Exception.traced_error (o.message v) data call.name true
      call.command.source
    rw [hleave] at hrun
    exact Call.fails_of_run
      (hrun.trans (congrArg (fun e => EStateM.Result.error (Stop.raised e) w) htraced))

/-! ## A stray `break` -/

/-- In an evaluation, with a procedure `p` that asks for the result code of a `break`. -/
def strayBreak : State Builtin := (defining .standard "p" "return -code break v").withLevel 1

/-- The call of `p` in a script of its own. -/
def strayCall : Call where
  command := ⟨[.string "p"], "p", 1⟩
  state := strayBreak.withLevel 2
  procedure := { parameters := [], body := .string "return -code break v", namespaceId := 0 }
  locals := []
  room := 1

/-- The `return` in `p`. -/
def strayReturn : Command :=
  ⟨[.string "return", .string "-code", .string "break", .string "v"], "return -code break v", 1⟩

theorem chain_strayCall :
    Chain 1 { code := .broken } (.string "v") (strayCall.entered.running strayReturn.words)
      [strayCall] := by
  have hmade : strayCall.Made := ⟨rfl, rfl, by decide⟩
  have hcomes : ∃ rest, Comes (.within Builtin.run 1 strayCall.room)
      strayCall.procedure.body.text strayCall.entered strayReturn rest strayCall.entered :=
    ⟨_, _, _, .refl _ _, rfl⟩
  have hfound : strayReturn.Found strayCall.entered (.native .returnValue true) :=
    ⟨rfl, fun _ => rfl⟩
  obtain ⟨_, hcomes⟩ := hcomes
  exact .last hmade (.here hcomes hfound rfl)

theorem unwinds_strayCall :
    ∃ w, Unwinds 1 [strayCall] (strayCall.entered.running strayReturn.words) w :=
  ⟨_, .cons (.nil _) ⟨_, .done rfl, rfl⟩⟩

theorem strayCall_standsIn : strayCall.StandsIn 1 (.string "p") [] strayBreak :=
  ⟨by decide, by decide, _, _, .refl _ _, rfl⟩

theorem call_of_return_code_break :
    ∃ w, strayCall.Fails 1 (.string "invoked \"break\" outside of a loop") w := by
  obtain ⟨w, hunwinds⟩ := unwinds_strayCall
  refine ⟨w, (call_of_return_code (c := .string "break") chain_strayCall (by decide) rfl rfl ?_
    hunwinds).2 ?_⟩
  · decide
  · decide

/-- A `catch` of `p` does not report the code of `break`. -/
theorem return_code_break_lost :
    ∃ t, catchWith (strayCall.around 1) (.string "p") [] strayBreak = .ok (.ofInt 1) t ∧
      Completion.broken.toInt ≠ 1 := by
  obtain ⟨w, hunwinds⟩ := unwinds_strayCall
  have hrun := chain_strayCall.run_eq (by decide) (by decide) hunwinds
  obtain ⟨t, ht⟩ := (Call.fails_of_run hrun).caught strayCall_standsIn
  exact ⟨t, ht, by decide⟩

end Procedure

end CommandScript
