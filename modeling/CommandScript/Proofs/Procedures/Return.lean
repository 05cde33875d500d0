import CommandScript.Proofs.Procedures.Calls

/-!
# Returning through procedures

A `return` ends the body it stands in and goes up from there. It passes as many boundaries of
procedures as its `-level` says, and takes effect at the last: the call there completes with the
code and the value that were given. On the way no more commands of the bodies are run, but the
deferred scripts of each frame are, before the frame goes.

* `Returns`: a script ends with a `return`.
* `Procedure.Chain`: procedures that call one another, down to one whose body ends with a `return`.
* `Procedure.Unwinds`: their frames go, innermost first.
* `Procedure.return_passes_level_calls`: how the calls end.
-/

namespace CommandScript

open CommandScript.Action (bind_ok)
open Standard (ReturnOptions)

/-! ## Scripts that end with a `return` -/

namespace Exception

/-- A `return` that has more than one boundary to pass has one less on the other side. -/
theorem leave_returning {v : Value} {level : Nat} {next : Completion} {data : Option ErrorData}
    (h : 1 < level) :
    (returning v level next data).leave = .raised (returning v (level - 1) next data) := by
  rw [leave, passBoundary, if_neg (Nat.not_le.2 h)]

theorem isSpent_returning {v : Value} {level : Nat} {next : Completion} {data : Option ErrorData}
    (h : 1 ≤ level) : (returning v level next data).isSpent = false :=
  beq_eq_false_iff_ne.2 (Nat.one_le_iff_ne_zero.1 h)

/-- A trace changes neither the message of an error nor its code. -/
theorem traced_error (v : Value) (data : ErrorData) (name : String) (isProcedure : Bool)
    (source : String) :
    ∃ traced : ErrorData, traced.code = data.code ∧
      (error v data).traced name isProcedure source = error v traced := by
  unfold traced
  split
  · exact ⟨data, rfl, rfl⟩
  split
  · refine ⟨_, ?_, rfl⟩
    rfl
  split
  · refine ⟨_, ?_, rfl⟩
    rfl
  · exact ⟨data, rfl, rfl⟩

end Exception

namespace Standard.ReturnOptions

/-- What the error carries that a `return` with given options stands for. -/
def data (o : ReturnOptions) (v : Value) : ErrorData where
  kind := .generic
  code := o.errorCode.getD (.string "NONE")
  info := (o.errorInfo.getD v).text

def data? (o : ReturnOptions) (v : Value) : Option ErrorData :=
  if o.code = .error then some (o.data v) else none

theorem outcome_of_level {o : ReturnOptions} (hlevel : 1 ≤ o.level)
    (v : Value) : o.outcome v = .raised (.returning v o.level o.code (o.data? v)) := by
  obtain ⟨code, level, errorCode, errorInfo⟩ := o
  obtain ⟨n, rfl⟩ : ∃ n, level = n + 1 := ⟨level - 1, (Nat.sub_add_cancel hlevel).symm⟩
  cases code <;> rfl

end Standard.ReturnOptions

/-- A script ends with a `return`: it comes to one as a command of its own, or to a command around
one, such as an `if`, that ends the same way. -/
inductive Returns (engine : Engine Builtin) (script : String) (s : State Builtin)
    (o : ReturnOptions) (v : Value) : State Builtin → Prop
  | here {c : Command} {rest : List Word} {t : State Builtin} {isSafe : Bool} :
      Comes engine script s c rest t → c.Found t (.native .returnValue isSafe) →
      ReturnOptions.parse {} c.words.tail = .ok (o, v) →
      Returns engine script s o v (t.running c.words)
  | inside {t : State Builtin} {e : Exception} : o.outcome v = .raised e →
      runNested Builtin.run engine script s = .error (.raised e) t → Returns engine script s o v t

theorem Returns.runNested {engine : Engine Builtin} {script : String} {s t : State Builtin}
    {o : ReturnOptions} {v : Value} (h : Returns engine script s o v t) (hlevel : 1 ≤ o.level) :
    runNested Builtin.run engine script s =
      .error (.raised (.returning v o.level o.code (o.data? v))) t := by
  have houtcome := ReturnOptions.outcome_of_level hlevel v
  cases h with
  | @here c rest t isSafe hcomes hfound hparse =>
    refine hcomes.runNested ?_
    have hrun : Executable.execute Builtin.run engine (.native .returnValue isSafe) c.words
        (t.running c.words) = Action.conclude (o.outcome v) (t.running c.words) :=
      bind_ok (congrFun (congrArg Action.ofExcept hparse) _)
    rw [hfound.dispatch hrun, houtcome]
    rfl
  | inside hraised hrun =>
    rw [houtcome] at hraised
    cases hraised
    exact hrun

/-! ## Chains of calls -/

namespace Procedure

/-- Calls of procedures, outermost first, each a command in the body of the one before it. The body
of the last one ends with a `return`, in the state `t`. -/
inductive Chain (fuel : Nat) (o : ReturnOptions) (v : Value) (t : State Builtin) :
    List Call → Prop
  | last {call : Call} : call.Made →
      Returns (.within Builtin.run fuel call.room) call.procedure.body.text call.entered o v t →
      Chain fuel o v t [call]
  | cons {call next : Call} {calls : List Call} {rest : List Word} : call.Made →
      call.room = next.room + 1 →
      Comes (.within Builtin.run fuel call.room) call.procedure.body.text call.entered next.command
        rest next.state →
      Chain fuel o v t (next :: calls) → Chain fuel o v t (call :: next :: calls)

/-- The frames of calls go, innermost first: the deferred scripts of each complete normally, and
then it is popped. -/
inductive Unwinds (fuel : Nat) : List Call → State Builtin → State Builtin → Prop
  | nil (s : State Builtin) : Unwinds fuel [] s s
  | cons {call : Call} {calls : List Call} {s t u : State Builtin} : Unwinds fuel calls s t →
      call.Leaves fuel t u → Unwinds fuel (call :: calls) s u

namespace Chain

variable {fuel : Nat} {o : ReturnOptions} {v : Value} {call next : Call} {outer inner : List Call}
  {s t u : State Builtin}

theorem made (h : Chain fuel o v t (call :: inner)) : call.Made := by
  cases h with
  | last hmade => exact hmade
  | cons hmade => exact hmade

/-- A body runs one level above the call. -/
theorem level_next {rest : List Word}
    (h : Comes (.within Builtin.run fuel call.room) call.procedure.body.text call.entered
      next.command rest next.state) :
    next.state.interp.level = call.state.interp.level + 1 :=
  h.kept.level

/-- What ends the body of a call: the `return`, which has passed the calls inside. -/
theorem body_eq (h : Chain fuel o v t (call :: inner)) (hlevel : 1 ≤ call.state.interp.level)
    (hreach : inner.length < o.level) (hunwinds : Unwinds fuel inner t u) :
    call.body fuel =
      .error (.raised (.returning v (o.level - inner.length) o.code (o.data? v))) u := by
  induction inner generalizing call u with
  | nil =>
    cases h with
    | last _ hreturns =>
      cases hunwinds
      exact hreturns.runNested hreach
  | cons next inner ih =>
    rw [List.length_cons] at hreach ⊢
    cases h with
    | @cons _ _ _ rest _ hroom hcomes hinner =>
      cases hunwinds with
      | @cons _ _ _ w _ hunwinds hleaves =>
        have hup : 1 ≤ next.state.interp.level := by
          rw [level_next hcomes]
          omega
        have hbody := ih hinner hup (Nat.lt_of_succ_lt hreach) hunwinds
        have hrun := Call.run_of_body hinner.made hup
          (Exception.isSpent_returning (by omega)) hbody hleaves
        rw [Exception.leave_returning (by omega), Nat.sub_sub] at hrun
        rw [Call.body, hroom] at *
        exact hcomes.runNested hrun

/-- A call inside a chain is at the head of a chain, and above the level of its caller. -/
theorem suffix (h : Chain fuel o v t (outer ++ call :: inner))
    (hlevel : ∀ first ∈ (outer ++ call :: inner).head?, 1 ≤ first.state.interp.level) :
    Chain fuel o v t (call :: inner) ∧ 1 ≤ call.state.interp.level := by
  induction outer with
  | nil => exact ⟨h, hlevel call rfl⟩
  | cons first outer ih =>
    cases hrest : outer ++ call :: inner with
    | nil => simp at hrest
    | cons next calls =>
      rw [List.cons_append, hrest] at h
      rw [hrest] at ih
      cases h with
      | cons _ _ hcomes hinner =>
        refine ih hinner fun _ hnext => ?_
        cases hnext
        rw [level_next hcomes]
        omega

/-- A call ends as the `return` does that has passed the calls inside. -/
theorem run_eq (h : Chain fuel o v t (call :: inner)) (hlevel : 1 ≤ call.state.interp.level)
    (hreach : inner.length < o.level) (hunwinds : Unwinds fuel (call :: inner) t u) :
    call.run fuel =
      Action.conclude ((Exception.returning v (o.level - inner.length) o.code
        (o.data? v)).leave.traced call.name true call.command.source) u := by
  cases hunwinds with
  | cons hunwinds hleaves =>
    exact Call.run_of_body h.made hlevel (Exception.isSpent_returning (by omega))
      (h.body_eq hlevel hreach hunwinds) hleaves

end Chain

variable {fuel : Nat} {o : ReturnOptions} {v : Value} {call : Call} {outer inner : List Call}
  {t u : State Builtin}

/-- The `-level` of a `return` counts procedures exactly. The calls are made inside an evaluation,
as every call of a script is: the outermost of them at a level of 1 at least. Of the calls in
progress, the one that is as many up from the `return` as its level says, which is 1 or more,
completes with the value, or fails with the error. Those inside it are passed: the `return` goes on
from each with the levels that are left, and so it does from the outermost where there are fewer
calls. In the state reached nothing has been run since the `return` but the deferred scripts, those
of each frame before it went. -/
theorem return_passes_level_calls (h : Chain fuel o v t (outer ++ call :: inner))
    (hlevel : ∀ first ∈ (outer ++ call :: inner).head?, 1 ≤ first.state.interp.level)
    (hreach : inner.length + 1 ≤ o.level)
    (hunwinds : Unwinds fuel (call :: inner) t u) :
    (inner.length + 1 = o.level → o.code = .okay → call.run fuel = .ok v u) ∧
    (inner.length + 1 = o.level → o.code = .error →
      ∃ data : ErrorData, data.code = o.errorCode.getD (.string "NONE") ∧
        call.run fuel = .error (.raised (.error v data)) u) ∧
    (inner.length + 1 < o.level →
      call.run fuel =
        .error (.raised (.returning v (o.level - (inner.length + 1)) o.code (o.data? v))) u) := by
  obtain ⟨hchain, hlevel⟩ := h.suffix hlevel
  have hrun := hchain.run_eq hlevel hreach hunwinds
  refine ⟨fun hlast hokay => ?_, fun hlast herror => ?_, fun hpassed => ?_⟩
  · rw [hrun, ← hlast, Nat.add_sub_cancel_left, hokay]
    rfl
  · obtain ⟨data, hdata, htraced⟩ := Exception.traced_error v (o.data v) call.name true
      call.command.source
    refine ⟨data, hdata, ?_⟩
    rw [hrun, ← hlast, Nat.add_sub_cancel_left, herror, ReturnOptions.data?, if_pos herror]
    exact congrArg (fun e => EStateM.Result.error (Stop.raised e) u) htraced
  · rw [hrun, Exception.leave_returning (by omega), Nat.sub_sub]
    rfl

/-! ## A chain of two calls -/

/-- The state with one more procedure, which has no parameters. -/
def defining (s : State Builtin) (name body : String) : State Builtin :=
  s.withEnv (s.interp.env.install name
    (.procedure { parameters := [], body := .string body, namespaceId := NamespaceTree.root }))

/-- The procedure `outer` calls `inner`, which returns from both. -/
def nestedReturn : State Builtin :=
  (defining (defining .standard "inner" "return -level 2 v; set x 1") "outer"
    "inner; set y 1").withLevel 1

def outerCall : Call where
  command := ⟨[.string "outer"], "outer", 1⟩
  state := nestedReturn
  procedure := { parameters := [], body := .string "inner; set y 1", namespaceId := 0 }
  locals := []
  room := 2

def innerCall : Call where
  command := ⟨[.string "inner"], "inner", 1⟩
  state := outerCall.entered
  procedure := { parameters := [], body := .string "return -level 2 v; set x 1", namespaceId := 0 }
  locals := []
  room := 1

/-- The `return` in `inner`. -/
def innerReturn : Command :=
  ⟨[.string "return", .string "-level", .string "2", .string "v"], "return -level 2 v", 1⟩

theorem chain_outerCall :
    Chain 1 { level := 2 } (.string "v") (innerCall.entered.running innerReturn.words)
      [outerCall, innerCall] := by
  have houter : outerCall.Made := ⟨rfl, rfl, by decide⟩
  have hinner : innerCall.Made := ⟨rfl, rfl, by decide⟩
  have hcalls : ∃ rest, Comes (.within Builtin.run 1 outerCall.room)
      outerCall.procedure.body.text outerCall.entered innerCall.command rest innerCall.state :=
    ⟨_, _, _, .refl _ _, rfl⟩
  have hcomes : ∃ rest, Comes (.within Builtin.run 1 innerCall.room)
      innerCall.procedure.body.text innerCall.entered innerReturn rest innerCall.entered :=
    ⟨_, _, _, .refl _ _, rfl⟩
  have hfound : innerReturn.Found innerCall.entered (.native .returnValue true) :=
    ⟨rfl, fun _ => rfl⟩
  obtain ⟨_, hcalls⟩ := hcalls
  obtain ⟨_, hcomes⟩ := hcomes
  exact .cons houter rfl hcalls (.last hinner (.here hcomes hfound rfl))

theorem unwinds_outerCall :
    ∃ u, Unwinds 1 [outerCall, innerCall] (innerCall.entered.running innerReturn.words) u :=
  ⟨_, .cons (.cons (.nil _) ⟨_, .done rfl, rfl⟩) ⟨_, .done rfl, rfl⟩⟩

theorem return_passes_level_calls_two :
    ∃ u, Unwinds 1 [outerCall, innerCall] (innerCall.entered.running innerReturn.words) u ∧
      outerCall.run 1 = .ok (.string "v") u := by
  obtain ⟨u, hunwinds⟩ := unwinds_outerCall
  have hlevel : ∀ first ∈ [outerCall, innerCall].head?, 1 ≤ first.state.interp.level := by
    intro first hfirst
    cases hfirst
    decide
  have h := return_passes_level_calls (show Chain _ _ _ _ ([] ++ _) from chain_outerCall)
    hlevel (by decide) hunwinds
  exact ⟨u, hunwinds, h.1 rfl rfl⟩

end Procedure

end CommandScript
