import CommandScript.Proofs.Environment.SameVariables
import CommandScript.Proofs.Frames

/-!
# How deep evaluations nest

Counted evaluations cannot nest without end: each is a level above the one around it, and there is
no evaluation above the limit. But not all nesting is counted. Nested scripts add no level; a
child counts its levels on its own; and the deferred scripts that an exit runs start over from no
level at all. So the evaluations in progress are bounded in number just if nested scripts stand
only so many deep directly inside one another, and only so many children and exits are on the way.

* `Activation.Chain`: which evaluations can be in progress inside one another.
* `Discipline.nesting`: where a run is cut short they are such a chain.
* `Looping`: nested scripts that do nest without end.
-/

namespace CommandScript

namespace Activation

/-! ## Chains of evaluations -/

/-- Evaluations that may be in progress inside one another, outermost first, where the interpreter
of the first one is at a level and no limit is above `limit`. -/
inductive Chain (limit : Nat) : (level : Nat) → List Activation → Prop
  | nil {level : Nat} : Chain limit level []
  | nested {level : Nat} {active : List Activation} : Chain limit level active →
      Chain limit level (.nested :: active)
  | counted {level : Nat} {active : List Activation} : level < limit →
      Chain limit (level + 1) active → Chain limit level (.counted :: active)
  | exiting {level : Nat} {active : List Activation} : Chain limit level active →
      Chain limit level (.exiting :: active)
  | inChild {level inner : Nat} {active : List Activation} : Chain limit inner active →
      Chain limit level (.inChild :: active)

/-- How many exits are on the way, and how many evaluations were begun in children. -/
def restarts (active : List Activation) : Nat := active.count .exiting + active.count .inChild

/-- No more than `bound` nested scripts stand directly inside one another. -/
def BracketsWithin (bound : Nat) (active : List Activation) : Prop :=
  ¬ List.replicate (bound + 1) .nested <:+: active

instance (bound : Nat) (active : List Activation) : Decidable (BracketsWithin bound active) :=
  inferInstanceAs (Decidable (¬ _))

theorem BracketsWithin.of_infix {bound : Nat} {active part : List Activation}
    (h : BracketsWithin bound active) (hpart : part <:+: active) : BracketsWithin bound part :=
  fun hrun => h (hrun.trans hpart)

theorem BracketsWithin.le_of_infix {bound n : Nat} {active : List Activation}
    (h : BracketsWithin bound active) (hrun : List.replicate n .nested <:+: active) :
    n ≤ bound := by
  apply Nat.le_of_not_lt
  intro hlt
  refine h (List.IsInfix.trans ?_ hrun)
  refine ⟨[], List.replicate (n - (bound + 1)) .nested, ?_⟩
  rw [List.nil_append, List.replicate_append_replicate, Nat.add_sub_cancel' hlt]

theorem Chain.tail {limit level : Nat} {a : Activation} {active : List Activation}
    (h : Chain limit level (a :: active)) : ∃ inner, Chain limit inner active := by
  cases h with
  | nested h => exact ⟨_, h⟩
  | counted _ h => exact ⟨_, h⟩
  | exiting h => exact ⟨_, h⟩
  | inChild h => exact ⟨_, h⟩

theorem Chain.fromChild {limit level inner : Nat} {active : List Activation}
    (h : Chain limit inner active) : Chain limit level (fromChild active) := by
  cases active with
  | nil => exact .nil
  | cons a rest =>
    obtain ⟨_, htail⟩ := h.tail
    exact .inChild htail

theorem length_fromChild (active : List Activation) :
    (fromChild active).length = active.length := by
  cases active <;> rfl

/-- Between two restarts there are at most as many counted evaluations as the limit allows. -/
theorem Chain.countP_le {limit level : Nat} {active : List Activation}
    (h : Chain limit level active) :
    active.countP (· ≠ .nested) ≤ limit - level + restarts active * (limit + 1) := by
  induction h with
  | nil => exact Nat.zero_le _
  | nested _ ih => simpa [restarts] using ih
  | @counted level active hlevel _ ih =>
    have hrestarts : restarts (.counted :: active) = restarts active := by simp [restarts]
    rw [hrestarts, List.countP_cons_of_pos (by decide)]
    omega
  | @exiting level active _ ih =>
    have hrestarts : restarts (.exiting :: active) = restarts active + 1 := by
      simp [restarts, Nat.add_right_comm]
    rw [hrestarts, List.countP_cons_of_pos (by decide), Nat.add_mul]
    omega
  | @inChild level inner active _ ih =>
    -- The child may be at any level, so all that its limit allows is counted again.
    have hrestarts : restarts (.inChild :: active) = restarts active + 1 := by
      simp [restarts, Nat.add_assoc]
    rw [hrestarts, List.countP_cons_of_pos (by decide), Nat.add_mul]
    omega

/-- The nested scripts in front are counted apart, as the induction goes through them. -/
theorem BracketsWithin.length_le_of_replicate {bound : Nat} {active : List Activation} (front : Nat)
    (h : BracketsWithin bound (List.replicate front .nested ++ active)) :
    front + active.length + 1 ≤ (active.countP (· ≠ .nested) + 1) * (bound + 1) := by
  induction active generalizing front with
  | nil =>
    have hfront : front ≤ bound := h.le_of_infix ⟨[], [], by simp⟩
    simpa using hfront
  | cons a rest ih =>
    by_cases ha : a = .nested
    · subst ha
      have hrest := ih (front + 1) (by simpa [List.replicate_succ'] using h)
      rw [List.length_cons, List.countP_cons_of_neg (by decide)]
      omega
    · have hfront : front ≤ bound := h.le_of_infix ⟨[], a :: rest, by simp⟩
      have hrest := ih 0 (h.of_infix ⟨List.replicate front .nested ++ [a], [], by simp⟩)
      rw [List.length_cons, List.countP_cons_of_pos (by simpa using ha), Nat.add_mul _ 1]
      omega

theorem BracketsWithin.length_le {bound : Nat} {active : List Activation}
    (h : BracketsWithin bound active) :
    active.length + 1 ≤ (active.countP (· ≠ .nested) + 1) * (bound + 1) := by
  simpa using h.length_le_of_replicate 0

theorem Chain.length_le {limit level bound : Nat} {active : List Activation}
    (h : Chain limit level active) (hbrackets : BracketsWithin bound active) :
    active.length ≤ (restarts active + 1) * (limit + 1) * (bound + 1) := by
  have hcount := h.countP_le
  calc active.length
    _ ≤ (active.countP (· ≠ .nested) + 1) * (bound + 1) := Nat.le_of_succ_le hbrackets.length_le
    _ ≤ (restarts active + 1) * (limit + 1) * (bound + 1) := by
      refine Nat.mul_le_mul_right _ ?_
      rw [Nat.add_mul]
      omega

end Activation

/-! ## Limits in a tree of interpreters -/

namespace Interp

variable {κ : Type}

/-- New interpreters start with the limit 1000. -/
theorem stable_limit {installs : κ → Bool → Prop} {limit : Nat} (h : 1000 ≤ limit) :
    Stable installs fun i : Interp κ => i.recursionLimit ≤ limit where
  evolve he hi := he.recursionLimit ▸ hi
  fresh _ _ := h

theorem exists_limit (i : Interp κ) :
    ∃ limit ≥ 1000, i.Everywhere fun j => j.recursionLimit ≤ limit := by
  induction i using children_induction with
  | step i ih =>
    have hchildren : ∀ children : List (String × Interp κ), children ⊆ i.children →
        ∃ limit ≥ 1000, ∀ c ∈ children, c.2.Everywhere fun j => j.recursionLimit ≤ limit := by
      intro children hsub
      induction children with
      | nil => exact ⟨1000, Nat.le_refl _, nofun⟩
      | cons c rest ihrest =>
        obtain ⟨hc, hrest⟩ := List.cons_subset.1 hsub
        obtain ⟨m, hm, hfirst⟩ := ih c hc
        obtain ⟨n, hn, hothers⟩ := ihrest hrest
        refine ⟨max m n, by omega, fun d hd => ?_⟩
        rcases List.mem_cons.1 hd with rfl | hd
        · exact hfirst.mono fun _ h => by omega
        · exact (hothers d hd).mono fun _ h => by omega
    obtain ⟨limit, hlimit, hbelow⟩ := hchildren i.children (List.Subset.refl _)
    refine ⟨max limit i.recursionLimit, by omega, .node (Nat.le_max_right _ _) fun c hc => ?_⟩
    exact (hbelow c hc).mono fun _ h => by omega

end Interp

namespace Discipline

variable {κ : Type}

/-- A run that is cut short is as deep as it had room for, in a chain of evaluations. -/
def nesting (limit : Nat) (h : 1000 ≤ limit) : Discipline κ :=
  { keeping (fun i => i.recursionLimit ≤ limit) (Interp.stable_limit h) with
    stops := fun room s active =>
      active.length = room ∧ Activation.Chain limit s.interp.level active
    stops_of_moves := fun hmoves hstop => ⟨hstop.1, hmoves.level ▸ hstop.2⟩
    stops_of_unwinds := fun hmoves hstop => ⟨hstop.1, hmoves.level ▸ hstop.2⟩
    stopInFrame := fun _ _ _ _ _ hstop => hstop
    stopAtLevel := fun _ _ _ _ _ _ hstop => hstop
    stopInChild := fun _ _ _ _ _ _ _ hstop =>
      ⟨(Activation.length_fromChild _).trans hstop.1, hstop.2.fromChild⟩
    stopInCounted := fun _ _ _ hs hlevel hstop =>
      ⟨congrArg (· + 1) hstop.1, .counted (Nat.lt_of_lt_of_le hlevel hs.here) hstop.2⟩
    stopInExit := fun _ _ _ _ _ hstop => ⟨congrArg (· + 1) hstop.1, .exiting hstop.2⟩
    stopInNested := fun _ _ _ _ hstop => ⟨congrArg (· + 1) hstop.1, .nested hstop.2⟩
    noRoom := fun _ _ => ⟨rfl, .nil⟩ }

end Discipline

/-! ## Nested scripts without end -/

open CommandScript.Action (bind_ok bind_error attempt_outOfDepth inside_outOfDepth)

/-- The state in which a command starts to run. -/
def State.running (s : State Builtin) (words : List Value) : State Builtin where
  interp := { s.interp with
    commandCount := s.interp.commandCount + 1
    env := { s.interp.env with
      stack := s.interp.env.stack.modifyTop fun f => { f with command := words } } }
  world := s.world.tick

/-- A command that is found and allowed is cut short where what it stands for is. -/
theorem Command.dispatch_outOfDepth {engine : Engine Builtin} {c : Command}
    {command : Executable Builtin} {active : List Activation} {s t : State Builtin}
    (hfound : s.interp.env.command? (c.words.headD {}).text = some command)
    (hsafe : command.isSafe = true)
    (h : command.execute Builtin.run engine c.words (s.running c.words) =
      .error (.outOfDepth active) t) :
    c.dispatch Builtin.run engine s = .error (.outOfDepth active) t := by
  refine (bind_ok rfl).trans ((bind_ok rfl).trans ((bind_ok rfl).trans ?_))
  dsimp only
  rw [hfound]
  refine (bind_ok rfl).trans ?_
  rw [hsafe, Bool.not_true, Bool.and_false, if_neg Bool.false_ne_true]
  exact (bind_ok rfl).trans ((bind_ok rfl).trans (bind_error (attempt_outOfDepth h)))

/-- The variable `x` holds an expression that evaluates itself. -/
structure Looping (s : State Builtin) : Prop where
  expression : s.interp.env.read "x" = .ok (.string "[expr $x]")
  command : s.interp.env.command? "expr" = some (.native .expr true)

namespace Looping

variable {s t : State Builtin} {engine : Engine Builtin} {active : List Activation}

theorem running (h : Looping s) (words : List Value) : Looping (s.running words) where
  expression :=
    ((Environment.SameVariables.withCommand s.interp.env words).read "x").trans h.expression
  command := h.command

theorem words_eq : words .command "expr $x" =
    [⟨.literal, "expr", "expr", ⟨0, 1, 1⟩, ⟨4, 1, 5⟩⟩, ⟨.blank, " ", " ", ⟨4, 1, 5⟩, ⟨5, 1, 6⟩⟩,
     ⟨.varRef, "x", "$x", ⟨5, 1, 6⟩, ⟨7, 1, 8⟩⟩, ⟨.eof, "", "", ⟨7, 1, 8⟩, ⟨7, 1, 8⟩⟩] := by
  decide +kernel

theorem next (h : Looping s) :
    Builder.next engine.substitutor (words .command "expr $x") s =
      ⟨.ok (some ⟨[.string "expr", .string "[expr $x]"], "expr $x", 1⟩), [], s⟩ := by
  have hname : engine.substitutor.word ⟨.literal, "expr", "expr", ⟨0, 1, 1⟩, ⟨4, 1, 5⟩⟩ s =
      .ok (.string "expr") s := rfl
  have hread : engine.substitutor.word ⟨.varRef, "x", "$x", ⟨5, 1, 6⟩, ⟨7, 1, 8⟩⟩ s =
      .ok (.string "[expr $x]") s := by
    show Action.ofExcept (s.interp.env.read "x") s = _
    rw [h.expression]
    rfl
  rw [words_eq]
  simp only [Builder.next, Builder.nextFrom, hname, hread]
  rfl

theorem expr (h : engine.nested "expr $x" s = .error (.outOfDepth active) t) :
    engine.expr (.string "[expr $x]") s = .error (.outOfDepth active) t := by
  have hparse : Expr.parse "[expr $x]" = .ok (.script "expr $x") := rfl
  refine bind_error (bind_error (attempt_outOfDepth ?_))
  show (Action.ofExcept (Expr.parse "[expr $x]") >>= Expr.eval engine.substitutor) s = _
  rw [hparse]
  exact (bind_ok rfl).trans (bind_error h)

/-- One turn: the nested script evaluates the expression, which runs the nested script. -/
theorem runNested (engine : Engine Builtin) (h : Looping s)
    (hnested : ∀ s, Looping s → ∃ t, engine.nested "expr $x" s = .error (.outOfDepth active) t) :
    ∃ t, runNested Builtin.run engine "expr $x" s = .error (.outOfDepth active) t := by
  obtain ⟨t, ht⟩ := hnested _ (h.running [.string "expr", .string "[expr $x]"])
  refine ⟨t, ?_⟩
  show runCommands Builtin.run engine ((words .command "expr $x").length + 1)
    (words .command "expr $x") {} s = _
  unfold runCommands
  simp only [h.next]
  exact bind_error (Command.dispatch_outOfDepth h.command rfl (expr ht))

/-- Nested scripts go on inside one another as long as there is room. -/
theorem run_nested (h : Looping s) (fuel depth : Nat) :
    ∃ t, run Builtin.run fuel depth (.nested "expr $x") s =
      .error (.outOfDepth (List.replicate depth .nested)) t := by
  induction depth generalizing s with
  | zero => exact ⟨s, rfl⟩
  | succ depth ih =>
    obtain ⟨t, ht⟩ := h.runNested (.within Builtin.run fuel depth) fun s hs => ih hs
    exact ⟨t, inside_outOfDepth .nested ht⟩

theorem run_counted (h : Looping s) (hlevel : s.interp.level < s.interp.recursionLimit)
    (fuel depth : Nat) :
    ∃ t, run Builtin.run fuel (depth + 1) (.counted (.string "expr $x")) s =
      .error (.outOfDepth (.counted :: List.replicate depth .nested)) t := by
  have hbelow : Looping (s.withLevel (s.interp.level + 1)) := ⟨h.expression, h.command⟩
  obtain ⟨t, ht⟩ := hbelow.runNested (.within Builtin.run fuel depth)
    fun s hs => run_nested hs fuel depth
  refine ⟨t, (bind_ok rfl).trans ?_⟩
  rw [if_neg (by omega)]
  refine (bind_ok rfl).trans ((bind_ok rfl).trans (bind_error (attempt_outOfDepth ?_)))
  exact inside_outOfDepth .counted ht

/-- The same as a test that can be run. -/
def check (s : State Builtin) : Bool :=
  match s.interp.env.read "x", s.interp.env.command? "expr" with
  | .ok (.string text), some (.native .expr true) => text == "[expr $x]"
  | _, _ => false

theorem of_check (h : check s = true) : Looping s := by
  unfold check at h
  split at h
  · rename_i text hread hcommand
    rw [beq_iff_eq] at h
    exact ⟨h ▸ hread, hcommand⟩
  · cases h

end Looping

/-! ## How deep a script nests -/

section

open Activation

variable {limit fuel depth : Nat} {script : Value} {s : State Builtin} {active : List Activation}

/-- A script, run in a state, begins an evaluation while those listed are in progress. -/
def State.Reaches (s : State Builtin) (script : Value) (active : List Activation) : Prop :=
  ∃ fuel depth, active ∈ Action.outOfDepth? (run Builtin.run fuel depth (.counted script) s)

theorem chain_of_outOfDepth (hlimit : 1000 ≤ limit)
    (hs : s.interp.Everywhere fun i => i.recursionLimit ≤ limit)
    (h : active ∈ Action.outOfDepth? (run Builtin.run fuel depth (.counted script) s)) :
    active.length = depth ∧ Chain limit s.interp.level active := by
  obtain ⟨t, ht⟩ := Action.mem_outOfDepth?.1 h
  have hpermits : (Discipline.nesting limit hlimit).Permits Builtin.run Builtin.run :=
    Discipline.permits_standard fun _ => trivial
  have hagree := Discipline.agree_run hpermits fuel depth (.counted script)
  exact (hagree s hs).2.outOfDepth ht

/-- At its limit an interpreter refuses to evaluate a script, whatever it is. -/
theorem run_counted_of_limit (h : s.interp.recursionLimit ≤ s.interp.level) :
    run Builtin.run fuel (depth + 1) (.counted script) s =
      .error (.raised (.ofFault EvalFault.tooDeep)) s := by
  refine (Action.bind_ok rfl).trans ?_
  rw [if_pos (by omega)]
  rfl

/-- Scripts nest within a bound just if the uncounted evaluations do.

Counted evaluations alone never nest without end: with `limit` a bound for the limits of all
interpreters, those in progress are at most `limit` from one exit or child to the next, and an
evaluation that would be one too many ends in an error. Between them nested scripts may stand
directly inside one another, which nothing limits. -/
theorem nesting_bounded_iff (s : State Builtin) (script : Value) :
    (∀ limit ≥ 1000, (s.interp.Everywhere fun i => i.recursionLimit ≤ limit) →
      ∀ fuel depth brackets,
        ∀ active ∈ Action.outOfDepth? (run Builtin.run fuel depth (.counted script) s),
          active.length = depth ∧
          (BracketsWithin brackets active →
            depth ≤ (restarts active + 1) * (limit + 1) * (brackets + 1))) ∧
    ((∃ bound, ∀ active, s.Reaches script active → active.length ≤ bound) ↔
      ∃ brackets starts, ∀ active, s.Reaches script active →
        BracketsWithin brackets active ∧ restarts active ≤ starts) ∧
    (s.interp.recursionLimit ≤ s.interp.level → ∀ fuel depth,
      run Builtin.run fuel (depth + 1) (.counted script) s =
        .error (.raised (.ofFault EvalFault.tooDeep)) s) ∧
    Fault.message EvalFault.tooDeep = "too many nested calls to Interp::eval (infinite loop?)" := by
  refine ⟨?_, ⟨?_, ?_⟩, fun h fuel depth => run_counted_of_limit h, rfl⟩
  · intro limit hlimit hs fuel depth brackets active hactive
    obtain ⟨hlength, hchain⟩ := chain_of_outOfDepth hlimit hs hactive
    exact ⟨hlength, fun hbrackets => hlength ▸ hchain.length_le hbrackets⟩
  · rintro ⟨bound, hbound⟩
    refine ⟨bound, 2 * bound, fun active hactive => ⟨fun hrun => ?_, ?_⟩⟩
    · have hle := hrun.length_le
      rw [List.length_replicate] at hle
      have hlength := hbound active hactive
      omega
    · have hexits := List.count_le_length (a := Activation.exiting) (l := active)
      have hchildren := List.count_le_length (a := Activation.inChild) (l := active)
      have hlength := hbound active hactive
      unfold restarts
      omega
  · rintro ⟨brackets, starts, h⟩
    obtain ⟨limit, hlimit, hs⟩ := s.interp.exists_limit
    refine ⟨(starts + 1) * (limit + 1) * (brackets + 1), fun active hactive => ?_⟩
    obtain ⟨hbrackets, hstarts⟩ := h active hactive
    obtain ⟨fuel, depth, hactive⟩ := hactive
    calc active.length
      _ ≤ (restarts active + 1) * (limit + 1) * (brackets + 1) :=
        (chain_of_outOfDepth hlimit hs hactive).2.length_le hbrackets
      _ ≤ (starts + 1) * (limit + 1) * (brackets + 1) := by
        refine Nat.mul_le_mul_right _ (Nat.mul_le_mul_right _ ?_)
        omega

/-- A procedure that calls itself in a nested script, and the same script at the limit. -/
theorem nesting_bounded_iff_recursion :
    let script : Value := .string "proc f \x7b\x7d \x7bset y [f]\x7d; f"
    let active : List Activation := [.counted, .counted, .nested, .counted, .nested, .counted]
    (active ∈ Action.outOfDepth? (run Builtin.run 6 6 (.counted script) State.standard) ∧
      6 ≤ (restarts active + 1) * (1000 + 1) * (1 + 1)) ∧
    run Builtin.run 6 6 (.counted script) (State.standard.withLevel 1000) =
      .error (.raised (.ofFault EvalFault.tooDeep)) (State.standard.withLevel 1000) := by
  intro script active
  have hactive :
      active ∈ Action.outOfDepth? (run Builtin.run 6 6 (.counted script) State.standard) := by
    decide +kernel
  have hlimits : State.standard.interp.Everywhere fun i => i.recursionLimit ≤ 1000 :=
    .node (Nat.le_refl _) nofun
  have hbound := (nesting_bounded_iff State.standard script).1 1000 (Nat.le_refl _) hlimits
    6 6 1 active hactive
  have hrefused := (nesting_bounded_iff (State.standard.withLevel 1000) script).2.2.1
  exact ⟨⟨hactive, hbound.2 (by decide)⟩, hrefused (Nat.le_refl _) 6 5⟩

/-- Once `x` is set to an expression that evaluates itself, evaluations nest as deep as there is
room, and no error puts an end to it. -/
theorem nesting_has_no_bound :
    ∃ s ∈ Action.ended?
        (run Builtin.run 10 10 (.counted (.string "set x \x7b[expr $x]\x7d")) State.standard),
      ∀ fuel depth, .counted :: List.replicate depth .nested ∈
        Action.outOfDepth? (run Builtin.run fuel (depth + 1) (.counted (.string "expr $x")) s) := by
  have hset : (Action.ended? (run Builtin.run 10 10
      (.counted (.string "set x \x7b[expr $x]\x7d")) State.standard)).any (fun s =>
        Looping.check s && decide (s.interp.level < s.interp.recursionLimit)) = true := by
    decide +kernel
  obtain ⟨s, hs, hcheck⟩ := (Option.any_eq_true _ _).1 hset
  rw [Bool.and_eq_true, decide_eq_true_iff] at hcheck
  refine ⟨s, hs, fun fuel depth => Action.mem_outOfDepth?.2 ?_⟩
  exact (Looping.of_check hcheck.1).run_counted hcheck.2 fuel depth

end

end CommandScript
