import CommandScript.Proofs.Standard.Data

/-!
# Commands that evaluate, under a discipline

Conditions, loops, capture of exceptions, other levels, namespaces, children and the system. Their
loops are followed round by round: each round agrees if the evaluations in it do. What a script ends
with is of the kind, as a value or in an exception, and so is what these commands make of it. With
the commands on data this makes all the standard commands (`respects_run`).
-/

namespace CommandScript.Discipline.Standard

open Action.Discipline (Agree AgreeFrom)
open CommandScript.Action (Outcome)
open CommandScript.Standard

variable {κ : Type} {D : Discipline κ} {room : Nat} {engine engine' : Engine κ} {K : Value.Kind}

theorem respects_eval : D.Respects (eval : Native κ) eval := by
  intro room engine engine' h argv _
  unfold eval
  split
  · exact h.eval _
  · exact agree_wrongArguments _ _

theorem respects_expr : D.Respects (expr : Native κ) expr := by
  intro room engine engine' h argv _
  unfold expr
  split
  · exact h.expr _
  · exact agree_wrongArguments _ _

/-! ## Conditions and loops -/

theorem agree_branches (h : D.AgreeEngine room engine engine') (branches : Branches) :
    D.Agree room (branches.run engine) (branches.run engine') := by
  induction branches with
  | test condition body otherwise ih =>
    exact (h.test condition).bind fun _ _ => Agree.ite _ (h.eval body) ih
  | final body => exact h.eval body
  | nothing => exact Agree.pure .empty
  | wrong fault => exact Agree.fail fault

theorem respects_if : D.Respects (ifCommand : Native κ) ifCommand :=
  fun _ _ _ h _ _ => agree_branches h _

theorem agree_loopBody (h : D.AgreeEngine room engine engine') (body : Value) :
    D.Agree room (loopBody engine body) (loopBody engine' body) := by
  refine (h.eval body).attempt.bind fun ended hended => ?_
  cases ended with
  | value _ => exact Agree.pure trivial
  | raised e =>
    dsimp only
    split
    · exact Agree.pure trivial
    · exact Agree.pure trivial
    · exact Agree.raise hended

theorem agree_loop (h : D.AgreeEngine room engine engine') (condition body : Value)
    {next next' : Act κ Unit} (hnext : D.Agree room next next') (fuel : Nat) :
    D.Agree room (loop engine condition body next fuel)
      (loop engine' condition body next' fuel) := by
  induction fuel with
  | zero => exact Agree.halt _
  | succ fuel ih =>
    refine (h.test condition).bind fun _ _ => Agree.ite _ ?_ (Agree.pure .empty)
    refine (agree_loopBody h body).bind fun _ _ => Agree.ite _ ?_ (Agree.pure .empty)
    exact hnext.bind fun _ _ => ih

theorem respects_while : D.Respects (whileCommand : Native κ) whileCommand := by
  intro room engine engine' h argv _
  unfold whileCommand
  rw [h.fuel]
  split
  · exact agree_loop h _ _ (Agree.pure trivial) _
  · exact agree_wrongArguments _ _

theorem respects_for : D.Respects (forCommand : Native κ) forCommand := by
  intro room engine engine' h argv _
  unfold forCommand
  rw [h.fuel]
  split
  · refine (h.eval _).bind fun _ _ => ?_
    exact agree_loop h _ _ ((h.eval _).bind fun _ _ => Agree.pure trivial) _
  · exact agree_wrongArguments _ _

theorem agree_assignEach (names : List Value) {items : List Value} (hitems : D.values.All items) :
    D.Agree room (assignEach names items : Act κ Unit) (assignEach names items) := by
  induction names generalizing items with
  | nil => exact Agree.pure trivial
  | cons name names ih =>
    have hfirst : D.values.Has (items.headD {}) := by
      cases items with
      | nil => exact .empty
      | cons v rest => exact hitems v List.mem_cons_self
    exact (agree_setVariable _ hfirst).bind fun _ _ =>
      ih fun v hv => hitems v (List.mem_of_mem_tail hv)

theorem agree_foreachFrom (h : D.AgreeEngine room engine engine') (names : List Value)
    (body : Value) (rounds : Nat) {items : List Value} (hitems : D.values.All items) :
    D.Agree room (foreachFrom engine names body rounds items)
      (foreachFrom engine' names body rounds items) := by
  induction rounds generalizing items with
  | zero => exact Agree.pure .empty
  | succ rounds ih =>
    unfold foreachFrom
    refine Agree.ite _ (Agree.pure .empty) ((agree_assignEach _ hitems).bind fun _ _ => ?_)
    refine (agree_loopBody h body).bind fun _ _ => Agree.ite _ ?_ (Agree.pure .empty)
    exact ih fun v hv => hitems v (List.mem_of_mem_drop hv)

theorem respects_foreach : D.Respects (foreachCommand : Native κ) foreachCommand := by
  intro room engine engine' h argv hargv
  unfold foreachCommand
  split
  · refine (agree_toList (hargv _ (by simp))).bind fun names _ => ?_
    refine (agree_toList (hargv _ (by simp))).bind fun items hitems => ?_
    exact Agree.ite _ (Agree.fail_bind _ _ _) (agree_foreachFrom h _ _ _ hitems)
  · exact agree_wrongArguments _ _

/-! ## Leaving -/

theorem respects_break : D.Respects (breakCommand : Native κ) breakCommand := by
  intro room engine engine' _ argv _
  unfold breakCommand
  split
  · exact Agree.raise (.plain _ .empty)
  · exact agree_wrongArguments _ _

theorem respects_continue : D.Respects (continueCommand : Native κ) continueCommand := by
  intro room engine engine' _ argv _
  unfold continueCommand
  split
  · exact Agree.raise (.plain _ .empty)
  · exact agree_wrongArguments _ _

theorem respects_exit : D.Respects (exit : Native κ) exit := by
  intro room engine engine' _ argv _
  unfold exit
  split
  · exact Agree.raise (.plain _ .empty)
  · refine (agree_toInt _).bind fun n _ => ?_
    exact Agree.ite _ (Agree.fail_bind _ _ _) (Agree.raise (.plain _ .empty))
  · exact agree_wrongArguments _ _

/-- The error code that the options of a `return` ask for is of the kind. -/
def CodeHas (K : Value.Kind) (o : ReturnOptions) : Prop := ∀ v, o.errorCode = some v → K.Has v

theorem CodeHas.add {o o' : ReturnOptions} (h : CodeHas K o) {option v : Value}
    (hv : K.Has v) (hadd : o.add option v = .ok o') : CodeHas K o' := by
  unfold ReturnOptions.add at hadd
  split at hadd
  · split at hadd <;> cases hadd
    exact h
  · split at hadd
    · split at hadd <;> cases hadd
      exact h
    · cases hadd
  · cases hadd
    intro w hw
    cases hw
    exact hv
  · cases hadd
    exact h
  · cases hadd

theorem CodeHas.parse {o o' : ReturnOptions} (h : CodeHas K o) {words : List Value}
    {v : Value} (hwords : K.All words) (hparse : o.parse words = .ok (o', v)) :
    CodeHas K o' ∧ K.Has v := by
  -- Options come in pairs, as keys and values do.
  induction words using Value.pairs?.induct generalizing o with
  | case1 => cases hparse; exact ⟨h, .empty⟩
  | case2 v => cases hparse; exact ⟨h, hwords _ List.mem_cons_self⟩
  | case3 option v rest ih =>
    obtain ⟨added, hadd, hparse⟩ := exists_of_bind_eq_ok hparse
    have hv : K.Has v := hwords v (by simp)
    exact ih (h.add hv hadd) (fun w hw => hwords w (by simp [hw])) hparse

theorem CodeHas.outcome {o : ReturnOptions} (h : CodeHas K o) {v : Value}
    (hv : K.Has v) : K.All (o.outcome v) := by
  unfold ReturnOptions.outcome
  split
  · exact Exception.Has.returnError _ _ hv h
  · exact hv
  · exact Exception.Has.plain _ .empty
  · exact Exception.Has.plain _ .empty
  · exact Exception.Has.returnWith _ _ hv
  · exact Exception.Has.returnWith _ _ hv
  · exact Exception.Has.returnWith _ _ hv

theorem respects_return : D.Respects (returnCommand : Native κ) returnCommand := by
  intro room engine engine' _ argv hargv
  unfold returnCommand
  refine .ofExcept_bind fun (options, v) hparsed => ?_
  have hempty : CodeHas D.values {} := fun _ hv => by cases hv
  obtain ⟨hoptions, hv⟩ :=
    hempty.parse (fun w hw => hargv w (List.mem_of_mem_tail hw)) hparsed
  exact Agree.conclude (hoptions.outcome hv)

theorem respects_error : D.Respects (error : Native κ) error := by
  intro room engine engine' _ argv hargv
  unfold error
  dsimp only
  split
  · exact Agree.raise (.returnError _ _ (hargv _ (by simp)) fun _ hcode => by cases hcode)
  · exact Agree.raise (.returnError _ _ (hargv _ (by simp)) fun _ hcode => by cases hcode)
  · rename_i message info code
    have hcode : D.values.Has code := hargv code (by simp)
    exact Agree.raise (.returnError _ _ (hargv _ (by simp)) fun _ h => by cases h; exact hcode)
  · exact agree_wrongArguments _ _

theorem has_returnOptions {outcome : Outcome Value} (h : K.All outcome) :
    K.Has (returnOptions outcome) := by
  have hcode : ∀ (n m : Value), K.Has n → K.Has m →
      ∀ v ∈ [Value.string "-code", n, .string "-level", m], K.Has v := by
    intro n m hn hm v hv
    simp only [List.mem_cons, List.not_mem_nil, or_false] at hv
    rcases hv with rfl | rfl | rfl | rfl
    · exact .string _
    · exact hn
    · exact .string _
    · exact hm
  cases outcome with
  | value _ => exact .list (hcode _ _ (.ofNat _) (.ofNat _))
  | raised e =>
    refine .list fun v hv => ?_
    rcases List.mem_append.1 hv with hv | hv
    · exact hcode _ _ (.ofInt _) (.ofNat _) v hv
    · split at hv
      · rename_i data hdata
        simp only [List.mem_cons, List.not_mem_nil, or_false] at hv
        rcases hv with rfl | rfl | rfl | rfl
        · exact .string _
        · exact h.code data hdata
        · exact .string _
        · exact .string _
      · cases hv

theorem agree_catchWith (h : D.AgreeEngine room engine engine') (script : Value)
    (names : List Value) :
    D.Agree room (catchWith engine script names) (catchWith engine' script names) := by
  unfold catchWith
  refine (h.eval script).attempt.bind fun outcome houtcome => ?_
  have hoptions := has_returnOptions houtcome
  -- The value and the options are stored in none, one or two variables.
  have hresult : ∀ (code : Int) {v : Value}, D.values.Has v → ∀ result : String, D.Agree room
      (do Act.setVariable result v; return .ofInt code : Act κ Value)
      (do Act.setVariable result v; return .ofInt code) :=
    fun _ _ hv _ => (agree_setVariable _ hv).bind fun _ _ => Agree.pure (.ofInt _)
  have hboth : ∀ (code : Int) {v : Value}, D.values.Has v → ∀ result options : String, D.Agree room
      (do
        Act.setVariable result v
        Act.setVariable options (returnOptions outcome)
        return .ofInt code : Act κ Value)
      (do
        Act.setVariable result v
        Act.setVariable options (returnOptions outcome)
        return .ofInt code) :=
    fun code _ hv _ options =>
      (agree_setVariable _ hv).bind fun _ _ => hresult code hoptions options
  cases outcome with
  | value v =>
    simp only [pure_bind]
    split
    · exact Agree.pure (.ofInt 0)
    · exact hresult 0 houtcome _
    · exact hboth 0 houtcome _ _
  | raised e =>
    dsimp only
    split
    · exact fun s hs => ⟨rfl, .refl hs, houtcome⟩
    · simp only [pure_bind]
      split
      · exact Agree.pure (.ofInt _)
      · exact hresult _ houtcome.value _
      · exact hboth _ houtcome.value _ _

theorem respects_catch : D.Respects (catchCommand : Native κ) catchCommand := by
  intro room engine engine' h argv _
  unfold catchCommand
  split
  · exact agree_catchWith h _ _
  · exact agree_catchWith h _ _
  · exact agree_catchWith h _ _
  · exact agree_wrongArguments _ _

/-! ## Other frames and other times -/

theorem respects_uplevel : D.Respects (uplevel : Native κ) uplevel := by
  intro room engine engine' h argv _
  unfold uplevel
  split
  · refine agree_env_bind fun s hs => ?_
    split
    · exact Agree.ofExcept_bind (fun level _ => h.evalAtLevel level _) s hs
    · exact Agree.ofExcept_bind (fun level _ => h.evalAtLevel level _) s hs
  · exact agree_wrongArguments _ _

theorem respects_defer : D.Respects (defer : Native κ) defer := by
  intro room engine engine' _ argv _
  unfold defer
  split
  · exact (agree_defer _).bind fun _ _ => Agree.pure .empty
  · exact agree_wrongArguments _ _

theorem agree_evalTimes (h : D.AgreeEngine room engine engine') (script : Value) (count : Nat) :
    D.Agree room (evalTimes engine script count) (evalTimes engine' script count) := by
  induction count with
  | zero => exact Agree.pure trivial
  | succ count ih => exact (h.eval script).bind fun _ _ => ih

theorem agree_timed (h : D.AgreeEngine room engine engine') (script : Value) (count : Nat) :
    D.Agree room (timed engine script count) (timed engine' script count) := by
  unfold timed
  refine Agree.get_bind fun s hs => (agree_evalTimes h script count).bind (fun _ _ => ?_) s hs
  exact Agree.get_bind fun t ht => .pure ht (.string _)

theorem respects_time : D.Respects (time : Native κ) time := by
  intro room engine engine' h argv _
  unfold time
  split
  · exact agree_timed h _ _
  · exact (agree_toInt _).bind fun _ _ => agree_timed h _ _
  · exact agree_wrongArguments _ _

/-! ## Namespaces and children -/

theorem agree_deleteNamespaces (paths : List Value) :
    D.Agree room (Namespaces.deleteAll paths : Act κ Unit) (Namespaces.deleteAll paths) := by
  induction paths with
  | nil => exact Agree.pure trivial
  | cons path rest ih =>
    refine Agree.bind ?_ fun _ _ => ih
    exact agree_edit fun _ _ _ => .deleteNamespaceAt

theorem respects_namespace :
    D.Respects (Namespaces.namespace : Native κ) Namespaces.namespace := by
  refine respects_ensemble ?_
  simp only [List.forall_mem_cons, List.not_mem_nil, false_implies, implies_true, and_true]
  refine ⟨?_, respects_plain fun _ => .string _, ?_, ?_, ?_, ?_, ?_, ?_⟩ <;>
    intro room engine engine' h argv _
  · unfold Namespaces.children
    split
    · exact (agree_query fun _ _ _ _ _ _ => trivial).return fun _ _ => .strings _
    · exact (agree_query fun _ _ _ _ _ _ => trivial).return fun _ _ => .strings _
    · exact agree_wrongSubArguments _ _
  · exact (agree_deleteNamespaces _).bind fun _ _ => Agree.pure .empty
  · unfold Namespaces.eval
    split
    · exact h.evalInNamespace _ _
    · exact agree_wrongSubArguments _ _
  · unfold Namespaces.exists'
    split
    · exact agree_env_bind fun s hs => .pure hs (.boolean _)
    · exact agree_wrongSubArguments _ _
  · unfold Namespaces.parent
    split
    · exact (agree_query fun _ _ _ _ => trivial).return fun _ _ => .string _
    · exact (agree_query fun _ _ _ _ => trivial).return fun _ _ => .string _
    · exact agree_wrongSubArguments _ _
  · unfold Namespaces.qualifiers
    split
    · exact Agree.pure (.string _)
    · exact agree_wrongSubArguments _ _
  · unfold Namespaces.tail
    split
    · exact Agree.pure (.string _)
    · exact agree_wrongSubArguments _ _

/-- A change of the interpreter that the discipline allows wherever it can be made. -/
theorem agree_editInterp {ε : Type} [Fault ε] {f : Interp κ → Except ε (Interp κ)}
    (h : ∀ s i, D.inv s → f s.interp = .ok i → D.Allows s { s with interp := i }) :
    D.Agree room (Children.edit f : Act κ Unit) (Children.edit f) := by
  refine agree_interp_bind fun s hs => ?_
  cases hf : f s.interp with
  | error fault => exact Agree.fail_bind fault _ _ s hs
  | ok i => exact ⟨rfl, h s i hs hf, trivial⟩

theorem agree_createChild (path : ChildPath) (safe : Bool) :
    D.Agree room (Children.edit (·.createChild path safe) : Act κ Unit)
      (Children.edit (·.createChild path safe)) :=
  agree_editInterp fun s i => D.createChild s path safe i

theorem agree_deleteChild (path : ChildPath) :
    D.Agree room (Children.edit (·.deleteChild path) : Act κ Unit)
      (Children.edit (·.deleteChild path)) :=
  agree_editInterp fun s i => D.deleteChild s path i

theorem agree_deleteChildren (paths : List Value) :
    D.Agree room (Children.deleteAll paths : Act κ Unit) (Children.deleteAll paths) := by
  induction paths with
  | nil => exact Agree.pure trivial
  | cons path rest ih =>
    exact .ofExcept_bind fun path _ => (agree_deleteChild path).bind fun _ _ => ih

theorem has_createOptions {tooMany : Children.CreateFault} {words : List Value} {safe : Bool}
    {path : Option Value} {result : Bool × Option Value} (hwords : K.All words)
    (hpath : K.All path) (h : Children.createOptions tooMany safe path words = .ok result) :
    K.All result.2 := by
  induction words generalizing safe path with
  | nil => cases h; exact hpath
  | cons arg rest ih =>
    have harg : K.Has arg := hwords arg List.mem_cons_self
    have hrest : K.All rest := fun v hv => hwords v (List.mem_cons_of_mem _ hv)
    have hsome : ∀ v : Value, K.Has v → K.All (some v) := by
      intro v hv w hw
      cases hw
      exact hv
    unfold Children.createOptions at h
    split at h
    · exact ih hrest hpath h
    · split at h
      · split at h <;> cases h
        · exact hpath
        · exact hsome _ (hrest _ List.mem_cons_self)
      · split at h
        · cases h
        · split at h
          · exact ih hrest (hsome _ harg) h
          · cases h

theorem agree_ask (path : Option Value) {answer : Interp κ → Value}
    (h : ∀ i, D.values.Has (answer i)) :
    D.Agree room (Children.ask path answer) (Children.ask path answer) := by
  unfold Children.ask
  refine .ofExcept_bind fun path _ => agree_interp_bind fun s hs => ?_
  split
  · exact .pure hs (h _)
  · exact Agree.fail _ s hs

theorem respects_interp : D.Respects (Children.interp : Native κ) Children.interp := by
  refine respects_ensemble ?_
  simp only [List.forall_mem_cons, List.not_mem_nil, false_implies, implies_true, and_true]
  refine ⟨?_, ?_, ?_, ?_, ?_, ?_⟩ <;> intro room engine engine' h argv hargv
  · unfold Children.children
    dsimp only
    split
    · exact agree_ask _ fun _ => .strings _
    · exact agree_ask _ fun _ => .strings _
    · exact agree_wrongSubArguments _ _
  · unfold Children.create
    refine Agree.ite _ (Agree.fail_bind (WrongArguments.ofWords 2 argv _) _ _) ?_
    refine .ofExcept_bind fun (safe, path) hoptions => ?_
    have hpath := has_createOptions (fun v hv => hargv v (List.mem_of_mem_drop hv))
      (fun _ hv => by cases hv) hoptions
    cases path with
    | some word =>
      refine .ofExcept_bind fun path _ => (agree_createChild path safe).bind fun _ _ => ?_
      exact Agree.pure (hpath word rfl)
    | none =>
      refine agree_interp_bind fun s hs => (agree_createChild _ safe).bind (fun _ _ => ?_) s hs
      exact Agree.pure (.string _)
  · exact (agree_deleteChildren _).bind fun _ _ => Agree.pure .empty
  · unfold Children.eval
    split
    · exact .ofExcept_bind fun path _ => agree_inChild path (h.eval _)
    · exact agree_wrongSubArguments _ _
  · unfold Children.exists'
    split
    · exact .ofExcept_bind fun path _ => agree_interp_bind fun s hs => .pure hs (.boolean _)
    · exact agree_wrongSubArguments _ _
  · unfold Children.issafe
    dsimp only
    split
    · exact agree_ask _ fun _ => .boolean _
    · exact agree_ask _ fun _ => .boolean _
    · exact agree_wrongSubArguments _ _

/-! ## The system -/

theorem respects_exec : D.Respects (exec : Native κ) exec := by
  intro room engine engine' h argv _
  unfold exec
  rw [h.fuel]
  split
  · refine Agree.get_bind fun s hs => ?_
    split
    · exact Agree.fail _ s hs
    · exact Agree.halt _ s hs
    · rename_i ran _
      refine (agree_modifyWorld (fun world => { world with files := ran.files }) s hs).bind
        fun _ t _ ht _ => ?_
      split
      · exact .pure ht.1 (.string _)
      · exact Agree.fail _ t ht.1
  · exact agree_wrongArguments _ _

theorem respects_source : D.Respects (source : Native κ) source := by
  intro room engine engine' h argv _
  unfold source
  split
  · refine Agree.get_bind fun s hs => ?_
    split
    · exact Agree.fail _ s hs
    · refine (h.eval _).attempt.bind (fun ended hended => ?_) s hs
      cases ended with
      | value v => exact Agree.pure hended
      | raised e =>
        have hpassed : e.passBoundary.Has D.values := Exception.Has.passBoundary hended
        refine (agree_checkBoundary _).bind fun _ _ => ?_
        split
        · rename_i v heq
          rw [heq] at hpassed
          exact Agree.pure hpassed.value
        · exact Agree.raise hpassed
  · exact agree_wrongArguments _ _

/-! ## All of them -/

/-- Every discipline respects every standard command, but `upvar` only if namespaces may hold all
links. -/
theorem respects_run {b : Builtin} (hb : b = .upvar → ∀ level, D.shared level) :
    D.Respects (b.run : Native κ) b.run := by
  cases b with
  | append => exact respects_append
  | array => exact respects_array
  | breakLoop => exact respects_break
  | catchError => exact respects_catch
  | concat => exact respects_concat
  | continueLoop => exact respects_continue
  | defer => exact respects_defer
  | error => exact respects_error
  | eval => exact respects_eval
  | forLoop => exact respects_for
  | foreachLoop => exact respects_foreach
  | global => exact respects_global
  | ifElse => exact respects_if
  | incr => exact respects_incr
  | interp => exact respects_interp
  | join => exact respects_join
  | lappend => exact respects_lappend
  | lindex => exact respects_lindex
  | list => exact respects_list
  | llength => exact respects_llength
  | inNamespace => exact respects_namespace
  | proc => exact respects_proc
  | rename => exact respects_rename
  | returnValue => exact respects_return
  | set => exact respects_set
  | time => exact respects_time
  | unset => exact respects_unset
  | uplevel => exact respects_uplevel
  | upvar =>
    exact fun _ engine engine' _ argv _ _ hs => agree_upvar engine engine' hs (.inr (hb rfl)) argv
  | declare => exact respects_declare
  | whileLoop => exact respects_while
  | expr => exact respects_expr
  | info => exact respects_info
  | string => exact respects_string
  | eof => exact respects_eof
  | flush => exact respects_flush
  | gets => exact respects_gets
  | puts => exact respects_puts
  | read => exact respects_read
  | seek => exact respects_seek
  | tell => exact respects_tell
  | close => exact respects_close
  | exec => exact respects_exec
  | exit => exact respects_exit
  | openFile => exact respects_open
  | source => exact respects_source

end CommandScript.Discipline.Standard
