import CommandScript.Proofs.Evaluation.Run
import CommandScript.Standard.Builtin

/-!
# Commands on data under a discipline

Commands that evaluate nothing: those on variables, arrays, lists, strings, definitions and
channels. They read the interpreter, edit its environment and change records, and given words of the
kind each hands on data of the kind. Links are made by `global`, `variable` and `upvar` only: those
of `global` lead to depth 0, those of `variable` stand in a procedure's own variables, and those of
`upvar` lead to any depth, also in the variables of a namespace.

* `agree_upvar`: `upvar` keeps to a discipline in a procedure's frame, and elsewhere if namespaces
  may hold all links.
-/

namespace CommandScript.Discipline

open Action.Discipline (Agree AgreeFrom)

variable {κ α : Type} [Data α] {D : Discipline κ} {room : Nat}

theorem agree_wrongArguments (argv : List Value) (usage : String) :
    D.Agree room (wrongArguments argv usage : Act κ α) (wrongArguments argv usage) := Agree.fail _

theorem agree_wrongSubArguments (argv : List Value) (usage : String) :
    D.Agree room (wrongSubArguments argv usage : Act κ α) (wrongSubArguments argv usage) :=
  Agree.fail _

/-- A command that is a table of commands respects what they all respect. -/
theorem respects_ensemble {table : Table (Native κ)} (h : ∀ e ∈ table, D.Respects e.2 e.2) :
    D.Respects (ensemble table) (ensemble table) := by
  intro room engine engine' hengine argv hargv
  unfold ensemble
  split
  · rename_i name _
    unfold findSubcommand
    cases hfound : table.get? name.text with
    | none => exact Agree.fail_bind _ _ _
    | some native =>
      exact fun s hs => h _ (Table.mem_of_get? hfound) room engine engine' hengine _ hargv s hs
  · exact agree_wrongArguments _ _

namespace Standard

open CommandScript.Standard

theorem agree_toList {v : Value} (hv : D.values.Has v) :
    D.Agree room (Action.ofExcept v.toList : Act κ (List Value)) (Action.ofExcept v.toList) :=
  Agree.ofExcept fun _ hitems => hv.toList hitems

theorem agree_toInt (v : Value) :
    D.Agree room (Action.ofExcept v.toInt : Act κ Int64) (Action.ofExcept v.toInt) :=
  Agree.ofExcept fun _ _ => trivial

theorem agree_checked (n : Int) :
    D.Agree room (Action.checked n : Act κ Int) (Action.checked n) :=
  Agree.ite _ (Agree.pure trivial) (Agree.halt _)

theorem agree_parseIndex (index : Value) (length : Nat) :
    D.Agree room (parseIndex index length : Act κ Int) (parseIndex index length) := by
  unfold parseIndex
  dsimp only
  split
  · exact Agree.pure trivial
  · refine Agree.ite _ (Agree.halt _) ?_
    split
    · exact agree_checked _
    · exact agree_checked _
    · exact Agree.fail _
  · split
    · exact Agree.pure trivial
    · exact Agree.fail _

/-! ## Variables -/

theorem agree_readOr (name : String) {absent : α} (habsent : D.values.All absent)
    {convert : Value → Act κ α}
    (h : ∀ v : Value, D.values.Has v → D.Agree room (convert v) (convert v)) :
    D.Agree room (readOr name absent convert) (readOr name absent convert) := by
  refine agree_env_bind fun s hs => ?_
  split
  · exact (agree_readVariable name).bind h s hs
  · exact .pure hs habsent

theorem respects_set : D.Respects (setCommand : Native κ) setCommand := by
  intro room engine engine' _ argv hargv
  unfold setCommand
  split
  · exact agree_readVariable _
  · rename_i v
    have hv : D.values.Has v := hargv v (by simp)
    exact (agree_setVariable _ hv).bind fun _ _ => Agree.pure hv
  · exact agree_wrongArguments _ _

theorem agree_unsetAll (complain : Bool) (names : List Value) :
    D.Agree room (unsetAll complain names : Act κ Unit) (unsetAll complain names) := by
  induction names with
  | nil => exact Agree.pure trivial
  | cons name rest ih =>
    unfold unsetAll
    refine agree_env_bind fun s hs => ?_
    split
    · rename_i env hunset
      have hedit := D.edit s env hs (.unset (D.holds hs).env hunset)
      exact AgreeFrom.bind ⟨rfl, hedit, trivial⟩ fun _ t _ ht _ => ih t ht.1
    · split
      · exact Agree.fail_bind _ _ _ s hs
      · exact ih s hs

theorem respects_unset : D.Respects (unset : Native κ) unset :=
  fun _ _ _ _ _ _ => (agree_unsetAll _ _).bind fun _ _ => Agree.pure .empty

theorem agree_incrBy (name : String) (increment : Int64) :
    D.Agree room (incrBy name increment : Act κ Value) (incrBy name increment) := by
  unfold incrBy
  refine (agree_readOr name trivial fun v _ => agree_toInt v).bind fun current _ => ?_
  refine Agree.ite _ (Agree.fail_bind _ _ _) ?_
  exact (agree_setVariable _ (.ofInt _)).bind fun _ _ => Agree.pure (.ofInt _)

theorem respects_incr : D.Respects (incr : Native κ) incr := by
  intro room engine engine' _ argv _
  unfold incr
  split
  · exact agree_incrBy _ _
  · exact (agree_toInt _).bind fun _ _ => agree_incrBy _ _
  · exact agree_wrongArguments _ _

theorem respects_append : D.Respects (append : Native κ) append := by
  intro room engine engine' _ argv _
  unfold append
  split
  · refine (agree_readOr _ trivial fun _ _ => Agree.pure trivial).bind fun text _ => ?_
    exact (agree_setVariable _ (.string _)).bind fun _ _ => Agree.pure (.string _)
  · exact agree_wrongArguments _ _

theorem agree_globals (names : List Value) :
    D.Agree room (globals names : Act κ Unit) (globals names) := by
  induction names with
  | nil => exact Agree.pure trivial
  | cons name rest ih =>
    refine Agree.bind ?_ fun _ _ => ih
    exact agree_edit fun _ _ _ => .linkGlobal D.shared_zero

theorem respects_global : D.Respects (global : Native κ) global :=
  fun _ _ _ _ _ _ => (agree_globals _).bind fun _ _ => Agree.pure .empty

/-- The first link leaves the frame what it is, so the next ones may be made there too. -/
theorem agree_linkPairs (argv : List Value) (usage : String) (level : Nat) (names : List Value)
    {s : State κ} (hs : D.inv s)
    (hlevel : s.stack.top.isOwn = true ∨ D.shared level) :
    D.AgreeFrom room s (linkPairs argv usage level names : Act κ Unit)
      (linkPairs argv usage level names) := by
  fun_induction linkPairs (κ := κ) argv usage level names generalizing s with
  | case1 => exact .pure hs trivial
  | case2 => exact agree_wrongArguments _ _ s hs
  | case3 target name rest ih =>
    refine (agreeFrom_edit hs fun _ hf => .link hlevel hf).bind fun _ t hlinked ht _ => ih ht.1 ?_
    obtain ⟨env, hf, rfl⟩ := Act.edit_ok hlinked
    have hshape : env.stack.shape = s.stack.shape :=
      (Environment.Edit.link (K := .any) hlevel hf).stack_shape
    rwa [show (s.withEnv env).stack.top.isOwn = _ from Stack.isOwn_top_of_shape hshape]

theorem agree_upvar (engine engine' : Engine κ) {s : State κ} (hs : D.inv s)
    (hlevel : s.stack.top.isOwn = true ∨ ∀ level, D.shared level) (argv : List Value) :
    D.AgreeFrom room s (upvar engine argv) (upvar engine' argv) := by
  have hpairs : ∀ usage level names, D.AgreeFrom room s
      (linkPairs argv usage level names >>= fun _ => return {} : Act κ Value)
      (linkPairs argv usage level names >>= fun _ => return {}) := fun usage level names =>
    (agree_linkPairs argv usage level names hs (hlevel.imp_right (· level))).bind
      fun _ t _ ht _ => .pure ht.1 .empty
  have hchecked : ∀ usage level (names : List Value), D.AgreeFrom room s
      (do
        if names.length % 2 != 0 then wrongArguments argv usage
        linkPairs argv usage level names
        return {} : Act κ Value)
      (do
        if names.length % 2 != 0 then wrongArguments argv usage
        linkPairs argv usage level names
        return {}) := by
    intro usage level names
    dsimp only
    split
    · exact Agree.fail_bind _ _ _ s hs
    · exact hpairs usage level names
  unfold upvar
  split
  · rename_i first second rest
    dsimp only
    refine agreeFrom_env_bind ?_
    split
    · cases hparsed : Name.parseLevel first.text s.interp.env.depth with
      | error fault => exact Agree.fail_bind fault _ _ s hs
      | ok level => exact hchecked _ level _
    · exact hchecked _ _ _
  · exact agree_wrongArguments _ _ s hs

theorem agree_declarePairs {names : List Value} (hnames : D.values.All names) :
    D.Agree room (declarePairs names : Act κ Unit) (declarePairs names) := by
  fun_induction declarePairs (κ := κ) names with
  | case1 => exact Agree.pure trivial
  | case2 name => exact agree_declareVariable _ fun _ hv => by cases hv
  | case3 name v rest ih =>
    have hv : D.values.Has v := hnames v (by simp)
    refine (agree_declareVariable _ fun w hw => ?_).bind fun _ _ =>
      ih fun w hw => hnames w (by simp [hw])
    cases hw
    exact hv

theorem respects_declare : D.Respects (declare : Native κ) declare := by
  intro room engine engine' _ argv hargv
  unfold declare
  split
  · exact (agree_declarePairs fun v hv => hargv v (List.mem_cons_of_mem _ hv)).bind
      fun _ _ => Agree.pure .empty
  · exact agree_wrongArguments _ _

/-! ## Arrays -/

theorem respects_array : D.Respects (Arrays.array : Native κ) Arrays.array := by
  refine respects_ensemble ?_
  simp only [List.forall_mem_cons, List.not_mem_nil, false_implies, implies_true, and_true]
  refine ⟨?_, ?_, ?_, ?_, ?_, ?_⟩ <;> intro room engine engine' _ argv hargv
  · unfold Arrays.exists'
    split
    · exact agree_env_bind fun s hs => .pure hs (.boolean _)
    · exact agree_wrongSubArguments _ _
  · unfold Arrays.get
    split
    · refine agree_env_bind fun s hs => .pure hs (.list ?_)
      exact .flatten ((D.holds hs).env.has_arrayEntries _)
    · exact agree_wrongSubArguments _ _
  · unfold Arrays.names
    split
    · exact agree_env_bind fun s hs => .pure hs (.strings _)
    · exact agree_wrongSubArguments _ _
  · unfold Arrays.set
    split
    · rename_i entries
      refine (agree_toList (hargv entries (by simp))).bind fun items hitems => ?_
      refine Agree.bind ?_ fun _ _ => Agree.pure .empty
      exact agree_editAll (fun _ henv => .setArray henv _ hitems) fun _ _ _ => trivial
    · exact agree_wrongSubArguments _ _
  · unfold Arrays.size
    split
    · exact agree_env_bind fun s hs => .pure hs (.ofNat _)
    · exact agree_wrongSubArguments _ _
  · unfold Arrays.unset
    split
    · refine Agree.bind ?_ fun _ _ => Agree.pure .empty
      exact agree_modifyEnv fun _ henv => .unsetArray henv _
    · refine agree_env_bind fun s hs => ?_
      split
      · refine AgreeFrom.bind ?_ fun _ t _ ht _ => .pure ht.1 .empty
        exact agreeFrom_edit hs fun _ hf => .unset (D.holds hs).env hf
      · exact .pure hs .empty
    · exact agree_wrongSubArguments _ _

/-! ## Lists -/

theorem respects_list : D.Respects (list : Native κ) list :=
  fun _ _ _ _ _ hargv => Agree.pure (.list fun v hv => hargv v (List.mem_of_mem_tail hv))

theorem respects_concat : D.Respects (concat : Native κ) concat :=
  fun _ _ _ _ _ _ => Agree.pure (.string _)

theorem respects_llength : D.Respects (llength : Native κ) llength := by
  intro room engine engine' _ argv hargv
  unfold llength
  split
  · exact (agree_toList (hargv _ (by simp))).return fun _ _ => .ofNat _
  · exact agree_wrongArguments _ _

theorem agree_element {v : Value} (hv : D.values.Has v) (indices : List Value) :
    D.Agree room (element v indices : Act κ Value) (element v indices) := by
  induction indices generalizing v with
  | nil => exact Agree.pure hv
  | cons index rest ih =>
    unfold element
    refine (agree_toList hv).bind fun items hitems => (agree_parseIndex _ _).bind fun i _ => ?_
    cases hfound : i.toNat?.bind (items[·]?) with
    | none => exact Agree.pure .empty
    | some w =>
      obtain ⟨n, _, hget⟩ := Option.bind_eq_some_iff.1 hfound
      exact ih (hitems w (List.mem_of_getElem? hget))

theorem respects_lindex : D.Respects (lindex : Native κ) lindex := by
  intro room engine engine' _ argv hargv
  unfold lindex
  split
  · exact agree_element (hargv _ (by simp)) _
  · exact agree_wrongArguments _ _

theorem respects_lappend : D.Respects (lappend : Native κ) lappend := by
  intro room engine engine' _ argv hargv
  unfold lappend
  split
  · rename_i name new
    have hempty : D.values.All ([] : List Value) := fun _ hv => by cases hv
    refine (agree_readOr _ hempty fun v hv => agree_toList hv).bind fun items hitems => ?_
    have hall : D.values.Has (Value.list (items ++ new)) := by
      refine .list fun v hv => ?_
      rcases List.mem_append.1 hv with hv | hv
      · exact hitems v hv
      · exact hargv v (by simp [hv])
    exact (agree_setVariable _ hall).bind fun _ _ => Agree.pure hall
  · exact agree_wrongArguments _ _

theorem agree_joinWith {items : Value} (hitems : D.values.Has items) (separator : String) :
    D.Agree room (joinWith items separator : Act κ Value) (joinWith items separator) :=
  (agree_toList hitems).return fun _ _ => .string _

theorem respects_join : D.Respects (join : Native κ) join := by
  intro room engine engine' _ argv hargv
  unfold join
  split
  · exact agree_joinWith (hargv _ (by simp)) _
  · exact agree_joinWith (hargv _ (by simp)) _
  · exact agree_wrongArguments _ _

/-! ## Strings -/

theorem agree_compared (argv : List Value) :
    D.Agree room (Strings.compared argv : Act κ Int) (Strings.compared argv) := by
  have htwo : D.Agree room (Strings.twoStrings argv : Act κ (Bool × String × String))
      (Strings.twoStrings argv) := by
    unfold Strings.twoStrings
    split
    · exact Agree.pure ⟨trivial, trivial, trivial⟩
    · exact Agree.ite _ (Agree.pure ⟨trivial, trivial, trivial⟩) (agree_wrongSubArguments _ _)
    · exact agree_wrongSubArguments _ _
  exact htwo.bind fun _ _ => Agree.pure trivial

theorem respects_mapped (f : String → String) :
    D.Respects (Strings.mapped f : Native κ) (Strings.mapped f) := by
  intro room engine engine' _ argv _
  unfold Strings.mapped
  split
  · exact Agree.pure (.string _)
  · exact agree_wrongSubArguments _ _

theorem respects_trimmed (trim : (Char → Bool) → List Char → List Char) :
    D.Respects (Strings.trimmed trim : Native κ) (Strings.trimmed trim) := by
  intro room engine engine' _ argv _
  unfold Strings.trimmed
  split
  · exact Agree.pure (.string _)
  · exact Agree.pure (.string _)
  · exact agree_wrongSubArguments _ _

theorem respects_string : D.Respects (Strings.string : Native κ) Strings.string := by
  refine respects_ensemble ?_
  simp only [List.forall_mem_cons, List.not_mem_nil, false_implies, implies_true, and_true]
  refine ⟨?_, ?_, ?_, ?_, ?_, ?_, ?_, respects_mapped _, respects_mapped _, respects_trimmed _,
    respects_trimmed _, respects_trimmed _⟩ <;> intro room engine engine' _ argv _
  · exact (agree_compared argv).return fun _ _ => .ofInt _
  · exact (agree_compared argv).return fun _ _ => .boolean _
  · unfold Strings.first
    dsimp only
    split
    · exact Agree.pure (.ofInt _)
    · exact (agree_parseIndex _ _).bind fun _ _ => Agree.pure (.ofInt _)
    · exact agree_wrongSubArguments _ _
  · unfold Strings.index
    split
    · refine (agree_parseIndex _ _).bind fun _ _ => ?_
      split
      · exact Agree.pure (.string _)
      · exact Agree.pure .empty
    · exact agree_wrongSubArguments _ _
  · unfold Strings.length
    split
    · exact Agree.pure (.ofNat _)
    · exact agree_wrongSubArguments _ _
  · unfold Strings.range
    split
    · refine (agree_parseIndex _ _).bind fun _ _ => (agree_parseIndex _ _).bind fun _ _ => ?_
      exact Agree.pure (.string _)
    · exact agree_wrongSubArguments _ _
  · unfold Strings.repeat'
    split
    · refine (agree_toInt _).bind fun _ _ => (agree_checked _).bind fun _ _ => ?_
      exact Agree.pure (.string _)
    · exact agree_wrongSubArguments _ _

/-! ## Definitions -/

theorem respects_proc : D.Respects (proc : Native κ) proc := by
  intro room engine engine' _ argv hargv
  unfold proc
  split
  · refine Agree.bind ?_ fun _ _ => Agree.pure .empty
    exact agree_edit fun _ _ _ => .defineProcedure (hargv _ (by simp)) (hargv _ (by simp))
  · exact agree_wrongArguments _ _

theorem respects_rename : D.Respects (rename : Native κ) rename := by
  intro room engine engine' _ argv _
  unfold rename
  split
  · refine Agree.bind ?_ fun _ _ => Agree.pure .empty
    exact agree_edit fun _ _ _ => .rename
  · exact agree_wrongArguments _ _

theorem respects_plain {answer : Interp κ → Value} (h : ∀ i, D.values.Has (answer i)) :
    D.Respects (Info.plain answer) (Info.plain answer) := by
  intro room engine engine' _ argv _
  unfold Info.plain
  split
  · exact agree_interp_bind fun s hs => .pure hs (h _)
  · exact agree_wrongSubArguments _ _

theorem agree_depthOf (current : Nat) (number : Int64) :
    D.Agree room (Info.depthOf current number : Act κ (Option Nat))
      (Info.depthOf current number) := by
  unfold Info.depthOf
  refine Agree.ite _ (Agree.pure fun _ _ => trivial) ?_
  exact (agree_checked _).bind fun _ _ => Agree.pure fun _ _ => trivial

theorem respects_info : D.Respects (Info.info : Native κ) Info.info := by
  refine respects_ensemble ?_
  simp only [List.forall_mem_cons, List.not_mem_nil, false_implies, implies_true, and_true]
  refine ⟨?_, ?_, respects_plain fun _ => .ofNat _, respects_plain fun _ => .strings _, ?_, ?_, ?_,
    respects_plain fun _ => .strings _, ?_, respects_plain fun _ => .strings _,
    respects_plain fun _ => .strings _, respects_plain fun _ => .strings _⟩ <;>
    intro room engine engine' _ argv _
  · unfold Info.args
    split
    · exact (agree_query fun _ _ _ _ _ _ => trivial).return fun _ _ => .strings _
    · exact agree_wrongSubArguments _ _
  · unfold Info.body
    split
    · exact agree_query fun _ _ henv => henv.has_procedureBody
    · exact agree_wrongSubArguments _ _
  · unfold Info.complete
    split
    · exact Agree.pure (.boolean _)
    · exact agree_wrongSubArguments _ _
  · unfold Info.default
    split
    · refine (agree_query fun _ _ henv => henv.has_parameterDefault).bind fun v? hv? => ?_
      exact (agree_setVariable _ (.getD hv?)).bind fun _ _ => Agree.pure (.boolean _)
    · exact agree_wrongSubArguments _ _
  · unfold Info.exists'
    split
    · exact agree_env_bind fun s hs => .pure hs (.boolean _)
    · exact agree_wrongSubArguments _ _
  · unfold Info.level
    refine agree_env_bind fun s hs => ?_
    split
    · exact .pure hs (.ofNat _)
    · refine (agree_toInt _).bind (fun n _ => (agree_depthOf _ n).bind fun depth? _ => ?_) s hs
      split
      · rename_i command hcommand
        obtain ⟨depth, _, hcommand⟩ := Option.bind_eq_some_iff.1 hcommand
        exact Agree.pure ((D.holds hs).env.stack.levelCommand? hcommand)
      · exact Agree.fail _
    · exact agree_wrongSubArguments _ _ s hs

/-! ## Channels -/

section Channels

open CommandScript.Channels (View find put setWorld readFrom print readAll openFile)

variable {β : Type} [Data β] {K : Value.Kind}

instance : Data Channel := .plain _
instance : Data AccessMode := .plain _
instance : Data Origin := .plain _

/-- An action on channels that is never cut short for want of room. -/
abbrev Orderly (K : Value.Kind) (act : Action View β) : Prop := (roomless K View).Agree 0 act act

theorem Orderly.get_bind {f : View → Action View β} (h : ∀ v, Orderly K (f v)) :
    Orderly K (get >>= f) := fun v hv => h v v hv

theorem orderly_modify (f : View → View) : Orderly K (modify f : Action View PUnit) :=
  fun _ _ => ⟨rfl, ⟨trivial, trivial⟩, trivial⟩

theorem orderly_find (name : String) : Orderly K (find name) := by
  refine .get_bind fun v => ?_
  split
  · exact Agree.pure trivial
  · exact Agree.fail _

theorem orderly_put (name : String) (channel : Channel) : Orderly K (put name channel) :=
  orderly_modify _

theorem orderly_setWorld (world : World) : Orderly K (setWorld world) := orderly_modify _

theorem orderly_readFrom (name : String) (read : Except SystemError String × OpenFile) :
    Orderly K (readFrom name read) := by
  unfold readFrom
  refine (orderly_put _ _).bind fun _ _ => ?_
  split
  · exact Agree.pure trivial
  · exact Agree.fail _

theorem agree_putsTo (channel : String) (v : Value) (newline : Bool) :
    D.Agree room (putsTo channel v newline : Act κ Value) (putsTo channel v newline) := by
  have hprint : ∀ name text, Orderly D.values (print name text) := by
    intro name text
    unfold print
    refine (orderly_find name).bind fun channel _ => ?_
    split
    · exact Orderly.get_bind fun _ => orderly_setWorld _
    · exact Orderly.get_bind fun _ => orderly_setWorld _
    · exact Agree.fail _
    · split
      · exact Orderly.get_bind fun _ => (orderly_setWorld _).bind fun _ _ => orderly_put _ _
      · exact Agree.fail _
  exact (agree_channels (hprint _ _)).bind fun _ _ => Agree.pure .empty

theorem respects_puts : D.Respects (puts : Native κ) puts := by
  intro room engine engine' _ argv _
  unfold puts
  split
  · exact agree_putsTo _ _ _
  · exact Agree.ite _ (agree_putsTo _ _ _) (agree_putsTo _ _ _)
  · exact Agree.ite _ (agree_putsTo _ _ _) (agree_wrongArguments _ _)
  · exact agree_wrongArguments _ _

theorem respects_gets : D.Respects (gets : Native κ) gets := by
  have hgets : ∀ name, Orderly D.values (Channels.gets name) := by
    intro name
    unfold Channels.gets
    refine (orderly_find name).bind fun channel _ => ?_
    split
    · refine Orderly.get_bind fun _ => (orderly_setWorld _).bind fun _ _ => ?_
      exact (orderly_put _ _).bind fun _ _ => Agree.pure fun _ _ => trivial
    · split
      · refine Orderly.get_bind fun _ => (orderly_readFrom _ _).bind fun _ _ => ?_
        exact Agree.pure fun _ _ => trivial
      · exact Agree.fail_bind _ _ _
    · exact Agree.fail_bind _ _ _
  intro room engine engine' _ argv _
  unfold gets
  split
  · exact (agree_channels (hgets _)).return fun _ _ => .string _
  · refine (agree_channels (hgets _)).bind fun line _ => ?_
    exact (agree_setVariable _ (.string _)).bind fun _ _ => Agree.pure (.ofInt _)
  · exact agree_wrongArguments _ _

theorem respects_read : D.Respects (read : Native κ) read := by
  have hread : ∀ name, Orderly D.values (readAll name) := by
    intro name
    unfold readAll
    refine (orderly_find name).bind fun channel _ => ?_
    split
    · refine Orderly.get_bind fun _ => (orderly_setWorld _).bind fun _ _ => ?_
      exact (orderly_put _ _).bind fun _ _ => Agree.pure trivial
    · split
      · exact Orderly.get_bind fun _ => orderly_readFrom _ _
      · exact Agree.fail _
    · exact Agree.fail _
  intro room engine engine' _ argv _
  unfold Standard.read
  split
  · exact (agree_channels (hread _)).return fun _ _ => .string _
  · refine Agree.ite _ ?_ (agree_wrongArguments _ _)
    exact (agree_channels (hread _)).return fun _ _ => .string _
  · exact agree_wrongArguments _ _

theorem respects_eof : D.Respects (eof : Native κ) eof := by
  have heof : ∀ name, Orderly D.values (Channels.eof name) := by
    intro name
    unfold Channels.eof
    refine (orderly_find name).bind fun channel _ => ?_
    split
    · exact Agree.pure trivial
    · exact Agree.pure trivial
    · exact Agree.pure trivial
  intro room engine engine' _ argv _
  unfold eof
  split
  · exact (agree_channels (heof _)).return fun _ _ => .boolean _
  · exact agree_wrongArguments _ _

theorem agree_seekFrom (channel offset : Value) (origin : String) :
    D.Agree room (seekFrom channel offset origin : Act κ Value)
      (seekFrom channel offset origin) := by
  have hseek : ∀ name offset origin, Orderly D.values (Channels.seek name offset origin) := by
    intro name offset origin
    unfold Channels.seek
    refine (Agree.ofExcept fun _ _ => trivial).bind fun origin _ => ?_
    refine (orderly_find name).bind fun channel _ => ?_
    split
    · refine Orderly.get_bind fun _ => ?_
      split
      · exact orderly_put _ _
      · exact Agree.fail _
    · exact Agree.fail _
  refine (agree_toInt _).bind fun n _ => ?_
  exact (agree_channels (hseek _ _ _)).bind fun _ _ => Agree.pure .empty

theorem respects_seek : D.Respects (seek : Native κ) seek := by
  intro room engine engine' _ argv _
  unfold seek
  split
  · exact agree_seekFrom _ _ _
  · exact agree_seekFrom _ _ _
  · exact agree_wrongArguments _ _

theorem respects_tell : D.Respects (Standard.tell : Native κ) Standard.tell := by
  have htell : ∀ name, Orderly D.values (Channels.tell name) := by
    intro name
    unfold Channels.tell
    refine (orderly_find name).bind fun channel _ => ?_
    split
    · exact Agree.pure trivial
    · exact Agree.pure trivial
  intro room engine engine' _ argv _
  unfold Standard.tell
  split
  · exact (agree_channels (htell _)).return fun _ _ => .ofInt _
  · exact agree_wrongArguments _ _

theorem respects_flush : D.Respects (flush : Native κ) flush := by
  have hflush : ∀ name, Orderly D.values (Channels.flush name) :=
    fun name => (orderly_find name).bind fun _ _ => Agree.pure trivial
  intro room engine engine' _ argv _
  unfold flush
  split
  · exact (agree_channels (hflush _)).bind fun _ _ => Agree.pure .empty
  · exact agree_wrongArguments _ _

theorem respects_open : D.Respects (openCommand : Native κ) openCommand := by
  have hopen : ∀ path mode, Orderly D.values (openFile path mode) := by
    intro path mode
    unfold openFile
    refine (Agree.ofExcept fun _ _ => trivial).bind fun mode _ => Orderly.get_bind fun _ => ?_
    split
    · exact Agree.fail _
    · refine Orderly.get_bind fun _ => (orderly_modify _).bind fun _ _ => ?_
      exact (orderly_put _ _).bind fun _ _ => Agree.pure trivial
  intro room engine engine' _ argv _
  unfold openCommand
  split
  · exact (agree_channels (hopen _ _)).return fun _ _ => .string _
  · exact (agree_channels (hopen _ _)).return fun _ _ => .string _
  · exact agree_wrongArguments _ _

theorem respects_close : D.Respects (close : Native κ) close := by
  have hclose : ∀ name, Orderly D.values (Channels.close name) :=
    fun name => (orderly_find name).bind fun _ _ => orderly_modify _
  intro room engine engine' _ argv _
  unfold close
  split
  · exact (agree_channels (hclose _)).bind fun _ _ => Agree.pure .empty
  · exact agree_wrongArguments _ _

end Channels

end Standard

end CommandScript.Discipline
