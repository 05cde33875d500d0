import CommandScript.Interp.Eval
import CommandScript.Proofs.Evaluation.Discipline
import CommandScript.Proofs.Namespace.Arena

/-!
# Listing commands

The commands that are listed should be those that can be called by the names they are listed under.
A plain name, one without a double colon, is looked up just where the list is taken from: in the
current namespace and then in the root. A qualified name is split, so that no name at all leads to
an entry that has a double colon in it. Commands are defined under the tail of their name only,
which has none; but a registry may hold any names, and its entries go into the root as they are.

* `Environment.Reached`: what defining, renaming and removing commands and working on namespaces
  make of a new interpreter.
* `Environment.Tidy`: no table has a name twice, and all entries have plain names but for those of
  the registry.
* `Environment.listing_agrees_with_dispatch`: where list and dispatch agree.
-/

namespace CommandScript

/-! ## Names without a double colon -/

namespace Text

variable {needle cs : List Char} {n : Nat}

theorem find?_eq_none_iff (hneedle : needle ≠ []) : find? needle cs = none ↔ ¬ needle <:+: cs := by
  induction cs with
  | nil => simp [find?, hneedle]
  | cons c cs ih =>
    rw [find?, List.infix_cons_iff, not_or, ← ih]
    by_cases hstarts : needle.isPrefixOf (c :: cs) = true
    · simp [hstarts, List.isPrefixOf_iff_prefix.1 hstarts]
    · rw [if_neg hstarts, Option.map_eq_none_iff]
      rw [List.isPrefixOf_iff_prefix] at hstarts
      simp [hstarts]

/-- Before the first occurrence there is none. -/
theorem not_infix_take_of_find? (hneedle : needle ≠ []) (h : find? needle cs = some n) :
    ¬ needle <:+: cs.take n := by
  induction cs generalizing n with
  | nil => simpa using hneedle
  | cons c cs ih =>
    rw [find?] at h
    split at h
    · cases h
      simpa using hneedle
    · rename_i hstarts
      obtain ⟨m, hm, rfl⟩ := Option.map_eq_some_iff.1 h
      rw [List.take_succ_cons, List.infix_cons_iff, not_or]
      refine ⟨fun hfirst => hstarts ?_, ih hm⟩
      rw [List.isPrefixOf_iff_prefix]
      exact hfirst.trans (List.prefix_cons_inj c |>.2 (List.take_prefix m cs))

end Text

namespace Name

/-- A name that has no double colon. -/
def Plain (name : String) : Prop := ¬ "::".toList <:+: name.toList

instance (name : String) : Decidable (Plain name) := inferInstanceAs (Decidable (¬ _))

/-- A plain name is its own tail. -/
theorem splitQualified_of_plain {name : String} (h : Plain name) :
    splitQualified name = (none, name) := by
  have hfind : Text.find? "::".toList.reverse name.toList.reverse = none := by
    rw [Text.find?_eq_none_iff (by decide), List.reverse_infix]
    exact h
  rw [splitQualified, Text.splitAtLast, hfind]
  rfl

theorem plain_splitQualified (name : String) : Plain (splitQualified name).2 := by
  unfold splitQualified Text.splitAtLast
  cases hfind : Text.find? "::".toList.reverse name.toList.reverse with
  | none =>
    rw [Text.find?_eq_none_iff (by decide), List.reverse_infix] at hfind
    exact hfind
  | some n =>
    have hnone := Text.not_infix_take_of_find? (by decide) hfind
    rw [← List.reverse_infix, List.reverse_reverse] at hnone
    show Plain (String.ofList _)
    rw [Plain, String.toList_ofList (l := (name.toList.reverse.take n).reverse)]
    exact hnone

theorem plain_of_splitQualified {name : String} (h : (splitQualified name).1 = none) :
    Plain name := by
  have hplain := plain_splitQualified name
  unfold splitQualified at h hplain
  split at h
  · cases h
  · rename_i hnone
    rw [hnone] at hplain
    exact hplain

end Name

/-! ## Tables of commands -/

namespace Table

variable {α : Type} {t : Table α}

theorem nodup_names_insert (h : (names t).Nodup) (name : String) (v : α) :
    (names (insert t name v)).Nodup := by
  induction t with
  | nil => simp [insert, names]
  | cons e rest ih =>
    obtain ⟨hfirst, hrest⟩ := List.nodup_cons.1 h
    unfold insert
    split
    · exact h
    · rename_i hne
      refine List.nodup_cons.2 ⟨fun hmem => ?_, ih hrest⟩
      obtain ⟨e', he', heq⟩ := List.mem_map.1 hmem
      rcases mem_insert he' with hold | rfl
      · exact hfirst (heq ▸ mem_names_of_mem hold)
      · exact hne heq.symm

/-- Entries of other names may go. -/
theorem get?_filter {p : String → Bool} {name : String} (h : p name = true) :
    get? (t.filter fun e => p e.1) name = get? t name := by
  induction t with
  | nil => rfl
  | cons e rest ih =>
    by_cases hname : e.1 = name
    · rw [List.filter_cons_of_pos (by rw [hname, h]), get?, get?, if_pos hname, if_pos hname]
    · by_cases hkept : p e.1 = true
      · rw [List.filter_cons, if_pos hkept, get?, get?, if_neg hname, if_neg hname, ih]
      · rw [List.filter_cons, if_neg hkept, get?, if_neg hname, ih]

end Table

/-- The state in which a command is looked up: it has been counted. -/
def State.counted {κ : Type} (s : State κ) : State κ where
  interp := { s.interp with commandCount := s.interp.commandCount + 1 }
  world := s.world.tick

namespace NamespaceTree

variable {κ : Type} {registry : Registry κ} {t t' : NamespaceTree κ}

/-- No namespace has a command twice, and the commands have plain names, but for those that the root
has from a registry. -/
structure Tidy (registry : Registry κ) (t : NamespaceTree κ) : Prop where
  nodup (id : NamespaceId) : (Table.names (t.node id).commands).Nodup
  plain (id : NamespaceId) (name : String) : name ∈ Table.names (t.node id).commands →
    Name.Plain name ∨ id = root ∧ name ∈ Table.names registry

/-- Commands may go. -/
theorem Tidy.of_sublist (h : t.Tidy registry)
    (hsub : ∀ id, (Table.names (t'.node id).commands).Sublist (Table.names (t.node id).commands)) :
    t'.Tidy registry where
  nodup id := (h.nodup id).sublist (hsub id)
  plain id name hname := h.plain id name ((hsub id).subset hname)

theorem Tidy.erase (h : t.Tidy registry) (id : NamespaceId) (name : String) :
    (t.update id fun n => { n with commands := n.commands.erase name }).Tidy registry := by
  refine h.of_sublist fun i => ?_
  rw [node_update]
  split
  · exact Table.names_erase_sublist _ _
  · exact .refl _

theorem Tidy.insert (h : t.Tidy registry) (id : NamespaceId) {name : String}
    (hname : Name.Plain name) (command : Executable κ) :
    (t.update id fun n => { n with commands := n.commands.insert name command }).Tidy registry where
  nodup i := by
    rw [node_update]
    split
    · exact Table.nodup_names_insert (h.nodup i) name command
    · exact h.nodup i
  plain i other hother := by
    rw [node_update] at hother
    split at hother
    · obtain ⟨e, he, rfl⟩ := List.mem_map.1 hother
      rcases Table.mem_insert he with hold | rfl
      · exact h.plain i e.1 (Table.mem_names_of_mem hold)
      · exact .inl hname
    · exact h.plain i other hother

theorem commands_addChild (p i : NamespaceId) (name : String) :
    ((t.addChild p name).2.node i).commands = (t.node i).commands := by
  refine Eq.trans (field_update Namespace.commands p i (f := fun n =>
    { n with children := Table.insertSorted n.children name t.nodes.length }) fun _ => rfl) ?_
  rw [node_append]
  split
  · rename_i hlast
    rw [node_of_length_le (Nat.le_of_eq hlast.symm)]
    rfl
  · rfl

theorem commands_ensureFrom (id i : NamespaceId) (names : List String) :
    ((t.ensureFrom id names).2.node i).commands = (t.node i).commands := by
  induction names generalizing t id with
  | nil => rfl
  | cons name rest ih =>
    unfold ensureFrom
    split
    · exact ih _
    · exact (ih _).trans (commands_addChild id i name)

theorem commands_ensure (start i : NamespaceId) (path : String) :
    ((t.ensure start path).2.node i).commands = (t.node i).commands := by
  unfold ensure
  split
  · exact commands_ensureFrom _ _ _
  · exact commands_ensureFrom _ _ _

theorem names_clear_sublist (fuel : Nat) (ids : List NamespaceId) (i : NamespaceId) :
    (Table.names ((t.clear fuel ids).node i).commands).Sublist
      (Table.names (t.node i).commands) := by
  induction fuel generalizing t ids with
  | zero => exact .refl _
  | succ fuel ih =>
    cases ids with
    | nil => exact .refl _
    | cons id rest =>
      refine (ih _).trans ?_
      rw [node_update]
      split
      · exact List.nil_sublist _
      · exact .refl _

theorem names_delete_sublist (id i : NamespaceId) :
    (Table.names ((t.delete id).node i).commands).Sublist (Table.names (t.node i).commands) := by
  unfold delete
  split
  · exact .refl _
  · refine (names_clear_sublist _ _ _).trans ?_
    split
    · rw [field_update Namespace.commands]
      exact fun _ => rfl
    · exact .refl _

end NamespaceTree

/-! ## Reached environments -/

namespace Environment

variable {κ : Type} {registry : Registry κ} {env env' : Environment κ} {name : String}
  {command : Executable κ}

/-- The environments that come from a new interpreter with a registry, by adding, renaming and
removing commands, by creating and deleting namespaces, by entering and leaving frames in any of
them, and by changing variables. -/
inductive Reached (registry : Registry κ) : Environment κ → Prop
  | create (safe : Bool) : Reached registry (Interp.create registry safe).env
  | install {env : Environment κ} (name : String) (command : Executable κ) :
      Reached registry env → Reached registry (env.install name command)
  | define {env env' : Environment κ} {name : String} {parameters body : Value} :
      Reached registry env → env.defineProcedure name parameters body = .ok env' →
      Reached registry env'
  | rename {env env' : Environment κ} {old new : String} :
      Reached registry env → env.rename old new = .ok env' → Reached registry env'
  | remove {env : Environment κ} (name : String) :
      Reached registry env → Reached registry (env.remove name)
  | ensure {env : Environment κ} (start : NamespaceId) (path : String) : Reached registry env →
      Reached registry { env with namespaces := (env.namespaces.ensure start path).2 }
  | delete {env env' : Environment κ} {path : String} :
      Reached registry env → env.deleteNamespace path = .ok env' → Reached registry env'
  | enter {env : Environment κ} (frame : Frame) :
      Reached registry env → Reached registry { env with stack := env.stack.push frame }
  | leave {env : Environment κ} :
      Reached registry env → Reached registry { env with stack := env.stack.pop }
  | change {env : Environment κ} (slot : Slot) (f : Table Value → Table Value) :
      Reached registry env → Reached registry (env.modifyScope slot f)

/-- Commands are defined under the tails of names. -/
theorem plain_of_commandHome {id : NamespaceId} {tail : String}
    (h : env.commandHome name = .ok (id, tail)) : Name.Plain tail := by
  have hplain := Name.plain_splitQualified name
  unfold commandHome at h
  split at h <;> rename_i hsplit <;> rw [hsplit] at hplain
  · split at h
    · cases h
      exact hplain
    · split at h
      · cases h
        exact hplain
      · cases h
  · cases h
    exact hplain

theorem tidy_create (hregistry : (Table.names registry).Nodup) (safe : Bool) :
    (Interp.create registry safe).env.namespaces.Tidy registry := by
  have hnames : Table.names registry.commands = Table.names registry := by
    rw [Registry.commands, Table.names, List.map_map]
    rfl
  constructor
  · intro id
    cases id with
    | zero => exact hnames ▸ hregistry
    | succ id => exact List.nodup_nil
  · intro id name hname
    cases id with
    | zero => exact .inr ⟨rfl, hnames ▸ hname⟩
    | succ id => cases hname

theorem tidy_install (h : env.namespaces.Tidy registry) (name : String) (command : Executable κ) :
    (env.install name command).namespaces.Tidy registry := by
  have hplain := Name.plain_splitQualified name
  unfold Environment.install
  cases hsplit : Name.splitQualified name with
  | mk qualifiers tail =>
    rw [hsplit] at hplain
    cases qualifiers with
    | none => exact h.insert _ hplain command
    | some qualifiers =>
      dsimp only
      split
      · exact h.insert _ hplain command
      · refine NamespaceTree.Tidy.insert ?_ _ hplain command
        exact h.of_sublist fun i => by rw [NamespaceTree.commands_ensure]

theorem tidy_rename (h : env.namespaces.Tidy registry) {old new : String}
    (hrename : env.rename old new = .ok env') : env'.namespaces.Tidy registry := by
  unfold Environment.rename at hrename
  split at hrename
  · cases hrename
  · rename_i id tail _
    have hremoved : (env.modifyCommands id fun commands =>
        commands.erase tail).namespaces.Tidy registry := h.erase id tail
    dsimp only at hrename
    split at hrename
    · cases hrename
      exact hremoved
    · obtain ⟨⟨newId, newTail⟩, hhome, hrename⟩ := exists_of_bind_eq_ok hrename
      dsimp only at hrename
      split at hrename
      · cases hrename
      · split at hrename
        · cases hrename
          exact hremoved.insert newId (plain_of_commandHome hhome) _
        · cases hrename
          exact h

/-- Whatever is done to the commands leaves their tables tidy. -/
theorem Reached.tidy (h : Reached registry env) (hregistry : (Table.names registry).Nodup) :
    env.namespaces.Tidy registry := by
  induction h with
  | create safe => exact tidy_create hregistry safe
  | install name command _ ih => exact tidy_install ih name command
  | @define env env' name parameters body _ hdefine ih =>
    unfold defineProcedure at hdefine
    split at hdefine
    · cases hdefine
    · rename_i hhome
      split at hdefine
      · cases hdefine
      · cases hdefine
        exact ih.insert _ (plain_of_commandHome hhome) _
  | rename _ hrename ih => exact tidy_rename ih hrename
  | @remove env name _ ih =>
    unfold Environment.remove
    split
    · exact ih.erase _ _
    · exact ih
  | ensure start path _ ih =>
    exact ih.of_sublist fun i => by rw [NamespaceTree.commands_ensure]
  | @delete env env' path _ hdelete ih =>
    unfold deleteNamespace at hdelete
    split at hdelete
    · cases hdelete
    · split at hdelete
      · cases hdelete
      · cases hdelete
        exact ih.of_sublist fun i => NamespaceTree.names_delete_sublist _ i
  | enter frame _ ih => exact ih
  | leave _ ih => exact ih
  | change slot f _ ih =>
    refine ih.of_sublist fun i => ?_
    rw [node_modifyScope _ _ _ Namespace.commands fun _ => rfl]

/-! ## The list -/

/-- Where the commands have no name twice, neither has the list. -/
theorem nodup_commandNames (h : env.namespaces.Tidy registry) : env.commandNames.Nodup := by
  unfold commandNames visibleCommands
  dsimp only
  split
  · exact h.nodup _
  · rw [Table.names, List.map_append, List.nodup_append]
    refine ⟨h.nodup _, (h.nodup NamespaceTree.root).sublist (List.filter_sublist.map _), ?_⟩
    rintro own hown _ hroot rfl
    obtain ⟨e, he, rfl⟩ := List.mem_map.1 hroot
    have hhidden := (List.mem_filter.1 he).2
    rw [Bool.not_eq_true', Table.contains_eq_false_iff] at hhidden
    exact hhidden hown

/-- What is listed is a command of some namespace. -/
theorem exists_of_mem_commandNames (h : name ∈ env.commandNames) :
    ∃ id, name ∈ Table.names (env.namespaces.node id).commands := by
  unfold commandNames visibleCommands at h
  dsimp only at h
  split at h
  · exact ⟨_, h⟩
  · rw [Table.names, List.map_append, List.mem_append] at h
    rcases h with hown | hroot
    · exact ⟨_, hown⟩
    · exact ⟨_, (List.filter_sublist.map _).subset hroot⟩

/-- The list has under a plain name what the name leads to. -/
theorem get?_visibleCommands (hname : Name.Plain name) :
    Table.get? env.visibleCommands name = env.command? name := by
  unfold command? commandPlace? visibleCommands
  rw [Name.splitQualified_of_plain hname]
  dsimp only
  by_cases hown : (env.commandsOf env.current).contains name = true
  · obtain ⟨command, hcommand⟩ := Option.isSome_iff_exists.1 hown
    rw [if_pos hown]
    split
    · rfl
    · rw [Table.get?_append, hcommand]
      exact hcommand.symm
  · rw [if_neg hown]
    rw [Bool.not_eq_true] at hown
    split
    · rename_i hroot
      rw [hroot]
      rfl
    · rw [Table.get?_append, Option.isNone_iff_eq_none.1 (Option.isSome_eq_false_iff.1 hown),
        Option.none_or, Table.get?_filter (p := fun name =>
          !(env.commandsOf env.current).contains name) (by rw [hown]; rfl)]
      rfl

/-- No name leads to an entry that is not plain. -/
theorem commandPlace?_ne (hname : ¬ Name.Plain name) (other : String) (id : NamespaceId) :
    env.commandPlace? other ≠ some (id, name) := by
  have hplain := Name.plain_splitQualified other
  intro hplace
  unfold commandPlace? at hplace
  split at hplace <;> rename_i hsplit <;> rw [hsplit] at hplain
  · split at hplace
    · cases hplace
      exact hname hplain
    · obtain ⟨_, _, heq⟩ := Option.map_eq_some_iff.1 hplace
      cases heq
      exact hname hplain
  · split at hplace
    · cases hplace
      exact hname hplain
    · cases hplace
      exact hname hplain

/-- A name is found and a command of that name runs the executable. -/
structure LeadsTo (env : Environment κ) (name : String) (command : Executable κ) : Prop where
  has : env.hasCommand name = true
  finds : env.command? name = some command
  dispatches (ops : κ → Native κ) (engine : Engine κ) (c : Command) (s : State κ) :
    s.interp.env = env → (c.words.headD {}).text = name →
    c.dispatch ops engine s = c.invoke ops engine name command c.words s.counted

theorem leadsTo_of_command? (h : env.command? name = some command) : env.LeadsTo name command where
  has := by rw [hasCommand, h]; rfl
  finds := h
  dispatches ops engine c s henv hname := by
    subst henv hname
    refine (Action.bind_ok rfl).trans ((Action.bind_ok rfl).trans ((Action.bind_ok rfl).trans ?_))
    dsimp only
    rw [h]
    rfl

/-- The list of commands agrees with dispatch in plain names, whatever names a registry has: what is
listed under a plain name is what a command of that name runs, and a plain name that is found is
listed once. Names with a double colon are listed only if they are in the registry, and no name
whatever leads to the commands that they are listed for. -/
theorem listing_agrees_with_dispatch (h : env.Reached registry)
    (hregistry : (Table.names registry).Nodup) :
    (∀ name command, (name, command) ∈ env.visibleCommands → Name.Plain name →
      env.LeadsTo name command) ∧
    (∀ name, Name.Plain name → env.hasCommand name = true → env.commandNames.count name = 1) ∧
    ∀ name ∈ env.commandNames, ¬ Name.Plain name →
      name ∈ Table.names registry ∧ ∀ other id, env.commandPlace? other ≠ some (id, name) := by
  have htidy := h.tidy hregistry
  have hnodup := nodup_commandNames htidy
  refine ⟨fun name command hmem hplain => ?_, fun name hplain hhas => ?_,
    fun name hmem hqualified => ⟨?_, commandPlace?_ne hqualified⟩⟩
  · rw [← Table.get?_eq_some_iff hnodup, get?_visibleCommands hplain] at hmem
    exact leadsTo_of_command? hmem
  · obtain ⟨command, hcommand⟩ := Option.isSome_iff_exists.1 hhas
    rw [← get?_visibleCommands hplain] at hcommand
    exact List.count_eq_one_of_mem hnodup (Table.mem_names_of_mem (Table.mem_of_get? hcommand))
  · obtain ⟨id, hid⟩ := exists_of_mem_commandNames hmem
    rcases htidy.plain id name hid with hplain | hregistered
    · exact absurd hplain hqualified
    · exact hregistered.2

/-- The registry's `set` is listed and found, also from another namespace; its `a::b` is not found.
-/
theorem listing_agrees_with_dispatch_registry :
    let registry : Registry Unit := [("set", ⟨(), true⟩), ("a::b", ⟨(), true⟩)]
    let env := (Interp.create registry false).env
    let env := { env with namespaces := (env.namespaces.ensure NamespaceTree.root "n").2 }
    let env := { env with stack := env.stack.push { storage := .shared 1, namespaceId := 1 } }
    env.LeadsTo "set" (.native () true) ∧ env.commandNames.count "set" = 1 ∧
      "a::b" ∈ env.commandNames ∧ ∀ other id, env.commandPlace? other ≠ some (id, "a::b") := by
  intro registry created ensured env
  have h := listing_agrees_with_dispatch
    (.enter _ (.ensure NamespaceTree.root "n" (.create false)) : env.Reached registry)
    (by decide +kernel)
  have hset : Name.Plain "set" := by decide +kernel
  have hqualified : ¬ Name.Plain "a::b" := by decide +kernel
  have hlisted : "a::b" ∈ env.commandNames := by decide +kernel
  exact ⟨h.1 "set" _ (Table.mem_of_get? rfl) hset, h.2.1 "set" hset (by decide +kernel), hlisted,
    (h.2.2 "a::b" hlisted hqualified).2⟩

/-- The command that a registry has as `a::b` is listed, and it is not found. -/
theorem registered_name_listed_not_found :
    let env := (Interp.create ([("a::b", ⟨(), true⟩)] : Registry Unit) false).env
    env.commandNames = ["a::b"] ∧ env.hasCommand "a::b" = false := by
  decide +kernel

end Environment

end CommandScript
