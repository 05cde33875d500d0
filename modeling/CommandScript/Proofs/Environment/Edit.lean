import CommandScript.Proofs.Environment.Holds

/-!
# Edits of an environment

What commands can do to an environment without entering or leaving a frame: set, unset and link the
variables of a slot, define, rename and remove commands, create and delete namespaces, and note in
the top frame which command runs and which script is deferred. The values they store are of one
kind, and the links they make in namespaces lead to depths that are allowed. Every operation on
variables, commands and namespaces is such an edit, so whatever is kept by edits is kept by all of
them.

* `Edit.stack_shape`: no frame comes or goes, and no frame changes what it is.
* `Edit.executables`: commands are neither made nor changed, procedures apart.
* `Edit.holds`: the environment holds what it may hold.
-/

namespace CommandScript

/-! ## Commands of namespaces -/

/-- The key of a built-in command. -/
def Executable.key? {κ : Type} : Executable κ → Option κ
  | .native key _ => some key
  | .closure key _ => some key
  | .procedure _ => none

namespace NamespaceTree

variable {κ : Type}

/-- All commands in all namespaces. -/
def executables (t : NamespaceTree κ) : List (Executable κ) :=
  t.nodes.flatMap fun node => node.commands.map Prod.snd

theorem mem_executables {t : NamespaceTree κ} {e : Executable κ} :
    e ∈ t.executables ↔ ∃ node ∈ t.nodes, ∃ name, (name, e) ∈ node.commands := by
  simp [executables]

theorem mem_executables_of_get? {t : NamespaceTree κ} {id : NamespaceId} {name : String}
    {e : Executable κ} (h : (t.node id).commands.get? name = some e) : e ∈ t.executables := by
  unfold node at h
  rw [List.getD_eq_getElem?_getD] at h
  cases hn : t.nodes[id]? with
  | none => rw [hn] at h; cases h
  | some node =>
    rw [hn] at h
    exact mem_executables.2 ⟨node, List.mem_of_getElem? hn, name, Table.mem_of_get? h⟩

theorem executables_update {t : NamespaceTree κ} {id : NamespaceId} {f : Namespace κ → Namespace κ}
    (hf : ∀ n, (f n).commands ⊆ n.commands) : (t.update id f).executables ⊆ t.executables := by
  intro e he
  obtain ⟨n, hn, name, hmem⟩ := mem_executables.1 he
  obtain ⟨m, hm, hn⟩ := mem_update hn
  have hmem : (name, e) ∈ m.commands := by
    rcases hn with rfl | rfl
    · exact hmem
    · exact hf m hmem
  rcases hm with hm | rfl
  · exact mem_executables.2 ⟨m, hm, name, hmem⟩
  · cases hmem

theorem executables_addChild (t : NamespaceTree κ) (parent : NamespaceId) (name : String) :
    (t.addChild parent name).2.executables ⊆ t.executables := by
  refine List.Subset.trans (executables_update fun _ => List.Subset.refl _) ?_
  intro e he
  simpa [executables] using he

theorem executables_ensureFrom (t : NamespaceTree κ) (id : NamespaceId) (names : List String) :
    (t.ensureFrom id names).2.executables ⊆ t.executables := by
  induction names generalizing t id with
  | nil => exact List.Subset.refl _
  | cons name rest ih =>
    unfold ensureFrom
    split
    · exact ih t _
    · exact List.Subset.trans (ih _ _) (executables_addChild t id name)

theorem executables_ensure (t : NamespaceTree κ) (start : NamespaceId) (path : String) :
    (t.ensure start path).2.executables ⊆ t.executables := by
  unfold ensure
  split
  · exact executables_ensureFrom _ _ _
  · exact executables_ensureFrom _ _ _

theorem executables_clear (t : NamespaceTree κ) (fuel : Nat) (ids : List NamespaceId) :
    (t.clear fuel ids).executables ⊆ t.executables := by
  induction fuel generalizing t ids with
  | zero => exact List.Subset.refl _
  | succ fuel ih =>
    cases ids with
    | nil => exact List.Subset.refl _
    | cons id rest =>
      exact List.Subset.trans (ih _ _) (executables_update fun _ => List.nil_subset _)

theorem executables_delete (t : NamespaceTree κ) (id : NamespaceId) :
    (t.delete id).executables ⊆ t.executables := by
  unfold delete
  split
  · exact List.Subset.refl _
  · refine List.Subset.trans (executables_clear _ _ _) ?_
    split
    · exact executables_update fun _ => List.Subset.refl _
    · exact List.Subset.refl _

end NamespaceTree

namespace Environment

variable {κ : Type} {K : Value.Kind} {allowed : Nat → Prop}

/-! ## Setting and unsetting -/

/-- What a variable holds after it, or an element of it, was set. -/
inductive Stores (v : Value) : (index : Option String) → (held : Option Value) → Value → Prop
  | whole {held : Option Value} (h : ∀ entries, held ≠ some (.array entries)) : Stores v none held v
  | element (i : String) (entries : Table Value) :
      Stores v (some i) (some (.array entries)) (.array (entries.insert i v))
  | first (i : String) : Stores v (some i) none (.array [(i, v)])

theorem exists_of_set {env env' : Environment κ} {name : String} {v : Value}
    (h : env.set name v = .ok env') :
    ∃ l w, env.locate name = .ok l ∧ Stores v l.index (env.held? l) w ∧
      env' = env.assign l.slot l.name w := by
  obtain ⟨l, hl, h⟩ := exists_of_bind_eq_ok h
  refine ⟨l, ?_⟩
  generalize env.held? l = held, l.index = index at h ⊢
  split at h
  · cases h
  · rename_i hnot
    cases h
    exact ⟨v, hl, .whole hnot, rfl⟩
  · rename_i entries i
    cases h
    exact ⟨_, hl, .element i entries, rfl⟩
  · cases h
  · rename_i i
    cases h
    exact ⟨_, hl, .first i, rfl⟩

theorem exists_of_unset {env env' : Environment κ} {name : String} (h : env.unset name = .ok env') :
    ∃ l, env.locate name = .ok l ∧
      (env' = env.modifyScope l.slot (fun scope => scope.erase l.name) ∨
        ∃ entries i, env.held? l = some (.array entries) ∧
          env' = env.assign l.slot l.name (.array (Table.erase entries i))) := by
  obtain ⟨l, hl, h⟩ := exists_of_bind_eq_ok h
  refine ⟨l, hl, ?_⟩
  split at h
  · cases h
  · cases h
    exact .inl rfl
  · rename_i entries i hheld _
    split at h <;> cases h
    exact .inr ⟨entries, i, hheld, rfl⟩
  · cases h

/-! ## Edits -/

theorem stack_shape_modifyScope (env : Environment κ) (slot : Slot)
    (f : Table Value → Table Value) : (env.modifyScope slot f).stack.shape = env.stack.shape := by
  unfold modifyScope
  split
  · split
    · rename_i depth _ vars hown
      refine Stack.shape_modify _ _ ?_
      simp [Frame.shape, hown]
    · rfl
  · rfl

theorem executables_modifyScope (env : Environment κ) (slot : Slot)
    (f : Table Value → Table Value) :
    (env.modifyScope slot f).namespaces.executables ⊆ env.namespaces.executables := by
  have hnamespace : ∀ id, (env.modifyNamespaceScope id f).namespaces.executables ⊆
      env.namespaces.executables :=
    fun id => NamespaceTree.executables_update fun _ => List.Subset.refl _
  unfold modifyScope
  split
  · split
    · exact List.Subset.refl _
    · exact hnamespace _
  · exact hnamespace _

/-- The changes that commands make to an environment, one after another, with values of a kind. -/
inductive Edit (K : Value.Kind) (allowed : Nat → Prop) : Environment κ → Environment κ → Prop
  | refl (env : Environment κ) : Edit K allowed env env
  | trans {a b c : Environment κ} : Edit K allowed a b → Edit K allowed b c → Edit K allowed a c
  | assign (env : Environment κ) (slot : Slot) (name : String) {v : Value} (hv : K.Has v) :
      Edit K allowed env (env.assign slot name v)
  | erase (env : Environment κ) (slot : Slot) (name : String) :
      Edit K allowed env (env.modifyScope slot fun scope => scope.erase name)
  /-- A name of the top frame becomes a link. -/
  | tie (env : Environment κ) (target name : String) {level : Nat} (hdepth : level ≤ env.depth)
      (hlevel : env.stack.top.isOwn = true ∨ allowed level) :
      Edit K allowed env (env.assign (.frame env.depth) name (.link target level))
  | define (env : Environment κ) (id : NamespaceId) (name : String) {p : Procedure}
      (hp : p.Has K) :
      Edit K allowed env (env.modifyCommands id fun commands => commands.insert name (.procedure p))
  | remove (env : Environment κ) (id : NamespaceId) (name : String) :
      Edit K allowed env (env.modifyCommands id fun commands => commands.erase name)
  /-- A command leaves its place for another. -/
  | transfer (env : Environment κ) (id id' : NamespaceId) (name name' : String)
      (command : Executable κ) : (env.commandsOf id).get? name = some command →
      Edit K allowed env
        ((env.modifyCommands id fun commands => commands.erase name).modifyCommands id'
          fun commands => commands.insert name' command)
  | ensure (env : Environment κ) (start : NamespaceId) (path : String) :
      Edit K allowed env { env with namespaces := (env.namespaces.ensure start path).2 }
  | deleteNamespace (env : Environment κ) (id : NamespaceId) :
      Edit K allowed env { env with namespaces := env.namespaces.delete id }
  | running (env : Environment κ) {words : List Value} (hwords : ∀ v ∈ words, K.Has v) :
      Edit K allowed env
        { env with stack := env.stack.modifyTop fun f => { f with command := words } }
  | defer (env : Environment κ) (script : Value) :
      Edit K allowed env
        { env with
          stack := env.stack.modifyTop fun f => { f with deferred := script :: f.deferred } }

namespace Edit

variable {env env' : Environment κ}

/-! ## What edits keep -/

theorem holds (h : Edit K allowed env env') (henv : env.Holds K allowed) :
    env'.Holds K allowed := by
  induction h with
  | refl env => exact henv
  | trans _ _ ih ih' => exact ih' (ih henv)
  | assign env slot name hv => exact henv.assign slot name hv
  | erase env slot name => exact henv.erase slot name
  | tie env target name hdepth hlevel => exact henv.link target name hdepth hlevel
  | define env id name hp => exact henv.insertCommand id name fun q hq => by cases hq; exact hp
  | remove env id name => exact henv.eraseCommand id name
  | transfer env id id' name name' command hget =>
    exact (henv.eraseCommand id name).insertCommand id' name' fun p hp =>
      henv.has_procedure (hp ▸ hget)
  | ensure env start path => exact henv.withNamespaces (henv.namespaces.ensure start path)
  | deleteNamespace env id => exact henv.withNamespaces (henv.namespaces.delete id)
  | running env hwords => exact henv.withStack (henv.stack.withCommand hwords)
  | defer env script =>
    have htop := henv.stack.top
    exact henv.withStack (henv.stack.modifyTop ⟨htop.vars, htop.invocation, htop.command⟩)

theorem stack_shape (h : Edit K allowed env env') : env'.stack.shape = env.stack.shape := by
  induction h with
  | refl env => rfl
  | trans _ _ ih ih' => rw [ih', ih]
  | assign env slot name hv => exact stack_shape_modifyScope env slot _
  | erase env slot name => exact stack_shape_modifyScope env slot _
  | tie env target name hdepth hlevel => exact stack_shape_modifyScope env _ _
  | define env id name hp => rfl
  | remove env id name => rfl
  | transfer env id id' name name' command _ => rfl
  | ensure env start path => rfl
  | deleteNamespace env id => rfl
  | running env hwords => exact Stack.shape_modifyTop _ rfl
  | defer env script => exact Stack.shape_modifyTop _ rfl

theorem mem_executables_insert {id : NamespaceId} {name : String} {command e : Executable κ}
    (h : e ∈ (env.modifyCommands id
      fun commands => commands.insert name command).namespaces.executables) :
    e ∈ env.namespaces.executables ∨ e = command := by
  obtain ⟨n, hn, name', hmem⟩ := NamespaceTree.mem_executables.1 h
  obtain ⟨m, hm, hn⟩ := NamespaceTree.mem_update hn
  have hmem : (name', e) ∈ m.commands ∨ e = command := by
    rcases hn with rfl | rfl
    · exact .inl hmem
    · exact (Table.mem_insert hmem).imp_right fun heq => (Prod.mk.inj heq).2
  rcases hmem with hmem | heq
  · rcases hm with hm | rfl
    · exact .inl (NamespaceTree.mem_executables.2 ⟨m, hm, name', hmem⟩)
    · cases hmem
  · exact .inr heq

theorem mem_executables_erase {id : NamespaceId} {name : String} {e : Executable κ}
    (h : e ∈ (env.modifyCommands id fun commands => commands.erase name).namespaces.executables) :
    e ∈ env.namespaces.executables :=
  NamespaceTree.executables_update (fun _ _ hmem => Table.mem_of_mem_erase hmem) h

theorem mem_executables_install {name : String} {command e : Executable κ}
    (h : e ∈ (env.install name command).namespaces.executables) :
    e ∈ env.namespaces.executables ∨ e = command := by
  unfold install at h
  split at h
  rename_i id tail namespaces hplace
  refine (mem_executables_insert h).imp_left fun he => ?_
  split at hplace
  · split at hplace <;> cases hplace
    · exact he
    · exact NamespaceTree.executables_ensure _ _ _ he
  · cases hplace; exact he

theorem executables (h : Edit K allowed env env') {e : Executable κ}
    (he : e ∈ env'.namespaces.executables) :
    e ∈ env.namespaces.executables ∨ e.key? = none := by
  induction h with
  | refl env => exact .inl he
  | trans _ _ ih ih' =>
    rcases ih' he with he | he
    · exact ih he
    · exact .inr he
  | assign env slot name hv => exact .inl (executables_modifyScope env slot _ he)
  | erase env slot name => exact .inl (executables_modifyScope env slot _ he)
  | tie env target name hdepth hlevel => exact .inl (executables_modifyScope env _ _ he)
  | define env id name hp =>
    rcases mem_executables_insert he with he | rfl
    · exact .inl he
    · exact .inr rfl
  | remove env id name => exact .inl (mem_executables_erase he)
  | transfer env id id' name name' command hget =>
    rcases mem_executables_insert he with he | rfl
    · exact .inl (mem_executables_erase he)
    · exact .inl (NamespaceTree.mem_executables_of_get? hget)
  | ensure env start path => exact .inl (NamespaceTree.executables_ensure _ _ _ he)
  | deleteNamespace env id => exact .inl (NamespaceTree.executables_delete _ _ he)
  | running env hwords => exact .inl he
  | defer env script => exact .inl he

/-! ## Operations are edits -/

theorem set (henv : env.Holds K allowed) {name : String} {v : Value} (hv : K.Has v)
    (h : env.set name v = .ok env') : Edit K allowed env env' := by
  obtain ⟨l, w, hl, hstores, rfl⟩ := exists_of_set h
  refine assign env l.slot l.name ?_
  generalize hheld : env.held? l = held, l.index = index at hstores
  cases hstores with
  | whole => exact hv
  | element i entries => exact .insert (henv.held? hl hheld).forall_entries i hv
  | first => exact .array (List.forall_mem_singleton.2 hv)

theorem unset (henv : env.Holds K allowed) {name : String} (h : env.unset name = .ok env') :
    Edit K allowed env env' := by
  obtain ⟨l, hl, rfl | ⟨entries, i, hheld, rfl⟩⟩ := exists_of_unset h
  · exact erase env l.slot l.name
  · have hentries := (henv.held? hl hheld).forall_entries
    exact assign env l.slot l.name (.array fun e he => hentries e (Table.mem_of_mem_erase he))

theorem link {level : Nat} {target name : String}
    (hlevel : env.stack.top.isOwn = true ∨ allowed level)
    (h : env.link level target name = .ok env') : Edit K allowed env env' := by
  unfold Environment.link at h
  split at h
  · cases h
  · split at h
    · cases h
    · rename_i hreach
      iterate 2 (split at h; · cases h)
      dsimp only at h
      split at h <;> cases h <;> exact tie _ _ _ (Nat.not_lt.1 hreach) hlevel

theorem linkGlobal (hzero : allowed 0) {name : String} (h : env.linkGlobal name = .ok env') :
    Edit K allowed env env' := by
  unfold Environment.linkGlobal at h
  split at h
  · cases h; exact refl env
  · exact link (.inr hzero) h

theorem setElements (henv : env.Holds K allowed) (name : String) {entries : List (String × Value)}
    (hentries : ∀ e ∈ entries, K.Has e.2) :
    Edit K allowed env (env.setElements name entries).2 := by
  induction entries generalizing env with
  | nil => exact refl env
  | cons entry rest ih =>
    unfold Environment.setElements
    split
    · rename_i h
      have hset := set henv (hentries _ List.mem_cons_self) h
      exact hset.trans (ih (hset.holds henv) fun e he => hentries e (List.mem_cons_of_mem _ he))
    · exact refl env

theorem setArray (henv : env.Holds K allowed) (name : String) {items : List Value}
    (hitems : ∀ v ∈ items, K.Has v) : Edit K allowed env (env.setArray name items).2 := by
  unfold Environment.setArray
  split
  · exact refl env
  · rename_i entries hpairs
    split
    · split
      · rename_i h; exact set henv (.array fun _ he => by cases he) h
      · exact refl env
    · exact setElements henv name (Value.Kind.Has.pairs hitems hpairs)

theorem unsetArray (henv : env.Holds K allowed) (name : String) :
    Edit K allowed env (env.unsetArray name) := by
  unfold Environment.unsetArray
  split
  · split
    · rename_i h; exact unset henv h
    · exact refl env
  · exact refl env

theorem defineProcedure {name : String} {parameters body : Value} (hparameters : K.Has parameters)
    (hbody : K.Has body) (h : env.defineProcedure name parameters body = .ok env') :
    Edit K allowed env env' := by
  unfold Environment.defineProcedure at h
  split at h
  · cases h
  · split at h <;> cases h
    rename_i hparse
    exact define _ _ _ (.parse hparameters hbody hparse)

theorem rename {old new : String} (h : env.rename old new = .ok env') :
    Edit K allowed env env' := by
  unfold Environment.rename at h
  split at h
  · cases h
  · rename_i id tail _
    split at h
    · cases h; exact remove _ _ _
    · obtain ⟨home, -, h⟩ := exists_of_bind_eq_ok h
      dsimp only at h
      split at h
      · cases h
      · split at h <;> cases h
        · rename_i hget; exact transfer _ _ _ _ _ _ hget
        · exact refl env

theorem removeNamed (env : Environment κ) (name : String) :
    Edit K allowed env (env.remove name) := by
  unfold Environment.remove
  split
  · exact remove _ _ _
  · exact refl env

theorem deleteNamespaceAt {path : String} (h : env.deleteNamespace path = .ok env') :
    Edit K allowed env env' := by
  unfold Environment.deleteNamespace at h
  split at h
  · cases h
  · split at h <;> cases h
    exact deleteNamespace _ _

end Edit

end Environment

end CommandScript
