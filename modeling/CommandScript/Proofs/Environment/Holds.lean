import CommandScript.Environment.Command
import CommandScript.Environment.Variable
import CommandScript.Proofs.Environment.Stack
import CommandScript.Proofs.Evaluation.Data

/-!
# What environments hold

Apart from links, an environment may hold values of one kind only. A procedure's own variables, in
the frame at depth `d`, may hold links to depths up to `d`, and the variables of a namespace links
to the depths that a predicate allows. `Environment.Holds` says so.

* `Holds.has_read`: the value of a variable is of the kind, however it was found.
* `Holds.link`: a new link in a procedure's own variables is always within its bound; in the
  variables of a namespace it has to be one that the predicate allows.
* `Environment.holds_any`: nothing is asked of an environment if the kind has all values.
-/

namespace CommandScript

/-! ## What is held -/

/-- What a variable may hold: a value of the kind, or a link to a depth that is allowed. -/
inductive Value.Held (K : Value.Kind) (allowed : Nat → Prop) : Value → Prop
  | value {v : Value} (h : K.Has v) : Held K allowed v
  | link {depth : Nat} (target : String) (h : allowed depth) : Held K allowed (.link target depth)

/-- A frame at a depth: its own variables hold links to no greater depths. -/
structure Frame.Holds (K : Value.Kind) (depth : Nat) (f : Frame) : Prop where
  vars : ∀ vars, f.storage = .own vars → ∀ e ∈ vars, e.2.Held K (· ≤ depth)
  invocation : ∀ v ∈ f.invocation, K.Has v
  command : ∀ v ∈ f.command, K.Has v

def Stack.Holds (K : Value.Kind) (s : Stack) : Prop :=
  ∀ depth f, s.frame? depth = some f → f.Holds K depth

section

variable {κ : Type} {K : Value.Kind} {allowed : Nat → Prop}

/-- A namespace: its variables hold links only to the depths that are allowed. -/
structure Namespace.Holds (K : Value.Kind) (allowed : Nat → Prop) (n : Namespace κ) : Prop where
  vars : ∀ e ∈ n.vars, e.2.Held K allowed
  procedures : ∀ e ∈ n.commands, ∀ p, e.2 = .procedure p → p.Has K

def NamespaceTree.Holds (K : Value.Kind) (allowed : Nat → Prop) (t : NamespaceTree κ) : Prop :=
  ∀ n ∈ t.nodes, n.Holds K allowed

structure Environment.Holds (K : Value.Kind) (allowed : Nat → Prop) (env : Environment κ) :
    Prop where
  namespaces : env.namespaces.Holds K allowed
  stack : env.stack.Holds K

end

theorem Environment.holds_any {κ : Type} {allowed : Nat → Prop} (env : Environment κ) :
    env.Holds .any allowed where
  namespaces _ _ := ⟨fun _ _ => .value trivial, fun _ _ _ _ => ⟨trivial, fun _ _ _ _ => trivial⟩⟩
  stack _ _ _ := ⟨fun _ _ _ _ => .value trivial, fun _ _ => trivial, fun _ _ => trivial⟩

/-! ## Frames -/

namespace Stack.Holds

variable {K : Value.Kind} {s t : Stack} {f : Frame}

theorem top (h : s.Holds K) : s.top.Holds K s.depth := h _ _ s.frame?_depth

theorem push (h : s.Holds K) (hf : f.Holds K (s.depth + 1)) : (s.push f).Holds K := by
  intro depth g hg
  rw [frame?_push] at hg
  split at hg
  · rename_i heq
    cases hg
    exact heq ▸ hf
  · exact h _ _ hg

theorem pop (h : s.Holds K) : s.pop.Holds K := fun depth f hf => h depth f (frame?_of_pop hf)

theorem modifyTop (h : s.Holds K) {change : Frame → Frame}
    (hchange : (change s.top).Holds K s.depth) : (s.modifyTop change).Holds K := by
  intro depth g hg
  rw [frame?_modifyTop] at hg
  split at hg
  · rename_i heq
    cases hg
    exact heq ▸ hchange
  · exact h _ _ hg

theorem modify (h : s.Holds K) {depth : Nat} {change : Frame → Frame}
    (hchange : ∀ f, s.frame? depth = some f → (change f).Holds K depth) :
    (s.modify depth change).Holds K := by
  intro depth' g hg
  rw [frame?_modify] at hg
  split at hg
  · rename_i heq
    subst heq
    obtain ⟨f, hf, rfl⟩ := Option.map_eq_some_iff.1 hg
    exact hchange f hf
  · exact h _ _ hg

theorem upTo (h : s.Holds K) {level : Nat} (hlevel : level ≤ s.depth) :
    (s.upTo level).Holds K := by
  intro depth g hg
  rw [frame?_upTo hlevel] at hg
  split at hg
  · exact h _ _ hg
  · cases hg

theorem withCommand (h : s.Holds K) {command : List Value} (hcommand : ∀ v ∈ command, K.Has v) :
    (s.modifyTop fun f => { f with command }).Holds K :=
  h.modifyTop ⟨h.top.vars, h.top.invocation, hcommand⟩

theorem has_command (h : s.Holds K) (depth : Nat) :
    ∀ v ∈ (s.frame depth).command, K.Has v := by
  unfold Stack.frame
  cases hf : s.frame? depth with
  | none => exact h.top.command
  | some f => exact (h _ _ hf).command

theorem putBack (h : s.Holds K) (ht : t.Holds K) {level : Nat} (hdepth : t.depth = level)
    (hlevel : level ≤ s.depth) : (Stack.putBack (s.above level) t).Holds K := by
  subst hdepth
  intro depth g hg
  rw [frame?_putBack hlevel] at hg
  split at hg
  · exact ht _ _ hg
  · exact h _ _ hg

theorem levelCommand? (h : s.Holds K) {depth : Nat} {v : Value}
    (hv : s.levelCommand? depth = some v) : K.Has v := by
  obtain ⟨f, hf, rfl⟩ := Option.map_eq_some_iff.1 hv
  split
  · exact .list (h _ _ hf).command
  · exact .list (h _ _ hf).invocation

end Stack.Holds

/-! ## Namespaces -/

/-- A namespace after a change, if not one from before, is one that the change has made of it. -/
theorem NamespaceTree.mem_update {κ : Type} {t : NamespaceTree κ} {id : NamespaceId}
    {f : Namespace κ → Namespace κ} {n : Namespace κ} (h : n ∈ (t.update id f).nodes) :
    ∃ m, (m ∈ t.nodes ∨ m = .absent) ∧ (n = m ∨ n = f m) := by
  obtain ⟨i, hi⟩ := List.mem_iff_getElem?.1 h
  unfold update at hi
  rw [List.getElem?_modify] at hi
  cases hm : (t.filledTo id)[i]? with
  | none => rw [hm] at hi; cases hi
  | some m =>
    rw [hm] at hi
    have hm : m ∈ t.nodes ∨ m = .absent :=
      (List.mem_append.1 (List.mem_of_getElem? hm)).imp_right List.eq_of_mem_replicate
    split at hi <;> cases hi
    · exact ⟨m, hm, .inr rfl⟩
    · exact ⟨m, hm, .inl rfl⟩

namespace NamespaceTree.Holds

variable {κ : Type} {K : Value.Kind} {allowed : Nat → Prop} {t : NamespaceTree κ}

theorem node (h : t.Holds K allowed) (id : NamespaceId) : (t.node id).Holds K allowed := by
  unfold NamespaceTree.node
  rw [List.getD_eq_getElem?_getD]
  cases hn : t.nodes[id]? with
  | none => exact ⟨fun _ he => (by cases he), fun _ he => (by cases he)⟩
  | some n => exact h n (List.mem_of_getElem? hn)

theorem update (h : t.Holds K allowed) (id : NamespaceId) {f : Namespace κ → Namespace κ}
    (hf : ∀ n, n.Holds K allowed → (f n).Holds K allowed) :
    (t.update id f).Holds K allowed := by
  intro n hn
  obtain ⟨m, hm, hn⟩ := mem_update hn
  have hm : m.Holds K allowed := by
    rcases hm with hm | rfl
    · exact h m hm
    · exact ⟨fun _ he => (by cases he), fun _ he => (by cases he)⟩
  rcases hn with rfl | rfl
  · exact hm
  · exact hf m hm

theorem addChild (h : t.Holds K allowed) (parent : NamespaceId) (name : String) :
    (t.addChild parent name).2.Holds K allowed := by
  refine update (fun n hn => ?_) parent fun n hn => ⟨hn.vars, hn.procedures⟩
  rcases List.mem_append.1 hn with hn | hn
  · exact h n hn
  · rw [List.mem_singleton.1 hn]
    exact ⟨fun _ he => (by cases he), fun _ he => (by cases he)⟩

theorem ensureFrom (h : t.Holds K allowed) (id : NamespaceId) (names : List String) :
    (t.ensureFrom id names).2.Holds K allowed := by
  induction names generalizing t id with
  | nil => exact h
  | cons name rest ih =>
    unfold NamespaceTree.ensureFrom
    split
    · exact ih h _
    · exact ih (h.addChild id name) _

theorem ensure (h : t.Holds K allowed) (start : NamespaceId) (path : String) :
    (t.ensure start path).2.Holds K allowed := by
  unfold NamespaceTree.ensure
  split
  · exact h.ensureFrom _ _
  · exact h.ensureFrom _ _

theorem clear (h : t.Holds K allowed) (fuel : Nat) (ids : List NamespaceId) :
    (t.clear fuel ids).Holds K allowed := by
  induction fuel generalizing t ids with
  | zero => exact h
  | succ fuel ih =>
    cases ids with
    | nil => exact h
    | cons id rest =>
      exact ih (h.update id fun _ _ => ⟨fun _ he => (by cases he), fun _ he => (by cases he)⟩) _

theorem delete (h : t.Holds K allowed) (id : NamespaceId) :
    (t.delete id).Holds K allowed := by
  unfold NamespaceTree.delete
  split
  · exact h
  · refine clear ?_ _ _
    split
    · exact h.update _ fun n hn => ⟨hn.vars, hn.procedures⟩
    · exact h

end NamespaceTree.Holds

/-! ## Variables -/

namespace Environment

variable {κ : Type} {env env' : Environment κ} {K : Value.Kind} {allowed : Nat → Prop}

/-- Where a name leads there is no link. -/
theorem held?_ne_link_of_locateWithin {whole : String} {hops : Nat} {name : String}
    {index : Option String} {depth : Nat} {l : Location}
    (h : env.locateWithin whole hops name index depth = .ok l) (target : String) (d : Nat) :
    env.held? l ≠ some (.link target d) := by
  induction hops generalizing name index depth with
  | zero => cases h
  | succ hops ih =>
    unfold locateWithin at h
    split at h
    · cases h
    · rename_i slot key _
      split at h
      · dsimp only at h
        split at h
        · cases h
        · exact ih h
        · exact ih h
      · rename_i hnot
        cases h
        exact hnot target d

theorem held?_ne_link {name : String} {l : Location} (h : env.locate name = .ok l)
    (target : String) (d : Nat) : env.held? l ≠ some (.link target d) :=
  held?_ne_link_of_locateWithin h target d

namespace Holds

theorem scope (h : env.Holds K allowed) (slot : Slot) :
    ∀ e ∈ env.scope slot, ∃ bound, e.2.Held K bound := by
  intro e he
  unfold Environment.scope at he
  split at he
  · rename_i depth
    split at he
    · rename_i vars hown
      cases hframe : env.stack.frame? depth with
      | none =>
        rw [Stack.frame, hframe] at hown
        exact ⟨_, h.stack.top.vars vars hown e he⟩
      | some f =>
        rw [Stack.frame_eq_of_frame? hframe] at hown
        exact ⟨_, (h.stack _ _ hframe).vars vars hown e he⟩
    · exact ⟨_, (h.namespaces.node _).vars e he⟩
  · exact ⟨_, (h.namespaces.node _).vars e he⟩

theorem held? (h : env.Holds K allowed) {name : String} {l : Location} {v : Value}
    (hl : env.locate name = .ok l) (hv : env.held? l = some v) : K.Has v := by
  obtain ⟨bound, hheld⟩ := h.scope l.slot _ (Table.mem_of_get? hv)
  cases hheld with
  | value hfree => exact hfree
  | link target _ => exact absurd hv (held?_ne_link hl target _)

theorem has_read (h : env.Holds K allowed) {name : String} {v : Value}
    (hread : env.read name = .ok v) : K.Has v := by
  obtain ⟨l, hl, hread⟩ := exists_of_bind_eq_ok hread
  split at hread
  · cases hread
  · rename_i entries index hheld _
    have hentries := (h.held? hl hheld).forall_entries
    cases hget : Table.get? entries index with
    | none => rw [hget] at hread; cases hread
    | some w =>
      rw [hget] at hread
      cases hread
      exact hentries _ (Table.mem_of_get? hget)
  · cases hread
  · cases hread
  · rename_i hheld _
    cases hread
    exact h.held? hl hheld

theorem has_array (h : env.Holds K allowed) {name : String} {entries : Table Value}
    (harray : env.array? name = some entries) : ∀ e ∈ entries, K.Has e.2 := by
  unfold Environment.array? at harray
  split at harray
  · rename_i l hl
    split at harray
    · rename_i found hheld _
      cases harray
      exact (h.held? hl hheld).forall_entries
    · cases harray
  · cases harray

theorem has_arrayEntries (h : env.Holds K allowed) (name : String) :
    ∀ e ∈ env.arrayEntries name, K.Has e.2 := by
  unfold Environment.arrayEntries
  cases harray : env.array? name with
  | none => exact fun _ he => by cases he
  | some entries => exact h.has_array harray

/-! ## Changing variables -/

theorem modifyNamespaceScope (h : env.Holds K allowed) (id : NamespaceId)
    {f : Table Value → Table Value}
    (hf : ∀ vars : Table Value, (∀ e ∈ vars, e.2.Held K allowed) →
      ∀ e ∈ f vars, e.2.Held K allowed) :
    (env.modifyNamespaceScope id f).Holds K allowed where
  namespaces := h.namespaces.update id fun _ hn => ⟨hf _ hn.vars, hn.procedures⟩
  stack := h.stack

/-- A change of the variables in a slot. Which links it may bring in depends on whose they are. -/
theorem modifyScope (h : env.Holds K allowed) (slot : Slot) {f : Table Value → Table Value}
    (hown : ∀ depth, slot = .frame depth → ∀ vars : Table Value,
      (∀ e ∈ vars, e.2.Held K (· ≤ depth)) → ∀ e ∈ f vars, e.2.Held K (· ≤ depth))
    (hshared : (∀ depth, slot = .frame depth → (env.stack.frame depth).isOwn = false) →
      ∀ vars : Table Value, (∀ e ∈ vars, e.2.Held K allowed) → ∀ e ∈ f vars, e.2.Held K allowed) :
    (env.modifyScope slot f).Holds K allowed := by
  unfold Environment.modifyScope
  split
  · rename_i depth
    split
    · rename_i vars hvars
      refine ⟨h.namespaces, h.stack.modify fun fr hfr => ?_⟩
      have hfr' := h.stack _ _ hfr
      rw [Stack.frame_eq_of_frame? hfr] at hvars
      refine ⟨fun changed hchanged => ?_, hfr'.invocation, hfr'.command⟩
      cases hchanged
      exact hown depth rfl vars (hfr'.vars vars hvars)
    · rename_i id hid
      refine h.modifyNamespaceScope id (hshared fun depth' hslot => ?_)
      cases hslot
      rw [Frame.isOwn, hid]
  · exact h.modifyNamespaceScope _ (hshared fun _ hslot => by cases hslot)

theorem assign (h : env.Holds K allowed) (slot : Slot) (name : String) {v : Value}
    (hv : K.Has v) : (env.assign slot name v).Holds K allowed := by
  have hinsert : ∀ (bound : Nat → Prop) (vars : Table Value), (∀ e ∈ vars, e.2.Held K bound) →
      ∀ e ∈ vars.insert name v, e.2.Held K bound := by
    intro bound vars hvars e he
    rcases Table.mem_insert he with he | rfl
    · exact hvars e he
    · exact .value hv
  exact h.modifyScope slot (fun _ _ => hinsert _) fun _ => hinsert _

theorem erase (h : env.Holds K allowed) (slot : Slot) (name : String) :
    (env.modifyScope slot fun scope => scope.erase name).Holds K allowed :=
  h.modifyScope slot (fun _ _ _ hvars e he => hvars e (Table.mem_of_mem_erase he))
    fun _ _ hvars e he => hvars e (Table.mem_of_mem_erase he)

/-- A link in the own variables of the top frame is within their bound. -/
theorem link (h : env.Holds K allowed) {level : Nat} (target name : String)
    (hdepth : level ≤ env.depth) (hlevel : env.stack.top.isOwn = true ∨ allowed level) :
    (env.assign (.frame env.depth) name (.link target level)).Holds K allowed := by
  have hinsert : ∀ (bound : Nat → Prop) (vars : Table Value), bound level →
      (∀ e ∈ vars, e.2.Held K bound) →
      ∀ e ∈ vars.insert name (.link target level), e.2.Held K bound := by
    intro bound vars hbound hvars e he
    rcases Table.mem_insert he with he | rfl
    · exact hvars e he
    · exact .link target hbound
  refine h.modifyScope _ (fun depth hslot vars => ?_) fun hshared vars => ?_
  · cases hslot
    exact hinsert _ vars hdepth
  · refine hinsert _ vars (hlevel.resolve_left fun hown => ?_)
    have htop : (env.stack.frame env.stack.depth).isOwn = false := hshared env.depth rfl
    rw [Stack.frame_eq_of_frame? env.stack.frame?_depth, hown] at htop
    cases htop

/-! ## Commands and namespaces -/

theorem has_procedure (h : env.Holds K allowed) {id : NamespaceId} {name : String}
    {p : Procedure} (hp : (env.commandsOf id).get? name = some (.procedure p)) : p.Has K :=
  (h.namespaces.node id).procedures _ (Table.mem_of_get? hp) p rfl

theorem has_command (h : env.Holds K allowed) {name : String} {p : Procedure}
    (hp : env.command? name = some (.procedure p)) : p.Has K := by
  obtain ⟨⟨id, tail⟩, _, hget⟩ := Option.bind_eq_some_iff.1 hp
  exact h.has_procedure hget

theorem has_procedureNamed (h : env.Holds K allowed) {name : String} {p : Procedure}
    (hp : env.procedureNamed name = .ok p) : p.Has K := by
  unfold Environment.procedureNamed at hp
  split at hp
  · rename_i found hfound
    cases hp
    obtain ⟨command, hcommand, hprocedure⟩ := Option.bind_eq_some_iff.1 hfound
    cases command <;> cases hprocedure
    exact h.has_command hcommand
  · cases hp

theorem has_procedureBody (h : env.Holds K allowed) {name : String} {v : Value}
    (hv : env.procedureBody name = .ok v) : K.Has v := by
  obtain ⟨p, hp, hv⟩ := exists_of_bind_eq_ok hv
  cases hv
  exact (h.has_procedureNamed hp).body

theorem has_parameterDefault (h : env.Holds K allowed) {name parameter : String}
    {v? : Option Value} (hdefault : env.parameterDefault name parameter = .ok v?) :
    ∀ v, v? = some v → K.Has v := by
  obtain ⟨p, hp, hdefault⟩ := exists_of_bind_eq_ok hdefault
  split at hdefault
  · rename_i found hfound
    cases hdefault
    exact (h.has_procedureNamed hp).defaults _ (List.mem_of_find?_eq_some hfound)
  · cases hdefault

theorem modifyCommands (h : env.Holds K allowed) (id : NamespaceId)
    {f : Table (Executable κ) → Table (Executable κ)}
    (hf : ∀ commands e, e ∈ f commands → e ∈ commands ∨ ∀ p, e.2 = .procedure p → p.Has K) :
    (env.modifyCommands id f).Holds K allowed := by
  refine ⟨h.namespaces.update id fun n hn => ⟨hn.vars, fun e he p hp => ?_⟩, h.stack⟩
  rcases hf _ e he with he | hfree
  · exact hn.procedures e he p hp
  · exact hfree p hp

theorem insertCommand (h : env.Holds K allowed) (id : NamespaceId) (name : String)
    {command : Executable κ} (hcommand : ∀ p, command = .procedure p → p.Has K) :
    (env.modifyCommands id fun commands => commands.insert name command).Holds K allowed := by
  refine h.modifyCommands id fun commands e he => ?_
  rcases Table.mem_insert he with he | rfl
  · exact .inl he
  · exact .inr hcommand

theorem eraseCommand (h : env.Holds K allowed) (id : NamespaceId) (name : String) :
    (env.modifyCommands id fun commands => commands.erase name).Holds K allowed :=
  h.modifyCommands id fun _ _ he => .inl (Table.mem_of_mem_erase he)

theorem withNamespaces (h : env.Holds K allowed) {namespaces : NamespaceTree κ}
    (hnamespaces : namespaces.Holds K allowed) :
    ({ env with namespaces } : Environment κ).Holds K allowed := ⟨hnamespaces, h.stack⟩

theorem install (h : env.Holds K allowed) (name : String) {command : Executable κ}
    (hcommand : ∀ p, command = .procedure p → p.Has K) :
    (env.install name command).Holds K allowed := by
  unfold Environment.install
  split
  rename_i id tail namespaces hplace
  have hnamespaces : namespaces.Holds K allowed := by
    split at hplace
    · split at hplace <;> cases hplace
      · exact h.namespaces
      · exact h.namespaces.ensure _ _
    · cases hplace; exact h.namespaces
  exact (h.withNamespaces hnamespaces).insertCommand _ _ hcommand

/-! ## Stacks -/

theorem withStack (h : env.Holds K allowed) {stack : Stack} (hstack : stack.Holds K) :
    ({ env with stack } : Environment κ).Holds K allowed := ⟨h.namespaces, hstack⟩

end Holds

end Environment

end CommandScript
