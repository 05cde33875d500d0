import CommandScript.Interp.Basic
import CommandScript.Proofs.Environment.Edit

/-!
# Trees of interpreters

An interpreter and its descendants. A property of interpreters that commands cannot break one at a
time (`Interp.Stable`) stays true of a whole tree when a descendant changes, or when children come
and go.

* `Interp.Everywhere`: a property of an interpreter and all below it.
* `Interp.Everywhere.modifyChild`, `Interp.Everywhere.createChild`,
  `Interp.Everywhere.deleteChild`: what keeps such a property.
-/

namespace CommandScript

namespace Interp

variable {κ : Type} {installs : κ → Bool → Prop} {P : Interp κ → Prop}

/-- What an evaluation leaves as it was. -/
structure Kept (i j : Interp κ) : Prop where
  shape : j.env.stack.shape = i.env.stack.shape
  level : j.level = i.level
  recursionLimit : j.recursionLimit = i.recursionLimit
  safe : j.safe = i.safe
  registry : j.registry = i.registry

theorem Kept.refl (i : Interp κ) : Kept i i := ⟨rfl, rfl, rfl, rfl, rfl⟩

theorem Kept.trans {i j k : Interp κ} (h : Kept i j) (h' : Kept j k) : Kept i k where
  shape := h'.shape.trans h.shape
  level := h'.level.trans h.level
  recursionLimit := h'.recursionLimit.trans h.recursionLimit
  safe := h'.safe.trans h.safe
  registry := h'.registry.trans h.registry

/-! ## Properties of a tree of interpreters -/

/-- A property holds of an interpreter and of all its descendants. -/
inductive Everywhere (P : Interp κ → Prop) : Interp κ → Prop
  | node {i : Interp κ} (here : P i) (inside : ∀ c ∈ i.children, Everywhere P c.2) : Everywhere P i

theorem Everywhere.here {i : Interp κ} (h : Everywhere P i) : P i := by
  cases h with
  | node here _ => exact here

theorem Everywhere.inside {i : Interp κ} (h : Everywhere P i) {c : String × Interp κ}
    (hc : c ∈ i.children) : Everywhere P c.2 := by
  cases h with
  | node _ inside => exact inside c hc

theorem Everywhere.child? {i c : Interp κ} {path : ChildPath} (h : Everywhere P i)
    (hc : i.child? path = some c) : Everywhere P c := by
  induction path generalizing i with
  | nil => cases hc; exact h
  | cons name rest ih =>
    unfold Interp.child? at hc
    obtain ⟨b, hb, hc⟩ := Option.bind_eq_some_iff.1 hc
    exact ih (h.inside (Table.mem_of_get? hb)) hc

theorem Everywhere.mono {Q : Interp κ → Prop} (hPQ : ∀ i, P i → Q i) {i : Interp κ}
    (h : Everywhere P i) : Everywhere Q i := by
  induction h with
  | node here _ ih => exact .node (hPQ _ here) ih

/-- What holds of an interpreter if it holds of its children holds of all interpreters. -/
theorem children_induction {motive : Interp κ → Prop}
    (step : ∀ i : Interp κ, (∀ c ∈ i.children, motive c.2) → motive i) (i : Interp κ) :
    motive i :=
  step i fun c _ => children_induction step c.2
termination_by sizeOf i
decreasing_by
  rename_i hc
  have hsize := List.sizeOf_lt_of_mem hc
  obtain ⟨name, child⟩ := c
  obtain ⟨registry, env, children⟩ := i
  simp only [Prod.mk.sizeOf_spec, Interp.mk.sizeOf_spec] at hsize ⊢
  omega

theorem Everywhere.of_forall (h : ∀ i, P i) (i : Interp κ) : Everywhere P i :=
  children_induction (fun i ih => .node (h i) ih) i

/-- The children that an interpreter may have after a single change. -/
inductive Rearranged (i : Interp κ) : List (String × Interp κ) → Prop
  | same : Rearranged i i.children
  /-- A child has changed, but not its flag. -/
  | replace {name : String} {b : Interp κ} (c : Interp κ) : Table.get? i.children name = some b →
      c.safe = b.safe → Rearranged i (Table.insert i.children name c)
  | add {name : String} (safe : Bool) : Table.contains i.children name = false →
      Rearranged i (Table.insertSorted i.children name (create i.registry (safe || i.safe)))
  | drop (name : String) : Rearranged i (Table.erase i.children name)

/-- One interpreter has come from another by a change that commands can make, if the keys that may
be installed as safe or not are given. -/
structure Evolves (installs : κ → Bool → Prop) (i j : Interp κ) : Prop where
  registry : j.registry = i.registry
  safe : j.safe = i.safe
  recursionLimit : j.recursionLimit = i.recursionLimit
  /-- No built-in command is there that was neither there before nor may be installed. -/
  commands : ∀ e ∈ j.env.namespaces.executables,
    e ∈ i.env.namespaces.executables ∨ ∀ key, e.key? = some key → installs key e.isSafe
  children : Rearranged i j.children

/-- A property of interpreters that commands cannot break. -/
structure Stable (installs : κ → Bool → Prop) (P : Interp κ → Prop) : Prop where
  evolve : ∀ {i j}, Evolves installs i j → P i → P j
  fresh : ∀ {i} safe, P i → P (create i.registry (safe || i.safe))

/-- A property of interpreters that children coming, going and changing cannot break. -/
structure Rearrangeable (P : Interp κ → Prop) : Prop where
  rearrange : ∀ {i : Interp κ} {children : List (String × Interp κ)}, Rearranged i children → P i →
    P { i with children := children }
  fresh : ∀ {i} safe, P i → P (create i.registry (safe || i.safe))

theorem Everywhere.evolve (hP : Stable installs P) {i j : Interp κ} (h : Everywhere P i)
    (he : Evolves installs i j) (hc : j.children = i.children) : Everywhere P j :=
  .node (hP.evolve he h.here) fun _ hmem => h.inside (hc ▸ hmem)

/-- The same interpreter with other frames, records or levels. -/
theorem Evolves.of_eq {i j : Interp κ} (hr : j.registry = i.registry) (hs : j.safe = i.safe)
    (hl : j.recursionLimit = i.recursionLimit) (hn : j.env.namespaces = i.env.namespaces)
    (hc : j.children = i.children) : Evolves installs i j where
  registry := hr
  safe := hs
  recursionLimit := hl
  commands _ he := .inl (hn ▸ he)
  children := hc ▸ .same

/-- The same interpreter with other children. -/
theorem Evolves.withChildren {i : Interp κ} {children : List (String × Interp κ)}
    (h : Rearranged i children) : Evolves installs i { i with children := children } where
  registry := rfl
  safe := rfl
  recursionLimit := rfl
  commands _ he := .inl he
  children := h

theorem Stable.rearrangeable (h : Stable installs P) : Rearrangeable P where
  rearrange hchildren := h.evolve (.withChildren hchildren)
  fresh := h.fresh

/-- The same interpreter with a command installed. -/
theorem Evolves.install (i : Interp κ) (name : String) {key : κ} {safe : Bool} (isClosure : Bool)
    (h : installs key safe) :
    Evolves installs i { i with
      env := i.env.install name (if isClosure then .closure key safe else .native key safe) } where
  registry := rfl
  safe := rfl
  recursionLimit := rfl
  commands e he := by
    refine (Environment.Edit.mem_executables_install he).imp_right ?_
    rintro rfl key' hkey
    cases isClosure <;> cases hkey <;> exact h
  children := .same

theorem Evolves.edit {i : Interp κ} {env : Environment κ} {K : Value.Kind} {allowed : Nat → Prop}
    (h : i.env.Edit K allowed env) : Evolves installs i { i with env } where
  registry := rfl
  safe := rfl
  recursionLimit := rfl
  commands e he := (h.executables he).imp_right fun hnone key hkey => by
    rw [hnone] at hkey
    cases hkey
  children := .same

/-! ## Changing a descendant -/

theorem child?_append (i : Interp κ) (path rest : ChildPath) :
    i.child? (path ++ rest) = (i.child? path).bind (·.child? rest) := by
  induction path generalizing i with
  | nil => rfl
  | cons name path ih =>
    simp only [List.cons_append, Interp.child?, Option.bind_assoc, ih]

theorem modifyChild_safe {f : Interp κ → Interp κ} {i c : Interp κ} {path : ChildPath}
    (hc : i.child? path = some c) (hf : (f c).safe = c.safe) :
    (i.modifyChild f path).safe = i.safe := by
  cases path with
  | nil => cases hc; exact hf
  | cons name rest =>
    unfold modifyChild
    split <;> rfl

theorem Kept.modifyChild {f : Interp κ → Interp κ} {i c : Interp κ} {path : ChildPath}
    (hc : i.child? path = some c) (hf : Kept c (f c)) : Kept i (i.modifyChild f path) := by
  cases path with
  | nil => cases hc; exact hf
  | cons name rest =>
    unfold Interp.modifyChild
    split
    · exact ⟨rfl, rfl, rfl, rfl, rfl⟩
    · exact Kept.refl i

theorem Everywhere.modifyChild (hP : Rearrangeable P) {f : Interp κ → Interp κ} {i c : Interp κ}
    {path : ChildPath} (h : Everywhere P i) (hc : i.child? path = some c)
    (hf : Everywhere P (f c)) (hsafe : (f c).safe = c.safe) :
    Everywhere P (i.modifyChild f path) := by
  induction path generalizing i with
  | nil => cases hc; exact hf
  | cons name rest ih =>
    unfold Interp.child? at hc
    obtain ⟨b, hb, hc⟩ := Option.bind_eq_some_iff.1 hc
    have hmem := Table.mem_of_get? hb
    have hnew := ih (h.inside hmem) hc
    unfold Interp.modifyChild
    simp only [hb]
    have hchange : Rearranged i (Table.insert i.children name (b.modifyChild f rest)) :=
      .replace _ hb (modifyChild_safe hc hsafe)
    refine .node (hP.rearrange hchange h.here) fun e he => ?_
    rcases Table.mem_insert he with he | rfl
    · exact h.inside he
    · exact hnew

/-- The parent of a new child. -/
def withNewChild (parent : Interp κ) (name : String) (safe : Bool) : Interp κ :=
  let child := create parent.registry (safe || parent.safe)
  { parent with children := Table.insertSorted parent.children name child }

theorem modifyChild_const {f : Interp κ → Interp κ} {i c : Interp κ} {path : ChildPath}
    (hc : i.child? path = some c) : i.modifyChild f path = i.modifyChild (fun _ => f c) path := by
  induction path generalizing i with
  | nil => cases hc; rfl
  | cons name rest ih =>
    unfold Interp.child? at hc
    obtain ⟨b, hb, hc⟩ := Option.bind_eq_some_iff.1 hc
    simp only [modifyChild, hb, ih hc]

theorem child?_modifyChild_self {i c d : Interp κ} {path : ChildPath}
    (hc : i.child? path = some c) : (i.modifyChild (fun _ => d) path).child? path = some d := by
  induction path generalizing i with
  | nil => rfl
  | cons name rest ih =>
    obtain ⟨b, hb, hc⟩ := Option.bind_eq_some_iff.1 hc
    simp only [Interp.modifyChild, hb, Interp.child?, Table.get?_insert_self, Option.bind_some]
    exact ih hc

theorem createChild_ok {i j : Interp κ} {path : ChildPath} {safe : Bool}
    (h : i.createChild path safe = .ok j) :
    ∃ name parent, path.getLast? = some name ∧ i.child? path.dropLast = some parent ∧
      Table.contains parent.children name = false ∧
      j = i.modifyChild (fun _ => parent.withNewChild name safe) path.dropLast := by
  unfold createChild at h
  split at h
  · cases h
  · rename_i name hname
    split at h
    · cases h
    · rename_i parent hparent
      split at h <;> cases h
      rename_i hnew
      exact ⟨name, parent, hname, hparent, Bool.not_eq_true _ ▸ hnew, modifyChild_const hparent⟩

theorem deleteChild_ok {i j : Interp κ} {path : ChildPath} (h : i.deleteChild path = .ok j) :
    ∃ name parent, path.getLast? = some name ∧ i.child? path.dropLast = some parent ∧
      j = i.modifyChild
        (fun _ => { parent with children := Table.erase parent.children name }) path.dropLast := by
  unfold deleteChild at h
  split at h
  · rename_i name _ hname hchild
    cases h
    obtain ⟨parent, hparent⟩ : ∃ parent, i.child? path.dropLast = some parent := by
      obtain ⟨front, rfl⟩ := List.getLast?_eq_some_iff.1 hname
      rw [child?_append] at hchild
      obtain ⟨parent, hparent, _⟩ := Option.bind_eq_some_iff.1 hchild
      exact ⟨parent, by rw [List.dropLast_concat, hparent]⟩
    exact ⟨name, parent, hname, hparent, modifyChild_const hparent⟩
  · cases h

theorem Everywhere.withNewChild (hP : Rearrangeable P) {parent : Interp κ} (h : Everywhere P parent)
    {name : String} (hnew : Table.contains parent.children name = false) (safe : Bool) :
    Everywhere P (parent.withNewChild name safe) := by
  refine .node (hP.rearrange (.add safe hnew) h.here) fun e he => ?_
  rcases Table.mem_insertSorted he with he | rfl
  · exact h.inside he
  · exact .node (hP.fresh safe h.here) nofun

theorem Everywhere.createChild (hP : Rearrangeable P) {i j : Interp κ} {path : ChildPath}
    {safe : Bool} (h : Everywhere P i) (hj : i.createChild path safe = .ok j) : Everywhere P j := by
  obtain ⟨name, parent, _, hparent, hnew, rfl⟩ := createChild_ok hj
  exact h.modifyChild hP hparent ((h.child? hparent).withNewChild hP hnew safe) rfl

theorem Everywhere.deleteChild (hP : Rearrangeable P) {i j : Interp κ} {path : ChildPath}
    (h : Everywhere P i) (hj : i.deleteChild path = .ok j) : Everywhere P j := by
  obtain ⟨name, parent, _, hparent, rfl⟩ := deleteChild_ok hj
  have hparents := h.child? hparent
  refine h.modifyChild hP hparent (.node ?_ fun e he => ?_) rfl
  · exact hP.rearrange (.drop name) hparents.here
  · exact hparents.inside (Table.mem_of_mem_erase he)

end Interp

end CommandScript
