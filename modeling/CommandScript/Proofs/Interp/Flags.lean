import CommandScript.Proofs.Interp.Tree
import CommandScript.Proofs.Table.Sorted

/-!
# Flags in trees of interpreters

A safe interpreter has safe children only, and an interpreter has the flag it was created with as
long as it is there. Paths alone do not tell whether it is: a child may be deleted and another one
created in its place. So an interpreter is known by a command that nothing installs and no registry
lists. Where that command is found after a change, it was before, and in an interpreter with the
same flag.

* `Interp.Inherits`: the children of a safe interpreter are safe.
* `Interp.FlagsKept`: at no path is a safe interpreter followed by one that is not.
* `Interp.Retains`: the interpreters with a mark have it and their flag from before.
-/

namespace CommandScript

/-- A command with this key is listed. -/
def Registry.Lists {κ : Type} (registry : Registry κ) (key : κ) : Prop :=
  ∃ entry ∈ registry, entry.2.key = key

namespace Interp

variable {κ : Type} {installs : κ → Bool → Prop}

/-! ## Stable properties -/

/-- The children of a safe interpreter are safe. -/
def Inherits (i : Interp κ) : Prop := i.safe = true → ∀ c ∈ i.children, c.2.safe = true

/-- No two children have one name. -/
def Distinct (i : Interp κ) : Prop := (Table.names i.children).Nodup

theorem stable_safe : Stable installs fun i : Interp κ => i.safe = true where
  evolve he h := he.safe.trans h
  fresh safe h := by
    show (safe || _) = true
    rw [h, Bool.or_true]

theorem stable_inherits : Stable installs (Inherits (κ := κ)) where
  evolve {i j} he h := by
    intro hsafe
    have hsafe : i.safe = true := he.safe ▸ hsafe
    have hold := h hsafe
    have hchildren := he.children
    generalize j.children = children at hchildren ⊢
    cases hchildren with
    | same => exact hold
    | replace c hb hc =>
      intro e hmem
      rcases Table.mem_insert hmem with hmem | rfl
      · exact hold e hmem
      · exact hc.trans (hold _ (Table.mem_of_get? hb))
    | add safe hnew =>
      intro e hmem
      rcases Table.mem_insertSorted hmem with hmem | rfl
      · exact hold e hmem
      · show (safe || i.safe) = true
        rw [hsafe, Bool.or_true]
    | drop name => exact fun e hmem => hold e (Table.mem_of_mem_erase hmem)
  fresh _ _ := nofun

theorem stable_distinct : Stable installs (Distinct (κ := κ)) where
  evolve {i j} he h := by
    have hchildren := he.children
    unfold Distinct at h ⊢
    generalize j.children = children at hchildren ⊢
    cases hchildren with
    | same => exact h
    | replace c hb _ =>
      have hmem : _ ∈ Table.names i.children := List.mem_map_of_mem (Table.mem_of_get? hb)
      rw [Table.names_insert hmem]
      exact h
    | add safe hnew =>
      refine (Table.names_insertSorted_perm _ _ _).nodup_iff.2 (List.nodup_cons.2 ⟨?_, h⟩)
      exact Table.contains_eq_false_iff.1 hnew
    | drop name => exact h.sublist (Table.names_erase_sublist _ _)
  fresh _ _ := .nil

/-! ## Flags by path -/

/-- What is still there is not less safe. -/
def FlagsKept (i j : Interp κ) : Prop :=
  ∀ path c d, i.child? path = some c → j.child? path = some d → c.safe = true → d.safe = true

namespace FlagsKept

variable {i j : Interp κ}

/-- Flags are kept where the children are kept, one by one. -/
theorem of_children (hsafe : j.safe = i.safe)
    (h : ∀ name c d, Table.get? i.children name = some c → Table.get? j.children name = some d →
      FlagsKept c d) : FlagsKept i j := by
  intro path c d hc hd hcsafe
  cases path with
  | nil => cases hc; cases hd; exact hsafe.trans hcsafe
  | cons name rest =>
    obtain ⟨a, ha, hc⟩ := Option.bind_eq_some_iff.1 hc
    obtain ⟨b, hb, hd⟩ := Option.bind_eq_some_iff.1 hd
    exact h name a b ha hb rest c d hc hd hcsafe

theorem refl (i : Interp κ) : FlagsKept i i := by
  intro path c d hc hd hsafe
  cases hc.symm.trans hd
  exact hsafe

theorem modifyChild {c d : Interp κ} {path : ChildPath} (hc : i.child? path = some c)
    (h : FlagsKept c d) : FlagsKept i (i.modifyChild (fun _ => d) path) := by
  induction path generalizing i with
  | nil => cases hc; exact h
  | cons name rest ih =>
    obtain ⟨b, hb, hc⟩ := Option.bind_eq_some_iff.1 hc
    simp only [Interp.modifyChild, hb]
    refine of_children rfl fun other a a' ha ha' => ?_
    by_cases hname : name = other
    · subst hname
      rw [Table.get?_insert_self] at ha'
      cases ha'
      cases hb.symm.trans ha
      exact ih hc
    · rw [Table.get?_insert_of_ne _ hname, ha] at ha'
      cases ha'
      exact refl a

theorem createChild {path : ChildPath} {safe : Bool} (h : i.createChild path safe = .ok j) :
    FlagsKept i j := by
  obtain ⟨name, parent, _, hparent, hnew, rfl⟩ := createChild_ok h
  refine modifyChild hparent (.of_children rfl fun other a b ha hb => ?_)
  have hname : name ≠ other := by
    rintro rfl
    rw [Table.get?_eq_none_iff.2 (Table.contains_eq_false_iff.1 hnew)] at ha
    cases ha
  cases ha.symm.trans ((Table.get?_insertSorted_of_ne _ hname).symm.trans hb)
  exact refl a

theorem deleteChild (hi : Everywhere Distinct i) {path : ChildPath}
    (h : i.deleteChild path = .ok j) : FlagsKept i j := by
  obtain ⟨name, parent, _, hparent, rfl⟩ := deleteChild_ok h
  refine modifyChild hparent (.of_children rfl fun other a b ha hb => ?_)
  cases ha.symm.trans (Table.get?_of_get?_erase (hi.child? hparent).here hb)
  exact refl a

end FlagsKept

/-! ## Flags by mark -/

/-- The interpreter has a command with this key. -/
def Bears (i : Interp κ) (mark : κ) : Prop :=
  ∃ e ∈ i.env.namespaces.executables, e.key? = some mark

/-- The commands of a new interpreter are those of its registry. -/
theorem mem_executables_create {registry : Registry κ} {safe : Bool} {e : Executable κ}
    (h : e ∈ (create registry safe).env.namespaces.executables) :
    ∃ entry ∈ registry, e = .native entry.2.key entry.2.safe := by
  obtain ⟨node, hnode, name, hmem⟩ := NamespaceTree.mem_executables.1 h
  cases List.mem_singleton.1 hnode
  obtain ⟨entry, hentry, heq⟩ := List.mem_map.1 hmem
  cases heq
  exact ⟨entry, hentry, rfl⟩

/-- Every interpreter with the mark was there before, with the mark and the flag that it has. -/
structure Retains (mark : κ) (i j : Interp κ) : Prop where
  safe : j.safe = i.safe
  marked : ∀ path d, j.child? path = some d → d.Bears mark →
    ∃ c, i.child? path = some c ∧ c.Bears mark ∧ d.safe = c.safe

/-- New interpreters are not marked, and children can be told apart by name. -/
structure Markable (mark : κ) (i : Interp κ) : Prop where
  distinct : i.Distinct
  unlisted : ¬i.registry.Lists mark

theorem stable_markable {mark : κ} : Stable installs (Markable (κ := κ) mark) where
  evolve he h := ⟨stable_distinct.evolve he h.distinct, he.registry ▸ h.unlisted⟩
  fresh _ h := ⟨.nil, h.unlisted⟩

namespace Retains

variable {mark : κ} {i j k : Interp κ}

theorem refl (i : Interp κ) : Retains mark i i := ⟨rfl, fun _ d hd hmark => ⟨d, hd, hmark, rfl⟩⟩

theorem trans (h : Retains mark i j) (h' : Retains mark j k) : Retains mark i k where
  safe := h'.safe.trans h.safe
  marked path e he hmark := by
    obtain ⟨d, hd, hmark, hflag⟩ := h'.marked path e he hmark
    obtain ⟨c, hc, hmark, hflag'⟩ := h.marked path d hd hmark
    exact ⟨c, hc, hmark, hflag.trans hflag'⟩

/-- Each child is one that was there, or has no mark in it. -/
theorem of_children (hsafe : j.safe = i.safe) (hmark : j.Bears mark → i.Bears mark)
    (h : ∀ name d, Table.get? j.children name = some d →
      (∃ c, Table.get? i.children name = some c ∧ Retains mark c d) ∨
        ∀ path e, d.child? path = some e → ¬e.Bears mark) : Retains mark i j where
  safe := hsafe
  marked path e he hbears := by
    cases path with
    | nil =>
      cases he
      exact ⟨i, rfl, hmark hbears, hsafe⟩
    | cons name rest =>
      obtain ⟨d, hd, he⟩ := Option.bind_eq_some_iff.1 he
      rcases h name d hd with ⟨c, hc, hretains⟩ | hnone
      · obtain ⟨a, ha, hbears, hflag⟩ := hretains.marked rest e he hbears
        refine ⟨a, ?_, hbears, hflag⟩
        rw [Interp.child?, hc]
        exact ha
      · exact absurd hbears (hnone rest e he)

/-- The same children below an interpreter that has not got the mark. -/
theorem of_same_children (hsafe : j.safe = i.safe) (hmark : j.Bears mark → i.Bears mark)
    (hchildren : j.children = i.children) : Retains mark i j :=
  of_children hsafe hmark fun _ d hd => .inl ⟨d, hchildren ▸ hd, refl d⟩

theorem evolve (he : Evolves (fun key _ => key ≠ mark) i j) (hchildren : j.children = i.children) :
    Retains mark i j := by
  refine of_same_children he.safe ?_ hchildren
  rintro ⟨e, hmem, hkey⟩
  rcases he.commands e hmem with hmem | hinstalled
  · exact ⟨e, hmem, hkey⟩
  · exact absurd rfl (hinstalled mark hkey)

theorem modifyChild {c d : Interp κ} {path : ChildPath} (hc : i.child? path = some c)
    (h : Retains mark c d) : Retains mark i (i.modifyChild (fun _ => d) path) := by
  induction path generalizing i with
  | nil => cases hc; exact h
  | cons name rest ih =>
    obtain ⟨b, hb, hc⟩ := Option.bind_eq_some_iff.1 hc
    simp only [Interp.modifyChild, hb]
    refine of_children rfl (fun hbears => hbears) fun other a ha => .inl ?_
    by_cases hname : name = other
    · subst hname
      rw [Table.get?_insert_self] at ha
      cases ha
      exact ⟨b, hb, ih hc⟩
    · rw [Table.get?_insert_of_ne _ hname] at ha
      exact ⟨a, ha, refl a⟩

theorem withNewChild (hi : i.Markable mark) {name : String}
    (hnew : Table.contains i.children name = false) (safe : Bool) :
    Retains mark i (i.withNewChild name safe) := by
  refine of_children rfl (fun hbears => hbears) fun other d hd => ?_
  by_cases hname : name = other
  · subst hname
    have hd : Table.get? (Table.insertSorted i.children name
        (create i.registry (safe || i.safe))) name = some d := hd
    rw [Table.get?_insertSorted_self (Table.contains_eq_false_iff.1 hnew)] at hd
    cases hd
    refine .inr fun path e he hbears => ?_
    cases path with
    | cons next rest => cases he
    | nil =>
      cases he
      obtain ⟨e, hmem, hkey⟩ := hbears
      obtain ⟨entry, hentry, rfl⟩ := mem_executables_create hmem
      exact hi.unlisted ⟨entry, hentry, Option.some.inj hkey⟩
  · have hd : Table.get? (Table.insertSorted i.children name
        (create i.registry (safe || i.safe))) other = some d := hd
    rw [Table.get?_insertSorted_of_ne _ hname] at hd
    exact .inl ⟨d, hd, refl d⟩

theorem erase (hi : i.Markable mark) (name : String) :
    Retains mark i { i with children := Table.erase i.children name } :=
  of_children rfl (fun hbears => hbears) fun _ d hd =>
    .inl ⟨d, Table.get?_of_get?_erase hi.distinct hd, refl d⟩

end Retains

end Interp

end CommandScript
