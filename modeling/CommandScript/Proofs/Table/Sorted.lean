import CommandScript.Table

/-!
# Sorted tables

The children of namespaces and of interpreters are kept sorted by name, so that one can be found by
halving the table. `Table.bisect` does that; where the names strictly increase it finds what
`Table.get?` finds (`Table.Sorted.bisect_eq`). Entering a new name in its place, changing the entry
of a name and taking entries out keep a table sorted.
-/

namespace CommandScript.Table

variable {α : Type} {t : Table α} {name : String} {v : α}

/-- The names strictly increase. -/
def Sorted (t : Table α) : Prop := (names t).Pairwise (· < ·)

/-- Looks a name up in a sorted table: compares it with the name in the middle, and goes on in the
half where it must be. -/
def bisect (t : Table α) (name : String) : Option α :=
  match _h : t.drop (t.length / 2) with
  | [] => none
  | (k, v) :: after =>
    if name < k then bisect (t.take (t.length / 2)) name
    else if k < name then bisect after name
    else some v
termination_by t.length
decreasing_by
  all_goals
    have hlength := congrArg List.length _h
    simp only [List.length_drop, List.length_cons] at hlength
  · rw [List.length_take]
    omega
  · omega

/-! ## Looking up -/

theorem get?_append (xs ys : Table α) (name : String) :
    get? (xs ++ ys) name = (get? xs name).or (get? ys name) := by
  induction xs with
  | nil => rfl
  | cons e rest ih =>
    by_cases h : e.1 = name
    · simp [get?, h]
    · simp [get?, h, ih]

theorem mem_names_of_mem {e : String × α} (h : e ∈ t) : e.1 ∈ names t := List.mem_map_of_mem h

theorem Sorted.nodup (h : Sorted t) : (names t).Nodup := by
  refine List.Pairwise.imp ?_ h
  rintro a b hlt rfl
  exact String.lt_irrefl _ hlt

/-- Of a name that is not repeated, the entry that is found is the entry. -/
theorem get?_eq_some_iff (h : (names t).Nodup) : get? t name = some v ↔ (name, v) ∈ t := by
  refine ⟨mem_of_get?, fun hmem => ?_⟩
  induction t with
  | nil => cases hmem
  | cons e rest ih =>
    obtain ⟨hfirst, hrest⟩ := List.nodup_cons.1 h
    rcases List.mem_cons.1 hmem with rfl | hmem
    · simp [get?]
    · have hne : e.1 ≠ name := fun heq => hfirst (heq ▸ mem_names_of_mem hmem)
      rw [get?, if_neg hne, ih hrest hmem]

theorem get?_eq_none_of_lt (h : ∀ k ∈ names t, name < k ∨ k < name) : get? t name = none := by
  refine get?_eq_none_iff.2 fun hmem => ?_
  rcases h name hmem with hlt | hlt <;> exact String.lt_irrefl _ hlt

/-- A sorted table around one of its entries. -/
theorem Sorted.around {k : String} {after : Table α} {n : Nat} (h : Sorted t)
    (hdrop : t.drop n = (k, v) :: after) :
    t.take n ++ (k, v) :: after = t ∧ Sorted (t.take n) ∧ Sorted after ∧
      (∀ other ∈ names (t.take n), other < k) ∧ ∀ other ∈ names after, k < other := by
  have hsplit : t.take n ++ (k, v) :: after = t := by rw [← hdrop, List.take_append_drop]
  have hsorted : Sorted (t.take n ++ (k, v) :: after) := hsplit.symm ▸ h
  rw [Sorted, names, List.map_append, List.pairwise_append] at hsorted
  obtain ⟨hbefore, hupper, hacross⟩ := hsorted
  obtain ⟨hfirst, hafter⟩ := List.pairwise_cons.1 hupper
  exact ⟨hsplit, hbefore, hafter, fun other hmem => hacross other hmem k List.mem_cons_self, hfirst⟩

/-- Halving finds what going through the whole table finds. -/
theorem Sorted.bisect_eq (h : Sorted t) (name : String) : bisect t name = get? t name := by
  fun_induction bisect t name with
  | case1 t hdrop =>
    -- A table has no upper half only if it is empty.
    have hlength := congrArg List.length hdrop
    rw [List.length_drop, List.length_nil] at hlength
    have hnil : t = [] := List.length_eq_zero_iff.1 (by omega)
    rw [hnil]
    rfl
  | case2 t k v after hdrop hlt ih =>
    obtain ⟨hsplit, hbefore, _, _, hupper⟩ := h.around hdrop
    have hnone : get? ((k, v) :: after) name = none := by
      refine get?_eq_none_of_lt fun other hmem => .inl ?_
      rcases List.mem_cons.1 hmem with rfl | hmem
      · exact hlt
      · exact String.lt_trans hlt (hupper other hmem)
    calc bisect (t.take (t.length / 2)) name
      _ = get? (t.take (t.length / 2)) name := ih hbefore
      _ = get? (t.take (t.length / 2) ++ (k, v) :: after) name := by
        rw [get?_append, hnone, Option.or_none]
      _ = get? t name := by rw [hsplit]
  | case3 t k v after hdrop hlt hgt ih =>
    obtain ⟨hsplit, _, hafter, hlower, _⟩ := h.around hdrop
    have hnone : get? (t.take (t.length / 2)) name = none :=
      get?_eq_none_of_lt fun other hmem => .inr (String.lt_trans (hlower other hmem) hgt)
    have hne : k ≠ name := fun heq => String.lt_irrefl _ (heq ▸ hgt)
    calc bisect after name
      _ = get? after name := ih hafter
      _ = get? (t.take (t.length / 2) ++ (k, v) :: after) name := by
        rw [get?_append, hnone, Option.none_or, get?, if_neg hne]
      _ = get? t name := by rw [hsplit]
  | case4 t k v after hdrop hlt hgt =>
    have hmem : (k, v) ∈ t := List.mem_of_mem_drop (hdrop ▸ List.mem_cons_self)
    have heq : k = name := by
      rcases Std.lt_trichotomy k name with h | h | h
      · exact absurd h hgt
      · exact h
      · exact absurd h hlt
    exact ((get?_eq_some_iff h.nodup).2 (heq ▸ hmem)).symm

/-! ## Looking up after a change -/

theorem get?_insertSorted_self (h : name ∉ names t) (v : α) :
    get? (insertSorted t name v) name = some v := by
  induction t with
  | nil => simp [insertSorted, get?]
  | cons e rest ih =>
    have hne : e.1 ≠ name := fun heq => h (heq ▸ List.mem_cons_self)
    unfold insertSorted
    split
    · simp [get?]
    · rw [get?, if_neg hne, ih fun hmem => h (List.mem_cons_of_mem _ hmem)]

theorem get?_erase_of_ne {other : String} (h : name ≠ other) :
    get? (erase t name) other = get? t other := by
  induction t with
  | nil => rfl
  | cons e rest ih =>
    by_cases hk : e.1 = name
    · simp [erase, get?, hk, h]
    · simp [erase, get?, hk, ih]

theorem get?_erase_self (h : (names t).Nodup) : get? (erase t name) name = none := by
  induction t with
  | nil => rfl
  | cons e rest ih =>
    obtain ⟨hfirst, hrest⟩ := List.nodup_cons.1 h
    by_cases hk : e.1 = name
    · simpa [erase, hk] using get?_eq_none_iff.2 (hk ▸ hfirst)
    · simp [erase, get?, hk, ih hrest]

/-! ## What keeps a table sorted -/

theorem Sorted.sublist {u : Table α} (h : Sorted t) (hsub : List.Sublist u t) : Sorted u :=
  List.Pairwise.sublist (hsub.map Prod.fst) h

theorem Sorted.erase (h : Sorted t) (name : String) : Sorted (erase t name) :=
  List.Pairwise.sublist (names_erase_sublist t name) h

theorem Sorted.insert (h : Sorted t) (hmem : name ∈ names t) (v : α) :
    Sorted (insert t name v) := by
  rw [Sorted, names_insert hmem]
  exact h

theorem insertSorted_perm (t : Table α) (name : String) (v : α) :
    (insertSorted t name v).Perm ((name, v) :: t) := by
  induction t with
  | nil => exact .refl _
  | cons e rest ih =>
    unfold insertSorted
    split
    · exact .refl _
    · exact (List.Perm.cons e ih).trans (.swap (name, v) e rest)

theorem mem_insertSorted_iff {e : String × α} :
    e ∈ insertSorted t name v ↔ e = (name, v) ∨ e ∈ t :=
  (insertSorted_perm t name v).mem_iff.trans List.mem_cons

theorem Sorted.insertSorted (h : Sorted t) (hnew : name ∉ names t) (v : α) :
    Sorted (insertSorted t name v) := by
  induction t with
  | nil => exact List.pairwise_singleton _ _
  | cons e rest ih =>
    obtain ⟨hfirst, hrest⟩ := List.pairwise_cons.1 h
    unfold Table.insertSorted
    split
    · rename_i hlt
      refine List.pairwise_cons.2 ⟨fun other hmem => ?_, h⟩
      rcases List.mem_cons.1 hmem with rfl | hmem
      · exact hlt
      · exact String.lt_trans hlt (hfirst other hmem)
    · rename_i hlt
      have hgt : e.1 < name := by
        rcases Std.lt_trichotomy e.1 name with h | h | h
        · exact h
        · exact absurd (h ▸ List.mem_cons_self) hnew
        · exact absurd h hlt
      refine List.pairwise_cons.2
        ⟨fun other hmem => ?_, ih hrest fun hmem => hnew (List.mem_cons_of_mem _ hmem)⟩
      rcases List.mem_cons.1 ((names_insertSorted_perm rest name v).mem_iff.1 hmem) with rfl | hmem
      · exact hgt
      · exact hfirst other hmem

end CommandScript.Table
