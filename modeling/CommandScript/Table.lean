/-!
# Tables

A table maps names to entries and keeps the order in which the names first came in. Entering a
known name again changes its entry and not its place.
-/

namespace CommandScript

abbrev Table (α : Type) := List (String × α)

namespace Table

variable {α : Type}

def get? : Table α → String → Option α
  | [], _ => none
  | (k, v) :: rest, name => if k = name then some v else get? rest name

def contains (t : Table α) (name : String) : Bool := (get? t name).isSome

def insert : Table α → String → α → Table α
  | [], name, v => [(name, v)]
  | (k, w) :: rest, name, v => if k = name then (k, v) :: rest else (k, w) :: insert rest name v

def erase : Table α → String → Table α
  | [], _ => []
  | (k, v) :: rest, name => if k = name then rest else (k, v) :: erase rest name

def names (t : Table α) : List String := t.map Prod.fst

/-- The table that a row of entries builds up. -/
def ofList (entries : List (String × α)) : Table α :=
  entries.foldl (fun t (k, v) => insert t k v) []

/-- Enters a new name in its place in a table that is sorted by name. -/
def insertSorted : Table α → String → α → Table α
  | [], name, v => [(name, v)]
  | (k, w) :: rest, name, v =>
    if name < k then (name, v) :: (k, w) :: rest else (k, w) :: insertSorted rest name v

@[simp] theorem get?_nil (name : String) : get? ([] : Table α) name = none := rfl

theorem get?_insert_self (t : Table α) (name : String) (v : α) :
    get? (insert t name v) name = some v := by
  induction t with
  | nil => simp [insert, get?]
  | cons e rest ih =>
    by_cases h : e.1 = name
    · simp [insert, get?, h]
    · simp [insert, get?, h, ih]

theorem get?_insert_of_ne {t : Table α} {name other : String} (v : α) (h : name ≠ other) :
    get? (insert t name v) other = get? t other := by
  induction t with
  | nil => simp [insert, get?, h]
  | cons e rest ih =>
    by_cases hk : e.1 = name
    · subst hk; simp [insert, get?, h]
    · simp [insert, get?, hk, ih]

theorem mem_of_get? {t : Table α} {name : String} {v : α} (h : get? t name = some v) :
    (name, v) ∈ t := by
  induction t with
  | nil => cases h
  | cons e rest ih =>
    unfold get? at h
    split at h
    · rename_i hk
      cases h; subst hk
      exact List.mem_cons_self
    · exact List.mem_cons_of_mem _ (ih h)

theorem mem_insert {t : Table α} {name : String} {v : α} {e : String × α}
    (h : e ∈ insert t name v) : e ∈ t ∨ e = (name, v) := by
  induction t with
  | nil => exact .inr (List.mem_singleton.1 h)
  | cons e' rest ih =>
    unfold insert at h
    split at h
    · rename_i hk
      rcases List.mem_cons.1 h with rfl | h
      · exact .inr (by rw [hk])
      · exact .inl (List.mem_cons_of_mem _ h)
    · rcases List.mem_cons.1 h with rfl | h
      · exact .inl List.mem_cons_self
      · exact (ih h).imp_left (List.mem_cons_of_mem _)

theorem mem_insertSorted {t : Table α} {name : String} {v : α} {e : String × α}
    (h : e ∈ insertSorted t name v) : e ∈ t ∨ e = (name, v) := by
  induction t with
  | nil => exact .inr (List.mem_singleton.1 h)
  | cons e' rest ih =>
    unfold insertSorted at h
    split at h
    · exact (List.mem_cons.1 h).symm
    · rcases List.mem_cons.1 h with rfl | h
      · exact .inl List.mem_cons_self
      · exact (ih h).imp_left (List.mem_cons_of_mem _)

theorem mem_of_mem_erase {t : Table α} {name : String} {e : String × α} (h : e ∈ erase t name) :
    e ∈ t := by
  induction t with
  | nil => exact h
  | cons e' rest ih =>
    unfold erase at h
    split at h
    · exact List.mem_cons_of_mem _ h
    · rcases List.mem_cons.1 h with rfl | h
      · exact List.mem_cons_self
      · exact List.mem_cons_of_mem _ (ih h)

/-! ## Names -/

theorem get?_eq_none_iff {t : Table α} {name : String} : get? t name = none ↔ name ∉ names t := by
  induction t with
  | nil => simp [names]
  | cons e rest ih =>
    unfold get?
    split
    · rename_i hk
      simp [names, hk]
    · rename_i hk
      rw [ih]
      simp [names, Ne.symm hk]

theorem contains_eq_false_iff {t : Table α} {name : String} :
    contains t name = false ↔ name ∉ names t := by
  rw [← get?_eq_none_iff, contains, Option.isSome_eq_false_iff, Option.isNone_iff_eq_none]

theorem names_insert {t : Table α} {name : String} (h : name ∈ names t) (v : α) :
    names (insert t name v) = names t := by
  induction t with
  | nil => cases h
  | cons e rest ih =>
    unfold insert
    split
    · rfl
    · rename_i hk
      have hrest : name ∈ names rest := by
        rcases List.mem_cons.1 h with h | h
        · exact absurd h.symm hk
        · exact h
      show e.1 :: names (insert rest name v) = e.1 :: names rest
      rw [ih hrest]

theorem names_insertSorted_perm (t : Table α) (name : String) (v : α) :
    (names (insertSorted t name v)).Perm (name :: names t) := by
  induction t with
  | nil => exact .refl _
  | cons e rest ih =>
    unfold insertSorted
    split
    · exact .refl _
    · exact (List.Perm.cons e.1 ih).trans (.swap name e.1 (names rest))

theorem names_erase_sublist (t : Table α) (name : String) :
    (names (erase t name)).Sublist (names t) := by
  induction t with
  | nil => exact .slnil
  | cons e rest ih =>
    unfold erase
    split
    · exact List.sublist_cons_self _ _
    · exact ih.cons_cons e.1

theorem get?_insertSorted_of_ne {t : Table α} {name other : String} (v : α) (h : name ≠ other) :
    get? (insertSorted t name v) other = get? t other := by
  induction t with
  | nil => simp [insertSorted, get?, h]
  | cons e rest ih =>
    unfold insertSorted
    split
    · simp [get?, h]
    · simp only [get?, ih]

/-- Where names are not repeated, what is left after an erasure was there before. -/
theorem get?_of_get?_erase {t : Table α} (ht : (names t).Nodup) {name other : String} {v : α}
    (h : get? (erase t name) other = some v) : get? t other = some v := by
  induction t with
  | nil => cases h
  | cons e rest ih =>
    obtain ⟨hfirst, hrest⟩ := List.nodup_cons.1 ht
    unfold erase at h
    split at h
    · have hne : e.1 ≠ other := by
        intro heq
        rw [get?_eq_none_iff.2 (heq ▸ hfirst)] at h
        cases h
      rw [get?, if_neg hne, h]
    · unfold get? at h ⊢
      split at h
      · rw [if_pos ‹_›, h]
      · rw [if_neg ‹_›, ih hrest h]

end Table

end CommandScript
