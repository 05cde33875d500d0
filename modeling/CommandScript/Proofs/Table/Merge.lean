import Mathlib.Data.List.Induction
import CommandScript.Table

/-!
# Merging entries into a table

A row of entries is merged into a table one by one. The names of the table keep their places, new
names come behind them, each where it came first (`Table.names_merge`), and of several entries with
one name the last counts (`Table.get?_merge`). A table that is built up from entries is the merge
into the empty one.
-/

namespace CommandScript.Table

variable {α β : Type} {t : Table α} {name : String} {v : α}

/-- The same names with other entries. -/
def mapEntries (f : α → β) (t : Table α) : Table β := t.map fun e => (e.1, f e.2)

theorem insert_new (h : name ∉ names t) (v : α) : insert t name v = t ++ [(name, v)] := by
  induction t with
  | nil => rfl
  | cons e rest ih =>
    obtain ⟨hne, hrest⟩ : e.1 ≠ name ∧ name ∉ names rest := by
      constructor
      · rintro rfl
        exact h List.mem_cons_self
      · exact fun hmem => h (List.mem_cons_of_mem _ hmem)
    rw [insert, if_neg hne, ih hrest, List.cons_append]

theorem insert_mapEntries (f : α → β) (t : Table α) (name : String) (v : α) :
    insert (mapEntries f t) name (f v) = mapEntries f (insert t name v) := by
  induction t with
  | nil => rfl
  | cons e rest ih =>
    by_cases h : e.1 = name
    · simp [mapEntries, insert, h]
    · have hcons : mapEntries f (e :: rest) = (e.1, f e.2) :: mapEntries f rest := rfl
      rw [hcons, insert, insert, if_neg h, if_neg h, ih]
      rfl

/-! ## Merging -/

/-- Enters a row of entries in turn. -/
def merge (t : Table α) (entries : List (String × α)) : Table α :=
  entries.foldl (fun t e => insert t e.1 e.2) t

theorem merge_concat (t : Table α) (entries : List (String × α)) (e : String × α) :
    merge t (entries ++ [e]) = insert (merge t entries) e.1 e.2 := by
  simp [merge, List.foldl_append]

/-- The names of the table stay in their places, and each new name stands where it came first. -/
theorem names_merge (t : Table α) (entries : List (String × α)) :
    names (merge t entries) =
      names t ++ ((entries.map Prod.fst).filter fun name => !t.contains name).eraseDups := by
  induction entries using List.reverseRecOn with
  | nil => simp [merge]
  | append_singleton entries e ih =>
    rw [merge_concat, List.map_append, List.filter_append, List.eraseDups_append]
    by_cases hknown : e.1 ∈ names (merge t entries)
    · rw [names_insert hknown, ih]
      rw [ih, List.mem_append, List.mem_eraseDups] at hknown
      rcases hknown with hold | hnew
      · have hcontains : t.contains e.1 = true := by
          rw [← Bool.not_eq_false, contains_eq_false_iff, not_not]
          exact hold
        simp [hcontains]
      · have hcontains : t.contains e.1 = false := by
          simpa using (List.mem_filter.1 hnew).2
        simp [hcontains, List.removeAll, List.mem_filter.1 hnew]
    · rw [insert_new hknown]
      rw [ih, List.mem_append, List.mem_eraseDups, not_or] at hknown
      have hcontains : t.contains e.1 = false := contains_eq_false_iff.2 hknown.1
      have hfirst : e.1 ∉ entries.map Prod.fst := fun hmem =>
        hknown.2 (List.mem_filter.2 ⟨hmem, by simp [hcontains]⟩)
      have hnames : names (merge t entries ++ [(e.1, e.2)]) = names (merge t entries) ++ [e.1] :=
        List.map_append
      rw [hnames, ih]
      simp [hcontains, List.removeAll, hfirst, List.eraseDups_cons]

/-- Each name has the entry that came last, or else the one it had. -/
theorem get?_merge (t : Table α) (entries : List (String × α)) (name : String) :
    get? (merge t entries) name =
      ((entries.reverse.find? fun e => e.1 == name).map Prod.snd).or (get? t name) := by
  induction entries using List.reverseRecOn with
  | nil => rfl
  | append_singleton entries e ih =>
    rw [merge_concat, List.reverse_append, List.reverse_singleton, List.singleton_append]
    by_cases h : e.1 = name
    · subst h
      rw [get?_insert_self, List.find?_cons_of_pos (by simp)]
      rfl
    · rw [get?_insert_of_ne _ h, ih, List.find?_cons_of_neg (by simpa using h)]

/-! ## Tables built up from entries -/

theorem ofList_eq_merge (entries : List (String × α)) : ofList entries = merge [] entries := rfl

theorem ofList_concat (entries : List (String × α)) (e : String × α) :
    ofList (entries ++ [e]) = insert (ofList entries) e.1 e.2 := merge_concat [] entries e

theorem ofList_mapEntries (f : α → β) (entries : List (String × α)) :
    ofList (mapEntries f entries) = mapEntries f (ofList entries) := by
  induction entries using List.reverseRecOn with
  | nil => rfl
  | append_singleton entries e ih =>
    have hconcat : mapEntries f (entries ++ [e]) = mapEntries f entries ++ [(e.1, f e.2)] := by
      simp [mapEntries]
    rw [hconcat, ofList_concat, ofList_concat, ih, insert_mapEntries]

/-- Each name stands where it came first. -/
theorem names_ofList (entries : List (String × α)) :
    names (ofList entries) = (entries.map Prod.fst).eraseDups := by
  rw [ofList_eq_merge, names_merge]
  exact congrArg List.eraseDups (List.filter_eq_self.2 fun _ _ => rfl)

/-- Each name has the entry that came last. -/
theorem get?_ofList (entries : List (String × α)) (name : String) :
    get? (ofList entries) name = (entries.reverse.find? fun e => e.1 == name).map Prod.snd := by
  rw [ofList_eq_merge, get?_merge, get?_nil, Option.or_none]

/-- What a name has is its last entry, by position. -/
theorem get?_ofList_eq_some_iff {entries : List (String × α)} :
    get? (ofList entries) name = some v ↔
      ∃ i : Nat, entries[i]? = some (name, v) ∧
        ∀ (j : Nat) (e : String × α), i < j → entries[j]? = some e → e.1 ≠ name := by
  induction entries using List.reverseRecOn with
  | nil => simp [ofList]
  | append_singleton entries last ih =>
    have hlast : (entries ++ [last])[entries.length]? = some last := List.getElem?_concat_length
    have hbefore : ∀ i < entries.length, (entries ++ [last])[i]? = entries[i]? :=
      fun i hi => List.getElem?_append_left hi
    have hbeyond : ∀ i e, (entries ++ [last])[i]? = some e → i ≤ entries.length := by
      intro i e he
      have hlength := (List.getElem?_eq_some_iff.1 he).1
      rw [List.length_append, List.length_singleton] at hlength
      omega
    rw [ofList_concat]
    by_cases hname : last.1 = name
    · -- The entry that came last counts, and no other has only other names behind it.
      subst hname
      rw [get?_insert_self]
      constructor
      · rintro ⟨⟩
        refine ⟨entries.length, hlast, fun j e hj he => ?_⟩
        exact absurd (hbeyond j e he) (Nat.not_le_of_lt hj)
      · rintro ⟨i, hi, hbehind⟩
        rcases Nat.lt_or_ge i entries.length with hlt | hge
        · exact absurd rfl (hbehind _ _ hlt hlast)
        · obtain rfl := Nat.le_antisymm (hbeyond i _ hi) hge
          rw [hlast] at hi
          rw [Option.some.inj hi]
    · rw [get?_insert_of_ne _ hname, ih]
      refine exists_congr fun i => ?_
      constructor
      · rintro ⟨hi, hbehind⟩
        have hlt := (List.getElem?_eq_some_iff.1 hi).1
        refine ⟨(hbefore i hlt).trans hi, fun j e hj he => ?_⟩
        rcases Nat.lt_or_ge j entries.length with hlt' | hge
        · exact hbehind j e hj ((hbefore j hlt').symm.trans he)
        · obtain rfl := Nat.le_antisymm (hbeyond j e he) hge
          rw [hlast] at he
          exact Option.some.inj he ▸ hname
      · rintro ⟨hi, hbehind⟩
        have hlt : i < entries.length := by
          rcases Nat.lt_or_ge i entries.length with hlt | hge
          · exact hlt
          · obtain rfl := Nat.le_antisymm (hbeyond i _ hi) hge
            rw [hlast] at hi
            exact absurd (congrArg Prod.fst (Option.some.inj hi)) hname
        refine ⟨(hbefore i hlt).symm.trans hi, fun j e hj he => ?_⟩
        exact hbehind j e hj ((hbefore j (List.getElem?_eq_some_iff.1 he).1).trans he)

theorem ofList_of_nodup {entries : List (String × α)} (h : (names entries).Nodup) :
    ofList entries = entries := by
  induction entries using List.reverseRecOn with
  | nil => rfl
  | append_singleton entries e ih =>
    have hconcat : names (entries ++ [e]) = names entries ++ [e.1] := List.map_append
    rw [hconcat, List.nodup_append] at h
    obtain ⟨hentries, -, hdisjoint⟩ := h
    have hnew : e.1 ∉ names entries := fun hmem => hdisjoint e.1 hmem e.1 List.mem_cons_self rfl
    rw [ofList_concat, ih hentries, insert_new hnew]

end CommandScript.Table
