import CommandScript.Proofs.Links.Cycles
import CommandScript.Proofs.Name.Splitting
import CommandScript.Proofs.Value.Text

/-!
# Arrays

Entries are merged into an array one by one, each under the name of an element, which is made up of
the array's name and the key and taken apart again. The name of the array is looked up anew for each
of them, with what was set before in place. A variable that is newly made may be found earlier on
the way than the link that led to it, but then it is the same variable
(`Environment.exists_locate_assign`), so that the name goes on to mean the array
(`Environment.Means.set_element`).

* `Environment.Means`: a name means a variable as a whole, with what it holds.
* `Environment.arrays_merge`: what an array holds afterwards, and when nothing is changed.
-/

namespace CommandScript

/-- The lead to another element of the variable, or to the whole. -/
def Lead.withIndex (lead : Lead) (index : Option String) : Lead := { lead with index := index }

namespace Environment

variable {κ : Type} {env env' : Environment κ} {slot slot' : Slot} {key key' name : String}
  {lead next last : Lead} {l : Location} {depth n : Nat} {v : Value}

/-! ## Looking up elements -/

/-- One link is followed for the whole of a variable and for each element. -/
theorem exists_link_of_onward (h : env.turn lead = .onward next) :
    ∃ target depth, Turn.ofLink target lead.index depth = .onward next ∧
      ∀ index, env.turn (lead.withIndex index) = .ofLink target index depth := by
  obtain ⟨slot, key, target, depth, hslot, hget, hlink⟩ := link_of_onward h
  refine ⟨target, _, hlink, fun index => ?_⟩
  simp only [turn, Lead.withIndex, hslot, hget]

/-- Where no index comes in, an element is looked up as the whole. -/
theorem turn_withIndex_onward (h : env.turn lead = .onward next) (hnext : next.index = none)
    (index : Option String) :
    lead.index = none ∧
      env.turn (lead.withIndex index) = .onward (next.withIndex index) := by
  obtain ⟨target, depth, hlink, hturn⟩ := exists_link_of_onward h
  rw [hturn]
  unfold Turn.ofLink at hlink ⊢
  split at hlink
  · cases hlink
  · cases hlink
    cases hnext
  · rename_i base hsplit
    cases hlink
    rw [hsplit]
    exact ⟨hnext, rfl⟩

theorem turn_withIndex_place (h : env.turn lead = .place slot key) (index : Option String) :
    env.turn (lead.withIndex index) = .place slot key := by
  obtain ⟨hslot, hnot⟩ := slotOf?_of_place h
  have hslot : env.slotOf? (lead.withIndex index).name (lead.withIndex index).depth =
      some (slot, key) := hslot
  rcases turn_of_slotOf? hslot with ⟨target, depth, hget, _⟩ | ⟨_, hplace⟩
  · exact absurd hget (hnot target depth)
  · exact hplace

theorem Follows.withIndex (h : env.Follows n lead last) (hlast : last.index = none)
    (index : Option String) :
    lead.index = none ∧ env.Follows n (lead.withIndex index) (last.withIndex index) := by
  induction h with
  | refl lead => exact ⟨hlast, .refl _⟩
  | step hturn _ ih =>
    obtain ⟨hnext, hfollows⟩ := ih hlast
    obtain ⟨hlead, hturn⟩ := turn_withIndex_onward hturn hnext index
    exact ⟨hlead, .step hturn hfollows⟩

theorem lead_element (hname : Name.Indexable name) (index : String) (depth : Nat) :
    (Lead.ofName name depth).withIndex (some index) =
      .ofName (Name.element name index) depth := by
  unfold Lead.ofName Lead.withIndex
  rw [hname.splitIndex_element, hname.splitIndex]

/-- The elements of a variable that is meant as a whole are found where it is. -/
theorem locate_element (hname : Name.Indexable name) (hl : env.locate name = .ok l)
    (hindex : l.index = none) (index : String) :
    env.locate (Name.element name index) = .ok { l with index := some index } := by
  obtain ⟨n, last, hn, hfollows, _, hplace, hlast⟩ := exists_follows_of_locate hl
  obtain ⟨_, hfollows⟩ := hfollows.withIndex (hlast.trans hindex) (some index)
  have hplace := turn_withIndex_place hplace (some index)
  rw [lead_element hname] at hfollows
  rw [locate_eq_search, hfollows.search_end (by rw [hplace]; rfl) _ hn, hplace]
  rfl

theorem turn_withIndex_notArray (h : env.turn lead = .onward next) (hlead : lead.index = none)
    (hnext : next.index ≠ none) (index : String) :
    env.turn (lead.withIndex (some index)) = .notArray := by
  obtain ⟨target, depth, hlink, hturn⟩ := exists_link_of_onward h
  rw [hturn]
  unfold Turn.ofLink at hlink ⊢
  split at hlink
  · cases hlink
  · rename_i hsplit _
    rw [hsplit]
  · cases hlink
    exact absurd hlead hnext

/-- What is an element itself has no elements. -/
theorem search_element {whole : String} {hops : Nat} (h : env.search whole hops lead = .ok l)
    (hlead : lead.index = none) (hl : l.index ≠ none) (index whole' : String) :
    env.search whole' hops (lead.withIndex (some index)) = .error (.notArray .reach whole') := by
  induction hops generalizing lead with
  | zero => cases h
  | succ hops ih =>
    rw [search_succ] at h ⊢
    cases hturn : env.turn lead with
    | place slot key =>
      rw [hturn] at h
      cases h
      exact absurd hlead hl
    | onward next =>
      rw [hturn] at h
      by_cases hnext : next.index = none
      · rw [(turn_withIndex_onward hturn hnext (some index)).2]
        exact ih h hnext
      · rw [turn_withIndex_notArray hturn hlead hnext]
        rfl
    | noNamespace => rw [hturn] at h; cases h
    | notArray => rw [hturn] at h; cases h

theorem locate_element_of_element (hname : Name.Indexable name) (hl : env.locate name = .ok l)
    (hindex : l.index ≠ none) (index : String) :
    env.locate (Name.element name index) =
      .error (.notArray .reach (Name.element name index)) := by
  rw [locate_eq_search] at hl
  have hlead : (Lead.ofName name env.depth).index = none := by
    rw [Lead.ofName, hname.splitIndex]
  rw [locate_eq_search, ← lead_element hname]
  exact search_element hl hlead hindex index _

/-! ## Setting elements -/

/-- A name means a variable as a whole, and this is what the variable holds. -/
def Means (env : Environment κ) (name : String) (held : Option Value) : Prop :=
  ∃ l, env.locate name = .ok l ∧ l.index = none ∧ env.held? l = held

/-- What a name means as a whole it goes on to mean when that is assigned a value. -/
theorem means_assign (hl : env.locate name = .ok l) (hindex : l.index = none)
    (hv : ∀ target d, v ≠ .link target d) :
    (env.assign l.slot l.name v).Means name (some v) := by
  obtain ⟨m, hm, hheld, hwhole, _⟩ := exists_locate_assign hl hv
  exact ⟨m, hm, hwhole.elim id fun hsame => hsame.trans hindex, hheld⟩

section

variable {e : String × Value} {rest : List (String × Value)}

theorem setElements_of_ok (h : env.set (Name.element name e.1) e.2 = .ok env') :
    env.setElements name (e :: rest) = env'.setElements name rest := by
  rw [setElements.eq_def]
  dsimp only
  rw [h]

theorem setElements_of_error {fault : VariableFault}
    (h : env.set (Name.element name e.1) e.2 = .error fault) :
    env.setElements name (e :: rest) = (.error fault, env) := by
  rw [setElements.eq_def]
  dsimp only
  rw [h]

end

namespace Means

variable {held : Option (Table Value)} {t : Table Value} {entries : List (String × Value)}
  {items : List Value}

theorem set_element (hname : Name.Indexable name) (h : env.Means name (held.map .array))
    (key : String) (v : Value) :
    ∃ env', env.set (Name.element name key) v = .ok env' ∧
      env'.Means name (some (.array ((held.getD []).insert key v))) := by
  obtain ⟨l, hl, hindex, hheld⟩ := h
  refine ⟨env.assign l.slot l.name (.array ((held.getD []).insert key v)), ?_,
    means_assign hl hindex fun _ _ h => by cases h⟩
  have hheld : env.held? { l with index := some key } = held.map .array := hheld
  rw [Environment.set, locate_element hname hl hindex key]
  simp only [bind, Except.bind, hheld]
  cases held <;> rfl

theorem setElements (hname : Name.Indexable name) (h : env.Means name (some (.array t)))
    (entries : List (String × Value)) :
    ∃ env', env.setElements name entries = (.ok (), env') ∧
      env'.Means name (some (.array (t.merge entries))) := by
  induction entries generalizing env t with
  | nil => exact ⟨env, rfl, h⟩
  | cons e rest ih =>
    have hmeans : env.Means name ((some t).map .array) := h
    obtain ⟨env', hset, hmeans⟩ := hmeans.set_element hname e.1 e.2
    obtain ⟨env'', hrest, hmeans⟩ := ih hmeans
    exact ⟨env'', (setElements_of_ok hset).trans hrest, hmeans⟩

theorem exists? (h : env.Means name (held.map .array)) : env.exists? name = held.isSome := by
  obtain ⟨l, hl, hindex, hheld⟩ := h
  unfold Environment.exists?
  rw [hl]
  dsimp only
  rw [hindex, hheld]
  cases held <;> rfl

/-- Merging succeeds, and the name means what was merged. -/
theorem setArray (hname : Name.Indexable name) (h : env.Means name (held.map .array))
    (hitems : Value.pairs? items = some entries) :
    ∃ env', env.setArray name items = (.ok (), env') ∧
      env'.Means name (some (.array ((held.getD []).merge entries))) := by
  rw [Environment.setArray, hitems]
  dsimp only
  rw [h.exists?]
  cases held with
  | some t =>
    rw [if_neg (by simp)]
    exact setElements hname h entries
  | none =>
    cases entries with
    | nil =>
      obtain ⟨l, hl, hindex, hheld⟩ := h
      have hset : env.set name (.array []) = .ok (env.assign l.slot l.name (.array [])) := by
        rw [Environment.set, hl]
        simp only [bind, Except.bind, hindex, hheld]
        rfl
      refine ⟨_, ?_, means_assign hl hindex fun _ _ h => by cases h⟩
      rw [hset]
      rfl
    | cons e rest =>
      obtain ⟨env', hset, hmeans⟩ := h.set_element hname e.1 e.2
      obtain ⟨env'', hrest, hmeans⟩ := hmeans.setElements hname rest
      refine ⟨env'', ?_, hmeans⟩
      rw [if_neg (by simp), setElements_of_ok hset]
      exact hrest

theorem array? (h : env.Means name (held.map .array)) : env.array? name = held := by
  obtain ⟨l, hl, hindex, hheld⟩ := h
  unfold Environment.array?
  rw [hl]
  dsimp only
  rw [hindex, hheld]
  cases held <;> rfl

theorem arrayEntries (h : env.Means name (held.map .array)) :
    env.arrayEntries name = held.getD [] := by
  rw [Environment.arrayEntries, h.array?]

theorem read_element (hname : Name.Indexable name) (h : env.Means name (some (.array t)))
    (hget : t.get? key = some v) : env.read (Name.element name key) = .ok v := by
  obtain ⟨l, hl, hindex, hheld⟩ := h
  refine read_eq_ok_iff.2 ⟨_, locate_element hname hl hindex key, ?_⟩
  have hheld : env.held? { l with index := some key } = some (.array t) := hheld
  rw [hheld]
  exact .element hget

end Means

/-- An element of what can be read, and is no array therefore, cannot be set. -/
theorem set_element_refused (hname : Name.Indexable name) (hread : env.read name = .ok v)
    (key : String) (w : Value) : ∃ fault, env.set (Name.element name key) w = .error fault := by
  obtain ⟨l, hl, hshows⟩ := read_eq_ok_iff.1 hread
  unfold Environment.set
  cases hindex : l.index with
  | some i =>
    rw [locate_element_of_element hname hl (by simp [hindex])]
    exact ⟨_, rfl⟩
  | none =>
    rw [locate_element hname hl hindex key]
    rw [hindex] at hshows
    have hheld : env.held? { l with index := some key } = env.held? l := rfl
    simp only [bind, Except.bind, hheld]
    generalize env.held? l = held at hshows
    cases hshows with
    | whole hnot =>
      cases v with
      | array entries => exact absurd rfl (hnot entries)
      | _ => exact ⟨_, rfl⟩

theorem setArray_refused (hname : Name.Indexable name) (hread : env.read name = .ok v)
    {items : List Value} {e : String × Value} {rest : List (String × Value)}
    (hitems : Value.pairs? items = some (e :: rest)) :
    ∃ fault, env.setArray name items = (.error fault, env) := by
  obtain ⟨fault, hset⟩ := set_element_refused hname hread e.1 e.2
  refine ⟨fault, ?_⟩
  rw [setArray, hitems]
  dsimp only
  rw [if_neg (by simp), setElements_of_error hset]

/-- A name means a variable as a whole that does not exist, or is an array. -/
def MeansArray (env : Environment κ) (name : String) : Prop :=
  ∃ held : Option (Table Value), env.Means name (held.map .array)

/-- **Keys and values are merged into an array all together or not at all.** Let a name that can be
given an index mean a variable as a whole that does not exist or is an array. Then keys and values
that pair up are merged: the array holds what it held, with the pairs entered one by one, so that
the old keys keep their places, the new ones come behind where each came first, and the last value
of a key counts; and each key reads under the name of its element. Where the keys and values do not
pair up, or there are some and the name has a value that is no array, they are refused, and the
environment is as it was. -/
theorem arrays_merge (env : Environment κ) (name : String) (hname : Name.Indexable name) :
    (env.MeansArray name → ∀ pairs : List (Value × Value), ∃ env' entries,
      env.setArray name (pairs.flatMap fun p => [p.1, p.2]) = (.ok (), env') ∧
      env'.array? name = some entries ∧
      entries = (env.arrayEntries name).merge (pairs.map fun p => (p.1.text, p.2)) ∧
      Table.names entries = Table.names (env.arrayEntries name) ++
        ((pairs.map fun p => p.1.text).filter fun key =>
          !(env.arrayEntries name).contains key).eraseDups ∧
      (∀ key, entries.get? key =
        ((pairs.reverse.find? fun p => p.1.text == key).map Prod.snd).or
          ((env.arrayEntries name).get? key)) ∧
      ∀ key v, entries.get? key = some v → env'.read (Name.element name key) = .ok v) ∧
    ∀ items : List Value,
      items.length % 2 = 1 ∨ items ≠ [] ∧ (∃ v, env.read name = .ok v) →
        ∃ fault, env.setArray name items = (.error fault, env) := by
  constructor
  · rintro ⟨held, hmeans⟩ pairs
    obtain ⟨env', hset, hafter⟩ := hmeans.setArray hname (Value.pairs?_pairs pairs)
    have harray : env'.Means name ((some _).map .array) := hafter
    rw [hmeans.arrayEntries]
    refine ⟨env', _, hset, harray.array?, rfl, ?_, fun key => ?_,
      fun key v => hafter.read_element hname⟩
    · rw [Table.names_merge, List.map_map]
      rfl
    · rw [Table.get?_merge, ← List.map_reverse, List.find?_map, Option.map_map]
      rfl
  · intro items hitems
    rcases Value.pairs?_cases items with ⟨_, hnone⟩ | ⟨pairs, rfl, hsome⟩
    · exact ⟨.oddElements, by rw [setArray, hnone]⟩
    · rcases hitems with hodd | ⟨hne, v, hread⟩
      · have hlength := Value.length_pairs pairs
        omega
      · cases pairs with
        | nil => exact absurd rfl hne
        | cons p rest => exact setArray_refused hname hread hsome

/-- In a procedure, a name that is linked to a global array, and keys that look like other names. -/
theorem arrays_merge_linked :
    let env : Environment Builtin :=
      { namespaces := { nodes := [{ name := "", parent := none,
                                    vars := [("arr", .array [("k", .string "old")])] }] }
        stack := { top := { storage := .own [("y", .link "arr" 0)], namespaceId := 0 }
                   below := [.bottom NamespaceTree.root] } }
    let pairs : List (Value × Value) :=
      [(.string "a)(::", .string "1"), (.string "", .string "2"), (.string "k", .string "3"),
        (.string "a)(::", .string "4")]
    Name.Indexable "y" ∧
      ∃ env' entries, env.setArray "y" (pairs.flatMap fun p => [p.1, p.2]) = (.ok (), env') ∧
        env'.array? "y" = some entries ∧ Table.names entries = ["k", "a)(::", ""] ∧
        env'.read "y(a)(::)" = .ok (.string "4") ∧
        ∃ fault, env.setArray "y" [.string "k"] = (.error fault, env) := by
  intro env pairs
  have hname : Name.Indexable "y" := ⟨by decide, by decide⟩
  have h := arrays_merge env "y" hname
  have hmeans : env.MeansArray "y" := ⟨some _, ⟨.frame 0, "arr", none⟩, rfl, rfl, rfl⟩
  obtain ⟨env', entries, hset, harray, -, hnames, hget, hread⟩ := h.1 hmeans pairs
  refine ⟨hname, env', entries, hset, harray, hnames.trans (by decide +kernel), ?_,
    h.2 [.string "k"] (.inl rfl)⟩
  exact hread "a)(::" (.string "4") ((hget _).trans rfl)

end Environment

end CommandScript
