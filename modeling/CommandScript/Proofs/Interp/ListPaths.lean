import CommandScript.Proofs.Interp.Paths
import CommandScript.Proofs.ListText.RoundTrip
import CommandScript.Proofs.Name.Splitting

/-!
# Paths given as lists

A list of several names is a path as it stands. A list of one name is read by its text, as one word
in which the names are divided by dots and double colons; and the text of a list is quoted. So a
name with neither divider in it is the path it should be, unless it is alone and has to be quoted:
then the path is the quoted name.

* `ListText.quote_eq_self_iff`: which elements stand in a list as they are.
* `ChildPath.Undivided.quote`: quoting brings no divider into a name.
* `ChildPath.ofValue_undivided`: the path that a list of names gives, also by way of its text.
* `Interp.list_paths_name_children`: which children are found again by the list of their names.
-/

namespace CommandScript

/-! ## Elements that stand as they are -/

namespace ListText

variable {cs : List Char}

/-- Every character that is escaped makes a text longer. -/
theorem length_escaped (cs : List Char) :
    (cs.flatMap escapeChar).length = cs.length + cs.countP fun c => escapeChar c != [c] := by
  induction cs with
  | nil => rfl
  | cons c cs ih =>
    rw [List.flatMap_cons, List.length_append, ih, List.length_cons, List.countP_cons]
    rcases Lexeme.escapeChar_cases c with ⟨d, h, -, -⟩ | ⟨h, -, -⟩ <;> simp [h] <;> omega

theorem canBraceFrom_of_not_special (depth : Nat) (h : ∀ c ∈ cs, isSpecial c = false) :
    canBraceFrom depth cs = (depth == 0) := by
  induction cs with
  | nil => rfl
  | cons c cs ih =>
    obtain ⟨hc, hcs⟩ := List.forall_mem_cons.1 h
    have hne : ∀ d, isSpecial d = true → c ≠ d := by
      rintro d hd rfl
      rw [hc] at hd
      cases hd
    have hstep : canBraceFrom depth (c :: cs) = canBraceFrom depth cs := by
      cases depth <;> simp [canBraceFrom, hne '\\' rfl, hne '{' rfl, hne '}' rfl]
    rw [hstep, ih hcs]

/-- What is neither bare nor braced has a character that is escaped. -/
theorem exists_special_of_not_canBrace (h : canBrace cs = false) :
    ∃ c ∈ cs, isSpecial c = true := by
  by_contra hnone
  have hplain : ∀ c ∈ cs, isSpecial c = false := fun c hc =>
    Bool.eq_false_iff.2 fun hs => hnone ⟨c, hc, hs⟩
  rw [canBrace, canBraceFrom_of_not_special 0 hplain] at h
  cases h

theorem escapeChar_of_special {c : Char} (h : isSpecial c = true) : escapeChar c = ['\\', c] := by
  rcases Lexeme.escapeChar_cases c with ⟨d, hd, -, -⟩ | ⟨-, -, hs⟩
  · unfold escapeChar
    split
    · cases h
    · cases h
    · cases h
    · simp [h]
  · rw [hs] at h
    cases h

/-- An element that has to be quoted is quoted with special characters. -/
theorem exists_special_quoteChars (hquote : needsQuoting cs = true) :
    ∃ c ∈ quoteChars cs, isSpecial c = true := by
  unfold quoteChars
  split
  · exact ⟨'{', List.mem_cons_self, rfl⟩
  · rw [hquote]
    split
    · rename_i hbare
      cases hbare
    · split
      · exact ⟨'{', List.mem_cons_self, rfl⟩
      · rename_i hbrace
        obtain ⟨c, hc, hs⟩ := exists_special_of_not_canBrace (Bool.eq_false_iff.2 hbrace)
        refine ⟨c, List.mem_flatMap.2 ⟨c, hc, ?_⟩, hs⟩
        rw [escapeChar_of_special hs]
        exact List.mem_cons_of_mem _ List.mem_cons_self

theorem needsQuoting_of_special {c : Char} (hc : c ∈ cs) (hs : isSpecial c = true) :
    needsQuoting cs = true := by
  have hany : (cs.any fun c => Text.isBlank c || isSpecial c) = true :=
    List.any_eq_true.2 ⟨c, hc, by rw [hs, Bool.or_true]⟩
  rw [needsQuoting, hany, Bool.or_true]

theorem quoteChars_eq_self_iff (hne : cs ≠ []) : quoteChars cs = cs ↔ needsQuoting cs = false := by
  constructor
  · intro heq
    -- The quoted form is longer: by two braces, or by the backslash before a special character.
    refine Bool.eq_false_iff.2 fun hquote => ?_
    have hlength := congrArg List.length heq
    rcases quoteChars_cases cs with ⟨-, hbraced⟩ | ⟨-, hescaped⟩
    · rw [hbraced, List.length_cons, List.length_append] at hlength
      omega
    · obtain ⟨c, hc, hs⟩ := exists_special_quoteChars hquote
      rw [heq] at hc
      have hlonger : 0 < cs.countP fun c => escapeChar c != [c] :=
        List.countP_pos_iff.2 ⟨c, hc, by simp [escapeChar_of_special hs]⟩
      rw [hescaped, length_escaped] at hlength
      omega
  · intro hbare
    have hempty : cs.isEmpty = false := List.isEmpty_eq_false_iff.2 hne
    simp [quoteChars, hempty, hbare]

/-- An element stands in a list as it is just if it does not have to be quoted. -/
theorem quote_eq_self_iff {element : String} (hne : element ≠ "") :
    quote element = element ↔ needsQuoting element.toList = false := by
  have hchars : element.toList ≠ [] := fun hnil => hne (String.toList_eq_nil_iff.1 hnil)
  rw [← quoteChars_eq_self_iff hchars, ← String.toList_inj, quote, String.toList_ofList]

theorem needsQuoting_quote {element : String} (h : needsQuoting element.toList = true) :
    needsQuoting (quote element).toList = true := by
  obtain ⟨c, hc, hs⟩ := exists_special_quoteChars h
  rw [quote, String.toList_ofList]
  exact needsQuoting_of_special hc hs

end ListText

/-! ## Names without dividers -/

namespace Text

theorem splitOn_of_not_mem {d : Char} {cs : List Char} (h : d ∉ cs) : splitOn [d] cs = [cs] := by
  induction cs with
  | nil => rfl
  | cons c cs ih =>
    have hne : d ≠ c := fun heq => h (heq ▸ List.mem_cons_self)
    have hstarts : ¬ [d].isPrefixOf (c :: cs) = true := by simp [List.isPrefixOf, hne]
    have hrest : splitFrom [d] 0 [] cs = [cs] := ih fun hmem => h (List.mem_cons_of_mem _ hmem)
    rw [splitOn, splitFrom, if_neg hstarts, splitFrom_eq, hrest]
    rfl

end Text

namespace ChildPath

/-- A name with none of the dividers of a path in it. -/
structure Undivided (name : String) : Prop where
  ne_empty : name ≠ ""
  no_dot : '.' ∉ name.toList
  plain : Name.Plain name

instance (name : String) : Decidable (Undivided name) :=
  decidable_of_iff (name ≠ "" ∧ '.' ∉ name.toList ∧ Name.Plain name)
    ⟨fun h => ⟨h.1, h.2.1, h.2.2⟩, fun h => ⟨h.ne_empty, h.no_dot, h.plain⟩⟩

section

open ListText

variable {cs : List Char}

/-- No character is escaped by way of a dot or a colon. -/
theorem mem_escapeChar {c d : Char} (hd : d = '.' ∨ d = ':') (h : d ∈ escapeChar c) :
    escapeChar c = [c] ∧ d = c := by
  rcases Lexeme.escapeChar_cases c with ⟨e, he, -, hfor⟩ | ⟨hbare, -, -⟩
  · rw [he] at h
    have hmem : d = '\\' ∨ d = e := by simpa using h
    rcases hmem with rfl | rfl
    · rcases hd with hd | hd <;> cases hd
    · rcases hd with rfl | rfl <;> cases hfor
  · rw [hbare] at h
    exact ⟨hbare, List.mem_singleton.1 h⟩

theorem mem_of_mem_escaped {d : Char} (hd : d = '.' ∨ d = ':')
    (h : d ∈ cs.flatMap escapeChar) : d ∈ cs := by
  obtain ⟨c, hc, hmem⟩ := List.mem_flatMap.1 h
  rw [(mem_escapeChar hd hmem).2]
  exact hc

/-- Escaped text begins with a colon only if the text does. -/
theorem escaped_eq_cons_colon {rest : List Char} (h : cs.flatMap escapeChar = ':' :: rest) :
    ∃ ds, cs = ':' :: ds ∧ ds.flatMap escapeChar = rest := by
  cases cs with
  | nil => cases h
  | cons c cs =>
    rw [List.flatMap_cons] at h
    have hmem : ':' ∈ escapeChar c := by
      rcases Lexeme.escapeChar_cases c with ⟨e, he, -, -⟩ | ⟨hbare, -, -⟩
      · rw [he] at h
        cases h
      · rw [hbare] at h ⊢
        cases h
        exact List.mem_cons_self
    obtain ⟨hbare, rfl⟩ := mem_escapeChar (.inr rfl) hmem
    rw [hbare] at h
    exact ⟨cs, rfl, (List.cons.inj h).2⟩

theorem colons_of_escaped (h : [':', ':'] <:+: cs.flatMap escapeChar) : [':', ':'] <:+: cs := by
  induction cs with
  | nil => exact h
  | cons c cs ih =>
    rw [List.infix_cons_iff]
    rw [List.flatMap_cons] at h
    rcases Lexeme.escapeChar_cases c with ⟨e, he, -, hfor⟩ | ⟨hbare, -, -⟩
    · -- Neither the backslash nor what it escapes is a colon.
      have hne : e ≠ ':' := by
        rintro rfl
        cases hfor
      rw [he] at h
      have hrest : [':', ':'] <:+: cs.flatMap escapeChar := by
        simpa [List.infix_cons_iff, List.cons_prefix_cons, hne.symm] using h
      exact .inr (ih hrest)
    · rw [hbare, List.singleton_append, List.infix_cons_iff] at h
      rcases h with hstarts | hrest
      · obtain ⟨rest, heq⟩ := hstarts
        obtain ⟨rfl, hnext⟩ := List.cons.inj heq
        obtain ⟨ds, rfl, -⟩ := escaped_eq_cons_colon hnext.symm
        exact .inl ⟨ds, rfl⟩
      · exact .inr (ih hrest)

theorem colons_of_braced (h : [':', ':'] <:+: '{' :: (cs ++ ['}'])) : [':', ':'] <:+: cs := by
  have hinner : [':', ':'] <:+: cs ++ ['}'] := by
    simpa [List.infix_cons_iff, List.cons_prefix_cons] using h
  obtain ⟨before, after, heq⟩ := hinner
  rcases List.eq_nil_or_concat after with rfl | ⟨after, d, rfl⟩
  · have hlast := congrArg List.getLast? heq
    simp at hlast
  · rw [List.concat_eq_append, ← List.append_assoc] at heq
    exact ⟨before, after, (List.append_inj' heq rfl).1⟩

end

namespace Undivided

variable {name : String}

theorem quote (h : Undivided name) : Undivided (ListText.quote name) := by
  have hchars : (ListText.quote name).toList = ListText.quoteChars name.toList :=
    String.toList_ofList
  have hpos := ListText.quoteChars_length_pos name.toList
  refine ⟨fun heq => ?_, ?_, ?_⟩
  · rw [← hchars, heq] at hpos
    exact absurd hpos (by decide)
  · rw [hchars]
    intro hdot
    rcases ListText.quoteChars_cases name.toList with ⟨-, hquoted⟩ | ⟨-, hquoted⟩
    · rw [hquoted] at hdot
      exact h.no_dot (by simpa using hdot)
    · rw [hquoted] at hdot
      exact h.no_dot (mem_of_mem_escaped (.inl rfl) hdot)
  · show ¬ [':', ':'] <:+: (ListText.quote name).toList
    rw [hchars]
    intro hcolons
    rcases ListText.quoteChars_cases name.toList with ⟨-, hquoted⟩ | ⟨-, hquoted⟩
    · rw [hquoted] at hcolons
      exact h.plain (colons_of_braced hcolons)
    · rw [hquoted] at hcolons
      exact h.plain (colons_of_escaped hcolons)

/-- A name without dividers is read as one name. -/
theorem split (h : Undivided name) : ChildPath.split name = [name] := by
  have hne : name.toList.isEmpty = false :=
    List.isEmpty_eq_false_iff.2 fun hnil => h.ne_empty (String.toList_eq_nil_iff.1 hnil)
  have hcolons : Text.splitOn "::".toList name.toList = [name.toList] := Text.splitOn_plain h.plain
  have hdots : Text.splitOn ['.'] name.toList = [name.toList] := Text.splitOn_of_not_mem h.no_dot
  rw [ChildPath.split, hcolons, List.flatMap_singleton, hdots, List.filterMap_cons, hne]
  simp

end Undivided

/-! ## Paths of lists -/

/-- The path that a list of names gives: several names as they stand, one name as it is quoted. -/
def listed : List String → ChildPath
  | [name] => [ListText.quote name]
  | names => names

theorem listed_of_length_ne_one {names : List String} (h : names.length ≠ 1) :
    listed names = names := by
  unfold listed
  split
  · exact absurd rfl h
  · rfl

theorem undivided_listed {names : List String} (h : ∀ name ∈ names, Undivided name) :
    ∀ name ∈ listed names, Undivided name := by
  by_cases hlength : names.length = 1
  · obtain ⟨name, rfl⟩ := List.length_eq_one_iff.1 hlength
    exact List.forall_mem_singleton.2 (h name List.mem_cons_self).quote
  · rw [listed_of_length_ne_one hlength]
    exact h

/-- One name is a path of its own just if it does not have to be quoted. -/
theorem listed_eq_self_iff {names : List String} (h : ∀ name ∈ names, Undivided name) :
    listed names = names ↔ ∀ name, names = [name] → ListText.needsQuoting name.toList = false := by
  by_cases hlength : names.length = 1
  · obtain ⟨name, rfl⟩ := List.length_eq_one_iff.1 hlength
    have hquote := ListText.quote_eq_self_iff (h name List.mem_cons_self).ne_empty
    constructor
    · intro heq other hother
      cases hother
      exact hquote.1 (List.cons.inj heq).1
    · intro hbare
      exact congrArg (fun quoted => [quoted]) (hquote.2 (hbare name rfl))
  · refine iff_of_true (listed_of_length_ne_one hlength) fun name hname => ?_
    rw [hname] at hlength
    exact absurd rfl hlength

/-- A quoted name is quoted once more. -/
theorem listed_listed_iff {names : List String} (h : ∀ name ∈ names, Undivided name) :
    listed (listed names) = listed names ↔ listed names = names := by
  refine ⟨fun heq => ?_, fun heq => by rw [heq, heq]⟩
  rw [listed_eq_self_iff h]
  rintro name rfl
  refine Bool.eq_false_iff.2 fun hquote => ?_
  have hbare := (listed_eq_self_iff (undivided_listed h)).1 heq (ListText.quote name) rfl
  rw [ListText.needsQuoting_quote hquote] at hbare
  cases hbare

theorem text_singleton (v : Value) : (Value.list [v]).text = ListText.quote v.text := by
  rw [Value.text, Value.texts_eq_map]
  rfl

theorem ofValue_list (items : List Value) :
    ofValue (.list items) =
      .ok (if items.length > 1 then items.map Value.text else split (Value.list items).text) := rfl

/-- Names without dividers give the path that they are listed as. -/
theorem ofValue_undivided {items : List Value} (h : ∀ v ∈ items, Undivided v.text) :
    ofValue (.list items) = .ok (listed (items.map Value.text)) := by
  rw [ofValue_list]
  cases items with
  | nil => rfl
  | cons v rest =>
    cases rest with
    | nil =>
      have hv := h v List.mem_cons_self
      rw [if_neg (by simp), text_singleton, hv.quote.split]
      rfl
    | cons w rest =>
      rw [if_pos (by simp), listed_of_length_ne_one (by simp)]

/-- A list and its text are the same path. -/
theorem ofValue_text (items : List Value) :
    ofValue (.string (Value.list items).text) = ofValue (.list items) := by
  have hparse : ListText.parse (Value.list items).text = .ok (items.map Value.text) := by
    rw [Value.text, Value.texts_eq_map]
    exact ListText.parse_format _
  have hlist : (Value.string (Value.list items).text).toList =
      .ok (items.map fun v => .string v.text) := by
    simp only [Value.toList, hparse, List.map_map]
    rfl
  have htexts : (items.map fun v => Value.string v.text).map Value.text = items.map Value.text := by
    rw [List.map_map]
    rfl
  show ((Value.string (Value.list items).text).toList >>= fun found => pure
    (if found.length > 1 then found.map Value.text else split (Value.list items).text)) = _
  rw [hlist, ofValue_list]
  show Except.ok _ = _
  rw [List.length_map, htexts]

end ChildPath

/-! ## Children found again -/

namespace Interp

open ChildPath

/-- A list of names with no divider in them, and the text of that list, give one and the same path:
just those names, unless there is only one and it has to be quoted. A child created at that path is
found there, and the list of the names on its path gives the path again, with the same exception:
the child then has the quoted name, and its list quotes that once more. -/
theorem list_paths_name_children (items : List Value) (h : ∀ v ∈ items, Undivided v.text) :
    let names := items.map Value.text
    ofValue (.list items) = .ok (listed names) ∧
    ofValue (.string (Value.list items).text) = .ok (listed names) ∧
    (listed names = names ↔ ∀ name, names = [name] → ListText.needsQuoting name.toList = false) ∧
    ∀ (κ : Type) (i j : Interp κ) (safe : Bool), i.createChild (listed names) safe = .ok j →
      (j.child? (listed names)).isSome = true ∧
      (ofValue (.list ((listed names).map .string)) = .ok (listed names) ↔
        ∀ name, names = [name] → ListText.needsQuoting name.toList = false) := by
  intro names
  have hnames : ∀ name ∈ names, Undivided name := by
    intro name hname
    obtain ⟨v, hv, rfl⟩ := List.mem_map.1 hname
    exact h v hv
  have hlist : ofValue (.list items) = .ok (listed names) := ofValue_undivided h
  refine ⟨hlist, (ofValue_text items).trans hlist, listed_eq_self_iff hnames,
    fun κ i j safe hcreate => ⟨((sameBut_createChild hcreate).2 _).2 (.inr rfl), ?_⟩⟩
  have htexts : ((listed names).map Value.string).map Value.text = listed names := by
    rw [List.map_map]
    exact List.map_id _
  have hagain : ofValue (.list ((listed names).map .string)) = .ok (listed (listed names)) := by
    rw [ofValue_undivided, htexts]
    intro v hv
    obtain ⟨name, hname, rfl⟩ := List.mem_map.1 hv
    exact undivided_listed hnames name hname
  rw [hagain, Except.ok.injEq, listed_listed_iff hnames, listed_eq_self_iff hnames]

/-- A child with a name that begins a comment, of one with a blank in its name. -/
theorem list_paths_name_children_nested :
    ofValue (.list [.string "a b", .string "#c"]) = .ok ["a b", "#c"] ∧
    ofValue (.string "\x7ba b\x7d \x7b#c\x7d") = .ok ["a b", "#c"] ∧
    ∃ i j : Interp Unit, i.createChild ["a b", "#c"] false = .ok j ∧
      (j.child? ["a b", "#c"]).isSome = true ∧
      ofValue (.list (["a b", "#c"].map .string)) = .ok ["a b", "#c"] := by
  have hnames : ∀ v ∈ [Value.string "a b", .string "#c"], Undivided v.text := by
    rintro v (_ | ⟨_, _ | ⟨_, hv⟩⟩)
    · show Undivided "a b"
      decide
    · show Undivided "#c"
      decide
    · cases hv
  obtain ⟨hlist, htext, -, hchild⟩ := list_paths_name_children _ hnames
  have houter : ∃ i, (create [] false : Interp Unit).createChild ["a b"] false = .ok i :=
    createChild_isOk_iff.2 ⟨List.cons_ne_nil _ _, rfl, fun h => by cases h⟩
  obtain ⟨i, hi⟩ := houter
  have hthere := (sameBut_createChild hi).2
  have hfree : ¬ (i.child? ["a b", "#c"]).isSome = true := by
    rw [hthere, child?_create]
    exact fun h => by rcases h with h | h <;> cases h
  have hinner : ∃ j, i.createChild ["a b", "#c"] false = .ok j :=
    createChild_isOk_iff.2 ⟨List.cons_ne_nil _ _, (hthere _).2 (.inr rfl), hfree⟩
  obtain ⟨j, hj⟩ := hinner
  obtain ⟨hfound, hagain⟩ := hchild Unit i j false hj
  exact ⟨hlist, htext, i, j, hj, hfound, hagain.2 fun name h => by cases h⟩

/-- A name with a blank in it is no path of its own: the braces of the list become part of it, and
the list of the name that the child then has gives yet another path. -/
theorem name_alone_is_path_in_braces :
    Undivided "a b" ∧
    ofValue (.list [.string "a b"]) ≠ .ok ["a b"] ∧
    ofValue (.list [.string "a b"]) = .ok ["\x7ba b\x7d"] ∧
    ofValue (.string (ListText.format ["a b"])) = .ok ["\x7ba b\x7d"] ∧
    ofValue (.list [.string "\x7ba b\x7d"]) = .ok ["\x7b\x7ba b\x7d\x7d"] := by
  refine ⟨by decide, fun heq => ?_, rfl, rfl, rfl⟩
  have hname : "\x7ba b\x7d" = "a b" := (List.cons.inj (Except.ok.inj heq)).1
  exact absurd hname (by decide)

end Interp

end CommandScript
