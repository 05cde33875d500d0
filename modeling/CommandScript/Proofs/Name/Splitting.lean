import CommandScript.Proofs.Environment.Listing
import Mathlib.Data.List.DropRight

/-!
# Taking names apart

Paths of namespaces are taken apart at double colons from the left, qualified names at the last one,
and names of array elements at the first parenthesis. Of three colons in a row the first two
separate the parts of a path, so that a part may start with a colon, and the last part may end in
one, but no other part ends in one.

* `Text.Parts`: the parts of a text, as a relation; `Text.parts_splitOn`, `Text.Parts.splitOn_eq`.
* `Name.components_intercalate`: which names can be read back after they were joined.
* `Name.splitQualified_append`, `Name.qualifiers_absolute`: the qualifiers of a name.
* `Name.Indexable.splitIndex_element`: the index of an element is read back.
-/

namespace CommandScript

namespace Text

variable {c : Char} {cs p rest : List Char} {parts : List (List Char)}

/-! ## Parts between double colons -/

/-- The parts of a text between the double colons that are found from the left. -/
inductive Parts : List Char → List (List Char) → Prop
  | last {p : List Char} : ¬ [':', ':'] <:+: p → Parts p [p]
  | cons {p rest : List Char} {parts : List (List Char)} : ¬ [':', ':'] <:+: p →
      p.getLast? ≠ some ':' → Parts rest parts → Parts (p ++ ':' :: ':' :: rest) (p :: parts)

/-- No double colon begins inside a part that does not end in a colon. -/
theorem not_prefix_append (hplain : ¬ [':', ':'] <:+: c :: p)
    (hend : (c :: p).getLast? ≠ some ':') (rest : List Char) :
    ¬ [':', ':'] <+: c :: (p ++ ':' :: ':' :: rest) := by
  intro hstarts
  cases p with
  | nil =>
    obtain rfl : ':' = c := (List.cons_prefix_cons.1 hstarts).1
    exact hend rfl
  | cons d p =>
    refine hplain (List.IsPrefix.isInfix ?_)
    simpa using hstarts

theorem getLast?_of_cons (h : (c :: p).getLast? ≠ some ':') : p.getLast? ≠ some ':' := by
  intro hlast
  cases p with
  | nil => cases hlast
  | cons d p => exact h (by rw [List.getLast?_cons_cons]; exact hlast)

theorem not_infix_of_cons (h : ¬ [':', ':'] <:+: c :: p) :
    ¬ [':', ':'] <+: c :: p ∧ ¬ [':', ':'] <:+: p := by
  rw [List.infix_cons_iff, not_or] at h
  exact h

theorem splitFrom_eq (separator current : List Char) :
    splitFrom separator 0 current cs =
      (splitFrom separator 0 [] cs).modifyHead (current.reverse ++ ·) := by
  induction cs generalizing current with
  | nil => simp [splitFrom]
  | cons c cs ih =>
    unfold splitFrom
    split
    · simp
    · rw [ih (c :: current), ih [c], List.modifyHead_modifyHead]
      congr 1
      funext part
      simp

theorem splitOn_colons :
    splitOn "::".toList (':' :: ':' :: rest) = [] :: splitOn "::".toList rest := rfl

theorem splitOn_cons (h : ¬ [':', ':'] <+: c :: cs) :
    splitOn "::".toList (c :: cs) = (splitOn "::".toList cs).modifyHead (c :: ·) := by
  have hstarts : ¬ "::".toList.isPrefixOf (c :: cs) = true := by
    rw [List.isPrefixOf_iff_prefix]
    exact h
  unfold splitOn
  rw [splitFrom, if_neg hstarts, splitFrom_eq]
  rfl

theorem splitOn_plain (h : ¬ [':', ':'] <:+: p) : splitOn "::".toList p = [p] := by
  induction p with
  | nil => rfl
  | cons c p ih =>
    obtain ⟨hstarts, hrest⟩ := not_infix_of_cons h
    rw [splitOn_cons hstarts, ih hrest]
    rfl

theorem splitOn_append (hplain : ¬ [':', ':'] <:+: p) (hend : p.getLast? ≠ some ':') :
    splitOn "::".toList (p ++ ':' :: ':' :: rest) = p :: splitOn "::".toList rest := by
  induction p with
  | nil => exact splitOn_colons
  | cons c p ih =>
    rw [List.cons_append, splitOn_cons (not_prefix_append hplain hend rest),
      ih (not_infix_of_cons hplain).2 (getLast?_of_cons hend)]
    rfl

/-- A text has no other parts than those it is split into. -/
theorem Parts.splitOn_eq (h : Parts cs parts) : splitOn "::".toList cs = parts := by
  induction h with
  | last hplain => exact splitOn_plain hplain
  | cons hplain hend _ ih => rw [splitOn_append hplain hend, ih]

/-- One more character goes to the first part, if it does not begin a double colon. -/
theorem Parts.prepend (h : Parts cs parts) (hstarts : ¬ [':', ':'] <+: c :: cs) :
    Parts (c :: cs) (parts.modifyHead (c :: ·)) := by
  cases h with
  | last hplain => exact .last (by simp [List.infix_cons_iff, hstarts, hplain])
  | @cons p rest parts hplain hend hrest =>
    refine Parts.cons (p := c :: p) ?_ ?_ hrest
    · rw [List.infix_cons_iff, not_or]
      refine ⟨fun hfirst => hstarts ?_, hplain⟩
      exact hfirst.trans (List.prefix_append (c :: p) _)
    · cases p with
      | nil =>
        intro hlast
        cases hlast
        exact hstarts ⟨':' :: rest, rfl⟩
      | cons d p => rwa [List.getLast?_cons_cons]

theorem parts_splitOn (cs : List Char) : Parts cs (splitOn "::".toList cs) := by
  induction hlength : cs.length using Nat.strongRecOn generalizing cs with
  | _ n ih =>
    subst hlength
    cases cs with
    | nil => exact .last (by decide)
    | cons c cs =>
      by_cases hstarts : [':', ':'] <+: c :: cs
      · obtain ⟨rest, heq⟩ := hstarts
        rw [← heq]
        refine .cons (p := []) (by decide) (by decide) (ih rest.length ?_ rest rfl)
        rw [← heq, List.length_append]
        exact Nat.lt_add_of_pos_left (by decide)
      · rw [splitOn_cons hstarts]
        exact (ih cs.length (by simp) cs rfl).prepend hstarts

theorem Parts.plain (h : Parts cs parts) (hp : p ∈ parts) : ¬ [':', ':'] <:+: p := by
  induction h with
  | last hplain =>
    cases List.mem_singleton.1 hp
    exact hplain
  | cons hplain _ _ ih =>
    rcases List.mem_cons.1 hp with rfl | hp
    · exact hplain
    · exact ih hp

theorem Parts.subset (h : Parts cs parts) (hp : p ∈ parts) : p ⊆ cs := by
  induction h with
  | last _ =>
    cases List.mem_singleton.1 hp
    exact List.Subset.refl _
  | cons _ _ _ ih =>
    rcases List.mem_cons.1 hp with rfl | hp
    · exact List.subset_append_left _ _
    · intro c hc
      simp [ih hp hc]

theorem Parts.ne_nil (h : Parts cs parts) : parts ≠ [] := by
  cases h <;> exact List.cons_ne_nil _ _

/-- Only the last part can end in a colon. -/
theorem Parts.dropLast (h : Parts cs parts) (hp : p ∈ parts.dropLast) : p.getLast? ≠ some ':' := by
  induction h with
  | last _ => cases hp
  | cons _ hend hrest ih =>
    rw [List.dropLast_cons_of_ne_nil hrest.ne_nil] at hp
    rcases List.mem_cons.1 hp with rfl | hp
    · exact hend
    · exact ih hp

/-- The last part ends as the text does. -/
theorem Parts.not_colon (h : Parts cs parts) (hcs : cs.getLast? ≠ some ':') (hp : p ∈ parts) :
    p.getLast? ≠ some ':' := by
  induction h with
  | last _ =>
    cases List.mem_singleton.1 hp
    exact hcs
  | @cons q rest parts _ hend _ ih =>
    rcases List.mem_cons.1 hp with rfl | hp
    · exact hend
    · refine ih (fun hlast => hcs ?_) hp
      simp [List.getLast?_append, List.getLast?_cons, hlast]

theorem parts_intercalate (hne : parts ≠ []) (hplain : ∀ p ∈ parts, ¬ [':', ':'] <:+: p)
    (hend : ∀ p ∈ parts.dropLast, p.getLast? ≠ some ':') :
    Parts (List.intercalate [':', ':'] parts) parts := by
  induction parts with
  | nil => exact absurd rfl hne
  | cons p parts ih =>
    have hp := hplain p List.mem_cons_self
    have hplain' : ∀ q ∈ parts, ¬ [':', ':'] <:+: q :=
      fun q hq => hplain q (List.mem_cons_of_mem p hq)
    cases parts with
    | nil =>
      rw [List.intercalate_singleton]
      exact .last hp
    | cons q parts =>
      rw [List.dropLast_cons_of_ne_nil (List.cons_ne_nil _ _)] at hend
      rw [List.intercalate_cons_cons, List.append_assoc]
      exact .cons hp (hend p List.mem_cons_self)
        (ih (List.cons_ne_nil _ _) hplain' fun r hr => hend r (List.mem_cons_of_mem p hr))

theorem mem_intercalate_iff (hc : c ≠ ':') :
    c ∈ List.intercalate [':', ':'] parts ↔ ∃ p ∈ parts, c ∈ p := by
  induction parts with
  | nil => simp
  | cons p parts ih =>
    cases parts with
    | nil => simp
    | cons q parts =>
      rw [List.intercalate_cons_cons, List.mem_append, List.mem_append, ih]
      simp [hc]

theorem getLast?_intercalate (hne : parts ≠ [])
    (hend : ∀ p ∈ parts, ∃ c, p.getLast? = some c ∧ c ≠ ':') :
    ∃ c, (List.intercalate [':', ':'] parts).getLast? = some c ∧ c ≠ ':' := by
  induction parts with
  | nil => exact absurd rfl hne
  | cons p parts ih =>
    cases parts with
    | nil =>
      rw [List.intercalate_singleton]
      exact hend p List.mem_cons_self
    | cons q parts =>
      obtain ⟨c, hlast, hc⟩ := ih (List.cons_ne_nil q parts)
        fun r hr => hend r (List.mem_cons_of_mem p hr)
      refine ⟨c, ?_, hc⟩
      rw [List.intercalate_cons_cons, List.getLast?_append, hlast]
      rfl

/-! ## The last double colon -/

theorem find?_append (hplain : ¬ [':', ':'] <:+: p) (hend : p.getLast? ≠ some ':') :
    find? [':', ':'] (p ++ ':' :: ':' :: rest) = some p.length := by
  induction p with
  | nil => rfl
  | cons c p ih =>
    have hstarts := not_prefix_append hplain hend rest
    rw [← List.isPrefixOf_iff_prefix] at hstarts
    rw [List.cons_append, find?, if_neg hstarts,
      ih (not_infix_of_cons hplain).2 (getLast?_of_cons hend)]
    rfl

theorem splitAtLast_append {before after : List Char} (hplain : ¬ [':', ':'] <:+: after)
    (hstart : after.head? ≠ some ':') :
    splitAtLast "::".toList (before ++ ':' :: ':' :: after) = some (before, after) := by
  have hfind : find? "::".toList.reverse (before ++ ':' :: ':' :: after).reverse =
      some after.reverse.length := by
    have hreverse : (before ++ ':' :: ':' :: after).reverse =
        after.reverse ++ ':' :: ':' :: before.reverse := by simp
    rw [hreverse]
    refine find?_append ?_ (by rwa [List.getLast?_reverse])
    rw [← List.reverse_infix]
    simpa using hplain
  unfold splitAtLast
  rw [hfind]
  simp [List.drop_append]

/-- What is left of a text that starts with a double colon starts with it, if anything is left. -/
theorem colons_prefix_of_trimmed {q : List Char} (hq : q <+: ':' :: ':' :: rest) (hne : q ≠ [])
    (hend : q.getLast? ≠ some ':') : [':', ':'] <+: q := by
  rcases List.prefix_or_prefix_of_prefix hq (⟨rest, rfl⟩ : [':', ':'] <+: ':' :: ':' :: rest) with
    hshort | hlong
  · have hlast := hshort.subset (List.getLast_mem hne)
    rw [List.getLast?_eq_some_getLast hne] at hend
    exact absurd (by simpa using hlast) hend
  · exact hlong

theorem trimEnd_isPrefix (f : Char → Bool) (cs : List Char) : trimEnd f cs <+: cs :=
  List.rdropWhile_prefix f cs

theorem trimEnd_end (cs : List Char) : (trimEnd (· == ':') cs).getLast? ≠ some ':' := by
  intro hlast
  have hne : trimEnd (· == ':') cs ≠ [] := by
    rintro heq
    rw [heq] at hlast
    cases hlast
  rw [List.getLast?_eq_some_getLast hne, Option.some_inj] at hlast
  exact List.rdropWhile_last_not (· == ':') cs hne (by rw [beq_iff_eq]; exact hlast)

theorem trimEnd_of_end (h : cs.getLast? ≠ some ':') : trimEnd (· == ':') cs = cs := by
  refine List.rdropWhile_eq_self_iff.2 fun hne hcolon => h ?_
  rw [List.getLast?_eq_some_getLast hne, beq_iff_eq.1 hcolon]

end Text

namespace Name

variable {name path tail : String} {names : List String}

/-- A name whose last character is a colon. -/
def EndsInColon (name : String) : Prop := name.toList.getLast? = some ':'

instance (name : String) : Decidable (EndsInColon name) := inferInstanceAs (Decidable (_ = _))

/-! ## Components -/

theorem mem_components_iff :
    name ∈ components path ↔ name ≠ "" ∧ name.toList ∈ Text.splitOn "::".toList path.toList := by
  unfold components
  rw [List.mem_filterMap]
  constructor
  · rintro ⟨part, hpart, hname⟩
    split at hname
    · cases hname
    · rename_i hne
      cases hname
      refine ⟨fun heq => hne ?_, by rwa [String.toList_ofList (l := part)]⟩
      simpa using congrArg String.toList heq
  · rintro ⟨hne, hmem⟩
    refine ⟨name.toList, hmem, ?_⟩
    rw [if_neg (by simpa using hne), String.ofList_toList]

theorem plain_of_mem_components (h : name ∈ components path) : Plain name :=
  (Text.parts_splitOn path.toList).plain (mem_components_iff.1 h).2

theorem mem_of_mem_components (h : name ∈ components path) {c : Char} (hc : c ∈ name.toList) :
    c ∈ path.toList :=
  (Text.parts_splitOn path.toList).subset (mem_components_iff.1 h).2 hc

theorem not_endsInColon_of_mem_components (hpath : ¬ EndsInColon path)
    (h : name ∈ components path) : ¬ EndsInColon name :=
  (Text.parts_splitOn path.toList).not_colon hpath (mem_components_iff.1 h).2

theorem exists_of_mem_dropLast_filterMap {α β : Type} {f : α → Option β} {l : List α} {y : β}
    (h : y ∈ (l.filterMap f).dropLast) : ∃ x ∈ l.dropLast, f x = some y := by
  rcases List.eq_nil_or_concat l with rfl | ⟨front, a, rfl⟩
  · cases h
  rw [List.concat_eq_append, List.filterMap_append] at h
  rw [List.concat_eq_append, List.dropLast_concat]
  refine List.mem_filterMap.1 ?_
  cases ha : f a with
  | none => exact (List.dropLast_sublist _).subset (by simpa [ha] using h)
  | some b => simpa [ha] using h

/-- Only the last component can end in a colon. -/
theorem not_endsInColon_of_mem_dropLast (h : name ∈ (components path).dropLast) :
    ¬ EndsInColon name := by
  obtain ⟨part, hpart, hname⟩ := exists_of_mem_dropLast_filterMap h
  split at hname
  · cases hname
  · cases hname
    rw [EndsInColon, String.toList_ofList]
    exact (Text.parts_splitOn path.toList).dropLast hpart

/-- Names are read back from a path if none but the last ends in a colon. -/
theorem components_intercalate (hne : ∀ name ∈ names, name ≠ "")
    (hplain : ∀ name ∈ names, Plain name) (hend : ∀ name ∈ names.dropLast, ¬ EndsInColon name) :
    components ("::".intercalate names) = names := by
  rcases List.eq_nil_or_concat names with rfl | hcons
  · rfl
  have hparts : Text.Parts ("::".intercalate names).toList (names.map String.toList) := by
    rw [String.toList_intercalate]
    refine Text.parts_intercalate ?_ ?_ ?_
    · obtain ⟨init, last, rfl⟩ := hcons
      simp
    · intro p hp
      obtain ⟨name, hname, rfl⟩ := List.mem_map.1 hp
      exact hplain name hname
    · intro p hp
      rw [← List.map_dropLast] at hp
      obtain ⟨name, hname, rfl⟩ := List.mem_map.1 hp
      exact hend name hname
  unfold components
  rw [hparts.splitOn_eq, List.filterMap_map]
  refine (List.filterMap_congr fun name hname => ?_).trans List.filterMap_some
  have hname : ¬ name.toList.isEmpty = true := by simpa using hne name hname
  simp only [Function.comp_apply, if_neg hname, String.ofList_toList]

theorem mem_intercalate_iff {c : Char} (hc : c ≠ ':') :
    c ∈ ("::".intercalate names).toList ↔ ∃ name ∈ names, c ∈ name.toList := by
  rw [String.toList_intercalate]
  exact (Text.mem_intercalate_iff hc).trans (by simp)

theorem not_endsInColon_intercalate (hne : names ≠ []) (hfull : ∀ name ∈ names, name ≠ "")
    (hend : ∀ name ∈ names, ¬ EndsInColon name) :
    ¬ EndsInColon ("::" ++ "::".intercalate names) := by
  have hlast : ∀ p ∈ names.map String.toList, ∃ c, p.getLast? = some c ∧ c ≠ ':' := by
    intro p hp
    obtain ⟨name, hname, rfl⟩ := List.mem_map.1 hp
    have hcs : name.toList ≠ [] := by simpa using hfull name hname
    refine ⟨_, List.getLast?_eq_some_getLast hcs, fun heq => hend name hname ?_⟩
    rw [EndsInColon, List.getLast?_eq_some_getLast hcs, heq]
  obtain ⟨c, hc, hcolon⟩ := Text.getLast?_intercalate (by simpa using hne) hlast
  rw [EndsInColon, String.toList_append, String.toList_intercalate, List.getLast?_append]
  intro heq
  rw [show "::".toList.intercalate _ = List.intercalate [':', ':'] _ from rfl, hc] at heq
  exact hcolon (by simpa using heq)

/-! ## Qualifiers -/

theorem toList_qualified (qualifiers tail : String) :
    (qualifiers ++ "::" ++ tail).toList = qualifiers.toList ++ ':' :: ':' :: tail.toList := by
  simp

theorem absolute?_eq_some_iff {rest : String} :
    absolute? path = some rest ↔ path = "::" ++ rest := by
  constructor
  · intro h
    unfold absolute? at h
    split at h
    · rename_i cs hcs
      cases h
      apply String.toList_inj.1
      rw [hcs]
      simp
    · cases h
  · rintro rfl
    simp [absolute?]

theorem splitQualified_append (qualifiers : String) (htail : Plain tail) :
    (splitQualified (qualifiers ++ "::" ++ tail)).1 =
      some (String.ofList (Text.trimEnd (· == ':') qualifiers.toList)) := by
  unfold splitQualified
  rw [toList_qualified]
  cases hcs : tail.toList with
  | nil =>
    rw [Text.splitAtLast_append (by decide) (by decide)]
  | cons c cs =>
    rw [Plain, hcs] at htail
    by_cases hc : c = ':'
    · -- The colon that the tail starts with is taken with the one before it.
      subst hc
      obtain ⟨hstarts, hrest⟩ := Text.not_infix_of_cons htail
      have hshift : qualifiers.toList ++ ':' :: ':' :: ':' :: cs =
          (qualifiers.toList ++ [':']) ++ ':' :: ':' :: cs := by simp
      have hstart : cs.head? ≠ some ':' := by
        cases cs with
        | nil => simp
        | cons d cs =>
          rintro hd
          cases hd
          exact hstarts ⟨cs, rfl⟩
      rw [hshift, Text.splitAtLast_append hrest hstart]
      dsimp only
      rw [Text.trimEnd, Text.trimEnd]
      simp
    · rw [Text.splitAtLast_append htail (by simpa using hc)]

/-- The qualifiers are a beginning of the name, without the colons that end it. -/
theorem qualifiers_isPrefix {q : String} (h : (splitQualified name).1 = some q) :
    q.toList <+: name.toList ∧ ¬ EndsInColon q := by
  unfold splitQualified at h
  split at h
  · rename_i before after hsplit
    cases h
    obtain ⟨n, -, heq⟩ := Option.map_eq_some_iff.1 hsplit
    cases heq
    rw [EndsInColon, String.toList_ofList (l := Text.trimEnd _ _)]
    refine ⟨(Text.trimEnd_isPrefix _ _).trans ?_, Text.trimEnd_end _⟩
    rw [← List.reverse_suffix, List.reverse_reverse]
    exact List.drop_suffix _ _
  · cases h

/-- The qualifiers of a name that starts at the root start at the root. -/
theorem qualifiers_absolute {q : String} (h : (splitQualified name).1 = some q) (hq : q ≠ "")
    (hname : [':', ':'] <+: name.toList) : ∃ rest, q = "::" ++ rest := by
  obtain ⟨hbegins, hend⟩ := qualifiers_isPrefix h
  obtain ⟨rest, hrest⟩ := hname
  rw [← hrest] at hbegins
  obtain ⟨r, hr⟩ := Text.colons_prefix_of_trimmed hbegins (by simpa using hq) hend
  refine ⟨String.ofList r, String.toList_inj.1 ?_⟩
  rw [← hr]
  simp

/-! ## Indices -/

/-- How a text ends is seen after any other character. -/
theorem getLast?_append_cons {c d : Char} (hd : d ≠ c) (before after : List Char) :
    (before ++ c :: after).getLast? = some d ↔ after.getLast? = some d := by
  rw [List.getLast?_append]
  cases after with
  | nil => simp [hd.symm]
  | cons a after =>
    rw [List.getLast?_cons_cons, List.getLast?_eq_some_getLast (List.cons_ne_nil a after)]
    simp

/-- A name is cut at its first parenthesis if it ends in a closing one. -/
theorem splitIndex_base (hstart : name.toList.head? ≠ some '(') :
    (splitIndex name).1 =
      if '(' ∈ name.toList ∧ name.toList.getLast? = some ')' then
        String.ofList (name.toList.takeWhile (· != '('))
      else name := by
  unfold splitIndex
  cases hafter : name.toList.dropWhile (· != '(') with
  | nil =>
    have hnone : '(' ∉ name.toList := by
      intro hmem
      have := List.dropWhile_eq_nil_iff.1 hafter '(' hmem
      simp at this
    simp [hafter, hnone]
  | cons c after =>
    have hc : c = '(' := by
      have := List.head?_dropWhile_not (· != '(') name.toList
      rw [hafter] at this
      simpa using this
    subst hc
    have hcs : name.toList.takeWhile (· != '(') ++ '(' :: after = name.toList := by
      rw [← hafter]
      exact List.takeWhile_append_dropWhile
    have hmem : '(' ∈ name.toList := by
      rw [← hcs]
      simp
    have hlast : name.toList.getLast? = some ')' ↔ after.getLast? = some ')' := by
      rw [← hcs]
      exact getLast?_append_cons (by decide) _ _
    have hbase : name.toList.takeWhile (· != '(') ≠ [] := by
      intro hnil
      rw [hnil] at hcs
      exact hstart (by rw [← hcs]; rfl)
    obtain ⟨b, base, hbase⟩ := List.exists_cons_of_ne_nil hbase
    simp only [hafter, hbase, hmem, hlast, true_and]
    split <;> rfl

theorem head?_qualified {qualifiers : String} (h : qualifiers.toList.head? ≠ some '(')
    (tail : String) : (qualifiers ++ "::" ++ tail).toList.head? ≠ some '(' := by
  rw [toList_qualified]
  cases hcs : qualifiers.toList with
  | nil => simp
  | cons c cs => simpa [hcs] using h

theorem getLast?_qualified (qualifiers tail : String) :
    (qualifiers ++ "::" ++ tail).toList.getLast? = some ')' ↔ tail.toList.getLast? = some ')' := by
  rw [toList_qualified, getLast?_append_cons (by decide)]
  exact getLast?_append_cons (by decide) [] tail.toList

/-- A parenthesis among the qualifiers is taken for the beginning of an index. -/
theorem splitIndex_in_qualifiers {qualifiers : String} (hstart : qualifiers.toList.head? ≠ some '(')
    (hopen : '(' ∈ qualifiers.toList) (hend : tail.toList.getLast? = some ')') :
    (splitIndex (qualifiers ++ "::" ++ tail)).1 =
      String.ofList (qualifiers.toList.takeWhile (· != '(')) := by
  have hmem : '(' ∈ (qualifiers ++ "::" ++ tail).toList := by
    rw [toList_qualified]
    exact List.mem_append_left _ hopen
  rw [splitIndex_base (head?_qualified hstart tail),
    if_pos ⟨hmem, (getLast?_qualified qualifiers tail).2 hend⟩, toList_qualified,
    List.takeWhile_append]
  split
  · rename_i hall
    have hself := (List.takeWhile_prefix (· != '(')).eq_of_length hall
    rw [← hself] at hopen
    simpa using List.mem_takeWhile_imp hopen
  · rfl

/-- Otherwise the qualifiers are kept, and the tail may be cut. -/
theorem splitIndex_in_tail (qualifiers : String) (hstart : qualifiers.toList.head? ≠ some '(')
    (htail : Plain tail)
    (h : ¬('(' ∈ qualifiers.toList ∧ tail.toList.getLast? = some ')')) :
    ∃ cut, Plain cut ∧ (splitIndex (qualifiers ++ "::" ++ tail)).1 = qualifiers ++ "::" ++ cut := by
  rw [splitIndex_base (head?_qualified hstart tail)]
  split
  · rename_i hcut
    have hopen : '(' ∉ qualifiers.toList :=
      fun hmem => h ⟨hmem, (getLast?_qualified qualifiers tail).1 hcut.2⟩
    refine ⟨String.ofList (tail.toList.takeWhile (· != '(')), ?_, ?_⟩
    · rw [Plain, String.toList_ofList (l := tail.toList.takeWhile _)]
      exact fun hinside => htail (hinside.trans (List.takeWhile_prefix _).isInfix)
    · have hkept : ∀ c ∈ qualifiers.toList, (c != '(') = true := by
        intro c hc
        rw [bne_iff_ne]
        rintro rfl
        exact hopen hc
      rw [toList_qualified, List.takeWhile_append_of_pos hkept]
      apply String.toList_inj.1
      simp
  · exact ⟨tail, htail, rfl⟩

/-! ## Elements -/

/-- A name that can be given an index. -/
structure Indexable (name : String) : Prop where
  ne_empty : name ≠ ""
  unindexed : '(' ∉ name.toList

namespace Indexable

theorem takes (h : Indexable name) : ∀ c ∈ name.toList, (c != '(') = true := by
  intro c hc
  rw [bne_iff_ne]
  rintro rfl
  exact h.unindexed hc

theorem splitIndex (h : Indexable name) : Name.splitIndex name = (name, none) := by
  have hrest : name.toList.dropWhile (· != '(') = [] := List.dropWhile_eq_nil_iff.2 h.takes
  unfold Name.splitIndex
  simp only [hrest]
  cases name.toList.takeWhile (· != '(') <;> rfl

/-- An index is read back, whatever is in it. -/
theorem splitIndex_element (h : Indexable name) (index : String) :
    Name.splitIndex (element name index) = (name, some index) := by
  have hchars : (element name index).toList = name.toList ++ '(' :: (index.toList ++ [')']) := by
    simp [element]
  have hbase : (element name index).toList.takeWhile (· != '(') = name.toList := by
    rw [hchars, List.takeWhile_append_of_pos h.takes, List.takeWhile_cons_of_neg (by simp),
      List.append_nil]
  have hrest : (element name index).toList.dropWhile (· != '(') =
      '(' :: (index.toList ++ [')']) := by
    rw [hchars, List.dropWhile_append_of_pos h.takes, List.dropWhile_cons_of_neg (by simp)]
  obtain ⟨c, cs, hname⟩ : ∃ c cs, name.toList = c :: cs :=
    List.exists_cons_of_ne_nil fun hnil => h.ne_empty (String.toList_eq_nil_iff.1 hnil)
  unfold Name.splitIndex
  simp only [hbase, hrest, hname]
  rw [if_pos (by simp), ← hname]
  simp

end Indexable

end Name

end CommandScript
