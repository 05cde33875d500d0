import CommandScript.Proofs.ListText.Trimming
import CommandScript.Standard.Arguments

/-!
# Concatenated lists

`concatenate` joins the trimmed texts of lists. The text reads as the elements of all lists, one
list after another, if and only if trimming takes nothing off any of them
(`concatenation_is_append_iff`).

Where it does take something off, the first element it hits reads as another one: it lacks its
first character (`head_of_reads`), or its last ones (`not_reads_of_lost`). Of an escaped last
space the backslash is left, and that makes the space before the next list a part of the element.
-/

namespace CommandScript

namespace ListText

open Scanner
open Text (isBlank trimStart trimEnd trimBoth)

/-! ## Reading on -/

variable {s : Scanner} {cs rest : List Char}

/-- Escaped text is read together with the literal text after it. -/
theorem reads_escaped (hne : cs ≠ []) (hs : s.rest = cs.flatMap escapeChar ++ rest)
    {run : Lexeme.Run} (hrun : Lexeme.literalRun endsListLiteral false rest = run) :
    ∃ taken, reads none s =
      reads (some (String.ofList (cs ++ run.text))) (s.past taken run.rest) := by
  have hlex := listLexeme_escaped hne s.atElementStart rest
  rw [Lexeme.literal, Lexeme.literalRun_escaped endsListLiteral_of_bare, ← hs, hrun] at hlex
  exact ⟨_, reads_word hlex (.inr rfl)⟩

theorem ok_of_map_append {result : Except String (List String)} {es more : List String}
    (h : result.map (es ++ ·) = .ok (es ++ more)) : result = .ok more := by
  obtain ⟨es', rfl, heq⟩ := exists_of_map_eq_ok h
  exact congrArg Except.ok (List.append_cancel_left heq)

/-- An element that is begun is read on. -/
theorem gather_some {x : String} {ws : List Word} {es : List String}
    (h : gather (some x) ws = .ok es) : ∃ more es', es = (x ++ more) :: es' := by
  induction ws generalizing x with
  | nil =>
    cases h
    exact ⟨"", [], by rw [String.append_empty]; rfl⟩
  | cons w ws ih =>
    unfold gather at h
    split at h
    · cases h
      exact ⟨"", [], by rw [String.append_empty]; rfl⟩
    · obtain ⟨es', -, rfl⟩ := exists_of_map_eq_ok h
      exact ⟨"", es', by rw [String.append_empty]; rfl⟩
    · cases h
    · obtain ⟨more, es', rfl⟩ := ih h
      exact ⟨piece w ++ more, es', by rw [← String.append_assoc]; rfl⟩

/-! ## Elements that have lost something -/

section Lost

variable {e : List Char} {es : List String}

theorem eq_append_of_reads {text : List Char}
    (h : reads (some (String.ofList text)) s = .ok (String.ofList e :: es)) :
    ∃ more, e = text ++ more := by
  obtain ⟨more, es', hes⟩ := gather_some h
  obtain ⟨he, -⟩ := List.cons_eq_cons.1 hes
  have hchars := congrArg String.toList he
  rw [String.toList_append, String.toList_ofList, String.toList_ofList] at hchars
  exact ⟨more.toList, hchars⟩

/-- An element that is read where a character stands escaped begins with it. -/
theorem head_of_reads {c : Char} (hs : s.rest = escapeChar c ++ rest)
    (h : reads none s = .ok (String.ofList e :: es)) : e.head? = some c := by
  obtain ⟨taken, hread⟩ := reads_escaped (List.cons_ne_nil c [])
    (by rw [hs, List.flatMap_singleton]) rfl
  rw [hread] at h
  obtain ⟨more, rfl⟩ := eq_append_of_reads h
  rfl

/-- Escaped text before a list, or at the end, is an element. -/
theorem first_of_reads {after : List Char} {result : List String} (hne : cs ≠ [])
    (hs : s.rest = cs.flatMap escapeChar ++ after)
    (hafter : after = [] ∨ ∃ r, after = ' ' :: r ∧ Begins r) (h : reads none s = .ok result) :
    ∃ more, result = String.ofList cs :: more := by
  have hended : after = [] ∨ ∃ r, after = ' ' :: r :=
    hafter.imp_right fun h => h.imp fun r hr => hr.1
  obtain ⟨taken, hread⟩ := reads_escaped hne hs (Lexeme.literalRun_ended rfl hended)
  rw [hread, List.append_nil] at h
  rcases hafter with rfl | ⟨r, rfl, hr⟩
  · rw [reads_end rfl] at h
    exact ⟨[], (Except.ok.inj h).symm⟩
  · rw [reads_space rfl hr.blanks_eq] at h
    generalize reads none _ = later at h
    cases later with
    | error e => cases h
    | ok more => exact ⟨more, (Except.ok.inj h).symm⟩

/-- What is left of an element that was trimmed at its end does not read as the element. -/
theorem not_reads_of_lost {kept lost tail after : List Char} (hkept : kept ≠ [])
    (hs : s.rest = kept.flatMap escapeChar ++ (tail ++ after))
    (hafter : after = [] ∨ ∃ r, after = ' ' :: r ∧ Begins r)
    (htail : (tail = [] ∧ lost ≠ []) ∨
      (tail = ['\\'] ∧ ∃ loose, lost = ' ' :: loose ∧ ∀ c ∈ loose, isLoose c = true)) :
    reads none s ≠ .ok (String.ofList (kept ++ lost) :: es) := by
  intro h
  rcases htail with ⟨rfl, hlost⟩ | ⟨rfl, loose, rfl, hloose⟩
  · -- The element ends here, without what it has lost.
    obtain ⟨more, hfirst⟩ := first_of_reads hkept hs hafter h
    have heq : kept ++ lost = kept := by
      simpa using congrArg String.toList (List.cons_eq_cons.1 hfirst).1
    exact hlost (by simpa using heq)
  · rcases hafter with rfl | ⟨r, rfl, hr⟩
    · -- The backslash is the last character, and stands for itself.
      obtain ⟨taken, hread⟩ := reads_escaped hkept hs rfl
      rw [hread] at h
      obtain ⟨more, hmore⟩ := eq_append_of_reads h
      simp [Lexeme.literalRun] at hmore
    · -- The backslash makes the space a part of the element, and the next list goes on with it.
      obtain ⟨c, text, hc, htext⟩ := hr.literalRun_text
      have hrun : Lexeme.literalRun endsListLiteral false (['\\'] ++ ' ' :: r) = _ :=
        Lexeme.literalRun_escape (by decide) rfl r
      obtain ⟨taken, hread⟩ := reads_escaped hkept hs hrun
      rw [hread, Lexeme.Run.after, htext] at h
      obtain ⟨more, hmore⟩ := eq_append_of_reads h
      have hnext : loose = c :: (text ++ more) := by simpa using hmore
      rw [hloose c (hnext ▸ List.mem_cons_self)] at hc
      cases hc

end Lost

/-! ## Joined texts -/

/-- Two texts with a space between them, or the only one that is not empty. -/
def join (a b : List Char) : List Char := if a = [] then b else if b = [] then a else a ++ ' ' :: b

/-- The trimmed texts of lists, joined. -/
def joinTrimmed (ls : List (List (List Char))) : List Char :=
  ls.foldr (fun es text => join (trimBoth isBlank (formatChars es)) text) []

theorem join_begins {a : List Char} (ha : Begins a) {b : List Char} (hb : b = [] ∨ Begins b) :
    ∃ after, join a b = a ++ after ∧ (after = [] ∨ ∃ r, after = ' ' :: r ∧ Begins r) := by
  rw [join, if_neg ha.ne_nil]
  rcases hb with rfl | hb
  · exact ⟨[], by simp, .inl rfl⟩
  · exact ⟨' ' :: b, if_neg hb.ne_nil, .inr ⟨b, rfl, hb⟩⟩

theorem joinTrimmed_begins (ls : List (List (List Char))) :
    joinTrimmed ls = [] ∨ Begins (joinTrimmed ls) := by
  induction ls with
  | nil => exact .inl rfl
  | cons es ls ih =>
    cases es with
    | nil => exact ih
    | cons e es =>
      obtain ⟨after, hjoin, -⟩ := join_begins (begins_trimmed (List.cons_ne_nil e es)) ih
      right
      rw [joinTrimmed, List.foldr_cons, ← joinTrimmed, hjoin]
      exact (begins_trimmed (List.cons_ne_nil e es)).append after

theorem eq_nil_of_joinTrimmed_eq_nil {ls : List (List (List Char))} (h : joinTrimmed ls = []) :
    ∀ es ∈ ls, es = [] := by
  induction ls with
  | nil => exact fun es hes => by cases hes
  | cons es ls ih =>
    cases es with
    | nil => exact List.forall_mem_cons.2 ⟨rfl, ih h⟩
    | cons e es =>
      obtain ⟨after, hjoin, -⟩ :=
        join_begins (begins_trimmed (List.cons_ne_nil e es)) (joinTrimmed_begins ls)
      rw [joinTrimmed, List.foldr_cons, ← joinTrimmed, hjoin, List.append_eq_nil_iff] at h
      exact absurd h.1 (begins_trimmed (List.cons_ne_nil e es)).ne_nil

theorem join_formatChars (es more : List (List Char)) :
    join (formatChars es) (formatChars more) = formatChars (es ++ more) := by
  by_cases hes : es = []
  · subst hes
    rfl
  rw [join, if_neg (formatChars_ne_nil hes)]
  by_cases hmore : more = []
  · subst hmore
    rw [List.append_nil]
    rfl
  · rw [if_neg (formatChars_ne_nil hmore), formatChars_append es hmore, spaced_eq_formatChars hes,
      List.append_assoc]
    rfl

/-- Lists that trimming leaves as they are make the text of one list. -/
theorem joinTrimmed_of_seamless {ls : List (List (List Char))}
    (h : ∀ es ∈ ls, seamless es = true) : joinTrimmed ls = formatChars ls.flatten := by
  induction ls with
  | nil => rfl
  | cons es ls ih =>
    obtain ⟨hes, hls⟩ := List.forall_mem_cons.1 h
    rw [joinTrimmed, List.foldr_cons, ← joinTrimmed, ih hls, trimBoth_of_seamless hes,
      join_formatChars, List.flatten_cons]

/-! ## Lists that have lost something -/

section Lists

variable {es : List (List Char)} {after : List Char} {more : List String}

theorem not_reads_of_losesStart {e : List Char} (h : losesStart e = true)
    (hs : s.rest = trimBoth isBlank (formatChars (e :: es)) ++ after) :
    reads none s ≠ .ok (String.ofList e :: more) := by
  intro hread
  obtain ⟨hbrace, hhead⟩ : canBrace e = false ∧ e.head?.any isLoose = true := by
    simpa [losesStart] using h
  obtain ⟨hquote, hsolid⟩ := quoteChars_of_not_canBrace hbrace
  obtain ⟨c, rest, hc, htrim⟩ := trimBoth_escaped hsolid (following es)
  rw [formatChars_cons, hquote, htrim, List.append_assoc] at hs
  rw [head_of_reads hs hread, Option.any_some, hc] at hhead
  cases hhead

theorem not_reads_of_losesEnd {e : List Char} (h : losesEnd e = true)
    (hfirst : (es ++ [e]).head?.all (!losesStart ·) = true) (hstart : s.atElementStart = true)
    (hs : s.rest = trimBoth isBlank (formatChars (es ++ [e])) ++ after)
    (hafter : after = [] ∨ ∃ r, after = ' ' :: r ∧ Begins r) :
    reads none s ≠ .ok (es.map String.ofList ++ String.ofList e :: more) := by
  intro hread
  obtain ⟨hbrace, hlast⟩ : canBrace e = false ∧ ∃ c ∈ e.getLast?, isLoose c = true ∨ c = ' ' := by
    simpa [losesEnd, Option.any_eq_true] using h
  obtain ⟨hquote, hsolid⟩ := quoteChars_of_not_canBrace hbrace
  obtain ⟨kept, lost, tail, rfl, hkept, htrim, htail⟩ := trimEnd_escaped hsolid hlast (spaced es)
  rw [trimBoth, trimStart_formatChars hfirst, formatChars_concat, hquote, htrim, List.append_assoc,
    List.append_assoc] at hs
  obtain ⟨t, -, ht, hspaced⟩ := reads_spaced es hstart hs (blanks_escaped true hkept _)
  rw [hspaced] at hread
  exact not_reads_of_lost hkept ht hafter htail (ok_of_map_append hread)

/-- A list that trimming takes something off does not read as its elements. -/
theorem not_reads_of_not_seamless (h : seamless es = false) (hstart : s.atElementStart = true)
    (hs : s.rest = trimBoth isBlank (formatChars es) ++ after)
    (hafter : after = [] ∨ ∃ r, after = ' ' :: r ∧ Begins r) :
    reads none s ≠ .ok (es.map String.ofList ++ more) := by
  cases hfirst : es.head?.all (!losesStart ·) with
  | false =>
    cases es with
    | nil => cases hfirst
    | cons e es => exact not_reads_of_losesStart (by simpa using hfirst) hs
  | true =>
    rw [seamless, hfirst, Bool.true_and] at h
    cases es using List.reverseRecOn with
    | nil => cases h
    | append_singleton es e =>
      rw [List.map_append, List.append_assoc]
      exact not_reads_of_losesEnd (by simpa using h) hfirst hstart hs hafter

/-- Joined texts of lists that read as the elements of all of them have lost nothing. -/
theorem seamless_of_reads {ls : List (List (List Char))} (hstart : s.atElementStart = true)
    (hs : s.rest = joinTrimmed ls)
    (hread : reads none s = .ok (ls.flatten.map String.ofList)) :
    ∀ es ∈ ls, seamless es = true := by
  induction ls generalizing s with
  | nil => exact fun es hes => by cases hes
  | cons es ls ih =>
    rw [joinTrimmed, List.foldr_cons, ← joinTrimmed] at hs
    rw [List.flatten_cons, List.map_append] at hread
    by_cases hes : es = []
    · subst hes
      exact List.forall_mem_cons.2 ⟨rfl, ih hstart hs hread⟩
    cases hseam : seamless es with
    | false =>
      obtain ⟨after, hjoin, hafter⟩ := join_begins (begins_trimmed hes) (joinTrimmed_begins ls)
      rw [hjoin] at hs
      exact absurd hread (not_reads_of_not_seamless hseam hstart hs hafter)
    | true =>
      refine List.forall_mem_cons.2 ⟨hseam, ?_⟩
      rcases joinTrimmed_begins ls with hnil | hbegins
      · intro es' hes'
        rw [eq_nil_of_joinTrimmed_eq_nil hnil es' hes']
        rfl
      · have hs : s.rest = spaced es ++ joinTrimmed ls := by
          rw [hs, trimBoth_of_seamless hseam, join, if_neg (formatChars_ne_nil hes),
            if_neg hbegins.ne_nil, spaced_eq_formatChars hes, List.append_assoc]
          rfl
        obtain ⟨t, ht, hrest, hspaced⟩ := reads_spaced es hstart hs hbegins.blanks_eq
        rw [hspaced] at hread
        exact ih ht hrest (ok_of_map_append hread)

end Lists

end ListText

/-! ## Concatenation -/

/-- The elements of a list, character by character. -/
def Value.elementChars (items : List Value) : List (List Char) := items.map fun v => v.text.toList

theorem Value.ofList_elementChars (items : List Value) :
    (elementChars items).map String.ofList = items.map text := by
  simp [elementChars, Function.comp_def]

theorem Value.elementChars_flatten (ls : List (List Value)) :
    elementChars ls.flatten = (ls.map elementChars).flatten :=
  List.map_flatten

theorem toList_text_list (items : List Value) :
    (Value.list items).text.toList = ListText.formatChars (Value.elementChars items) := by
  have hchars : (items.map Value.text).map String.toList = Value.elementChars items :=
    List.map_map
  rw [Value.text, Value.texts_eq_map, ListText.toList_format, hchars]

theorem toList_intercalate_cons (text : String) (texts : List String) :
    (" ".intercalate ((text :: texts).filter fun s => !s.isEmpty)).toList =
      ListText.join text.toList (" ".intercalate (texts.filter fun s => !s.isEmpty)).toList := by
  by_cases htext : text = ""
  · subst htext
    rfl
  have hne : text.toList ≠ [] := by simpa using htext
  rw [List.filter_cons_of_pos (by simpa using htext), ListText.join, if_neg hne]
  cases hrest : texts.filter fun s => !s.isEmpty with
  | nil => simp
  | cons next rest =>
    have hnext : next ≠ "" := by
      have hmem : next ∈ texts.filter fun s => !s.isEmpty := hrest ▸ List.mem_cons_self
      simpa using (List.mem_filter.1 hmem).2
    have hjoined : (" ".intercalate (next :: rest)).toList ≠ [] := by
      rw [String.toList_intercalate]
      cases rest with
      | nil => simpa using hnext
      | cons last rest => simp [List.intercalate_cons_cons]
    rw [if_neg hjoined, String.toList_intercalate, String.toList_intercalate, List.map_cons,
      List.map_cons, List.intercalate_cons_cons, List.append_assoc]
    rfl

theorem toList_concatenate (ls : List (List Value)) :
    (concatenate (ls.map Value.list)).toList =
      ListText.joinTrimmed (ls.map Value.elementChars) := by
  induction ls with
  | nil => rfl
  | cons items ls ih =>
    rw [concatenate, List.map_cons, List.map_cons, toList_intercalate_cons, ← concatenate, ih,
      Text.trim, String.toList_ofList, toList_text_list]
    rfl

section

variable {ls : List (List Value)}

theorem concatenate_of_seamless
    (h : ∀ items ∈ ls, ListText.seamless (Value.elementChars items) = true) :
    concatenate (ls.map Value.list) = (Value.list ls.flatten).text := by
  refine String.toList_inj.1 ?_
  rw [toList_concatenate, ListText.joinTrimmed_of_seamless (List.forall_mem_map.2 h),
    toList_text_list, Value.elementChars_flatten]

theorem seamless_of_parse
    (h : ListText.parse (concatenate (ls.map Value.list)) = .ok (ls.flatten.map Value.text)) :
    ∀ items ∈ ls, ListText.seamless (Value.elementChars items) = true := by
  have hread : ListText.reads none (.ofString (concatenate (ls.map Value.list))) =
      .ok ((ls.map Value.elementChars).flatten.map String.ofList) := by
    rw [← Value.elementChars_flatten, Value.ofList_elementChars]
    unfold ListText.parse at h
    split at h
    · cases h
      assumption
    · cases h
  exact List.forall_mem_map.1
    (ListText.seamless_of_reads rfl (toList_concatenate ls) hread)

end

/-- **Concatenation of lists.** The joined texts of lists read as the elements of all of them, one
list after another, if and only if trimming takes nothing off the first and the last element of any
list; and then they are the text of the appended lists. Trimming takes something off an element only
if it cannot stand in braces, and has white space at that end: at the start other than space, tab,
newline and return, at the end other than tab, newline and return.

The script that lists make as arguments is the text of the appended lists under the same condition,
and also if there is only one list, which is taken as it is. -/
theorem concatenation_is_append_iff (ls : List (List Value)) :
    (ListText.parse (concatenate (ls.map .list)) = .ok (ls.flatten.map Value.text) ↔
        ∀ items ∈ ls, ListText.seamless (Value.elementChars items) = true) ∧
      (concatenate (ls.map .list) = (Value.list ls.flatten).text ↔
        ∀ items ∈ ls, ListText.seamless (Value.elementChars items) = true) ∧
      ((scriptOf (ls.map .list)).text = (Value.list ls.flatten).text ↔
        ls.length = 1 ∨ ∀ items ∈ ls, ListText.seamless (Value.elementChars items) = true) := by
  have hparse : ListText.parse (Value.list ls.flatten).text = .ok (ls.flatten.map Value.text) := by
    rw [Value.text, Value.texts_eq_map, ListText.parse_format]
  have htext : concatenate (ls.map .list) = (Value.list ls.flatten).text ↔
      ∀ items ∈ ls, ListText.seamless (Value.elementChars items) = true :=
    ⟨fun h => seamless_of_parse (by rw [h, hparse]), concatenate_of_seamless⟩
  refine ⟨⟨seamless_of_parse, fun h => by rw [htext.2 h, hparse]⟩, htext, ?_⟩
  rcases ls with _ | ⟨items, _ | ⟨items', ls⟩⟩
  · exact htext.trans (by simp)
  · simp [scriptOf]
  · exact htext.trans (by simp)

/-- The escaped space at the end of the first list is trimmed, and its backslash escapes the space
between the lists: two elements read as one. -/
theorem concatenation_merges_elements :
    ListText.parse (concatenate [.list [.string "\x7b "], .list [.string "b"]]) = .ok ["\x7b b"] ∧
      ListText.parse (concatenate [.list [.string "\x7b "], .list [.string "b"]]) ≠
        .ok ([Value.string "\x7b ", .string "b"].map Value.text) := by
  decide +kernel

end CommandScript
