import Mathlib.Data.List.Induction
import CommandScript.Proofs.ListText.Quoting
import CommandScript.Proofs.Word.Scanner
import CommandScript.Value.Basic

/-!
# Lists read back

`parse_format`: the elements of a list that was written by `ListText.format` are read back by
`ListText.parse`, whatever characters they hold. So the text of a list value has the texts of its
items as elements, and writing what was read gives a text that both leave alone.

The induction is on the elements. A scanner at the start of an element reads it as one word
(`reads_element`), then one blank, and stands at the start of the next (`reads_spaced`).
-/

namespace CommandScript

namespace Scanner

/-- The word that a lexeme makes where the scanner stands. -/
def wordOf (s : Scanner) (lex : Lexeme) : Word where
  kind := lex.kind
  text := String.ofList lex.text
  source := String.ofList lex.taken
  start := s.place
  stop := s.place.advance lex.taken

variable {s : Scanner} {lex : Lexeme}

theorem next_list (h : listLexeme s.atElementStart s.rest = lex) :
    s.next .list = (s.wordOf lex, s.past lex.taken lex.rest) := by
  subst h; rfl

theorem wordsIn_list (h : listLexeme s.atElementStart s.rest = lex) (hkind : lex.kind ≠ .eof) :
    s.wordsIn .list = s.wordOf lex :: (s.past lex.taken lex.rest).wordsIn .list := by
  have hnext := next_list h
  rw [wordsIn_of_ne_eof (by rw [hnext]; exact hkind), hnext]

theorem wordsIn_list_nil (h : s.rest = []) :
    s.wordsIn .list = [s.wordOf (.verbatim .eof [] [])] := by
  have hlex : listLexeme s.atElementStart s.rest = .verbatim .eof [] [] := by rw [h]; rfl
  have hnext := next_list hlex
  rw [wordsIn_of_eof (by rw [hnext]; rfl), hnext]

end Scanner

namespace ListText

open Scanner

/-! ## The text of a list -/

def formatChars (es : List (List Char)) : List Char := [' '].intercalate (es.map quoteChars)

/-- The elements after the first, each after a blank. -/
def following (es : List (List Char)) : List Char := es.flatMap fun e => ' ' :: quoteChars e

theorem following_cases (es : List (List Char)) :
    following es = [] ∨ ∃ r, following es = ' ' :: r := by
  cases es with
  | nil => exact .inl rfl
  | cons e es => exact .inr ⟨_, rfl⟩

/-- Elements, each with a space after it. -/
def spaced (es : List (List Char)) : List Char := es.flatMap fun e => quoteChars e ++ [' ']

theorem formatChars_cons (e : List Char) (es : List (List Char)) :
    formatChars (e :: es) = quoteChars e ++ following es := by
  induction es generalizing e with
  | nil => simp [formatChars, following]
  | cons e' es ih =>
    rw [formatChars, List.map_cons, List.map_cons, List.intercalate_cons_cons, ← List.map_cons,
      ← formatChars, ih]
    simp [following]

theorem formatChars_ne_nil {es : List (List Char)} (hne : es ≠ []) : formatChars es ≠ [] := by
  obtain ⟨e, es, rfl⟩ := List.exists_cons_of_ne_nil hne
  have hpos := quoteChars_length_pos e
  rw [formatChars_cons]
  exact List.append_ne_nil_of_left_ne_nil (List.ne_nil_of_length_pos hpos) _

theorem formatChars_append (es : List (List Char)) {more : List (List Char)} (hne : more ≠ []) :
    formatChars (es ++ more) = spaced es ++ formatChars more := by
  induction es with
  | nil => rfl
  | cons e es ih =>
    obtain ⟨e', es', hcons⟩ :=
      List.exists_cons_of_ne_nil (List.append_ne_nil_of_right_ne_nil es hne)
    rw [spaced, List.flatMap_cons, List.append_assoc, ← spaced, ← ih, List.cons_append, hcons,
      formatChars, List.map_cons, List.map_cons, List.intercalate_cons_cons]
    rfl

theorem formatChars_concat (es : List (List Char)) (e : List Char) :
    formatChars (es ++ [e]) = spaced es ++ quoteChars e := by
  rw [formatChars_append es (List.cons_ne_nil _ _), formatChars, List.map_singleton,
    List.intercalate_singleton]

theorem toList_format (es : List String) :
    (format es).toList = formatChars (es.map String.toList) := by
  simp [format, quote, formatChars, String.toList_intercalate, Function.comp_def]

/-! ## Reading -/

/-- The elements that are read from here on, one being begun already. -/
def reads (open? : Option String) (s : Scanner) : Except String (List String) :=
  gather open? (s.wordsIn .list)

variable {s : Scanner} {cs rest : List Char} {open? : Option String}

theorem reads_end (hs : s.rest = []) : reads open? s = .ok open?.toList := by
  rw [reads, wordsIn_list_nil hs]
  rfl

theorem reads_space (hs : s.rest = ' ' :: rest) (hrest : Lexeme.blanks true rest = ([], rest)) :
    reads open? s = (reads none (s.past [' '] rest)).map (open?.toList ++ ·) := by
  have hlex : listLexeme s.atElementStart s.rest = .verbatim .blank [' '] rest := by
    rw [hs]
    simp [listLexeme, startsBlank, Lexeme.isSpace, Lexeme.blank, Lexeme.blanks, hrest]
  rw [reads, wordsIn_list hlex (fun h => by cases h)]
  rfl

theorem reads_word {lex : Lexeme} (h : listLexeme s.atElementStart s.rest = lex)
    (hkind : lex.kind = .block ∨ lex.kind = .literal) :
    reads none s = reads (some (String.ofList lex.text)) (s.past lex.taken lex.rest) := by
  obtain ⟨kind, taken, text, rest⟩ := lex
  rcases hkind with rfl | rfl
  all_goals
    rw [reads, wordsIn_list h (fun h => by cases h)]
    simp [gather, wordOf, piece, reads]

theorem reads_element (hstart : s.atElementStart = true) (hs : s.rest = quoteChars cs ++ rest)
    (hrest : rest = [] ∨ ∃ r, rest = ' ' :: r) :
    reads none s = reads (some (String.ofList cs)) (s.past (quoteChars cs) rest) := by
  obtain ⟨kind, hkind, hlex⟩ := listLexeme_quoteChars cs hrest
  rw [← hs, ← hstart] at hlex
  exact reads_word hlex hkind

/-- Elements with spaces after them are read one by one. -/
theorem reads_spaced (es : List (List Char)) (hstart : s.atElementStart = true)
    (hs : s.rest = spaced es ++ rest) (hrest : Lexeme.blanks true rest = ([], rest)) :
    ∃ t, t.atElementStart = true ∧ t.rest = rest ∧
      reads none s = (reads none t).map (es.map String.ofList ++ ·) := by
  induction es generalizing s with
  | nil =>
    refine ⟨s, hstart, hs, ?_⟩
    cases reads none s <;> rfl
  | cons e es ih =>
    have hs : s.rest = quoteChars e ++ ' ' :: (spaced es ++ rest) := by
      rw [hs, spaced, List.flatMap_cons, List.append_assoc, List.append_assoc]
      rfl
    have hblanks : Lexeme.blanks true (spaced es ++ rest) = ([], spaced es ++ rest) := by
      cases es with
      | nil => exact hrest
      | cons e' es =>
        rw [spaced, List.flatMap_cons, List.append_assoc, List.append_assoc]
        exact blanks_quoteChars true e' _
    obtain ⟨t, ht, htrest, hread⟩ := ih (s := (s.past (quoteChars e) _).past [' '] _) rfl rfl
    refine ⟨t, ht, htrest, ?_⟩
    rw [reads_element hstart hs (.inr ⟨_, rfl⟩), reads_space rfl hblanks, hread]
    cases reads none t <;> rfl

/-- A scanner at the start of an element reads the rest of a list. -/
theorem reads_formatChars (es : List (List Char)) (hstart : s.atElementStart = true)
    (hs : s.rest = formatChars es) : reads none s = .ok (es.map String.ofList) := by
  cases es using List.reverseRecOn with
  | nil => exact reads_end hs
  | append_singleton es e =>
    rw [formatChars_concat, ← List.append_nil (quoteChars e)] at hs
    obtain ⟨t, ht, hrest, hread⟩ := reads_spaced es hstart hs (blanks_quoteChars true e [])
    rw [hread, reads_element ht hrest (.inl rfl), reads_end rfl, List.map_append]
    rfl

/-- Every list is read back as it was written. -/
theorem parse_format (es : List String) : parse (format es) = .ok es := by
  have h := reads_formatChars (es.map String.toList) (s := .ofString (format es)) rfl
    (toList_format es)
  have hid : String.ofList ∘ String.toList = id := funext fun _ => String.ofList_toList
  rw [List.map_map, hid, List.map_id, reads, wordsIn_ofString] at h
  unfold parse
  rw [h]

end ListText

/-- The text of a list value reads back as the texts of its items; and what was read from any text
is written in a form that reading and writing leave as it is. -/
theorem list_text_reads_back :
    (∀ items : List Value, ListText.parse (Value.list items).text = .ok (items.map Value.text)) ∧
      ∀ text elements, ListText.parse text = .ok elements →
        ListText.parse (ListText.format elements) = .ok elements ∧
          (ListText.parse (ListText.format elements)).map ListText.format =
            .ok (ListText.format elements) := by
  constructor
  · intro items
    rw [Value.text, Value.texts_eq_map]
    exact ListText.parse_format _
  · intro text elements _
    rw [ListText.parse_format]
    exact ⟨rfl, rfl⟩

/-- A list with a grouped, a quoted and an escaped element. -/
theorem list_text_reads_back_mixed :
    ListText.parse " a \x7bb \x7bc\x7d\x7d\n\"tab\\there\" x\\ y\x7d " =
        .ok ["a", "b \x7bc\x7d", "tab\there", "x y\x7d"] ∧
      ListText.parse (ListText.format ["a", "b \x7bc\x7d", "tab\there", "x y\x7d"]) =
        .ok ["a", "b \x7bc\x7d", "tab\there", "x y\x7d"] := by
  have h : ListText.parse " a \x7bb \x7bc\x7d\x7d\n\"tab\\there\" x\\ y\x7d " =
      .ok ["a", "b \x7bc\x7d", "tab\there", "x y\x7d"] := rfl
  exact ⟨h, (list_text_reads_back.2 _ _ h).1⟩

end CommandScript
