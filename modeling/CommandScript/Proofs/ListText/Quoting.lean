import CommandScript.ListText
import CommandScript.Proofs.Word.Lexeme

/-!
# Reading a quoted element

`ListText.quoteChars` writes an element in one of three ways: as it is, in braces, or escaped.
Each of them is one lexeme for a scanner that stands at its start, whatever comes after it as long
as the next character ends a literal:

* `enclosed_of_canBraceFrom`: text that passes `canBraceFrom` ends at the brace put after it;
* `literalRun_escaped`: a run of escaped characters, bare ones among them, stands for the characters
  it was made from;
* `listLexeme_quoteChars`: hence a list reads back each element as it was.
-/

namespace CommandScript

namespace Lexeme

/-! ## Braces -/

theorem canBraceFrom_eq (depth : Nat) (cs : List Char) :
    ListText.canBraceFrom depth cs = balancedFrom '{' '}' depth cs := by
  fun_induction ListText.canBraceFrom depth cs with
  | case4 depth | case7 depth => cases depth <;> simp_all [balancedFrom]
  | _ => simp_all [balancedFrom]

theorem enclosed_of_canBraceFrom (rest : List Char) {depth : Nat} {cs : List Char}
    (h : ListText.canBraceFrom depth cs = true) :
    enclosed '{' '}' depth (cs ++ '}' :: rest) = some (cs, rest) :=
  enclosed_of_balancedFrom (by decide) (by decide) (by decide) rest (canBraceFrom_eq depth cs ▸ h)

/-! ## Literals -/

section Literal

variable {stop : Char → Bool}

theorem literalRun_cons {c : Char} (hc : c ≠ '\\') (hs : stop c = false) (cs : List Char) :
    literalRun stop false (c :: cs) = (literalRun stop false cs).after [c] [c] := by
  simp [literalRun, hc, hs]

theorem literalRun_escape {c e : Char} (hc : c ≠ '\n') (he : escape? c = some e)
    (cs : List Char) :
    literalRun stop false ('\\' :: c :: cs) = (literalRun stop false cs).after ['\\', c] [e] := by
  simp [literalRun, hc, he]

theorem escape?_of_isSpecial {c : Char} (h : ListText.isSpecial c = true) :
    c ≠ '\n' ∧ escape? c = some c := by
  unfold ListText.isSpecial at h
  split at h
  all_goals first | exact ⟨by decide, rfl⟩ | cases h

/-- A character is escaped in a way that stands for it, or left bare. -/
theorem escapeChar_cases (c : Char) :
    (∃ d, ListText.escapeChar c = ['\\', d] ∧ d ≠ '\n' ∧ escape? d = some c) ∨
      (ListText.escapeChar c = [c] ∧ isSpaceOrNewline c = false ∧
        ListText.isSpecial c = false) := by
  unfold ListText.escapeChar
  split
  · exact .inl ⟨'n', rfl, by decide, rfl⟩
  · exact .inl ⟨'t', rfl, by decide, rfl⟩
  · exact .inl ⟨'r', rfl, by decide, rfl⟩
  · next hn ht hr =>
    by_cases hb : c = ' '
    · subst hb; exact .inl ⟨' ', rfl, by decide, rfl⟩
    · cases hs : ListText.isSpecial c with
      | true => exact .inl ⟨c, by simp, escape?_of_isSpecial hs⟩
      | false =>
        have hspace : isSpaceOrNewline c = false := by
          simp only [isSpaceOrNewline, isSpace, Bool.or_eq_false_iff, beq_eq_false_iff_ne]
          exact ⟨⟨⟨hb, ht⟩, hr⟩, hn⟩
        exact .inr ⟨by simp [hb], hspace, rfl⟩

/-- An escaped character stands for itself, if the run does not stop at those left bare. -/
theorem literalRun_escapeChar (hstop : ∀ c, ListText.escapeChar c = [c] → stop c = false)
    (c : Char) (cs : List Char) :
    literalRun stop false (ListText.escapeChar c ++ cs) =
      (literalRun stop false cs).after (ListText.escapeChar c) [c] := by
  rcases escapeChar_cases c with ⟨d, h, hd, he⟩ | ⟨h, -, hs⟩
  · rw [h]; exact literalRun_escape hd he cs
  · have hc : c ≠ '\\' := by rintro rfl; cases hs
    rw [h]; exact literalRun_cons hc (hstop c h) cs

theorem literalRun_escaped (hstop : ∀ c, ListText.escapeChar c = [c] → stop c = false)
    (cs rest : List Char) :
    literalRun stop false (cs.flatMap ListText.escapeChar ++ rest) =
      (literalRun stop false rest).after (cs.flatMap ListText.escapeChar) cs := by
  induction cs with
  | nil => rfl
  | cons c cs ih =>
    rw [List.flatMap_cons, List.append_assoc, literalRun_escapeChar hstop, ih]
    simp [Run.after]

/-- A run ends before a blank, where blanks end it. -/
theorem literalRun_ended (hstop : stop ' ' = true) {rest : List Char}
    (h : rest = [] ∨ ∃ r, rest = ' ' :: r) : literalRun stop false rest = ⟨[], [], rest⟩ := by
  rcases h with rfl | ⟨r, rfl⟩
  · rfl
  · simp [literalRun, hstop]

end Literal

end Lexeme

/-! ## Elements of a list -/

namespace ListText

theorem escapeChar_of_bare {c : Char} (hb : Text.isBlank c = false) (hs : isSpecial c = false) :
    escapeChar c = [c] := by
  unfold escapeChar
  split
  · cases hb
  · cases hb
  · cases hb
  · have : c ≠ ' ' := by rintro rfl; cases hb
    simp [hs, this]

theorem flatMap_escapeChar_of_bare {cs : List Char} (h : needsQuoting cs = false) :
    cs.flatMap escapeChar = cs := by
  have hbare : ∀ c ∈ cs, Text.isBlank c = false ∧ isSpecial c = false := by
    intro c hc
    have := (Bool.or_eq_false_iff.mp h).2
    rw [List.any_eq_false] at this
    simpa using this c hc
  clear h
  induction cs with
  | nil => rfl
  | cons c cs ih =>
    obtain ⟨hb, hs⟩ := hbare c List.mem_cons_self
    rw [List.flatMap_cons, escapeChar_of_bare hb hs,
      ih fun d hd => hbare d (List.mem_cons_of_mem _ hd)]
    rfl

/-- An element stands in braces, or with its characters escaped as far as they need it. -/
theorem quoteChars_cases (cs : List Char) :
    (canBrace cs = true ∧ quoteChars cs = '{' :: (cs ++ ['}'])) ∨
      (cs ≠ [] ∧ quoteChars cs = cs.flatMap escapeChar) := by
  unfold quoteChars
  split
  · next h =>
    obtain rfl := List.isEmpty_iff.mp h
    exact .inl ⟨rfl, rfl⟩
  · next h =>
    have hne : cs ≠ [] := fun e => h (List.isEmpty_iff.mpr e)
    split
    · next hq =>
      rw [flatMap_escapeChar_of_bare (by simpa using hq)]
      exact .inr ⟨hne, rfl⟩
    · split
      · next hb => exact .inl ⟨hb, rfl⟩
      · exact .inr ⟨hne, rfl⟩

/-- Escaped text begins with a backslash before something other than a newline, or with a bare
character. -/
theorem flatMap_escapeChar_head {cs : List Char} (hne : cs ≠ []) :
    (∃ d r, d ≠ '\n' ∧ cs.flatMap escapeChar = '\\' :: d :: r) ∨
      ∃ c r, Lexeme.isSpaceOrNewline c = false ∧ isSpecial c = false ∧
        cs.flatMap escapeChar = c :: r := by
  obtain ⟨c, cs, rfl⟩ := List.exists_cons_of_ne_nil hne
  rw [List.flatMap_cons]
  rcases Lexeme.escapeChar_cases c with ⟨d, he, hd, -⟩ | ⟨he, hb, hs⟩
  · exact .inl ⟨d, _, hd, by rw [he]; rfl⟩
  · exact .inr ⟨c, _, hb, hs, by rw [he]; rfl⟩

theorem quoteChars_length_pos (cs : List Char) : 0 < (quoteChars cs).length := by
  rcases quoteChars_cases cs with ⟨-, h⟩ | ⟨hne, h⟩
  · rw [h]; exact Nat.zero_lt_succ _
  · rw [h]
    rcases flatMap_escapeChar_head hne with ⟨d, r, -, h⟩ | ⟨c, r, -, -, h⟩ <;> rw [h] <;>
      exact Nat.zero_lt_succ _

/-- Escaped text does not begin with a blank. -/
theorem blanks_escaped (newlines : Bool) {cs : List Char} (hne : cs ≠ []) (rest : List Char) :
    Lexeme.blanks newlines (cs.flatMap escapeChar ++ rest) =
      ([], cs.flatMap escapeChar ++ rest) := by
  rcases flatMap_escapeChar_head hne with ⟨d, r, hd, h⟩ | ⟨c, r, hb, hs, h⟩
  · rw [h]; simp [Lexeme.blanks, Lexeme.isSpace, hd]
  · have hc : c ≠ '\\' := by rintro rfl; cases hs
    rw [h]
    simp only [Lexeme.isSpaceOrNewline, Bool.or_eq_false_iff, beq_eq_false_iff_ne] at hb
    simp [Lexeme.blanks, hc, hb]

theorem blanks_quoteChars (newlines : Bool) (cs rest : List Char) :
    Lexeme.blanks newlines (quoteChars cs ++ rest) = ([], quoteChars cs ++ rest) := by
  rcases quoteChars_cases cs with ⟨-, h⟩ | ⟨hne, h⟩
  · rw [h]; simp [Lexeme.blanks, Lexeme.isSpace]
  · rw [h]; exact blanks_escaped newlines hne rest

theorem endsListLiteral_of_bare (c : Char) (h : escapeChar c = [c]) :
    Scanner.endsListLiteral c = false := by
  rcases Lexeme.escapeChar_cases c with ⟨d, he, -⟩ | ⟨-, hb, hs⟩
  · rw [he] at h; cases h
  · unfold Scanner.endsListLiteral
    split
    all_goals first | rfl | exact absurd hb (by decide) | exact absurd hs (by decide)

/-- Escaped text is not read as anything but a literal. -/
theorem listLexeme_escaped {cs : List Char} (hne : cs ≠ []) (atStart : Bool) (rest : List Char) :
    Scanner.listLexeme atStart (cs.flatMap escapeChar ++ rest) =
      Lexeme.literal Scanner.endsListLiteral (cs.flatMap escapeChar ++ rest) := by
  rcases flatMap_escapeChar_head hne with ⟨d, r, hd, h⟩ | ⟨c, r, hb, hs, h⟩
  · rw [h]; simp [Scanner.listLexeme, Scanner.startsBlank, Lexeme.isSpace, hd]
  · have hne : ∀ x, isSpecial x = true → c ≠ x := by
      rintro x hx rfl; rw [hs] at hx; cases hx
    rw [h]
    simp only [Lexeme.isSpaceOrNewline, Bool.or_eq_false_iff, beq_eq_false_iff_ne] at hb
    simp [Scanner.listLexeme, Scanner.startsBlank, hb, hne '\\' rfl, hne '{' rfl, hne '"' rfl,
      hne '[' rfl, hne '$' rfl]

/-- A list reads back an element that stands at its start. -/
theorem listLexeme_quoteChars (cs : List Char) {rest : List Char}
    (hrest : rest = [] ∨ ∃ r, rest = ' ' :: r) :
    ∃ kind, (kind = .block ∨ kind = .literal) ∧
      Scanner.listLexeme true (quoteChars cs ++ rest) = ⟨kind, quoteChars cs, cs, rest⟩ := by
  rcases quoteChars_cases cs with ⟨hb, h⟩ | ⟨hne, h⟩
  · refine ⟨.block, .inl rfl, ?_⟩
    rw [h]
    simp [Scanner.listLexeme, Scanner.startsBlank, Lexeme.isSpace, Lexeme.block, Lexeme.delimited,
      Lexeme.enclosed_of_canBraceFrom rest hb]
  · refine ⟨.literal, .inr rfl, ?_⟩
    rw [h, listLexeme_escaped hne, Lexeme.literal,
      Lexeme.literalRun_escaped endsListLiteral_of_bare, Lexeme.literalRun_ended rfl hrest]
    simp [Lexeme.Run.after]

end ListText

end CommandScript
