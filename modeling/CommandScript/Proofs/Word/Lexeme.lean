import CommandScript.Word.Scanner
import Mathlib.Data.List.TakeWhile

/-!
# Lexemes tile the text

What a lexeme takes and what it leaves are, side by side, the characters it was read from, and it
takes at least one of them unless it is the end (`Scanner.tiles_lexeme`). So reading word after
word covers a text and comes to its end.

* `Lexeme.Reference`: the forms of a reference to a variable, each with what is read of it.
* `Lexeme.number_cases`: the two forms of a number.
* `Lexeme.ReadFrom`: the lexemes of all modes, so that what holds of each holds in every mode.
-/

namespace CommandScript

theorem exists_of_map_eq_ok {ε α β : Type} {x : Except ε α} {f : α → β} {b : β}
    (h : x.map f = .ok b) : ∃ a, x = .ok a ∧ f a = b := by
  cases x with
  | error e => cases h
  | ok a => exact ⟨a, rfl, Except.ok.inj h⟩

theorem eq_error_of_map {ε α β : Type} {x : Except ε α} {f : α → β} {e : ε}
    (h : x.map f = .error e) : x = .error e := by
  cases x with
  | error e' => exact congrArg Except.error (Except.error.inj h)
  | ok a => cases h

namespace Lexeme

/-- A lexeme that was read from the characters `cs`, at least one of which it takes. -/
structure Tiles (lex : Lexeme) (cs : List Char) : Prop where
  append : lex.taken ++ lex.rest = cs
  taken_ne_nil : lex.taken ≠ []
  kind_ne_eof : lex.kind ≠ .eof

theorem Tiles.length_rest_lt {lex : Lexeme} {cs : List Char} (h : lex.Tiles cs) :
    lex.rest.length < cs.length := by
  have htaken := List.length_pos_iff.mpr h.taken_ne_nil
  rw [← h.append, List.length_append]
  omega

/-! ## Delimited text -/

/-- A character that a reader takes neither as a last backslash nor as an escape. -/
theorem ne_backslash {c : Char} {cs : List Char} (hlast : c = '\\' → cs = [] → False)
    (hesc : ∀ (d : Char) (ds : List Char), c = '\\' → cs = d :: ds → False) : c ≠ '\\' := by
  rintro rfl
  cases cs with
  | nil => exact hlast rfl rfl
  | cons d ds => exact hesc d ds rfl rfl

section Enclosed

variable {opening closing c : Char}

theorem enclosed_opening (h : opening ≠ '\\') (depth : Nat) (cs : List Char) :
    enclosed opening closing depth (opening :: cs) =
      (enclosed opening closing (depth + 1) cs).map (·.map (opening :: ·) id) := by
  cases depth <;> simp [enclosed, h]

theorem enclosed_ordinary (hc : c ≠ '\\') (ho : c ≠ opening) (hcl : c ≠ closing) (depth : Nat)
    (cs : List Char) :
    enclosed opening closing depth (c :: cs) =
      (enclosed opening closing depth cs).map (·.map (c :: ·) id) := by
  cases depth <;> simp [enclosed, hc, ho, hcl]

end Enclosed

/-- Whether the delimiters in a text that no backslash hides match each other, `depth` of them being
open before it. No backslash at its end hides what follows. -/
def balancedFrom (opening closing : Char) : Nat → List Char → Bool
  | depth, [] => depth == 0
  | _, ['\\'] => false
  | depth, '\\' :: _ :: cs => balancedFrom opening closing depth cs
  | depth, c :: cs =>
    if c = opening then balancedFrom opening closing (depth + 1) cs
    else if c = closing then
      match depth with
      | 0 => false
      | depth + 1 => balancedFrom opening closing depth cs
    else balancedFrom opening closing depth cs

theorem enclosed_of_balancedFrom {opening closing : Char} (ho : opening ≠ '\\')
    (hc : closing ≠ '\\') (hne : closing ≠ opening) (rest : List Char) {depth : Nat}
    {cs : List Char} (h : balancedFrom opening closing depth cs = true) :
    enclosed opening closing depth (cs ++ closing :: rest) = some (cs, rest) := by
  fun_induction balancedFrom opening closing depth cs with
  | case1 depth =>
    obtain rfl : depth = 0 := by simpa using h
    cases rest <;> simp [enclosed, hc, hne]
  | case2 => cases h
  | case3 depth c cs ih => simp [enclosed, ih h]
  | case4 depth cs _ _ ih => simp [enclosed_opening ho, ih h]
  | case5 => cases h
  | case6 cs _ _ depth _ ih => simp [enclosed, hc, hne, ih h]
  | case7 depth c cs hlast hesc hopen hclose ih =>
    simp [enclosed_ordinary (ne_backslash hlast hesc) hopen hclose, ih h]

theorem eq_of_enclosed {opening closing : Char} {depth : Nat} {cs inner rest : List Char}
    (h : enclosed opening closing depth cs = some (inner, rest)) :
    inner ++ closing :: rest = cs := by
  fun_induction enclosed opening closing depth cs generalizing inner with
  | case1 | case2 => cases h
  | case3 depth c cs ih | case4 depth cs _ _ ih =>
    obtain ⟨⟨i, r⟩, hin, heq⟩ := Option.map_eq_some_iff.mp h
    cases heq
    simp [← ih hin]
  | case5 cs =>
    cases h
    rfl
  | case6 cs _ _ _ _ ih | case7 _ c cs _ _ _ _ ih =>
    obtain ⟨⟨i, r⟩, hin, heq⟩ := Option.map_eq_some_iff.mp h
    cases heq
    simp [← ih hin]

theorem eq_of_quoted {depth : Nat} {cs inner rest : List Char}
    (h : quoted depth cs = .ok (inner, rest)) : inner ++ '"' :: rest = cs := by
  fun_induction quoted depth cs generalizing inner with
  | case1 | case2 | case3 | case4 => cases h
  | case6 cs =>
    cases h
    rfl
  | case5 _ c cs ih | case7 cs _ _ _ ih | case8 c cs _ _ _ _ ih | case9 _ cs _ _ ih
  | case10 _ cs _ _ _ ih | case11 _ c cs _ _ _ _ ih =>
    obtain ⟨found, hin, heq⟩ := exists_of_map_eq_ok h
    cases heq
    simp [← ih hin]

theorem tiles_unterminated {cs : List Char} (h : cs ≠ []) (message : String) :
    (unterminated cs message).Tiles cs :=
  ⟨List.append_nil cs, h, fun h => by cases h⟩

theorem tiles_delimited {kind : WordKind} (hkind : kind ≠ .eof) (opening closing : Char)
    (missing : String) (cs : List Char) :
    (delimited kind opening closing missing (opening :: cs)).Tiles (opening :: cs) := by
  unfold delimited
  split
  · rename_i inner rest h
    exact ⟨by simpa using eq_of_enclosed h, by simp, hkind⟩
  · exact tiles_unterminated (by simp) missing

theorem tiles_quote (cs : List Char) : (quote ('"' :: cs)).Tiles ('"' :: cs) := by
  unfold quote
  split
  · rename_i inner rest h
    exact ⟨by simpa using eq_of_quoted h, by simp, fun h => by cases h⟩
  · exact tiles_unterminated (by simp) _

/-! ## Blanks, comments and names -/

theorem blanks_append (newlines : Bool) (cs : List Char) :
    (blanks newlines cs).1 ++ (blanks newlines cs).2 = cs := by
  fun_induction blanks newlines cs <;> simp_all

theorem commentText_append (cs : List Char) : (commentText cs).1 ++ (commentText cs).2 = cs := by
  fun_induction commentText cs <;> simp_all

/-- A comment ends at the end of the script or before a newline. -/
theorem rest_commentText (cs : List Char) :
    (commentText cs).2 = [] ∨ ∃ r, (commentText cs).2 = '\n' :: r := by
  fun_induction commentText cs with
  | case1 => exact .inl rfl
  | case2 => exact .inl rfl
  | case3 c cs ih => exact ih
  | case4 cs => exact .inr ⟨cs, rfl⟩
  | case5 c cs _ _ _ ih => exact ih

theorem nameRun_append (cs : List Char) : (nameRun cs).1 ++ (nameRun cs).2 = cs := by
  fun_induction nameRun cs <;> simp_all

theorem tiles_blank {newlines : Bool} {c : Char} {cs : List Char}
    (h : Scanner.startsBlank (c :: cs) = true ∨ newlines = true ∧ c = '\n') :
    (blank newlines (c :: cs)).Tiles (c :: cs) := by
  refine ⟨blanks_append newlines (c :: cs), ?_, fun h => by cases h⟩
  show (blanks newlines (c :: cs)).1 ≠ []
  unfold Scanner.startsBlank at h
  unfold blanks
  split
  · exact List.cons_ne_nil _ _
  · split
    · exact List.cons_ne_nil _ _
    · simp_all
  · simp_all

theorem tiles_comment (cs : List Char) : (comment ('#' :: cs)).Tiles ('#' :: cs) :=
  ⟨by simpa [comment] using commentText_append cs, List.cons_ne_nil _ _, fun h => by cases h⟩

/-! ## References -/

/-- The forms of a reference, by the text after the `$`. -/
inductive Reference (text : List Char) : Lexeme → Prop
  | braced {name rest : List Char} (htext : text = '{' :: (name ++ '}' :: rest))
      (hname : '}' ∉ name) : Reference text ⟨.varRef, '$' :: '{' :: (name ++ ['}']), name, rest⟩
  | openBrace {inner : List Char} (htext : text = '{' :: inner) (hopen : '}' ∉ inner) :
      Reference text (unterminated ('$' :: text) "missing close-brace for variable name")
  | alone {rest : List Char} (hbrace : ∀ inner, text ≠ '{' :: inner)
      (hrun : nameRun text = ([], rest)) : Reference text (verbatim .literal ['$'] text)
  | plain {c : Char} {name rest : List Char} (hbrace : ∀ inner, text ≠ '{' :: inner)
      (hrun : nameRun text = (c :: name, rest)) (hrest : ∀ inner, rest ≠ '(' :: inner) :
      Reference text ⟨.varRef, '$' :: c :: name, c :: name, rest⟩
  | element {c : Char} {name inner index rest : List Char} (hbrace : ∀ inner, text ≠ '{' :: inner)
      (hrun : nameRun text = (c :: name, '(' :: inner))
      (hindex : enclosed '(' ')' 0 inner = some (index, rest)) :
      Reference text ⟨.varRef, '$' :: c :: (name ++ '(' :: (index ++ [')'])),
        c :: (name ++ '(' :: (index ++ [')'])), rest⟩
  | openIndex {c : Char} {name inner : List Char} (hbrace : ∀ inner, text ≠ '{' :: inner)
      (hrun : nameRun text = (c :: name, '(' :: inner))
      (hindex : enclosed '(' ')' 0 inner = none) :
      Reference text (unterminated ('$' :: text) "missing )")

theorem reference (text : List Char) : Reference text (variableRef ('$' :: text)) := by
  unfold variableRef
  rw [List.tail_cons]
  split
  · rename_i inner
    have hsplit := List.takeWhile_append_dropWhile (p := (· != '}')) (l := inner)
    have hname : '}' ∉ inner.takeWhile (· != '}') := fun hmem => by
      have hne := List.all_eq_true.1 List.all_takeWhile _ hmem
      simp at hne
    dsimp only
    split
    · rename_i hdrop
      rw [hdrop, List.append_nil] at hsplit
      exact .openBrace rfl (hsplit ▸ hname)
    · rename_i c rest hdrop
      obtain rfl : c = '}' := by
        have := List.head?_dropWhile_not (· != '}') inner
        simpa [hdrop] using this
      rw [hdrop] at hsplit
      exact .braced (congrArg ('{' :: ·) hsplit.symm) hname
  · rename_i hbrace
    split
    · exact .alone hbrace ‹_›
    · rename_i name inner hne hrun
      obtain ⟨c, name, rfl⟩ := List.exists_cons_of_ne_nil hne
      split
      · exact .element hbrace hrun ‹_›
      · exact .openIndex hbrace hrun ‹_›
    · rename_i name rest hne hrest hrun
      obtain ⟨c, name, rfl⟩ := List.exists_cons_of_ne_nil hne
      exact .plain hbrace hrun fun inner heq => hrest inner heq

/-- The form decides what is read. -/
theorem Reference.eq {text : List Char} {lex : Lexeme} (h : Reference text lex) :
    variableRef ('$' :: text) = lex := by
  have hclose : ∀ {cs : List Char}, '}' ∉ cs → ∀ c ∈ cs, (c != '}') = true := by
    intro cs hcs c hc
    rw [bne_iff_ne]
    rintro rfl
    exact hcs hc
  cases h with
  | braced htext hname =>
    simp [htext, variableRef, List.takeWhile_append_of_pos (hclose hname),
      List.dropWhile_append_of_pos (hclose hname)]
  | openBrace htext hopen =>
    have hdrop : List.dropWhile (· != '}') _ = [] := List.dropWhile_eq_nil_iff.2 (hclose hopen)
    simp only [htext, variableRef, List.tail_cons, hdrop]
  | alone hbrace hrun | plain hbrace hrun | element hbrace hrun hindex
  | openIndex hbrace hrun hindex => simp_all [variableRef]

theorem tiles_variableRef (cs : List Char) : (variableRef ('$' :: cs)).Tiles ('$' :: cs) := by
  have hname := nameRun_append cs
  generalize hlex : variableRef ('$' :: cs) = lex
  cases hlex ▸ reference cs with
  | braced htext => exact ⟨by simp [htext], by simp, fun h => by cases h⟩
  | openBrace | openIndex => exact tiles_unterminated (List.cons_ne_nil _ _) _
  | alone => exact ⟨rfl, List.cons_ne_nil _ _, fun h => by cases h⟩
  | plain hbrace hrun =>
    rw [hrun] at hname
    exact ⟨by simp [← hname], by simp, fun h => by cases h⟩
  | element hbrace hrun hindex =>
    rw [hrun] at hname
    exact ⟨by simp [← hname, ← eq_of_enclosed hindex], by simp, fun h => by cases h⟩

/-! ## Literals -/

theorem literalRun_append (stop : Char → Bool) (joining : Bool) (cs : List Char) :
    (literalRun stop joining cs).taken ++ (literalRun stop joining cs).rest = cs := by
  fun_induction literalRun stop joining cs <;> simp_all [Run.after]

/-- A run takes its first character unless that is a stop or a blank. -/
theorem taken_literalRun_ne_nil {stop : Char → Bool} {c : Char} {cs : List Char}
    (hstop : stop c = false) (hblank : stop ' ' = true → Scanner.startsBlank (c :: cs) = false) :
    (literalRun stop false (c :: cs)).taken ≠ [] := by
  unfold literalRun
  split
  · simp_all
  · simp
  · split
    · simp_all [Scanner.startsBlank, Run.after]
    · split <;> simp [Run.after]
  · simp_all [Run.after]

theorem tiles_literal {stop : Char → Bool} {c : Char} {cs : List Char} (hstop : stop c = false)
    (hblank : stop ' ' = true → Scanner.startsBlank (c :: cs) = false) :
    (literal stop (c :: cs)).Tiles (c :: cs) :=
  ⟨literalRun_append stop false (c :: cs), taken_literalRun_ne_nil hstop hblank,
    fun h => by cases h⟩

/-! ## Numbers and operators -/

theorem exponentPart_isPrefix (cs : List Char) : exponentPart cs <+: cs := by
  unfold exponentPart
  split
  · rename_i e sign d cs
    split
    · split
      · exact (List.prefix_cons_inj e).mpr
          ((List.prefix_cons_inj sign).mpr (List.takeWhile_prefix _))
      · split
        · exact (List.prefix_cons_inj e).mpr (List.takeWhile_prefix _)
        · exact List.nil_prefix
    · exact List.nil_prefix
  · split
    · exact List.prefix_rfl
    · exact List.nil_prefix
  · exact List.nil_prefix

theorem decimalPart_isPrefix (cs : List Char) : (decimalPart cs).1 <+: cs := by
  have hwhole : cs.takeWhile Char.isDigit ++ cs.dropWhile Char.isDigit = cs :=
    List.takeWhile_append_dropWhile
  unfold decimalPart
  dsimp only
  split
  · rename_i after hdrop
    have hafter : after.takeWhile Char.isDigit ++ after.dropWhile Char.isDigit = after :=
      List.takeWhile_append_dropWhile
    obtain ⟨tail, htail⟩ := exponentPart_isPrefix (after.dropWhile Char.isDigit)
    exact ⟨tail, by simp only [List.append_assoc, List.cons_append, htail, hafter, ← hdrop, hwhole]⟩
  · obtain ⟨tail, htail⟩ := exponentPart_isPrefix (cs.dropWhile Char.isDigit)
    exact ⟨tail, by simp only [List.append_nil, List.append_assoc, htail, hwhole]⟩

theorem decimalPart_ne_nil {c : Char} {cs : List Char}
    (h : c.isDigit = true ∨ c = '.') : (decimalPart (c :: cs)).1 ≠ [] := by
  unfold decimalPart
  rcases h with h | rfl
  · simp [h]
  · have hpoint : Char.isDigit '.' = false := by decide
    simp [hpoint]

/-- The lexeme of a number of which these characters were taken. -/
def numberFrom (cs taken : List Char) (kind : WordKind) (bare : Bool) : Lexeme :=
  if bare || (cs.drop taken.length).head?.any isNumberTail then
    malformedNumber taken (cs.drop taken.length)
  else verbatim kind taken (cs.drop taken.length)

theorem number_of_mark {mark : Char} {radix : Nat} (h : Integer.radixOf? mark = some radix)
    (digits : List Char) :
    number ('0' :: mark :: digits) =
      numberFrom ('0' :: mark :: digits) ('0' :: mark :: digits.takeWhile (Integer.isDigitOf radix))
        .integer (digits.takeWhile (Integer.isDigitOf radix)).isEmpty := by
  simp [number, numberFrom, h]

theorem number_of_decimal {cs : List Char}
    (h : ∀ mark digits, cs = '0' :: mark :: digits → Integer.radixOf? mark = none) :
    number cs =
      numberFrom cs (decimalPart cs).1 (if (decimalPart cs).2 then .integer else .float) false := by
  unfold number
  split
  · rename_i mark digits
    rw [h mark digits rfl]
    rfl
  · rfl

/-- A number begins with the mark of a radix or is a decimal. -/
theorem number_cases (cs : List Char) :
    (∃ mark digits radix, cs = '0' :: mark :: digits ∧ Integer.radixOf? mark = some radix) ∨
      ∀ mark digits, cs = '0' :: mark :: digits → Integer.radixOf? mark = none := by
  by_cases hmark : ∃ mark digits radix,
      cs = '0' :: mark :: digits ∧ Integer.radixOf? mark = some radix
  · exact .inl hmark
  · refine .inr fun mark digits hcs => Option.eq_none_iff_forall_ne_some.2 fun radix hradix => ?_
    exact hmark ⟨mark, digits, radix, hcs, hradix⟩

theorem tiles_numberFrom {cs taken : List Char} (hfront : taken <+: cs) (hne : taken ≠ [])
    {kind : WordKind} (hkind : kind ≠ .eof) (bare : Bool) :
    (numberFrom cs taken kind bare).Tiles cs := by
  obtain ⟨rest, rfl⟩ := hfront
  unfold numberFrom
  rw [List.drop_left]
  split
  · exact ⟨by simp [malformedNumber, List.takeWhile_append_dropWhile],
      by simp [malformedNumber, hne], fun h => by cases h⟩
  · exact ⟨rfl, hne, hkind⟩

theorem tiles_number {c : Char} {cs : List Char} (h : c.isDigit = true ∨ c = '.') :
    (number (c :: cs)).Tiles (c :: cs) := by
  rcases number_cases (c :: cs) with ⟨mark, digits, radix, heq, hradix⟩ | hnone
  · rw [heq, number_of_mark hradix]
    refine tiles_numberFrom ?_ (List.cons_ne_nil _ _) (fun h => by cases h) _
    exact (List.prefix_cons_inj _).mpr ((List.prefix_cons_inj _).mpr (List.takeWhile_prefix _))
  · rw [number_of_decimal hnone]
    exact tiles_numberFrom (decimalPart_isPrefix _) (decimalPart_ne_nil h)
      (by split <;> exact fun h => by cases h) _

/-- An operator has a size that is not zero, and is not the end. -/
theorem of_operator? {c : Char} {next : Option Char} {kind : WordKind} {size : Nat}
    (h : operator? c next = some (kind, size)) : kind ≠ .eof ∧ size ≠ 0 := by
  unfold operator? at h
  split at h <;> cases h <;> decide

theorem tiles_operator (c : Char) (cs : List Char) : (operator c cs).Tiles (c :: cs) := by
  unfold operator
  split
  · rename_i kind size h
    obtain ⟨hkind, hsize⟩ := of_operator? h
    exact ⟨List.take_append_drop _ _, by simp [verbatim, hsize], hkind⟩
  · exact ⟨rfl, List.cons_ne_nil _ _, fun h => by cases h⟩

/-! ## Every mode -/

/-- What the modes make of a text that is not at its end. -/
inductive ReadFrom : List Char → Lexeme → Prop
  | separator {c : Char} {cs : List Char} : ReadFrom (c :: cs) (verbatim .eol [c] cs)
  | blank {newlines : Bool} {c : Char} {cs : List Char}
      (h : Scanner.startsBlank (c :: cs) = true ∨ newlines = true ∧ c = '\n') :
      ReadFrom (c :: cs) (Lexeme.blank newlines (c :: cs))
  | comment {cs : List Char} : ReadFrom ('#' :: cs) (Lexeme.comment ('#' :: cs))
  | block {cs : List Char} : ReadFrom ('{' :: cs) (Lexeme.block ('{' :: cs))
  | script {cs : List Char} : ReadFrom ('[' :: cs) (Lexeme.script ('[' :: cs))
  | quote {cs : List Char} : ReadFrom ('"' :: cs) (Lexeme.quote ('"' :: cs))
  | reference {cs : List Char} : ReadFrom ('$' :: cs) (variableRef ('$' :: cs))
  | literal {stop : Char → Bool} {c : Char} {cs : List Char} (hstop : stop c = false)
      (hblank : stop ' ' = true → Scanner.startsBlank (c :: cs) = false) :
      ReadFrom (c :: cs) (Lexeme.literal stop (c :: cs))
  | number {c : Char} {cs : List Char} (h : c.isDigit = true ∨ c = '.') :
      ReadFrom (c :: cs) (Lexeme.number (c :: cs))
  | name {c : Char} {cs : List Char} (h : isNameChar c = true) :
      ReadFrom (c :: cs) (verbatim .literal ((c :: cs).takeWhile isNameChar)
        ((c :: cs).dropWhile isNameChar))
  | operator {c : Char} {cs : List Char} : ReadFrom (c :: cs) (Lexeme.operator c cs)

theorem ReadFrom.tiles {cs : List Char} {lex : Lexeme} (h : ReadFrom cs lex) : lex.Tiles cs := by
  cases h with
  | separator => exact ⟨rfl, List.cons_ne_nil _ _, fun h => by cases h⟩
  | blank h => exact tiles_blank h
  | comment => exact tiles_comment _
  | block | script => exact tiles_delimited (fun h => by cases h) _ _ _ _
  | quote => exact tiles_quote _
  | reference => exact tiles_variableRef _
  | literal hstop hblank => exact tiles_literal hstop hblank
  | number h => exact tiles_number h
  | name h => exact ⟨List.takeWhile_append_dropWhile, by simp [verbatim, h], fun h => by cases h⟩
  | operator => exact tiles_operator _ _

end Lexeme

namespace Scanner

open Lexeme

theorem readFrom_commandLexeme (start : Bool) (c : Char) (cs : List Char) :
    ReadFrom (c :: cs) (commandLexeme start (c :: cs)) := by
  unfold commandLexeme
  dsimp only
  split
  · exact .separator
  split
  · exact .blank (.inl ‹_›)
  split
  · rename_i hcomment
    obtain ⟨rfl, -⟩ : c = '#' ∧ start = true := by simpa using hcomment
    exact .comment
  split
  · rename_i hc; subst hc; exact .block
  split
  · rename_i hc; subst hc; exact .script
  split
  · rename_i hc; subst hc; exact .quote
  split
  · rename_i hc; subst hc; exact .reference
  · rename_i hend hblank _ _ _ _ _
    refine .literal ?_ (fun _ => by simpa using hblank)
    unfold endsCommandLiteral
    split <;> simp_all [startsBlank, isSpace]

theorem readFrom_expressionLexeme (c : Char) (cs : List Char) :
    ReadFrom (c :: cs) (expressionLexeme (c :: cs)) := by
  unfold expressionLexeme
  dsimp only
  split
  · rename_i hnumber
    refine .number ?_
    simp only [Bool.or_eq_true, Bool.and_eq_true, decide_eq_true_eq] at hnumber
    exact hnumber.imp id And.left
  split
  · rename_i hname
    refine .name ?_
    simp only [Bool.or_eq_true, decide_eq_true_eq] at hname
    rcases hname with h | rfl
    · simp [isNameChar, Char.isAlphanum, h]
    · rfl
  split
  · rename_i hc; subst hc; exact .reference
  split
  · rename_i hc; subst hc; exact .script
  split
  · rename_i hc; subst hc; exact .quote
  split
  · rename_i hc; subst hc; exact .block
  · exact .operator

theorem readFrom_quotedLexeme (c : Char) (cs : List Char) :
    ReadFrom (c :: cs) (quotedLexeme (c :: cs)) := by
  unfold quotedLexeme
  dsimp only
  split
  · rename_i hc; subst hc; exact .reference
  split
  · rename_i hc; subst hc; exact .script
  · rename_i hdollar hbracket
    refine .literal ?_ (fun h => absurd h (by decide))
    simp [endsQuotedLiteral, hdollar, hbracket]

theorem readFrom_listLexeme (start : Bool) (c : Char) (cs : List Char) :
    ReadFrom (c :: cs) (listLexeme start (c :: cs)) := by
  unfold listLexeme
  dsimp only
  split
  · rename_i hblank
    refine .blank ?_
    simpa using hblank
  split
  · rename_i hc
    obtain ⟨rfl, -⟩ : c = '{' ∧ start = true := by simpa using hc
    exact .block
  split
  · rename_i hc
    obtain ⟨rfl, -⟩ : c = '"' ∧ start = true := by simpa using hc
    exact .quote
  split
  · rename_i hc; subst hc; exact .script
  split
  · rename_i hc; subst hc; exact .reference
  · rename_i hblank _ _ _ _
    obtain ⟨hstart, hnewline⟩ : startsBlank (c :: cs) = false ∧ c ≠ '\n' := by simpa using hblank
    refine .literal ?_ (fun _ => hstart)
    unfold endsListLiteral
    split <;> simp_all [startsBlank, isSpace]

theorem readFrom_lexeme {s : Scanner} (h : s.rest ≠ []) (mode : ScanMode) :
    ReadFrom s.rest (s.lexeme mode) := by
  obtain ⟨c, cs, hrest⟩ := List.exists_cons_of_ne_nil h
  cases mode <;> simp only [lexeme, hrest]
  · exact readFrom_commandLexeme _ c cs
  · exact readFrom_expressionLexeme c cs
  · exact readFrom_quotedLexeme c cs
  · exact readFrom_listLexeme _ c cs

theorem tiles_lexeme {s : Scanner} (h : s.rest ≠ []) (mode : ScanMode) :
    (s.lexeme mode).Tiles s.rest := (readFrom_lexeme h mode).tiles

theorem tiles_commandLexeme (start : Bool) (c : Char) (cs : List Char) :
    (commandLexeme start (c :: cs)).Tiles (c :: cs) := (readFrom_commandLexeme start c cs).tiles

theorem tiles_quotedLexeme (c : Char) (cs : List Char) :
    (quotedLexeme (c :: cs)).Tiles (c :: cs) := (readFrom_quotedLexeme c cs).tiles

theorem lexeme_of_rest_nil {s : Scanner} (h : s.rest = []) (mode : ScanMode) :
    s.lexeme mode = .verbatim .eof [] [] := by
  cases mode <;> simp [lexeme, h, commandLexeme, expressionLexeme, quotedLexeme, listLexeme]

end Scanner

end CommandScript
