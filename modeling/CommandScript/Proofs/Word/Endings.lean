import Mathlib.Data.List.TakeWhile
import CommandScript.Proofs.Word.Scanner

/-!
# What ends a word

A word of a complete script ends at a blank or a newline as it ends at the end of the text, unless
the text ends in a backslash that is not escaped itself (`Lexeme.escaping`); only blanks and
comments take in what follows (`Scanner.commandLexeme_extended`). So with a newline and more text
after it a script reads as it does alone, and after the newline a command can begin again
(`Scanner.readsOn`). Which reader reads a word is said once, in `Scanner.CommandReader`.
-/

namespace CommandScript

namespace Lexeme

/-! ## Backslashes at the end -/

/-- Whether the text ends in a backslash that is not escaped itself: it would escape what is
written after the text. -/
def escaping : List Char → Bool
  | [] => false
  | ['\\'] => true
  | '\\' :: _ :: cs => escaping cs
  | _ :: cs => escaping cs

theorem escaping_cons {c : Char} (hc : c ≠ '\\') (cs : List Char) :
    escaping (c :: cs) = escaping cs := by
  simp [escaping, hc]

theorem escaping_append_cons (xs : List Char) {c : Char} (hc : c ≠ '\\') (ys : List Char) :
    escaping (xs ++ c :: ys) = escaping ys := by
  fun_induction escaping xs with
  | case1 => exact escaping_cons hc ys
  | case2 => rfl
  | case3 d cs ih => exact ih
  | case4 d cs hlast hesc ih =>
    rw [List.cons_append, escaping_cons (ne_backslash hlast hesc), ih]

theorem ne_nil_of_escaping {cs : List Char} (h : escaping ('\\' :: cs) = false) : cs ≠ [] := by
  rintro rfl
  cases h

/-- The text does not end in a backslash. -/
def EndsPlain (cs : List Char) : Prop := cs.getLast? ≠ some '\\'

theorem escaping_of_endsPlain {cs : List Char} (h : EndsPlain cs) : escaping cs = false := by
  rcases List.eq_nil_or_concat cs with rfl | ⟨xs, c, rfl⟩
  · rfl
  · rw [List.concat_eq_append] at h ⊢
    refine escaping_append_cons xs ?_ []
    rintro rfl
    exact h List.getLast?_concat

theorem eq_of_isSpaceOrNewline {c : Char} (h : isSpaceOrNewline c = true) :
    c = ' ' ∨ c = '\t' ∨ c = '\r' ∨ c = '\n' := by
  simpa [isSpaceOrNewline, isSpace, or_assoc] using h

/-- The lexeme with more text after what it leaves. -/
def extended (more : List Char) (lex : Lexeme) : Lexeme := { lex with rest := lex.rest ++ more }

/-! ## Words that have an end of their own -/

theorem enclosed_replace {opening closing : Char} {depth : Nat} {cs inner rest : List Char}
    (h : enclosed opening closing depth cs = some (inner, rest)) (new : List Char) :
    enclosed opening closing depth (inner ++ closing :: new) = some (inner, new) := by
  fun_induction enclosed opening closing depth cs generalizing inner with
  | case1 | case2 => cases h
  | case3 depth c cs ih =>
    obtain ⟨⟨i, r⟩, hin, heq⟩ := Option.map_eq_some_iff.mp h
    cases heq
    simp [enclosed, ih hin]
  | case4 depth cs hlast hesc ih =>
    obtain ⟨⟨i, r⟩, hin, heq⟩ := Option.map_eq_some_iff.mp h
    cases heq
    cases depth <;> simp [enclosed, ne_backslash hlast hesc, ih hin]
  | case5 cs hlast hesc hopen =>
    cases h
    simp [enclosed, ne_backslash hlast hesc, hopen]
  | case6 cs depth hlast hesc hopen ih =>
    obtain ⟨⟨i, r⟩, hin, heq⟩ := Option.map_eq_some_iff.mp h
    cases heq
    simp [enclosed, ne_backslash hlast hesc, hopen, ih hin]
  | case7 depth c cs hlast hesc hopen hclose ih =>
    obtain ⟨⟨i, r⟩, hin, heq⟩ := Option.map_eq_some_iff.mp h
    cases heq
    cases depth <;> simp [enclosed, ne_backslash hlast hesc, hopen, hclose, ih hin]

theorem enclosed_append {opening closing : Char} {depth : Nat} {cs inner rest : List Char}
    (h : enclosed opening closing depth cs = some (inner, rest)) (more : List Char) :
    enclosed opening closing depth (cs ++ more) = some (inner, rest ++ more) := by
  rw [← eq_of_enclosed h, List.append_assoc, List.cons_append]
  exact enclosed_replace h _

theorem quoted_replace {depth : Nat} {cs inner rest : List Char}
    (h : quoted depth cs = .ok (inner, rest)) (new : List Char) :
    quoted depth (inner ++ '"' :: new) = .ok (inner, new) := by
  fun_induction quoted depth cs generalizing inner with
  | case1 | case2 | case3 | case4 => cases h
  | case6 cs =>
    cases h
    simp [quoted]
  | case5 depth c cs ih | case7 cs _ _ _ ih | case9 depth cs _ _ ih | case10 depth cs _ _ _ ih =>
    obtain ⟨found, hin, heq⟩ := exists_of_map_eq_ok h
    cases heq
    simp [quoted, ih hin, Except.map]
  | case8 c cs hlast hesc hquote hopen ih | case11 _ c cs hlast hesc hquote hopen ih =>
    obtain ⟨found, hin, heq⟩ := exists_of_map_eq_ok h
    cases heq
    simp [quoted, ne_backslash hlast hesc, hquote, hopen, ih hin, Except.map]

theorem quoted_append {depth : Nat} {cs inner rest : List Char}
    (h : quoted depth cs = .ok (inner, rest)) (more : List Char) :
    quoted depth (cs ++ more) = .ok (inner, rest ++ more) := by
  rw [← eq_of_quoted h, List.append_assoc, List.cons_append]
  exact quoted_replace h _

/-! ## Words that end where others begin

These end before a blank or a newline as they end at the end of the text. Blanks and comments end
only before a newline, unless they have ended already. -/

section

variable {cs : List Char} {sep : Char} (more : List Char)

theorem startsBlank_append (hne : cs ≠ []) (h : escaping cs = false) :
    Scanner.startsBlank (cs ++ more) = Scanner.startsBlank cs := by
  obtain ⟨c, cs, rfl⟩ := List.exists_cons_of_ne_nil hne
  cases cs with
  | nil =>
    have hc : c ≠ '\\' := by
      rintro rfl
      cases h
    simp [Scanner.startsBlank, hc]
  | cons d cs =>
    by_cases hc : c = '\\'
    · by_cases hd : d = '\n' <;> simp [Scanner.startsBlank, hc, hd]
    · simp [Scanner.startsBlank, hc]

theorem blanks_before (h : escaping cs = false) (hsep : sep = '\n' ∨ (blanks false cs).2 ≠ []) :
    blanks false (cs ++ sep :: more) =
      ((blanks false cs).1, (blanks false cs).2 ++ sep :: more) := by
  fun_induction blanks false cs with
  | case1 cs ih => simp [blanks, ih h hsep]
  | case2 c cs hjoin hblank ih =>
    have hc : c ≠ '\\' := by
      rintro rfl
      exact absurd hblank (by decide)
    rw [escaping_cons hc] at h
    simp only [List.cons_append]
    rw [blanks]
    · rw [if_pos hblank, ih h hsep]
      rfl
    · rintro _ rfl
      exact absurd rfl hc
  | case3 c cs hjoin hblank =>
    simp only [List.cons_append]
    rw [blanks]
    · rw [if_neg hblank]
    · rintro rest rfl heq
      obtain ⟨d, cs, rfl⟩ := List.exists_cons_of_ne_nil (ne_nil_of_escaping h)
      cases heq
      exact hjoin _ rfl rfl
  | case4 =>
    obtain rfl := hsep.resolve_right (· rfl)
    simp [blanks, isSpace]

theorem commentText_before (h : escaping cs = false) (hsep : sep = '\n' ∨ (commentText cs).2 ≠ []) :
    commentText (cs ++ sep :: more) =
      ((commentText cs).1, (commentText cs).2 ++ sep :: more) := by
  fun_induction commentText cs with
  | case1 =>
    obtain rfl := hsep.resolve_right (· rfl)
    rfl
  | case2 => cases h
  | case3 c cs ih => simp [commentText, ih h hsep]
  | case4 cs hlast hesc => simp [commentText]
  | case5 c cs hlast hesc hc ih =>
    have hne := ne_backslash hlast hesc
    rw [escaping_cons hne] at h
    simp [commentText, hne, hc, ih h hsep]

theorem nameRun_before (hsep : isSpaceOrNewline sep = true) (cs : List Char) :
    nameRun (cs ++ sep :: more) = ((nameRun cs).1, (nameRun cs).2 ++ sep :: more) := by
  have hname : isNameChar sep = false ∧ sep ≠ ':' := by
    rcases eq_of_isSpaceOrNewline hsep with rfl | rfl | rfl | rfl <;> decide
  fun_induction nameRun cs with
  | case1 cs ih => simp [nameRun, ih]
  | case2 c cs hcolon hname ih =>
    have hc : c ≠ ':' := by
      rintro rfl
      exact absurd hname (by decide)
    simp [nameRun, hc, hname, ih]
  | case3 c cs hcolon hstop =>
    simp only [List.cons_append]
    rw [nameRun]
    · rw [if_neg hstop]
    · rintro rest rfl heq
      cases cs with
      | nil =>
        cases heq
        exact hname.2 rfl
      | cons d cs =>
        cases heq
        exact hcolon _ rfl rfl
  | case4 => simp [nameRun, hname]

theorem literalRun_before {stop : Char → Bool} (hsep : stop sep = true) (hne : sep ≠ '\\')
    (hspace : stop ' ' = true) (h : escaping cs = false) :
    literalRun stop false (cs ++ sep :: more) =
      { literalRun stop false cs with rest := (literalRun stop false cs).rest ++ sep :: more } := by
  generalize hjoining : false = joining
  fun_induction literalRun stop joining cs with
  | case1 => simp [literalRun, hsep, hne, ← hjoining]
  | case2 => cases h
  | case3 joining cs _ => simp [literalRun, hspace]
  | case4 joining cs hstop => exact absurd hspace hstop
  | case5 joining c cs hc e he ih => simp [literalRun, hc, he, ih h rfl, Run.after]
  | case6 joining c cs hc he ih =>
    have hplain : c ≠ '\\' := by
      rintro rfl
      cases he
    have ih := ih ((escaping_cons hplain cs).trans h) rfl
    simp only [List.cons_append] at ih ⊢
    simp [literalRun, hc, he, ih, Run.after]
  | case7 joining c cs _ _ hjoin => simp [← hjoining] at hjoin
  | case8 joining c cs hlast hesc hjoin hstop =>
    simp [literalRun, ne_backslash hlast hesc, ← hjoining, hstop]
  | case9 joining c cs hlast hesc hjoin hstop ih =>
    have hplain := ne_backslash hlast hesc
    rw [escaping_cons hplain] at h
    simp [literalRun, hplain, ← hjoining, hstop, ih h rfl, Run.after]

end

theorem delimited_extended {kind : WordKind} {opening closing : Char} {missing : String}
    {cs : List Char} (h : (delimited kind opening closing missing (opening :: cs)).kind ≠ .illegal)
    (more : List Char) :
    delimited kind opening closing missing (opening :: cs ++ more) =
      (delimited kind opening closing missing (opening :: cs)).extended more := by
  unfold delimited at h ⊢
  simp only [List.tail_cons, List.cons_append] at h ⊢
  split at h
  · rename_i inner rest hin
    rw [enclosed_append hin more]
    rfl
  · exact absurd rfl h

theorem quote_extended {cs : List Char} (h : (quote ('"' :: cs)).kind ≠ .illegal)
    (more : List Char) : quote ('"' :: cs ++ more) = (quote ('"' :: cs)).extended more := by
  unfold quote at h ⊢
  simp only [List.tail_cons, List.cons_append] at h ⊢
  split at h
  · rename_i inner rest hin
    rw [quoted_append hin more]
    rfl
  · exact absurd rfl h

theorem append_ne_cons {cs : List Char} {c sep : Char} (hsep : sep ≠ c)
    (h : ∀ ds, cs ≠ c :: ds) (more : List Char) : ∀ ds, cs ++ sep :: more ≠ c :: ds := by
  intro ds heq
  cases cs with
  | nil => exact hsep (List.cons.inj heq).1
  | cons d cs => exact h cs (by rw [(List.cons.inj heq).1])

theorem variableRef_extended {cs : List Char} (h : (variableRef ('$' :: cs)).kind ≠ .illegal)
    {sep : Char} (hsep : isSpaceOrNewline sep = true) (more : List Char) :
    variableRef ('$' :: cs ++ sep :: more) =
      (variableRef ('$' :: cs)).extended (sep :: more) := by
  have hother : sep ≠ '{' ∧ sep ≠ '(' := by
    rcases eq_of_isSpaceOrNewline hsep with rfl | rfl | rfl | rfl <;> decide
  have hrun' := nameRun_before more hsep cs
  have href := reference cs
  generalize variableRef ('$' :: cs) = lex at h href ⊢
  -- What follows the name is the same, but for the blank after it.
  rw [List.cons_append]
  refine Reference.eq ?_
  cases href with
  | braced htext hname => exact .braced (by rw [htext]; simp) hname
  | openBrace | openIndex => exact absurd rfl h
  | alone hbrace hrun =>
    rw [hrun] at hrun'
    exact .alone (append_ne_cons hother.1 hbrace more) hrun'
  | plain hbrace hrun hrest =>
    rw [hrun] at hrun'
    exact .plain (append_ne_cons hother.1 hbrace more) hrun' (append_ne_cons hother.2 hrest more)
  | element hbrace hrun hindex =>
    rw [hrun] at hrun'
    exact .element (append_ne_cons hother.1 hbrace more) hrun' (enclosed_append hindex _)

/-! ## Backslashes at the end of what is left -/

section

variable {cs : List Char}

theorem escaping_blanks (newlines : Bool) (cs : List Char) :
    escaping (blanks newlines cs).2 = escaping cs := by
  fun_induction blanks newlines cs with
  | case1 cs ih => exact ih
  | case2 c cs _ hblank ih =>
    have hc : c ≠ '\\' := by
      rintro rfl
      simp [isSpace] at hblank
    rw [escaping_cons hc]
    exact ih
  | case3 | case4 => rfl

theorem escaping_commentText (h : escaping cs = false) : escaping (commentText cs).2 = false := by
  fun_induction commentText cs with
  | case1 | case2 | case4 => first | rfl | exact h
  | case3 c cs ih => exact ih h
  | case5 c cs hlast hesc _ ih =>
    rw [escaping_cons (ne_backslash hlast hesc)] at h
    exact ih h

theorem escaping_nameRun (cs : List Char) : escaping (nameRun cs).2 = escaping cs := by
  fun_induction nameRun cs with
  | case1 cs ih => exact ih
  | case2 c cs _ hname ih =>
    have hc : c ≠ '\\' := by
      rintro rfl
      exact absurd hname (by decide)
    rw [escaping_cons hc]
    exact ih
  | case3 | case4 => rfl

theorem escaping_literalRun {stop : Char → Bool} {joining : Bool} (h : escaping cs = false) :
    escaping (literalRun stop joining cs).rest = false := by
  fun_induction literalRun stop joining cs with
  | case1 | case2 => rfl
  | case3 | case8 => exact h
  | case4 joining cs _ ih | case5 joining c cs _ _ _ ih => exact ih h
  | case6 joining c cs hc he ih =>
    have hplain : c ≠ '\\' := by
      rintro rfl
      cases he
    exact ih ((escaping_cons hplain cs).trans h)
  | case7 joining c cs hlast hesc _ ih | case9 joining c cs hlast hesc _ _ ih =>
    rw [escaping_cons (ne_backslash hlast hesc)] at h
    exact ih h

theorem escaping_delimited {kind : WordKind} {opening closing : Char} {missing : String}
    (hopening : opening ≠ '\\') (hclosing : closing ≠ '\\') (h : escaping (opening :: cs) = false) :
    escaping (delimited kind opening closing missing (opening :: cs)).rest = false := by
  unfold delimited
  split
  · rename_i inner rest hin
    have hcs : inner ++ closing :: rest = cs := eq_of_enclosed hin
    rw [escaping_cons hopening, ← hcs, escaping_append_cons inner hclosing] at h
    exact h
  · rfl

theorem escaping_quote (h : escaping ('"' :: cs) = false) :
    escaping (quote ('"' :: cs)).rest = false := by
  unfold quote
  split
  · rename_i inner rest hin
    have hcs : inner ++ '"' :: rest = cs := eq_of_quoted hin
    rw [escaping_cons (by decide), ← hcs, escaping_append_cons inner (by decide)] at h
    exact h
  · rfl

theorem escaping_variableRef (h : escaping ('$' :: cs) = false) :
    escaping (variableRef ('$' :: cs)).rest = false := by
  rw [escaping_cons (by decide)] at h
  have hname := escaping_nameRun cs
  have href := reference cs
  generalize variableRef ('$' :: cs) = lex at href ⊢
  cases href with
  | braced htext =>
    rw [htext, escaping_cons (by decide), escaping_append_cons _ (by decide)] at h
    exact h
  | openBrace | openIndex => rfl
  | alone => exact h
  | plain hbrace hrun =>
    rw [hrun, h] at hname
    exact hname
  | element hbrace hrun hindex =>
    rw [hrun, h, escaping_cons (by decide), ← eq_of_enclosed hindex,
      escaping_append_cons _ (by decide)] at hname
    exact hname

end

/-! ## Kinds -/

theorem kind_delimited (kind : WordKind) (opening closing : Char) (missing : String)
    (cs : List Char) :
    (delimited kind opening closing missing cs).kind = kind ∨
      (delimited kind opening closing missing cs).kind = .illegal := by
  unfold delimited
  split
  · exact .inl rfl
  · exact .inr rfl

theorem kind_block (cs : List Char) : (block cs).kind = .block ∨ (block cs).kind = .illegal :=
  kind_delimited _ _ _ _ _

theorem kind_script (cs : List Char) : (script cs).kind = .script ∨ (script cs).kind = .illegal :=
  kind_delimited _ _ _ _ _

theorem kind_quote (cs : List Char) : (quote cs).kind = .quote ∨ (quote cs).kind = .illegal := by
  unfold quote
  split
  · exact .inl rfl
  · exact .inr rfl

theorem kind_variableRef (cs : List Char) :
    (variableRef cs).kind = .varRef ∨ (variableRef cs).kind = .literal ∨
      (variableRef cs).kind = .illegal := by
  unfold variableRef
  split
  · dsimp only
    split <;> simp [unterminated]
  · dsimp only
    split
    · simp [verbatim]
    · split <;> simp [unterminated]
    · simp

/-! ## Words left open

What lacks its closing character still lacks it with blanks after it. -/

theorem enclosed_eq_none {opening closing : Char} {cs : List Char} (h : closing ∉ cs)
    (depth : Nat) : enclosed opening closing depth cs = none := by
  rcases hin : enclosed opening closing depth cs with _ | ⟨inner, rest⟩
  · rfl
  · refine absurd ?_ h
    rw [← eq_of_enclosed hin]
    exact List.mem_append_right _ List.mem_cons_self

theorem enclosed_append_eq_none {opening closing : Char} {depth : Nat} {cs more : List Char}
    (h : enclosed opening closing depth cs = none) (hmore : closing ∉ more) :
    enclosed opening closing depth (cs ++ more) = none := by
  fun_induction enclosed opening closing depth cs with
  | case1 depth => exact enclosed_eq_none hmore depth
  | case2 depth =>
    cases more with
    | nil => rfl
    | cons c more =>
      have hmore : closing ∉ more := fun hmem => hmore (List.mem_cons_of_mem c hmem)
      simp [enclosed, enclosed_eq_none hmore]
  | case3 depth c cs ih => simp [enclosed, ih (Option.map_eq_none_iff.1 h)]
  | case4 depth cs hlast hesc ih =>
    cases depth <;> simp [enclosed, ne_backslash hlast hesc, ih (Option.map_eq_none_iff.1 h)]
  | case5 => cases h
  | case6 cs depth hlast hesc hopen ih =>
    simp [enclosed, ne_backslash hlast hesc, hopen, ih (Option.map_eq_none_iff.1 h)]
  | case7 depth c cs hlast hesc hopen hclose ih =>
    cases depth <;>
      simp [enclosed, ne_backslash hlast hesc, hopen, hclose, ih (Option.map_eq_none_iff.1 h)]

theorem isOk_map {α β ε : Type} (f : α → β) (x : Except ε α) : (x.map f).isOk = x.isOk := by
  cases x <;> rfl

theorem isOk_quoted {cs : List Char} (h : '"' ∉ cs) (depth : Nat) :
    (quoted depth cs).isOk = false := by
  rcases hin : quoted depth cs with missing | ⟨inner, rest⟩
  · rfl
  · refine absurd ?_ h
    rw [← eq_of_quoted hin]
    exact List.mem_append_right _ List.mem_cons_self

theorem isOk_quoted_append {depth : Nat} {cs more : List Char}
    (h : (quoted depth cs).isOk = false) (hmore : '"' ∉ more) :
    (quoted depth (cs ++ more)).isOk = false := by
  fun_induction quoted depth cs with
  | case1 | case2 => exact isOk_quoted hmore _
  | case3 | case4 =>
    cases more with
    | nil => rfl
    | cons c more =>
      have hmore : '"' ∉ more := fun hmem => hmore (List.mem_cons_of_mem c hmem)
      simp [quoted, isOk_map, isOk_quoted hmore]
  | case6 cs => cases h
  | case5 depth c cs ih | case7 cs _ _ _ ih | case9 depth cs _ _ ih | case10 depth cs _ _ _ ih =>
    rw [isOk_map] at h
    simp [quoted, isOk_map, ih h]
  | case8 c cs hlast hesc hquote hopen ih | case11 _ c cs hlast hesc hquote hopen ih =>
    rw [isOk_map] at h
    simp [quoted, ne_backslash hlast hesc, hquote, hopen, isOk_map, ih h]

theorem kind_delimited_append {kind : WordKind} (hkind : kind ≠ .illegal) {opening closing : Char}
    {missing : String} {cs more : List Char} (hmore : closing ∉ more)
    (h : (delimited kind opening closing missing (opening :: cs)).kind = .illegal) :
    (delimited kind opening closing missing (opening :: (cs ++ more))).kind = .illegal := by
  unfold delimited at h ⊢
  rw [List.tail_cons] at h ⊢
  split at h
  · exact absurd h hkind
  · rename_i hnone
    rw [enclosed_append_eq_none hnone hmore]
    rfl

theorem kind_quote_append {cs more : List Char} (hmore : '"' ∉ more)
    (h : (quote ('"' :: cs)).kind = .illegal) : (quote ('"' :: (cs ++ more))).kind = .illegal := by
  unfold quote at h ⊢
  rw [List.tail_cons] at h ⊢
  split at h
  · cases h
  · rename_i missing hmissing
    have hbad := isOk_quoted_append (show (quoted 0 cs).isOk = false by rw [hmissing]; rfl) hmore
    split
    · rename_i inner rest hin
      rw [hin] at hbad
      cases hbad
    · rfl

theorem kind_variableRef_append {cs more : List Char} {sep : Char}
    (hsep : isSpaceOrNewline sep = true) (hmore : '}' ∉ sep :: more ∧ ')' ∉ sep :: more)
    (h : (variableRef ('$' :: cs)).kind = .illegal) :
    (variableRef ('$' :: (cs ++ sep :: more))).kind = .illegal := by
  have href := reference cs
  generalize variableRef ('$' :: cs) = lex at h href
  cases href with
  | braced | alone | plain | element => cases h
  | openBrace htext hopen =>
    subst htext
    have hopen' := fun hmem => (List.mem_append.1 hmem).elim hopen hmore.1
    exact congrArg Lexeme.kind (Reference.openBrace rfl hopen').eq
  | openIndex hbrace hrun hindex =>
    have hother : sep ≠ '{' := by
      rcases eq_of_isSpaceOrNewline hsep with rfl | rfl | rfl | rfl <;> decide
    have hrun' := nameRun_before more hsep cs
    rw [hrun] at hrun'
    exact congrArg Lexeme.kind (Reference.openIndex (append_ne_cons hother hbrace more) hrun'
      (enclosed_append_eq_none hindex hmore.2)).eq

end Lexeme

namespace Scanner

open Lexeme

/-- The reader of a word of a script, by its first character and by whether a blank begins there. -/
def commandReader (start : Bool) (c : Char) (blanks : Bool) : List Char → Lexeme :=
  if c = '\n' || c = ';' then fun cs => verbatim .eol [c] cs.tail
  else if blanks then blank false
  else if c = '#' && start then comment
  else if c = '{' then block
  else if c = '[' then script
  else if c = '"' then quote
  else if c = '$' then variableRef
  else literal endsCommandLiteral

theorem commandLexeme_eq (start : Bool) (c : Char) (cs : List Char) :
    commandLexeme start (c :: cs) = commandReader start c (startsBlank (c :: cs)) (c :: cs) := by
  simp only [commandLexeme, commandReader, ite_apply, List.tail_cons]

/-- Which reader it is. -/
inductive CommandReader (start : Bool) (c : Char) (blanks : Bool) :
    (List Char → Lexeme) → Prop where
  | separator (hc : c = '\n' ∨ c = ';') :
    CommandReader start c blanks fun cs => verbatim .eol [c] cs.tail
  | blank (hblank : blanks = true) : CommandReader start c blanks (Lexeme.blank false)
  | comment (hc : c = '#') (hstart : start = true) : CommandReader start c blanks Lexeme.comment
  | block (hc : c = '{') : CommandReader start c blanks Lexeme.block
  | script (hc : c = '[') : CommandReader start c blanks Lexeme.script
  | quote (hc : c = '"') : CommandReader start c blanks Lexeme.quote
  | reference (hc : c = '$') : CommandReader start c blanks variableRef
  | literal : CommandReader start c blanks (Lexeme.literal endsCommandLiteral)

theorem commandReader_cases (start : Bool) (c : Char) (blanks : Bool) :
    CommandReader start c blanks (commandReader start c blanks) := by
  unfold commandReader
  split
  · rename_i hc
    exact .separator (by simpa using hc)
  split
  · exact .blank ‹_›
  split
  · rename_i hc
    have hc : c = '#' ∧ start = true := by simpa using hc
    exact .comment hc.1 hc.2
  split
  · exact .block ‹_›
  split
  · exact .script ‹_›
  split
  · exact .quote ‹_›
  split
  · exact .reference ‹_›
  · exact .literal

theorem exists_commandReader (start : Bool) (c : Char) (blanks : Bool) :
    ∃ reader, CommandReader start c blanks reader ∧
      ∀ cs, startsBlank (c :: cs) = blanks → commandLexeme start (c :: cs) = reader (c :: cs) :=
  ⟨commandReader start c blanks, commandReader_cases start c blanks, fun cs h => by
    rw [commandLexeme_eq, h]⟩

/-- What begins a blank, a comment or a quote. -/
theorem begins_of_kind (start : Bool) (c : Char) (cs : List Char) :
    ((commandLexeme start (c :: cs)).kind = .blank → startsBlank (c :: cs) = true) ∧
      ((commandLexeme start (c :: cs)).kind = .comment → c = '#' ∧ start = true) ∧
      ((commandLexeme start (c :: cs)).kind = .quote → c = '"') := by
  obtain ⟨reader, hreader, hread⟩ := exists_commandReader start c (startsBlank (c :: cs))
  rw [hread cs rfl]
  cases hreader with
  | separator | literal => exact ⟨nofun, nofun, nofun⟩
  | blank hblank => exact ⟨fun _ => hblank, nofun, nofun⟩
  | comment hc hstart => exact ⟨nofun, fun _ => ⟨hc, hstart⟩, nofun⟩
  | quote hc =>
    subst hc
    rcases kind_quote ('"' :: cs) with h | h <;> simp [h]
  | block => rcases kind_block (c :: cs) with h | h <;> simp [h]
  | script => rcases kind_script (c :: cs) with h | h <;> simp [h]
  | reference => rcases kind_variableRef (c :: cs) with h | h | h <;> simp [h]

theorem commandLexeme_extended {start : Bool} {cs : List Char} (hne : cs ≠ [])
    (hend : escaping cs = false) (hlegal : (commandLexeme start cs).kind ≠ .illegal) {sep : Char}
    (hsep : isSpaceOrNewline sep = true)
    (hstop : sep = '\n' ∨ (commandLexeme start cs).rest ≠ [] ∨
      (commandLexeme start cs).kind ≠ .blank ∧ (commandLexeme start cs).kind ≠ .comment)
    (more : List Char) :
    commandLexeme start (cs ++ sep :: more) =
      (commandLexeme start cs).extended (sep :: more) := by
  have hblanks := startsBlank_append (sep :: more) hne hend
  obtain ⟨c, cs, rfl⟩ := List.exists_cons_of_ne_nil hne
  obtain ⟨reader, hreader, hread⟩ := exists_commandReader start c (startsBlank (c :: cs))
  have hextended : commandLexeme start (c :: cs ++ sep :: more) = reader (c :: cs ++ sep :: more) :=
    hread _ hblanks
  rw [hread cs rfl] at hlegal hstop ⊢
  rw [hextended]
  cases hreader with
  | separator => rfl
  | blank =>
    have hstop : sep = '\n' ∨ (blanks false (c :: cs)).2 ≠ [] :=
      hstop.imp_right fun h => h.resolve_right fun h => h.1 rfl
    simp only [Lexeme.blank, blanks_before more hend hstop, verbatim, extended]
  | comment hc =>
    subst hc
    have hstop : sep = '\n' ∨ (commentText cs).2 ≠ [] :=
      hstop.imp_right fun h => h.resolve_right fun h => h.2 rfl
    rw [escaping_cons (by decide)] at hend
    simp only [Lexeme.comment, List.cons_append, List.tail_cons, commentText_before more hend hstop,
      extended]
  | block hc | script hc =>
    subst hc
    exact delimited_extended hlegal _
  | quote hc =>
    subst hc
    exact quote_extended hlegal _
  | reference hc =>
    subst hc
    exact variableRef_extended hlegal hsep _
  | literal =>
    have hends : endsCommandLiteral sep = true ∧ sep ≠ '\\' := by
      rcases eq_of_isSpaceOrNewline hsep with rfl | rfl | rfl | rfl <;> decide
    simp only [Lexeme.literal, literalRun_before more hends.1 hends.2 rfl hend, extended]

theorem escaping_commandLexeme {start : Bool} {cs : List Char} (h : escaping cs = false) :
    escaping (commandLexeme start cs).rest = false := by
  rcases cs with _ | ⟨c, cs⟩
  · rfl
  obtain ⟨reader, hreader, hread⟩ := exists_commandReader start c (startsBlank (c :: cs))
  rw [hread cs rfl]
  cases hreader with
  | separator hc =>
    have hc : c ≠ '\\' := by rcases hc with rfl | rfl <;> decide
    rwa [escaping_cons hc] at h
  | blank => exact (escaping_blanks false _).trans h
  | comment hc =>
    subst hc
    rw [escaping_cons (by decide)] at h
    exact escaping_commentText h
  | block hc | script hc =>
    subst hc
    exact escaping_delimited (by decide) (by decide) h
  | quote hc =>
    subst hc
    exact escaping_quote h
  | reference hc =>
    subst hc
    exact escaping_variableRef h
  | literal => exact escaping_literalRun h

/-- A word that is left open is left open with blanks after it. -/
theorem kind_commandLexeme_append {start : Bool} {cs trail : List Char}
    (htrail : ∀ c ∈ trail, isSpaceOrNewline c = true) (hend : escaping cs = false)
    (h : (commandLexeme start cs).kind = .illegal) :
    (commandLexeme start (cs ++ trail)).kind = .illegal := by
  have hclosing : ∀ c, isSpaceOrNewline c = false → c ∉ trail := by
    intro c hc hmem
    rw [htrail c hmem] at hc
    cases hc
  rcases cs with _ | ⟨c, cs⟩
  · cases h
  have hblanks := startsBlank_append trail (List.cons_ne_nil c cs) hend
  obtain ⟨reader, hreader, hread⟩ := exists_commandReader start c (startsBlank (c :: cs))
  have happended : commandLexeme start (c :: cs ++ trail) = reader (c :: cs ++ trail) :=
    hread _ hblanks
  rw [hread cs rfl] at h
  rw [happended]
  cases hreader with
  | separator | blank | comment | literal => cases h
  | block hc =>
    subst hc
    exact kind_delimited_append WordKind.noConfusion (hclosing '}' rfl) h
  | script hc =>
    subst hc
    exact kind_delimited_append WordKind.noConfusion (hclosing ']' rfl) h
  | quote hc =>
    subst hc
    exact kind_quote_append (hclosing '"' rfl) h
  | reference hc =>
    subst hc
    rcases trail with _ | ⟨sep, more⟩
    · rwa [List.append_nil]
    · exact kind_variableRef_append (htrail sep List.mem_cons_self)
        ⟨hclosing '}' rfl, hclosing ')' rfl⟩ h

/-- The scanner with more text after what it has to read. -/
def extended (more : List Char) (s : Scanner) : Scanner := { s with rest := s.rest ++ more }

theorem next_extended {s : Scanner} (hne : s.rest ≠ []) (hend : escaping s.rest = false)
    (hlegal : (s.next .command).1.kind ≠ .illegal) {sep : Char} (hsep : isSpaceOrNewline sep = true)
    (hstop : sep = '\n' ∨ (s.next .command).2.rest ≠ [] ∨
      (s.next .command).1.kind ≠ .blank ∧ (s.next .command).1.kind ≠ .comment) (more : List Char) :
    (s.extended (sep :: more)).next .command =
      ((s.next .command).1, (s.next .command).2.extended (sep :: more)) := by
  have hlex : (s.extended (sep :: more)).lexeme .command =
      (s.lexeme .command).extended (sep :: more) :=
    commandLexeme_extended hne hend hlegal hsep hstop more
  simp only [next, skipBlanks, hlex]
  rfl

theorem escaping_rest_next {s : Scanner} (hend : escaping s.rest = false) :
    escaping (s.next .command).2.rest = false := escaping_commandLexeme hend

/-- What a text reads as, alone and before a newline and more text: the words `ws` both times, and
then the words of the rest, read by `t` where a command can begin. -/
structure ReadsOn (s : Scanner) (more : List Char) (ws : List Word) (last sep : Word)
    (t : Scanner) : Prop where
  alone : s.wordsIn .command = ws ++ [last]
  last_eof : last.kind = .eof
  words_ne_eof : ∀ w ∈ ws, w.kind ≠ .eof
  followed : (s.extended ('\n' :: more)).wordsIn .command = ws ++ sep :: t.wordsIn .command
  sep_eol : sep.kind = .eol
  rest : t.rest = more
  place : t.place = (s.place.advance s.rest).step '\n'
  start : t.atCommandStart = true

theorem readsOn {s : Scanner} (hend : escaping s.rest = false)
    (hlegal : ∀ w ∈ s.wordsIn .command, w.kind ≠ .illegal) (more : List Char) :
    ∃ (ws : List Word) (last sep : Word) (t : Scanner), ReadsOn s more ws last sep t := by
  induction s using reading_induction .command with
  | last s heof =>
    have hrest : s.rest = [] := (kind_next_eq_eof_iff s .command).mp heof
    let t := s.extended ('\n' :: more)
    have ht : t.rest = '\n' :: more := by simp [t, extended, hrest]
    have hkind : (t.next .command).1.kind = .eol := by
      simp [next, skipBlanks, lexeme, ht, commandLexeme, verbatim]
    refine ⟨[], (s.next .command).1, (t.next .command).1, (t.next .command).2,
      wordsIn_of_eof heof, heof, fun w hw => absurd hw List.not_mem_nil,
      wordsIn_of_ne_eof (by rw [hkind]; exact fun h => by cases h), hkind, ?_, ?_, ?_⟩
    · simp [next, skipBlanks, lexeme, ht, commandLexeme, verbatim, past]
    · simp only [next, skipBlanks, lexeme, ht, commandLexeme, verbatim, past, hrest]
      rfl
    · simp [next, skipBlanks, lexeme, ht, commandLexeme, verbatim, commandStartAfter]
  | more s hne ih =>
    have hrest : s.rest ≠ [] := fun h => hne ((kind_next_eq_eof_iff s .command).mpr h)
    rw [wordsIn_of_ne_eof hne] at hlegal
    obtain ⟨ws, last, sep, t, hws, hlast, hnone, hmore, hsep, htext, hplace, hstart⟩ :=
      ih (escaping_rest_next hend) fun w hw => hlegal w (List.mem_cons_of_mem _ hw)
    have hnewline : isSpaceOrNewline '\n' = true := rfl
    have hnext := next_extended hrest hend (hlegal _ List.mem_cons_self) hnewline (.inl rfl) more
    refine ⟨(s.next .command).1 :: ws, last, sep, t, ?_, hlast, ?_, ?_, hsep, htext, ?_, hstart⟩
    · rw [wordsIn_of_ne_eof hne, hws]
      rfl
    · intro w hw
      rcases List.mem_cons.mp hw with rfl | hw
      · exact hne
      · exact hnone w hw
    · rw [wordsIn_of_ne_eof (by rw [hnext]; exact hne), hnext, hmore]
      rfl
    · rw [hplace, ← (tiles_lexeme hrest .command).append, Place.advance_append]
      rfl

theorem wordsIn_extended {s : Scanner} (hend : EndsPlain s.rest)
    (hlegal : ∀ w ∈ s.wordsIn .command, w.kind ≠ .illegal) (more : List Char) :
    ∃ (ws : List Word) (last sep : Word) (t : Scanner), ReadsOn s more ws last sep t :=
  readsOn (escaping_of_endsPlain hend) hlegal more

end Scanner

end CommandScript
