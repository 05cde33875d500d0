import CommandScript.Proofs.ListText.RoundTrip

/-!
# Trimmed list text

Trimming takes white space off both ends of a text. In the text of a list that can hit the first
and the last element, if they stand escaped: white space other than the scanner's own blanks is left
bare there, and of an escaped space the backslash stays behind.

* `losesStart`, `losesEnd`: the elements that trimming hits, and `seamless`: the lists that it
  leaves as they are (`trimBoth_of_seamless`).
* `trimBoth_escaped`, `trimEnd_escaped`: what is left of an escaped element.
* `begins_trimmed`: how a trimmed list begins.
-/

namespace CommandScript

namespace Text

variable {p : Char → Bool} {c : Char}

theorem trimStart_cons (h : p c = false) (cs : List Char) : trimStart p (c :: cs) = c :: cs := by
  simp [trimStart, h]

theorem trimEnd_concat (h : p c = true) (cs : List Char) :
    trimEnd p (cs ++ [c]) = trimEnd p cs := by
  simp [trimEnd, h]

/-- What stands before a character that is kept is kept. -/
theorem trimEnd_append_cons (h : p c = false) (before after : List Char) :
    trimEnd p (before ++ c :: after) = before ++ c :: trimEnd p after := by
  simp only [trimEnd, List.reverse_append, List.reverse_cons, List.append_assoc,
    List.dropWhile_append, List.singleton_append]
  split
  · rename_i hall
    rw [List.isEmpty_iff.1 hall]
    simp [h]
  · simp

end Text

namespace ListText

open Text (isBlank trimStart trimEnd trimBoth trimStart_cons trimEnd_concat trimEnd_append_cons)

/-! ## Elements that lose white space -/

/-- White space that is not escaped. -/
def isLoose (c : Char) : Bool := isBlank c && !Lexeme.isSpaceOrNewline c

/-- Whether trimming at the start takes something off an element. -/
def losesStart (cs : List Char) : Bool := !canBrace cs && cs.head?.any isLoose

/-- Whether trimming at the end takes something off an element. -/
def losesEnd (cs : List Char) : Bool :=
  !canBrace cs && cs.getLast?.any fun c => isLoose c || c == ' '

/-- Whether trimming leaves a list as it is. -/
def seamless (es : List (List Char)) : Bool :=
  es.head?.all (!losesStart ·) && es.getLast?.all (!losesEnd ·)

theorem isBlank_of_isSpecial {c : Char} (h : isSpecial c = true) : isBlank c = false := by
  unfold isSpecial at h
  split at h
  all_goals first | decide | cases h

theorem escapeChar_of_isLoose {c : Char} (h : isLoose c = true) : escapeChar c = [c] := by
  obtain ⟨hblank, hspace⟩ : isBlank c = true ∧ Lexeme.isSpaceOrNewline c = false := by
    simpa [isLoose] using h
  have hspecial : isSpecial c = false := by
    cases hs : isSpecial c with
    | false => rfl
    | true =>
      rw [isBlank_of_isSpecial hs] at hblank
      cases hblank
  unfold escapeChar
  split
  · cases hspace
  · cases hspace
  · cases hspace
  · have hne : c ≠ ' ' := by rintro rfl; cases hspace
    simp [hspecial, hne]

/-- A character that is not loose is written with something other than white space first. -/
theorem escapeChar_head {c : Char} (h : isLoose c = false) :
    ∃ d r, escapeChar c = d :: r ∧ isBlank d = false := by
  rcases Lexeme.escapeChar_cases c with ⟨d, he, -⟩ | ⟨he, hspace, -⟩
  · exact ⟨'\\', [d], he, by decide⟩
  · exact ⟨c, [], he, by simpa [isLoose, hspace] using h⟩

/-- Unless it is a space, it is also written with something other than white space last. -/
theorem escapeChar_last {c : Char} (h : isLoose c = false) (hne : c ≠ ' ') :
    ∃ l d, escapeChar c = l ++ [d] ∧ isBlank d = false := by
  unfold escapeChar
  split
  · exact ⟨['\\'], 'n', rfl, by decide⟩
  · exact ⟨['\\'], 't', rfl, by decide⟩
  · exact ⟨['\\'], 'r', rfl, by decide⟩
  · rename_i hn ht hr
    cases hs : isSpecial c with
    | true => exact ⟨['\\'], c, by simp, isBlank_of_isSpecial hs⟩
    | false =>
      have hspace : Lexeme.isSpaceOrNewline c = false := by
        simp only [Lexeme.isSpaceOrNewline, Lexeme.isSpace, Bool.or_eq_false_iff,
          beq_eq_false_iff_ne]
        exact ⟨⟨⟨hne, ht⟩, hr⟩, hn⟩
      exact ⟨[], c, by simp [hne], by simpa [isLoose, hspace] using h⟩

theorem isLoose_of_not_isBlank {c : Char} (h : isBlank c = false) : isLoose c = false := by
  rw [isLoose, h, Bool.false_and]

theorem canBraceFrom_of_bare {cs : List Char} (h : ∀ c ∈ cs, isSpecial c = false) (depth : Nat) :
    canBraceFrom depth cs = (depth == 0) := by
  fun_induction canBraceFrom depth cs with
  | case1 => rfl
  | case2 => cases h '\\' List.mem_cons_self
  | case3 => cases h '\\' List.mem_cons_self
  | case4 => cases h '{' List.mem_cons_self
  | case5 => cases h '}' List.mem_cons_self
  | case6 => cases h '}' List.mem_cons_self
  | case7 depth c cs _ _ _ _ ih => exact ih fun d hd => h d (List.mem_cons_of_mem _ hd)

/-- An element stands in braces, or else escaped, and then not all of it is white space. -/
theorem quoteChars_forms (cs : List Char) :
    (canBrace cs = true ∧ quoteChars cs = '{' :: (cs ++ ['}'])) ∨
      (quoteChars cs = cs.flatMap escapeChar ∧ (∃ c ∈ cs, isBlank c = false) ∧
        (canBrace cs = true → ∀ c ∈ cs, isBlank c = false)) := by
  rcases quoteChars_cases cs with h | ⟨hne, h⟩
  · exact .inl h
  cases hq : needsQuoting cs with
  | false =>
    have hbare : ∀ c ∈ cs, isBlank c = false := by
      have hany := (Bool.or_eq_false_iff.1 hq).2
      rw [List.any_eq_false] at hany
      exact fun c hc => (by simpa using hany c hc : isBlank c = false ∧ _).1
    obtain ⟨c, rest, rfl⟩ := List.exists_cons_of_ne_nil hne
    exact .inr ⟨h, ⟨c, List.mem_cons_self, hbare c List.mem_cons_self⟩, fun _ => hbare⟩
  | true =>
    cases hb : canBrace cs with
    | true =>
      refine .inl ⟨rfl, ?_⟩
      rw [quoteChars, if_neg (by simpa using hne), if_neg (by simp [hq]), if_pos hb]
    | false =>
      obtain ⟨c, hc, hs⟩ : ∃ c ∈ cs, isSpecial c = true := by
        cases hany : cs.any isSpecial with
        | true => exact List.any_eq_true.1 hany
        | false =>
          have hnone : ∀ c ∈ cs, isSpecial c = false := by simpa using hany
          rw [canBrace, canBraceFrom_of_bare hnone] at hb
          cases hb
      exact .inr ⟨h, ⟨c, hc, isBlank_of_isSpecial hs⟩, fun h => by cases h⟩

/-! ## Elements that are left as they are -/

theorem trimStart_quoteChars {cs : List Char} (h : losesStart cs = false) (rest : List Char) :
    trimStart isBlank (quoteChars cs ++ rest) = quoteChars cs ++ rest := by
  rcases quoteChars_forms cs with ⟨-, hq⟩ | ⟨hq, ⟨_, hsolid, -⟩, hbare⟩
  · rw [hq]
    exact trimStart_cons (by decide) _
  · obtain ⟨c, cs, rfl⟩ := List.exists_cons_of_ne_nil (List.ne_nil_of_mem hsolid)
    have hc : isLoose c = false := by
      cases hb : canBrace (c :: cs) with
      | true => exact isLoose_of_not_isBlank (hbare hb c List.mem_cons_self)
      | false => simpa [losesStart, hb] using h
    obtain ⟨d, r, he, hd⟩ := escapeChar_head hc
    rw [hq, List.flatMap_cons, he]
    exact trimStart_cons hd _

theorem trimEnd_of_last {cs : List Char} (hne : cs ≠ [])
    (hlast : ∀ c ∈ cs.getLast?, isLoose c = false ∧ c ≠ ' ') (before : List Char) :
    trimEnd isBlank (before ++ cs.flatMap escapeChar) = before ++ cs.flatMap escapeChar := by
  cases cs using List.reverseRecOn with
  | nil => exact absurd rfl hne
  | append_singleton cs c =>
    obtain ⟨hloose, hspace⟩ := hlast c List.getLast?_concat
    obtain ⟨l, d, he, hd⟩ := escapeChar_last hloose hspace
    rw [List.flatMap_append, List.flatMap_singleton, he, ← List.append_assoc, ← List.append_assoc]
    exact trimEnd_append_cons hd _ []

theorem trimEnd_quoteChars {cs : List Char} (h : losesEnd cs = false) (before : List Char) :
    trimEnd isBlank (before ++ quoteChars cs) = before ++ quoteChars cs := by
  rcases quoteChars_forms cs with ⟨-, hq⟩ | ⟨hq, ⟨_, hsolid, -⟩, hbare⟩
  · rw [hq, ← List.cons_append, ← List.append_assoc]
    exact trimEnd_append_cons (by decide) _ []
  · rw [hq]
    refine trimEnd_of_last (List.ne_nil_of_mem hsolid) ?_ before
    intro c hc
    cases hb : canBrace cs with
    | false =>
      rw [losesEnd, hb, Option.mem_def.1 hc] at h
      simpa using h
    | true =>
      have hblank := hbare hb c (List.mem_of_getLast? hc)
      refine ⟨isLoose_of_not_isBlank hblank, ?_⟩
      rintro rfl
      cases hblank

/-! ## Elements that lose something -/

theorem quoteChars_of_not_canBrace {cs : List Char} (h : canBrace cs = false) :
    quoteChars cs = cs.flatMap escapeChar ∧ ∃ c ∈ cs, isBlank c = false := by
  rcases quoteChars_forms cs with ⟨hb, -⟩ | ⟨hq, hsolid, -⟩
  · rw [h] at hb
    cases hb
  · exact ⟨hq, hsolid⟩

theorem trimStart_escaped {cs : List Char} (h : ∃ c ∈ cs, isLoose c = false) (rest : List Char) :
    ∃ c kept, c :: kept = cs.dropWhile isLoose ∧ isLoose c = false ∧
      trimStart isBlank (cs.flatMap escapeChar ++ rest) =
        (c :: kept).flatMap escapeChar ++ rest := by
  induction cs with
  | nil =>
    obtain ⟨c, hc, -⟩ := h
    cases hc
  | cons c cs ih =>
    cases hc : isLoose c with
    | false =>
      obtain ⟨d, r, he, hd⟩ := escapeChar_head hc
      refine ⟨c, cs, by simp [hc], hc, ?_⟩
      rw [List.flatMap_cons, he]
      exact trimStart_cons hd _
    | true =>
      obtain ⟨d, hd, hloose⟩ := h
      have hd : d ∈ cs := by
        rcases List.mem_cons.1 hd with rfl | hd
        · rw [hc] at hloose
          cases hloose
        · exact hd
      obtain ⟨x, kept, hkept, hx, htrim⟩ := ih ⟨d, hd, hloose⟩
      have hblank : isBlank c = true := (Bool.and_eq_true_iff.1 hc).1
      refine ⟨x, kept, by simp [hc, hkept], hx, ?_⟩
      rw [← htrim, List.flatMap_cons, escapeChar_of_isLoose hc]
      simp [trimStart, hblank]

/-- A trimmed text that begins with an escaped element begins with a character of it that is not
loose. -/
theorem trimBoth_escaped {cs : List Char} (h : ∃ c ∈ cs, isBlank c = false) (rest : List Char) :
    ∃ c after, isLoose c = false ∧
      trimBoth isBlank (cs.flatMap escapeChar ++ rest) = escapeChar c ++ after := by
  obtain ⟨y, hy, hsolid⟩ := h
  have hloose := isLoose_of_not_isBlank hsolid
  obtain ⟨c, kept, hkept, hc, htrim⟩ := trimStart_escaped ⟨y, hy, hloose⟩ rest
  have hy : y ∈ c :: kept := by
    rw [hkept]
    rw [← List.takeWhile_append_dropWhile (p := isLoose) (l := cs), List.mem_append] at hy
    refine hy.resolve_left fun hmem => ?_
    rw [List.all_eq_true.1 List.all_takeWhile y hmem] at hloose
    cases hloose
  -- What follows `y` may be trimmed, what stands before it is safe.
  obtain ⟨before, after, hsplit⟩ := List.append_of_mem hy
  obtain ⟨l, d, he, hd⟩ := escapeChar_last hloose (by rintro rfl; cases hsolid)
  have hend : trimBoth isBlank (cs.flatMap escapeChar ++ rest) =
      before.flatMap escapeChar ++ escapeChar y ++
        trimEnd isBlank (after.flatMap escapeChar ++ rest) := by
    rw [trimBoth, htrim, hsplit, List.flatMap_append, List.flatMap_cons, he]
    have := trimEnd_append_cons hd (before.flatMap escapeChar ++ l)
      (after.flatMap escapeChar ++ rest)
    simpa using this
  cases before with
  | nil =>
    obtain ⟨rfl, -⟩ := List.cons_eq_cons.1 hsplit
    exact ⟨c, _, hc, hend⟩
  | cons x before =>
    obtain ⟨rfl, -⟩ := List.cons_eq_cons.1 hsplit
    rw [List.flatMap_cons, List.append_assoc, List.append_assoc] at hend
    exact ⟨c, _, hc, hend⟩

/-- What is left of an escaped element that is trimmed at its end: it loses some characters, and of
a space among them the backslash stays. -/
theorem trimEnd_escaped {cs : List Char} (h : ∃ c ∈ cs, isBlank c = false)
    (hlast : ∃ c ∈ cs.getLast?, isLoose c = true ∨ c = ' ') (before : List Char) :
    ∃ kept lost tail, cs = kept ++ lost ∧ kept ≠ [] ∧
      trimEnd isBlank (before ++ cs.flatMap escapeChar) =
        before ++ (kept.flatMap escapeChar ++ tail) ∧
      ((tail = [] ∧ lost ≠ []) ∨
        (tail = ['\\'] ∧ ∃ loose, lost = ' ' :: loose ∧ ∀ c ∈ loose, isLoose c = true)) := by
  induction cs using List.reverseRecOn with
  | nil =>
    obtain ⟨c, hc, -⟩ := hlast
    cases hc
  | append_singleton cs c ih =>
    obtain ⟨x, hx, hlast⟩ := hlast
    obtain rfl : c = x := by simpa using hx
    have hblank : isBlank c = true := by
      rcases hlast with hc | rfl
      · exact (Bool.and_eq_true_iff.1 hc).1
      · decide
    obtain ⟨d, hd, hsolid⟩ : ∃ d ∈ cs, isBlank d = false := by
      obtain ⟨d, hd, hsolid⟩ := h
      rcases List.mem_append.1 hd with hd | hd
      · exact ⟨d, hd, hsolid⟩
      · rw [List.mem_singleton.1 hd, hblank] at hsolid
        cases hsolid
    have hne : cs ≠ [] := List.ne_nil_of_mem hd
    rw [List.flatMap_append, List.flatMap_singleton]
    rcases hlast with hc | rfl
    · rw [escapeChar_of_isLoose hc, ← List.append_assoc, trimEnd_concat hblank]
      by_cases hmore : ∃ e ∈ cs.getLast?, isLoose e = true ∨ e = ' '
      · obtain ⟨kept, lost, tail, rfl, hkept, htrim, htail⟩ := ih ⟨d, hd, hsolid⟩ hmore
        refine ⟨kept, lost ++ [c], tail, List.append_assoc .., hkept, htrim, ?_⟩
        rcases htail with ⟨rfl, -⟩ | ⟨rfl, loose, rfl, hloose⟩
        · exact .inl ⟨rfl, by simp⟩
        · refine .inr ⟨rfl, loose ++ [c], rfl, fun e he => ?_⟩
          rcases List.mem_append.1 he with he | he
          · exact hloose e he
          · rw [List.mem_singleton.1 he, hc]
      · refine ⟨cs, [c], [], rfl, hne, ?_, .inl ⟨rfl, List.cons_ne_nil _ _⟩⟩
        rw [List.append_nil]
        refine trimEnd_of_last hne (fun e he => ?_) before
        simpa using fun hloose => hmore ⟨e, he, hloose⟩
    · refine ⟨cs, [' '], ['\\'], rfl, hne, ?_, .inr ⟨rfl, [], rfl, fun e he => by cases he⟩⟩
      have hspace : escapeChar ' ' = ['\\'] ++ [' '] := rfl
      have hbackslash : isBlank '\\' = false := by decide
      rw [hspace, ← List.append_assoc, ← List.append_assoc, trimEnd_concat hblank,
        trimEnd_append_cons hbackslash, List.append_assoc]
      rfl

/-! ## Lists -/

theorem spaced_eq_formatChars {es : List (List Char)} (hne : es ≠ []) :
    spaced es = formatChars es ++ [' '] := by
  cases es using List.reverseRecOn with
  | nil => exact absurd rfl hne
  | append_singleton es e => simp [formatChars_concat, spaced]

theorem trimStart_formatChars {es : List (List Char)}
    (h : es.head?.all (!losesStart ·) = true) :
    trimStart isBlank (formatChars es) = formatChars es := by
  cases es with
  | nil => rfl
  | cons e es =>
    rw [formatChars_cons, trimStart_quoteChars (by simpa using h)]

theorem trimBoth_of_seamless {es : List (List Char)} (h : seamless es = true) :
    trimBoth isBlank (formatChars es) = formatChars es := by
  obtain ⟨hstart, hend⟩ := Bool.and_eq_true_iff.1 h
  rw [trimBoth, trimStart_formatChars hstart]
  cases es using List.reverseRecOn with
  | nil => rfl
  | append_singleton es e =>
    rw [formatChars_concat, trimEnd_quoteChars (by simpa using hend)]

/-- A text that begins with a brace or with a character that is not loose. -/
def Begins (cs : List Char) : Prop :=
  (∃ rest, cs = '{' :: rest) ∨ ∃ c rest, isLoose c = false ∧ cs = escapeChar c ++ rest

theorem begins_trimmed {es : List (List Char)} (hne : es ≠ []) :
    Begins (trimBoth isBlank (formatChars es)) := by
  obtain ⟨e, es, rfl⟩ := List.exists_cons_of_ne_nil hne
  rw [formatChars_cons]
  rcases quoteChars_forms e with ⟨-, hq⟩ | ⟨hq, hsolid, -⟩
  · have hbrace : isBlank '{' = false := by decide
    refine .inl ⟨trimEnd isBlank (e ++ ['}'] ++ following es), ?_⟩
    rw [hq, List.cons_append, trimBoth, trimStart_cons hbrace]
    exact trimEnd_append_cons hbrace [] _
  · rw [hq]
    exact .inr (trimBoth_escaped hsolid _)

namespace Begins

variable {cs : List Char}

theorem ne_nil (h : Begins cs) : cs ≠ [] := by
  rcases h with ⟨rest, rfl⟩ | ⟨c, rest, hc, rfl⟩
  · exact List.cons_ne_nil _ _
  · obtain ⟨d, r, he, -⟩ := escapeChar_head hc
    rw [he]
    exact List.cons_ne_nil _ _

theorem append (h : Begins cs) (more : List Char) : Begins (cs ++ more) := by
  rcases h with ⟨rest, rfl⟩ | ⟨c, rest, hc, rfl⟩
  · exact .inl ⟨rest ++ more, rfl⟩
  · exact .inr ⟨c, rest ++ more, hc, List.append_assoc ..⟩

theorem blanks_eq (h : Begins cs) : Lexeme.blanks true cs = ([], cs) := by
  rcases h with ⟨rest, rfl⟩ | ⟨c, rest, -, rfl⟩
  · simp [Lexeme.blanks, Lexeme.isSpace]
  · have hescaped := blanks_escaped true (List.cons_ne_nil c []) rest
    rwa [List.flatMap_singleton] at hescaped

/-- Literal text that is read on here goes on with a character that is not loose. -/
theorem literalRun_text (h : Begins cs) :
    ∃ c more, isLoose c = false ∧
      (Lexeme.literalRun Scanner.endsListLiteral false cs).text = c :: more := by
  rcases h with ⟨rest, rfl⟩ | ⟨c, rest, hc, rfl⟩
  · rw [Lexeme.literalRun_cons (by decide) rfl]
    exact ⟨'{', _, by decide, rfl⟩
  · rw [Lexeme.literalRun_escapeChar endsListLiteral_of_bare]
    exact ⟨c, _, hc, rfl⟩

end Begins

end ListText

end CommandScript
