import CommandScript.Proofs.Script.Blanks

/-!
# Words are local

How a word of a script is read depends on its own characters and on little of what follows: on the
next character, or on the next two where these are a joint of lines or the double colon of a name
(`Lexeme.glimpse`). With anything behind it that looks the same, and also with nothing behind it, a
word is read as it was (`Scanner.commandLexeme_replace`). The same holds of a row of words
(`Scanner.ReadsTo.replace`).
-/

namespace CommandScript

namespace Lexeme

/-! ## What a reader sees of the text after a word -/

/-- Whether two characters belong together: a joint of lines, or the double colon of a name. -/
def paired (c d : Char) : Bool := c == '\\' && d == '\n' || c == ':' && d == ':'

/-- The next character, or the next two where they belong together. -/
def glimpse : List Char → List Char
  | [] => []
  | [c] => [c]
  | c :: d :: _ => if paired c d then [c, d] else [c]

/-- The text `new` can stand behind a word instead of `old`: it is empty or looks the same. -/
def Replaces (new old : List Char) : Prop := new = [] ∨ glimpse new = glimpse old

theorem head?_glimpse (cs : List Char) : (glimpse cs).head? = cs.head? := by
  unfold glimpse
  split
  · rfl
  · rfl
  · split <;> rfl

theorem glimpse_cons {c : Char} (hjoint : c ≠ '\\') (hcolon : c ≠ ':') (cs : List Char) :
    glimpse (c :: cs) = [c] := by
  cases cs <;> simp [glimpse, paired, hjoint, hcolon]

theorem eq_of_glimpse {cs : List Char} {c d : Char} (h : glimpse cs = [c, d]) :
    ∃ ds, cs = c :: d :: ds := by
  unfold glimpse at h
  split at h
  · cases h
  · cases h
  · split at h <;> cases h
    exact ⟨_, rfl⟩

theorem head?_eq_of_glimpse {new old : List Char} (h : glimpse new = glimpse old) :
    new.head? = old.head? := by
  rw [← head?_glimpse, h, head?_glimpse]

namespace Replaces

variable {new old : List Char}

theorem eq_nil (h : Replaces new []) : new = [] := by
  rcases h with h | h
  · exact h
  · simpa using head?_eq_of_glimpse h

theorem exists_cons {c : Char} {cs : List Char} (h : Replaces (c :: cs) old) :
    ∃ ds, old = c :: ds := by
  have hhead := head?_eq_of_glimpse (h.resolve_left (List.cons_ne_nil c cs))
  exact List.head?_eq_some_iff.1 hhead.symm

theorem eq_nil_or_cons {c : Char} {cs : List Char} (h : Replaces new (c :: cs)) :
    new = [] ∨ ∃ ds, new = c :: ds := by
  rcases new with _ | ⟨d, ds⟩
  · exact .inl rfl
  · obtain ⟨cs', heq⟩ := h.exists_cons
    cases heq
    exact .inr ⟨ds, rfl⟩

/-- What stands at the start is what stood there before, or nothing. -/
theorem cons_or_nil (h : Replaces new old) {taken : List Char} {c : Char} {cs : List Char}
    (hcs : taken ++ old = c :: cs) : taken ++ new = [] ∨ ∃ ds, taken ++ new = c :: ds := by
  rcases taken with _ | ⟨a, taken⟩
  · subst hcs
    exact h.eq_nil_or_cons
  · cases hcs
    exact .inr ⟨taken ++ new, rfl⟩

/-- Two characters that stand at the start stood there before. -/
theorem exists_cons_cons (h : Replaces new old) {taken tail : List Char} (hne : taken ≠ [])
    {c d : Char} (heq : taken ++ new = c :: d :: tail) :
    ∃ tail', taken ++ old = c :: d :: tail' := by
  rcases taken with _ | ⟨a, _ | ⟨b, taken⟩⟩
  · exact absurd rfl hne
  · obtain ⟨rfl, rfl⟩ := List.cons.inj heq
    obtain ⟨ds, rfl⟩ := h.exists_cons
    exact ⟨ds, rfl⟩
  · cases heq
    exact ⟨taken ++ old, rfl⟩

end Replaces

/-! ## Words that have an end of their own -/

/-- The lexeme with other text behind it. -/
def before (new : List Char) (lex : Lexeme) : Lexeme := { lex with rest := new }

@[simp] theorem kind_before (new : List Char) (lex : Lexeme) : (lex.before new).kind = lex.kind :=
  rfl

@[simp] theorem rest_before (new : List Char) (lex : Lexeme) : (lex.before new).rest = new := rfl

@[simp] theorem word_before (new : List Char) (lex : Lexeme) : (lex.before new).word = lex.word :=
  rfl

/-- What was left open takes all and leaves nothing to replace. -/
theorem unterminated_replace {reader : List Char → Lexeme} {cs new : List Char} {message : String}
    (hopen : reader cs = unterminated cs message) (h : Replaces new (reader cs).rest) :
    reader ((reader cs).taken ++ new) = (reader cs).before new := by
  rw [hopen] at h
  obtain rfl := h.eq_nil
  rw [List.append_nil, hopen, show (unterminated cs message).taken = cs from rfl, hopen]
  rfl

theorem delimited_replace {kind : WordKind} {opening closing : Char} {missing : String}
    {cs new : List Char}
    (h : Replaces new (delimited kind opening closing missing (opening :: cs)).rest) :
    delimited kind opening closing missing
        ((delimited kind opening closing missing (opening :: cs)).taken ++ new) =
      (delimited kind opening closing missing (opening :: cs)).before new := by
  rcases hin : enclosed opening closing 0 cs with _ | ⟨inner, rest⟩
  · have hopen : delimited kind opening closing missing (opening :: cs) =
        unterminated (opening :: cs) missing := by
      simp only [delimited, List.tail_cons, hin]
    exact unterminated_replace hopen h
  · simp [delimited, hin, enclosed_replace hin new, before]

theorem quote_replace {cs new : List Char} (h : Replaces new (quote ('"' :: cs)).rest) :
    quote ((quote ('"' :: cs)).taken ++ new) = (quote ('"' :: cs)).before new := by
  rcases hin : quoted 0 cs with missing | ⟨inner, rest⟩
  · have hopen : quote ('"' :: cs) = unterminated ('"' :: cs) missing := by
      simp only [quote, List.tail_cons, hin]
    exact unterminated_replace hopen h
  · simp [quote, hin, quoted_replace hin new, before]

/-! ## Words that end where others begin -/

theorem startsBlank_cons {c : Char} {cs : List Char} (h : ∀ ds, c = '\\' → cs ≠ '\n' :: ds) :
    Scanner.startsBlank (c :: cs) = isSpace c := by
  unfold Scanner.startsBlank
  split
  · rename_i heq
    cases heq
    exact absurd rfl (h _ rfl)
  · rename_i heq
    cases heq
    rfl
  · rename_i heq
    cases heq

theorem startsBlank_glimpse (cs : List Char) :
    Scanner.startsBlank (glimpse cs) = Scanner.startsBlank cs := by
  rcases cs with _ | ⟨c, _ | ⟨d, cs⟩⟩
  · rfl
  · rfl
  by_cases hpair : paired c d
  · have hcases : c = '\\' ∧ d = '\n' ∨ c = ':' ∧ d = ':' := by simpa [paired] using hpair
    rcases hcases with ⟨rfl, rfl⟩ | ⟨rfl, rfl⟩ <;> rfl
  · rw [glimpse, if_neg hpair, startsBlank_cons (fun ds _ heq => by cases heq), startsBlank_cons]
    rintro ds rfl heq
    cases heq
    exact hpair rfl

theorem startsBlank_of_replaces {new old : List Char} (h : Replaces new old)
    (hold : Scanner.startsBlank old = false) : Scanner.startsBlank new = false := by
  rcases h with rfl | h
  · rfl
  · rw [← startsBlank_glimpse, h, startsBlank_glimpse, hold]

theorem blanks_replace {cs new : List Char} (h : Replaces new (blanks false cs).2) :
    blanks false ((blanks false cs).1 ++ new) = ((blanks false cs).1, new) := by
  fun_induction blanks false cs with
  | case1 cs ih => simp [blanks, ih h]
  | case2 c cs _ hblank ih =>
    have hspace : isSpace c = true := by simpa using hblank
    have ih := ih h
    show blanks false (c :: ((blanks false cs).1 ++ new)) = _
    rw [Scanner.blanks_space hspace, ih]
    rfl
  | case3 c cs hjoin hblank =>
    refine Scanner.blanks_of_not_startsBlank (startsBlank_of_replaces h ?_)
    rw [startsBlank_cons fun ds hc heq => hjoin ds hc heq]
    simpa using hblank
  | case4 =>
    rw [h.eq_nil]
    rfl

theorem commentText_replace {cs new : List Char} (h : Replaces new (commentText cs).2) :
    commentText ((commentText cs).1 ++ new) = ((commentText cs).1, new) := by
  fun_induction commentText cs with
  | case1 | case2 =>
    rw [h.eq_nil]
    rfl
  | case3 c cs ih => simp [commentText, ih h]
  | case4 cs =>
    rcases h.eq_nil_or_cons with rfl | ⟨ds, rfl⟩
    · rfl
    · simp [commentText]
  | case5 c cs hlast hesc hc ih => simp [commentText, ne_backslash hlast hesc, hc, ih h]

theorem nameRun_replace {cs new : List Char} (h : Replaces new (nameRun cs).2) :
    nameRun ((nameRun cs).1 ++ new) = ((nameRun cs).1, new) := by
  fun_induction nameRun cs with
  | case1 cs ih => simp [nameRun, ih h]
  | case2 c cs _ hname ih =>
    have hc : c ≠ ':' := by
      rintro rfl
      exact absurd hname (by decide)
    simp [nameRun, hc, hname, ih h]
  | case3 c cs hcolons hstop =>
    rcases h.eq_nil_or_cons with rfl | ⟨ds, rfl⟩
    · rfl
    · show nameRun (c :: ds) = _
      rw [nameRun]
      · rw [if_neg hstop]
      · rintro rest rfl rfl
        obtain ⟨rest, heq⟩ := eq_of_glimpse (h.resolve_left (List.cons_ne_nil _ _)).symm
        cases heq
        exact hcolons _ rfl rfl
  | case4 =>
    rw [h.eq_nil]
    rfl

theorem nameRun_element {cs name inner : List Char} (h : nameRun cs = (name, '(' :: inner))
    (new : List Char) : nameRun (name ++ '(' :: new) = (name, '(' :: new) := by
  have hlooks : Replaces ('(' :: new) (nameRun cs).2 := by
    rw [h]
    exact .inr (by rw [glimpse_cons (by decide) (by decide), glimpse_cons (by decide) (by decide)])
  have hrun := nameRun_replace hlooks
  rwa [h] at hrun

theorem literalRun_replace {stop : Char → Bool} (hspace : stop ' ' = true) {cs new : List Char}
    (h : Replaces new (literalRun stop false cs).rest) :
    literalRun stop false ((literalRun stop false cs).taken ++ new) =
      { literalRun stop false cs with rest := new } := by
  generalize hjoining : false = joining at h ⊢
  fun_induction literalRun stop joining cs with
  | case1 | case2 =>
    rw [h.eq_nil]
    rfl
  | case3 joining cs _ =>
    rcases h with rfl | h
    · rfl
    · obtain ⟨ds, rfl⟩ := eq_of_glimpse h
      simp [literalRun, hspace]
  | case4 joining cs hstop => exact absurd hspace hstop
  | case5 joining c cs hc e he ih => simp [literalRun, hc, he, ih rfl h, Run.after]
  | case6 joining c cs hc he ih =>
    -- A backslash that escapes nothing stands for itself, whether `c` follows it or nothing does.
    have ih := ih rfl h
    have hsplit := literalRun_append stop false (c :: cs)
    simp only [Run.after, List.cons_append, List.nil_append] at h ⊢
    generalize literalRun stop false (c :: cs) = run at h hsplit ih ⊢
    rcases h.cons_or_nil hsplit with hnil | ⟨more, hmore⟩
    · rw [hnil] at ih ⊢
      obtain ⟨htaken, htext, hnew⟩ := Run.mk.inj (show Run.mk [] [] [] = _ from ih)
      rw [← htaken, ← htext, ← hnew]
      rfl
    · rw [hmore] at ih ⊢
      simp [literalRun, hc, he, ih, Run.after]
  | case7 joining c cs _ _ hjoin => simp [← hjoining] at hjoin
  | case8 joining c cs hlast hesc hjoin hstop =>
    subst hjoining
    rcases h.eq_nil_or_cons with rfl | ⟨ds, rfl⟩
    · rfl
    · simp [literalRun, ne_backslash hlast hesc, hstop]
  | case9 joining c cs hlast hesc hjoin hstop ih =>
    subst hjoining
    simp [literalRun, ne_backslash hlast hesc, hstop, ih rfl h, Run.after]

/-- A name that does not begin with a brace does not, whatever follows it. -/
theorem name_ne_brace {cs name rest : List Char} {c : Char} (hbrace : ∀ inner, cs ≠ '{' :: inner)
    (hrun : nameRun cs = (c :: name, rest)) (tail : List Char) :
    ∀ inner, c :: name ++ tail ≠ '{' :: inner := by
  rintro inner heq
  have hsplit := nameRun_append cs
  rw [hrun, (List.cons.inj heq).1] at hsplit
  exact hbrace _ hsplit.symm

theorem variableRef_replace {cs new : List Char} (h : Replaces new (variableRef ('$' :: cs)).rest) :
    variableRef ((variableRef ('$' :: cs)).taken ++ new) =
      (variableRef ('$' :: cs)).before new := by
  have hsplit := nameRun_append cs
  have hreplace := fun new (h : Replaces new (nameRun cs).2) => nameRun_replace h
  have href := reference cs
  generalize variableRef ('$' :: cs) = lex at h href ⊢
  cases href with
  | braced htext hname => exact (Reference.braced (by simp) hname).eq
  | openBrace htext hopen =>
    rw [h.eq_nil, unterminated, List.append_nil]
    exact (Reference.openBrace htext hopen).eq
  | openIndex hbrace hrun hindex =>
    rw [h.eq_nil, unterminated, List.append_nil]
    exact (Reference.openIndex hbrace hrun hindex).eq
  | @alone rest hbrace hrun =>
    rw [hrun] at hsplit hreplace
    obtain rfl : rest = cs := hsplit
    refine (Reference.alone (fun inner heq => ?_) (hreplace new h)).eq
    subst heq
    obtain ⟨ds, hds⟩ := h.exists_cons
    exact hbrace ds hds
  | plain hbrace hrun hrest =>
    rw [hrun] at hreplace
    refine (Reference.plain (name_ne_brace hbrace hrun new) (hreplace new h) fun inner heq => ?_).eq
    subst heq
    obtain ⟨ds, hds⟩ := h.exists_cons
    exact hrest ds hds
  | @element c name inner index rest hbrace hrun hindex =>
    have hread := (Reference.element (name_ne_brace hbrace hrun _)
      (nameRun_element hrun (index ++ ')' :: new)) (enclosed_replace hindex new)).eq
    simpa [before] using hread

theorem glimpse_append {taken new old : List Char} (hne : taken ≠ [])
    (h : glimpse new = glimpse old) : glimpse (taken ++ new) = glimpse (taken ++ old) := by
  rcases taken with _ | ⟨c, _ | ⟨d, taken⟩⟩
  · exact absurd rfl hne
  · rcases new with _ | ⟨d, new⟩
    · rw [Replaces.eq_nil (.inr h.symm)]
    · obtain ⟨ds, rfl⟩ := Replaces.exists_cons (.inr h)
      rfl
  · rfl

/-- More text at the end is out of sight, unless a single character stands before it that could
belong to it. -/
theorem glimpse_append_right {cs : List Char} (hne : cs ≠ []) (hjoint : cs ≠ ['\\'])
    (hcolon : cs ≠ [':']) (more : List Char) : glimpse (cs ++ more) = glimpse cs := by
  rcases cs with _ | ⟨c, _ | ⟨d, cs⟩⟩
  · exact absurd rfl hne
  · refine glimpse_cons ?_ ?_ more
    · rintro rfl
      exact hjoint rfl
    · rintro rfl
      exact hcolon rfl
  · rfl

end Lexeme

namespace Scanner

open Lexeme

variable {start stop : Bool} {c : Char} {cs new rest : List Char}

/-! ## One word -/

theorem startsBlank_taken (h : Replaces new (commandLexeme start (c :: cs)).rest) :
    startsBlank ((commandLexeme start (c :: cs)).taken ++ new) = startsBlank (c :: cs) := by
  have htiles := tiles_commandLexeme start c cs
  cases hblank : startsBlank (c :: cs) with
  | true =>
    rw [commandLexeme_of_startsBlank hblank]
    show startsBlank ((blanks false (c :: cs)).1 ++ new) = true
    unfold startsBlank at hblank
    split at hblank
    · rename_i heq
      cases heq
      rfl
    · rename_i heq
      cases heq
      rw [blanks_space hblank]
      exact startsBlank_space hblank _
    · cases hblank
  | false =>
    rw [Bool.eq_false_iff]
    intro htrue
    unfold startsBlank at htrue
    split at htrue
    · rename_i heq
      obtain ⟨ds, hds⟩ := h.exists_cons_cons htiles.taken_ne_nil heq
      rw [htiles.append] at hds
      rw [hds] at hblank
      cases hblank
    · rename_i heq
      rcases h.cons_or_nil htiles.append with hnil | ⟨ds, hds⟩
      · rw [hnil] at heq
        cases heq
      · rw [hds] at heq
        cases heq
        rw [startsBlank_space htrue] at hblank
        cases hblank
    · cases htrue

/-- A word is read again from its own characters, whatever stands behind it instead, if that looks
the same or is nothing. -/
theorem commandLexeme_replace (h : Replaces new (commandLexeme start cs).rest) :
    commandLexeme start ((commandLexeme start cs).taken ++ new) =
      (commandLexeme start cs).before new := by
  rcases cs with _ | ⟨c, cs⟩
  · rw [h.eq_nil]
    rfl
  have hblank := startsBlank_taken h
  have htiles := tiles_commandLexeme start c cs
  obtain ⟨more, hmore⟩ : ∃ more, (commandLexeme start (c :: cs)).taken ++ new = c :: more :=
    (h.cons_or_nil htiles.append).resolve_left fun hnil =>
      htiles.taken_ne_nil (List.append_eq_nil_iff.1 hnil).1
  obtain ⟨reader, hreader, hread⟩ := exists_commandReader start c (startsBlank (c :: cs))
  rw [hmore] at hblank
  rw [hmore, hread more hblank, ← hmore]
  rw [hread cs rfl] at h ⊢
  cases hreader with
  | separator => rfl
  | blank =>
    have h : Replaces new (blanks false (c :: cs)).2 := h
    simp only [Lexeme.blank, verbatim, blanks_replace h, before]
  | comment hc =>
    subst hc
    have h : Replaces new (commentText cs).2 := h
    simp only [Lexeme.comment, List.tail_cons, List.cons_append, commentText_replace h, before]
  | block hc | script hc =>
    subst hc
    exact delimited_replace h
  | quote hc =>
    subst hc
    exact quote_replace h
  | reference hc =>
    subst hc
    exact variableRef_replace h
  | literal =>
    have h : Replaces new (literalRun endsCommandLiteral false (c :: cs)).rest := h
    have hspace : endsCommandLiteral ' ' = true := rfl
    simp only [Lexeme.literal, literalRun_replace hspace h, before]

/-- The words of a text after which `new` stands instead of `old`, from the first word on. -/
theorem reading_replace (h : Replaces new (commandLexeme start (c :: cs)).rest) :
    reading start ((commandLexeme start (c :: cs)).taken ++ new) =
      (commandLexeme start (c :: cs)).word ::
        reading (startAfter start (commandLexeme start (c :: cs)).kind) new := by
  have hread := commandLexeme_replace h
  have hne := (tiles_commandLexeme start c cs).taken_ne_nil
  obtain ⟨d, ds, hds⟩ := List.exists_cons_of_ne_nil (List.append_ne_nil_of_left_ne_nil hne new)
  rw [hds] at hread ⊢
  rw [reading_cons, hread, word_before, kind_before, rest_before]

/-- A word shows at its start all that the reader before it could see. -/
theorem glimpse_taken (start : Bool) (c : Char) (cs : List Char) :
    glimpse (commandLexeme start (c :: cs)).taken = glimpse (c :: cs) := by
  have htiles := tiles_commandLexeme start c cs
  have hsplit := htiles.append
  rcases htaken : (commandLexeme start (c :: cs)).taken with _ | ⟨a, _ | ⟨b, taken⟩⟩
  · exact absurd htaken htiles.taken_ne_nil
  · -- One character alone does not belong to the next.
    rw [htaken] at hsplit
    obtain ⟨rfl, -⟩ := List.cons.inj hsplit
    rcases cs with _ | ⟨d, cs⟩
    · rfl
    · by_cases hpair : paired a d
      · have hcases : a = '\\' ∧ d = '\n' ∨ a = ':' ∧ d = ':' := by simpa [paired] using hpair
        rcases hcases with ⟨rfl, rfl⟩ | ⟨rfl, rfl⟩ <;> cases htaken
      · rw [glimpse, glimpse, if_neg hpair]
  · rw [htaken] at hsplit
    rw [← hsplit]
    rfl

theorem glimpse_taken_append (h : Replaces new (commandLexeme start (c :: cs)).rest) :
    glimpse ((commandLexeme start (c :: cs)).taken ++ new) = glimpse (c :: cs) := by
  have htiles := tiles_commandLexeme start c cs
  rcases h with rfl | h
  · rw [List.append_nil, glimpse_taken]
  · rw [glimpse_append htiles.taken_ne_nil h, htiles.append]

/-! ## Rows of words -/

/-- Reading the words `ws` from `cs` comes to `rest`. A command can begin at `cs` if `start` is set,
and at `rest` if `stop` is. -/
inductive ReadsTo : Bool → List Char → List Word → Bool → List Char → Prop where
  | done (start : Bool) (cs : List Char) : ReadsTo start cs [] start cs
  | cons {start stop : Bool} {cs rest : List Char} {ws : List Word} {lex : Lexeme} (hne : cs ≠ [])
    (hlex : commandLexeme start cs = lex)
    (h : ReadsTo (startAfter start lex.kind) lex.rest ws stop rest) :
    ReadsTo start cs (lex.word :: ws) stop rest

/-- The characters that words were read from. -/
def sources (ws : List Word) : List Char := ws.flatMap fun w => w.source.toList

theorem sources_cons_word (lex : Lexeme) (ws : List Word) :
    sources (lex.word :: ws) = lex.taken ++ sources ws := by
  simp [sources, Lexeme.word]

namespace ReadsTo

variable {ws : List Word}

theorem reading_eq (h : ReadsTo start cs ws stop rest) :
    reading start cs = ws ++ reading stop rest := by
  induction h with
  | done => rfl
  | @cons start stop cs rest ws lex hne hlex _ ih =>
    obtain ⟨c, cs, rfl⟩ := List.exists_cons_of_ne_nil hne
    rw [reading_cons, hlex, ih]
    rfl

theorem concat (h : ReadsTo start cs ws stop rest) (hne : rest ≠ []) :
    ReadsTo start cs (ws ++ [(commandLexeme stop rest).word])
      (startAfter stop (commandLexeme stop rest).kind) (commandLexeme stop rest).rest := by
  induction h with
  | done start cs => exact .cons hne rfl (.done _ _)
  | cons hne' hlex _ ih => exact .cons hne' hlex (ih hne)

/-- The words themselves are the only thing that the reader before them could see. -/
theorem replaces (h : ReadsTo start cs ws stop rest) (hnew : Replaces new rest) :
    Replaces (sources ws ++ new) cs := by
  induction h with
  | done => exact hnew
  | @cons start stop cs rest ws lex hne hlex _ ih =>
    obtain ⟨c, cs, rfl⟩ := List.exists_cons_of_ne_nil hne
    subst hlex
    rw [sources_cons_word, List.append_assoc]
    exact .inr (glimpse_taken_append (ih hnew))

/-- A row of words is read again from its own characters. -/
theorem replace (h : ReadsTo start cs ws stop rest) (hnew : Replaces new rest) :
    ReadsTo start (sources ws ++ new) ws stop new := by
  induction h with
  | done start => exact .done start new
  | @cons start stop cs rest ws lex hne hlex h ih =>
    subst hlex
    have hread := commandLexeme_replace (h.replaces hnew)
    rw [sources_cons_word, List.append_assoc]
    obtain ⟨c, cs, rfl⟩ := List.exists_cons_of_ne_nil hne
    have hne : (commandLexeme start (c :: cs)).taken ++ (sources ws ++ new) ≠ [] :=
      List.append_ne_nil_of_left_ne_nil (tiles_commandLexeme start c cs).taken_ne_nil _
    have hcons := cons hne hread (ih hnew)
    rwa [word_before] at hcons

end ReadsTo

end Scanner

end CommandScript
