import CommandScript.Proofs.ListText.RoundTrip
import CommandScript.Proofs.Script.Origins
import CommandScript.Proofs.Word.Scanner

/-!
# Lists as scripts

The text of a list that is not empty, read as a script, is one command with the elements as its
words: no element, however it is quoted, holds anything that a script would substitute or end a
command at. One thing is left open. A first element that starts with `#` is kept from being a
comment by braces, and where it cannot be braced nothing keeps it: the list is then a comment, as
far as the first line goes.

* `commandLexeme_quoteChars`: a quoted element is one word of a script.
* `stream_elements`: the elements after the first are added to the command, by induction on them.
* `list_text_is_command`: what is built from the text of a list.
-/

namespace CommandScript

namespace ListText

/-! ## Words -/

/-- At the start of a script this element is a comment: it begins like one and cannot be braced. -/
def opensComment (cs : List Char) : Bool := cs.head? == some '#' && !canBrace cs

theorem quoteChars_of_number_sign (cs : List Char) :
    quoteChars ('#' :: cs) =
      if canBrace ('#' :: cs) then '{' :: ('#' :: cs ++ ['}']) else '#' :: cs.flatMap escapeChar :=
  rfl

theorem endsCommandLiteral_of_bare (c : Char) (h : escapeChar c = [c]) :
    Scanner.endsCommandLiteral c = false := by
  rcases Lexeme.escapeChar_cases c with ⟨d, he, -⟩ | ⟨-, hb, hs⟩
  · rw [he] at h; cases h
  · unfold Scanner.endsCommandLiteral
    split
    all_goals first | rfl | exact absurd hb (by decide) | exact absurd hs (by decide)

/-- Escaped text is not read as anything but a literal, if it is no comment. -/
theorem commandLexeme_escaped {c : Char} {atStart : Bool} (h : atStart = true → c ≠ '#')
    (cs rest : List Char) :
    Scanner.commandLexeme atStart ((c :: cs).flatMap escapeChar ++ rest) =
      Lexeme.literal Scanner.endsCommandLiteral ((c :: cs).flatMap escapeChar ++ rest) := by
  rw [List.flatMap_cons, List.append_assoc]
  generalize cs.flatMap escapeChar ++ rest = more
  rcases Lexeme.escapeChar_cases c with ⟨d, he, hd, -⟩ | ⟨he, hb, hs⟩
  · rw [he]
    simp [Scanner.commandLexeme, Scanner.startsBlank, Lexeme.isSpace, hd]
  · have hne : ∀ x, isSpecial x = true → c ≠ x := by
      rintro x hx rfl; rw [hs] at hx; cases hx
    have hcomment : ¬(c = '#' ∧ atStart = true) := fun hboth => h hboth.2 hboth.1
    rw [he]
    simp only [Lexeme.isSpaceOrNewline, Bool.or_eq_false_iff, beq_eq_false_iff_ne] at hb
    simp [Scanner.commandLexeme, Scanner.startsBlank, hb, hcomment, hne '\\' rfl, hne '{' rfl,
      hne '"' rfl, hne '[' rfl, hne '$' rfl, hne ';' rfl]

/-- A script reads a quoted element as one word. -/
theorem commandLexeme_quoteChars {cs : List Char} {atStart : Bool}
    (hfirst : atStart = true → opensComment cs = false) {rest : List Char}
    (hrest : rest = [] ∨ ∃ r, rest = ' ' :: r) :
    ∃ kind, (kind = .block ∨ kind = .literal) ∧
      Scanner.commandLexeme atStart (quoteChars cs ++ rest) = ⟨kind, quoteChars cs, cs, rest⟩ := by
  rcases quoteChars_cases cs with ⟨hb, h⟩ | ⟨hne, h⟩
  · refine ⟨.block, .inl rfl, ?_⟩
    rw [h]
    simp [Scanner.commandLexeme, Scanner.startsBlank, Lexeme.isSpace, Lexeme.block,
      Lexeme.delimited, Lexeme.enclosed_of_canBraceFrom rest hb]
  · refine ⟨.literal, .inr rfl, ?_⟩
    obtain ⟨c, cs, rfl⟩ := List.exists_cons_of_ne_nil hne
    have hstart : atStart = true → c ≠ '#' := by
      rintro hatStart rfl
      -- An element that begins with `#` and is not a comment stands in braces.
      have hbrace : canBrace ('#' :: cs) = true := by simpa [opensComment] using hfirst hatStart
      rw [quoteChars_of_number_sign, if_pos hbrace] at h
      cases h
    rw [h, commandLexeme_escaped hstart, Lexeme.literal,
      Lexeme.literalRun_escaped endsCommandLiteral_of_bare, Lexeme.literalRun_ended rfl hrest]
    simp [Lexeme.Run.after]

end ListText

namespace Scanner

/-- The scanner after it has read a lexeme of a script. -/
def pastCommand (s : Scanner) (lex : Lexeme) : Scanner :=
  { s.past lex.taken lex.rest with atCommandStart := s.commandStartAfter .command lex.kind }

theorem next_command {s : Scanner} {lex : Lexeme}
    (h : commandLexeme s.atCommandStart s.rest = lex) :
    s.next .command = (s.wordOf lex, s.pastCommand lex) := by
  subst h; rfl

theorem wordsIn_command {s : Scanner} {lex : Lexeme}
    (h : commandLexeme s.atCommandStart s.rest = lex) (hk : lex.kind ≠ .eof) :
    s.wordsIn .command = s.wordOf lex :: (s.pastCommand lex).wordsIn .command := by
  have hnext := next_command h
  have hkind : (s.next .command).1.kind ≠ .eof := by rw [hnext]; exact hk
  rw [wordsIn_of_ne_eof hkind, hnext]

theorem wordsIn_command_nil {s : Scanner} (h : s.rest = []) :
    s.wordsIn .command = [s.wordOf (.verbatim .eof [] [])] := by
  have hlex : commandLexeme s.atCommandStart s.rest = .verbatim .eof [] [] := by rw [h]; rfl
  have hnext := next_command hlex
  have hkind : (s.next .command).1.kind = .eof := by rw [hnext]; rfl
  rw [wordsIn_of_eof hkind, hnext]

end Scanner

/-! ## Commands -/

namespace ListText

open Scanner

variable {σ : Type} (sub : Substitutor σ)

theorem toList_format_cons (first : String) (others : List String) :
    (format (first :: others)).toList =
      quoteChars first.toList ++ following (others.map String.toList) := by
  rw [toList_format, List.map_cons, formatChars_cons]

/-- An element is added to a command as it is, and nothing is asked for. -/
theorem stream_element {e rest : List Char} {s : Scanner} (hs : s.rest = quoteChars e ++ rest)
    (hfirst : s.atCommandStart = true → opensComment e = false)
    (hrest : rest = [] ∨ ∃ r, rest = ' ' :: r) :
    ∃ w : Word, w.source = String.ofList (quoteChars e) ∧ w.line = s.line ∧
      ∃ s' : Scanner, s'.rest = rest ∧ s'.atCommandStart = false ∧
        ∀ d st, Builder.stream sub d (s.wordsIn .command) st =
          Builder.stream sub (d.push w (.string (String.ofList e))) (s'.wordsIn .command) st := by
  obtain ⟨kind, hkind, hlex⟩ := commandLexeme_quoteChars hfirst hrest
  rw [← hs] at hlex
  refine ⟨s.wordOf ⟨kind, quoteChars e, e, rest⟩, rfl, rfl,
    s.pastCommand ⟨kind, quoteChars e, e, rest⟩, rfl, ?_, fun d st => ?_⟩
  · rcases hkind with rfl | rfl <;> rfl
  · rw [wordsIn_command hlex (by rcases hkind with rfl | rfl <;> exact fun h => by cases h)]
    refine Builder.stream_ok ?_ ?_
    · rcases hkind with rfl | rfl <;> rfl
    · rcases hkind with rfl | rfl <;> rfl

/-- The elements after the first are added to a command that has its first words. -/
theorem stream_elements (es : List (List Char)) {s : Scanner} (hstart : s.atCommandStart = false)
    (hs : s.rest = following es) (words : List Value) (v : Value) (source : String) (line : Nat)
    (st : σ) :
    Builder.stream sub ⟨words, [v], some (source, line), ""⟩ (s.wordsIn .command) st =
      ([.ok ⟨words ++ v :: es.map fun e => .string (String.ofList e),
        source ++ String.ofList (following es), line⟩], st) := by
  induction es generalizing s words v source with
  | nil =>
    rw [wordsIn_command_nil hs, Builder.stream_eof rfl]
    simp [Draft.finish, Draft.closeWord, joinPieces, following]
  | cons e es ih =>
    have hs : s.rest = ' ' :: (quoteChars e ++ following es) := hs
    have hlex : commandLexeme s.atCommandStart s.rest =
        .verbatim .blank [' '] (quoteChars e ++ following es) := by
      rw [hs]
      simp [commandLexeme, startsBlank, Lexeme.isSpace, Lexeme.blank, Lexeme.blanks,
        blanks_quoteChars]
    rw [wordsIn_command hlex (fun h => by cases h), Builder.stream_blank rfl]
    generalize hnext : s.pastCommand (.verbatim .blank [' '] (quoteChars e ++ following es)) = next
    have hrest : next.rest = quoteChars e ++ following es := by rw [← hnext]; rfl
    have hlater : next.atCommandStart = false := by rw [← hnext]; exact hstart
    obtain ⟨w, hsource, -, s', hrest, hstart', hstream⟩ :=
      stream_element sub hrest (fun h => by rw [hlater] at h; cases h) (following_cases es)
    rw [hstream]
    simp only [Draft.space, Draft.closeWord, Draft.push, hsource]
    refine (ih hstart' hrest _ _ _).trans ?_
    simp [joinPieces, following, wordOf, Lexeme.verbatim, String.append_assoc]

/-- A list whose first element is no comment builds one command, and nothing is asked for. -/
theorem all_format (first : String) (others : List String)
    (hfirst : opensComment first.toList = false) (st : σ) :
    Builder.all sub (format (first :: others)) st =
      ([.ok ⟨(first :: others).map .string, format (first :: others), 1⟩], st) := by
  obtain ⟨w, hsource, hline, s', hrest, hstart, hstream⟩ :=
    stream_element sub (s := .ofString (format (first :: others))) (toList_format_cons first others)
      (fun _ => hfirst) (following_cases _)
  have htext : String.ofList (quoteChars first.toList) ++
      String.ofList (following (others.map String.toList)) = format (first :: others) := by
    rw [← String.ofList_append, ← toList_format_cons, String.ofList_toList]
  rw [Builder.all_eq_stream, ← wordsIn_ofString, hstream, Draft.push, hsource, hline]
  refine (stream_elements sub _ hstart hrest [] _ _ _ st).trans ?_
  rw [htext]
  simp [Function.comp_def, Scanner.line, Scanner.ofString]

/-! ## Comments -/

/-- What is built from a list that begins with a comment stands on later lines. -/
theorem all_format_of_opensComment {first : String} (others : List String)
    (hfirst : opensComment first.toList = true) (st : σ) :
    (∀ command, .ok command ∈ (Builder.all sub (format (first :: others)) st).1 →
      1 < command.line) ∧
    ('\n' ∉ (format (first :: others)).toList →
      Builder.all sub (format (first :: others)) st = ([], st)) := by
  obtain ⟨cs, hcs, hbrace⟩ : ∃ cs, first.toList = '#' :: cs ∧ canBrace ('#' :: cs) = false := by
    simp only [opensComment, Bool.and_eq_true, beq_iff_eq, Bool.not_eq_true'] at hfirst
    obtain ⟨cs, hcs⟩ := List.head?_eq_some_iff.1 hfirst.1
    exact ⟨cs, hcs, hcs ▸ hfirst.2⟩
  obtain ⟨more, htext⟩ : ∃ more, (format (first :: others)).toList = '#' :: more := by
    rw [toList_format_cons, hcs, quoteChars_of_number_sign, if_neg (by simp [hbrace])]
    exact ⟨_, rfl⟩
  generalize format (first :: others) = text at *
  let comment : Lexeme := ⟨.comment, '#' :: (Lexeme.commentText more).1,
    (Lexeme.commentText more).1, (Lexeme.commentText more).2⟩
  have hlex : commandLexeme true (ofString text).rest = comment := by
    show commandLexeme true text.toList = _
    rw [htext]
    rfl
  rw [Builder.all_eq_stream, ← wordsIn_ofString, wordsIn_command hlex (fun h => by cases h),
    Builder.stream_comment rfl]
  rcases Lexeme.rest_commentText more with hnil | ⟨r, hnewline⟩
  · rw [wordsIn_command_nil hnil, Builder.stream_eof rfl]
    exact ⟨fun command hmem => absurd hmem List.not_mem_nil, fun _ => rfl⟩
  · have heol : commandLexeme ((ofString text).pastCommand comment).atCommandStart
        ((ofString text).pastCommand comment).rest = .verbatim .eol ['\n'] r := by
      show commandLexeme false (Lexeme.commentText more).2 = _
      rw [hnewline]
      rfl
    rw [wordsIn_command heol (fun h => by cases h), Builder.stream_eol rfl]
    refine ⟨fun command hmem => ?_, fun hline => absurd ?_ hline⟩
    · have hat : At text (comment.taken ++ ['\n'])
          (((ofString text).pastCommand comment).pastCommand (.verbatim .eol ['\n'] r)) := by
        refine ⟨?_, (Place.advance_append _ _ _).symm⟩
        rw [htext, ← Lexeme.commentText_append more, hnewline]
        simp [comment, pastCommand, past, Lexeme.verbatim]
      obtain ⟨before, _, -, hline⟩ :=
        Draft.Ends.stream (.fresh rfl (List.prefix_refl _)) hat hmem
      rw [hline, List.count_append, List.count_append, List.count_singleton_self]
      omega
    · rw [htext, ← Lexeme.commentText_append more, hnewline]
      simp

end ListText

/-- The text of a list that is not empty, built as a script with any substitutor, is one command on
its first line: its words are the texts of the items in their order, its source is all of the text,
and the substitutor is not asked for anything. That is so unless the first item begins with `#` and
cannot be braced. Then the first line is a comment: every command that is built stands on a later
one, and there is none if the text is a single line. -/
theorem list_text_is_command {σ : Type} (sub : Substitutor σ) (first : Value) (others : List Value)
    (s : σ) :
    let text := (Value.list (first :: others)).text
    (ListText.opensComment first.text.toList = false →
      Builder.all sub text s =
        ([.ok { words := (first :: others).map fun v => .string v.text
                source := text
                line := 1 }], s)) ∧
    (ListText.opensComment first.text.toList = true →
      (∀ command, .ok command ∈ (Builder.all sub text s).1 → 1 < command.line) ∧
      ('\n' ∉ text.toList → Builder.all sub text s = ([], s))) := by
  intro text
  have htext : text = ListText.format (first.text :: others.map Value.text) := by
    show (Value.list (first :: others)).text = _
    rw [Value.text, Value.texts_eq_map]
    rfl
  rw [htext]
  refine ⟨fun hfirst => ?_, fun hfirst => ListText.all_format_of_opensComment sub _ hfirst s⟩
  rw [ListText.all_format sub _ _ hfirst]
  simp [Function.comp_def]

/-- A command that begins with `#`, and items that are braced, escaped and left as they are. -/
theorem list_text_is_command_quoted :
    ListText.opensComment "#now".toList = false ∧
    ∀ sub : Substitutor Unit,
      Builder.all sub
          (Value.list [.string "#now", .string "$x\n[y]", .string "\x7b;", .string "#"]).text () =
        ([.ok { words := [.string "#now", .string "$x\n[y]", .string "\x7b;", .string "#"]
                source := "\x7b#now\x7d \x7b$x\n[y]\x7d \\\x7b\\; \x7b#\x7d"
                line := 1 }], ()) := by
  have hfirst : ListText.opensComment "#now".toList = false := rfl
  exact ⟨hfirst, fun sub => (list_text_is_command sub (.string "#now")
    [.string "$x\n[y]", .string "\x7b;", .string "#"] ()).1 hfirst⟩

/-- A list that builds no command at all. -/
theorem list_text_is_comment :
    (Value.list [.string "#\x7b", .string "a"]).text = "#\\\x7b a" ∧
    ∀ sub : Substitutor Unit,
      Builder.all sub (Value.list [.string "#\x7b", .string "a"]).text () = ([], ()) :=
  ⟨rfl, fun _ => rfl⟩

end CommandScript
