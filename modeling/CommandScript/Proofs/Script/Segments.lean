import CommandScript.Proofs.ListText.Trimming
import CommandScript.Proofs.Script.Blanks
import CommandScript.Proofs.Script.SinglePass

/-!
# Scripts without syntax

In a text without backslashes, quotes, braces, brackets, dollars and comments the builder finds what
splitting the text twice finds: at newlines and semicolons into segments, and each segment at blanks
into words (`Builder.plain_script_splits`). The builder goes through the text once; `Drafted` says
what its draft has to do with the part of the segment that was read.
-/

namespace CommandScript

open Lexeme Scanner Text

/-! ## Splitting twice -/

/-- A character with a meaning of its own in scripts, apart from blanks and separators. -/
def isSyntax (c : Char) : Bool :=
  match c with
  | '\\' | '"' | '{' | '[' | '$' | '#' => true
  | _ => false

def isSeparator (c : Char) : Bool := c == '\n' || c == ';'

/-- A part of a text between two separators. -/
structure Segment where
  /-- The text before the segment, with the separator. -/
  before : List Char
  chars : List Char
  deriving DecidableEq

/-- The segments of a text of which `before` and the beginning `current` of a segment were passed
already. -/
def segmentsFrom (before current : List Char) : List Char → List Segment
  | [] => [⟨before, current⟩]
  | c :: cs =>
    if isSeparator c then ⟨before, current⟩ :: segmentsFrom (before ++ current ++ [c]) [] cs
    else segmentsFrom before (current ++ [c]) cs

def segments (cs : List Char) : List Segment := segmentsFrom [] [] cs

/-- The longest runs of characters other than blanks. -/
def runs (cs : List Char) : List (List Char) := (cs.splitOnP isSpace).filter fun run => !run.isEmpty

namespace Segment

def hasWord (seg : Segment) : Bool := seg.chars.any fun c => !isSpace c

/-- The command in a segment. -/
def command (seg : Segment) : Command where
  words := (runs seg.chars).map fun run => .string (String.ofList run)
  source := String.ofList (trimBoth isSpace seg.chars)
  line := 1 + (seg.before ++ seg.chars.takeWhile isSpace).count '\n'

end Segment

theorem segmentsFrom_append {cs : List Char} (h : ∀ c ∈ cs, isSeparator c = false)
    (before current more : List Char) :
    segmentsFrom before current (cs ++ more) = segmentsFrom before (current ++ cs) more := by
  induction cs generalizing current with
  | nil => rw [List.nil_append, List.append_nil]
  | cons c cs ih =>
    rw [List.cons_append, segmentsFrom, h c List.mem_cons_self, if_neg Bool.false_ne_true,
      ih fun c hc => h c (List.mem_cons_of_mem _ hc), List.append_assoc]
    rfl

theorem chars_segmentsFrom (before current cs : List Char) :
    (segmentsFrom before current cs).map Segment.chars =
      (cs.splitOnP isSeparator).modifyHead (current ++ ·) := by
  induction cs generalizing before current with
  | nil => simp [segmentsFrom]
  | cons c cs ih =>
    rw [segmentsFrom, List.splitOnP_cons_eq_if_modifyHead]
    split
    · have hsame : ∀ parts : List (List Char), parts.modifyHead ([] ++ ·) = parts := by
        intro parts
        cases parts <;> rfl
      rw [List.map_cons, ih, hsame]
      simp
    · rw [ih, List.modifyHead_modifyHead]
      simp [Function.comp_def]

theorem isSeparator_of_isSpace {c : Char} (h : isSpace c = true) : isSeparator c = false := by
  unfold isSpace at h
  unfold isSeparator
  grind

/-! ### Runs -/

theorem runs_append_space {c : Char} (hc : isSpace c = true) (cs more : List Char) :
    runs (cs ++ c :: more) = runs cs ++ runs more := by
  rw [runs, List.splitOnP_append_cons _ _ hc, List.filter_append]
  rfl

theorem runs_append_blank {blank : List Char} (h : ∀ c ∈ blank, isSpace c = true) (cs : List Char) :
    runs (cs ++ blank) = runs cs := by
  induction blank generalizing cs with
  | nil => rw [List.append_nil]
  | cons c blank ih =>
    have hnone : runs blank = [] := ih (fun c hc => h c (List.mem_cons_of_mem _ hc)) []
    rw [runs_append_space (h c List.mem_cons_self), hnone, List.append_nil]

theorem runs_append_run {run : List Char} (hne : run ≠ []) (h : ∀ c ∈ run, isSpace c = false)
    {cs : List Char} (hcs : ∀ c ∈ cs.getLast?, isSpace c = true) :
    runs (cs ++ run) = runs cs ++ [run] := by
  have hone : runs run = [run] := by
    rw [runs, List.splitOnP_eq_singleton h]
    simp [hne]
  cases cs using List.reverseRecOn with
  | nil => exact hone
  | append_singleton cs c =>
    have hc := hcs c List.getLast?_concat
    rw [List.append_assoc, List.singleton_append, runs_append_space hc, runs_append_space hc, hone]
    simp [runs]

/-! ### Trimming -/

theorem trimStart_append_run {run : List Char} (h : ∀ c ∈ run, isSpace c = false) (cs : List Char) :
    trimStart isSpace (cs ++ run) = trimStart isSpace cs ++ run := by
  unfold trimStart
  rw [List.dropWhile_append]
  split
  · rename_i hnone
    rw [List.isEmpty_iff.1 hnone]
    cases run with
    | nil => rfl
    | cons c run => exact List.dropWhile_cons_of_neg (by simp [h c List.mem_cons_self])
  · rfl

theorem trimBoth_append_run {run : List Char} (hne : run ≠ []) (h : ∀ c ∈ run, isSpace c = false)
    (cs : List Char) : trimBoth isSpace (cs ++ run) = trimStart isSpace cs ++ run := by
  rw [trimBoth, trimStart_append_run h]
  cases run using List.reverseRecOn with
  | nil => exact absurd rfl hne
  | append_singleton run c =>
    have hc : isSpace c = false := h c (List.mem_append_right _ List.mem_cons_self)
    rw [← List.append_assoc]
    exact trimEnd_append_cons hc _ []

theorem trimStart_append_blank {cs : List Char} (h : ¬∀ c ∈ cs, isSpace c = true)
    (blank : List Char) : trimStart isSpace (cs ++ blank) = trimStart isSpace cs ++ blank := by
  unfold trimStart
  rw [List.dropWhile_append, if_neg]
  rwa [List.isEmpty_iff, List.dropWhile_eq_nil_iff]

theorem trimBoth_append_blank {blank : List Char} (h : ∀ c ∈ blank, isSpace c = true)
    (cs : List Char) : trimBoth isSpace (cs ++ blank) = trimBoth isSpace cs := by
  have hend : ∀ cs, trimEnd isSpace (cs ++ blank) = trimEnd isSpace cs := by
    intro cs
    unfold trimEnd
    rw [List.reverse_append, List.dropWhile_append_of_pos fun c hc => h c (List.mem_reverse.1 hc)]
  by_cases hcs : ∀ c ∈ cs, isSpace c = true
  · have hnone : ∀ cs : List Char, (∀ c ∈ cs, isSpace c = true) → trimStart isSpace cs = [] :=
      fun cs => List.dropWhile_eq_nil_iff.2
    rw [trimBoth, trimBoth, hnone cs hcs, hnone _ (List.forall_mem_append.2 ⟨hcs, h⟩)]
  · rw [trimBoth, trimStart_append_blank hcs, hend]
    rfl

/-! ## Drafts -/

/-- The draft of a command on the given line, after the beginning `current` of its segment. -/
structure Drafted (d : Draft) (line : Nat) (current : List Char) : Prop where
  words : d.words ++ Builder.closed d.pieces =
    (runs current).map fun run => .string (String.ofList run)
  /-- Blanks come after a word that was ended. -/
  ended : d.pieces = [] → ∀ c ∈ current.getLast?, isSpace c = true
  blank : (∀ c ∈ current, isSpace c = true) → d.begun = none
  begun : ¬(∀ c ∈ current, isSpace c = true) →
    d.begun = some (String.ofList (trimBoth isSpace current), line) ∧
      trimBoth isSpace current ++ d.gap.toList = trimStart isSpace current

namespace Drafted

variable {d : Draft} {line : Nat} {current : List Char}

theorem empty (line : Nat) : Drafted {} line [] where
  words := rfl
  ended _ _ hc := by cases hc
  blank _ := rfl
  begun h := absurd (fun _ hc => absurd hc List.not_mem_nil) h

theorem space (h : Drafted d line current) {blank : List Char} (hne : blank ≠ [])
    (hblank : ∀ c ∈ blank, isSpace c = true) :
    Drafted (d.space (String.ofList blank)) line (current ++ blank) where
  words := by
    have hwords : (d.space (String.ofList blank)).words = d.words ++ Builder.closed d.pieces :=
      Builder.words_closeWord d
    have hpieces : (d.space (String.ofList blank)).pieces = [] := Builder.pieces_closeWord d
    rw [hwords, hpieces, runs_append_blank hblank, ← h.words]
    exact List.append_nil _
  ended _ c hc := by
    rw [List.getLast?_append_of_ne_nil _ hne] at hc
    exact hblank c (List.mem_of_getLast? hc)
  blank hall :=
    (Builder.begun_closeWord d).trans (h.blank fun c hc => hall c (List.mem_append_left _ hc))
  begun hall := by
    have hcurrent : ¬∀ c ∈ current, isSpace c = true := fun hcurrent =>
      hall (List.forall_mem_append.2 ⟨hcurrent, hblank⟩)
    obtain ⟨hbegun, hgap⟩ := h.begun hcurrent
    have hspace : (d.space (String.ofList blank)).gap = d.gap ++ String.ofList blank :=
      d.gap_space _
    rw [trimBoth_append_blank hblank, trimStart_append_blank hcurrent, hspace,
      String.toList_append, String.toList_ofList, ← List.append_assoc, hgap]
    exact ⟨(Builder.begun_closeWord d).trans hbegun, rfl⟩

theorem push (h : Drafted d line current) (hpieces : d.pieces = []) {run : List Char}
    (hne : run ≠ []) (hrun : ∀ c ∈ run, isSpace c = false) {w : Word}
    (hsource : w.source = String.ofList run) (hline : w.line = line) :
    Drafted (d.push w (.string (String.ofList run))) line (current ++ run) where
  words := by
    have hwords := h.words
    rw [hpieces] at hwords
    rw [runs_append_run hne hrun (h.ended hpieces), List.map_append, ← hwords]
    simp [Draft.push, hpieces, Builder.closed, joinPieces]
  ended hnone := by simp [Draft.push] at hnone
  blank hall := by
    obtain ⟨c, hc⟩ := List.exists_mem_of_ne_nil run hne
    have hspace := hall c (List.mem_append_right _ hc)
    rw [hrun c hc] at hspace
    cases hspace
  begun _ := by
    rw [trimBoth_append_run hne hrun, trimStart_append_run hrun]
    refine ⟨?_, by simp [Draft.push]⟩
    by_cases hcurrent : ∀ c ∈ current, isSpace c = true
    · have hnone : trimStart isSpace current = [] := List.dropWhile_eq_nil_iff.2 hcurrent
      rw [hnone, Draft.push, h.blank hcurrent, hsource, hline]
      rfl
    · obtain ⟨hbegun, hgap⟩ := h.begun hcurrent
      rw [← hgap, Draft.push, hbegun, hsource]
      simp [String.ofList_append, String.append_assoc]

theorem finish_toList (h : Drafted d line current) {before : List Char}
    (hline : line = 1 + before.count '\n') :
    d.finish.toList = ([⟨before, current⟩].filter Segment.hasWord).map Segment.command := by
  by_cases hcurrent : ∀ c ∈ current, isSpace c = true
  · have hnone : Segment.hasWord ⟨before, current⟩ = false := by
      simpa [Segment.hasWord] using hcurrent
    rw [Draft.finish, h.blank hcurrent, List.filter_cons_of_neg (by simp [hnone])]
    rfl
  · have hsome : Segment.hasWord ⟨before, current⟩ = true := by
      simpa [Segment.hasWord] using hcurrent
    -- No newline is among the blanks before the first word.
    have hcount : (current.takeWhile isSpace).count '\n' = 0 := by
      rw [List.count_eq_zero]
      exact fun hmem => absurd (List.mem_takeWhile_imp hmem) (by decide)
    rw [Draft.finish, (h.begun hcurrent).1, List.filter_cons_of_pos hsome]
    simp [Segment.command, Builder.words_closeWord, h.words, hline, hcount]

end Drafted

/-! ## One pass over the text -/

namespace Lexeme

variable {c : Char} {cs : List Char}

theorem ne_backslash_of_plain (h : isSyntax c = false) : c ≠ '\\' := by
  rintro rfl
  cases h

theorem startsBlank_of_plain (h : isSyntax c = false) (cs : List Char) :
    startsBlank (c :: cs) = isSpace c := by
  have hc := ne_backslash_of_plain h
  unfold startsBlank
  split <;> simp_all

theorem blanks_of_plain (h : ∀ c ∈ cs, isSyntax c = false) :
    blanks false cs = (cs.takeWhile isSpace, cs.dropWhile isSpace) := by
  induction cs with
  | nil => rfl
  | cons c cs ih =>
    have ih := ih fun c hc => h c (List.mem_cons_of_mem _ hc)
    cases hc : isSpace c with
    | true => simp [blanks_space hc, ih, hc]
    | false =>
      have hnone : startsBlank (c :: cs) = false := by
        rw [startsBlank_of_plain (h c List.mem_cons_self), hc]
      simp [blanks_of_not_startsBlank hnone, hc]

theorem literalRun_of_plain {stop : Char → Bool} (h : ∀ c ∈ cs, isSyntax c = false) :
    literalRun stop false cs =
      ⟨cs.takeWhile fun c => !stop c, cs.takeWhile fun c => !stop c,
        cs.dropWhile fun c => !stop c⟩ := by
  induction cs with
  | nil => rfl
  | cons c cs ih =>
    have ih := ih fun c hc => h c (List.mem_cons_of_mem _ hc)
    have hc := ne_backslash_of_plain (h c List.mem_cons_self)
    cases hstop : stop c with
    | true => simp [literalRun, hc, hstop]
    | false => simp [literalRun_cons hc hstop, ih, Run.after, hstop]

end Lexeme

namespace Scanner

variable {c : Char} {cs : List Char}

theorem commandLexeme_of_plain (start : Bool) (h : ∀ x ∈ c :: cs, isSyntax x = false) :
    commandLexeme start (c :: cs) =
      if isSeparator c then verbatim .eol [c] cs
      else if isSpace c then
        verbatim .blank ((c :: cs).takeWhile isSpace) ((c :: cs).dropWhile isSpace)
      else
        verbatim .literal ((c :: cs).takeWhile fun x => !endsCommandLiteral x)
          ((c :: cs).dropWhile fun x => !endsCommandLiteral x) := by
  have hc := h c List.mem_cons_self
  have hliteral : literal endsCommandLiteral (c :: cs) =
      verbatim .literal ((c :: cs).takeWhile fun x => !endsCommandLiteral x)
        ((c :: cs).dropWhile fun x => !endsCommandLiteral x) := by
    rw [literal, literalRun_of_plain h]
    rfl
  have hblank : Lexeme.blank false (c :: cs) =
      verbatim .blank ((c :: cs).takeWhile isSpace) ((c :: cs).dropWhile isSpace) := by
    rw [Lexeme.blank, blanks_of_plain h]
  have hne : c ≠ '#' ∧ c ≠ '{' ∧ c ≠ '[' ∧ c ≠ '"' ∧ c ≠ '$' := by
    refine ⟨?_, ?_, ?_, ?_, ?_⟩ <;> rintro rfl <;> cases hc
  rw [← hliteral, ← hblank]
  simp [commandLexeme, startsBlank_of_plain hc, hne, isSeparator]

/-- A character of a text without syntax ends a word just if it is a blank or a separator. -/
theorem endsCommandLiteral_of_plain (h : isSyntax c = false) :
    endsCommandLiteral c = (isSpace c || isSeparator c) := by
  unfold endsCommandLiteral
  split
  case h_10 => simp_all [isSpace, isSeparator]
  all_goals first | rfl | cases h

/-- The next word, which stands for itself. -/
structure ReadsAs (s : Scanner) (kind : WordKind) (taken rest : List Char) : Prop where
  kind : (s.next .command).1.kind = kind
  text : (s.next .command).1.text = String.ofList taken
  source : (s.next .command).1.source = String.ofList taken
  line : (s.next .command).1.line = s.line
  rest : (s.next .command).2.rest = rest
  line_after : (s.next .command).2.line = s.line + taken.count '\n'

theorem readsAs {s : Scanner} {kind : WordKind} {taken rest : List Char} (hcs : s.rest = cs)
    (h : commandLexeme s.atCommandStart cs = verbatim kind taken rest) :
    s.ReadsAs kind taken rest := by
  subst hcs
  have hline : (s.next .command).2.line =
      s.line + (commandLexeme s.atCommandStart s.rest).taken.count '\n' := Place.line_advance _ _
  constructor
  case kind => exact congrArg Lexeme.kind h
  case text => exact congrArg (fun lex : Lexeme => String.ofList lex.text) h
  case source => exact congrArg (fun lex : Lexeme => String.ofList lex.taken) h
  case line => rfl
  case rest => exact congrArg Lexeme.rest h
  case line_after =>
    rw [hline, h]
    rfl

/-- What the next word of a text without syntax can be. -/
inductive PlainNext (s : Scanner) : Prop where
  | separator {c : Char} {cs : List Char} (hrest : s.rest = c :: cs) (hc : isSeparator c = true)
    (hread : s.ReadsAs .eol [c] cs)
  | blank {blank rest : List Char} (hrest : s.rest = blank ++ rest) (hne : blank ≠ [])
    (hblank : ∀ c ∈ blank, isSpace c = true) (hread : s.ReadsAs .blank blank rest)
  | run {run rest : List Char} (hrest : s.rest = run ++ rest) (hne : run ≠ [])
    (hrun : ∀ c ∈ run, isSpace c = false ∧ isSeparator c = false)
    (hend : ∀ c ∈ rest.head?, endsCommandLiteral c = true) (hread : s.ReadsAs .literal run rest)

theorem plainNext {s : Scanner} (hplain : ∀ c ∈ s.rest, isSyntax c = false) (hne : s.rest ≠ []) :
    s.PlainNext := by
  obtain ⟨c, cs, hrest⟩ := List.exists_cons_of_ne_nil hne
  rw [hrest] at hplain
  have hlex := commandLexeme_of_plain s.atCommandStart hplain
  by_cases hsep : isSeparator c = true
  · rw [if_pos hsep] at hlex
    exact .separator hrest hsep (readsAs hrest hlex)
  rw [if_neg hsep] at hlex
  by_cases hspace : isSpace c = true
  · rw [if_pos hspace] at hlex
    refine .blank ?_ ?_ (fun x hx => List.mem_takeWhile_imp hx) (readsAs hrest hlex)
    · rw [hrest, List.takeWhile_append_dropWhile]
    · simp [hspace]
  · rw [if_neg hspace] at hlex
    have hgoes : endsCommandLiteral c = false := by
      simp [endsCommandLiteral_of_plain (hplain c List.mem_cons_self), hspace, hsep]
    refine .run ?_ ?_ (fun x hx => ?_) (fun x hx => ?_) (readsAs hrest hlex)
    · rw [hrest, List.takeWhile_append_dropWhile]
    · simp [hgoes]
    · have hends := List.mem_takeWhile_imp hx
      rw [endsCommandLiteral_of_plain (hplain x (List.takeWhile_subset _ hx))] at hends
      simpa using hends
    · have hnot := List.head?_dropWhile_not (fun x => !endsCommandLiteral x) (c :: cs)
      rw [Option.mem_def.1 hx] at hnot
      simpa using hnot

end Scanner

/-- The scanner stands in a text without syntax, after `before` and the beginning `current` of a
segment, and `d` is what the builder has made of that. -/
structure Reached (s : Scanner) (d : Draft) (before current : List Char) : Prop where
  plain : ∀ c ∈ s.rest, isSyntax c = false
  line : s.line = 1 + before.count '\n'
  same_line : current.count '\n' = 0
  drafted : Drafted d s.line current
  /-- A word in progress is at its end. -/
  apart : d.pieces = [] ∨ ∀ c ∈ s.rest.head?, endsCommandLiteral c = true

namespace Reached

variable {s : Scanner} {d : Draft} {before current : List Char} {c : Char} {cs : List Char}

theorem eol (h : Reached s d before current) (hread : s.ReadsAs .eol [c] cs)
    (hrest : s.rest = c :: cs) :
    Reached (s.next .command).2 {} (before ++ current ++ [c]) [] where
  plain x hx := h.plain x (by rw [hrest]; exact List.mem_cons_of_mem _ (hread.rest ▸ hx))
  line := by
    rw [hread.line_after, h.line, List.count_append, List.count_append, h.same_line]
    omega
  same_line := rfl
  drafted := .empty _
  apart := .inl rfl

/-- A word that leaves the scanner in the segment. -/
theorem within (h : Reached s d before current) {kind : WordKind} {taken rest : List Char}
    (hread : s.ReadsAs kind taken rest) (hrest : s.rest = taken ++ rest)
    (hcount : taken.count '\n' = 0) {d' : Draft} (hd : Drafted d' s.line (current ++ taken))
    (hapart : d'.pieces = [] ∨ ∀ c ∈ rest.head?, endsCommandLiteral c = true) :
    Reached (s.next .command).2 d' before (current ++ taken) := by
  have hline : (s.next .command).2.line = s.line := by rw [hread.line_after, hcount]; rfl
  constructor
  case plain =>
    exact fun x hx => h.plain x (by rw [hrest]; exact List.mem_append_right _ (hread.rest ▸ hx))
  case line => rw [hline, h.line]
  case same_line => rw [List.count_append, h.same_line, hcount]
  case drafted => rwa [hline]
  case apart => rwa [hread.rest]

theorem blank (h : Reached s d before current) {blank rest : List Char} (hne : blank ≠ [])
    (hblank : ∀ c ∈ blank, isSpace c = true) (hread : s.ReadsAs .blank blank rest)
    (hrest : s.rest = blank ++ rest) :
    Reached (s.next .command).2 (d.space (s.next .command).1.source) before (current ++ blank) := by
  have hcount : blank.count '\n' = 0 :=
    List.count_eq_zero.2 fun hmem => absurd (hblank _ hmem) (by decide)
  rw [hread.source]
  exact h.within hread hrest hcount (h.drafted.space hne hblank)
    (.inl (Builder.pieces_closeWord d))

theorem literal (h : Reached s d before current) {run rest : List Char} (hne : run ≠ [])
    (hrun : ∀ c ∈ run, isSpace c = false ∧ isSeparator c = false)
    (hread : s.ReadsAs .literal run rest) (hrest : s.rest = run ++ rest)
    (hend : ∀ c ∈ rest.head?, endsCommandLiteral c = true) :
    Reached (s.next .command).2 (d.push (s.next .command).1 (.string (String.ofList run))) before
      (current ++ run) := by
  have hcount : run.count '\n' = 0 :=
    List.count_eq_zero.2 fun hmem => absurd (hrun _ hmem).2 (by decide)
  -- The run is a longest one, so the word before it was ended.
  have hpieces : d.pieces = [] := by
    obtain ⟨c, cs, rfl⟩ := List.exists_cons_of_ne_nil hne
    have hc := hrun c List.mem_cons_self
    refine h.apart.resolve_right fun hends => ?_
    have hc' := hends c (by rw [hrest]; rfl)
    rw [endsCommandLiteral_of_plain (h.plain c (by rw [hrest]; exact List.mem_cons_self))] at hc'
    simp [hc] at hc'
  exact h.within hread hrest hcount
    (h.drafted.push hpieces hne (fun c hc => (hrun c hc).1) hread.source hread.line) (.inr hend)

variable {σ : Type} {sub : Substitutor σ}

/-- The rest of the text is built as its segments say. -/
theorem stream_eq (h : Reached s d before current) (t : σ) :
    Builder.stream sub d (s.wordsIn .command) t =
      (((segmentsFrom before current s.rest).filter Segment.hasWord).map fun seg => .ok seg.command,
        t) := by
  induction s using reading_induction .command generalizing d before current with
  | last s heof =>
    have hrest : s.rest = [] := (kind_next_eq_eof_iff s .command).1 heof
    rw [wordsIn_of_eof heof, Builder.stream_eof heof, hrest, h.drafted.finish_toList h.line,
      List.map_map]
    rfl
  | more s hne ih =>
    have hcons : s.rest ≠ [] := fun hrest => hne ((kind_next_eq_eof_iff s .command).2 hrest)
    rw [wordsIn_of_ne_eof hne]
    cases plainNext h.plain hcons with
    | @separator c cs hrest hc hread =>
      have hsplit : segmentsFrom before current s.rest =
          [⟨before, current⟩] ++ segmentsFrom (before ++ current ++ [c]) [] cs := by
        rw [hrest, segmentsFrom, if_pos hc]
        rfl
      rw [Builder.stream_eol hread.kind, ih (h.eol hread hrest), hread.rest,
        h.drafted.finish_toList h.line, hsplit, List.filter_append, List.map_append, List.map_map]
      rfl
    | @blank blank rest hrest hne hblank hread =>
      have hsame := segmentsFrom_append (fun x hx => isSeparator_of_isSpace (hblank x hx)) before
        current rest
      rw [Builder.stream_blank hread.kind, ih (h.blank hne hblank hread hrest), hread.rest, ← hsame,
        ← hrest]
    | @run run rest hrest hne hrun hend hread =>
      have hsame := segmentsFrom_append (fun x hx => (hrun x hx).2) before current rest
      have hword : sub.word (s.next .command).1 t = .ok (.string (String.ofList run)) t := by
        rw [Substitutor.word, hread.kind, hread.text]
        rfl
      rw [Builder.stream_ok (by rw [hread.kind]; rfl) hword,
        ih (h.literal hne hrun hread hrest hend), hread.rest, ← hsame, ← hrest]

end Reached

namespace Builder

variable {σ : Type}

/-- A script without syntax is split naively: at newlines and semicolons into segments, of which
each that is not blank is a command, with the runs between blanks for words. Nothing is asked. -/
theorem plain_script_splits (sub : Substitutor σ) {text : String}
    (h : ∀ c ∈ text.toList, isSyntax c = false) (s : σ) :
    all sub text s =
        (((segments text.toList).filter Segment.hasWord).map fun seg => .ok seg.command, s) ∧
      calls sub text s = [] ∧
      (segments text.toList).map Segment.chars = text.toList.splitOnP isSeparator := by
  have hall : ∀ {τ : Type} (sub : Substitutor τ) (s : τ), all sub text s =
      (((segments text.toList).filter Segment.hasWord).map fun seg => .ok seg.command, s) := by
    intro τ sub s
    have hstart : Reached (.ofString text) {} [] [] := ⟨h, rfl, rfl, .empty _, .inl rfl⟩
    rw [all_eq_stream]
    exact hstart.stream_eq s
  refine ⟨hall sub s, ?_, ?_⟩
  · rw [calls, hall]
  · rw [segments, chars_segmentsFrom]
    cases text.toList.splitOnP isSeparator <;> rfl

theorem plain_script_splits_uneven :
    (∀ c ∈ " p  q\t;\n;; \rr".toList, isSyntax c = false) ∧
      (all (constant (.string "")) " p  q\t;\n;; \rr" ()).1 =
        [.ok ⟨[.string "p", .string "q"], "p  q", 1⟩, .ok ⟨[.string "r"], "r", 2⟩] := by
  have hall : (" p  q\t;\n;; \rr".toList.all fun c => isSyntax c == false) = true := by
    decide +kernel
  have hplain : ∀ c ∈ " p  q\t;\n;; \rr".toList, isSyntax c = false :=
    fun c hc => beq_iff_eq.1 (List.all_eq_true.1 hall c hc)
  refine ⟨hplain, ?_⟩
  rw [(plain_script_splits _ hplain ()).1]
  rfl

end Builder

end CommandScript
