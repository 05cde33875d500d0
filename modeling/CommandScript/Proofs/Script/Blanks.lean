import CommandScript.Proofs.Script.Building
import CommandScript.Proofs.Word.Endings

/-!
# Blanks around a script

Where a script stands does not matter to what it does (`Builder.contents_stream`), so its words can
be compared without their places (`Scanner.reading`). Blanks and newlines before a script change
nothing, and neither do those after it, unless a backslash stands before them
(`Builder.outcome_trimmed`). A newline between two scripts separates them
(`Builder.outcome_newline`).
-/

namespace CommandScript

open Lexeme Scanner

/-! ## Words and drafts without places -/

/-- The word, wherever it stands. -/
def Word.unplaced (w : Word) : Word := { w with start := {}, stop := {} }

/-- The word that a lexeme is, wherever it stands. -/
def Lexeme.word (lex : Lexeme) : Word where
  kind := lex.kind
  text := String.ofList lex.text
  source := String.ofList lex.taken
  start := {}
  stop := {}

/-- The draft, wherever it began. -/
def Draft.unplaced (d : Draft) : Draft := { d with begun := d.begun.map (·.map id fun _ => 1) }

/-- What a command is, wherever it stands: its words and its source. -/
def Command.content (c : Command) : List Value × String := (c.words, c.source)

namespace Draft

variable (d : Draft)

theorem content_finish_unplaced :
    d.unplaced.finish.map Command.content = d.finish.map Command.content := by
  unfold finish closeWord unplaced
  cases d.begun with
  | none => rfl
  | some begun => cases h : d.pieces.isEmpty <;> simp [Command.content]

theorem space_unplaced (blanks : String) : d.unplaced.space blanks = (d.space blanks).unplaced := by
  unfold space closeWord unplaced
  cases h : d.pieces.isEmpty <;> simp

theorem push_unplaced (w : Word) (v : Value) :
    d.unplaced.push w.unplaced v = (d.push w v).unplaced := by
  unfold push unplaced
  cases d.begun with
  | none => rfl
  | some begun => rfl

theorem finish_space (blanks : String) : (d.space blanks).finish = d.finish := by
  unfold space finish closeWord
  cases h : d.pieces.isEmpty <;> simp [h]

theorem gap_space (blanks : String) : (d.space blanks).gap = d.gap ++ blanks := by
  unfold space closeWord
  split <;> rfl

end Draft

/-! ## Reading -/

namespace Scanner

/-- The words of a script that is read where a command can begin just if `start` is set. -/
def reading (start : Bool) (cs : List Char) : List Word :=
  (({ rest := cs, atCommandStart := start } : Scanner).wordsIn .command).map Word.unplaced

/-- Whether a command can begin after a word of this kind. -/
def startAfter (start : Bool) : WordKind → Bool
  | .eol => true
  | .blank => start
  | _ => false

theorem unplaced_next (s : Scanner) :
    (s.next .command).1.unplaced = (commandLexeme s.atCommandStart s.rest).word := rfl

theorem atCommandStart_next {s : Scanner} (h : (s.next .command).1.kind ≠ .eof) :
    (s.next .command).2.atCommandStart =
      startAfter s.atCommandStart (commandLexeme s.atCommandStart s.rest).kind := by
  have hne : (commandLexeme s.atCommandStart s.rest).kind ≠ .eof := h
  show commandStartAfter s .command (commandLexeme s.atCommandStart s.rest).kind = _
  generalize (commandLexeme s.atCommandStart s.rest).kind = kind at hne ⊢
  cases kind with
  | eof => exact absurd rfl hne
  | _ => rfl

theorem map_unplaced_wordsIn (s : Scanner) :
    (s.wordsIn .command).map Word.unplaced = reading s.atCommandStart s.rest := by
  suffices h : ∀ t : Scanner, t.rest = s.rest → t.atCommandStart = s.atCommandStart →
      (s.wordsIn .command).map Word.unplaced = (t.wordsIn .command).map Word.unplaced from
    h _ rfl rfl
  induction s using reading_induction .command with
  | last s heof =>
    intro t hrest hstart
    have hnext : (s.next .command).1.unplaced = (t.next .command).1.unplaced := by
      rw [unplaced_next, unplaced_next, hrest, hstart]
    have heof' : (t.next .command).1.kind = .eof := (congrArg Word.kind hnext).symm.trans heof
    rw [wordsIn_of_eof heof, wordsIn_of_eof heof', List.map_singleton, List.map_singleton, hnext]
  | more s hne ih =>
    intro t hrest hstart
    have hnext : (s.next .command).1.unplaced = (t.next .command).1.unplaced := by
      rw [unplaced_next, unplaced_next, hrest, hstart]
    have hne' : (t.next .command).1.kind ≠ .eof :=
      fun heof => hne ((congrArg Word.kind hnext).trans heof)
    rw [wordsIn_of_ne_eof hne, wordsIn_of_ne_eof hne', List.map_cons, List.map_cons, hnext]
    refine congrArg _ (ih _ ?_ ?_)
    · show (commandLexeme t.atCommandStart t.rest).rest =
        (commandLexeme s.atCommandStart s.rest).rest
      rw [hrest, hstart]
    · rw [atCommandStart_next hne, atCommandStart_next hne', hrest, hstart]

theorem reading_nil (start : Bool) : reading start [] = [(verbatim .eof [] []).word] := rfl

theorem reading_cons (start : Bool) (c : Char) (cs : List Char) :
    reading start (c :: cs) = (commandLexeme start (c :: cs)).word ::
      reading (startAfter start (commandLexeme start (c :: cs)).kind)
        (commandLexeme start (c :: cs)).rest := by
  let s : Scanner := { rest := c :: cs, atCommandStart := start }
  have hne : (s.next .command).1.kind ≠ .eof := (tiles_commandLexeme start c cs).kind_ne_eof
  rw [reading, wordsIn_of_ne_eof hne, List.map_cons, unplaced_next, map_unplaced_wordsIn,
    atCommandStart_next hne]
  rfl

theorem reading_newline (start : Bool) (cs : List Char) :
    reading start ('\n' :: cs) = (verbatim .eol ['\n'] cs).word :: reading true cs := by
  rw [reading_cons]
  rfl

theorem commandLexeme_of_startsBlank {start : Bool} {c : Char} {cs : List Char}
    (h : startsBlank (c :: cs) = true) : commandLexeme start (c :: cs) = blank false (c :: cs) := by
  have hsep : c ≠ '\n' ∧ c ≠ ';' := by
    constructor <;> rintro rfl <;> exact absurd h (by simp [startsBlank, isSpace])
  simp [commandLexeme, h, hsep]

theorem reading_blank {cs : List Char} (h : startsBlank cs = true) (start : Bool) :
    reading start cs = (blank false cs).word :: reading start (blanks false cs).2 := by
  rcases cs with _ | ⟨c, cs⟩
  · cases h
  rw [reading_cons, commandLexeme_of_startsBlank h]
  rfl

theorem reading_comment (cs : List Char) :
    reading true ('#' :: cs) = (comment ('#' :: cs)).word :: reading false (commentText cs).2 := by
  rw [reading_cons]
  rfl

theorem newline_or_space {c : Char} (h : isSpaceOrNewline c = true) :
    c = '\n' ∨ isSpace c = true := by
  simpa [isSpaceOrNewline, or_comm] using h

theorem startsBlank_space {c : Char} (hc : isSpace c = true) (cs : List Char) :
    startsBlank (c :: cs) = true := by
  unfold startsBlank
  split
  · rfl
  · simp_all
  · simp_all

theorem blanks_space {c : Char} (hc : isSpace c = true) (cs : List Char) :
    blanks false (c :: cs) = (c :: (blanks false cs).1, (blanks false cs).2) := by
  rw [blanks]
  · rw [hc]
    rfl
  · rintro _ rfl
    cases hc

theorem blanks_of_not_startsBlank {cs : List Char} (h : startsBlank cs = false) :
    blanks false cs = ([], cs) := by
  unfold startsBlank at h
  split at h
  · cases h
  · rename_i c cs hjoin
    rw [blanks]
    · simp [h]
    · exact hjoin
  · rfl

theorem rest_blanks_append {cs : List Char} (h : (blanks false cs).2 = []) (more : List Char) :
    (blanks false (cs ++ more)).2 = (blanks false more).2 := by
  fun_induction blanks false cs with
  | case1 cs ih => exact ih h
  | case2 c cs hjoin hspace ih =>
    have hspace : isSpace c = true := by simpa using hspace
    rw [List.cons_append, blanks_space hspace]
    exact ih h
  | case3 => cases h
  | case4 => rfl

theorem rest_commentText_append {cs : List Char} (hend : escaping cs = false)
    (h : (commentText cs).2 = []) (more : List Char) :
    (commentText (cs ++ more)).2 = (commentText more).2 := by
  fun_induction commentText cs with
  | case1 => rfl
  | case2 => cases hend
  | case3 c cs ih => exact ih hend h
  | case4 => cases h
  | case5 c cs hlast hesc hc ih =>
    have hne := ne_backslash hlast hesc
    rw [escaping_cons hne] at hend
    simpa [commentText, hne, hc] using ih hend h

theorem rest_commentText_suffix (cs : List Char) : (commentText cs).2 <:+ cs :=
  ⟨(commentText cs).1, commentText_append cs⟩

theorem rest_blanks_suffix (cs : List Char) : (blanks false cs).2 <:+ cs :=
  ⟨(blanks false cs).1, blanks_append false cs⟩

end Scanner

/-! ## What building gives, wherever the script stands -/

namespace Builder

variable {σ : Type} {sub : Substitutor σ} {s : σ}

/-- What building gave, without the places. -/
def contents (built : List (Except Stop Command) × σ) :
    List (Except Stop (List Value × String)) × σ :=
  built.map (·.map (Except.map Command.content)) id

theorem map_content_finish_unplaced (d : Draft) :
    (d.unplaced.finish.toList.map .ok : List (Except Stop Command)).map
        (Except.map Command.content) =
      (d.finish.toList.map .ok : List (Except Stop Command)).map (Except.map Command.content) := by
  have hmap : ∀ found : Option Command, (found.toList.map .ok : List (Except Stop Command)).map
      (Except.map Command.content) = (found.map Command.content).toList.map .ok := by
    intro found
    cases found <;> rfl
  rw [hmap, hmap, d.content_finish_unplaced]

theorem contents_append (front : List (Except Stop Command))
    (built : List (Except Stop Command) × σ) :
    contents (built.map (front ++ ·) id) =
      (contents built).map (front.map (Except.map Command.content) ++ ·) id := by
  simp [contents, Prod.map]

/-- Places do not matter, unless a word is left open. -/
theorem contents_stream {ws : List Word} (hlegal : ∀ w ∈ ws, w.kind ≠ .illegal) (d : Draft)
    (s : σ) :
    contents (stream sub d.unplaced (ws.map Word.unplaced) s) = contents (stream sub d ws s) := by
  induction ws generalizing d s with
  | nil => exact Prod.ext (map_content_finish_unplaced d) rfl
  | cons w ws ih =>
    have ih := fun d s => ih (fun w hmem => hlegal w (List.mem_cons_of_mem _ hmem)) d s
    have hempty : ({} : Draft).unplaced = {} := rfl
    rw [List.map_cons]
    rcases hrole : w.kind.role with h | h | h | h | h | h
    · have h' : w.unplaced.kind = .eof := h
      rw [stream_eof h', stream_eof h]
      exact Prod.ext (map_content_finish_unplaced d) rfl
    · have h' : w.unplaced.kind = .eol := h
      rw [stream_eol h', stream_eol h, contents_append, contents_append,
        map_content_finish_unplaced, ← ih, hempty]
    · have h' : w.unplaced.kind = .blank := h
      rw [stream_blank h', stream_blank h, Draft.space_unplaced, ← ih]
      rfl
    · have h' : w.unplaced.kind = .comment := h
      rw [stream_comment h', stream_comment h, ih]
    · exact absurd h (hlegal w List.mem_cons_self)
    · have h' : w.unplaced.kind.isPiece = true := h
      -- A value depends on the kind and the text of its word only.
      have hword : sub.word w.unplaced s = sub.word w s := rfl
      cases hv : sub.word w s with
      | ok v s' =>
        rw [stream_ok h' (hword.trans hv), stream_ok h hv, Draft.push_unplaced, ih]
      | error stop s' =>
        rw [stream_error h' (hword.trans hv), stream_error h hv]
        exact congrArg (·.map (.error stop :: ·) id) (ih {} s')

/-! ## Blanks before and after -/

/-- Blanks before the first word are forgotten. -/
theorem stream_gap (gap : String) (ws : List Word) (s : σ) :
    stream sub { gap } ws s = stream sub {} ws s := by
  induction ws generalizing gap with
  | nil => rfl
  | cons w ws ih =>
    rcases w.kind.role with h | h | h | h | h | h
    · rw [stream_eof h, stream_eof h]
      rfl
    · rw [stream_eol h, stream_eol h]
      rfl
    · rw [stream_blank h, stream_blank h]
      exact (ih _).trans (ih _).symm
    · rw [stream_comment h, stream_comment h, ih]
    · rw [stream_illegal h, stream_illegal h]
    · cases hv : sub.word w s with
      | ok v s' =>
        rw [stream_ok h hv, stream_ok h hv]
        rfl
      | error stop s' => rw [stream_error h hv, stream_error h hv]

theorem reading_blanks (sub : Substitutor σ) (cs : List Char) :
    ((∀ w ∈ reading true (blanks false cs).2, w.kind ≠ .illegal) →
      ∀ w ∈ reading true cs, w.kind ≠ .illegal) ∧
    ∀ s : σ, stream sub {} (reading true (blanks false cs).2) s =
      stream sub {} (reading true cs) s := by
  cases hblank : startsBlank cs with
  | false =>
    rw [blanks_of_not_startsBlank hblank]
    exact ⟨id, fun s => rfl⟩
  | true =>
    rw [reading_blank hblank]
    refine ⟨fun h => List.forall_mem_cons.2 ⟨WordKind.noConfusion, h⟩, fun s => ?_⟩
    rw [stream_blank rfl]
    exact (stream_gap _ _ s).symm

/-- What stands before a script. -/
theorem reading_leading (sub : Substitutor σ) {lead : List Char}
    (hlead : ∀ c ∈ lead, isSpaceOrNewline c = true) {cs : List Char}
    (hlegal : ∀ w ∈ reading true (lead ++ cs), w.kind ≠ .illegal) :
    (∀ w ∈ reading true cs, w.kind ≠ .illegal) ∧
      ∀ s : σ, stream sub {} (reading true (lead ++ cs)) s = stream sub {} (reading true cs) s := by
  induction lead with
  | nil => exact ⟨hlegal, fun s => rfl⟩
  | cons c lead ih =>
    have ih := ih fun c hc => hlead c (List.mem_cons_of_mem _ hc)
    rw [List.cons_append] at hlegal ⊢
    rcases newline_or_space (hlead c List.mem_cons_self) with rfl | hspace
    · rw [reading_newline] at hlegal ⊢
      obtain ⟨hcs, hsame⟩ := ih (List.forall_mem_cons.1 hlegal).2
      refine ⟨hcs, fun s => ?_⟩
      rw [stream_eol rfl, ← hsame]
      rfl
    · rw [reading_blank (startsBlank_space hspace _), blanks_space hspace] at hlegal ⊢
      obtain ⟨hrest, hblanks⟩ := reading_blanks sub (lead ++ cs)
      obtain ⟨hcs, hsame⟩ := ih (hrest (List.forall_mem_cons.1 hlegal).2)
      refine ⟨hcs, fun s => ?_⟩
      rw [stream_blank rfl, ← hsame, ← hblanks]
      exact stream_gap _ _ s

/-- A script of blanks ends the command under construction. -/
theorem stream_reading_of_blank {trail : List Char}
    (htrail : ∀ c ∈ trail, isSpaceOrNewline c = true) (start : Bool) (d : Draft) (s : σ) :
    stream sub d (reading start trail) s = (d.finish.toList.map .ok, s) := by
  induction hn : trail.length using Nat.strongRecOn generalizing trail start d with
  | _ n ih =>
    cases trail with
    | nil => rfl
    | cons c trail =>
      rw [List.length_cons] at hn
      rcases newline_or_space (htrail c List.mem_cons_self) with rfl | hspace
      · have hrest := ih trail.length (by omega) (fun c hc => htrail c (List.mem_cons_of_mem _ hc))
          true {} rfl
        rw [reading_newline, stream_eol rfl, hrest]
        simp [Draft.finish]
      · have hsuffix := rest_blanks_suffix trail
        have hlength := hsuffix.length_le
        have hrest : ∀ c ∈ (blanks false trail).2, isSpaceOrNewline c = true :=
          fun c hc => htrail c (List.mem_cons_of_mem _ (hsuffix.subset hc))
        rw [reading_blank (startsBlank_space hspace _), stream_blank rfl, blanks_space hspace,
          ih _ (by omega) hrest _ _ rfl, Draft.finish_space]

theorem stream_cons_congr {A B : List Word} (h : ∀ d s, stream sub d A s = stream sub d B s)
    (w : Word) (d : Draft) (s : σ) : stream sub d (w :: A) s = stream sub d (w :: B) s := by
  rcases w.kind.role with hw | hw | hw | hw | hw | hw
  · rw [stream_eof hw, stream_eof hw]
  · rw [stream_eol hw, stream_eol hw, h]
  · rw [stream_blank hw, stream_blank hw, h]
  · rw [stream_comment hw, stream_comment hw, h]
  · rw [stream_illegal hw, stream_illegal hw]
  · cases hv : sub.word w s with
    | ok v s' => rw [stream_ok hw hv, stream_ok hw hv, h]
    | error stop s' => rw [stream_error hw hv, stream_error hw hv, h]

/-- What stands after a script: the words that were not left open with the blanks are not left open
without them, and give the same. -/
theorem reading_trailing {trail : List Char} (htrail : ∀ c ∈ trail, isSpaceOrNewline c = true)
    {cs : List Char} (hend : escaping cs = false) {start : Bool}
    (hlegal : ∀ w ∈ reading start (cs ++ trail), w.kind ≠ .illegal) :
    (∀ w ∈ reading start cs, w.kind ≠ .illegal) ∧
      ∀ (d : Draft) (s : σ),
        stream sub d (reading start (cs ++ trail)) s = stream sub d (reading start cs) s := by
  induction hn : cs.length using Nat.strongRecOn generalizing cs start with
  | _ n ih =>
    rcases cs with _ | ⟨c, cs⟩
    · refine ⟨by simp [reading_nil, Lexeme.word, verbatim], fun d s => ?_⟩
      rw [List.nil_append, stream_reading_of_blank htrail]
      rfl
    rcases trail with _ | ⟨sep, more⟩
    · rw [List.append_nil] at hlegal ⊢
      exact ⟨hlegal, fun d s => rfl⟩
    have hfirst : (commandLexeme start (c :: cs)).kind ≠ .illegal := by
      intro hillegal
      refine hlegal (commandLexeme start (c :: cs ++ sep :: more)).word ?_
        (kind_commandLexeme_append htrail hend hillegal)
      rw [List.cons_append, reading_cons]
      exact List.mem_cons_self
    by_cases hstop : (commandLexeme start (c :: cs)).rest ≠ [] ∨
        (commandLexeme start (c :: cs)).kind ≠ .blank ∧
          (commandLexeme start (c :: cs)).kind ≠ .comment
    · -- The first word is the same, and the rest is shorter.
      have hlex := commandLexeme_extended (List.cons_ne_nil c cs) hend hfirst
        (htrail sep List.mem_cons_self) (.inr hstop) more
      have hread : reading start (c :: cs ++ sep :: more) =
          (commandLexeme start (c :: cs)).word ::
            reading (startAfter start (commandLexeme start (c :: cs)).kind)
              ((commandLexeme start (c :: cs)).rest ++ sep :: more) := by
        rw [List.cons_append, reading_cons, ← List.cons_append, hlex]
        rfl
      rw [hread] at hlegal ⊢
      rw [reading_cons]
      have hlt := (tiles_commandLexeme start c cs).length_rest_lt
      obtain ⟨hrest, hsame⟩ := ih _ (hn ▸ hlt) (escaping_commandLexeme hend)
        (fun w hw => hlegal w (List.mem_cons_of_mem _ hw)) rfl
      exact ⟨List.forall_mem_cons.2 ⟨hfirst, hrest⟩, stream_cons_congr hsame _⟩
    · -- A blank or a comment takes in the blanks after it, up to a newline.
      obtain ⟨hnil, hkind⟩ := not_or.1 hstop
      rw [Classical.not_not] at hnil
      have hafter : ∀ {rest : List Char}, rest <:+ sep :: more →
          ∀ (start : Bool) (d : Draft) (s : σ),
          stream sub d (reading start rest) s = (d.finish.toList.map .ok, s) := fun hrest =>
        stream_reading_of_blank fun c hc => htrail c (hrest.subset hc)
      by_cases hblank : (commandLexeme start (c :: cs)).kind = .blank
      · have hblank := (begins_of_kind start c cs).1 hblank
        have hrest : (blanks false (c :: cs)).2 = [] := by
          rwa [commandLexeme_of_startsBlank hblank] at hnil
        have hblank' : startsBlank (c :: cs ++ sep :: more) = true := by
          rw [startsBlank_append _ (List.cons_ne_nil c cs) hend, hblank]
        rw [reading_blank hblank, reading_blank hblank', hrest, rest_blanks_append hrest]
        refine ⟨by simp [reading_nil, Lexeme.word, blank, verbatim], fun d s => ?_⟩
        rw [stream_blank rfl, stream_blank rfl, hafter (rest_blanks_suffix _), Draft.finish_space,
          hafter List.nil_suffix, Draft.finish_space]
      · obtain ⟨rfl, rfl⟩ := (begins_of_kind start c cs).2.1
          (Classical.byContradiction fun hcomment => hkind ⟨hblank, hcomment⟩)
        have hrest : (commentText cs).2 = [] := hnil
        rw [escaping_cons (by decide)] at hend
        rw [List.cons_append, reading_comment, reading_comment, hrest,
          rest_commentText_append hend hrest]
        refine ⟨by simp [reading_nil, Lexeme.word, comment, verbatim], fun d s => ?_⟩
        rw [stream_comment rfl, stream_comment rfl, hafter (rest_commentText_suffix _),
          hafter List.nil_suffix]

/-! ## Scripts -/

/-- What a script does, wherever it stands: the contents of its commands and what stopped them. -/
def outcome (sub : Substitutor σ) (script : String) (s : σ) :
    List (Except Stop (List Value × String)) × σ := contents (all sub script s)

theorem isComplete_iff_reading (script : String) :
    isComplete script = true ↔ ∀ w ∈ reading true script.toList, w.kind ≠ .illegal := by
  have hread : reading true script.toList = (words .command script).map Word.unplaced :=
    (map_unplaced_wordsIn (.ofString script)).symm
  rw [hread]
  simp [isComplete, Word.unplaced]

theorem outcome_eq_reading {script : String} (h : isComplete script = true) (s : σ) :
    outcome sub script s = contents (stream sub {} (reading true script.toList) s) := by
  have hlegal : ∀ w ∈ words .command script, w.kind ≠ .illegal := by simpa [isComplete] using h
  have hread : (words .command script).map Word.unplaced = reading true script.toList :=
    map_unplaced_wordsIn (.ofString script)
  rw [outcome, all_eq_stream, ← contents_stream hlegal, hread]
  rfl

/-- Blanks around a script do not matter, unless a backslash stands before those after it. -/
theorem outcome_trimmed {script core : String} {lead trail : List Char}
    (hscript : script.toList = lead ++ (core.toList ++ trail))
    (hlead : ∀ c ∈ lead, isSpaceOrNewline c = true)
    (htrail : ∀ c ∈ trail, isSpaceOrNewline c = true)
    (hend : trail = [] ∨ escaping core.toList = false) (hcomplete : isComplete script = true)
    (s : σ) :
    outcome sub core s = outcome sub script s := by
  have hlegal := (isComplete_iff_reading script).1 hcomplete
  rw [hscript] at hlegal
  obtain ⟨hlegal, hleading⟩ := reading_leading sub hlead hlegal
  obtain ⟨hcore, hsame⟩ : (∀ w ∈ reading true core.toList, w.kind ≠ .illegal) ∧
      ∀ (d : Draft) (s : σ), stream sub d (reading true (core.toList ++ trail)) s =
        stream sub d (reading true core.toList) s := by
    rcases hend with rfl | hend
    · rw [List.append_nil] at hlegal ⊢
      exact ⟨hlegal, fun d s => rfl⟩
    · exact reading_trailing htrail hend hlegal
  rw [outcome_eq_reading ((isComplete_iff_reading core).2 hcore), outcome_eq_reading hcomplete,
    hscript, hleading, hsame]

/-- A newline separates two scripts, unless a backslash stands before it. -/
theorem outcome_newline (sub : Substitutor σ) {a b : String} (ha : isComplete a = true)
    (hend : escaping a.toList = false) (hcomplete : isComplete (a ++ "\n" ++ b) = true) (s : σ) :
    isComplete b = true ∧
      outcome sub (a ++ "\n" ++ b) s =
        (outcome sub b (outcome sub a s).2).map ((outcome sub a s).1 ++ ·) id := by
  have hlegal : ∀ w ∈ (Scanner.ofString a).wordsIn .command, w.kind ≠ .illegal := by
    simpa [isComplete, ← wordsIn_ofString] using ha
  obtain ⟨ws, last, sep, t, hreads⟩ := readsOn (s := .ofString a) hend hlegal b.toList
  have htext : Scanner.ofString (a ++ "\n" ++ b) =
      (Scanner.ofString a).extended ('\n' :: b.toList) := by
    simp [Scanner.ofString, Scanner.extended]
  have hwords : words .command (a ++ "\n" ++ b) = ws ++ sep :: t.wordsIn .command := by
    rw [← wordsIn_ofString, htext, hreads.followed]
  have hlegal_t : ∀ w ∈ t.wordsIn .command, w.kind ≠ .illegal := by
    intro w hw
    have hall : ∀ w ∈ words .command (a ++ "\n" ++ b), w.kind ≠ .illegal := by
      simpa [isComplete] using hcomplete
    exact hall w (hwords ▸ List.mem_append_right _ (List.mem_cons_of_mem _ hw))
  have hread : (t.wordsIn .command).map Word.unplaced = reading true b.toList := by
    rw [map_unplaced_wordsIn, hreads.rest, hreads.start]
  have hb : isComplete b = true := by
    rw [isComplete_iff_reading, ← hread]
    simpa [Word.unplaced] using hlegal_t
  refine ⟨hb, ?_⟩
  have hws : ∀ w ∈ ws, w.kind ≠ .eof ∧ w.kind ≠ .illegal := fun w hw =>
    ⟨hreads.words_ne_eof w hw, hlegal w (hreads.alone ▸ List.mem_append_left _ hw)⟩
  have ha : all sub a s = stream sub {} (ws ++ [last]) s := by
    rw [all_eq_stream, ← wordsIn_ofString, hreads.alone]
  have hstate : (outcome sub a s).2 = (stream sub {} (ws ++ [last]) s).2 := by
    rw [outcome, ha]
    rfl
  rw [hstate, outcome, all_eq_stream, hwords, stream_append_eol hreads.sep_eol hreads.last_eof hws,
    contents_append, ← ha, ← contents_stream hlegal_t, hread, outcome_eq_reading hb]
  rfl

end Builder

end CommandScript
