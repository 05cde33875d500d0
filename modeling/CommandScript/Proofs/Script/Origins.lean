import CommandScript.Proofs.Script.Blanks
import CommandScript.Proofs.Word.Places

/-!
# Where commands stand

A draft gathers its source from pieces and the blanks between them. No comment comes in between, so
the source is what the script has from the start of the first piece to the end of the last: a
stretch of its bytes, that begins in the line the command names.

* `Draft.Ends`: the invariant, with a lemma for each word that a draft takes.
* `Builder.source_standsIn`: the bytes of a script that the source of a command is.
-/

namespace CommandScript

open Scanner

/-- The source of the command stands in the text behind `front`, and its line is where it begins. -/
def Command.StandsAfter (front text : List Char) (c : Command) : Prop :=
  ∃ before after, text = front ++ before ++ (c.source.toList ++ after) ∧
    c.line = 1 + (front ++ before).count '\n'

/-- The source of the command is a stretch of the bytes of the text, that begins in its line. -/
def Command.StandsIn (text : String) (c : Command) : Prop :=
  ∃ start, text.toByteArray.extract start (start + c.source.utf8ByteSize) = c.source.toByteArray ∧
    c.line = Text.lineAt text start

theorem Command.StandsAfter.standsIn {text : String} {c : Command}
    (h : c.StandsAfter [] text.toList) : c.StandsIn text := by
  obtain ⟨before, after, htext, hline⟩ := h
  rw [List.nil_append] at htext hline
  have hextract := extract_toByteArray (.ofList before) c.source (.ofList after)
  rw [show _ ++ _ = text from String.toList_inj.1 (by simp [htext])] at hextract
  exact ⟨_, hextract, by rw [Text.lineAt, htext, Text.charsBefore_append, hline]⟩

/-! ## One word -/

namespace Scanner

variable {start : Bool} {cs : List Char}

/-- A comment begins where a command can, and ends at the end of its line. -/
theorem comment_of_kind (h : (commandLexeme start cs).kind = .comment) :
    start = true ∧ ∀ c ∈ (commandLexeme start cs).rest.head?, c = '\n' := by
  rcases cs with _ | ⟨c, cs⟩
  · cases h
  obtain ⟨rfl, rfl⟩ := (begins_of_kind start c cs).2.1 h
  refine ⟨rfl, ?_⟩
  show ∀ c ∈ (Lexeme.commentText cs).2.head?, c = '\n'
  rcases Lexeme.rest_commentText cs with hrest | ⟨rest, hrest⟩ <;> simp [hrest]

theorem startAfter_of_isPiece {kind : WordKind} (h : kind.isPiece = true) :
    startAfter start kind = false := by
  cases kind with
  | eol | blank => cases h
  | _ => rfl

theorem At.next_command {text : String} {used : List Char} {s : Scanner} (h : At text used s) :
    At text (used ++ (s.next .command).1.source.toList) (s.next .command).2 ∧
      (s.next .command).1.line = 1 + used.count '\n' := by
  obtain ⟨gap, taken, hword, hnext, -⟩ := h.next .command
  obtain rfl := hword.gap_eq_nil ScanMode.noConfusion
  rw [hword.source, String.toList_ofList, Word.line, hword.start, Place.line_advance,
    Place.line_advance]
  exact ⟨by simpa using hnext, rfl⟩

end Scanner

/-- What is known of a draft when the scanner has read `used`. The source of one that has begun, and
the blanks after it, come last, and no comment can follow them. -/
inductive Draft.Ends (front : List Char) (d : Draft) (used : List Char) (s : Scanner) : Prop
  | fresh (hfresh : d.begun = none) (hfront : front <+: used)
  | begun {source : String} {before : List Char}
    (hbegun : d.begun = some (source, 1 + (front ++ before).count '\n'))
    (hstart : s.atCommandStart = false)
    (hused : used = front ++ before ++ (source.toList ++ d.gap.toList))

namespace Draft.Ends

variable {front used : List Char} {d : Draft} {s : Scanner} {text : String} {c : Command}

theorem standsAfter (h : d.Ends front used s) (hs : At text used s) (hc : c ∈ d.finish) :
    c.StandsAfter front text.toList := by
  obtain ⟨begun, hd, rfl⟩ := Option.map_eq_some_iff.1 hc
  cases h with
  | fresh hfresh => rw [hfresh] at hd; cases hd
  | @begun source before hbegun _ hused =>
    obtain rfl := Option.some.inj (hbegun.symm.trans hd)
    exact ⟨before, d.gap.toList ++ s.rest, by simp [hs.eq_append, hused], rfl⟩

theorem space (h : d.Ends front used s) (hkind : (s.next .command).1.kind = .blank) :
    (d.space (s.next .command).1.source).Ends front
      (used ++ (s.next .command).1.source.toList) (s.next .command).2 := by
  cases h with
  | fresh hfresh hfront =>
    exact .fresh ((Builder.begun_closeWord d).trans hfresh) (hfront.trans (List.prefix_append _ _))
  | begun hbegun hstart hused =>
    have hlex : (commandLexeme s.atCommandStart s.rest).kind = .blank := hkind
    refine .begun ((Builder.begun_closeWord d).trans hbegun) ?_ (by simp [hused, gap_space])
    rw [atCommandStart_next (by rw [hkind]; exact WordKind.noConfusion), hlex]
    exact hstart

theorem comment (h : d.Ends front used s) (hkind : (s.next .command).1.kind = .comment)
    (more : List Char) : d.Ends front (used ++ more) (s.next .command).2 := by
  have hlex : (commandLexeme s.atCommandStart s.rest).kind = .comment := hkind
  cases h with
  | fresh hfresh hfront => exact .fresh hfresh (hfront.trans (List.prefix_append _ _))
  | begun _ hstart => rw [(comment_of_kind hlex).1] at hstart; cases hstart

theorem push (h : d.Ends front used s) (hs : At text used s)
    (hkind : (s.next .command).1.kind.isPiece = true) (v : Value) :
    (d.push (s.next .command).1 v).Ends front
      (used ++ (s.next .command).1.source.toList) (s.next .command).2 := by
  have hne : (s.next .command).1.kind ≠ .eof := fun heof => by rw [heof] at hkind; cases hkind
  have hstart := (atCommandStart_next hne).trans (startAfter_of_isPiece hkind)
  cases h with
  | fresh hfresh hfront =>
    obtain ⟨before, rfl⟩ := hfront
    have hbegun : (d.push (s.next .command).1 v).begun =
        some ((s.next .command).1.source, 1 + (front ++ before).count '\n') := by
      rw [Draft.push, hfresh, hs.next_command.2]
    exact .begun hbegun hstart (by simp [Draft.push])
  | begun hbegun _ hused =>
    refine .begun (by rw [Draft.push, hbegun]) hstart ?_
    simp [hused, Draft.push]

/-! ## All words -/

theorem stream {σ : Type} {sub : Substitutor σ} (h : d.Ends front used s) (hs : At text used s)
    {t : σ} (hc : .ok c ∈ (Builder.stream sub d (s.wordsIn .command) t).1) :
    c.StandsAfter front text.toList := by
  induction s using reading_induction .command generalizing used d t with
  | last s heof =>
    rw [wordsIn_of_eof heof, Builder.stream_eof heof] at hc
    exact h.standsAfter hs (by simpa using hc)
  | more s hne ih =>
    have hs' := hs.next_command.1
    have hanew : ({} : Draft).Ends front (used ++ (s.next .command).1.source.toList)
        (s.next .command).2 := by
      refine .fresh rfl (List.IsPrefix.trans ?_ (List.prefix_append _ _))
      cases h with
      | fresh _ hfront => exact hfront
      | begun _ _ hused => exact ⟨_, by rw [hused, List.append_assoc]⟩
    rw [wordsIn_of_ne_eof hne] at hc
    rcases (s.next .command).1.kind.role with hk | hk | hk | hk | hk | hk
    · exact absurd hk hne
    · rw [Builder.stream_eol hk] at hc
      rcases List.mem_append.1 hc with hc | hc
      · exact h.standsAfter hs (by simpa using hc)
      · exact ih hanew hs' hc
    · rw [Builder.stream_blank hk] at hc
      exact ih (h.space hk) hs' hc
    · rw [Builder.stream_comment hk] at hc
      exact ih (h.comment hk _) hs' hc
    · rw [Builder.stream_illegal hk] at hc
      cases List.mem_singleton.1 hc
    · cases hv : sub.word (s.next .command).1 t with
      | ok v t' =>
        rw [Builder.stream_ok hk hv] at hc
        exact ih (h.push hs hk v) hs' hc
      | error stop t' =>
        rw [Builder.stream_error hk hv] at hc
        exact ih hanew hs' (by simpa using hc)

end Draft.Ends

/-- The source of every command that is built from a script is a stretch of the script. -/
theorem Builder.source_standsIn {σ : Type} {sub : Substitutor σ} {script : String} {s : σ}
    {c : Command} (hc : .ok c ∈ (all sub script s).1) : c.StandsIn script := by
  rw [all_eq_stream] at hc
  exact (Draft.Ends.stream (.fresh rfl List.nil_prefix) (.ofString script) hc).standsIn

end CommandScript
