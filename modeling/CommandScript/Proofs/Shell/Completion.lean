import CommandScript.Shell
import CommandScript.Proofs.Script.Locality

/-!
# Every input can be completed

Whatever has been typed, more can be typed on the same line that completes it: a character for a
backslash at the end to escape, and then what closes the word left open, as often as it was opened.
The words before that one are read as they were, since it already stands behind them
(`Scanner.exists_completion`). So the prompt for further lines can always be left
(`Shell.input_can_be_completed`).
-/

namespace CommandScript

/-- The text can be typed without ending the line. -/
def OneLine (t : List Char) : Prop := ∀ c ∈ t, c ≠ '\n' ∧ c ≠ '\r'

theorem OneLine.nil : OneLine [] := fun _ hc => absurd hc List.not_mem_nil

theorem OneLine.replicate {c : Char} (hc : c ≠ '\n' ∧ c ≠ '\r') (n : Nat) :
    OneLine (List.replicate n c) := by
  intro d hd
  rw [List.eq_of_mem_replicate hd]
  exact hc

theorem OneLine.cons {c : Char} {t : List Char} (hc : c ≠ '\n' ∧ c ≠ '\r') (ht : OneLine t) :
    OneLine (c :: t) :=
  List.forall_mem_cons.2 ⟨hc, ht⟩

namespace Lexeme

/-! ## Closing what was left open -/

section

variable {opening closing : Char} (hopening : closing ≠ opening) (hclosing : closing ≠ '\\')

include hopening hclosing

theorem enclosed_replicate (depth : Nat) :
    enclosed opening closing depth (List.replicate (depth + 1) closing) =
      some (List.replicate depth closing, []) := by
  induction depth with
  | zero => simp [enclosed, hopening, hclosing]
  | succ depth ih =>
    rw [List.replicate_succ, enclosed, if_neg hopening, if_pos rfl, ih]
    · rfl
    · exact fun h _ => hclosing h
    · exact fun _ _ h _ => hclosing h

theorem exists_enclosed (hline : closing ≠ '\n' ∧ closing ≠ '\r') {depth : Nat} {cs : List Char}
    (h : enclosed opening closing depth cs = none) :
    ∃ t inner, OneLine t ∧ enclosed opening closing depth (cs ++ t) = some (inner, []) := by
  fun_induction enclosed opening closing depth cs with
  | case1 depth =>
    exact ⟨List.replicate (depth + 1) closing, _, .replicate hline _,
      enclosed_replicate hopening hclosing depth⟩
  | case2 depth =>
    -- The backslash at the end gets a space to escape.
    refine ⟨' ' :: List.replicate (depth + 1) closing, '\\' :: ' ' :: List.replicate depth closing,
      .cons (by decide) (.replicate hline _), ?_⟩
    simp [enclosed, enclosed_replicate hopening hclosing]
  | case3 depth c cs ih =>
    obtain ⟨t, inner, ht, hin⟩ := ih (Option.map_eq_none_iff.1 h)
    exact ⟨t, '\\' :: c :: inner, ht, by simp [enclosed, hin]⟩
  | case4 depth cs hlast hesc ih =>
    obtain ⟨t, inner, ht, hin⟩ := ih (Option.map_eq_none_iff.1 h)
    refine ⟨t, opening :: inner, ht, ?_⟩
    cases depth <;> simp [enclosed, ne_backslash hlast hesc, hin]
  | case5 => cases h
  | case6 cs depth hlast hesc hopen ih =>
    obtain ⟨t, inner, ht, hin⟩ := ih (Option.map_eq_none_iff.1 h)
    exact ⟨t, closing :: inner, ht, by simp [enclosed, ne_backslash hlast hesc, hopen, hin]⟩
  | case7 depth c cs hlast hesc hopen hclose ih =>
    obtain ⟨t, inner, ht, hin⟩ := ih (Option.map_eq_none_iff.1 h)
    refine ⟨t, c :: inner, ht, ?_⟩
    cases depth <;> simp [enclosed, ne_backslash hlast hesc, hopen, hclose, hin]

end

theorem quoted_replicate (depth : Nat) :
    quoted depth (List.replicate depth ']' ++ ['"']) = .ok (List.replicate depth ']', []) := by
  induction depth with
  | zero => simp [quoted]
  | succ depth ih => simp [quoted, List.replicate_succ, ih, Except.map]

theorem oneLine_brackets (depth : Nat) : OneLine (List.replicate depth ']' ++ ['"']) := by
  intro c hc
  rcases List.mem_append.1 hc with hc | hc
  · exact OneLine.replicate (by decide) depth c hc
  · rw [List.mem_singleton.1 hc]
    decide

theorem exists_quoted {depth : Nat} {cs : List Char} (h : (quoted depth cs).isOk = false) :
    ∃ t inner, OneLine t ∧ quoted depth (cs ++ t) = .ok (inner, []) := by
  -- A backslash at the end gets a space to escape here too.
  have hescaped : ∀ depth, ∃ t inner, OneLine t ∧ quoted depth (['\\'] ++ t) = .ok (inner, []) := by
    intro depth
    refine ⟨' ' :: (List.replicate depth ']' ++ ['"']), '\\' :: ' ' :: List.replicate depth ']',
      .cons (by decide) (oneLine_brackets depth), ?_⟩
    simp [quoted, quoted_replicate, Except.map]
  fun_induction quoted depth cs with
  | case1 => exact ⟨_, _, oneLine_brackets 0, quoted_replicate 0⟩
  | case2 depth => exact ⟨_, _, oneLine_brackets (depth + 1), quoted_replicate (depth + 1)⟩
  | case3 => exact hescaped 0
  | case4 depth => exact hescaped (depth + 1)
  | case5 depth c cs ih =>
    rw [isOk_map] at h
    obtain ⟨t, inner, ht, hin⟩ := ih h
    exact ⟨t, '\\' :: c :: inner, ht, by simp [quoted, hin, Except.map]⟩
  | case6 cs => cases h
  | case7 cs _ _ _ ih | case9 depth cs _ _ ih =>
    rw [isOk_map] at h
    obtain ⟨t, inner, ht, hin⟩ := ih h
    exact ⟨t, '[' :: inner, ht, by simp [quoted, hin, Except.map]⟩
  | case10 depth cs _ _ _ ih =>
    rw [isOk_map] at h
    obtain ⟨t, inner, ht, hin⟩ := ih h
    exact ⟨t, ']' :: inner, ht, by simp [quoted, hin, Except.map]⟩
  | case8 c cs hlast hesc hquote hopen ih | case11 _ c cs hlast hesc hquote hopen ih =>
    rw [isOk_map] at h
    obtain ⟨t, inner, ht, hin⟩ := ih h
    exact ⟨t, c :: inner, ht, by
      simp [quoted, ne_backslash hlast hesc, hquote, hopen, hin, Except.map]⟩

/-- More text on the same line ends the word, just where the text ends. -/
def CanEnd (reader : List Char → Lexeme) (cs : List Char) : Prop :=
  ∃ t, OneLine t ∧ (reader (cs ++ t)).kind ≠ .illegal ∧ (reader (cs ++ t)).rest = []

theorem delimited_canEnd {kind : WordKind} (hkind : kind ≠ .illegal) {opening closing : Char}
    (hopening : closing ≠ opening) (hclosing : closing ≠ '\\')
    (hline : closing ≠ '\n' ∧ closing ≠ '\r') {missing : String} {cs : List Char}
    (h : (delimited kind opening closing missing (opening :: cs)).kind = .illegal) :
    CanEnd (delimited kind opening closing missing) (opening :: cs) := by
  rcases hin : enclosed opening closing 0 cs with _ | ⟨inner, rest⟩
  · obtain ⟨t, inner, ht, hin⟩ := exists_enclosed hopening hclosing hline hin
    have hread : delimited kind opening closing missing (opening :: cs ++ t) =
        ⟨kind, opening :: (inner ++ [closing]), inner, []⟩ := by
      simp only [delimited, List.cons_append, List.tail_cons, hin]
    exact ⟨t, ht, by rw [hread]; exact hkind, by rw [hread]⟩
  · simp only [delimited, List.tail_cons, hin] at h
    exact absurd h hkind

theorem quote_canEnd {cs : List Char} (h : (quote ('"' :: cs)).kind = .illegal) :
    CanEnd quote ('"' :: cs) := by
  rcases hin : quoted 0 cs with missing | ⟨inner, rest⟩
  · obtain ⟨t, inner, ht, hin⟩ := exists_quoted (show (quoted 0 cs).isOk = false by rw [hin]; rfl)
    have hread : quote ('"' :: cs ++ t) = ⟨.quote, '"' :: (inner ++ ['"']), inner, []⟩ := by
      simp only [quote, List.cons_append, List.tail_cons, hin]
    exact ⟨t, ht, by rw [hread]; exact WordKind.noConfusion, by rw [hread]⟩
  · simp only [quote, List.tail_cons, hin] at h
    cases h

theorem variableRef_canEnd {cs : List Char} (h : (variableRef ('$' :: cs)).kind = .illegal) :
    CanEnd variableRef ('$' :: cs) := by
  have hsplit := nameRun_append cs
  have href := reference cs
  generalize variableRef ('$' :: cs) = lex at h href
  cases href with
  | braced | alone | plain | element => cases h
  | openBrace htext hopen =>
    subst htext
    have hread := (Reference.braced rfl hopen : Reference _ ⟨_, _, _, []⟩).eq
    exact ⟨['}'], .cons (by decide) .nil, by
      rw [List.cons_append, List.cons_append, hread]; exact WordKind.noConfusion, by
      rw [List.cons_append, List.cons_append, hread]⟩
  | @openIndex c name inner hbrace hrun hindex =>
    obtain ⟨t, index, ht, hin⟩ := exists_enclosed (by decide) (by decide) (by decide) hindex
    rw [hrun] at hsplit
    have htext : cs ++ t = c :: name ++ '(' :: (inner ++ t) := by
      rw [← hsplit]
      simp
    have hread := (Reference.element (name_ne_brace hbrace hrun _) (nameRun_element hrun _) hin).eq
    rw [← htext] at hread
    refine ⟨t, ht, ?_, ?_⟩ <;> rw [List.cons_append, hread]
    exact WordKind.noConfusion

end Lexeme

namespace Scanner

open Lexeme

theorem commandLexeme_canEnd {start : Bool} {cs : List Char}
    (h : (commandLexeme start cs).kind = .illegal) : CanEnd (commandLexeme start) cs := by
  rcases cs with _ | ⟨c, cs⟩
  · cases h
  obtain ⟨reader, hreader, hread⟩ := exists_commandReader start c (startsBlank (c :: cs))
  rw [hread cs rfl] at h
  cases hreader with
  | separator | blank | comment | literal => cases h
  | block hc =>
    subst hc
    exact delimited_canEnd WordKind.noConfusion (by decide) (by decide) (by decide) h
  | script hc =>
    subst hc
    exact delimited_canEnd WordKind.noConfusion (by decide) (by decide) (by decide) h
  | quote hc =>
    subst hc
    exact quote_canEnd h
  | reference hc =>
    subst hc
    exact variableRef_canEnd h

/-- More text on the same line leaves no word open. -/
theorem exists_completion (start : Bool) (cs : List Char) :
    ∃ t, OneLine t ∧ ∀ w ∈ reading start (cs ++ t), w.kind ≠ .illegal := by
  induction hn : cs.length using Nat.strongRecOn generalizing start cs with
  | _ n ih =>
    by_cases hlegal : ∀ w ∈ reading start cs, w.kind ≠ .illegal
    · exact ⟨[], .nil, by rwa [List.append_nil]⟩
    rcases cs with _ | ⟨c, cs⟩
    · exact absurd (by simp [reading_nil, Lexeme.word, verbatim]) hlegal
    by_cases hfirst : (commandLexeme start (c :: cs)).kind = .illegal
    · obtain ⟨t, ht, hkind, hrest⟩ := commandLexeme_canEnd hfirst
      refine ⟨t, ht, ?_⟩
      rw [List.cons_append, reading_cons, ← List.cons_append, hrest, List.forall_mem_cons]
      exact ⟨hkind, by simp [reading_nil, Lexeme.word, verbatim]⟩
    · -- The word left open comes later, so what follows this word is in sight already.
      have htiles := tiles_commandLexeme start c cs
      rw [reading_cons, List.forall_mem_cons] at hlegal
      have hopen := fun h => hlegal ⟨hfirst, h⟩
      obtain ⟨t, ht, hread⟩ := ih _ (hn ▸ htiles.length_rest_lt) _ _ rfl
      have hsight : Replaces ((commandLexeme start (c :: cs)).rest ++ t)
          (commandLexeme start (c :: cs)).rest := by
        refine .inr (glimpse_append_right ?_ ?_ ?_ t) <;> intro hrest <;> rw [hrest] at hopen
        · exact hopen (by simp [reading_nil, Lexeme.word, verbatim])
        · refine hopen ?_
          generalize startAfter _ _ = start
          cases start <;> decide
        · refine hopen ?_
          generalize startAfter _ _ = start
          cases start <;> decide
      have hwords := reading_replace hsight
      rw [← List.append_assoc, htiles.append] at hwords
      exact ⟨t, ht, by rw [hwords, List.forall_mem_cons]; exact ⟨hfirst, hread⟩⟩

end Scanner

theorem exists_isComplete (script : String) :
    ∃ t : String, OneLine t.toList ∧ isComplete (script ++ t) = true := by
  obtain ⟨t, ht, hread⟩ := Scanner.exists_completion true script.toList
  refine ⟨String.ofList t, by rwa [String.toList_ofList], ?_⟩
  rwa [Builder.isComplete_iff_reading, String.toList_append, String.toList_ofList]

namespace Shell

variable {κ : Type}

/-- What is left of a command that has run: no lines, unless it is time to end. -/
def afterRun : Option Int → String ⊕ Int
  | none => .inl ""
  | some status => .inr status

/-- Lines that are complete are run, and none of them are kept. -/
theorem takeIn_of_isComplete (engine : Engine κ) {pending line : String}
    (h : isComplete (withLine pending line) = true) :
    takeIn engine pending line =
      (command? (withLine pending line)).elim (pure (.inl ""))
        fun command => afterRun <$> runTyped engine command := by
  simp only [takeIn, h, Bool.not_true, Bool.false_eq_true, if_false]
  cases command? (withLine pending line) with
  | none => rfl
  | some command =>
    rw [Option.elim_some, map_eq_pure_bind]
    refine bind_congr fun status? => ?_
    cases status? <;> rfl

/-- Whatever was typed, more of the same line completes it; and whatever lines are pending, one more
line completes them, so that they are run and the next prompt is not for a further line. -/
theorem input_can_be_completed (typed : String) :
    (∃ t : String, isComplete (typed ++ t) = true) ∧
      ∃ line : String, '\n' ∉ line.toList ∧ '\r' ∉ line.toList ∧
        isComplete (withLine typed line) = true ∧
        ∀ engine : Engine κ, takeIn engine typed line =
          (command? (withLine typed line)).elim (pure (.inl ""))
            fun command => afterRun <$> runTyped engine command := by
  obtain ⟨t, -, hcomplete⟩ := exists_isComplete typed
  obtain ⟨line, hline, hlines⟩ :=
    exists_isComplete (if typed.isEmpty then "" else typed ++ "\n")
  have hwith : withLine typed line = (if typed.isEmpty then "" else typed ++ "\n") ++ line := by
    unfold withLine
    split
    · exact (String.empty_append).symm
    · rfl
  rw [← hwith] at hlines
  exact ⟨⟨t, hcomplete⟩, line, fun h => (hline _ h).1 rfl, fun h => (hline _ h).2 rfl, hlines,
    fun engine => takeIn_of_isComplete engine hlines⟩

end Shell

end CommandScript
