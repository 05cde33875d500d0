import CommandScript.Proofs.Script.Building
import CommandScript.Proofs.Word.Endings

/-!
# Scripts compose at newlines

A complete script that does not end in a backslash reads the same with a newline and more text
after it, and after the newline a command can begin again. So a script can be fed in pieces
(`Builder.all_append_newline`).
-/

namespace CommandScript

/-! ## Building further down -/

/-- The command as it is built `lines` further down. -/
def Command.delayed (lines : Nat) (c : Command) : Command := { c with line := c.line + lines }

/-- The draft as it is built `lines` further down. -/
def Draft.delayed (lines : Nat) (d : Draft) : Draft :=
  { d with begun := d.begun.map (·.map id (· + lines)) }

namespace Draft

variable (lines : Nat) (d : Draft)

theorem finish_delayed : (d.delayed lines).finish = d.finish.map (Command.delayed lines) := by
  unfold finish closeWord delayed
  cases d.begun with
  | none => rfl
  | some begun => cases h : d.pieces.isEmpty <;> simp [Command.delayed]

theorem space_delayed (blanks : String) :
    (d.delayed lines).space blanks = (d.space blanks).delayed lines := by
  unfold space closeWord delayed
  cases h : d.pieces.isEmpty <;> simp

theorem push_delayed (bytes : Nat) (w : Word) (v : Value) :
    (d.delayed lines).push (w.shift bytes lines) v = (d.push w v).delayed lines := by
  unfold push delayed
  cases d.begun with
  | none => rfl
  | some begun => rfl

end Draft

namespace Builder

variable {σ : Type}

/-- What building gives `lines` further down: the commands start there, and so does the word
`open?` that was left unterminated, whose error is the last result. -/
def delayed (lines : Nat) (open? : Option Word) (results : List (Except Stop Command)) :
    List (Except Stop Command) :=
  match open? with
  | none => results.map (Except.map (Command.delayed lines))
  | some w =>
    results.dropLast.map (Except.map (Command.delayed lines)) ++
      [.error (.raised (.ofFault { w.unterminated with line := w.line + lines }))]

/-- The word that a script leaves unterminated. -/
def openWord? (script : String) : Option Word :=
  (words .command script).find? (·.kind = .illegal)

theorem delayed_cons {lines : Nat} {open? : Option Word} {results : List (Except Stop Command)}
    (h : open?.isSome = true → results ≠ []) (r : Except Stop Command) :
    delayed lines open? (r :: results) =
      r.map (Command.delayed lines) :: delayed lines open? results := by
  cases open? with
  | none => rfl
  | some w =>
    simp only [delayed]
    rw [List.dropLast_cons_of_ne_nil (h rfl)]
    rfl

/-- The error of an unterminated word is the last result. -/
theorem getLast?_stream {sub : Substitutor σ} {ws : List Word} (hws : ∀ w ∈ ws, w.kind ≠ .eof)
    {w : Word} (hopen : ws.find? (·.kind = .illegal) = some w) (last : Word) (d : Draft) (s : σ) :
    (stream sub d (ws ++ [last]) s).1.getLast? =
      some (.error (.raised (.ofFault w.unterminated))) := by
  induction ws generalizing d s with
  | nil => cases hopen
  | cons x ws ih =>
    have ih := fun hopen d s => ih (fun w hmem => hws w (List.mem_cons_of_mem _ hmem)) hopen d s
    rw [List.cons_append]
    rcases x.kind.role with h | h | h | h | h | h
    · exact absurd h (hws x List.mem_cons_self)
    · rw [List.find?_cons_of_neg (by simp [h])] at hopen
      rw [stream_eol h]
      simp [ih hopen]
    · rw [List.find?_cons_of_neg (by simp [h])] at hopen
      rw [stream_blank h, ih hopen]
    · rw [List.find?_cons_of_neg (by simp [h])] at hopen
      rw [stream_comment h, ih hopen]
    · rw [List.find?_cons_of_pos (by simp [h])] at hopen
      cases hopen
      rw [stream_illegal h]
      rfl
    · rw [List.find?_cons_of_neg (by simp [WordKind.ne_illegal_of_isPiece h])] at hopen
      cases hv : sub.word x s with
      | ok v s' => rw [stream_ok h hv, ih hopen]
      | error stop s' =>
        rw [stream_error h hv]
        simp [ih hopen, List.getLast?_cons]

theorem stream_ne_nil {sub : Substitutor σ} {ws : List Word} (hws : ∀ w ∈ ws, w.kind ≠ .eof)
    (hopen : (ws.find? (·.kind = .illegal)).isSome = true) (last : Word) (d : Draft) (s : σ) :
    (stream sub d (ws ++ [last]) s).1 ≠ [] := by
  obtain ⟨w, hw⟩ := Option.isSome_iff_exists.mp hopen
  intro hnil
  have hlast : (stream sub d (ws ++ [last]) s).1.getLast? = some _ :=
    getLast?_stream hws hw last d s
  rw [hnil] at hlast
  cases hlast

/-- Words further down give the same results, further down. -/
theorem stream_shift {sub : Substitutor σ} {ws : List Word} (hws : ∀ w ∈ ws, w.kind ≠ .eof)
    {last : Word} (hlast : last.kind = .eof) (bytes lines : Nat) (d : Draft) (s : σ) :
    stream sub (d.delayed lines) ((ws ++ [last]).map (Word.shift bytes lines)) s =
      (stream sub d (ws ++ [last]) s).map
        (delayed lines (ws.find? (·.kind = .illegal))) id := by
  induction ws generalizing d s with
  | nil =>
    have hlast' : (last.shift bytes lines).kind = .eof := hlast
    simp only [List.nil_append, List.map_cons, List.map_nil]
    rw [stream_eof hlast', stream_eof hlast, Draft.finish_delayed]
    cases d.finish <;> rfl
  | cons w ws ih =>
    have hws' : ∀ w ∈ ws, w.kind ≠ .eof := fun w hmem => hws w (List.mem_cons_of_mem _ hmem)
    have ih := fun d s => ih hws' d s
    have hne : ∀ s, (ws.find? (·.kind = .illegal)).isSome = true →
        (stream sub {} (ws ++ [last]) s).1 ≠ [] :=
      fun s hopen => stream_ne_nil hws' hopen last {} s
    rw [List.cons_append, List.map_cons]
    rcases hrole : w.kind.role with h | h | h | h | h | h
    · exact absurd h (hws w List.mem_cons_self)
    · have h' : (w.shift bytes lines).kind = .eol := h
      rw [List.find?_cons_of_neg (by simp [h]), stream_eol h', stream_eol h,
        Draft.finish_delayed, show ({} : Draft) = Draft.delayed lines {} from rfl, ih]
      cases d.finish with
      | none => rfl
      | some c => exact Prod.ext (delayed_cons (hne s) (.ok c)).symm rfl
    · have h' : (w.shift bytes lines).kind = .blank := h
      rw [List.find?_cons_of_neg (by simp [h]), stream_blank h', stream_blank h,
        Draft.space_delayed, ih]
      rfl
    · have h' : (w.shift bytes lines).kind = .comment := h
      rw [List.find?_cons_of_neg (by simp [h]), stream_comment h', stream_comment h, ih]
    · have h' : (w.shift bytes lines).kind = .illegal := h
      rw [List.find?_cons_of_pos (by simp [h]), stream_illegal h', stream_illegal h]
      rfl
    · have h' : (w.shift bytes lines).kind.isPiece = true := h
      rw [List.find?_cons_of_neg (by simp [WordKind.ne_illegal_of_isPiece h])]
      -- A value depends on the kind and the text of its word only.
      have hword : sub.word (w.shift bytes lines) s = sub.word w s := rfl
      cases hv : sub.word w s with
      | ok v s' =>
        rw [stream_ok h' (hword.trans hv), stream_ok h hv, Draft.push_delayed, ih]
      | error stop s' =>
        rw [stream_error h' (hword.trans hv), stream_error h hv,
          show ({} : Draft) = Draft.delayed lines {} from rfl, ih]
        exact Prod.ext (delayed_cons (hne s') (.error stop)).symm rfl

theorem find?_append_eof {ws : List Word} {last : Word} (hlast : last.kind = .eof) :
    (ws ++ [last]).find? (·.kind = .illegal) = ws.find? (·.kind = .illegal) := by
  rw [List.find?_append, List.find?_cons_of_neg (by simp [hlast]), List.find?_nil, Option.or_none]

/-- Feeding a script in pieces: a complete script that does not end in a backslash, a newline and
another script give what the first gives and then what the second gives from the state that was
reached, only further down. If the second leaves a word unterminated, its error comes last. -/
theorem all_append_newline (sub : Substitutor σ) (a b : String) (s : σ)
    (hcomplete : isComplete a = true) (hend : a.toList.getLast? ≠ some '\\') :
    all sub (a ++ "\n" ++ b) s =
      ((all sub a s).1 ++
          delayed (1 + a.toList.count '\n') (openWord? b) (all sub b (all sub a s).2).1,
        (all sub b (all sub a s).2).2) ∧
    ∀ w ∈ openWord? b, ∀ t, (all sub b t).1.getLast? =
      some (.error (.raised (.ofFault w.unterminated))) := by
  have hlegal : ∀ w ∈ (Scanner.ofString a).wordsIn .command, w.kind ≠ .illegal := by
    simpa [isComplete, ← Scanner.wordsIn_ofString] using hcomplete
  obtain ⟨ws, last, sep, t, hws, hlast, hnone, hmore, hsep, hrest, hplace, hstart⟩ :=
    Scanner.wordsIn_extended (s := .ofString a) hend hlegal b.toList
  obtain ⟨vs, end', hvs, hend', hvnone⟩ := Scanner.wordsIn_eq_append .command (.ofString b)
  have hopen : openWord? b = vs.find? (·.kind = .illegal) := by
    rw [openWord?, ← Scanner.wordsIn_ofString, hvs, find?_append_eof hend']
  have hb : ∀ t, all sub b t = stream sub {} (vs ++ [end']) t := fun t => by
    rw [all_eq_stream, ← Scanner.wordsIn_ofString, hvs]
  refine ⟨?_, fun w hw t => ?_⟩
  · have htext : Scanner.ofString (a ++ "\n" ++ b) =
        (Scanner.ofString a).extended ('\n' :: b.toList) := by
      simp [Scanner.ofString, Scanner.extended]
    have hshifted : Scanner.Shifted t.place.offset (1 + a.toList.count '\n') (.ofString b) t := by
      refine ⟨hrest, ?_, hstart⟩
      have hline : (({} : Place).advance a.toList).line = 1 + a.toList.count '\n' :=
        Place.line_advance {} a.toList
      rw [hplace]
      simp only [Place.step, Place.shift, Scanner.ofString, if_pos, hline, Place.mk.injEq]
      exact ⟨(Nat.zero_add _).symm, Nat.add_comm _ 1, trivial⟩
    have hlegal' : ∀ w ∈ ws, w.kind ≠ .eof ∧ w.kind ≠ .illegal := fun w hw =>
      ⟨hnone w hw, hlegal w (hws ▸ List.mem_append_left _ hw)⟩
    rw [all_eq_stream sub (a ++ "\n" ++ b), ← Scanner.wordsIn_ofString, htext, hmore,
      stream_append_eol hsep hlast hlegal', ← hws, Scanner.wordsIn_ofString, ← all_eq_stream,
      Scanner.wordsIn_of_shifted hshifted, hvs, show ({} : Draft) = Draft.delayed _ {} from rfl,
      stream_shift hvnone hend', hb, hopen]
    rfl
  · rw [hb, hopen] at *
    exact getLast?_stream hvnone hw end' {} t

/-- A substitutor that answers with the question and counts the questions. -/
def echo : Substitutor Nat where
  resolve name := fun n => .ok (.string name) (n + 1)
  execute script := fun n => .ok (.string script) (n + 1)

theorem all_append_newline_open_quote :
    isComplete "set x [y]\nputs $z" = true ∧
      "set x [y]\nputs $z".toList.getLast? ≠ some '\\' ∧
      all echo ("set x [y]\nputs $z" ++ "\n" ++ "w [v]\nu \"t") 0 =
        ([.ok ⟨[.string "set", .string "x", .string "y"], "set x [y]", 1⟩,
          .ok ⟨[.string "puts", .string "z"], "puts $z", 2⟩,
          .ok ⟨[.string "w", .string "v"], "w [v]", 3⟩,
          .error (.raised (.ofFault (⟨"missing \"", 4, 3⟩ : Unterminated)))], 3) := by
  refine ⟨by decide, by decide, ?_⟩
  rw [(all_append_newline echo _ _ 0 (by decide) (by decide)).1]
  rfl

end Builder

end CommandScript
