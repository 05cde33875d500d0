import CommandScript.Proofs.Word.Lexeme

/-!
# Reading to the end

Each word but the last takes a character, so the length of a text is fuel enough to read it, and
more fuel changes nothing (`Scanner.readWith_eq`). That gives the words of a text without fuel
(`Scanner.wordsIn`), with an induction over the words still to be read
(`Scanner.reading_induction`). Where a text stands changes only the places of its words
(`Scanner.wordsIn_of_shifted`).
-/

namespace CommandScript

namespace Place

/-- The place that is `bytes` and `lines` further on, in the same column. -/
def shift (bytes lines : Nat) (p : Place) : Place where
  offset := p.offset + bytes
  line := p.line + lines
  column := p.column

theorem step_shift (bytes lines : Nat) (p : Place) (c : Char) :
    (p.shift bytes lines).step c = (p.step c).shift bytes lines := by
  unfold step shift
  split <;> simp only [Nat.add_right_comm]

theorem advance_shift (bytes lines : Nat) (p : Place) (cs : List Char) :
    (p.shift bytes lines).advance cs = (p.advance cs).shift bytes lines := by
  induction cs generalizing p with
  | nil => rfl
  | cons c cs ih => rw [advance_cons, advance_cons, step_shift, ih]

theorem line_advance (p : Place) (cs : List Char) :
    (p.advance cs).line = p.line + cs.count '\n' := by
  induction cs generalizing p with
  | nil => rfl
  | cons c cs ih =>
    rw [advance_cons, ih, List.count_cons]
    by_cases hc : c = '\n'
    · simp [step, hc, Nat.add_assoc, Nat.add_comm 1]
    · simp [step, hc]

end Place

/-- The word, moved with its text. -/
def Word.shift (bytes lines : Nat) (w : Word) : Word :=
  { w with start := w.start.shift bytes lines, stop := w.stop.shift bytes lines }

namespace Scanner

variable {mode : ScanMode}

/-! ## Fuel -/

theorem length_skipBlanks_le (s : Scanner) (mode : ScanMode) :
    (s.skipBlanks mode).rest.length ≤ s.rest.length := by
  cases mode
  case expression => exact (List.dropWhile_suffix _).length_le
  all_goals exact Nat.le_refl _

theorem kind_next_eq_eof_iff (s : Scanner) (mode : ScanMode) :
    (s.next mode).1.kind = .eof ↔ (s.skipBlanks mode).rest = [] := by
  show ((s.skipBlanks mode).lexeme mode).kind = .eof ↔ _
  constructor
  · intro heof
    exact Classical.byContradiction fun hrest => (tiles_lexeme hrest mode).kind_ne_eof heof
  · intro hrest
    rw [lexeme_of_rest_nil hrest]
    rfl

theorem length_rest_next_lt {s : Scanner} (h : (s.next mode).1.kind ≠ .eof) :
    (s.next mode).2.rest.length < s.rest.length := by
  rw [Ne, kind_next_eq_eof_iff] at h
  exact Nat.lt_of_lt_of_le (tiles_lexeme h mode).length_rest_lt (length_skipBlanks_le s mode)

theorem readWith_eq (modes : Nat → ScanMode) {fuel fuel' : Nat} (i : Nat) {s : Scanner}
    (h : s.rest.length < fuel) (h' : s.rest.length < fuel') :
    s.readWith modes fuel i = s.readWith modes fuel' i := by
  induction fuel generalizing fuel' i s with
  | zero => omega
  | succ fuel ih =>
    obtain ⟨fuel', rfl⟩ : ∃ n, fuel' = n + 1 := ⟨fuel' - 1, by omega⟩
    unfold readWith
    dsimp only
    split
    · rfl
    · rename_i hne
      have hlt := length_rest_next_lt hne
      have heq : (s.next (modes i)).2.readWith modes fuel (i + 1) =
          (s.next (modes i)).2.readWith modes fuel' (i + 1) := ih (i + 1) (by omega) (by omega)
      rw [heq]

theorem readWith_const_eq (mode : ScanMode) (fuel i j : Nat) (s : Scanner) :
    s.readWith (fun _ => mode) fuel i = s.readWith (fun _ => mode) fuel j := by
  induction fuel generalizing i j s with
  | zero => rfl
  | succ fuel ih =>
    unfold readWith
    dsimp only
    rw [ih (i + 1) (j + 1)]

/-! ## The words that are left -/

/-- The words from here on, read in one mode, through the `eof`. -/
def wordsIn (mode : ScanMode) (s : Scanner) : List Word :=
  (s.readWith (fun _ => mode) (s.rest.length + 1) 0).1

theorem wordsIn_ofString (mode : ScanMode) (text : String) :
    (ofString text).wordsIn mode = words mode text := rfl

theorem wordsIn_of_eof {s : Scanner} (h : (s.next mode).1.kind = .eof) :
    s.wordsIn mode = [(s.next mode).1] := by
  unfold wordsIn readWith
  dsimp only
  rw [if_pos h]

theorem wordsIn_of_ne_eof {s : Scanner} (h : (s.next mode).1.kind ≠ .eof) :
    s.wordsIn mode = (s.next mode).1 :: (s.next mode).2.wordsIn mode := by
  have hlt := length_rest_next_lt h
  unfold wordsIn
  rw [readWith]
  dsimp only
  rw [if_neg h, readWith_eq _ _ hlt (Nat.lt_succ_self _), readWith_const_eq mode _ _ 0]
  rfl

theorem reading_induction (mode : ScanMode) {motive : Scanner → Prop}
    (last : ∀ s, (s.next mode).1.kind = .eof → motive s)
    (more : ∀ s, (s.next mode).1.kind ≠ .eof → motive (s.next mode).2 → motive s) (s : Scanner) :
    motive s := by
  induction hn : s.rest.length using Nat.strongRecOn generalizing s with
  | _ n ih =>
    by_cases heof : (s.next mode).1.kind = .eof
    · exact last s heof
    · have hlt := length_rest_next_lt heof
      exact more s heof (ih _ (hn ▸ hlt) _ rfl)

/-- What holds of each word read where `motive` holds, if reading keeps it, holds of every word. -/
theorem forall_mem_wordsIn {motive : Scanner → Prop} {P : Word → Prop}
    (step : ∀ s, motive s → P (s.next mode).1 ∧ motive (s.next mode).2) {s : Scanner}
    (h : motive s) : ∀ w ∈ s.wordsIn mode, P w := by
  induction s using reading_induction mode with
  | last s heof =>
    rw [wordsIn_of_eof heof, List.forall_mem_singleton]
    exact (step s h).1
  | more s hne ih =>
    rw [wordsIn_of_ne_eof hne, List.forall_mem_cons]
    exact ⟨(step s h).1, ih (step s h).2⟩

theorem wordsIn_eq_append (mode : ScanMode) (s : Scanner) :
    ∃ (ws : List Word) (last : Word), s.wordsIn mode = ws ++ [last] ∧ last.kind = .eof ∧
      ∀ w ∈ ws, w.kind ≠ .eof := by
  induction s using reading_induction mode with
  | last s heof =>
    exact ⟨[], (s.next mode).1, wordsIn_of_eof heof, heof, fun w hw => absurd hw List.not_mem_nil⟩
  | more s hne ih =>
    obtain ⟨ws, last, hws, hlast, hnone⟩ := ih
    refine ⟨(s.next mode).1 :: ws, last, by rw [wordsIn_of_ne_eof hne, hws]; rfl, hlast, ?_⟩
    intro w hw
    rcases List.mem_cons.mp hw with rfl | hw
    · exact hne
    · exact hnone w hw

/-! ## Commands elsewhere -/

/-- A scanner that has the same script to read further on in a text. -/
structure Shifted (bytes lines : Nat) (s t : Scanner) : Prop where
  rest : t.rest = s.rest
  place : t.place = s.place.shift bytes lines
  atCommandStart : t.atCommandStart = s.atCommandStart

theorem Shifted.next {bytes lines : Nat} {s t : Scanner} (h : Shifted bytes lines s t) :
    (t.next .command).1 = (s.next .command).1.shift bytes lines ∧
      Shifted bytes lines (s.next .command).2 (t.next .command).2 := by
  have hlex : t.lexeme .command = s.lexeme .command := by
    simp only [lexeme, h.rest, h.atCommandStart]
  have hplace : ∀ cs, t.place.advance cs = (s.place.advance cs).shift bytes lines := fun cs => by
    rw [h.place, Place.advance_shift]
  refine ⟨?_, ?_, ?_, ?_⟩
  · simp only [Scanner.next, skipBlanks, past, Word.shift, hlex, h.place, Place.advance_shift]
  · simp only [Scanner.next, skipBlanks, past, hlex]
  · simp only [Scanner.next, skipBlanks, past, hlex, hplace]
  · simp only [Scanner.next, skipBlanks, hlex, commandStartAfter, h.atCommandStart]

theorem wordsIn_of_shifted {bytes lines : Nat} {s t : Scanner} (h : Shifted bytes lines s t) :
    t.wordsIn .command = (s.wordsIn .command).map (Word.shift bytes lines) := by
  induction s using reading_induction .command generalizing t with
  | last s heof =>
    have hkind : (t.next .command).1.kind = .eof := by rw [h.next.1]; exact heof
    rw [wordsIn_of_eof heof, wordsIn_of_eof hkind, h.next.1]
    rfl
  | more s hne ih =>
    have hkind : (t.next .command).1.kind ≠ .eof := by rw [h.next.1]; exact hne
    rw [wordsIn_of_ne_eof hne, wordsIn_of_ne_eof hkind, ih h.next.2, h.next.1]
    rfl

end Scanner

end CommandScript
