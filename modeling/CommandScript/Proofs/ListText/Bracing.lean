import CommandScript.Proofs.ListText.RoundTrip
import CommandScript.Proofs.Word.Spans

/-!
# Text that can stand in braces

`ListText.canBrace` decides, without reading anything, whether a text put in braces is read back:
it counts the braces and looks at the last backslash. Readers of blocks count too, from the opening
brace on, and stop at the brace that closes it. Both go through the text in the same steps, so that
they agree on every text (`enclosed_eq_some_iff`, by induction along `canBraceFrom`).

* `Lexeme.block_braced_iff`: the block that begins a text in braces.
* `canBrace_iff_reads_as_block`: the first word of a text in braces, read by characters or by bytes.
-/

namespace CommandScript

open ListText

/-! ## The closing brace -/

namespace Lexeme

variable {depth : Nat} {cs rest : List Char}

theorem canBraceFrom_of_enclosed
    (h : enclosed '{' '}' depth (cs ++ '}' :: rest) = some (cs, rest)) :
    canBraceFrom depth cs = true := by
  fun_induction canBraceFrom depth cs with
  | case1 depth =>
    cases depth with
    | zero => rfl
    | succ depth => simp [enclosed] at h
  | case2 depth =>
    -- The backslash has escaped the brace that was put after it.
    simp [enclosed] at h
  | case3 depth c cs ih =>
    refine ih ?_
    simpa [enclosed] using h
  | case4 depth cs _ _ ih =>
    refine ih ?_
    simpa [enclosed_opening] using h
  | case5 cs => simp [enclosed] at h
  | case6 cs _ _ depth _ ih =>
    refine ih ?_
    simpa [enclosed] using h
  | case7 depth c cs hlast hesc hopen hclose ih =>
    refine ih ?_
    simpa [enclosed_ordinary (ne_backslash hlast hesc) hopen hclose] using h

/-- The brace put after a text is the one that closes it just if the text passes `canBraceFrom`. -/
theorem enclosed_eq_some_iff :
    enclosed '{' '}' depth (cs ++ '}' :: rest) = some (cs, rest) ↔ canBraceFrom depth cs = true :=
  ⟨canBraceFrom_of_enclosed, enclosed_of_canBraceFrom rest⟩

theorem block_of_canBrace (h : canBrace cs = true) :
    block ('{' :: (cs ++ ['}'])) = ⟨.block, '{' :: (cs ++ ['}']), cs, []⟩ := by
  have henclosed : enclosed '{' '}' 0 (cs ++ ['}']) = some (cs, []) := enclosed_eq_some_iff.2 h
  simp [block, delimited, henclosed]

/-- A text in braces begins with a block of that text just if it can be braced. -/
theorem block_braced_iff :
    (block ('{' :: (cs ++ ['}']))).kind = .block ∧ (block ('{' :: (cs ++ ['}']))).text = cs ↔
      canBrace cs = true := by
  constructor
  · rintro ⟨hkind, htext⟩
    unfold block delimited at hkind htext
    rw [List.tail_cons] at hkind htext
    cases hfound : enclosed '{' '}' 0 (cs ++ ['}']) with
    | none =>
      rw [hfound] at hkind
      cases hkind
    | some found =>
      obtain ⟨inner, rest⟩ := found
      rw [hfound] at htext
      obtain rfl : inner = cs := htext
      have happend := eq_of_enclosed hfound
      have hrest : '}' :: rest = ['}'] := List.append_cancel_left happend
      rw [(List.cons.inj hrest).2] at hfound
      exact enclosed_eq_some_iff.1 hfound
  · intro h
    rw [block_of_canBrace h]
    exact ⟨rfl, rfl⟩

end Lexeme

/-! ## The first word of a text in braces -/

/-- A text in braces. -/
def braced (s : String) : String := "\x7b" ++ s ++ "\x7d"

theorem toList_braced (s : String) : (braced s).toList = '{' :: (s.toList ++ ['}']) := by
  simp [braced]

theorem words_eq_cons (mode : ScanMode) (text : String) :
    ∃ rest, words mode text = ((Scanner.ofString text).next mode).1 :: rest := by
  rw [← Scanner.wordsIn_ofString]
  by_cases heof : ((Scanner.ofString text).next mode).1.kind = .eof
  · exact ⟨[], Scanner.wordsIn_of_eof heof⟩
  · exact ⟨_, Scanner.wordsIn_of_ne_eof heof⟩

/-- The first word of a text in braces is a block of the text, and goes to the end. -/
def ReadsAsBlock (mode : ScanMode) (s : String) : Prop :=
  ∃ w rest, words mode (braced s) = w :: rest ∧ w.kind = .block ∧ w.text = s ∧
    w.start.offset = 0 ∧ w.stop.offset = (braced s).utf8ByteSize

/-- The first word of the bytes of a text in braces is a block of the bytes of the text, and is made
of all bytes. -/
def BytesReadAsBlock (mode : ScanMode) (s : String) : Prop :=
  ∃ rest, Scanner.readBytes (fun _ => mode) (braced s) =
    (.block, Text.toOctets (braced s), Text.toOctets s) :: rest

section

variable {mode : ScanMode} (hmode : mode = .command ∨ mode = .list) (s : String)

include hmode

/-- The word at the start of a text in braces is made of its block. -/
theorem next_braced :
    ((Scanner.ofString (braced s)).next mode).1 =
      (Scanner.ofString (braced s)).wordOf (Lexeme.block ('{' :: (s.toList ++ ['}']))) := by
  have hrest : (Scanner.ofString (braced s)).rest = '{' :: (s.toList ++ ['}']) := toList_braced s
  have hlexeme : (Scanner.ofString (braced s)).lexeme mode =
      Lexeme.block ('{' :: (s.toList ++ ['}'])) := by
    rcases hmode with rfl | rfl <;> rw [Scanner.lexeme, hrest] <;> rfl
  rw [← hlexeme]
  rcases hmode with rfl | rfl <;> rfl

theorem next_braced_iff :
    ((Scanner.ofString (braced s)).next mode).1.kind = .block ∧
        ((Scanner.ofString (braced s)).next mode).1.text = s ↔
      canBrace s.toList = true := by
  rw [next_braced hmode, ← Lexeme.block_braced_iff]
  refine and_congr_right fun _ => ?_
  show String.ofList _ = s ↔ _
  rw [← String.toList_inj, String.toList_ofList]

/-- The block of a text that can be braced takes both braces and all between them. -/
theorem source_next_braced (h : canBrace s.toList = true) :
    ((Scanner.ofString (braced s)).next mode).1.source = braced s := by
  rw [next_braced hmode, Lexeme.block_of_canBrace h, ← toList_braced]
  exact String.ofList_toList

theorem reads_as_block_iff : canBrace s.toList = true ↔ ReadsAsBlock mode s := by
  obtain ⟨rest, hwords⟩ := words_eq_cons mode (braced s)
  have hfirst := next_braced_iff hmode s
  constructor
  · intro h
    obtain ⟨hkind, htext⟩ := hfirst.2 h
    refine ⟨_, rest, hwords, hkind, htext, ?_, ?_⟩
    · rw [next_braced hmode]
      rfl
    · rw [next_braced hmode, Lexeme.block_of_canBrace h, ← toList_braced]
      show (Place.advance {} _).offset = _
      rw [Place.offset_advance, String.ofList_toList]
      exact Nat.zero_add _
  · rintro ⟨w, rest', hw, hkind, htext, -, -⟩
    rw [hwords] at hw
    obtain rfl := (List.cons.inj hw).1
    exact hfirst.1 ⟨hkind, htext⟩

theorem bytes_read_as_block_iff : canBrace s.toList = true ↔ BytesReadAsBlock mode s := by
  obtain ⟨rest, hwords⟩ := words_eq_cons mode (braced s)
  have hfirst := next_braced_iff hmode s
  have hbytes : Scanner.readBytes (fun _ => mode) (braced s) = _ :=
    (Scanner.readBytes_eq _ _).trans (congrArg (List.map Word.inBytes) hwords)
  rw [List.map_cons] at hbytes
  unfold BytesReadAsBlock
  rw [hbytes]
  constructor
  · intro h
    obtain ⟨hkind, htext⟩ := hfirst.2 h
    rw [Word.inBytes, hkind, htext, source_next_braced hmode s h]
    exact ⟨_, rfl⟩
  · rintro ⟨rest', heq⟩
    have hword := (List.cons.inj heq).1
    exact hfirst.1 ⟨congrArg Prod.fst hword,
      Text.toOctets_inj (congrArg (fun found => found.2.2) hword)⟩

end

/-- A text can be braced just if, put in braces, it is read as one block with all of it inside: as
the first word of a list or of a script, and whether characters or bytes are counted and skipped. -/
theorem canBrace_iff_reads_as_block (s : String) :
    (canBrace s.toList = true ↔ ReadsAsBlock .list s) ∧
    (canBrace s.toList = true ↔ ReadsAsBlock .command s) ∧
    (canBrace s.toList = true ↔ BytesReadAsBlock .list s) ∧
    (canBrace s.toList = true ↔ BytesReadAsBlock .command s) :=
  ⟨reads_as_block_iff (.inr rfl) s, reads_as_block_iff (.inl rfl) s,
    bytes_read_as_block_iff (.inr rfl) s, bytes_read_as_block_iff (.inl rfl) s⟩

end CommandScript
