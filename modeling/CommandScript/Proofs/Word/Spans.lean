import CommandScript.Proofs.Word.Bytes
import CommandScript.Proofs.Word.Scanner

/-!
# Spans

Words read one after the other, in whatever modes, cover a text: each begins where the one before
it ended, after blanks that are not reported in an expression, and takes at least a character, until
the last stands at the end. The places of words count bytes, and are places between characters.

* `Scanner.stands_next`: where one word stands in what was left to read.
* `Scanner.stands_readWith`: where each of many words stands, by induction on their number.
* `words_tile_text`: the words of a text, read as characters or byte by byte.
-/

namespace CommandScript

namespace Place

theorem offset_advance (p : Place) (cs : List Char) :
    (p.advance cs).offset = p.offset + (String.ofList cs).utf8ByteSize := by
  induction cs generalizing p with
  | nil => rfl
  | cons c cs ih =>
    rw [advance_cons, ih, String.ofList_cons, String.utf8ByteSize_append,
      String.utf8ByteSize_singleton, step, Nat.add_assoc]

end Place

/-- How a word stands in the characters `cs`, which begin at the place `p`: after the characters
`before`, which earlier words cover, and `gap`, which no word covers. It takes the characters
`taken` and leaves the characters `after`. -/
structure Word.Stands (w : Word) (mode : ScanMode) (p : Place)
    (cs before gap taken after : List Char) : Prop where
  eq_append : cs = before ++ (gap ++ (taken ++ after))
  start : w.start = (p.advance before).advance gap
  stop : w.stop = w.start.advance taken
  source : w.source = String.ofList taken
  blank : ∀ c ∈ gap, Lexeme.isSpaceOrNewline c = true
  gap_eq_nil : mode ≠ .expression → gap = []
  taken_ne_nil : w.kind ≠ .eof → taken ≠ []
  last : w.kind = .eof → taken = [] ∧ after = []

namespace Word.Stands

variable {w : Word} {mode : ScanMode} {p : Place} {cs before gap taken after : List Char}

/-- The same word in a text that begins earlier. -/
theorem prepend {used : List Char} (h : w.Stands mode (p.advance used) cs before gap taken after) :
    w.Stands mode p (used ++ cs) (used ++ before) gap taken after :=
  { h with
    eq_append := by rw [h.eq_append, List.append_assoc]
    start := by rw [h.start, Place.advance_append] }

end Word.Stands

namespace Scanner

/-! ## One word -/

theorem skipBlanks_eq (s : Scanner) (mode : ScanMode) :
    ∃ gap, s.rest = gap ++ (s.skipBlanks mode).rest ∧
      (s.skipBlanks mode).place = s.place.advance gap ∧
      (∀ c ∈ gap, Lexeme.isSpaceOrNewline c = true) ∧ (mode ≠ .expression → gap = []) := by
  cases mode with
  | expression =>
    refine ⟨s.rest.takeWhile Lexeme.isSpaceOrNewline, List.takeWhile_append_dropWhile.symm, rfl,
      fun c hc => List.all_eq_true.1 List.all_takeWhile c hc, fun h => absurd rfl h⟩
  | _ => exact ⟨[], rfl, rfl, fun c hc => absurd hc List.not_mem_nil, fun _ => rfl⟩

/-- The next word stands at the start of what is left, and the scanner goes on where it ends. -/
theorem stands_next (s : Scanner) (mode : ScanMode) :
    ∃ gap taken, (s.next mode).1.Stands mode s.place s.rest [] gap taken (s.next mode).2.rest ∧
      (s.next mode).2.place = s.place.advance (gap ++ taken) := by
  obtain ⟨gap, hrest, hplace, hblank, hgap⟩ := s.skipBlanks_eq mode
  let lex := (s.skipBlanks mode).lexeme mode
  have hstart : (s.next mode).1.start = s.place.advance gap := hplace
  have hstop : (s.next mode).2.place = s.place.advance (gap ++ lex.taken) := by
    rw [Place.advance_append, ← hplace]
    rfl
  have hend : (s.skipBlanks mode).rest = [] → lex.taken = [] ∧ lex.rest = [] := fun hnil => by
    simp only [lex, lexeme_of_rest_nil hnil]
    exact ⟨rfl, rfl⟩
  have htiles : (s.skipBlanks mode).rest ≠ [] → lex.Tiles (s.skipBlanks mode).rest := fun hne =>
    tiles_lexeme hne mode
  refine ⟨gap, lex.taken, ⟨?_, hstart, rfl, rfl, hblank, hgap, fun hk => ?_, fun hk => ?_⟩, hstop⟩
  · show s.rest = gap ++ (lex.taken ++ lex.rest)
    by_cases hnil : (s.skipBlanks mode).rest = []
    · rw [hrest, hnil, (hend hnil).1, (hend hnil).2]
      rfl
    · rw [(htiles hnil).append, ← hrest]
  · exact (htiles fun hnil => hk ((kind_next_eq_eof_iff s mode).2 hnil)).taken_ne_nil
  · exact hend ((kind_next_eq_eof_iff s mode).1 hk)

/-! ## Many words -/

section

variable (mode : Nat → ScanMode) {fuel : Nat} (i : Nat) {s : Scanner}

theorem readWith_of_eof (h : (s.next (mode i)).1.kind = .eof) :
    s.readWith mode (fuel + 1) i = ([(s.next (mode i)).1], (s.next (mode i)).2) := by
  unfold readWith
  dsimp only
  rw [if_pos h]

theorem readWith_of_ne_eof (h : (s.next (mode i)).1.kind ≠ .eof) :
    s.readWith mode (fuel + 1) i =
      ((s.next (mode i)).2.readWith mode fuel (i + 1)).map ((s.next (mode i)).1 :: ·) id := by
  rw [readWith]
  dsimp only
  rw [if_neg h]

/-- Reading comes to the one end of the text, with no more words before it than characters. -/
theorem readWith_eq_append (hfuel : s.rest.length < fuel) :
    ∃ ws last, (s.readWith mode fuel i).1 = ws ++ [last] ∧ (∀ w ∈ ws, w.kind ≠ .eof) ∧
      last.kind = .eof ∧ ws.length ≤ s.rest.length ∧ (s.readWith mode fuel i).2.rest = [] := by
  induction fuel generalizing i s with
  | zero => omega
  | succ fuel ih =>
    by_cases heof : (s.next (mode i)).1.kind = .eof
    · obtain ⟨gap, taken, hstands, -⟩ := s.stands_next (mode i)
      rw [readWith_of_eof mode i heof]
      exact ⟨[], _, rfl, fun w hw => absurd hw List.not_mem_nil, heof, Nat.zero_le _,
        (hstands.last heof).2⟩
    · have hlt := length_rest_next_lt heof
      obtain ⟨ws, last, hws, hnone, hlast, hlength, hrest⟩ :=
        ih (i + 1) (show (s.next (mode i)).2.rest.length < fuel by omega)
      rw [readWith_of_ne_eof mode i heof]
      refine ⟨(s.next (mode i)).1 :: ws, last, congrArg _ hws, ?_, hlast, ?_, hrest⟩
      · intro w hw
        rcases List.mem_cons.1 hw with rfl | hw
        · exact heof
        · exact hnone w hw
      · rw [List.length_cons]
        omega

/-- Each word stands where the one before it ended. -/
theorem stands_readWith (hfuel : s.rest.length < fuel) {k : Nat} {w : Word}
    (h : (s.readWith mode fuel i).1[k]? = some w) :
    ∃ before gap taken after, w.Stands (mode (i + k)) s.place s.rest before gap taken after ∧
      (k = 0 → before = []) ∧
      ∀ j v, k = j + 1 → (s.readWith mode fuel i).1[j]? = some v →
        v.stop = s.place.advance before := by
  induction fuel generalizing i s k with
  | zero => omega
  | succ fuel ih =>
    obtain ⟨gap, taken, hstands, hplace⟩ := s.stands_next (mode i)
    by_cases heof : (s.next (mode i)).1.kind = .eof
    · rw [readWith_of_eof mode i heof] at h ⊢
      cases k with
      | zero =>
        cases h
        exact ⟨[], gap, taken, _, hstands, fun _ => rfl, fun j v hj => by cases hj⟩
      | succ k => cases h
    · rw [readWith_of_ne_eof mode i heof] at h ⊢
      cases k with
      | zero =>
        cases h
        exact ⟨[], gap, taken, _, hstands, fun _ => rfl, fun j v hj => by cases hj⟩
      | succ k =>
        have hlt := length_rest_next_lt heof
        obtain ⟨before, gap', taken', after, hstands', hfirst, hprevious⟩ :=
          ih (i + 1) (show (s.next (mode i)).2.rest.length < fuel by omega) h
        rw [hplace] at hstands' hprevious
        have hrest : s.rest = (gap ++ taken) ++ (s.next (mode i)).2.rest := by
          rw [List.append_assoc]
          exact hstands.eq_append
        refine ⟨(gap ++ taken) ++ before, gap', taken', after, ?_, (fun hk => by cases hk), ?_⟩
        · rw [hrest, show i + (k + 1) = i + 1 + k by omega]
          exact hstands'.prepend
        · intro j v hj hv
          cases hj
          rw [Place.advance_append]
          cases k with
          | zero =>
            cases hv
            rw [hfirst rfl, hstands.stop, hstands.start, Place.advance_append]
            rfl
          | succ k => exact hprevious k v rfl hv

end

end Scanner

/-! ## Bytes -/

theorem extract_toByteArray (a b c : String) :
    (a ++ (b ++ c)).toByteArray.extract a.utf8ByteSize (a.utf8ByteSize + b.utf8ByteSize) =
      b.toByteArray := by
  have hnone : a.toByteArray.extract a.utf8ByteSize (a.utf8ByteSize + b.utf8ByteSize) =
      ByteArray.empty :=
    ByteArray.extract_eq_empty_iff.2 (Nat.le_trans (Nat.min_le_right _ _) (by simp))
  rw [String.toByteArray_append, ByteArray.extract_append, hnone, ByteArray.empty_append,
    String.size_toByteArray, Nat.sub_self, Nat.add_sub_cancel_left, String.toByteArray_append,
    ByteArray.extract_append_eq_left String.size_toByteArray.symm]

theorem isValid_append (a b : String) : String.Pos.Raw.IsValid (a ++ b) ⟨a.utf8ByteSize⟩ :=
  String.Pos.Raw.isValid_iff_exists_append.2 ⟨a, b, rfl, rfl⟩

namespace Word.Stands

variable {w : Word} {mode : ScanMode} {text : String} {before gap taken after : List Char}
  (h : w.Stands mode {} text.toList before gap taken after)

include h

theorem start_offset : w.start.offset = (String.ofList (before ++ gap)).utf8ByteSize := by
  rw [h.start, ← Place.advance_append, Place.offset_advance]
  exact Nat.zero_add _

theorem stop_offset : w.stop.offset = w.start.offset + (String.ofList taken).utf8ByteSize := by
  rw [h.stop, Place.offset_advance]

theorem eq_text :
    text = String.ofList (before ++ gap) ++ (String.ofList taken ++ String.ofList after) := by
  rw [← String.ofList_append, ← String.ofList_append, List.append_assoc, ← h.eq_append,
    String.ofList_toList]

theorem isValid_start : String.Pos.Raw.IsValid text ⟨w.start.offset⟩ := by
  have hvalid := isValid_append (String.ofList (before ++ gap))
    (String.ofList taken ++ String.ofList after)
  rwa [← h.eq_text, ← h.start_offset] at hvalid

theorem isValid_stop : String.Pos.Raw.IsValid text ⟨w.stop.offset⟩ := by
  have hvalid := isValid_append (String.ofList (before ++ gap) ++ String.ofList taken)
    (String.ofList after)
  rwa [String.append_assoc, ← h.eq_text, String.utf8ByteSize_append, ← h.start_offset,
    ← h.stop_offset] at hvalid

theorem extract_source :
    text.toByteArray.extract w.start.offset w.stop.offset = w.source.toByteArray := by
  have hextract := extract_toByteArray (String.ofList (before ++ gap)) (String.ofList taken)
    (String.ofList after)
  rwa [← h.eq_text, ← h.start_offset, ← h.stop_offset, ← h.source] at hextract

theorem start_lt_stop (hk : w.kind ≠ .eof) : w.start.offset < w.stop.offset := by
  have hpos := List.length_pos_iff.2 (h.taken_ne_nil hk)
  have hbytes := Text.length_le_utf8ByteSize taken
  rw [h.stop_offset]
  omega

theorem extract_gap :
    text.toByteArray.extract (String.ofList before).utf8ByteSize w.start.offset =
      (String.ofList gap).toByteArray := by
  have hextract := extract_toByteArray (String.ofList before) (String.ofList gap)
    (String.ofList taken ++ String.ofList after)
  rwa [← String.append_assoc, ← String.ofList_append, ← h.eq_text, ← String.utf8ByteSize_append,
    ← String.ofList_append, ← h.start_offset] at hextract

/-- The `eof` stands at the end of the text. -/
theorem start_of_eof (hk : w.kind = .eof) : w.start.offset = text.utf8ByteSize := by
  have htext := h.eq_text
  obtain ⟨rfl, rfl⟩ := h.last hk
  rw [h.start_offset, htext]
  simp

end Word.Stands

/-- Where the word before the `i`-th ends, or the text begins. -/
def endBefore (words : List Word) : Nat → Nat
  | 0 => 0
  | i + 1 => (words[i]?.map fun w => w.stop.offset).getD 0

/-- Reading a text word by word, each word in a mode of its own, comes to an `eof` at the end of the
text after no more words than there are bytes. All places of words are places between characters,
and between the start and the end of a word are the bytes of its source, of which there is at least
one unless it is the `eof`. A word starts where the one before it ended, or in an expression after
nothing but blanks and newlines. Reading byte by byte gives the same words, their sources and texts
in bytes, so no character is ever cut. -/
theorem words_tile_text (mode : Nat → ScanMode) (text : String) :
    let words := (Scanner.read mode text).1
    (∃ ws last, words = ws ++ [last] ∧ (∀ w ∈ ws, w.kind ≠ .eof) ∧ last.kind = .eof ∧
      last.start.offset = text.utf8ByteSize ∧ last.stop.offset = text.utf8ByteSize ∧
      ws.length ≤ text.utf8ByteSize ∧ (Scanner.read mode text).2.atEnd = true) ∧
    (∀ (i : Nat) (w : Word), words[i]? = some w →
      String.Pos.Raw.IsValid text ⟨w.start.offset⟩ ∧ String.Pos.Raw.IsValid text ⟨w.stop.offset⟩ ∧
      text.toByteArray.extract w.start.offset w.stop.offset = w.source.toByteArray ∧
      (w.kind ≠ .eof → w.start.offset < w.stop.offset) ∧
      (mode i ≠ .expression → w.start.offset = endBefore words i) ∧
      (mode i = .expression → ∃ gap : String,
        (∀ c ∈ gap.toList, Lexeme.isSpaceOrNewline c = true) ∧
        w.start.offset = endBefore words i + gap.utf8ByteSize ∧
        text.toByteArray.extract (endBefore words i) w.start.offset = gap.toByteArray)) ∧
    Scanner.readBytes mode text = words.map Word.inBytes := by
  intro words
  have hfuel : (Scanner.ofString text).rest.length < (Scanner.ofString text).rest.length + 1 :=
    Nat.lt_succ_self _
  have hstands := fun i w (hw : words[i]? = some w) => Scanner.stands_readWith mode 0 hfuel hw
  refine ⟨?_, fun i w hw => ?_, Scanner.readBytes_eq mode text⟩
  · obtain ⟨ws, last, hws, hnone, hlast, hlength, hrest⟩ := Scanner.readWith_eq_append mode 0 hfuel
    have hget : words[ws.length]? = some last := by
      show (Scanner.read mode text).1[ws.length]? = some last
      unfold Scanner.read
      rw [hws, List.getElem?_concat_length]
    obtain ⟨before, gap, taken, after, h, -, -⟩ := hstands _ _ hget
    have hstart := h.start_of_eof hlast
    have hstop : last.stop.offset = text.utf8ByteSize := by
      rw [h.stop_offset, (h.last hlast).1, hstart]
      rfl
    have hbytes := Text.length_le_utf8ByteSize text.toList
    rw [String.ofList_toList] at hbytes
    exact ⟨ws, last, hws, hnone, hlast, hstart, hstop, Nat.le_trans hlength hbytes,
      List.isEmpty_iff.2 hrest⟩
  · obtain ⟨before, gap, taken, after, h, hfirst, hprevious⟩ := hstands i w hw
    rw [Nat.zero_add] at h
    have hbefore : endBefore words i = (String.ofList before).utf8ByteSize := by
      cases i with
      | zero => rw [hfirst rfl]; rfl
      | succ j =>
        obtain ⟨hlt, -⟩ := List.getElem?_eq_some_iff.1 hw
        obtain ⟨v, hv⟩ : ∃ v, words[j]? = some v := ⟨_, List.getElem?_eq_getElem (by omega)⟩
        rw [endBefore, hv, Option.map_some, Option.getD_some, hprevious j v rfl hv,
          Place.offset_advance]
        exact Nat.zero_add _
    have hstart : w.start.offset = endBefore words i + (String.ofList gap).utf8ByteSize := by
      rw [h.start_offset, hbefore, String.ofList_append, String.utf8ByteSize_append]
    refine ⟨h.isValid_start, h.isValid_stop, h.extract_source, h.start_lt_stop, fun hmode => ?_,
      fun _ => ⟨String.ofList gap, fun c hc => h.blank c ?_, hstart, ?_⟩⟩
    · rw [hstart, h.gap_eq_nil hmode]
      rfl
    · rwa [String.toList_ofList] at hc
    · rw [hbefore]
      exact h.extract_gap

end CommandScript
