import CommandScript.Proofs.Word.Octets

/-!
# Reading byte by byte

A scanner that is given the bytes of a text reads the words of the text, in bytes: it cuts only
between characters. In all modes but one it does so with each byte taken for a character. A
character that no expression has would come to pieces that way, so there the bytes that go on with a
character are taken with the first (`byteLexeme`).

* `byteLexeme_octets`: the lexeme read from bytes is the lexeme in bytes.
* `InBytes.next`: a scanner of the bytes follows the scanner of the characters, word by word.
* `readBytes_eq`: hence the words read byte by byte are the words of the text.
-/

namespace CommandScript

/-- The kind of a word, its source and its text in bytes. -/
def Word.inBytes (w : Word) : WordKind × String × String :=
  (w.kind, Text.toOctets w.source, Text.toOctets w.text)

namespace Scanner

open Text Lexeme

/-! ## Lexemes -/

theorem startsBlank_cons {c : Char} {cs : List Char}
    (hesc : ∀ ds, c = '\\' → cs = '\n' :: ds → False) : startsBlank (c :: cs) = isSpace c := by
  unfold startsBlank
  split
  · rename_i heq
    cases heq
    exact (hesc _ rfl rfl).elim
  · rename_i heq
    cases heq
    rfl
  · rename_i heq
    cases heq

theorem startsBlank_octets (cs : List Char) : startsBlank (octets cs) = startsBlank cs := by
  cases cs with
  | nil => rfl
  | cons c cs =>
    by_cases hesc : ∃ ds, c = '\\' ∧ cs = '\n' :: ds
    · obtain ⟨ds, rfl, rfl⟩ := hesc
      rw [octets_cons_ascii (by decide), octets_cons_ascii (by decide)]
      rfl
    · have hesc : ∀ ds, c = '\\' → cs = '\n' :: ds → False := fun ds hc hcs => hesc ⟨ds, hc, hcs⟩
      rw [startsBlank_cons hesc]
      rcases octetsOf_cases c with ⟨-, hbytes⟩ | ⟨hbeyond, b, bs, hbytes, hlead, -⟩
      · rw [octets_cons, hbytes, List.singleton_append,
          startsBlank_cons fun ds => pair_of_octets (by decide) hesc]
      · have hb : 128 ≤ b.toNat := by omega
        rw [octets_cons, hbytes, List.cons_append,
          startsBlank_cons fun ds h => absurd h (ne_of_beyond hb (by decide)),
          withinAscii_isSpace b hb, withinAscii_isSpace c hbeyond]

theorem withinAscii_endsCommandLiteral : WithinAscii endsCommandLiteral := by
  intro c hc
  unfold endsCommandLiteral
  split <;> first | rfl | exact absurd hc (by decide)

theorem withinAscii_endsQuotedLiteral : WithinAscii endsQuotedLiteral := by
  intro c hc
  simp [endsQuotedLiteral, ne_of_beyond hc]

theorem withinAscii_endsListLiteral : WithinAscii endsListLiteral := by
  intro c hc
  unfold endsListLiteral
  split <;> first | rfl | exact absurd hc (by decide)

theorem literal_octets {stop : Char → Bool} (hstop : WithinAscii stop) (cs : List Char) :
    literal stop (octets cs) = (literal stop cs).inOctets := by
  simp only [literal, literalRun_octets hstop]
  rfl

theorem block_octets (cs : List Char) : block (octets ('{' :: cs)) = (block ('{' :: cs)).inOctets :=
  delimited_octets (by decide) (by decide) (by decide) (by decide) _ rfl cs

theorem script_octets (cs : List Char) :
    script (octets ('[' :: cs)) = (script ('[' :: cs)).inOctets :=
  delimited_octets (by decide) (by decide) (by decide) (by decide) _ rfl cs

theorem blank_octets (newlines : Bool) (cs : List Char) :
    blank newlines (octets cs) = (blank newlines cs).inOctets := by
  simp only [blank, blanks_octets]
  rfl

theorem comment_octets (cs : List Char) :
    comment (octets ('#' :: cs)) = (comment ('#' :: cs)).inOctets := by
  have hopen : octets ('#' :: cs) = '#' :: octets cs := octets_cons_ascii (by decide) cs
  simp [comment, hopen, commentText_octets, inOctets, octetsOf_ascii]

/-- A reader that takes what is beyond ASCII for literal text reads the bytes of a text if it does
so where it begins with an ASCII character. -/
theorem reader_octets {reader : List Char → Lexeme} {stop : Char → Bool} (hstop : WithinAscii stop)
    (hend : reader [] = (reader []).inOctets)
    (hascii : ∀ {c : Char} (cs : List Char), c.toNat < 128 →
      reader (c :: octets cs) = (reader (c :: cs)).inOctets)
    (hbeyond : ∀ {c : Char} (cs : List Char), 128 ≤ c.toNat →
      reader (c :: cs) = literal stop (c :: cs)) (cs : List Char) :
    reader (octets cs) = (reader cs).inOctets := by
  cases cs with
  | nil => exact hend
  | cons c cs =>
    rcases octetsOf_cases c with ⟨hc, -⟩ | ⟨hc, b, bs, hbytes, hlead, -⟩
    · rw [octets_cons_ascii hc]
      exact hascii cs hc
    · rw [hbeyond cs hc, ← literal_octets hstop, octets_cons, hbytes, List.cons_append,
        hbeyond _ (by omega)]

theorem commandLexeme_octets (start : Bool) (cs : List Char) :
    commandLexeme start (octets cs) = (commandLexeme start cs).inOctets := by
  refine reader_octets withinAscii_endsCommandLiteral rfl (fun {c} cs hc => ?_)
    (fun {c} cs hc => by simp [commandLexeme, startsBlank, isSpace, ne_of_beyond hc]) cs
  have hopen : octets (c :: cs) = c :: octets cs := octets_cons_ascii hc cs
  have hblank := startsBlank_octets (c :: cs)
  rw [hopen] at hblank
  unfold commandLexeme
  dsimp only
  rw [hblank, ← hopen]
  simp only [apply_ite inOctets]
  refine ite_congr rfl (fun _ => ?_) fun _ => ?_
  · simp [verbatim, inOctets, octetsOf_ascii hc]
  refine ite_congr rfl (fun _ => blank_octets false _) fun _ => ?_
  refine ite_congr rfl (fun h => ?_) fun _ => ?_
  · obtain ⟨rfl, -⟩ : c = '#' ∧ start = true := by simpa using h
    exact comment_octets cs
  refine ite_congr rfl (fun h => h ▸ block_octets cs) fun _ => ?_
  refine ite_congr rfl (fun h => h ▸ script_octets cs) fun _ => ?_
  refine ite_congr rfl (fun h => h ▸ quote_octets cs) fun _ => ?_
  refine ite_congr rfl (fun h => h ▸ variableRef_octets cs) fun _ => ?_
  exact literal_octets withinAscii_endsCommandLiteral _

theorem quotedLexeme_octets (cs : List Char) :
    quotedLexeme (octets cs) = (quotedLexeme cs).inOctets := by
  refine reader_octets withinAscii_endsQuotedLiteral rfl (fun {c} cs hc => ?_)
    (fun {c} cs hc => by simp [quotedLexeme, ne_of_beyond hc]) cs
  unfold quotedLexeme
  dsimp only
  rw [← octets_cons_ascii hc]
  simp only [apply_ite inOctets]
  refine ite_congr rfl (fun h => h ▸ variableRef_octets cs) fun _ => ?_
  refine ite_congr rfl (fun h => h ▸ script_octets cs) fun _ => ?_
  exact literal_octets withinAscii_endsQuotedLiteral _

theorem listLexeme_octets (start : Bool) (cs : List Char) :
    listLexeme start (octets cs) = (listLexeme start cs).inOctets := by
  refine reader_octets withinAscii_endsListLiteral rfl (fun {c} cs hc => ?_)
    (fun {c} cs hc => by simp [listLexeme, startsBlank, isSpace, ne_of_beyond hc]) cs
  have hopen : octets (c :: cs) = c :: octets cs := octets_cons_ascii hc cs
  have hblank := startsBlank_octets (c :: cs)
  rw [hopen] at hblank
  unfold listLexeme
  dsimp only
  rw [hblank, ← hopen]
  simp only [apply_ite inOctets]
  refine ite_congr rfl (fun _ => blank_octets true _) fun _ => ?_
  refine ite_congr rfl (fun h => ?_) fun _ => ?_
  · obtain ⟨rfl, -⟩ : c = '{' ∧ start = true := by simpa using h
    exact block_octets cs
  refine ite_congr rfl (fun h => ?_) fun _ => ?_
  · obtain ⟨rfl, -⟩ : c = '"' ∧ start = true := by simpa using h
    exact quote_octets cs
  refine ite_congr rfl (fun h => h ▸ script_octets cs) fun _ => ?_
  refine ite_congr rfl (fun h => h ▸ variableRef_octets cs) fun _ => ?_
  exact literal_octets withinAscii_endsListLiteral _

theorem expressionLexeme_octets {c : Char} (hc : c.toNat < 128) (cs : List Char) :
    expressionLexeme (octets (c :: cs)) = (expressionLexeme (c :: cs)).inOctets := by
  have hopen : octets (c :: cs) = c :: octets cs := octets_cons_ascii hc cs
  rw [hopen]
  unfold expressionLexeme
  dsimp only
  rw [← hopen, withinAscii_isDigit.any_head?]
  simp only [apply_ite inOctets]
  refine ite_congr rfl (fun _ => number_octets _) fun _ => ?_
  refine ite_congr rfl (fun _ => ?_) fun _ => ?_
  · rw [takeWhile_octets withinAscii_isNameChar, dropWhile_octets withinAscii_isNameChar]
    rfl
  refine ite_congr rfl (fun h => h ▸ variableRef_octets cs) fun _ => ?_
  refine ite_congr rfl (fun h => h ▸ script_octets cs) fun _ => ?_
  refine ite_congr rfl (fun h => h ▸ quote_octets cs) fun _ => ?_
  refine ite_congr rfl (fun h => h ▸ block_octets cs) fun _ => ?_
  exact operator_octets hc cs

theorem expressionLexeme_of_beyond {c : Char} (hc : 128 ≤ c.toNat) (cs : List Char) :
    expressionLexeme (c :: cs) =
      ⟨.illegal, [c], "unexpected character \"".toList ++ [c, '"'], cs⟩ := by
  have hop : ∀ next, operator? c next = none := by
    intro next
    unfold operator?
    split <;> first | rfl | exact absurd hc (by decide)
  simp [expressionLexeme, withinAscii_isDigit c hc, withinAscii_isAlpha c hc, ne_of_beyond hc,
    operator, hop]

/-! ## Reading bytes -/

/-- Whether a byte goes on with the character that was begun before it. -/
def continues (b : Char) : Bool := 128 ≤ b.toNat && b.toNat < 192

theorem span_continues {bs : List Char} (hbs : ∀ x ∈ bs, 128 ≤ x.toNat ∧ x.toNat < 192)
    (cs : List Char) :
    (bs ++ octets cs).takeWhile continues = bs ∧
      (bs ++ octets cs).dropWhile continues = octets cs := by
  have hall : ∀ x ∈ bs, continues x = true := fun x hx => by simp [continues, hbs x hx]
  have hnone : (octets cs).takeWhile continues = [] ∧
      (octets cs).dropWhile continues = octets cs := by
    cases cs with
    | nil => exact ⟨rfl, rfl⟩
    | cons c cs =>
      obtain ⟨b, rest, hbytes, hb⟩ : ∃ b rest, octetsOf c = b :: rest ∧ continues b = false := by
        rcases octetsOf_cases c with ⟨hc, hbytes⟩ | ⟨-, b, rest, hbytes, hlead, -⟩
        · exact ⟨c, [], hbytes, by simp [continues]; omega⟩
        · exact ⟨b, rest, hbytes, by simp [continues]; omega⟩
      simp [hbytes, hb]
  rw [List.takeWhile_append_of_pos hall, List.dropWhile_append_of_pos hall, hnone.1, hnone.2]
  exact ⟨List.append_nil bs, rfl⟩

/-- The lexeme of a text of bytes. A byte that begins no token of an expression is taken with
those that go on with its character; otherwise each byte is a character of its own. -/
def byteLexeme (s : Scanner) (mode : ScanMode) : Lexeme :=
  match mode, s.rest with
  | .expression, b :: bs =>
    if b.toNat < 128 then expressionLexeme (b :: bs)
    else
      let taken := b :: bs.takeWhile continues
      ⟨.illegal, taken, "unexpected character \"".toList ++ taken ++ ['"'], bs.dropWhile continues⟩
  | _, _ => s.lexeme mode

/-- A scanner of the bytes of what another has to read. -/
structure InBytes (s t : Scanner) : Prop where
  rest : t.rest = octets s.rest
  atElementStart : t.atElementStart = s.atElementStart
  atCommandStart : t.atCommandStart = s.atCommandStart

variable {s t : Scanner}

theorem byteLexeme_octets (h : InBytes s t) (mode : ScanMode) :
    t.byteLexeme mode = (s.lexeme mode).inOctets := by
  cases mode with
  | command =>
    simp only [byteLexeme, lexeme, h.rest, h.atCommandStart]
    exact commandLexeme_octets _ _
  | quoted =>
    simp only [byteLexeme, lexeme, h.rest]
    exact quotedLexeme_octets _
  | list =>
    simp only [byteLexeme, lexeme, h.rest, h.atElementStart]
    exact listLexeme_octets _ _
  | expression =>
    have hbytes := h.rest
    cases hrest : s.rest with
    | nil =>
      rw [hrest] at hbytes
      simp only [byteLexeme, lexeme, hbytes, hrest]
      rfl
    | cons c cs =>
      rw [hrest] at hbytes
      rcases octetsOf_cases c with ⟨hc, -⟩ | ⟨hbeyond, b, bs, hlead, hb, hmore⟩
      · have hlex := expressionLexeme_octets hc cs
        rw [octets_cons_ascii hc] at hbytes hlex
        simp only [byteLexeme, lexeme, hbytes, hrest, if_pos hc, hlex]
      · rw [octets_cons, hlead, List.cons_append] at hbytes
        have hmessage :
            octets "unexpected character \"".toList = "unexpected character \"".toList :=
          octets_of_isAscii rfl
        simp only [byteLexeme, lexeme, hbytes, hrest, if_neg (show ¬b.toNat < 128 by omega),
          span_continues hmore cs, expressionLexeme_of_beyond hbeyond, inOctets, octets_append,
          octets_cons, octets_nil, hlead, hmessage, octetsOf_ascii (show '"'.toNat < 128 by decide)]
        simp

theorem withinAscii_isSpaceOrNewline : WithinAscii isSpaceOrNewline := by
  intro c hc
  simp [isSpaceOrNewline, withinAscii_isSpace c hc, ne_of_beyond hc]

theorem InBytes.past (h : InBytes s t) (taken rest : List Char) :
    InBytes (s.past taken rest) (t.past (octets taken) (octets rest)) := by
  refine ⟨rfl, ?_, h.atCommandStart⟩
  show ((octets taken).getLast?.or t.previous).all isSpaceOrNewline =
    (taken.getLast?.or s.previous).all isSpaceOrNewline
  rcases List.eq_nil_or_concat taken with rfl | ⟨init, c, rfl⟩
  · exact h.atElementStart
  · obtain ⟨x, hlast⟩ : ∃ x, (octetsOf c).getLast? = some x := by
      obtain ⟨b, bs, hbytes, -⟩ := octetsOf_eq_cons c
      exact ⟨_, by rw [hbytes]; exact List.getLast?_cons⟩
    have hclass : isSpaceOrNewline x = isSpaceOrNewline c := by
      have hmem := List.mem_of_getLast? hlast
      rcases octetsOf_cases c with ⟨-, hbytes⟩ | ⟨hbeyond, -⟩
      · rw [hbytes, List.mem_singleton] at hmem
        rw [hmem]
      · rw [withinAscii_isSpaceOrNewline x (beyond_of_mem_octetsOf hbeyond hmem),
          withinAscii_isSpaceOrNewline c hbeyond]
    simp [hlast, hclass]

theorem InBytes.skipBlanks (h : InBytes s t) (mode : ScanMode) :
    InBytes (s.skipBlanks mode) (t.skipBlanks mode) := by
  cases mode with
  | expression =>
    unfold Scanner.skipBlanks
    rw [h.rest, takeWhile_octets withinAscii_isSpaceOrNewline,
      dropWhile_octets withinAscii_isSpaceOrNewline]
    exact h.past _ _
  | _ => exact h

/-- Reads a word byte by byte. -/
def nextBytes (s : Scanner) (mode : ScanMode) : Lexeme × Scanner :=
  let s := s.skipBlanks mode
  let lex := s.byteLexeme mode
  (lex, { s.past lex.taken lex.rest with atCommandStart := s.commandStartAfter mode lex.kind })

/-- Reads up to `fuel` words byte by byte, the `i`-th in mode `mode i`, through the first `eof`:
their kinds, sources and texts. -/
def readBytesWith (mode : Nat → ScanMode) :
    (fuel : Nat) → Nat → Scanner → List (WordKind × String × String)
  | 0, _, _ => []
  | fuel + 1, i, s =>
    let (lex, s') := s.nextBytes (mode i)
    let word := (lex.kind, String.ofList lex.taken, String.ofList lex.text)
    if lex.kind = .eof then [word] else word :: readBytesWith mode fuel (i + 1) s'

/-- The words of a text read byte by byte. -/
def readBytes (mode : Nat → ScanMode) (text : String) : List (WordKind × String × String) :=
  readBytesWith mode (text.utf8ByteSize + 1) 0 (ofString (toOctets text))

theorem InBytes.next (h : InBytes s t) (mode : ScanMode) :
    (t.nextBytes mode).1 = ((s.skipBlanks mode).lexeme mode).inOctets ∧
      InBytes (s.next mode).2 (t.nextBytes mode).2 := by
  have hskip := h.skipBlanks mode
  have hlex := byteLexeme_octets hskip mode
  refine ⟨hlex, ?_⟩
  have hpast := hskip.past ((s.skipBlanks mode).lexeme mode).taken
    ((s.skipBlanks mode).lexeme mode).rest
  unfold nextBytes
  dsimp only
  rw [hlex]
  refine ⟨hpast.rest, hpast.atElementStart, ?_⟩
  unfold commandStartAfter
  rw [hskip.atCommandStart]
  rfl

theorem readBytesWith_eq (mode : Nat → ScanMode) (fuel i : Nat) (h : InBytes s t) :
    t.readBytesWith mode fuel i = (s.readWith mode fuel i).1.map Word.inBytes := by
  induction fuel generalizing i s t with
  | zero => rfl
  | succ fuel ih =>
    obtain ⟨hlex, hnext⟩ := h.next (mode i)
    have hword : (s.next (mode i)).1.inBytes =
        ((t.nextBytes (mode i)).1.kind, String.ofList (t.nextBytes (mode i)).1.taken,
          String.ofList (t.nextBytes (mode i)).1.text) := by
      rw [hlex]
      show (_, toOctets (String.ofList _), toOctets (String.ofList _)) = _
      rw [toOctets_ofList, toOctets_ofList]
      rfl
    have hkind : (t.nextBytes (mode i)).1.kind = (s.next (mode i)).1.kind := by
      rw [hlex]
      rfl
    unfold readBytesWith readWith
    dsimp only
    rw [← hword, hkind, ih (i + 1) hnext]
    split <;> rfl

/-- Reading byte by byte gives the words of a text. -/
theorem readBytes_eq (mode : Nat → ScanMode) (text : String) :
    readBytes mode text = (read mode text).1.map Word.inBytes := by
  have hbytes : InBytes (ofString text) (ofString (toOctets text)) :=
    ⟨toList_toOctets text, rfl, rfl⟩
  have hlength := length_le_utf8ByteSize text.toList
  rw [String.ofList_toList] at hlength
  have hfuel : (ofString text).rest.length < text.utf8ByteSize + 1 := Nat.lt_succ_of_le hlength
  unfold readBytes read
  rw [readBytesWith_eq mode _ _ hbytes, readWith_eq mode 0 hfuel (Nat.lt_succ_self _)]

end Scanner

end CommandScript
