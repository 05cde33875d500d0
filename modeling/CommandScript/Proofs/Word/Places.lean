import CommandScript.Proofs.Word.Spans
import Mathlib.Data.List.Induction

/-!
# Places of words

A scanner keeps count of bytes, lines and columns as it goes. Whatever modes the words are read in,
the counts are those of the text up to where it stands: a line for each newline, a column for each
character since the last one. That is so at each word, after each word, and at the end of the text,
where a word that nothing ends leaves the scanner.

* `Place.column_advance`, `Place.line_advance`: what is counted over characters.
* `Place.walk_octets`: counting byte by byte, where a byte that goes on with a character adds no
  column, comes to the same.
* `Scanner.At`: the invariant, with `At.next` for one word and `At.after` for many.
* `word_positions_exact`: the places of words and of the scanner after them.
-/

namespace CommandScript

/-! ## Counting from the start of a text -/

namespace Text

/-- The characters before a byte offset. -/
def charsBefore (offset : Nat) : List Char → List Char
  | [] => []
  | c :: cs => if offset = 0 then [] else c :: charsBefore (offset - c.utf8Size) cs

theorem charsBefore_append (xs ys : List Char) :
    charsBefore (String.ofList xs).utf8ByteSize (xs ++ ys) = xs := by
  induction xs with
  | nil => cases ys <;> rfl
  | cons c xs ih =>
    have hpos := c.utf8Size_pos
    have hsize : (String.ofList (c :: xs)).utf8ByteSize =
        c.utf8Size + (String.ofList xs).utf8ByteSize := by
      rw [String.ofList_cons, String.utf8ByteSize_append, String.utf8ByteSize_singleton]
    rw [hsize, List.cons_append, charsBefore, if_neg (by omega), Nat.add_sub_cancel_left, ih]

/-- The line at a byte offset: one more than the newlines before it. -/
def lineAt (text : String) (offset : Nat) : Nat := 1 + (charsBefore offset text.toList).count '\n'

/-- The column at a byte offset: one more than the characters since the last newline before it, or
since the start. -/
def columnAt (text : String) (offset : Nat) : Nat :=
  1 + ((charsBefore offset text.toList).reverse.takeWhile (· != '\n')).length

end Text

namespace Place

open Text

theorem column_advance (cs : List Char) :
    (advance {} cs).column = 1 + (cs.reverse.takeWhile (· != '\n')).length := by
  induction cs using List.reverseRecOn with
  | nil => rfl
  | append_singleton cs c ih =>
    rw [advance_append, advance_cons, advance_nil, List.reverse_append, List.reverse_singleton,
      List.singleton_append]
    by_cases hc : c = '\n'
    · simp [step, hc]
    · simp [step, hc, ih, Nat.add_assoc]

/-! ## Counting bytes -/

/-- The place after a byte. A byte that goes on with a character begins no column. -/
def bump (p : Place) (b : Char) : Place where
  offset := p.offset + 1
  line := if b = '\n' then p.line + 1 else p.line
  column := if b = '\n' then 1 else if Scanner.continues b then p.column else p.column + 1

/-- The place after a row of bytes. -/
def walk (p : Place) (bytes : List Char) : Place := bytes.foldl bump p

theorem walk_append (p : Place) (xs ys : List Char) : p.walk (xs ++ ys) = (p.walk xs).walk ys :=
  List.foldl_append

theorem walk_continues (p : Place) {bs : List Char} (h : ∀ b ∈ bs, Scanner.continues b = true) :
    p.walk bs = { p with offset := p.offset + bs.length } := by
  induction bs generalizing p with
  | nil => rfl
  | cons b bs ih =>
    obtain ⟨hb, hbs⟩ := List.forall_mem_cons.1 h
    have hne : b ≠ '\n' := by
      rintro rfl
      cases hb
    show (p.bump b).walk bs = _
    rw [ih _ hbs]
    simp [bump, hne, hb, Nat.add_assoc, Nat.add_comm 1]

/-- The bytes of one character make one column, or one line. -/
theorem walk_octetsOf (p : Place) (c : Char) : p.walk (octetsOf c) = p.step c := by
  have hlength := length_octetsOf c
  rcases octetsOf_cases c with ⟨hc, hbytes⟩ | ⟨hbeyond, b, bs, hbytes, hlead, hmore⟩
  · have hplain : Scanner.continues c = false := by
      simp only [Scanner.continues, Bool.and_eq_false_iff, decide_eq_false_iff_not]
      omega
    rw [hbytes, List.length_singleton] at hlength
    rw [hbytes]
    show p.bump c = p.step c
    simp [bump, step, hplain, hlength]
  · have hfirst : Scanner.continues b = false := by
      simp only [Scanner.continues, Bool.and_eq_false_iff, decide_eq_false_iff_not]
      omega
    have hothers : ∀ x ∈ bs, Scanner.continues x = true := fun x hx => by
      simp [Scanner.continues, hmore x hx]
    have hb : b ≠ '\n' := ne_of_beyond (by omega) (by decide)
    have hc : c ≠ '\n' := ne_of_beyond hbeyond (by decide)
    rw [hbytes, List.length_cons] at hlength
    rw [hbytes]
    show (p.bump b).walk bs = p.step c
    rw [walk_continues _ hothers]
    simp only [bump, step, if_neg hb, if_neg hc, hfirst]
    simp [← hlength, Nat.add_assoc, Nat.add_comm 1]

/-- Counting the bytes of characters one by one is counting the characters. -/
theorem walk_octets (p : Place) (cs : List Char) : p.walk (octets cs) = p.advance cs := by
  induction cs generalizing p with
  | nil => rfl
  | cons c cs ih => rw [octets_cons, walk_append, walk_octetsOf, ih, advance_cons]

end Place

/-! ## Words that nothing ends -/

namespace Lexeme

/-- What a reader passes, one character at a time, until `step` says that it is done. -/
def passed (step : Nat → Char → Option Nat) : Nat → List Char → List Char
  | _, [] => []
  | _, ['\\'] => ['\\']
  | depth, '\\' :: c :: cs => '\\' :: c :: passed step depth cs
  | depth, c :: cs => c :: ((step depth c).map fun depth => passed step depth cs).getD []

/-- How a reader counts the delimiters that are open, until it comes to the closing one. -/
def nesting (opening closing : Char) (depth : Nat) (c : Char) : Option Nat :=
  if c = opening then some (depth + 1)
  else if c = closing then if depth = 0 then none else some (depth - 1)
  else some depth

/-- How a reader counts the brackets that are open in a quote, until it comes to its end. -/
def quoting (depth : Nat) (c : Char) : Option Nat :=
  if c = '[' then some (depth + 1)
  else if depth = 0 then if c = '"' then none else some 0
  else if c = ']' then some (depth - 1)
  else some depth

theorem passed_of_enclosed {opening closing : Char} {depth : Nat} {cs : List Char}
    (h : enclosed opening closing depth cs = none) :
    passed (nesting opening closing) depth cs = cs := by
  fun_induction enclosed opening closing depth cs <;> simp_all [passed, nesting]

theorem passed_of_quoted {depth : Nat} {cs : List Char} {missing : String}
    (h : quoted depth cs = .error missing) : passed quoting depth cs = cs := by
  fun_induction quoted depth cs with
  | case1 | case2 | case3 | case4 => rfl
  | case6 => cases h
  | case5 _ _ _ ih | case7 _ _ _ _ ih | case8 _ _ _ _ _ _ ih | case9 _ _ _ _ ih
  | case10 _ _ _ _ _ ih | case11 _ _ _ _ _ _ _ ih =>
    have hrest := ih (eq_error_of_map h)
    simp_all [passed, quoting]

/-- What is passed in search of the end of a word that begins with these characters. -/
def passedFrom : List Char → List Char
  | '{' :: cs => '{' :: passed (nesting '{' '}') 0 cs
  | '[' :: cs => '[' :: passed (nesting '[' ']') 0 cs
  | '"' :: cs => '"' :: passed quoting 0 cs
  | '$' :: '{' :: cs => '$' :: '{' :: cs.takeWhile (· != '}')
  | '$' :: cs =>
    '$' :: match nameRun cs with
      | (name, '(' :: cs) => name ++ '(' :: passed (nesting '(' ')') 0 cs
      | (name, _) => name
  | _ => []

/-- A lexeme that lacks something leaves nothing to be read: its reader has passed all there is. -/
def Exhausts (lex : Lexeme) : Prop :=
  lex.kind = .illegal → "missing".toList <+: lex.text →
    lex.rest = [] ∧ passedFrom lex.taken = lex.taken

theorem exhausts_of_legal {lex : Lexeme} (h : lex.kind ≠ .illegal) : lex.Exhausts :=
  fun hillegal => absurd hillegal h

theorem exhausts_unterminated {cs : List Char} (h : passedFrom cs = cs) (missing : String) :
    (unterminated cs missing).Exhausts :=
  fun _ _ => ⟨rfl, h⟩

theorem exhausts_delimited {kind : WordKind} (hkind : kind ≠ .illegal) {opening closing : Char}
    (missing : String) {cs : List Char}
    (hfrom : passedFrom (opening :: cs) = opening :: passed (nesting opening closing) 0 cs) :
    (delimited kind opening closing missing (opening :: cs)).Exhausts := by
  unfold delimited
  split
  · exact exhausts_of_legal hkind
  · exact exhausts_unterminated (by rw [hfrom, passed_of_enclosed ‹_›]) missing

theorem exhausts_quote (cs : List Char) : (quote ('"' :: cs)).Exhausts := by
  unfold quote
  split
  · exact exhausts_of_legal fun h => by cases h
  · refine exhausts_unterminated ?_ _
    exact congrArg ('"' :: ·) (passed_of_quoted ‹_›)

theorem exhausts_variableRef (cs : List Char) : (variableRef ('$' :: cs)).Exhausts := by
  have href := reference cs
  have hname := nameRun_append cs
  generalize variableRef ('$' :: cs) = lex at href ⊢
  cases href with
  | @openBrace inner htext hopen =>
    refine exhausts_unterminated ?_ _
    have hall : ∀ c ∈ inner, (c != '}') = true := fun c hc => bne_iff_ne.2 fun h => hopen (h ▸ hc)
    simp [htext, passedFrom, List.takeWhile_eq_self_iff.2 hall]
  | openIndex hbrace hrun hindex =>
    refine exhausts_unterminated ?_ _
    rw [hrun] at hname
    unfold passedFrom
    simp_all [passed_of_enclosed hindex]
  | braced | alone | plain | element => exact exhausts_of_legal fun h => by cases h

/-- What is wrong with a number is that it runs on, not that something is missing. -/
theorem exhausts_numberFrom (cs taken : List Char) {kind : WordKind} (hkind : kind ≠ .illegal)
    (bare : Bool) : (numberFrom cs taken kind bare).Exhausts := by
  unfold numberFrom
  split
  · intro _ hmissing
    simp [malformedNumber] at hmissing
  · exact exhausts_of_legal hkind

theorem exhausts_number (cs : List Char) : (number cs).Exhausts := by
  rcases number_cases cs with ⟨mark, digits, radix, rfl, hradix⟩ | hnone
  · rw [number_of_mark hradix]
    exact exhausts_numberFrom _ _ (by decide) _
  · rw [number_of_decimal hnone]
    exact exhausts_numberFrom _ _ (by split <;> decide) _

theorem exhausts_operator (c : Char) (cs : List Char) : (operator c cs).Exhausts := by
  unfold operator
  split
  · rename_i kind size hop
    have hkind : kind ≠ .illegal := by
      unfold operator? at hop
      split at hop <;> cases hop <;> decide
    exact exhausts_of_legal hkind
  · intro _ hmissing
    simp at hmissing

theorem ReadFrom.exhausts {cs : List Char} {lex : Lexeme} (h : ReadFrom cs lex) :
    lex.Exhausts := by
  cases h with
  | separator | blank | comment | literal | name => exact exhausts_of_legal fun h => by cases h
  | block | script => exact exhausts_delimited (by decide) _ rfl
  | quote => exact exhausts_quote _
  | reference => exact exhausts_variableRef _
  | number => exact exhausts_number _
  | operator => exact exhausts_operator _ _

end Lexeme

theorem Scanner.exhausts_lexeme (s : Scanner) (mode : ScanMode) : (s.lexeme mode).Exhausts := by
  by_cases hrest : s.rest = []
  · rw [lexeme_of_rest_nil hrest]
    exact Lexeme.exhausts_of_legal (by decide)
  · exact (readFrom_lexeme hrest mode).exhausts

/-- Nothing ends the word: it is illegal because a closing character is missing. -/
def Word.LeftOpen (w : Word) : Prop := w.kind = .illegal ∧ "missing".toList <+: w.text.toList

theorem Scanner.exhausts_of_leftOpen {s : Scanner} {mode : ScanMode}
    (h : (s.next mode).1.LeftOpen) :
    (s.next mode).2.rest = [] ∧
      Lexeme.passedFrom (s.next mode).1.source.toList = (s.next mode).1.source.toList := by
  obtain ⟨hkind, hmissing⟩ := h
  let lex := (s.skipBlanks mode).lexeme mode
  have htext : (s.next mode).1.text.toList = lex.text := String.toList_ofList
  have hsource : (s.next mode).1.source.toList = lex.taken := String.toList_ofList
  rw [htext] at hmissing
  rw [hsource]
  exact (s.skipBlanks mode).exhausts_lexeme mode hkind hmissing

/-! ## Reading on -/

namespace Scanner

/-- The scanner after one word in each of the given modes. -/
def after (s : Scanner) (modes : List ScanMode) : Scanner :=
  modes.foldl (fun s mode => (s.next mode).2) s

/-- A scanner in a text of which these characters were read. -/
structure At (text : String) (used : List Char) (s : Scanner) : Prop where
  eq_append : text.toList = used ++ s.rest
  place : s.place = Place.advance {} used

namespace At

variable {text : String} {used : List Char} {s : Scanner}

theorem ofString (text : String) : At text [] (Scanner.ofString text) := ⟨rfl, rfl⟩

/-- One word: it stands in the text after what was read, and the scanner is where it ends. -/
theorem next (h : At text used s) (mode : ScanMode) :
    ∃ gap taken, (s.next mode).1.Stands mode {} text.toList used gap taken (s.next mode).2.rest ∧
      At text (used ++ gap ++ taken) (s.next mode).2 ∧
      (s.next mode).2.place = (s.next mode).1.stop := by
  obtain ⟨gap, taken, hstands, hplace⟩ := s.stands_next mode
  rw [h.place] at hstands hplace
  have hword := hstands.prepend
  rw [← h.eq_append, List.append_nil] at hword
  refine ⟨gap, taken, hword, ⟨?_, ?_⟩, rfl⟩
  · rw [hword.eq_append, List.append_assoc, List.append_assoc]
  · rw [hplace, List.append_assoc, Place.advance_append {} used]

/-- Many words. -/
theorem after (h : At text used s) (modes : List ScanMode) :
    ∃ more, At text (used ++ more) (s.after modes) := by
  induction modes generalizing used s with
  | nil => exact ⟨[], by rw [List.append_nil]; exact h⟩
  | cons mode modes ih =>
    obtain ⟨gap, taken, -, hnext, -⟩ := h.next mode
    obtain ⟨more, hmore⟩ := ih hnext
    refine ⟨gap ++ taken ++ more, ?_⟩
    rw [← List.append_assoc, ← List.append_assoc]
    exact hmore

end At

end Scanner

/-! ## Exact positions -/

open Text

/-- A place after the characters at the start of a text. -/
theorem Place.advance_at {text : String} {used rest : List Char} (h : text.toList = used ++ rest) :
    let p := Place.advance {} used
    p.line = lineAt text p.offset ∧ p.column = columnAt text p.offset ∧
      p = Place.walk {} ((toOctets text).toList.take p.offset) := by
  intro p
  have hoffset : p.offset = (String.ofList used).utf8ByteSize := by
    rw [Place.offset_advance]
    exact Nat.zero_add _
  have hbefore : charsBefore p.offset text.toList = used := by
    rw [hoffset, h, charsBefore_append]
  have hbytes : (toOctets text).toList.take p.offset = octets used := by
    rw [toList_toOctets, h, octets_append, hoffset, ← length_octets, List.take_left]
  refine ⟨?_, ?_, ?_⟩
  · rw [lineAt, hbefore, Place.line_advance]
  · rw [columnAt, hbefore, Place.column_advance]
  · rw [hbytes, Place.walk_octets]

/-- After any words of a text, each read in a mode of its own, the next word begins in the line and
column that the newlines and characters before its span give, and the scanner then stands at the end
of the span, in the line and column that those before it give. Counting the bytes up to there one by
one gives the same places. After a word that nothing ends the scanner stands at the end of the
text, all of which was passed in search of the end. -/
theorem word_positions_exact (text : String) (modes : List ScanMode) (mode : ScanMode) :
    let s := (Scanner.ofString text).after modes
    let w := (s.next mode).1
    let s' := (s.next mode).2
    (w.line = lineAt text w.start.offset ∧ w.column = columnAt text w.start.offset) ∧
    (s'.line = lineAt text s'.place.offset ∧ s'.place.column = columnAt text s'.place.offset) ∧
    s'.place.offset = w.stop.offset ∧
    text.toByteArray.extract w.start.offset w.stop.offset = w.source.toByteArray ∧
    w.start = Place.walk {} ((toOctets text).toList.take w.start.offset) ∧
    s'.place = Place.walk {} ((toOctets text).toList.take s'.place.offset) ∧
    (w.LeftOpen → s'.atEnd = true ∧ s'.place.offset = text.utf8ByteSize ∧
      Lexeme.passedFrom w.source.toList = w.source.toList) := by
  intro s w s'
  obtain ⟨used, hs⟩ := (Scanner.At.ofString text).after modes
  rw [List.nil_append] at hs
  obtain ⟨gap, taken, hword, hs', hstop⟩ := hs.next mode
  have hstart : w.start = Place.advance {} (used ++ gap) := by
    rw [hword.start, Place.advance_append]
  have hbefore : text.toList = (used ++ gap) ++ (taken ++ s'.rest) := by
    rw [hword.eq_append, List.append_assoc]
  obtain ⟨hline, hcolumn, hwalk⟩ := Place.advance_at hbefore
  obtain ⟨hline', hcolumn', hwalk'⟩ := Place.advance_at hs'.eq_append
  rw [← hstart] at hline hcolumn hwalk
  rw [← hs'.place] at hline' hcolumn' hwalk'
  refine ⟨⟨hline, hcolumn⟩, ⟨hline', hcolumn'⟩, congrArg Place.offset hstop, hword.extract_source,
    hwalk, hwalk', fun hopen => ?_⟩
  obtain ⟨hrest, hpassed⟩ := Scanner.exhausts_of_leftOpen hopen
  refine ⟨List.isEmpty_iff.2 hrest, ?_, hpassed⟩
  have hall := hs'.eq_append
  rw [hrest, List.append_nil] at hall
  rw [hs'.place, Place.offset_advance, ← hall, String.ofList_toList]
  exact Nat.zero_add _

/-- A brace that is not closed, in the second line after a character of two bytes. -/
theorem word_positions_exact_open_brace :
    let text := "é\n \x7bx\ny"
    let read := ((Scanner.ofString text).after [.command, .command, .command]).next .command
    read.1.LeftOpen ∧ read.1.start.offset = 4 ∧
    read.1.line = lineAt text 4 ∧ lineAt text 4 = 2 ∧
    read.1.column = columnAt text 4 ∧ columnAt text 4 = 2 ∧
    read.2.place.offset = 8 ∧ read.2.line = lineAt text 8 ∧ lineAt text 8 = 3 := by
  intro text read
  have hopen : read.1.LeftOpen := ⟨by decide +kernel, by decide +kernel⟩
  have hstart : read.1.start.offset = 4 := by decide +kernel
  obtain ⟨⟨hline, hcolumn⟩, ⟨hline', -⟩, -, -, -, -, hend⟩ :=
    word_positions_exact text [.command, .command, .command] .command
  have hoffset : read.2.place.offset = 8 := (hend hopen).2.1
  exact ⟨hopen, hstart, hstart ▸ hline, by decide +kernel, hstart ▸ hcolumn, by decide +kernel,
    hoffset, hoffset ▸ hline', by decide +kernel⟩

end CommandScript
