import CommandScript.Proofs.Integer.Grammar
import CommandScript.Proofs.Word.Octets

/-!
# Integer literals

The scanner and `Integer.parse?` know integers by separate code. A word that the scanner takes for
an integer is written as one, without a sign, so that `Integer.parse?` can only find it too large,
and so can the parser of expressions.

* `Scanner.written_of_integer`: the words that are integers.
* `Expr.operand_of_written`: what becomes of one where an operand is read.
* `Expr.Reading`: what reading from given words may lead to, for each function of the parser. So an
  integer is called too large only if a word of the text is (`Expr.tooLargeIn_of_parse`).
-/

namespace CommandScript

/-! ## Words that are integers -/

namespace Lexeme

variable {cs : List Char}

/-- A decimal that is a whole number is just digits. -/
theorem decimalPart_of_whole (h : (decimalPart cs).2 = true) :
    (decimalPart cs).1 = cs.takeWhile Char.isDigit ∧
      ∀ after, cs.dropWhile Char.isDigit ≠ '.' :: after := by
  have hpoint : ∀ after, cs.dropWhile Char.isDigit ≠ '.' :: after := by
    intro after hafter
    rw [decimalPart_of_point hafter] at h
    cases h
  rw [decimalPart_of_no_point hpoint] at h ⊢
  refine ⟨?_, hpoint⟩
  rw [List.isEmpty_iff.1 h, List.append_nil]

theorem digits_ne_nil_of_whole {c : Char} (hc : c.isDigit = true ∨ c = '.')
    (h : (decimalPart (c :: cs)).2 = true) : (c :: cs).takeWhile Char.isDigit ≠ [] := by
  rcases hc with hc | rfl
  · rw [List.takeWhile_cons_of_pos hc]
    exact List.cons_ne_nil _ _
  · exact absurd (List.dropWhile_cons_of_neg (by decide)) ((decimalPart_of_whole h).2 cs)

theorem of_numberFrom_integer {taken : List Char} {kind : WordKind} {bare : Bool}
    (h : (numberFrom cs taken kind bare).kind = .integer) :
    (numberFrom cs taken kind bare).text = taken ∧ kind = .integer ∧ bare = false := by
  unfold numberFrom at h ⊢
  split
  · rename_i hmalformed
    rw [if_pos hmalformed] at h
    cases h
  · rename_i hgood
    rw [if_neg hgood] at h
    exact ⟨rfl, h, (Bool.or_eq_false_iff.1 (Bool.eq_false_iff.2 hgood)).1⟩

/-- A number that is an integer is written as one. -/
theorem written_number {c : Char} (hc : c.isDigit = true ∨ c = '.')
    (h : (number (c :: cs)).kind = .integer) :
    ∃ m : Nat, Integer.Written (number (c :: cs)).text m := by
  rcases number_cases (c :: cs) with ⟨mark, digits, radix, heq, hradix⟩ | hnone
  · rw [heq, number_of_mark hradix] at h ⊢
    obtain ⟨htext, -, hbare⟩ := of_numberFrom_integer h
    rw [htext]
    exact ⟨_, (Integer.mark_iff_radixOf?.2 hradix).written (List.isEmpty_eq_false_iff.1 hbare)
      (List.all_eq_true.1 List.all_takeWhile)⟩
  · rw [number_of_decimal hnone] at h ⊢
    obtain ⟨htext, hkind, -⟩ := of_numberFrom_integer h
    have hwhole : (decimalPart (c :: cs)).2 = true := by
      by_contra hfloat
      rw [if_neg hfloat] at hkind
      cases hkind
    have hdigits : ∀ d ∈ (c :: cs).takeWhile Char.isDigit, d.isDigit = true :=
      List.all_eq_true.1 List.all_takeWhile
    rw [htext, (decimalPart_of_whole hwhole).1]
    exact ⟨_, Integer.Mark.decimal.written (digits_ne_nil_of_whole hc hwhole)
      fun d hd => Integer.isDigitOf_ten (hdigits d hd)⟩

theorem kind_operator_ne_integer (c : Char) (cs : List Char) : (operator c cs).kind ≠ .integer := by
  unfold operator
  split
  · rename_i kind size hop
    unfold operator? at hop
    split at hop <;> cases hop <;> exact fun h => by cases h
  · exact fun h => by cases h

/-- In whatever mode, what is taken for an integer is written as one. -/
theorem ReadFrom.written {lex : Lexeme} (h : ReadFrom cs lex) (hkind : lex.kind = .integer) :
    ∃ m : Nat, Integer.Written lex.text m := by
  cases h with
  | number hc => exact written_number hc hkind
  | separator | blank | comment | literal | name => cases hkind
  | block | script =>
    rcases kind_delimited _ _ _ _ _ with h | h <;> cases h.symm.trans hkind
  | quote => rcases kind_quote _ with h | h <;> cases h.symm.trans hkind
  | reference => rcases kind_variableRef _ with h | h | h <;> cases h.symm.trans hkind
  | operator => exact absurd hkind (kind_operator_ne_integer _ _)

end Lexeme

/-- A word that the scanner takes for an integer is written as one. -/
theorem Scanner.written_of_integer {s : Scanner} {mode : ScanMode}
    (h : (s.next mode).1.kind = .integer) :
    ∃ m : Nat, Integer.Written (s.next mode).1.text.toList m := by
  have hrest : (s.skipBlanks mode).rest ≠ [] := by
    intro hnil
    have hlexeme := lexeme_of_rest_nil hnil mode
    cases (congrArg Lexeme.kind hlexeme).symm.trans h
  have htext : (s.next mode).1.text.toList = ((s.skipBlanks mode).lexeme mode).text :=
    String.toList_ofList
  rw [htext]
  exact (readFrom_lexeme hrest mode).written h

/-! ## Reading literals -/

namespace Expr

/-- Where an operand is read, only its size can be wrong with an integer. -/
theorem operand_of_written {nested : Nat → List Word → Except ExprSyntaxFault (Read Expr)}
    {w : Word} (hkind : w.kind = .integer) {m : Nat} (h : Integer.Written w.text.toList m)
    (ws : List Word) :
    operand nested (w :: ws) =
      if Integer.fits m then .ok (.literal (.integer (.ofInt m)), ws)
      else .error (.integerTooLarge w.text) := by
  have hread := Integer.parse?_of_written h
  rw [String.ofList_toList] at hread
  by_cases hfits : Integer.fits m = true
  · rw [if_pos hfits] at hread ⊢
    simp only [operand, hkind, hread]
  · rw [if_neg hfits] at hread ⊢
    simp only [operand, hkind, hread]

/-- One of these words is an integer with this text, which is none of 64 bits. -/
def TooLargeIn (ws : List Word) (text : String) : Prop :=
  ∃ w ∈ ws, w.kind = .integer ∧ w.text = text ∧ Integer.parse? text = none

/-- What reading from these words may lead to: the last of them are left, or there is a fault; if
it is that an integer is too large, one of them is. -/
inductive Reading {α : Type} (ws : List Word) (left : α → List Word) :
    Except ExprSyntaxFault α → Prop
  | done {a : α} : left a <:+ ws → Reading ws left (.ok a)
  | failed {fault : ExprSyntaxFault} :
      (∀ text, fault = .integerTooLarge text → TooLargeIn ws text) → Reading ws left (.error fault)

namespace Reading

variable {α β : Type} {ws : List Word} {left : α → List Word} {left' : β → List Word}

theorem mono {ws' : List Word} {r : Except ExprSyntaxFault α} (h : Reading ws' left r)
    (hws : ws' <:+ ws) : Reading ws left r := by
  cases h with
  | done hleft => exact .done (hleft.trans hws)
  | failed hfault =>
    refine .failed fun text htext => ?_
    obtain ⟨w, hw, hlarge⟩ := hfault text htext
    exact ⟨w, hws.subset hw, hlarge⟩

theorem other {fault : ExprSyntaxFault} (h : ∀ text, fault ≠ .integerTooLarge text) :
    Reading ws left (.error fault) :=
  .failed fun text htext => absurd htext (h text)

/-- One word more in front. -/
theorem after {w : Word} {r : Except ExprSyntaxFault α} (h : Reading ws left r) :
    Reading (w :: ws) left r := h.mono (List.suffix_cons _ _)

theorem bind {r : Except ExprSyntaxFault α} {f : α → Except ExprSyntaxFault β}
    (h : Reading ws left r) (hf : ∀ a, Reading (left a) left' (f a)) :
    Reading ws left' (r >>= f) := by
  cases h with
  | done hleft => exact (hf _).mono hleft
  | failed hfault => exact .failed hfault

end Reading

theorem unexpected_ne_integerTooLarge (w : Word) (text : String) :
    unexpected w ≠ .integerTooLarge text := by
  unfold unexpected
  split <;> exact fun h => by cases h

theorem reading_expect (kind : WordKind) (what : String) (ws : List Word) :
    Reading ws id (expect kind what ws) := by
  unfold expect
  split
  · exact .other fun _ h => by cases h
  · split_ifs
    · exact .done (List.suffix_cons _ _)
    · exact .other fun _ h => by cases h
    · exact .other (unexpected_ne_integerTooLarge _)

section

variable {nested : Nat → List Word → Except ExprSyntaxFault (Read Expr)}
  (hnested : ∀ bound ws, Reading ws Prod.snd (nested bound ws))

include hnested

theorem reading_arguments (fuel : Nat) (ws : List Word) :
    Reading ws Prod.snd (arguments nested fuel ws) := by
  induction fuel generalizing ws with
  | zero => exact .other fun _ h => by cases h
  | succ fuel ih =>
    refine (hnested 0 ws).bind ?_
    rintro ⟨arg, _ | ⟨w, ws⟩⟩
    · exact .other fun _ h => by cases h
    · dsimp only
      split
      · refine .after ((ih ws).bind ?_)
        exact fun _ => .done (List.suffix_refl _)
      · exact .done (List.suffix_cons _ _)
      · exact .other (unexpected_ne_integerTooLarge _)

theorem reading_operand (ws : List Word) : Reading ws Prod.snd (operand nested ws) := by
  have hunary : ∀ (op : UnaryOp) (w : Word) (ws : List Word), Reading (w :: ws) Prod.snd
      (nested UnaryOp.strength ws >>= fun read => .ok (Expr.unary op read.1, read.2)) := by
    intro op w ws
    refine .after ((hnested _ ws).bind ?_)
    exact fun _ => .done (List.suffix_refl _)
  cases ws with
  | nil => exact .other fun _ h => by cases h
  | cons w ws =>
    unfold operand
    dsimp only
    split
    · rename_i hkind
      split
      · exact .done (List.suffix_cons _ _)
      · rename_i hnone
        refine .failed fun text htext => ?_
        cases htext
        exact ⟨w, List.mem_cons_self, hkind, rfl, hnone⟩
    · split
      · exact .done (List.suffix_cons _ _)
      · exact .other (unexpected_ne_integerTooLarge _)
    · exact .done (List.suffix_cons _ _)
    · exact .done (List.suffix_cons _ _)
    · exact .done (List.suffix_cons _ _)
    · exact .done (List.suffix_cons _ _)
    · refine .after ((hnested 0 ws).bind ?_)
      rintro ⟨inner, ws⟩
      exact (reading_expect _ _ ws).bind fun _ => .done (List.suffix_refl _)
    · exact hunary _ _ _
    · exact hunary _ _ _
    · exact hunary _ _ _
    · exact hunary _ _ _
    · split
      · split
        · exact .after (.done ((List.tail_suffix _).trans (List.tail_suffix _)))
        · refine .after (.mono ?_ (List.tail_suffix ws))
          exact (reading_arguments hnested _ _).bind fun _ => .done (List.suffix_refl _)
      · split
        · exact .done (List.suffix_cons _ _)
        · exact .other fun _ h => by cases h
    · exact .other (unexpected_ne_integerTooLarge _)

theorem reading_rightSide (op : InfixOp) (e : Expr) (ws : List Word) :
    Reading ws Prod.snd (rightSide nested op e ws) := by
  cases op with
  | binary op | and | or =>
    exact (hnested _ ws).bind fun _ => .done (List.suffix_refl _)
  | ternary =>
    refine (hnested _ ws).bind ?_
    rintro ⟨yes, ws⟩
    refine (reading_expect _ _ ws).bind fun ws => ?_
    exact (hnested _ ws).bind fun _ => .done (List.suffix_refl _)

theorem reading_operators (bound fuel : Nat) (e : Expr) (ws : List Word) :
    Reading ws Prod.snd (operators nested bound fuel e ws) := by
  induction fuel generalizing e ws with
  | zero => exact .done (List.suffix_refl _)
  | succ fuel ih =>
    unfold operators
    split
    · exact .done (List.suffix_refl _)
    · split_ifs
      · exact .done (List.suffix_refl _)
      · refine ((reading_rightSide hnested _ e ws.tail).bind ?_).mono (List.tail_suffix _)
        exact fun _ => ih _ _

end

theorem reading_expression (nesting bound : Nat) (ws : List Word) :
    Reading ws Prod.snd (expression nesting bound ws) := by
  induction nesting generalizing bound ws with
  | zero => exact .other fun _ h => by cases h
  | succ nesting ih =>
    refine (reading_operand ih ws).bind ?_
    exact fun _ => reading_operators ih _ _ _ _

/-- The parser calls an integer too large only if a word of the text is. -/
theorem tooLargeIn_of_parse {text large : String}
    (h : parse text = .error (.integerTooLarge large)) :
    TooLargeIn (words .expression text) large := by
  have hreading : Reading (words .expression text) (fun _ : Expr => []) (parse text) := by
    unfold parse
    dsimp only
    split
    · exact .other fun _ h => by cases h
    · refine (reading_expression _ _ _).bind ?_
      rintro ⟨e, _ | ⟨w, ws⟩⟩
      · exact .done (List.nil_suffix)
      · dsimp only
        split_ifs
        · exact .done (List.nil_suffix)
        · exact .other (unexpected_ne_integerTooLarge _)
  rw [h] at hreading
  cases hreading with
  | failed hfault => exact hfault large rfl

theorem written_of_mem_words {text : String} :
    ∀ w ∈ words .expression text, w.kind = .integer →
      ∃ m : Nat, Integer.Written w.text.toList m := by
  rw [← Scanner.wordsIn_ofString]
  exact Scanner.forall_mem_wordsIn (motive := fun _ => True)
    (fun _ _ => ⟨Scanner.written_of_integer, trivial⟩) trivial

/-- Integers are read just where they are written: a sign or none, the mark of a radix or none, and
digits, blanks around it apart, with a value of 64 bits. The text of an integer is read as that
integer. A word that the scanner takes for an integer, in whatever mode, is written as one that is
not negative; it is read unless it is too large, and so it is as a literal of an expression. The
parser finds an integer too large only if a word of the text is. -/
theorem integer_literals_exact :
    (∀ (s : String) (n : Int), (Integer.parse? s).map Int64.toInt = some n ↔
      (∃ core, Integer.Padded core s.toList ∧ Integer.Written core n) ∧
        -2 ^ 63 ≤ n ∧ n < 2 ^ 63) ∧
    (∀ n : Int64, Integer.parse? (Integer.toText n) = some n) ∧
    (∀ (s : Scanner) (mode : ScanMode), (s.next mode).1.kind = .integer →
      ∃ m : Nat, Integer.Written (s.next mode).1.text.toList m ∧
        ((Integer.parse? (s.next mode).1.text).isSome = true ↔ (m : Int) ≤ 2 ^ 63 - 1) ∧
        ∀ nested ws, operand nested ((s.next mode).1 :: ws) =
          if (m : Int) ≤ 2 ^ 63 - 1 then .ok (.literal (.integer (.ofInt m)), ws)
          else .error (.integerTooLarge (s.next mode).1.text)) ∧
    ∀ text large, parse text = .error (.integerTooLarge large) →
      ∃ w ∈ words .expression text, w.kind = .integer ∧ w.text = large ∧
        ∃ m : Nat, Integer.Written large.toList m ∧ 2 ^ 63 ≤ (m : Int) := by
  have hfits : ∀ m : Nat, Integer.fits m = true ↔ (m : Int) ≤ 2 ^ 63 - 1 := by
    intro m
    rw [Integer.fits_iff]
    omega
  have hread : ∀ {text : String} {m : Nat}, Integer.Written text.toList m →
      Integer.parse? text = if Integer.fits m then some (.ofInt m) else none := by
    intro text m h
    rw [← Integer.parse?_of_written h, String.ofList_toList]
  refine ⟨fun s n => Integer.parse?_eq_some_iff, Integer.parse?_toText, ?_, ?_⟩
  · intro s mode hkind
    obtain ⟨m, hwritten⟩ := Scanner.written_of_integer hkind
    refine ⟨m, hwritten, ?_, fun nested ws => ?_⟩
    · rw [hread hwritten, ← hfits]
      split <;> simp_all
    · simp only [← hfits, operand_of_written hkind hwritten]
  · intro text large h
    obtain ⟨w, hw, hkind, rfl, hnone⟩ := tooLargeIn_of_parse h
    obtain ⟨m, hwritten⟩ := written_of_mem_words w hw hkind
    refine ⟨w, hw, hkind, rfl, m, hwritten, ?_⟩
    rw [hread hwritten] at hnone
    by_contra hsmall
    rw [if_pos ((hfits m).2 (by omega))] at hnone
    cases hnone

/-- The least integer that is too large, as the second operand of a sum. -/
theorem integer_literals_exact_too_large :
    parse "1 + 0x8000000000000000" = .error (.integerTooLarge "0x8000000000000000") ∧
    ∃ w ∈ words .expression "1 + 0x8000000000000000",
      w.kind = .integer ∧ w.text = "0x8000000000000000" ∧
        ∃ m : Nat, Integer.Written "0x8000000000000000".toList m ∧ 2 ^ 63 ≤ (m : Int) :=
  ⟨rfl, integer_literals_exact.2.2.2 _ _ rfl⟩

end Expr

end CommandScript
