import CommandScript.Expr.Eval
import CommandScript.Proofs.Expr.Precedence

/-!
# Integers read back

The text of an integer is its digits, with a minus before them if it is negative. As an operand the
text is read as a whole. As an expression it is two words: the parser reads the digits by
themselves, and the minus negates what they denote. Digits and opposite both have to fit in 64 bits,
and for one integer they do not: the least has no opposite.

* `Expr.parse_digits`, `Expr.parse_minus_digits`: what the parser makes of digits.
* `Expr.integers_read_back`: the text of an integer as an expression.
-/

namespace CommandScript

/-! ## Digits as an expression -/

namespace Expr

/-- What the parser makes of a row of digits. -/
def numeral (digits : String) : Except ExprSyntaxFault Expr :=
  match Integer.parse? digits with
  | some n => .ok (.literal (.integer n))
  | none => .error (.integerTooLarge digits)

theorem operand_digits {nested : Nat → List Word → Except ExprSyntaxFault (Read Expr)} {w : Word}
    (hw : w.kind = .integer) (ws : List Word) :
    operand nested (w :: ws) = (numeral w.text).map fun e => (e, ws) := by
  simp only [operand, hw, numeral]
  cases Integer.parse? w.text <;> rfl

/-- An operand at the end of the text is the whole expression. -/
theorem expression_of_operand {ws : List Word} {w : Word} (hw : w.kind = .eof) {nesting : Nat}
    {r : Except ExprSyntaxFault Expr}
    (h : operand (expression nesting) ws = r.map fun e => (e, [w])) (bound : Nat) :
    expression (nesting + 1) bound ws = r.map fun e => (e, [w]) := by
  have hstops : Stops bound [w] := .of_kind (by rw [hw]; decide) (by rw [hw]; rfl) bound []
  rw [expression, h]
  cases r with
  | error _ => rfl
  | ok e => exact operators_stop hstops _ e

theorem parse_of_expression {text : String} {ws : List Word} {w w' : Word} (hw : w.kind ≠ .eof)
    (hw' : w'.kind = .eof) (hwords : words .expression text = w :: ws)
    {r : Except ExprSyntaxFault Expr}
    (h : expression maxNesting 0 (w :: ws) = r.map fun e => (e, [w'])) : parse text = r := by
  have hkind : kindOf (w :: ws) ≠ .eof := hw
  unfold parse
  simp only [hwords, if_neg hkind, h]
  cases r with
  | error _ => rfl
  | ok e => simp [Except.map, bind, Except.bind, hw']

variable {ds : List Char}

/-- Digits are one word, and a minus before them another. -/
theorem tokens_digits (hne : ds ≠ []) (hds : ∀ c ∈ ds, c.isDigit = true) {s : Scanner}
    (hs : s.rest = ds) {fuel : Nat} (hfuel : s.rest.length < fuel) (i : Nat) :
    (s.readWith expressionMode fuel i).1.map Word.token =
      [.plain .integer (String.ofList ds), .eof] := by
  have hreadable := List.forall_mem_singleton.2 (Token.readable_digits hne hds)
  have hwritten : Scanner.written [.plain .integer (String.ofList ds)] = ds := by
    simp [Scanner.written, Token.plain]
  refine Scanner.readWith_tokens hreadable ?_ hfuel i
  rw [hs, ← Scanner.dropWhile_written hreadable, hwritten]

theorem parse_digits (hne : ds ≠ []) (hds : ∀ c ∈ ds, c.isDigit = true) :
    parse (String.ofList ds) = numeral (String.ofList ds) := by
  have htokens : (words .expression (String.ofList ds)).map Word.token = _ :=
    tokens_digits hne hds (s := .ofString (String.ofList ds)) String.toList_ofList
      (Nat.lt_succ_self _) 0
  obtain ⟨w, ws, hwords, hw, hws⟩ := List.map_eq_cons_iff.1 htokens
  obtain ⟨w', ws, rfl, hw', hnil⟩ := List.map_eq_cons_iff.1 hws
  obtain rfl := List.map_eq_nil_iff.1 hnil
  have hkind : w.kind = .integer := congrArg Token.kind hw
  have htext : w.text = String.ofList ds := congrArg Token.text hw
  have hend : w'.kind = .eof := congrArg Token.kind hw'
  refine parse_of_expression (by rw [hkind]; decide) hend hwords ?_
  rw [← htext]
  exact expression_of_operand hend (operand_digits hkind _) 0

theorem parse_minus_digits (hne : ds ≠ []) (hds : ∀ c ∈ ds, c.isDigit = true) :
    parse (String.ofList ('-' :: ds)) = (numeral (String.ofList ds)).map (.unary .negate) := by
  have hrest : (Scanner.ofString (String.ofList ('-' :: ds))).rest = '-' :: ds :=
    String.toList_ofList
  have hlexeme : Scanner.expressionLexeme
      ((Scanner.ofString (String.ofList ('-' :: ds))).rest.dropWhile Lexeme.isSpaceOrNewline) =
      .verbatim .minus ['-'] ds := by
    rw [hrest]
    rfl
  obtain ⟨w, s, hw, hs, hread⟩ := Scanner.readWith_expression hlexeme
    (fun hkind => by cases hkind) (String.ofList ('-' :: ds)).toList.length 0
  have hwords : words .expression (String.ofList ('-' :: ds)) = _ := hread
  have hfuel : s.rest.length < (String.ofList ('-' :: ds)).toList.length := by
    rw [hs, String.toList_ofList]
    exact Nat.lt_succ_self _
  have htokens := tokens_digits hne hds hs hfuel 1
  obtain ⟨w₁, ws, hread₁, hw₁, hws⟩ := List.map_eq_cons_iff.1 htokens
  obtain ⟨w', ws, rfl, hw', hnil⟩ := List.map_eq_cons_iff.1 hws
  obtain rfl := List.map_eq_nil_iff.1 hnil
  have hkind : w.kind = UnaryOp.negate.kind := congrArg Token.kind hw
  have hkind₁ : w₁.kind = .integer := congrArg Token.kind hw₁
  have htext : w₁.text = String.ofList ds := congrArg Token.text hw₁
  have hend : w'.kind = .eof := congrArg Token.kind hw'
  refine parse_of_expression (by rw [hkind]; decide) hend hwords ?_
  refine expression_of_operand hend ?_ 0
  rw [hread₁, operand_unary hkind,
    expression_of_operand hend (operand_digits hkind₁ _) UnaryOp.strength, htext]
  cases numeral (String.ofList ds) <;> rfl

/-! ## Integers as expressions -/

/-- Digits are a literal if the number they make fits. -/
theorem numeral_toDigits (m : Nat) :
    numeral (String.ofList (Nat.toDigits 10 m)) =
      if Integer.fits m then .ok (.literal (.integer (.ofInt m)))
      else .error (.integerTooLarge (String.ofList (Nat.toDigits 10 m))) := by
  have hread := Integer.parse?_of_written (Integer.written_toDigits m)
  by_cases hfits : Integer.fits m = true
  · rw [if_pos hfits] at hread ⊢
    rw [numeral, hread]
  · rw [if_neg hfits] at hread ⊢
    rw [numeral, hread]

variable {σ : Type} (sub : Substitutor σ) {n : Int64}

theorem evalText_of_nonneg (h : 0 ≤ n.toInt) :
    evalText sub (Integer.toText n) = pure (.integer n) := by
  have hvalue : ((n.toInt.toNat : Nat) : Int) = n.toInt := Int.toNat_of_nonneg h
  have hparse : parse (Integer.toText n) = .ok (.literal (.integer n)) := by
    rw [← String.ofList_toList (s := Integer.toText n), Integer.toList_toText h,
      parse_digits Nat.toDigits_ne_nil Integer.isDigit_of_mem_toDigits, numeral_toDigits, hvalue,
      if_pos (Integer.fits_toInt n), Int64.ofInt_toInt]
  rw [evalText, hparse]
  rfl

theorem evalText_of_neg (h : n.toInt < 0) (hleast : n ≠ .minValue) :
    evalText sub (Integer.toText n) = pure (.integer n) := by
  have hne : n.toInt ≠ -2 ^ 63 :=
    fun heq => hleast (Int64.toInt_inj.1 (heq.trans Int64.toInt_minValue.symm))
  have hlow := n.le_toInt
  have hfits : Integer.fits n.toInt.natAbs = true := Integer.fits_iff.2 (by omega)
  have hopposite : -Int64.ofInt n.toInt.natAbs = n := by
    rw [← Int64.ofInt_neg, show -(n.toInt.natAbs : Int) = n.toInt by omega, Int64.ofInt_toInt]
  have hparse : parse (Integer.toText n) =
      .ok (.unary .negate (.literal (.integer (.ofInt n.toInt.natAbs)))) := by
    rw [← String.ofList_toList (s := Integer.toText n), Integer.toList_toText_of_neg h,
      parse_minus_digits Nat.toDigits_ne_nil Integer.isDigit_of_mem_toDigits, numeral_toDigits,
      if_pos hfits]
    rfl
  rw [evalText, hparse]
  exact congrArg (fun m => (pure (.integer m) : CommandScript.Action σ Operand)) hopposite

/-- The magnitude of the least integer is no integer of 64 bits. -/
theorem parse_least :
    parse (Integer.toText .minValue) = .error (.integerTooLarge "9223372036854775808") := by
  have hdigits : Nat.toDigits 10 (Int64.minValue.toInt.natAbs) = "9223372036854775808".toList := by
    decide +kernel
  have hfits : ¬ Integer.fits (Int64.minValue.toInt.natAbs : Int) = true := by decide
  rw [← String.ofList_toList (s := Integer.toText .minValue),
    Integer.toList_toText_of_neg (by decide),
    parse_minus_digits Nat.toDigits_ne_nil Integer.isDigit_of_mem_toDigits, numeral_toDigits,
    if_neg hfits, hdigits, String.ofList_toList]
  rfl

/-- The text of an integer is that integer as an operand, and as an expression too, unless it is the
least integer: that is refused for its digits. -/
theorem integers_read_back (n : Int64) :
    Operand.ofValue (.string (Operand.text (.integer n))) = .ok (.integer n) ∧
    evalText sub (Operand.text (.integer n)) =
      if n = .minValue then Action.fail (ExprSyntaxFault.integerTooLarge "9223372036854775808")
      else pure (.integer n) := by
  constructor
  · show Operand.ofText (Integer.toText n) = _
    rw [Operand.ofText, Integer.parse?_toText]
  · show evalText sub (Integer.toText n) = _
    split_ifs with hleast
    · rw [hleast, evalText, parse_least]
      rfl
    · rcases Int.lt_or_le n.toInt 0 with hneg | hpos
      · exact evalText_of_neg sub hneg hleast
      · exact evalText_of_nonneg sub hpos

/-- The least integer is an operand, and its text is no expression. -/
theorem least_integer_not_read_back :
    Operand.ofValue (.string (Operand.text (.integer .minValue))) = .ok (.integer .minValue) ∧
    ∀ sub : Substitutor Unit,
      evalText sub (Operand.text (.integer .minValue)) ≠ pure (.integer .minValue) := by
  constructor
  · show Operand.ofText (Integer.toText .minValue) = _
    rw [Operand.ofText, Integer.parse?_toText]
  · intro sub heq
    have hparse : parse (Operand.text (.integer .minValue)) = _ := parse_least
    rw [evalText, hparse] at heq
    cases congrFun heq ()

end Expr

end CommandScript
