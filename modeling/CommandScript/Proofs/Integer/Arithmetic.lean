import CommandScript.Expr.Eval
import Mathlib.Data.Int.ModEq
import Mathlib.Tactic.Linarith

/-!
# Exact integer arithmetic

Operators on 64-bit integers give what the same operators give on whole numbers, wrapped to 64 bits.

The machine divides towards zero, and the quotient and the remainder are put right afterwards by
one more step each. That step is within the range of 64 bits (`Integer.fits_quotient_step`,
`Integer.fits_remainder_step`), so only the quotient of the least integer and -1 wraps. Shifts
by 64 or more, which the machine does not have, come out as if it had them.

* `Integer.floorDiv_eq`, `Integer.toInt_floorMod`: division rounds down.
* `Integer.shiftLeft_eq`, `Integer.toInt_shiftRight`: shifts multiply and divide by powers of two.
* `Expr.integer_operators_exact`: the operators of expressions.
-/

namespace CommandScript

namespace Integer

variable {a b : Int64}

/-! ## Whole numbers and words -/

theorem fits_iff {n : Int} : fits n = true ↔ -2 ^ 63 ≤ n ∧ n < 2 ^ 63 := by
  have hmin : Int64.minValue.toInt = -2 ^ 63 := rfl
  have hmax : Int64.maxValue.toInt = 2 ^ 63 - 1 := rfl
  simp only [fits, hmin, hmax, Bool.and_eq_true, decide_eq_true_eq]
  omega

/-- An integer that fits is not changed by wrapping. -/
theorem toInt_ofInt_of_fits {n : Int} (h : fits n = true) : (Int64.ofInt n).toInt = n := by
  obtain ⟨hlow, hhigh⟩ := fits_iff.1 h
  have hsize : (Int64.size : Int) = 2 ^ 64 := rfl
  rw [Int64.toInt_ofInt]
  exact Int.bmod_eq_of_le (by omega) (by omega)

theorem toInt_ne_zero (hb : b ≠ 0) : b.toInt ≠ 0 := fun h => hb (Int64.toInt_inj.1 h)

theorem signsDiffer_iff : signsDiffer a b = true ↔ (a.toInt < 0 ↔ 0 ≤ b.toInt) := by
  have ha : a < 0 ↔ a.toInt < 0 := Int64.lt_iff_toInt_lt
  have hb : b < 0 ↔ b.toInt < 0 := Int64.lt_iff_toInt_lt
  simp only [signsDiffer, ha, hb, bne_iff_ne, ne_eq, decide_eq_decide]
  omega

theorem mod_ne_zero_iff : a % b ≠ 0 ↔ a.toInt.tmod b.toInt ≠ 0 := by
  rw [← Int64.toInt_mod, ne_eq, ne_eq, ← Int64.toInt_inj]
  rfl

/-! ## Division -/

/-- Rounding down, from a quotient that was rounded towards zero. -/
theorem fdiv_eq_ite {m n : Int} (hn : n ≠ 0) :
    m.fdiv n = if m.tmod n ≠ 0 ∧ (m < 0 ↔ 0 ≤ n) then m.tdiv n - 1 else m.tdiv n := by
  simp only [Int.fdiv_eq_tdiv, Int.dvd_iff_tmod_eq_zero]
  rcases Int.lt_or_gt_of_ne hn with hneg | hpos
  · simp only [Int.sign_eq_neg_one_of_neg hneg]
    split_ifs <;> omega
  · simp only [Int.sign_eq_one_of_pos hpos]
    split_ifs <;> omega

/-- The remainder that goes with rounding towards zero has the sign of the dividend. -/
theorem tmod_neg_iff {m n : Int} (h : m.tmod n ≠ 0) : m.tmod n < 0 ↔ m < 0 := by
  rcases Int.lt_or_le m 0 with hneg | hpos
  · have hopposite := Int.tmod_nonneg (a := -m) n (by omega)
    rw [Int.neg_tmod] at hopposite
    omega
  · have := Int.tmod_nonneg n hpos
    omega

theorem fmod_eq_ite {m n : Int} (hn : n ≠ 0) :
    m.fmod n = if m.tmod n ≠ 0 ∧ (m.tmod n < 0 ↔ 0 ≤ n) then m.tmod n + n else m.tmod n := by
  have hexact := Int.tdiv_mul_add_tmod m n
  rw [Int.fmod_def, fdiv_eq_ite hn]
  by_cases hzero : m.tmod n = 0
  · simp only [hzero, ne_eq, not_true, false_and, if_false]
    rw [Int.mul_comm]
    omega
  · simp only [tmod_neg_iff hzero]
    split_ifs
    · rw [Int.mul_sub, Int.mul_one, Int.mul_comm]
      omega
    · rw [Int.mul_comm]
      omega

theorem div_eq_ofInt (a b : Int64) : a / b = .ofInt (a.toInt.tdiv b.toInt) := by
  rw [Int64.ofInt_tdiv a.minValue_le_toInt a.toInt_le b.minValue_le_toInt b.toInt_le,
    Int64.ofInt_toInt, Int64.ofInt_toInt]

theorem floorDiv_eq (a : Int64) (hb : b ≠ 0) :
    floorDiv a b = .ofInt (a.toInt.fdiv b.toInt) := by
  simp only [floorDiv, mod_ne_zero_iff, signsDiffer_iff, fdiv_eq_ite (toInt_ne_zero hb),
    div_eq_ofInt]
  split_ifs
  · exact (Int64.ofInt_sub _ 1).symm
  · rfl

/-- A divisor other than 1 and -1 at least halves the dividend. -/
theorem natAbs_tdiv_le (a : Int64) {n : Int} (hn : 2 ≤ n.natAbs) :
    (a.toInt.tdiv n).natAbs ≤ 2 ^ 62 := by
  have hlow := a.le_toInt
  have hhigh := a.toInt_lt
  calc (a.toInt.tdiv n).natAbs = a.toInt.natAbs / n.natAbs := Int.natAbs_tdiv _ _
    _ ≤ a.toInt.natAbs / 2 := Nat.div_le_div_left hn (by omega)
    _ ≤ 2 ^ 62 := by omega

/-- Where the quotient is put right, there is room for it. -/
theorem fits_quotient_step (hb : b ≠ 0) (h : a % b ≠ 0) : fits ((a / b).toInt - 1) = true := by
  have hb' := toInt_ne_zero hb
  have htwo : 2 ≤ b.toInt.natAbs := by
    -- Nothing is left over by 1 and by -1.
    by_contra hsmall
    have hunit : b.toInt.natAbs = 1 := by omega
    refine mod_ne_zero_iff.1 h (Int.natAbs_eq_zero.1 ?_)
    rw [Int.natAbs_tmod, hunit, Nat.mod_one]
  have hquotient := natAbs_tdiv_le a htwo
  rw [div_eq_ofInt, toInt_ofInt_of_fits (fits_iff.2 (by omega)), fits_iff]
  omega

/-- Where the remainder is put right, there is room for it. -/
theorem fits_remainder_step {r : Int64} (h : signsDiffer r b = true) :
    fits (r.toInt + b.toInt) = true := by
  have hr := r.le_toInt
  have hr' := r.toInt_lt
  have hb := b.le_toInt
  have hb' := b.toInt_lt
  rw [signsDiffer_iff] at h
  rw [fits_iff]
  omega

theorem toInt_floorMod (a : Int64) (hb : b ≠ 0) :
    (floorMod a b).toInt = a.toInt.fmod b.toInt := by
  rw [fmod_eq_ite (toInt_ne_zero hb)]
  simp only [floorMod, mod_ne_zero_iff, signsDiffer_iff, Int64.toInt_mod]
  split_ifs with h
  · have hroom := fits_remainder_step (r := a % b) (signsDiffer_iff.2 (Int64.toInt_mod a b ▸ h.2))
    have hsum : a % b + b = .ofInt ((a % b).toInt + b.toInt) := by
      rw [Int64.ofInt_add, Int64.ofInt_toInt, Int64.ofInt_toInt]
    rw [hsum, toInt_ofInt_of_fits hroom, Int64.toInt_mod]
  · exact Int64.toInt_mod a b

/-- Just one quotient wraps, whichever way it is rounded. -/
theorem fits_tdiv_and_fdiv (hb : b ≠ 0) (h : ¬ (a = .minValue ∧ b = -1)) :
    fits (a.toInt.tdiv b.toInt) = true ∧ fits (a.toInt.fdiv b.toInt) = true := by
  have hlow := a.le_toInt
  have hhigh := a.toInt_lt
  have hb' := toInt_ne_zero hb
  rw [fits_iff, fits_iff]
  by_cases htwo : 2 ≤ b.toInt.natAbs
  · have hquotient := natAbs_tdiv_le a htwo
    rw [fdiv_eq_ite hb']
    split_ifs <;> omega
  · have hunit : b.toInt = 1 ∨ b.toInt = -1 := by omega
    rcases hunit with hone | hminus
    · rw [hone, Int.tdiv_one, Int.fdiv_one]
      omega
    · have hne : a.toInt ≠ -2 ^ 63 := by
        intro hmin
        exact h ⟨Int64.toInt_inj.1 (hmin.trans Int64.toInt_minValue.symm),
          Int64.toInt_inj.1 (hminus.trans (by decide))⟩
      rw [hminus, Int.tdiv_neg, Int.tdiv_one, Int.fdiv_neg Int.one_ne_zero,
        if_pos (Int.one_dvd _), Int.fdiv_one]
      omega

/-- Quotient and remainder give the dividend back, also where the quotient wraps. -/
theorem floorDiv_mul_add_floorMod (a : Int64) (hb : b ≠ 0) :
    floorDiv a b * b + floorMod a b = a := by
  have hmod : floorMod a b = .ofInt (a.toInt.fmod b.toInt) := by
    rw [← toInt_floorMod a hb, Int64.ofInt_toInt]
  calc floorDiv a b * b + floorMod a b
      = .ofInt (a.toInt.fdiv b.toInt) * .ofInt b.toInt + .ofInt (a.toInt.fmod b.toInt) := by
        rw [floorDiv_eq a hb, hmod, Int64.ofInt_toInt]
    _ = .ofInt (a.toInt.fdiv b.toInt * b.toInt + a.toInt.fmod b.toInt) := by
        rw [Int64.ofInt_add, Int64.ofInt_mul]
    _ = a := by rw [Int.fdiv_mul_add_fmod, Int64.ofInt_toInt]

/-- The remainder lies between zero and the divisor. -/
theorem fmod_bounds (m n : Int) :
    (0 < n → 0 ≤ m.fmod n ∧ m.fmod n < n) ∧ (n < 0 → n < m.fmod n ∧ m.fmod n ≤ 0) := by
  refine ⟨fun h => ⟨Int.fmod_nonneg_of_pos m h, Int.fmod_lt_of_pos m h⟩, fun h => ?_⟩
  have hopposite := Int.neg_fmod_neg m n
  have hlow := Int.fmod_nonneg_of_pos (-m) (Int.neg_pos_of_neg h)
  have hhigh := Int.fmod_lt_of_pos (-m) (Int.neg_pos_of_neg h)
  omega

/-! ## Shifts -/

/-- The machine takes the amount of a shift modulo 64, which leaves a small one alone. -/
theorem smod_eq_self (h : 0 ≤ b.toInt) (hlt : b.toInt < 64) : b.toBitVec.smod 64 = b.toBitVec := by
  have hsixtyFour : (64 : BitVec 64).toInt = 64 := by decide
  refine BitVec.toInt_inj.1 ?_
  rw [BitVec.toInt_smod, hsixtyFour, Int.fmod_eq_emod_of_nonneg _ (by decide)]
  exact Int.emod_eq_of_lt h hlt

theorem toNat_toBitVec (h : 0 ≤ b.toInt) : b.toBitVec.toNat = b.toInt.toNat := by
  have hcond := BitVec.toInt_eq_toNat_cond b.toBitVec
  have hlt := b.toBitVec.isLt
  rw [Int64.toInt_toBitVec] at hcond
  split_ifs at hcond <;> omega

theorem shiftLeft_eq (a : Int64) (h : 0 ≤ b.toInt) :
    shiftLeft a b = .ofInt (a.toInt * 2 ^ b.toInt.toNat) := by
  unfold shiftLeft
  split_ifs with hlt
  · refine Int64.toBitVec_inj.1 ?_
    rw [Int64.toBitVec_shiftLeft, smod_eq_self h hlt, BitVec.shiftLeft_eq', toNat_toBitVec h,
      BitVec.shiftLeft_eq_mul_twoPow, Int64.toBitVec_ofInt, BitVec.ofInt_mul]
    have hbits : BitVec.ofInt 64 a.toInt = a.toBitVec := by
      rw [← Int64.toInt_toBitVec, BitVec.ofInt_toInt]
    have hpower : BitVec.twoPow 64 b.toInt.toNat = BitVec.ofInt 64 (2 ^ b.toInt.toNat) := by
      refine BitVec.eq_of_toNat_eq ?_
      simp [BitVec.toNat_twoPow, BitVec.toNat_ofInt]
      norm_cast
    rw [hbits, hpower]
  · -- Sixty-four is enough to move every bit out.
    obtain ⟨k, hk⟩ := Nat.exists_eq_add_of_le (show 64 ≤ b.toInt.toNat by omega)
    have hgone : Int64.ofInt (2 ^ 64) = 0 := by decide
    rw [hk, Int.pow_add, Int64.ofInt_mul, Int64.ofInt_mul, hgone, Int64.zero_mul, Int64.mul_zero]

theorem toInt_shiftRight (a : Int64) (h : 0 ≤ b.toInt) :
    (shiftRight a b).toInt = a.toInt.fdiv (2 ^ b.toInt.toNat) := by
  have hlow := a.le_toInt
  have hhigh := a.toInt_lt
  have hpower : (0 : Int) < 2 ^ b.toInt.toNat := Int.pow_pos (by decide)
  rw [Int.fdiv_eq_ediv_of_nonneg _ hpower.le]
  unfold shiftRight
  split_ifs with hlt hneg
  · rw [← Int64.toInt_toBitVec, Int64.toBitVec_shiftRight, smod_eq_self h hlt,
      BitVec.toInt_sshiftRight', toNat_toBitVec h, Int.shiftRight_eq_div_pow]
    norm_cast
  all_goals
    -- All that is left of a word after 64 places is its sign.
    have hbig : (2 : Int) ^ 63 ≤ 2 ^ b.toInt.toNat := pow_le_pow_right₀ (by decide) (by omega)
    have hsign : a < 0 ↔ a.toInt < 0 := Int64.lt_iff_toInt_lt
    rw [hsign] at hneg
  · exact (Int.ediv_eq_neg_one_of_neg_of_le hneg (by omega)).symm
  · exact (Int.ediv_eq_zero_of_lt (by omega) (by omega)).symm

theorem neg_eq (a : Int64) : -a = .ofInt (-a.toInt) := by
  rw [Int64.ofInt_neg, Int64.ofInt_toInt]

theorem not_eq (a : Int64) : ~~~a = .ofInt (-a.toInt - 1) :=
  Int64.toInt_inj.1 ((Int64.toInt_not a).trans Int64.toInt_ofInt.symm)

theorem add_eq (a b : Int64) : a + b = .ofInt (a.toInt + b.toInt) := by
  rw [Int64.ofInt_add, Int64.ofInt_toInt, Int64.ofInt_toInt]

theorem sub_eq (a b : Int64) : a - b = .ofInt (a.toInt - b.toInt) := by
  rw [Int64.ofInt_sub, Int64.ofInt_toInt, Int64.ofInt_toInt]

theorem mul_eq (a b : Int64) : a * b = .ofInt (a.toInt * b.toInt) := by
  rw [Int64.ofInt_mul, Int64.ofInt_toInt, Int64.ofInt_toInt]

end Integer

/-! ## Operators of expressions -/

namespace Expr

variable {σ : Type} {sub : Substitutor σ} {l r : Expr} {s s₁ s₂ : σ} {v w : Operand}

theorem eval_unary (op : UnaryOp) (hl : eval sub l s = .ok v s₁) :
    eval sub (.unary op l) s = Action.ofExcept (Operand.unary op v) s₁ := by
  rw [eval]
  show EStateM.bind _ _ s = _
  rw [EStateM.bind, hl]

theorem eval_binary (op : BinaryOp) (hl : eval sub l s = .ok v s₁)
    (hr : eval sub r s₁ = .ok w s₂) :
    eval sub (.binary op l r) s = Action.ofExcept (Operand.binary op v w) s₂ := by
  rw [eval]
  show EStateM.bind _ _ s = _
  rw [EStateM.bind, hl]
  show EStateM.bind _ _ s₁ = _
  rw [EStateM.bind, hr]

/-- A shift fails just if its amount is negative. -/
theorem eval_shift {a b : Int64} (hl : eval sub l s = .ok (.integer a) s₁)
    (hr : eval sub r s₁ = .ok (.integer b) s₂) {op : BinaryOp} {by' : Int64 → Int64 → Int64}
    (hop : ∀ v w, Operand.binary op v w = Operand.bits op (Operand.shift by') v w) :
    eval sub (.binary op l r) s =
      if b < 0 then Action.fail OperandFault.negativeShift s₂ else .ok (.integer (by' a b)) s₂ := by
  rw [eval_binary op hl hr, hop]
  show Action.ofExcept ((Operand.shift by' a b).map _) s₂ = _
  unfold Operand.shift
  split_ifs <;> rfl

/-- A division fails just if the divisor is zero. -/
theorem eval_div {a b : Int64} (hl : eval sub l s = .ok (.integer a) s₁)
    (hr : eval sub r s₁ = .ok (.integer b) s₂) :
    eval sub (.binary .div l r) s =
      if b = 0 then Action.fail OperandFault.divisionByZero s₂
      else .ok (.integer (Integer.floorDiv a b)) s₂ := by
  rw [eval_binary .div hl hr]
  show Action.ofExcept (if b = 0 then _ else _) s₂ = _
  split_ifs <;> rfl

theorem eval_mod {a b : Int64} (hl : eval sub l s = .ok (.integer a) s₁)
    (hr : eval sub r s₁ = .ok (.integer b) s₂) :
    eval sub (.binary .mod l r) s =
      if b = 0 then Action.fail OperandFault.divisionByZero s₂
      else .ok (.integer (Integer.floorMod a b)) s₂ := by
  rw [eval_binary .mod hl hr]
  show Action.ofExcept (if b = 0 then _ else _) s₂ = _
  split_ifs <;> rfl

/-- Dividing, multiplying and adding the remainder gives the dividend, whatever the operands do to
the state as long as each gives its integer when its turn comes. -/
theorem eval_division_identity {a b : Int64} (hb : b ≠ 0) {x y z : Expr} {s₃ s₄ s₅ : σ}
    (hl : eval sub l s = .ok (.integer a) s₁) (hr : eval sub r s₁ = .ok (.integer b) s₂)
    (hy : eval sub y s₂ = .ok (.integer b) s₃) (hx : eval sub x s₃ = .ok (.integer a) s₄)
    (hz : eval sub z s₄ = .ok (.integer b) s₅) :
    eval sub (.binary .add (.binary .mul (.binary .div l r) y) (.binary .mod x z)) s =
      .ok (.integer a) s₅ := by
  have hdiv := (eval_div hl hr).trans (if_neg hb)
  have hmod := (eval_mod hx hz).trans (if_neg hb)
  have hmul : eval sub (.binary .mul (.binary .div l r) y) s =
      .ok (.integer (Integer.floorDiv a b * b)) s₃ := eval_binary .mul hdiv hy
  refine (eval_binary .add hmul hmod).trans ?_
  show EStateM.Result.ok (Operand.integer (Integer.floorDiv a b * b + Integer.floorMod a b)) s₅ = _
  rw [Integer.floorDiv_mul_add_floorMod a hb]

/-- Operators on integers `a` and `b` give the exact result, wrapped to 64 bits: sums, differences,
products, opposites and complements; shifts by any amount that is not negative; and quotients
rounded down with their remainders, which make up the dividend, unless `b` is zero. Just the
quotient of the least integer and -1 wraps, and the steps that put the machine's quotient and
remainder right never do. -/
theorem integer_operators_exact {a b : Int64} (hl : eval sub l s = .ok (.integer a) s₁)
    (hr : eval sub r s₁ = .ok (.integer b) s₂) :
    eval sub (.unary .negate l) s = .ok (.integer (.ofInt (-a.toInt))) s₁ ∧
    eval sub (.unary .bitNot l) s = .ok (.integer (.ofInt (-a.toInt - 1))) s₁ ∧
    eval sub (.binary .add l r) s = .ok (.integer (.ofInt (a.toInt + b.toInt))) s₂ ∧
    eval sub (.binary .sub l r) s = .ok (.integer (.ofInt (a.toInt - b.toInt))) s₂ ∧
    eval sub (.binary .mul l r) s = .ok (.integer (.ofInt (a.toInt * b.toInt))) s₂ ∧
    -- Shifts.
    (b < 0 → eval sub (.binary .shl l r) s = Action.fail OperandFault.negativeShift s₂ ∧
      eval sub (.binary .shr l r) s = Action.fail OperandFault.negativeShift s₂) ∧
    (0 ≤ b →
      eval sub (.binary .shl l r) s = .ok (.integer (.ofInt (a.toInt * 2 ^ b.toInt.toNat))) s₂ ∧
      ∃ n, eval sub (.binary .shr l r) s = .ok (.integer n) s₂ ∧
        n.toInt = a.toInt.fdiv (2 ^ b.toInt.toNat)) ∧
    -- Division.
    (b = 0 → eval sub (.binary .div l r) s = Action.fail OperandFault.divisionByZero s₂ ∧
      eval sub (.binary .mod l r) s = Action.fail OperandFault.divisionByZero s₂) ∧
    (b ≠ 0 →
      eval sub (.binary .div l r) s = .ok (.integer (.ofInt (a.toInt.fdiv b.toInt))) s₂ ∧
      (∃ n, eval sub (.binary .mod l r) s = .ok (.integer n) s₂ ∧
        n.toInt = a.toInt.fmod b.toInt ∧ (0 < b → 0 ≤ n ∧ n < b) ∧ (b < 0 → b < n ∧ n ≤ 0)) ∧
      (∀ y x z s₃ s₄ s₅, eval sub y s₂ = .ok (.integer b) s₃ →
        eval sub x s₃ = .ok (.integer a) s₄ → eval sub z s₄ = .ok (.integer b) s₅ →
        eval sub (.binary .add (.binary .mul (.binary .div l r) y) (.binary .mod x z)) s =
          .ok (.integer a) s₅) ∧
      -- What wraps, and what does not.
      (¬ (a = .minValue ∧ b = -1) →
        Integer.fits (a.toInt.tdiv b.toInt) ∧ Integer.fits (a.toInt.fdiv b.toInt)) ∧
      (a % b ≠ 0 ∧ Integer.signsDiffer a b → Integer.fits ((a / b).toInt - 1)) ∧
      (a % b ≠ 0 ∧ Integer.signsDiffer (a % b) b → Integer.fits ((a % b).toInt + b.toInt))) ∧
    Fault.kind OperandFault.negativeShift = .typeMismatch ∧
    Fault.kind OperandFault.divisionByZero = .divisionByZero := by
  have hzero : (0 : Int64).toInt = 0 := rfl
  refine ⟨?_, ?_, ?_, ?_, ?_, ?_, ?_, ?_, ?_, rfl, rfl⟩
  · rw [eval_unary .negate hl, ← Integer.neg_eq]
    rfl
  · rw [eval_unary .bitNot hl, ← Integer.not_eq]
    rfl
  · rw [eval_binary .add hl hr, ← Integer.add_eq]
    rfl
  · rw [eval_binary .sub hl hr, ← Integer.sub_eq]
    rfl
  · rw [eval_binary .mul hl hr, ← Integer.mul_eq]
    rfl
  · intro hb
    exact ⟨(eval_shift hl hr fun _ _ => rfl).trans (if_pos hb),
      (eval_shift hl hr fun _ _ => rfl).trans (if_pos hb)⟩
  · intro hb
    have hnot : ¬ b < 0 := Int64.not_lt.2 hb
    have hb : 0 ≤ b.toInt := Int64.le_iff_toInt_le.1 hb
    refine ⟨?_, _, (eval_shift hl hr fun _ _ => rfl).trans (if_neg hnot),
      Integer.toInt_shiftRight a hb⟩
    rw [eval_shift hl hr fun _ _ => rfl, if_neg hnot, Integer.shiftLeft_eq a hb]
  · intro hb
    exact ⟨(eval_div hl hr).trans (if_pos hb), (eval_mod hl hr).trans (if_pos hb)⟩
  · intro hb
    have hmod := Integer.toInt_floorMod a hb
    obtain ⟨hpos, hneg⟩ := Integer.fmod_bounds a.toInt b.toInt
    refine ⟨?_, ⟨_, (eval_mod hl hr).trans (if_neg hb), hmod, ?_, ?_⟩,
      fun _ _ _ _ _ _ => eval_division_identity hb hl hr, Integer.fits_tdiv_and_fdiv hb,
      fun h => Integer.fits_quotient_step hb h.1, fun h => Integer.fits_remainder_step h.2⟩
    · rw [eval_div hl hr, if_neg hb, Integer.floorDiv_eq a hb]
    · simp only [Int64.lt_iff_toInt_lt, Int64.le_iff_toInt_le, hmod, hzero]
      exact hpos
    · simp only [Int64.lt_iff_toInt_lt, Int64.le_iff_toInt_le, hmod, hzero]
      exact hneg

/-- Every name and every script stands for the least integer. -/
def leastEverywhere : Substitutor Unit where
  resolve _ := pure (Value.ofInt64 .minValue)
  execute _ := pure (Value.ofInt64 .minValue)

/-- The least integer, from a variable, and -1: the quotient wraps, nothing remains, and there is no
shift. -/
theorem integer_operators_exact_least :
    eval leastEverywhere (.varRef "x") () = .ok (.integer .minValue) () ∧
    eval leastEverywhere (.literal (.integer (-1))) () = .ok (.integer (-1)) () ∧
    eval leastEverywhere (.binary .div (.varRef "x") (.literal (.integer (-1)))) () =
      .ok (.integer .minValue) () ∧
    (∃ n, eval leastEverywhere (.binary .mod (.varRef "x") (.literal (.integer (-1)))) () =
      .ok (.integer n) () ∧ n.toInt = 0) ∧
    eval leastEverywhere (.binary .shl (.varRef "x") (.literal (.integer (-1)))) () =
      Action.fail OperandFault.negativeShift () := by
  have hl : eval leastEverywhere (.varRef "x") () = .ok (.integer .minValue) () := rfl
  have hr : eval leastEverywhere (.literal (.integer (-1))) () = .ok (.integer (-1)) () := rfl
  obtain ⟨_, _, _, _, _, hnegative, _, _, hdivision, _⟩ := integer_operators_exact hl hr
  obtain ⟨hdiv, ⟨n, hmod, hn, _⟩, _⟩ := hdivision (by decide)
  exact ⟨hl, hr, hdiv, ⟨n, hmod, hn⟩, (hnegative (by decide)).1⟩

end Expr

end CommandScript
