import CommandScript.Value.Number
import Mathlib

/-!
# The order of rounded integers

Rounding integers to floating-point numbers keeps their order, but may make different integers
equal. Floating-point numbers are ordered like their bits, taken as a number with a sign, so the
order of the numbers that integers are rounded to is that of `Decimal.rank`, which is a matter of
integers alone.

* `Decimal.ofBits_lt_iff`: the order of floating-point numbers and their bits.
* `Decimal.nearestBits_mono`, `Decimal.nearestBits_lt`: the bits of rounded naturals.
* `Number.ofInt64_lt_iff`, `Number.ofInt64_inj_iff`: the order of rounded integers.
-/

open Float.Model Float.Model.UnpackedFloat

namespace CommandScript

namespace Decimal

/-! ## Bits of floating-point numbers -/

theorem toNat_unpackMantissa (w : BitVec 64) :
    (@unpackMantissa .binary64 w).toNat = w.toNat % 2 ^ 52 := by
  simp [unpackMantissa]

theorem toNat_unpackExponent (w : BitVec 64) :
    (@unpackExponent .binary64 w).toNat = w.toNat / 2 ^ 52 % 2 ^ 11 := by
  simp [unpackExponent, Nat.shiftRight_eq_div_pow]

theorem toNat_unpackSign (w : BitVec 64) :
    (@unpackSign .binary64 w).toNat = w.toNat / 2 ^ 63 % 2 := by
  simp [unpackSign, Nat.shiftRight_eq_div_pow]

/-- The word of a number with the given sign and other bits. -/
def withSign (negative : Bool) (bits : Nat) : UInt64 :=
  (if negative then bits + signBit else bits).toUInt64

/-- The bits of finite numbers, the sign apart, are below this. -/
def finiteBits : Nat := 0x7FF * leadingBit

/-- The significand of the number with the given bits. -/
def significand (bits : Nat) : Nat := if bits < 2 ^ 52 then bits else 2 ^ 52 + bits % 2 ^ 52

/-- The exponent of the number with the given bits. -/
def exponent (bits : Nat) : Int := max 1 (bits / 2 ^ 52 : Nat) - 1075

def signOf (negative : Bool) : Sign := if negative then .negative else .positive

variable {x y : Nat}

theorem significand_pos (h : x ≠ 0) : 0 < significand x := by
  unfold significand
  split_ifs <;> omega

theorem toNat_withSign (negative : Bool) (hx : x < finiteBits) :
    (withSign negative x).toNat = if negative then x + 2 ^ 63 else x := by
  unfold finiteBits leadingBit at hx
  unfold withSign signBit
  rw [Nat.toUInt64, UInt64.toNat_ofNat']
  cases negative <;> simp <;> omega

/-- What a word of finite bits stands for. -/
theorem unpack_of_fields {w : BitVec 64} {sign : Sign}
    (hsign : Sign.ofBitVec (@unpackSign .binary64 w) = sign)
    (hfield : w.toNat / 2 ^ 52 % 2 ^ 11 = x / 2 ^ 52) (hfraction : w.toNat % 2 ^ 52 = x % 2 ^ 52)
    (hx : x < finiteBits) :
    unpack .binary64 w =
      if h : x = 0 then .zero sign
      else .finite sign (significand x) (exponent x) (significand_pos h) := by
  rw [← toNat_unpackExponent] at hfield
  rw [← toNat_unpackMantissa] at hfraction
  unfold finiteBits leadingBit at hx
  have hfinite : @unpackExponent .binary64 w ≠ -1#11 := by
    intro heq
    have hones : (@unpackExponent .binary64 w).toNat = 2047 := by rw [heq]; rfl
    omega
  have hsubnormal : @unpackExponent .binary64 w = 0#11 ↔ x < 2 ^ 52 := by
    rw [← BitVec.toNat_inj, hfield]
    simp
  have hempty : @unpackMantissa .binary64 w = 0#52 ↔ x % 2 ^ 52 = 0 := by
    rw [← BitVec.toNat_inj, hfraction]
    simp
  have hleading : (1#1 ++ @unpackMantissa .binary64 w).toNat = 2 ^ 52 + x % 2 ^ 52 := by
    rw [BitVec.toNat_append, ← Nat.shiftLeft_add_eq_or_of_lt (BitVec.isLt _), hfraction]
    rfl
  unfold UnpackedFloat.unpack
  simp only [hsign, hfield]
  rw [if_neg hfinite]
  by_cases hsmall : x < 2 ^ 52
  · have hmod : x % 2 ^ 52 = x := Nat.mod_eq_of_lt hsmall
    rw [if_pos (hsubnormal.2 hsmall)]
    by_cases hzero : x = 0
    · rw [dif_pos (hempty.2 (by omega)), dif_pos hzero]
    · rw [dif_neg (fun h => hzero (hmod.symm.trans (hempty.1 h))), dif_neg hzero]
      congr 1
      · unfold significand
        rw [if_pos hsmall]
        omega
      · unfold exponent
        simp [Format.exponentBias]
        omega
  · rw [if_neg (fun h => hsmall (hsubnormal.1 h)), dif_neg (by omega)]
    congr 1
    · unfold significand
      rw [if_neg hsmall, hleading]
    · unfold exponent
      simp [Format.exponentBias]
      omega

theorem unpack_withSign (negative : Bool) (hx : x < finiteBits) :
    (Float.ofBits (withSign negative x)).toModel.unpack =
      if h : x = 0 then .zero (signOf negative)
      else .finite (signOf negative) (significand x) (exponent x) (significand_pos h) := by
  have hbits := toNat_withSign negative hx
  rw [← UInt64.toNat_toBitVec] at hbits
  have hx' := hx
  unfold finiteBits leadingBit at hx'
  have hfield : (withSign negative x).toBitVec.toNat / 2 ^ 52 % 2 ^ 11 = x / 2 ^ 52 := by
    rw [hbits]
    split_ifs <;> omega
  have hfraction : (withSign negative x).toBitVec.toNat % 2 ^ 52 = x % 2 ^ 52 := by
    rw [hbits]
    split_ifs <;> omega
  have hsign : Sign.ofBitVec (@unpackSign .binary64 (withSign negative x).toBitVec) =
      signOf negative := by
    have hbit := toNat_unpackSign (withSign negative x).toBitVec
    have hzero := @BitVec.toNat_inj _ (@unpackSign .binary64 (withSign negative x).toBitVec) 0#1
    rw [hbits] at hbit
    unfold Sign.ofBitVec signOf
    cases negative
    · rw [if_pos (hzero.1 (hbit.trans (by simp; omega)))]
      rfl
    · rw [if_neg (fun h => ?_)]
      · rfl
      · have := hbit.symm.trans (hzero.2 h)
        simp at this
        omega
  -- A finite number is read from its bits and written back unchanged.
  have hvalid : Format.binary64.Valid (withSign negative x).toBitVec := by
    refine ⟨fun hones => ?_⟩
    have hones : (@unpackExponent .binary64 (withSign negative x).toBitVec).toNat = 2047 := by
      rw [hones]
      rfl
    rw [toNat_unpackExponent, hfield] at hones
    omega
  show unpack .binary64 (pack .binary64 (unpack .binary64 (withSign negative x).toBitVec)) = _
  rw [pack_unpack_of_valid hvalid]
  exact unpack_of_fields hsign hfield hfraction hx

/-- Numbers of one sign are ordered like their bits. -/
theorem compare_fields (x y : Nat) :
    (compare (exponent x) (exponent y)).then (compare (significand x) (significand y)) =
      compare x y := by
  have hlt : ∀ {x y : Nat}, x < y →
      exponent x < exponent y ∨ exponent x = exponent y ∧ significand x < significand y := by
    intro x y h
    unfold exponent significand
    split_ifs <;> omega
  rcases Nat.lt_trichotomy x y with h | rfl | h
  · rw [compare_lt_iff_lt.2 h]
    rcases hlt h with he | ⟨he, hs⟩
    · rw [compare_lt_iff_lt.2 he]
      rfl
    · rw [compare_eq_iff_eq.2 he, compare_lt_iff_lt.2 hs]
      rfl
  · simp
  · rw [compare_gt_iff_gt.2 h]
    rcases hlt h with he | ⟨he, hs⟩
    · rw [compare_gt_iff_gt.2 he]
      rfl
    · rw [compare_eq_iff_eq.2 he.symm, compare_gt_iff_gt.2 hs]
      rfl

/-- Bits as a number with a sign. -/
def signed (negative : Bool) (bits : Nat) : Int := if negative then -bits else bits

/-- Finite numbers are ordered like their bits with their signs. -/
theorem ofBits_lt_iff (negative negative' : Bool) (hx : x < finiteBits) (hy : y < finiteBits) :
    Float.ofBits (withSign negative x) < Float.ofBits (withSign negative' y) ↔
      signed negative x < signed negative' y := by
  have hunfold : Float.ofBits (withSign negative x) < Float.ofBits (withSign negative' y) ↔
      (Float.ofBits (withSign negative x)).toModel.unpack.compare
        (Float.ofBits (withSign negative' y)).toModel.unpack = some .lt := by
    show decide ((_ : Float.Model) < _) = true ↔ _
    rw [decide_eq_true_iff]
    show (_ == some Ordering.lt) = true ↔ _
    rw [beq_iff_eq]
  rw [hunfold, unpack_withSign _ hx, unpack_withSign _ hy]
  by_cases hzero : x = 0 <;> by_cases hzero' : y = 0 <;> cases negative <;> cases negative' <;>
    simp [hzero, hzero', signOf, signed, UnpackedFloat.compare, compare_fields,
      Ordering.swap_eq_lt, compare_gt_iff_gt, compare_lt_iff_lt] <;>
    omega

/-! ## Rounding naturals -/

theorem roundHalfEven_mono {a a' b : Nat} (h : a ≤ a') :
    roundHalfEven a b ≤ roundHalfEven a' b := by
  have hquotient : a / b ≤ a' / b := Nat.div_le_div_right h
  have hexact := Nat.div_add_mod a b
  have hexact' := Nat.div_add_mod a' b
  have hrest : a / b = a' / b → a % b ≤ a' % b := by
    intro heq
    rw [heq] at hexact
    omega
  unfold roundHalfEven
  dsimp only
  rcases Nat.lt_or_eq_of_le hquotient with hlt | heq
  · split_ifs <;> omega
  · have := hrest heq
    rw [heq]
    split_ifs <;> omega

theorem roundHalfEven_bounds (a : Nat) {b : Nat} :
    a / b ≤ roundHalfEven a b ∧ roundHalfEven a b ≤ a / b + 1 := by
  unfold roundHalfEven
  dsimp only
  split_ifs <;> omega

theorem roundHalfEven_one (a : Nat) : roundHalfEven a 1 = a := by
  simp [roundHalfEven, Nat.mod_one]

variable {m n : Nat}

theorem floorLog2_one (h : 0 < n) : floorLog2 n 1 = n.log2 := by
  have hone : Nat.log2 1 = 0 := by decide
  have hle : 1 <<< n.log2 ≤ n := by
    rw [Nat.one_shiftLeft]
    exact Nat.log2_self_le (by omega)
  simp [floorLog2, scaleBinary, hone, hle]

/-- The significand of 53 bits that a natural is rounded to, or the next power of two. -/
def roundedSignificand (n : Nat) : Nat :=
  if n.log2 ≤ 52 then n * 2 ^ (52 - n.log2) else roundHalfEven n (2 ^ (n.log2 - 52))

/-- A natural of at most 53 bits is only shifted, so that its significand stays below the next
power of two. -/
theorem roundedSignificand_bounds (h : 0 < n) :
    2 ^ 52 ≤ roundedSignificand n ∧ roundedSignificand n ≤ 2 ^ 53 ∧
      (n.log2 ≤ 52 → roundedSignificand n < 2 ^ 53) := by
  have hlow : 2 ^ n.log2 ≤ n := Nat.log2_self_le (by omega)
  have hhigh : n < 2 ^ (n.log2 + 1) := Nat.lt_log2_self
  unfold roundedSignificand
  split_ifs with hsmall
  · have hscale : 0 < 2 ^ (52 - n.log2) := Nat.two_pow_pos _
    have hleast : 2 ^ n.log2 * 2 ^ (52 - n.log2) = 2 ^ 52 := by
      rw [← Nat.pow_add]
      congr 1
      omega
    have hnext : 2 ^ (n.log2 + 1) * 2 ^ (52 - n.log2) = 2 ^ 53 := by
      rw [← Nat.pow_add]
      congr 1
      omega
    have hlt := Nat.mul_lt_mul_of_pos_right hhigh hscale
    have hle := Nat.mul_le_mul_right (2 ^ (52 - n.log2)) hlow
    omega
  · have hscale : 0 < 2 ^ (n.log2 - 52) := Nat.two_pow_pos _
    have hleast : 2 ^ n.log2 = 2 ^ 52 * 2 ^ (n.log2 - 52) := by
      rw [← Nat.pow_add]
      congr 1
      omega
    have hnext : 2 ^ (n.log2 + 1) = 2 ^ 53 * 2 ^ (n.log2 - 52) := by
      rw [← Nat.pow_add]
      congr 1
      omega
    have hle := (Nat.le_div_iff_mul_le hscale).2 (hleast ▸ hlow)
    have hlt := (Nat.div_lt_iff_lt_mul hscale).2 (hnext ▸ hhigh)
    have hround := roundHalfEven_bounds n (b := 2 ^ (n.log2 - 52))
    omega

theorem log2_mono (h : m ≤ n) : m.log2 ≤ n.log2 := by
  rw [Nat.log2_eq_log_two, Nat.log2_eq_log_two]
  exact Nat.log_mono_right h

theorem log2_le_of_le (hn : n ≤ 2 ^ 63) : n.log2 ≤ 63 :=
  Nat.log2_two_pow (n := 63) ▸ log2_mono hn

theorem nearestBits_eq (hpos : 0 < n) (hn : n ≤ 2 ^ 63) :
    nearestBits n 1 = (n.log2 + 1022) * 2 ^ 52 + roundedSignificand n := by
  have hlog := log2_le_of_le hn
  obtain ⟨hleast, hmost, -⟩ := roundedSignificand_bounds hpos
  have hexponent : max ((n.log2 : Int) - 52) (-1074) = (n.log2 : Int) - 52 := by omega
  have hround : roundHalfEven (scaleBinary n 1 ((n.log2 : Int) - 52)).1
      (scaleBinary n 1 ((n.log2 : Int) - 52)).2 = roundedSignificand n := by
    unfold scaleBinary roundedSignificand
    split_ifs with hcut hsmall hsmall
    · obtain hlog : n.log2 = 52 := by omega
      simp [hlog, roundHalfEven_one]
    · rw [Nat.one_shiftLeft, show ((n.log2 : Int) - 52).toNat = n.log2 - 52 by omega]
    · rw [Nat.shiftLeft_eq, roundHalfEven_one,
        show (-((n.log2 : Int) - 52)).toNat = 52 - n.log2 by omega]
    · omega
  unfold nearestBits
  simp only [if_neg (Nat.ne_of_gt hpos), floorLog2_one hpos, hexponent, hround]
  unfold leadingBit
  rw [if_neg (by omega), show ((n.log2 : Int) - 52 + 1075).toNat = n.log2 + 1023 by omega]
  omega

theorem nearestBits_lt_finiteBits (hn : n ≤ 2 ^ 63) : nearestBits n 1 < finiteBits := by
  unfold finiteBits leadingBit
  rcases Nat.eq_zero_or_pos n with rfl | hpos
  · decide
  · have hlog := log2_le_of_le hn
    have hmost := (roundedSignificand_bounds hpos).2.1
    rw [nearestBits_eq hpos hn]
    omega

/-- Rounding keeps the order. -/
theorem nearestBits_mono (h : m ≤ n) (hn : n ≤ 2 ^ 63) : nearestBits m 1 ≤ nearestBits n 1 := by
  rcases Nat.eq_zero_or_pos m with rfl | hpos
  · exact Nat.zero_le _
  have hm := roundedSignificand_bounds hpos
  have hn' := roundedSignificand_bounds (Nat.lt_of_lt_of_le hpos h)
  rw [nearestBits_eq hpos (h.trans hn), nearestBits_eq (Nat.lt_of_lt_of_le hpos h) hn]
  rcases Nat.lt_or_eq_of_le (log2_mono h) with hlt | heq
  · omega
  · have hsignificand : roundedSignificand m ≤ roundedSignificand n := by
      unfold roundedSignificand
      rw [heq]
      split_ifs
      · exact Nat.mul_le_mul_right _ h
      · exact roundHalfEven_mono h
    omega

/-- Naturals of at most 53 bits are told apart from all larger ones. -/
theorem nearestBits_lt (h : m < n) (hm : m < 2 ^ 53) (hn : n ≤ 2 ^ 63) :
    nearestBits m 1 < nearestBits n 1 := by
  have hpos' : 0 < n := Nat.zero_lt_of_lt h
  have hn' := roundedSignificand_bounds hpos'
  rcases Nat.eq_zero_or_pos m with rfl | hpos
  · rw [nearestBits_eq hpos' hn]
    show 0 < _
    omega
  have hlog : m.log2 ≤ 52 := Nat.le_of_lt_succ ((Nat.log2_lt (by omega)).2 hm)
  have hm' := (roundedSignificand_bounds hpos).2.2 hlog
  rw [nearestBits_eq hpos (h.le.trans hn), nearestBits_eq hpos' hn]
  rcases Nat.lt_or_eq_of_le (log2_mono h.le) with hlt | heq
  · omega
  · have hsignificand : roundedSignificand m < roundedSignificand n := by
      unfold roundedSignificand
      rw [if_pos hlog, if_pos (heq ▸ hlog), heq]
      exact Nat.mul_lt_mul_of_pos_right h (Nat.two_pow_pos _)
    omega

/-! ## Rounding integers -/

/-- The place of a rounded integer in the order of the floating-point numbers. -/
def rank (n : Int) : Int := signed (n < 0) (nearestBits n.natAbs 1)

theorem rank_of_nonneg {n : Int} (h : 0 ≤ n) : rank n = nearestBits n.natAbs 1 := by
  simp [rank, signed, h]

theorem rank_of_neg {n : Int} (h : n < 0) : rank n = -(nearestBits n.natAbs 1 : Int) := by
  simp [rank, signed, h]

/-- Only zero is rounded to zero. -/
theorem nearestBits_pos (hpos : 0 < n) (hn : n ≤ 2 ^ 63) : 0 < nearestBits n 1 :=
  nearestBits_lt hpos (by decide) hn

theorem rank_mono {m n : Int} (h : m ≤ n) (hm : -2 ^ 63 ≤ m) (hn : n ≤ 2 ^ 63) :
    rank m ≤ rank n := by
  rcases lt_or_ge m 0 with hneg | hnonneg
  · rw [rank_of_neg hneg]
    rcases lt_or_ge n 0 with hneg' | hnonneg'
    · have := nearestBits_mono (m := n.natAbs) (n := m.natAbs) (by omega) (by omega)
      rw [rank_of_neg hneg']
      omega
    · rw [rank_of_nonneg hnonneg']
      omega
  · have := nearestBits_mono (m := m.natAbs) (n := n.natAbs) (by omega) (by omega)
    rw [rank_of_nonneg hnonneg, rank_of_nonneg (hnonneg.trans h)]
    omega

/-- Integers of at most 53 bits are told apart. -/
theorem rank_lt {m n : Int} (h : m < n) (hm : m.natAbs ≤ 2 ^ 53) (hn : n.natAbs ≤ 2 ^ 53) :
    rank m < rank n := by
  rcases lt_or_ge m 0 with hneg | hnonneg
  · rw [rank_of_neg hneg]
    rcases lt_or_ge n 0 with hneg' | hnonneg'
    · have := nearestBits_lt (m := n.natAbs) (n := m.natAbs) (by omega) (by omega) (by omega)
      rw [rank_of_neg hneg']
      omega
    · have := nearestBits_pos (n := m.natAbs) (by omega) (by omega)
      rw [rank_of_nonneg hnonneg']
      omega
  · have := nearestBits_lt (m := m.natAbs) (n := n.natAbs) (by omega) (by omega) (by omega)
    rw [rank_of_nonneg hnonneg, rank_of_nonneg (hnonneg.trans h.le)]
    omega

end Decimal

namespace Number

open Decimal

variable {a b : Int64}

theorem natAbs_le (a : Int64) : a.toInt.natAbs ≤ 2 ^ 63 := by
  have := a.le_toInt
  have := a.toInt_lt
  omega

theorem ofInt64_eq (a : Int64) :
    ofInt64 a = Float.ofBits (withSign (a.toInt < 0) (nearestBits a.toInt.natAbs 1)) := by
  have hsign : decide (a < 0) = decide (a.toInt < 0) := by
    simp [Int64.lt_iff_toInt_lt]
  unfold ofInt64 nearest withSign
  rw [hsign]

/-- Rounded integers are ordered like their ranks. -/
theorem ofInt64_lt_iff : ofInt64 a < ofInt64 b ↔ rank a.toInt < rank b.toInt := by
  rw [ofInt64_eq, ofInt64_eq]
  exact ofBits_lt_iff _ _ (nearestBits_lt_finiteBits (natAbs_le a))
    (nearestBits_lt_finiteBits (natAbs_le b))

theorem ofInt64_inj_iff : ofInt64 a = ofInt64 b ↔ rank a.toInt = rank b.toInt := by
  constructor
  · intro heq
    have hlt : ¬rank a.toInt < rank b.toInt := by
      rw [← ofInt64_lt_iff, heq, ofInt64_lt_iff]
      exact lt_irrefl _
    have hgt : ¬rank b.toInt < rank a.toInt := by
      rw [← ofInt64_lt_iff, heq, ofInt64_lt_iff]
      exact lt_irrefl _
    omega
  · intro heq
    rw [ofInt64_eq, ofInt64_eq]
    rcases lt_or_ge a.toInt 0 with hneg | hnonneg <;>
      rcases lt_or_ge b.toInt 0 with hneg' | hnonneg'
    · rw [rank_of_neg hneg, rank_of_neg hneg'] at heq
      have hbits : nearestBits a.toInt.natAbs 1 = nearestBits b.toInt.natAbs 1 := by omega
      rw [hbits, decide_eq_true hneg, decide_eq_true hneg']
    · have := nearestBits_pos (n := a.toInt.natAbs) (by omega) (natAbs_le a)
      rw [rank_of_neg hneg, rank_of_nonneg hnonneg'] at heq
      omega
    · have := nearestBits_pos (n := b.toInt.natAbs) (by omega) (natAbs_le b)
      rw [rank_of_nonneg hnonneg, rank_of_neg hneg'] at heq
      omega
    · rw [rank_of_nonneg hnonneg, rank_of_nonneg hnonneg'] at heq
      have hbits : nearestBits a.toInt.natAbs 1 = nearestBits b.toInt.natAbs 1 := by omega
      rw [hbits, decide_eq_false hnonneg.not_gt, decide_eq_false hnonneg'.not_gt]

end Number

end CommandScript
