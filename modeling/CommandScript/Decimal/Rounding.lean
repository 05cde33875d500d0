/-!
# Rounding to floating point

`nearest` gives the 64-bit floating-point number nearest to a quotient of naturals, a tie going
to the even one. It works on exact integers: the quotient is scaled by a power of two until it has
53 bits (fewer near zero), and one integer division rounds it.
-/

namespace CommandScript.Decimal

/-- The leading bit of a significand of 53 bits, and the lowest bit of the exponent field. -/
def leadingBit : Nat := 0x10000000000000

/-- The bit that marks a negative number. -/
def signBit : Nat := 0x8000000000000000

/-- `a / b` rounded to the nearest natural, a tie going to the even one. -/
def roundHalfEven (a b : Nat) : Nat :=
  let q := a / b
  let r := a % b
  if 2 * r < b then q
  else if b < 2 * r then q + 1
  else if q % 2 = 0 then q else q + 1

/-- The quotient `num / den * 2 ^ (-e)` as a pair. -/
def scaleBinary (num den : Nat) (e : Int) : Nat × Nat :=
  if 0 ≤ e then (num, den <<< e.toNat) else (num <<< (-e).toNat, den)

/-- The largest `k` with `2 ^ k ≤ num / den`, for positive `num` and `den`. -/
def floorLog2 (num den : Nat) : Int :=
  let k : Int := (num.log2 : Int) - den.log2
  let (a, b) := scaleBinary num den k
  if b ≤ a then k else k - 1

/-- The bits of the floating-point number nearest to `num / den`, for positive `den`. -/
def nearestBits (num den : Nat) : Nat :=
  if num = 0 then 0
  else
    let e : Int := max (floorLog2 num den - 52) (-1074)
    let (a, b) := scaleBinary num den e
    let q := roundHalfEven a b
    let bits := if q < leadingBit then q else (e + 1075).toNat * leadingBit + (q - leadingBit)
    min bits (0x7FF * leadingBit)

/-- The floating-point number nearest to `num / den`, negated if asked. -/
def nearest (negative : Bool) (num den : Nat) : Float :=
  let bits := nearestBits num den
  Float.ofBits (if negative then bits + signBit else bits).toUInt64

end CommandScript.Decimal
