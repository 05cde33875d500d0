import CommandScript.Decimal.Rounding

/-!
# Shortest digits

A finite floating-point number other than zero is `m * 2 ^ q`. The reals that round to it form an
interval around it, whose ends count if `m` is even. `shortest` finds the fewest decimal digits
that lie in it, and of several rows of so many digits the nearest: for 1, 2, … digits it tries
the two neighbours of the number on that decimal grid.
-/

namespace CommandScript.Decimal

/-- A positive floating-point number as `mantissa * 2 ^ exponent`. -/
structure Binary where
  mantissa : Nat
  exponent : Int
  /-- Whether the next number below is only half as far away as the next above. -/
  narrowBelow : Bool
  deriving Repr

/-- Decodes the bits of a finite number, its sign ignored. -/
def Binary.ofBits (bits : Nat) : Binary :=
  let field : Nat := bits / leadingBit % 0x800
  let fraction : Nat := bits % leadingBit
  if field = 0 then ⟨fraction, -1074, false⟩
  else ⟨leadingBit + fraction, (field : Int) - 1075, fraction = 0 && field > 1⟩

/-- The quotient `m * 2 ^ e / 10 ^ k` as a pair. -/
def onGrid (m : Nat) (e k : Int) : Nat × Nat :=
  ((m <<< e.toNat) * Nat.pow 10 (-k).toNat, Nat.pow 10 k.toNat <<< (-e).toNat)

/-- Raises `k`, at most `n` times, while `10 ^ (k + 1)` is still no more than `m * 2 ^ e`. -/
def climb (m : Nat) (e : Int) : Nat → Int → Int
  | 0, k => k
  | n + 1, k =>
    let (a, b) := onGrid m e (k + 1)
    if b ≤ a then climb m e n (k + 1) else k

/-- The largest `k` with `10 ^ k ≤ m * 2 ^ e`, for positive `m`: an estimate from the binary
logarithm that is never too large, put right in at most three steps. -/
def floorLog10 (m : Nat) (e : Int) : Int :=
  climb m e 3 ((((m.log2 : Int) + e) * 30103).fdiv 100000 - 1)

/-- Digits and the power of ten of the last one. -/
structure Digits where
  digits : Nat
  exponent : Int
  deriving Repr

/-- The best decimal on the grid of `10 ^ k` that rounds to `b`. Distances are measured in
quarters of the spacing of floating-point numbers. -/
def onGrid? (b : Binary) (k : Int) : Option Digits :=
  let quarter (m : Nat) := onGrid m (b.exponent - 2) k
  let (value, den) := quarter (4 * b.mantissa)
  let (low, _) := quarter (4 * b.mantissa - if b.narrowBelow then 1 else 2)
  let (high, _) := quarter (4 * b.mantissa + 2)
  let inside (d : Nat) : Bool :=
    if b.mantissa % 2 = 0 then low ≤ d * den && d * den ≤ high
    else low < d * den && d * den < high
  let down := value / den
  let up := down + 1
  match inside down, inside up with
  | true, true => some ⟨if value - down * den < up * den - value then down else up, k⟩
  | true, false => some ⟨down, k⟩
  | false, true => some ⟨up, k⟩
  | false, false => none

/-- The first of `n` grids, each ten times finer than the one before, that holds a decimal which
rounds to `b`. -/
def firstOnGrid (b : Binary) : Nat → Int → Digits
  | 0, k => ⟨0, k⟩
  | n + 1, k =>
    match onGrid? b k with
    | some d => d
    | none => firstOnGrid b n (k - 1)

/-- The fewest digits that round to `b`; seventeen are always enough. -/
def Binary.shortest (b : Binary) : Digits :=
  firstOnGrid b 17 (floorLog10 b.mantissa b.exponent)

end CommandScript.Decimal
