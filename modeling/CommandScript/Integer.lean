import CommandScript.Text.Blank

/-!
# Integers

Reading integers in four number systems, and the operations on 64-bit words that the machine
does not give directly: division towards minus infinity and shifts by any amount.
-/

namespace CommandScript.Integer

/-- The digits of a number system with at most sixteen of them. -/
def isDigitOf (radix : Nat) (c : Char) : Bool :=
  if radix = 16 then c.isDigit || ('a' ≤ c && c ≤ 'f') || ('A' ≤ c && c ≤ 'F')
  else '0' ≤ c && c.toNat < '0'.toNat + radix

def digitValue (c : Char) : Nat :=
  if c.isDigit then c.toNat - '0'.toNat
  else if 'a' ≤ c then c.toNat - 'a'.toNat + 10
  else c.toNat - 'A'.toNat + 10

/-- The number that a row of digits denotes. -/
def ofDigits (radix : Nat) (digits : List Char) : Nat :=
  digits.foldl (fun n c => n * radix + digitValue c) 0

/-- The radix that a mark after a leading zero gives. -/
def radixOf? (mark : Char) : Option Nat :=
  match mark with
  | 'x' | 'X' => some 16
  | 'o' | 'O' => some 8
  | 'b' | 'B' => some 2
  | _ => none

/-- Splits off a sign: whether it is a minus, and what follows. -/
def splitSign : List Char → Bool × List Char
  | '-' :: cs => (true, cs)
  | '+' :: cs => (false, cs)
  | cs => (false, cs)

/-- Splits off a radix mark: the radix and the digits. -/
def splitRadix (cs : List Char) : Nat × List Char :=
  match cs with
  | '0' :: mark :: digits =>
    match radixOf? mark with
    | some radix => (radix, digits)
    | none => (10, cs)
  | _ => (10, cs)

/-- The number in an unsigned 64-bit word that a row of digits denotes, if the word has room. -/
def magnitude? (radix : Nat) (digits : List Char) : Option UInt64 :=
  if digits.isEmpty || !digits.all (isDigitOf radix) then none
  else if ofDigits radix digits < UInt64.size then some (.ofNat (ofDigits radix digits))
  else none

/-- The signed word for a sign and a magnitude, if there is one. The least of them has a magnitude
that none of the others has. -/
def ofMagnitude? (negative : Bool) (m : UInt64) : Option Int64 :=
  if negative && m == (1 : UInt64) <<< 63 then some Int64.minValue
  else if m < (1 : UInt64) <<< 63 then some (if negative then -m.toInt64 else m.toInt64)
  else none

/-- The integer that a text without blanks around it denotes. -/
def ofChars? (cs : List Char) : Option Int64 :=
  let (negative, cs) := splitSign cs
  let (radix, digits) := splitRadix cs
  (magnitude? radix digits).bind (ofMagnitude? negative)

/-- Reads a 64-bit integer: blanks around it, a sign, and a radix mark `0x`, `0o` or `0b` are
allowed. -/
def parse? (s : String) : Option Int64 := ofChars? (Text.trimBoth Text.isBlank s.toList)

/-- Whether an integer fits in a signed 64-bit word. -/
def fits (n : Int) : Bool := Int64.minValue.toInt ≤ n && n ≤ Int64.maxValue.toInt

/-- Reads a plain decimal integer that fits in 64 bits, with or without a sign. -/
def decimal? (cs : List Char) : Option Int :=
  let (negative, digits) := splitSign cs
  if digits.isEmpty || !digits.all (isDigitOf 10) then none
  else
    let magnitude : Int := ofDigits 10 digits
    let n := if negative then -magnitude else magnitude
    if fits n then some n else none

def toText (n : Int64) : String := toString n.toInt

/-- Whether just one of two integers is negative. -/
def signsDiffer (a b : Int64) : Bool := decide (a < 0) != decide (b < 0)

/-- The quotient rounded towards minus infinity, wrapped to 64 bits. The machine rounds quotients
towards zero, which is up for those that are negative. -/
def floorDiv (a b : Int64) : Int64 :=
  if a % b ≠ 0 ∧ signsDiffer a b then a / b - 1 else a / b

/-- The remainder that goes with `floorDiv`; it has the sign of the divisor. -/
def floorMod (a b : Int64) : Int64 :=
  let r := a % b
  if r ≠ 0 ∧ signsDiffer r b then r + b else r

/-- Shifts left by an amount that is not negative; all bits are gone after 64. -/
def shiftLeft (a b : Int64) : Int64 := if b.toInt < 64 then a <<< b else 0

/-- Shifts right by an amount that is not negative, the sign filling in. -/
def shiftRight (a b : Int64) : Int64 :=
  if b.toInt < 64 then a >>> b else if a < 0 then -1 else 0

/-- The absolute value; that of the least integer wraps to itself. -/
def abs (a : Int64) : Int64 := if a < 0 then -a else a

end CommandScript.Integer
