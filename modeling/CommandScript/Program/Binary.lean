import CommandScript.Decimal.Rounding
import CommandScript.Program.Numeral

/-!
# Binary fractions

Numbers with a fraction, as programs read and write them. A number is a natural times a power of
two, so it is exact; reading one rounds it to the significand of a format, and writing one in
decimal rounds it once more, a tie going to the even digit.
-/

namespace CommandScript.Program

/-- A format of floating-point numbers. -/
structure Precision where
  /-- The bits of a significand. -/
  bits : Nat
  /-- The exponent of the lowest bit of the smallest number. -/
  lowest : Int
  /-- The exponent of the lowest bit of the largest numbers. -/
  highest : Int

namespace Precision

/-- The format of 64 bits. -/
def double : Precision := ⟨53, -1074, 971⟩

/-- The format of 80 bits. -/
def extended : Precision := ⟨64, -16445, 16320⟩

end Precision

/-- A number as programs compute with it. -/
inductive Binary where
  /-- `significand * 2 ^ exponent`, or its negative. -/
  | finite (negative : Bool) (significand : Nat) (exponent : Int)
  | infinite (negative : Bool)
  | notNumber (negative : Bool)
  deriving DecidableEq, Repr, Inhabited

namespace Binary

def isNegative : Binary → Bool
  | finite negative _ _ | infinite negative | notNumber negative => negative

/-- A finite number without its sign, as a quotient. -/
def quotient (significand : Nat) (exponent : Int) : Nat × Nat :=
  if 0 ≤ exponent then (significand <<< exponent.toNat, 1)
  else (significand, 1 <<< (-exponent).toNat)

/-- Rounds a quotient to a format, and says whether it was out of the format's range. -/
def ofQuotient (p : Precision) (negative : Bool) (num den : Nat) : Binary × Bool :=
  if num = 0 then (finite negative 0 0, false)
  else
    let e : Int := max (Decimal.floorLog2 num den - (p.bits - 1 : Nat)) p.lowest
    let (a, b) := Decimal.scaleBinary num den e
    let q := Decimal.roundHalfEven a b
    let (q, e) := if q = 1 <<< p.bits then (q / 2, e + 1) else (q, e)
    if e > p.highest then (infinite negative, true)
    else (finite negative q e, q < 1 <<< (p.bits - 1) && q * b != a)

/-! ## Reading -/

/-- Reads an exponent after its mark; nothing if no digits follow. -/
def exponent? (cs : List Char) : Option (Int × List Char) :=
  let (negative, digits) := Integer.splitSign cs
  let run := digits.takeWhile Char.isDigit
  if run.isEmpty then none
  else
    let n : Int := min (Integer.ofDigits 10 run) 100000
    some (if negative then -n else n, digits.drop run.length)

/-- What reading a number gives: the number, whether it is out of range, and what follows it. -/
structure Reading where
  number : Binary
  outOfRange : Bool := false
  rest : List Char

/-- Reads digits with a point among them in a radix: the digits, how many stand after the point,
and the rest; nothing if there are no digits. -/
def digits? (radix : Nat) (cs : List Char) : Option (Nat × Nat × List Char) :=
  let whole := cs.takeWhile (Integer.isDigitOf radix)
  let rest := cs.drop whole.length
  let (fraction, rest) : List Char × List Char :=
    match rest with
    | '.' :: more =>
      let fraction := more.takeWhile (Integer.isDigitOf radix)
      if whole.isEmpty && fraction.isEmpty then ([], rest)
      else (fraction, more.drop fraction.length)
    | _ => ([], rest)
  if whole.isEmpty && fraction.isEmpty then none
  else some (Integer.ofDigits radix (whole ++ fraction), fraction.length, rest)

/-- The length of a word at the start of a text, in whatever case; zero if it is not there. -/
def wordLength (word : String) (cs : List Char) : Nat :=
  if (cs.take word.length).map Char.toLower == word.toList then word.length else 0

/-- Reads a number without its sign. -/
def readMagnitude? (p : Precision) (negative : Bool) (cs : List Char) : Option Reading :=
  let inf := max (wordLength "inf" cs) (wordLength "infinity" cs)
  if inf > 0 then some { number := infinite negative, rest := cs.drop inf }
  else if wordLength "nan" cs > 0 then some { number := notNumber negative, rest := cs.drop 3 }
  else
    let hexadecimal : Option (Nat × Nat × List Char) :=
      match cs with
      | '0' :: mark :: rest => if mark == 'x' || mark == 'X' then digits? 16 rest else none
      | _ => none
    match hexadecimal with
    | some (n, places, rest) =>
      let (e, rest) : Int × List Char :=
        match rest with
        | mark :: more =>
          if mark == 'p' || mark == 'P' then (exponent? more).getD (0, rest) else (0, rest)
        | [] => (0, rest)
      let (num, den) := quotient n (e - 4 * places)
      let (number, outOfRange) := ofQuotient p negative num den
      some { number, outOfRange, rest }
    | none =>
      match digits? 10 cs with
      | none => none
      | some (n, places, rest) =>
        let (e, rest) : Int × List Char :=
          match rest with
          | mark :: more =>
            if mark == 'e' || mark == 'E' then (exponent? more).getD (0, rest) else (0, rest)
          | [] => (0, rest)
        let scale : Int := e - places
        let (num, den) :=
          if 0 ≤ scale then (n * Nat.pow 10 scale.toNat, 1) else (n, Nat.pow 10 (-scale).toNat)
        let (number, outOfRange) := ofQuotient p negative num den
        some { number, outOfRange, rest }

/-- Reads a number off the start of an argument. -/
def read? (p : Precision) (cs : List Char) : Option Reading :=
  let (negative, cs) := Integer.splitSign (cs.dropWhile isSpace)
  readMagnitude? p negative cs

/-! ## Writing -/

/-- A quotient with a number of decimal places. -/
def fixed (num den places : Nat) (point : Bool) : List Char :=
  let scaled := Decimal.roundHalfEven (num * Nat.pow 10 places) den
  let digits := (toString scaled).toList
  let digits := List.replicate (places + 1 - digits.length) '0' ++ digits
  let whole := digits.take (digits.length - places)
  let fraction := digits.drop (digits.length - places)
  whole ++ (if places > 0 || point then '.' :: fraction else [])

/-- The largest `k` with `10 ^ k ≤ num / den`, for positive `num` and `den`. It lies within one of
what the lengths of both say. -/
def floorLog10 (num den : Nat) : Int :=
  let k : Int := ((toString num).length : Int) - (toString den).length
  let (a, b) :=
    if 0 ≤ k then (num, den * Nat.pow 10 k.toNat) else (num * Nat.pow 10 (-k).toNat, den)
  if b ≤ a then k else k - 1

/-- The digits of a quotient, one and `places` more, and the decimal exponent of the first. -/
def scientific (num den places : Nat) : Nat × Int :=
  if num = 0 then (0, 0)
  else
    let k := floorLog10 num den
    let shift : Int := places - k
    let (a, b) :=
      if 0 ≤ shift then (num * Nat.pow 10 shift.toNat, den)
      else (num, den * Nat.pow 10 (-shift).toNat)
    let q := Decimal.roundHalfEven a b
    if q = Nat.pow 10 (places + 1) then (q / 10, k + 1) else (q, k)

/-- An exponent with its sign and at least two digits. -/
def exponentText (mark : Char) (e : Int) : List Char :=
  let digits := (toString e.natAbs).toList
  mark :: (if e < 0 then '-' else '+') :: (List.replicate (2 - digits.length) '0' ++ digits)

/-- Digits with the point after the first. -/
def pointed (digits : List Char) (point : Bool) : List Char :=
  match digits with
  | first :: fraction => first :: (if fraction.isEmpty && !point then [] else '.' :: fraction)
  | [] => []

/-- A quotient as a digit, a fraction and an exponent. -/
def exponential (num den places : Nat) (point : Bool) : List Char :=
  let (q, e) := scientific num den places
  let digits := (toString q).toList
  let digits := digits ++ List.replicate (places + 1 - digits.length) '0'
  pointed digits point ++ exponentText 'e' e

/-- Takes zeros off the end of a fraction, and a point that is left bare. -/
def dropZeros (cs : List Char) : List Char :=
  if !cs.contains '.' then cs
  else
    match cs.reverse.dropWhile (· == '0') with
    | '.' :: rest => rest.reverse
    | rest => rest.reverse

/-- The shorter of the two forms for a number of significant digits. -/
def general (num den digits : Nat) (keepZeros : Bool) : List Char :=
  let digits := max digits 1
  let (q, e) := scientific num den (digits - 1)
  if -4 ≤ e && e < digits then
    let text := fixed num den (digits - 1 - e).toNat keepZeros
    if keepZeros then text else dropZeros text
  else
    let ds := (toString q).toList
    let mantissa := pointed (ds ++ List.replicate (digits - ds.length) '0') keepZeros
    (if keepZeros then mantissa else dropZeros mantissa) ++ exponentText 'e' e

/-- A number in hexadecimal, its first digit as large as the format's significand makes it:
`lead` bits stand before the point. -/
def hexadecimal (bits lead : Nat) (significand : Nat) (exponent : Int) (places : Option Nat)
    (point : Bool) : List Char :=
  let fractionDigits := (bits - lead) / 4
  let (m, e) : Nat × Int :=
    if significand = 0 then (0, 0)
    else
      let shift := bits - 1 - significand.log2
      (significand <<< shift, exponent - shift + 4 * fractionDigits)
  let (m, count) : Nat × Nat :=
    match places with
    | some p =>
      if p ≥ fractionDigits then (m * Nat.pow 16 (p - fractionDigits), p)
      else (Decimal.roundHalfEven m (Nat.pow 16 (fractionDigits - p)), p)
    | none => (m, fractionDigits)
  -- Rounding may carry into a second digit before the point.
  let (m, e) : Nat × Int := if m / Nat.pow 16 count ≥ 16 then (m / 16, e + 4) else (m, e)
  let whole := m / Nat.pow 16 count
  let digits := Nat.toDigits 16 (m % Nat.pow 16 count)
  let fraction := if count = 0 then [] else List.replicate (count - digits.length) '0' ++ digits
  let fraction :=
    if places.isNone then (fraction.reverse.dropWhile (· == '0')).reverse else fraction
  let exponent := 'p' :: (if e < 0 then '-' else '+') :: (toString e.natAbs).toList
  '0' :: 'x' :: Nat.toDigits 16 whole ++
    (if fraction.isEmpty && !point then [] else '.' :: fraction) ++ exponent

end Binary

end CommandScript.Program
