import CommandScript.Integer

/-!
# Numerals in arguments

Programs read a number off the start of an argument: blanks and a sign may stand before it, and
whatever follows it is left. The number is exact here; each reader decides what its range is.
-/

namespace CommandScript.Program

/-- The blanks before a number. -/
def isSpace (c : Char) : Bool :=
  c == ' ' || c == '\t' || c == '\n' || c == '\x0b' || c == '\x0c' || c == '\r'

/-- A number read off the start of an argument. -/
structure Numeral where
  negative : Bool
  magnitude : Nat
  /-- What follows the number. -/
  rest : List Char

namespace Numeral

def value (n : Numeral) : Int := if n.negative then -(n.magnitude : Int) else n.magnitude

/-- The radix that the start of a number gives, and its digits. A mark that no digit follows is not
taken for one. -/
def splitRadix (cs : List Char) : Nat × List Char :=
  match cs with
  | '0' :: mark :: digit :: rest =>
    if (mark == 'x' || mark == 'X') && Integer.isDigitOf 16 digit then (16, digit :: rest)
    else if (mark == 'b' || mark == 'B') && Integer.isDigitOf 2 digit then (2, digit :: rest)
    else (8, cs)
  | '0' :: _ => (8, cs)
  | _ => (10, cs)

/-- Reads an integer: in decimal, or in the radix that its start gives. -/
def read? (decimal : Bool) (cs : List Char) : Option Numeral :=
  let (negative, cs) := Integer.splitSign (cs.dropWhile isSpace)
  let (radix, cs) := if decimal then (10, cs) else splitRadix cs
  let digits := cs.takeWhile (Integer.isDigitOf radix)
  if digits.isEmpty then none
  else
    some { negative, magnitude := Integer.ofDigits radix digits, rest := cs.drop digits.length }

/-- The signed 64-bit word nearest to the number, and whether it is another number. -/
def toSigned (n : Numeral) : Int × Bool :=
  if n.value > Int64.maxValue.toInt then (Int64.maxValue.toInt, true)
  else if n.value < Int64.minValue.toInt then (Int64.minValue.toInt, true)
  else (n.value, false)

/-- The number as an unsigned 64-bit word, where a negative one wraps around, and whether it is too
large. -/
def toUnsigned (n : Numeral) : Nat × Bool :=
  if n.magnitude ≥ UInt64.size then (UInt64.size - 1, true)
  else if n.negative && n.magnitude != 0 then (UInt64.size - n.magnitude, false)
  else (n.magnitude, false)

end Numeral

end CommandScript.Program
