import CommandScript.Decimal.Shortest

/-!
# Decimal text

Floating-point numbers are written in positional notation, never with an exponent, in the fewest
digits that read back. Reading accepts a sign, a point, an exponent and the names of infinity and
of the undefined number, and rounds to the nearest number.
-/

namespace CommandScript.Decimal

/-! ## Writing -/

def zeros (n : Nat) : List Char := List.replicate n '0'

/-- The text of `digits * 10 ^ exponent` in positional notation, zeros at the end of the
fraction left out. -/
def positional (d : Digits) : List Char :=
  let shown := (toString d.digits).toList
  if 0 ≤ d.exponent then shown ++ zeros d.exponent.toNat
  else
    let places := (-d.exponent).toNat
    let padded := zeros (places + 1 - shown.length) ++ shown
    let whole := padded.take (padded.length - places)
    let fraction := ((padded.drop (padded.length - places)).reverse.dropWhile (· == '0')).reverse
    if fraction.isEmpty then whole else whole ++ '.' :: fraction

/-- Whether the sign bit is set; it tells `-0` from `0`. -/
def isNegative (x : Float) : Bool := x.toBits ≥ 0x8000000000000000

/-- The text of a finite number. -/
def render (x : Float) : String :=
  let bits := (x.toBits &&& 0x7FFFFFFFFFFFFFFF).toNat
  let shown := if bits = 0 then ['0'] else positional (Binary.ofBits bits).shortest
  String.ofList (if isNegative x then '-' :: shown else shown)

/-! ## Reading -/

def lowerAscii (cs : List Char) : List Char := cs.map Char.toLower

def digitsValue (cs : List Char) : Nat :=
  cs.foldl (fun n c => n * 10 + (c.toNat - '0'.toNat)) 0

/-- The infinite number; what is too large rounds to it. -/
def infinite (negative : Bool) : Float := nearest negative (1 <<< 1100) 1

/-- The number nearest to `mantissa * 10 ^ exponent`. Beyond the range of floating point the
exact quotient is not formed. -/
def ofScientific (negative : Bool) (mantissa : Nat) (exponent : Int) : Float :=
  let size : Int := (toString mantissa).length
  if mantissa = 0 || size + exponent < -400 then nearest negative 0 1
  else if size + exponent > 400 then infinite negative
  else if 0 ≤ exponent then nearest negative (mantissa * Nat.pow 10 exponent.toNat) 1
  else nearest negative mantissa (Nat.pow 10 (-exponent).toNat)

/-- Reads an exponent: nothing, or `e`, a sign and at least one digit. -/
def exponent? : List Char → Option Int
  | [] => some 0
  | e :: cs =>
    if e == 'e' || e == 'E' then
      let (negative, digits) :=
        match cs with
        | '-' :: r => (true, r)
        | '+' :: r => (false, r)
        | r => (false, r)
      if digits.isEmpty || !digits.all Char.isDigit then none
      else
        let n : Int := digitsValue digits
        some (if negative then -n else n)
    else none

/-- Reads a decimal without a sign. -/
def unsigned? (negative : Bool) (cs : List Char) : Option Float :=
  match String.ofList (lowerAscii cs) with
  | "inf" | "infinity" => some (infinite negative)
  | "nan" => some (0.0 / 0.0)
  | _ =>
    let whole := cs.takeWhile Char.isDigit
    let (fraction, rest) :=
      match cs.dropWhile Char.isDigit with
      | '.' :: after => (after.takeWhile Char.isDigit, after.dropWhile Char.isDigit)
      | rest => ([], rest)
    if whole.isEmpty && fraction.isEmpty then none
    else
      (exponent? rest).map fun e =>
        ofScientific negative (digitsValue (whole ++ fraction)) (e - fraction.length)

/-- Reads a decimal. No blanks may stand around it. -/
def parse? (cs : List Char) : Option Float :=
  match cs with
  | '-' :: r => unsigned? true r
  | '+' :: r => unsigned? false r
  | r => unsigned? false r

end CommandScript.Decimal
