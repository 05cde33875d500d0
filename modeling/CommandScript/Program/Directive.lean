import CommandScript.Program.Binary

/-!
# Format directives

A directive of a format says how one value is written: its flags, the least width of the field, a
precision, and a letter for the conversion. Here are the conversions of texts, integers and
fractions; which directives a program takes, and how it reads their values, is the program's own.
-/

namespace CommandScript.Program

structure Directive where
  left : Bool := false
  plus : Bool := false
  blank : Bool := false
  alternate : Bool := false
  zeros : Bool := false
  width : Nat := 0
  precision : Option Nat := none
  conversion : Char := 's'
  deriving DecidableEq, Repr, Inhabited

namespace Directive

/-- Sets the flag of a character. -/
def setFlag (d : Directive) (c : Char) : Directive :=
  match c with
  | '-' => { d with left := true }
  | '+' => { d with plus := true }
  | ' ' => { d with blank := true }
  | '#' => { d with alternate := true }
  | '0' => { d with zeros := true }
  | _ => d

/-- Sets the width; a negative one means a field that is filled on the right. -/
def setWidth (d : Directive) (n : Int) : Directive :=
  { d with width := n.natAbs, left := d.left || n < 0 }

/-- Sets the precision; a negative one means none. -/
def setPrecision (d : Directive) (n : Int) : Directive :=
  { d with precision := if n < 0 then none else some n.toNat }

/-- The widest field that can be written. -/
def largest : Int := 0x7FFFFFFF

def tooWide (d : Directive) : Bool :=
  largest < d.width || d.precision.any fun n => largest < (n : Int)

/-- Fills a field with blanks. -/
def fill (d : Directive) (text : List Char) : List Char :=
  let missing := List.replicate (d.width - text.length) ' '
  if d.left then text ++ missing else missing ++ text

/-- Fills a field of a number: zeros go between what stands before the digits and the digits. -/
def fillNumber (d : Directive) (zeros : Bool) (front digits : List Char) : List Char :=
  if zeros && !d.left then
    front ++ List.replicate (d.width - front.length - digits.length) '0' ++ digits
  else d.fill (front ++ digits)

def signOf (d : Directive) (negative : Bool) : List Char :=
  if negative then ['-'] else if d.plus then ['+'] else if d.blank then [' '] else []

def upper (on : Bool) (cs : List Char) : List Char := if on then cs.map Char.toUpper else cs

def text (d : Directive) (cs : List Char) : List Char :=
  d.fill ((d.precision.map cs.take).getD cs)

def char (d : Directive) (c : Char) : List Char := d.fill [c]

/-- The digits of a natural, as many as the precision says; zero has none if that is zero. -/
def digits (d : Directive) (radix n : Nat) : List Char :=
  match d.precision with
  | some p =>
    let ds := if n = 0 then [] else Nat.toDigits radix n
    List.replicate (p - ds.length) '0' ++ ds
  | none => Nat.toDigits radix n

def signed (d : Directive) (n : Int) : List Char :=
  d.fillNumber (d.zeros && d.precision.isNone) (d.signOf (n < 0)) (d.digits 10 n.natAbs)

def unsigned (d : Directive) (n : Nat) : List Char :=
  let zeros := d.zeros && d.precision.isNone
  match d.conversion with
  | 'o' =>
    let ds := d.digits 8 n
    let ds := if d.alternate && ds.head? != some '0' then '0' :: ds else ds
    d.fillNumber zeros [] ds
  | 'x' | 'X' =>
    let isUpper := d.conversion == 'X'
    let front := if d.alternate && n != 0 then ['0', 'x'] else []
    d.fillNumber zeros (upper isUpper front) (upper isUpper (d.digits 16 n))
  | _ => d.fillNumber zeros [] (d.digits 10 n)

/-- How a format writes hexadecimal fractions: the bits of a significand, and how many of them
stand before the point. -/
structure HexForm where
  bits : Nat
  lead : Nat

def real (d : Directive) (form : HexForm) (x : Binary) : List Char :=
  let isUpper := d.conversion.isUpper
  let sign := d.signOf x.isNegative
  match x with
  | .infinite _ => d.fill (sign ++ upper isUpper ['i', 'n', 'f'])
  | .notNumber _ => d.fill (sign ++ upper isUpper ['n', 'a', 'n'])
  | .finite _ significand exponent =>
    let (num, den) := Binary.quotient significand exponent
    let places := d.precision.getD 6
    let (front, digits) : List Char × List Char :=
      match d.conversion.toLower with
      | 'f' => ([], Binary.fixed num den places d.alternate)
      | 'e' => ([], Binary.exponential num den places d.alternate)
      | 'g' => ([], Binary.general num den places d.alternate)
      | _ =>
        let cs :=
          Binary.hexadecimal form.bits form.lead significand exponent d.precision d.alternate
        (cs.take 2, cs.drop 2)
    d.fillNumber d.zeros (sign ++ upper isUpper front) (upper isUpper digits)

end Directive

end CommandScript.Program
