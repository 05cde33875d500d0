import CommandScript.Decimal.Text
import CommandScript.Integer

/-!
# Text of numbers

A number that is whole and below `10 ^ 15` is written as an integer, any other in the fewest
digits. A real keeps its point (`3.0`), so that it reads back as a real.
-/

namespace CommandScript.Number

/-- Two to the power 53. All integers up to this size are floating-point numbers. -/
def exactBound : Int := 0x20000000000000

/-- The floating-point number nearest to an integer, a tie going to the even one. -/
def ofInt64 (n : Int64) : Float := Decimal.nearest (n < 0) n.toInt.natAbs 1

/-- Whether a number is finite and has no fraction. -/
def isWhole (x : Float) : Bool := x.isFinite && x.floor == x

/-- The number without its fraction. -/
def truncate (x : Float) : Float := if x < 0 then x.ceil else x.floor

/-- Whether a number is written as an integer. -/
def isShownWhole (x : Float) : Bool := isWhole x && x.abs < 1e15

def toText (x : Float) : String :=
  if x.isNaN then "NaN"
  else if x.isInf then (if x > 0 then "Inf" else "-Inf")
  else if isShownWhole x then Integer.toText x.toInt64
  else Decimal.render x

/-- The text of a real. -/
def realText (x : Float) : String :=
  if isShownWhole x then Decimal.render x ++ ".0" else toText x

end CommandScript.Number
