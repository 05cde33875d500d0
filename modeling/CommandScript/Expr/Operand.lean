import CommandScript.Value.Convert

/-!
# Operands

Expressions compute with integers of 64 bits, reals and booleans. Integers wrap around. Arithmetic
on an integer and a real is done on reals, and a boolean counts as 0 or 1. Comparison by size
wants two operands of one type, and operations on bits want integers.
-/

namespace CommandScript

inductive Operand where
  | integer (n : Int64)
  | real (x : Float)
  | boolean (b : Bool)
  deriving Inhabited, Repr

/-- Why an operation has no result. -/
inductive OperandFault where
  | notNumber (text : String)
  | notOperand (typeName text : String)
  | notComparable (left right operator : String)
  | negativeShift
  | divisionByZero
  | unsupported (typeName text operator : String)
  | domain
  deriving DecidableEq, Repr

instance : Fault OperandFault where
  kind
    | .notNumber _ | .notOperand _ _ | .notComparable _ _ _ | .negativeShift => .typeMismatch
    | .divisionByZero => .divisionByZero
    | .unsupported _ _ _ | .domain => .unsupportedOperation
  message
    | .notNumber text => s!"expected number but got \"{text}\""
    | .notOperand typeName text => s!"can't use {typeName} \"{text}\" as an operand"
    | .notComparable left right operator =>
      s!"can't compare {left} with {right} using \"{operator}\""
    | .negativeShift => "negative shift argument"
    | .divisionByZero => "divide by zero"
    | .unsupported typeName text operator =>
      s!"can't use {typeName} \"{text}\" as operand of \"{operator}\""
    | .domain => "domain error: argument not in valid range"

namespace Operand

/-- Whether an operand counts as true: a number does if it is not zero. -/
def isTrue : Operand → Bool
  | integer n => n != 0
  | real x => x != 0
  | boolean b => b

def typeName : Operand → String
  | integer _ => "integer"
  | real _ => "real"
  | boolean _ => "boolean"

def text : Operand → String
  | integer n => Integer.toText n
  | real x => Number.realText x
  | boolean b => if b then "1" else "0"

/-- A boolean as 0 or 1; a number as it is. -/
def numeric : Operand → Operand
  | boolean b => integer (if b then 1 else 0)
  | x => x

def toReal : Operand → Float
  | integer n => Number.ofInt64 n
  | real x => x
  | boolean b => if b then 1 else 0

def toValue : Operand → Value
  | integer n => Value.ofInt64 n
  | real x => .string (Number.realText x)
  | boolean b => .boolean b

/-! ## Operands from values -/

/-- Reads an integer, a word for true or false, or a real, the first that fits. -/
def ofText (s : String) : Except OperandFault Operand :=
  match Integer.parse? s with
  | some n => .ok (integer n)
  | none =>
    match parseBoolean? s with
    | some b => .ok (boolean b)
    | none =>
      match Decimal.parse? (Text.trimBoth Text.isBlank s.toList) with
      | some x => .ok (real x)
      | none => .error (.notNumber s)

def ofFloat (x : Float) : Operand :=
  if Number.isWhole x && x.abs < 9.0e18 then integer x.toInt64 else real x

def ofValue (v : Value) : Except OperandFault Operand :=
  match v.unwrap with
  | .number x => .ok (ofFloat x)
  | .boolean b => .ok (boolean b)
  | .string s => ofText s
  | w => .error (.notOperand w.typeName w.text)

end Operand

/-! ## Operators -/

inductive UnaryOp where
  | negate | plus | not | bitNot
  deriving DecidableEq, Repr, Inhabited

inductive BinaryOp where
  | add | sub | mul | div | mod | pow
  | eq | ne | lt | le | gt | ge
  | bitAnd | bitOr | bitXor | shl | shr
  deriving DecidableEq, Repr, Inhabited

def BinaryOp.symbol : BinaryOp → String
  | add => "+" | sub => "-" | mul => "*" | div => "/" | mod => "%" | pow => "**"
  | eq => "==" | ne => "!=" | lt => "<" | le => "<=" | gt => ">" | ge => ">="
  | bitAnd => "&" | bitOr => "|" | bitXor => "^" | shl => "<<" | shr => ">>"

namespace Operand

def unsupported (v : Operand) (operator : String) : OperandFault :=
  .unsupported v.typeName v.text operator

def unary (op : UnaryOp) (v : Operand) : Except OperandFault Operand :=
  match op with
  | .not => .ok (boolean !v.isTrue)
  | .plus => .ok v.numeric
  | .negate =>
    match v.numeric with
    | real x => .ok (real (-x))
    | integer n => .ok (integer (-n))
    | boolean _ => .error (v.unsupported "-")
  | .bitNot =>
    match v with
    | integer n => .ok (integer (~~~n))
    | _ => .error (v.unsupported "~")

/-- An operation on numbers, done on integers if both are. -/
def arithmetic (ints : Int64 → Int64 → Int64) (reals : Float → Float → Float) (a b : Operand) :
    Operand :=
  match a.numeric, b.numeric with
  | integer m, integer n => integer (ints m n)
  | x, y => real (reals x.toReal y.toReal)

def divide (a b : Operand) : Except OperandFault Operand :=
  match a.numeric, b.numeric with
  | integer m, integer n =>
    if n = 0 then .error .divisionByZero else .ok (integer (Integer.floorDiv m n))
  | x, y =>
    if y.toReal == 0 then .error .divisionByZero else .ok (real (x.toReal / y.toReal))

def modulo (a b : Operand) : Except OperandFault Operand :=
  match a.numeric, b.numeric with
  | integer m, integer n =>
    if n = 0 then .error .divisionByZero else .ok (integer (Integer.floorMod m n))
  | real _, _ => .error (a.unsupported "%")
  | _, _ => .error (b.unsupported "%")

/-- Integer powers go by way of reals. -/
def power (a b : Operand) : Operand :=
  arithmetic (fun m n => ((Number.ofInt64 m).pow (Number.ofInt64 n)).toInt64) Float.pow a b

def equal (a b : Operand) : Bool :=
  match a.numeric, b.numeric with
  | integer m, integer n => m == n
  | x, y => x.toReal == y.toReal

/-- Comparison by size; nothing compares with an undefined number. -/
def compare (op : BinaryOp) (ints : Int64 → Int64 → Bool) (reals : Float → Float → Bool)
    (a b : Operand) : Except OperandFault Operand :=
  match a, b with
  | integer m, integer n => .ok (boolean (ints m n))
  | real x, real y => .ok (boolean (reals x y))
  | boolean p, boolean q =>
    .ok (boolean (ints (if p then 1 else 0) (if q then 1 else 0)))
  | _, _ => .error (.notComparable a.typeName b.typeName op.symbol)

/-- An operation on bits. -/
def bits (op : BinaryOp) (ints : Int64 → Int64 → Except OperandFault Int64) (a b : Operand) :
    Except OperandFault Operand :=
  match a, b with
  | integer m, integer n => (ints m n).map integer
  | integer _, _ => .error (b.unsupported op.symbol)
  | _, _ => .error (a.unsupported op.symbol)

/-- A shift by an amount that must not be negative. -/
def shift (by' : Int64 → Int64 → Int64) (m n : Int64) : Except OperandFault Int64 :=
  if n < 0 then .error .negativeShift else .ok (by' m n)

def binary (op : BinaryOp) (a b : Operand) : Except OperandFault Operand :=
  match op with
  | .add => .ok (arithmetic (· + ·) (· + ·) a b)
  | .sub => .ok (arithmetic (· - ·) (· - ·) a b)
  | .mul => .ok (arithmetic (· * ·) (· * ·) a b)
  | .div => divide a b
  | .mod => modulo a b
  | .pow => .ok (power a b)
  | .eq => .ok (boolean (equal a b))
  | .ne => .ok (boolean !(equal a b))
  | .lt => compare op (· < ·) (· < ·) a b
  | .le => compare op (· ≤ ·) (· ≤ ·) a b
  | .gt => compare op (· > ·) (· > ·) a b
  | .ge => compare op (· ≥ ·) (· ≥ ·) a b
  | .bitAnd => bits op (fun m n => .ok (m &&& n)) a b
  | .bitOr => bits op (fun m n => .ok (m ||| n)) a b
  | .bitXor => bits op (fun m n => .ok (m ^^^ n)) a b
  | .shl => bits op (shift Integer.shiftLeft) a b
  | .shr => bits op (shift Integer.shiftRight) a b

end Operand

end CommandScript
