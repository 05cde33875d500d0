import CommandScript.Expr.Operand
import CommandScript.Word.Basic

/-!
# Expressions

The tree of an expression, and the table of its infix operators: how tightly each binds and to
which side it groups.
-/

namespace CommandScript

inductive Expr where
  | literal (v : Operand)
  | varRef (name : String)
  | script (text : String)
  | quote (text : String)
  | block (text : String)
  | unary (op : UnaryOp) (arg : Expr)
  | binary (op : BinaryOp) (left right : Expr)
  | and (left right : Expr)
  | or (left right : Expr)
  | ternary (condition yes no : Expr)
  | call (function : String) (args : List Expr)
  deriving Inhabited, Repr

inductive InfixOp where
  | binary (op : BinaryOp)
  | and
  | or
  | ternary
  deriving DecidableEq, Repr, Inhabited

/-- The infix operator that a word stands for. -/
def InfixOp.ofKind? : WordKind → Option InfixOp
  | .question => some .ternary
  | .or => some .or
  | .and => some .and
  | .bitOr => some (.binary .bitOr)
  | .caret => some (.binary .bitXor)
  | .bitAnd => some (.binary .bitAnd)
  | .equal => some (.binary .eq)
  | .notEqual => some (.binary .ne)
  | .less => some (.binary .lt)
  | .lessEqual => some (.binary .le)
  | .greater => some (.binary .gt)
  | .greaterEqual => some (.binary .ge)
  | .shiftLeft => some (.binary .shl)
  | .shiftRight => some (.binary .shr)
  | .plus => some (.binary .add)
  | .minus => some (.binary .sub)
  | .star => some (.binary .mul)
  | .slash => some (.binary .div)
  | .percent => some (.binary .mod)
  | .power => some (.binary .pow)
  | _ => none

/-- How tightly a binary operator binds. -/
def BinaryOp.strength : BinaryOp → Nat
  | bitOr => 4
  | bitXor => 5
  | bitAnd => 6
  | eq | ne => 7
  | lt | le | gt | ge => 8
  | shl | shr => 9
  | add | sub => 10
  | mul | div | mod => 11
  | pow => 12

/-- How tightly an infix operator binds. -/
def InfixOp.strength : InfixOp → Nat
  | ternary => 1
  | or => 2
  | and => 3
  | binary op => op.strength

/-- Whether an infix operator groups to the right. -/
def InfixOp.groupsRight : InfixOp → Bool
  | ternary | binary .pow => true
  | _ => false

/-- How tightly the unary operators bind: more than any infix operator. -/
def UnaryOp.strength : Nat := 13

/-- An operator in the right operand has to bind tighter than this. -/
def InfixOp.rightBound (op : InfixOp) : Nat :=
  if op.groupsRight then op.strength - 1 else op.strength

end CommandScript
