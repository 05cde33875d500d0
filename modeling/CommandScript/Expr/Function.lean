import CommandScript.Expr.Operand

/-!
# Math functions

The functions an expression can call. A real result that is undefined is a domain fault.
-/

namespace CommandScript

inductive FunctionFault where
  | unknown (name : String)
  | tooFew (name : String)
  | tooMany (name : String)
  | operand (fault : OperandFault)
  deriving DecidableEq, Repr

instance : Fault FunctionFault where
  kind
    | .unknown _ => .parsing
    | .tooFew _ | .tooMany _ => .argumentCount
    | .operand fault => Fault.kind fault
  message
    | .unknown name => s!"unknown math function \"{name}\""
    | .tooFew name => s!"too few arguments to math function \"{name}\""
    | .tooMany name => s!"too many arguments to math function \"{name}\""
    | .operand fault => Fault.message fault

inductive MathFunction where
  | abs | int | double | round | floor | ceil | sqrt | bool | pow | min | max
  deriving DecidableEq, Repr, Inhabited

namespace MathFunction

def ofName? : String → Option MathFunction
  | "abs" => some abs
  | "int" => some int
  | "double" => some double
  | "round" => some round
  | "floor" => some floor
  | "ceil" => some ceil
  | "sqrt" => some sqrt
  | "bool" => some bool
  | "pow" => some pow
  | "min" => some min
  | "max" => some max
  | _ => none

/-- A function of one argument: on integers as `ints` says, else on reals. -/
def onInteger (ints : Int64 → Operand) (reals : Float → Operand) (a : Operand) : Operand :=
  match a.numeric with
  | .integer n => ints n
  | x => reals x.toReal

/-- The first operand that `better` prefers to all before it; an integer if all are. -/
def pick (better : Float → Float → Bool) (first : Operand) (others : List Operand) : Operand :=
  let choose (best v : Operand) := if better v.toReal best.toReal then v else best
  let best := (others.map Operand.numeric).foldl choose first.numeric
  if (first :: others).all fun v => v.numeric matches .integer _ then best else .real best.toReal

/-- The result of a function, or none if the number of arguments is wrong. -/
def result? : MathFunction → List Operand → Option Operand
  | abs, [a] => some (onInteger (.integer ∘ Integer.abs) (.real ∘ Float.abs) a)
  | int, [a] => some (onInteger .integer (fun x => .integer (Number.truncate x).toInt64) a)
  | round, [a] => some (onInteger .integer (fun x => .integer x.round.toInt64) a)
  | double, [a] => some (.real a.toReal)
  | floor, [a] => some (.real a.toReal.floor)
  | ceil, [a] => some (.real a.toReal.ceil)
  | sqrt, [a] => some (.real a.toReal.sqrt)
  | bool, [a] => some (.boolean a.isTrue)
  | pow, [a, b] => some (.real (a.toReal.pow b.toReal))
  | min, a :: others => some (pick (· < ·) a others)
  | max, a :: others => some (pick (· > ·) a others)
  | _, _ => none

/-- The least number of arguments. -/
def arity : MathFunction → Nat
  | pow => 2
  | _ => 1

/-- Calls the function of a name. -/
def call (name : String) (args : List Operand) : Except FunctionFault Operand :=
  match ofName? name with
  | none => .error (.unknown name)
  | some f =>
    match f.result? args with
    | some (.real x) => if x.isNaN then .error (.operand .domain) else .ok (.real x)
    | some v => .ok v
    | none => .error (if args.length < f.arity then .tooFew name else .tooMany name)

end MathFunction

end CommandScript
