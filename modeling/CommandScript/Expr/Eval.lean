import CommandScript.Expr.Function
import CommandScript.Expr.Parser
import CommandScript.Script.Substitution

/-!
# Evaluating expressions

An expression is parsed as a whole before any of it is evaluated. `&&`, `||` and `?:` evaluate only
the operands they need.
-/

namespace CommandScript.Expr

variable {σ : Type} (sub : Substitutor σ)

mutual

def eval : Expr → Action σ Operand
  | literal v => pure v
  | varRef name => do Action.ofExcept (Operand.ofValue (← sub.reference name))
  | script text => do Action.ofExcept (Operand.ofValue (← sub.execute text))
  | quote text => do Action.ofExcept (Operand.ofValue (← sub.text text))
  | block text => Action.ofExcept (Operand.ofText text)
  | unary op arg => do Action.ofExcept (Operand.unary op (← eval arg))
  | binary op left right => do
    let a ← eval left
    let b ← eval right
    Action.ofExcept (Operand.binary op a b)
  | and left right => do
    let a ← eval left
    if a.isTrue then return .boolean (← eval right).isTrue else return .boolean false
  | or left right => do
    let a ← eval left
    if a.isTrue then return .boolean true else return .boolean (← eval right).isTrue
  | ternary condition yes no => do
    let c ← eval condition
    if c.isTrue then eval yes else eval no
  | call function args => do Action.ofExcept (MathFunction.call function (← evalAll args))

def evalAll : List Expr → Action σ (List Operand)
  | [] => pure []
  | e :: rest => do
    let v ← eval e
    return v :: (← evalAll rest)

end

/-- Parses and evaluates a text. -/
def evalText (text : String) : Action σ Operand := do
  let e ← Action.ofExcept (parse text)
  eval sub e

end CommandScript.Expr
