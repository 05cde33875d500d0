import CommandScript.Expr.Basic
import CommandScript.Word.Scanner

/-!
# Parsing expressions

Precedence climbing over the words of an expression. `expression` reads an operand and then every
infix operator that binds tighter than a bound; the operands of operators, the content of
parentheses and the arguments of functions are expressions nested one deeper. At most `maxNesting`
may be nested.
-/

namespace CommandScript

inductive ExprSyntaxFault where
  | empty
  | tooDeep
  | integerTooLarge (text : String)
  | bareword (text : String)
  | prematureEnd
  | missing (what : String)
  | unexpected (text : String)
  /-- A word that is illegal by itself. -/
  | illegal (reason : String)
  deriving DecidableEq, Repr

instance : Fault ExprSyntaxFault where
  kind _ := .parsing
  message
    | .empty => "empty expression"
    | .tooDeep => "expression nested too deeply"
    | .integerTooLarge text => s!"integer value too large to represent: \"{text}\""
    | .bareword text => s!"invalid bareword \"{text}\""
    | .prematureEnd => "premature end of expression"
    | .missing what => s!"missing \"{what}\" in expression"
    | .unexpected text => s!"unexpected \"{text}\" in expression"
    | .illegal reason => reason

namespace Expr

/-- What was read and the words that follow. -/
abbrev Read (α : Type) := α × List Word

def unexpected (w : Word) : ExprSyntaxFault :=
  match w.kind with
  | .illegal => .illegal w.text
  | .eof => .prematureEnd
  | _ => .unexpected w.text

/-- Reads a word of the given kind. -/
def expect (kind : WordKind) (what : String) : List Word → Except ExprSyntaxFault (List Word)
  | [] => .error (.missing what)
  | w :: rest =>
    if w.kind = kind then .ok rest
    else if w.kind = .eof then .error (.missing what)
    else .error (unexpected w)

def kindOf (ws : List Word) : WordKind := (ws.head?.map (·.kind)).getD .eof

section

-- Reads an expression nested one deeper, whose operators bind tighter than the bound.
variable (nested : Nat → List Word → Except ExprSyntaxFault (Read Expr))

/-- Reads the arguments of a function through the closing parenthesis; there is at least one. -/
def arguments : (fuel : Nat) → List Word → Except ExprSyntaxFault (Read (List Expr))
  | 0, _ => .error .prematureEnd
  | fuel + 1, ws => do
    let (arg, ws) ← nested 0 ws
    match ws with
    | [] => .error .prematureEnd
    | w :: ws =>
      match w.kind with
      | .comma => do
        let (args, ws) ← arguments fuel ws
        return (arg :: args, ws)
      | .rightParen => return ([arg], ws)
      | _ => .error (unexpected w)

/-- Reads an operand. -/
def operand : List Word → Except ExprSyntaxFault (Read Expr)
  | [] => .error .prematureEnd
  | w :: ws =>
    let prefixed (op : UnaryOp) : Except ExprSyntaxFault (Read Expr) := do
      let (arg, ws) ← nested UnaryOp.strength ws
      return (.unary op arg, ws)
    match w.kind with
    | .integer =>
      match Integer.parse? w.text with
      | some n => .ok (.literal (.integer n), ws)
      | none => .error (.integerTooLarge w.text)
    | .float =>
      match Decimal.parse? w.text.toList with
      | some x => .ok (.literal (.real x), ws)
      | none => .error (unexpected w)
    | .varRef => .ok (.varRef w.text, ws)
    | .script => .ok (.script w.text, ws)
    | .quote => .ok (.quote w.text, ws)
    | .block => .ok (.block w.text, ws)
    | .leftParen => do
      let (inner, ws) ← nested 0 ws
      return (inner, ← expect .rightParen ")" ws)
    | .minus => prefixed .negate
    | .plus => prefixed .plus
    | .bang => prefixed .not
    | .tilde => prefixed .bitNot
    | .literal =>
      if kindOf ws = .leftParen then
        let ws := ws.tail
        if kindOf ws = .rightParen then .ok (.call w.text [], ws.tail)
        else do
          let (args, ws) ← arguments nested (ws.length + 1) ws
          return (.call w.text args, ws)
      else
        match parseBoolean? w.text with
        | some b => .ok (.literal (.boolean b), ws)
        | none => .error (.bareword w.text)
    | _ => .error (unexpected w)

/-- Reads what follows an infix operator and its left operand. -/
def rightSide (op : InfixOp) (left : Expr) (ws : List Word) : Except ExprSyntaxFault (Read Expr) :=
  match op with
  | .binary op => do
    let (right, ws) ← nested (InfixOp.binary op).rightBound ws
    return (.binary op left right, ws)
  | .and => do
    let (right, ws) ← nested InfixOp.and.rightBound ws
    return (.and left right, ws)
  | .or => do
    let (right, ws) ← nested InfixOp.or.rightBound ws
    return (.or left right, ws)
  | .ternary => do
    let (yes, ws) ← nested 0 ws
    let ws ← expect .colon ":" ws
    let (no, ws) ← nested InfixOp.ternary.rightBound ws
    return (.ternary left yes no, ws)

/-- Reads the infix operators, at most `fuel` of them, that bind tighter than `bound`. -/
def operators (bound : Nat) : (fuel : Nat) → Expr → List Word → Except ExprSyntaxFault (Read Expr)
  | 0, left, ws => .ok (left, ws)
  | fuel + 1, left, ws =>
    match InfixOp.ofKind? (kindOf ws) with
    | none => .ok (left, ws)
    | some op =>
      if op.strength ≤ bound then .ok (left, ws)
      else do
        let (left, ws) ← rightSide nested op left ws.tail
        operators bound fuel left ws

end

/-- Reads an expression in which at most `nesting` expressions are nested, itself included. -/
def expression : (nesting : Nat) → (bound : Nat) → List Word → Except ExprSyntaxFault (Read Expr)
  | 0, _, _ => .error .tooDeep
  | nesting + 1, bound, ws => do
    let (left, ws) ← operand (expression nesting) ws
    operators (expression nesting) bound ws.length left ws

def maxNesting : Nat := 1000

/-- Reads a whole text as an expression. -/
def parse (text : String) : Except ExprSyntaxFault Expr := do
  let ws := words .expression text
  if kindOf ws = .eof then .error .empty
  else
    let (e, ws) ← expression maxNesting 0 ws
    match ws with
    | [] => .ok e
    | w :: _ => if w.kind = .eof then .ok e else .error (unexpected w)

end Expr

end CommandScript
