import CommandScript.Expr.Parser
import CommandScript.Proofs.Word.Lexeme

/-!
# Writing expressions

The table of the infix operators, and how a tree is written by it: as tokens with single blanks
between them, in parentheses only where the table asks for them.

* `InfixOp.table`: the operators from the loosest to the tightest row.
* `Expr.tokens`, `Expr.render`: the tokens of a tree, and its text.
* `Expr.activations`: how many expressions are nested in one another while that text is parsed.
* `Expr.isWritable`: the trees whose leaves can be written.
-/

namespace CommandScript

/-! ## The table of operators -/

/-- The side to which operators that bind alike group. -/
inductive Grouping where
  | left | right
  deriving DecidableEq, Repr

namespace InfixOp

/-- The infix operators, from the row that binds loosest to the row that binds tightest. -/
def table : List (Grouping × List InfixOp) :=
  [(.right, [.ternary]),
    (.left, [.or]),
    (.left, [.and]),
    (.left, [.binary .bitOr]),
    (.left, [.binary .bitXor]),
    (.left, [.binary .bitAnd]),
    (.left, [.binary .eq, .binary .ne]),
    (.left, [.binary .lt, .binary .le, .binary .gt, .binary .ge]),
    (.left, [.binary .shl, .binary .shr]),
    (.left, [.binary .add, .binary .sub]),
    (.left, [.binary .mul, .binary .div, .binary .mod]),
    (.right, [.binary .pow])]

/-- The row in which an operator stands, counted from one. -/
def power (op : InfixOp) : Nat := table.findIdx (fun row => row.2.contains op) + 1

/-- The side to which the row of an operator groups. -/
def grouping (op : InfixOp) : Grouping :=
  ((table.find? fun row => row.2.contains op).map Prod.fst).getD .left

/-- How an operator is written; `?:` has a colon further on. -/
def symbol : InfixOp → String
  | .binary op => op.symbol
  | .and => "&&"
  | .or => "||"
  | .ternary => "?"

/-- The kind of the word that an operator is. -/
def kind : InfixOp → WordKind
  | .ternary => .question
  | .or => .or
  | .and => .and
  | .binary .bitOr => .bitOr
  | .binary .bitXor => .caret
  | .binary .bitAnd => .bitAnd
  | .binary .eq => .equal
  | .binary .ne => .notEqual
  | .binary .lt => .less
  | .binary .le => .lessEqual
  | .binary .gt => .greater
  | .binary .ge => .greaterEqual
  | .binary .shl => .shiftLeft
  | .binary .shr => .shiftRight
  | .binary .add => .plus
  | .binary .sub => .minus
  | .binary .mul => .star
  | .binary .div => .slash
  | .binary .mod => .percent
  | .binary .pow => .power

/-- Whether an operand on the left of `op` needs parentheses if `top` is its outermost operator. -/
def wrapsLeft (op top : InfixOp) : Bool :=
  match op.grouping with
  | .left => top.power < op.power
  | .right => top.power ≤ op.power

/-- Whether an operand on the right of `op` needs parentheses if `top` is its outermost
operator. -/
def wrapsRight (op top : InfixOp) : Bool :=
  match op.grouping with
  | .left => top.power ≤ op.power
  | .right => top.power < op.power

end InfixOp

namespace UnaryOp

def symbol : UnaryOp → String
  | negate => "-"
  | plus => "+"
  | not => "!"
  | bitNot => "~"

def kind : UnaryOp → WordKind
  | negate => .minus
  | plus => .plus
  | not => .bang
  | bitNot => .tilde

end UnaryOp

/-! ## Tokens -/

/-- A word of an expression, wherever it stands. -/
structure Token where
  kind : WordKind
  text : String
  source : String
  deriving DecidableEq, Repr

def Word.token (w : Word) : Token := ⟨w.kind, w.text, w.source⟩

namespace Lexeme

/-- Whether a text is made of letters, digits, underscores and double colons. -/
def isNameText : List Char → Bool
  | [] => true
  | ':' :: ':' :: cs => isNameText cs
  | c :: cs => isNameChar c && isNameText cs

/-- Whether a variable's name can stand after a dollar sign as it is: a plain name, or one with an
index in which parentheses match. -/
def isBareName (cs : List Char) : Bool :=
  let base := cs.takeWhile (· != '(')
  !base.isEmpty && isNameText base &&
    match cs.dropWhile (· != '(') with
    | [] => true
    | _ :: after => after.getLast? == some ')' && balancedFrom '(' ')' 0 after.dropLast

/-- Whether a word is the name of a function. -/
def isFunctionName (cs : List Char) : Bool :=
  cs.head?.any (fun c => c.isAlpha || c = '_') && cs.all isNameChar

end Lexeme

namespace Token

/-- A token that stands for what is written. -/
def plain (kind : WordKind) (text : String) : Token := ⟨kind, text, text⟩

def leftParen : Token := plain .leftParen "("

def rightParen : Token := plain .rightParen ")"

def comma : Token := plain .comma ","

def colon : Token := plain .colon ":"

def eof : Token := plain .eof ""

def unary (op : UnaryOp) : Token := plain op.kind op.symbol

def operator (op : InfixOp) : Token := plain op.kind op.symbol

/-- A variable, in braces if its name cannot stand alone. -/
def variableRef (name : String) : Token :=
  { kind := .varRef
    text := name
    source := if Lexeme.isBareName name.toList then "$" ++ name else "$\x7b" ++ name ++ "\x7d" }

def script (text : String) : Token := ⟨.script, text, "[" ++ text ++ "]"⟩

def quote (text : String) : Token := ⟨.quote, text, "\"" ++ text ++ "\""⟩

def block (text : String) : Token := ⟨.block, text, "\x7b" ++ text ++ "\x7d"⟩

def literal : Operand → Token
  | .integer n => plain .integer (Integer.toText n)
  | .real x => plain .float (Number.realText x)
  | .boolean b => plain .literal (if b then "true" else "false")

/-- Puts tokens in parentheses, if they need them. -/
def wrap (needed : Bool) (ts : List Token) : List Token :=
  if needed then leftParen :: (ts ++ [rightParen]) else ts

end Token

/-! ## Trees -/

namespace Expr

/-- The outermost operator of a tree, if that is an infix operator. -/
def top? : Expr → Option InfixOp
  | binary op _ _ => some (.binary op)
  | and _ _ => some .and
  | or _ _ => some .or
  | ternary _ _ _ => some .ternary
  | _ => none

/-- Whether a tree needs parentheses on the left of an operator. Before `?` this is so just if it
is a `?:` itself. -/
def wrapsLeft (op : InfixOp) (left : Expr) : Bool := left.top?.any op.wrapsLeft

/-- Whether a tree needs parentheses on the right of an operator. -/
def wrapsRight (op : InfixOp) (right : Expr) : Bool := right.top?.any op.wrapsRight

mutual

/-- The tokens of a tree. -/
def tokens : Expr → List Token
  | literal v => [.literal v]
  | varRef name => [.variableRef name]
  | script text => [.script text]
  | quote text => [.quote text]
  | block text => [.block text]
  | unary op arg => .unary op :: Token.wrap arg.top?.isSome arg.tokens
  | binary op left right =>
    Token.wrap (wrapsLeft (.binary op) left) left.tokens ++
      .operator (.binary op) :: Token.wrap (wrapsRight (.binary op) right) right.tokens
  | and left right =>
    Token.wrap (wrapsLeft .and left) left.tokens ++
      .operator .and :: Token.wrap (wrapsRight .and right) right.tokens
  | or left right =>
    Token.wrap (wrapsLeft .or left) left.tokens ++
      .operator .or :: Token.wrap (wrapsRight .or right) right.tokens
  | ternary condition yes no =>
    Token.wrap (wrapsLeft .ternary condition) condition.tokens ++
      .operator .ternary :: (yes.tokens ++ .colon :: no.tokens)
  | call function args =>
    .plain .literal function :: .leftParen :: (argumentTokens args ++ [.rightParen])

/-- The tokens of the arguments of a function, commas between them. -/
def argumentTokens : List Expr → List Token
  | [] => []
  | [e] => e.tokens
  | e :: rest => e.tokens ++ .comma :: argumentTokens rest

end

/-- The text of a tree. -/
def render (e : Expr) : String := " ".intercalate (e.tokens.map Token.source)

/-- The nesting of an operand, which parentheses add to. -/
def wrappedDepth (needed : Bool) (depth : Nat) : Nat := if needed then depth + 1 else depth

mutual

/-- How many expressions are nested in one another, the outermost included, while the text of a
tree is parsed. Parentheses, the operand of a unary operator, what follows an infix operator and
the arguments of a function are nested; the left operand of an infix operator is not. -/
def activations : Expr → Nat
  | unary _ arg => wrappedDepth arg.top?.isSome arg.activations + 1
  | binary op left right =>
    max (wrappedDepth (wrapsLeft (.binary op) left) left.activations)
      (wrappedDepth (wrapsRight (.binary op) right) right.activations + 1)
  | and left right =>
    max (wrappedDepth (wrapsLeft .and left) left.activations)
      (wrappedDepth (wrapsRight .and right) right.activations + 1)
  | or left right =>
    max (wrappedDepth (wrapsLeft .or left) left.activations)
      (wrappedDepth (wrapsRight .or right) right.activations + 1)
  | ternary condition yes no =>
    max (wrappedDepth (wrapsLeft .ternary condition) condition.activations)
      (max yes.activations no.activations + 1)
  | call _ args => mostActivations args + 1
  | _ => 1

/-- The largest number of activations of any of some trees. -/
def mostActivations : List Expr → Nat
  | [] => 0
  | e :: rest => max e.activations (mostActivations rest)

end

mutual

/-- Whether the leaves of a tree are integers that are not negative, truth values, variables and
scripts that can be written, and its functions have names. -/
def isWritable : Expr → Bool
  | literal (.integer n) => 0 ≤ n.toInt
  | literal (.boolean _) => true
  | literal (.real _) => false
  | varRef name => Lexeme.isBareName name.toList || !name.toList.contains '}'
  | script text => Lexeme.balancedFrom '[' ']' 0 text.toList
  | quote _ => false
  | block _ => false
  | unary _ arg => arg.isWritable
  | binary _ left right => left.isWritable && right.isWritable
  | and left right => left.isWritable && right.isWritable
  | or left right => left.isWritable && right.isWritable
  | ternary condition yes no => condition.isWritable && yes.isWritable && no.isWritable
  | call function args => Lexeme.isFunctionName function.toList && areWritable args

def areWritable : List Expr → Bool
  | [] => true
  | e :: rest => e.isWritable && areWritable rest

end

end Expr

end CommandScript
