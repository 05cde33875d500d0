import CommandScript.Program.Numeral
import CommandScript.SystemShell.State

/-!
# Arithmetic in the shell

Expressions over 64-bit integers with the operators of C. An expression is computed while it is
read, from left to right: a part whose value does not matter is read and changes nothing.
-/

namespace CommandScript.SystemShell.Arithmetic

inductive Symbol where
  | number (n : Int)
  | name (s : String)
  /-- An operator or a parenthesis. -/
  | mark (s : String)
  | bad
  | done
  deriving DecidableEq, Repr, Inhabited

/-- The state of reading: the current symbol and the text after it. -/
structure Scan where
  symbol : Symbol := .done
  rest : List Char

abbrev Reading := StateT Scan Shell

/-- The marks, longer ones first. -/
def marks : List String :=
  ["<<=", ">>=", "<<", ">>", "<=", ">=", "==", "!=", "&&", "||", "+=", "-=", "*=", "/=", "%=", "&=",
    "^=", "|=", "+", "-", "*", "/", "%", "&", "^", "|", "<", ">", "!", "~", "(", ")", "?", ":", "="]

/-- Cuts a symbol off a text. -/
def symbolOf (cs : List Char) : Symbol × List Char :=
  let cs := cs.dropWhile fun c => c == ' ' || c == '\t' || c == '\n'
  match cs with
  | [] => (.done, [])
  | c :: _ =>
    if c.isDigit then
      match Program.Numeral.read? false cs with
      | some n => (.number n.toSigned.1, n.rest)
      | none => (.bad, cs)
    else if isNameStart c then
      let name := cs.takeWhile isNameChar
      (.name (String.ofList name), cs.drop name.length)
    else
      match marks.find? fun m => m.toList.isPrefixOf cs with
      | some m => (.mark m, cs.drop m.length)
      | none => (.bad, cs)

/-- Reads the next symbol. -/
def advance : Reading Unit := do
  let (symbol, rest) := symbolOf (← get).rest
  set ({ symbol, rest } : Scan)

def current : Reading Symbol := return (← get).symbol

/-- Complains of the whole expression. -/
def fail {α : Type} (text : String) (message : String) : Reading α :=
  (Shell.fail s!"arithmetic expression: {message}: \"{text}\"" : Shell α)

/-- The binary operators and how loosely they bind. -/
def looseness? (mark : String) : Option Nat :=
  match mark with
  | "*" | "/" | "%" => some 0
  | "+" | "-" => some 1
  | "<<" | ">>" => some 2
  | "<" | ">" | "<=" | ">=" => some 3
  | "==" | "!=" => some 4
  | "&" => some 5
  | "^" => some 6
  | "|" => some 7
  | _ => none

/-- The operator of an assignment that also computes. -/
def assignmentOperator? (mark : String) : Option String :=
  match mark with
  | "+=" => some "+"
  | "-=" => some "-"
  | "*=" => some "*"
  | "/=" => some "/"
  | "%=" => some "%"
  | "<<=" => some "<<"
  | ">>=" => some ">>"
  | "&=" => some "&"
  | "^=" => some "^"
  | "|=" => some "|"
  | _ => none

def truth (b : Bool) : Int := if b then 1 else 0

def wrap (n : Int) : Int := (Int64.ofInt n).toInt

/-- A shift takes its amount modulo the size of a word. -/
def shiftAmount (b : Int) : Int64 := Int64.ofInt (b % 64)

/-- Computes a binary operator. -/
def compute (text : String) (mark : String) (a b : Int) : Reading Int := do
  let x := Int64.ofInt a
  let y := Int64.ofInt b
  match mark with
  | "*" => return (x * y).toInt
  | "/" | "%" =>
    if b = 0 then fail text "division by zero"
    if a = Int64.minValue.toInt && b = -1 then throw (.killed 8)
    return if mark == "/" then a.tdiv b else a.tmod b
  | "+" => return (x + y).toInt
  | "-" => return (x - y).toInt
  | "<<" => return (x <<< shiftAmount b).toInt
  | ">>" => return (x >>> shiftAmount b).toInt
  | "<" => return truth (a < b)
  | ">" => return truth (a > b)
  | "<=" => return truth (a ≤ b)
  | ">=" => return truth (a ≥ b)
  | "==" => return truth (a = b)
  | "!=" => return truth (a ≠ b)
  | "&" => return (x &&& y).toInt
  | "^" => return (x ^^^ y).toInt
  | _ => return (x ||| y).toInt

/-- The number that a variable holds; one that has no value counts as zero. -/
def variableNumber (name : String) : Reading Int := do
  let text := (← (Shell.valueOf? name : Shell _)).getD ""
  let cs := text.toList
  if cs.isEmpty then return 0
  match Program.Numeral.read? false cs with
  | none =>
    if cs.all Program.isSpace then return 0
    (Shell.badNumber text : Shell Int)
  | some n =>
    let (value, outOfRange) := n.toSigned
    if outOfRange || !n.rest.all Program.isSpace then (Shell.badNumber text : Shell Int)
    else return value

/-- Readers of smaller expressions. `skipped` says that the value does not matter. -/
structure Readers where
  assignment : (skipped : Bool) → Reading Int
  primary : (skipped : Bool) → Reading Int
  /-- Goes on after an operand `a` and the operator that is current; gives back before operators
  as loose as `limit`. -/
  binary : (skipped : Bool) → (a : Int) → (limit : Nat) → Reading Int
  conjunction : (skipped : Bool) → Reading Int
  disjunction : (skipped : Bool) → Reading Int
  conditional : (skipped : Bool) → Reading Int

/-- Reads an operand with its signs; the symbol that begins it is current. -/
def primary (text : String) (k : Readers) (skipped : Bool) : Reading Int := do
  match ← current with
  | .mark "(" =>
    advance
    let value ← k.assignment skipped
    if (← current) != .mark ")" then fail text "expecting ')'"
    advance
    return value
  | .number n =>
    advance
    return n
  | .name name =>
    advance
    if skipped then return 0 else variableNumber name
  | .mark "+" =>
    advance
    k.primary skipped
  | .mark "-" =>
    advance
    return wrap (-(← k.primary skipped))
  | .mark "!" =>
    advance
    return truth ((← k.primary skipped) = 0)
  | .mark "~" =>
    advance
    return -(← k.primary skipped) - 1
  | _ => fail text "expecting primary"

def binary (text : String) (k : Readers) (skipped : Bool) (a : Int) (limit : Nat) :
    Reading Int := do
  match ← current with
  | .mark m =>
    match looseness? m with
    | none => return a
    | some loose =>
      if loose ≥ limit then return a
      advance
      let b ← k.primary skipped
      let b ← k.binary skipped b loose
      let a ← if skipped then pure b else compute text m a b
      k.binary skipped a limit
  | _ => return a

def conjunction (k : Readers) (skipped : Bool) : Reading Int := do
  let a ← k.primary skipped
  let a ← k.binary skipped a 8
  if (← current) != .mark "&&" then return a
  advance
  let b ← k.conjunction (skipped || a = 0)
  return truth (a ≠ 0 && b ≠ 0)

def disjunction (k : Readers) (skipped : Bool) : Reading Int := do
  let a ← k.conjunction skipped
  if (← current) != .mark "||" then return a
  advance
  let b ← k.disjunction (skipped || a ≠ 0)
  return truth (a ≠ 0 || b ≠ 0)

def conditional (text : String) (k : Readers) (skipped : Bool) : Reading Int := do
  let a ← k.disjunction skipped
  if (← current) != .mark "?" then return a
  advance
  let b ← k.assignment (skipped || a = 0)
  if (← current) != .mark ":" then fail text "expecting ':'"
  advance
  let c ← k.conditional (skipped || a ≠ 0)
  return if a ≠ 0 then b else c

def assignment (text : String) (k : Readers) (skipped : Bool) : Reading Int := do
  let before ← get
  match before.symbol with
  | .name name =>
    advance
    let operator? : Option (Option String) := match ← current with
      | .mark "=" => some none
      | .mark m => (assignmentOperator? m).map some
      | _ => none
    match operator? with
    | some operator =>
      advance
      let b ← k.assignment skipped
      if skipped then return b
      let value ← match operator with
        | none => pure b
        | some m => do compute text m (← variableNumber name) b
      (Shell.setVariable name (toString value) : Shell Unit)
      return value
    | none =>
      set before
      k.conditional skipped
  | _ => k.conditional skipped

/-- The readers with a bound on how far they go. -/
def readers (text : String) : (fuel : Nat) → Readers
  | 0 =>
    { assignment := fun _ => fail text "expecting primary"
      primary := fun _ => fail text "expecting primary"
      binary := fun _ _ _ => fail text "expecting primary"
      conjunction := fun _ => fail text "expecting primary"
      disjunction := fun _ => fail text "expecting primary"
      conditional := fun _ => fail text "expecting primary" }
  | fuel + 1 =>
    { assignment := fun skipped => assignment text (readers text fuel) skipped
      primary := fun skipped => primary text (readers text fuel) skipped
      binary := fun skipped a limit => binary text (readers text fuel) skipped a limit
      conjunction := fun skipped => conjunction (readers text fuel) skipped
      disjunction := fun skipped => disjunction (readers text fuel) skipped
      conditional := fun skipped => conditional text (readers text fuel) skipped }

/-- The value of an expression. -/
def evaluate (text : String) : Shell Int := do
  let reading : Reading Int := do
    advance
    let value ← (readers text (8 * text.length + 16)).assignment false
    if (← current) != .done then fail text "expecting EOF"
    return value
  let (value, _) ← reading.run { rest := text.toList }
  return value

end CommandScript.SystemShell.Arithmetic
