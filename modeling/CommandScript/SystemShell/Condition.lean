import CommandScript.SystemShell.State
import CommandScript.Program.Numeral

/-!
# Conditions

The expressions of `test`: unary and binary operators on words, joined by `!`, `-a`, `-o` and
parentheses. A word that could be an operator is taken for one or for an operand by what stands
after it.
-/

namespace CommandScript.SystemShell.Condition

/-- What a word can be. -/
inductive Role where
  | unary | binary | negation | conjunction | disjunction | opening | closing
  deriving DecidableEq, Repr

def unaryOperators : List String :=
  ["-r", "-w", "-x", "-e", "-f", "-d", "-c", "-b", "-p", "-u", "-g", "-k", "-s", "-t", "-z", "-n",
    "-h", "-O", "-G", "-L", "-S"]

def binaryOperators : List String :=
  ["=", "!=", "<", ">", "-eq", "-ne", "-ge", "-gt", "-le", "-lt", "-nt", "-ot", "-ef"]

def role? (word : String) : Option Role :=
  if unaryOperators.contains word then some .unary
  else if binaryOperators.contains word then some .binary
  else
    match word with
    | "!" => some .negation
    | "-a" => some .conjunction
    | "-o" => some .disjunction
    | "(" => some .opening
    | ")" => some .closing
    | _ => none

/-- What the first of some words is; an operator that cannot be one here is an operand. -/
inductive Symbol where
  | operator (role : Role)
  | operand
  | done
  deriving DecidableEq, Repr

def symbol (words : List String) : Symbol :=
  match words with
  | [] => .done
  | word :: rest =>
    match role? word with
    | none => .operand
    | some .unary =>
      match rest with
      | [] => .operand
      | [_] => .operator .unary
      | next :: _ => if role? next == some .binary then .operand else .operator .unary
    | some .opening => if rest.isEmpty then .operand else .operator .opening
    | some role => .operator role

/-- Complains of a word. -/
def unexpected {α : Type} (word : String) (message : String) : Shell α :=
  if word.isEmpty then Shell.fail message else Shell.fail s!"{word}: {message}"

def integer (word : String) : Shell Int := do
  match Program.Numeral.read? true word.toList with
  | none => Shell.badNumber word
  | some n =>
    let (value, outOfRange) := n.toSigned
    if outOfRange || !n.rest.all Program.isSpace then Shell.badNumber word
    return value

/-! ## Files -/

/-- What a path leads to. -/
inductive Found where
  | file (size : Nat)
  | directory
  | program
  | device
  | nothing
  deriving DecidableEq, Repr

def find (path : String) : Shell Found := do
  let path ← Shell.resolve path
  if path.startsWith "/" then
    if (Shell.programAt? path).isSome then return .program
    else if isDirectory path then return .directory
    else if path == "/dev/null" || path == "/dev/full" then return .device
    else return .nothing
  let system ← Shell.system
  match system.world.target (Text.ofOctets path) with
  | .directory => return .directory
  | .file name =>
    if system.world.files.contains name then return .file (system.bytes name).size
    return .nothing
  | _ => return .nothing

/-- Applies a unary operator. -/
def unary (operator word : String) : Shell Bool := do
  match operator with
  | "-z" => return word.isEmpty
  | "-n" => return !word.isEmpty
  | "-t" =>
    let _ ← integer word
    return false
  | _ =>
    let found ← find word
    match operator with
    | "-r" | "-w" | "-e" | "-O" | "-G" => return found != .nothing
    | "-x" => return found == .directory || found == .program
    | "-f" => return found == .program || (found matches .file _)
    | "-d" => return found == .directory
    | "-c" => return found == .device
    | "-s" => return found == .directory || found == .program || (found matches .file (_ + 1))
    | _ => return false

/-- Applies a binary operator. -/
def binary (left operator right : String) : Shell Bool := do
  match operator with
  | "=" => return left == right
  | "!=" => return left != right
  | "<" => return left < right
  | ">" => return right < left
  | "-nt" => return (← find left) != .nothing && (← find right) == .nothing
  | "-ot" => return (← find left) == .nothing && (← find right) != .nothing
  | "-ef" => return (← find left) != .nothing && left == right
  | _ =>
    let a ← integer left
    let b ← integer right
    match operator with
    | "-eq" => return a = b
    | "-ne" => return a ≠ b
    | "-ge" => return a ≥ b
    | "-gt" => return a > b
    | "-le" => return a ≤ b
    | _ => return a < b

/-! ## Expressions

Each reader is given the words from where it stands, and gives back the words from the last one that
it took. -/

abbrev Result := Bool × List String

structure Readers where
  disjunction : List String → Shell Result
  conjunction : List String → Shell Result
  negation : List String → Shell Result

/-- Reads an operand with its operator, or an expression in parentheses. -/
def primary (k : Readers) (words : List String) : Shell Result := do
  match symbol words, words with
  | .done, words => return (false, words)
  | .operator .opening, _ :: rest =>
    if symbol rest == .operator .closing then return (false, rest)
    let (value, last) ← k.disjunction rest
    match symbol last.tail with
    | .operator .closing => return (value, last.tail)
    | _ => unexpected "" "closing paren expected"
  | .operator .unary, operator :: rest =>
    match rest with
    | [] => unexpected operator "argument expected"
    | word :: _ => return (← unary operator word, rest)
  | _, left :: rest =>
    match symbol rest, rest with
    | .operator .binary, operator :: after =>
      match after with
      | [] => unexpected operator "argument expected"
      | right :: _ => return (← binary left operator right, after)
    | _, _ => return (!left.isEmpty, words)
  | _, [] => return (false, [])

def negation (k : Readers) (words : List String) : Shell Result := do
  if symbol words != .operator .negation then primary k words
  else
    let next := if words.tail.isEmpty then words else words.tail
    if words.tail.isEmpty then return (true, next)
    let (value, last) ← k.negation next
    return (!value, last)

def conjunction (k : Readers) (words : List String) : Shell Result := do
  let (value, last) ← negation k words
  if symbol last.tail != .operator .conjunction then return (value, last)
  let (more, last) ← k.conjunction last.tail.tail
  return (value && more, last)

def disjunction (k : Readers) (words : List String) : Shell Result := do
  let (value, last) ← k.conjunction words
  if symbol last.tail != .operator .disjunction then return (value, last)
  let (more, last) ← k.disjunction last.tail.tail
  return (value || more, last)

def readers : (fuel : Nat) → Readers
  | 0 =>
    { disjunction := fun words => return (false, words)
      conjunction := fun words => return (false, words)
      negation := fun words => return (false, words) }
  | fuel + 1 =>
    { disjunction := fun words => disjunction (readers fuel) words
      conjunction := fun words => conjunction (readers fuel) words
      negation := fun words => negation (readers fuel) words }

/-- The value of some words that an operator may lead. -/
def evaluateAll (words : List String) : Shell Bool := do
  let (value, last) ← (readers (4 * words.length + 8)).disjunction words
  match last with
  | word :: _ :: _ => unexpected word "unexpected operator"
  | _ => return value

/-- The value of a condition. With three and four words, parentheses around them and a leading
`!` are looked at first; a second `!` found that way counts no more than one. -/
def evaluate : (negated : Bool) → List String → Shell Bool
  | negated, [] => return negated
  | negated, [a, b, c] => do
    if role? b == some .binary then return (← binary a b c) != negated
    if a == "(" && c == ")" then return (← evaluateAll [b]) != negated
    if a == "!" then evaluate true [b, c]
    else return (← evaluateAll [a, b, c]) != negated
  | negated, [a, b, c, d] => do
    if a == "(" && d == ")" then return (← evaluateAll [b, c]) != negated
    if a == "!" then evaluate true [b, c, d]
    else return (← evaluateAll [a, b, c, d]) != negated
  | negated, words => return (← evaluateAll words) != negated
termination_by _ words => words.length

end CommandScript.SystemShell.Condition
