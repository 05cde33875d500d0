import CommandScript.SystemShell.Command
import CommandScript.Table

/-!
# The text that the shell reads

A source is the text still to be read and the line where it stands. Tokens are read off it one at a
time, and one may be handed back. The text of a document is asked for by a redirection and follows
on the next line, so a source remembers which documents it waits for.
-/

namespace CommandScript.SystemShell

/-- The start of a redirection, before its word. -/
inductive Arrow where
  | file (use : FileUse)
  | copy
  | document (stripTabs : Bool)
  deriving DecidableEq, Repr, Inhabited

inductive Token where
  | eof
  | newline
  /-- One of `;`, `&`, `&&`, `||`, `|`, `(`, `)` and `;;`. -/
  | operator (symbol : String)
  | keyword (name : String)
  | word (spelling : Spelling)
  | redirection (descriptor : Nat) (arrow : Arrow)

/-- What a complaint calls a token. -/
def Token.describe : Token → String
  | eof => "end of file"
  | newline => "newline"
  | operator symbol => s!"\"{symbol}\""
  | keyword name => s!"\"{name}\""
  | .word _ => "word"
  | redirection _ _ => "redirection"

/-- The words that shape commands. -/
def keywords : List String :=
  ["!", "case", "do", "done", "elif", "else", "esac", "fi", "for", "if", "in", "then", "until",
    "while", "\x7b", "\x7d"]

/-- A document whose text is still to come. -/
structure Waiting where
  number : Nat
  /-- The line that ends it. -/
  mark : List Char
  /-- Whether parameters and commands in it are expanded. -/
  expands : Bool
  stripTabs : Bool

/-- A word that was replaced by a text. It is not replaced again before that text is read. -/
structure Replacement where
  name : String
  /-- How much is left to read after the text. -/
  after : Nat
  /-- Whether the word after the text may be replaced too. -/
  goesOn : Bool

structure Source where
  rest : List Char
  line : Nat := 1
  /-- The line that the last newline began. -/
  newLine : Nat := 1
  /-- A token that was handed back. -/
  pushed : Option Token := none
  /-- The documents that are waited for, in order. -/
  waiting : List Waiting := []
  /-- The documents that were read. -/
  documents : List (Nat × Spelling) := []
  nextDocument : Nat := 0
  /-- The texts that words are replaced by where a command may begin. -/
  aliases : Table String := []
  /-- The replacements whose texts are not all read. -/
  replacements : List Replacement := []
  /-- A bound on how many steps reading a line can take. -/
  bound : Nat := 0

/-- Sets the bound: every step takes a character, and each word may be replaced by a text. -/
def Source.measure (s : Source) : Source :=
  let replaced := s.aliases.foldl (fun total entry => total + entry.2.length) 0
  { s with bound := 2 * (s.rest.length + 4) * (replaced + 1) }

/-- Why a text makes no commands. -/
structure GrammarFault where
  line : Nat
  message : String
  deriving DecidableEq, Repr

abbrev Reader := EStateM GrammarFault Source

namespace Reader

variable {α : Type}

def fail (message : String) : Reader α := do throw ⟨(← get).line, message⟩

/-- Complains of a token; `wanted` would have been right. -/
def unexpected (t : Token) (wanted : Option Token) : Reader α := do
  let s ← get
  let line := match t with
    | .newline => s.newLine
    | _ => s.line
  match wanted with
  | none => throw ⟨line, s!"{t.describe} unexpected"⟩
  | some w => throw ⟨line, s!"{t.describe} unexpected (expecting {w.describe})"⟩

/-! ## Characters -/

/-- Drops the line joints at the start of a text. -/
def dropJoints : List Char → Nat → List Char × Nat
  | '\\' :: '\n' :: rest, line => dropJoints rest (line + 1)
  | cs, line => (cs, line)

/-- The next character, line joints left out. -/
def peek : Reader (Option Char) :=
  modifyGet fun s =>
    let (rest, line) := dropJoints s.rest s.line
    (rest.head?, { s with rest, line })

/-- Passes one character. -/
def skip : Reader Unit :=
  modify fun s =>
    match s.rest with
    | '\n' :: rest => { s with rest, line := s.line + 1 }
    | _ :: rest => { s with rest }
    | [] => s

/-- Takes the character that comes next whatever it is. -/
def nextRaw : Reader (Option Char) := do
  let c := (← get).rest.head?
  skip
  return c

/-- Takes a character if it is the one that is given. -/
def accept (c : Char) : Reader Bool := do
  if (← peek) == some c then
    skip
    return true
  return false

/-- Takes the characters that pass a test, at most `bound` of them. -/
def takeChars (test : Char → Bool) : (bound : Nat) → Reader (List Char)
  | 0 => return []
  | bound + 1 => do
    match ← peek with
    | some c =>
      if test c then
        skip
        return c :: (← takeChars test bound)
      return []
    | none => return []

/-- A bound on how many steps reading can take. -/
def bound : Reader Nat := return (← get).bound

/-- Takes a step until one gives an end. -/
def iterate {σ β : Type} (step : σ → Reader (σ ⊕ β)) (stuck : Reader β) :
    (bound : Nat) → σ → Reader β
  | 0, _ => stuck
  | bound + 1, s => do
    match ← step s with
    | .inl s => iterate step stuck bound s
    | .inr b => return b

/-! ## Documents -/

/-- Whether a line ends in a backslash that no other one protects. -/
def isJoined (line : List Char) : Bool := (line.reverse.takeWhile (· == '\\')).length % 2 == 1

/-- Cuts a document off a text: its lines, the rest of the text, and how many lines were taken.
Joints at the start of a line are passed over before the line is looked at, but a backslash after
tabs that are stripped stands for itself at the end of its line. -/
def cutDocument (w : Waiting) : (bound : Nat) → (joined : Bool) → List Char →
    List Char × List Char × Nat
  | 0, _, cs => ([], cs, 0)
  | _, _, [] => ([], [], 0)
  | bound + 1, joined, cs =>
    let (cs, joints) := if w.expands && !joined then dropJoints cs 0 else (cs, 0)
    let tabs := if w.stripTabs && !joined then cs.takeWhile (· == '\t') else []
    let cs := cs.drop tabs.length
    let line := cs.takeWhile (· != '\n')
    let rest := cs.drop line.length
    let lines := if rest.isEmpty then joints else joints + 1
    if line == w.mark && !joined then ([], rest.drop 1, lines)
    else
      let lone := w.expands && !tabs.isEmpty && line == ['\\']
      let joined := w.expands && isJoined line
      let (body, after, n) := cutDocument w bound joined (rest.drop 1)
      ((if lone then ['\\', '\\'] else line) ++ rest.take 1 ++ body, after, n + lines)

end Reader

end CommandScript.SystemShell
