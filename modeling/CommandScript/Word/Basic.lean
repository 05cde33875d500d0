/-!
# Words

A word is one lexical piece of script text: its kind, its text with the delimiters taken off,
the source it was read from, and where it stands. `Place` counts bytes, lines and columns.
-/

namespace CommandScript

inductive WordKind where
  | eof | eol | blank | comment
  | literal | varRef | script | quote | block
  | integer | float
  | leftParen | rightParen | comma
  | plus | minus | star | power | slash | percent
  | assign | equal | bang | notEqual | tilde
  | bitAnd | and | bitOr | or | caret
  | less | lessEqual | shiftLeft | greater | greaterEqual | shiftRight
  | question | colon | doubleColon
  | illegal
  deriving DecidableEq, Repr, Inhabited

/-- A place in a text: bytes from its start, and line and column counted from one. A column is
one character. -/
structure Place where
  offset : Nat := 0
  line : Nat := 1
  column : Nat := 1
  deriving DecidableEq, Repr, Inhabited

namespace Place

/-- The place after a character. -/
def step (p : Place) (c : Char) : Place where
  offset := p.offset + c.utf8Size
  line := if c = '\n' then p.line + 1 else p.line
  column := if c = '\n' then 1 else p.column + 1

/-- The place after a run of characters. -/
def advance (p : Place) (cs : List Char) : Place := cs.foldl step p

@[simp] theorem advance_nil (p : Place) : p.advance [] = p := rfl

@[simp] theorem advance_cons (p : Place) (c : Char) (cs : List Char) :
    p.advance (c :: cs) = (p.step c).advance cs := rfl

theorem advance_append (p : Place) (xs ys : List Char) :
    p.advance (xs ++ ys) = (p.advance xs).advance ys := List.foldl_append

end Place

structure Word where
  kind : WordKind
  /-- The word's text: delimiters removed, and in a literal the escapes replaced. For an illegal
  word, what is wrong with it. -/
  text : String
  /-- The characters the word was read from. -/
  source : String
  /-- Where the word begins. -/
  start : Place
  /-- Where the word ends. -/
  stop : Place
  deriving DecidableEq, Repr, Inhabited

namespace Word

def line (w : Word) : Nat := w.start.line

def column (w : Word) : Nat := w.start.column

end Word

end CommandScript
