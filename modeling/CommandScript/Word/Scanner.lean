import CommandScript.Word.Lexeme

/-!
# The scanner

A scanner stands at a place in a text and reads one word at a time, in any of four modes:

* `command`: the words of a script. Newlines and semicolons end a command, blanks separate words,
  `#` begins a comment where a command could begin.
* `expression`: the tokens of an arithmetic expression. Blanks are skipped.
* `quoted`: the content of a quoted string. Only `$` and `[` are special.
* `list`: the elements of a list. Braces and quotes group only at the start of an element.
-/

namespace CommandScript

inductive ScanMode where
  | command | expression | quoted | list
  deriving DecidableEq, Repr, Inhabited

structure Scanner where
  rest : List Char
  place : Place := {}
  /-- The character before the place. -/
  previous : Option Char := none
  /-- Whether a command could begin here. -/
  atCommandStart : Bool := true
  deriving Repr, Inhabited

namespace Scanner

def ofString (text : String) : Scanner := { rest := text.toList }

def line (s : Scanner) : Nat := s.place.line

def atEnd (s : Scanner) : Bool := s.rest.isEmpty

/-- Whether a list element could begin here. -/
def atElementStart (s : Scanner) : Bool := s.previous.all Lexeme.isSpaceOrNewline

def endsCommandLiteral (c : Char) : Bool :=
  match c with
  | ' ' | '\t' | '\r' | '\n' | ';' | '[' | '{' | '"' | '$' => true
  | _ => false

def endsQuotedLiteral (c : Char) : Bool := c == '$' || c == '['

def endsListLiteral (c : Char) : Bool :=
  match c with
  | ' ' | '\t' | '\r' | '\n' | '[' | '$' => true
  | _ => false

/-- Whether `cs` begins with a blank that separates the words of a command. -/
def startsBlank (cs : List Char) : Bool :=
  match cs with
  | '\\' :: '\n' :: _ => true
  | c :: _ => Lexeme.isSpace c
  | [] => false

/-- The next lexeme of a script. -/
def commandLexeme (atCommandStart : Bool) (cs : List Char) : Lexeme :=
  match cs with
  | [] => .verbatim .eof [] []
  | c :: rest =>
    if c = '\n' || c = ';' then .verbatim .eol [c] rest
    else if startsBlank cs then .blank false cs
    else if c = '#' && atCommandStart then .comment cs
    else if c = '{' then .block cs
    else if c = '[' then .script cs
    else if c = '"' then .quote cs
    else if c = '$' then .variableRef cs
    else .literal endsCommandLiteral cs

/-- The next lexeme of an expression that does not begin with a blank. -/
def expressionLexeme (cs : List Char) : Lexeme :=
  match cs with
  | [] => .verbatim .eof [] []
  | c :: rest =>
    if c.isDigit || (c = '.' && rest.head?.any Char.isDigit) then .number cs
    else if c.isAlpha || c = '_' then
      .verbatim .literal (cs.takeWhile Lexeme.isNameChar) (cs.dropWhile Lexeme.isNameChar)
    else if c = '$' then .variableRef cs
    else if c = '[' then .script cs
    else if c = '"' then .quote cs
    else if c = '{' then .block cs
    else .operator c rest

/-- The next lexeme of quoted text. -/
def quotedLexeme (cs : List Char) : Lexeme :=
  match cs with
  | [] => .verbatim .eof [] []
  | c :: _ =>
    if c = '$' then .variableRef cs
    else if c = '[' then .script cs
    else .literal endsQuotedLiteral cs

/-- The next lexeme of list text. -/
def listLexeme (atElementStart : Bool) (cs : List Char) : Lexeme :=
  match cs with
  | [] => .verbatim .eof [] []
  | c :: _ =>
    if startsBlank cs || c = '\n' then .blank true cs
    else if c = '{' && atElementStart then .block cs
    else if c = '"' && atElementStart then .quote cs
    else if c = '[' then .script cs
    else if c = '$' then .variableRef cs
    else .literal endsListLiteral cs

def lexeme (s : Scanner) : ScanMode → Lexeme
  | .command => commandLexeme s.atCommandStart s.rest
  | .expression => expressionLexeme s.rest
  | .quoted => quotedLexeme s.rest
  | .list => listLexeme s.atElementStart s.rest

/-- The scanner after it has read past `taken`, with `rest` to come. -/
def past (s : Scanner) (taken rest : List Char) : Scanner :=
  { s with
    rest
    place := s.place.advance taken
    previous := taken.getLast?.or s.previous }

/-- Skips the blanks that a mode does not report. -/
def skipBlanks (s : Scanner) : ScanMode → Scanner
  | .expression =>
    s.past (s.rest.takeWhile Lexeme.isSpaceOrNewline) (s.rest.dropWhile Lexeme.isSpaceOrNewline)
  | _ => s

/-- Whether a command could begin after a word of this kind. -/
def commandStartAfter (s : Scanner) (mode : ScanMode) (kind : WordKind) : Bool :=
  match mode, kind with
  | .command, .eol => true
  | .command, .eof | .command, .blank => s.atCommandStart
  | .command, _ => false
  | _, _ => s.atCommandStart

/-- Reads a word. -/
def next (s : Scanner) (mode : ScanMode) : Word × Scanner :=
  let s := s.skipBlanks mode
  let lex := s.lexeme mode
  let s' := s.past lex.taken lex.rest
  let word : Word :=
    { kind := lex.kind, text := String.ofList lex.text, source := String.ofList lex.taken
      start := s.place, stop := s'.place }
  (word, { s' with atCommandStart := s.commandStartAfter mode lex.kind })

/-- Reads up to `fuel` words, the `i`-th in mode `mode i`, through the first `eof`. -/
def readWith (mode : Nat → ScanMode) : (fuel : Nat) → Nat → Scanner → List Word × Scanner
  | 0, _, s => ([], s)
  | fuel + 1, i, s =>
    let (word, s') := s.next (mode i)
    if word.kind = .eof then ([word], s')
    else (readWith mode fuel (i + 1) s').map (word :: ·) id

/-- All words of a text, through the `eof`, the `i`-th read in mode `mode i`. Every word but the
last takes a character, so the length bounds their number. -/
def read (mode : Nat → ScanMode) (text : String) : List Word × Scanner :=
  let s := ofString text
  s.readWith mode (s.rest.length + 1) 0

end Scanner

/-- The words of a text read in one mode, through the `eof`. -/
def words (mode : ScanMode) (text : String) : List Word := (Scanner.read (fun _ => mode) text).1

/-- A script is complete if none of its quotes, braces, brackets and indices is left open. -/
def isComplete (script : String) : Bool := (words .command script).all (·.kind != .illegal)

end CommandScript
