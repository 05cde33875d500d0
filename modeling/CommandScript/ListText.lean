import CommandScript.Text.Blank
import CommandScript.Word.Scanner

/-!
# List text

A list is written as its elements with single spaces between them. An element that holds blanks or
characters with a meaning of their own is put in braces, or, where braces would not read back,
escaped character by character. `parse` undoes `format`.
-/

namespace CommandScript.ListText

/-! ## Writing -/

def isSpecial (c : Char) : Bool :=
  match c with
  | '{' | '}' | '[' | ']' | '$' | '"' | ';' | '\\' => true
  | _ => false

def needsQuoting (cs : List Char) : Bool :=
  cs.head? == some '#' || cs.any fun c => Text.isBlank c || isSpecial c

/-- Whether an element reads back from between braces, `depth` of its own being open: its braces
balance, and it does not end in a backslash that escapes the closing one. -/
def canBraceFrom : Nat → List Char → Bool
  | depth, [] => depth == 0
  | _, ['\\'] => false
  | depth, '\\' :: _ :: cs => canBraceFrom depth cs
  | depth, c :: cs =>
    if c = '{' then canBraceFrom (depth + 1) cs
    else if c = '}' then
      match depth with
      | 0 => false
      | depth + 1 => canBraceFrom depth cs
    else canBraceFrom depth cs

def canBrace (cs : List Char) : Bool := canBraceFrom 0 cs

def escapeChar (c : Char) : List Char :=
  match c with
  | '\n' => ['\\', 'n']
  | '\t' => ['\\', 't']
  | '\r' => ['\\', 'r']
  | _ => if c = ' ' || isSpecial c then ['\\', c] else [c]

/-- One element as it stands in a list. -/
def quoteChars (cs : List Char) : List Char :=
  if cs.isEmpty then ['{', '}']
  else if !needsQuoting cs then cs
  else if canBrace cs then '{' :: (cs ++ ['}'])
  else cs.flatMap escapeChar

def quote (element : String) : String := String.ofList (quoteChars element.toList)

def format (elements : List String) : String := String.intercalate " " (elements.map quote)

/-! ## Reading -/

/-- What a word contributes to the element it stands in. -/
def piece (w : Word) : String :=
  match w.kind with
  | .block | .literal => w.text
  | .quote => String.ofList (Lexeme.unescape w.text.toList)
  | _ => w.source

/-- Joins words into elements, `open?` being the element begun so far. The error is the text of an
illegal word. -/
def gather : Option String → List Word → Except String (List String)
  | open?, [] => .ok open?.toList
  | open?, w :: rest =>
    match w.kind with
    | .eof => .ok open?.toList
    | .blank => (gather none rest).map (open?.toList ++ ·)
    | .illegal => .error w.text
    | _ => gather (some (open?.getD "" ++ piece w)) rest

/-- A text that is not a list. -/
structure Malformed where
  text : String
  reason : String
  deriving DecidableEq, Repr

/-- The elements of a list. -/
def parse (text : String) : Except Malformed (List String) :=
  match gather none (words .list text) with
  | .ok elements => .ok elements
  | .error reason => .error ⟨text, reason⟩

end CommandScript.ListText
