import CommandScript.Integer
import CommandScript.Word.Basic

/-!
# Lexemes

The readers of single words. Each takes the characters still to be read and gives a `Lexeme`:
the characters it takes, the text they stand for and the characters it leaves, so that
`taken ++ rest` is always what it was given. An unterminated word takes everything.

A backslash keeps the next character from being a delimiter. In a literal it also makes an
escape (`escape?`); before any other character it stands for itself.
-/

namespace CommandScript

structure Lexeme where
  kind : WordKind
  taken : List Char
  text : List Char
  rest : List Char
  deriving DecidableEq, Repr, Inhabited

namespace Lexeme

/-- A lexeme whose text is what it took. -/
def verbatim (kind : WordKind) (taken rest : List Char) : Lexeme := ⟨kind, taken, taken, rest⟩

/-- The word that nothing ends: it takes all of `cs`. -/
def unterminated (cs : List Char) (message : String) : Lexeme :=
  ⟨.illegal, cs, message.toList, []⟩

/-! ## Character classes -/

def isSpace (c : Char) : Bool := c == ' ' || c == '\t' || c == '\r'

def isSpaceOrNewline (c : Char) : Bool := isSpace c || c == '\n'

def isNameChar (c : Char) : Bool := c.isAlphanum || c == '_'

/-- What an escaped character stands for. -/
def escape? (c : Char) : Option Char :=
  match c with
  | 'a' => some '\x07'
  | 'b' => some '\x08'
  | 'f' => some '\x0c'
  | 'n' => some '\n'
  | 'r' => some '\r'
  | 't' => some '\t'
  | 'v' => some '\x0b'
  | '$' | ' ' | '\\' | '"' | '[' | ']' | '{' | '}' | ';' => some c
  | _ => none

/-! ## Delimited text -/

/-- Splits at the `closing` that matches an `opening` already read, `depth` further ones being
open: the text inside and what follows. -/
def enclosed (opening closing : Char) : Nat → List Char → Option (List Char × List Char)
  | _, [] => none
  | _, ['\\'] => none
  | depth, '\\' :: c :: cs => (enclosed opening closing depth cs).map (·.map ('\\' :: c :: ·) id)
  | depth, c :: cs =>
    if c = opening then (enclosed opening closing (depth + 1) cs).map (·.map (c :: ·) id)
    else if c = closing then
      match depth with
      | 0 => some ([], cs)
      | depth + 1 => (enclosed opening closing depth cs).map (·.map (c :: ·) id)
    else (enclosed opening closing depth cs).map (·.map (c :: ·) id)

/-- A word between `opening` and `closing`, which may nest. `cs` starts at the opening. -/
def delimited (kind : WordKind) (opening closing : Char) (missing : String) (cs : List Char) :
    Lexeme :=
  match enclosed opening closing 0 cs.tail with
  | some (inner, rest) => ⟨kind, opening :: (inner ++ [closing]), inner, rest⟩
  | none => unterminated cs missing

def block (cs : List Char) : Lexeme := delimited .block '{' '}' "missing close-brace" cs

def script (cs : List Char) : Lexeme := delimited .script '[' ']' "missing close-bracket" cs

/-- Splits quoted text at its closing quote. Inside brackets, `depth` of which are open, a quote
is an ordinary character. The error tells what is missing. -/
def quoted : Nat → List Char → Except String (List Char × List Char)
  | 0, [] => .error "missing \""
  | _ + 1, [] => .error "missing close-bracket"
  | 0, ['\\'] => .error "missing \""
  | _ + 1, ['\\'] => .error "missing close-bracket"
  | depth, '\\' :: c :: cs => (quoted depth cs).map (·.map ('\\' :: c :: ·) id)
  | 0, c :: cs =>
    if c = '"' then .ok ([], cs)
    else if c = '[' then (quoted 1 cs).map (·.map (c :: ·) id)
    else (quoted 0 cs).map (·.map (c :: ·) id)
  | depth + 1, c :: cs =>
    if c = '[' then (quoted (depth + 2) cs).map (·.map (c :: ·) id)
    else if c = ']' then (quoted depth cs).map (·.map (c :: ·) id)
    else (quoted (depth + 1) cs).map (·.map (c :: ·) id)

/-- A quoted word. `cs` starts at the opening quote. -/
def quote (cs : List Char) : Lexeme :=
  match quoted 0 cs.tail with
  | .ok (inner, rest) => ⟨.quote, '"' :: (inner ++ ['"']), inner, rest⟩
  | .error missing => unterminated cs missing

/-! ## Blanks and comments -/

/-- Splits off leading blanks. A backslash before a newline is a blank, a newline alone only if
`newlines` is set. -/
def blanks (newlines : Bool) : List Char → List Char × List Char
  | '\\' :: '\n' :: cs => (blanks newlines cs).map ('\\' :: '\n' :: ·) id
  | c :: cs =>
    if isSpace c || (newlines && c == '\n') then (blanks newlines cs).map (c :: ·) id
    else ([], c :: cs)
  | [] => ([], [])

def blank (newlines : Bool) (cs : List Char) : Lexeme :=
  let (taken, rest) := blanks newlines cs
  verbatim .blank taken rest

/-- Splits at the newline that ends a comment. -/
def commentText : List Char → List Char × List Char
  | [] => ([], [])
  | ['\\'] => (['\\'], [])
  | '\\' :: c :: cs => (commentText cs).map ('\\' :: c :: ·) id
  | c :: cs => if c = '\n' then ([], c :: cs) else (commentText cs).map (c :: ·) id

/-- A comment. `cs` starts at the `#`. -/
def comment (cs : List Char) : Lexeme :=
  let (text, rest) := commentText cs.tail
  ⟨.comment, '#' :: text, text, rest⟩

/-! ## Variable references -/

/-- Splits off a variable name: letters, digits, underscores and double colons. -/
def nameRun : List Char → List Char × List Char
  | ':' :: ':' :: cs => (nameRun cs).map (':' :: ':' :: ·) id
  | c :: cs => if isNameChar c then (nameRun cs).map (c :: ·) id else ([], c :: cs)
  | [] => ([], [])

/-- A variable reference: `${name}`, `$name` or `$name(index)`. A `$` before anything else is
itself. `cs` starts at the `$`. -/
def variableRef (cs : List Char) : Lexeme :=
  match cs.tail with
  | '{' :: inner =>
    let name := inner.takeWhile (· != '}')
    match inner.dropWhile (· != '}') with
    | [] => unterminated cs "missing close-brace for variable name"
    | _ :: rest => ⟨.varRef, '$' :: '{' :: (name ++ ['}']), name, rest⟩
  | after =>
    match nameRun after with
    | ([], _) => verbatim .literal ['$'] after
    | (name, '(' :: inner) =>
      match enclosed '(' ')' 0 inner with
      | some (index, rest) =>
        let text := name ++ '(' :: (index ++ [')'])
        ⟨.varRef, '$' :: text, text, rest⟩
      | none => unterminated cs "missing )"
    | (name, rest) => ⟨.varRef, '$' :: name, name, rest⟩

/-! ## Literals -/

/-- What a run of literal text takes, stands for and leaves. -/
structure Run where
  taken : List Char
  text : List Char
  rest : List Char
  deriving DecidableEq, Repr, Inhabited

/-- Adds characters in front of a run. -/
def Run.after (taken text : List Char) (r : Run) : Run := ⟨taken ++ r.taken, text ++ r.text, r.rest⟩

/-- The literal run up to the first character of `stop`, escapes replaced. A backslash before a
newline ends the run where a blank would; elsewhere it stands, with the blanks after it, for one
space. With `joining` set, such a join was just read. -/
def literalRun (stop : Char → Bool) : Bool → List Char → Run
  | _, [] => ⟨[], [], []⟩
  | _, ['\\'] => ⟨['\\'], ['\\'], []⟩
  | _, '\\' :: c :: cs =>
    if c = '\n' then
      if stop ' ' then ⟨[], [], '\\' :: c :: cs⟩
      else (literalRun stop true cs).after ['\\', c] [' ']
    else
      match escape? c with
      | some e => (literalRun stop false cs).after ['\\', c] [e]
      | none => (literalRun stop false (c :: cs)).after ['\\'] ['\\']
  | joining, c :: cs =>
    if joining && (c == ' ' || c == '\t') then (literalRun stop true cs).after [c] []
    else if stop c then ⟨[], [], c :: cs⟩
    else (literalRun stop false cs).after [c] [c]

def literal (stop : Char → Bool) (cs : List Char) : Lexeme :=
  let r := literalRun stop false cs
  ⟨.literal, r.taken, r.text, r.rest⟩

/-- Replaces the escapes of a text. -/
def unescape (text : List Char) : List Char := (literalRun (fun _ => false) false text).text

/-! ## Numbers, names and operators of expressions -/

def isNumberTail (c : Char) : Bool := isNameChar c || c == '.'

/-- A number that runs on into letters, digits, underscores or points; `number` is what was taken
so far. -/
def malformedNumber (number rest : List Char) : Lexeme :=
  let taken := number ++ rest.takeWhile isNumberTail
  ⟨.illegal, taken, "malformed number \"".toList ++ taken ++ ['"'], rest.dropWhile isNumberTail⟩

/-- The exponent of a decimal, if `cs` starts with one. -/
def exponentPart (cs : List Char) : List Char :=
  match cs with
  | e :: sign :: d :: _ =>
    if e == 'e' || e == 'E' then
      if (sign == '+' || sign == '-') && d.isDigit then
        e :: sign :: (cs.drop 2).takeWhile Char.isDigit
      else if sign.isDigit then e :: (cs.drop 1).takeWhile Char.isDigit
      else []
    else []
  | [e, d] => if (e == 'e' || e == 'E') && d.isDigit then [e, d] else []
  | _ => []

/-- The longest decimal at the start of `cs`, and whether it is a whole number. -/
def decimalPart (cs : List Char) : List Char × Bool :=
  let whole := cs.takeWhile Char.isDigit
  let (fraction, rest) :=
    match cs.dropWhile Char.isDigit with
    | '.' :: after => ('.' :: after.takeWhile Char.isDigit, after.dropWhile Char.isDigit)
    | rest => ([], rest)
  let exponent := exponentPart rest
  (whole ++ fraction ++ exponent, fraction.isEmpty && exponent.isEmpty)

/-- A number. `cs` starts with a digit, or with a point and a digit. -/
def number (cs : List Char) : Lexeme :=
  let marked : Option (Nat × Char × List Char) :=
    match cs with
    | '0' :: mark :: digits => (Integer.radixOf? mark).map (·, mark, digits)
    | _ => none
  let (taken, kind) :=
    match marked with
    | some (radix, mark, digits) =>
      ('0' :: mark :: digits.takeWhile (Integer.isDigitOf radix), WordKind.integer)
    | none =>
      let (taken, isWhole) := decimalPart cs
      (taken, if isWhole then .integer else .float)
  let rest := cs.drop taken.length
  let bare := marked.isSome && taken.length == 2
  if bare || rest.head?.any isNumberTail then malformedNumber taken rest
  else verbatim kind taken rest

/-- The operator that begins with these two characters, and its length. -/
def operator? (c : Char) (next : Option Char) : Option (WordKind × Nat) :=
  match c, next with
  | '(', _ => some (.leftParen, 1)
  | ')', _ => some (.rightParen, 1)
  | ',', _ => some (.comma, 1)
  | '+', _ => some (.plus, 1)
  | '-', _ => some (.minus, 1)
  | '*', some '*' => some (.power, 2)
  | '*', _ => some (.star, 1)
  | '/', _ => some (.slash, 1)
  | '%', _ => some (.percent, 1)
  | '=', some '=' => some (.equal, 2)
  | '=', _ => some (.assign, 1)
  | '!', some '=' => some (.notEqual, 2)
  | '!', _ => some (.bang, 1)
  | '~', _ => some (.tilde, 1)
  | '&', some '&' => some (.and, 2)
  | '&', _ => some (.bitAnd, 1)
  | '|', some '|' => some (.or, 2)
  | '|', _ => some (.bitOr, 1)
  | '^', _ => some (.caret, 1)
  | '<', some '=' => some (.lessEqual, 2)
  | '<', some '<' => some (.shiftLeft, 2)
  | '<', _ => some (.less, 1)
  | '>', some '=' => some (.greaterEqual, 2)
  | '>', some '>' => some (.shiftRight, 2)
  | '>', _ => some (.greater, 1)
  | '?', _ => some (.question, 1)
  | ':', some ':' => some (.doubleColon, 2)
  | ':', _ => some (.colon, 1)
  | _, _ => none

/-- An operator, the longest that fits. `c :: cs` are the characters to be read. -/
def operator (c : Char) (cs : List Char) : Lexeme :=
  match operator? c cs.head? with
  | some (kind, size) => verbatim kind ((c :: cs).take size) ((c :: cs).drop size)
  | none => ⟨.illegal, [c], "unexpected character \"".toList ++ [c, '"'], cs⟩

end Lexeme

end CommandScript
