import CommandScript.SystemShell.Source

/-!
# Reading commands

The shell's grammar. Words hold commands and commands hold words, so the two readers call each
other; `Readers` is what each needs of the other, and `readers` ties the knot with a bound on the
depth. The shell reads a line, runs it and reads on, so `command?` stops at the end of a line.
-/

namespace CommandScript.SystemShell

/-- What is around a part of a word. -/
inductive Enclosure where
  | word
  /-- Double quotes. -/
  | quotes
  /-- The braces of a parameter. -/
  | braces
  /-- A document. -/
  | document
  /-- The doubled parentheses of an expression. -/
  | expression
  /-- Parentheses in an expression. -/
  | parentheses
  deriving DecidableEq, Repr

structure Context where
  enclosure : Enclosure
  /-- Whether double quotes, or what counts as such, are around. -/
  quoted : Bool := false
  /-- Whether braces are around inside the quotes. -/
  braced : Bool := false
  inDocument : Bool := false
  /-- Whether the word marks the end of a document, so that nothing in it is expanded. -/
  isMark : Bool := false

/-- Where a list of commands ends. -/
inductive Extent where
  /-- At the end of the line. -/
  | line
  /-- Before the keyword that goes on with a compound command. -/
  | compound
  /-- The same, and the list may be empty. -/
  | optional
  deriving DecidableEq, Repr

/-- The readers that call each other. -/
structure Readers where
  parts : Context → Reader Spelling
  list : Extent → Reader (Option Command)

namespace Reader

/-! ## Words -/

/-- Reads to the closing single quote. -/
def singleQuoted : (bound : Nat) → List Char → Reader Part
  | 0, _ => fail "Unterminated quoted string"
  | bound + 1, acc => do
    match ← nextRaw with
    | none => fail "Unterminated quoted string"
    | some '\'' => return .literal (String.ofList acc.reverse)
    | some c => singleQuoted bound (c :: acc)

/-- What a backslash and the character after it stand for. -/
def escaped (ctx : Context) : Reader Part := do
  match ← nextRaw with
  | none => return .literal "\\"
  | some c =>
    let keeps := ctx.quoted && c != '\\' && c != '$' && c.toNat != 96 &&
      (c != '"' || ctx.inDocument && !ctx.braced) && (c != '\x7d' || !ctx.braced)
    return .literal (if keeps then String.ofList ['\\', c] else String.singleton c)

/-- Reads the text of a command to the closing backquote. -/
def backquoted (ctx : Context) : (bound : Nat) → List Char → Reader (List Char)
  | 0, _ => fail "EOF in backquote substitution"
  | bound + 1, acc => do
    match ← nextRaw with
    | none => fail "EOF in backquote substitution"
    | some c =>
      if c.toNat = 96 then return acc.reverse
      else if c == '\\' then
        match ← nextRaw with
        | none => fail "EOF in backquote substitution"
        | some '\n' => backquoted ctx bound acc
        | some d =>
          let drops := d == '\\' || d.toNat = 96 || d == '$' || ctx.quoted && d == '"'
          backquoted ctx bound (if drops then d :: acc else d :: '\\' :: acc)
      else backquoted ctx bound (c :: acc)

/-- Runs a reader on a text of its own. -/
def within {α : Type} (text : List Char) (line : Nat) (act : Reader α) : Reader α := do
  let s ← get
  set { s with rest := text, line, pushed := none, waiting := [] }
  let a ← act
  modify fun t =>
    { t with rest := s.rest, line := s.line, pushed := s.pushed, waiting := s.waiting }
  return a

/-- The usage that a character gives, after a colon or without one. -/
def usageOf? (c : Char) : Option Usage :=
  match c with
  | '-' => some .orWord
  | '=' => some .orAssign
  | '?' => some .orFail
  | '+' => some .ifSet
  | _ => none

/-- Passes one character, even if it is a newline, within its line. -/
def drop : Reader Unit := modify fun s => { s with rest := s.rest.drop 1 }

/-- Reads the rest of a parameter in braces to the closing brace. -/
def braceRest (k : Readers) (ctx : Context) (name : String) (usage : Usage) (nullCounts : Bool) :
    Reader Part := do
  let unquoted := match usage with
    | .dropFront _ | .dropBack _ => true
    | _ => false
  let quoted := ctx.quoted && !unquoted
  let word ← k.parts { ctx with enclosure := .braces, quoted, braced := quoted }
  skip
  return .parameter name usage nullCounts word

/-- Reads a parameter in braces that goes wrong at the next character. -/
def braceMalformed (k : Readers) (ctx : Context) : Reader Part := do
  if (← peek) != some '\x7d' then drop
  braceRest k ctx "" .malformed false

/-- Reads what is done with a parameter in braces, after its name. -/
def braceUsage (k : Readers) (ctx : Context) (name : String) : Reader Part := do
  match ← peek with
  | some '\x7d' =>
    skip
    return .parameter name .value false []
  | some '#' =>
    skip
    let longest ← accept '#'
    braceRest k ctx name (.dropFront longest) false
  | some '%' =>
    skip
    let longest ← accept '%'
    braceRest k ctx name (.dropBack longest) false
  | some ':' =>
    skip
    match ← peek with
    | some '\x7d' =>
      -- A colon with nothing after it takes this brace for what follows it.
      skip
      braceRest k ctx name .value true
    | c =>
      match c.bind usageOf? with
      | some usage =>
        skip
        braceRest k ctx name usage true
      | none => braceMalformed k ctx
  | some c =>
    match usageOf? c with
    | some usage =>
      skip
      braceRest k ctx name usage false
    | none => braceMalformed k ctx
  | none => braceMalformed k ctx

/-- Reads a name or a number. -/
def parameterName : Reader String := do
  let n ← bound
  match ← peek with
  | some c => return String.ofList (← takeChars (if c.isDigit then Char.isDigit else isNameChar) n)
  | none => return ""

/-- Reads the length of a parameter, after its name. -/
def braceLength (k : Readers) (ctx : Context) (name : String) : Reader Part := do
  let usage := if (← peek) == some '\x7d' then Usage.length else .malformed
  braceRest k ctx name usage false

/-- Reads a parameter in braces, after the opening one. -/
def braced (k : Readers) (ctx : Context) : Reader Part := do
  match ← peek with
  | some '#' =>
    skip
    match ← peek with
    | some c =>
      if isNameChar c then braceLength k ctx (← parameterName)
      else
        let before ← get
        skip
        if c != '\x7d' && (← peek) == some '\x7d' then
          if isSpecial c then braceLength k ctx (String.singleton c)
          else braceRest k ctx "" .malformed false
        else
          set before
          braceUsage k ctx "#"
    | none => braceUsage k ctx "#"
  | some c =>
    if isNameChar c then braceUsage k ctx (← parameterName)
    else if isSpecial c then
      skip
      braceUsage k ctx (String.singleton c)
    else braceMalformed k ctx
  | none => braceMalformed k ctx

/-- Reads what a dollar sign begins. -/
def dollar (k : Readers) (ctx : Context) : Reader Part := do
  match ← peek with
  | some '(' =>
    skip
    if ← accept '(' then
      let parts ← k.parts { ctx with enclosure := .expression, quoted := true, braced := false }
      skip
      skip
      return .arithmetic parts
    else
      let before ← get
      set { before with pushed := none, waiting := [] }
      let body ← k.list .optional
      match (← get).pushed with
      | some (.operator ")") =>
        modify fun s => { s with pushed := none, waiting := before.waiting }
        return .output body
      | some t => unexpected t (some (.operator ")"))
      | none => unexpected .eof (some (.operator ")"))
  | some '\x7b' =>
    skip
    braced k ctx
  | some c =>
    if isNameStart c then return .parameter (← parameterName) .value false []
    else if isSpecial c then
      skip
      return .parameter (String.singleton c) .value false []
    else return .text "$"
  | none => return .text "$"

/-- Reads a command in backquotes. What follows a token that ends its list is not looked at. -/
def backquote (k : Readers) (ctx : Context) : Reader Part := do
  let text ← backquoted ctx (← bound) []
  return .output (← within text 1 (k.list .optional))

/-- Whether a character ends a word. -/
def endsWord (c : Char) : Bool :=
  c == ' ' || c == '\t' || c == '\n' || c == ';' || c == '&' || c == '|' || c == '(' || c == ')' ||
    c == '<' || c == '>'

/-- What the end of the text means in an enclosure. -/
def atEnd (ctx : Context) : Reader Unit :=
  match ctx.enclosure with
  | .word | .document => return ()
  | .quotes => fail "Unterminated quoted string"
  | .braces =>
    if ctx.quoted && !ctx.inDocument then fail "Unterminated quoted string"
    else fail "Missing '\x7d'"
  | .expression | .parentheses => fail "Missing '))'"

/-- Reads one part, before whose first character `c` the source stands; nothing if the word ends
there. -/
def onePart (k : Readers) (ctx : Context) (c : Char) : Reader (Option Spelling) := do
  let plain : Reader (Option Spelling) := do
    skip
    return some [.text (String.singleton c)]
  let nested : Reader (Option Spelling) := do
    skip
    let inner ← k.parts { ctx with enclosure := .parentheses }
    skip
    return some (.text "(" :: inner ++ [.text ")"])
  let inQuotes : Reader (Option Spelling) := do
    skip
    let inner ← k.parts { ctx with enclosure := .quotes, quoted := true }
    skip
    return some [.quoted inner]
  if c == '\\' then
    skip
    return some [← escaped ctx]
  else if c == '$' then
    if ctx.isMark then plain
    else
      skip
      return some [← dollar k ctx]
  else if c.toNat = 96 then
    if ctx.isMark then plain
    else
      skip
      return some [← backquote k ctx]
  else if c == '\'' then
    if ctx.quoted then plain
    else
      skip
      return some [← singleQuoted (← bound) []]
  else if c == '"' then
    match ctx.enclosure with
    | .quotes => return none
    | .word | .braces => inQuotes
    | _ => plain
  else
    match ctx.enclosure with
    | .word => if endsWord c then return none else plain
    | .braces => if c == '\x7d' then return none else plain
    | .parentheses => if c == ')' then return none else if c == '(' then nested else plain
    | .expression =>
      if c == '(' then nested
      else if c == ')' then
        let before ← get
        skip
        let ends := (← peek) == some ')'
        set before
        if ends then return none else plain
      else plain
    | _ => plain

/-- Reads the parts of a word. -/
def parts (k : Readers) (ctx : Context) : Reader Spelling := do
  iterate (fun acc => do
    match ← peek with
    | none =>
      atEnd ctx
      return .inr acc.reverse
    | some c =>
      match ← onePart k ctx c with
      | none => return .inr acc.reverse
      | some new => return .inl (new.foldl Spelling.push acc))
    (fail "Unterminated quoted string") (← bound) ([] : Spelling)

/-! ## Tokens -/

/-- The text of a document whose lines are given. -/
def documentParts (k : Readers) (w : Waiting) (body : List Char) (line : Nat) :
    Reader Spelling := do
  if w.expands then
    within body line (k.parts { enclosure := .document, quoted := true, inDocument := true })
  else if body.isEmpty then return []
  else return [.literal (String.ofList body)]

/-- Reads the documents that are waited for. -/
def readDocuments (k : Readers) : Reader Unit := do
  let waiting := (← get).waiting
  modify fun s => { s with waiting := [] }
  for w in waiting do
    let s ← get
    let (body, rest, lines) := cutDocument w (s.rest.length + 1) false s.rest
    set { s with rest }
    let spelling ← try documentParts k w body s.line
      -- What a document leaves open goes on to the end of the text.
      catch fault => throw { fault with line := s.line + s.rest.count '\n' }
    modify fun t =>
      { t with line := s.line + lines, documents := (w.number, spelling) :: t.documents }

/-- Passes a newline and the documents that follow it. -/
def newline (k : Readers) : Reader Unit := do
  skip
  modify fun s => { s with newLine := s.line }
  readDocuments k

/-- The characters of a part of a document's mark. -/
def markChars : Part → List Char
  | .text s | .literal s => s.toList
  | _ => []

/-- The mark that a word gives, its quotes taken off, and whether it had any. -/
def markText (spelling : Spelling) : List Char × Bool :=
  (spelling.flatMap fun
      | .quoted inner => inner.flatMap markChars
      | p => markChars p,
    spelling.any fun
      | .quoted _ | .literal _ => true
      | _ => false)

/-- Reads the arrow of a redirection, which begins with `c`. -/
def arrow (c : Char) : Reader Arrow := do
  skip
  if c == '>' then
    if ← accept '>' then return .file .append
    else if ← accept '|' then return .file .clobber
    else if ← accept '&' then return .copy
    else return .file .write
  else if ← accept '<' then return .document (← accept '-')
  else if ← accept '&' then return .copy
  else if ← accept '>' then return .file .readWrite
  else return .file .read

/-- The descriptor that stands before an arrow, if nothing else does. -/
def descriptorBefore? (c : Char) (spelling : Spelling) : Option Nat :=
  match spelling.plain? with
  | some s =>
    match s.toList with
    | [] => some (if c == '>' then 1 else 0)
    | [d] => if d.isDigit then some (d.toNat - '0'.toNat) else none
    | _ => none
  | none => none

/-- Reads a word, or a descriptor and the arrow after it. -/
def wordToken (k : Readers) (isMark : Bool) : Reader Token := do
  let spelling ← k.parts { enclosure := .word, isMark }
  match ← peek with
  | some c =>
    if c == '<' || c == '>' then
      if let some d := descriptorBefore? c spelling then return .redirection d (← arrow c)
    return .word spelling
  | none => return .word spelling

/-- Reads a token, whatever it is. -/
def rawToken (k : Readers) : Reader Token := do
  let _ ← takeChars (fun c => c == ' ' || c == '\t') (← bound)
  match ← peek with
  | none =>
    readDocuments k
    return .eof
  | some '\n' =>
    newline k
    return .newline
  | some '&' =>
    skip
    return .operator (if ← accept '&' then "&&" else "&")
  | some '|' =>
    skip
    return .operator (if ← accept '|' then "||" else "|")
  | some ';' =>
    skip
    return .operator (if ← accept ';' then ";;" else ";")
  | some '(' =>
    skip
    return .operator "("
  | some ')' =>
    skip
    return .operator ")"
  | some '#' =>
    modify fun s => { s with rest := s.rest.dropWhile (· != '\n') }
    if (← get).rest.isEmpty then
      readDocuments k
      return .eof
    newline k
    return .newline
  | some _ => wordToken k false

/-- Hands a token back. -/
def push (t : Token) : Reader Unit := modify fun s => { s with pushed := some t }

/-- Whether a word is a keyword. -/
def isKeyword (spelling : Spelling) : Bool := (Spelling.plain? spelling).any keywords.contains

/-- The text that replaces a word, unless the word came from that text. -/
def replacement? (spelling : Spelling) : Reader (Option (String × String)) := do
  let s ← get
  match spelling.plain? with
  | none => return none
  | some name =>
    if s.replacements.any fun r => r.name == name && s.rest.length ≥ r.after then return none
    return (s.aliases.get? name).map fun text => (name, text)

/-- Puts a text in the place of a word. -/
def replace (name text : String) : Reader Unit :=
  modify fun s =>
    let r : Replacement :=
      { name, after := s.rest.length, goesOn := text.endsWith " " || text.endsWith "\t" }
    let active := s.replacements.filter fun r => s.rest.length ≥ r.after
    { s with rest := text.toList ++ s.rest, replacements := r :: active }

/-- Reads a token, or takes the one that was handed back. Where a command may begin, a word may be
replaced by a text that is read in its place. -/
def anyToken (k : Readers) (begins words : Bool) : Reader Token := do
  match (← get).pushed with
  | some t =>
    modify fun s => { s with pushed := none }
    return t
  | none =>
    iterate (fun (_ : Unit) => do
      let size := (← get).rest.length
      let t ← rawToken k
      match t with
      | .word spelling =>
        let s ← get
        let goesOn := s.replacements.any fun r =>
          r.goesOn && size ≥ r.after && s.rest.length < r.after
        if !(begins || goesOn) || (words && isKeyword spelling) then return .inr t
        match ← replacement? spelling with
        | some (name, text) =>
          replace name text
          return .inl ()
        | none => return .inr t
      | t => return .inr t) (return .eof) (← bound) ()

/-- Reads a token. A plain word may be a keyword where one may stand, and newlines may be passed
over. -/
def tokenAt (k : Readers) (newlines words begins : Bool) : Reader Token := do
  let t ← iterate (fun (_ : Unit) => do
    match ← anyToken k begins words with
    | .newline => if newlines then return .inl () else return .inr .newline
    | t => return .inr t) (return .eof) (← bound) ()
  match t with
  | .word spelling =>
    match spelling.plain? with
    | some s => return if words && keywords.contains s then .keyword s else t
    | none => return t
  | _ => return t

/-- Reads a token. Where a keyword may stand, a command may begin. -/
def token (k : Readers) (newlines words : Bool) : Reader Token := tokenAt k newlines words words

/-- Reads a token that must be a keyword. -/
def expect (k : Readers) (word : String) : Reader Unit := do
  match ← token k false true with
  | .keyword w => if w == word then return () else unexpected (.keyword w) (some (.keyword word))
  | t => unexpected t (some (.keyword word))

/-! ## Commands -/

/-- Reads the mark that ends a document. -/
def markToken (k : Readers) : Reader Token := do
  let _ ← takeChars (fun c => c == ' ' || c == '\t') (← bound)
  match ← peek with
  | none => token k false false
  | some c =>
    if endsWord c || c == '#' then token k false false
    else wordToken k true

/-- Reads the word of a redirection. -/
def redirect (k : Readers) (descriptor : Nat) (arrow : Arrow) : Reader Redirect := do
  let t ← match arrow with
    | .document _ => markToken k
    | _ => token k false false
  match t with
  | .word spelling =>
    match arrow with
    | .file use => return .file descriptor use spelling
    | .copy => return .copy descriptor spelling
    | .document stripTabs =>
      let (mark, quoted) := markText spelling
      let number := (← get).nextDocument
      modify fun s =>
        { s with
          nextDocument := number + 1
          waiting := s.waiting ++ [{ number, mark, expands := !quoted, stripTabs }] }
      return .document descriptor number
  | t => unexpected t none

/-- Reads the redirections after a compound command. -/
def redirects (k : Readers) : Reader (List Redirect) := do
  iterate (fun acc => do
    match ← token k false true with
    | .redirection d arrow => return .inl ((← redirect k d arrow) :: acc)
    | t =>
      push t
      return .inr acc.reverse) (return []) (← bound) ([] : List Redirect)

/-- What was read of a simple command, each list last first. -/
structure Simple where
  assignments : List (String × Spelling) := []
  words : List Spelling := []
  redirects : List Redirect := []

/-- Reads a simple command or, after a name and parentheses, a function. `body` reads the function's
command. -/
def simple (k : Readers) (body : Reader Command) : Reader Command := do
  let line := (← get).line
  iterate (fun (c : Simple) => do
    match ← tokenAt k false false c.words.isEmpty with
    | .word spelling =>
      match if c.words.isEmpty then spelling.assignment? else none with
      | some a => return .inl { c with assignments := a :: c.assignments }
      | none => return .inl { c with words := spelling :: c.words }
    | .redirection d arrow =>
      return .inl { c with redirects := (← redirect k d arrow) :: c.redirects }
    | t =>
      match t, c.words with
      | .operator "(", [name] =>
        if c.assignments.isEmpty && c.redirects.isEmpty then
          match ← token k false false with
          | .operator ")" =>
            let name := (Spelling.plain? name).getD ""
            if !isName name.toList || specialNames.contains name then fail "Bad function name"
            let first ← token k true true
            let line := (← get).line
            push first
            return .inr (.define name line (← body))
          | t => unexpected t (some (.operator ")"))
        else
          push t
          return .inr (.simple line c.assignments.reverse c.words.reverse c.redirects.reverse)
      | _, _ =>
        push t
        return .inr (.simple line c.assignments.reverse c.words.reverse c.redirects.reverse))
    (fail "end of file unexpected") (← bound) ({} : Simple)

/-- Reads the branches of `if` after the first keyword. -/
def branches (k : Readers) : (bound : Nat) → Reader Command
  | 0 => fail "end of file unexpected"
  | bound + 1 => do
    let test ← k.list .compound
    expect k "then"
    let yes ← k.list .compound
    match ← token k false true with
    | .keyword "elif" => return .branch test yes (some (← branches k bound))
    | .keyword "else" => return .branch test yes (← k.list .compound)
    | t =>
      push t
      return .branch test yes none

/-- Reads the words of `for` after `in`. -/
def eachWords (k : Readers) : Reader (List Spelling) := do
  iterate (fun acc => do
    match ← token k false false with
    | .word w => return .inl (w :: acc)
    | .newline => return .inr acc.reverse
    | .operator ";" => return .inr acc.reverse
    | t => unexpected t none) (return []) (← bound) ([] : List Spelling)

/-- Reads `for` after its keyword. -/
def eachLoop (k : Readers) (line : Nat) : Reader Command := do
  match ← token k false false with
  | .word spelling =>
    let name := (Spelling.plain? spelling).getD ""
    if !isName name.toList then fail "Bad for loop variable"
    let words ← match ← token k true true with
      | .keyword "in" => eachWords k
      | .operator ";" => pure [[.quoted [.parameter "@" .value false []]]]
      | t => do
        push t
        pure [[.quoted [.parameter "@" .value false []]]]
    match ← token k true true with
    | .keyword "do" => pure ()
    | t => unexpected t (some (.keyword "do"))
    let body ← k.list .compound
    expect k "done"
    return .each line name words body
  | _ => fail "Bad for loop variable"

/-- The pattern that a token gives. -/
def patternOf : Token → Spelling
  | .word w => w
  | .keyword w => [.text w]
  | _ => []

/-- Reads the patterns of a case, the first of which is given, to the closing parenthesis. -/
def patterns (k : Readers) (first : Token) : Reader (List Spelling) := do
  iterate (fun acc => do
    match ← token k false false with
    | .operator "|" => return .inl (patternOf (← token k false false) :: acc)
    | .operator ")" => return .inr acc.reverse
    | t => unexpected t (some (.operator ")"))) (return []) (← bound) [patternOf first]

/-- Reads the cases of `case` to `esac`. -/
def cases (k : Readers) : Reader (List (List Spelling × Option Command)) := do
  iterate (fun acc => do
    match ← token k true true with
    | .keyword "esac" => return .inr acc.reverse
    | t =>
      let first ← match t with
        | .operator "(" => token k false false
        | t => pure t
      let ps ← patterns k first
      let body ← k.list .optional
      let acc := (ps, body) :: acc
      match ← token k true true with
      | .keyword "esac" => return .inr acc.reverse
      | .operator ";;" => return .inl acc
      | t => unexpected t (some (.operator ";;")))
    (return []) (← bound) ([] : List (List Spelling × Option Command))

/-- Reads `case` after its keyword. -/
def choice (k : Readers) (line : Nat) : Reader Command := do
  match ← token k false false with
  | .word spelling =>
    match ← token k true true with
    | .keyword "in" => return .choice line spelling (← cases k)
    | t => unexpected t (some (.keyword "in"))
  | t => unexpected t (some (.word []))

/-- Puts redirections on a compound command. Those of a subshell give way to new ones. -/
def withRedirects (k : Readers) (line : Nat) (c : Option Command) : Reader Command := do
  match ← redirects k, c with
  | [], some c => return c
  | rs, some (.subshell line body _) => return .subshell line body rs
  | rs, c => return .redirected line c rs

/-- Reads a command. -/
def command (k : Readers) : (depth : Nat) → Reader Command
  | 0 => fail "end of file unexpected"
  | depth + 1 => do
    let t ← token k false false
    let line := (← get).line
    match t with
    | .keyword "if" =>
      let c ← branches k (← bound)
      expect k "fi"
      withRedirects k line (some c)
    | .keyword "while" | .keyword "until" =>
      let test ← k.list .compound
      expect k "do"
      let body ← k.list .compound
      expect k "done"
      let negated := match t with
        | .keyword w => w == "until"
        | _ => false
      withRedirects k line (some (.loop negated test body))
    | .keyword "for" => withRedirects k line (some (← eachLoop k line))
    | .keyword "case" => withRedirects k line (some (← choice k line))
    | .operator "(" =>
      let body ← k.list .compound
      match ← token k false false with
      | .operator ")" => withRedirects k line (some (.subshell line body []))
      | t => unexpected t (some (.operator ")"))
    | .keyword "\x7b" =>
      let body ← k.list .compound
      expect k "\x7d"
      withRedirects k line body
    | .word _ | .redirection _ _ =>
      push t
      simple k (command k depth)
    | t => unexpected t none

/-- Reads a command where a keyword may stand. -/
def commandHere (k : Readers) (newlines : Bool) : Reader Command := do
  push (← token k newlines true)
  command k (← bound)

/-- Reads commands joined by `|`. -/
def pipeline (k : Readers) (newlines : Bool) : Reader Command := do
  let t ← token k newlines true
  let negated := match t with
    | .keyword "!" => true
    | _ => false
  if !negated then push t
  let first ← commandHere k false
  let c ← iterate (fun acc => do
    match ← token k false false with
    | .operator "|" => return .inl ((← commandHere k true) :: acc)
    | t =>
      push t
      return .inr acc.reverse) (return []) (← bound) [first]
  let c := match c with
    | [single] => single
    | several => .pipeline several
  return if negated then .negation c else c

/-- Reads pipelines joined by `&&` and `||`. -/
def andOr (k : Readers) : Reader Command := do
  let first ← pipeline k false
  iterate (fun acc => do
    match ← token k false false with
    | .operator "&&" => return .inl (.conjunction acc (← pipeline k true))
    | .operator "||" => return .inl (.disjunction acc (← pipeline k true))
    | t =>
      push t
      return .inr acc) (return first) (← bound) first

/-- Whether a token ends a list in a compound command. -/
def endsList : Token → Bool
  | .eof => true
  | .operator symbol => symbol == ")" || symbol == ";;"
  | .keyword w =>
    ["do", "done", "elif", "else", "esac", "fi", "then", "\x7d"].contains w
  | _ => false

/-- Adds a command to a list. -/
def joinCommands (first : Option Command) (second : Command) : Command :=
  match first with
  | none => second
  | some first => .sequence first second

/-- Reads a list of commands. The token that ends it is handed back, but for the newline at the end
of a line. -/
def list (k : Readers) (extent : Extent) : Reader (Option Command) := do
  iterate (fun (state : Bool × Option Command) => do
    let (started, acc) := state
    match ← token k (extent != .line) true with
    | .newline => return .inr acc
    | .eof =>
      push .eof
      return .inr acc
    | t =>
      push t
      if extent != .line && (started || extent == .optional) && endsList t then return .inr acc
      let line := (← get).line
      let c ← andOr k
      match ← token k false false with
      | .operator "&" => return .inl (true, some (joinCommands acc (.background line c)))
      | .operator ";" => return .inl (true, some (joinCommands acc c))
      | .newline =>
        push .newline
        return .inl (true, some (joinCommands acc c))
      | .eof =>
        push .eof
        return .inr (some (joinCommands acc c))
      | t =>
        if extent == .line then unexpected t none
        push t
        return .inr (some (joinCommands acc c)))
    (return none) (← bound) (false, none)

end Reader

/-- The readers with a bound on how deep commands and words nest. -/
def readers : (depth : Nat) → Readers
  | 0 => { parts := fun _ => Reader.fail "end of file unexpected"
           list := fun _ => Reader.fail "end of file unexpected" }
  | depth + 1 =>
    { parts := fun ctx => Reader.parts (readers depth) ctx
      list := fun extent => Reader.list (readers depth) extent }

/-- Reads the commands of the next line, if any; nothing at the end of the text. -/
def Reader.line : Reader (Option (Option Command)) := do
  modify fun s => { s.measure with pushed := none, waiting := [] }
  let body ← Reader.list (readers (← bound)) .line
  match body, (← get).pushed with
  | none, some .eof => return none
  | body, _ => return some body

end CommandScript.SystemShell
