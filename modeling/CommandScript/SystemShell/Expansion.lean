import CommandScript.SystemShell.Arithmetic
import CommandScript.SystemShell.Field

/-!
# Expanding words

What the parts of a word stand for: parameters, the output of commands, and expressions. A word of
a command then falls into fields, and a field that is a pattern becomes the names of the files that
match it.
-/

namespace CommandScript.SystemShell

/-- Where a tilde stands for a directory. -/
inductive Tilde where
  | never
  /-- At the start of the word. -/
  | start
  /-- There and after each colon. -/
  | assignment
  deriving DecidableEq, Repr

structure Mode where
  /-- Whether the word falls into fields. -/
  fields : Bool := true
  tilde : Tilde := .start
  quoted : Bool := false
  /-- Whether the word is the alternative in a parameter, whose text is split too. -/
  alternative : Bool := false

/-- How a command is run. -/
structure Circumstances where
  /-- Whether its status is looked at, so that a failure does not end the shell. -/
  tested : Bool := false
  /-- Whether the shell ends with it. -/
  last : Bool := false

/-- The actions that call each other. -/
structure Kernel where
  expand : Mode → Spelling → Shell (List Segment)
  run : Circumstances → Command → Shell Unit
  /-- Runs a text of commands, and says whether there was one. -/
  runText : Circumstances → String → Shell Bool
  /-- Runs commands in a copy of the shell and gives what they write. -/
  output : Option Command → Shell String
  /-- Runs a program that was called by some name. -/
  program : (program called : String) → List String → Shell Ending
  /-- Runs a command in the background to its end. -/
  runJob : Job → Shell Ending
  /-- How often a loop may go round. -/
  rounds : Nat

namespace Shell

/-! ## Parameters -/

/-- The value of a variable or of a parameter with a number or a special name. Arguments have NUL
between them where they stay apart, which `apart` says. -/
def parameter? (name : String) (quoted fields : Bool) : Shell (Option (List Char)) := do
  let p ← process
  let joined (separator : List Char) : Option (List Char) :=
    some (List.intercalate separator (p.arguments.map String.toList))
  match name with
  | "?" => return some (toString p.status).toList
  | "$" => return some (toString p.shell).toList
  | "#" => return some (toString p.arguments.length).toList
  | "!" => return p.lastBackground.map fun n => (toString n).toList
  | "-" => return some (← optionLetters).toList
  | "@" | "*" =>
    let ifs ← separators?
    if fields && quoted && name == "@" then return joined ['\x00']
    else if fields && !quoted then return joined (if ifs.isSome then ['\x00'] else [' '])
    else return joined (match ifs with
      | none => [' ']
      | some cs => cs.take 1)
  | _ =>
    let cs := name.toList
    if cs.all Char.isDigit && !cs.isEmpty then
      let n := cs.foldl (fun n c => n * 10 + (c.toNat - '0'.toNat)) 0
      if n = 0 then return some p.name.toList
      return p.arguments[n - 1]?.map String.toList
    else return (← valueOf? name).map String.toList

/-- Complains that a parameter is not set. -/
def notSet {α : Type} (name : String) (message : Option (List Char)) (nullCounts : Bool) :
    Shell α :=
  let text := match message with
    | some cs => String.ofList cs
    | none => if nullCounts then "parameter not set or null" else "parameter not set"
  fail s!"{name}: {text}"

/-- The segment of a value. -/
def valueSegment (mode : Mode) (name : String) (cs : List Char) : Segment :=
  let splitting := if !mode.quoted then Splitting.fields
    else if name == "@" then .arguments else .never
  { splitting, glyphs := cs.map fun c => { char := c, quoted := mode.quoted && c != '\x00' } }

/-- The text of a word that is not split. -/
def plainText (k : Kernel) (mode : Mode) (word : Spelling) : Shell (List Char) := do
  let segments ← k.expand { mode with fields := false } word
  return Segment.text segments

/-- Expands a parameter. -/
def expandParameter (k : Kernel) (mode : Mode) (name : String) (usage : Usage) (nullCounts : Bool)
    (word : Spelling) : Shell (List Segment) := do
  if usage == .malformed then fail "Bad substitution"
  let value ← parameter? name mode.quoted mode.fields
  let value := if nullCounts && value == some [] then none else value
  let whole := name == "@" || name == "*"
  let needed : Shell (List Char) := do
    match value with
    | some cs => return cs
    | none =>
      if (← hasOption 'u') && !whole then notSet name none false
      return []
  let alternative : Shell (List Segment) :=
    k.expand { mode with tilde := .start, alternative := true } word
  match usage with
  | .value =>
    let cs ← needed
    let missing := value.isNone || (whole && (← process).arguments.isEmpty)
    return if missing then [] else [valueSegment mode name cs]
  | .length =>
    let cs ← needed
    return [valueSegment mode "" (toString cs.length).toList]
  | .orWord =>
    match value with
    | some cs => return [valueSegment mode name cs]
    | none => alternative
  | .ifSet => if value.isSome then alternative else return []
  | .orFail =>
    match value with
    | some cs => return [valueSegment mode name cs]
    | none =>
      if word.isEmpty then notSet name none nullCounts
      let message ← plainText k { mode with tilde := .start } word
      notSet name (some message) nullCounts
  | .orAssign =>
    match value with
    | some cs => return [valueSegment mode name cs]
    | none =>
      let text ← plainText k { mode with tilde := .start } word
      if !isName name.toList then fail s!"{name}: bad variable name"
      setVariable name (String.ofList text)
      return [valueSegment mode name text]
  | .dropFront longest =>
    let cs ← needed
    if value.isNone then return []
    let pattern ← k.expand { fields := false, tilde := .start } word
    let pattern := Pattern.ofGlyphs (Segment.glyphsOf pattern)
    return [valueSegment mode name (pattern.dropFront longest cs)]
  | .dropBack longest =>
    let cs ← needed
    if value.isNone then return []
    let pattern ← k.expand { fields := false, tilde := .start } word
    let pattern := Pattern.ofGlyphs (Segment.glyphsOf pattern)
    return [valueSegment mode name (pattern.dropBack longest cs)]
  | .malformed => return []

/-! ## Tildes -/

/-- Replaces a tilde and the user's name after it at the start of a text. -/
def tildeFront (cs : List Char) : Shell (List Glyph) := do
  match cs with
  | '~' :: rest =>
    let user := rest.takeWhile (· != '/')
    let after := Glyph.ofText false (rest.drop user.length)
    if user.isEmpty then
      match ← valueOf? "HOME" with
      | some home => return Glyph.ofText true home.toList ++ after
      | none => return Glyph.ofText false cs
    else if user == "root".toList then return Glyph.ofText true "/root".toList ++ after
    else return Glyph.ofText false cs
  | _ => return Glyph.ofText false cs

/-- Replaces a tilde, unless the user's name may go on after the text. -/
def tildePiece (applies ends : Bool) (cs : List Char) : Shell (List Glyph) :=
  if applies && (ends || cs.contains '/') then tildeFront cs else return Glyph.ofText false cs

/-- Replaces the tildes after colons, and at the start of the first piece. -/
def tildePieces (atStart ends : Bool) : List (List Char) → Shell (List Glyph)
  | [] => return []
  | [piece] => tildePiece atStart ends piece
  | piece :: rest => do
    let front ← tildePiece atStart true piece
    return front ++ { char := ':' } :: (← tildePieces true ends rest)

/-- The glyphs of text without quotes, which may begin and end the word. -/
def textGlyphs (tilde : Tilde) (first ends : Bool) (s : String) : Shell (List Glyph) :=
  match tilde with
  | .never => return Glyph.ofText false s.toList
  | .start => tildePiece first ends s.toList
  | .assignment => tildePieces first ends ((s.splitOn ":").map String.toList)

/-! ## Words -/

/-- Expands one part of a word. -/
def expandPart (k : Kernel) (mode : Mode) (first alone : Bool) : Part → Shell (List Segment)
  | .text s => do
    if mode.quoted then return [{ glyphs := Glyph.ofText true s.toList }]
    let glyphs ← textGlyphs mode.tilde first alone s
    return [{ splitting := if mode.alternative then .fields else .never, glyphs }]
  | .literal s =>
    return [{ glyphs := if mode.quoted then Glyph.ofText true s.toList
                        else Glyph.mark :: Glyph.ofText true s.toList }]
  | .quoted [.parameter "@" .value _ _] => do
    let whole : Spelling := [.parameter "@" .value false []]
    if mode.quoted then k.expand { mode with quoted := true } whole
    else k.expand { mode with quoted := true, alternative := false } whole
  | .quoted inner => do
    let inside := { mode with quoted := true, tilde := .never, alternative := false }
    let segments ← k.expand inside inner
    if mode.quoted then return segments
    return { glyphs := [Glyph.mark] } :: segments ++ [{ glyphs := [Glyph.mark] }]
  | .parameter name usage nullCounts word => expandParameter k mode name usage nullCounts word
  | .output body => do
    let text ← k.output body
    return [valueSegment mode "" text.toList]
  | .arithmetic parts => do
    let text ← plainText k { mode with quoted := true, tilde := .never, alternative := false } parts
    let value ← Arithmetic.evaluate (String.ofList text)
    return [valueSegment mode "" (toString value).toList]

/-- Expands the parts of a word in turn. -/
def expandParts (k : Kernel) (mode : Mode) (first : Bool) : Spelling → Shell (List Segment)
  | [] => return []
  | part :: rest => do
    let segments ← expandPart k mode first rest.isEmpty part
    return segments ++ (← expandParts k mode false rest)

/-! ## File names -/

/-- The names that a pattern for files gives; none if no file matches. Only names in the first
directory are looked at, perhaps by way of dots and slashes before them. -/
def fileMatches (field : List Glyph) : Shell (List String) := do
  let p ← process
  if p.away.isSome then return []
  let glyphs := field.filter fun g => !g.isMark
  let last := (glyphs.reverse.takeWhile fun g => g.char != '/').reverse
  let path := (glyphs.take (glyphs.length - last.length)).map Glyph.char
  if path.any (fun c => c != '.' && c != '/') || path.head? == some '/' ||
      World.pathParts (String.ofList path) != [] then return []
  let dotted := last.head?.any fun g => g.char == '.'
  let pattern := Pattern.ofGlyphs last
  let names := (← system).world.files.names.map Text.toOctets
  let names := names ++ [".", ".."]
  let found := names.filter fun name =>
    (dotted || !name.startsWith ".") && pattern.isMatch name.toList
  return (found.mergeSort fun a b => a ≤ b).map fun name => String.ofList path ++ name

/-- The words that a field gives. -/
def fieldWords (field : List Glyph) : Shell (List String) := do
  let plain := [String.ofList (Glyph.text field)]
  if !field.any Glyph.isWild || (← hasOption 'f') then return plain
  let found ← fileMatches field
  return if found.isEmpty then plain else found

/-- The separators in force. -/
def separators : Shell (List Char) := return (← separators?).getD [' ', '\t', '\n']

/-- Expands a word into the words that it gives. -/
def expandWord (k : Kernel) (word : Spelling) : Shell (List String) := do
  let segments ← k.expand {} word
  let fields := Field.split (← separators) none segments
  let words ← fields.mapM fieldWords
  return words.flatten

/-- Expands a word that stays one. -/
def expandText (k : Kernel) (tilde : Tilde) (word : Spelling) : Shell String := do
  return String.ofList (← plainText k { fields := false, tilde } word)

/-- Expands a word to a pattern. -/
def expandPattern (k : Kernel) (word : Spelling) : Shell Pattern := do
  let segments ← k.expand { fields := false, tilde := .start } word
  return Pattern.ofGlyphs (Segment.glyphsOf segments)

end Shell

end CommandScript.SystemShell
