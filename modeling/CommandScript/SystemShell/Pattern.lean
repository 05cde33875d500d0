import CommandScript.SystemShell.Command

/-!
# Patterns

A pattern matches texts: `*` any text, `?` any character, and a set in brackets one of its members.
A quoted character of a pattern matches itself only, so a pattern is read off characters that know
whether they were quoted.
-/

namespace CommandScript.SystemShell

/-- A character of a word while it is expanded. -/
structure Glyph where
  char : Char
  /-- Whether quotes protect it. -/
  quoted : Bool := false
  /-- Whether it only marks that quotes stood here. -/
  isMark : Bool := false
  deriving DecidableEq, Repr, Inhabited

namespace Glyph

/-- The place of quotes, which counts as no character. -/
def mark : Glyph := { char := '\x00', quoted := true, isMark := true }

/-- The characters without their quotes. -/
def text (gs : List Glyph) : List Char := (gs.filter fun g => !g.isMark).map Glyph.char

def ofText (quoted : Bool) (cs : List Char) : List Glyph := cs.map fun c => { char := c, quoted }

/-- Whether a character has a meaning in a pattern. -/
def isWild (g : Glyph) : Bool := !g.quoted && (g.char == '*' || g.char == '?' || g.char == '[')

end Glyph

/-- A member of a set in brackets. -/
inductive Member where
  | range (first last : Char)
  | category (name : String)
  deriving DecidableEq, Repr

namespace Member

/-- Whether a byte is in a named category. -/
def inCategory (name : String) (c : Char) : Bool :=
  let printable := 32 < c.toNat && c.toNat < 127
  match name with
  | "alnum" => c.isAlphanum
  | "alpha" => c.isAlpha
  | "blank" => c == ' ' || c == '\t'
  | "cntrl" => c.toNat < 32 || c.toNat = 127
  | "digit" => c.isDigit
  | "graph" => printable
  | "lower" => c.isLower
  | "print" => printable || c == ' '
  | "punct" => printable && !c.isAlphanum
  | "space" => c == ' ' || (9 ≤ c.toNat && c.toNat ≤ 13)
  | "upper" => c.isUpper
  | "xdigit" => c.isDigit || ('a' ≤ c && c ≤ 'f') || ('A' ≤ c && c ≤ 'F')
  | _ => false

def holds (c : Char) : Member → Bool
  | range first last => first ≤ c && c ≤ last
  | category name => inCategory name c

end Member

inductive PatternItem where
  /-- Any text. -/
  | many
  /-- Any character. -/
  | any
  | char (c : Char)
  | set (negated : Bool) (members : List Member)
  deriving DecidableEq, Repr

abbrev Pattern := List PatternItem

namespace Pattern

/-- Whether a test holds for a text or for one of its ends. -/
def anySuffix (test : List Char → Bool) : List Char → Bool
  | [] => test []
  | c :: cs => test (c :: cs) || anySuffix test cs

def matchesChar (c : Char) : PatternItem → Bool
  | .many => false
  | .any => true
  | .char d => c == d
  | .set negated members => members.any (Member.holds c) != negated

/-- Whether a whole text matches. -/
def isMatch : Pattern → List Char → Bool
  | [], cs => cs.isEmpty
  | .many :: rest, cs => anySuffix (isMatch rest) cs
  | item :: rest, c :: cs => matchesChar c item && isMatch rest cs
  | _ :: _, [] => false

/-! ## Reading -/

/-- Reads the name of a category and its closing `:]`. -/
def category? (gs : List Glyph) : Option (String × List Glyph) :=
  match gs with
  | ⟨':', _, _⟩ :: rest =>
    let name := rest.takeWhile fun g => g.char.isAlpha
    match rest.drop name.length with
    | ⟨':', _, _⟩ :: ⟨']', _, _⟩ :: after => some (String.ofList (name.map Glyph.char), after)
    | _ => none
  | _ => none

/-- Reads the members of a set and its closing bracket, which does not close an empty set. -/
def members? : (fuel : Nat) → (first : Bool) → List Glyph → Option (List Member × List Glyph)
  | 0, _, _ => none
  | _, _, [] => none
  | fuel + 1, first, g :: rest =>
    if !first && g.char == ']' && !g.quoted then some ([], rest)
    else
      match if g.char == '[' && !g.quoted then category? rest else none with
      | some (name, rest) => do
        let (more, rest) ← members? fuel false rest
        some (.category name :: more, rest)
      | none =>
        match rest with
        | ⟨'-', false, _⟩ :: last :: after =>
          if last.char == ']' && !last.quoted then do
            let (more, rest) ← members? fuel false rest
            some (.range g.char g.char :: more, rest)
          else do
            let (more, rest) ← members? fuel false after
            some (.range g.char last.char :: more, rest)
        | _ => do
          let (more, rest) ← members? fuel false rest
          some (.range g.char g.char :: more, rest)

/-- Reads a pattern. A bracket that is not closed is a character. -/
def ofGlyphsWithin : (fuel : Nat) → List Glyph → Pattern
  | 0, _ => []
  | _, [] => []
  | fuel + 1, g :: rest =>
    if g.quoted then .char g.char :: ofGlyphsWithin fuel rest
    else
      match g.char with
      | '*' => .many :: ofGlyphsWithin fuel rest
      | '?' => .any :: ofGlyphsWithin fuel rest
      | '\\' =>
        match rest with
        | next :: after => .char next.char :: ofGlyphsWithin fuel after
        | [] => [.char '\\']
      | '[' =>
        let (negated, body) := match rest with
          | ⟨'!', false, _⟩ :: body => (true, body)
          | body => (false, body)
        match members? (body.length + 1) true body with
        | some (members, after) => .set negated members :: ofGlyphsWithin fuel after
        | none => .char '[' :: ofGlyphsWithin fuel rest
      | c => .char c :: ofGlyphsWithin fuel rest

def ofGlyphs (gs : List Glyph) : Pattern :=
  let gs := gs.filter fun g => !g.isMark
  ofGlyphsWithin (gs.length + 1) gs

/-! ## Cutting

Where all arguments are cut as one text, NUL stands between them and a pattern sees no further than
the end of an argument. -/

/-- A text up to the end of its first argument. -/
def firstArgument (cs : List Char) : List Char := cs.takeWhile (· != '\x00')

/-- Takes off the front of a text the part that a pattern matches: the longest, or the shortest. -/
def dropFront (p : Pattern) (longest : Bool) (cs : List Char) : List Char :=
  let sizes := if longest then (List.range (cs.length + 1)).reverse
    else List.range ((firstArgument cs).length + 1)
  match sizes.find? fun n => isMatch p (firstArgument (cs.take n)) with
  | some n => cs.drop n
  | none => cs

/-- Takes off the back of a text the part that a pattern matches: the longest, or the shortest. -/
def dropBack (p : Pattern) (longest : Bool) (cs : List Char) : List Char :=
  let sizes := if longest then List.range ((firstArgument cs).length + 1)
    else (List.range (cs.length + 1)).reverse
  match sizes.find? fun n => isMatch p (firstArgument (cs.drop n)) with
  | some n => cs.take n
  | none => cs

end Pattern

end CommandScript.SystemShell
