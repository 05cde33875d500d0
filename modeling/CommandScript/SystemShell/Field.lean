import CommandScript.SystemShell.Pattern

/-!
# Fields

An expanded word is a row of segments. A segment that came from an expansion without quotes is
split where separators stand in it; what other segments hold stays together. The character NUL is
in no value, and stands between the arguments where all of them are expanded.
-/

namespace CommandScript.SystemShell

/-- How a segment is split. -/
inductive Splitting where
  | never
  /-- At separators. -/
  | fields
  /-- Only between arguments. -/
  | arguments
  deriving DecidableEq, Repr, Inhabited

structure Segment where
  splitting : Splitting := .never
  glyphs : List Glyph
  deriving Inhabited

namespace Segment

/-- The characters of segments that are not split. -/
def text (segments : List Segment) : List Char :=
  segments.flatMap fun segment => Glyph.text segment.glyphs

def glyphsOf (segments : List Segment) : List Glyph := segments.flatMap Segment.glyphs

end Segment

namespace Field

/-- Blanks among separators: a row of them divides fields as one does. -/
def isBlank (c : Char) : Bool := c == ' ' || c == '\t' || c == '\n' || c == '\x00'

structure Split where
  /-- The fields that are complete, last first. -/
  fields : List (List Glyph) := []
  /-- The current field, last glyph first. -/
  current : List Glyph := []
  /-- Whether only blanks stood since the last field. -/
  afterBlank : Bool := false
  /-- Whether the last split segment was one of arguments. -/
  arguments : Bool := false
  /-- How many more fields may be made; nothing if any number. -/
  left : Option Nat := none
  /-- The size that the last field is cut down to. -/
  cut : Option Nat := none

/-- Takes one glyph of a segment that is split. -/
def step (isSeparator : Char → Bool) (afterArguments inArguments : Bool) (s : Split) (g : Glyph) :
    Split :=
  let separates := isSeparator g.char && !g.isMark
  let blank := separates && isBlank g.char
  if s.left = some 0 then
    let s' := { s with current := g :: s.current }
    if blank then { s' with cut := s.cut <|> some s.current.length }
    else
      { s' with cut := if separates && s.afterBlank then s.cut else none, afterBlank := false }
  else
    -- After a blank the next field begins where no more separators stand.
    let (s, separates, passed) : Split × Bool × Bool :=
      if s.afterBlank then
        if separates then ({ s with current := [] }, false, true)
        else ({ s with current := [] }, false, false)
      else (s, separates, false)
    if passed then if blank then s else { s with afterBlank := false }
    else if separates then
      let afterBlank := if afterArguments || inArguments then s.afterBlank else blank
      if s.current.isEmpty && afterBlank then { s with afterBlank := false }
      else
        match s.left with
        | some 1 =>
          { s with
            left := some 0, cut := some s.current.length, current := g :: s.current, afterBlank }
        | left =>
          { s with
            left := left.map (· - 1), fields := s.current.reverse :: s.fields, current := [],
            afterBlank }
    else { s with current := g :: s.current, afterBlank := false }

/-- Takes a segment. -/
def takeSegment (separators : List Char) (s : Split) (segment : Segment) : Split :=
  match segment.splitting with
  | .never => { s with current := segment.glyphs.reverse ++ s.current }
  | .fields =>
    let s' := { s with afterBlank := false, arguments := false }
    segment.glyphs.foldl
      (step (fun c => c == '\x00' || separators.contains c) s.arguments false) s'
  | .arguments =>
    let s' := { s with afterBlank := false, arguments := true }
    segment.glyphs.foldl (step (· == '\x00') s.arguments true) s'

/-- Splits segments into fields, at most as many as `left` says. -/
def split (separators : List Char) (left : Option Nat) (segments : List Segment) :
    List (List Glyph) :=
  let s := segments.foldl (takeSegment separators) { left }
  let last := s.current.reverse
  let last := (s.cut.map last.take).getD last
  let fields := if last.isEmpty && !s.arguments then s.fields else last :: s.fields
  fields.reverse

end Field

end CommandScript.SystemShell
