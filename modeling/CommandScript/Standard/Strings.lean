import CommandScript.Standard.Arguments
import CommandScript.Text.LetterCase

/-!
# Commands on strings

Positions in a string count characters.
-/

namespace CommandScript.Standard.Strings

variable {κ : Type}

/-! ## Operations -/

/-- The order of two texts: -1, 0 or 1. -/
def order (a b : String) : Int := if a < b then -1 else if a = b then 0 else 1

/-- The characters from a position through another; positions outside the text do not count. -/
def slice (cs : List Char) (first last : Int) : List Char :=
  let first := max first 0
  let last := min last (cs.length - 1)
  if first > last then [] else (cs.drop first.toNat).take (last - first + 1).toNat

/-- The character at a position, if there is one. -/
def charAt? (cs : List Char) (i : Int) : Option Char := i.toNat?.bind (cs[·]?)

/-- The position of the first occurrence of a text at or after a position, or -1. -/
def firstFrom (needle haystack : List Char) (start : Int) : Int :=
  let start := start.toNat
  if start > haystack.length then -1
  else
    match Text.find? needle (haystack.drop start) with
    | some n => start + n
    | none => -1

/-! ## Commands -/

/-- The two strings to compare, and whether case counts. -/
def twoStrings (argv : List Value) : Act κ (Bool × String × String) :=
  let usage := "?-nocase? string1 string2"
  match argv with
  | [_, _, a, b] => pure (true, a.text, b.text)
  | [_, _, option, a, b] =>
    if option.text = "-nocase" then pure (false, a.text, b.text) else wrongSubArguments argv usage
  | _ => wrongSubArguments argv usage

def compared (argv : List Value) : Act κ Int := do
  let (cased, a, b) ← twoStrings argv
  return if cased then order a b else order (Text.toLower a) (Text.toLower b)

def compare : Native κ := fun _ argv => return .ofInt (← compared argv)

def equal : Native κ := fun _ argv => return .boolean ((← compared argv) == 0)

def first : Native κ := fun _ argv => do
  let usage := "needleString haystackString ?startIndex?"
  match argv with
  | [_, _, needle, haystack] =>
    return .ofInt (firstFrom needle.text.toList haystack.text.toList 0)
  | [_, _, needle, haystack, start] =>
    let cs := haystack.text.toList
    let start ← parseIndex start cs.length
    return .ofInt (firstFrom needle.text.toList cs start)
  | _ => wrongSubArguments argv usage

def index : Native κ := fun _ argv => do
  match argv with
  | [_, _, s, i] =>
    let cs := s.text.toList
    let i ← parseIndex i cs.length
    match charAt? cs i with
    | some c => return .string (String.singleton c)
    | none => return {}
  | _ => wrongSubArguments argv "string charIndex"

def length : Native κ := fun _ argv => do
  match argv with
  | [_, _, s] => return .ofNat s.text.length
  | _ => wrongSubArguments argv "string"

def range : Native κ := fun _ argv => do
  match argv with
  | [_, _, s, first, last] =>
    let cs := s.text.toList
    let first ← parseIndex first cs.length
    let last ← parseIndex last cs.length
    return .string (String.ofList (slice cs first last))
  | _ => wrongSubArguments argv "string first last"

def repeat' : Native κ := fun _ argv => do
  match argv with
  | [_, _, s, count] =>
    let count := (← Action.ofExcept count.toInt).toInt.toNat
    let _ ← Action.checked (s.text.utf8ByteSize * count)
    return .string (String.join (List.replicate count s.text))
  | _ => wrongSubArguments argv "string count"

/-- A command that maps a string to another. -/
def mapped (f : String → String) : Native κ := fun _ argv => do
  match argv with
  | [_, _, s] => return .string (f s.text)
  | _ => wrongSubArguments argv "string"

/-- A command that trims blanks or the given characters. -/
def trimmed (trim : (Char → Bool) → List Char → List Char) : Native κ := fun _ argv => do
  match argv with
  | [_, _, s] => return .string (String.ofList (trim Text.isBlank s.text.toList))
  | [_, _, s, chars] =>
    let set := chars.text.toList
    return .string (String.ofList (trim set.contains s.text.toList))
  | _ => wrongSubArguments argv "string ?chars?"

def string : Native κ :=
  ensemble [("compare", compare), ("equal", equal), ("first", first), ("index", index),
    ("length", length), ("range", range), ("repeat", repeat'), ("tolower", mapped Text.toLower),
    ("toupper", mapped Text.toUpper), ("trim", trimmed Text.trimBoth),
    ("trimleft", trimmed Text.trimStart), ("trimright", trimmed Text.trimEnd)]

end CommandScript.Standard.Strings
