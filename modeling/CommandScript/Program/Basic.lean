import CommandScript.Program.Numeral
import CommandScript.Program.Signal

/-!
# Programs

A program that only computes its output from its arguments reports what it wrote, in order, and its
status. Here are what programs share: their complaints and their escapes.
-/

namespace CommandScript.Program

/-- A write of a program: to its output or, as a complaint, to its errors. -/
structure Write where
  complaint : Bool := false
  text : List Char
  deriving DecidableEq, Repr, Inhabited

/-- What a program leaves behind. -/
structure Report where
  writes : List Write := []
  status : Nat := 0
  deriving DecidableEq, Repr, Inhabited

namespace Report

/-- A report of output only. -/
def output (text : List Char) : Report := { writes := [{ text }] }

/-- A report of a complaint only. -/
def complaint (text : String) (status : Nat) : Report :=
  { writes := [{ complaint := true, text := (text ++ "\n").toList }], status }

end Report

/-! ## Escapes -/

/-- The character of an escape with a letter, or of an escaped backslash. -/
def simpleEscape? (c : Char) : Option Char :=
  match c with
  | 'a' => some '\x07'
  | 'b' => some '\x08'
  | 'e' => some '\x1b'
  | 'f' => some '\x0c'
  | 'n' => some '\n'
  | 'r' => some '\r'
  | 't' => some '\t'
  | 'v' => some '\x0b'
  | '\\' => some '\\'
  | _ => none

/-- The byte that digits denote. -/
def byteOfDigits (radix : Nat) (digits : List Char) : Char :=
  Char.ofNat (Integer.ofDigits radix digits % 256)

/-- The digits at the start of a text, at most `most` of them. -/
def takeDigits (radix most : Nat) (cs : List Char) : List Char :=
  (cs.take most).takeWhile (Integer.isDigitOf radix)

/-! ## Quotes in complaints -/

/-- A byte in quotes; a byte that cannot be printed is escaped. -/
def quoteChar (c : Char) : List Char :=
  if c == '\'' || c == '\\' then ['\\', c]
  else if c == '\n' then ['\\', 'n']
  else if c == '\t' then ['\\', 't']
  else if c == '\r' then ['\\', 'r']
  else if c == '\x07' then ['\\', 'a']
  else if c == '\x08' then ['\\', 'b']
  else if c == '\x0b' then ['\\', 'v']
  else if c == '\x0c' then ['\\', 'f']
  else if c.toNat < 32 || c.toNat ≥ 127 then
    let digits := Nat.toDigits 8 c.toNat
    '\\' :: (List.replicate (3 - digits.length) '0' ++ digits)
  else [c]

/-- A text in quotes, as complaints show arguments. -/
def quote (s : String) : String := "'" ++ String.ofList (s.toList.flatMap quoteChar) ++ "'"

/-- Characters that a shell reads as themselves. -/
def isPlain (c : Char) : Bool :=
  c.isAlphanum || "%+,-./:@_]".contains c

/-- An argument as a shell would have to be given it; a colon needs quotes unless it counts as
plain. -/
def shellQuoted (plainColon : Bool) (arg : List Char) : List Char :=
  let printable (c : Char) : Bool := 32 ≤ c.toNat && c.toNat < 127
  let startsOdd := arg.head?.any fun c => c == '#' || c == '~'
  let plain (c : Char) : Bool :=
    if c == ':' then plainColon
    else isPlain c || c == '#' || c == '~' || c == '\x7b' || c == '\x7d'
  let harmless (c : Char) : Bool :=
    c != '"' && c != '$' && c != '\\' && c != Char.ofNat 96 && c != '!'
  let inQuotes (c : Char) : List Char := if c == '\'' then ['\'', '\\', '\'', '\''] else [c]
  if arg.isEmpty then ['\'', '\'']
  else if arg.all printable then
    if arg.all plain && !startsOdd && arg != ['\x7b'] && arg != ['\x7d'] then arg
    else if !arg.contains '\'' then '\'' :: arg ++ ['\'']
    else if arg.all harmless then '"' :: arg ++ ['"']
    else '\'' :: arg.flatMap inQuotes ++ ['\'']
  else
    let step (state : List Char × Bool) (c : Char) : List Char × Bool :=
      let (out, inside) := state
      if printable c then
        let out := if inside then out ++ ['\'', '\''] else out
        (out ++ inQuotes c, false)
      else
        let out := if inside then out else out ++ ['\'', '$', '\'']
        (out ++ quoteChar c, true)
    (arg.foldl step (['\''], false)).1 ++ ['\'']

end CommandScript.Program
