import CommandScript.Text.Blank

/-!
# Searching text

Occurrences of one row of characters in another, counted in characters.
-/

namespace CommandScript.Text

/-- How many characters come before the first occurrence of `needle`. -/
def find? (needle : List Char) : List Char → Option Nat
  | [] => if needle.isEmpty then some 0 else none
  | c :: cs => if needle.isPrefixOf (c :: cs) then some 0 else (find? needle cs).map (· + 1)

/-- The parts of a text between the occurrences of `separator`, found from the left; `current` is
the part begun so far, last character first. -/
def splitFrom (separator : List Char) : Nat → List Char → List Char → List (List Char)
  | 0, current, [] => [current.reverse]
  | 0, current, c :: cs =>
    if separator.isPrefixOf (c :: cs) then
      current.reverse :: splitFrom separator (separator.length - 1) [] cs
    else splitFrom separator 0 (c :: current) cs
  | _ + 1, current, [] => [current.reverse]
  | skip + 1, current, _ :: cs => splitFrom separator skip current cs

/-- The parts of a text between the occurrences of `separator`. -/
def splitOn (separator text : List Char) : List (List Char) := splitFrom separator 0 [] text

/-- The parts of a text before and after the last occurrence of `separator`. -/
def splitAtLast (separator text : List Char) : Option (List Char × List Char) :=
  (find? separator.reverse text.reverse).map fun n =>
    let before := (text.reverse.drop (n + separator.length)).reverse
    (before, (text.reverse.take n).reverse)

end CommandScript.Text
