/-!
# White space and trimming

`isBlank` is the Unicode property White_Space. Trimming works on lists of characters and takes
the class of characters to remove, so the same functions serve blanks and any other set.
-/

namespace CommandScript.Text

/-- The 25 characters of the Unicode property White_Space. -/
def isBlank (c : Char) : Bool :=
  let n := c.toNat
  (0x09 ≤ n && n ≤ 0x0D) || n == 0x20 || n == 0x85 || n == 0xA0 || n == 0x1680 ||
    (0x2000 ≤ n && n ≤ 0x200A) || n == 0x2028 || n == 0x2029 || n == 0x202F || n == 0x205F ||
    n == 0x3000

/-- Removes the longest run of `p` at the start. -/
def trimStart (p : Char → Bool) (cs : List Char) : List Char := cs.dropWhile p

/-- Removes the longest run of `p` at the end. -/
def trimEnd (p : Char → Bool) (cs : List Char) : List Char := (cs.reverse.dropWhile p).reverse

/-- Removes the longest runs of `p` at both ends. -/
def trimBoth (p : Char → Bool) (cs : List Char) : List Char := trimEnd p (trimStart p cs)

/-- A text without the white space around it. -/
def trim (s : String) : String := String.ofList (trimBoth isBlank s.toList)

end CommandScript.Text
