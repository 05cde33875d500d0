/-!
# Bytes and text

Text is kept in files as UTF-8. `decode?` refuses bytes that are no text; `decodeLossy` puts the
replacement character for each longest row of bytes that begins a character and does not finish it.
-/

namespace CommandScript.Text

def decode? (bytes : ByteArray) : Option String := String.fromUTF8? bytes

def isContinuation (b : UInt8) : Bool := b &&& 0xC0 == 0x80

/-- How many bytes a character has that starts with `b`, and the range of its second byte. -/
def sequence? (b : UInt8) : Option (Nat × UInt8 × UInt8) :=
  if b < 0x80 then some (1, 0, 0)
  else if 0xC2 ≤ b && b ≤ 0xDF then some (2, 0x80, 0xBF)
  else if b == 0xE0 then some (3, 0xA0, 0xBF)
  else if b == 0xED then some (3, 0x80, 0x9F)
  else if 0xE1 ≤ b && b ≤ 0xEF then some (3, 0x80, 0xBF)
  else if b == 0xF0 then some (4, 0x90, 0xBF)
  else if 0xF1 ≤ b && b ≤ 0xF3 then some (4, 0x80, 0xBF)
  else if b == 0xF4 then some (4, 0x80, 0x8F)
  else none

/-- The bytes after a leading one that fit a character of `size` bytes. -/
def continuationRun (size : Nat) (low high : UInt8) (rest : List UInt8) : List UInt8 :=
  match rest with
  | second :: more =>
    if low ≤ second && second ≤ high then second :: (more.take (size - 2)).takeWhile isContinuation
    else []
  | [] => []

/-- The code point of the bytes of one character. -/
def codePoint (lead : UInt8) (others : List UInt8) : Nat :=
  let head : Nat := match others.length with
    | 0 => lead.toNat
    | 1 => lead.toNat % 32
    | 2 => lead.toNat % 16
    | _ => lead.toNat % 8
  others.foldl (fun n b => n * 64 + b.toNat % 64) head

/-- Decodes at most `fuel` characters. -/
def decodeLossyWithin : Nat → List UInt8 → List Char
  | 0, _ => []
  | _, [] => []
  | fuel + 1, b :: rest =>
    match sequence? b with
    | none => '�' :: decodeLossyWithin fuel rest
    | some (size, low, high) =>
      let others := if size = 1 then [] else continuationRun size low high rest
      let c := if others.length + 1 = size then Char.ofNat (codePoint b others) else '�'
      c :: decodeLossyWithin fuel (rest.drop others.length)

def decodeLossy (bytes : ByteArray) : String :=
  match decode? bytes with
  | some s => s
  | none => String.ofList (decodeLossyWithin bytes.size bytes.toList)

end CommandScript.Text
