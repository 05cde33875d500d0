import CommandScript.Text.Utf8

/-!
# Octets

Programs work on bytes and not on characters. A byte is kept as the character with its number, so
a text of bytes is a `String` whose characters are all below 256; plain ASCII text is its own text
of bytes.
-/

namespace CommandScript.Text

/-- The bytes of a text, as a text of bytes. -/
def toOctets (s : String) : String :=
  String.ofList (s.toUTF8.toList.map fun b => Char.ofNat b.toNat)

/-- The bytes that a text of bytes stands for. -/
def octetBytes (s : String) : ByteArray := ⟨(s.toList.map fun c => UInt8.ofNat c.toNat).toArray⟩

/-- The text of bytes that stands for some bytes. -/
def ofBytes (bytes : ByteArray) : String :=
  String.ofList (bytes.toList.map fun b => Char.ofNat b.toNat)

/-- The text that a text of bytes encodes. -/
def ofOctets (s : String) : String := decodeLossy (octetBytes s)

end CommandScript.Text
