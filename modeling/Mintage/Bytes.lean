/-!
# Byte strings

Texts, addresses and denominations are lists of bytes, ordered lexicographically.
-/

namespace Mintage

abbrev Bytes := List UInt8

namespace Bytes

/-- The UTF-8 bytes of a text. -/
def ofText (s : String) : Bytes := s.toUTF8.data.toList

/-- The text whose characters are the given ASCII bytes. -/
def toAscii (bs : Bytes) : String := String.ofList (bs.map fun b => Char.ofNat b.toNat)

/-- The bytes as decimal numbers in brackets, such as `[102, 101, 105]`. -/
def listing (bs : Bytes) : String :=
  "[" ++ ", ".intercalate (bs.map fun b => toString b.toNat) ++ "]"

/-- Printable ASCII, the space included. -/
def isPrintable (bs : Bytes) : Bool := bs.all fun b => 0x20 ≤ b && b ≤ 0x7e

end Bytes

end Mintage
