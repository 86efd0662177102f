import Mintage.Bytes

/-!
# Hexadecimal text

Two lowercase digits a byte, high half first.
-/

namespace Mintage.Hex

def digit (n : Nat) : Char :=
  if n < 10 then Char.ofNat (48 + n) else Char.ofNat (87 + n)

def digit? (c : Char) : Option Nat :=
  if '0' ≤ c ∧ c ≤ '9' then some (c.toNat - 48)
  else if 'a' ≤ c ∧ c ≤ 'f' then some (c.toNat - 87)
  else none

def encodeChars : Bytes → List Char
  | [] => []
  | b :: bs => digit (b.toNat / 16) :: digit (b.toNat % 16) :: encodeChars bs

def decodeChars? : List Char → Option Bytes
  | [] => some []
  | [_] => none
  | h :: l :: cs => do
    let high ← digit? h
    let low ← digit? l
    let bs ← decodeChars? cs
    pure (UInt8.ofNat (16 * high + low) :: bs)

def encode (bs : Bytes) : String := String.ofList (encodeChars bs)

/-- Refuses an odd number of digits and every other character. -/
def decode? (s : String) : Option Bytes := decodeChars? s.toList

end Mintage.Hex
