import Mintage.Account
import Mintage.Base58

/-!
# SS58 address text

The Base58 text of network bytes, account and a two-byte checksum of both. The
checksum is a parameter: no law of the format depends on it.

A text is read for one network only; another network's text is refused even
when its checksum is right.
-/

namespace Mintage.SS58

abbrev Network := UInt16

/-- The two bytes that close an address with the given body. -/
abbrev Checksum := Bytes → UInt8 × UInt8

/-- A network below 64 takes one byte and one below 16384 two: `01` and the six
bits from bit 2 up, then the two lowest bits above the six highest. Higher bits
of the number are dropped. -/
def networkBytes (network : Network) : Bytes :=
  let n := network.toNat % 16384
  if n < 64 then [UInt8.ofNat n]
  else [UInt8.ofNat (64 + n % 256 / 4), UInt8.ofNat (n % 4 * 64 + n / 256)]

/-- The network at the head of an address and the number of bytes it takes. -/
def network? : Bytes → Option (Network × Nat)
  | [] => none
  | first :: rest =>
    if first.toNat < 64 then some (UInt16.ofNat first.toNat, 1)
    else if first.toNat < 128 then
      match rest with
      | [] => none
      | second :: _ =>
        let low := first.toNat % 64 * 4 + second.toNat / 64
        let high := second.toNat % 64
        some (UInt16.ofNat (low + 256 * high), 2)
    else none

def checksumBytes (checksum : Checksum) (body : Bytes) : Bytes :=
  [(checksum body).1, (checksum body).2]

def encode (checksum : Checksum) (network : Network) (a : Account) : Bytes :=
  let body := networkBytes network ++ a.bytes
  Base58.encode (body ++ checksumBytes checksum body)

/-- The account in the bytes of an address on `network`. -/
def account? (checksum : Checksum) (network : Network) (data : Bytes) : Option Account := do
  let (found, width) ← network? data
  if found ≠ network then none
  else if data.length ≠ width + 32 + 2 then none
  else
    let body := data.take (width + 32)
    if data.drop (width + 32) ≠ checksumBytes checksum body then none
    else Account.ofBytes? (body.drop width)

def decode? (checksum : Checksum) (network : Network) (text : Bytes) : Option Account := do
  let data ← Base58.decode? text
  account? checksum network data

end Mintage.SS58
