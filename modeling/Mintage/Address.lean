import Mintage.Blake2b
import Mintage.SS58

/-!
# Address text in use

SS58 text whose checksum is the first two bytes of the BLAKE2b digest of
`SS58PRE` and the body.
-/

namespace Mintage

export SS58 (Network)

namespace Address

def checksum : SS58.Checksum := fun body =>
  let digest := Blake2b.digest (Bytes.ofText "SS58PRE" ++ body)
  (digest.getD 0 0, digest.getD 1 0)

def encode (network : Network) (a : Account) : Bytes := SS58.encode checksum network a

def decode? (network : Network) (text : Bytes) : Option Account :=
  SS58.decode? checksum network text

/-- The network whose text names accounts in messages, whatever the network in use. -/
def displayNetwork : Network := 42

/-- An account in a message: its bytes and the start of its address text. -/
def display (a : Account) : String :=
  a.hex ++ " (" ++ Bytes.toAscii ((encode displayNetwork a).take 8) ++ "...)"

end Address

end Mintage
