import Mintage.Scale

/-!
# Coins

A quantity of one denomination. A denomination's name is a letter followed by
2 to 127 letters, digits and marks of `/ : . _ -`.

A coin read from bytes or handed to a ledger may have any name; only
`Coin.named?` asks for a well-formed one.
-/

namespace Mintage

namespace Denom

def isLetter (b : UInt8) : Bool := (65 ≤ b && b ≤ 90) || (97 ≤ b && b ≤ 122)

def isDigit (b : UInt8) : Bool := 48 ≤ b && b ≤ 57

/-- One of `/ : . _ -`. -/
def isMark (b : UInt8) : Bool := [47, 58, 46, 95, 45].contains b

def minLength : Nat := 3

def maxLength : Nat := 128

def isValid (denom : Bytes) : Bool :=
  minLength ≤ denom.length && denom.length ≤ maxLength &&
    match denom with
    | [] => false
    | first :: rest => isLetter first && rest.all fun b => isLetter b || isDigit b || isMark b

end Denom

structure Coin where
  denom : Bytes
  amount : Amount
  deriving DecidableEq

namespace Coin

/-- A coin with a well-formed name. -/
def named? (denom : Bytes) (amount : Amount) : Option Coin :=
  if Denom.isValid denom then some ⟨denom, amount⟩ else none

def isZero (c : Coin) : Bool := c.amount.isZero

def encode (c : Coin) : Bytes := Scale.vector c.denom ++ Scale.amount c.amount

def decode? : Scale.Decoder Coin := do
  let denom ← Scale.vector?
  let amount ← Scale.amount?
  pure ⟨denom, amount⟩

end Coin

end Mintage
