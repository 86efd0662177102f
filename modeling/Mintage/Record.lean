import Mintage.Scale

/-!
# Records of completed mints

What a mint answers, `MintRecord`, and what it leaves in the event log, `Event`.
Both keep account text, not accounts.
-/

namespace Mintage

/-- A completed mint. -/
structure MintRecord where
  minter : Bytes
  recipient : Bytes
  amount : Amount
  denom : Bytes
  deriving DecidableEq

namespace MintRecord

def kind : String := "token_minted"

/-- The fields by name, in order; the amount is a decimal numeral. -/
def attributes (r : MintRecord) : List (String × Bytes) :=
  [("minter", r.minter), ("recipient", r.recipient), ("amount", r.amount.decimal),
    ("denom", r.denom)]

/-- The record that has the given attributes. -/
def ofAttributes? : List (String × Bytes) → Option MintRecord
  | [("minter", minter), ("recipient", recipient), ("amount", amount), ("denom", denom)] => do
    let n ← Decimal.decode? amount
    let amount ← Amount.ofNat? n
    pure ⟨minter, recipient, amount, denom⟩
  | _ => none

def encode (r : MintRecord) : Bytes :=
  Scale.vector r.minter ++ Scale.vector r.recipient ++ Scale.amount r.amount ++
    Scale.vector r.denom

def decode? : Scale.Decoder MintRecord := do
  let minter ← Scale.vector?
  let recipient ← Scale.vector?
  let amount ← Scale.amount?
  let denom ← Scale.vector?
  pure ⟨minter, recipient, amount, denom⟩

/-- The attributes lose nothing of the record. -/
theorem ofAttributes?_attributes (r : MintRecord) : ofAttributes? r.attributes = some r := by
  simp [ofAttributes?, attributes, Amount.decimal, Decimal.decode?_encode]

end MintRecord

/-- Longest account text and longest denomination that an event may hold. -/
structure Bounds where
  address : Nat
  denom : Nat
  deriving DecidableEq

/-- An entry of the event log. -/
inductive Event
  | tokensMinted (minter recipient : Bytes) (amount : Amount) (denom : Bytes)
  deriving DecidableEq

namespace Event

def encode : Event → Bytes
  | tokensMinted minter recipient amount denom =>
    0 :: (Scale.vector minter ++ Scale.vector recipient ++ Scale.amount amount ++
      Scale.vector denom)

/-- Refuses an event that does not fit the bounds. -/
def decode? (bounds : Bounds) : Scale.Decoder Event := do
  Scale.tag? 0
  let minter ← Scale.boundedVector? bounds.address
  let recipient ← Scale.boundedVector? bounds.address
  let amount ← Scale.amount?
  let denom ← Scale.boundedVector? bounds.denom
  pure (tokensMinted minter recipient amount denom)

/-- Reads up to `count` events, stopping at the first that cannot be read. -/
def readUpTo (bounds : Bounds) : Nat → Bytes → List Event
  | 0, _ => []
  | count + 1, bs =>
    match decode? bounds bs with
    | none => []
    | some (e, rest) => e :: readUpTo bounds count rest

/-- The part of a stored log that shows under the given bounds: an event that
does not fit them hides itself and all later ones. -/
def visible (bounds : Bounds) (log : List Event) : List Event :=
  readUpTo bounds log.length (log.flatMap encode)

end Event

end Mintage
