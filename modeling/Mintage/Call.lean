import Mintage.Mint

/-!
# The mint call

The request as it is submitted: recipient and denomination within their bounds,
in SCALE bytes. A dispatched call runs in a layer of its own, opened before its
origin is looked at, and answers which error a mint ended in, not why.
-/

namespace Mintage

structure MintCall where
  recipient : Bytes
  amount : Amount
  denom : Bytes
  deriving DecidableEq

/-- Who submits a call. -/
inductive Origin
  | signed (account : Account)
  | root
  | none
  deriving DecidableEq

/-- Why a call failed. -/
inductive CallError
  | fault (f : Fault)
  | mint (kind : MintError.Kind)
  deriving DecidableEq

/-- The place of the mint module among the modules that calls go to. -/
def CallError.moduleIndex : Nat := 2

namespace MintCall

/-- A part of the call that has a bound. -/
inductive Part
  | recipient | denom
  deriving DecidableEq

def Part.name : Part → String
  | recipient => "recipient"
  | denom => "denom"

/-- The call with the given parts, or the first part that is too long. -/
def build (s : Settings) (recipient : Bytes) (amount : Amount) (denom : Bytes) :
    Except Part MintCall :=
  if !s.fitsAddress recipient then .error .recipient
  else if !s.fitsDenom denom then .error .denom
  else .ok ⟨recipient, amount, denom⟩

def encode (c : MintCall) : Bytes :=
  0 :: (Scale.vector c.recipient ++ Scale.compactAmount c.amount ++ Scale.vector c.denom)

/-- Refuses a call whose parts do not fit the bounds. -/
def decode? (bounds : Bounds) : Scale.Decoder MintCall := do
  Scale.tag? 0
  let recipient ← Scale.boundedVector? bounds.address
  let amount ← Scale.compactAmount?
  let denom ← Scale.boundedVector? bounds.denom
  pure ⟨recipient, amount, denom⟩

def request (c : MintCall) (caller : Account) : MintRequest :=
  ⟨caller, c.recipient, c.amount, c.denom⟩

/-- Runs the call where `depth` layers are open. -/
def dispatch (env : Environment) (depth : Nat) (origin : Origin) (c : MintCall) :
    Transaction CallError Unit :=
  withLayer depth (.fault .layerLimit) do
    match origin with
    | .signed caller =>
      discard <| (mint env (depth + 1) (c.request caller)).adapt fun e => .mint e.kind
    | .root | .none => throw (.fault .badOrigin)

end MintCall

end Mintage
