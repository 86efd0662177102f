/-!
# Faults

Why an operation was refused. Each fault belongs to a family; most have a
detail besides.
-/

namespace Mintage

inductive Fault
  /-- The ledger has been told to refuse mints. -/
  | mintingDisabled
  /-- The ledger has been told to refuse transfers. -/
  | transfersDisabled
  | invalidDenom
  | denomTooLong
  | authorityTextTooLong
  /-- The text that the keyring holds for the authority is not an address. -/
  | authorityUnreadable
  | addressBoundTooSmall
  /-- A layer was given up on request. -/
  | rolledBack
  | fundsUnavailable
  | belowMinimum
  | unknownAsset
  | overflow
  | underflow
  /-- As many storage layers are open as may be. -/
  | layerLimit
  /-- The origin of a call is not an account. -/
  | badOrigin
  /-- The keyring is offline. -/
  | keyringUnavailable
  /-- The keyring holds nothing under the name looked up. -/
  | nameUnknown
  deriving DecidableEq

namespace Fault

inductive Family
  | other | token | arithmetic | transactional | badOrigin | unavailable | cannotLookup
  deriving DecidableEq

def family : Fault → Family
  | mintingDisabled | transfersDisabled | invalidDenom | denomTooLong | authorityTextTooLong
  | authorityUnreadable | addressBoundTooSmall | rolledBack => .other
  | fundsUnavailable | belowMinimum | unknownAsset => .token
  | overflow | underflow => .arithmetic
  | layerLimit => .transactional
  | badOrigin => .badOrigin
  | keyringUnavailable => .unavailable
  | nameUnknown => .cannotLookup

def Family.name : Family → String
  | other => "Other"
  | token => "Token"
  | arithmetic => "Arithmetic"
  | transactional => "Transactional"
  | badOrigin => "BadOrigin"
  | unavailable => "Unavailable"
  | cannotLookup => "CannotLookup"

def detail? : Fault → Option String
  | mintingDisabled => some "minting disabled"
  | transfersDisabled => some "transfers disabled"
  | invalidDenom => some "invalid denom"
  | denomTooLong => some "denom exceeds MaxDenomLength"
  | authorityTextTooLong => some "authority address exceeds MaxAddressLength"
  | authorityUnreadable => some "resolved authority is not a valid address"
  | addressBoundTooSmall => some "MaxAddressLength is too small for an encoded account"
  | rolledBack => some "rollback"
  | fundsUnavailable => some "FundsUnavailable"
  | belowMinimum => some "BelowMinimum"
  | unknownAsset => some "UnknownAsset"
  | overflow => some "Overflow"
  | underflow => some "Underflow"
  | layerLimit => some "LimitReached"
  | badOrigin | keyringUnavailable | nameUnknown => none

/-- The fault in a message: its family, then its detail, quoted where it is a
sentence. -/
def display (f : Fault) : String :=
  match f.detail? with
  | none => f.family.name
  | some d =>
    if f.family = .other then f.family.name ++ "(\"" ++ d ++ "\")"
    else f.family.name ++ "(" ++ d ++ ")"

end Fault

end Mintage
