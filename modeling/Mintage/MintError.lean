import Mintage.Address
import Mintage.Fault

/-!
# Stages of a mint and its errors

A mint passes through its stages in order; each error names the stage that the
mint was in.
-/

namespace Mintage

inductive Stage
  | received | authorizing | validating | minting | transferring | emitting | completed
  deriving DecidableEq

namespace Stage

def name : Stage → String
  | received => "Received"
  | authorizing => "Authorizing"
  | validating => "Validating"
  | minting => "Minting"
  | transferring => "Transferring"
  | emitting => "Emitting"
  | completed => "Completed"

/-- The stage in a message. -/
def display (s : Stage) : String := "MintStage::" ++ s.name

end Stage

inductive MintError
  /-- The caller is not the authority, or the authority could not be found, or
  its text does not fit the bound. -/
  | unauthorized (authority : Option Account) (caller : Account) (cause : Option Fault)
  /-- The recipient is not an address, or does not fit the bound. -/
  | invalidAddress (address : Bytes)
  /-- The coins were not issued. -/
  | mintFailed (denom : Bytes) (cause : Fault)
  /-- The coins were issued and did not reach the recipient. -/
  | transferFailed (recipient : Account) (cause : Fault)
  deriving DecidableEq

namespace MintError

/-- Which error, without its circumstances. -/
inductive Kind
  | unauthorized | invalidAddress | mintFailed | transferFailed
  deriving DecidableEq

def kind : MintError → Kind
  | .unauthorized .. => .unauthorized
  | .invalidAddress .. => .invalidAddress
  | .mintFailed .. => .mintFailed
  | .transferFailed .. => .transferFailed

namespace Kind

def stage : Kind → Stage
  | unauthorized => .authorizing
  | invalidAddress => .validating
  | mintFailed => .minting
  | transferFailed => .transferring

def name : Kind → String
  | unauthorized => "Unauthorized"
  | invalidAddress => "InvalidAddress"
  | mintFailed => "MintFailed"
  | transferFailed => "TransferFailed"

/-- Four bytes: the place in the list of errors, then zeros. -/
def code : Kind → Bytes
  | unauthorized => [0, 0, 0, 0]
  | invalidAddress => [1, 0, 0, 0]
  | mintFailed => [2, 0, 0, 0]
  | transferFailed => [3, 0, 0, 0]

end Kind

def stage (e : MintError) : Stage := e.kind.stage

def displayOption {α : Type} (display : α → String) : Option α → String
  | none => "None"
  | some x => "Some(" ++ display x ++ ")"

/-- The fields of an error by name, as they stand in a message. -/
def fields : MintError → List (String × String)
  | .unauthorized authority caller cause =>
    [("authority", displayOption Address.display authority), ("caller", Address.display caller),
      ("cause", displayOption Fault.display cause)]
  | .invalidAddress address => [("address", Bytes.listing address)]
  | .mintFailed denom cause =>
    [("denom", Bytes.listing denom), ("cause", cause.display)]
  | .transferFailed recipient cause =>
    [("recipient", Address.display recipient), ("cause", cause.display)]

/-- The error in a message. -/
def display (e : MintError) : String :=
  "IssuanceError::" ++ e.kind.name ++ " \x7b " ++
    ", ".intercalate (e.fields.map fun f => f.1 ++ ": " ++ f.2) ++ " \x7d"

end MintError

end Mintage
