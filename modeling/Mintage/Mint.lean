import Mintage.Authority
import Mintage.Ledger

/-!
# Minting

A mint authorizes its caller, validates the request, issues the coins to the
holding account and forwards them to the recipient, and records the event. The
two ledger steps share one layer, so that coins are delivered or not issued.

The stages do not know their ledger: they are given its two operations (`mintOn`),
and `mint` gives them those of the ledger in use.
-/

namespace Mintage

/-- A request to issue coins to the account named by a text. -/
structure MintRequest where
  caller : Account
  recipient : Bytes
  amount : Amount
  denom : Bytes
  deriving DecidableEq

namespace MintRequest

/-- The account that the request's recipient names, if its text fits. -/
def recipientAccount (s : Settings) (r : MintRequest) : Except MintError Account :=
  match s.account? r.recipient with
  | none => .error (.invalidAddress r.recipient)
  | some a => if s.fitsAddress r.recipient then .ok a else .error (.invalidAddress r.recipient)

/-- The coin that the request asks for, if its name is well formed and fits. -/
def coin (s : Settings) (r : MintRequest) : Except MintError Coin :=
  match Coin.named? r.denom r.amount with
  | none => .error (.mintFailed r.denom .invalidDenom)
  | some c =>
    if s.fitsDenom r.denom then .ok c else .error (.mintFailed r.denom .denomTooLong)

end MintRequest

namespace Mint

open Transaction

/-- The text of the caller, who is the authority. -/
def authorize (env : Environment) (caller : Account) : Transaction MintError Bytes := do
  let minter ← (Authority.authorize env caller).adapt fun d =>
    .unauthorized d.authority? caller d.cause?
  let text := env.settings.addressOf minter
  if env.settings.fitsAddress text then pure text
  else throw (.unauthorized (some minter) caller (some .authorityTextTooLong))

/-- Issues a coin to the holding account and forwards it. -/
def issueAndForward (ops : Ledger.Operations) (env : Environment) (depth : Nat)
    (recipient : Account) (c : Coin) : Transaction MintError Unit :=
  let holding := env.settings.holding
  withLayer depth (.mintFailed c.denom .layerLimit) do
    (ops.mintCoins (depth + 1) holding [c]).adapt (.mintFailed c.denom ·)
    (ops.sendCoins (depth + 1) holding recipient [c]).adapt (.transferFailed recipient ·)

/-- The stages of a mint up to its completion or first error. -/
def attempt (ops : Ledger.Operations) (env : Environment) (depth : Nat) (r : MintRequest) :
    Transaction MintError MintRecord := do
  write (.reached .received r.amount r.denom)
  let minter ← authorize env r.caller
  let recipient ← r.recipientAccount env.settings
  let coin ← r.coin env.settings
  issueAndForward ops env depth recipient coin
  write (.reached .emitting r.amount r.denom)
  deposit (.tokensMinted minter r.recipient r.amount r.denom)
  write (.reached .completed r.amount r.denom)
  pure ⟨minter, r.recipient, r.amount, r.denom⟩

/-- Carries out a request where `depth` layers are open; an error is reported. -/
def mintOn (ops : Ledger.Operations) (env : Environment) (depth : Nat) (r : MintRequest) :
    Transaction MintError MintRecord :=
  tryCatch (attempt ops env depth r) fun e => do
    write (.aborted e)
    throw e

end Mint

/-- Carries out a request on the ledger in use. -/
def mint (env : Environment) (depth : Nat) (r : MintRequest) :
    Transaction MintError MintRecord :=
  Mint.mintOn (Ledger.inUse env) env depth r

end Mintage
