import Mintage.Environment
import Mintage.World

/-!
# Ledger operations on coin lists

Minting and sending take a list of coins, one coin after another, in a layer of
their own: a coin that is refused undoes those before it. The book notes each
call and obeys its switches before it opens the layer; the native currency
passes over zero coins.
-/

namespace Mintage.Ledger

open Transaction

def mintOnBook (switches : Switches) (depth : Nat) (target : Account) (coins : List Coin) :
    Transaction Fault Unit := do
  record .mint
  if switches.refuseMints then throw .mintingDisabled
  withLayer depth .layerLimit <| coins.forM fun c => onBook fun b => b.issue target c

def sendOnBook (switches : Switches) (depth : Nat) (sender receiver : Account)
    (coins : List Coin) : Transaction Fault Unit := do
  record .send
  if switches.refuseTransfers then throw .transfersDisabled
  withLayer depth .layerLimit <| coins.forM fun c => onBook fun b => b.move sender receiver c

def mintNative (terms : CurrencyTerms) (depth : Nat) (target : Account) (coins : List Coin) :
    Transaction Fault Unit :=
  withLayer depth .layerLimit <| (coins.filter (!·.isZero)).forM fun c =>
    onCurrency fun cur => cur.issueCoin terms target c

def sendNative (terms : CurrencyTerms) (depth : Nat) (sender receiver : Account)
    (coins : List Coin) : Transaction Fault Unit :=
  withLayer depth .layerLimit <| (coins.filter (!·.isZero)).forM fun c =>
    onCurrency fun cur => cur.moveCoin terms sender receiver c

/-- Creates coins on the ledger in use and credits them to `target`. -/
def mintCoins (env : Environment) (depth : Nat) (target : Account) (coins : List Coin) :
    Transaction Fault Unit :=
  match env.settings.ledger with
  | .book => mintOnBook env.switches depth target coins
  | .native => mintNative env.settings.currency depth target coins

/-- Moves coins between accounts of the ledger in use. -/
def sendCoins (env : Environment) (depth : Nat) (sender receiver : Account)
    (coins : List Coin) : Transaction Fault Unit :=
  match env.settings.ledger with
  | .book => sendOnBook env.switches depth sender receiver coins
  | .native => sendNative env.settings.currency depth sender receiver coins

/-- The two operations that a mint asks its ledger for, where so many layers are open. -/
structure Operations where
  mintCoins : Nat → Account → List Coin → Transaction Fault Unit
  sendCoins : Nat → Account → Account → List Coin → Transaction Fault Unit

/-- The operations of the ledger in use. -/
def inUse (env : Environment) : Operations := ⟨mintCoins env, sendCoins env⟩

end Mintage.Ledger
