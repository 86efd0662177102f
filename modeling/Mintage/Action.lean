import Mintage.Call

/-!
# Actions and answers

What can be asked of a session, apart from layers, and what it answers.
-/

namespace Mintage

/-- A change of one setting. -/
inductive Setting
  | network (n : Network)
  | fixedAuthority (account? : Option Account)
  | authorityName (name : String)
  | online (value : Bool)
  | moduleId (id : ModuleId)
  | addressBound (n : Nat)
  | denomBound (n : Nat)
  | verbose (value : Bool)
  deriving DecidableEq

/-- What a step does unless it is a layer. -/
inductive Action
  | configure (changes : List Setting)
  | setKey (name text : Bytes)
  /-- Stores the account's text on the network in use. -/
  | setKeyAccount (name : Bytes) (account : Account)
  | removeKey (name : Bytes)
  | refuseMints (value : Bool)
  | refuseTransfers (value : Bool)
  | endow (who : Account) (denom : Bytes) (amount : Amount)
  | resolve
  | authorize (caller : Account)
  | mint (request : MintRequest)
  | call (origin : Origin) (recipient : Bytes) (amount : Amount) (denom : Bytes)
  | callRaw (origin : Origin) (bytes : Bytes)
  | mintCoins (target : Account) (coins : List Coin)
  | sendCoins (sender receiver : Account) (coins : List Coin)
  /-- On the native currency, whichever ledger is in use. -/
  | mintNative (target : Account) (coins : List Coin)
  /-- On the native currency, whichever ledger is in use. -/
  | sendNative (sender receiver : Account) (coins : List Coin)
  | balance (who : Account) (denom : Bytes)
  | supply (denom : Bytes)
  | address (account : Account)
  | holding
  | boundFits
  | tryState
  | integrity
  deriving DecidableEq

/-- What an action answers. -/
inductive Answer
  | done
  | refused (fault : Fault)
  | account (a : Account)
  | flag (value : Bool)
  | amount (n : Nat)
  | text (bytes : Bytes)
  /-- Whether the caller is authorized, then the authority or the denial. -/
  | authorization (allowed : Bool) (result : Except Denial Account)
  | mint (result : Except MintError MintRecord)
  | call (encoding : Bytes) (result : Except CallError Unit)
  /-- No call has this part. -/
  | unbuilt (part : MintCall.Part)
  | rawCall (call : MintCall) (rest : Nat) (result : Except CallError Unit)
  /-- The bytes are no call. -/
  | undecodable
  /-- The module cannot be put together. -/
  | broken (fault : Fault)

namespace Answer

def ofUnit : Except Fault Unit → Answer
  | .ok () => done
  | .error f => refused f

def ofAccount : Except Fault Account → Answer
  | .ok a => account a
  | .error f => refused f

end Answer

namespace Setting

def apply (e : Environment) : Setting → Environment
  | network n => { e with settings.network := n }
  | fixedAuthority a => { e with settings.fixedAuthority := a }
  | authorityName n => { e with settings.authorityName := n }
  | online v => { e with keyring.online := v }
  | moduleId i => { e with settings.moduleId := i }
  | addressBound n => { e with settings.bounds.address := n }
  | denomBound n => { e with settings.bounds.denom := n }
  | verbose v => { e with settings.verbose := v }

def applyAll (e : Environment) (changes : List Setting) : Environment :=
  changes.foldl apply e

end Setting

end Mintage
