import Mintage.Action
import Mintage.Health

/-!
# Sessions

A session is an environment and a world. Its steps are actions and layers;
a layer holds steps of its own and commits or gives up what they did to the
storage. Each step leaves an entry: its answer, a view of the session after it,
and what the journal gained.

`Step.run` and `Step.runAll` say how many layers are open around a step.
-/

namespace Mintage

structure Session where
  env : Environment
  world : World

/-- What shows of a session. -/
structure View where
  events : List Event
  calls : List LedgerCall
  supplies : List (Bytes × Nat)
  balances : List ((Account × Bytes) × Nat)
  issuance : Nat
  nativeBalances : List (Account × Nat)

/-- What a step leaves. A layer has the entries of its own steps. -/
inductive Entry
  | mk (answer : Answer) (inner? : Option (List Entry)) (view : View)
      (journal? : Option (List JournalEntry))

inductive Step
  | act (action : Action)
  /-- Opens `count` layers around the steps. -/
  | layer (count : Nat) (commit : Bool) (steps : List Step)

/-! ## Actions -/

namespace Session

/-- Default settings, empty keyring, empty storage. -/
def initial : Session where
  env := ⟨.default, .empty, ⟨false, false⟩⟩
  world := .empty

def view (s : Session) : View where
  events := Event.visible s.env.settings.bounds s.world.storage.events
  calls := s.world.calls
  supplies := s.world.storage.book.supplyListing
  balances := s.world.storage.book.balanceListing
  issuance := s.world.storage.currency.issuance
  nativeBalances := s.world.storage.currency.balanceListing

/-- Changes the environment and nothing else. -/
def reconfigure (f : Environment → Environment) (s : Session) : Answer × Session :=
  (.done, { s with env := f s.env })

/-- Runs a transaction on the world. -/
def transact {ε α : Type} (s : Session) (t : Transaction ε α) (answer : Except ε α → Answer) :
    Answer × Session :=
  let (result, world) := t s.world
  (answer result, { s with world })

/-- Dispatches a call. -/
def dispatch (depth : Nat) (origin : Origin) (c : MintCall) (s : Session)
    (answer : Except CallError Unit → Answer) : Answer × Session :=
  s.transact (c.dispatch s.env depth origin) answer

/-- Whether the caller is authorized, asked twice. -/
def authorization (env : Environment) (caller : Account) :
    StateM World (Bool × Except Denial Account) := do
  let allowed ← Authority.isAuthorized env caller
  let result ← (Authority.authorize env caller).run
  pure (allowed, result)

def perform (depth : Nat) (a : Action) (s : Session) : Answer × Session :=
  let env := s.env
  let settings := env.settings
  match a with
  | .configure changes => s.reconfigure (Setting.applyAll · changes)
  | .setKey name text => s.reconfigure fun e => { e with keyring := e.keyring.insert name text }
  | .setKeyAccount name a =>
    s.reconfigure fun e => { e with keyring := e.keyring.insert name (settings.addressOf a) }
  | .removeKey name => s.reconfigure fun e => { e with keyring := e.keyring.remove name }
  | .refuseMints v => s.reconfigure fun e => { e with switches.refuseMints := v }
  | .refuseTransfers v => s.reconfigure fun e => { e with switches.refuseTransfers := v }
  | .endow who denom amount =>
    (.done, { s with world.storage.book :=
      s.world.storage.book.endow who denom amount.toNat })
  | .resolve => s.transact (Authority.resolve env) .ofAccount
  | .authorize caller =>
    let ((allowed, result), world) := authorization env caller s.world
    (.authorization allowed result, { s with world })
  | .mint request => s.transact (Mintage.mint env depth request) .mint
  | .call origin recipient amount denom =>
    match MintCall.build settings recipient amount denom with
    | .error part => (.unbuilt part, s)
    | .ok c => s.dispatch depth origin c (.call c.encode)
  | .callRaw origin bytes =>
    match MintCall.decode? settings.bounds bytes with
    | none => (.undecodable, s)
    | some (c, rest) => s.dispatch depth origin c (.rawCall c rest.length)
  | .mintCoins target coins => s.transact (Ledger.mintCoins env depth target coins) .ofUnit
  | .sendCoins sender receiver coins =>
    s.transact (Ledger.sendCoins env depth sender receiver coins) .ofUnit
  | .mintNative target coins =>
    s.transact (Ledger.mintNative settings.currency depth target coins) .ofUnit
  | .sendNative sender receiver coins =>
    s.transact (Ledger.sendNative settings.currency depth sender receiver coins) .ofUnit
  | .balance who denom => (.amount (s.world.storage.book.balance who denom), s)
  | .supply denom => (.amount (s.world.storage.book.supply denom), s)
  | .address a => (.text (settings.addressOf a), s)
  | .holding => (.account settings.holding, s)
  | .boundFits => (.flag (Health.boundFits settings), s)
  | .tryState => s.transact (Health.tryState env) .ofUnit
  | .integrity =>
    match Health.integrity settings with
    | .ok () => (.done, s)
    | .error f => (.broken f, s)

/-! ## Layers -/

/-- Undoes what was done to the storage since `start`. -/
def rollBack (start s : Session) : Session :=
  let bound :=
    if s.env.settings.storesAddressBound then start.env.settings.bounds.address
    else s.env.settings.bounds.address
  { env := { s.env with settings.bounds.address := bound }
    world := { s.world with storage := start.world.storage } }

/-- Ends a scope of `count` layers begun at `start`. -/
def closeLayers (count : Nat) (commit : Bool) (start s : Session) : Except Fault Unit × Session :=
  if commit then (.ok (), s)
  else (.error .rolledBack, if count = 0 then s else rollBack start s)

end Session

namespace Entry

/-- The entry of a step that led from `start` to `s`. -/
def ofAnswer (answer : Answer) (start s : Session) : Entry :=
  .mk answer none s.view <|
    if s.env.settings.verbose then some (s.world.journal.drop start.world.journal.length) else none

/-- The entry of a layer; what the journal gained stands in the inner entries. -/
def ofLayer (result : Except Fault Unit) (inner : List Entry) (s : Session) : Entry :=
  .mk (.ofUnit result) (some inner) s.view <| if s.env.settings.verbose then some [] else none

end Entry

mutual

/-- Runs a step where `depth` layers are open. -/
def Step.run (depth : Nat) : Step → Session → Entry × Session
  | .act a, s =>
    let (answer, s') := s.perform depth a
    (.ofAnswer answer s s', s')
  | .layer count commit steps, s =>
    if maxLayers < depth + count then (.ofLayer (.error .layerLimit) [] s, s)
    else
      let (inner, s') := Step.runAll (depth + count) steps s
      let (result, s'') := Session.closeLayers count commit s s'
      (.ofLayer result inner s'', s'')

/-- Runs steps in order where `depth` layers are open. -/
def Step.runAll (depth : Nat) : List Step → Session → List Entry × Session
  | [], s => ([], s)
  | step :: steps, s =>
    let (entry, s') := Step.run depth step s
    let (entries, s'') := Step.runAll depth steps s'
    (entry :: entries, s'')

end

namespace Session

/-- The entries of a whole session and its end. -/
def run (steps : List Step) (s : Session) : List Entry × Session := Step.runAll 0 steps s

end Session

end Mintage
