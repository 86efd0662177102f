import Mintage.Address
import Mintage.Currency
import Mintage.Record

/-!
# The environment of a mint

Settings, the keyring and the ledger's switches: what a mint reads and never
changes. None of it is storage, so a rollback leaves it alone.
-/

namespace Mintage

/-! ## Settings -/

/-- Which ledger issues the coins. -/
inductive LedgerKind
  | book
  | native
  deriving DecidableEq

/-- Who may mint. -/
inductive Policy
  /-- This account. -/
  | fixed (account : Account)
  /-- The account whose address text the keyring holds under a name. -/
  | named (name : String)
  deriving DecidableEq

structure Settings where
  network : Network
  /-- When present, the authority; otherwise it is looked up in the keyring. -/
  fixedAuthority : Option Account
  /-- The name that is looked up. -/
  authorityName : String
  moduleId : ModuleId
  bounds : Bounds
  ledger : LedgerKind
  currency : CurrencyTerms
  /-- The address bound is itself kept in storage, so that a rollback restores it. -/
  storesAddressBound : Bool
  /-- Entries of a session carry what the journal gained. -/
  verbose : Bool
  deriving DecidableEq

namespace Settings

/-- Network 42, the authority `bob`, the native currency `fei`, the book as ledger. -/
def default : Settings where
  network := 42
  fixedAuthority := none
  authorityName := "bob"
  moduleId := ⟨[0x70, 0x79, 0x2f, 0x66, 0x65, 0x69, 0x63, 0x6f], rfl⟩
  bounds := ⟨64, 128⟩
  ledger := .book
  currency := ⟨[0x66, 0x65, 0x69], 1⟩
  storesAddressBound := false
  verbose := false

def policy (s : Settings) : Policy :=
  match s.fixedAuthority with
  | some a => .fixed a
  | none => .named s.authorityName

/-- The account that coins pass through. -/
def holding (s : Settings) : Account := .holding s.moduleId

/-- The text of an account on the network in use. -/
def addressOf (s : Settings) (a : Account) : Bytes := Address.encode s.network a

/-- The account that a text names on the network in use. -/
def account? (s : Settings) (text : Bytes) : Option Account := Address.decode? s.network text

/-- A text fits the bound on addresses. -/
def fitsAddress (s : Settings) (text : Bytes) : Bool := text.length ≤ s.bounds.address

/-- A name fits the bound on denominations. -/
def fitsDenom (s : Settings) (denom : Bytes) : Bool := denom.length ≤ s.bounds.denom

end Settings

/-! ## Keyring -/

/-- Address texts by name; it answers only while it is online. -/
structure Keyring where
  online : Bool
  keys : List (Bytes × Bytes)
  deriving DecidableEq

namespace Keyring

def empty : Keyring := ⟨true, []⟩

def remove (k : Keyring) (name : Bytes) : Keyring :=
  { k with keys := k.keys.filter fun e => e.1 ≠ name }

def insert (k : Keyring) (name text : Bytes) : Keyring :=
  { k with keys := (name, text) :: (k.remove name).keys }

def find (k : Keyring) (name : Bytes) : Except Fault Bytes :=
  if k.online then
    match k.keys.lookup name with
    | some text => .ok text
    | none => .error .nameUnknown
  else .error .keyringUnavailable

end Keyring

/-! ## Switches -/

/-- Orders to the book to refuse its two operations. -/
structure Switches where
  refuseMints : Bool
  refuseTransfers : Bool
  deriving DecidableEq

structure Environment where
  settings : Settings
  keyring : Keyring
  switches : Switches
  deriving DecidableEq

end Mintage
