import Mintage.Account
import Mintage.Coin
import Mintage.Fault
import Mintage.Tally

/-!
# The native currency

A ledger of one denomination in 64-bit amounts. An account holds nothing or at
least the minimum: a credit that leaves less is refused, and what a debit
leaves below it is removed from the account and from the issuance.
-/

namespace Mintage

/-- What is fixed about the currency. -/
structure CurrencyTerms where
  denom : Bytes
  minimum : Nat
  deriving DecidableEq

structure Currency where
  issuance : Nat
  balances : Tally Account

namespace Currency

def empty : Currency := ⟨0, .empty⟩

def balance (c : Currency) (who : Account) : Nat := c.balances.get who

/-- 2 ^ 64; amounts of the currency are below it. -/
def limit : Nat := 0x10000000000000000

/-- The amount of a coin in the currency of the given terms. -/
def amountOf (terms : CurrencyTerms) (coin : Coin) : Except Fault Nat :=
  if coin.denom ≠ terms.denom then .error .unknownAsset
  else if limit ≤ coin.amount.toNat then .error .overflow
  else .ok coin.amount.toNat

/-- Creates `n` and credits it to `who`. -/
def issue (c : Currency) (terms : CurrencyTerms) (who : Account) (n : Nat) :
    Except Fault Currency :=
  let balance := c.balance who + n
  if limit ≤ c.issuance + n then .error .overflow
  else if balance < terms.minimum then .error .belowMinimum
  else .ok ⟨c.issuance + n, c.balances.set who balance⟩

/-- Moves `n` from one account to another; a move to oneself is checked and
changes nothing. -/
def move (c : Currency) (terms : CurrencyTerms) (sender receiver : Account) (n : Nat) :
    Except Fault Currency :=
  let held := c.balance sender
  let credited := c.balance receiver + n
  if c.issuance < n then .error .underflow
  else if held < n then .error .fundsUnavailable
  else if limit ≤ credited then .error .overflow
  else if credited < terms.minimum then .error .belowMinimum
  else if sender = receiver then .ok c
  else
    let left := held - n
    let dust := if left < terms.minimum then left else 0
    .ok ⟨c.issuance - dust, (c.balances.set sender (left - dust)).set receiver credited⟩

def issueCoin (c : Currency) (terms : CurrencyTerms) (who : Account) (coin : Coin) :
    Except Fault Currency := do
  let n ← amountOf terms coin
  c.issue terms who n

def moveCoin (c : Currency) (terms : CurrencyTerms) (sender receiver : Account) (coin : Coin) :
    Except Fault Currency := do
  let n ← amountOf terms coin
  c.move terms sender receiver n

/-- Nonzero balances by account. -/
def balanceListing (c : Currency) : List (Account × Nat) := c.balances.listing fun a => [a.bytes]

end Currency

end Mintage
