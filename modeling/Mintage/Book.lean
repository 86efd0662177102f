import Mintage.Account
import Mintage.Coin
import Mintage.Fault
import Mintage.Tally

/-!
# The book

A ledger of any number of denominations: a supply for each and a balance for
each account in each. Only the supply is checked against the range of amounts,
and only a debit against the balance.
-/

namespace Mintage

structure Book where
  supplies : Tally Bytes
  balances : Tally (Account × Bytes)

namespace Book

def empty : Book := ⟨.empty, .empty⟩

def supply (b : Book) (denom : Bytes) : Nat := b.supplies.get denom

def balance (b : Book) (who : Account) (denom : Bytes) : Nat := b.balances.get (who, denom)

/-- Adds to a balance and to the supply alike. -/
def endow (b : Book) (who : Account) (denom : Bytes) (n : Nat) : Book :=
  ⟨b.supplies.add denom n, b.balances.add (who, denom) n⟩

/-- Creates a coin and credits it to `who`. -/
def issue (b : Book) (who : Account) (c : Coin) : Except Fault Book :=
  if b.supply c.denom + c.amount.toNat < Amount.limit then .ok (b.endow who c.denom c.amount.toNat)
  else .error .overflow

/-- Debits the sender, then credits the receiver. -/
def move (b : Book) (sender receiver : Account) (c : Coin) : Except Fault Book :=
  let held := b.balance sender c.denom
  if held < c.amount.toNat then .error .fundsUnavailable
  else
    let debited := b.balances.set (sender, c.denom) (held - c.amount.toNat)
    .ok ⟨b.supplies, debited.add (receiver, c.denom) c.amount.toNat⟩

/-- Nonzero supplies by denomination. -/
def supplyListing (b : Book) : List (Bytes × Nat) := b.supplies.listing fun d => [d]

/-- Nonzero balances by account, then denomination. -/
def balanceListing (b : Book) : List ((Account × Bytes) × Nat) :=
  b.balances.listing fun k => [k.1.bytes, k.2]

end Book

end Mintage
