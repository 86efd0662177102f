import Mathlib.Algebra.BigOperators.Finprod
import Mathlib.Data.Set.Finite.List
import Mintage.Proofs.BookMint

/-!
# Conservation

All accounts together hold of each denomination what its supply says, in every state of a run
whose endowments stay in range.  That is why two sums need no check: the credit of an issue
and the credit of a move.  A book that checks them besides answers the same, coin by coin,
also where it stops at a later one:

    b.Sound → ∑ᶠ who, b.balance who d = b.supply d                 (Sound.finsum_balance)
    b.Sound → b.CreditsFit                                            (Sound.creditsFit)
    Reachable EndowsInRange s → both in `s`, and after any coins issued there    (conserves)
-/

namespace Mintage

/-! ## Definitions -/

namespace Book

/-- Why a book that checks its credits refuses: as any book does, or for a sum that is no
amount. -/
inductive Refusal
  | fault (f : Fault)
  | creditOutOfRange (who : Account) (denom : Bytes) (sum : Nat)

/-- Adds to a balance unless the sum leaves the range of amounts. -/
def creditChecked (balances : Tally (Account × Bytes)) (who : Account) (denom : Bytes)
    (n : Nat) : Except Refusal (Tally (Account × Bytes)) :=
  let sum := balances.get (who, denom) + n
  if sum < Amount.limit then .ok (balances.set (who, denom) sum)
  else .error (.creditOutOfRange who denom sum)

/-- Creates a coin, with its credit checked. -/
def issueChecked (b : Book) (who : Account) (c : Coin) : Except Refusal Book :=
  if b.supply c.denom + c.amount.toNat < Amount.limit then do
    let balances ← creditChecked b.balances who c.denom c.amount.toNat
    pure ⟨b.supplies.add c.denom c.amount.toNat, balances⟩
  else .error (.fault .overflow)

/-- Moves a coin, with its credit checked. -/
def moveChecked (b : Book) (sender receiver : Account) (c : Coin) : Except Refusal Book :=
  let held := b.balance sender c.denom
  if held < c.amount.toNat then .error (.fault .fundsUnavailable)
  else do
    let debited := b.balances.set (sender, c.denom) (held - c.amount.toNat)
    let balances ← creditChecked debited receiver c.denom c.amount.toNat
    pure ⟨b.supplies, balances⟩

/-- Creates coins one after another, with every credit checked. -/
def issueAllChecked (b : Book) (who : Account) (coins : List Coin) : Except Refusal Book :=
  coins.foldlM (fun b c => b.issueChecked who c) b

/-- Moves coins one after another, with every credit checked. -/
def moveAllChecked (b : Book) (sender receiver : Account) (coins : List Coin) :
    Except Refusal Book :=
  coins.foldlM (fun b c => b.moveChecked sender receiver c) b

/-- To check the credits of any coins would change no answer. -/
structure CreditsFit (b : Book) : Prop where
  issueAll_eq : ∀ who coins,
    b.issueAllChecked who coins = (b.issueAll who coins).mapError .fault
  moveAll_eq : ∀ sender receiver coins,
    b.moveAllChecked sender receiver coins = (b.moveAll sender receiver coins).mapError .fault

end Book

/-! ## The sum over all accounts -/

instance : Finite Account := by
  have hbyte : Finite UInt8 := Finite.of_injective UInt8.toFin fun a b h => UInt8.toFin_inj.mp h
  have hbytes : Finite {bs : Bytes | bs.length = 32} := (List.finite_length_eq UInt8 32).to_subtype
  exact Finite.of_injective (fun a => (⟨a.bytes, a.length_bytes⟩ : {bs : Bytes | bs.length = 32}))
    fun a b h => Account.ext (congrArg Subtype.val h)

namespace Tally

/-- The counters of an indexed family of keys add up to the total of these keys. -/
theorem finsum_get_comp {ι κ : Type} [Finite ι] [DecidableEq κ] (t : Tally κ) {f : ι → κ}
    (hf : f.Injective) {p : κ → Bool} (hp : ∀ k, p k = true ↔ ∃ i, f i = k) :
    ∑ᶠ i, t.get (f i) = t.total p := by
  obtain ⟨l, hnd⟩ := t
  induction l with
  | nil => exact finsum_zero
  | cons e l ih =>
    obtain ⟨hnew, hrest⟩ := List.nodup_cons.mp hnd
    have htotal := sumOf_cons e l p
    unfold total at ih ⊢
    rw [htotal, ← ih hrest]
    by_cases he : p e.1 = true
    · obtain ⟨i₀, hi₀⟩ := (hp e.1).mp he
      -- The first entry is the only one of its key.
      have hsplit : ∀ i, (⟨e :: l, hnd⟩ : Tally κ).get (f i) =
          (if f i = e.1 then e.2 else 0) + (⟨l, hrest⟩ : Tally κ).get (f i) := by
        intro i
        rw [get_cons hnd]
        by_cases hi : f i = e.1
        · rw [if_pos hi, if_pos hi, hi, get_of_notMem hnew, Nat.add_zero]
        · rw [if_neg hi, if_neg hi, Nat.zero_add]
      have hone : ∑ᶠ i, (if f i = e.1 then e.2 else 0) = e.2 := by
        rw [finsum_eq_single _ i₀ fun i hi => if_neg fun h => hi (hf (h.trans hi₀.symm)),
          if_pos hi₀]
      rw [finsum_congr hsplit, finsum_add_distrib (Set.toFinite _) (Set.toFinite _), hone,
        if_pos he]
    · have hskip : ∀ i, (⟨e :: l, hnd⟩ : Tally κ).get (f i) =
          (⟨l, hrest⟩ : Tally κ).get (f i) := by
        intro i
        rw [get_cons hnd, if_neg fun h => he ((hp e.1).mpr ⟨i, h⟩)]
      rw [finsum_congr hskip, if_neg he, Nat.zero_add]

/-- The counters of a denomination, over all accounts, add up to its total. -/
theorem finsum_get (t : Tally (Account × Bytes)) (d : Bytes) :
    ∑ᶠ who, t.get (who, d) = t.total fun k => k.2 = d := by
  refine t.finsum_get_comp (fun a b h => congrArg Prod.fst h) fun k => ?_
  obtain ⟨who, denom⟩ := k
  simp [eq_comm]

end Tally

namespace Book

/-- What all accounts hold of a denomination is its supply. -/
theorem Sound.finsum_balance {b : Book} (h : b.Sound) (d : Bytes) :
    ∑ᶠ who, b.balance who d = b.supply d := by
  rw [← h.total_eq d]
  exact b.balances.finsum_get d

/-! ## Checked credits -/

theorem creditChecked_of_lt {balances : Tally (Account × Bytes)} {who : Account} {denom : Bytes}
    {n : Nat} (h : balances.get (who, denom) + n < Amount.limit) :
    creditChecked balances who denom n = .ok (balances.add (who, denom) n) :=
  if_pos h

/-- An issue that passes the check of the supply is in range at the account too. -/
theorem Sound.issueChecked_eq {b : Book} (h : b.Sound) (who : Account) (c : Coin) :
    b.issueChecked who c = (b.issue who c).mapError .fault := by
  unfold issueChecked Book.issue
  by_cases hlt : b.supply c.denom + c.amount.toNat < Amount.limit
  · have hle : b.balances.get (who, c.denom) ≤ b.supply c.denom := h.balance_le_supply who c.denom
    rw [if_pos hlt, if_pos hlt, creditChecked_of_lt (by omega)]
    rfl
  · rw [if_neg hlt, if_neg hlt]
    rfl

/-- A credit gives back at most what the debit just took out of the sum, also where sender
and receiver are one. -/
theorem Sound.moveChecked_eq {b : Book} (h : b.Sound) (sender receiver : Account) (c : Coin) :
    b.moveChecked sender receiver c = (b.move sender receiver c).mapError .fault := by
  unfold moveChecked Book.move
  dsimp only
  by_cases hlt : b.balance sender c.denom < c.amount.toNat
  · rw [if_pos hlt, if_pos hlt]
    rfl
  · -- The receiver's share of the debited balances, and the amount, are parts of the supply.
    have hdebit := Tally.total_set (t := b.balances) (k := (sender, c.denom))
      (p := fun k => k.2 = c.denom) (by simp) (b.balance sender c.denom - c.amount.toNat)
    have hshare := Tally.get_le_total (k := (receiver, c.denom)) (p := fun k => k.2 = c.denom)
      (t := b.balances.set (sender, c.denom) (b.balance sender c.denom - c.amount.toNat))
      (by simp)
    have hheld : b.balances.get (sender, c.denom) = b.balance sender c.denom := rfl
    have htotal := h.total_eq c.denom
    have hsupply := h.supply_lt c.denom
    rw [if_neg hlt, if_neg hlt, creditChecked_of_lt (by omega)]
    rfl

/-- Where the balances add up, to check the credits would change no answer. -/
theorem Sound.creditsFit {b : Book} (h : b.Sound) : b.CreditsFit where
  issueAll_eq who coins :=
    foldlM_mapError (fun _ c h => h.issueChecked_eq who c) (fun _ _ _ h hi => h.issue hi) coins h
  moveAll_eq sender receiver coins :=
    foldlM_mapError (fun _ c h => h.moveChecked_eq sender receiver c) (fun _ _ _ h hm => h.move hm)
      coins h

end Book

/-! ## A sender that is the receiver -/

namespace Devnet

/-- Coins of what the holding account was endowed with, sent to itself: together they are more
than it has. -/
def toItself : Action :=
  .sendCoins settings.holding settings.holding
    [⟨request.denom, ⟨4, by decide⟩⟩, ⟨request.denom, .zero⟩, ⟨request.denom, ⟨3, by decide⟩⟩]

/-- The endowed network after that. -/
def churned : Session := (endowed.perform 0 toItself).2

theorem reachable_churned : Session.Reachable (fun s a => a.EndowsInRange s) churned := by
  refine ⟨initial.env, [.act endowment, .act toItself], 0, ?_, .later (.later ?_)⟩
  · rw [Step.AllMeet, Step.Meets, Step.AllMeet, Step.Meets, Step.AllMeet]
    refine ⟨?_, trivial, trivial⟩
    show Book.empty.supply request.denom + 5 < Amount.limit
    decide
  · rw [Step.run_act, Step.run_act]
    exact .here

end Devnet

namespace Session

/-! ## Top theorem -/

/-- **Conservation.**  In every state of a run whose endowments stay in range all accounts
together hold what the supply says, so none holds more; and neither there nor after any coins
were issued there does a credit leave the range of amounts. -/
theorem conserves {s : Session} (hs : Reachable (fun s a => a.EndowsInRange s) s) :
    (∀ d, ∑ᶠ who, s.world.storage.book.balance who d = s.world.storage.book.supply d) ∧
    (∀ who d, s.world.storage.book.balance who d ≤ s.world.storage.book.supply d) ∧
    (∀ d, s.world.storage.book.supply d < Amount.limit) ∧
    s.world.storage.book.CreditsFit ∧
    ∀ target coins b, s.world.storage.book.issueAll target coins = .ok b → b.CreditsFit := by
  have hsound := book_sound_of_reachable hs
  refine ⟨hsound.finsum_balance, hsound.balance_le_supply, hsound.supply_lt, hsound.creditsFit, ?_⟩
  intro target coins b hi
  exact (hsound.issueAll hi).creditsFit

/-- Coins sent to their own sender are still the only ones there. -/
theorem conserves_churned :
    ∑ᶠ who, Devnet.churned.world.storage.book.balance who Devnet.request.denom = 5 := by
  have hsupply : Devnet.churned.world.storage.book.supply Devnet.request.denom = 5 := by
    decide +kernel
  rw [(conserves Devnet.reachable_churned).1, hsupply]

end Session

end Mintage
