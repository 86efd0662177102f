import Mintage.Proofs.CurrencySum

/-!
# A mint on the native currency

The coins pass through the holding account as on the book.  What the debit leaves there is
what was there before, and that is nothing or at least the minimum: no dust is removed on
the way (`Sound.credited`), and a delivery that succeeds credits the recipient alone
(`deliver_on_native_ok`).  A coin of nothing passes in any denomination.
-/

namespace Mintage

namespace Currency

/-- `c'` is `c` with `n` created for one account. -/
structure Credited (c c' : Currency) (who : Account) (n : Nat) : Prop where
  issuance_eq : c'.issuance = c.issuance + n
  balance_eq : ∀ a, c'.balance a = if a = who then c.balance a + n else c.balance a

variable {terms : CurrencyTerms} {c c₁ c₂ : Currency}

/-! ## Through the holding account -/

theorem credited_zero (c : Currency) (who : Account) : c.Credited c who 0 where
  issuance_eq := rfl
  balance_eq a := by
    split <;> rfl

theorem Sound.dust_eq_zero (h : c.Sound terms) (a : Account) : dust terms (c.balance a) = 0 := by
  have hfloor := h.balance_floor a
  unfold dust
  split <;> omega

/-- The holding account is left with what it held, also where it is the recipient. -/
theorem Sound.credited (h : c.Sound terms) {holding who : Account} {n : Nat}
    (hi : c.issue terms holding n = .ok c₁) (hm : c₁.move terms holding who n = .ok c₂) :
    c.Credited c₂ who n := by
  obtain ⟨-, -, rfl⟩ := issue_eq_ok_iff.mp hi
  obtain ⟨-, -, ⟨rfl, rfl⟩ | ⟨hne, rfl⟩⟩ := move_eq_ok hm
  · exact ⟨rfl, balance_endow c holding n⟩
  · have hleft : (c.endow holding n).balance holding - n = c.balance holding := by
      rw [balance_endow, if_pos rfl]
      omega
    have hdust := h.dust_eq_zero holding
    constructor
    · show c.issuance + n - dust terms ((c.endow holding n).balance holding - n) = _
      rw [hleft, hdust]
      rfl
    · intro a
      rw [balance_shift, hleft, hdust, balance_endow, balance_endow, if_neg (Ne.symm hne)]
      by_cases hw : a = who
      · rw [if_pos hw, if_pos hw, hw]
      · rw [if_neg hw, if_neg hw]
        by_cases ha : a = holding
        · rw [if_pos ha, ha]
          rfl
        · rw [if_neg ha, if_neg ha]

theorem issueAll_singleton (c : Currency) (terms : CurrencyTerms) (who : Account) (coin : Coin) :
    c.issueAll terms who [coin] =
      if coin.amount.toNat = 0 then .ok c else c.issueCoin terms who coin := by
  unfold issueAll issueEach Coin.isZero Amount.isZero
  by_cases h0 : coin.amount.toNat = 0
  · simp [h0, pure, Except.pure]
  · simp [h0]

theorem moveAll_singleton (c : Currency) (terms : CurrencyTerms) (sender receiver : Account)
    (coin : Coin) :
    c.moveAll terms sender receiver [coin] =
      if coin.amount.toNat = 0 then .ok c else c.moveCoin terms sender receiver coin := by
  unfold moveAll moveEach Coin.isZero Amount.isZero
  by_cases h0 : coin.amount.toNat = 0
  · simp [h0, pure, Except.pure]
  · simp [h0]

end Currency

/-! ## Deliveries on the native currency -/

namespace Mint

/-- A delivery on the currency that succeeds makes no call to the book and credits the
recipient alone. -/
theorem deliver_on_native_ok {env : Environment} (hn : env.settings.ledger = .native)
    {depth : Nat} {who : Account} {c : Coin} {st st' : Storage} {calls : List LedgerCall}
    (hsound : st.currency.Sound env.settings.currency)
    (h : deliver env depth who c st = (calls, .ok st')) :
    calls = [] ∧ (c.amount.toNat = 0 ∨ c.denom = env.settings.currency.denom) ∧
      ∃ cur, st' = { st with currency := cur } ∧
        st.currency.Credited cur who c.amount.toNat := by
  obtain ⟨hcalls, st₁, hm, hs⟩ := deliver_eq_ok h
  unfold Ledger.mintStep at hm
  unfold Ledger.sendStep at hs
  unfold Ledger.mintCalls Ledger.sendCalls at hcalls
  rw [hn] at hm hs hcalls
  obtain ⟨-, c₁, hi, rfl⟩ := Ledger.mintNativeStep_eq_ok_iff.mp hm
  obtain ⟨-, c₂, hv, rfl⟩ := Ledger.sendNativeStep_eq_ok_iff.mp hs
  rw [Currency.issueAll_singleton] at hi
  rw [Currency.moveAll_singleton] at hv
  by_cases h0 : c.amount.toNat = 0
  · rw [if_pos h0] at hi hv
    cases hi
    cases hv
    rw [h0]
    exact ⟨hcalls, Or.inl rfl, _, rfl, Currency.credited_zero _ _⟩
  · rw [if_neg h0] at hi hv
    obtain ⟨hd, -, hissue⟩ := Currency.issueCoin_eq_ok_iff.mp hi
    obtain ⟨-, -, hmove⟩ := Currency.moveCoin_eq_ok_iff.mp hv
    exact ⟨hcalls, Or.inr hd, _, rfl, hsound.credited hissue hmove⟩

end Mint

end Mintage
