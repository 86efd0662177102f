import Mintage.Proofs.Runs

/-!
# The balances of the native currency add up to its issuance

A credit is checked before the debit that pays for it, and what a debit leaves below the
minimum is removed from the account and from the issuance alike.  Three facts are kept
(`Sound`): the balances add up to the issuance, the issuance is within range, and an
account holds nothing or at least the minimum.

    c.Sound terms → c.issue terms who n = .ok c' → c'.Sound terms          (Sound.issue)
    c.Sound terms → c.move terms sender receiver n = .ok c' → c'.Sound terms  (Sound.move)
    Reachable ok s → s.world.storage.currency.Sound …      (currency_sound_of_reachable)
-/

namespace Mintage

namespace Currency

/-- The balances add up to the issuance, which is in range, and none is below the minimum
unless it is zero. -/
structure Sound (terms : CurrencyTerms) (c : Currency) : Prop where
  total_eq : c.balances.total (fun _ => true) = c.issuance
  issuance_lt : c.issuance < limit
  balance_floor : ∀ a, c.balance a = 0 ∨ terms.minimum ≤ c.balance a

/-- The part of what is left to an account that is removed. -/
def dust (terms : CurrencyTerms) (left : Nat) : Nat :=
  if left < terms.minimum then left else 0

/-- Creates `n` and credits it. -/
def endow (c : Currency) (who : Account) (n : Nat) : Currency :=
  ⟨c.issuance + n, c.balances.set who (c.balance who + n)⟩

/-- A debit, what it removes, and a credit of the same amount to another account. -/
def shift (c : Currency) (terms : CurrencyTerms) (sender receiver : Account) (n : Nat) :
    Currency :=
  let left := c.balance sender - n
  ⟨c.issuance - dust terms left,
    (c.balances.set sender (left - dust terms left)).set receiver (c.balance receiver + n)⟩

variable {terms : CurrencyTerms} {c c' : Currency}

/-! ## Operations -/

theorem dust_le (terms : CurrencyTerms) (left : Nat) : dust terms left ≤ left := by
  unfold dust
  split <;> omega

theorem balance_endow (c : Currency) (who : Account) (n : Nat) (a : Account) :
    (c.endow who n).balance a = if a = who then c.balance a + n else c.balance a := by
  show (c.balances.set who (c.balance who + n)).get a = _
  rw [Tally.get_set]
  by_cases ha : a = who
  · rw [if_pos ha, if_pos ha, ha]
  · rw [if_neg ha, if_neg ha]
    rfl

theorem balance_shift (c : Currency) (terms : CurrencyTerms) (sender receiver : Account)
    (n : Nat) (a : Account) :
    (c.shift terms sender receiver n).balance a =
      if a = receiver then c.balance receiver + n
      else if a = sender then c.balance sender - n - dust terms (c.balance sender - n)
      else c.balance a := by
  show ((c.balances.set sender _).set receiver _).get a = _
  rw [Tally.get_set, Tally.get_set]
  rfl

theorem amountOf_eq_ok_iff {coin : Coin} {n : Nat} :
    amountOf terms coin = .ok n ↔
      coin.denom = terms.denom ∧ coin.amount.toNat < limit ∧ n = coin.amount.toNat := by
  unfold amountOf
  by_cases hd : coin.denom = terms.denom
  · by_cases hl : limit ≤ coin.amount.toNat
    · simp [hd, hl, Nat.not_lt_of_le hl]
    · simp [hd, hl, Nat.lt_of_not_le hl, eq_comm]
  · simp [hd]

theorem issue_eq_ok_iff {who : Account} {n : Nat} :
    c.issue terms who n = .ok c' ↔
      c.issuance + n < limit ∧ terms.minimum ≤ c.balance who + n ∧ c' = c.endow who n := by
  unfold issue
  dsimp only
  by_cases hl : limit ≤ c.issuance + n
  · simp [hl, Nat.not_lt_of_le hl]
  · by_cases hm : c.balance who + n < terms.minimum
    · simp [hl, hm, Nat.not_le_of_lt hm]
    · simp [hl, hm, Nat.lt_of_not_le hl, Nat.le_of_not_lt hm, endow, eq_comm]

/-- A move is paid for and welcome; to oneself it changes nothing. -/
theorem move_eq_ok {sender receiver : Account} {n : Nat}
    (h : c.move terms sender receiver n = .ok c') :
    n ≤ c.balance sender ∧ terms.minimum ≤ c.balance receiver + n ∧
      ((sender = receiver ∧ c' = c) ∨
        sender ≠ receiver ∧ c' = c.shift terms sender receiver n) := by
  unfold move at h
  dsimp only at h
  split at h
  · cases h
  · split at h
    · cases h
    · next hheld =>
      split at h
      · cases h
      · split at h
        · cases h
        · next hfloor =>
          refine ⟨by omega, by omega, ?_⟩
          split at h
          · next heq =>
            cases h
            exact Or.inl ⟨heq, rfl⟩
          · next hne =>
            cases h
            exact Or.inr ⟨hne, rfl⟩

/-- A coin is issued unless its denomination is foreign, the issuance or the amount out of range
or the balance too low; of two reasons the first is given. -/
theorem issueCoin_eq (c : Currency) (terms : CurrencyTerms) (who : Account) (coin : Coin) :
    c.issueCoin terms who coin =
      if coin.denom ≠ terms.denom then .error .unknownAsset
      else if limit ≤ coin.amount.toNat ∨ limit ≤ c.issuance + coin.amount.toNat then
        .error .overflow
      else if c.balance who + coin.amount.toNat < terms.minimum then .error .belowMinimum
      else .ok (c.endow who coin.amount.toNat) := by
  unfold issueCoin amountOf
  by_cases hd : coin.denom ≠ terms.denom
  · rw [if_pos hd, if_pos hd]
    rfl
  · rw [if_neg hd, if_neg hd]
    by_cases hn : limit ≤ coin.amount.toNat
    · rw [if_pos hn, if_pos (Or.inl hn)]
      rfl
    · rw [if_neg hn]
      show c.issue terms who coin.amount.toNat = _
      unfold issue
      by_cases hi : limit ≤ c.issuance + coin.amount.toNat
      · rw [if_pos hi, if_pos (Or.inr hi)]
      · rw [if_neg hi, if_neg (not_or.mpr ⟨hn, hi⟩)]
        rfl

theorem issueCoin_eq_ok_iff {who : Account} {coin : Coin} :
    c.issueCoin terms who coin = .ok c' ↔
      coin.denom = terms.denom ∧ coin.amount.toNat < limit ∧
        c.issue terms who coin.amount.toNat = .ok c' := by
  unfold issueCoin
  cases ha : amountOf terms coin with
  | error f =>
    constructor
    · intro h
      cases h
    · rintro ⟨hd, hl, -⟩
      rw [amountOf_eq_ok_iff.mpr ⟨hd, hl, rfl⟩] at ha
      cases ha
  | ok n =>
    obtain ⟨hd, hl, rfl⟩ := amountOf_eq_ok_iff.mp ha
    exact ⟨fun h => ⟨hd, hl, h⟩, fun h => h.2.2⟩

theorem moveCoin_eq_ok_iff {sender receiver : Account} {coin : Coin} :
    c.moveCoin terms sender receiver coin = .ok c' ↔
      coin.denom = terms.denom ∧ coin.amount.toNat < limit ∧
        c.move terms sender receiver coin.amount.toNat = .ok c' := by
  unfold moveCoin
  cases ha : amountOf terms coin with
  | error f =>
    constructor
    · intro h
      cases h
    · rintro ⟨hd, hl, -⟩
      rw [amountOf_eq_ok_iff.mpr ⟨hd, hl, rfl⟩] at ha
      cases ha
  | ok n =>
    obtain ⟨hd, hl, rfl⟩ := amountOf_eq_ok_iff.mp ha
    exact ⟨fun h => ⟨hd, hl, h⟩, fun h => h.2.2⟩

/-! ## The sum -/

theorem sound_empty (terms : CurrencyTerms) : empty.Sound terms where
  total_eq := rfl
  issuance_lt := by decide
  balance_floor _ := Or.inl rfl

theorem Sound.issue (h : c.Sound terms) {who : Account} {n : Nat}
    (hi : c.issue terms who n = .ok c') : c'.Sound terms := by
  obtain ⟨hlt, hfloor, rfl⟩ := issue_eq_ok_iff.mp hi
  refine ⟨?_, hlt, ?_⟩
  · have hset := Tally.total_set (t := c.balances) (k := who) (p := fun _ => true) rfl
      (c.balance who + n)
    have hheld : c.balances.get who = c.balance who := rfl
    have htotal := h.total_eq
    show (c.balances.set who (c.balance who + n)).total _ = c.issuance + n
    omega
  · intro a
    rw [balance_endow]
    by_cases ha : a = who
    · subst ha
      rw [if_pos rfl]
      exact Or.inr hfloor
    · rw [if_neg ha]
      exact h.balance_floor a

/-- What is removed from the account is removed from the issuance. -/
theorem total_shift (terms : CurrencyTerms) {sender receiver : Account}
    (hne : sender ≠ receiver) {n : Nat} (hle : n ≤ c.balance sender) :
    (c.shift terms sender receiver n).balances.total (fun _ => true) +
        dust terms (c.balance sender - n) =
      c.balances.total fun _ => true := by
  have hdust := dust_le terms (c.balance sender - n)
  have hdebit := Tally.total_set (t := c.balances) (k := sender) (p := fun _ => true) rfl
    (c.balance sender - n - dust terms (c.balance sender - n))
  have hcredit := Tally.total_set
    (t := c.balances.set sender (c.balance sender - n - dust terms (c.balance sender - n)))
    (k := receiver) (p := fun _ => true) rfl (c.balance receiver + n)
  rw [Tally.get_set_of_ne _ (Ne.symm hne)] at hcredit
  have hheld : c.balances.get sender = c.balance sender := rfl
  have hheld' : c.balances.get receiver = c.balance receiver := rfl
  show ((c.balances.set sender _).set receiver _).total _ + _ = _
  omega

theorem Sound.shift (h : c.Sound terms) {sender receiver : Account} (hne : sender ≠ receiver)
    {n : Nat} (hle : n ≤ c.balance sender) (hfloor : terms.minimum ≤ c.balance receiver + n) :
    (c.shift terms sender receiver n).Sound terms := by
  have htotal := total_shift terms hne hle
  rw [h.total_eq] at htotal
  refine ⟨?_, ?_, ?_⟩
  · show _ = c.issuance - dust terms (c.balance sender - n)
    omega
  · exact Nat.lt_of_le_of_lt (Nat.sub_le _ _) h.issuance_lt
  · intro a
    rw [balance_shift]
    by_cases hr : a = receiver
    · rw [if_pos hr]
      exact Or.inr hfloor
    · rw [if_neg hr]
      by_cases ha : a = sender
      · rw [if_pos ha]
        unfold dust
        split <;> omega
      · rw [if_neg ha]
        exact h.balance_floor a

theorem Sound.move (h : c.Sound terms) {sender receiver : Account} {n : Nat}
    (hm : c.move terms sender receiver n = .ok c') : c'.Sound terms := by
  obtain ⟨hle, hfloor, ⟨-, rfl⟩ | ⟨hne, rfl⟩⟩ := move_eq_ok hm
  · exact h
  · exact h.shift hne hle hfloor

/-- No account holds more than was issued. -/
theorem Sound.balance_le_issuance (h : c.Sound terms) (a : Account) :
    c.balance a ≤ c.issuance := by
  rw [← h.total_eq]
  exact Tally.get_le_total rfl

/-- Two accounts together hold no more than was issued. -/
theorem Sound.balance_add_le (h : c.Sound terms) {a b : Account} (hne : a ≠ b) :
    c.balance a + c.balance b ≤ c.issuance := by
  have hcleared := Tally.total_set (t := c.balances) (k := a) (p := fun _ => true) rfl 0
  have hshare := Tally.get_le_total (t := c.balances.set a 0) (k := b) (p := fun _ => true) rfl
  rw [Tally.get_set_of_ne _ (Ne.symm hne)] at hshare
  have htotal := h.total_eq
  show c.balances.get a + c.balances.get b ≤ c.issuance
  omega

/-- What one account can pay, any other can hold besides its own. -/
theorem Sound.credit_lt (h : c.Sound terms) {sender receiver : Account}
    (hne : sender ≠ receiver) {n : Nat} (hle : n ≤ c.balance sender) :
    c.balance receiver + n < limit := by
  have hboth := h.balance_add_le hne
  have hlt := h.issuance_lt
  omega

/-- Between two accounts, a move that is paid for can only fail by the receiver's minimum. -/
theorem Sound.move_of_ne (h : c.Sound terms) {sender receiver : Account}
    (hne : sender ≠ receiver) {n : Nat} (hle : n ≤ c.balance sender) :
    c.move terms sender receiver n =
      if c.balance receiver + n < terms.minimum then .error .belowMinimum
      else .ok (c.shift terms sender receiver n) := by
  have hboth := h.balance_add_le hne
  have hcredit := h.credit_lt hne hle
  unfold Currency.move
  dsimp only
  rw [if_neg (by omega), if_neg (by omega), if_neg (Nat.not_le_of_lt hcredit), if_neg hne]
  rfl

/-- A move to oneself that is paid for counts the amount twice. -/
theorem Sound.move_self (h : c.Sound terms) {who : Account} {n : Nat}
    (hle : n ≤ c.balance who) :
    c.move terms who who n =
      if limit ≤ c.balance who + n then .error .overflow
      else if c.balance who + n < terms.minimum then .error .belowMinimum
      else .ok c := by
  have hissued := h.balance_le_issuance who
  unfold Currency.move
  dsimp only
  rw [if_neg (by omega), if_neg (by omega), if_pos rfl]

/-! ## Lists of coins -/

theorem Sound.issueAll (h : c.Sound terms) {who : Account} {coins : List Coin}
    (hi : c.issueAll terms who coins = .ok c') : c'.Sound terms := by
  refine foldlM_keeps ?_ h hi
  intro c₁ coin c₂ h₁ hc
  obtain ⟨-, -, hissue⟩ := issueCoin_eq_ok_iff.mp hc
  exact h₁.issue hissue

theorem Sound.moveAll (h : c.Sound terms) {sender receiver : Account} {coins : List Coin}
    (hm : c.moveAll terms sender receiver coins = .ok c') : c'.Sound terms := by
  refine foldlM_keeps ?_ h hm
  intro c₁ coin c₂ h₁ hc
  obtain ⟨-, -, hmove⟩ := moveCoin_eq_ok_iff.mp hc
  exact h₁.move hmove

end Currency

/-! ## Runs -/

namespace Ledger

variable {env : Environment} {depth : Nat} {st st' : Storage}

theorem currency_sound_mintNativeStep {terms : CurrencyTerms} {target : Account}
    {coins : List Coin} (h : st.currency.Sound terms)
    (hm : mintNativeStep terms depth target coins st = .ok st') : st'.currency.Sound terms := by
  obtain ⟨-, c, hc, rfl⟩ := mintNativeStep_eq_ok_iff.mp hm
  exact h.issueAll hc

theorem currency_sound_sendNativeStep {terms : CurrencyTerms} {sender receiver : Account}
    {coins : List Coin} (h : st.currency.Sound terms)
    (hs : sendNativeStep terms depth sender receiver coins st = .ok st') :
    st'.currency.Sound terms := by
  obtain ⟨-, c, hc, rfl⟩ := sendNativeStep_eq_ok_iff.mp hs
  exact h.moveAll hc

theorem currency_sound_mintStep {target : Account} {coins : List Coin}
    (h : st.currency.Sound env.settings.currency)
    (hm : mintStep env depth target coins st = .ok st') :
    st'.currency.Sound env.settings.currency := by
  rcases mintStep_eq_ok hm with ⟨-, b, -, rfl⟩ | ⟨-, c, hc, rfl⟩
  · exact h
  · exact h.issueAll hc

theorem currency_sound_sendStep {sender receiver : Account} {coins : List Coin}
    (h : st.currency.Sound env.settings.currency)
    (hs : sendStep env depth sender receiver coins st = .ok st') :
    st'.currency.Sound env.settings.currency := by
  rcases sendStep_eq_ok hs with ⟨-, b, -, rfl⟩ | ⟨-, c, hc, rfl⟩
  · exact h
  · exact h.moveAll hc

end Ledger

namespace Session

/-- One action keeps the sum, whatever it is. -/
theorem Effect.currency_sound {s : Session} {a : Action} {st : Storage} (he : s.Effect a st)
    (h : s.world.storage.currency.Sound s.env.settings.currency) :
    st.currency.Sound s.env.settings.currency := by
  cases he with
  | keep => exact h
  | endow who denom amount => exact h
  | mint _ _ hd =>
    obtain ⟨-, st₁, hm, hs⟩ := Mint.deliver_eq_ok hd
    have hsent := Ledger.currency_sound_sendStep (Ledger.currency_sound_mintStep h hm) hs
    exact hsent
  | mintCoins hm => exact Ledger.currency_sound_mintStep h hm
  | sendCoins hs => exact Ledger.currency_sound_sendStep h hs
  | mintNative hm => exact Ledger.currency_sound_mintNativeStep h hm
  | sendNative hs => exact Ledger.currency_sound_sendNativeStep h hs

theorem kept_currency_sound (ok : Session → Action → Prop) (terms : CurrencyTerms) :
    Kept ok fun s =>
      s.env.settings.currency = terms ∧ s.world.storage.currency.Sound terms where
  perform depth a s _ h := by
    obtain ⟨rfl, hsound⟩ := h
    refine ⟨?_, (perform_effect depth a s).currency_sound hsound⟩
    rw [perform_env]
    exact (a.environment_ledger s.env).2
  rollBack _ _ h₀ h := ⟨h.1, h₀.2⟩

/-- In every state of every run the balances of the currency add up to its issuance. -/
theorem currency_sound_of_reachable {ok : Session → Action → Prop} {s : Session}
    (hs : Reachable ok s) : s.world.storage.currency.Sound s.env.settings.currency := by
  obtain ⟨env, hterms, hsound⟩ := Kept.reachable
    (fun env => kept_currency_sound ok env.settings.currency)
    (fun env => ⟨rfl, Currency.sound_empty _⟩) hs
  rw [hterms]
  exact hsound

end Session

end Mintage
