import Mintage.Proofs.Conservation
import Mintage.Proofs.NativeMint

/-!
# Conservation on the native currency

All accounts together hold what was issued, in every state of a run and between any two coins
of an operation (`Passes`).  A move between two accounts is a debit, what the debit leaves below
the minimum included, and a credit.  Where the balances add up, the credit answers after the
debit what the move answered before it, so nothing is taken that does not arrive:

    c.Sound terms → ∑ᶠ who, c.balance who = c.issuance               (Sound.finsum_balance)
    sender ≠ receiver → n ≤ c.balance sender →
      c.move terms sender receiver n = (c.debit terms sender n).credit terms receiver n
                                                                     (Sound.move_eq_credit)
    both in every currency that a run passes                             (native_conserves)
-/

namespace Mintage

namespace Currency

/-! ## Definitions -/

/-- Takes `n` from an account, and what it leaves there below the minimum. -/
def debit (c : Currency) (terms : CurrencyTerms) (who : Account) (n : Nat) : Currency :=
  let left := c.balance who - n
  ⟨c.issuance - dust terms left, c.balances.set who (left - dust terms left)⟩

/-- Adds `n` to an account unless the sum is out of range or below the minimum. -/
def credit (c : Currency) (terms : CurrencyTerms) (who : Account) (n : Nat) :
    Except Fault Currency :=
  let sum := c.balance who + n
  if limit ≤ sum then .error .overflow
  else if sum < terms.minimum then .error .belowMinimum
  else .ok { c with balances := c.balances.set who sum }

/-- What operations on `c` pass, the coins of each taken one after another. -/
inductive Passes (terms : CurrencyTerms) (c : Currency) : Currency → Prop
  | here : Passes terms c c
  | issued {c₁ c₂ : Currency} {who : Account} {coins : List Coin} :
      Passes terms c c₁ → c₁.issueAll terms who coins = .ok c₂ → Passes terms c c₂
  | moved {c₁ c₂ : Currency} {sender receiver : Account} {coins : List Coin} :
      Passes terms c c₁ → c₁.moveAll terms sender receiver coins = .ok c₂ → Passes terms c c₂

/-- What a move of `n` from one account to another has done: `c` is the currency before it and
`c'` the one after it. -/
structure Transferred (terms : CurrencyTerms) (c c' : Currency) (sender receiver : Account)
    (n : Nat) : Prop where
  credit_eq : (c.debit terms sender n).credit terms receiver n = .ok c'
  sender_eq :
    c'.balance sender + n + dust terms (c.balance sender - n) = c.balance sender
  receiver_eq : c'.balance receiver = c.balance receiver + n
  other_eq : ∀ a, a ≠ sender → a ≠ receiver → c'.balance a = c.balance a
  issuance_eq : c'.issuance + dust terms (c.balance sender - n) = c.issuance

/-- No move takes anything that does not arrive, dust apart. -/
structure Lossless (terms : CurrencyTerms) (c : Currency) : Prop where
  credit_lt : ∀ {sender receiver : Account} {n : Nat}, sender ≠ receiver →
    n ≤ c.balance sender → (c.debit terms sender n).balance receiver + n < limit
  move_eq : ∀ {sender receiver : Account} {n : Nat}, sender ≠ receiver →
    n ≤ c.balance sender →
    c.move terms sender receiver n = (c.debit terms sender n).credit terms receiver n
  transferred : ∀ {sender receiver : Account} {n : Nat} {c' : Currency}, sender ≠ receiver →
    c.move terms sender receiver n = .ok c' → c.Transferred terms c' sender receiver n
  move_self : ∀ {who : Account} {n : Nat} {c' : Currency},
    c.move terms who who n = .ok c' → c' = c

variable {terms : CurrencyTerms} {c c' : Currency} {sender receiver : Account} {n : Nat}

/-! ## The sum -/

/-- What all accounts hold was issued. -/
theorem Sound.finsum_balance (h : c.Sound terms) : ∑ᶠ who, c.balance who = c.issuance := by
  rw [← h.total_eq]
  exact c.balances.finsum_get_comp Function.injective_id fun k => by simp

/-- Operations keep the sum between their coins too. -/
theorem Sound.passes (h : c.Sound terms) (hc : c.Passes terms c') : c'.Sound terms := by
  induction hc with
  | here => exact h
  | issued _ hi ih => exact ih.issueAll hi
  | moved _ hm ih => exact ih.moveAll hm

/-! ## The two halves of a move -/

theorem balance_debit_of_ne (c : Currency) (terms : CurrencyTerms) (n : Nat)
    (hne : sender ≠ receiver) :
    (c.debit terms sender n).balance receiver = c.balance receiver :=
  Tally.get_set_of_ne _ (Ne.symm hne) _

/-- A debit does not touch what the credit looks at. -/
theorem credit_debit (c : Currency) (terms : CurrencyTerms) (n : Nat)
    (hne : sender ≠ receiver) :
    (c.debit terms sender n).credit terms receiver n =
      if limit ≤ c.balance receiver + n then .error .overflow
      else if c.balance receiver + n < terms.minimum then .error .belowMinimum
      else .ok (c.shift terms sender receiver n) := by
  unfold credit
  rw [balance_debit_of_ne c terms n hne]
  rfl

theorem Sound.move_eq_credit (h : c.Sound terms) (hne : sender ≠ receiver)
    (hle : n ≤ c.balance sender) :
    c.move terms sender receiver n = (c.debit terms sender n).credit terms receiver n := by
  have hlt := h.credit_lt hne hle
  rw [h.move_of_ne hne hle, credit_debit c terms n hne, if_neg (Nat.not_le_of_lt hlt)]

theorem Sound.transferred (h : c.Sound terms) (hne : sender ≠ receiver)
    (hm : c.move terms sender receiver n = .ok c') :
    c.Transferred terms c' sender receiver n := by
  obtain ⟨hle, -, ⟨heq, -⟩ | ⟨-, rfl⟩⟩ := move_eq_ok hm
  · exact absurd heq hne
  have hdust := dust_le terms (c.balance sender - n)
  have hissued := h.balance_le_issuance sender
  refine ⟨by rw [← h.move_eq_credit hne hle, hm], ?_, ?_, ?_, ?_⟩
  · rw [balance_shift, if_neg hne, if_pos rfl]
    omega
  · rw [balance_shift, if_pos rfl]
  · intro a hs hr
    rw [balance_shift, if_neg hr, if_neg hs]
  · show c.issuance - dust terms (c.balance sender - n) + _ = c.issuance
    omega

/-- Where the balances add up, moves lose nothing. -/
theorem Sound.lossless (h : c.Sound terms) : c.Lossless terms where
  credit_lt hne hle := by
    rw [balance_debit_of_ne c terms _ hne]
    exact h.credit_lt hne hle
  move_eq hne hle := h.move_eq_credit hne hle
  transferred hne hm := h.transferred hne hm
  move_self hm := by
    obtain ⟨-, -, ⟨-, heq⟩ | ⟨hne, -⟩⟩ := move_eq_ok hm
    · exact heq
    · exact absurd rfl hne

end Currency

namespace Session

/-! ## Top theorem -/

/-- **Conservation on the native currency.**  In every state of a run, and between the coins of
any operations there, all accounts together hold the issuance, which is in range, each holds
nothing or at least the minimum, and moves lose nothing. -/
theorem native_conserves {ok : Session → Action → Prop} {s : Session} (hs : Reachable ok s)
    {c : Currency} (hc : s.world.storage.currency.Passes s.env.settings.currency c) :
    ∑ᶠ who, c.balance who = c.issuance ∧
    c.issuance < Currency.limit ∧
    (∀ who, c.balance who = 0 ∨ s.env.settings.currency.minimum ≤ c.balance who) ∧
    c.Lossless s.env.settings.currency := by
  have hsound := (currency_sound_of_reachable hs).passes hc
  exact ⟨hsound.finsum_balance, hsound.issuance_lt, hsound.balance_floor, hsound.lossless⟩

/-- Of 6 coins 5 are sent: the minimum is 5, so the one that is left is removed, and all
accounts hold 5. -/
theorem conserves_dusted :
    ∃ c, Devnet.funded.world.storage.currency.moveAll Devnet.nativeSettings.currency
        Devnet.settings.holding (.filled 2) [⟨Devnet.request.denom, ⟨5, by decide⟩⟩] = .ok c ∧
      c.issuance = 5 ∧ ∑ᶠ who, c.balance who = 5 := by
  have hsent : ∃ c, Devnet.funded.world.storage.currency.moveAll Devnet.nativeSettings.currency
        Devnet.settings.holding (.filled 2) [⟨Devnet.request.denom, ⟨5, by decide⟩⟩] = .ok c ∧
      c.issuance = 5 := by
    refine ⟨_, rfl, ?_⟩
    decide +kernel
  obtain ⟨c, hc, hissuance⟩ := hsent
  refine ⟨c, hc, hissuance, ?_⟩
  obtain ⟨hsum, -⟩ := native_conserves Devnet.reachable_funded (.moved .here hc)
  rw [hsum, hissuance]

end Session

end Mintage
