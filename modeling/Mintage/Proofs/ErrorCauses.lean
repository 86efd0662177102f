import Mintage.Proofs.Atomicity
import Mintage.Proofs.CurrencySum

/-!
# What the error of a mint tells

A mint that fails ends in the error of one of its checks, or a ledger stopped its coins on
their way in or on their way out (`error_cases`).  Only the check of the caller turns a caller
away, only the check of the recipient refuses a text, and a ledger stops coins on their way in
for one of five faults (`Fault.StopsMinting`).  So where the texts of a request are within
their bounds no error says that one is too long:

    the recipient fits → an error that it is no address says it names nobody
                                                           (unreadable_of_invalidAddress)
    the denomination fits → no error says it is too long      (not_tooLong_of_mintFailed)
-/

namespace Mintage

/-! ## Definitions -/

/-- The faults that minting coins on a ledger may raise. -/
def Fault.StopsMinting : Fault → Prop
  | mintingDisabled | layerLimit | overflow | unknownAsset | belowMinimum => True
  | _ => False

/-! ## Faults of the ledgers -/

/-- What every step of a list may raise is what the list may raise. -/
theorem foldlM_error {α β : Type} {Q : Fault → Prop} {f : α → β → Except Fault α}
    (hstep : ∀ a b e, f a b = .error e → Q e) {l : List β} {a : α} {e : Fault}
    (h : l.foldlM f a = .error e) : Q e := by
  obtain ⟨-, x, -, a', -, -, hx⟩ := foldlM_eq_error_iff.mp h
  exact hstep a' x e hx

theorem Book.stopsMinting_of_issueAll {b : Book} {who : Account} {coins : List Coin} {f : Fault}
    (h : b.issueAll who coins = .error f) : f.StopsMinting := by
  refine foldlM_error (fun b c e he => ?_) h
  unfold Book.issue at he
  split at he
  · cases he
  · cases he
    trivial

theorem Currency.stopsMinting_of_issueAll {c : Currency} {terms : CurrencyTerms} {who : Account}
    {coins : List Coin} {f : Fault} (h : c.issueAll terms who coins = .error f) :
    f.StopsMinting := by
  refine foldlM_error (fun c coin e he => ?_) h
  rw [Currency.issueCoin_eq] at he
  split at he
  · cases he
    trivial
  · split at he
    · cases he
      trivial
    · split at he
      · cases he
        trivial
      · cases he

theorem layered_error {depth : Nat} {r : Except Fault Storage} {f : Fault}
    (h : layered depth r = .error f) : f = .layerLimit ∨ r = .error f := by
  unfold layered at h
  split at h
  · cases h
    exact Or.inl rfl
  · exact Or.inr h

/-- Whatever ledger issues, minting is stopped by one of five faults. -/
theorem Ledger.stopsMinting_of_mintStep {env : Environment} {depth : Nat} {target : Account}
    {coins : List Coin} {st : Storage} {f : Fault}
    (h : mintStep env depth target coins st = .error f) : f.StopsMinting := by
  unfold mintStep mintNativeStep at h
  cases hl : env.settings.ledger with
  | book =>
    rw [hl] at h
    dsimp only at h
    cases hsw : env.switches.refuseMints with
    | true =>
      rw [hsw] at h
      cases h
      trivial
    | false =>
      rw [hsw] at h
      rcases layered_error h with rfl | hbook
      · trivial
      · cases hi : st.book.issueAll target coins with
        | ok b =>
          rw [hi] at hbook
          cases hbook
        | error e =>
          rw [hi] at hbook
          cases hbook
          exact Book.stopsMinting_of_issueAll hi
  | native =>
    rw [hl] at h
    rcases layered_error h with rfl | hcurrency
    · trivial
    · cases hi : st.currency.issueAll env.settings.currency target coins with
      | ok c =>
        rw [hi] at hcurrency
        cases hcurrency
      | error e =>
        rw [hi] at hcurrency
        cases hcurrency
        exact Currency.stopsMinting_of_issueAll hi

/-! ## Errors of a mint -/

namespace Mint

variable {env : Environment} {depth : Nat} {r : MintRequest} {w : World}

/-- A mint fails at one of its checks or at the ledger, on the way in or on the way out. -/
theorem error_cases {e : MintError} (h : (mint env depth r w).1 = .error e) :
    minterText env r.caller = .error e ∨ r.recipientAccount env.settings = .error e ∨
      r.coin env.settings = .error e ∨ (∃ f, f.StopsMinting ∧ e = .mintFailed r.denom f) ∨
      ∃ who f, e = .transferFailed who f := by
  have hmint : mint env depth r w = (.error e, (mint env depth r w).2) := Prod.ext h rfl
  obtain ⟨-, calls, -, ⟨hr, -⟩ | ⟨c, hr, hd⟩⟩ := mint_error_inv hmint
  · rcases review_error_inv hr with hm | ha | hc
    · exact Or.inl hm
    · exact Or.inr (Or.inl ha)
    · exact Or.inr (Or.inr (Or.inl hc))
  · obtain ⟨-, -, -, -, -, -, -, hcoin⟩ := review_eq_ok_iff.mp hr
    have hdenom : c.coin.denom = r.denom := by rw [hcoin]
    refine Or.inr (Or.inr (Or.inr ?_))
    rcases deliver_error_inv hd with ⟨he, -⟩ | ⟨f, hf, he, -⟩ | ⟨f, he, -⟩
    · exact Or.inl ⟨.layerLimit, trivial, hdenom ▸ he⟩
    · exact Or.inl ⟨f, Ledger.stopsMinting_of_mintStep hf, hdenom ▸ he⟩
    · exact Or.inr ⟨c.recipient, f, he⟩

/-- Only the check of the caller turns a caller away. -/
theorem minterText_of_unauthorized {authority : Option Account} {who : Account}
    {cause : Option Fault} (h : (mint env depth r w).1 = .error (.unauthorized authority who cause)) :
    minterText env r.caller = .error (.unauthorized authority who cause) := by
  rcases error_cases h with hm | ha | hc | ⟨f, -, he⟩ | ⟨a, f, he⟩
  · exact hm
  · cases stage_of_recipientAccount_error ha
  · cases stage_of_coin_error hc
  · cases he
  · cases he

/-- A recipient that fits is refused only because it names nobody. -/
theorem unreadable_of_invalidAddress (hfit : env.settings.fitsAddress r.recipient = true)
    {text : Bytes} (h : (mint env depth r w).1 = .error (.invalidAddress text)) :
    text = r.recipient ∧ env.settings.account? r.recipient = none := by
  rcases error_cases h with hm | ha | hc | ⟨f, -, he⟩ | ⟨a, f, he⟩
  · cases stage_of_minterText_error hm
  · unfold MintRequest.recipientAccount at ha
    cases hn : env.settings.account? r.recipient with
    | none =>
      rw [hn] at ha
      cases ha
      exact ⟨rfl, rfl⟩
    | some who =>
      rw [hn] at ha
      dsimp only at ha
      rw [if_pos hfit] at ha
      cases ha
  · cases stage_of_coin_error hc
  · cases he
  · cases he

/-- Coins whose denomination fits are not refused for its length. -/
theorem not_tooLong_of_mintFailed (hfit : env.settings.fitsDenom r.denom = true) {denom : Bytes}
    {cause : Fault} (h : (mint env depth r w).1 = .error (.mintFailed denom cause)) :
    cause ≠ .denomTooLong := by
  rcases error_cases h with hm | ha | hc | ⟨f, hf, he⟩ | ⟨a, f, he⟩
  · cases stage_of_minterText_error hm
  · cases stage_of_recipientAccount_error ha
  · unfold MintRequest.coin at hc
    split at hc
    · cases hc
      intro heq
      cases heq
    · rw [if_pos hfit] at hc
      cases hc
  · cases he
    rintro rfl
    exact hf
  · cases he

end Mint

end Mintage
