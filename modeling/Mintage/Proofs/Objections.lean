import Mintage.Proofs.MintStep

/-!
# What a review objects to

The checks before the ledger as a list of conditions, each with the error that it raises.
None of them looks at the others; the review raises the first that holds:

    (callerObjections env w r.caller ++ textObjections env.settings r).findSome? id
      = error? (review env r)                                (findSome?_reviewObjections)

With the objections of a ledger behind them, the first of all is what the mint answers
(`answer_eq_first`).
-/

namespace Mintage

/-! ## Definitions -/

namespace Mint

/-- An error that is raised under a condition. -/
def objection (p : Prop) [Decidable p] (e : MintError) : Option MintError :=
  if p then some e else none

/-- The objections to a caller, in order. -/
def callerObjections (env : Environment) (w : World) (caller : Account) :
    List (Option MintError) :=
  let resolved := (Authority.resolve env w).1
  [ match resolved with
    | .error f => some (.unauthorized none caller (some f))
    | .ok _ => none,
    match resolved with
    | .error _ => none
    | .ok a => objection (a ≠ caller) (.unauthorized (some a) caller none),
    objection (env.settings.bounds.address < (env.settings.addressOf caller).length)
      (.unauthorized (some caller) caller (some .authorityTextTooLong)) ]

/-- The objections to the texts of a request, in order. -/
def textObjections (s : Settings) (r : MintRequest) : List (Option MintError) :=
  [ objection (s.account? r.recipient = none ∨ s.bounds.address < r.recipient.length)
      (.invalidAddress r.recipient),
    objection (Denom.isValid r.denom = false) (.mintFailed r.denom .invalidDenom),
    objection (s.bounds.denom < r.denom.length) (.mintFailed r.denom .denomTooLong) ]

/-- The error of a result. -/
def error? {α : Type} : Except MintError α → Option MintError
  | .error e => some e
  | .ok _ => none

end Mint

/-! ## Single checks -/

namespace MintRequest

variable {s : Settings} {r : MintRequest}

theorem recipientAccount_eq_error
    (h : s.account? r.recipient = none ∨ s.bounds.address < r.recipient.length) :
    r.recipientAccount s = .error (.invalidAddress r.recipient) := by
  unfold recipientAccount
  cases ha : s.account? r.recipient with
  | none => rfl
  | some who =>
    have hlong : s.bounds.address < r.recipient.length := by
      rcases h with h | h
      · rw [ha] at h
        cases h
      · exact h
    have hfit : ¬ s.fitsAddress r.recipient = true := by
      simpa [Settings.fitsAddress] using hlong
    exact if_neg hfit

theorem recipientAccount_eq_ok
    (h : ¬ (s.account? r.recipient = none ∨ s.bounds.address < r.recipient.length)) :
    ∃ who, r.recipientAccount s = .ok who := by
  obtain ⟨hdec, hlong⟩ := not_or.mp h
  obtain ⟨who, hwho⟩ := Option.ne_none_iff_exists'.mp hdec
  have hfit : s.fitsAddress r.recipient = true := by
    simpa [Settings.fitsAddress] using hlong
  exact ⟨who, recipientAccount_eq_ok_iff.mpr ⟨hwho, hfit⟩⟩

theorem coin_eq_invalid (h : Denom.isValid r.denom = false) :
    r.coin s = .error (.mintFailed r.denom .invalidDenom) := by
  unfold coin Coin.named?
  rw [h]
  rfl

theorem coin_eq_tooLong (hv : ¬ Denom.isValid r.denom = false)
    (h : s.bounds.denom < r.denom.length) :
    r.coin s = .error (.mintFailed r.denom .denomTooLong) := by
  have hfit : ¬ s.fitsDenom r.denom = true := by
    simpa [Settings.fitsDenom] using h
  unfold coin Coin.named?
  rw [if_pos (by simpa using hv)]
  exact if_neg hfit

theorem coin_eq_ok (hv : ¬ Denom.isValid r.denom = false)
    (h : ¬ s.bounds.denom < r.denom.length) : r.coin s = .ok ⟨r.denom, r.amount⟩ := by
  have hfit : s.fitsDenom r.denom = true := by
    simpa [Settings.fitsDenom] using h
  exact coin_eq_ok_iff.mpr ⟨by simpa using hv, hfit, rfl⟩

end MintRequest

/-! ## The first objection -/

namespace Mint

variable {p : Prop} [Decidable p] {e : MintError} {l : List (Option MintError)}

theorem findSome?_objection_of_pos (h : p) : (objection p e :: l).findSome? id = some e := by
  unfold objection
  rw [if_pos h]
  rfl

theorem findSome?_objection_of_neg (h : ¬ p) :
    (objection p e :: l).findSome? id = l.findSome? id := by
  unfold objection
  rw [if_neg h]
  rfl

theorem findSome?_callerObjections (env : Environment) (w : World) (caller : Account) :
    (callerObjections env w caller).findSome? id = error? (minterText env caller) := by
  unfold callerObjections minterText Authority.verdict
  rw [Authority.resolve_run]
  cases Authority.current env with
  | error f => rfl
  | ok a =>
    dsimp only
    show (objection (a ≠ caller) _ :: _).findSome? id = _
    by_cases ha : a = caller
    · subst ha
      rw [findSome?_objection_of_neg (not_not_intro rfl)]
      by_cases hlong : env.settings.bounds.address < (env.settings.addressOf a).length
      · have hfit : ¬ env.settings.fitsAddress (env.settings.addressOf a) = true := by
          simpa [Settings.fitsAddress] using hlong
        rw [findSome?_objection_of_pos hlong, if_pos rfl]
        dsimp only
        rw [if_neg hfit]
        rfl
      · have hfit : env.settings.fitsAddress (env.settings.addressOf a) = true := by
          simpa [Settings.fitsAddress] using hlong
        rw [findSome?_objection_of_neg hlong, if_pos rfl]
        dsimp only
        rw [if_pos hfit]
        rfl
    · rw [findSome?_objection_of_pos ha, if_neg ha]
      rfl

theorem findSome?_textObjections (s : Settings) (r : MintRequest) :
    (textObjections s r).findSome? id =
      error? (do
        let who ← r.recipientAccount s
        let coin ← r.coin s
        pure (who, coin)) := by
  unfold textObjections
  by_cases hr : s.account? r.recipient = none ∨ s.bounds.address < r.recipient.length
  · rw [findSome?_objection_of_pos hr, MintRequest.recipientAccount_eq_error hr]
    rfl
  · obtain ⟨who, hwho⟩ := MintRequest.recipientAccount_eq_ok hr
    rw [findSome?_objection_of_neg hr, hwho]
    by_cases hv : Denom.isValid r.denom = false
    · rw [findSome?_objection_of_pos hv, MintRequest.coin_eq_invalid hv]
      rfl
    · rw [findSome?_objection_of_neg hv]
      by_cases hd : s.bounds.denom < r.denom.length
      · rw [findSome?_objection_of_pos hd, MintRequest.coin_eq_tooLong hv hd]
        rfl
      · rw [findSome?_objection_of_neg hd, MintRequest.coin_eq_ok hv hd]
        rfl

/-- A review raises the first objection to the caller or to the texts. -/
theorem findSome?_reviewObjections (env : Environment) (w : World) (r : MintRequest) :
    (callerObjections env w r.caller ++ textObjections env.settings r).findSome? id =
      error? (review env r) := by
  rw [List.findSome?_append, findSome?_callerObjections, findSome?_textObjections]
  unfold review
  cases minterText env r.caller with
  | error e => rfl
  | ok text =>
    cases r.recipientAccount env.settings with
    | error e => rfl
    | ok who =>
      cases r.coin env.settings with
      | error e => rfl
      | ok c => rfl

/-- A mint answers the first objection to the caller, to the texts or of a ledger whose
objections tell its deliveries, or else its record. -/
theorem answer_eq_first {env : Environment} {depth : Nat} {r : MintRequest} {w : World}
    {ledgerObjections : Account → List (Option MintError)}
    (hledger : ∀ who, (ledgerObjections who).findSome? id =
      error? (deliver env depth who ⟨r.denom, r.amount⟩ w.storage).2) :
    (mint env depth r w).1 =
      match (callerObjections env w r.caller ++ textObjections env.settings r ++
        match env.settings.account? r.recipient with
        | none => []
        | some who => ledgerObjections who).findSome? id with
      | some e => .error e
      | none => .ok ⟨env.settings.addressOf r.caller, r.recipient, r.amount, r.denom⟩ := by
  rw [List.findSome?_append, findSome?_reviewObjections]
  cases hr : review env r with
  | error e =>
    rw [mint_of_review_error hr]
    rfl
  | ok c =>
    obtain ⟨-, -, hwho, -, -, -, hminter, hcoin⟩ := review_eq_ok_iff.mp hr
    have hdelivery := hledger c.recipient
    rw [← hcoin] at hdelivery
    rw [hwho]
    simp only [error?, Option.none_or, hdelivery]
    rcases hd : deliver env depth c.recipient c.coin w.storage with ⟨calls, result⟩
    rw [answer_of_deliver hr hd]
    cases result with
    | error e => rfl
    | ok st =>
      unfold record
      rw [hminter]
      rfl

end Mint

end Mintage
