import Mintage.Proofs.Atomicity
import Mintage.Proofs.CurrencyMint
import Mintage.Proofs.Objections

/-!
# What a mint on the native currency answers and does

A coin of nothing passes in any denomination.  Any other coin meets the checks of the currency
twice: when it is issued to the holding account and when it is sent on.  Of the checks on the
way out only the recipient's minimum can fail, since two accounts together hold no more than
was issued; a holding account that pays itself is counted twice, and there the sum may leave
the range.

    c.Sound terms → c.issueCoin terms holding coin = .ok c₁ →
      c₁.moveCoin terms holding who coin = …                          (Sound.moveCoin_issued)
    a mint answers by the first objection to it, or its record       (native_mint_is_ruled)
      and then raised the issuance and one balance by the amount       (MintedOnNative)
-/

namespace Mintage

/-! ## Definitions -/

namespace Mint

/-- The objections of the native currency to a coin for `who`, in order. -/
def nativeObjections (s : Settings) (depth : Nat) (c : Currency) (who : Account) (coin : Coin) :
    List (Option MintError) :=
  let terms := s.currency
  let n := coin.amount.toNat
  let held := c.balance s.holding
  [ objection (254 ≤ depth) (.mintFailed coin.denom .layerLimit),
    objection (0 < n ∧ coin.denom ≠ terms.denom) (.mintFailed coin.denom .unknownAsset),
    objection (0 < n ∧ (Currency.limit ≤ n ∨ Currency.limit ≤ c.issuance + n))
      (.mintFailed coin.denom .overflow),
    objection (0 < n ∧ held + n < terms.minimum) (.mintFailed coin.denom .belowMinimum),
    objection (0 < n ∧ who ≠ s.holding ∧ c.balance who + n < terms.minimum)
      (.transferFailed who .belowMinimum),
    objection (0 < n ∧ who = s.holding ∧ Currency.limit ≤ held + n + n)
      (.transferFailed who .overflow) ]

end Mint

namespace Session

/-- All objections to a mint on the native currency, in order. -/
def nativeObjections (s : Session) (depth : Nat) (r : MintRequest) : List (Option MintError) :=
  Mint.callerObjections s.env s.world r.caller ++ Mint.textObjections s.env.settings r ++
    match s.env.settings.account? r.recipient with
    | none => []
    | some who => Mint.nativeObjections s.env.settings depth s.world.storage.currency who
        ⟨r.denom, r.amount⟩

/-- The first objection, or the record where there is none. -/
def nativeRuling (s : Session) (depth : Nat) (r : MintRequest) : Except MintError MintRecord :=
  match (s.nativeObjections depth r).findSome? id with
  | some e => .error e
  | none => .ok ⟨s.env.settings.addressOf r.caller, r.recipient, r.amount, r.denom⟩

/-- What a mint on the native currency that answered `rec` has done: `s` is the session before
it, `s'` the one after it and `who` the account that the recipient names. -/
structure MintedOnNative (s s' : Session) (r : MintRequest) (rec : MintRecord) (who : Account) :
    Prop where
  env_eq : s'.env = s.env
  book_eq : s'.world.storage.book = s.world.storage.book
  issuance_eq : s'.world.storage.currency.issuance =
    s.world.storage.currency.issuance + r.amount.toNat
  balance_eq : ∀ a, s'.world.storage.currency.balance a =
    if a = who then s.world.storage.currency.balance a + r.amount.toNat
    else s.world.storage.currency.balance a
  sound : s'.world.storage.currency.Sound s.env.settings.currency
  calls_eq : s'.world.calls = s.world.calls
  record_eq : rec = ⟨s.env.settings.addressOf r.caller, r.recipient, r.amount, r.denom⟩
  events_eq : s'.world.storage.events = s.world.storage.events ++
    [.tokensMinted (s.env.settings.addressOf r.caller) r.recipient r.amount r.denom]

end Session

/-! ## One coin -/

namespace Currency

variable {terms : CurrencyTerms} {c c₁ : Currency} {coin : Coin}

/-- A coin that was just issued reaches another account unless it is below the minimum there. -/
theorem Sound.moveCoin_issued (h : c.Sound terms) {holding who : Account} (hne : holding ≠ who)
    (hi : c.issueCoin terms holding coin = .ok c₁) :
    c₁.moveCoin terms holding who coin =
      if c.balance who + coin.amount.toNat < terms.minimum then .error .belowMinimum
      else .ok (c₁.shift terms holding who coin.amount.toNat) := by
  obtain ⟨hdenom, hrange, hissue⟩ := issueCoin_eq_ok_iff.mp hi
  have hsound : c₁.Sound terms := h.issue hissue
  obtain ⟨-, -, rfl⟩ := issue_eq_ok_iff.mp hissue
  have hpaid : coin.amount.toNat ≤ (c.endow holding coin.amount.toNat).balance holding := by
    rw [balance_endow, if_pos rfl]
    omega
  have hother : (c.endow holding coin.amount.toNat).balance who = c.balance who := by
    rw [balance_endow, if_neg (Ne.symm hne)]
  unfold Currency.moveCoin
  rw [amountOf_eq_ok_iff.mpr ⟨hdenom, hrange, rfl⟩]
  exact (hsound.move_of_ne hne hpaid).trans (by rw [hother])

/-- A coin that was just issued stays with its account unless it cannot hold it twice. -/
theorem Sound.moveCoin_issued_self (h : c.Sound terms) {who : Account}
    (hi : c.issueCoin terms who coin = .ok c₁) :
    c₁.moveCoin terms who who coin =
      if limit ≤ c.balance who + coin.amount.toNat + coin.amount.toNat then .error .overflow
      else .ok c₁ := by
  obtain ⟨hdenom, hrange, hissue⟩ := issueCoin_eq_ok_iff.mp hi
  have hsound : c₁.Sound terms := h.issue hissue
  obtain ⟨-, hfloor, rfl⟩ := issue_eq_ok_iff.mp hissue
  have hheld : (c.endow who coin.amount.toNat).balance who =
      c.balance who + coin.amount.toNat := by
    rw [balance_endow, if_pos rfl]
  have hpaid : coin.amount.toNat ≤ (c.endow who coin.amount.toNat).balance who := by omega
  unfold Currency.moveCoin
  rw [amountOf_eq_ok_iff.mpr ⟨hdenom, hrange, rfl⟩]
  refine (hsound.move_self hpaid).trans ?_
  have hlow : ¬ c.balance who + coin.amount.toNat + coin.amount.toNat < terms.minimum := by
    omega
  rw [hheld, if_neg hlow]

end Currency

/-! ## Deliveries on the native currency -/

namespace Mint

variable {env : Environment} {depth : Nat} {who : Account} {coin : Coin} {st : Storage}

/-- The review does not look at the ledger. -/
theorem review_withLedger (env : Environment) (ledger : LedgerKind) (currency : CurrencyTerms)
    (r : MintRequest) :
    review { env with settings := { env.settings with ledger, currency } } r = review env r := rfl

/-- Neither the mint's own layer nor those of its two steps make a difference below the limit,
and no call is noted. -/
theorem deliver_on_native (hn : env.settings.ledger = .native) (hd : depth < 254) :
    deliver env depth who coin st =
      ([], match st.currency.issueAll env.settings.currency env.settings.holding [coin] with
        | .error f => .error (.mintFailed coin.denom f)
        | .ok c₁ =>
          match c₁.moveAll env.settings.currency env.settings.holding who [coin] with
          | .error f => .error (.transferFailed who f)
          | .ok c₂ => .ok { st with currency := c₂ }) := by
  have hmax : maxLayers = 255 := rfl
  unfold deliver deliverOn Ledger.mintStep Ledger.sendStep Ledger.mintCalls Ledger.sendCalls
    Ledger.mintNativeStep Ledger.sendNativeStep layered
  rw [hn, if_neg (by omega)]
  dsimp only
  rw [if_neg (by omega)]
  cases st.currency.issueAll env.settings.currency env.settings.holding [coin] with
  | error f => rfl
  | ok c₁ =>
    dsimp only [Storage.withCurrency, Except.map]
    rw [if_neg (by omega)]
    cases c₁.moveAll env.settings.currency env.settings.holding who [coin] with
    | error f => rfl
    | ok c₂ => rfl

/-- Where no layer is left the currency is not reached. -/
theorem deliver_on_native_of_full (hn : env.settings.ledger = .native) (hd : 254 ≤ depth) :
    deliver env depth who coin st = ([], .error (.mintFailed coin.denom .layerLimit)) := by
  have hmax : maxLayers = 255 := rfl
  unfold deliver deliverOn Ledger.mintStep Ledger.mintCalls Ledger.mintNativeStep layered
  rw [hn]
  by_cases hfull : maxLayers ≤ depth
  · rw [if_pos hfull]
  · rw [if_neg hfull]
    dsimp only
    rw [if_pos (by omega)]

/-- The objections to sending on a coin that was issued. -/
theorem findSome?_forwardObjections {c c₁ : Currency} {terms : CurrencyTerms} {holding : Account}
    (h : c.Sound terms) (hpos : 0 < coin.amount.toNat)
    (hi : c.issueCoin terms holding coin = .ok c₁) (who : Account) (st : Storage) :
    [ objection (0 < coin.amount.toNat ∧ who ≠ holding ∧
          c.balance who + coin.amount.toNat < terms.minimum) (.transferFailed who .belowMinimum),
      objection (0 < coin.amount.toNat ∧ who = holding ∧
          Currency.limit ≤ c.balance holding + coin.amount.toNat + coin.amount.toNat)
        (.transferFailed who .overflow) ].findSome? id =
      error? (match c₁.moveCoin terms holding who coin with
        | .error f => .error (.transferFailed who f)
        | .ok c₂ => .ok { st with currency := c₂ }) := by
  by_cases hw : who = holding
  · subst hw
    rw [findSome?_objection_of_neg (fun hno => hno.2.1 rfl), h.moveCoin_issued_self hi]
    by_cases ho : Currency.limit ≤ c.balance who + coin.amount.toNat + coin.amount.toNat
    · rw [findSome?_objection_of_pos ⟨hpos, rfl, ho⟩, if_pos ho]
      rfl
    · rw [findSome?_objection_of_neg (fun hno => ho hno.2.2), if_neg ho]
      rfl
  · rw [h.moveCoin_issued (Ne.symm hw) hi]
    by_cases hlow : c.balance who + coin.amount.toNat < terms.minimum
    · rw [findSome?_objection_of_pos ⟨hpos, hw, hlow⟩, if_pos hlow]
      rfl
    · rw [findSome?_objection_of_neg (fun hno => hlow hno.2.2),
        findSome?_objection_of_neg (fun hno => hw hno.2.1), if_neg hlow]
      rfl

/-- The first objection of the currency is the error of the delivery. -/
theorem findSome?_nativeObjections (hn : env.settings.ledger = .native)
    (hsound : st.currency.Sound env.settings.currency) (depth : Nat) (who : Account)
    (coin : Coin) :
    (nativeObjections env.settings depth st.currency who coin).findSome? id =
      error? (deliver env depth who coin st).2 := by
  unfold nativeObjections
  dsimp only
  by_cases hd : 254 ≤ depth
  · rw [findSome?_objection_of_pos hd, deliver_on_native_of_full hn hd]
    rfl
  rw [findSome?_objection_of_neg hd, deliver_on_native hn (by omega),
    Currency.issueAll_singleton]
  by_cases h0 : coin.amount.toNat = 0
  · -- A coin of nothing is passed over by both steps.
    have hpos : ¬ 0 < coin.amount.toNat := by omega
    rw [if_pos h0]
    dsimp only
    rw [Currency.moveAll_singleton, if_pos h0]
    simp only [objection, hpos, false_and, if_false]
    rfl
  have hpos : 0 < coin.amount.toNat := by omega
  have hissue := Currency.issueCoin_eq st.currency env.settings.currency env.settings.holding coin
  rw [if_neg h0]
  by_cases hf : coin.denom ≠ env.settings.currency.denom
  · rw [findSome?_objection_of_pos ⟨hpos, hf⟩, hissue, if_pos hf]
    rfl
  rw [findSome?_objection_of_neg (fun hno => hf hno.2)]
  rw [if_neg hf] at hissue
  by_cases ho : Currency.limit ≤ coin.amount.toNat ∨
      Currency.limit ≤ st.currency.issuance + coin.amount.toNat
  · rw [findSome?_objection_of_pos ⟨hpos, ho⟩, hissue, if_pos ho]
    rfl
  rw [findSome?_objection_of_neg (fun hno => ho hno.2)]
  rw [if_neg ho] at hissue
  by_cases hlow : st.currency.balance env.settings.holding + coin.amount.toNat <
      env.settings.currency.minimum
  · rw [findSome?_objection_of_pos ⟨hpos, hlow⟩, hissue, if_pos hlow]
    rfl
  rw [findSome?_objection_of_neg (fun hno => hlow hno.2)]
  rw [if_neg hlow] at hissue
  rw [findSome?_forwardObjections hsound hpos hissue who st, hissue]
  dsimp only
  rw [Currency.moveAll_singleton, if_neg h0]

end Mint

namespace Session

/-- A mint on the native currency answers what its ruling says. -/
theorem answer_eq_nativeRuling {s : Session} (hn : s.env.settings.ledger = .native)
    (hsound : s.world.storage.currency.Sound s.env.settings.currency) (depth : Nat)
    (r : MintRequest) : (Mintage.mint s.env depth r s.world).1 = s.nativeRuling depth r := by
  unfold nativeRuling nativeObjections
  exact Mint.answer_eq_first fun who =>
    Mint.findSome?_nativeObjections hn hsound depth who ⟨r.denom, r.amount⟩

/-- The session after a mint on the native currency that answered a record. -/
theorem mintedOnNative_of_mint {s : Session} (hn : s.env.settings.ledger = .native)
    (hsound : s.world.storage.currency.Sound s.env.settings.currency) {depth : Nat}
    {r : MintRequest} {w' : World} {rec : MintRecord}
    (hm : Mintage.mint s.env depth r s.world = (.ok rec, w')) :
    ∃ who, s.env.settings.account? r.recipient = some who ∧
      MintedOnNative s { s with world := w' } r rec who := by
  have hafter := (perform_effect depth (.mint r) s).currency_sound hsound
  rw [storage_perform_mint, hm] at hafter
  obtain ⟨c, calls, st, hr, hd, hrec, hst, hcalls⟩ := Mint.mint_ok_inv hm
  obtain ⟨-, -, hwho, -, -, -, hminter, hcoin⟩ := Mint.review_eq_ok_iff.mp hr
  obtain ⟨rfl, -, cur, rfl, hcredited⟩ := Mint.deliver_on_native_ok hn hsound hd
  rw [hcoin] at hcredited
  refine ⟨c.recipient, hwho, rfl, ?_, ?_, ?_, hafter, ?_, ?_, ?_⟩
  · show w'.storage.book = _
    rw [hst]
  · show w'.storage.currency.issuance = _
    rw [hst]
    exact hcredited.issuance_eq
  · intro a
    show w'.storage.currency.balance a = _
    rw [hst]
    exact hcredited.balance_eq a
  · exact hcalls.trans (List.append_nil _)
  · rw [hrec, ← hminter]
    rfl
  · show w'.storage.events = _
    rw [hst, ← hminter]
    rfl

end Session

/-! ## The development network on its native currency -/

namespace Devnet

/-- The settings of the development network, where the currency issues and asks for 5. -/
def nativeSettings : Settings :=
  { settings with ledger := .native, currency := ⟨request.denom, 5⟩ }

/-- An empty world under these settings. -/
def onNative : Session := .start { initial.env with settings := nativeSettings }

/-- 6 `fei` for the account that coins pass through. -/
def deposit : Action := .mintCoins settings.holding [⟨request.denom, ⟨6, by decide⟩⟩]

/-- The network on its native currency after that. -/
def funded : Session := (onNative.perform 0 deposit).2

theorem reachable_funded : Session.Reachable (fun _ _ => True) funded := by
  refine ⟨onNative.env, [.act deposit], 0, ?_, .later .here⟩
  rw [Step.AllMeet, Step.Meets, Step.AllMeet]
  exact ⟨trivial, trivial⟩

/-- The request for another amount. -/
def requestOf (n : Amount) : MintRequest := { request with amount := n }

/-- Less than an account may hold. -/
def small : Amount := ⟨2, by decide⟩

/-- The amount does not matter to the review. -/
theorem review_requestOf (n : Amount) : Mint.review (switched ⟨false, false⟩).env (requestOf n) =
    .ok ⟨settings.addressOf minter, .filled 2, ⟨request.denom, n⟩⟩ := by
  obtain ⟨hcur, hfit, hacc, hfit', hval, hden, -, -⟩ :=
    Mint.review_eq_ok_iff.mp (review_request ⟨false, false⟩)
  exact Mint.review_eq_ok_iff.mpr ⟨hcur, hfit, hacc, hfit', hval, hden, rfl, rfl⟩

theorem review_funded (n : Amount) : Mint.review funded.env (requestOf n) =
    .ok ⟨settings.addressOf minter, .filled 2, ⟨request.denom, n⟩⟩ :=
  (Mint.review_withLedger (switched ⟨false, false⟩).env .native ⟨request.denom, 5⟩ _).trans
    (review_requestOf n)

end Devnet

namespace Session

/-! ## Top theorem -/

/-- **The outcome of a mint on the native currency.**  It answers the first of the objections,
or the record; with a record the issuance and the recipient's balance rose by the amount and no
other balance changed. -/
theorem native_mint_is_ruled {ok : Session → Action → Prop} {s : Session} (hs : Reachable ok s)
    (hn : s.env.settings.ledger = .native) (depth : Nat) (r : MintRequest) :
    (s.perform depth (.mint r)).1 = .mint (s.nativeRuling depth r) ∧
    ∀ rec, s.nativeRuling depth r = .ok rec →
      ∃ who, s.env.settings.account? r.recipient = some who ∧
        MintedOnNative s (s.perform depth (.mint r)).2 r rec who := by
  have hsound := currency_sound_of_reachable hs
  have hanswer := answer_eq_nativeRuling hn hsound depth r
  rw [perform_mint, hanswer]
  refine ⟨rfl, fun rec hrec => ?_⟩
  rw [hrec] at hanswer
  exact mintedOnNative_of_mint hn hsound (Prod.ext hanswer rfl)

/-- The holding account could hold 2 more, the recipient cannot hold 2; of 1000 all arrive, and
what the holding account held stays. -/
theorem ruled_on_funded :
    Devnet.funded.nativeRuling 253 (Devnet.requestOf Devnet.small) =
        .error (.transferFailed (.filled 2) .belowMinimum) ∧
      (Devnet.funded.perform 253 (.mint Devnet.request)).2.world.storage.currency.issuance =
        1006 ∧
      (Devnet.funded.perform 253 (.mint Devnet.request)).2.world.storage.currency.balance
        Devnet.settings.holding = 6 := by
  have hheld : Devnet.funded.world.storage.currency.balance Devnet.settings.holding = 6 := by
    decide +kernel
  have hne : Devnet.settings.holding ≠ .filled 2 := by decide +kernel
  constructor
  · obtain ⟨hanswer, -⟩ :=
      native_mint_is_ruled Devnet.reachable_funded rfl 253 (Devnet.requestOf Devnet.small)
    have hd : Mint.deliver Devnet.funded.env 253 (.filled 2)
        ⟨Devnet.request.denom, Devnet.small⟩ Devnet.funded.world.storage =
        ([], .error (.transferFailed (.filled 2) .belowMinimum)) := by rfl
    rw [perform_mint, Mint.answer_of_deliver (Devnet.review_funded Devnet.small) hd] at hanswer
    exact (Answer.mint.inj hanswer).symm
  · obtain ⟨hanswer, heffect⟩ :=
      native_mint_is_ruled Devnet.reachable_funded rfl 253 Devnet.request
    have hr : Mint.review Devnet.funded.env Devnet.request = .ok _ :=
      Devnet.review_funded Devnet.request.amount
    obtain ⟨st, hd⟩ : ∃ st, Mint.deliver Devnet.funded.env 253 (.filled 2)
        ⟨Devnet.request.denom, Devnet.request.amount⟩ Devnet.funded.world.storage =
        ([], .ok st) := ⟨_, rfl⟩
    rw [perform_mint, Mint.answer_of_deliver hr hd] at hanswer
    obtain ⟨who, hwho, hminted⟩ := heffect _ (Answer.mint.inj hanswer).symm
    have htext := Settings.account?_addressOf (s := Devnet.nativeSettings) (by decide) (.filled 2)
    obtain rfl : .filled 2 = who := Option.some.inj (htext.symm.trans hwho)
    constructor
    · rw [hminted.issuance_eq]
      rfl
    · rw [hminted.balance_eq, if_neg hne, hheld]

end Session

end Mintage
