import Mintage.Proofs.Delivery
import Mintage.Proofs.LedgerRuns

/-!
# What rests on the holding account

Coins are issued to the holding account and sent on at once.  What it held before is what it
holds after, unless the recipient is the holding account itself: no check stands in the way of
such a mint, and its coins stay there (`rests_on_holding`).

    a mint changes what the holding account holds exactly if it names that account, is of more
      than nothing and is carried out                                (holding_unchanged_iff)
    no mint of a run does → the holding account holds nothing             (holding_passes_on)
-/

namespace Mintage

/-! ## Definitions -/

namespace Session

/-- A mint of more than nothing is carried out for the holding account itself. -/
def RestsOnHolding (s : Session) (depth : Nat) (a : Action) : Prop :=
  (s.perform depth a).1.Minted ∧ ∃ r, a.Requests s.env.settings r ∧
    s.env.settings.account? r.recipient = some s.env.settings.holding ∧ 0 < r.amount.toNat

/-- Only mints reach the ledger in use, none of them for the holding account, which stays the
same. -/
structure PassesOn (s : Session) (a : Action) : Prop extends
    a.MintsOnly Settings.moduleId s.env where
  notResting : ∀ depth, ¬ s.RestsOnHolding depth a

end Session

/-- The holding account holds nothing, in any denomination of the ledger in use. -/
def Storage.HoldingEmpty (settings : Settings) (st : Storage) : Prop :=
  ∀ d, st.held settings settings.holding d = 0

/-! ## Lemmas -/

namespace Storage

variable {s s' : Settings} {st : Storage}

theorem held_empty (s : Settings) (a : Account) (d : Bytes) : empty.held s a d = 0 := by
  unfold held
  cases s.ledger with
  | book => rfl
  | native =>
    dsimp only
    split
    · rfl
    · rfl

/-- A ledger that is not in use may change. -/
theorem Spared.held_eq {st' : Storage} (h : st.Spared s st') (a : Account) (d : Bytes) :
    st'.held s a d = st.held s a d := by
  unfold held
  cases h with
  | same => rfl
  | book hl b => rw [hl]
  | currency hl c => rw [hl]

theorem holdingEmpty_congr (st : Storage) (h : s.SameLedger Settings.moduleId s') :
    st.HoldingEmpty s ↔ st.HoldingEmpty s' := by
  unfold HoldingEmpty held Settings.holding
  rw [show s.moduleId = s'.moduleId from h.setting_eq, h.ledger_eq, h.currency_eq]

end Storage

namespace Session

/-! ## One step -/

/-- A mint changes what the holding account holds exactly if it rests there. -/
theorem holding_unchanged_iff {s : Session}
    (hsound : s.world.storage.currency.Sound s.env.settings.currency) {a : Action}
    (ha : a.AsksMint) (depth : Nat) :
    (∀ d, (s.perform depth a).2.world.storage.held s.env.settings s.env.settings.holding d =
        s.world.storage.held s.env.settings s.env.settings.holding d) ↔
      ¬ s.RestsOnHolding depth a := by
  constructor
  · rintro hsame ⟨hminted, r, hreq, hname, hpos⟩
    obtain ⟨r', who, hdel⟩ := delivered_of_minted hsound ha hminted
    obtain rfl := hreq.unique hdel.requested
    have hwho : s.env.settings.holding = who :=
      Option.some.inj (hname.symm.trans hdel.named)
    have hraised := hdel.held_eq s.env.settings.holding r.denom
    rw [if_pos ⟨hwho, rfl⟩, hsame] at hraised
    omega
  · intro hnot d
    rcases minted_or_kept ha depth s with ⟨-, hkept⟩ | ⟨hminted, -⟩
    · rw [hkept]
    · obtain ⟨r, who, hdel⟩ := delivered_of_minted hsound ha hminted
      rw [hdel.held_eq]
      split
      · next heq =>
        -- The holding account is the recipient, so the amount is nothing.
        have hname := hdel.named
        rw [← heq.1] at hname
        have h0 : ¬ 0 < r.amount.toNat := fun hpos =>
          hnot ⟨hminted, r, hdel.requested, hname, hpos⟩
        omega
      · rfl

/-- An action that passes on leaves the holding account without coins. -/
theorem holdingEmpty_perform {s : Session} {a : Action} (ha : s.PassesOn a)
    (hsound : s.world.storage.currency.Sound s.env.settings.currency)
    (h : s.world.storage.HoldingEmpty s.env.settings) (depth : Nat) :
    (s.perform depth a).2.world.storage.HoldingEmpty s.env.settings := by
  by_cases hask : a.AsksMint
  · intro d
    rw [(holding_unchanged_iff hsound hask depth).mpr (ha.notResting depth)]
    exact h d
  · intro d
    obtain hspared | ⟨_, _, _, _, _, hreq, -, -, -⟩ :=
      (perform_effect depth a s).spared_or_minted ha.leavesLedger
    · rw [hspared.held_eq]
      exact h d
    · exact absurd hreq.asksMint hask

/-! ## Runs -/

theorem holdingEmpty_keptByMints {ok : Session → Action → Prop}
    (hok : ∀ s a, ok s a → s.PassesOn a) :
    KeptByMints Settings.moduleId ok fun settings st => st.HoldingEmpty settings where
  mintsOnly s a ha := (hok s a ha).toMintsOnly
  rollBack_eq _ _ := rfl
  congr _ _ st h := Storage.holdingEmpty_congr st h
  empty settings d := Storage.held_empty settings settings.holding d
  perform depth s a ha hsound h := holdingEmpty_perform (hok s a ha) hsound h depth

/-! ## Top theorem -/

/-- **The holding account passes coins on.**  A mint changes what it holds exactly if it names
that account, is of more than nothing and is carried out; where no mint of a run does, it
holds nothing in any state of the run. -/
theorem holding_passes_on {ok : Session → Action → Prop} {s : Session} (hs : Reachable ok s) :
    (∀ depth a, a.AsksMint →
      ((∀ d, (s.perform depth a).2.world.storage.held s.env.settings s.env.settings.holding d =
          s.world.storage.held s.env.settings s.env.settings.holding d) ↔
        ¬ s.RestsOnHolding depth a)) ∧
    ((∀ s a, ok s a → s.PassesOn a) →
      ∀ d, s.world.storage.held s.env.settings s.env.settings.holding d = 0) := by
  constructor
  · intro depth a ha
    exact holding_unchanged_iff (currency_sound_of_reachable hs) ha depth
  · intro hok
    exact (holdingEmpty_keptByMints hok).of_reachable hs

end Session

/-! ## Two mints of the development network -/

namespace Devnet

theorem review_initial : Mint.review initial.env request =
    .ok ⟨settings.addressOf minter, .filled 2, ⟨request.denom, request.amount⟩⟩ :=
  review_request ⟨false, false⟩

/-- 1000 `fei` for the account that coins pass through. -/
def toHolding : MintRequest := { request with recipient := settings.addressOf settings.holding }

/-- The request for the holding account passes its review like any other. -/
theorem review_toHolding : Mint.review initial.env toHolding =
    .ok ⟨settings.addressOf minter, settings.holding, ⟨request.denom, request.amount⟩⟩ := by
  obtain ⟨hcur, hfit, -, -, hval, hden, -, -⟩ := Mint.review_eq_ok_iff.mp review_initial
  have hnet : settings.network.toNat < 16384 := by decide
  have htext : settings.fitsAddress toHolding.recipient = true :=
    Settings.fitsAddress_addressOf (Health.boundFits_iff.mpr (by decide)) settings.holding
  exact Mint.review_eq_ok_iff.mpr
    ⟨hcur, hfit, Settings.account?_addressOf hnet settings.holding, htext, hval, hden, rfl, rfl⟩

/-- The request for another account passes on. -/
theorem passesOn_request : initial.PassesOn (.mint request) where
  leavesLedger := Action.LeavesLedgers.leavesLedger rfl
  setting_eq := rfl
  notResting depth := by
    rintro ⟨-, r, hreq, hname, -⟩
    have hne : Account.filled 2 ≠ settings.holding := by decide +kernel
    have htext := Settings.account?_addressOf (s := settings) (by decide) (.filled 2)
    cases hreq
    exact hne (Option.some.inj (htext.symm.trans hname))

/-- The first mint that is carried out leaves its coins with the account that it is for. -/
theorem held_of_first_mint {depth : Nat} (hdepth : depth < 254) {r : MintRequest}
    {minter : Bytes} {who : Account}
    (hr : Mint.review initial.env r = .ok ⟨minter, who, ⟨r.denom, r.amount⟩⟩) :
    (initial.perform depth (.mint r)).2.world.storage.held settings who r.denom =
      r.amount.toNat := by
  have hbook := Mint.deliver_on_book (show initial.env.settings.ledger = .book from rfl) depth
    who ⟨r.denom, r.amount⟩ initial.world.storage
  have hlt := r.amount.toNat_lt
  have hroom : ¬ Amount.limit ≤ initial.world.storage.book.supply r.denom + r.amount.toNat := by
    show ¬ Amount.limit ≤ 0 + r.amount.toNat
    omega
  rw [if_neg (by omega), if_neg (by decide), if_neg (by omega), if_neg hroom,
    if_neg (by decide)] at hbook
  have hheld := Mint.held_of_deliver (Currency.sound_empty _) hbook who r.denom
  rw [if_pos ⟨rfl, rfl⟩] at hheld
  rw [Session.storage_perform_mint, Mint.storage_of_deliver hr hbook]
  refine hheld.trans ?_
  exact (congrArg (· + r.amount.toNat) (Storage.held_empty _ _ _)).trans (Nat.zero_add _)

end Devnet

namespace Session

/-- The authority's mint to the holding account leaves its coins there. -/
theorem rests_on_holding :
    Reachable (fun s a => a.MintsOnly Settings.moduleId s.env)
        (Devnet.initial.perform 0 (.mint Devnet.toHolding)).2 ∧
      (Devnet.initial.perform 0 (.mint Devnet.toHolding)).2.world.storage.held Devnet.settings
        Devnet.settings.holding Devnet.request.denom = 1000 := by
  constructor
  · refine ⟨Devnet.initial.env, [.act (.mint Devnet.toHolding)], 0, ?_, .later ?_⟩
    · rw [Step.AllMeet, Step.Meets, Step.AllMeet]
      exact ⟨⟨Action.LeavesLedgers.leavesLedger rfl, rfl⟩, trivial⟩
    · rw [Step.run_act]
      exact .here
  · exact Devnet.held_of_first_mint (by decide) Devnet.review_toHolding

/-- A mint to another account, inside layers, passes its coins on. -/
theorem passes_on_inside_layers :
    (Devnet.initial.perform 2 (.mint Devnet.request)).2.world.storage.held Devnet.settings
        Devnet.settings.holding Devnet.request.denom = 0 ∧
      (Devnet.initial.perform 2 (.mint Devnet.request)).2.world.storage.held Devnet.settings
        (.filled 2) Devnet.request.denom = 1000 := by
  have hs : Reachable PassesOn
      (Devnet.initial.perform 2 (.mint Devnet.request)).2 := by
    refine ⟨Devnet.initial.env, [.layer 2 false [.act (.mint Devnet.request)]], 2, ?_, ?_⟩
    · simp only [Step.AllMeet, Step.Meets]
      exact ⟨fun _ => ⟨Devnet.passesOn_request, trivial⟩, trivial⟩
    · refine .inside (by decide) (.later ?_)
      rw [Step.run_act]
      exact .here
  have hempty := (holding_passes_on hs).2 (fun _ _ h => h) Devnet.request.denom
  rw [perform_env] at hempty
  exact ⟨hempty, Devnet.held_of_first_mint (by decide) Devnet.review_initial⟩

end Session

end Mintage
