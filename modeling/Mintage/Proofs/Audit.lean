import Mintage.Proofs.BookMint
import Mintage.Proofs.CurrencyMint
import Mintage.Proofs.LedgerRuns

/-!
# The event log accounts for the ledger

Where only mints reach the ledger and the network stays the same, the log is a full account
of it: each supply is the sum of the amounts issued, and each balance the sum of the
amounts delivered to the account, whatever was rolled back on the way.

    Reachable MintsOnly s → s.world.storage.Audited s.env.settings    (log_accounts_for_ledger)
-/

namespace Mintage

/-! ## Definitions -/

namespace Event

def recipient : Event → Bytes
  | tokensMinted _ recipient _ _ => recipient

def amount : Event → Nat
  | tokensMinted _ _ amount _ => amount.toNat

def denom : Event → Bytes
  | tokensMinted _ _ _ denom => denom

/-- The sum of the amounts of the events in `p`. -/
def amounts (log : List Event) (p : Event → Bool) : Nat :=
  log.foldr (fun e n => (if p e then e.amount else 0) + n) 0

/-- How much of a denomination the log says was issued. -/
def issued (log : List Event) (d : Bytes) : Nat := amounts log fun e => e.denom = d

/-- How much of a denomination the log says was delivered to an account, where texts are
read on the given network. -/
def delivered (network : Network) (log : List Event) (a : Account) (d : Bytes) : Nat :=
  amounts log fun e => e.denom = d ∧ Address.decode? network e.recipient = some a

end Event

namespace Storage

/-- The log accounts for the book. -/
structure BookAudited (network : Network) (st : Storage) : Prop where
  supply_eq : ∀ d, st.book.supply d = Event.issued st.events d
  balance_eq : ∀ a d, st.book.balance a d = Event.delivered network st.events a d

/-- The log accounts for the currency; events of other denominations are of nothing. -/
structure CurrencyAudited (network : Network) (terms : CurrencyTerms) (st : Storage) :
    Prop where
  issuance_eq : st.currency.issuance = Event.issued st.events terms.denom
  balance_eq : ∀ a, st.currency.balance a = Event.delivered network st.events a terms.denom
  foreign_eq : ∀ e ∈ st.events, e.denom ≠ terms.denom → e.amount = 0

/-- The log accounts for the ledger in use. -/
def Audited (settings : Settings) (st : Storage) : Prop :=
  match settings.ledger with
  | .book => st.BookAudited settings.network
  | .native => st.CurrencyAudited settings.network settings.currency

end Storage

/-! ## Sums over the log -/

namespace Event

theorem amounts_cons (e : Event) (log : List Event) (p : Event → Bool) :
    amounts (e :: log) p = (if p e then e.amount else 0) + amounts log p := rfl

theorem amounts_append_singleton (log : List Event) (e : Event) (p : Event → Bool) :
    amounts (log ++ [e]) p = amounts log p + if p e then e.amount else 0 := by
  induction log with
  | nil =>
    rw [List.nil_append, amounts_cons, Nat.add_comm]
  | cons e' log ih =>
    rw [List.cons_append, amounts_cons, amounts_cons, ih]
    omega

theorem issued_append_singleton (log : List Event) (e : Event) (d : Bytes) :
    issued (log ++ [e]) d = issued log d + if e.denom = d then e.amount else 0 := by
  unfold issued
  rw [amounts_append_singleton]
  simp only [decide_eq_true_eq]

theorem delivered_append_singleton (network : Network) (log : List Event) (e : Event)
    (a : Account) (d : Bytes) :
    delivered network (log ++ [e]) a d = delivered network log a d +
      if e.denom = d ∧ Address.decode? network e.recipient = some a then e.amount else 0 := by
  unfold delivered
  rw [amounts_append_singleton]
  simp only [decide_eq_true_eq]

end Event

/-! ## One more event -/

namespace Storage

variable {network : Network} {terms : CurrencyTerms} {st : Storage} {e : Event} {who : Account}

/-- Coins sent on through the book are accounted for by their event. -/
theorem BookAudited.forward (h : st.BookAudited network) (holding : Account)
    (hwho : Address.decode? network e.recipient = some who) :
    BookAudited network { st with
      book := st.book.forward holding who e.denom e.amount
      events := st.events ++ [e] } where
  supply_eq d := by
    show (st.book.forward holding who e.denom e.amount).supply d = Event.issued (st.events ++ [e]) d
    rw [Book.supply_forward, Event.issued_append_singleton, h.supply_eq]
    by_cases hd : d = e.denom
    · rw [if_pos hd, if_pos hd.symm]
    · rw [if_neg hd, if_neg (Ne.symm hd)]
      rfl
  balance_eq a d := by
    show (st.book.forward holding who e.denom e.amount).balance a d =
      Event.delivered network (st.events ++ [e]) a d
    rw [Book.balance_forward, Event.delivered_append_singleton, h.balance_eq, hwho]
    by_cases had : a = who ∧ d = e.denom
    · obtain ⟨rfl, rfl⟩ := had
      rw [if_pos ⟨rfl, rfl⟩, if_pos ⟨rfl, rfl⟩]
    · have hne : ¬ (e.denom = d ∧ some who = some a) := by
        rintro ⟨rfl, hw⟩
        exact had ⟨(Option.some.inj hw).symm, rfl⟩
      rw [if_neg had, if_neg hne]
      rfl

/-- Coins credited on the currency are accounted for by their event, and so is a coin of
nothing. -/
theorem CurrencyAudited.credited (h : st.CurrencyAudited network terms) {cur : Currency}
    (hc : st.currency.Credited cur who e.amount)
    (hd : e.amount = 0 ∨ e.denom = terms.denom)
    (hwho : Address.decode? network e.recipient = some who) :
    CurrencyAudited network terms { st with currency := cur, events := st.events ++ [e] } where
  issuance_eq := by
    show cur.issuance = Event.issued (st.events ++ [e]) terms.denom
    rw [hc.issuance_eq, Event.issued_append_singleton, h.issuance_eq]
    split
    · rfl
    · next hne =>
      have h0 : e.amount = 0 := hd.resolve_right hne
      rw [h0]
  balance_eq a := by
    show cur.balance a = Event.delivered network (st.events ++ [e]) a terms.denom
    rw [hc.balance_eq, Event.delivered_append_singleton, h.balance_eq, hwho]
    by_cases ha : a = who
    · subst ha
      rw [if_pos rfl]
      split
      · rfl
      · next hne =>
        have h0 : e.amount = 0 := hd.resolve_right fun hden => hne ⟨hden, rfl⟩
        rw [h0]
    · have hne : ¬ (e.denom = terms.denom ∧ some who = some a) := by
        rintro ⟨-, hw⟩
        exact ha (Option.some.inj hw).symm
      rw [if_neg ha, if_neg hne]
      rfl
  foreign_eq e' he' hne := by
    rcases List.mem_append.mp he' with hold | hnew
    · exact h.foreign_eq e' hold hne
    · cases List.mem_singleton.mp hnew
      exact hd.resolve_right hne

end Storage

/-! ## Runs -/

namespace Storage

theorem audited_empty (settings : Settings) : empty.Audited settings := by
  unfold Audited
  cases settings.ledger with
  | book => exact ⟨fun _ => rfl, fun _ _ => rfl⟩
  | native => exact ⟨rfl, fun _ => rfl, fun e he => by cases he⟩

/-- A ledger that is not in use may change. -/
theorem Audited.spared {settings : Settings} {st st' : Storage} (h : st.Audited settings)
    (hs : st.Spared settings st') : st'.Audited settings := by
  unfold Audited at h ⊢
  cases hs with
  | same => exact h
  | book hl b =>
    rw [hl] at h ⊢
    exact ⟨h.issuance_eq, h.balance_eq, h.foreign_eq⟩
  | currency hl c =>
    rw [hl] at h ⊢
    exact ⟨h.supply_eq, h.balance_eq⟩

theorem audited_congr {s s' : Settings} (st : Storage) (h : s.SameLedger Settings.network s') :
    st.Audited s ↔ st.Audited s' := by
  unfold Audited
  rw [show s.network = s'.network from h.setting_eq, h.ledger_eq, h.currency_eq]

end Storage

namespace Session

/-- A mint that was delivered is accounted for by the event that it leaves. -/
theorem audited_mint {env : Environment} {depth : Nat} {r : MintRequest} {c : Clearance}
    {calls : List LedgerCall} {st st' : Storage}
    (hsound : st.currency.Sound env.settings.currency) (h : st.Audited env.settings)
    (hr : Mint.review env r = .ok c)
    (hd : Mint.deliver env depth c.recipient c.coin st = (calls, .ok st')) :
    Storage.Audited env.settings
      { st' with events := st'.events ++ [Mint.event r c.minter] } := by
  obtain ⟨-, -, hwho, -, -, -, -, hcoin⟩ := Mint.review_eq_ok_iff.mp hr
  rw [hcoin] at hd
  unfold Storage.Audited at h ⊢
  cases hl : env.settings.ledger with
  | book =>
    rw [hl] at h
    obtain ⟨-, rfl⟩ := Mint.deliver_on_book_ok hl hd
    exact h.forward (e := Mint.event r c.minter) env.settings.holding hwho
  | native =>
    rw [hl] at h
    obtain ⟨-, hdenom, cur, rfl, hcredited⟩ := Mint.deliver_on_native_ok hl hsound hd
    exact h.credited (e := Mint.event r c.minter) hcredited hdenom hwho

/-- Every effect that leaves the ledger to mints is accounted for. -/
theorem Effect.audited {s : Session} {a : Action} {st : Storage} (he : s.Effect a st)
    (ha : a.LeavesLedger s.env.settings)
    (hsound : s.world.storage.currency.Sound s.env.settings.currency)
    (h : s.world.storage.Audited s.env.settings) : st.Audited s.env.settings := by
  obtain hspared | ⟨depth, r, c, calls, st', -, hr, hd, rfl⟩ := he.spared_or_minted ha
  · exact h.spared hspared
  · exact audited_mint hsound h hr hd

theorem audited_keptByMints :
    KeptByMints Settings.network (fun s a => a.MintsOnly Settings.network s.env)
      fun settings st => st.Audited settings where
  mintsOnly _ _ ha := ha
  rollBack_eq _ _ := rfl
  congr _ _ st h := Storage.audited_congr st h
  empty := Storage.audited_empty
  perform depth s a ha hsound h := (perform_effect depth a s).audited ha.leavesLedger hsound h

/-- **The event log accounts for the ledger** in every state of a run in which only mints
reach the ledger and the network stays the same. -/
theorem log_accounts_for_ledger {s : Session}
    (hs : Reachable (fun s a => a.MintsOnly Settings.network s.env) s) :
    s.world.storage.Audited s.env.settings :=
  audited_keptByMints.of_reachable hs

/-- A mint inside layers that are yet to be given up. -/
theorem log_accounts_inside_layers :
    (Devnet.initial.perform 2 (.mint Devnet.request)).2.world.storage.book.supply
        Devnet.request.denom = 1000 ∧
      (Devnet.initial.perform 2 (.mint Devnet.request)).2.world.storage.book.balance
        (.filled 2) Devnet.request.denom = 1000 := by
  have hs : Reachable (fun s a => a.MintsOnly Settings.network s.env)
      (Devnet.initial.perform 2 (.mint Devnet.request)).2 := by
    refine ⟨Devnet.initial.env, [.layer 2 false [.act (.mint Devnet.request)]], 2, ?_, ?_⟩
    · simp only [Step.AllMeet, Step.Meets]
      exact ⟨fun _ => ⟨⟨Action.LeavesLedgers.leavesLedger rfl, rfl⟩, trivial⟩, trivial⟩
    · refine .inside (by decide) (.later ?_)
      rw [Step.run_act]
      exact .here
  have haudited := log_accounts_for_ledger hs
  have hr : Mint.review Devnet.initial.env Devnet.request = .ok _ :=
    Devnet.review_request ⟨false, false⟩
  obtain ⟨st, hd, hlog⟩ : ∃ st, Mint.deliver Devnet.initial.env 2 (.filled 2)
      ⟨Devnet.request.denom, Devnet.request.amount⟩ Devnet.initial.world.storage =
      ([.mint, .send], .ok st) ∧ st.events = [] := ⟨_, rfl, rfl⟩
  rw [perform_env, storage_perform_mint, Mint.storage_of_deliver hr hd, hlog] at haudited
  rw [storage_perform_mint, Mint.storage_of_deliver hr hd, hlog]
  have hbook : Storage.BookAudited _ _ := haudited
  have htext : Address.decode? Devnet.settings.network Devnet.request.recipient =
      some (.filled 2) := Settings.account?_addressOf (s := Devnet.settings) (by decide) _
  constructor
  · rw [hbook.supply_eq]
    exact Event.issued_append_singleton [] _ _
  · rw [hbook.balance_eq]
    dsimp only
    rw [Event.delivered_append_singleton, if_pos ⟨rfl, htext⟩]
    rfl

end Session

end Mintage
