import Mintage.Proofs.Blindness
import Mintage.Proofs.BookMint
import Mintage.Proofs.HoldingAccount

/-!
# The order of mints

On the book a mint reads nothing that other mints write but the supply, and that only grows by
what is asked for.  So whether a list of requests is carried out depends on what the single
requests meet and on sums over the list, and so does all that it leaves, apart from the order of
the events:

    s.AllMinted depth rs ↔ (∀ r ∈ rs, Mint.Ready s.env depth r) ∧
      ∀ d, supply d + asked rs d < Amount.limit                            (allMinted_iff)
    s.AllMinted depth rs → s.MintedAll rs (s.mintAll depth rs)                (mintedAll)
    rs.Perm rs' → all of rs are carried out → all of rs' are, to the same end
                                                                         (mints_commute)
-/

namespace Mintage

/-! ## Definitions -/

namespace MintRequest

/-- The sum of the amounts of the requests in `p`. -/
def amounts (rs : List MintRequest) (p : MintRequest → Bool) : Nat :=
  (rs.map fun r => if p r then r.amount.toNat else 0).sum

/-- How much of a denomination is asked for. -/
def asked (rs : List MintRequest) (d : Bytes) : Nat := amounts rs fun r => r.denom = d

/-- How much of a denomination is asked for on behalf of an account. -/
def askedFor (settings : Settings) (rs : List MintRequest) (a : Account) (d : Bytes) : Nat :=
  amounts rs fun r => settings.account? r.recipient = some a ∧ r.denom = d

end MintRequest

/-- Nothing but the supply can stand in the way of the request on the book. -/
structure Mint.Ready (env : Environment) (depth : Nat) (r : MintRequest) : Prop where
  reviewed : ∃ c, review env r = .ok c
  depth_lt : depth < 254
  mints_on : env.switches.refuseMints = false
  transfers_on : env.switches.refuseTransfers = false

namespace Session

/-- Carries out the requests one after another, with nothing in between. -/
def mintAll (s : Session) (depth : Nat) (rs : List MintRequest) : List Entry × Session :=
  Step.runAll depth (rs.map fun r => .act (.mint r)) s

/-- Every request is carried out. -/
def AllMinted (s : Session) (depth : Nat) (rs : List MintRequest) : Prop :=
  ∀ e ∈ (s.mintAll depth rs).1, e.answer.Minted

/-- What requests that were all carried out are answered, and what they leave: `s` is the
session before them. -/
structure MintedAll (s : Session) (rs : List MintRequest) (run : List Entry × Session) :
    Prop where
  answers_eq : run.1.map Entry.answer =
    rs.map fun r => .mint (.ok ⟨s.env.settings.addressOf r.caller, r.recipient, r.amount, r.denom⟩)
  env_eq : run.2.env = s.env
  supply_eq : ∀ d, run.2.world.storage.book.supply d =
    s.world.storage.book.supply d + MintRequest.asked rs d
  balance_eq : ∀ a d, run.2.world.storage.book.balance a d =
    s.world.storage.book.balance a d + MintRequest.askedFor s.env.settings rs a d
  currency_eq : run.2.world.storage.currency = s.world.storage.currency
  events_eq : run.2.world.storage.events = s.world.storage.events ++
    rs.map fun r =>
      .tokensMinted (s.env.settings.addressOf r.caller) r.recipient r.amount r.denom

end Session

/-! ## Sums over requests -/

namespace MintRequest

theorem amounts_cons (r : MintRequest) (rs : List MintRequest) (p : MintRequest → Bool) :
    amounts (r :: rs) p = (if p r then r.amount.toNat else 0) + amounts rs p :=
  List.sum_cons

/-- A sum does not depend on the order. -/
theorem amounts_perm {rs rs' : List MintRequest} (h : rs.Perm rs') (p : MintRequest → Bool) :
    amounts rs p = amounts rs' p :=
  (h.map _).sum_nat

theorem asked_cons (r : MintRequest) (rs : List MintRequest) (d : Bytes) :
    asked (r :: rs) d = (if r.denom = d then r.amount.toNat else 0) + asked rs d := by
  unfold asked
  rw [amounts_cons]
  simp only [decide_eq_true_eq]

theorem askedFor_cons (settings : Settings) (r : MintRequest) (rs : List MintRequest)
    (a : Account) (d : Bytes) :
    askedFor settings (r :: rs) a d =
      (if settings.account? r.recipient = some a ∧ r.denom = d then r.amount.toNat else 0) +
        askedFor settings rs a d := by
  unfold askedFor
  rw [amounts_cons]
  simp only [decide_eq_true_eq]

end MintRequest

/-! ## One request -/

/-- A delivery on the book succeeds below the layer limit if no switch is on and the supply has
room for the coin. -/
theorem Mint.exists_deliver_on_book_iff {env : Environment} (hb : env.settings.ledger = .book)
    (depth : Nat) (who : Account) (c : Coin) (st : Storage) :
    (∃ st', (deliver env depth who c st).2 = .ok st') ↔
      (depth < 254 ∧ env.switches.refuseMints = false ∧ env.switches.refuseTransfers = false) ∧
        st.book.supply c.denom + c.amount.toNat < Amount.limit := by
  rw [deliver_on_book hb]
  by_cases hfull : 255 ≤ depth
  · simp [hfull, Nat.not_lt_of_le (Nat.le_trans (by decide : 254 ≤ 255) hfull)]
  by_cases hm : env.switches.refuseMints = true
  · simp [hfull, hm]
  by_cases hlast : depth = 254
  · simp [hm, hlast]
  by_cases hover : Amount.limit ≤ st.book.supply c.denom + c.amount.toNat
  · simp [hfull, hm, hlast, hover, Nat.not_lt_of_le hover]
  by_cases ht : env.switches.refuseTransfers = true
  · simp [hfull, hm, hlast, hover, ht]
  · have hdepth : depth < 254 := by omega
    simp [hfull, hm, hlast, hover, ht, hdepth, Nat.lt_of_not_le hover]

namespace Session

variable {s : Session} {depth : Nat} {r : MintRequest} {rs rs' : List MintRequest}

/-- On the book a request is carried out if it is ready and the supply has room for it. -/
theorem minted_iff (hb : s.env.settings.ledger = .book) :
    (s.perform depth (.mint r)).1.Minted ↔ Mint.Ready s.env depth r ∧
      s.world.storage.book.supply r.denom + r.amount.toNat < Amount.limit := by
  rw [perform_mint]
  cases hr : Mint.review s.env r with
  | error e =>
    rw [Mint.mint_of_review_error hr]
    constructor
    · exact fun h => absurd h id
    · rintro ⟨⟨⟨c, hc⟩, -⟩, -⟩
      rw [hr] at hc
      cases hc
  | ok c =>
    obtain ⟨-, -, -, -, -, -, -, hcoin⟩ := Mint.review_eq_ok_iff.mp hr
    have hready : Mint.Ready s.env depth r ↔ depth < 254 ∧
        s.env.switches.refuseMints = false ∧ s.env.switches.refuseTransfers = false :=
      ⟨fun h => ⟨h.depth_lt, h.mints_on, h.transfers_on⟩, fun h => ⟨⟨c, hr⟩, h.1, h.2.1, h.2.2⟩⟩
    have hok := Mint.exists_deliver_on_book_iff hb depth c.recipient c.coin s.world.storage
    rcases hd : Mint.deliver s.env depth c.recipient c.coin s.world.storage with ⟨calls, e | st⟩
    · rw [hd, hcoin] at hok
      rw [Mint.answer_of_deliver hr hd, hready, ← hok]
      exact ⟨fun h => absurd h id, fun ⟨_, h⟩ => by cases h⟩
    · rw [hd, hcoin] at hok
      rw [Mint.answer_of_deliver hr hd, hready, ← hok]
      exact ⟨fun _ => ⟨st, rfl⟩, fun _ => trivial⟩

/-- A request that is carried out is answered by its record; its coins are put where they were
to go and its event is appended. -/
theorem perform_of_minted (hb : s.env.settings.ledger = .book)
    (h : (s.perform depth (.mint r)).1.Minted) :
    ∃ who, s.env.settings.account? r.recipient = some who ∧
      (s.perform depth (.mint r)).1 =
        .mint (.ok ⟨s.env.settings.addressOf r.caller, r.recipient, r.amount, r.denom⟩) ∧
      (s.perform depth (.mint r)).2.world.storage = { s.world.storage with
        book := s.world.storage.book.forward s.env.settings.holding who r.denom r.amount.toNat
        events := s.world.storage.events ++
          [.tokensMinted (s.env.settings.addressOf r.caller) r.recipient r.amount r.denom] } := by
  rw [perform_mint] at h ⊢
  rcases hm : mint s.env depth r s.world with ⟨e | rec, w'⟩
  · rw [hm] at h
    exact absurd h id
  · obtain ⟨who, hwho, rfl, hst, -⟩ := Mint.mint_on_book_ok hb hm
    exact ⟨who, hwho, rfl, hst⟩

/-! ## Lists of requests -/

theorem mintAll_cons (s : Session) (depth : Nat) (r : MintRequest) (rs : List MintRequest) :
    s.mintAll depth (r :: rs) =
      (.ofAnswer (s.perform depth (.mint r)).1 s (s.perform depth (.mint r)).2 ::
        ((s.perform depth (.mint r)).2.mintAll depth rs).1,
        ((s.perform depth (.mint r)).2.mintAll depth rs).2) := by
  unfold mintAll
  rw [List.map_cons, Step.runAll, Step.run]

theorem allMinted_cons (s : Session) (depth : Nat) (r : MintRequest) (rs : List MintRequest) :
    s.AllMinted depth (r :: rs) ↔ (s.perform depth (.mint r)).1.Minted ∧
      (s.perform depth (.mint r)).2.AllMinted depth rs := by
  unfold AllMinted
  rw [mintAll_cons, List.forall_mem_cons]
  rfl

/-- **Which lists are carried out** is told by each request alone and by the sums. -/
theorem allMinted_iff (hb : s.env.settings.ledger = .book)
    (hlt : ∀ d, s.world.storage.book.supply d < Amount.limit) :
    s.AllMinted depth rs ↔ (∀ r ∈ rs, Mint.Ready s.env depth r) ∧
      ∀ d, s.world.storage.book.supply d + MintRequest.asked rs d < Amount.limit := by
  induction rs generalizing s with
  | nil =>
    constructor
    · exact fun _ => ⟨fun r hr => absurd hr List.not_mem_nil, hlt⟩
    · exact fun _ e he => absurd he List.not_mem_nil
  | cons r rs ih =>
    rw [allMinted_cons, List.forall_mem_cons]
    by_cases hminted : (s.perform depth (.mint r)).1.Minted
    · obtain ⟨hready, hroom⟩ := (minted_iff hb).mp hminted
      obtain ⟨who, -, -, hst⟩ := perform_of_minted hb hminted
      have henv : (s.perform depth (.mint r)).2.env = s.env := perform_env depth (.mint r) s
      have hsupply : ∀ d, (s.perform depth (.mint r)).2.world.storage.book.supply d =
          s.world.storage.book.supply d + if r.denom = d then r.amount.toNat else 0 := by
        intro d
        rw [hst]
        show (s.world.storage.book.forward _ _ _ _).supply d = _
        rw [Book.supply_forward]
        by_cases hd : d = r.denom
        · rw [if_pos hd, if_pos hd.symm]
        · rw [if_neg hd, if_neg (Ne.symm hd)]
          rfl
      have hlt' : ∀ d,
          (s.perform depth (.mint r)).2.world.storage.book.supply d < Amount.limit := by
        intro d
        rw [hsupply]
        split
        · next hd => rwa [← hd]
        · exact hlt d
      rw [ih (by rw [henv]; exact hb) hlt', henv]
      simp only [hsupply, MintRequest.asked_cons, Nat.add_assoc]
      exact ⟨fun h => ⟨⟨hready, h.2.1⟩, h.2.2⟩, fun h => ⟨hminted, h.1.2, h.2⟩⟩
    · refine ⟨fun h => absurd h.1 hminted, fun ⟨⟨hready, _⟩, hsum⟩ => absurd ?_ hminted⟩
      have hroom := hsum r.denom
      rw [MintRequest.asked_cons, if_pos rfl] at hroom
      exact (minted_iff hb).mpr ⟨hready, by omega⟩

/-- One more request in front. -/
theorem MintedAll.cons (hb : s.env.settings.ledger = .book)
    (hminted : (s.perform depth (.mint r)).1.Minted)
    (h : (s.perform depth (.mint r)).2.MintedAll rs
      ((s.perform depth (.mint r)).2.mintAll depth rs)) :
    s.MintedAll (r :: rs) (s.mintAll depth (r :: rs)) := by
  obtain ⟨who, hwho, hanswer, hst⟩ := perform_of_minted hb hminted
  have henv : (s.perform depth (.mint r)).2.env = s.env := perform_env depth (.mint r) s
  obtain ⟨hanswers, henv', hsupply, hbalance, hcurrency, hevents⟩ := h
  rw [henv] at hanswers henv' hbalance hevents
  rw [hst] at hsupply hbalance hcurrency hevents
  rw [mintAll_cons]
  refine ⟨?_, henv', fun d => ?_, fun a d => ?_, hcurrency, ?_⟩
  · rw [List.map_cons, List.map_cons, hanswers]
    exact congrArg (· :: _) hanswer
  · dsimp only at hsupply ⊢
    rw [hsupply, Book.supply_forward, MintRequest.asked_cons, ← Nat.add_assoc]
    by_cases hd : d = r.denom
    · rw [if_pos hd, if_pos hd.symm]
    · rw [if_neg hd, if_neg (Ne.symm hd), Nat.add_zero]
  · dsimp only at hbalance ⊢
    rw [hbalance, Book.balance_forward, MintRequest.askedFor_cons, ← Nat.add_assoc, hwho]
    by_cases had : a = who ∧ d = r.denom
    · rw [if_pos had, if_pos ⟨congrArg some had.1.symm, had.2.symm⟩]
    · have hne : ¬ (some who = some a ∧ r.denom = d) := fun hne =>
        had ⟨(Option.some.inj hne.1).symm, hne.2.symm⟩
      rw [if_neg had, if_neg hne, Nat.add_zero]
  · dsimp only at hevents ⊢
    rw [hevents, List.append_assoc, List.map_cons]
    rfl

/-- **What a list of requests leaves** that were all carried out. -/
theorem mintedAll (hb : s.env.settings.ledger = .book) (h : s.AllMinted depth rs) :
    s.MintedAll rs (s.mintAll depth rs) := by
  induction rs generalizing s with
  | nil => exact ⟨rfl, rfl, fun _ => rfl, fun _ _ => rfl, rfl, (List.append_nil _).symm⟩
  | cons r rs ih =>
    obtain ⟨hminted, hrest⟩ := (allMinted_cons s depth r rs).mp h
    refine .cons hb hminted (ih ?_ hrest)
    rw [perform_env]
    exact hb

/-- Mints are no endowments. -/
theorem allMeet_mints (s : Session) (depth : Nat) (rs : List MintRequest) :
    Step.AllMeet (fun s a => a.EndowsInRange s) depth (rs.map fun r => .act (.mint r)) s := by
  induction rs generalizing s with
  | nil =>
    rw [List.map_nil, Step.AllMeet]
    trivial
  | cons r rs ih =>
    rw [List.map_cons, Step.AllMeet, Step.Meets]
    exact ⟨trivial, ih _⟩

/-! ## Top theorem -/

/-- **Mints commute.**  Requests that are all carried out on the book in one order are all
carried out in every order.  Each is answered by its record, whatever stands before it; supplies
and balances are the same in the end, and the events stand in the order of the requests.  On the
way no credit leaves the range of amounts. -/
theorem mints_commute {s : Session} (hs : Reachable (fun s a => a.EndowsInRange s) s)
    (hb : s.env.settings.ledger = .book) {depth : Nat} {rs rs' : List MintRequest}
    (hperm : rs.Perm rs') (hall : s.AllMinted depth rs) :
    s.AllMinted depth rs' ∧
    s.MintedAll rs (s.mintAll depth rs) ∧ s.MintedAll rs' (s.mintAll depth rs') ∧
    (∀ d, (s.mintAll depth rs').2.world.storage.book.supply d =
      (s.mintAll depth rs).2.world.storage.book.supply d) ∧
    (∀ a d, (s.mintAll depth rs').2.world.storage.book.balance a d =
      (s.mintAll depth rs).2.world.storage.book.balance a d) ∧
    ∀ depth' t, Step.Visits depth (rs'.map fun r => .act (.mint r)) s depth' t →
      ∀ c, t.world.storage.book.CreditsInRange t.env.settings.holding c := by
  have hsound : s.world.storage.book.Sound := book_sound_of_reachable hs
  obtain ⟨hready, hroom⟩ := (allMinted_iff hb hsound.supply_lt).mp hall
  have hasked : ∀ d, MintRequest.asked rs' d = MintRequest.asked rs d := fun d =>
    MintRequest.amounts_perm hperm.symm _
  have hall' : s.AllMinted depth rs' := by
    refine (allMinted_iff hb hsound.supply_lt).mpr ⟨fun r hr => hready r (hperm.mem_iff.mpr hr), ?_⟩
    intro d
    rw [hasked]
    exact hroom d
  have hrun := mintedAll hb hall
  have hrun' := mintedAll hb hall'
  refine ⟨hall', hrun, hrun', fun d => ?_, fun a d => ?_, fun depth' t hv c => ?_⟩
  · rw [hrun.supply_eq, hrun'.supply_eq, hasked]
  · have haskedFor : MintRequest.askedFor s.env.settings rs' a d =
        MintRequest.askedFor s.env.settings rs a d := MintRequest.amounts_perm hperm.symm _
    rw [hrun.balance_eq, hrun'.balance_eq, haskedFor]
  · have hsound' : t.world.storage.book.Sound :=
      kept_book_sound.visits hv (allMeet_mints s depth rs') hsound
    exact hsound'.creditsInRange _ c

end Session

/-! ## Two requests of the development network -/

namespace Devnet

theorem ready_of_review {r : MintRequest} {c : Clearance} (h : Mint.review initial.env r = .ok c) :
    Mint.Ready endowed.env 3 r := ⟨⟨c, h⟩, by decide, rfl, rfl⟩

/-- The supply of the endowed network has room for both requests. -/
theorem allMinted_endowed : endowed.AllMinted 3 [request, toHolding] := by
  have hsound := Session.book_sound_of_reachable reachable_endowed
  rw [Session.allMinted_iff rfl hsound.supply_lt]
  constructor
  · rw [List.forall_mem_cons, List.forall_mem_singleton]
    exact ⟨ready_of_review review_initial, ready_of_review review_toHolding⟩
  · intro d
    have hasked : MintRequest.asked [request, toHolding] d =
        (if request.denom = d then 1000 else 0) +
          ((if request.denom = d then 1000 else 0) + 0) := by
      rw [MintRequest.asked_cons, MintRequest.asked_cons]
      rfl
    show (Book.empty.endow settings.holding request.denom 5).supply d + _ < _
    rw [Book.supply_endow, hasked]
    by_cases hd : d = request.denom
    · rw [if_pos hd, if_pos hd.symm, Book.supply_empty]
      decide
    · rw [if_neg hd, if_neg (Ne.symm hd), Book.supply_empty]
      decide

end Devnet

namespace Session

/-- The coins for the holding account may come first. -/
theorem commuted_on_endowed :
    Devnet.endowed.AllMinted 3 [Devnet.toHolding, Devnet.request] ∧
      (Devnet.endowed.mintAll 3 [Devnet.toHolding, Devnet.request]).2.world.storage.book.supply
        Devnet.request.denom = 2005 := by
  have hperm : [Devnet.request, Devnet.toHolding].Perm [Devnet.toHolding, Devnet.request] :=
    .swap _ _ _
  obtain ⟨hall, -, hrun, -⟩ :=
    mints_commute Devnet.reachable_endowed rfl hperm Devnet.allMinted_endowed
  refine ⟨hall, ?_⟩
  rw [hrun.supply_eq]
  decide +kernel

end Session

end Mintage
