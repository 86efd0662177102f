import Mintage.Proofs.Atomicity
import Mintage.Proofs.BookSum
import Mintage.Proofs.Objections

/-!
# A mint on the book

Coins pass through the holding account, which may also be the recipient and may hold
coins already.  Issuing to it and sending on comes to the same as issuing to the recipient
(`forward`), so a delivery on the book is decided by five conditions (`deliver_on_book`):

    a mint answers by the first objection to it, or its record             (mint_is_ruled)
    a mint that answers a record raised one supply and one balance by the amount,
      made two calls and left one event                                  (minted_on_book)

The sum of the balances carries both: no credit on the way leaves the range of amounts.
-/

namespace Mintage

/-! ## Definitions -/

namespace Book

/-- The book after coins were created for `holding` and sent on to `who`. -/
def forward (b : Book) (holding who : Account) (denom : Bytes) (n : Nat) : Book :=
  (b.endow holding denom n).shift holding who denom n

/-- Every balance is an amount after the coin was issued, and after it was sent on. -/
def CreditsInRange (b : Book) (holding : Account) (c : Coin) : Prop :=
  ∀ b₁, b.issue holding c = .ok b₁ →
    (∀ a d, b₁.balance a d < Amount.limit) ∧
    ∀ who b₂, b₁.move holding who c = .ok b₂ → ∀ a d, b₂.balance a d < Amount.limit

end Book

namespace Mint

/-- The objections of the book to coins for `who`, in order. -/
def bookObjections (env : Environment) (depth : Nat) (b : Book) (who : Account) (c : Coin) :
    List (Option MintError) :=
  [ objection (255 ≤ depth) (.mintFailed c.denom .layerLimit),
    objection (env.switches.refuseMints = true) (.mintFailed c.denom .mintingDisabled),
    objection (depth = 254) (.mintFailed c.denom .layerLimit),
    objection (Amount.limit ≤ b.supply c.denom + c.amount.toNat) (.mintFailed c.denom .overflow),
    objection (env.switches.refuseTransfers = true) (.transferFailed who .transfersDisabled) ]

end Mint

namespace Session

/-- All objections to a mint on the book, in order. -/
def objections (s : Session) (depth : Nat) (r : MintRequest) : List (Option MintError) :=
  Mint.callerObjections s.env s.world r.caller ++ Mint.textObjections s.env.settings r ++
    match s.env.settings.account? r.recipient with
    | none => []
    | some who => Mint.bookObjections s.env depth s.world.storage.book who ⟨r.denom, r.amount⟩

/-- The first objection, or the record where there is none. -/
def ruling (s : Session) (depth : Nat) (r : MintRequest) : Except MintError MintRecord :=
  match (s.objections depth r).findSome? id with
  | some e => .error e
  | none => .ok ⟨s.env.settings.addressOf r.caller, r.recipient, r.amount, r.denom⟩

/-- What a mint on the book that answered `rec` has done: `s` is the session before it,
`s'` the one after it and `who` the account that the recipient names. -/
structure MintedOnBook (s s' : Session) (r : MintRequest) (rec : MintRecord) (who : Account) :
    Prop where
  env_eq : s'.env = s.env
  currency_eq : s'.world.storage.currency = s.world.storage.currency
  supply_eq : ∀ d, s'.world.storage.book.supply d =
    if d = r.denom then s.world.storage.book.supply d + r.amount.toNat
    else s.world.storage.book.supply d
  balance_eq : ∀ a d, s'.world.storage.book.balance a d =
    if a = who ∧ d = r.denom then s.world.storage.book.balance a d + r.amount.toNat
    else s.world.storage.book.balance a d
  supply_lt : ∀ d, s'.world.storage.book.supply d < Amount.limit
  balance_lt : ∀ a d, s'.world.storage.book.balance a d < Amount.limit
  calls_eq : s'.world.calls = s.world.calls ++ [.mint, .send]
  record_eq : rec = ⟨s.env.settings.addressOf r.caller, r.recipient, r.amount, r.denom⟩
  events_eq : s'.world.storage.events = s.world.storage.events ++
    [.tokensMinted (s.env.settings.addressOf r.caller) r.recipient r.amount r.denom]
  encode_eq : (Event.tokensMinted (s.env.settings.addressOf r.caller) r.recipient r.amount
    r.denom).encode = 0 :: rec.encode

end Session

/-! ## Through the holding account -/

namespace Book

theorem supply_forward (b : Book) (holding who : Account) (denom : Bytes) (n : Nat)
    (d : Bytes) :
    (b.forward holding who denom n).supply d =
      if d = denom then b.supply d + n else b.supply d := by
  unfold forward
  rw [supply_shift, supply_endow]

/-- The holding account is left with what it held, also where it is the recipient. -/
theorem balance_forward (b : Book) (holding who : Account) (denom : Bytes) (n : Nat)
    (a : Account) (d : Bytes) :
    (b.forward holding who denom n).balance a d =
      if a = who ∧ d = denom then b.balance a d + n else b.balance a d := by
  unfold forward
  rw [balance_shift, balance_endow, balance_endow]
  by_cases hh : a = holding ∧ d = denom
  · obtain ⟨rfl, rfl⟩ := hh
    simp only [and_self, if_true]
    split <;> omega
  · simp only [if_neg hh]
    split <;> omega

/-- Coins that were just issued can be sent on. -/
theorem move_of_endow (b : Book) (holding who : Account) (c : Coin) :
    (b.endow holding c.denom c.amount.toNat).move holding who c =
      .ok (b.forward holding who c.denom c.amount.toNat) := by
  rw [move_eq_ok_iff]
  refine ⟨?_, rfl⟩
  rw [balance_endow, if_pos ⟨rfl, rfl⟩]
  omega

theorem issueAll_singleton (b : Book) (who : Account) (c : Coin) :
    b.issueAll who [c] = b.issue who c := by
  unfold issueAll
  rw [List.foldlM_cons]
  simp only [List.foldlM_nil, bind_pure]

theorem moveAll_singleton (b : Book) (sender receiver : Account) (c : Coin) :
    b.moveAll sender receiver [c] = b.move sender receiver c := by
  unfold moveAll
  rw [List.foldlM_cons]
  simp only [List.foldlM_nil, bind_pure]

theorem Sound.creditsInRange {b : Book} (h : b.Sound) (holding : Account) (c : Coin) :
    b.CreditsInRange holding c := by
  intro b₁ hi
  have h₁ : b₁.Sound := h.issue hi
  refine ⟨h₁.balance_lt, ?_⟩
  intro who b₂ hm
  exact (h₁.move hm).balance_lt

end Book

/-! ## Deliveries on the book -/

namespace Mint

/-- A delivery on the book: which calls were made, and the storage or the error. -/
theorem deliver_on_book {env : Environment} (hb : env.settings.ledger = .book) (depth : Nat)
    (who : Account) (c : Coin) (st : Storage) :
    deliver env depth who c st =
      if 255 ≤ depth then ([], .error (.mintFailed c.denom .layerLimit))
      else if env.switches.refuseMints = true then
        ([.mint], .error (.mintFailed c.denom .mintingDisabled))
      else if depth = 254 then ([.mint], .error (.mintFailed c.denom .layerLimit))
      else if Amount.limit ≤ st.book.supply c.denom + c.amount.toNat then
        ([.mint], .error (.mintFailed c.denom .overflow))
      else if env.switches.refuseTransfers = true then
        ([.mint, .send], .error (.transferFailed who .transfersDisabled))
      else
        ([.mint, .send], .ok { st with
          book := st.book.forward env.settings.holding who c.denom c.amount.toNat }) := by
  have hmax : maxLayers = 255 := rfl
  unfold deliver deliverOn Ledger.mintStep Ledger.sendStep Ledger.mintCalls Ledger.sendCalls
  rw [hb, hmax]
  by_cases hd : 255 ≤ depth
  · rw [if_pos hd, if_pos hd]
  rw [if_neg hd, if_neg hd]
  dsimp only
  cases hm : env.switches.refuseMints with
  | true => rfl
  | false =>
    unfold switched layered
    rw [hmax]
    by_cases hl : depth = 254
    · subst hl
      rfl
    have hl' : ¬ 255 ≤ depth + 1 := by omega
    simp only [hl, hl', if_false, Bool.false_eq_true, Book.issueAll_singleton]
    by_cases ho : Amount.limit ≤ st.book.supply c.denom + c.amount.toNat
    · have hi : st.book.issue env.settings.holding c = .error .overflow := if_neg (by omega)
      rw [if_pos ho, hi]
      rfl
    · have hi : st.book.issue env.settings.holding c =
          .ok (st.book.endow env.settings.holding c.denom c.amount.toNat) :=
        if_pos (Nat.lt_of_not_le ho)
      rw [if_neg ho, hi]
      dsimp only [Storage.withBook, Except.map]
      rw [Book.moveAll_singleton, Book.move_of_endow]
      cases env.switches.refuseTransfers with
      | true => rfl
      | false => rfl

/-- A delivery on the book that succeeds made both calls and put the coins where they were
to go. -/
theorem deliver_on_book_ok {env : Environment} (hb : env.settings.ledger = .book) {depth : Nat}
    {who : Account} {c : Coin} {st st' : Storage} {calls : List LedgerCall}
    (h : deliver env depth who c st = (calls, .ok st')) :
    calls = [.mint, .send] ∧ st' = { st with
      book := st.book.forward env.settings.holding who c.denom c.amount.toNat } := by
  rw [deliver_on_book hb] at h
  split at h
  · cases h
  · split at h
    · cases h
    · split at h
      · cases h
      · split at h
        · cases h
        · split at h
          · cases h
          · cases h
            exact ⟨rfl, rfl⟩

/-- The world after a mint on the book that answered a record. -/
theorem mint_on_book_ok {env : Environment} (hb : env.settings.ledger = .book) {depth : Nat}
    {r : MintRequest} {w w' : World} {rec : MintRecord}
    (h : mint env depth r w = (.ok rec, w')) :
    ∃ who, env.settings.account? r.recipient = some who ∧
      rec = ⟨env.settings.addressOf r.caller, r.recipient, r.amount, r.denom⟩ ∧
      w'.storage = { w.storage with
        book := w.storage.book.forward env.settings.holding who r.denom r.amount.toNat
        events := w.storage.events ++
          [.tokensMinted (env.settings.addressOf r.caller) r.recipient r.amount r.denom] } ∧
      w'.calls = w.calls ++ [.mint, .send] := by
  obtain ⟨c, calls, st, hr, hd, hrec, hst, hcalls⟩ := mint_ok_inv h
  obtain ⟨-, -, hwho, -, -, -, hminter, hcoin⟩ := review_eq_ok_iff.mp hr
  obtain ⟨rfl, hbook⟩ := deliver_on_book_ok hb hd
  refine ⟨c.recipient, hwho, ?_, ?_, hcalls⟩
  · rw [hrec, ← hminter]
    rfl
  · rw [hst, hbook, hcoin, ← hminter]
    rfl

theorem findSome?_bookObjections {env : Environment} (hb : env.settings.ledger = .book)
    (depth : Nat) (who : Account) (c : Coin) (st : Storage) :
    (bookObjections env depth st.book who c).findSome? id =
      error? (deliver env depth who c st).2 := by
  rw [deliver_on_book hb]
  unfold bookObjections objection
  split
  · rfl
  · split
    · rfl
    · split
      · rfl
      · split
        · rfl
        · split
          · rfl
          · rfl

end Mint

/-! ## The development network, holding coins -/

namespace Devnet

/-- 5 `fei` for the account that coins pass through. -/
def endowment : Action := .endow settings.holding request.denom ⟨5, by decide⟩

/-- The development network after the endowment. -/
def endowed : Session := (initial.perform 0 endowment).2

theorem reachable_endowed : Session.Reachable (fun s a => a.EndowsInRange s) endowed := by
  refine ⟨initial.env, [.act endowment], 0, ?_, .later .here⟩
  rw [Step.AllMeet, Step.Meets, Step.AllMeet]
  refine ⟨?_, trivial⟩
  show Book.empty.supply request.denom + 5 < Amount.limit
  decide

/-- The request passes its review there too. -/
theorem review_endowed : Mint.review endowed.env request =
    .ok ⟨settings.addressOf minter, .filled 2, ⟨request.denom, request.amount⟩⟩ :=
  review_request ⟨false, false⟩

end Devnet

namespace Session

/-- A mint on the book answers what its ruling says, in any session. -/
theorem answer_eq_ruling {s : Session} (hb : s.env.settings.ledger = .book) (depth : Nat)
    (r : MintRequest) : (Mintage.mint s.env depth r s.world).1 = s.ruling depth r := by
  unfold ruling objections
  exact Mint.answer_eq_first fun who =>
    Mint.findSome?_bookObjections hb depth who ⟨r.denom, r.amount⟩ s.world.storage

/-! ## Top theorems -/

/-- **The answer of a mint on the book** is the first of the objections, or the record; on
the way no credit leaves the range of amounts. -/
theorem mint_is_ruled {s : Session} (hs : Reachable (fun s a => a.EndowsInRange s) s)
    (hb : s.env.settings.ledger = .book) (depth : Nat) (r : MintRequest) :
    (s.perform depth (.mint r)).1 = .mint (s.ruling depth r) ∧
    s.world.storage.book.CreditsInRange s.env.settings.holding ⟨r.denom, r.amount⟩ := by
  refine ⟨?_, (book_sound_of_reachable hs).creditsInRange _ _⟩
  rw [perform_mint, answer_eq_ruling hb]

/-- One layer below the limit the book is asked and has no layer left. -/
theorem ruled_below_limit :
    Devnet.endowed.ruling 254 Devnet.request =
      .error (.mintFailed Devnet.request.denom .layerLimit) := by
  have hd : Mint.deliver Devnet.endowed.env 254 (.filled 2)
      ⟨Devnet.request.denom, Devnet.request.amount⟩ Devnet.endowed.world.storage =
      ([.mint], .error (.mintFailed Devnet.request.denom .layerLimit)) := rfl
  have ha := (mint_is_ruled Devnet.reachable_endowed rfl 254 Devnet.request).1
  rw [perform_mint, Mint.answer_of_deliver Devnet.review_endowed hd] at ha
  exact (Answer.mint.inj ha).symm

/-- **The effect of a mint on the book** that answers a record. -/
theorem minted_on_book {s : Session} (hs : Reachable (fun s a => a.EndowsInRange s) s)
    (hb : s.env.settings.ledger = .book) (depth : Nat) {r : MintRequest} {rec : MintRecord}
    (hok : (s.perform depth (.mint r)).1 = .mint (.ok rec)) :
    ∃ who, s.env.settings.account? r.recipient = some who ∧
      MintedOnBook s (s.perform depth (.mint r)).2 r rec who := by
  have hsound : (s.perform depth (.mint r)).2.world.storage.book.Sound :=
    (perform_effect depth (.mint r) s).book_sound trivial (book_sound_of_reachable hs)
  rw [perform_mint] at hok hsound ⊢
  rcases hm : Mintage.mint s.env depth r s.world with ⟨e | rec', w'⟩
  · rw [hm] at hok
    cases hok
  · rw [hm] at hok hsound
    cases hok
    obtain ⟨who, hwho, hrec, hst, hcalls⟩ := Mint.mint_on_book_ok hb hm
    refine ⟨who, hwho, rfl, ?_, ?_, ?_, hsound.supply_lt, hsound.balance_lt, hcalls, hrec, ?_, ?_⟩
    · show w'.storage.currency = _
      rw [hst]
    · intro d
      show w'.storage.book.supply d = _
      rw [hst]
      exact Book.supply_forward _ _ _ _ _ _
    · intro a d
      show w'.storage.book.balance a d = _
      rw [hst]
      exact Book.balance_forward _ _ _ _ _ _ _
    · show w'.storage.events = _
      rw [hst]
    · rw [hrec]
      rfl

/-- What the holding account held before is what it holds after. -/
theorem minted_on_endowed :
    (Devnet.endowed.perform 0 (.mint Devnet.request)).2.world.storage.book.balance
        Devnet.settings.holding Devnet.request.denom = 5 ∧
      (Devnet.endowed.perform 0 (.mint Devnet.request)).2.world.storage.book.supply
        Devnet.request.denom = 1005 := by
  obtain ⟨st, hd⟩ : ∃ st, Mint.deliver Devnet.endowed.env 0 (.filled 2)
      ⟨Devnet.request.denom, Devnet.request.amount⟩ Devnet.endowed.world.storage =
      ([.mint, .send], .ok st) := ⟨_, rfl⟩
  have hok : (Devnet.endowed.perform 0 (.mint Devnet.request)).1 =
      .mint (.ok (Mint.record Devnet.request (Devnet.settings.addressOf Devnet.minter))) := by
    rw [perform_mint, Mint.answer_of_deliver Devnet.review_endowed hd]
    rfl
  obtain ⟨who, hwho, hminted⟩ := minted_on_book Devnet.reachable_endowed rfl 0 hok
  have hwho' : who = .filled 2 := by
    have htext := Settings.account?_addressOf (s := Devnet.settings) (by decide) (.filled 2)
    exact Option.some.inj (hwho.symm.trans htext)
  subst hwho'
  have hheld : Devnet.endowed.world.storage.book.balance Devnet.settings.holding
      Devnet.request.denom = 5 := by decide +kernel
  have hsupply : Devnet.endowed.world.storage.book.supply Devnet.request.denom = 5 := by
    decide +kernel
  have hne : ¬ (Devnet.settings.holding = .filled 2 ∧
      Devnet.request.denom = Devnet.request.denom) := by
    decide +kernel
  constructor
  · rw [hminted.balance_eq, if_neg hne, hheld]
  · rw [hminted.supply_eq, if_pos rfl, hsupply]
    rfl

end Session

end Mintage
