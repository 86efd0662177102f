import Mintage.Proofs.CoinLists
import Mintage.Proofs.Conservation

/-!
# Lists of coins on the book

Coins are created and moved one after another.  Each check sees what the coins before it did,
and a coin that is refused undoes them.  What decides is nevertheless a sum for each
denomination, in which neither the order nor a repetition counts:

    b.Sound → ((∃ b', b.issueAll who coins = .ok b') ↔
      ∀ d, b.supply d + totalOf coins d < Amount.limit)           (Sound.exists_issueAll_iff)
    sender ≠ receiver → ((∃ b', b.moveAll sender receiver coins = .ok b') ↔
      ∀ d, totalOf coins d ≤ b.balance sender d)                       (exists_moveAll_iff)

A sender that is the receiver has each coin back before the next one is taken.  There every coin
is measured against the whole balance (`exists_moveAll_self_iff`).  The books that are reached
are sound (`Session.book_sound_of_reachable`).
-/

namespace Mintage

/-! ## Definitions -/

namespace Book

/-- The books hold the same, in whatever order they were written. -/
structure Agrees (b b' : Book) : Prop where
  supply_eq : ∀ d, b'.supply d = b.supply d
  balance_eq : ∀ a d, b'.balance a d = b.balance a d

/-- `b'` is `b` with the coins created for one account. -/
structure Issued (b b' : Book) (who : Account) (coins : List Coin) : Prop where
  supply_eq : ∀ d, b'.supply d = b.supply d + Coin.totalOf coins d
  balance_eq : ∀ d, b'.balance who d = b.balance who d + Coin.totalOf coins d
  other_eq : ∀ a d, a ≠ who → b'.balance a d = b.balance a d

/-- `b'` is `b` with the coins taken from one account and given to another. -/
structure Moved (b b' : Book) (sender receiver : Account) (coins : List Coin) : Prop where
  supply_eq : ∀ d, b'.supply d = b.supply d
  sender_eq : ∀ d, b'.balance sender d + Coin.totalOf coins d = b.balance sender d
  receiver_eq : ∀ d, b'.balance receiver d = b.balance receiver d + Coin.totalOf coins d
  other_eq : ∀ a d, a ≠ sender → a ≠ receiver → b'.balance a d = b.balance a d

end Book

/-- Nothing but the writing of the books differs. -/
structure Storage.Agrees (st st' : Storage) : Prop where
  book : st.book.Agrees st'.book
  currency_eq : st'.currency = st.currency
  events_eq : st'.events = st.events

/-- Nothing but the writing of the books differs. -/
structure World.Agrees (w w' : World) : Prop where
  storage : w.storage.Agrees w'.storage
  calls_eq : w'.calls = w.calls
  journal_eq : w'.journal = w.journal

namespace Book

variable {b b₁ b₂ b' : Book} {who sender receiver : Account} {c : Coin}
  {coins more : List Coin}

theorem Agrees.refl (b : Book) : b.Agrees b := ⟨fun _ => rfl, fun _ _ => rfl⟩

theorem Agrees.symm (h : b.Agrees b') : b'.Agrees b where
  supply_eq d := (h.supply_eq d).symm
  balance_eq a d := (h.balance_eq a d).symm

theorem Agrees.trans (h : b.Agrees b₁) (h' : b₁.Agrees b₂) : b.Agrees b₂ where
  supply_eq d := (h'.supply_eq d).trans (h.supply_eq d)
  balance_eq a d := (h'.balance_eq a d).trans (h.balance_eq a d)

/-! ## Creating coins -/

theorem issueAll_append (b : Book) (who : Account) (coins more : List Coin) :
    b.issueAll who (coins ++ more) = b.issueAll who coins >>= fun b' => b'.issueAll who more :=
  List.foldlM_append

theorem issued_endow (b : Book) (who : Account) (c : Coin) :
    b.Issued (b.endow who c.denom c.amount.toNat) who [c] := by
  refine ⟨fun d => ?_, fun d => ?_, fun a d ha => ?_⟩
  · rw [supply_endow, Coin.totalOf_singleton]
    by_cases hd : d = c.denom
    · rw [if_pos hd, if_pos hd.symm]
    · rw [if_neg hd, if_neg (Ne.symm hd), Nat.add_zero]
  · rw [balance_endow, Coin.totalOf_singleton]
    by_cases hd : d = c.denom
    · rw [if_pos ⟨rfl, hd⟩, if_pos hd.symm]
    · rw [if_neg fun h => hd h.2, if_neg (Ne.symm hd), Nat.add_zero]
  · rw [balance_endow, if_neg fun h => ha h.1]

theorem Issued.append (h : b.Issued b₁ who coins) (h' : b₁.Issued b₂ who more) :
    b.Issued b₂ who (coins ++ more) where
  supply_eq d := by
    rw [h'.supply_eq, h.supply_eq, Coin.totalOf_append, Nat.add_assoc]
  balance_eq d := by
    rw [h'.balance_eq, h.balance_eq, Coin.totalOf_append, Nat.add_assoc]
  other_eq a d ha := (h'.other_eq a d ha).trans (h.other_eq a d ha)

/-- The order of the coins leaves no trace. -/
theorem Issued.agrees_of_perm (h : b.Issued b₁ who coins) (h' : b.Issued b₂ who more)
    (hperm : coins.Perm more) : b₁.Agrees b₂ where
  supply_eq d := by
    rw [h.supply_eq, h'.supply_eq, Coin.totalOf_perm hperm]
  balance_eq a d := by
    by_cases ha : a = who
    · rw [ha, h.balance_eq, h'.balance_eq, Coin.totalOf_perm hperm]
    · rw [h.other_eq a d ha, h'.other_eq a d ha]

/-- What a list creates is what its coins create. -/
theorem issued_of_issueAll (h : b.issueAll who coins = .ok b') : b.Issued b' who coins := by
  induction coins generalizing b with
  | nil =>
    cases h
    exact ⟨fun _ => rfl, fun _ => rfl, fun _ _ _ => rfl⟩
  | cons c coins ih =>
    obtain ⟨b₁, hi, h⟩ := foldlM_cons_eq_ok_iff.mp h
    obtain ⟨-, rfl⟩ := issue_eq_ok_iff.mp hi
    exact (issued_endow b who c).append (ih h)

/-- Room for the sum in each denomination is room for the coins one by one. -/
theorem exists_issueAll_of_room
    (h : ∀ d, b.supply d + Coin.totalOf coins d < Amount.limit) :
    ∃ b', b.issueAll who coins = .ok b' := by
  induction coins generalizing b with
  | nil => exact ⟨b, rfl⟩
  | cons c coins ih =>
    have hroom := h c.denom
    rw [Coin.totalOf_cons, Coin.totalOf_singleton, if_pos rfl] at hroom
    obtain ⟨b', hi⟩ := ih (b := b.endow who c.denom c.amount.toNat) fun d => by
      have hd := h d
      rw [Coin.totalOf_cons] at hd
      rw [(issued_endow b who c).supply_eq]
      omega
    exact ⟨b', foldlM_cons_eq_ok_iff.mpr ⟨_, issue_eq_ok_iff.mpr ⟨by omega, rfl⟩, hi⟩⟩

theorem Sound.exists_issueAll_iff (h : b.Sound) :
    (∃ b', b.issueAll who coins = .ok b') ↔
      ∀ d, b.supply d + Coin.totalOf coins d < Amount.limit := by
  constructor
  · rintro ⟨b', hi⟩ d
    rw [← (issued_of_issueAll hi).supply_eq d]
    exact (h.issueAll hi).supply_lt d
  · exact exists_issueAll_of_room

/-- Coins are not created for want of room alone. -/
theorem overflow_of_issueAll {f : Fault} (h : b.issueAll who coins = .error f) :
    f = .overflow := by
  obtain ⟨-, c, -, b₁, -, -, hc⟩ := foldlM_eq_error_iff.mp h
  unfold issue at hc
  split at hc
  · cases hc
  · cases hc
    rfl

/-! ## Moving coins -/

theorem moved_shift (hne : sender ≠ receiver) (h : c.amount.toNat ≤ b.balance sender c.denom) :
    b.Moved (b.shift sender receiver c.denom c.amount.toNat) sender receiver [c] := by
  refine ⟨fun _ => rfl, fun d => ?_, fun d => ?_, fun a d hs hr => ?_⟩
  · have hother : ¬ (sender = receiver ∧ d = c.denom) := fun h => hne h.1
    rw [balance_shift, Coin.totalOf_singleton, if_neg hother, Nat.add_zero]
    by_cases hd : d = c.denom
    · subst hd
      rw [if_pos ⟨rfl, rfl⟩, if_pos rfl]
      omega
    · rw [if_neg fun h => hd h.2, if_neg (Ne.symm hd), Nat.add_zero]
  · rw [balance_shift, Coin.totalOf_singleton, if_neg fun h => hne h.1.symm]
    by_cases hd : d = c.denom
    · rw [if_pos ⟨rfl, hd⟩, if_pos hd.symm]
    · rw [if_neg fun h => hd h.2, if_neg (Ne.symm hd)]
  · rw [balance_shift, if_neg fun h => hs h.1, if_neg fun h => hr h.1, Nat.add_zero]

theorem Moved.append (h : b.Moved b₁ sender receiver coins)
    (h' : b₁.Moved b₂ sender receiver more) : b.Moved b₂ sender receiver (coins ++ more) where
  supply_eq d := (h'.supply_eq d).trans (h.supply_eq d)
  sender_eq d := by
    have hd := h.sender_eq d
    have hd' := h'.sender_eq d
    rw [Coin.totalOf_append]
    omega
  receiver_eq d := by
    rw [h'.receiver_eq, h.receiver_eq, Coin.totalOf_append, Nat.add_assoc]
  other_eq a d hs hr := (h'.other_eq a d hs hr).trans (h.other_eq a d hs hr)

/-- The order of the coins leaves no trace. -/
theorem Moved.agrees_of_perm (h : b.Moved b₁ sender receiver coins)
    (h' : b.Moved b₂ sender receiver more) (hperm : coins.Perm more) : b₁.Agrees b₂ where
  supply_eq d := by
    rw [h.supply_eq, h'.supply_eq]
  balance_eq a d := by
    by_cases hs : a = sender
    · have hd := h.sender_eq d
      have hd' := h'.sender_eq d
      rw [Coin.totalOf_perm hperm] at hd
      rw [hs]
      omega
    · by_cases hr : a = receiver
      · rw [hr, h.receiver_eq, h'.receiver_eq, Coin.totalOf_perm hperm]
      · rw [h.other_eq a d hs hr, h'.other_eq a d hs hr]

/-- What a list moves from one account to another is what its coins move. -/
theorem moved_of_moveAll (hne : sender ≠ receiver)
    (h : b.moveAll sender receiver coins = .ok b') : b.Moved b' sender receiver coins := by
  induction coins generalizing b with
  | nil =>
    cases h
    exact ⟨fun _ => rfl, fun _ => rfl, fun _ => rfl, fun _ _ _ _ => rfl⟩
  | cons c coins ih =>
    obtain ⟨b₁, hm, h⟩ := foldlM_cons_eq_ok_iff.mp h
    obtain ⟨hle, rfl⟩ := move_eq_ok_iff.mp hm
    exact (moved_shift hne hle).append (ih h)

/-- Who can pay the sum in each denomination can pay the coins one by one. -/
theorem exists_moveAll_of_funds (hne : sender ≠ receiver)
    (h : ∀ d, Coin.totalOf coins d ≤ b.balance sender d) :
    ∃ b', b.moveAll sender receiver coins = .ok b' := by
  induction coins generalizing b with
  | nil => exact ⟨b, rfl⟩
  | cons c coins ih =>
    have hle : c.amount.toNat ≤ b.balance sender c.denom := by
      have hpaid := h c.denom
      rw [Coin.totalOf_cons, Coin.totalOf_singleton, if_pos rfl] at hpaid
      omega
    obtain ⟨b', hm⟩ := ih (b := b.shift sender receiver c.denom c.amount.toNat) fun d => by
      have hd := h d
      have hleft := (moved_shift hne hle).sender_eq d
      rw [Coin.totalOf_cons] at hd
      omega
    exact ⟨b', foldlM_cons_eq_ok_iff.mpr ⟨_, move_eq_ok_iff.mpr ⟨hle, rfl⟩, hm⟩⟩

theorem exists_moveAll_iff (hne : sender ≠ receiver) :
    (∃ b', b.moveAll sender receiver coins = .ok b') ↔
      ∀ d, Coin.totalOf coins d ≤ b.balance sender d := by
  constructor
  · rintro ⟨b', hm⟩ d
    rw [← (moved_of_moveAll hne hm).sender_eq d]
    exact Nat.le_add_left _ _
  · exact exists_moveAll_of_funds hne

/-- A coin moved to its own sender is there again. -/
theorem agrees_shift_self {denom : Bytes} {n : Nat} (h : n ≤ b.balance who denom) :
    b.Agrees (b.shift who who denom n) where
  supply_eq _ := rfl
  balance_eq a d := by
    rw [balance_shift]
    by_cases had : a = who ∧ d = denom
    · rw [if_pos had, if_pos had, had.1, had.2]
      omega
    · rw [if_neg had, if_neg had, Nat.add_zero]

theorem agrees_of_moveAll_self (h : b.moveAll who who coins = .ok b') : b.Agrees b' := by
  refine foldlM_keeps (P := fun b₁ => b.Agrees b₁) (fun b₁ c b₂ h₁ hm => ?_) (Agrees.refl b) h
  obtain ⟨hle, rfl⟩ := move_eq_ok_iff.mp hm
  exact h₁.trans (agrees_shift_self hle)

theorem exists_moveAll_self_iff :
    (∃ b', b.moveAll who who coins = .ok b') ↔
      ∀ c ∈ coins, c.amount.toNat ≤ b.balance who c.denom := by
  induction coins generalizing b with
  | nil => exact ⟨fun _ c hc => absurd hc List.not_mem_nil, fun _ => ⟨b, rfl⟩⟩
  | cons c coins ih =>
    rw [List.forall_mem_cons]
    constructor
    · rintro ⟨b', h⟩
      obtain ⟨b₁, hm, h⟩ := foldlM_cons_eq_ok_iff.mp h
      obtain ⟨hle, rfl⟩ := move_eq_ok_iff.mp hm
      have hrest := ih.mp ⟨b', h⟩
      simp only [(agrees_shift_self hle).balance_eq] at hrest
      exact ⟨hle, hrest⟩
    · rintro ⟨hle, hrest⟩
      obtain ⟨b', h⟩ := ih.mpr fun c' hc' => by
        rw [(agrees_shift_self hle).balance_eq]
        exact hrest c' hc'
      exact ⟨b', foldlM_cons_eq_ok_iff.mpr ⟨_, move_eq_ok_iff.mpr ⟨hle, rfl⟩, h⟩⟩

/-- Coins are not moved for want of funds alone. -/
theorem fundsUnavailable_of_moveAll {f : Fault}
    (h : b.moveAll sender receiver coins = .error f) : f = .fundsUnavailable := by
  obtain ⟨-, c, -, b₁, -, -, hc⟩ := foldlM_eq_error_iff.mp h
  unfold move at hc
  dsimp only at hc
  split at hc
  · cases hc
    rfl
  · cases hc

end Book

namespace Ledger

variable {op op' : Transaction Fault Unit} {w : World} {calls : List LedgerCall}
  {switches : Switches} {depth : Nat}

/-! ## Operations on the book -/

theorem mintOnBook_of_lt (hon : switches.refuseMints = false) (hd : depth < maxLayers)
    (target : Account) (coins : List Coin) (w : World) :
    mintOnBook switches depth target coins w =
      w.settle [.mint] (w.storage.withBook (w.storage.book.issueAll target coins)) := by
  rw [mintOnBook_run, hon, layered_of_lt hd]
  rfl

theorem sendOnBook_of_lt (hon : switches.refuseTransfers = false) (hd : depth < maxLayers)
    (sender receiver : Account) (coins : List Coin) (w : World) :
    sendOnBook switches depth sender receiver coins w =
      w.settle [.send] (w.storage.withBook (w.storage.book.moveAll sender receiver coins)) := by
  rw [sendOnBook_run, hon, layered_of_lt hd]
  rfl

/-- Operations that are decided alike, fail alike and leave books that agree are the same to
whoever looks at the worlds. -/
theorem agrees_of_decidedBy {can can' : Prop} {done done' : Book → Prop} {f : Fault}
    (h : DecidedBy op w calls can (fun st => ∃ b, st = { w.storage with book := b } ∧ done b)
      (· = f))
    (h' : DecidedBy op' w calls can' (fun st => ∃ b, st = { w.storage with book := b } ∧ done' b)
      (· = f))
    (hcan : can ↔ can') (hdone : ∀ b b', done b → done' b' → b.Agrees b') :
    (op' w).1 = (op w).1 ∧ (op w).2.Agrees (op' w).2 := by
  by_cases hc : can
  · obtain ⟨_, hrun, b, rfl, hb⟩ := h.of_can hc
    obtain ⟨_, hrun', b', rfl, hb'⟩ := h'.of_can (hcan.mp hc)
    rw [hrun, hrun']
    exact ⟨rfl, ⟨hdone b b' hb hb', rfl, rfl⟩, rfl, rfl⟩
  · obtain ⟨_, hrun, rfl⟩ := h.of_not hc
    obtain ⟨_, hrun', rfl⟩ := h'.of_not (mt hcan.mpr hc)
    rw [hrun, hrun']
    exact ⟨rfl, ⟨.refl _, rfl, rfl⟩, rfl, rfl⟩

theorem decidedBy_mintOnBook (h : w.storage.book.Sound) (hon : switches.refuseMints = false)
    (hd : depth < maxLayers) (target : Account) (coins : List Coin) :
    DecidedBy (mintOnBook switches depth target coins) w [.mint]
      (∀ d, w.storage.book.supply d + Coin.totalOf coins d < Amount.limit)
      (fun st => ∃ b, st = { w.storage with book := b } ∧
        w.storage.book.Issued b target coins ∧ b.Sound)
      (· = .overflow) :=
  decidedBy_of_map (mintOnBook_of_lt hon hd target coins w) h.exists_issueAll_iff
    (fun b hi => ⟨b, rfl, Book.issued_of_issueAll hi, h.issueAll hi⟩)
    fun _ he => Book.overflow_of_issueAll he

theorem decidedBy_sendOnBook (h : w.storage.book.Sound) (hon : switches.refuseTransfers = false)
    (hd : depth < maxLayers) {sender receiver : Account} (hne : sender ≠ receiver)
    (coins : List Coin) :
    DecidedBy (sendOnBook switches depth sender receiver coins) w [.send]
      (∀ d, Coin.totalOf coins d ≤ w.storage.book.balance sender d)
      (fun st => ∃ b, st = { w.storage with book := b } ∧
        w.storage.book.Moved b sender receiver coins ∧ b.Sound)
      (· = .fundsUnavailable) :=
  decidedBy_of_map (sendOnBook_of_lt hon hd sender receiver coins w)
    (Book.exists_moveAll_iff hne)
    (fun b hm => ⟨b, rfl, Book.moved_of_moveAll hne hm, h.moveAll hm⟩)
    fun _ he => Book.fundsUnavailable_of_moveAll he

theorem decidedBy_sendOnBook_self (hon : switches.refuseTransfers = false)
    (hd : depth < maxLayers) (who : Account) (coins : List Coin) :
    DecidedBy (sendOnBook switches depth who who coins) w [.send]
      (∀ c ∈ coins, c.amount.toNat ≤ w.storage.book.balance who c.denom)
      (fun st => ∃ b, st = { w.storage with book := b } ∧ w.storage.book.Agrees b)
      (· = .fundsUnavailable) :=
  decidedBy_of_map (sendOnBook_of_lt hon hd who who coins w) Book.exists_moveAll_self_iff
    (fun b hm => ⟨b, rfl, Book.agrees_of_moveAll_self hm⟩)
    fun _ he => Book.fundsUnavailable_of_moveAll he

/-- What takes over a new book when it succeeds. -/
theorem mintOnBook_ok (hon : switches.refuseMints = false) (hd : depth < maxLayers)
    {target : Account} {coins : List Coin} {b : Book}
    (hi : w.storage.book.issueAll target coins = .ok b) :
    mintOnBook switches depth target coins w = (.ok (), { w with
      storage := { w.storage with book := b }, calls := w.calls ++ [.mint] }) := by
  rw [mintOnBook_of_lt hon hd, hi]
  rfl

/-- Coins that can be created together can be created one list after the other. -/
theorem mintOnBook_append (hon : switches.refuseMints = false) (hd : depth < maxLayers)
    {target : Account} {coins more : List Coin} {w₀ : World}
    (h : mintOnBook switches depth target (coins ++ more) w = (.ok (), w₀)) :
    ∃ w₁ w₂, mintOnBook switches depth target coins w = (.ok (), w₁) ∧
      mintOnBook switches depth target more w₁ = (.ok (), w₂) ∧
      { w₂ with calls := w₀.calls } = w₀ := by
  rw [mintOnBook_of_lt hon hd, Book.issueAll_append] at h
  cases hi : w.storage.book.issueAll target coins with
  | error f =>
    rw [hi] at h
    cases h
  | ok b₁ =>
    rw [hi] at h
    replace h : w.settle [.mint] (w.storage.withBook (b₁.issueAll target more)) = (.ok (), w₀) := h
    cases hm : b₁.issueAll target more with
    | error f =>
      rw [hm] at h
      cases h
    | ok b₂ =>
      rw [hm] at h
      cases h
      exact ⟨_, _, mintOnBook_ok hon hd hi, mintOnBook_ok hon hd hm, rfl⟩

end Ledger

/-! ## Coins of the development network -/

namespace Devnet

theorem sound_endowed : endowed.world.storage.book.Sound :=
  Session.book_sound_of_reachable reachable_endowed

theorem supply_endowed (d : Bytes) :
    endowed.world.storage.book.supply d = if d = request.denom then 5 else 0 := by
  show (Book.empty.endow settings.holding request.denom 5).supply d = _
  rw [Book.supply_endow, Book.supply_empty]

/-- What is missing to the largest supply, less 1. -/
def almostAll : Amount := ⟨Amount.limit - 7, by decide⟩

end Devnet

namespace Ledger

/-! ## Top theorems -/

/-- **Creating a list of coins on the book.**  With a layer to spare and minting not switched off
it succeeds exactly if in each denomination the supply has room for the sum, and then adds the
sum to the supply and to the target's balance; otherwise it overflows and undoes what it did.  The
order of the coins does not show, and two lists can be created one after the other if they can
be created together.  No credit on the way leaves the range of amounts. -/
theorem book_mint_is_decided {w : World} (h : w.storage.book.Sound) {switches : Switches}
    (hon : switches.refuseMints = false) {depth : Nat} (hd : depth < maxLayers)
    (target : Account) (coins : List Coin) :
    DecidedBy (mintOnBook switches depth target coins) w [.mint]
      (∀ d, w.storage.book.supply d + Coin.totalOf coins d < Amount.limit)
      (fun st => ∃ b, st = { w.storage with book := b } ∧
        w.storage.book.Issued b target coins ∧ b.Sound)
      (· = .overflow) ∧
    (∀ coins', coins.Perm coins' →
      (mintOnBook switches depth target coins' w).1 =
        (mintOnBook switches depth target coins w).1 ∧
      (mintOnBook switches depth target coins w).2.Agrees
        (mintOnBook switches depth target coins' w).2) ∧
    (∀ more w₀, mintOnBook switches depth target (coins ++ more) w = (.ok (), w₀) →
      ∃ w₁ w₂, mintOnBook switches depth target coins w = (.ok (), w₁) ∧
        mintOnBook switches depth target more w₁ = (.ok (), w₂) ∧
        { w₂ with calls := w₀.calls } = w₀) ∧
    w.storage.book.CreditsFit := by
  have hdecided := fun coins => decidedBy_mintOnBook h hon hd target coins
  refine ⟨hdecided coins, fun coins' hperm => ?_, fun more w₀ => mintOnBook_append hon hd,
    h.creditsFit⟩
  refine agrees_of_decidedBy (hdecided coins) (hdecided coins') ?_ fun b b' hb hb' =>
    hb.1.agrees_of_perm hb'.1 hperm
  simp only [Coin.totalOf_perm hperm]

/-- The supply of 5 is filled to the last amount; one more and none of it happens. -/
theorem minted_to_the_limit :
    (mintOnBook ⟨false, false⟩ 254 Devnet.settings.holding
        [Devnet.coin Devnet.almostAll, Devnet.coin ⟨1, by decide⟩] Devnet.endowed.world).1 =
      .ok () ∧
    mintOnBook ⟨false, false⟩ 254 Devnet.settings.holding
        [Devnet.coin Devnet.almostAll, Devnet.coin ⟨1, by decide⟩, Devnet.coin ⟨1, by decide⟩]
        Devnet.endowed.world =
      (.error .overflow, { Devnet.endowed.world with calls := [.mint] }) := by
  have hon : (⟨false, false⟩ : Switches).refuseMints = false := rfl
  have hdecided := fun coins => (book_mint_is_decided Devnet.sound_endowed hon
    (show 254 < maxLayers by decide) Devnet.settings.holding coins).1
  constructor
  · have hroom : ∀ d, Devnet.endowed.world.storage.book.supply d +
        Coin.totalOf [Devnet.coin Devnet.almostAll, Devnet.coin ⟨1, by decide⟩] d <
          Amount.limit := by
      intro d
      rw [Devnet.supply_endowed, Coin.totalOf_cons, Coin.totalOf_singleton,
        Coin.totalOf_singleton]
      by_cases hd : d = Devnet.request.denom
      · subst hd
        decide +kernel
      · have hd' : ∀ n, ¬ (Devnet.coin n).denom = d := fun n => Ne.symm hd
        rw [if_neg hd, if_neg (hd' _), if_neg (hd' _)]
        decide
    obtain ⟨st, hrun, -⟩ := (hdecided _).of_can hroom
    rw [hrun]
  · obtain ⟨f, hrun, rfl⟩ := (hdecided [Devnet.coin Devnet.almostAll, Devnet.coin ⟨1, by decide⟩,
      Devnet.coin ⟨1, by decide⟩]).of_not fun hroom => by
        have hover := hroom Devnet.request.denom
        revert hover
        decide +kernel
    exact hrun

/-- **Moving a list of coins on the book.**  With a layer to spare and transfers not switched off
it succeeds exactly if the sender can pay the sum in each denomination, and moves these sums;
a sender that is the receiver only needs as much as each single coin, and nothing changes.
Otherwise funds are lacking and what was done is undone.  The order of the coins does not show, and
no credit on the way leaves the range of amounts. -/
theorem book_send_is_decided {w : World} (h : w.storage.book.Sound) {switches : Switches}
    (hon : switches.refuseTransfers = false) {depth : Nat} (hd : depth < maxLayers)
    (sender receiver : Account) (coins : List Coin) :
    (sender ≠ receiver →
      DecidedBy (sendOnBook switches depth sender receiver coins) w [.send]
        (∀ d, Coin.totalOf coins d ≤ w.storage.book.balance sender d)
        (fun st => ∃ b, st = { w.storage with book := b } ∧
          w.storage.book.Moved b sender receiver coins ∧ b.Sound)
        (· = .fundsUnavailable)) ∧
    (sender = receiver →
      DecidedBy (sendOnBook switches depth sender receiver coins) w [.send]
        (∀ c ∈ coins, c.amount.toNat ≤ w.storage.book.balance sender c.denom)
        (fun st => ∃ b, st = { w.storage with book := b } ∧ w.storage.book.Agrees b)
        (· = .fundsUnavailable)) ∧
    (∀ coins', coins.Perm coins' →
      (sendOnBook switches depth sender receiver coins' w).1 =
        (sendOnBook switches depth sender receiver coins w).1 ∧
      (sendOnBook switches depth sender receiver coins w).2.Agrees
        (sendOnBook switches depth sender receiver coins' w).2) ∧
    w.storage.book.CreditsFit := by
  refine ⟨fun hne => decidedBy_sendOnBook h hon hd hne coins, ?_, fun coins' hperm => ?_,
    h.creditsFit⟩
  · rintro rfl
    exact decidedBy_sendOnBook_self hon hd sender coins
  · by_cases heq : sender = receiver
    · subst heq
      refine agrees_of_decidedBy (decidedBy_sendOnBook_self hon hd sender coins)
        (decidedBy_sendOnBook_self hon hd sender coins') ?_ fun b b' hb hb' => hb.symm.trans hb'
      simp only [hperm.mem_iff]
    · refine agrees_of_decidedBy (decidedBy_sendOnBook h hon hd heq coins)
        (decidedBy_sendOnBook h hon hd heq coins') ?_ fun b b' hb hb' =>
          hb.1.agrees_of_perm hb'.1 hperm
      simp only [Coin.totalOf_perm hperm]

/-- Of 5 coins an account cannot send 3 and 3 to another one; to itself it can. -/
theorem twice_three_of_five :
    sendOnBook ⟨false, false⟩ 254 Devnet.settings.holding (.filled 2)
        [Devnet.coin ⟨3, by decide⟩, Devnet.coin ⟨3, by decide⟩] Devnet.endowed.world =
      (.error .fundsUnavailable, { Devnet.endowed.world with calls := [.send] }) ∧
    (sendOnBook ⟨false, false⟩ 254 Devnet.settings.holding Devnet.settings.holding
        [Devnet.coin ⟨3, by decide⟩, Devnet.coin ⟨3, by decide⟩] Devnet.endowed.world).1 =
      .ok () := by
  have hon : (⟨false, false⟩ : Switches).refuseTransfers = false := rfl
  have hdecided := fun receiver => book_send_is_decided Devnet.sound_endowed hon
    (show 254 < maxLayers by decide) Devnet.settings.holding receiver
    [Devnet.coin ⟨3, by decide⟩, Devnet.coin ⟨3, by decide⟩]
  constructor
  · have hne : Devnet.settings.holding ≠ .filled 2 := by decide +kernel
    obtain ⟨f, hrun, rfl⟩ := ((hdecided (.filled 2)).1 hne).of_not fun hpaid => by
      have hlacking := hpaid Devnet.request.denom
      revert hlacking
      decide +kernel
    exact hrun
  · obtain ⟨st, hrun, -⟩ := ((hdecided Devnet.settings.holding).2.1 rfl).of_can (by decide +kernel)
    rw [hrun]

end Ledger

end Mintage
