import Mintage.Proofs.Runs

/-!
# The balances of the book add up to its supplies

Only the supply is checked when coins are issued and only the sender when they are moved.
That no credit leaves the range of amounts rests on a sum (`Sound`): in each denomination
the balances of all accounts add up to the supply, and the supply is an amount.

    b.Sound → b.issue who c = .ok b' → b'.Sound                            (Sound.issue)
    b.Sound → b.move sender receiver c = .ok b' → b'.Sound                   (Sound.move)
    Reachable EndowsInRange s → s.world.storage.book.Sound    (book_sound_of_reachable)
-/

namespace Mintage

namespace Book

/-- In each denomination the balances add up to the supply, and the supply is an amount. -/
structure Sound (b : Book) : Prop where
  total_eq : ∀ d, b.balances.total (fun k => k.2 = d) = b.supply d
  supply_lt : ∀ d, b.supply d < Amount.limit

/-- A debit and a credit of the same amount. -/
def shift (b : Book) (sender receiver : Account) (denom : Bytes) (n : Nat) : Book :=
  ⟨b.supplies, (b.balances.set (sender, denom) (b.balance sender denom - n)).add
    (receiver, denom) n⟩

/-! ## Operations -/

@[simp] theorem supply_empty (d : Bytes) : empty.supply d = 0 := rfl

theorem supply_endow (b : Book) (who : Account) (denom : Bytes) (n : Nat) (d : Bytes) :
    (b.endow who denom n).supply d = if d = denom then b.supply d + n else b.supply d :=
  Tally.get_add _ _ _ _

theorem balance_endow (b : Book) (who : Account) (denom : Bytes) (n : Nat) (a : Account)
    (d : Bytes) :
    (b.endow who denom n).balance a d =
      if a = who ∧ d = denom then b.balance a d + n else b.balance a d := by
  show (b.balances.add (who, denom) n).get (a, d) = _
  rw [Tally.get_add]
  simp only [Prod.mk.injEq]
  rfl

theorem supply_shift (b : Book) (sender receiver : Account) (denom : Bytes) (n : Nat)
    (d : Bytes) : (b.shift sender receiver denom n).supply d = b.supply d := rfl

theorem balance_shift (b : Book) (sender receiver : Account) (denom : Bytes) (n : Nat)
    (a : Account) (d : Bytes) :
    (b.shift sender receiver denom n).balance a d =
      (if a = sender ∧ d = denom then b.balance sender denom - n else b.balance a d) +
        if a = receiver ∧ d = denom then n else 0 := by
  show ((b.balances.set (sender, denom) _).add (receiver, denom) n).get (a, d) = _
  rw [Tally.get_add, Tally.get_set]
  simp only [Prod.mk.injEq]
  by_cases hr : a = receiver ∧ d = denom
  · rw [if_pos hr, if_pos hr]
    rfl
  · rw [if_neg hr, if_neg hr]
    rfl

theorem issue_eq_ok_iff {b b' : Book} {who : Account} {c : Coin} :
    b.issue who c = .ok b' ↔
      b.supply c.denom + c.amount.toNat < Amount.limit ∧
        b' = b.endow who c.denom c.amount.toNat := by
  unfold issue
  by_cases h : b.supply c.denom + c.amount.toNat < Amount.limit
  · simp [h, eq_comm]
  · simp [h]

theorem move_eq_ok_iff {b b' : Book} {sender receiver : Account} {c : Coin} :
    b.move sender receiver c = .ok b' ↔
      c.amount.toNat ≤ b.balance sender c.denom ∧
        b' = b.shift sender receiver c.denom c.amount.toNat := by
  unfold move
  dsimp only
  by_cases h : b.balance sender c.denom < c.amount.toNat
  · rw [if_pos h]
    constructor
    · intro h'
      cases h'
    · rintro ⟨h', -⟩
      omega
  · rw [if_neg h, Except.ok.injEq]
    constructor
    · rintro rfl
      exact ⟨by omega, rfl⟩
    · rintro ⟨-, rfl⟩
      rfl

/-! ## The sum -/

theorem sound_empty : empty.Sound where
  total_eq _ := rfl
  supply_lt d := by
    rw [supply_empty]
    decide

theorem Sound.balance_le_supply {b : Book} (h : b.Sound) (a : Account) (d : Bytes) :
    b.balance a d ≤ b.supply d := by
  rw [← h.total_eq d]
  exact Tally.get_le_total (by simp)

/-- No balance leaves the range of amounts. -/
theorem Sound.balance_lt {b : Book} (h : b.Sound) (a : Account) (d : Bytes) :
    b.balance a d < Amount.limit := by
  have hle := h.balance_le_supply a d
  have hlt := h.supply_lt d
  omega

theorem Sound.endow {b : Book} (h : b.Sound) (who : Account) {denom : Bytes} {n : Nat}
    (hn : b.supply denom + n < Amount.limit) : (b.endow who denom n).Sound where
  total_eq d := by
    rw [supply_endow]
    by_cases hd : d = denom
    · subst hd
      rw [if_pos rfl, ← h.total_eq d]
      exact Tally.total_add (by simp) n
    · rw [if_neg hd, ← h.total_eq d]
      exact Tally.total_add_of_not (by simpa using fun e => hd e.symm) n
  supply_lt d := by
    rw [supply_endow]
    split
    · next hd => rwa [hd]
    · exact h.supply_lt d

theorem Sound.issue {b b' : Book} (h : b.Sound) {who : Account} {c : Coin}
    (hi : b.issue who c = .ok b') : b'.Sound := by
  obtain ⟨hlt, rfl⟩ := issue_eq_ok_iff.mp hi
  exact h.endow who hlt

/-- What is debited is what is credited, also where sender and receiver are one. -/
theorem total_shift {b : Book} {sender : Account} {denom : Bytes} {n : Nat}
    (h : n ≤ b.balance sender denom) (receiver : Account) (d : Bytes) :
    (b.shift sender receiver denom n).balances.total (fun k => k.2 = d) =
      b.balances.total fun k => k.2 = d := by
  have hheld : b.balances.get (sender, denom) = b.balance sender denom := rfl
  change ((b.balances.set (sender, denom) (b.balance sender denom - n)).add
    (receiver, denom) n).total _ = _
  by_cases hd : denom = d
  · have hset := Tally.total_set (t := b.balances) (k := (sender, denom))
      (p := fun k => k.2 = d) (by simpa using hd) (b.balance sender denom - n)
    rw [Tally.total_add (by simpa using hd)]
    omega
  · rw [Tally.total_add_of_not (by simpa using hd), Tally.total_set_of_not (by simpa using hd)]

theorem Sound.move {b b' : Book} (h : b.Sound) {sender receiver : Account} {c : Coin}
    (hm : b.move sender receiver c = .ok b') : b'.Sound := by
  obtain ⟨hle, rfl⟩ := move_eq_ok_iff.mp hm
  refine ⟨fun d => ?_, h.supply_lt⟩
  rw [total_shift hle, supply_shift, h.total_eq d]

/-! ## Lists of coins -/

theorem Sound.issueAll {b b' : Book} (h : b.Sound) {who : Account} {coins : List Coin}
    (hi : b.issueAll who coins = .ok b') : b'.Sound := by
  refine foldlM_keeps ?_ h hi
  intro b₁ c b₂ h₁ hc
  exact h₁.issue hc

theorem Sound.moveAll {b b' : Book} (h : b.Sound) {sender receiver : Account}
    {coins : List Coin} (hm : b.moveAll sender receiver coins = .ok b') : b'.Sound := by
  refine foldlM_keeps ?_ h hm
  intro b₁ c b₂ h₁ hc
  exact h₁.move hc

end Book

/-! ## Runs -/

/-- An endowment leaves the supply within the range of amounts. -/
def Action.EndowsInRange (s : Session) : Action → Prop
  | .endow _ denom amount => s.world.storage.book.supply denom + amount.toNat < Amount.limit
  | _ => True

namespace Ledger

variable {env : Environment} {depth : Nat} {st st' : Storage}

theorem book_sound_mintStep {target : Account} {coins : List Coin} (h : st.book.Sound)
    (hm : mintStep env depth target coins st = .ok st') : st'.book.Sound := by
  rcases mintStep_eq_ok hm with ⟨-, b, hb, rfl⟩ | ⟨-, c, -, rfl⟩
  · exact h.issueAll hb
  · exact h

theorem book_sound_sendStep {sender receiver : Account} {coins : List Coin} (h : st.book.Sound)
    (hs : sendStep env depth sender receiver coins st = .ok st') : st'.book.Sound := by
  rcases sendStep_eq_ok hs with ⟨-, b, hb, rfl⟩ | ⟨-, c, -, rfl⟩
  · exact h.moveAll hb
  · exact h

end Ledger

namespace Session

/-- One action keeps the sum, an endowment if it is in range. -/
theorem Effect.book_sound {s : Session} {a : Action} {st : Storage} (he : s.Effect a st)
    (ha : a.EndowsInRange s) (h : s.world.storage.book.Sound) : st.book.Sound := by
  cases he with
  | keep => exact h
  | endow who denom amount => exact h.endow who ha
  | mint _ _ hd =>
    obtain ⟨-, st₁, hm, hs⟩ := Mint.deliver_eq_ok hd
    have hsent := Ledger.book_sound_sendStep (Ledger.book_sound_mintStep h hm) hs
    exact hsent
  | mintCoins hm => exact Ledger.book_sound_mintStep h hm
  | sendCoins hs => exact Ledger.book_sound_sendStep h hs
  | mintNative hm =>
    obtain ⟨-, c, -, rfl⟩ := Ledger.mintNativeStep_eq_ok_iff.mp hm
    exact h
  | sendNative hs =>
    obtain ⟨-, c, -, rfl⟩ := Ledger.sendNativeStep_eq_ok_iff.mp hs
    exact h

theorem kept_book_sound :
    Kept (fun s a => a.EndowsInRange s) fun s => s.world.storage.book.Sound where
  perform depth a s ha h := (perform_effect depth a s).book_sound ha h
  rollBack _ _ h _ := h

/-- In every state that is reached without an endowment out of range the balances of the
book add up. -/
theorem book_sound_of_reachable {s : Session} (hs : Reachable (fun s a => a.EndowsInRange s) s) :
    s.world.storage.book.Sound := by
  obtain ⟨-, hsound⟩ := Kept.reachable (fun _ => kept_book_sound) (fun _ => Book.sound_empty) hs
  exact hsound

end Session

end Mintage
