import Mintage.Ledger

/-!
# Ledger operations as steps on the storage

An operation of the ledger notes its call and then takes over a new storage or fails
and keeps the old one.  What it makes of the storage is a plain function
(`mintStep`, `sendStep`): the switch first, then the layer, then the coins in order.

    mintCoins env depth target coins w =
      w.settle (mintCalls env) (mintStep env depth target coins w.storage)      (mintCoins_run)
    sendCoins env depth sender receiver coins w =
      w.settle (sendCalls env) (sendStep env depth sender receiver coins w.storage)
                                                                                (sendCoins_run)
-/

namespace Mintage

/-! ## Algorithm -/

/-- Notes the calls and takes the new storage over; a failure keeps the old one. -/
def World.settle {ε : Type} (w : World) (calls : List LedgerCall) :
    Except ε Storage → Except ε Unit × World
  | .ok st => (.ok (), { w with storage := st, calls := w.calls ++ calls })
  | .error e => (.error e, { w with calls := w.calls ++ calls })

/-- Creates coins one after another. -/
def Book.issueAll (b : Book) (who : Account) (coins : List Coin) : Except Fault Book :=
  coins.foldlM (fun b c => b.issue who c) b

/-- Moves coins one after another. -/
def Book.moveAll (b : Book) (sender receiver : Account) (coins : List Coin) : Except Fault Book :=
  coins.foldlM (fun b c => b.move sender receiver c) b

namespace Currency

/-- Creates coins one after another. -/
def issueEach (c : Currency) (terms : CurrencyTerms) (who : Account) (coins : List Coin) :
    Except Fault Currency :=
  coins.foldlM (fun c coin => c.issueCoin terms who coin) c

/-- Moves coins one after another. -/
def moveEach (c : Currency) (terms : CurrencyTerms) (sender receiver : Account)
    (coins : List Coin) : Except Fault Currency :=
  coins.foldlM (fun c coin => c.moveCoin terms sender receiver coin) c

/-- Creates the coins that are not zero. -/
def issueAll (c : Currency) (terms : CurrencyTerms) (who : Account) (coins : List Coin) :
    Except Fault Currency :=
  c.issueEach terms who (coins.filter (!·.isZero))

/-- Moves the coins that are not zero. -/
def moveAll (c : Currency) (terms : CurrencyTerms) (sender receiver : Account)
    (coins : List Coin) : Except Fault Currency :=
  c.moveEach terms sender receiver (coins.filter (!·.isZero))

end Currency

namespace Storage

def withBook (st : Storage) (r : Except Fault Book) : Except Fault Storage :=
  r.map fun book => { st with book }

def withCurrency (st : Storage) (r : Except Fault Currency) : Except Fault Storage :=
  r.map fun currency => { st with currency }

end Storage

/-- The result of a body that needs one more layer. -/
def layered (depth : Nat) (r : Except Fault Storage) : Except Fault Storage :=
  if maxLayers ≤ depth then .error .layerLimit else r

/-- What a switch that is on refuses. -/
def switched (off : Bool) (f : Fault) (r : Except Fault Storage) : Except Fault Storage :=
  if off then .error f else r

namespace Ledger

/-- What minting on the native currency makes of the storage. -/
def mintNativeStep (terms : CurrencyTerms) (depth : Nat) (target : Account) (coins : List Coin)
    (st : Storage) : Except Fault Storage :=
  layered depth (st.withCurrency (st.currency.issueAll terms target coins))

/-- What sending on the native currency makes of the storage. -/
def sendNativeStep (terms : CurrencyTerms) (depth : Nat) (sender receiver : Account)
    (coins : List Coin) (st : Storage) : Except Fault Storage :=
  layered depth (st.withCurrency (st.currency.moveAll terms sender receiver coins))

/-- What minting on the ledger in use makes of the storage. -/
def mintStep (env : Environment) (depth : Nat) (target : Account) (coins : List Coin)
    (st : Storage) : Except Fault Storage :=
  match env.settings.ledger with
  | .book => switched env.switches.refuseMints .mintingDisabled
      (layered depth (st.withBook (st.book.issueAll target coins)))
  | .native => mintNativeStep env.settings.currency depth target coins st

/-- What sending on the ledger in use makes of the storage. -/
def sendStep (env : Environment) (depth : Nat) (sender receiver : Account) (coins : List Coin)
    (st : Storage) : Except Fault Storage :=
  match env.settings.ledger with
  | .book => switched env.switches.refuseTransfers .transfersDisabled
      (layered depth (st.withBook (st.book.moveAll sender receiver coins)))
  | .native => sendNativeStep env.settings.currency depth sender receiver coins st

/-- The call that minting notes; only the book keeps note of calls. -/
def mintCalls (env : Environment) : List LedgerCall :=
  match env.settings.ledger with
  | .book => [.mint]
  | .native => []

/-- The call that sending notes. -/
def sendCalls (env : Environment) : List LedgerCall :=
  match env.settings.ledger with
  | .book => [.send]
  | .native => []

end Ledger

/-! ## Steps on the storage -/

/-- Replaces the storage by the result of a step on it. -/
def Transaction.onStorage (f : Storage → Except Fault Storage) : Transaction Fault Unit :=
  fun w =>
    match f w.storage with
    | .ok st => (.ok (), { w with storage := st })
    | .error e => (.error e, w)

theorem onBook_eq (f : Book → Except Fault Book) :
    Transaction.onBook f = Transaction.onStorage fun st => st.withBook (f st.book) := by
  funext w
  simp only [Transaction.onBook, Transaction.onStorage, Storage.withBook]
  cases f w.storage.book with
  | ok b => rfl
  | error e => rfl

theorem onCurrency_eq (f : Currency → Except Fault Currency) :
    Transaction.onCurrency f = Transaction.onStorage fun st => st.withCurrency (f st.currency) := by
  funext w
  simp only [Transaction.onCurrency, Transaction.onStorage, Storage.withCurrency]
  cases f w.storage.currency with
  | ok c => rfl
  | error e => rfl

/-- Coin by coin, only the storage changes; a coin that is refused leaves the work of
those before it in place. -/
theorem forM_onStorage (g : Coin → Storage → Except Fault Storage) (coins : List Coin)
    (w : World) :
    (∃ st, coins.foldlM (fun st c => g c st) w.storage = .ok st ∧
      (coins.forM fun c => Transaction.onStorage (g c)) w = (.ok (), { w with storage := st })) ∨
    ∃ e st, coins.foldlM (fun st c => g c st) w.storage = .error e ∧
      (coins.forM fun c => Transaction.onStorage (g c)) w = (.error e, { w with storage := st }) := by
  induction coins generalizing w with
  | nil => exact Or.inl ⟨w.storage, rfl, rfl⟩
  | cons c coins ih =>
    rw [List.forM_eq_forM] at ih ⊢
    rw [List.forM_cons, Transaction.bind_run, List.foldlM_cons]
    cases hg : g c w.storage with
    | error e =>
      have hstep : Transaction.onStorage (g c) w = (.error e, w) := by
        simp only [Transaction.onStorage, hg]
      rw [hstep]
      exact Or.inr ⟨e, w.storage, rfl, rfl⟩
    | ok st =>
      have hstep : Transaction.onStorage (g c) w = (.ok (), { w with storage := st }) := by
        simp only [Transaction.onStorage, hg]
      rw [hstep]
      exact ih { w with storage := st }

/-- A layer around steps on the storage takes all of them over or none. -/
theorem withLayer_forM_onStorage (depth : Nat) (g : Coin → Storage → Except Fault Storage)
    (coins : List Coin) (w : World) :
    withLayer depth .layerLimit (coins.forM fun c => Transaction.onStorage (g c)) w =
      w.settle [] (layered depth (coins.foldlM (fun st c => g c st) w.storage)) := by
  unfold layered
  by_cases hd : maxLayers ≤ depth
  · rw [withLayer_of_full hd, if_pos hd]
    simp only [World.settle, List.append_nil]
  · rw [withLayer_of_lt (by omega), if_neg hd]
    rcases forM_onStorage g coins w with ⟨st, hf, hr⟩ | ⟨e, st, hf, hr⟩
    · rw [hr, hf]
      simp only [World.settle, List.append_nil]
    · rw [hr, hf]
      simp only [World.settle, List.append_nil]

theorem foldlM_withBook (f : Coin → Book → Except Fault Book) (coins : List Coin)
    (st : Storage) :
    coins.foldlM (fun st c => Storage.withBook st (f c st.book)) st =
      st.withBook (coins.foldlM (fun b c => f c b) st.book) := by
  induction coins generalizing st with
  | nil => rfl
  | cons c coins ih =>
    rw [List.foldlM_cons, List.foldlM_cons]
    cases hf : f c st.book with
    | error e => rfl
    | ok b => exact ih { st with book := b }

theorem foldlM_withCurrency (f : Coin → Currency → Except Fault Currency) (coins : List Coin)
    (st : Storage) :
    coins.foldlM (fun st c => Storage.withCurrency st (f c st.currency)) st =
      st.withCurrency (coins.foldlM (fun cur c => f c cur) st.currency) := by
  induction coins generalizing st with
  | nil => rfl
  | cons c coins ih =>
    rw [List.foldlM_cons, List.foldlM_cons]
    cases hf : f c st.currency with
    | error e => rfl
    | ok cur => exact ih { st with currency := cur }

/-! ## The operations -/

theorem settle_record (c : LedgerCall) (w : World) (r : Except Fault Storage) :
    World.settle { w with calls := w.calls ++ [c] } [] r = w.settle [c] r := by
  cases r <;> simp only [World.settle, List.append_nil]

namespace Ledger

theorem mintNative_run (terms : CurrencyTerms) (depth : Nat) (target : Account)
    (coins : List Coin) (w : World) :
    mintNative terms depth target coins w =
      w.settle [] (mintNativeStep terms depth target coins w.storage) := by
  unfold mintNative
  simp only [onCurrency_eq]
  rw [withLayer_forM_onStorage,
    foldlM_withCurrency fun coin c => c.issueCoin terms target coin]
  rfl

theorem sendNative_run (terms : CurrencyTerms) (depth : Nat) (sender receiver : Account)
    (coins : List Coin) (w : World) :
    sendNative terms depth sender receiver coins w =
      w.settle [] (sendNativeStep terms depth sender receiver coins w.storage) := by
  unfold sendNative
  simp only [onCurrency_eq]
  rw [withLayer_forM_onStorage,
    foldlM_withCurrency fun coin c => c.moveCoin terms sender receiver coin]
  rfl

theorem mintOnBook_run (switches : Switches) (depth : Nat) (target : Account)
    (coins : List Coin) (w : World) :
    mintOnBook switches depth target coins w =
      w.settle [.mint] (switched switches.refuseMints .mintingDisabled
        (layered depth (w.storage.withBook (w.storage.book.issueAll target coins)))) := by
  unfold mintOnBook switched
  rw [Transaction.bind_run, Transaction.record_run]
  dsimp only
  cases switches.refuseMints with
  | true => rfl
  | false =>
    simp only [Bool.false_eq_true, if_false, onBook_eq]
    rw [withLayer_forM_onStorage, foldlM_withBook fun c b => b.issue target c, settle_record]
    rfl

theorem sendOnBook_run (switches : Switches) (depth : Nat) (sender receiver : Account)
    (coins : List Coin) (w : World) :
    sendOnBook switches depth sender receiver coins w =
      w.settle [.send] (switched switches.refuseTransfers .transfersDisabled
        (layered depth (w.storage.withBook (w.storage.book.moveAll sender receiver coins)))) := by
  unfold sendOnBook switched
  rw [Transaction.bind_run, Transaction.record_run]
  dsimp only
  cases switches.refuseTransfers with
  | true => rfl
  | false =>
    simp only [Bool.false_eq_true, if_false, onBook_eq]
    rw [withLayer_forM_onStorage, foldlM_withBook fun c b => b.move sender receiver c,
      settle_record]
    rfl

/-- Minting notes its call and takes its step. -/
theorem mintCoins_run (env : Environment) (depth : Nat) (target : Account) (coins : List Coin)
    (w : World) :
    mintCoins env depth target coins w =
      w.settle (mintCalls env) (mintStep env depth target coins w.storage) := by
  unfold mintCoins mintCalls mintStep
  cases env.settings.ledger with
  | book => exact mintOnBook_run ..
  | native => exact mintNative_run ..

/-- Sending notes its call and takes its step. -/
theorem sendCoins_run (env : Environment) (depth : Nat) (sender receiver : Account)
    (coins : List Coin) (w : World) :
    sendCoins env depth sender receiver coins w =
      w.settle (sendCalls env) (sendStep env depth sender receiver coins w.storage) := by
  unfold sendCoins sendCalls sendStep
  cases env.settings.ledger with
  | book => exact sendOnBook_run ..
  | native => exact sendNative_run ..

end Ledger

/-! ## Steps that succeed -/

/-- A list succeeds where its head does and then the rest. -/
theorem foldlM_cons_eq_ok_iff {α β ε : Type} {f : α → β → Except ε α} {x : β} {l : List β}
    {a a' : α} :
    (x :: l).foldlM f a = .ok a' ↔ ∃ a₁, f a x = .ok a₁ ∧ l.foldlM f a₁ = .ok a' := by
  rw [List.foldlM_cons]
  cases hf : f a x with
  | error e =>
    constructor
    · intro h
      cases h
    · rintro ⟨a₁, hok, -⟩
      cases hok
  | ok a₁ =>
    constructor
    · exact fun h => ⟨a₁, rfl, h⟩
    · rintro ⟨a₂, hok, h⟩
      cases hok
      exact h

/-- What each coin keeps, a list of coins keeps. -/
theorem foldlM_keeps {α β : Type} {P : α → Prop} {f : α → β → Except Fault α}
    (hstep : ∀ a b a', P a → f a b = .ok a' → P a') {l : List β} {a a' : α} (h : P a)
    (hl : l.foldlM f a = .ok a') : P a' := by
  induction l generalizing a with
  | nil =>
    cases hl
    exact h
  | cons b l ih =>
    obtain ⟨a₁, hf, hl⟩ := foldlM_cons_eq_ok_iff.mp hl
    exact ih (hstep a b a₁ h hf) hl

/-- A list fails at the first element that fails after those before it. -/
theorem foldlM_eq_error_iff {α β ε : Type} {f : α → β → Except ε α} {l : List β} {a : α} {e : ε} :
    l.foldlM f a = .error e ↔
      ∃ before x after a', l = before ++ x :: after ∧ before.foldlM f a = .ok a' ∧
        f a' x = .error e := by
  constructor
  · intro h
    induction l generalizing a with
    | nil => cases h
    | cons b l ih =>
      rw [List.foldlM_cons] at h
      cases hf : f a b with
      | error e' =>
        rw [hf] at h
        cases h
        exact ⟨[], b, l, a, rfl, rfl, hf⟩
      | ok a₁ =>
        rw [hf] at h
        obtain ⟨before, x, after, a', rfl, hok, hx⟩ := ih h
        refine ⟨b :: before, x, after, a', rfl, ?_, hx⟩
        rw [List.foldlM_cons, hf]
        exact hok
  · rintro ⟨before, x, after, a', rfl, hok, hx⟩
    rw [List.foldlM_append, hok]
    show ((x :: after).foldlM f a') = _
    rw [List.foldlM_cons, hx]
    rfl

/-- Steps that agree where a property holds, which they keep, agree over a list. -/
theorem foldlM_mapError {α β ε ε' : Type} {P : α → Prop} {f : α → β → Except ε α}
    {g : α → β → Except ε' α} {φ : ε → ε'} (heq : ∀ a x, P a → g a x = (f a x).mapError φ)
    (hkeep : ∀ a x a', P a → f a x = .ok a' → P a') (l : List β) {a : α} (h : P a) :
    l.foldlM g a = (l.foldlM f a).mapError φ := by
  induction l generalizing a with
  | nil => rfl
  | cons x l ih =>
    rw [List.foldlM_cons, List.foldlM_cons, heq a x h]
    cases hf : f a x with
    | error e => rfl
    | ok a' => exact ih (hkeep a x a' h hf)

namespace Storage

theorem withBook_eq_ok_iff {st st' : Storage} {r : Except Fault Book} :
    st.withBook r = .ok st' ↔ ∃ b, r = .ok b ∧ st' = { st with book := b } := by
  cases r with
  | error e => simp [withBook, Except.map]
  | ok b => simp [withBook, Except.map, eq_comm]

theorem withCurrency_eq_ok_iff {st st' : Storage} {r : Except Fault Currency} :
    st.withCurrency r = .ok st' ↔ ∃ c, r = .ok c ∧ st' = { st with currency := c } := by
  cases r with
  | error e => simp [withCurrency, Except.map]
  | ok c => simp [withCurrency, Except.map, eq_comm]

end Storage

theorem layered_of_lt {depth : Nat} (h : depth < maxLayers) (r : Except Fault Storage) :
    layered depth r = r :=
  if_neg (Nat.not_le_of_lt h)

theorem layered_eq_ok_iff {depth : Nat} {r : Except Fault Storage} {st : Storage} :
    layered depth r = .ok st ↔ depth < maxLayers ∧ r = .ok st := by
  unfold layered
  by_cases h : maxLayers ≤ depth
  · simp [h, Nat.not_lt_of_le h]
  · simp [h, Nat.lt_of_not_le h]

theorem switched_eq_ok_iff {off : Bool} {f : Fault} {r : Except Fault Storage} {st : Storage} :
    switched off f r = .ok st ↔ off = false ∧ r = .ok st := by
  cases off with
  | true => simp [switched]
  | false => simp [switched]

namespace Ledger

variable {env : Environment} {depth : Nat} {st st' : Storage}

theorem mintNativeStep_eq_ok_iff {terms : CurrencyTerms} {target : Account}
    {coins : List Coin} :
    mintNativeStep terms depth target coins st = .ok st' ↔
      depth < maxLayers ∧ ∃ c, st.currency.issueAll terms target coins = .ok c ∧
        st' = { st with currency := c } := by
  unfold mintNativeStep
  rw [layered_eq_ok_iff, Storage.withCurrency_eq_ok_iff]

theorem sendNativeStep_eq_ok_iff {terms : CurrencyTerms} {sender receiver : Account}
    {coins : List Coin} :
    sendNativeStep terms depth sender receiver coins st = .ok st' ↔
      depth < maxLayers ∧ ∃ c, st.currency.moveAll terms sender receiver coins = .ok c ∧
        st' = { st with currency := c } := by
  unfold sendNativeStep
  rw [layered_eq_ok_iff, Storage.withCurrency_eq_ok_iff]

/-- Minting replaces the book or the currency, whichever is the ledger in use. -/
theorem mintStep_eq_ok {target : Account} {coins : List Coin}
    (h : mintStep env depth target coins st = .ok st') :
    (env.settings.ledger = .book ∧ ∃ b, st.book.issueAll target coins = .ok b ∧
      st' = { st with book := b }) ∨
    (env.settings.ledger = .native ∧ ∃ c,
      st.currency.issueAll env.settings.currency target coins = .ok c ∧
      st' = { st with currency := c }) := by
  unfold mintStep at h
  cases hl : env.settings.ledger with
  | book =>
    rw [hl] at h
    dsimp only at h
    rw [switched_eq_ok_iff, layered_eq_ok_iff, Storage.withBook_eq_ok_iff] at h
    exact Or.inl ⟨rfl, h.2.2⟩
  | native =>
    rw [hl] at h
    exact Or.inr ⟨rfl, (mintNativeStep_eq_ok_iff.mp h).2⟩

/-- Sending replaces the book or the currency, whichever is the ledger in use. -/
theorem sendStep_eq_ok {sender receiver : Account} {coins : List Coin}
    (h : sendStep env depth sender receiver coins st = .ok st') :
    (env.settings.ledger = .book ∧ ∃ b, st.book.moveAll sender receiver coins = .ok b ∧
      st' = { st with book := b }) ∨
    (env.settings.ledger = .native ∧ ∃ c,
      st.currency.moveAll env.settings.currency sender receiver coins = .ok c ∧
      st' = { st with currency := c }) := by
  unfold sendStep at h
  cases hl : env.settings.ledger with
  | book =>
    rw [hl] at h
    dsimp only at h
    rw [switched_eq_ok_iff, layered_eq_ok_iff, Storage.withBook_eq_ok_iff] at h
    exact Or.inl ⟨rfl, h.2.2⟩
  | native =>
    rw [hl] at h
    exact Or.inr ⟨rfl, (sendNativeStep_eq_ok_iff.mp h).2⟩

end Ledger

end Mintage
