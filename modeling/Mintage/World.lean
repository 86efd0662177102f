import Mintage.Book
import Mintage.Currency
import Mintage.Journal
import Mintage.Record

/-!
# The world that mints act on

Storage, which layers roll back, and two records that nothing rolls back: the
ledger calls made and the journal.

A transaction that fails still leaves the world it reached. Only a layer undoes
its storage: `withLayer` runs a body in one more layer, restores the storage if
the body fails, and refuses to open more than `maxLayers`.
-/

namespace Mintage

/-- What a rollback restores. -/
structure Storage where
  book : Book
  currency : Currency
  events : List Event

inductive LedgerCall
  | mint | send
  deriving DecidableEq

def LedgerCall.letter : LedgerCall → Char
  | mint => 'M'
  | send => 'S'

/-- Calls, events and journal entries stand in the order they were made. -/
structure World where
  storage : Storage
  calls : List LedgerCall
  journal : List JournalEntry

def Storage.empty : Storage := ⟨.empty, .empty, []⟩

def World.empty : World := ⟨.empty, [], []⟩

/-- An operation on the world that may fail. -/
abbrev Transaction (ε α : Type) := ExceptT ε (StateM World) α

/-! ## Single effects -/

def Transaction.write {ε : Type} (e : JournalEntry) : Transaction ε Unit :=
  modify fun w => { w with journal := w.journal ++ [e] }

def Transaction.record {ε : Type} (c : LedgerCall) : Transaction ε Unit :=
  modify fun w => { w with calls := w.calls ++ [c] }

def Transaction.deposit {ε : Type} (e : Event) : Transaction ε Unit :=
  modify fun w => { w with storage.events := w.storage.events ++ [e] }

/-- Replaces the book by the result of a step on it. -/
def Transaction.onBook (f : Book → Except Fault Book) : Transaction Fault Unit := fun w =>
  match f w.storage.book with
  | .ok book => (.ok (), { w with storage.book := book })
  | .error e => (.error e, w)

/-- Replaces the currency by the result of a step on it. -/
def Transaction.onCurrency (f : Currency → Except Fault Currency) : Transaction Fault Unit :=
  fun w =>
    match f w.storage.currency with
    | .ok currency => (.ok (), { w with storage.currency := currency })
    | .error e => (.error e, w)

/-! ## Layers -/

/-- Layers that may be open at once. -/
def maxLayers : Nat := 255

/-- Runs `body` in a layer of its own where `depth` layers are open already. -/
def withLayer {ε α : Type} (depth : Nat) (limit : ε) (body : Transaction ε α) :
    Transaction ε α := fun w =>
  if maxLayers ≤ depth then (.error limit, w)
  else
    match body w with
    | (.ok a, w') => (.ok a, w')
    | (.error e, w') => (.error e, { w' with storage := w.storage })

/-- Adds entries to the journal and changes nothing else. -/
def World.tell (w : World) (entries : List JournalEntry) : World :=
  { w with journal := w.journal ++ entries }

/-! ## Lemmas -/

theorem World.tell_nil (w : World) : w.tell [] = w := by
  simp only [World.tell, List.append_nil]

theorem mapError_ok {ε ε' α : Type} (f : ε → ε') (a : α) :
    (Except.ok a : Except ε α).mapError f = .ok a := rfl

theorem mapError_error {ε ε' α : Type} (f : ε → ε') (e : ε) :
    (Except.error e : Except ε α).mapError f = .error (f e) := rfl

namespace Transaction

variable {ε ε' α β : Type}

theorem pure_run (a : α) (w : World) : (pure a : Transaction ε α) w = (.ok a, w) := rfl

theorem lift_run (x : Except ε α) (w : World) : (liftM x : Transaction ε α) w = (x, w) := by
  cases x <;> rfl

theorem bind_run (t : Transaction ε α) (f : α → Transaction ε β) (w : World) :
    (t >>= f) w =
      match t w with
      | (.ok a, w') => f a w'
      | (.error e, w') => (.error e, w') := by
  show ExceptT.bindCont f (t w).1 (t w).2 = _
  rcases t w with ⟨r, w'⟩
  cases r <;> rfl

theorem adapt_run (g : ε → ε') (t : Transaction ε α) (w : World) :
    (t.adapt g : Transaction ε' α) w = ((t w).1.mapError g, (t w).2) := rfl

theorem tryCatch_run (t : Transaction ε α) (f : ε → Transaction ε α) (w : World) :
    (tryCatch t f) w =
      match t w with
      | (.ok a, w') => (.ok a, w')
      | (.error e, w') => f e w' := by
  show (match (t w).1 with
    | Except.ok a => (pure (Except.ok a) : StateM World (Except ε α))
    | Except.error e => f e) (t w).2 = _
  rcases t w with ⟨r, w'⟩
  cases r <;> rfl

theorem write_run (e : JournalEntry) (w : World) :
    (write e : Transaction ε Unit) w = (.ok (), { w with journal := w.journal ++ [e] }) := rfl

theorem record_run (c : LedgerCall) (w : World) :
    (record c : Transaction ε Unit) w = (.ok (), { w with calls := w.calls ++ [c] }) := rfl

theorem deposit_run (e : Event) (w : World) :
    (deposit e : Transaction ε Unit) w =
      (.ok (), { w with storage.events := w.storage.events ++ [e] }) := rfl

end Transaction

theorem withLayer_of_full {ε α : Type} {depth : Nat} (h : maxLayers ≤ depth) (limit : ε)
    (body : Transaction ε α) (w : World) : withLayer depth limit body w = (.error limit, w) :=
  if_pos h

theorem withLayer_of_lt {ε α : Type} {depth : Nat} (h : depth < maxLayers) (limit : ε)
    (body : Transaction ε α) (w : World) :
    withLayer depth limit body w =
      match body w with
      | (.ok a, w') => (.ok a, w')
      | (.error e, w') => (.error e, { w' with storage := w.storage }) :=
  if_neg (Nat.not_le_of_lt h)

/-- A layer that fails leaves the storage as it was. -/
theorem storage_of_withLayer_error {ε α : Type} {depth : Nat} {limit e : ε}
    {body : Transaction ε α} {w w' : World} (h : withLayer depth limit body w = (.error e, w')) :
    w'.storage = w.storage := by
  by_cases hd : maxLayers ≤ depth
  · rw [withLayer_of_full hd] at h
    cases h
    rfl
  · rw [withLayer_of_lt (by omega)] at h
    rcases hb : body w with ⟨r, w₁⟩
    rw [hb] at h
    cases r with
    | ok a => cases h
    | error e' =>
      cases h
      rfl

end Mintage
