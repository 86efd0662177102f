import Mathlib.Algebra.Order.Ring.Nat
import Mintage.Proofs.LedgerStep

/-!
# Lists of coins

What a ledger operation does with a list of coins is told by sums over the list.  They do not
see the order, and zero coins add nothing to them:

    total (xs ++ ys) = total xs + total ys                                (total_append)
    total (nonzero coins) = total coins                                  (total_nonzero)
    coins.Perm coins' → totalOf coins d = totalOf coins' d                (totalOf_perm)

An operation is decided by a condition (`DecidedBy`) if it is carried out where the condition
holds and refused everywhere else.
-/

namespace Mintage

/-! ## Definitions -/

namespace Coin

/-- The sum of the amounts. -/
def total (coins : List Coin) : Nat := (coins.map fun c => c.amount.toNat).sum

/-- The sum of the amounts in one denomination. -/
def totalOf (coins : List Coin) (d : Bytes) : Nat := total (coins.filter fun c => c.denom = d)

/-- The coins of more than nothing, in their order. -/
def nonzero (coins : List Coin) : List Coin := coins.filter fun c => c.amount.toNat ≠ 0

end Coin

/-- Where `can` holds the operation is carried out and leaves a storage such as `done` says.
Otherwise it is refused for a fault such as `why` says and keeps the storage.  In either case it
notes these calls and leaves the journal alone. -/
structure Ledger.DecidedBy (op : Transaction Fault Unit) (w : World) (calls : List LedgerCall)
    (can : Prop) (done : Storage → Prop) (why : Fault → Prop) : Prop where
  of_can : can →
    ∃ st, op w = (.ok (), { w with storage := st, calls := w.calls ++ calls }) ∧ done st
  of_not : ¬ can → ∃ f, op w = (.error f, { w with calls := w.calls ++ calls }) ∧ why f

/-! ## Sums -/

namespace Coin

theorem total_cons (c : Coin) (coins : List Coin) :
    total (c :: coins) = c.amount.toNat + total coins := by
  unfold total
  rw [List.map_cons, List.sum_cons]

theorem total_append (xs ys : List Coin) : total (xs ++ ys) = total xs + total ys := by
  unfold total
  rw [List.map_append, List.sum_append]

theorem total_singleton (c : Coin) : total [c] = c.amount.toNat := by
  rw [total_cons]
  rfl

theorem totalOf_append (xs ys : List Coin) (d : Bytes) :
    totalOf (xs ++ ys) d = totalOf xs d + totalOf ys d := by
  unfold totalOf
  rw [List.filter_append, total_append]

theorem totalOf_singleton (c : Coin) (d : Bytes) :
    totalOf [c] d = if c.denom = d then c.amount.toNat else 0 := by
  unfold totalOf
  rw [List.filter_cons]
  by_cases h : c.denom = d
  · rw [if_pos (decide_eq_true h), if_pos h]
    exact total_singleton c
  · rw [if_neg (by simpa using h), if_neg h]
    rfl

theorem totalOf_cons (c : Coin) (coins : List Coin) (d : Bytes) :
    totalOf (c :: coins) d = totalOf [c] d + totalOf coins d :=
  totalOf_append [c] coins d

/-- A sum does not depend on the order. -/
theorem totalOf_perm {coins coins' : List Coin} (h : coins.Perm coins') (d : Bytes) :
    totalOf coins d = totalOf coins' d :=
  ((h.filter _).map _).sum_nat

/-! ## Zero coins -/

theorem isZero_iff {c : Coin} : c.isZero = true ↔ c.amount.toNat = 0 := by
  unfold isZero Amount.isZero
  exact beq_iff_eq

/-- What the native currency passes over is what amounts to nothing. -/
theorem filter_isZero (coins : List Coin) : (coins.filter (!·.isZero)) = nonzero coins := by
  apply List.filter_congr
  intro c _
  rw [Bool.eq_iff_iff, Bool.not_eq_true', Bool.eq_false_iff, Ne, isZero_iff, decide_eq_true_iff]

theorem mem_nonzero {c : Coin} {coins : List Coin} :
    c ∈ nonzero coins ↔ c ∈ coins ∧ c.amount.toNat ≠ 0 := by
  unfold nonzero
  rw [List.mem_filter, decide_eq_true_iff]

theorem nonzero_cons_of_zero {c : Coin} (h : c.amount.toNat = 0) (coins : List Coin) :
    nonzero (c :: coins) = nonzero coins :=
  List.filter_cons_of_neg fun hne => of_decide_eq_true hne h

theorem nonzero_cons_of_ne {c : Coin} (h : c.amount.toNat ≠ 0) (coins : List Coin) :
    nonzero (c :: coins) = c :: nonzero coins :=
  List.filter_cons_of_pos (decide_eq_true h)

theorem total_nonzero (coins : List Coin) : total (nonzero coins) = total coins := by
  induction coins with
  | nil => rfl
  | cons c coins ih =>
    by_cases h : c.amount.toNat = 0
    · rw [nonzero_cons_of_zero h, total_cons, h, ih, Nat.zero_add]
    · rw [nonzero_cons_of_ne h, total_cons, total_cons, ih]

end Coin

/-! ## Decisions -/

/-- An operation that takes over a part of the storage is decided by what decides that part. -/
theorem Ledger.decidedBy_of_map {α : Type} {op : Transaction Fault Unit} {w : World}
    {calls : List LedgerCall} {can : Prop} {done : Storage → Prop} {why : Fault → Prop}
    {put : α → Storage} {r : Except Fault α} (hop : op w = w.settle calls (r.map put))
    (hcan : (∃ a, r = .ok a) ↔ can) (hdone : ∀ a, r = .ok a → done (put a))
    (hwhy : ∀ f, r = .error f → why f) : DecidedBy op w calls can done why := by
  refine ⟨fun h => ?_, fun h => ?_⟩
  · obtain ⟨a, rfl⟩ := hcan.mpr h
    exact ⟨put a, hop, hdone a rfl⟩
  · cases r with
    | ok a => exact absurd (hcan.mp ⟨a, rfl⟩) h
    | error f => exact ⟨f, hop, hwhy f rfl⟩

end Mintage
