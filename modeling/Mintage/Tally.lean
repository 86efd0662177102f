import Mintage.Bytes

/-!
# Tallies

Counters by key, zero for all but finitely many keys.

    (t.set k n).get j = if j = k then n else t.get j            (get_set)
    p k → (t.set k n).total p + t.get k = t.total p + n         (total_set)
    p k → (t.add k n).total p = t.total p + n                   (total_add)
-/

namespace Mintage

/-- Entries that are picked by their keys are found under these keys and under no other. -/
theorem lookup_filter_key {κ α : Type} [BEq κ] [LawfulBEq κ] (p : κ → Bool) (l : List (κ × α))
    (k : κ) : (l.filter fun e => p e.1).lookup k = if p k then l.lookup k else none := by
  induction l with
  | nil => simp
  | cons e l ih =>
    obtain ⟨j, x⟩ := e
    cases hk : k == j with
    | true =>
      obtain rfl : k = j := beq_iff_eq.mp hk
      cases hp : p k with
      | true => simp [hp]
      | false => simp [hp, ih]
    | false =>
      cases hp : p j with
      | true => simp [hp, hk, List.lookup_cons, ih]
      | false => simp [hp, hk, List.lookup_cons, ih]

/-- At most one entry per key; a key without entry counts zero. -/
structure Tally (κ : Type) where
  entries : List (κ × Nat)
  nodup_keys : (entries.map Prod.fst).Nodup

namespace Tally

/-! ## Algorithm -/

variable {κ : Type}

def empty : Tally κ := ⟨[], by simp⟩

/-- The sum of the entries whose keys are in `p`. -/
def sumOf (l : List (κ × Nat)) (p : κ → Bool) : Nat :=
  l.foldr (fun e n => (if p e.1 then e.2 else 0) + n) 0

/-- The sum of the counters of the keys in `p`. -/
def total (t : Tally κ) (p : κ → Bool) : Nat := sumOf t.entries p

theorem sumOf_cons (e : κ × Nat) (l : List (κ × Nat)) (p : κ → Bool) :
    sumOf (e :: l) p = (if p e.1 then e.2 else 0) + sumOf l p := rfl

variable [DecidableEq κ]

def get (t : Tally κ) (k : κ) : Nat := (t.entries.lookup k).getD 0

def set (t : Tally κ) (k : κ) (n : Nat) : Tally κ where
  entries := (k, n) :: t.entries.filter fun e => e.1 ≠ k
  nodup_keys := by
    rw [List.map_cons, List.nodup_cons]
    constructor
    · simp
    · exact (List.filter_sublist.map Prod.fst).nodup t.nodup_keys

/-- Raises the counter of `k` by `n`. -/
def add (t : Tally κ) (k : κ) (n : Nat) : Tally κ := t.set k (t.get k + n)

/-- The nonzero counters by ascending sort key. -/
def listing (t : Tally κ) (sortKey : κ → List Bytes) : List (κ × Nat) :=
  (t.entries.filter fun e => e.2 ≠ 0).mergeSort fun e f => decide (sortKey e.1 ≤ sortKey f.1)

/-! ## Lemmas -/

@[simp] theorem get_empty (k : κ) : (empty : Tally κ).get k = 0 := rfl

theorem get_set (t : Tally κ) (k j : κ) (n : Nat) :
    (t.set k n).get j = if j = k then n else t.get j := by
  by_cases h : j = k
  · subst h; simp [get, set]
  · have hjk : (j == k) = false := by simpa using h
    simp only [get, set, List.lookup_cons, hjk, if_neg h]
    rw [lookup_filter_key fun i => i ≠ k, if_pos (decide_eq_true h)]

@[simp] theorem get_set_self (t : Tally κ) (k : κ) (n : Nat) : (t.set k n).get k = n := by
  simp [get_set]

theorem get_set_of_ne (t : Tally κ) {j k : κ} (h : j ≠ k) (n : Nat) :
    (t.set k n).get j = t.get j := by
  simp [get_set, h]

theorem get_add (t : Tally κ) (k j : κ) (n : Nat) :
    (t.add k n).get j = if j = k then t.get j + n else t.get j := by
  unfold add
  rw [get_set]
  split
  · next h => rw [h]
  · rfl

/-! ## Totals -/

theorem lookup_eq_none_of_notMem {l : List (κ × Nat)} {k : κ} (h : k ∉ l.map Prod.fst) :
    l.lookup k = none := by
  rw [List.lookup_eq_none_iff]
  intro e he
  have hne : k ≠ e.1 := fun hk => h (hk ▸ List.mem_map_of_mem he)
  simpa using hne

theorem filter_ne_of_notMem {l : List (κ × Nat)} {k : κ} (h : k ∉ l.map Prod.fst) :
    (l.filter fun e => e.1 ≠ k) = l := by
  rw [List.filter_eq_self]
  intro e he
  have hne : e.1 ≠ k := fun hk => h (hk ▸ List.mem_map_of_mem he)
  simpa using hne

/-- A counter is the first entry's, or it is among the rest. -/
theorem get_cons {e : κ × Nat} {l : List (κ × Nat)} (hnd : ((e :: l).map Prod.fst).Nodup)
    (k : κ) :
    (⟨e :: l, hnd⟩ : Tally κ).get k =
      if k = e.1 then e.2 else (⟨l, (List.nodup_cons.mp hnd).2⟩ : Tally κ).get k := by
  unfold get
  rw [List.lookup_cons]
  by_cases hk : k = e.1
  · rw [if_pos hk, beq_iff_eq.mpr hk]
    rfl
  · rw [if_neg hk, beq_eq_false_iff_ne.mpr hk]

theorem get_of_notMem {t : Tally κ} {k : κ} (h : k ∉ t.entries.map Prod.fst) : t.get k = 0 := by
  unfold get
  rw [lookup_eq_none_of_notMem h, Option.getD_none]

/-- Taking out the entry of a key takes its counter out of the sum. -/
theorem sumOf_filter_ne {l : List (κ × Nat)} (hnd : (l.map Prod.fst).Nodup) (k : κ)
    (p : κ → Bool) :
    sumOf (l.filter fun e => e.1 ≠ k) p + (if p k then (l.lookup k).getD 0 else 0) =
      sumOf l p := by
  induction l with
  | nil => simp [sumOf]
  | cons e l ih =>
    obtain ⟨j, n⟩ := e
    rw [List.map_cons, List.nodup_cons] at hnd
    by_cases hj : j = k
    · subst hj
      have hf : ((j, n) :: l).filter (fun e => e.1 ≠ j) = l := by
        have := filter_ne_of_notMem hnd.1
        simpa using this
      rw [hf, sumOf_cons, List.lookup_cons_self, Option.getD_some, Nat.add_comm]
    · have hkj : (k == j) = false := by
        have : k ≠ j := fun h => hj h.symm
        simpa using this
      have hf : ((j, n) :: l).filter (fun e => e.1 ≠ k) =
          (j, n) :: l.filter fun e => e.1 ≠ k := by simp [hj]
      rw [hf, sumOf_cons, sumOf_cons, List.lookup_cons, hkj, Nat.add_assoc]
      exact congrArg _ (ih hnd.2)

theorem total_set {t : Tally κ} {k : κ} {p : κ → Bool} (h : p k = true) (n : Nat) :
    (t.set k n).total p + t.get k = t.total p + n := by
  have hsum := sumOf_filter_ne t.nodup_keys k p
  rw [if_pos h] at hsum
  rw [total, total, ← hsum, set, sumOf_cons, if_pos h, get]
  omega

theorem total_set_of_not {t : Tally κ} {k : κ} {p : κ → Bool} (h : p k = false) (n : Nat) :
    (t.set k n).total p = t.total p := by
  have hsum := sumOf_filter_ne t.nodup_keys k p
  rw [total, total, ← hsum, set, sumOf_cons, h]
  simp

theorem total_add {t : Tally κ} {k : κ} {p : κ → Bool} (h : p k = true) (n : Nat) :
    (t.add k n).total p = t.total p + n := by
  have := total_set (t := t) h (t.get k + n)
  unfold add
  omega

theorem total_add_of_not {t : Tally κ} {k : κ} {p : κ → Bool} (h : p k = false) (n : Nat) :
    (t.add k n).total p = t.total p :=
  total_set_of_not h _

/-- No counter exceeds a total that takes its key in. -/
theorem get_le_total {t : Tally κ} {k : κ} {p : κ → Bool} (h : p k = true) :
    t.get k ≤ t.total p := by
  have := total_set (t := t) h 0
  omega

end Tally

end Mintage
