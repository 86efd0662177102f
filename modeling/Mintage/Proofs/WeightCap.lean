import Mathlib.Algebra.Order.Ring.Nat
import Mintage.Weight

/-!
# The weight of a mint is the exact weight, capped

Products and sums of the estimate stop at the largest 64-bit count, each for itself.  What is
cut off early would be cut off at the end as well, so however many accesses are charged, one
after another, the time is that of the exact sum with one cap:

    (w.charge as).time.toNat =
      min cap (w.time.toNat + sum of count * cost over as)              (toNat_time_charge)
    mint costs = base.charge [(costs.read, 3), (costs.write, 4)]          (mint_eq_charge)

A charge never lowers a weight, and dearer accesses never lower it either (`charge_le_charge`).
-/

namespace Mintage

/-! ## Definitions -/

/-- Neither cost is above the other's. -/
instance : LE StorageCosts where
  le c c' := c.read ≤ c'.read ∧ c.write ≤ c'.write

/-- Neither count is above the other's. -/
instance : LE Weight where
  le v w := v.time ≤ w.time ∧ v.proof ≤ w.proof

namespace Weight

/-- The largest count. -/
def cap : Nat := 2 ^ 64 - 1

/-- The weight after accesses were charged one after another, each of a cost and a number. -/
def charge (w : Weight) (as : List (UInt64 × Nat)) : Weight :=
  as.foldl (fun w a => w.saturatingAdd (accesses a.1 a.2)) w

/-- The time of accesses as an exact number. -/
def exactTime (as : List (UInt64 × Nat)) : Nat := (as.map fun a => a.2 * a.1.toNat).sum

/-! ## Lemmas -/

theorem toNat_saturate (n : Nat) : (saturate n).toNat = min cap n := by
  unfold saturate cap
  rw [UInt64.toNat_ofNat']
  omega

theorem toNat_le_cap (c : UInt64) : c.toNat ≤ cap := by
  have h := c.toNat_lt
  unfold cap
  omega

theorem saturate_toNat (c : UInt64) : saturate c.toNat = c := by
  apply UInt64.toNat_inj.mp
  rw [toNat_saturate]
  exact Nat.min_eq_right (toNat_le_cap c)

/-- A product that was cut off is cut off in the sum too. -/
theorem toNat_time_saturatingAdd (w : Weight) (cost : UInt64) (count : Nat) :
    (w.saturatingAdd (accesses cost count)).time.toNat =
      min cap (w.time.toNat + count * cost.toNat) := by
  show (saturate (w.time.toNat + (saturate (cost.toNat * count)).toNat)).toNat = _
  rw [toNat_saturate, toNat_saturate, Nat.mul_comm cost.toNat]
  omega

/-- Accesses add nothing to the proof. -/
theorem proof_saturatingAdd (w : Weight) (cost : UInt64) (count : Nat) :
    (w.saturatingAdd (accesses cost count)).proof = w.proof := by
  show saturate (w.proof.toNat + 0) = w.proof
  rw [Nat.add_zero, saturate_toNat]

theorem proof_charge (w : Weight) (as : List (UInt64 × Nat)) : (w.charge as).proof = w.proof := by
  unfold charge
  induction as generalizing w with
  | nil => rfl
  | cons a as ih =>
    rw [List.foldl_cons, ih, proof_saturatingAdd]

/-- **One cap for all charges.** -/
theorem toNat_time_charge (w : Weight) (as : List (UInt64 × Nat)) :
    (w.charge as).time.toNat = min cap (w.time.toNat + exactTime as) := by
  unfold charge exactTime
  induction as generalizing w with
  | nil =>
    have h := toNat_le_cap w.time
    simp only [List.foldl_nil, List.map_nil, List.sum_nil]
    omega
  | cons a as ih =>
    rw [List.foldl_cons, ih, toNat_time_saturatingAdd, List.map_cons, List.sum_cons]
    omega

theorem le_iff {v w : Weight} :
    v ≤ w ↔ v.time.toNat ≤ w.time.toNat ∧ v.proof.toNat ≤ w.proof.toNat := by
  show v.time ≤ w.time ∧ v.proof ≤ w.proof ↔ _
  rw [UInt64.le_iff_toNat_le, UInt64.le_iff_toNat_le]

/-- What takes longer exactly is not lighter. -/
theorem charge_le_charge (w : Weight) {as bs : List (UInt64 × Nat)}
    (h : exactTime as ≤ exactTime bs) : w.charge as ≤ w.charge bs := by
  rw [le_iff, toNat_time_charge, toNat_time_charge, proof_charge, proof_charge]
  omega

/-! ## Mints -/

/-- The accesses of a mint. -/
def mintAccesses (costs : StorageCosts) : List (UInt64 × Nat) :=
  [(costs.read, 3), (costs.write, 4)]

theorem mint_eq_charge (costs : StorageCosts) : mint costs = base.charge (mintAccesses costs) := rfl

theorem exactTime_mintAccesses (costs : StorageCosts) :
    exactTime (mintAccesses costs) = 3 * costs.read.toNat + 4 * costs.write.toNat := by
  show 3 * costs.read.toNat + (4 * costs.write.toNat + 0) = _
  rw [Nat.add_zero]

theorem toNat_time_mint (costs : StorageCosts) :
    (mint costs).time.toNat =
      min cap (48000000 + (3 * costs.read.toNat + 4 * costs.write.toNat)) := by
  rw [mint_eq_charge, toNat_time_charge, exactTime_mintAccesses]
  rfl

theorem proof_mint (costs : StorageCosts) : (mint costs).proof = base.proof := by
  rw [mint_eq_charge, proof_charge]

theorem mint_le_mint {costs costs' : StorageCosts} (h : costs ≤ costs') :
    mint costs ≤ mint costs' := by
  have hread : costs.read.toNat ≤ costs'.read.toNat := UInt64.le_iff_toNat_le.mp h.1
  have hwrite : costs.write.toNat ≤ costs'.write.toNat := UInt64.le_iff_toNat_le.mp h.2
  rw [mint_eq_charge, mint_eq_charge]
  apply charge_le_charge
  rw [exactTime_mintAccesses, exactTime_mintAccesses]
  omega

/-- Each part alone weighs no more than the whole. -/
theorem le_mint (costs : StorageCosts) :
    base ≤ mint costs ∧ accesses costs.read 3 ≤ mint costs ∧
      accesses costs.write 4 ≤ mint costs := by
  have htime := toNat_time_mint costs
  have hread : (accesses costs.read 3).time.toNat = min cap (costs.read.toNat * 3) :=
    toNat_saturate _
  have hwrite : (accesses costs.write 4).time.toNat = min cap (costs.write.toNat * 4) :=
    toNat_saturate _
  have hbase : base.time.toNat = min cap 48000000 := by decide
  rw [le_iff, le_iff, le_iff, proof_mint]
  refine ⟨⟨?_, Nat.le_refl _⟩, ⟨?_, Nat.zero_le _⟩, ⟨?_, Nat.zero_le _⟩⟩
  · omega
  · omega
  · omega

/-! ## Top theorem -/

/-- **A capped weight.**  The time of a mint is the exact time of its accesses or the largest
count, whichever is less, and its proof is the one at the base.  So dearer accesses never make
it lighter, and it never falls below what the base, the reads or the writes weigh.  Without
costs of its own it is the mint at the reference costs, which reaches no limit. -/
theorem mint_is_capped (costs : StorageCosts) :
    (mint costs).time.toNat =
      min (2 ^ 64 - 1) (48000000 + 3 * costs.read.toNat + 4 * costs.write.toNat) ∧
    (mint costs).proof = base.proof ∧
    (∀ costs', costs ≤ costs' → mint costs ≤ mint costs') ∧
    (base ≤ mint costs ∧ accesses costs.read 3 ≤ mint costs ∧
      accesses costs.write 4 ≤ mint costs) ∧
    referenceMint = mint ⟨25000000, 100000000⟩ ∧
    referenceMint.time.toNat = 48000000 + 3 * 25000000 + 4 * 100000000 := by
  refine ⟨?_, proof_mint costs, fun costs' => mint_le_mint, le_mint costs, rfl, ?_⟩
  · rw [toNat_time_mint, Nat.add_assoc]
    rfl
  · show (mint ⟨25000000, 100000000⟩).time.toNat = _
    rw [toNat_time_mint]
    decide

/-- Three reads of this cost wrap around to 2, and a mint that pays for them stays at the limit,
with or without writes. -/
theorem capped_where_reads_wrap :
    (6148914691236517206 * 3 : UInt64) = 2 ∧
    (mint ⟨6148914691236517206, 0⟩).time.toNat = 2 ^ 64 - 1 ∧
    mint ⟨6148914691236517206, 0⟩ ≤ mint ⟨6148914691236517206, 7⟩ := by
  obtain ⟨htime, -, hmono, -⟩ := mint_is_capped ⟨6148914691236517206, 0⟩
  refine ⟨by decide, ?_, hmono ⟨6148914691236517206, 7⟩ ⟨by decide, by decide⟩⟩
  rw [htime]
  decide

end Weight

end Mintage
