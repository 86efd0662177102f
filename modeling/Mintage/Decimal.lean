import Mintage.Bytes
import Mintage.Radix

/-!
# Decimal numerals

ASCII digits without sign or leading zero; zero is the single digit `0`.

    decode? (encode n) = some n     (decode?_encode)
-/

namespace Mintage.Decimal

/-! ## Algorithm -/

def encode (n : Nat) : Bytes :=
  if n = 0 then [48] else (Radix.digits 10 n).map fun d => UInt8.ofNat (48 + d)

def digit? (b : UInt8) : Option Nat :=
  if 48 ≤ b.toNat ∧ b.toNat ≤ 57 then some (b.toNat - 48) else none

/-- Reads one or more decimal digits. -/
def decode? (bs : Bytes) : Option Nat :=
  if bs = [] then none else (bs.mapM digit?).map (Radix.value 10)

/-! ## Lemmas -/

theorem digit?_ofNat {d : Nat} (h : d < 10) : digit? (UInt8.ofNat (48 + d)) = some d := by
  have : (UInt8.ofNat (48 + d)).toNat = 48 + d := by
    rw [UInt8.toNat_ofNat']; omega
  unfold digit?
  rw [this, if_pos (by omega)]
  congr 1; omega

theorem mapM_digit? {ds : List Nat} (h : ∀ d ∈ ds, d < 10) :
    (ds.map fun d => UInt8.ofNat (48 + d)).mapM digit? = some ds := by
  induction ds with
  | nil => rfl
  | cons d ds ih =>
    rw [List.map_cons, List.mapM_cons, digit?_ofNat (h d (by simp)),
      ih fun x hx => h x (by simp [hx])]
    rfl

/-- Every number is read back from its numeral. -/
theorem decode?_encode (n : Nat) : decode? (encode n) = some n := by
  by_cases hn : n = 0
  · subst hn; rfl
  · have hne : Radix.digits 10 n ≠ [] := by
      rw [Radix.digits_of_pos (by omega) (by omega)]; simp
    simp only [decode?, encode, if_neg hn, List.map_eq_nil_iff, if_neg hne]
    rw [mapM_digit? fun d hd => Radix.lt_of_mem_digits (by omega) hd]
    simp [Radix.value_digits]

end Mintage.Decimal
