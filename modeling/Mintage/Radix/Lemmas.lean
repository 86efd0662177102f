import Mathlib.Algebra.Order.Ring.Nat
import Mintage.Radix

/-!
# How large a numeral is

    ds in base b → value b ds < b ^ ds.length                      (value_lt)
    no leading zero → b ^ (ds.length - 1) ≤ value b ds             (pow_le_value)
    b ^ k ≤ n < b ^ (k + 1) → (digits b n).length = k + 1          (length_digits)
    b ^ ds.length ≤ c ^ k → (convert b c ds).length ≤ k            (length_convert_le)
-/

namespace Mintage.Radix

/-- A numeral of `k` digits denotes a number below `b ^ k`. -/
theorem value_lt {b : Nat} {ds : List Nat} (h : ∀ d ∈ ds, d < b) :
    value b ds < b ^ ds.length := by
  rcases eq_nil_or_append_singleton ds with rfl | ⟨init, d, rfl⟩
  · simp
  · have hd : d < b := h d (by simp)
    have hinit : ∀ x ∈ init, x < b := fun x hx => h x (by simp [hx])
    have ih := value_lt hinit
    rw [value_append_singleton, List.length_append, List.length_singleton, Nat.pow_succ]
    calc b * value b init + d < b * value b init + b := by omega
      _ = b * (value b init + 1) := by rw [Nat.mul_add, Nat.mul_one]
      _ ≤ b * b ^ init.length := Nat.mul_le_mul_left _ ih
      _ = b ^ init.length * b := Nat.mul_comm _ _
termination_by ds.length
decreasing_by subst_vars; simp

/-- Without leading zero, a numeral of `k + 1` digits denotes at least `b ^ k`. -/
theorem pow_le_value {b : Nat} (hb : 0 < b) {ds : List Nat} (hne : ds ≠ [])
    (h0 : ds.head? ≠ some 0) : b ^ (ds.length - 1) ≤ value b ds := by
  rcases eq_nil_or_append_singleton ds with rfl | ⟨init, d, rfl⟩
  · exact absurd rfl hne
  · rw [value_append_singleton, List.length_append, List.length_singleton, Nat.add_sub_cancel]
    by_cases hi : init = []
    · subst hi
      have hd : d ≠ 0 := by simpa using h0
      simp only [List.length_nil, Nat.pow_zero, value_nil]
      omega
    · have hh : init.head? ≠ some 0 := by
        rwa [head?_append_of_ne_nil hi] at h0
      have ih := pow_le_value hb hi hh
      have hl : init.length = init.length - 1 + 1 := by
        have := List.length_pos_iff.mpr hi
        omega
      rw [hl, Nat.pow_succ, Nat.mul_comm]
      exact Nat.le_trans (Nat.mul_le_mul_left _ ih) (Nat.le_add_right _ _)
termination_by ds.length
decreasing_by subst_vars; simp

/-- A number below `b ^ k` has at most `k` digits. -/
theorem length_digits_le {b : Nat} (hb : 2 ≤ b) {n k : Nat} (h : n < b ^ k) :
    (digits b n).length ≤ k := by
  by_cases hne : digits b n = []
  · rw [hne]
    exact Nat.zero_le k
  · have hle := pow_le_value (show 0 < b by omega) hne (head?_digits_ne_zero hb n)
    rw [value_digits hb] at hle
    have : (digits b n).length - 1 < k :=
      (Nat.pow_lt_pow_iff_right (show 1 < b by omega)).mp (Nat.lt_of_le_of_lt hle h)
    omega

/-- A number from `b ^ k` on has more than `k` digits. -/
theorem lt_length_digits {b : Nat} (hb : 2 ≤ b) {n k : Nat} (h : b ^ k ≤ n) :
    k < (digits b n).length := by
  have hlt := value_lt fun d hd => lt_of_mem_digits hb (n := n) hd
  rw [value_digits hb] at hlt
  exact (Nat.pow_lt_pow_iff_right (show 1 < b by omega)).mp (Nat.lt_of_le_of_lt h hlt)

/-- The number of digits is where the number lies between powers of the base. -/
theorem length_digits {b : Nat} (hb : 2 ≤ b) {n k : Nat} (hlo : b ^ k ≤ n)
    (hhi : n < b ^ (k + 1)) : (digits b n).length = k + 1 :=
  Nat.le_antisymm (length_digits_le hb hhi) (lt_length_digits hb hlo)

/-! ## Numerals put together -/

/-- Reading on from a number multiplies it once for each digit. -/
theorem foldl_value (b n : Nat) (ds : List Nat) :
    ds.foldl (fun n d => b * n + d) n = n * b ^ ds.length + value b ds := by
  induction ds generalizing n with
  | nil => simp
  | cons d ds ih =>
    have hpow : b * n * b ^ ds.length = n * b ^ (ds.length + 1) := by
      rw [Nat.pow_succ, Nat.mul_comm b n, Nat.mul_assoc, Nat.mul_comm b]
    have hhead : value b (d :: ds) = d * b ^ ds.length + value b ds := by
      show ds.foldl _ (b * 0 + d) = _
      rw [ih, Nat.mul_zero, Nat.zero_add]
    rw [List.foldl_cons, ih, hhead, List.length_cons, ← hpow, Nat.add_mul, Nat.add_assoc]

theorem value_append (b : Nat) (xs ys : List Nat) :
    value b (xs ++ ys) = value b xs * b ^ ys.length + value b ys := by
  show (xs ++ ys).foldl _ 0 = _
  rw [List.foldl_append]
  exact foldl_value b _ ys

theorem value_singleton (b d : Nat) : value b [d] = d := by
  simp [value]

/-! ## How long a numeral is in another base -/

theorem convert_cons_zero (b c : Nat) (ds : List Nat) :
    convert b c (0 :: ds) = 0 :: convert b c ds := by
  have hzero : ∀ z ∈ [0], z = 0 := fun z hz => List.eq_of_mem_singleton hz
  have hvalue : value b (0 :: ds) = value b ds := value_zeros_append b hzero ds
  unfold convert
  rw [List.takeWhile_cons_of_pos rfl, hvalue]
  rfl

/-- A numeral that does not start with zero keeps no zeros. -/
theorem convert_cons_of_ne {b c d : Nat} (hd : d ≠ 0) (ds : List Nat) :
    convert b c (d :: ds) = digits c (value b (d :: ds)) := by
  unfold convert
  rw [List.takeWhile_cons_of_neg (by simpa using hd), List.nil_append]

/-- If `k` digits of the smaller base hold as many numbers, they hold the numeral with all the
zeros that it starts with. -/
theorem length_convert_le {b c : Nat} (hc : 2 ≤ c) (hcb : c ≤ b) {ds : List Nat}
    (h : ∀ d ∈ ds, d < b) {k : Nat} (hk : b ^ ds.length ≤ c ^ k) :
    (convert b c ds).length ≤ k := by
  induction ds generalizing k with
  | nil => exact Nat.zero_le k
  | cons d ds ih =>
    by_cases hd : d = 0
    · subst hd
      rw [List.length_cons] at hk
      cases k with
      | zero =>
        have : 1 < b ^ (ds.length + 1) := Nat.one_lt_pow (by omega) (by omega)
        rw [Nat.pow_zero] at hk
        omega
      | succ k =>
        -- One zero less to hold, and one digit less to hold it.
        have hfewer : b ^ ds.length ≤ c ^ k := by
          refine Nat.le_of_mul_le_mul_right (c := b) ?_ (by omega)
          calc b ^ ds.length * b = b ^ (ds.length + 1) := (Nat.pow_succ ..).symm
            _ ≤ c ^ (k + 1) := hk
            _ = c ^ k * c := Nat.pow_succ ..
            _ ≤ c ^ k * b := Nat.mul_le_mul_left _ hcb
        rw [convert_cons_zero, List.length_cons]
        exact Nat.succ_le_succ (ih (fun x hx => h x (by simp [hx])) hfewer)
    · rw [convert_cons_of_ne hd]
      exact length_digits_le hc (Nat.lt_of_lt_of_le (value_lt h) hk)

/-- A numeral whose number needs more than `k` digits is longer than `k`. -/
theorem lt_length_convert {b c : Nat} (hc : 2 ≤ c) {ds : List Nat} {k : Nat}
    (h : c ^ k ≤ value b ds) : k < (convert b c ds).length := by
  have hlen := lt_length_digits hc h
  unfold convert
  rw [List.length_append]
  omega

end Mintage.Radix
