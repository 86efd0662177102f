import Mathlib.Algebra.Order.Ring.Nat
import Mintage.LittleEndian
import Mintage.Radix.Lemmas

/-!
# How large a little-endian number is

    value (bytes w n) = n % 256 ^ w          (value_bytes)
    value (minimal n) = n                    (value_minimal)
    no zero byte at the high end → minimal (value bs) = bs     (minimal_value)
-/

namespace Mintage.LittleEndian

theorem value_lt (bs : Bytes) : value bs < 256 ^ bs.length := by
  induction bs with
  | nil => simp [value]
  | cons b bs ih =>
    have hb := b.toNat_lt
    simp only [value, List.length_cons, Nat.pow_succ]
    omega

theorem value_bytes (width n : Nat) : value (bytes width n) = n % 256 ^ width := by
  induction width generalizing n with
  | zero => simp [bytes, value, Nat.mod_one]
  | succ width ih =>
    have h : (UInt8.ofNat (n % 256)).toNat = n % 256 := by
      rw [UInt8.toNat_ofNat']; omega
    rw [bytes, value, ih, h, Nat.pow_succ', Nat.mod_mul]

theorem lt_pow_length_minimal (n : Nat) : n < 256 ^ (minimal n).length := by
  have hlt := Radix.value_lt fun d hd => Radix.lt_of_mem_digits (b := 256) (by omega) (n := n) hd
  rwa [Radix.value_digits (by omega), ← length_bytes (Radix.digits 256 n).length n] at hlt

theorem pow_length_minimal_le {n : Nat} (hn : 0 < n) : 256 ^ ((minimal n).length - 1) ≤ n := by
  have hne : Radix.digits 256 n ≠ [] := by
    rw [Radix.digits_of_pos (by omega) hn]
    simp
  have hle := Radix.pow_le_value (b := 256) (by omega) hne
    (Radix.head?_digits_ne_zero (by omega) n)
  rwa [Radix.value_digits (by omega), ← length_bytes (Radix.digits 256 n).length n] at hle

theorem value_minimal (n : Nat) : value (minimal n) = n := by
  have hlt := lt_pow_length_minimal n
  rw [minimal, length_bytes] at hlt
  rw [minimal, value_bytes, Nat.mod_eq_of_lt hlt]

/-- The byte at the high end is zero exactly if the number fits in one byte less. -/
theorem getLast?_ne_zero_iff {bs : Bytes} (hne : bs ≠ []) :
    bs.getLast? ≠ some 0 ↔ 256 ^ (bs.length - 1) ≤ value bs := by
  induction bs with
  | nil => exact absurd rfl hne
  | cons b bs ih =>
    cases bs with
    | nil =>
      have hzero : b = 0 ↔ b.toNat = 0 := UInt8.toNat_inj.symm
      rw [List.getLast?_singleton, ne_eq, Option.some.injEq, hzero, List.length_singleton, value,
        value, Nat.sub_self, Nat.pow_zero]
      omega
    | cons c cs =>
      have hb := b.toNat_lt
      rw [List.getLast?_cons_cons, ih (List.cons_ne_nil c cs)]
      show 256 ^ cs.length ≤ value (c :: cs) ↔
        256 ^ (cs.length + 1) ≤ b.toNat + 256 * value (c :: cs)
      rw [Nat.pow_succ]
      omega

/-- Bytes that end in a nonzero byte are the minimal bytes of their number. -/
theorem minimal_value {bs : Bytes} {k : Nat} (hlen : bs.length = k + 1)
    (htop : bs.getLast? ≠ some 0) : minimal (value bs) = bs := by
  have hhi := value_lt bs
  have hlo := (getLast?_ne_zero_iff (by rintro rfl; cases hlen)).mp htop
  rw [hlen] at hhi
  rw [hlen, Nat.add_sub_cancel] at hlo
  rw [minimal, Radix.length_digits (by omega) hlo hhi, ← hlen, bytes_value]

end Mintage.LittleEndian
