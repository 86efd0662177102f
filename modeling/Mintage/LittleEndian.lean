import Mintage.Bytes
import Mintage.Radix

/-!
# Little-endian numbers

Base-256 numerals, low byte first.

    bytes bs.length (value bs) = bs     (bytes_value)
-/

namespace Mintage.LittleEndian

/-! ## Algorithm -/

/-- The number whose bytes are given, low byte first. -/
def value : Bytes → Nat
  | [] => 0
  | b :: bs => b.toNat + 256 * value bs

/-- The `width` low bytes of `n`. -/
def bytes : Nat → Nat → Bytes
  | 0, _ => []
  | width + 1, n => UInt8.ofNat (n % 256) :: bytes width (n / 256)

/-- The bytes of `n` without a zero byte at the high end; zero has none. -/
def minimal (n : Nat) : Bytes := bytes (Radix.digits 256 n).length n

/-! ## Lemmas -/

@[simp] theorem length_bytes (width n : Nat) : (bytes width n).length = width := by
  induction width generalizing n with
  | zero => rfl
  | succ width ih => simp [bytes, ih]

theorem bytes_value (bs : Bytes) : bytes bs.length (value bs) = bs := by
  induction bs with
  | nil => rfl
  | cons b bs ih =>
    have hb := b.toNat_lt
    have hmod : (b.toNat + 256 * value bs) % 256 = b.toNat := by omega
    have hdiv : (b.toNat + 256 * value bs) / 256 = value bs := by omega
    rw [List.length_cons, bytes, value, hmod, hdiv, ih, UInt8.ofNat_toNat]

end Mintage.LittleEndian
