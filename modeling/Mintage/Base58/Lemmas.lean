import Mintage.Base58
import Mintage.Radix.Lemmas

/-!
# How long a Base58 text is

A text is as long as the number of its bytes needs, and one longer for each zero byte that
they start with:

    256 ^ bs.length ≤ 58 ^ k → (encode bs).length ≤ k                      (length_encode_le)
    b ≠ 0 → (b + 1) * 256 ^ bs.length ≤ 58 ^ k →
      (encode (b :: bs)).length ≤ k                                   (length_encode_cons_le)
    58 ^ k ≤ number head * 256 ^ rest.length →
      k < (encode (head ++ rest)).length                            (lt_length_encode_append)
-/

namespace Mintage.Base58

/-- The number that the bytes are read as, the first one highest. -/
def number (bs : Bytes) : Nat := Radix.value 256 (bs.map UInt8.toNat)

theorem number_lt (bs : Bytes) : number bs < 256 ^ bs.length := by
  have h := Radix.value_lt (b := 256) fun d (hd : d ∈ bs.map UInt8.toNat) => lt_of_mem_map_toNat hd
  rwa [List.length_map] at h

theorem number_append (bs bs' : Bytes) :
    number (bs ++ bs') = number bs * 256 ^ bs'.length + number bs' := by
  unfold number
  rw [List.map_append, Radix.value_append, List.length_map]

theorem number_singleton (b : UInt8) : number [b] = b.toNat := Radix.value_singleton 256 _

theorem number_pair (b b' : UInt8) : number [b, b'] = b.toNat * 256 + b'.toNat := by
  have h := number_append [b] [b']
  rwa [number_singleton, number_singleton] at h

theorem length_encode (bs : Bytes) :
    (encode bs).length = (Radix.convert 256 58 (bs.map UInt8.toNat)).length := by
  unfold encode
  rw [List.length_map]

theorem length_encode_cons_zero (bs : Bytes) :
    (encode (0 :: bs)).length = (encode bs).length + 1 := by
  rw [length_encode, length_encode, List.map_cons]
  show (Radix.convert 256 58 (0 :: _)).length = _
  rw [Radix.convert_cons_zero, List.length_cons]

theorem length_encode_le {bs : Bytes} {k : Nat} (h : 256 ^ bs.length ≤ 58 ^ k) :
    (encode bs).length ≤ k := by
  rw [length_encode]
  refine Radix.length_convert_le (by omega) (by omega) (fun d hd => lt_of_mem_map_toNat hd) ?_
  rwa [List.length_map]

/-- Bytes that do not start with zero have the text of their number. -/
theorem length_encode_cons_le {b : UInt8} (hb : b ≠ 0) {bs : Bytes} {k : Nat}
    (h : (b.toNat + 1) * 256 ^ bs.length ≤ 58 ^ k) : (encode (b :: bs)).length ≤ k := by
  have hne : b.toNat ≠ 0 := fun h0 => hb (UInt8.toNat_inj.mp h0)
  have hlt := number_lt bs
  have hnumber : number (b :: bs) = b.toNat * 256 ^ bs.length + number bs := by
    have h' := number_append [b] bs
    rwa [number_singleton] at h'
  rw [length_encode, List.map_cons, Radix.convert_cons_of_ne hne]
  refine Radix.length_digits_le (by omega) ?_
  show number (b :: bs) < 58 ^ k
  rw [Nat.add_mul, Nat.one_mul] at h
  omega

/-- A text is longer than the number of the first bytes alone makes it. -/
theorem lt_length_encode_append (head rest : Bytes) {k : Nat}
    (h : 58 ^ k ≤ number head * 256 ^ rest.length) : k < (encode (head ++ rest)).length := by
  rw [length_encode]
  refine Radix.lt_length_convert (by omega) ?_
  show 58 ^ k ≤ number (head ++ rest)
  rw [number_append]
  exact Nat.le_trans h (Nat.le_add_right _ _)

end Mintage.Base58
