import Mathlib.Algebra.Order.Ring.Nat
import Mintage.LittleEndian.Lemmas
import Mintage.Scale

/-!
# SCALE decoders read what the encoders write

    Reads (compact? w) compact (· < 256 ^ w)            (reads_compact)
    Reads vector? vector (·.length < 2 ^ 32)            (reads_vector)
    Reads amount? amount, all amounts                   (reads_amount)
    Reads compactAmount? compactAmount, all amounts     (reads_compactAmount)

A composite decoder is taken apart by `bind_eq_some_iff`.
-/

namespace Mintage.Scale

open Decoder

/-! ## Single decoders -/

namespace Decoder

variable {α β : Type}

theorem pure_eq_some_iff {v x : α} {bs rest : Bytes} :
    (pure v : Decoder α) bs = some (x, rest) ↔ x = v ∧ bs = rest := by
  show some (v, bs) = some (x, rest) ↔ _
  rw [Option.some.injEq, Prod.mk.injEq, eq_comm]

theorem bind_eq_some_iff {d : Decoder α} {f : α → Decoder β} {bs rest : Bytes} {y : β} :
    (d >>= f) bs = some (y, rest) ↔ ∃ x mid, d bs = some (x, mid) ∧ f x mid = some (y, rest) := by
  show (d bs).bind (fun p => f p.1 p.2) = some (y, rest) ↔ _
  rw [Option.bind_eq_some_iff]
  constructor
  · rintro ⟨⟨x, mid⟩, hd, hf⟩
    exact ⟨x, mid, hd, hf⟩
  · rintro ⟨x, mid, hd, hf⟩
    exact ⟨(x, mid), hd, hf⟩

theorem byte_eq_some_iff {bs rest : Bytes} {b : UInt8} :
    byte bs = some (b, rest) ↔ bs = b :: rest := by
  cases bs with
  | nil => simp [byte]
  | cons c bs => simp [byte]

theorem take_eq_some_iff {n : Nat} {bs xs rest : Bytes} :
    take n bs = some (xs, rest) ↔ xs.length = n ∧ bs = xs ++ rest := by
  unfold take
  constructor
  · intro h
    split at h
    · next hn =>
      rw [Option.some.injEq, Prod.mk.injEq] at h
      obtain ⟨rfl, rfl⟩ := h
      exact ⟨List.length_take_of_le hn, (List.take_append_drop n bs).symm⟩
    · cases h
  · rintro ⟨rfl, rfl⟩
    simp

theorem check_eq_some_iff {p : Prop} [Decidable p] {v x : α} {bs rest : Bytes} :
    check p v bs = some (x, rest) ↔ p ∧ x = v ∧ bs = rest := by
  unfold check
  split
  · next hp => simp [hp, eq_comm]
  · next hp => simp [hp]

theorem ofOption_eq_some_iff {v? : Option α} {x : α} {bs rest : Bytes} :
    ofOption v? bs = some (x, rest) ↔ v? = some x ∧ bs = rest := by
  cases v? with
  | none => simp [ofOption]
  | some v => simp [ofOption]

end Decoder

theorem compact_of_lt_six {n : Nat} (h : n < 64) : compact n = [UInt8.ofNat (4 * n)] :=
  if_pos h

theorem compact_of_lt_fourteen {n : Nat} (hlo : 64 ≤ n) (h : n < 16384) :
    compact n = LittleEndian.bytes 2 (4 * n + 1) := by
  rw [compact, if_neg (by omega), if_pos h]

theorem compact_of_lt_thirty {n : Nat} (hlo : 16384 ≤ n) (h : n < 0x40000000) :
    compact n = LittleEndian.bytes 4 (4 * n + 2) := by
  rw [compact, if_neg (by omega), if_neg (by omega), if_pos h]

theorem compact_of_thirty_le {n : Nat} (hlo : 0x40000000 ≤ n) :
    compact n = UInt8.ofNat (4 * ((LittleEndian.minimal n).length - 4) + 3) ::
      LittleEndian.minimal n := by
  rw [compact, if_neg (by omega), if_neg (by omega), if_neg (by omega)]

theorem compact?_eq_some {width n : Nat} {bs rest : Bytes} (hw : 4 ≤ width)
    (h : compact? width bs = some (n, rest)) :
    n < 256 ^ width ∧ bs = compact n ++ rest := by
  have hpow : 256 ^ 4 ≤ 256 ^ width := Nat.pow_le_pow_right (by omega) hw
  obtain ⟨first, mid, hbyte, hrest⟩ := bind_eq_some_iff.mp h
  clear h
  obtain rfl := byte_eq_some_iff.mp hbyte
  have hf := first.toNat_lt
  have hmode : first.toNat % 4 = 0 ∨ first.toNat % 4 = 1 ∨ first.toNat % 4 = 2 ∨
      first.toNat % 4 = 3 := by omega
  rcases hmode with hm | hm | hm | hm <;> rw [hm] at hrest
  · obtain ⟨rfl, rfl⟩ := pure_eq_some_iff.mp hrest
    refine ⟨by omega, ?_⟩
    rw [compact_of_lt_six (by omega), show 4 * (first.toNat / 4) = first.toNat by omega,
      UInt8.ofNat_toNat]
    rfl
  · obtain ⟨payload, mid', htake, hcheck⟩ := bind_eq_some_iff.mp hrest
    obtain ⟨hlen, rfl⟩ := take_eq_some_iff.mp htake
    obtain ⟨hlo, rfl, rfl⟩ := check_eq_some_iff.mp hcheck
    have hv := LittleEndian.value_lt payload
    have hb := LittleEndian.bytes_value (first :: payload)
    rw [hlen] at hv
    rw [List.length_cons, hlen, LittleEndian.value] at hb
    refine ⟨by omega, ?_⟩
    rw [compact_of_lt_fourteen hlo (by omega),
      show 4 * (first.toNat / 4 + 64 * LittleEndian.value payload) + 1 =
        first.toNat + 256 * LittleEndian.value payload by omega, hb]
    rfl
  · obtain ⟨payload, mid', htake, hcheck⟩ := bind_eq_some_iff.mp hrest
    obtain ⟨hlen, rfl⟩ := take_eq_some_iff.mp htake
    obtain ⟨hlo, rfl, rfl⟩ := check_eq_some_iff.mp hcheck
    have hv := LittleEndian.value_lt payload
    have hb := LittleEndian.bytes_value (first :: payload)
    rw [hlen] at hv
    rw [List.length_cons, hlen, LittleEndian.value] at hb
    refine ⟨by omega, ?_⟩
    rw [compact_of_lt_thirty hlo (by omega),
      show 4 * (first.toNat / 4 + 64 * LittleEndian.value payload) + 2 =
        first.toNat + 256 * LittleEndian.value payload by omega, hb]
    rfl
  · obtain ⟨u, mid', hcount, hrest⟩ := bind_eq_some_iff.mp hrest
    obtain ⟨hwidth, -, rfl⟩ := check_eq_some_iff.mp hcount
    obtain ⟨payload, mid', htake, hcheck⟩ := bind_eq_some_iff.mp hrest
    obtain ⟨hlen, rfl⟩ := take_eq_some_iff.mp htake
    obtain ⟨⟨hlo, htop⟩, rfl, rfl⟩ := check_eq_some_iff.mp hcheck
    have hv := LittleEndian.value_lt payload
    rw [hlen] at hv
    have hle : 256 ^ (first.toNat / 4 + 4) ≤ 256 ^ width :=
      Nat.pow_le_pow_right (by omega) hwidth
    refine ⟨by omega, ?_⟩
    rw [compact_of_thirty_le hlo, LittleEndian.minimal_value hlen htop, hlen,
      show 4 * (first.toNat / 4 + 3 + 1 - 4) + 3 = first.toNat by omega, UInt8.ofNat_toNat]
    rfl

theorem toNat_ofNat_of_lt {n : Nat} (h : n < 256) : (UInt8.ofNat n).toNat = n := by
  rw [UInt8.toNat_ofNat']
  exact Nat.mod_eq_of_lt h

/-- The first byte of a compact number tells its form and six bits. -/
theorem compact?_cons {w h m : Nat} (hh : h < 64) (hm : m < 4) (bs : Bytes) :
    compact? w (UInt8.ofNat (4 * h + m) :: bs) = compactRest? w h m bs := by
  show compactRest? w _ _ bs = _
  rw [toNat_ofNat_of_lt (by omega), show (4 * h + m) / 4 = h by omega,
    show (4 * h + m) % 4 = m by omega]

theorem compact?_compact {width n : Nat} (hw : width ≤ 67) (hn : n < 256 ^ width)
    (rest : Bytes) : compact? width (compact n ++ rest) = some (n, rest) := by
  by_cases h6 : n < 64
  · rw [compact_of_lt_six h6]
    exact compact?_cons (m := 0) (by omega) (by omega) rest
  by_cases h14 : n < 16384
  · rw [compact_of_lt_fourteen (by omega) h14]
    have hv := LittleEndian.value_bytes 1 ((4 * n + 1) / 256)
    rw [LittleEndian.bytes, show (4 * n + 1) % 256 = 4 * (n % 64) + 1 by omega, List.cons_append,
      compact?_cons (by omega) (by omega)]
    refine bind_eq_some_iff.mpr ⟨_, _, take_eq_some_iff.mpr ⟨LittleEndian.length_bytes _ _, rfl⟩, ?_⟩
    exact check_eq_some_iff.mpr ⟨by omega, by omega, rfl⟩
  by_cases h30 : n < 0x40000000
  · rw [compact_of_lt_thirty (by omega) h30]
    have hv := LittleEndian.value_bytes 3 ((4 * n + 2) / 256)
    rw [LittleEndian.bytes, show (4 * n + 2) % 256 = 4 * (n % 64) + 2 by omega, List.cons_append,
      compact?_cons (by omega) (by omega)]
    refine bind_eq_some_iff.mpr ⟨_, _, take_eq_some_iff.mpr ⟨LittleEndian.length_bytes _ _, rfl⟩, ?_⟩
    exact check_eq_some_iff.mpr ⟨by omega, by omega, rfl⟩
  · have hlt := LittleEndian.lt_pow_length_minimal n
    have hle := LittleEndian.pow_length_minimal_le (n := n) (by omega)
    have hv := LittleEndian.value_minimal n
    rw [compact_of_thirty_le (by omega)]
    generalize LittleEndian.minimal n = payload at hlt hle hv
    have hlo : 3 < payload.length := by
      refine (Nat.pow_lt_pow_iff_right (show 1 < 256 by omega)).mp (Nat.lt_of_le_of_lt ?_ hlt)
      omega
    have hhi : payload.length - 1 < width :=
      (Nat.pow_lt_pow_iff_right (show 1 < 256 by omega)).mp (Nat.lt_of_le_of_lt hle hn)
    have htop := (LittleEndian.getLast?_ne_zero_iff (by rintro rfl; cases hlo)).mpr (hv ▸ hle)
    rw [List.cons_append, compact?_cons (by omega) (by omega)]
    refine bind_eq_some_iff.mpr ⟨(), _, check_eq_some_iff.mpr ⟨by omega, rfl, rfl⟩, ?_⟩
    refine bind_eq_some_iff.mpr ⟨payload, rest, take_eq_some_iff.mpr ⟨by omega, rfl⟩, ?_⟩
    exact check_eq_some_iff.mpr ⟨⟨by omega, htop⟩, by omega, rfl⟩

/-- A compact number below `256 ^ width` is read back from its bytes alone. -/
theorem reads_compact {width : Nat} (hlo : 4 ≤ width) (hhi : width ≤ 67) :
    Reads (compact? width) compact (· < 256 ^ width) := by
  intro bs n rest
  constructor
  · exact compact?_eq_some hlo
  · rintro ⟨hn, rfl⟩
    exact compact?_compact hhi hn rest

/-- A vector of less than 2 ^ 32 bytes is read back from its bytes alone. -/
theorem reads_vector : Reads vector? vector fun bs => bs.length < 2 ^ 32 := by
  intro bs xs rest
  unfold vector?
  rw [bind_eq_some_iff]
  constructor
  · rintro ⟨n, mid, hn, htake⟩
    obtain ⟨rfl, rfl⟩ := take_eq_some_iff.mp htake
    obtain ⟨hlt, rfl⟩ := (reads_compact (by omega) (by omega) _ _ _).mp hn
    exact ⟨hlt, (List.append_assoc _ _ _).symm⟩
  · rintro ⟨hlt, rfl⟩
    refine ⟨xs.length, xs ++ rest, ?_, take_eq_some_iff.mpr ⟨rfl, rfl⟩⟩
    exact (reads_compact (by omega) (by omega) _ _ _).mpr ⟨hlt, List.append_assoc _ _ _⟩

/-- So is a vector within its bound. -/
theorem reads_boundedVector (bound : Nat) :
    Reads (boundedVector? bound) vector fun bs => bs.length ≤ bound ∧ bs.length < 2 ^ 32 := by
  intro bs xs rest
  unfold boundedVector?
  rw [bind_eq_some_iff]
  constructor
  · rintro ⟨ys, mid, hy, hcheck⟩
    obtain ⟨hle, rfl, rfl⟩ := check_eq_some_iff.mp hcheck
    obtain ⟨hlt, h⟩ := (reads_vector _ _ _).mp hy
    exact ⟨⟨hle, hlt⟩, h⟩
  · rintro ⟨⟨hle, hlt⟩, h⟩
    exact ⟨xs, rest, (reads_vector _ _ _).mpr ⟨hlt, h⟩, check_eq_some_iff.mpr ⟨hle, rfl, rfl⟩⟩

/-- Every amount is read back from its sixteen bytes alone. -/
theorem reads_amount : Reads amount? amount fun _ => True := by
  intro bs a rest
  unfold amount?
  rw [bind_eq_some_iff]
  constructor
  · rintro ⟨xs, mid, htake, hopt⟩
    obtain ⟨hlen, rfl⟩ := take_eq_some_iff.mp htake
    obtain ⟨ha, rfl⟩ := ofOption_eq_some_iff.mp hopt
    have hv := Amount.ofNat?_eq_some_iff.mp ha
    refine ⟨trivial, ?_⟩
    rw [amount, hv, ← hlen, LittleEndian.bytes_value]
  · rintro ⟨-, rfl⟩
    refine ⟨amount a, rest, take_eq_some_iff.mpr ⟨LittleEndian.length_bytes _ _, rfl⟩, ?_⟩
    have hv := LittleEndian.value_bytes 16 a.toNat
    have ha : a.toNat < 256 ^ 16 := Nat.lt_of_lt_of_le a.toNat_lt (by decide)
    rw [Nat.mod_eq_of_lt ha] at hv
    rw [amount, hv, Amount.ofNat?_toNat]
    rfl

/-- Every amount is read back from its compact bytes alone. -/
theorem reads_compactAmount : Reads compactAmount? compactAmount fun _ => True := by
  intro bs a rest
  unfold compactAmount?
  rw [bind_eq_some_iff]
  constructor
  · rintro ⟨n, mid, hn, hopt⟩
    obtain ⟨ha, rfl⟩ := ofOption_eq_some_iff.mp hopt
    obtain rfl := Amount.ofNat?_eq_some_iff.mp ha
    obtain ⟨-, h⟩ := (reads_compact (by omega) (by omega) _ _ _).mp hn
    exact ⟨trivial, h⟩
  · rintro ⟨-, h⟩
    have hlt : a.toNat < 256 ^ 16 := Nat.lt_of_lt_of_le a.toNat_lt (by decide)
    refine ⟨a.toNat, rest, (reads_compact (by omega) (by omega) _ _ _).mpr ⟨hlt, h⟩, ?_⟩
    rw [Amount.ofNat?_toNat]
    rfl

theorem tag?_eq_some_iff {tag : UInt8} {bs rest : Bytes} :
    tag? tag bs = some ((), rest) ↔ bs = tag :: rest := by
  unfold tag?
  rw [bind_eq_some_iff]
  constructor
  · rintro ⟨b, mid, hb, hcheck⟩
    obtain ⟨rfl, -, rfl⟩ := check_eq_some_iff.mp hcheck
    exact byte_eq_some_iff.mp hb
  · rintro rfl
    exact ⟨tag, rest, byte_eq_some_iff.mpr rfl, check_eq_some_iff.mpr ⟨rfl, rfl, rfl⟩⟩

end Mintage.Scale
