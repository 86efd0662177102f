import Mathlib.Data.List.Induction
import Mathlib.Data.Nat.Digits.Defs
import Mintage.Decimal
import Mintage.Radix.Lemmas

/-!
# The numeral of a number

A numeral is one or more ASCII digits, without sign and without leading zero, zero being the
single digit `0`; it denotes the sum of its digits, each times ten for every digit that follows.
Every number has exactly one, and it is what `encode` writes:

    Numeral n bs ↔ bs = encode n                                           (numeral_iff)
    decode? bs = some n ↔ bs are one or more digits that denote n  (decode?_eq_some_iff)
    0 < k → n < 10 ^ k → (encode n).length ≤ k                        (length_encode_le)
-/

namespace Mintage.Decimal

/-! ## Definitions -/

/-- One of the bytes `0` to `9`. -/
def IsDigit (b : UInt8) : Prop := 48 ≤ b.toNat ∧ b.toNat ≤ 57

/-- The digits that bytes stand for. -/
def places (bs : Bytes) : List Nat := bs.map fun b => b.toNat - 48

/-- The number that a row of digits denotes; the ones stand last. -/
def denoted (bs : Bytes) : Nat := Nat.ofDigits 10 (places bs).reverse

/-- The bytes are a numeral of the number. -/
structure Numeral (n : Nat) (bs : Bytes) : Prop where
  ne_nil : bs ≠ []
  isDigit : ∀ b ∈ bs, IsDigit b
  eq_zero_of_lead : bs.head? = some 48 → bs = [48]
  denoted_eq : denoted bs = n

/-! ## Reading -/

theorem digit?_eq_some_iff {b : UInt8} {d : Nat} :
    digit? b = some d ↔ IsDigit b ∧ b.toNat - 48 = d := by
  unfold digit? IsDigit
  split
  · next h => simp [h]
  · next h => simp [h]

theorem mapM_digit?_eq_some_iff {bs : Bytes} {ds : List Nat} :
    bs.mapM digit? = some ds ↔ (∀ b ∈ bs, IsDigit b) ∧ places bs = ds := by
  induction bs generalizing ds with
  | nil => simp [places]
  | cons b bs ih =>
    rw [List.mapM_cons, List.forall_mem_cons]
    constructor
    · intro h
      obtain ⟨d, hd, ds', hds, heq⟩ := by simpa [Option.bind_eq_some_iff] using h
      obtain ⟨hb, rfl⟩ := digit?_eq_some_iff.mp hd
      obtain ⟨hbs, rfl⟩ := ih.mp hds
      exact ⟨⟨hb, hbs⟩, heq⟩
    · rintro ⟨⟨hb, hbs⟩, rfl⟩
      rw [digit?_eq_some_iff.mpr ⟨hb, rfl⟩, ih.mpr ⟨hbs, rfl⟩]
      rfl

/-- The value of digits in a base, with the ones first. -/
theorem value_eq_ofDigits (b : Nat) (ds : List Nat) :
    Radix.value b ds = Nat.ofDigits b ds.reverse := by
  induction ds using List.reverseRecOn with
  | nil => rfl
  | append_singleton ds d ih =>
    rw [Radix.value_append_singleton, List.reverse_concat, Nat.ofDigits_cons, ih]
    exact Nat.add_comm _ _

theorem decode?_eq_some_iff {bs : Bytes} {n : Nat} :
    decode? bs = some n ↔ bs ≠ [] ∧ (∀ b ∈ bs, IsDigit b) ∧ denoted bs = n := by
  unfold decode? denoted
  by_cases hnil : bs = []
  · simp [hnil]
  · rw [if_neg hnil, Option.map_eq_some_iff, ← value_eq_ofDigits]
    constructor
    · rintro ⟨ds, hds, hn⟩
      obtain ⟨hdigits, rfl⟩ := mapM_digit?_eq_some_iff.mp hds
      exact ⟨hnil, hdigits, hn⟩
    · rintro ⟨-, hdigits, hn⟩
      exact ⟨places bs, mapM_digit?_eq_some_iff.mpr ⟨hdigits, rfl⟩, hn⟩

/-! ## Writing -/

/-- A positive number is written as its digits in base ten. -/
theorem encode_of_pos {n : Nat} (h : 0 < n) :
    encode n = (Radix.digits 10 n).map fun d => UInt8.ofNat (48 + d) :=
  if_neg (Nat.ne_of_gt h)

/-- Digits are the bytes of what they stand for. -/
theorem map_places {bs : Bytes} (h : ∀ b ∈ bs, IsDigit b) :
    (places bs).map (fun d => UInt8.ofNat (48 + d)) = bs := by
  unfold places
  rw [List.map_map]
  refine (List.map_congr_left ?_).trans (List.map_id bs)
  intro b hb
  have hdigit := (h b hb).1
  show UInt8.ofNat (48 + (b.toNat - 48)) = b
  rw [show 48 + (b.toNat - 48) = b.toNat by omega]
  exact UInt8.ofNat_toNat

theorem lt_of_mem_places {bs : Bytes} (h : ∀ b ∈ bs, IsDigit b) : ∀ d ∈ places bs, d < 10 := by
  intro d hd
  obtain ⟨b, hb, rfl⟩ := List.mem_map.mp hd
  have hdigit := (h b hb).2
  omega

/-- Only the number zero starts with the digit zero. -/
theorem eq_zero_of_head?_encode {n : Nat} (h : (encode n).head? = some 48) : n = 0 := by
  apply Classical.byContradiction
  intro hn
  rw [encode_of_pos (Nat.pos_of_ne_zero hn), List.head?_map] at h
  obtain ⟨d, hd, hbyte⟩ := Option.map_eq_some_iff.mp h
  have hlt : d < 10 := Radix.lt_of_mem_digits (by omega) (List.mem_of_head? hd)
  have hzero : d = 0 := by
    have heq := congrArg UInt8.toNat hbyte
    rw [UInt8.toNat_ofNat', show (48 : UInt8).toNat = 48 from rfl] at heq
    omega
  subst hzero
  exact Radix.head?_digits_ne_zero (by omega) n hd

theorem numeral_encode (n : Nat) : Numeral n (encode n) := by
  obtain ⟨hne, hdigits, hn⟩ := decode?_eq_some_iff.mp (decode?_encode n)
  refine ⟨hne, hdigits, ?_, hn⟩
  intro hlead
  rw [eq_zero_of_head?_encode hlead]
  rfl

/-- A row of digits that does not start with zero stands for digits that do not. -/
theorem head?_places_ne_zero {bs : Bytes} (hdigits : ∀ b ∈ bs, IsDigit b)
    (hlead : bs.head? ≠ some 48) : (places bs).head? ≠ some 0 := by
  intro h
  unfold places at h
  rw [List.head?_map] at h
  obtain ⟨b, hb, hzero⟩ := Option.map_eq_some_iff.mp h
  have hdigit := (hdigits b (List.mem_of_head? hb)).1
  have hb48 : b = 48 := by
    apply UInt8.toNat_inj.mp
    show b.toNat = 48
    omega
  rw [hb48] at hb
  exact hlead hb

theorem Numeral.eq_encode {n : Nat} {bs : Bytes} (h : Numeral n bs) : bs = encode n := by
  obtain ⟨hne, hdigits, hlead, rfl⟩ := h
  by_cases h48 : bs.head? = some 48
  · rw [hlead h48]
    rfl
  · have hplaces := head?_places_ne_zero hdigits h48
    have hplaces_ne : places bs ≠ [] := fun hnil => hne (List.map_eq_nil_iff.mp hnil)
    unfold denoted
    rw [← value_eq_ofDigits, encode_of_pos (Radix.value_pos (by omega) hplaces_ne hplaces),
      Radix.digits_value (by omega) (lt_of_mem_places hdigits) hplaces, map_places hdigits]

/-- **Exactly one numeral for each number.** -/
theorem numeral_iff {n : Nat} {bs : Bytes} : Numeral n bs ↔ bs = encode n := by
  constructor
  · intro h
    exact h.eq_encode
  · rintro rfl
    exact numeral_encode n

theorem length_encode_le {n k : Nat} (hk : 0 < k) (h : n < 10 ^ k) : (encode n).length ≤ k := by
  rcases Nat.eq_zero_or_pos n with rfl | hn
  · exact hk
  · rw [encode_of_pos hn, List.length_map]
    exact Radix.length_digits_le (by omega) h

end Mintage.Decimal
