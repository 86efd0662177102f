import Mintage.Bytes
import Mintage.Radix

/-!
# Base58 text

A byte string read as a base-256 numeral and written in base 58; each leading
zero byte becomes one leading `1`.

    decode? text = some bs ↔ text = encode bs     (decode?_eq_some_iff)
-/

namespace Mintage.Base58

/-! ## Algorithm -/

/-- The digits in order; `0`, `I`, `O` and `l` are left out. -/
def alphabet : Bytes :=
  Bytes.ofText "123456789ABCDEFGHJKLMNPQRSTUVWXYZabcdefghijkmnopqrstuvwxyz"

def symbol (d : Nat) : UInt8 := alphabet.getD d 49

def digit? (c : UInt8) : Option Nat := alphabet.idxOf? c

def encode (bs : Bytes) : Bytes :=
  (Radix.convert 256 58 (bs.map UInt8.toNat)).map symbol

/-- Refuses every byte outside the alphabet. -/
def decode? (text : Bytes) : Option Bytes := do
  let ds ← text.mapM digit?
  pure ((Radix.convert 58 256 ds).map UInt8.ofNat)

/-! ## Lemmas -/

theorem digit?_symbol : ∀ d, d < 58 → digit? (symbol d) = some d := by
  decide +kernel

theorem symbol_of_digit?_toNat : ∀ n, n < 256 →
    (digit? (UInt8.ofNat n)).all (fun d => d < 58 && symbol d == UInt8.ofNat n) = true := by
  decide +kernel

theorem symbol_of_digit? {c : UInt8} {d : Nat} (h : digit? c = some d) :
    d < 58 ∧ symbol d = c := by
  have hc := symbol_of_digit?_toNat c.toNat c.toNat_lt
  rw [UInt8.ofNat_toNat, h] at hc
  simpa using hc

theorem mapM_digit?_symbol {ds : List Nat} (h : ∀ d ∈ ds, d < 58) :
    (ds.map symbol).mapM digit? = some ds := by
  induction ds with
  | nil => rfl
  | cons d ds ih =>
    rw [List.map_cons, List.mapM_cons, digit?_symbol d (h d (by simp)),
      ih fun x hx => h x (by simp [hx])]
    rfl

theorem eq_map_symbol {text : Bytes} {ds : List Nat} (h : text.mapM digit? = some ds) :
    text = ds.map symbol ∧ ∀ d ∈ ds, d < 58 := by
  induction text generalizing ds with
  | nil =>
    obtain rfl : [] = ds := by simpa using h
    simp
  | cons c text ih =>
    rw [List.mapM_cons] at h
    cases hd : digit? c with
    | none => simp [hd] at h
    | some d =>
      cases hs : text.mapM digit? with
      | none => simp [hd, hs] at h
      | some ds' =>
        obtain rfl : d :: ds' = ds := by simpa [hd, hs] using h
        obtain ⟨hlt, hsym⟩ := symbol_of_digit? hd
        obtain ⟨ht, hall⟩ := ih hs
        refine ⟨by rw [List.map_cons, hsym, ← ht], fun x hx => ?_⟩
        rcases List.mem_cons.mp hx with rfl | hx
        · exact hlt
        · exact hall x hx

theorem map_toNat_ofNat {ds : List Nat} (h : ∀ d ∈ ds, d < 256) :
    (ds.map UInt8.ofNat).map UInt8.toNat = ds := by
  induction ds with
  | nil => rfl
  | cons d ds ih =>
    have hd : d < 256 := h d (by simp)
    rw [List.map_cons, List.map_cons, ih fun x hx => h x (by simp [hx]), UInt8.toNat_ofNat']
    rw [Nat.mod_eq_of_lt hd]

theorem map_ofNat_toNat (bs : Bytes) : (bs.map UInt8.toNat).map UInt8.ofNat = bs := by
  induction bs with
  | nil => rfl
  | cons b bs ih => rw [List.map_cons, List.map_cons, ih, UInt8.ofNat_toNat]

theorem lt_of_mem_map_toNat {bs : Bytes} {d : Nat} (h : d ∈ bs.map UInt8.toNat) : d < 256 := by
  obtain ⟨b, -, rfl⟩ := List.mem_map.mp h
  exact b.toNat_lt

/-- Reading accepts exactly what writing produces. -/
theorem decode?_eq_some_iff {text bs : Bytes} : decode? text = some bs ↔ text = encode bs := by
  constructor
  · intro h
    cases hs : text.mapM digit? with
    | none => simp [decode?, hs] at h
    | some ds =>
      obtain ⟨rfl, hlt⟩ := eq_map_symbol hs
      obtain rfl : (Radix.convert 58 256 ds).map UInt8.ofNat = bs := by
        simpa [decode?, hs] using h
      have hmem : ∀ d ∈ Radix.convert 58 256 ds, d < 256 := fun d hd =>
        Radix.lt_of_mem_convert (by omega) hd
      rw [encode, map_toNat_ofNat hmem, Radix.convert_convert (by omega) (by omega) hlt]
  · rintro rfl
    have hmem : ∀ d ∈ Radix.convert 256 58 (bs.map UInt8.toNat), d < 58 := fun d hd =>
      Radix.lt_of_mem_convert (by omega) hd
    have hlt : ∀ d ∈ bs.map UInt8.toNat, d < 256 := fun d hd => lt_of_mem_map_toNat hd
    simp only [decode?, encode, mapM_digit?_symbol hmem, Option.bind_eq_bind, Option.bind_some,
      Option.pure_def]
    rw [Radix.convert_convert (by omega) (by omega) hlt, map_ofNat_toNat]

theorem encode_inj {bs bs' : Bytes} : encode bs = encode bs' ↔ bs = bs' := by
  constructor
  · intro h
    have hread : decode? (encode bs) = some bs' := decode?_eq_some_iff.mpr h
    rw [decode?_eq_some_iff.mpr rfl] at hread
    exact Option.some.inj hread
  · rintro rfl
    rfl

end Mintage.Base58
