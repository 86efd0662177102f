import Mintage.Base58.Lemmas
import Mintage.Health

/-!
# The longest address text

Accounts have texts of different lengths.  Which lengths occur depends on where the powers of
58 fall among the numbers that start with the network bytes; on every network the text of a
holding account, which starts with `m`, is among the longest:

    (encode checksum network a).length ≤ longest network                   (length_encode_le)
    (encode checksum network (.holding m)).length = longest network   (length_encode_holding)

So the network alone tells which bounds fit, and what fits the holding account fits all:

    Health.boundFits s = true ↔ SS58.longest s.network ≤ s.bounds.address     (boundFits_iff)
    Health.boundFits s = true → s.fitsAddress (s.addressOf a) = true  (fitsAddress_addressOf)
-/

namespace Mintage

namespace SS58

/-! ## Definitions -/

/-- The length of the longest text of an account on a network. -/
def longest (network : Network) : Nat :=
  let n := network.toNat % 16384
  if n = 0 then 48 else if n < 10 then 47 else if n < 64 then 48 else 49

/-- What decides the longest length about the network bytes.  Behind one byte that is not zero
stand 34 others, and `58 ^ 47` lies between `10 * 256 ^ 34` and `11 * 256 ^ 34`. -/
inductive Lead : Bytes → Nat → Prop
  | zero : Lead [0] 48
  | low {b : UInt8} : 1 ≤ b.toNat → b.toNat < 10 → Lead [b] 47
  | middle {b : UInt8} : 10 ≤ b.toNat → b.toNat < 64 → Lead [b] 48
  | high {b b' : UInt8} : 64 ≤ b.toNat → b.toNat < 128 → Lead [b, b'] 49

/-! ## Texts of one network -/

theorem lead_networkBytes (network : Network) : Lead (networkBytes network) (longest network) := by
  have hn : network.toNat % 16384 < 16384 := Nat.mod_lt _ (by omega)
  unfold networkBytes longest
  generalize network.toNat % 16384 = n at hn
  dsimp only
  by_cases hlow : n < 64
  · have hbyte : (UInt8.ofNat n).toNat = n := by
      rw [UInt8.toNat_ofNat']
      omega
    rw [if_pos hlow, if_pos hlow]
    by_cases h0 : n = 0
    · rw [if_pos h0, h0]
      exact .zero
    · rw [if_neg h0]
      by_cases h10 : n < 10
      · rw [if_pos h10]
        exact .low (by omega) (by omega)
      · rw [if_neg h10]
        exact .middle (by omega) (by omega)
  · have hbyte : (UInt8.ofNat (64 + n % 256 / 4)).toNat = 64 + n % 256 / 4 := by
      rw [UInt8.toNat_ofNat']
      omega
    rw [if_neg hlow, if_neg hlow, if_neg (by omega), if_neg (by omega)]
    exact .high (by omega) (by omega)

/-- Behind network bytes, 34 bytes have no longer text. -/
theorem Lead.length_le {head : Bytes} {k : Nat} (h : Lead head k) {tail : Bytes}
    (ht : tail.length = 34) : (Base58.encode (head ++ tail)).length ≤ k := by
  have hne : ∀ b : UInt8, 1 ≤ b.toNat → b ≠ 0 := by
    rintro b hb rfl
    exact absurd hb (by decide)
  cases h with
  | zero =>
    have htail : (Base58.encode tail).length ≤ 47 := by
      refine Base58.length_encode_le ?_
      rw [ht]
      decide
    rw [List.singleton_append, Base58.length_encode_cons_zero]
    omega
  | low hlo hhi =>
    rw [List.singleton_append]
    refine Base58.length_encode_cons_le (hne _ hlo) ?_
    rw [ht]
    omega
  | middle hlo hhi =>
    rw [List.singleton_append]
    refine Base58.length_encode_cons_le (hne _ (by omega)) ?_
    rw [ht]
    omega
  | high hlo hhi =>
    rw [List.cons_append, List.singleton_append]
    refine Base58.length_encode_cons_le (hne _ (by omega)) ?_
    rw [List.length_cons, ht]
    omega

/-- Behind network bytes, 34 bytes that start with `m` have a text of that length. -/
theorem Lead.le_length {head : Bytes} {k : Nat} (h : Lead head k) (tail : Bytes)
    (ht : tail.length = 33) : k ≤ (Base58.encode (head ++ 0x6d :: tail)).length := by
  have hm : (0x6d : UInt8).toNat = 109 := rfl
  cases h with
  | zero =>
    have htail : 46 < (Base58.encode ([0x6d] ++ tail)).length := by
      refine Base58.lt_length_encode_append [0x6d] tail ?_
      rw [Base58.number_singleton, hm, ht]
      decide
    rw [List.singleton_append, Base58.length_encode_cons_zero]
    exact Nat.succ_le_succ htail
  | low hlo hhi =>
    refine Base58.lt_length_encode_append [_, 0x6d] tail ?_
    rw [Base58.number_pair, hm, ht]
    omega
  | middle hlo hhi =>
    -- `10 * 256 ^ 34` is just below `58 ^ 47`: behind a ten it is the `m` that reaches it.
    refine Base58.lt_length_encode_append [_, 0x6d] tail ?_
    rw [Base58.number_pair, hm, ht]
    omega
  | high hlo hhi =>
    refine Base58.lt_length_encode_append [_] (_ :: 0x6d :: tail) ?_
    rw [Base58.number_singleton, List.length_cons, List.length_cons, ht]
    omega

/-! ## Texts of accounts -/

/-- A text is that of the network bytes with 34 more, of which the account is the first 32. -/
theorem encode_eq (checksum : Checksum) (network : Network) (a : Account) :
    encode checksum network a = Base58.encode (networkBytes network ++
      (a.bytes ++ checksumBytes checksum (networkBytes network ++ a.bytes))) := by
  rw [← List.append_assoc]
  rfl

/-- No account has a longer text. -/
theorem length_encode_le (checksum : Checksum) (network : Network) (a : Account) :
    (encode checksum network a).length ≤ longest network := by
  rw [encode_eq]
  refine (lead_networkBytes network).length_le ?_
  rw [List.length_append, a.length_bytes]
  rfl

/-- A holding account has a text of that length. -/
theorem length_encode_holding (checksum : Checksum) (network : Network) (m : ModuleId) :
    (encode checksum network (.holding m)).length = longest network := by
  refine Nat.le_antisymm (length_encode_le checksum network (.holding m)) ?_
  have hbytes : (Account.holding m).bytes =
      0x6d :: ([0x6f, 0x64, 0x6c] ++ m.bytes ++ List.replicate 20 0) := rfl
  rw [encode_eq, hbytes, List.cons_append]
  refine (lead_networkBytes network).le_length _ ?_
  simp [m.length_bytes, checksumBytes]

end SS58

/-! ## The bound on addresses -/

/-- Which bounds fit is told by the network alone. -/
theorem Health.boundFits_iff {s : Settings} :
    boundFits s = true ↔ SS58.longest s.network ≤ s.bounds.address := by
  have hlongest : (s.addressOf s.holding).length = SS58.longest s.network :=
    SS58.length_encode_holding _ _ s.moduleId
  unfold boundFits Settings.fitsAddress
  rw [decide_eq_true_iff, hlongest]

/-- What fits the text of the holding account fits the text of every account. -/
theorem Settings.fitsAddress_addressOf {s : Settings} (h : Health.boundFits s = true)
    (a : Account) : s.fitsAddress (s.addressOf a) = true := by
  have ha : (s.addressOf a).length ≤ SS58.longest s.network := SS58.length_encode_le _ _ a
  exact decide_eq_true (Nat.le_trans ha (Health.boundFits_iff.mp h))

end Mintage
