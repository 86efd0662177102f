import Mintage.Environment

/-!
# Address text is read back

For every network below 16384 and every checksum, the text of an account names that
account on its network:

    network.toNat < 16384 → decode? checksum network (encode checksum network a) = some a
                                                                          (decode?_encode)
-/

namespace Mintage.SS58

/-- The six low bits of the first byte and the two high bits of the second are the low byte
of the number, the rest of the second its high bits. -/
theorem low_high_bits {n : Nat} (h : n < 16384) :
    (64 + n % 256 / 4) % 64 * 4 + (n % 4 * 64 + n / 256) / 64 +
      256 * ((n % 4 * 64 + n / 256) % 64) = n := by
  have h₁ : (64 + n % 256 / 4) % 64 = n % 256 / 4 := by omega
  have h₂ : (n % 4 * 64 + n / 256) / 64 = n % 4 := by omega
  have h₃ : (n % 4 * 64 + n / 256) % 64 = n / 256 := by omega
  rw [h₁, h₂, h₃]
  omega

/-- Two bytes whose first is from 64 to 127 are read as one number. -/
theorem network?_pair (first second : Nat) (hlo : 64 ≤ first) (hhi : first < 128)
    (hsecond : second < 256) (rest : Bytes) :
    network? (UInt8.ofNat first :: UInt8.ofNat second :: rest) =
      some (UInt16.ofNat (first % 64 * 4 + second / 64 + 256 * (second % 64)), 2) := by
  have hf : (UInt8.ofNat first).toNat = first := by
    rw [UInt8.toNat_ofNat']
    omega
  have hs : (UInt8.ofNat second).toNat = second := by
    rw [UInt8.toNat_ofNat']
    omega
  unfold network?
  dsimp only
  rw [hf, hs, if_neg (by omega), if_pos hhi]

/-- The network bytes are read back, whatever follows them. -/
theorem network?_networkBytes {network : Network} (h : network.toNat < 16384) (rest : Bytes) :
    network? (networkBytes network ++ rest) =
      some (network, (networkBytes network).length) := by
  have hmod : network.toNat % 16384 = network.toNat := Nat.mod_eq_of_lt h
  unfold networkBytes
  rw [hmod]
  dsimp only
  by_cases hlow : network.toNat < 64
  · rw [if_pos hlow]
    have hbyte : (UInt8.ofNat network.toNat).toNat = network.toNat := by
      rw [UInt8.toNat_ofNat']
      omega
    simp only [network?, List.cons_append, List.nil_append, hbyte, if_pos hlow,
      UInt16.ofNat_toNat, List.length_singleton]
  · rw [if_neg hlow]
    have hpair := network?_pair (64 + network.toNat % 256 / 4)
      (network.toNat % 4 * 64 + network.toNat / 256) (by omega) (by omega) (by omega) rest
    rw [low_high_bits h, UInt16.ofNat_toNat] at hpair
    exact hpair

/-- Bytes whose head is read as the network are read as the account behind it. -/
theorem account?_of_head {checksum : Checksum} {network : Network} {head : Bytes}
    (h : ∀ rest, network? (head ++ rest) = some (network, head.length)) (a : Account) :
    account? checksum network (head ++ a.bytes ++ checksumBytes checksum (head ++ a.bytes)) =
      some a := by
  have hlen : (head ++ a.bytes).length = head.length + 32 := by
    rw [List.length_append, a.length_bytes]
  unfold account?
  rw [List.append_assoc, h, ← List.append_assoc]
  simp only [Option.bind_eq_bind, Option.bind_some, ne_eq, not_true_eq_false, if_false]
  rw [if_neg (by rw [List.length_append, hlen]; simp [checksumBytes]), ← hlen, List.take_left,
    List.drop_left, if_neg (by simp), List.drop_left]
  exact Account.ofBytes?_bytes a

/-- Every account is named by its text. -/
theorem decode?_encode {checksum : Checksum} {network : Network} (h : network.toNat < 16384)
    (a : Account) : decode? checksum network (encode checksum network a) = some a := by
  unfold decode? encode
  rw [Base58.decode?_eq_some_iff.mpr rfl]
  exact account?_of_head (network?_networkBytes h) a

end Mintage.SS58

namespace Mintage.Settings

/-- On a network below 16384 every account is named by its text. -/
theorem account?_addressOf {s : Settings} (h : s.network.toNat < 16384) (a : Account) :
    s.account? (s.addressOf a) = some a := by
  exact SS58.decode?_encode h a

end Mintage.Settings
