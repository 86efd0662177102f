import Mintage.Proofs.AddressText

/-!
# Which texts are addresses

For every checksum and every network, the texts that are read as an account are the Base58
texts of network bytes, account and checksum, where a network below 64 has a second, two-byte
head besides the one that is written (`paddedBytes`):

    decode? checksum network text = some a ↔
      ∃ head, Heads network head ∧ text = textAfter checksum head a     (decode?_eq_some_iff)
    decode? checksum network (encode checksum written a) = some b ↔
      b = a ∧ network = masked written                           (decode?_encode_eq_some_iff)
    scan checksum network text = .ok (decode? checksum network text)              (scan_eq)

`scan` is the reader stage by stage with each range of bytes checked against the data: it
never leaves them.
-/

namespace Mintage.SS58

/-! ## Definitions -/

/-- A network below 64 in two bytes: `01` and its bits from bit 2 up, then its two lowest
bits above six zeros. -/
def paddedBytes (network : Network) : Bytes :=
  [(0x40 : UInt8) ||| (network >>> 2).toUInt8, (network &&& 3).toUInt8 <<< 6]

/-- The bytes that are read as `network` at the head of an address. -/
def Heads (network : Network) (head : Bytes) : Prop :=
  network.toNat < 16384 ∧
    (head = networkBytes network ∨ network.toNat < 64 ∧ head = paddedBytes network)

/-- The network that a number is written as: its lowest fourteen bits. -/
def masked (network : Network) : Network := network &&& 0x3fff

/-- The text of an account after the given network bytes. -/
def textAfter (checksum : Checksum) (head : Bytes) (a : Account) : Bytes :=
  Base58.encode (head ++ a.bytes ++ checksumBytes checksum (head ++ a.bytes))

/-- A range of bytes that does not lie within the data. -/
structure OutOfRange where
  first : Nat
  last : Nat
  size : Nat

/-- The bytes from `first` up to `last`, if they are all there. -/
def slice (data : Bytes) (first last : Nat) : Except OutOfRange Bytes :=
  if first ≤ last ∧ last ≤ data.length then .ok ((data.take last).drop first)
  else .error ⟨first, last, data.length⟩

/-- The account in 32 bytes; any other number of them is out of range. -/
def copied (bs : Bytes) : Except OutOfRange Account :=
  match Account.ofBytes? bs with
  | some a => .ok a
  | none => .error ⟨0, 32, bs.length⟩

/-- The stages after the network: its number, the length, the checksum, the account. -/
def scanBody (checksum : Checksum) (network : Network) (data : Bytes) (found : Network)
    (width : Nat) : Except OutOfRange (Option Account) := do
  if found ≠ network then return none
  if data.length ≠ width + 32 + 2 then return none
  let body ← slice data 0 (width + 32)
  let close ← slice data (width + 32) data.length
  if close ≠ checksumBytes checksum body then return none
  let raw ← slice data width (width + 32)
  some <$> copied raw

/-- Reads an address stage by stage, each range of bytes checked. -/
def scan (checksum : Checksum) (network : Network) (text : Bytes) :
    Except OutOfRange (Option Account) :=
  if text.toByteArray.validateUTF8 then
    match Base58.decode? text with
    | none => .ok none
    | some data =>
      match network? data with
      | none => .ok none
      | some (found, width) => scanBody checksum network data found width
  else .ok none

/-! ## Network bytes -/

theorem paddedBytes_bits : ∀ n, n < 64 →
    (0x40 : UInt8) ||| (UInt16.ofNat n >>> 2).toUInt8 = UInt8.ofNat (64 + n / 4) ∧
      (UInt16.ofNat n &&& 3).toUInt8 <<< 6 = UInt8.ofNat (n % 4 * 64) := by
  decide +kernel

theorem paddedBytes_eq {network : Network} (h : network.toNat < 64) :
    paddedBytes network =
      [UInt8.ofNat (64 + network.toNat / 4), UInt8.ofNat (network.toNat % 4 * 64)] := by
  have hbits := paddedBytes_bits network.toNat h
  rw [UInt16.ofNat_toNat] at hbits
  unfold paddedBytes
  rw [hbits.1, hbits.2]

theorem length_networkBytes_of_lt {network : Network} (h : network.toNat < 64) :
    (networkBytes network).length = 1 := by
  unfold networkBytes
  rw [Nat.mod_eq_of_lt (by omega), if_pos h]
  rfl

/-- Both heads of a network are read back, whatever follows them. -/
theorem network?_of_heads {network : Network} {head : Bytes} (h : Heads network head)
    (rest : Bytes) : network? (head ++ rest) = some (network, head.length) := by
  obtain ⟨hlt, rfl | ⟨hlow, rfl⟩⟩ := h
  · exact network?_networkBytes hlt rest
  · have hpair := network?_pair (64 + network.toNat / 4)
      (network.toNat % 4 * 64) (by omega) (by omega) (by omega) rest
    have hnum : (64 + network.toNat / 4) % 64 * 4 + network.toNat % 4 * 64 / 64 +
        256 * (network.toNat % 4 * 64 % 64) = network.toNat := by
      omega
    rw [hnum, UInt16.ofNat_toNat] at hpair
    rw [paddedBytes_eq hlow]
    exact hpair

/-- One byte below 64 is what is written for the number that it is. -/
theorem heads_of_low {first : UInt8} (h : first.toNat < 64) :
    Heads (UInt16.ofNat first.toNat) [first] := by
  have hnum : (UInt16.ofNat first.toNat).toNat = first.toNat := by
    rw [UInt16.toNat_ofNat']
    omega
  refine ⟨by omega, Or.inl ?_⟩
  unfold networkBytes
  rw [hnum, Nat.mod_eq_of_lt (by omega), if_pos h, UInt8.ofNat_toNat]

/-- The number of a two-byte head taken apart again. -/
theorem bits_of_number {low pair high n : Nat} (hlow : low < 64) (hpair : pair < 4)
    (hn : low * 4 + pair + 256 * high = n) :
    n / 256 = high ∧ n % 256 / 4 = low ∧ n % 4 = pair := by
  omega

/-- Two bytes whose first is from 64 to 127 are a head of the number that they denote: the
padded one where that number is below 64. -/
theorem heads_of_high {first second : UInt8} (hlo : 64 ≤ first.toNat)
    (hhi : first.toNat < 128) :
    Heads (UInt16.ofNat (first.toNat % 64 * 4 + second.toNat / 64 +
      256 * (second.toNat % 64))) [first, second] := by
  have hbyte := second.toNat_lt
  generalize hn : first.toNat % 64 * 4 + second.toNat / 64 + 256 * (second.toNat % 64) = n
  obtain ⟨hhigh, hlow, hpair⟩ := bits_of_number (by omega) (by omega) hn
  have hlt : n < 16384 := by omega
  have hnum : (UInt16.ofNat n).toNat = n := by
    rw [UInt16.toNat_ofNat']
    omega
  have hfirst : 64 + n % 256 / 4 = first.toNat := by omega
  have hsecond : n % 4 * 64 + n / 256 = second.toNat := by omega
  refine ⟨by omega, ?_⟩
  by_cases hpad : n < 64
  · have hfirst' : 64 + n / 4 = first.toNat := by omega
    have hsecond' : n % 4 * 64 = second.toNat := by omega
    refine Or.inr ⟨by omega, ?_⟩
    rw [paddedBytes_eq (by omega), hnum, hfirst', hsecond', UInt8.ofNat_toNat,
      UInt8.ofNat_toNat]
  · refine Or.inl ?_
    unfold networkBytes
    rw [hnum, Nat.mod_eq_of_lt hlt, if_neg hpad, hfirst, hsecond, UInt8.ofNat_toNat,
      UInt8.ofNat_toNat]

/-- A network is read off its heads and off nothing else. -/
theorem network?_eq_some_iff {network : Network} {width : Nat} {data : Bytes} :
    network? data = some (network, width) ↔
      ∃ head rest, Heads network head ∧ width = head.length ∧ data = head ++ rest := by
  constructor
  · intro h
    cases data with
    | nil => cases h
    | cons first rest =>
      simp only [network?] at h
      by_cases hlow : first.toNat < 64
      · rw [if_pos hlow] at h
        cases h
        exact ⟨[first], rest, heads_of_low hlow, rfl, rfl⟩
      · rw [if_neg hlow] at h
        by_cases hhigh : first.toNat < 128
        · rw [if_pos hhigh] at h
          cases rest with
          | nil => cases h
          | cons second rest =>
            cases h
            exact ⟨[first, second], rest, heads_of_high (by omega) hhigh, rfl, rfl⟩
        · rw [if_neg hhigh] at h
          cases h
  · rintro ⟨head, rest, hhead, rfl, rfl⟩
    exact network?_of_heads hhead rest

/-! ## The bytes of an address -/

/-- An account is read off the bytes of a head, itself and their checksum, and off nothing
else. -/
theorem account?_eq_some_iff {checksum : Checksum} {network : Network} {data : Bytes}
    {a : Account} :
    account? checksum network data = some a ↔
      ∃ head, Heads network head ∧
        data = head ++ a.bytes ++ checksumBytes checksum (head ++ a.bytes) := by
  constructor
  · intro h
    unfold account? at h
    cases hn : network? data with
    | none =>
      rw [hn] at h
      cases h
    | some found =>
      obtain ⟨found, width⟩ := found
      rw [hn] at h
      simp only [Option.bind_eq_bind, Option.bind_some] at h
      split at h
      · cases h
      · next hfound =>
        split at h
        · cases h
        · next hlen =>
          split at h
          · cases h
          · next hclose =>
            rw [ne_eq, Decidable.not_not] at hfound hlen hclose
            subst hfound
            obtain ⟨head, rest, hhead, rfl, rfl⟩ := network?_eq_some_iff.mp hn
            have hbody : (head ++ rest).take (head.length + 32) = head ++ rest.take 32 :=
              List.take_length_add_append 32
            have hbytes : a.bytes = rest.take 32 := by
              have := Account.ofBytes?_eq_some_iff.mp h
              rwa [hbody, List.drop_left] at this
            refine ⟨head, hhead, ?_⟩
            rw [hbytes, ← hbody, ← hclose, List.take_append_drop]
  · rintro ⟨head, hhead, rfl⟩
    exact account?_of_head (network?_of_heads hhead) a

/-- A text names an account exactly if it is written after one of the network's heads. -/
theorem decode?_eq_some_iff {checksum : Checksum} {network : Network} {text : Bytes}
    {a : Account} :
    decode? checksum network text = some a ↔
      ∃ head, Heads network head ∧ text = textAfter checksum head a := by
  unfold decode? textAfter
  constructor
  · intro h
    cases hd : Base58.decode? text with
    | none =>
      rw [hd] at h
      cases h
    | some data =>
      rw [hd] at h
      obtain ⟨head, hhead, rfl⟩ := account?_eq_some_iff.mp h
      exact ⟨head, hhead, Base58.decode?_eq_some_iff.mp hd⟩
  · rintro ⟨head, hhead, rfl⟩
    rw [Base58.decode?_eq_some_iff.mpr rfl]
    exact account?_eq_some_iff.mpr ⟨head, hhead, rfl⟩

/-! ## Texts of another network -/

theorem toNat_masked (network : Network) : (masked network).toNat = network.toNat % 16384 := by
  unfold masked
  rw [UInt16.toNat_and]
  exact Nat.and_two_pow_sub_one_eq_mod _ 14

theorem networkBytes_masked (network : Network) :
    networkBytes (masked network) = networkBytes network := by
  unfold networkBytes
  rw [toNat_masked, Nat.mod_mod]

/-- A text that was written on some network is read on the one that it was written as, and on
no other. -/
theorem decode?_encode_eq_some_iff {checksum : Checksum} {network written : Network}
    {a b : Account} :
    decode? checksum network (encode checksum written a) = some b ↔
      b = a ∧ network = masked written := by
  have hhead : Heads (masked written) (networkBytes written) := by
    have hlt : written.toNat % 16384 < 16384 := Nat.mod_lt _ (by omega)
    refine ⟨?_, Or.inl (networkBytes_masked written).symm⟩
    rwa [toNat_masked]
  have hread : decode? checksum (masked written) (encode checksum written a) = some a :=
    decode?_eq_some_iff.mpr ⟨_, hhead, rfl⟩
  constructor
  · intro h
    obtain ⟨head, hhead', htext⟩ := decode?_eq_some_iff.mp h
    -- The bytes of the one text start with a head of each network.
    have hbytes := Base58.encode_inj.mp htext
    rw [List.append_assoc, List.append_assoc] at hbytes
    have hnet := network?_of_heads hhead
      (a.bytes ++ checksumBytes checksum (networkBytes written ++ a.bytes))
    rw [hbytes, network?_of_heads hhead'] at hnet
    obtain rfl : network = masked written := congrArg Prod.fst (Option.some.inj hnet)
    exact ⟨Option.some.inj (h.symm.trans hread), rfl⟩
  · rintro ⟨rfl, rfl⟩
    exact hread

/-! ## The reader with its ranges checked -/

theorem toNat_symbol_lt (d : Nat) : (Base58.symbol d).toNat < 128 := by
  have hall : ∀ c ∈ Base58.alphabet, c.toNat < 128 := by decide +kernel
  unfold Base58.symbol
  rw [List.getD_eq_getElem?_getD]
  cases hc : Base58.alphabet[d]? with
  | none => decide
  | some c => exact hall c (List.mem_of_getElem? hc)

/-- Bytes below 128 are UTF-8: each is the character of its number. -/
theorem validateUTF8_of_ascii {bs : Bytes} (h : ∀ b ∈ bs, b.toNat < 128) :
    bs.toByteArray.validateUTF8 = true := by
  rw [ByteArray.validateUTF8_eq_true_iff]
  refine .intro (bs.map fun b => Char.ofNat b.toNat) ?_
  induction bs with
  | nil => rfl
  | cons b bs ih =>
    have hb : b.toNat < 128 := h b (by simp)
    have hval : (Char.ofNat b.toNat).val.toNat = b.toNat := by
      have hvalid : b.toNat.isValidChar := Or.inl (by omega)
      rw [Char.ofNat, dif_pos hvalid]
      rfl
    have hsize : (Char.ofNat b.toNat).utf8Size = 1 := by
      rw [Char.utf8Size_eq_one_iff, UInt32.le_iff_toNat_le, hval]
      exact Nat.le_of_lt_succ hb
    have hbyte : (Char.ofNat b.toNat).val.toUInt8 = b := by
      apply UInt8.toNat_inj.mp
      rw [UInt32.toNat_toUInt8, hval]
      omega
    rw [List.map_cons, List.utf8Encode_cons, List.utf8Encode_singleton,
      String.utf8EncodeChar_eq_singleton hsize, hbyte, ← ih fun x hx => h x (by simp [hx]),
      ← List.toByteArray_append]
    rfl

/-- A Base58 text is UTF-8. -/
theorem validateUTF8_encode (bs : Bytes) : (Base58.encode bs).toByteArray.validateUTF8 = true := by
  refine validateUTF8_of_ascii fun b hb => ?_
  obtain ⟨d, -, rfl⟩ := List.mem_map.mp hb
  exact toNat_symbol_lt d

theorem slice_eq_ok {data : Bytes} {first last : Nat} (h : first ≤ last) (h' : last ≤ data.length) :
    slice data first last = .ok ((data.take last).drop first) :=
  if_pos ⟨h, h'⟩

theorem copied_of_length {bs : Bytes} (h : bs.length = 32) :
    some <$> copied bs = .ok (Account.ofBytes? bs) := by
  unfold copied Account.ofBytes?
  rw [dif_pos h]
  rfl

/-- Once the network is read, the length check keeps every range within the data. -/
theorem scanBody_eq {checksum : Checksum} {network found : Network} {width : Nat}
    {data : Bytes} (hn : network? data = some (found, width)) :
    scanBody checksum network data found width = .ok (account? checksum network data) := by
  unfold scanBody account?
  rw [hn]
  simp only [Option.bind_eq_bind, Option.bind_some]
  by_cases hfound : found ≠ network
  · rw [if_pos hfound, if_pos hfound]
    rfl
  rw [if_neg hfound, if_neg hfound]
  by_cases hlen : data.length ≠ width + 32 + 2
  · rw [if_pos hlen, if_pos hlen]
    rfl
  rw [if_neg hlen, if_neg hlen]
  rw [Decidable.not_not] at hlen
  rw [slice_eq_ok (by omega) (by omega), slice_eq_ok (by omega) (by omega),
    slice_eq_ok (by omega) (by omega), List.drop_zero, List.take_length]
  simp only [bind, Except.bind]
  by_cases hclose : data.drop (width + 32) ≠ checksumBytes checksum (data.take (width + 32))
  · rw [if_pos hclose, if_pos hclose]
    rfl
  · rw [if_neg hclose, if_neg hclose]
    refine copied_of_length ?_
    rw [List.length_drop, List.length_take]
    omega

/-- **In range.**  Whatever the text, the reader asks for no byte that is not there, and
answers what `decode?` answers. -/
theorem scan_eq (checksum : Checksum) (network : Network) (text : Bytes) :
    scan checksum network text = .ok (decode? checksum network text) := by
  unfold scan decode?
  cases hd : Base58.decode? text with
  | none =>
    split
    · rfl
    · rfl
  | some data =>
    have htext : text = Base58.encode data := Base58.decode?_eq_some_iff.mp hd
    rw [if_pos (by rw [htext]; exact validateUTF8_encode data)]
    dsimp only
    cases hn : network? data with
    | none =>
      unfold account?
      simp [hn]
    | some found =>
      obtain ⟨found, width⟩ := found
      exact scanBody_eq hn

/-! ## One text for each account -/

/-- Different heads give different texts. -/
theorem textAfter_ne {checksum : Checksum} {head head' : Bytes} (h : head.length ≠ head'.length)
    (a a' : Account) : textAfter checksum head a ≠ textAfter checksum head' a' := by
  intro heq
  have hlen := congrArg List.length (Base58.encode_inj.mp heq)
  simp only [List.length_append, a.length_bytes, a'.length_bytes, checksumBytes,
    List.length_cons, List.length_nil] at hlen
  omega

/-- The padded text of an account is read on a network below 64 and is not the one that is
written. -/
theorem padded_text {network : Network} (h : network.toNat < 64) (checksum : Checksum)
    (a : Account) :
    decode? checksum network (textAfter checksum (paddedBytes network) a) = some a ∧
      textAfter checksum (paddedBytes network) a ≠ encode checksum network a := by
  constructor
  · exact decode?_eq_some_iff.mpr ⟨_, ⟨by omega, Or.inr ⟨h, rfl⟩⟩, rfl⟩
  · refine textAfter_ne ?_ a a
    rw [length_networkBytes_of_lt h]
    exact (by decide : (2 : Nat) ≠ 1)

/-- Each account has one text exactly on the networks that need two bytes. -/
theorem decode?_canonical_iff {network : Network} (h : network.toNat < 16384)
    (checksum : Checksum) :
    (∀ text a, decode? checksum network text = some a ↔ text = encode checksum network a) ↔
      64 ≤ network.toNat := by
  constructor
  · intro hall
    refine Nat.le_of_not_lt fun hlow => ?_
    obtain ⟨hread, hne⟩ := padded_text hlow checksum (.filled 0)
    exact hne ((hall _ _).mp hread)
  · intro hwide text a
    rw [decode?_eq_some_iff]
    constructor
    · rintro ⟨head, ⟨-, rfl | ⟨hlow, -⟩⟩, rfl⟩
      · rfl
      · omega
    · rintro rfl
      exact ⟨networkBytes network, ⟨h, Or.inl rfl⟩, rfl⟩

/-! ## Top theorem -/

/-- **The language of addresses.**  A text is read as an account exactly if it is written
after one of the network's heads; the text that is written for an account is read back below
16384 and refused from there on; and no text makes the reader leave the bytes it was given. -/
theorem reads_exactly_addresses (checksum : Checksum) (network : Network) (text : Bytes)
    (a : Account) :
    (decode? checksum network text = some a ↔
      ∃ head, Heads network head ∧ text = textAfter checksum head a) ∧
    decode? checksum network (encode checksum network a) =
      (if network.toNat < 16384 then some a else none) ∧
    scan checksum network text = .ok (decode? checksum network text) := by
  refine ⟨decode?_eq_some_iff, ?_, scan_eq checksum network text⟩
  by_cases h : network.toNat < 16384
  · rw [if_pos h]
    exact decode?_encode h a
  · rw [if_neg h, Option.eq_none_iff_forall_ne_some]
    intro b hb
    obtain ⟨head, ⟨hlt, -⟩, -⟩ := decode?_eq_some_iff.mp hb
    exact h hlt

/-- Network 42 has the head `2a` and the head `4a 80`. -/
example : networkBytes 42 = [0x2a] ∧ paddedBytes 42 = [0x4a, 0x80] := by
  decide

end Mintage.SS58
