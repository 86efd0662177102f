import Mintage.Coin
import Mintage.Record
import Mintage.Scale.Composite

/-!
# The bytes of coins and records

A coin is its name and its amount, a record the two account texts, the amount and the name,
each in its own SCALE form and nothing between them.  Both are read back from these bytes
whatever follows, and from no others:

    Reads Coin.decode? Coin.encode Coin.Encodable                           (Coin.reads)
    Reads MintRecord.decode? MintRecord.encode MintRecord.Encodable   (MintRecord.reads)
    both are exact                                                   (records_are_exact)
-/

namespace Mintage

open Scale

/-! ## Definitions -/

/-- The length of the name is a 32-bit number. -/
def Coin.Encodable (c : Coin) : Prop := c.denom.length < 2 ^ 32

/-- The lengths of the three byte strings are 32-bit numbers. -/
structure MintRecord.Encodable (r : MintRecord) : Prop where
  minter : r.minter.length < 2 ^ 32
  recipient : r.recipient.length < 2 ^ 32
  denom : r.denom.length < 2 ^ 32

/-! ## Readers -/

theorem Coin.reads : Reads Coin.decode? Coin.encode Coin.Encodable := by
  refine (Reads.bind Coin.denom reads_vector (fun denom =>
    Reads.bind Coin.amount reads_amount (fun amount => Reads.of_pure ⟨denom, amount⟩)
      ?_) ?_).congr ?_ ?_
  · rintro amount _ rfl
    rfl
  · rintro denom c ⟨-, hc⟩
    rw [hc]
  · intro c
    rw [List.append_nil]
    rfl
  · intro c
    simp [Encodable]

theorem MintRecord.reads : Reads MintRecord.decode? MintRecord.encode MintRecord.Encodable := by
  refine (Reads.bind MintRecord.minter reads_vector (fun minter =>
    Reads.bind MintRecord.recipient reads_vector (fun recipient =>
      Reads.bind MintRecord.amount reads_amount (fun amount =>
        Reads.bind MintRecord.denom reads_vector (fun denom =>
          Reads.of_pure ⟨minter, recipient, amount, denom⟩) ?_) ?_) ?_) ?_).congr ?_ ?_
  · rintro denom _ rfl
    rfl
  · rintro amount r ⟨-, hr⟩
    rw [hr]
  · rintro recipient r ⟨-, -, hr⟩
    rw [hr]
  · rintro minter r ⟨-, -, -, hr⟩
    rw [hr]
  · intro r
    simp [encode]
  · intro r
    constructor
    · rintro ⟨hm, hr, -, hd, -⟩
      exact ⟨hm, hr, hd⟩
    · rintro ⟨hm, hr, hd⟩
      exact ⟨hm, hr, trivial, hd, rfl⟩

/-! ## Top theorem -/

/-- **Exact bytes of coins and records.**  The bytes of every coin and of every record are read
back whatever follows them; what is read as one is its bytes and no others, so that cut short it
is not read, no two are written alike, and those written in a row are read one by one. -/
theorem records_are_exact :
    Exact Coin.decode? Coin.encode Coin.Encodable ∧
      Exact MintRecord.decode? MintRecord.encode MintRecord.Encodable := by
  have hcoin : ∀ c : Coin, c.encode ≠ [] := fun c =>
    List.append_ne_nil_of_left_ne_nil (vector_ne_nil c.denom) _
  have hrecord : ∀ r : MintRecord, r.encode ≠ [] := by
    intro r
    unfold MintRecord.encode
    rw [List.append_assoc, List.append_assoc]
    exact List.append_ne_nil_of_left_ne_nil (vector_ne_nil r.minter) _
  exact ⟨Coin.reads.exact hcoin, MintRecord.reads.exact hrecord⟩

/-- Two coins in a row, of 1000 `fei` and of nothing without a name, and a byte behind them. -/
example : Coin.decode?.times 2
    ([0x0c, 0x66, 0x65, 0x69, 0xe8, 3, 0, 0, 0, 0, 0, 0, 0, 0, 0, 0, 0, 0, 0, 0] ++
      List.replicate 17 0 ++ [7]) =
    some ([⟨[0x66, 0x65, 0x69], ⟨1000, by decide⟩⟩, ⟨[], .zero⟩], [7]) := by
  decide +kernel

end Mintage
