import Mathlib.Logic.Function.Basic
import Mintage.Decimal.Lemmas
import Mintage.Record

/-!
# The attributes of a record

A record is shown as four named values, three of them byte strings that it holds and one the
numeral of its amount.  The numeral is the only one that the amount has, so the values tell the
record:

    (Amount.decimal a).length ≤ 39                              (Amount.length_decimal_le)
    ofAttributes? r.attributes = some r, so attributes are injective
                                                            (attributes_lose_nothing)
-/

namespace Mintage

/-- Amounts have up to 39 digits. -/
theorem Amount.length_decimal_le (a : Amount) : a.decimal.length ≤ 39 := by
  have hlimit : Amount.limit ≤ 10 ^ 39 := by decide
  have hlt := a.toNat_lt
  apply Decimal.length_encode_le
  · omega
  · omega

namespace MintRecord

theorem attributes_injective : Function.Injective attributes := by
  intro r r' h
  have hsome := congrArg ofAttributes? h
  rw [ofAttributes?_attributes, ofAttributes?_attributes] at hsome
  exact Option.some.inj hsome

/-! ## Top theorem -/

/-- **Attributes lose nothing.**  A record has four attributes, in the order of its fields.  That
of the amount is the one numeral that the amount has, without sign or leading zero and of at most
39 digits, and is read back as the amount.  Records with the same attributes are the same, and
each is rebuilt from its own. -/
theorem attributes_lose_nothing :
    (∀ r : MintRecord, ∃ numeral,
      r.attributes = [("minter", r.minter), ("recipient", r.recipient), ("amount", numeral),
        ("denom", r.denom)] ∧
      (∀ bs, Decimal.Numeral r.amount.toNat bs ↔ bs = numeral) ∧
      Decimal.decode? numeral = some r.amount.toNat ∧
      numeral.length ≤ 39) ∧
    Function.Injective attributes ∧
    ∀ r : MintRecord, ofAttributes? r.attributes = some r := by
  refine ⟨?_, attributes_injective, ofAttributes?_attributes⟩
  intro r
  refine ⟨r.amount.decimal, rfl, ?_, ?_, r.amount.length_decimal_le⟩
  · intro bs
    exact Decimal.numeral_iff
  · exact Decimal.decode?_encode r.amount.toNat

/-- The largest amount has all 39 digits. -/
example : Amount.decimal ⟨Amount.limit - 1, by decide⟩ =
    Bytes.ofText "340282366920938463463374607431768211455" := by
  decide +kernel

end MintRecord

end Mintage
