import Mintage.Decimal

/-!
# Amounts

Quantities of a coin: the numbers below 2 ^ 128.
-/

namespace Mintage

/-- 2 ^ 128. -/
def Amount.limit : Nat := 0x100000000000000000000000000000000

structure Amount where
  toNat : Nat
  toNat_lt : toNat < Amount.limit
  deriving DecidableEq

namespace Amount

def ofNat? (n : Nat) : Option Amount :=
  if h : n < limit then some ⟨n, h⟩ else none

def zero : Amount := ⟨0, by decide⟩

def isZero (a : Amount) : Bool := a.toNat == 0

/-- The amount as a decimal numeral. -/
def decimal (a : Amount) : Bytes := Decimal.encode a.toNat

theorem ext {a b : Amount} (h : a.toNat = b.toNat) : a = b := by
  cases a; cases b; cases h; rfl

@[simp] theorem ofNat?_toNat (a : Amount) : ofNat? a.toNat = some a := by
  exact dif_pos a.toNat_lt

theorem ofNat?_eq_some_iff {n : Nat} {a : Amount} : ofNat? n = some a ↔ a.toNat = n := by
  constructor
  · intro h
    unfold ofNat? at h
    split at h
    · cases h; rfl
    · cases h
  · rintro rfl
    exact ofNat?_toNat a

end Amount

end Mintage
