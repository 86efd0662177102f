/-!
# Weight of the mint call

An estimate in two 64-bit counts that saturate instead of wrapping: time and
proof size. A mint reads the storage three times and writes it four times.
-/

namespace Mintage

structure Weight where
  time : UInt64
  proof : UInt64
  deriving DecidableEq

/-- Time that one read and one write of the storage take. -/
structure StorageCosts where
  read : UInt64
  write : UInt64
  deriving DecidableEq

namespace Weight

/-- The number, or the largest count if it is larger. -/
def saturate (n : Nat) : UInt64 := UInt64.ofNat (min n 0xffffffffffffffff)

def saturatingAdd (v w : Weight) : Weight :=
  ⟨saturate (v.time.toNat + w.time.toNat), saturate (v.proof.toNat + w.proof.toNat)⟩

/-- The time of `count` accesses of one cost. -/
def accesses (cost : UInt64) (count : Nat) : Weight := ⟨saturate (cost.toNat * count), 0⟩

def base : Weight := ⟨48000000, 6196⟩

/-- The weight of a mint over a storage of the given costs. -/
def mint (costs : StorageCosts) : Weight :=
  (base.saturatingAdd (accesses costs.read 3)).saturatingAdd (accesses costs.write 4)

/-- Costs that hold where none are given. -/
def referenceCosts : StorageCosts := ⟨25000000, 100000000⟩

/-- The weight of a mint where no costs are given. -/
def referenceMint : Weight := mint referenceCosts

end Weight

end Mintage
