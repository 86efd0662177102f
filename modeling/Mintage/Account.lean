import Mintage.Hex

/-!
# Accounts

An account is named by 32 bytes. A module that owns one is named by 8 bytes,
and its holding account is derived from them.
-/

namespace Mintage

structure Account where
  bytes : Bytes
  length_bytes : bytes.length = 32
  deriving DecidableEq

structure ModuleId where
  bytes : Bytes
  length_bytes : bytes.length = 8
  deriving DecidableEq

namespace Account

def ofBytes? (bs : Bytes) : Option Account :=
  if h : bs.length = 32 then some ⟨bs, h⟩ else none

/-- The account all of whose bytes are `b`. -/
def filled (b : UInt8) : Account := ⟨List.replicate 32 b, by simp⟩

def hex (a : Account) : String := Hex.encode a.bytes

/-- The account that a module's coins pass through: `modl`, the module's name,
then zero bytes. -/
def holding (m : ModuleId) : Account :=
  ⟨[0x6d, 0x6f, 0x64, 0x6c] ++ m.bytes ++ List.replicate 20 0, by simp [m.length_bytes]⟩

theorem ext {a b : Account} (h : a.bytes = b.bytes) : a = b := by
  cases a; cases b; cases h; rfl

@[simp] theorem ofBytes?_bytes (a : Account) : ofBytes? a.bytes = some a := by
  exact dif_pos a.length_bytes

theorem ofBytes?_eq_some_iff {bs : Bytes} {a : Account} :
    ofBytes? bs = some a ↔ a.bytes = bs := by
  constructor
  · intro h
    unfold ofBytes? at h
    split at h
    · cases h; rfl
    · cases h
  · rintro rfl
    exact ofBytes?_bytes a

end Account

namespace ModuleId

def ofBytes? (bs : Bytes) : Option ModuleId :=
  if h : bs.length = 8 then some ⟨bs, h⟩ else none

end ModuleId

end Mintage
