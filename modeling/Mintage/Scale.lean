import Mintage.Amount
import Mintage.LittleEndian

/-!
# SCALE encoding

Compact numbers, byte vectors and fixed-width amounts. A decoder takes a value
off the front of a byte string and returns the rest; it accepts only the bytes
that the encoder writes.

    d bs = some (x, rest) ↔ P x ∧ bs = enc x ++ rest     (Reads d enc P)

says so of a decoder whose values are those in `P`.
-/

namespace Mintage.Scale

/-- Takes a value off the front of a byte string. -/
abbrev Decoder (α : Type) := StateT Bytes Option α

namespace Decoder

def byte : Decoder UInt8
  | [] => none
  | b :: rest => some (b, rest)

/-- The next `n` bytes. -/
def take (n : Nat) : Decoder Bytes := fun bs =>
  if n ≤ bs.length then some (bs.take n, bs.drop n) else none

def check {α : Type} (p : Prop) [Decidable p] (v : α) : Decoder α := fun bs =>
  if p then some (v, bs) else none

def ofOption {α : Type} (v? : Option α) : Decoder α := fun bs => v?.map (·, bs)

end Decoder

open Decoder

/-! ## Compact numbers -/

/-- The two low bits of the first byte tell the form: one, two or four bytes
for numbers below 2 ^ 6, 2 ^ 14 and 2 ^ 30, else a count and that many bytes. -/
def compact (n : Nat) : Bytes :=
  if n < 64 then [UInt8.ofNat (4 * n)]
  else if n < 16384 then LittleEndian.bytes 2 (4 * n + 1)
  else if n < 0x40000000 then LittleEndian.bytes 4 (4 * n + 2)
  else
    let payload := LittleEndian.minimal n
    UInt8.ofNat (4 * (payload.length - 4) + 3) :: payload

/-- Reads what follows the first byte of a compact number, whose upper six bits
are `high` and whose two low bits tell the form. A number that has a shorter
form is refused, and so is a count above `width`. -/
def compactRest? (width high : Nat) : Nat → Decoder Nat
  | 0 => pure high
  | 1 => do
    let payload ← take 1
    let n := high + 64 * LittleEndian.value payload
    check (64 ≤ n) n
  | 2 => do
    let payload ← take 3
    let n := high + 64 * LittleEndian.value payload
    check (16384 ≤ n) n
  | _ => do
    check (high + 4 ≤ width) ()
    let payload ← take (high + 4)
    let n := LittleEndian.value payload
    check (0x40000000 ≤ n ∧ payload.getLast? ≠ some 0) n

/-- Reads a compact number whose counted form has at most `width` bytes. -/
def compact? (width : Nat) : Decoder Nat := do
  let first ← byte
  compactRest? width (first.toNat / 4) (first.toNat % 4)

/-! ## Byte vectors -/

/-- The length, then the bytes. -/
def vector (bs : Bytes) : Bytes := compact bs.length ++ bs

def vector? : Decoder Bytes := do
  let n ← compact? 4
  take n

/-- Refuses a vector of more than `bound` bytes. -/
def boundedVector? (bound : Nat) : Decoder Bytes := do
  let bs ← vector?
  check (bs.length ≤ bound) bs

/-! ## Amounts -/

/-- Sixteen bytes, low byte first. -/
def amount (a : Amount) : Bytes := LittleEndian.bytes 16 a.toNat

def amount? : Decoder Amount := do
  let bs ← take 16
  ofOption (Amount.ofNat? (LittleEndian.value bs))

def compactAmount (a : Amount) : Bytes := compact a.toNat

def compactAmount? : Decoder Amount := do
  let n ← compact? 16
  ofOption (Amount.ofNat? n)

/-- The byte that names a case, and nothing else. -/
def tag? (tag : UInt8) : Decoder Unit := do
  let b ← byte
  check (b = tag) ()

/-- The decoder reads the encodings of the values in `P`, and nothing else. -/
def Reads {α : Type} (d : Decoder α) (enc : α → Bytes) (P : α → Prop) : Prop :=
  ∀ bs x rest, d bs = some (x, rest) ↔ P x ∧ bs = enc x ++ rest

end Mintage.Scale
