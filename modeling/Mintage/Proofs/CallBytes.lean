import Mintage.Proofs.Atomicity
import Mintage.Scale.Composite

/-!
# The bytes of a call

A call in SCALE bytes is its place, zero, then the recipient, the amount in compact form and
the denomination.  A call whose parts are within their bounds is read back from these bytes
whatever follows, and from no others, so submitting them is submitting the call:

    Reads (MintCall.decode? bounds) MintCall.encode (·.Fits bounds)        (MintCall.reads)
    the bytes are read as a call → the answers and the sessions after it are the call's own
                                                               (call_bytes_are_exact)
-/

namespace Mintage

open Scale

/-! ## Definitions -/

/-- Both bounds are 32-bit numbers. -/
structure Bounds.Is32Bit (b : Bounds) : Prop where
  address : b.address < 2 ^ 32
  denom : b.denom < 2 ^ 32

/-- The parts of the call are within the bounds. -/
structure MintCall.Fits (bounds : Bounds) (c : MintCall) : Prop where
  recipient : c.recipient.length ≤ bounds.address
  denom : c.denom.length ≤ bounds.denom

/-! ## Reading calls -/

namespace MintCall

theorem reads {bounds : Bounds} (hb : bounds.Is32Bit) :
    Reads (decode? bounds) encode (Fits bounds) := by
  refine (Reads.bind (fun _ : MintCall => ()) (Reads.of_tag 0) (fun _ =>
    Reads.bind MintCall.recipient (reads_boundedVector bounds.address) (fun recipient =>
      Reads.bind MintCall.amount reads_compactAmount (fun amount =>
        Reads.bind MintCall.denom (reads_boundedVector bounds.denom) (fun denom =>
          Reads.of_pure ⟨recipient, amount, denom⟩) ?_) ?_) ?_) ?_).congr ?_ ?_
  · rintro denom _ rfl
    rfl
  · rintro amount c ⟨-, hc⟩
    rw [hc]
  · rintro recipient c ⟨-, -, hc⟩
    rw [hc]
  · intro _ _ _
    rfl
  · intro c
    simp [encode]
  · intro c
    constructor
    · rintro ⟨-, ⟨hr, -⟩, -, ⟨hd, -⟩, -⟩
      exact ⟨hr, hd⟩
    · rintro ⟨hr, hd⟩
      exact ⟨trivial, ⟨hr, Nat.lt_of_le_of_lt hr hb.address⟩, trivial,
        ⟨hd, Nat.lt_of_le_of_lt hd hb.denom⟩, rfl⟩

end MintCall

namespace Session

/-- Bytes that are read as a call within the bounds do what the call does. -/
theorem callRaw_eq_call {s : Session} {bytes rest : Bytes} {c : MintCall}
    (h : MintCall.decode? s.env.settings.bounds bytes = some (c, rest))
    (hc : c.Fits s.env.settings.bounds) (depth : Nat) (origin : Origin) :
    ∃ result s', s.perform depth (.callRaw origin bytes) = (.rawCall c rest.length result, s') ∧
      s.perform depth (.call origin c.recipient c.amount c.denom) =
        (.call c.encode result, s') := by
  refine ⟨(c.dispatch s.env depth origin s.world).1,
    { s with world := (c.dispatch s.env depth origin s.world).2 }, ?_, ?_⟩
  · rw [perform_callRaw, h]
    exact dispatch_eq _ _ _ _ _
  · rw [perform_call_of_fits hc.recipient hc.denom]
    exact dispatch_eq _ _ _ _ _

/-! ## Top theorem -/

/-- **Exact bytes of calls.**  The bytes of every call within the bounds are read back whatever
follows them, and what is read as a call is the bytes of a call within the bounds and no others.
Whoever submits bytes that are read as a call, at any depth, is answered as for the call itself
and leaves the same session. -/
theorem call_bytes_are_exact {bounds : Bounds} (hb : bounds.Is32Bit) :
    Exact (MintCall.decode? bounds) MintCall.encode (·.Fits bounds) ∧
    ∀ (s : Session) (bytes : Bytes) (c : MintCall) (rest : Bytes),
      s.env.settings.bounds = bounds → MintCall.decode? bounds bytes = some (c, rest) →
      ∀ depth origin, ∃ result s',
        s.perform depth (.callRaw origin bytes) = (.rawCall c rest.length result, s') ∧
        s.perform depth (.call origin c.recipient c.amount c.denom) =
          (.call c.encode result, s') := by
  have hreads := MintCall.reads hb
  refine ⟨hreads.exact fun c => List.cons_ne_nil _ _, ?_⟩
  rintro s bytes c rest rfl hdec depth origin
  obtain ⟨hc, -⟩ := (hreads _ _ _).mp hdec
  exact callRaw_eq_call hdec hc depth origin

end Session

/-! ## A call of the development network -/

namespace Devnet

/-- The request as a call. -/
def call : MintCall := ⟨request.recipient, request.amount, request.denom⟩

theorem fits_call : call.Fits initial.env.settings.bounds where
  recipient := of_decide_eq_true fits_request.2
  denom := by decide

end Devnet

namespace Session

/-- One byte behind the call changes nothing of what it does, and without its last byte it is
no call. -/
theorem call_bytes_on_devnet :
    (∃ result s', Devnet.initial.perform 7 (.callRaw .none (Devnet.call.encode ++ [0xff])) =
        (.rawCall Devnet.call 1 result, s') ∧
      Devnet.initial.perform 7 (.call .none Devnet.call.recipient Devnet.call.amount
        Devnet.call.denom) = (.call Devnet.call.encode result, s')) ∧
    MintCall.decode? ⟨64, 128⟩ Devnet.call.encode.dropLast = none := by
  have hb : (⟨64, 128⟩ : Bounds).Is32Bit := ⟨by decide, by decide⟩
  obtain ⟨hexact, hsame⟩ := call_bytes_are_exact hb
  refine ⟨hsame _ _ _ _ rfl (hexact.decode_encode _ [0xff] Devnet.fits_call) 7 .none, ?_⟩
  refine hexact.truncated _ _ Devnet.fits_call (List.dropLast_prefix _) fun h => ?_
  have hlen := congrArg List.length h
  rw [List.length_dropLast] at hlen
  have hpos : 0 < Devnet.call.encode.length := List.length_pos_iff.mpr (List.cons_ne_nil _ _)
  omega

end Session

end Mintage
