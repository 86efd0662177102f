import Mintage.Proofs.ErrorCauses

/-!
# A call is a mint one layer deeper

A call opens a layer and then makes the mint that its signer asks for.  The layer adds nothing
but its depth: what the call leaves is what that mint leaves there, and its answer keeps of the
mint's error the kind.  As the parts of a call are within their bounds, two causes that a mint
may have for its errors cannot arise: a recipient that is too long and a denomination that is.

    depth ≤ 254 → s.CallRefines depth r                                (callRefines_of_fits)
    any other origin is refused, and at depth 255 every one is         (call_refines_mint)
-/

namespace Mintage

/-! ## Definitions -/

/-- What a call answers whose mint ended so: of an error its kind alone. -/
def MintCall.answered : Except MintError MintRecord → Except CallError Unit
  | .ok _ => .ok ()
  | .error e => .error (.mint e.kind)

/-- The call that makes the request at a depth does what the request does one layer deeper. -/
structure Session.CallRefines (s : Session) (depth : Nat) (r : MintRequest) : Prop where
  answer_eq : ∃ result, (s.perform (depth + 1) (.mint r)).1 = .mint result ∧
    (s.perform depth (.call (.signed r.caller) r.recipient r.amount r.denom)).1 =
      .call (MintCall.encode ⟨r.recipient, r.amount, r.denom⟩) (MintCall.answered result)
  session_eq : (s.perform depth (.call (.signed r.caller) r.recipient r.amount r.denom)).2 =
    (s.perform (depth + 1) (.mint r)).2
  /-- A recipient is refused because it names nobody, never for its length. -/
  unreadable : ∀ text, (s.perform (depth + 1) (.mint r)).1 = .mint (.error (.invalidAddress text)) →
    text = r.recipient ∧ s.env.settings.account? r.recipient = none
  /-- Coins are never refused for the length of their denomination. -/
  never_tooLong : ∀ denom cause,
    (s.perform (depth + 1) (.mint r)).1 = .mint (.error (.mintFailed denom cause)) →
    cause ≠ .denomTooLong

/-! ## One layer deeper -/

/-- A signed call with a layer to run in is its mint, but for the answer. -/
theorem dispatch_signed {depth : Nat} (hd : depth < maxLayers) (env : Environment)
    (caller : Account) (c : MintCall) (w : World) :
    c.dispatch env depth (.signed caller) w =
      (MintCall.answered (mint env (depth + 1) (c.request caller) w).1,
        (mint env (depth + 1) (c.request caller) w).2) := by
  rw [dispatch_run, if_neg (Nat.not_le_of_lt hd)]
  dsimp only
  cases (mint env (depth + 1) (c.request caller) w).1 with
  | error e => rfl
  | ok rec => rfl

namespace Session

variable {s : Session} {recipient denom : Bytes}

theorem callRefines_of_fits (hr : recipient.length ≤ s.env.settings.bounds.address)
    (hd : denom.length ≤ s.env.settings.bounds.denom) {depth : Nat} (hdepth : depth ≤ 254)
    (caller : Account) (amount : Amount) :
    s.CallRefines depth ⟨caller, recipient, amount, denom⟩ := by
  have hlt : depth < maxLayers := Nat.lt_of_le_of_lt hdepth (by decide)
  have hcall := perform_call_of_fits hr hd depth (.signed caller) amount
  rw [dispatch_eq, dispatch_signed hlt] at hcall
  refine ⟨⟨_, rfl, ?_⟩, ?_, ?_, ?_⟩
  · rw [hcall]
    rfl
  · rw [hcall]
    rfl
  · intro text htext
    exact Mint.unreadable_of_invalidAddress (decide_eq_true hr) (Answer.mint.inj htext)
  · intro denom' cause hcause
    exact Mint.not_tooLong_of_mintFailed (r := ⟨caller, recipient, amount, denom⟩)
      (decide_eq_true hd) (Answer.mint.inj hcause)

/-! ## Top theorem -/

/-- **A call refines the mint one layer deeper.**  Where at most 254 layers are open, a signed
call within the bounds leaves the session that the mint of its signer leaves one layer deeper,
and answers as that mint does but for the cause of an error; a call that nobody signed is
refused and changes nothing.  Where 255 are open every call is refused for that, whoever
submits it. -/
theorem call_refines_mint {s : Session} {recipient denom : Bytes}
    (hr : recipient.length ≤ s.env.settings.bounds.address)
    (hd : denom.length ≤ s.env.settings.bounds.denom) (amount : Amount) :
    (∀ depth, depth ≤ 254 →
      (∀ caller, s.CallRefines depth ⟨caller, recipient, amount, denom⟩) ∧
      ∀ origin, origin = .root ∨ origin = .none →
        s.perform depth (.call origin recipient amount denom) =
          (.call (MintCall.encode ⟨recipient, amount, denom⟩) (.error (.fault .badOrigin)), s)) ∧
    ∀ origin, s.perform 255 (.call origin recipient amount denom) =
      (.call (MintCall.encode ⟨recipient, amount, denom⟩) (.error (.fault .layerLimit)), s) := by
  refine ⟨fun depth hdepth => ⟨?_, ?_⟩, ?_⟩
  · intro caller
    exact callRefines_of_fits hr hd hdepth caller amount
  · intro origin ho
    have hopen : ¬ maxLayers ≤ depth := Nat.not_le_of_lt (Nat.lt_of_le_of_lt hdepth (by decide))
    rw [perform_call_of_fits hr hd, dispatch_eq, dispatch_run, if_neg hopen]
    rcases ho with rfl | rfl
    · rfl
    · rfl
  · intro origin
    have hfull : maxLayers ≤ 255 := Nat.le_refl _
    rw [perform_call_of_fits hr hd, dispatch_eq, dispatch_run, if_pos hfull]

/-- With 253 layers open there is room for the mint itself and not for the mint in a call. -/
theorem call_one_deeper :
    (∃ rec, (Devnet.initial.perform 253 (.mint Devnet.request)).1 = .mint (.ok rec)) ∧
    (Devnet.initial.perform 253 (.call (.signed Devnet.minter) Devnet.request.recipient
      Devnet.request.amount Devnet.request.denom)).1 =
      .call (MintCall.encode ⟨Devnet.request.recipient, Devnet.request.amount,
        Devnet.request.denom⟩) (.error (.mint .mintFailed)) := by
  have hr : Mint.review Devnet.initial.env Devnet.request = .ok _ :=
    Devnet.review_request ⟨false, false⟩
  constructor
  · obtain ⟨st, hd⟩ : ∃ st, Mint.deliver Devnet.initial.env 253 (.filled 2)
        ⟨Devnet.request.denom, Devnet.request.amount⟩ Devnet.initial.world.storage =
        ([.mint, .send], .ok st) := ⟨_, rfl⟩
    exact ⟨_, by rw [perform_mint, Mint.answer_of_deliver hr hd]; rfl⟩
  · have hd : Mint.deliver Devnet.initial.env 254 (.filled 2)
        ⟨Devnet.request.denom, Devnet.request.amount⟩ Devnet.initial.world.storage =
        ([.mint], .error (.mintFailed Devnet.request.denom .layerLimit)) := rfl
    have hfits : Devnet.request.recipient.length ≤ Devnet.initial.env.settings.bounds.address :=
      of_decide_eq_true Devnet.fits_request.2
    have hrefines : Devnet.initial.CallRefines 253 Devnet.request :=
      ((call_refines_mint hfits (by decide) _).1 253 (by decide)).1 Devnet.minter
    obtain ⟨result, hmint, hcall⟩ := hrefines.answer_eq
    rw [perform_mint, Mint.answer_of_deliver hr hd] at hmint
    obtain rfl := Answer.mint.inj hmint
    exact hcall

end Session

end Mintage
