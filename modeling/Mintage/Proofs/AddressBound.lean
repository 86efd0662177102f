import Mintage.Proofs.AddressLength
import Mintage.Proofs.ErrorCauses

/-!
# The bound on addresses

The check of the bound looks at one text, that of the holding account, and tells whether there
is room for every text that the module writes.  Where it passes, so do the other checks, and no
mint fails for the length of a text that the module wrote; where it fails, they fail too:

    Health.boundFits s.env.settings = true → s.HasRoom                 (hasRoom_of_boundFits)
    otherwise both checks fail                                     (holding_stands_for_all)
-/

namespace Mintage

/-! ## Definitions -/

/-- The bound on addresses holds every text that the module writes, and is never in the way. -/
structure Session.HasRoom (s : Session) : Prop where
  fits : ∀ a, s.env.settings.fitsAddress (s.env.settings.addressOf a) = true
  integrity : ∀ depth, s.perform depth .integrity = (.done, s)
  tryState : ∀ depth, (s.perform depth .tryState).1 = .done
  /-- Who is authorized is never turned away. -/
  authorized : ∀ r, (Authority.isAuthorized s.env r.caller s.world).1 = true →
    ∀ depth authority who cause,
      (s.perform depth (.mint r)).1 ≠ .mint (.error (.unauthorized authority who cause))
  /-- A recipient in a text that the module wrote is refused only because it names nobody,
  and only where the network is out of range. -/
  recipients : ∀ r a, r.recipient = s.env.settings.addressOf a →
    ∀ depth text, (s.perform depth (.mint r)).1 = .mint (.error (.invalidAddress text)) →
      s.env.settings.account? r.recipient = none ∧ 16384 ≤ s.env.settings.network.toNat

/-! ## Room for every text -/

/-- Where every text fits, who is authorized has a text to mint with. -/
theorem Mint.minterText_of_isAuthorized {env : Environment} {caller : Account} {w : World}
    (hfits : ∀ a, env.settings.fitsAddress (env.settings.addressOf a) = true)
    (h : (Authority.isAuthorized env caller w).1 = true) :
    ∃ text, minterText env caller = .ok text := by
  rw [Authority.isAuthorized_run] at h
  unfold minterText
  cases hv : Authority.verdict env caller with
  | error d =>
    rw [hv] at h
    cases h
  | ok a => exact ⟨_, if_pos (hfits a)⟩

namespace Session

theorem hasRoom_of_boundFits {s : Session} (h : Health.boundFits s.env.settings = true) :
    s.HasRoom := by
  have hfits := Settings.fitsAddress_addressOf h
  refine ⟨hfits, ?_, ?_, ?_, ?_⟩
  · intro depth
    rw [perform_integrity, if_pos h]
  · intro depth
    rw [perform_tryState, Health.tryState_run, if_pos h]
    cases Authority.current s.env with
    | error f => rfl
    | ok a =>
      dsimp only
      rw [if_pos (hfits a)]
      rfl
  · intro r hauth depth authority who cause hanswer
    obtain ⟨text, htext⟩ := Mint.minterText_of_isAuthorized hfits hauth
    rw [Mint.minterText_of_unauthorized (Answer.mint.inj hanswer)] at htext
    cases htext
  · intro r a hr depth text hanswer
    have hfit : s.env.settings.fitsAddress r.recipient = true := hr ▸ hfits a
    obtain ⟨-, hnone⟩ := Mint.unreadable_of_invalidAddress hfit (Answer.mint.inj hanswer)
    refine ⟨hnone, Nat.le_of_not_lt fun hlt => ?_⟩
    rw [hr, Settings.account?_addressOf hlt] at hnone
    cases hnone

/-! ## Top theorem -/

/-- **The holding account stands for all.**  On every network and with any checksum, no text of
an account is longer than that of a holding account.  So the check of the bound against the
holding account alone tells whether there is room for everyone: where it passes there is, and
where it fails the module cannot be put together and its state is refused. -/
theorem holding_stands_for_all :
    (∀ (checksum : SS58.Checksum) (network : Network) (m : ModuleId) (a : Account),
      (SS58.encode checksum network a).length ≤
        (SS58.encode checksum network (.holding m)).length) ∧
    (∀ s : Session, Health.boundFits s.env.settings = true → s.HasRoom) ∧
    ∀ s : Session, Health.boundFits s.env.settings = false → ∀ depth,
      s.perform depth .integrity = (.broken .addressBoundTooSmall, s) ∧
      s.perform depth .tryState = (.refused .addressBoundTooSmall, s) := by
  refine ⟨?_, fun s h => hasRoom_of_boundFits h, ?_⟩
  · intro checksum network m a
    rw [SS58.length_encode_holding]
    exact SS58.length_encode_le checksum network a
  · intro s h depth
    have hnot : ¬ Health.boundFits s.env.settings = true := by
      rw [h]
      decide
    constructor
    · rw [perform_integrity, if_neg hnot]
    · rw [perform_tryState, Health.tryState_run, if_neg hnot]
      rfl

end Session

/-! ## A bound of the development network -/

/-- The development network with another bound on addresses. -/
def Devnet.withAddressBound (n : Nat) : Session :=
  { initial with env := { initial.env with settings.bounds.address := n } }

/-- On network 42 the longest text has 48 letters: a bound of 48 leaves room, one of 47 none. -/
theorem Session.room_on_devnet :
    (Devnet.withAddressBound 48).HasRoom ∧
    (Devnet.withAddressBound 47).perform 2 .integrity =
      (.broken .addressBoundTooSmall, Devnet.withAddressBound 47) := by
  obtain ⟨-, hroom, hnone⟩ := holding_stands_for_all
  constructor
  · exact hroom _ (Health.boundFits_iff.mpr (by decide))
  · refine (hnone _ (Bool.eq_false_iff.mpr fun h => ?_) 2).1
    exact absurd (Health.boundFits_iff.mp h) (by decide)

end Mintage
