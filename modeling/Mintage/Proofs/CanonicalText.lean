import Mintage.Proofs.AddressLanguage
import Mintage.Proofs.Audit
import Mintage.Proofs.Delivery

/-!
# One text for each account

Of the networks below 16384 those from 64 on are the ones on which an account has one text:
below, it has a second one (`two_texts`).  Nothing but the reader decides which texts reach
the log, so on the networks from 64 on every recipient that a mint leaves there is the text
that is written for the account it was credited to.

    (∀ text a, decode? checksum network text = some a ↔ text = encode checksum network a) ↔
      64 ≤ network.toNat                                          (decode?_canonical_iff)
    a mint is carried out → its recipient is written, and so is the whole log while the
      network stays                                                  (texts_are_canonical)
-/

namespace Mintage

/-! ## Definitions -/

/-- Leaves the network as it is. -/
def Action.KeepsNetwork (env : Environment) (a : Action) : Prop :=
  (a.environment env).settings.network = env.settings.network

/-- Every recipient in the log is the text that is written for the account it names. -/
def Storage.Canonical (network : Network) (st : Storage) : Prop :=
  ∀ e ∈ st.events, ∃ who, Address.decode? network e.recipient = some who ∧
    e.recipient = Address.encode network who

/-! ## Lemmas -/

namespace Address

/-- The padded text of the account of ones on network 42. -/
theorem padded_ones : SS58.textAfter checksum (SS58.paddedBytes 42) (.filled 1) =
    Bytes.ofText "Zp1AmAHYxas3JNwP4qPWrWt6VBoDvDQY7hQVDaFSYxCGZxMAT" := by
  decide +kernel

/-- That text is read as the account and is not the one that is written for it. -/
theorem two_texts :
    decode? 42 (Bytes.ofText "Zp1AmAHYxas3JNwP4qPWrWt6VBoDvDQY7hQVDaFSYxCGZxMAT") =
        some (.filled 1) ∧
      Bytes.ofText "Zp1AmAHYxas3JNwP4qPWrWt6VBoDvDQY7hQVDaFSYxCGZxMAT" ≠
        encode 42 (.filled 1) := by
  have h := SS58.padded_text (show (42 : Network).toNat < 64 by decide) checksum (.filled 1)
  rw [padded_ones] at h
  exact h

/-- From network 64 on the text that is read is the text that is written. -/
theorem eq_encode_of_decode? {network : Network} (hlt : network.toNat < 16384)
    (hwide : 64 ≤ network.toNat) {text : Bytes} {who : Account}
    (h : decode? network text = some who) : text = encode network who :=
  ((SS58.decode?_canonical_iff hlt checksum).mpr hwide text who).mp h

end Address

namespace Session

/-- One more event keeps the log canonical. -/
theorem Effect.canonical {s : Session} {a : Action} {st : Storage} (he : s.Effect a st)
    (hlt : s.env.settings.network.toNat < 16384) (hwide : 64 ≤ s.env.settings.network.toNat)
    (h : s.world.storage.Canonical s.env.settings.network) :
    st.Canonical s.env.settings.network := by
  intro e hmem
  rcases he.events_eq with hsame | ⟨r, c, -, hr, hlog⟩
  · rw [hsame] at hmem
    exact h e hmem
  · rw [hlog] at hmem
    rcases List.mem_append.mp hmem with hold | hnew
    · exact h e hold
    · cases List.mem_singleton.mp hnew
      obtain ⟨-, -, hnamed, -⟩ := Mint.review_eq_ok_iff.mp hr
      exact ⟨c.recipient, hnamed, Address.eq_encode_of_decode? hlt hwide hnamed⟩

/-- While the network stays, the log stays canonical. -/
theorem kept_canonical {ok : Session → Action → Prop}
    (hok : ∀ s a, ok s a → a.KeepsNetwork s.env) (network : Network) :
    Kept ok fun s => s.env.settings.network = network ∧
      (network.toNat < 16384 → 64 ≤ network.toNat → s.world.storage.Canonical network) where
  perform depth a s ha h := by
    obtain ⟨rfl, hlog⟩ := h
    refine ⟨?_, fun hlt hwide => ?_⟩
    · rw [perform_env]
      exact hok s a ha
    · exact (perform_effect depth a s).canonical hlt hwide (hlog hlt hwide)
  rollBack _ _ h₀ h := ⟨h.1, h₀.2⟩

theorem canonical_of_reachable {ok : Session → Action → Prop}
    (hok : ∀ s a, ok s a → a.KeepsNetwork s.env) {s : Session} (hs : Reachable ok s)
    (hlt : s.env.settings.network.toNat < 16384) (hwide : 64 ≤ s.env.settings.network.toNat) :
    s.world.storage.Canonical s.env.settings.network := by
  obtain ⟨env, hsame, hlog⟩ := Kept.reachable
    (fun env => kept_canonical hok env.settings.network)
    (fun env => ⟨rfl, fun _ _ e he => by cases he⟩) hs
  rw [← hsame] at hlog
  exact hlog hlt hwide

/-! ## Top theorem -/

/-- **One text for each account.**  Of the networks below 16384 those from 64 on are the ones
on which an account has no text but the one that is written for it.  On those a mint that is
carried out keeps that text of the account it credits, and in a run that stays on its network
the whole log does. -/
theorem texts_are_canonical {network : Network} (h : network.toNat < 16384) :
    (∀ checksum, (∀ text a, SS58.decode? checksum network text = some a ↔
      text = SS58.encode checksum network a) ↔ 64 ≤ network.toNat) ∧
    (64 ≤ network.toNat → ∀ ok s, Reachable ok s → s.env.settings.network = network →
      (∀ depth a, a.AsksMint → (s.perform depth a).1.Minted →
        ∃ r who, s.Delivered (s.perform depth a).2 a r who ∧
          r.recipient = s.env.settings.addressOf who) ∧
      ((∀ s a, ok s a → a.KeepsNetwork s.env) → s.world.storage.Canonical network)) := by
  refine ⟨SS58.decode?_canonical_iff h, ?_⟩
  rintro hwide ok s hs rfl
  constructor
  · intro depth a ha hminted
    obtain ⟨r, who, hdel⟩ := delivered_of_minted (currency_sound_of_reachable hs) ha hminted
    exact ⟨r, who, hdel, Address.eq_encode_of_decode? h hwide hdel.named⟩
  · intro hok
    exact canonical_of_reachable hok hs h hwide

end Session

/-! ## A network of two bytes -/

namespace Devnet

/-- The development network under a number that takes two bytes, its authority fixed. -/
def wide : Session := .start
  ⟨{ settings with network := 1284, fixedAuthority := some minter }, .empty, ⟨false, false⟩⟩

/-- 1000 `fei` for the authority itself, in the text of that network. -/
def wideRequest : MintRequest := { request with recipient := wide.env.settings.addressOf minter }

theorem review_wide : Mint.review wide.env wideRequest =
    .ok ⟨wide.env.settings.addressOf minter, minter, ⟨request.denom, request.amount⟩⟩ := by
  have hfit : wide.env.settings.fitsAddress (wide.env.settings.addressOf minter) = true :=
    Settings.fitsAddress_addressOf (Health.boundFits_iff.mpr (by decide)) minter
  have hval : Denom.isValid request.denom = true ∧
      wide.env.settings.fitsDenom request.denom = true := by
    decide
  exact Mint.review_eq_ok_iff.mpr
    ⟨rfl, hfit, Settings.account?_addressOf (by decide) minter, hfit, hval.1, hval.2, rfl, rfl⟩

theorem minted_wide : (wide.perform 0 (.mint wideRequest)).1.Minted := by
  obtain ⟨st, hd⟩ : ∃ st, Mint.deliver wide.env 0 minter ⟨request.denom, request.amount⟩
      wide.world.storage = ([.mint, .send], .ok st) := ⟨_, rfl⟩
  rw [Session.perform_mint, Mint.answer_of_deliver review_wide hd]
  trivial

end Devnet

namespace Session

/-- The recipient in the log of the first mint on network 1284. -/
theorem canonical_on_wide :
    (∃ r who, Devnet.wide.Delivered (Devnet.wide.perform 0 (.mint Devnet.wideRequest)).2
        (.mint Devnet.wideRequest) r who ∧
      r.recipient = Devnet.wide.env.settings.addressOf who) ∧
    (Devnet.wide.perform 0 (.mint Devnet.wideRequest)).2.world.storage.Canonical 1284 := by
  have hkeeps : (Action.mint Devnet.wideRequest).KeepsNetwork Devnet.wide.env := rfl
  have hstart : Reachable (fun s a => a.KeepsNetwork s.env) Devnet.wide :=
    ⟨Devnet.wide.env, [], 0, by rw [Step.AllMeet]; trivial, .here⟩
  have hafter : Reachable (fun s a => a.KeepsNetwork s.env)
      (Devnet.wide.perform 0 (.mint Devnet.wideRequest)).2 := by
    refine ⟨Devnet.wide.env, [.act (.mint Devnet.wideRequest)], 0, ?_, .later ?_⟩
    · rw [Step.AllMeet, Step.Meets, Step.AllMeet]
      exact ⟨hkeeps, trivial⟩
    · rw [Step.run_act]
      exact .here
  have hsessions := (texts_are_canonical (show (1284 : Network).toNat < 16384 by decide)).2 (by decide)
  constructor
  · exact (hsessions _ _ hstart rfl).1 0 _ trivial Devnet.minted_wide
  · refine (hsessions _ _ hafter ?_).2 fun _ _ h => h
    rw [perform_env]
    rfl

end Session

end Mintage
