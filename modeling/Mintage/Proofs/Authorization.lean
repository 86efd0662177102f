import Mintage.Proofs.Atomicity
import Mintage.Proofs.LedgerRuns

/-!
# Who is turned away, and with what

A caller that the policy does not find is turned away before anything else of its request is
looked at.  The error is the same for all its requests, and only the journal tells that there
was one (`TurnsAway`).  So in a run whatever a mint changes is owed to the account that the
policy finds at that very step:

    ¬ s.Authorizes caller → ∃ authority cause, s.TurnsAway caller authority cause
    Step.AllMeet OwedToAuthority depth steps s                       (only_authority_mints)
-/

namespace Mintage

/-! ## Definitions -/

/-- Who signs for the mint that an action asks for. -/
def Action.signer? : Action → Option Account
  | .mint r => some r.caller
  | .call (.signed caller) _ _ _ => some caller
  | .callRaw (.signed caller) _ => some caller
  | _ => none

namespace Session

/-- The account that the policy finds in this state. -/
def Authorizes (s : Session) (caller : Account) : Prop :=
  (Authority.resolve s.env s.world).1 = .ok caller

/-- Every request of the caller is answered with one error, whatever else it says, and leaves
nothing behind but journal entries. -/
structure TurnsAway (s : Session) (caller : Account) (authority : Option Account)
    (cause : Option Fault) : Prop where
  mint_eq : ∀ depth recipient amount denom,
    (s.perform depth (.mint ⟨caller, recipient, amount, denom⟩)).1 =
      .mint (.error (.unauthorized authority caller cause))
  call_eq : ∀ depth recipient amount denom, depth ≤ 254 →
    recipient.length ≤ s.env.settings.bounds.address →
    denom.length ≤ s.env.settings.bounds.denom →
    (s.perform depth (.call (.signed caller) recipient amount denom)).1 =
      .call (MintCall.encode ⟨recipient, amount, denom⟩) (.error (.mint .unauthorized))
  callRaw_eq : ∀ depth bytes c rest, depth ≤ 254 →
    MintCall.decode? s.env.settings.bounds bytes = some (c, rest) →
    (s.perform depth (.callRaw (.signed caller) bytes)).1 =
      .rawCall c rest.length (.error (.mint .unauthorized))
  kept : ∀ depth (a : Action), a.signer? = some caller →
    (s.perform depth a).2.env = s.env ∧
    (s.perform depth a).2.world.storage = s.world.storage ∧
    (s.perform depth a).2.world.calls = s.world.calls

/-- If the action is a mint that changes the storage, the authority of this state signed it. -/
def OwedToAuthority (s : Session) (a : Action) : Prop :=
  ∀ depth, a.AsksMint → (s.perform depth a).2.world.storage ≠ s.world.storage →
    ∃ caller, a.signer? = some caller ∧ s.Authorizes caller

end Session

/-! ## Signers -/

/-- The request is made in the name of the signer. -/
theorem Action.Requests.signer?_eq {s : Settings} {a : Action} {r : MintRequest}
    (h : a.Requests s r) : a.signer? = some r.caller := by
  cases h with
  | mint => rfl
  | call => rfl
  | callRaw => rfl

theorem Action.AsksMint.leavesLedgers {a : Action} (h : a.AsksMint) (settings : Settings) :
    a.LeavesLedgers settings := by
  cases a with
  | mint r => rfl
  | call origin recipient amount denom => rfl
  | callRaw origin bytes => rfl
  | _ => exact absurd h id

/-! ## The review of a stranger -/

namespace Mint

variable {env : Environment} {caller : Account}

theorem verdict_eq_error (h : Authority.current env ≠ .ok caller) :
    ∃ d, Authority.verdict env caller = .error d := by
  cases hv : Authority.verdict env caller with
  | error d => exact ⟨d, rfl⟩
  | ok a => exact absurd (Authority.verdict_eq_ok_iff.mp hv).2 h

/-- The first check decides, and it reads the caller alone. -/
theorem mint_of_verdict {d : Denial} (h : Authority.verdict env caller = .error d)
    (depth : Nat) {r : MintRequest} (hr : r.caller = caller) (w : World) :
    mint env depth r w =
      (.error (.unauthorized d.authority? caller d.cause?),
        w.tell (opening env r ++
          [.aborted (.unauthorized d.authority? caller d.cause?)])) := by
  subst hr
  have hreview : review env r = .error (.unauthorized d.authority? r.caller d.cause?) := by
    unfold review minterText
    rw [h]
    rfl
  exact mint_of_review_error hreview depth w

/-- A call finds the same where it has a layer, and else no more than that. -/
theorem dispatch_of_verdict {d : Denial} (h : Authority.verdict env caller = .error d)
    (depth : Nat) (c : MintCall) (w : World) :
    ∃ e entries, c.dispatch env depth (.signed caller) w = (.error e, w.tell entries) ∧
      (depth ≤ 254 → e = .mint .unauthorized) := by
  have hmax : maxLayers = 255 := rfl
  rw [dispatch_run]
  by_cases hd : maxLayers ≤ depth
  · rw [if_pos hd]
    exact ⟨_, [], by rw [World.tell_nil], fun hle => absurd hle (by omega)⟩
  · rw [if_neg hd]
    dsimp only
    rw [mint_of_verdict h (depth + 1) (r := c.request caller) rfl w]
    exact ⟨_, _, rfl, fun _ => rfl⟩

end Mint

namespace Session

/-! ## One step -/

/-- The policy finds the account exactly if its verdict is not a denial. -/
theorem exists_denial_of_not_authorizes {s : Session} {caller : Account}
    (h : ¬ s.Authorizes caller) : ∃ d, Authority.verdict s.env caller = .error d := by
  unfold Authorizes at h
  rw [Authority.resolve_run] at h
  exact Mint.verdict_eq_error h

theorem turnsAway_of_denial {s : Session} {caller : Account} {d : Denial}
    (h : Authority.verdict s.env caller = .error d) :
    s.TurnsAway caller d.authority? d.cause? where
  mint_eq depth recipient amount denom := by
    rw [perform_mint, Mint.mint_of_verdict h depth rfl]
  call_eq depth recipient amount denom hd hrec hden := by
    obtain ⟨e, entries, hrun, he⟩ :=
      Mint.dispatch_of_verdict h depth ⟨recipient, amount, denom⟩ s.world
    rw [perform_call_of_fits hrec hden, dispatch_eq, hrun, he hd]
  callRaw_eq depth bytes c rest hd hdec := by
    obtain ⟨e, entries, hrun, he⟩ := Mint.dispatch_of_verdict h depth c s.world
    rw [perform_callRaw, hdec]
    dsimp only
    rw [dispatch_eq, hrun, he hd]
  kept depth a ha := by
    -- A mint, a call or a raw call, and of the calls those whose signer is the caller.
    cases a with
    | mint r =>
      rw [perform_mint, Mint.mint_of_verdict h depth (Option.some.inj ha)]
      exact ⟨rfl, rfl, rfl⟩
    | call origin recipient amount denom =>
      cases origin with
      | signed account =>
        obtain rfl : account = caller := Option.some.inj ha
        rw [perform_call]
        cases MintCall.build s.env.settings recipient amount denom with
        | error part => exact ⟨rfl, rfl, rfl⟩
        | ok c =>
          obtain ⟨e, entries, hrun, -⟩ := Mint.dispatch_of_verdict h depth c s.world
          dsimp only
          rw [dispatch_eq, hrun]
          exact ⟨rfl, rfl, rfl⟩
      | root => cases ha
      | none => cases ha
    | callRaw origin bytes =>
      cases origin with
      | signed account =>
        obtain rfl : account = caller := Option.some.inj ha
        rw [perform_callRaw]
        cases MintCall.decode? s.env.settings.bounds bytes with
        | none => exact ⟨rfl, rfl, rfl⟩
        | some cr =>
          obtain ⟨e, entries, hrun, -⟩ := Mint.dispatch_of_verdict h depth cr.1 s.world
          dsimp only
          rw [dispatch_eq, hrun]
          exact ⟨rfl, rfl, rfl⟩
      | root => cases ha
      | none => cases ha
    | _ => cases ha

/-- Where only mints reach the ledgers, a change of the storage is owed to the authority. -/
theorem Effect.eq_or_authorized {s : Session} {a : Action} {st : Storage} (he : s.Effect a st)
    (ha : a.LeavesLedgers s.env.settings) :
    st = s.world.storage ∨ ∃ caller, a.signer? = some caller ∧ s.Authorizes caller := by
  cases he with
  | keep => exact Or.inl rfl
  | mint hreq hr hd =>
    obtain ⟨hcurrent, -⟩ := Mint.review_eq_ok_iff.mp hr
    refine Or.inr ⟨_, hreq.signer?_eq, ?_⟩
    unfold Authorizes
    rw [Authority.resolve_run]
    exact hcurrent
  | endow | mintCoins | sendCoins | mintNative | sendNative => cases ha

theorem owedToAuthority (s : Session) (a : Action) : s.OwedToAuthority a := by
  intro depth hask hchanged
  exact ((perform_effect depth a s).eq_or_authorized (hask.leavesLedgers _)).resolve_left hchanged

/-! ## Runs -/

/-- Nobody who signs for the action is the authority of this state. -/
def Unowed (s : Session) (a : Action) : Prop :=
  a.LeavesLedgers s.env.settings ∧ ∀ caller, a.signer? = some caller → ¬ s.Authorizes caller

theorem kept_storage_of_unowed (st : Storage) :
    Kept Unowed fun s => s.world.storage = st where
  perform depth a s ha h := by
    rcases (perform_effect depth a s).eq_or_authorized ha.1 with hkept | ⟨caller, hsigner, hauth⟩
    · rw [hkept]
      exact h
    · exact absurd hauth (ha.2 caller hsigner)
  rollBack _ _ h₀ _ := h₀

/-! ## Top theorem -/

/-- **Only the authority mints.**  Whoever the policy does not find is turned away with one
error for all requests; in every run a mint changes the storage only if the authority of the
state that it finds signed it, and a run without such mints leaves the storage as it was. -/
theorem only_authority_mints :
    (∀ (s : Session) (caller : Account), ¬ s.Authorizes caller →
      ∃ authority cause, s.TurnsAway caller authority cause) ∧
    (∀ depth steps s, Step.AllMeet OwedToAuthority depth steps s) ∧
    ∀ depth steps s, Step.AllMeet Unowed depth steps s →
      (Step.runAll depth steps s).2.world.storage = s.world.storage := by
  refine ⟨?_, ?_, ?_⟩
  · intro s caller h
    obtain ⟨d, hd⟩ := exists_denial_of_not_authorizes h
    exact ⟨_, _, turnsAway_of_denial hd⟩
  · intro depth steps s
    exact Step.allMeet_of_forall owedToAuthority depth steps s
  · intro depth steps s hm
    exact (kept_storage_of_unowed s.world.storage).runAll depth steps s hm rfl

end Session

/-! ## A stranger on the development network -/

namespace Devnet

/-- The request in the name of the account that it is for. -/
def strangerRequest : MintRequest := { request with caller := .filled 2 }

theorem not_authorizes_stranger : ¬ initial.Authorizes (.filled 2) := by
  obtain ⟨hcurrent, -⟩ := Mint.review_eq_ok_iff.mp (review_request ⟨false, false⟩)
  have hne : minter ≠ .filled 2 := by decide
  unfold Session.Authorizes
  rw [Authority.resolve_run]
  intro h
  exact hne (Except.ok.inj (hcurrent.symm.trans h))

end Devnet

namespace Session

/-- Bytes that are no address and no denomination are answered like a proper request, at any
depth, and a committed layer around such a request has nothing to commit. -/
theorem stranger_turned_away :
    (Devnet.initial.perform 255 (.mint ⟨.filled 2, [0xff], .zero, []⟩)).1 =
        (Devnet.initial.perform 0 (.mint Devnet.strangerRequest)).1 ∧
      (Devnet.initial.perform 254 (.call (.signed (.filled 2)) [0xff] .zero [])).1 =
        .call (MintCall.encode ⟨[0xff], .zero, []⟩) (.error (.mint .unauthorized)) ∧
      (Step.runAll 0 [.layer 2 true [.act (.mint Devnet.strangerRequest)]]
        Devnet.initial).2.world.storage = .empty := by
  obtain ⟨haway, -, hrun⟩ := only_authority_mints
  obtain ⟨authority, cause, hturned⟩ := haway Devnet.initial _ Devnet.not_authorizes_stranger
  refine ⟨?_, ?_, ?_⟩
  · rw [hturned.mint_eq]
    exact (hturned.mint_eq 0 _ _ _).symm
  · exact hturned.call_eq 254 [0xff] .zero [] (by decide) (by decide) (by decide)
  · refine hrun 0 [.layer 2 true [.act (.mint Devnet.strangerRequest)]] Devnet.initial ?_
    simp only [Step.AllMeet, Step.Meets, and_true]
    intro _
    refine ⟨rfl, fun caller hsigner => ?_⟩
    obtain rfl : .filled 2 = caller := Option.some.inj hsigner
    exact Devnet.not_authorizes_stranger

end Session

end Mintage
