import Mintage.Devnet
import Mintage.Proofs.Actions
import Mintage.Proofs.AddressLength
import Mintage.Proofs.AddressText

/-!
# A failed mint leaves no trace in the storage

A mint may fail after the coins were issued and before they arrived.  However deep the
layers around it, whichever ledger issues and by whichever way it was asked for, the
storage is then the one before: balances, supply and event log.  On the book the calls
that were made tell the stage it failed in.

    a asks for a mint → its answer is not a success →
      the storage and the environment are as before                  (failed_mint_is_undone)
-/

namespace Mintage

/-- Asks for a mint: as a request, as a call or as the bytes of a call. -/
def Action.AsksMint : Action → Prop
  | .mint _ | .call .. | .callRaw .. => True
  | _ => False

/-- The answer of a mint that was carried out. -/
def Answer.Minted : Answer → Prop
  | .mint (.ok _) | .call _ (.ok _) | .rawCall _ _ (.ok _) => True
  | _ => False

/-- The calls to the book that a mint has made when it fails in a stage. -/
def Stage.FailsAfter : Stage → List LedgerCall → Prop
  | .authorizing, calls | .validating, calls => calls = []
  | .minting, calls => calls = [] ∨ calls = [.mint]
  | .transferring, calls => calls = [.mint, .send]
  | .received, _ | .emitting, _ | .completed, _ => False

/-! ## Lemmas -/

namespace Mint

theorem stage_of_minterText_error {env : Environment} {caller : Account} {e : MintError}
    (h : minterText env caller = .error e) : e.stage = .authorizing := by
  unfold minterText at h
  split at h
  · cases h
    rfl
  · split at h
    · cases h
    · cases h
      rfl

theorem stage_of_recipientAccount_error {s : Settings} {r : MintRequest} {e : MintError}
    (h : r.recipientAccount s = .error e) : e.stage = .validating := by
  unfold MintRequest.recipientAccount at h
  split at h
  · cases h
    rfl
  · split at h
    · cases h
    · cases h
      rfl

theorem stage_of_coin_error {s : Settings} {r : MintRequest} {e : MintError}
    (h : r.coin s = .error e) : e.stage = .minting := by
  unfold MintRequest.coin at h
  split at h
  · cases h
    rfl
  · split at h
    · cases h
    · cases h
      rfl

/-- No check before the ledger fails as a transfer. -/
theorem stage_of_review_error {env : Environment} {r : MintRequest} {e : MintError}
    (h : review env r = .error e) :
    e.stage = .authorizing ∨ e.stage = .validating ∨ e.stage = .minting := by
  rcases review_error_inv h with hm | hr | hc
  · exact Or.inl (stage_of_minterText_error hm)
  · exact Or.inr (Or.inl (stage_of_recipientAccount_error hr))
  · exact Or.inr (Or.inr (stage_of_coin_error hc))

/-- A delivery fails before its first call, after it, or after both. -/
theorem calls_of_deliver_error {env : Environment} {depth : Nat} {a : Account} {c : Coin}
    {st : Storage} {calls : List LedgerCall} {e : MintError}
    (h : deliver env depth a c st = (calls, .error e)) :
    (e.stage = .minting ∧ (calls = [] ∨ calls = Ledger.mintCalls env)) ∨
      (e.stage = .transferring ∧ calls = Ledger.mintCalls env ++ Ledger.sendCalls env) := by
  rcases deliver_error_inv h with ⟨rfl, hcalls⟩ | ⟨f, -, rfl, hcalls⟩ | ⟨f, rfl, hcalls⟩
  · exact Or.inl ⟨rfl, Or.inl hcalls⟩
  · exact Or.inl ⟨rfl, Or.inr hcalls⟩
  · exact Or.inr ⟨rfl, hcalls⟩

end Mint

/-! ## A request of the development network -/

namespace Devnet

/-- 1000 `fei` for the account of twos. -/
def request : MintRequest where
  caller := minter
  recipient := settings.addressOf (.filled 2)
  amount := ⟨1000, by decide⟩
  denom := [0x66, 0x65, 0x69]

/-- An amount in the denomination of the request. -/
def coin (n : Amount) : Coin := ⟨request.denom, n⟩

/-- The address bound holds both texts of the request. -/
theorem fits_request : settings.fitsAddress (settings.addressOf minter) = true ∧
    settings.fitsAddress request.recipient = true := by
  have hb : Health.boundFits settings = true := Health.boundFits_iff.mpr (by decide)
  exact ⟨Settings.fitsAddress_addressOf hb minter, Settings.fitsAddress_addressOf hb (.filled 2)⟩

/-- The development network with its switches set. -/
def switched (sw : Switches) : Session :=
  { initial with env := { initial.env with switches := sw } }

/-- The development network whose book refuses transfers. -/
def refusing : Session := switched ⟨false, true⟩

/-- The request passes its review, whatever the switches. -/
theorem review_request (sw : Switches) :
    Mint.review (switched sw).env request =
      .ok ⟨settings.addressOf minter, .filled 2, ⟨request.denom, request.amount⟩⟩ := by
  have hkey : initial.env.keyring.find (Bytes.ofText settings.authorityName) =
      .ok (settings.addressOf minter) := by
    simp [Keyring.find, initial, Keyring.insert, Keyring.empty]
  have hnet : settings.network.toNat < 16384 := by decide
  have hcur : Authority.current (switched sw).env = .ok minter :=
    Authority.current_of_named rfl hkey (Settings.account?_addressOf hnet minter)
  have hval : Denom.isValid request.denom = true ∧ settings.fitsDenom request.denom = true := by
    decide
  rw [Mint.review_eq_ok_iff]
  exact ⟨hcur, fits_request.1, Settings.account?_addressOf hnet (.filled 2), fits_request.2,
    hval.1, hval.2, rfl, rfl⟩

end Devnet

/-! ## Calls and requests that fail -/

/-- On the book, the calls of a mint that fails match its stage. -/
theorem failsAfter_of_mint_error {env : Environment} (hb : env.settings.ledger = .book)
    {depth : Nat} {r : MintRequest} {w w' : World} {e : MintError}
    (h : mint env depth r w = (.error e, w')) :
    ∃ calls, w'.calls = w.calls ++ calls ∧ e.stage.FailsAfter calls := by
  have hmint : Ledger.mintCalls env = [.mint] := by
    unfold Ledger.mintCalls
    rw [hb]
  have hsend : Ledger.sendCalls env = [.send] := by
    unfold Ledger.sendCalls
    rw [hb]
  obtain ⟨-, calls, hcalls, ⟨hr, rfl⟩ | ⟨c, -, hd⟩⟩ := Mint.mint_error_inv h
  · refine ⟨[], hcalls, ?_⟩
    rcases Mint.stage_of_review_error hr with hs | hs | hs
    · rw [hs]
      exact rfl
    · rw [hs]
      exact rfl
    · rw [hs]
      exact Or.inl rfl
  · refine ⟨calls, hcalls, ?_⟩
    rcases Mint.calls_of_deliver_error hd with ⟨hs, hc | hc⟩ | ⟨hs, hc⟩
    · rw [hs, hc]
      exact Or.inl rfl
    · rw [hs, hc, hmint]
      exact Or.inr rfl
    · rw [hs, hc, hmint, hsend]
      exact rfl

/-- A call that fails keeps the storage, wherever it failed. -/
theorem storage_of_dispatch_error {env : Environment} {depth : Nat} {origin : Origin}
    {c : MintCall} {w w' : World} {e : CallError}
    (h : c.dispatch env depth origin w = (.error e, w')) : w'.storage = w.storage :=
  storage_of_withLayer_error h

namespace Session

/-- A dispatch that does not answer as one that succeeds keeps the storage. -/
theorem storage_of_dispatch_ne {depth : Nat} {origin : Origin} {c : MintCall} {s : Session}
    {answer : Except CallError Unit → Answer}
    (h : (s.dispatch depth origin c answer).1 ≠ answer (.ok ())) :
    (s.dispatch depth origin c answer).2.world.storage = s.world.storage := by
  rw [dispatch_eq] at h ⊢
  rcases hd : c.dispatch s.env depth origin s.world with ⟨e | _, w'⟩
  · exact storage_of_dispatch_error hd
  · rw [hd] at h
    exact absurd rfl h

/-- A dispatch whose answer is not a success keeps the storage. -/
theorem storage_of_dispatch_not_minted {depth : Nat} {origin : Origin} {c : MintCall}
    {s : Session} {answer : Except CallError Unit → Answer} (ha : (answer (.ok ())).Minted)
    (h : ¬ (s.dispatch depth origin c answer).1.Minted) :
    (s.dispatch depth origin c answer).2.world.storage = s.world.storage := by
  refine storage_of_dispatch_ne fun heq => h ?_
  rw [heq]
  exact ha

/-! ## Top theorem -/

/-- **Atomicity.**  A mint that does not succeed, asked for in any of the three ways, keeps
the storage and the environment; on the book a failed request has made the calls that
belong to its stage. -/
theorem failed_mint_is_undone {a : Action} (ha : a.AsksMint) (depth : Nat) (s : Session)
    (hf : ¬ (s.perform depth a).1.Minted) :
    (s.perform depth a).2.world.storage = s.world.storage ∧
    (s.perform depth a).2.env = s.env ∧
    ∀ r e, a = .mint r → (s.perform depth a).1 = .mint (.error e) →
      s.env.settings.ledger = .book →
      ∃ calls, (s.perform depth a).2.world.calls = s.world.calls ++ calls ∧
        e.stage.FailsAfter calls := by
  cases a with
  | mint r =>
    rw [perform_mint] at hf ⊢
    rcases hm : Mintage.mint s.env depth r s.world with ⟨e | rec, w'⟩
    · refine ⟨(Mint.mint_error_inv hm).1, rfl, ?_⟩
      intro r' e' _ he hb
      cases he
      exact failsAfter_of_mint_error hb hm
    · rw [hm] at hf
      exact absurd trivial hf
  | call origin recipient amount denom =>
    rw [perform_call] at hf ⊢
    cases hb : MintCall.build s.env.settings recipient amount denom with
    | error part => exact ⟨rfl, rfl, fun _ _ h => by cases h⟩
    | ok c =>
      rw [hb] at hf
      exact ⟨storage_of_dispatch_not_minted trivial hf, rfl, fun _ _ h => by cases h⟩
  | callRaw origin bytes =>
    rw [perform_callRaw] at hf ⊢
    cases hd : MintCall.decode? s.env.settings.bounds bytes with
    | none => exact ⟨rfl, rfl, fun _ _ h => by cases h⟩
    | some cr =>
      rw [hd] at hf
      exact ⟨storage_of_dispatch_not_minted trivial hf, rfl, fun _ _ h => by cases h⟩
  | _ => exact absurd ha id

/-- The coins of this mint were issued before the transfer was refused. -/
theorem transfer_refused_is_undone :
    (Devnet.refusing.perform 3 (.mint Devnet.request)).1 =
        .mint (.error (.transferFailed (.filled 2) .transfersDisabled)) ∧
      (Devnet.refusing.perform 3 (.mint Devnet.request)).2.world.storage =
        Devnet.refusing.world.storage ∧
      ∃ calls, (Devnet.refusing.perform 3 (.mint Devnet.request)).2.world.calls =
        Devnet.refusing.world.calls ++ calls ∧ calls = [.mint, .send] := by
  have hr : Mint.review Devnet.refusing.env Devnet.request = .ok _ :=
    Devnet.review_request ⟨false, true⟩
  have hd : Mint.deliver Devnet.refusing.env 3 (.filled 2)
      ⟨Devnet.request.denom, Devnet.request.amount⟩ Devnet.refusing.world.storage =
      ([.mint, .send], .error (.transferFailed (.filled 2) .transfersDisabled)) := rfl
  have ha : (Devnet.refusing.perform 3 (.mint Devnet.request)).1 =
      .mint (.error (.transferFailed (.filled 2) .transfersDisabled)) := by
    rw [perform_mint, Mint.answer_of_deliver hr hd]
    rfl
  have hf : ¬ (Devnet.refusing.perform 3 (.mint Devnet.request)).1.Minted := by
    rw [ha]
    exact id
  obtain ⟨hst, -, hcalls⟩ :=
    failed_mint_is_undone (a := .mint Devnet.request) trivial 3 Devnet.refusing hf
  obtain ⟨calls, hc, hstage⟩ := hcalls _ _ rfl ha rfl
  exact ⟨ha, hst, calls, hc, hstage⟩

end Session

end Mintage
