import Mintage.Proofs.MintStep
import Mintage.Session

/-!
# What one action does

The storage that an action leaves is the one before, or it comes from one of six kinds of
change (`Effect`), each of which says what it was made of.  The environment that it leaves
depends on the environment alone (`environment`).

    s.Effect a (s.perform depth a).2.world.storage                         (perform_effect)
    (s.perform depth a).2.env = a.environment s.env                           (perform_env)
-/

namespace Mintage

/-! ## Definitions -/

/-- The request that reaches the ledger's door when the action is carried out. -/
inductive Action.Requests (s : Settings) : Action → MintRequest → Prop
  | mint (r : MintRequest) : Requests s (.mint r) r
  | call {caller : Account} {recipient : Bytes} {amount : Amount} {denom : Bytes} {c : MintCall} :
      MintCall.build s recipient amount denom = .ok c →
      Requests s (.call (.signed caller) recipient amount denom) (c.request caller)
  | callRaw {caller : Account} {bytes rest : Bytes} {c : MintCall} :
      MintCall.decode? s.bounds bytes = some (c, rest) →
      Requests s (.callRaw (.signed caller) bytes) (c.request caller)

/-- The storage that an action may leave in a session. -/
inductive Session.Effect (s : Session) : Action → Storage → Prop
  | keep (a : Action) : Effect s a s.world.storage
  | endow (who : Account) (denom : Bytes) (amount : Amount) :
      Effect s (.endow who denom amount)
        { s.world.storage with book := s.world.storage.book.endow who denom amount.toNat }
  | mint {a : Action} {depth : Nat} {r : MintRequest} {c : Clearance} {calls : List LedgerCall}
      {st : Storage} (hreq : a.Requests s.env.settings r) (hr : Mint.review s.env r = .ok c)
      (hd : Mint.deliver s.env depth c.recipient c.coin s.world.storage = (calls, .ok st)) :
      Effect s a { st with events := st.events ++ [Mint.event r c.minter] }
  | mintCoins {depth : Nat} {target : Account} {coins : List Coin} {st : Storage}
      (h : Ledger.mintStep s.env depth target coins s.world.storage = .ok st) :
      Effect s (.mintCoins target coins) st
  | sendCoins {depth : Nat} {sender receiver : Account} {coins : List Coin} {st : Storage}
      (h : Ledger.sendStep s.env depth sender receiver coins s.world.storage = .ok st) :
      Effect s (.sendCoins sender receiver coins) st
  | mintNative {depth : Nat} {target : Account} {coins : List Coin} {st : Storage}
      (h : Ledger.mintNativeStep s.env.settings.currency depth target coins s.world.storage =
        .ok st) :
      Effect s (.mintNative target coins) st
  | sendNative {depth : Nat} {sender receiver : Account} {coins : List Coin} {st : Storage}
      (h : Ledger.sendNativeStep s.env.settings.currency depth sender receiver coins
        s.world.storage = .ok st) :
      Effect s (.sendNative sender receiver coins) st

/-- The environment after an action. -/
def Action.environment (a : Action) (e : Environment) : Environment :=
  match a with
  | .configure changes => Setting.applyAll e changes
  | .setKey name text => { e with keyring := e.keyring.insert name text }
  | .setKeyAccount name a =>
    { e with keyring := e.keyring.insert name (e.settings.addressOf a) }
  | .removeKey name => { e with keyring := e.keyring.remove name }
  | .refuseMints v => { e with switches.refuseMints := v }
  | .refuseTransfers v => { e with switches.refuseTransfers := v }
  | _ => e

/-! ## The environment -/

namespace Session

theorem transact_eq {ε α : Type} (s : Session) (t : Transaction ε α)
    (answer : Except ε α → Answer) :
    s.transact t answer = (answer (t s.world).1, { s with world := (t s.world).2 }) := rfl

theorem perform_mint (depth : Nat) (r : MintRequest) (s : Session) :
    s.perform depth (.mint r) =
      (.mint (mint s.env depth r s.world).1,
        { s with world := (mint s.env depth r s.world).2 }) := rfl

theorem storage_perform_mint (depth : Nat) (r : MintRequest) (s : Session) :
    (s.perform depth (.mint r)).2.world.storage = (mint s.env depth r s.world).2.storage := rfl

theorem perform_call (depth : Nat) (origin : Origin) (recipient : Bytes) (amount : Amount)
    (denom : Bytes) (s : Session) :
    s.perform depth (.call origin recipient amount denom) =
      match MintCall.build s.env.settings recipient amount denom with
      | .error part => (.unbuilt part, s)
      | .ok c => s.dispatch depth origin c (.call c.encode) := rfl

theorem perform_callRaw (depth : Nat) (origin : Origin) (bytes : Bytes) (s : Session) :
    s.perform depth (.callRaw origin bytes) =
      match MintCall.decode? s.env.settings.bounds bytes with
      | none => (.undecodable, s)
      | some (c, rest) => s.dispatch depth origin c (.rawCall c rest.length) := rfl

theorem dispatch_eq (depth : Nat) (origin : Origin) (c : MintCall) (s : Session)
    (answer : Except CallError Unit → Answer) :
    s.dispatch depth origin c answer =
      (answer (c.dispatch s.env depth origin s.world).1,
        { s with world := (c.dispatch s.env depth origin s.world).2 }) := rfl

/-- A call whose parts are within their bounds is dispatched. -/
theorem perform_call_of_fits {s : Session} {recipient denom : Bytes}
    (hr : recipient.length ≤ s.env.settings.bounds.address)
    (hd : denom.length ≤ s.env.settings.bounds.denom) (depth : Nat) (origin : Origin)
    (amount : Amount) :
    s.perform depth (.call origin recipient amount denom) =
      s.dispatch depth origin ⟨recipient, amount, denom⟩
        (.call (MintCall.encode ⟨recipient, amount, denom⟩)) := by
  rw [perform_call, MintCall.build_of_fits hr hd]

theorem perform_tryState (depth : Nat) (s : Session) :
    s.perform depth .tryState =
      (.ofUnit (Health.tryState s.env s.world).1,
        { s with world := (Health.tryState s.env s.world).2 }) := by
  exact transact_eq s (Health.tryState s.env) .ofUnit

theorem perform_integrity (depth : Nat) (s : Session) :
    s.perform depth .integrity =
      if Health.boundFits s.env.settings then (.done, s)
      else (.broken .addressBoundTooSmall, s) := by
  unfold perform
  dsimp only
  by_cases h : Health.boundFits s.env.settings = true
  · rw [show Health.integrity s.env.settings = .ok () from if_pos h, if_pos h]
  · rw [show Health.integrity s.env.settings = .error .addressBoundTooSmall from if_neg h, if_neg h]

theorem perform_env (depth : Nat) (a : Action) (s : Session) :
    (s.perform depth a).2.env = a.environment s.env := by
  cases a with
  | call origin recipient amount denom =>
    rw [perform_call]
    split
    · rfl
    · rfl
  | callRaw origin bytes =>
    rw [perform_callRaw]
    split
    · rfl
    · rfl
  | integrity =>
    rw [perform_integrity]
    split
    · rfl
    · rfl
  | _ => rfl

end Session

namespace Setting

theorem applyAll_induct {P : Environment → Prop} (hstep : ∀ e c, P e → P (apply e c))
    {e : Environment} (h : P e) (changes : List Setting) : P (applyAll e changes) := by
  unfold applyAll
  induction changes generalizing e with
  | nil => exact h
  | cons c changes ih => exact ih (hstep e c h)

/-- No setting changes which ledger issues, nor the terms of the currency. -/
theorem applyAll_ledger (e : Environment) (changes : List Setting) :
    (applyAll e changes).settings.ledger = e.settings.ledger ∧
      (applyAll e changes).settings.currency = e.settings.currency := by
  refine applyAll_induct (fun e' c h => ?_) (P := fun e' =>
    e'.settings.ledger = e.settings.ledger ∧ e'.settings.currency = e.settings.currency)
    ⟨rfl, rfl⟩ changes
  cases c <;> exact h

end Setting

/-- No action changes which ledger issues, nor the terms of the currency. -/
theorem Action.environment_ledger (a : Action) (e : Environment) :
    (a.environment e).settings.ledger = e.settings.ledger ∧
      (a.environment e).settings.currency = e.settings.currency := by
  cases a with
  | configure changes => exact Setting.applyAll_ledger e changes
  | _ => exact ⟨rfl, rfl⟩

/-! ## The storage -/

/-- What is left of a settled step is the storage before or the one it reached. -/
theorem storage_of_settle (w : World) (calls : List LedgerCall) (r : Except Fault Storage) :
    (w.settle calls r).2.storage = w.storage ∨ r = .ok (w.settle calls r).2.storage := by
  cases r with
  | error e => exact Or.inl rfl
  | ok st => exact Or.inr rfl

namespace Session

/-- A mint leaves the storage before or that of a delivery, with one event more. -/
theorem effect_of_mint {s : Session} {a : Action} {r : MintRequest}
    (hreq : a.Requests s.env.settings r) (depth : Nat) :
    s.Effect a (mint s.env depth r s.world).2.storage := by
  rcases hm : mint s.env depth r s.world with ⟨e | rec, w'⟩
  · rw [show w'.storage = s.world.storage from (Mint.mint_error_inv hm).1]
    exact .keep a
  · obtain ⟨c, calls, st, hr, hd, -, hst, -⟩ := Mint.mint_ok_inv hm
    dsimp only
    rw [hst]
    exact .mint hreq hr hd

theorem effect_of_dispatch {s : Session} {a : Action} {origin : Origin} {c : MintCall}
    (hreq : ∀ caller, origin = .signed caller → a.Requests s.env.settings (c.request caller))
    (depth : Nat) :
    s.Effect a (c.dispatch s.env depth origin s.world).2.storage := by
  rw [dispatch_run]
  split
  · exact .keep a
  · split
    · next caller => exact effect_of_mint (hreq caller rfl) (depth + 1)
    · exact .keep a
    · exact .keep a

theorem authorization_run (env : Environment) (caller : Account) (w : World) :
    Session.authorization env caller w =
      (((Authority.verdict env caller).isOk, Authority.verdict env caller),
        (w.tell (Authority.reports env)).tell (Authority.reports env)) := by
  have hrun : Session.authorization env caller w =
      (((Authority.isAuthorized env caller w).1,
        (Authority.authorize env caller (Authority.isAuthorized env caller w).2).1),
        (Authority.authorize env caller (Authority.isAuthorized env caller w).2).2) := rfl
  rw [hrun, Authority.isAuthorized_run, Authority.authorize_run]

theorem perform_resolve (depth : Nat) (s : Session) :
    (s.perform depth .resolve).1 = .ofAccount (Authority.current s.env) := by
  show Answer.ofAccount (Authority.resolve s.env s.world).1 = _
  rw [Authority.resolve_run]

theorem perform_authorize (depth : Nat) (caller : Account) (s : Session) :
    (s.perform depth (.authorize caller)).1 =
      .authorization (Authority.verdict s.env caller).isOk (Authority.verdict s.env caller) := by
  have hrun : (s.perform depth (.authorize caller)).1 =
      .authorization (authorization s.env caller s.world).1.1
        (authorization s.env caller s.world).1.2 := rfl
  rw [hrun, authorization_run]

/-- Whatever the action, its effect is one of those listed. -/
theorem perform_effect (depth : Nat) (a : Action) (s : Session) :
    s.Effect a (s.perform depth a).2.world.storage := by
  cases a with
  | endow who denom amount => exact .endow who denom amount
  | resolve =>
    show s.Effect _ (Authority.resolve s.env s.world).2.storage
    rw [Authority.resolve_run]
    exact .keep _
  | authorize caller =>
    show s.Effect _ (authorization s.env caller s.world).2.storage
    rw [authorization_run]
    exact .keep _
  | mint r => exact effect_of_mint (.mint r) depth
  | call origin recipient amount denom =>
    rw [perform_call]
    cases hb : MintCall.build s.env.settings recipient amount denom with
    | error part => exact .keep _
    | ok c =>
      refine effect_of_dispatch (fun caller ho => ?_) depth
      rw [ho]
      exact .call hb
  | callRaw origin bytes =>
    rw [perform_callRaw]
    cases hd : MintCall.decode? s.env.settings.bounds bytes with
    | none => exact .keep _
    | some cr =>
      refine effect_of_dispatch (fun caller ho => ?_) depth
      rw [ho]
      exact .callRaw hd
  | mintCoins target coins =>
    show s.Effect _ (Ledger.mintCoins s.env depth target coins s.world).2.storage
    rw [Ledger.mintCoins_run]
    rcases storage_of_settle s.world _ _ with h | h
    · rw [h]
      exact .keep _
    · exact .mintCoins h
  | sendCoins sender receiver coins =>
    show s.Effect _ (Ledger.sendCoins s.env depth sender receiver coins s.world).2.storage
    rw [Ledger.sendCoins_run]
    rcases storage_of_settle s.world _ _ with h | h
    · rw [h]
      exact .keep _
    · exact .sendCoins h
  | mintNative target coins =>
    show s.Effect _ (Ledger.mintNative _ depth target coins s.world).2.storage
    rw [Ledger.mintNative_run]
    rcases storage_of_settle s.world _ _ with h | h
    · rw [h]
      exact .keep _
    · exact .mintNative h
  | sendNative sender receiver coins =>
    show s.Effect _ (Ledger.sendNative _ depth sender receiver coins s.world).2.storage
    rw [Ledger.sendNative_run]
    rcases storage_of_settle s.world _ _ with h | h
    · rw [h]
      exact .keep _
    · exact .sendNative h
  | tryState =>
    rw [perform_tryState, Health.tryState_run]
    split
    · exact .keep _
    · exact .keep _
  | integrity =>
    rw [perform_integrity]
    split
    · exact .keep _
    · exact .keep _
  | _ => exact .keep _

end Session

end Mintage
