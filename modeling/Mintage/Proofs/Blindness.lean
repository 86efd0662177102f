import Mintage.Proofs.Atomicity
import Mintage.Proofs.Runs

/-!
# The calls noted and the journal decide nothing

No rollback undoes the calls noted and the journal, and no operation looks at them (`Blind`):
sessions that differ in nothing else (`Alike`) answer alike and stay alike.  What fails, or is
rolled back without a change of the environment, leaves the session like the one it found:

    s.Alike t → the answers of an action agree and the sessions after it are alike
                                                               (Alike.perform)
    (s.perform depth a).1.Failed → (s.perform depth a).2.Alike s   (perform_alike_of_failed)
    a layer that failed and left the environment as it was is alike its start
                                                               (Step.run_alike_of_failed)
-/

namespace Mintage

/-! ## Definitions -/

/-- Looks at the storage alone: neither the answer nor the storage it leaves depends on the
calls noted or on the journal. -/
def Blind {α : Type} (t : World → α × World) : Prop :=
  ∀ w w' : World, w.storage = w'.storage →
    (t w).1 = (t w').1 ∧ (t w).2.storage = (t w').2.storage

/-- The sessions differ in the calls noted and the journal at most. -/
structure Session.Alike (s t : Session) : Prop where
  env_eq : s.env = t.env
  storage_eq : s.world.storage = t.world.storage

/-- What was asked for was not done. -/
def Answer.Failed : Answer → Prop
  | .refused _ | .authorization _ (.error _) | .mint (.error _) | .call _ (.error _) | .unbuilt _
  | .rawCall _ _ (.error _) | .undecodable | .broken _ => True
  | _ => False

/-- Changes neither the settings nor the keyring nor the switches; no mint, call, endowment or
operation of a ledger does. -/
def Action.LeavesEnvironment (a : Action) : Prop := ∀ e, a.environment e = e

def Entry.answer : Entry → Answer
  | .mk answer _ _ _ => answer

/-! ## Operations look at the storage alone -/

namespace Blind

/-- A step on the storage, with the calls it notes. -/
theorem of_settle {ε : Type} {op : Transaction ε Unit} {calls : List LedgerCall}
    {f : Storage → Except ε Storage} (hop : ∀ w : World, op w = w.settle calls (f w.storage)) :
    Blind op := by
  intro w w' h
  rw [hop, hop, h]
  cases f w'.storage with
  | error e => exact ⟨rfl, h⟩
  | ok st => exact ⟨rfl, rfl⟩

theorem resolve (env : Environment) : Blind (Authority.resolve env) := by
  intro w w' h
  rw [Authority.resolve_run, Authority.resolve_run]
  exact ⟨rfl, h⟩

theorem authorization (env : Environment) (caller : Account) :
    Blind (Session.authorization env caller) := by
  intro w w' h
  rw [Session.authorization_run, Session.authorization_run]
  exact ⟨rfl, h⟩

theorem tryState (env : Environment) : Blind (Health.tryState env) := by
  intro w w' h
  rw [Health.tryState_run, Health.tryState_run]
  split
  · exact ⟨rfl, h⟩
  · exact ⟨rfl, h⟩

theorem mint (env : Environment) (depth : Nat) (r : MintRequest) :
    Blind (Mintage.mint env depth r) := by
  intro w w' h
  rw [mint_run, mint_run]
  unfold Mint.outcome Mint.outcomeOn
  rw [h]
  cases Mint.review env r with
  | error e => exact ⟨rfl, rfl⟩
  | ok c =>
    dsimp only
    rcases Mint.deliver env depth c.recipient c.coin w'.storage with ⟨calls, e | st⟩
    · exact ⟨rfl, rfl⟩
    · exact ⟨rfl, rfl⟩

theorem dispatch (env : Environment) (depth : Nat) (origin : Origin) (c : MintCall) :
    Blind (c.dispatch env depth origin) := by
  intro w w' h
  rw [dispatch_run, dispatch_run]
  split
  · exact ⟨rfl, h⟩
  · cases origin with
    | root => exact ⟨rfl, h⟩
    | none => exact ⟨rfl, h⟩
    | signed caller =>
      obtain ⟨hanswer, hstorage⟩ := mint env (depth + 1) (c.request caller) w w' h
      dsimp only
      rw [hanswer]
      exact ⟨rfl, hstorage⟩

end Blind

namespace Session

variable {s t u : Session}

/-! ## Actions -/

theorem Alike.refl (s : Session) : s.Alike s := ⟨rfl, rfl⟩

theorem Alike.trans (h : s.Alike t) (h' : t.Alike u) : s.Alike u :=
  ⟨h.env_eq.trans h'.env_eq, h.storage_eq.trans h'.storage_eq⟩

/-- Nothing else shows in a view than the calls. -/
theorem Alike.view_eq (h : s.Alike t) :
    { s.view with calls := [] } = { t.view with calls := [] } := by
  unfold view
  rw [h.env_eq, h.storage_eq]

theorem Alike.transact {ε α : Type} {op : Transaction ε α} (hop : Blind op)
    (answer : Except ε α → Answer) (h : s.Alike t) :
    (s.transact op answer).1 = (t.transact op answer).1 ∧
      (s.transact op answer).2.Alike (t.transact op answer).2 := by
  obtain ⟨hanswer, hstorage⟩ := hop s.world t.world h.storage_eq
  exact ⟨congrArg answer hanswer, h.env_eq, hstorage⟩

/-- Alike sessions answer alike and stay alike. -/
theorem Alike.perform (h : s.Alike t) (depth : Nat) (a : Action) :
    (s.perform depth a).1 = (t.perform depth a).1 ∧
      (s.perform depth a).2.Alike (t.perform depth a).2 := by
  obtain ⟨env, w⟩ := s
  obtain ⟨env', w'⟩ := t
  obtain ⟨rfl, hst⟩ : env = env' ∧ w.storage = w'.storage := ⟨h.env_eq, h.storage_eq⟩
  cases a with
  | resolve => exact h.transact (.resolve env) .ofAccount
  | authorize caller =>
    obtain ⟨hanswer, hstorage⟩ := Blind.authorization env caller w w' hst
    have hsame := congrArg (fun p : Bool × Except Denial Account => Answer.authorization p.1 p.2)
      hanswer
    exact ⟨hsame, rfl, hstorage⟩
  | mint r => exact h.transact (.mint env depth r) .mint
  | call origin recipient amount denom =>
    rw [perform_call, perform_call]
    cases MintCall.build env.settings recipient amount denom with
    | error part => exact ⟨rfl, h⟩
    | ok c => exact h.transact (.dispatch env depth origin c) (.call c.encode)
  | callRaw origin bytes =>
    rw [perform_callRaw, perform_callRaw]
    cases MintCall.decode? env.settings.bounds bytes with
    | none => exact ⟨rfl, h⟩
    | some cr => exact h.transact (.dispatch env depth origin cr.1) (.rawCall cr.1 cr.2.length)
  | mintCoins target coins =>
    exact h.transact (.of_settle (Ledger.mintCoins_run env depth target coins)) .ofUnit
  | sendCoins sender receiver coins =>
    exact h.transact (.of_settle (Ledger.sendCoins_run env depth sender receiver coins)) .ofUnit
  | mintNative target coins =>
    have hop := Ledger.mintNative_run env.settings.currency depth target coins
    exact h.transact (.of_settle hop) .ofUnit
  | sendNative sender receiver coins =>
    have hop := Ledger.sendNative_run env.settings.currency depth sender receiver coins
    exact h.transact (.of_settle hop) .ofUnit
  | endow who denom amount =>
    refine ⟨rfl, rfl, ?_⟩
    show { w.storage with book := w.storage.book.endow who denom amount.toNat } = _
    rw [hst]
    rfl
  | balance who denom =>
    exact ⟨congrArg (fun st : Storage => Answer.amount (st.book.balance who denom)) hst, h⟩
  | supply denom =>
    exact ⟨congrArg (fun st : Storage => Answer.amount (st.book.supply denom)) hst, h⟩
  | tryState => exact h.transact (.tryState env) .ofUnit
  | integrity =>
    unfold Session.perform
    dsimp only
    cases Health.integrity env.settings with
    | ok u => exact ⟨rfl, h⟩
    | error f => exact ⟨rfl, h⟩
  | _ => exact ⟨rfl, rfl, hst⟩

/-! ## Actions that fail -/

/-- A step on the storage that fails keeps it. -/
theorem transact_alike_of_failed {op : Transaction Fault Unit} {calls : List LedgerCall}
    {r : Except Fault Storage} (hop : op s.world = s.world.settle calls r)
    (h : (s.transact op .ofUnit).1.Failed) : (s.transact op .ofUnit).2.Alike s := by
  unfold transact at h ⊢
  rw [hop] at h ⊢
  cases r with
  | error f => exact ⟨rfl, rfl⟩
  | ok st => exact absurd h id

/-- An action that fails leaves the session like the one it found. -/
theorem perform_alike_of_failed {depth : Nat} {a : Action} (h : (s.perform depth a).1.Failed) :
    (s.perform depth a).2.Alike s := by
  cases a with
  | resolve =>
    refine ⟨rfl, ?_⟩
    show (Authority.resolve s.env s.world).2.storage = _
    rw [Authority.resolve_run]
    rfl
  | authorize caller =>
    refine ⟨rfl, ?_⟩
    show (authorization s.env caller s.world).2.storage = _
    rw [authorization_run]
    rfl
  | mint r =>
    rw [perform_mint] at h ⊢
    rcases hm : Mintage.mint s.env depth r s.world with ⟨e | rec, w'⟩
    · exact ⟨rfl, (Mint.mint_error_inv hm).1⟩
    · rw [hm] at h
      exact absurd h id
  | call origin recipient amount denom =>
    rw [perform_call] at h ⊢
    cases hb : MintCall.build s.env.settings recipient amount denom with
    | error part => exact .refl s
    | ok c =>
      rw [hb] at h
      exact ⟨rfl, storage_of_dispatch_ne fun heq => absurd h (heq ▸ id)⟩
  | callRaw origin bytes =>
    rw [perform_callRaw] at h ⊢
    cases hd : MintCall.decode? s.env.settings.bounds bytes with
    | none => exact .refl s
    | some cr =>
      rw [hd] at h
      exact ⟨rfl, storage_of_dispatch_ne fun heq => absurd h (heq ▸ id)⟩
  | mintCoins target coins => exact transact_alike_of_failed (Ledger.mintCoins_run ..) h
  | sendCoins sender receiver coins =>
    exact transact_alike_of_failed (Ledger.sendCoins_run ..) h
  | mintNative target coins => exact transact_alike_of_failed (Ledger.mintNative_run ..) h
  | sendNative sender receiver coins =>
    exact transact_alike_of_failed (Ledger.sendNative_run ..) h
  | tryState =>
    refine ⟨rfl, ?_⟩
    show (Health.tryState s.env s.world).2.storage = _
    rw [Health.tryState_run]
    split
    · rfl
    · rfl
  | integrity =>
    unfold perform
    dsimp only
    split
    · exact .refl s
    · exact .refl s
  | configure | setKey | setKeyAccount | removeKey | refuseMints | refuseTransfers | endow =>
    exact absurd h id
  | _ => exact .refl s

/-! ## Layers -/

/-- A layer is undone as far as its storage goes, whatever calls and journal it started from. -/
theorem Alike.rollBack {start start' : Session} (h₀ : start.Alike start') (h : s.Alike t) :
    (rollBack start s).Alike (rollBack start' t) := by
  unfold Session.rollBack
  refine ⟨?_, h₀.storage_eq⟩
  dsimp only
  rw [h₀.env_eq, h.env_eq]

theorem Alike.closeLayers {start start' : Session} (h₀ : start.Alike start') (h : s.Alike t)
    (count : Nat) (commit : Bool) :
    (closeLayers count commit start s).1 = (closeLayers count commit start' t).1 ∧
      (closeLayers count commit start s).2.Alike (closeLayers count commit start' t).2 := by
  unfold Session.closeLayers
  cases commit with
  | true => exact ⟨rfl, h⟩
  | false =>
    refine ⟨rfl, ?_⟩
    by_cases hc : count = 0
    · simpa [hc] using h
    · simpa [hc] using h₀.rollBack h

/-- Where the environment is as it was at the start, so is everything that is undone. -/
theorem rollBack_alike {start s : Session} (h : s.env = start.env) :
    (rollBack start s).Alike start := by
  unfold rollBack
  rw [h]
  refine ⟨?_, rfl⟩
  dsimp only
  rw [ite_self]

/-- Actions that leave the environment leave it along every run. -/
theorem kept_env (env : Environment) :
    Kept (fun _ a => a.LeavesEnvironment) fun s => s.env = env where
  perform depth a s ha h := by
    rw [perform_env, h]
    exact ha env
  rollBack start s h₀ h := by
    have hstart : s.env = start.env := h.trans h₀.symm
    rw [(rollBack_alike hstart).env_eq, h₀]

end Session

theorem Step.run_layer (depth count : Nat) (commit : Bool) (steps : List Step) (s : Session) :
    Step.run depth (.layer count commit steps) s =
      if maxLayers < depth + count then (.ofLayer (.error .layerLimit) [] s, s)
      else
        let inner := Step.runAll (depth + count) steps s
        let closed := Session.closeLayers count commit s inner.2
        (.ofLayer closed.1 inner.1 closed.2, closed.2) := by
  rw [Step.run]

/-- A layer that failed leaves the session like the one it found, unless its actions changed the
environment. -/
theorem Step.run_alike_of_failed {depth count : Nat} {commit : Bool} {steps : List Step}
    {s : Session} (hc : 0 < count)
    (hm : Step.AllMeet (fun _ a => a.LeavesEnvironment) (depth + count) steps s)
    (hf : (Step.run depth (.layer count commit steps) s).1.answer.Failed) :
    (Step.run depth (.layer count commit steps) s).2.Alike s := by
  rw [Step.run_layer] at hf ⊢
  by_cases hd : maxLayers < depth + count
  · rw [if_pos hd]
    exact .refl s
  · rw [if_neg hd] at hf ⊢
    have henv : (Step.runAll (depth + count) steps s).2.env = s.env :=
      (Session.kept_env s.env).runAll (depth + count) steps s hm rfl
    cases commit with
    | true => exact absurd hf id
    | false =>
      have hundone := Session.rollBack_alike henv
      simpa [Session.closeLayers, Nat.ne_of_gt hc] using hundone

end Mintage
