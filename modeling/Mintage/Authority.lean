import Mintage.Environment
import Mintage.World

/-!
# The authority

One account may mint at any moment. It is either fixed or looked up in the
keyring anew each time; where it cannot be found nobody may mint.

    resolve env w = (current env, w.tell (reports env))                     (resolve_run)
    authorize env caller w = (verdict env caller, w.tell (reports env))   (authorize_run)

Who is turned away is told the authority or why there is none, and not both (`authorize_error`).
-/

namespace Mintage

/-- Why a caller was turned away. -/
structure Denial where
  /-- The authority, if it was found and is another account. -/
  authority? : Option Account
  /-- Why the authority was not found. -/
  cause? : Option Fault
  deriving DecidableEq

namespace Authority

/-! ## Algorithm -/

/-- The account that may mint now. A text that is not an address is reported. -/
def resolve (env : Environment) : Transaction Fault Account := do
  match env.settings.policy with
  | .fixed a => pure a
  | .named name =>
    let text ← env.keyring.find (Bytes.ofText name)
    match env.settings.account? text with
    | some a => pure a
    | none =>
      Transaction.write (.unreadableAddress name text)
      throw .authorityUnreadable

/-- Answers the authority if the caller is it. -/
def authorize (env : Environment) (caller : Account) : Transaction Denial Account := do
  let authority ← (resolve env).adapt fun f => { authority? := none, cause? := some f }
  if authority = caller then pure authority
  else throw { authority? := some authority, cause? := none }

/-- The caller may mint now. -/
def isAuthorized (env : Environment) (caller : Account) : StateM World Bool := do
  match ← (authorize env caller).run with
  | .ok _ => pure true
  | .error _ => pure false

/-! ## Answers and reports -/

/-- The account that may mint now, without the report. -/
def current (env : Environment) : Except Fault Account :=
  match env.settings.policy with
  | .fixed a => .ok a
  | .named name =>
    match env.keyring.find (Bytes.ofText name) with
    | .error f => .error f
    | .ok text =>
      match env.settings.account? text with
      | some a => .ok a
      | none => .error .authorityUnreadable

/-- What looking the authority up reports. -/
def reports (env : Environment) : List JournalEntry :=
  match env.settings.policy with
  | .fixed _ => []
  | .named name =>
    match env.keyring.find (Bytes.ofText name) with
    | .error _ => []
    | .ok text =>
      match env.settings.account? text with
      | some _ => []
      | none => [.unreadableAddress name text]

/-- What a caller is answered. -/
def verdict (env : Environment) (caller : Account) : Except Denial Account :=
  match current env with
  | .error f => .error ⟨none, some f⟩
  | .ok a => if a = caller then .ok a else .error ⟨some a, none⟩

/-! ## Lemmas -/

theorem resolve_run (env : Environment) (w : World) :
    resolve env w = (current env, w.tell (reports env)) := by
  unfold resolve current reports
  cases env.settings.policy with
  | fixed a =>
    rw [World.tell_nil]
    rfl
  | named name =>
    dsimp only
    rw [Transaction.bind_run]
    cases env.keyring.find (Bytes.ofText name) with
    | error f =>
      rw [World.tell_nil]
      rfl
    | ok text =>
      dsimp only [liftM, monadLift, MonadLift.monadLift, ExceptT.mk, pure, StateT.pure]
      cases env.settings.account? text with
      | none => rfl
      | some a =>
        rw [World.tell_nil]
        rfl

/-- Under a name, the authority is the account whose text the keyring holds. -/
theorem current_of_named {env : Environment} {name : String} {text : Bytes} {a : Account}
    (hp : env.settings.policy = .named name)
    (hf : env.keyring.find (Bytes.ofText name) = .ok text)
    (ha : env.settings.account? text = some a) : current env = .ok a := by
  unfold current
  rw [hp]
  dsimp only
  rw [hf]
  dsimp only
  rw [ha]

theorem authorize_run (env : Environment) (caller : Account) (w : World) :
    authorize env caller w = (verdict env caller, w.tell (reports env)) := by
  unfold authorize verdict
  rw [Transaction.bind_run, Transaction.adapt_run, resolve_run]
  cases current env with
  | error f => rfl
  | ok a =>
    dsimp only [mapError_ok]
    by_cases ha : a = caller
    · rw [if_pos ha, if_pos ha]
      rfl
    · rw [if_neg ha, if_neg ha]
      rfl

theorem isAuthorized_run (env : Environment) (caller : Account) (w : World) :
    isAuthorized env caller w =
      ((verdict env caller).isOk, w.tell (reports env)) := by
  have hrun : isAuthorized env caller w =
      match authorize env caller w with
      | (.ok _, w') => (true, w')
      | (.error _, w') => (false, w') := by
    unfold isAuthorized
    simp only [bind, StateT.bind, ExceptT.run, pure]
    rcases authorize env caller w with ⟨e | a, w'⟩ <;> rfl
  rw [hrun, authorize_run]
  cases verdict env caller with
  | error d => rfl
  | ok a => rfl

theorem verdict_eq_ok_iff {env : Environment} {caller a : Account} :
    verdict env caller = .ok a ↔ a = caller ∧ current env = .ok caller := by
  unfold verdict
  cases current env with
  | error f => simp
  | ok b =>
    by_cases hb : b = caller
    · simp [hb, eq_comm]
    · simp [hb]

theorem isOk_verdict_iff {env : Environment} {caller : Account} :
    (verdict env caller).isOk = true ↔ current env = .ok caller := by
  constructor
  · intro h
    cases hv : verdict env caller with
    | error d =>
      rw [hv] at h
      cases h
    | ok a => exact (verdict_eq_ok_iff.mp hv).2
  · intro h
    rw [verdict_eq_ok_iff.mpr ⟨rfl, h⟩]
    rfl

theorem verdict_eq_error_iff {env : Environment} {caller : Account} {d : Denial} :
    verdict env caller = .error d ↔
      (∃ a, current env = .ok a ∧ a ≠ caller ∧ d = ⟨some a, none⟩) ∨
        ∃ f, current env = .error f ∧ d = ⟨none, some f⟩ := by
  unfold verdict
  cases current env with
  | error f => simp [eq_comm]
  | ok a =>
    by_cases ha : a = caller
    · simp [ha]
    · dsimp only
      rw [if_neg ha]
      constructor
      · intro h
        cases h
        exact Or.inl ⟨a, rfl, ha, rfl⟩
      · rintro (⟨b, hb, -, rfl⟩ | ⟨f, hf, -⟩)
        · cases hb
          rfl
        · cases hf

/-- **Never both and never neither.**  A caller is turned away with the authority, which is
another account, or with the reason why there is none. -/
theorem authorize_error {env : Environment} {caller : Account} {w w' : World} {d : Denial}
    (h : authorize env caller w = (.error d, w')) :
    (∃ a, a ≠ caller ∧ d.authority? = some a ∧ d.cause? = none) ∨
      ∃ f, d.authority? = none ∧ d.cause? = some f := by
  rw [authorize_run] at h
  obtain ⟨a, -, ha, rfl⟩ | ⟨f, -, rfl⟩ := verdict_eq_error_iff.mp (Prod.mk.inj h).1
  · exact Or.inl ⟨a, ha, rfl, rfl⟩
  · exact Or.inr ⟨f, rfl, rfl⟩

end Authority

end Mintage
