import Mintage.Proofs.CurrencySum

/-!
# Runs that leave the ledger to mints

Besides mints there are actions that reach a ledger directly (`direct?`).  Where none of them
reaches the ledger in use, only mints change it, and an account of it that starts empty can be
kept from mint to mint.  Such an account reads a setting as well, the network or the holding
account's seed; it is kept where that setting stays the same (`MintsOnly`).

    s.Effect a st → a.LeavesLedger s.env.settings →
      st comes from a mint, or the ledger in use is as it was           (spared_or_minted)
    KeptByMints setting ok P → Reachable ok s →
      P s.env.settings s.world.storage                                      (of_reachable)
-/

namespace Mintage

/-! ## Definitions -/

namespace Action

/-- The ledger that an action reaches directly, not by way of a mint. -/
def direct? (settings : Settings) : Action → Option LedgerKind
  | .endow .. => some .book
  | .mintCoins .. | .sendCoins .. => some settings.ledger
  | .mintNative .. | .sendNative .. => some .native
  | _ => none

/-- Reaches the ledger in use, if at all, by way of a mint. -/
def LeavesLedger (settings : Settings) (a : Action) : Prop :=
  a.direct? settings ≠ some settings.ledger

/-- Reaches any ledger, if at all, by way of a mint. -/
def LeavesLedgers (settings : Settings) (a : Action) : Prop := a.direct? settings = none

/-- Leaves the ledger in use to mints and the setting as it is. -/
structure MintsOnly {α : Type} (setting : Settings → α) (env : Environment) (a : Action) :
    Prop where
  leavesLedger : a.LeavesLedger env.settings
  setting_eq : setting (a.environment env).settings = setting env.settings

end Action

/-- The same setting and the same ledger. -/
structure Settings.SameLedger {α : Type} (setting : Settings → α) (s s' : Settings) : Prop where
  setting_eq : setting s = setting s'
  ledger_eq : s.ledger = s'.ledger
  currency_eq : s.currency = s'.currency

/-- What the storage becomes where at most the ledger that is not in use changes. -/
inductive Storage.Spared (settings : Settings) (st : Storage) : Storage → Prop
  | same : Spared settings st st
  | book (hl : settings.ledger = .native) (b : Book) : Spared settings st { st with book := b }
  | currency (hl : settings.ledger = .book) (c : Currency) :
      Spared settings st { st with currency := c }

/-- Under given settings the storage has a property that reads no more of them than the ledger
and one setting.  It has it at the start, and actions that are admitted, which leave the ledger
to mints and that setting as it is, keep it. -/
structure Session.KeptByMints {α : Type} (setting : Settings → α) (ok : Session → Action → Prop)
    (P : Settings → Storage → Prop) : Prop where
  mintsOnly : ∀ s a, ok s a → a.MintsOnly setting s.env
  rollBack_eq : ∀ start s : Session,
    setting (rollBack start s).env.settings = setting s.env.settings
  congr : ∀ settings settings' st, settings.SameLedger setting settings' →
    (P settings st ↔ P settings' st)
  empty : ∀ settings, P settings .empty
  perform : ∀ depth s a, ok s a → s.world.storage.currency.Sound s.env.settings.currency →
    P s.env.settings s.world.storage → P s.env.settings (s.perform depth a).2.world.storage

/-! ## One step -/

namespace LedgerKind

/-- There are two ledgers. -/
theorem eq_book_of_ne {l : LedgerKind} (h : some native ≠ some l) : l = book := by
  cases l with
  | book => rfl
  | native => exact absurd rfl h

theorem eq_native_of_ne {l : LedgerKind} (h : some book ≠ some l) : l = native := by
  cases l with
  | book => exact absurd rfl h
  | native => rfl

end LedgerKind

theorem Action.LeavesLedgers.leavesLedger {settings : Settings} {a : Action}
    (h : a.LeavesLedgers settings) : a.LeavesLedger settings := by
  unfold LeavesLedger
  rw [h]
  exact (Option.some_ne_none _).symm

/-- What leaves the ledger in use to mints comes from a mint or spares that ledger. -/
theorem Session.Effect.spared_or_minted {s : Session} {a : Action} {st : Storage}
    (he : s.Effect a st) (ha : a.LeavesLedger s.env.settings) :
    s.world.storage.Spared s.env.settings st ∨
      ∃ depth r c calls st', a.Requests s.env.settings r ∧ Mint.review s.env r = .ok c ∧
        Mint.deliver s.env depth c.recipient c.coin s.world.storage = (calls, .ok st') ∧
        st = { st' with events := st'.events ++ [Mint.event r c.minter] } := by
  cases he with
  | keep => exact Or.inl .same
  | endow who denom amount => exact Or.inl (.book (LedgerKind.eq_native_of_ne ha) _)
  | mint hreq hr hd => exact Or.inr ⟨_, _, _, _, _, hreq, hr, hd, rfl⟩
  | mintCoins hm => exact absurd rfl ha
  | sendCoins hs => exact absurd rfl ha
  | mintNative hm =>
    obtain ⟨-, c, -, rfl⟩ := Ledger.mintNativeStep_eq_ok_iff.mp hm
    exact Or.inl (.currency (LedgerKind.eq_book_of_ne ha) c)
  | sendNative hs =>
    obtain ⟨-, c, -, rfl⟩ := Ledger.sendNativeStep_eq_ok_iff.mp hs
    exact Or.inl (.currency (LedgerKind.eq_book_of_ne ha) c)

/-! ## Runs -/

section SameLedger

variable {α : Type} {setting : Settings → α}

theorem Settings.SameLedger.refl (s : Settings) : s.SameLedger setting s := ⟨rfl, rfl, rfl⟩

theorem Settings.SameLedger.trans {s₁ s₂ s₃ : Settings} (h : s₁.SameLedger setting s₂)
    (h' : s₂.SameLedger setting s₃) : s₁.SameLedger setting s₃ where
  setting_eq := h.setting_eq.trans h'.setting_eq
  ledger_eq := h.ledger_eq.trans h'.ledger_eq
  currency_eq := h.currency_eq.trans h'.currency_eq

theorem Action.MintsOnly.sameLedger {env : Environment} {a : Action}
    (ha : a.MintsOnly setting env) :
    (a.environment env).settings.SameLedger setting env.settings where
  setting_eq := ha.setting_eq
  ledger_eq := (a.environment_ledger env).1
  currency_eq := (a.environment_ledger env).2

end SameLedger

namespace Session.KeptByMints

variable {α : Type} {setting : Settings → α} {ok : Session → Action → Prop}
  {P : Settings → Storage → Prop}

/-- The settings that a run starts from say throughout what the property is about. -/
theorem kept (k : KeptByMints setting ok P) (settings : Settings) :
    Kept ok fun s =>
      s.env.settings.SameLedger setting settings ∧
      s.world.storage.currency.Sound settings.currency ∧ P settings s.world.storage where
  perform depth a s ha h := by
    obtain ⟨hsame, hsound, hP⟩ := h
    have hsame' : (s.perform depth a).2.env.settings.SameLedger setting s.env.settings := by
      rw [perform_env]
      exact (k.mintsOnly s a ha).sameLedger
    rw [← hsame.currency_eq] at hsound
    rw [← k.congr _ _ _ hsame] at hP
    refine ⟨hsame'.trans hsame, ?_, ?_⟩
    · rw [← hsame.currency_eq]
      exact (perform_effect depth a s).currency_sound hsound
    · rw [← k.congr _ _ _ hsame]
      exact k.perform depth s a ha hsound hP
  rollBack start s h₀ h := by
    obtain ⟨hsame, -, -⟩ := h
    exact ⟨⟨(k.rollBack_eq start s).trans hsame.setting_eq, hsame.ledger_eq, hsame.currency_eq⟩,
      h₀.2.1, h₀.2.2⟩

/-- **Every state of a run** has a property that mints keep. -/
theorem of_reachable (k : KeptByMints setting ok P) {s : Session} (hs : Reachable ok s) :
    P s.env.settings s.world.storage := by
  obtain ⟨env, hsame, -, hP⟩ := Kept.reachable (fun env => k.kept env.settings)
    (fun env => ⟨.refl _, Currency.sound_empty _, k.empty _⟩) hs
  exact (k.congr _ _ _ hsame).mpr hP

end Session.KeptByMints

end Mintage
