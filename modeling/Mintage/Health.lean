import Mintage.Authority

/-!
# Checks of the bounds

The text of the holding account stands for the texts of all accounts: where it
fits the bound on addresses, the module can run.

    tryState env w = the bound, then the authority's text if there is an authority (tryState_run)
-/

namespace Mintage.Health

/-- The text of the holding account fits the bound on addresses. -/
def boundFits (s : Settings) : Bool := s.fitsAddress (s.addressOf s.holding)

/-- Checks the bound when the module is put together. -/
def integrity (s : Settings) : Except Fault Unit :=
  if boundFits s then .ok () else .error .addressBoundTooSmall

/-- Checks the bound against the holding account, then against the authority, if
there is one. -/
def tryState (env : Environment) : Transaction Fault Unit := do
  if !boundFits env.settings then throw .addressBoundTooSmall
  let authority? ← tryCatch (some <$> Authority.resolve env) fun _ => pure none
  match authority? with
  | none => pure ()
  | some a =>
    if env.settings.fitsAddress (env.settings.addressOf a) then pure ()
    else throw .authorityTextTooLong

/-- The check in full: it answers, and reports what looking the authority up reports. -/
theorem tryState_run (env : Environment) (w : World) :
    tryState env w =
      if boundFits env.settings then
        ((match Authority.current env with
          | .error _ => .ok ()
          | .ok a =>
            if env.settings.fitsAddress (env.settings.addressOf a) then .ok ()
            else .error .authorityTextTooLong), w.tell (Authority.reports env))
      else (.error .addressBoundTooSmall, w) := by
  have hask : (tryCatch (some <$> Authority.resolve env) fun _ => pure none :
      Transaction Fault (Option Account)) w =
      (.ok (match Authority.current env with | .error _ => none | .ok a => some a),
        w.tell (Authority.reports env)) := by
    rw [Transaction.tryCatch_run, map_eq_pure_bind, Transaction.bind_run, Authority.resolve_run]
    cases Authority.current env with
    | error f => rfl
    | ok a => rfl
  unfold tryState
  by_cases hb : boundFits env.settings = true
  · simp only [hb, Bool.not_true, Bool.false_eq_true, if_false, if_true]
    rw [Transaction.bind_run, hask]
    cases Authority.current env with
    | error f => rfl
    | ok a =>
      dsimp only
      split
      · rfl
      · rfl
  · simp only [hb, Bool.not_false, if_true]
    rfl

end Mintage.Health
