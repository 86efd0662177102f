import Mintage.Proofs.Actions

/-!
# What holds in every state of a run

A run passes states between its steps and inside its layers (`Visits`).  A condition on
actions restricts a run if every action that is carried out meets it in the state that it
finds (`AllMeet`).  A property that the admitted actions keep, and that the end of a layer
keeps, then holds in all states that the run passes:

    Kept ok I → AllMeet ok depth steps s → I s → Visits depth steps s depth' s' → I s'
                                                                            (Kept.visits)
    (∀ env, Kept ok (I env)) → (∀ env, I env (start env)) → Reachable ok s → ∃ env, I env s
                                                                         (Kept.reachable)
-/

namespace Mintage

/-! ## Runs -/

/-- Running `steps` from `s`, where `depth` layers are open, passes a state where so many
layers are. -/
inductive Step.Visits : Nat → List Step → Session → Nat → Session → Prop
  | here {depth : Nat} {steps : List Step} {s : Session} : Visits depth steps s depth s
  | later {depth depth' : Nat} {step : Step} {steps : List Step} {s s' : Session} :
      Visits depth steps (Step.run depth step s).2 depth' s' →
      Visits depth (step :: steps) s depth' s'
  | inside {depth count depth' : Nat} {commit : Bool} {inner steps : List Step}
      {s s' : Session} : depth + count ≤ maxLayers →
      Visits (depth + count) inner s depth' s' →
      Visits depth (.layer count commit inner :: steps) s depth' s'

mutual

/-- Every action that the step carries out is admitted in the state that it finds. -/
def Step.Meets (ok : Session → Action → Prop) (depth : Nat) : Step → Session → Prop
  | .act a, s => ok s a
  | .layer count _ steps, s =>
    depth + count ≤ maxLayers → Step.AllMeet ok (depth + count) steps s

/-- Every action that the steps carry out is admitted in the state that it finds. -/
def Step.AllMeet (ok : Session → Action → Prop) (depth : Nat) : List Step → Session → Prop
  | [], _ => True
  | step :: steps, s =>
    Step.Meets ok depth step s ∧ Step.AllMeet ok depth steps (Step.run depth step s).2

end

namespace Session

/-- Any environment over an empty world. -/
def start (env : Environment) : Session := ⟨env, .empty⟩

/-- Passed by a run from an empty world all of whose actions are admitted. -/
def Reachable (ok : Session → Action → Prop) (s : Session) : Prop :=
  ∃ env steps depth, Step.AllMeet ok 0 steps (start env) ∧
    Step.Visits 0 steps (start env) depth s

/-- Admitted actions keep the property, and so does undoing a layer: the storage goes back
to that of a state that had the property. -/
structure Kept (ok : Session → Action → Prop) (I : Session → Prop) : Prop where
  perform : ∀ (depth : Nat) (a : Action) (s : Session), ok s a → I s → I (s.perform depth a).2
  rollBack : ∀ start s : Session, I start → I s → I (rollBack start s)

end Session

/-! ## Lemmas -/

theorem Step.run_act (depth : Nat) (a : Action) (s : Session) :
    (Step.run depth (.act a) s).2 = (s.perform depth a).2 := by
  rw [Step.run]

mutual

theorem Step.meets_of_forall {ok : Session → Action → Prop} (h : ∀ s a, ok s a) (depth : Nat)
    (step : Step) (s : Session) : step.Meets ok depth s := by
  cases step with
  | act a =>
    rw [Step.Meets]
    exact h s a
  | layer count commit steps =>
    rw [Step.Meets]
    intro _
    exact allMeet_of_forall h (depth + count) steps s

/-- What holds of every action in every state holds along every run. -/
theorem Step.allMeet_of_forall {ok : Session → Action → Prop} (h : ∀ s a, ok s a) (depth : Nat)
    (steps : List Step) (s : Session) : Step.AllMeet ok depth steps s := by
  cases steps with
  | nil =>
    rw [Step.AllMeet]
    trivial
  | cons step steps =>
    rw [Step.AllMeet]
    exact ⟨meets_of_forall h depth step s, allMeet_of_forall h depth steps _⟩

end

namespace Session.Kept

variable {ok : Session → Action → Prop} {I : Session → Prop}

theorem closeLayers (k : Kept ok I) (count : Nat) (commit : Bool) {start s : Session}
    (h₀ : I start) (h : I s) : I (Session.closeLayers count commit start s).2 := by
  unfold Session.closeLayers
  cases commit with
  | true => exact h
  | false =>
    by_cases hc : count = 0
    · simpa [hc] using h
    · simpa [hc] using k.rollBack start s h₀ h

mutual

theorem run (k : Kept ok I) (depth : Nat) (step : Step) (s : Session)
    (hm : step.Meets ok depth s) (h : I s) : I (step.run depth s).2 := by
  cases step with
  | act a =>
    rw [Step.run_act]
    rw [Step.Meets] at hm
    exact k.perform depth a s hm h
  | layer count commit steps =>
    rw [Step.run]
    rw [Step.Meets] at hm
    by_cases hd : maxLayers < depth + count
    · rw [if_pos hd]
      exact h
    · rw [if_neg hd]
      exact k.closeLayers count commit h (runAll k (depth + count) steps s (hm (by omega)) h)

theorem runAll (k : Kept ok I) (depth : Nat) (steps : List Step) (s : Session)
    (hm : Step.AllMeet ok depth steps s) (h : I s) : I (Step.runAll depth steps s).2 := by
  cases steps with
  | nil =>
    rw [Step.runAll]
    exact h
  | cons step steps =>
    rw [Step.AllMeet] at hm
    rw [Step.runAll]
    exact runAll k depth steps _ hm.2 (run k depth step s hm.1 h)

end

/-- **Every state of a run** has a property that its actions keep. -/
theorem visits (k : Kept ok I) {depth depth' : Nat} {steps : List Step} {s s' : Session}
    (hv : Step.Visits depth steps s depth' s') (hm : Step.AllMeet ok depth steps s) (h : I s) :
    I s' := by
  induction hv with
  | here => exact h
  | later _ ih =>
    rw [Step.AllMeet] at hm
    exact ih hm.2 (k.run _ _ _ hm.1 h)
  | inside hd _ ih =>
    rw [Step.AllMeet, Step.Meets] at hm
    exact ih (hm.1 hd) h

/-- A kept property may speak of the environment that the run starts from. -/
theorem reachable {I : Environment → Session → Prop} (k : ∀ env, Kept ok (I env))
    (h₀ : ∀ env, I env (start env)) {s : Session} (hs : Reachable ok s) : ∃ env, I env s := by
  obtain ⟨env, steps, depth, hm, hv⟩ := hs
  exact ⟨env, (k env).visits hv hm (h₀ env)⟩

end Session.Kept

end Mintage
