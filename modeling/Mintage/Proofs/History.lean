import Mintage.Proofs.Runs

/-!
# What a run has done by a state that it passes

By then it has carried out actions (`Deed`), one after another, each in a session that it
found.  `Passes` is `Visits` with these deeds.  Of what was done inside a layer that was given
up, a run may keep an account or not (`Recall`): what no rollback undoes is owed to all deeds,
and the storage to those that stand.

    a relation of start, deeds and end that actions and layers respect (`Traced`)
      holds between a run's start, its deeds and every state that it passes    (Traced.passes)
    a run passes its end after all its deeds                                (passes_runAll)
-/

namespace Mintage

/-! ## Deeds -/

/-- An action that was carried out in a session, where so many layers were open. -/
structure Deed where
  depth : Nat
  found : Session
  action : Action

/-- What the action answered. -/
def Deed.answer (d : Deed) : Answer := (d.found.perform d.depth d.action).1

/-- Whether the deeds inside a layer, of so many levels and committed or not, are told. -/
abbrev Recall := Nat → Bool → Bool

/-- Every deed. -/
def Recall.all : Recall := fun _ _ => true

/-- Every deed that no layer around it has undone. -/
def Recall.standing : Recall := fun count commit => commit || count == 0

mutual

/-- What running a step does. -/
def Step.deeds (told : Recall) (depth : Nat) : Step → Session → List Deed
  | .act a, s => [⟨depth, s, a⟩]
  | .layer count commit steps, s =>
    if maxLayers < depth + count then []
    else if told count commit then Step.allDeeds told (depth + count) steps s else []

/-- What running steps in order does. -/
def Step.allDeeds (told : Recall) (depth : Nat) : List Step → Session → List Deed
  | [], _ => []
  | step :: steps, s =>
    Step.deeds told depth step s ++ Step.allDeeds told depth steps (Step.run depth step s).2

end

/-- Running `steps` from `s`, where `depth` layers are open, passes a state where so many
layers are, after the deeds of `past`. -/
inductive Step.Passes (told : Recall) :
    Nat → List Step → Session → List Deed → Nat → Session → Prop
  | here {depth : Nat} {steps : List Step} {s : Session} : Passes told depth steps s [] depth s
  | later {depth depth' : Nat} {step : Step} {steps : List Step} {s s' : Session}
      {past : List Deed} :
      Passes told depth steps (Step.run depth step s).2 past depth' s' →
      Passes told depth (step :: steps) s (Step.deeds told depth step s ++ past) depth' s'
  | inside {depth count depth' : Nat} {commit : Bool} {inner steps : List Step}
      {s s' : Session} {past : List Deed} : depth + count ≤ maxLayers →
      Passes told (depth + count) inner s past depth' s' →
      Passes told depth (.layer count commit inner :: steps) s past depth' s'

/-- Admitted actions and the ends of layers respect the relation of a start, the deeds since
then and the session reached. -/
structure Session.Traced (ok : Session → Action → Prop) (told : Recall)
    (R : Session → List Deed → Session → Prop) : Prop where
  refl : ∀ s, R s [] s
  trans : ∀ s p s' q s'', R s p s' → R s' q s'' → R s (p ++ q) s''
  act : ∀ depth a s, ok s a → R s [⟨depth, s, a⟩] (s.perform depth a).2
  close : ∀ count commit s p s', R s p s' →
    R s (if told count commit then p else []) (closeLayers count commit s s').2

/-! ## Lemmas -/

namespace Session.Traced

variable {ok : Session → Action → Prop} {told : Recall}
  {R : Session → List Deed → Session → Prop}

mutual

theorem run (t : Traced ok told R) (depth : Nat) (step : Step) (s : Session)
    (hm : step.Meets ok depth s) : R s (step.deeds told depth s) (step.run depth s).2 := by
  cases step with
  | act a =>
    rw [Step.deeds, Step.run_act]
    rw [Step.Meets] at hm
    exact t.act depth a s hm
  | layer count commit steps =>
    rw [Step.deeds, Step.run]
    rw [Step.Meets] at hm
    by_cases hd : maxLayers < depth + count
    · rw [if_pos hd, if_pos hd]
      exact t.refl s
    · rw [if_neg hd, if_neg hd]
      exact t.close count commit s _ _ (runAll t (depth + count) steps s (hm (by omega)))

theorem runAll (t : Traced ok told R) (depth : Nat) (steps : List Step) (s : Session)
    (hm : Step.AllMeet ok depth steps s) :
    R s (Step.allDeeds told depth steps s) (Step.runAll depth steps s).2 := by
  cases steps with
  | nil =>
    rw [Step.allDeeds, Step.runAll]
    exact t.refl s
  | cons step steps =>
    rw [Step.AllMeet] at hm
    rw [Step.allDeeds, Step.runAll]
    exact t.trans _ _ _ _ _ (run t depth step s hm.1) (runAll t depth steps _ hm.2)

end

/-- **Every state that a run passes** stands in the relation to its start and its deeds. -/
theorem passes (t : Traced ok told R) {depth depth' : Nat} {steps : List Step}
    {s s' : Session} {past : List Deed} (hp : Step.Passes told depth steps s past depth' s')
    (hm : Step.AllMeet ok depth steps s) : R s past s' := by
  induction hp with
  | here => exact t.refl _
  | later _ ih =>
    rw [Step.AllMeet] at hm
    exact t.trans _ _ _ _ _ (t.run _ _ _ hm.1) (ih hm.2)
  | inside hd _ ih =>
    rw [Step.AllMeet, Step.Meets] at hm
    exact ih (hm.1 hd)

end Session.Traced

/-- A layer is undone exactly if its deeds do not stand. -/
theorem Session.closeLayers_eq (count : Nat) (commit : Bool) (start s : Session) :
    (closeLayers count commit start s).2 =
      if Recall.standing count commit then s else rollBack start s := by
  unfold closeLayers Recall.standing
  cases commit with
  | true => rfl
  | false =>
    by_cases hc : count = 0
    · simp [hc]
    · simp [hc]

/-- A kept property holds wherever a deed was done. -/
theorem Session.Kept.traced {ok : Session → Action → Prop} {I : Session → Prop} (k : Kept ok I)
    (told : Recall) :
    Traced ok told fun s p s' => I s → (∀ d ∈ p, I d.found) ∧ I s' where
  refl s h := ⟨fun _ hd => absurd hd List.not_mem_nil, h⟩
  trans s p s' q s'' hp hq h := by
    obtain ⟨hdeeds, hs'⟩ := hp h
    obtain ⟨hdeeds', hs''⟩ := hq hs'
    refine ⟨fun d hd => ?_, hs''⟩
    rcases List.mem_append.mp hd with hd | hd
    · exact hdeeds d hd
    · exact hdeeds' d hd
  act depth a s ha h := by
    refine ⟨fun d hd => ?_, k.perform depth a s ha h⟩
    rw [List.mem_singleton.mp hd]
    exact h
  close count commit s p s' hp h := by
    obtain ⟨hdeeds, hs'⟩ := hp h
    refine ⟨fun d hd => ?_, k.closeLayers count commit h hs'⟩
    split at hd
    · exact hdeeds d hd
    · cases hd

namespace Step

/-- The end of a run is passed after all its deeds. -/
theorem passes_runAll (told : Recall) (depth : Nat) (steps : List Step) (s : Session) :
    Passes told depth steps s (allDeeds told depth steps s) depth
      (runAll depth steps s).2 := by
  induction steps generalizing s with
  | nil =>
    rw [allDeeds, runAll]
    exact .here
  | cons step steps ih =>
    rw [allDeeds, runAll]
    exact .later (ih _)

end Step

end Mintage
