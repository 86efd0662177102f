import Mintage.Proofs.Blindness

/-!
# What failed can be left out

A program with some of its steps marked for deletion (`Marked`) can be run whole, or without
these steps and all that is inside them.  If each of them failed in the whole run, an action by
itself and a layer by being given up or not opened, then the steps that remain answer alike in
both runs and the sessions end alike: the balances, the supplies and the stored events are the
same.  The proof goes through both runs in step.  A deleted step leaves the whole run where it
was; a step that remains is taken by both.

    m.deleted = true → the whole run is alike before and after `m`       (run_alike_of_deleted)
    m.deleted = false → `m` leaves one entry in both runs                (run_rest)
    a program whose deletions are justified                        (failed_work_is_invisible)
-/

namespace Mintage

/-! ## Definitions -/

/-- A step of which it is marked whether it is deleted, as are the steps inside it. -/
inductive Marked
  | act (deleted : Bool) (action : Action)
  | layer (deleted : Bool) (count : Nat) (commit : Bool) (steps : List Marked)

namespace Marked

def deleted : Marked → Bool
  | act deleted _ => deleted
  | layer deleted _ _ _ => deleted

mutual

/-- The step with everything inside it. -/
def whole : Marked → Step
  | act _ a => .act a
  | layer _ count commit steps => .layer count commit (wholeAll steps)

/-- The program, whatever is marked. -/
def wholeAll : List Marked → List Step
  | [] => []
  | m :: ms => m.whole :: wholeAll ms

end

mutual

/-- The step without what is deleted inside it. -/
def rest : Marked → Step
  | act _ a => .act a
  | layer _ count commit steps => .layer count commit (restAll steps)

/-- The program without what is deleted. -/
def restAll : List Marked → List Step
  | [] => []
  | m :: ms => if m.deleted then restAll ms else m.rest :: restAll ms

end

mutual

/-- The entry of a step without the entries of what is deleted inside it. -/
def restEntry : Marked → Entry → Entry
  | act _ _, e => e
  | layer _ _ _ steps, .mk answer inner? view journal? =>
    .mk answer (inner?.map fun inner => restEntries steps inner) view journal?

/-- Of the entries of the whole program, those of the steps that remain. -/
def restEntries : List Marked → List Entry → List Entry
  | [], _ => []
  | _ :: _, [] => []
  | m :: ms, e :: es =>
    if m.deleted then restEntries ms es else m.restEntry e :: restEntries ms es

end

mutual

/-- What is deleted, here or inside, failed in the whole run; a layer did if it was given up or
not opened. -/
def Justified (depth : Nat) : Marked → Session → Prop
  | act deleted a, s => deleted = true → (s.perform depth a).1.Failed
  | layer deleted count commit steps, s =>
    if deleted then
      0 < count ∧ (Step.run depth (.layer count commit (wholeAll steps)) s).1.answer.Failed ∧
        Step.AllMeet (fun _ a => a.LeavesEnvironment) (depth + count) (wholeAll steps) s
    else depth + count ≤ maxLayers → AllJustified (depth + count) steps s

/-- What is deleted of a program failed in the whole run from `s`. -/
def AllJustified (depth : Nat) : List Marked → Session → Prop
  | [], _ => True
  | m :: ms, s => m.Justified depth s ∧ AllJustified depth ms (Step.run depth m.whole s).2

end

end Marked

mutual

/-- The entry without the calls noted and the journal. -/
def Entry.quiet : Entry → Entry
  | .mk answer inner? view _ => .mk answer (quietInner inner?) { view with calls := [] } none

def Entry.quietInner : Option (List Entry) → Option (List Entry)
  | none => none
  | some inner => some (quietAll inner)

/-- The entries without the calls noted and the journal. -/
def Entry.quietAll : List Entry → List Entry
  | [] => []
  | e :: es => e.quiet :: quietAll es

end

/-! ## Entries -/

/-- Entries of alike sessions differ in the calls and the journal only. -/
theorem Entry.quiet_ofAnswer {s s' t t' : Session} (h : s'.Alike t') (answer : Answer) :
    (Entry.ofAnswer answer s s').quiet = (Entry.ofAnswer answer t t').quiet := by
  unfold ofAnswer
  rw [quiet, quiet, h.view_eq]

theorem Entry.quiet_ofLayer {s t : Session} (h : s.Alike t) (result : Except Fault Unit)
    {inner inner' : List Entry} (hi : quietAll inner = quietAll inner') :
    (Entry.ofLayer result inner s).quiet = (Entry.ofLayer result inner' t).quiet := by
  unfold ofLayer
  rw [quiet, quiet, quietInner, quietInner, hi, h.view_eq]

namespace Marked

theorem restEntry_ofLayer (deleted : Bool) (count : Nat) (commit : Bool) (steps : List Marked)
    (result : Except Fault Unit) (inner : List Entry) (s : Session) :
    (layer deleted count commit steps).restEntry (.ofLayer result inner s) =
      .ofLayer result (restEntries steps inner) s := by
  unfold Entry.ofLayer
  rw [restEntry, Option.map_some]

theorem restEntries_nil (ms : List Marked) : restEntries ms [] = [] := by
  cases ms with
  | nil => rw [restEntries]
  | cons m ms => rw [restEntries]

/-! ## Two runs in step -/

/-- A deleted step leaves the whole run where it was. -/
theorem run_alike_of_deleted {depth : Nat} {m : Marked} {s : Session} (hd : m.deleted = true)
    (hj : m.Justified depth s) : (Step.run depth m.whole s).2.Alike s := by
  cases m with
  | act deleted a =>
    rw [Justified] at hj
    rw [whole, Step.run_act]
    exact Session.perform_alike_of_failed (hj hd)
  | layer deleted count commit steps =>
    obtain rfl : deleted = true := hd
    rw [Justified, if_pos rfl] at hj
    obtain ⟨hc, hf, hm⟩ := hj
    rw [whole]
    exact Step.run_alike_of_failed hc hm hf

mutual

/-- A step that remains leaves the same entry in both runs, and keeps them alike. -/
theorem run_rest (depth : Nat) (m : Marked) {s t : Session} (hd : m.deleted = false)
    (hj : m.Justified depth s) (h : s.Alike t) :
    (m.restEntry (Step.run depth m.whole s).1).quiet = (Step.run depth m.rest t).1.quiet ∧
      (Step.run depth m.whole s).2.Alike (Step.run depth m.rest t).2 := by
  cases m with
  | act deleted a =>
    obtain ⟨hanswer, halike⟩ := h.perform depth a
    rw [whole, rest, Step.run, Step.run, restEntry]
    dsimp only
    rw [hanswer]
    exact ⟨Entry.quiet_ofAnswer halike _, halike⟩
  | layer deleted count commit steps =>
    obtain rfl : deleted = false := hd
    rw [Justified, if_neg Bool.false_ne_true] at hj
    rw [whole, rest, Step.run_layer, Step.run_layer]
    by_cases hopen : maxLayers < depth + count
    · rw [if_pos hopen, if_pos hopen, restEntry_ofLayer, restEntries_nil]
      exact ⟨Entry.quiet_ofLayer h _ rfl, h⟩
    · rw [if_neg hopen, if_neg hopen]
      obtain ⟨hinner, halike⟩ := runAll_rest (depth + count) steps (hj (by omega)) h
      obtain ⟨hresult, hclosed⟩ := h.closeLayers halike count commit
      dsimp only
      rw [restEntry_ofLayer, hresult]
      exact ⟨Entry.quiet_ofLayer hclosed _ hinner, hclosed⟩

theorem runAll_rest (depth : Nat) (ms : List Marked) {s t : Session}
    (hj : AllJustified depth ms s) (h : s.Alike t) :
    Entry.quietAll (restEntries ms (Step.runAll depth (wholeAll ms) s).1) =
        Entry.quietAll (Step.runAll depth (restAll ms) t).1 ∧
      (Step.runAll depth (wholeAll ms) s).2.Alike (Step.runAll depth (restAll ms) t).2 := by
  cases ms with
  | nil =>
    rw [wholeAll, restAll, Step.runAll, Step.runAll, restEntries_nil]
    exact ⟨rfl, h⟩
  | cons m ms =>
    rw [AllJustified] at hj
    obtain ⟨hm, hms⟩ := hj
    rw [wholeAll, restAll, Step.runAll]
    dsimp only
    rw [restEntries]
    cases hd : m.deleted with
    | true =>
      rw [if_pos rfl, if_pos rfl]
      exact runAll_rest depth ms hms ((run_alike_of_deleted hd hm).trans h)
    | false =>
      rw [if_neg Bool.false_ne_true, if_neg Bool.false_ne_true, Step.runAll]
      obtain ⟨hentry, halike⟩ := run_rest depth m hd hm h
      obtain ⟨hentries, hend⟩ := runAll_rest depth ms hms halike
      dsimp only
      rw [Entry.quietAll, Entry.quietAll, hentry, hentries]
      exact ⟨rfl, hend⟩

end

end Marked

/-! ## A program with three deletions -/

namespace Devnet

/-- So many `fei`. -/
def fei (n : Amount) : List Coin := [⟨request.denom, n⟩]

/-- A mint that is refused its transfer. -/
def refused : Marked := .act true (.mint request)

/-- Two layers that are given up. -/
def givenUp : Marked := .layer true 2 false [.act false (.mintCoins minter (fei ⟨9, by decide⟩))]

/-- A layer of which only the second step is to remain. -/
def remaining : Marked :=
  .layer false 1 true
    [ .act true (.sendCoins minter settings.holding (fei ⟨7, by decide⟩)),
      .act false (.mintCoins minter (fei ⟨8, by decide⟩)) ]

theorem justified_refused : refused.Justified 0 refusing := by
  have hr : Mint.review refusing.env request = .ok _ := review_request ⟨false, true⟩
  have hd : Mint.deliver refusing.env 0 (.filled 2) ⟨request.denom, request.amount⟩
      refusing.world.storage =
      ([.mint, .send], .error (.transferFailed (.filled 2) .transfersDisabled)) := rfl
  rw [refused, Marked.Justified, Session.perform_mint, Mint.answer_of_deliver hr hd]
  intro _
  exact trivial

theorem justified_givenUp (s : Session) : givenUp.Justified 0 s := by
  rw [givenUp, Marked.Justified, if_pos rfl]
  refine ⟨by decide, ?_, ?_⟩
  · rw [Step.run_layer, if_neg (by decide)]
    exact trivial
  · rw [Marked.wholeAll, Marked.whole, Marked.wholeAll, Step.AllMeet, Step.Meets, Step.AllMeet]
    exact ⟨fun e => rfl, trivial⟩

/-- Transfers are refused wherever the sessions are alike. -/
theorem justified_remaining {s : Session} (h : s.Alike refusing) : remaining.Justified 0 s := by
  rw [remaining, Marked.Justified, if_neg Bool.false_ne_true]
  intro _
  rw [Marked.AllJustified, Marked.AllJustified, Marked.AllJustified, Marked.Justified,
    Marked.Justified]
  refine ⟨fun _ => ?_, fun hd => absurd hd Bool.false_ne_true, trivial⟩
  rw [(h.perform _ _).1]
  exact trivial

theorem justified_all : Marked.AllJustified 0 [refused, givenUp, remaining] refusing := by
  rw [Marked.AllJustified, Marked.AllJustified, Marked.AllJustified, Marked.AllJustified]
  have hrefused := Marked.run_alike_of_deleted rfl justified_refused
  have hgivenUp := Marked.run_alike_of_deleted rfl
    (justified_givenUp (Step.run 0 refused.whole refusing).2)
  exact ⟨justified_refused, justified_givenUp _,
    justified_remaining (hgivenUp.trans hrefused), trivial⟩

end Devnet

namespace Session

/-! ## Top theorem -/

/-- **Failed and rolled-back work is invisible.**  Without the actions that failed and the layers
that were given up or not opened, every step that remains leaves the entry it left in the whole
run, up to the calls noted and the journal, and the storage at the end is the same. -/
theorem failed_work_is_invisible {depth : Nat} {program : List Marked} {s : Session}
    (h : Marked.AllJustified depth program s) :
    Entry.quietAll (Marked.restEntries program
        (Step.runAll depth (Marked.wholeAll program) s).1) =
      Entry.quietAll (Step.runAll depth (Marked.restAll program) s).1 ∧
    (Step.runAll depth (Marked.wholeAll program) s).2.world.storage =
      (Step.runAll depth (Marked.restAll program) s).2.world.storage ∧
    (Step.runAll depth (Marked.wholeAll program) s).2.env =
      (Step.runAll depth (Marked.restAll program) s).2.env := by
  obtain ⟨hentries, hend⟩ := Marked.runAll_rest depth program h (.refl s)
  exact ⟨hentries, hend.storage_eq, hend.env_eq⟩

/-- Of the 1000, the 9 and the 8 that were asked for, the 8 of the step that remains are there. -/
theorem invisible_on_refusing :
    Marked.restAll [Devnet.refused, Devnet.givenUp, Devnet.remaining] =
        [.layer 1 true [.act (.mintCoins Devnet.minter (Devnet.fei ⟨8, by decide⟩))]] ∧
      (Step.runAll 0 (Marked.wholeAll [Devnet.refused, Devnet.givenUp, Devnet.remaining])
        Devnet.refusing).2.world.storage.book.supply Devnet.request.denom = 8 := by
  obtain ⟨-, hstorage, -⟩ := failed_work_is_invisible Devnet.justified_all
  refine ⟨rfl, ?_⟩
  rw [hstorage]
  decide +kernel

end Session

end Mintage
