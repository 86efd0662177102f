import Mintage.Proofs.CallRefinement
import Mintage.Proofs.EventLog
import Mintage.Proofs.NamedAuthority

/-!
# The journal tells how every mint ended

A mint that was begun reports that the request was received, then a text of the authority that
cannot be read, and last how it ended: two records if it was completed, and otherwise one that
names the stage and the error.  A call that is turned away before its mint is begun reports
nothing, and what does not ask for a mint reports at most texts that cannot be read.

    (mint env depth r w).2.journal = w.journal ++ Mint.told env r (mint env depth r w).1
                                                                            (journal_mint)
    what the journal gains by a deed is told by how its mint ended              (reported)

No rollback takes a record back, so the endings of a run can be counted in its journal:

    Passes .all depth steps s past depth' s' →
      s'.world.journal = s.world.journal ++ past.flatMap Deed.gained    (journal_of_passes)
-/

namespace Mintage

/-! ## Definitions -/

namespace JournalEntry

/-- The record as it is read: the name of its level and its message. -/
def line (j : JournalEntry) : String × String := (j.level.name, j.message)

/-- The record is of the level, and its message begins with the text. -/
def opens (level beginning : String) (j : JournalEntry) : Bool :=
  j.line.1 == level && beginning.toList.isPrefixOf j.line.2.toList

end JournalEntry

/-- How many records of the level begin with the text. -/
def World.count (w : World) (level beginning : String) : Nat :=
  w.journal.countP (JournalEntry.opens level beginning)

namespace Authority

/-- The text that the keyring gives out for the authority is no address. -/
structure Unreadable (env : Environment) (text : Bytes) : Prop where
  named : env.settings.fixedAuthority = none
  online : env.keyring.online = true
  held : env.keyring.keys.lookup (Bytes.ofText env.settings.authorityName) = some text
  nobody : env.settings.account? text = none

/-- The lines on looking the authority up: one if the text cannot be read, otherwise none. -/
inductive Warns (env : Environment) : List (String × String) → Prop
  | silent : (∀ text, ¬ Unreadable env text) → Warns env []
  | unreadable {text : Bytes} : Unreadable env text →
      Warns env [("WARN", "identity store returned an unparsable address for " ++
        env.settings.authorityName ++ ": " ++ Bytes.listing text)]

end Authority

namespace Mint

/-- What a line says of a request. -/
def subject (r : MintRequest) : String :=
  " mint of " ++ Bytes.toAscii r.amount.decimal ++ " " ++ Bytes.listing r.denom

/-- The last lines on a request, by what its mint returned. -/
def closingLines (r : MintRequest) : Except MintError MintRecord → List (String × String)
  | .ok _ => [("DEBUG", "MintStage::Emitting" ++ subject r),
      ("DEBUG", "MintStage::Completed" ++ subject r)]
  | .error e => [("WARN", "mint aborted while " ++ e.stage.display ++ ": " ++ e.display)]

/-- The records are all that is told of a request whose mint returned so. -/
def Tells (env : Environment) (r : MintRequest) (result : Except MintError MintRecord)
    (records : List JournalEntry) : Prop :=
  ∃ warnings, Authority.Warns env warnings ∧ records.map JournalEntry.line =
    ("DEBUG", "MintStage::Received" ++ subject r) :: (warnings ++ closingLines r result)

/-- The last records on a request. -/
def closing (r : MintRequest) : Except MintError MintRecord → List JournalEntry
  | .ok _ => [.reached .emitting r.amount r.denom, .reached .completed r.amount r.denom]
  | .error e => [.aborted e]

/-- All records on a request. -/
def told (env : Environment) (r : MintRequest) (result : Except MintError MintRecord) :
    List JournalEntry :=
  opening env r ++ closing r result

end Mint

/-- The mint that a dispatched call begins, and how many layers are open around it. -/
def MintCall.begun? (c : MintCall) (depth : Nat) : Origin → Option (Nat × MintRequest)
  | .signed caller => if maxLayers ≤ depth then none else some (depth + 1, c.request caller)
  | .root | .none => none

/-- How the mint ended that was asked for. -/
inductive Ending
  | completed
  | aborted
  /-- It was not begun. -/
  | unbegun
  deriving DecidableEq

/-- The ending that an answer tells. -/
def Answer.ending? : Answer → Option Ending
  | .mint (.ok _) | .call _ (.ok _) | .rawCall _ _ (.ok _) => some .completed
  | .mint (.error _) | .call _ (.error (.mint _)) | .rawCall _ _ (.error (.mint _)) =>
    some .aborted
  | .unbuilt _ | .undecodable | .call _ (.error (.fault _)) | .rawCall _ _ (.error (.fault _)) =>
    some .unbegun
  | _ => none

namespace Deed

/-- The mint that a deed begins, and how many layers are open around it. -/
def begun? (d : Deed) : Option (Nat × MintRequest) :=
  match d.action with
  | .mint r => some (d.depth, r)
  | .call origin recipient amount denom =>
    match MintCall.build d.found.env.settings recipient amount denom with
    | .error _ => none
    | .ok c => c.begun? d.depth origin
  | .callRaw origin bytes =>
    match MintCall.decode? d.found.env.settings.bounds bytes with
    | none => none
    | some (c, _) => c.begun? d.depth origin
  | _ => none

/-- The request of the mint that a deed begins, and what the mint returns. -/
def returned? (d : Deed) : Option (MintRequest × Except MintError MintRecord) :=
  d.begun?.map fun (depth, r) => (r, (mint d.found.env depth r d.found.world).1)

def ending (d : Deed) : Ending :=
  match d.returned? with
  | some (_, .ok _) => .completed
  | some (_, .error _) => .aborted
  | none => .unbegun

/-- What the journal gains by a deed, as the deed's entry has it. -/
def gained (d : Deed) : List JournalEntry :=
  (d.found.perform d.depth d.action).2.world.journal.drop d.found.world.journal.length

/-- What the journal tells of a deed. -/
structure Reported (d : Deed) : Prop where
  journal_eq : (d.found.perform d.depth d.action).2.world.journal =
    d.found.world.journal ++ d.gained
  /-- A mint that was begun is told from its receipt to its ending. -/
  tells : ∀ r result, d.returned? = some (r, result) →
    Mint.Tells d.found.env r result d.gained
  /-- Of a mint that was asked for and not begun nothing is told. -/
  silent : d.action.AsksMint → d.returned? = none → d.gained = []
  /-- Whatever does not ask for a mint reports texts that cannot be read and nothing else. -/
  warns : ¬ d.action.AsksMint → ∀ j ∈ d.gained, Authority.Warns d.found.env [j.line]
  /-- The ending shows in the answer. -/
  answer_eq : d.action.AsksMint → d.answer.ending? = some d.ending

end Deed

/-! ## Records and their lines -/

namespace JournalEntry

def isCompletion : JournalEntry → Bool
  | reached .completed .. => true
  | _ => false

def isAbortion : JournalEntry → Bool
  | aborted _ => true
  | _ => false

/-- Of all records those of completion begin so, and no others. -/
theorem opens_completed : opens "DEBUG" "MintStage::Completed" = isCompletion := by
  funext j
  cases j with
  | reached stage amount denom =>
    -- The stages differ within the length of the text, whatever follows.
    unfold opens line message Stage.display
    simp only [String.toList_append]
    cases stage <;> rfl
  | unreadableAddress name text => rfl
  | aborted e => rfl

/-- Of all records those of an error begin so, and no others. -/
theorem opens_aborted : opens "WARN" "mint aborted" = isAbortion := by
  funext j
  cases j with
  | reached stage amount denom => rfl
  | unreadableAddress name text =>
    unfold opens line message
    simp only [String.toList_append]
    rfl
  | aborted e =>
    unfold opens line message
    simp only [String.toList_append]
    rfl

end JournalEntry

/-! ## A mint -/

namespace Authority

/-- What looking the authority up reports is a text that cannot be read, or nothing. -/
theorem reports_cases (env : Environment) :
    (reports env = [] ∧ ∀ text, ¬ Unreadable env text) ∨
      ∃ text, Unreadable env text ∧
        reports env = [.unreadableAddress env.settings.authorityName text] := by
  unfold reports Settings.policy
  cases hfixed : env.settings.fixedAuthority with
  | some a =>
    refine Or.inl ⟨rfl, ?_⟩
    intro text h
    rw [h.named] at hfixed
    cases hfixed
  | none =>
    dsimp only
    cases hfind : env.keyring.find (Bytes.ofText env.settings.authorityName) with
    | error f =>
      refine Or.inl ⟨rfl, ?_⟩
      intro text h
      rw [Keyring.find_eq_ok_iff.mpr ⟨h.online, h.held⟩] at hfind
      cases hfind
    | ok text =>
      obtain ⟨honline, hheld⟩ := Keyring.find_eq_ok_iff.mp hfind
      dsimp only
      cases haccount : env.settings.account? text with
      | some a =>
        refine Or.inl ⟨rfl, ?_⟩
        intro text' h
        have htext : text' = text := Option.some.inj (h.held.symm.trans hheld)
        rw [htext] at h
        rw [h.nobody] at haccount
        cases haccount
      | none => exact Or.inr ⟨text, ⟨hfixed, honline, hheld, haccount⟩, rfl⟩

theorem warns_reports (env : Environment) :
    Warns env ((reports env).map JournalEntry.line) := by
  rcases reports_cases env with ⟨hnone, hreadable⟩ | ⟨text, htext, hone⟩
  · rw [hnone]
    exact .silent hreadable
  · rw [hone]
    exact .unreadable htext

/-- Each record on its own is a warning. -/
theorem warns_of_mem_reports {env : Environment} {j : JournalEntry} (h : j ∈ reports env) :
    Warns env [j.line] := by
  rcases reports_cases env with ⟨hnone, -⟩ | ⟨text, htext, hone⟩
  · rw [hnone] at h
    cases h
  · rw [hone] at h
    rw [List.mem_singleton.mp h]
    exact .unreadable htext

end Authority

namespace Mint

variable {env : Environment} {depth : Nat} {r : MintRequest} {w : World}

/-- **The records of one mint.** -/
theorem journal_mint (env : Environment) (depth : Nat) (r : MintRequest) (w : World) :
    (mint env depth r w).2.journal = w.journal ++ told env r (mint env depth r w).1 := by
  rw [mint_run]
  unfold outcome outcomeOn told
  cases review env r with
  | error e => exact List.append_assoc ..
  | ok cleared =>
    dsimp only
    rcases deliver env depth cleared.recipient cleared.coin w.storage with ⟨calls, e | st⟩
    · exact List.append_assoc ..
    · exact List.append_assoc ..

theorem line_reached (r : MintRequest) (stage : Stage) :
    (JournalEntry.reached stage r.amount r.denom).line =
      ("DEBUG", stage.display ++ subject r) := by
  unfold JournalEntry.line JournalEntry.message subject
  simp only [String.append_assoc]
  rfl

theorem map_line_closing (r : MintRequest) (result : Except MintError MintRecord) :
    (closing r result).map JournalEntry.line = closingLines r result := by
  cases result with
  | error e => rfl
  | ok rec =>
    unfold closing closingLines
    rw [List.map_cons, List.map_singleton, line_reached, line_reached]
    rfl

theorem tells_told (env : Environment) (r : MintRequest)
    (result : Except MintError MintRecord) : Tells env r result (told env r result) := by
  refine ⟨_, Authority.warns_reports env, ?_⟩
  unfold told opening
  rw [List.map_append, List.map_cons, line_reached, map_line_closing]
  rfl

end Mint

/-! ## Calls -/

namespace MintCall

variable {c : MintCall} {depth : Nat} {origin : Origin}

/-- A call that begins a mint does what the mint does. -/
theorem dispatch_of_begun {k : Nat} {r : MintRequest} (h : c.begun? depth origin = some (k, r))
    (env : Environment) (w : World) :
    c.dispatch env depth origin w = (answered (mint env k r w).1, (mint env k r w).2) := by
  unfold begun? at h
  split at h
  · next caller =>
    split at h
    · cases h
    · next hopen =>
      cases h
      exact dispatch_signed (Nat.lt_of_not_le hopen) env caller c w
  · cases h
  · cases h

/-- A call that begins no mint is refused and changes nothing. -/
theorem dispatch_of_not_begun (h : c.begun? depth origin = none) (env : Environment)
    (w : World) : ∃ f, c.dispatch env depth origin w = (.error (.fault f), w) := by
  rw [dispatch_run]
  by_cases hfull : maxLayers ≤ depth
  · rw [if_pos hfull]
    exact ⟨.layerLimit, rfl⟩
  · rw [if_neg hfull]
    cases origin with
    | root => exact ⟨.badOrigin, rfl⟩
    | none => exact ⟨.badOrigin, rfl⟩
    | signed caller =>
      unfold begun? at h
      dsimp only at h
      rw [if_neg hfull] at h
      cases h

end MintCall

/-! ## Deeds -/

namespace Deed

variable {d : Deed}

/-- A deed that begins a mint does what the mint does, and its answer tells the ending. -/
theorem perform_of_begun {k : Nat} {r : MintRequest} (h : d.begun? = some (k, r)) :
    ∃ answer : Except MintError MintRecord → Answer,
      d.found.perform d.depth d.action =
        (answer (mint d.found.env k r d.found.world).1,
          { d.found with world := (mint d.found.env k r d.found.world).2 }) ∧
      (∀ rec, (answer (.ok rec)).ending? = some .completed) ∧
      ∀ e, (answer (.error e)).ending? = some .aborted := by
  obtain ⟨depth, s, a⟩ := d
  unfold begun? at h
  cases a with
  | mint r' =>
    cases h
    exact ⟨.mint, rfl, fun _ => rfl, fun _ => rfl⟩
  | call origin recipient amount denom =>
    dsimp only at h ⊢
    cases hb : MintCall.build s.env.settings recipient amount denom with
    | error part =>
      rw [hb] at h
      cases h
    | ok c =>
      rw [hb] at h
      rw [Session.perform_call, hb]
      dsimp only
      rw [Session.dispatch_eq, MintCall.dispatch_of_begun h]
      exact ⟨fun result => .call c.encode (MintCall.answered result), rfl, fun _ => rfl,
        fun _ => rfl⟩
  | callRaw origin bytes =>
    dsimp only at h ⊢
    cases hd : MintCall.decode? s.env.settings.bounds bytes with
    | none =>
      rw [hd] at h
      cases h
    | some cr =>
      obtain ⟨c, rest⟩ := cr
      rw [hd] at h
      rw [Session.perform_callRaw, hd]
      dsimp only
      rw [Session.dispatch_eq, MintCall.dispatch_of_begun h]
      exact ⟨fun result => .rawCall c rest.length (MintCall.answered result), rfl, fun _ => rfl,
        fun _ => rfl⟩
  | _ => cases h

/-- What asks for a mint and begins none changes nothing, and its answer tells that. -/
theorem perform_of_not_begun (ha : d.action.AsksMint) (h : d.begun? = none) :
    ∃ answer, d.found.perform d.depth d.action = (answer, d.found) ∧
      answer.ending? = some .unbegun := by
  obtain ⟨depth, s, a⟩ := d
  unfold begun? at h
  cases a with
  | mint r => cases h
  | call origin recipient amount denom =>
    dsimp only at h ⊢
    rw [Session.perform_call]
    cases hb : MintCall.build s.env.settings recipient amount denom with
    | error part => exact ⟨_, rfl, rfl⟩
    | ok c =>
      rw [hb] at h
      obtain ⟨f, hf⟩ := MintCall.dispatch_of_not_begun h s.env s.world
      dsimp only
      rw [Session.dispatch_eq, hf]
      exact ⟨_, rfl, rfl⟩
  | callRaw origin bytes =>
    dsimp only at h ⊢
    rw [Session.perform_callRaw]
    cases hd : MintCall.decode? s.env.settings.bounds bytes with
    | none => exact ⟨_, rfl, rfl⟩
    | some cr =>
      obtain ⟨c, rest⟩ := cr
      rw [hd] at h
      obtain ⟨f, hf⟩ := MintCall.dispatch_of_not_begun h s.env s.world
      dsimp only
      rw [Session.dispatch_eq, hf]
      exact ⟨_, rfl, rfl⟩
  | _ => exact absurd ha id

theorem begun?_eq_none_of_not_asksMint (ha : ¬ d.action.AsksMint) : d.begun? = none := by
  obtain ⟨depth, s, a⟩ := d
  cases a with
  | mint r => exact absurd trivial ha
  | call origin recipient amount denom => exact absurd trivial ha
  | callRaw origin bytes => exact absurd trivial ha
  | _ => rfl

/-- A ledger operation on its own reports nothing. -/
theorem journal_of_settle {op : Transaction Fault Unit} {calls : List LedgerCall}
    {result : Except Fault Storage} {w : World} (h : op w = w.settle calls result) :
    (op w).2.journal = w.journal ++ [] := by
  rw [h, List.append_nil]
  cases result with
  | error f => rfl
  | ok st => rfl

/-- Whatever does not ask for a mint reports what looking the authority up reports, some times
over. -/
theorem exists_gain_of_not_asksMint (ha : ¬ d.action.AsksMint) :
    ∃ records, (d.found.perform d.depth d.action).2.world.journal =
      d.found.world.journal ++ records ∧ ∀ j ∈ records, j ∈ Authority.reports d.found.env := by
  obtain ⟨depth, s, a⟩ := d
  dsimp only at ha ⊢
  have hnone : ∀ j ∈ ([] : List JournalEntry), j ∈ Authority.reports s.env := by
    intro j hj
    cases hj
  cases a with
  | mint r => exact absurd trivial ha
  | call origin recipient amount denom => exact absurd trivial ha
  | callRaw origin bytes => exact absurd trivial ha
  | resolve =>
    refine ⟨Authority.reports s.env, ?_, fun _ hj => hj⟩
    show (Authority.resolve s.env s.world).2.journal = _
    rw [Authority.resolve_run]
    rfl
  | authorize caller =>
    refine ⟨Authority.reports s.env ++ Authority.reports s.env, ?_, ?_⟩
    · show (Session.authorization s.env caller s.world).2.journal = _
      rw [Session.authorization_run]
      exact List.append_assoc ..
    · intro j hj
      exact (List.mem_append.mp hj).elim id id
  | mintCoins target coins =>
    exact ⟨[], journal_of_settle (Ledger.mintCoins_run ..), hnone⟩
  | sendCoins sender receiver coins =>
    exact ⟨[], journal_of_settle (Ledger.sendCoins_run ..), hnone⟩
  | mintNative target coins =>
    exact ⟨[], journal_of_settle (Ledger.mintNative_run ..), hnone⟩
  | sendNative sender receiver coins =>
    exact ⟨[], journal_of_settle (Ledger.sendNative_run ..), hnone⟩
  | tryState =>
    rw [Session.perform_tryState, Health.tryState_run]
    split
    · exact ⟨Authority.reports s.env, rfl, fun _ hj => hj⟩
    · exact ⟨[], (List.append_nil _).symm, hnone⟩
  | integrity =>
    rw [Session.perform_integrity]
    split
    · exact ⟨[], (List.append_nil _).symm, hnone⟩
    · exact ⟨[], (List.append_nil _).symm, hnone⟩
  | _ => exact ⟨[], (List.append_nil _).symm, hnone⟩

theorem gained_of_append {records : List JournalEntry}
    (h : (d.found.perform d.depth d.action).2.world.journal = d.found.world.journal ++ records) :
    d.gained = records := by
  unfold gained
  rw [h]
  exact List.drop_left

theorem returned?_eq_none_iff : d.returned? = none ↔ d.begun? = none := Option.map_eq_none_iff

/-- A mint that was begun is told from its receipt to its ending. -/
theorem journal_of_returned {r : MintRequest} {result : Except MintError MintRecord}
    (h : d.returned? = some (r, result)) :
    (d.found.perform d.depth d.action).2.world.journal =
      d.found.world.journal ++ Mint.told d.found.env r result := by
  obtain ⟨⟨k, r'⟩, hbegun, heq⟩ := Option.map_eq_some_iff.mp h
  obtain ⟨answer, hperform, -, -⟩ := perform_of_begun hbegun
  cases heq
  rw [hperform]
  exact Mint.journal_mint d.found.env k r d.found.world

theorem gained_of_returned {r : MintRequest} {result : Except MintError MintRecord}
    (h : d.returned? = some (r, result)) : d.gained = Mint.told d.found.env r result :=
  gained_of_append (journal_of_returned h)

theorem journal_of_not_begun (ha : d.action.AsksMint) (h : d.returned? = none) :
    (d.found.perform d.depth d.action).2.world.journal = d.found.world.journal ++ [] := by
  obtain ⟨answer, hperform, -⟩ := perform_of_not_begun ha (returned?_eq_none_iff.mp h)
  rw [hperform, List.append_nil]

/-- Without a mint that was begun, only warnings are gained. -/
theorem mem_reports_of_not_begun (h : d.returned? = none) :
    ∀ j ∈ d.gained, j ∈ Authority.reports d.found.env := by
  by_cases ha : d.action.AsksMint
  · rw [gained_of_append (journal_of_not_begun ha h)]
    intro j hj
    cases hj
  · obtain ⟨records, hjournal, hmem⟩ := exists_gain_of_not_asksMint ha
    rw [gained_of_append hjournal]
    exact hmem

/-- The journal only grows. -/
theorem journal_perform (d : Deed) :
    (d.found.perform d.depth d.action).2.world.journal = d.found.world.journal ++ d.gained := by
  have hgrows : ∃ records, (d.found.perform d.depth d.action).2.world.journal =
      d.found.world.journal ++ records := by
    by_cases ha : d.action.AsksMint
    · rcases hr : d.returned? with _ | ⟨r, result⟩
      · exact ⟨[], journal_of_not_begun ha hr⟩
      · exact ⟨_, journal_of_returned hr⟩
    · obtain ⟨records, hjournal, -⟩ := exists_gain_of_not_asksMint ha
      exact ⟨records, hjournal⟩
  obtain ⟨records, hjournal⟩ := hgrows
  rw [hjournal, gained_of_append hjournal]

/-- What asks for a mint is answered with its ending. -/
theorem ending?_answer (ha : d.action.AsksMint) : d.answer.ending? = some d.ending := by
  unfold answer ending returned?
  cases hb : d.begun? with
  | none =>
    obtain ⟨answer, hperform, hending⟩ := perform_of_not_begun ha hb
    rw [hperform]
    exact hending
  | some kr =>
    obtain ⟨k, r⟩ := kr
    obtain ⟨answer, hperform, hok, herr⟩ := perform_of_begun hb
    rw [hperform]
    dsimp only [Option.map_some]
    cases (mint d.found.env k r d.found.world).1 with
    | ok rec => exact hok rec
    | error e => exact herr e

theorem ending_of_answer {depth : Nat} {s : Session} {a : Action} {answer : Answer} {e : Ending}
    (ha : a.AsksMint) (h : (s.perform depth a).1 = answer) (he : answer.ending? = some e) :
    ending ⟨depth, s, a⟩ = e := by
  have hanswer := ending?_answer (d := ⟨depth, s, a⟩) ha
  unfold Deed.answer at hanswer
  rw [h, he] at hanswer
  exact (Option.some.inj hanswer).symm

/-- A call that nobody signed begins no mint, whatever it asks for. -/
theorem ending_call_root (depth : Nat) (s : Session) (recipient : Bytes) (amount : Amount)
    (denom : Bytes) : ending ⟨depth, s, .call .root recipient amount denom⟩ = .unbegun := by
  have hbegun : begun? ⟨depth, s, .call .root recipient amount denom⟩ = none := by
    unfold begun?
    dsimp only
    split
    · rfl
    · rfl
  unfold ending
  rw [returned?_eq_none_iff.mpr hbegun]

/-- **One deed's part of the journal.** -/
theorem reported (d : Deed) : d.Reported where
  journal_eq := d.journal_perform
  tells r result h := by
    rw [gained_of_returned h]
    exact Mint.tells_told d.found.env r result
  silent ha h := gained_of_append (journal_of_not_begun ha h)
  warns ha j hj := by
    have hnone := returned?_eq_none_iff.mpr (begun?_eq_none_of_not_asksMint ha)
    exact Authority.warns_of_mem_reports (mem_reports_of_not_begun hnone j hj)
  answer_eq := ending?_answer

/-! ## Counting -/

/-- Records of one kind, found among the last ones of a mint alone, are counted there. -/
theorem countP_gained {p : JournalEntry → Bool}
    (hreceived : ∀ amount denom, p (.reached .received amount denom) = false)
    (hunreadable : ∀ name text, p (.unreadableAddress name text) = false) (d : Deed) :
    d.gained.countP p =
      match d.returned? with
      | some (r, result) => (Mint.closing r result).countP p
      | none => 0 := by
  have hreports : ∀ j ∈ Authority.reports d.found.env, ¬ p j = true := by
    intro j hj
    rcases Authority.reports_cases d.found.env with ⟨hnone, -⟩ | ⟨text, -, hone⟩
    · rw [hnone] at hj
      cases hj
    · rw [hone] at hj
      rw [List.mem_singleton.mp hj, hunreadable]
      exact Bool.false_ne_true
  rcases hr : d.returned? with _ | ⟨r, result⟩
  · apply List.countP_eq_zero.mpr
    intro j hj
    exact hreports j (mem_reports_of_not_begun hr j hj)
  · rw [gained_of_returned hr]
    unfold Mint.told Mint.opening
    rw [List.countP_append, List.countP_cons, hreceived, List.countP_eq_zero.mpr hreports]
    exact Nat.zero_add _

/-- A deed adds a record of completion exactly if it began a mint that was completed. -/
theorem countP_completed (d : Deed) :
    d.gained.countP (JournalEntry.opens "DEBUG" "MintStage::Completed") =
      if d.ending = .completed then 1 else 0 := by
  rw [JournalEntry.opens_completed, countP_gained (fun _ _ => rfl) (fun _ _ => rfl)]
  unfold ending
  rcases d.returned? with _ | ⟨r, e | rec⟩
  · rfl
  · rfl
  · rfl

/-- A deed adds a record of abortion exactly if it began a mint that failed. -/
theorem countP_aborted (d : Deed) :
    d.gained.countP (JournalEntry.opens "WARN" "mint aborted") =
      if d.ending = .aborted then 1 else 0 := by
  rw [JournalEntry.opens_aborted, countP_gained (fun _ _ => rfl) (fun _ _ => rfl)]
  unfold ending
  rcases d.returned? with _ | ⟨r, e | rec⟩
  · rfl
  · rfl
  · rfl

end Deed

/-! ## Runs -/

namespace Session

/-- No end of a layer takes a record back, so the journal has what all deeds added, in order. -/
theorem traced_journal :
    Traced (fun _ _ => True) .all fun s p s' =>
      s'.world.journal = s.world.journal ++ p.flatMap Deed.gained where
  refl s := by rw [List.flatMap_nil, List.append_nil]
  trans s p s' q s'' hp hq := by
    rw [hq, hp, List.flatMap_append, List.append_assoc]
  act depth a s _ := by
    rw [List.flatMap_singleton]
    exact Deed.journal_perform ⟨depth, s, a⟩
  close count commit s p s' h := by
    rw [closeLayers_eq]
    split
    · exact h
    · exact h

variable {depth depth' : Nat} {steps : List Step} {past : List Deed} {s s' : Session}

theorem journal_of_passes (hp : Step.Passes .all depth steps s past depth' s') :
    s'.world.journal = s.world.journal ++ past.flatMap Deed.gained :=
  traced_journal.passes hp (Step.allMeet_of_forall (fun _ _ => trivial) _ _ _)

/-- Records of which each deed of one ending adds one, and any other none, count these deeds. -/
theorem count_of_passes {level beginning : String} {e : Ending}
    (h : ∀ d : Deed, d.gained.countP (JournalEntry.opens level beginning) =
      if d.ending = e then 1 else 0)
    (hp : Step.Passes .all depth steps s past depth' s') :
    s'.world.count level beginning =
      s.world.count level beginning + past.countP fun d => d.ending = e := by
  unfold World.count
  rw [journal_of_passes hp, List.countP_append, Nat.add_left_cancel_iff]
  clear hp
  induction past with
  | nil => rfl
  | cons d past ih =>
    rw [List.flatMap_cons, List.countP_append, ih, h, List.countP_cons, Nat.add_comm]
    simp only [decide_eq_true_eq]

/-! ## Top theorem -/

/-- **Every outcome is told once.**  On either ledger the records of a mint are, in order, that
of its receipt, a warning if and only if the text of the authority cannot be read, and those of
its ending.  What asks for a mint that is not begun records nothing, and its answer says so.
Over a run, whatever was rolled back, there is one record of completion for every mint that
returned its record and one of abortion for every mint that returned an error. -/
theorem journal_tells_outcomes :
    (∀ env depth r w, ∃ records,
      (mint env depth r w).2.journal = w.journal ++ records ∧
      Mint.Tells env r (mint env depth r w).1 records) ∧
    (∀ d : Deed, d.Reported) ∧
    ∀ depth steps s past depth' s', Step.Passes .all depth steps s past depth' s' →
      s'.world.journal = s.world.journal ++ past.flatMap Deed.gained ∧
      s'.world.count "DEBUG" "MintStage::Completed" =
        s.world.count "DEBUG" "MintStage::Completed" +
          past.countP (fun d => d.ending = .completed) ∧
      s'.world.count "WARN" "mint aborted" =
        s.world.count "WARN" "mint aborted" + past.countP (fun d => d.ending = .aborted) := by
  refine ⟨?_, Deed.reported, ?_⟩
  · intro env depth r w
    exact ⟨_, Mint.journal_mint env depth r w, Mint.tells_told env r _⟩
  · intro depth steps s past depth' s' hp
    exact ⟨journal_of_passes hp, count_of_passes Deed.countP_completed hp,
      count_of_passes Deed.countP_aborted hp⟩

end Session

/-! ## Three outcomes on the development network -/

namespace Devnet

/-- The call that makes the request. -/
def requestCall (origin : Origin) : Action :=
  .call origin request.recipient request.amount request.denom

/-- The request is carried out in a layer that is given up; then the book refuses transfers, and
the request is made again by a call, signed and unsigned. -/
def outcomes : List Step :=
  [ firstAttempt,
    .act (.refuseTransfers true),
    .layer 2 true [.act (requestCall (.signed minter))],
    .act (requestCall .root) ]

/-- The development network after the first attempt, its book refusing transfers. -/
def refusingAfter : Session :=
  ((Step.run 0 firstAttempt initial).2.perform 0 (.refuseTransfers true)).2

theorem alike_refusingAfter : refusingAfter.Alike refusing := by
  obtain ⟨-, hstorage⟩ := alike_firstAttempt.perform 0 (.refuseTransfers true)
  exact hstorage

theorem ending_request : Deed.ending ⟨1, initial, .mint request⟩ = .completed := by
  have hr : Mint.review initial.env request = .ok _ := review_request ⟨false, false⟩
  obtain ⟨st, hd⟩ : ∃ st, Mint.deliver initial.env 1 (.filled 2)
      ⟨request.denom, request.amount⟩ initial.world.storage = ([.mint, .send], .ok st) := ⟨_, rfl⟩
  have hmint : (mint initial.env 1 request initial.world).1 =
      .ok (Mint.record request (settings.addressOf minter)) := by
    rw [Mint.answer_of_deliver hr hd]
    rfl
  have hanswer := congrArg Prod.fst (Session.perform_mint 1 request initial)
  rw [hmint] at hanswer
  exact Deed.ending_of_answer trivial hanswer rfl

/-- The call begins its mint, which fails once the coins were issued. -/
theorem ending_signed :
    Deed.ending ⟨2, refusingAfter, requestCall (.signed minter)⟩ = .aborted := by
  have hr : Mint.review refusing.env request = .ok _ := review_request ⟨false, true⟩
  have hd : Mint.deliver refusing.env 3 (.filled 2) ⟨request.denom, request.amount⟩
      refusing.world.storage =
      ([.mint, .send], .error (.transferFailed (.filled 2) .transfersDisabled)) := rfl
  have hmint : (mint refusing.env 3 request refusing.world).1 =
      .error (.transferFailed (.filled 2) .transfersDisabled) := by
    rw [Mint.answer_of_deliver hr hd]
    rfl
  have hfits : request.recipient.length ≤ refusing.env.settings.bounds.address :=
    of_decide_eq_true fits_request.2
  have hcall : (refusing.perform 2 (requestCall (.signed minter))).1 =
      .call (MintCall.encode ⟨request.recipient, request.amount, request.denom⟩)
        (MintCall.answered (mint refusing.env 3 request refusing.world).1) := by
    rw [requestCall, Session.perform_call_of_fits hfits (by decide), Session.dispatch_eq,
      dispatch_signed (by decide)]
    rfl
  rw [hmint] at hcall
  exact Deed.ending_of_answer trivial ((alike_refusingAfter.perform 2 _).1.trans hcall) rfl

end Devnet

namespace Session

/-- One completion, rolled back as it was, one abortion, and nothing of the call that nobody
signed. -/
theorem outcomes_told :
    (Step.runAll 0 Devnet.outcomes Devnet.initial).2.world.count
        "DEBUG" "MintStage::Completed" = 1 ∧
      (Step.runAll 0 Devnet.outcomes Devnet.initial).2.world.count "WARN" "mint aborted" = 1 := by
  obtain ⟨-, -, hrun⟩ := journal_tells_outcomes
  obtain ⟨-, hcompleted, haborted⟩ :=
    hrun _ _ _ _ _ _ (Step.passes_runAll .all 0 Devnet.outcomes Devnet.initial)
  obtain ⟨s, s', hpast⟩ : ∃ s s', Step.allDeeds .all 0 Devnet.outcomes Devnet.initial =
      [⟨1, Devnet.initial, .mint Devnet.request⟩, ⟨0, s, .refuseTransfers true⟩,
        ⟨2, Devnet.refusingAfter, Devnet.requestCall (.signed Devnet.minter)⟩,
        ⟨0, s', Devnet.requestCall .root⟩] := ⟨_, _, rfl⟩
  have hswitch : Deed.ending ⟨0, s, .refuseTransfers true⟩ = .unbegun := rfl
  have hroot : Deed.ending ⟨0, s', Devnet.requestCall .root⟩ = .unbegun :=
    Deed.ending_call_root ..
  have hempty : ∀ level beginning, Devnet.initial.world.count level beginning = 0 :=
    fun _ _ => rfl
  rw [hcompleted, haborted, hpast, hempty, hempty]
  simp only [List.countP_cons, List.countP_nil, Devnet.ending_request, hswitch,
    Devnet.ending_signed, hroot]
  exact ⟨rfl, rfl⟩

end Session

end Mintage
