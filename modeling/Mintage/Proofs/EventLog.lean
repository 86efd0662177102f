import Mathlib.Data.List.TakeWhile
import Mintage.Proofs.AddressLanguage
import Mintage.Proofs.Blindness
import Mintage.Proofs.Delivery
import Mintage.Proofs.History
import Mintage.Proofs.RecordBytes

/-!
# The event log

The log grows by one event with every mint that was carried out and by nothing else, and a
layer that is given up takes back what was appended in it.  Each event was within the bounds of
its moment and attests the authority and the recipient of that moment; so it is read back as
long as no bound is lowered below what it was then:

    a deed appends `event?` to the log                                     (events_perform)
    Passes .standing 0 steps (start env) past depth s →
      s.world.storage.events = past.filterMap Deed.event?                  (traced_events)
    what shows of a log is what comes before the first event that is out of bounds
                                                               (visible_eq_takeWhile)
    no bound was lowered → s.view.events = past.filterMap Deed.event?     (log_is_exact)
-/

namespace Mintage

open Scale

/-! ## Definitions -/

namespace Denom

def letters : Bytes := Bytes.ofText "ABCDEFGHIJKLMNOPQRSTUVWXYZabcdefghijklmnopqrstuvwxyz"

def digitsAndMarks : Bytes := Bytes.ofText "-./0123456789:_"

/-- The pattern `[a-zA-Z][a-zA-Z0-9/:._-]{2,127}`. -/
def Matches (denom : Bytes) : Prop :=
  ∃ first rest, denom = first :: rest ∧ first ∈ letters ∧ 2 ≤ rest.length ∧
    rest.length ≤ 127 ∧ ∀ b ∈ rest, b ∈ letters ∨ b ∈ digitsAndMarks

end Denom

namespace Event

/-- The record of the same mint. -/
def record : Event → MintRecord
  | tokensMinted minter recipient amount denom => ⟨minter, recipient, amount, denom⟩

/-- The texts and the name are within the bounds. -/
structure Fits (bounds : Bounds) (e : Event) : Prop where
  minter : e.record.minter.length ≤ bounds.address
  recipient : e.record.recipient.length ≤ bounds.address
  denom : e.record.denom.length ≤ bounds.denom

instance (bounds : Bounds) : DecidablePred (Fits bounds) := fun e =>
  decidable_of_iff (e.record.minter.length ≤ bounds.address ∧
      e.record.recipient.length ≤ bounds.address ∧ e.record.denom.length ≤ bounds.denom)
    ⟨fun h => ⟨h.1, h.2.1, h.2.2⟩, fun h => ⟨h.minter, h.recipient, h.denom⟩⟩

end Event

/-- Neither bound is above the other's. -/
instance : LE Bounds where
  le b b' := b.address ≤ b'.address ∧ b.denom ≤ b'.denom

/-- Lowers no bound. -/
def Action.Widens (env : Environment) (a : Action) : Prop :=
  env.settings.bounds ≤ (a.environment env).settings.bounds

/-- The event of a mint that was carried out. -/
def Deed.event? (d : Deed) : Option Event :=
  let text := d.found.env.settings.addressOf
  match d.action, d.answer with
  | .mint r, .mint (.ok _) => some (.tokensMinted (text r.caller) r.recipient r.amount r.denom)
  | .call (.signed caller) recipient amount denom, .call _ (.ok ()) =>
    some (.tokensMinted (text caller) recipient amount denom)
  | .callRaw (.signed caller) _, .rawCall c _ (.ok ()) =>
    some (.tokensMinted (text caller) c.recipient c.amount c.denom)
  | _, _ => none

/-- What the event of a deed says was so at that moment. -/
structure Deed.Attests (d : Deed) (e : Event) : Prop where
  fits : e.Fits d.found.env.settings.bounds
  denom : Denom.Matches e.record.denom
  /-- The minter's text is that of the authority, and is read as it on every network that has
  texts. -/
  minter : ∃ a, (∀ depth, (d.found.perform depth .resolve).1 = .account a) ∧
    e.record.minter = d.found.env.settings.addressOf a ∧
    (d.found.env.settings.network.toNat < 16384 →
      d.found.env.settings.account? e.record.minter = some a)
  /-- The recipient's text is read as the account that was credited, the only one. -/
  recipient : ∃ who, d.found.env.settings.account? e.record.recipient = some who ∧
    ∀ b denom,
      (d.found.perform d.depth d.action).2.world.storage.held d.found.env.settings b denom =
        if b = who ∧ denom = e.record.denom then
          d.found.world.storage.held d.found.env.settings b denom +
            e.record.amount.toNat
        else d.found.world.storage.held d.found.env.settings b denom

/-! ## Names of denominations -/

namespace Denom

/-- All bytes, in ascending order. -/
def bytes : Bytes := (List.range 256).map UInt8.ofNat

theorem mem_bytes (b : UInt8) : b ∈ bytes :=
  List.mem_map.mpr ⟨b.toNat, List.mem_range.mpr b.toNat_lt, UInt8.ofNat_toNat⟩

theorem letters_eq : letters = bytes.filter isLetter := by
  decide +kernel

theorem digitsAndMarks_eq : digitsAndMarks = bytes.filter fun b => isDigit b || isMark b := by
  decide +kernel

theorem isLetter_iff (b : UInt8) : isLetter b = true ↔ b ∈ letters := by
  rw [letters_eq, List.mem_filter]
  exact ⟨fun h => ⟨mem_bytes b, h⟩, fun h => h.2⟩

theorem isDigit_or_isMark_iff (b : UInt8) :
    (isDigit b || isMark b) = true ↔ b ∈ digitsAndMarks := by
  rw [digitsAndMarks_eq, List.mem_filter]
  exact ⟨fun h => ⟨mem_bytes b, h⟩, fun h => h.2⟩

/-- The names that are well formed are those that match the pattern. -/
theorem isValid_iff_matches (denom : Bytes) : isValid denom = true ↔ Matches denom := by
  have hrest : ∀ b, (isLetter b || isDigit b || isMark b) = true ↔
      b ∈ letters ∨ b ∈ digitsAndMarks := by
    intro b
    rw [Bool.or_assoc, Bool.or_eq_true, isLetter_iff, isDigit_or_isMark_iff]
  unfold isValid Matches minLength maxLength
  cases denom with
  | nil => simp
  | cons first rest =>
    simp only [Bool.and_eq_true, decide_eq_true_eq, List.length_cons, List.all_eq_true, hrest,
      isLetter_iff]
    constructor
    · rintro ⟨⟨hlo, hhi⟩, hfirst, hall⟩
      exact ⟨first, rest, rfl, hfirst, by omega, by omega, hall⟩
    · rintro ⟨_, _, heq, hfirst, hlo, hhi, hall⟩
      cases heq
      exact ⟨⟨by omega, by omega⟩, hfirst, hall⟩

theorem Matches.length_le {denom : Bytes} (h : Matches denom) : denom.length ≤ 128 := by
  obtain ⟨first, rest, rfl, -, -, hlen, -⟩ := h
  rw [List.length_cons]
  omega

end Denom

/-! ## Lengths of texts -/

namespace SS58

theorem length_textAfter_le (checksum : Checksum) {head : Bytes} (h : head.length ≤ 2)
    (a : Account) : (textAfter checksum head a).length ≤ 50 := by
  refine Base58.length_encode_le ?_
  have hlen : (head ++ a.bytes ++ checksumBytes checksum (head ++ a.bytes)).length ≤ 36 := by
    rw [List.length_append, List.length_append, a.length_bytes]
    show head.length + 32 + 2 ≤ 36
    omega
  exact Nat.le_trans (Nat.pow_le_pow_right (by decide) hlen) (by decide)

theorem length_networkBytes_le (network : Network) : (networkBytes network).length ≤ 2 := by
  unfold networkBytes
  dsimp only
  split
  · exact Nat.le_succ 1
  · exact Nat.le_refl 2

theorem length_paddedBytes_le (network : Network) : (paddedBytes network).length ≤ 2 :=
  Nat.le_refl 2

/-- Whatever is read as an account is short. -/
theorem length_le_of_decode? {checksum : Checksum} {network : Network} {text : Bytes}
    {a : Account} (h : decode? checksum network text = some a) : text.length ≤ 50 := by
  obtain ⟨head, ⟨-, rfl | ⟨-, rfl⟩⟩, rfl⟩ := decode?_eq_some_iff.mp h
  · exact length_textAfter_le checksum (length_networkBytes_le network) a
  · exact length_textAfter_le checksum (length_paddedBytes_le network) a

end SS58

/-! ## Reading the log -/

namespace Event

variable {bounds : Bounds}

theorem encode_eq (e : Event) : encode e = 0 :: e.record.encode := by
  cases e
  rfl

theorem reads (bounds : Bounds) :
    Reads (decode? bounds) encode fun e => e.Fits bounds ∧ e.record.Encodable := by
  refine (Reads.bind (fun _ : Event => ()) (Reads.of_tag 0) (fun _ =>
    Reads.bind (·.record.minter) (reads_boundedVector bounds.address) (fun minter =>
      Reads.bind (·.record.recipient) (reads_boundedVector bounds.address) (fun recipient =>
        Reads.bind (·.record.amount) reads_amount (fun amount =>
          Reads.bind (·.record.denom) (reads_boundedVector bounds.denom) (fun denom =>
            Reads.of_pure (tokensMinted minter recipient amount denom)) ?_) ?_) ?_) ?_) ?_).congr
      ?_ ?_
  · rintro denom _ rfl
    rfl
  · rintro amount e ⟨-, he⟩
    rw [he]
    rfl
  · rintro recipient e ⟨-, -, he⟩
    rw [he]
    rfl
  · rintro minter e ⟨-, -, -, he⟩
    rw [he]
    rfl
  · intro _ _ _
    rfl
  · intro e
    simp [encode_eq, MintRecord.encode]
  · rintro ⟨⟩
    constructor
    · rintro ⟨-, ⟨hm, hm'⟩, ⟨hr, hr'⟩, -, ⟨hd, hd'⟩, -⟩
      exact ⟨⟨hm, hr, hd⟩, ⟨hm', hr', hd'⟩⟩
    · rintro ⟨⟨hm, hr, hd⟩, ⟨hm', hr', hd'⟩⟩
      exact ⟨trivial, ⟨hm, hm'⟩, ⟨hr, hr'⟩, trivial, ⟨hd, hd'⟩, rfl⟩

theorem Fits.mono {e : Event} {bounds' : Bounds} (h : e.Fits bounds) (hle : bounds ≤ bounds') :
    e.Fits bounds' where
  minter := Nat.le_trans h.minter hle.1
  recipient := Nat.le_trans h.recipient hle.1
  denom := Nat.le_trans h.denom hle.2

/-- Bytes of an event within the bounds are read as that event. -/
theorem decode?_of_fits {e : Event} (h : e.Fits bounds) (he : e.record.Encodable)
    (rest : Bytes) : decode? bounds (e.encode ++ rest) = some (e, rest) :=
  (reads bounds _ _ _).mpr ⟨⟨h, he⟩, rfl⟩

/-- Bytes of an event that is out of bounds are not read as another one. -/
theorem decode?_of_not_fits {e : Event} (h : ¬ e.Fits bounds) (he : e.record.Encodable)
    (rest : Bytes) : decode? bounds (e.encode ++ rest) = none := by
  rw [Option.eq_none_iff_forall_ne_some]
  rintro ⟨e', rest'⟩ hread
  obtain ⟨⟨hfits, he'⟩, heq⟩ := (reads bounds _ _ _).mp hread
  -- Within bounds that are out of the way both are read, so they are one.
  have hwide : ∀ x : Event, x.record.Encodable → x.Fits ⟨2 ^ 32, 2 ^ 32⟩ := fun x hx =>
    ⟨Nat.le_of_lt hx.minter, Nat.le_of_lt hx.recipient, Nat.le_of_lt hx.denom⟩
  obtain ⟨rfl, -⟩ := (reads ⟨2 ^ 32, 2 ^ 32⟩).append_inj ⟨hwide e he, he⟩ ⟨hwide e' he', he'⟩ heq
  exact h hfits

/-- An event that is out of bounds hides itself and all later ones, and nothing else is
hidden. -/
theorem visible_eq_takeWhile {log : List Event} (h : ∀ e ∈ log, e.record.Encodable) :
    visible bounds log = log.takeWhile fun e => e.Fits bounds := by
  unfold visible
  induction log with
  | nil => rfl
  | cons e log ih =>
    rw [List.forall_mem_cons] at h
    rw [List.length_cons, readUpTo, List.flatMap_cons]
    by_cases hfits : e.Fits bounds
    · rw [decode?_of_fits hfits h.1, List.takeWhile_cons_of_pos (by simpa using hfits)]
      exact congrArg (e :: ·) (ih h.2)
    · rw [decode?_of_not_fits hfits h.1, List.takeWhile_cons_of_neg (by simpa using hfits)]

end Event

/-! ## What a deed appends -/

/-- A dispatch whose answer is that of a mint succeeded. -/
theorem Session.answer_of_minted_dispatch {s : Session} {depth : Nat} {origin : Origin}
    {c : MintCall} {answer : Except CallError Unit → Answer}
    (herr : ∀ e, ¬ (answer (.error e)).Minted)
    (h : (s.dispatch depth origin c answer).1.Minted) :
    (s.dispatch depth origin c answer).1 = answer (.ok ()) := by
  rw [dispatch_eq] at h ⊢
  dsimp only at h ⊢
  rcases hd : (c.dispatch s.env depth origin s.world).1 with e | _
  · rw [hd] at h
    exact absurd h (herr e)
  · rfl

namespace Deed

variable {d : Deed} {e : Event}

/-- A deed that made its mint has the event of its request. -/
theorem event?_of_requests {r : MintRequest} (hreq : d.action.Requests d.found.env.settings r)
    (hminted : d.answer.Minted) :
    d.event? = some (Mint.event r (d.found.env.settings.addressOf r.caller)) := by
  obtain ⟨depth, s, a⟩ := d
  unfold event?
  unfold answer at hminted ⊢
  dsimp only at hreq hminted ⊢
  cases hreq with
  | mint =>
    rw [Session.perform_mint] at hminted ⊢
    dsimp only at hminted ⊢
    rcases hm : (mint s.env depth r s.world).1 with err | rec
    · rw [hm] at hminted
      exact absurd hminted id
    · rfl
  | call hb =>
    obtain rfl := MintCall.build_eq_ok hb
    rw [Session.perform_call, hb] at hminted ⊢
    dsimp only at hminted ⊢
    rw [Session.answer_of_minted_dispatch (fun _ => id) hminted]
    rfl
  | callRaw hd =>
    rw [Session.perform_callRaw, hd] at hminted ⊢
    dsimp only at hminted ⊢
    rw [Session.answer_of_minted_dispatch (fun _ => id) hminted]
    rfl

theorem isSome_event?_iff : d.event?.isSome ↔ d.action.AsksMint ∧ d.answer.Minted := by
  constructor
  · unfold event?
    split
    · next ha hr => simp [ha, hr, Action.AsksMint, Answer.Minted]
    · next ha hr => simp [ha, hr, Action.AsksMint, Answer.Minted]
    · next ha hr => simp [ha, hr, Action.AsksMint, Answer.Minted]
    · intro h
      cases h
  · rintro ⟨ha, hminted⟩
    rcases Session.minted_or_kept ha d.depth d.found with ⟨hnot, -⟩ | ⟨-, -, r, -, hreq, -⟩
    · exact absurd hminted hnot
    · rw [event?_of_requests hreq hminted]
      rfl

/-- A deed with an event asked for a mint that passed its review. -/
theorem reviewed_of_event? (h : d.event? = some e) :
    d.action.AsksMint ∧ d.answer.Minted ∧ ∃ r c,
      d.action.Requests d.found.env.settings r ∧ Mint.review d.found.env r = .ok c ∧
      e = Mint.event r c.minter := by
  obtain ⟨ha, hminted⟩ := isSome_event?_iff.mp (Option.isSome_of_eq_some h)
  rcases Session.minted_or_kept ha d.depth d.found with ⟨hnot, -⟩ | ⟨-, depth', r, rec, hreq, hm⟩
  · exact absurd hminted hnot
  · obtain ⟨c, -, -, hr, -⟩ := Mint.mint_ok_inv hm
    obtain ⟨-, -, -, -, -, -, hminter, -⟩ := Mint.review_eq_ok_iff.mp hr
    rw [event?_of_requests hreq hminted, ← hminter] at h
    exact ⟨ha, hminted, r, c, hreq, hr, (Option.some.inj h).symm⟩

/-- **One deed's part of the log**: its event, or nothing. -/
theorem events_perform (d : Deed) :
    (d.found.perform d.depth d.action).2.world.storage.events =
      d.found.world.storage.events ++ d.event?.toList := by
  by_cases hminted : d.action.AsksMint ∧ d.answer.Minted
  · rcases Session.minted_or_kept hminted.1 d.depth d.found with
      ⟨hnot, -⟩ | ⟨-, depth', r, rec, hreq, hm⟩
    · exact absurd hminted.2 hnot
    · obtain ⟨c, calls, st, hr, hd, -, hst, -⟩ := Mint.mint_ok_inv hm
      obtain ⟨-, -, -, -, -, -, hminter, -⟩ := Mint.review_eq_ok_iff.mp hr
      rw [event?_of_requests hreq hminted.2, ← hminter, hst, ← Mint.events_of_deliver hd]
      rfl
  · rw [← isSome_event?_iff, Option.not_isSome_iff_eq_none] at hminted
    rw [hminted, Option.toList_none, List.append_nil]
    rcases (Session.perform_effect d.depth d.action d.found).events_eq with
      heq | ⟨r, -, hreq, -, -⟩
    · exact heq
    · rcases Session.minted_or_kept hreq.asksMint d.depth d.found with
        ⟨-, hkept⟩ | ⟨hyes, -⟩
      · rw [hkept]
      · have hsome := isSome_event?_iff.mpr ⟨hreq.asksMint, hyes⟩
        rw [hminted] at hsome
        cases hsome

theorem fits_of_event? (h : d.event? = some e) : e.Fits d.found.env.settings.bounds := by
  obtain ⟨-, -, r, c, -, hr, rfl⟩ := reviewed_of_event? h
  obtain ⟨-, hfit, -, hfit', -, hfit'', hminter, -⟩ := Mint.review_eq_ok_iff.mp hr
  rw [← hminter] at hfit
  exact ⟨of_decide_eq_true hfit, of_decide_eq_true hfit', of_decide_eq_true hfit''⟩

/-- The review of a mint sees to it that its event is right. -/
theorem attests_of_event? (hsound : d.found.world.storage.currency.Sound
      d.found.env.settings.currency) (h : d.event? = some e) : d.Attests e := by
  obtain ⟨ha, hminted, r, c, hreq, hr, rfl⟩ := reviewed_of_event? h
  obtain ⟨hcur, -, -, -, hvalid, -, hminter, -⟩ := Mint.review_eq_ok_iff.mp hr
  obtain ⟨r', who, hdel⟩ := Session.delivered_of_minted hsound ha hminted
  obtain rfl := hreq.unique hdel.requested
  refine ⟨fits_of_event? h, (Denom.isValid_iff_matches _).mp hvalid,
    ⟨r.caller, ?_, hminter, ?_⟩, ⟨who, hdel.named, hdel.held_eq⟩⟩
  · intro depth
    rw [Session.perform_resolve, hcur]
    rfl
  · intro hnet
    show d.found.env.settings.account? c.minter = some r.caller
    rw [hminter]
    exact Settings.account?_addressOf hnet r.caller

/-- The fields of an event are short, whatever the bounds. -/
theorem Attests.encodable (h : d.Attests e) : e.record.Encodable where
  minter := by
    obtain ⟨a, -, heq, -⟩ := h.minter
    have hlen : (d.found.env.settings.addressOf a).length ≤ 50 :=
      SS58.length_textAfter_le Address.checksum
        (SS58.length_networkBytes_le d.found.env.settings.network) a
    rw [heq]
    omega
  recipient := by
    obtain ⟨who, hwho, -⟩ := h.recipient
    have hlen := SS58.length_le_of_decode? hwho
    omega
  denom := by
    have hlen := h.denom.length_le
    omega

end Deed

/-! ## Runs -/

namespace Session

/-- The log of a session is that of the start and the events of all deeds that stand. -/
theorem traced_events :
    Traced (fun _ _ => True) .standing fun s p s' =>
      s'.world.storage.events = s.world.storage.events ++ p.filterMap Deed.event? where
  refl s := by rw [List.filterMap_nil, List.append_nil]
  trans s p s' q s'' hp hq := by
    rw [hq, hp, List.filterMap_append, List.append_assoc]
  act depth a s _ := by
    rw [Deed.events_perform ⟨depth, s, a⟩, List.filterMap_cons]
    cases Deed.event? ⟨depth, s, a⟩ with
    | none => rfl
    | some e => rfl
  close count commit s p s' h := by
    rw [closeLayers_eq]
    split
    · exact h
    · rw [List.filterMap_nil, List.append_nil]
      rfl

/-- As long as no bound is lowered the events of the log stay within the bounds. -/
theorem traced_fits :
    Traced (fun s a => a.Widens s.env) .standing fun s _ s' =>
      s.env.settings.bounds ≤ s'.env.settings.bounds ∧
      ((∀ e ∈ s.world.storage.events, e.Fits s.env.settings.bounds) →
        ∀ e ∈ s'.world.storage.events, e.Fits s'.env.settings.bounds) where
  refl s := ⟨⟨Nat.le_refl _, Nat.le_refl _⟩, id⟩
  trans s p s' q s'' hp hq :=
    ⟨⟨Nat.le_trans hp.1.1 hq.1.1, Nat.le_trans hp.1.2 hq.1.2⟩, fun h => hq.2 (hp.2 h)⟩
  act depth a s ha := by
    have hle : s.env.settings.bounds ≤ (s.perform depth a).2.env.settings.bounds := by
      rw [perform_env]
      exact ha
    refine ⟨hle, fun h e he => Event.Fits.mono ?_ hle⟩
    rw [Deed.events_perform ⟨depth, s, a⟩] at he
    rcases List.mem_append.mp he with hold | hnew
    · exact h e hold
    · exact Deed.fits_of_event? (Option.mem_toList.mp hnew)
  close count commit s p s' h := by
    rw [closeLayers_eq]
    split
    · exact h
    · -- The log is the one at the start, and of the bounds only the address bound goes back.
      have hle : s.env.settings.bounds ≤ (rollBack s s').env.settings.bounds := by
        refine ⟨?_, h.1.2⟩
        show _ ≤ if _ then _ else _
        split
        · exact Nat.le_refl _
        · exact h.1.1
      exact ⟨hle, fun hfits e he => (hfits e he).mono hle⟩

variable {env : Environment} {steps : List Step} {depth : Nat} {past : List Deed} {s : Session}

/-- Every event of a run is right, those included that were taken back. -/
theorem attests_of_passes {told : Recall}
    (hp : Step.Passes told 0 steps (start env) past depth s) :
    ∀ d ∈ past, ∀ e, d.event? = some e → d.Attests e := by
  intro d hd e he
  have hkept := (kept_currency_sound (fun _ _ => True) env.settings.currency).traced told
  obtain ⟨hfound, -⟩ := hkept.passes hp (Step.allMeet_of_forall (fun _ _ => trivial) _ _ _)
    ⟨rfl, Currency.sound_empty _⟩
  obtain ⟨hterms, hsound⟩ := hfound d hd
  rw [← hterms] at hsound
  exact Deed.attests_of_event? hsound he

theorem events_of_passes (hp : Step.Passes .standing 0 steps (start env) past depth s) :
    s.world.storage.events = past.filterMap Deed.event? :=
  traced_events.passes hp (Step.allMeet_of_forall (fun _ _ => trivial) _ _ _)

/-- What shows of the log is what comes before the first event that is out of bounds now. -/
theorem view_events_of_passes (hp : Step.Passes .standing 0 steps (start env) past depth s) :
    s.view.events =
      (past.filterMap Deed.event?).takeWhile fun e => e.Fits s.env.settings.bounds := by
  show Event.visible _ s.world.storage.events = _
  rw [events_of_passes hp, Event.visible_eq_takeWhile]
  intro e he
  obtain ⟨d, hd, hde⟩ := List.mem_filterMap.mp he
  exact (attests_of_passes hp d hd e hde).encodable

/-! ## Top theorem -/

/-- **An exact log.**  A mint that was carried out appends one event and nothing else touches
the log; a layer that is given up leaves it as it found it.  Every event, also one that was
taken back, was within the bounds of its moment and names the authority and the account credited
then.  So the log holds the events of the mints that stand, in order; of these shows what comes
before the first one out of bounds, and everything as long as no bound is lowered. -/
theorem log_is_exact (env : Environment) (steps : List Step) :
    (∀ d : Deed, (d.event?.isSome ↔ d.action.AsksMint ∧ d.answer.Minted) ∧
      (d.found.perform d.depth d.action).2.world.storage.events =
        d.found.world.storage.events ++ d.event?.toList) ∧
    (∀ depth count inner s, 0 < count →
      (Step.run depth (.layer count false inner) s).2.world.storage.events =
        s.world.storage.events) ∧
    (∀ past depth s, Step.Passes .all 0 steps (start env) past depth s →
      ∀ d ∈ past, ∀ e, d.event? = some e → d.Attests e) ∧
    ∀ past depth s, Step.Passes .standing 0 steps (start env) past depth s →
      s.world.storage.events = past.filterMap Deed.event? ∧
      s.view.events = ((past.filterMap Deed.event?).takeWhile fun e =>
        e.Fits s.env.settings.bounds) ∧
      (Step.AllMeet (fun s a => a.Widens s.env) 0 steps (start env) →
        s.view.events = past.filterMap Deed.event?) := by
  refine ⟨fun d => ⟨Deed.isSome_event?_iff, d.events_perform⟩, ?_,
    fun past depth s => attests_of_passes, ?_⟩
  · intro depth count inner s hcount
    rw [Step.run]
    by_cases hd : maxLayers < depth + count
    · rw [if_pos hd]
    · rw [if_neg hd]
      dsimp only
      rw [closeLayers_eq, if_neg (by simp [Recall.standing]; omega)]
      rfl
  · intro past depth s hp
    refine ⟨events_of_passes hp, view_events_of_passes hp, fun hm => ?_⟩
    have hfits := (traced_fits.passes hp hm).2 fun e he => absurd he List.not_mem_nil
    rw [events_of_passes hp] at hfits
    rw [view_events_of_passes hp, List.takeWhile_eq_self_iff]
    intro e he
    exact decide_eq_true (hfits e he)

end Session

/-! ## A second attempt on the development network -/

namespace Devnet

/-- The request is carried out in a layer that is given up. -/
def firstAttempt : Step := .layer 1 false [.act (.mint request)]

/-- The request is carried out again; both bounds are raised. -/
def secondAttempt : List Step :=
  [ firstAttempt,
    .act (.mint request),
    .act (.configure [.addressBound 80, .denomBound 200]) ]

theorem alike_firstAttempt : (Step.run 0 firstAttempt initial).2.Alike initial := by
  unfold firstAttempt
  refine Step.run_alike_of_failed (by decide) ?_ ?_
  · rw [Step.AllMeet, Step.Meets, Step.AllMeet]
    exact ⟨fun _ => rfl, trivial⟩
  · rw [Step.run_layer, if_neg (by decide)]
    trivial

/-- The request has its event wherever storage and environment are those at the start. -/
theorem event?_request {s : Session} (h : s.Alike initial) (depth : Nat) (hd : depth < 254) :
    Deed.event? ⟨depth, s, .mint request⟩ =
      some (Mint.event request (settings.addressOf minter)) := by
  have hr := review_request ⟨false, false⟩
  rw [show (switched ⟨false, false⟩).env = s.env from h.env_eq.symm] at hr
  obtain ⟨st, hdel⟩ : ∃ st, Mint.deliver initial.env depth (.filled 2)
      ⟨request.denom, request.amount⟩ initial.world.storage = ([.mint, .send], .ok st) := by
    have hbook : initial.env.settings.ledger = .book := rfl
    rw [Mint.deliver_on_book hbook, if_neg (by omega), if_neg (by decide), if_neg (by omega),
      if_neg (by decide), if_neg (by decide)]
    exact ⟨_, rfl⟩
  rw [← h.env_eq, ← h.storage_eq] at hdel
  have hminted : (Deed.answer ⟨depth, s, .mint request⟩).Minted := by
    unfold Deed.answer
    rw [Session.perform_mint, Mint.answer_of_deliver hr hdel]
    trivial
  rw [Deed.event?_of_requests (.mint _) hminted]
  show some (Mint.event request (s.env.settings.addressOf request.caller)) = _
  rw [h.env_eq]
  rfl

end Devnet

namespace Session

/-- One event shows, that of the second attempt. -/
theorem log_of_second_attempt :
    (Step.runAll 0 Devnet.secondAttempt Devnet.initial).2.view.events =
      [Mint.event Devnet.request (Devnet.settings.addressOf Devnet.minter)] := by
  obtain ⟨-, -, -, hlog⟩ := log_is_exact Devnet.initial.env Devnet.secondAttempt
  obtain ⟨-, -, hall⟩ := hlog _ _ _ (Step.passes_runAll .standing 0 _ Devnet.initial)
  have hpast : Step.allDeeds .standing 0 Devnet.secondAttempt Devnet.initial =
      [⟨0, _, .mint Devnet.request⟩, ⟨0, _, .configure _⟩] := rfl
  have henv := Devnet.alike_firstAttempt.env_eq
  have hm : Step.AllMeet (fun s a => a.Widens s.env) 0 Devnet.secondAttempt Devnet.initial := by
    simp only [Devnet.secondAttempt, Step.AllMeet, Step.Meets, Step.run_act, perform_env, henv]
    refine ⟨?_, ⟨Nat.le_refl _, Nat.le_refl _⟩, ⟨by decide, by decide⟩, trivial⟩
    simp only [Devnet.firstAttempt, Step.Meets, Step.AllMeet]
    exact fun _ => ⟨⟨Nat.le_refl _, Nat.le_refl _⟩, trivial⟩
  have hevent := Devnet.event?_request Devnet.alike_firstAttempt 0 (by decide)
  rw [hall hm, hpast, List.filterMap_cons, hevent]
  rfl

end Session

end Mintage
