import Mintage.Proofs.AddressLanguage
import Mintage.Proofs.Authorization
import Mintage.Proofs.History

/-!
# The authority under a name

The keyring is no storage: no rollback brings an entry of it back.  So the authority under a
name is told by the deeds of the run, those inside layers that were given up included.  It is
the account that the text last written under that name names on the network in use, while the
keyring is online, and otherwise there is none; nothing of it is remembered from one look to
the next.

    Passes .all depth steps start past depth' s → s.env.settings.fixedAuthority = none →
      s.JudgesBy (s.Designates start past)                       (authority_follows_keyring)

A text that was written for an account on some network names it on the network that this
number is written as and nobody on any other (`decode?_encode_eq_some_iff`), so what was stored
by account holds on that one network only.
-/

namespace Mintage

/-! ## Definitions -/

/-- What the action makes of the entry under a name: a text, or no entry; `none` where it
leaves the entry alone. -/
def Action.writes? (settings : Settings) (name : Bytes) : Action → Option (Option Bytes)
  | .setKey n text => if n = name then some (some text) else none
  | .setKeyAccount n a => if n = name then some (some (settings.addressOf a)) else none
  | .removeKey n => if n = name then some none else none
  | _ => none

def Deed.writes? (name : Bytes) (d : Deed) : Option (Option Bytes) :=
  d.action.writes? d.found.env.settings name

/-- The text is the last that was written under the name and was not removed since.  What the
keyring held at the start was written before all deeds. -/
def LastWritten (start : Session) (past : List Deed) (name text : Bytes) : Prop :=
  (∃ before d after, past = before ++ d :: after ∧ d.writes? name = some (some text) ∧
    ∀ e ∈ after, e.writes? name = none) ∨
  start.env.keyring.keys.lookup name = some text ∧ ∀ e ∈ past, e.writes? name = none

/-- What stands under a name after the deeds, where `held?` stood before them. -/
def entryAfter (name : Bytes) (past : List Deed) (held? : Option Bytes) : Option Bytes :=
  past.foldl (fun held? d => (d.writes? name).getD held?) held?

namespace Session

/-- The keyring is online, and the text last written under the name that is looked up names the
account on the network in use. -/
def Designates (s start : Session) (past : List Deed) (a : Account) : Prop :=
  s.env.keyring.online = true ∧
    ∃ text, LastWritten start past (Bytes.ofText s.env.settings.authorityName) text ∧
      s.env.settings.account? text = some a

/-- A denial tells either the authority, which is another account, or why there is none. -/
def Grounds (s : Session) (holds : Account → Prop) (caller : Account) (d : Denial) : Prop :=
  (∃ a, d.authority? = some a ∧ d.cause? = none ∧ a ≠ caller ∧ holds a) ∨
  ∃ f, d.authority? = none ∧ d.cause? = some f ∧
    (∀ depth, (s.perform depth .resolve).1 = .refused f) ∧ ∀ a, ¬ holds a

/-- The session takes for the authority whoever has the property, and nobody else. -/
structure JudgesBy (s : Session) (holds : Account → Prop) : Prop where
  resolve_iff : ∀ depth a, (s.perform depth .resolve).1 = .account a ↔ holds a
  authorize : ∀ depth caller, ∃ allowed result,
    (s.perform depth (.authorize caller)).1 = .authorization allowed result ∧
    (allowed = true ↔ holds caller) ∧
    (∀ a, result = .ok a ↔ a = caller ∧ holds caller) ∧
    ∀ d, result = .error d → s.Grounds holds caller d
  /-- Whoever is not the authority is turned away, whatever it asks for. -/
  turns_away : ∀ caller, ¬ holds caller →
    ∃ authority cause, s.TurnsAway caller authority cause

end Session

/-! ## The keyring -/

namespace Keyring

theorem lookup_remove (k : Keyring) (name other : Bytes) :
    (k.remove name).keys.lookup other =
      if name = other then none else k.keys.lookup other := by
  show (k.keys.filter fun e => e.1 ≠ name).lookup other = _
  rw [lookup_filter_key fun n => n ≠ name]
  by_cases hn : name = other
  · simp [hn]
  · simp [hn, Ne.symm hn]

theorem lookup_insert (k : Keyring) (name text other : Bytes) :
    (k.insert name text).keys.lookup other =
      if name = other then some text else k.keys.lookup other := by
  unfold insert
  rw [List.lookup_cons, lookup_remove]
  by_cases hn : name = other
  · subst hn
    simp
  · rw [beq_eq_false_iff_ne.mpr (Ne.symm hn), if_neg hn, if_neg hn]

theorem find_eq_ok_iff {k : Keyring} {name text : Bytes} :
    k.find name = .ok text ↔ k.online = true ∧ k.keys.lookup name = some text := by
  unfold find
  cases k.online with
  | false => simp
  | true =>
    cases k.keys.lookup name with
    | none => simp
    | some t => simp

end Keyring

/-! ## Entries and deeds -/

/-- No setting touches the entries. -/
theorem Setting.applyAll_keys (e : Environment) (changes : List Setting) :
    (applyAll e changes).keyring.keys = e.keyring.keys := by
  refine applyAll_induct (fun e' c h => ?_) (P := fun e' => e'.keyring.keys = e.keyring.keys)
    rfl changes
  cases c <;> exact h

/-- An action leaves under a name what it writes there. -/
theorem Action.lookup_environment (a : Action) (e : Environment) (name : Bytes) :
    (a.environment e).keyring.keys.lookup name =
      (a.writes? e.settings name).getD (e.keyring.keys.lookup name) := by
  have hgetD : ∀ (p : Prop) [Decidable p] (t? old? : Option Bytes),
      (if p then some t? else none).getD old? = if p then t? else old? := by
    intro p _ t? old?
    split <;> rfl
  cases a with
  | configure changes =>
    show (Setting.applyAll e changes).keyring.keys.lookup name = e.keyring.keys.lookup name
    rw [Setting.applyAll_keys]
  | setKey n text => exact (Keyring.lookup_insert _ _ _ _).trans (hgetD _ _ _).symm
  | setKeyAccount n a => exact (Keyring.lookup_insert _ _ _ _).trans (hgetD _ _ _).symm
  | removeKey n => exact (Keyring.lookup_remove _ _ _).trans (hgetD _ _ _).symm
  | _ => rfl

theorem entryAfter_append (name : Bytes) (past past' : List Deed) (held? : Option Bytes) :
    entryAfter name (past ++ past') held? = entryAfter name past' (entryAfter name past held?) :=
  List.foldl_append

/-- The last deed of a kind is the first one, with none of the others after it, or among the
others. -/
theorem exists_last_cons {P Q : Deed → Prop} {d : Deed} {past : List Deed} :
    (∃ before d' after, d :: past = before ++ d' :: after ∧ P d' ∧ ∀ e ∈ after, Q e) ↔
      (P d ∧ ∀ e ∈ past, Q e) ∨
        ∃ before d' after, past = before ++ d' :: after ∧ P d' ∧ ∀ e ∈ after, Q e := by
  constructor
  · rintro ⟨before, d', after, heq, hd', hafter⟩
    cases before with
    | nil =>
      cases heq
      exact Or.inl ⟨hd', hafter⟩
    | cons _ before =>
      cases heq
      exact Or.inr ⟨before, d', after, rfl, hd', hafter⟩
  · rintro (⟨hd, hpast⟩ | ⟨before, d', after, rfl, hd', hafter⟩)
    · exact ⟨[], d, past, rfl, hd, hpast⟩
    · exact ⟨d :: before, d', after, rfl, hd', hafter⟩

/-- A text stands under a name exactly if it was written there last. -/
theorem entryAfter_eq_some_iff {name text : Bytes} {past : List Deed} {held? : Option Bytes} :
    entryAfter name past held? = some text ↔
      (∃ before d after, past = before ++ d :: after ∧ d.writes? name = some (some text) ∧
        ∀ e ∈ after, e.writes? name = none) ∨
      held? = some text ∧ ∀ e ∈ past, e.writes? name = none := by
  induction past generalizing held? with
  | nil =>
    constructor
    · intro h
      exact Or.inr ⟨h, fun e he => absurd he List.not_mem_nil⟩
    · rintro (⟨before, d, after, hnil, -⟩ | ⟨h, -⟩)
      · simp at hnil
      · exact h
  | cons d past ih =>
    show entryAfter name past ((d.writes? name).getD held?) = some text ↔ _
    rw [ih, exists_last_cons (P := fun d => d.writes? name = some (some text)),
      List.forall_mem_cons]
    cases d.writes? name with
    | none => simp
    | some t? =>
      simp only [Option.getD_some, Option.some.injEq, reduceCtorEq, false_and, and_false, or_false]
      exact or_comm

namespace Session

/-- The entries of a session are what all deeds since the start make of those at the start. -/
theorem traced_entries (name : Bytes) :
    Traced (fun _ _ => True) .all fun s p s' =>
      s'.env.keyring.keys.lookup name =
        entryAfter name p (s.env.keyring.keys.lookup name) where
  refl s := rfl
  trans s p s' q s'' hp hq := by
    rw [entryAfter_append, ← hp]
    exact hq
  act depth a s _ := by
    rw [perform_env]
    exact a.lookup_environment s.env name
  close count commit s p s' h := by
    rw [closeLayers_eq]
    split
    · exact h
    · exact h

end Session

/-! ## The authority of a state -/

/-- Under a name, the authority is the account whose text the keyring holds and gives out. -/
theorem Authority.current_eq_ok_iff {env : Environment}
    (hn : env.settings.fixedAuthority = none) {a : Account} :
    current env = .ok a ↔ env.keyring.online = true ∧
      ∃ text, env.keyring.keys.lookup (Bytes.ofText env.settings.authorityName) = some text ∧
        env.settings.account? text = some a := by
  have hp : env.settings.policy = .named env.settings.authorityName := by
    unfold Settings.policy
    rw [hn]
  constructor
  · intro h
    unfold current at h
    rw [hp] at h
    dsimp only at h
    cases hf : env.keyring.find (Bytes.ofText env.settings.authorityName) with
    | error f =>
      rw [hf] at h
      cases h
    | ok text =>
      obtain ⟨honline, hlookup⟩ := Keyring.find_eq_ok_iff.mp hf
      rw [hf] at h
      dsimp only at h
      cases ha : env.settings.account? text with
      | none =>
        rw [ha] at h
        cases h
      | some b =>
        rw [ha] at h
        cases h
        exact ⟨honline, text, hlookup, ha⟩
  · rintro ⟨honline, text, hlookup, ha⟩
    exact current_of_named hp (Keyring.find_eq_ok_iff.mpr ⟨honline, hlookup⟩) ha

namespace Session

variable {s : Session}

/-- Every session judges by what it finds. -/
theorem judgesBy_current (s : Session) :
    s.JudgesBy fun a => Authority.current s.env = .ok a where
  resolve_iff depth a := by
    rw [perform_resolve]
    cases Authority.current s.env with
    | error f => simp [Answer.ofAccount]
    | ok b => simp [Answer.ofAccount]
  authorize depth caller := by
    refine ⟨_, _, perform_authorize depth caller s, Authority.isOk_verdict_iff,
      fun a => Authority.verdict_eq_ok_iff, ?_⟩
    intro d hd
    obtain ⟨a, hcurrent, ha, rfl⟩ | ⟨f, hcurrent, rfl⟩ := Authority.verdict_eq_error_iff.mp hd
    · exact Or.inl ⟨a, rfl, rfl, ha, hcurrent⟩
    · refine Or.inr ⟨f, rfl, rfl, fun depth' => ?_, fun a ha => ?_⟩
      · rw [perform_resolve, hcurrent]
        rfl
      · rw [hcurrent] at ha
        cases ha
  turns_away caller h := by
    obtain ⟨d, hd⟩ := Mint.verdict_eq_error h
    exact ⟨_, _, turnsAway_of_denial hd⟩

theorem JudgesBy.congr {holds holds' : Account → Prop} (h : s.JudgesBy holds)
    (heq : ∀ a, holds a ↔ holds' a) : s.JudgesBy holds' := by
  rwa [← funext fun a => propext (heq a)]

/-! ## Top theorem -/

/-- **The authority follows the keyring.**  Where it is looked up under a name, it is in every
state that a run passes the account designated by the text last written under that name, and
nobody while the keyring is offline or there is no such text.  An entry that was stored by
account designates it on the network that the number of that moment is written as, and on every
other network nobody. -/
theorem authority_follows_keyring {start : Session} {depth depth' : Nat} {steps : List Step}
    {past : List Deed} {s : Session} (hp : Step.Passes .all depth steps start past depth' s)
    (hn : s.env.settings.fixedAuthority = none) :
    s.JudgesBy (s.Designates start past) ∧
    ∀ before d after a, past = before ++ d :: after →
      d.action = .setKeyAccount (Bytes.ofText s.env.settings.authorityName) a →
      (∀ e ∈ after, e.writes? (Bytes.ofText s.env.settings.authorityName) = none) →
      s.env.keyring.online = true →
      s.JudgesBy fun b => b = a ∧
        s.env.settings.network = SS58.masked d.found.env.settings.network := by
  have hentries := fun name =>
    (traced_entries name).passes hp (Step.allMeet_of_forall (fun _ _ => trivial) _ _ _)
  constructor
  · refine s.judgesBy_current.congr fun a => ?_
    rw [Authority.current_eq_ok_iff hn]
    unfold Designates
    simp only [hentries, entryAfter_eq_some_iff]
    rfl
  · rintro before d after a rfl hd hspared honline
    have hwrites : d.writes? (Bytes.ofText s.env.settings.authorityName) =
        some (some (d.found.env.settings.addressOf a)) := by
      unfold Deed.writes?
      rw [hd]
      exact if_pos rfl
    have hlast := (hentries (Bytes.ofText s.env.settings.authorityName)).trans
      (entryAfter_eq_some_iff.mpr (Or.inl ⟨before, d, after, rfl, hwrites, hspared⟩))
    refine s.judgesBy_current.congr fun b => ?_
    rw [Authority.current_eq_ok_iff hn, hlast]
    constructor
    · rintro ⟨-, text, htext, hb⟩
      cases htext
      exact SS58.decode?_encode_eq_some_iff.mp hb
    · intro hb
      exact ⟨honline, _, rfl, SS58.decode?_encode_eq_some_iff.mpr hb⟩

end Session

/-! ## A handover on the development network -/

namespace Devnet

/-- The network under a number whose lowest fourteen bits are 42; in a layer that is given up
the name goes to the account of twos; the network under 42 again. -/
def handover : List Step :=
  [ .act (.configure [.network 16426]),
    .layer 1 false [.act (.setKeyAccount (Bytes.ofText "bob") (.filled 2))],
    .act (.configure [.network 42]) ]

/-- The development network after the handover. -/
def handedOver : Session := (Step.runAll 0 handover initial).2

end Devnet

namespace Session

/-- The account of twos took over although its layer was given up and the text was written under
another number. -/
theorem handed_over_in_layer :
    (Devnet.handedOver.perform 7 .resolve).1 = .account (.filled 2) ∧
      ∃ authority cause, Devnet.handedOver.TurnsAway Devnet.minter authority cause := by
  have hpast : Step.allDeeds .all 0 Devnet.handover Devnet.initial =
      [⟨0, Devnet.initial, .configure [.network 16426]⟩] ++
        ⟨1, (Step.run 0 (.act (.configure [.network 16426])) Devnet.initial).2,
          .setKeyAccount (Bytes.ofText "bob") (.filled 2)⟩ ::
        [⟨0, _, .configure [.network 42]⟩] := rfl
  obtain ⟨-, hstored⟩ := authority_follows_keyring
    (Step.passes_runAll .all 0 Devnet.handover Devnet.initial) rfl
  have hjudges := hstored _ _ _ _ hpast rfl (fun e he => by rw [List.mem_singleton.mp he]; rfl) rfl
  have hnet : Devnet.handedOver.env.settings.network = SS58.masked 16426 := rfl
  have hne : Devnet.minter ≠ .filled 2 := by decide
  exact ⟨(hjudges.resolve_iff 7 _).mpr ⟨rfl, hnet⟩, hjudges.turns_away _ fun h => hne h.1⟩

end Session

end Mintage
