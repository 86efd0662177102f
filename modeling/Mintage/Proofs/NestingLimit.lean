import Mintage.Proofs.NativeMint

/-!
# The limit on open layers

A mint opens one layer and each ledger operation another one inside it.  As long as both can be
opened it makes no difference how many are open already.  With 254 open the first operation is
asked and has no layer left, with 255 none is asked; a request that is refused before the ledger
is refused alike at every depth:

    k ≤ 253 → s.perform k (.mint r) = s.perform 0 (.mint r)              (perform_mint_of_le)
    s.Admits r → s.MintFails 254 r … [.mint] ∧ s.MintFails 255 r … []
    ¬ s.Admits r → ∃ e, ∀ k, s.MintFails k r e []                           (nesting_limit)

The native currency notes no calls.  The calls of a mint are told on both ledgers by one that is
carried out with its calls noted and is otherwise the same (`notedLike`).
-/

namespace Mintage

/-! ## Definitions -/

/-- The operations of the ledger in use with their calls noted; the book notes its own. -/
def Ledger.noted (env : Environment) : Operations :=
  match env.settings.ledger with
  | .book => inUse env
  | .native =>
    { mintCoins depth target coins := do
        Transaction.record .mint
        mintCoins env depth target coins
      sendCoins depth sender receiver coins := do
        Transaction.record .send
        sendCoins env depth sender receiver coins }

/-- Asks for an operation of a ledger. -/
def Action.AsksLedger : Action → Prop
  | .mintCoins .. | .sendCoins .. | .mintNative .. | .sendNative .. => True
  | _ => False

namespace Session

/-- The mint, carried out with its calls noted. -/
def notedMint (s : Session) (depth : Nat) (r : MintRequest) : Except MintError MintRecord × World :=
  Mint.mintOn (Ledger.noted s.env) s.env depth r s.world

/-- The request passes the checks on its caller, its recipient and its denomination. -/
structure Admits (s : Session) (r : MintRequest) : Prop where
  authorized : ∀ depth,
    (s.perform depth (.authorize r.caller)).1 = .authorization true (.ok r.caller)
  minter_fits : (s.env.settings.addressOf r.caller).length ≤ s.env.settings.bounds.address
  recipient : ∃ who, s.env.settings.account? r.recipient = some who
  recipient_fits : r.recipient.length ≤ s.env.settings.bounds.address
  denom : Denom.isValid r.denom = true
  denom_fits : r.denom.length ≤ s.env.settings.bounds.denom

/-- The noted mint answers as the mint does and leaves the same but for the calls. -/
structure NotedLike (s : Session) (depth : Nat) (r : MintRequest) : Prop where
  answer_eq : (s.perform depth (.mint r)).1 = .mint (s.notedMint depth r).1
  storage_eq : (s.perform depth (.mint r)).2.world.storage = (s.notedMint depth r).2.storage
  journal_eq : (s.perform depth (.mint r)).2.world.journal = (s.notedMint depth r).2.journal
  /-- On the book, which notes its calls itself, the calls are the same as well. -/
  calls_eq : s.env.settings.ledger = .book →
    (s.perform depth (.mint r)).2.world.calls = (s.notedMint depth r).2.calls

/-- The mint fails with that error, keeps the storage and makes these ledger calls. -/
structure MintFails (s : Session) (depth : Nat) (r : MintRequest) (e : MintError)
    (calls : List LedgerCall) : Prop where
  answer_eq : (s.perform depth (.mint r)).1 = .mint (.error e)
  storage_eq : (s.perform depth (.mint r)).2.world.storage = s.world.storage
  calls_eq : (s.notedMint depth r).2.calls = s.world.calls ++ calls

/-- The action does the same however many layers are open, as long as one more can be opened;
where none can be it is refused and keeps the storage. -/
structure NeedsOneLayer (s : Session) (a : Action) : Prop where
  perform_eq : ∀ k, k ≤ 254 → s.perform k a = s.perform 0 a
  refused : ∃ f, (s.perform 255 a).1 = .refused f
  storage_eq : (s.perform 255 a).2.world.storage = s.world.storage

end Session

/-! ## Depth -/

namespace Ledger

variable {env : Environment} {terms : CurrencyTerms} {depth : Nat}

theorem mintNativeStep_of_lt (h : depth < maxLayers) :
    mintNativeStep terms depth = mintNativeStep terms 0 := by
  funext target coins st
  unfold mintNativeStep
  rw [layered_of_lt h, layered_of_lt (by decide)]

theorem sendNativeStep_of_lt (h : depth < maxLayers) :
    sendNativeStep terms depth = sendNativeStep terms 0 := by
  funext sender receiver coins st
  unfold sendNativeStep
  rw [layered_of_lt h, layered_of_lt (by decide)]

theorem mintStep_of_lt (h : depth < maxLayers) : mintStep env depth = mintStep env 0 := by
  funext target coins st
  unfold mintStep
  rw [mintNativeStep_of_lt h, layered_of_lt h, layered_of_lt (by decide)]

theorem sendStep_of_lt (h : depth < maxLayers) : sendStep env depth = sendStep env 0 := by
  funext sender receiver coins st
  unfold sendStep
  rw [sendNativeStep_of_lt h, layered_of_lt h, layered_of_lt (by decide)]

/-- Without a layer left minting is refused for that, unless the book is told to refuse it. -/
theorem mintStep_of_full (target : Account) (coins : List Coin) (st : Storage) :
    mintStep env maxLayers target coins st =
      .error (if env.settings.ledger = .book ∧ env.switches.refuseMints = true then
        .mintingDisabled else .layerLimit) := by
  unfold mintStep
  cases env.settings.ledger with
  | native => rfl
  | book =>
    cases env.switches.refuseMints with
    | true => rfl
    | false => rfl

theorem sendStep_of_full (sender receiver : Account) (coins : List Coin) (st : Storage) :
    sendStep env maxLayers sender receiver coins st =
      .error (if env.settings.ledger = .book ∧ env.switches.refuseTransfers = true then
        .transfersDisabled else .layerLimit) := by
  unfold sendStep
  cases env.settings.ledger with
  | native => rfl
  | book =>
    cases env.switches.refuseTransfers with
    | true => rfl
    | false => rfl

end Ledger

/-- Below 254 open layers a delivery does not see how many there are. -/
theorem Mint.deliver_of_le {env : Environment} {depth : Nat} (h : depth ≤ 253) :
    deliver env depth = deliver env 0 := by
  have hlt : depth + 1 < maxLayers := Nat.lt_of_le_of_lt (Nat.succ_le_succ h) (by decide)
  have hlt' : 0 + 1 < maxLayers := by decide
  funext recipient c st
  unfold deliver deliverOn
  rw [if_neg (by omega), if_neg (by omega), Ledger.mintStep_of_lt hlt, Ledger.sendStep_of_lt hlt,
    Ledger.mintStep_of_lt hlt', Ledger.sendStep_of_lt hlt']

/-! ## Calls that are noted -/

theorem Ledger.notes_noted (env : Environment) : (noted env).Notes env [.mint] [.send] := by
  unfold noted
  cases hl : env.settings.ledger with
  | book =>
    have hcalls : mintCalls env = [.mint] ∧ sendCalls env = [.send] := by
      unfold mintCalls sendCalls
      rw [hl]
      exact ⟨rfl, rfl⟩
    have hnotes := notes_inUse env
    rw [hcalls.1, hcalls.2] at hnotes
    exact hnotes
  | native =>
    have hcalls : mintCalls env = [] ∧ sendCalls env = [] := by
      unfold mintCalls sendCalls
      rw [hl]
      exact ⟨rfl, rfl⟩
    constructor
    · intro depth target coins w
      dsimp only
      rw [Transaction.bind_run, Transaction.record_run]
      dsimp only
      rw [mintCoins_run, hcalls.1, settle_record]
    · intro depth sender receiver coins w
      dsimp only
      rw [Transaction.bind_run, Transaction.record_run]
      dsimp only
      rw [sendCoins_run, hcalls.2, settle_record]

namespace Mint

/-- Which calls are noted does not matter to what a delivery makes of the storage. -/
theorem deliverOn_snd (minting sending : List LedgerCall) (env : Environment) (depth : Nat)
    (recipient : Account) (c : Coin) (st : Storage) :
    (deliverOn minting sending env depth recipient c st).2 =
      (deliver env depth recipient c st).2 := by
  unfold deliver deliverOn
  split
  · rfl
  · split
    · rfl
    · rfl

/-- Deliveries that make the same of the storage make the same of answer, storage and journal,
whichever calls they note. -/
theorem outcomeOn_like
    {delivery delivery' : Account → Coin → Storage → List LedgerCall × Except MintError Storage}
    (hsnd : ∀ a c st, (delivery a c st).2 = (delivery' a c st).2) (env : Environment)
    (r : MintRequest) (w : World) :
    (outcomeOn delivery env r w).1 = (outcomeOn delivery' env r w).1 ∧
      (outcomeOn delivery env r w).2.storage = (outcomeOn delivery' env r w).2.storage ∧
      (outcomeOn delivery env r w).2.journal = (outcomeOn delivery' env r w).2.journal := by
  unfold outcomeOn
  cases review env r with
  | error e => exact ⟨rfl, rfl, rfl⟩
  | ok cleared =>
    have hsame := hsnd cleared.recipient cleared.coin w.storage
    dsimp only
    generalize delivery cleared.recipient cleared.coin w.storage = delivered at hsame
    generalize delivery' cleared.recipient cleared.coin w.storage = delivered' at hsame
    obtain ⟨calls, result⟩ := delivered
    obtain ⟨calls', result'⟩ := delivered'
    obtain rfl : result = result' := hsame
    cases result with
    | error e => exact ⟨rfl, rfl, rfl⟩
    | ok st => exact ⟨rfl, rfl, rfl⟩

end Mint

namespace Session

variable {s : Session} {depth : Nat} {r : MintRequest}

theorem notedMint_eq (s : Session) (depth : Nat) (r : MintRequest) :
    s.notedMint depth r =
      Mint.outcomeOn (Mint.deliverOn [.mint] [.send] s.env depth) s.env r s.world :=
  Mint.mintOn_run (Ledger.notes_noted s.env) depth r s.world

theorem notedLike (s : Session) (depth : Nat) (r : MintRequest) : s.NotedLike depth r := by
  have hsnd := Mint.deliverOn_snd [.mint] [.send] s.env depth
  obtain ⟨hanswer, hstorage, hjournal⟩ :=
    Mint.outcomeOn_like (fun a c st => (hsnd a c st).symm) s.env r s.world
  rw [← notedMint_eq] at hanswer hstorage hjournal
  have hmint : mint s.env depth r s.world = Mint.outcomeOn _ s.env r s.world := mint_run ..
  rw [← hmint] at hanswer hstorage hjournal
  refine ⟨congrArg Answer.mint hanswer, hstorage, hjournal, fun hb => ?_⟩
  unfold notedMint Ledger.noted
  rw [hb, perform_mint]
  rfl

/-! ## Mints that fail -/

/-- What the noted mint shows, the mint does. -/
theorem mintFails_of_noted {e : MintError} {calls : List LedgerCall} {w : World}
    (h : s.notedMint depth r = (.error e, w)) (hst : w.storage = s.world.storage)
    (hcalls : w.calls = s.world.calls ++ calls) : s.MintFails depth r e calls := by
  obtain ⟨hanswer, hstorage, -, -⟩ := s.notedLike depth r
  rw [h] at hanswer hstorage
  refine ⟨hanswer, hstorage.trans hst, ?_⟩
  rw [h]
  exact hcalls

theorem mintFails_of_review {e : MintError} (hr : Mint.review s.env r = .error e) :
    s.MintFails depth r e [] := by
  have hnoted := s.notedMint_eq depth r
  unfold Mint.outcomeOn at hnoted
  rw [hr] at hnoted
  exact mintFails_of_noted hnoted rfl (List.append_nil _).symm

theorem mintFails_of_deliverOn {c : Clearance} {e : MintError} {calls : List LedgerCall}
    (hr : Mint.review s.env r = .ok c)
    (hd : Mint.deliverOn [.mint] [.send] s.env depth c.recipient c.coin s.world.storage =
      (calls, .error e)) : s.MintFails depth r e calls := by
  have hnoted := s.notedMint_eq depth r
  unfold Mint.outcomeOn at hnoted
  rw [hr] at hnoted
  dsimp only at hnoted
  rw [hd] at hnoted
  exact mintFails_of_noted hnoted rfl rfl

/-- The checks before the ledger are those that `Admits` lists. -/
theorem admits_iff : s.Admits r ↔ ∃ c, Mint.review s.env r = .ok c := by
  have hverdict : (∀ depth, (s.perform depth (.authorize r.caller)).1 =
      .authorization true (.ok r.caller)) ↔ Authority.current s.env = .ok r.caller := by
    simp only [perform_authorize, Answer.authorization.injEq, Authority.isOk_verdict_iff,
      Authority.verdict_eq_ok_iff, true_and, and_self, forall_const]
  constructor
  · rintro ⟨hauth, hfit, ⟨who, hwho⟩, hfit', hvalid, hfit''⟩
    exact ⟨⟨_, who, _⟩, Mint.review_eq_ok_iff.mpr ⟨hverdict.mp hauth, decide_eq_true hfit, hwho,
      decide_eq_true hfit', hvalid, decide_eq_true hfit'', rfl, rfl⟩⟩
  · rintro ⟨c, hr⟩
    obtain ⟨hcur, hfit, hwho, hfit', hvalid, hfit'', -, -⟩ := Mint.review_eq_ok_iff.mp hr
    exact ⟨hverdict.mpr hcur, of_decide_eq_true hfit, ⟨_, hwho⟩, of_decide_eq_true hfit', hvalid,
      of_decide_eq_true hfit''⟩

/-! ## Top theorem -/

theorem perform_mint_of_le (s : Session) (r : MintRequest) {k : Nat} (hk : k ≤ 253) :
    s.perform k (.mint r) = s.perform 0 (.mint r) := by
  have houtcome : Mint.outcome s.env k r s.world = Mint.outcome s.env 0 r s.world := by
    unfold Mint.outcome
    rw [Mint.deliver_of_le hk]
  rw [perform_mint, perform_mint, mint_run, mint_run, houtcome]

/-- An operation that notes its calls and takes a step needs the layer of that step. -/
theorem needsOneLayer_of_settle {a : Action} {op : Nat → Transaction Fault Unit}
    {calls : List LedgerCall} {step : Nat → Storage → Except Fault Storage}
    (ha : ∀ k, s.perform k a = s.transact (op k) .ofUnit)
    (hop : ∀ k w, op k w = w.settle calls (step k w.storage))
    (hlt : ∀ k, k < maxLayers → step k = step 0)
    (hfull : ∃ f, step maxLayers s.world.storage = .error f) : s.NeedsOneLayer a := by
  obtain ⟨f, hf⟩ := hfull
  have hrefused : s.perform 255 a =
      (.refused f, { s with world := { s.world with calls := s.world.calls ++ calls } }) := by
    rw [ha, transact_eq, hop]
    show (Answer.ofUnit (s.world.settle calls (step maxLayers s.world.storage)).1,
      Session.mk s.env (s.world.settle calls (step maxLayers s.world.storage)).2) = _
    rw [hf]
    rfl
  refine ⟨fun k hk => ?_, ⟨f, by rw [hrefused]⟩, by rw [hrefused]⟩
  rw [ha, ha, transact_eq, transact_eq, hop, hop, hlt k (Nat.lt_of_le_of_lt hk (by decide))]

/-- Every ledger operation, asked for directly. -/
theorem needsOneLayer (s : Session) {a : Action} (ha : a.AsksLedger) : s.NeedsOneLayer a := by
  cases a with
  | mintCoins target coins =>
    exact needsOneLayer_of_settle (fun _ => rfl)
      (fun k w => Ledger.mintCoins_run s.env k target coins w)
      (fun k hk => by rw [Ledger.mintStep_of_lt hk]) ⟨_, Ledger.mintStep_of_full target coins _⟩
  | sendCoins sender receiver coins =>
    exact needsOneLayer_of_settle (fun _ => rfl)
      (fun k w => Ledger.sendCoins_run s.env k sender receiver coins w)
      (fun k hk => by rw [Ledger.sendStep_of_lt hk])
      ⟨_, Ledger.sendStep_of_full sender receiver coins _⟩
  | mintNative target coins =>
    exact needsOneLayer_of_settle (fun _ => rfl)
      (fun k w => Ledger.mintNative_run s.env.settings.currency k target coins w)
      (fun k hk => by rw [Ledger.mintNativeStep_of_lt hk]) ⟨.layerLimit, rfl⟩
  | sendNative sender receiver coins =>
    exact needsOneLayer_of_settle (fun _ => rfl)
      (fun k w => Ledger.sendNative_run s.env.settings.currency k sender receiver coins w)
      (fun k hk => by rw [Ledger.sendNativeStep_of_lt hk]) ⟨.layerLimit, rfl⟩
  | _ => exact absurd ha id

/-- **The limit on open layers.**  Up to 253 open layers a mint does the same at every depth, on
either ledger.  A request that passes the checks fails for want of a layer where 254 or 255 are
open: with 254 the ledger is asked once, to mint, and on a book that refuses mints that comes
first; with 255 it is not asked.  A request that does not pass them fails alike at every depth.
Ledger operations that are asked for directly need one layer and no more. -/
theorem nesting_limit (s : Session) :
    (∀ r k, s.NotedLike k r) ∧
    (∀ r k, k ≤ 253 → s.perform k (.mint r) = s.perform 0 (.mint r)) ∧
    (∀ r, s.Admits r →
      s.MintFails 255 r (.mintFailed r.denom .layerLimit) [] ∧
      s.MintFails 254 r (.mintFailed r.denom
        (if s.env.settings.ledger = .book ∧ s.env.switches.refuseMints = true then
          .mintingDisabled else .layerLimit)) [.mint]) ∧
    (∀ r, ¬ s.Admits r → ∃ e, ∀ k, s.MintFails k r e []) ∧
    ∀ a : Action, a.AsksLedger → s.NeedsOneLayer a := by
  refine ⟨fun r k => s.notedLike k r, fun r k => s.perform_mint_of_le r, fun r hadmits => ?_,
    fun r hrefused => ?_, fun a => s.needsOneLayer⟩
  · obtain ⟨c, hr⟩ := admits_iff.mp hadmits
    obtain ⟨-, -, -, -, -, -, -, hcoin⟩ := Mint.review_eq_ok_iff.mp hr
    constructor
    · refine mintFails_of_deliverOn hr ?_
      rw [hcoin]
      rfl
    · refine mintFails_of_deliverOn hr ?_
      unfold Mint.deliverOn
      rw [if_neg (by decide), show 254 + 1 = maxLayers from rfl, Ledger.mintStep_of_full, hcoin]
  · cases hr : Mint.review s.env r with
    | error e => exact ⟨e, fun k => mintFails_of_review hr⟩
    | ok c => exact absurd (admits_iff.mpr ⟨c, hr⟩) hrefused

/-- The native currency is asked to mint with 254 layers open, although it notes no call. -/
theorem asked_in_last_layer :
    Devnet.funded.MintFails 254 Devnet.request (.mintFailed Devnet.request.denom .layerLimit)
      [.mint] := by
  obtain ⟨-, -, hadmitted, -⟩ := nesting_limit Devnet.funded
  exact (hadmitted Devnet.request
    (admits_iff.mpr ⟨_, Devnet.review_funded Devnet.request.amount⟩)).2

end Session

end Mintage
