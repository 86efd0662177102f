import Mintage.Call
import Mintage.Proofs.LedgerStep

/-!
# A mint as a step on the storage

Before the ledger a request is reviewed, which reads the environment alone (`review`).
A request that passes is delivered: minted into the holding account and sent on
(`deliver`).  The whole mint is these two, the event and the journal:

    mint env depth r w = Mint.outcome env depth r w                          (mint_run)
    review env r = .ok c ↔ the caller is the authority, the texts are in bounds, …
                                                                      (review_eq_ok_iff)

It is so with any two operations that take the steps of the ledger in use, whichever calls they
note (`mintOn_run`).  A dispatched call is a mint one layer deeper, of which it keeps the kind of
error only (`dispatch_run`).
-/

namespace Mintage

/-! ## Algorithm -/

/-- What a request that passed its review brings to the ledger. -/
structure Clearance where
  minter : Bytes
  recipient : Account
  coin : Coin

namespace Mint

/-- The text of the caller, or why it is turned away. -/
def minterText (env : Environment) (caller : Account) : Except MintError Bytes :=
  match Authority.verdict env caller with
  | .error d => .error (.unauthorized d.authority? caller d.cause?)
  | .ok a =>
    if env.settings.fitsAddress (env.settings.addressOf a) then .ok (env.settings.addressOf a)
    else .error (.unauthorized (some a) caller (some .authorityTextTooLong))

/-- All checks before the ledger, in order. -/
def review (env : Environment) (r : MintRequest) : Except MintError Clearance := do
  let minter ← minterText env r.caller
  let recipient ← r.recipientAccount env.settings
  let coin ← r.coin env.settings
  pure ⟨minter, recipient, coin⟩

/-- Mints a coin into the holding account and sends it on, in one layer; the ledger calls made
on the way, where the two operations note these, and the storage or the error. -/
def deliverOn (minting sending : List LedgerCall) (env : Environment) (depth : Nat)
    (recipient : Account) (c : Coin) (st : Storage) : List LedgerCall × Except MintError Storage :=
  if maxLayers ≤ depth then ([], .error (.mintFailed c.denom .layerLimit))
  else
    match Ledger.mintStep env (depth + 1) env.settings.holding [c] st with
    | .error f => (minting, .error (.mintFailed c.denom f))
    | .ok st' =>
      (minting ++ sending,
        (Ledger.sendStep env (depth + 1) env.settings.holding recipient [c] st').mapError
          (.transferFailed recipient ·))

/-- A delivery on the ledger in use, with the calls that it notes. -/
def deliver (env : Environment) (depth : Nat) (recipient : Account) (c : Coin) (st : Storage) :
    List LedgerCall × Except MintError Storage :=
  deliverOn (Ledger.mintCalls env) (Ledger.sendCalls env) env depth recipient c st

/-- The record of a request that was carried out. -/
def record (r : MintRequest) (minter : Bytes) : MintRecord :=
  ⟨minter, r.recipient, r.amount, r.denom⟩

/-- The event of a request that was carried out. -/
def event (r : MintRequest) (minter : Bytes) : Event :=
  .tokensMinted minter r.recipient r.amount r.denom

/-- The journal up to the end of the review. -/
def opening (env : Environment) (r : MintRequest) : List JournalEntry :=
  .reached .received r.amount r.denom :: Authority.reports env

/-- What a mint answers whose coins are delivered so, and the world that it leaves. -/
def outcomeOn (delivery : Account → Coin → Storage → List LedgerCall × Except MintError Storage)
    (env : Environment) (r : MintRequest) (w : World) : Except MintError MintRecord × World :=
  match review env r with
  | .error e => (.error e, { w with journal := w.journal ++ opening env r ++ [.aborted e] })
  | .ok cleared =>
    match delivery cleared.recipient cleared.coin w.storage with
    | (calls, .error e) =>
      (.error e, { w with
        calls := w.calls ++ calls
        journal := w.journal ++ opening env r ++ [.aborted e] })
    | (calls, .ok st) =>
      (.ok (record r cleared.minter), {
        storage := { st with events := st.events ++ [event r cleared.minter] }
        calls := w.calls ++ calls
        journal := w.journal ++ opening env r ++
          [.reached .emitting r.amount r.denom, .reached .completed r.amount r.denom] })

/-- What a mint on the ledger in use answers and the world that it leaves. -/
def outcome (env : Environment) (depth : Nat) (r : MintRequest) (w : World) :
    Except MintError MintRecord × World :=
  outcomeOn (deliver env depth) env r w

end Mint

/-- The operations take the steps of the ledger in use and note these calls. -/
structure Ledger.Operations.Notes (ops : Operations) (env : Environment)
    (minting sending : List LedgerCall) : Prop where
  mintCoins_run : ∀ depth target coins w, ops.mintCoins depth target coins w =
    w.settle minting (mintStep env depth target coins w.storage)
  sendCoins_run : ∀ depth sender receiver coins w, ops.sendCoins depth sender receiver coins w =
    w.settle sending (sendStep env depth sender receiver coins w.storage)

/-! ## Review -/

namespace Mint

theorem authorize_run (env : Environment) (caller : Account) (w : World) :
    authorize env caller w = (minterText env caller, w.tell (Authority.reports env)) := by
  unfold authorize minterText
  rw [Transaction.bind_run, Transaction.adapt_run, Authority.authorize_run]
  cases Authority.verdict env caller with
  | error d => rfl
  | ok a =>
    dsimp only [mapError_ok]
    by_cases hf : env.settings.fitsAddress (env.settings.addressOf a) = true
    · rw [if_pos hf, if_pos hf]
      rfl
    · rw [if_neg hf, if_neg hf]
      rfl

theorem minterText_eq_ok_iff {env : Environment} {caller : Account} {text : Bytes} :
    minterText env caller = .ok text ↔
      Authority.current env = .ok caller ∧ text = env.settings.addressOf caller ∧
        env.settings.fitsAddress text = true := by
  unfold minterText
  cases hv : Authority.verdict env caller with
  | error d =>
    have hno : Authority.current env ≠ .ok caller := by
      intro hcur
      rw [Authority.verdict_eq_ok_iff.mpr ⟨rfl, hcur⟩] at hv
      cases hv
    simp [hno]
  | ok a =>
    obtain ⟨rfl, hcur⟩ := Authority.verdict_eq_ok_iff.mp hv
    simp only [hcur, true_and]
    by_cases hf : env.settings.fitsAddress (env.settings.addressOf a) = true
    · rw [if_pos hf, Except.ok.injEq]
      constructor
      · rintro rfl
        exact ⟨rfl, hf⟩
      · rintro ⟨rfl, -⟩
        rfl
    · rw [if_neg hf]
      constructor
      · intro h
        cases h
      · rintro ⟨rfl, h⟩
        exact absurd h hf

end Mint

namespace MintRequest

theorem recipientAccount_eq_ok_iff {s : Settings} {r : MintRequest} {a : Account} :
    r.recipientAccount s = .ok a ↔
      s.account? r.recipient = some a ∧ s.fitsAddress r.recipient = true := by
  unfold recipientAccount
  cases s.account? r.recipient with
  | none => simp
  | some b =>
    by_cases hf : s.fitsAddress r.recipient = true
    · simp [hf]
    · simp [hf]

theorem coin_eq_ok_iff {s : Settings} {r : MintRequest} {c : Coin} :
    r.coin s = .ok c ↔
      Denom.isValid r.denom = true ∧ s.fitsDenom r.denom = true ∧ c = ⟨r.denom, r.amount⟩ := by
  unfold coin Coin.named?
  by_cases hv : Denom.isValid r.denom = true
  · by_cases hf : s.fitsDenom r.denom = true
    · simp [hv, hf, eq_comm]
    · simp [hv, hf]
  · simp [hv]

end MintRequest

namespace Mint

/-- A request passes its review exactly when every check holds, and then the clearance
is determined by the request. -/
theorem review_eq_ok_iff {env : Environment} {r : MintRequest} {c : Clearance} :
    review env r = .ok c ↔
      Authority.current env = .ok r.caller ∧
      env.settings.fitsAddress (env.settings.addressOf r.caller) = true ∧
      env.settings.account? r.recipient = some c.recipient ∧
      env.settings.fitsAddress r.recipient = true ∧
      Denom.isValid r.denom = true ∧ env.settings.fitsDenom r.denom = true ∧
      c.minter = env.settings.addressOf r.caller ∧ c.coin = ⟨r.denom, r.amount⟩ := by
  obtain ⟨minter, recipient, coin⟩ := c
  unfold review
  constructor
  · intro h
    cases hm : minterText env r.caller with
    | error e => rw [hm] at h; cases h
    | ok m =>
      cases hr : r.recipientAccount env.settings with
      | error e => rw [hm, hr] at h; cases h
      | ok a =>
        cases hc : r.coin env.settings with
        | error e => rw [hm, hr, hc] at h; cases h
        | ok k =>
          rw [hm, hr, hc] at h
          cases h
          obtain ⟨hcur, rfl, hfit⟩ := minterText_eq_ok_iff.mp hm
          obtain ⟨hacc, hfit'⟩ := MintRequest.recipientAccount_eq_ok_iff.mp hr
          obtain ⟨hval, hden, rfl⟩ := MintRequest.coin_eq_ok_iff.mp hc
          exact ⟨hcur, hfit, hacc, hfit', hval, hden, rfl, rfl⟩
  · rintro ⟨hcur, hfit, hacc, hfit', hval, hden, rfl, rfl⟩
    rw [minterText_eq_ok_iff.mpr ⟨hcur, rfl, hfit⟩,
      MintRequest.recipientAccount_eq_ok_iff.mpr ⟨hacc, hfit'⟩,
      MintRequest.coin_eq_ok_iff.mpr ⟨hval, hden, rfl⟩]
    rfl

/-- A request that fails its review fails one of the checks. -/
theorem review_error_inv {env : Environment} {r : MintRequest} {e : MintError}
    (h : review env r = .error e) :
    minterText env r.caller = .error e ∨ r.recipientAccount env.settings = .error e ∨
      r.coin env.settings = .error e := by
  unfold review at h
  cases hm : minterText env r.caller with
  | error e' =>
    rw [hm] at h
    cases h
    exact Or.inl rfl
  | ok text =>
    cases hr : r.recipientAccount env.settings with
    | error e' =>
      rw [hm, hr] at h
      cases h
      exact Or.inr (Or.inl rfl)
    | ok a =>
      cases hc : r.coin env.settings with
      | error e' =>
        rw [hm, hr, hc] at h
        cases h
        exact Or.inr (Or.inr rfl)
      | ok c =>
        rw [hm, hr, hc] at h
        cases h

/-! ## Delivery -/

theorem issueAndForward_run {ops : Ledger.Operations} {env : Environment}
    {minting sending : List LedgerCall} (h : ops.Notes env minting sending) (depth : Nat)
    (recipient : Account) (c : Coin) (w : World) :
    issueAndForward ops env depth recipient c w =
      w.settle (deliverOn minting sending env depth recipient c w.storage).1
        (deliverOn minting sending env depth recipient c w.storage).2 := by
  unfold issueAndForward deliverOn
  by_cases hd : maxLayers ≤ depth
  · rw [withLayer_of_full hd, if_pos hd]
    simp only [World.settle, List.append_nil]
  · rw [withLayer_of_lt (by omega), if_neg hd, Transaction.bind_run, Transaction.adapt_run,
      h.mintCoins_run]
    cases Ledger.mintStep env (depth + 1) env.settings.holding [c] w.storage with
    | error f => rfl
    | ok st =>
      dsimp only [World.settle, mapError_ok]
      rw [Transaction.adapt_run, h.sendCoins_run]
      dsimp only
      cases Ledger.sendStep env (depth + 1) env.settings.holding recipient [c] st with
      | error f => simp only [World.settle, mapError_error, List.append_assoc]
      | ok st' => simp only [World.settle, mapError_ok, List.append_assoc]

/-- A delivery succeeds when both its steps do, one layer deeper. -/
theorem deliver_eq_ok {env : Environment} {depth : Nat} {a : Account} {c : Coin}
    {st st' : Storage} {calls : List LedgerCall}
    (h : deliver env depth a c st = (calls, .ok st')) :
    calls = Ledger.mintCalls env ++ Ledger.sendCalls env ∧
      ∃ st₁, Ledger.mintStep env (depth + 1) env.settings.holding [c] st = .ok st₁ ∧
        Ledger.sendStep env (depth + 1) env.settings.holding a [c] st₁ = .ok st' := by
  unfold deliver deliverOn at h
  split at h
  · cases h
  · split at h
    · cases h
    · next st₁ hm =>
      cases hs : Ledger.sendStep env (depth + 1) env.settings.holding a [c] st₁ with
      | error f =>
        rw [hs] at h
        cases h
      | ok st₂ =>
        rw [hs] at h
        cases h
        exact ⟨rfl, st₁, hm, hs⟩

/-- A delivery fails for want of a layer, or in its first step, or in its second. -/
theorem deliver_error_inv {env : Environment} {depth : Nat} {a : Account} {c : Coin}
    {st : Storage} {calls : List LedgerCall} {e : MintError}
    (h : deliver env depth a c st = (calls, .error e)) :
    (e = .mintFailed c.denom .layerLimit ∧ calls = []) ∨
      (∃ f, Ledger.mintStep env (depth + 1) env.settings.holding [c] st = .error f ∧
        e = .mintFailed c.denom f ∧ calls = Ledger.mintCalls env) ∨
      ∃ f, e = .transferFailed a f ∧ calls = Ledger.mintCalls env ++ Ledger.sendCalls env := by
  unfold deliver deliverOn at h
  split at h
  · cases h
    exact Or.inl ⟨rfl, rfl⟩
  · split at h
    · next f hm =>
      cases h
      exact Or.inr (Or.inl ⟨f, hm, rfl, rfl⟩)
    · next st₁ _ =>
      cases hs : Ledger.sendStep env (depth + 1) env.settings.holding a [c] st₁ with
      | error f =>
        rw [hs] at h
        cases h
        exact Or.inr (Or.inr ⟨f, rfl, rfl⟩)
      | ok st₂ =>
        rw [hs] at h
        cases h

/-! ## The whole mint -/

/-- The stages up to completion, an error not yet reported. -/
theorem attempt_run {ops : Ledger.Operations} {env : Environment}
    {minting sending : List LedgerCall} (h : ops.Notes env minting sending) (depth : Nat)
    (r : MintRequest) (w : World) :
    attempt ops env depth r w =
      match review env r with
      | .error e => (.error e, w.tell (opening env r))
      | .ok cleared =>
        match deliverOn minting sending env depth cleared.recipient cleared.coin w.storage with
        | (calls, .error e) =>
          (.error e, { w.tell (opening env r) with calls := w.calls ++ calls })
        | (calls, .ok st) =>
          (.ok (record r cleared.minter), {
            storage := { st with events := st.events ++ [event r cleared.minter] }
            calls := w.calls ++ calls
            journal := w.journal ++ opening env r ++
              [.reached .emitting r.amount r.denom, .reached .completed r.amount r.denom] }) := by
  have hopen : World.tell { w with journal := w.journal ++ [.reached .received r.amount r.denom] }
      (Authority.reports env) = w.tell (opening env r) := by
    simp only [World.tell, opening, List.append_assoc, List.singleton_append]
  unfold attempt review
  simp only [Transaction.bind_run, Transaction.write_run, authorize_run, Transaction.lift_run,
    issueAndForward_run h, Transaction.deposit_run, Transaction.pure_run, hopen]
  cases minterText env r.caller with
  | error e => rfl
  | ok minter =>
    cases r.recipientAccount env.settings with
    | error e => rfl
    | ok recipient =>
      cases r.coin env.settings with
      | error e => rfl
      | ok coin =>
        dsimp only [bind, Except.bind, pure, Except.pure]
        rw [show (w.tell (opening env r)).storage = w.storage from rfl]
        rcases deliverOn minting sending env depth recipient coin w.storage with ⟨calls, e | st⟩
        · rfl
        · simp only [World.settle, World.tell, List.append_assoc, List.singleton_append]
          rfl

theorem mintOn_run {ops : Ledger.Operations} {env : Environment}
    {minting sending : List LedgerCall} (h : ops.Notes env minting sending) (depth : Nat)
    (r : MintRequest) (w : World) :
    mintOn ops env depth r w = outcomeOn (deliverOn minting sending env depth) env r w := by
  unfold mintOn outcomeOn
  rw [Transaction.tryCatch_run, attempt_run h]
  cases review env r with
  | error e => rfl
  | ok cleared =>
    dsimp only
    rcases deliverOn minting sending env depth cleared.recipient cleared.coin w.storage with
      ⟨calls, e | st⟩
    · rfl
    · rfl

end Mint

theorem Ledger.notes_inUse (env : Environment) :
    (inUse env).Notes env (mintCalls env) (sendCalls env) where
  mintCoins_run := mintCoins_run env
  sendCoins_run := sendCoins_run env

/-- A mint in full: its answer, the storage, the ledger calls and the journal. -/
theorem mint_run (env : Environment) (depth : Nat) (r : MintRequest) (w : World) :
    mint env depth r w = Mint.outcome env depth r w :=
  Mint.mintOn_run (Ledger.notes_inUse env) depth r w

namespace Mint

/-- A request that fails its review leaves only what the journal tells of it. -/
theorem mint_of_review_error {env : Environment} {r : MintRequest} {e : MintError}
    (hr : review env r = .error e) (depth : Nat) (w : World) :
    mint env depth r w = (.error e, w.tell (opening env r ++ [.aborted e])) := by
  rw [mint_run]
  unfold outcome outcomeOn
  rw [hr]
  simp only [World.tell, List.append_assoc]

/-- A request that passes its review is answered as its delivery ends. -/
theorem answer_of_deliver {env : Environment} {depth : Nat} {r : MintRequest} {w : World}
    {c : Clearance} {calls : List LedgerCall} {result : Except MintError Storage}
    (hr : review env r = .ok c)
    (hd : deliver env depth c.recipient c.coin w.storage = (calls, result)) :
    (mint env depth r w).1 = result.map fun _ => record r c.minter := by
  rw [mint_run]
  unfold outcome outcomeOn
  rw [hr]
  dsimp only
  rw [hd]
  cases result with
  | error e => rfl
  | ok st => rfl

/-- A delivery that succeeds is followed by its event. -/
theorem storage_of_deliver {env : Environment} {depth : Nat} {r : MintRequest} {w : World}
    {c : Clearance} {calls : List LedgerCall} {st : Storage} (hr : review env r = .ok c)
    (hd : deliver env depth c.recipient c.coin w.storage = (calls, .ok st)) :
    (mint env depth r w).2.storage = { st with events := st.events ++ [event r c.minter] } := by
  rw [mint_run]
  unfold outcome outcomeOn
  rw [hr]
  dsimp only
  rw [hd]

/-- A mint that fails keeps the storage and ends where the review or the delivery did. -/
theorem mint_error_inv {env : Environment} {depth : Nat} {r : MintRequest} {w w' : World}
    {e : MintError} (h : mint env depth r w = (.error e, w')) :
    w'.storage = w.storage ∧ ∃ calls, w'.calls = w.calls ++ calls ∧
      ((review env r = .error e ∧ calls = []) ∨
        ∃ c, review env r = .ok c ∧
          deliver env depth c.recipient c.coin w.storage = (calls, .error e)) := by
  rw [mint_run] at h
  unfold outcome outcomeOn at h
  cases hr : review env r with
  | error e' =>
    rw [hr] at h
    cases h
    exact ⟨rfl, [], (List.append_nil _).symm, Or.inl ⟨rfl, rfl⟩⟩
  | ok c =>
    rw [hr] at h
    dsimp only at h
    rcases hd : deliver env depth c.recipient c.coin w.storage with ⟨calls, e' | st⟩
    · rw [hd] at h
      cases h
      exact ⟨rfl, calls, rfl, Or.inr ⟨c, rfl, hd⟩⟩
    · rw [hd] at h
      cases h

/-- A mint that succeeds passed its review, was delivered and left one event. -/
theorem mint_ok_inv {env : Environment} {depth : Nat} {r : MintRequest} {w w' : World}
    {rec : MintRecord} (h : mint env depth r w = (.ok rec, w')) :
    ∃ c calls st, review env r = .ok c ∧
      deliver env depth c.recipient c.coin w.storage = (calls, .ok st) ∧
      rec = record r c.minter ∧
      w'.storage = { st with events := st.events ++ [event r c.minter] } ∧
      w'.calls = w.calls ++ calls := by
  rw [mint_run] at h
  unfold outcome outcomeOn at h
  cases hr : review env r with
  | error e =>
    rw [hr] at h
    cases h
  | ok c =>
    rw [hr] at h
    dsimp only at h
    rcases hd : deliver env depth c.recipient c.coin w.storage with ⟨calls, e | st⟩
    · rw [hd] at h
      cases h
    · rw [hd] at h
      cases h
      exact ⟨c, calls, st, rfl, hd, rfl, rfl, rfl⟩

end Mint

/-! ## Calls -/

/-- Parts within their bounds make a call. -/
theorem MintCall.build_of_fits {s : Settings} {recipient denom : Bytes}
    (hr : recipient.length ≤ s.bounds.address) (hd : denom.length ≤ s.bounds.denom)
    (amount : Amount) : build s recipient amount denom = .ok ⟨recipient, amount, denom⟩ := by
  have hfit : s.fitsAddress recipient = true := decide_eq_true hr
  have hfit' : s.fitsDenom denom = true := decide_eq_true hd
  unfold build
  rw [hfit, hfit']
  rfl

/-- What is built as a call has the parts that it was built from. -/
theorem MintCall.build_eq_ok {s : Settings} {recipient denom : Bytes} {amount : Amount}
    {c : MintCall} (h : build s recipient amount denom = .ok c) :
    c = ⟨recipient, amount, denom⟩ := by
  unfold build at h
  split at h
  · cases h
  · split at h
    · cases h
    · cases h
      rfl

theorem Transaction.discard_run {ε α : Type} (t : Transaction ε α) (w : World) :
    (discard t : Transaction ε Unit) w = ((t w).1.map fun _ => (), (t w).2) := by
  have hmap : (discard t : Transaction ε Unit) = t >>= fun _ => pure () := by
    rw [bind_pure_comp]
    rfl
  rw [hmap, Transaction.bind_run]
  rcases t w with ⟨e | a, w'⟩
  · rfl
  · rfl

/-- A dispatched call is refused for want of a layer or of a signer, or is a mint one
layer deeper. -/
theorem dispatch_run (env : Environment) (depth : Nat) (origin : Origin) (c : MintCall)
    (w : World) :
    c.dispatch env depth origin w =
      if maxLayers ≤ depth then (.error (.fault .layerLimit), w)
      else
        match origin with
        | .signed caller =>
          (((mint env (depth + 1) (c.request caller) w).1.mapError fun e => .mint e.kind).map
            fun _ => (), (mint env (depth + 1) (c.request caller) w).2)
        | .root | .none => (.error (.fault .badOrigin), w) := by
  unfold MintCall.dispatch
  by_cases hd : maxLayers ≤ depth
  · rw [withLayer_of_full hd, if_pos hd]
  · rw [withLayer_of_lt (by omega), if_neg hd]
    cases origin with
    | root => rfl
    | none => rfl
    | signed caller =>
      dsimp only
      rw [Transaction.discard_run, Transaction.adapt_run]
      rcases hm : mint env (depth + 1) (c.request caller) w with ⟨e | rec, w'⟩
      · -- The mint has already undone its own work; the call's layer finds nothing more.
        have hst : w'.storage = w.storage := (Mint.mint_error_inv hm).1
        dsimp only [mapError_error, Except.map]
        rw [← hst]
      · rfl

end Mintage
