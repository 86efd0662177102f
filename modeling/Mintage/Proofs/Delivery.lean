import Mintage.Proofs.BookMint
import Mintage.Proofs.CurrencyMint

/-!
# A mint that was carried out

A step that asks for a mint either fails and keeps the storage, or a delivery succeeded and
one event was appended (`minted_or_kept`); nothing else writes to the log
(`Effect.events_eq`).  On either ledger the delivery raises one balance (`held`) by the amount
and leaves all others:

    the currency is sound → (s.perform depth a).1.Minted →
      ∃ r who, s.Delivered (s.perform depth a).2 a r who              (delivered_of_minted)
-/

namespace Mintage

/-! ## Definitions -/

/-- What an account holds of a denomination on the ledger in use. -/
def Storage.held (settings : Settings) (st : Storage) (a : Account) (d : Bytes) : Nat :=
  match settings.ledger with
  | .book => st.book.balance a d
  | .native => if d = settings.currency.denom then st.currency.balance a else 0

/-- What a mint that was carried out has done, on either ledger: `s` is the session before
it, `s'` the one after it, `r` the request that it made and `who` the account that the
recipient names. -/
structure Session.Delivered (s s' : Session) (a : Action) (r : MintRequest) (who : Account) :
    Prop where
  requested : a.Requests s.env.settings r
  named : s.env.settings.account? r.recipient = some who
  env_eq : s'.env = s.env
  held_eq : ∀ b d, s'.world.storage.held s.env.settings b d =
    if b = who ∧ d = r.denom then s.world.storage.held s.env.settings b d + r.amount.toNat
    else s.world.storage.held s.env.settings b d
  events_eq : s'.world.storage.events = s.world.storage.events ++
    [.tokensMinted (s.env.settings.addressOf r.caller) r.recipient r.amount r.denom]

/-! ## Requests -/

/-- An action makes one request at most. -/
theorem Action.Requests.unique {s : Settings} {a : Action} {r r' : MintRequest}
    (h : a.Requests s r) (h' : a.Requests s r') : r = r' := by
  cases h with
  | mint => cases h'; rfl
  | call hb =>
    cases h' with
    | call hb' =>
      cases hb.symm.trans hb'
      rfl
  | callRaw hd =>
    cases h' with
    | callRaw hd' =>
      cases hd.symm.trans hd'
      rfl

/-- An action that makes a request asks for a mint. -/
theorem Action.Requests.asksMint {s : Settings} {a : Action} {r : MintRequest}
    (h : a.Requests s r) : a.AsksMint := by
  cases h with
  | mint => trivial
  | call => trivial
  | callRaw => trivial

/-- Asking for a mint changes nothing that mints read. -/
theorem Action.AsksMint.environment_eq {a : Action} (ha : a.AsksMint) (env : Environment) :
    a.environment env = env := by
  cases a with
  | mint r => rfl
  | call origin recipient amount denom => rfl
  | callRaw origin bytes => rfl
  | _ => exact absurd ha id

/-! ## Balances and log -/

namespace Ledger

variable {env : Environment} {depth : Nat} {st st' : Storage}

theorem events_of_mintStep {target : Account} {coins : List Coin}
    (h : mintStep env depth target coins st = .ok st') : st'.events = st.events := by
  rcases mintStep_eq_ok h with ⟨-, b, -, rfl⟩ | ⟨-, cur, -, rfl⟩
  · rfl
  · rfl

theorem events_of_sendStep {sender receiver : Account} {coins : List Coin}
    (h : sendStep env depth sender receiver coins st = .ok st') : st'.events = st.events := by
  rcases sendStep_eq_ok h with ⟨-, b, -, rfl⟩ | ⟨-, cur, -, rfl⟩
  · rfl
  · rfl

end Ledger

namespace Mint

/-- A delivery raises what the recipient holds and nothing else, also where coins are of
nothing or the recipient is the account that they pass through. -/
theorem held_of_deliver {env : Environment} {depth : Nat} {who : Account} {c : Coin}
    {st st' : Storage} {calls : List LedgerCall}
    (hsound : st.currency.Sound env.settings.currency)
    (h : deliver env depth who c st = (calls, .ok st')) (a : Account) (d : Bytes) :
    st'.held env.settings a d =
      if a = who ∧ d = c.denom then st.held env.settings a d + c.amount.toNat
      else st.held env.settings a d := by
  unfold Storage.held
  cases hl : env.settings.ledger with
  | book =>
    obtain ⟨-, rfl⟩ := deliver_on_book_ok hl h
    exact Book.balance_forward _ _ _ _ _ _ _
  | native =>
    obtain ⟨-, hdenom, cur, rfl, hcredited⟩ := deliver_on_native_ok hl hsound h
    dsimp only
    rw [hcredited.balance_eq]
    by_cases hd : d = env.settings.currency.denom
    · subst hd
      by_cases hw : a = who
      · by_cases hc : env.settings.currency.denom = c.denom
        · rw [if_pos rfl, if_pos hw, if_pos ⟨hw, hc⟩, if_pos rfl]
        · have h0 : c.amount.toNat = 0 := hdenom.resolve_right (Ne.symm hc)
          rw [if_pos rfl, if_pos hw, if_neg fun h => hc h.2, if_pos rfl, h0, Nat.add_zero]
      · rw [if_pos rfl, if_neg hw, if_neg fun h => hw h.1, if_pos rfl]
    · rw [if_neg hd, if_neg hd]
      split
      · next heq =>
        have h0 : c.amount.toNat = 0 := hdenom.resolve_right (heq.2 ▸ hd)
        rw [h0]
      · rfl

/-- The ledgers leave the log alone. -/
theorem events_of_deliver {env : Environment} {depth : Nat} {who : Account} {c : Coin}
    {st st' : Storage} {calls : List LedgerCall}
    (h : deliver env depth who c st = (calls, .ok st')) : st'.events = st.events := by
  obtain ⟨-, st₁, hm, hs⟩ := deliver_eq_ok h
  rw [Ledger.events_of_sendStep hs, Ledger.events_of_mintStep hm]

end Mint

/-! ## Steps -/

namespace Session

/-- The log grows by the event of a mint that passed its review, or not at all. -/
theorem Effect.events_eq {s : Session} {a : Action} {st : Storage} (he : s.Effect a st) :
    st.events = s.world.storage.events ∨
      ∃ r c, a.Requests s.env.settings r ∧ Mint.review s.env r = .ok c ∧
        st.events = s.world.storage.events ++ [Mint.event r c.minter] := by
  cases he with
  | keep => exact Or.inl rfl
  | endow => exact Or.inl rfl
  | mint hreq hr hd =>
    refine Or.inr ⟨_, _, hreq, hr, ?_⟩
    rw [← Mint.events_of_deliver hd]
  | mintCoins hm => exact Or.inl (Ledger.events_of_mintStep hm)
  | sendCoins hs => exact Or.inl (Ledger.events_of_sendStep hs)
  | mintNative hm =>
    obtain ⟨-, c, -, rfl⟩ := Ledger.mintNativeStep_eq_ok_iff.mp hm
    exact Or.inl rfl
  | sendNative hs =>
    obtain ⟨-, c, -, rfl⟩ := Ledger.sendNativeStep_eq_ok_iff.mp hs
    exact Or.inl rfl

/-- A dispatched call fails and keeps the storage, or it made its mint one layer deeper. -/
theorem dispatched_or_kept (depth : Nat) (origin : Origin) (c : MintCall) (s : Session)
    (answer : Except CallError Unit → Answer) (hok : (answer (.ok ())).Minted)
    (herr : ∀ e, ¬ (answer (.error e)).Minted) :
    (¬ (s.dispatch depth origin c answer).1.Minted ∧
      (s.dispatch depth origin c answer).2.world.storage = s.world.storage) ∨
    ((s.dispatch depth origin c answer).1.Minted ∧ ∃ caller rec, origin = .signed caller ∧
      mint s.env (depth + 1) (c.request caller) s.world =
        (.ok rec, (s.dispatch depth origin c answer).2.world)) := by
  rw [dispatch_eq, dispatch_run]
  by_cases hd : maxLayers ≤ depth
  · rw [if_pos hd]
    exact Or.inl ⟨herr _, rfl⟩
  · rw [if_neg hd]
    cases origin with
    | root => exact Or.inl ⟨herr _, rfl⟩
    | none => exact Or.inl ⟨herr _, rfl⟩
    | signed caller =>
      dsimp only
      rcases hm : mint s.env (depth + 1) (c.request caller) s.world with ⟨e | rec, w'⟩
      · exact Or.inl ⟨herr _, (Mint.mint_error_inv hm).1⟩
      · exact Or.inr ⟨hok, caller, rec, rfl, hm⟩

/-- A step that asks for a mint fails and keeps the storage, or made the mint that it
requests. -/
theorem minted_or_kept {a : Action} (ha : a.AsksMint) (depth : Nat) (s : Session) :
    (¬ (s.perform depth a).1.Minted ∧
      (s.perform depth a).2.world.storage = s.world.storage) ∨
    ((s.perform depth a).1.Minted ∧ ∃ depth' r rec, a.Requests s.env.settings r ∧
      mint s.env depth' r s.world = (.ok rec, (s.perform depth a).2.world)) := by
  cases a with
  | mint r =>
    rw [perform_mint]
    rcases hm : mint s.env depth r s.world with ⟨e | rec, w'⟩
    · exact Or.inl ⟨id, (Mint.mint_error_inv hm).1⟩
    · exact Or.inr ⟨trivial, depth, r, rec, .mint r, hm⟩
  | call origin recipient amount denom =>
    rw [perform_call]
    cases hb : MintCall.build s.env.settings recipient amount denom with
    | error part => exact Or.inl ⟨id, rfl⟩
    | ok c =>
      rcases dispatched_or_kept depth origin c s (.call c.encode) trivial (fun _ => id) with
        hkept | ⟨hminted, caller, rec, rfl, hm⟩
      · exact Or.inl hkept
      · exact Or.inr ⟨hminted, depth + 1, c.request caller, rec, .call hb, hm⟩
  | callRaw origin bytes =>
    rw [perform_callRaw]
    cases hd : MintCall.decode? s.env.settings.bounds bytes with
    | none => exact Or.inl ⟨id, rfl⟩
    | some cr =>
      obtain ⟨c, rest⟩ := cr
      rcases dispatched_or_kept depth origin c s (.rawCall c rest.length) trivial
        (fun _ => id) with hkept | ⟨hminted, caller, rec, rfl, hm⟩
      · exact Or.inl hkept
      · exact Or.inr ⟨hminted, depth + 1, c.request caller, rec, .callRaw hd, hm⟩
  | _ => exact absurd ha id

/-- **A mint that was carried out** raised what one account holds and left one event. -/
theorem delivered_of_minted {s : Session}
    (hsound : s.world.storage.currency.Sound s.env.settings.currency) {a : Action}
    (ha : a.AsksMint) {depth : Nat} (h : (s.perform depth a).1.Minted) :
    ∃ r who, s.Delivered (s.perform depth a).2 a r who := by
  rcases minted_or_kept ha depth s with ⟨hnot, -⟩ | ⟨-, depth', r, rec, hreq, hm⟩
  · exact absurd h hnot
  · obtain ⟨c, calls, st, hr, hd, -, hst, -⟩ := Mint.mint_ok_inv hm
    obtain ⟨-, -, hwho, -, -, -, hminter, hcoin⟩ := Mint.review_eq_ok_iff.mp hr
    have hheld := Mint.held_of_deliver hsound hd
    rw [hcoin] at hheld
    refine ⟨r, c.recipient, hreq, hwho, ?_, ?_, ?_⟩
    · rw [perform_env, ha.environment_eq]
    · intro b d
      rw [hst]
      exact hheld b d
    · rw [hst, ← hminter, ← Mint.events_of_deliver hd]
      rfl

end Session

end Mintage
