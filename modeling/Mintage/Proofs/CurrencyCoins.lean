import Mintage.Proofs.CoinLists
import Mintage.Proofs.NativeMint

/-!
# Lists of coins on the native currency

Zero coins are passed over.  The others are created or moved one after another, and each check
sees what the coins before it did.  What decides is nevertheless said of the list as a whole.

To be created, the coins must be of the currency, the sum must fit into the issuance and the
first coin must lift the target to the minimum, where the others find it:

    c.issuance < limit → ((∃ c', c.issueEach terms who coins = .ok c') ↔
      c.Issuable terms who coins)                                       (exists_issueEach_iff)

To be moved to another account, they must leave the sender the minimum until the last one is
taken.  Less than that is removed on the spot, and the next coin finds nothing:

    c.Sound terms → sender ≠ receiver → ((∃ c', c.moveEach terms sender receiver coins = .ok c') ↔
      c.Payable terms sender receiver coins)                       (Sound.exists_moveEach_iff)

The currencies that are reached are sound (`Session.currency_sound_of_reachable`).
-/

namespace Mintage

namespace Currency

/-! ## Definitions -/

/-- A coin of the currency, in its range. -/
structure Native (terms : CurrencyTerms) (coin : Coin) : Prop where
  denom_eq : coin.denom = terms.denom
  amount_lt : coin.amount.toNat < limit

/-- These coins can be created for one account. -/
structure Issuable (terms : CurrencyTerms) (c : Currency) (who : Account) (coins : List Coin) :
    Prop where
  native : ∀ coin ∈ coins, Native terms coin
  room : c.issuance + Coin.total coins < limit
  welcome : ∀ coin ∈ coins.head?, terms.minimum ≤ c.balance who + coin.amount.toNat

/-- Why a coin cannot be created after so much was. -/
def refusal? (c : Currency) (terms : CurrencyTerms) (who : Account) (before : Nat) (coin : Coin) :
    Option Fault :=
  let n := coin.amount.toNat
  if coin.denom ≠ terms.denom then some .unknownAsset
  else if limit ≤ n ∨ limit ≤ c.issuance + before + n then some .overflow
  else if c.balance who + before + n < terms.minimum then some .belowMinimum
  else none

/-- The first coin that cannot be created after those before it cannot for this reason. -/
def FirstRefusal (terms : CurrencyTerms) (c : Currency) (who : Account) (coins : List Coin)
    (f : Fault) : Prop :=
  ∃ before coin after, coins = before ++ coin :: after ∧ c.Issuable terms who before ∧
    c.refusal? terms who (Coin.total before) coin = some f

/-- These coins, none of them zero, can be moved from one account to another. -/
structure Payable (terms : CurrencyTerms) (c : Currency) (sender receiver : Account)
    (coins : List Coin) : Prop where
  native : ∀ coin ∈ coins, Native terms coin
  paid : Coin.total coins ≤ c.balance sender
  welcome : ∀ coin ∈ coins.head?, terms.minimum ≤ c.balance receiver + coin.amount.toNat
  kept : 2 ≤ coins.length → terms.minimum ≤ c.balance sender - Coin.total coins.dropLast

/-- `c'` is `c` with the coins moved and with what they left below the minimum removed. -/
structure Paid (terms : CurrencyTerms) (c c' : Currency) (sender receiver : Account)
    (coins : List Coin) : Prop where
  receiver_eq : c'.balance receiver = c.balance receiver + Coin.total coins
  sender_eq : c'.balance sender =
    if coins = [] ∨ terms.minimum ≤ c.balance sender - Coin.total coins then
      c.balance sender - Coin.total coins
    else 0
  issuance_eq : c'.issuance + (c.balance sender - Coin.total coins - c'.balance sender) =
    c.issuance
  other_eq : ∀ a, a ≠ sender → a ≠ receiver → c'.balance a = c.balance a

/-- A coin that an account can move to itself. -/
structure Returnable (terms : CurrencyTerms) (c : Currency) (who : Account) (coin : Coin) :
    Prop where
  denom_eq : coin.denom = terms.denom
  paid : coin.amount.toNat ≤ c.balance who
  room : c.balance who + coin.amount.toNat < limit
  welcome : terms.minimum ≤ c.balance who + coin.amount.toNat

variable {terms : CurrencyTerms} {c c₁ c₂ c' : Currency} {who sender receiver : Account}
  {coin : Coin} {coins : List Coin}

theorem issueAll_eq (c : Currency) (terms : CurrencyTerms) (who : Account) (coins : List Coin) :
    c.issueAll terms who coins = c.issueEach terms who (Coin.nonzero coins) := by
  unfold issueAll
  rw [Coin.filter_isZero]

theorem moveAll_eq (c : Currency) (terms : CurrencyTerms) (sender receiver : Account)
    (coins : List Coin) :
    c.moveAll terms sender receiver coins =
      c.moveEach terms sender receiver (Coin.nonzero coins) := by
  unfold moveAll
  rw [Coin.filter_isZero]

/-! ## Creating coins -/

theorem Credited.trans {n m : Nat} (h : c.Credited c₁ who n) (h' : c₁.Credited c₂ who m) :
    c.Credited c₂ who (n + m) where
  issuance_eq := by
    rw [h'.issuance_eq, h.issuance_eq, Nat.add_assoc]
  balance_eq a := by
    rw [h'.balance_eq, h.balance_eq]
    by_cases ha : a = who
    · rw [if_pos ha, if_pos ha, if_pos ha, Nat.add_assoc]
    · rw [if_neg ha, if_neg ha, if_neg ha]

theorem credited_endow (c : Currency) (who : Account) (n : Nat) :
    c.Credited (c.endow who n) who n :=
  ⟨rfl, balance_endow c who n⟩

/-- What a list creates is what its coins create. -/
theorem credited_of_issueEach (h : c.issueEach terms who coins = .ok c') :
    c.Credited c' who (Coin.total coins) := by
  induction coins generalizing c with
  | nil =>
    cases h
    exact credited_zero _ who
  | cons coin coins ih =>
    obtain ⟨c₁, hc, h⟩ := foldlM_cons_eq_ok_iff.mp h
    obtain ⟨-, -, hissue⟩ := issueCoin_eq_ok_iff.mp hc
    obtain ⟨-, -, rfl⟩ := issue_eq_ok_iff.mp hissue
    rw [Coin.total_cons]
    exact (credited_endow c who coin.amount.toNat).trans (ih h)

/-- A list can be created if its head can, and the rest after it.  The minimum is a matter of
the head alone. -/
theorem issuable_cons_iff :
    c.Issuable terms who (coin :: coins) ↔
      Native terms coin ∧ c.issuance + coin.amount.toNat < limit ∧
        terms.minimum ≤ c.balance who + coin.amount.toNat ∧
        (c.endow who coin.amount.toNat).Issuable terms who coins := by
  have hcredited := credited_endow c who coin.amount.toNat
  have hbalance := hcredited.balance_eq who
  rw [if_pos rfl] at hbalance
  constructor
  · intro h
    have hroom := h.room
    have hwelcome := h.welcome coin rfl
    rw [Coin.total_cons] at hroom
    refine ⟨h.native coin List.mem_cons_self, by omega, hwelcome,
      fun d hd => h.native d (List.mem_cons_of_mem _ hd), ?_, fun d _ => ?_⟩
    · rw [hcredited.issuance_eq]
      omega
    · rw [hbalance]
      omega
  · rintro ⟨hnative, -, hwelcome, hrest⟩
    have hroom := hrest.room
    rw [hcredited.issuance_eq] at hroom
    refine ⟨List.forall_mem_cons.mpr ⟨hnative, hrest.native⟩, ?_, fun d hd => ?_⟩
    · rw [Coin.total_cons]
      omega
    · cases hd
      exact hwelcome

theorem exists_issueEach_iff (h : c.issuance < limit) :
    (∃ c', c.issueEach terms who coins = .ok c') ↔ c.Issuable terms who coins := by
  induction coins generalizing c with
  | nil =>
    have hnil : c.Issuable terms who [] :=
      ⟨fun _ hd => (nomatch hd), h, fun _ hd => (nomatch hd)⟩
    exact ⟨fun _ => hnil, fun _ => ⟨c, rfl⟩⟩
  | cons coin coins ih =>
    rw [issuable_cons_iff]
    constructor
    · rintro ⟨c', hi⟩
      obtain ⟨c₁, hc, hi⟩ := foldlM_cons_eq_ok_iff.mp hi
      obtain ⟨hdenom, hamount, hissue⟩ := issueCoin_eq_ok_iff.mp hc
      obtain ⟨hroom, hwelcome, rfl⟩ := issue_eq_ok_iff.mp hissue
      exact ⟨⟨hdenom, hamount⟩, hroom, hwelcome, (ih hroom).mp ⟨c', hi⟩⟩
    · rintro ⟨hnative, hroom, hwelcome, hrest⟩
      obtain ⟨c', hi⟩ := (ih (c := c.endow who coin.amount.toNat) hroom).mpr hrest
      have hissue := issue_eq_ok_iff.mpr ⟨hroom, hwelcome, rfl⟩
      have hc := issueCoin_eq_ok_iff.mpr ⟨hnative.denom_eq, hnative.amount_lt, hissue⟩
      exact ⟨c', foldlM_cons_eq_ok_iff.mpr ⟨_, hc, hi⟩⟩

/-- A coin is refused for what was true of it before the credits that came first. -/
theorem Credited.issueCoin_eq_error_iff {n : Nat} (h : c.Credited c₁ who n) {f : Fault} :
    c₁.issueCoin terms who coin = .error f ↔ c.refusal? terms who n coin = some f := by
  rw [issueCoin_eq, h.issuance_eq, h.balance_eq, if_pos rfl]
  unfold refusal?
  dsimp only
  by_cases hforeign : coin.denom ≠ terms.denom
  · rw [if_pos hforeign, if_pos hforeign, Except.error.injEq, Option.some.injEq]
  rw [if_neg hforeign, if_neg hforeign]
  by_cases hover : limit ≤ coin.amount.toNat ∨ limit ≤ c.issuance + n + coin.amount.toNat
  · rw [if_pos hover, if_pos hover, Except.error.injEq, Option.some.injEq]
  rw [if_neg hover, if_neg hover]
  by_cases hlow : c.balance who + n + coin.amount.toNat < terms.minimum
  · rw [if_pos hlow, if_pos hlow, Except.error.injEq, Option.some.injEq]
  · rw [if_neg hlow, if_neg hlow]
    exact ⟨fun hf => (nomatch hf), fun hf => (nomatch hf)⟩

/-- A list fails by the first coin that is refused. -/
theorem issueEach_eq_error_iff (h : c.issuance < limit) {f : Fault} :
    c.issueEach terms who coins = .error f ↔ c.FirstRefusal terms who coins f := by
  unfold issueEach
  rw [foldlM_eq_error_iff]
  constructor
  · rintro ⟨before, coin, after, c₁, rfl, hbefore, hc⟩
    exact ⟨before, coin, after, rfl, (exists_issueEach_iff h).mp ⟨c₁, hbefore⟩,
      (credited_of_issueEach hbefore).issueCoin_eq_error_iff.mp hc⟩
  · rintro ⟨before, coin, after, rfl, hbefore, hc⟩
    obtain ⟨c₁, hbefore⟩ := (exists_issueEach_iff h).mpr hbefore
    exact ⟨before, coin, after, c₁, rfl, hbefore,
      (credited_of_issueEach hbefore).issueCoin_eq_error_iff.mpr hc⟩

/-! ## Moving coins to another account -/

/-- What is less than the minimum is no longer there. -/
theorem balance_shift_sender (c : Currency) (terms : CurrencyTerms) (hne : sender ≠ receiver)
    (n : Nat) :
    (c.shift terms sender receiver n).balance sender =
      if terms.minimum ≤ c.balance sender - n then c.balance sender - n else 0 := by
  rw [balance_shift, if_neg hne, if_pos rfl]
  unfold dust
  split <;> split <;> omega

theorem balance_shift_receiver (c : Currency) (terms : CurrencyTerms) (sender receiver : Account)
    (n : Nat) :
    (c.shift terms sender receiver n).balance receiver = c.balance receiver + n := by
  rw [balance_shift, if_pos rfl]

theorem issuance_shift_add (h : c.Sound terms) (hne : sender ≠ receiver) {n : Nat}
    (hle : n ≤ c.balance sender) :
    (c.shift terms sender receiver n).issuance +
        (c.balance sender - n - (c.shift terms sender receiver n).balance sender) =
      c.issuance := by
  have hheld := h.balance_le_issuance sender
  have hdust := dust_le terms (c.balance sender - n)
  rw [balance_shift, if_neg hne, if_pos rfl]
  show c.issuance - dust terms (c.balance sender - n) + _ = _
  omega

theorem Sound.moveCoin_eq_ok_iff (h : c.Sound terms) (hne : sender ≠ receiver) :
    c.moveCoin terms sender receiver coin = .ok c' ↔
      Native terms coin ∧ coin.amount.toNat ≤ c.balance sender ∧
        terms.minimum ≤ c.balance receiver + coin.amount.toNat ∧
        c' = c.shift terms sender receiver coin.amount.toNat := by
  rw [Currency.moveCoin_eq_ok_iff]
  constructor
  · rintro ⟨hdenom, hamount, hm⟩
    obtain ⟨hle, hwelcome, ⟨heq, -⟩ | ⟨-, rfl⟩⟩ := move_eq_ok hm
    · exact absurd heq hne
    · exact ⟨⟨hdenom, hamount⟩, hle, hwelcome, rfl⟩
  · rintro ⟨hnative, hle, hwelcome, rfl⟩
    refine ⟨hnative.denom_eq, hnative.amount_lt, ?_⟩
    rw [h.move_of_ne hne hle, if_neg (Nat.not_lt_of_le hwelcome)]

/-- Whoever can pay one more coin was left the minimum. -/
theorem minimum_le_of_payable_shift (hne : sender ≠ receiver) {n : Nat}
    (hpos : coin.amount.toNat ≠ 0)
    (h : (c.shift terms sender receiver n).Payable terms sender receiver (coin :: coins)) :
    terms.minimum ≤ c.balance sender - n := by
  by_contra hless
  have hpaid := h.paid
  rw [balance_shift_sender c terms hne, if_neg hless, Coin.total_cons] at hpaid
  omega

theorem payable_nil (terms : CurrencyTerms) (c : Currency) (sender receiver : Account) :
    c.Payable terms sender receiver [] where
  native _ hd := nomatch hd
  paid := Nat.zero_le _
  welcome _ hd := nomatch hd
  kept hlen := nomatch hlen

/-- What comes after the head can still be moved once the head was. -/
theorem Payable.tail (hne : sender ≠ receiver)
    (h : c.Payable terms sender receiver (coin :: coins)) :
    (c.shift terms sender receiver coin.amount.toNat).Payable terms sender receiver coins := by
  cases coins with
  | nil => exact payable_nil ..
  | cons d coins =>
    have hleft := balance_shift_sender c terms hne coin.amount.toNat
    have hpaid := h.paid
    have hwelcome := h.welcome coin rfl
    have hkept := h.kept (by simp)
    rw [Coin.total_cons] at hpaid
    rw [List.dropLast_cons_cons, Coin.total_cons] at hkept
    rw [if_pos (by omega)] at hleft
    refine ⟨fun e he => h.native e (List.mem_cons_of_mem _ he), ?_, fun e _ => ?_, fun _ => ?_⟩
    · rw [hleft]
      omega
    · rw [balance_shift_receiver]
      omega
    · rw [hleft]
      omega

/-- A coin can come before others that can be moved after it.  These show that it leaves the
minimum, which alone it need not. -/
theorem Payable.cons (hne : sender ≠ receiver) (hpos : ∀ d ∈ coins, d.amount.toNat ≠ 0)
    (hnative : Native terms coin) (hle : coin.amount.toNat ≤ c.balance sender)
    (hwelcome : terms.minimum ≤ c.balance receiver + coin.amount.toNat)
    (hrest : (c.shift terms sender receiver coin.amount.toNat).Payable terms sender receiver
      coins) : c.Payable terms sender receiver (coin :: coins) := by
  have hleft := balance_shift_sender c terms hne coin.amount.toNat
  have hpaid := hrest.paid
  refine ⟨List.forall_mem_cons.mpr ⟨hnative, hrest.native⟩, ?_, fun d hd => ?_, fun hlen => ?_⟩
  · rw [Coin.total_cons]
    split at hleft <;> omega
  · cases hd
    exact hwelcome
  · cases coins with
    | nil => exact absurd hlen (by simp)
    | cons d coins =>
      have hmin := minimum_le_of_payable_shift hne (hpos d List.mem_cons_self) hrest
      rw [if_pos hmin] at hleft
      rw [List.dropLast_cons_cons, Coin.total_cons]
      cases coins with
      | nil => exact hmin
      | cons e coins =>
        have hkept := hrest.kept (by simp)
        omega

/-- A list can be moved if its head can, and the rest after it. -/
theorem payable_cons_iff (hne : sender ≠ receiver) (hpos : ∀ d ∈ coins, d.amount.toNat ≠ 0) :
    c.Payable terms sender receiver (coin :: coins) ↔
      Native terms coin ∧ coin.amount.toNat ≤ c.balance sender ∧
        terms.minimum ≤ c.balance receiver + coin.amount.toNat ∧
        (c.shift terms sender receiver coin.amount.toNat).Payable terms sender receiver coins := by
  constructor
  · intro h
    have hpaid := h.paid
    rw [Coin.total_cons] at hpaid
    exact ⟨h.native coin List.mem_cons_self, by omega, h.welcome coin rfl, h.tail hne⟩
  · rintro ⟨hnative, hle, hwelcome, hrest⟩
    exact .cons hne hpos hnative hle hwelcome hrest

/-- The head is moved and then the rest. -/
theorem Paid.cons (h : c.Sound terms) (hne : sender ≠ receiver)
    (hle : coin.amount.toNat ≤ c.balance sender)
    (hmin : coins ≠ [] → terms.minimum ≤ c.balance sender - coin.amount.toNat)
    (hrest : (c.shift terms sender receiver coin.amount.toNat).Paid terms c' sender receiver
      coins) : c.Paid terms c' sender receiver (coin :: coins) := by
  have hissued := issuance_shift_add h hne hle
  have hleft := balance_shift_sender c terms hne coin.amount.toNat
  have hsender := hrest.sender_eq
  have hissuance := hrest.issuance_eq
  have hcons : coin :: coins ≠ [] := List.cons_ne_nil coin coins
  refine ⟨?_, ?_, ?_, fun a hs hr => ?_⟩
  · rw [hrest.receiver_eq, balance_shift_receiver, Coin.total_cons, Nat.add_assoc]
  · rw [Coin.total_cons, ← Nat.sub_sub, hsender]
    simp only [hcons, false_or]
    by_cases hnil : coins = []
    · subst hnil
      rw [if_pos (Or.inl rfl), hleft]
      rfl
    · rw [hleft, if_pos (hmin hnil)]
      simp only [hnil, false_or]
  · rw [Coin.total_cons, ← Nat.sub_sub]
    by_cases hnil : coins = []
    · subst hnil
      have htotal : Coin.total [] = 0 := rfl
      rw [if_pos (Or.inl rfl)] at hsender
      omega
    · rw [if_pos (hmin hnil)] at hleft
      omega
  · rw [hrest.other_eq a hs hr, balance_shift, if_neg hr, if_neg hs]

theorem Sound.exists_moveEach_iff (h : c.Sound terms) (hne : sender ≠ receiver)
    (hpos : ∀ d ∈ coins, d.amount.toNat ≠ 0) :
    (∃ c', c.moveEach terms sender receiver coins = .ok c') ↔
      c.Payable terms sender receiver coins := by
  induction coins generalizing c with
  | nil => exact ⟨fun _ => payable_nil .., fun _ => ⟨c, rfl⟩⟩
  | cons coin coins ih =>
    have hpos' := (List.forall_mem_cons.mp hpos).2
    rw [payable_cons_iff hne hpos']
    constructor
    · rintro ⟨c', hm⟩
      obtain ⟨c₁, hc, hm⟩ := foldlM_cons_eq_ok_iff.mp hm
      obtain ⟨hnative, hle, hwelcome, rfl⟩ := (h.moveCoin_eq_ok_iff hne).mp hc
      exact ⟨hnative, hle, hwelcome, (ih (h.shift hne hle hwelcome) hpos').mp ⟨c', hm⟩⟩
    · rintro ⟨hnative, hle, hwelcome, hrest⟩
      obtain ⟨c', hm⟩ := (ih (h.shift hne hle hwelcome) hpos').mpr hrest
      have hc := (h.moveCoin_eq_ok_iff hne).mpr ⟨hnative, hle, hwelcome, rfl⟩
      exact ⟨c', foldlM_cons_eq_ok_iff.mpr ⟨_, hc, hm⟩⟩

theorem Sound.paid_of_moveEach (h : c.Sound terms) (hne : sender ≠ receiver)
    (hpos : ∀ d ∈ coins, d.amount.toNat ≠ 0)
    (hm : c.moveEach terms sender receiver coins = .ok c') :
    c.Paid terms c' sender receiver coins := by
  induction coins generalizing c with
  | nil =>
    cases hm
    exact ⟨rfl, (if_pos (Or.inl rfl)).symm, by omega, fun _ _ _ => rfl⟩
  | cons coin coins ih =>
    have hpos' := (List.forall_mem_cons.mp hpos).2
    obtain ⟨c₁, hc, hm⟩ := foldlM_cons_eq_ok_iff.mp hm
    obtain ⟨-, hle, hwelcome, rfl⟩ := (h.moveCoin_eq_ok_iff hne).mp hc
    have hsound := h.shift hne hle hwelcome
    refine .cons h hne hle (fun hnil => ?_) (ih hsound hpos' hm)
    obtain ⟨d, coins, rfl⟩ := List.exists_cons_of_ne_nil hnil
    exact minimum_le_of_payable_shift hne (hpos' d List.mem_cons_self)
      ((hsound.exists_moveEach_iff hne hpos').mp ⟨c', hm⟩)

/-! ## Moving coins to oneself -/

theorem Sound.moveCoin_self_eq_ok_iff (h : c.Sound terms) :
    c.moveCoin terms who who coin = .ok c' ↔ c.Returnable terms who coin ∧ c' = c := by
  rw [Currency.moveCoin_eq_ok_iff]
  constructor
  · rintro ⟨hdenom, -, hm⟩
    obtain ⟨hle, -, -⟩ := move_eq_ok hm
    rw [h.move_self hle] at hm
    split at hm
    · cases hm
    · next hroom =>
      split at hm
      · cases hm
      · next hwelcome =>
        cases hm
        exact ⟨⟨hdenom, hle, Nat.lt_of_not_le hroom, Nat.le_of_not_lt hwelcome⟩, rfl⟩
  · rintro ⟨⟨hdenom, hle, hroom, hwelcome⟩, rfl⟩
    refine ⟨hdenom, by omega, ?_⟩
    rw [h.move_self hle, if_neg (Nat.not_le_of_lt hroom), if_neg (Nat.not_lt_of_le hwelcome)]

/-- To oneself each coin is moved from the whole balance. -/
theorem Sound.moveEach_self_eq_ok_iff (h : c.Sound terms) :
    c.moveEach terms who who coins = .ok c' ↔
      (∀ coin ∈ coins, c.Returnable terms who coin) ∧ c' = c := by
  induction coins with
  | nil =>
    constructor
    · intro hm
      cases hm
      exact ⟨fun _ hd => (nomatch hd), rfl⟩
    · rintro ⟨-, rfl⟩
      rfl
  | cons coin coins ih =>
    rw [List.forall_mem_cons, and_assoc, ← ih]
    constructor
    · intro hm
      obtain ⟨c₁, hc, hm⟩ := foldlM_cons_eq_ok_iff.mp hm
      obtain ⟨hreturned, heq⟩ := h.moveCoin_self_eq_ok_iff.mp hc
      rw [heq] at hm
      exact ⟨hreturned, hm⟩
    · rintro ⟨hreturned, hm⟩
      exact foldlM_cons_eq_ok_iff.mpr ⟨c, h.moveCoin_self_eq_ok_iff.mpr ⟨hreturned, rfl⟩, hm⟩

end Currency

namespace Ledger

variable {depth : Nat}

/-! ## Operations on the native currency -/

theorem mintNative_of_lt (terms : CurrencyTerms) (hd : depth < maxLayers) (target : Account)
    (coins : List Coin) (w : World) :
    mintNative terms depth target coins w =
      w.settle [] (w.storage.withCurrency
        (w.storage.currency.issueEach terms target (Coin.nonzero coins))) := by
  rw [mintNative_run]
  unfold mintNativeStep
  rw [layered_of_lt hd, Currency.issueAll_eq]

theorem sendNative_of_lt (terms : CurrencyTerms) (hd : depth < maxLayers)
    (sender receiver : Account) (coins : List Coin) (w : World) :
    sendNative terms depth sender receiver coins w =
      w.settle [] (w.storage.withCurrency
        (w.storage.currency.moveEach terms sender receiver (Coin.nonzero coins))) := by
  rw [sendNative_run]
  unfold sendNativeStep
  rw [layered_of_lt hd, Currency.moveAll_eq]

/-- Minting does not see the zero coins. -/
theorem mintNative_congr (terms : CurrencyTerms) (depth : Nat) (target : Account)
    {coins coins' : List Coin} (h : Coin.nonzero coins' = Coin.nonzero coins) :
    mintNative terms depth target coins' = mintNative terms depth target coins := by
  unfold mintNative
  rw [Coin.filter_isZero, Coin.filter_isZero, h]

end Ledger

/-! ## Coins of the development network -/

namespace Devnet

theorem sound_funded : funded.world.storage.currency.Sound nativeSettings.currency :=
  Session.currency_sound_of_reachable reachable_funded

/-- A coin of the network is one of its currency. -/
theorem native_coin {n : Amount} (h : n.toNat < Currency.limit) :
    Currency.Native nativeSettings.currency (coin n) :=
  ⟨rfl, h⟩

/-- A coin without a name. -/
def nameless (n : Amount) : Coin := ⟨[], n⟩

/-- The least amount that the currency does not have. -/
def tooMuch : Amount := ⟨Currency.limit, by decide⟩

end Devnet

namespace Ledger

/-! ## Top theorems -/

/-- **Creating a list of coins on the native currency.**  With a layer to spare it succeeds exactly
if the coins that are not zero are of the currency, the sum leaves the issuance in range and
the first of them lifts the target to the minimum; then the issuance and the target's balance rise
by the sum.  Otherwise it is undone, for the one reason that is against the first coin that cannot
be created after those before it.  Zero coins do not show, whatever they are called. -/
theorem native_mint_is_decided {terms : CurrencyTerms} {w : World}
    (h : w.storage.currency.Sound terms) {depth : Nat} (hd : depth < maxLayers)
    (target : Account) (coins : List Coin) :
    DecidedBy (mintNative terms depth target coins) w []
      (w.storage.currency.Issuable terms target (Coin.nonzero coins))
      (fun st => ∃ c, st = { w.storage with currency := c } ∧
        w.storage.currency.Credited c target (Coin.total coins) ∧ c.Sound terms)
      (fun f => ∀ e, w.storage.currency.FirstRefusal terms target (Coin.nonzero coins) e ↔
        e = f) ∧
    ∀ coins', Coin.nonzero coins' = Coin.nonzero coins →
      mintNative terms depth target coins' = mintNative terms depth target coins := by
  refine ⟨decidedBy_of_map (mintNative_of_lt terms hd target coins w)
    (Currency.exists_issueEach_iff h.issuance_lt) (fun c hi => ⟨c, rfl, ?_, ?_⟩)
    fun f hi e => ?_, fun coins' hz => mintNative_congr terms depth target hz⟩
  · rw [← Coin.total_nonzero]
    exact Currency.credited_of_issueEach hi
  · exact h.issueAll ((Currency.issueAll_eq ..).trans hi)
  · rw [← Currency.issueEach_eq_error_iff h.issuance_lt, hi, Except.error.injEq]
    exact eq_comm

/-- A foreign coin is refused as such though its amount is out of range like that of the coin
after it; a foreign zero coin is not. -/
theorem foreign_before_too_much :
    mintNative Devnet.nativeSettings.currency 254 (.filled 2)
        [Devnet.coin ⟨7, by decide⟩, Devnet.nameless Devnet.tooMuch,
          Devnet.coin Devnet.tooMuch] Devnet.funded.world =
      (.error .unknownAsset, Devnet.funded.world) ∧
    ∃ c, mintNative Devnet.nativeSettings.currency 254 (.filled 2)
        [Devnet.nameless ⟨0, by decide⟩, Devnet.coin ⟨7, by decide⟩] Devnet.funded.world =
      (.ok (), { Devnet.funded.world with
        storage := { Devnet.funded.world.storage with currency := c } }) ∧
      c.issuance = 13 ∧ c.balance (.filled 2) = 7 := by
  have hdecided := fun coins => (native_mint_is_decided Devnet.sound_funded
    (show 254 < maxLayers by decide) (.filled 2) coins).1
  have hseven := Devnet.native_coin (n := ⟨7, by decide⟩) (by decide)
  have hissuable : Devnet.funded.world.storage.currency.Issuable Devnet.nativeSettings.currency
      (.filled 2) [Devnet.coin ⟨7, by decide⟩] :=
    ⟨List.forall_mem_singleton.mpr hseven, by decide +kernel, by decide +kernel⟩
  constructor
  · obtain ⟨f, hrun, hwhy⟩ := (hdecided [Devnet.coin ⟨7, by decide⟩,
      Devnet.nameless Devnet.tooMuch, Devnet.coin Devnet.tooMuch]).of_not fun hcan => by
        have hforeign := (hcan.native (Devnet.nameless Devnet.tooMuch) (by decide)).denom_eq
        revert hforeign
        decide
    rw [List.append_nil, ← (hwhy .unknownAsset).mp ⟨[Devnet.coin ⟨7, by decide⟩],
      Devnet.nameless Devnet.tooMuch, [Devnet.coin Devnet.tooMuch], rfl, hissuable,
      by decide⟩] at hrun
    exact hrun
  · obtain ⟨_, hrun, c, rfl, hcredited, -⟩ :=
      (hdecided [Devnet.nameless ⟨0, by decide⟩, Devnet.coin ⟨7, by decide⟩]).of_can hissuable
    rw [List.append_nil] at hrun
    refine ⟨c, hrun, ?_, ?_⟩
    · rw [hcredited.issuance_eq]
      decide +kernel
    · rw [hcredited.balance_eq, if_pos rfl]
      decide +kernel

/-- **Moving a list of coins on the native currency.**  With a layer to spare it succeeds exactly
if the coins that are not zero are of the currency, the sender can pay the sum, the first of them
lifts the receiver to the minimum and the sender keeps the minimum until the last is taken.  Then
the sum is moved, and what it leaves the sender below the minimum is removed, from the issuance
too.  A sender that is the receiver needs for each coin that its balance can pay it and can
hold it besides, and nothing changes.  Otherwise it is undone. -/
theorem native_send_is_decided {terms : CurrencyTerms} {w : World}
    (h : w.storage.currency.Sound terms) {depth : Nat} (hd : depth < maxLayers)
    (sender receiver : Account) (coins : List Coin) :
    (sender ≠ receiver →
      DecidedBy (sendNative terms depth sender receiver coins) w []
        (w.storage.currency.Payable terms sender receiver (Coin.nonzero coins))
        (fun st => ∃ c, st = { w.storage with currency := c } ∧
          w.storage.currency.Paid terms c sender receiver (Coin.nonzero coins) ∧ c.Sound terms)
        (fun _ => True)) ∧
    (sender = receiver →
      DecidedBy (sendNative terms depth sender receiver coins) w []
        (∀ coin ∈ Coin.nonzero coins, w.storage.currency.Returnable terms sender coin)
        (· = w.storage) (fun _ => True)) := by
  constructor
  · intro hne
    have hpos : ∀ coin ∈ Coin.nonzero coins, coin.amount.toNat ≠ 0 := fun _ hc =>
      (Coin.mem_nonzero.mp hc).2
    exact decidedBy_of_map (sendNative_of_lt terms hd sender receiver coins w)
      (h.exists_moveEach_iff hne hpos)
      (fun c hm => ⟨c, rfl, h.paid_of_moveEach hne hpos hm,
        h.moveAll ((Currency.moveAll_eq ..).trans hm)⟩) fun _ _ => trivial
  · rintro rfl
    refine decidedBy_of_map (sendNative_of_lt terms hd sender sender coins w) ?_ ?_
      fun _ _ => trivial
    · simp only [h.moveEach_self_eq_ok_iff, exists_eq_right]
    · intro c hm
      rw [(h.moveEach_self_eq_ok_iff.mp hm).2]

/-- Of 6 coins 5 can be sent, and the last one is removed; 5 and 1 cannot.  To itself the account
can send 6 twice. -/
theorem five_of_six :
    (∃ f, sendNative Devnet.nativeSettings.currency 254 Devnet.settings.holding (.filled 2)
        [Devnet.coin ⟨5, by decide⟩, Devnet.coin ⟨1, by decide⟩] Devnet.funded.world =
      (.error f, Devnet.funded.world)) ∧
    (∃ c, sendNative Devnet.nativeSettings.currency 254 Devnet.settings.holding (.filled 2)
        [Devnet.coin ⟨5, by decide⟩] Devnet.funded.world =
      (.ok (), { Devnet.funded.world with
        storage := { Devnet.funded.world.storage with currency := c } }) ∧
      c.balance (.filled 2) = 5 ∧ c.balance Devnet.settings.holding = 0 ∧ c.issuance = 5) ∧
    sendNative Devnet.nativeSettings.currency 254 Devnet.settings.holding Devnet.settings.holding
        [Devnet.coin ⟨6, by decide⟩, Devnet.coin ⟨6, by decide⟩] Devnet.funded.world =
      (.ok (), Devnet.funded.world) := by
  have hdecided := native_send_is_decided Devnet.sound_funded (show 254 < maxLayers by decide)
    Devnet.settings.holding
  have hne : Devnet.settings.holding ≠ .filled 2 := by decide +kernel
  refine ⟨?_, ?_, ?_⟩
  · obtain ⟨f, hrun, -⟩ := ((hdecided (.filled 2) [Devnet.coin ⟨5, by decide⟩,
      Devnet.coin ⟨1, by decide⟩]).1 hne).of_not fun hcan => by
        have hkept := hcan.kept (by decide)
        revert hkept
        decide +kernel
    rw [List.append_nil] at hrun
    exact ⟨f, hrun⟩
  · have hfive := Devnet.native_coin (n := ⟨5, by decide⟩) (by decide)
    obtain ⟨_, hrun, c, rfl, hpaid, -⟩ :=
      ((hdecided (.filled 2) [Devnet.coin ⟨5, by decide⟩]).1 hne).of_can
        ⟨List.forall_mem_singleton.mpr hfive, by decide +kernel, by decide +kernel, by decide⟩
    rw [List.append_nil] at hrun
    have hsender : c.balance Devnet.settings.holding = 0 := by
      rw [hpaid.sender_eq]
      decide +kernel
    have hissuance := hpaid.issuance_eq
    have hleft : Devnet.funded.world.storage.currency.balance Devnet.settings.holding -
        Coin.total (Coin.nonzero [Devnet.coin ⟨5, by decide⟩]) = 1 := by decide +kernel
    have hissued : Devnet.funded.world.storage.currency.issuance = 6 := by decide +kernel
    refine ⟨c, hrun, ?_, hsender, by omega⟩
    rw [hpaid.receiver_eq]
    decide +kernel
  · have hsix : Devnet.funded.world.storage.currency.Returnable Devnet.nativeSettings.currency
        Devnet.settings.holding (Devnet.coin ⟨6, by decide⟩) :=
      ⟨rfl, by decide +kernel, by decide +kernel, by decide +kernel⟩
    obtain ⟨_, hrun, rfl⟩ := ((hdecided Devnet.settings.holding [Devnet.coin ⟨6, by decide⟩,
      Devnet.coin ⟨6, by decide⟩]).2 rfl).of_can
        (List.forall_mem_cons.mpr ⟨hsix, List.forall_mem_singleton.mpr hsix⟩)
    rw [List.append_nil] at hrun
    exact hrun

end Ledger

end Mintage
