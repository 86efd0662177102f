/-!
# Positional numerals

Digit lists in any base, most significant digit first.

    value b (digits b n) = n                                    (value_digits)
    ds in base b, no leading zero → digits b (value b ds) = ds  (digits_value)
    ds in base b → convert c b (convert b c ds) = ds            (convert_convert)

`convert` writes a numeral in another base and keeps each leading zero.
-/

namespace Mintage.Radix

/-! ## Algorithm -/

/-- The number that base-`b` digits denote. -/
def value (b : Nat) (ds : List Nat) : Nat := ds.foldl (fun n d => b * n + d) 0

/-- The digits of `n`, least significant first, at most `fuel` of them. -/
def digitsUpTo (b : Nat) : Nat → Nat → List Nat
  | 0, _ => []
  | fuel + 1, n => if n = 0 then [] else n % b :: digitsUpTo b fuel (n / b)

/-- The base-`b` digits of `n` without leading zero; zero has none. -/
def digits (b n : Nat) : List Nat := (digitsUpTo b n n).reverse

/-- The same numeral in base `c`; each leading zero stays one leading zero. -/
def convert (b c : Nat) (ds : List Nat) : List Nat :=
  ds.takeWhile (· == 0) ++ digits c (value b ds)

/-! ## Lemmas -/

@[simp] theorem value_nil (b : Nat) : value b [] = 0 := rfl

theorem value_append_singleton (b : Nat) (ds : List Nat) (d : Nat) :
    value b (ds ++ [d]) = b * value b ds + d := by
  simp [value]

theorem digits_zero (b : Nat) : digits b 0 = [] := rfl

/-- More fuel than the number asks for changes nothing. -/
theorem digitsUpTo_eq {b : Nat} (hb : 2 ≤ b) {fuel n : Nat} (h : n ≤ fuel) :
    digitsUpTo b fuel n = digitsUpTo b n n := by
  induction fuel using Nat.strongRecOn generalizing n with
  | _ fuel ih =>
    cases fuel with
    | zero => obtain rfl : n = 0 := by omega
              rfl
    | succ fuel =>
      cases n with
      | zero => simp [digitsUpTo]
      | succ n =>
        have hlt : (n + 1) / b < n + 1 := Nat.div_lt_self (by omega) (by omega)
        simp only [digitsUpTo, Nat.add_one_ne_zero, if_false]
        by_cases hn : n = fuel
        · rw [hn]
        · rw [ih fuel (by omega) (by omega), ih n (by omega) (by omega)]

/-- The digits of a positive number are those of its quotient, then its remainder. -/
theorem digits_of_pos {b n : Nat} (hb : 2 ≤ b) (hn : 0 < n) :
    digits b n = digits b (n / b) ++ [n % b] := by
  obtain ⟨m, rfl⟩ : ∃ m, n = m + 1 := ⟨n - 1, by omega⟩
  have hlt : (m + 1) / b < m + 1 := Nat.div_lt_self (by omega) (by omega)
  simp only [digits, digitsUpTo, Nat.add_one_ne_zero, if_false, List.reverse_cons]
  rw [digitsUpTo_eq hb (by omega)]

theorem value_digits {b : Nat} (hb : 2 ≤ b) (n : Nat) : value b (digits b n) = n := by
  induction n using Nat.strongRecOn with
  | _ n ih =>
    by_cases hn : n = 0
    · subst hn; rfl
    · rw [digits_of_pos hb (by omega), value_append_singleton,
        ih _ (Nat.div_lt_self (by omega) (by omega)), Nat.div_add_mod]

theorem lt_of_mem_digits {b : Nat} (hb : 2 ≤ b) {n d : Nat} (h : d ∈ digits b n) : d < b := by
  induction n using Nat.strongRecOn with
  | _ n ih =>
    by_cases hn : n = 0
    · subst hn; simp [digits_zero] at h
    · rw [digits_of_pos hb (by omega), List.mem_append, List.mem_singleton] at h
      rcases h with h | rfl
      · exact ih _ (Nat.div_lt_self (by omega) (by omega)) h
      · exact Nat.mod_lt _ (by omega)

theorem head?_digits_ne_zero {b : Nat} (hb : 2 ≤ b) (n : Nat) :
    (digits b n).head? ≠ some 0 := by
  induction n using Nat.strongRecOn with
  | _ n ih =>
    by_cases hn : n = 0
    · subst hn; simp [digits_zero]
    · have hd := digits_of_pos hb (show 0 < n by omega)
      by_cases hq : n / b = 0
      · rw [hd, hq, digits_zero]
        have := Nat.div_add_mod n b
        rw [hq] at this
        simp only [List.nil_append, List.head?_cons, ne_eq, Option.some.injEq]
        omega
      · rw [hd, List.head?_append]
        have h := ih (n / b) (Nat.div_lt_self (by omega) (by omega))
        cases hh : (digits b (n / b)).head? with
        | none =>
          have hv := value_digits hb (n / b)
          rw [List.head?_eq_none_iff.mp hh] at hv
          exact absurd hv.symm hq
        | some d => rw [hh] at h; exact h

theorem eq_nil_or_append_singleton (ds : List Nat) :
    ds = [] ∨ ∃ init d, ds = init ++ [d] := by
  rcases List.eq_nil_or_concat ds with h | ⟨init, d, h⟩
  · exact Or.inl h
  · exact Or.inr ⟨init, d, by rw [h, List.concat_eq_append]⟩

theorem head?_append_of_ne_nil {init : List Nat} (h : init ≠ []) (ds : List Nat) :
    (init ++ ds).head? = init.head? := by
  cases init with
  | nil => exact absurd rfl h
  | cons d init => rfl

/-- Without leading zero, a numeral denotes zero only if it is empty. -/
theorem value_pos {b : Nat} (hb : 0 < b) {ds : List Nat} (hne : ds ≠ [])
    (h0 : ds.head? ≠ some 0) : 0 < value b ds := by
  rcases eq_nil_or_append_singleton ds with rfl | ⟨init, d, rfl⟩
  · exact absurd rfl hne
  · rw [value_append_singleton]
    by_cases hi : init = []
    · subst hi
      have hd : d ≠ 0 := by simpa using h0
      omega
    · have hh : init.head? ≠ some 0 := by
        rwa [head?_append_of_ne_nil hi] at h0
      have ih := value_pos hb hi hh
      have := Nat.mul_pos hb ih
      omega
termination_by ds.length
decreasing_by subst_vars; simp

/-- A numeral without leading zero is the one that `digits` writes. -/
theorem digits_value {b : Nat} (hb : 2 ≤ b) {ds : List Nat} (h : ∀ d ∈ ds, d < b)
    (h0 : ds.head? ≠ some 0) : digits b (value b ds) = ds := by
  rcases eq_nil_or_append_singleton ds with rfl | ⟨init, d, rfl⟩
  · rfl
  · have hd : d < b := h d (by simp)
    have hpos : 0 < value b (init ++ [d]) := value_pos (by omega) (by simp) h0
    rw [digits_of_pos hb hpos, value_append_singleton]
    have hq : (b * value b init + d) / b = value b init := by
      rw [Nat.mul_add_div (by omega), Nat.div_eq_of_lt hd, Nat.add_zero]
    have hr : (b * value b init + d) % b = d := by
      rw [Nat.mul_add_mod, Nat.mod_eq_of_lt hd]
    rw [hq, hr]
    by_cases hi : init = []
    · subst hi; rfl
    · have hh : init.head? ≠ some 0 := by
        rwa [head?_append_of_ne_nil hi] at h0
      rw [digits_value hb (fun x hx => h x (by simp [hx])) hh]
termination_by ds.length
decreasing_by subst_vars; simp

/-! ## Change of base -/

theorem value_zeros_append (b : Nat) {zs : List Nat} (h : ∀ z ∈ zs, z = 0) (ds : List Nat) :
    value b (zs ++ ds) = value b ds := by
  induction zs with
  | nil => rfl
  | cons z zs ih =>
    obtain rfl : z = 0 := h z (by simp)
    have := ih fun x hx => h x (by simp [hx])
    simpa [value] using this

theorem takeWhile_zeros_append {zs ds : List Nat} (h : ∀ z ∈ zs, z = 0)
    (h0 : ds.head? ≠ some 0) : (zs ++ ds).takeWhile (· == 0) = zs := by
  induction zs with
  | nil =>
    cases ds with
    | nil => rfl
    | cons d ds =>
      have hd : (d == 0) = false := by simpa using h0
      simp [hd]
  | cons z zs ih =>
    obtain rfl : z = 0 := h z (by simp)
    have := ih fun x hx => h x (by simp [hx])
    simpa [List.takeWhile_cons] using this

theorem eq_zero_of_mem_takeWhile {ds : List Nat} {z : Nat} (h : z ∈ ds.takeWhile (· == 0)) :
    z = 0 := by
  have := List.all_eq_true.mp (List.all_takeWhile (p := (· == 0)) (l := ds)) z h
  simpa using this

theorem lt_of_mem_convert {b c : Nat} (hc : 2 ≤ c) {ds : List Nat} {d : Nat}
    (h : d ∈ convert b c ds) : d < c := by
  rcases List.mem_append.mp h with h | h
  · have := eq_zero_of_mem_takeWhile h
    omega
  · exact lt_of_mem_digits hc h

/-- Converting to another base and back gives the numeral again. -/
theorem convert_convert {b c : Nat} (hb : 2 ≤ b) (hc : 2 ≤ c) {ds : List Nat}
    (h : ∀ d ∈ ds, d < b) : convert c b (convert b c ds) = ds := by
  have hz : ∀ z ∈ ds.takeWhile (· == 0), z = 0 := fun z hz => eq_zero_of_mem_takeWhile hz
  have hsplit : ds.takeWhile (· == 0) ++ ds.dropWhile (· == 0) = ds := List.takeWhile_append_dropWhile
  have hval : value b ds = value b (ds.dropWhile (· == 0)) := by
    rw [← value_zeros_append b hz (ds.dropWhile (· == 0)), hsplit]
  have hhead : (ds.dropWhile (· == 0)).head? ≠ some 0 := by
    intro h0
    have := List.head?_dropWhile_not (· == 0) ds
    rw [h0] at this
    simp at this
  have hmem : ∀ d ∈ ds.dropWhile (· == 0), d < b := fun d hd =>
    h d ((List.dropWhile_sublist _).subset hd)
  unfold convert
  rw [takeWhile_zeros_append hz (head?_digits_ne_zero hc _), value_zeros_append c hz,
    value_digits hc, hval, digits_value hb hmem hhead, hsplit]

end Mintage.Radix
