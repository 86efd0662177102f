import Mintage.Scale.Lemmas

/-!
# Readers of composite values

A reader made of readers reads encodings that stand one behind the other:

    Reads d enc P → (∀ x, Reads (f x) enc' (Q x)) → (∀ x v, Q x v → field v = x) →
      Reads (d >>= f) (fun v => enc (field v) ++ enc' v) …                  (Reads.bind)
    Reads d enc P → Reads (d.times n) (·.flatMap enc) …                     (Reads.times)

So a record is read field by field, and records one by one.  What a reader reads is exact
(`Exact`): it comes back whatever follows it, has one form, and cut short is nothing at all.

    Reads d enc P → (∀ x, enc x ≠ []) → Exact d enc P                       (Reads.exact)
-/

namespace Mintage.Scale

open Decoder

variable {α β : Type}

/-! ## Definitions -/

/-- Reads `n` values one after another. -/
def Decoder.times (d : Decoder α) : Nat → Decoder (List α)
  | 0 => pure []
  | n + 1 => do
    let x ← d
    let xs ← times d n
    pure (x :: xs)

/-- The encodings of the values in `P` are read back, and nothing else is read. -/
structure Exact (d : Decoder α) (enc : α → Bytes) (P : α → Prop) : Prop where
  decode_encode : ∀ x rest, P x → d (enc x ++ rest) = some (x, rest)
  eq_encode : ∀ bs x rest, d bs = some (x, rest) → P x ∧ bs = enc x ++ rest
  /-- Each value is read from one form only. -/
  unique : ∀ bs bs' x rest, d bs = some (x, rest) → d bs' = some (x, rest) → bs = bs'
  injective : ∀ x y, P x → P y → enc x = enc y → x = y
  /-- No encoding is the start of another. -/
  prefix_free : ∀ x y, P x → P y → enc x <+: enc y → enc x = enc y
  /-- An encoding that is cut short is not read. -/
  truncated : ∀ x bs, P x → bs <+: enc x → bs ≠ enc x → d bs = none
  /-- Encodings in a row are read one by one. -/
  one_by_one : ∀ (xs : List α) (rest : Bytes), (∀ x ∈ xs, P x) →
    d.times xs.length (xs.flatMap enc ++ rest) = some (xs, rest)
  /-- Encodings in a row tell how many they are, and which. -/
  unambiguous : ∀ xs ys : List α, (∀ x ∈ xs, P x) → (∀ y ∈ ys, P y) →
    xs.flatMap enc = ys.flatMap enc → xs = ys

namespace Reads

variable {d : Decoder α} {enc : α → Bytes} {P : α → Prop}

/-! ## Readers made of readers -/

theorem of_pure (v : α) : Reads (pure v : Decoder α) (fun _ => []) (· = v) := by
  intro bs x rest
  exact pure_eq_some_iff

theorem of_tag (t : UInt8) : Reads (tag? t) (fun _ => [t]) fun _ => True := by
  intro bs x rest
  rw [tag?_eq_some_iff, true_and]
  rfl

/-- One part, then the others, whose reader may look at it. -/
theorem bind {f : α → Decoder β} {enc' : β → Bytes} {Q : α → β → Prop} (field : β → α)
    (hd : Reads d enc P) (hf : ∀ x, Reads (f x) enc' (Q x)) (hfield : ∀ x v, Q x v → field v = x) :
    Reads (d >>= f) (fun v => enc (field v) ++ enc' v) fun v => P (field v) ∧ Q (field v) v := by
  intro bs v rest
  rw [bind_eq_some_iff]
  constructor
  · rintro ⟨x, mid, hx, hv⟩
    obtain ⟨hP, rfl⟩ := (hd _ _ _).mp hx
    obtain ⟨hQ, rfl⟩ := (hf x _ _ _).mp hv
    obtain rfl := hfield x v hQ
    exact ⟨⟨hP, hQ⟩, (List.append_assoc _ _ _).symm⟩
  · rintro ⟨⟨hP, hQ⟩, rfl⟩
    refine ⟨field v, enc' v ++ rest, (hd _ _ _).mpr ⟨hP, List.append_assoc _ _ _⟩, ?_⟩
    exact (hf _ _ _ _).mpr ⟨hQ, rfl⟩

/-- A reader described in other words. -/
theorem congr {enc' : α → Bytes} {P' : α → Prop} (h : Reads d enc P)
    (henc : ∀ x, enc x = enc' x) (hP : ∀ x, P x ↔ P' x) : Reads d enc' P' := by
  intro bs x rest
  rw [h, hP, henc]

/-- A list is read value by value. -/
theorem times (h : Reads d enc P) (n : Nat) :
    Reads (d.times n) (List.flatMap enc) fun xs => xs.length = n ∧ ∀ x ∈ xs, P x := by
  induction n with
  | zero =>
    intro bs xs rest
    rw [Decoder.times, pure_eq_some_iff]
    constructor
    · rintro ⟨rfl, rfl⟩
      exact ⟨⟨rfl, fun x hx => absurd hx List.not_mem_nil⟩, rfl⟩
    · rintro ⟨⟨hlen, -⟩, rfl⟩
      obtain rfl := List.length_eq_zero_iff.mp hlen
      exact ⟨rfl, rfl⟩
  | succ n ih =>
    intro bs xs rest
    rw [Decoder.times, bind_eq_some_iff]
    constructor
    · rintro ⟨x, mid, hx, hxs⟩
      obtain ⟨xs', mid', hxs', hpure⟩ := bind_eq_some_iff.mp hxs
      obtain ⟨hP, rfl⟩ := (h _ _ _).mp hx
      obtain ⟨⟨hlen, hall⟩, rfl⟩ := (ih _ _ _).mp hxs'
      obtain ⟨rfl, rfl⟩ := pure_eq_some_iff.mp hpure
      refine ⟨⟨congrArg (· + 1) hlen, ?_⟩, ?_⟩
      · exact List.forall_mem_cons.mpr ⟨hP, hall⟩
      · rw [List.flatMap_cons, List.append_assoc]
    · rintro ⟨⟨hlen, hall⟩, rfl⟩
      cases xs with
      | nil => cases hlen
      | cons x xs =>
        obtain ⟨hP, hall⟩ := List.forall_mem_cons.mp hall
        refine ⟨x, xs.flatMap enc ++ rest, (h _ _ _).mpr ⟨hP, ?_⟩, ?_⟩
        · rw [List.flatMap_cons, List.append_assoc]
        · refine bind_eq_some_iff.mpr ⟨xs, rest, (ih _ _ _).mpr ⟨⟨?_, hall⟩, rfl⟩, ?_⟩
          · exact Nat.succ.inj hlen
          · exact pure_eq_some_iff.mpr ⟨rfl, rfl⟩

/-! ## What is read is exact -/

/-- Two encodings are told apart whatever follows them. -/
theorem append_inj (h : Reads d enc P) {x y : α} (hx : P x) (hy : P y) {rest rest' : Bytes}
    (heq : enc x ++ rest = enc y ++ rest') : x = y ∧ rest = rest' := by
  have hdx : d (enc x ++ rest) = some (x, rest) := (h _ _ _).mpr ⟨hx, rfl⟩
  have hdy : d (enc y ++ rest') = some (y, rest') := (h _ _ _).mpr ⟨hy, rfl⟩
  rw [heq, hdy] at hdx
  cases hdx
  exact ⟨rfl, rfl⟩

/-- The value whose encoding another one starts with is that other one's. -/
theorem eq_of_prefix (h : Reads d enc P) {x y : α} (hx : P x) (hy : P y)
    (hpre : enc x <+: enc y) : x = y := by
  obtain ⟨rest, hrest⟩ := hpre
  have heq : enc x ++ rest = enc y ++ [] := by rw [hrest, List.append_nil]
  exact (h.append_inj hx hy heq).1

theorem eq_none_of_truncated (h : Reads d enc P) {x : α} {bs : Bytes} (hx : P x)
    (hpre : bs <+: enc x) (hne : bs ≠ enc x) : d bs = none := by
  rw [Option.eq_none_iff_forall_ne_some]
  rintro ⟨y, rest⟩ hy
  obtain ⟨hP, hbs⟩ := (h _ _ _).mp hy
  -- The value that is read starts with its whole encoding, so it is the one cut short.
  obtain rfl : y = x := h.eq_of_prefix hP hx ((List.prefix_append _ rest).trans (hbs ▸ hpre))
  refine hne (hpre.eq_of_length_le ?_)
  rw [hbs, List.length_append]
  exact Nat.le_add_right _ _

/-- Encodings that have no empty one among them need no count. -/
theorem flatMap_inj (h : Reads d enc P) (hne : ∀ x, enc x ≠ []) {xs ys : List α}
    (hxs : ∀ x ∈ xs, P x) (hys : ∀ y ∈ ys, P y) (heq : xs.flatMap enc = ys.flatMap enc) :
    xs = ys := by
  induction xs generalizing ys with
  | nil =>
    cases ys with
    | nil => rfl
    | cons y ys =>
      rw [List.flatMap_cons, List.flatMap_nil] at heq
      exact absurd (List.append_eq_nil_iff.mp heq.symm).1 (hne y)
  | cons x xs ih =>
    cases ys with
    | nil =>
      rw [List.flatMap_cons, List.flatMap_nil] at heq
      exact absurd (List.append_eq_nil_iff.mp heq).1 (hne x)
    | cons y ys =>
      rw [List.forall_mem_cons] at hxs hys
      rw [List.flatMap_cons, List.flatMap_cons] at heq
      obtain ⟨rfl, hrest⟩ := h.append_inj hxs.1 hys.1 heq
      rw [ih hxs.2 hys.2 hrest]

/-- What is read is exact, unless something is written as no bytes. -/
theorem exact (h : Reads d enc P) (hne : ∀ x, enc x ≠ []) : Exact d enc P where
  decode_encode x rest hx := (h _ _ _).mpr ⟨hx, rfl⟩
  eq_encode bs x rest hd := (h _ _ _).mp hd
  unique bs bs' x rest hd hd' := by
    rw [((h _ _ _).mp hd).2, ((h _ _ _).mp hd').2]
  injective x y hx hy heq := h.eq_of_prefix hx hy (heq ▸ List.prefix_refl _)
  prefix_free x y hx hy hpre := congrArg enc (h.eq_of_prefix hx hy hpre)
  truncated x bs hx hpre hcut := h.eq_none_of_truncated hx hpre hcut
  one_by_one xs rest hall := (h.times xs.length _ _ _).mpr ⟨⟨rfl, hall⟩, rfl⟩
  unambiguous xs ys hxs hys heq := h.flatMap_inj hne hxs hys heq

end Reads

/-! ## Forms that are never empty -/

theorem compact_ne_nil (n : Nat) : compact n ≠ [] := by
  unfold compact
  split
  · exact List.cons_ne_nil _ _
  · split
    · exact List.cons_ne_nil _ _
    · split
      · exact List.cons_ne_nil _ _
      · exact List.cons_ne_nil _ _

/-- A vector has its length at least. -/
theorem vector_ne_nil (bs : Bytes) : vector bs ≠ [] :=
  List.append_ne_nil_of_left_ne_nil (compact_ne_nil _) _

end Mintage.Scale
