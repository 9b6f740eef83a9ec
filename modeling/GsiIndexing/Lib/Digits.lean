import Mathlib.Data.Nat.Digits.Lemmas
import Mathlib.Algebra.Order.Field.Power
import Mathlib.Data.Rat.Cast.Order
import Mathlib.Tactic.FieldSimp
import Mathlib.Tactic.Linarith
import Mathlib.Tactic.Positivity
import GsiIndexing.Lib.Lex

/-!
# Decimal digit strings

Text formats write a number most significant digit first; Mathlib's `Nat.digits` lists
them least significant first. This module works with the first convention:

* `Digits.value ds` is the natural number a digit list denotes, `Digits.ofNat n` the
  canonical list of `n` (with `[0]` for zero, as decimal printers do);
* two digit lists of the same length compare lexicographically as their values do, and
  the nines' complement `9 - d` reverses that order;
* `Digits.frac ds` is the fraction `0.d₁d₂…dₚ`; for lists without trailing zeros the
  lexicographic order with a proper prefix first is exactly the order of the fractions.

These are the arithmetic facts behind every decimal-text code whose byte order is meant to
be numeric order.
-/

namespace Digits

/-- The natural number denoted by a most-significant-first digit list. -/
def value (ds : List Nat) : Nat := Nat.ofDigits 10 ds.reverse

/-- All entries are decimal digits. -/
def AllDigits (ds : List Nat) : Prop := ∀ d ∈ ds, d < 10

@[simp] theorem value_nil : value [] = 0 := rfl

theorem value_append (a b : List Nat) :
    value (a ++ b) = value a * 10 ^ b.length + value b := by
  simp only [value, List.reverse_append, Nat.ofDigits_append, List.length_reverse]
  ring

theorem value_cons (d : Nat) (ds : List Nat) :
    value (d :: ds) = d * 10 ^ ds.length + value ds := by
  simpa [value] using value_append [d] ds

/-- Trailing zeros scale the value by a power of ten. -/
theorem value_append_replicate_zero (ds : List Nat) (k : Nat) :
    value (ds ++ List.replicate k 0) = value ds * 10 ^ k := by
  have hz : value (List.replicate k 0) = 0 := by
    induction k with
    | zero => rfl
    | succ k ih => simp [List.replicate_succ, value_cons, ih]
  rw [value_append, hz, List.length_replicate, Nat.add_zero]

theorem value_lt {ds : List Nat} (h : AllDigits ds) : value ds < 10 ^ ds.length := by
  have := Nat.ofDigits_lt_base_pow_length (b := 10) (l := ds.reverse) (by norm_num)
    (fun x hx => h x (List.mem_reverse.mp hx))
  simpa [value] using this

theorem AllDigits.cons {d : Nat} {ds : List Nat} (h : AllDigits (d :: ds)) : AllDigits ds :=
  fun x hx => h x (List.mem_cons_of_mem d hx)

theorem AllDigits.head {d : Nat} {ds : List Nat} (h : AllDigits (d :: ds)) : d < 10 :=
  h d List.mem_cons_self

/-! ## Canonical digits of a natural number -/

/-- The decimal digits of `n`, most significant first, with `[0]` for zero. -/
def ofNat (n : Nat) : List Nat := if n = 0 then [0] else (Nat.digits 10 n).reverse

@[simp] theorem value_ofNat (n : Nat) : value (ofNat n) = n := by
  unfold ofNat value
  split_ifs with h
  · simp [h]
  · simp [Nat.ofDigits_digits]

theorem allDigits_ofNat (n : Nat) : AllDigits (ofNat n) := by
  intro d hd
  unfold ofNat at hd
  split_ifs at hd
  · simp_all
  · exact Nat.digits_lt_base (by norm_num) (List.mem_reverse.mp hd)

theorem ofNat_ne_nil (n : Nat) : ofNat n ≠ [] := by
  unfold ofNat
  split_ifs with h
  · simp
  · simpa using Nat.digits_ne_nil_iff_ne_zero.mpr h

/-- The leading digit of a positive number is not zero. -/
theorem ofNat_head_ne_zero {n d : Nat} {ds : List Nat} (hn : n ≠ 0) (h : ofNat n = d :: ds) :
    d ≠ 0 := by
  unfold ofNat at h
  rw [if_neg hn] at h
  have hne : Nat.digits 10 n ≠ [] := Nat.digits_ne_nil_iff_ne_zero.mpr hn
  have hlast := Nat.getLast_digit_ne_zero 10 hn
  have hd : (Nat.digits 10 n).getLast hne = d := by
    rw [← List.head_reverse (List.reverse_ne_nil_iff.mpr hne)]
    simp [h]
  rwa [hd] at hlast

theorem ofNat_length_pos (n : Nat) : 0 < (ofNat n).length :=
  List.length_pos_iff.mpr (ofNat_ne_nil n)

theorem lt_pow_length_ofNat (n : Nat) : n < 10 ^ (ofNat n).length := by
  simpa using value_lt (allDigits_ofNat n)

theorem pow_length_ofNat_le {n : Nat} (hn : n ≠ 0) : 10 ^ ((ofNat n).length - 1) ≤ n := by
  unfold ofNat
  rw [if_neg hn, List.length_reverse]
  have hlen : 0 < (Nat.digits 10 n).length :=
    List.length_pos_iff.mpr (Nat.digits_ne_nil_iff_ne_zero.mpr hn)
  exact (Nat.lt_digits_length_iff (by norm_num) n).mp (by omega)

/-- A number below `10 ^ k` has at most `k` canonical digits. -/
theorem length_ofNat_le_of_lt {n k : Nat} (hk : 0 < k) (h : n < 10 ^ k) : (ofNat n).length ≤ k := by
  unfold ofNat
  split_ifs with hn
  · simpa [Nat.one_le_iff_ne_zero] using hk.ne'
  · rw [List.length_reverse]
    exact (Nat.digits_length_le_iff (by norm_num) n).mpr h

/-- Larger numbers never have fewer canonical digits. -/
theorem length_ofNat_mono {n m : Nat} (h : n ≤ m) : (ofNat n).length ≤ (ofNat m).length :=
  length_ofNat_le_of_lt (ofNat_length_pos m) (lt_of_le_of_lt h (lt_pow_length_ofNat m))

/-- Numbers whose canonical digit strings differ in length compare as the lengths do. -/
theorem compare_eq_compare_length {a b : Nat} (h : (ofNat a).length ≠ (ofNat b).length) :
    compare a b = compare (ofNat a).length (ofNat b).length := by
  rcases Nat.lt_or_gt_of_ne h with hlt | hlt
  · have hab : a < b := by
      by_contra hba
      exact absurd (length_ofNat_mono (not_lt.mp hba)) (by omega)
    rw [(compare_lt_iff_lt).mpr hab, (compare_lt_iff_lt).mpr hlt]
  · have hab : b < a := by
      by_contra hba
      exact absurd (length_ofNat_mono (not_lt.mp hba)) (by omega)
    rw [(compare_gt_iff_gt).mpr hab, (compare_gt_iff_gt).mpr hlt]

/-! ## Lexicographic order of equally long digit strings -/

/-- A leading digit decides between numbers whose remainders stay below its weight. -/
theorem compare_mul_add {d e a b w : Nat} (ha : a < w) (hb : b < w) :
    compare (d * w + a) (e * w + b) = (compare d e).then (compare a b) := by
  rcases lt_trichotomy d e with hde | rfl | hde
  · have h1 : d * w + a < e * w + b := by
      have : (d + 1) * w ≤ e * w := Nat.mul_le_mul_right w hde
      nlinarith
    rw [(compare_lt_iff_lt).mpr hde, (compare_lt_iff_lt).mpr h1]; rfl
  · rw [show compare d d = .eq from compare_eq_iff_eq.mpr rfl, Ordering.eq_then]
    rcases lt_trichotomy a b with hab | rfl | hab
    · rw [(compare_lt_iff_lt).mpr hab, (compare_lt_iff_lt).mpr (by omega)]
    · simp
    · rw [(compare_gt_iff_gt).mpr hab, (compare_gt_iff_gt).mpr (by omega)]
  · have h1 : e * w + b < d * w + a := by
      have : (e + 1) * w ≤ d * w := Nat.mul_le_mul_right w hde
      nlinarith
    rw [(compare_gt_iff_gt).mpr hde, (compare_gt_iff_gt).mpr h1]; rfl

/-- Digit strings of one length compare lexicographically exactly as their values. -/
theorem compare_eq_compare_value {ds es : List Nat} (hds : AllDigits ds) (hes : AllDigits es)
    (hlen : ds.length = es.length) : compare ds es = compare (value ds) (value es) := by
  induction ds generalizing es with
  | nil =>
    cases es with
    | nil => rfl
    | cons e es => simp at hlen
  | cons d ds ih =>
    cases es with
    | nil => simp at hlen
    | cons e es =>
      simp only [List.length_cons, Nat.add_right_cancel_iff] at hlen
      have hds' : value ds < 10 ^ es.length := hlen ▸ value_lt hds.cons
      rw [List.compare_cons_cons, ih hds.cons hes.cons hlen, value_cons, value_cons, hlen]
      exact (compare_mul_add hds' (value_lt hes.cons)).symm

/-- Canonical digit strings of one length compare as their numbers. -/
theorem compare_ofNat {a b : Nat} (h : (ofNat a).length = (ofNat b).length) :
    compare (ofNat a) (ofNat b) = compare a b := by
  rw [compare_eq_compare_value (allDigits_ofNat a) (allDigits_ofNat b) h, value_ofNat, value_ofNat]

/-- The nines' complement of a digit string. -/
def compl (ds : List Nat) : List Nat := ds.map (9 - ·)

theorem allDigits_compl (ds : List Nat) : AllDigits (compl ds) := by
  intro d hd
  simp only [compl, List.mem_map] at hd
  obtain ⟨x, -, rfl⟩ := hd
  omega

/-- Complementing equally long digit strings reverses their order. -/
theorem compare_compl {ds es : List Nat} (hds : AllDigits ds) (hes : AllDigits es)
    (hlen : ds.length = es.length) : compare (compl ds) (compl es) = compare es ds := by
  induction ds generalizing es with
  | nil =>
    cases es with
    | nil => rfl
    | cons e es => simp at hlen
  | cons d ds ih =>
    cases es with
    | nil => simp at hlen
    | cons e es =>
      simp only [List.length_cons, Nat.add_right_cancel_iff] at hlen
      have hd := hds.head
      have he := hes.head
      have hde : compare (9 - d) (9 - e) = compare e d := by
        rcases lt_trichotomy d e with h | rfl | h
        · rw [(compare_gt_iff_gt).mpr (by omega), (compare_gt_iff_gt).mpr h]
        · simp
        · rw [(compare_lt_iff_lt).mpr (by omega), (compare_lt_iff_lt).mpr h]
      have ih' := ih hds.cons hes.cons hlen
      simp only [compl, List.map_cons] at ih' ⊢
      rw [List.compare_cons_cons, List.compare_cons_cons, hde, ih']

/-! ## Fractions `0.d₁d₂…dₚ` -/

/-- The fraction `0.d₁d₂…dₚ` a digit string stands for after a decimal point. -/
def frac (ds : List Nat) : ℚ := value ds / 10 ^ ds.length

/-- The last digit, if any, is not zero. -/
def NoTrailingZero (ds : List Nat) : Prop := ∀ h : ds ≠ [], ds.getLast h ≠ 0

theorem NoTrailingZero.cons {d : Nat} {ds : List Nat} (h : NoTrailingZero (d :: ds)) :
    NoTrailingZero ds := by
  intro hne
  have := h (List.cons_ne_nil d ds)
  rwa [List.getLast_cons hne] at this

@[simp] theorem frac_nil : frac [] = 0 := by simp [frac]

theorem frac_cons (d : Nat) (ds : List Nat) : frac (d :: ds) = (d + frac ds) / 10 := by
  simp only [frac, value_cons, List.length_cons, Nat.cast_add, Nat.cast_mul, Nat.cast_pow, Nat.cast_ofNat,
    pow_succ]
  field_simp

theorem frac_nonneg (ds : List Nat) : 0 ≤ frac ds := by
  unfold frac; positivity

theorem frac_lt_one {ds : List Nat} (h : AllDigits ds) : frac ds < 1 := by
  unfold frac
  rw [div_lt_one (by positivity)]
  exact_mod_cast value_lt h

/-- A non-empty digit string without trailing zeros denotes a positive number. -/
theorem value_pos {ds : List Nat} (hne : ds ≠ []) (h : NoTrailingZero ds) : 0 < value ds := by
  have hsplit := List.dropLast_append_getLast hne
  have hlast := h hne
  rw [← hsplit, value_append]
  simp only [List.length_cons, List.length_nil, zero_add, pow_one, value_cons, value_nil,
    add_zero, pow_zero, mul_one]
  omega

/-- A digit before two fractions decides first. -/
theorem compare_digit_add_frac {d e : Nat} {x y : ℚ} (hx0 : 0 ≤ x) (hx1 : x < 1) (hy0 : 0 ≤ y)
    (hy1 : y < 1) : compare ((d + x) / 10) ((e + y) / 10) = (compare d e).then (compare x y) := by
  rcases lt_trichotomy d e with hde | rfl | hde
  · have hde' : (d : ℚ) + 1 ≤ e := by exact_mod_cast hde
    rw [(compare_lt_iff_lt).mpr hde, (compare_lt_iff_lt).mpr (by linarith)]; rfl
  · rw [show compare d d = .eq from compare_eq_iff_eq.mpr rfl, Ordering.eq_then]
    rcases lt_trichotomy x y with hxy | rfl | hxy
    · rw [(compare_lt_iff_lt).mpr hxy, (compare_lt_iff_lt).mpr (by linarith)]
    · simp
    · rw [(compare_gt_iff_gt).mpr hxy, (compare_gt_iff_gt).mpr (by linarith)]
  · have hed' : (e : ℚ) + 1 ≤ d := by exact_mod_cast hde
    rw [(compare_gt_iff_gt).mpr hde, (compare_gt_iff_gt).mpr (by linarith)]; rfl

/-- **Fraction order is lexicographic order.** For digit strings without trailing zeros,
comparing them lexicographically (a proper prefix first) compares the fractions
`0.d₁d₂…` they denote. -/
theorem compare_eq_compare_frac {ds es : List Nat} (hds : AllDigits ds) (hes : AllDigits es)
    (hds0 : NoTrailingZero ds) (hes0 : NoTrailingZero es) :
    compare ds es = compare (frac ds) (frac es) := by
  induction ds generalizing es with
  | nil =>
    cases es with
    | nil => simp
    | cons e es =>
      have hpos : 0 < frac (e :: es) := by
        unfold frac
        have := value_pos (List.cons_ne_nil e es) hes0
        positivity
      rw [List.compare_nil_cons, frac_nil, (compare_lt_iff_lt).mpr hpos]
  | cons d ds ih =>
    cases es with
    | nil =>
      have hpos : 0 < frac (d :: ds) := by
        unfold frac
        have := value_pos (List.cons_ne_nil d ds) hds0
        positivity
      rw [List.compare_cons_nil, frac_nil, (compare_gt_iff_gt).mpr hpos]
    | cons e es =>
      rw [List.compare_cons_cons, frac_cons, frac_cons,
        compare_digit_add_frac (frac_nonneg ds) (frac_lt_one hds.cons) (frac_nonneg es)
          (frac_lt_one hes.cons),
        ih hds.cons hes.cons hds0.cons hes0.cons]

/-- Negation reverses comparisons. -/
theorem compare_neg_neg {α : Type*} [AddCommGroup α] [LinearOrder α] [IsOrderedAddMonoid α]
    (a b : α) : compare (-a) (-b) = compare b a := by
  rcases lt_trichotomy a b with h | rfl | h
  · rw [(compare_gt_iff_gt).mpr (neg_lt_neg h), (compare_gt_iff_gt).mpr h]
  · simp
  · rw [(compare_lt_iff_lt).mpr (neg_lt_neg h), (compare_lt_iff_lt).mpr h]

section Signed

variable {α : Type*} [AddCommGroup α] [LinearOrder α] [IsOrderedAddMonoid α]

/-- A non-positive number against a non-negative one. -/
theorem compare_neg_left {p q : α} (hp : 0 ≤ p) (hq : 0 ≤ q) :
    compare (-p) q = if p = 0 ∧ q = 0 then .eq else .lt := by
  split_ifs with h
  · rw [h.1, h.2, neg_zero]
    simp
  · apply (compare_lt_iff_lt).mpr
    rcases not_and_or.mp h with h | h
    · exact (neg_neg_of_pos (lt_of_le_of_ne hp (Ne.symm h))).trans_le hq
    · exact (neg_nonpos.mpr hp).trans_lt (lt_of_le_of_ne hq (Ne.symm h))

/-- **Signs first.** Comparing signed magnitudes only needs the order of the magnitudes
and which of them are zero, so two families of magnitudes with the same order and the
same zeros compare alike under any signs. -/
theorem compare_signed {p q p' q' : α} (hp : 0 ≤ p) (hq : 0 ≤ q) (hp' : 0 ≤ p') (hq' : 0 ≤ q')
    (h : compare p q = compare p' q') (hp0 : p = 0 ↔ p' = 0) (hq0 : q = 0 ↔ q' = 0)
    (s s' : Bool) :
    compare (if s then -p else p) (if s' then -q else q) =
      compare (if s then -p' else p') (if s' then -q' else q') := by
  have hswap : ∀ a b : α, compare a b = (compare b a).swap := fun a b => Std.OrientedCmp.eq_swap
  cases s <;> cases s' <;> simp only [Bool.false_eq_true, if_false, if_true]
  · exact h
  · -- a magnitude against a negated one
    rw [hswap p, hswap p', compare_neg_left hq hp, compare_neg_left hq' hp']
    simp only [hp0, hq0]
  · rw [compare_neg_left hp hq, compare_neg_left hp' hq']
    simp only [hp0, hq0]
  · rw [compare_neg_neg, compare_neg_neg, hswap q, hswap q', h]

end Signed

/-! ## Significands and scientific notation -/

/-- The digits of a significand `0.d₁d₂…dₚ`: decimal digits, the first and the last of them
not zero. -/
structure Significand (ds : List Nat) : Prop where
  all_digits : AllDigits ds
  no_trailing_zero : NoTrailingZero ds
  head_ne_zero : ∃ d rest, ds = d :: rest ∧ d ≠ 0

theorem Significand.frac_mem {ds : List Nat} (h : Significand ds) :
    1 / 10 ≤ frac ds ∧ frac ds < 1 := by
  refine ⟨?_, frac_lt_one h.all_digits⟩
  obtain ⟨d, rest, rfl, hd⟩ := h.head_ne_zero
  rw [frac_cons]
  have h1 : (1 : ℚ) ≤ d := by exact_mod_cast Nat.one_le_iff_ne_zero.mpr hd
  have h2 := frac_nonneg rest
  linarith

theorem Significand.scaled_pos {ds : List Nat} (h : Significand ds) (x : Int) :
    0 < frac ds * 10 ^ x := by
  have := h.frac_mem.1
  have : (0 : ℚ) < 10 ^ x := by positivity
  positivity

/-- **Scientific notation orders by exponent first.** Numbers `f · 10 ^ x` with `f` in
`[1/10, 1)` compare by their exponents, and by their significands when those agree. -/
theorem compare_mul_zpow {f g : ℚ} (hf : 1 / 10 ≤ f ∧ f < 1) (hg : 1 / 10 ≤ g ∧ g < 1)
    (x y : Int) : compare (f * 10 ^ x) (g * 10 ^ y) = (compare x y).then (compare f g) := by
  -- a larger exponent wins: `f · 10 ^ x < 10 ^ x ≤ 10 ^ (y - 1) ≤ g · 10 ^ y`
  have key : ∀ {f g : ℚ} {x y : Int}, f < 1 → 1 / 10 ≤ g → x < y → f * 10 ^ x < g * 10 ^ y := by
    intro f g x y hf hg hxy
    have hpos : (0 : ℚ) < 10 ^ x := by positivity
    have hle : (10 : ℚ) ^ x ≤ 10 ^ (y - 1) := zpow_le_zpow_right₀ (by norm_num) (by omega)
    have hy : (10 : ℚ) ^ y = 10 ^ (y - 1) * 10 := by
      rw [← zpow_add_one₀ (by norm_num), sub_add_cancel]
    have hy1 : (0 : ℚ) < 10 ^ (y - 1) := by positivity
    calc f * 10 ^ x < 1 * 10 ^ x := by gcongr
      _ ≤ 10 ^ (y - 1) := by linarith
      _ = 1 / 10 * 10 ^ y := by rw [hy]; ring
      _ ≤ g * 10 ^ y := by gcongr
  rcases lt_trichotomy x y with hxy | rfl | hxy
  · rw [(compare_lt_iff_lt).mpr hxy, (compare_lt_iff_lt).mpr (key hf.2 hg.1 hxy)]
    rfl
  · have hpos : (0 : ℚ) < 10 ^ x := by positivity
    rw [show compare x x = .eq from compare_eq_iff_eq.mpr rfl, Ordering.eq_then]
    rcases lt_trichotomy f g with hfg | rfl | hfg
    · rw [(compare_lt_iff_lt).mpr hfg, (compare_lt_iff_lt).mpr (by gcongr)]
    · simp
    · rw [(compare_gt_iff_gt).mpr hfg, (compare_gt_iff_gt).mpr (by gcongr)]
  · rw [(compare_gt_iff_gt).mpr hxy, (compare_gt_iff_gt).mpr (key hg.2 hf.1 hxy)]
    rfl

end Digits
