import Mathlib.Data.Int.Log
import Mathlib.Data.Rat.Floor
import Mathlib.Algebra.Order.Field.Power
import Mathlib.Tactic.Linarith
import Mathlib.Tactic.Positivity
import Mathlib.Tactic.FieldSimp
import GsiIndexing.Lib.Digits

/-!
# Go's `float64` — finite binary64 values, rounding, shortest decimals

Go's `strconv` prints and parses `float64` by the IEEE-754 rules, and that behaviour is
what order-preserving number codes rest on. This module models it exactly over `ℚ`:

* `Float64` is a finite binary64 number as its bits hold it: the sign bit and the 63
  magnitude bits, read as a natural number `mag` below the all-ones exponent of `Inf`;
  its value is `units mag · 2⁻¹⁰⁷⁴`, and `units` is strictly increasing in the bits;
* `roundMag q` is the magnitude a non-negative rational rounds to (round to nearest, ties
  to an even fraction field), as `ParseFloat` rounds a decimal: a bisection for the first
  magnitude whose upper midpoint `q` does not pass;
* `shortest m` is the decimal `coef · 10 ^ exp` that `FormatFloat(f, 'e', -1, 64)` prints:
  the fewest significant digits that still round back to `m`, and among those the one
  nearest to the exact value (ties to an even last digit).

The two facts the codecs need are proved here: a decimal that `shortest` returns rounds
back (`roundMag_shortest`), and rounding is monotone (`roundMag_mono`).
-/

namespace Go

/-- The sign-free bit pattern of `+Inf`: magnitudes below it are the finite `float64`s. -/
def infMag : Nat := 0x7FF0000000000000

/-- A finite IEEE-754 binary64 number as Go's `float64` holds it: the sign bit and the 63
other bits (biased exponent and fraction) read as a natural number. Infinities and NaNs,
whose exponent field is all ones, are excluded by `mag_lt`. -/
structure Float64 where
  sign : Bool
  mag : Nat
  mag_lt : mag < infMag
  deriving DecidableEq

namespace Float64

/-- The value of the magnitude bits `m` in units of the least subnormal `2⁻¹⁰⁷⁴`: the
fraction field for subnormals; the fraction with its hidden bit, shifted by the exponent
field less one, for normal numbers. -/
def units (m : Nat) : Nat :=
  if m / 2 ^ 52 = 0 then m % 2 ^ 52 else (2 ^ 52 + m % 2 ^ 52) * 2 ^ (m / 2 ^ 52 - 1)

/-- The exact value of the magnitude bits `m`. -/
def magValue (m : Nat) : ℚ := (units m : ℚ) / 2 ^ 1074

/-- The exact value of a finite `float64`; both zeros are `0`. -/
def value (f : Float64) : ℚ := if f.sign then -magValue f.mag else magValue f.mag

/-- Go's conversion `int(f)`: the value truncated toward zero. Where that does not fit a
64-bit `int` the Go specification leaves the result to the implementation, and amd64
yields `-2^63`. -/
def toInt (f : Float64) : Int :=
  let t := if f.sign then -⌊magValue f.mag⌋ else ⌊magValue f.mag⌋
  if -2 ^ 63 ≤ t ∧ t < 2 ^ 63 then t else -2 ^ 63

/-- `units` read off the exponent field `q` and the fraction field `r`. -/
theorem units_eq (q r : Nat) (hr : r < 2 ^ 52) :
    units (q * 2 ^ 52 + r) = if q = 0 then r else (2 ^ 52 + r) * 2 ^ (q - 1) := by
  have hdiv : (q * 2 ^ 52 + r) / 2 ^ 52 = q := by
    rw [Nat.add_comm, Nat.add_mul_div_right _ _ (by positivity), Nat.div_eq_of_lt hr, zero_add]
  have hmod : (q * 2 ^ 52 + r) % 2 ^ 52 = r := by
    rw [Nat.add_comm, Nat.add_mul_mod_self_right, Nat.mod_eq_of_lt hr]
  simp only [units, hdiv, hmod]

/-- The next bit pattern is the next larger value, across binade boundaries too. -/
theorem units_lt_succ (m : Nat) : units m < units (m + 1) := by
  have hm : m = m / 2 ^ 52 * 2 ^ 52 + m % 2 ^ 52 := (Nat.div_add_mod' m (2 ^ 52)).symm
  have hr := Nat.mod_lt m (show 0 < 2 ^ 52 by positivity)
  set q := m / 2 ^ 52
  set r := m % 2 ^ 52
  by_cases hlast : r + 1 < 2 ^ 52
  · -- same binade: the fraction field grows by one
    have hm1 : m + 1 = q * 2 ^ 52 + (r + 1) := by omega
    rw [hm1, hm, units_eq q r hr, units_eq q (r + 1) hlast]
    split_ifs
    · omega
    · exact Nat.mul_lt_mul_of_pos_right (by omega) (by positivity)
  · -- the fraction field wraps to zero and the exponent field grows by one
    have hr' : r = 2 ^ 52 - 1 := by omega
    have hm1 : m + 1 = (q + 1) * 2 ^ 52 + 0 := by omega
    rw [hm1, hm, units_eq q r hr, units_eq (q + 1) 0 (by positivity), hr']
    simp only [Nat.add_eq_zero_iff, one_ne_zero, and_false, if_false, add_zero,
      Nat.add_sub_cancel]
    split_ifs with hq
    · simp [hq]
    · have hpow : 2 ^ q = 2 * 2 ^ (q - 1) := by
        rw [← pow_succ']; congr 1; omega
      rw [hpow]
      have h52 : (2 : Nat) ^ 52 + (2 ^ 52 - 1) < 2 ^ 52 * 2 := by norm_num
      calc (2 ^ 52 + (2 ^ 52 - 1)) * 2 ^ (q - 1) < 2 ^ 52 * 2 * 2 ^ (q - 1) :=
            Nat.mul_lt_mul_of_pos_right h52 (by positivity)
        _ = 2 ^ 52 * (2 * 2 ^ (q - 1)) := by ring

theorem units_strictMono : StrictMono units := strictMono_nat_of_lt_succ units_lt_succ

@[simp] theorem units_zero : units 0 = 0 := by simp [units]

theorem magValue_strictMono : StrictMono magValue := by
  intro a b hab
  unfold magValue
  have := units_strictMono hab
  apply div_lt_div_of_pos_right _ (by positivity)
  exact_mod_cast this

@[simp] theorem magValue_zero : magValue 0 = 0 := by simp [magValue]

theorem magValue_nonneg (m : Nat) : 0 ≤ magValue m := by
  unfold magValue; positivity

theorem magValue_pos {m : Nat} (hm : 0 < m) : 0 < magValue m := by
  simpa using magValue_strictMono hm

/-! ## Bisection

`ParseFloat` rounds to the first magnitude whose upper midpoint the decimal does not pass.
Magnitudes are 63-bit patterns, so that first magnitude is found by bisection, which is
exact for a monotone predicate. -/

/-- The least `i` in `[lo, hi)` with `p i`, or `hi` when there is none, found by halving
the range `fuel` times; exact when `p` is monotone and the range has at most `2 ^ fuel`
elements. -/
def bisect (p : Nat → Bool) : Nat → Nat → Nat → Nat
  | 0, lo, hi => if lo < hi ∧ p lo then lo else hi
  | fuel + 1, lo, hi =>
    if lo < hi then
      if p ((lo + hi) / 2) then bisect p fuel lo ((lo + hi) / 2)
      else bisect p fuel ((lo + hi) / 2 + 1) hi
    else hi

section Bisect

variable {p : Nat → Bool}

/-- What bisection returns: a point of `[lo, hi]`, satisfying `p` unless it is `hi`, with
no point of `p` before it. -/
theorem bisect_spec (hmono : ∀ i j, i ≤ j → p i → p j) :
    ∀ fuel lo hi, lo ≤ hi → hi - lo ≤ 2 ^ fuel →
      lo ≤ bisect p fuel lo hi ∧ bisect p fuel lo hi ≤ hi ∧
      (bisect p fuel lo hi < hi → p (bisect p fuel lo hi)) ∧
      ∀ i, lo ≤ i → i < bisect p fuel lo hi → p i = false := by
  intro fuel
  induction fuel with
  | zero =>
    intro lo hi hle hlen
    simp only [bisect]
    by_cases h : lo < hi ∧ p lo = true
    · rw [if_pos h]
      exact ⟨le_rfl, hle, fun _ => h.2, fun i hi1 hi2 => by omega⟩
    · rw [if_neg h]
      refine ⟨hle, le_rfl, fun h' => absurd h' (lt_irrefl _), fun i hi1 hi2 => ?_⟩
      -- the range has at most one point, `lo`, and it fails `p`
      have : i = lo := by simp at hlen; omega
      subst this
      simpa [hi2] using h
  | succ fuel ih =>
    intro lo hi hle hlen
    simp only [bisect]
    by_cases hlt : lo < hi
    · rw [if_pos hlt]
      have hmid1 : lo ≤ (lo + hi) / 2 := by omega
      have hmid2 : (lo + hi) / 2 < hi := by omega
      have hpow : 2 ^ (fuel + 1) = 2 * 2 ^ fuel := by rw [pow_succ']
      by_cases hp : p ((lo + hi) / 2) = true
      · rw [if_pos hp]
        obtain ⟨h1, h2, h3, h4⟩ := ih lo ((lo + hi) / 2) hmid1 (by omega)
        refine ⟨h1, by omega, fun hr => ?_, h4⟩
        -- either strictly inside the left half, or the midpoint itself
        rcases Nat.lt_or_ge (bisect p fuel lo ((lo + hi) / 2)) ((lo + hi) / 2) with h | h
        · exact h3 h
        · have : bisect p fuel lo ((lo + hi) / 2) = (lo + hi) / 2 := by omega
          rw [this]; exact hp
      · rw [if_neg hp]
        obtain ⟨h1, h2, h3, h4⟩ := ih ((lo + hi) / 2 + 1) hi (by omega) (by omega)
        refine ⟨by omega, h2, h3, fun i hi1 hi2 => ?_⟩
        -- points up to the midpoint fail `p` by monotonicity
        rcases Nat.lt_or_ge i ((lo + hi) / 2 + 1) with h | h
        · cases hpi : p i
          · rfl
          · exact absurd (hmono i _ (by omega) hpi) hp
        · exact h4 i h hi2
    · rw [if_neg hlt]
      exact ⟨hle, le_rfl, fun h' => absurd h' (lt_irrefl _), fun i hi1 hi2 => by omega⟩

/-- Bisection returns the first point of `p` (or `hi`): any candidate with that property is
its result. -/
theorem bisect_eq (hmono : ∀ i j, i ≤ j → p i → p j) {fuel lo hi n : Nat} (hle : lo ≤ hi)
    (hlen : hi - lo ≤ 2 ^ fuel) (hlo : lo ≤ n) (hn : n ≤ hi) (hpn : n < hi → p n)
    (hbelow : ∀ i, lo ≤ i → i < n → p i = false) : bisect p fuel lo hi = n := by
  obtain ⟨h1, h2, h3, h4⟩ := bisect_spec hmono fuel lo hi hle hlen
  rcases lt_trichotomy (bisect p fuel lo hi) n with h | h | h
  · have := hbelow _ h1 h
    have := h3 (by omega)
    simp_all
  · exact h
  · have := h4 n hlo h
    have := hpn (by omega)
    simp_all

end Bisect

/-! ## Rounding to nearest, ties to even -/

/-- The midpoint between the values of the magnitudes `m` and `m + 1`. -/
def magMid (m : Nat) : ℚ := (magValue m + magValue (m + 1)) / 2

/-- `q` rounds to the magnitude `m` or below it: `q` lies under the midpoint above `m`, or
on it when `m` has an even fraction field (the parity of `m` is that of its fraction). -/
def RoundsBelow (q : ℚ) (m : Nat) : Prop := q < magMid m ∨ (q = magMid m ∧ m % 2 = 0)

instance (q : ℚ) : DecidablePred (RoundsBelow q) :=
  fun _ => inferInstanceAs (Decidable (_ ∨ _))

/-- The magnitude a non-negative rational rounds to; `infMag` when it overflows to `Inf`. -/
def roundMag (q : ℚ) : Nat := bisect (fun m => decide (RoundsBelow q m)) 63 0 infMag

theorem magMid_strictMono : StrictMono magMid := by
  intro a b hab
  unfold magMid
  have h1 := magValue_strictMono hab
  have h2 := magValue_strictMono (Nat.succ_lt_succ hab)
  linarith

theorem magValue_lt_magMid (m : Nat) : magValue m < magMid m := by
  have := magValue_strictMono (Nat.lt_succ_self m)
  unfold magMid; linarith

theorem magMid_lt_magValue_succ (m : Nat) : magMid m < magValue (m + 1) := by
  have := magValue_strictMono (Nat.lt_succ_self m)
  unfold magMid; linarith

theorem RoundsBelow.mono {q : ℚ} {m m' : Nat} (h : RoundsBelow q m) (hm : m ≤ m') :
    RoundsBelow q m' := by
  rcases Nat.lt_or_eq_of_le hm with hlt | rfl
  · have := magMid_strictMono hlt
    left
    rcases h with h | ⟨h, -⟩ <;> linarith
  · exact h

theorem RoundsBelow.of_le {q q' : ℚ} {m : Nat} (h : RoundsBelow q' m) (hq : q ≤ q') :
    RoundsBelow q m := by
  rcases h with h | ⟨h, he⟩
  · exact Or.inl (lt_of_le_of_lt hq h)
  · rcases lt_or_eq_of_le hq with hlt | rfl
    · exact Or.inl (h ▸ hlt)
    · exact Or.inr ⟨h, he⟩

theorem roundsBelow_decide_mono (q : ℚ) :
    ∀ i j, i ≤ j → decide (RoundsBelow q i) = true → decide (RoundsBelow q j) = true := by
  intro i j hij hi
  simp only [decide_eq_true_eq] at hi ⊢
  exact hi.mono hij

theorem infMag_le_pow : infMag ≤ 2 ^ 63 := by decide

/-- **Rounding, characterised.** The magnitude `q` rounds to is the first one it rounds
below. -/
theorem roundMag_eq {q : ℚ} {m : Nat} (hm : m ≤ infMag) (hq : m < infMag → RoundsBelow q m)
    (hbelow : ∀ i < m, ¬ RoundsBelow q i) : roundMag q = m := by
  unfold roundMag
  apply bisect_eq (roundsBelow_decide_mono q) (Nat.zero_le _) (by simpa using infMag_le_pow)
    (Nat.zero_le _) hm (fun h => decide_eq_true (hq h))
  intro i _ hi
  simpa using hbelow i hi

theorem roundMag_spec (q : ℚ) :
    roundMag q ≤ infMag ∧ (roundMag q < infMag → RoundsBelow q (roundMag q)) ∧
      ∀ i < roundMag q, ¬ RoundsBelow q i := by
  obtain ⟨-, h2, h3, h4⟩ := bisect_spec (roundsBelow_decide_mono q) 63 0 infMag
    (Nat.zero_le _) (by simpa using infMag_le_pow)
  unfold roundMag
  exact ⟨h2, fun h => by simpa using h3 h, fun i hi => by simpa using h4 i (Nat.zero_le _) hi⟩

/-- **Rounding is monotone.** -/
theorem roundMag_mono {q q' : ℚ} (h : q ≤ q') : roundMag q ≤ roundMag q' := by
  obtain ⟨-, h2, -⟩ := roundMag_spec q'
  obtain ⟨h1, -, h3⟩ := roundMag_spec q
  by_contra hlt
  push Not at hlt
  exact h3 _ hlt ((h2 (lt_of_lt_of_le hlt h1)).of_le h)

/-! ## Decimals that round back -/

/-- `d` rounds to exactly the magnitude `m`: below the midpoint above `m` and not below
the one under it (each with its tie rule). -/
def Admissible (m : Nat) (d : ℚ) : Prop := RoundsBelow d m ∧ (m = 0 ∨ ¬ RoundsBelow d (m - 1))

instance (m : Nat) : DecidablePred (Admissible m) :=
  fun _ => inferInstanceAs (Decidable (_ ∧ _))

/-- An admissible decimal parses back to its magnitude. -/
theorem roundMag_of_admissible {m : Nat} {d : ℚ} (hm : m < infMag) (h : Admissible m d) :
    roundMag d = m := by
  apply roundMag_eq hm.le (fun _ => h.1)
  intro i hi hr
  rcases h.2 with h0 | h2
  · omega
  · exact h2 (hr.mono (by omega))

/-- Every value rounds to itself. -/
theorem admissible_magValue (m : Nat) : Admissible m (magValue m) := by
  refine ⟨Or.inl (magValue_lt_magMid m), ?_⟩
  rcases Nat.eq_zero_or_pos m with h | h
  · exact Or.inl h
  · right
    have hlt := magMid_lt_magValue_succ (m - 1)
    rw [Nat.sub_add_cancel h] at hlt
    rintro (h' | ⟨h', -⟩) <;> linarith

/-- An admissible decimal of a non-zero magnitude is positive. -/
theorem pos_of_admissible {m : Nat} {d : ℚ} (hm : 0 < m) (h : Admissible m d) : 0 < d := by
  rcases h.2 with h0 | h2
  · omega
  · have hmid : 0 < magMid (m - 1) := by
      have := magValue_nonneg (m - 1)
      have := magValue_lt_magMid (m - 1)
      linarith
    by_contra hle
    push Not at hle
    exact h2 (Or.inl (lt_of_le_of_lt hle hmid))

/-! ## Shortest decimals

`FormatFloat(f, 'e', -1, 64)` prints "the smallest number of digits necessary such that
`ParseFloat` will return `f` exactly". For `p = 1, 2, …` significant digits the only
candidates are the truncation `t · 10^x` of the exact value to `p` digits and the next
`p`-digit number `(t + 1) · 10^x`: every other decimal with at most `p` digits is further
from the value on the same side. The first `p` with an admissible candidate is taken; if
both are admissible, the nearer one, a tie going to the even last digit. -/

/-- A decimal number `coef · 10 ^ exp`. -/
structure Decimal where
  coef : Nat
  exp : Int
  deriving DecidableEq, Repr

/-- The value of a decimal. -/
def Decimal.value (d : Decimal) : ℚ := d.coef * 10 ^ d.exp

/-- The exact decimal expansion of the magnitude `m`, which has at most 1074 places. -/
def exactDecimal (m : Nat) : Decimal := ⟨units m * 5 ^ 1074, -1074⟩

theorem exactDecimal_value (m : Nat) : (exactDecimal m).value = magValue m := by
  simp only [exactDecimal, Decimal.value, magValue, Nat.cast_mul, Nat.cast_pow, Nat.cast_ofNat,
    zpow_neg]
  rw [show (1074 : ℤ) = ((1074 : ℕ) : ℤ) from rfl, zpow_natCast,
    show (10 : ℚ) = 2 * 5 by norm_num, mul_pow]
  field_simp

/-- The search for the shortest admissible decimal of the magnitude `m` with value `v` in
the decade `10 ^ k ≤ v < 10 ^ (k + 1)`, trying `p` significant digits and more; the exact
expansion is admissible, so it closes the search when the fuel runs out. -/
def shortestSearch (m : Nat) (v : ℚ) (k : Int) : Nat → Nat → Decimal
  | 0, _ => exactDecimal m
  | fuel + 1, p =>
    let x : Int := k - p + 1
    let t : Nat := ⌊v / 10 ^ x⌋.toNat
    let down : Decimal := ⟨t, x⟩
    let up : Decimal := ⟨t + 1, x⟩
    if Admissible m down.value then
      if Admissible m up.value ∧ (up.value - v < v - down.value ∨
          (up.value - v = v - down.value ∧ t % 2 = 1)) then up else down
    else if Admissible m up.value then up
    else shortestSearch m v k fuel (p + 1)

/-- The decimal `FormatFloat(f, 'e', -1, 64)` prints for the magnitude `m`. The fuel covers
the longest exact expansion, `309 + 1074` significant digits. -/
def shortest (m : Nat) : Decimal :=
  shortestSearch m (magValue m) (Int.log 10 (magValue m)) 1400 1

theorem admissible_shortestSearch {m : Nat} (v : ℚ) (k : Int) :
    ∀ fuel p, Admissible m (shortestSearch m v k fuel p).value := by
  intro fuel
  induction fuel with
  | zero =>
    intro p
    simpa [shortestSearch, exactDecimal_value] using admissible_magValue m
  | succ fuel ih =>
    intro p
    simp only [shortestSearch]
    split_ifs with hdown hup hup'
    · exact hup.1
    · exact hdown
    · exact hup'
    · exact ih (p + 1)

/-- **The printed decimal rounds back.** -/
theorem admissible_shortest (m : Nat) : Admissible m (shortest m).value :=
  admissible_shortestSearch _ _ _ _

theorem roundMag_shortest {m : Nat} (hm : m < infMag) : roundMag (shortest m).value = m :=
  roundMag_of_admissible hm (admissible_shortest m)

theorem shortest_value_pos {m : Nat} (hm : 0 < m) : 0 < (shortest m).value :=
  pos_of_admissible hm (admissible_shortest m)

/-! ## The decimals of the magnitudes, in order -/

/-- The value of the shortest decimal of a magnitude; zero prints as `0`. -/
def shortestValue (m : Nat) : ℚ := if m = 0 then 0 else (shortest m).value

theorem admissible_shortestValue (m : Nat) : Admissible m (shortestValue m) := by
  unfold shortestValue
  split_ifs with h
  · subst h
    simpa using admissible_magValue 0
  · exact admissible_shortest m

theorem shortestValue_nonneg (m : Nat) : 0 ≤ shortestValue m := by
  unfold shortestValue
  split_ifs with h
  · rfl
  · exact (shortest_value_pos (Nat.pos_of_ne_zero h)).le

theorem shortestValue_eq_zero_iff (m : Nat) : shortestValue m = 0 ↔ m = 0 := by
  unfold shortestValue
  split_ifs with h
  · simp [h]
  · simp only [h, iff_false]
    exact (shortest_value_pos (Nat.pos_of_ne_zero h)).ne'

/-- **Shortest decimals are ordered as their magnitudes**: each rounds back to its own
magnitude, and rounding is monotone. -/
theorem compare_shortestValue {m m' : Nat} (hm : m < infMag) (hm' : m' < infMag) :
    compare (shortestValue m) (shortestValue m') = compare (magValue m) (magValue m') := by
  have hr : roundMag (shortestValue m) = m := roundMag_of_admissible hm (admissible_shortestValue m)
  have hr' : roundMag (shortestValue m') = m' :=
    roundMag_of_admissible hm' (admissible_shortestValue m')
  -- a decimal at or below another rounds at or below it
  have hlt : ∀ {a b : Nat}, roundMag (shortestValue a) = a → roundMag (shortestValue b) = b →
      a < b → shortestValue a < shortestValue b := by
    intro a b ha hb hab
    by_contra hle
    have := roundMag_mono (not_lt.mp hle)
    omega
  rcases lt_trichotomy m m' with h | rfl | h
  · rw [(compare_lt_iff_lt).mpr (hlt hr hr' h), (compare_lt_iff_lt).mpr (magValue_strictMono h)]
  · simp
  · rw [(compare_gt_iff_gt).mpr (hlt hr' hr h), (compare_gt_iff_gt).mpr (magValue_strictMono h)]

/-! ## The range of finite values -/

theorem magMid_zero : magMid 0 = 1 / 2 ^ 1075 := by
  have h1 : units 1 = 1 := by
    rw [units, Nat.div_eq_of_lt (by norm_num), if_pos rfl, Nat.mod_eq_of_lt (by norm_num)]
  rw [magMid, magValue_zero, magValue, h1, Nat.cast_one, zero_add, div_div,
    show (2 : ℚ) ^ 1075 = 2 ^ 1074 * 2 from pow_succ 2 1074]

theorem magValue_infMag : magValue infMag = 2 ^ 1024 := by
  -- the exponent field all ones, the fraction zero
  have hu : units infMag = 2 ^ 52 * 2 ^ 2046 := by
    rw [show infMag = 2047 * 2 ^ 52 + 0 by rfl, units_eq 2047 0 (by norm_num), if_neg (by norm_num)]
    norm_num
  rw [magValue, hu, Nat.cast_mul, Nat.cast_pow, Nat.cast_pow, Nat.cast_ofNat, ← pow_add,
    div_eq_iff (by positivity), ← pow_add]

/-- A decimal that rounds to a finite magnitude is below `2 ^ 1024`. -/
theorem Admissible.lt_two_pow {m : Nat} {d : ℚ} (hm : m < infMag) (h : Admissible m d) :
    d < 2 ^ 1024 := by
  have hmid : magMid m < magValue (m + 1) := magMid_lt_magValue_succ m
  have hmono : magValue (m + 1) ≤ magValue infMag := magValue_strictMono.monotone (by omega)
  rw [magValue_infMag] at hmono
  rcases h.1 with h1 | ⟨h1, -⟩ <;> linarith

/-- A decimal that rounds to a non-zero magnitude is at least `2 ^ -1075`. -/
theorem Admissible.two_pow_le {m : Nat} {d : ℚ} (hm : 0 < m) (h : Admissible m d) :
    1 / 2 ^ 1075 ≤ d := by
  rcases h.2 with h0 | h2
  · omega
  · have hmid : magMid 0 ≤ magMid (m - 1) := magMid_strictMono.monotone (Nat.zero_le _)
    rw [magMid_zero] at hmid
    by_contra hlt
    exact h2 (Or.inl (by linarith))

/-! ## Integers

Go converts an `int64` to `float64` by rounding to nearest; every integer below `2 ^ 53`
is a `float64` value, so those convert exactly. -/

/-- A rational of at most `2 ^ 1023` rounds to a finite magnitude. -/
theorem roundMag_lt_infMag {q : ℚ} (hq : q ≤ 2 ^ 1023) : roundMag q < infMag := by
  obtain ⟨hle, -, hbelow⟩ := roundMag_spec q
  by_contra hge
  have heq : roundMag q = infMag := le_antisymm hle (not_lt.mp hge)
  have htop : magValue (2046 * 2 ^ 52) = 2 ^ 1023 := by decide +kernel
  have hmono : magValue (2046 * 2 ^ 52) ≤ magValue (infMag - 1) :=
    magValue_strictMono.monotone (by decide)
  apply hbelow (infMag - 1) (by rw [heq]; decide)
  left
  calc q ≤ magValue (2046 * 2 ^ 52) := htop ▸ hq
    _ ≤ magValue (infMag - 1) := hmono
    _ < magMid (infMag - 1) := magValue_lt_magMid _

/-- A rational above the midpoint over zero does not round to zero. -/
theorem roundMag_ne_zero {q : ℚ} (hq : magMid 0 < q) : roundMag q ≠ 0 := by
  intro h0
  obtain ⟨-, hround, -⟩ := roundMag_spec q
  have h := hround (by rw [h0]; decide)
  rw [h0] at h
  rcases h with h | ⟨h, -⟩
  · exact absurd (hq.trans h) (lt_irrefl _)
  · exact absurd (h ▸ hq) (lt_irrefl _)

theorem roundMag_zero : roundMag 0 = 0 := by
  simpa using roundMag_of_admissible (m := 0) (by decide) (admissible_magValue 0)

/-- Every natural number below `2 ^ 53` is the value of a magnitude: its binary exponent
in the exponent field and the bits after its leading one in the fraction field. -/
theorem exists_magValue_eq (n : Nat) (hn : n < 2 ^ 53) : ∃ m, m < infMag ∧ magValue m = n := by
  rcases Nat.eq_zero_or_pos n with rfl | hpos
  · exact ⟨0, by decide, by simp⟩
  set e := Nat.log 2 n
  have hlo : 2 ^ e ≤ n := Nat.pow_log_le_self 2 hpos.ne'
  have hhi : n < 2 ^ (e + 1) := Nat.lt_pow_succ_log_self (by norm_num) n
  have he : e ≤ 52 := by
    by_contra h
    have : 2 ^ 53 ≤ 2 ^ e := Nat.pow_le_pow_right (by norm_num) (by omega)
    omega
  -- `n` shifted up to 53 bits: the hidden bit and the fraction field
  have hs : 2 ^ 52 ≤ n * 2 ^ (52 - e) ∧ n * 2 ^ (52 - e) < 2 ^ 53 := by
    have hpow : 2 ^ 52 = 2 ^ e * 2 ^ (52 - e) := by rw [← pow_add]; congr 1; omega
    have hpow' : 2 ^ 53 = 2 ^ (e + 1) * 2 ^ (52 - e) := by rw [← pow_add]; congr 1; omega
    constructor
    · rw [hpow]; exact Nat.mul_le_mul_right _ hlo
    · rw [hpow']; exact Nat.mul_lt_mul_of_pos_right hhi (by positivity)
  have hr : n * 2 ^ (52 - e) - 2 ^ 52 < 2 ^ 52 := by omega
  refine ⟨(e + 1023) * 2 ^ 52 + (n * 2 ^ (52 - e) - 2 ^ 52), ?_, ?_⟩
  · have : (e + 1023) * 2 ^ 52 ≤ 1075 * 2 ^ 52 := Nat.mul_le_mul_right _ (by omega)
    unfold infMag
    omega
  · have hunits : units ((e + 1023) * 2 ^ 52 + (n * 2 ^ (52 - e) - 2 ^ 52)) = n * 2 ^ 1074 := by
      rw [units_eq _ _ hr, if_neg (by omega),
        show 2 ^ 52 + (n * 2 ^ (52 - e) - 2 ^ 52) = n * 2 ^ (52 - e) by omega, mul_assoc,
        ← pow_add, show 52 - e + (e + 1023 - 1) = 1074 by omega]
    rw [magValue, hunits, Nat.cast_mul, Nat.cast_pow, Nat.cast_ofNat, mul_div_assoc,
      div_self (by positivity), mul_one]

theorem abs_int64_le (i : Int64) : |(i.toInt : ℚ)| ≤ 2 ^ 1023 := by
  have h1 := Int64.le_toInt i
  have h2 := Int64.toInt_le i
  have h3 : Int64.maxValue.toInt = 2 ^ 63 - 1 := by decide
  rw [h3] at h2
  have h63 : |(i.toInt : ℚ)| ≤ 2 ^ 63 := by
    have : |i.toInt| ≤ 2 ^ 63 := by rw [abs_le]; constructor <;> omega
    exact_mod_cast this
  exact h63.trans (pow_le_pow_right₀ (by norm_num) (by norm_num))

/-- Go's conversion `float64(i)` of an `int64`: the nearest `float64`, ties to even. -/
def ofInt64 (i : Int64) : Float64 :=
  ⟨decide (i.toInt < 0), roundMag |(i.toInt : ℚ)|, roundMag_lt_infMag (abs_int64_le i)⟩

/-- Integers below `2 ^ 53` convert exactly. -/
theorem magValue_ofInt64 {i : Int64} (h : i.toInt.natAbs < 2 ^ 53) :
    magValue (ofInt64 i).mag = |(i.toInt : ℚ)| := by
  obtain ⟨m, hm, hv⟩ := exists_magValue_eq _ h
  have habs : |(i.toInt : ℚ)| = magValue m := by rw [hv, Nat.cast_natAbs, Int.cast_abs]
  show magValue (roundMag |(i.toInt : ℚ)|) = _
  rw [habs, roundMag_of_admissible hm (admissible_magValue m)]

theorem ofInt64_value {i : Int64} (h : i.toInt.natAbs < 2 ^ 53) : (ofInt64 i).value = i.toInt := by
  unfold value
  rw [magValue_ofInt64 h]
  by_cases hneg : i.toInt < 0
  · have hq : (i.toInt : ℚ) < 0 := by exact_mod_cast hneg
    rw [if_pos (by simp [ofInt64, hneg]), abs_of_neg hq, neg_neg]
  · have hq : 0 ≤ (i.toInt : ℚ) := by exact_mod_cast not_lt.mp hneg
    rw [if_neg (by simp [ofInt64, hneg]), abs_of_nonneg hq]

/-- A decimal that rounds to a magnitude below `m'` is below the value of `m'`. -/
theorem Admissible.lt_magValue {m m' : Nat} {d : ℚ} (h : Admissible m d) (hm : m < m') :
    d < magValue m' := by
  have h1 : magMid m < magValue (m + 1) := magMid_lt_magValue_succ m
  have h2 : magValue (m + 1) ≤ magValue m' := magValue_strictMono.monotone hm
  rcases h.1 with h0 | ⟨h0, -⟩
  · exact h0.trans (h1.trans_le h2)
  · rw [h0]
    exact h1.trans_le h2

end Float64

end Go
