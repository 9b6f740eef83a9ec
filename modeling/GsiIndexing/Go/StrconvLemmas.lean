import Mathlib.Data.List.TakeWhile
import GsiIndexing.Go.Strconv

/-!
# Go's `strconv` — reading back what it prints

The proof companions of `Go/Strconv.lean`: the readers `spanDigits`, `parseInt` and
`parseDecimal` run on texts the printers wrote, and the round trip that `ParseFloat`
recovers every `float64` from its shortest `%e` text (`parseFloat_formatFloatE`).
-/

namespace Go

open Digits

/-! ## Reading digits -/

theorem byteDigit_digitByte {d : Nat} (h : d < 10) : byteDigit (digitByte d) = some d := by
  have := digitByte_toNat h
  simp only [byteDigit, UInt8.le_iff_toNat_le, this]
  simp
  omega

/-- Reading the digits of a digit text stops at the first byte that is not a digit. -/
theorem spanDigits_append {ds : List Nat} (hds : AllDigits ds) {rest : Bytes}
    (hr : ∀ b ∈ rest.head?, byteDigit b = none) :
    spanDigits (ds.map digitByte ++ rest) = (ds, rest) := by
  induction ds with
  | nil =>
    cases rest with
    | nil => rfl
    | cons b r => simp [spanDigits, hr b rfl]
  | cons d ds ih => simp [spanDigits, byteDigit_digitByte hds.head, ih hds.cons]

theorem splitSign_of_ne {c : UInt8} (h45 : c ≠ 45) (h43 : c ≠ 43) (r : Bytes) :
    splitSign (c :: r) = (false, c :: r) := by
  unfold splitSign
  split <;> simp_all

/-! ## Integers -/

/-- `ParseInt` reads a sign and the digits of a value in the `int64` range. -/
theorem parseInt_eq {s body : Bytes} {neg : Bool} (hs : splitSign s = (neg, body))
    {ds : List Nat} (hds : AllDigits ds) (hne : ds ≠ []) (hbody : body = ds.map digitByte)
    (hlo : -2 ^ 63 ≤ (if neg then -(value ds : Int) else value ds))
    (hhi : (if neg then -(value ds : Int) else value ds) < 2 ^ 63) :
    parseInt s = (if neg then -(value ds : Int) else value ds, none) := by
  have hspan : spanDigits body = (ds, []) := by
    simpa [hbody] using @spanDigits_append ds hds [] (by simp)
  -- `ParseUint` reads the magnitude, which is at most `2^63`
  have hmag : value ds ≤ 2 ^ 63 := by
    split_ifs at hlo hhi <;> omega
  have hu : parseUint body = (value ds, none) := by
    simp only [parseUint, hspan, hne, if_false, ne_eq, not_true_eq_false]
    rw [if_neg (by omega)]
  simp only [parseInt, hs, hu]
  cases neg <;> simp at hlo hhi ⊢ <;> omega

/-- `ParseInt` reads back what `FormatInt` writes, in the `int64` range. -/
theorem parseInt_itoa {i : Int} (hlo : -2 ^ 63 ≤ i) (hhi : i < 2 ^ 63) :
    parseInt (itoa i) = (i, none) := by
  rcases lt_or_ge i 0 with hneg | hnn
  · obtain ⟨n, rfl⟩ : ∃ n : Nat, i = -(n : Int) := ⟨i.natAbs, by omega⟩
    rw [itoa_neg_natCast (by omega)]
    rw [parseInt_eq (s := 45 :: (ofNat n).map digitByte) rfl (allDigits_ofNat n)
      (ofNat_ne_nil n) rfl (by simp only [if_true, value_ofNat]; omega)
      (by simp only [if_true, value_ofNat]; omega)]
    simp
  · obtain ⟨n, rfl⟩ : ∃ n : Nat, i = n := ⟨i.natAbs, by omega⟩
    rw [itoa_natCast]
    obtain ⟨d, ds, hd⟩ := List.exists_cons_of_ne_nil (ofNat_ne_nil n)
    have hd10 : (digitByte d).toNat = 48 + d :=
      digitByte_toNat (allDigits_ofNat n d (by simp [hd]))
    have hsign : splitSign ((ofNat n).map digitByte) = (false, (ofNat n).map digitByte) := by
      rw [hd, List.map_cons]
      exact splitSign_of_ne (fun h => by rw [h] at hd10; simp at hd10; omega)
        (fun h => by rw [h] at hd10; simp at hd10; omega) _
    rw [parseInt_eq hsign (allDigits_ofNat n) (ofNat_ne_nil n) rfl
      (by simp only [Bool.false_eq_true, if_false, value_ofNat]; omega)
      (by simp only [Bool.false_eq_true, if_false, value_ofNat]; omega)]
    simp

/-- `ParseUint` reads back the text of a `uint64`. -/
theorem parseUint_itoa {n : Nat} (h : n < 2 ^ 64) : parseUint (itoa n) = (n, none) := by
  have hspan : spanDigits (itoa n) = (ofNat n, []) := by
    simpa [itoa_natCast] using @spanDigits_append (ofNat n) (allDigits_ofNat n) [] (by simp)
  simp only [parseUint, hspan, ofNat_ne_nil, if_false, value_ofNat, ne_eq, not_true_eq_false]
  rw [if_neg (by omega)]

/-- The text of an exponent: its sign and at least two digits. -/
theorem expText_eq (e : Int) : ∃ ds, AllDigits ds ∧ ds ≠ [] ∧ value ds = e.natAbs ∧
    expText e = (if e < 0 then 45 else 43) :: ds.map digitByte := by
  by_cases h : e.natAbs < 10
  · refine ⟨[0, e.natAbs], ?_, by simp, ?_, ?_⟩
    · intro d hd
      simp only [List.mem_cons, List.not_mem_nil, or_false] at hd
      omega
    · simp [value_cons]
    · simp only [expText, h, if_true, List.map_cons, List.map_nil]
      split_ifs <;> rfl
  · refine ⟨ofNat e.natAbs, allDigits_ofNat _, ofNat_ne_nil _, value_ofNat _, ?_⟩
    simp only [expText, h, if_false]
    split_ifs <;> rfl

theorem parseInt_expText {e : Int} (hlo : -2 ^ 63 ≤ e) (hhi : e < 2 ^ 63) :
    parseInt (expText e) = (e, none) := by
  obtain ⟨ds, hds, hne, hv, hexp⟩ := expText_eq e
  rw [hexp]
  split_ifs with he
  · rw [parseInt_eq (s := 45 :: ds.map digitByte) rfl hds hne rfl
      (by simp only [if_true, hv]; omega) (by simp only [if_true, hv]; omega)]
    simp only [if_true, hv, Prod.mk.injEq, and_true]
    omega
  · rw [parseInt_eq (s := 43 :: ds.map digitByte) rfl hds hne rfl
      (by simp only [Bool.false_eq_true, if_false, hv]; omega)
      (by simp only [Bool.false_eq_true, if_false, hv]; omega)]
    simp only [Bool.false_eq_true, if_false, hv, Prod.mk.injEq, and_true]
    omega

/-! ## Trailing zeros -/

/-- Dropping the trailing zeros leaves a prefix that only zeros follow. -/
theorem dropTrailingZeros_append (ds : List Nat) :
    ∃ k, ds = dropTrailingZeros ds ++ List.replicate k 0 := by
  refine ⟨(ds.reverse.takeWhile (· = 0)).length, ?_⟩
  have hz : ds.reverse.takeWhile (· = 0) =
      List.replicate (ds.reverse.takeWhile (· = 0)).length 0 :=
    List.eq_replicate_iff.mpr ⟨rfl, fun b hb => by simpa using List.mem_takeWhile_imp hb⟩
  -- the reversed string is its zeros and then the rest
  have hsplit : ds = (ds.reverse.dropWhile (· = 0)).reverse ++
      (ds.reverse.takeWhile (· = 0)).reverse := by
    rw [← List.reverse_append, List.takeWhile_append_dropWhile, List.reverse_reverse]
  conv_lhs => rw [hsplit]
  rw [hz, List.reverse_replicate, List.length_replicate]
  rfl

theorem allDigits_dropTrailingZeros {ds : List Nat} (h : AllDigits ds) :
    AllDigits (dropTrailingZeros ds) := by
  obtain ⟨k, hk⟩ := dropTrailingZeros_append ds
  intro d hd
  exact h d (by rw [hk]; exact List.mem_append_left _ hd)

theorem noTrailingZero_dropTrailingZeros (ds : List Nat) :
    NoTrailingZero (dropTrailingZeros ds) := by
  intro hne
  have hne' : ds.reverse.dropWhile (· = 0) ≠ [] := by
    simpa [dropTrailingZeros] using hne
  have := List.head_dropWhile_not (fun x : Nat => decide (x = 0)) hne'
  simp only [dropTrailingZeros, List.getLast_reverse]
  simpa using this

/-- A digit string that starts with a non-zero digit keeps it. -/
theorem dropTrailingZeros_cons {d : Nat} {ds : List Nat} (hd : d ≠ 0) :
    ∃ rest, dropTrailingZeros (d :: ds) = d :: rest := by
  obtain ⟨k, hk⟩ := dropTrailingZeros_append (d :: ds)
  cases h : dropTrailingZeros (d :: ds) with
  | nil =>
    rw [h, List.nil_append] at hk
    have := List.eq_replicate_iff.mp hk
    exact absurd (this.2 d (by simp)) hd
  | cons d' rest =>
    rw [h, List.cons_append, List.cons.injEq] at hk
    exact ⟨rest, by rw [hk.1]⟩

/-- A leading digit other than zero stays in front of the digits that are kept. -/
theorem dropTrailingZeros_cons_of_ne {d : Nat} (hd : d ≠ 0) (ds : List Nat) :
    dropTrailingZeros (d :: ds) = d :: dropTrailingZeros ds := by
  unfold dropTrailingZeros
  rw [List.reverse_cons, List.dropWhile_append]
  split_ifs with h
  · rw [List.isEmpty_iff.mp h]
    simp [hd]
  · simp

/-! ## Reading `%e` text back -/

/-- How `ParseFloat` reads the exponent of `%e` text: its sign, then digits up to the end,
which stand for its magnitude. -/
theorem splitSign_expText (e : Int) : ∃ eds, eds ≠ [] ∧
    splitSign (expText e) = (decide (e < 0), eds.map digitByte) ∧
    spanDigits (eds.map digitByte) = (eds, []) ∧
    (if e < 0 then -(value eds : Int) else value eds) = e := by
  obtain ⟨eds, heds, hne, hv, hexp⟩ := expText_eq e
  refine ⟨eds, hne, ?_, by simpa using @spanDigits_append eds heds [] (by simp), ?_⟩
  · rw [hexp]
    split_ifs with he <;> simp [splitSign, he]
  · split_ifs with he <;> omega

/-- A text that starts with a digit, after the sign `%e` writes for a negative number. -/
theorem splitSign_digitByte (neg : Bool) {d : Nat} (hd : d < 10) (w : Bytes) :
    splitSign ((if neg then [45] else []) ++ digitByte d :: w) = (neg, digitByte d :: w) := by
  have hd48 := digitByte_toNat hd
  cases neg
  · exact splitSign_of_ne (fun h => by rw [h] at hd48; simp at hd48; omega)
      (fun h => by rw [h] at hd48; simp at hd48; omega) _
  · rfl

/-- A text `d.ddde±x` that keeps its point even when no digit follows it, as
`ConvertToScientificNotation` writes `d.e+x`. -/
theorem parseDecimal_dotText (neg : Bool) {d : Nat} {rest : List Nat} (hd : d < 10)
    (hrest : AllDigits rest) (e : Int) :
    parseDecimal ((if neg then [45] else []) ++
        digitByte d :: 46 :: (rest.map digitByte ++ 101 :: expText e)) =
      some (neg, ⟨value (d :: rest), e - rest.length⟩) := by
  obtain ⟨eds, hne, hesign, hespan, hev⟩ := splitSign_expText e
  -- the digits before and after the point
  have hspan : spanDigits (digitByte d :: 46 :: (rest.map digitByte ++ 101 :: expText e)) =
      ([d], 46 :: (rest.map digitByte ++ 101 :: expText e)) := by
    simpa using @spanDigits_append [d] (by simpa [AllDigits] using hd) _ (by simp; decide)
  have hspan' : spanDigits (rest.map digitByte ++ 101 :: expText e) = (rest, 101 :: expText e) :=
    spanDigits_append hrest (by simp; decide)
  simp [parseDecimal, splitSign_digitByte neg hd, hspan, hspan', hesign, hespan, hne, hev]

/-- `%e` text with a first digit reads back as its digit string and the exponent of the
last digit. -/
theorem parseDecimal_eText (neg : Bool) {d : Nat} {rest : List Nat} (hd : d < 10)
    (hrest : AllDigits rest) (e : Int) :
    parseDecimal (eText neg (d :: rest) e) =
      some (neg, ⟨value (d :: rest), e - rest.length⟩) := by
  by_cases hr : rest = []
  · -- a single digit is printed without a point
    subst hr
    obtain ⟨eds, hne, hesign, hespan, hev⟩ := splitSign_expText e
    have htext :
        eText neg [d] e = (if neg then [45] else []) ++ digitByte d :: 101 :: expText e := by
      simp [eText]
    have hspan : spanDigits (digitByte d :: 101 :: expText e) = ([d], 101 :: expText e) := by
      simpa using @spanDigits_append [d] (by simpa [AllDigits] using hd) (101 :: expText e)
        (by simp; decide)
    rw [htext]
    simp [parseDecimal, splitSign_digitByte neg hd, hspan, hesign, hespan, hne, hev]
  · have htext : eText neg (d :: rest) e = (if neg then [45] else []) ++
        digitByte d :: 46 :: (rest.map digitByte ++ 101 :: expText e) := by
      simp only [eText, if_neg hr, List.cons_append, List.append_assoc]
    rw [htext]
    exact parseDecimal_dotText neg hd hrest e

theorem parseDecimal_eText_nil (neg : Bool) : parseDecimal (eText neg [] 0) = some (neg, ⟨0, 0⟩) := by
  cases neg <;> decide

/-! ## The `float64` round trip -/

/-- The printed digits of a decimal `c · 10 ^ x`, its trailing zeros dropped, stand for the
same value at the exponent of their last digit. -/
theorem value_dropTrailingZeros_ofNat (c : Nat) (x : Int) :
    (value (dropTrailingZeros (ofNat c)) : ℚ) *
        10 ^ (((ofNat c).length : Int) - (dropTrailingZeros (ofNat c)).length + x) =
      c * 10 ^ x := by
  obtain ⟨k, hk⟩ := dropTrailingZeros_append (ofNat c)
  have hlen : (ofNat c).length = (dropTrailingZeros (ofNat c)).length + k := by
    conv_lhs => rw [hk]
    simp
  have hval : value (dropTrailingZeros (ofNat c)) * 10 ^ k = c := by
    rw [← value_append_replicate_zero, ← hk, value_ofNat]
  have hexp : ((ofNat c).length : Int) - (dropTrailingZeros (ofNat c)).length + x = k + x := by
    omega
  rw [hexp, zpow_add₀ (by norm_num), zpow_natCast, ← mul_assoc]
  exact_mod_cast congrArg (fun n : Nat => (n : ℚ) * 10 ^ x) hval

/-- The printed digits read as a fraction and scaled by the number of digits of `c`. -/
theorem frac_dropTrailingZeros_ofNat (c : Nat) (x : Int) :
    frac (dropTrailingZeros (ofNat c)) * 10 ^ (((ofNat c).length : Int) + x) = c * 10 ^ x := by
  rw [← value_dropTrailingZeros_ofNat c x, frac, zpow_add₀ (by norm_num), zpow_add₀ (by norm_num),
    zpow_sub₀ (by norm_num), zpow_natCast, zpow_natCast]
  field_simp

/-- The first printed digit of a non-zero decimal is not zero. -/
theorem dropTrailingZeros_ofNat_cons {c : Nat} (hc : c ≠ 0) :
    ∃ d rest, dropTrailingZeros (ofNat c) = d :: rest ∧ d ≠ 0 := by
  obtain ⟨d, ds, hd⟩ := List.exists_cons_of_ne_nil (ofNat_ne_nil c)
  obtain ⟨rest, hrest⟩ := @dropTrailingZeros_cons d ds (ofNat_head_ne_zero hc hd)
  exact ⟨d, rest, by rw [hd, hrest], ofNat_head_ne_zero hc hd⟩

theorem shortest_coef_ne_zero {m : Nat} (hm : m ≠ 0) : (Float64.shortest m).coef ≠ 0 := by
  intro h
  have := Float64.shortest_value_pos (Nat.pos_of_ne_zero hm)
  simp [Float64.Decimal.value, h] at this

/-- **`ParseFloat` reads back what `FormatFloat(f, 'e', -1, 64)` prints**, sign included. -/
theorem parseFloat_formatFloatE (f : Float64) : parseFloat (formatFloatE f) = some f := by
  obtain ⟨sign, mag, hmag⟩ := f
  by_cases h0 : mag = 0
  · subst h0
    have hround : Float64.roundMag 0 = 0 := by
      simpa using Float64.roundMag_of_admissible (m := 0) (by decide)
        (Float64.admissible_magValue 0)
    simp [formatFloatE, parseFloat, parseDecimal_eText_nil, Float64.Decimal.value, hround, hmag]
  · -- the printed digits and exponent of the shortest decimal `c · 10 ^ x`
    obtain ⟨d, rest, hds, -⟩ := dropTrailingZeros_ofNat_cons (shortest_coef_ne_zero h0)
    have hdig : AllDigits (d :: rest) := hds ▸ allDigits_dropTrailingZeros (allDigits_ofNat _)
    have hparse := parseDecimal_eText sign hdig.head hdig.cons
      (((ofNat (Float64.shortest mag).coef).length : Int) - 1 + (Float64.shortest mag).exp)
    have hvalue : (⟨value (d :: rest), ((ofNat (Float64.shortest mag).coef).length : Int) - 1 +
        (Float64.shortest mag).exp - rest.length⟩ : Float64.Decimal).value =
          (Float64.shortest mag).value := by
      have := value_dropTrailingZeros_ofNat (Float64.shortest mag).coef (Float64.shortest mag).exp
      rw [hds] at this
      simp only [Float64.Decimal.value, List.length_cons, Nat.cast_add, Nat.cast_one] at this ⊢
      rw [← this]
      congr 2
      ring
    simp only [formatFloatE, h0, if_false, hds, parseFloat, hparse, hvalue,
      Float64.roundMag_shortest hmag, hmag, dif_pos]

/-- The exponent `FormatFloat` prints for a non-zero `float64` lies far inside the `int64`
range: the shortest decimal lies between `10 ^ -1075` and `10 ^ 512`. -/
theorem shortest_exponent_bounds {m : Nat} (hm0 : m ≠ 0) (hm : m < infMag) :
    -1076 < ((ofNat (Float64.shortest m).coef).length : Int) - 1 + (Float64.shortest m).exp ∧
      ((ofNat (Float64.shortest m).coef).length : Int) - 1 + (Float64.shortest m).exp < 512 := by
  set c := (Float64.shortest m).coef with hc
  set x := (Float64.shortest m).exp with hx
  set L := (ofNat c).length with hL
  have hc0 : c ≠ 0 := shortest_coef_ne_zero hm0
  have hL1 : 1 ≤ L := ofNat_length_pos c
  have hv : (Float64.shortest m).value = c * 10 ^ x := rfl
  have hadm := Float64.admissible_shortest m
  -- `10 ^ (L - 1) ≤ c < 10 ^ L`, so `10 ^ (L - 1 + x) ≤ c · 10 ^ x < 10 ^ (L + x)`
  have hlo : (10 : ℚ) ^ ((L : Int) - 1 + x) ≤ (Float64.shortest m).value := by
    have h := pow_length_ofNat_le hc0
    rw [hv, show (L : Int) - 1 + x = ((L - 1 : Nat) : Int) + x by omega, zpow_add₀ (by norm_num),
      zpow_natCast]
    gcongr
    exact_mod_cast h
  have hhi : (Float64.shortest m).value < 10 ^ ((L : Int) + x) := by
    have h := lt_pow_length_ofNat c
    rw [hv, zpow_add₀ (by norm_num), zpow_natCast]
    gcongr
    exact_mod_cast h
  -- the range of finite non-zero values
  have htop : (Float64.shortest m).value < 10 ^ (512 : Int) := by
    have h1 := hadm.lt_two_pow hm
    have h2 : (2 : ℚ) ^ 1024 < 10 ^ (512 : Int) := by
      rw [show (2 : ℚ) ^ 1024 = 16 ^ 256 by rw [show (16 : ℚ) = 2 ^ 4 by norm_num, ← pow_mul],
        show (10 : ℚ) ^ (512 : Int) = 100 ^ 256 by
          rw [show (100 : ℚ) = 10 ^ 2 by norm_num, ← pow_mul]; rfl]
      exact pow_lt_pow_left₀ (by norm_num) (by norm_num) (by norm_num)
    exact h1.trans h2
  have hbot : (10 : ℚ) ^ (-1075 : Int) < (Float64.shortest m).value := by
    have h1 := hadm.two_pow_le (Nat.pos_of_ne_zero hm0)
    have h2 : (10 : ℚ) ^ (-1075 : Int) < 1 / 2 ^ 1075 := by
      rw [zpow_neg, one_div, show (1075 : Int) = ((1075 : Nat) : Int) from rfl, zpow_natCast]
      exact inv_strictAnti₀ (by positivity) (pow_lt_pow_left₀ (by norm_num) (by norm_num) (by norm_num))
    exact h2.trans_le h1
  constructor
  · by_contra hle
    have : (10 : ℚ) ^ ((L : Int) + x) ≤ 10 ^ (-1075 : Int) :=
      zpow_le_zpow_right₀ (by norm_num) (by omega)
    linarith
  · by_contra hle
    have : (10 : ℚ) ^ (512 : Int) ≤ 10 ^ ((L : Int) - 1 + x) :=
      zpow_le_zpow_right₀ (by norm_num) (by omega)
    linarith

end Go
