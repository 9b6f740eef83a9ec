import GsiIndexing.Collate.N1ql

/-!
# Collating the two N1QL number kinds

`n1ql2code` codes a `float64` through `FormatFloat(f, 'e', -1, 64)` and an `int64` through
`ConvertToScientificNotation`. Strictly between `±(2^53 - 1)` the latter prints `float64(val)`
the same way, so both kinds are coded as the shortest decimal of a `float64` of the same
value. From `2^53 - 1` on it writes all the digits of the integer, while a `float64` of the
same size is still printed by its shortest decimal, which need not be its value: the codes
of `int64(2^60)` and `float64(2^60)` differ, and the integer sorts first.

Every code is a `NumberCode` of a value, `codeValue`, and codes compare as these values
(`compare_numberCode`). The results below compare the code values with the exact values:
they agree unless a wide `int64` meets a wide `float64`.
-/

namespace Collatejson

open Go Digits LexCode

/-! ## The digits `ConvertToScientificNotation` writes -/

theorem natAbs_toInt_le (i : Int64) : i.toInt.natAbs ≤ 2 ^ 63 := by
  have h1 := Int64.le_toInt i
  have h2 := Int64.toInt_le i
  have h3 : Int64.maxValue.toInt = 2 ^ 63 - 1 := by decide
  omega

theorem dropWhile_map_digitByte {ds : List Nat} (hds : AllDigits ds) :
    (ds.map digitByte).dropWhile (· = 48) = (ds.dropWhile (· = 0)).map digitByte := by
  induction ds with
  | nil => rfl
  | cons d ds ih =>
    -- the byte of a digit is `0` exactly for the digit zero
    have hzero : digitByte d = 48 ↔ d = 0 := by
      have h48 := digitByte_toNat hds.head
      constructor
      · intro h
        rw [h] at h48
        simp at h48
        omega
      · rintro rfl
        rfl
    rw [List.map_cons, List.dropWhile_cons, List.dropWhile_cons]
    by_cases hd : d = 0
    · subst hd
      simp [show digitByte 0 = 48 from rfl, ih hds.cons]
    · simp [hd, hzero]

/-- `strings.TrimRight(rem, "0")` of a digit text drops the trailing zero digits. -/
theorem trimRightZeros_map_digitByte {ds : List Nat} (hds : AllDigits ds) :
    trimRightZeros (ds.map digitByte) = (dropTrailingZeros ds).map digitByte := by
  have hrev : AllDigits ds.reverse := fun d hd => hds d (List.mem_reverse.mp hd)
  rw [trimRightZeros, dropTrailingZeros, ← List.map_reverse, dropWhile_map_digitByte hrev,
    List.map_reverse]

/-- From ten on, `e+` and `strconv.Itoa` write the exponent as `%e` does. -/
theorem expText_natCast {n : Nat} (h : 10 ≤ n) : expText n = 43 :: itoa n := by
  simp [expText, itoa_natCast, show ¬ n < 10 by omega, show ¬ (n : Int) < 0 by omega]

/-- An integer of at least `2^53 - 1` has sixteen to nineteen digits. -/
theorem length_ofNat_wide {n : Nat} (h : 9007199254740991 ≤ n) (hn : n ≤ 2 ^ 63) :
    16 ≤ (ofNat n).length ∧ (ofNat n).length ≤ 19 := by
  constructor
  · have hlt := lt_pow_length_ofNat n
    by_contra hle
    have : 10 ^ (ofNat n).length ≤ 10 ^ 15 := Nat.pow_le_pow_right (by norm_num) (by omega)
    omega
  · exact length_ofNat_le_of_lt (by norm_num) (by omega)

/-- **`ConvertToScientificNotation` from `2^53 - 1` on**: the sign, the first digit, a point,
the other digits without their trailing zeros, and `e+` with their number. -/
theorem convertToScientificNotation_wide {i : Int64} (h : 9007199254740991 ≤ i.toInt.natAbs)
    {d : Nat} {rest : List Nat} (hds : ofNat i.toInt.natAbs = d :: rest) :
    convertToScientificNotation i = (if decide (i.toInt < 0) then [minus] else []) ++
      (digitByte d :: 46 :: (dropTrailingZeros rest).map digitByte) ++ 101 :: expText rest.length := by
  have hdig : AllDigits (d :: rest) := hds ▸ allDigits_ofNat _
  have hlen := length_ofNat_wide h (natAbs_toInt_le i)
  rw [hds, List.length_cons] at hlen
  have hrest : rest ≠ [] := by
    rintro rfl
    simp at hlen
  obtain ⟨-, -, hplus, hminus⟩ := digitByte_ne hdig.head
  have hitoa : itoa i.toInt = (if i.toInt < 0 then [45] else []) ++ digitByte d :: rest.map digitByte := by
    simp only [itoa, hds, List.map_cons]
  have hwide : ¬ (i.toInt < 9007199254740991 ∧ i.toInt > -9007199254740991) := by omega
  have htrim := trimRightZeros_map_digitByte hdig.cons
  simp only [convertToScientificNotation, if_neg hwide, hitoa,
    expText_natCast (show 10 ≤ rest.length by omega)]
  by_cases hneg : i.toInt < 0
  · simp [hneg, hrest, htrim, minus]
  · simp [hneg, hrest, htrim, show digitByte d ≠ 43 from hplus, show digitByte d ≠ 45 from hminus]

theorem length_dropTrailingZeros_le (ds : List Nat) : (dropTrailingZeros ds).length ≤ ds.length := by
  obtain ⟨k, hk⟩ := dropTrailingZeros_append ds
  conv_rhs => rw [hk]
  simp

/-- A text that reads as a decimal of at least one does not parse to zero. -/
theorem parsesToZero_of_parseDecimal {s : Bytes} {neg : Bool} {dec : Float64.Decimal}
    (hs : parseDecimal s = some (neg, dec)) (hv : 1 ≤ dec.value) : parsesToZero s = false := by
  have hmid : Float64.magMid 0 < dec.value := by
    rw [Float64.magMid_zero]
    calc (1 : ℚ) / 2 ^ 1075 < 1 := (div_lt_one (by positivity)).mpr (one_lt_pow₀ (by norm_num) (by norm_num))
      _ ≤ dec.value := hv
  have hm := Float64.roundMag_ne_zero hmid
  simp only [parsesToZero, parseFloat, hs]
  split_ifs <;> simp [hm]

/-- **`EncodeFloat` of a wide `int64`'s text**: the sign, the digits of the integer without
their trailing zeros, and the number of digits as the exponent. -/
theorem encodeFloat_wide {i : Int64} (h : 9007199254740991 ≤ i.toInt.natAbs) :
    encodeFloat (convertToScientificNotation i) = numCode (decide (i.toInt < 0))
      (dropTrailingZeros (ofNat i.toInt.natAbs)) (ofNat i.toInt.natAbs).length := by
  obtain ⟨d, rest, hds⟩ := List.exists_cons_of_ne_nil (ofNat_ne_nil i.toInt.natAbs)
  have hdig : AllDigits (d :: rest) := hds ▸ allDigits_ofNat _
  have hd0 : d ≠ 0 := ofNat_head_ne_zero (by omega) hds
  have hdrop : AllDigits (dropTrailingZeros rest) := allDigits_dropTrailingZeros hdig.cons
  have hlen := length_ofNat_wide h (natAbs_toInt_le i)
  rw [hds, List.length_cons] at hlen
  -- read back, the text is the kept digits scaled to the last one: at least one
  have hparse := parseDecimal_dotText (decide (i.toInt < 0)) hdig.head hdrop rest.length
  have hvalue : 1 ≤ (⟨value (d :: dropTrailingZeros rest),
      (rest.length : Int) - (dropTrailingZeros rest).length⟩ : Float64.Decimal).value := by
    have hc : 1 ≤ value (d :: dropTrailingZeros rest) := by
      rw [value_cons]
      have : 1 ≤ d * 10 ^ (dropTrailingZeros rest).length := Nat.one_le_iff_ne_zero.mpr (by positivity)
      omega
    have hx : 0 ≤ (rest.length : Int) - (dropTrailingZeros rest).length := by
      have := length_dropTrailingZeros_le rest
      omega
    rw [Float64.Decimal.value]
    exact one_le_mul_of_one_le_of_one_le (by exact_mod_cast hc) (one_le_zpow₀ (by norm_num) hx)
  have htext : (if decide (i.toInt < 0) then [minus] else []) ++
      (digitByte d :: 46 :: (dropTrailingZeros rest).map digitByte) ++ 101 :: expText rest.length =
      (if decide (i.toInt < 0) then [45] else []) ++
        digitByte d :: 46 :: ((dropTrailingZeros rest).map digitByte ++ 101 :: expText rest.length) := by
    simp [minus]
  have hmant : (46 :: (dropTrailingZeros rest).map digitByte).filter (· ≠ dot) =
      (dropTrailingZeros rest).map digitByte := by
    rw [List.filter_cons_of_neg (by simp [dot]), filter_map_digitByte hdrop]
  have hE : (101 : UInt8) ∉ 46 :: (dropTrailingZeros rest).map digitByte := by
    simp only [List.mem_cons, not_or]
    exact ⟨by decide, e_not_mem_map_digitByte hdrop⟩
  rw [convertToScientificNotation_wide h hds, encodeFloat_sci hdig.head hE hmant
    (by rw [atoi, parseInt_expText (by omega) (by omega)])
    (htext ▸ parsesToZero_of_parseDecimal hparse hvalue), hds, dropTrailingZeros_cons_of_ne hd0]
  push_cast
  rfl

/-! ## The value each code stands for -/

/-- The number the code of a N1QL number stands for: the printed value of the `float64` it is
printed through, or from `2^53 - 1` on the `int64` itself. -/
def N1qlNumber.codeValue : N1qlNumber → ℚ
  | .int64 i => if i.toInt.natAbs < 9007199254740991 then printedValue (Float64.ofInt64 i) else i.toInt
  | .float64 f => printedValue f

theorem numberCode_narrow (codec : Codec) {i : Int64} (h : i.toInt.natAbs < 9007199254740991) :
    numberCode codec (.int64 i) = floatCode (Float64.ofInt64 i) := by
  simp only [numberCode, convertToScientificNotation, floatCode]
  rw [if_pos (by omega)]

theorem numberCode_float64 {codec : Codec} (hc : codec.numberType ≠ .int64) (f : Float64) :
    numberCode codec (.float64 f) = floatCode f := by
  simp only [numberCode, normalizeFloat, floatCode]
  split <;> simp_all

theorem numberCode_wide (codec : Codec) {i : Int64} (h : 9007199254740991 ≤ i.toInt.natAbs) :
    NumberCode (numberCode codec (.int64 i)) i.toInt := by
  refine Or.inr ⟨_, _, _, significand_dropTrailingZeros (by omega), encodeFloat_wide h, ?_⟩
  -- the kept digits, scaled by the number of all digits, give back the magnitude
  have hscaled := frac_dropTrailingZeros_ofNat i.toInt.natAbs 0
  simp only [add_zero, zpow_zero, mul_one] at hscaled
  have habs : ((i.toInt.natAbs : ℕ) : ℚ) = |(i.toInt : ℚ)| := by rw [Nat.cast_natAbs, Int.cast_abs]
  rw [numValue, hscaled, habs]
  by_cases hneg : i.toInt < 0
  · have hq : (i.toInt : ℚ) < 0 := by exact_mod_cast hneg
    rw [if_pos (decide_eq_true hneg), abs_of_neg hq, neg_neg]
  · have hq : 0 ≤ (i.toInt : ℚ) := by exact_mod_cast not_lt.mp hneg
    rw [if_neg (by simpa using hneg), abs_of_nonneg hq]

/-- Every NUMBER code is written with sign prefixes and digits only. -/
theorem codeByte_numberCode (codec : Codec) (x : N1qlNumber) : ∀ b ∈ numberCode codec x, CodeByte b := by
  cases x with
  | float64 f =>
    simp only [numberCode, normalizeFloat]
    split
    · exact codeByte_floatCode f
    · exact codeByte_intCode _
    · exact codeByte_floatCode f
  | int64 i =>
    by_cases h : i.toInt.natAbs < 9007199254740991
    · rw [numberCode_narrow codec h]
      exact codeByte_floatCode _
    · rw [numberCode, encodeFloat_wide (by omega)]
      exact codeByte_numCode _ (allDigits_dropTrailingZeros (allDigits_ofNat _)) _

/-- **Every number's code is a number code of its `codeValue`** when `float64`s are printed,
as under every `numberType` but `int64`. -/
theorem numberCode_codeValue {codec : Codec} (hc : codec.numberType ≠ .int64) (x : N1qlNumber) :
    NumberCode (numberCode codec x) x.codeValue := by
  cases x with
  | float64 f =>
    rw [numberCode_float64 hc]
    exact floatCode_numberCode f
  | int64 i =>
    by_cases h : i.toInt.natAbs < 9007199254740991
    · rw [numberCode_narrow codec h, N1qlNumber.codeValue, if_pos h]
      exact floatCode_numberCode _
    · rw [N1qlNumber.codeValue, if_neg h]
      exact numberCode_wide codec (by omega)

/-- Codes that stand for values agree with the comparison of the values. -/
theorem lexAgree_of_numberCode {β : Type} {cmp : β → β → Ordering} {enc : β → Bytes} {x y : β}
    {q q' : ℚ} (hx : NumberCode (enc x) q) (hy : NumberCode (enc y) q') (hc : compare q q' = cmp x y) :
    LexAgree cmp enc x y := by
  intro s t
  rw [compare_numberCode hx hy, hc]

/-- Two NUMBER codes of `n1ql2code` compare as the values their number codes stand for. -/
theorem compare_n1ql2code_of_numberCode {codec : Codec} {x y : N1qlNumber} {q q' : ℚ}
    (hx : NumberCode (numberCode codec x) q) (hy : NumberCode (numberCode codec y) q') :
    compare (n1ql2code codec (.number x)) (n1ql2code codec (.number y)) = compare q q' :=
  (((@lexAgree_of_numberCode _ (fun _ _ => compare q q') _ _ _ _ _ hx hy rfl).append_right
    [terminator]).cons typeNumber).compare_eq

/-! ## Code values against values -/

/-- A number of magnitude `2^53 - 1` or more: an `int64` that `ConvertToScientificNotation`
writes digit by digit, or a `float64` of the same size. -/
def N1qlNumber.isWide : N1qlNumber → Bool
  | .int64 i => decide (9007199254740991 ≤ i.toInt.natAbs)
  | .float64 f => decide (9007199254740991 ≤ |f.value|)

def N1qlNumber.isFloat : N1qlNumber → Bool
  | .int64 _ => false
  | .float64 _ => true

theorem abs_value_int64 (i : Int64) : |(N1qlNumber.int64 i).value| = i.toInt.natAbs := by
  rw [N1qlNumber.value, Nat.cast_natAbs, Int.cast_abs]

theorem abs_value_lt {x : N1qlNumber} (hw : x.isWide = false) : |x.value| < 9007199254740991 := by
  cases x with
  | float64 f =>
    have h : ¬ 9007199254740991 ≤ |f.value| := by simpa [N1qlNumber.isWide] using hw
    exact not_le.mp h
  | int64 i =>
    have h : i.toInt.natAbs < 9007199254740991 := by simpa [N1qlNumber.isWide] using hw
    rw [abs_value_int64]
    exact_mod_cast h

theorem abs_printedValue (f : Float64) : |printedValue f| = Float64.shortestValue f.mag := by
  have h := Float64.shortestValue_nonneg f.mag
  unfold printedValue
  split_ifs
  · rw [abs_neg, abs_of_nonneg h]
  · rw [abs_of_nonneg h]

theorem abs_value (f : Float64) : |f.value| = Float64.magValue f.mag := by
  have h := Float64.magValue_nonneg f.mag
  unfold Float64.value
  split_ifs
  · rw [abs_neg, abs_of_nonneg h]
  · rw [abs_of_nonneg h]

/-- A `float64` below `2^53 - 1` prints below it: its shortest decimal rounds back to a
magnitude below that of `2^53 - 1`, which is a `float64`. -/
theorem abs_printedValue_lt {f : Float64} (h : |f.value| < 9007199254740991) :
    |printedValue f| < 9007199254740991 := by
  obtain ⟨m, -, hm⟩ := Float64.exists_magValue_eq 9007199254740991 (by norm_num)
  rw [Nat.cast_ofNat] at hm
  have hlt : f.mag < m := by
    rw [← Float64.magValue_strictMono.lt_iff_lt, hm, ← abs_value]
    exact h
  rw [abs_printedValue, ← hm]
  exact (Float64.admissible_shortestValue f.mag).lt_magValue hlt

/-- Numbers below a bound that `c` reaches all compare the same with `c`. -/
theorem compare_of_abs_lt {a b c B : ℚ} (ha : |a| < B) (hb : |b| < B) (hc : B ≤ |c|) :
    compare a c = compare b c := by
  rcases le_or_gt 0 c with h0 | h0
  · rw [abs_of_nonneg h0] at hc
    rw [(compare_lt_iff_lt).mpr (by linarith [le_abs_self a]),
      (compare_lt_iff_lt).mpr (by linarith [le_abs_self b])]
  · rw [abs_of_neg h0] at hc
    rw [(compare_gt_iff_gt).mpr (by linarith [neg_abs_le a]),
      (compare_gt_iff_gt).mpr (by linarith [neg_abs_le b])]

theorem codeValue_printed {x : N1qlNumber} (hx : x.isFloat = true ∨ x.isWide = false) :
    ∃ f : Float64, x.codeValue = printedValue f ∧ f.value = x.value := by
  cases x with
  | float64 f => exact ⟨f, rfl, rfl⟩
  | int64 i =>
    have h : i.toInt.natAbs < 9007199254740991 := by
      simpa [N1qlNumber.isFloat, N1qlNumber.isWide] using hx
    exact ⟨Float64.ofInt64 i, by rw [N1qlNumber.codeValue, if_pos h], Float64.ofInt64_value (by omega)⟩

theorem codeValue_wideInt {x : N1qlNumber} (hf : x.isFloat = false) (hw : x.isWide = true) :
    x.codeValue = x.value ∧ 9007199254740991 ≤ |x.value| := by
  cases x with
  | float64 f => simp [N1qlNumber.isFloat] at hf
  | int64 i =>
    have h : 9007199254740991 ≤ i.toInt.natAbs := by simpa [N1qlNumber.isWide] using hw
    refine ⟨by rw [N1qlNumber.codeValue, if_neg (by omega), N1qlNumber.value], ?_⟩
    rw [abs_value_int64]
    exact_mod_cast h

/-- A number printed through a `float64` that meets a wide `int64` is narrow. -/
theorem isWide_eq_false_of_wideInt {x y : N1qlNumber}
    (hxy : x.isWide = true → y.isWide = true → x.isFloat = y.isFloat)
    (hx : x.isFloat = true ∨ x.isWide = false) (hfy : y.isFloat = false) (hwy : y.isWide = true) :
    x.isWide = false := by
  rcases hx with hx | hx
  · by_contra hw
    have h := hxy (by simpa using hw) hwy
    rw [hx, hfy] at h
    exact absurd h (by decide)
  · exact hx

/-- **Code values are ordered as the numbers** unless a wide `int64` meets a wide `float64`. -/
theorem compare_codeValue {x y : N1qlNumber}
    (hxy : x.isWide = true → y.isWide = true → x.isFloat = y.isFloat) :
    compare x.codeValue y.codeValue = compare x.value y.value := by
  have hswap : ∀ a b : ℚ, compare a b = (compare b a).swap := fun _ _ => Std.OrientedCmp.eq_swap
  -- a number is printed through a `float64`, or is a wide `int64` written digit by digit
  have hkind : ∀ z : N1qlNumber,
      (z.isFloat = true ∨ z.isWide = false) ∨ (z.isFloat = false ∧ z.isWide = true) := by
    intro z
    cases z.isFloat <;> cases z.isWide <;> simp
  rcases hkind x with hx | ⟨hfx, hwx⟩ <;> rcases hkind y with hy | ⟨hfy, hwy⟩
  · -- shortest decimals are ordered as the `float64`s
    obtain ⟨f, hcx, hvx⟩ := codeValue_printed hx
    obtain ⟨g, hcy, hvy⟩ := codeValue_printed hy
    rw [hcx, hcy, compare_printedValue, hvx, hvy]
  · -- a narrow number and its printed value both lie below the wide `int64`
    have hax := abs_value_lt (isWide_eq_false_of_wideInt hxy hx hfy hwy)
    obtain ⟨f, hcx, hvx⟩ := codeValue_printed hx
    obtain ⟨hcy, hby⟩ := codeValue_wideInt hfy hwy
    rw [hcx, hcy]
    exact compare_of_abs_lt (abs_printedValue_lt (hvx ▸ hax)) hax hby
  · have hay := abs_value_lt (isWide_eq_false_of_wideInt (fun h h' => (hxy h' h).symm) hy hfx hwx)
    obtain ⟨g, hcy, hvy⟩ := codeValue_printed hy
    obtain ⟨hcx, hbx⟩ := codeValue_wideInt hfx hwx
    rw [hcx, hcy, hswap, compare_of_abs_lt (abs_printedValue_lt (hvy ▸ hay)) hay hbx, ← hswap]
  · rw [(codeValue_wideInt hfx hwx).1, (codeValue_wideInt hfy hwy).1]

theorem compare_n1ql2code_number (codec : Codec) (hc : codec.numberType ≠ .int64) (x y : N1qlNumber)
    (hxy : x.isWide = true → y.isWide = true → x.isFloat = y.isFloat) :
    compare (n1ql2code codec (.number x)) (n1ql2code codec (.number y)) = compare x.value y.value := by
  rw [compare_n1ql2code_of_numberCode (numberCode_codeValue hc x) (numberCode_codeValue hc y)]
  exact compare_codeValue hxy

theorem compare_n1ql2code_three_wide :
    compare (n1ql2code newCodec (.number (.int64 3)))
      (n1ql2code newCodec (.number (.int64 1152921504606846976))) = .lt := by
  rw [compare_n1ql2code_number newCodec (by decide) _ _ (by decide)]
  decide

/-! ## `2^60` as an `int64` and as a `float64` -/

/-- `float64(1 << 60)`: the exponent field `1023 + 60` and a zero fraction. -/
def twoPow60 : Float64 := ⟨false, 1083 * 2 ^ 52, by decide⟩

theorem magValue_twoPow60 : Float64.magValue (1083 * 2 ^ 52) = 2 ^ 60 := by decide +kernel

theorem value_twoPow60 : twoPow60.value = 2 ^ 60 := by
  rw [Float64.value, if_neg (by decide)]
  exact magValue_twoPow60

/-- `FormatFloat` prints `2^60 = 1152921504606846976` as `1.152921504606847e+18`: sixteen
digits already round back to it. -/
theorem printedValue_twoPow60 : printedValue twoPow60 = 1152921504606847 * 10 ^ 3 := by
  have hk : Int.log 10 ((2 : ℚ) ^ 60) = 18 := by
    rw [show (2 : ℚ) ^ 60 = ((2 ^ 60 : ℕ) : ℚ) by norm_num, Int.log_natCast]
    norm_cast
  have hs : Float64.shortest (1083 * 2 ^ 52) = ⟨1152921504606847, 3⟩ := by
    rw [Float64.shortest, magValue_twoPow60, hk]
    decide +kernel
  have hmag : twoPow60.mag = 1083 * 2 ^ 52 := rfl
  rw [printedValue, if_neg (by decide), Float64.shortestValue, if_neg (by rw [hmag]; norm_num), hmag, hs,
    Float64.Decimal.value]
  norm_num

theorem n1ql2code_two_pow_sixty :
    (N1qlNumber.int64 1152921504606846976).value = (N1qlNumber.float64 twoPow60).value ∧
      compare (n1ql2code newCodec (.number (.int64 1152921504606846976)))
        (n1ql2code newCodec (.number (.float64 twoPow60))) = .lt := by
  have hi : (1152921504606846976 : Int64).toInt = 2 ^ 60 := by decide
  have hint := numberCode_wide newCodec (i := 1152921504606846976) (by rw [hi]; decide)
  have hfloat : NumberCode (numberCode newCodec (.float64 twoPow60)) (N1qlNumber.float64 twoPow60).codeValue :=
    numberCode_codeValue (by decide) (.float64 twoPow60)
  rw [N1qlNumber.codeValue, printedValue_twoPow60] at hfloat
  refine ⟨?_, ?_⟩
  · rw [N1qlNumber.value, N1qlNumber.value, hi, value_twoPow60]
    norm_num
  · rw [compare_n1ql2code_of_numberCode hint hfloat, hi]
    exact compare_lt_iff_lt.mpr (by norm_num)

end Collatejson
