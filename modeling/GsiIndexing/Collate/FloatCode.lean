import GsiIndexing.Go.StrconvLemmas
import GsiIndexing.Collate.IntCode

/-!
# collatejson — the float code orders the `float64`s

`EncodeFloat` reads a `%e` text `±d.ddd e±x` and writes `numCode`: the sign prefix, the
integer code of the exponent `x + 1` of the significand `0.dddd` (negated for negative
numbers), and the significand's digits closed by the other prefix (complemented for
negative numbers). `encodeFloat_sci` proves this shape for every such text, and
`floatCode_lexAgree` that on the texts `FormatFloat(f, 'e', -1, 64)` prints the code
orders the `float64`s by value, with `-0` and `0` equal.

The order argument runs in two steps. Codes of one sign compare by exponent and then by
significand (`compare_numCode_pos`, `compare_numCode_neg`), which is how numbers in
scientific notation compare (`Digits.compare_mul_zpow`); the negative code is the positive
one under a byte map that reverses the order of the bytes involved, so `LexAgree.map_swap`
turns it round. Then the shortest decimals are ordered as the `float64`s they round to,
because rounding is monotone (`compare_shortestValue`).
-/

namespace Collatejson

open Go LexCode Digits

/-! ## Reading a `%e` text -/

theorem splitAtE_append {mant exp : Bytes} (h : 101 ∉ mant) :
    splitAtE (mant ++ 101 :: exp) = (mant, exp) := by
  have hall : ∀ c ∈ mant, decide (c ≠ 101) = true := by
    intro c hc
    simp only [ne_eq, decide_eq_true_eq]
    rintro rfl
    exact h hc
  rw [splitAtE, if_pos (by simp), List.takeWhile_append_of_pos hall,
    List.dropWhile_append_of_pos hall]
  simp

theorem afterDot_append {pre post : Bytes} (h : dot ∉ pre) : afterDot (pre ++ dot :: post) = post := by
  have hall : ∀ c ∈ pre, decide (c ≠ dot) = true := by
    intro c hc
    simp only [ne_eq, decide_eq_true_eq]
    rintro rfl
    exact h hc
  rw [afterDot, if_pos (by simp), List.dropWhile_append_of_pos hall]
  simp

theorem encodeSD_pos (digits : Bytes) :
    encodeSD (posPrefix :: zero :: dot :: digits) = posPrefix :: (digits ++ [negPrefix]) := by
  have hs : signPrefix (posPrefix :: zero :: dot :: digits) =
      (posPrefix, posPrefix :: zero :: dot :: digits) := by
    simp [signPrefix, show posPrefix ≠ plus by decide, show posPrefix ≠ minus by decide]
  have ha : afterDot (posPrefix :: zero :: dot :: digits) = digits :=
    @afterDot_append [posPrefix, zero] digits (by decide)
  simp [encodeSD, hs, ha, show posPrefix ≠ negPrefix by decide, prefixOpp]

theorem encodeSD_neg (digits : Bytes) :
    encodeSD (negPrefix :: zero :: dot :: digits) =
      negPrefix :: (digits.map negIntLookup ++ [posPrefix]) := by
  have hs : signPrefix (negPrefix :: zero :: dot :: digits) = (negPrefix, zero :: dot :: digits) := by
    simp [signPrefix, show minus ≠ plus by decide, show negPrefix = minus from rfl]
  have ha : afterDot (zero :: dot :: digits) = digits :=
    @afterDot_append [zero] digits (by decide)
  simp [encodeSD, hs, ha, prefixOpp, show negPrefix ≠ posPrefix by decide]

/-! ## The shape of `EncodeFloat` -/

/-- What `EncodeFloat` writes for `±0.ds × 10 ^ x`. -/
def numCode (neg : Bool) (ds : List Nat) (x : Int) : Bytes :=
  if neg then negPrefix :: (intCode (-x) ++ (ds.map digitByte).map negIntLookup ++ [posPrefix])
  else posPrefix :: (intCode x ++ ds.map digitByte ++ [negPrefix])

/-- A digit byte is neither `e`, `.`, `+` nor `-`. -/
theorem digitByte_ne {d : Nat} (hd : d < 10) :
    digitByte d ≠ 101 ∧ digitByte d ≠ dot ∧ digitByte d ≠ plus ∧ digitByte d ≠ minus := by
  have h := digitByte_toNat hd
  have h101 : (101 : UInt8).toNat = 101 := rfl
  have hdot : dot.toNat = 46 := rfl
  have hplus : plus.toNat = 43 := rfl
  have hminus : minus.toNat = 45 := rfl
  refine ⟨?_, ?_, ?_, ?_⟩ <;> intro he <;> rw [he] at h <;> omega

/-- Digits keep all their bytes when `EncodeFloat` drops the point. -/
theorem filter_map_digitByte {ds : List Nat} (hds : AllDigits ds) :
    (ds.map digitByte).filter (· ≠ dot) = ds.map digitByte := by
  rw [List.filter_eq_self]
  intro c hc
  obtain ⟨d, hd, rfl⟩ := List.mem_map.mp hc
  simpa using (digitByte_ne (hds d hd)).2.1

theorem e_not_mem_map_digitByte {ds : List Nat} (hds : AllDigits ds) :
    (101 : UInt8) ∉ ds.map digitByte := by
  intro hc
  obtain ⟨d, hd, he⟩ := List.mem_map.mp hc
  exact (digitByte_ne (hds d hd)).1 he

/-- **`EncodeFloat` on scientific notation.** A text `±d·mtail e expB`, whose mantissa
holds the digits `d :: rest` and dots and whose exponent text reads as `e`, is coded as
`numCode` of the significand `0.d rest` and the exponent `e + 1`, unless it parses to zero. -/
theorem encodeFloat_sci {neg : Bool} {d : Nat} {rest : List Nat} {mtail expB : Bytes} {e : Int}
    (hd : d < 10) (hE : 101 ∉ mtail) (hmant : mtail.filter (· ≠ dot) = rest.map digitByte)
    (hexp : (atoi expB).1 = e)
    (hz : parsesToZero ((if neg then [minus] else []) ++ (digitByte d :: mtail) ++ 101 :: expB) =
      false) :
    encodeFloat ((if neg then [minus] else []) ++ (digitByte d :: mtail) ++ 101 :: expB) =
      numCode neg (d :: rest) (e + 1) := by
  obtain ⟨hdE, hdDot, hdPlus, hdMinus⟩ := digitByte_ne hd
  have hsplit : splitAtE (digitByte d :: mtail ++ 101 :: expB) = (digitByte d :: mtail, expB) :=
    splitAtE_append (by simp [Ne.symm hdE, hE])
  have hfilter : (digitByte d :: mtail).filter (· ≠ dot) = (d :: rest).map digitByte := by
    rw [List.filter_cons_of_pos (by simpa using hdDot), hmant, List.map_cons]
  cases neg with
  | false =>
    -- a positive text starts with its first digit, which `signPrefix` leaves in place
    have hs : signPrefix (digitByte d :: (mtail ++ 101 :: expB)) =
        (posPrefix, digitByte d :: (mtail ++ 101 :: expB)) := by
      simp [signPrefix, hdPlus, hdMinus]
    simp only [Bool.false_eq_true, if_false, List.nil_append, List.cons_append] at hz hsplit ⊢
    rw [encodeFloat.eq_2 _ (List.cons_ne_nil _ _), if_neg (by simp [hz]), hs]
    simp only [hsplit, hfilter, hexp, show posPrefix ≠ negPrefix by decide, if_false,
      encodeSD_pos, List.tail_cons, numCode, intCode, Bool.false_eq_true, List.append_assoc]
  | true =>
    have hs : signPrefix (minus :: digitByte d :: (mtail ++ 101 :: expB)) =
        (negPrefix, digitByte d :: (mtail ++ 101 :: expB)) := by
      simp [signPrefix, show minus ≠ plus by decide, negPrefix]
    simp only [if_true, List.cons_append, List.nil_append] at hz ⊢
    rw [encodeFloat.eq_2 _ (List.cons_ne_nil _ _), if_neg (by simp [hz]), hs]
    simp only [List.cons_append] at hsplit
    simp only [hsplit, hfilter, hexp, if_true, encodeSD_neg, List.tail_cons, numCode, intCode,
      List.map_map, List.append_assoc]

/-! ## Codes of one sign -/

theorem compare_negPrefix_digitByte {d : Nat} (hd : d < 10) : compare negPrefix (digitByte d) = .lt := by
  rw [compare_byte, digitByte_toNat hd, (compare_lt_iff_lt).mpr (by rw [show negPrefix.toNat = 45 from rfl]; omega)]

theorem compare_digitByte_posPrefix {d : Nat} (hd : d < 10) : compare (digitByte d) posPrefix = .lt := by
  rw [compare_byte, digitByte_toNat hd, (compare_lt_iff_lt).mpr (by rw [show posPrefix.toNat = 62 from rfl]; omega)]

/-- **Positive codes compare as scientific notation**: exponent first, then significand. -/
theorem compare_numCode_pos {ds es : List Nat} (hds : Significand ds) (hes : Significand es)
    (x y : Int) (s t : Bytes) :
    compare (numCode false ds x ++ s) (numCode false es y ++ t) =
      (compare (frac ds * 10 ^ x) (frac es * 10 ^ y)).then (compare s t) := by
  -- the terminator `-` sorts below every digit byte
  have hz : ∀ {fs : List Nat}, AllDigits fs → ∀ c ∈ fs.map digitByte, compare negPrefix c = .lt := by
    intro fs hfs c hc
    obtain ⟨d, hd, rfl⟩ := List.mem_map.mp hc
    exact compare_negPrefix_digitByte (hfs d hd)
  simp only [numCode, Bool.false_eq_true, if_false, List.cons_append, List.compare_cons_cons,
    Std.ReflOrd.compare_self, Ordering.eq_then, List.append_assoc, List.nil_append]
  rw [intCode_lexAgree x y, compare_append_terminator (hz hds.all_digits) (hz hes.all_digits),
    compare_map_digitByte hds.all_digits hes.all_digits,
    compare_eq_compare_frac hds.all_digits hes.all_digits hds.no_trailing_zero hes.no_trailing_zero,
    ← Ordering.then_assoc, compare_mul_zpow hds.frac_mem hes.frac_mem]

/-- The byte map under which the digits and terminator of a positive code become those of
a negative one: complemented digits, and `>` for `-`. -/
def flipDigit (c : UInt8) : UInt8 := if c = negPrefix then posPrefix else negIntLookup c

theorem flipDigit_digitByte {d : Nat} (hd : d < 10) : flipDigit (digitByte d) = digitByte (9 - d) := by
  have hne : digitByte d ≠ negPrefix := (digitByte_ne hd).2.2.2
  rw [flipDigit, if_neg hne, negIntLookup_digitByte hd]

/-- `flipDigit` reverses the order of digit bytes and `-`. -/
theorem compare_flipDigit {c c' : UInt8} (hc : c = negPrefix ∨ ∃ d < 10, c = digitByte d)
    (hc' : c' = negPrefix ∨ ∃ d < 10, c' = digitByte d) :
    compare (flipDigit c) (flipDigit c') = compare c' c := by
  have hflip : flipDigit negPrefix = posPrefix := by simp [flipDigit]
  rcases hc with rfl | ⟨d, hd, rfl⟩ <;> rcases hc' with rfl | ⟨d', hd', rfl⟩
  · rw [hflip, Std.ReflOrd.compare_self, Std.ReflOrd.compare_self]
  · -- `>` against a complemented digit, and a digit against `-`: both `gt`
    rw [hflip, flipDigit_digitByte hd',
      show compare posPrefix (digitByte (9 - d')) = (compare (digitByte (9 - d')) posPrefix).swap
        from Std.OrientedCmp.eq_swap,
      show compare (digitByte d') negPrefix = (compare negPrefix (digitByte d')).swap
        from Std.OrientedCmp.eq_swap,
      compare_digitByte_posPrefix (by omega), compare_negPrefix_digitByte hd']
  · rw [hflip, flipDigit_digitByte hd, compare_digitByte_posPrefix (by omega),
      compare_negPrefix_digitByte hd]
  · rw [flipDigit_digitByte hd, flipDigit_digitByte hd', compare_digitByte (by omega) (by omega),
      compare_digitByte hd' hd]
    rcases lt_trichotomy d d' with h | rfl | h
    · rw [(compare_gt_iff_gt).mpr (by omega), (compare_gt_iff_gt).mpr h]
    · simp
    · rw [(compare_lt_iff_lt).mpr (by omega), (compare_lt_iff_lt).mpr h]

/-- The digits and terminator of a negative code are those of a positive code, flipped. -/
theorem numCode_true {ds : List Nat} (hds : AllDigits ds) (x : Int) :
    numCode true ds x =
      negPrefix :: (intCode (-x) ++ (ds.map digitByte ++ [negPrefix]).map flipDigit) := by
  have hflip : flipDigit negPrefix = posPrefix := by simp [flipDigit]
  have hmap : (ds.map digitByte).map negIntLookup = (ds.map digitByte).map flipDigit := by
    apply List.map_congr_left
    intro c hc
    obtain ⟨d, hd, rfl⟩ := List.mem_map.mp hc
    have hne : digitByte d ≠ negPrefix := (digitByte_ne (hds d hd)).2.2.2
    simp [flipDigit, hne]
  rw [numCode, if_pos rfl, List.map_append, hmap, List.map_singleton, hflip, List.append_assoc]

/-- **Negative codes compare the other way round.** -/
theorem compare_numCode_neg {ds es : List Nat} (hds : Significand ds) (hes : Significand es)
    (x y : Int) (s t : Bytes) :
    compare (numCode true ds x ++ s) (numCode true es y ++ t) =
      (compare (-(frac ds * 10 ^ x)) (-(frac es * 10 ^ y))).then (compare s t) := by
  have hz : ∀ {fs : List Nat}, AllDigits fs → ∀ c ∈ fs.map digitByte, compare negPrefix c = .lt := by
    intro fs hfs c hc
    obtain ⟨d, hd, rfl⟩ := List.mem_map.mp hc
    exact compare_negPrefix_digitByte (hfs d hd)
  -- the positive digits-and-terminator agree with the digit order; flipping reverses it
  have hagree := (lexAgree_terminated (hz hds.all_digits) (hz hes.all_digits)).map_swap
    (φ := flipDigit) (by
      intro c hc c' hc'
      have shape : ∀ {fs : List Nat}, AllDigits fs → ∀ b ∈ fs.map digitByte ++ [negPrefix],
          b = negPrefix ∨ ∃ d < 10, b = digitByte d := by
        intro fs hfs b hb
        rcases List.mem_append.mp hb with hb | hb
        · obtain ⟨d, hd, rfl⟩ := List.mem_map.mp hb
          exact .inr ⟨d, hfs d hd, rfl⟩
        · exact .inl (List.mem_singleton.mp hb)
      exact compare_flipDigit (shape hds.all_digits c hc) (shape hes.all_digits c' hc'))
  rw [numCode_true hds.all_digits, numCode_true hes.all_digits]
  simp only [List.cons_append, List.compare_cons_cons, Std.ReflOrd.compare_self, Ordering.eq_then,
    List.append_assoc]
  rw [intCode_lexAgree (-x) (-y), hagree s t]
  dsimp only
  rw [compare_map_digitByte hds.all_digits hes.all_digits,
    compare_eq_compare_frac hds.all_digits hes.all_digits hds.no_trailing_zero hes.no_trailing_zero]
  rw [compare_neg_neg, compare_neg_neg, Std.OrientedCmp.eq_swap.symm, ← Ordering.then_assoc,
    ← compare_mul_zpow hes.frac_mem hds.frac_mem]

/-! ## Codes of any sign -/

/-- The value `numCode neg ds x` stands for: `±0.ds × 10 ^ x`. -/
def numValue (neg : Bool) (ds : List Nat) (x : Int) : ℚ :=
  if neg then -(frac ds * 10 ^ x) else frac ds * 10 ^ x

theorem numCode_head (neg : Bool) (ds : List Nat) (x : Int) (s : Bytes) :
    numCode neg ds x ++ s = (if neg then negPrefix else posPrefix) ::
      ((numCode neg ds x).tail ++ s) := by
  cases neg <;> rfl

/-- **Number codes compare as the numbers**, whatever follows them. -/
theorem compare_numCode {neg neg' : Bool} {ds es : List Nat} (hds : Significand ds)
    (hes : Significand es) (x y : Int) (s t : Bytes) :
    compare (numCode neg ds x ++ s) (numCode neg' es y ++ t) =
      (compare (numValue neg ds x) (numValue neg' es y)).then (compare s t) := by
  have hpx := hds.scaled_pos x
  have hpy := hes.scaled_pos y
  cases neg <;> cases neg'
  · exact compare_numCode_pos hds hes x y s t
  · -- a positive code against a negative one: `>` after `-`
    rw [numCode_head, numCode_head, compare_cons_cons_of_ne (by decide)]
    simp only [numValue, Bool.false_eq_true, if_false, if_true]
    rw [(compare_gt_iff_gt).mpr (by linarith), show compare posPrefix negPrefix = .gt by decide]
    rfl
  · rw [numCode_head, numCode_head, compare_cons_cons_of_ne (by decide)]
    simp only [numValue, Bool.false_eq_true, if_false, if_true]
    rw [(compare_lt_iff_lt).mpr (by linarith), show compare negPrefix posPrefix = .lt by decide]
    rfl
  · exact compare_numCode_neg hds hes x y s t

/-- Zero's code `0` sorts between the negative codes and the positive ones. -/
theorem compare_zero_numCode {neg : Bool} {ds : List Nat} (hds : Significand ds) (x : Int)
    (s t : Bytes) :
    compare ([zero] ++ s) (numCode neg ds x ++ t) = compare 0 (numValue neg ds x) := by
  have hp := hds.scaled_pos x
  rw [numCode_head, List.singleton_append, compare_cons_cons_of_ne (by cases neg <;> decide)]
  cases neg
  · simp only [numValue, Bool.false_eq_true, if_false]
    rw [(compare_lt_iff_lt).mpr hp]
    decide
  · simp only [numValue, if_true]
    rw [(compare_gt_iff_gt).mpr (by linarith)]
    decide

theorem numValue_ne_zero {neg : Bool} {ds : List Nat} (hds : Significand ds) (x : Int) :
    numValue neg ds x ≠ 0 := by
  have hp := hds.scaled_pos x
  cases neg
  · exact hp.ne'
  · exact neg_ne_zero.mpr hp.ne'

/-- `c` is a number code of the value `q`: the code `0` of zero, or a sign, exponent and
significand code. -/
def NumberCode (c : Bytes) (q : ℚ) : Prop :=
  (c = [zero] ∧ q = 0) ∨ ∃ neg ds x, Significand ds ∧ c = numCode neg ds x ∧ numValue neg ds x = q

/-- **Number codes compare as their values**, whatever follows them. -/
theorem compare_numberCode {c c' : Bytes} {q q' : ℚ} (hc : NumberCode c q) (hc' : NumberCode c' q')
    (s t : Bytes) : compare (c ++ s) (c' ++ t) = (compare q q').then (compare s t) := by
  rcases hc with ⟨rfl, rfl⟩ | ⟨neg, ds, x, hds, rfl, rfl⟩ <;>
    rcases hc' with ⟨rfl, rfl⟩ | ⟨neg', es, y, hes, rfl, rfl⟩
  · rw [compare_append_left, Std.ReflOrd.compare_self, Ordering.eq_then]
  · -- zero against a non-zero number: the sign decides
    have hne : compare 0 (numValue neg' es y) ≠ .eq :=
      fun he => numValue_ne_zero hes y (compare_eq_iff_eq.mp he).symm
    rw [compare_zero_numCode hes, then_of_ne_eq hne]
  · have hne : compare (numValue neg ds x) 0 ≠ .eq :=
      fun he => numValue_ne_zero hds x (compare_eq_iff_eq.mp he)
    have hswap : ∀ a b : Bytes, compare a b = (compare b a).swap := fun _ _ => Std.OrientedCmp.eq_swap
    have hswapQ : ∀ a b : ℚ, compare a b = (compare b a).swap := fun _ _ => Std.OrientedCmp.eq_swap
    rw [hswap, compare_zero_numCode hds, ← hswapQ, then_of_ne_eq hne]
  · exact compare_numCode hds hes x y s t

/-! ## The code of a `float64` -/

/-- What `json2code` writes between `TypeNumber` and the terminator for a `float64` with the
default number type: `EncodeFloat` of `FormatFloat(f, 'e', -1, 64)`. -/
def floatCode (f : Float64) : Bytes := encodeFloat (formatFloatE f)

/-- The value a `float64` prints as: its shortest decimal with its sign. -/
def printedValue (f : Float64) : ℚ :=
  if f.sign then -Float64.shortestValue f.mag else Float64.shortestValue f.mag

theorem floatCode_of_mag_eq_zero {f : Float64} (h : f.mag = 0) : floatCode f = [zero] := by
  have hz : parsesToZero (formatFloatE f) = true := by
    simp [parsesToZero, parseFloat_formatFloatE, h]
  rw [floatCode, encodeFloat.eq_2 _ (by cases hs : f.sign <;> simp [formatFloatE, h, eText, hs]),
    if_pos hz]

/-- A non-zero `float64` is coded as its shortest decimal: the printed digits as the
significand and the exponent of the first digit plus one. -/
theorem floatCode_of_mag_ne_zero {f : Float64} (h : f.mag ≠ 0) :
    floatCode f = numCode f.sign (dropTrailingZeros (ofNat (Float64.shortest f.mag).coef))
      (((ofNat (Float64.shortest f.mag).coef).length : Int) + (Float64.shortest f.mag).exp) := by
  obtain ⟨d, rest, hds, -⟩ := dropTrailingZeros_ofNat_cons (shortest_coef_ne_zero h)
  have hdig : AllDigits (d :: rest) := hds ▸ allDigits_dropTrailingZeros (allDigits_ofNat _)
  have hbounds := shortest_exponent_bounds h f.mag_lt
  have hz : parsesToZero (formatFloatE f) = false := by
    simp [parsesToZero, parseFloat_formatFloatE, h]
  -- `FormatFloat`'s text in the shape `EncodeFloat` reads
  have htext : formatFloatE f = (if f.sign then [minus] else []) ++
      (digitByte d :: (if rest = [] then [] else dot :: rest.map digitByte)) ++
        101 :: expText (((ofNat (Float64.shortest f.mag).coef).length : Int) - 1 +
          (Float64.shortest f.mag).exp) := by
    simp only [formatFloatE, h, if_false, hds, eText]
    rfl
  have hmant : (if rest = [] then [] else dot :: rest.map digitByte).filter (· ≠ dot) =
      rest.map digitByte := by
    split_ifs with hr
    · simp [hr]
    · rw [List.filter_cons_of_neg (by simp), filter_map_digitByte hdig.cons]
  have hE : (101 : UInt8) ∉ (if rest = [] then [] else dot :: rest.map digitByte) := by
    split_ifs
    · simp
    · simp only [List.mem_cons, not_or]
      exact ⟨by decide, e_not_mem_map_digitByte hdig.cons⟩
  rw [floatCode, htext, encodeFloat_sci hdig.head hE hmant
    (by rw [atoi, parseInt_expText (by omega) (by omega)]) (htext ▸ hz), ← hds]
  congr 1
  ring

theorem significand_dropTrailingZeros {c : Nat} (hc : c ≠ 0) :
    Significand (dropTrailingZeros (ofNat c)) := by
  obtain ⟨d, rest, hds, hd⟩ := dropTrailingZeros_ofNat_cons hc
  exact ⟨allDigits_dropTrailingZeros (allDigits_ofNat c), noTrailingZero_dropTrailingZeros _,
    ⟨d, rest, hds, hd⟩⟩

/-- The number a non-zero `float64`'s code stands for is its printed value. -/
theorem numValue_floatCode {f : Float64} (h : f.mag ≠ 0) :
    numValue f.sign (dropTrailingZeros (ofNat (Float64.shortest f.mag).coef))
      (((ofNat (Float64.shortest f.mag).coef).length : Int) + (Float64.shortest f.mag).exp) =
        printedValue f := by
  have hscaled : frac (dropTrailingZeros (ofNat (Float64.shortest f.mag).coef)) *
      10 ^ (((ofNat (Float64.shortest f.mag).coef).length : Int) + (Float64.shortest f.mag).exp) =
        Float64.shortestValue f.mag := by
    rw [frac_dropTrailingZeros_ofNat, Float64.shortestValue, if_neg h, Float64.Decimal.value]
  simp only [numValue, printedValue, hscaled]

/-- Printed values are ordered as the `float64`s: shortest decimals are ordered as their
magnitudes, and only zero prints as zero. -/
theorem compare_printedValue (f g : Float64) :
    compare (printedValue f) (printedValue g) = compare f.value g.value := by
  have hzero : ∀ m : Nat, Float64.magValue m = 0 ↔ m = 0 := by
    intro m
    constructor
    · intro h
      by_contra hm
      exact (Float64.magValue_pos (Nat.pos_of_ne_zero hm)).ne' h
    · rintro rfl
      exact Float64.magValue_zero
  exact compare_signed (Float64.shortestValue_nonneg _) (Float64.shortestValue_nonneg _)
    (Float64.magValue_nonneg _) (Float64.magValue_nonneg _)
    (Float64.compare_shortestValue f.mag_lt g.mag_lt)
    (by rw [Float64.shortestValue_eq_zero_iff, hzero]) (by rw [Float64.shortestValue_eq_zero_iff, hzero])
    f.sign g.sign

theorem printedValue_of_mag_eq_zero {f : Float64} (h : f.mag = 0) : printedValue f = 0 := by
  simp [printedValue, Float64.shortestValue, h]

theorem floatCode_numberCode (f : Float64) : NumberCode (floatCode f) (printedValue f) := by
  by_cases hf : f.mag = 0
  · exact Or.inl ⟨floatCode_of_mag_eq_zero hf, printedValue_of_mag_eq_zero hf⟩
  · exact Or.inr ⟨_, _, _, significand_dropTrailingZeros (shortest_coef_ne_zero hf),
      floatCode_of_mag_ne_zero hf, numValue_floatCode hf⟩

/-- **The float code orders by printed value**, whatever follows it. -/
theorem compare_floatCode (f g : Float64) (s t : Bytes) :
    compare (floatCode f ++ s) (floatCode g ++ t) =
      (compare (printedValue f) (printedValue g)).then (compare s t) :=
  compare_numberCode (floatCode_numberCode f) (floatCode_numberCode g) s t

/-- **`EncodeFloat` of `FormatFloat(f, 'e', -1, 64)` orders the `float64`s by value**, with
`-0` equal to `0`, and no code is a proper prefix of another. -/
theorem floatCode_lexAgree (f g : Float64) :
    LexAgree (fun f g : Float64 => compare f.value g.value) floatCode f g := by
  intro s t
  rw [compare_floatCode, compare_printedValue]


/-! ## The bytes of a float code -/

theorem codeByte_numCode (neg : Bool) {ds : List Nat} (hds : AllDigits ds) (x : Int) :
    ∀ b ∈ numCode neg ds x, CodeByte b := by
  -- the digits, complemented or not, between two sign prefixes and after the exponent
  have hdig : ∀ b ∈ ds.map digitByte, CodeByte b := fun b hb => by
    obtain ⟨d, hd, rfl⟩ := List.mem_map.mp hb
    exact codeByte_digitByte (hds d hd)
  have hcompl : ∀ b ∈ (ds.map digitByte).map negIntLookup, CodeByte b := fun b hb => by
    obtain ⟨c, hc, rfl⟩ := List.mem_map.mp hb
    obtain ⟨d, hd, rfl⟩ := List.mem_map.mp hc
    rw [negIntLookup_digitByte (hds d hd)]
    exact codeByte_digitByte (by omega)
  intro b hb
  unfold numCode at hb
  split_ifs at hb
  · simp only [List.mem_cons, List.mem_append] at hb
    rcases hb with rfl | ((hb | hb) | (rfl | hb))
    · exact Or.inl rfl
    · exact codeByte_intCode _ b hb
    · exact hcompl b hb
    · exact Or.inr (Or.inl rfl)
    · exact absurd hb List.not_mem_nil
  · simp only [List.mem_cons, List.mem_append] at hb
    rcases hb with rfl | ((hb | hb) | (rfl | hb))
    · exact Or.inr (Or.inl rfl)
    · exact codeByte_intCode _ b hb
    · exact hdig b hb
    · exact Or.inl rfl
    · exact absurd hb List.not_mem_nil

theorem codeByte_floatCode (f : Float64) : ∀ b ∈ floatCode f, CodeByte b := by
  by_cases h : f.mag = 0
  · intro b hb
    rw [floatCode_of_mag_eq_zero h, List.mem_singleton] at hb
    exact Or.inr (Or.inr (by subst hb; decide))
  · rw [floatCode_of_mag_ne_zero h]
    exact codeByte_numCode _ (allDigits_dropTrailingZeros (allDigits_ofNat _)) _

end Collatejson
