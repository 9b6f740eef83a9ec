import GsiIndexing.Collate.DescFields
import GsiIndexing.Collate.JsonOrder

/-!
# collatejson — the decoders read the basic codes back

Each basic code of `codec.go` is order-preserving and has a decoder that undoes it:

* `DecodeInt` reads `EncodeInt` of an `Itoa` text back for either sign, consuming the
  whole code (`decodeInt_intCode`, proved with the codes in `IntCode`);
* `DecodeFloat` reads `EncodeFloat` of `FormatFloat(f, 'e', -1, 64)` back as the text
  `±0.ddde±x`: the exponent comes back through `DecodeInt`, its sign flipped back for a
  negative number, and the significand through `DecodeSD` (`decodeFloat_numCode`);
  `ParseFloat` reads that text as `f` again, `-0` as `0`;
* `suffixDecodeString` reads `suffixEncodeString` back up to its end marker
  (`suffixDecodeFrom_escaped`), and escaping keeps the order of byte strings
  (`compare_escaped`).
-/

namespace Collatejson

open Go LexCode Digits

/-! ## Integers -/

/-- **`EncodeInt` orders the integers and `DecodeInt` reads them back**: the codes of two
`Itoa` texts compare as the integers, and `DecodeInt` of a code consumes all of it and
returns a text that `Atoi` reads as the integer. -/
theorem encodeInt_order_decodeInt (a b : Int) (ha : -2 ^ 63 ≤ a ∧ a < 2 ^ 63) :
    (compare (encodeInt (itoa a)) (encodeInt (itoa b)) = .lt ↔ a < b) ∧
      ∃ t, decodeInt (encodeInt (itoa a)) = some ((encodeInt (itoa a)).length, t) ∧
        atoi t = (a, none) := by
  refine ⟨?_, decodedText a, ?_, atoi_decodedText ha.1 ha.2⟩
  · show compare (intCode a) (intCode b) = .lt ↔ a < b
    rw [(intCode_lexAgree a b).compare_eq, compare_lt_iff_lt]
  · simpa [intCode] using decodeInt_intCode ha.1 ha.2 []

theorem encodeInt_order_decodeInt_minus_ten :
    (-2 ^ 63 ≤ (-10 : Int) ∧ (-10 : Int) < 2 ^ 63) ∧
      ((compare (encodeInt (itoa (-10))) (encodeInt (itoa 3)) = .lt ↔ (-10 : Int) < 3) ∧
        ∃ t, decodeInt (encodeInt (itoa (-10))) = some ((encodeInt (itoa (-10))).length, t) ∧
          atoi t = (-10, none)) :=
  ⟨by norm_num, encodeInt_order_decodeInt (-10) 3 (by norm_num)⟩

/-! ## Floats

A float code is its sign prefix, the integer code of its exponent and its significand
closed by the other prefix. `DecodeFloat` reads the exponent with `DecodeInt` (the code `0`
of a zero exponent through its default branch, which gives `+0`), flips the exponent's sign
back for a negative number, and hands the rest to `DecodeSD`; the text it returns is
`floatText`, which `ParseFloat` reads as the decimal the code stands for. -/

/-- The text `DecodeFloat` returns for the code of `±0.ds × 10 ^ x`: the sign, `0.`, the
digits, `e` and the exponent with its sign (that of the number for a zero exponent). -/
def floatText (neg : Bool) (ds : List Nat) (x : Int) : Bytes :=
  (if neg then minus else plus) :: zero :: dot :: (ds.map digitByte ++
    101 :: (if x < 0 ∨ (x = 0 ∧ neg) then minus else plus) :: (ofNat x.natAbs).map digitByte)

theorem decodedText_of_ne_zero {x : Int} (hx : x ≠ 0) :
    decodedText x = (if x < 0 then minus else plus) :: (ofNat x.natAbs).map digitByte := by
  rcases lt_or_gt_of_ne hx with hneg | hpos
  · obtain ⟨n, rfl⟩ : ∃ n : Nat, x = -(n : Int) := ⟨x.natAbs, by omega⟩
    rw [decodedText, if_neg hx, if_neg (by omega), itoa_neg_natCast (by omega), if_pos hneg]
    simp
    rfl
  · obtain ⟨n, rfl⟩ : ∃ n : Nat, x = n := ⟨x.natAbs, by omega⟩
    rw [decodedText, if_neg hx, if_pos hpos, if_neg (by omega), itoa_natCast]
    simp

/-- A negative number's exponent comes back negated, and `exponent[0] = flipmap[exponent[0]]`
turns it round. -/
theorem flipSign_decodedText_neg {x : Int} (hx : x ≠ 0) :
    flipSign (decodedText (-x)) = some (decodedText x) := by
  rw [decodedText_of_ne_zero (neg_ne_zero.mpr hx), decodedText_of_ne_zero hx, flipSign,
    Int.natAbs_neg]
  rcases lt_or_gt_of_ne hx with hneg | hpos
  · rw [if_neg (by omega), if_pos hneg]
    rfl
  · rw [if_pos (by omega), if_neg (by omega)]
    rfl

theorem decodeSD_posPrefix (body : Bytes) :
    decodeSD (posPrefix :: (body ++ [negPrefix])) = some (plus :: zero :: dot :: body) := by
  simp [decodeSD, slice, prefixSign, show posPrefix ≠ negPrefix by decide]

theorem decodeSD_negPrefix (body : Bytes) :
    decodeSD (negPrefix :: (body ++ [posPrefix])) =
      some (minus :: zero :: dot :: body.map negIntLookup) := by
  simp [decodeSD, slice, prefixSign, show negPrefix ≠ posPrefix by decide]

theorem head?_intCode_append (x : Int) (w : Bytes) : (intCode x ++ w).head? = some (signByte x) := by
  rw [intCode_eq_cons, List.cons_append, List.head?_cons]

theorem sliceFrom_cons_append (c : UInt8) (p w : Bytes) :
    sliceFrom (c :: (p ++ w)) (1 + p.length) = some w := by
  rw [sliceFrom, if_pos (by simp; omega), Nat.add_comm, List.drop_succ_cons, List.drop_left]

/-- **`DecodeFloat` reads a number code back** as `±0.ds e±x`. -/
theorem decodeFloat_numCode (neg : Bool) {ds : List Nat} (hds : AllDigits ds) {x : Int}
    (hlo : -2 ^ 63 < x) (hhi : x < 2 ^ 63) :
    decodeFloat (numCode neg ds x) = some (floatText neg ds x) := by
  have hz : ∀ w : Bytes, (if neg then negPrefix else posPrefix) :: w ≠ [zero] := by
    intro w h
    cases neg <;> simp [negPrefix, posPrefix, minus, gt, zero] at h
  have hpn : posPrefix ≠ negPrefix := by decide
  have hback : ds.map (negIntLookup ∘ negIntLookup ∘ digitByte) = ds.map digitByte := by
    rw [← map_negIntLookup_map_negIntLookup hds, List.map_map, List.map_map]
    rfl
  by_cases hx : x = 0
  · -- the exponent code `0` takes `DecodeFloat`'s default branch, which gives `+0`
    subst hx
    have hdec : ∀ w : Bytes, decodeInt (zero :: w) = some (1, [zero]) := fun w => by
      simp [decodeInt]
    have hzero : (ofNat 0).map digitByte = [zero] := rfl
    cases neg
    · simp [numCode, decodeFloat, hdec, sliceFrom, decodeSD_posPrefix, floatText, hzero, hpn,
        show zero ≠ negPrefix by decide, show zero ≠ posPrefix by decide]
    · simp [numCode, decodeFloat, hdec, sliceFrom, decodeSD_negPrefix, floatText, hzero, flipSign,
        hback, show zero ≠ negPrefix by decide, show zero ≠ posPrefix by decide,
        show flipmap plus = minus from rfl]
  · -- a signed exponent code: `DecodeInt` reads it whole
    have hsign : ∀ y : Int, y ≠ 0 → (signByte y = negPrefix ∨ signByte y = posPrefix) := by
      intro y hy
      unfold signByte
      split_ifs <;> simp_all
    cases neg
    · have hdec := decodeInt_intCode (n := x) (by omega) hhi
        (ds.map digitByte ++ [negPrefix])
      simp [-List.head?_append, numCode, decodeFloat, hdec, head?_intCode_append, hsign x hx,
        sliceFrom_cons_append, decodeSD_posPrefix, floatText, hpn, decodedText_of_ne_zero hx, hx]
    · have hdec := decodeInt_intCode (n := -x) (by omega) (by omega)
        ((ds.map digitByte).map negIntLookup ++ [posPrefix])
      simp [-List.head?_append, -List.map_map, numCode, decodeFloat, hdec, head?_intCode_append,
        hsign (-x) (neg_ne_zero.mpr hx), sliceFrom_cons_append, decodeSD_negPrefix, floatText,
        flipSign_decodedText_neg hx, map_negIntLookup_map_negIntLookup hds,
        decodedText_of_ne_zero hx, hx]

/-- `ParseFloat`'s syntax reads `floatText` as the digits `ds` at the exponent of the last
of them: the leading `0` adds nothing to the coefficient. -/
theorem parseDecimal_floatText (neg : Bool) {ds : List Nat} (hds : AllDigits ds) (x : Int) :
    parseDecimal (floatText neg ds x) = some (neg, ⟨value ds, x - ds.length⟩) := by
  have hsign : splitSign (floatText neg ds x) = (neg, zero :: dot :: (ds.map digitByte ++
      101 :: (if x < 0 ∨ (x = 0 ∧ neg) then minus else plus) :: (ofNat x.natAbs).map digitByte)) := by
    cases neg <;> rfl
  have hint : ∀ w : Bytes, spanDigits (zero :: 46 :: w) = ([0], 46 :: w) := fun w =>
    @spanDigits_append [0] (by simp [AllDigits]) (46 :: w) (by simp; decide)
  have hfrac : ∀ w : Bytes, spanDigits (ds.map digitByte ++ 101 :: w) = (ds, 101 :: w) := fun w =>
    spanDigits_append hds (by simp; decide)
  -- the exponent: its sign, then the digits of its magnitude
  have hesign : splitSign ((if x < 0 ∨ (x = 0 ∧ neg) then minus else plus) ::
      (ofNat x.natAbs).map digitByte) =
        (decide (x < 0 ∨ (x = 0 ∧ neg)), (ofNat x.natAbs).map digitByte) := by
    split_ifs with h <;> simp [splitSign, h, minus, plus]
  have hespan : spanDigits ((ofNat x.natAbs).map digitByte) = (ofNat x.natAbs, []) := by
    simpa using @spanDigits_append (ofNat x.natAbs) (allDigits_ofNat _) [] (by simp)
  have hev : (if x < 0 ∨ (x = 0 ∧ neg = true) then -|x| else |x|) = x := by
    rcases lt_trichotomy x 0 with h | rfl | h
    · rw [if_pos (Or.inl h), abs_of_neg h, neg_neg]
    · simp
    · rw [if_neg (by omega), abs_of_pos h]
  have hcoef : value (0 :: ds) = value ds := by
    rw [value_cons]
    simp
  simp [parseDecimal, hsign, hint, hfrac, hesign, hespan, ofNat_ne_nil, dot]
  exact ⟨hcoef, hev⟩

/-- The decimal read back stands for `0.ds × 10 ^ x`. -/
theorem decimal_value_eq_frac (ds : List Nat) (x : Int) :
    (⟨value ds, x - ds.length⟩ : Float64.Decimal).value = frac ds * 10 ^ x := by
  rw [Float64.Decimal.value, frac, zpow_sub₀ (by norm_num), zpow_natCast]
  field_simp

/-- **`ParseFloat` reads back what `DecodeFloat` makes of a float code**: the `float64`
itself, and `0` for `-0`. -/
theorem parseFloat_decodeFloat_floatCode (f : Float64) :
    ∃ t z, decodeFloat (floatCode f) = some t ∧ parseFloat t = some z ∧ z.value = f.value ∧
      (f.mag ≠ 0 → z = f) := by
  by_cases h0 : f.mag = 0
  · -- the code `0` comes back as the text `0`, which parses as `+0`
    have hparse : parseDecimal [zero] = some (false, ⟨0, 0⟩) := by decide
    refine ⟨[zero], ⟨false, 0, by decide⟩, ?_, ?_, ?_, fun h => absurd h0 h⟩
    · rw [floatCode_of_mag_eq_zero h0]
      rfl
    · simp [parseFloat, hparse, Float64.Decimal.value, Float64.roundMag_zero, infMag]
    · simp [Float64.value, h0]
  · -- the printed digits and the exponent of the first one, plus one
    have hds : AllDigits (dropTrailingZeros (ofNat (Float64.shortest f.mag).coef)) :=
      allDigits_dropTrailingZeros (allDigits_ofNat _)
    have hb := shortest_exponent_bounds h0 f.mag_lt
    have hval : (⟨value (dropTrailingZeros (ofNat (Float64.shortest f.mag).coef)),
        ((ofNat (Float64.shortest f.mag).coef).length : Int) + (Float64.shortest f.mag).exp -
          (dropTrailingZeros (ofNat (Float64.shortest f.mag).coef)).length⟩ :
            Float64.Decimal).value = (Float64.shortest f.mag).value := by
      rw [decimal_value_eq_frac, frac_dropTrailingZeros_ofNat]
      rfl
    have hdec := decodeFloat_numCode f.sign hds
      (x := ((ofNat (Float64.shortest f.mag).coef).length : Int) + (Float64.shortest f.mag).exp)
      (by omega) (by omega)
    rw [← floatCode_of_mag_ne_zero h0] at hdec
    refine ⟨_, f, hdec, ?_, rfl, fun _ => rfl⟩
    -- the decimal read back is the shortest one, which rounds to `f`
    rw [parseFloat, parseDecimal_floatText f.sign hds]
    simp [hval, Float64.roundMag_shortest f.mag_lt, f.mag_lt]

/-- **`EncodeFloat` of `FormatFloat(x, 'e', -1, 64)` orders the finite `float64`s and
`DecodeFloat` reads it back**: two codes compare as the values (so `-0` and `0` have one
code), and `ParseFloat` of the text `DecodeFloat` returns is `x` again, `+0` for `-0`. -/
theorem encodeFloat_order_decodeFloat (x y : Float64) :
    compare (encodeFloat (formatFloatE x)) (encodeFloat (formatFloatE y)) =
        compare x.value y.value ∧
      ∃ t z, decodeFloat (encodeFloat (formatFloatE x)) = some t ∧ parseFloat t = some z ∧
        z.value = x.value ∧ (x.mag ≠ 0 → z = x) :=
  ⟨(floatCode_lexAgree x y).compare_eq, parseFloat_decodeFloat_floatCode x⟩

/-! ## Strings

A string is escaped byte by byte and closed by a single `0x00`. Every escape starts with
the byte it stands for, so two strings that differ first at some byte have codes that
differ first at its escape; and the closing `0x00` sorts below every escape, the escape
`0x00 0x01` of a `0x00` included, because nothing follows it. -/

theorem compare_terminator_escapeByte (b : UInt8) (w : Bytes) :
    compare [terminator] (escapeByte b ++ w) = .lt := by
  by_cases hb : b = terminator
  · -- `0x00` against `0x00 0x01`: the shorter word is a prefix
    subst hb
    rw [escapeByte, if_pos rfl, List.cons_append, List.compare_cons_cons, Std.ReflOrd.compare_self,
      Ordering.eq_then]
    rfl
  · obtain ⟨r, hr⟩ := escapeByte_eq_cons b
    have hpos : terminator.toNat < b.toNat :=
      Nat.pos_of_ne_zero fun h0 => hb (UInt8.toNat_inj.mp h0)
    rw [hr, List.cons_append, compare_cons_cons_of_ne (Ne.symm hb), compare_byte]
    exact Nat.compare_eq_lt.mpr hpos

/-- **Escaping keeps the order of byte strings**, with the single end byte. -/
theorem compare_escaped : ∀ s t : Bytes,
    compare (s.flatMap escapeByte ++ [terminator]) (t.flatMap escapeByte ++ [terminator]) =
      compare s t
  | [], [] => rfl
  | [], b :: t => by
    rw [List.flatMap_nil, List.nil_append, List.flatMap_cons, List.append_assoc,
      compare_terminator_escapeByte]
    rfl
  | a :: s, [] => by
    have hswap : compare (escapeByte a ++ (s.flatMap escapeByte ++ [terminator])) [terminator] =
        (compare [terminator] (escapeByte a ++ (s.flatMap escapeByte ++ [terminator]))).swap :=
      Std.OrientedCmp.eq_swap
    rw [List.flatMap_nil, List.nil_append, List.flatMap_cons, List.append_assoc, hswap,
      compare_terminator_escapeByte]
    rfl
  | a :: s, b :: t => by
    rw [List.flatMap_cons, List.flatMap_cons, List.append_assoc, List.append_assoc]
    by_cases hab : a = b
    · -- the same escape on both sides: the rest decides
      subst hab
      rw [compare_append_left, compare_escaped s t, List.compare_cons_cons, Std.ReflOrd.compare_self,
        Ordering.eq_then]
    · rw [compare_escapeByte_append hab, compare_cons_cons_of_ne hab]

/-- **`suffixDecodeString`'s loop reads an escaped string back** up to the end marker
`0x00 0x00`, and returns what follows the marker. -/
theorem suffixDecodeFrom_escaped (rest : Bytes) : ∀ s : Bytes,
    suffixDecodeFrom none (s.flatMap escapeByte ++ terminator :: terminator :: rest) =
      some (s, rest)
  | [] => rfl
  | a :: s => by
    have ih := suffixDecodeFrom_escaped rest s
    rw [List.flatMap_cons, List.append_assoc]
    have hff : (~~~terminator : UInt8) ≠ terminator := by decide
    by_cases h0 : a = terminator
    · -- `0x00 0x01`
      subst h0
      simp [escapeByte, suffixDecodeFrom, ih]
    · by_cases h1 : a = ~~~terminator
      · -- `0xFF 0xFE`
        subst h1
        simp [escapeByte, suffixDecodeFrom, ih, hff]
      · -- a byte that stands for itself
        have hesc : escapeByte a = [a] := by simp [escapeByte, h0, h1]
        simp [hesc, suffixDecodeFrom, ih, h0, h1]

/-- **`suffixEncodeString` orders byte strings and `suffixDecodeString` reads it back**: the
escaped strings compare as the strings, `suffixDecodeString` of a code closed by a second
`0x00` returns the string and what follows, and `getEncodedString` returns the whole string
datum, plain or with every bit flipped (for a descending key). -/
theorem suffixEncodeString_order_decode (s t rest : Bytes) (o : Bool) :
    compare (suffixEncodeString s) (suffixEncodeString t) = compare s t ∧
      suffixDecodeString (suffixEncodeString s ++ [terminator] ++ rest) = some (s, rest) ∧
      getEncodedString (orient o (n1qlStringCode s) ++ rest) =
        some (some (n1qlStringCode s).length) := by
  refine ⟨compare_escaped s t, ?_, getEncodedString_orient o s rest⟩
  rw [suffixDecodeString, suffixEncodeString, List.append_assoc, List.append_assoc]
  exact suffixDecodeFrom_escaped rest s

end Collatejson
