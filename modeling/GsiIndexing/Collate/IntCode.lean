import GsiIndexing.Go.StrconvLemmas
import GsiIndexing.Collate.Codec

/-!
# collatejson — the integer code orders the integers

`EncodeInt` applied to the text `strconv.Itoa` prints is an order-preserving code with
no code word a proper prefix of another (`intCode_lexAgree`): comparing two codes, each
followed by anything, compares the integers first. This is what `json2code` relies on
for the length prefixes of arrays and objects and for the exponents of `EncodeFloat`.

The proof follows the recursion of `encodePosInt` / `encodeNegInt`: a positive code is
`>`, the code of the digit count when there is more than one digit, and the digits. Two
counts that differ are decided by the inner codes (strong induction, the count being
smaller than the number), a one-digit number sorts below every longer one because a
digit byte sorts below `>`, and equal counts leave the digits to decide. Negative codes
mirror this with complemented digits, and `-` < `0` < `>` separates the three signs.
-/

namespace Collatejson

open Go LexCode

/-! ## One level of the code -/

theorem encodePosInt_eq (text : Bytes) :
    encodePosInt text =
      posPrefix :: ((if 1 < text.length then encodePosInt (itoa text.length) else []) ++ text) := by
  rw [encodePosInt]
  simp only [dite_eq_ite]

theorem encodeNegInt_eq (text : Bytes) :
    encodeNegInt text = negPrefix ::
      ((if 1 < text.length then encodeNegInt (itoa text.length) else []) ++
        text.map negIntLookup) := by
  rw [encodeNegInt]
  simp only [dite_eq_ite]

@[simp] theorem length_itoa_natCast (n : Nat) : (itoa n).length = (Digits.ofNat n).length := by
  simp [itoa_natCast]

theorem negIntLookup_digitByte {d : Nat} (h : d < 10) :
    negIntLookup (digitByte d) = digitByte (9 - d) := by
  interval_cases d <;> decide

/-- Complementing the text of a number complements its digits. -/
theorem map_negIntLookup_itoa (n : Nat) :
    (itoa n).map negIntLookup = (Digits.compl (Digits.ofNat n)).map digitByte := by
  rw [itoa_natCast, List.map_map, Digits.compl, List.map_map]
  apply List.map_congr_left
  intro d hd
  exact negIntLookup_digitByte (Digits.allDigits_ofNat n d hd)

/-! ## Digit texts against each other and against sign prefixes -/

/-- Texts of equally many digits compare as the numbers, then as what follows. -/
theorem compare_itoa_append {a b : Nat} (h : (Digits.ofNat a).length = (Digits.ofNat b).length)
    (s t : Bytes) : compare (itoa a ++ s) (itoa b ++ t) = (compare a b).then (compare s t) := by
  rw [compare_append_of_length_eq (by simp [h]), itoa_natCast, itoa_natCast,
    compare_map_digitByte (Digits.allDigits_ofNat a) (Digits.allDigits_ofNat b),
    Digits.compare_ofNat h]

/-- Complemented texts of equally many digits compare the other way round. -/
theorem compare_itoa_compl_append {a b : Nat}
    (h : (Digits.ofNat a).length = (Digits.ofNat b).length) (s t : Bytes) :
    compare ((itoa a).map negIntLookup ++ s) ((itoa b).map negIntLookup ++ t) =
      (compare b a).then (compare s t) := by
  rw [compare_append_of_length_eq (by simp [h]), map_negIntLookup_itoa, map_negIntLookup_itoa,
    compare_map_digitByte (Digits.allDigits_compl _) (Digits.allDigits_compl _),
    Digits.compare_compl (Digits.allDigits_ofNat a) (Digits.allDigits_ofNat b) h,
    Digits.compare_ofNat h.symm]

/-- A non-empty digit text starts with a digit byte. -/
theorem digits_head {ds : List Nat} (hds : Digits.AllDigits ds) (hne : ds ≠ []) (s : Bytes) :
    ∃ c r, ds.map digitByte ++ s = c :: r ∧ 48 ≤ c.toNat ∧ c.toNat ≤ 57 := by
  obtain ⟨d, ds', rfl⟩ := List.exists_cons_of_ne_nil hne
  refine ⟨digitByte d, ds'.map digitByte ++ s, rfl, ?_⟩
  rw [digitByte_toNat hds.head]
  have := hds.head
  omega

/-- A digit byte sorts between the two sign prefixes. -/
theorem compare_digit_prefix {c d : UInt8} (hc : 48 ≤ c.toNat ∧ c.toNat ≤ 57)
    (hd : d = posPrefix ∨ d = negPrefix) (r t : Bytes) :
    compare (c :: r) (d :: t) = if d = posPrefix then .lt else .gt := by
  have hpos : posPrefix.toNat = 62 := rfl
  have hneg : negPrefix.toNat = 45 := rfl
  rcases hd with rfl | rfl
  · rw [List.compare_cons_cons, compare_byte, (compare_lt_iff_lt).mpr (by omega)]
    rfl
  · rw [List.compare_cons_cons, compare_byte, (compare_gt_iff_gt).mpr (by omega)]
    rfl

theorem compare_itoa_posPrefix (a : Nat) (s t : Bytes) :
    compare (itoa a ++ s) (posPrefix :: t) = .lt := by
  obtain ⟨c, r, hcr, hc⟩ :=
    digits_head (Digits.allDigits_ofNat a) (Digits.ofNat_ne_nil a) s
  rw [itoa_natCast, hcr, compare_digit_prefix hc (.inl rfl)]
  rfl

theorem compare_posPrefix_itoa (a : Nat) (s t : Bytes) :
    compare (posPrefix :: t) (itoa a ++ s) = .gt := by
  rw [show compare (posPrefix :: t) (itoa a ++ s) =
      (compare (itoa a ++ s) (posPrefix :: t)).swap from Std.OrientedCmp.eq_swap,
    compare_itoa_posPrefix]
  rfl

theorem compare_itoa_compl_negPrefix (a : Nat) (s t : Bytes) :
    compare ((itoa a).map negIntLookup ++ s) (negPrefix :: t) = .gt := by
  have hne : Digits.compl (Digits.ofNat a) ≠ [] := by
    simpa [Digits.compl] using Digits.ofNat_ne_nil a
  obtain ⟨c, r, hcr, hc⟩ := digits_head (Digits.allDigits_compl _) hne s
  rw [map_negIntLookup_itoa, hcr, compare_digit_prefix hc (.inr rfl)]
  rfl

theorem compare_negPrefix_itoa_compl (a : Nat) (s t : Bytes) :
    compare (negPrefix :: t) ((itoa a).map negIntLookup ++ s) = .lt := by
  rw [show compare (negPrefix :: t) ((itoa a).map negIntLookup ++ s) =
      (compare ((itoa a).map negIntLookup ++ s) (negPrefix :: t)).swap from
      Std.OrientedCmp.eq_swap, compare_itoa_compl_negPrefix]
  rfl

/-! ## Positive and negative codes -/

/-- A number written with more than one digit exceeds its digit count, the measure the
induction below descends along. -/
theorem length_ofNat_lt {a : Nat} (h : 1 < (Digits.ofNat a).length) : (Digits.ofNat a).length < a := by
  have ha0 : a ≠ 0 := by
    rintro rfl
    simp [Digits.ofNat] at h
  have hp := Digits.pow_length_ofNat_le ha0
  have h10 : 10 ^ 1 ≤ 10 ^ ((Digits.ofNat a).length - 1) :=
    Nat.pow_le_pow_right (by norm_num) (by omega)
  simpa using itoa_length_lt (n := a) (by omega)

/-- **Positive codes order the positive numbers**, whatever follows them. -/
theorem compare_encodePosInt (a : Nat) : ∀ {b : Nat}, 0 < a → 0 < b → ∀ s t : Bytes,
    compare (encodePosInt (itoa a) ++ s) (encodePosInt (itoa b) ++ t) =
      (compare a b).then (compare s t) := by
  -- strong induction: a digit count written out is smaller than its number
  induction a using Nat.strong_induction_on with
  | _ a ih =>
  intro b ha hb s t
  rw [encodePosInt_eq, encodePosInt_eq (itoa b)]
  simp only [length_itoa_natCast, List.cons_append, List.compare_cons_cons,
    Std.ReflOrd.compare_self, Ordering.eq_then, List.append_assoc]
  by_cases hlen : (Digits.ofNat a).length = (Digits.ofNat b).length
  · -- one digit count: its codes coincide and the digits decide
    rw [hlen, compare_append_left, compare_itoa_append hlen]
  · have hne : compare (Digits.ofNat a).length (Digits.ofNat b).length ≠ .eq :=
      fun h => hlen (compare_eq_iff_eq.mp h)
    rw [Digits.compare_eq_compare_length hlen, then_of_ne_eq hne]
    have hpa := Digits.ofNat_length_pos a
    have hpb := Digits.ofNat_length_pos b
    by_cases ha1 : 1 < (Digits.ofNat a).length <;> by_cases hb1 : 1 < (Digits.ofNat b).length
    · -- both counts written out: their codes decide
      simp only [ha1, hb1, if_true]
      rw [ih _ (length_ofNat_lt ha1) hpa hpb, then_of_ne_eq hne]
    · -- a one-digit `b` sorts below `a`'s count code
      simp only [ha1, hb1, if_true, if_false, List.nil_append]
      rw [encodePosInt_eq, List.cons_append, compare_posPrefix_itoa,
        (compare_gt_iff_gt).mpr (by omega)]
    · simp only [ha1, hb1, if_true, if_false, List.nil_append]
      rw [encodePosInt_eq, List.cons_append, compare_itoa_posPrefix,
        (compare_lt_iff_lt).mpr (by omega)]
    · omega

/-- **Negative codes order the magnitudes the other way round**, whatever follows them. -/
theorem compare_encodeNegInt (a : Nat) : ∀ {b : Nat}, 0 < a → 0 < b → ∀ s t : Bytes,
    compare (encodeNegInt (itoa a) ++ s) (encodeNegInt (itoa b) ++ t) =
      (compare b a).then (compare s t) := by
  induction a using Nat.strong_induction_on with
  | _ a ih =>
  intro b ha hb s t
  rw [encodeNegInt_eq, encodeNegInt_eq (itoa b)]
  simp only [length_itoa_natCast, List.cons_append, List.compare_cons_cons,
    Std.ReflOrd.compare_self, Ordering.eq_then, List.append_assoc]
  by_cases hlen : (Digits.ofNat a).length = (Digits.ofNat b).length
  · rw [hlen, compare_append_left, compare_itoa_compl_append hlen]
  · have hne : compare (Digits.ofNat b).length (Digits.ofNat a).length ≠ .eq :=
      fun h => hlen (compare_eq_iff_eq.mp h).symm
    rw [Digits.compare_eq_compare_length (Ne.symm hlen), then_of_ne_eq hne]
    have hpa := Digits.ofNat_length_pos a
    have hpb := Digits.ofNat_length_pos b
    by_cases ha1 : 1 < (Digits.ofNat a).length <;> by_cases hb1 : 1 < (Digits.ofNat b).length
    · simp only [ha1, hb1, if_true]
      rw [ih _ (length_ofNat_lt ha1) hpa hpb, then_of_ne_eq hne]
    · -- a one-digit `b` has a complemented digit where `a` has its count code
      simp only [ha1, hb1, if_true, if_false, List.nil_append]
      rw [encodeNegInt_eq, List.cons_append, compare_negPrefix_itoa_compl,
        (compare_lt_iff_lt).mpr (by omega)]
    · simp only [ha1, hb1, if_true, if_false, List.nil_append]
      rw [encodeNegInt_eq, List.cons_append, compare_itoa_compl_negPrefix,
        (compare_gt_iff_gt).mpr (by omega)]
    · omega

/-! ## Integers -/

/-- What `EncodeInt` writes for an integer: the code of its `strconv.Itoa` text. -/
def intCode (n : Int) : Bytes := encodeInt (itoa n)

/-- The first byte of an integer's code: `-`, `0` or `>` by the integer's sign. -/
def signByte (n : Int) : UInt8 := if n < 0 then negPrefix else if n = 0 then zero else posPrefix

/-- The text of a positive number starts with a non-zero digit. -/
theorem itoa_natCast_head {n : Nat} (h : 0 < n) :
    ∃ c r, itoa n = c :: r ∧ 49 ≤ c.toNat ∧ c.toNat ≤ 57 := by
  obtain ⟨d, ds, hd⟩ := List.exists_cons_of_ne_nil (Digits.ofNat_ne_nil n)
  have hd0 := Digits.ofNat_head_ne_zero (by omega) hd
  have hd10 : d < 10 := Digits.allDigits_ofNat n d (by simp [hd])
  refine ⟨digitByte d, ds.map digitByte, by rw [itoa_natCast, hd, List.map_cons], ?_⟩
  rw [digitByte_toNat hd10]
  omega

@[simp] theorem intCode_zero : intCode 0 = [zero] := by decide

theorem intCode_pos {n : Nat} (h : 0 < n) : intCode n = encodePosInt (itoa n) := by
  obtain ⟨c, r, hcr, hc⟩ := itoa_natCast_head h
  -- the leading digit is neither a sign nor a lone zero
  have hz : c ≠ zero := fun he => absurd hc.1 (by rw [he]; decide)
  have hp : c ≠ plus := fun he => absurd hc.1 (by rw [he]; decide)
  have hm : c ≠ minus := fun he => absurd hc.1 (by rw [he]; decide)
  rw [intCode, hcr, encodeInt]
  simp [isZero, hz, hp, hm]

theorem intCode_neg {n : Nat} (h : 0 < n) : intCode (-(n : Int)) = encodeNegInt (itoa n) := by
  obtain ⟨c, r, hcr, hc⟩ := itoa_natCast_head h
  have hz : c ≠ zero := fun he => absurd hc.1 (by rw [he]; decide)
  have hneg : itoa (-(n : Int)) = minus :: itoa n := by
    rw [itoa_neg_natCast h, itoa_natCast]
    rfl
  rw [intCode, hneg, encodeInt, hcr]
  simp [isZero, hz, show minus ≠ plus by decide]

/-- Every code starts with the byte of its sign. -/
theorem intCode_eq_cons (n : Int) : intCode n = signByte n :: (intCode n).tail := by
  rcases lt_trichotomy n 0 with hn | rfl | hn
  · obtain ⟨a, rfl⟩ : ∃ a : Nat, n = -(a : Int) := ⟨n.natAbs, by omega⟩
    have ha : a ≠ 0 := by omega
    rw [intCode_neg (by omega), encodeNegInt_eq]
    simp [signByte, ha]
  · decide
  · obtain ⟨a, rfl⟩ : ∃ a : Nat, n = a := ⟨n.natAbs, by omega⟩
    have ha : a ≠ 0 := by omega
    rw [intCode_pos (by omega), encodePosInt_eq]
    simp [signByte, ha]

/-- Sign bytes sort as the signs: `-` < `0` < `>`. -/
theorem compare_signByte {m n : Int} (h : signByte m ≠ signByte n) :
    compare (signByte m) (signByte n) = compare m n := by
  unfold signByte at *
  split_ifs at * <;>
    first
    | exact absurd rfl h
    | (rw [(compare_lt_iff_lt).mpr (by omega : m < n)]; decide)
    | (rw [(compare_gt_iff_gt).mpr (by omega : n < m)]; decide)

/-- Codes of integers of one sign compare as the integers. -/
theorem compare_intCode_of_signByte_eq {m n : Int} (h : signByte m = signByte n) (s t : Bytes) :
    compare (intCode m ++ s) (intCode n ++ t) = (compare m n).then (compare s t) := by
  have hpos : posPrefix ≠ negPrefix := by decide
  have hz : zero ≠ negPrefix ∧ zero ≠ posPrefix := by decide
  rcases lt_trichotomy m 0 with hm | rfl | hm <;> rcases lt_trichotomy n 0 with hn | rfl | hn
  · -- both negative: complemented magnitudes
    obtain ⟨a, rfl⟩ : ∃ a : Nat, m = -(a : Int) := ⟨m.natAbs, by omega⟩
    obtain ⟨b, rfl⟩ : ∃ b : Nat, n = -(b : Int) := ⟨n.natAbs, by omega⟩
    have hanti : StrictAnti (fun k : Nat => -(k : Int)) := fun x y hxy => by simp; omega
    rw [intCode_neg (by omega), intCode_neg (by omega), compare_encodeNegInt a (by omega) (by omega),
      ← cmp_eq_compare, ← cmp_eq_compare (-(a : Int)), hanti.cmp_map_eq]
  · simp [signByte, hm] at h; exact absurd h.symm hz.1
  · simp [signByte, hm, hn.not_gt, hn.ne'] at h; exact absurd h.symm hpos
  · simp [signByte, hn] at h; exact absurd h hz.1
  · simp
  · simp [signByte, hn.not_gt, hn.ne'] at h; exact absurd h hz.2
  · simp [signByte, hn, hm.not_gt, hm.ne'] at h; exact absurd h hpos
  · simp [signByte, hm.not_gt, hm.ne'] at h; exact absurd h.symm hz.2
  · -- both positive: plain magnitudes
    obtain ⟨a, rfl⟩ : ∃ a : Nat, m = a := ⟨m.natAbs, by omega⟩
    obtain ⟨b, rfl⟩ : ∃ b : Nat, n = b := ⟨n.natAbs, by omega⟩
    rw [intCode_pos (by omega), intCode_pos (by omega), compare_encodePosInt a (by omega) (by omega),
      ← cmp_eq_compare, ← cmp_eq_compare (a : Int), Nat.strictMono_cast.cmp_map_eq]

/-- **`EncodeInt` of `Itoa` is an order-preserving, self-delimiting code of the
integers**: followed by anything, two codes compare as the integers first. -/
theorem intCode_lexAgree (m n : Int) : LexAgree compare intCode m n := by
  intro s t
  by_cases hs : signByte m = signByte n
  · exact compare_intCode_of_signByte_eq hs s t
  · -- the sign bytes differ and decide
    have hne : compare m n ≠ .eq := fun he => hs (by rw [compare_eq_iff_eq.mp he])
    rw [intCode_eq_cons m, intCode_eq_cons n, List.cons_append, List.cons_append,
      compare_cons_cons_of_ne hs, compare_signByte hs, then_of_ne_eq hne]


/-! ## Reading a count back

A code of either sign is its prefix, the code of its digit count when there is more than
one digit, and its digits. `doDecodeInt` undoes the counts from the inside out: it reads the
inner count, complements it back when the code is negative, and takes that many digits.
The proof is one strong induction for both signs (`doDecodeInt_countCode`). -/

/-- The count of digits that `encodePosInt` writes before the digits of `a`: the code of the
count when there is more than one digit. -/
def countPrefix (a : Nat) : Bytes :=
  if 1 < (Digits.ofNat a).length then encodePosInt (itoa (Digits.ofNat a).length) else []

theorem encodePosInt_itoa (a : Nat) : encodePosInt (itoa a) = posPrefix :: (countPrefix a ++ itoa a) := by
  rw [encodePosInt_eq, length_itoa_natCast]
  rfl

/-- The digits of `a` as a code of sign `neg` holds them: complemented when negative. -/
def codeDigits (neg : Bool) (a : Nat) : Bytes := if neg then (itoa a).map negIntLookup else itoa a

/-- The count that a code of sign `neg` writes before the digits of `a`. -/
def countCode (neg : Bool) (a : Nat) : Bytes :=
  if 1 < (Digits.ofNat a).length then
    (if neg then encodeNegInt else encodePosInt) (itoa (Digits.ofNat a).length)
  else []

theorem encodeNegInt_itoa (a : Nat) :
    encodeNegInt (itoa a) = negPrefix :: (countCode true a ++ codeDigits true a) := by
  rw [encodeNegInt_eq, length_itoa_natCast]
  rfl

theorem encodeSigned_itoa (neg : Bool) (a : Nat) :
    (if neg then encodeNegInt else encodePosInt) (itoa a) =
      (if neg then negPrefix else posPrefix) :: (countCode neg a ++ codeDigits neg a) := by
  cases neg
  · exact encodePosInt_itoa a
  · exact encodeNegInt_itoa a

@[simp] theorem length_codeDigits (neg : Bool) (a : Nat) :
    (codeDigits neg a).length = (Digits.ofNat a).length := by
  cases neg <;> simp [codeDigits]

/-- Complementing digits twice gives them back. -/
theorem map_negIntLookup_map_negIntLookup {ds : List Nat} (hds : Digits.AllDigits ds) :
    ((ds.map digitByte).map negIntLookup).map negIntLookup = ds.map digitByte := by
  rw [List.map_map, List.map_map]
  apply List.map_congr_left
  intro d hd
  have hd10 := hds d hd
  simp only [Function.comp_apply, negIntLookup_digitByte hd10,
    negIntLookup_digitByte (show 9 - d < 10 by omega)]
  congr 1
  omega

theorem map_negIntLookup_map_negIntLookup_itoa (n : Nat) :
    ((itoa n).map negIntLookup).map negIntLookup = itoa n := by
  rw [itoa_natCast]
  exact map_negIntLookup_map_negIntLookup (Digits.allDigits_ofNat n)

/-- What `doDecodeInt` reads a count as: the code's digits, complemented back when negative. -/
theorem unflip_codeDigits (neg : Bool) (a : Nat) :
    (if neg then (codeDigits neg a).map negIntLookup else codeDigits neg a) = itoa a := by
  cases neg
  · rfl
  · exact map_negIntLookup_map_negIntLookup_itoa a

/-- `doDecodeInt` behind a sign prefix of either sign: the count read behind it, complemented
back when negative, says how many digits to take. -/
theorem doDecodeInt_signed {neg : Bool} {rest : Bytes} {skip : Nat} {text : Bytes}
    (h : doDecodeInt rest = some (skip, text)) {l : Nat}
    (hl : atoi (if neg then text.map negIntLookup else text) = ((l : Int), none)) :
    doDecodeInt ((if neg then negPrefix else posPrefix) :: rest) =
      (slice ((if neg then negPrefix else posPrefix) :: rest) (skip + text.length + 1)
        (skip + text.length + 1 + l)).map fun digits => (skip + text.length + 1, digits) := by
  cases neg
  · simp only [Bool.false_eq_true, if_false] at hl ⊢
    rw [doDecodeInt, if_pos rfl]
    simp [h, hl, Option.map_eq_bind]
  · simp only [if_true] at hl ⊢
    rw [doDecodeInt, if_neg (by decide), if_pos rfl]
    simp [h, hl, Option.map_eq_bind]

/-- A digit, complemented or not, is no sign prefix and stands for itself. -/
theorem doDecodeInt_digitByte {d : Nat} (hd : d < 10) (rest : Bytes) :
    doDecodeInt (digitByte d :: rest) = some (0, [digitByte d]) := by
  have hb := digitByte_toNat hd
  have hp : digitByte d ≠ posPrefix := fun h => by
    rw [h] at hb
    simp [posPrefix, gt] at hb
    omega
  have hm : digitByte d ≠ negPrefix := fun h => by
    rw [h] at hb
    simp [negPrefix, minus] at hb
    omega
  rw [doDecodeInt, if_neg hp, if_neg hm]
  rfl

/-- **`doDecodeInt` reads the digits of a number back** from behind their count, in a code
of either sign and whatever follows them, and returns where they start. -/
theorem doDecodeInt_countCode (neg : Bool) (a : Nat) : 0 < a → a ≤ 2 ^ 63 → ∀ rest : Bytes,
    doDecodeInt (countCode neg a ++ codeDigits neg a ++ rest) =
      some ((countCode neg a).length, codeDigits neg a) := by
  -- strong induction: the count is a smaller number, coded the same way
  induction a using Nat.strong_induction_on with
  | _ a ih =>
  intro ha hb rest
  by_cases h1 : 1 < (Digits.ofNat a).length
  · have hma := length_ofNat_lt h1
    have hm0 := Digits.ofNat_length_pos a
    have hpre : countCode neg a = (if neg then negPrefix else posPrefix) ::
        (countCode neg (Digits.ofNat a).length ++ codeDigits neg (Digits.ofNat a).length) := by
      rw [countCode, if_pos h1, encodeSigned_itoa]
    have hinner := ih _ hma hm0 (by omega) (codeDigits neg a ++ rest)
    have hcount : atoi (if neg then (codeDigits neg (Digits.ofNat a).length).map negIntLookup
        else codeDigits neg (Digits.ofNat a).length) = (((Digits.ofNat a).length : Int), none) := by
      rw [unflip_codeDigits]
      exact parseInt_itoa (by omega) (by omega)
    simp only [List.append_assoc] at hinner
    rw [hpre]
    simp only [List.append_assoc, List.cons_append]
    rw [doDecodeInt_signed hinner hcount]
    -- the count says how many digits follow it
    simp [slice, List.drop_append, List.drop_eq_nil_of_le]
    omega
  · -- a single digit, complemented or not, stands for itself
    have hlen : (Digits.ofNat a).length = 1 := by
      have := Digits.ofNat_length_pos a
      omega
    obtain ⟨d, hd⟩ : ∃ d, Digits.ofNat a = [d] := by
      match h : Digits.ofNat a, hlen with
      | [d], _ => exact ⟨d, rfl⟩
    have hd10 : d < 10 := Digits.allDigits_ofNat a d (by simp [hd])
    have hdig : codeDigits neg a = [digitByte (if neg then 9 - d else d)] := by
      cases neg
      · simp [codeDigits, itoa_natCast, hd]
      · simp [codeDigits, itoa_natCast, hd, negIntLookup_digitByte hd10]
    rw [countCode, if_neg h1, List.nil_append, hdig, List.singleton_append,
      doDecodeInt_digitByte (by split <;> omega)]
    rfl

/-- The positive case, as `encodePosInt` writes it. -/
theorem doDecodeInt_countPrefix (a : Nat) (ha : 0 < a) (hb : a < 2 ^ 63) (rest : Bytes) :
    doDecodeInt (countPrefix a ++ itoa a ++ rest) = some ((countPrefix a).length, itoa a) :=
  doDecodeInt_countCode false a ha hb.le rest

/-- The text `DecodeInt` returns for the code of `n`: `0` for zero, `+` and the digits for a
positive number, `-` and the digits (the `Itoa` text) for a negative one. -/
def decodedText (n : Int) : Bytes := if n = 0 then [zero] else if 0 < n then plus :: itoa n else itoa n

/-- **`DecodeInt` reads an integer code back**, whatever follows it: the number of bytes it
consumed is the length of the code. -/
theorem decodeInt_intCode {n : Int} (hlo : -2 ^ 63 ≤ n) (hhi : n < 2 ^ 63) (rest : Bytes) :
    decodeInt (intCode n ++ rest) = some ((intCode n).length, decodedText n) := by
  rcases lt_trichotomy n 0 with hn | rfl | hn
  · -- a negative code: the digits come back complemented, and are complemented again
    obtain ⟨a, rfl⟩ : ∃ a : Nat, n = -(a : Int) := ⟨n.natAbs, by omega⟩
    have hread := doDecodeInt_countCode true a (by omega) (by omega) rest
    have htext : decodedText (-(a : Int)) = minus :: itoa a := by
      rw [decodedText, if_neg (by omega), if_neg (by omega), itoa_neg_natCast (by omega),
        itoa_natCast]
      rfl
    rw [intCode_neg (by omega), encodeNegInt_itoa, List.cons_append, decodeInt,
      if_neg (by decide), if_neg (by decide), if_pos rfl, htext]
    simp only [List.append_assoc] at hread
    rw [List.append_assoc, hread]
    have hback := map_negIntLookup_map_negIntLookup_itoa a
    rw [List.map_map] at hback
    simp [codeDigits, hback]
    omega
  · simp [decodeInt, decodedText]
  · obtain ⟨a, rfl⟩ : ∃ a : Nat, n = a := ⟨n.natAbs, by omega⟩
    have hread := doDecodeInt_countPrefix a (by omega) (by omega) rest
    have htext : decodedText (a : Int) = plus :: itoa a := by
      rw [decodedText, if_neg (by omega), if_pos hn]
    rw [intCode_pos (by omega), encodePosInt_itoa, List.cons_append, decodeInt, if_neg (by decide),
      if_pos rfl, htext]
    simp only [List.append_assoc] at hread
    simp [hread]
    omega

/-- `strconv.Atoi` reads that text back. -/
theorem atoi_decodedText {n : Int} (hlo : -2 ^ 63 ≤ n) (hhi : n < 2 ^ 63) :
    atoi (decodedText n) = (n, none) := by
  rcases lt_trichotomy n 0 with hn | rfl | hn
  · rw [decodedText, if_neg (by omega), if_neg (by omega), atoi]
    exact parseInt_itoa hlo hhi
  · decide
  · obtain ⟨a, rfl⟩ : ∃ a : Nat, n = a := ⟨n.natAbs, by omega⟩
    rw [decodedText, if_neg (by omega), if_pos hn, atoi, itoa_natCast,
      parseInt_eq (s := plus :: (Digits.ofNat a).map digitByte) rfl (Digits.allDigits_ofNat a)
        (Digits.ofNat_ne_nil a) rfl (by simp) (by simp [Digits.value_ofNat]; omega)]
    simp [Digits.value_ofNat]

/-- `DecodeInt` of the code of a count: the length of the code, and the count's text with a
`+` (`0` for zero). -/
theorem decodeInt_intCode_natCast {n : Nat} (hn : n < 2 ^ 63) (rest : Bytes) :
    decodeInt (intCode n ++ rest) =
      some ((intCode n).length, if n = 0 then [zero] else plus :: itoa n) := by
  rw [decodeInt_intCode (by omega) (by omega)]
  by_cases hn0 : n = 0 <;> simp [decodedText, hn0, Nat.pos_iff_ne_zero]

/-- `strconv.Atoi` reads that text back. -/
theorem atoi_countText {n : Nat} (hn : n < 2 ^ 63) :
    atoi (if n = 0 then [zero] else plus :: itoa n) = ((n : Int), none) := by
  have h := atoi_decodedText (n := n) (by omega) (by omega)
  by_cases hn0 : n = 0 <;> simpa [decodedText, hn0, Nat.pos_iff_ne_zero] using h


/-! ## The bytes of a code

Integer and float codes are written with the sign prefixes and digits only. -/

/-- A byte of a number code: `-`, `>` or a digit. -/
def CodeByte (b : UInt8) : Prop := b = negPrefix ∨ b = posPrefix ∨ (48 ≤ b.toNat ∧ b.toNat ≤ 57)

theorem codeByte_digitByte {d : Nat} (hd : d < 10) : CodeByte (digitByte d) := by
  have := digitByte_toNat hd
  exact Or.inr (Or.inr (by omega))

theorem codeByte_of_mem_itoa {n : Nat} {b : UInt8} (h : b ∈ itoa n) : CodeByte b := by
  rw [itoa_natCast] at h
  exact Or.inr (Or.inr (mem_map_digitByte h))

theorem codeByte_of_mem_map_negIntLookup {n : Nat} {b : UInt8} (h : b ∈ (itoa n).map negIntLookup) :
    CodeByte b := by
  rw [map_negIntLookup_itoa] at h
  obtain ⟨d, hd, rfl⟩ := List.mem_map.mp h
  exact codeByte_digitByte (Digits.allDigits_compl _ d hd)

theorem codeByte_encodePosInt (a : Nat) : ∀ b ∈ encodePosInt (itoa a), CodeByte b := by
  induction a using Nat.strong_induction_on with
  | _ a ih =>
  intro b hb
  rw [encodePosInt_itoa] at hb
  simp only [List.mem_cons, List.mem_append] at hb
  rcases hb with rfl | hb | hb
  · exact Or.inr (Or.inl rfl)
  · -- the count's own code, of a smaller number
    unfold countPrefix at hb
    split_ifs at hb with h1
    · exact ih _ (length_ofNat_lt h1) b hb
    · simp at hb
  · exact codeByte_of_mem_itoa hb

theorem codeByte_encodeNegInt (a : Nat) : ∀ b ∈ encodeNegInt (itoa a), CodeByte b := by
  induction a using Nat.strong_induction_on with
  | _ a ih =>
  intro b hb
  rw [encodeNegInt_eq, length_itoa_natCast] at hb
  simp only [List.mem_cons, List.mem_append] at hb
  rcases hb with rfl | hb | hb
  · exact Or.inl rfl
  · split_ifs at hb with h1
    · exact ih _ (length_ofNat_lt h1) b hb
    · simp at hb
  · exact codeByte_of_mem_map_negIntLookup hb

theorem codeByte_intCode (n : Int) : ∀ b ∈ intCode n, CodeByte b := by
  rcases lt_trichotomy n 0 with hn | rfl | hn
  · obtain ⟨a, rfl⟩ : ∃ a : Nat, n = -(a : Int) := ⟨n.natAbs, by omega⟩
    rw [intCode_neg (by omega)]
    exact codeByte_encodeNegInt a
  · intro b hb
    simp only [intCode_zero, List.mem_singleton] at hb
    exact Or.inr (Or.inr (by subst hb; decide))
  · obtain ⟨a, rfl⟩ : ∃ a : Nat, n = a := ⟨n.natAbs, by omega⟩
    rw [intCode_pos (by omega)]
    exact codeByte_encodePosInt a

end Collatejson
