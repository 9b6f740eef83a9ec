import GsiIndexing.Go.Strconv

/-!
# collatejson — the basic codes (`codec.go`)

The byte-level encoders and decoders of `secondary/collatejson/codec.go`, each under its
source name, with the constants of `collate.go` they use:

* `encodeInt` writes a decimal integer text so that byte order is numeric order: a sign
  byte (`>` positive, `-` negative), the digit count encoded the same way when there is
  more than one digit, and the digits (nines'-complemented when negative); zero is `0`;
* `encodeFloat` writes a `%e` text as a sign byte, the `encodeInt` of the exponent
  `e + 1` of the mantissa `0.d₁d₂…` (negated for negative numbers), and the digits closed
  by the opposite sign byte (`encodeSD` without its prefix);
* `suffixEncodeString` escapes `0x00` as `0x00 0x01` and `0xFF` as `0xFF 0xFE` and closes
  the string with `0x00`.

Go threads these texts through slices of shared scratch buffers; every caller hands in an
empty slice with room enough, and the functions here return the bytes such a call leaves
in it. Where Go would panic on an index or a slice bound, a decoder returns `none`.
-/

namespace Collatejson

open Go

/-! ## Constants -/

def plus : UInt8 := 43
def minus : UInt8 := 45
def gt : UInt8 := 62
def dot : UInt8 := 46
def zero : UInt8 := 48

def negPrefix : UInt8 := minus
def posPrefix : UInt8 := gt

/-- The type bytes that open each encoded datum; `terminator` closes it. -/
def terminator : UInt8 := 0
def typeMissing : UInt8 := 1
def typeNull : UInt8 := 2
def typeFalse : UInt8 := 3
def typeTrue : UInt8 := 4
def typeNumber : UInt8 := 5
def typeString : UInt8 := 6
def typeLength : UInt8 := 7
def typeArray : UInt8 := 8
def typeObj : UInt8 := 9

def terminatorSuffix : UInt8 := 1

/-- `negIntLookup[x]`: the nines' complement of a digit byte; the Go map yields `0` for
any other byte. -/
def negIntLookup (x : UInt8) : UInt8 := if 48 ≤ x ∧ x ≤ 57 then 105 - x else 0

/-- `prefixOpp[x]`: the other sign prefix; `0` for any other byte. -/
def prefixOpp (x : UInt8) : UInt8 :=
  if x = posPrefix then negPrefix else if x = negPrefix then posPrefix else 0

/-- `flipmap[x]`: the other sign character; `0` for any other byte. -/
def flipmap (x : UInt8) : UInt8 := if x = plus then minus else if x = minus then plus else 0

/-- `code[lo:hi]`, or `none` where Go panics on the bounds. -/
def slice (code : Bytes) (lo hi : Nat) : Option Bytes :=
  if lo ≤ hi ∧ hi ≤ code.length then some ((code.drop lo).take (hi - lo)) else none

/-- `code[lo:]`, or `none` where Go panics on the bound. -/
def sliceFrom (code : Bytes) (lo : Nat) : Option Bytes :=
  if lo ≤ code.length then some (code.drop lo) else none

/-! ## Integers -/

/-- `isZero`: the texts `0`, `+0` and `-0`. -/
def isZero (text : Bytes) : Bool :=
  text == [zero] || text == [plus, zero] || text == [minus, zero]

/-- The decimal text of a count above one is shorter than the count; this is what makes
the length prefixes of `encodePosInt` and `encodeNegInt` terminate. -/
theorem itoa_length_lt {n : Nat} (h : 1 < n) : (itoa n).length < n := by
  have hneg : ¬ ((n : Int) < 0) := by omega
  simp only [itoa, hneg, if_false, List.nil_append, List.length_map, Int.natAbs_natCast]
  have hle := Digits.pow_length_ofNat_le (n := n) (by omega)
  -- a count of `k + 1 ≥ 2` digits is below `10 ^ k = 10 * 10 ^ (k - 1) ≥ 10 * k`
  rcases Nat.lt_or_ge 1 (Digits.ofNat n).length with h2 | h2
  · have h1 : (Digits.ofNat n).length - 1 - 1 < 10 ^ ((Digits.ofNat n).length - 1 - 1) :=
      Nat.lt_pow_self (by norm_num)
    have h10 : 10 ^ ((Digits.ofNat n).length - 1) =
        10 * 10 ^ ((Digits.ofNat n).length - 1 - 1) := by
      rw [← pow_succ']
      congr 1
      omega
    omega
  · omega

set_option linter.unusedVariables false in
/-- `encodePosInt`: `>`, the code of the digit count when there is more than one digit,
then the digits. -/
def encodePosInt (text : Bytes) : Bytes :=
  posPrefix :: ((if h : 1 < text.length then encodePosInt (itoa text.length) else []) ++ text)
termination_by text.length
decreasing_by exact itoa_length_lt h

set_option linter.unusedVariables false in
/-- `encodeNegInt`: `-`, the negative code of the digit count when there is more than one
digit, then the nines' complement of the digits. -/
def encodeNegInt (text : Bytes) : Bytes :=
  negPrefix :: ((if h : 1 < text.length then encodeNegInt (itoa text.length) else []) ++
    text.map negIntLookup)
termination_by text.length
decreasing_by exact itoa_length_lt h

/-- `EncodeInt`: the order-preserving code of a decimal integer text. -/
def encodeInt (text : Bytes) : Bytes :=
  match text with
  | [] => []
  | c :: rest =>
    if isZero text then [zero]
    else if c = plus then encodePosInt rest
    else if c = minus then encodeNegInt rest
    else encodePosInt text

/-- `doDecodeInt`: undoes the length prefixes and returns the offset at which the digits
start, with the digits as they stand in the code (still complemented when negative). -/
def doDecodeInt : Bytes → Option (Nat × Bytes)
  | [] => none
  | c :: rest =>
    if c = posPrefix then do
      let (skip, text) ← doDecodeInt rest
      let s := skip + text.length + 1
      let l := (atoi text).1
      if l < 0 then none else
      let digits ← slice (c :: rest) s (s + l.toNat)
      pure (s, digits)
    else if c = negPrefix then do
      let (skip, text) ← doDecodeInt rest
      let text := text.map negIntLookup
      let s := skip + text.length + 1
      let l := (atoi text).1
      if l < 0 then none else
      let digits ← slice (c :: rest) s (s + l.toNat)
      pure (s, digits)
    else pure (0, [c])

/-- `DecodeInt`: the number of code bytes read and the signed decimal text. -/
def decodeInt : Bytes → Option (Nat × Bytes)
  | [] => pure (0, [])
  | c :: rest =>
    if c = zero then pure (1, [zero])
    else if c = posPrefix then do
      let (skip, final) ← doDecodeInt rest
      let text := plus :: final
      pure (skip + text.length, text)
    else if c = negPrefix then do
      let (skip, final) ← doDecodeInt rest
      let text := minus :: final.map negIntLookup
      pure (skip + text.length, text)
    else pure (0, [])

/-! ## Small decimals and floats -/

/-- `signPrefix`: the code prefix for a number text's sign and the text after an explicit
sign. Callers never pass an empty text, where Go would index `text[0]`. -/
def signPrefix : Bytes → UInt8 × Bytes
  | [] => (posPrefix, [])
  | c :: rest =>
    if c = plus then (posPrefix, rest) else if c = minus then (negPrefix, rest)
    else (posPrefix, c :: rest)

/-- `prefixSign`: the sign character of a code prefix. -/
def prefixSign : Bytes → UInt8
  | c :: _ => if c = posPrefix then plus else if c = negPrefix then minus else 0
  | [] => 0

/-- The text after its first `.`, or all of it when there is none. -/
def afterDot (text : Bytes) : Bytes :=
  if dot ∈ text then (text.dropWhile (· ≠ dot)).drop 1 else text

/-- `EncodeSD`: a small decimal `±0.ddd` as its sign prefix, the digits after the point
(complemented when negative) and the opposite prefix. -/
def encodeSD (text : Bytes) : Bytes :=
  match text with
  | [] => []
  | _ =>
    let (pfx, body) := signPrefix text
    let body := afterDot body
    pfx :: ((if pfx = negPrefix then body.map negIntLookup else body) ++ [prefixOpp pfx])

/-- `DecodeSD`: the text `±0.ddd` of a small-decimal code. -/
def decodeSD (code : Bytes) : Option Bytes :=
  match code with
  | [] => some []
  | c :: _ => do
    let body ← slice code 1 (code.length - 1)
    pure (prefixSign code :: zero :: dot ::
      (if c = negPrefix then body.map negIntLookup else body))

/-- The mantissa and exponent texts around the first `e`; both empty when there is none
(the Go loop leaves them `nil`). -/
def splitAtE (text : Bytes) : Bytes × Bytes :=
  if 101 ∈ text then (text.takeWhile (· ≠ 101), (text.dropWhile (· ≠ 101)).drop 1)
  else ([], [])

/-- The zero test of `EncodeFloat`: the text parses and its value is `0` (or `-0`). -/
def parsesToZero (text : Bytes) : Bool :=
  match parseFloat text with
  | some f => f.mag == 0
  | none => false

/-- `EncodeFloat`: a `%e` text `±d.ddde±x` as the prefix of its sign, the integer code of
the exponent `x + 1` of `0.dddd` (negated for negative numbers), and the digits closed by
the opposite prefix. Zero is `0`. -/
def encodeFloat (text : Bytes) : Bytes :=
  match text with
  | [] => []
  | _ =>
    if parsesToZero text then [zero]
    else
      let (pfx, body) := signPrefix text
      let (mant, exp) := splitAtE body
      let mantissa := pfx :: zero :: dot :: mant.filter (· ≠ dot)
      let expi := (atoi exp).1
      let exp := itoa (if pfx = negPrefix then -(expi + 1) else expi + 1)
      pfx :: (encodeInt exp ++ (encodeSD mantissa).tail)

/-- `exponent[0] = flipmap[exponent[0]]`, which panics on an empty exponent. -/
def flipSign : Bytes → Option Bytes
  | [] => none
  | c :: rest => some (flipmap c :: rest)

/-- `DecodeFloat`: the text `±0.ddde±x` of a float code, `0` for zero. -/
def decodeFloat (code : Bytes) : Option Bytes :=
  match code with
  | [] => some []
  | msign :: rest =>
    if code = [zero] then some [zero]
    else do
      let c1 ← rest.head?
      let (skip, exponent) ←
        if c1 = negPrefix ∨ c1 = posPrefix then decodeInt rest
        else do
          let (skip, final) ← decodeInt rest
          pure (skip, plus :: final)
      let exponent ← if msign = negPrefix then flipSign exponent else pure exponent
      let tail ← sliceFrom code (1 + skip)
      let sd ← decodeSD (msign :: tail)
      pure (sd ++ 101 :: exponent)

/-! ## Strings -/

/-- The body of `suffixEncodeString`'s loop: `0x00` becomes `0x00 0x01` and `0xFF` becomes
`0xFF 0xFE`. -/
def escapeByte (x : UInt8) : Bytes :=
  if x = terminator then [x, terminatorSuffix]
  else if x = ~~~terminator then [x, ~~~terminatorSuffix] else [x]

/-- `suffixEncodeString`: the escaped bytes, closed by a `0x00`. -/
def suffixEncodeString (s : Bytes) : Bytes := s.flatMap escapeByte ++ [terminator]

/-- The loop of `suffixDecodeString` from the state in which `pending` is the escape byte
(`0x00` or `0xFF`) whose partner comes next, if any. It returns the decoded string and the
code after the end marker `0x00 0x00` (or `0xFF 0xFF`). -/
def suffixDecodeFrom : Option UInt8 → Bytes → Option (Bytes × Bytes)
  | _, [] => none
  | none, y :: r =>
    if y = terminator ∨ y = ~~~terminator then suffixDecodeFrom (some y) r
    else (suffixDecodeFrom none r).map fun p => (y :: p.1, p.2)
  | some x, y :: r =>
    if x = terminator then
      if y = terminatorSuffix then (suffixDecodeFrom none r).map fun p => (x :: p.1, p.2)
      else if y = terminator then some ([], r)
      else none
    else if y = ~~~terminatorSuffix then (suffixDecodeFrom none r).map fun p => (x :: p.1, p.2)
    else if y = ~~~terminator then some ([], r)
    -- a lone `0xFF` stands for itself (kept for old codes) and `y` is read afresh
    else if y = terminator ∨ y = ~~~terminator then
      (suffixDecodeFrom (some y) r).map fun p => (x :: p.1, p.2)
    else (suffixDecodeFrom none r).map fun p => (x :: y :: p.1, p.2)

/-- `suffixDecodeString`: a `0x00` followed by anything but `0x01` or `0x00` is an error,
and so is a code that ends before the marker (Go panics when its last byte is `0x00` or
`0xFF`). -/
def suffixDecodeString (code : Bytes) : Option (Bytes × Bytes) := suffixDecodeFrom none code

/-- `getDatum`: the code up to the first `terminator` and the code after it. Go returns the
whole code and an empty rest when there is no terminator, where it reads one byte past the
end of the loop index. -/
def getDatum (code : Bytes) : Option (Bytes × Bytes) :=
  match code with
  | [] => none
  | _ =>
    if terminator ∈ code then some (code.takeWhile (· ≠ terminator),
      (code.dropWhile (· ≠ terminator)).drop 1)
    else some (code.dropLast, [])

end Collatejson
