import GsiIndexing.Go.FloatArith
import GsiIndexing.Collate.N1qlDecode

/-!
# `FixEncodedInt`

Projectors before 5.1.1 coded integers with `ConvertToScientificNotation_TestOnly`, and
`FixEncodedInt` rewrites such a code the way the current encoder writes it. `fixEncodedInt`
walks the code value by value and copies every datum, except numbers: a number is decoded to
its `%e` text, turned into an integer when `TryConvertFromScientificNotation` finds one, and
coded again by `ConvertToScientificNotation`, or else parsed as a `float64` and coded by
`normalizeFloat`. Arrays and objects loop over their members, counting them down when the codec
writes their length, else until a `Terminator`; a member that fails stops the loop.

The model returns the bytes each call appends, where Go appends into one buffer; a call on a
buffer `text` returns `text` followed by them. Runtime panics (an index or a slice out of range)
are the `Except` case, as in `code2n1ql`. `FixEncodedInt` recovers them, but its results are
unnamed: the deferred function sets only a local `err`, and the call returns `nil, nil`.

Recursion goes by fuel, one unit for every call and every loop round that reads a byte; a
counted loop that finds no byte left to read, or a `Terminator`, repeats the same empty round,
which the model runs once for all of them.
-/

namespace Collatejson

open Go

/-! ## Numbers -/

/-- The `float64` that `strconv.ParseFloat(s, 64)` returns beside its error: the nearest value,
`±Inf` past the range (beside `ErrRange`) and `0` for a syntax error. -/
def parseFloatValue (s : Bytes) : F64 :=
  match parseDecimal s with
  | none => F64.zero
  | some (neg, d) =>
    let m := Float64.roundMag d.value
    if h : m < infMag then .finite ⟨neg, m, h⟩ else .inf neg

/-- `codec.normalizeFloat` of any `float64`: `FormatFloat` prints an infinity as `+Inf` or `-Inf`
and NaN as `NaN` for `EncodeFloat`, and `int` turns both into `-2^63` on amd64. -/
def normalizeF64 (codec : Codec) : F64 → Bytes
  | .finite f => normalizeFloat codec f
  | .inf neg =>
    match codec.numberType with
    | .int64 => encodeInt (itoa (-2 ^ 63))
    | _ => encodeFloat (if neg then [45, 73, 110, 102] else [43, 73, 110, 102])
  | .nan =>
    match codec.numberType with
    | .int64 => encodeInt (itoa (-2 ^ 63))
    | _ => encodeFloat [78, 97, 78]

/-- The `TypeNumber` case of `fixEncodedInt`: `DecodeFloat`, `denormalizeFloat`, the leading
`+` trimmed, then `ConvertToScientificNotation` of the `int64` that
`TryConvertFromScientificNotation` finds, or `normalizeFloat` of the parsed text. The errors of
`denormalizeFloat` and `ParseFloat` are overwritten before they are returned. -/
def fixNumber (codec : Codec) (code : Bytes) : Except DecodeError (Bytes × Bytes × Option DecodeError) := do
  let (datum, remaining) ← orPanic (getDatum code)
  let body ← orPanic (sliceFrom datum 1)
  let ts ← orPanic (decodeFloat body)
  let ts := (denormalizeFloat codec ts).1.dropWhile (· = plus)
  let (ts, isInt64, intval) := tryConvertFromScientificNotation ts true
  let cs := if isInt64 then encodeFloat (convertToScientificNotation intval)
    else normalizeF64 codec (parseFloatValue ts)
  pure (typeNumber :: (cs ++ [terminator]), remaining, none)

/-! ## Strings -/

/-- The loop of `getStringDatum` from the byte after `seen`: a `Terminator` then a
`TerminatorSuffix` is an escaped zero, two `Terminator`s end the string, and a `Terminator`
then any other byte is `ErrorSuffixDecoding`. Reading the byte after a last `Terminator`
panics. -/
def getStringDatumFrom : Bytes → Bytes → Option (Bytes × Bytes × Option DecodeError)
  | _, [] => some ([], [], some .suffixDecoding)
  | seen, x :: rest =>
    if x = terminator then
      match rest with
      | [] => none
      | y :: rest' =>
        if y = terminatorSuffix then getStringDatumFrom (seen ++ [x, y]) rest'
        else if y = terminator then some (seen ++ [x], rest', none)
        else some ([], [], some .suffixDecoding)
    else getStringDatumFrom (seen ++ [x]) rest

/-- `getStringDatum`: the string's datum through its closing `Terminator`, the code after the
`Terminator` that ends the datum, and the error. -/
def getStringDatum (code : Bytes) : Option (Bytes × Bytes × Option DecodeError) :=
  getStringDatumFrom [] code

/-! ## `fixEncodedInt` -/

/-- What `fixEncodedInt` returns: the bytes it appends, the code after the value and the
error. -/
abbrev FixResult := Bytes × Bytes × Option DecodeError

mutual

/-- `fixEncodedInt` on a buffer it appends to. -/
def fixEncodedInt (codec : Codec) : Nat → Bytes → Except DecodeError FixResult
  | 0, _ => .error .outOfFuel
  | _ + 1, [] => pure ([], [], none)
  | fuel + 1, c :: rest =>
    if c = terminator then pure ([], c :: rest, none)
    else if c = typeMissing ∨ c = typeNull ∨ c = typeTrue ∨ c = typeFalse ∨ c = typeLength then do
      let (datum, remaining) ← orPanic (getDatum (c :: rest))
      pure (datum ++ [terminator], remaining, none)
    else if c = typeNumber then fixNumber codec (c :: rest)
    else if c = typeString then do
      let (datum, remaining, err) ← orPanic (getStringDatum (c :: rest))
      pure (datum ++ [terminator], remaining, err)
    else if c = typeArray then
      if codec.arrayLenPrefix then do
        let (datum, code) ← orPanic (getDatum rest)
        let body ← orPanic (sliceFrom datum 1)
        let (_, ts) ← orPanic (decodeInt body)
        let head := typeArray :: (datum ++ [terminator])
        match atoi ts with
        | (_, some e) => do
          let remaining ← orPanic (sliceFrom code 1)
          pure (head ++ [terminator], remaining, some (.numError e))
        | (l, none) => do
          let (ts, code, err) ← fixArrayCount codec fuel l.toNat code
          let remaining ← orPanic (sliceFrom code 1)
          pure (head ++ ts ++ [terminator], remaining, err)
      else do
        let (ts, code, err) ← fixArrayUntil codec fuel rest
        let remaining ← orPanic (sliceFrom code 1)
        pure (typeArray :: (ts ++ [terminator]), remaining, err)
    else if c = typeObj then
      if codec.propertyLenPrefix then do
        let (datum, code) ← orPanic (getDatum rest)
        let body ← orPanic (sliceFrom datum 1)
        let (_, ts) ← orPanic (decodeInt body)
        let head := typeObj :: (datum ++ [terminator])
        match atoi ts with
        | (_, some e) => do
          let remaining ← orPanic (sliceFrom code 1)
          pure (head ++ [terminator], remaining, some (.numError e))
        | (l, none) => do
          let (ts, code, err) ← fixObjectCount codec fuel l.toNat code
          let remaining ← orPanic (sliceFrom code 1)
          pure (head ++ ts ++ [terminator], remaining, err)
      else do
        let (ts, code, err) ← fixObjectUntil codec fuel rest
        let remaining ← orPanic (sliceFrom code 1)
        pure (typeObj :: (ts ++ [terminator]), remaining, err)
    -- any other type byte: nothing written, and no code left (`remaining` stays `nil`)
    else pure ([], [], none)

/-- The loop `for ; l > 0; l--` over the elements of a length-prefixed array. -/
def fixArrayCount (codec : Codec) : Nat → Nat → Bytes → Except DecodeError FixResult
  | _, 0, code => pure ([], code, none)
  | 0, _ + 1, _ => .error .outOfFuel
  -- every round left finds no code, or the same `Terminator`, and appends nothing
  | _ + 1, _ + 1, [] => pure ([], [], none)
  | fuel + 1, l + 1, c :: rest =>
    if c = terminator then pure ([], c :: rest, none)
    else do
      let (ts, code, err) ← fixEncodedInt codec fuel (c :: rest)
      match err with
      | some e => pure ([], code, some e)
      | none => do
        let (more, code, err) ← fixArrayCount codec fuel l code
        pure (ts ++ more, code, err)

/-- The loop `for code[0] != Terminator` over the elements of an array. -/
def fixArrayUntil (codec : Codec) : Nat → Bytes → Except DecodeError FixResult
  | 0, _ => .error .outOfFuel
  | _ + 1, [] => .error .recovered
  | fuel + 1, c :: rest =>
    if c = terminator then pure ([], c :: rest, none)
    else do
      let (ts, code, err) ← fixEncodedInt codec fuel (c :: rest)
      match err with
      | some e => pure ([], code, some e)
      | none => do
        let (more, code, err) ← fixArrayUntil codec fuel code
        pure (ts ++ more, code, err)

/-- The loop `for ; l > 0; l--` over the entries of a length-prefixed object; a key is kept
when its value fails. -/
def fixObjectCount (codec : Codec) : Nat → Nat → Bytes → Except DecodeError FixResult
  | _, 0, code => pure ([], code, none)
  | 0, _ + 1, _ => .error .outOfFuel
  | _ + 1, _ + 1, [] => pure ([], [], none)
  | fuel + 1, l + 1, c :: rest =>
    if c = terminator then pure ([], c :: rest, none)
    else do
      let (key, code, err) ← fixEncodedInt codec fuel (c :: rest)
      match err with
      | some e => pure ([], code, some e)
      | none => do
        let (value, code, err) ← fixEncodedInt codec fuel code
        match err with
        | some e => pure (key, code, some e)
        | none => do
          let (more, code, err) ← fixObjectCount codec fuel l code
          pure (key ++ value ++ more, code, err)

/-- The loop `for code[0] != Terminator` over the entries of an object. -/
def fixObjectUntil (codec : Codec) : Nat → Bytes → Except DecodeError FixResult
  | 0, _ => .error .outOfFuel
  | _ + 1, [] => .error .recovered
  | fuel + 1, c :: rest =>
    if c = terminator then pure ([], c :: rest, none)
    else do
      let (key, code, err) ← fixEncodedInt codec fuel (c :: rest)
      match err with
      | some e => pure ([], code, some e)
      | none => do
        let (value, code, err) ← fixEncodedInt codec fuel code
        match err with
        | some e => pure (key, code, some e)
        | none => do
          let (more, code, err) ← fixObjectUntil codec fuel code
          pure (key ++ value ++ more, code, err)

end

/-- `Codec.FixEncodedInt(code, buf)`, capitalised as in Go beside the unexported
`fixEncodedInt`: the buffer and the rewritten code, or the error. A panic is recovered into
a local variable only, so the call returns no code and no error. -/
def FixEncodedInt (codec : Codec) (code buf : Bytes) : Except DecodeError Bytes :=
  match fixEncodedInt codec (code.length + 1) code with
  | .ok (fixed, _, none) => .ok (buf ++ fixed)
  | .ok (_, _, some e) => .error e
  | .error .recovered => .ok []
  | .error e => .error e

end Collatejson
