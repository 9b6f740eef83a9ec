import GsiIndexing.Collate.NumberOrder

/-!
# `DecodeN1QLValue` and `code2n1ql`

`code2n1ql` reads one value from the front of a code and returns it (Go's `nil` as `none`), the
code after it, and an error. Arrays and objects loop over their members, counting them down
when the codec writes their length, else until a `Terminator`; a member that fails stops the
loop, and the value built so far is returned beside the error. Runtime panics (an index or a
slice out of range, a method call on a nil member) are recovered by `DecodeN1QLValue`, which
then returns no value and an error; the model makes them the `Except` case of its result.

Go decodes into a caller's text buffer, which only matters when it is too short; the model
assumes it is long enough, as `DecodeN1QLValue` asks of its callers, and drops it. The value
package is the plain value type `N1qlValue`: `NewValue` of an `int64`, a `float64`, a string,
a slice or a map is that value, and `ActualForIndex` gives it back.

Recursion goes by fuel, one unit for every call and every loop round; each of them reads at
least one byte of the code, so `DecodeN1QLValue` gives the length of the code plus one.
-/

namespace Collatejson

open Go

/-! ## Numbers -/

/-- `strings.Index(s, sep)` for a one-byte separator, `none` for `-1`. -/
def indexOf (s : Bytes) (b : UInt8) : Option Nat := s.idxOf? b

/-- The body of `TryConvertFromScientificNotation`: `none` where it panics on a slice (the
sign, the point or the `e` missing, or the `e` before the point). A text `±c.me±x` whose
exponent is at most 20 and reaches past the mantissa is the integer `±c m 0…0` (its leading
`0` dropped), parsed when `getInt64` asks for it. -/
def tryConvertBody (val : Bytes) (getInt64 : Bool) : Option (Bytes × Bool × Int64) := do
  let first ← slice val 0 1
  let (sign, number) := if first = [45] ∨ first = [43] then (first, val.drop 1) else ([], val)
  let decimalPos ← indexOf number 46
  let ePos ← indexOf number 101
  let characteristic ← slice number 0 decimalPos
  let mantissa ← slice number (decimalPos + 1) ePos
  match parseInt (number.drop (ePos + 1)) with
  | (_, some _) => pure (val, false, 0)
  | (exp, none) =>
    -- from 21 places on the number does not fit an `int64`: it stays a float
    if 20 < exp then pure (val, false, 0)
    else if 0 < exp ∧ (mantissa.length : Int) ≤ exp then
      let mantissa := mantissa ++ List.replicate (exp.toNat - mantissa.length) 48
      let digits := if characteristic = [48] then sign ++ mantissa else sign ++ characteristic ++ mantissa
      if getInt64 then
        match parseInt digits with
        | (i, none) => pure (digits, true, Int64.ofInt i)
        | (_, some _) => pure (val, false, 0)
      else pure (digits, true, 0)
    else pure (val, false, 0)

/-- `Integer.TryConvertFromScientificNotation`: the deferred `recover` returns the input as a
float text when the body panics. -/
def tryConvertFromScientificNotation (val : Bytes) (getInt64 : Bool) : Bytes × Bool × Int64 :=
  (tryConvertBody val getInt64).getD (val, false, 0)

/-- Go's `int(f)` of what `strconv.ParseFloat` returns: `0` beside a syntax error, and for an
overflow `±Inf`, which amd64 converts to `-2^63`. -/
def intOfParseFloat (s : Bytes) : Int :=
  match parseDecimal s with
  | none => 0
  | some (neg, d) =>
    let m := Float64.roundMag d.value
    if h : m < infMag then Float64.toInt ⟨neg, m, h⟩ else -2 ^ 63

/-- Why `DecodeN1QLValue` fails. -/
inductive DecodeError where
  /-- a runtime panic, recovered as `ErrorOutputLen` (a slice out of range) or its text -/
  | recovered
  /-- an error of `strconv.ParseInt` or `strconv.Atoi` -/
  | numError (e : NumError)
  /-- an error of `strconv.ParseFloat` -/
  | parseFloat
  /-- `ErrorNumberType` -/
  | numberType
  /-- `ErrorSuffixDecoding`, also where Go panics on a code ending in an escape byte -/
  | suffixDecoding
  /-- `ErrInvalidKeyTypeInObject` -/
  | invalidKeyType
  /-- the model's fuel ran out -/
  | outOfFuel
  deriving DecidableEq, Repr

/-- A Go expression that panics where the model has `none`. -/
def orPanic {α : Type} : Option α → Except DecodeError α
  | some a => .ok a
  | none => .error .recovered

@[simp] theorem orPanic_some {α : Type} (a : α) : orPanic (some a) = pure a := rfl

@[simp] theorem orPanic_none {α : Type} : (orPanic none : Except DecodeError α) = .error .recovered := rfl

/-- `codec.denormalizeFloat`: the text unchanged for `float64`; for `int64` the decimal of
`int(f)`, the parse error dropped; for `decimal` the `'f'` text of the value, and
`ErrorNumberType` where it does not parse. -/
def denormalizeFloat (codec : Codec) (text : Bytes) : Bytes × Option DecodeError :=
  match codec.numberType with
  | .float64 => (text, none)
  | .int64 => (itoa (intOfParseFloat text), none)
  | .decimal =>
    match parseFloat text with
    | some f => (formatFloatF f, none)
    | none => ([], some .numberType)

/-- What `code2n1ql` returns: the value (`nil` as `none`), the remaining code and the error. -/
abbrev DecodeResult := Option N1qlValue × Bytes × Option DecodeError

/-- The cases of `code2n1ql` that read a datum and ignore it. -/
def decodeDatum (code : Bytes) (v : N1qlValue) : Except DecodeError DecodeResult := do
  let (_, remaining) ← orPanic (getDatum code)
  pure (some v, remaining, none)

/-- The `TypeLength` case of `code2n1ql`. -/
def decodeLength (code : Bytes) : Except DecodeError DecodeResult := do
  let (datum, remaining) ← orPanic (getDatum code)
  let body ← orPanic (sliceFrom datum 1)
  let (_, ts) ← orPanic (decodeInt body)
  match parseInt ts with
  | (v, none) => pure (some (.number (.int64 (Int64.ofInt v))), remaining, none)
  | (_, some e) => pure (none, remaining, some (.numError e))

/-- The `TypeNumber` case of `code2n1ql`: `DecodeFloat`, `denormalizeFloat`, the leading `+`
trimmed, then an `int64` if `TryConvertFromScientificNotation` finds one, else
`strconv.ParseFloat`. -/
def decodeNumber (codec : Codec) (code : Bytes) : Except DecodeError DecodeResult := do
  let (datum, remaining) ← orPanic (getDatum code)
  let body ← orPanic (sliceFrom datum 1)
  let ts ← orPanic (decodeFloat body)
  let (ts, err) := denormalizeFloat codec ts
  let ts := ts.dropWhile (· = plus)
  let (ts, isInt64, i64) := tryConvertFromScientificNotation ts true
  if isInt64 then pure (some (.number (.int64 i64)), remaining, err)
  else
    match parseFloat ts with
    | some f => pure (some (.number (.float64 f)), remaining, none)
    | none => pure (none, remaining, some .parseFloat)

/-- `objval[k] = v` on a map held as its entries. -/
def mapInsert {α : Type} (k : Bytes) (v : α) : List (Bytes × α) → List (Bytes × α)
  | [] => [(k, v)]
  | (k', v') :: rest => if k' = k then (k, v) :: rest else (k', v') :: mapInsert k v rest

/-! ## `code2n1ql` -/

/-- The arrays' and objects' loops return the members read so far, the code after them and
the error that stopped them. -/
abbrev LoopResult (α : Type) := List α × Bytes × Option DecodeError

mutual

/-- `code2n1ql` with `decode` set. -/
def code2n1ql (codec : Codec) : Nat → Bytes → Except DecodeError DecodeResult
  | 0, _ => .error .outOfFuel
  | _ + 1, [] => pure (none, [], none)
  | fuel + 1, c :: rest =>
    if c = terminator then pure (none, c :: rest, none)
    else if c = typeMissing then decodeDatum (c :: rest) .missing
    else if c = typeNull then decodeDatum (c :: rest) .null
    else if c = typeTrue then decodeDatum (c :: rest) (.bool true)
    else if c = typeFalse then decodeDatum (c :: rest) (.bool false)
    else if c = typeLength then decodeLength (c :: rest)
    else if c = typeNumber then decodeNumber codec (c :: rest)
    else if c = typeString then
      pure (match suffixDecodeString rest with
        | some (s, remaining) => (some (.string s), remaining, none)
        | none => (none, [], some .suffixDecoding))
    else if c = typeArray then
      if codec.arrayLenPrefix then do
        let (datum, code) ← orPanic (getDatum rest)
        let body ← orPanic (sliceFrom datum 1)
        let (_, ts) ← orPanic (decodeInt body)
        match atoi ts with
        | (_, some e) => do
          -- `remaining = code[1:]` after the length, with no value
          let remaining ← orPanic (sliceFrom code 1)
          pure (none, remaining, some (.numError e))
        | (l, none) => do
          let (xs, code, err) ← code2n1qlArrayCount codec fuel l.toNat code []
          let remaining ← orPanic (sliceFrom code 1)
          pure (some (.array xs), remaining, err)
      else do
        let (xs, code, err) ← code2n1qlArrayUntil codec fuel rest []
        let remaining ← orPanic (sliceFrom code 1)
        pure (some (.array xs), remaining, err)
    else if c = typeObj then
      if codec.propertyLenPrefix then do
        let (datum, code) ← orPanic (getDatum rest)
        let body ← orPanic (sliceFrom datum 1)
        let (_, ts) ← orPanic (decodeInt body)
        match atoi ts with
        | (_, some e) => do
          let remaining ← orPanic (sliceFrom code 1)
          pure (none, remaining, some (.numError e))
        | (l, none) => do
          let (kvs, code, err) ← code2n1qlObjectCount codec fuel l.toNat code []
          let remaining ← orPanic (sliceFrom code 1)
          pure (some (.object kvs), remaining, err)
      else do
        let (kvs, code, err) ← code2n1qlObjectUntil codec fuel rest []
        let remaining ← orPanic (sliceFrom code 1)
        pure (some (.object kvs), remaining, err)
    else pure (none, [], none)

/-- The loop `for ; l > 0; l--` over the elements of a length-prefixed array. -/
def code2n1qlArrayCount (codec : Codec) :
    Nat → Nat → Bytes → List N1qlValue → Except DecodeError (LoopResult N1qlValue)
  | _, 0, code, acc => pure (acc, code, none)
  | 0, _ + 1, _, _ => .error .outOfFuel
  | fuel + 1, l + 1, code, acc => do
    let (tv, code, err) ← code2n1ql codec fuel code
    match err, tv with
    | some e, _ => pure (acc, code, some e)
    -- `tv.ActualForIndex()` on a nil value
    | none, none => .error .recovered
    | none, some v => code2n1qlArrayCount codec fuel l code (acc ++ [v])

/-- The loop `for code[0] != Terminator` over the elements of an array. -/
def code2n1qlArrayUntil (codec : Codec) :
    Nat → Bytes → List N1qlValue → Except DecodeError (LoopResult N1qlValue)
  | 0, _, _ => .error .outOfFuel
  | _ + 1, [], _ => .error .recovered
  | fuel + 1, c :: rest, acc =>
    if c = terminator then pure (acc, c :: rest, none)
    else do
      let (tv, code, err) ← code2n1ql codec fuel (c :: rest)
      match err, tv with
      | some e, _ => pure (acc, code, some e)
      | none, none => .error .recovered
      | none, some v => code2n1qlArrayUntil codec fuel code (acc ++ [v])

/-- One round of the objects' loops: the key, then the value, then the key's string (a nil key
or value panics, any other key is `ErrInvalidKeyTypeInObject`). The result is the code after
them and the entry, or the error that ends the loop. -/
def code2n1qlEntry (codec : Codec) :
    Nat → Bytes → Except DecodeError (Bytes × Except DecodeError (Bytes × N1qlValue))
  | 0, _ => .error .outOfFuel
  | fuel + 1, code => do
    let (key, code, err) ← code2n1ql codec fuel code
    match err with
    | some e => pure (code, .error e)
    | none => do
      let (value, code, err) ← code2n1ql codec fuel code
      match err, key, value with
      | some e, _, _ => pure (code, .error e)
      | none, none, _ => .error .recovered
      | none, some (.string k), some v => pure (code, .ok (k, v))
      | none, some (.string _), none => .error .recovered
      | none, some _, _ => pure (code, .error .invalidKeyType)

/-- The loop `for ; l > 0; l--` over the entries of a length-prefixed object. -/
def code2n1qlObjectCount (codec : Codec) : Nat → Nat → Bytes → List (Bytes × N1qlValue) →
    Except DecodeError (LoopResult (Bytes × N1qlValue))
  | _, 0, code, acc => pure (acc, code, none)
  | 0, _ + 1, _, _ => .error .outOfFuel
  | fuel + 1, l + 1, code, acc => do
    let (code, entry) ← code2n1qlEntry codec fuel code
    match entry with
    | .error e => pure (acc, code, some e)
    | .ok (k, v) => code2n1qlObjectCount codec fuel l code (mapInsert k v acc)

/-- The loop `for code[0] != Terminator` over the entries of an object. -/
def code2n1qlObjectUntil (codec : Codec) : Nat → Bytes → List (Bytes × N1qlValue) →
    Except DecodeError (LoopResult (Bytes × N1qlValue))
  | 0, _, _ => .error .outOfFuel
  | _ + 1, [], _ => .error .recovered
  | fuel + 1, c :: rest, acc =>
    if c = terminator then pure (acc, c :: rest, none)
    else do
      let (code, entry) ← code2n1qlEntry codec fuel (c :: rest)
      match entry with
      | .error e => pure (acc, code, some e)
      | .ok (k, v) => code2n1qlObjectUntil codec fuel code (mapInsert k v acc)

end

/-- `DecodeN1QLValue`: the value and the error of `code2n1ql`, or no value and an error where
it panics. -/
def decodeN1QLValue (codec : Codec) (code : Bytes) : Option N1qlValue × Option DecodeError :=
  match code2n1ql codec (code.length + 1) code with
  | .ok (v, _, err) => (v, err)
  | .error e => (none, some e)

/-! ## Zero -/

theorem parseFloat_zero : parseFloat [zero] = some ⟨false, 0, by decide⟩ := by
  have h : parseDecimal [zero] = some (false, ⟨0, 0⟩) := by decide
  simp [parseFloat, h, Float64.Decimal.value, Float64.roundMag_zero, show 0 < infMag by decide]

/-- `int64(0)` prints as `0e+00`, which `EncodeFloat` codes as the zero code `0`. -/
theorem encodeN1QLValue_int64_zero :
    encodeN1QLValue newCodec (.number (.int64 0)) = [typeNumber, zero, terminator] := by
  have hmag : (Float64.ofInt64 0).mag = 0 := by simp [Float64.ofInt64, Float64.roundMag_zero]
  simp only [encodeN1QLValue, n1ql2code, numberCode_narrow newCodec (i := 0) (by decide),
    floatCode_of_mag_eq_zero hmag, List.singleton_append]

/-- The zero code has no exponent for `TryConvertFromScientificNotation` to read: its slices
panic, the recovered text is parsed as a `float64`, and `int64(0)` comes back as
`float64(0)`. -/
theorem decodeN1QLValue_int64_zero :
    decodeN1QLValue newCodec (encodeN1QLValue newCodec (.number (.int64 0))) =
      (some (.number (.float64 ⟨false, 0, by decide⟩)), none) := by
  have hd : getDatum [typeNumber, zero, terminator] = some ([typeNumber, zero], []) := by decide
  have hs : sliceFrom [typeNumber, zero] 1 = some [zero] := by decide
  have hf : decodeFloat [zero] = some [zero] := by decide
  have htry : tryConvertFromScientificNotation [zero] true = ([zero], false, 0) := by decide
  have htrim : [zero].dropWhile (· = plus) = [zero] := by decide
  -- the first byte is `TypeNumber`
  have hcase : decodeN1QLValue newCodec [typeNumber, zero, terminator] =
      match decodeNumber newCodec [typeNumber, zero, terminator] with
      | .ok (v, _, err) => (v, err)
      | .error e => (none, some e) := rfl
  rw [encodeN1QLValue_int64_zero, hcase, decodeNumber]
  simp [hd, hs, hf, denormalizeFloat, newCodec, htrim, htry, parseFloat_zero]
  rfl

end Collatejson
