import GsiIndexing.Lib.Loop
import GsiIndexing.Collate.N1qlDecode

/-!
# `ReverseCollate` (`desc.go`)

A descending index key has the fields of its `desc` positions bit-flipped, so that byte order
reverses on them. `ReverseCollate` finds field `i` with `extractEncodedField(code, i+1)` on the
code as the rounds before it left it, and flips its bytes in place. `extractEncodedField` reads
a code whose fields may be flipped or not: every case takes a type byte or its complement,
and the end bytes `Terminator` and `^Terminator` both close a datum.

The Go functions work on slices of the one buffer and change it in place: `flipBits`, the
complement-and-back around `DecodeInt` of a flipped length, and the `append`s with which the
objects' case grows a `datum` that starts as a slice of the buffer. The model passes the bytes
of the slice it is given and returns them as the call leaves them, with the field as an offset
and a length in them. The buffer is taken to end where the code ends: an `append` that does
not fit moves `datum` to a new array, and a slice past the end panics. A panic is recovered
by `ReverseCollate`, which then returns an error and no code.

Rounds of the loops without a length each read at least one byte, and so does every level of
recursion, so `ReverseCollate` gives `extractEncodedField` the length of the code plus one as
fuel.
-/

namespace Collatejson

open Go GoLoop

/-! ## Bytes and their complements -/

/-- `flipBits`: every byte complemented. -/
def flipBits (code : Bytes) : Bytes := code.map (~~~ ·)

/-- `flipBits(code[start:start+n])` in place. -/
def flipAt (code : Bytes) (start n : Nat) : Bytes :=
  code.take start ++ flipBits ((code.drop start).take n) ++ code.drop (start + n)

/-- `b == Terminator || b == ^Terminator`. -/
def isEnd (b : UInt8) : Bool := b == terminator || b == ~~~terminator

/-- The types whose datum runs to the first end byte, plain or flipped. -/
def isScalarType (c : UInt8) : Bool :=
  [typeMissing, typeNull, typeTrue, typeFalse, typeLength, typeNumber].any
    (fun t => c == t || c == ~~~t)

/-! ## Datums -/

/-- `getEncodedDatum`: the length of `code[:i+1]`, for the first end byte `i` or else the last
index; `code[:1]` of an empty code panics. -/
def getEncodedDatum (code : Bytes) : Option Nat :=
  match code with
  | [] => none
  | _ => some ((code.findIdx? isEnd).getD (code.length - 1) + 1)

/-- The loop of `getEncodedString` from index `i`: `none` where `code[i]` after an end byte
panics, `some none` for `ErrorSuffixDecoding`, and `some (some n)` for the datum `code[:n]`
closed by two end bytes of one kind. A `0x00` goes on only before `0x01`, a `0xFF` only before
`0xFE`. -/
def getEncodedStringFrom (i : Nat) : Bytes → Option (Option Nat)
  | [] => some none
  | x :: rest =>
    if x = terminator then
      match rest with
      | [] => none
      | y :: rest =>
        if y = terminatorSuffix then getEncodedStringFrom (i + 2) rest
        else if y = terminator then some (some (i + 2))
        else some none
    else if x = ~~~terminator then
      match rest with
      | [] => none
      | y :: rest =>
        if y = ~~~terminatorSuffix then getEncodedStringFrom (i + 2) rest
        else if y = ~~~terminator then some (some (i + 2))
        else some none
    else getEncodedStringFrom (i + 1) rest

/-- `getEncodedString`. Go tests `i == len(code)` only after reading `code[i]`, so that branch
never returns. -/
def getEncodedString (code : Bytes) : Option (Option Nat) := getEncodedStringFrom 0 code

/-! ## `extractEncodedField` -/

/-- What `extractEncodedField` leaves: the bytes of its slice after the call, the datum it
returns as an offset and a length in them (`nil` has length `0`), the offset at which
`remaining` starts (the end for `nil`), and the error. -/
structure Extracted where
  code : Bytes
  start : Nat
  len : Nat
  rest : Nat
  err : Option DecodeError

/-- The variables of the arrays' loops: `orig` as changed so far, where `code` starts in it,
`currField` and `currFieldStart`. -/
structure FieldLoop where
  code : Bytes
  pos : Nat
  field : Nat
  fieldStart : Nat
  err : Option DecodeError

/-- The variables of the objects' loops: `orig` as changed so far, where `code` starts in it,
whether `datum` is still the slice `orig[1:1+dlen]`, and its length. -/
structure EntryLoop where
  code : Bytes
  pos : Nat
  inPlace : Bool
  dlen : Nat
  err : Option DecodeError

/-- The test of the loops without a length, `code[0] != Terminator && code[0] != ^Terminator`,
which panics on an empty `code`. -/
def atField (code : Bytes) (pos : Nat) : Except DecodeError Bool :=
  match code[pos]? with
  | none => .error .recovered
  | some b => pure (!isEnd b)

/-- One round of the arrays' loops: `ts, code, err = codec.extractEncodedField(code, 0)`, then
`break` on an error, `return orig[currFieldStart : currFieldStart+len(ts)]` for the field asked
for, and else the next field. -/
def fieldRound (extract : Bytes → Except DecodeError Extracted) (fieldPos : Nat) (st : FieldLoop) :
    Except DecodeError (Round FieldLoop Extracted) := do
  let r ← extract (st.code.drop st.pos)
  let code := st.code.take st.pos ++ r.code
  if r.err.isSome then pure (.stop { st with code, pos := st.pos + r.rest, err := r.err })
  else if st.field = fieldPos then
    if st.fieldStart + r.len ≤ code.length then
      pure (.ret ⟨code, st.fieldStart, r.len, code.length, none⟩)
    else .error .recovered
  else pure (.next ⟨code, st.pos + r.rest, st.field + 1, st.fieldStart + r.len, none⟩)

/-- `datum = append(datum, orig[s:s+n]...)`: while `datum` is `orig[1:1+dlen]`, the bytes are
copied behind it when they fit in `orig`; otherwise `datum` moves to a new array. -/
def appendDatum (st : EntryLoop) (s n : Nat) : EntryLoop :=
  if st.inPlace ∧ 1 + st.dlen + n ≤ st.code.length then
    { st with
      code := st.code.take (1 + st.dlen) ++ (st.code.drop s).take n ++ st.code.drop (1 + st.dlen + n)
      dlen := st.dlen + n }
  else { st with inPlace := false, dlen := st.dlen + n }

/-- One round of the objects' loops: the key, then the value, `break` on an error, and then
both appended to `datum`. -/
def entryRound (extract : Bytes → Except DecodeError Extracted) (st : EntryLoop) :
    Except DecodeError (Round EntryLoop Empty) := do
  let k ← extract (st.code.drop st.pos)
  let code := st.code.take st.pos ++ k.code
  if k.err.isSome then return .stop { st with code, pos := st.pos + k.rest, err := k.err }
  let vpos := st.pos + k.rest
  let v ← extract (code.drop vpos)
  let code := code.take vpos ++ v.code
  if v.err.isSome then return .stop { st with code, pos := vpos + v.rest, err := v.err }
  let st := appendDatum { st with code, pos := vpos + v.rest, err := none } (st.pos + k.start) k.len
  pure (.next (appendDatum st (vpos + v.start) v.len))

/-- The length prefix of an array or object: `getEncodedDatum(code[1:])`, complemented back
when it is a flipped `TypeLength`, `DecodeInt` of what lies between its type and its
terminator, and `strconv.Atoi` of that text. Go complements the bytes in place and back again
around the two calls, so the code is as before unless they panic. The result is the length of
the datum and what `Atoi` returns. -/
def lengthPrefix (code : Bytes) : Except DecodeError (Nat × Int × Option NumError) := do
  let dl ← orPanic (getEncodedDatum (code.drop 1))
  let datum := (code.drop 1).take dl
  let datum := if datum.head? = some (~~~typeLength) then datum.take 1 ++ flipBits (datum.drop 1)
    else datum
  let body ← orPanic (slice datum 1 (dl - 1))
  let (_, ts) ← orPanic (decodeInt body)
  let (l, err) := atoi ts
  pure (dl, l, err)

/-- The end of the arrays' and objects' cases: `remaining = code[1:]`, then
`datum = orig[0:n+2]`; both panic out of range. -/
def closeDatum (code : Bytes) (pos n : Nat) (err : Option DecodeError) : Except DecodeError Extracted :=
  if pos < code.length ∧ n + 2 ≤ code.length then pure ⟨code, 0, n + 2, pos + 1, err⟩
  else .error .recovered

/-- `extractEncodedField(code, fieldPos)`. For an array, field `fieldPos` (from `1`) is returned
where the loop reaches it; `fieldPos = 0` reads the whole datum. With `arrayLenPrefix` the
fields are counted from `currFieldStart = 1`, as in Go, and `datum` keeps only the length. -/
def extractEncodedField (codec : Codec) : Nat → Bytes → Nat → Except DecodeError Extracted
  | 0, _, _ => .error .outOfFuel
  | _ + 1, [], _ => pure ⟨[], 0, 0, 0, none⟩
  | fuel + 1, c :: rest, fieldPos =>
    if c = terminator then pure ⟨c :: rest, 0, 0, 0, none⟩
    else if isScalarType c then do
      let n ← orPanic (getEncodedDatum (c :: rest))
      pure ⟨c :: rest, 0, n, n, none⟩
    else if c = typeString ∨ c = ~~~typeString then
      match getEncodedString (c :: rest) with
      | none => .error .recovered
      | some none => pure ⟨c :: rest, 0, 0, rest.length + 1, some .suffixDecoding⟩
      | some (some n) => pure ⟨c :: rest, 0, n, n, none⟩
    else if c = typeArray ∨ c = ~~~typeArray then
      if codec.arrayLenPrefix then do
        let (dl, l, e) ← lengthPrefix (c :: rest)
        match e with
        | some e => closeDatum (c :: rest) (1 + dl) dl (some (.numError e))
        | none =>
          match ← countLoop (fieldRound (extractEncodedField codec fuel · 0) fieldPos) l.toNat
              ⟨c :: rest, 1 + dl, 1, 1, none⟩ with
          | .inr r => pure r
          | .inl st => closeDatum st.code st.pos dl st.err
      else do
        match ← whileLoop .outOfFuel (fun st => atField st.code st.pos)
            (fieldRound (extractEncodedField codec fuel · 0) fieldPos) fuel
            ⟨c :: rest, 1, 1, 1, none⟩ with
        | .inr r => pure r
        | .inl st => closeDatum st.code st.pos (st.fieldStart - 1) st.err
    else if c = typeObj ∨ c = ~~~typeObj then
      if codec.propertyLenPrefix then do
        let (dl, l, e) ← lengthPrefix (c :: rest)
        match e with
        | some e => closeDatum (c :: rest) (1 + dl) dl (some (.numError e))
        | none =>
          match ← countLoop (entryRound (extractEncodedField codec fuel · 0)) l.toNat
              ⟨c :: rest, 1 + dl, true, dl, none⟩ with
          | .inr r => nomatch r
          | .inl st => closeDatum st.code st.pos st.dlen st.err
      else do
        match ← whileLoop .outOfFuel (fun st => atField st.code st.pos)
            (entryRound (extractEncodedField codec fuel · 0)) fuel ⟨c :: rest, 1, false, 0, none⟩ with
        | .inr r => nomatch r
        | .inl st => closeDatum st.code st.pos st.dlen st.err
    -- no case matches: `nil` datum and remaining
    else pure ⟨c :: rest, 0, 0, rest.length + 1, none⟩

/-- `ReverseCollate(code, desc)`. -/
def reverseCollate (codec : Codec) (code : Bytes) (desc : List Bool) : Except DecodeError Bytes :=
  desc.zipIdx.foldlM (fun code (d, i) =>
    if d then do
      let r ← extractEncodedField codec (code.length + 1) code (i + 1)
      pure (flipAt r.code r.start r.len)
    else pure code) code

/-! ## Arrays with their length first

With `SortbyArrayLen(true)` the fields of an array follow its length, but the loop counts them
from `currFieldStart = 1`, the offset of the length. Field `1` of `[null]` is then taken to be
the two bytes from the length on: `ReverseCollate` flips `TypeLength` and `>` and leaves the
`null` as it was. On the flipped code `DecodeInt` no longer reads a count, the loop is skipped,
and the second `ReverseCollate` flips the first six bytes of the array. -/

theorem reverseCollate_sortbyArrayLen :
    reverseCollate { newCodec with arrayLenPrefix := true }
        (n1ql2code { newCodec with arrayLenPrefix := true } (.array [.null])) [true] =
      .ok [typeArray, ~~~typeLength, ~~~posPrefix, 49, terminator, typeNull, terminator, terminator] ∧
    (reverseCollate { newCodec with arrayLenPrefix := true }
        (n1ql2code { newCodec with arrayLenPrefix := true } (.array [.null])) [true] >>=
      fun code => reverseCollate { newCodec with arrayLenPrefix := true } code [true]) =
      .ok [~~~typeArray, typeLength, posPrefix, ~~~49, ~~~terminator, ~~~typeNull, terminator, terminator] := by
  decide +kernel

end Collatejson
