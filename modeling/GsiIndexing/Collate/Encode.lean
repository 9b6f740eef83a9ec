import GsiIndexing.Collate.N1qlDecode

/-!
# `Codec.Encode` and `json.Unmarshal`

`Encode(text, code)` checks the capacity of its buffer, parses the text with `json.Unmarshal`
into an `interface{}` and writes the value with `json2code` from the start of the buffer.

`json.Unmarshal` first runs its scanner over the whole text (`checkValid`) and decodes only a
text the scanner accepts: one value between white space, with at most `maxNestingDepth` arrays
and objects open at once. The model parses in one pass and fails where the scanner refuses a
byte, which gives the same answer. A number becomes a `float64` by `strconv.ParseFloat`, and one
past its range fails the call; a string is unquoted, with invalid UTF-8 and lone surrogates
becoming `U+FFFD`; a repeated key of an object keeps its last value.

`json2code` writes every nested value into the rest of the caller's buffer and then reslices
the buffer to the value's end, `code[:l+len(cs)]`, which panics past the capacity. Only the last
`Terminator` of the whole code is appended, and that append may grow the buffer. `Encode` has no
`recover`.

Recursion goes by fuel, one unit for every value and every member of an array or an object;
each of them reads at least one byte, so the length of the text plus one is enough.

* **`encode_of_unmarshal`** — `Encode` of a text `json.Unmarshal` takes is its value's code, or a
  panic when that code is more than one byte longer than the buffer.
* **`jsonUnmarshal_onesText`** — the text `[1,1,…,1]` parses as that many `1.0`s.
-/

namespace Collatejson

open Go

/-! ## The scanner -/

/-- The white space the scanner skips: space, tab, line feed and carriage return. -/
def isSpace (c : UInt8) : Bool := c == 32 || c == 9 || c == 10 || c == 13

/-- The text after its leading white space. -/
def skipSpace (s : Bytes) : Bytes := s.dropWhile isSpace

/-- A decimal digit. -/
def isDigit (c : UInt8) : Bool := 48 ≤ c && c ≤ 57

/-- A hexadecimal digit of either case. -/
def isHex (c : UInt8) : Bool := isDigit c || (97 ≤ c && c ≤ 102) || (65 ≤ c && c ≤ 70)

/-- `stateDot` and `stateESign` ask for a digit, and `stateDot0` and `stateE0` take the digits
after it: the digits and the text after them. -/
def scanDigits (s : Bytes) : Option (Bytes × Bytes) :=
  match s with
  | c :: rest => if isDigit c then some (c :: rest.takeWhile isDigit, rest.dropWhile isDigit) else none
  | [] => none

/-- `stateE`: an `e` or `E`, an optional sign and digits; nothing when the number ends here. -/
def scanExponent (s : Bytes) : Option (Bytes × Bytes) :=
  match s with
  | e :: rest =>
    if e = 101 ∨ e = 69 then
      let (sign, rest) : Bytes × Bytes := match rest with
        | 43 :: r => ([43], r)
        | 45 :: r => ([45], r)
        | r => ([], r)
      (scanDigits rest).map fun (ds, r) => (e :: (sign ++ ds), r)
    else some ([], s)
  | [] => some ([], [])

/-- A number, from `stateBeginValue` through `stateNeg`, `state0`, `state1`, `stateDot` and
`stateE`: an optional `-`, then `0` or digits not starting with `0`, an optional fraction and
an optional exponent. The result is the number's text and the text after it. -/
def scanNumber (s : Bytes) : Option (Bytes × Bytes) := do
  let (neg, s) : Bytes × Bytes := match s with
    | 45 :: r => ([45], r)
    | r => ([], r)
  let (int, s) ← match s with
    | 48 :: r => some ([48], r)
    | c :: r => if 49 ≤ c ∧ c ≤ 57 then some (c :: r.takeWhile isDigit, r.dropWhile isDigit) else none
    | [] => none
  let (frac, s) ← match s with
    | 46 :: r => (scanDigits r).map fun (ds, r) => (46 :: ds, r)
    | r => some ([], r)
  let (exp, s) ← scanExponent s
  pure (neg ++ int ++ frac ++ exp, s)

/-- The escapes `stateInStringEsc` takes after a backslash, `\u` apart. -/
def simpleEscapes : List UInt8 := [34, 92, 47, 98, 102, 110, 114, 116]

/-- `stateInString` after the opening quote: the bytes up to the closing quote and the text
after it. A byte below `0x20`, or an escape other than the simple ones and `\u` with four
hexadecimal digits, is refused. -/
def scanString : Bytes → Option (Bytes × Bytes)
  | [] => none
  | c :: rest =>
    if c = 34 then some ([], rest)
    else if c = 92 then
      match rest with
      | 117 :: a :: b :: d :: e :: rest' =>
        if isHex a && isHex b && isHex d && isHex e then
          (scanString rest').map fun (body, r) => (92 :: 117 :: a :: b :: d :: e :: body, r)
        else none
      | x :: rest' =>
        if x ∈ simpleEscapes then (scanString rest').map fun (body, r) => (92 :: x :: body, r)
        else none
      | [] => none
    else if c < 32 then none
    else (scanString rest).map fun (body, r) => (c :: body, r)

/-! ## Unquoting -/

/-- `utf8.EncodeRune` of a rune that is no surrogate and at most `U+10FFFF`. -/
def encodeRune (r : Nat) : Bytes :=
  if r < 0x80 then [UInt8.ofNat r]
  else if r < 0x800 then [UInt8.ofNat (0xC0 + r / 0x40), UInt8.ofNat (0x80 + r % 0x40)]
  else if r < 0x10000 then
    [UInt8.ofNat (0xE0 + r / 0x1000), UInt8.ofNat (0x80 + r / 0x40 % 0x40), UInt8.ofNat (0x80 + r % 0x40)]
  else
    [UInt8.ofNat (0xF0 + r / 0x40000), UInt8.ofNat (0x80 + r / 0x1000 % 0x40),
      UInt8.ofNat (0x80 + r / 0x40 % 0x40), UInt8.ofNat (0x80 + r % 0x40)]

/-- `unicode.ReplacementChar` in UTF-8. -/
def runeError : Bytes := encodeRune 0xFFFD

/-- The value of a hexadecimal digit. -/
def hexValue (c : UInt8) : Option Nat :=
  if 48 ≤ c ∧ c ≤ 57 then some (c.toNat - 48)
  else if 97 ≤ c ∧ c ≤ 102 then some (c.toNat - 87)
  else if 65 ≤ c ∧ c ≤ 70 then some (c.toNat - 55)
  else none

/-- `getu4`: the rune of `\uXXXX` at the front of the text, `none` for Go's `-1`. -/
def getu4 : Bytes → Option Nat
  | 92 :: 117 :: a :: b :: c :: d :: _ => do
    let a ← hexValue a
    let b ← hexValue b
    let c ← hexValue c
    let d ← hexValue d
    pure (((a * 16 + b) * 16 + c) * 16 + d)
  | _ => none

/-- The byte a simple escape stands for (`\'` too, which `unquote` takes and the scanner
does not). -/
def unescape (x : UInt8) : Option UInt8 :=
  if x = 34 ∨ x = 92 ∨ x = 47 ∨ x = 39 then some x
  else if x = 98 then some 8
  else if x = 102 then some 12
  else if x = 110 then some 10
  else if x = 114 then some 13
  else if x = 116 then some 9
  else none

/-- Go's `first` and `acceptRanges` for a byte from `0x80` on: the length of the UTF-8
sequence it starts and the range of the byte after it; `none` for a byte no sequence starts
with. -/
def runeStart (b : UInt8) : Option (Nat × UInt8 × UInt8) :=
  if 0xC2 ≤ b ∧ b ≤ 0xDF then some (2, 0x80, 0xBF)
  else if b = 0xE0 then some (3, 0xA0, 0xBF)
  else if b = 0xED then some (3, 0x80, 0x9F)
  else if 0xE1 ≤ b ∧ b ≤ 0xEF then some (3, 0x80, 0xBF)
  else if b = 0xF0 then some (4, 0x90, 0xBF)
  else if b = 0xF4 then some (4, 0x80, 0x8F)
  else if 0xF1 ≤ b ∧ b ≤ 0xF3 then some (4, 0x80, 0xBF)
  else none

/-- `utf8.DecodeRune` on a text whose first byte is from `0x80` on: the length of the
well-formed sequence it starts, or `none` where Go returns `RuneError` of width one (a byte
that starts no sequence, a sequence cut short or a byte in it out of range). -/
def runeLength : Bytes → Option Nat
  | b :: c :: rest => do
    let (n, lo, hi) ← runeStart b
    let tail := rest.take (n - 2)
    if lo ≤ c ∧ c ≤ hi ∧ tail.length = n - 2 ∧ tail.all (fun x => 0x80 ≤ x ∧ x ≤ 0xBF) then some n
    else none
  | _ => none

/-- The loop of `unquoteBytes` over the body of a string: escapes decoded, a `\u` surrogate pair
joined, a lone surrogate and every byte that starts no well-formed UTF-8 sequence replaced by
`U+FFFD`. `none` where Go's `unquote` reports a malformed string, which the scanner has refused
before. -/
def unquoteLoop : Nat → Bytes → Option Bytes
  | 0, _ => some []
  | _ + 1, [] => some []
  | fuel + 1, c :: rest =>
    if c = 92 then
      match rest with
      | 117 :: _ => do
        let rr ← getu4 (c :: rest)
        let s := rest.drop 5
        if 0xD800 ≤ rr ∧ rr < 0xE000 then
          -- `utf16.DecodeRune` of the pair, `U+FFFD` unless a low surrogate follows a high one
          match getu4 s with
          | some rr1 =>
            if rr < 0xDC00 ∧ 0xDC00 ≤ rr1 ∧ rr1 < 0xE000 then
              (encodeRune ((rr - 0xD800) * 0x400 + (rr1 - 0xDC00) + 0x10000) ++ ·) <$>
                unquoteLoop fuel (s.drop 6)
            else (runeError ++ ·) <$> unquoteLoop fuel s
          | none => (runeError ++ ·) <$> unquoteLoop fuel s
        else (encodeRune rr ++ ·) <$> unquoteLoop fuel s
      | x :: rest' => do
        let b ← unescape x
        (b :: ·) <$> unquoteLoop fuel rest'
      | [] => none
    else if c = 34 ∨ c < 32 then none
    else if c < 0x80 then (c :: ·) <$> unquoteLoop fuel rest
    else
      match runeLength (c :: rest) with
      | some n => ((c :: rest).take n ++ ·) <$> unquoteLoop fuel ((c :: rest).drop n)
      | none => (runeError ++ ·) <$> unquoteLoop fuel rest

/-- `unquote` of a string's body; every round reads a byte at least. -/
def unquote (body : Bytes) : Option Bytes := unquoteLoop body.length body

/-! ## Values -/

/-- `maxNestingDepth`: the scanner refuses a text with more arrays and objects open at once. -/
def maxNestingDepth : Nat := 10000

/-- `m[key] = value` for each entry in turn, on a map held as its entries. -/
def objectOfEntries (kvs : List (Bytes × Json)) : List (Bytes × Json) :=
  kvs.foldl (fun m kv => mapInsert kv.1 kv.2 m) []

mutual

/-- A value after white space, with `depth` arrays and objects open around it: the value and
the text after it. -/
def parseValue : Nat → Nat → Bytes → Option (Json × Bytes)
  | 0, _, _ => none
  | fuel + 1, depth, s =>
    match skipSpace s with
    | 91 :: rest =>
      if maxNestingDepth ≤ depth then none
      else
        match skipSpace rest with
        | 93 :: rest => some (.array [], rest)
        | rest => (parseElements fuel (depth + 1) rest).map fun (xs, r) => (.array xs, r)
    | 123 :: rest =>
      if maxNestingDepth ≤ depth then none
      else
        match skipSpace rest with
        | 125 :: rest => some (.object [], rest)
        | rest => (parseMembers fuel (depth + 1) rest).map fun (kvs, r) => (.object (objectOfEntries kvs), r)
    | 34 :: rest => do
      let (body, rest) ← scanString rest
      let str ← unquote body
      pure (.string str, rest)
    | 116 :: 114 :: 117 :: 101 :: rest => some (.bool true, rest)
    | 102 :: 97 :: 108 :: 115 :: 101 :: rest => some (.bool false, rest)
    | 110 :: 117 :: 108 :: 108 :: rest => some (.null, rest)
    | s => do
      let (text, rest) ← scanNumber s
      -- `convertNumber`: a number `ParseFloat` cannot hold is an `UnmarshalTypeError`
      let f ← parseFloat text
      pure (.number f, rest)

/-- The elements of an array after its `[`, through its `]`. -/
def parseElements : Nat → Nat → Bytes → Option (List Json × Bytes)
  | 0, _, _ => none
  | fuel + 1, depth, s => do
    let (x, rest) ← parseValue fuel depth s
    match skipSpace rest with
    | 44 :: rest => (parseElements fuel depth rest).map fun (xs, r) => (x :: xs, r)
    | 93 :: rest => some ([x], rest)
    | _ => none

/-- The entries of an object after its `{`, through its `}`, in the order of the text. -/
def parseMembers : Nat → Nat → Bytes → Option (List (Bytes × Json) × Bytes)
  | 0, _, _ => none
  | fuel + 1, depth, s =>
    match skipSpace s with
    | 34 :: rest => do
      let (body, rest) ← scanString rest
      let key ← unquote body
      match skipSpace rest with
      | 58 :: rest => do
        let (v, rest) ← parseValue fuel depth rest
        match skipSpace rest with
        | 44 :: rest => (parseMembers fuel depth rest).map fun (kvs, r) => ((key, v) :: kvs, r)
        | 125 :: rest => some ([(key, v)], rest)
        | _ => none
      | _ => none
    | _ => none

end

/-- `json.Unmarshal(text, &m)` with `m` an `interface{}`: one value and white space after it;
`none` for any error. -/
def jsonUnmarshal (text : Bytes) : Option Json :=
  match parseValue (text.length + 1) 0 text with
  | some (v, rest) => if skipSpace rest = [] then some v else none
  | none => none

/-! ## `Encode` -/

/-- Why `Codec.Encode` does not return a code. -/
inductive EncodeError where
  /-- `ErrorOutputLen`: the buffer holds less than three times the text or `MinBufferSize` -/
  | outputLen
  /-- the error of `json.Unmarshal` -/
  | unmarshal
  /-- `json2code` reslices the buffer past its capacity, and Go panics -/
  | panic
  deriving DecidableEq, Repr

/-- `Codec.Encode(text, code)` into a buffer of capacity `capacity`. Every nested value of the
code ends with a reslice of the buffer, the last one at the code's length less the final
`Terminator`, so the code fits exactly when it is at most one byte longer than the buffer. -/
def encode (codec : Codec) (capacity : Nat) (text : Bytes) : Except EncodeError Bytes :=
  if capacity < 3 * text.length ∨ capacity < minBufferSize then .error .outputLen
  else if text = [] then .ok []
  else
    match jsonUnmarshal text with
    | none => .error .unmarshal
    | some v =>
      let code := json2code codec v
      if capacity + 1 < code.length then .error .panic else .ok code

/-- Past the capacity check, `Encode` of a text that parses is its value's code unless that
outgrows the buffer. -/
theorem encode_of_unmarshal {codec : Codec} {capacity : Nat} {text : Bytes} {v : Json}
    (hcap : 3 * text.length ≤ capacity) (hmin : minBufferSize ≤ capacity) (hne : text ≠ [])
    (hv : jsonUnmarshal text = some v) :
    encode codec capacity text =
      if capacity + 1 < (json2code codec v).length then .error .panic else .ok (json2code codec v) := by
  rw [encode, if_neg (by omega), if_neg hne, hv]

/-! ## The text `[1,1,…,1]` -/

theorem parseFloat_one : parseFloat [49] = some oneFloat := by decide +kernel

/-- A `1` before a `,` or a `]` is the number `1.0`. -/
theorem parseValue_one (fuel depth : Nat) {d : UInt8} (hd : d = 44 ∨ d = 93) (r : Bytes) :
    parseValue (fuel + 1) depth (49 :: d :: r) = some (.number oneFloat, d :: r) := by
  have hnum : scanNumber (49 :: d :: r) = some ([49], d :: r) := by
    rcases hd with rfl | rfl <;> simp [scanNumber, scanExponent, isDigit]
  simp [parseValue, skipSpace, isSpace, hnum, parseFloat_one]

/-- The elements `1,1,…,1]`, one round of the loop and one value for each. -/
theorem parseElements_ones (depth : Nat) (r : Bytes) : ∀ k fuel : Nat, k + 2 ≤ fuel →
    parseElements fuel depth (49 :: ((List.replicate k [44, 49]).flatten ++ 93 :: r)) =
      some (List.replicate (k + 1) (.number oneFloat), r)
  | 0, fuel, hk => by
    obtain ⟨f, rfl⟩ : ∃ f, fuel = f + 2 := ⟨fuel - 2, by omega⟩
    simp [parseElements, parseValue_one f depth (.inr rfl), skipSpace, isSpace]
  | k + 1, fuel, hk => by
    obtain ⟨f, rfl⟩ : ∃ f, fuel = f + 2 := ⟨fuel - 2, by omega⟩
    have ih := parseElements_ones depth r k (f + 1) (by omega)
    have hsplit : 49 :: ((List.replicate (k + 1) [44, 49]).flatten ++ 93 :: r) =
        49 :: 44 :: (49 :: ((List.replicate k [44, 49]).flatten ++ 93 :: r)) := by
      simp [List.replicate_succ]
    rw [hsplit, parseElements, parseValue_one f depth (.inl rfl)]
    simp [skipSpace, isSpace, ih, List.replicate_succ]

theorem jsonUnmarshal_onesText (k : Nat) :
    jsonUnmarshal (onesText k) = some (.array (List.replicate (k + 1) (.number oneFloat))) := by
  have helems := parseElements_ones 1 [] k (2 * k + 3) (by omega)
  -- the `[` opens the one array, and its elements end the text
  rw [jsonUnmarshal, length_onesText]
  simp [onesText, parseValue, skipSpace, isSpace, maxNestingDepth, helems]

end Collatejson
