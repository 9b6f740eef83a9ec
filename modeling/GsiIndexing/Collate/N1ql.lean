import GsiIndexing.Collate.Json

/-!
# N1QL values and `n1ql2code`

`EncodeN1QLValue` encodes a value of the query engine's value package with `n1ql2code`,
which follows `json2code` with three differences: a MISSING value has a code of its own, a
string is always a string (there is no `MissingLiteral` test), and a NUMBER is what
`ActualForIndex` returns, an `int64` or a `float64`. A `float64` goes through
`normalizeFloat`; an `int64` is printed by `Integer.ConvertToScientificNotation` and the
text goes to `EncodeFloat`.

The value package is modelled as the plain value type `N1qlValue`, whose objects list their
entries; `n1ql.NewValue` of an element or of a key is that element or the string key.
Recovering from a panic only matters for a too short buffer, which the model does not have.
-/

namespace Collatejson

open Go

/-- `strings.TrimRight(s, "0")`. -/
def trimRightZeros (s : Bytes) : Bytes := (s.reverse.dropWhile (· = 48)).reverse

/-- `Integer.ConvertToScientificNotation`: strictly between `±(2^53 - 1)` the `%e` text of
`float64(val)`; otherwise the decimal digits of `val` written as `d.ddd` without trailing
zeros, then `e+` and the number of digits after the first. -/
def convertToScientificNotation (val : Int64) : Bytes :=
  if val.toInt < 9007199254740991 ∧ val.toInt > -9007199254740991 then
    formatFloatE (Float64.ofInt64 val)
  else
    let intStr := itoa val.toInt
    -- the closure `format` of the source
    let format (str : Bytes) : Bytes :=
      let first := str.take 1
      let rem := str.drop 1
      if rem = [] then first ++ [46, 101, 43, 48, 48]
      else first ++ 46 :: trimRightZeros rem ++ 101 :: 43 :: itoa rem.length
    if intStr = [] then []
    else if intStr.take 1 = [45] ∨ intStr.take 1 = [43] then intStr.take 1 ++ format (intStr.drop 1)
    else format intStr

/-- A N1QL number as `ActualForIndex` returns it. -/
inductive N1qlNumber where
  | int64 (i : Int64)
  | float64 (f : Float64)

/-- The exact value of a N1QL number. -/
def N1qlNumber.value : N1qlNumber → ℚ
  | .int64 i => i.toInt
  | .float64 f => f.value

/-- What the NUMBER case of `n1ql2code` writes between `TypeNumber` and the `Terminator`. -/
def numberCode (codec : Codec) : N1qlNumber → Bytes
  | .float64 f => normalizeFloat codec f
  | .int64 i => encodeFloat (convertToScientificNotation i)

/-- The values `n1ql2code` encodes, by their `Type()` and `ActualForIndex()`. -/
inductive N1qlValue where
  | missing
  | null
  | bool (b : Bool)
  | number (n : N1qlNumber)
  | string (s : Bytes)
  | array (xs : List N1qlValue)
  | object (kvs : List (Bytes × N1qlValue))

/-- The STRING case of `n1ql2code`, also used for property names. -/
def n1qlStringCode (s : Bytes) : Bytes := typeString :: (suffixEncodeString s ++ [terminator])

mutual

/-- `n1ql2code`. -/
def n1ql2code (codec : Codec) : N1qlValue → Bytes
  | .null => [typeNull, terminator]
  | .bool b => if b then [typeTrue, terminator] else [typeFalse, terminator]
  | .number n => typeNumber :: (numberCode codec n ++ [terminator])
  | .string s => n1qlStringCode s
  | .missing => [typeMissing, terminator]
  | .array xs =>
    typeArray :: ((if codec.arrayLenPrefix then lengthCode xs.length else []) ++
      n1ql2codeList codec xs ++ [terminator])
  | .object kvs =>
    typeObj :: ((if codec.propertyLenPrefix then lengthCode kvs.length else []) ++
      (sortProps (n1ql2codeProps codec kvs)).flatMap (fun p => n1qlStringCode p.1 ++ p.2) ++
      [terminator])

def n1ql2codeList (codec : Codec) : List N1qlValue → Bytes
  | [] => []
  | x :: xs => n1ql2code codec x ++ n1ql2codeList codec xs

def n1ql2codeProps (codec : Codec) : List (Bytes × N1qlValue) → List (Bytes × Bytes)
  | [] => []
  | (k, v) :: kvs => (k, n1ql2code codec v) :: n1ql2codeProps codec kvs

end

/-- `EncodeN1QLValue`. -/
def encodeN1QLValue (codec : Codec) (val : N1qlValue) : Bytes := n1ql2code codec val

/-! ## Induction over values -/

section MemRec

variable {motive : N1qlValue → Prop} (missing : motive .missing) (null : motive .null)
  (bool : ∀ b, motive (.bool b)) (number : ∀ n, motive (.number n)) (string : ∀ s, motive (.string s))
  (array : ∀ xs, (∀ x ∈ xs, motive x) → motive (.array xs))
  (object : ∀ kvs, (∀ p ∈ kvs, motive p.2) → motive (.object kvs))

include missing null bool number string array object

-- the list cases only pass the premises on to `N1qlValue.memRec`
set_option linter.unusedSectionVars false in
mutual

/-- Induction over values with the hypothesis for the members of arrays and objects. -/
theorem N1qlValue.memRec : ∀ x, motive x
  | .missing => missing
  | .null => null
  | .bool b => bool b
  | .number n => number n
  | .string s => string s
  | .array xs => array xs (N1qlValue.memRecList xs)
  | .object kvs => object kvs (N1qlValue.memRecProps kvs)

theorem N1qlValue.memRecList : ∀ xs : List N1qlValue, ∀ x ∈ xs, motive x
  | [], _, h => absurd h List.not_mem_nil
  | x :: xs, y, h =>
    (List.mem_cons.mp h).elim (fun e => e ▸ N1qlValue.memRec x) (N1qlValue.memRecList xs y)

theorem N1qlValue.memRecProps : ∀ kvs : List (Bytes × N1qlValue), ∀ p ∈ kvs, motive p.2
  | [], _, h => absurd h List.not_mem_nil
  | (_, v) :: kvs, p, h =>
    (List.mem_cons.mp h).elim (fun e => e ▸ N1qlValue.memRec v) (N1qlValue.memRecProps kvs p)

end

end MemRec

theorem n1ql2codeList_eq (codec : Codec) (xs : List N1qlValue) :
    n1ql2codeList codec xs = xs.flatMap (n1ql2code codec) := by
  induction xs with
  | nil => rfl
  | cons x xs ih => rw [n1ql2codeList, ih, List.flatMap_cons]

theorem n1ql2codeProps_eq (codec : Codec) (kvs : List (Bytes × N1qlValue)) :
    n1ql2codeProps codec kvs = kvs.map (fun p => (p.1, n1ql2code codec p.2)) := by
  induction kvs with
  | nil => rfl
  | cons p kvs ih => rw [n1ql2codeProps, ih, List.map_cons]

-- `9.007199254740991e+15`
example : convertToScientificNotation 9007199254740991 =
    [57, 46, 48, 48, 55, 49, 57, 57, 50, 53, 52, 55, 52, 48, 57, 57, 49, 101, 43, 49, 53] := by
  decide

-- `-1.2e+18`
example : convertToScientificNotation (-1200000000000000000) = [45, 49, 46, 50, 101, 43, 49, 56] := by
  decide

end Collatejson
