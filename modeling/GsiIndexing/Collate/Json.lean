import Mathlib.Data.List.Sort
import GsiIndexing.Collate.FloatCode

/-!
# JSON values and `json2code`

`Codec.Encode` parses its text with `json.Unmarshal` into an `interface{}` and hands the
result to `json2code`, which writes, for every value, one type byte, the datum's code and
a `Terminator`, recursively for the elements of arrays and the entries of objects. This
module models the values `json.Unmarshal` produces, the settings of a `Codec`, and
`json2code` over them.

The Go code appends into one shared buffer and passes every recursive call the empty
slice after what is written so far; the model returns the bytes of each call and
concatenates them, which is the same byte string. A map is modelled by the list of its
entries. Go's iteration yields each key once, and `sortProps` puts the entries in key
order, as Go sorts the keys before it looks up their values.
-/

namespace Collatejson

open Go

/-- The values `json.Unmarshal` stores in an `interface{}`: `nil`, `bool`, `float64`,
`string`, `[]interface{}` and `map[string]interface{}` (by its entries). -/
inductive Json where
  | null
  | bool (b : Bool)
  | number (f : Float64)
  | string (s : Bytes)
  | array (xs : List Json)
  | object (kvs : List (Bytes × Json))

/-- The Go value `numberType` holds: `float64(0.0)`, `int64(0)`, or the string `"0"` that
`NumberType("decimal")` stores. -/
inductive NumberType where
  | float64
  | int64
  | decimal
  deriving DecidableEq, Repr

/-- `Codec`: the four settings `json2code` reads. -/
structure Codec where
  arrayLenPrefix : Bool
  propertyLenPrefix : Bool
  doMissing : Bool
  numberType : NumberType

/-- `NewCodec`; its `propSize` argument is not used. -/
def newCodec : Codec where
  arrayLenPrefix := false
  propertyLenPrefix := true
  doMissing := true
  numberType := .float64

/-- `MissingLiteral`, the text `~[]{}falsenilNA~`. -/
def missingLiteral : Bytes :=
  [126, 91, 93, 123, 125, 102, 97, 108, 115, 101, 110, 105, 108, 78, 65, 126]

/-- `Missing.Equal`: the length and the bytes `~[` are checked before the whole text. -/
def missingEqual (n : Bytes) : Bool :=
  if n.length = missingLiteral.length ∧ n[0]? = some 126 ∧ n[1]? = some 91 then
    n == missingLiteral
  else false

theorem missingEqual_iff (n : Bytes) : missingEqual n = true ↔ n = missingLiteral := by
  unfold missingEqual
  constructor
  · intro h
    split at h
    · exact beq_iff_eq.mp h
    · exact absurd h Bool.false_ne_true
  · rintro rfl
    rw [if_pos (by decide)]
    exact beq_self_eq_true _

/-- `normalizeFloat`: the `%e` text under `EncodeFloat` for `float64` and `decimal`, the
integer code of `int(value)` for `int64`. Go's `ErrorNumberType` for any other
`numberType` cannot arise, as `NumberType` stores only these three. -/
def normalizeFloat (codec : Codec) (value : Float64) : Bytes :=
  match codec.numberType with
  | .float64 => encodeFloat (formatFloatE value)
  | .int64 => encodeInt (itoa value.toInt)
  | .decimal => encodeFloat (formatFloatE value)

/-- `json2code` of a `Length`. -/
def lengthCode (n : Nat) : Bytes := typeLength :: (encodeInt (itoa n) ++ [terminator])

/-- `json2code` of a `string`, also used for property names. -/
def stringCode (codec : Codec) (s : Bytes) : Bytes :=
  if codec.doMissing && missingEqual s then [typeMissing, terminator]
  else typeString :: (suffixEncodeString s ++ [terminator])

/-- `sortProps`: the entries in the byte order of their keys (`sort.StringSlice`). -/
def sortProps {α : Type} (props : List (Bytes × α)) : List (Bytes × α) :=
  props.insertionSort (fun p q => compare p.1 q.1 ≠ .gt)

mutual

/-- `json2code`: the type byte, the datum's code and a `Terminator`; arrays and objects
carry their length first when the codec asks for it. -/
def json2code (codec : Codec) : Json → Bytes
  | .null => [typeNull, terminator]
  | .bool b => if b then [typeTrue, terminator] else [typeFalse, terminator]
  | .number f => typeNumber :: (normalizeFloat codec f ++ [terminator])
  | .string s => stringCode codec s
  | .array xs =>
    typeArray :: ((if codec.arrayLenPrefix then lengthCode xs.length else []) ++
      json2codeList codec xs ++ [terminator])
  | .object kvs =>
    -- each key is encoded by `json2code` as a string, then its value
    typeObj :: ((if codec.propertyLenPrefix then lengthCode kvs.length else []) ++
      (sortProps (json2codeProps codec kvs)).flatMap (fun p => stringCode codec p.1 ++ p.2) ++
      [terminator])

/-- The codes of the elements of an array, in order. -/
def json2codeList (codec : Codec) : List Json → Bytes
  | [] => []
  | x :: xs => json2code codec x ++ json2codeList codec xs

/-- The entries of an object with their values encoded. -/
def json2codeProps (codec : Codec) : List (Bytes × Json) → List (Bytes × Bytes)
  | [] => []
  | (k, v) :: kvs => (k, json2code codec v) :: json2codeProps codec kvs

end

example : json2code newCodec (.array [.null, .string [0, 255]]) =
    [8, 2, 0, 6, 0, 1, 255, 254, 0, 0, 0] := by decide

example : json2code ⟨false, false, true, .float64⟩ (.object [([98], .bool true), ([97], .null)]) =
    [9, 6, 97, 0, 0, 2, 0, 6, 98, 0, 0, 4, 0, 0] := by decide

/-! ## Induction over values

Proofs over `Json` go by structural recursion with a hypothesis for every element of an
array and every entry of an object. -/

section MemRec

variable {motive : Json → Prop} (null : motive .null) (bool : ∀ b, motive (.bool b))
  (number : ∀ f, motive (.number f)) (string : ∀ s, motive (.string s))
  (array : ∀ xs, (∀ x ∈ xs, motive x) → motive (.array xs))
  (object : ∀ kvs, (∀ p ∈ kvs, motive p.2) → motive (.object kvs))

include null bool number string array object

-- the list cases only pass the premises on to `Json.memRec`
set_option linter.unusedSectionVars false in
mutual

/-- Induction over values with the hypothesis for the members of arrays and objects. -/
theorem Json.memRec : ∀ x, motive x
  | .null => null
  | .bool b => bool b
  | .number f => number f
  | .string s => string s
  | .array xs => array xs (Json.memRecList xs)
  | .object kvs => object kvs (Json.memRecProps kvs)

theorem Json.memRecList : ∀ xs : List Json, ∀ x ∈ xs, motive x
  | [], _, h => absurd h List.not_mem_nil
  | x :: xs, y, h => (List.mem_cons.mp h).elim (fun e => e ▸ Json.memRec x) (Json.memRecList xs y)

theorem Json.memRecProps : ∀ kvs : List (Bytes × Json), ∀ p ∈ kvs, motive p.2
  | [], _, h => absurd h List.not_mem_nil
  | (_, v) :: kvs, p, h =>
    (List.mem_cons.mp h).elim (fun e => e ▸ Json.memRec v) (Json.memRecProps kvs p)

end

end MemRec

/-! ## The shape of the code -/

section Shape

variable (codec : Codec)

theorem json2codeList_eq (xs : List Json) : json2codeList codec xs = xs.flatMap (json2code codec) := by
  induction xs with
  | nil => rfl
  | cons x xs ih => rw [json2codeList, ih, List.flatMap_cons]

theorem json2codeProps_eq (kvs : List (Bytes × Json)) :
    json2codeProps codec kvs = kvs.map (fun p => (p.1, json2code codec p.2)) := by
  induction kvs with
  | nil => rfl
  | cons p kvs ih => rw [json2codeProps, ih, List.map_cons]

theorem mem_sortProps {α : Type} {props : List (Bytes × α)} {p : Bytes × α} :
    p ∈ sortProps props ↔ p ∈ props :=
  List.mem_insertionSort _

theorem length_sortProps {α : Type} (props : List (Bytes × α)) :
    (sortProps props).length = props.length :=
  List.length_insertionSort _ _

/-- Sorting by key commutes with a map on the values. -/
theorem sortProps_map_snd {α β : Type} (f : α → β) (props : List (Bytes × α)) :
    sortProps (props.map (fun p => (p.1, f p.2))) = (sortProps props).map (fun p => (p.1, f p.2)) :=
  (List.map_insertionSort (fun p q : Bytes × α => compare p.1 q.1 ≠ .gt)
    (fun p q : Bytes × β => compare p.1 q.1 ≠ .gt) (fun p => (p.1, f p.2)) props
    (fun _ _ _ _ => Iff.rfl)).symm

/-- The entries of an object in the code: the sorted entries, each a key code and a value
code. -/
theorem flatMap_sortProps_json2codeProps (kvs : List (Bytes × Json)) :
    (sortProps (json2codeProps codec kvs)).flatMap (fun p => stringCode codec p.1 ++ p.2) =
      (sortProps kvs).flatMap (fun p => stringCode codec p.1 ++ json2code codec p.2) := by
  rw [json2codeProps_eq, sortProps_map_snd, List.flatMap_map]

theorem stringCode_of_ne {s : Bytes} (hs : s ≠ missingLiteral) :
    stringCode codec s = typeString :: (suffixEncodeString s ++ [terminator]) := by
  have hm : missingEqual s = false := by
    cases h : missingEqual s
    · rfl
    · exact absurd ((missingEqual_iff s).mp h) hs
  simp [stringCode, hm]

end Shape

/-! ## Values without `MissingLiteral`

Only `MissingLiteral` breaks the shape of the code: with `doMissing` it is written as
`TypeMissing`, below every other type byte. -/

mutual

/-- No string and no property name in the value is `MissingLiteral`. -/
def noMissing : Json → Bool
  | .string s => s != missingLiteral
  | .array xs => noMissingList xs
  | .object kvs => noMissingProps kvs
  | _ => true

def noMissingList : List Json → Bool
  | [] => true
  | x :: xs => noMissing x && noMissingList xs

def noMissingProps : List (Bytes × Json) → Bool
  | [] => true
  | (k, v) :: kvs => k != missingLiteral && noMissing v && noMissingProps kvs

end

theorem noMissingList_iff (xs : List Json) : noMissingList xs = true ↔ ∀ x ∈ xs, noMissing x = true := by
  induction xs with
  | nil => simp [noMissingList]
  | cons x xs ih => simp [noMissingList, ih]

theorem noMissingProps_iff (kvs : List (Bytes × Json)) :
    noMissingProps kvs = true ↔ ∀ p ∈ kvs, p.1 ≠ missingLiteral ∧ noMissing p.2 = true := by
  induction kvs with
  | nil => simp [noMissingProps]
  | cons p kvs ih =>
    obtain ⟨k, v⟩ := p
    simp [noMissingProps, ih, and_assoc]

/-- The type byte `json2code` writes first. -/
def typeByte : Json → UInt8
  | .null => typeNull
  | .bool b => if b then typeTrue else typeFalse
  | .number _ => typeNumber
  | .string _ => typeString
  | .array _ => typeArray
  | .object _ => typeObj

theorem json2code_eq_cons (codec : Codec) {x : Json} (hx : noMissing x = true) :
    ∃ r, json2code codec x = typeByte x :: r := by
  cases x with
  | bool b => cases b <;> exact ⟨_, rfl⟩
  | string s =>
    have hs : s ≠ missingLiteral := by simpa [noMissing] using hx
    exact ⟨_, stringCode_of_ne codec hs⟩
  | null | number | array | object => exact ⟨_, rfl⟩

/-- Every type byte sorts above the `Terminator` that closes a sequence of codes. -/
theorem compare_terminator_typeByte (x : Json) : compare terminator (typeByte x) = .lt := by
  cases x with
  | bool b => cases b <;> rfl
  | _ => rfl


/-! ## The capacity `Encode` asks for

`Codec.Encode` refuses a buffer of capacity below `3 * len(text)` or `MinBufferSize`, and
otherwise lets `json2code` write in place: every element goes to `code[l:]`, and the array
takes it back with `code[:l+len(cs)]`, which panics once the code passes the capacity.
Three times the text is not always enough: an array of ones spends two bytes of text on each
element and seven bytes of code. -/

/-- `MinBufferSize`. -/
def minBufferSize : Nat := 16

/-- The double `1.0`. -/
def oneFloat : Float64 := ⟨false, 0x3FF0000000000000, by decide⟩

/-- The text `[1,1,…,1]` of `k + 1` ones. -/
def onesText (k : Nat) : Bytes := 91 :: 49 :: ((List.replicate k [44, 49]).flatten ++ [93])

theorem length_onesText (k : Nat) : (onesText k).length = 2 * k + 3 := by
  simp [onesText]
  omega

/-- `1.0` is coded in seven bytes, `>>11-` between its type byte and its `Terminator`. -/
theorem json2code_oneFloat {codec : Codec} (hc : codec.numberType ≠ .int64) :
    json2code codec (.number oneFloat) = [typeNumber, 62, 62, 49, 49, 45, terminator] := by
  have he : encodeFloat (formatFloatE oneFloat) = [62, 62, 49, 49, 45] := by decide +kernel
  cases h : codec.numberType with
  | int64 => exact absurd h hc
  | float64 | decimal => simp [json2code, normalizeFloat, h, he]

/-- Every element of an array of ones takes seven bytes. -/
theorem length_json2code_ones {codec : Codec} (ha : codec.arrayLenPrefix = false)
    (hc : codec.numberType ≠ .int64) (k : Nat) :
    (json2code codec (.array (List.replicate k (.number oneFloat)))).length = 7 * k + 2 := by
  rw [json2code, json2codeList_eq, List.flatMap_replicate, json2code_oneFloat hc]
  simp [ha]
  omega

/-- **Three times the text is too small** for every array of at least three ones. -/
theorem json2code_ones_exceeds_capacity (k : Nat) (hk : 2 ≤ k) :
    max (3 * (onesText k).length) minBufferSize <
      (json2code newCodec (.array (List.replicate (k + 1) (.number oneFloat)))).length := by
  rw [length_onesText, length_json2code_ones rfl (by decide)]
  simp only [minBufferSize]
  omega

/-- `[1,1,1]`: seven bytes of text, twenty-one of capacity, twenty-three of code. -/
theorem json2code_ones_exceeds_capacity_three :
    max (3 * (onesText 2).length) minBufferSize < (json2code newCodec (.array (List.replicate 3
      (.number oneFloat)))).length :=
  json2code_ones_exceeds_capacity 2 le_rfl

end Collatejson
