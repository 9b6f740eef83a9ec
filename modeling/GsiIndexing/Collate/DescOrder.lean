import GsiIndexing.Collate.DescFields

/-!
# Descending keys sort field by field

An index key is the code of an array of N1QL values, and `ReverseCollate` flips the fields of
its `desc` positions. Byte order of the keys then compares the fields one after another, each
by the collatejson order of its values (the order of their codes), reversed on a `desc` field.

* **`Datum.eq_of_prefix`** — datums are prefix-free: `extractEncodedField` reads a datum to
  its end whatever follows, so a datum followed by more bytes is no other datum.
* **`lexAgree_orient`** — a field's code, flipped or not, decides the comparison before its
  end, in the collatejson order or its reverse.
* **`compare_reverseCollate`** — the comparison of two keys after `ReverseCollate` is
  `descCompare`, the field-by-field comparison.
-/

namespace Collatejson

open Go LexCode

/-- The collatejson order of N1QL values: the order of their codes. -/
def n1qlCollate (codec : Codec) (x y : N1qlValue) : Ordering :=
  compare (n1ql2code codec x) (n1ql2code codec y)

/-- A field's order, reversed on a `desc` field. -/
def descOrder (d : Bool) (o : Ordering) : Ordering := if d then o.swap else o

/-- Keys of equal length, field by field: the first field that differs decides, by the
collatejson order, reversed on a `desc` field. -/
def descCompare (codec : Codec) : List Bool → List N1qlValue → List N1qlValue → Ordering
  | d :: desc, x :: xs, y :: ys => (descOrder d (n1qlCollate codec x y)).then (descCompare codec desc xs ys)
  | _, _, _ => .eq

/-- Complemented bytes compare the other way round. -/
theorem compare_complement (a b : UInt8) : compare (~~~a) (~~~b) = compare b a := by
  have ha := a.toNat_lt
  have hb := b.toNat_lt
  rw [compare_byte, compare_byte, UInt8.toNat_not, UInt8.toNat_not]
  simp only [UInt8.size] at ha hb ⊢
  rcases Nat.lt_trichotomy a.toNat b.toNat with h | h | h
  · rw [Nat.compare_eq_gt.mpr (by omega), Nat.compare_eq_gt.mpr h]
  · rw [h, Nat.compare_eq_eq.mpr rfl, Nat.compare_eq_eq.mpr rfl]
  · rw [Nat.compare_eq_lt.mpr (by omega), Nat.compare_eq_lt.mpr h]

section Order

variable {codec : Codec} (ha : codec.arrayLenPrefix = false)
include ha

/-- **Datums are prefix-free.** A datum that another datum starts with is that datum: the
call reads the longer bytes to the end of each. -/
theorem Datum.eq_of_prefix {c d : Bytes} (hc : Datum codec c) (hd : Datum codec d) (hcd : c <+: d)
    (hlen : d.length < 2 ^ 63) : c = d := by
  obtain ⟨r, rfl⟩ := hcd
  have hle : c.length ≤ (c ++ r).length := by simp
  have h1 := extract_datum ha hc false (c ++ r).length hle (by omega) r
  have h2 := extract_datum ha hd false (c ++ r).length le_rfl hlen []
  simp only [orient_false, List.append_nil] at h1 h2
  rw [h1] at h2
  have hl := congrArg Extracted.len (Except.ok.inj h2)
  simp only [List.length_append] at hl
  rw [List.length_eq_zero_iff.mp (by omega : r.length = 0), List.append_nil]

/-- The code of a value whose code is a datum agrees with the collatejson order. -/
theorem lexAgree_n1ql2code {x y : N1qlValue} (hx : (n1ql2code codec x).length < 2 ^ 63)
    (hy : (n1ql2code codec y).length < 2 ^ 63) : LexAgree (n1qlCollate codec) (n1ql2code codec) x y := by
  refine lexAgree_of_eq_or_incomparable ?_
  by_cases he : n1ql2code codec x = n1ql2code codec y
  · exact .inl ⟨by rw [n1qlCollate, he, Std.ReflOrd.compare_self], he⟩
  · -- distinct datums: neither starts the other
    refine .inr ⟨fun h => he ?_, fun h => he ?_, rfl⟩
    · exact Datum.eq_of_prefix ha (datum_n1ql2code codec x) (datum_n1ql2code codec y) h hy
    · exact (Datum.eq_of_prefix ha (datum_n1ql2code codec y) (datum_n1ql2code codec x) h hx).symm

/-- **A field, flipped or not, decides the comparison first**, by the collatejson order or
its reverse. -/
theorem lexAgree_orient (d : Bool) {x y : N1qlValue} (hx : (n1ql2code codec x).length < 2 ^ 63)
    (hy : (n1ql2code codec y).length < 2 ^ 63) :
    LexAgree (fun u v => descOrder d (n1qlCollate codec u v)) (fun z => orient d (n1ql2code codec z)) x y := by
  have h := lexAgree_n1ql2code ha hx hy
  cases d
  · simpa [descOrder] using h
  · exact h.map_swap fun c _ c' _ => compare_complement c c'

/-- The members of two keys after their `desc` fields are flipped compare field by field,
whatever follows them. -/
theorem compare_flipFields (desc : List Bool) :
    ∀ (xs ys : List N1qlValue), desc.length = xs.length → desc.length = ys.length →
      (∀ x ∈ xs, (n1ql2code codec x).length < 2 ^ 63) → (∀ y ∈ ys, (n1ql2code codec y).length < 2 ^ 63) →
      ∀ s t : Bytes,
        compare (((flipFields desc (xs.map fun v => (false, n1ql2code codec v))).map fieldBytes).flatten ++ s)
            (((flipFields desc (ys.map fun v => (false, n1ql2code codec v))).map fieldBytes).flatten ++ t) =
          (descCompare codec desc xs ys).then (compare s t) := by
  induction desc with
  | nil =>
    intro xs ys hx hy _ _ s t
    rw [List.eq_nil_of_length_eq_zero hx.symm, List.eq_nil_of_length_eq_zero hy.symm]
    rfl
  | cons d desc ih =>
    intro xs ys hx hy hbx hby s t
    -- one value of each key under the first bit of the mask
    obtain ⟨x, xs, rfl⟩ := List.exists_cons_of_length_eq_add_one hx.symm
    obtain ⟨y, ys, rfl⟩ := List.exists_cons_of_length_eq_add_one hy.symm
    have hfield := lexAgree_orient ha d (hbx x List.mem_cons_self) (hby y List.mem_cons_self)
    simp only [List.map_cons, flipFields, Bool.false_xor, List.flatten_cons, fieldBytes, List.append_assoc]
    rw [hfield, ih xs ys (by simpa using hx) (by simpa using hy)
      (fun z hz => hbx z (List.mem_cons_of_mem x hz)) (fun z hz => hby z (List.mem_cons_of_mem y hz)),
      descCompare, Ordering.then_assoc]

/-- **Descending collation.** For two arrays of as many values as the mask has bits, the byte
comparison of their codes after `ReverseCollate` is the field-by-field comparison, each field
in the collatejson order, reversed where `desc` is set. -/
theorem compare_reverseCollate {a b : List N1qlValue} {desc : List Bool} (hda : desc.length = a.length)
    (hdb : desc.length = b.length) (hla : (n1ql2code codec (.array a)).length < 2 ^ 63)
    (hlb : (n1ql2code codec (.array b)).length < 2 ^ 63) :
    (do
      let ka ← reverseCollate codec (n1ql2code codec (.array a)) desc
      let kb ← reverseCollate codec (n1ql2code codec (.array b)) desc
      pure (compare ka kb)) = .ok (descCompare codec desc a b) := by
  have hdatum : ∀ vs : List N1qlValue, ∀ g ∈ vs.map (fun v => (false, n1ql2code codec v)), Datum codec g.2 :=
    fun vs g hg => by
      obtain ⟨v, -, rfl⟩ := List.mem_map.mp hg
      exact datum_n1ql2code codec v
  simp only [n1ql2code_array_fieldsCode ha] at hla hlb ⊢
  -- every value's code is shorter than its key
  have hmember : ∀ vs : List N1qlValue,
      (fieldsCode (vs.map fun v => (false, n1ql2code codec v))).length < 2 ^ 63 →
      ∀ x ∈ vs, (n1ql2code codec x).length < 2 ^ 63 := fun vs hl x hx =>
    lt_trans (length_lt_length_fieldsCode (List.mem_map_of_mem (f := fun v => (false, n1ql2code codec v)) hx)) hl
  rw [reverseCollate_fields ha (hdatum a) hla (by simp [hda]),
    reverseCollate_fields ha (hdatum b) hlb (by simp [hdb])]
  simp only [bind, Except.bind, pure, Except.pure]
  rw [fieldsCode, fieldsCode, List.compare_cons_cons, Std.ReflOrd.compare_self, Ordering.eq_then,
    compare_flipFields ha desc a b hda hdb (hmember a hla) (hmember b hlb), Std.ReflOrd.compare_self,
    Ordering.then_eq]

end Order

/-- The keys `[null, true]` and `[null, false]` under the mask `[false, true]`: the first
fields tie and the second decides, reversed, so the key of `true` sorts first. -/
theorem compare_reverseCollate_null_bool :
    (newCodec.arrayLenPrefix = false ∧ [false, true].length = [N1qlValue.null, .bool true].length ∧
      [false, true].length = [N1qlValue.null, .bool false].length ∧
      (n1ql2code newCodec (.array [.null, .bool true])).length < 2 ^ 63 ∧
      (n1ql2code newCodec (.array [.null, .bool false])).length < 2 ^ 63) ∧
    (do
      let ka ← reverseCollate newCodec (n1ql2code newCodec (.array [.null, .bool true])) [false, true]
      let kb ← reverseCollate newCodec (n1ql2code newCodec (.array [.null, .bool false])) [false, true]
      pure (compare ka kb)) = .ok (descCompare newCodec [false, true] [.null, .bool true] [.null, .bool false]) :=
  ⟨⟨rfl, rfl, rfl, by decide, by decide⟩, compare_reverseCollate rfl rfl rfl (by decide) (by decide)⟩

example : descCompare newCodec [false, true] [.null, .bool true] [.null, .bool false] = .lt := by decide

end Collatejson
