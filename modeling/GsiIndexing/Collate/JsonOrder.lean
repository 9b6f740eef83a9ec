import GsiIndexing.Collate.Json

/-!
# The collation order of JSON values, and `json2code` keeps it

The order the codec is built for compares two values by the rank of their kind first
(`null < false < true < number < string < array < object`), numbers by their value (so
`-0` and `0` tie), strings byte by byte, arrays element by element with a proper prefix
first, and objects by their number of entries and then entry by entry in key order, key
before value. `collate` states it over values whose objects already list their entries in
key order, and `jsonCollate` puts every object of a value in that order (`canon`) first.

`compare_json2code`: for the default codec, comparing the codes of two values byte by byte
gives `jsonCollate`, as long as no string and no key is `MissingLiteral`. The proof shows
the stronger `LexAgree` (the codes decide the comparison before their end, whatever
follows them) by induction over the value, one lemma per kind:

* two kinds of different rank differ in their type byte (`lexAgree_of_typeRank_ne`);
* numbers use the float code (`floatCode_lexAgree`), strings the escape code
  (`lexAgree_flatMap_end`), and the counts of objects the integer code
  (`intCode_lexAgree`);
* arrays and objects repeat agreeing codes under a `Terminator` that sorts below every
  type byte (`lexAgree_flatMap_terminated`).
-/

namespace Collatejson

open Go LexCode

/-! ## The order -/

/-- The rank of a value's kind. -/
def typeRank : Json → Nat
  | .null => 0
  | .bool b => if b then 2 else 1
  | .number _ => 3
  | .string _ => 4
  | .array _ => 5
  | .object _ => 6

mutual

/-- The collation order on values whose objects list their entries in key order. -/
def collate : Json → Json → Ordering
  | .number f, .number g => compare f.value g.value
  | .string s, .string t => compare s t
  | .array xs, .array ys => collateList xs ys
  | .object kvs, .object lvs => (compare kvs.length lvs.length).then (collateProps kvs lvs)
  | x, y => compare (typeRank x) (typeRank y)

def collateList : List Json → List Json → Ordering
  | [], [] => .eq
  | [], _ :: _ => .lt
  | _ :: _, [] => .gt
  | x :: xs, y :: ys => (collate x y).then (collateList xs ys)

def collateProps : List (Bytes × Json) → List (Bytes × Json) → Ordering
  | [], [] => .eq
  | [], _ :: _ => .lt
  | _ :: _, [] => .gt
  | (k, v) :: kvs, (l, w) :: lvs => ((compare k l).then (collate v w)).then (collateProps kvs lvs)

end

mutual

/-- The value with the entries of each of its objects in key order. -/
def canon : Json → Json
  | .array xs => .array (canonList xs)
  | .object kvs => .object (sortProps (canonProps kvs))
  | x => x

def canonList : List Json → List Json
  | [] => []
  | x :: xs => canon x :: canonList xs

def canonProps : List (Bytes × Json) → List (Bytes × Json)
  | [] => []
  | (k, v) :: kvs => (k, canon v) :: canonProps kvs

end

/-- The collation order of JSON values. -/
def jsonCollate (x y : Json) : Ordering := collate (canon x) (canon y)

example : jsonCollate (.object [([98], .null), ([97], .bool true)])
    (.object [([97], .bool true), ([98], .bool false)]) = .lt := by decide

theorem collateList_eq (xs ys : List Json) : collateList xs ys = List.compareLex collate xs ys := by
  induction xs generalizing ys with
  | nil => cases ys <;> rfl
  | cons x xs ih =>
    cases ys with
    | nil => rfl
    | cons y ys => rw [collateList, ih, List.compareLex_cons_cons]

theorem collateProps_eq (kvs lvs : List (Bytes × Json)) :
    collateProps kvs lvs =
      List.compareLex (fun p q => (compare p.1 q.1).then (collate p.2 q.2)) kvs lvs := by
  induction kvs generalizing lvs with
  | nil => cases lvs <;> rfl
  | cons p kvs ih =>
    cases lvs with
    | nil => rfl
    | cons q lvs => rw [collateProps, ih, List.compareLex_cons_cons]

theorem canonList_eq (xs : List Json) : canonList xs = xs.map canon := by
  induction xs with
  | nil => rfl
  | cons x xs ih => rw [canonList, ih, List.map_cons]

theorem canonProps_eq (kvs : List (Bytes × Json)) :
    canonProps kvs = kvs.map (fun p => (p.1, canon p.2)) := by
  induction kvs with
  | nil => rfl
  | cons p kvs ih => rw [canonProps, ih, List.map_cons]

theorem typeRank_canon (x : Json) : typeRank (canon x) = typeRank x := by
  cases x <;> rfl

/-- Values of different kinds compare by rank alone. -/
theorem collate_of_typeRank_ne {x y : Json} (h : typeRank x ≠ typeRank y) :
    collate x y = compare (typeRank x) (typeRank y) := by
  cases x <;> cases y <;> first | rfl | exact absurd rfl h

/-- Arrays compare element by element. -/
theorem jsonCollate_array (xs ys : List Json) :
    jsonCollate (.array xs) (.array ys) = List.compareLex jsonCollate xs ys := by
  rw [jsonCollate, canon, canon, collate, collateList_eq, canonList_eq, canonList_eq, compareLex_map]
  rfl

/-- Objects compare by their number of entries, then entry by entry in key order. -/
theorem jsonCollate_object (kvs lvs : List (Bytes × Json)) :
    jsonCollate (.object kvs) (.object lvs) =
      (compare kvs.length lvs.length).then (List.compareLex
        (fun p q => (compare p.1 q.1).then (jsonCollate p.2 q.2)) (sortProps kvs) (sortProps lvs)) := by
  rw [jsonCollate, canon, canon, collate, collateProps_eq, canonProps_eq, canonProps_eq,
    sortProps_map_snd, sortProps_map_snd, compareLex_map, List.length_map, List.length_map,
    length_sortProps, length_sortProps]
  rfl

/-! ## Type bytes -/

theorem compare_typeByte (x y : Json) :
    compare (typeByte x) (typeByte y) = compare (typeRank x) (typeRank y) := by
  rcases x with _ | ⟨_ | _⟩ | _ | _ | _ | _ <;> rcases y with _ | ⟨_ | _⟩ | _ | _ | _ | _ <;> rfl

/-- Every code starts with a byte above the `Terminator`. -/
theorem json2code_start (codec : Codec) {x : Json} (hx : noMissing x = true) :
    ∃ c w, json2code codec x = c :: w ∧ compare terminator c = .lt := by
  obtain ⟨r, hr⟩ := json2code_eq_cons codec hx
  exact ⟨typeByte x, r, hr, compare_terminator_typeByte x⟩

/-- Values of different kinds are told apart by their first byte. -/
theorem lexAgree_of_typeRank_ne {x y : Json} (hx : noMissing x = true) (hy : noMissing y = true)
    (h : typeRank x ≠ typeRank y) : LexAgree jsonCollate (json2code newCodec) x y := by
  obtain ⟨r, hr⟩ := json2code_eq_cons newCodec hx
  obtain ⟨r', hr'⟩ := json2code_eq_cons newCodec hy
  have hne : compare (typeRank x) (typeRank y) ≠ .eq := fun he => h (compare_eq_iff_eq.mp he)
  have hb : typeByte x ≠ typeByte y := by
    intro he
    apply hne
    rw [← compare_typeByte, he]
    exact Std.ReflOrd.compare_self
  have hc : collate (canon x) (canon y) = compare (typeRank x) (typeRank y) := by
    rw [collate_of_typeRank_ne (by rwa [typeRank_canon, typeRank_canon]), typeRank_canon,
      typeRank_canon]
  intro s t
  rw [hr, hr', List.cons_append, List.cons_append, compare_cons_cons_of_ne hb, compare_typeByte,
    jsonCollate, hc, then_of_ne_eq hne]

/-! ## Each kind -/

theorem lexAgree_bool (a b : Bool) : LexAgree jsonCollate (json2code newCodec) (.bool a) (.bool b) := by
  by_cases hab : a = b
  · subst hab
    exact lexAgree_refl (by cases a <;> rfl)
  · exact lexAgree_of_typeRank_ne rfl rfl (by cases a <;> cases b <;> simp_all [typeRank])

theorem lexAgree_number (f g : Float64) :
    LexAgree jsonCollate (json2code newCodec) (.number f) (.number g) :=
  (((floatCode_lexAgree f g).append_right [terminator]).cons typeNumber).transport rfl rfl rfl

theorem escapeByte_eq_cons (a : UInt8) : ∃ r, escapeByte a = a :: r := by
  unfold escapeByte
  split_ifs <;> exact ⟨_, rfl⟩

theorem compare_escapeByte_append {a b : UInt8} (h : a ≠ b) (s t : Bytes) :
    compare (escapeByte a ++ s) (escapeByte b ++ t) = compare a b := by
  obtain ⟨r, hr⟩ := escapeByte_eq_cons a
  obtain ⟨r', hr'⟩ := escapeByte_eq_cons b
  rw [hr, hr', List.cons_append, List.cons_append, compare_cons_cons_of_ne h]

/-- The end marker `0x00 0x00` sorts below the code of every byte, since a `0x00` of the
string is written as `0x00 0x01`. -/
theorem compare_end_escapeByte (a : UInt8) (s t : Bytes) :
    compare ([terminator, terminator] ++ s) (escapeByte a ++ t) = .lt := by
  by_cases ha : a = terminator
  · subst ha
    rw [escapeByte, if_pos rfl, List.cons_append, List.cons_append, List.cons_append,
      List.cons_append, List.compare_cons_cons, List.compare_cons_cons]
    rfl
  · obtain ⟨r, hr⟩ := escapeByte_eq_cons a
    have hpos : terminator.toNat < a.toNat := by
      have : a.toNat ≠ 0 := fun h0 => ha (UInt8.toNat_inj.mp h0)
      exact Nat.pos_of_ne_zero this
    simp only [hr, List.cons_append, List.nil_append]
    rw [compare_cons_cons_of_ne (Ne.symm ha), compare_byte]
    exact Nat.compare_eq_lt.mpr hpos

theorem stringCode_lexAgree {s t : Bytes} (hs : s ≠ missingLiteral) (ht : t ≠ missingLiteral) :
    LexAgree compare (stringCode newCodec) s t := by
  have h := (lexAgree_flatMap_end (fun _ _ hab => compare_escapeByte_append hab)
    compare_end_escapeByte s t).cons typeString
  have hcode : ∀ w, w ≠ missingLiteral →
      stringCode newCodec w = typeString :: (w.flatMap escapeByte ++ [terminator, terminator]) := by
    intro w hw
    rw [stringCode_of_ne _ hw, suffixEncodeString, List.append_assoc]
    rfl
  exact h.transport (hcode s hs) (hcode t ht) rfl

theorem lexAgree_string {s t : Bytes} (hs : s ≠ missingLiteral) (ht : t ≠ missingLiteral) :
    LexAgree jsonCollate (json2code newCodec) (.string s) (.string t) :=
  (stringCode_lexAgree hs ht).transport rfl rfl rfl

theorem compare_natCast_int (n m : Nat) : compare (n : Int) (m : Int) = compare n m := by
  rcases lt_trichotomy n m with h | rfl | h
  · rw [compare_lt_iff_lt.mpr h, compare_lt_iff_lt.mpr (by exact_mod_cast h)]
  · rw [compare_eq_iff_eq.mpr rfl, compare_eq_iff_eq.mpr rfl]
  · rw [compare_gt_iff_gt.mpr h, compare_gt_iff_gt.mpr (by exact_mod_cast h)]

theorem lengthCode_lexAgree (n m : Nat) : LexAgree compare lengthCode n m :=
  (((intCode_lexAgree n m).append_right [terminator]).cons typeLength).transport rfl rfl
    (compare_natCast_int n m).symm

theorem lexAgree_array {xs ys : List Json} (hxs : ∀ x ∈ xs, noMissing x = true)
    (hys : ∀ y ∈ ys, noMissing y = true)
    (ih : ∀ x ∈ xs, ∀ y ∈ ys, LexAgree jsonCollate (json2code newCodec) x y) :
    LexAgree jsonCollate (json2code newCodec) (.array xs) (.array ys) := by
  have h := (lexAgree_flatMap_terminated ih (fun x hx => json2code_start newCodec (hxs x hx))
    (fun y hy => json2code_start newCodec (hys y hy))).cons typeArray
  have hcode : ∀ zs, json2code newCodec (.array zs) =
      typeArray :: (zs.flatMap (json2code newCodec) ++ [terminator]) := by
    intro zs
    rw [json2code, json2codeList_eq]
    rfl
  exact h.transport (hcode xs) (hcode ys) (jsonCollate_array xs ys)

/-- The code of an object entry: the key as a string, then the value. -/
theorem entry_lexAgree {p q : Bytes × Json} (hp : p.1 ≠ missingLiteral) (hq : q.1 ≠ missingLiteral)
    (h : LexAgree jsonCollate (json2code newCodec) p.2 q.2) :
    LexAgree (fun p q : Bytes × Json => (compare p.1 q.1).then (jsonCollate p.2 q.2))
      (fun p => stringCode newCodec p.1 ++ json2code newCodec p.2) p q :=
  (stringCode_lexAgree hp hq).seq h

theorem entry_start {p : Bytes × Json} (hp : p.1 ≠ missingLiteral) :
    ∃ c w, stringCode newCodec p.1 ++ json2code newCodec p.2 = c :: w ∧ compare terminator c = .lt :=
  ⟨typeString, _, by rw [stringCode_of_ne _ hp, List.cons_append], rfl⟩

theorem lexAgree_object {kvs lvs : List (Bytes × Json)}
    (hkvs : ∀ p ∈ kvs, p.1 ≠ missingLiteral ∧ noMissing p.2 = true)
    (hlvs : ∀ q ∈ lvs, q.1 ≠ missingLiteral ∧ noMissing q.2 = true)
    (ih : ∀ p ∈ kvs, ∀ q ∈ lvs, LexAgree jsonCollate (json2code newCodec) p.2 q.2) :
    LexAgree jsonCollate (json2code newCodec) (.object kvs) (.object lvs) := by
  -- the entries are written in key order
  have hentries := lexAgree_flatMap_terminated (z := terminator)
    (fun p hp q hq => entry_lexAgree (hkvs p (mem_sortProps.mp hp)).1 (hlvs q (mem_sortProps.mp hq)).1
      (ih p (mem_sortProps.mp hp) q (mem_sortProps.mp hq)))
    (fun p hp => entry_start (hkvs p (mem_sortProps.mp hp)).1)
    (fun q hq => entry_start (hlvs q (mem_sortProps.mp hq)).1)
  -- after the count of entries
  have h := ((lengthCode_lexAgree kvs.length lvs.length).seq hentries).cons typeObj
  have hcode : ∀ zs : List (Bytes × Json), json2code newCodec (.object zs) =
      typeObj :: (lengthCode zs.length ++ ((sortProps zs).flatMap
        (fun p => stringCode newCodec p.1 ++ json2code newCodec p.2) ++ [terminator])) := by
    intro zs
    rw [json2code, flatMap_sortProps_json2codeProps, ← List.append_assoc]
    rfl
  exact h.transport (hcode kvs) (hcode lvs) (jsonCollate_object kvs lvs)

/-! ## The codec keeps the order -/

/-- Over values without `MissingLiteral`, the default codec's codes agree with the
collation order under every continuation. -/
theorem json2code_lexAgree (x : Json) :
    ∀ y, noMissing x = true → noMissing y = true → LexAgree jsonCollate (json2code newCodec) x y := by
  induction x using Json.memRec with
  | null =>
    intro y hx hy
    cases y
    case null => exact lexAgree_refl rfl
    all_goals exact lexAgree_of_typeRank_ne hx hy (by simp [typeRank, eq_ite_iff])
  | bool a =>
    intro y hx hy
    cases y
    case bool b => exact lexAgree_bool a b
    all_goals exact lexAgree_of_typeRank_ne hx hy (by cases a <;> simp [typeRank])
  | number f =>
    intro y hx hy
    cases y
    case number g => exact lexAgree_number f g
    all_goals exact lexAgree_of_typeRank_ne hx hy (by simp [typeRank, eq_ite_iff])
  | string s =>
    intro y hx hy
    cases y
    case string t =>
      exact lexAgree_string (by simpa [noMissing] using hx) (by simpa [noMissing] using hy)
    all_goals exact lexAgree_of_typeRank_ne hx hy (by simp [typeRank, eq_ite_iff])
  | array xs ih =>
    intro y hx hy
    cases y
    case array ys =>
      have hxs := (noMissingList_iff xs).mp hx
      have hys := (noMissingList_iff ys).mp hy
      exact lexAgree_array hxs hys (fun x hx' y hy' => ih x hx' y (hxs x hx') (hys y hy'))
    all_goals exact lexAgree_of_typeRank_ne hx hy (by simp [typeRank, eq_ite_iff])
  | object kvs ih =>
    intro y hx hy
    cases y
    case object lvs =>
      have hkvs := (noMissingProps_iff kvs).mp hx
      have hlvs := (noMissingProps_iff lvs).mp hy
      exact lexAgree_object hkvs hlvs (fun p hp q hq => ih p hp q.2 (hkvs p hp).2 (hlvs q hq).2)
    all_goals exact lexAgree_of_typeRank_ne hx hy (by simp [typeRank, eq_ite_iff])

/-- **Order preservation.** For the default codec, the codes of two values without
`MissingLiteral` compare byte by byte as the values collate. -/
theorem compare_json2code (x y : Json) (hx : noMissing x = true) (hy : noMissing y = true) :
    compare (json2code newCodec x) (json2code newCodec y) = jsonCollate x y :=
  (json2code_lexAgree x y hx hy).compare_eq

theorem compare_json2code_prefix :
    compare (json2code newCodec (.array [.string [97]]))
      (json2code newCodec (.array [.string [97], .null])) = .lt := by
  rw [compare_json2code _ _ (by decide) (by decide)]
  decide

end Collatejson
