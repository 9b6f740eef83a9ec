import GsiIndexing.Collate.Desc

/-!
# The fields `ReverseCollate` finds

Without array lengths (`SortbyArrayLen(false)`, as `NewCodec` sets it) `extractEncodedField`
reads a code exactly as `n1ql2code` writes it, flipped or not.

* **`Datum`** — the codes as `extractEncodedField` sees them: a type byte and a datum up to
  its terminator, a string up to its double terminator, and arrays and objects of datums
  with their terminator, objects with their length first when the codec writes it.
  `n1ql2code` writes datums (`datum_n1ql2code`).
* **`extract_datum`** — on a datum, plain or flipped and followed by anything, the call
  returns the datum's whole length, leaves the bytes as they were, and `remaining` starts
  right after it. The objects' in-place `append`s then copy every member onto itself.
* **`extract_field`** — field `i + 1` of an array of datums, each flipped or not, is the
  span of its `i`-th member.
* **`reverseCollate_fields`** — `ReverseCollate` flips exactly the members at the `desc`
  positions, so a second call gives the code back.
-/

namespace Collatejson

open Go GoLoop

/-! ## Flipped codes -/

/-- A byte as it stands (`false`) or complemented (`true`). -/
def orientByte (o : Bool) (b : UInt8) : UInt8 := if o then ~~~b else b

/-- A code as it stands (`false`) or flipped (`true`). -/
def orient (o : Bool) (code : Bytes) : Bytes := code.map (orientByte o)

@[simp] theorem orientByte_false (b : UInt8) : orientByte false b = b := rfl

@[simp] theorem orient_nil (o : Bool) : orient o [] = [] := rfl

@[simp] theorem orient_cons (o : Bool) (b : UInt8) (code : Bytes) :
    orient o (b :: code) = orientByte o b :: orient o code := rfl

@[simp] theorem orient_append (o : Bool) (a b : Bytes) : orient o (a ++ b) = orient o a ++ orient o b :=
  List.map_append

@[simp] theorem length_orient (o : Bool) (code : Bytes) : (orient o code).length = code.length :=
  List.length_map _

@[simp] theorem orient_false (code : Bytes) : orient false code = code := by
  rw [orient, show orientByte false = id from rfl, List.map_id]

theorem orient_true (code : Bytes) : orient true code = flipBits code := rfl

theorem orientByte_orientByte (a b : Bool) (x : UInt8) :
    orientByte a (orientByte b x) = orientByte (a ^^ b) x := by
  cases a <;> cases b <;> simp [orientByte]

theorem orient_orient (a b : Bool) (code : Bytes) : orient a (orient b code) = orient (a ^^ b) code := by
  simp [orient, List.map_map, Function.comp_def, orientByte_orientByte]

theorem flipBits_orient (o : Bool) (code : Bytes) : flipBits (orient o code) = orient (!o) code := by
  rw [← orient_true, orient_orient, Bool.true_xor]

theorem isEnd_complement (b : UInt8) : isEnd (~~~b) = isEnd b := by
  have hb := b.toNat_lt
  unfold isEnd terminator
  rw [Bool.eq_iff_iff]
  simp only [Bool.or_eq_true, beq_iff_eq, UInt8.ext_iff, UInt8.toNat_not, UInt8.size, UInt8.toNat_zero]
  omega

@[simp] theorem isEnd_orientByte (o : Bool) (b : UInt8) : isEnd (orientByte o b) = isEnd b := by
  cases o
  · rfl
  · exact isEnd_complement b

theorem isEnd_of_codeByte {b : UInt8} (h : CodeByte b) : isEnd b = false := by
  rcases h with rfl | rfl | h
  · decide
  · decide
  · have hne0 : b ≠ terminator := fun he => by rw [he] at h; simp [terminator] at h
    have hne255 : b ≠ ~~~terminator := fun he => by rw [he] at h; simp [terminator] at h
    simp [isEnd, hne0, hne255]

/-! ## The grammar of codes -/

/-- The types whose datum runs to its terminator. -/
def scalarTypes : List UInt8 := [typeMissing, typeNull, typeTrue, typeFalse, typeLength, typeNumber]

/-- The codes `extractEncodedField` reads as one datum. -/
inductive Datum (codec : Codec) : Bytes → Prop where
  | scalar (t : UInt8) (body : Bytes) (ht : t ∈ scalarTypes) (hbody : ∀ b ∈ body, isEnd b = false) :
      Datum codec (t :: (body ++ [terminator]))
  | string (s : Bytes) : Datum codec (n1qlStringCode s)
  | array (xs : List Bytes) (hxs : ∀ x ∈ xs, Datum codec x) :
      Datum codec (typeArray :: ((if codec.arrayLenPrefix then lengthCode xs.length else []) ++
        xs.flatten ++ [terminator]))
  | object (kvs : List (Bytes × Bytes)) (hk : ∀ p ∈ kvs, Datum codec p.1)
      (hv : ∀ p ∈ kvs, Datum codec p.2) :
      Datum codec (typeObj :: ((if codec.propertyLenPrefix then lengthCode kvs.length else []) ++
        kvs.flatMap (fun p => p.1 ++ p.2) ++ [terminator]))

theorem Datum.two_le_length {codec : Codec} {c : Bytes} (h : Datum codec c) : 2 ≤ c.length := by
  cases h <;> simp [n1qlStringCode, suffixEncodeString] <;> omega

/-- **`n1ql2code` writes datums.** -/
theorem datum_n1ql2code (codec : Codec) (v : N1qlValue) : Datum codec (n1ql2code codec v) := by
  induction v using N1qlValue.memRec with
  | missing => exact .scalar typeMissing [] (by decide) (by simp)
  | null => exact .scalar typeNull [] (by decide) (by simp)
  | bool b =>
    cases b
    · exact .scalar typeFalse [] (by decide) (by simp)
    · exact .scalar typeTrue [] (by decide) (by simp)
  | number n =>
    exact .scalar typeNumber (numberCode codec n) (by decide)
      (fun b hb => isEnd_of_codeByte (codeByte_numberCode codec n b hb))
  | string s => exact .string s
  | array xs ih =>
    have h := @Datum.array codec (xs.map (n1ql2code codec))
      (fun x hx => by obtain ⟨y, hy, rfl⟩ := List.mem_map.mp hx; exact ih y hy)
    simpa [n1ql2code, n1ql2codeList_eq, List.flatMap_def] using h
  | object kvs ih =>
    -- the entries, sorted by key, each a key's string code and a value's code
    have h := @Datum.object codec
      ((sortProps (n1ql2codeProps codec kvs)).map fun p => (n1qlStringCode p.1, p.2))
      (fun p hp => by obtain ⟨q, -, rfl⟩ := List.mem_map.mp hp; exact .string q.1)
      (fun p hp => by
        obtain ⟨q, hq, rfl⟩ := List.mem_map.mp hp
        rw [mem_sortProps, n1ql2codeProps_eq] at hq
        obtain ⟨r, hr, rfl⟩ := List.mem_map.mp hq
        exact ih r hr)
    simpa [n1ql2code, length_sortProps, n1ql2codeProps_eq, List.flatMap_map] using h

/-! ## Reading one datum -/

theorem findIdx?_isEnd {pre : Bytes} (hpre : ∀ b ∈ pre, isEnd b = false) {e : UInt8} (he : isEnd e = true)
    (post : Bytes) : (pre ++ e :: post).findIdx? isEnd = some pre.length := by
  induction pre with
  | nil => simp [List.findIdx?_cons, he]
  | cons b pre ih =>
    rw [List.cons_append, List.findIdx?_cons, hpre b List.mem_cons_self, if_neg (by simp),
      ih (fun c hc => hpre c (List.mem_cons_of_mem b hc))]
    rfl

/-- `getEncodedDatum` stops at the first end byte. -/
theorem getEncodedDatum_append {pre : Bytes} (hpre : ∀ b ∈ pre, isEnd b = false) {e : UInt8}
    (he : isEnd e = true) (post : Bytes) : getEncodedDatum (pre ++ e :: post) = some (pre.length + 1) := by
  have hne : pre ++ e :: post ≠ [] := by simp
  unfold getEncodedDatum
  split
  · exact absurd ‹_› hne
  · rw [findIdx?_isEnd hpre he]
    rfl

theorem orientByte_complement (o : Bool) (b : UInt8) : orientByte o (~~~b) = orientByte (!o) b := by
  cases o <;> simp [orientByte]

/-- An escape, flipped or not, is passed over. -/
theorem getEncodedStringFrom_escape (o : Bool) (i : Nat) (rest : Bytes) :
    getEncodedStringFrom i (orientByte o terminator :: orientByte o terminatorSuffix :: rest) =
      getEncodedStringFrom (i + 2) rest := by
  cases o <;> rfl

theorem getEncodedStringFrom_plain {y : UInt8} (hy : isEnd y = false) (i : Nat) (rest : Bytes) :
    getEncodedStringFrom i (y :: rest) = getEncodedStringFrom (i + 1) rest := by
  have h0 : y ≠ terminator := fun he => by simp [he, isEnd] at hy
  have h1 : y ≠ ~~~terminator := fun he => by simp [he, isEnd] at hy
  cases rest <;> simp [getEncodedStringFrom, h0, h1]

/-- The escaped bytes of a string, flipped or not, and its double terminator: the loop of
`getEncodedString` passes every escape and stops after the terminator. -/
theorem getEncodedStringFrom_orient (o : Bool) (s : Bytes) (i : Nat) (post : Bytes) :
    getEncodedStringFrom i (orient o (s.flatMap escapeByte ++ [terminator, terminator]) ++ post) =
      some (some (i + (s.flatMap escapeByte).length + 2)) := by
  induction s generalizing i with
  | nil => cases o <;> rfl
  | cons x s ih =>
    rw [List.flatMap_cons, List.append_assoc, orient_append, List.append_assoc]
    by_cases h0 : x = terminator
    · -- `0x00 0x01`, or `0xFF 0xFE` flipped
      rw [show escapeByte x = [terminator, terminatorSuffix] by simp [escapeByte, h0]]
      rw [orient_cons, orient_cons, orient_nil, List.cons_append, List.cons_append, List.nil_append,
        getEncodedStringFrom_escape, ih]
      simp only [List.length_append, List.length_cons, List.length_nil, Option.some.injEq]
      omega
    · by_cases h1 : x = ~~~terminator
      · -- `0xFF 0xFE`, or `0x00 0x01` flipped
        rw [show escapeByte x = [~~~terminator, ~~~terminatorSuffix] by simp [escapeByte, h1]]
        rw [orient_cons, orient_cons, orient_nil, orientByte_complement, orientByte_complement,
          List.cons_append, List.cons_append, List.nil_append, getEncodedStringFrom_escape, ih]
        simp only [List.length_append, List.length_cons, List.length_nil, Option.some.injEq]
        omega
      · -- a byte that stands for itself is neither end byte, flipped or not
        have hx : isEnd (orientByte o x) = false := by
          rw [isEnd_orientByte]
          simpa [isEnd] using And.intro h0 h1
        rw [show escapeByte x = [x] by simp [escapeByte, h0, h1]]
        rw [orient_cons, orient_nil, List.cons_append, List.nil_append, getEncodedStringFrom_plain hx, ih]
        simp only [List.length_append, List.length_cons, List.length_nil, Option.some.injEq]
        omega

theorem getEncodedString_orient (o : Bool) (s post : Bytes) :
    getEncodedString (orient o (n1qlStringCode s) ++ post) = some (some (n1qlStringCode s).length) := by
  have htype : isEnd (orientByte o typeString) = false := by rw [isEnd_orientByte]; rfl
  have h := getEncodedStringFrom_orient o s 1 post
  rw [getEncodedString, n1qlStringCode, orient_cons, List.cons_append, getEncodedStringFrom_plain htype]
  simpa [suffixEncodeString, Nat.add_comm 1, Nat.add_assoc] using h

theorem isEnd_of_mem_orient {o : Bool} {code : Bytes} (h : ∀ b ∈ code, isEnd b = false) :
    ∀ b ∈ orient o code, isEnd b = false := by
  intro b hb
  obtain ⟨x, hx, rfl⟩ := List.mem_map.mp hb
  rw [isEnd_orientByte]
  exact h x hx

/-- The length of an array or object, flipped or not: the count comes back and the length
datum is read whole. -/
theorem lengthPrefix_orient (o : Bool) (t : UInt8) {n : Nat} (hn : n < 2 ^ 63) (post : Bytes) :
    lengthPrefix (t :: (orient o (lengthCode n) ++ post)) = .ok ((lengthCode n).length, n, none) := by
  have hbody : ∀ b ∈ orient o (typeLength :: intCode n), isEnd b = false := by
    refine isEnd_of_mem_orient fun b hb => ?_
    rcases List.mem_cons.mp hb with rfl | hb
    · rfl
    · exact isEnd_of_codeByte (codeByte_intCode n b hb)
  have hsplit : orient o (lengthCode n) ++ post =
      orient o (typeLength :: intCode n) ++ orientByte o terminator :: post := by
    simp [lengthCode, intCode]
  have hdl : getEncodedDatum (orient o (lengthCode n) ++ post) = some (lengthCode n).length := by
    rw [hsplit, getEncodedDatum_append hbody (by rw [isEnd_orientByte]; rfl)]
    simp [lengthCode, intCode]
  have htake : (orient o (lengthCode n) ++ post).take (lengthCode n).length = orient o (lengthCode n) :=
    List.take_left' (length_orient o _)
  -- a flipped length is complemented back before `DecodeInt` reads it
  have hunflip : (if (orient o (lengthCode n)).head? = some (~~~typeLength) then
      (orient o (lengthCode n)).take 1 ++ flipBits (orient o (lengthCode n)).tail
      else orient o (lengthCode n)) = orientByte o typeLength :: (intCode n ++ [terminator]) := by
    cases o
    · simp [lengthCode, intCode, orientByte]
    · simp [lengthCode, intCode, orientByte, ← orient_true, orient_orient]
  have hslice : slice (orientByte o typeLength :: (intCode n ++ [terminator])) 1
      ((lengthCode n).length - 1) = some (intCode n) := by
    simp [slice, lengthCode, intCode]
  have hdecode := decodeInt_intCode_natCast hn []
  rw [List.append_nil] at hdecode
  simp only [lengthPrefix, List.drop_one, List.tail_cons, hdl, orPanic_some, pure_bind, htake]
  rw [hunflip, hslice]
  simp [hdecode, atoi_countText hn]
  rfl


/-! ## The rounds of the loops on datums read whole -/

/-- `extract` reads all of `x`, whatever follows it: the bytes stay as they were, the datum is
`x`, and `remaining` starts right after it. -/
def ReadsWhole (extract : Bytes → Except DecodeError Extracted) (x : Bytes) : Prop :=
  ∀ post, extract (x ++ post) = .ok ⟨x ++ post, 0, x.length, x.length, none⟩

/-- Members laid end to end: dropping the first `k` of them leaves the members from `k` on. -/
theorem flatten_take_append_drop (xs : List Bytes) (k : Nat) :
    (xs.take k).flatten ++ (xs.drop k).flatten = xs.flatten := by
  rw [← List.flatten_append, List.take_append_drop]

theorem length_flatten_take_le (xs : List Bytes) (k : Nat) :
    (xs.take k).flatten.length ≤ xs.flatten.length := by
  rw [← flatten_take_append_drop xs k, List.length_append]
  omega

theorem drop_flatten_take (xs : List Bytes) (k : Nat) (tail : Bytes) :
    (xs.flatten ++ tail).drop (xs.take k).flatten.length = (xs.drop k).flatten ++ tail := by
  rw [← flatten_take_append_drop xs k, List.append_assoc, List.drop_left]

theorem length_flatten_take_succ (xs : List Bytes) {k : Nat} (hk : k < xs.length) :
    (xs.take (k + 1)).flatten.length = (xs.take k).flatten.length + xs[k].length := by
  rw [List.take_add_one, List.getElem?_eq_getElem hk, Option.toList_some, List.flatten_append,
    List.length_append, List.flatten_cons, List.flatten_nil, List.append_nil]

theorem atField_of_drop {code post : Bytes} {pos : Nat} {b : UInt8} (hd : code.drop pos = b :: post) :
    atField code pos = .ok (!isEnd b) := by
  have hb : code[pos]? = some b := by
    rw [← List.head?_drop, hd]
    rfl
  simp [atField, hb, pure, Except.pure]

section Rounds

variable {extract : Bytes → Except DecodeError Extracted}

theorem fieldRound_next {x : Bytes} (hx : ReadsWhole extract x) {fieldPos : Nat} {code post : Bytes}
    {pos field fieldStart : Nat} (hd : code.drop pos = x ++ post) (hf : field ≠ fieldPos) :
    fieldRound extract fieldPos ⟨code, pos, field, fieldStart, none⟩ =
      .ok (.next ⟨code, pos + x.length, field + 1, fieldStart + x.length, none⟩) := by
  have hcode : code.take pos ++ (x ++ post) = code := by rw [← hd, List.take_append_drop]
  simp [fieldRound, hd, hx post, hcode, hf, bind, Except.bind, pure, Except.pure]

theorem fieldRound_ret {x : Bytes} (hx : ReadsWhole extract x) {fieldPos : Nat} {code post : Bytes}
    {pos fieldStart : Nat} (hd : code.drop pos = x ++ post) (hfit : fieldStart + x.length ≤ code.length) :
    fieldRound extract fieldPos ⟨code, pos, fieldPos, fieldStart, none⟩ =
      .ok (.ret ⟨code, fieldStart, x.length, code.length, none⟩) := by
  have hcode : code.take pos ++ (x ++ post) = code := by rw [← hd, List.take_append_drop]
  simp [fieldRound, hd, hx post, hcode, hfit, bind, Except.bind, pure, Except.pure]

/-- Copying bytes onto themselves: while `datum` is the slice in front of `s`, appending
`orig[s:s+n]` leaves the buffer as it was. -/
theorem appendDatum_self (st : EntryLoop) {s n : Nat} (hs : st.inPlace = true → s = 1 + st.dlen)
    (hn : s + n ≤ st.code.length) : appendDatum st s n = { st with dlen := st.dlen + n } := by
  unfold appendDatum
  cases hin : st.inPlace
  · simp
  · obtain rfl := hs hin
    have hcode : st.code.take (1 + st.dlen) ++ (st.code.drop (1 + st.dlen)).take n ++
        st.code.drop (1 + st.dlen + n) = st.code := by
      rw [List.append_assoc, show st.code.drop (1 + st.dlen + n) = (st.code.drop (1 + st.dlen)).drop n
        from List.drop_drop.symm, List.take_append_drop, List.take_append_drop]
    simp [hn, hcode]

theorem entryRound_next {k v : Bytes} (hk : ReadsWhole extract k) (hv : ReadsWhole extract v)
    {code post : Bytes} {pos dlen : Nat} {inPlace : Bool} (hpos : pos ≤ code.length)
    (hd : code.drop pos = k ++ v ++ post) (hinv : inPlace = true → pos = 1 + dlen) :
    entryRound extract ⟨code, pos, inPlace, dlen, none⟩ =
      .ok (.next ⟨code, pos + (k.length + v.length), inPlace, dlen + (k.length + v.length), none⟩) := by
  have hlen : pos + (k.length + v.length) ≤ code.length := by
    have h := congrArg List.length hd
    simp only [List.length_drop, List.length_append] at h
    omega
  have hcode : code.take pos ++ (k ++ (v ++ post)) = code := by
    rw [← List.append_assoc k, ← hd, List.take_append_drop]
  have hdv : code.drop (pos + k.length) = v ++ post := by
    rw [← List.drop_drop, hd, List.append_assoc, List.drop_left]
  have hcode' : code.take (pos + k.length) ++ (v ++ post) = code := by
    rw [← hdv, List.take_append_drop]
  -- the key and then the value are copied onto themselves
  have hkey := appendDatum_self ⟨code, pos + k.length + v.length, inPlace, dlen, none⟩
    (s := pos) (n := k.length) hinv (by simp only; omega)
  have hval := appendDatum_self ⟨code, pos + k.length + v.length, inPlace, dlen + k.length, none⟩
    (s := pos + k.length) (n := v.length) (by intro h; simp only at h ⊢; have := hinv h; omega)
    (by simp only; omega)
  simp only at hkey hval
  simp [entryRound, hd, hk (v ++ post), hcode, hdv, hv post, hcode', bind, Except.bind, pure, Except.pure]
  rw [hkey, hval, Nat.add_assoc pos, Nat.add_assoc dlen]

end Rounds


/-! ## Walks over members read whole -/

/-- A member opens with a byte that is not an end byte. -/
def Opens (x : Bytes) : Prop := ∃ b r, x = b :: r ∧ isEnd b = false

theorem drop_member {code tail : Bytes} {pos : Nat} {xs : List Bytes} (hd : code.drop pos = xs.flatten ++ tail)
    {k : Nat} (hk : k < xs.length) :
    code.drop (pos + (xs.take k).flatten.length) = xs[k] ++ ((xs.drop (k + 1)).flatten ++ tail) := by
  rw [← List.drop_drop, hd, drop_flatten_take, List.drop_eq_getElem_cons hk, List.flatten_cons,
    List.append_assoc]

theorem drop_members_end {code tail : Bytes} {pos : Nat} {xs : List Bytes}
    (hd : code.drop pos = xs.flatten ++ tail) : code.drop (pos + xs.flatten.length) = tail := by
  rw [← List.drop_drop, hd, List.drop_left]

section Walks

variable {extract : Bytes → Except DecodeError Extracted} {code post : Bytes} {pos : Nat} {xs : List Bytes}
  {e : UInt8}

/-- The variables of the arrays' loop before member `k` of `xs`, laid from `pos` on. -/
def fieldsBefore (code : Bytes) (pos field fieldStart : Nat) (xs : List Bytes) (k : Nat) : FieldLoop :=
  ⟨code, pos + (xs.take k).flatten.length, field + k, fieldStart + (xs.take k).flatten.length, none⟩

/-- The variables of the objects' loop before entry `k`, the entries laid from `pos` on. -/
def entriesBefore (code : Bytes) (pos : Nat) (inPlace : Bool) (dlen : Nat) (xs : List Bytes) (k : Nat) :
    EntryLoop :=
  ⟨code, pos + (xs.take k).flatten.length, inPlace, dlen + (xs.take k).flatten.length, none⟩

theorem atField_member (hopen : ∀ x ∈ xs, Opens x) (hd : code.drop pos = xs.flatten ++ post) {k : Nat}
    (hk : k < xs.length) : atField code (pos + (xs.take k).flatten.length) = .ok true := by
  obtain ⟨b, r, hx, hb⟩ := hopen xs[k] (List.getElem_mem hk)
  rw [atField_of_drop (by rw [drop_member hd hk, hx, List.cons_append]), hb, Bool.not_false]

theorem atField_end (hd : code.drop pos = xs.flatten ++ e :: post) (he : isEnd e = true) :
    atField code (pos + xs.flatten.length) = .ok false := by
  rw [atField_of_drop (drop_members_end hd), he, Bool.not_true]

/-- Member `k`, read whole and not the field asked for, moves the loop to member `k + 1`. -/
theorem fieldRound_fieldsBefore (hread : ∀ x ∈ xs, ReadsWhole extract x)
    (hd : code.drop pos = xs.flatten ++ post) {fieldPos field fieldStart k : Nat} (hk : k < xs.length)
    (hf : field + k ≠ fieldPos) :
    fieldRound extract fieldPos (fieldsBefore code pos field fieldStart xs k) =
      .ok (.next (fieldsBefore code pos field fieldStart xs (k + 1))) := by
  rw [fieldsBefore, fieldRound_next (hread xs[k] (List.getElem_mem hk)) (drop_member hd hk) hf,
    fieldsBefore, length_flatten_take_succ xs hk, Nat.add_assoc, Nat.add_assoc, Nat.add_assoc]

/-- Entry `j`, its key and value read whole, moves the loop to entry `j + 1`; while `datum`
is in place it stays the slice in front of the next entry. -/
theorem entryRound_entriesBefore {kvs : List (Bytes × Bytes)} (hk : ∀ p ∈ kvs, ReadsWhole extract p.1)
    (hv : ∀ p ∈ kvs, ReadsWhole extract p.2)
    (hd : code.drop pos = (kvs.flatMap fun p => p.1 ++ p.2) ++ e :: post)
    {inPlace : Bool} {dlen j : Nat} (hinv : inPlace = true → pos = 1 + dlen) (hj : j < kvs.length) :
    entryRound extract (entriesBefore code pos inPlace dlen (kvs.map fun p => p.1 ++ p.2) j) =
      .ok (.next (entriesBefore code pos inPlace dlen (kvs.map fun p => p.1 ++ p.2) (j + 1))) := by
  have hj' : j < (kvs.map fun p => p.1 ++ p.2).length := by rwa [List.length_map]
  have hdj := drop_member hd hj'
  rw [List.getElem_map, List.append_assoc] at hdj
  -- the end byte lies further on, so the entry starts inside the buffer
  have hpos : pos + ((kvs.map fun p => p.1 ++ p.2).take j).flatten.length ≤ code.length := by
    have h := congrArg List.length hdj
    simp only [List.length_drop, List.length_append, List.length_cons] at h
    omega
  have hinv' : inPlace = true → pos + ((kvs.map fun p => p.1 ++ p.2).take j).flatten.length =
      1 + (dlen + ((kvs.map fun p => p.1 ++ p.2).take j).flatten.length) := fun h => by
    have := hinv h
    omega
  have hnext := entryRound_next (hk kvs[j] (List.getElem_mem hj)) (hv kvs[j] (List.getElem_mem hj))
    hpos (by rw [← List.append_assoc] at hdj; exact hdj) hinv'
  rw [entriesBefore, hnext, entriesBefore, length_flatten_take_succ _ hj', List.getElem_map,
    List.length_append, Nat.add_assoc, Nat.add_assoc]

theorem fieldsBefore_zero (code : Bytes) (pos field fieldStart : Nat) (xs : List Bytes) :
    fieldsBefore code pos field fieldStart xs 0 = ⟨code, pos, field, fieldStart, none⟩ := rfl

theorem entriesBefore_zero (code : Bytes) (pos : Nat) (inPlace : Bool) (dlen : Nat) (xs : List Bytes) :
    entriesBefore code pos inPlace dlen xs 0 = ⟨code, pos, inPlace, dlen, none⟩ := rfl

/-- Members read whole, none of them the field asked for: the arrays' loop passes them all
and stops at the end byte. -/
theorem whileLoop_fieldRound (fieldStart : Nat) (hread : ∀ x ∈ xs, ReadsWhole extract x)
    (hopen : ∀ x ∈ xs, Opens x) (hd : code.drop pos = xs.flatten ++ e :: post) (he : isEnd e = true)
    {fieldPos field fuel : Nat}
    (hf : ∀ k < xs.length, field + k ≠ fieldPos) (hfuel : xs.length < fuel) :
    whileLoop .outOfFuel (fun st => atField st.code st.pos) (fieldRound extract fieldPos) fuel
        ⟨code, pos, field, fieldStart, none⟩ =
      .ok (.inl ⟨code, pos + xs.flatten.length, field + xs.length, fieldStart + xs.flatten.length, none⟩) := by
  have h : whileLoop .outOfFuel (fun st => atField st.code st.pos) (fieldRound extract fieldPos) fuel
      (fieldsBefore code pos field fieldStart xs 0) = .ok (.inl (fieldsBefore code pos field fieldStart xs xs.length)) :=
    whileLoop_of_next hfuel (fun k hk => atField_member hopen hd hk)
      (fun k hk => fieldRound_fieldsBefore hread hd hk (hf k hk))
      (by rw [fieldsBefore, List.take_length]; exact atField_end hd he)
  rw [fieldsBefore_zero, fieldsBefore, List.take_length] at h
  exact h

/-- The members before member `i` are passed over, and member `i` is the field asked for. -/
theorem whileLoop_fieldRound_ret (field fieldStart : Nat) (hread : ∀ x ∈ xs, ReadsWhole extract x)
    (hopen : ∀ x ∈ xs, Opens x) (hd : code.drop pos = xs.flatten ++ post) {i fuel : Nat} (hi : i < xs.length)
    (hfuel : i < fuel) (hfit : fieldStart + (xs.take (i + 1)).flatten.length ≤ code.length) :
    whileLoop .outOfFuel (fun st => atField st.code st.pos) (fieldRound extract (field + i)) fuel
        ⟨code, pos, field, fieldStart, none⟩ =
      .ok (.inr ⟨code, fieldStart + (xs.take i).flatten.length, xs[i].length, code.length, none⟩) :=
  whileLoop_of_ret (g := fieldsBefore code pos field fieldStart xs) hfuel
    (fun k hk => atField_member hopen hd (by omega))
    (fun k hk => fieldRound_fieldsBefore hread hd (by omega) (by omega))
    (fieldRound_ret (hread xs[i] (List.getElem_mem hi)) (drop_member hd hi)
      (by rw [Nat.add_assoc, ← length_flatten_take_succ xs hi]; exact hfit))

/-- Entries read whole: the objects' loop without a count passes them all and stops at the
end byte. -/
theorem whileLoop_entryRound {kvs : List (Bytes × Bytes)} (hk : ∀ p ∈ kvs, ReadsWhole extract p.1)
    (hv : ∀ p ∈ kvs, ReadsWhole extract p.2) (hopen : ∀ p ∈ kvs, Opens p.1)
    (hd : code.drop pos = (kvs.flatMap fun p => p.1 ++ p.2) ++ e :: post) (he : isEnd e = true)
    {fuel : Nat} (hfuel : kvs.length < fuel) :
    whileLoop .outOfFuel (fun st => atField st.code st.pos) (entryRound extract) fuel
        ⟨code, pos, false, 0, none⟩ =
      .ok (.inl ⟨code, pos + (kvs.flatMap fun p => p.1 ++ p.2).length, false,
        (kvs.flatMap fun p => p.1 ++ p.2).length, none⟩) := by
  have hopen' : ∀ x ∈ kvs.map (fun p => p.1 ++ p.2), Opens x := by
    intro x hx
    obtain ⟨p, hp, rfl⟩ := List.mem_map.mp hx
    obtain ⟨b, r, h1, hb⟩ := hopen p hp
    exact ⟨b, r ++ p.2, by rw [h1, List.cons_append], hb⟩
  have htake : (kvs.map fun p => p.1 ++ p.2).take kvs.length = kvs.map fun p => p.1 ++ p.2 :=
    List.take_of_length_le (by rw [List.length_map])
  have h : whileLoop .outOfFuel (fun st => atField st.code st.pos) (entryRound extract) fuel
      (entriesBefore code pos false 0 (kvs.map fun p => p.1 ++ p.2) 0) =
      .ok (.inl (entriesBefore code pos false 0 (kvs.map fun p => p.1 ++ p.2) kvs.length)) :=
    whileLoop_of_next hfuel (fun k hk => atField_member hopen' hd (by rwa [List.length_map]))
      (fun j hj => entryRound_entriesBefore hk hv hd (by simp) hj)
      (by rw [entriesBefore, htake]; exact atField_end hd he)
  rw [entriesBefore_zero, entriesBefore, htake, Nat.zero_add] at h
  exact h

/-- Entries read whole, as many as the count says: the objects' loop with a count copies each
onto itself and ends after the last. -/
theorem countLoop_entryRound {kvs : List (Bytes × Bytes)} (hk : ∀ p ∈ kvs, ReadsWhole extract p.1)
    (hv : ∀ p ∈ kvs, ReadsWhole extract p.2)
    (hd : code.drop (1 + pos) = (kvs.flatMap fun p => p.1 ++ p.2) ++ e :: post) :
    countLoop (entryRound extract) kvs.length ⟨code, 1 + pos, true, pos, none⟩ =
      .ok (.inl ⟨code, 1 + pos + (kvs.flatMap fun p => p.1 ++ p.2).length, true,
        pos + (kvs.flatMap fun p => p.1 ++ p.2).length, none⟩) := by
  have h : countLoop (entryRound extract) kvs.length
      (entriesBefore code (1 + pos) true pos (kvs.map fun p => p.1 ++ p.2) 0) =
      .ok (.inl (entriesBefore code (1 + pos) true pos (kvs.map fun p => p.1 ++ p.2) kvs.length)) :=
    countLoop_of_next (fun j hj => entryRound_entriesBefore hk hv hd (fun _ => rfl) hj)
  have htake : (kvs.map fun p => p.1 ++ p.2).take kvs.length = kvs.map fun p => p.1 ++ p.2 :=
    List.take_of_length_le (by rw [List.length_map])
  rw [entriesBefore_zero, entriesBefore, htake] at h
  exact h

end Walks

/-- The type bytes, plain or flipped, fall in their own cases. -/
theorem scalarType_orient {t : UInt8} (ht : t ∈ scalarTypes) (o : Bool) :
    orientByte o t ≠ terminator ∧ isScalarType (orientByte o t) = true := by
  simp only [scalarTypes, List.mem_cons, List.not_mem_nil, or_false] at ht
  rcases ht with rfl | rfl | rfl | rfl | rfl | rfl <;> cases o <;> decide

theorem stringType_orient (o : Bool) :
    orientByte o typeString ≠ terminator ∧ isScalarType (orientByte o typeString) = false ∧
      (orientByte o typeString = typeString ∨ orientByte o typeString = ~~~typeString) := by
  cases o <;> decide

theorem arrayType_orient (o : Bool) :
    orientByte o typeArray ≠ terminator ∧ isScalarType (orientByte o typeArray) = false ∧
      ¬ (orientByte o typeArray = typeString ∨ orientByte o typeArray = ~~~typeString) ∧
      (orientByte o typeArray = typeArray ∨ orientByte o typeArray = ~~~typeArray) := by
  cases o <;> decide

theorem objectType_orient (o : Bool) :
    orientByte o typeObj ≠ terminator ∧ isScalarType (orientByte o typeObj) = false ∧
      ¬ (orientByte o typeObj = typeString ∨ orientByte o typeObj = ~~~typeString) ∧
      ¬ (orientByte o typeObj = typeArray ∨ orientByte o typeObj = ~~~typeArray) ∧
      (orientByte o typeObj = typeObj ∨ orientByte o typeObj = ~~~typeObj) := by
  cases o <;> decide

theorem closeDatum_ok {code : Bytes} {pos n : Nat} (hpos : pos < code.length) (hn : n + 2 ≤ code.length)
    (err : Option DecodeError) : closeDatum code pos n err = .ok ⟨code, 0, n + 2, pos + 1, err⟩ := by
  simp only [closeDatum, hpos, hn, and_self, if_true]
  rfl

theorem isEnd_of_mem_scalarTypes {t : UInt8} (ht : t ∈ scalarTypes) : isEnd t = false := by
  simp only [scalarTypes, List.mem_cons, List.not_mem_nil, or_false] at ht
  rcases ht with rfl | rfl | rfl | rfl | rfl | rfl <;> decide

/-- Every datum opens with its type byte, which is no end byte, flipped or not. -/
theorem Datum.opens {codec : Codec} {c : Bytes} (h : Datum codec c) (o : Bool) : Opens (orient o c) := by
  cases h with
  | scalar t body ht => exact ⟨_, _, orient_cons o t _, by rw [isEnd_orientByte]; exact isEnd_of_mem_scalarTypes ht⟩
  | string s => exact ⟨_, _, orient_cons o typeString _, by rw [isEnd_orientByte]; rfl⟩
  | array xs => exact ⟨_, _, orient_cons o typeArray _, by rw [isEnd_orientByte]; rfl⟩
  | object kvs => exact ⟨_, _, orient_cons o typeObj _, by rw [isEnd_orientByte]; rfl⟩

theorem orient_flatten (o : Bool) (xs : List Bytes) : orient o xs.flatten = (xs.map (orient o)).flatten :=
  List.map_flatten

theorem orient_flatMap_entries (o : Bool) (kvs : List (Bytes × Bytes)) :
    orient o (kvs.flatMap fun p => p.1 ++ p.2) =
      (kvs.map fun p => (orient o p.1, orient o p.2)).flatMap fun p => p.1 ++ p.2 := by
  induction kvs with
  | nil => rfl
  | cons p kvs ih => rw [List.flatMap_cons, orient_append, orient_append, ih, List.map_cons, List.flatMap_cons]

/-- Members of at least one byte are no more than their bytes. -/
theorem length_le_length_flatten (xs : List Bytes) (h : ∀ x ∈ xs, x ≠ []) : xs.length ≤ xs.flatten.length := by
  induction xs with
  | nil => exact le_rfl
  | cons x xs ih =>
    have hx : 0 < x.length := List.length_pos_iff.mpr (h x List.mem_cons_self)
    rw [List.flatten_cons, List.length_append, List.length_cons]
    have := ih fun y hy => h y (List.mem_cons_of_mem x hy)
    omega

/-! ## `extractEncodedField` reads a datum whole -/

section Extract

variable {codec : Codec}

theorem readsWhole_scalar {t : UInt8} (ht : t ∈ scalarTypes) {body : Bytes}
    (hbody : ∀ b ∈ body, isEnd b = false) (o : Bool) (fuel : Nat) :
    ReadsWhole (extractEncodedField codec (fuel + 1) · 0) (orient o (t :: (body ++ [terminator]))) := by
  intro post
  beta_reduce
  obtain ⟨h0, hs⟩ := scalarType_orient ht o
  have hpre : ∀ b ∈ orient o (t :: body), isEnd b = false := by
    refine isEnd_of_mem_orient fun b hb => ?_
    rcases List.mem_cons.mp hb with rfl | hb
    · exact isEnd_of_mem_scalarTypes ht
    · exact hbody b hb
  have hdatum := getEncodedDatum_append hpre (e := orientByte o terminator) (by rw [isEnd_orientByte]; rfl) post
  have hsplit : orient o (t :: (body ++ [terminator])) ++ post =
      orient o (t :: body) ++ orientByte o terminator :: post := by simp
  rw [hsplit, orient_cons, List.cons_append, extractEncodedField, if_neg h0, if_pos hs]
  rw [orient_cons, List.cons_append] at hdatum
  rw [hdatum]
  simp
  rfl

theorem readsWhole_string (s : Bytes) (o : Bool) (fuel : Nat) :
    ReadsWhole (extractEncodedField codec (fuel + 1) · 0) (orient o (n1qlStringCode s)) := by
  intro post
  beta_reduce
  obtain ⟨h0, hs, ht⟩ := stringType_orient o
  have hstr := getEncodedString_orient o s post
  rw [← length_orient o] at hstr
  rw [n1qlStringCode, orient_cons, List.cons_append] at hstr ⊢
  rw [extractEncodedField, if_neg h0, if_neg (by simp [hs]), if_pos ht, hstr]
  rfl

/-- An array without its length: the loop passes every member, read whole by the nested
calls, and the datum closes at the end byte. -/
theorem readsWhole_array (ha : codec.arrayLenPrefix = false) {xs : List Bytes} (o : Bool) (fuel : Nat)
    (hread : ∀ x ∈ xs, ReadsWhole (extractEncodedField codec fuel · 0) (orient o x))
    (hopen : ∀ x ∈ xs, Opens (orient o x)) (hfuel : xs.length < fuel) :
    ReadsWhole (extractEncodedField codec (fuel + 1) · 0)
      (orient o (typeArray :: ((if codec.arrayLenPrefix then lengthCode xs.length else []) ++
        xs.flatten ++ [terminator]))) := by
  intro post
  beta_reduce
  obtain ⟨h0, hs, hstr, harr⟩ := arrayType_orient o
  have hread' : ∀ y ∈ xs.map (orient o), ReadsWhole (extractEncodedField codec fuel · 0) y := by
    intro y hy
    obtain ⟨x, hx, rfl⟩ := List.mem_map.mp hy
    exact hread x hx
  have hopen' : ∀ y ∈ xs.map (orient o), Opens y := by
    intro y hy
    obtain ⟨x, hx, rfl⟩ := List.mem_map.mp hy
    exact hopen x hx
  have hf : ∀ k < (xs.map (orient o)).length, 1 + k ≠ 0 := fun k _ => by omega
  have hsplit : orient o (typeArray :: ((if codec.arrayLenPrefix then lengthCode xs.length else []) ++
      xs.flatten ++ [terminator])) ++ post =
      orientByte o typeArray :: ((xs.map (orient o)).flatten ++ orientByte o terminator :: post) := by
    simp [ha, orient_flatten]
  have hloop := whileLoop_fieldRound 1 hread' hopen'
    (show (orientByte o typeArray :: ((xs.map (orient o)).flatten ++ orientByte o terminator :: post)).drop 1 = _
      from rfl) (by rw [isEnd_orientByte]; rfl) hf (by rwa [List.length_map])
  rw [hsplit, extractEncodedField, if_neg h0, if_neg (by simp [hs]), if_neg hstr, if_pos harr,
    if_neg (by simp [ha])]
  simp only [hloop, bind, Except.bind]
  rw [closeDatum_ok (by simp; omega) (by simp)]
  simp [ha, orient_flatten]
  omega

/-- An object: with the count first, the count is read and as many entries copied onto
themselves; without it, the loop passes the entries up to the end byte. -/
theorem readsWhole_object {kvs : List (Bytes × Bytes)} (o : Bool) (fuel : Nat)
    (hk : ∀ p ∈ kvs, ReadsWhole (extractEncodedField codec fuel · 0) (orient o p.1))
    (hv : ∀ p ∈ kvs, ReadsWhole (extractEncodedField codec fuel · 0) (orient o p.2))
    (hopen : ∀ p ∈ kvs, Opens (orient o p.1)) (hfuel : kvs.length < fuel) (hn : kvs.length < 2 ^ 63) :
    ReadsWhole (extractEncodedField codec (fuel + 1) · 0)
      (orient o (typeObj :: ((if codec.propertyLenPrefix then lengthCode kvs.length else []) ++
        kvs.flatMap (fun p => p.1 ++ p.2) ++ [terminator]))) := by
  intro post
  beta_reduce
  obtain ⟨h0, hs, hstr, harr, hobj⟩ := objectType_orient o
  -- the entries as they stand in the code, flipped or not
  have hmem : ∀ p ∈ kvs.map (fun p => (orient o p.1, orient o p.2)), ∃ q ∈ kvs, p = (orient o q.1, orient o q.2) :=
    fun p hp => by obtain ⟨q, hq, rfl⟩ := List.mem_map.mp hp; exact ⟨q, hq, rfl⟩
  have hk' : ∀ p ∈ kvs.map (fun p => (orient o p.1, orient o p.2)),
      ReadsWhole (extractEncodedField codec fuel · 0) p.1 := fun p hp => by
    obtain ⟨q, hq, rfl⟩ := hmem p hp
    exact hk q hq
  have hv' : ∀ p ∈ kvs.map (fun p => (orient o p.1, orient o p.2)),
      ReadsWhole (extractEncodedField codec fuel · 0) p.2 := fun p hp => by
    obtain ⟨q, hq, rfl⟩ := hmem p hp
    exact hv q hq
  have hend : isEnd (orientByte o terminator) = true := by rw [isEnd_orientByte]; rfl
  cases hp : codec.propertyLenPrefix
  · have hopen' : ∀ p ∈ kvs.map (fun p => (orient o p.1, orient o p.2)), Opens p.1 := fun p hp => by
      obtain ⟨q, hq, rfl⟩ := hmem p hp
      exact hopen q hq
    have hloop := whileLoop_entryRound hk' hv' hopen'
      (show (orientByte o typeObj :: (((kvs.map fun p => (orient o p.1, orient o p.2)).flatMap
        fun p => p.1 ++ p.2) ++ orientByte o terminator :: post)).drop 1 = _ from rfl) hend
      (by rw [List.length_map]; exact hfuel)
    rw [if_neg (by simp), List.nil_append, orient_cons, orient_append, orient_flatMap_entries, List.cons_append,
      List.append_assoc, orient_cons, orient_nil, List.singleton_append, extractEncodedField, if_neg h0,
      if_neg (by simp [hs]), if_neg hstr, if_neg harr, if_pos hobj, if_neg (by simp [hp])]
    simp only [hloop, bind, Except.bind]
    rw [closeDatum_ok (by simp; omega) (by simp)]
    simp
    omega
  · -- the count is read first, and the entries follow it
    have hd : (orientByte o typeObj :: (orient o (lengthCode kvs.length) ++
        (((kvs.map fun p => (orient o p.1, orient o p.2)).flatMap fun p => p.1 ++ p.2) ++
          orientByte o terminator :: post))).drop (1 + (lengthCode kvs.length).length) =
        ((kvs.map fun p => (orient o p.1, orient o p.2)).flatMap fun p => p.1 ++ p.2) ++
          orientByte o terminator :: post := by
      rw [Nat.add_comm, List.drop_succ_cons, ← length_orient o, List.drop_left]
    have hloop := countLoop_entryRound hk' hv' hd
    rw [List.length_map] at hloop
    rw [if_pos rfl, orient_cons, orient_append, orient_append, orient_flatMap_entries, List.cons_append,
      List.append_assoc, List.append_assoc, orient_cons, orient_nil, List.singleton_append,
      extractEncodedField, if_neg h0, if_neg (by simp [hs]), if_neg hstr, if_neg harr, if_pos hobj,
      if_pos (by simp [hp]), lengthPrefix_orient o _ hn]
    simp only [bind, Except.bind, Int.toNat_natCast, hloop]
    rw [closeDatum_ok (by simp; omega) (by simp)]
    simp
    omega

/-- **A datum is read whole.** Without array lengths, `extractEncodedField` with as much fuel
as the datum has bytes reads it, flipped or not and followed by anything, to its end and
leaves the bytes as they were. -/
theorem extract_datum (ha : codec.arrayLenPrefix = false) {c : Bytes} (hc : Datum codec c) :
    ∀ (o : Bool) (fuel : Nat), c.length ≤ fuel → c.length < 2 ^ 63 →
      ReadsWhole (extractEncodedField codec fuel · 0) (orient o c) := by
  -- induction on the grammar; each nested datum is shorter than its parent by two bytes at
  -- least, so the fuel one level down still covers it
  induction hc with
  | scalar t body ht hbody =>
    intro o fuel hfuel _
    obtain ⟨f, rfl⟩ : ∃ f, fuel = f + 1 := ⟨fuel - 1, by simp at hfuel; omega⟩
    exact readsWhole_scalar ht hbody o f
  | string s =>
    intro o fuel hfuel _
    obtain ⟨f, rfl⟩ : ∃ f, fuel = f + 1 := ⟨fuel - 1, by simp [n1qlStringCode] at hfuel; omega⟩
    exact readsWhole_string s o f
  | array xs hxs ih =>
    intro o fuel hfuel hlen
    simp only [ha, Bool.false_eq_true, if_false, List.nil_append, List.length_cons,
      List.length_append] at hfuel hlen
    obtain ⟨f, rfl⟩ : ∃ f, fuel = f + 1 := ⟨fuel - 1, by omega⟩
    have hmem : ∀ x ∈ xs, x.length ≤ xs.flatten.length := fun x hx =>
      (List.sublist_flatten_of_mem hx).length_le
    have hcount := length_le_length_flatten xs fun x hx =>
      List.ne_nil_of_length_pos (by have := (hxs x hx).two_le_length; omega)
    exact readsWhole_array ha o f
      (fun x hx => ih x hx o f (by have := hmem x hx; omega) (by have := hmem x hx; omega))
      (fun x hx => (hxs x hx).opens o) (by omega)
  | object kvs hk hv ihk ihv =>
    intro o fuel hfuel hlen
    have hentries : (kvs.flatMap fun p => p.1 ++ p.2).length + 2 ≤
        (typeObj :: ((if codec.propertyLenPrefix then lengthCode kvs.length else []) ++
          kvs.flatMap (fun p => p.1 ++ p.2) ++ [terminator])).length := by
      simp only [List.length_cons, List.length_append]
      omega
    obtain ⟨f, rfl⟩ : ∃ f, fuel = f + 1 := ⟨fuel - 1, by omega⟩
    have hmem : ∀ p ∈ kvs, p.1.length + p.2.length ≤ (kvs.flatMap fun p => p.1 ++ p.2).length :=
      fun p hp => by
        have h := (List.sublist_flatten_of_mem (List.mem_map_of_mem (f := fun p => p.1 ++ p.2) hp)).length_le
        rwa [List.length_append] at h
    have hcount : kvs.length ≤ (kvs.flatMap fun p => p.1 ++ p.2).length := by
      have h := length_le_length_flatten (kvs.map fun p => p.1 ++ p.2) fun x hx => by
        obtain ⟨p, hp, rfl⟩ := List.mem_map.mp hx
        have := (hk p hp).two_le_length
        exact List.ne_nil_of_length_pos (by rw [List.length_append]; omega)
      rwa [List.length_map] at h
    exact readsWhole_object o f
      (fun p hp => ihk p hp o f (by have := hmem p hp; omega) (by have := hmem p hp; omega))
      (fun p hp => ihv p hp o f (by have := hmem p hp; omega) (by have := hmem p hp; omega))
      (fun p hp => (hk p hp).opens o) (by omega) (by omega)

end Extract

/-! ## The fields of a key -/

/-- A field of a key: its code and whether it stands flipped. -/
def fieldBytes (f : Bool × Bytes) : Bytes := orient f.1 f.2

/-- The code of an array whose members stand flipped or not. -/
def fieldsCode (fs : List (Bool × Bytes)) : Bytes :=
  typeArray :: ((fs.map fieldBytes).flatten ++ [terminator])

/-- The fields of a key after `ReverseCollate(code, desc)`: field `i` is flipped once more
when `desc[i]` is set; the fields past the mask stay as they are. -/
def flipFields : List Bool → List (Bool × Bytes) → List (Bool × Bytes)
  | d :: desc, f :: fs => (f.1 ^^ d, f.2) :: flipFields desc fs
  | _, fs => fs

@[simp] theorem length_fieldBytes (f : Bool × Bytes) : (fieldBytes f).length = f.2.length :=
  length_orient f.1 f.2

theorem length_fieldsCode (fs : List (Bool × Bytes)) :
    (fieldsCode fs).length = (fs.map fieldBytes).flatten.length + 2 := by
  simp only [fieldsCode, List.length_cons, List.length_append, List.length_nil]

/-- A member is shorter than the key that holds it. -/
theorem length_lt_length_fieldsCode {fs : List (Bool × Bytes)} {g : Bool × Bytes} (hg : g ∈ fs) :
    g.2.length < (fieldsCode fs).length := by
  have h := (List.sublist_flatten_of_mem (List.mem_map_of_mem (f := fieldBytes) hg)).length_le
  rw [length_fieldBytes] at h
  rw [length_fieldsCode]
  omega

theorem map_snd_flipFields (desc : List Bool) (fs : List (Bool × Bytes)) :
    (flipFields desc fs).map Prod.snd = fs.map Prod.snd := by
  induction desc generalizing fs with
  | nil => rfl
  | cons d desc ih =>
    cases fs with
    | nil => rfl
    | cons f fs => simp [flipFields, ih]

/-- The length of a key does not depend on which members stand flipped. -/
theorem length_fieldsCode_of_map_snd {fs gs : List (Bool × Bytes)} (h : fs.map Prod.snd = gs.map Prod.snd) :
    (fieldsCode fs).length = (fieldsCode gs).length := by
  have hl : ∀ hs : List (Bool × Bytes), (fieldsCode hs).length = ((hs.map Prod.snd).map List.length).sum + 2 :=
    fun hs => by simp [fieldsCode, fieldBytes, Function.comp_def]
  rw [hl, hl, h]

theorem flipFields_flipFields (desc : List Bool) (fs : List (Bool × Bytes)) :
    flipFields desc (flipFields desc fs) = fs := by
  induction desc generalizing fs with
  | nil => rfl
  | cons d desc ih =>
    cases fs with
    | nil => rfl
    | cons f fs => simp [flipFields, ih]

/-- Member `i` of an array without its length is field `i + 1`: the loop passes the members
before it, read whole, and returns its span. -/
theorem extract_member {codec : Codec} (ha : codec.arrayLenPrefix = false) {xs : List Bytes} {fuel : Nat}
    (hread : ∀ x ∈ xs, ReadsWhole (extractEncodedField codec fuel · 0) x) (hopen : ∀ x ∈ xs, Opens x)
    {i : Nat} (hi : i < xs.length) (hfuel : i < fuel) (post : Bytes) :
    extractEncodedField codec (fuel + 1) (typeArray :: (xs.flatten ++ post)) (i + 1) =
      .ok ⟨typeArray :: (xs.flatten ++ post), 1 + (xs.take i).flatten.length, xs[i].length,
        (typeArray :: (xs.flatten ++ post)).length, none⟩ := by
  obtain ⟨h0, hs, hstr, -⟩ := arrayType_orient false
  simp only [orientByte_false] at h0 hs hstr
  have hloop := whileLoop_fieldRound_ret 1 1 hread hopen
    (show (typeArray :: (xs.flatten ++ post)).drop 1 = xs.flatten ++ post from rfl) hi hfuel
    (by have := length_flatten_take_le xs (i + 1); simp only [List.length_cons, List.length_append]; omega)
  rw [extractEncodedField, if_neg h0, if_neg (by simp [hs]), if_neg hstr, if_pos (Or.inl rfl),
    if_neg (by simp [ha]), Nat.add_comm i 1, hloop]
  rfl

/-- Field `pre.length + 1` of a key is the member after `pre`. -/
theorem extract_field {codec : Codec} (ha : codec.arrayLenPrefix = false) {pre fs : List (Bool × Bytes)}
    {f : Bool × Bytes} (hfs : ∀ g ∈ pre ++ f :: fs, Datum codec g.2)
    (hlen : (fieldsCode (pre ++ f :: fs)).length < 2 ^ 63) :
    extractEncodedField codec ((fieldsCode (pre ++ f :: fs)).length + 1) (fieldsCode (pre ++ f :: fs))
        (pre.length + 1) =
      .ok ⟨fieldsCode (pre ++ f :: fs), 1 + (pre.map fieldBytes).flatten.length, f.2.length,
        (fieldsCode (pre ++ f :: fs)).length, none⟩ := by
  have hmem : ∀ x ∈ (pre ++ f :: fs).map fieldBytes, ∃ g ∈ pre ++ f :: fs, x = fieldBytes g :=
    fun x hx => by
      obtain ⟨g, hg, rfl⟩ := List.mem_map.mp hx
      exact ⟨g, hg, rfl⟩
  have hbound : ∀ x ∈ (pre ++ f :: fs).map fieldBytes, x.length ≤ (fieldsCode (pre ++ f :: fs)).length :=
    fun x hx => by
      have h := (List.sublist_flatten_of_mem hx).length_le
      rw [length_fieldsCode]
      omega
  have hread : ∀ x ∈ (pre ++ f :: fs).map fieldBytes,
      ReadsWhole (extractEncodedField codec (fieldsCode (pre ++ f :: fs)).length · 0) x := fun x hx => by
    obtain ⟨g, hg, rfl⟩ := hmem x hx
    have h := hbound _ hx
    rw [length_fieldBytes] at h
    exact extract_datum ha (hfs g hg) g.1 _ h (by omega)
  have hopen : ∀ x ∈ (pre ++ f :: fs).map fieldBytes, Opens x := fun x hx => by
    obtain ⟨g, hg, rfl⟩ := hmem x hx
    exact (hfs g hg).opens g.1
  have hcount := length_le_length_flatten ((pre ++ f :: fs).map fieldBytes) fun x hx => by
    obtain ⟨g, hg, rfl⟩ := hmem x hx
    have := (hfs g hg).two_le_length
    exact List.ne_nil_of_length_pos (by rw [length_fieldBytes]; omega)
  have hi : pre.length < ((pre ++ f :: fs).map fieldBytes).length := by simp
  have h := extract_member ha hread hopen hi (by rw [length_fieldsCode]; omega) [terminator]
  have htake : ((pre ++ f :: fs).map fieldBytes).take pre.length = pre.map fieldBytes := by
    rw [List.map_append, List.take_left' (List.length_map _)]
  have hget : ((pre ++ f :: fs).map fieldBytes)[pre.length] = fieldBytes f := by simp
  rw [htake, hget, length_fieldBytes] at h
  exact h

theorem fieldsCode_append_cons (pre fs : List (Bool × Bytes)) (f : Bool × Bytes) :
    fieldsCode (pre ++ f :: fs) =
      typeArray :: ((pre.map fieldBytes).flatten ++ (fieldBytes f ++ ((fs.map fieldBytes).flatten ++ [terminator]))) := by
  simp [fieldsCode]

/-- Flipping the span of the member after `pre` flips that member. -/
theorem flipAt_fieldsCode (pre fs : List (Bool × Bytes)) (f : Bool × Bytes) :
    flipAt (fieldsCode (pre ++ f :: fs)) (1 + (pre.map fieldBytes).flatten.length) f.2.length =
      fieldsCode (pre ++ (!f.1, f.2) :: fs) := by
  have hf : (fieldBytes f).length = f.2.length := length_fieldBytes f
  have hflip : flipBits (fieldBytes f) = fieldBytes (!f.1, f.2) := flipBits_orient f.1 f.2
  set P := (pre.map fieldBytes).flatten
  set T := (fs.map fieldBytes).flatten ++ [terminator]
  have h1 : (typeArray :: (P ++ (fieldBytes f ++ T))).take (1 + P.length) = typeArray :: P := by
    rw [Nat.add_comm, List.take_succ_cons, List.take_left]
  have h2 : (typeArray :: (P ++ (fieldBytes f ++ T))).drop (1 + P.length) = fieldBytes f ++ T := by
    rw [Nat.add_comm, List.drop_succ_cons, List.drop_left]
  have h3 : (typeArray :: (P ++ (fieldBytes f ++ T))).drop (1 + P.length + f.2.length) = T := by
    rw [← List.drop_drop, h2, ← hf, List.drop_left]
  rw [fieldsCode_append_cons, fieldsCode_append_cons, flipAt, h1, h2, h3, ← hf, List.take_left, hflip]
  simp [P, T]

/-! ## `ReverseCollate` on the fields of a key -/

/-- One round of `ReverseCollate`: with `desc[i]` set, field `i + 1` is found and flipped in
place. -/
def reverseStep (codec : Codec) (code : Bytes) (di : Bool × Nat) : Except DecodeError Bytes :=
  if di.1 then do
    let r ← extractEncodedField codec (code.length + 1) code (di.2 + 1)
    pure (flipAt r.code r.start r.len)
  else pure code

theorem length_fieldsCode_flip (pre fs : List (Bool × Bytes)) (f : Bool × Bytes) (d : Bool) :
    (fieldsCode (pre ++ (f.1 ^^ d, f.2) :: fs)).length = (fieldsCode (pre ++ f :: fs)).length := by
  simp [fieldsCode_append_cons]

section Fields

variable {codec : Codec} (ha : codec.arrayLenPrefix = false)
include ha

/-- The round for the member after `pre` flips it when its `desc` bit is set. -/
theorem reverseStep_fieldsCode {pre fs : List (Bool × Bytes)} {f : Bool × Bytes}
    (hfs : ∀ g ∈ pre ++ f :: fs, Datum codec g.2) (hlen : (fieldsCode (pre ++ f :: fs)).length < 2 ^ 63)
    (d : Bool) :
    reverseStep codec (fieldsCode (pre ++ f :: fs)) (d, pre.length) =
      .ok (fieldsCode (pre ++ (f.1 ^^ d, f.2) :: fs)) := by
  cases d
  · simp [reverseStep]
    rfl
  · simp only [reverseStep, if_true, extract_field ha hfs hlen, bind, Except.bind, Bool.xor_true]
    rw [flipAt_fieldsCode]
    rfl

/-- The rounds from member `pre.length` on flip the members whose `desc` bits are set. -/
theorem foldlM_reverseStep (desc : List Bool) :
    ∀ (pre fs : List (Bool × Bytes)), (∀ g ∈ pre ++ fs, Datum codec g.2) →
      (fieldsCode (pre ++ fs)).length < 2 ^ 63 → desc.length ≤ fs.length →
      (desc.zipIdx pre.length).foldlM (reverseStep codec) (fieldsCode (pre ++ fs)) =
        .ok (fieldsCode (pre ++ flipFields desc fs)) := by
  induction desc with
  | nil =>
    intro pre fs _ _ _
    rfl
  | cons d desc ih =>
    intro pre fs hfs hlen hdesc
    obtain ⟨f, fs, rfl⟩ : ∃ f fs', fs = f :: fs' := by
      cases fs with
      | nil => simp at hdesc
      | cons f fs => exact ⟨f, fs, rfl⟩
    -- after the round the flipped member joins the prefix
    have hpre : pre ++ (f.1 ^^ d, f.2) :: fs = (pre ++ [(f.1 ^^ d, f.2)]) ++ fs := by simp
    have hfs' : ∀ g ∈ (pre ++ [(f.1 ^^ d, f.2)]) ++ fs, Datum codec g.2 := by
      intro g hg
      simp only [List.mem_append, List.mem_singleton] at hg
      rcases hg with (hg | rfl) | hg
      · exact hfs g (by simp [hg])
      · exact hfs f (by simp)
      · exact hfs g (by simp [hg])
    have hlen' : (fieldsCode ((pre ++ [(f.1 ^^ d, f.2)]) ++ fs)).length < 2 ^ 63 := by
      rw [← hpre, length_fieldsCode_flip]
      exact hlen
    rw [List.zipIdx_cons, List.foldlM_cons, reverseStep_fieldsCode ha hfs hlen d]
    simp only [bind, Except.bind]
    rw [hpre, show pre.length + 1 = (pre ++ [(f.1 ^^ d, f.2)]).length by simp,
      ih _ fs hfs' hlen' (by simpa using hdesc)]
    simp [flipFields]

/-- **`ReverseCollate` flips exactly the `desc` fields.** On a key whose members are datums,
each standing flipped or not, `ReverseCollate` flips member `i` once more for every set bit
`desc[i]` and leaves every other byte as it was. -/
theorem reverseCollate_fields {fs : List (Bool × Bytes)} (hfs : ∀ g ∈ fs, Datum codec g.2)
    (hlen : (fieldsCode fs).length < 2 ^ 63) {desc : List Bool} (hdesc : desc.length ≤ fs.length) :
    reverseCollate codec (fieldsCode fs) desc = .ok (fieldsCode (flipFields desc fs)) :=
  foldlM_reverseStep ha desc [] fs hfs hlen hdesc

/-- With `SortbyArrayLen(false)` the code of an array is a key of unflipped members. -/
theorem n1ql2code_array_fieldsCode (vs : List N1qlValue) :
    n1ql2code codec (.array vs) = fieldsCode (vs.map fun v => (false, n1ql2code codec v)) := by
  simp [n1ql2code, n1ql2codeList_eq, ha, fieldsCode, fieldBytes, List.flatMap_def, Function.comp_def]

/-- **`ReverseCollate` undoes itself.** On the code of an array, with a mask no longer than
the array, a second `ReverseCollate` gives the code back. -/
theorem reverseCollate_reverseCollate (vs : List N1qlValue) {desc : List Bool}
    (hdesc : desc.length ≤ vs.length) (hlen : (n1ql2code codec (.array vs)).length < 2 ^ 63) :
    (reverseCollate codec (n1ql2code codec (.array vs)) desc >>= fun code =>
      reverseCollate codec code desc) = .ok (n1ql2code codec (.array vs)) := by
  have hfs : ∀ g ∈ vs.map (fun v => (false, n1ql2code codec v)), Datum codec g.2 := fun g hg => by
    obtain ⟨v, -, rfl⟩ := List.mem_map.mp hg
    exact datum_n1ql2code codec v
  rw [n1ql2code_array_fieldsCode ha] at hlen ⊢
  have hdesc' : desc.length ≤ (vs.map fun v => (false, n1ql2code codec v)).length := by
    rwa [List.length_map]
  have hsnd := map_snd_flipFields desc (vs.map fun v => (false, n1ql2code codec v))
  have hfs' : ∀ g ∈ flipFields desc (vs.map fun v => (false, n1ql2code codec v)), Datum codec g.2 :=
    fun g hg => by
      have h := List.mem_map_of_mem (f := Prod.snd) hg
      rw [hsnd] at h
      obtain ⟨g', hg', he⟩ := List.mem_map.mp h
      exact he ▸ hfs g' hg'
  have hlen' := (length_fieldsCode_of_map_snd hsnd).symm ▸ hlen
  have hdesc'' : desc.length ≤ (flipFields desc (vs.map fun v => (false, n1ql2code codec v))).length := by
    rw [← List.length_map (f := Prod.snd), hsnd, List.length_map]
    exact hdesc'
  rw [reverseCollate_fields ha hfs hlen hdesc']
  simp only [bind, Except.bind]
  rw [reverseCollate_fields ha hfs' hlen' hdesc'', flipFields_flipFields]

end Fields

/-- `[null, true]` with its first field descending: reversed twice, the code comes back. -/
theorem reverseCollate_reverseCollate_null_true :
    (newCodec.arrayLenPrefix = false ∧ [true, false].length ≤ [N1qlValue.null, .bool true].length ∧
      (n1ql2code newCodec (.array [.null, .bool true])).length < 2 ^ 63) ∧
    (reverseCollate newCodec (n1ql2code newCodec (.array [.null, .bool true])) [true, false] >>=
      fun code => reverseCollate newCodec code [true, false]) =
      .ok (n1ql2code newCodec (.array [.null, .bool true])) :=
  ⟨⟨rfl, by decide, by decide⟩, reverseCollate_reverseCollate rfl [.null, .bool true] (by decide) (by decide)⟩

end Collatejson
