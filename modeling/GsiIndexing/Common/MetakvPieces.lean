import GsiIndexing.Common.MetakvGsi

/-!
# What the big-value functions store and read back

`MetakvBigValueSet` writes piece `i` of a text under `path/i` for every `i` below the number
of pieces, and touches no other key (`lookup_setLoop_piece`, `lookup_setLoop_of_ne`). When the
children of `path/` are exactly the pieces `0 … n-1`, `MetakvBigValueGet` joins them in order,
whatever order metakv lists them in (`metakvBigValueGet_of_holdsPieces`).

Nothing removes the pieces of an earlier value that the new one does not overwrite: after a
text of more pieces, a text of fewer reads back with the old pieces after it
(`metakvBigValueGet_shrink`).
-/

namespace Common

open Go Digits

/-! ## Piece keys -/

theorem ofNat_eq_of_map_digitByte_eq {m n : Nat}
    (h : (ofNat m).map digitByte = (ofNat n).map digitByte) : ofNat m = ofNat n := by
  -- `byteDigit` reads the digits back
  have hback : ∀ ds : List Nat, AllDigits ds → (ds.map digitByte).map byteDigit = ds.map some := by
    intro ds hds
    rw [List.map_map]
    exact List.map_congr_left fun d hd => byteDigit_digitByte (hds d hd)
  have h' := congrArg (List.map byteDigit) h
  rw [hback _ (allDigits_ofNat m), hback _ (allDigits_ofNat n)] at h'
  exact List.map_injective_iff.mpr (Option.some_injective _) h'

theorem itoa_natCast_inj {m n : Nat} (h : itoa m = itoa n) : m = n := by
  rw [itoa_natCast, itoa_natCast] at h
  have h' := congrArg value (ofNat_eq_of_map_digitByte_eq h)
  rwa [value_ofNat, value_ofNat] at h'

theorem slash_not_mem_itoa (n : Nat) : slash ∉ itoa n := by
  rw [itoa_natCast]
  intro h
  exact absurd (mem_map_digitByte h).1 (by decide)

theorem piecePath_inj {p : Bytes} {i j : Nat} (h : piecePath p i = piecePath p j) : i = j := by
  simp only [piecePath, List.append_cancel_left_eq, List.cons.injEq, true_and] at h
  exact itoa_natCast_inj h

theorem isPrefixOf_piecePath (p : Bytes) (i : Nat) :
    (p ++ [slash]).isPrefixOf (piecePath p i) = true := by
  rw [List.isPrefixOf_iff_prefix]
  exact ⟨itoa i, by simp [piecePath]⟩

theorem idxOf?_append_cons {l r : Bytes} {b : UInt8} (h : b ∉ l) :
    (l ++ b :: r).idxOf? b = some l.length := by
  induction l with
  | nil => simp [List.idxOf?_cons]
  | cons c l ih =>
    simp only [List.mem_cons, not_or] at h
    rw [List.cons_append, List.idxOf?_cons, if_neg (by simpa using Ne.symm h.1), ih h.2]
    rfl

/-- `strings.LastIndex` finds the `/` before the index. -/
theorem lastIndexOf_piecePath (p : Bytes) (i : Nat) : lastIndexOf (piecePath p i) slash = some p.length := by
  have hrev : (piecePath p i).reverse = (itoa i).reverse ++ slash :: p.reverse := by simp [piecePath]
  have hno : slash ∉ (itoa i).reverse := by simpa using slash_not_mem_itoa i
  simp only [lastIndexOf, hrev, idxOf?_append_cons hno, Option.map_some, List.length_reverse]
  simp [piecePath]

/-- `strconv.Atoi` reads the index back. -/
theorem atoi_itoa_natCast {i : Nat} (h : i < 2 ^ 63) : atoi (itoa i) = ((i : Int), none) :=
  parseInt_itoa (by omega) (by exact_mod_cast h)

theorem length_itoa_natCast_pos (i : Nat) : 0 < (itoa i).length := by
  rw [itoa_natCast, List.length_map]
  exact ofNat_length_pos i

/-! ## The pieces of a text -/

/-- Piece `i` of a text: what `MetakvBigValueSet` writes under `path/i`. -/
def piece (buf : Bytes) (i : Nat) : Bytes := (buf.drop (metakvSizeLimit * i)).take metakvSizeLimit

/-- The number of pieces `MetakvBigValueSet` cuts a text into. -/
def pieceCount (buf : Bytes) : Nat := (buf.length + metakvSizeLimit - 1) / metakvSizeLimit

theorem pieceCount_drop {buf : Bytes} (h : buf ≠ []) :
    pieceCount buf = pieceCount (buf.drop metakvSizeLimit) + 1 := by
  have hpos : 0 < buf.length := List.length_pos_iff.mpr h
  simp only [pieceCount, List.length_drop, metakvSizeLimit]
  omega

theorem piece_drop (buf : Bytes) (i : Nat) :
    piece (buf.drop metakvSizeLimit) i = piece buf (i + 1) := by
  simp only [piece, List.drop_drop, Nat.mul_succ, Nat.add_comm]

theorem setLoop_nil (path : Bytes) (count : Nat) (s : Store) : setLoop path count [] s = s := by
  rw [setLoop]
  simp

/-- One round of the loop: the first piece under `path/count`, the rest after it. -/
theorem setLoop_of_ne_nil (path : Bytes) (count : Nat) {buf : Bytes} (h : buf ≠ []) (s : Store) :
    setLoop path count buf s = setLoop path (count + 1) (buf.drop metakvSizeLimit)
      (s.set (piecePath path count) (buf.take metakvSizeLimit)) := by
  have hpos : 0 < buf.length := List.length_pos_iff.mpr h
  rw [setLoop, dif_pos hpos]
  dsimp only
  -- a last piece shorter than the limit is all that is left
  have hmin : buf.drop (min buf.length metakvSizeLimit) = buf.drop metakvSizeLimit ∧
      buf.take (min buf.length metakvSizeLimit) = buf.take metakvSizeLimit := by
    rcases le_total buf.length metakvSizeLimit with hle | hle
    · rw [Nat.min_eq_left hle, List.drop_length, List.drop_of_length_le hle, List.take_length,
        List.take_of_length_le hle]
      exact ⟨rfl, rfl⟩
    · rw [Nat.min_eq_right hle]
      exact ⟨rfl, rfl⟩
  rw [hmin.1, hmin.2]

theorem eq_nil_of_pieceCount_eq_zero {buf : Bytes} (h : pieceCount buf = 0) : buf = [] := by
  by_contra hne
  rw [pieceCount_drop hne] at h
  omega

theorem ne_nil_of_pieceCount_eq_succ {buf : Bytes} {n : Nat} (h : pieceCount buf = n + 1) : buf ≠ [] := by
  rintro rfl
  simp [pieceCount, metakvSizeLimit] at h

/-- The loop writes no key but `path/j` for `j` from `count` on. -/
theorem lookup_setLoop_of_ne (path : Bytes) (buf : Bytes) :
    ∀ (count : Nat) (s : Store) (k : Bytes), (∀ j, count ≤ j → k ≠ piecePath path j) →
      (setLoop path count buf s).lookup k = s.lookup k := by
  induction h : pieceCount buf generalizing buf with
  | zero =>
    intro count s k _
    rw [eq_nil_of_pieceCount_eq_zero h, setLoop_nil]
  | succ n ih =>
    intro count s k hk
    have hne := ne_nil_of_pieceCount_eq_succ h
    have hn : pieceCount (buf.drop metakvSizeLimit) = n := by rw [pieceCount_drop hne] at h; omega
    rw [setLoop_of_ne_nil path count hne, ih _ hn (count + 1) _ k fun j hj => hk j (by omega)]
    exact AList.lookup_insert_ne (hk count le_rfl)

/-- **The loop writes piece `i` under `path/(count + i)`.** -/
theorem lookup_setLoop_piece (path : Bytes) (buf : Bytes) :
    ∀ (count i : Nat) (s : Store), (setLoop path count buf s).lookup (piecePath path (count + i)) =
      if i < pieceCount buf then some (piece buf i) else s.lookup (piecePath path (count + i)) := by
  induction h : pieceCount buf generalizing buf with
  | zero =>
    intro count i s
    simp [eq_nil_of_pieceCount_eq_zero h, setLoop_nil]
  | succ n ih =>
    intro count i s
    have hne := ne_nil_of_pieceCount_eq_succ h
    have hn : pieceCount (buf.drop metakvSizeLimit) = n := by rw [pieceCount_drop hne] at h; omega
    rw [setLoop_of_ne_nil path count hne]
    cases i with
    | zero =>
      -- piece `0` is written first; the later rounds write other keys
      have hother : ∀ j, count + 1 ≤ j → piecePath path (count + 0) ≠ piecePath path j :=
        fun j hj he => by have := piecePath_inj he; omega
      rw [lookup_setLoop_of_ne path _ (count + 1) _ _ hother, if_pos (by omega)]
      exact AList.lookup_insert _
    | succ i =>
      rw [show count + (i + 1) = count + 1 + i by omega, ih (buf.drop metakvSizeLimit) hn (count + 1) i,
        piece_drop]
      by_cases hi : i < n
      · simp [hi]
      · have hne' : piecePath path (count + 1 + i) ≠ piecePath path count := fun he => by
          have := piecePath_inj he
          omega
        simp [hi, Store.set, AList.lookup_insert_ne hne']

/-! ## Reading the pieces back -/

/-- The children of `path/` are the pieces `0 … n-1` and nothing else. -/
def HoldsPieces (s : Store) (p : Bytes) (n : Nat) : Prop :=
  ∀ k, (p ++ [slash]).isPrefixOf k = true → (k ∈ s ↔ ∃ i < n, k = piecePath p i)

theorem mem_listAllChildren {d k v : Bytes} {s : Store} :
    (k, v) ∈ s.listAllChildren d ↔ d.isPrefixOf k = true ∧ s.lookup k = some v := by
  simp only [Store.listAllChildren, List.mem_map, List.mem_filter]
  constructor
  · rintro ⟨⟨k', v'⟩, ⟨hmem, hpre⟩, he⟩
    simp only [Prod.mk.injEq] at he
    obtain ⟨rfl, rfl⟩ := he
    exact ⟨hpre, AList.mem_lookup_iff.mpr hmem⟩
  · rintro ⟨hpre, hl⟩
    exact ⟨⟨k, v⟩, ⟨AList.mem_lookup_iff.mp hl, hpre⟩, rfl⟩

theorem nodup_keys_listAllChildren (d : Bytes) (s : Store) :
    ((s.listAllChildren d).map Prod.fst).Nodup := by
  simp only [Store.listAllChildren, List.map_map]
  exact s.keys_nodup.sublist (List.filter_sublist.map _)

/-- The index `MetakvBigValueGet` reads from a child of `p/`. -/
def pieceIndex (p k : Bytes) : Nat := (atoi (k.drop (p.length + 1))).1.toNat

theorem pieceIndex_piecePath (p : Bytes) {i : Nat} (h : i < 2 ^ 63) : pieceIndex p (piecePath p i) = i := by
  simp [pieceIndex, piecePath, atoi_itoa_natCast h]

/-- `raws[index] = entry.Value`. -/
def placeStep (p : Bytes) (raws : List (Option Bytes)) (e : Bytes × Bytes) : List (Option Bytes) :=
  raws.set (pieceIndex p e.1) (some e.2)

/-- One child `p/i` of the loop, with `i` below the number of children. -/
theorem placePieces_cons_piecePath {n i : Nat} (hi : i < n) (hn : n < 2 ^ 63) (p v : Bytes)
    (rest : List (Bytes × Bytes)) (raws : List (Option Bytes)) :
    placePieces n ((piecePath p i, v) :: rest) raws = placePieces n rest (raws.set i (some v)) := by
  have hloc : p.length ≠ (piecePath p i).length - 1 := by
    have := length_itoa_natCast_pos i
    simp only [piecePath, List.length_append, List.length_cons]
    omega
  have hdrop : (piecePath p i).drop (p.length + 1) = itoa i := by simp [piecePath]
  rw [placePieces, lastIndexOf_piecePath]
  simp only [if_neg hloc, hdrop, atoi_itoa_natCast (show i < 2 ^ 63 by omega)]
  rw [if_neg (by omega), if_neg (by omega), Int.toNat_natCast]

/-- Over children that are all pieces, the loop places each at its index. -/
theorem placePieces_eq_foldl {p : Bytes} {n : Nat} (hn : n < 2 ^ 63) :
    ∀ (L : List (Bytes × Bytes)) (raws : List (Option Bytes)), (∀ e ∈ L, ∃ i < n, e.1 = piecePath p i) →
      placePieces n L raws = .ok (some (L.foldl (placeStep p) raws))
  | [], _, _ => rfl
  | (k, v) :: rest, raws, hL => by
    obtain ⟨i, hi, hk⟩ := hL (k, v) List.mem_cons_self
    simp only at hk
    subst hk
    rw [placePieces_cons_piecePath hi hn, List.foldl_cons, placeStep, pieceIndex_piecePath p (by omega)]
    exact placePieces_eq_foldl hn rest _ fun e he => hL e (List.mem_cons_of_mem _ he)

/-- Placing distinct pieces does not depend on their order. -/
theorem foldl_placeStep_perm {p : Bytes} {L L' : List (Bytes × Bytes)} (hperm : L.Perm L')
    (hkeys : (L.map Prod.fst).Nodup) (hL : ∀ e ∈ L, ∃ i < 2 ^ 63, e.1 = piecePath p i)
    (raws : List (Option Bytes)) : L.foldl (placeStep p) raws = L'.foldl (placeStep p) raws := by
  refine hperm.foldl_eq' (fun x hx y hy r => ?_) raws
  by_cases hxy : x = y
  · rw [hxy]
  · -- distinct children have distinct keys, hence distinct indices
    have hk : x.1 ≠ y.1 := fun h => hxy (List.inj_on_of_nodup_map hkeys hx hy h)
    obtain ⟨i, hi, hxi⟩ := hL x hx
    obtain ⟨j, hj, hyj⟩ := hL y hy
    have hij : pieceIndex p x.1 ≠ pieceIndex p y.1 := by
      rw [hxi, hyj, pieceIndex_piecePath p hi, pieceIndex_piecePath p hj]
      rintro rfl
      exact hk (hxi.trans hyj.symm)
    exact List.set_comm _ _ hij

/-- The pieces `0 … m-1` in order fill the first `m` places. -/
theorem foldl_placeStep_range (p : Bytes) (val : Nat → Bytes) :
    ∀ (m : Nat) (raws : List (Option Bytes)), m ≤ raws.length → m < 2 ^ 63 →
      ((List.range m).map fun i => (piecePath p i, val i)).foldl (placeStep p) raws =
        (List.range m).map (fun i => some (val i)) ++ raws.drop m
  | 0, raws, _, _ => by simp
  | m + 1, raws, hm, hb => by
    rw [List.range_succ, List.map_append, List.foldl_append,
      foldl_placeStep_range p val m raws (by omega) (by omega)]
    simp only [List.map_cons, List.map_nil, List.foldl_cons, List.foldl_nil, placeStep,
      pieceIndex_piecePath p (show m < 2 ^ 63 by omega)]
    -- the next place is the head of what is still unfilled
    have htail : (raws.drop m).set 0 (some (val m)) = some (val m) :: raws.drop (m + 1) := by
      rw [List.drop_eq_getElem_cons (show m < raws.length by omega), List.set_cons_zero]
    rw [List.set_append_right _ _ (by simp), List.length_map, List.length_range, Nat.sub_self, htail]
    simp

theorem mapM_some {α β : Type} (f : α → β) (l : List α) : l.mapM (fun a => some (f a)) = some (l.map f) := by
  induction l with
  | nil => rfl
  | cons a l ih => simp [ih]

/-- **`MetakvBigValueGet` joins the pieces in order** when the children of `p/` are exactly
the pieces `0 … n-1`, in whatever order metakv lists them. -/
theorem metakvBigValueGet_of_holdsPieces {s : Store} {p : Bytes} {n : Nat} (hp : p ≠ [])
    (hlast : p.getLast? ≠ some slash) (hn : 0 < n) (hbound : n < 2 ^ 63) (h : HoldsPieces s p n) :
    metakvBigValueGet p s =
      .ok (some ((List.range n).flatMap fun i => (s.lookup (piecePath p i)).getD [])) := by
  set val : Nat → Bytes := fun i => (s.lookup (piecePath p i)).getD [] with hval
  have hws : withSlash p = p ++ [slash] := by simp [withSlash, hlast]
  -- every piece is present
  have hlookup : ∀ i < n, s.lookup (piecePath p i) = some (val i) := by
    intro i hi
    obtain ⟨w, hw⟩ := Option.isSome_iff_exists.mp (AList.lookup_isSome.mpr
      ((h _ (isPrefixOf_piecePath p i)).mpr ⟨i, hi, rfl⟩))
    simp [hval, hw]
  -- the children are the pieces, in some order
  have hperm : (s.listAllChildren (p ++ [slash])).Perm
      ((List.range n).map fun i => (piecePath p i, val i)) := by
    have hnd₁ := (nodup_keys_listAllChildren (p ++ [slash]) s).of_map Prod.fst
    have hnd₂ : ((List.range n).map fun i => (piecePath p i, val i)).Nodup :=
      (List.nodup_range).map (fun i j he => piecePath_inj (congrArg Prod.fst he))
    refine (List.perm_ext_iff_of_nodup hnd₁ hnd₂).mpr fun ⟨k, v⟩ => ?_
    rw [mem_listAllChildren]
    simp only [List.mem_map, List.mem_range, Prod.mk.injEq]
    constructor
    · rintro ⟨hpre, hl⟩
      obtain ⟨i, hi, rfl⟩ := (h k hpre).mp (AList.lookup_isSome.mp (by simp [hl]))
      exact ⟨i, hi, rfl, by rw [hlookup i hi] at hl; exact Option.some.inj hl⟩
    · rintro ⟨i, hi, rfl, rfl⟩
      exact ⟨isPrefixOf_piecePath p i, hlookup i hi⟩
  have hlen : (s.listAllChildren (p ++ [slash])).length = n := by simpa using hperm.length_eq
  have hpieces : ∀ e ∈ s.listAllChildren (p ++ [slash]), ∃ i < n, e.1 = piecePath p i := by
    intro e he
    obtain ⟨i, hi, rfl⟩ := List.mem_map.mp (hperm.subset he)
    exact ⟨i, List.mem_range.mp hi, rfl⟩
  have hne : s.listAllChildren (p ++ [slash]) ≠ [] := by
    intro he
    rw [he] at hlen
    simp at hlen
    omega
  simp only [metakvBigValueGet, if_neg hp, hws, if_neg hne, hlen]
  rw [placePieces_eq_foldl hbound _ _ hpieces,
    foldl_placeStep_perm hperm (nodup_keys_listAllChildren _ s)
      (fun e he => by obtain ⟨i, hi, he⟩ := hpieces e he; exact ⟨i, by omega, he⟩),
    foldl_placeStep_range p val n _ (by simp) hbound]
  simp [mapM_some, List.flatMap_def]

/-! ## Setting a path again -/

/-- `MetakvBigValueSet` on a path without a `/` at its end runs the loop from piece `0`. -/
theorem metakvBigValueSet_eq {p : Bytes} (hp : p ≠ []) (hlast : p.getLast? ≠ some slash) (buf : Bytes)
    (s : Store) : metakvBigValueSet p buf s = .ok (setLoop p 0 buf s) := by
  simp [metakvBigValueSet, hp, hlast]

theorem lookup_setLoop_zero (p buf : Bytes) (i : Nat) (s : Store) :
    (setLoop p 0 buf s).lookup (piecePath p i) =
      if i < pieceCount buf then some (piece buf i) else s.lookup (piecePath p i) := by
  have h := lookup_setLoop_piece p buf 0 i s
  rwa [Nat.zero_add] at h

/-- After the loop the children of `p/` are the old ones and the new pieces. -/
theorem holdsPieces_setLoop {s : Store} {p : Bytes} {m : Nat} (h : HoldsPieces s p m) (buf : Bytes) :
    HoldsPieces (setLoop p 0 buf s) p (max m (pieceCount buf)) := by
  intro k hk
  by_cases hpiece : ∃ j, k = piecePath p j
  · obtain ⟨j, rfl⟩ := hpiece
    have hold : piecePath p j ∈ s ↔ j < m := by
      rw [h _ hk]
      exact ⟨fun ⟨i, hi, he⟩ => piecePath_inj he ▸ hi, fun hj => ⟨j, hj, rfl⟩⟩
    have hnew : piecePath p j ∈ setLoop p 0 buf s ↔ j < pieceCount buf ∨ piecePath p j ∈ s := by
      rw [← AList.lookup_isSome, ← AList.lookup_isSome, lookup_setLoop_zero]
      split_ifs with hj <;> simp [hj]
    rw [hnew, hold]
    constructor
    · rintro (hj | hj)
      · exact ⟨j, by omega, rfl⟩
      · exact ⟨j, by omega, rfl⟩
    · rintro ⟨i, hi, he⟩
      have := piecePath_inj he
      omega
  · -- a child that is no piece is neither written nor listed
    push Not at hpiece
    have hsame : (setLoop p 0 buf s).lookup k = s.lookup k :=
      lookup_setLoop_of_ne p buf 0 s k fun j _ => hpiece j
    rw [← AList.lookup_isSome, hsame, AList.lookup_isSome, h k hk]
    exact ⟨fun ⟨i, _, he⟩ => absurd he (hpiece i), fun ⟨i, _, he⟩ => absurd he (hpiece i)⟩

theorem length_le_pieceCount (buf : Bytes) : buf.length ≤ metakvSizeLimit * pieceCount buf := by
  simp only [pieceCount, metakvSizeLimit]
  omega

/-- The pieces from `j` on, joined, are the text from piece `j` on. -/
theorem flatMap_range_piece (buf : Bytes) (j : Nat) :
    ∀ n, ((List.range n).flatMap fun i => piece buf (j + i)) =
      (buf.drop (metakvSizeLimit * j)).take (metakvSizeLimit * n)
  | 0 => by simp
  | n + 1 => by
    rw [List.range_succ, List.flatMap_append, flatMap_range_piece buf j n, Nat.mul_succ, List.take_add]
    simp [piece, Nat.mul_add]

/-- Joining the pieces `0 … n-1` of a text gives the text back once `n` covers it. -/
theorem flatMap_range_piece_of_le {buf : Bytes} {n : Nat} (h : pieceCount buf ≤ n) :
    ((List.range n).flatMap fun i => piece buf i) = buf := by
  have hcover : buf.length ≤ metakvSizeLimit * n :=
    (length_le_pieceCount buf).trans (Nat.mul_le_mul_left _ h)
  simpa using (flatMap_range_piece buf 0 n).trans (List.take_of_length_le hcover)

/-- **`MetakvBigValueGet` after `MetakvBigValueSet`** over `m` earlier pieces: the new text,
then the earlier pieces from its piece count on. -/
theorem metakvBigValueGet_setLoop {s : Store} {p : Bytes} {m : Nat} (hp : p ≠ [])
    (hlast : p.getLast? ≠ some slash) (h : HoldsPieces s p m) {b : Bytes} (hb : 0 < pieceCount b)
    (hm : max m (pieceCount b) < 2 ^ 63) :
    metakvBigValueGet p (setLoop p 0 b s) = .ok (some (b ++ (List.range (m - pieceCount b)).flatMap
      fun i => (s.lookup (piecePath p (pieceCount b + i))).getD [])) := by
  -- the children are the first `max m (pieceCount b)` places: the new pieces, then the old
  have hsplit : List.range (max m (pieceCount b)) = List.range (pieceCount b) ++
      (List.range (m - pieceCount b)).map (pieceCount b + ·) := by
    rw [← List.range_add]
    congr 1
    omega
  rw [metakvBigValueGet_of_holdsPieces hp hlast (by omega) hm (holdsPieces_setLoop h b), hsplit,
    List.flatMap_append, List.flatMap_map]
  have hnew : ((List.range (pieceCount b)).flatMap fun i =>
      ((setLoop p 0 b s).lookup (piecePath p i)).getD []) = b := by
    rw [List.flatMap_congr fun i hi => by rw [lookup_setLoop_zero, if_pos (List.mem_range.mp hi), Option.getD_some]]
    exact flatMap_range_piece_of_le le_rfl
  have hold : ∀ i, ((setLoop p 0 b s).lookup (piecePath p (pieceCount b + i))).getD [] =
      (s.lookup (piecePath p (pieceCount b + i))).getD [] := fun i => by
    rw [lookup_setLoop_zero, if_neg (by omega)]
  simp only [hnew, hold]

/-- Over no earlier pieces, or fewer than the new text has, `MetakvBigValueGet` returns what
`MetakvBigValueSet` stored. -/
theorem metakvBigValueGet_set {s : Store} {p : Bytes} {m : Nat} (hp : p ≠ [])
    (hlast : p.getLast? ≠ some slash) (h : HoldsPieces s p m) {b : Bytes} (hb : 0 < pieceCount b)
    (hm : m ≤ pieceCount b) (hbound : pieceCount b < 2 ^ 63) :
    (metakvBigValueSet p b s >>= metakvBigValueGet p) = .ok (some b) := by
  rw [metakvBigValueSet_eq hp hlast]
  show metakvBigValueGet p (setLoop p 0 b s) = _
  rw [metakvBigValueGet_setLoop hp hlast h hb (by omega), Nat.sub_eq_zero_of_le hm]
  simp

/-- A first `MetakvBigValueSet` of one piece on an empty store is read back. -/
theorem metakvBigValueGet_set_fresh :
    (HoldsPieces ∅ [116] 0 ∧ 0 < pieceCount [49] ∧ 0 ≤ pieceCount [49] ∧ pieceCount [49] < 2 ^ 63) ∧
      (metakvBigValueSet [116] [49] ∅ >>= metakvBigValueGet [116]) = .ok (some [49]) :=
  ⟨⟨fun k _ => by simp, by decide, by decide, by decide⟩,
    metakvBigValueGet_set (m := 0) (by decide) (by decide) (fun k _ => by simp) (by decide) (by decide)
      (by decide)⟩

/-- **Setting a path again with a text of fewer pieces**: the pieces of the first text from the
new piece count on stay, and `MetakvBigValueGet` joins them after the new text. -/
theorem metakvBigValueGet_shrink {s : Store} {p : Bytes} (hp : p ≠ []) (hlast : p.getLast? ≠ some slash)
    (hempty : HoldsPieces s p 0) {a b : Bytes} (hb : 0 < pieceCount b) (hab : pieceCount b < pieceCount a)
    (ha : pieceCount a < 2 ^ 63) :
    (do
      let s ← metakvBigValueSet p a s
      let s ← metakvBigValueSet p b s
      metakvBigValueGet p s) = .ok (some (b ++ a.drop (metakvSizeLimit * pieceCount b))) := by
  have hfirst : HoldsPieces (setLoop p 0 a s) p (pieceCount a) := by
    simpa using holdsPieces_setLoop hempty a
  -- what is left of the first text is its pieces from `pieceCount b` on
  have hstale : ((List.range (pieceCount a - pieceCount b)).flatMap fun i =>
      ((setLoop p 0 a s).lookup (piecePath p (pieceCount b + i))).getD []) =
      a.drop (metakvSizeLimit * pieceCount b) := by
    rw [List.flatMap_congr fun i hi => by
      rw [lookup_setLoop_zero, if_pos (by have := List.mem_range.mp hi; omega), Option.getD_some],
      flatMap_range_piece a (pieceCount b)]
    apply List.take_of_length_le
    have hlen := length_le_pieceCount a
    rw [List.length_drop, Nat.mul_sub]
    omega
  simp only [metakvBigValueSet_eq hp hlast]
  show metakvBigValueGet p (setLoop p 0 b (setLoop p 0 a s)) = _
  rw [metakvBigValueGet_setLoop hp hlast hfirst hb (by omega), hstale]

/-- A text of two pieces, then one of one piece: the stale second piece is read after it. -/
theorem metakvBigValueGet_shrink_stale :
    (do
      let s ← metakvBigValueSet [116] (34 :: (List.replicate 2098 120 ++ [34])) ∅
      let s ← metakvBigValueSet [116] [49] s
      metakvBigValueGet [116] s) = .ok (some (49 :: (List.replicate 51 120 ++ [34]))) := by
  have hcount : pieceCount [49] = 1 ∧ pieceCount (34 :: (List.replicate 2098 120 ++ [34])) = 2 := by
    simp only [pieceCount, metakvSizeLimit, List.length_cons, List.length_append, List.length_replicate,
      List.length_nil]
    decide
  rw [metakvBigValueGet_shrink (by decide) (by decide) (fun k _ => by simp) (by omega) (by omega)
    (by omega), hcount.1]
  -- the stale piece is the last 52 bytes of the first text
  simp only [metakvSizeLimit, Nat.mul_one, List.drop_succ_cons]
  rw [List.drop_append_of_le_length (List.length_replicate ▸ by decide), List.drop_replicate]
  rfl

/-! ## Listing the paths -/

/-- The path `MetakvBigValueList` makes of a child's key `k` under `dirpath`: `k` up to its
last `/`, when that is more than `dirpath` and not all of `k`. -/
def listedPath (dirpath k : Bytes) : Option Bytes :=
  match lastIndexOf k slash with
  | none => none
  | some loc =>
    if loc = k.length - 1 then none
    else if (k.take loc).length ≤ dirpath.length then none else some (k.take loc)

theorem metakvBigValueList_eq {dirpath : Bytes} (hd : dirpath ≠ []) (s : Store) :
    metakvBigValueList dirpath s = .ok ((s.listAllChildren (withSlash dirpath)).foldl
      (fun paths e => match listedPath (withSlash dirpath) e.1 with
        | none => paths
        | some path => paths.insert path) []) := by
  simp only [metakvBigValueList, if_neg hd]
  congr 2
  funext paths e
  unfold listedPath
  cases lastIndexOf e.1 slash with
  | none => rfl
  | some loc =>
    simp only
    split_ifs <;> rfl

/-- A fold that inserts the paths some entries give: the paths before, and those. -/
theorem mem_foldl_insert {α : Type} (f : α → Option Bytes) (L : List α) (init : List Bytes)
    (x : Bytes) :
    x ∈ L.foldl (fun acc e => match f e with | none => acc | some p => acc.insert p) init ↔
      x ∈ init ∨ ∃ e ∈ L, f e = some x := by
  induction L generalizing init with
  | nil => simp
  | cons e L ih =>
    rw [List.foldl_cons, ih]
    cases hf : f e with
    | none => simp [hf]
    | some p =>
      simp only [List.mem_insert_iff, List.mem_cons, exists_eq_or_imp, hf, Option.some.injEq]
      tauto

theorem nodup_foldl_insert {α : Type} (f : α → Option Bytes) (L : List α) {init : List Bytes}
    (h : init.Nodup) :
    (L.foldl (fun acc e => match f e with | none => acc | some p => acc.insert p) init).Nodup := by
  induction L generalizing init with
  | nil => exact h
  | cons e L ih =>
    rw [List.foldl_cons]
    apply ih
    cases f e with
    | none => exact h
    | some p => exact h.insert

/-- **`MetakvBigValueList` lists each path once**, those the children of `dirpath/` give. -/
theorem metakvBigValueList_spec {dirpath : Bytes} (hd : dirpath ≠ []) (s : Store) :
    ∃ paths, metakvBigValueList dirpath s = .ok paths ∧ paths.Nodup ∧
      ∀ p, p ∈ paths ↔ ∃ k v, (withSlash dirpath).isPrefixOf k = true ∧ s.lookup k = some v ∧
        listedPath (withSlash dirpath) k = some p := by
  refine ⟨_, metakvBigValueList_eq hd s, nodup_foldl_insert _ _ List.nodup_nil, fun p => ?_⟩
  rw [mem_foldl_insert]
  simp only [List.not_mem_nil, false_or, Prod.exists]
  constructor
  · rintro ⟨k, v, hmem, hp⟩
    exact ⟨k, v, (mem_listAllChildren.1 hmem).1, (mem_listAllChildren.1 hmem).2, hp⟩
  · rintro ⟨k, v, hpre, hl, hp⟩
    exact ⟨k, v, mem_listAllChildren.2 ⟨hpre, hl⟩, hp⟩

/-- A piece's key is listed as its path, when that is more than the directory. -/
theorem listedPath_piecePath {dirpath p : Bytes} (i : Nat) (hp : dirpath.length < p.length) :
    listedPath dirpath (piecePath p i) = some p := by
  have hlen := length_itoa_natCast_pos i
  have htake : (piecePath p i).take p.length = p := by simp [piecePath]
  have hpl : (piecePath p i).length = p.length + 1 + (itoa i).length := by
    simp [piecePath]
    omega
  simp only [listedPath, lastIndexOf_piecePath, htake]
  rw [if_neg (by omega), if_neg (by omega)]

end Common
