import GsiIndexing.Lib.Span
import GsiIndexing.Indexer.IndexKey

/-!
# Merging the ranges of a primary index scan (`scan_request.go`)

A scan of a primary index asks for docid ranges. `fillScans` turns each into a `Filter` (low
key, high key, `Inclusion`), sorts the filters by their lows (`Filters.Less`) and folds
`MergeFiltersForPrimary` over them. A filter that starts past the last scan, or meets it at a
point neither includes, becomes a new scan. Any other grows the last scan: each end becomes
the outer of the two, with its own inclusion, and an end the two share is included if either
includes it (`lowInclude`, `highInclude`, `inclusionMatrix`).

Read as `Span`s of keys, `MergeFiltersForPrimary` is `Span.push`
(`span_mergeFiltersForPrimary`), so the fold inherits `Span.foldl_push`:

* **`mergeFiltersForPrimary_disjoint_union`** — over filters sorted by their lows, each with
  its low below its high or one key included at both ends, the scans are ascending, pairwise
  disjoint sets of docids, and their union is the union of the filters' ranges.
* **`mergeFiltersForPrimary_empty_filter`** — the proviso is needed: after `(a, c)` the empty
  filter `[a, a)` grows the scan to `[a, c)`, which holds `a`. `fillScans` builds no such
  filter: a range from a key to itself, not included at both ends, becomes an empty scan.
-/

namespace Indexer

open Go

/-- `Inclusion` (`index_reader.go`): which ends of a range belong to it. -/
inductive Inclusion where
  | neither
  | low
  | high
  | both
  deriving DecidableEq, Repr

/-- The low end is included: `Low` or `Both`. -/
def Inclusion.lowIn (incl : Inclusion) : Bool := incl == .low || incl == .both

/-- The high end is included: `High` or `Both`. -/
def Inclusion.highIn (incl : Inclusion) : Bool := incl == .high || incl == .both

/-- `ScanFilterType`. -/
inductive ScanFilterType where
  | allReq
  | lookupReq
  | rangeReq
  | filterRangeReq
  deriving DecidableEq, Repr

/-- `Filter`, with the fields a primary index's scan reads. -/
structure Filter where
  low : IndexKey
  high : IndexKey
  inclusion : Inclusion
  deriving DecidableEq, Repr

/-- `Scan`, with the fields `MergeFiltersForPrimary` reads and writes. -/
structure Scan where
  low : IndexKey
  high : IndexKey
  incl : Inclusion
  scanType : ScanFilterType
  deriving DecidableEq, Repr

/-- `inclusionMatrix`, indexed by `inclLow` and then `inclHigh`. -/
def inclusionMatrix : List (List Inclusion) := [[.neither, .high], [.low, .both]]

/-- The loop `lowInclude` and `highInclude` share: 1 when one of `inclusions` is `incl` or
`Both`, else 0. -/
def includeOf (incl : Inclusion) (inclusions : List Inclusion) : Nat :=
  if inclusions.any fun i => i == incl || i == .both then 1 else 0

/-- `lowInclude`. -/
def lowInclude (lowInclusions : List Inclusion) : Nat := includeOf .low lowInclusions

/-- `highInclude`. -/
def highInclude (highInclusions : List Inclusion) : Nat := includeOf .high highInclusions

/-- The `getNewScans` closure: the filter appended as a range scan. -/
def getNewScans (scans : List Scan) (f : Filter) : List Scan :=
  scans ++ [⟨f.low, f.high, f.inclusion, .rangeReq⟩]

/-- One end of a merged scan and whether it is included (`low, inclLow` or `high, inclHigh`):
the end both share, included if either includes it; otherwise `e1` when `outer` holds of the
comparison, else `e2`, with its own inclusion. -/
def mergeEnd (outer : Int → Bool) (inclusionOf : List Inclusion → Nat)
    (e1 : IndexKey) (i1 : Inclusion) (e2 : IndexKey) (i2 : Inclusion) : IndexKey × Nat :=
  if comparePrefixIndexKey e1 e2 = 0 then (e1, inclusionOf [i1, i2])
  else if outer (comparePrefixIndexKey e1 e2) then (e1, inclusionOf [i1])
  else (e2, inclusionOf [i2])

/-- `MergeFiltersForPrimary`: add the filter `f2` to the scans built so far. -/
def mergeFiltersForPrimary (scans : List Scan) (f2 : Filter) : List Scan :=
  match scans.getLast? with
  | none => getNewScans scans f2
  | some f1 =>
    -- no merge: `f2` starts past `f1`, or the two meet at a point neither includes
    if comparePrefixIndexKey f2.low f1.high > 0 then getNewScans scans f2
    else if comparePrefixIndexKey f1.high f2.low = 0 ∧
        ¬(f1.incl = .high ∨ f1.incl = .both ∨ f2.inclusion = .low ∨ f2.inclusion = .both) then
      getNewScans scans f2
    else
      let (low, inclLow) := mergeEnd (fun c => c < 0) lowInclude f1.low f1.incl f2.low f2.inclusion
      let (high, inclHigh) :=
        mergeEnd (fun c => c > 0) highInclude f1.high f1.incl f2.high f2.inclusion
      let incl := (inclusionMatrix.getD inclLow []).getD inclHigh .neither
      scans.dropLast ++ [{ f1 with low := low, high := high, incl := incl }]

/-- `FilterLessThan`, the `Less` of `Filters` that `fillScans` sorts by. -/
def filterLessThan (x y : Filter) : Bool :=
  if x.low = minIndexKey then true
  else if x.low = maxIndexKey then false
  else if y.low = minIndexKey then false
  else if y.low = maxIndexKey then true
  else comparePrefixIndexKey x.low y.low < 0

/-! ## What a range holds -/

/-- The docids a range holds: the entries from `low` to `high` by `Compare`, an end kept when
`inclusion` includes it, as `memdbSnapshot.Iterate` reads them with `compareExact`. -/
def InRange (low high : IndexKey) (inclusion : Inclusion) (docid : Bytes) : Prop :=
  (low.compareEntry docid < 0 ∨ low.compareEntry docid = 0 ∧ inclusion.lowIn = true) ∧
    (high.compareEntry docid > 0 ∨ high.compareEntry docid = 0 ∧ inclusion.highIn = true)

instance (low high : IndexKey) (inclusion : Inclusion) (docid : Bytes) :
    Decidable (InRange low high inclusion docid) :=
  inferInstanceAs (Decidable (_ ∧ _))

/-- The docids a scan reads. -/
def Scan.Contains (s : Scan) (docid : Bytes) : Prop := InRange s.low s.high s.incl docid

/-- The docids a filter asks for. -/
def Filter.Contains (f : Filter) (docid : Bytes) : Prop := InRange f.low f.high f.inclusion docid

instance (s : Scan) (docid : Bytes) : Decidable (s.Contains docid) :=
  inferInstanceAs (Decidable (InRange _ _ _ _))

instance (f : Filter) (docid : Bytes) : Decidable (f.Contains docid) :=
  inferInstanceAs (Decidable (InRange _ _ _ _))

/-- A scan as a span of keys. -/
def Scan.span (s : Scan) : Span IndexKey := ⟨s.low, s.high, s.incl.lowIn, s.incl.highIn⟩

/-- A filter as a span of keys. -/
def Filter.span (f : Filter) : Span IndexKey := ⟨f.low, f.high, f.inclusion.lowIn, f.inclusion.highIn⟩

/-- A range holds the docids whose keys its span holds. -/
theorem inRange_iff_mem {low high : IndexKey} {inclusion : Inclusion} {d : Bytes} :
    InRange low high inclusion d ↔
      (⟨low, high, inclusion.lowIn, inclusion.highIn⟩ : Span IndexKey).Mem (.primaryKey d) := by
  unfold InRange Span.Mem Span.Above Span.Below
  simp only [compareEntry_eq]
  apply and_congr
  · rw [lt_iff_comparePrefixIndexKey, eq_iff_comparePrefixIndexKey]
  · rw [gt_iff_comparePrefixIndexKey, @eq_comm _ (IndexKey.primaryKey d) high,
      eq_iff_comparePrefixIndexKey]

theorem Scan.contains_iff (s : Scan) (d : Bytes) : s.Contains d ↔ s.span.Mem (.primaryKey d) :=
  inRange_iff_mem

theorem Filter.contains_iff (f : Filter) (d : Bytes) : f.Contains d ↔ f.span.Mem (.primaryKey d) :=
  inRange_iff_mem

/-! ## `MergeFiltersForPrimary` is `Span.push` -/

section Merge

theorem includeOf_eq (incl : Inclusion) (inclusions : List Inclusion) :
    includeOf incl inclusions = (inclusions.any fun i => i == incl || i == .both).toNat := by
  unfold includeOf
  cases inclusions.any fun i => i == incl || i == .both <;> rfl

theorem lowIn_inclusionMatrix (a b : Bool) :
    ((inclusionMatrix.getD a.toNat []).getD b.toNat .neither).lowIn = a := by
  cases a <;> cases b <;> rfl

theorem highIn_inclusionMatrix (a b : Bool) :
    ((inclusionMatrix.getD a.toNat []).getD b.toNat .neither).highIn = b := by
  cases a <;> cases b <;> rfl

/-- The merged low end is the lower low; a low both share is included if either includes it. -/
theorem mergeEnd_low (l1 : IndexKey) (i1 : Inclusion) (l2 : IndexKey) (i2 : Inclusion) :
    mergeEnd (fun c => c < 0) lowInclude l1 i1 l2 i2 =
      (min l1 l2, (decide (l1 ≤ l2) && i1.lowIn || decide (l2 ≤ l1) && i2.lowIn).toNat) := by
  unfold mergeEnd
  simp only [lowInclude, includeOf_eq, Inclusion.lowIn, List.any_cons, List.any_nil, Bool.or_false,
    decide_eq_true_eq]
  split_ifs with h1 h2
  · obtain rfl := eq_of_comparePrefixIndexKey_eq_zero h1
    simp
  · have h : l1 < l2 := h2
    simp [h.le, not_le.mpr h]
  · have h : l2 < l1 := gt_iff_comparePrefixIndexKey.mpr (by omega)
    simp [h.le, not_le.mpr h]

/-- The merged high end is the higher high; a high both share is included if either includes
it. -/
theorem mergeEnd_high (h1 : IndexKey) (i1 : Inclusion) (h2 : IndexKey) (i2 : Inclusion) :
    mergeEnd (fun c => c > 0) highInclude h1 i1 h2 i2 =
      (max h1 h2, (decide (h2 ≤ h1) && i1.highIn || decide (h1 ≤ h2) && i2.highIn).toNat) := by
  unfold mergeEnd
  simp only [highInclude, includeOf_eq, Inclusion.highIn, List.any_cons, List.any_nil,
    Bool.or_false, decide_eq_true_eq]
  split_ifs with hc1 hc2
  · obtain rfl := eq_of_comparePrefixIndexKey_eq_zero hc1
    simp
  · have h : h2 < h1 := gt_iff_comparePrefixIndexKey.mpr hc2
    simp [h.le, not_le.mpr h]
  · have h : h1 < h2 := lt_iff_comparePrefixIndexKey.mpr (by omega)
    simp [h.le, not_le.mpr h]

/-- The no-merge test of `MergeFiltersForPrimary` is `Span.Apart`. -/
theorem apart_span_iff (f1 : Scan) (f2 : Filter) :
    f1.span.Apart f2.span ↔ comparePrefixIndexKey f2.low f1.high > 0 ∨
      comparePrefixIndexKey f1.high f2.low = 0 ∧
        ¬(f1.incl = .high ∨ f1.incl = .both ∨ f2.inclusion = .low ∨ f2.inclusion = .both) := by
  have hincl : (f1.incl.highIn = false ∧ f2.inclusion.lowIn = false) ↔
      ¬(f1.incl = .high ∨ f1.incl = .both ∨ f2.inclusion = .low ∨ f2.inclusion = .both) := by
    cases f1.incl <;> cases f2.inclusion <;> decide
  rw [Span.Apart, ← hincl, ← gt_iff_comparePrefixIndexKey, ← eq_iff_comparePrefixIndexKey]
  rfl

/-- **Refinement.** On spans, `MergeFiltersForPrimary` is `Span.push`. -/
theorem span_mergeFiltersForPrimary (scans : List Scan) (f : Filter) :
    (mergeFiltersForPrimary scans f).map Scan.span = Span.push (scans.map Scan.span) f.span := by
  rcases scans.eq_nil_or_concat with rfl | ⟨L, s, rfl⟩
  · rfl
  rw [List.concat_eq_append, List.map_append, List.map_singleton, Span.push_concat]
  simp only [mergeFiltersForPrimary, List.getLast?_concat, List.dropLast_concat]
  by_cases hapart : s.span.Apart f.span
  · -- both append the filter
    rw [if_pos hapart]
    have h := (apart_span_iff s f).mp hapart
    split_ifs <;> simp_all [getNewScans, Scan.span, Filter.span]
  · -- both grow the last scan to the hull
    rw [if_neg hapart]
    have h := mt (apart_span_iff s f).mpr hapart
    rw [if_neg fun h' => h (.inl h'), if_neg fun h' => h (.inr h'), mergeEnd_low, mergeEnd_high]
    simp only [List.map_append, List.map_singleton, Scan.span, lowIn_inclusionMatrix,
      highIn_inclusionMatrix]
    rfl

/-- The fold of `fillScans`, on spans, is a fold of `Span.push`. -/
theorem span_foldl_mergeFiltersForPrimary (fs : List Filter) (scans : List Scan) :
    (fs.foldl mergeFiltersForPrimary scans).map Scan.span =
      (fs.map Filter.span).foldl Span.push (scans.map Scan.span) := by
  induction fs generalizing scans with
  | nil => rfl
  | cons f fs ih => rw [List.foldl_cons, ih, span_mergeFiltersForPrimary]; rfl

end Merge

/-! ## The scans of sorted filters -/

/-- A filter from a low below its high, or from a key to itself included at both ends, is a
proper span. -/
theorem proper_span {f : Filter} (h : comparePrefixIndexKey f.low f.high < 0 ∨
    comparePrefixIndexKey f.low f.high = 0 ∧ f.inclusion = .both) : f.span.Proper := by
  rcases h with h | ⟨h, hb⟩
  · exact .inl h
  · exact .inr ⟨eq_of_comparePrefixIndexKey_eq_zero h, by simp [Filter.span, hb, Inclusion.lowIn,
      Inclusion.highIn]⟩

/-- **Primary scan merging.** Fold `MergeFiltersForPrimary` over filters sorted by their lows,
each from a low below its high or from a key to itself included at both ends: the scans are
ascending and pairwise disjoint as sets of docids, and together hold exactly the docids the
filters ask for. -/
theorem mergeFiltersForPrimary_disjoint_union {fs sorted : List Filter} (hperm : sorted.Perm fs)
    (hsorted : sorted.Pairwise fun f g => comparePrefixIndexKey f.low g.low ≤ 0)
    (hproper : ∀ f ∈ fs, comparePrefixIndexKey f.low f.high < 0 ∨
      comparePrefixIndexKey f.low f.high = 0 ∧ f.inclusion = .both) :
    (sorted.foldl mergeFiltersForPrimary []).Pairwise
        (fun s t => ∀ d d', s.Contains d → t.Contains d' → compare d d' = .lt) ∧
      ∀ d, (∃ s ∈ sorted.foldl mergeFiltersForPrimary [], s.Contains d) ↔ ∃ f ∈ fs, f.Contains d := by
  -- the filters as spans: sorted by their lows, and proper
  have hspans : (sorted.map Filter.span).Pairwise fun t u => t.lo ≤ u.lo :=
    List.pairwise_map.mpr (hsorted.imp le_iff_comparePrefixIndexKey.mpr)
  have hproper' : ∀ t ∈ sorted.map Filter.span, t.Proper := by
    intro t ht
    obtain ⟨f, hf, rfl⟩ := List.mem_map.mp ht
    exact proper_span (hproper f (hperm.subset hf))
  obtain ⟨hasc, hunion⟩ := Span.foldl_push hspans hproper'
  have hfold := span_foldl_mergeFiltersForPrimary sorted []
  rw [List.map_nil] at hfold
  rw [← hfold, List.pairwise_map] at hasc
  refine ⟨hasc.imp fun h d d' hd hd' => ?_, fun d => ?_⟩
  · exact primaryKey_lt_primaryKey.mp
      (h _ _ ((Scan.contains_iff _ d).mp hd) ((Scan.contains_iff _ d').mp hd'))
  · have h := hunion (.primaryKey d)
    rw [← hfold] at h
    simp only [List.mem_map, exists_exists_and_eq_and] at h
    simp only [Scan.contains_iff, Filter.contains_iff, h]
    exact ⟨fun ⟨f, hf, hd⟩ => ⟨f, hperm.subset hf, hd⟩,
      fun ⟨f, hf, hd⟩ => ⟨f, hperm.symm.subset hf, hd⟩⟩

/-- The ranges `[1, 3]` and `(2, ∞)` overlap, and become the one scan `[1, ∞)`. -/
theorem mergeFiltersForPrimary_overlapping :
    let fs : List Filter :=
      [⟨.primaryKey [1], .primaryKey [3], .both⟩, ⟨.primaryKey [2], maxIndexKey, .neither⟩]
    (fs.Perm fs ∧ (fs.Pairwise fun f g => comparePrefixIndexKey f.low g.low ≤ 0) ∧
      ∀ f ∈ fs, comparePrefixIndexKey f.low f.high < 0 ∨
        comparePrefixIndexKey f.low f.high = 0 ∧ f.inclusion = .both) ∧
    ((fs.foldl mergeFiltersForPrimary []).Pairwise
        (fun s t => ∀ d d', s.Contains d → t.Contains d' → compare d d' = .lt) ∧
      ∀ d, (∃ s ∈ fs.foldl mergeFiltersForPrimary [], s.Contains d) ↔ ∃ f ∈ fs, f.Contains d) :=
  ⟨⟨List.Perm.refl _, by decide, by decide⟩,
    mergeFiltersForPrimary_disjoint_union (List.Perm.refl _) (by decide) (by decide)⟩

example : [⟨.primaryKey [1], .primaryKey [3], .both⟩, ⟨.primaryKey [2], maxIndexKey, .neither⟩].foldl
    mergeFiltersForPrimary [] = [⟨.primaryKey [1], maxIndexKey, .low, .rangeReq⟩] := by decide

/-- **An empty filter can widen a scan.** The filters `(1, 3)` and `[1, 1)` are sorted by their
lows, which are equal, and `sort.Sort` keeps them so: the second is not `Less` than the first.
The second holds no docid, yet it grows the scan to `[1, 3)`, which holds the docid `1` that
no filter asks for. -/
theorem mergeFiltersForPrimary_empty_filter :
    let fs : List Filter :=
      [⟨.primaryKey [1], .primaryKey [3], .neither⟩, ⟨.primaryKey [1], .primaryKey [1], .low⟩]
    (fs.Pairwise fun f g => comparePrefixIndexKey f.low g.low ≤ 0) ∧
      filterLessThan ⟨.primaryKey [1], .primaryKey [1], .low⟩
        ⟨.primaryKey [1], .primaryKey [3], .neither⟩ = false ∧
      (∀ f ∈ fs, comparePrefixIndexKey f.low f.high ≤ 0) ∧
      fs.foldl mergeFiltersForPrimary [] = [⟨.primaryKey [1], .primaryKey [3], .low, .rangeReq⟩] ∧
      (∃ s ∈ fs.foldl mergeFiltersForPrimary [], s.Contains [1]) ∧ ¬∃ f ∈ fs, f.Contains [1] := by
  decide

end Indexer
