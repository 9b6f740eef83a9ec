import Mathlib.Order.MinMax

/-!
# Spans — intervals with included or excluded ends, merged in order

A range read covers the points between a low and a high end of a linear order, each end
included or not: a `Span`, whose points are `Span.Mem`. Two spans that overlap, or meet at a
point one of them includes, have as union their `hull`, the span from the lower low to the
higher high. `push` adds a span to spans sorted by their lows: after the last one when the two
are `Apart`, otherwise into it, grown to the hull of the two.

* **`mem_hull`** — the hull of two spans, neither apart before the other, is their union.
* **`PushInv.step`** / **`mem_push`** — one push keeps the spans in order and adds to them
  exactly the pushed span's points, provided the pushed span is `Proper`.
* **`foldl_push`** — pushing proper spans sorted by their lows gives spans in ascending order,
  pairwise disjoint, whose union is the union of the spans pushed.

A span that is not proper breaks `mem_hull`: `[a, a)` is empty, yet a hull with `(a, c)` takes
its included low end.
-/

/-- An interval of a linear order, each of its two ends included or not. -/
structure Span (α : Type*) where
  lo : α
  hi : α
  loIn : Bool
  hiIn : Bool
  deriving DecidableEq, Repr

namespace Span

variable {α : Type*} [LinearOrder α]

/-- `x` lies above the low end, or on it when the low end is included. -/
def Above (s : Span α) (x : α) : Prop := s.lo < x ∨ s.lo = x ∧ s.loIn = true

/-- `x` lies below the high end, or on it when the high end is included. -/
def Below (s : Span α) (x : α) : Prop := x < s.hi ∨ x = s.hi ∧ s.hiIn = true

/-- The points of a span. -/
def Mem (s : Span α) (x : α) : Prop := s.Above x ∧ s.Below x

/-- The low end is not above the high end. -/
def Ordered (s : Span α) : Prop := s.lo ≤ s.hi

/-- The low end is below the high end, or the span is one point with both ends included. -/
def Proper (s : Span α) : Prop := s.lo < s.hi ∨ s.lo = s.hi ∧ s.loIn = true ∧ s.hiIn = true

/-- `s` ends below the low end of `t`, or on it with its own end left out: no point of `s`
reaches `t`, whether `t` includes its low end or not. -/
def EndsBefore (s t : Span α) : Prop := s.hi < t.lo ∨ s.hi = t.lo ∧ s.hiIn = false

/-- `s` ends below the low end of `t`, or they meet at a point neither includes. -/
def Apart (s t : Span α) : Prop := s.hi < t.lo ∨ s.hi = t.lo ∧ s.hiIn = false ∧ t.loIn = false

instance (s t : Span α) : Decidable (s.Apart t) := inferInstanceAs (Decidable (_ ∨ _))

/-- The span from the lower of two lows to the higher of two highs. An end is included when a
span whose own end it is includes it. -/
def hull (s t : Span α) : Span α where
  lo := min s.lo t.lo
  hi := max s.hi t.hi
  loIn := decide (s.lo ≤ t.lo) && s.loIn || decide (t.lo ≤ s.lo) && t.loIn
  hiIn := decide (t.hi ≤ s.hi) && s.hiIn || decide (s.hi ≤ t.hi) && t.hiIn

/-- Add `t` to spans sorted by their lows: after the last span when the two are apart,
otherwise into the last span, grown to the hull of the two. -/
def push (spans : List (Span α)) (t : Span α) : List (Span α) :=
  match spans.getLast? with
  | some s => if s.Apart t then spans ++ [t] else spans.dropLast ++ [s.hull t]
  | none => spans ++ [t]

section Ends

variable {r s t : Span α} {x y : α}

@[simp] theorem hull_lo : (s.hull t).lo = min s.lo t.lo := rfl
@[simp] theorem hull_hi : (s.hull t).hi = max s.hi t.hi := rfl
@[simp] theorem hull_loIn :
    (s.hull t).loIn = (decide (s.lo ≤ t.lo) && s.loIn || decide (t.lo ≤ s.lo) && t.loIn) := rfl
@[simp] theorem hull_hiIn :
    (s.hull t).hiIn = (decide (t.hi ≤ s.hi) && s.hiIn || decide (s.hi ≤ t.hi) && t.hiIn) := rfl

theorem hull_comm (s t : Span α) : s.hull t = t.hull s := by
  simp only [hull, min_comm, max_comm, Bool.or_comm]

theorem Proper.ordered (h : s.Proper) : s.Ordered := by
  rcases h with h | ⟨h, -⟩
  · exact h.le
  · exact h.le

theorem Apart.endsBefore (h : s.Apart t) : s.EndsBefore t :=
  h.imp_right fun h => ⟨h.1, h.2.1⟩

/-- Ends-before carries across an ordered span: every end between meets at most once, and a
meeting point is left out by the span ending there. -/
theorem EndsBefore.trans (hrs : r.EndsBefore s) (hs : s.Ordered) (hst : s.EndsBefore t) :
    r.EndsBefore t := by
  have hs_t : s.hi ≤ t.lo := by
    rcases hst with h | h
    · exact h.le
    · exact h.1.le
  rcases hrs with h | ⟨h, hout⟩
  · exact .inl (h.trans_le (hs.trans hs_t))
  · rcases (hs.trans hs_t).lt_or_eq with h' | h'
    · exact .inl (h ▸ h')
    · exact .inr ⟨h.trans h', hout⟩

/-- **Ascending and disjoint.** Every point of `s` lies below every point of a span that `s`
ends before. -/
theorem EndsBefore.lt (h : s.EndsBefore t) (hx : s.Mem x) (hy : t.Mem y) : x < y := by
  have hxt : x < t.lo := by
    rcases hx.2 with hx | ⟨rfl, hin⟩ <;> rcases h with h | ⟨h, hout⟩
    · exact hx.trans h
    · exact h ▸ hx
    · exact h
    · simp [hin] at hout
  rcases hy.1 with hy | ⟨rfl, -⟩
  · exact hxt.trans hy
  · exact hxt

/-- A proper span starting no lower than `s` is never apart before it. -/
theorem not_apart_of_proper (ht : t.Proper) (hst : s.lo ≤ t.lo) : ¬t.Apart s := by
  rintro (h | ⟨h, hout, -⟩)
  · exact absurd (hst.trans ht.ordered) (not_le.mpr h)
  · -- the span would be the one point `s.lo`, and proper with its high end left out
    rcases ht with ht | ⟨-, -, hin⟩
    · exact absurd (hst.trans_lt ht) (h ▸ lt_irrefl _)
    · simp [hin] at hout

end Ends

section Hull

variable {r s t : Span α} {x : α}

theorem hull_lo_of_le (h : s.lo ≤ t.lo) : (s.hull t).lo = s.lo := min_eq_left h

theorem ordered_hull (ht : t.Ordered) : (s.hull t).Ordered :=
  (min_le_right _ _).trans (ht.trans (le_max_right _ _))

theorem EndsBefore.hull (h : r.EndsBefore s) (hst : s.lo ≤ t.lo) : r.EndsBefore (s.hull t) := by
  unfold EndsBefore at h ⊢
  rwa [hull_lo_of_le hst]

theorem above_hull_of_above (h : s.Above x) : (s.hull t).Above x := by
  rcases h with h | ⟨rfl, hin⟩
  · exact .inl ((min_le_left _ _).trans_lt h)
  · by_cases hst : s.lo ≤ t.lo
    · exact .inr ⟨min_eq_left hst, by simp [hst, hin]⟩
    · exact .inl (min_lt_iff.mpr (.inr (lt_of_not_ge hst)))

theorem below_hull_of_below (h : s.Below x) : (s.hull t).Below x := by
  rcases h with h | ⟨rfl, hin⟩
  · exact .inl (h.trans_le (le_max_left _ _))
  · by_cases hst : t.hi ≤ s.hi
    · exact .inr ⟨(max_eq_left hst).symm, by simp [hst, hin]⟩
    · exact .inl (lt_max_iff.mpr (.inr (lt_of_not_ge hst)))

theorem above_of_above_hull (h : (s.hull t).Above x) : s.Above x ∨ t.Above x := by
  rcases h with h | ⟨h, hin⟩
  · exact (min_lt_iff.mp h).imp .inl .inl
  · simp only [hull_lo, hull_loIn, Bool.or_eq_true, Bool.and_eq_true, decide_eq_true_eq] at h hin
    rcases hin with ⟨hst, hin⟩ | ⟨hts, hin⟩
    · exact .inl (.inr ⟨(min_eq_left hst).symm.trans h, hin⟩)
    · exact .inr (.inr ⟨(min_eq_right hts).symm.trans h, hin⟩)

theorem below_of_below_hull (h : (s.hull t).Below x) : s.Below x ∨ t.Below x := by
  rcases h with h | ⟨h, hin⟩
  · exact (lt_max_iff.mp h).imp .inl .inl
  · simp only [hull_hi, hull_hiIn, Bool.or_eq_true, Bool.and_eq_true, decide_eq_true_eq] at h hin
    rcases hin with ⟨hts, hin⟩ | ⟨hst, hin⟩
    · exact .inl (.inr ⟨h.trans (max_eq_left hts), hin⟩)
    · exact .inr (.inr ⟨h.trans (max_eq_right hst), hin⟩)

/-- A point past the end of `s` and short of the start of `t` puts the two apart. -/
theorem apart_of_not_below_of_not_above (hs : ¬s.Below x) (ht : ¬t.Above x) : s.Apart t := by
  simp only [Below, Above, not_or, not_and, not_lt, Bool.not_eq_true] at hs ht
  rcases hs.1.lt_or_eq with h1 | h1
  · exact .inl (h1.trans_le ht.1)
  · rcases ht.1.lt_or_eq with h2 | h2
    · exact .inl (h1 ▸ h2)
    · exact .inr ⟨h1.trans h2, hs.2 h1.symm, ht.2 h2.symm⟩

/-- **The hull is the union** of two spans neither of which lies apart before the other. -/
theorem mem_hull (hst : ¬s.Apart t) (hts : ¬t.Apart s) : (s.hull t).Mem x ↔ s.Mem x ∨ t.Mem x := by
  constructor
  · intro ⟨ha, hb⟩
    rcases above_of_above_hull ha with ha | ha <;> rcases below_of_below_hull hb with hb | hb
    · exact .inl ⟨ha, hb⟩
    · -- above the low of `s`, below the high of `t`: one of them holds `x`, or there is a gap
      by_cases hs : s.Below x
      · exact .inl ⟨ha, hs⟩
      by_cases ht : t.Above x
      · exact .inr ⟨ht, hb⟩
      exact absurd (apart_of_not_below_of_not_above hs ht) hst
    · by_cases ht : t.Below x
      · exact .inr ⟨ha, ht⟩
      by_cases hs : s.Above x
      · exact .inl ⟨hs, hb⟩
      exact absurd (apart_of_not_below_of_not_above ht hs) hts
    · exact .inr ⟨ha, hb⟩
  · rintro (⟨ha, hb⟩ | ⟨ha, hb⟩)
    · exact ⟨above_hull_of_above ha, below_hull_of_below hb⟩
    · rw [hull_comm]
      exact ⟨above_hull_of_above ha, below_hull_of_below hb⟩

end Hull

section Push

variable {spans rest : List (Span α)} {s t : Span α}

@[simp] theorem push_nil (t : Span α) : push [] t = [t] := rfl

theorem push_concat (L : List (Span α)) (s t : Span α) :
    push (L ++ [s]) t = if s.Apart t then L ++ [s, t] else L ++ [s.hull t] := by
  simp [push]

/-- What pushing keeps of the spans built so far, given the spans still to come: each ends
before the later ones, each is ordered, and the last starts no higher than any to come. -/
structure PushInv (spans rest : List (Span α)) : Prop where
  endsBefore : spans.Pairwise EndsBefore
  ordered : ∀ s ∈ spans, s.Ordered
  lo_le : ∀ s ∈ spans.getLast?, ∀ t ∈ rest, s.lo ≤ t.lo

theorem pushInv_nil (rest : List (Span α)) : PushInv [] rest :=
  ⟨.nil, by simp, by simp⟩

/-- One push keeps the invariant, for a proper span sorted below the ones still to come. -/
theorem PushInv.step (h : PushInv spans (t :: rest)) (ht : t.Proper) (hrest : ∀ u ∈ rest, t.lo ≤ u.lo) :
    PushInv (push spans t) rest := by
  rcases spans.eq_nil_or_concat with rfl | ⟨L, s, rfl⟩
  · exact ⟨List.pairwise_singleton _ _, by simpa using ht.ordered, by simpa using hrest⟩
  rw [List.concat_eq_append] at h ⊢
  have hpw := List.pairwise_append.mp h.endsBefore
  have hs : s.Ordered := h.ordered s (by simp)
  have hst : s.lo ≤ t.lo := h.lo_le s (by simp) t List.mem_cons_self
  rw [push_concat]
  split_ifs with hapart
  · -- `t` goes after `s`; the spans before `s` end before `t` through `s`
    refine ⟨?_, ?_, by simpa using hrest⟩
    · rw [← List.singleton_append, ← List.append_assoc, List.pairwise_append]
      refine ⟨h.endsBefore, List.pairwise_singleton _ _, fun r hr u hu => ?_⟩
      rw [List.mem_singleton.mp hu]
      rcases List.mem_append.mp hr with hr | hr
      · exact (hpw.2.2 r hr s (by simp)).trans hs hapart.endsBefore
      · exact List.mem_singleton.mp hr ▸ hapart.endsBefore
    · intro u hu
      rcases List.mem_append.mp hu with hu | hu
      · exact h.ordered u (List.mem_append_left _ hu)
      · simp only [List.mem_cons, List.not_mem_nil, or_false] at hu
        rcases hu with rfl | rfl
        · exact hs
        · exact ht.ordered
  · -- `s` grows to the hull, which starts where `s` did
    refine ⟨List.pairwise_append.mpr ⟨hpw.1, List.pairwise_singleton _ _, ?_⟩, ?_, ?_⟩
    · intro r hr u hu
      rw [List.mem_singleton.mp hu]
      exact (hpw.2.2 r hr s (by simp)).hull hst
    · intro u hu
      rcases List.mem_append.mp hu with hu | hu
      · exact h.ordered u (List.mem_append_left _ hu)
      · exact List.mem_singleton.mp hu ▸ ordered_hull ht.ordered
    · intro u hu v hv
      rw [List.getLast?_concat, Option.mem_some_iff] at hu
      rw [← hu, hull_lo_of_le hst]
      exact h.lo_le s (by simp) v (List.mem_cons_of_mem t hv)

/-- **One push adds exactly the pushed span's points**, for a proper span starting no lower
than the last one. -/
theorem mem_push (hlast : ∀ s ∈ spans.getLast?, s.lo ≤ t.lo) (ht : t.Proper) {x : α} :
    (∃ u ∈ push spans t, u.Mem x) ↔ (∃ u ∈ spans, u.Mem x) ∨ t.Mem x := by
  rcases spans.eq_nil_or_concat with rfl | ⟨L, s, rfl⟩
  · simp
  rw [List.concat_eq_append] at hlast ⊢
  have hst : s.lo ≤ t.lo := hlast s (by simp)
  rw [push_concat]
  split_ifs with hapart
  · simp [or_and_right, exists_or, or_assoc]
  · simp [or_and_right, exists_or, mem_hull hapart (not_apart_of_proper ht hst), or_assoc]

/-- The run: pushing sorted proper spans keeps the invariant and adds their points. -/
theorem PushInv.run {ts : List (Span α)} (h : PushInv spans ts)
    (hsorted : ts.Pairwise fun t u => t.lo ≤ u.lo) (hproper : ∀ t ∈ ts, t.Proper) :
    PushInv (ts.foldl push spans) [] ∧
      ∀ x, (∃ u ∈ ts.foldl push spans, u.Mem x) ↔ (∃ u ∈ spans, u.Mem x) ∨ ∃ t ∈ ts, t.Mem x := by
  induction ts generalizing spans with
  | nil => exact ⟨⟨h.endsBefore, h.ordered, by simp⟩, by simp⟩
  | cons t ts ih =>
    have ht := hproper t List.mem_cons_self
    have hrest : ∀ u ∈ ts, t.lo ≤ u.lo := fun u hu => List.rel_of_pairwise_cons hsorted hu
    obtain ⟨hinv, hmem⟩ := ih (h.step ht hrest) hsorted.of_cons
      fun u hu => hproper u (List.mem_cons_of_mem t hu)
    refine ⟨hinv, fun x => ?_⟩
    rw [List.foldl_cons, hmem, mem_push (fun s hs => h.lo_le s hs t List.mem_cons_self) ht]
    simp [or_assoc]

/-- **Pushing proper spans sorted by their lows** gives spans in ascending order, pairwise
disjoint, whose union is the union of the spans pushed. -/
theorem foldl_push {ts : List (Span α)} (hsorted : ts.Pairwise fun t u => t.lo ≤ u.lo)
    (hproper : ∀ t ∈ ts, t.Proper) :
    (ts.foldl push []).Pairwise (fun s t => ∀ x y, s.Mem x → t.Mem y → x < y) ∧
      ∀ x, (∃ s ∈ ts.foldl push [], s.Mem x) ↔ ∃ t ∈ ts, t.Mem x := by
  obtain ⟨hinv, hmem⟩ := (pushInv_nil ts).run hsorted hproper
  refine ⟨hinv.endsBefore.imp fun h x y => h.lt (x := x) (y := y), fun x => ?_⟩
  simpa using hmem x

end Push

end Span
