import GsiIndexing.Memdb.SkiplistBuilder

/-!
# `Builder.Assemble`

`Assemble` walks the segments in order and, at each level up to `MaxLevel`, links the last node
of the segments before to the first node of this segment there, once `VerifyOrder` accepts the
two; `head[l]` and `tail[l]` carry the first and the last node of a level over the segments
that have none there. Its arrays thus hold the segments done as one `Chain` per level. Its
second loop links the store's head to the first node of each level and the last node to the
store's tail.

`VerifyOrder` reads the two nodes' items (`verifyItems`), as the default one and memdb's do.

* **`assembleLevel_none`**, **`assembleLevel_some`** — one level of one segment: nil when the
  boundary is rejected, otherwise the two chains stitched;
* **`foldlM_assembleSegment`** — the first loop over the segments: nil exactly when a boundary
  is out of order (`OutOfOrderAt`), otherwise the arrays hold each level of the segments'
  entries, one segment after another;
* **`foldl_closeLevel`** — the second loop: each level is the head, the level's nodes and the
  tail;
* **`assemble_addAll`** — segments filled by any interleaving of `Add` calls: `Assemble`
  returns nil exactly when some boundary is out of order, which items in order rule out, and
  otherwise a store whose level `l` is the entries of level `l` or above of the segments.
-/

namespace Memdb.Store

variable {α : Type}

/-- A `VerifyOrder` that reads the items of the two nodes; the default one (always `true`) and
memdb's are of this kind. -/
def verifyItems (ord : Option α → Option α → Bool) (curr next : Node α) : Bool :=
  ord curr.itm next.itm

/-- memdb's `VerifyOrder` (`newStoreConfig`) on the two items: a nil item only before a nil one,
and no item above the next. -/
def memdbVerifyOrder (cmp : α → α → Int) : Option α → Option α → Bool
  | none, none => true
  | none, some _ => false
  | some _, none => true
  | some a, some b => !decide (cmp a b > 0)

/-! ## §1 — one level of one segment -/

/-- `VerifyOrder` rejects the boundary of the chains `N` and `M`: the items of the last node of
`N` and of the first of `M` are out of `ord`. -/
def Rejects (ord : Option α → Option α → Bool) (s : Skiplist α) (N M : List Nat) : Prop :=
  ∃ t h, N.getLast? = some t ∧ M.head? = some h ∧ ord (s.heap t).itm (s.heap h).itm = false

section Level

variable {ord : Option α → Option α → Bool} {seg : Segment} {s : Skiplist α}
  {head tail : Nat → Option Nat} {l : Nat} {N M : List Nat}

/-- Links written, items kept: the same boundaries are rejected. -/
theorem rejects_congr {s' : Skiplist α} (h : s.LinksOnly s') :
    Rejects ord s' N M ↔ Rejects ord s N M := by
  simp only [Rejects, h.itm]

theorem assembleLevel_reject {t h : Nat} (ht : tail l = some t) (hh : seg.head l = some h)
    (hv : ord (s.heap t).itm (s.heap h).itm = false) :
    assembleLevel (verifyItems ord) seg (s, head, tail) l = none := by
  simp [assembleLevel, verifyItems, ht, hh, hv]

theorem assembleLevel_link {t h u : Nat} (ht : tail l = some t) (hh : seg.head l = some h)
    (hu : seg.tail l = some u) (hv : ord (s.heap t).itm (s.heap h).itm = true) :
    assembleLevel (verifyItems ord) seg (s, head, tail) l =
      some (s.setNext t l (some h), head, Function.update tail l (some u)) := by
  simp [assembleLevel, verifyItems, ht, hh, hu, hv]

theorem assembleLevel_first {h u : Nat} (ht : tail l = none) (hhd : head l = none)
    (hh : seg.head l = some h) (hu : seg.tail l = some u) :
    assembleLevel (verifyItems ord) seg (s, head, tail) l =
      some (s, Function.update head l (some h), Function.update tail l (some u)) := by
  simp [assembleLevel, ht, hhd, hh, hu]

theorem assembleLevel_skip (hh : seg.head l = none) (hu : seg.tail l = none) :
    assembleLevel (verifyItems ord) seg (s, head, tail) l = some (s, head, tail) := by
  cases ht : tail l <;> cases hhd : head l <;> simp [assembleLevel, ht, hhd, hh, hu]

/-- **A rejected boundary**: `Assemble` returns nil. -/
theorem assembleLevel_none (hN : Chain s head tail l N) (hM : Chain s seg.head seg.tail l M)
    (hr : Rejects ord s N M) : assembleLevel (verifyItems ord) seg (s, head, tail) l = none := by
  obtain ⟨t, h, ht, hh, hv⟩ := hr
  exact assembleLevel_reject (hN.2.1.trans ht) (hM.1.trans hh) hv

/-- **An accepted boundary**: the arrays hold `N ++ M` at level `l` and keep the other levels;
the only link written is that of `N`'s last node at `l`. -/
theorem assembleLevel_some (hN : Chain s head tail l N) (hM : Chain s seg.head seg.tail l M)
    (hnd : (N ++ M).Nodup) (hr : ¬ Rejects ord s N M) :
    ∃ s' head' tail', assembleLevel (verifyItems ord) seg (s, head, tail) l = some (s', head', tail') ∧
      Chain s' head' tail' l (N ++ M) ∧ (∀ j, j ≠ l → head' j = head j ∧ tail' j = tail j) ∧
      s.LinksOf s' N [l] := by
  cases hh : seg.head l with
  | none =>
    -- the segment has no node at `l`: nothing moves
    have hM0 : M = [] := hM.eq_nil_of_head hh
    subst hM0
    refine ⟨s, head, tail, assembleLevel_skip hh hM.2.1, by simpa using hN,
      fun _ _ => ⟨rfl, rfl⟩, Skiplist.LinksOf.refl s N [l]⟩
  | some h =>
    have hu' : seg.tail l ≠ none := fun hu => by
      rw [hM.eq_nil_of_tail hu] at hM
      exact absurd (hM.1.symm.trans hh) (by simp)
    obtain ⟨u, hu⟩ := Option.ne_none_iff_exists'.1 hu'
    cases ht : tail l with
    | none =>
      -- nothing before at `l`: the segment's chain is the level's
      have hN0 : N = [] := hN.eq_nil_of_tail ht
      subst hN0
      refine ⟨s, Function.update head l (some h), Function.update tail l (some u),
        assembleLevel_first ht hN.1 hh hu, ?_,
        fun j hj => ⟨Function.update_of_ne hj _ _, Function.update_of_ne hj _ _⟩,
        Skiplist.LinksOf.refl s [] [l]⟩
      exact hM.congr (by simp [hh]) (by simp [hu]) fun _ _ => rfl
    | some t =>
      have htN : N.getLast? = some t := hN.2.1.symm.trans ht
      have hv : ord (s.heap t).itm (s.heap h).itm = true := by
        cases hv : ord (s.heap t).itm (s.heap h).itm
        · exact absurd ⟨t, h, htN, hM.1.symm.trans hh, hv⟩ hr
        · rfl
      exact ⟨_, _, _, assembleLevel_link ht hh hu hv, hN.append hM hnd ht hh hu,
        fun j hj => ⟨rfl, Function.update_of_ne hj _ _⟩,
        Skiplist.linksOf_setNext (List.mem_of_getLast? htN) (List.mem_singleton_self l) _⟩

/-- **The levels `ls` of one segment**, from arrays holding the chains `N`: `Assemble` returns
nil when it rejects the boundary at one of them, and otherwise holds `N l ++ M l` at each of
them and `N l` at the others, writing only links of the nodes `W` of `N` at the levels `ls`. -/
theorem foldlM_assembleLevel (W : List Nat) (M : Nat → List Nat) (ls : List Nat) :
    ∀ (s : Skiplist α) (head tail : Nat → Option Nat) (N : Nat → List Nat), ls.Nodup →
      (∀ l, Chain s head tail l (N l)) →
      (∀ l ∈ ls, Chain s seg.head seg.tail l (M l) ∧ (N l ++ M l).Nodup ∧ (∀ a ∈ N l, a ∈ W) ∧
        ∀ a ∈ M l, a ∉ W) →
      ((∃ l ∈ ls, Rejects ord s (N l) (M l)) →
        ls.foldlM (assembleLevel (verifyItems ord) seg) (s, head, tail) = none) ∧
      ((∀ l ∈ ls, ¬ Rejects ord s (N l) (M l)) → ∃ s' head' tail',
        ls.foldlM (assembleLevel (verifyItems ord) seg) (s, head, tail) = some (s', head', tail') ∧
        (∀ l, Chain s' head' tail' l (if l ∈ ls then N l ++ M l else N l)) ∧ s.LinksOf s' W ls) := by
  -- induction on the levels left, `N` growing by `M l₀` at each level done
  induction ls with
  | nil =>
    intro s head tail N _ hch _
    exact ⟨fun ⟨l, hl, _⟩ => absurd hl List.not_mem_nil,
      fun _ => ⟨s, head, tail, rfl, fun l => by simpa using hch l, Skiplist.LinksOf.refl s W []⟩⟩
  | cons l₀ ls ih =>
    intro s head tail N hnd hch hls
    obtain ⟨hl₀, hnd⟩ := List.nodup_cons.1 hnd
    obtain ⟨hM₀, hnd₀, hW₀, -⟩ := hls l₀ List.mem_cons_self
    by_cases hr₀ : Rejects ord s (N l₀) (M l₀)
    · -- rejected at the first level: nil at once
      refine ⟨fun _ => ?_, fun hr => absurd hr₀ (hr l₀ List.mem_cons_self)⟩
      rw [List.foldlM_cons, assembleLevel_none (hch l₀) hM₀ hr₀]
      rfl
    obtain ⟨s₁, head₁, tail₁, h₁, hch₀, hfr₁, hw₁⟩ := assembleLevel_some (hch l₀) hM₀ hnd₀ hr₀
    have hch₁ : ∀ l, Chain s₁ head₁ tail₁ l (Function.update N l₀ (N l₀ ++ M l₀) l) := by
      intro l
      by_cases hl : l = l₀
      · subst hl
        rw [Function.update_self]
        exact hch₀
      · rw [Function.update_of_ne hl]
        exact (hch l).congr (hfr₁ l hl).1 (hfr₁ l hl).2
          fun a _ => hw₁.same a l (.inr (by simpa using hl))
    have hrest : ∀ l ∈ ls, Chain s₁ seg.head seg.tail l (M l) ∧
        (Function.update N l₀ (N l₀ ++ M l₀) l ++ M l).Nodup ∧
        (∀ a ∈ Function.update N l₀ (N l₀ ++ M l₀) l, a ∈ W) ∧ ∀ a ∈ M l, a ∉ W := by
      intro l hl
      have hne : l ≠ l₀ := fun h => hl₀ (h ▸ hl)
      obtain ⟨hMl, hndl, hWl, hWl'⟩ := hls l (List.mem_cons_of_mem _ hl)
      rw [Function.update_of_ne hne]
      exact ⟨hMl.linksOf hw₁ fun _ _ => .inr (by simpa using hne), hndl, hWl, hWl'⟩
    -- the boundaries left are judged on the same items
    have hrej : ∀ l ∈ ls, Rejects ord s₁ (Function.update N l₀ (N l₀ ++ M l₀) l) (M l) ↔
        Rejects ord s (N l) (M l) := by
      intro l hl
      have hne : l ≠ l₀ := fun h => hl₀ (h ▸ hl)
      rw [Function.update_of_ne hne, rejects_congr hw₁.links]
    obtain ⟨ihnone, ihsome⟩ := ih s₁ head₁ tail₁ _ hnd hch₁ hrest
    refine ⟨fun ⟨l, hl, hr⟩ => ?_, fun hr => ?_⟩
    · have hl' : l ∈ ls := by
        rcases List.mem_cons.1 hl with rfl | hl'
        · exact absurd hr hr₀
        · exact hl'
      rw [List.foldlM_cons, h₁]
      exact ihnone ⟨l, hl', (hrej l hl').2 hr⟩
    · obtain ⟨s', head', tail', hfold, hch', hw'⟩ :=
        ihsome fun l hl => (hrej l hl).not.2 (hr l (List.mem_cons_of_mem _ hl))
      refine ⟨s', head', tail', by rw [List.foldlM_cons, h₁]; exact hfold, fun l => ?_, ?_⟩
      · rw [← ite_update_append N M hl₀ l]
        exact hch' l
      · exact (hw₁.mono (fun a ha => hW₀ a ha) (by simp)).trans
          (hw'.mono (List.Subset.refl W) (List.subset_cons_self l₀ ls))

end Level

/-! ## §2 — the segments -/

/-- The boundary at level `l` between the entries `P` and a segment's entries `S` is out of
order: `ord` rejects the items of the last entry of `P` and of the first of `S` of level `l` or
above. -/
def OutOfOrder (ord : Option α → Option α → Bool) (l : Nat) (P S : List (Entry α)) : Prop :=
  ∃ a b, (P.filter fun e => l ≤ e.level).getLast? = some a ∧
    (S.filter fun e => l ≤ e.level).head? = some b ∧ ord (some a.item) (some b.item) = false

/-- After the entries `P`, the segments `ks` holding the entries `Ss k`: some boundary, at a
level up to `MaxLevel`, is out of order. -/
def OutOfOrderAt (ord : Option α → Option α → Bool) (Ss : Nat → List (Entry α)) :
    List (Entry α) → List Nat → Prop
  | _, [] => False
  | P, k :: ks => (∃ l ≤ maxLevel, OutOfOrder ord l P (Ss k)) ∨ OutOfOrderAt ord Ss (P ++ Ss k) ks

section Segments

variable {ord : Option α → Option α → Bool} {s₀ : Skiplist α} {segs : Nat → Segment}
  {Ss : Nat → List (Entry α)}

/-- A boundary of the chains of two lists of entries is rejected exactly when it is out of
order. -/
theorem rejects_levelNodes {s : Skiplist α} {P S : List (Entry α)}
    (hP : ∀ e ∈ P, (s.heap e.node).itm = some e.item)
    (hS : ∀ e ∈ S, (s.heap e.node).itm = some e.item) (l : Nat) :
    Rejects ord s (levelNodes l P) (levelNodes l S) ↔ OutOfOrder ord l P S := by
  constructor
  · rintro ⟨t, h, ht, hh, hv⟩
    simp only [levelNodes, List.getLast?_map, List.head?_map, Option.map_eq_some_iff] at ht hh
    obtain ⟨a, ha, rfl⟩ := ht
    obtain ⟨b, hb, rfl⟩ := hh
    rw [hP a (List.mem_of_mem_filter (List.mem_of_getLast? ha)),
      hS b (List.mem_of_mem_filter (List.mem_of_head? hb))] at hv
    exact ⟨a, b, ha, hb, hv⟩
  · rintro ⟨a, b, ha, hb, hv⟩
    refine ⟨a.node, b.node, by simp [levelNodes, ha], by simp [levelNodes, hb], ?_⟩
    rw [hP a (List.mem_of_mem_filter (List.mem_of_getLast? ha)),
      hS b (List.mem_of_mem_filter (List.mem_of_head? hb))]
    exact hv

/-- A segment has no node above `MaxLevel`. -/
theorem Built.levelNodes_eq_nil (hb : Built s₀ segs Ss) (k : Nat) {l : Nat} (hl : maxLevel < l) :
    levelNodes l (Ss k) = [] := by
  simp only [levelNodes, List.map_eq_nil_iff, List.filter_eq_nil_iff, decide_eq_true_eq]
  intro e he
  have := (hb.entry k e he).2.2
  omega

/-- What `Assemble`'s first loop keeps after the entries `P`: its arrays hold them, one chain
per level, and only their links were written, at levels up to `MaxLevel`. -/
def Stitched (s₀ s : Skiplist α) (head tail : Nat → Option Nat) (P : List (Entry α)) : Prop :=
  (∀ l, Chain s head tail l (levelNodes l P)) ∧
    s₀.LinksOf s (P.map Entry.node) (List.range (maxLevel + 1))

variable (hb : Built s₀ segs Ss)

section One

variable {k : Nat} {P : List (Entry α)} {s : Skiplist α} {head tail : Nat → Option Nat}

include hb in
/-- Before a segment is stitched: its chains are intact, and apart from the entries `P` the
arrays hold. -/
theorem Stitched.ready (hnd : ((P ++ Ss k).map Entry.node).Nodup)
    (hst : Stitched s₀ s head tail P) : ∀ l ∈ List.range (maxLevel + 1),
      Chain s (segs k).head (segs k).tail l (levelNodes l (Ss k)) ∧
      (levelNodes l P ++ levelNodes l (Ss k)).Nodup ∧
      (∀ a ∈ levelNodes l P, a ∈ P.map Entry.node) ∧ ∀ a ∈ levelNodes l (Ss k), a ∉ P.map Entry.node := by
  intro l _
  have hndl : (levelNodes l P ++ levelNodes l (Ss k)).Nodup := by
    rw [← levelNodes_append]
    exact hnd.sublist (levelNodes_sublist_map l _)
  rw [List.map_append] at hnd
  have hout : ∀ a ∈ levelNodes l (Ss k), a ∉ P.map Entry.node := fun a ha haP =>
    (List.nodup_append.1 hnd).2.2 a haP a ((levelNodes_sublist_map l (Ss k)).subset ha) rfl
  exact ⟨(hb.chain k l).linksOf hst.2 fun a ha => .inl (hout a ha), hndl,
    fun a ha => (levelNodes_sublist_map l P).subset ha, hout⟩

include hb in
/-- The boundaries the arrays meet are judged on the items the segments were given. -/
theorem Stitched.rejects_iff (hP : ∀ e ∈ P, (s₀.heap e.node).itm = some e.item)
    (hst : Stitched s₀ s head tail P) (l : Nat) :
    Rejects ord s (levelNodes l P) (levelNodes l (Ss k)) ↔ OutOfOrder ord l P (Ss k) := by
  rw [rejects_congr hst.2.links]
  exact rejects_levelNodes hP (fun e he => (hb.entry k e he).1) l

include hb in
/-- **One segment stitched**: with no boundary out of order, `Assemble` holds the entries `P`
and then the segment's. -/
theorem assembleSegment_some (hnd : ((P ++ Ss k).map Entry.node).Nodup)
    (hP : ∀ e ∈ P, (s₀.heap e.node).itm = some e.item) (hst : Stitched s₀ s head tail P)
    (hord : ¬ ∃ l ≤ maxLevel, OutOfOrder ord l P (Ss k)) :
    ∃ s' head' tail', assembleSegment (verifyItems ord) (s, head, tail) (segs k) =
      some (s', head', tail') ∧ Stitched s₀ s' head' tail' (P ++ Ss k) := by
  obtain ⟨-, hsome⟩ := foldlM_assembleLevel (P.map Entry.node) (fun l => levelNodes l (Ss k))
    (List.range (maxLevel + 1)) s head tail (fun l => levelNodes l P) List.nodup_range hst.1
    (Stitched.ready hb hnd hst)
  obtain ⟨s', head', tail', hfold, hch', hw'⟩ := hsome fun l hl hr =>
    hord ⟨l, Nat.lt_succ_iff.1 (List.mem_range.1 hl), (hst.rejects_iff hb hP l).1 hr⟩
  refine ⟨s', head', tail', hfold, fun l => ?_, ?_⟩
  · -- above `MaxLevel` the segment has no node, and the loop does not go there
    rw [levelNodes_append]
    by_cases hl : l ≤ maxLevel
    · simpa [List.mem_range, Nat.lt_succ_iff, hl] using hch' l
    · simpa [List.mem_range, Nat.lt_succ_iff, hl, hb.levelNodes_eq_nil k (Nat.lt_of_not_le hl)]
        using hch' l
  · refine (hst.2.trans hw').mono (fun a ha => ?_) (List.Subset.refl _)
    rw [List.map_append]
    exact List.mem_append_left _ ha

include hb in
/-- **A boundary out of order** at some level of a segment: `Assemble` returns nil. -/
theorem assembleSegment_none (hnd : ((P ++ Ss k).map Entry.node).Nodup)
    (hP : ∀ e ∈ P, (s₀.heap e.node).itm = some e.item) (hst : Stitched s₀ s head tail P)
    (hord : ∃ l ≤ maxLevel, OutOfOrder ord l P (Ss k)) :
    assembleSegment (verifyItems ord) (s, head, tail) (segs k) = none := by
  obtain ⟨l, hl, hout⟩ := hord
  exact (foldlM_assembleLevel (P.map Entry.node) (fun l => levelNodes l (Ss k))
    (List.range (maxLevel + 1)) s head tail (fun l => levelNodes l P) List.nodup_range hst.1
    (Stitched.ready hb hnd hst)).1
      ⟨l, List.mem_range.2 (Nat.lt_succ_of_le hl), (hst.rejects_iff hb hP l).2 hout⟩

end One

variable (ord) in
include hb in
/-- **`Assemble`'s first loop** over the segments `ks`, after the entries `P`: nil exactly when
some boundary is out of order; otherwise its arrays hold the entries of `P` and then of the
segments, one after another. -/
theorem foldlM_assembleSegment (ks : List Nat) :
    ∀ (P : List (Entry α)) (s : Skiplist α) (head tail : Nat → Option Nat),
      ((P ++ ks.flatMap Ss).map Entry.node).Nodup → (∀ e ∈ P, (s₀.heap e.node).itm = some e.item) →
      Stitched s₀ s head tail P →
      (OutOfOrderAt ord Ss P ks →
        (ks.map segs).foldlM (assembleSegment (verifyItems ord)) (s, head, tail) = none) ∧
      (¬ OutOfOrderAt ord Ss P ks → ∃ s' head' tail',
        (ks.map segs).foldlM (assembleSegment (verifyItems ord)) (s, head, tail) =
          some (s', head', tail') ∧ Stitched s₀ s' head' tail' (P ++ ks.flatMap Ss)) := by
  -- induction on the segments left, `P` growing by each segment done
  induction ks with
  | nil =>
    intro P s head tail _ _ hst
    exact ⟨False.elim, fun _ => ⟨s, head, tail, rfl, by simpa using hst⟩⟩
  | cons k ks ih =>
    intro P s head tail hnd hP hst
    rw [List.flatMap_cons, ← List.append_assoc] at hnd
    have hnd₁ : ((P ++ Ss k).map Entry.node).Nodup :=
      hnd.sublist ((List.sublist_append_left _ _).map _)
    simp only [OutOfOrderAt, List.map_cons, List.foldlM_cons]
    by_cases hord : ∃ l ≤ maxLevel, OutOfOrder ord l P (Ss k)
    · refine ⟨fun _ => ?_, fun h => absurd (.inl hord) h⟩
      rw [assembleSegment_none hb hnd₁ hP hst hord]
      rfl
    obtain ⟨s₁, head₁, tail₁, h₁, hst₁⟩ := assembleSegment_some hb hnd₁ hP hst hord
    have hP₁ : ∀ e ∈ P ++ Ss k, (s₀.heap e.node).itm = some e.item := by
      intro e he
      rcases List.mem_append.1 he with he | he
      · exact hP e he
      · exact (hb.entry k e he).1
    obtain ⟨ihnone, ihsome⟩ := ih (P ++ Ss k) s₁ head₁ tail₁ hnd hP₁ hst₁
    rw [h₁]
    refine ⟨fun h => ihnone (h.resolve_left hord), fun h => ?_⟩
    obtain ⟨s', head', tail', hfold, hst'⟩ := ihsome fun h' => h (.inr h')
    exact ⟨s', head', tail', hfold, by simpa using hst'⟩

end Segments

/-! ## §3 — the store's head and tail linked in -/

section Close

variable {head tail : Nat → Option Nat}

theorem closeLevel_linksOnly (s : Skiplist α) (l : Nat) :
    s.LinksOnly (closeLevel head tail s l) := by
  cases hh : head l <;> cases ht : tail l <;> simp only [closeLevel, hh, ht]
  · exact Skiplist.LinksOnly.refl s
  · exact Skiplist.linksOnly_setRef s _ l _
  · exact Skiplist.linksOnly_setRef s s.head l _
  · exact (Skiplist.linksOnly_setRef s s.head l _).trans (Skiplist.linksOnly_setRef _ _ l _)

/-- `closeLevel` at level `l` writes links of that level only. -/
theorem closeLevel_next_of_ne (s : Skiplist α) {l j : Nat} (hj : j ≠ l) (m : Nat) :
    ((closeLevel head tail s l).heap m).next j = (s.heap m).next j := by
  cases hh : head l <;> cases ht : tail l <;>
    simp only [closeLevel, hh, ht, Skiplist.setNext_eq, Skiplist.next_setRef_of_ne _ _ _ _ (.inr hj)]

/-- At a level with nodes, `closeLevel` writes the store's head's link to the first and the last
one's to the store's tail. -/
theorem closeLevel_next_some {s : Skiplist α} {l h t : Nat} (hh : head l = some h)
    (ht : tail l = some t) (m : Nat) :
    ((closeLevel head tail s l).heap m).next l =
      if m = t then ⟨some s.tail, false⟩ else if m = s.head then ⟨some h, false⟩
      else (s.heap m).next l := by
  by_cases hmt : m = t <;> by_cases hmh : m = s.head <;>
    simp [closeLevel, hh, ht, Skiplist.setNext_eq, Skiplist.next_setRef, hmt, hmh]

/-- **One level closed**: the store's head, the chain the arrays hold at level `l`, then the
store's tail. -/
theorem closeLevel_levelOk {s : Skiplist α} {l : Nat} {E : List (Entry α)}
    (hch : Chain s head tail l (levelNodes l E))
    (hnd : (s.head :: levelNodes l E ++ [s.tail]).Nodup)
    (hhead : (s.heap s.head).next l = ⟨some s.tail, false⟩)
    (htail : (s.heap s.tail).next l = ⟨none, false⟩) :
    LevelOk (closeLevel head tail s l) l E := by
  have hlo : s.LinksOnly (closeLevel head tail s l) := closeLevel_linksOnly s l
  unfold LevelOk
  rw [hlo.head, hlo.tail]
  generalize levelNodes l E = N at hch hnd
  cases hh : head l with
  | none =>
    -- an empty level: the head still links to the tail
    have hN : N = [] := Chain.eq_nil_of_head hch hh
    subst hN
    have ht : tail l = none := hch.2.1
    simp only [closeLevel, hh, ht]
    exact ⟨by simpa using hhead, htail⟩
  | some h =>
    obtain ⟨P, t, rfl⟩ : ∃ P t, N = P ++ [t] := by
      rcases List.eq_nil_or_concat N with hN | ⟨P, t, hN⟩
      · subst hN
        exact absurd (hch.1.symm.trans hh) (by simp)
      · exact ⟨P, t, by simpa using hN⟩
    have ht : tail l = some t := hch.2.1.trans List.getLast?_concat
    have hnext := closeLevel_next_some (s := s) hh ht
    rw [List.cons_append, List.nodup_cons, List.nodup_append] at hnd
    obtain ⟨hhd, hPt, -, htl⟩ := hnd
    have htP : t ∉ P := fun h' => (List.nodup_append.1 hPt).2.2 t h' t List.mem_cons_self rfl
    have hheadN : ∀ a ∈ P ++ [t], a ≠ s.head := fun a ha hah =>
      hhd (hah ▸ List.mem_append_left _ ha)
    have htailN : ∀ a ∈ P ++ [t], a ≠ s.tail := fun a ha => htl a ha s.tail List.mem_cons_self
    have htmem : t ∈ P ++ [t] := List.mem_append_right _ List.mem_cons_self
    -- the level's own links stay but the last one's, which now goes to the tail
    have hP₂ : Path (closeLevel head tail s l).heap l (P ++ [t]) :=
      hch.2.2.1.congr_snoc fun a ha => by
        have hat : a ≠ t := fun hat => htP (hat ▸ ha)
        rw [hnext, if_neg hat, if_neg (hheadN a (List.mem_append_left _ ha))]
    obtain ⟨Q, hQ⟩ := List.head?_eq_some_iff.1 (hch.1.symm.trans hh)
    have hfront : Path (closeLevel head tail s l).heap l ((s.head :: P) ++ [t]) := by
      show Path _ l (s.head :: (P ++ [t]))
      rw [hQ]
      refine ⟨?_, hQ ▸ hP₂⟩
      rw [hnext, if_neg (Ne.symm (hheadN t htmem)), if_pos rfl]
    have hlast : Path (closeLevel head tail s l).heap l [t, s.tail] := by
      rw [path_pair, hnext, if_pos rfl]
    refine ⟨by simpa using hfront.append hlast, ?_⟩
    have hht : s.tail ≠ s.head := fun h' => hhd (h' ▸ List.mem_append_right _ List.mem_cons_self)
    rw [hnext, if_neg (Ne.symm (htailN t htmem)), if_neg hht]
    exact htail

/-- **`Assemble`'s second loop** over the distinct levels `ls`: each of them is closed, and the
others keep their links. -/
theorem foldl_closeLevel (E : List (Entry α)) (ls : List Nat) : ∀ s : Skiplist α, ls.Nodup →
    (∀ l ∈ ls, Chain s head tail l (levelNodes l E) ∧
      (s.head :: levelNodes l E ++ [s.tail]).Nodup ∧
      (s.heap s.head).next l = ⟨some s.tail, false⟩ ∧ (s.heap s.tail).next l = ⟨none, false⟩) →
    s.LinksOnly (ls.foldl (closeLevel head tail) s) ∧
      (∀ l ∈ ls, LevelOk (ls.foldl (closeLevel head tail) s) l E) ∧
      ∀ m j, j ∉ ls → ((ls.foldl (closeLevel head tail) s).heap m).next j = (s.heap m).next j := by
  -- induction on the levels left; a level once closed is left alone by the others
  induction ls with
  | nil =>
    intro s _ _
    exact ⟨Skiplist.LinksOnly.refl s, fun _ hl => absurd hl List.not_mem_nil, fun _ _ _ => rfl⟩
  | cons l₀ ls ih =>
    intro s hnd hopen
    obtain ⟨hl₀, hnd⟩ := List.nodup_cons.1 hnd
    obtain ⟨hch₀, hnd₀, hhead₀, htail₀⟩ := hopen l₀ List.mem_cons_self
    have hlo₁ : s.LinksOnly (closeLevel head tail s l₀) := closeLevel_linksOnly s l₀
    have hok₁ := closeLevel_levelOk hch₀ hnd₀ hhead₀ htail₀
    have hopen₁ : ∀ l ∈ ls, Chain (closeLevel head tail s l₀) head tail l (levelNodes l E) ∧
        ((closeLevel head tail s l₀).head :: levelNodes l E ++ [(closeLevel head tail s l₀).tail]).Nodup ∧
        ((closeLevel head tail s l₀).heap (closeLevel head tail s l₀).head).next l =
          ⟨some (closeLevel head tail s l₀).tail, false⟩ ∧
        ((closeLevel head tail s l₀).heap (closeLevel head tail s l₀).tail).next l = ⟨none, false⟩ := by
      intro l hl
      have hne : l ≠ l₀ := fun h => hl₀ (h ▸ hl)
      obtain ⟨hch, hndl, hhead, htail⟩ := hopen l (List.mem_cons_of_mem _ hl)
      rw [hlo₁.head, hlo₁.tail, closeLevel_next_of_ne s hne, closeLevel_next_of_ne s hne]
      exact ⟨hch.congr rfl rfl fun a _ => closeLevel_next_of_ne s hne a, hndl, hhead, htail⟩
    obtain ⟨hlo, hok, hfr⟩ := ih _ hnd hopen₁
    refine ⟨hlo₁.trans hlo, fun l hl => ?_, fun m j hj => ?_⟩
    · rcases List.mem_cons.1 hl with rfl | hl
      · exact hok₁.frame hlo.head hlo.tail fun a _ => hfr a l hl₀
      · exact hok l hl
    · have hj₀ : j ≠ l₀ := fun h => hj (h ▸ List.mem_cons_self)
      rw [List.foldl_cons, hfr m j fun h => hj (List.mem_cons_of_mem _ h),
        closeLevel_next_of_ne s hj₀]

end Close

/-! ## §4 — `Assemble` of segments filled by `Add` -/

section Assemble

variable {vo : Node α → Node α → Bool} {s s₁ : Skiplist α} {stats : Stats} {segments : List Segment}
  {head tail : Nat → Option Nat}

theorem assemble_of_foldlM
    (h : segments.foldlM (assembleSegment vo) (s, fun _ => none, fun _ => none) = some (s₁, head, tail)) :
    assemble vo s stats segments =
      some ((List.range (maxLevel + 1)).foldl (closeLevel head tail) s₁,
        segments.foldl (fun st seg => st.merge seg.sts) stats) := by
  simp [assemble, h]

theorem assemble_of_foldlM_none
    (h : segments.foldlM (assembleSegment vo) (s, fun _ => none, fun _ => none) = none) :
    assemble vo s stats segments = none := by
  simp [assemble, h]

variable {s₀ : Skiplist α} {segs : Nat → Segment} {Ss : Nat → List (Entry α)} {ks : List Nat}

theorem mem_segs_of_mem_flatMap : ∀ e ∈ ks.flatMap Ss, ∃ k, e ∈ Ss k := fun _ he =>
  (List.mem_flatMap.1 he).imp fun _ h => h.2

/-- The nodes of distinct segments are distinct. -/
theorem Built.nodup_flatMap (hb : Built s₀ segs Ss) (hks : ks.Nodup) :
    ((ks.flatMap Ss).map Entry.node).Nodup := by
  induction ks with
  | nil => exact List.nodup_nil
  | cons k ks ih =>
    obtain ⟨hk, hks⟩ := List.nodup_cons.1 hks
    rw [List.flatMap_cons, List.map_append, List.nodup_append]
    refine ⟨hb.nodup k, ih hks, fun a ha b hb' hab => ?_⟩
    obtain ⟨e, he, rfl⟩ := List.mem_map.1 ha
    obtain ⟨e', he', rfl⟩ := List.mem_map.1 hb'
    obtain ⟨k', hk', he''⟩ := List.mem_flatMap.1 he'
    exact hb.apart k k' (fun h => hk (h ▸ hk')) e he e' he'' hab

/-- Each level of the segments, between the store's head and tail, has no node twice. -/
theorem Built.nodup_level (hb : Built s₀ segs Ss) (hks : ks.Nodup) (l : Nat) :
    (s₀.head :: levelNodes l (ks.flatMap Ss) ++ [s₀.tail]).Nodup := by
  have hmem : ∀ a ∈ levelNodes l (ks.flatMap Ss), a ≠ s₀.head ∧ a ≠ s₀.tail := fun a ha =>
    hb.ne_ends mem_segs_of_mem_flatMap a ((levelNodes_sublist_map l _).subset ha)
  rw [List.cons_append, List.nodup_cons, List.nodup_append]
  refine ⟨?_, (hb.nodup_flatMap hks).sublist (levelNodes_sublist_map l _), List.nodup_singleton _,
    fun a ha b hb' => ?_⟩
  · simp only [List.mem_append, List.mem_singleton, not_or]
    exact ⟨fun h => (hmem _ h).1 rfl, hb.head_ne_tail⟩
  · rw [List.mem_singleton] at hb'
    exact hb' ▸ (hmem a ha).2

/-- Items in order rule every boundary out: at each level the last entry before a segment comes
before its first. -/
theorem not_outOfOrderAt_of_pairwise {ord : Option α → Option α → Bool} :
    ∀ (ks : List Nat) (P : List (Entry α)),
      ((P ++ ks.flatMap Ss).map Entry.item).Pairwise (fun a b => ord (some a) (some b) = true) →
      ¬ OutOfOrderAt ord Ss P ks
  | [], _, _, h => h
  | k :: ks, P, hpw, h => by
    rw [List.flatMap_cons, ← List.append_assoc] at hpw
    rcases h with ⟨l, -, a, b, ha, hb, hv⟩ | h
    · -- `a`, of the entries before, comes before `b`, of the segment
      have hpre := (List.pairwise_append.1 (List.map_append ▸ hpw)).1
      rw [List.map_append] at hpre
      have hab := (List.pairwise_append.1 hpre).2.2 a.item
        (List.mem_map_of_mem (List.mem_of_mem_filter (List.mem_of_getLast? ha))) b.item
        (List.mem_map_of_mem (List.mem_of_mem_filter (List.mem_of_head? hb)))
      exact absurd hv (by simp [hab])
    · exact not_outOfOrderAt_of_pairwise ks (P ++ Ss k) hpw h

/-- **`Assemble` of segments filled by `Add`.** From `NewBuilder` and fresh segments, after any
interleaving of `Add` calls, each segment `k` holds entries `Ss k` whose items are those added
to it, in order. `Assemble` of the distinct segments `ks` returns nil exactly when some boundary
between the segments before and the next one is out of order at a level up to `MaxLevel` for
`VerifyOrder`; items given in order rule that out. Otherwise the store it returns holds, at
each level `l` up to `MaxLevel`, the head, the nodes of the segments' entries of level `l` or
above, one segment after another, and the tail; each node has its entry's item and level. -/
theorem assemble_addAll (ord : Option α → Option α → Bool) (adds : List (Nat × α × Nat))
    (ks : List Nat) (hks : ks.Nodup) (stats : Stats) :
    ∃ Ss : Nat → List (Entry α), (∀ k, (Ss k).map Entry.item = segItems adds k) ∧
      (assemble (verifyItems ord) (addAll Skiplist.new (fun _ => Segment.new) adds).1 stats
          (ks.map (addAll Skiplist.new (fun _ => Segment.new) adds).2) = none ↔
        OutOfOrderAt ord Ss [] ks) ∧
      ((ks.flatMap (segItems adds)).Pairwise (fun a b => ord (some a) (some b) = true) →
        ¬ OutOfOrderAt ord Ss [] ks) ∧
      (¬ OutOfOrderAt ord Ss [] ks → ∃ s' st',
        assemble (verifyItems ord) (addAll Skiplist.new (fun _ => Segment.new) adds).1 stats
            (ks.map (addAll Skiplist.new (fun _ => Segment.new) adds).2) = some (s', st') ∧
          (∀ l ≤ maxLevel, LevelOk s' l (ks.flatMap Ss)) ∧
          ∀ e ∈ ks.flatMap Ss, (s'.heap e.node).itm = some e.item ∧ (s'.heap e.node).level = e.level) := by
  obtain ⟨Ss, hb, hitems⟩ :=
    built_addAll adds Skiplist.new (fun _ => Segment.new) (fun _ => []) built_new
  generalize addAll Skiplist.new (fun _ => Segment.new) adds = r at hb ⊢
  obtain ⟨s₀, segs⟩ := r
  have hitems' : ∀ k, (Ss k).map Entry.item = segItems adds k := fun k => by simpa using hitems k
  have hst₀ : Stitched s₀ s₀ (fun _ => none) (fun _ => none) [] :=
    ⟨fun _ => chain_nil rfl rfl, Skiplist.LinksOf.refl s₀ _ _⟩
  obtain ⟨hnone, hsome⟩ := foldlM_assembleSegment ord hb ks [] s₀ (fun _ => none) (fun _ => none)
    (by simpa using hb.nodup_flatMap hks) (fun _ h => absurd h List.not_mem_nil) hst₀
  -- with every boundary in order, the second loop closes each level
  have hclosed : ¬ OutOfOrderAt ord Ss [] ks → ∃ s' st',
      assemble (verifyItems ord) s₀ stats (ks.map segs) = some (s', st') ∧
        (∀ l ≤ maxLevel, LevelOk s' l (ks.flatMap Ss)) ∧
        ∀ e ∈ ks.flatMap Ss, (s'.heap e.node).itm = some e.item ∧ (s'.heap e.node).level = e.level := by
    intro hord
    obtain ⟨s₁, head, tail, hfold, hch, hw⟩ := hsome hord
    rw [List.nil_append] at hch hw
    have hhS : s₀.head ∉ (ks.flatMap Ss).map Entry.node := fun hm =>
      (hb.ne_ends mem_segs_of_mem_flatMap _ hm).1 rfl
    have htS : s₀.tail ∉ (ks.flatMap Ss).map Entry.node := fun hm =>
      (hb.ne_ends mem_segs_of_mem_flatMap _ hm).2 rfl
    have hopen : ∀ l ∈ List.range (maxLevel + 1), Chain s₁ head tail l (levelNodes l (ks.flatMap Ss)) ∧
        (s₁.head :: levelNodes l (ks.flatMap Ss) ++ [s₁.tail]).Nodup ∧
        (s₁.heap s₁.head).next l = ⟨some s₁.tail, false⟩ ∧
        (s₁.heap s₁.tail).next l = ⟨none, false⟩ := by
      intro l _
      rw [hw.links.head, hw.links.tail, hw.same s₀.head l (.inl hhS), hw.same s₀.tail l (.inl htS)]
      exact ⟨hch l, hb.nodup_level hks l, hb.head_next l, hb.tail_next l⟩
    obtain ⟨hlo, hok, -⟩ := foldl_closeLevel (ks.flatMap Ss) (List.range (maxLevel + 1)) s₁
      List.nodup_range hopen
    refine ⟨_, _, assemble_of_foldlM hfold, fun l hl => hok l (List.mem_range.2 (Nat.lt_succ_of_le hl)),
      fun e he => ?_⟩
    rw [hlo.itm, hlo.node_level, hw.links.itm, hw.links.node_level]
    obtain ⟨k, -, he'⟩ := List.mem_flatMap.1 he
    exact ⟨(hb.entry k e he').1, (hb.entry k e he').2.1⟩
  refine ⟨Ss, hitems', ⟨fun h => ?_, fun h => assemble_of_foldlM_none (hnone h)⟩, fun hpw => ?_, hclosed⟩
  · by_contra hord
    obtain ⟨s', st', hs', -⟩ := hclosed hord
    rw [hs'] at h
    cases h
  · apply not_outOfOrderAt_of_pairwise ks []
    rw [List.nil_append, List.map_flatMap]
    simpa [hitems'] using hpw

/-- Two segments filled by interleaved `Add` calls, the second's items after the first's. -/
def sampleAdds : List (Nat × Int × Nat) := [(0, 1, 1), (1, 5, 0), (0, 3, 2), (1, 8, 1), (1, 9, 0)]

theorem assemble_addAll_sampleAdds : ∃ Ss : Nat → List (Entry Int),
    (∀ k, (Ss k).map Entry.item = segItems sampleAdds k) ∧ ∃ s' st',
      assemble (verifyItems (memdbVerifyOrder intCmp))
          (addAll Skiplist.new (fun _ => Segment.new) sampleAdds).1 Stats.zero
          ([0, 1].map (addAll Skiplist.new (fun _ => Segment.new) sampleAdds).2) = some (s', st') ∧
        ∀ l ≤ maxLevel, LevelOk s' l ([0, 1].flatMap Ss) := by
  obtain ⟨Ss, hitems, -, hpw, hsome⟩ :=
    assemble_addAll (memdbVerifyOrder intCmp) sampleAdds [0, 1] (by decide) Stats.zero
  obtain ⟨s', st', hs', hlev, -⟩ := hsome (hpw (by decide))
  exact ⟨Ss, hitems, s', st', hs', hlev⟩

end Assemble

end Memdb.Store
