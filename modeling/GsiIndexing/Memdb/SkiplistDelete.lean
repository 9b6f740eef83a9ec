import GsiIndexing.Memdb.SkiplistInsert
import Mathlib.Data.List.Nodup

/-!
# `Delete` and `DeleteNode` keep the contents

`deleteNode` marks each level of the node, from its level down to 0 (`softDelete`), and when
this call marked level 0 it runs `findPath` to the node's item. That walk meets the marked
node at each of its levels where it would stop, and unlinks it there (`helpDelete`). On a
skiplist that holds its entries:

* **`softDelete_live`**, **`softDelete_dead`** — an entry's node is marked at each of its
  levels and the call reports it; a node deleted before is left as it is;
* **`searchLevels_unlink`** — the descent after the marks links, at each level of the node,
  the last entry below it (or the head) to the first entry after it (or the tail);
* **`Inv.unlink`** — the node unlinked at each of its levels leaves the entries;
* **`deleteNode_ok`**, **`delete_ok`** — `DeleteNode` and `Delete` reply and change the
  skiplist as `Contents.step` says.
-/

namespace Memdb.Store

variable {α : Type}

/-! ## §1 — `softDelete`

The loop over the node's levels, from the top down, is one round per level: the swap compares
with the `NodeRef` just read, so an unmarked level is marked at once and a marked one is left
alone. -/

namespace Skiplist

section SoftDelete

variable {s : Skiplist α} {n : Nat}

theorem softDeleteLevel_live {i : Nat} (h : (s.getNext n i).deleted = false) :
    softDeleteLevel n s i = (s.setRef n i ⟨(s.getNext n i).ptr, true⟩, i == 0) := by
  rcases hr : s.getNext n i with ⟨ptr, del⟩
  rw [hr] at h
  subst h
  simp [softDeleteLevel, dcasNext, hr]

theorem softDeleteLevel_dead {i : Nat} (h : (s.getNext n i).deleted = true) :
    softDeleteLevel n s i = (s, false) := by
  simp [softDeleteLevel, h]

/-- `softDelete`'s loop, one level per round. -/
theorem softDelete_eq (s : Skiplist α) (n : Nat) :
    s.softDelete n = (List.range ((s.heap n).level + 1)).reverse.foldl
      (fun acc i => ((softDeleteLevel n acc.1 i).1, acc.2 || (softDeleteLevel n acc.1 i).2))
      (s, false) := rfl

/-- The loop over distinct levels of `n`, none of them marked: each is marked with its pointer
kept, and the flag turns on at level 0. -/
theorem foldl_softDeleteLevel_live : ∀ (ls : List Nat) (s : Skiplist α) (b : Bool), ls.Nodup →
    (∀ i ∈ ls, (s.getNext n i).deleted = false) →
    ∃ t, ls.foldl (fun acc i => ((softDeleteLevel n acc.1 i).1,
        acc.2 || (softDeleteLevel n acc.1 i).2)) (s, b) = (t, b || decide (0 ∈ ls)) ∧
      s.LinksOnly t ∧ ∀ m j, (t.heap m).next j =
        if m = n ∧ j ∈ ls then ⟨((s.heap m).next j).ptr, true⟩ else (s.heap m).next j
  | [], s, b, _, _ => ⟨s, by simp, LinksOnly.refl s, fun m j => by simp⟩
  | i :: ls, s, b, hnd, hlive => by
    obtain ⟨hi, hnd⟩ := List.nodup_cons.1 hnd
    -- the other levels of `n` are as they were after level `i` is marked
    have hlive' : ∀ j ∈ ls,
        ((s.setRef n i ⟨(s.getNext n i).ptr, true⟩).getNext n j).deleted = false := by
      intro j hj
      rw [getNext, next_setRef_of_ne _ _ _ _ (.inr (by rintro rfl; exact hi hj))]
      exact hlive j (List.mem_cons_of_mem _ hj)
    obtain ⟨t, hfold, hlinks, hnext⟩ := foldl_softDeleteLevel_live ls _ (b || i == 0) hnd hlive'
    refine ⟨t, ?_, (linksOnly_setRef _ _ _ _).trans hlinks, fun m j => ?_⟩
    · simp only [List.foldl_cons, softDeleteLevel_live (hlive i List.mem_cons_self), hfold]
      by_cases hi0 : i = 0
      · simp [hi0]
      · have h0 : (i == 0) = false := beq_false_of_ne hi0
        simp [h0, Ne.symm hi0]
    · rw [hnext, next_setRef]
      by_cases hm : m = n
      · subst hm
        by_cases hj : j = i
        · subst hj
          simp [hi, getNext]
        · simp [hj]
      · simp [hm]

/-- The loop over levels of `n`, all of them marked, changes nothing. -/
theorem foldl_softDeleteLevel_dead : ∀ (ls : List Nat) (b : Bool),
    (∀ i ∈ ls, (s.getNext n i).deleted = true) →
    ls.foldl (fun acc i => ((softDeleteLevel n acc.1 i).1,
        acc.2 || (softDeleteLevel n acc.1 i).2)) (s, b) = (s, b)
  | [], _, _ => rfl
  | i :: ls, b, hdead => by
    simp only [List.foldl_cons, softDeleteLevel_dead (hdead i List.mem_cons_self), Bool.or_false]
    exact foldl_softDeleteLevel_dead ls b fun j hj => hdead j (List.mem_cons_of_mem _ hj)

/-- **`softDelete` of a live node**: each of its levels is marked with its pointer kept, and
the call reports that it marked level 0. -/
theorem softDelete_live (h : ∀ i ≤ (s.heap n).level, (s.getNext n i).deleted = false) :
    ∃ t, s.softDelete n = (t, true) ∧ s.LinksOnly t ∧ ∀ m j, (t.heap m).next j =
      if m = n ∧ j ≤ (s.heap n).level then ⟨((s.heap m).next j).ptr, true⟩
      else (s.heap m).next j := by
  have hmem : ∀ j, j ∈ (List.range ((s.heap n).level + 1)).reverse ↔ j ≤ (s.heap n).level := by
    intro j
    simp only [List.mem_reverse, List.mem_range, Nat.lt_succ_iff]
  obtain ⟨t, hfold, hlinks, hnext⟩ := foldl_softDeleteLevel_live _ s false
    (List.nodup_reverse.2 List.nodup_range) fun i hi => h i ((hmem i).1 hi)
  refine ⟨t, ?_, hlinks, fun m j => ?_⟩
  · rw [softDelete_eq, hfold]
    simp [hmem]
  · simp only [hnext, hmem]

/-- **`softDelete` of a node deleted before** changes nothing and reports no mark. -/
theorem softDelete_dead (h : ∀ i ≤ (s.heap n).level, (s.getNext n i).deleted = true) :
    s.softDelete n = (s, false) := by
  rw [softDelete_eq]
  exact foldl_softDeleteLevel_dead _ false fun i hi => h i (by simpa [Nat.lt_succ_iff] using hi)

end SoftDelete

end Skiplist

/-! ## §2 — the descent after the marks

Let the entries be `A ++ e :: B`, sorted, with `e`'s node marked at each of its levels. The
walk of `findPath` to `e`'s item stops at each level between the last node of `A` there (or
the head) and the first of `B` (or the tail): above `e`'s level the two are next to each
other and nothing is written; at `e`'s levels the walk meets the marked node in between and
links the one past it (`helpDelete`). `Unlinked lo t` is the skiplist after the levels from
`lo` up; the descent is an induction on the level, with one lemma per kind of level. -/

section Descent

variable {cmp : α → α → Int} {s t : Skiplist α} {A B : List (Entry α)} {e : Entry α}
  {D : List Nat} {k : Nat}

/-- `s` with `e`'s node marked at each of its levels and, at each of these from `lo` up, the
last node of `A` (or the head) linked to the first of `B` (or the tail). -/
structure Unlinked (s : Skiplist α) (A B : List (Entry α)) (e : Entry α) (lo : Nat)
    (t : Skiplist α) : Prop where
  links : s.LinksOnly t
  next : ∀ m j, (t.heap m).next j =
    if m = e.node ∧ j ≤ e.level then ⟨((s.heap m).next j).ptr, true⟩
    else if lo ≤ j ∧ j ≤ e.level ∧ m = (levelNodes j A).getLastD s.head then
      ⟨some ((levelNodes j B).headD s.tail), false⟩
    else (s.heap m).next j

/-- Before level `k` is walked, its links other than `e`'s node's are those of `s`. -/
theorem Unlinked.next_of_ne (hu : Unlinked s A B e (k + 1) t) {m : Nat} (hm : m ≠ e.node) :
    (t.heap m).next k = (s.heap m).next k := by
  rw [hu.next, if_neg fun h => hm h.1, if_neg fun h => absurd h.1 (by omega)]

/-- Before a level above `e`'s is walked, its links are those of `s`. -/
theorem Unlinked.next_of_lt (hu : Unlinked s A B e (k + 1) t) (hk : e.level < k) (m : Nat) :
    (t.heap m).next k = (s.heap m).next k := by
  rw [hu.next, if_neg fun h => absurd h.2 (by omega), if_neg fun h => absurd h.1 (by omega)]

/-- A level above `e`'s is walked without a write. -/
theorem Unlinked.lower (hu : Unlinked s A B e (k + 1) t) (hk : e.level < k) :
    Unlinked s A B e k t := by
  refine ⟨hu.links, fun m j => ?_⟩
  rw [hu.next]
  by_cases hj : j ≤ e.level
  · have h1 : ¬ k + 1 ≤ j := by omega
    have h2 : ¬ k ≤ j := by omega
    simp [h1, h2]
  · simp [hj]

/-- A level of `e`'s is walked with the one write that links past its node. -/
theorem Unlinked.setRef (hu : Unlinked s A B e (k + 1) t) (hk : k ≤ e.level)
    (hpk : (levelNodes k A).getLastD s.head ≠ e.node) :
    Unlinked s A B e k (t.setRef ((levelNodes k A).getLastD s.head) k
      ⟨some ((levelNodes k B).headD s.tail), false⟩) := by
  refine ⟨hu.links.trans (Skiplist.linksOnly_setRef _ _ _ _), fun m j => ?_⟩
  rw [Skiplist.next_setRef, hu.next]
  by_cases hjk : j = k
  · subst hjk
    by_cases hm : m = (levelNodes j A).getLastD s.head
    · rw [if_pos ⟨hm, rfl⟩, if_neg fun h => hpk (hm.symm.trans h.1),
        if_pos ⟨Nat.le_refl j, hk, hm⟩]
    · rw [if_neg fun h => hm h.1]
      by_cases hn : m = e.node ∧ j ≤ e.level
      · rw [if_pos hn, if_pos hn]
      · rw [if_neg hn, if_neg hn, if_neg fun h => absurd h.1 (by omega),
          if_neg fun h => hm h.2.2]
  · have hlo : k + 1 ≤ j ↔ k ≤ j := by omega
    rw [if_neg fun h => hjk h.2]
    simp only [hlo]

/-- The last node of `A` at a level, or the head, is a name of the representation. -/
theorem getLastD_mem_names (j : Nat) :
    (levelNodes j A).getLastD s.head ∈ s.head :: (A ++ e :: B).map Entry.node := by
  have hsub : (s.head :: levelNodes j A).Sublist (s.head :: (A ++ e :: B).map Entry.node) := by
    refine ((levelNodes_sublist_map j A).trans ?_).cons_cons _
    rw [List.map_append]
    exact List.sublist_append_left _ _
  exact hsub.subset (getLastD_mem_cons _ _)

/-- The last node of `A` at a level, or the head, is not `e`'s node. -/
theorem Inv.getLastD_ne (h : Inv cmp s (A ++ e :: B) D) (j : Nat) :
    (levelNodes j A).getLastD s.head ≠ e.node := by
  have hnd := h.nodup
  rw [List.cons_append, List.cons_append, List.nodup_cons, List.nodup_cons,
    List.nodup_append] at hnd
  have hX : (A.map Entry.node ++ e.node :: B.map Entry.node).Nodup := by simpa using hnd.2.2.1
  intro heq
  rcases List.mem_cons.1 (getLastD_mem_cons s.head (levelNodes j A)) with hp | hp
  · -- the head is no entry's node
    have hhe : s.head = e.node := hp.symm.trans heq
    exact hnd.1 (by rw [hhe]; simp)
  · -- nor is a node of `A`
    exact (List.nodup_append.1 hX).2.2 _ ((levelNodes_sublist_map j A).subset hp) _
      List.mem_cons_self heq

variable (hc : CmpLaws cmp)

include hc in
/-- No node of `B`, nor the tail, compares below `e`'s item. -/
theorem Inv.not_lt_of_mem_after (h : Inv cmp s (A ++ e :: B) D) {j c : Nat}
    (hcB : c ∈ levelNodes j B ++ [s.tail]) : ¬ compareItems cmp (s.heap c).itm (some e.item) < 0 := by
  have hfrom : c ∈ levelNodes j (entriesFrom cmp e.item (A ++ e :: B)) ++ [s.tail] := by
    rw [(entriesBelow_of_sorted hc h.sorted).2]
    rcases List.mem_append.1 hcB with hb | hb
    · obtain ⟨b, hb, hjb, hbc⟩ := mem_levelNodes.1 hb
      exact List.mem_append_left _ (mem_levelNodes.2 ⟨b, List.mem_cons_of_mem _ hb, hjb, hbc⟩)
    · exact List.mem_append_right _ hb
  exact @Items.not_lt_of_mem_from α cmp s (A ++ e :: B) e.item (fun _ _ _ => hc.lt_trans) h.items
    j c hfrom

/-- The nodes the walk passes at a level, those of `A`, compare below `e`'s item. -/
theorem Unlinked.compare_lt (h : Inv cmp s (A ++ e :: B) D) {lo : Nat} (hu : Unlinked s A B e lo t)
    {y : Nat} (hy : y ∈ levelNodes k A) : compareItems cmp (t.heap y).itm (some e.item) < 0 := by
  obtain ⟨a, ha, -, rfl⟩ := mem_levelNodes.1 hy
  rw [hu.links.itm, h.items.compare_entry (List.mem_append_left _ ha)]
  exact (List.pairwise_append.1 h.sorted).2.2 a ha e List.mem_cons_self

/-- The walk of a level passes fewer nodes than the skiplist has. -/
theorem Inv.length_levelNodes_lt (h : Inv cmp s (A ++ e :: B) D) (k : Nat) :
    (levelNodes k A).length + 1 < s.alloc + 1 := by
  have hA : (levelNodes k A).length ≤ A.length :=
    (levelNodes_sublist_map k A).length_le.trans (by simp)
  have hE := h.length_lt
  simp only [List.length_append, List.length_cons] at hE
  omega

include hc in
/-- **A level of `e`'s**: the walk meets its marked node after the last node of `A`, links the
one past it to the first of `B` (or the tail), and stops there. -/
theorem searchLevel_marked (h : Inv cmp s (A ++ e :: B) D) (hk : k ≤ maxLevel) (hke : k ≤ e.level)
    (hu : Unlinked s A B e (k + 1) t) {p : Nat} (hp : p ∈ s.head :: levelNodes k A)
    (sts : Stats) (buf : ActionBuffer) (v : Int) :
    Skiplist.searchLevel cmp (some e.item) (s.alloc + 1) k (t, sts, buf, p, v) =
      .ok (t.setRef ((levelNodes k A).getLastD s.head) k
          ⟨some ((levelNodes k B).headD s.tail), false⟩,
        (if k = 0 then sts.add (t.heap e.node).level (-1) else sts),
        buf.set k ((levelNodes k A).getLastD s.head) ((levelNodes k B).headD s.tail),
        (levelNodes k A).getLastD s.head,
        compareItems cmp (t.heap ((levelNodes k B).headD s.tail)).itm (some e.item)) := by
  obtain ⟨R, hR⟩ := exists_cons_headD (levelNodes k B) s.tail
  have hcnot := h.not_lt_of_mem_after hc (show (levelNodes k B).headD s.tail ∈ _ by
    rw [hR]
    exact List.mem_cons_self)
  rw [← hu.links.itm] at hcnot
  generalize (levelNodes k B).headD s.tail = c at hR hcnot ⊢
  have hlevel := h.levels k hk
  -- the level: the nodes of `A`, `e`'s marked node, then `c`
  have hshape : s.head :: levelNodes k (A ++ e :: B) ++ [s.tail] =
      (s.head :: levelNodes k A) ++ e.node :: c :: R := by
    have he : levelNodes k (e :: B) = e.node :: levelNodes k B := by simp [levelNodes, hke]
    calc s.head :: levelNodes k (A ++ e :: B) ++ [s.tail]
        = (s.head :: levelNodes k A) ++ e.node :: (levelNodes k B ++ [s.tail]) := by
          simp [levelNodes_append, he]
      _ = _ := by rw [hR]
  have hlev : Path s.heap k ((s.head :: levelNodes k A) ++ e.node :: c :: R) :=
    hshape ▸ hlevel.1
  have hnd : ((s.head :: levelNodes k A) ++ e.node :: c :: R).Nodup := hshape ▸ h.nodup_level k
  have hnA : ∀ a ∈ s.head :: levelNodes k A, a ≠ e.node := fun a ha =>
    (List.nodup_append.1 hnd).2.2 a ha e.node List.mem_cons_self
  have hcA : c ∉ s.head :: levelNodes k A := fun hm =>
    (List.nodup_append.1 hnd).2.2 c hm c (List.mem_cons_of_mem _ List.mem_cons_self) rfl
  have hce : c ≠ e.node := by
    intro hce
    have hnc := (List.nodup_cons.1 (List.nodup_append.1 hnd).2.1).1
    rw [← hce] at hnc
    exact hnc List.mem_cons_self
  -- up to `e`'s node the level is as in `s`; the node itself is marked, pointing to `c`
  have hpath : Path t.heap k (s.head :: levelNodes k A ++ [e.node]) := by
    have hl : Path s.heap k ((s.head :: levelNodes k A ++ [e.node]) ++ c :: R) := by
      simpa using hlev
    exact hl.append_left.congr_snoc fun a ha => hu.next_of_ne (hnA a ha)
  have hn : t.getNext e.node k = ⟨some c, true⟩ := by
    rw [Skiplist.getNext, hu.next, if_pos ⟨rfl, hke⟩, hlev.next_eq]
  have hcd : (t.getNext c k).deleted = false := by
    rw [Skiplist.getNext, hu.next_of_ne hce]
    exact hlevel.deleted_false c (by rw [hshape]; simp)
  exact Skiplist.searchLevel_unlink cmp (some e.item) hpath hn hcd hcnot
    (fun y hy => hu.compare_lt h hy) hcA hp (h.length_levelNodes_lt k) buf v

include hc in
/-- **A level above `e`'s**: the last node of `A` links to the first of `B` (or the tail),
where the walk stops, and nothing is written. -/
theorem searchLevel_above (h : Inv cmp s (A ++ e :: B) D) (hk : k ≤ maxLevel) (hlt : e.level < k)
    (hu : Unlinked s A B e (k + 1) t) {p : Nat} (hp : p ∈ s.head :: levelNodes k A)
    (sts : Stats) (buf : ActionBuffer) (v : Int) :
    Skiplist.searchLevel cmp (some e.item) (s.alloc + 1) k (t, sts, buf, p, v) =
      .ok (t, sts, buf.set k ((levelNodes k A).getLastD s.head) ((levelNodes k B).headD s.tail),
        (levelNodes k A).getLastD s.head,
        compareItems cmp (t.heap ((levelNodes k B).headD s.tail)).itm (some e.item)) := by
  obtain ⟨R, hR⟩ := exists_cons_headD (levelNodes k B) s.tail
  have hcnot := h.not_lt_of_mem_after hc (show (levelNodes k B).headD s.tail ∈ _ by
    rw [hR]
    exact List.mem_cons_self)
  rw [← hu.links.itm] at hcnot
  generalize (levelNodes k B).headD s.tail = c at hR hcnot ⊢
  have hlevel := h.levels k hk
  -- the level: the nodes of `A`, then `c`; `e`'s node is not on it
  have hshape : s.head :: levelNodes k (A ++ e :: B) ++ [s.tail] =
      (s.head :: levelNodes k A ++ [c]) ++ R := by
    have he : levelNodes k (e :: B) = levelNodes k B := by
      simp [levelNodes, show ¬ k ≤ e.level by omega]
    calc s.head :: levelNodes k (A ++ e :: B) ++ [s.tail]
        = (s.head :: levelNodes k A) ++ (levelNodes k B ++ [s.tail]) := by
          simp [levelNodes_append, he]
      _ = _ := by rw [hR]; simp
  have hpath : Path t.heap k (s.head :: levelNodes k A ++ [c]) :=
    (hshape ▸ hlevel.1 : Path s.heap k _).append_left.congr fun a _ => hu.next_of_lt hlt a
  have hcd : (t.getNext c k).deleted = false := by
    rw [Skiplist.getNext, hu.next_of_lt hlt]
    exact hlevel.deleted_false c (by rw [hshape]; simp)
  exact Skiplist.searchLevel_pass cmp (some e.item) hpath hcd hcnot
    (fun y hy => hu.compare_lt h hy) hp (by have := h.length_levelNodes_lt k; omega) buf v

include hc in
/-- **One level of the descent**, from a node of `A` at level `k` or the head: the walk stops
between the last node of `A` there and the first of `B`, and links the one past `e`'s node when
the level is one of `e`'s. -/
theorem searchLevel_unlinked (h : Inv cmp s (A ++ e :: B) D) (hk : k ≤ maxLevel)
    (hu : Unlinked s A B e (k + 1) t) {p : Nat} (hp : p ∈ s.head :: levelNodes k A)
    (sts : Stats) (buf : ActionBuffer) (v : Int) :
    ∃ t' sts' v', Skiplist.searchLevel cmp (some e.item) (s.alloc + 1) k (t, sts, buf, p, v) =
      .ok (t', sts', buf.set k ((levelNodes k A).getLastD s.head) ((levelNodes k B).headD s.tail),
        (levelNodes k A).getLastD s.head, v') ∧ Unlinked s A B e k t' := by
  by_cases hke : k ≤ e.level
  · exact ⟨_, _, _, searchLevel_marked hc h hk hke hu hp sts buf v,
      hu.setRef hke (h.getLastD_ne k)⟩
  · have hlt : e.level < k := by omega
    exact ⟨_, _, _, searchLevel_above hc h hk hlt hu hp sts buf v, hu.lower hlt⟩

include hc in
/-- **The descent after the marks** from level `k` to 0: each level is walked as
`searchLevel_unlinked` says, from the node the level above stopped at. -/
theorem searchLevels_unlink (h : Inv cmp s (A ++ e :: B) D) :
    ∀ k ≤ maxLevel, ∀ t, Unlinked s A B e (k + 1) t → ∀ p ∈ s.head :: levelNodes k A,
      ∀ (sts : Stats) (buf : ActionBuffer) (v : Int), ∃ t' r,
        Skiplist.searchLevels cmp (some e.item) (s.alloc + 1) k (t, sts, buf, p, v) =
          .ok (t', r) ∧ Unlinked s A B e 0 t'
  | 0, hk, t, hu, p, hp, sts, buf, v => by
    obtain ⟨t', sts', v', hrun, hu'⟩ := searchLevel_unlinked hc h hk hu hp sts buf v
    exact ⟨t', _, hrun, hu'⟩
  | k + 1, hk, t, hu, p, hp, sts, buf, v => by
    obtain ⟨t', sts', v', hrun, hu'⟩ := searchLevel_unlinked hc h hk hu hp sts buf v
    -- level `k` is walked from where level `k + 1` stopped: a node of `A` at level `k`, or the head
    have hp' : (levelNodes (k + 1) A).getLastD s.head ∈ s.head :: levelNodes k A :=
      (List.cons_sublist_cons.2 (levelNodes_sublist k A)).subset (getLastD_mem_cons _ _)
    obtain ⟨t'', r, hrun', hu''⟩ := searchLevels_unlink h k (by omega) t' hu' _ hp' sts' _ v'
    refine ⟨t'', r, ?_, hu''⟩
    simp only [Skiplist.searchLevels, hrun, bind, Except.bind]
    exact hrun'

end Descent

/-! ## §3 — the representation without the node -/

section Unlink

variable {cmp : α → α → Int} {s t : Skiplist α} {A B : List (Entry α)} {e : Entry α}
  {D : List Nat}

/-- **A node unlinked at each of its levels** leaves the entries and joins the nodes
deleted. -/
theorem Inv.unlink (h : Inv cmp s (A ++ e :: B) D) (hu : Unlinked s A B e 0 t) :
    Inv cmp t (A ++ B) (e.node :: D) := by
  have hel : (s.heap e.node).level = e.level := (h.entry e (by simp)).2
  have hsub : ∀ f ∈ A ++ B, f ∈ A ++ e :: B := fun f hf => by
    rcases List.mem_append.1 hf with hf | hf
    · exact List.mem_append_left _ hf
    · exact List.mem_append_right _ (List.mem_cons_of_mem _ hf)
  -- the same names, `e`'s node moved from the entries to the deleted nodes
  have hperm : (t.head :: t.tail :: (A ++ B).map Entry.node ++ e.node :: D).Perm
      (s.head :: s.tail :: (A ++ e :: B).map Entry.node ++ D) := by
    rw [hu.links.head, hu.links.tail]
    simp only [List.map_append, List.map_cons, List.cons_append, List.append_assoc]
    exact ((List.perm_middle.append_left _).cons _).cons _
  -- a link is as in `s` off `e`'s levels, and away from `e`'s node and the node before it
  have hsame : ∀ m j, (j ≤ e.level → m ≠ e.node ∧ m ≠ (levelNodes j A).getLastD s.head) →
      (t.heap m).next j = (s.heap m).next j := by
    intro m j hmj
    rw [hu.next]
    by_cases hj : j ≤ e.level
    · rw [if_neg fun h' => (hmj hj).1 h'.1, if_neg fun h' => (hmj hj).2 h'.2.2]
    · rw [if_neg fun h' => hj h'.2, if_neg fun h' => hj h'.2.1]
  refine ⟨fun i hi => ?_, ?_, ?_, fun f hf => ?_, fun f hf => ?_, ?_, ?_,
    hperm.nodup_iff.2 h.nodup, fun a ha => ?_, fun d hd i hi => ?_⟩
  · by_cases hil : i ≤ e.level
    · -- one of `e`'s levels: the node before it is linked past it
      refine LevelOk.unlink (h.levels i hi) (h.nodup_level i) hil hu.links.head hu.links.tail ?_
        fun a hap hax => hsame a i fun _ => ⟨hax, hap⟩
      rw [hu.next, if_neg fun h' => h.getLastD_ne i h'.1, if_pos ⟨Nat.zero_le _, hil, rfl⟩]
    · -- a level above it: unchanged, and without it
      have hnodes : levelNodes i (A ++ e :: B) = levelNodes i (A ++ B) :=
        levelNodes_insert_of_lt (by omega)
      have hlev : LevelOk s i (A ++ B) := by
        unfold LevelOk
        rw [← hnodes]
        exact h.levels i hi
      exact hlev.frame hu.links.head hu.links.tail fun a _ => hsame a i fun hj => absurd hj hil
  · rw [hu.links.head, hu.links.itm]
    exact h.head_itm
  · rw [hu.links.tail, hu.links.itm]
    exact h.tail_itm
  · rw [hu.links.itm, hu.links.node_level]
    exact h.entry f (hsub f hf)
  · rw [hu.links.level]
    exact h.level f (hsub f hf)
  · rw [hu.links.level]
    exact h.level_le
  · exact h.sorted.sublist ((List.sublist_cons_self e B).append_left A)
  · rw [hu.links.alloc]
    exact h.alloc a (hperm.subset ha)
  · rw [hu.links.node_level] at hi
    rcases List.mem_cons.1 hd with rfl | hd
    · -- `e`'s node, marked at each of its levels
      rw [Skiplist.getNext, hu.next, if_pos ⟨rfl, hel ▸ hi⟩]
    · -- a node deleted before is neither `e`'s nor a node before it
      have hde : d ≠ e.node := fun hde => h.not_mem_dead (by rw [hde]; simp) hd
      have hdp : d ≠ (levelNodes i A).getLastD s.head := fun hdp =>
        h.not_mem_dead (by rw [hdp]; exact getLastD_mem_names i) hd
      rw [Skiplist.getNext, hsame d i fun _ => ⟨hde, hdp⟩]
      exact h.dead d hd i hi

end Unlink

/-! ## §4 — `DeleteNode` and `Delete` -/

section Calls

variable {cmp : α → α → Int} {s : Skiplist α} {c : Contents α}

/-- The nodes of the entries are distinct. -/
theorem Inv.nodup_nodes {E : List (Entry α)} {D : List Nat} (h : Inv cmp s E D) :
    (E.map Entry.node).Nodup :=
  h.nodup.sublist (((List.sublist_append_left _ D).cons s.tail).cons s.head)

/-- With distinct nodes, the entries but `e`'s node are those around it. -/
theorem filter_node_ne {A B : List (Entry α)} {e : Entry α}
    (hnd : ((A ++ e :: B).map Entry.node).Nodup) :
    (A ++ e :: B).filter (fun f => f.node != e.node) = A ++ B := by
  rw [List.map_append, List.map_cons, List.nodup_append, List.nodup_cons] at hnd
  have hA : A.filter (fun f => f.node != e.node) = A := List.filter_eq_self.2 fun a ha => by
    simpa using hnd.2.2 a.node (List.mem_map_of_mem ha) e.node List.mem_cons_self
  have hB : B.filter (fun f => f.node != e.node) = B := List.filter_eq_self.2 fun b hb => by
    have hne : e.node ≠ b.node := fun heq => hnd.2.1.1 (heq ▸ List.mem_map_of_mem hb)
    simpa using Ne.symm hne
  simp [List.filter_append, hA, hB]

/-- With distinct nodes, the first entry of `e`'s node is `e`. -/
theorem find?_node_eq {E : List (Entry α)} (hnd : (E.map Entry.node).Nodup) {e : Entry α}
    (he : e ∈ E) : E.find? (fun f => f.node == e.node) = some e := by
  obtain ⟨A, B, rfl⟩ := List.append_of_mem he
  rw [List.map_append, List.map_cons, List.nodup_append] at hnd
  have hA : A.find? (fun f => f.node == e.node) = none := List.find?_eq_none.2 fun a ha => by
    simpa using hnd.2.2 a.node (List.mem_map_of_mem ha) e.node List.mem_cons_self
  simp [List.find?_append, hA]

variable (hc : CmpLaws cmp)

include hc in
/-- **`deleteNode` of an entry's node**: marked at each of its levels, then unlinked at each of
them by `findPath` to its item; the entry leaves and its node is deleted. -/
theorem deleteNode_live (h : Holds cmp s c) {e : Entry α} (he : e ∈ c.entries)
    (buf : ActionBuffer) (sts : Stats) :
    ∃ s' buf' sts', s.deleteNode e.node cmp buf sts = .ok (true, s', buf', sts') ∧
      Holds cmp s' (c.remove e) := by
  obtain ⟨hinv, halloc, hlevel⟩ := h
  obtain ⟨A, B, hAB⟩ := List.append_of_mem he
  rw [hAB] at hinv
  have heAB : e ∈ A ++ e :: B := by simp
  have hel : (s.heap e.node).level = e.level := (hinv.entry e heAB).2
  have hEl : e.level ≤ s.level := hinv.level e heAB
  -- each level of the node is one of the skiplist's, with the node on it, so not marked yet
  have hlive : ∀ i ≤ (s.heap e.node).level, (s.getNext e.node i).deleted = false := by
    intro i hi
    rw [hel] at hi
    refine (hinv.levels i (by have := hinv.level_le; omega)).deleted_false e.node ?_
    have hmem : e.node ∈ levelNodes i (A ++ e :: B) := mem_levelNodes.2 ⟨e, heAB, hi, rfl⟩
    simp [hmem]
  obtain ⟨sm, hsoft, hlinks, hnext⟩ := Skiplist.softDelete_live hlive
  -- the marks, before any level is walked
  have hu : Unlinked s A B e (s.level + 1) sm := by
    refine ⟨hlinks, fun m j => ?_⟩
    rw [hnext, hel]
    by_cases h1 : m = e.node ∧ j ≤ e.level
    · rw [if_pos h1, if_pos h1]
    · rw [if_neg h1, if_neg h1, if_neg fun h' => absurd (h'.1.trans h'.2.1) (by omega)]
  obtain ⟨t, ⟨sts', buf', q, w⟩, hrun, hu'⟩ := searchLevels_unlink hc hinv s.level hinv.level_le
    sm hu s.head List.mem_cons_self sts buf 1
  have hentries : (c.remove e).entries = A ++ B := by
    show c.entries.filter _ = _
    rw [hAB]
    exact filter_node_ne hinv.nodup_nodes
  refine ⟨t, buf', sts', ?_, ⟨?_, ?_, ?_⟩⟩
  · simp only [Skiplist.deleteNode, (hinv.entry e heAB).1, hsoft, Skiplist.findPath, hlinks.alloc,
      hlinks.level, hlinks.head, hrun, bind, Except.bind, pure, Except.pure, if_true]
  · rw [hentries]
    exact hinv.unlink hu'
  · rw [hu'.links.alloc]
    exact halloc
  · rw [hu'.links.level]
    exact hlevel

/-- **`deleteNode` of a node deleted before**: no level is marked, and nothing changes. -/
theorem deleteNode_dead (h : Holds cmp s c) {n : Nat} (hn : n ∈ c.dead) (buf : ActionBuffer)
    (sts : Stats) : s.deleteNode n cmp buf sts = .ok (false, s, buf, sts) := by
  simp only [Skiplist.deleteNode, Skiplist.softDelete_dead (h.inv.dead n hn), pure, Except.pure]
  rfl

include hc in
/-- **`DeleteNode`** of a node an insert returned replies and changes the skiplist as
`Contents.step` says. -/
theorem deleteNode_ok (h : Holds cmp s c) {n : Nat} (hn : c.Admits (.deleteNode n))
    (buf : ActionBuffer) (sts : Stats) :
    ∃ b s' buf' sts', s.deleteNode n cmp buf sts = .ok (b, s', buf', sts') ∧
      (c.step cmp (.deleteNode n)).1 = .deleted b ∧ Holds cmp s' (c.step cmp (.deleteNode n)).2 := by
  rcases hn with hn | hn
  · -- an entry's node
    obtain ⟨e, he, rfl⟩ := List.mem_map.1 hn
    have hfind := find?_node_eq h.inv.nodup_nodes he
    obtain ⟨s', buf', sts', hdel, hholds⟩ := deleteNode_live hc h he buf sts
    refine ⟨true, s', buf', sts', hdel, ?_, ?_⟩
    · simp [Contents.step, Contents.removeFirst, hfind]
    · simpa [Contents.step, Contents.removeFirst, hfind] using hholds
  · -- a node deleted before: no entry has it
    have hfind : c.entries.find? (fun f => f.node == n) = none := List.find?_eq_none.2 fun f hf => by
      have hne : f.node ≠ n := fun heq =>
        h.inv.not_mem_dead (List.mem_cons_of_mem _ (heq ▸ List.mem_map_of_mem hf)) hn
      simpa using hne
    refine ⟨false, s, buf, sts, deleteNode_dead h hn buf sts, ?_, ?_⟩
    · simp [Contents.step, Contents.removeFirst, hfind]
    · simpa [Contents.step, Contents.removeFirst, hfind] using h

include hc in
/-- **`Delete`** replies and changes the skiplist as `Contents.step` says: `findPath` finds the
entry equal to the item, whose node `deleteNode` deletes. -/
theorem delete_ok (h : Holds cmp s c) (itm : α) (buf : ActionBuffer) (sts : Stats) :
    ∃ b s' buf' sts', s.delete itm cmp buf sts = .ok (b, s', buf', sts') ∧
      (c.step cmp (.delete itm)).1 = .deleted b ∧ Holds cmp s' (c.step cmp (.delete itm)).2 := by
  obtain ⟨buf1, hfind, hbuf⟩ := @findPath_ok α cmp s c.entries itm c.dead
    (fun _ _ _ => hc.lt_trans) h.inv buf sts
  have hfound := h.inv.found hc itm
  rw [hfound] at hfind
  cases hf : c.entries.find? (fun e => cmp e.item itm == 0) with
  | none =>
    refine ⟨false, s, buf1, sts, ?_, ?_, ?_⟩
    · simp [Skiplist.delete, hfind, hf, bind, Except.bind, pure, Except.pure]
    · simp [Contents.step, Contents.removeFirst, hf]
    · simpa [Contents.step, Contents.removeFirst, hf] using h
  | some e =>
    have he : e ∈ c.entries := List.mem_of_find?_eq_some hf
    -- `succs[0]` is the node found, `e`'s
    have hsucc : buf1.succs 0 = some e.node := by
      rw [(hbuf 0 (Nat.zero_le _)).2]
      rw [hf] at hfound
      split_ifs at hfound with h0
      · simpa using hfound
      · simp at hfound
    obtain ⟨s', buf', sts', hdel, hholds⟩ := deleteNode_live hc h he buf1 sts
    refine ⟨true, s', buf', sts', ?_, ?_, ?_⟩
    · simp only [Skiplist.delete, hfind, hf, Option.map_some, bind, Except.bind, hsucc, deref,
        Option.elim, hdel]
    · simp [Contents.step, Contents.removeFirst, hf]
    · simpa [Contents.step, Contents.removeFirst, hf] using hholds

end Calls

end Memdb.Store
