import GsiIndexing.Memdb.SkiplistRefines

/-!
# The bottom-up builder: segments filled by `Add`

`Segment.Add` takes a node from the builder's store and links it, at each of its levels, after
the last node the segment linked there. A segment thus holds the nodes of each level as a
`Chain`: nodes linked in order, the first and the last of them in the segment's `head` and
`tail` arrays, the last one's link nil. `Assemble`'s own arrays hold the segments it has
stitched the same way (SkiplistAssemble).

Writes are tracked by `LinksOf`, the nodes and the levels whose links may differ; a chain with
its nodes or its level outside them is kept (`Chain.linksOf`).

* **`Chain.snoc`**, **`Chain.append`** — a node linked after a chain's last, and a chain
  linked after another;
* **`foldl_linkLevel`** — `Add`'s loop: the new node joins the segment's chain at each of its
  levels and nothing else moves;
* **`Built.add`** — one `Add` keeps `Built`: each segment's chains hold its entries in the
  order they came, the segments' nodes are apart and the store's head still links to its tail;
* **`built_addAll`** — from `NewBuilder` and fresh segments, any interleaving of `Add` calls
  leaves each segment holding exactly the items added to it, in order.
-/

namespace Memdb.Store

variable {α : Type}

/-! ## §1 — writes of some links -/

namespace Skiplist

theorem setNext_eq (s : Skiplist α) (n i : Nat) (p : Option Nat) :
    s.setNext n i p = s.setRef n i ⟨p, false⟩ := rfl

/-- `t` differs from `s` in the links of the nodes `W` at the levels `L` only. -/
structure LinksOf (s t : Skiplist α) (W L : List Nat) : Prop where
  links : s.LinksOnly t
  same : ∀ m j, m ∉ W ∨ j ∉ L → (t.heap m).next j = (s.heap m).next j

section Writes

variable {s t u : Skiplist α} {W L W' L' : List Nat}

theorem LinksOf.refl (s : Skiplist α) (W L : List Nat) : s.LinksOf s W L :=
  ⟨LinksOnly.refl s, fun _ _ _ => rfl⟩

theorem LinksOf.trans (h₁ : s.LinksOf t W L) (h₂ : t.LinksOf u W L) : s.LinksOf u W L :=
  ⟨h₁.links.trans h₂.links, fun m j h => (h₂.same m j h).trans (h₁.same m j h)⟩

theorem LinksOf.mono (h : s.LinksOf t W L) (hW : W ⊆ W') (hL : L ⊆ L') : s.LinksOf t W' L' := by
  refine ⟨h.links, fun m j hmj => h.same m j ?_⟩
  rcases hmj with hm | hj
  · exact .inl fun hw => hm (hW hw)
  · exact .inr fun hl => hj (hL hl)

theorem linksOf_setNext {n i : Nat} (hn : n ∈ W) (hi : i ∈ L) (p : Option Nat) :
    s.LinksOf (s.setNext n i p) W L := by
  refine ⟨linksOnly_setRef s n i _, fun m j hmj => Skiplist.next_setRef_of_ne _ _ _ _ ?_⟩
  rcases hmj with hm | hj
  · exact .inl fun h => hm (h ▸ hn)
  · exact .inr fun h => hj (h ▸ hi)

end Writes

/-! `NewLevel` moves the store's `level` only. -/

section NewLevel

variable (s : Skiplist α) (draws : Nat)

@[simp] theorem newLevel_heap : (s.newLevel draws).2.heap = s.heap := by
  unfold newLevel
  dsimp only
  split <;> rfl

@[simp] theorem newLevel_alloc : (s.newLevel draws).2.alloc = s.alloc := by
  unfold newLevel
  dsimp only
  split <;> rfl

@[simp] theorem newLevel_head : (s.newLevel draws).2.head = s.head := by
  unfold newLevel
  dsimp only
  split <;> rfl

@[simp] theorem newLevel_tail : (s.newLevel draws).2.tail = s.tail := by
  unfold newLevel
  dsimp only
  split <;> rfl

theorem newLevel_fst_le : (s.newLevel draws).1 ≤ maxLevel := by
  unfold newLevel
  dsimp only
  split <;> omega

end NewLevel

end Skiplist

/-! ## §2 — chains held by a head and a tail -/

/-- The nodes `N` of level `l`, held by the arrays `head` and `tail`: their first and their last
node (nil when there is none), linked in order at level `l`, the last one's link nil. -/
def Chain (s : Skiplist α) (head tail : Nat → Option Nat) (l : Nat) (N : List Nat) : Prop :=
  head l = N.head? ∧ tail l = N.getLast? ∧ Path s.heap l N ∧
    ∀ t ∈ N.getLast?, (s.heap t).next l = ⟨none, false⟩

section Chains

variable {s s' : Skiplist α} {head tail head' tail' : Nat → Option Nat} {l : Nat} {N M : List Nat}

theorem chain_nil (hh : head l = none) (ht : tail l = none) : Chain s head tail l [] :=
  ⟨hh, ht, trivial, by simp⟩

/-- A chain with nothing in its `tail` entry is empty. -/
theorem Chain.eq_nil_of_tail (h : Chain s head tail l N) (ht : tail l = none) : N = [] :=
  List.getLast?_eq_none_iff.1 (h.2.1.symm.trans ht)

/-- A chain with nothing in its `head` entry is empty. -/
theorem Chain.eq_nil_of_head (h : Chain s head tail l N) (hh : head l = none) : N = [] :=
  List.head?_eq_none_iff.1 (h.1.symm.trans hh)

/-- A chain whose `head` and `tail` entries and links are the same elsewhere. -/
theorem Chain.congr (h : Chain s head tail l N) (hh : head' l = head l) (ht : tail' l = tail l)
    (hsame : ∀ a ∈ N, (s'.heap a).next l = (s.heap a).next l) : Chain s' head' tail' l N := by
  obtain ⟨h₁, h₂, hp, hlast⟩ := h
  refine ⟨hh.trans h₁, ht.trans h₂, hp.congr hsame, fun t htl => ?_⟩
  rw [hsame t (List.mem_of_getLast? htl)]
  exact hlast t htl

/-- **The frame lemma** of chains: writes to the links of other nodes, or of other levels, keep
a chain. -/
theorem Chain.linksOf (h : Chain s head tail l N) {W L : List Nat} (hw : s.LinksOf s' W L)
    (hout : ∀ a ∈ N, a ∉ W ∨ l ∉ L) : Chain s' head tail l N :=
  h.congr rfl rfl fun a ha => hw.same a l (hout a ha)

/-- One node, not linked at level `l`, held at both ends. -/
theorem chain_single {x : Nat} (hh : head l = some x) (ht : tail l = some x)
    (hxn : (s.heap x).next l = ⟨none, false⟩) : Chain s head tail l [x] :=
  ⟨hh, ht, trivial, by simpa using hxn⟩

/-- **A node linked after the last**: the last node's link goes to `x`, which becomes the
chain's last. -/
theorem Chain.snoc (h : Chain s head tail l N) (hnd : N.Nodup) {t x : Nat} (ht : tail l = some t)
    (hx : x ∉ N) (hxn : (s.heap x).next l = ⟨none, false⟩) :
    Chain (s.setNext t l (some x)) head (Function.update tail l (some x)) l (N ++ [x]) := by
  obtain ⟨hh, htl, hp, -⟩ := h
  obtain ⟨P, rfl⟩ := List.getLast?_eq_some_iff.1 (htl.symm.trans ht)
  have htP : t ∉ P := fun htP => (List.nodup_append.1 hnd).2.2 t htP t List.mem_cons_self rfl
  have hxt : x ≠ t := fun hxt => hx (hxt ▸ List.mem_append_right P List.mem_cons_self)
  refine ⟨?_, by simp, ?_, ?_⟩
  · cases P <;> simp [hh]
  · -- `P`'s links stay, `t`'s now goes to `x`
    have hP : Path (s.setNext t l (some x)).heap l (P ++ [t]) :=
      hp.congr_snoc fun a ha => Skiplist.next_setRef_of_ne _ _ _ _ (.inl fun hat => htP (hat ▸ ha))
    have hlink : Path (s.setNext t l (some x)).heap l [t, x] := by
      simp [Skiplist.setNext_eq]
    simpa using hP.append hlink
  · intro y hy
    simp only [List.getLast?_concat, Option.mem_def, Option.some.injEq] at hy
    subst hy
    rw [Skiplist.setNext_eq, Skiplist.next_setRef_of_ne _ _ _ _ (.inl hxt)]
    exact hxn

/-- **Two chains stitched**: the last node of the first links to the first of the second, whose
last is the new last. -/
theorem Chain.append (hN : Chain s head tail l N) (hM : Chain s head' tail' l M)
    (hnd : (N ++ M).Nodup) {t h u : Nat} (ht : tail l = some t) (hh : head' l = some h)
    (hu : tail' l = some u) :
    Chain (s.setNext t l (some h)) head (Function.update tail l (some u)) l (N ++ M) := by
  obtain ⟨hhN, htN, hpN, -⟩ := hN
  obtain ⟨hhM, htlM, hpM, hlM⟩ := hM
  obtain ⟨P, rfl⟩ := List.getLast?_eq_some_iff.1 (htN.symm.trans ht)
  obtain ⟨Q, rfl⟩ := List.head?_eq_some_iff.1 (hhM.symm.trans hh)
  have hdisj := (List.nodup_append.1 hnd).2.2
  have htP : t ∉ P := fun htP =>
    (List.nodup_append.1 (List.nodup_append.1 hnd).1).2.2 t htP t List.mem_cons_self rfl
  have htM : ∀ y ∈ h :: Q, y ≠ t := fun y hy hyt =>
    hdisj t (List.mem_append_right P List.mem_cons_self) y hy hyt.symm
  have hsame : ∀ y ∈ h :: Q, ((s.setNext t l (some h)).heap y).next l = (s.heap y).next l :=
    fun y hy => Skiplist.next_setRef_of_ne _ _ _ _ (.inl (htM y hy))
  refine ⟨?_, ?_, ?_, ?_⟩
  · cases P <;> simp [hhN]
  · rw [Function.update_self, ← hu, htlM, List.getLast?_append, List.getLast?_cons]
    rfl
  · -- `P`'s links and `M`'s stay, `t`'s now goes to `h`
    have hP : Path (s.setNext t l (some h)).heap l (P ++ [t]) :=
      hpN.congr_snoc fun a ha => Skiplist.next_setRef_of_ne _ _ _ _ (.inl fun hat => htP (hat ▸ ha))
    have hlink : Path (s.setNext t l (some h)).heap l (t :: h :: Q) :=
      ⟨by simp [Skiplist.setNext_eq], hpM.congr hsame⟩
    simpa using hP.append hlink
  · intro y hy
    have hy' : y ∈ (h :: Q).getLast? := by simpa using hy
    rw [hsame y (List.mem_of_getLast? hy')]
    exact hlM y hy'

end Chains

/-! ## §3 — `Add` -/

section Add

variable {l : Nat}

theorem linkLevel_of_some {seg : Segment} {t : Nat} (ht : seg.tail l = some t) (x : Nat)
    (s : Skiplist α) :
    Segment.linkLevel x (s, seg) l =
      (s.setNext t l (some x), { seg with tail := Function.update seg.tail l (some x) }) := by
  simp [Segment.linkLevel, ht]

theorem linkLevel_of_none {seg : Segment} (ht : seg.tail l = none) (x : Nat) (s : Skiplist α) :
    Segment.linkLevel x (s, seg) l =
      (s, { seg with
        head := Function.update seg.head l (some x), tail := Function.update seg.tail l (some x) }) := by
  simp [Segment.linkLevel, ht]

/-- `Segment.Add` with its `let`s named by what they compute. -/
theorem Segment.add_eq (seg : Segment) (s : Skiplist α) (itm : α) (draws : Nat) :
    seg.add s itm draws = (List.range ((s.newLevel draws).1 + 1)).foldl
      (Segment.linkLevel (s.newLevel draws).2.alloc)
      (((s.newLevel draws).2.newNode (some itm) (s.newLevel draws).1).2,
        { seg with sts := seg.sts.add (s.newLevel draws).1 1 }) := rfl

/-- At level `l`, `Add` writes only the link of the chain's last node. -/
theorem linksOf_linkLevel {s : Skiplist α} {seg : Segment} {N W L : List Nat}
    (h : Chain s seg.head seg.tail l N) (hW : ∀ a ∈ N, a ∈ W) (hl : l ∈ L) (x : Nat) :
    s.LinksOf (Segment.linkLevel x (s, seg) l).1 W L := by
  cases ht : seg.tail l with
  | none =>
    rw [linkLevel_of_none ht]
    exact Skiplist.LinksOf.refl s W L
  | some t =>
    rw [linkLevel_of_some ht]
    exact Skiplist.linksOf_setNext (hW t (List.mem_of_getLast? (h.2.1.symm.trans ht))) hl _

/-- **`Add` at one of the node's levels**: `x` becomes the last node of the segment's chain of
level `l₀`, and the chains of the other levels stay. -/
theorem linkLevel_chains {s : Skiplist α} {seg : Segment} {N : Nat → List Nat} {x l₀ : Nat}
    (hch : ∀ l, Chain s seg.head seg.tail l (N l)) (hnd : (N l₀).Nodup) (hx : x ∉ N l₀)
    (hxn : (s.heap x).next l₀ = ⟨none, false⟩) (l : Nat) :
    Chain (Segment.linkLevel x (s, seg) l₀).1 (Segment.linkLevel x (s, seg) l₀).2.head
      (Segment.linkLevel x (s, seg) l₀).2.tail l (Function.update N l₀ (N l₀ ++ [x]) l) := by
  cases ht : seg.tail l₀ with
  | none =>
    -- the segment had no node at `l₀`: `x` is its first
    rw [linkLevel_of_none ht]
    by_cases hl : l = l₀
    · subst hl
      rw [Function.update_self, (hch l).eq_nil_of_tail ht]
      exact chain_single (by simp) (by simp) hxn
    · rw [Function.update_of_ne hl]
      exact (hch l).congr (by simp [hl]) (by simp [hl]) fun _ _ => rfl
  | some t =>
    rw [linkLevel_of_some ht]
    by_cases hl : l = l₀
    · subst hl
      rw [Function.update_self]
      exact (hch l).snoc hnd ht hx hxn
    · rw [Function.update_of_ne hl]
      exact (hch l).congr rfl (by simp [hl]) fun _ _ => Skiplist.next_setRef_of_ne _ _ _ _ (.inr hl)

/-- The level `l₀` done before the levels `ls`: what a loop over `l₀ :: ls` leaves at each
level, from what its rest over `ls` does. -/
theorem ite_update_append {β : Type} (N X : Nat → List β) {l₀ : Nat} {ls : List Nat}
    (hl₀ : l₀ ∉ ls) (l : Nat) :
    (if l ∈ ls then Function.update N l₀ (N l₀ ++ X l₀) l ++ X l
      else Function.update N l₀ (N l₀ ++ X l₀) l) =
      if l ∈ l₀ :: ls then N l ++ X l else N l := by
  by_cases hl : l = l₀
  · subst hl
    simp [hl₀]
  · simp [hl]

/-- **`Add`'s loop over the node's levels** `ls`: `x` becomes the last node of the segment's
chain at each of them, the other levels stay, and only links of the chains' nodes `W` at the
levels `ls` are written. -/
theorem foldl_linkLevel (x : Nat) (W : List Nat) (ls : List Nat) :
    ∀ (s : Skiplist α) (seg : Segment) (N : Nat → List Nat), ls.Nodup →
      (∀ l, Chain s seg.head seg.tail l (N l)) →
      (∀ l ∈ ls, (N l).Nodup ∧ x ∉ N l ∧ (s.heap x).next l = ⟨none, false⟩ ∧ ∀ a ∈ N l, a ∈ W) →
      ∃ s' seg', ls.foldl (Segment.linkLevel x) (s, seg) = (s', seg') ∧
        (∀ l, Chain s' seg'.head seg'.tail l (if l ∈ ls then N l ++ [x] else N l)) ∧
        s.LinksOf s' W ls := by
  -- induction on the levels left, `N` growing by `x` at each level done
  induction ls with
  | nil =>
    intro s seg N _ hch _
    exact ⟨s, seg, rfl, fun l => by simpa using hch l, Skiplist.LinksOf.refl s W []⟩
  | cons l₀ ls ih =>
    intro s seg N hnd hch hls
    obtain ⟨hl₀, hnd⟩ := List.nodup_cons.1 hnd
    obtain ⟨hN, hx, hxn, hW⟩ := hls l₀ List.mem_cons_self
    obtain ⟨s₁, seg₁, h₁⟩ : ∃ s₁ seg₁, Segment.linkLevel x (s, seg) l₀ = (s₁, seg₁) := ⟨_, _, rfl⟩
    have hch₁ := linkLevel_chains hch hN hx hxn
    have hw₁ := linksOf_linkLevel (hch l₀) hW (List.mem_singleton_self l₀) x
    rw [h₁] at hch₁ hw₁
    have hrest : ∀ l ∈ ls, (Function.update N l₀ (N l₀ ++ [x]) l).Nodup ∧
        x ∉ Function.update N l₀ (N l₀ ++ [x]) l ∧ (s₁.heap x).next l = ⟨none, false⟩ ∧
        ∀ a ∈ Function.update N l₀ (N l₀ ++ [x]) l, a ∈ W := by
      intro l hl
      have hne : l ≠ l₀ := fun h => hl₀ (h ▸ hl)
      obtain ⟨hNl, hxl, hxnl, hWl⟩ := hls l (List.mem_cons_of_mem _ hl)
      rw [Function.update_of_ne hne, hw₁.same x l (.inr (by simpa using hne))]
      exact ⟨hNl, hxl, hxnl, hWl⟩
    obtain ⟨s', seg', hfold, hch', hw'⟩ := ih s₁ seg₁ _ hnd hch₁ hrest
    refine ⟨s', seg', by rw [List.foldl_cons, h₁, hfold], fun l => ?_, ?_⟩
    · rw [← ite_update_append N (fun _ => [x]) hl₀ l]
      exact hch' l
    · exact (hw₁.mono (List.Subset.refl W) (by simp)).trans
        (hw'.mono (List.Subset.refl W) (List.subset_cons_self l₀ ls))

end Add

/-! ## §4 — segments filled by any interleaving of `Add` calls -/

/-- The entries of level `l` or above of `E ++ [e]`. -/
theorem levelNodes_append_single (l : Nat) (E : List (Entry α)) (e : Entry α) :
    levelNodes l (E ++ [e]) = if l ≤ e.level then levelNodes l E ++ [e.node] else levelNodes l E := by
  by_cases hl : l ≤ e.level <;> simp [levelNodes, hl]

/-- What the builder keeps while its segments fill: segment `k` holds the entries `Ss k`, in
the order they were added, as one chain per level; their nodes are the store's, apart from its
head and tail and from every other segment's; and the store's head still links to its tail. -/
structure Built (s : Skiplist α) (segs : Nat → Segment) (Ss : Nat → List (Entry α)) : Prop where
  chain : ∀ k l, Chain s (segs k).head (segs k).tail l (levelNodes l (Ss k))
  entry : ∀ k, ∀ e ∈ Ss k,
    (s.heap e.node).itm = some e.item ∧ (s.heap e.node).level = e.level ∧ e.level ≤ maxLevel
  nodup : ∀ k, ((Ss k).map Entry.node).Nodup
  apart : ∀ k k', k ≠ k' → ∀ e ∈ Ss k, ∀ e' ∈ Ss k', e.node ≠ e'.node
  node : ∀ k, ∀ e ∈ Ss k, e.node ≠ s.head ∧ e.node ≠ s.tail ∧ e.node < s.alloc
  head_lt : s.head < s.alloc
  tail_lt : s.tail < s.alloc
  head_ne_tail : s.head ≠ s.tail
  head_next : ∀ l, (s.heap s.head).next l = ⟨some s.tail, false⟩
  tail_next : ∀ l, (s.heap s.tail).next l = ⟨none, false⟩

/-- `NewBuilder` with fresh segments: nothing added. -/
theorem built_new : Built (Skiplist.new : Skiplist α) (fun _ => Segment.new) (fun _ => []) where
  chain _ l := chain_nil rfl rfl
  entry _ _ he := by simp at he
  nodup _ := List.nodup_nil
  apart _ _ _ _ he := by simp at he
  node _ _ he := by simp at he
  head_lt := by simp [Skiplist.new]
  tail_lt := by simp [Skiplist.new]
  head_ne_tail := by simp [Skiplist.new]
  head_next _ := by simp [Skiplist.new]
  tail_next _ := by simp [Skiplist.new]

section Built

variable {s : Skiplist α} {segs : Nat → Segment} {Ss : Nat → List (Entry α)}

theorem Built.levelNodes_nodup (h : Built s segs Ss) (k l : Nat) : (levelNodes l (Ss k)).Nodup :=
  (h.nodup k).sublist (levelNodes_sublist_map l (Ss k))

theorem Built.lt_alloc (h : Built s segs Ss) {k l a : Nat} (ha : a ∈ levelNodes l (Ss k)) :
    a < s.alloc := by
  obtain ⟨e, he, -, rfl⟩ := mem_levelNodes.1 ha
  exact (h.node k e he).2.2

/-- Neither the store's head nor its tail is the node of an entry of the segments. -/
theorem Built.ne_ends (h : Built s segs Ss) {E : List (Entry α)} (hE : ∀ e ∈ E, ∃ k, e ∈ Ss k) :
    ∀ a ∈ E.map Entry.node, a ≠ s.head ∧ a ≠ s.tail := by
  intro a ha
  obtain ⟨e, he, rfl⟩ := List.mem_map.1 ha
  obtain ⟨k, hk⟩ := hE e he
  exact ⟨(h.node k e hk).1, (h.node k e hk).2.1⟩

/-- **One `Add`** to segment `k`: the new node, at the level `NewLevel` draws, is the last entry
of the segment; every other segment and the store's head and tail are left. -/
theorem Built.add (h : Built s segs Ss) (k : Nat) (itm : α) (draws : Nat) :
    Built ((segs k).add s itm draws).1 (Function.update segs k ((segs k).add s itm draws).2)
      (Function.update Ss k (Ss k ++ [⟨s.alloc, itm, (s.newLevel draws).1⟩])) := by
  -- `NewLevel`, then the fresh node `x`, then the loop over its levels
  set lvl := (s.newLevel draws).1 with hlvl
  set s₂ := ((s.newLevel draws).2.newNode (some itm) lvl).2 with hs₂
  set x := s.alloc with hx
  have hheap₂ : ∀ m, s₂.heap m = if m = x then ⟨some itm, lvl, fun _ => ⟨none, false⟩⟩ else s.heap m := by
    intro m
    rw [hs₂, Skiplist.heap_newNode, Skiplist.newLevel_heap, Skiplist.newLevel_alloc]
  have hold : ∀ m, m ≠ x → s₂.heap m = s.heap m := fun m hm => by rw [hheap₂, if_neg hm]
  have hfresh : ∀ k' l, x ∉ levelNodes l (Ss k') := fun k' l hxN => Nat.lt_irrefl x (h.lt_alloc hxN)
  have hch₂ : ∀ k' l, Chain s₂ (segs k').head (segs k').tail l (levelNodes l (Ss k')) :=
    fun k' l => (h.chain k' l).congr rfl rfl fun a ha => by
      rw [hold a fun hax => hfresh k' l (hax ▸ ha)]
  obtain ⟨s', seg', hfold, hch', hw'⟩ := foldl_linkLevel x ((Ss k).map Entry.node)
    (List.range (lvl + 1)) s₂ { segs k with sts := (segs k).sts.add lvl 1 }
    (fun l => levelNodes l (Ss k)) List.nodup_range (hch₂ k) fun l _ =>
      ⟨h.levelNodes_nodup k l, hfresh k l, by rw [hheap₂, if_pos rfl],
        fun a ha => levelNodes_sublist_map l (Ss k) |>.subset ha⟩
  have hadd : (segs k).add s itm draws = (s', seg') := by
    rw [Segment.add_eq, Skiplist.newLevel_alloc]
    exact hfold
  rw [hadd]
  -- the links the loop wrote are the segment's own nodes'
  have hkeep : ∀ m j, m ∉ (Ss k).map Entry.node → m ≠ x → (s'.heap m).next j = (s.heap m).next j :=
    fun m j hm hmx => by rw [hw'.same m j (.inl hm), hold m hmx]
  have hitm : ∀ m, (s'.heap m).itm = (s₂.heap m).itm := hw'.links.itm
  have hlev : ∀ m, (s'.heap m).level = (s₂.heap m).level := hw'.links.node_level
  have halloc : s'.alloc = s.alloc + 1 := by
    rw [hw'.links.alloc, hs₂, Skiplist.newNode_alloc, Skiplist.newLevel_alloc]
  have hhead : s'.head = s.head := by
    rw [hw'.links.head, hs₂, Skiplist.newNode_head, Skiplist.newLevel_head]
  have htail : s'.tail = s.tail := by
    rw [hw'.links.tail, hs₂, Skiplist.newNode_tail, Skiplist.newLevel_tail]
  have hnode : ∀ k', ∀ e ∈ Function.update Ss k (Ss k ++ [⟨x, itm, lvl⟩]) k',
      e ∈ Ss k' ∨ (k' = k ∧ e = ⟨x, itm, lvl⟩) := by
    intro k' e he
    by_cases hk : k' = k
    · subst hk
      simp only [Function.update_self, List.mem_append, List.mem_singleton] at he
      exact he.imp id fun he => ⟨rfl, he⟩
    · rw [Function.update_of_ne hk] at he
      exact .inl he
  have hxS : ∀ k', ∀ e ∈ Ss k', e.node ≠ x := fun k' e he hex => by
    have := (h.node k' e he).2.2
    omega
  refine ⟨fun k' l => ?_, fun k' e he => ?_, fun k' => ?_, fun k₁ k₂ hk e he e' he' => ?_,
    fun k' e he => ?_, ?_, ?_, ?_, fun l => ?_, fun l => ?_⟩
  · -- chains: segment `k` has `x` at its levels, the others' nodes are not written
    by_cases hk : k' = k
    · subst hk
      simp only [Function.update_self]
      have hl := hch' l
      rw [levelNodes_append_single]
      simpa [List.mem_range, Nat.lt_succ_iff] using hl
    · simp only [Function.update_of_ne hk]
      exact (hch₂ k' l).linksOf hw' fun a ha => .inl fun haS => by
        obtain ⟨e', he', -, rfl⟩ := mem_levelNodes.1 ha
        obtain ⟨e, he, hee⟩ := List.mem_map.1 haS
        exact h.apart k k' (Ne.symm hk) e he e' he' hee
  · rw [hitm, hlev]
    rcases hnode k' e he with he | ⟨rfl, rfl⟩
    · rw [hold e.node (hxS k' e he)]
      exact h.entry k' e he
    · rw [hheap₂, if_pos rfl]
      exact ⟨rfl, rfl, Skiplist.newLevel_fst_le s draws⟩
  · by_cases hk : k' = k
    · subst hk
      rw [Function.update_self, List.map_append, List.nodup_append]
      exact ⟨h.nodup k', by simp, fun a ha b hb => by
        obtain ⟨e, he, rfl⟩ := List.mem_map.1 ha
        simp only [List.map_cons, List.map_nil, List.mem_singleton] at hb
        exact hb ▸ hxS k' e he⟩
    · rw [Function.update_of_ne hk]
      exact h.nodup k'
  · rcases hnode k₁ e he with he₁ | ⟨hk₁, rfl⟩
    · rcases hnode k₂ e' he' with he₂ | ⟨-, rfl⟩
      · exact h.apart k₁ k₂ hk e he₁ e' he₂
      · exact hxS k₁ e he₁
    · rcases hnode k₂ e' he' with he₂ | ⟨hk₂, -⟩
      · exact fun hx' => hxS k₂ e' he₂ hx'.symm
      · exact absurd (hk₁.trans hk₂.symm) hk
  · rw [hhead, htail, halloc]
    rcases hnode k' e he with he | ⟨rfl, rfl⟩
    · obtain ⟨hh, ht, ha⟩ := h.node k' e he
      exact ⟨hh, ht, Nat.lt_succ_of_lt ha⟩
    · exact ⟨Nat.ne_of_gt h.head_lt, Nat.ne_of_gt h.tail_lt, Nat.lt_succ_self _⟩
  · rw [hhead, halloc]
    exact Nat.lt_succ_of_lt h.head_lt
  · rw [htail, halloc]
    exact Nat.lt_succ_of_lt h.tail_lt
  · rw [hhead, htail]
    exact h.head_ne_tail
  · have hhS : s.head ∉ (Ss k).map Entry.node := fun hm =>
      (h.ne_ends (fun e he => ⟨k, he⟩) _ hm).1 rfl
    rw [hhead, htail, hkeep s.head l hhS (Nat.ne_of_lt h.head_lt)]
    exact h.head_next l
  · have htS : s.tail ∉ (Ss k).map Entry.node := fun hm =>
      (h.ne_ends (fun e he => ⟨k, he⟩) _ hm).2 rfl
    rw [htail, hkeep s.tail l htS (Nat.ne_of_lt h.tail_lt)]
    exact h.tail_next l

end Built

/-- The `Add` calls of the goroutines that fill the segments, in the order they happen:
`(k, itm, draws)` adds `itm` to segment `k` at the level `NewLevel` draws. -/
def addAll (s : Skiplist α) (segs : Nat → Segment) : List (Nat × α × Nat) → Skiplist α × (Nat → Segment)
  | [] => (s, segs)
  | (k, itm, draws) :: adds =>
    addAll ((segs k).add s itm draws).1 (Function.update segs k ((segs k).add s itm draws).2) adds

/-- The items added to segment `k`, in order. -/
def segItems (adds : List (Nat × α × Nat)) (k : Nat) : List α :=
  (adds.filter fun a => a.1 == k).map fun a => a.2.1

/-- **Any interleaving of `Add` calls** keeps `Built`, each segment holding after its entries
the items added to it, in order. -/
theorem built_addAll (adds : List (Nat × α × Nat)) :
    ∀ (s : Skiplist α) (segs : Nat → Segment) (Ss : Nat → List (Entry α)), Built s segs Ss →
      ∃ Ss', Built (addAll s segs adds).1 (addAll s segs adds).2 Ss' ∧
        ∀ k, (Ss' k).map Entry.item = (Ss k).map Entry.item ++ segItems adds k := by
  -- induction on the calls, `Built.add` at each
  induction adds with
  | nil =>
    intro s segs Ss h
    exact ⟨Ss, h, fun k => by simp [segItems]⟩
  | cons a adds ih =>
    obtain ⟨k, itm, draws⟩ := a
    intro s segs Ss h
    obtain ⟨Ss', h', hitems⟩ := ih _ _ _ (h.add k itm draws)
    refine ⟨Ss', h', fun k' => ?_⟩
    rw [hitems k']
    by_cases hk : k' = k
    · subst hk
      simp [segItems]
    · have hk' : (k == k') = false := beq_false_of_ne (Ne.symm hk)
      simp [segItems, Function.update_of_ne hk, hk']

end Memdb.Store
