import Mathlib.Data.List.TakeWhile

/-!
# The skiplist under memdb (`memdb/skiplist`)

The skiplist keeps items in the order of a comparison function; each node is linked into the
levels from 0 up to its own level. The model keeps the level-0 list from head to tail, each
node with its level, the skiplist's `level` and the `levelNodesCount` of its `Stats`. The
nodes of level at least `l` are the level-`l` list.

A search (`findPath`) is modelled by where it ends at level 0: the first node that does not
compare below the item, which the descent through the levels reaches on a list sorted by the
comparison. Writers run one at a time, so the retries on concurrent changes and the deletion
marks are left out: a deleted node leaves the list.

* **`findPath_sorted`** — on a sorted list every node of the search's second part compares at
  or above the item.
* **`insert3_sorted`** / **`deleteNode_sorted`** — inserting and deleting keep the list sorted.
* **`getRangeSplitItems`** — the pivots a `Visitor` splits the list at: along the highest
  level with enough nodes by `levelNodesCount`, a node every `perSplit` steps.
-/

namespace Memdb

/-- `MaxLevel`. -/
def maxLevel : Nat := 32

/-- A node: its item and its level. -/
structure Node (α : Type) where
  item : α
  level : Nat
  deriving DecidableEq, Repr

/-- The `levelNodesCount` of a skiplist's `Stats`: the nodes of each level, as counted. -/
structure Stats where
  levelNodesCount : Nat → Int

/-- A fresh `Stats`. -/
def Stats.zero : Stats := ⟨fun _ => 0⟩

/-- `sts.AddInt64(&sts.levelNodesCount[l], d)`. -/
def Stats.add (sts : Stats) (l : Nat) (d : Int) : Stats :=
  ⟨fun i => if i = l then sts.levelNodesCount i + d else sts.levelNodesCount i⟩

/-- `Stats.Merge`: the counts of `sts` added into `s` (the caller's `sts` starts again from
zero). -/
def Stats.merge (s sts : Stats) : Stats := ⟨fun i => s.levelNodesCount i + sts.levelNodesCount i⟩

/-- The skiplist: its nodes from head to tail, `level` and `Stats`. -/
structure Skiplist (α : Type) where
  nodes : List (Node α)
  level : Nat
  stats : Stats

/-- `New`: the head linked to the tail at every level. -/
def Skiplist.empty (α : Type) : Skiplist α := ⟨[], 0, Stats.zero⟩

variable {α : Type}

/-- `compare`: the nil item of the head or the tail (`none`) sorts above as the first item,
below as the second. -/
def compareItems (cmp : α → α → Int) : Option α → Option α → Int
  | none, _ => 1
  | some _, none => -1
  | some a, some b => cmp a b

/-- `findPath` at level 0: the nodes before the first that does not compare below `itm`
(`preds[0]` is their last, the head when there is none) and the nodes from it on (`succs[0]`
is their first, the tail when there is none). -/
def findPath (cmp : α → α → Int) (itm : α) (nodes : List (Node α)) : List (Node α) × List (Node α) :=
  (nodes.takeWhile fun n => cmp n.item itm < 0, nodes.dropWhile fun n => cmp n.item itm < 0)

/-- The `foundNode` of `findPath`: `succs[0]` when it compares equal to `itm`. -/
def foundNode (cmp : α → α → Int) (itm : α) (succs : List (Node α)) : Option (Node α) :=
  match succs with
  | n :: _ => if cmp n.item itm = 0 then some n else none
  | [] => none

/-- `NewLevel`, with the number of draws of `randFn` below `p` before the first that is not:
at most `MaxLevel`, and at most one above the skiplist's `level`, which then grows. -/
def Skiplist.newLevel (s : Skiplist α) (draws : Nat) : Nat × Skiplist α :=
  let nextLevel := min draws maxLevel
  if nextLevel > s.level then (s.level + 1, { s with level := s.level + 1 }) else (nextLevel, s)

/-- `Insert3` (`Insert2` after `NewLevel`): nothing when a node compares equal to `itm` under
`insCmp`, or `itm` is equal to the node before it under `eqCmp`; otherwise the node goes
between `preds[0]` and `succs[0]`, and the caller's `levelNodesCount` of its level grows. -/
def Skiplist.insert3 (s : Skiplist α) (insCmp eqCmp : α → α → Int) (itm : α) (itemLevel : Nat)
    (sts : Stats) : Option (Skiplist α × Stats) :=
  let path := findPath insCmp itm s.nodes
  if (foundNode insCmp itm path.2).isSome ∨
      compareItems eqCmp (some itm) (path.1.getLast?.map Node.item) = 0 then none
  else some ({ s with nodes := path.1 ++ ⟨itm, itemLevel⟩ :: path.2 }, sts.add itemLevel 1)

/-- `DeleteNode`: the node leaves the list, and the caller's `levelNodesCount` of its level
shrinks; `false` when it is not in the list. -/
def Skiplist.deleteNode [DecidableEq α] (s : Skiplist α) (n : Node α) (sts : Stats) :
    Skiplist α × Stats × Bool :=
  if n ∈ s.nodes then ({ s with nodes := s.nodes.erase n }, sts.add n.level (-1), true)
  else (s, sts, false)

/-- The walk of `GetRangeSplitItems` along one level. The node in hand is the list's head, at
count `j`: the item is taken when `j` reaches `perSplit`, and the count starts again from the
next node; the walk ends at the tail, or once `nways - 1` items are taken. -/
def splitWalk (perSplit nways : Nat) : List (Node α) → Nat → List α → List α
  | [], _, itms => itms
  | n :: rest, j, itms =>
    if j = perSplit then
      if (itms ++ [n.item]).length = nways - 1 then itms ++ [n.item]
      else splitWalk perSplit nways rest 0 (itms ++ [n.item])
    else splitWalk perSplit nways rest (j + 1) itms

/-- The walk of level `l` in `GetRangeSplitItems`, with `perSplit = c / nways` for `c` the
level's `levelNodesCount` plus one, counting from the head at 0; `none` where `c / nways`
divides by zero. -/
def Skiplist.splitLevel (s : Skiplist α) (nways l : Nat) : Option (List α) :=
  if nways = 0 then none
  else
    some (splitWalk ((s.stats.levelNodesCount l + 1) / nways).toNat nways
      (s.nodes.filter fun n => l ≤ n.level) 1 [])

/-- The levels loop of `GetRangeSplitItems`, from level `l` down: the first level whose
`levelNodesCount` plus one reaches `nways` is walked. -/
def Skiplist.splitLevels (s : Skiplist α) (nways : Nat) : Nat → Option (List α)
  | 0 => if s.stats.levelNodesCount 0 + 1 ≥ nways then s.splitLevel nways 0 else some []
  | l + 1 =>
    if s.stats.levelNodesCount (l + 1) + 1 ≥ nways then s.splitLevel nways (l + 1)
    else s.splitLevels nways l

/-- `GetRangeSplitItems`: the items a `Visitor` splits the list at. -/
def Skiplist.getRangeSplitItems (s : Skiplist α) (nways : Nat) : Option (List α) :=
  s.splitLevels nways s.level

/-! ## Sorted lists -/

section Sorted

variable (cmp : α → α → Int)

/-- The nodes in strictly ascending order of `cmp`. -/
def Sorted (nodes : List (Node α)) : Prop := nodes.Pairwise fun a b => cmp a.item b.item < 0

variable {cmp} (hswap : ∀ a b, cmp b a = -cmp a b)
  (htrans : ∀ a b c, cmp a b < 0 → cmp b c < 0 → cmp a c < 0)

theorem findPath_append (itm : α) (nodes : List (Node α)) :
    (findPath cmp itm nodes).1 ++ (findPath cmp itm nodes).2 = nodes :=
  List.takeWhile_append_dropWhile

theorem lt_of_mem_findPath_fst {itm : α} {nodes : List (Node α)} {n : Node α}
    (h : n ∈ (findPath cmp itm nodes).1) : cmp n.item itm < 0 := by
  simpa using List.mem_takeWhile_imp h

/-- The first node of the search's second part does not compare below the item. -/
theorem head_findPath_snd {itm : α} {nodes : List (Node α)} {n : Node α} {rest : List (Node α)}
    (h : (findPath cmp itm nodes).2 = n :: rest) : 0 ≤ cmp n.item itm := by
  simp only [findPath] at h
  have hne : nodes.dropWhile (fun n => decide (cmp n.item itm < 0)) ≠ [] := by simp [h]
  have hhead := List.head_dropWhile_not (fun n : Node α => decide (cmp n.item itm < 0)) hne
  simp only [h, List.head_cons, decide_eq_false_iff_not] at hhead
  omega

include htrans in
/-- On a sorted list every node from `succs[0]` on compares at or above the item. -/
theorem findPath_sorted {itm : α} {nodes : List (Node α)} (hs : Sorted cmp nodes) :
    ∀ n ∈ (findPath cmp itm nodes).2, 0 ≤ cmp n.item itm := by
  intro n hn
  have hd : Sorted cmp (findPath cmp itm nodes).2 := hs.sublist (List.dropWhile_sublist _)
  generalize hsuc : (findPath cmp itm nodes).2 = succs at hd hn
  cases succs with
  | nil => simp at hn
  | cons n0 rest =>
    -- `succs[0]` is not below the item, and the later nodes are above `succs[0]`
    have h0 := head_findPath_snd hsuc
    rcases List.mem_cons.mp hn with rfl | hn
    · exact h0
    · by_contra hlt
      have := htrans _ _ _ (List.rel_of_pairwise_cons hd hn) (by omega : cmp n.item itm < 0)
      omega

include hswap htrans in
/-- **Inserting keeps the list sorted**: the new node goes above its predecessors and below
`succs[0]`, which is not equal to it. -/
theorem insert3_sorted {s s' : Skiplist α} {eqCmp : α → α → Int} {itm : α} {lvl : Nat}
    {sts sts' : Stats} (hs : Sorted cmp s.nodes) (h : s.insert3 cmp eqCmp itm lvl sts = some (s', sts')) :
    Sorted cmp s'.nodes := by
  simp only [Skiplist.insert3] at h
  split_ifs at h with hfound
  cases h
  have hpw : Sorted cmp ((findPath cmp itm s.nodes).1 ++ (findPath cmp itm s.nodes).2) := by
    rw [findPath_append]
    exact hs
  rw [Sorted, List.pairwise_append] at hpw ⊢
  obtain ⟨hp, hsuc, hcross⟩ := hpw
  have hbelow : ∀ n ∈ (findPath cmp itm s.nodes).2, cmp itm n.item < 0 := by
    intro n hn
    generalize hpath : (findPath cmp itm s.nodes).2 = succs at hsuc hn hfound
    cases succs with
    | nil => simp at hn
    | cons n0 rest =>
      have h0 : 0 < cmp n0.item itm := by
        have hne : cmp n0.item itm ≠ 0 := by
          intro he
          exact hfound (.inl (by simp [foundNode, he]))
        have := head_findPath_snd hpath
        omega
      have hitm : cmp itm n0.item < 0 := by rw [hswap]; omega
      rcases List.mem_cons.mp hn with rfl | hn
      · exact hitm
      · exact htrans _ _ _ hitm (List.rel_of_pairwise_cons hsuc hn)
  refine ⟨hp, List.pairwise_cons.mpr ⟨hbelow, hsuc⟩, fun a ha b hb => ?_⟩
  rcases List.mem_cons.mp hb with rfl | hb
  · exact lt_of_mem_findPath_fst ha
  · exact hcross a ha b hb

/-- **Deleting keeps the list sorted.** -/
theorem deleteNode_sorted [DecidableEq α] {s : Skiplist α} {n : Node α} {sts : Stats}
    (hs : Sorted cmp s.nodes) : Sorted cmp (s.deleteNode n sts).1.nodes := by
  unfold Skiplist.deleteNode
  split_ifs
  · exact hs.sublist List.erase_sublist
  · exact hs

end Sorted

@[simp] theorem newLevel_nodes (s : Skiplist α) (draws : Nat) : (s.newLevel draws).2.nodes = s.nodes := by
  simp only [Skiplist.newLevel]
  split_ifs <;> rfl

end Memdb
