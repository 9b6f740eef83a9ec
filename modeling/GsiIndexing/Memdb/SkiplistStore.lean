import GsiIndexing.Memdb.Skiplist
import GsiIndexing.Lib.Loop

/-!
# The skiplist's nodes and links (`memdb/skiplist`)

The lock-free skiplist with its heap of nodes, as the amd64 build lays them out
(`node_amd64.go`): each node has its item (nil for the head and the tail), its level, and one
`NodeRef` per level from 0 to its level, a next pointer packed with a deleted flag.
`dcasNext` swaps a `NodeRef` that holds the expected pointer, not deleted.

Calls run one at a time. A compare-and-swap then fails only on a node that is marked deleted
at one level and not at the one above; every retry of the call meets the same node again, so
the model ends such a call with `spins` where the code goes back to `retry` (or to
`findPath` in `fixThisLevel`).

The loops over the nodes of a level get one round per allocated node; running out is the
model's `outOfFuel`, never the code's.

* `findPath` — the descent from the skiplist's `level` to 0, unlinking the nodes it finds
  marked (`helpDelete`), with `preds[i]`/`succs[i]` around the item at each level.
* `insert3` / `insert2` — the new node linked at level 0, then at each index level.
* `softDelete` / `deleteNode` / `delete` — the node marked at all its levels, then unlinked
  by a `findPath` to its item.
* `Segment.add` / `Builder.assemble` — the bottom-up builder: segments filled one node at a
  time, then stitched level by level.
-/

namespace Memdb.Store

/-- How a call stops without returning. -/
inductive Halt where
  /-- a nil pointer is dereferenced -/
  | nilDeref
  /-- a compare-and-swap fails, and fails again on every retry -/
  | spins
  /-- the model's bound on the rounds of a loop is reached -/
  | outOfFuel
  deriving DecidableEq, Repr

/-- `NodeRef`: a next pointer and the deleted flag packed with it. -/
structure NodeRef where
  ptr : Option Nat
  deleted : Bool
  deriving DecidableEq, Repr

/-- `Node`: the item, the level and the `NodeRef` of each level. -/
structure Node (α : Type) where
  itm : Option α
  level : Nat
  next : Nat → NodeRef

/-- A node with no item and every `NodeRef` zero. -/
def Node.empty {α : Type} : Node α := ⟨none, 0, fun _ => ⟨none, false⟩⟩

/-- `Skiplist`, with the heap of its nodes. -/
structure Skiplist (α : Type) where
  heap : Nat → Node α
  alloc : Nat
  head : Nat
  tail : Nat
  level : Nat

/-- `ActionBuffer`: the predecessors and successors `findPath` leaves at each level. -/
structure ActionBuffer where
  preds : Nat → Option Nat
  succs : Nat → Option Nat

/-- `MakeBuf`. -/
def ActionBuffer.make : ActionBuffer := ⟨fun _ => none, fun _ => none⟩

/-- `buf.preds[i] = prev; buf.succs[i] = curr`. -/
def ActionBuffer.set (buf : ActionBuffer) (i prev curr : Nat) : ActionBuffer :=
  ⟨Function.update buf.preds i (some prev), Function.update buf.succs i (some curr)⟩

/-- A pointer read through: `p.f` with `p` nil panics. -/
def deref (p : Option Nat) : Except Halt Nat := p.elim (.error .nilDeref) .ok

variable {α : Type}

namespace Skiplist

/-- `allocNode`: a fresh address. -/
def newNode (s : Skiplist α) (itm : Option α) (level : Nat) : Nat × Skiplist α :=
  let node : Node α := ⟨itm, level, fun _ => ⟨none, false⟩⟩
  (s.alloc, { s with alloc := s.alloc + 1, heap := Function.update s.heap s.alloc node })

/-- `New`: the head and the tail at `MaxLevel`, the head linked to the tail at every level. -/
def new : Skiplist α where
  heap := Function.update (Function.update (fun _ => Node.empty) 0
    ⟨none, maxLevel, fun _ => ⟨some 1, false⟩⟩) 1 ⟨none, maxLevel, fun _ => ⟨none, false⟩⟩
  alloc := 2
  head := 0
  tail := 1
  level := 0

/-- `getNext`. -/
def getNext (s : Skiplist α) (n i : Nat) : NodeRef := (s.heap n).next i

/-- A write of one `NodeRef`. -/
def setRef (s : Skiplist α) (n i : Nat) (r : NodeRef) : Skiplist α :=
  let node := { s.heap n with next := Function.update (s.heap n).next i r }
  { s with heap := Function.update s.heap n node }

/-- `setNext` (amd64): the flag is cleared whatever `deleted` says. -/
def setNext (s : Skiplist α) (n i : Nat) (ptr : Option Nat) : Skiplist α :=
  s.setRef n i ⟨ptr, false⟩

/-- `dcasNext` (amd64): the swap happens when the level holds `prevPtr`, not deleted. -/
def dcasNext (s : Skiplist α) (n i : Nat) (prevPtr newPtr : Option Nat) (newIsdeleted : Bool) :
    Skiplist α × Bool :=
  if s.getNext n i = ⟨prevPtr, false⟩ then (s.setRef n i ⟨newPtr, newIsdeleted⟩, true)
  else (s, false)

/-- `NewLevel`, with the number of draws of `randFn` below `p` before the first that is not. -/
def newLevel (s : Skiplist α) (draws : Nat) : Nat × Skiplist α :=
  let nextLevel := min draws maxLevel
  if nextLevel > s.level then (s.level + 1, { s with level := s.level + 1 }) else (nextLevel, s)

/-- `helpDelete`: `prev` skips the marked `curr`; at level 0 the caller's `levelNodesCount` of
`curr`'s level shrinks. -/
def helpDelete (s : Skiplist α) (level prev curr : Nat) (next : Option Nat) (sts : Stats) :
    Skiplist α × Stats × Bool :=
  let (s, success) := s.dcasNext prev level (some curr) next false
  if success && level == 0 then (s, sts.add (s.heap curr).level (-1), true)
  else (s, sts, success)

/-- The variables of `findPath`'s walk along one level: the skiplist, the caller's `Stats`,
`prev`, `curr` and `cmpVal`. -/
abbrev SearchVars (α : Type) := Skiplist α × Stats × Nat × Nat × Int

/-- One round of the `levelSearch` loop at level `i`. The inner `for deleted` loop is the
rounds that find `curr` marked: each unlinks it and reads `curr` again from `prev`. -/
def levelSearchRound (cmp : α → α → Int) (itm : Option α) (i : Nat) :
    SearchVars α → Except Halt (GoLoop.Round (SearchVars α) Empty)
  | (s, sts, prev, curr, cmpVal) =>
    let r := s.getNext curr i
    if r.deleted then
      let (s, sts, ok) := s.helpDelete i prev curr r.ptr sts
      if ok then do
        let curr ← deref (s.getNext prev i).ptr
        pure (.next (s, sts, prev, curr, cmpVal))
      else .error .spins
    else
      let cmpVal := compareItems cmp (s.heap curr).itm itm
      if cmpVal < 0 then do
        -- `prev = curr; curr = next`: the next round reads through `next`
        let next ← deref r.ptr
        pure (.next (s, sts, curr, next, cmpVal))
      else pure (.stop (s, sts, prev, curr, cmpVal))

/-- The walk of level `i` from `prev`, then `buf.preds[i]` and `buf.succs[i]`. -/
def searchLevel (cmp : α → α → Int) (itm : Option α) (fuel i : Nat) :
    Skiplist α × Stats × ActionBuffer × Nat × Int →
      Except Halt (Skiplist α × Stats × ActionBuffer × Nat × Int)
  | (s, sts, buf, prev, cmpVal) => do
    let curr ← deref (s.getNext prev i).ptr
    match ← GoLoop.whileLoop .outOfFuel (fun _ => pure true) (levelSearchRound cmp itm i) fuel
        (s, sts, prev, curr, cmpVal) with
    | .inl (s, sts, prev, curr, cmpVal) => pure (s, sts, buf.set i prev curr, prev, cmpVal)
    | .inr e => nomatch e

/-- The levels of `findPath` from `i` down to 0. -/
def searchLevels (cmp : α → α → Int) (itm : Option α) (fuel : Nat) :
    Nat → Skiplist α × Stats × ActionBuffer × Nat × Int →
      Except Halt (Skiplist α × Stats × ActionBuffer × Nat × Int)
  | 0, st => searchLevel cmp itm fuel 0 st
  | i + 1, st => do searchLevels cmp itm fuel i (← searchLevel cmp itm fuel (i + 1) st)

/-- `findPath`: the `foundNode` (`succs[0]` when it compares equal to `itm`), the skiplist, the
buffer and the caller's `Stats`. -/
def findPath (s : Skiplist α) (itm : Option α) (cmp : α → α → Int) (buf : ActionBuffer)
    (sts : Stats) : Except Halt (Option Nat × Skiplist α × ActionBuffer × Stats) := do
  let (s, sts, buf, _, cmpVal) ← searchLevels cmp itm (s.alloc + 1) s.level (s, sts, buf, s.head, 1)
  pure (if cmpVal = 0 then buf.succs 0 else none, s, buf, sts)

/-- `x.setNext(i, buf.succs[i], false)` for each level of `x`. -/
def setNextLevels (s : Skiplist α) (x : Nat) (buf : ActionBuffer) (itemLevel : Nat) :
    Skiplist α :=
  (List.range (itemLevel + 1)).foldl (fun s i => s.setNext x i (buf.succs i)) s

/-- One round of the `fixThisLevel` loop at level `i`; `.stop` is `goto finished`. A failed
swap on `preds[i]` sends the code to `findPath` and round again, which finds the same
predecessor. -/
def fixLevelRound (x : Nat) (buf : ActionBuffer) :
    Skiplist α × Nat → Except Halt (GoLoop.Round (Skiplist α × Nat) Empty)
  | (s, i) =>
    let r := s.getNext x i
    let next := buf.succs i
    if r.deleted then pure (.stop (s, i))
    else
      let (s, ok) := if r.ptr ≠ next then s.dcasNext x i r.ptr next false else (s, true)
      if !ok then pure (.stop (s, i))
      else do
        let p ← deref (buf.preds i)
        let (s, swapped) := s.dcasNext p i next (some x) false
        if swapped then pure (.next (s, i + 1)) else .error .spins

/-- `Insert3` (`skipFindPath` false, as `Insert2` calls it): the new node, or `none` when an
item compares equal under `insCmp`, or `eqCmp` finds `itm` equal to `preds[0]`'s item. -/
def insert3 (s : Skiplist α) (itm : α) (insCmp : α → α → Int) (eqCmp : Option (α → α → Int))
    (buf : ActionBuffer) (itemLevel : Nat) (sts : Stats) :
    Except Halt (Option Nat × Skiplist α × ActionBuffer × Stats) := do
  let (x, s) := s.newNode (some itm) itemLevel
  let (found, s, buf, sts) ← s.findPath (some itm) insCmp buf sts
  let dup ← match found, eqCmp with
    | some _, _ => pure true
    | none, none => pure false
    | none, some eq => do
      let p ← deref (buf.preds 0)
      pure (compareItems eq (some itm) (s.heap p).itm = 0)
  if dup then pure (none, s, buf, sts)
  else
    let s := s.setNextLevels x buf itemLevel
    let p0 ← deref (buf.preds 0)
    let (s, ok) := s.dcasNext p0 0 (buf.succs 0) (some x) false
    if !ok then .error .spins
    else do
      let r ← GoLoop.countLoop (fixLevelRound x buf) itemLevel (s, 1)
      let s ← match r with
        | .inl (s, _) => pure s
        | .inr e => nomatch e
      pure (some x, s, buf, sts.add itemLevel 1)

/-- `Insert2`: `NewLevel`, then `Insert3`. -/
def insert2 (s : Skiplist α) (itm : α) (insCmp : α → α → Int) (eqCmp : Option (α → α → Int))
    (buf : ActionBuffer) (draws : Nat) (sts : Stats) :
    Except Halt (Option Nat × Skiplist α × ActionBuffer × Stats) :=
  let (itemLevel, s) := s.newLevel draws
  s.insert3 itm insCmp eqCmp buf itemLevel sts

/-- The `for !deleted` loop of `softDelete` at level `i`: the swap compares with the
`NodeRef` just read, so it marks the level in one round; `true` when that is level 0. -/
def softDeleteLevel (n : Nat) (s : Skiplist α) (i : Nat) : Skiplist α × Bool :=
  let r := s.getNext n i
  if r.deleted then (s, false)
  else
    let (s, swapped) := s.dcasNext n i r.ptr r.ptr true
    (s, swapped && i == 0)

/-- `softDelete`: each level of the node marked, from its level down to 0; `true` when this
call marked level 0. -/
def softDelete (s : Skiplist α) (n : Nat) : Skiplist α × Bool :=
  (List.range ((s.heap n).level + 1)).reverse.foldl
    (fun (acc : Skiplist α × Bool) i =>
      let (s, m) := softDeleteLevel n acc.1 i
      (s, acc.2 || m)) (s, false)

/-- `deleteNode`: a node this call marks is unlinked by a `findPath` to its item. -/
def deleteNode (s : Skiplist α) (n : Nat) (cmp : α → α → Int) (buf : ActionBuffer)
    (sts : Stats) : Except Halt (Bool × Skiplist α × ActionBuffer × Stats) := do
  let itm := (s.heap n).itm
  let (s, marked) := s.softDelete n
  if marked then
    let (_, s, buf, sts) ← s.findPath itm cmp buf sts
    pure (true, s, buf, sts)
  else pure (false, s, buf, sts)

/-- `Delete`: the node `findPath` finds equal to `itm`, deleted. -/
def delete (s : Skiplist α) (itm : α) (cmp : α → α → Int) (buf : ActionBuffer)
    (sts : Stats) : Except Halt (Bool × Skiplist α × ActionBuffer × Stats) := do
  let (found, s, buf, sts) ← s.findPath (some itm) cmp buf sts
  match found with
  | none => pure (false, s, buf, sts)
  | some _ => do
    let delNode ← deref (buf.succs 0)
    s.deleteNode delNode cmp buf sts

end Skiplist

/-! ## The bottom-up builder (`builder.go`) -/

/-- `Segment`: the first and the last node it linked at each level, and its `Stats`. -/
structure Segment where
  head : Nat → Option Nat
  tail : Nat → Option Nat
  sts : Stats

/-- `NewSegment`. -/
def Segment.new : Segment := ⟨fun _ => none, fun _ => none, Stats.zero⟩

/-- The `for l := 0; l <= itemLevel; l++` loop of `Segment.Add` at level `l`. -/
def Segment.linkLevel (x : Nat) (acc : Skiplist α × Segment) (l : Nat) : Skiplist α × Segment :=
  let (s, seg) := acc
  let (s, seg) := match seg.tail l with
    | some t => (s.setNext t l (some x), seg)
    | none => (s, { seg with head := Function.update seg.head l (some x) })
  (s, { seg with tail := Function.update seg.tail l (some x) })

/-- `Segment.Add`: a node from the builder's store, at the level `NewLevel` draws, linked after
the segment's last node of each of its levels. -/
def Segment.add (seg : Segment) (s : Skiplist α) (itm : α) (draws : Nat) :
    Skiplist α × Segment :=
  let (itemLevel, s) := s.newLevel draws
  let (x, s) := s.newNode (some itm) itemLevel
  let seg := { seg with sts := seg.sts.add itemLevel 1 }
  (List.range (itemLevel + 1)).foldl (Segment.linkLevel x) (s, seg)

/-- The variables of `Assemble`'s first loop: the store and the `head` and `tail` arrays. -/
abbrev AssembleVars (α : Type) := Skiplist α × (Nat → Option Nat) × (Nat → Option Nat)

/-- One level of one segment in `Assemble`; `none` is `return nil`. -/
def assembleLevel (verifyOrder : Node α → Node α → Bool) (seg : Segment) (st : AssembleVars α)
    (l : Nat) : Option (AssembleVars α) := do
  let (s, head, tail) := st
  let (s, head) ← match tail l, seg.head l with
    | some t, some h =>
      if !verifyOrder (s.heap t) (s.heap h) then none
      else some (s.setNext t l (some h), head)
    | _, sh =>
      match head l, sh with
      | none, some h => some (s, Function.update head l (some h))
      | _, _ => some (s, head)
  let tail := match seg.tail l with
    | some t => Function.update tail l (some t)
    | none => tail
  pure (s, head, tail)

/-- `Assemble`'s first loop over one segment, its levels from 0 to `MaxLevel`. -/
def assembleSegment (verifyOrder : Node α → Node α → Bool) (st : AssembleVars α)
    (seg : Segment) : Option (AssembleVars α) :=
  (List.range (maxLevel + 1)).foldlM (assembleLevel verifyOrder seg) st

/-- `Assemble`'s second loop at level `l`: the store's head links to the first node, and the
last node to the store's tail. -/
def closeLevel (head tail : Nat → Option Nat) (s : Skiplist α) (l : Nat) : Skiplist α :=
  let s := match head l with
    | some h => s.setNext s.head l (some h)
    | none => s
  match tail l with
  | some t => s.setNext t l (some s.tail)
  | none => s

/-- `Builder.Assemble`: the store with the segments stitched at every level and their `Stats`
merged into its own; `none` when `VerifyOrder` rejects a boundary. -/
def assemble (verifyOrder : Node α → Node α → Bool) (s : Skiplist α) (stats : Stats)
    (segments : List Segment) : Option (Skiplist α × Stats) := do
  let (s, head, tail) ← segments.foldlM (assembleSegment verifyOrder) (s, fun _ => none, fun _ => none)
  let s := (List.range (maxLevel + 1)).foldl (closeLevel head tail) s
  pure (s, segments.foldl (fun st seg => st.merge seg.sts) stats)

end Memdb.Store
