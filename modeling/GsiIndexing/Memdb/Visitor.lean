import GsiIndexing.Memdb.MemDB

/-!
# `MemDB.Visitor` (`memdb/memdb.go`)

`Visitor` splits the skiplist at the items `GetRangeSplitItems` returns and visits each part
in a shard of its own. A pivot is kept when a `Seek` by its key finds an item the snapshot
sees and it sorts above the last pivot kept by `insCmp`; shard `i` then starts with a `Seek`
by the key of pivot `i` (or `SeekFirst`) and stops at the first item that does not sort below
pivot `i + 1` by `insCmp`.

The shards run on `concurrency` workers; the model runs them one after another and returns
every call of the callback as the item and the shard it was passed with, so that the calls
are those of any schedule, shard by shard in order. A shard's loop is given `fuel` steps.

* **`visitor_visits_item_twice`** — the start of a shard and the end of the one before it
  disagree when a pivot is a newer version of a key whose older version the snapshot still
  sees: the key-only `Seek` lands on the older version, which the shard before has visited.
-/

namespace Memdb

/-- The errors of `Visitor`: a closed snapshot, the division by zero of `GetRangeSplitItems`
with no shard (a run-time panic), and a shard's loop that runs out of `fuel`. -/
inductive VisitorError where
  | snapshotClosed (sn : UInt32)
  | divideByZero
  | outOfFuel
  deriving DecidableEq, Repr

/-- An iterator has an item: `Valid`. -/
def Iterator.valid (it : Iterator) : Bool := !it.iter.isEmpty

/-- One step of the pivot loop: `tmpIter.Seek` by the pivot's key, and the pivot kept when the
iterator is valid and it sorts above the last pivot kept (`nil` is the start item). -/
def addPivot (m : MemDB) (tmpIter : Iterator) (pivotItems : List (Option Item)) (itm : Item) :
    List (Option Item) :=
  if (tmpIter.seek m itm.key).valid then
    match pivotItems.getLast? with
    | some (some prevItm) =>
      if insCmp m.config.keyCmp itm prevItm > 0 then pivotItems ++ [some itm] else pivotItems
    | _ => pivotItems ++ [some itm]
  else pivotItems

/-- A shard's loop stops at an item that does not sort below `endItem`; `nil` is the end. -/
def reachedEnd (m : MemDB) (endItem : Option Item) (itm : Item) : Bool :=
  match endItem with
  | some e => decide (insCmp m.config.keyCmp itm e ≥ 0)
  | none => false

/-- The loop of a shard: each item the iterator stands on is passed to the callback with the
shard, until the iterator runs off the tail or reaches `endItem`. -/
def shardLoop (m : MemDB) (shard : Nat) (endItem : Option Item) :
    Nat → Iterator → Except VisitorError (List (Item × Nat))
  | 0, _ => .error .outOfFuel
  | fuel + 1, it =>
    match it.iter with
    | [] => .ok []
    | n :: _ =>
      if reachedEnd m endItem n.item then .ok []
      else do
        let visits ← shardLoop m shard endItem fuel (it.next m)
        pure ((n.item, shard) :: visits)

/-- A shard's iterator: `NewIterator` with `SetRefreshRate`, then `SeekFirst` for the start
item `nil`, and else `Seek` by the start item's key. -/
def shardIterator (m : MemDB) (snap : UInt32) : Option Item → Iterator
  | none => (⟨0, m.config.refreshRate, snap, []⟩ : Iterator).seekFirst m
  | some startItem => (⟨0, m.config.refreshRate, snap, []⟩ : Iterator).seek m startItem.key

/-- The shards from `shard` on, over consecutive pivots. -/
def visitShards (m : MemDB) (snap : UInt32) (fuel : Nat) : Nat → List (Option Item) →
    Except VisitorError (List (Item × Nat))
  | shard, startItem :: endItem :: rest => do
    let visits ← shardLoop m shard endItem fuel (shardIterator m snap startItem)
    let more ← visitShards m snap fuel (shard + 1) (endItem :: rest)
    pure (visits ++ more)
  | _, _ => .ok []

/-- `MemDB.Visitor`: the pivots between the start and end items `nil`, and one shard for each
two consecutive pivots. -/
def MemDB.visitor (m : MemDB) (snap : UInt32) (shards fuel : Nat) : Except VisitorError (List (Item × Nat)) :=
  match m.newIterator snap with
  | none => .error (.snapshotClosed snap)
  | some tmpIter =>
    match m.store.getRangeSplitItems shards with
    | none => .error .divideByZero
    | some pivotPtrs => visitShards m snap fuel 0 (pivotPtrs.foldl (addPivot m tmpIter) [none] ++ [none])

/-- The store of a run from `New` with the default configuration: `[1]` and `[2]` put, a
snapshot `1` taken, `[2]` deleted (its item, born in `1`, is marked dead in `2`), `[2]` put
again (a new item born in `2`), and a snapshot taken. -/
def reputStore : MemDB :=
  (((((MemDB.new defaultConfig).put2 [1] 0).1.put2 [2] 0).1.newSnapshot.1.delete2 [2]).1.put2
    [2] 0).1.newSnapshot.1

/-- **A shard visits an item the shard before it has visited.** Snapshot `1` of `reputStore`
sees the old item of `[2]`. `GetRangeSplitItems` with three shards gives the item of `[1]` and
the new item of `[2]`, and both are kept as pivots; shard 1 visits the old item of `[2]`, which
sorts below the new one, and shard 2's `Seek` by the key `[2]` lands on the old item, so the
callback is passed it twice. -/
theorem visitor_visits_item_twice :
    Reachable reputStore ∧ 1 ∈ reputStore.snapshots ∧ unwanted 1 ⟨[2], 1, 2⟩ = false ∧
      reputStore.store.getRangeSplitItems 3 = some [⟨[1], 1, 0⟩, ⟨[2], 2, 0⟩] ∧
      reputStore.visitor 1 3 10 = .ok [(⟨[1], 1, 0⟩, 1), (⟨[2], 1, 2⟩, 1), (⟨[2], 1, 2⟩, 2)] := by
  refine ⟨.newSnapshot (.put _ _ (.delete _ (.newSnapshot (.put _ _ (.put _ _ (.new _)))))),
    by decide, rfl, rfl, rfl⟩

end Memdb
