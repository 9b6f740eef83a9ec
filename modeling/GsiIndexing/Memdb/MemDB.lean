import GsiIndexing.Memdb.Skiplist
import GsiIndexing.Indexer.IndexKey

/-!
# A memdb store (`memdb/memdb.go`, `memdb/iterator.go`)

memdb keeps versioned items in a skiplist ordered by key and then by the snapshot number an
item was born in (`insCmp`). A writer's `Put` inserts an item born in the current snapshot
number, unless the key's last item is live; `Delete` removes an item born in the current
number, or marks the key's live item dead in it. `NewSnapshot` takes the current number as a
snapshot's and moves on to the next, a `uint32` that wraps around to 0 past `MaxUint32`. A
snapshot sees the items born no later than it and not dead by then.

A snapshot's `Iterator` walks the skiplist from a `Seek` by key only (or `SeekFirst`) and
skips the items the snapshot does not see; when its step count passes `refreshRate` it seeks
again to the key of its current item.

One writer is modelled, with its local `Stats`. Snapshots stay open: `Snapshot.Close` and the
garbage collection it starts, which unlinks dead items, are left out.

* **`Reachable`** — the stores the writer's operations build from `New`.
* **`sorted_of_reachable`** — in every reachable store the skiplist is sorted by `insCmp`,
  under any key comparison that is a strict order.
-/

namespace Memdb

open Go

/-- `Item`: the key's bytes and the snapshot numbers the item was born and died in (`deadSn`
is 0 while it lives). -/
structure Item where
  key : Bytes
  bornSn : UInt32
  deadSn : UInt32
  deriving DecidableEq, Repr

/-- `defaultKeyCmp`: `bytes.Compare`. -/
def defaultKeyCmp (this that : Bytes) : Int := Indexer.bytesCompare this that

/-- `newInsertCompare`: by key, then by the snapshot number the item was born in. -/
def insCmp (keyCmp : Bytes → Bytes → Int) (this that : Item) : Int :=
  let v := keyCmp this.key that.key
  if v = 0 then (this.bornSn.toNat : Int) - that.bornSn.toNat else v

/-- `newIterCompare`: by key only. -/
def iterCmp (keyCmp : Bytes → Bytes → Int) (this that : Item) : Int := keyCmp this.key that.key

/-- `newExistCompare`: a dead item is never equal to another; live items compare by key. -/
def existCmp (keyCmp : Bytes → Bytes → Int) (this that : Item) : Int :=
  if this.deadSn ≠ 0 ∨ that.deadSn ≠ 0 then 1 else keyCmp this.key that.key

/-- `Config`, with the fields the modelled functions read. -/
structure Config where
  keyCmp : Bytes → Bytes → Int
  refreshRate : Nat

/-- `defaultRefreshRate`. -/
def defaultRefreshRate : Nat := 10000

/-- `DefaultConfig`. -/
def defaultConfig : Config := ⟨defaultKeyCmp, defaultRefreshRate⟩

/-- `MemDB` with its one writer: the store, `currSn`, the numbers of the live snapshots, the
writer's `slSts1`, and the configuration. -/
structure MemDB where
  store : Skiplist Item
  currSn : UInt32
  snapshots : List UInt32
  writerStats : Stats
  config : Config

/-- `NewWithConfig`, with one `NewWriter`. -/
def MemDB.new (config : Config) : MemDB := ⟨Skiplist.empty Item, 1, [], Stats.zero, config⟩

/-! ## The writer -/

/-- `Writer.Put2`: an item of `bs` born in the current snapshot number, inserted unless an
item of `bs` born in it is there, or the item before it is a live item of `bs`. `draws` are
`NewLevel`'s draws of `w.rand.Float32` below `p`; the skiplist's `level` may grow even when
nothing is inserted. -/
def MemDB.put2 (m : MemDB) (bs : Bytes) (draws : Nat) : MemDB × Bool :=
  let x : Item := ⟨bs, m.currSn, 0⟩
  let lv := m.store.newLevel draws
  match lv.2.insert3 (insCmp m.config.keyCmp) (existCmp m.config.keyCmp) x lv.1 m.writerStats with
  | some r => ({ m with store := r.1, writerStats := r.2 }, true)
  | none => ({ m with store := lv.2 }, false)

@[simp] theorem put2_config (m : MemDB) (bs : Bytes) (draws : Nat) :
    (m.put2 bs draws).1.config = m.config := by
  simp only [MemDB.put2]
  split <;> rfl

/-- `Writer.GetNode`: the node of `bs` born in the current snapshot number, or else the node
just before where it would go when that is a live item of `bs` (`SeekWithCmp` with `insCmp`
and `existCmp`). -/
def MemDB.getNode (m : MemDB) (bs : Bytes) : Option (Node Item) :=
  let x : Item := ⟨bs, m.currSn, 0⟩
  let path := findPath (insCmp m.config.keyCmp) x m.store.nodes
  match foundNode (insCmp m.config.keyCmp) x path.2 with
  | some n => some n
  | none =>
    if compareItems (existCmp m.config.keyCmp) (some x) (path.1.getLast?.map Node.item) = 0 then
      path.1.getLast?
    else none

/-- The item of the node `x` marked dead in `sn` (the `CompareAndSwapUint32` on its
`deadSn`). -/
def Skiplist.markDead (s : Skiplist Item) (x : Node Item) (sn : UInt32) : Skiplist Item :=
  { s with nodes := s.nodes.map fun n => if n = x then { n with item := { n.item with deadSn := sn } } else n }

/-- `Writer.DeleteNode`: an item born in the current snapshot number leaves the skiplist; any
other is marked dead in it, unless it is dead already. -/
def MemDB.deleteNode (m : MemDB) (x : Node Item) : MemDB × Bool :=
  if x.item.bornSn = m.currSn then
    let r := m.store.deleteNode x m.writerStats
    ({ m with store := r.1, writerStats := r.2.1 }, r.2.2)
  else if x.item.deadSn = 0 then ({ m with store := m.store.markDead x m.currSn }, true)
  else (m, false)

/-- `Writer.Delete2`. -/
def MemDB.delete2 (m : MemDB) (bs : Bytes) : MemDB × Bool :=
  match m.getNode bs with
  | some n => m.deleteNode n
  | none => (m, false)

@[simp] theorem delete2_config (m : MemDB) (bs : Bytes) : (m.delete2 bs).1.config = m.config := by
  unfold MemDB.delete2 MemDB.deleteNode
  split
  · split_ifs <;> rfl
  · rfl

/-- `math.MaxUint32`. -/
def maxUint32 : UInt32 := 4294967295

/-- `NewSnapshot`: the writer's stats merged into the store's, a snapshot of the current
number, and the next number by `AddUint32`. Once the next number is `MaxUint32` the snapshot is
taken all the same, and the call answers `ErrMaxSnapshotsLimitReached` (`none`); the call after
that wraps the number around to 0. -/
def MemDB.newSnapshot (m : MemDB) : MemDB × Option UInt32 :=
  let newSn := m.currSn + 1
  ({ m with
      store := { m.store with stats := m.store.stats.merge m.writerStats }
      writerStats := Stats.zero
      snapshots := m.snapshots ++ [m.currSn]
      currSn := newSn },
    if newSn = maxUint32 then none else some m.currSn)

/-- The stores the writer's operations build from `New`. -/
inductive Reachable : MemDB → Prop where
  | new (config : Config) : Reachable (MemDB.new config)
  | put {m : MemDB} (bs : Bytes) (draws : Nat) : Reachable m → Reachable (m.put2 bs draws).1
  | delete {m : MemDB} (bs : Bytes) : Reachable m → Reachable (m.delete2 bs).1
  | newSnapshot {m : MemDB} : Reachable m → Reachable m.newSnapshot.1

/-! ## Snapshot iterators -/

/-- `Iterator` of a snapshot: `count`, `refreshRate`, the snapshot's number, and the skiplist
iterator's position as the nodes from `curr` to the tail. -/
structure Iterator where
  count : Nat
  refreshRate : Nat
  snap : UInt32
  iter : List (Node Item)

/-- The snapshot `sn` does not see the item: it was born after it, or is dead by it. -/
def unwanted (sn : UInt32) (itm : Item) : Bool :=
  decide (itm.bornSn > sn) || (decide (itm.deadSn > 0) && decide (itm.deadSn ≤ sn))

/-- The loop of `skipUnwanted`: on past the items the snapshot does not see, counting each. -/
def skipUnwantedFrom (sn : UInt32) : List (Node Item) → Nat → List (Node Item) × Nat
  | [], count => ([], count)
  | n :: rest, count =>
    if unwanted sn n.item then skipUnwantedFrom sn rest (count + 1) else (n :: rest, count)

/-- `Iterator.skipUnwanted`. -/
def Iterator.skipUnwanted (it : Iterator) : Iterator :=
  let r := skipUnwantedFrom it.snap it.iter it.count
  { it with iter := r.1, count := r.2 }

/-- `MemDB.NewIterator`: none once the snapshot is closed. -/
def MemDB.newIterator (m : MemDB) (snap : UInt32) : Option Iterator :=
  if snap ∈ m.snapshots then some ⟨0, 0, snap, []⟩ else none

/-- `SeekFirst`. -/
def Iterator.seekFirst (it : Iterator) (m : MemDB) : Iterator :=
  { it with iter := m.store.nodes }.skipUnwanted

/-- `Seek`: to the first node whose key is not below `bs` (`newItem` of `bs` under
`iterCmp`), then past the items the snapshot does not see. -/
def Iterator.seek (it : Iterator) (m : MemDB) (bs : Bytes) : Iterator :=
  { it with iter := (findPath (iterCmp m.config.keyCmp) ⟨bs, 0, 0⟩ m.store.nodes).2 }.skipUnwanted

/-- `Refresh`: a new skiplist iterator, sought by key only to the current item. -/
def Iterator.refresh (it : Iterator) (m : MemDB) : Iterator :=
  match it.iter with
  | n :: _ => { it with iter := (findPath (iterCmp m.config.keyCmp) n.item m.store.nodes).2 }
  | [] => it

/-- `Next`: one node on, past the items the snapshot does not see, and a `Refresh` once the
count passes `refreshRate`. -/
def Iterator.next (it : Iterator) (m : MemDB) : Iterator :=
  let it := { it with iter := it.iter.tail, count := it.count + 1 }.skipUnwanted
  if it.refreshRate > 0 ∧ it.count > it.refreshRate then { it.refresh m with count := 0 } else it

/-! ## The skiplist stays sorted -/

section Sorted

variable {keyCmp : Bytes → Bytes → Int}

/-- The key comparison is a strict order: it swaps sign with its arguments, is transitive
below zero, and is zero on equal keys only. -/
structure LawfulKeyCmp (keyCmp : Bytes → Bytes → Int) : Prop where
  swap : ∀ a b, keyCmp b a = -keyCmp a b
  trans : ∀ a b c, keyCmp a b < 0 → keyCmp b c < 0 → keyCmp a c < 0
  eq_zero : ∀ a b, keyCmp a b = 0 ↔ a = b

theorem lawfulKeyCmp_defaultKeyCmp : LawfulKeyCmp defaultKeyCmp where
  swap a b := Indexer.bytesCompare_swap a b
  trans _ _ _ hab hbc := Indexer.bytesCompare_neg_iff.mpr
    (Std.TransCmp.lt_trans (Indexer.bytesCompare_neg_iff.mp hab) (Indexer.bytesCompare_neg_iff.mp hbc))
  eq_zero _ _ := Indexer.bytesCompare_eq_zero_iff

/-- Marking an item dead leaves its key and birth, so the order. -/
theorem markDead_sorted {s : Skiplist Item} {x : Node Item} {sn : UInt32}
    (hs : Sorted (insCmp keyCmp) s.nodes) : Sorted (insCmp keyCmp) (s.markDead x sn).nodes := by
  unfold Skiplist.markDead Sorted
  rw [List.pairwise_map]
  refine hs.imp fun {a b} h => ?_
  split_ifs <;> exact h

theorem delete2_sorted {m : MemDB} (bs : Bytes) (hs : Sorted (insCmp keyCmp) m.store.nodes) :
    Sorted (insCmp keyCmp) (m.delete2 bs).1.store.nodes := by
  unfold MemDB.delete2
  split
  · next n _ =>
    unfold MemDB.deleteNode
    split_ifs
    · exact deleteNode_sorted hs
    · exact markDead_sorted hs
    · exact hs
  · exact hs

variable (hk : LawfulKeyCmp keyCmp)
include hk

theorem insCmp_swap (a b : Item) : insCmp keyCmp b a = -insCmp keyCmp a b := by
  simp only [insCmp, hk.swap a.key b.key, neg_eq_zero]
  split_ifs <;> omega

theorem insCmp_trans (a b c : Item) (hab : insCmp keyCmp a b < 0) (hbc : insCmp keyCmp b c < 0) :
    insCmp keyCmp a c < 0 := by
  simp only [insCmp] at *
  -- equal keys compare by birth; a key below another stays below across equal keys
  by_cases h1 : keyCmp a.key b.key = 0 <;> by_cases h2 : keyCmp b.key c.key = 0 <;>
    simp only [h1, h2, if_true, if_false] at hab hbc
  · rw [(hk.eq_zero _ _).mp h1, h2, if_pos rfl]
    omega
  · rw [(hk.eq_zero _ _).mp h1, if_neg h2]
    exact hbc
  · rw [← (hk.eq_zero _ _).mp h2, if_neg h1]
    exact hab
  · have h := hk.trans _ _ _ hab hbc
    rw [if_neg (by omega)]
    exact h

/-- One operation keeps the skiplist sorted. -/
theorem put2_sorted {m : MemDB} (hc : m.config.keyCmp = keyCmp) (bs : Bytes) (draws : Nat)
    (hs : Sorted (insCmp keyCmp) m.store.nodes) : Sorted (insCmp keyCmp) (m.put2 bs draws).1.store.nodes := by
  simp only [MemDB.put2]
  split
  · next r hr =>
    rw [hc] at hr
    exact insert3_sorted (insCmp_swap hk) (insCmp_trans hk) (by simpa using hs) hr
  · simpa using hs

/-- **The skiplist stays sorted.** In every reachable store whose key comparison is a strict
order, the skiplist is sorted by `insCmp`: by key, then by birth. -/
theorem sorted_of_reachable {m : MemDB} (hm : Reachable m) (hc : m.config.keyCmp = keyCmp) :
    Sorted (insCmp keyCmp) m.store.nodes := by
  induction hm with
  | new config => exact List.Pairwise.nil
  | @put m bs draws _ ih =>
    have hc' : m.config.keyCmp = keyCmp := by simpa using hc
    exact put2_sorted hk hc' bs draws (ih hc')
  | @delete m bs _ ih => exact delete2_sorted bs (ih (by simpa using hc))
  | newSnapshot _ ih => exact ih hc

end Sorted

/-- `[1]` put, a snapshot, `[1]` deleted and put again: two versions of `[1]`, the older dead. -/
theorem sorted_of_reachable_reput :
    Reachable ((((MemDB.new defaultConfig).put2 [1] 0).1.newSnapshot.1.delete2 [1]).1.put2 [1] 0).1 ∧
      Sorted (insCmp defaultKeyCmp)
        ((((MemDB.new defaultConfig).put2 [1] 0).1.newSnapshot.1.delete2 [1]).1.put2 [1] 0).1.store.nodes :=
  ⟨.put _ _ (.delete _ (.newSnapshot (.put _ _ (.new _)))),
    sorted_of_reachable lawfulKeyCmp_defaultKeyCmp (.put _ _ (.delete _ (.newSnapshot (.put _ _ (.new _)))))
      (by simp [MemDB.newSnapshot, MemDB.new, defaultConfig])⟩

end Memdb
