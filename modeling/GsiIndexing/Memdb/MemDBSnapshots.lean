import GsiIndexing.Memdb.MemDB
import GsiIndexing.Lib.Simulation
import Mathlib.Data.Finset.Basic

/-!
# A memdb snapshot sees the keys of its time

What a store is for, stated apart from how it keeps items: a set of keys that `Put` adds to and
`Delete` takes from, and a frozen copy of that set for each snapshot (`KeySets`). The store
keeps instead every version of a key in one skiplist, with the numbers it was born and died in,
and a snapshot reads the versions of its number.

The versions of a key follow one another (`Versions`): a version is born at most in the current
number, dies after its birth and at most in the current number, and of two versions the older
is dead by the time the newer is born. So each number sees at most one version of a key, and
the search of `Put` and `Delete` stops next to the live one.

The numbers are `uint32`s. `NewSnapshot` answers `ErrMaxSnapshotsLimitReached` when the next
number is `MaxUint32`, and the indexer's caller exits there; a `NewSnapshot` after it would wrap
the number around to 0, and items born then would be seen by every snapshot. The runs below
take no snapshot after that one (`SnapshotLimit`), so that the numbers never wrap.

* **`step_simulates`** — the writer's `Put2`, `Delete2` and `NewSnapshot` reply as the key sets
  do and keep the store representing them (`Represents`).
* **`memdb_replies_as_keySets`** — from `New`, every sequence of calls with at most `2^32 - 2`
  snapshots replies as the key sets.
* **`memdb_snapshot_isolation`** — every snapshot taken along the way, read from `SeekFirst` or
  `Seek` with `Next`, gives the keys of its time in ascending order, whatever came after it.
-/

namespace Memdb

open Go

/-! ## What a store is for -/

/-- The keys in the store, and the keys each snapshot froze, the first snapshot's first. -/
structure KeySets where
  keys : Finset Bytes
  snaps : List (Finset Bytes)

/-- A call of the writer. -/
inductive Op where
  | put (bs : Bytes) (draws : Nat)
  | delete (bs : Bytes)
  | newSnapshot
  deriving DecidableEq, Repr

/-- What a call answers: whether `Put2` inserted (a node, not nil), whether `Delete2` deleted,
and the number of `NewSnapshot`'s snapshot, `none` with `ErrMaxSnapshotsLimitReached`. -/
inductive Reply where
  | put (inserted : Bool)
  | delete (deleted : Bool)
  | snapshot (sn : Option UInt32)
  deriving DecidableEq, Repr

/-- A call on the key sets. Snapshots are numbered from 1 in the order they are taken. -/
def KeySets.step (A : KeySets) : Op → Reply × KeySets
  | .put bs _ => (.put (decide (bs ∉ A.keys)), { A with keys := insert bs A.keys })
  | .delete bs => (.delete (decide (bs ∈ A.keys)), { A with keys := A.keys.erase bs })
  | .newSnapshot =>
    (.snapshot
        (if A.snaps.length + 2 = 2 ^ 32 - 1 then none else some (UInt32.ofNat (A.snaps.length + 1))),
      { A with snaps := A.snaps ++ [A.keys] })

/-- No keys and no snapshots. -/
def KeySets.empty : KeySets := ⟨∅, []⟩

/-- The caller takes no snapshot after the one `NewSnapshot` answered with
`ErrMaxSnapshotsLimitReached`: a snapshot is taken while fewer than `2^32 - 2` were. -/
def SnapshotLimit (A : KeySets) : Op → Prop
  | .newSnapshot => A.snaps.length + 2 < 2 ^ 32
  | _ => True

/-- With at most `2^32 - 2` snapshots in all, every call keeps to the limit. -/
theorem admissible_of_count (ops : List Op) :
    ∀ A : KeySets, A.snaps.length + ops.count .newSnapshot ≤ 2 ^ 32 - 2 →
      Simulation.Admissible KeySets.step SnapshotLimit A ops := by
  induction ops with
  | nil => intro _ _; trivial
  | cons op ops ih =>
    intro A hcount
    rw [List.count_cons] at hcount
    cases op with
    | put bs draws => exact ⟨trivial, ih _ (by simpa [KeySets.step] using hcount)⟩
    | delete bs => exact ⟨trivial, ih _ (by simpa [KeySets.step] using hcount)⟩
    | newSnapshot =>
      simp only [beq_self_eq_true, ↓reduceIte] at hcount
      refine ⟨show A.snaps.length + 2 < 2 ^ 32 by omega, ih _ ?_⟩
      simp only [KeySets.step, List.length_append, List.length_singleton]
      omega

/-- A call on the store. -/
def MemDB.step (m : MemDB) : Op → Option (Reply × MemDB)
  | .put bs draws => some (.put (m.put2 bs draws).2, (m.put2 bs draws).1)
  | .delete bs => some (.delete (m.delete2 bs).2, (m.delete2 bs).1)
  | .newSnapshot => some (.snapshot m.newSnapshot.2, m.newSnapshot.1)

/-- The keys a caller reads from an iterator, `for ; it.Valid(); it.Next() { it.Get() }`, in at
most `fuel` rounds. -/
def Iterator.keys (it : Iterator) (m : MemDB) : Nat → List Bytes
  | 0 => []
  | fuel + 1 =>
    match it.iter with
    | [] => []
    | n :: _ => n.item.key :: (it.next m).keys m fuel

/-- The keys of the items the snapshot `sn` sees, in the list's order. -/
def visibleKeys (sn : UInt32) (nodes : List (Node Item)) : List Bytes :=
  (nodes.filter fun n => !unwanted sn n.item).map fun n => n.item.key

@[simp] theorem mem_visibleKeys {sn : UInt32} {nodes : List (Node Item)} {k : Bytes} :
    k ∈ visibleKeys sn nodes ↔ ∃ n ∈ nodes, unwanted sn n.item = false ∧ n.item.key = k := by
  simp [visibleKeys, and_assoc]

/-! ## Snapshot numbers as numbers -/

theorem toNat_eq_zero_iff {a : UInt32} : a.toNat = 0 ↔ a = 0 := by
  rw [← UInt32.toNat_inj, UInt32.toNat_zero]

/-- The next number, short of the wrap around. -/
theorem toNat_succ_of_lt {c : UInt32} (h : c.toNat + 1 < 2 ^ 32) : (c + 1).toNat = c.toNat + 1 := by
  rw [UInt32.toNat_add, UInt32.toNat_one, Nat.mod_eq_of_lt h]

/-- The `uint32` comparisons of `unwanted` are those of the numbers. -/
theorem unwanted_eq_false_iff {sn : UInt32} {itm : Item} :
    unwanted sn itm = false ↔
      itm.bornSn.toNat ≤ sn.toNat ∧ (itm.deadSn.toNat = 0 ∨ sn.toNat < itm.deadSn.toNat) := by
  simp only [unwanted, Bool.or_eq_false_iff, Bool.and_eq_false_iff, decide_eq_false_iff_not,
    UInt32.lt_iff_toNat_lt, UInt32.le_iff_toNat_le, UInt32.toNat_zero]
  omega

/-! ## The writer's calls keep what the store holds -/

@[simp] theorem put2_currSn (m : MemDB) (bs : Bytes) (draws : Nat) :
    (m.put2 bs draws).1.currSn = m.currSn := by
  simp only [MemDB.put2]
  split <;> rfl

@[simp] theorem put2_snapshots (m : MemDB) (bs : Bytes) (draws : Nat) :
    (m.put2 bs draws).1.snapshots = m.snapshots := by
  simp only [MemDB.put2]
  split <;> rfl

@[simp] theorem delete2_currSn (m : MemDB) (bs : Bytes) : (m.delete2 bs).1.currSn = m.currSn := by
  unfold MemDB.delete2 MemDB.deleteNode
  split
  · split_ifs <;> rfl
  · rfl

@[simp] theorem delete2_snapshots (m : MemDB) (bs : Bytes) :
    (m.delete2 bs).1.snapshots = m.snapshots := by
  unfold MemDB.delete2 MemDB.deleteNode
  split
  · split_ifs <;> rfl
  · rfl

/-! ## Sorted lists of versions -/

section Order

variable {α : Type} {cmp : α → α → Int}

/-- Two nodes of a sorted list compare one way or the other. -/
theorem Sorted.lt_or_gt {l : List (Node α)} (h : Sorted cmp l) {a b : Node α} (ha : a ∈ l)
    (hb : b ∈ l) (hne : a ≠ b) : cmp a.item b.item < 0 ∨ cmp b.item a.item < 0 := by
  induction l with
  | nil => simp at ha
  | cons x l ih =>
    obtain ⟨hx, hl⟩ := List.pairwise_cons.1 h
    -- fresh names: `subst` puts the old membership facts back after the new ones
    rcases List.mem_cons.1 ha with rfl | ha' <;> rcases List.mem_cons.1 hb with rfl | hb'
    · exact absurd rfl hne
    · exact .inl (hx b hb')
    · exact .inr (hx a ha')
    · exact ih hl ha' hb'

theorem mem_of_mem_findPath_fst {itm : α} {nodes : List (Node α)} {n : Node α}
    (h : n ∈ (findPath cmp itm nodes).1) : n ∈ nodes := by
  rw [← findPath_append itm nodes]
  exact List.mem_append_left _ h

theorem mem_of_mem_findPath_snd {itm : α} {nodes : List (Node α)} {n : Node α}
    (h : n ∈ (findPath cmp itm nodes).2) : n ∈ nodes := by
  rw [← findPath_append itm nodes]
  exact List.mem_append_right _ h

/-- A node not below the item is among the nodes from where the search stops. -/
theorem mem_findPath_snd {itm : α} {nodes : List (Node α)} {n : Node α} (hn : n ∈ nodes)
    (hnlt : ¬cmp n.item itm < 0) : n ∈ (findPath cmp itm nodes).2 := by
  rw [← @findPath_append α cmp itm nodes] at hn
  rcases List.mem_append.1 hn with h1 | h2
  · exact absurd (lt_of_mem_findPath_fst h1) hnlt
  · exact h2

/-- The nodes with a node put where the search stopped are that node and the old ones. -/
theorem mem_findPath_insert {itm : α} {nodes : List (Node α)} {x n : Node α} :
    n ∈ (findPath cmp itm nodes).1 ++ x :: (findPath cmp itm nodes).2 ↔ n = x ∨ n ∈ nodes := by
  conv_rhs => rw [← @findPath_append α cmp itm nodes]
  simp only [List.mem_append, List.mem_cons]
  tauto

/-- On a list where `p` holds of a node whenever it holds of a later one, dropping the nodes
from the front while `p` holds drops exactly the nodes where it holds. -/
theorem dropWhile_eq_filter {β : Type} {p : β → Bool} {l : List β}
    (h : l.Pairwise fun a b => p b = true → p a = true) : l.dropWhile p = l.filter fun a => !p a := by
  induction l with
  | nil => rfl
  | cons a l ih =>
    obtain ⟨ha, hl⟩ := List.pairwise_cons.1 h
    by_cases hpa : p a = true
    · simp only [List.dropWhile_cons_of_pos hpa, ih hl, List.filter_cons, hpa, Bool.not_true,
        Bool.false_eq_true, if_false]
    · -- nothing after `a` satisfies `p` either
      have hrest : l.filter (fun a => !p a) = l :=
        List.filter_eq_self.2 fun b hb => by simpa using fun hpb => hpa (ha b hb hpb)
      simp only [List.dropWhile_cons_of_neg hpa, List.filter_cons, hpa, Bool.not_false, if_true,
        hrest]

variable (htrans : ∀ a b c, cmp a b < 0 → cmp b c < 0 → cmp a c < 0)
include htrans

/-- A node below the item is among the nodes the search passes. -/
theorem mem_findPath_fst {itm : α} {nodes : List (Node α)} {n : Node α} (hs : Sorted cmp nodes)
    (hn : n ∈ nodes) (hlt : cmp n.item itm < 0) : n ∈ (findPath cmp itm nodes).1 := by
  rw [← findPath_append itm nodes] at hn
  rcases List.mem_append.1 hn with hn | hn
  · exact hn
  · have := findPath_sorted htrans hs n hn
    omega

end Order

/-! ## Versions -/

section Versions

variable {keyCmp : Bytes → Bytes → Int}

/-- The versions of the keys in a store whose current number is `c`. -/
structure Versions (keyCmp : Bytes → Bytes → Int) (c : UInt32) (nodes : List (Node Item)) :
    Prop where
  sorted : Sorted (insCmp keyCmp) nodes
  born_le : ∀ n ∈ nodes, n.item.bornSn.toNat ≤ c.toNat
  dead : ∀ n ∈ nodes, n.item.deadSn ≠ 0 →
    n.item.bornSn.toNat < n.item.deadSn.toNat ∧ n.item.deadSn.toNat ≤ c.toNat
  older_dead : ∀ a ∈ nodes, ∀ b ∈ nodes, a.item.key = b.item.key →
    a.item.bornSn.toNat < b.item.bornSn.toNat →
      a.item.deadSn ≠ 0 ∧ a.item.deadSn.toNat ≤ b.item.bornSn.toNat

/-- `insCmp` reads the key and the birth only. -/
theorem insCmp_congr_right {a b b' : Item} (hkey : b.key = b'.key) (hborn : b.bornSn = b'.bornSn) :
    insCmp keyCmp a b = insCmp keyCmp a b' := by
  simp only [insCmp, hkey, hborn]

/-- A version born in the current number is live. -/
theorem Versions.deadSn_of_born (h : Versions keyCmp c nodes) {n : Node Item} (hn : n ∈ nodes)
    (hborn : n.item.bornSn = c) : n.item.deadSn = 0 := by
  by_contra hd
  have := h.dead n hn hd
  rw [hborn] at this
  omega

/-- The current number sees exactly the live versions. -/
theorem Versions.unwanted_curr (h : Versions keyCmp c nodes) {n : Node Item} (hn : n ∈ nodes) :
    unwanted c n.item = false ↔ n.item.deadSn = 0 := by
  rw [unwanted_eq_false_iff, ← toNat_eq_zero_iff]
  constructor
  · rintro ⟨-, hd | hlt⟩
    · exact hd
    · by_contra hd
      have := (h.dead n hn (mt toNat_eq_zero_iff.2 hd)).2
      omega
  · intro hd
    exact ⟨h.born_le n hn, .inl hd⟩

/-- The current number sees the keys of the live versions. -/
theorem Versions.mem_visibleKeys_curr (h : Versions keyCmp c nodes) {k : Bytes} :
    k ∈ visibleKeys c nodes ↔ ∃ n ∈ nodes, n.item.deadSn = 0 ∧ n.item.key = k := by
  rw [mem_visibleKeys]
  constructor
  · rintro ⟨n, hn, hu, hkey⟩
    exact ⟨n, hn, (h.unwanted_curr hn).1 hu, hkey⟩
  · rintro ⟨n, hn, hd, hkey⟩
    exact ⟨n, hn, (h.unwanted_curr hn).2 hd, hkey⟩

/-- The next number, short of the wrap around, sees what the current one sees. -/
theorem Versions.unwanted_succ (h : Versions keyCmp c nodes) (hc : c.toNat + 1 < 2 ^ 32)
    {n : Node Item} (hn : n ∈ nodes) : unwanted (c + 1) n.item = unwanted c n.item := by
  have hb := h.born_le n hn
  rw [Bool.eq_iff_iff]
  simp only [unwanted, Bool.or_eq_true, Bool.and_eq_true, decide_eq_true_eq,
    UInt32.lt_iff_toNat_lt, UInt32.le_iff_toNat_le, UInt32.toNat_zero, toNat_succ_of_lt hc]
  by_cases hd : n.item.deadSn = 0
  · rw [← toNat_eq_zero_iff] at hd
    omega
  · have := (h.dead n hn hd).2
    omega

/-- Fewer versions still follow one another. -/
theorem Versions.sublist {nodes' : List (Node Item)} (h : Versions keyCmp c nodes)
    (hs : List.Sublist nodes' nodes) : Versions keyCmp c nodes' where
  sorted := h.sorted.sublist hs
  born_le n hn := h.born_le n (hs.subset hn)
  dead n hn := h.dead n (hs.subset hn)
  older_dead a ha b hb := h.older_dead a (hs.subset ha) b (hs.subset hb)

/-- Versions follow one another at any later number. -/
theorem Versions.mono {c' : UInt32} (h : Versions keyCmp c nodes) (hc : c.toNat ≤ c'.toNat) :
    Versions keyCmp c' nodes where
  sorted := h.sorted
  born_le n hn := (h.born_le n hn).trans hc
  dead n hn hd := ⟨(h.dead n hn hd).1, (h.dead n hn hd).2.trans hc⟩
  older_dead := h.older_dead

variable (hk : LawfulKeyCmp keyCmp)
include hk

theorem insCmp_of_key_eq {a b : Item} (hkey : a.key = b.key) :
    insCmp keyCmp a b = (a.bornSn.toNat : Int) - b.bornSn.toNat := by
  simp only [insCmp, hkey, (hk.eq_zero b.key b.key).mpr rfl, if_true]

theorem insCmp_eq_zero_iff {a b : Item} :
    insCmp keyCmp a b = 0 ↔ a.key = b.key ∧ a.bornSn = b.bornSn := by
  by_cases hkey : a.key = b.key
  · rw [insCmp_of_key_eq hk hkey, ← UInt32.toNat_inj]
    simp only [hkey, true_and]
    omega
  · have hne : keyCmp a.key b.key ≠ 0 := fun h => hkey ((hk.eq_zero _ _).mp h)
    simp only [insCmp, hne, if_false, hkey, false_and]

/-- Below in `insCmp`: a lower key, or the same key born earlier. -/
theorem insCmp_neg_cases {a b : Item} (h : insCmp keyCmp a b < 0) :
    keyCmp a.key b.key < 0 ∨ (a.key = b.key ∧ a.bornSn.toNat < b.bornSn.toNat) := by
  by_cases hkey : a.key = b.key
  · rw [insCmp_of_key_eq hk hkey] at h
    exact .inr ⟨hkey, by omega⟩
  · have hne : keyCmp a.key b.key ≠ 0 := fun h => hkey ((hk.eq_zero _ _).mp h)
    simp only [insCmp, if_neg hne] at h
    exact .inl h

/-- An item between two versions of one key in `insCmp` is a version of that key. -/
theorem key_eq_of_between {a b c : Item} (hab : insCmp keyCmp a b < 0)
    (hbc : insCmp keyCmp b c < 0) (hac : a.key = c.key) : a.key = b.key := by
  have hself : ¬keyCmp c.key c.key < 0 := by rw [(hk.eq_zero _ _).mpr rfl]; omega
  rcases insCmp_neg_cases hk hab with hab | ⟨hab, -⟩
  · rcases insCmp_neg_cases hk hbc with hbc | ⟨hbc, -⟩
    · rw [hac] at hab
      exact absurd (hk.trans _ _ _ hab hbc) hself
    · rw [hac, hbc] at hab
      exact absurd hab hself
  · exact hab

theorem Versions.nodup (h : Versions keyCmp c nodes) : nodes.Nodup :=
  h.sorted.imp fun {a b} hab hne => by
    subst hne
    rw [(insCmp_eq_zero_iff hk).2 ⟨rfl, rfl⟩] at hab
    exact lt_irrefl 0 hab

/-- A key has at most one live version. -/
theorem Versions.eq_of_live (h : Versions keyCmp c nodes) {a b : Node Item} (ha : a ∈ nodes)
    (hb : b ∈ nodes) (hkey : a.item.key = b.item.key) (hda : a.item.deadSn = 0)
    (hdb : b.item.deadSn = 0) : a = b := by
  by_contra hne
  rcases h.sorted.lt_or_gt ha hb hne with hab | hba
  · -- the older of the two is dead
    rw [insCmp_of_key_eq hk hkey] at hab
    exact (h.older_dead a ha b hb hkey (by omega)).1 hda
  · rw [insCmp_of_key_eq hk hkey.symm] at hba
    exact (h.older_dead b hb a ha hkey.symm (by omega)).1 hdb

/-! ### Where the writer's search stops -/

/-- A node where the search for `⟨bs, c, 0⟩` stops comparing equal is a live version of `bs`
born in `c`. -/
theorem Versions.foundNode_some (h : Versions keyCmp c nodes) {bs : Bytes} {n : Node Item}
    (hf : foundNode (insCmp keyCmp) ⟨bs, c, 0⟩ (findPath (insCmp keyCmp) ⟨bs, c, 0⟩ nodes).2 =
      some n) :
    n ∈ nodes ∧ n.item.key = bs ∧ n.item.bornSn = c ∧ n.item.deadSn = 0 := by
  unfold foundNode at hf
  split at hf
  · next n0 rest hpath =>
    split_ifs at hf with h0
    cases hf
    have hmem : n ∈ nodes := mem_of_mem_findPath_snd (by rw [hpath]; exact List.mem_cons_self)
    obtain ⟨hkey, hborn⟩ := (insCmp_eq_zero_iff hk).1 h0
    exact ⟨hmem, hkey, hborn, h.deadSn_of_born hmem hborn⟩
  · cases hf

/-- A node just before where the search stops that `existCmp` finds equal to `⟨bs, c, 0⟩` is a
live version of `bs`. -/
theorem last_findPath_live {bs : Bytes} {c : UInt32} {nodes : List (Node Item)}
    (hcmp : compareItems (existCmp keyCmp) (some ⟨bs, c, 0⟩)
      ((findPath (insCmp keyCmp) ⟨bs, c, 0⟩ nodes).1.getLast?.map Node.item) = 0) :
    ∃ p, (findPath (insCmp keyCmp) ⟨bs, c, 0⟩ nodes).1.getLast? = some p ∧ p ∈ nodes ∧
      p.item.key = bs ∧ p.item.deadSn = 0 := by
  cases hl : (findPath (insCmp keyCmp) ⟨bs, c, 0⟩ nodes).1.getLast? with
  | none => simp [hl, compareItems] at hcmp
  | some p =>
    simp only [hl, Option.map_some, compareItems, existCmp] at hcmp
    split_ifs at hcmp with hd
    · simp at hcmp
    · obtain ⟨ys, hys⟩ := List.getLast?_eq_some_iff.1 hl
      have hp : p ∈ nodes := mem_of_mem_findPath_fst (by rw [hys]; simp)
      simp only [ne_eq, not_true_eq_false, false_or, not_not] at hd
      exact ⟨p, rfl, hp, ((hk.eq_zero _ _).1 hcmp).symm, hd⟩

/-- Where the search for `⟨bs, c, 0⟩` stops when `bs` has a live version `n`: at `n` when `n`
was born in `c`, and just after `n` otherwise. -/
theorem Versions.findPath_live (h : Versions keyCmp c nodes) {bs : Bytes} {n : Node Item}
    (hn : n ∈ nodes) (hkey : n.item.key = bs) (hd : n.item.deadSn = 0) :
    (n.item.bornSn = c ∧
      foundNode (insCmp keyCmp) ⟨bs, c, 0⟩ (findPath (insCmp keyCmp) ⟨bs, c, 0⟩ nodes).2 = some n) ∨
    (n.item.bornSn.toNat < c.toNat ∧
      foundNode (insCmp keyCmp) ⟨bs, c, 0⟩ (findPath (insCmp keyCmp) ⟨bs, c, 0⟩ nodes).2 = none ∧
      (findPath (insCmp keyCmp) ⟨bs, c, 0⟩ nodes).1.getLast? = some n) := by
  rcases Nat.lt_or_eq_of_le (h.born_le n hn) with hlt | heq
  · right
    refine ⟨hlt, ?_, ?_⟩
    · -- a node found equal would be a second live version of `bs`
      cases hf : foundNode (insCmp keyCmp) ⟨bs, c, 0⟩ (findPath (insCmp keyCmp) ⟨bs, c, 0⟩ nodes).2 with
      | none => rfl
      | some f =>
        obtain ⟨hf, hfkey, hfborn, hfd⟩ := h.foundNode_some hk hf
        have := h.eq_of_live hk hn hf (hkey.trans hfkey.symm) hd hfd
        subst this
        rw [hfborn] at hlt
        omega
    · -- `n` is passed, and any node passed after it would be a newer version of `bs`
      have hlt' : insCmp keyCmp n.item ⟨bs, c, 0⟩ < 0 := by
        rw [insCmp_of_key_eq hk hkey]
        simp only
        omega
      have hmem := mem_findPath_fst (insCmp_trans hk) h.sorted hn hlt'
      have hpath : Sorted (insCmp keyCmp) (findPath (insCmp keyCmp) ⟨bs, c, 0⟩ nodes).1 :=
        h.sorted.sublist (List.takeWhile_sublist _)
      rcases List.eq_nil_or_concat (findPath (insCmp keyCmp) ⟨bs, c, 0⟩ nodes).1 with hnil | ⟨ys, p, hys⟩
      · rw [hnil] at hmem
        simp at hmem
      rw [hys, List.concat_eq_append, List.getLast?_concat]
      by_contra hne
      have hne : n ≠ p := fun he => hne (congrArg some he.symm)
      rw [hys, List.concat_eq_append] at hmem hpath
      have hnys : n ∈ ys := by simpa [hne] using hmem
      have hnp : insCmp keyCmp n.item p.item < 0 :=
        (List.pairwise_append.1 hpath).2.2 n hnys p (List.mem_singleton_self p)
      have hp : p ∈ (findPath (insCmp keyCmp) ⟨bs, c, 0⟩ nodes).1 := by rw [hys]; simp
      have hpkey := key_eq_of_between hk hnp (lt_of_mem_findPath_fst hp) hkey
      rw [insCmp_of_key_eq hk hpkey] at hnp
      exact (h.older_dead n hn p (mem_of_mem_findPath_fst hp) hpkey (by omega)).1 hd
  · left
    have heq : n.item.bornSn = c := UInt32.toNat_inj.1 heq
    refine ⟨heq, ?_⟩
    -- `n` compares equal to the item, so the search stops at it
    have h0 : insCmp keyCmp n.item ⟨bs, c, 0⟩ = 0 := (insCmp_eq_zero_iff hk).2 ⟨hkey, heq⟩
    have hmem : n ∈ (findPath (insCmp keyCmp) ⟨bs, c, 0⟩ nodes).2 :=
      mem_findPath_snd hn (by omega)
    have hsuc : Sorted (insCmp keyCmp) (findPath (insCmp keyCmp) ⟨bs, c, 0⟩ nodes).2 :=
      h.sorted.sublist (List.dropWhile_sublist _)
    generalize hpath : (findPath (insCmp keyCmp) ⟨bs, c, 0⟩ nodes).2 = succs at hmem hsuc
    cases succs with
    | nil => simp at hmem
    | cons s0 rest =>
      rcases List.mem_cons.1 hmem with rfl | hrest
      · simp [foundNode, h0]
      · -- `succs[0]` would be below `n`, which compares equal to the item
        have hs0 := head_findPath_snd hpath
        have hlt := List.rel_of_pairwise_cons hsuc hrest
        have hcongr : insCmp keyCmp s0.item n.item = insCmp keyCmp s0.item ⟨bs, c, 0⟩ :=
          insCmp_congr_right hkey heq
        omega

/-- Versions sorted by key and birth, one of each key seen: a snapshot's keys ascend. -/
theorem Versions.visibleKeys_sorted (h : Versions keyCmp c nodes) (sn : UInt32) :
    (visibleKeys sn nodes).Pairwise fun a b => keyCmp a b < 0 := by
  unfold visibleKeys
  rw [List.pairwise_map]
  refine (h.sorted.filter _).imp_of_mem fun {a b} ha hb hab => ?_
  obtain ⟨ha, hva⟩ := List.mem_filter.1 ha
  obtain ⟨hb, hvb⟩ := List.mem_filter.1 hb
  rcases insCmp_neg_cases hk hab with hlt | ⟨hkey, hborn⟩
  · exact hlt
  · -- the older version is dead by the newer's birth, so `sn` does not see both
    have ⟨hd, hdle⟩ := h.older_dead a ha b hb hkey hborn
    have hd' : a.item.deadSn.toNat ≠ 0 := mt toNat_eq_zero_iff.1 hd
    simp only [Bool.not_eq_true', unwanted_eq_false_iff] at hva hvb
    omega

end Versions

/-! ## The writer's calls on the versions -/

section Calls

variable {keyCmp : Bytes → Bytes → Int} (hk : LawfulKeyCmp keyCmp) {m : MemDB} {bs : Bytes}
include hk

/-- `Put2` of a key with a live version inserts nothing. -/
theorem put2_of_live (hv : Versions keyCmp m.currSn m.store.nodes)
    (hc : m.config.keyCmp = keyCmp) {n : Node Item} (hn : n ∈ m.store.nodes)
    (hkey : n.item.key = bs) (hd : n.item.deadSn = 0) (draws : Nat) :
    (m.put2 bs draws).2 = false ∧ (m.put2 bs draws).1.store.nodes = m.store.nodes := by
  have hnone : (m.store.newLevel draws).2.insert3 (insCmp keyCmp) (existCmp keyCmp)
      ⟨bs, m.currSn, 0⟩ (m.store.newLevel draws).1 m.writerStats = none := by
    simp only [Skiplist.insert3, newLevel_nodes]
    rw [if_pos]
    rcases hv.findPath_live hk hn hkey hd with ⟨-, hf⟩ | ⟨-, -, hlast⟩
    · exact .inl (by simp [hf])
    · exact .inr (by simp [hlast, compareItems, existCmp, hd, hkey, (hk.eq_zero bs bs).2 rfl])
  simp only [MemDB.put2, hc, hnone]
  exact ⟨trivial, newLevel_nodes _ _⟩

/-- Where `bs` has no live version the search for `⟨bs, c, 0⟩` finds nothing equal, and the node
before where it stops is no live version of `bs`. -/
theorem Versions.findPath_not_live {c : UInt32} {nodes : List (Node Item)}
    (hv : Versions keyCmp c nodes) (hl : ∀ n ∈ nodes, n.item.key = bs → n.item.deadSn ≠ 0) :
    foundNode (insCmp keyCmp) ⟨bs, c, 0⟩ (findPath (insCmp keyCmp) ⟨bs, c, 0⟩ nodes).2 = none ∧
      compareItems (existCmp keyCmp) (some ⟨bs, c, 0⟩)
        ((findPath (insCmp keyCmp) ⟨bs, c, 0⟩ nodes).1.getLast?.map Node.item) ≠ 0 := by
  constructor
  · cases hf : foundNode (insCmp keyCmp) ⟨bs, c, 0⟩ (findPath (insCmp keyCmp) ⟨bs, c, 0⟩ nodes).2 with
    | none => rfl
    | some f =>
      obtain ⟨hf, hfkey, -, hfd⟩ := hv.foundNode_some hk hf
      exact absurd hfd (hl f hf hfkey)
  · intro h0
    obtain ⟨p, -, hp, hpkey, hpd⟩ := last_findPath_live hk h0
    exact hl p hp hpkey hpd

/-- `Put2` of a key without a live version puts a version born in the current number where the
search stopped. -/
theorem put2_of_not_live (hv : Versions keyCmp m.currSn m.store.nodes)
    (hc : m.config.keyCmp = keyCmp) (hl : ∀ n ∈ m.store.nodes, n.item.key = bs → n.item.deadSn ≠ 0)
    (draws : Nat) :
    (m.put2 bs draws).2 = true ∧ ∃ lvl, (m.put2 bs draws).1.store.nodes =
      (findPath (insCmp keyCmp) ⟨bs, m.currSn, 0⟩ m.store.nodes).1 ++
        ⟨⟨bs, m.currSn, 0⟩, lvl⟩ :: (findPath (insCmp keyCmp) ⟨bs, m.currSn, 0⟩ m.store.nodes).2 := by
  obtain ⟨hfound, hlast⟩ := hv.findPath_not_live hk hl
  have hsome : (m.store.newLevel draws).2.insert3 (insCmp keyCmp) (existCmp keyCmp)
      ⟨bs, m.currSn, 0⟩ (m.store.newLevel draws).1 m.writerStats =
      some ({ (m.store.newLevel draws).2 with
          nodes := (findPath (insCmp keyCmp) ⟨bs, m.currSn, 0⟩ m.store.nodes).1 ++
            ⟨⟨bs, m.currSn, 0⟩, (m.store.newLevel draws).1⟩ ::
              (findPath (insCmp keyCmp) ⟨bs, m.currSn, 0⟩ m.store.nodes).2 },
        m.writerStats.add (m.store.newLevel draws).1 1) := by
    simp only [Skiplist.insert3, newLevel_nodes, hfound, Option.isSome_none, Bool.false_eq_true,
      false_or]
    rw [if_neg hlast]
  simp only [MemDB.put2, hc, hsome]
  exact ⟨trivial, _, rfl⟩

/-- `GetNode` of a key with a live version finds it. -/
theorem getNode_of_live (hv : Versions keyCmp m.currSn m.store.nodes)
    (hc : m.config.keyCmp = keyCmp) {n : Node Item} (hn : n ∈ m.store.nodes)
    (hkey : n.item.key = bs) (hd : n.item.deadSn = 0) : m.getNode bs = some n := by
  rcases hv.findPath_live hk hn hkey hd with ⟨-, hf⟩ | ⟨-, hf, hlast⟩
  · simp only [MemDB.getNode, hc, hf]
  · simp [MemDB.getNode, hc, hf, hlast, compareItems, existCmp, hd, hkey, (hk.eq_zero bs bs).2 rfl]

/-- `GetNode` of a key without a live version finds nothing. -/
theorem getNode_of_not_live (hv : Versions keyCmp m.currSn m.store.nodes)
    (hc : m.config.keyCmp = keyCmp) (hl : ∀ n ∈ m.store.nodes, n.item.key = bs → n.item.deadSn ≠ 0) :
    m.getNode bs = none := by
  obtain ⟨hfound, hlast⟩ := hv.findPath_not_live hk hl
  simp only [MemDB.getNode, hc, hfound, if_neg hlast]

/-- `Delete2` of a key with a live version `n` takes `n` out of the list when it was born in the
current number, and marks it dead in it otherwise. -/
theorem delete2_of_live (hv : Versions keyCmp m.currSn m.store.nodes)
    (hc : m.config.keyCmp = keyCmp) {n : Node Item} (hn : n ∈ m.store.nodes)
    (hkey : n.item.key = bs) (hd : n.item.deadSn = 0) :
    (m.delete2 bs).2 = true ∧ (m.delete2 bs).1.store.nodes =
      if n.item.bornSn = m.currSn then m.store.nodes.erase n
      else (m.store.markDead n m.currSn).nodes := by
  simp only [MemDB.delete2, getNode_of_live hk hv hc hn hkey hd, MemDB.deleteNode, hd]
  split_ifs <;> simp [Skiplist.deleteNode, hn]

/-- `Delete2` of a key without a live version changes nothing. -/
theorem delete2_of_not_live (hv : Versions keyCmp m.currSn m.store.nodes)
    (hc : m.config.keyCmp = keyCmp) (hl : ∀ n ∈ m.store.nodes, n.item.key = bs → n.item.deadSn ≠ 0) :
    m.delete2 bs = (m, false) := by
  simp only [MemDB.delete2, getNode_of_not_live hk hv hc hl]

end Calls

/-! ## The versions after a call -/

section Steps

variable {keyCmp : Bytes → Bytes → Int} {c : UInt32} {nodes : List (Node Item)}

/-- A version of `bs` born in `c` put among versions where `bs` has no live one: the older
versions of `bs` are dead by `c`. -/
theorem Versions.insert {nodes' : List (Node Item)} {bs : Bytes} {lvl : Nat}
    (h : Versions keyCmp c nodes) (hs : Sorted (insCmp keyCmp) nodes')
    (hmem : ∀ n, n ∈ nodes' ↔ n = ⟨⟨bs, c, 0⟩, lvl⟩ ∨ n ∈ nodes)
    (hl : ∀ n ∈ nodes, n.item.key = bs → n.item.deadSn ≠ 0) : Versions keyCmp c nodes' where
  sorted := hs
  born_le n hn := by
    rcases (hmem n).1 hn with rfl | hn
    · exact le_refl c.toNat
    · exact h.born_le n hn
  dead n hn hd := by
    rcases (hmem n).1 hn with rfl | hn
    · exact absurd rfl hd
    · exact h.dead n hn hd
  older_dead a ha b hb hkey hborn := by
    rcases (hmem a).1 ha with rfl | ha <;> rcases (hmem b).1 hb with rfl | hb
    · exact absurd hborn (lt_irrefl _)
    · -- nothing is born after the current number
      exact absurd (h.born_le b hb) (by simp only at hborn; omega)
    · -- an older version of `bs` is dead, by the current number at the latest
      have hd := hl a ha hkey
      exact ⟨hd, (h.dead a ha hd).2⟩
    · exact h.older_dead a ha b hb hkey hborn

/-- The live version `n` of a key, born before `c`, marked dead in `c`. -/
theorem Versions.markDead {s : Skiplist Item} {n : Node Item} (h : Versions keyCmp c s.nodes)
    (hn : n ∈ s.nodes) (hd : n.item.deadSn = 0) (hlt : n.item.bornSn.toNat < c.toNat) :
    Versions keyCmp c (s.markDead n c).nodes where
  sorted := markDead_sorted h.sorted
  born_le x hx := by
    obtain ⟨a, ha, rfl⟩ := List.mem_map.1 hx
    split_ifs
    · exact h.born_le a ha
    · exact h.born_le a ha
  dead x hx hxd := by
    obtain ⟨a, ha, rfl⟩ := List.mem_map.1 hx
    split_ifs at hxd ⊢ with hna
    · subst hna
      exact ⟨hlt, le_refl c.toNat⟩
    · exact h.dead a ha hxd
  older_dead x hx y hy hkey hborn := by
    obtain ⟨a, ha, rfl⟩ := List.mem_map.1 hx
    obtain ⟨b, hb, rfl⟩ := List.mem_map.1 hy
    split_ifs at hkey hborn ⊢ with hna hnb hnb
    · subst hna
      subst hnb
      exact absurd hborn (lt_irrefl _)
    · -- the live version was the newest of its key
      subst hna
      exact absurd hd (h.older_dead a ha b hb hkey hborn).1
    · subst hnb
      exact h.older_dead a ha b hb hkey hborn
    · exact h.older_dead a ha b hb hkey hborn

/-- Marking the live version `n` dead in `c` changes nothing that a number before `c` sees. -/
theorem visibleKeys_markDead {s : Skiplist Item} {n : Node Item} {sn : UInt32} {k : Bytes}
    (hd : n.item.deadSn = 0) (hsn : sn.toNat < c.toNat) :
    k ∈ visibleKeys sn (s.markDead n c).nodes ↔ k ∈ visibleKeys sn s.nodes := by
  have hd0 : n.item.deadSn.toNat = 0 := toNat_eq_zero_iff.2 hd
  simp only [mem_visibleKeys, Skiplist.markDead, List.mem_map]
  constructor
  · rintro ⟨x, ⟨a, ha, rfl⟩, hu, hkey⟩
    refine ⟨a, ha, ?_, ?_⟩ <;> split_ifs at hu hkey with hna
    · subst hna
      simp only [unwanted_eq_false_iff] at hu ⊢
      omega
    · exact hu
    · exact hkey
    · exact hkey
  · rintro ⟨a, ha, hu, hkey⟩
    refine ⟨_, ⟨a, ha, rfl⟩, ?_, ?_⟩ <;> split_ifs with hna
    · subst hna
      simp only [unwanted_eq_false_iff] at hu ⊢
      omega
    · exact hu
    · exact hkey
    · exact hkey

/-- What a number sees is unchanged by a node it does not see leaving. -/
theorem visibleKeys_erase {n : Node Item} {sn : UInt32} {k : Bytes} (hu : unwanted sn n.item = true) :
    k ∈ visibleKeys sn (nodes.erase n) ↔ k ∈ visibleKeys sn nodes := by
  simp only [mem_visibleKeys]
  constructor
  · rintro ⟨x, hx, hxu, hkey⟩
    exact ⟨x, List.mem_of_mem_erase hx, hxu, hkey⟩
  · rintro ⟨x, hx, hxu, hkey⟩
    have hne : x ≠ n := by
      rintro rfl
      rw [hu] at hxu
      cases hxu
    exact ⟨x, List.mem_erase_of_ne hne |>.2 hx, hxu, hkey⟩

variable (hk : LawfulKeyCmp keyCmp)
include hk

/-- A delete takes the live version `n` of `bs` and leaves the others: the current number sees
the keys it saw but `bs`. -/
theorem Versions.visibleKeys_delete {nodes' : List (Node Item)} {bs : Bytes} {n : Node Item}
    (h : Versions keyCmp c nodes) (h' : Versions keyCmp c nodes') (hn : n ∈ nodes)
    (hkey : n.item.key = bs) (hd : n.item.deadSn = 0)
    (hlive : ∀ x, x ∈ nodes' ∧ x.item.deadSn = 0 ↔ x ∈ nodes ∧ x ≠ n ∧ x.item.deadSn = 0)
    (k : Bytes) : k ∈ visibleKeys c nodes' ↔ k ≠ bs ∧ k ∈ visibleKeys c nodes := by
  rw [h.mem_visibleKeys_curr, h'.mem_visibleKeys_curr]
  constructor
  · rintro ⟨x, hx, hxd, rfl⟩
    obtain ⟨hx, hne, -⟩ := (hlive x).1 ⟨hx, hxd⟩
    refine ⟨fun hxkey => hne ?_, x, hx, hxd, rfl⟩
    -- a second live version of `bs`
    exact h.eq_of_live hk hx hn (hxkey.trans hkey.symm) hxd hd
  · rintro ⟨hne, x, hx, hxd, rfl⟩
    have hxn : x ≠ n := by
      rintro rfl
      exact hne hkey
    exact ⟨x, ((hlive x).2 ⟨hx, hxn, hxd⟩).1, hxd, rfl⟩

end Steps

/-! ## The store represents the key sets -/

section Represents

variable {keyCmp : Bytes → Bytes → Int} {m : MemDB} {A : KeySets}

/-- The store represents the key sets: its versions follow one another, the current number is
the next snapshot's and the taken snapshots are numbered from 1, the current number sees the
keys, and each snapshot sees the keys it froze. -/
structure Represents (keyCmp : Bytes → Bytes → Int) (m : MemDB) (A : KeySets) : Prop where
  config : m.config.keyCmp = keyCmp
  versions : Versions keyCmp m.currSn m.store.nodes
  currSn : m.currSn.toNat = A.snaps.length + 1
  snapshots : m.snapshots = (List.range' 1 A.snaps.length).map UInt32.ofNat
  keys : ∀ k, k ∈ A.keys ↔ k ∈ visibleKeys m.currSn m.store.nodes
  snaps : ∀ i (hi : i < A.snaps.length) k,
    k ∈ A.snaps[i] ↔ k ∈ visibleKeys (UInt32.ofNat (i + 1)) m.store.nodes

theorem represents_new (config : Config) :
    Represents config.keyCmp (MemDB.new config) KeySets.empty where
  config := rfl
  versions := ⟨List.Pairwise.nil, by simp [MemDB.new, Skiplist.empty],
    by simp [MemDB.new, Skiplist.empty], by simp [MemDB.new, Skiplist.empty]⟩
  currSn := rfl
  snapshots := rfl
  keys k := by simp [KeySets.empty, MemDB.new, Skiplist.empty]
  snaps i hi := absurd hi (Nat.not_lt_zero i)

/-- The number of a snapshot taken, below the current one, does not wrap around. -/
theorem Represents.toNat_snap (h : Represents keyCmp m A) {i : Nat} (hi : i < A.snaps.length) :
    (UInt32.ofNat (i + 1)).toNat = i + 1 := by
  have hlt := UInt32.toNat_lt m.currSn
  have hc := h.currSn
  rw [UInt32.toNat_ofNat', Nat.mod_eq_of_lt (by omega)]

/-- A store with the same numbers, snapshots and nodes represents the same key sets. -/
theorem Represents.of_nodes {m' : MemDB} (h : Represents keyCmp m A)
    (hconfig : m'.config = m.config) (hcurr : m'.currSn = m.currSn)
    (hsnap : m'.snapshots = m.snapshots) (hnodes : m'.store.nodes = m.store.nodes) :
    Represents keyCmp m' A where
  config := hconfig ▸ h.config
  versions := hcurr ▸ hnodes ▸ h.versions
  currSn := hcurr ▸ h.currSn
  snapshots := hsnap ▸ h.snapshots
  keys := hcurr ▸ hnodes ▸ h.keys
  snaps := hnodes ▸ h.snaps

variable (hk : LawfulKeyCmp keyCmp)
include hk

/-- **`Put2`** replies whether the key was not in the store, and the store then holds it. -/
theorem Represents.put (h : Represents keyCmp m A) (bs : Bytes) (draws : Nat) :
    (m.put2 bs draws).2 = decide (bs ∉ A.keys) ∧
      Represents keyCmp (m.put2 bs draws).1 { A with keys := insert bs A.keys } := by
  by_cases hin : bs ∈ A.keys
  · -- a live version of `bs`: nothing is inserted
    obtain ⟨n, hn, hd, hkey⟩ := h.versions.mem_visibleKeys_curr.1 ((h.keys bs).1 hin)
    obtain ⟨hr, hnodes⟩ := put2_of_live hk h.versions h.config hn hkey hd draws
    refine ⟨by simp [hr, hin], ?_⟩
    rw [Finset.insert_eq_of_mem hin]
    exact h.of_nodes (put2_config _ _ _) (put2_currSn _ _ _) (put2_snapshots _ _ _) hnodes
  · have hl : ∀ n ∈ m.store.nodes, n.item.key = bs → n.item.deadSn ≠ 0 := fun n hn hkey hd =>
      hin ((h.keys bs).2 (h.versions.mem_visibleKeys_curr.2 ⟨n, hn, hd, hkey⟩))
    obtain ⟨hr, lvl, hnodes⟩ := put2_of_not_live hk h.versions h.config hl draws
    have hmem : ∀ n, n ∈ (m.put2 bs draws).1.store.nodes ↔
        n = ⟨⟨bs, m.currSn, 0⟩, lvl⟩ ∨ n ∈ m.store.nodes := fun n => by
      rw [hnodes]
      exact mem_findPath_insert
    have hv : Versions keyCmp m.currSn (m.put2 bs draws).1.store.nodes :=
      h.versions.insert (put2_sorted hk h.config bs draws h.versions.sorted) hmem hl
    -- no snapshot sees the new version, born in the current number
    have hnew : ∀ i < A.snaps.length, unwanted (UInt32.ofNat (i + 1)) ⟨bs, m.currSn, 0⟩ = true := by
      intro i hi
      simp only [unwanted, Bool.or_eq_true, decide_eq_true_eq, UInt32.lt_iff_toNat_lt,
        h.toNat_snap hi, h.currSn]
      omega
    refine ⟨by simp [hr, hin], ⟨by simp [h.config], by simpa using hv, by simpa using h.currSn,
      by simpa using h.snapshots, fun k => ?_, fun i hi k => ?_⟩⟩
    · rw [Finset.mem_insert, h.keys k, put2_currSn]
      have hcur : unwanted m.currSn ⟨bs, m.currSn, 0⟩ = false := by
        simp [unwanted, UInt32.le_iff_toNat_le]
      simp only [mem_visibleKeys, hmem, or_and_right, exists_or, exists_eq_left, hcur, true_and]
      rw [@eq_comm _ bs k]
    · rw [h.snaps i hi k]
      simp only [mem_visibleKeys, hmem, or_and_right, exists_or, exists_eq_left, hnew i hi]
      simp

/-- After a delete that takes the live version `n` of `bs`, with the same numbers and
snapshots, and with what earlier numbers see unchanged, the store represents the key sets
without `bs`. -/
theorem Represents.of_delete {m' : MemDB} {bs : Bytes} {n : Node Item} (h : Represents keyCmp m A)
    (hconfig : m'.config = m.config) (hcurr : m'.currSn = m.currSn)
    (hsnap : m'.snapshots = m.snapshots) (hn : n ∈ m.store.nodes) (hkey : n.item.key = bs)
    (hd : n.item.deadSn = 0) (hv : Versions keyCmp m.currSn m'.store.nodes)
    (hlive : ∀ x, x ∈ m'.store.nodes ∧ x.item.deadSn = 0 ↔
      x ∈ m.store.nodes ∧ x ≠ n ∧ x.item.deadSn = 0)
    (hsame : ∀ i < A.snaps.length, ∀ k, k ∈ visibleKeys (UInt32.ofNat (i + 1)) m'.store.nodes ↔
      k ∈ visibleKeys (UInt32.ofNat (i + 1)) m.store.nodes) :
    Represents keyCmp m' { A with keys := A.keys.erase bs } where
  config := hconfig ▸ h.config
  versions := hcurr ▸ hv
  currSn := hcurr ▸ h.currSn
  snapshots := hsnap ▸ h.snapshots
  keys k := by
    rw [Finset.mem_erase, h.keys k, hcurr, h.versions.visibleKeys_delete hk hv hn hkey hd hlive]
  snaps i hi k := by
    rw [h.snaps i hi k, hsame i hi k]

/-- **`Delete2`** replies whether the key was in the store, and the store then lacks it. -/
theorem Represents.delete (h : Represents keyCmp m A) (bs : Bytes) :
    (m.delete2 bs).2 = decide (bs ∈ A.keys) ∧
      Represents keyCmp (m.delete2 bs).1 { A with keys := A.keys.erase bs } := by
  by_cases hin : bs ∈ A.keys
  · obtain ⟨n, hn, hd, hkey⟩ := h.versions.mem_visibleKeys_curr.1 ((h.keys bs).1 hin)
    obtain ⟨hr, hnodes⟩ := delete2_of_live hk h.versions h.config hn hkey hd
    refine ⟨by simp [hr, hin], ?_⟩
    -- no snapshot sees a version born in the current number
    have hsnap : ∀ i < A.snaps.length, (UInt32.ofNat (i + 1)).toNat < m.currSn.toNat := fun i hi => by
      rw [h.toNat_snap hi, h.currSn]
      omega
    split_ifs at hnodes with hborn
    · -- born in the current number: it leaves the list
      have hmem : ∀ x, x ∈ (m.delete2 bs).1.store.nodes ↔ x ≠ n ∧ x ∈ m.store.nodes := fun x => by
        rw [hnodes]
        exact (h.versions.nodup hk).mem_erase_iff
      refine h.of_delete hk (delete2_config _ _) (delete2_currSn _ _) (delete2_snapshots _ _) hn hkey
        hd (hnodes ▸ h.versions.sublist List.erase_sublist) (fun x => by rw [hmem]; tauto)
        fun i hi k => ?_
      rw [hnodes]
      refine visibleKeys_erase ?_
      simp only [unwanted, hborn, Bool.or_eq_true, decide_eq_true_eq, UInt32.lt_iff_toNat_lt]
      exact .inl (hsnap i hi)
    · -- born before: it is marked dead in the current number
      have hlt : n.item.bornSn.toNat < m.currSn.toNat :=
        lt_of_le_of_ne (h.versions.born_le n hn) (mt UInt32.toNat_inj.1 hborn)
      have hpos : m.currSn ≠ 0 := by
        rw [ne_eq, ← toNat_eq_zero_iff, h.currSn]
        omega
      refine h.of_delete hk (delete2_config _ _) (delete2_currSn _ _) (delete2_snapshots _ _) hn hkey
        hd (hnodes ▸ h.versions.markDead hn hd hlt) (fun x => ?_) fun i hi k => ?_
      · rw [hnodes]
        simp only [Skiplist.markDead, List.mem_map]
        constructor
        · rintro ⟨⟨a, ha, rfl⟩, hxd⟩
          split_ifs at hxd ⊢ with hna
          · exact absurd hxd hpos
          · exact ⟨ha, hna, hxd⟩
        · rintro ⟨hx, hxn, hxd⟩
          exact ⟨⟨x, hx, if_neg hxn⟩, hxd⟩
      · rw [hnodes]
        exact visibleKeys_markDead hd (hsnap i hi)
  · have hl : ∀ n ∈ m.store.nodes, n.item.key = bs → n.item.deadSn ≠ 0 := fun n hn hkey hd =>
      hin ((h.keys bs).2 (h.versions.mem_visibleKeys_curr.2 ⟨n, hn, hd, hkey⟩))
    rw [delete2_of_not_live hk h.versions h.config hl, Finset.erase_eq_of_notMem hin]
    exact ⟨by simp [hin], h⟩

omit hk in
/-- **`NewSnapshot`** takes the current number as the snapshot's, which then sees the keys.
Short of the limit the next number does not wrap around. -/
theorem Represents.newSnapshot (h : Represents keyCmp m A) (hlim : A.snaps.length + 2 < 2 ^ 32) :
    m.newSnapshot.2 = (if A.snaps.length + 2 = 2 ^ 32 - 1 then none
        else some (UInt32.ofNat (A.snaps.length + 1))) ∧
      Represents keyCmp m.newSnapshot.1 { A with snaps := A.snaps ++ [A.keys] } := by
  have hc := h.currSn
  have hnext : (m.currSn + 1).toNat = A.snaps.length + 2 := by
    rw [toNat_succ_of_lt (by omega), hc]
  -- the current number is the new snapshot's
  have hcurr : m.currSn = UInt32.ofNat (A.snaps.length + 1) := by
    rw [← UInt32.toNat_inj, hc, UInt32.toNat_ofNat', Nat.mod_eq_of_lt (by omega)]
  have hmax : maxUint32.toNat = 2 ^ 32 - 1 := rfl
  have hreply : m.currSn + 1 = maxUint32 ↔ A.snaps.length + 2 = 2 ^ 32 - 1 := by
    rw [← UInt32.toNat_inj, hnext, hmax]
  have hsee : ∀ k, k ∈ visibleKeys (m.currSn + 1) m.store.nodes ↔
      k ∈ visibleKeys m.currSn m.store.nodes := by
    intro k
    simp only [mem_visibleKeys]
    -- every node is seen alike by the current number and the next
    exact exists_congr fun n => and_congr_right fun hn => by rw [h.versions.unwanted_succ (by omega) hn]
  refine ⟨?_, ⟨h.config, h.versions.mono (show m.currSn.toNat ≤ (m.currSn + 1).toNat by omega),
    by simp [MemDB.newSnapshot, hnext], ?_, fun k => ?_, fun i hi k => ?_⟩⟩
  · show (if m.currSn + 1 = maxUint32 then none else some m.currSn) = _
    rw [if_congr hreply rfl rfl, hcurr]
  · simp only [MemDB.newSnapshot, h.snapshots, List.length_append, List.length_singleton,
      List.range'_concat, List.map_append, List.map_cons, List.map_nil, hcurr]
    simp only [Nat.one_mul, Nat.add_comm]
  · exact (h.keys k).trans (hsee k).symm
  · simp only [List.length_append, List.length_singleton] at hi
    simp only [MemDB.newSnapshot]
    rcases Nat.lt_succ_iff_lt_or_eq.1 hi with hi | rfl
    · rw [List.getElem_append_left hi]
      exact h.snaps i hi k
    · -- the new snapshot froze the keys of the current number
      rw [List.getElem_append_right (le_refl _)]
      simp only [Nat.sub_self, List.getElem_singleton]
      rw [h.keys k, hcurr]

/-- **One call.** A call short of the snapshot limit replies as on the key sets and keeps the
store representing them. -/
theorem step_simulates :
    Simulation.StepSimulates (Represents keyCmp) MemDB.step KeySets.step SnapshotLimit := by
  intro m A op h hpre
  cases op with
  | put bs draws =>
    obtain ⟨hr, h'⟩ := h.put hk bs draws
    exact ⟨_, by simp only [MemDB.step, KeySets.step, hr], h'⟩
  | delete bs =>
    obtain ⟨hr, h'⟩ := h.delete hk bs
    exact ⟨_, by simp only [MemDB.step, KeySets.step, hr], h'⟩
  | newSnapshot =>
    obtain ⟨hr, h'⟩ := h.newSnapshot hpre
    exact ⟨_, by simp only [MemDB.step, KeySets.step, hr], h'⟩

end Represents

/-! ## Reading a snapshot -/

section Iterate

variable {keyCmp : Bytes → Bytes → Int}

/-- An iterator of `sn` that does not refresh, started on the nodes `l`, reads the keys that
`sn` sees in `l` when it has a round for each node. -/
theorem keys_skipUnwanted (m : MemDB) (sn : UInt32) (l : List (Node Item)) :
    ∀ count fuel, l.length ≤ fuel →
      (Iterator.skipUnwanted ⟨count, 0, sn, l⟩).keys m fuel = visibleKeys sn l := by
  induction l with
  | nil =>
    intro count fuel _
    cases fuel <;> rfl
  | cons n rest ih =>
    intro count fuel hfuel
    simp only [List.length_cons] at hfuel
    by_cases hu : unwanted sn n.item = true
    · -- `skipUnwanted` steps over `n`, counting it
      have hskip : Iterator.skipUnwanted ⟨count, 0, sn, n :: rest⟩ =
          Iterator.skipUnwanted ⟨count + 1, 0, sn, rest⟩ := by
        simp [Iterator.skipUnwanted, skipUnwantedFrom, hu]
      rw [hskip, ih (count + 1) fuel (by omega)]
      simp [visibleKeys, hu]
    · obtain ⟨f, rfl⟩ : ∃ f, fuel = f + 1 := ⟨fuel - 1, by omega⟩
      have hskip : Iterator.skipUnwanted ⟨count, 0, sn, n :: rest⟩ = ⟨count, 0, sn, n :: rest⟩ := by
        simp [Iterator.skipUnwanted, skipUnwantedFrom, hu]
      -- `Next` goes on to `rest`; with a refresh rate of 0 it never refreshes
      have hnext : Iterator.next ⟨count, 0, sn, n :: rest⟩ m =
          Iterator.skipUnwanted ⟨count + 1, 0, sn, rest⟩ := by
        simp [Iterator.next, Iterator.skipUnwanted]
      rw [hskip, Iterator.keys, hnext, ih (count + 1) f (by omega)]
      simp [visibleKeys, hu]

/-- What a snapshot sees of the nodes whose key is not below `bs`. -/
theorem mem_visibleKeys_filter {sn : UInt32} {nodes : List (Node Item)} {bs k : Bytes} :
    k ∈ visibleKeys sn (nodes.filter fun n => !decide (keyCmp n.item.key bs < 0)) ↔
      k ∈ visibleKeys sn nodes ∧ 0 ≤ keyCmp k bs := by
  simp only [mem_visibleKeys, List.mem_filter, Bool.not_eq_true', decide_eq_false_iff_not, not_lt]
  constructor
  · rintro ⟨n, ⟨hn, hge⟩, hu, rfl⟩
    exact ⟨⟨n, hn, hu, rfl⟩, hge⟩
  · rintro ⟨⟨n, hn, hu, rfl⟩, hge⟩
    exact ⟨n, ⟨hn, hge⟩, hu, rfl⟩

variable (hk : LawfulKeyCmp keyCmp)
include hk

/-- `Seek` compares by key only. On versions sorted by key and birth the nodes from where it
stops are those whose key is not below `bs`. -/
theorem Versions.findPath_iterCmp {c : UInt32} {nodes : List (Node Item)}
    (h : Versions keyCmp c nodes) (bs : Bytes) :
    (findPath (iterCmp keyCmp) ⟨bs, 0, 0⟩ nodes).2 =
      nodes.filter fun n => !decide (keyCmp n.item.key bs < 0) := by
  unfold findPath iterCmp
  apply dropWhile_eq_filter
  refine h.sorted.imp fun {a b} hab hb => ?_
  simp only [decide_eq_true_eq] at hb ⊢
  rcases insCmp_neg_cases hk hab with hlt | ⟨hkey, -⟩
  · exact hk.trans _ _ _ hlt hb
  · rw [hkey]
    exact hb

end Iterate

/-! ## Whole runs -/

/-- **The store replies as the key sets.** From `New`, with a key comparison that is a strict
order, every sequence of `Put2`, `Delete2` and `NewSnapshot` calls of the writer that takes no
snapshot after the one answered `ErrMaxSnapshotsLimitReached` (at most `2^32 - 2` in all)
replies as the key sets do: `Put2` inserts exactly when the key is not in the store, `Delete2`
deletes exactly when it is, and the snapshots are numbered 1, 2, 3, ... -/
theorem memdb_replies_as_keySets (config : Config) (hk : LawfulKeyCmp config.keyCmp)
    (ops : List Op) (hlimit : ops.count .newSnapshot ≤ 2 ^ 32 - 2) :
    (Simulation.run MemDB.step (MemDB.new config) ops).map Prod.fst =
      some (Simulation.runSpec KeySets.step KeySets.empty ops).1 := by
  obtain ⟨m, hrun, -⟩ := Simulation.run_simulates _ (step_simulates hk) ops _ _
    (represents_new config) (admissible_of_count ops _ (by simpa [KeySets.empty] using hlimit))
  rw [hrun]
  rfl

/-- Puts of two keys, a snapshot, a delete and a put again of the second key, a put of a third
key, a second snapshot and a delete of the first key. -/
def sampleOps : List Op :=
  [.put [1] 0, .put [2] 1, .newSnapshot, .delete [2], .put [2] 0, .put [3] 2, .newSnapshot,
    .delete [1]]

theorem memdb_replies_as_keySets_sampleOps :
    (Simulation.run MemDB.step (MemDB.new defaultConfig) sampleOps).map Prod.fst =
      some (Simulation.runSpec KeySets.step KeySets.empty sampleOps).1 :=
  memdb_replies_as_keySets defaultConfig lawfulKeyCmp_defaultKeyCmp sampleOps (by decide)

/-- **Snapshot isolation.** From `New`, with a key comparison that is a strict order, after any
sequence of calls that takes no snapshot after the one answered `ErrMaxSnapshotsLimitReached`,
the snapshot numbered `i + 1` (the `i`-th taken along the way) is still open, and an iterator
of it with a round for each node reads the keys of the store when the snapshot was taken, each
once and in ascending order, whatever calls came after: from `SeekFirst` all of them, from
`Seek(bs)` those not below `bs`. -/
theorem memdb_snapshot_isolation (config : Config) (hk : LawfulKeyCmp config.keyCmp)
    (ops : List Op) (hlimit : ops.count .newSnapshot ≤ 2 ^ 32 - 2) (replies : List Reply)
    (m : MemDB) (hrun : Simulation.run MemDB.step (MemDB.new config) ops = some (replies, m))
    (i : Nat) (A : Finset Bytes)
    (hA : (Simulation.runSpec KeySets.step KeySets.empty ops).2.snaps[i]? = some A)
    (fuel : Nat) (hfuel : m.store.nodes.length ≤ fuel) (bs : Bytes) :
    ∃ it, m.newIterator (UInt32.ofNat (i + 1)) = some it ∧
      ((it.seekFirst m).keys m fuel).Pairwise (fun a b => config.keyCmp a b < 0) ∧
      (∀ k, k ∈ (it.seekFirst m).keys m fuel ↔ k ∈ A) ∧
      ((it.seek m bs).keys m fuel).Pairwise (fun a b => config.keyCmp a b < 0) ∧
      (∀ k, k ∈ (it.seek m bs).keys m fuel ↔ k ∈ A ∧ 0 ≤ config.keyCmp k bs) := by
  obtain ⟨hi, rfl⟩ := List.getElem?_eq_some_iff.1 hA
  obtain ⟨m', hrun', h⟩ := Simulation.run_simulates _ (step_simulates hk) ops _ _
    (represents_new config) (admissible_of_count ops _ (by simpa [KeySets.empty] using hlimit))
  rw [hrun] at hrun'
  obtain ⟨-, rfl⟩ := Prod.mk.inj (Option.some.inj hrun')
  have hsnap : UInt32.ofNat (i + 1) ∈ m.snapshots := by
    rw [h.snapshots]
    exact List.mem_map_of_mem (List.mem_range'_1.2 ⟨by omega, by omega⟩)
  -- `SeekFirst` starts on every node, `Seek` on the nodes from where the search by key stops
  have hfirst : (⟨0, 0, UInt32.ofNat (i + 1), []⟩ : Iterator).seekFirst m =
      Iterator.skipUnwanted ⟨0, 0, UInt32.ofNat (i + 1), m.store.nodes⟩ := rfl
  have hseek : (⟨0, 0, UInt32.ofNat (i + 1), []⟩ : Iterator).seek m bs = Iterator.skipUnwanted
      ⟨0, 0, UInt32.ofNat (i + 1),
        m.store.nodes.filter fun n => !decide (config.keyCmp n.item.key bs < 0)⟩ := by
    rw [← h.versions.findPath_iterCmp hk bs, ← h.config]
    rfl
  have hv' := h.versions.sublist (List.filter_sublist (p := fun n : Node Item =>
    !decide (config.keyCmp n.item.key bs < 0)))
  refine ⟨⟨0, 0, UInt32.ofNat (i + 1), []⟩, by rw [MemDB.newIterator, if_pos hsnap], ?_, fun k => ?_,
    ?_, fun k => ?_⟩
  · rw [hfirst, keys_skipUnwanted m _ _ 0 fuel hfuel]
    exact h.versions.visibleKeys_sorted hk _
  · rw [hfirst, keys_skipUnwanted m _ _ 0 fuel hfuel, h.snaps i hi k]
  · rw [hseek, keys_skipUnwanted m _ _ 0 fuel ((List.filter_sublist).length_le.trans hfuel)]
    exact hv'.visibleKeys_sorted hk _
  · rw [hseek, keys_skipUnwanted m _ _ 0 fuel ((List.filter_sublist).length_le.trans hfuel),
      mem_visibleKeys_filter, h.snaps i hi k]

/-- After `sampleOps` the first snapshot still reads `[1]` and the `[2]` that was deleted and put
again after it, and the second reads the `[1]` deleted after it. -/
example : (Simulation.run MemDB.step (MemDB.new defaultConfig) sampleOps).map
    (fun r => ((Iterator.seekFirst ⟨0, 0, 1, []⟩ r.2).keys r.2 10,
      (Iterator.seekFirst ⟨0, 0, 2, []⟩ r.2).keys r.2 10)) = some ([[1], [2]], [[1], [2], [3]]) := by
  decide

theorem memdb_snapshot_isolation_sampleOps :
    ∃ replies m A, Simulation.run MemDB.step (MemDB.new defaultConfig) sampleOps = some (replies, m) ∧
      (Simulation.runSpec KeySets.step KeySets.empty sampleOps).2.snaps[0]? = some A ∧
      ∃ it, m.newIterator (UInt32.ofNat (0 + 1)) = some it ∧
        ((it.seekFirst m).keys m 10).Pairwise (fun a b => defaultConfig.keyCmp a b < 0) ∧
        (∀ k, k ∈ (it.seekFirst m).keys m 10 ↔ k ∈ A) ∧
        ((it.seek m [2]).keys m 10).Pairwise (fun a b => defaultConfig.keyCmp a b < 0) ∧
        (∀ k, k ∈ (it.seek m [2]).keys m 10 ↔ k ∈ A ∧ 0 ≤ defaultConfig.keyCmp k [2]) :=
  ⟨_, _, _, rfl, rfl, memdb_snapshot_isolation defaultConfig lawfulKeyCmp_defaultKeyCmp sampleOps
    (by decide) _ _ rfl 0 _ rfl 10 (by decide) [2]⟩

end Memdb
