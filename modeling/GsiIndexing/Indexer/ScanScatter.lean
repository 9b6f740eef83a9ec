import GsiIndexing.Indexer.ScanQueue
import GsiIndexing.Indexer.IndexKey
import GsiIndexing.Indexer.IndexEntry
import GsiIndexing.Lib.ExchangeSort

/-!
# The gather of a scatter scan (`indexer/scan_scatter.go`)

`scanMultiple` scans the slices of a partitioned index at once: one producer per partition
(`scanSingleSlice`) enqueues the rows its slice returns, in key order, and then a last row;
for a sorted request one goroutine (`gather`) merges the queues into one stream for the
callback. It keeps `sorted`, a permutation of the partitions ordered by the rows at the heads
of their queues, and `rows`, the rows it has copied out of the queues.

* `scan_sort` orders `sorted` by an exchange sort, peeking every queue.
* `scan_pick` peeks the queue in front again (its head was taken), moves that partition back
  past each partition whose row sorts before its own, and returns the partition in front,
  or `Done` when only last rows are left.

A last row sorts after every other row (`sortsAfter`). Each call of `gather`'s loops is one
step here (`gatherRound`), and so is each `Enqueue` of a producer: the system
(`Scatter.step`) runs them in any order. A full queue blocks its producer and an empty one
`gather`, which then waits and calls again. The error channel, `killch` and the callback's
errors, the notifications and `forward` (the unsorted gather) are left out.

* **`scanSort_spec`**: a call of `scan_sort` that returns `true` leaves `sorted` the library's
  exchange sort of the partitions by their head rows; with every queue holding a row it
  returns `true` (`scanSort_of_allPeek`).
* **`scanPick_spec`**: with every queue holding a row and the partitions after the front in
  order, `scan_pick`'s loop is the library's bubble pass, an ordered insertion.
-/

namespace Indexer

open Go

/-! ## The order of rows -/

/-- `comparePrimaryKey`. -/
def comparePrimaryKey (k1 k2 : Row) : Int := bytesCompare k1.key k2.key

/-- `compareSecKey`: the first `len` bytes of each key. -/
def compareSecKey (k1 k2 : Row) : Int := bytesCompare (k1.key.take k1.len) (k2.key.take k2.len)

/-- `compareKey`. -/
def compareKey (isPrimary : Bool) (k1 k2 : Row) : Int :=
  if isPrimary then comparePrimaryKey k1 k2 else compareSecKey k1 k2

/-- The test of `scan_sort` and `scan_pick`: the row of the first partition sorts after the
row of the second. A last row sorts after every other row, and two other rows by
`compareKey`. -/
def sortsAfter (isPrimary : Bool) (a b : Row) : Bool :=
  a.last && !b.last || (!a.last && !b.last && decide (compareKey isPrimary a b > 0))

/-! ## `scan_sort` and `scan_pick` -/

/-- The two slices `gather` passes to `scan_sort` and `scan_pick`. -/
structure Buffers where
  rows : List Row
  sorted : List Nat

/-- `queues[x].Peek(&rows[x])`: where queue `x` holds a row, it is copied to `rows[x]`. -/
def peekRow (queues : List Queue) (rows : List Row) (x : Nat) : Option (List Row) :=
  (queues.getD x default).peek.map fun r => rows.set x r

/-- The inner loop of `scan_sort` at position `i`, over the later positions `js`: each queue
is peeked, and the partitions at `i` and `j` swap places when the row of the one at `i` sorts
after the other's. `false` where a queue is empty. -/
def sortInner (isPrimary : Bool) (queues : List Queue) (i : Nat) :
    List Nat → Buffers → Bool × Buffers
  | [], b => (true, b)
  | j :: js, b =>
    match peekRow queues b.rows (b.sorted.getD j 0) with
    | none => (false, b)
    | some rows =>
      if sortsAfter isPrimary (rows.getD (b.sorted.getD i 0) default)
          (rows.getD (b.sorted.getD j 0) default) then
        sortInner isPrimary queues i js ⟨rows, b.sorted.swap i j⟩
      else sortInner isPrimary queues i js ⟨rows, b.sorted⟩

/-- The outer loop of `scan_sort`, over the positions `is`. -/
def sortOuter (isPrimary : Bool) (queues : List Queue) : List Nat → Buffers → Bool × Buffers
  | [], b => (true, b)
  | i :: is, b =>
    match peekRow queues b.rows (b.sorted.getD i 0) with
    | none => (false, b)
    | some rows =>
      match sortInner isPrimary queues i (List.range' (i + 1) (queues.length - (i + 1)))
          ⟨rows, b.sorted⟩ with
      | (true, b) => sortOuter isPrimary queues is b
      | (false, b) => (false, b)

/-- `scan_sort`: `sorted` is reset to `0 … size - 1`, then ordered by the rows at the heads
of the queues. -/
def scanSort (isPrimary : Bool) (queues : List Queue) (rows : List Row) : Bool × Buffers :=
  sortOuter isPrimary queues (List.range (queues.length - 1)) ⟨rows, List.range queues.length⟩

/-- The loop of `scan_pick` from position `pos`, over the later positions `is`: each queue is
peeked, and the partition at `pos` moves one place later while its row sorts after the next
one's. `false` where a queue is empty. -/
def pickLoop (isPrimary : Bool) (queues : List Queue) : List Nat → Nat → Buffers → Bool × Buffers
  | [], _, b => (true, b)
  | i :: is, pos, b =>
    match peekRow queues b.rows (b.sorted.getD i 0) with
    | none => (false, b)
    | some rows =>
      if sortsAfter isPrimary (rows.getD (b.sorted.getD pos 0) default)
          (rows.getD (b.sorted.getD i 0) default) then
        pickLoop isPrimary queues is i ⟨rows, b.sorted.swap pos i⟩
      else (true, ⟨rows, b.sorted⟩)

/-- What `scan_pick` returns: `NoPick` (-1), `Done` (-2), or the partition to take a row
from. -/
inductive Pick where
  | noPick
  | done
  | id (x : Nat)
  deriving DecidableEq, Repr

/-- `scan_pick`. -/
def scanPick (isPrimary : Bool) (queues : List Queue) (b : Buffers) : Pick × Buffers :=
  match peekRow queues b.rows (b.sorted.getD 0 0) with
  | none => (.noPick, b)
  | some rows =>
    match pickLoop isPrimary queues (List.range' 1 (queues.length - 1)) 0 ⟨rows, b.sorted⟩ with
    | (false, b) => (.noPick, b)
    | (true, b) =>
      if (List.range queues.length).any fun i => !(b.rows.getD (b.sorted.getD i 0) default).last then
        (.id (b.sorted.getD 0 0), b)
      else (.done, b)

/-! ## `gather` and the producers -/

/-- The variables of `gather`: its buffers, whether the first sort has succeeded, whether it
has returned, and the keys it has passed to the callback. -/
structure Gather where
  buffers : Buffers
  isSorted : Bool
  finished : Bool
  out : List Bytes

/-- `gather` before its loops, for `n` queues: `make([]Row, n)` and `make([]int, n)`. -/
def Gather.init (n : Nat) : Gather :=
  ⟨⟨List.replicate n default, List.replicate n 0⟩, false, false, []⟩

/-- One round of `gather`'s loops: a call of `scan_sort` until one succeeds, then a call of
`scan_pick` and, for a partition it picks, the `Dequeue` of its row and the callback on the
key. A round that finds an empty queue leaves the gather waiting for the next. -/
def gatherRound (isPrimary : Bool) (queues : List Queue) (g : Gather) : List Queue × Gather :=
  if g.finished then (queues, g)
  else if !g.isSorted then
    match scanSort isPrimary queues g.buffers.rows with
    | (ok, b) => (queues, { g with buffers := b, isSorted := ok })
  else
    match scanPick isPrimary queues g.buffers with
    | (.done, b) => (queues, { g with buffers := b, finished := true })
    | (.noPick, b) => (queues, { g with buffers := b })
    | (.id x, b) =>
      match (queues.getD x default).dequeue with
      | none => (queues, { g with buffers := b })
      | some (row, q) =>
        (queues.set x q, { g with buffers := ⟨b.rows.set x row, b.sorted⟩, out := g.out ++ [row.key] })

section Rounds

variable {isPrimary : Bool} {queues : List Queue} {g : Gather} {b : Buffers}

/-! One equation for each way a round of `gather` ends. -/

theorem gatherRound_of_finished (hf : g.finished = true) : gatherRound isPrimary queues g = (queues, g) := by
  simp [gatherRound, hf]

theorem gatherRound_of_sort (hf : g.finished = false) (hs : g.isSorted = false) :
    gatherRound isPrimary queues g = (queues, { g with
      buffers := (scanSort isPrimary queues g.buffers.rows).2,
      isSorted := (scanSort isPrimary queues g.buffers.rows).1 }) := by
  simp [gatherRound, hf, hs]

theorem gatherRound_of_noPick (hf : g.finished = false) (hs : g.isSorted = true)
    (hp : scanPick isPrimary queues g.buffers = (.noPick, b)) :
    gatherRound isPrimary queues g = (queues, { g with buffers := b }) := by
  simp [gatherRound, hf, hs, hp]

theorem gatherRound_of_done (hf : g.finished = false) (hs : g.isSorted = true)
    (hp : scanPick isPrimary queues g.buffers = (.done, b)) :
    gatherRound isPrimary queues g = (queues, { g with buffers := b, finished := true }) := by
  simp [gatherRound, hf, hs, hp]

theorem gatherRound_of_id {x : Nat} {row : Row} {q : Queue} (hf : g.finished = false)
    (hs : g.isSorted = true) (hp : scanPick isPrimary queues g.buffers = (.id x, b))
    (hd : (queues.getD x default).dequeue = some (row, q)) :
    gatherRound isPrimary queues g = (queues.set x q,
      { g with buffers := ⟨b.rows.set x row, b.sorted⟩, out := g.out ++ [row.key] }) := by
  simp only [gatherRound, hf, hs, hp, Bool.false_eq_true, ↓reduceIte, Bool.not_true]
  rw [hd]

end Rounds

/-- The row `scanSingleSlice`'s handler enqueues for an entry: the entry itself, and for a
secondary index the length of its key (`lenKey`; an entry too short for it, where Go
panics, gets `0`). -/
def entryRow (isPrimary : Bool) (entry : Bytes) : Row :=
  { key := entry, len := if isPrimary then 0 else ((lenKey entry).getD 0).toNat, last := false }

/-- The row `scanSingleSlice` enqueues when its slice's scan has returned without error. -/
def lastRow : Row := { key := [], len := 0, last := true }

/-- A scatter scan of `scanMultiple` for a sorted request: the partitions' queues, the rows
each producer has still to enqueue (its last row included), and the gather. -/
structure Scatter where
  queues : List Queue
  pending : List (List Row)
  gather : Gather

/-- Who moves next: the producer of a partition, or the gather. -/
inductive Sched where
  | produce (i : Nat)
  | gather
  deriving DecidableEq, Repr

/-- One step of the scan. A producer enqueues its next row unless its queue is full; the
gather runs one round of its loops. -/
def Scatter.step (isPrimary : Bool) (s : Scatter) : Sched → Scatter
  | .produce i =>
    match s.pending.getD i [] with
    | [] => s
    | r :: rest =>
      match (s.queues.getD i default).enqueue r with
      | none => s
      | some q => { s with queues := s.queues.set i q, pending := s.pending.set i rest }
  | .gather =>
    match gatherRound isPrimary s.queues s.gather with
    | (queues, g) => { s with queues := queues, gather := g }

/-- **What a producer's step does**: nothing when its rows are all enqueued or its queue is
full, and otherwise the `Enqueue` of its next row. -/
theorem Scatter.step_produce_cases (isPrimary : Bool) (s : Scatter) (i : Nat) :
    (s.pending.getD i [] = [] ∧ s.step isPrimary (.produce i) = s) ∨
      (∃ r rest, s.pending.getD i [] = r :: rest ∧ (s.queues.getD i default).enqueue r = none ∧
        s.step isPrimary (.produce i) = s) ∨
      ∃ r rest q, s.pending.getD i [] = r :: rest ∧ (s.queues.getD i default).enqueue r = some q ∧
        s.step isPrimary (.produce i) =
          { s with queues := s.queues.set i q, pending := s.pending.set i rest } := by
  rw [Scatter.step]
  cases hp : s.pending.getD i [] with
  | nil => exact Or.inl ⟨rfl, rfl⟩
  | cons r rest =>
    dsimp only
    cases he : (s.queues.getD i default).enqueue r with
    | none => exact Or.inr (Or.inl ⟨r, rest, rfl, he, rfl⟩)
    | some q => exact Or.inr (Or.inr ⟨r, rest, q, rfl, he, rfl⟩)

theorem Scatter.step_gather (isPrimary : Bool) (s : Scatter) :
    s.step isPrimary .gather =
      { s with queues := (gatherRound isPrimary s.queues s.gather).1,
               gather := (gatherRound isPrimary s.queues s.gather).2 } := rfl

/-- The scan at its start, for the entries each slice's scan returns, in order, and queues of
`size` rows. -/
def Scatter.init (isPrimary : Bool) (size : Nat) (entries : List (List Bytes)) : Scatter where
  queues := entries.map fun _ => newQueue size
  pending := entries.map fun es => es.map (entryRow isPrimary) ++ [lastRow]
  gather := Gather.init entries.length

/-- The scan after the steps of a schedule. -/
def Scatter.run (isPrimary : Bool) (s : Scatter) (sched : List Sched) : Scatter :=
  sched.foldl (Scatter.step isPrimary) s

/-! ## `sortsAfter` orders rows

Not sorting after is a total preorder: the last rows above all others, and the others by the
byte order of their keys, which `compareKey` compares. -/

/-- The bytes `compareKey` compares: a primary index's whole key, a secondary index's first
`len` bytes. -/
def sortKey (isPrimary : Bool) (r : Row) : Bytes := if isPrimary then r.key else r.key.take r.len

section Order

variable {isPrimary : Bool} {a b c : Row}

theorem compareKey_eq (isPrimary : Bool) (a b : Row) :
    compareKey isPrimary a b = bytesCompare (sortKey isPrimary a) (sortKey isPrimary b) := by
  cases isPrimary <;> rfl

theorem bytesCompare_nonpos_iff {x y : Bytes} : bytesCompare x y ≤ 0 ↔ (compare x y).isLE := by
  unfold bytesCompare
  cases compare x y <;> simp

theorem compareKey_swap (a b : Row) : compareKey isPrimary b a = -compareKey isPrimary a b := by
  rw [compareKey_eq, compareKey_eq, bytesCompare_swap]

theorem compareKey_le_trans (hab : compareKey isPrimary a b ≤ 0) (hbc : compareKey isPrimary b c ≤ 0) :
    compareKey isPrimary a c ≤ 0 := by
  rw [compareKey_eq, bytesCompare_nonpos_iff] at *
  exact Std.TransCmp.isLE_trans hab hbc

theorem sortsAfter_of_last (ha : a.last = false) (hb : b.last = false) :
    sortsAfter isPrimary a b = decide (compareKey isPrimary a b > 0) := by
  simp [sortsAfter, ha, hb]

theorem compareKey_self (a : Row) : compareKey isPrimary a a = 0 := by
  rw [compareKey_eq]
  exact bytesCompare_eq_zero_iff.mpr rfl

theorem sortsAfter_of_last_left (ha : a.last = true) (hb : b.last = false) :
    sortsAfter isPrimary a b = true := by
  simp [sortsAfter, ha, hb]

/-- Two rows that are not last rows, the first not sorting after the second, are in key
order. -/
theorem compareKey_nonpos_of_sortsAfter (ha : a.last = false) (hb : b.last = false)
    (h : sortsAfter isPrimary a b = false) : compareKey isPrimary a b ≤ 0 := by
  rw [sortsAfter_of_last ha hb] at h
  simpa using h

theorem sortsAfter_eq_false_of_true (h : sortsAfter isPrimary a b = true) :
    sortsAfter isPrimary b a = false := by
  cases ha : a.last <;> cases hb : b.last <;> simp [sortsAfter, ha, hb] at h ⊢
  rw [compareKey_swap]
  omega

theorem sortsAfter_false_trans (hab : sortsAfter isPrimary a b = false)
    (hbc : sortsAfter isPrimary b c = false) : sortsAfter isPrimary a c = false := by
  cases ha : a.last <;> cases hb : b.last <;> cases hc : c.last <;>
    simp [sortsAfter, ha, hb, hc] at hab hbc ⊢
  -- three rows that are not last: the byte order is transitive
  exact compareKey_le_trans hab hbc

end Order

/-! ## The partitions ordered by their head rows -/

/-- The row a peek of queue `x` gives, the zero row where it holds none. -/
def headRow (queues : List Queue) (x : Nat) : Row := ((queues.getD x default).peek).getD default

/-- Partition `x` may stand before partition `y`: its head row does not sort after `y`'s. -/
def leHead (isPrimary : Bool) (queues : List Queue) (x y : Nat) : Prop :=
  sortsAfter isPrimary (headRow queues x) (headRow queues y) = false

instance leHead_decidable (isPrimary : Bool) (queues : List Queue) :
    DecidableRel (leHead isPrimary queues) :=
  fun x y => inferInstanceAs (Decidable (sortsAfter isPrimary (headRow queues x) (headRow queues y) = false))

instance leHead_total (isPrimary : Bool) (queues : List Queue) :
    Std.Total (leHead isPrimary queues) where
  total x y := by
    unfold leHead
    cases h : sortsAfter isPrimary (headRow queues x) (headRow queues y)
    · exact Or.inl rfl
    · exact Or.inr (sortsAfter_eq_false_of_true h)

instance leHead_trans (isPrimary : Bool) (queues : List Queue) :
    IsTrans Nat (leHead isPrimary queues) where
  trans _ _ _ := sortsAfter_false_trans

/-- `rows[x]` holds the row at the head of queue `x`. -/
def FreshRow (queues : List Queue) (rows : List Row) (x : Nat) : Prop :=
  rows.getD x default = headRow queues x

section Fresh

variable {queues : List Queue} {rows : List Row} {x y : Nat}

theorem peekRow_of_none (h : (queues.getD x default).peek = none) : peekRow queues rows x = none := by
  unfold peekRow
  rw [h]
  rfl

theorem peekRow_of_some {r : Row} (h : (queues.getD x default).peek = some r) :
    peekRow queues rows x = some (rows.set x r) := by
  unfold peekRow
  rw [h]
  rfl

theorem peekRow_of_isSome (h : ((queues.getD x default).peek).isSome) :
    peekRow queues rows x = some (rows.set x (headRow queues x)) := by
  obtain ⟨r, hr⟩ := Option.isSome_iff_exists.mp h
  unfold peekRow headRow
  rw [hr]
  rfl

theorem FreshRow.set_head (h : FreshRow queues rows y) : FreshRow queues (rows.set x (headRow queues x)) y := by
  unfold FreshRow at *
  by_cases hxy : x = y
  · subst hxy
    by_cases hx : x < rows.length
    · exact getD_set_self hx
    · rw [List.set_eq_of_length_le (by omega)]
      exact h
  · rw [getD_set_of_ne hxy]
    exact h

theorem fresh_set_self (hx : x < rows.length) : FreshRow queues (rows.set x (headRow queues x)) x :=
  getD_set_self hx

end Fresh

/-! ## `scan_sort` is the exchange sort

With every queue holding a row, each peek succeeds and writes the head row, so each test of
the loops reads the head rows of the two partitions it compares: the loops are the library's
exchange sort by `leHead`. The inner loop also leaves every partition it visits fresh in
`rows`. -/

section SortSpec

variable {isPrimary : Bool} {queues : List Queue}

/-- The test of the loops on head rows is the library's `exchange` by `leHead`. -/
theorem exchange_leHead (i : Nat) (l : List Nat) (j : Nat) :
    ExchangeSort.exchange (leHead isPrimary queues) i l j =
      if sortsAfter isPrimary (headRow queues (l.getD i 0)) (headRow queues (l.getD j 0)) then
        l.swap i j
      else l := by
  unfold ExchangeSort.exchange leHead
  show (if sortsAfter isPrimary (headRow queues (l.getD i 0)) (headRow queues (l.getD j 0)) = false
    then l else l.swap i j) = _
  cases sortsAfter isPrimary (headRow queues (l.getD i 0)) (headRow queues (l.getD j 0)) <;> rfl

/-- Every queue holds a row. -/
def AllPeek (queues : List Queue) : Prop := ∀ x < queues.length, ((queues.getD x default).peek).isSome

theorem getD_mem_of_lt {l : List Nat} {p : Nat} (hp : p < l.length) : l.getD p 0 ∈ l := by
  rw [List.getD_eq_getElem _ _ hp]
  exact List.getElem_mem hp

/-- A peek of an empty queue ends the inner loop of `scan_sort` with `false`. -/
theorem sortInner_cons_of_none {i j : Nat} {js : List Nat} {b : Buffers}
    (h : (queues.getD (b.sorted.getD j 0) default).peek = none) :
    sortInner isPrimary queues i (j :: js) b = (false, b) := by
  rw [sortInner, peekRow_of_none h]

/-- **The inner loop of `scan_sort`.** A call that returns `true` found every queue it
peeked holding a row; it is the library's inner round at `i`, and it leaves fresh every
partition it peeked. -/
theorem sortInner_spec (i : Nat) :
    ∀ (js : List Nat) (b : Buffers), (sortInner isPrimary queues i js b).1 = true →
      (∀ j ∈ js, i < j ∧ j < b.sorted.length) → js.Pairwise (· < ·) →
      (∀ x ∈ b.sorted, x < queues.length) → i < b.sorted.length →
      b.rows.length = queues.length → FreshRow queues b.rows (b.sorted.getD i 0) →
      ∃ rows', sortInner isPrimary queues i js b =
          (true, ⟨rows', js.foldl (ExchangeSort.exchange (leHead isPrimary queues) i) b.sorted⟩) ∧
        rows'.length = b.rows.length ∧ (∀ x, FreshRow queues b.rows x → FreshRow queues rows' x) ∧
        ∀ j ∈ js, FreshRow queues rows' (b.sorted.getD j 0) ∧
          ((queues.getD (b.sorted.getD j 0) default).peek).isSome := by
  intro js
  induction js with
  | nil =>
    intro b _ _ _ _ _ _ _
    exact ⟨b.rows, rfl, rfl, fun _ h => h, by simp⟩
  | cons j js ih =>
    intro b hres hjs hpair hrange hi hlen hfresh
    obtain ⟨hij, hj⟩ := hjs j List.mem_cons_self
    rw [List.pairwise_cons] at hpair
    have hsj : b.sorted.getD j 0 < queues.length := hrange _ (getD_mem_of_lt hj)
    -- the queue at `j` holds a row, or the loop would have returned `false`
    have hsome : ((queues.getD (b.sorted.getD j 0) default).peek).isSome := by
      cases hq : (queues.getD (b.sorted.getD j 0) default).peek with
      | none => rw [sortInner_cons_of_none hq] at hres; cases hres
      | some r => rfl
    -- the peek of the partition at `j` writes its head row
    set rows₁ := b.rows.set (b.sorted.getD j 0) (headRow queues (b.sorted.getD j 0))
    have hpeek₁ : peekRow queues b.rows (b.sorted.getD j 0) = some rows₁ := peekRow_of_isSome hsome
    have hlen₁ : rows₁.length = queues.length := by simp [rows₁, hlen]
    have hmono₁ : ∀ x, FreshRow queues b.rows x → FreshRow queues rows₁ x := fun _ h => h.set_head
    have hj₁ : FreshRow queues rows₁ (b.sorted.getD j 0) := fresh_set_self (by rw [hlen]; exact hsj)
    have hi₁ : FreshRow queues rows₁ (b.sorted.getD i 0) := hmono₁ _ hfresh
    -- the rest of the loop, from the buffers after this round
    have hrest : ∀ sorted : List Nat, sorted.Perm b.sorted →
        (∀ j' ∈ js, sorted.getD j' 0 = b.sorted.getD j' 0) → FreshRow queues rows₁ (sorted.getD i 0) →
        (sortInner isPrimary queues i js ⟨rows₁, sorted⟩).1 = true →
        ∃ rows', sortInner isPrimary queues i js ⟨rows₁, sorted⟩ =
            (true, ⟨rows', js.foldl (ExchangeSort.exchange (leHead isPrimary queues) i) sorted⟩) ∧
          rows'.length = b.rows.length ∧ (∀ x, FreshRow queues b.rows x → FreshRow queues rows' x) ∧
          ∀ j' ∈ j :: js, FreshRow queues rows' (b.sorted.getD j' 0) ∧
            ((queues.getD (b.sorted.getD j' 0) default).peek).isSome := by
      intro sorted hperm hsame hfi hres'
      have hslen : sorted.length = b.sorted.length := hperm.length_eq
      obtain ⟨rows', heq, hlen', hmono, hvisit⟩ := ih ⟨rows₁, sorted⟩ hres'
        (fun j' hj' => ⟨(hjs j' (List.mem_cons_of_mem j hj')).1, by
          rw [hslen]; exact (hjs j' (List.mem_cons_of_mem j hj')).2⟩)
        hpair.2 (fun x hx => hrange x (hperm.subset hx)) (by rw [hslen]; exact hi) hlen₁ hfi
      refine ⟨rows', heq, by rw [hlen', hlen₁, hlen], fun x h => hmono x (hmono₁ x h), ?_⟩
      intro j' hj'
      rcases List.mem_cons.mp hj' with rfl | hj'
      · exact ⟨hmono _ hj₁, hsome⟩
      · rw [← hsame j' hj']
        exact hvisit j' hj'
    rw [sortInner, hpeek₁] at hres ⊢
    rw [List.foldl_cons, exchange_leHead]
    dsimp only at hres ⊢
    rw [hi₁, hj₁] at hres ⊢
    by_cases hc : sortsAfter isPrimary (headRow queues (b.sorted.getD i 0))
      (headRow queues (b.sorted.getD j 0)) = true
    · simp only [hc, ↓reduceIte] at hres ⊢
      apply hrest _ (List.swap_perm _ _ _) _ _ hres
      · intro j' hj'
        have hjj' : j < j' := List.rel_of_pairwise_cons (List.Pairwise.cons hpair.1 hpair.2) hj'
        rw [ExchangeSort.getD_swap hi hj, if_neg (by omega), if_neg (by omega)]
      · rw [ExchangeSort.getD_swap hi hj, if_pos rfl]
        exact hj₁
    · simp only [Bool.not_eq_true] at hc
      simp only [hc, Bool.false_eq_true, ↓reduceIte] at hres ⊢
      exact hrest _ (List.Perm.refl _) (fun _ _ => rfl) hi₁ hres

/-- The positions of the inner round at `i`, as the library reads them from the length. -/
theorem inner_positions {i : Nat} (hi : i < queues.length) :
    ∀ j ∈ List.range' (i + 1) (queues.length - (i + 1)), i < j ∧ j < queues.length := by
  intro j hj
  rw [List.mem_range'_1] at hj
  omega

/-- The inner round as the library reads it, from the length of `sorted`. -/
theorem foldl_exchange_eq_exchangeRound {l : List Nat} (hl : l.length = queues.length) (i : Nat) :
    (List.range' (i + 1) (queues.length - (i + 1))).foldl
      (ExchangeSort.exchange (leHead isPrimary queues) i) l =
      ExchangeSort.exchangeRound (leHead isPrimary queues) l i := by
  rw [ExchangeSort.exchangeRound, hl]

/-- **The outer loop of `scan_sort`.** A call that returns `true` is the library's rounds, and
keeps the rows fresh. -/
theorem sortOuter_spec :
    ∀ (is : List Nat) (b : Buffers), (sortOuter isPrimary queues is b).1 = true →
      (∀ i ∈ is, i < queues.length) → b.sorted.length = queues.length →
      (∀ x ∈ b.sorted, x < queues.length) → b.rows.length = queues.length →
      ∃ rows', sortOuter isPrimary queues is b =
          (true, ⟨rows', is.foldl (ExchangeSort.exchangeRound (leHead isPrimary queues)) b.sorted⟩) ∧
        rows'.length = b.rows.length ∧ (∀ x, FreshRow queues b.rows x → FreshRow queues rows' x) := by
  intro is
  induction is with
  | nil =>
    intro b _ _ _ _ _
    exact ⟨b.rows, rfl, rfl, fun _ h => h⟩
  | cons i is ih =>
    intro b hres his hslen hrange hlen
    have hi : i < queues.length := his i List.mem_cons_self
    have hsi : b.sorted.getD i 0 < queues.length := hrange _ (getD_mem_of_lt (by omega))
    have hsome : ((queues.getD (b.sorted.getD i 0) default).peek).isSome := by
      cases hq : (queues.getD (b.sorted.getD i 0) default).peek with
      | none => rw [sortOuter, peekRow_of_none hq] at hres; cases hres
      | some r => rfl
    set rows₁ := b.rows.set (b.sorted.getD i 0) (headRow queues (b.sorted.getD i 0))
    have hpeek₁ : peekRow queues b.rows (b.sorted.getD i 0) = some rows₁ := peekRow_of_isSome hsome
    have hlen₁ : rows₁.length = queues.length := by simp [rows₁, hlen]
    rw [sortOuter, hpeek₁] at hres ⊢
    dsimp only at hres ⊢
    -- the inner round returned `true`, or the outer loop would have
    have hinner : (sortInner isPrimary queues i (List.range' (i + 1) (queues.length - (i + 1)))
        ⟨rows₁, b.sorted⟩).1 = true := by
      revert hres
      cases sortInner isPrimary queues i (List.range' (i + 1) (queues.length - (i + 1)))
        ⟨rows₁, b.sorted⟩ with
      | mk ok b' => cases ok <;> simp
    obtain ⟨rows₂, heq₂, hlen₂, hmono₂, -⟩ := sortInner_spec i _
      ⟨rows₁, b.sorted⟩ hinner (by rw [hslen]; exact inner_positions hi) (List.pairwise_lt_range' ..)
      hrange (show i < b.sorted.length by omega) hlen₁ (fresh_set_self (by rw [hlen]; exact hsi))
    rw [foldl_exchange_eq_exchangeRound hslen] at heq₂
    rw [heq₂] at hres ⊢
    dsimp only at hres ⊢
    have hperm := ExchangeSort.exchangeRound_perm (r := leHead isPrimary queues) b.sorted i
    obtain ⟨rows', heq, hlen', hmono⟩ := ih
      ⟨rows₂, ExchangeSort.exchangeRound (leHead isPrimary queues) b.sorted i⟩ hres
      (fun i' h => his i' (List.mem_cons_of_mem i h))
      (by rw [hperm.length_eq, hslen]) (fun x hx => hrange x (hperm.subset hx)) (by rw [hlen₂, hlen₁])
    exact ⟨rows', heq, by rw [hlen', hlen₂, hlen₁, hlen], fun x h => hmono x (hmono₂ x h.set_head)⟩

/-- **`scan_sort` is the exchange sort.** A call of `scan_sort` that returns `true` orders the
partitions by the library's exchange sort by their head rows; with two partitions or more it
found every queue holding a row and leaves every row fresh. -/
theorem scanSort_spec (rows : List Row) (hrows : rows.length = queues.length)
    (hres : (scanSort isPrimary queues rows).1 = true) :
    ∃ rows', scanSort isPrimary queues rows =
        (true, ⟨rows', ExchangeSort.exchangeSort (leHead isPrimary queues) (List.range queues.length)⟩) ∧
      rows'.length = queues.length ∧
      (2 ≤ queues.length → AllPeek queues ∧ ∀ x < queues.length, FreshRow queues rows' x) := by
  by_cases hn : queues.length < 2
  · -- no outer round: nothing is peeked
    have hnil : List.range (queues.length - 1) = [] := by
      rw [List.range_eq_nil]
      omega
    refine ⟨rows, ?_, hrows, fun h => absurd h (by omega)⟩
    rw [scanSort, ExchangeSort.exchangeSort, List.length_range, hnil]
    rfl
  · -- the first round peeks every queue: the rest of the loop only keeps the rows fresh
    obtain ⟨m, hm⟩ : ∃ m, queues.length - 1 = m + 1 := ⟨queues.length - 2, by omega⟩
    have hrange : ∀ x ∈ List.range queues.length, x < queues.length := fun x hx => List.mem_range.mp hx
    have h0 : (0 : Nat) < queues.length := by omega
    have hget0 : (List.range queues.length).getD 0 0 = 0 := by
      rw [List.getD_eq_getElem _ _ (by simpa using h0), List.getElem_range]
    rw [scanSort, hm, List.range_succ_eq_map, sortOuter, hget0] at hres ⊢
    have hsome : ((queues.getD 0 default).peek).isSome := by
      cases hq : (queues.getD 0 default).peek with
      | none => rw [peekRow_of_none hq] at hres; cases hres
      | some r => rfl
    set rows₁ := rows.set 0 (headRow queues 0)
    have hpeek₁ : peekRow queues rows 0 = some rows₁ := peekRow_of_isSome hsome
    have hlen₁ : rows₁.length = queues.length := by simp [rows₁, hrows]
    have hzero : FreshRow queues rows₁ 0 := fresh_set_self (by rw [hrows]; exact h0)
    rw [hpeek₁] at hres ⊢
    dsimp only at hres ⊢
    have hinner : (sortInner isPrimary queues 0 (List.range' (0 + 1) (queues.length - (0 + 1)))
        ⟨rows₁, List.range queues.length⟩).1 = true := by
      revert hres
      cases sortInner isPrimary queues 0 (List.range' (0 + 1) (queues.length - (0 + 1)))
        ⟨rows₁, List.range queues.length⟩ with
      | mk ok b' => cases ok <;> simp
    obtain ⟨rows₂, heq₂, hlen₂, hmono₂, hvisit⟩ := sortInner_spec 0 _
      ⟨rows₁, List.range queues.length⟩ hinner (by rw [List.length_range]; exact inner_positions h0)
      (List.pairwise_lt_range' ..) hrange (by simpa using h0) hlen₁ (by rw [hget0]; exact hzero)
    rw [foldl_exchange_eq_exchangeRound (List.length_range ..)] at heq₂
    rw [heq₂] at hres ⊢
    dsimp only at hres ⊢
    have hperm := ExchangeSort.exchangeRound_perm (r := leHead isPrimary queues) (List.range queues.length) 0
    obtain ⟨rows', heq, hlen', hmono⟩ := sortOuter_spec
      ((List.range m).map Nat.succ)
      ⟨rows₂, ExchangeSort.exchangeRound (leHead isPrimary queues) (List.range queues.length) 0⟩ hres
      (fun i hi => by simp at hi; omega)
      (by rw [hperm.length_eq, List.length_range]) (fun x hx => hrange x (hperm.subset hx))
      (by rw [hlen₂, hlen₁])
    -- partition `x` was peeked in the first round, at position `x`
    have hvisit' : ∀ x, 0 < x → x < queues.length → FreshRow queues rows₂ x ∧
        ((queues.getD x default).peek).isSome := by
      intro x hx0 hx
      have := hvisit x (by rw [List.mem_range'_1]; omega)
      rwa [List.getD_eq_getElem _ _ (by simpa using hx), List.getElem_range] at this
    refine ⟨rows', ?_, by rw [hlen', hlen₂, hlen₁], fun _ => ⟨fun x hx => ?_, fun x hx => ?_⟩⟩
    · rw [heq, ExchangeSort.exchangeSort, List.length_range, hm, List.range_succ_eq_map,
        List.foldl_cons]
    · rcases Nat.eq_zero_or_pos x with rfl | hx0
      · exact hsome
      · exact (hvisit' x hx0 hx).2
    · apply hmono
      rcases Nat.eq_zero_or_pos x with rfl | hx0
      · exact hmono₂ 0 hzero
      · exact (hvisit' x hx0 hx).1

/-! ## The loops keep the length of `rows` -/

theorem sortInner_length (i : Nat) :
    ∀ (js : List Nat) (b : Buffers),
      (sortInner isPrimary queues i js b).2.rows.length = b.rows.length := by
  intro js
  induction js with
  | nil => intro b; rfl
  | cons j js ih =>
    intro b
    cases hq : (queues.getD (b.sorted.getD j 0) default).peek with
    | none => rw [sortInner_cons_of_none hq]
    | some r =>
      rw [sortInner, peekRow_of_some hq]
      dsimp only
      split <;> rw [ih] <;> simp

theorem sortOuter_length :
    ∀ (is : List Nat) (b : Buffers), (sortOuter isPrimary queues is b).2.rows.length = b.rows.length := by
  intro is
  induction is with
  | nil => intro b; rfl
  | cons i is ih =>
    intro b
    cases hq : (queues.getD (b.sorted.getD i 0) default).peek with
    | none => rw [sortOuter, peekRow_of_none hq]
    | some r =>
      have hinner : (sortInner isPrimary queues i (List.range' (i + 1) (queues.length - (i + 1)))
          ⟨b.rows.set (b.sorted.getD i 0) r, b.sorted⟩).2.rows.length = _ :=
        sortInner_length i _ _
      rw [sortOuter, peekRow_of_some hq]
      dsimp only
      revert hinner
      cases sortInner isPrimary queues i (List.range' (i + 1) (queues.length - (i + 1)))
        ⟨b.rows.set (b.sorted.getD i 0) r, b.sorted⟩ with
      | mk ok b' =>
        intro hinner
        cases ok
        · simpa using hinner
        · rw [ih]
          simpa using hinner

/-- A call of `scan_sort`, whether it succeeds or not, keeps the length of `rows`. -/
theorem scanSort_length (rows : List Row) :
    (scanSort isPrimary queues rows).2.rows.length = rows.length :=
  sortOuter_length _ _

theorem getD_lt_of_forall {l : List Nat} {n : Nat} (hn : 0 < n) (h : ∀ x ∈ l, x < n) (j : Nat) :
    l.getD j 0 < n := by
  by_cases hj : j < l.length
  · exact h _ (getD_mem_of_lt hj)
  · rw [List.getD_eq_default _ _ (by omega)]
    exact hn

/-- With every queue holding a row, the inner loop of `scan_sort` finds none empty. -/
theorem sortInner_of_allPeek (isPrimary : Bool) (hpeek : AllPeek queues) (hn : 0 < queues.length) (i : Nat) :
    ∀ (js : List Nat) (b : Buffers), (∀ x ∈ b.sorted, x < queues.length) →
      ∃ b', sortInner isPrimary queues i js b = (true, b') ∧ ∀ x ∈ b'.sorted, x < queues.length := by
  intro js
  induction js with
  | nil => intro b hb; exact ⟨b, rfl, hb⟩
  | cons j js ih =>
    intro b hb
    rw [sortInner, peekRow_of_isSome (hpeek _ (getD_lt_of_forall hn hb j))]
    dsimp only
    split
    · exact ih _ fun x hx => hb x ((List.swap_perm _ i j).subset hx)
    · exact ih _ hb

theorem sortOuter_of_allPeek (hpeek : AllPeek queues) (hn : 0 < queues.length) :
    ∀ (is : List Nat) (b : Buffers), (∀ x ∈ b.sorted, x < queues.length) →
      (sortOuter isPrimary queues is b).1 = true := by
  intro is
  induction is with
  | nil => intro b _; rfl
  | cons i is ih =>
    intro b hb
    rw [sortOuter, peekRow_of_isSome (hpeek _ (getD_lt_of_forall hn hb i))]
    dsimp only
    obtain ⟨b', heq, hb'⟩ := sortInner_of_allPeek isPrimary hpeek hn i
      (List.range' (i + 1) (queues.length - (i + 1)))
      ⟨b.rows.set (b.sorted.getD i 0) (headRow queues (b.sorted.getD i 0)), b.sorted⟩ hb
    rw [heq]
    exact ih b' hb'

/-- **With every queue holding a row, `scan_sort` succeeds.** -/
theorem scanSort_of_allPeek (hpeek : AllPeek queues) (rows : List Row) :
    (scanSort isPrimary queues rows).1 = true := by
  rcases Nat.eq_zero_or_pos queues.length with h0 | hn
  · -- no partition: the outer loop has no position
    unfold scanSort
    rw [h0]
    rfl
  · exact sortOuter_of_allPeek hpeek hn _ _ fun x hx => List.mem_range.mp hx

/-! ## `scan_pick` is the bubble pass

With every queue holding a row, the loop of `scan_pick` peeks each partition it passes, so its
test reads head rows: it is the library's bubble pass by `leHead`. The partition it moves
stays fresh, as it was before the pass. -/

/-- The test of `scan_pick`'s loop on head rows is the library's bubble step by `leHead`. -/
theorem bubbleFrom_leHead_cons (l : List Nat) (pos i : Nat) (is : List Nat) :
    ExchangeSort.bubbleFrom (leHead isPrimary queues) l pos (i :: is) =
      if sortsAfter isPrimary (headRow queues (l.getD pos 0)) (headRow queues (l.getD i 0)) then
        ExchangeSort.bubbleFrom (leHead isPrimary queues) (l.swap pos i) i is
      else l := by
  rw [ExchangeSort.bubbleFrom]
  unfold leHead
  show (if sortsAfter isPrimary (headRow queues (l.getD pos 0)) (headRow queues (l.getD i 0)) = false
    then l else _) = _
  cases sortsAfter isPrimary (headRow queues (l.getD pos 0)) (headRow queues (l.getD i 0)) <;> rfl

theorem pickLoop_spec (isPrimary : Bool) (hpeek : AllPeek queues) :
    ∀ (is : List Nat) (pos : Nat) (b : Buffers),
      (∀ i ∈ is, i < b.sorted.length) → pos < b.sorted.length →
      (∀ x ∈ b.sorted, x < queues.length) → b.rows.length = queues.length →
      FreshRow queues b.rows (b.sorted.getD pos 0) →
      ∃ rows', pickLoop isPrimary queues is pos b =
          (true, ⟨rows', ExchangeSort.bubbleFrom (leHead isPrimary queues) b.sorted pos is⟩) ∧
        rows'.length = b.rows.length ∧ (∀ x, FreshRow queues b.rows x → FreshRow queues rows' x) := by
  intro is
  induction is with
  | nil =>
    intro pos b _ _ _ _ _
    exact ⟨b.rows, rfl, rfl, fun _ h => h⟩
  | cons i is ih =>
    intro pos b his hpos hrange hlen hfresh
    have hi : i < b.sorted.length := his i List.mem_cons_self
    have hsi : b.sorted.getD i 0 < queues.length := hrange _ (getD_mem_of_lt hi)
    set rows₁ := b.rows.set (b.sorted.getD i 0) (headRow queues (b.sorted.getD i 0))
    have hpeek₁ : peekRow queues b.rows (b.sorted.getD i 0) = some rows₁ :=
      peekRow_of_isSome (hpeek _ hsi)
    have hlen₁ : rows₁.length = queues.length := by simp [rows₁, hlen]
    have hi₁ : FreshRow queues rows₁ (b.sorted.getD i 0) := fresh_set_self (by rw [hlen]; exact hsi)
    have hpos₁ : FreshRow queues rows₁ (b.sorted.getD pos 0) := hfresh.set_head
    rw [pickLoop, hpeek₁, bubbleFrom_leHead_cons]
    dsimp only
    rw [← hpos₁, ← hi₁]
    split
    case isTrue =>
      -- the partition at `pos` moves to `i`, and stays fresh there
      have hmoved : FreshRow queues rows₁ ((b.sorted.swap pos i).getD i 0) := by
        rw [ExchangeSort.getD_swap hpos hi]
        by_cases h : i = pos
        · rw [if_pos h]
          exact hi₁
        · rw [if_neg h, if_pos rfl]
          exact hpos₁
      obtain ⟨rows', heq, hlen', hmono⟩ := ih i ⟨rows₁, b.sorted.swap pos i⟩
        (fun i' h => by rw [List.length_swap]; exact his i' (List.mem_cons_of_mem i h))
        (by rw [List.length_swap]; exact hi)
        (fun x hx => hrange x ((List.swap_perm _ _ _).subset hx)) hlen₁ hmoved
      exact ⟨rows', heq, by rw [hlen', hlen₁, hlen], fun x h => hmono x h.set_head⟩
    case isFalse =>
      exact ⟨rows₁, rfl, by rw [hlen₁, hlen], fun _ h => h.set_head⟩

/-- The final loop of `scan_pick` reads the partitions through `sorted`, a permutation. -/
theorem any_getD_of_perm {n : Nat} {l : List Nat} (h : l.Perm (List.range n)) (g : Nat → Bool) :
    (List.range n).any (fun i => g (l.getD i 0)) = (List.range n).any g := by
  have hlen : l.length = n := by simpa using h.length_eq
  rw [Bool.eq_iff_iff, List.any_eq_true, List.any_eq_true]
  constructor
  · rintro ⟨i, hi, hg⟩
    rw [List.mem_range] at hi
    exact ⟨l.getD i 0, h.subset (getD_mem_of_lt (by omega)), hg⟩
  · rintro ⟨x, hx, hg⟩
    obtain ⟨i, hi, rfl⟩ := List.getElem_of_mem (h.symm.subset hx)
    refine ⟨i, List.mem_range.mpr (by omega), ?_⟩
    rwa [List.getD_eq_getElem _ _ hi]

/-- **`scan_pick` is the bubble pass.** With every queue holding a row and the partitions
after the front fresh, `scan_pick` moves the front partition back by the library's bubble
pass, leaves every row fresh, and returns the partition then in front, or `Done` when every
head row is a last row. -/
theorem scanPick_spec (isPrimary : Bool) (hpeek : AllPeek queues) (b : Buffers)
    (hperm : b.sorted.Perm (List.range queues.length)) (hn : 0 < queues.length)
    (hlen : b.rows.length = queues.length) (hfresh : ∀ x ∈ b.sorted.tail, FreshRow queues b.rows x) :
    ∃ rows', scanPick isPrimary queues b =
        (if (List.range queues.length).any fun x => !(headRow queues x).last then
          .id ((ExchangeSort.bubble (leHead isPrimary queues) b.sorted).getD 0 0) else .done,
         ⟨rows', ExchangeSort.bubble (leHead isPrimary queues) b.sorted⟩) ∧
      rows'.length = queues.length ∧ ∀ x < queues.length, FreshRow queues rows' x := by
  have hslen : b.sorted.length = queues.length := by simpa using hperm.length_eq
  have hrange : ∀ x ∈ b.sorted, x < queues.length := fun x hx => List.mem_range.mp (hperm.subset hx)
  have hs0 : b.sorted.getD 0 0 < queues.length := hrange _ (getD_mem_of_lt (by omega))
  set rows₁ := b.rows.set (b.sorted.getD 0 0) (headRow queues (b.sorted.getD 0 0))
  have hpeek₁ : peekRow queues b.rows (b.sorted.getD 0 0) = some rows₁ :=
    peekRow_of_isSome (hpeek _ hs0)
  have hlen₁ : rows₁.length = queues.length := by simp [rows₁, hlen]
  have hfront : FreshRow queues rows₁ (b.sorted.getD 0 0) := fresh_set_self (by rw [hlen]; exact hs0)
  obtain ⟨rows', heq, hlen', hmono⟩ := pickLoop_spec isPrimary hpeek
    (List.range' 1 (queues.length - 1)) 0 ⟨rows₁, b.sorted⟩
    (fun i hi => by rw [List.mem_range'_1] at hi; show i < b.sorted.length; omega)
    (show 0 < b.sorted.length by omega) hrange hlen₁ hfront
  have hbubble : ExchangeSort.bubble (leHead isPrimary queues) b.sorted =
      ExchangeSort.bubbleFrom (leHead isPrimary queues) b.sorted 0 (List.range' 1 (queues.length - 1)) := by
    rw [ExchangeSort.bubble, hslen]
  -- every partition is fresh: the one in front was peeked, the others were fresh before
  have hall : ∀ x < queues.length, FreshRow queues rows' x := by
    intro x hx
    apply hmono
    obtain ⟨s, t, hst⟩ : ∃ s t, b.sorted = s :: t := by
      cases hs : b.sorted with
      | nil => rw [hs] at hslen; simp at hslen; omega
      | cons s t => exact ⟨s, t, rfl⟩
    have hmem : x ∈ b.sorted := hperm.symm.subset (List.mem_range.mpr hx)
    rw [hst] at hmem hfront hfresh
    rcases List.mem_cons.mp hmem with rfl | hxt
    · exact hfront
    · exact (hfresh x hxt).set_head
  refine ⟨rows', ?_, by rw [hlen', hlen₁], hall⟩
  have hperm' : (ExchangeSort.bubble (leHead isPrimary queues) b.sorted).Perm (List.range queues.length) :=
    (ExchangeSort.bubble_perm b.sorted).trans hperm
  -- the final loop reads head rows through the new `sorted`
  have hany : ((List.range queues.length).any fun i =>
      !(rows'.getD ((ExchangeSort.bubble (leHead isPrimary queues) b.sorted).getD i 0) default).last) =
      (List.range queues.length).any fun x => !(headRow queues x).last := by
    rw [any_getD_of_perm hperm' (fun x => !(rows'.getD x default).last), Bool.eq_iff_iff,
      List.any_eq_true, List.any_eq_true]
    refine exists_congr fun x => and_congr_right fun hx => ?_
    rw [hall x (List.mem_range.mp hx)]
  rw [scanPick, hpeek₁]
  dsimp only
  rw [heq, ← hbubble]
  dsimp only
  rw [hany]
  split <;> rfl

end SortSpec

end Indexer
