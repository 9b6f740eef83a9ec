import GsiIndexing.Go.Strconv
import GsiIndexing.Lib.Simulation
import Mathlib.Data.List.GetD

/-!
# The queues of a scatter scan (`indexer/queue.go`)

A scan of a partitioned index runs one producer per partition (`scanSingleSlice`), each
putting the rows its partition returns into a `Queue` of its own, and one goroutine (`gather`)
that takes them out in key order. A `Queue` is a ring buffer of `size` rows: `count` rows are
held from `head` on, wrapping at the end of the buffer, and `free` is where the next one is
written. A `Row` is copied in and out by value (`Row.copy`).

`Enqueue` on a full buffer and `Dequeue` on an empty one block: here they are `none`, and the
caller does not move. The notification channels and their `limit`, the counters of enqueues
and dequeues, `Close` and the allocator of key buffers are left out.

* **`Queue.Ok`**: the layout of the buffer, `free` being `count` slots after `head`.
* **`Queue.contents`**: the rows held, oldest first, read around the ring.
* **`Queue.Ok.enqueue`, `Queue.Ok.dequeue`, `Queue.Ok.peek_eq`**: the ring buffer is a FIFO
  list of its contents: `Enqueue` appends, `Dequeue` takes the first, `Peek` reads it.
* **`ring_refines_fifo`**: over every sequence of calls from `NewQueue`, the queue replies as
  a FIFO list of at most `size` rows.
-/

namespace Indexer

open Go

/-- `Row`: a key a partition returned, with the length of its secondary key, or (`last`) the
row that ends a partition. -/
structure Row where
  key : Bytes
  len : Nat
  last : Bool
  deriving DecidableEq, Repr, Inhabited

/-- `Queue`. -/
structure Queue where
  size : Nat
  count : Nat
  buf : List Row
  head : Nat
  free : Nat
  deriving Inhabited

/-- `NewQueue`: an empty buffer of `size` zero rows. -/
def newQueue (size : Nat) : Queue := ⟨size, 0, List.replicate size default, 0, 0⟩

/-- `Queue.Enqueue`: the row is copied to `free`, which moves on by one around the ring;
`none` where the buffer is full and `Enqueue` blocks. -/
def Queue.enqueue (q : Queue) (key : Row) : Option Queue :=
  if q.count < q.size then
    let next := if q.free + 1 ≥ q.size then 0 else q.free + 1
    some { q with buf := q.buf.set q.free key, free := next, count := q.count + 1 }
  else none

/-- `Queue.Dequeue`: the row at `head` is copied out and its key buffer freed, and `head`
moves on by one around the ring; `none` where the buffer is empty and `Dequeue` blocks. -/
def Queue.dequeue (q : Queue) : Option (Row × Queue) :=
  if 0 < q.count then
    let next := if q.head + 1 ≥ q.size then 0 else q.head + 1
    let row := q.buf.getD q.head default
    let freed : Row := { row with key := [] }
    some (row, { q with buf := q.buf.set q.head freed, head := next, count := q.count - 1 })
  else none

/-- `Queue.Peek`: a copy of the row at `head`, if the buffer holds one. -/
def Queue.peek (q : Queue) : Option Row :=
  if 0 < q.count then some (q.buf.getD q.head default) else none

/-- `Queue.Len`. -/
def Queue.len (q : Queue) : Nat := q.count

/-- `Queue.Cap`. -/
def Queue.cap (q : Queue) : Nat := q.size

/-! ## The ring read as a list -/

/-- The slot `i` places after `head`, wrapping at the end of the buffer. -/
def Queue.slot (q : Queue) (i : Nat) : Nat :=
  if q.head + i < q.size then q.head + i else q.head + i - q.size

/-- The rows the buffer holds, oldest first. -/
def Queue.contents (q : Queue) : List Row :=
  (List.range q.count).map fun i => q.buf.getD (q.slot i) default

/-- The layout of a buffer: `size` slots, `head` among them, and `free` the slot `count`
places after `head`. -/
structure Queue.Ok (q : Queue) : Prop where
  size_pos : 0 < q.size
  length_buf : q.buf.length = q.size
  head_lt : q.head < q.size
  count_le : q.count ≤ q.size
  free_eq : q.free = q.slot q.count

section Slots

variable {α : Type} {l : List α} {i j : Nat} {a d : α}

theorem getD_set_of_ne (h : i ≠ j) : (l.set i a).getD j d = l.getD j d := by
  rw [List.getD_eq_getElem?_getD, List.getElem?_set, if_neg h, ← List.getD_eq_getElem?_getD]

theorem getD_set_self (h : i < l.length) : (l.set i a).getD i d = a := by
  rw [List.getD_eq_getElem?_getD, List.getElem?_set, if_pos rfl, if_pos h, Option.getD_some]

end Slots

namespace Queue

variable {q q' : Queue} {r : Row}

@[simp] theorem length_contents (q : Queue) : q.contents.length = q.count := by
  simp [contents]

theorem newQueue_ok {size : Nat} (h : 0 < size) : (newQueue size).Ok where
  size_pos := h
  length_buf := List.length_replicate
  head_lt := h
  count_le := Nat.zero_le _
  free_eq := by simp [newQueue, slot, h]

@[simp] theorem contents_newQueue (size : Nat) : (newQueue size).contents = [] := rfl

theorem Ok.slot_lt (hq : q.Ok) (hi : i < q.size) : q.slot i < q.size := by
  have := hq.head_lt
  unfold slot
  split <;> omega

/-- Two of the `size` slots after `head` are apart. -/
theorem Ok.slot_ne (hq : q.Ok) (hi : i < q.size) (hj : j < q.size) (hij : i ≠ j) :
    q.slot i ≠ q.slot j := by
  have := hq.head_lt
  unfold slot
  split <;> split <;> omega

theorem contents_of_count_pos (hq : q.Ok) (h : 0 < q.count) :
    q.contents = q.buf.getD q.head default ::
      (List.range (q.count - 1)).map fun i => q.buf.getD (q.slot (i + 1)) default := by
  obtain ⟨c, hc⟩ : ∃ c, q.count = c + 1 := ⟨q.count - 1, by omega⟩
  have hslot : q.slot 0 = q.head := by simp [slot, hq.head_lt]
  rw [contents, hc, List.range_succ_eq_map, List.map_cons, List.map_map, hslot]
  rfl

/-- **`Peek` reads the oldest row.** -/
theorem Ok.peek_eq (hq : q.Ok) : q.peek = q.contents.head? := by
  unfold peek
  split
  case isTrue h => rw [contents_of_count_pos hq h, List.head?_cons]
  case isFalse h =>
    have : q.count = 0 := by omega
    simp [contents, this]

theorem enqueue_eq_none_iff : q.enqueue r = none ↔ q.size ≤ q.count := by
  unfold enqueue
  split <;> simp <;> omega

theorem dequeue_eq_none_iff : q.dequeue = none ↔ q.count = 0 := by
  unfold dequeue
  split <;> simp <;> omega

theorem peek_eq_none_iff : q.peek = none ↔ q.count = 0 := by
  unfold peek
  split <;> simp <;> omega

/-- A buffer that holds a row gives it up. -/
theorem isSome_dequeue (h : q.peek.isSome) : q.dequeue.isSome := by
  unfold peek at h
  unfold dequeue
  split
  · rfl
  · rw [if_neg (by assumption)] at h
    cases h

/-- **`Enqueue` appends.** A buffer that takes a row keeps its layout, and holds the row after
the ones it held. -/
theorem Ok.enqueue (hq : q.Ok) (h : q.enqueue r = some q') :
    q'.Ok ∧ q'.contents = q.contents ++ [r] ∧ q'.size = q.size := by
  unfold Queue.enqueue at h
  split at h
  case isFalse => cases h
  case isTrue hroom =>
    cases h
    have hfree : q.free < q.buf.length := by
      rw [hq.free_eq, hq.length_buf]
      exact hq.slot_lt hroom
    refine ⟨⟨hq.size_pos, by simp [hq.length_buf], hq.head_lt, ?_, ?_⟩, ?_, rfl⟩
    · show q.count + 1 ≤ q.size
      omega
    · -- the next free slot, wrapping at the end
      have hh := hq.head_lt
      show (if q.free + 1 ≥ q.size then 0 else q.free + 1) = _
      rw [hq.free_eq]
      simp only [slot]
      split_ifs <;> omega
    · simp only [contents, List.range_succ, List.map_append, List.map_cons, List.map_nil]
      congr 1
      · -- the rows held before are in other slots than `free`
        apply List.map_congr_left
        intro i hi
        rw [List.mem_range] at hi
        show (q.buf.set q.free r).getD (q.slot i) default = _
        rw [getD_set_of_ne]
        rw [hq.free_eq]
        exact (hq.slot_ne (by omega) hroom (by omega)).symm
      · show [(q.buf.set q.free r).getD (q.slot q.count) default] = [r]
        rw [← hq.free_eq, getD_set_self hfree]

/-- **`Dequeue` takes the oldest row.** A buffer that gives up a row keeps its layout, and
held that row before the ones it still holds. -/
theorem Ok.dequeue (hq : q.Ok) (h : q.dequeue = some (r, q')) :
    q'.Ok ∧ q.contents = r :: q'.contents ∧ q'.size = q.size := by
  unfold Queue.dequeue at h
  split at h
  case isFalse => cases h
  case isTrue hpos =>
    simp only [Option.some.injEq, Prod.mk.injEq] at h
    obtain ⟨rfl, rfl⟩ := h
    have hhead := hq.head_lt
    have hcount := hq.count_le
    refine ⟨⟨hq.size_pos, by simp [hq.length_buf], ?_, ?_, ?_⟩, ?_, rfl⟩
    · show (if q.head + 1 ≥ q.size then 0 else q.head + 1) < q.size
      split <;> omega
    · show q.count - 1 ≤ q.size
      omega
    · show q.free = _
      rw [hq.free_eq]
      simp only [slot]
      split_ifs <;> omega
    · rw [contents_of_count_pos hq hpos]
      congr 1
      simp only [contents]
      apply List.map_congr_left
      intro i hi
      rw [List.mem_range] at hi
      -- slot `i` after the new head is slot `i + 1` after the old one, never the old head
      have hslot : (if q.head + 1 ≥ q.size then 0 else q.head + 1) + i < q.size ∧
          (if q.head + 1 ≥ q.size then 0 else q.head + 1) + i = q.slot (i + 1) ∨
          ¬ (if q.head + 1 ≥ q.size then 0 else q.head + 1) + i < q.size ∧
          (if q.head + 1 ≥ q.size then 0 else q.head + 1) + i - q.size = q.slot (i + 1) := by
        simp only [slot]
        split <;> split <;> omega
      have hne : q.slot (i + 1) ≠ q.head := by
        have h0 : q.slot 0 = q.head := by simp [slot, hhead]
        rw [← h0]
        exact hq.slot_ne (by omega) hq.size_pos (by omega)
      show q.buf.getD (q.slot (i + 1)) default = (q.buf.set q.head _).getD
        (if (if q.head + 1 ≥ q.size then 0 else q.head + 1) + i < q.size then _ else _) default
      rcases hslot with ⟨hlt, heq⟩ | ⟨hge, heq⟩
      · rw [if_pos hlt, heq, getD_set_of_ne hne.symm]
      · rw [if_neg hge, heq, getD_set_of_ne hne.symm]

end Queue

/-! ## The ring buffer is a bounded FIFO list

A call that blocks is answered `blocked` and leaves the queue as it was: its goroutine waits
and calls again. -/

/-- A call on a queue. -/
inductive RingCall where
  | enqueue (r : Row)
  | dequeue
  | peek
  | len
  | cap

/-- What a call returns. -/
inductive RingReply where
  | blocked
  | enqueued
  /-- the row `Dequeue` takes, or the one `Peek` copies (`true`) -/
  | row (r : Row)
  /-- `Peek` of an empty buffer (`false`) -/
  | noRow
  | count (n : Nat)
  deriving DecidableEq, Repr

/-- The queue's answer to a call. -/
def ringStep (q : Queue) : RingCall → RingReply × Queue
  | .enqueue r =>
    match q.enqueue r with
    | none => (.blocked, q)
    | some q' => (.enqueued, q')
  | .dequeue =>
    match q.dequeue with
    | none => (.blocked, q)
    | some (r, q') => (.row r, q')
  | .peek =>
    (match q.peek with
      | none => .noRow
      | some r => .row r, q)
  | .len => (.count q.len, q)
  | .cap => (.count q.cap, q)

/-- The answer of a FIFO list of at most `size` rows. -/
def boundedFifoStep (size : Nat) (l : List Row) : RingCall → RingReply × List Row
  | .enqueue r => if l.length < size then (.enqueued, l ++ [r]) else (.blocked, l)
  | .dequeue =>
    match l with
    | [] => (.blocked, [])
    | r :: rest => (.row r, rest)
  | .peek =>
    (match l.head? with
      | none => .noRow
      | some r => .row r, l)
  | .len => (.count l.length, l)
  | .cap => (.count size, l)

/-- A buffer of `size` slots laid out as `Queue.Ok` says, holding the rows `l`. -/
structure Holds (size : Nat) (q : Queue) (l : List Row) : Prop where
  ok : q.Ok
  size_eq : q.size = size
  contents_eq : q.contents = l

section Refines

variable {size : Nat} {q : Queue} {l : List Row}

theorem Holds.enqueue (h : Holds size q l) (r : Row) :
    ∃ q', ringStep q (.enqueue r) = ((boundedFifoStep size l (.enqueue r)).1, q') ∧
      Holds size q' (boundedFifoStep size l (.enqueue r)).2 := by
  have hlen : l.length = q.count := by rw [← h.contents_eq, Queue.length_contents]
  cases he : q.enqueue r with
  | none =>
    -- a full buffer: as many rows as slots
    have hfull : ¬ l.length < size := by
      rw [hlen, ← h.size_eq]
      exact Nat.not_lt.mpr (Queue.enqueue_eq_none_iff.mp he)
    refine ⟨q, ?_, ?_⟩
    · simp only [ringStep, boundedFifoStep, he, if_neg hfull]
    · simp only [boundedFifoStep, if_neg hfull]
      exact h
  | some q' =>
    have hroom : l.length < size := by
      rw [hlen, ← h.size_eq]
      by_contra hge
      rw [Queue.enqueue_eq_none_iff.mpr (Nat.le_of_not_lt hge)] at he
      cases he
    obtain ⟨hq', hcont, hsize⟩ := h.ok.enqueue he
    refine ⟨q', ?_, ?_⟩
    · simp only [ringStep, boundedFifoStep, he, if_pos hroom]
    · simp only [boundedFifoStep, if_pos hroom]
      exact ⟨hq', hsize.trans h.size_eq, by rw [hcont, h.contents_eq]⟩

theorem Holds.dequeue (h : Holds size q l) :
    ∃ q', ringStep q .dequeue = ((boundedFifoStep size l .dequeue).1, q') ∧
      Holds size q' (boundedFifoStep size l .dequeue).2 := by
  cases hd : q.dequeue with
  | none =>
    -- an empty buffer
    have hl : l = [] := by
      rw [← h.contents_eq, ← List.length_eq_zero_iff, Queue.length_contents]
      exact Queue.dequeue_eq_none_iff.mp hd
    subst hl
    exact ⟨q, by simp only [ringStep, boundedFifoStep, hd], h⟩
  | some p =>
    obtain ⟨r, q'⟩ := p
    obtain ⟨hq', hcont, hsize⟩ := h.ok.dequeue hd
    rw [h.contents_eq] at hcont
    subst hcont
    exact ⟨q', by simp only [ringStep, boundedFifoStep, hd], hq', hsize.trans h.size_eq, rfl⟩

/-- **One call.** -/
theorem ringStep_simulates (size : Nat) :
    Simulation.StepSimulates (Holds size) (fun q c => some (ringStep q c)) (boundedFifoStep size)
      (fun _ _ => True) := by
  intro q l c h _
  cases c with
  | enqueue r =>
    obtain ⟨q', hstep, h'⟩ := h.enqueue r
    exact ⟨q', congrArg some hstep, h'⟩
  | dequeue =>
    obtain ⟨q', hstep, h'⟩ := h.dequeue
    exact ⟨q', congrArg some hstep, h'⟩
  | peek =>
    refine ⟨q, ?_, h⟩
    show some (ringStep q .peek) = _
    rw [ringStep, boundedFifoStep, h.ok.peek_eq, h.contents_eq]
  | len =>
    refine ⟨q, ?_, h⟩
    show some (ringStep q .len) = _
    rw [ringStep, boundedFifoStep, Queue.len, ← h.contents_eq, Queue.length_contents]
  | cap =>
    refine ⟨q, ?_, h⟩
    show some (ringStep q .cap) = _
    rw [ringStep, boundedFifoStep, Queue.cap, h.size_eq]

end Refines

/-- **The ring buffer is a FIFO list of at most `size` rows.** From `NewQueue` with room for a
row, over every sequence of calls, each call replies as the list does: `Enqueue` blocks exactly
when `size` rows are held, `Dequeue` exactly when none is and otherwise returns the oldest row,
`Peek` copies that row, and `Len` counts the rows. -/
theorem ring_refines_fifo (size : Nat) (hsize : 0 < size) (calls : List RingCall) :
    ∃ q, Simulation.run (fun q c => some (ringStep q c)) (newQueue size) calls =
        some ((Simulation.runSpec (boundedFifoStep size) [] calls).1, q) ∧
      Holds size q (Simulation.runSpec (boundedFifoStep size) [] calls).2 :=
  Simulation.run_simulates _ (ringStep_simulates size) calls _ _
    ⟨Queue.newQueue_ok hsize, rfl, rfl⟩ (Simulation.admissible_of_forall (fun _ _ => trivial) calls _)

/-- Two slots: the third `Enqueue` blocks, the next row wraps around to the first slot, and the
`Dequeue` of the emptied buffer blocks. -/
def sampleRingCalls : List RingCall :=
  [.enqueue ⟨[1], 0, false⟩, .enqueue ⟨[2], 0, false⟩, .enqueue ⟨[3], 0, false⟩, .dequeue,
    .enqueue ⟨[3], 0, false⟩, .peek, .dequeue, .dequeue, .dequeue, .peek, .len, .cap]

theorem ring_refines_fifo_sampleRingCalls :
    (Simulation.runSpec (boundedFifoStep 2) [] sampleRingCalls).1 =
      [.enqueued, .enqueued, .blocked, .row ⟨[1], 0, false⟩, .enqueued, .row ⟨[2], 0, false⟩,
        .row ⟨[2], 0, false⟩, .row ⟨[3], 0, false⟩, .blocked, .noRow, .count 0, .count 2] ∧
    ∃ q, Simulation.run (fun q c => some (ringStep q c)) (newQueue 2) sampleRingCalls =
        some ((Simulation.runSpec (boundedFifoStep 2) [] sampleRingCalls).1, q) ∧
      Holds 2 q (Simulation.runSpec (boundedFifoStep 2) [] sampleRingCalls).2 :=
  ⟨by decide, ring_refines_fifo 2 (by decide) sampleRingCalls⟩

end Indexer
