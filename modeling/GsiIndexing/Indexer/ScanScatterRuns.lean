import GsiIndexing.Indexer.ScanScatter

/-!
# Whole runs of a scatter scan

The producers and the gather of `scanMultiple` run in any order (`Scatter.run` over any
schedule). The invariant `ScatterInv` of a reachable state keeps two ghost variables: the
rows the gather has taken from each partition (`taken`), and the rows it has passed to the
callback, in order (`rs`, whose keys are `out`).

* **`PartOk`**: each partition's rows, then its last row, are the rows taken from it, then
  the rows its queue holds, then those its producer has still to enqueue.
* **`PickInv`**: between calls of `scan_pick`, `sorted` is a permutation of the partitions,
  and after the front it holds partitions whose queues hold a row, fresh in `rows` and in
  the order of their head rows.
* The rows passed to the callback are sorted, are a permutation of the rows taken, and each
  sorts before every row a partition has still to give.
* **`ScatterInv.step`**: every step of a producer or of the gather keeps the invariant; the
  row the gather takes sorts before every row still to come (`ScatterInv.head_below`).
* **`scatter_gather_sorted`**: over every schedule, the keys passed on are in key order and
  drawn from the entries, and all of them once the gather is finished.
-/

namespace Indexer

open Go

/-! ## §1 — one partition's rows -/

/-- The rows the producer of partition `i` enqueues: its slice's entries, as rows. -/
def streamOf (isPrimary : Bool) (entries : List (List Bytes)) (i : Nat) : List Row :=
  (entries.getD i []).map (entryRow isPrimary)

/-- What partition `i` has been through: the rows of its slice and then its last row are the
rows the gather has taken from it, then the rows its queue holds, then those its producer has
still to enqueue. -/
structure PartOk (stream taken : List Row) (q : Queue) (pending : List Row) : Prop where
  ok : q.Ok
  split : stream ++ [lastRow] = taken ++ (q.contents ++ pending)
  taken_le : taken.length ≤ stream.length

section Part

variable {stream taken pending : List Row} {q q' : Queue} {r c : Row} {cs : List Row}

theorem PartOk.enqueue (h : PartOk stream taken q (r :: pending)) (he : q.enqueue r = some q') :
    PartOk stream taken q' pending := by
  obtain ⟨hok, hcont, -⟩ := h.ok.enqueue he
  refine ⟨hok, ?_, h.taken_le⟩
  rw [h.split, hcont, List.append_assoc, List.singleton_append]

/-- The rows still to come from a partition start at its queue. -/
theorem PartOk.drop_taken (h : PartOk stream taken q pending) :
    (stream ++ [lastRow]).drop taken.length = q.contents ++ pending := by
  rw [h.split, List.drop_left]

/-- The row at the head of a partition's queue is its next row, or its last row once all its
rows are taken. -/
theorem PartOk.head_cases (h : PartOk stream taken q pending) (hc : q.contents = c :: cs) :
    (∃ ht : taken.length < stream.length, c = stream[taken.length]) ∨
      (taken.length = stream.length ∧ c = lastRow) := by
  have hget : (stream ++ [lastRow])[taken.length]? = some c := by
    rw [← List.head?_drop, h.drop_taken, hc, List.cons_append, List.head?_cons]
  rcases Nat.lt_or_ge taken.length stream.length with hlt | hge
  · left
    rw [List.getElem?_append_left hlt, List.getElem?_eq_getElem hlt, Option.some.injEq] at hget
    exact ⟨hlt, hget.symm⟩
  · right
    have heq : taken.length = stream.length := le_antisymm h.taken_le hge
    rw [List.getElem?_append_right (le_of_eq heq.symm), heq, Nat.sub_self] at hget
    exact ⟨heq, (Option.some.inj hget).symm⟩

/-- A partition whose producer is done holds a row in its queue: its last row is not taken. -/
theorem PartOk.contents_ne_nil (h : PartOk stream taken q []) : q.contents ≠ [] := by
  intro hnil
  have := congrArg List.length h.split
  simp [hnil] at this
  have := h.taken_le
  omega

theorem PartOk.take_eq (h : PartOk stream taken q pending) : taken = stream.take taken.length := by
  have := congrArg (List.take taken.length) h.split
  rw [List.take_left, List.take_append_of_le_length h.taken_le] at this
  exact this.symm

/-- **Taking a row of a partition.** The row at the head of its queue, when it is not its last
row, is its next row, and is then taken. -/
theorem PartOk.dequeue (h : PartOk stream taken q pending) (hd : q.dequeue = some (r, q'))
    (hlast : r.last = false) :
    ∃ ht : taken.length < stream.length, r = stream[taken.length] ∧
      PartOk stream (taken ++ [r]) q' pending := by
  obtain ⟨hok, hcont, -⟩ := h.ok.dequeue hd
  rcases h.head_cases hcont with ⟨ht, hr⟩ | ⟨-, hr⟩
  · refine ⟨ht, hr, hok, ?_, by simp; omega⟩
    rw [h.split, hcont, List.cons_append, List.append_assoc, List.singleton_append]
  · rw [hr] at hlast
    cases hlast

end Part

/-! ## §2 — the invariant -/

/-- What `gather`'s buffers hold between its calls of `scan_pick`: `sorted` is a permutation
of the partitions, and after the front it holds partitions whose queues hold a row, fresh in
`rows`, in the order of their head rows. -/
structure PickInv (isPrimary : Bool) (queues : List Queue) (b : Buffers) : Prop where
  perm : b.sorted.Perm (List.range queues.length)
  peek : ∀ x ∈ b.sorted.tail, ((queues.getD x default).peek).isSome
  fresh : ∀ x ∈ b.sorted.tail, FreshRow queues b.rows x
  sorted : b.sorted.tail.Pairwise (leHead isPrimary queues)

/-- **The bookkeeping of the partitions**, whichever goroutine takes the rows out: each
partition's rows split as `PartOk` says between the rows taken from it (`taken`), its queue and
its producer, and the keys passed to the callback (`out`) are those of the rows taken, in the
order they were passed on (`rs`). -/
structure PartsInv (isPrimary : Bool) (entries : List (List Bytes)) (queues : List Queue)
    (pending : List (List Row)) (out : List Bytes) (taken : List (List Row)) (rs : List Row) :
    Prop where
  length_queues : queues.length = entries.length
  length_pending : pending.length = entries.length
  length_taken : taken.length = entries.length
  part : ∀ i < entries.length, PartOk (streamOf isPrimary entries i) (taken.getD i [])
    (queues.getD i default) (pending.getD i [])
  out_eq : out = rs.map Row.key
  perm : rs.Perm taken.flatten

/-- **The invariant of a scan**, with the rows the gather has taken from each partition
(`taken`) and the rows it has passed to the callback (`rs`). -/
structure ScatterInv (isPrimary : Bool) (entries : List (List Bytes)) (s : Scatter)
    (taken : List (List Row)) (rs : List Row) : Prop where
  length_queues : s.queues.length = entries.length
  length_pending : s.pending.length = entries.length
  length_taken : taken.length = entries.length
  length_rows : s.gather.buffers.rows.length = entries.length
  part : ∀ i < entries.length, PartOk (streamOf isPrimary entries i) (taken.getD i [])
    (s.queues.getD i default) (s.pending.getD i [])
  out_eq : s.gather.out = rs.map Row.key
  perm : rs.Perm taken.flatten
  sorted : rs.Pairwise fun a b => compareKey isPrimary a b ≤ 0
  below : ∀ o ∈ rs, ∀ i < entries.length,
    ∀ y ∈ (streamOf isPrimary entries i).drop (taken.getD i []).length, compareKey isPrimary o y ≤ 0
  pick : s.gather.isSorted = true → s.gather.finished = false →
    PickInv isPrimary s.queues s.gather.buffers
  done : s.gather.finished = true → ∀ i < entries.length, taken.getD i [] = streamOf isPrimary entries i

theorem ScatterInv.parts {isPrimary : Bool} {entries : List (List Bytes)} {s : Scatter}
    {taken : List (List Row)} {rs : List Row} (h : ScatterInv isPrimary entries s taken rs) :
    PartsInv isPrimary entries s.queues s.pending s.gather.out taken rs :=
  ⟨h.length_queues, h.length_pending, h.length_taken, h.part, h.out_eq, h.perm⟩

/-- The invariant holds at the start, with nothing taken. -/
theorem scatterInv_init (isPrimary : Bool) {size : Nat} (hsize : 0 < size)
    (entries : List (List Bytes)) :
    ScatterInv isPrimary entries (Scatter.init isPrimary size entries)
      (List.replicate entries.length []) [] where
  length_queues := by simp [Scatter.init]
  length_pending := by simp [Scatter.init]
  length_taken := List.length_replicate
  length_rows := by simp [Scatter.init, Gather.init]
  part i hi := by
    have hq : (Scatter.init isPrimary size entries).queues.getD i default = newQueue size := by
      show (entries.map fun _ => newQueue size).getD i default = newQueue size
      rw [List.getD_eq_getElem _ _ (by simpa using hi), List.getElem_map]
    have hp : (Scatter.init isPrimary size entries).pending.getD i [] =
        streamOf isPrimary entries i ++ [lastRow] := by
      show (entries.map fun es => es.map (entryRow isPrimary) ++ [lastRow]).getD i [] = _
      rw [List.getD_eq_getElem _ _ (by simpa using hi), List.getElem_map, streamOf,
        List.getD_eq_getElem _ _ hi]
    rw [hq, hp, List.getD_replicate _ hi]
    exact ⟨Queue.newQueue_ok hsize, by simp, by simp⟩
  out_eq := rfl
  perm := by simp
  sorted := List.Pairwise.nil
  below := by simp
  pick := by simp [Scatter.init, Gather.init]
  done := by simp [Scatter.init, Gather.init]

/-! ## §3 — a producer's step

An `Enqueue` appends to one queue: every partition's bookkeeping goes on to hold, and the
heads of the queues that held a row stay as they were, so what `gather` knows of them does
too. -/

section Produce

variable {isPrimary : Bool} {entries : List (List Bytes)}

/-- `PickInv` holds on queues whose heads, after the front of `sorted`, are the same. -/
theorem PickInv.of_peek_eq {queues queues' : List Queue} {b : Buffers}
    (h : PickInv isPrimary queues b) (hlen : queues'.length = queues.length)
    (hsame : ∀ x ∈ b.sorted.tail, (queues'.getD x default).peek = (queues.getD x default).peek) :
    PickInv isPrimary queues' b where
  perm := by rw [hlen]; exact h.perm
  peek x hx := by rw [hsame x hx]; exact h.peek x hx
  fresh x hx := by
    unfold FreshRow headRow
    rw [hsame x hx]
    exact h.fresh x hx
  sorted := by
    refine h.sorted.imp_of_mem fun {x y} hx hy hxy => ?_
    unfold leHead headRow at *
    rw [hsame x hx, hsame y hy]
    exact hxy

/-- A queue that holds a row keeps its head when a row is enqueued. -/
theorem Queue.Ok.peek_enqueue {q q' : Queue} {r : Row} (hq : q.Ok) (he : q.enqueue r = some q')
    (hsome : q.peek.isSome) : q'.peek = q.peek := by
  obtain ⟨hq', hcont, -⟩ := hq.enqueue he
  rw [hq'.peek_eq, hq.peek_eq, hcont]
  rw [hq.peek_eq] at hsome
  cases hc : q.contents with
  | nil => rw [hc] at hsome; cases hsome
  | cons c cs => rfl

theorem Scatter.step_produce_gather (isPrimary : Bool) (s : Scatter) (i : Nat) :
    (s.step isPrimary (.produce i)).gather = s.gather := by
  rcases Scatter.step_produce_cases isPrimary s i with ⟨-, hstep⟩ | ⟨-, -, -, -, hstep⟩ |
    ⟨r, rest, q, -, -, hstep⟩ <;> rw [hstep]

/-- A producer's step leaves the other queues as they were. -/
theorem Scatter.queue_produce_of_ne (isPrimary : Bool) (s : Scatter) {i x : Nat} (hxi : x ≠ i) :
    (s.step isPrimary (.produce i)).queues.getD x default = s.queues.getD x default := by
  rcases Scatter.step_produce_cases isPrimary s i with ⟨-, hstep⟩ | ⟨-, -, -, -, hstep⟩ |
    ⟨r, rest, q, -, -, hstep⟩
  · rw [hstep]
  · rw [hstep]
  · rw [hstep]
    exact getD_set_of_ne (Ne.symm hxi)

/-- **A producer's step** keeps the bookkeeping of the partitions, and the head of every queue
that held a row. -/
theorem PartsInv.produce {s : Scatter} {out : List Bytes} {taken : List (List Row)}
    {rs : List Row} (h : PartsInv isPrimary entries s.queues s.pending out taken rs) (i : Nat) :
    PartsInv isPrimary entries (s.step isPrimary (.produce i)).queues
        (s.step isPrimary (.produce i)).pending out taken rs ∧
      ∀ x, ((s.queues.getD x default).peek).isSome →
        ((s.step isPrimary (.produce i)).queues.getD x default).peek = (s.queues.getD x default).peek := by
  rcases Scatter.step_produce_cases isPrimary s i with ⟨-, hstep⟩ | ⟨-, -, -, -, hstep⟩ |
    ⟨r, rest, q, hp, he, hstep⟩
  · rw [hstep]
    exact ⟨h, fun _ _ => rfl⟩
  · rw [hstep]
    exact ⟨h, fun _ _ => rfl⟩
  · rw [hstep]
    have hi : i < entries.length := by
      rw [← h.length_pending]
      by_contra hge
      rw [List.getD_eq_default _ _ (by omega)] at hp
      cases hp
    -- the queue of partition `i` is the only one to change
    have hqi : (s.queues.set i q).getD i default = q := getD_set_self (by rw [h.length_queues]; exact hi)
    have hpi : (s.pending.set i rest).getD i [] = rest := getD_set_self (by rw [h.length_pending]; exact hi)
    have hpart := h.part i hi
    rw [hp] at hpart
    refine ⟨⟨by simp [h.length_queues], by simp [h.length_pending], h.length_taken, fun j hj => ?_,
      h.out_eq, h.perm⟩, fun x hx => ?_⟩
    · by_cases hji : j = i
      · rw [hji]
        show PartOk _ _ ((s.queues.set i q).getD i default) ((s.pending.set i rest).getD i [])
        rw [hqi, hpi]
        exact hpart.enqueue he
      · show PartOk _ _ ((s.queues.set i q).getD j default) ((s.pending.set i rest).getD j [])
        rw [getD_set_of_ne (Ne.symm hji), getD_set_of_ne (Ne.symm hji)]
        exact h.part j hj
    · show ((s.queues.set i q).getD x default).peek = _
      by_cases hxi : x = i
      · rw [hxi, hqi]
        rw [hxi] at hx
        exact hpart.ok.peek_enqueue he hx
      · rw [getD_set_of_ne (Ne.symm hxi)]

theorem ScatterInv.produce {s : Scatter} {taken : List (List Row)} {rs : List Row}
    (h : ScatterInv isPrimary entries s taken rs) (i : Nat) :
    ScatterInv isPrimary entries (s.step isPrimary (.produce i)) taken rs := by
  obtain ⟨hp, hsame⟩ := h.parts.produce i
  have hg := Scatter.step_produce_gather isPrimary s i
  refine ⟨hp.length_queues, hp.length_pending, h.length_taken, ?_, hp.part, ?_, h.perm, h.sorted,
    h.below, ?_, ?_⟩ <;> rw [hg]
  · exact h.length_rows
  · exact h.out_eq
  · -- the partitions after the front held a row, and keep it at their heads
    intro hs hf
    exact (h.pick hs hf).of_peek_eq (by rw [hp.length_queues, h.length_queues])
      fun x hx => hsame x ((h.pick hs hf).peek x hx)
  · exact h.done

end Produce

/-! ## §4 — a round of the gather

A round in the sort phase only replaces the buffers, and the first that succeeds leaves them
sorted. A round in the pick phase finds the front queue empty and changes nothing, or finds
every head row a last row and returns, or takes the head row of the front partition: that
row sorts before every row still to come, as it sorted before every other head row and its
own partition's rows come in order. -/

section Helpers

theorem flatten_set_append_perm {α : Type} {a : α} :
    ∀ (l : List (List α)) (x : Nat), x < l.length →
      (l.set x (l.getD x [] ++ [a])).flatten.Perm (l.flatten ++ [a])
  | [], _, h => absurd h (by simp)
  | l₀ :: l, 0, _ => by
    rw [List.set_cons_zero, List.getD_cons_zero, List.flatten_cons, List.flatten_cons,
      List.append_assoc, List.append_assoc]
    exact List.Perm.append_left l₀ List.perm_append_comm
  | l₀ :: l, x + 1, h => by
    rw [List.set_cons_succ, List.getD_cons_succ, List.flatten_cons, List.flatten_cons,
      List.append_assoc]
    exact List.Perm.append_left l₀ (flatten_set_append_perm l x (by simpa using h))

/-- In a sorted list, an element is below every later one. -/
theorem rel_of_mem_drop {R : Row → Row → Prop} {l : List Row} (hl : l.Pairwise R) {t : Nat}
    (ht : t < l.length) : ∀ y ∈ l.drop (t + 1), R l[t] y := by
  have hp := hl.sublist (List.drop_sublist t l)
  rw [List.drop_eq_getElem_cons ht, List.pairwise_cons] at hp
  exact hp.1

theorem headRow_eq {queues : List Queue} {x : Nat} {c : Row} {cs : List Row}
    (hq : (queues.getD x default).Ok) (hc : (queues.getD x default).contents = c :: cs) :
    headRow queues x = c := by
  unfold headRow
  rw [hq.peek_eq, hc]
  rfl

theorem lt_length_of_peek {queues : List Queue} {x : Nat}
    (h : ((queues.getD x default).peek).isSome) : x < queues.length := by
  by_contra hge
  rw [List.getD_eq_default _ _ (by omega)] at h
  cases h

theorem streamOf_last {isPrimary : Bool} {entries : List (List Bytes)} {i : Nat} :
    ∀ r ∈ streamOf isPrimary entries i, r.last = false := by
  intro r hr
  obtain ⟨e, -, rfl⟩ := List.mem_map.mp hr
  rfl

/-- A partition whose head row is its last row has given all its rows. -/
theorem PartOk.taken_eq_of_last {stream taken pending : List Row} {q : Queue} {c : Row}
    {cs : List Row} (h : PartOk stream taken q pending) (hs : ∀ r ∈ stream, r.last = false)
    (hc : q.contents = c :: cs) (hlast : c.last = true) : taken = stream := by
  rcases h.head_cases hc with ⟨ht, hr⟩ | ⟨heq, -⟩
  · rw [hs c (hr ▸ List.getElem_mem ht)] at hlast
    cases hlast
  · rw [h.take_eq, heq, List.take_length]

/-- While rows of a partition remain, its queue's head is the next of them. -/
theorem PartOk.head_of_mem_drop {stream taken pending : List Row} {q : Queue} {c y : Row}
    {cs : List Row} (h : PartOk stream taken q pending) (hc : q.contents = c :: cs)
    (hy : y ∈ stream.drop taken.length) : ∃ ht : taken.length < stream.length, c = stream[taken.length] := by
  rcases h.head_cases hc with hh | ⟨heq, -⟩
  · exact hh
  · rw [heq, List.drop_length] at hy
    cases hy

/-- In a partition whose rows come in order, the queue's head sorts before every row still to
come. -/
theorem PartOk.head_below {isPrimary : Bool} {stream taken pending : List Row} {q : Queue}
    {c : Row} {cs : List Row} (h : PartOk stream taken q pending)
    (hs : stream.Pairwise fun a b => compareKey isPrimary a b ≤ 0) (hc : q.contents = c :: cs) :
    ∀ y ∈ stream.drop taken.length, compareKey isPrimary c y ≤ 0 := by
  intro y hy
  obtain ⟨ht, rfl⟩ := h.head_of_mem_drop hc hy
  rw [List.drop_eq_getElem_cons ht] at hy
  rcases List.mem_cons.mp hy with rfl | hy
  · exact (compareKey_self _).le
  · exact rel_of_mem_drop hs ht y hy

theorem contents_of_peek {q : Queue} (hq : q.Ok) (h : q.peek.isSome) :
    ∃ c cs, q.contents = c :: cs := by
  rw [hq.peek_eq] at h
  cases hc : q.contents with
  | nil => rw [hc] at h; cases h
  | cons c cs => exact ⟨c, cs, rfl⟩

end Helpers

section Parts

variable {isPrimary : Bool} {entries : List (List Bytes)} {queues : List Queue}
  {pending : List (List Row)} {out : List Bytes} {taken : List (List Row)} {rs : List Row}

/-- **A row taken from a queue**: the head row of partition `x₀`, not its last row, is
dequeued and passed on. It is the next row of the partition's stream. -/
theorem PartsInv.take (h : PartsInv isPrimary entries queues pending out taken rs) {x₀ : Nat}
    (hx₀ : x₀ < entries.length) {row : Row} {q : Queue}
    (hd : (queues.getD x₀ default).dequeue = some (row, q)) (hlast : row.last = false) :
    PartsInv isPrimary entries (queues.set x₀ q) pending (out ++ [row.key])
        (taken.set x₀ (taken.getD x₀ [] ++ [row])) (rs ++ [row]) ∧
      ∃ ht : (taken.getD x₀ []).length < (streamOf isPrimary entries x₀).length,
        row = (streamOf isPrimary entries x₀)[(taken.getD x₀ []).length] := by
  obtain ⟨ht, hr, hpart'⟩ := (h.part x₀ hx₀).dequeue hd hlast
  refine ⟨⟨by simp [h.length_queues], h.length_pending, by simp [h.length_taken], fun i hi => ?_,
    by rw [h.out_eq, List.map_append]; rfl,
    (h.perm.append_right [row]).trans (flatten_set_append_perm taken x₀ (by rwa [h.length_taken])).symm⟩,
    ht, hr⟩
  -- only partition `x₀` has changed
  by_cases hix : i = x₀
  · rw [hix, getD_set_self (by rwa [h.length_taken]), getD_set_self (by rwa [h.length_queues])]
    exact hpart'
  · rw [getD_set_of_ne (Ne.symm hix), getD_set_of_ne (Ne.symm hix)]
    exact h.part i hi

/-- Where every queue holds a row and every head row is a last row, every partition has given
all its rows. -/
theorem PartsInv.taken_eq_of_last (h : PartsInv isPrimary entries queues pending out taken rs)
    (hall : AllPeek queues) (hlast : ∀ x < queues.length, (headRow queues x).last = true) :
    ∀ i < entries.length, taken.getD i [] = streamOf isPrimary entries i := by
  intro i hi
  have hpart := h.part i hi
  have hi' : i < queues.length := by rw [h.length_queues]; exact hi
  obtain ⟨c, cs, hc⟩ := contents_of_peek hpart.ok (hall i hi')
  exact hpart.taken_eq_of_last (fun r hr => streamOf_last r hr) hc (headRow_eq hpart.ok hc ▸ hlast i hi')

end Parts

section GatherStep

variable {isPrimary : Bool} {entries : List (List Bytes)} {s : Scatter}
  {taken : List (List Row)} {rs : List Row}

/-- **The sort phase.** -/
theorem ScatterInv.gather_sort (h : ScatterInv isPrimary entries s taken rs)
    (hf : s.gather.finished = false) (hs : s.gather.isSorted = false) :
    ScatterInv isPrimary entries (s.step isPrimary .gather) taken rs := by
  rw [Scatter.step_gather, gatherRound_of_sort hf hs]
  refine ⟨h.length_queues, h.length_pending, h.length_taken, ?_, h.part, h.out_eq, h.perm,
    h.sorted, h.below, ?_, fun hf' => absurd hf' (by simp [hf])⟩
  · show (scanSort isPrimary s.queues s.gather.buffers.rows).2.rows.length = _
    rw [scanSort_length, h.length_rows]
  · intro hok _
    obtain ⟨rows', heq, -, hall⟩ := scanSort_spec s.gather.buffers.rows
      (by rw [h.length_rows, h.length_queues]) hok
    show PickInv isPrimary s.queues (scanSort isPrimary s.queues s.gather.buffers.rows).2
    rw [heq]
    obtain ⟨hperm, hpair⟩ := ExchangeSort.exchangeSort_spec (r := leHead isPrimary s.queues)
      (List.range s.queues.length)
    -- a partition after the front: there are two at least, and all were peeked
    have htail : ∀ x ∈ (ExchangeSort.exchangeSort (leHead isPrimary s.queues)
        (List.range s.queues.length)).tail, 2 ≤ s.queues.length ∧ x < s.queues.length := by
      intro x hx
      have hlen := hperm.length_eq
      rw [List.length_range] at hlen
      have h2 : 2 ≤ s.queues.length := by
        cases hl : ExchangeSort.exchangeSort (leHead isPrimary s.queues) (List.range s.queues.length) with
        | nil => rw [hl] at hx; cases hx
        | cons a t =>
          rw [hl] at hx hlen
          cases t with
          | nil => cases hx
          | cons b t => simp at hlen; omega
      exact ⟨h2, List.mem_range.mp (hperm.subset (List.mem_of_mem_tail hx))⟩
    refine ⟨hperm, fun x hx => ?_, fun x hx => ?_, hpair.sublist (List.tail_sublist _)⟩
    · obtain ⟨h2, hx⟩ := htail x hx
      exact (hall h2).1 x hx
    · obtain ⟨h2, hx⟩ := htail x hx
      exact (hall h2).2 x hx

/-- A round whose front queue is empty changes nothing. -/
theorem Scatter.step_gather_of_front_none (hf : s.gather.finished = false)
    (hs : s.gather.isSorted = true)
    (hnone : (s.queues.getD (s.gather.buffers.sorted.getD 0 0) default).peek = none) :
    s.step isPrimary .gather = s := by
  have hp : scanPick isPrimary s.queues s.gather.buffers = (.noPick, s.gather.buffers) := by
    rw [scanPick, peekRow_of_none hnone]
  rw [Scatter.step_gather, gatherRound_of_noPick hf hs hp]

/-- With the front queue holding a row, every queue does. -/
theorem PickInv.allPeek {queues : List Queue} {b : Buffers} (hp : PickInv isPrimary queues b)
    (hfront : ((queues.getD (b.sorted.getD 0 0) default).peek).isSome) : AllPeek queues := by
  intro x hx
  have hmem : x ∈ b.sorted := hp.perm.symm.subset (List.mem_range.mpr hx)
  have htail := hp.peek
  cases hsd : b.sorted with
  | nil => rw [hsd] at hmem; cases hmem
  | cons s0 t =>
    rw [hsd] at hmem hfront htail
    rcases List.mem_cons.mp hmem with rfl | hxt
    · exact hfront
    · exact htail x hxt

/-- The front of a sorted permutation holds a row that is not a last row, while some head row
is not. -/
theorem front_not_last {queues : List Queue} {sorted t : List Nat} {x₀ : Nat}
    (hperm : sorted.Perm (List.range queues.length)) (hpair : sorted.Pairwise (leHead isPrimary queues))
    (hfront : sorted = x₀ :: t) (hany : ∃ x < queues.length, (headRow queues x).last = false) :
    (headRow queues x₀).last = false := by
  obtain ⟨x, hx, hxl⟩ := hany
  by_contra hl
  rw [Bool.not_eq_false] at hl
  have hmem : x ∈ sorted := hperm.symm.subset (List.mem_range.mpr hx)
  rw [hfront] at hmem hpair
  rcases List.mem_cons.mp hmem with rfl | hxt
  · rw [hl] at hxl
    cases hxl
  · have hle : leHead isPrimary queues x₀ x := List.rel_of_pairwise_cons hpair hxt
    unfold leHead at hle
    rw [sortsAfter_of_last_left hl hxl] at hle
    cases hle

/-- `PickInv` after the row at the head of the front partition is taken: the partitions after
the front keep their queues and their rows. -/
theorem PickInv.of_take {queues : List Queue} {rows : List Row} {sorted t : List Nat} {x₀ : Nat}
    {q : Queue} {row : Row}
    (hperm : sorted.Perm (List.range queues.length)) (hpair : sorted.Pairwise (leHead isPrimary queues))
    (hfront : sorted = x₀ :: t) (hall : AllPeek queues)
    (hfresh : ∀ x < queues.length, FreshRow queues rows x) :
    PickInv isPrimary (queues.set x₀ q) ⟨rows.set x₀ row, sorted⟩ := by
  have hnodup : sorted.Nodup := List.nodup_range.perm hperm.symm
  -- a partition after the front is not the front one
  have hne : ∀ x ∈ sorted.tail, x ≠ x₀ := by
    rw [hfront] at hnodup ⊢
    intro x hx hxe
    rw [hxe] at hx
    exact (List.nodup_cons.mp hnodup).1 hx
  have hlt : ∀ x ∈ sorted.tail, x < queues.length :=
    fun x hx => List.mem_range.mp (hperm.subset (List.mem_of_mem_tail hx))
  have hsame : ∀ x ∈ sorted.tail, headRow (queues.set x₀ q) x = headRow queues x := by
    intro x hx
    unfold headRow
    rw [getD_set_of_ne (Ne.symm (hne x hx))]
  refine ⟨by rw [List.length_set]; exact hperm, fun x hx => ?_, fun x hx => ?_, ?_⟩
  · show ((queues.set x₀ q).getD x default).peek.isSome
    rw [getD_set_of_ne (Ne.symm (hne x hx))]
    exact hall x (hlt x hx)
  · show (rows.set x₀ row).getD x default = headRow (queues.set x₀ q) x
    rw [getD_set_of_ne (Ne.symm (hne x hx)), hsame x hx]
    exact hfresh x (hlt x hx)
  · refine (hpair.sublist (List.tail_sublist _)).imp_of_mem fun {x y} hx hy hxy => ?_
    unfold leHead at hxy ⊢
    rw [hsame x hx, hsame y hy]
    exact hxy

/-- **The row the gather takes sorts before every row still to come**: the front partition's
head sorts before every other head, each of which sorts before the rest of its partition. -/
theorem ScatterInv.head_below (h : ScatterInv isPrimary entries s taken rs)
    (hsorted : ∀ i < entries.length, (streamOf isPrimary entries i).Pairwise
      fun a b => compareKey isPrimary a b ≤ 0)
    (hall : AllPeek s.queues) {x₀ : Nat} {t : List Nat}
    (hperm : (x₀ :: t).Perm (List.range s.queues.length))
    (hpair : (x₀ :: t).Pairwise (leHead isPrimary s.queues))
    (hlast : (headRow s.queues x₀).last = false) :
    ∀ i < entries.length, ∀ y ∈ (streamOf isPrimary entries i).drop (taken.getD i []).length,
      compareKey isPrimary (headRow s.queues x₀) y ≤ 0 := by
  intro i hi y hy
  have hpart := h.part i hi
  obtain ⟨c, cs, hc⟩ := contents_of_peek hpart.ok (hall i (by rw [h.length_queues]; exact hi))
  have hhead : headRow s.queues i = c := headRow_eq hpart.ok hc
  -- the head of partition `i` is a row of its stream, as rows remain
  have hcl : c.last = false := by
    obtain ⟨ht, rfl⟩ := hpart.head_of_mem_drop hc hy
    exact streamOf_last _ (List.getElem_mem ht)
  have hfront : compareKey isPrimary (headRow s.queues x₀) c ≤ 0 := by
    rcases List.mem_cons.mp (hperm.symm.subset (List.mem_range.mpr (h.length_queues ▸ hi)))
      with rfl | hit
    · rw [hhead]
      exact (compareKey_self c).le
    · have hle : leHead isPrimary s.queues x₀ i := List.rel_of_pairwise_cons hpair hit
      unfold leHead at hle
      rw [hhead] at hle
      exact compareKey_nonpos_of_sortsAfter hlast hcl hle
  exact compareKey_le_trans hfront (hpart.head_below (hsorted i hi) hc y hy)

/-- A pick that finds every head row a last row ends the scan: every partition has given all
its rows. -/
theorem ScatterInv.finish (h : ScatterInv isPrimary entries s taken rs) (hall : AllPeek s.queues)
    (hlast : ∀ x < s.queues.length, (headRow s.queues x).last = true) {b : Buffers}
    (hlen : b.rows.length = s.queues.length) :
    ScatterInv isPrimary entries
      { s with gather := { s.gather with buffers := b, finished := true } } taken rs := by
  refine ⟨h.length_queues, h.length_pending, h.length_taken, by rw [hlen, h.length_queues],
    h.part, h.out_eq, h.perm, h.sorted, h.below, fun _ hf => absurd hf (by simp),
    fun _ => h.parts.taken_eq_of_last hall hlast⟩

/-- A pick that takes the head row of the front partition: the row is passed on, and joins the
rows taken from its partition. -/
theorem ScatterInv.take (h : ScatterInv isPrimary entries s taken rs)
    (hsorted : ∀ i < entries.length, (streamOf isPrimary entries i).Pairwise
      fun a b => compareKey isPrimary a b ≤ 0)
    (hf : s.gather.finished = false) (hall : AllPeek s.queues) {x₀ : Nat} {t : List Nat}
    {rows : List Row} (hperm : (x₀ :: t).Perm (List.range s.queues.length))
    (hpair : (x₀ :: t).Pairwise (leHead isPrimary s.queues)) (hlen : rows.length = s.queues.length)
    (hfresh : ∀ x < s.queues.length, FreshRow s.queues rows x)
    (hlast : (headRow s.queues x₀).last = false) {row : Row} {q : Queue}
    (hd : (s.queues.getD x₀ default).dequeue = some (row, q)) :
    ScatterInv isPrimary entries
      { s with queues := s.queues.set x₀ q,
               gather := { s.gather with buffers := ⟨rows.set x₀ row, x₀ :: t⟩,
                                         out := s.gather.out ++ [row.key] } }
      (taken.set x₀ (taken.getD x₀ [] ++ [row])) (rs ++ [row]) := by
  have hxq : x₀ < s.queues.length := List.mem_range.mp (hperm.subset List.mem_cons_self)
  have hx₀ : x₀ < entries.length := by rwa [← h.length_queues]
  have hpart := h.part x₀ hx₀
  obtain ⟨-, hcont, -⟩ := hpart.ok.dequeue hd
  have hrow : headRow s.queues x₀ = row := headRow_eq hpart.ok hcont
  have hbelow := h.head_below hsorted hall hperm hpair hlast
  rw [hrow] at hlast hbelow
  obtain ⟨hp', ht, hr⟩ := h.parts.take hx₀ hd hlast
  -- only partition `x₀` has taken a row
  have htaken : ∀ i, (taken.getD i []).length ≤
      ((taken.set x₀ (taken.getD x₀ [] ++ [row])).getD i []).length := by
    intro i
    by_cases hix : i = x₀
    · rw [hix, getD_set_self (by rw [h.length_taken]; exact hx₀), List.length_append]
      exact Nat.le_add_right _ _
    · rw [getD_set_of_ne (Ne.symm hix)]
  refine ⟨hp'.length_queues, hp'.length_pending, hp'.length_taken,
    by simp [hlen, h.length_queues], hp'.part, hp'.out_eq, hp'.perm, ?_, ?_,
    fun _ _ => PickInv.of_take hperm hpair rfl hall hfresh, fun hf' => absurd hf' (by simp [hf])⟩
  · -- every row passed on before sorts before `row`, which was still to come
    rw [List.pairwise_append]
    refine ⟨h.sorted, List.pairwise_singleton _ _, fun a ha b hb => ?_⟩
    rw [List.mem_singleton] at hb
    subst hb
    refine h.below a ha x₀ hx₀ _ ?_
    rw [List.drop_eq_getElem_cons ht, ← hr]
    exact List.mem_cons_self
  · intro o ho i hi y hy
    have hy' := (List.drop_sublist_drop_left _ (htaken i)).subset hy
    rcases List.mem_append.mp ho with ho | ho
    · exact h.below o ho i hi y hy'
    · rw [List.mem_singleton] at ho
      subst ho
      exact hbelow i hi y hy'

/-- **The pick phase with a row at the front.** Every queue holds a row, and `scan_pick`
leaves a sorted permutation of the partitions, returning its front, or `Done` where every head
row is a last row. -/
theorem ScatterInv.pick_front (h : ScatterInv isPrimary entries s taken rs)
    (hf : s.gather.finished = false) (hs : s.gather.isSorted = true)
    (hsome : ((s.queues.getD (s.gather.buffers.sorted.getD 0 0) default).peek).isSome) :
    AllPeek s.queues ∧ ∃ rows' x₀ t,
      scanPick isPrimary s.queues s.gather.buffers =
        (if (List.range s.queues.length).any (fun x => !(headRow s.queues x).last) then .id x₀
          else .done, ⟨rows', x₀ :: t⟩) ∧
      (x₀ :: t).Perm (List.range s.queues.length) ∧ (x₀ :: t).Pairwise (leHead isPrimary s.queues) ∧
      rows'.length = s.queues.length ∧ ∀ x < s.queues.length, FreshRow s.queues rows' x := by
  have hp := h.pick hs hf
  have hall := hp.allPeek hsome
  have hn : 0 < s.queues.length := Nat.lt_of_le_of_lt (Nat.zero_le _) (lt_length_of_peek hsome)
  obtain ⟨rows', hpick, hlen', hfresh'⟩ := scanPick_spec isPrimary hall
    s.gather.buffers hp.perm hn (by rw [h.length_rows, h.length_queues]) hp.fresh
  -- the bubble pass leaves a sorted permutation of the partitions
  have hperm' := (ExchangeSort.bubble_perm (r := leHead isPrimary s.queues)
    s.gather.buffers.sorted).trans hp.perm
  have hpair' := ExchangeSort.bubble_pairwise (r := leHead isPrimary s.queues) hp.sorted
  cases hb : ExchangeSort.bubble (leHead isPrimary s.queues) s.gather.buffers.sorted with
  | nil =>
    have := hperm'.length_eq
    rw [hb, List.length_nil, List.length_range] at this
    omega
  | cons x₀ t =>
    rw [hb] at hpick hperm' hpair'
    exact ⟨hall, rows', x₀, t, hpick, hperm', hpair', hlen', hfresh'⟩

/-- The front partition's queue gives up its head row. -/
theorem dequeue_front {queues : List Queue} {x₀ : Nat} {t : List Nat} (hall : AllPeek queues)
    (hperm : (x₀ :: t).Perm (List.range queues.length)) :
    ∃ row q, (queues.getD x₀ default).dequeue = some (row, q) := by
  obtain ⟨⟨row, q⟩, hd⟩ := Option.isSome_iff_exists.mp
    (Queue.isSome_dequeue (hall x₀ (List.mem_range.mp (hperm.subset List.mem_cons_self))))
  exact ⟨row, q, hd⟩

theorem exists_not_last {queues : List Queue}
    (hany : ((List.range queues.length).any fun x => !(headRow queues x).last) = true) :
    ∃ x < queues.length, (headRow queues x).last = false := by
  obtain ⟨x, hx, hxl⟩ := List.any_eq_true.mp hany
  exact ⟨x, List.mem_range.mp hx, by simpa using hxl⟩

theorem forall_last {queues : List Queue}
    (hany : ¬((List.range queues.length).any fun x => !(headRow queues x).last) = true) :
    ∀ x < queues.length, (headRow queues x).last = true := by
  intro x hx
  by_contra hl
  exact hany (List.any_eq_true.mpr ⟨x, List.mem_range.mpr hx, by simpa using hl⟩)

/-- **The pick phase.** The round leaves the scan as it was, ends it, or takes a row; the
invariant holds after it, for the rows taken then. -/
theorem ScatterInv.gather_pick (h : ScatterInv isPrimary entries s taken rs)
    (hsorted : ∀ i < entries.length, (streamOf isPrimary entries i).Pairwise
      fun a b => compareKey isPrimary a b ≤ 0)
    (hf : s.gather.finished = false) (hs : s.gather.isSorted = true) :
    ∃ taken' rs', ScatterInv isPrimary entries (s.step isPrimary .gather) taken' rs' := by
  cases hfront : (s.queues.getD (s.gather.buffers.sorted.getD 0 0) default).peek with
  | none =>
    rw [Scatter.step_gather_of_front_none hf hs hfront]
    exact ⟨taken, rs, h⟩
  | some r₀ =>
    obtain ⟨hall, rows', x₀, t, hpick, hperm', hpair', hlen', hfresh'⟩ :=
      h.pick_front hf hs (by rw [hfront]; rfl)
    by_cases hany : ((List.range s.queues.length).any fun x => !(headRow s.queues x).last) = true
    · rw [if_pos hany] at hpick
      have hlast := front_not_last hperm' hpair' rfl (exists_not_last hany)
      obtain ⟨row, q, hd⟩ := dequeue_front hall hperm'
      rw [Scatter.step_gather, gatherRound_of_id hf hs hpick hd]
      exact ⟨_, _, h.take hsorted hf hall hperm' hpair' hlen' hfresh' hlast hd⟩
    · rw [if_neg hany] at hpick
      rw [Scatter.step_gather, gatherRound_of_done hf hs hpick]
      exact ⟨taken, rs, h.finish hall (forall_last hany) hlen'⟩

end GatherStep

/-! ## §5 — every run

Each step keeps the invariant, for the rows taken by then, so every state a schedule reaches
has it: what the gather has passed on is in key order, is drawn from the entries, and once the
gather is finished is all of them. -/

section Runs

variable {isPrimary : Bool} {entries : List (List Bytes)}

/-- The streams of all partitions. -/
theorem getD_streams (isPrimary : Bool) (entries : List (List Bytes)) (i : Nat) :
    (entries.map fun es => es.map (entryRow isPrimary)).getD i [] = streamOf isPrimary entries i := by
  rw [streamOf, List.getD_eq_getElem?_getD, List.getD_eq_getElem?_getD, List.getElem?_map]
  cases entries[i]? <;> rfl

theorem key_entryRow (isPrimary : Bool) (e : Bytes) : (entryRow isPrimary e).key = e := rfl

/-- Entries returned in key order give streams in key order. -/
theorem streamOf_pairwise {entries : List (List Bytes)}
    (hsorted : ∀ es ∈ entries, (es.map (entryRow isPrimary)).Pairwise
      fun a b => compareKey isPrimary a b ≤ 0) :
    ∀ i < entries.length, (streamOf isPrimary entries i).Pairwise
      fun a b => compareKey isPrimary a b ≤ 0 := by
  intro i hi
  rw [streamOf, List.getD_eq_getElem _ _ hi]
  exact hsorted _ (List.getElem_mem hi)

/-- Lists of lists, pointwise sublists, flatten to sublists. -/
theorem flatten_sublist_of_getD {α : Type} :
    ∀ l₁ l₂ : List (List α), l₁.length = l₂.length →
      (∀ i < l₁.length, (l₁.getD i []).Sublist (l₂.getD i [])) → l₁.flatten.Sublist l₂.flatten
  | [], [], _, _ => List.Sublist.slnil
  | a :: l₁, b :: l₂, hlen, h => by
    rw [List.flatten_cons, List.flatten_cons]
    exact (h 0 (by simp)).append
      (flatten_sublist_of_getD l₁ l₂ (by simpa using hlen) fun i hi => h (i + 1) (by simpa using hi))
  | [], _ :: _, hlen, _ => absurd hlen (by simp)
  | _ :: _, [], hlen, _ => absurd hlen (by simp)

variable {s : Scatter} {taken : List (List Row)} {rs : List Row}

/-- **Every step keeps the invariant.** -/
theorem ScatterInv.step (h : ScatterInv isPrimary entries s taken rs)
    (hsorted : ∀ i < entries.length, (streamOf isPrimary entries i).Pairwise
      fun a b => compareKey isPrimary a b ≤ 0) (a : Sched) :
    ∃ taken' rs', ScatterInv isPrimary entries (s.step isPrimary a) taken' rs' := by
  cases a with
  | produce i => exact ⟨taken, rs, h.produce i⟩
  | gather =>
    cases hf : s.gather.finished
    · cases hs : s.gather.isSorted
      · exact ⟨taken, rs, h.gather_sort hf hs⟩
      · exact h.gather_pick hsorted hf hs
    · -- a finished gather does nothing
      rw [Scatter.step_gather, gatherRound_of_finished hf]
      exact ⟨taken, rs, h⟩

/-- **Every run keeps the invariant**, by induction on the schedule. -/
theorem ScatterInv.run (hsorted : ∀ i < entries.length, (streamOf isPrimary entries i).Pairwise
      fun a b => compareKey isPrimary a b ≤ 0) :
    ∀ (sched : List Sched) (s : Scatter) (taken : List (List Row)) (rs : List Row),
      ScatterInv isPrimary entries s taken rs →
      ∃ taken' rs', ScatterInv isPrimary entries (s.run isPrimary sched) taken' rs'
  | [], _, taken, rs, h => ⟨taken, rs, h⟩
  | a :: sched, _, _, _, h => by
    obtain ⟨taken', rs', h'⟩ := h.step hsorted a
    exact ScatterInv.run hsorted sched _ taken' rs' h'

section Output

variable {queues : List Queue} {pending : List (List Row)} {out : List Bytes}

/-- The rows taken from each partition are a prefix of its stream. -/
theorem PartsInv.taken_sublist (h : PartsInv isPrimary entries queues pending out taken rs) :
    taken.flatten.Sublist (entries.map fun es => es.map (entryRow isPrimary)).flatten := by
  refine flatten_sublist_of_getD _ _ (by simp [h.length_taken]) fun i hi => ?_
  rw [getD_streams]
  have hpart := h.part i (h.length_taken ▸ hi)
  rw [hpart.take_eq]
  exact List.take_sublist _ _

/-- The rows passed on are the entries' rows of the keys passed on. -/
theorem PartsInv.out_rows (h : PartsInv isPrimary entries queues pending out taken rs) :
    out.map (entryRow isPrimary) = rs := by
  rw [h.out_eq, List.map_map]
  refine List.map_congr_left (fun r hr => ?_) |>.trans (List.map_id rs)
  obtain ⟨e, -, rfl⟩ : ∃ e ∈ entries.flatten, entryRow isPrimary e = r := by
    have hmem := h.taken_sublist.subset (h.perm.subset hr)
    rw [← List.map_flatten] at hmem
    exact List.mem_map.mp hmem
  rfl

/-- The keys passed on are keys of the entries, each at most as often. -/
theorem PartsInv.out_subperm (h : PartsInv isPrimary entries queues pending out taken rs) :
    out.Subperm entries.flatten := by
  have hsub := h.taken_sublist.map Row.key
  rw [← List.map_flatten, List.map_map] at hsub
  rw [h.out_eq]
  refine ⟨_, (h.perm.map Row.key).symm, ?_⟩
  simpa [Function.comp_def, key_entryRow] using hsub

/-- Once every partition has given all its rows, the keys passed on are all the entries. -/
theorem PartsInv.out_perm (h : PartsInv isPrimary entries queues pending out taken rs)
    (hdone : ∀ i < entries.length, taken.getD i [] = streamOf isPrimary entries i) :
    out.Perm entries.flatten := by
  have htaken : taken = entries.map fun es => es.map (entryRow isPrimary) := by
    refine List.ext_getElem (by simp [h.length_taken]) fun i h₁ h₂ => ?_
    rw [← List.getD_eq_getElem _ [] h₁, ← List.getD_eq_getElem _ [] h₂, getD_streams]
    exact hdone i (h.length_taken ▸ h₁)
  have hperm := h.perm.map Row.key
  rw [htaken, ← List.map_flatten, List.map_map, ← h.out_eq] at hperm
  simpa [Function.comp_def, key_entryRow] using hperm

end Output

end Runs

/-- **A scatter scan passes on the keys in order, whatever order its goroutines run in.** For
partitions that each return their entries in key order, after any interleaving of the
producers' `Enqueue`s and the rounds of `gather`, the keys passed to the callback are in key
order, are keys the partitions returned (each at most as often), and once `gather` is
finished are all of them. -/
theorem scatter_gather_sorted (isPrimary : Bool) {size : Nat} (hsize : 0 < size)
    (entries : List (List Bytes))
    (hsorted : ∀ es ∈ entries, (es.map (entryRow isPrimary)).Pairwise
      fun a b => compareKey isPrimary a b ≤ 0)
    (sched : List Sched) :
    let g := ((Scatter.init isPrimary size entries).run isPrimary sched).gather
    g.out.Pairwise (fun a b => compareKey isPrimary (entryRow isPrimary a) (entryRow isPrimary b) ≤ 0) ∧
      g.out.Subperm entries.flatten ∧ (g.finished = true → g.out.Perm entries.flatten) := by
  intro g
  obtain ⟨taken, rs, h⟩ := ScatterInv.run (streamOf_pairwise hsorted) sched _ _ _
    (scatterInv_init isPrimary hsize entries)
  refine ⟨?_, h.parts.out_subperm, fun hf => h.parts.out_perm (h.done hf)⟩
  have hrs := h.sorted
  rw [← h.parts.out_rows, List.pairwise_map] at hrs
  exact hrs

/-- Two partitions and queues of one row, run round robin: the keys come out merged, and the
scan finishes. -/
theorem scatter_gather_sorted_twoSlices :
    let g := ((Scatter.init true 1 [[[1], [3]], [[2]]]).run true
      (List.replicate 6 [Sched.produce 0, .produce 1, .gather]).flatten).gather
    g.out = [[1], [2], [3]] ∧ g.finished = true ∧
      g.out.Pairwise (fun a b => compareKey true (entryRow true a) (entryRow true b) ≤ 0) ∧
      g.out.Subperm [[1], [3], [2]] ∧ (g.finished = true → g.out.Perm [[1], [3], [2]]) :=
  ⟨by decide, by decide, scatter_gather_sorted true (by decide) [[[1], [3]], [[2]]] (by decide) _⟩

end Indexer
