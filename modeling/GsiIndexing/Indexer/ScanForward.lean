import GsiIndexing.Indexer.ScanScatterLive

/-!
# The unsorted gather of a scatter scan (`forward`)

For a request that is not `Sorted`, `scanMultiple` runs `forward` in place of `gather`: each
round walks over the partitions in turn, counts the queues whose head is the last row, and
passes the head row of every other queue that holds one to the callback. It returns once every
queue holds its last row, and otherwise goes on, waiting for a notification where it found no
row (`found`), which changes nothing here.

* **`PartsInv.forward_pass`**: a pass keeps the bookkeeping of the partitions.
* **`forward_each_once`**: over every schedule, the keys passed on are keys of the entries,
  each at most as often, and all of them once `forward` has returned.
* **`forward_finishes`**: after any schedule, `N + 2` fair rounds end the scan.
-/

namespace Indexer

open Go

/-- What `forward`'s loop over the partitions carries from one partition to the next. -/
structure ForwardPass where
  queues : List Queue
  rows : List Row
  out : List Bytes
  count : Nat
  found : Bool

/-- The loop of a round of `forward` over the partitions `is`: a queue whose head is its last
row is counted, and the head row of any other queue holding one goes to the callback. -/
def forwardPass : List Nat → ForwardPass → ForwardPass
  | [], p => p
  | i :: is, p =>
    match (p.queues.getD i default).peek with
    | none => forwardPass is p
    | some r =>
      if r.last then forwardPass is { p with rows := p.rows.set i r, count := p.count + 1 }
      else
        match (p.queues.getD i default).dequeue with
        | none => forwardPass is { p with rows := p.rows.set i r, found := true }
        | some (row, q) =>
          forwardPass is
            { p with
              queues := p.queues.set i q
              rows := (p.rows.set i r).set i row
              out := p.out ++ [row.key]
              found := true }

/-- A round of `forward`: a pass over every partition; `forward` returns when it counted a last
row in every queue. -/
def forwardRound (queues : List Queue) (g : Gather) : List Queue × Gather :=
  if g.finished then (queues, g)
  else
    let p := forwardPass (List.range queues.length) ⟨queues, g.buffers.rows, g.out, 0, false⟩
    (p.queues,
      { g with
        buffers := { g.buffers with rows := p.rows }
        out := p.out
        finished := p.count == queues.length })

/-- A step of an unsorted scan: a producer's, as in `Scatter.step`, or a round of `forward`. -/
def Scatter.stepForward (isPrimary : Bool) (s : Scatter) : Sched → Scatter
  | .produce i => s.step isPrimary (.produce i)
  | .gather =>
    match forwardRound s.queues s.gather with
    | (queues, g) => { s with queues := queues, gather := g }

/-- The unsorted scan after the steps of a schedule. -/
def Scatter.runForward (isPrimary : Bool) (s : Scatter) (sched : List Sched) : Scatter :=
  sched.foldl (Scatter.stepForward isPrimary) s

/-! ## §1 — a pass

One visit of the pass does one of four things; each lemma below is an induction over the
partitions visited, with one case for each. -/

section Pass

variable {isPrimary : Bool} {entries : List (List Bytes)} {pending : List (List Row)}

/-- **What one visit does**: nothing to an empty queue; counts a last row; finds a row it
cannot dequeue; or passes the head row on. -/
theorem forwardPass_cons_cases (i : Nat) (is : List Nat) (p : ForwardPass) :
    ((p.queues.getD i default).peek = none ∧ forwardPass (i :: is) p = forwardPass is p) ∨
    (∃ r, (p.queues.getD i default).peek = some r ∧ r.last = true ∧
      forwardPass (i :: is) p =
        forwardPass is { p with rows := p.rows.set i r, count := p.count + 1 }) ∨
    (∃ r, (p.queues.getD i default).peek = some r ∧ r.last = false ∧
      (p.queues.getD i default).dequeue = none ∧
      forwardPass (i :: is) p = forwardPass is { p with rows := p.rows.set i r, found := true }) ∨
    (∃ r row q, (p.queues.getD i default).peek = some r ∧ r.last = false ∧
      (p.queues.getD i default).dequeue = some (row, q) ∧
      forwardPass (i :: is) p = forwardPass is
        { p with
          queues := p.queues.set i q
          rows := (p.rows.set i r).set i row
          out := p.out ++ [row.key]
          found := true }) := by
  cases hpk : (p.queues.getD i default).peek with
  | none => exact Or.inl ⟨rfl, by rw [forwardPass, hpk]⟩
  | some r =>
    cases hl : r.last
    · cases hd : (p.queues.getD i default).dequeue with
      | none =>
        refine Or.inr (Or.inr (Or.inl ⟨r, rfl, hl, rfl, ?_⟩))
        rw [forwardPass, hpk]
        simp only [hl, hd, Bool.false_eq_true, ↓reduceIte]
      | some e =>
        obtain ⟨row, q⟩ := e
        refine Or.inr (Or.inr (Or.inr ⟨r, row, q, rfl, hl, rfl, ?_⟩))
        rw [forwardPass, hpk]
        simp only [hl, hd, Bool.false_eq_true, ↓reduceIte]
    · refine Or.inr (Or.inl ⟨r, rfl, hl, ?_⟩)
      rw [forwardPass, hpk]
      simp only [hl, ↓reduceIte]

theorem Queue.Ok.peek_of_dequeue {q q' : Queue} {row : Row} (hq : q.Ok)
    (hd : q.dequeue = some (row, q')) : q.peek = some row := by
  rw [hq.peek_eq, (hq.dequeue hd).2.1]
  rfl

/-- **A pass keeps the bookkeeping of the partitions**, for the rows taken by its end. -/
theorem PartsInv.forward_pass :
    ∀ (is : List Nat) (p : ForwardPass) (taken : List (List Row)) (rs : List Row),
      PartsInv isPrimary entries p.queues pending p.out taken rs →
      ∃ taken' rs', PartsInv isPrimary entries (forwardPass is p).queues pending
        (forwardPass is p).out taken' rs'
  | [], _, taken, rs, h => ⟨taken, rs, h⟩
  | i :: is, p, taken, rs, h => by
    rcases forwardPass_cons_cases i is p with ⟨-, heq⟩ | ⟨r, -, -, heq⟩ | ⟨r, -, -, -, heq⟩ |
      ⟨r, row, q, hpk, hl, hd, heq⟩ <;> rw [heq]
    · exact PartsInv.forward_pass is _ taken rs h
    · exact PartsInv.forward_pass is _ taken rs h
    · exact PartsInv.forward_pass is _ taken rs h
    · -- the row dequeued is the row peeked, not a last row
      have hi : i < entries.length := by
        rw [← h.length_queues]
        exact lt_length_of_peek (by rw [hpk]; rfl)
      have hrow : r = row := by
        have := (h.part i hi).ok.peek_of_dequeue hd
        rw [hpk] at this
        exact Option.some.inj this
      rw [hrow] at hl
      exact PartsInv.forward_pass is _ _ _ (h.take hi hd hl).1

/-- A pass counts one queue at most for each partition it visits. -/
theorem forwardPass_count_le : ∀ (is : List Nat) (p : ForwardPass),
    (forwardPass is p).count ≤ p.count + is.length
  | [], _ => Nat.le_refl _
  | i :: is, p => by
    rw [List.length_cons]
    rcases forwardPass_cons_cases i is p with ⟨-, heq⟩ | ⟨r, -, -, heq⟩ | ⟨r, -, -, -, heq⟩ |
      ⟨r, row, q, -, -, -, heq⟩ <;> rw [heq]
    · have := forwardPass_count_le is p
      omega
    · have := forwardPass_count_le is { p with rows := p.rows.set i r, count := p.count + 1 }
      simp only at this
      omega
    · have := forwardPass_count_le is { p with rows := p.rows.set i r, found := true }
      simp only at this
      omega
    · have := forwardPass_count_le is
        { p with
          queues := p.queues.set i q
          rows := (p.rows.set i r).set i row
          out := p.out ++ [row.key]
          found := true }
      simp only at this
      omega

/-- **A pass that counts every partition it visits** found each one's queue holding its last
row, and took nothing. -/
theorem forwardPass_of_count : ∀ (is : List Nat) (p : ForwardPass),
    (forwardPass is p).count = p.count + is.length →
      (forwardPass is p).queues = p.queues ∧ (forwardPass is p).out = p.out ∧
        ∀ i ∈ is, ∃ r, (p.queues.getD i default).peek = some r ∧ r.last = true
  | [], _, _ => ⟨rfl, rfl, by simp⟩
  | i :: is, p, hcount => by
    rw [List.length_cons] at hcount
    rcases forwardPass_cons_cases i is p with ⟨-, heq⟩ | ⟨r, hpk, hl, heq⟩ | ⟨r, -, -, -, heq⟩ |
      ⟨r, row, q, -, -, -, heq⟩ <;> rw [heq] at hcount ⊢
    · -- an empty queue is not counted
      have := forwardPass_count_le is p
      omega
    · have hrest := forwardPass_of_count is { p with rows := p.rows.set i r, count := p.count + 1 }
      simp only at hrest
      obtain ⟨hq, hout, hall⟩ := hrest (by omega)
      refine ⟨hq, hout, fun j hj => ?_⟩
      rcases List.mem_cons.mp hj with rfl | hj
      · exact ⟨r, hpk, hl⟩
      · exact hall j hj
    · -- nor is a row that is not a last row
      have := forwardPass_count_le is { p with rows := p.rows.set i r, found := true }
      simp only at this
      omega
    · have := forwardPass_count_le is
        { p with
          queues := p.queues.set i q
          rows := (p.rows.set i r).set i row
          out := p.out ++ [row.key]
          found := true }
      simp only at this
      omega

/-- **A pass over partitions whose queues all hold a row** counts or passes on one row for each
of them. -/
theorem forwardPass_progress : ∀ (is : List Nat) (p : ForwardPass), is.Nodup →
    (∀ i ∈ is, ((p.queues.getD i default).peek).isSome) →
    (forwardPass is p).count + (forwardPass is p).out.length = p.count + p.out.length + is.length
  | [], _, _, _ => rfl
  | i :: is, p, hnd, hall => by
    rw [List.nodup_cons] at hnd
    have hrest : ∀ j ∈ is, ((p.queues.getD j default).peek).isSome :=
      fun j hj => hall j (List.mem_cons_of_mem i hj)
    rw [List.length_cons]
    rcases forwardPass_cons_cases i is p with ⟨hpk, -⟩ | ⟨r, -, -, heq⟩ | ⟨r, -, -, hd, -⟩ |
      ⟨r, row, q, -, -, -, heq⟩
    · -- every queue holds a row
      have := hall i List.mem_cons_self
      rw [hpk] at this
      cases this
    · rw [heq]
      have := forwardPass_progress is { p with rows := p.rows.set i r, count := p.count + 1 }
        hnd.2 hrest
      simp only at this
      omega
    · -- and gives it up
      have := Queue.isSome_dequeue (hall i List.mem_cons_self)
      rw [hd] at this
      cases this
    · rw [heq]
      -- the queues after `i` are not the one dequeued from
      have hrest' : ∀ j ∈ is, (((p.queues.set i q).getD j default).peek).isSome := by
        intro j hj
        have hij : i ≠ j := fun hij => hnd.1 (hij ▸ hj)
        rw [getD_set_of_ne hij]
        exact hrest j hj
      have := forwardPass_progress is
        { p with
          queues := p.queues.set i q
          rows := (p.rows.set i r).set i row
          out := p.out ++ [row.key]
          found := true } hnd.2 hrest'
      simp only [List.length_append, List.length_singleton] at this
      omega

end Pass

/-! ## §2 — every run

The invariant of an unsorted scan is the bookkeeping of the partitions, and every row given
once `forward` has returned: a round that returns counted a last row at the head of every
queue, and so took nothing. -/

/-- The invariant of an unsorted scan, with the rows taken from each partition (`taken`) and
those passed on (`rs`). -/
structure ForwardInv (isPrimary : Bool) (entries : List (List Bytes)) (s : Scatter)
    (taken : List (List Row)) (rs : List Row) : Prop where
  parts : PartsInv isPrimary entries s.queues s.pending s.gather.out taken rs
  done : s.gather.finished = true →
    ∀ i < entries.length, taken.getD i [] = streamOf isPrimary entries i

section Runs

variable {isPrimary : Bool} {entries : List (List Bytes)} {s : Scatter}
  {taken : List (List Row)} {rs : List Row}

theorem forwardInv_init (isPrimary : Bool) {size : Nat} (hsize : 0 < size)
    (entries : List (List Bytes)) :
    ForwardInv isPrimary entries (Scatter.init isPrimary size entries)
      (List.replicate entries.length []) [] :=
  ⟨(scatterInv_init isPrimary hsize entries).parts, (scatterInv_init isPrimary hsize entries).done⟩

theorem Scatter.stepForward_gather (isPrimary : Bool) (s : Scatter) :
    s.stepForward isPrimary .gather =
      { s with queues := (forwardRound s.queues s.gather).1,
               gather := (forwardRound s.queues s.gather).2 } := rfl

theorem forwardRound_of_finished {queues : List Queue} {g : Gather} (hf : g.finished = true) :
    forwardRound queues g = (queues, g) := by
  simp [forwardRound, hf]

theorem ForwardInv.produce (h : ForwardInv isPrimary entries s taken rs) (i : Nat) :
    ForwardInv isPrimary entries (s.stepForward isPrimary (.produce i)) taken rs := by
  have hg := Scatter.step_produce_gather isPrimary s i
  refine ⟨?_, ?_⟩
  · show PartsInv isPrimary entries (s.step isPrimary (.produce i)).queues
      (s.step isPrimary (.produce i)).pending (s.step isPrimary (.produce i)).gather.out taken rs
    rw [hg]
    exact (h.parts.produce i).1
  · show (s.step isPrimary (.produce i)).gather.finished = true → _
    rw [hg]
    exact h.done

/-- **A round of `forward`** keeps the invariant, for the rows taken by its end. -/
theorem ForwardInv.forward_round (h : ForwardInv isPrimary entries s taken rs) :
    ∃ taken' rs', ForwardInv isPrimary entries (s.stepForward isPrimary .gather) taken' rs' := by
  rw [Scatter.stepForward_gather]
  cases hf : s.gather.finished
  · obtain ⟨taken', rs', h'⟩ := h.parts.forward_pass (List.range s.queues.length)
      ⟨s.queues, s.gather.buffers.rows, s.gather.out, 0, false⟩ taken rs
    simp only [forwardRound, hf, Bool.false_eq_true, ↓reduceIte]
    refine ⟨taken', rs', h', fun hfin i hi => ?_⟩
    simp only [beq_iff_eq] at hfin
    -- a round that returns counted a last row in every queue, and took nothing
    obtain ⟨hq, -, hlast⟩ := forwardPass_of_count (List.range s.queues.length)
      ⟨s.queues, s.gather.buffers.rows, s.gather.out, 0, false⟩
      (by rw [hfin, List.length_range]; exact (Nat.zero_add _).symm)
    have hall : AllPeek s.queues := by
      intro x hx
      obtain ⟨r, hpk, -⟩ := hlast x (List.mem_range.mpr hx)
      rw [hpk]
      rfl
    have hheads : ∀ x < s.queues.length, (headRow s.queues x).last = true := by
      intro x hx
      obtain ⟨r, hpk, hl⟩ := hlast x (List.mem_range.mpr hx)
      rw [headRow, hpk]
      exact hl
    rw [hq] at h'
    exact h'.taken_eq_of_last hall hheads i hi
  · rw [forwardRound_of_finished hf]
    exact ⟨taken, rs, h⟩

theorem ForwardInv.step (h : ForwardInv isPrimary entries s taken rs) (a : Sched) :
    ∃ taken' rs', ForwardInv isPrimary entries (s.stepForward isPrimary a) taken' rs' := by
  cases a with
  | produce i => exact ⟨taken, rs, h.produce i⟩
  | gather => exact h.forward_round

/-- **Every run of an unsorted scan keeps the invariant**, by induction on the schedule. -/
theorem ForwardInv.run :
    ∀ (sched : List Sched) (s : Scatter) (taken : List (List Row)) (rs : List Row),
      ForwardInv isPrimary entries s taken rs →
      ∃ taken' rs', ForwardInv isPrimary entries (s.runForward isPrimary sched) taken' rs'
  | [], _, taken, rs, h => ⟨taken, rs, h⟩
  | a :: sched, _, _, _, h => by
    obtain ⟨taken', rs', h'⟩ := h.step a
    exact ForwardInv.run sched _ taken' rs' h'

end Runs

/-! ## §3 — fair rounds

A round of `forward` after every producer has taken a step finds every queue holding a row, so
it counts a last row or passes a row on for each partition: it returns, or passes one row on at
least. -/

section Rounds

variable {isPrimary : Bool} {entries : List (List Bytes)}

theorem Scatter.runForward_append (isPrimary : Bool) (s : Scatter) (a b : List Sched) :
    s.runForward isPrimary (a ++ b) = (s.runForward isPrimary a).runForward isPrimary b :=
  List.foldl_append

/-- The producers' steps are those of the sorted scan. -/
theorem Scatter.runForward_produce (isPrimary : Bool) :
    ∀ (ps : List Nat) (s : Scatter),
      s.runForward isPrimary (ps.map .produce) = s.run isPrimary (ps.map .produce)
  | [], _ => rfl
  | i :: ps, s => Scatter.runForward_produce isPrimary ps (s.step isPrimary (.produce i))

theorem Scatter.finished_runForward (isPrimary : Bool) :
    ∀ (sched : List Sched) (s : Scatter), s.gather.finished = true →
      (s.runForward isPrimary sched).gather.finished = true
  | [], _, hf => hf
  | a :: sched, s, hf => by
    -- a finished `forward` does nothing
    have hg : (s.stepForward isPrimary a).gather = s.gather := by
      cases a with
      | produce i => exact Scatter.step_produce_gather isPrimary s i
      | gather => rw [Scatter.stepForward_gather, forwardRound_of_finished hf]
    exact Scatter.finished_runForward isPrimary sched _ (by rw [hg]; exact hf)

/-- **A round of `forward` with every queue holding a row lowers the work left**: it counts a
last row in every queue and returns, or passes a row on. -/
theorem ForwardInv.work_forward_lt {s : Scatter} {taken : List (List Row)} {rs : List Row}
    (h : ForwardInv isPrimary entries s taken rs) (hall : AllPeek s.queues)
    (hf : s.gather.finished = false) :
    (s.stepForward isPrimary .gather).work entries.flatten.length < s.work entries.flatten.length := by
  -- the keys passed on after the round are still among the entries
  obtain ⟨_, _, h'⟩ := h.forward_round
  have hbound := h'.parts.out_subperm.length_le
  have hprog := forwardPass_progress (List.range s.queues.length)
    ⟨s.queues, s.gather.buffers.rows, s.gather.out, 0, false⟩ List.nodup_range
    fun i hi => hall i (List.mem_range.mp hi)
  have hle := forwardPass_count_le (List.range s.queues.length)
    ⟨s.queues, s.gather.buffers.rows, s.gather.out, 0, false⟩
  rw [Scatter.stepForward_gather] at hbound ⊢
  simp only [forwardRound, hf, Bool.false_eq_true, ↓reduceIte] at hbound ⊢
  generalize forwardPass (List.range s.queues.length)
    ⟨s.queues, s.gather.buffers.rows, s.gather.out, 0, false⟩ = P at hbound hprog hle ⊢
  simp only [List.length_range] at hprog hle
  simp only [Scatter.work, hf, Bool.false_eq_true, ↓reduceIte]
  by_cases hc : P.count = s.queues.length
  · -- every queue held its last row: `forward` returns
    simp only [hc, beq_self_eq_true, ↓reduceIte]
    split_ifs <;> omega
  · -- a row was passed on
    have hc' : (P.count == s.queues.length) = false := by simpa using hc
    simp only [hc', Bool.false_eq_true, ↓reduceIte]
    split_ifs <;> omega

/-- **A fair round lowers the work left** of a `forward` that has not returned. -/
theorem ForwardInv.work_fair_round_lt {s : Scatter} {taken : List (List Row)} {rs : List Row}
    (h : ForwardInv isPrimary entries s taken rs) {ps : List Nat}
    (hps : ∀ i < entries.length, i ∈ ps) (hf : s.gather.finished = false) :
    (s.runForward isPrimary (fairRound ps)).work entries.flatten.length <
      s.work entries.flatten.length := by
  obtain ⟨hg, hpeek⟩ := h.parts.producers ps
  obtain ⟨_, _, h₁⟩ := ForwardInv.run (ps.map .produce) s taken rs h
  rw [Scatter.runForward_produce] at h₁
  rw [fairRound, Scatter.runForward_append, Scatter.runForward_produce]
  have hall : AllPeek (s.run isPrimary (ps.map .produce)).queues := by
    intro x hx
    rw [h₁.parts.length_queues] at hx
    exact hpeek x hx (Or.inl (hps x hx))
  -- the producers leave `forward`, and so the work left, as it was
  have hwork : (s.run isPrimary (ps.map .produce)).work entries.flatten.length =
      s.work entries.flatten.length := by
    unfold Scatter.work
    rw [hg]
  rw [← hwork]
  exact h₁.work_forward_lt hall (hg ▸ hf)

theorem ForwardInv.lowers {ps : List Nat} (hps : ∀ i < entries.length, i ∈ ps) :
    Progress.Lowers (fun s => ∃ taken rs, ForwardInv isPrimary entries s taken rs)
      (fun s => s.gather.finished = true) (Scatter.work entries.flatten.length)
      (fun s => s.runForward isPrimary (fairRound ps)) where
  keeps_inv := fun _ ⟨taken, rs, h⟩ => ForwardInv.run (fairRound ps) _ taken rs h
  keeps_done := fun s _ hf => Scatter.finished_runForward isPrimary (fairRound ps) s hf
  lowers := fun _ ⟨_, _, h⟩ hf => h.work_fair_round_lt hps (Bool.eq_false_iff.mpr hf)

theorem Scatter.runForward_fairRounds (isPrimary : Bool) :
    ∀ (rounds : List (List Nat)) (s : Scatter),
      s.runForward isPrimary (rounds.map fairRound).flatten =
        Progress.runRounds (rounds.map fun ps s => s.runForward isPrimary (fairRound ps)) s
  | [], _ => rfl
  | ps :: rounds, s => by
    rw [List.map_cons, List.flatten_cons, Scatter.runForward_append, List.map_cons,
      Progress.runRounds_cons]
    exact Scatter.runForward_fairRounds isPrimary rounds _

end Rounds

/-- **An unsorted scatter scan passes on each entry once, whatever order its goroutines run
in.** After any interleaving of the producers' `Enqueue`s and the rounds of `forward`, the
keys passed to the callback are keys the partitions returned, each at most as often, and
once `forward` has returned they are all of them. -/
theorem forward_each_once (isPrimary : Bool) {size : Nat} (hsize : 0 < size)
    (entries : List (List Bytes)) (sched : List Sched) :
    let g := ((Scatter.init isPrimary size entries).runForward isPrimary sched).gather
    g.out.Subperm entries.flatten ∧ (g.finished = true → g.out.Perm entries.flatten) := by
  intro g
  obtain ⟨taken, rs, h⟩ := ForwardInv.run sched _ _ _ (forwardInv_init isPrimary hsize entries)
  exact ⟨h.parts.out_subperm, fun hf => h.parts.out_perm (h.done hf)⟩

/-- Two partitions and queues of one row, run round robin: the keys come out in the order
the rows arrive, and the scan finishes. -/
theorem forward_each_once_twoSlices :
    let g := ((Scatter.init false 1 [[[1], [3]], [[2]]]).runForward false
      (List.replicate 4 [Sched.produce 0, .produce 1, .gather]).flatten).gather
    g.out = [[1], [2], [3]] ∧ g.finished = true ∧
      g.out.Subperm [[1], [3], [2]] ∧ (g.finished = true → g.out.Perm [[1], [3], [2]]) :=
  ⟨by decide, by decide, forward_each_once false (by decide) [[[1], [3]], [[2]]] _⟩

/-- **An unsorted scatter scan finishes under fair schedules.** After any schedule, `N + 2`
rounds in each of which every producer takes a step before `forward` takes one, `N` being the
number of entries, end the scan, and the keys passed on are then all the entries. -/
theorem forward_finishes (isPrimary : Bool) {size : Nat} (hsize : 0 < size)
    (entries : List (List Bytes)) (pre : List Sched) (rounds : List (List Nat))
    (hfair : ∀ ps ∈ rounds, ∀ i < entries.length, i ∈ ps)
    (hlong : entries.flatten.length + 2 ≤ rounds.length) :
    let g := ((Scatter.init isPrimary size entries).runForward isPrimary
      (pre ++ (rounds.map fairRound).flatten)).gather
    g.finished = true ∧ g.out.Perm entries.flatten := by
  intro g
  obtain ⟨taken, rs, h⟩ := ForwardInv.run pre _ _ _ (forwardInv_init isPrimary hsize entries)
  obtain ⟨taken', rs', h'⟩ := ForwardInv.run ((rounds.map fairRound).flatten) _ _ _ h
  rw [← Scatter.runForward_append] at h'
  have hfin : g.finished = true := by
    show ((Scatter.init isPrimary size entries).runForward isPrimary
      (pre ++ (rounds.map fairRound).flatten)).gather.finished = true
    rw [Scatter.runForward_append, Scatter.runForward_fairRounds]
    refine @Progress.done_of_lowers _ (fun s => ∃ taken rs, ForwardInv isPrimary entries s taken rs)
      (fun s => s.gather.finished = true) (Scatter.work entries.flatten.length) ?_ _ _ ?_
      ⟨taken, rs, h⟩ ?_
    · -- a `forward` that has not returned has work left
      intro s _ hnf
      unfold Scatter.work
      rw [if_neg hnf]
      omega
    · intro f hf
      obtain ⟨ps, hps, rfl⟩ := List.mem_map.mp hf
      exact ForwardInv.lowers (hfair ps hps)
    · rw [List.length_map]
      refine le_trans ?_ hlong
      unfold Scatter.work
      split_ifs <;> omega
  exact ⟨hfin, h'.parts.out_perm (h'.done hfin)⟩

/-- Two partitions, queues of one row, a schedule that starts with `forward`, then five fair
rounds. -/
theorem forward_finishes_twoSlices :
    let g := ((Scatter.init false 1 [[[1], [3]], [[2]]]).runForward false
      ([.gather, .produce 1] ++ ((List.replicate 5 [0, 1]).map fairRound).flatten)).gather
    g.finished = true ∧ g.out.Perm [[1], [3], [2]] :=
  forward_finishes false (by decide) [[[1], [3]], [[2]]] _ _ (by decide) (by decide)

end Indexer
