import GsiIndexing.Indexer.ScanScatterRuns
import GsiIndexing.Lib.Progress

/-!
# A scatter scan finishes (`gather` under fair schedules)

`gather` waits: a round in which the front queue is empty, or the sort finds a queue empty,
changes nothing but the buffers. A round that comes after every producer has taken a step since
the last one finds every queue holding a row, as a producer's step leaves a row in its queue
(the last row of a partition is never dequeued). Such a round makes progress: the sort
succeeds, or the pick takes a row or finds every partition done. The work left, the keys not
yet passed on and the two phases not yet ended, bounds the number of such rounds.

* **`PartsInv.peek_produce_self`, `PartsInv.producers`**: after its step, a producer's queue
  holds a row, and the queues that held one keep it.
* **`ScatterInv.work_gather_lt`**: a round of the gather with every queue holding a row lowers
  the work left; so a fair round does (`ScatterInv.lowers`), and the library's
  `Progress.done_of_lowers` counts the rounds.
* **`scatter_gather_finishes`**: after any schedule, `N + 2` fair rounds finish the scan, `N`
  being the number of entries.

The scan needs a partition: with none, `scan_pick` reads `sorted[0]` out of range (here it
finds no row and waits for ever). `scatter` calls `scanMultiple` for two slices or more.
-/

namespace Indexer

open Go

/-- A round of a fair schedule: the producers `ps`, one step each, then a round of the
gather. -/
def fairRound (ps : List Nat) : List Sched := ps.map .produce ++ [.gather]

/-- The work the gather has left: of `n` keys those not yet passed on, and each phase not yet
ended. -/
def Scatter.work (n : Nat) (s : Scatter) : Nat :=
  (n - s.gather.out.length) + (if s.gather.isSorted then 0 else 1) +
    (if s.gather.finished then 0 else 1)

theorem Scatter.run_append (isPrimary : Bool) (s : Scatter) (a b : List Sched) :
    s.run isPrimary (a ++ b) = (s.run isPrimary a).run isPrimary b :=
  List.foldl_append

/-! ## §1 — the producers -/

section Producers

variable {isPrimary : Bool} {entries : List (List Bytes)} {s : Scatter} {out : List Bytes}
  {taken : List (List Row)} {rs : List Row}

theorem Queue.Ok.peek_isSome {q : Queue} (hq : q.Ok) (h : q.contents ≠ []) : q.peek.isSome := by
  rw [hq.peek_eq]
  cases hc : q.contents with
  | nil => exact absurd hc h
  | cons c cs => rfl

/-- **After its step, a producer's queue holds a row**: the row it enqueued, or the rows of a
full queue, or, with all its rows enqueued, at least its last row. -/
theorem PartsInv.peek_produce_self (h : PartsInv isPrimary entries s.queues s.pending out taken rs)
    {i : Nat}
    (hi : i < entries.length) :
    (((s.step isPrimary (.produce i)).queues.getD i default).peek).isSome := by
  have hpart := h.part i hi
  rcases Scatter.step_produce_cases isPrimary s i with ⟨hp, hstep⟩ | ⟨r, rest, hp, he, hstep⟩ |
    ⟨r, rest, q, hp, he, hstep⟩
  · rw [hp] at hpart
    rw [hstep]
    exact hpart.ok.peek_isSome hpart.contents_ne_nil
  · -- a full queue
    have hfull := Queue.enqueue_eq_none_iff.mp he
    have hpos := hpart.ok.size_pos
    rw [hstep, Option.isSome_iff_ne_none, Ne, Queue.peek_eq_none_iff]
    omega
  · rw [hp] at hpart
    obtain ⟨hq, hcont, -⟩ := hpart.ok.enqueue he
    rw [hstep]
    show ((s.queues.set i q).getD i default).peek.isSome
    rw [getD_set_self (by rw [h.length_queues]; exact hi)]
    exact hq.peek_isSome (by simp [hcont])

/-- **The producers' steps.** After each producer of `ps` takes a step, the gather is where it
was, and the queue of every producer of `ps`, and every queue that held a row, holds one. -/
theorem PartsInv.producers :
    ∀ (ps : List Nat) {s : Scatter}, PartsInv isPrimary entries s.queues s.pending out taken rs →
      (s.run isPrimary (ps.map .produce)).gather = s.gather ∧
      ∀ x < entries.length, (x ∈ ps ∨ ((s.queues.getD x default).peek).isSome) →
        (((s.run isPrimary (ps.map .produce)).queues.getD x default).peek).isSome
  | [], _, _ => ⟨rfl, fun _ _ hx => hx.resolve_left List.not_mem_nil⟩
  | i :: ps, s, h => by
    obtain ⟨hg, hpeek⟩ := PartsInv.producers ps (h.produce i).1
    refine ⟨hg.trans (Scatter.step_produce_gather isPrimary s i), fun x hx hmem => hpeek x hx ?_⟩
    -- the queue of `x` after producer `i`'s step
    by_cases hxi : x = i
    · rw [hxi] at hx ⊢
      exact Or.inr (h.peek_produce_self hx)
    · rcases hmem with hmem | hsome
      · exact Or.inl (List.mem_of_ne_of_mem hxi hmem)
      · rw [Scatter.queue_produce_of_ne isPrimary s hxi]
        exact Or.inr hsome

end Producers

/-! ## §2 — the gather's progress -/

section Progress

variable {isPrimary : Bool} {entries : List (List Bytes)} {s : Scatter}
  {taken : List (List Row)} {rs : List Row}

/-- A finished gather stays finished, whatever runs. -/
theorem Scatter.step_of_finished (isPrimary : Bool) {s : Scatter} (hf : s.gather.finished = true)
    (a : Sched) : (s.step isPrimary a).gather = s.gather := by
  cases a with
  | produce i => exact Scatter.step_produce_gather isPrimary s i
  | gather => rw [Scatter.step_gather, gatherRound_of_finished hf]

theorem Scatter.finished_run (isPrimary : Bool) :
    ∀ (sched : List Sched) (s : Scatter), s.gather.finished = true →
      (s.run isPrimary sched).gather.finished = true
  | [], _, hf => hf
  | a :: sched, s, hf =>
    Scatter.finished_run isPrimary sched (s.step isPrimary a)
      (by rw [Scatter.step_of_finished isPrimary hf]; exact hf)

/-- **A round of the gather with every queue holding a row lowers the work left**: the sort
succeeds, or the pick finds the front queue holding a row and takes it or ends the scan. -/
theorem ScatterInv.work_gather_lt (h : ScatterInv isPrimary entries s taken rs)
    (hsorted : ∀ i < entries.length, (streamOf isPrimary entries i).Pairwise
      fun a b => compareKey isPrimary a b ≤ 0)
    (hk : 0 < entries.length) (hall : AllPeek s.queues) (hf : s.gather.finished = false) :
    (s.step isPrimary .gather).work entries.flatten.length < s.work entries.flatten.length := by
  -- the keys passed on after the round are still among the entries
  obtain ⟨_, _, h'⟩ := h.step hsorted .gather
  have hbound := h'.parts.out_subperm.length_le
  cases hs : s.gather.isSorted
  · rw [Scatter.step_gather, gatherRound_of_sort hf hs, scanSort_of_allPeek hall]
    simp [Scatter.work, hs, hf]
  · have hfront : ((s.queues.getD (s.gather.buffers.sorted.getD 0 0) default).peek).isSome := by
      have hperm := (h.pick hs hf).perm
      refine hall _ (getD_lt_of_forall (by rwa [h.length_queues]) (fun x hx => ?_) 0)
      exact List.mem_range.mp (hperm.subset hx)
    obtain ⟨-, rows', x₀, t, hpick, hperm', -, -, -⟩ := h.pick_front hf hs hfront
    by_cases hany : ((List.range s.queues.length).any fun x => !(headRow s.queues x).last) = true
    · rw [if_pos hany] at hpick
      obtain ⟨row, q, hd⟩ := dequeue_front hall hperm'
      rw [Scatter.step_gather, gatherRound_of_id hf hs hpick hd] at hbound ⊢
      -- one more key passed on
      simp only [List.length_append, List.length_singleton] at hbound
      simp only [Scatter.work, List.length_append, List.length_singleton, hs, hf]
      omega
    · rw [if_neg hany] at hpick
      rw [Scatter.step_gather, gatherRound_of_done hf hs hpick]
      simp [Scatter.work, hs, hf]

end Progress

/-! ## §3 — fair rounds

A fair round is a round of the library's progress argument: it keeps the invariant and a
finished gather, and lowers the work left of a gather that is not finished. -/

section Rounds

variable {isPrimary : Bool} {entries : List (List Bytes)}

/-- **A fair round lowers the work left** of a gather that is not finished: when the gather's
round comes, every queue holds a row. -/
theorem ScatterInv.work_fair_round_lt {s : Scatter} {taken : List (List Row)} {rs : List Row}
    (h : ScatterInv isPrimary entries s taken rs)
    (hsorted : ∀ i < entries.length, (streamOf isPrimary entries i).Pairwise
      fun a b => compareKey isPrimary a b ≤ 0)
    (hk : 0 < entries.length) {ps : List Nat} (hps : ∀ i < entries.length, i ∈ ps)
    (hf : s.gather.finished = false) :
    (s.run isPrimary (fairRound ps)).work entries.flatten.length < s.work entries.flatten.length := by
  obtain ⟨hg, hpeek⟩ := h.parts.producers ps
  obtain ⟨_, _, h₁⟩ := ScatterInv.run hsorted (ps.map .produce) s taken rs h
  rw [fairRound, Scatter.run_append]
  have hall : AllPeek (s.run isPrimary (ps.map .produce)).queues := by
    intro x hx
    rw [h₁.length_queues] at hx
    exact hpeek x hx (Or.inl (hps x hx))
  -- the producers leave the gather, and so the work left, as it was
  have hwork : (s.run isPrimary (ps.map .produce)).work entries.flatten.length =
      s.work entries.flatten.length := by
    unfold Scatter.work
    rw [hg]
  rw [← hwork]
  exact h₁.work_gather_lt hsorted hk hall (hg ▸ hf)

theorem ScatterInv.lowers
    (hsorted : ∀ i < entries.length, (streamOf isPrimary entries i).Pairwise
      fun a b => compareKey isPrimary a b ≤ 0)
    (hk : 0 < entries.length) {ps : List Nat} (hps : ∀ i < entries.length, i ∈ ps) :
    Progress.Lowers (fun s => ∃ taken rs, ScatterInv isPrimary entries s taken rs)
      (fun s => s.gather.finished = true) (Scatter.work entries.flatten.length)
      (fun s => s.run isPrimary (fairRound ps)) where
  keeps_inv := fun _ ⟨taken, rs, h⟩ => ScatterInv.run hsorted (fairRound ps) _ taken rs h
  keeps_done := fun s _ hf => Scatter.finished_run isPrimary (fairRound ps) s hf
  lowers := fun _ ⟨_, _, h⟩ hf => h.work_fair_round_lt hsorted hk hps (Bool.eq_false_iff.mpr hf)

theorem Scatter.run_fairRounds (isPrimary : Bool) :
    ∀ (rounds : List (List Nat)) (s : Scatter), s.run isPrimary (rounds.map fairRound).flatten =
      Progress.runRounds (rounds.map fun ps s => s.run isPrimary (fairRound ps)) s
  | [], _ => rfl
  | ps :: rounds, s => by
    rw [List.map_cons, List.flatten_cons, Scatter.run_append, List.map_cons,
      Progress.runRounds_cons]
    exact Scatter.run_fairRounds isPrimary rounds _

end Rounds

/-- **A scatter scan finishes under fair schedules.** For one partition at least, each returning
its entries in key order, and after any schedule, `N + 2` rounds in each of which every
producer takes a step before the gather's, `N` being the number of entries, end the scan, and
the keys passed on are then all the entries. -/
theorem scatter_gather_finishes (isPrimary : Bool) {size : Nat} (hsize : 0 < size)
    (entries : List (List Bytes)) (hk : entries ≠ [])
    (hsorted : ∀ es ∈ entries, (es.map (entryRow isPrimary)).Pairwise
      fun a b => compareKey isPrimary a b ≤ 0)
    (pre : List Sched) (rounds : List (List Nat))
    (hfair : ∀ ps ∈ rounds, ∀ i < entries.length, i ∈ ps)
    (hlong : entries.flatten.length + 2 ≤ rounds.length) :
    let g := ((Scatter.init isPrimary size entries).run isPrimary
      (pre ++ (rounds.map fairRound).flatten)).gather
    g.finished = true ∧ g.out.Perm entries.flatten := by
  intro g
  have hstreams := streamOf_pairwise hsorted
  obtain ⟨taken, rs, h⟩ := ScatterInv.run hstreams pre _ _ _
    (scatterInv_init isPrimary hsize entries)
  obtain ⟨taken', rs', h'⟩ := ScatterInv.run hstreams ((rounds.map fairRound).flatten) _ _ _ h
  rw [← Scatter.run_append] at h'
  have hfin : g.finished = true := by
    show ((Scatter.init isPrimary size entries).run isPrimary
      (pre ++ (rounds.map fairRound).flatten)).gather.finished = true
    rw [Scatter.run_append, Scatter.run_fairRounds]
    -- the work left at the start of the rounds is at most `N + 2`
    refine @Progress.done_of_lowers _ (fun s => ∃ taken rs, ScatterInv isPrimary entries s taken rs)
      (fun s => s.gather.finished = true) (Scatter.work entries.flatten.length) ?_ _ _ ?_
      ⟨taken, rs, h⟩ ?_
    · -- a gather that is not finished has work left
      intro s _ hnf
      unfold Scatter.work
      rw [if_neg hnf]
      omega
    · intro f hf
      obtain ⟨ps, hps, rfl⟩ := List.mem_map.mp hf
      exact ScatterInv.lowers hstreams (List.length_pos_iff.mpr hk) (hfair ps hps)
    · rw [List.length_map]
      refine le_trans ?_ hlong
      unfold Scatter.work
      split_ifs <;> omega
  exact ⟨hfin, h'.parts.out_perm (h'.done hfin)⟩

/-- Two partitions, queues of one row, a schedule that starts with the gather, then five fair
rounds. -/
theorem scatter_gather_finishes_twoSlices :
    let g := ((Scatter.init true 1 [[[1], [3]], [[2]]]).run true
      ([.gather, .produce 1] ++ ((List.replicate 5 [0, 1]).map fairRound).flatten)).gather
    g.finished = true ∧ g.out.Perm [[1], [3], [2]] :=
  scatter_gather_finishes true (by decide) [[[1], [3]], [[2]]] (by decide) (by decide) _ _
    (by decide) (by decide)

end Indexer
