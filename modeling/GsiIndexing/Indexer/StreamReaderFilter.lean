import GsiIndexing.Indexer.StreamReader

/-!
# What the worker's filter functions do to admission

Whether `checkAndSetKeyspaceIdFilter` lets a mutation through depends on five things of its
keyspace's entries: the filter's seqnos and vbuuids, the session id, the OSO flag and the OSO
exception. This module says, once per function of the worker, what it does to them:

* the snapshot and OSO marker updates (`updateSnapInFilter`, `updateOSOMarkerInFilter`) keep
  them, but for an OSO exception they may raise (`StreamWorker.Keeps`);
* `updateVbuuidInFilter` sets one vbuuid, under a valid opaque;
* `checkAndSetKeyspaceIdFilter` keeps them when it skips, and when it lets the mutation
  through it had a valid opaque, no exception and a vbuuid, and moves the filter to the
  mutation (`Admitted`);
* `initKeyspaceIdFilter` leaves an installed keyspace alone and installs the restart filter
  with its vbuuids at zero.

The run invariants of `Indexer/StreamReaderAdmits` use these lemmas and never unfold the
functions.
-/

namespace Indexer.StreamReader

/-! ## §1 — entries that admit alike -/

namespace KeyspaceFilter

/-- `ks'` admits what `ks` does, but for an OSO exception it may have raised. -/
structure Keeps (ks ks' : KeyspaceFilter) : Prop where
  seqnos : ks'.filter.seqnos = ks.filter.seqnos
  vbuuids : ks'.filter.vbuuids = ks.filter.vbuuids
  sessionId : ks'.sessionId = ks.sessionId
  enableOSO : ks'.enableOSO = ks.enableOSO
  osoException : ks.osoException = true → ks'.osoException = true

theorem Keeps.refl (ks : KeyspaceFilter) : ks.Keeps ks := ⟨rfl, rfl, rfl, rfl, id⟩

theorem Keeps.trans {ks₁ ks₂ ks₃ : KeyspaceFilter} (h₁ : ks₁.Keeps ks₂) (h₂ : ks₂.Keeps ks₃) :
    ks₁.Keeps ks₃ :=
  ⟨h₂.seqnos.trans h₁.seqnos, h₂.vbuuids.trans h₁.vbuuids, h₂.sessionId.trans h₁.sessionId,
    h₂.enableOSO.trans h₁.enableOSO, h₂.osoException ∘ h₁.osoException⟩

/-- Entries that differ from `ks` outside the filter's seqnos and vbuuids, the session, the OSO
flag and the exception admit alike. -/
theorem keeps_of_eq {ks ks' : KeyspaceFilter} (hseq : ks'.filter.seqnos = ks.filter.seqnos)
    (hvb : ks'.filter.vbuuids = ks.filter.vbuuids) (hsid : ks'.sessionId = ks.sessionId)
    (hoso : ks'.enableOSO = ks.enableOSO) (hexc : ks'.osoException = ks.osoException) :
    ks.Keeps ks' :=
  ⟨hseq, hvb, hsid, hoso, fun h => hexc.trans h⟩

end KeyspaceFilter

namespace StreamWorker

variable {w w' w'' : StreamWorker}

/-- Every keyspace's entries admit alike, and no keyspace comes or goes. -/
def Keeps (w w' : StreamWorker) : Prop :=
  ∀ k, Option.Rel KeyspaceFilter.Keeps (w.keyspaces k) (w'.keyspaces k)

theorem Keeps.refl (w : StreamWorker) : w.Keeps w := by
  intro k
  cases w.keyspaces k with
  | none => exact .none
  | some ks => exact .some (KeyspaceFilter.Keeps.refl ks)

theorem Keeps.trans (h₁ : w.Keeps w') (h₂ : w'.Keeps w'') : w.Keeps w'' := by
  intro k
  have h₁k := h₁ k
  have h₂k := h₂ k
  generalize w.keyspaces k = a at h₁k
  generalize w'.keyspaces k = b at h₁k h₂k
  generalize w''.keyspaces k = c at h₂k
  cases h₁k with
  | none =>
    cases h₂k with
    | none => exact .none
  | some hks =>
    cases h₂k with
    | some hks' => exact .some (hks.trans hks')

/-- An entry that `Keeps` carries over. -/
theorem Keeps.some {k : String} {ks : KeyspaceFilter} (h : w.Keeps w')
    (hks : w.keyspaces k = some ks) : ∃ ks', w'.keyspaces k = some ks' ∧ ks.Keeps ks' := by
  have hk := h k
  rw [hks] at hk
  generalize w'.keyspaces k = b at hk
  cases hk with
  | some hkeep => exact ⟨_, rfl, hkeep⟩

/-- The entries of one keyspace at `k` after `setKeyspace`. -/
@[simp] theorem setKeyspace_keyspaces (w : StreamWorker) (k : String) (ks : KeyspaceFilter)
    (k' : String) :
    (w.setKeyspace k ks).keyspaces k' = if k' = k then some ks else w.keyspaces k' := by
  unfold setKeyspace
  by_cases hk : k' = k
  · subst hk
    simp
  · simp [hk]

@[simp] theorem setKeyspace_markFirstSnap (w : StreamWorker) (k : String) (ks : KeyspaceFilter) :
    (w.setKeyspace k ks).markFirstSnap = w.markFirstSnap := rfl

theorem keeps_setKeyspace {k : String} {ks ks' : KeyspaceFilter} (h : w.keyspaces k = some ks)
    (hks : ks.Keeps ks') : w.Keeps (w.setKeyspace k ks') := by
  intro k'
  rw [setKeyspace_keyspaces]
  by_cases hk : k' = k
  · subst hk
    rw [if_pos rfl, h]
    exact .some hks
  · rw [if_neg hk]
    exact (Keeps.refl w) k'

theorem resetStream_keeps {k : String} {ks : KeyspaceFilter} (h : w.keyspaces k = some ks) :
    w.Keeps (w.resetStream k ks).1 :=
  keeps_setKeyspace h ⟨rfl, rfl, rfl, rfl, fun _ => rfl⟩

/-! ## §2 — the snapshot and OSO markers -/

/-- An OSO marker touches only the OSO filter, the first-snapshot flags, the sync flag and the
exception. -/
theorem updateOSOMarkerInFilter_keeps {m : MutationMeta} {eventType : UInt8}
    {msgs : List StreamMsg} (h : w.updateOSOMarkerInFilter m eventType = some (w', msgs)) :
    w.Keeps w' := by
  unfold updateOSOMarkerInFilter at h
  dsimp only at h
  cases hks : w.keyspaces m.keyspaceId with
  | none =>
    rw [hks] at h
    cases h
    exact Keeps.refl w
  | some ks =>
    rw [hks] at h
    dsimp only at h
    -- every branch either leaves the worker, resets the stream, or sets the OSO snapshot
    split at h
    · cases h; exact Keeps.refl w
    split at h
    · cases h; exact resetStream_keeps hks
    split at h
    · split at h
      · cases h; exact resetStream_keeps hks
      split at h
      · cases h
      split at h
      · cases h; exact resetStream_keeps hks
      · cases h; exact keeps_setKeyspace hks (KeyspaceFilter.keeps_of_eq rfl rfl rfl rfl rfl)
    split at h
    · split at h
      · cases h
      · cases h; exact keeps_setKeyspace hks (KeyspaceFilter.keeps_of_eq rfl rfl rfl rfl rfl)
    · cases h; exact Keeps.refl w

theorem setFirstSnap_keeps {markFirstSnap : Bool} {ks ks' : KeyspaceFilter} {m : MutationMeta}
    {snapStart : UInt64} (h : setFirstSnap markFirstSnap ks m snapStart = some ks') :
    ks.Keeps ks' := by
  unfold setFirstSnap at h
  dsimp only at h
  split at h
  · obtain ⟨anyOSOSnap, -, h⟩ := Option.bind_eq_some_iff.1 h
    cases h
    exact KeyspaceFilter.keeps_of_eq rfl rfl rfl rfl rfl
  · cases h
    exact KeyspaceFilter.keeps_of_eq rfl rfl rfl rfl rfl

/-- A snapshot marker moves the filter's snapshot, the previous snapshot, the first-snapshot
flags and `DisableAlign`, and may raise the exception. -/
theorem updateSnapInFilter_keeps {m : MutationMeta} {snapStart snapEnd : UInt64}
    {msgs : List StreamMsg} (h : w.updateSnapInFilter m snapStart snapEnd = some (w', msgs)) :
    w.Keeps w' := by
  unfold updateSnapInFilter at h
  dsimp only at h
  cases hks : w.keyspaces m.keyspaceId with
  | none =>
    rw [hks] at h
    cases h
    exact Keeps.refl w
  | some ks =>
    rw [hks] at h
    dsimp only at h
    split at h
    · cases h; exact Keeps.refl w
    obtain ⟨ks₁, hks₁, h⟩ := Option.bind_eq_some_iff.1 h
    have hkeep₁ := setFirstSnap_keeps hks₁
    split at h
    · split at h
      · -- OSO on: the first marker after an OSO snapshot, or a plain one
        obtain ⟨afterOSO, -, h⟩ := Option.bind_eq_some_iff.1 h
        cases afterOSO with
        | some filterOSO =>
          cases h
          apply keeps_setKeyspace hks
          refine hkeep₁.trans ⟨rfl, rfl, rfl, rfl, fun hexc => ?_⟩
          simp [hexc]
        | none =>
          cases h
          apply keeps_setKeyspace hks
          refine hkeep₁.trans (KeyspaceFilter.keeps_of_eq ?_ ?_ rfl rfl rfl)
          · split <;> rfl
          · split <;> rfl
      · cases h
        apply keeps_setKeyspace hks
        refine hkeep₁.trans (KeyspaceFilter.keeps_of_eq ?_ ?_ rfl rfl rfl)
        · split <;> rfl
        · split <;> rfl
    · cases h
      exact keeps_setKeyspace hks hkeep₁

/-! ## §3 — `StreamBegin` -/

/-- A `StreamBegin` sets the vbuuid of its vbucket, when its opaque is valid. -/
theorem updateVbuuidInFilter_cases (w : StreamWorker) (m : MutationMeta) :
    w.updateVbuuidInFilter m = w ∨
      ∃ ks, w.keyspaces m.keyspaceId = some ks ∧ validOpaque ks m = true ∧
        w.updateVbuuidInFilter m = w.setKeyspace m.keyspaceId { ks with
          filter := { ks.filter with
            vbuuids := Function.update ks.filter.vbuuids m.vbucket m.vbuuid } } := by
  unfold updateVbuuidInFilter
  cases hks : w.keyspaces m.keyspaceId with
  | none => exact .inl rfl
  | some ks =>
    dsimp only
    by_cases hv : validOpaque ks m = true
    · exact .inr ⟨ks, rfl, hv, by simp [hv]⟩
    · exact .inl (by simp [hv])

/-! ## §4 — the check -/

/-- What letting the mutation `m` through did to its keyspace's entries `ks`: it had a valid
opaque, no exception and a vbuuid (and, outside OSO, a seqno above the filter's), and the
filter took the mutation's vbuuid and, outside an OSO snapshot, its seqno. -/
structure Admitted (ks ks' : KeyspaceFilter) (m : MutationMeta) : Prop where
  noException : ks.osoException = false
  validOpaque : validOpaque ks m = true
  vbuuid_ne : ks.filter.vbuuids m.vbucket ≠ 0
  seqno_lt : ks.enableOSO = false → ks.filter.seqnos m.vbucket < m.seqno
  vbuuids : ks'.filter.vbuuids = Function.update ks.filter.vbuuids m.vbucket m.vbuuid
  seqnos : ks'.filter.seqnos = Function.update ks.filter.seqnos m.vbucket m.seqno ∨
    (ks.enableOSO = true ∧ ks'.filter.seqnos = ks.filter.seqnos)
  sessionId : ks'.sessionId = ks.sessionId
  enableOSO : ks'.enableOSO = ks.enableOSO
  osoException : ks'.osoException = false

section Check

variable {ks : KeyspaceFilter} {m : MutationMeta}

/-- The out-of-snapshot reset of the first-snapshot flag admits alike. -/
theorem keeps_firstSnap (ks : KeyspaceFilter) (f : Vbucket → Bool) :
    ks.Keeps { ks with firstSnap := f } := KeyspaceFilter.keeps_of_eq rfl rfl rfl rfl rfl

theorem checkAndSetKeyspaceIdFilterDefault_skip
    (h : (checkAndSetKeyspaceIdFilterDefault ks m).2.1 = true) :
    ks.Keeps (checkAndSetKeyspaceIdFilterDefault ks m).1 := by
  unfold checkAndSetKeyspaceIdFilterDefault at h ⊢
  dsimp only at h ⊢
  split
  · exact KeyspaceFilter.Keeps.refl ks
  rename_i hv
  rw [if_neg hv] at h
  -- a mutation let through is no skip; a skipped one only resets the first-snapshot flag
  split
  · rename_i hpass
    rw [if_pos hpass] at h
    cases h
  · exact keeps_firstSnap ks _

theorem checkAndSetKeyspaceIdFilterDefault_pass
    (h : (checkAndSetKeyspaceIdFilterDefault ks m).2.1 = false) (hexc : ks.osoException = false) :
    Admitted ks (checkAndSetKeyspaceIdFilterDefault ks m).1 m := by
  unfold checkAndSetKeyspaceIdFilterDefault at h ⊢
  dsimp only at h ⊢
  split at h
  · cases h
  rename_i hv
  split at h
  · rename_i hpass
    rw [if_neg hv, if_pos hpass]
    simp only [Bool.not_eq_true', Bool.not_eq_false] at hv
    simp only [Bool.and_eq_true, decide_eq_true_eq, bne_iff_ne, ne_eq] at hpass
    exact ⟨hexc, hv, hpass.2, fun _ => hpass.1, rfl, .inl rfl, rfl, rfl, hexc⟩
  · cases h

theorem checkAndSetKeyspaceIdFilterOSO_skip {filterOSO : TsVbuuid}
    (h : (checkAndSetKeyspaceIdFilterOSO ks filterOSO m).2.1 = true) :
    ks.Keeps (checkAndSetKeyspaceIdFilterOSO ks filterOSO m).1 := by
  unfold checkAndSetKeyspaceIdFilterOSO at h ⊢
  dsimp only at h ⊢
  split
  · exact KeyspaceFilter.Keeps.refl ks
  rename_i hv
  rw [if_neg hv] at h
  split
  · exact KeyspaceFilter.Keeps.refl ks
  · rename_i hvb
    rw [if_neg hvb] at h
    cases h

theorem checkAndSetKeyspaceIdFilterOSO_pass {filterOSO : TsVbuuid}
    (h : (checkAndSetKeyspaceIdFilterOSO ks filterOSO m).2.1 = false)
    (hexc : ks.osoException = false) (hoso : ks.enableOSO = true) :
    Admitted ks (checkAndSetKeyspaceIdFilterOSO ks filterOSO m).1 m := by
  unfold checkAndSetKeyspaceIdFilterOSO at h ⊢
  dsimp only at h ⊢
  split at h
  · cases h
  rename_i hv
  split at h
  · cases h
  rename_i hvb
  rw [if_neg hv, if_neg hvb]
  simp only [Bool.not_eq_true', Bool.not_eq_false] at hv
  simp only [beq_iff_eq] at hvb
  -- within an OSO snapshot the filter keeps its seqno
  exact ⟨hexc, hv, hvb, fun h => by simp [hoso] at h, rfl, .inr ⟨hoso, rfl⟩, rfl, rfl, hexc⟩

/-- **A skipped mutation** leaves every keyspace's admission as it was. -/
theorem checkAndSetKeyspaceIdFilter_skip {first : Bool}
    (h : w.checkAndSetKeyspaceIdFilter m = some (w', true, first)) : w.Keeps w' := by
  unfold checkAndSetKeyspaceIdFilter at h
  dsimp only at h
  cases hks : w.keyspaces m.keyspaceId with
  | none =>
    rw [hks] at h
    cases h
    exact Keeps.refl w
  | some ks =>
    rw [hks] at h
    dsimp only at h
    split at h
    · cases h; exact Keeps.refl w
    -- the OSO check within an OSO snapshot, the default one otherwise
    split at h
    · split at h
      · cases h
      split at h
      all_goals
        simp only [Option.some.injEq, Prod.mk.injEq] at h
        obtain ⟨rfl, hskip, -⟩ := h
      · exact keeps_setKeyspace hks (checkAndSetKeyspaceIdFilterOSO_skip hskip)
      · exact keeps_setKeyspace hks (checkAndSetKeyspaceIdFilterDefault_skip hskip)
    · simp only [Option.some.injEq, Prod.mk.injEq] at h
      obtain ⟨rfl, hskip, -⟩ := h
      exact keeps_setKeyspace hks (checkAndSetKeyspaceIdFilterDefault_skip hskip)

/-- **A mutation let through** had entries that admit it, and the worker's entries for its
keyspace are now the admitted ones. -/
theorem checkAndSetKeyspaceIdFilter_pass {first : Bool}
    (h : w.checkAndSetKeyspaceIdFilter m = some (w', false, first)) :
    ∃ ks ks', w.keyspaces m.keyspaceId = some ks ∧ w' = w.setKeyspace m.keyspaceId ks' ∧
      Admitted ks ks' m := by
  unfold checkAndSetKeyspaceIdFilter at h
  dsimp only at h
  cases hks : w.keyspaces m.keyspaceId with
  | none =>
    rw [hks] at h
    cases h
  | some ks =>
    rw [hks] at h
    dsimp only at h
    split at h
    · cases h
    rename_i hexc
    simp only [Bool.not_eq_true] at hexc
    split at h
    · rename_i hoso
      split at h
      · cases h
      split at h
      all_goals
        simp only [Option.some.injEq, Prod.mk.injEq] at h
        obtain ⟨rfl, hpass, -⟩ := h
      · exact ⟨ks, _, rfl, rfl, checkAndSetKeyspaceIdFilterOSO_pass hpass hexc hoso⟩
      · exact ⟨ks, _, rfl, rfl, checkAndSetKeyspaceIdFilterDefault_pass hpass hexc⟩
    · simp only [Option.some.injEq, Prod.mk.injEq] at h
      obtain ⟨rfl, hpass, -⟩ := h
      exact ⟨ks, _, rfl, rfl, checkAndSetKeyspaceIdFilterDefault_pass hpass hexc⟩

/-- A check for another keyspace leaves `k`'s entries alike. -/
theorem checkAndSetKeyspaceIdFilter_other {m : MutationMeta} {k : String} {ks : KeyspaceFilter}
    {skip first : Bool} (hne : m.keyspaceId ≠ k)
    (h : w.checkAndSetKeyspaceIdFilter m = some (w', skip, first))
    (hks : w.keyspaces k = some ks) : ∃ ks', w'.keyspaces k = some ks' ∧ ks.Keeps ks' := by
  cases skip with
  | true => exact (checkAndSetKeyspaceIdFilter_skip h).some hks
  | false =>
    obtain ⟨ksA, ksB, -, rfl, -⟩ := checkAndSetKeyspaceIdFilter_pass h
    refine ⟨ks, ?_, KeyspaceFilter.Keeps.refl ks⟩
    rw [setKeyspace_keyspaces, if_neg (Ne.symm hne), hks]

end Check

/-! ## §5 — installing the filters -/

section Init

variable {queueMap : String → Bool} {keyspaceIdFilter : String → Option TsVbuuid}
  {keyspaceIdSessionId : String → UInt64} {keyspaceIdEnableOSO : String → Bool} {k : String}

theorem initKeyspaceIdFilter_of_some {ks : KeyspaceFilter} (hq : queueMap k = true)
    (h : w.keyspaces k = some ks) :
    (w.initKeyspaceIdFilter queueMap keyspaceIdFilter keyspaceIdSessionId
      keyspaceIdEnableOSO).keyspaces k = some ks := by
  simp [initKeyspaceIdFilter, hq, h]

theorem initKeyspaceIdFilter_of_none (hq : queueMap k = true) (h : w.keyspaces k = none) :
    (w.initKeyspaceIdFilter queueMap keyspaceIdFilter keyspaceIdSessionId
      keyspaceIdEnableOSO).keyspaces k =
      some (newKeyspaceFilter (keyspaceIdFilter k) (keyspaceIdSessionId k)
        (keyspaceIdEnableOSO k)) := by
  simp [initKeyspaceIdFilter, hq, h]

end Init

/-- A new filter's seqnos are the restart filter's, or zero. -/
@[simp] theorem newKeyspaceFilter_seqnos (filter : Option TsVbuuid) (sessionId : UInt64)
    (enableOSO : Bool) (v : Vbucket) :
    (newKeyspaceFilter filter sessionId enableOSO).filter.seqnos v =
      (filter.map fun f => f.seqnos v).getD 0 := by
  cases filter <;> rfl

/-- A new filter waits for a `StreamBegin` on every vbucket. -/
@[simp] theorem newKeyspaceFilter_vbuuids (filter : Option TsVbuuid) (sessionId : UInt64)
    (enableOSO : Bool) (v : Vbucket) :
    (newKeyspaceFilter filter sessionId enableOSO).filter.vbuuids v = 0 := by
  cases filter <;> rfl

end StreamWorker

/-! ## §6 — the steps of the command loop -/

section Loop

variable {acc acc' : KvVars}

/-- The filter check of a data command: made when `evalFilter` is on, which it turns off. -/
theorem evalDataFilter_cases (h : evalDataFilter acc = some acc') :
    (acc.evalFilter = false ∧ acc' = acc) ∨
      (acc.evalFilter = true ∧ ∃ w' skip first,
        acc.w.checkAndSetKeyspaceIdFilter acc.meta' = some (w', skip, first) ∧
        acc' = { acc with
          w := w'
          evalFilter := false
          skipMutation := skip
          meta' := { acc.meta' with firstSnap := first } }) := by
  unfold evalDataFilter at h
  cases hE : acc.evalFilter with
  | false =>
    rw [hE] at h
    cases h
    exact .inl ⟨rfl, rfl⟩
  | true =>
    rw [if_pos hE] at h
    obtain ⟨⟨w', skip, first⟩, hcheck, h⟩ := Option.bind_eq_some_iff.1 h
    cases h
    exact .inr ⟨rfl, w', skip, first, hcheck, rfl⟩

/-- A data command after the check: skipped, dropped while the indexer is not active, or its
index mutation added to `mutk`. -/
theorem addDataMutation_cases {kv : KeyVersions} {indexerActive : Bool} {cmd : UInt8} {i : Nat}
    (h : addDataMutation kv indexerActive acc cmd i = some acc') :
    (acc.skipMutation = true ∧ acc' = acc) ∨
      (acc.skipMutation = false ∧ indexerActive = false ∧ acc' = { acc with mutk := none }) ∨
      (acc.skipMutation = false ∧ indexerActive = true ∧ ∃ μ, dataMutation kv cmd i = some μ ∧
        acc' = { acc with
          mutk := some { acc.mutk.getD ⟨acc.meta', kv.docid, []⟩ with
            muts := (acc.mutk.getD ⟨acc.meta', kv.docid, []⟩).muts ++ [μ] } }) := by
  unfold addDataMutation at h
  cases hS : acc.skipMutation with
  | true =>
    rw [if_pos hS] at h
    cases h
    exact .inl ⟨rfl, rfl⟩
  | false =>
    rw [hS] at h
    cases ha : indexerActive with
    | false =>
      rw [ha] at h
      cases h
      exact .inr (.inl ⟨rfl, rfl, rfl⟩)
    | true =>
      rw [ha] at h
      obtain ⟨μ, hμ, h⟩ := Option.bind_eq_some_iff.1 h
      cases h
      exact .inr (.inr ⟨rfl, rfl, μ, hμ, rfl⟩)

/-- A seqno advance or system event: the check, and a filler when it passes. -/
theorem checkFillerMutation_eq {kv : KeyVersions} (h : checkFillerMutation kv acc = some acc') :
    ∃ w' skip first, acc.w.checkAndSetKeyspaceIdFilter acc.meta' = some (w', skip, first) ∧
      acc' = { acc with
        w := w'
        mutk := if skip then acc.mutk else some (allocateFillerMutation acc.meta' kv.docid) } := by
  unfold checkFillerMutation at h
  obtain ⟨⟨w', skip, first⟩, hcheck, h⟩ := Option.bind_eq_some_iff.1 h
  cases h
  exact ⟨w', skip, first, hcheck, rfl⟩

end Loop

end Indexer.StreamReader
