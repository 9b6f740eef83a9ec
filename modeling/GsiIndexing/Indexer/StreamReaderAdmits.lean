import GsiIndexing.Indexer.StreamReaderFilter
import GsiIndexing.Lib.Loop

/-!
# The stream worker admits each vbucket's mutations in seqno order

Take a keyspace `k` whose entries `initKeyspaceIdFilter` installs, from a restart filter and a
session id, with OSO off. Over every run of vbucket messages and supervisor commands that keep
`k` in the queue map, what the worker enqueues for `k` (`runWorker_admits`) is, on each
vbucket, in strictly increasing seqnos, all above the restart filter's; each mutation has an
opaque of the session, is built by one `handleSingleKeyVersion` call with the index mutations
of its data commands or one filler, and comes after a `StreamBegin` with `STREAM_SUCCESS`, a
vbuuid and a valid opaque for its vbucket since the install.

The proof has one invariant per level of the worker's loops:

* **`FilterInv`** — the keyspace's entries: the session and OSO flag of the install, seqnos at
  or above the restart filter's, and a vbuuid only after a `StreamBegin`;
* **`CallInv`** — within one call, after a prefix of its commands: what `mutk`, `evalFilter`
  and `skipMutation` say about the filter (`Passed`), kept by one lemma per kind of command;
* **`ItemsInv`** — what has been enqueued, kept by each call and each event.

The loops are `GoLoop.foldlM_invariant` over the commands, the calls of a message and the
events.
-/

namespace Indexer.StreamReader

open StreamWorker

/-! ## §1 — the specification -/

/-- The metadata `handleSingleKeyVersion` gives the mutation of call `c`. -/
def KvCall.meta' (c : KvCall) : MutationMeta :=
  ⟨c.keyspaceId, c.vbucket, c.vbuuid, c.kv.seqno, false, c.projVer, c.opaque2⟩

/-- A mutation's metadata is that of call `c`, but for the first-snapshot flag. -/
structure MetaOf (c : KvCall) (m : MutationMeta) : Prop where
  keyspaceId : m.keyspaceId = c.keyspaceId
  vbucket : m.vbucket = c.vbucket
  vbuuid : m.vbuuid = c.vbuuid
  seqno : m.seqno = c.kv.seqno
  projVer : m.projVer = c.projVer
  opaque2 : m.opaque2 = c.opaque2

theorem metaOf_meta (c : KvCall) : MetaOf c c.meta' := ⟨rfl, rfl, rfl, rfl, rfl, rfl⟩

theorem MetaOf.firstSnap {c : KvCall} {m : MutationMeta} (h : MetaOf c m) (first : Bool) :
    MetaOf c { m with firstSnap := first } :=
  ⟨h.keyspaceId, h.vbucket, h.vbuuid, h.seqno, h.projVer, h.opaque2⟩

/-- The index mutations of the data commands among `cmds`, in order. -/
def dataMutationsOf (kv : KeyVersions) (cmds : List (UInt32 × Nat)) : List Mutation :=
  cmds.filterMap fun x =>
    if cmdKind x.1.toUInt8 = .data then dataMutation kv x.1.toUInt8 x.2 else none

/-- The index mutations of the data commands of `kv`. -/
def KeyVersions.dataMutations (kv : KeyVersions) : List Mutation :=
  dataMutationsOf kv kv.commands.zipIdx

/-- `m` is the mutation call `c` builds: its metadata and document, and the index mutations of
its data commands or one filler. -/
structure EnqueuedBy (c : KvCall) (m : MutationKeys) : Prop where
  meta' : MetaOf c m.meta'
  docid : m.docid = c.kv.docid
  muts : m.muts = c.kv.dataMutations ∨ m.muts = [fillerMutation]

/-- Call `c` holds a `StreamBegin` with `STREAM_SUCCESS` for keyspace `k`'s vbucket `v`, with a
vbuuid and an opaque valid for the session `sid`. -/
def StreamBeganOk (k : String) (v : Vbucket) (sid : UInt64) (c : KvCall) : Prop :=
  c.keyspaceId = k ∧ c.vbucket = v ∧ c.vbuuid ≠ 0 ∧ (c.opaque2 = 0 ∨ c.opaque2 = sid) ∧
    ∃ x ∈ c.kv.commands.zipIdx, cmdKind x.1.toUInt8 = .streamBegin ∧
      ∃ key, c.kv.keys[x.2]? = some key ∧ (streamStatus key).1 = streamSuccess

/-- The mutations of keyspace `k` on vbucket `v` among `Q`, in order. -/
def vbItems (k : String) (v : Vbucket) (Q : List MutationKeys) : List MutationKeys :=
  Q.filter fun m => m.meta'.keyspaceId = k ∧ m.meta'.vbucket = v

/-- The seqno the restart filter gives vbucket `v` of `k`, 0 without one. -/
def restartSeqno (keyspaceIdFilter : String → Option TsVbuuid) (k : String) (v : Vbucket) :
    UInt64 :=
  ((keyspaceIdFilter k).map fun f => f.seqnos v).getD 0

/-- The calls an event makes. -/
def WorkerEvent.calls : WorkerEvent → List KvCall
  | .keyVersions vb => vb.calls
  | _ => []

/-- The event leaves keyspace `k` in the queue map. -/
def WorkerEvent.keepsKeyspace (k : String) : WorkerEvent → Bool
  | .updateQueueMap queueMap _ _ _ => queueMap k
  | _ => true

/-! ## §2 — the keyspace's entries -/

section Filter

variable {k : String} {sid : UInt64} {r₀ : Vbucket → UInt64} {H H' : List KvCall}
  {ks ks' : KeyspaceFilter}

/-- The entries of keyspace `k` after the calls `H`, installed with the session `sid`, OSO off
and the restart seqnos `r₀`: the seqnos stay at or above the restart filter's, and a vbucket
has a vbuuid only after a `StreamBegin` of `H`. -/
structure FilterInv (k : String) (sid : UInt64) (r₀ : Vbucket → UInt64) (H : List KvCall)
    (ks : KeyspaceFilter) : Prop where
  sessionId : ks.sessionId = sid
  enableOSO : ks.enableOSO = false
  restart : ∀ v, r₀ v ≤ ks.filter.seqnos v
  began : ∀ v, ks.filter.vbuuids v ≠ 0 → ∃ c ∈ H, StreamBeganOk k v sid c

theorem FilterInv.mono (h : FilterInv k sid r₀ H ks) (hH : H ⊆ H') : FilterInv k sid r₀ H' ks := by
  refine ⟨h.sessionId, h.enableOSO, h.restart, fun v hv => ?_⟩
  obtain ⟨c, hc, hb⟩ := h.began v hv
  exact ⟨c, hH hc, hb⟩

theorem FilterInv.keeps (h : FilterInv k sid r₀ H ks) (hk : ks.Keeps ks') :
    FilterInv k sid r₀ H ks' := by
  refine ⟨hk.sessionId.trans h.sessionId, hk.enableOSO.trans h.enableOSO, ?_, ?_⟩
  · intro v
    rw [hk.seqnos]
    exact h.restart v
  · intro v
    rw [hk.vbuuids]
    exact h.began v

/-- A valid opaque is `0` or the session's. -/
theorem FilterInv.validSession {m : MutationMeta} (h : FilterInv k sid r₀ H ks)
    (hv : validOpaque ks m = true) : m.opaque2 = 0 ∨ m.opaque2 = sid := by
  unfold validOpaque at hv
  rw [← h.sessionId]
  simpa using hv

/-- With OSO off, a mutation let through moves the filter's seqno to its own, above the old. -/
theorem StreamWorker.Admitted.seqnos_eq {m : MutationMeta} (ha : Admitted ks ks' m)
    (hoso : ks.enableOSO = false) :
    ks'.filter.seqnos = Function.update ks.filter.seqnos m.vbucket m.seqno := by
  rcases ha.seqnos with hseq | ⟨hon, -⟩
  · exact hseq
  · rw [hoso] at hon
    cases hon

/-- A mutation let through raises the seqnos and keeps the entries' invariant: the vbuuid it
sets is on a vbucket that already had one. -/
theorem FilterInv.of_admitted {m : MutationMeta} (h : FilterInv k sid r₀ H ks)
    (ha : Admitted ks ks' m) :
    FilterInv k sid r₀ H ks' ∧ ∀ v, ks.filter.seqnos v ≤ ks'.filter.seqnos v := by
  have hseq := ha.seqnos_eq h.enableOSO
  have hlt := ha.seqno_lt h.enableOSO
  have hgrow : ∀ v, ks.filter.seqnos v ≤ ks'.filter.seqnos v := by
    intro v
    rw [hseq]
    by_cases hv : v = m.vbucket
    · subst hv
      rw [Function.update_self]
      exact UInt64.le_of_lt hlt
    · rw [Function.update_of_ne hv]
      exact UInt64.le_refl _
  refine ⟨⟨ha.sessionId.trans h.sessionId, ha.enableOSO.trans h.enableOSO,
    fun v => UInt64.le_trans (h.restart v) (hgrow v), ?_⟩, hgrow⟩
  intro v hv
  rw [ha.vbuuids] at hv
  by_cases hvm : v = m.vbucket
  · subst hvm
    exact h.began _ ha.vbuuid_ne
  · rw [Function.update_of_ne hvm] at hv
    exact h.began v hv

/-- A `StreamBegin` of call `c` sets the vbuuid of `c`'s vbucket; a vbuuid it sets comes with
the call's `StreamBegin`. -/
theorem FilterInv.setVbuuid {c : KvCall} (h : FilterInv k sid r₀ H ks) (hc : c ∈ H)
    (hsb : c.vbuuid ≠ 0 → StreamBeganOk k c.vbucket sid c) :
    FilterInv k sid r₀ H { ks with
      filter := { ks.filter with
        vbuuids := Function.update ks.filter.vbuuids c.vbucket c.vbuuid } } := by
  refine ⟨h.sessionId, h.enableOSO, h.restart, ?_⟩
  intro v hv
  by_cases hvc : v = c.vbucket
  · subst hvc
    simp only [Function.update_self] at hv
    exact ⟨c, hc, hsb hv⟩
  · simp only [Function.update_of_ne hvc] at hv
    exact h.began v hv

end Filter

/-! ## §3 — one command of a call -/

/-- The data commands' mutations of a prefix with one more command that is not one. -/
theorem dataMutationsOf_snoc_of_ne (kv : KeyVersions) (pre : List (UInt32 × Nat))
    {x : UInt32 × Nat} (hx : cmdKind x.1.toUInt8 ≠ .data) :
    dataMutationsOf kv (pre ++ [x]) = dataMutationsOf kv pre := by
  simp [dataMutationsOf, hx]

/-- The data commands' mutations of a prefix with one more data command. -/
theorem dataMutationsOf_snoc_data (kv : KeyVersions) (pre : List (UInt32 × Nat))
    {x : UInt32 × Nat} {μ : Mutation} (hx : cmdKind x.1.toUInt8 = .data)
    (hμ : dataMutation kv x.1.toUInt8 x.2 = some μ) :
    dataMutationsOf kv (pre ++ [x]) = dataMutationsOf kv pre ++ [μ] := by
  simp [dataMutationsOf, hx, hμ]

theorem dataMutationsOf_eq_nil (kv : KeyVersions) {pre : List (UInt32 × Nat)}
    (h : ∀ y ∈ pre, cmdKind y.1.toUInt8 ≠ .data) : dataMutationsOf kv pre = [] := by
  unfold dataMutationsOf
  rw [List.filterMap_eq_nil_iff]
  intro y hy
  simp [h y hy]

section Command

variable {k : String} {sid : UInt64} {r₀ : Vbucket → UInt64} {H : List KvCall} {c : KvCall}
  {active : Bool} {ks₀ ks ks' : KeyspaceFilter} {pre : List (UInt32 × Nat)}
  {x : UInt32 × Nat} {acc acc' : KvVars}

/-- Call `c` of keyspace `k` has let its mutation through: the filter `ks` is at the call's
seqno, above where it was at the call's start (`ks₀`), and the call had a valid opaque and a
`StreamBegin` for its vbucket. -/
structure Passed (k : String) (sid : UInt64) (H : List KvCall) (c : KvCall)
    (ks₀ ks : KeyspaceFilter) : Prop where
  seqno_eq : ks.filter.seqnos c.vbucket = c.kv.seqno
  seqno_gt : ks₀.filter.seqnos c.vbucket < c.kv.seqno
  opaque2 : c.opaque2 = 0 ∨ c.opaque2 = sid
  began : ∃ c' ∈ H ++ [c], StreamBeganOk k c.vbucket sid c'

theorem Passed.of_seqnos (hp : Passed k sid H c ks₀ ks)
    (hseq : ks'.filter.seqnos = ks.filter.seqnos) : Passed k sid H c ks₀ ks' := by
  refine ⟨?_, hp.seqno_gt, hp.opaque2, hp.began⟩
  rw [hseq]
  exact hp.seqno_eq

/-- Once the call has let its mutation through, no check of the call lets one through again:
the filter is at the call's seqno. -/
theorem Passed.not_admitted {m : MutationMeta} (hp : Passed k sid H c ks₀ ks) (hm : MetaOf c m)
    (ha : Admitted ks ks' m) (hoso : ks.enableOSO = false) : False := by
  have hlt := ha.seqno_lt hoso
  rw [hm.vbucket, hm.seqno, hp.seqno_eq] at hlt
  exact UInt64.lt_irrefl _ hlt

/-- A check of call `c` that lets its mutation through. -/
theorem FilterInv.passed {m : MutationMeta} (hF : FilterInv k sid r₀ (H ++ [c]) ks)
    (hgrow : ∀ v, ks₀.filter.seqnos v ≤ ks.filter.seqnos v) (hm : MetaOf c m)
    (ha : Admitted ks ks' m) : Passed k sid H c ks₀ ks' := by
  have hlt := ha.seqno_lt hF.enableOSO
  rw [hm.vbucket, hm.seqno] at hlt
  refine ⟨?_, UInt64.lt_of_le_of_lt (hgrow _) hlt, ?_, ?_⟩
  · rw [ha.seqnos_eq hF.enableOSO, hm.vbucket, Function.update_self, hm.seqno]
  · rw [← hm.opaque2]
    exact hF.validSession ha.validOpaque
  · have hvb := ha.vbuuid_ne
    rw [hm.vbucket] at hvb
    exact hF.began _ hvb

/-- After the commands `pre` of call `c`, where keyspace `k` had the entries `ks₀` at the
call's start and has `ks` now: `mutk` is the call's mutation, for `k` only once it has passed
the filter, and with `evalFilter` and `skipMutation` both off it holds the data commands' index
mutations. -/
structure CallInv (k : String) (sid : UInt64) (r₀ : Vbucket → UInt64) (H : List KvCall)
    (c : KvCall) (active : Bool) (ks₀ : KeyspaceFilter) (pre : List (UInt32 × Nat))
    (acc : KvVars) (ks : KeyspaceFilter) : Prop where
  filter : FilterInv k sid r₀ (H ++ [c]) ks
  grows : ∀ v, ks₀.filter.seqnos v ≤ ks.filter.seqnos v
  meta' : MetaOf c acc.meta'
  noData : acc.evalFilter = true → ∀ y ∈ pre, cmdKind y.1.toUInt8 ≠ .data
  built : ∀ m, acc.mutk = some m → MetaOf c m.meta' ∧ m.docid = c.kv.docid
  mutk : c.keyspaceId = k → ∀ m, acc.mutk = some m → Passed k sid H c ks₀ ks ∧
    (m.muts = [fillerMutation] ∨ (acc.evalFilter = false ∧ acc.skipMutation = false))
  data : c.keyspaceId = k → acc.evalFilter = false → acc.skipMutation = false →
    Passed k sid H c ks₀ ks ∧
      if active then ∃ m, acc.mutk = some m ∧ m.muts = dataMutationsOf c.kv pre
      else acc.mutk = none

/-- The messages sent are no part of the invariant. -/
theorem CallInv.msgs (h : CallInv k sid r₀ H c active ks₀ pre acc ks) (msgs : List StreamMsg) :
    CallInv k sid r₀ H c active ks₀ pre { acc with msgs := msgs } ks :=
  ⟨h.filter, h.grows, h.meta', h.noData, h.built, h.mutk, h.data⟩

/-- A command that is no data command leaves the prefix without data commands. -/
theorem CallInv.noData_snoc (h : CallInv k sid r₀ H c active ks₀ pre acc ks)
    (hx : cmdKind x.1.toUInt8 ≠ .data) :
    acc.evalFilter = true → ∀ y ∈ pre ++ [x], cmdKind y.1.toUInt8 ≠ .data := by
  intro hE y hy
  rcases List.mem_append.1 hy with hy | hy
  · exact h.noData hE y hy
  · rw [List.mem_singleton.1 hy]
    exact hx

/-- A command that is no data command and moves neither `mutk`, the flags, the metadata nor
the filter's seqnos. -/
theorem CallInv.frame (h : CallInv k sid r₀ H c active ks₀ pre acc ks)
    (hF : FilterInv k sid r₀ (H ++ [c]) ks') (hseq : ks'.filter.seqnos = ks.filter.seqnos)
    (hmutk : acc'.mutk = acc.mutk) (hE : acc'.evalFilter = acc.evalFilter)
    (hS : acc'.skipMutation = acc.skipMutation) (hmeta : acc'.meta' = acc.meta')
    (hx : cmdKind x.1.toUInt8 ≠ .data) :
    CallInv k sid r₀ H c active ks₀ (pre ++ [x]) acc' ks' where
  filter := hF
  grows v := by
    rw [hseq]
    exact h.grows v
  meta' := by
    rw [hmeta]
    exact h.meta'
  noData hE' := h.noData_snoc hx (hE ▸ hE')
  built m hm := by
    rw [hmutk] at hm
    exact h.built m hm
  mutk hck m hm := by
    rw [hmutk] at hm
    obtain ⟨hp, hmuts⟩ := h.mutk hck m hm
    exact ⟨hp.of_seqnos hseq, by rwa [hE, hS]⟩
  data hck hE' hS' := by
    obtain ⟨hp, hd⟩ := h.data hck (hE ▸ hE') (hS ▸ hS')
    refine ⟨hp.of_seqnos hseq, ?_⟩
    rw [hmutk, dataMutationsOf_snoc_of_ne c.kv pre hx]
    exact hd

/-- A command of a call for another keyspace: only `k`'s entries matter, and they admit alike. -/
theorem CallInv.other (h : CallInv k sid r₀ H c active ks₀ pre acc ks) (hck : c.keyspaceId ≠ k)
    (hkeep : ks.Keeps ks') (hmeta : MetaOf c acc'.meta')
    (hnoData : acc'.evalFilter = true → ∀ y ∈ pre ++ [x], cmdKind y.1.toUInt8 ≠ .data)
    (hbuilt : ∀ m, acc'.mutk = some m → MetaOf c m.meta' ∧ m.docid = c.kv.docid) :
    CallInv k sid r₀ H c active ks₀ (pre ++ [x]) acc' ks' where
  filter := h.filter.keeps hkeep
  grows v := by
    rw [hkeep.seqnos]
    exact h.grows v
  meta' := hmeta
  noData := hnoData
  built := hbuilt
  mutk hck' := absurd hck' hck
  data hck' := absurd hck' hck

/-- **A seqno advance or a system event**: a check that passes moves the filter to the call's
seqno and makes the filler the call's mutation; it cannot pass after a data command has. -/
theorem CallInv.filler (h : CallInv k sid r₀ H c active ks₀ pre acc ks)
    (hks : acc.w.keyspaces k = some ks) (hx : cmdKind x.1.toUInt8 ≠ .data)
    (hfill : checkFillerMutation c.kv acc = some acc') :
    ∃ ks', acc'.w.keyspaces k = some ks' ∧ CallInv k sid r₀ H c active ks₀ (pre ++ [x]) acc' ks' := by
  obtain ⟨w', skip, first, hcheck, rfl⟩ := checkFillerMutation_eq hfill
  by_cases hck : c.keyspaceId = k
  case neg =>
    -- another keyspace: `k`'s entries are untouched, and the filler is the call's
    obtain ⟨ks', hks', hkeep⟩ :=
      checkAndSetKeyspaceIdFilter_other (by rw [h.meta'.keyspaceId]; exact hck) hcheck hks
    refine ⟨ks', hks', h.other hck hkeep h.meta' (h.noData_snoc hx) fun m hm => ?_⟩
    cases skip with
    | true => exact h.built m hm
    | false =>
      cases hm
      exact ⟨h.meta', rfl⟩
  have hkA : acc.meta'.keyspaceId = k := h.meta'.keyspaceId.trans hck
  cases skip with
  | true =>
    obtain ⟨ks', hks', hkeep⟩ := (checkAndSetKeyspaceIdFilter_skip hcheck).some hks
    exact ⟨ks', hks', h.frame (h.filter.keeps hkeep) hkeep.seqnos rfl rfl rfl rfl hx⟩
  | false =>
    obtain ⟨ksA, ksB, hksA, rfl, ha⟩ := checkAndSetKeyspaceIdFilter_pass hcheck
    rw [hkA, hks] at hksA
    cases hksA
    obtain ⟨hF, hgrow⟩ := h.filter.of_admitted ha
    have hp : Passed k sid H c ks₀ ksB := h.filter.passed h.grows h.meta' ha
    refine ⟨ksB, by simp [hkA], hF, fun v => UInt64.le_trans (h.grows v) (hgrow v), h.meta',
      h.noData_snoc hx, fun m hm => ?_, fun _ m hm => ?_, ?_⟩
    · cases hm
      exact ⟨h.meta', rfl⟩
    · cases hm
      exact ⟨hp, .inl rfl⟩
    · -- with `evalFilter` and `skipMutation` off a data check passed, so this one could not
      intro _ hE hS
      obtain ⟨hp₀, -⟩ := h.data hck hE hS
      exact (hp₀.not_admitted h.meta' ha h.filter.enableOSO).elim

/-- **A `StreamBegin`** sets the vbuuid of the call's vbucket, with the call's `StreamBegin` for
it. -/
theorem CallInv.streamBegin {key : List UInt8} (h : CallInv k sid r₀ H c active ks₀ pre acc ks)
    (hks : acc.w.keyspaces k = some ks) (hx : cmdKind x.1.toUInt8 = .streamBegin)
    (hmem : x ∈ c.kv.commands.zipIdx) (hkey : c.kv.keys[x.2]? = some key)
    (hw : acc'.w = if (streamStatus key).1 == streamSuccess then acc.w.updateVbuuidInFilter acc.meta'
      else acc.w)
    (hmutk : acc'.mutk = acc.mutk) (hE : acc'.evalFilter = acc.evalFilter)
    (hS : acc'.skipMutation = acc.skipMutation) (hmeta : acc'.meta' = acc.meta') :
    ∃ ks', acc'.w.keyspaces k = some ks' ∧ CallInv k sid r₀ H c active ks₀ (pre ++ [x]) acc' ks' := by
  have hxd : cmdKind x.1.toUInt8 ≠ .data := by rw [hx]; decide
  have hsame : acc'.w.keyspaces k = some ks →
      ∃ ks', acc'.w.keyspaces k = some ks' ∧ CallInv k sid r₀ H c active ks₀ (pre ++ [x]) acc' ks' :=
    fun hks' => ⟨ks, hks', h.frame h.filter rfl hmutk hE hS hmeta hxd⟩
  by_cases hsucc : (streamStatus key).1 = streamSuccess
  case neg =>
    exact hsame (by rw [hw, if_neg (by simpa using hsucc)]; exact hks)
  rw [if_pos (by simpa using hsucc)] at hw
  rcases updateVbuuidInFilter_cases acc.w acc.meta' with heq | ⟨ksA, hksA, hvalid, heq⟩
  · exact hsame (by rw [hw, heq]; exact hks)
  by_cases hck : c.keyspaceId = k
  case neg =>
    refine hsame ?_
    rw [hw, heq, setKeyspace_keyspaces, if_neg (by rw [h.meta'.keyspaceId]; exact Ne.symm hck)]
    exact hks
  -- our keyspace: the vbuuid of the call's vbucket is the call's, after its `StreamBegin`
  have hkA : acc.meta'.keyspaceId = k := h.meta'.keyspaceId.trans hck
  rw [hkA, hks] at hksA
  cases hksA
  have hsb : c.vbuuid ≠ 0 → StreamBeganOk k c.vbucket sid c := by
    intro hne
    refine ⟨hck, rfl, hne, ?_, x, hmem, hx, key, hkey, hsucc⟩
    rw [← h.meta'.opaque2]
    exact h.filter.validSession hvalid
  have hF := h.filter.setVbuuid (List.mem_append_right H (List.mem_singleton_self c)) hsb
  rw [← h.meta'.vbucket, ← h.meta'.vbuuid] at hF
  refine ⟨_, by rw [hw, heq, setKeyspace_keyspaces, if_pos hkA.symm], ?_⟩
  exact h.frame hF rfl hmutk hE hS hmeta hxd

/-- **A data command**: the first one checks the filter; once it has passed, each adds its
index mutation to `mutk` (or drops `mutk` while the indexer is not active). -/
theorem CallInv.dataCmd {acc₁ : KvVars} (h : CallInv k sid r₀ H c active ks₀ pre acc ks)
    (hks : acc.w.keyspaces k = some ks) (hx : cmdKind x.1.toUInt8 = .data)
    (h₁ : evalDataFilter acc = some acc₁)
    (h₂ : addDataMutation c.kv active acc₁ x.1.toUInt8 x.2 = some acc') :
    ∃ ks', acc'.w.keyspaces k = some ks' ∧ CallInv k sid r₀ H c active ks₀ (pre ++ [x]) acc' ks' := by
  -- the check turns `evalFilter` off and keeps `mutk`; the worker and the metadata stay after it
  have hE₁ : acc₁.evalFilter = false ∧ acc₁.mutk = acc.mutk ∧ MetaOf c acc₁.meta' := by
    rcases evalDataFilter_cases h₁ with ⟨hE, rfl⟩ | ⟨-, w', skip, first, -, rfl⟩
    · exact ⟨hE, rfl, h.meta'⟩
    · exact ⟨rfl, rfl, h.meta'.firstSnap first⟩
  have hw' : acc'.w = acc₁.w ∧ acc'.meta' = acc₁.meta' ∧ acc'.evalFilter = false := by
    rcases addDataMutation_cases h₂ with ⟨-, rfl⟩ | ⟨-, -, rfl⟩ | ⟨-, -, μ, -, rfl⟩ <;>
      exact ⟨rfl, rfl, hE₁.1⟩
  have hnoData : acc'.evalFilter = true → ∀ y ∈ pre ++ [x], cmdKind y.1.toUInt8 ≠ .data := by
    rw [hw'.2.2]
    intro hf
    cases hf
  -- whatever `mutk` becomes is the call's
  have hbuilt : ∀ m, acc'.mutk = some m → MetaOf c m.meta' ∧ m.docid = c.kv.docid := by
    have hb₁ : ∀ m, acc₁.mutk = some m → MetaOf c m.meta' ∧ m.docid = c.kv.docid := by
      rw [hE₁.2.1]
      exact h.built
    rcases addDataMutation_cases h₂ with ⟨-, rfl⟩ | ⟨-, -, rfl⟩ | ⟨-, -, μ, -, rfl⟩
    · exact hb₁
    · intro m hm
      cases hm
    · intro m hm
      cases hm
      cases hm₁ : acc₁.mutk with
      | none => exact ⟨by simpa [hm₁] using hE₁.2.2, by simp⟩
      | some m₁ => simpa [hm₁] using hb₁ m₁ hm₁
  by_cases hck : c.keyspaceId = k
  case neg =>
    -- another keyspace: `k`'s entries are untouched
    have hk₁ : ∃ ks', acc₁.w.keyspaces k = some ks' ∧ ks.Keeps ks' := by
      rcases evalDataFilter_cases h₁ with ⟨-, rfl⟩ | ⟨-, w', skip, first, hcheck, rfl⟩
      · exact ⟨ks, hks, KeyspaceFilter.Keeps.refl ks⟩
      · exact checkAndSetKeyspaceIdFilter_other (by rw [h.meta'.keyspaceId]; exact hck) hcheck hks
    obtain ⟨ks', hks', hkeep⟩ := hk₁
    refine ⟨ks', by rw [hw'.1]; exact hks', h.other hck hkeep ?_ hnoData hbuilt⟩
    rw [hw'.2.1]
    exact hE₁.2.2
  have hkA : acc.meta'.keyspaceId = k := h.meta'.keyspaceId.trans hck
  rcases evalDataFilter_cases h₁ with ⟨hE, rfl⟩ | ⟨hE, w', skip, first, hcheck, rfl⟩
  · -- the filter was checked at an earlier data command
    rcases addDataMutation_cases h₂ with ⟨hS, rfl⟩ | ⟨hS, hact, rfl⟩ | ⟨hS, hact, μ, hμ, rfl⟩
    · -- skipped: `mutk` is a filler, if any
      refine ⟨ks, hks, h.filter, h.grows, h.meta', hnoData, hbuilt, h.mutk, ?_⟩
      intro _ _ hS'
      rw [hS] at hS'
      cases hS'
    · obtain ⟨hp, -⟩ := h.data hck hE hS
      refine ⟨ks, hks, h.filter, h.grows, h.meta', hnoData, hbuilt, fun _ m hm => (by cases hm), ?_⟩
      intro _ _ _
      exact ⟨hp, by simp [hact]⟩
    · obtain ⟨hp, hd⟩ := h.data hck hE hS
      simp only [hact, if_true] at hd
      obtain ⟨m, hm, hmuts⟩ := hd
      refine ⟨ks, hks, h.filter, h.grows, h.meta', hnoData, hbuilt, ?_, ?_⟩
      · intro _ m' hm'
        cases hm'
        exact ⟨hp, .inr ⟨hE, hS⟩⟩
      · intro _ _ _
        refine ⟨hp, ?_⟩
        rw [if_pos hact]
        refine ⟨_, rfl, ?_⟩
        rw [hm, Option.getD_some, hmuts, dataMutationsOf_snoc_data c.kv pre hx hμ]
  · -- the first data command: the check
    cases skip with
    | true =>
      obtain ⟨ks', hks', hkeep⟩ := (checkAndSetKeyspaceIdFilter_skip hcheck).some hks
      rcases addDataMutation_cases h₂ with ⟨-, rfl⟩ | ⟨hS, -⟩ | ⟨hS, -⟩
      · refine ⟨ks', hks', h.filter.keeps hkeep, fun v => hkeep.seqnos ▸ h.grows v,
          h.meta'.firstSnap first, hnoData, hbuilt, ?_, ?_⟩
        · -- `mutk` was set before any data command: a filler
          intro hck' m hm
          obtain ⟨hp, hmuts⟩ := h.mutk hck' m hm
          refine ⟨hp.of_seqnos hkeep.seqnos, .inl ?_⟩
          rcases hmuts with hmuts | ⟨hE', -⟩
          · exact hmuts
          · rw [hE] at hE'
            cases hE'
        · intro _ _ hS
          cases hS
      · cases hS
      · cases hS
    | false =>
      obtain ⟨ksA, ksB, hksA, rfl, ha⟩ := checkAndSetKeyspaceIdFilter_pass hcheck
      rw [hkA, hks] at hksA
      cases hksA
      obtain ⟨hF, hgrow⟩ := h.filter.of_admitted ha
      have hp : Passed k sid H c ks₀ ksB := h.filter.passed h.grows h.meta' ha
      -- the check passed, so no mutation was built before it
      have hnone : acc.mutk = none := by
        cases hm : acc.mutk with
        | none => rfl
        | some m =>
          obtain ⟨hp₀, -⟩ := h.mutk hck m hm
          exact (hp₀.not_admitted h.meta' ha h.filter.enableOSO).elim
      have hnil := dataMutationsOf_eq_nil c.kv (h.noData hE)
      have hks' : (acc.w.setKeyspace acc.meta'.keyspaceId ksB).keyspaces k = some ksB := by
        simp [hkA]
      rcases addDataMutation_cases h₂ with ⟨hS, -⟩ | ⟨-, hact, rfl⟩ | ⟨-, hact, μ, hμ, rfl⟩
      · cases hS
      · refine ⟨ksB, hks', hF, fun v => UInt64.le_trans (h.grows v) (hgrow v),
          h.meta'.firstSnap first, hnoData, hbuilt, fun _ m hm => (by cases hm), ?_⟩
        intro _ _ _
        exact ⟨hp, by simp [hact]⟩
      · refine ⟨ksB, hks', hF, fun v => UInt64.le_trans (h.grows v) (hgrow v),
          h.meta'.firstSnap first, hnoData, hbuilt, ?_, ?_⟩
        · intro _ m hm
          cases hm
          exact ⟨hp, .inr ⟨rfl, rfl⟩⟩
        · intro _ _ _
          refine ⟨hp, ?_⟩
          rw [if_pos hact]
          refine ⟨_, rfl, ?_⟩
          simp [hnone, dataMutationsOf_snoc_data c.kv pre hx hμ, hnil]

/-- **One command** of the call keeps its invariant: one case per kind of command. -/
theorem CallInv.step (h : CallInv k sid r₀ H c active ks₀ pre acc ks)
    (hks : acc.w.keyspaces k = some ks) (hmem : x ∈ c.kv.commands.zipIdx)
    (hstep : handleCommand c.kv active acc x = some acc') :
    ∃ ks', acc'.w.keyspaces k = some ks' ∧ CallInv k sid r₀ H c active ks₀ (pre ++ [x]) acc' ks' := by
  -- the commands that only send messages
  have hmsgs : ∀ msgs, cmdKind x.1.toUInt8 ≠ .data → acc' = { acc with msgs := msgs } →
      ∃ ks', acc'.w.keyspaces k = some ks' ∧
        CallInv k sid r₀ H c active ks₀ (pre ++ [x]) acc' ks' := by
    rintro msgs hx rfl
    exact ⟨ks, hks, h.frame h.filter rfl rfl rfl rfl rfl hx⟩
  -- the snapshot and OSO markers, which keep the entries alike
  have hkeeps : ∀ w' msgs, cmdKind x.1.toUInt8 ≠ .data → acc.w.Keeps w' →
      acc' = { acc with w := w', msgs := msgs } →
      ∃ ks', acc'.w.keyspaces k = some ks' ∧
        CallInv k sid r₀ H c active ks₀ (pre ++ [x]) acc' ks' := by
    rintro w' msgs hx hw rfl
    obtain ⟨ks', hks', hkeep⟩ := hw.some hks
    exact ⟨ks', hks', h.frame (h.filter.keeps hkeep) hkeep.seqnos rfl rfl rfl rfl hx⟩
  unfold handleCommand at hstep
  dsimp only at hstep
  cases hk : cmdKind x.1.toUInt8 <;> rw [hk] at hstep <;> dsimp only at hstep
  case data =>
    obtain ⟨acc₁, h₁, h₂⟩ := Option.bind_eq_some_iff.1 hstep
    exact h.dataCmd hks hk h₁ h₂
  case dropData =>
    cases hstep
    exact hmsgs _ (by rw [hk]; decide) rfl
  case streamBegin =>
    obtain ⟨key, hkey, hstep⟩ := Option.bind_eq_some_iff.1 hstep
    cases hstep
    exact h.streamBegin hks hk hmem hkey rfl rfl rfl rfl rfl
  case streamEnd =>
    cases hstep
    exact hmsgs _ (by rw [hk]; decide) rfl
  case snapshot =>
    obtain ⟨⟨snapType, snapStart, snapEnd⟩, -, hstep⟩ := Option.bind_eq_some_iff.1 hstep
    split at hstep
    · obtain ⟨⟨w', msgs⟩, hsnap, hstep⟩ := Option.bind_eq_some_iff.1 hstep
      cases hstep
      exact hkeeps _ _ (by rw [hk]; decide) (updateSnapInFilter_keeps hsnap) rfl
    · cases hstep
      exact hmsgs _ (by rw [hk]; decide) rfl
  case seqnoAdvance =>
    exact h.filler hks (by rw [hk]; decide) hstep
  case systemEvent =>
    obtain ⟨manifestuid, -, hstep⟩ := Option.bind_eq_some_iff.1 hstep
    obtain ⟨scopeId, -, hstep⟩ := Option.bind_eq_some_iff.1 hstep
    obtain ⟨collectionId, -, hstep⟩ := Option.bind_eq_some_iff.1 hstep
    -- the system event's message goes first, then the check
    exact (h.msgs (acc.msgs ++ [.systemEvent acc.meta' x.1.toUInt8 manifestuid scopeId
      collectionId])).filler hks (by rw [hk]; decide) hstep
  case osoMarker =>
    obtain ⟨⟨w', msgs⟩, hoso, hstep⟩ := Option.bind_eq_some_iff.1 hstep
    cases hstep
    exact hkeeps _ _ (by rw [hk]; decide) (updateOSOMarkerInFilter_keeps hoso) rfl
  case other =>
    cases hstep
    exact hmsgs acc.msgs (by rw [hk]; decide) rfl

end Command

/-! ## §4 — one call, and what is enqueued -/

section Call

variable {k : String} {sid : UInt64} {r₀ : Vbucket → UInt64} {H : List KvCall} {c : KvCall}
  {active : Bool} {ks₀ ks : KeyspaceFilter} {v : Vbucket} {m : MutationKeys}
  {Q : List MutationKeys}

/-- **The loop over a call's commands** keeps the call's invariant, from its start. -/
theorem commands_callInv {w : StreamWorker} {acc : KvVars} (hF : FilterInv k sid r₀ H ks₀)
    (hks : w.keyspaces k = some ks₀)
    (h : c.kv.commands.zipIdx.foldlM (handleCommand c.kv active)
      ⟨w, none, false, true, c.meta', []⟩ = some acc) :
    ∃ ks, acc.w.keyspaces k = some ks ∧
      CallInv k sid r₀ H c active ks₀ c.kv.commands.zipIdx acc ks := by
  refine GoLoop.foldlM_invariant
    (fun pre acc => ∃ ks, acc.w.keyspaces k = some ks ∧ CallInv k sid r₀ H c active ks₀ pre acc ks)
    ⟨ks₀, hks, ?_⟩ ?_ h
  · exact ⟨hF.mono (List.subset_append_left H [c]), fun v => UInt64.le_refl _, metaOf_meta c,
      fun _ y hy => (by cases hy), fun m hm => (by cases hm), fun _ m hm => (by cases hm),
      fun _ hE => (by cases hE)⟩
  · rintro pre x post acc acc' hl ⟨ks, hks, hinv⟩ hstep
    exact hinv.step hks (by rw [hl]; simp) hstep

/-- A mutation enqueued for keyspace `k`'s vbucket `v` after the calls `H`, with the filter at
`ks`: above the restart filter and at most the filter, with an opaque of the session, and built
by a call of `H` after a `StreamBegin` for `v`. -/
structure ItemOk (k : String) (sid : UInt64) (r₀ : Vbucket → UInt64) (H : List KvCall)
    (ks : KeyspaceFilter) (v : Vbucket) (m : MutationKeys) : Prop where
  restart : r₀ v < m.meta'.seqno
  le_filter : m.meta'.seqno ≤ ks.filter.seqnos v
  opaque2 : m.meta'.opaque2 = 0 ∨ m.meta'.opaque2 = sid
  built : ∃ pre c post, H = pre ++ c :: post ∧ EnqueuedBy c m ∧
    ∃ c' ∈ pre ++ [c], StreamBeganOk k v sid c'

/-- What has been enqueued for keyspace `k`: on each vbucket in strictly increasing seqnos, each
mutation as `ItemOk` says. -/
structure ItemsInv (k : String) (sid : UInt64) (r₀ : Vbucket → UInt64) (H : List KvCall)
    (ks : KeyspaceFilter) (Q : List MutationKeys) : Prop where
  sorted : ∀ v, ((vbItems k v Q).map fun m => m.meta'.seqno).Pairwise (· < ·)
  item : ∀ v, ∀ m ∈ vbItems k v Q, ItemOk k sid r₀ H ks v m

theorem vbItems_snoc (k : String) (v : Vbucket) (Q : List MutationKeys) (m : MutationKeys) :
    vbItems k v (Q ++ [m]) =
      vbItems k v Q ++ if m.meta'.keyspaceId = k ∧ m.meta'.vbucket = v then [m] else [] := by
  unfold vbItems
  rw [List.filter_append]
  simp only [List.filter_cons, List.filter_nil, decide_eq_true_eq]

/-- A mutation stays as `ItemOk` says over later calls, the filter only moving up. -/
theorem ItemOk.later {ks' : KeyspaceFilter} (h : ItemOk k sid r₀ H ks v m)
    (hgrow : ∀ v, ks.filter.seqnos v ≤ ks'.filter.seqnos v) :
    ItemOk k sid r₀ (H ++ [c]) ks' v m := by
  refine ⟨h.restart, UInt64.le_trans h.le_filter (hgrow v), h.opaque2, ?_⟩
  obtain ⟨pre, c₀, post, hH, he, hb⟩ := h.built
  exact ⟨pre, c₀, post ++ [c], by rw [hH]; simp, he, hb⟩

/-- A call that enqueues nothing for `k` keeps what was enqueued. -/
theorem ItemsInv.later {ks' : KeyspaceFilter} (hQ : ItemsInv k sid r₀ H ks Q)
    (hgrow : ∀ v, ks.filter.seqnos v ≤ ks'.filter.seqnos v) :
    ItemsInv k sid r₀ (H ++ [c]) ks' Q :=
  ⟨hQ.sorted, fun v m hm => (hQ.item v m hm).later hgrow⟩

/-- A call that enqueues `m`, let through above where the filter was at the call's start,
keeps what is enqueued in order. -/
theorem ItemsInv.push {ks' : KeyspaceFilter} (hQ : ItemsInv k sid r₀ H ks Q)
    (hgrow : ∀ v, ks.filter.seqnos v ≤ ks'.filter.seqnos v)
    (hm : m.meta'.keyspaceId = k → ks.filter.seqnos m.meta'.vbucket < m.meta'.seqno ∧
      ItemOk k sid r₀ (H ++ [c]) ks' m.meta'.vbucket m) :
    ItemsInv k sid r₀ (H ++ [c]) ks' (Q ++ [m]) := by
  refine ⟨fun v => ?_, fun v m' hm' => ?_⟩
  all_goals rw [vbItems_snoc] at *
  all_goals by_cases hkv : m.meta'.keyspaceId = k ∧ m.meta'.vbucket = v
  · -- the new mutation is above every one enqueued before for `v`
    rw [if_pos hkv, List.map_append, List.pairwise_append]
    refine ⟨hQ.sorted v, by simp, ?_⟩
    intro a ha b hb
    obtain ⟨m', hm', rfl⟩ := List.mem_map.1 ha
    rw [List.map_singleton, List.mem_singleton] at hb
    subst hb
    obtain ⟨hlt, -⟩ := hm hkv.1
    rw [hkv.2] at hlt
    exact UInt64.lt_of_le_of_lt (hQ.item v m' hm').le_filter hlt
  · rw [if_neg hkv, List.append_nil]
    exact hQ.sorted v
  · rw [if_pos hkv] at hm'
    rcases List.mem_append.1 hm' with hm' | hm'
    · exact (hQ.item v m' hm').later hgrow
    · rw [List.mem_singleton.1 hm', ← hkv.2]
      exact (hm hkv.1).2
  · rw [if_neg hkv, List.append_nil] at hm'
    exact (hQ.item v m' hm').later hgrow

/-- The mutation the call `c` ends with, for keyspace `k`: let through above every earlier one,
and built as `EnqueuedBy` says. -/
theorem CallInv.itemOk {acc : KvVars}
    (h : CallInv k sid r₀ H c active ks₀ c.kv.commands.zipIdx acc ks) (hF₀ : FilterInv k sid r₀ H ks₀)
    (hm : acc.mutk = some m) (hk : m.meta'.keyspaceId = k) :
    ks₀.filter.seqnos m.meta'.vbucket < m.meta'.seqno ∧
      ItemOk k sid r₀ (H ++ [c]) ks m.meta'.vbucket m := by
  obtain ⟨hmeta, hdoc⟩ := h.built m hm
  have hck : c.keyspaceId = k := hmeta.keyspaceId.symm.trans hk
  obtain ⟨hp, hmuts⟩ := h.mutk hck m hm
  rw [hmeta.vbucket]
  refine ⟨by rw [hmeta.seqno]; exact hp.seqno_gt,
    by rw [hmeta.seqno]; exact UInt64.lt_of_le_of_lt (hF₀.restart _) hp.seqno_gt, ?_, ?_, ?_⟩
  · rw [hmeta.seqno, hp.seqno_eq]
    exact UInt64.le_refl _
  · rw [hmeta.opaque2]
    exact hp.opaque2
  -- the data commands' mutations, when `evalFilter` and `skipMutation` are both off
  have hbuilt : EnqueuedBy c m := by
    refine ⟨hmeta, hdoc, ?_⟩
    rcases hmuts with hfill | ⟨hE, hS⟩
    · exact .inr hfill
    · obtain ⟨-, hd⟩ := h.data hck hE hS
      cases hact : active
      · rw [hact, if_neg (by decide)] at hd
        rw [hd] at hm
        cases hm
      · rw [hact, if_pos rfl] at hd
        obtain ⟨m', hm', hmuts'⟩ := hd
        rw [hm] at hm'
        cases hm'
        exact .inl hmuts'
  exact ⟨H, c, [], rfl, hbuilt, hp.began⟩

end Call

/-! ## §5 — whole runs -/

section Run

variable {k : String} {sid : UInt64} {r₀ : Vbucket → UInt64} {H : List KvCall}
  {r r' : WorkerRun}

/-- The run after the calls `H`: keyspace `k`'s entries and what has been enqueued. -/
def RunInv (k : String) (sid : UInt64) (r₀ : Vbucket → UInt64) (H : List KvCall)
    (r : WorkerRun) : Prop :=
  ∃ ks, r.w.keyspaces k = some ks ∧ FilterInv k sid r₀ H ks ∧ ItemsInv k sid r₀ H ks r.enqueued

/-- **One call**: its commands, then its mutation to the queue if there is one for its
keyspace. -/
theorem RunInv.call {c : KvCall} (h : RunInv k sid r₀ H r) (hc : handleCall r c = some r') :
    RunInv k sid r₀ (H ++ [c]) r' := by
  obtain ⟨ks₀, hks, hF, hQ⟩ := h
  unfold handleCall handleSingleKeyVersion at hc
  obtain ⟨⟨w', q, msgs⟩, hs, hc⟩ := Option.bind_eq_some_iff.1 hc
  obtain ⟨acc, hacc, hs⟩ := Option.bind_eq_some_iff.1 hs
  cases hs
  cases hc
  obtain ⟨ks, hks', hinv⟩ := commands_callInv hF hks hacc
  refine ⟨ks, hks', hinv.filter, ?_⟩
  show ItemsInv k sid r₀ (H ++ [c]) ks
    (r.enqueued ++ (acc.mutk.map (handleSingleMutation r.queueMap)).getD [])
  cases hm : acc.mutk with
  | none =>
    rw [Option.map_none, Option.getD_none, List.append_nil]
    exact hQ.later hinv.grows
  | some m =>
    rw [Option.map_some, Option.getD_some]
    unfold handleSingleMutation
    split
    · exact hQ.push hinv.grows (hinv.itemOk hF hm)
    · rw [List.append_nil]
      exact hQ.later hinv.grows

/-- **One vbucket message**: its calls in turn. -/
theorem RunInv.keyVersions {vb : VbKeyVersions} (h : RunInv k sid r₀ H r)
    (hvb : handleKeyVersions r vb = some r') : RunInv k sid r₀ (H ++ vb.calls) r' :=
  GoLoop.foldlM_invariant (fun pre r => RunInv k sid r₀ (H ++ pre) r) (by simpa using h)
    (fun pre c _ r r' _ h hc => by simpa using h.call hc) hvb

/-- **One event**: a supervisor command that keeps `k` in the queue map leaves its entries. -/
theorem RunInv.event {e : WorkerEvent} (h : RunInv k sid r₀ H r)
    (hkeep : e.keepsKeyspace k = true) (he : handleEvent r e = some r') :
    RunInv k sid r₀ (H ++ e.calls) r' := by
  cases e with
  | keyVersions vb => exact h.keyVersions he
  | updateQueueMap queueMap keyspaceIdFilter keyspaceIdSessionId keyspaceIdEnableOSO =>
    cases he
    obtain ⟨ks, hks, hF, hQ⟩ := h
    simp only [WorkerEvent.calls, List.append_nil]
    exact ⟨ks, initKeyspaceIdFilter_of_some hkeep hks, hF, hQ⟩
  | pauseMOI =>
    cases he
    simp only [WorkerEvent.calls, List.append_nil]
    exact h

/-- **Every run** whose supervisor commands keep `k` in the queue map. -/
theorem RunInv.run {es : List WorkerEvent} (h : RunInv k sid r₀ [] r)
    (hkeep : ∀ e ∈ es, e.keepsKeyspace k = true) (hrun : runWorker r es = some r') :
    RunInv k sid r₀ (es.flatMap WorkerEvent.calls) r' := by
  refine GoLoop.foldlM_invariant (fun pre r => RunInv k sid r₀ (pre.flatMap WorkerEvent.calls) r)
    h ?_ hrun
  intro pre e post r r' hl h he
  rw [List.flatMap_append, List.flatMap_singleton]
  exact h.event (hkeep e (by rw [hl]; simp)) he

/-- The install of `k`'s entries by `initKeyspaceIdFilter`, with OSO off, and nothing enqueued
yet. -/
theorem runInv_install {queueMap : String → Bool} {keyspaceIdFilter : String → Option TsVbuuid}
    {keyspaceIdSessionId : String → UInt64} {keyspaceIdEnableOSO : String → Bool}
    (hnone : r.w.keyspaces k = none) (hq : queueMap k = true)
    (hoso : keyspaceIdEnableOSO k = false) :
    RunInv k (keyspaceIdSessionId k) (restartSeqno keyspaceIdFilter k) []
      { r with
        w := r.w.initKeyspaceIdFilter queueMap keyspaceIdFilter keyspaceIdSessionId
          keyspaceIdEnableOSO
        queueMap := queueMap
        enqueued := [] } := by
  refine ⟨_, initKeyspaceIdFilter_of_none hq hnone, ⟨rfl, hoso, fun v => ?_, fun v hv => ?_⟩,
    ⟨fun v => by simp [vbItems], fun v m hm => by simp [vbItems] at hm⟩⟩
  · rw [newKeyspaceFilter_seqnos]
    exact UInt64.le_refl _
  · rw [newKeyspaceFilter_vbuuids] at hv
    exact (hv rfl).elim

end Run

/-! ## §6 — the stream worker admits in order -/

/-- **The stream worker admits each vbucket's mutations in seqno order.** From a worker without
entries for `k`, a queue map that has `k` installs its filter with OSO off, from the restart
filter and the session id the supervisor gives. Over every run of messages and commands after
it that keep `k` in the queue map, what the worker enqueues for `k`'s vbucket `v` has strictly
increasing seqnos, all above the restart filter's, and each mutation has an opaque of the
session, is built by one call with its data commands' index mutations or one filler, and comes
after a `StreamBegin` for `v` with `STREAM_SUCCESS`, a vbuuid and a valid opaque. -/
theorem runWorker_admits (r r' : WorkerRun) (queueMap : String → Bool)
    (keyspaceIdFilter : String → Option TsVbuuid) (keyspaceIdSessionId : String → UInt64)
    (keyspaceIdEnableOSO : String → Bool) (es : List WorkerEvent) (k : String) (v : Vbucket)
    (hnone : r.w.keyspaces k = none) (hq : queueMap k = true)
    (hoso : keyspaceIdEnableOSO k = false) (hkeep : ∀ e ∈ es, e.keepsKeyspace k = true)
    (hrun : runWorker { r with enqueued := [] }
      (.updateQueueMap queueMap keyspaceIdFilter keyspaceIdSessionId keyspaceIdEnableOSO :: es) =
        some r') :
    ((vbItems k v r'.enqueued).map fun m => m.meta'.seqno).Pairwise (· < ·) ∧
      ∀ m ∈ vbItems k v r'.enqueued, restartSeqno keyspaceIdFilter k v < m.meta'.seqno ∧
        (m.meta'.opaque2 = 0 ∨ m.meta'.opaque2 = keyspaceIdSessionId k) ∧
        ∃ pre c post, es.flatMap WorkerEvent.calls = pre ++ c :: post ∧ EnqueuedBy c m ∧
          ∃ c' ∈ pre ++ [c], StreamBeganOk k v (keyspaceIdSessionId k) c' := by
  unfold runWorker at hrun
  rw [List.foldlM_cons] at hrun
  obtain ⟨r₁, h₁, hrun⟩ := Option.bind_eq_some_iff.1 hrun
  cases h₁
  obtain ⟨ks, -, -, hQ⟩ := (runInv_install hnone hq hoso).run hkeep hrun
  refine ⟨hQ.sorted v, fun m hm => ?_⟩
  have hm := hQ.item v m hm
  exact ⟨hm.restart, hm.opaque2, hm.built⟩

/-- A `StreamBegin` on vbucket 0, an upsert at seqno 3, a late upsert at seqno 2 and a seqno
advance to 4, with the session's opaque. -/
def sampleWorkerEvents : List WorkerEvent :=
  [.keyVersions ⟨"idx", 0, 5, 0, 7, [⟨0, [], [0], [6], [[0]], [], []⟩]⟩,
    .keyVersions ⟨"idx", 0, 5, 0, 7, [⟨3, [1], [11], [1], [[1, 2]], [], []⟩]⟩,
    .keyVersions ⟨"idx", 0, 5, 0, 7, [⟨2, [2], [11], [1], [[3]], [], []⟩]⟩,
    .keyVersions ⟨"idx", 0, 5, 0, 7, [⟨4, [3], [0], [16], [[]], [], []⟩]⟩]

/-- The late upsert is skipped: vbucket 0 gets seqnos 3 and 4. -/
theorem runWorker_admits_sample :
    ∃ r', runWorker ⟨⟨fun _ => none, false⟩, fun _ => false, true, [], []⟩
        (.updateQueueMap (fun k => k == "idx") (fun _ => none) (fun _ => 7) (fun _ => false) ::
          sampleWorkerEvents) = some r' ∧
      (vbItems "idx" 0 r'.enqueued).map (fun m => m.meta'.seqno) = [3, 4] ∧
      (((vbItems "idx" 0 r'.enqueued).map fun m => m.meta'.seqno).Pairwise (· < ·) ∧
        ∀ m ∈ vbItems "idx" 0 r'.enqueued, restartSeqno (fun _ => none) "idx" 0 < m.meta'.seqno ∧
          (m.meta'.opaque2 = 0 ∨ m.meta'.opaque2 = 7) ∧
          ∃ pre c post, sampleWorkerEvents.flatMap WorkerEvent.calls = pre ++ c :: post ∧
            EnqueuedBy c m ∧ ∃ c' ∈ pre ++ [c], StreamBeganOk "idx" 0 7 c') :=
  ⟨_, rfl, by decide,
    runWorker_admits ⟨⟨fun _ => none, false⟩, fun _ => false, true, [], []⟩ _ (fun k => k == "idx") (fun _ => none) (fun _ => 7) (fun _ => false)
      sampleWorkerEvents "idx" 0 rfl (by decide) rfl (by decide) rfl⟩

end Indexer.StreamReader
