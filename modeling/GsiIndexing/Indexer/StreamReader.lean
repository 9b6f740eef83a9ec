import GsiIndexing.Indexer.MutationQueue

/-!
# The stream reader's workers (`indexer/stream_reader.go`)

A `streamWorker` takes the `KeyVersions` of each vbucket message in turn
(`handleKeyVersions`), and for each runs `handleSingleKeyVersion`: a loop over its commands
that consults the keyspace's filter (`checkAndSetKeyspaceIdFilter`), updates it on
`StreamBegin` and snapshot markers, sends control messages to the supervisor, and builds at
most one `MutationKeys`, which `handleSingleMutation` enqueues in the keyspace's queue.

The worker's maps keyed by keyspace (the filter, the OSO filter, the session id, the OSO flag
and exception, the previous snapshots, the sync flag and the first-snapshot flags) are filled
and emptied together by `initKeyspaceIdFilter`, so one `KeyspaceFilter` stands for a
keyspace's entries in all of them. A `TsVbuuid`'s slices are functions of the vbucket: the
vbuckets are taken in range. A slice index out of range or a nil pointer read through is a
panic of the worker, `none`. What the worker enqueues is the list of its `Enqueue` calls, in
order; `Indexer/MutationQueueFifo` proves the queue a FIFO list per vbucket.

The supervisor's commands (a new queue map with `initKeyspaceIdFilter`, the indexer paused)
run on another goroutine under the worker's lock; they are taken between two calls of
`handleSingleKeyVersion`.
-/

namespace Indexer.StreamReader

/-! ## Commands and messages (`common/mutation.go`, `protobuf/data`) -/

def upsert : UInt8 := 1
def deletion : UInt8 := 2
def upsertDeletion : UInt8 := 3
def sync : UInt8 := 4
def dropData : UInt8 := 5
def streamBegin : UInt8 := 6
def streamEnd : UInt8 := 7
def snapshot : UInt8 := 8
def collectionCreate : UInt8 := 9
def collectionDrop : UInt8 := 10
def collectionFlush : UInt8 := 11
def scopeCreate : UInt8 := 12
def scopeDrop : UInt8 := 13
def collectionChanged : UInt8 := 14
def updateSeqno : UInt8 := 15
def seqnoAdvanced : UInt8 := 16
def osoSnapshotStart : UInt8 := 17
def osoSnapshotEnd : UInt8 := 18
def filler : UInt8 := 19

/-- `STREAM_SUCCESS`. -/
def streamSuccess : UInt8 := 0

/-- The cases of `handleSingleKeyVersion`'s `switch byte(cmd)`. -/
inductive CmdKind where
  | data
  | dropData
  | streamBegin
  | streamEnd
  | snapshot
  | seqnoAdvance
  | systemEvent
  | osoMarker
  | other
  deriving DecidableEq, Repr

def cmdKind (cmd : UInt8) : CmdKind :=
  if cmd == upsert || cmd == deletion || cmd == upsertDeletion then .data
  else if cmd == dropData then .dropData
  else if cmd == streamBegin then .streamBegin
  else if cmd == streamEnd then .streamEnd
  else if cmd == snapshot then .snapshot
  else if cmd == updateSeqno || cmd == seqnoAdvanced then .seqnoAdvance
  else if cmd == collectionCreate || cmd == collectionDrop || cmd == collectionFlush ||
      cmd == collectionChanged || cmd == scopeCreate || cmd == scopeDrop then .systemEvent
  else if cmd == osoSnapshotStart || cmd == osoSnapshotEnd then .osoMarker
  else .other

/-- `KeyVersions`: the commands of one document version, each with the index instance, key,
old key and partition key it is for. -/
structure KeyVersions where
  seqno : UInt64
  docid : List UInt8
  uuids : List UInt64
  commands : List UInt32
  keys : List (List UInt8)
  oldkeys : List (List UInt8)
  partnkeys : List (List UInt8)
  deriving DecidableEq, Repr

/-- `VbKeyVersions`: the `KeyVersions` of one vbucket message, with its keyspace, vbucket,
vbuuid, projector version and opaque. -/
structure VbKeyVersions where
  keyspaceId : String
  vbucket : Vbucket
  vbuuid : UInt64
  projVer : Nat
  opaque2 : UInt64
  kvs : List KeyVersions
  deriving DecidableEq, Repr

/-- `binary.BigEndian.Uint64`: the first eight bytes; it panics on fewer. -/
def bigEndianUint64 (b : List UInt8) : Option UInt64 :=
  if b.length < 8 then none else some ((b.take 8).foldl (fun acc x => acc * 256 + x.toUInt64) 0)

/-- `KeyVersions.Snapshot`: the type, start and end of the last snapshot command. -/
def KeyVersions.snapshotMarker (kv : KeyVersions) : Option (UInt32 × UInt64 × UInt64) :=
  kv.commands.zipIdx.foldlM (fun acc (c : UInt32 × Nat) =>
    if c.1.toUInt8 == snapshot then do
      let typ ← kv.uuids[c.2]?
      let start ← bigEndianUint64 (← kv.keys[c.2]?)
      let stop ← bigEndianUint64 (← kv.oldkeys[c.2]?)
      pure (typ.toUInt32, start, stop)
    else pure acc) (0, 0, 0)

/-- `MutationMeta`. -/
structure MutationMeta where
  keyspaceId : String
  vbucket : Vbucket
  vbuuid : UInt64
  seqno : UInt64
  firstSnap : Bool
  projVer : Nat
  opaque2 : UInt64
  deriving DecidableEq, Repr

/-- `Mutation`, by the fields the stream reader sets. -/
structure Mutation where
  uuid : UInt64
  command : UInt8
  key : List UInt8
  partnkey : List UInt8
  deriving DecidableEq, Repr

/-- `MutationKeys`. -/
structure MutationKeys where
  meta' : MutationMeta
  docid : List UInt8
  muts : List Mutation
  deriving DecidableEq, Repr

/-- The messages the worker sends the supervisor (`MsgStream`, `MsgStreamUpdate`). -/
inductive StreamMsg where
  | dropData (meta' : MutationMeta)
  | streamBegin (meta' : MutationMeta) (node : List UInt8) (status errCode : UInt8)
  | streamEnd (meta' : MutationMeta)
  | systemEvent (meta' : MutationMeta) (eventType : UInt8)
      (manifestuid scopeId collectionId : List UInt8)
  | osoSnapshotMarker (meta' : MutationMeta) (eventType : UInt8)
  | resetStream (keyspaceId : String) (sessionId : UInt64)
  deriving DecidableEq, Repr

/-! ## The worker's filters -/

/-- `common.TsVbuuid`, by the fields the stream reader reads and writes: for each vbucket its
seqno, vbuuid and snapshot marker, and `DisableAlign`. -/
structure TsVbuuid where
  seqnos : Vbucket → UInt64
  vbuuids : Vbucket → UInt64
  snapshots : Vbucket → UInt64 × UInt64
  disableAlign : Bool

/-- `NewTsVbuuid`: every vbucket at zero. -/
def TsVbuuid.new : TsVbuuid := ⟨fun _ => 0, fun _ => 0, fun _ => (0, 0), false⟩

/-- `TsVbuuid.Copy`: the slices copied into a `NewTsVbuuid`, so `DisableAlign` is not. -/
def TsVbuuid.copy (ts : TsVbuuid) : TsVbuuid := { ts with disableAlign := false }

/-- A worker's entries for one keyspace: its filter, previous snapshots, sync flag,
first-snapshot flags, session id, OSO flag, OSO filter and OSO exception. -/
structure KeyspaceFilter where
  filter : TsVbuuid
  prevSnap : TsVbuuid
  syncDue : Bool
  firstSnap : Vbucket → Bool
  sessionId : UInt64
  enableOSO : Bool
  filterOSO : Option TsVbuuid
  osoException : Bool

/-- `streamWorker`, by the state it keeps from one `KeyVersions` to the next. -/
structure StreamWorker where
  keyspaces : String → Option KeyspaceFilter
  markFirstSnap : Bool

namespace StreamWorker

/-- The entries of keyspace `k` replaced. -/
def setKeyspace (w : StreamWorker) (k : String) (ks : KeyspaceFilter) : StreamWorker :=
  { w with keyspaces := Function.update w.keyspaces k (some ks) }

/-- A keyspace's entries for a new filter: the restart filter with every vbuuid reset to 0 (a
vbucket waits for its `StreamBegin`), or a zero filter. -/
def newKeyspaceFilter (filter : Option TsVbuuid) (sessionId : UInt64) (enableOSO : Bool) :
    KeyspaceFilter where
  filter := match filter with
    | some f => { f.copy with vbuuids := fun _ => 0 }
    | none => TsVbuuid.new
  prevSnap := match filter with
    | some f => f.copy
    | none => TsVbuuid.new
  syncDue := false
  firstSnap := fun _ => false
  sessionId := sessionId
  enableOSO := enableOSO
  filterOSO := if enableOSO then some TsVbuuid.new else none
  osoException := false

/-- `initKeyspaceIdFilter`: a new filter for each keyspace of the queue map that has none, and
the entries of the keyspaces no longer in it removed. -/
def initKeyspaceIdFilter (w : StreamWorker) (hasQueue : String → Bool)
    (keyspaceIdFilter : String → Option TsVbuuid) (keyspaceIdSessionId : String → UInt64)
    (keyspaceIdEnableOSO : String → Bool) : StreamWorker :=
  { w with keyspaces := fun k =>
      if hasQueue k then
        match w.keyspaces k with
        | some ks => some ks
        | none => some (newKeyspaceFilter (keyspaceIdFilter k) (keyspaceIdSessionId k)
            (keyspaceIdEnableOSO k))
      else none }

/-- The session id check: an opaque of 0 is let through, for backward compatibility. -/
def validOpaque (ks : KeyspaceFilter) (meta' : MutationMeta) : Bool :=
  meta'.opaque2 == 0 || meta'.opaque2 == ks.sessionId

/-- `checkAndSetKeyspaceIdFilterDefault`: `(skip, firstSnap)`; a mutation is let through when
its seqno is above the filter's and the vbucket has had its `StreamBegin`, and the filter then
moves to it. -/
def checkAndSetKeyspaceIdFilterDefault (ks : KeyspaceFilter) (meta' : MutationMeta) :
    KeyspaceFilter × Bool × Bool :=
  let v := meta'.vbucket
  if !validOpaque ks meta' then (ks, true, false)
  else
    -- out of the snapshot: not the first snapshot, for safety
    let out := meta'.seqno < (ks.filter.snapshots v).1 || meta'.seqno > (ks.filter.snapshots v).2
    let ks := { ks with
      firstSnap := if out then Function.update ks.firstSnap v false else ks.firstSnap }
    if meta'.seqno > ks.filter.seqnos v && ks.filter.vbuuids v != 0 then
      ({ ks with
          filter := { ks.filter with
            seqnos := Function.update ks.filter.seqnos v meta'.seqno
            vbuuids := Function.update ks.filter.vbuuids v meta'.vbuuid }
          syncDue := true }, false, ks.firstSnap v)
    else (ks, true, false)

/-- `checkAndSetKeyspaceIdFilterOSO`, within an OSO snapshot: any seqno once the vbucket has had
its `StreamBegin`; the OSO filter counts the mutations and keeps the highest seqno. -/
def checkAndSetKeyspaceIdFilterOSO (ks : KeyspaceFilter) (filterOSO : TsVbuuid)
    (meta' : MutationMeta) : KeyspaceFilter × Bool × Bool :=
  let v := meta'.vbucket
  if !validOpaque ks meta' then (ks, true, false)
  else if ks.filter.vbuuids v == 0 then (ks, true, false)
  else
    let filterOSO := { filterOSO with
      vbuuids := Function.update filterOSO.vbuuids v (filterOSO.vbuuids v + 1)
      seqnos := if meta'.seqno > filterOSO.seqnos v
        then Function.update filterOSO.seqnos v meta'.seqno else filterOSO.seqnos }
    ({ ks with
        filterOSO := some filterOSO
        filter := { ks.filter with vbuuids := Function.update ks.filter.vbuuids v meta'.vbuuid }
        syncDue := true }, false, ks.firstSnap v)

/-- `checkAndSetKeyspaceIdFilter`: skip everything after an OSO exception, the OSO check within
an OSO snapshot, the default one otherwise. -/
def checkAndSetKeyspaceIdFilter (w : StreamWorker) (meta' : MutationMeta) :
    Option (StreamWorker × Bool × Bool) :=
  match w.keyspaces meta'.keyspaceId with
  | none => some (w, true, false)
  | some ks =>
    let default :=
      let r := checkAndSetKeyspaceIdFilterDefault ks meta'
      some (w.setKeyspace meta'.keyspaceId r.1, r.2.1, r.2.2)
    if ks.osoException then some (w, true, false)
    else if ks.enableOSO then
      match ks.filterOSO with
      | none => none
      | some filterOSO =>
        if filterOSO.snapshots meta'.vbucket == (1, 0) then
          let r := checkAndSetKeyspaceIdFilterOSO ks filterOSO meta'
          some (w.setKeyspace meta'.keyspaceId r.1, r.2.1, r.2.2)
        else default
    else default

/-- `resetStream` of the OSO checks: the keyspace skips everything from now on, and the
supervisor is asked to reset the stream. -/
def resetStream (w : StreamWorker) (k : String) (ks : KeyspaceFilter) :
    StreamWorker × List StreamMsg :=
  (w.setKeyspace k { ks with osoException := true }, [.resetStream k ks.sessionId])

/-- `updateOSOMarkerInFilter`: an OSO start opens the vbucket's OSO snapshot and an OSO end
closes it; a marker with OSO off, a start within a DCP snapshot or a second start resets the
stream. -/
def updateOSOMarkerInFilter (w : StreamWorker) (meta' : MutationMeta) (eventType : UInt8) :
    Option (StreamWorker × List StreamMsg) :=
  let k := meta'.keyspaceId
  let v := meta'.vbucket
  match w.keyspaces k with
  | none => some (w, [])
  | some ks =>
    if !validOpaque ks meta' then some (w, [])
    else if !ks.enableOSO then some (w.resetStream k ks)
    else if eventType == osoSnapshotStart then
      if (ks.filter.snapshots v).2 != 0 then some (w.resetStream k ks)
      else match ks.filterOSO with
        | none => none
        | some filterOSO =>
          if filterOSO.snapshots v == (1, 0) then some (w.resetStream k ks)
          else
            let filterOSO := { filterOSO with snapshots := Function.update filterOSO.snapshots v (1, 0) }
            let first := w.markFirstSnap && (ks.filter.snapshots v).2 == 0 &&
              ks.filter.seqnos v == 0 && filterOSO.seqnos v == 0
            some (w.setKeyspace k { ks with
              filterOSO := some filterOSO
              firstSnap := Function.update ks.firstSnap v first }, [])
    else if eventType == osoSnapshotEnd then
      match ks.filterOSO with
      | none => none
      | some filterOSO =>
        let filterOSO := { filterOSO with
          snapshots := Function.update filterOSO.snapshots v ((filterOSO.snapshots v).1, 1) }
        some (w.setKeyspace k { ks with
          filterOSO := some filterOSO
          firstSnap := Function.update ks.firstSnap v false
          syncDue := true }, [])
    else some (w, [])

/-- `setFirstSnap`: a snapshot from 0 on a vbucket with none yet and no OSO snapshot is the
first. -/
def setFirstSnap (markFirstSnap : Bool) (ks : KeyspaceFilter) (meta' : MutationMeta)
    (snapStart : UInt64) : Option KeyspaceFilter := do
  let v := meta'.vbucket
  let anyOSOSnap ← if ks.enableOSO then
      (ks.filterOSO.map fun filterOSO => (filterOSO.snapshots v).1 == 1)
    else some false
  let first := markFirstSnap && snapStart == 0 && (ks.filter.snapshots v).2 == 0 && !anyOSOSnap
  pure { ks with firstSnap := Function.update ks.firstSnap v first }

/-- `updateSnapInFilter`: a snapshot marker past the filter's, once the vbucket has had its
`StreamBegin`, becomes the filter's, and the one before it goes to the previous snapshots; the
first marker after an OSO snapshot takes that snapshot as the previous one, and resets the
stream if the OSO snapshot has no end or went past the marker. -/
def updateSnapInFilter (w : StreamWorker) (meta' : MutationMeta) (snapStart snapEnd : UInt64) :
    Option (StreamWorker × List StreamMsg) :=
  let k := meta'.keyspaceId
  let v := meta'.vbucket
  match w.keyspaces k with
  | none => some (w, [])
  | some ks =>
    if !validOpaque ks meta' then some (w, [])
    else do
      let ks ← setFirstSnap w.markFirstSnap ks meta' snapStart
      if snapEnd > (ks.filter.snapshots v).2 && ks.filter.vbuuids v != 0 then
        let afterOSO ← if ks.enableOSO then
            ks.filterOSO.map fun filterOSO =>
              if ks.filter.snapshots v == (0, 0) && (filterOSO.snapshots v).1 == 1
              then some filterOSO else none
          else some none
        match afterOSO with
        | some filterOSO =>
          let noEnd := (filterOSO.snapshots v).2 != 1
          let below := snapEnd < filterOSO.seqnos v
          let reset (b : Bool) := if b then [StreamMsg.resetStream k ks.sessionId] else []
          -- the OSO filter's vbuuid is its count: the previous snapshot takes the filter's
          let prevSnap := { ks.prevSnap with
            snapshots := Function.update ks.prevSnap.snapshots v (filterOSO.snapshots v)
            seqnos := Function.update ks.prevSnap.seqnos v (filterOSO.seqnos v)
            vbuuids := Function.update ks.prevSnap.vbuuids v (ks.filter.vbuuids v) }
          let filter := { ks.filter with
            snapshots := Function.update ks.filter.snapshots v (snapStart, snapEnd) }
          pure (w.setKeyspace k { ks with
            osoException := ks.osoException || noEnd || below
            prevSnap := prevSnap
            filter := filter }, reset noEnd ++ reset below)
        | none =>
          let prevSnap := { ks.prevSnap with
            snapshots := Function.update ks.prevSnap.snapshots v (ks.filter.snapshots v)
            vbuuids := Function.update ks.prevSnap.vbuuids v (ks.filter.vbuuids v)
            seqnos := Function.update ks.prevSnap.seqnos v (ks.filter.seqnos v) }
          -- a partial snapshot: kept apart for the sync message
          let filter := if (ks.filter.snapshots v).2 != ks.filter.seqnos v
            then { ks.filter with disableAlign := true } else ks.filter
          let filter := { filter with
            snapshots := Function.update filter.snapshots v (snapStart, snapEnd) }
          pure (w.setKeyspace k { ks with prevSnap := prevSnap, filter := filter }, [])
      else pure (w.setKeyspace k ks, [])

/-- `updateVbuuidInFilter`: the vbuuid of a `StreamBegin`. -/
def updateVbuuidInFilter (w : StreamWorker) (meta' : MutationMeta) : StreamWorker :=
  match w.keyspaces meta'.keyspaceId with
  | none => w
  | some ks =>
    if !validOpaque ks meta' then w
    else w.setKeyspace meta'.keyspaceId { ks with
      filter := { ks.filter with
        vbuuids := Function.update ks.filter.vbuuids meta'.vbucket meta'.vbuuid } }

end StreamWorker

/-! ## `handleSingleKeyVersion` -/

/-- The filler mutation the flusher gets for a seqno or a system event. -/
def fillerMutation : Mutation := ⟨0, filler, [], []⟩

/-- `allocateFillerMutation`. -/
def allocateFillerMutation (meta' : MutationMeta) (docid : List UInt8) : MutationKeys :=
  ⟨meta', docid, [fillerMutation]⟩

/-- The variables of `handleSingleKeyVersion`'s loop over the commands: the worker, `mutk`,
`skipMutation`, `evalFilter`, `meta` and the messages sent to the supervisor. -/
structure KvVars where
  w : StreamWorker
  mutk : Option MutationKeys
  skipMutation : Bool
  evalFilter : Bool
  meta' : MutationMeta
  msgs : List StreamMsg

/-- The status of a `StreamBegin` and its error code, in the first two bytes of its key. -/
def streamStatus (key : List UInt8) : UInt8 × UInt8 :=
  (key[0]?.getD streamSuccess, key[1]?.getD 0)

/-- The index mutation of a data command `i`. -/
def dataMutation (kv : KeyVersions) (cmd : UInt8) (i : Nat) : Option Mutation := do
  let uuid ← kv.uuids[i]?
  let key ← kv.keys[i]?
  -- projectors before 5.1 send no partition keys
  let partnkey ← if kv.partnkeys.length != 0 then kv.partnkeys[i]? else some []
  pure ⟨uuid, cmd, key, partnkey⟩

/-- The filter check of a data command, made once for the keys of one `KeyVersions`. -/
def evalDataFilter (acc : KvVars) : Option KvVars :=
  if acc.evalFilter then do
    let r ← acc.w.checkAndSetKeyspaceIdFilter acc.meta'
    pure { acc with
      w := r.1
      evalFilter := false
      skipMutation := r.2.1
      meta' := { acc.meta' with firstSnap := r.2.2 } }
  else pure acc

/-- A data command once the filter is evaluated: skipped, dropped while the indexer is not
active, or its index mutation added to `mutk`. -/
def addDataMutation (kv : KeyVersions) (indexerActive : Bool) (acc : KvVars) (cmd : UInt8)
    (i : Nat) : Option KvVars :=
  if acc.skipMutation then pure acc
  else if !indexerActive then pure { acc with mutk := none }
  else do
    let mut₁ ← dataMutation kv cmd i
    let mutk := acc.mutk.getD ⟨acc.meta', kv.docid, []⟩
    pure { acc with mutk := some { mutk with muts := mutk.muts ++ [mut₁] } }

/-- The filter check of a seqno advance or a system event, each time, with a filler mutation
for the flusher when it passes. -/
def checkFillerMutation (kv : KeyVersions) (acc : KvVars) : Option KvVars := do
  let r ← acc.w.checkAndSetKeyspaceIdFilter acc.meta'
  pure { acc with
    w := r.1
    mutk := if r.2.1 then acc.mutk else some (allocateFillerMutation acc.meta' kv.docid) }

/-- One command `i` of the loop. -/
def handleCommand (kv : KeyVersions) (indexerActive : Bool) (acc : KvVars) (c : UInt32 × Nat) :
    Option KvVars :=
  let cmd := c.1.toUInt8
  let i := c.2
  match cmdKind cmd with
  | .data => do
    let acc ← evalDataFilter acc
    addDataMutation kv indexerActive acc cmd i
  | .dropData => pure { acc with msgs := acc.msgs ++ [.dropData acc.meta'] }
  | .streamBegin => do
    let (status, code) := streamStatus (← kv.keys[i]?)
    let w := if status == streamSuccess then acc.w.updateVbuuidInFilter acc.meta' else acc.w
    pure { acc with w := w, msgs := acc.msgs ++ [.streamBegin acc.meta' kv.docid status code] }
  | .streamEnd => pure { acc with msgs := acc.msgs ++ [.streamEnd acc.meta'] }
  | .snapshot => do
    let (snapType, snapStart, snapEnd) ← kv.snapshotMarker
    -- only on-disk and in-memory snapshots
    if snapType &&& 3 != 0 then do
      let (w, msgs) ← acc.w.updateSnapInFilter acc.meta' snapStart snapEnd
      pure { acc with w := w, msgs := acc.msgs ++ msgs }
    else pure acc
  | .seqnoAdvance => checkFillerMutation kv acc
  | .systemEvent => do
    let manifestuid ← kv.keys[i]?
    let scopeId ← kv.oldkeys[i]?
    let collectionId ← kv.partnkeys[i]?
    checkFillerMutation kv { acc with
      msgs := acc.msgs ++ [.systemEvent acc.meta' cmd manifestuid scopeId collectionId] }
  | .osoMarker => do
    let (w, msgs) ← acc.w.updateOSOMarkerInFilter acc.meta' cmd
    pure { acc with w := w, msgs := acc.msgs ++ msgs ++ [.osoSnapshotMarker acc.meta' cmd] }
  | .other => pure acc

/-- `handleSingleMutation`: the mutation goes to its keyspace's queue, if there is one. -/
def handleSingleMutation (queueMap : String → Bool) (mutk : MutationKeys) : List MutationKeys :=
  if queueMap mutk.meta'.keyspaceId then [mutk] else []

/-- `handleSingleKeyVersion`: the worker after the commands of `kv`, what it enqueued and the
messages it sent. -/
def handleSingleKeyVersion (queueMap : String → Bool) (indexerActive : Bool) (w : StreamWorker)
    (keyspaceId : String) (vbucket : Vbucket) (vbuuid opaque2 : UInt64) (kv : KeyVersions)
    (projVer : Nat) : Option (StreamWorker × List MutationKeys × List StreamMsg) := do
  let meta' : MutationMeta := ⟨keyspaceId, vbucket, vbuuid, kv.seqno, false, projVer, opaque2⟩
  let acc ← kv.commands.zipIdx.foldlM (handleCommand kv indexerActive)
    ⟨w, none, false, true, meta', []⟩
  pure (acc.w, (acc.mutk.map (handleSingleMutation queueMap)).getD [], acc.msgs)

/-! ## The worker over a stream -/

/-- The arguments of one `handleSingleKeyVersion` call: a `KeyVersions` with the fields of its
vbucket message. -/
structure KvCall where
  keyspaceId : String
  vbucket : Vbucket
  vbuuid : UInt64
  opaque2 : UInt64
  kv : KeyVersions
  projVer : Nat
  deriving DecidableEq, Repr

/-- The calls `handleKeyVersions` makes for one vbucket message. -/
def VbKeyVersions.calls (vb : VbKeyVersions) : List KvCall :=
  vb.kvs.map fun kv => ⟨vb.keyspaceId, vb.vbucket, vb.vbuuid, vb.opaque2, kv, vb.projVer⟩

/-- A worker with what the reader shares with it (the keyspaces with a queue and whether the
indexer is active), and what it has enqueued and sent so far. -/
structure WorkerRun where
  w : StreamWorker
  queueMap : String → Bool
  indexerActive : Bool
  enqueued : List MutationKeys
  msgs : List StreamMsg

/-- One `handleSingleKeyVersion` call, its mutation and messages added to the run's. -/
def handleCall (r : WorkerRun) (c : KvCall) : Option WorkerRun := do
  let (w, q, msgs) ← handleSingleKeyVersion r.queueMap r.indexerActive r.w c.keyspaceId c.vbucket
    c.vbuuid c.opaque2 c.kv c.projVer
  pure { r with w := w, enqueued := r.enqueued ++ q, msgs := r.msgs ++ msgs }

/-- `handleKeyVersions`: the `KeyVersions` of one vbucket message in turn. -/
def handleKeyVersions (r : WorkerRun) (vb : VbKeyVersions) : Option WorkerRun :=
  vb.calls.foldlM handleCall r

/-- What a worker goes through: a vbucket message from its channel, or a command of the
supervisor that the reader's `handleSupervisorCommands` applies to every worker. -/
inductive WorkerEvent where
  | keyVersions (vb : VbKeyVersions)
  /-- `STREAM_READER_UPDATE_QUEUE_MAP`: the new queue map, and `initKeyspaceIdFilter` -/
  | updateQueueMap (queueMap : String → Bool) (keyspaceIdFilter : String → Option TsVbuuid)
      (keyspaceIdSessionId : String → UInt64) (keyspaceIdEnableOSO : String → Bool)
  /-- `INDEXER_PAUSE_MOI` -/
  | pauseMOI

/-- One event. -/
def handleEvent (r : WorkerRun) : WorkerEvent → Option WorkerRun
  | .keyVersions vb => handleKeyVersions r vb
  | .updateQueueMap queueMap keyspaceIdFilter keyspaceIdSessionId keyspaceIdEnableOSO =>
    some { r with
      queueMap := queueMap
      w := r.w.initKeyspaceIdFilter queueMap keyspaceIdFilter keyspaceIdSessionId
        keyspaceIdEnableOSO }
  | .pauseMOI => some { r with indexerActive := false }

/-- `newStreamWorker`: no entries, then `initKeyspaceIdFilter`. -/
def newStreamWorker (markFirstSnap : Bool) (queueMap : String → Bool)
    (keyspaceIdFilter : String → Option TsVbuuid) (keyspaceIdSessionId : String → UInt64)
    (keyspaceIdEnableOSO : String → Bool) : StreamWorker :=
  StreamWorker.initKeyspaceIdFilter ⟨fun _ => none, markFirstSnap⟩ queueMap keyspaceIdFilter
    keyspaceIdSessionId keyspaceIdEnableOSO

/-- The worker's `start` loop, with the supervisor's commands between its messages. -/
def runWorker (r : WorkerRun) (es : List WorkerEvent) : Option WorkerRun :=
  es.foldlM handleEvent r

end Indexer.StreamReader
