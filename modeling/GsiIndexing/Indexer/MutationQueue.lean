import GsiIndexing.Lib.Loop
import Mathlib.Logic.Function.Basic

/-!
# The atomic mutation queue (`indexer/mutation_queue_atomic.go`)

One queue per vbucket, each a singly linked list of nodes with a sentinel: `head[v]` is the
sentinel, the pending mutations are in the nodes after it, and `tail[v]` is the last node.
Dequeuing clears the mutation of the node after the sentinel and makes that node the new
sentinel; the old sentinels stay linked from `free[v]` up to `head[v]` and are reused by
`Enqueue` through `popFreeList`.

The heap is a map from addresses to nodes, with a counter for fresh allocations. The
operations run one at a time. A nil dereference or a slice index out of range stops an
operation with a `Halt`, and so does a polling loop that finds its queue empty: nothing else
runs, so it would poll forever. `allocNode` takes a free or fresh node when
`checkMemAndAlloc` allows it; otherwise nothing changes while it polls, and it ends with the
fresh node it forces after five minutes. A mutation is read through its `meta.seqno` and
its size (`Size()`, which the stream reader also stores in the `size` field).

`Destroy`, the stop channels and the ticker-driven `Dequeue` are left out.
-/

namespace Indexer

/-- `Vbucket`. -/
abbrev Vbucket := UInt32

/-- `node`: a mutation pointer and a next pointer, both nullable. -/
structure QNode (M : Type) where
  mutation : Option M
  next : Option Nat

/-- `atomicMutationQueue`, with the heap of its nodes. -/
structure AtomicMutationQueue (M : Type) where
  heap : Nat → QNode M
  alloc : Nat
  head : Vbucket → Nat
  tail : Vbucket → Nat
  free : Vbucket → Option Nat
  size : Vbucket → Int
  memUsed : Int
  maxMemory : Int
  minQueueLen : UInt64
  numVbuckets : UInt16

/-- How an operation stops without returning. -/
inductive Halt where
  /-- a nil pointer is dereferenced -/
  | nilDeref
  /-- a slice is indexed out of range -/
  | indexOutOfRange
  /-- a polling loop finds its queue empty and, nothing else running, polls forever -/
  | waits
  /-- the model's bound on the rounds of a loop is reached -/
  | outOfFuel
  deriving DecidableEq, Repr

/-- The channel a dequeuing goroutine closes when it is done. -/
inductive Closed where
  | datach
  | errch
  deriving DecidableEq, Repr

/-- `&node{}`. -/
def QNode.empty {M : Type} : QNode M := ⟨none, none⟩

/-- A pointer read through: `p.f` with `p` nil panics. -/
def deref (p : Option Nat) : Except Halt Nat := p.elim (.error .nilDeref) .ok

namespace AtomicMutationQueue

variable {M : Type}

/-- `NewAtomicMutationQueue`: vbucket `x`'s sentinel at address `x`. -/
def new (numVbuckets : UInt16) (maxMemory memUsed : Int) (minQueueLen : UInt64) :
    AtomicMutationQueue M where
  heap _ := QNode.empty
  alloc := numVbuckets.toNat
  head v := v.toNat
  tail v := v.toNat
  free v := some v.toNat
  size _ := 0
  memUsed := memUsed
  maxMemory := maxMemory
  minQueueLen := minQueueLen
  numVbuckets := numVbuckets

/-- Whether `v` indexes the per-vbucket slices. -/
def inRange (q : AtomicMutationQueue M) (v : Vbucket) : Bool := v.toNat < q.numVbuckets.toNat

/-- A write of one node. -/
def setNode (q : AtomicMutationQueue M) (a : Nat) (n : QNode M) : AtomicMutationQueue M :=
  { q with heap := Function.update q.heap a n }

/-- `&node{}`: a fresh address. -/
def newNode (q : AtomicMutationQueue M) : Nat × AtomicMutationQueue M :=
  (q.alloc, { q with alloc := q.alloc + 1, heap := Function.update q.heap q.alloc QNode.empty })

/-- `popFreeList`: the oldest freed node, unless the free list has reached the sentinel. -/
def popFreeList (q : AtomicMutationQueue M) (v : Vbucket) :
    Except Halt (Option Nat × AtomicMutationQueue M) :=
  if q.free v ≠ some (q.head v) then do
    let n ← deref (q.free v)
    let q := { q with free := Function.update q.free v (q.heap n).next }
    pure (some n, q.setNode n QNode.empty)
  else pure (none, q)

/-- `checkMemAndAlloc`. -/
def checkMemAndAlloc (q : AtomicMutationQueue M) (v : Vbucket) :
    Except Halt (Option Nat × AtomicMutationQueue M) :=
  if q.memUsed < q.maxMemory || q.size v < q.minQueueLen.toInt64.toInt then do
    match ← popFreeList q v with
    | (some n, q) => pure (some n, q)
    | (none, q) => pure (some (newNode q).1, (newNode q).2)
  else pure (none, q)

/-- `allocNode`: without memory the poll finds none either, and the node forced after five
minutes is fresh. -/
def allocNode (q : AtomicMutationQueue M) (v : Vbucket) :
    Except Halt (Nat × AtomicMutationQueue M) := do
  match ← checkMemAndAlloc q v with
  | (some n, q) => pure (n, q)
  | (none, q) => pure (newNode q)

variable (seqno : M → UInt64) (size : M → Int)

/-- The end of `Enqueue`: the node holds the mutation, and is linked after the tail. -/
def linkTail (q : AtomicMutationQueue M) (v : Vbucket) (n : Nat) (mutation : M) :
    AtomicMutationQueue M :=
  let q := q.setNode n ⟨some mutation, none⟩
  let q := { q with memUsed := q.memUsed + size mutation }
  let q := q.setNode (q.tail v) { q.heap (q.tail v) with next := some n }
  { q with tail := Function.update q.tail v n, size := Function.update q.size v (q.size v + 1) }

/-- `Enqueue`. (`vbucket < 0` never holds for the unsigned `Vbucket`.) -/
def enqueue (q : AtomicMutationQueue M) (mutation : M) (v : Vbucket) :
    Except Halt (Option String × AtomicMutationQueue M) :=
  if v > q.numVbuckets.toUInt32 - 1 then pure (some "vbucket out of range", q)
  else if !q.inRange v then .error .indexOutOfRange
  else do
    let (n, q) ← allocNode q v
    pure (none, linkTail size q v n mutation)

/-- The node after the sentinel becomes the sentinel, its mutation cleared. -/
def advanceHead (q : AtomicMutationQueue M) (v : Vbucket) (n : Nat) : AtomicMutationQueue M :=
  let q := q.setNode n { q.heap n with mutation := none }
  { q with head := Function.update q.head v n, size := Function.update q.size v (q.size v - 1) }

section Fields

variable (q : AtomicMutationQueue M) (v : Vbucket) (n : Nat)

@[simp] theorem setNode_heap (x : QNode M) : (q.setNode n x).heap = Function.update q.heap n x := rfl
@[simp] theorem setNode_head (x : QNode M) : (q.setNode n x).head = q.head := rfl
@[simp] theorem setNode_tail (x : QNode M) : (q.setNode n x).tail = q.tail := rfl
@[simp] theorem setNode_free (x : QNode M) : (q.setNode n x).free = q.free := rfl
@[simp] theorem setNode_size (x : QNode M) : (q.setNode n x).size = q.size := rfl
@[simp] theorem setNode_alloc (x : QNode M) : (q.setNode n x).alloc = q.alloc := rfl
@[simp] theorem setNode_numVbuckets (x : QNode M) :
    (q.setNode n x).numVbuckets = q.numVbuckets := rfl

@[simp] theorem linkTail_heap (m : M) :
    (linkTail size q v n m).heap =
      Function.update (Function.update q.heap n ⟨some m, none⟩) (q.tail v)
        { Function.update q.heap n ⟨some m, none⟩ (q.tail v) with next := some n } := rfl
@[simp] theorem linkTail_head (m : M) : (linkTail size q v n m).head = q.head := rfl
@[simp] theorem linkTail_tail (m : M) :
    (linkTail size q v n m).tail = Function.update q.tail v n := rfl
@[simp] theorem linkTail_free (m : M) : (linkTail size q v n m).free = q.free := rfl
@[simp] theorem linkTail_size (m : M) :
    (linkTail size q v n m).size = Function.update q.size v (q.size v + 1) := rfl
@[simp] theorem linkTail_alloc (m : M) : (linkTail size q v n m).alloc = q.alloc := rfl
@[simp] theorem linkTail_numVbuckets (m : M) :
    (linkTail size q v n m).numVbuckets = q.numVbuckets := rfl

@[simp] theorem advanceHead_heap :
    (q.advanceHead v n).heap = Function.update q.heap n { q.heap n with mutation := none } := rfl
@[simp] theorem advanceHead_head : (q.advanceHead v n).head = Function.update q.head v n := rfl
@[simp] theorem advanceHead_size :
    (q.advanceHead v n).size = Function.update q.size v (q.size v - 1) := rfl
@[simp] theorem advanceHead_tail : (q.advanceHead v n).tail = q.tail := rfl
@[simp] theorem advanceHead_free : (q.advanceHead v n).free = q.free := rfl
@[simp] theorem advanceHead_alloc : (q.advanceHead v n).alloc = q.alloc := rfl
@[simp] theorem advanceHead_numVbuckets : (q.advanceHead v n).numVbuckets = q.numVbuckets := rfl

end Fields

/-- The node after the sentinel, and its mutation. -/
def headNext (q : AtomicMutationQueue M) (v : Vbucket) : Except Halt (Nat × Option M) := do
  let n ← deref (q.heap (q.head v)).next
  pure (n, (q.heap n).mutation)

/-- `DequeueSingleElement`. -/
def dequeueSingleElement (q : AtomicMutationQueue M) (v : Vbucket) :
    Except Halt (Option M × AtomicMutationQueue M) :=
  if !q.inRange v then .error .indexOutOfRange
  else if q.head v ≠ q.tail v then do
    let (n, m) ← headNext q v
    let q := advanceHead q v n
    match m with
    | none => .error .nilDeref
    | some m => pure (some m, { q with memUsed := q.memUsed - size m })
  else pure (none, q)

/-- The variables of `dequeueN`'s loop: the queue, `currCount`, `memReleased` and what has
been sent on `datach`. -/
abbrev DequeueNVars (M : Type) := AtomicMutationQueue M × UInt64 × Int × List M

/-- One round of `dequeueN`'s inner loop. -/
def dequeueNRound (v : Vbucket) (count : UInt64) :
    DequeueNVars M → Except Halt (GoLoop.Round (DequeueNVars M) (List M × AtomicMutationQueue M))
  | (q, currCount, memReleased, sent) => do
    let (n, m) ← headNext q v
    let (q, currCount, memReleased, sent) ←
      if currCount < count then
        match m with
        | none => .error .nilDeref
        | some m => pure (advanceHead q v n, currCount + 1, memReleased + size m, sent ++ [m])
      else pure (q, currCount, memReleased, sent)
    if currCount ≥ count then
      pure (.ret (sent, { q with memUsed := q.memUsed - memReleased }))
    else pure (.next (q, currCount, memReleased, sent))

/-- `dequeueN`: what it sends before closing `datach`, and the queue after it. An inner loop
that empties the queue leaves the goroutine polling. -/
def dequeueN (q : AtomicMutationQueue M) (v : Vbucket) (count : UInt64) (fuel : Nat) :
    Except Halt (List M × AtomicMutationQueue M) :=
  if !q.inRange v then .error .indexOutOfRange
  else do
    match ← GoLoop.whileLoop .outOfFuel (fun st => pure (st.1.head v ≠ st.1.tail v))
        (dequeueNRound size v count) fuel (q, 0, 0, []) with
    | .inr r => pure r
    | .inl _ => .error .waits

/-- The variables of `dequeueUptoSeqno`'s loop: the queue, `memReleased` and what has been
sent on `datach`. -/
abbrev DequeueUptoVars (M : Type) := AtomicMutationQueue M × Int × List M

/-- One round of `dequeueUptoSeqno`'s inner loop. -/
def dequeueUptoSeqnoRound (v : Vbucket) (s : UInt64) :
    DequeueUptoVars M →
      Except Halt (GoLoop.Round (DequeueUptoVars M) (List M × Closed × AtomicMutationQueue M))
  | (q, memReleased, sent) => do
    let (n, m) ← headNext q v
    match m with
    | none => .error .nilDeref
    | some m =>
      if s ≥ seqno m then
        let q := advanceHead q v n
        let memReleased := memReleased + size m
        -- `dequeueSeq` is `m.meta.seqno` here
        if s ≤ seqno m then
          pure (.ret (sent ++ [m], .datach, { q with memUsed := q.memUsed - memReleased }))
        else pure (.next (q, memReleased, sent ++ [m]))
      else pure (.ret (sent, .errch, { q with memUsed := q.memUsed - memReleased }))

/-- `dequeueUptoSeqno`: what it sends, the channel it closes, and the queue after it. -/
def dequeueUptoSeqno (q : AtomicMutationQueue M) (v : Vbucket) (s : UInt64) (fuel : Nat) :
    Except Halt (List M × Closed × AtomicMutationQueue M) :=
  if !q.inRange v then .error .indexOutOfRange
  else do
    match ← GoLoop.whileLoop .outOfFuel (fun st => pure (st.1.head v ≠ st.1.tail v))
        (dequeueUptoSeqnoRound seqno size v s) fuel (q, 0, []) with
    | .inr r => pure r
    | .inl _ => .error .waits

/-- `PeekTail`. -/
def peekTail (q : AtomicMutationQueue M) (v : Vbucket) : Except Halt (Option M) :=
  if !q.inRange v then .error .indexOutOfRange
  else if q.head v ≠ q.tail v then pure (q.heap (q.tail v)).mutation
  else pure none

/-- `PeekHead`. -/
def peekHead (q : AtomicMutationQueue M) (v : Vbucket) : Except Halt (Option M) :=
  if !q.inRange v then .error .indexOutOfRange
  else if q.head v ≠ q.tail v then pure (q.heap (q.head v)).mutation
  else pure none

/-- `GetSize`. -/
def getSize (q : AtomicMutationQueue M) (v : Vbucket) : Except Halt Int :=
  if !q.inRange v then .error .indexOutOfRange else pure (q.size v)

end AtomicMutationQueue

/-! ## The flusher's watermarks (`indexer/flusher.go`) -/

namespace Flusher

open AtomicMutationQueue

variable {M : Type} (seqno : M → UInt64)

/-- `GetQueueLWT`. -/
def getQueueLWT (q : AtomicMutationQueue M) : Except Halt (List UInt64) :=
  (List.range q.numVbuckets.toNat).mapM fun i => do
    match ← q.peekHead i.toUInt32 with
    | some mutk => pure (seqno mutk)
    | none => pure 0

/-- `GetQueueHWT`. -/
def getQueueHWT (q : AtomicMutationQueue M) : Except Halt (List UInt64) :=
  (List.range q.numVbuckets.toNat).mapM fun i => do
    match ← q.peekTail i.toUInt32 with
    | some mutk => pure (seqno mutk)
    | none => pure 0

/-- The loop of `IsQueueLWTLowerThanTimestamp` from vbucket `i` on. -/
def lwtLowerFrom (q : AtomicMutationQueue M) : Nat → List UInt64 → Except Halt Bool
  | _, [] => pure true
  | i, t :: ts => do
    -- `mut.meta.seqno` with no check that `mut` is not nil
    let mutk ← deref? (← q.peekHead i.toUInt32)
    if seqno mutk > t then pure false else lwtLowerFrom q (i + 1) ts
where
  deref? : Option M → Except Halt M
    | none => .error .nilDeref
    | some m => pure m

/-- `IsQueueLWTLowerThanTimestamp`. -/
def isQueueLWTLowerThanTimestamp (q : AtomicMutationQueue M) (ts : List UInt64) :
    Except Halt Bool :=
  lwtLowerFrom seqno q 0 ts

end Flusher

end Indexer
