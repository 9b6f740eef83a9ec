import GsiIndexing.Indexer.MutationQueue
import GsiIndexing.Lib.Simulation
import Mathlib.Data.Finset.Card
import Mathlib.Data.Finset.Range

/-!
# The mutation queue refines one FIFO list per vbucket

What the queue is for (`fifoStep`): each vbucket holds the list of its pending mutations;
`Enqueue` appends, the dequeues take from the front, `GetSize` is the length and `PeekTail`
the last element. A call is admissible (`Completes`) when it names a vbucket of the queue and,
for the polling dequeues, when what they wait for is already queued: run one at a time,
nothing else would enqueue it.

The representation (`QueueInv`) lays each vbucket's nodes out as one list in the order of
their `next` links (`Layout`): the free nodes, the sentinel at `head`, then one node per
pending mutation, the last at `tail`. The sentinel holds no mutation, the layouts of two
vbuckets share no node, and every node is allocated.

* **`QueueInv.dequeue`** / **`QueueInv.enqueue`** — one node leaves the front, one joins at
  the back; the loops of `dequeueN` and `dequeueUptoSeqno` repeat the first.
* **`queueStep_simulates`** — every admissible call replies as the lists do.
* **`peekHead_eq_none`** — `PeekHead` reads the sentinel, whose mutation is always nil.
-/

namespace Indexer

open AtomicMutationQueue

variable {M : Type}

/-! ## §1 — the specification -/

/-- The operations of the queue on one vbucket, run to completion. -/
inductive QueueOp (M : Type) where
  | enqueue (m : M) (v : Vbucket)
  | dequeueSingleElement (v : Vbucket)
  | dequeueN (v : Vbucket) (count : UInt64)
  | dequeueUptoSeqno (v : Vbucket) (seqno : UInt64)
  | getSize (v : Vbucket)
  | peekTail (v : Vbucket)

/-- What an operation returns, or sends before closing a channel. -/
inductive QueueReply (M : Type) where
  | enqueued (err : Option String)
  | element (m : Option M)
  | sent (ms : List M) (closed : Closed)
  | size (n : Int)

/-- The vbucket an operation is on. -/
def QueueOp.vbucket : QueueOp M → Vbucket
  | .enqueue _ v | .dequeueSingleElement v | .dequeueN v _ | .dequeueUptoSeqno v _
  | .getSize v | .peekTail v => v

variable (seqno : M → UInt64) (size : M → Int)

/-- `dequeueUptoSeqno` on a list: the elements below `s` and the first one at `s`, closing
`datach`; or those below `s` alone, closing `errch`, when the first one not below `s` is
above it. -/
def uptoSeqno (s : UInt64) : List M → List M × Closed × List M
  | [] => ([], .errch, [])
  | m :: rest =>
    if seqno m < s then
      let r := uptoSeqno s rest
      (m :: r.1, r.2.1, r.2.2)
    else if seqno m = s then ([m], .datach, rest)
    else ([], .errch, m :: rest)

/-- The lists' answer to an operation. -/
def fifoStep (P : Vbucket → List M) : QueueOp M → QueueReply M × (Vbucket → List M)
  | .enqueue m v => (.enqueued none, Function.update P v (P v ++ [m]))
  | .dequeueSingleElement v => (.element (P v).head?, Function.update P v (P v).tail)
  | .dequeueN v count =>
    (.sent ((P v).take count.toNat) .datach, Function.update P v ((P v).drop count.toNat))
  | .dequeueUptoSeqno v s =>
    let r := uptoSeqno seqno s (P v)
    (.sent r.1 r.2.1, Function.update P v r.2.2)
  | .getSize v => (.size (P v).length, P)
  | .peekTail v => (.element (P v).getLast?, P)

/-- An operation that completes: on a vbucket of the queue, and for the polling dequeues with
what they wait for already queued. -/
def Completes (numVbuckets : UInt16) (P : Vbucket → List M) : QueueOp M → Prop
  | .dequeueN v count =>
    v.toNat < numVbuckets.toNat ∧ count.toNat ≤ (P v).length ∧ P v ≠ []
  | .dequeueUptoSeqno v s => v.toNat < numVbuckets.toNat ∧ ∃ m ∈ P v, s ≤ seqno m
  | op => op.vbucket.toNat < numVbuckets.toNat

/-- The queue's answer to an operation; `none` where it halts. The loops are given one round
per allocated node, and each round passes a different node. -/
def queueStep (q : AtomicMutationQueue M) : QueueOp M → Option (QueueReply M × AtomicMutationQueue M)
  | .enqueue m v => (q.enqueue size m v).toOption.map fun r => (.enqueued r.1, r.2)
  | .dequeueSingleElement v => (q.dequeueSingleElement size v).toOption.map fun r => (.element r.1, r.2)
  | .dequeueN v count =>
    (q.dequeueN size v count (q.alloc + 1)).toOption.map fun r => (.sent r.1 .datach, r.2)
  | .dequeueUptoSeqno v s =>
    (q.dequeueUptoSeqno seqno size v s (q.alloc + 1)).toOption.map fun r => (.sent r.1 r.2.1, r.2.2)
  | .getSize v => (q.getSize v).toOption.map fun n => (.size n, q)
  | .peekTail v => (q.peekTail v).toOption.map fun m => (.element m, q)

/-! ## §2 — the representation -/

/-- Nodes linked in this order, the last one's `next` nil. -/
def Linked (heap : Nat → QNode M) : List Nat → Prop
  | [] => True
  | [a] => (heap a).next = none
  | a :: b :: rest => (heap a).next = some b ∧ Linked heap (b :: rest)

/-- One vbucket's nodes: the free list, the sentinel, the nodes of the pending mutations. -/
structure Layout where
  frees : List Nat
  sentinel : Nat
  lives : List Nat

namespace Layout

def nodes (l : Layout) : List Nat := l.frees ++ l.sentinel :: l.lives

/-- The node at `tail`. -/
def last (l : Layout) : Nat := (l.sentinel :: l.lives).getLast (List.cons_ne_nil _ _)

/-- The node at `free`. -/
def first (l : Layout) : Nat := l.frees.headD l.sentinel

/-- After a dequeue: the sentinel joins the free list and the first pending node replaces it. -/
def shift (l : Layout) : Layout :=
  match l.lives with
  | [] => l
  | a :: rest => ⟨l.frees ++ [l.sentinel], a, rest⟩

end Layout

/-- **The representation of one vbucket's list `P`.** -/
structure VbInv (q : AtomicMutationQueue M) (v : Vbucket) (P : List M) (l : Layout) : Prop where
  head : q.head v = l.sentinel
  tail : q.tail v = l.last
  free : q.free v = some l.first
  linked : Linked q.heap l.nodes
  sentinel : (q.heap l.sentinel).mutation = none
  lives : l.lives.map (fun a => (q.heap a).mutation) = P.map some
  size : q.size v = P.length
  nodup : l.nodes.Nodup
  alloc : ∀ a ∈ l.nodes, a < q.alloc

/-- **The representation of the queue**: every vbucket's list, on nodes of its own. -/
structure QueueInv (q : AtomicMutationQueue M) (P : Vbucket → List M) (L : Vbucket → Layout) :
    Prop where
  vb : ∀ v, q.inRange v → VbInv q v (P v) (L v)
  disjoint : ∀ v w, q.inRange v → q.inRange w → v ≠ w → (L v).nodes.Disjoint (L w).nodes

/-! ## §3 — links and layouts -/

section Linked

variable {heap heap' : Nat → QNode M}

theorem Linked.congr : ∀ {l : List Nat}, (∀ a ∈ l, (heap' a).next = (heap a).next) →
    Linked heap l → Linked heap' l
  | [], _, _ => trivial
  | [a], h, hl => by
    simp only [Linked] at hl ⊢
    rw [h a (List.mem_singleton_self a), hl]
  | a :: b :: rest, h, hl => by
    obtain ⟨hab, hl⟩ := hl
    refine ⟨by rw [h a List.mem_cons_self, hab], Linked.congr (fun x hx => h x ?_) hl⟩
    exact List.mem_cons_of_mem a hx

theorem Linked.of_cons : ∀ {a : Nat} {l : List Nat}, Linked heap (a :: l) → Linked heap l
  | _, [], _ => trivial
  | _, _ :: _, h => h.2

theorem Linked.of_append : ∀ {A B : List Nat}, Linked heap (A ++ B) → Linked heap B
  | [], _, h => h
  | _ :: A, _, h => Linked.of_append (A := A) h.of_cons

theorem Linked.next_eq : ∀ {A : List Nat} {x y : Nat} {B : List Nat},
    Linked heap (A ++ x :: y :: B) → (heap x).next = some y
  | _, _, _, _, h => (Linked.of_append h).1

/-- A node linked after the last one. -/
theorem Linked.snoc {t n : Nat} (ht : (heap' t).next = some n) (hn : (heap' n).next = none) :
    ∀ {init : List Nat}, (∀ a ∈ init, (heap' a).next = (heap a).next) →
      Linked heap (init ++ [t]) → Linked heap' (init ++ [t, n])
  | [], _, _ => ⟨ht, hn⟩
  | [a], h, hl => ⟨by rw [h a List.mem_cons_self]; exact hl.1, ht, hn⟩
  | a :: b :: rest, h, hl =>
    ⟨by rw [h a List.mem_cons_self]; exact hl.1,
      Linked.snoc ht hn (fun x hx => h x (List.mem_cons_of_mem a hx)) hl.2⟩

end Linked

namespace Layout

theorem last_mem (l : Layout) : l.last ∈ l.sentinel :: l.lives := List.getLast_mem _

theorem last_mem_nodes (l : Layout) : l.last ∈ l.nodes :=
  List.mem_append_right _ l.last_mem

theorem sentinel_mem_nodes (l : Layout) : l.sentinel ∈ l.nodes :=
  List.mem_append_right _ List.mem_cons_self

theorem nodes_eq_dropLast (l : Layout) :
    l.nodes = (l.frees ++ (l.sentinel :: l.lives).dropLast) ++ [l.last] := by
  rw [List.append_assoc, last, List.dropLast_append_getLast]
  rfl

/-- The nodes after one more pending node at the back. -/
theorem nodes_snoc (l : Layout) (n : Nat) :
    l.frees ++ l.sentinel :: (l.lives ++ [n]) =
      (l.frees ++ (l.sentinel :: l.lives).dropLast) ++ [l.last, n] := by
  have h := congrArg (· ++ [n]) l.nodes_eq_dropLast
  simp only [nodes, List.append_assoc, List.cons_append] at h
  simpa using h

theorem nodes_snoc_eq (l : Layout) (n : Nat) :
    ({ l with lives := l.lives ++ [n] } : Layout).nodes = l.nodes ++ [n] := by
  simp [nodes]

theorem last_snoc (l : Layout) (n : Nat) : ({ l with lives := l.lives ++ [n] } : Layout).last = n := by
  simp [last]

theorem last_eq_sentinel {l : Layout} (hnd : l.nodes.Nodup) : l.last = l.sentinel ↔ l.lives = [] := by
  constructor
  · intro h
    cases hl : l.lives with
    | nil => rfl
    | cons a rest =>
      -- the last node would be a pending node and the sentinel at once
      have hne : l.lives ≠ [] := by rw [hl]; exact List.cons_ne_nil _ _
      have hmem : l.last ∈ l.lives := by
        unfold last
        rw [List.getLast_cons hne]
        exact List.getLast_mem hne
      have hnd' : (l.sentinel :: l.lives).Nodup := (List.nodup_append.1 hnd).2.1
      exact absurd (h ▸ hmem) (List.nodup_cons.1 hnd').1
  · intro h
    simp [last, h]

theorem nodes_shift (l : Layout) : l.shift.nodes = l.nodes := by
  unfold shift
  split <;> simp_all [nodes]

end Layout

/-! ## §4 — one vbucket -/

section VbInv

variable {q q' : AtomicMutationQueue M} {v : Vbucket} {P : List M} {l : Layout}

/-- **The frame lemma**: a vbucket whose fields and nodes a step does not touch. -/
theorem VbInv.frame (h : VbInv q v P l) (hhead : q'.head v = q.head v)
    (htail : q'.tail v = q.tail v) (hfree : q'.free v = q.free v) (hsize : q'.size v = q.size v)
    (hheap : ∀ a ∈ l.nodes, q'.heap a = q.heap a) (halloc : q.alloc ≤ q'.alloc) :
    VbInv q' v P l where
  head := hhead.trans h.head
  tail := htail.trans h.tail
  free := hfree.trans h.free
  linked := h.linked.congr fun a ha => by rw [hheap a ha]
  sentinel := by rw [hheap _ l.sentinel_mem_nodes]; exact h.sentinel
  lives := by
    rw [← h.lives]
    exact List.map_congr_left fun a ha => by
      rw [hheap a (List.mem_append_right _ (List.mem_cons_of_mem _ ha))]
  size := hsize.trans h.size
  nodup := h.nodup
  alloc := fun a ha => Nat.lt_of_lt_of_le (h.alloc a ha) halloc

theorem VbInv.head_ne_tail_iff (h : VbInv q v P l) : q.head v ≠ q.tail v ↔ P ≠ [] := by
  rw [h.head, h.tail, ne_comm, Ne, Layout.last_eq_sentinel h.nodup, ← List.map_eq_nil_iff,
    h.lives, List.map_eq_nil_iff]

/-- Fewer pending mutations than allocated nodes: each has its own node, beside the
sentinel. -/
theorem VbInv.length_lt_alloc (h : VbInv q v P l) : P.length < q.alloc := by
  have hsub : l.nodes.toFinset ⊆ Finset.range q.alloc := fun a ha =>
    Finset.mem_range.2 (h.alloc a (List.mem_toFinset.1 ha))
  have hcard := Finset.card_le_card hsub
  rw [List.toFinset_card_of_nodup h.nodup, Finset.card_range] at hcard
  have hlen : P.length = l.lives.length := by
    rw [← List.length_map (f := some), ← h.lives, List.length_map]
  have hnodes : l.nodes.length = l.frees.length + l.lives.length + 1 := by
    simp only [Layout.nodes, List.length_append, List.length_cons]
    omega
  omega

/-- The node after the sentinel holds the first pending mutation. -/
theorem VbInv.headNext {m : M} (h : VbInv q v (m :: P) l) :
    ∃ a rest, l.lives = a :: rest ∧ q.headNext v = .ok (a, some m) := by
  cases hl : l.lives with
  | nil =>
    have := h.lives
    rw [hl] at this
    cases this
  | cons a rest =>
    have hlink : (q.heap l.sentinel).next = some a := by
      have hlinked := h.linked
      rw [Layout.nodes, hl] at hlinked
      exact hlinked.next_eq
    have hm : (q.heap a).mutation = some m := by
      have := h.lives
      rw [hl, List.map_cons, List.map_cons, List.cons.injEq] at this
      exact this.1
    refine ⟨a, rest, rfl, ?_⟩
    simp [AtomicMutationQueue.headNext, h.head, hlink, deref, hm]

theorem VbInv.lives_nodup (h : VbInv q v P l) : l.lives.Nodup :=
  (List.nodup_cons.1 (List.nodup_append.1 h.nodup).2.1).2

/-- One dequeue: the first pending node becomes the sentinel. -/
theorem VbInv.advance {m : M} {a : Nat} {rest : List Nat} (h : VbInv q v (m :: P) l)
    (hl : l.lives = a :: rest) : VbInv (q.advanceHead v a) v P l.shift := by
  have hshift : l.shift = ⟨l.frees ++ [l.sentinel], a, rest⟩ := by
    unfold Layout.shift
    rw [hl]
  have ha : a ∉ rest := (List.nodup_cons.1 (hl ▸ h.lives_nodup)).1
  have hlives : rest.map (fun b => (q.heap b).mutation) = P.map some := by
    have := h.lives
    rw [hl, List.map_cons, List.map_cons, List.cons.injEq] at this
    exact this.2
  rw [hshift]
  refine ⟨?_, ?_, ?_, ?_, ?_, ?_, ?_, ?_, ?_⟩
  · simp
  · -- the tail is still the last pending node
    rw [advanceHead_tail, h.tail, Layout.last, Layout.last]
    simp only [hl]
    rw [List.getLast_cons (List.cons_ne_nil a rest)]
  · rw [advanceHead_free, h.free, Layout.first, Layout.first]
    cases l.frees <;> rfl
  · have hlinked := h.linked
    rw [Layout.nodes, hl] at hlinked
    refine Linked.congr (fun b _ => ?_) (by simpa [Layout.nodes] using hlinked)
    by_cases hb : b = a
    · subst hb
      simp
    · simp [Function.update_of_ne hb]
  · simp
  · rw [← hlives]
    refine List.map_congr_left fun b hb => ?_
    have hba : b ≠ a := by
      rintro rfl
      exact ha hb
    simp [Function.update_of_ne hba]
  · simp [h.size]
  · simpa [Layout.nodes, hl] using h.nodup
  · intro b hb
    exact h.alloc b (by simpa [Layout.nodes, hl] using hb)

theorem linkTail_heap_of_ne {a n : Nat} (han : a ≠ n) (hat : a ≠ q.tail v) (m : M) :
    (linkTail size q v n m).heap a = q.heap a := by
  simp [Function.update_of_ne han, Function.update_of_ne hat]

theorem linkTail_mutation_of_ne {a n : Nat} (han : a ≠ n) (m : M) :
    ((linkTail size q v n m).heap a).mutation = (q.heap a).mutation := by
  by_cases hat : a = q.tail v
  · subst hat
    simp [Function.update_of_ne han]
  · rw [linkTail_heap_of_ne size han hat]

/-- **Enqueue on one vbucket**: the mutation's node joins the back of the pending nodes. -/
theorem VbInv.link {n : Nat} (h : VbInv q v P l) (hn : n ∉ l.nodes) (hlt : n < q.alloc) (m : M) :
    VbInv (linkTail size q v n m) v (P ++ [m]) { l with lives := l.lives ++ [n] } where
  head := by simpa using h.head
  tail := by simp [Layout.last_snoc]
  free := by simpa [Layout.first] using h.free
  linked := by
    have ht : l.last = q.tail v := h.tail.symm
    have hnt : n ≠ q.tail v := fun hnt => hn (hnt ▸ ht ▸ l.last_mem_nodes)
    have hlinked := h.linked
    have hnd := h.nodup
    rw [Layout.nodes_eq_dropLast, ht] at hlinked hnd
    show Linked _ (l.frees ++ l.sentinel :: (l.lives ++ [n]))
    rw [Layout.nodes_snoc, ht]
    -- the tail now links to `n`, whose `next` is nil
    refine Linked.snoc (by simp) (by simp [hnt]) (fun a ha => ?_) hlinked
    have hat : a ≠ q.tail v := fun hat =>
      List.disjoint_of_nodup_append hnd ha (List.mem_singleton.2 hat)
    have han : a ≠ n := fun han => hn (by
      rw [Layout.nodes_eq_dropLast, ht]
      exact List.mem_append_left _ (han ▸ ha))
    rw [linkTail_heap_of_ne size han hat]
  sentinel := by
    have hsn : l.sentinel ≠ n := fun hs => hn (hs ▸ l.sentinel_mem_nodes)
    show ((linkTail size q v n m).heap l.sentinel).mutation = none
    rw [linkTail_mutation_of_ne size hsn]
    exact h.sentinel
  lives := by
    show (l.lives ++ [n]).map _ = (P ++ [m]).map some
    rw [List.map_append, List.map_append, ← h.lives]
    congr 1
    · refine List.map_congr_left fun a ha => linkTail_mutation_of_ne size (fun han => hn ?_) m
      rw [← han]
      exact List.mem_append_right _ (List.mem_cons_of_mem _ ha)
    · have hnt : n ≠ q.tail v := fun hnt => hn (hnt ▸ h.tail ▸ l.last_mem_nodes)
      simp [Function.update_of_ne hnt]
  size := by simp [h.size]
  nodup := by
    rw [Layout.nodes_snoc_eq]
    exact List.nodup_append.2 ⟨h.nodup, List.nodup_singleton n,
      fun a ha b hb hab => hn (by rw [List.mem_singleton.1 hb] at hab; exact hab ▸ ha)⟩
  alloc := by
    intro a ha
    rw [Layout.nodes_snoc_eq, List.mem_append, List.mem_singleton] at ha
    rcases ha with ha | rfl
    · exact h.alloc a ha
    · exact hlt

end VbInv

section Queue

variable {q : AtomicMutationQueue M} {P : Vbucket → List M} {L : Vbucket → Layout}

theorem inRange_advanceHead (v w : Vbucket) (n : Nat) :
    (q.advanceHead v n).inRange w = q.inRange w := rfl

theorem QueueInv.memUsed (hQ : QueueInv q P L) (x : Int) :
    QueueInv { q with memUsed := x } P L :=
  ⟨fun v hv => (hQ.vb v hv).frame rfl rfl rfl rfl (fun _ _ => rfl) le_rfl, hQ.disjoint⟩

/-- **One dequeue on vbucket `v`.** -/
theorem QueueInv.dequeue (hQ : QueueInv q P L) {v : Vbucket} (hv : q.inRange v) {m : M}
    {rest : List M} (hP : P v = m :: rest) :
    ∃ a, q.headNext v = .ok (a, some m) ∧
      QueueInv (q.advanceHead v a) (Function.update P v rest)
        (Function.update L v (L v).shift) := by
  have hvb := hQ.vb v hv
  rw [hP] at hvb
  obtain ⟨a, lrest, hl, hnext⟩ := hvb.headNext
  refine ⟨a, hnext, fun w hw => ?_, fun w w' hw hw' hne => ?_⟩
  · by_cases hwv : w = v
    · subst hwv
      simpa using hvb.advance hl
    · -- another vbucket: its nodes do not hold `a`
      have ha : a ∈ (L v).nodes := by
        rw [Layout.nodes, hl]
        simp
      simp only [Function.update_of_ne hwv]
      refine (hQ.vb w hw).frame (by simp [Function.update_of_ne hwv]) rfl rfl
        (by simp [Function.update_of_ne hwv]) (fun b hb => ?_) le_rfl
      have hba : b ≠ a := fun hba =>
        hQ.disjoint v w hv hw (Ne.symm hwv) ha (hba ▸ hb)
      simp [Function.update_of_ne hba]
  · have hnodes : ∀ u, (Function.update L v (L v).shift u).nodes = (L u).nodes := by
      intro u
      by_cases hu : u = v
      · subst hu
        simp [Layout.nodes_shift]
      · simp [Function.update_of_ne hu]
    rw [hnodes, hnodes]
    exact hQ.disjoint w w' hw hw' hne

/-! ### Allocation and `Enqueue` -/

/-- An allocated node of no vbucket. -/
structure Fresh (q : AtomicMutationQueue M) (L : Vbucket → Layout) (n : Nat) : Prop where
  lt : n < q.alloc
  not_mem : ∀ w, q.inRange w → n ∉ (L w).nodes

theorem QueueInv.newNode (hQ : QueueInv q P L) :
    QueueInv q.newNode.2 P L ∧ Fresh q.newNode.2 L q.newNode.1 := by
  have hout : ∀ w, q.inRange w → q.alloc ∉ (L w).nodes := fun w hw ha =>
    Nat.lt_irrefl _ ((hQ.vb w hw).alloc _ ha)
  refine ⟨⟨fun w hw => (hQ.vb w hw).frame rfl rfl rfl rfl (fun a ha => ?_) (Nat.le_succ _),
    hQ.disjoint⟩, ⟨Nat.lt_succ_self _, hout⟩⟩
  have hne : a ≠ q.alloc := fun h => hout w hw (h ▸ ha)
  simp [AtomicMutationQueue.newNode, Function.update_of_ne hne]

/-- `popFreeList` by the layout: the first free node, unless the free list is empty. -/
theorem VbInv.popFreeList {v : Vbucket} {P : List M} {l : Layout} (h : VbInv q v P l) :
    (l.frees = [] ∧ q.popFreeList v = .ok (none, q)) ∨
    (∃ f fs, l.frees = f :: fs ∧ q.popFreeList v =
      .ok (some f, ({ q with free := Function.update q.free v (some (fs.headD l.sentinel)) }).setNode
        f QNode.empty)) := by
  cases hf : l.frees with
  | nil =>
    have hfree : q.free v = some (q.head v) := by rw [h.free, h.head, Layout.first, hf]; rfl
    exact .inl ⟨rfl, by simp [AtomicMutationQueue.popFreeList, hfree, pure, Except.pure]⟩
  | cons f fs =>
    have hfree : q.free v = some f := by rw [h.free, Layout.first, hf]; rfl
    have hnd := h.nodup
    rw [Layout.nodes, hf] at hnd
    have hfs : f ≠ l.sentinel := fun hfs => (List.nodup_cons.1 hnd).1 (by simp [hfs])
    -- the next free node, or the sentinel
    have hnext : (q.heap f).next = some (fs.headD l.sentinel) := by
      have hlinked := h.linked
      rw [Layout.nodes, hf] at hlinked
      cases fs with
      | nil => exact Linked.next_eq (A := []) hlinked
      | cons g gs => exact Linked.next_eq (A := []) hlinked
    refine .inr ⟨f, fs, rfl, ?_⟩
    simp [AtomicMutationQueue.popFreeList, hfree, h.head, hfs, deref, hnext]

/-- Popping the first free node of `v`. -/
theorem QueueInv.pop (hQ : QueueInv q P L) {v : Vbucket} (hv : q.inRange v) {f : Nat}
    {fs : List Nat} (hf : (L v).frees = f :: fs) :
    QueueInv (({ q with free := Function.update q.free v (some (fs.headD (L v).sentinel)) }).setNode
        f QNode.empty) P (Function.update L v { L v with frees := fs }) ∧
      Fresh (({ q with free := Function.update q.free v (some (fs.headD (L v).sentinel)) }).setNode
        f QNode.empty) (Function.update L v { L v with frees := fs }) f := by
  have hvb := hQ.vb v hv
  have hfv : f ∈ (L v).nodes := by simp [Layout.nodes, hf]
  have hnd := hvb.nodup
  rw [Layout.nodes, hf, List.cons_append] at hnd
  have hfrest : f ∉ fs ++ (L v).sentinel :: (L v).lives := (List.nodup_cons.1 hnd).1
  -- the nodes of `v` other than `f`, and of the other vbuckets, keep their contents
  have hkeep : ∀ w, q.inRange w → ∀ a ∈ (Function.update L v { L v with frees := fs } w).nodes,
      a ≠ f := by
    intro w hw a ha haf
    subst haf
    by_cases hwv : w = v
    · subst hwv
      exact hfrest (by simpa [Layout.nodes] using ha)
    · rw [Function.update_of_ne hwv] at ha
      exact hQ.disjoint v w hv hw (Ne.symm hwv) hfv ha
  refine ⟨⟨fun w hw => ?_, fun w w' hw hw' hne => ?_⟩,
    ⟨hvb.alloc f hfv, fun w hw hmem => hkeep w hw f hmem rfl⟩⟩
  · by_cases hwv : w = v
    · subst hwv
      simp only [Function.update_self]
      refine ⟨hvb.head, hvb.tail, by simp [Layout.first], ?_, ?_, ?_, hvb.size, ?_, ?_⟩
      · have hlinked := hvb.linked
        rw [Layout.nodes, hf, List.cons_append] at hlinked
        refine hlinked.of_cons.congr fun a ha => ?_
        have haf : a ≠ f := by
          rintro rfl
          exact hfrest ha
        simp [Function.update_of_ne haf]
      · have hsf : (L w).sentinel ≠ f := fun h => hfrest (by simp [h])
        simpa [Function.update_of_ne hsf] using hvb.sentinel
      · rw [← hvb.lives]
        refine List.map_congr_left fun a ha => ?_
        have haf : a ≠ f := fun h => hfrest (by simp [← h, ha])
        simp [Function.update_of_ne haf]
      · exact (List.nodup_cons.1 hnd).2
      · intro a ha
        exact hvb.alloc a (by simp [Layout.nodes, hf] at ha ⊢; tauto)
    · rw [Function.update_of_ne hwv]
      refine (hQ.vb w hw).frame rfl rfl (by simp [Function.update_of_ne hwv]) rfl
        (fun a ha => ?_) le_rfl
      have haf := hkeep w hw a (by rwa [Function.update_of_ne hwv])
      simp [Function.update_of_ne haf]
  · have hsub : ∀ u, (Function.update L v { L v with frees := fs } u).nodes ⊆ (L u).nodes := by
      intro u a ha
      by_cases hu : u = v
      · subst hu
        simp [Layout.nodes, hf] at ha ⊢
        tauto
      · rwa [Function.update_of_ne hu] at ha
    exact fun a ha ha' => hQ.disjoint w w' hw hw' hne (hsub w ha) (hsub w' ha')

theorem QueueInv.allocNode (hQ : QueueInv q P L) {v : Vbucket} (hv : q.inRange v) :
    ∃ n q' L', q.allocNode v = .ok (n, q') ∧ QueueInv q' P L' ∧ Fresh q' L' n ∧
      q'.numVbuckets = q.numVbuckets := by
  have hvb := hQ.vb v hv
  obtain ⟨hQn, hFn⟩ := hQ.newNode
  unfold AtomicMutationQueue.allocNode AtomicMutationQueue.checkMemAndAlloc
  by_cases hmem : (q.memUsed < q.maxMemory || q.size v < q.minQueueLen.toInt64.toInt) = true
  · rcases hvb.popFreeList with ⟨-, hpop⟩ | ⟨f, fs, hf, hpop⟩
    · -- the free list has reached the sentinel: a fresh node
      exact ⟨_, _, L, by simp [hmem, hpop, bind, Except.bind, pure, Except.pure], hQn, hFn, rfl⟩
    · obtain ⟨hQ', hF⟩ := hQ.pop hv hf
      exact ⟨f, _, _, by simp [hmem, hpop, bind, Except.bind, pure, Except.pure], hQ', hF, rfl⟩
  · -- no memory: the node forced after the wait is fresh
    exact ⟨_, _, L, by simp [hmem, bind, Except.bind, pure, Except.pure], hQn, hFn, rfl⟩

/-- **One enqueue on vbucket `v`**, into an allocated node of no vbucket. -/
theorem QueueInv.link (hQ : QueueInv q P L) {v : Vbucket} (hv : q.inRange v) {n : Nat}
    (hn : Fresh q L n) (m : M) :
    QueueInv (linkTail size q v n m) (Function.update P v (P v ++ [m]))
      (Function.update L v { L v with lives := (L v).lives ++ [n] }) := by
  have hvb := hQ.vb v hv
  have ht : q.tail v ∈ (L v).nodes := hvb.tail ▸ (L v).last_mem_nodes
  have hnodes : ∀ u, (Function.update L v { L v with lives := (L v).lives ++ [n] } u).nodes ⊆
      (L u).nodes ++ [n] := by
    intro u a ha
    by_cases hu : u = v
    · subst hu
      rwa [Function.update_self, Layout.nodes_snoc_eq] at ha
    · rw [Function.update_of_ne hu] at ha
      exact List.mem_append_left _ ha
  refine ⟨fun w hw => ?_, fun w w' hw hw' hne a ha ha' => ?_⟩
  · by_cases hwv : w = v
    · subst hwv
      simp only [Function.update_self]
      exact hvb.link size (hn.not_mem w hv) hn.lt m
    · simp only [Function.update_of_ne hwv]
      -- another vbucket: neither `n` nor `v`'s tail is among its nodes
      refine (hQ.vb w hw).frame rfl (by simp [Function.update_of_ne hwv]) rfl
        (by simp [Function.update_of_ne hwv]) (fun a ha => ?_) le_rfl
      have han : a ≠ n := by
        rintro rfl
        exact hn.not_mem w hw ha
      have hat : a ≠ q.tail v := by
        rintro rfl
        exact hQ.disjoint v w hv hw (Ne.symm hwv) ht ha
      exact linkTail_heap_of_ne size han hat m
  · have hw1 := hnodes w ha
    have hw2 := hnodes w' ha'
    rw [List.mem_append, List.mem_singleton] at hw1 hw2
    rcases hw1 with hw1 | rfl
    · rcases hw2 with hw2 | rfl
      · exact hQ.disjoint w w' hw hw' hne hw1 hw2
      · exact hn.not_mem w hw hw1
    · rcases hw2 with hw2 | hw2
      · exact hn.not_mem w' hw' hw2
      · -- `n` joined one layout only, `v`'s
        by_cases hwv : w = v
        · subst hwv
          rw [Function.update_of_ne (Ne.symm hne)] at ha'
          exact hn.not_mem w' hw' ha'
        · rw [Function.update_of_ne hwv] at ha
          exact hn.not_mem w hw ha

theorem not_gt_of_inRange {v : Vbucket} (hv : q.inRange v) :
    ¬ (v > q.numVbuckets.toUInt32 - 1) := by
  have hv' : v.toNat < q.numVbuckets.toNat := by simpa [inRange] using hv
  rw [gt_iff_lt, UInt32.lt_iff_toNat_lt, UInt32.toNat_sub_of_le]
  · simp
    omega
  · rw [UInt32.le_iff_toNat_le]
    simp
    omega

/-- **`Enqueue`** appends to `v`'s list. -/
theorem QueueInv.enqueue (hQ : QueueInv q P L) {v : Vbucket} (hv : q.inRange v) (m : M) :
    ∃ q', q.enqueue size m v = .ok (none, q') ∧ q'.numVbuckets = q.numVbuckets ∧
      ∃ L', QueueInv q' (Function.update P v (P v ++ [m])) L' := by
  obtain ⟨n, q₁, L₁, halloc, hQ₁, hn, hnum⟩ := hQ.allocNode hv
  have hv₁ : q₁.inRange v := by simpa [inRange, hnum] using hv
  refine ⟨linkTail size q₁ v n m, ?_, hnum, _, hQ₁.link size hv₁ hn m⟩
  simp [AtomicMutationQueue.enqueue, not_gt_of_inRange hv, hv, halloc, bind, Except.bind, pure,
    Except.pure]

/-- **`DequeueSingleElement`** takes the head of `v`'s list, nil when it is empty. -/
theorem QueueInv.dequeueSingleElement (hQ : QueueInv q P L) {v : Vbucket} (hv : q.inRange v) :
    ∃ q', q.dequeueSingleElement size v = .ok ((P v).head?, q') ∧
      q'.numVbuckets = q.numVbuckets ∧ ∃ L', QueueInv q' (Function.update P v (P v).tail) L' := by
  have hvb := hQ.vb v hv
  cases hP : P v with
  | nil =>
    -- an empty list: `head` and `tail` are both the sentinel
    have hht : q.head v = q.tail v := by
      by_contra hne
      exact hvb.head_ne_tail_iff.1 hne hP
    refine ⟨q, by simp [AtomicMutationQueue.dequeueSingleElement, hv, hht, pure, Except.pure],
      rfl, L, ?_⟩
    rwa [List.tail_nil, ← hP, Function.update_eq_self]
  | cons m rest =>
    obtain ⟨a, hnext, hQ'⟩ := hQ.dequeue hv hP
    have hne : q.head v ≠ q.tail v := hvb.head_ne_tail_iff.2 (by rw [hP]; exact List.cons_ne_nil _ _)
    refine ⟨{ q.advanceHead v a with memUsed := (q.advanceHead v a).memUsed - size m }, ?_, rfl, _,
      by simpa using hQ'.memUsed _⟩
    simp [AtomicMutationQueue.dequeueSingleElement, hv, hne, hnext, bind, Except.bind, pure,
      Except.pure]

/-- The tail node holds the last element of the list, and the sentinel nothing when the list
is empty. -/
theorem VbInv.tail_mutation {v : Vbucket} {Pv : List M} {l : Layout} (h : VbInv q v Pv l) :
    (q.heap (q.tail v)).mutation = Pv.getLast? := by
  have hmap : (l.sentinel :: l.lives).map (fun a => (q.heap a).mutation) = none :: Pv.map some := by
    rw [List.map_cons, h.sentinel, h.lives]
  rw [h.tail, Layout.last, ← List.getLast_map (f := fun a => (q.heap a).mutation) (by simp)]
  simp only [hmap]
  cases Pv with
  | nil => rfl
  | cons x xs =>
    rw [List.getLast?_eq_some_getLast (List.cons_ne_nil _ _), List.getLast_cons (by simp)]
    exact List.getLast_map _

/-- **`PeekTail`** is the last element of `v`'s list. -/
theorem QueueInv.peekTail (hQ : QueueInv q P L) {v : Vbucket} (hv : q.inRange v) :
    q.peekTail v = .ok (P v).getLast? := by
  have hvb := hQ.vb v hv
  by_cases hne : q.head v ≠ q.tail v
  · simp [AtomicMutationQueue.peekTail, hv, hne, hvb.tail_mutation, pure, Except.pure]
  · -- `head = tail`: the list is empty
    have hP : P v = [] := by
      by_contra hP
      exact hne (hvb.head_ne_tail_iff.2 hP)
    simp [AtomicMutationQueue.peekTail, hv, hne, hP, pure, Except.pure]

/-- **`PeekHead`** reads the sentinel, whose mutation is nil: never the oldest pending one. -/
theorem QueueInv.peekHead_eq_none (hQ : QueueInv q P L) {v : Vbucket} (hv : q.inRange v) :
    q.peekHead v = .ok none := by
  have hvb := hQ.vb v hv
  have hsent : (q.heap (q.head v)).mutation = none := by rw [hvb.head]; exact hvb.sentinel
  simp [AtomicMutationQueue.peekHead, hv, hsent, pure, Except.pure]

theorem QueueInv.getSize (hQ : QueueInv q P L) {v : Vbucket} (hv : q.inRange v) :
    q.getSize v = .ok (P v).length := by
  simp [AtomicMutationQueue.getSize, hv, (hQ.vb v hv).size, pure, Except.pure]

end Queue

/-! ## §6 — the dequeue loops

One lemma per way a round of a loop body can end, then the loop by induction over the rounds:
`dequeueN`'s on the number of mutations still to take, `dequeueUptoSeqno`'s on the list. Each
round passes one node of the list, so the fuel of one round per allocated node suffices. -/

section Rounds

variable {q : AtomicMutationQueue M} {v : Vbucket} {a : Nat} {m : M} {mem : Int} {sent : List M}

theorem dequeueNRound_take {count cur : UInt64} (mem : Int) (sent : List M)
    (hn : q.headNext v = .ok (a, some m)) (hc : cur < count) :
    dequeueNRound size v count (q, cur, mem, sent) =
      .ok (if count ≤ cur + 1 then
          .ret (sent ++ [m], { q.advanceHead v a with
            memUsed := (q.advanceHead v a).memUsed - (mem + size m) })
        else .next (q.advanceHead v a, cur + 1, mem + size m, sent ++ [m])) := by
  simp only [dequeueNRound, hn, hc, bind, Except.bind, pure, Except.pure, if_true, ge_iff_le]
  split <;> rfl

theorem dequeueNRound_done {count cur : UInt64} {x : Option M} (mem : Int) (sent : List M)
    (hn : q.headNext v = .ok (a, x)) (hc : count ≤ cur) :
    dequeueNRound size v count (q, cur, mem, sent) =
      .ok (.ret (sent, { q with memUsed := q.memUsed - mem })) := by
  simp [dequeueNRound, hn, UInt64.not_lt.2 hc, hc, bind, Except.bind, pure, Except.pure]

theorem dequeueUptoSeqnoRound_lt {s : UInt64} (mem : Int) (sent : List M) (hn : q.headNext v = .ok (a, some m))
    (hs : seqno m < s) :
    dequeueUptoSeqnoRound seqno size v s (q, mem, sent) =
      .ok (.next (q.advanceHead v a, mem + size m, sent ++ [m])) := by
  simp [dequeueUptoSeqnoRound, hn, UInt64.le_of_lt hs, UInt64.not_le.2 hs, bind, Except.bind, pure, Except.pure]

theorem dequeueUptoSeqnoRound_eq {s : UInt64} (mem : Int) (sent : List M) (hn : q.headNext v = .ok (a, some m))
    (hs : seqno m = s) :
    dequeueUptoSeqnoRound seqno size v s (q, mem, sent) =
      .ok (.ret (sent ++ [m], .datach, { q.advanceHead v a with
        memUsed := (q.advanceHead v a).memUsed - (mem + size m) })) := by
  simp [dequeueUptoSeqnoRound, hn, hs, bind, Except.bind, pure, Except.pure]

theorem dequeueUptoSeqnoRound_gt {s : UInt64} (mem : Int) (sent : List M) (hn : q.headNext v = .ok (a, some m))
    (hs : s < seqno m) :
    dequeueUptoSeqnoRound seqno size v s (q, mem, sent) =
      .ok (.ret (sent, .errch, { q with memUsed := q.memUsed - mem })) := by
  simp [dequeueUptoSeqnoRound, hn, UInt64.not_le.2 hs, bind, Except.bind, pure, Except.pure]

end Rounds

section Loops

variable {q : AtomicMutationQueue M} {P : Vbucket → List M} {L : Vbucket → Layout} {v : Vbucket}

/-- The loop test of both dequeues holds while the list is not empty. -/
theorem QueueInv.loop_test (hQ : QueueInv q P L) (hv : q.inRange v) (hP : P v ≠ []) :
    (pure (decide (q.head v ≠ q.tail v)) : Except Halt Bool) = .ok true := by
  simp [(hQ.vb v hv).head_ne_tail_iff.2 hP, pure, Except.pure]

theorem toNat_add_one_of_lt {a b : UInt64} (h : a < b) : (a + 1).toNat = a.toNat + 1 := by
  have hab := UInt64.lt_iff_toNat_lt.1 h
  have hb := b.toNat_lt
  rw [UInt64.toNat_add]
  simp
  omega

/-- **The loop of `dequeueN`** with `k + 1` mutations still to take, and as many queued. -/
theorem QueueInv.dequeueN_loop (hQ : QueueInv q P L) (hv : q.inRange v) {count cur : UInt64}
    (mem : Int) (sent : List M) {k fuel : Nat} (hk : cur.toNat + (k + 1) = count.toNat)
    (hlen : k + 1 ≤ (P v).length) (hfuel : k < fuel) :
    ∃ q', GoLoop.whileLoop .outOfFuel (fun st => pure (st.1.head v ≠ st.1.tail v))
        (dequeueNRound size v count) fuel (q, cur, mem, sent) =
        .ok (.inr (sent ++ (P v).take (k + 1), q')) ∧ q'.numVbuckets = q.numVbuckets ∧
      ∃ L', QueueInv q' (Function.update P v ((P v).drop (k + 1))) L' := by
  -- the induction is on the mutations still to take; each round takes the head of the list
  induction k generalizing q P L cur mem sent fuel with
  | zero =>
    cases fuel with
    | zero => omega
    | succ f =>
      obtain ⟨m, rest, hP⟩ := List.exists_cons_of_length_pos (by omega : 0 < (P v).length)
      obtain ⟨a, hnext, hQ'⟩ := hQ.dequeue hv hP
      have hc : cur < count := UInt64.lt_iff_toNat_lt.2 (by omega)
      have hlast : count ≤ cur + 1 :=
        UInt64.le_iff_toNat_le.2 (by rw [toNat_add_one_of_lt hc]; omega)
      -- the last mutation to take: the round returns
      have hround := dequeueNRound_take size mem sent hnext hc
      rw [if_pos hlast] at hround
      rw [GoLoop.whileLoop_ret f ?_ hround]
      swap
      · exact hQ.loop_test hv (by simp [hP])
      simp only [hP, Nat.zero_add, List.take_succ_cons, List.take_zero, List.drop_succ_cons,
        List.drop_zero]
      exact ⟨_, rfl, rfl, _, hQ'.memUsed _⟩
  | succ k ih =>
    cases fuel with
    | zero => omega
    | succ f =>
      obtain ⟨m, rest, hP⟩ := List.exists_cons_of_length_pos (by omega : 0 < (P v).length)
      obtain ⟨a, hnext, hQ'⟩ := hQ.dequeue hv hP
      have hc : cur < count := UInt64.lt_iff_toNat_lt.2 (by omega)
      have hcur := toNat_add_one_of_lt hc
      have hmore : ¬ count ≤ cur + 1 := UInt64.not_le.2 (UInt64.lt_iff_toNat_lt.2 (by omega))
      have hround := dequeueNRound_take size mem sent hnext hc
      rw [if_neg hmore] at hround
      rw [GoLoop.whileLoop_next f ?_ hround]
      swap
      · exact hQ.loop_test hv (by simp [hP])
      have hlen' : k + 1 ≤ (Function.update P v rest v).length := by
        simp only [hP, List.length_cons] at hlen
        simp only [Function.update_self]
        omega
      have hk' : (cur + 1).toNat + (k + 1) = count.toNat := by omega
      have hf : k < f := by omega
      obtain ⟨q', hloop, hnum, L', hQ''⟩ := ih hQ' hv (mem + size m) (sent ++ [m]) hk' hlen' hf
      refine ⟨q', ?_, hnum, L', ?_⟩
      · rw [hloop, hP, List.take_succ_cons, List.append_assoc, List.singleton_append,
          Function.update_self]
      · rw [Function.update_idem, Function.update_self] at hQ''
        rwa [hP, List.drop_succ_cons]

theorem dequeueN_of_loop {count : UInt64} {fuel : Nat} {r : List M × AtomicMutationQueue M}
    (hv : q.inRange v)
    (h : GoLoop.whileLoop .outOfFuel (fun st : DequeueNVars M => pure (st.1.head v ≠ st.1.tail v))
      (dequeueNRound size v count) fuel (q, 0, 0, []) = .ok (.inr r)) :
    q.dequeueN size v count fuel = .ok r := by
  simp only [AtomicMutationQueue.dequeueN, hv, Bool.not_true, Bool.false_eq_true, if_false, bind,
    Except.bind, h]
  rfl

/-- **`dequeueN`** sends the first `count` elements of a list that has as many, and at least
one (with none, the loop is not entered and the goroutine polls). -/
theorem QueueInv.dequeueN (hQ : QueueInv q P L) (hv : q.inRange v) {count : UInt64}
    (hc : count.toNat ≤ (P v).length) (hne : P v ≠ []) :
    ∃ q', q.dequeueN size v count (q.alloc + 1) = .ok ((P v).take count.toNat, q') ∧
      q'.numVbuckets = q.numVbuckets ∧
      ∃ L', QueueInv q' (Function.update P v ((P v).drop count.toNat)) L' := by
  have hlt := (hQ.vb v hv).length_lt_alloc
  obtain ⟨m, rest, hP⟩ := List.exists_cons_of_ne_nil hne
  cases hk : count.toNat with
  | zero =>
    -- `count = 0`: the first round sends nothing and returns
    obtain ⟨a, hnext, -⟩ := hQ.dequeue hv hP
    have hround := dequeueNRound_done size 0 [] hnext
      (UInt64.le_iff_toNat_le.2 (by rw [hk]; exact Nat.zero_le _) : count ≤ 0)
    have hloop : GoLoop.whileLoop .outOfFuel (fun st : DequeueNVars M => pure (st.1.head v ≠ st.1.tail v))
        (dequeueNRound size v count) (q.alloc + 1) (q, 0, 0, []) =
        .ok (.inr ([], { q with memUsed := q.memUsed - 0 })) := by
      rw [GoLoop.whileLoop_ret q.alloc ?_ hround]
      exact hQ.loop_test hv hne
    refine ⟨_, dequeueN_of_loop size hv hloop, rfl, L, ?_⟩
    rw [List.drop_zero, Function.update_eq_self]
    exact hQ.memUsed _
  | succ k =>
    have hk0 : (0 : UInt64).toNat + (k + 1) = count.toNat := by simp [hk]
    have hfuel : k < q.alloc + 1 := by omega
    obtain ⟨q', hloop, hnum, L', hQ'⟩ := hQ.dequeueN_loop size hv 0 [] hk0 (by omega) hfuel
    refine ⟨q', dequeueN_of_loop size hv ?_, hnum, L', hQ'⟩
    rw [hloop, List.nil_append]

/-- **The loop of `dequeueUptoSeqno`** on a list that holds a mutation at or above `s`. -/
theorem QueueInv.dequeueUptoSeqno_loop (hQ : QueueInv q P L) (hv : q.inRange v) {s : UInt64}
    (mem : Int) (sent : List M) {fuel : Nat} (hex : ∃ m ∈ P v, s ≤ seqno m)
    (hfuel : (P v).length < fuel) :
    ∃ q', GoLoop.whileLoop .outOfFuel (fun st => pure (st.1.head v ≠ st.1.tail v))
        (dequeueUptoSeqnoRound seqno size v s) fuel (q, mem, sent) =
        .ok (.inr (sent ++ (uptoSeqno seqno s (P v)).1, (uptoSeqno seqno s (P v)).2.1, q')) ∧
      q'.numVbuckets = q.numVbuckets ∧
      ∃ L', QueueInv q' (Function.update P v (uptoSeqno seqno s (P v)).2.2) L' := by
  -- the induction is on the list; each round passes its head
  generalize hPv : P v = Pv at hex hfuel ⊢
  induction Pv generalizing q P L mem sent fuel with
  | nil =>
    obtain ⟨_, hm, _⟩ := hex
    exact absurd hm List.not_mem_nil
  | cons m rest ih =>
    cases fuel with
    | zero => exact absurd hfuel (Nat.not_lt_zero _)
    | succ fuel =>
      obtain ⟨a, hnext, hQ'⟩ := hQ.dequeue hv hPv
      have htest := hQ.loop_test hv (by simp [hPv])
      by_cases heq : seqno m = s
      · -- at `s`: the head is sent last and `datach` closed
        have hnlt : ¬ seqno m < s := by rw [heq]; exact UInt64.lt_irrefl s
        rw [GoLoop.whileLoop_ret fuel ?_ (dequeueUptoSeqnoRound_eq seqno size mem sent hnext heq)]
        swap
        · exact htest
        rw [uptoSeqno, if_neg hnlt, if_pos heq]
        exact ⟨_, rfl, rfl, _, hQ'.memUsed _⟩
      rcases UInt64.lt_or_lt_of_ne heq with hlt | hgt
      · -- below `s`: the head is sent and the loop goes on with the rest
        rw [GoLoop.whileLoop_next fuel ?_ (dequeueUptoSeqnoRound_lt seqno size mem sent hnext hlt)]
        swap
        · exact htest
        have hex' : ∃ m' ∈ rest, s ≤ seqno m' := by
          obtain ⟨m', hm', hs⟩ := hex
          rcases List.mem_cons.1 hm' with rfl | hm'
          · exact absurd hs (UInt64.not_le.2 hlt)
          · exact ⟨m', hm', hs⟩
        have hfuel' : rest.length < fuel := by simpa using hfuel
        obtain ⟨q', hloop, hnum, L', hQ''⟩ :=
          ih hQ' hv (mem + size m) (sent ++ [m]) (Function.update_self _ _ _) hex' hfuel'
        rw [Function.update_idem] at hQ''
        rw [uptoSeqno, if_pos hlt]
        refine ⟨q', ?_, hnum, L', hQ''⟩
        rw [hloop, List.append_assoc, List.singleton_append]
      · -- above `s`: nothing more is sent, the head stays and `errch` is closed
        rw [GoLoop.whileLoop_ret fuel ?_ (dequeueUptoSeqnoRound_gt seqno size mem sent hnext hgt)]
        swap
        · exact htest
        rw [uptoSeqno, if_neg (UInt64.not_lt.2 (UInt64.le_of_lt hgt)), if_neg heq, ← hPv,
          Function.update_eq_self, List.append_nil]
        exact ⟨_, rfl, rfl, L, hQ.memUsed _⟩

theorem dequeueUptoSeqno_of_loop {s : UInt64} {fuel : Nat}
    {r : List M × Closed × AtomicMutationQueue M} (hv : q.inRange v)
    (h : GoLoop.whileLoop .outOfFuel (fun st : DequeueUptoVars M => pure (st.1.head v ≠ st.1.tail v))
      (dequeueUptoSeqnoRound seqno size v s) fuel (q, 0, []) = .ok (.inr r)) :
    q.dequeueUptoSeqno seqno size v s fuel = .ok r := by
  simp only [AtomicMutationQueue.dequeueUptoSeqno, hv, Bool.not_true, Bool.false_eq_true, if_false,
    bind, Except.bind, h]
  rfl

/-- **`dequeueUptoSeqno`** on a list that holds a mutation at or above `s`. -/
theorem QueueInv.dequeueUptoSeqno (hQ : QueueInv q P L) (hv : q.inRange v) {s : UInt64}
    (hex : ∃ m ∈ P v, s ≤ seqno m) :
    ∃ q', q.dequeueUptoSeqno seqno size v s (q.alloc + 1) =
        .ok ((uptoSeqno seqno s (P v)).1, (uptoSeqno seqno s (P v)).2.1, q') ∧
      q'.numVbuckets = q.numVbuckets ∧
      ∃ L', QueueInv q' (Function.update P v (uptoSeqno seqno s (P v)).2.2) L' := by
  have hfuel : (P v).length < q.alloc + 1 := Nat.lt_succ_of_lt (hQ.vb v hv).length_lt_alloc
  obtain ⟨q', hloop, hnum, L', hQ'⟩ := hQ.dequeueUptoSeqno_loop seqno size hv 0 [] hex hfuel
  rw [List.nil_append] at hloop
  exact ⟨q', dequeueUptoSeqno_of_loop seqno size hv hloop, hnum, L', hQ'⟩

end Loops

/-! ## §7 — the flusher's watermarks -/

section Watermarks

variable {q : AtomicMutationQueue M} {P : Vbucket → List M} {L : Vbucket → Layout}

theorem inRange_toUInt32 {i : Nat} (hi : i < q.numVbuckets.toNat) : q.inRange i.toUInt32 := by
  have := q.numVbuckets.toNat_lt
  simp [inRange]
  omega

/-- `GetQueueLWT` reads only sentinels: zero for every vbucket, queued mutations or not. -/
theorem QueueInv.getQueueLWT (hQ : QueueInv q P L) :
    Flusher.getQueueLWT seqno q = .ok (List.replicate q.numVbuckets.toNat 0) := by
  unfold Flusher.getQueueLWT
  rw [GoLoop.mapM_of_ok (g := fun _ => 0), List.map_const', List.length_range]
  intro i hi
  rw [hQ.peekHead_eq_none (inRange_toUInt32 (List.mem_range.1 hi))]
  rfl

/-- `GetQueueHWT` is the seqno of each vbucket's newest mutation, `0` when it has none. -/
theorem QueueInv.getQueueHWT (hQ : QueueInv q P L) :
    Flusher.getQueueHWT seqno q = .ok ((List.range q.numVbuckets.toNat).map fun i =>
      ((P i.toUInt32).getLast?.map seqno).getD 0) := by
  unfold Flusher.getQueueHWT
  refine GoLoop.mapM_of_ok fun i hi => ?_
  rw [hQ.peekTail (inRange_toUInt32 (List.mem_range.1 hi))]
  cases (P i.toUInt32).getLast? <;> rfl

/-- `IsQueueLWTLowerThanTimestamp` reads the seqno of vbucket 0's sentinel, whose mutation is
nil: it panics on every timestamp of at least one vbucket. -/
theorem QueueInv.isQueueLWTLowerThanTimestamp (hQ : QueueInv q P L)
    (hpos : 0 < q.numVbuckets.toNat) {ts : List UInt64} (hts : ts ≠ []) :
    Flusher.isQueueLWTLowerThanTimestamp seqno q ts = .error .nilDeref := by
  obtain ⟨t, ts, rfl⟩ := List.exists_cons_of_ne_nil hts
  have hhead : q.peekHead 0 = .ok none := hQ.peekHead_eq_none (inRange_toUInt32 hpos)
  simp [Flusher.isQueueLWTLowerThanTimestamp, Flusher.lwtLowerFrom, hhead,
    Flusher.lwtLowerFrom.deref?, bind, Except.bind]

end Watermarks

/-! ## §8 — the queue refines the lists -/

section Refinement

instance decidableCompletes (numVbuckets : UInt16) (P : Vbucket → List M) :
    ∀ op, Decidable (Completes seqno numVbuckets P op)
  | .dequeueN _ _ => inferInstanceAs (Decidable (_ ∧ _ ∧ _))
  | .dequeueUptoSeqno v s =>
    have := List.decidableBEx (fun m => s ≤ seqno m) (P v)
    inferInstanceAs (Decidable (_ ∧ _))
  | .enqueue _ _ | .dequeueSingleElement _ | .getSize _ | .peekTail _ =>
    inferInstanceAs (Decidable (_ < _))

/-- `NewAtomicMutationQueue` represents empty lists: each vbucket's layout is its sentinel. -/
theorem queueInv_new (numVbuckets : UInt16) (maxMemory memUsed : Int) (minQueueLen : UInt64) :
    QueueInv (new numVbuckets maxMemory memUsed minQueueLen : AtomicMutationQueue M) (fun _ => [])
      (fun v => ⟨[], v.toNat, []⟩) where
  vb v hv :=
    { head := rfl
      tail := rfl
      free := rfl
      linked := rfl
      sentinel := rfl
      lives := rfl
      size := rfl
      nodup := List.nodup_singleton _
      alloc := fun a ha => by
        rw [Layout.nodes, List.nil_append, List.mem_singleton] at ha
        subst ha
        exact of_decide_eq_true hv }
  disjoint v w _ _ hne := by
    simp only [Layout.nodes, List.nil_append, List.disjoint_singleton, List.mem_singleton]
    exact fun h => hne (UInt32.toNat_inj.1 h).symm

/-- **One call**: every admissible call replies as the lists do. -/
theorem queueStep_simulates (numVbuckets : UInt16) :
    Simulation.StepSimulates (fun q P => q.numVbuckets = numVbuckets ∧ ∃ L, QueueInv q P L)
      (queueStep seqno size) (fifoStep seqno) (Completes seqno numVbuckets) := by
  rintro q P op ⟨hnum, L, hQ⟩ hop
  have hin : ∀ v : Vbucket, v.toNat < numVbuckets.toNat → q.inRange v := fun v h => by
    simpa [inRange, hnum] using h
  cases op with
  | enqueue m v =>
    obtain ⟨q', h, hn, L', hQ'⟩ := hQ.enqueue size (hin v hop) m
    exact ⟨q', by simp [queueStep, fifoStep, h, Except.toOption], hn.trans hnum, L', hQ'⟩
  | dequeueSingleElement v =>
    obtain ⟨q', h, hn, L', hQ'⟩ := hQ.dequeueSingleElement size (hin v hop)
    exact ⟨q', by simp [queueStep, fifoStep, h, Except.toOption], hn.trans hnum, L', hQ'⟩
  | dequeueN v count =>
    obtain ⟨hv, hc, hne⟩ := hop
    obtain ⟨q', h, hn, L', hQ'⟩ := hQ.dequeueN size (hin v hv) hc hne
    exact ⟨q', by simp [queueStep, fifoStep, h, Except.toOption], hn.trans hnum, L', hQ'⟩
  | dequeueUptoSeqno v s =>
    obtain ⟨hv, hex⟩ := hop
    obtain ⟨q', h, hn, L', hQ'⟩ := hQ.dequeueUptoSeqno seqno size (hin v hv) hex
    exact ⟨q', by simp [queueStep, fifoStep, h, Except.toOption], hn.trans hnum, L', hQ'⟩
  | getSize v =>
    exact ⟨q, by simp [queueStep, fifoStep, hQ.getSize (hin v hop), Except.toOption], hnum, L, hQ⟩
  | peekTail v =>
    exact ⟨q, by simp [queueStep, fifoStep, hQ.peekTail (hin v hop), Except.toOption], hnum, L, hQ⟩

/-- **The mutation queue refines one FIFO list per vbucket**: from `NewAtomicMutationQueue`,
every admissible sequence of calls runs without a panic, replies as the lists do, and ends in a
queue that lays the lists out as `QueueInv` says. -/
theorem atomicMutationQueue_refines_fifo (numVbuckets : UInt16) (maxMemory memUsed : Int)
    (minQueueLen : UInt64) (ops : List (QueueOp M))
    (hadm : Simulation.Admissible (fifoStep seqno) (Completes seqno numVbuckets) (fun _ => []) ops) :
    ∃ q, Simulation.run (queueStep seqno size) (new numVbuckets maxMemory memUsed minQueueLen) ops =
        some ((Simulation.runSpec (fifoStep seqno) (fun _ => []) ops).1, q) ∧
      q.numVbuckets = numVbuckets ∧
      ∃ L, QueueInv q (Simulation.runSpec (fifoStep seqno) (fun _ => []) ops).2 L :=
  Simulation.run_simulates _ (queueStep_simulates seqno size numVbuckets) ops _ _
    ⟨rfl, _, queueInv_new numVbuckets maxMemory memUsed minQueueLen⟩ hadm

/-- Three mutations on vbucket 0 and one on vbucket 1, taken by each kind of dequeue; the
last enqueue reuses a freed node. -/
def queueCalls : List (QueueOp UInt64) :=
  [.enqueue 1 0, .enqueue 2 0, .enqueue 3 0, .enqueue 7 1, .dequeueSingleElement 0,
    .dequeueN 0 1, .peekTail 1, .dequeueUptoSeqno 0 3, .enqueue 4 0, .getSize 0]

theorem atomicMutationQueue_refines_fifo_queueCalls :
    Simulation.Admissible (fifoStep id) (Completes id 2) (fun _ => []) queueCalls ∧
    ∃ q, Simulation.run (queueStep id (fun _ => 1)) (new 2 100 0 0) queueCalls =
        some ((Simulation.runSpec (fifoStep id) (fun _ => []) queueCalls).1, q) ∧
      q.numVbuckets = 2 ∧
      ∃ L, QueueInv q (Simulation.runSpec (fifoStep id) (fun _ => []) queueCalls).2 L :=
  ⟨by decide, atomicMutationQueue_refines_fifo id (fun _ => 1) 2 100 0 0 queueCalls (by decide)⟩

/-- **The watermarks over every run**: `PeekHead` is nil on every vbucket, so `GetQueueLWT` is
all zeros and `IsQueueLWTLowerThanTimestamp` dereferences nil, while `GetQueueHWT` reads the
newest mutations. -/
theorem queueLWT_of_run (numVbuckets : UInt16) (maxMemory memUsed : Int) (minQueueLen : UInt64)
    (ops : List (QueueOp M))
    (hadm : Simulation.Admissible (fifoStep seqno) (Completes seqno numVbuckets) (fun _ => []) ops) :
    ∃ q, Simulation.run (queueStep seqno size) (new numVbuckets maxMemory memUsed minQueueLen) ops =
        some ((Simulation.runSpec (fifoStep seqno) (fun _ => []) ops).1, q) ∧
      (∀ v : Vbucket, v.toNat < numVbuckets.toNat → q.peekHead v = .ok none) ∧
      Flusher.getQueueLWT seqno q = .ok (List.replicate numVbuckets.toNat 0) ∧
      Flusher.getQueueHWT seqno q = .ok ((List.range numVbuckets.toNat).map fun i =>
        (((Simulation.runSpec (fifoStep seqno) (fun _ => []) ops).2 i.toUInt32).getLast?.map
          seqno).getD 0) ∧
      ∀ ts : List UInt64, ts ≠ [] → 0 < numVbuckets.toNat →
        Flusher.isQueueLWTLowerThanTimestamp seqno q ts = .error .nilDeref := by
  obtain ⟨q, hrun, hnum, L, hQ⟩ := Simulation.run_simulates _ (queueStep_simulates seqno size numVbuckets)
    ops _ _ ⟨rfl, _, queueInv_new numVbuckets maxMemory memUsed minQueueLen⟩ hadm
  subst hnum
  refine ⟨q, hrun, fun v hv => hQ.peekHead_eq_none (by simpa [inRange] using hv),
    hQ.getQueueLWT seqno, hQ.getQueueHWT seqno, fun ts hts hpos => ?_⟩
  exact hQ.isQueueLWTLowerThanTimestamp seqno hpos hts

/-- One mutation of seqno 5 on the only vbucket: its list is `[5]`, yet `PeekHead` is nil, the
low watermark is `[0]`, and the check against the timestamp `[5]` panics. -/
theorem queueLWT_of_run_enqueue :
    Simulation.Admissible (fifoStep id) (Completes id 1) (fun _ => []) [.enqueue 5 0] ∧
    (Simulation.runSpec (fifoStep id) (fun _ => []) [QueueOp.enqueue (5 : UInt64) 0]).2 0 = [5] ∧
    ∃ q, Simulation.run (queueStep id (fun _ => 1)) (new 1 100 0 0) [.enqueue 5 0] =
        some ((Simulation.runSpec (fifoStep id) (fun _ => []) [.enqueue 5 0]).1, q) ∧
      (∀ v : Vbucket, v.toNat < (1 : UInt16).toNat → q.peekHead v = .ok none) ∧
      Flusher.getQueueLWT id q = .ok (List.replicate (1 : UInt16).toNat 0) ∧
      Flusher.getQueueHWT id q = .ok ((List.range (1 : UInt16).toNat).map fun i =>
        (((Simulation.runSpec (fifoStep id) (fun _ => []) [.enqueue 5 0]).2 i.toUInt32).getLast?.map
          id).getD 0) ∧
      ∀ ts : List UInt64, ts ≠ [] → 0 < (1 : UInt16).toNat →
        Flusher.isQueueLWTLowerThanTimestamp id q ts = .error .nilDeref :=
  ⟨by decide, by decide, queueLWT_of_run id (fun _ => 1) 1 100 0 0 [.enqueue 5 0] (by decide)⟩

end Refinement

end Indexer
