import GsiIndexing.Memdb.SkiplistStore

/-!
# The walk of one level

Each level of the skiplist is a list of nodes linked by their `NodeRef` of that level. A
`Path` is such a list with every link on the way not deleted; a level whose nodes are those of
a list of entries (`LevelOk`) is the head, the entries of that level or above in order, and
the tail.

The walk of `findPath` along one level is proved here once, by induction on the nodes it
passes: from a node before the item it passes the nodes that compare below the item and stops
at the first that does not (`walk`). A node marked deleted where the walk would stop is
unlinked on the way (`walk_unlink`), the only write of the walk.
-/

namespace Memdb.Store

variable {α : Type}

namespace Skiplist

/-! ## §1 — writes of one `NodeRef` -/

section Fields

variable (s : Skiplist α) (n i : Nat) (r : NodeRef)

@[simp] theorem setRef_head : (s.setRef n i r).head = s.head := rfl
@[simp] theorem setRef_tail : (s.setRef n i r).tail = s.tail := rfl
@[simp] theorem setRef_level : (s.setRef n i r).level = s.level := rfl
@[simp] theorem setRef_alloc : (s.setRef n i r).alloc = s.alloc := rfl

@[simp] theorem itm_setRef (m : Nat) : ((s.setRef n i r).heap m).itm = (s.heap m).itm := by
  by_cases h : m = n
  · subst h
    simp [setRef]
  · simp [setRef, Function.update_of_ne h]

@[simp] theorem level_setRef (m : Nat) : ((s.setRef n i r).heap m).level = (s.heap m).level := by
  by_cases h : m = n
  · subst h
    simp [setRef]
  · simp [setRef, Function.update_of_ne h]

theorem next_setRef (m j : Nat) :
    ((s.setRef n i r).heap m).next j = if m = n ∧ j = i then r else (s.heap m).next j := by
  by_cases h : m = n
  · subst h
    by_cases hj : j = i
    · subst hj
      simp [setRef]
    · simp [setRef, hj]
  · simp [setRef, h]

theorem next_setRef_of_ne {m j : Nat} (h : m ≠ n ∨ j ≠ i) :
    ((s.setRef n i r).heap m).next j = (s.heap m).next j := by
  rw [next_setRef]
  rcases h with h | h <;> simp [h]

@[simp] theorem next_setRef_self : ((s.setRef n i r).heap n).next i = r := by
  simp [next_setRef]

@[simp] theorem getNext_setRef_self : (s.setRef n i r).getNext n i = r := next_setRef_self s n i r

end Fields

end Skiplist

/-! ## §2 — paths -/

/-- A node of the skiplist as the specification sees it: its address, item and level. -/
structure Entry (α : Type) where
  node : Nat
  item : α
  level : Nat

/-- The entries of level `i` or above, by address. -/
def levelNodes (i : Nat) (E : List (Entry α)) : List Nat :=
  (E.filter fun e => i ≤ e.level).map Entry.node

theorem getLastD_append_cons {β : Type} (z p : β) :
    ∀ (X Y : List β), (X ++ p :: Y).getLastD z = Y.getLastD p
  | [], Y => List.getLastD_cons
  | x :: X, Y => by rw [List.cons_append, List.getLastD_cons, getLastD_append_cons]

theorem getLastD_mem_cons {β : Type} (a : β) : ∀ (l : List β), l.getLastD a ∈ a :: l
  | [] => List.mem_cons_self
  | b :: l => by
    rw [List.getLastD_cons]
    exact List.mem_cons_of_mem _ (getLastD_mem_cons b l)

theorem exists_snoc_getLastD {β : Type} (a : β) (l : List β) : ∃ P, a :: l = P ++ [l.getLastD a] := by
  induction l generalizing a with
  | nil => exact ⟨[], rfl⟩
  | cons b l ih =>
    obtain ⟨P, hP⟩ := ih b
    exact ⟨a :: P, by rw [List.getLastD_cons, hP]; rfl⟩

theorem exists_cons_headD {β : Type} (l : List β) (t : β) : ∃ R, l ++ [t] = l.headD t :: R := by
  cases l with
  | nil => exact ⟨[], rfl⟩
  | cons b l => exact ⟨l ++ [t], rfl⟩

/-- Nodes linked in this order at level `i`, no link on the way deleted. -/
def Path (heap : Nat → Node α) (i : Nat) : List Nat → Prop
  | [] => True
  | [_] => True
  | a :: b :: rest => (heap a).next i = ⟨some b, false⟩ ∧ Path heap i (b :: rest)

/-- Level `i` of `s` holds the entries `E`: the head, their nodes of level `i` or above, and
the tail, whose pointer is nil. -/
def LevelOk (s : Skiplist α) (i : Nat) (E : List (Entry α)) : Prop :=
  Path s.heap i (s.head :: levelNodes i E ++ [s.tail]) ∧ (s.heap s.tail).next i = ⟨none, false⟩

section Path

variable {heap heap' : Nat → Node α} {i : Nat}

@[simp] theorem path_pair {a b : Nat} :
    Path heap i [a, b] ↔ (heap a).next i = ⟨some b, false⟩ := by
  simp [Path]

theorem Path.of_cons {a : Nat} : ∀ {l : List Nat}, Path heap i (a :: l) → Path heap i l
  | [], _ => trivial
  | _ :: _, h => h.2

theorem Path.append_right : ∀ {l₁ l₂ : List Nat}, Path heap i (l₁ ++ l₂) → Path heap i l₂
  | [], _, h => h
  | _ :: _, _, h => Path.append_right (Path.of_cons h)

theorem Path.append_left : ∀ {l₁ l₂ : List Nat}, Path heap i (l₁ ++ l₂) → Path heap i l₁
  | [], _, _ => trivial
  | [_], _, _ => trivial
  | _ :: _ :: _, _, h => ⟨h.1, Path.append_left h.2⟩

/-- Two paths that meet at a node are one. -/
theorem Path.append : ∀ {l₁ l₂ : List Nat} {a : Nat}, Path heap i (l₁ ++ [a]) →
    Path heap i (a :: l₂) → Path heap i (l₁ ++ a :: l₂)
  | [], _, _, _, h₂ => h₂
  | [_], _, _, h₁, h₂ => ⟨h₁.1, h₂⟩
  | _ :: b :: l₁, _, x, h₁, h₂ => by
    have h₁' : Path heap i ((b :: l₁) ++ [x]) := h₁.2
    exact ⟨h₁.1, Path.append h₁' h₂⟩

/-- The link of a path from `a` to the node after it. -/
theorem Path.next_eq {l₁ l₂ : List Nat} {a b : Nat} (h : Path heap i (l₁ ++ a :: b :: l₂)) :
    (heap a).next i = ⟨some b, false⟩ :=
  (Path.append_right h).1

/-- **The frame lemma**: a path whose links are the same in another heap. -/
theorem Path.congr :
    ∀ {l : List Nat}, Path heap i l → (∀ a ∈ l, (heap' a).next i = (heap a).next i) →
      Path heap' i l
  | [], _, _ => trivial
  | [_], _, _ => trivial
  | a :: b :: rest, h, hsame => by
    refine ⟨by rw [hsame a List.mem_cons_self]; exact h.1, Path.congr h.2 ?_⟩
    exact fun c hc => hsame c (List.mem_cons_of_mem _ hc)

/-- A path whose links before its last node are the same in another heap. -/
theorem Path.congr_snoc {t : Nat} :
    ∀ {l : List Nat}, Path heap i (l ++ [t]) → (∀ a ∈ l, (heap' a).next i = (heap a).next i) →
      Path heap' i (l ++ [t])
  | [], _, _ => trivial
  | [a], h, hsame => by
    simpa [hsame a List.mem_cons_self] using h
  | a :: b :: l, h, hsame => by
    have h' : Path heap i ((b :: l) ++ [t]) := h.2
    refine ⟨by rw [hsame a List.mem_cons_self]; exact h.1, Path.congr_snoc h' ?_⟩
    exact fun c hc => hsame c (List.mem_cons_of_mem _ hc)

/-- **A node linked in** between `p` and `c`: `p`'s link goes to `x`, `x`'s to `c`, and no
other link on the path changes. -/
theorem Path.link {P R : List Nat} {p c x : Nat} (h : Path heap i (P ++ p :: c :: R))
    (hnd : (P ++ p :: c :: R).Nodup) (hp : (heap' p).next i = ⟨some x, false⟩)
    (hx : (heap' x).next i = ⟨some c, false⟩)
    (hsame : ∀ a ∈ P ++ p :: c :: R, a ≠ p → (heap' a).next i = (heap a).next i) :
    Path heap' i (P ++ p :: x :: c :: R) := by
  have hpP : p ∉ P := fun hm => (List.nodup_append.1 hnd).2.2 p hm p List.mem_cons_self rfl
  have hpR : p ∉ c :: R := (List.nodup_cons.1 (List.nodup_append.1 hnd).2.1).1
  refine Path.append ?_ ⟨hp, hx, Path.congr (Path.append_right h).of_cons fun a ha => ?_⟩
  · have hl : Path heap i ((P ++ [p]) ++ c :: R) := by simpa using h
    refine Path.congr_snoc (Path.append_left hl) fun a ha => ?_
    exact hsame a (List.mem_append_left _ ha) fun hap => hpP (hap ▸ ha)
  · exact hsame a (List.mem_append_right _ (List.mem_cons_of_mem _ ha)) fun hap => hpR (hap ▸ ha)

/-- **A node unlinked**: `p`'s link skips `n` and goes to `c`, and no other link on the path
changes. -/
theorem Path.unlink {P R : List Nat} {p n c : Nat} (h₁ : Path heap i (P ++ [p, n]))
    (h₂ : Path heap i (c :: R)) (hnd : (P ++ p :: c :: R).Nodup)
    (hp : (heap' p).next i = ⟨some c, false⟩)
    (hsame : ∀ a ∈ P ++ p :: c :: R, a ≠ p → (heap' a).next i = (heap a).next i) :
    Path heap' i (P ++ p :: c :: R) := by
  have hpP : p ∉ P := fun hm => (List.nodup_append.1 hnd).2.2 p hm p List.mem_cons_self rfl
  have hpR : p ∉ c :: R := (List.nodup_cons.1 (List.nodup_append.1 hnd).2.1).1
  have hl : Path heap i ((P ++ [p]) ++ [n]) := by simpa using h₁
  have h₁' : Path heap i (P ++ [p]) := Path.append_left hl
  refine Path.append ?_ ⟨hp, Path.congr h₂ fun a ha => ?_⟩
  · refine Path.congr_snoc h₁' fun a ha => ?_
    exact hsame a (List.mem_append_left _ ha) fun hap => hpP (hap ▸ ha)
  · exact hsame a (List.mem_append_right _ (List.mem_cons_of_mem _ ha)) fun hap => hpR (hap ▸ ha)

/-- The part of a path after one of its nodes `p`: a path from `p` to the same end, through
nodes of the path, as long at most, and whose last node before the end is the path's. -/
theorem Path.from_mem {P : List Nat} {a p c : Nat} (h : Path heap i (a :: P ++ [c]))
    (hp : p ∈ a :: P) :
    ∃ Y, Path heap i (p :: Y ++ [c]) ∧ (∀ y ∈ Y, y ∈ P) ∧ Y.length ≤ P.length ∧
      Y.getLastD p = P.getLastD a := by
  obtain ⟨X, Y, hXY⟩ := List.append_of_mem hp
  refine ⟨Y, ?_, fun y hy => ?_, ?_, ?_⟩
  · have hl : Path heap i (X ++ (p :: Y ++ [c])) := by
      rw [← List.append_assoc, ← hXY]
      exact h
    exact hl.append_right
  · -- `Y` follows `p`, which is `a` itself or a node of `P`
    cases X with
    | nil =>
      obtain ⟨-, rfl⟩ := List.cons_eq_cons.1 hXY
      exact hy
    | cons x X =>
      obtain ⟨-, hX⟩ := List.cons_eq_cons.1 hXY
      rw [hX]
      exact List.mem_append_right _ (List.mem_cons_of_mem _ hy)
  · have hlen := congrArg List.length hXY
    simp only [List.length_append, List.length_cons] at hlen
    omega
  · rw [← getLastD_append_cons a p X Y, ← hXY, List.getLastD_cons]

/-- The link out of the first node of a path that ends at `c`. -/
theorem Path.next_headD {y c : Nat} {ys : List Nat} (h : Path heap i (y :: ys ++ [c])) :
    (heap y).next i = ⟨some ((ys ++ [c]).headD c), false⟩ := by
  cases ys with
  | nil => exact path_pair.1 h
  | cons z zs => exact h.1

end Path

/-! ## §3 — the walk of one level -/

namespace Skiplist

section Walk

variable (cmp : α → α → Int) (itm : Option α) {s : Skiplist α} {sts : Stats} {i : Nat}

theorem levelSearchRound_advance {prev curr nxt : Nat} {v : Int}
    (hr : s.getNext curr i = ⟨some nxt, false⟩) (hc : compareItems cmp (s.heap curr).itm itm < 0) :
    levelSearchRound cmp itm i (s, sts, prev, curr, v) =
      .ok (.next (s, sts, curr, nxt, compareItems cmp (s.heap curr).itm itm)) := by
  simp [levelSearchRound, hr, hc, deref, pure, Except.pure, bind, Except.bind]

theorem levelSearchRound_stop {prev curr : Nat} {v : Int} (hr : (s.getNext curr i).deleted = false)
    (hc : ¬ compareItems cmp (s.heap curr).itm itm < 0) :
    levelSearchRound cmp itm i (s, sts, prev, curr, v) =
      .ok (.stop (s, sts, prev, curr, compareItems cmp (s.heap curr).itm itm)) := by
  simp [levelSearchRound, hr, hc, pure, Except.pure]

/-- A marked `curr` is unlinked from `prev`, and the walk reads `curr` again from `prev`. -/
theorem levelSearchRound_unlink {prev curr c : Nat} {v : Int}
    (hr : s.getNext curr i = ⟨some c, true⟩) (hp : s.getNext prev i = ⟨some curr, false⟩) :
    levelSearchRound cmp itm i (s, sts, prev, curr, v) =
      .ok (.next (s.setRef prev i ⟨some c, false⟩,
        (if i = 0 then sts.add (s.heap curr).level (-1) else sts), prev, c, v)) := by
  have hdcas : s.dcasNext prev i (some curr) (some c) false =
      (s.setRef prev i ⟨some c, false⟩, true) := by
    simp [dcasNext, hp]
  have hhelp : s.helpDelete i prev curr (some c) sts = (s.setRef prev i ⟨some c, false⟩,
      (if i = 0 then sts.add (s.heap curr).level (-1) else sts), true) := by
    by_cases hi : i = 0
    · subst hi
      simp [helpDelete, hdcas]
    · simp [helpDelete, hdcas, hi]
  simp [levelSearchRound, hr, hhelp, deref, pure, Except.pure, bind, Except.bind]

/-- **The walk of one level** from `prev`: it passes the nodes `ys`, which compare below the
item, and stops at `c`, which does not. Nothing is written. -/
theorem walk {c : Nat} (hcd : (s.getNext c i).deleted = false)
    (hc : ¬ compareItems cmp (s.heap c).itm itm < 0) :
    ∀ (ys : List Nat) (prev : Nat) (v : Int) (fuel : Nat), Path s.heap i (prev :: ys ++ [c]) →
      (∀ y ∈ ys, compareItems cmp (s.heap y).itm itm < 0) → ys.length < fuel →
      GoLoop.whileLoop .outOfFuel (fun _ => pure true) (levelSearchRound cmp itm i) fuel
          (s, sts, prev, (ys ++ [c]).headD c, v) =
        .ok (.inl (s, sts, ys.getLastD prev, c, compareItems cmp (s.heap c).itm itm))
  | [], prev, v, fuel + 1, _, _, _ => by
    rw [List.nil_append, List.headD_cons,
      GoLoop.whileLoop_stop fuel ?_ (levelSearchRound_stop cmp itm hcd hc)]
    · rfl
    · rfl
  | y :: ys, prev, v, fuel + 1, hpath, hys, hfuel => by
    have hr : s.getNext y i = ⟨some ((ys ++ [c]).headD c), false⟩ := hpath.of_cons.next_headD
    rw [List.cons_append, List.headD_cons, GoLoop.whileLoop_next fuel ?_
      (levelSearchRound_advance cmp itm hr (hys y List.mem_cons_self))]
    · rw [List.getLastD_cons]
      exact walk hcd hc ys y _ fuel hpath.of_cons
        (fun z hz => hys z (List.mem_cons_of_mem _ hz)) (by simpa using hfuel)
    · rfl

/-- **The walk of one level through a marked node** `n` where it would stop: the link into
`n` then skips it, and the walk stops at the node after it. -/
theorem walk_unlink {n c : Nat} (hn : s.getNext n i = ⟨some c, true⟩)
    (hcd : (s.getNext c i).deleted = false) (hc : ¬ compareItems cmp (s.heap c).itm itm < 0) :
    ∀ (ys : List Nat) (prev : Nat) (v : Int) (fuel : Nat), Path s.heap i (prev :: ys ++ [n]) →
      (∀ y ∈ ys, compareItems cmp (s.heap y).itm itm < 0) → c ∉ prev :: ys →
      ys.length + 1 < fuel →
      GoLoop.whileLoop .outOfFuel (fun _ => pure true) (levelSearchRound cmp itm i) fuel
          (s, sts, prev, (ys ++ [n]).headD n, v) =
        .ok (.inl (s.setRef (ys.getLastD prev) i ⟨some c, false⟩,
          (if i = 0 then sts.add (s.heap n).level (-1) else sts), ys.getLastD prev, c,
          compareItems cmp (s.heap c).itm itm))
  | [], prev, v, fuel + 2, hpath, _, hcp, _ => by
    have hcp' : c ≠ prev := fun h => hcp (h ▸ List.mem_cons_self)
    -- the round at `n` unlinks it, the next one stops at `c`
    have hcd' : ((s.setRef prev i ⟨some c, false⟩).getNext c i).deleted = false := by
      rw [getNext, next_setRef_of_ne _ _ _ _ (.inl hcp')]
      exact hcd
    have hc' : ¬ compareItems cmp ((s.setRef prev i ⟨some c, false⟩).heap c).itm itm < 0 := by
      rwa [itm_setRef]
    rw [List.nil_append, List.headD_cons,
      GoLoop.whileLoop_next (fuel + 1) ?_ (levelSearchRound_unlink cmp itm hn (path_pair.1 hpath)),
      GoLoop.whileLoop_stop fuel ?_ (levelSearchRound_stop cmp itm hcd' hc'), itm_setRef]
    · rfl
    · rfl
    · rfl
  | y :: ys, prev, v, fuel + 1, hpath, hys, hcp, hfuel => by
    have hr : s.getNext y i = ⟨some ((ys ++ [n]).headD n), false⟩ := hpath.of_cons.next_headD
    rw [List.cons_append, List.headD_cons, GoLoop.whileLoop_next fuel ?_
      (levelSearchRound_advance cmp itm hr (hys y List.mem_cons_self))]
    · rw [List.getLastD_cons]
      exact walk_unlink hn hcd hc ys y _ fuel hpath.of_cons
        (fun z hz => hys z (List.mem_cons_of_mem _ hz)) (fun h => hcp (List.mem_cons_of_mem _ h))
        (by simpa using hfuel)
    · rfl

/-- **One level of `findPath`** from a node `p` of a path from `a` to `c`: the walk passes the
nodes after `p`, which compare below the item, stops at `c`, and writes nothing. -/
theorem searchLevel_pass {P : List Nat} {a p c : Nat} (hpath : Path s.heap i (a :: P ++ [c]))
    (hcd : (s.getNext c i).deleted = false) (hc : ¬ compareItems cmp (s.heap c).itm itm < 0)
    (hP : ∀ y ∈ P, compareItems cmp (s.heap y).itm itm < 0) (hp : p ∈ a :: P)
    {fuel : Nat} (hfuel : P.length < fuel) (buf : ActionBuffer) (v : Int) :
    searchLevel cmp itm fuel i (s, sts, buf, p, v) =
      .ok (s, sts, buf.set i (P.getLastD a) c, P.getLastD a,
        compareItems cmp (s.heap c).itm itm) := by
  obtain ⟨Y, hseg, hY, hYlen, hlast⟩ := hpath.from_mem hp
  simp only [searchLevel, getNext, hseg.next_headD, deref, Option.elim, bind, Except.bind,
    walk cmp itm hcd hc Y p v fuel hseg (fun y hy => hP y (hY y hy)) (by omega), hlast]
  rfl

/-- **One level of `findPath` through a marked node** `n`, the last of a path from `a`: the
walk passes the nodes after `p`, unlinks `n` and stops at `c`, the node after it. -/
theorem searchLevel_unlink {P : List Nat} {a p n c : Nat}
    (hpath : Path s.heap i (a :: P ++ [n])) (hn : s.getNext n i = ⟨some c, true⟩)
    (hcd : (s.getNext c i).deleted = false) (hc : ¬ compareItems cmp (s.heap c).itm itm < 0)
    (hP : ∀ y ∈ P, compareItems cmp (s.heap y).itm itm < 0) (hcP : c ∉ a :: P)
    (hp : p ∈ a :: P) {fuel : Nat} (hfuel : P.length + 1 < fuel) (buf : ActionBuffer)
    (v : Int) :
    searchLevel cmp itm fuel i (s, sts, buf, p, v) =
      .ok (s.setRef (P.getLastD a) i ⟨some c, false⟩,
        (if i = 0 then sts.add (s.heap n).level (-1) else sts), buf.set i (P.getLastD a) c,
        P.getLastD a, compareItems cmp (s.heap c).itm itm) := by
  obtain ⟨Y, hseg, hY, hYlen, hlast⟩ := hpath.from_mem hp
  -- `c` is not among the nodes the walk passes, nor `p`
  have hcY : c ∉ p :: Y := by
    intro hm
    rcases List.mem_cons.1 hm with rfl | hm
    · exact hcP hp
    · exact hcP (List.mem_cons_of_mem _ (hY c hm))
  simp only [searchLevel, getNext, hseg.next_headD, deref, Option.elim, bind, Except.bind,
    walk_unlink cmp itm hn hcd hc Y p v fuel hseg (fun y hy => hP y (hY y hy)) hcY (by omega),
    hlast]
  rfl

end Walk

end Skiplist

end Memdb.Store
