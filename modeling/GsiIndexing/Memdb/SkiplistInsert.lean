import GsiIndexing.Memdb.SkiplistContents

/-!
# `Insert3` and `NewLevel` keep the contents

`Insert3` allocates the node, runs `findPath`, and when the item is new sets the node's links
to `succs[i]`, swaps `preds[0]`'s link at level 0 to the node and then, in `fixThisLevel`,
each `preds[i]`'s link at the levels above. On a skiplist that holds its entries no swap
fails: `findPath` left each `preds[i]` linked to `succs[i]`, and the writes at one level leave
every other level alone.

* `Inv.link` — a node linked in between `preds[i]` and `succs[i]` at each of its levels
  joins the entries after those below its item;
* `insert3_ok` — `Insert3` at a level up to `level` replies and changes the skiplist as
  `Contents.insert` says;
* `newLevel_holds` — `NewLevel` keeps the representation, with `level` raised by at most one.
-/

namespace Memdb.Store

variable {α : Type}

/-! ## §1 — writes of links only -/

namespace Skiplist

/-- `t` differs from `s` in links only. -/
structure LinksOnly (s t : Skiplist α) : Prop where
  head : t.head = s.head
  tail : t.tail = s.tail
  level : t.level = s.level
  alloc : t.alloc = s.alloc
  itm : ∀ m, (t.heap m).itm = (s.heap m).itm
  node_level : ∀ m, (t.heap m).level = (s.heap m).level

section Links

variable {s t u : Skiplist α}

theorem LinksOnly.refl (s : Skiplist α) : LinksOnly s s :=
  ⟨rfl, rfl, rfl, rfl, fun _ => rfl, fun _ => rfl⟩

theorem LinksOnly.trans (h₁ : LinksOnly s t) (h₂ : LinksOnly t u) : LinksOnly s u :=
  ⟨h₂.head.trans h₁.head, h₂.tail.trans h₁.tail, h₂.level.trans h₁.level,
    h₂.alloc.trans h₁.alloc, fun m => (h₂.itm m).trans (h₁.itm m),
    fun m => (h₂.node_level m).trans (h₁.node_level m)⟩

theorem linksOnly_setRef (s : Skiplist α) (n i : Nat) (r : NodeRef) : LinksOnly s (s.setRef n i r) :=
  ⟨rfl, rfl, rfl, rfl, itm_setRef s n i r, level_setRef s n i r⟩

end Links

/-- Each level `j` of `ls` in turn: the link of `pred j` at `j` set to `tgt j`, not deleted. -/
def relink (s : Skiplist α) (pred tgt : Nat → Nat) (ls : List Nat) : Skiplist α :=
  ls.foldl (fun s j => s.setRef (pred j) j ⟨some (tgt j), false⟩) s

section Relink

variable {pred tgt : Nat → Nat}

theorem relink_cons (s : Skiplist α) (j : Nat) (ls : List Nat) :
    s.relink pred tgt (j :: ls) = (s.setRef (pred j) j ⟨some (tgt j), false⟩).relink pred tgt ls :=
  rfl

theorem relink_append_singleton (s : Skiplist α) (ls : List Nat) (j : Nat) :
    s.relink pred tgt (ls ++ [j]) =
      (s.relink pred tgt ls).setRef (pred j) j ⟨some (tgt j), false⟩ := by
  simp [relink, List.foldl_append]

theorem linksOnly_relink : ∀ (s : Skiplist α) (ls : List Nat), LinksOnly s (s.relink pred tgt ls)
  | s, [] => LinksOnly.refl s
  | s, _ :: ls => (linksOnly_setRef s _ _ _).trans (linksOnly_relink _ ls)

/-- A link is the last one set to it, or as it was; writing one link twice at one level
writes the same. -/
theorem next_relink : ∀ (s : Skiplist α) (ls : List Nat) (m j : Nat),
    ((s.relink pred tgt ls).heap m).next j =
      if j ∈ ls ∧ m = pred j then ⟨some (tgt j), false⟩ else (s.heap m).next j
  | s, [], m, j => by simp [relink]
  | s, k :: ls, m, j => by
    rw [relink_cons, next_relink, next_setRef]
    by_cases hj : j ∈ ls ∧ m = pred j
    · simp [hj]
    · by_cases hk : m = pred k ∧ j = k
      · obtain ⟨rfl, rfl⟩ := hk
        simp
      · have hk' : ¬ (j = k ∧ m = pred j) := fun h => hk ⟨h.1 ▸ h.2, h.1⟩
        simp only [if_neg hj, if_neg hk, List.mem_cons]
        rw [if_neg (by tauto)]

end Relink

/-- `setNextLevels` writes the node's own links, one per level up to `itemLevel`. -/
theorem setNextLevels_eq (s : Skiplist α) (x : Nat) (buf : ActionBuffer) (l : Nat) :
    s.setNextLevels x buf l =
      (List.range (l + 1)).foldl (fun s i => s.setRef x i ⟨buf.succs i, false⟩) s := rfl

theorem linksOnly_foldl_setRef (x : Nat) (r : Nat → NodeRef) :
    ∀ (s : Skiplist α) (ls : List Nat),
      LinksOnly s (ls.foldl (fun s i => s.setRef x i (r i)) s)
  | s, [] => LinksOnly.refl s
  | s, i :: ls => (linksOnly_setRef s x i (r i)).trans (linksOnly_foldl_setRef x r _ ls)

theorem next_foldl_setRef (x : Nat) (r : Nat → NodeRef) :
    ∀ (s : Skiplist α) (ls : List Nat) (m j : Nat),
      ((ls.foldl (fun s i => s.setRef x i (r i)) s).heap m).next j =
        if m = x ∧ j ∈ ls then r j else (s.heap m).next j
  | s, [], m, j => by simp
  | s, i :: ls, m, j => by
    rw [List.foldl_cons, next_foldl_setRef, next_setRef]
    by_cases hj : m = x ∧ j ∈ ls
    · simp [hj]
    · by_cases hi : m = x ∧ j = i
      · obtain ⟨rfl, rfl⟩ := hi
        simp
      · simp only [if_neg hj, if_neg hi, List.mem_cons]
        rw [if_neg (by tauto)]

theorem linksOnly_setNextLevels (s : Skiplist α) (x : Nat) (buf : ActionBuffer) (l : Nat) :
    LinksOnly s (s.setNextLevels x buf l) :=
  linksOnly_foldl_setRef x (fun i => ⟨buf.succs i, false⟩) s _

theorem next_setNextLevels (s : Skiplist α) (x : Nat) (buf : ActionBuffer) (l m j : Nat) :
    ((s.setNextLevels x buf l).heap m).next j =
      if m = x ∧ j ≤ l then ⟨buf.succs j, false⟩ else (s.heap m).next j := by
  rw [setNextLevels_eq, next_foldl_setRef]
  simp only [List.mem_range, Nat.lt_succ_iff]

/-! ## §2 — a new node -/

section NewNode

variable (s : Skiplist α) (itm : Option α) (lvl : Nat)

@[simp] theorem newNode_fst : (s.newNode itm lvl).1 = s.alloc := rfl
@[simp] theorem newNode_head : (s.newNode itm lvl).2.head = s.head := rfl
@[simp] theorem newNode_tail : (s.newNode itm lvl).2.tail = s.tail := rfl
@[simp] theorem newNode_level : (s.newNode itm lvl).2.level = s.level := rfl
@[simp] theorem newNode_alloc : (s.newNode itm lvl).2.alloc = s.alloc + 1 := rfl

theorem heap_newNode (m : Nat) :
    (s.newNode itm lvl).2.heap m =
      if m = s.alloc then ⟨itm, lvl, fun _ => ⟨none, false⟩⟩ else s.heap m := by
  by_cases hm : m = s.alloc
  · subst hm
    simp [newNode]
  · simp [newNode, hm]

end NewNode

end Skiplist

/-! ## §3 — the representation around a new node -/

section Around

variable {cmp : α → α → Int} {s : Skiplist α} {E : List (Entry α)} {D : List Nat}

/-- A node on a level is the head, an entry's node or the tail. -/
theorem mem_of_mem_level {i a : Nat} (ha : a ∈ s.head :: levelNodes i E ++ [s.tail]) :
    a ∈ s.head :: s.tail :: E.map Entry.node ++ D := by
  simp only [List.cons_append, List.mem_cons, List.mem_append, List.not_mem_nil, or_false] at ha ⊢
  rcases ha with rfl | ha | rfl
  · exact .inl rfl
  · exact .inr (.inr (.inl ((levelNodes_sublist_map i E).subset ha)))
  · exact .inr (.inl rfl)

/-- A new node leaves the representation as it is. -/
theorem Inv.newNode (h : Inv cmp s E D) (itm : Option α) (lvl : Nat) :
    Inv cmp (s.newNode itm lvl).2 E D := by
  -- every node the representation names is older than the new one
  have hold : ∀ a ∈ s.head :: s.tail :: E.map Entry.node ++ D, (s.newNode itm lvl).2.heap a = s.heap a :=
    fun a ha => by rw [Skiplist.heap_newNode, if_neg (Nat.ne_of_lt (h.alloc a ha))]
  have hE : ∀ e ∈ E, e.node ∈ s.head :: s.tail :: E.map Entry.node ++ D := fun e he => by
    simp only [List.cons_append, List.mem_cons, List.mem_append, List.mem_map]
    exact .inr (.inr (.inl ⟨e, he, rfl⟩))
  refine ⟨fun i hi => LevelOk.frame (h.levels i hi) rfl rfl fun a ha => ?_, ?_, ?_, fun e he => ?_,
    h.level, h.level_le, h.sorted, h.nodup, fun a ha => ?_, fun d hd => ?_⟩
  · rw [hold a (mem_of_mem_level ha)]
  · rw [Skiplist.newNode_head, hold s.head List.mem_cons_self]
    exact h.head_itm
  · rw [Skiplist.newNode_tail, hold s.tail (List.mem_cons_of_mem _ List.mem_cons_self)]
    exact h.tail_itm
  · rw [hold e.node (hE e he)]
    exact h.entry e he
  · rw [Skiplist.newNode_alloc]
    exact Nat.lt_succ_of_lt (h.alloc a ha)
  · have hdm : d ∈ s.head :: s.tail :: E.map Entry.node ++ D := by simp [hd]
    simp only [Skiplist.getNext, hold d hdm]
    exact h.dead d hd

variable (cmp s E)

/-- `preds[i]` is the head or an entry's node. -/
theorem predAt_mem_nodes (itm : α) (i : Nat) :
    predAt cmp s E itm i ∈ s.head :: E.map Entry.node := by
  have h := getLastD_mem_cons s.head (levelNodes i (entriesBelow cmp itm E))
  rcases List.mem_cons.1 h with h | h
  · exact h ▸ List.mem_cons_self
  · exact List.mem_cons_of_mem _ (((levelNodes_sublist_map i _).trans
      ((List.takeWhile_sublist _).map _)).subset h)

variable {cmp s E}

/-- **`findPath` leaves each `preds[i]` linked to `succs[i]`**: they are next to each other on
the level. -/
theorem Inv.next_predAt (h : Inv cmp s E D) (itm : α) {i : Nat} (hi : i ≤ maxLevel) :
    (s.heap (predAt cmp s E itm i)).next i = ⟨some (succAt cmp s E itm i), false⟩ := by
  obtain ⟨P, hP⟩ := exists_snoc_getLastD s.head (levelNodes i (entriesBelow cmp itm E))
  obtain ⟨R, hR⟩ := exists_cons_headD (levelNodes i (entriesFrom cmp itm E)) s.tail
  have hsplit : levelNodes i E =
      levelNodes i (entriesBelow cmp itm E) ++ levelNodes i (entriesFrom cmp itm E) := by
    rw [← levelNodes_append, entriesBelow_append_entriesFrom]
  have hpath : s.head :: levelNodes i E ++ [s.tail] =
      P ++ predAt cmp s E itm i :: succAt cmp s E itm i :: R := by
    calc s.head :: levelNodes i E ++ [s.tail]
        = (s.head :: levelNodes i (entriesBelow cmp itm E)) ++
            (levelNodes i (entriesFrom cmp itm E) ++ [s.tail]) := by
          rw [hsplit]
          simp
      _ = P ++ predAt cmp s E itm i :: succAt cmp s E itm i :: R := by
          rw [hP, hR]
          simp [predAt, succAt]
  have hl : Path s.heap i (P ++ predAt cmp s E itm i :: succAt cmp s E itm i :: R) :=
    hpath ▸ (h.levels i hi).1
  exact hl.next_eq

theorem mem_names_of_mem_nodes {a : Nat} (ha : a ∈ s.head :: E.map Entry.node) :
    a ∈ s.head :: s.tail :: E.map Entry.node ++ D := by
  rcases List.mem_cons.1 ha with rfl | ha
  · exact List.mem_cons_self
  · exact List.mem_cons_of_mem _ (List.mem_cons_of_mem _ (List.mem_append_left _ ha))

/-- The head, the tail and the nodes of a level are distinct. -/
theorem Inv.nodup_level (h : Inv cmp s E D) (i : Nat) :
    (s.head :: levelNodes i E ++ [s.tail]).Nodup := by
  have hsub : (s.head :: s.tail :: levelNodes i E).Sublist (s.head :: s.tail :: E.map Entry.node ++ D) :=
    (((levelNodes_sublist_map i E).trans (List.sublist_append_left _ D)).cons_cons _).cons_cons _
  have hperm : (s.head :: levelNodes i E ++ [s.tail]).Perm (s.head :: s.tail :: levelNodes i E) :=
    (List.perm_append_singleton _ _).cons _
  exact hperm.nodup_iff.2 (h.nodup.sublist hsub)

/-- A deleted node is neither the head nor an entry's node. -/
theorem Inv.not_mem_dead (h : Inv cmp s E D) {a : Nat} (ha : a ∈ s.head :: E.map Entry.node) :
    a ∉ D := by
  have hnd := h.nodup
  rw [List.cons_append, List.cons_append, List.nodup_cons, List.nodup_cons, List.nodup_append] at hnd
  intro hd
  rcases List.mem_cons.1 ha with rfl | ha
  · exact hnd.1 (by simp [hd])
  · exact hnd.2.2.2.2 a ha a hd rfl

/-- The entries of a level above a new node's level are those without it. -/
theorem levelNodes_insert_of_lt {i : Nat} {A B : List (Entry α)} {xe : Entry α} (hi : xe.level < i) :
    levelNodes i (A ++ xe :: B) = levelNodes i (A ++ B) := by
  have hxe : ¬ i ≤ xe.level := by omega
  simp [levelNodes, hxe]

variable (hc : CmpLaws cmp)

include hc in
/-- **A node linked in at each of its levels**, between `preds[i]` and `succs[i]` of its item,
joins the entries after those below the item. -/
theorem Inv.link (h : Inv cmp s E D) {t : Skiplist α} (ht : s.LinksOnly t) {x lvl : Nat} {itm : α}
    (hx : x ∉ s.head :: s.tail :: E.map Entry.node ++ D) (hxa : x < s.alloc)
    (hxitm : (s.heap x).itm = some itm) (hxlvl : (s.heap x).level = lvl) (hlvl : lvl ≤ s.level)
    (hne : ∀ f ∈ E, cmp f.item itm ≠ 0)
    (hpred : ∀ j ≤ lvl, (t.heap (predAt cmp s E itm j)).next j = ⟨some x, false⟩)
    (hxn : ∀ j ≤ lvl, (t.heap x).next j = ⟨some (succAt cmp s E itm j), false⟩)
    (hsame : ∀ m j, m ≠ x → ¬ (j ≤ lvl ∧ m = predAt cmp s E itm j) →
      (t.heap m).next j = (s.heap m).next j) :
    Inv cmp t (entriesBelow cmp itm E ++ ⟨x, itm, lvl⟩ :: entriesFrom cmp itm E) D := by
  have hAB : entriesBelow cmp itm E ++ entriesFrom cmp itm E = E := entriesBelow_append_entriesFrom itm E
  have hxlevel : ∀ {i a}, a ∈ s.head :: levelNodes i E ++ [s.tail] → a ≠ x := fun ha hax =>
    hx (hax ▸ mem_of_mem_level ha)
  -- the names of the new representation: the old ones and the new node
  have hlist : t.head :: t.tail :: (entriesBelow cmp itm E ++ ⟨x, itm, lvl⟩ :: entriesFrom cmp itm E).map
      Entry.node ++ D = (s.head :: s.tail :: (entriesBelow cmp itm E).map Entry.node) ++
        x :: ((entriesFrom cmp itm E).map Entry.node ++ D) := by
    simp [ht.head, ht.tail]
  have hold : s.head :: s.tail :: (entriesBelow cmp itm E).map Entry.node ++
      ((entriesFrom cmp itm E).map Entry.node ++ D) = s.head :: s.tail :: E.map Entry.node ++ D := by
    conv_rhs => rw [← hAB]
    simp
  refine ⟨fun i hi => ?_, ?_, ?_, fun e he => ?_, fun e he => ?_, ht.level ▸ h.level_le, ?_, ?_,
    fun a ha => ?_, fun d hd => ?_⟩
  · by_cases hil : i ≤ lvl
    · -- a level of the new node: linked in after `preds[i]`
      have hlev : LevelOk s i (entriesBelow cmp itm E ++ entriesFrom cmp itm E) := by
        rw [hAB]
        exact h.levels i hi
      have hnd : (s.head :: levelNodes i (entriesBelow cmp itm E ++ entriesFrom cmp itm E) ++
          [s.tail]).Nodup := by
        rw [hAB]
        exact h.nodup_level i
      have hxl : x ∉ s.head :: levelNodes i (entriesBelow cmp itm E ++ entriesFrom cmp itm E) ++
          [s.tail] := by
        rw [hAB]
        exact fun hm => hxlevel hm rfl
      exact LevelOk.link hlev hnd hxl hil ht.head ht.tail (hpred i hil) (hxn i hil)
        fun a hap hax => hsame a i hax fun hj => hap hj.2
    · -- a level above it: unchanged
      rw [LevelOk, levelNodes_insert_of_lt (by simpa using hil), hAB]
      exact LevelOk.frame (h.levels i hi) ht.head ht.tail fun a ha =>
        hsame a i (hxlevel ha) fun hj => hil hj.1
  · rw [ht.head, ht.itm]
    exact h.head_itm
  · rw [ht.tail, ht.itm]
    exact h.tail_itm
  · rw [ht.itm, ht.node_level]
    simp only [List.mem_append, List.mem_cons] at he
    rcases he with he | rfl | he
    · exact h.entry e ((List.takeWhile_sublist _).subset he)
    · exact ⟨hxitm, hxlvl⟩
    · exact h.entry e ((List.dropWhile_sublist _).subset he)
  · rw [ht.level]
    simp only [List.mem_append, List.mem_cons] at he
    rcases he with he | rfl | he
    · exact h.level e ((List.takeWhile_sublist _).subset he)
    · exact hlvl
    · exact h.level e ((List.dropWhile_sublist _).subset he)
  · exact sorted_insert hc h.sorted (show ∀ f ∈ E, cmp f.item (⟨x, itm, lvl⟩ : Entry α).item ≠ 0 from hne)
  · -- the new node is the only new name
    rw [hlist, List.perm_middle.nodup_iff, hold]
    exact List.nodup_cons.2 ⟨hx, h.nodup⟩
  · rw [ht.alloc]
    rw [hlist, List.perm_middle.mem_iff, hold, List.mem_cons] at ha
    rcases ha with rfl | ha
    · exact hxa
    · exact h.alloc a ha
  · -- a deleted node is never a `preds[j]`, nor the new node
    have hdx : d ≠ x := fun hdx => hx (by simp [← hdx, hd])
    intro i hi
    rw [ht.node_level] at hi
    simp only [Skiplist.getNext]
    rw [hsame d i hdx fun hj => h.not_mem_dead (hj.2 ▸ predAt_mem_nodes cmp s E itm i) hd]
    exact h.dead d hd i hi

end Around

/-! ## §4 — `Insert3` -/

section Insert3

variable {cmp : α → α → Int} {s : Skiplist α} {E : List (Entry α)} {D : List Nat}

@[simp] theorem levelNodes_zero (E : List (Entry α)) : levelNodes 0 E = E.map Entry.node := by
  simp [levelNodes]

/-- `preds[0]`'s item: that of the last entry below the item, or the head's nil. -/
theorem Inv.itm_predAt_zero (h : Inv cmp s E D) (itm : α) :
    (s.heap (predAt cmp s E itm 0)).itm = (entriesBelow cmp itm E).getLast?.map Entry.item := by
  have hA : ∀ a ∈ entriesBelow cmp itm E, a ∈ E := fun a ha => (List.takeWhile_sublist _).subset ha
  unfold predAt
  rw [levelNodes_zero]
  generalize entriesBelow cmp itm E = A at hA ⊢
  rcases List.eq_nil_or_concat A with rfl | ⟨A, a, rfl⟩
  · simp [h.head_itm]
  · simp [(h.entry a (hA a (by simp))).1]

/-- A round of `fixThisLevel` whose node already links to `succs[i]`, with `preds[i]` still
linked there: the swap succeeds and the next level follows. -/
theorem fixLevelRound_link {t : Skiplist α} {x i p c : Nat} {buf : ActionBuffer}
    (hx : t.getNext x i = ⟨some c, false⟩) (hs : buf.succs i = some c) (hp : buf.preds i = some p)
    (hpn : t.getNext p i = ⟨some c, false⟩) :
    Skiplist.fixLevelRound x buf (t, i) = .ok (.next (t.setRef p i ⟨some x, false⟩, i + 1)) := by
  simp [Skiplist.fixLevelRound, hx, hs, hp, hpn, Skiplist.dcasNext, deref, bind, Except.bind, pure,
    Except.pure]

variable {itm : α} {x lvl : Nat} {buf : ActionBuffer}

/-- Once `x`'s own links are set, `preds[0]` still links to `succs[0]`: the swap at level 0
succeeds. -/
theorem dcasNext_predAt_zero (h : Inv cmp s E D) (hpx : ∀ j, predAt cmp s E itm j ≠ x)
    (hs0 : buf.succs 0 = some (succAt cmp s E itm 0)) (l : Nat) :
    (s.setNextLevels x buf l).dcasNext (predAt cmp s E itm 0) 0 (buf.succs 0) (some x) false =
      ((s.setNextLevels x buf l).relink (predAt cmp s E itm) (fun _ => x) [0], true) := by
  have hg : (s.setNextLevels x buf l).getNext (predAt cmp s E itm 0) 0 = ⟨buf.succs 0, false⟩ := by
    rw [Skiplist.getNext, Skiplist.next_setNextLevels, if_neg fun h => hpx 0 h.1,
      h.next_predAt itm (Nat.zero_le _), hs0]
  simp [Skiplist.dcasNext, hg, Skiplist.relink]

/-- **The `fixThisLevel` loop**: at each level above 0, `x` already links to `succs[i]` and
`preds[i]` still does, so every swap succeeds and `x` is linked at each of its levels. -/
theorem countLoop_fixLevelRound (h : Inv cmp s E D) (hpx : ∀ j, predAt cmp s E itm j ≠ x)
    (hbuf : ∀ j ≤ lvl, buf.preds j = some (predAt cmp s E itm j) ∧
      buf.succs j = some (succAt cmp s E itm j))
    (hmax : lvl ≤ maxLevel) :
    GoLoop.countLoop (Skiplist.fixLevelRound x buf) lvl
        ((s.setNextLevels x buf lvl).relink (predAt cmp s E itm) (fun _ => x) [0], 1) =
      .ok (.inl ((s.setNextLevels x buf lvl).relink (predAt cmp s E itm) (fun _ => x)
        (List.range (lvl + 1)), lvl + 1)) := by
  -- round `k` starts with `preds[j]` linked to `x` at the levels `j ≤ k`
  have hround : ∀ k < lvl, Skiplist.fixLevelRound x buf
      ((s.setNextLevels x buf lvl).relink (predAt cmp s E itm) (fun _ => x) (List.range (k + 1)),
        k + 1) =
      .ok (.next ((s.setNextLevels x buf lvl).relink (predAt cmp s E itm) (fun _ => x)
        (List.range (k + 1 + 1)), k + 1 + 1)) := by
    intro k hk
    obtain ⟨hpk, hsk⟩ := hbuf (k + 1) hk
    rw [fixLevelRound_link (c := succAt cmp s E itm (k + 1)) ?_ hsk hpk ?_,
      List.range_succ (n := k + 1), Skiplist.relink_append_singleton]
    · rw [Skiplist.getNext, Skiplist.next_relink, if_neg fun h => hpx _ h.2.symm,
        Skiplist.next_setNextLevels, if_pos ⟨rfl, hk⟩, hsk]
    · rw [Skiplist.getNext, Skiplist.next_relink, if_neg (by simp),
        Skiplist.next_setNextLevels, if_neg fun h => hpx _ h.1, h.next_predAt itm (by omega)]
  exact GoLoop.countLoop_of_next (g := fun k => ((s.setNextLevels x buf lvl).relink
    (predAt cmp s E itm) (fun _ => x) (List.range (k + 1)), k + 1)) hround

variable (hc : CmpLaws cmp)

include hc in
/-- **`x` linked by `Insert3` at each of its levels**, from the links `findPath` left in `buf`,
joins the entries after those below its item. -/
theorem Inv.insertNode (h : Inv cmp s E D) (hx : x ∉ s.head :: s.tail :: E.map Entry.node ++ D)
    (hxa : x < s.alloc) (hxnode : s.heap x = ⟨some itm, lvl, fun _ => ⟨none, false⟩⟩)
    (hlvl : lvl ≤ s.level) (hne : ∀ f ∈ E, cmp f.item itm ≠ 0)
    (hbuf : ∀ j ≤ lvl, buf.succs j = some (succAt cmp s E itm j)) :
    Inv cmp ((s.setNextLevels x buf lvl).relink (predAt cmp s E itm) (fun _ => x)
      (List.range (lvl + 1))) (entriesBelow cmp itm E ++ ⟨x, itm, lvl⟩ :: entriesFrom cmp itm E) D := by
  have hpx : ∀ j, predAt cmp s E itm j ≠ x := fun j hj =>
    hx (hj ▸ mem_names_of_mem_nodes (predAt_mem_nodes cmp s E itm j))
  refine Inv.link hc h ((Skiplist.linksOnly_setNextLevels s _ buf lvl).trans
    (Skiplist.linksOnly_relink _ _)) hx hxa (by rw [hxnode]) (by rw [hxnode]) hlvl hne
    (fun j hj => ?_) (fun j hj => ?_) (fun m j hm hmj => ?_)
  · rw [Skiplist.next_relink, if_pos ⟨List.mem_range.2 (by omega), rfl⟩]
  · rw [Skiplist.next_relink, if_neg fun h => hpx j h.2.symm, Skiplist.next_setNextLevels,
      if_pos ⟨rfl, hj⟩, hbuf j hj]
  · rw [Skiplist.next_relink, if_neg fun h => hmj ⟨by simpa [Nat.lt_succ_iff] using h.1, h.2⟩,
      Skiplist.next_setNextLevels, if_neg fun h => hm h.1]

include hc in
/-- **What `findPath` finds** is the node of the entry equal to the item. -/
theorem Inv.found (h : Inv cmp s E D) (itm : α) :
    (if compareItems cmp (s.heap (succAt cmp s E itm 0)).itm (some itm) = 0
      then some (succAt cmp s E itm 0) else none) =
      (E.find? fun e => cmp e.item itm == 0).map Entry.node := by
  rw [find?_compare_eq hc h.sorted]
  have hF : ∀ f ∈ entriesFrom cmp itm E, f ∈ E := fun f hf => (List.dropWhile_sublist _).subset hf
  unfold succAt
  rw [levelNodes_zero]
  generalize entriesFrom cmp itm E = F at hF ⊢
  cases F with
  | nil => simp [h.tail_itm, compareItems]
  | cons f rest =>
    simp only [List.map_cons, List.headD_cons, h.items.compare_entry (hF f List.mem_cons_self)]
    by_cases h0 : cmp f.item itm = 0 <;> simp [h0, Option.filter]

include hc in
/-- **`Insert3` at a level up to `level`** replies and changes the skiplist as `Contents.insert`
says: the new node when the item is new, nil when it is there already, and no swap fails. -/
theorem insert3_ok {c : Contents α} (h : Holds cmp s c) {lvl : Nat} (hlvl : lvl ≤ c.level)
    (itm : α) (eqCmp : Option (α → α → Int)) (buf : ActionBuffer) (sts : Stats) :
    ∃ x s' buf' sts', s.insert3 itm cmp eqCmp buf lvl sts = .ok (x, s', buf', sts') ∧
      (c.insert cmp itm eqCmp lvl).1 = .node x ∧ Holds cmp s' (c.insert cmp itm eqCmp lvl).2 := by
  obtain ⟨hinv, halloc, hlevel⟩ := h
  -- the new node, then `findPath` to its item
  obtain ⟨s1, hs1⟩ : ∃ s1, (s.newNode (some itm) lvl).2 = s1 := ⟨_, rfl⟩
  have h1 : Inv cmp s1 c.entries c.dead := hs1 ▸ hinv.newNode (some itm) lvl
  obtain ⟨buf1, hfind, hbuf⟩ := @findPath_ok α cmp _ c.entries itm c.dead
    (fun _ _ _ => hc.lt_trans) h1 buf sts
  rw [h1.found hc itm] at hfind
  have hp0 : buf1.preds 0 = some (predAt cmp s1 c.entries itm 0) := (hbuf 0 (Nat.zero_le _)).1
  have hitm0 := h1.itm_predAt_zero itm
  by_cases hdup : Contents.duplicate cmp eqCmp c.entries itm = true
  · -- the item is there already: the node is dropped
    have hcont : (c.insert cmp itm eqCmp lvl).2 = { c with alloc := c.alloc + 1 } := by
      simp [Contents.insert, hdup]
    refine ⟨none, s1, buf1, sts, ?_, by simp [Contents.insert, hdup],
      hcont ▸ ⟨h1, by simp [← hs1, halloc], by simp [← hs1, hlevel]⟩⟩
    cases hfd : c.entries.find? (fun e => cmp e.item itm == 0) with
    | some e => simp [Skiplist.insert3, hs1, hfind, hfd, bind, Except.bind, pure, Except.pure]
    | none =>
      -- no entry is equal, so `eqCmp` finds the item equal to `preds[0]`'s
      have hany : (c.entries.any fun e => cmp e.item itm == 0) = false := by
        rw [← List.isSome_find?, hfd, Option.isSome_none]
      simp only [Contents.duplicate, hany, Bool.false_or] at hdup
      obtain ⟨eq, rfl, heq⟩ : ∃ eq, eqCmp = some eq ∧
          compareItems eq (some itm) ((entriesBelow cmp itm c.entries).getLast?.map Entry.item) = 0 := by
        cases eqCmp with
        | none => simp at hdup
        | some eq => exact ⟨eq, rfl, by simpa using hdup⟩
      simp [Skiplist.insert3, hs1, hfind, hfd, bind, Except.bind, pure, Except.pure, hp0, deref,
        hitm0, heq]
  · -- a new item: the node is linked in at each of its levels
    simp only [Contents.duplicate, Bool.or_eq_true, not_or, Bool.not_eq_true] at hdup
    obtain ⟨hany, heqc⟩ := hdup
    have hfd : c.entries.find? (fun e => cmp e.item itm == 0) = none := by
      rw [← Option.not_isSome_iff_eq_none, List.isSome_find?, hany]
      simp
    have hne : ∀ f ∈ c.entries, cmp f.item itm ≠ 0 := fun f hf h0 => by
      have := List.any_eq_false.1 hany f hf
      simp [h0] at this
    -- the new node is none of the nodes the representation names
    have hhead : s1.head = s.head := by rw [← hs1]; rfl
    have htail : s1.tail = s.tail := by rw [← hs1]; rfl
    have hxnot : s.alloc ∉ s1.head :: s1.tail :: c.entries.map Entry.node ++ c.dead := fun hm =>
      Nat.lt_irrefl _ (hinv.alloc _ (by rwa [hhead, htail] at hm))
    have hpx : ∀ j, predAt cmp s1 c.entries itm j ≠ s.alloc := fun j hj =>
      hxnot (hj ▸ mem_names_of_mem_nodes (predAt_mem_nodes cmp s1 c.entries itm j))
    have hlev1 : s1.level = s.level := by rw [← hs1]; rfl
    have hlvl' : lvl ≤ s1.level := by omega
    have hbufj : ∀ j ≤ lvl, buf1.preds j = some (predAt cmp s1 c.entries itm j) ∧
        buf1.succs j = some (succAt cmp s1 c.entries itm j) := fun j hj => hbuf j (by omega)
    have hmax : lvl ≤ maxLevel := by have := hinv.level_le; omega
    have hrun : s.insert3 itm cmp eqCmp buf lvl sts =
        .ok (some s.alloc, (s1.setNextLevels s.alloc buf1 lvl).relink (predAt cmp s1 c.entries itm)
          (fun _ => s.alloc) (List.range (lvl + 1)), buf1, sts.add lvl 1) := by
      have hdcas0 := dcasNext_predAt_zero h1 hpx (hbufj 0 (Nat.zero_le _)).2 lvl
      have hloop := countLoop_fixLevelRound h1 hpx hbufj hmax
      cases eqCmp with
      | none =>
        simp [Skiplist.insert3, hs1, hfind, hfd, bind, Except.bind, pure, Except.pure, hp0, deref,
          hdcas0, hloop]
      | some eq =>
        have heq : ¬ compareItems eq (some itm) (s1.heap (predAt cmp s1 c.entries itm 0)).itm = 0 := by
          rw [hitm0]
          simpa using heqc
        simp [Skiplist.insert3, hs1, hfind, hfd, bind, Except.bind, pure, Except.pure, hp0, deref,
          hdcas0, hloop, heq]
    have hnode : s1.heap s.alloc = ⟨some itm, lvl, fun _ => ⟨none, false⟩⟩ := by
      rw [← hs1, Skiplist.heap_newNode, if_pos rfl]
    have hlink := h1.insertNode hc hxnot (by rw [← hs1]; exact Nat.lt_succ_self _) hnode hlvl' hne
      fun j hj => (hbufj j hj).2
    have ht : s1.LinksOnly ((s1.setNextLevels s.alloc buf1 lvl).relink (predAt cmp s1 c.entries itm)
        (fun _ => s.alloc) (List.range (lvl + 1))) :=
      (Skiplist.linksOnly_setNextLevels s1 _ buf1 lvl).trans (Skiplist.linksOnly_relink _ _)
    have hcont : (c.insert cmp itm eqCmp lvl).2 = { c with
        entries := entriesBelow cmp itm c.entries ++ ⟨c.alloc, itm, lvl⟩ :: entriesFrom cmp itm c.entries
        alloc := c.alloc + 1 } := by
      simp [Contents.insert, Contents.duplicate, hany, heqc]
    refine ⟨some s.alloc, _, buf1, sts.add lvl 1, hrun, ?_, hcont ▸ ⟨halloc ▸ hlink, ?_, ?_⟩⟩
    · simp [Contents.insert, Contents.duplicate, hany, heqc, halloc]
    · rw [ht.alloc, ← hs1, ← halloc]
      rfl
    · rw [ht.level, hlev1, hlevel]

end Insert3

/-! ## §5 — `NewLevel` and `Insert2` -/

section NewLevel

variable {cmp : α → α → Int} {s : Skiplist α} {E : List (Entry α)} {D : List Nat}

/-- The list's level raised by one, below `MaxLevel`, leaves the representation as it is. -/
theorem Inv.raise (h : Inv cmp s E D) (hlt : s.level < maxLevel) :
    Inv cmp { s with level := s.level + 1 } E D :=
  ⟨h.levels, h.head_itm, h.tail_itm, h.entry, fun e he => Nat.le_succ_of_le (h.level e he), hlt,
    h.sorted, h.nodup, h.alloc, h.dead⟩

/-- The level `NewLevel` draws is at most the list's level after it. -/
theorem Contents.newLevel_le (c : Contents α) (draws : Nat) :
    (c.newLevel draws).1 ≤ (c.newLevel draws).2.level := by
  unfold Contents.newLevel
  split_ifs with hgt
  · exact Nat.le_refl _
  · simp only
    omega

/-- **`NewLevel`** draws the level the contents say and keeps the representation. -/
theorem newLevel_holds {c : Contents α} (h : Holds cmp s c) (draws : Nat) :
    (s.newLevel draws).1 = (c.newLevel draws).1 ∧
      Holds cmp (s.newLevel draws).2 (c.newLevel draws).2 := by
  have hsl := h.level
  by_cases hgt : c.level < min draws maxLevel
  · -- the list's level goes up by one, which stays within `MaxLevel`
    have hlt : s.level < maxLevel := by omega
    have hs : s.newLevel draws = (s.level + 1, { s with level := s.level + 1 }) := by
      simp [Skiplist.newLevel, hsl, hgt]
    have hcn : c.newLevel draws = (c.level + 1, { c with level := c.level + 1 }) := by
      simp [Contents.newLevel, hgt]
    rw [hs, hcn]
    exact ⟨by rw [hsl], h.inv.raise hlt, h.alloc, by simp [hsl]⟩
  · have hs : s.newLevel draws = (min draws maxLevel, s) := by
      simp [Skiplist.newLevel, hsl, hgt]
    have hcn : c.newLevel draws = (min draws maxLevel, c) := by
      simp [Contents.newLevel, hgt]
    rw [hs, hcn]
    exact ⟨rfl, h⟩

variable (hc : CmpLaws cmp)

include hc in
/-- **`Insert2`**: `NewLevel`, then `Insert3` at the level it draws. -/
theorem insert2_ok {c : Contents α} (h : Holds cmp s c) (itm : α) (eqCmp : Option (α → α → Int))
    (buf : ActionBuffer) (draws : Nat) (sts : Stats) :
    ∃ x s' buf' sts', s.insert2 itm cmp eqCmp buf draws sts = .ok (x, s', buf', sts') ∧
      (c.step cmp (.insert2 itm eqCmp draws)).1 = .node x ∧
      Holds cmp s' (c.step cmp (.insert2 itm eqCmp draws)).2 := by
  obtain ⟨hlvl, hnew⟩ := newLevel_holds h draws
  obtain ⟨x, s', buf', sts', hrun, hrep, hholds⟩ :=
    insert3_ok hc hnew (Contents.newLevel_le c draws) itm eqCmp buf sts
  have hins2 : s.insert2 itm cmp eqCmp buf draws sts =
      (s.newLevel draws).2.insert3 itm cmp eqCmp buf (s.newLevel draws).1 sts := rfl
  refine ⟨x, s', buf', sts', ?_, hrep, hholds⟩
  rw [hins2, hlvl]
  exact hrun

end NewLevel

end Memdb.Store
