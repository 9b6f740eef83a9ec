import GsiIndexing.Memdb.SkiplistPaths
import GsiIndexing.Lib.Simulation
import Mathlib.Data.List.Perm.Subperm

/-!
# The skiplist's levels hold one sorted list of entries

The representation (`Inv`) of a list of entries `E`, sorted by the comparison: at every level
`i` up to `MaxLevel`, the head, the nodes of the entries of level `i` or above in the order of
`E`, and the tail (`LevelOk`); the head and the tail hold no item; every entry's node holds
its item and level, at most the skiplist's `level`, itself at most `MaxLevel`; the nodes
handed out and deleted since are marked at each of their levels.

`findPath` descends from `level` to 0 and, at each level, stops between the entries below the
item and the others (`findPath_ok`). A node linked in or unlinked at one level leaves it
holding the entries with or without it (`LevelOk.link`, `LevelOk.unlink`).

The calls are proved on this representation in `SkiplistInsert` (`Insert3`, `NewLevel`),
`SkiplistDelete` (`softDelete`, `DeleteNode`, `Delete`) and `SkiplistRefines` (every sequence
of calls from `New`).
-/

namespace Memdb.Store

variable {α : Type}

/-! ## §1 — lists of entries -/

section Entries

variable (cmp : α → α → Int)

/-- The entries that compare below `itm`: those `findPath` passes. -/
def entriesBelow (itm : α) (E : List (Entry α)) : List (Entry α) :=
  E.takeWhile fun e => cmp e.item itm < 0

/-- The entries from the first that does not compare below `itm`. -/
def entriesFrom (itm : α) (E : List (Entry α)) : List (Entry α) :=
  E.dropWhile fun e => cmp e.item itm < 0

variable {cmp}

theorem entriesBelow_append_entriesFrom (itm : α) (E : List (Entry α)) :
    entriesBelow cmp itm E ++ entriesFrom cmp itm E = E :=
  List.takeWhile_append_dropWhile

theorem lt_of_mem_entriesBelow {itm : α} {E : List (Entry α)} {e : Entry α}
    (he : e ∈ entriesBelow cmp itm E) : cmp e.item itm < 0 := by
  simpa using List.mem_takeWhile_imp he

theorem levelNodes_append (i : Nat) (A B : List (Entry α)) :
    levelNodes i (A ++ B) = levelNodes i A ++ levelNodes i B := by
  simp [levelNodes]

theorem mem_levelNodes {i a : Nat} {E : List (Entry α)} :
    a ∈ levelNodes i E ↔ ∃ e ∈ E, i ≤ e.level ∧ e.node = a := by
  simp [levelNodes, and_assoc]

/-- The nodes of a level are among those of the level below. -/
theorem levelNodes_sublist (i : Nat) (E : List (Entry α)) :
    (levelNodes (i + 1) E).Sublist (levelNodes i E) := by
  refine List.Sublist.map _ (List.monotone_filter_right _ fun e h => ?_)
  simp only [decide_eq_true_eq] at h ⊢
  omega

theorem levelNodes_sublist_map (i : Nat) (E : List (Entry α)) :
    (levelNodes i E).Sublist (E.map Entry.node) :=
  List.filter_sublist.map _

variable (htrans : ∀ a b c, cmp a b < 0 → cmp b c < 0 → cmp a c < 0)

include htrans in
/-- On a sorted list no entry from the first one not below the item is below it. -/
theorem not_lt_of_mem_entriesFrom {itm : α} {E : List (Entry α)}
    (hs : E.Pairwise fun a b => cmp a.item b.item < 0) {e : Entry α}
    (he : e ∈ entriesFrom cmp itm E) : ¬ cmp e.item itm < 0 := by
  have hd : (entriesFrom cmp itm E).Pairwise fun a b => cmp a.item b.item < 0 :=
    hs.sublist (List.dropWhile_sublist _)
  generalize hF : entriesFrom cmp itm E = F at hd he
  cases F with
  | nil => simp at he
  | cons f rest =>
    -- the first entry is not below the item, and every later one is above the first
    have hf : ¬ cmp f.item itm < 0 := by
      have hne : entriesFrom cmp itm E ≠ [] := by simp [hF]
      have := List.head_dropWhile_not (fun e : Entry α => decide (cmp e.item itm < 0)) hne
      simp only [entriesFrom] at hF
      simpa [hF] using this
    rcases List.mem_cons.1 he with rfl | he
    · exact hf
    · exact fun hlt => hf (htrans _ _ _ (List.rel_of_pairwise_cons hd he) hlt)

end Entries

/-! ## §2 — the representation -/

/-- **The representation** of the sorted entries `E`, with the nodes `D` handed out and
deleted since. -/
structure Inv (cmp : α → α → Int) (s : Skiplist α) (E : List (Entry α)) (D : List Nat) :
    Prop where
  levels : ∀ i ≤ maxLevel, LevelOk s i E
  head_itm : (s.heap s.head).itm = none
  tail_itm : (s.heap s.tail).itm = none
  entry : ∀ e ∈ E, (s.heap e.node).itm = some e.item ∧ (s.heap e.node).level = e.level
  level : ∀ e ∈ E, e.level ≤ s.level
  level_le : s.level ≤ maxLevel
  sorted : E.Pairwise fun a b => cmp a.item b.item < 0
  nodup : (s.head :: s.tail :: E.map Entry.node ++ D).Nodup
  alloc : ∀ a ∈ s.head :: s.tail :: E.map Entry.node ++ D, a < s.alloc
  dead : ∀ d ∈ D, ∀ i ≤ (s.heap d).level, (s.getNext d i).deleted = true

/-- What `findPath` reads of a skiplist besides the links of one level: the items of the tail
and of the entries, and their order. -/
structure Items (cmp : α → α → Int) (s : Skiplist α) (E : List (Entry α)) : Prop where
  tail_itm : (s.heap s.tail).itm = none
  entry_itm : ∀ e ∈ E, (s.heap e.node).itm = some e.item
  sorted : E.Pairwise fun a b => cmp a.item b.item < 0

section Inv

variable {cmp : α → α → Int} {s : Skiplist α} {E : List (Entry α)} {D : List Nat}

theorem Inv.items (h : Inv cmp s E D) : Items cmp s E :=
  ⟨h.tail_itm, fun e he => (h.entry e he).1, h.sorted⟩

theorem Items.compare_entry (h : Items cmp s E) {e : Entry α} (he : e ∈ E) (itm : α) :
    compareItems cmp (s.heap e.node).itm (some itm) = cmp e.item itm := by
  rw [h.entry_itm e he]
  rfl

/-- Fewer entries than allocated nodes: their nodes, the head and the tail are distinct. -/
theorem Inv.length_lt (h : Inv cmp s E D) : E.length < s.alloc := by
  have hsub : s.head :: s.tail :: E.map Entry.node ++ D ⊆ List.range s.alloc := fun a ha =>
    List.mem_range.2 (h.alloc a ha)
  have hle := (h.nodup.subperm hsub).length_le
  simp only [List.length_cons, List.length_append, List.length_map, List.length_range] at hle
  omega

/-- No link of a level is deleted. -/
theorem LevelOk.deleted_false {i : Nat} (h : LevelOk s i E) :
    ∀ a ∈ s.head :: levelNodes i E ++ [s.tail], (s.getNext a i).deleted = false := by
  obtain ⟨hpath, htail⟩ := h
  generalize s.head :: levelNodes i E = l at hpath
  induction l with
  | nil =>
    intro a ha
    simp only [List.nil_append, List.mem_singleton] at ha
    subst ha
    simp [Skiplist.getNext, htail]
  | cons b l ih =>
    intro a ha
    rcases List.mem_cons.1 ha with rfl | ha
    · cases l with
      | nil => simp [Skiplist.getNext, path_pair.1 hpath]
      | cons c l => simp [Skiplist.getNext, hpath.1]
    · exact ih hpath.of_cons a ha

end Inv

/-! ## §3 — `findPath`

At each level the walk starts from the predecessor found at the level above, which is a node
of this level too, or the head; it passes the rest of the entries below the item and stops at
the first entry not below it, or the tail. -/

section FindPath

variable (cmp : α → α → Int) (s : Skiplist α) (E : List (Entry α)) (itm : α)

/-- `preds[i]` after `findPath`: the last node of level `i` below the item, or the head. -/
def predAt (i : Nat) : Nat := (levelNodes i (entriesBelow cmp itm E)).getLastD s.head

/-- `succs[i]` after `findPath`: the first node of level `i` not below the item, or the tail. -/
def succAt (i : Nat) : Nat := (levelNodes i (entriesFrom cmp itm E)).headD s.tail

variable {cmp s E itm} {D : List Nat}

variable (htrans : ∀ a b c, cmp a b < 0 → cmp b c < 0 → cmp a c < 0)

include htrans in
/-- No node from `succs[i]` on compares below the item. -/
theorem Items.not_lt_of_mem_from (h : Items cmp s E) {i a : Nat}
    (ha : a ∈ levelNodes i (entriesFrom cmp itm E) ++ [s.tail]) :
    ¬ compareItems cmp (s.heap a).itm (some itm) < 0 := by
  rcases List.mem_append.1 ha with ha | ha
  · obtain ⟨e, he, -, rfl⟩ := mem_levelNodes.1 ha
    have heE : e ∈ E := (List.dropWhile_sublist _).subset he
    rw [h.compare_entry heE]
    exact not_lt_of_mem_entriesFrom htrans h.sorted he
  · rw [List.mem_singleton.1 ha, h.tail_itm]
    simp [compareItems]

include htrans in
/-- **One level of `findPath`**, from a node of the level below the item or the head: it stops
between `preds[i]` and `succs[i]` and writes nothing. -/
theorem searchLevel_ok (h : Items cmp s E) {i : Nat} (hlevel : LevelOk s i E) {p : Nat}
    (hp : p ∈ s.head :: levelNodes i (entriesBelow cmp itm E)) {fuel : Nat}
    (hfuel : E.length < fuel) (sts : Stats) (buf : ActionBuffer) (v : Int) :
    Skiplist.searchLevel cmp (some itm) fuel i (s, sts, buf, p, v) =
      .ok (s, sts, buf.set i (predAt cmp s E itm i) (succAt cmp s E itm i), predAt cmp s E itm i,
        compareItems cmp (s.heap (succAt cmp s E itm i)).itm (some itm)) := by
  -- the level: the head, the entries below the item, `succs[i]` and the rest
  have hsplit : levelNodes i E =
      levelNodes i (entriesBelow cmp itm E) ++ levelNodes i (entriesFrom cmp itm E) := by
    rw [← levelNodes_append, entriesBelow_append_entriesFrom]
  obtain ⟨R, hR⟩ := exists_cons_headD (levelNodes i (entriesFrom cmp itm E)) s.tail
  have hchain : s.head :: levelNodes i E ++ [s.tail] =
      (s.head :: levelNodes i (entriesBelow cmp itm E) ++ [succAt cmp s E itm i]) ++ R := by
    rw [hsplit]
    simp [hR, succAt]
  have hpath : Path s.heap i
      (s.head :: levelNodes i (entriesBelow cmp itm E) ++ [succAt cmp s E itm i]) :=
    (hchain ▸ hlevel.1).append_left
  have hc : succAt cmp s E itm i ∈ levelNodes i (entriesFrom cmp itm E) ++ [s.tail] := by
    rw [hR]
    exact List.mem_cons_self
  have hcmem : succAt cmp s E itm i ∈ s.head :: levelNodes i E ++ [s.tail] := by
    rw [hchain]
    simp
  -- the nodes passed are those of the entries below the item
  have hP : ∀ y ∈ levelNodes i (entriesBelow cmp itm E),
      compareItems cmp (s.heap y).itm (some itm) < 0 := by
    intro y hy
    obtain ⟨e, he, -, rfl⟩ := mem_levelNodes.1 hy
    rw [h.compare_entry ((List.takeWhile_sublist _).subset he)]
    exact lt_of_mem_entriesBelow he
  have hlen : (levelNodes i (entriesBelow cmp itm E)).length ≤ E.length :=
    (((levelNodes_sublist_map i _).trans ((List.takeWhile_sublist _).map _)).length_le).trans
      (by simp)
  exact Skiplist.searchLevel_pass cmp (some itm) hpath (hlevel.deleted_false _ hcmem)
    (h.not_lt_of_mem_from htrans hc) hP hp (by omega) buf v

/-- `preds[i+1]` is a node of level `i` below the item, or the head. -/
theorem predAt_mem (i : Nat) :
    predAt cmp s E itm (i + 1) ∈ s.head :: levelNodes i (entriesBelow cmp itm E) :=
  (List.cons_sublist_cons.2 (levelNodes_sublist i _)).subset (getLastD_mem_cons _ _)

include htrans in
/-- **The descent** from level `k` to 0: `preds` and `succs` at each level, and nothing
written. -/
theorem searchLevels_ok (h : Items cmp s E) (hlevels : ∀ i ≤ maxLevel, LevelOk s i E) {fuel : Nat}
    (hfuel : E.length < fuel) :
    ∀ (k : Nat), k ≤ maxLevel → ∀ p ∈ s.head :: levelNodes k (entriesBelow cmp itm E),
      ∀ (sts : Stats) (buf : ActionBuffer) (v : Int), ∃ buf',
        Skiplist.searchLevels cmp (some itm) fuel k (s, sts, buf, p, v) =
          .ok (s, sts, buf', predAt cmp s E itm 0,
            compareItems cmp (s.heap (succAt cmp s E itm 0)).itm (some itm)) ∧
        (∀ j ≤ k, buf'.preds j = some (predAt cmp s E itm j) ∧
          buf'.succs j = some (succAt cmp s E itm j)) ∧
        ∀ j, k < j → buf'.preds j = buf.preds j ∧ buf'.succs j = buf.succs j
  | 0, hk, p, hp, sts, buf, v => by
    refine ⟨_, searchLevel_ok htrans h (hlevels 0 hk) hp hfuel sts buf v, fun j hj => ?_,
      fun j hj => ?_⟩
    · obtain rfl : j = 0 := by omega
      simp [ActionBuffer.set]
    · have hj0 : j ≠ 0 := by omega
      simp [ActionBuffer.set, Function.update_of_ne hj0]
  | k + 1, hk, p, hp, sts, buf, v => by
    obtain ⟨buf', hrun, hlow, hhigh⟩ := searchLevels_ok h hlevels hfuel k (by omega) _ (predAt_mem k) sts
      (buf.set (k + 1) (predAt cmp s E itm (k + 1)) (succAt cmp s E itm (k + 1)))
      (compareItems cmp (s.heap (succAt cmp s E itm (k + 1))).itm (some itm))
    refine ⟨buf', ?_, fun j hj => ?_, fun j hj => ?_⟩
    · simp only [Skiplist.searchLevels, searchLevel_ok htrans h (hlevels _ hk) hp hfuel, bind,
        Except.bind, hrun]
    · -- level `k + 1` was set before the levels below, which leave it alone
      rcases Nat.lt_or_eq_of_le hj with hj | rfl
      · exact hlow j (by omega)
      · rw [(hhigh (k + 1) (Nat.lt_succ_self k)).1, (hhigh (k + 1) (Nat.lt_succ_self k)).2]
        simp [ActionBuffer.set]
    · have hjk : j ≠ k + 1 := by omega
      rw [(hhigh j (by omega)).1, (hhigh j (by omega)).2]
      simp [ActionBuffer.set, Function.update_of_ne hjk]

include htrans in
/-- **`findPath` on the representation**: `foundNode` is `succs[0]` when it compares equal to
the item, each level's `preds` and `succs` surround it, and nothing is written. -/
theorem findPath_ok (h : Inv cmp s E D) (buf : ActionBuffer) (sts : Stats) :
    ∃ buf', s.findPath (some itm) cmp buf sts =
        .ok (if compareItems cmp (s.heap (succAt cmp s E itm 0)).itm (some itm) = 0
          then some (succAt cmp s E itm 0) else none, s, buf', sts) ∧
      ∀ j ≤ s.level, buf'.preds j = some (predAt cmp s E itm j) ∧
        buf'.succs j = some (succAt cmp s E itm j) := by
  obtain ⟨buf', hrun, hlow, -⟩ := searchLevels_ok htrans h.items h.levels (Nat.lt_succ_of_lt h.length_lt)
    s.level h.level_le s.head List.mem_cons_self sts buf 1
  refine ⟨buf', ?_, hlow⟩
  simp only [Skiplist.findPath, hrun, bind, Except.bind, pure, Except.pure, (hlow 0 (Nat.zero_le _)).2]

end FindPath

/-! ## §4 — one level linked, unlinked or left alone -/

section Level

variable {s s' : Skiplist α} {i : Nat}

/-- **The frame lemma of a level**: its links are those of another skiplist. -/
theorem LevelOk.frame {E : List (Entry α)} (h : LevelOk s i E) (hhead : s'.head = s.head)
    (htail : s'.tail = s.tail)
    (hsame : ∀ a ∈ s.head :: levelNodes i E ++ [s.tail], (s'.heap a).next i = (s.heap a).next i) :
    LevelOk s' i E := by
  refine ⟨by rw [hhead, htail]; exact h.1.congr hsame, ?_⟩
  rw [htail, hsame s.tail (by simp)]
  exact h.2

/-- **A node linked in at one level**: between the last node of `A` at that level (or the
head) and the first of `B` (or the tail). -/
theorem LevelOk.link {A B : List (Entry α)} {xe : Entry α} (h : LevelOk s i (A ++ B))
    (hnd : (s.head :: levelNodes i (A ++ B) ++ [s.tail]).Nodup)
    (hx : xe.node ∉ s.head :: levelNodes i (A ++ B) ++ [s.tail]) (hlev : i ≤ xe.level)
    (hhead : s'.head = s.head) (htail : s'.tail = s.tail)
    (hp : (s'.heap ((levelNodes i A).getLastD s.head)).next i = ⟨some xe.node, false⟩)
    (hxn : (s'.heap xe.node).next i = ⟨some ((levelNodes i B).headD s.tail), false⟩)
    (hsame : ∀ a, a ≠ (levelNodes i A).getLastD s.head → a ≠ xe.node →
      (s'.heap a).next i = (s.heap a).next i) :
    LevelOk s' i (A ++ xe :: B) := by
  obtain ⟨P, hP⟩ := exists_snoc_getLastD s.head (levelNodes i A)
  obtain ⟨R, hR⟩ := exists_cons_headD (levelNodes i B) s.tail
  have hold : s.head :: levelNodes i (A ++ B) ++ [s.tail] =
      P ++ (levelNodes i A).getLastD s.head :: (levelNodes i B).headD s.tail :: R := by
    calc s.head :: levelNodes i (A ++ B) ++ [s.tail]
        = (s.head :: levelNodes i A) ++ (levelNodes i B ++ [s.tail]) := by
          simp [levelNodes_append]
      _ = _ := by rw [hP, hR]; simp
  have hnew : s'.head :: levelNodes i (A ++ xe :: B) ++ [s'.tail] =
      P ++ (levelNodes i A).getLastD s.head :: xe.node :: (levelNodes i B).headD s.tail :: R := by
    have hxe : levelNodes i (xe :: B) = xe.node :: levelNodes i B := by simp [levelNodes, hlev]
    calc s'.head :: levelNodes i (A ++ xe :: B) ++ [s'.tail]
        = (s.head :: levelNodes i A) ++ xe.node :: (levelNodes i B ++ [s.tail]) := by
          simp [levelNodes_append, hxe, hhead, htail]
      _ = _ := by rw [hP, hR]; simp
  refine ⟨?_, ?_⟩
  · rw [hnew]
    rw [hold] at hnd hx
    refine Path.link (hold ▸ h.1) hnd hp hxn fun a ha hap => hsame a hap fun hax => hx (hax ▸ ha)
  · -- the tail is neither the node before nor the new node
    have hmem : s.tail ∈ s.head :: levelNodes i (A ++ B) ++ [s.tail] := by simp
    have htp : s.tail ≠ (levelNodes i A).getLastD s.head := by
      have hpm : (levelNodes i A).getLastD s.head ∈ s.head :: levelNodes i (A ++ B) := by
        rw [levelNodes_append, ← List.cons_append]
        exact List.mem_append_left _ (getLastD_mem_cons _ _)
      exact fun heq => (List.nodup_append.1 hnd).2.2 _ hpm _ (List.mem_singleton_self _) heq.symm
    rw [htail, hsame _ htp fun htx => hx (htx ▸ hmem)]
    exact h.2

/-- **A node unlinked at one level**: the last node of `A` at that level (or the head) links
to the first of `B` (or the tail), past the node of `xe`. -/
theorem LevelOk.unlink {A B : List (Entry α)} {xe : Entry α} (h : LevelOk s i (A ++ xe :: B))
    (hnd : (s.head :: levelNodes i (A ++ xe :: B) ++ [s.tail]).Nodup) (hlev : i ≤ xe.level)
    (hhead : s'.head = s.head) (htail : s'.tail = s.tail)
    (hp : (s'.heap ((levelNodes i A).getLastD s.head)).next i =
      ⟨some ((levelNodes i B).headD s.tail), false⟩)
    (hsame : ∀ a, a ≠ (levelNodes i A).getLastD s.head → a ≠ xe.node →
      (s'.heap a).next i = (s.heap a).next i) :
    LevelOk s' i (A ++ B) := by
  obtain ⟨P, hP⟩ := exists_snoc_getLastD s.head (levelNodes i A)
  obtain ⟨R, hR⟩ := exists_cons_headD (levelNodes i B) s.tail
  have hxe : levelNodes i (xe :: B) = xe.node :: levelNodes i B := by simp [levelNodes, hlev]
  have hold : s.head :: levelNodes i (A ++ xe :: B) ++ [s.tail] =
      P ++ (levelNodes i A).getLastD s.head :: xe.node :: (levelNodes i B).headD s.tail :: R := by
    calc s.head :: levelNodes i (A ++ xe :: B) ++ [s.tail]
        = (s.head :: levelNodes i A) ++ xe.node :: (levelNodes i B ++ [s.tail]) := by
          simp [levelNodes_append, hxe]
      _ = _ := by rw [hP, hR]; simp
  have hnew : s'.head :: levelNodes i (A ++ B) ++ [s'.tail] =
      P ++ (levelNodes i A).getLastD s.head :: (levelNodes i B).headD s.tail :: R := by
    calc s'.head :: levelNodes i (A ++ B) ++ [s'.tail]
        = (s.head :: levelNodes i A) ++ (levelNodes i B ++ [s.tail]) := by
          simp [levelNodes_append, hhead, htail]
      _ = _ := by rw [hP, hR]; simp
  have hpath : Path s.heap i (s.head :: levelNodes i (A ++ xe :: B) ++ [s.tail]) := h.1
  rw [hold] at hpath hnd
  set p := (levelNodes i A).getLastD s.head
  set c := (levelNodes i B).headD s.tail
  -- `xe`'s node is on the old level once; `p` is before `c` and the tail
  have hnd' : (xe.node :: (P ++ p :: c :: R)).Nodup := by
    have hperm : ((P ++ [p]) ++ xe.node :: c :: R).Perm (xe.node :: ((P ++ [p]) ++ c :: R)) :=
      List.perm_middle
    simp only [List.append_assoc, List.singleton_append] at hperm
    exact hperm.nodup_iff.1 hnd
  have hx : xe.node ∉ P ++ p :: c :: R := (List.nodup_cons.1 hnd').1
  have htR : s.tail ∈ c :: R := by
    rw [← hR]
    simp
  have hpR : p ∉ xe.node :: c :: R := (List.nodup_cons.1 (List.nodup_append.1 hnd).2.1).1
  have hl : Path s.heap i ((P ++ [p, xe.node]) ++ c :: R) := by simpa using hpath
  refine ⟨?_, ?_⟩
  · rw [hnew]
    exact Path.unlink hl.append_left hl.append_right (List.nodup_cons.1 hnd').2 hp
      fun a ha hap => hsame a hap fun hax => hx (hax ▸ ha)
  · have htp : s.tail ≠ p := fun heq => hpR (heq ▸ List.mem_cons_of_mem _ htR)
    have htm : s.tail ∈ P ++ p :: c :: R := List.mem_append_right _ (List.mem_cons_of_mem _ htR)
    rw [htail, hsame _ htp fun htx => hx (htx ▸ htm)]
    exact h.2

end Level

end Memdb.Store
