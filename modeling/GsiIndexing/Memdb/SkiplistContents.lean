import GsiIndexing.Memdb.SkiplistLevels

/-!
# What the skiplist holds, call by call

The skiplist stands for its contents (`Contents`): the entries in ascending order of the
comparison, the nodes handed out and deleted since, the next address `newNode` hands out,
and the list's `level`. `Contents.step` says what each call does to them:

* `Insert3` takes a new address; when an entry's item compares equal, or `eqCmp` finds the
  item equal to the entry before it, nothing else changes and it returns nil; otherwise the
  new entry goes after the entries below its item;
* `Insert2` first draws the level as `NewLevel` does, which raises `level` by at most one and
  never past `MaxLevel`;
* `Delete` removes the entry whose item compares equal, `DeleteNode` the entry of the node,
  and each returns whether there was one.

The comparison only needs to order the items (`CmpLaws`); items that compare equal may
differ. Under it an ordered list of entries has at most one entry equal to an item, the
first from `entriesFrom` (`find?_compare_eq`), and an insert keeps the list in order
(`sorted_insert`).
-/

namespace Memdb.Store

variable {α : Type}

/-! ## §1 — the order of the items -/

/-- The comparison orders the items: it changes sign with its arguments, and comparing at or
below zero is transitive. -/
structure CmpLaws (cmp : α → α → Int) : Prop where
  swap : ∀ a b, cmp b a = -cmp a b
  le_trans : ∀ a b c, cmp a b ≤ 0 → cmp b c ≤ 0 → cmp a c ≤ 0

section Laws

variable {cmp : α → α → Int}

theorem CmpLaws.self (hc : CmpLaws cmp) (a : α) : cmp a a = 0 := by
  have := hc.swap a a
  omega

theorem CmpLaws.lt_trans (hc : CmpLaws cmp) {a b c : α} (hab : cmp a b < 0) (hbc : cmp b c < 0) :
    cmp a c < 0 := by
  by_contra hac
  -- from `c` at or below `a` and `a` below `b`, `c` would be at or below `b`
  have hca : cmp c a ≤ 0 := by
    rw [hc.swap]
    omega
  have hcb := hc.le_trans c a b hca (Int.le_of_lt hab)
  have := hc.swap c b
  omega

/-- An item that is neither below nor equal to another is above it. -/
theorem CmpLaws.lt_of_not_lt (hc : CmpLaws cmp) {a b : α} (hlt : ¬ cmp a b < 0)
    (hne : cmp a b ≠ 0) : cmp b a < 0 := by
  rw [hc.swap]
  omega

/-- Below an item and equal to another, or the other way round, is below the other. -/
theorem CmpLaws.lt_of_lt_of_eq (hc : CmpLaws cmp) {a b c : α} (hab : cmp a b < 0)
    (hbc : cmp b c = 0) : cmp a c < 0 := by
  by_contra hac
  have hcb : cmp c b ≤ 0 := by
    rw [hc.swap]
    omega
  have hca : cmp c a ≤ 0 := by
    rw [hc.swap]
    omega
  have hba := hc.le_trans b c a (Int.le_of_eq hbc) hca
  have := hc.swap a b
  omega

end Laws

/-! ## §2 — an ordered list of entries -/

section Ordered

variable {cmp : α → α → Int} (hc : CmpLaws cmp)

/-- The entries in ascending order. -/
def Sorted (cmp : α → α → Int) (E : List (Entry α)) : Prop :=
  E.Pairwise fun a b => cmp a.item b.item < 0

/-- Entries below the item in front: the walk passes them. -/
theorem entriesBelow_append {itm : α} {A : List (Entry α)} (hA : ∀ a ∈ A, cmp a.item itm < 0)
    (B : List (Entry α)) :
    entriesBelow cmp itm (A ++ B) = A ++ entriesBelow cmp itm B ∧
      entriesFrom cmp itm (A ++ B) = entriesFrom cmp itm B :=
  ⟨List.takeWhile_append_of_pos fun a ha => decide_eq_true (hA a ha),
    List.dropWhile_append_of_pos fun a ha => decide_eq_true (hA a ha)⟩

/-- An entry not below the item in front: the walk stops at once. -/
theorem entriesBelow_cons_of_not_lt {itm : α} {b : Entry α} (hb : ¬ cmp b.item itm < 0)
    (B : List (Entry α)) :
    entriesBelow cmp itm (b :: B) = [] ∧ entriesFrom cmp itm (b :: B) = b :: B :=
  ⟨List.takeWhile_cons_of_neg (by simpa using hb), List.dropWhile_cons_of_neg (by simpa using hb)⟩

include hc in
/-- The walk to an entry's own item passes the entries before it and stops at it. -/
theorem entriesBelow_of_sorted {A B : List (Entry α)} {e : Entry α}
    (hs : Sorted cmp (A ++ e :: B)) :
    entriesBelow cmp e.item (A ++ e :: B) = A ∧ entriesFrom cmp e.item (A ++ e :: B) = e :: B := by
  have hA : ∀ a ∈ A, cmp a.item e.item < 0 := fun a ha =>
    (List.pairwise_append.1 hs).2.2 a ha e List.mem_cons_self
  have he : ¬ cmp e.item e.item < 0 := by rw [hc.self]; omega
  obtain ⟨hbelow, hfrom⟩ := entriesBelow_append hA (e :: B)
  obtain ⟨hbelow', hfrom'⟩ := entriesBelow_cons_of_not_lt he B
  rw [hbelow, hfrom, hbelow', hfrom', List.append_nil]
  exact ⟨rfl, rfl⟩

include hc in
/-- **The entry equal to an item** is the first from `entriesFrom`, if any: every entry before
it is below the item, and every one after it above. -/
theorem find?_compare_eq {E : List (Entry α)} (hs : Sorted cmp E) (itm : α) :
    E.find? (fun e => cmp e.item itm == 0) =
      (entriesFrom cmp itm E).head?.filter fun e => cmp e.item itm == 0 := by
  have hbelow : (entriesBelow cmp itm E).find? (fun e => cmp e.item itm == 0) = none := by
    rw [List.find?_eq_none]
    intro e he
    have := lt_of_mem_entriesBelow he
    simp only [beq_iff_eq]
    omega
  rw [← entriesBelow_append_entriesFrom itm E, List.find?_append, hbelow, Option.none_or,
    entriesBelow_append_entriesFrom]
  have hfrom : Sorted cmp (entriesFrom cmp itm E) := hs.sublist (List.dropWhile_sublist _)
  generalize hF : entriesFrom cmp itm E = F at hfrom ⊢
  cases F with
  | nil => rfl
  | cons f rest =>
    have hf : ¬ cmp f.item itm < 0 := by
      have hne : entriesFrom cmp itm E ≠ [] := by simp [hF]
      have := List.head_dropWhile_not (fun e : Entry α => decide (cmp e.item itm < 0)) hne
      simp only [entriesFrom] at hF
      simpa [hF] using this
    by_cases h0 : cmp f.item itm = 0
    · simp [h0, Option.filter]
    · -- `f` is above the item, so every later entry is too
      have hrest : rest.find? (fun e => cmp e.item itm == 0) = none := by
        rw [List.find?_eq_none]
        intro g hg hgeq
        have hfg := List.rel_of_pairwise_cons hfrom hg
        have := hc.lt_of_lt_of_eq hfg (by simpa using hgeq)
        exact hf this
      simp [h0, hrest, Option.filter]

include hc in
/-- **An insert keeps the entries in order**: the new entry goes after the entries below its
item and before the others, none of which compares equal to it. -/
theorem sorted_insert {E : List (Entry α)} (hs : Sorted cmp E) {xe : Entry α}
    (hne : ∀ f ∈ E, cmp f.item xe.item ≠ 0) :
    Sorted cmp (entriesBelow cmp xe.item E ++ xe :: entriesFrom cmp xe.item E) := by
  have hpw : Sorted cmp (entriesBelow cmp xe.item E ++ entriesFrom cmp xe.item E) := by
    rw [entriesBelow_append_entriesFrom]
    exact hs
  have hFE : ∀ f ∈ entriesFrom cmp xe.item E, f ∈ E := fun f hf =>
    (List.dropWhile_sublist _).subset hf
  obtain ⟨hA, hB, hAB⟩ := List.pairwise_append.1 hpw
  -- every entry from `entriesFrom` on is above the new item
  have habove : ∀ f ∈ entriesFrom cmp xe.item E, cmp xe.item f.item < 0 := by
    intro f hf
    have hsorted : Sorted cmp (entriesFrom cmp xe.item E) := hB
    generalize hF : entriesFrom cmp xe.item E = F at hsorted hf hFE
    cases F with
    | nil => simp at hf
    | cons f0 rest =>
      have hf0 : ¬ cmp f0.item xe.item < 0 := by
        have hne' : entriesFrom cmp xe.item E ≠ [] := by simp [hF]
        have := List.head_dropWhile_not (fun e : Entry α => decide (cmp e.item xe.item < 0)) hne'
        simp only [entriesFrom] at hF
        simpa [hF] using this
      have hx0 : cmp xe.item f0.item < 0 :=
        hc.lt_of_not_lt hf0 (hne f0 (hFE f0 List.mem_cons_self))
      rcases List.mem_cons.1 hf with rfl | hf
      · exact hx0
      · exact hc.lt_trans hx0 (List.rel_of_pairwise_cons hsorted hf)
  refine List.pairwise_append.2 ⟨hA, List.pairwise_cons.2 ⟨habove, hB⟩, fun a ha b hb => ?_⟩
  rcases List.mem_cons.1 hb with rfl | hb
  · exact lt_of_mem_entriesBelow ha
  · exact hAB a ha b hb

end Ordered

/-! ## §3 — the calls -/

/-- What the calls see of a skiplist: its entries in order, the nodes handed out and deleted
since, the next address `newNode` hands out, and the list's `level`. -/
structure Contents (α : Type) where
  entries : List (Entry α)
  dead : List Nat
  alloc : Nat
  level : Nat

/-- A call, made one at a time: `Insert3` with the item's level given, `Insert2` with the
draws of `NewLevel`, `Delete` of an item, `DeleteNode` of a node. -/
inductive Call (α : Type) where
  | insert3 (itm : α) (eqCmp : Option (α → α → Int)) (itemLevel : Nat)
  | insert2 (itm : α) (eqCmp : Option (α → α → Int)) (draws : Nat)
  | delete (itm : α)
  | deleteNode (n : Nat)

/-- What a call returns: the node an insert added, or whether a delete deleted. -/
inductive Reply where
  | node (x : Option Nat)
  | deleted (b : Bool)
  deriving DecidableEq

namespace Contents

variable (cmp : α → α → Int)

/-- `New`: no entries; the head and the tail took the addresses `0` and `1`. -/
def new : Contents α := ⟨[], [], 2, 0⟩

/-- The item is there already: an entry compares equal to it, or `eqCmp` finds it equal to
the entry before it (never to the head). -/
def duplicate (eqCmp : Option (α → α → Int)) (E : List (Entry α)) (itm : α) : Bool :=
  E.any (fun e => cmp e.item itm == 0) ||
    eqCmp.any fun eq =>
      compareItems eq (some itm) ((entriesBelow cmp itm E).getLast?.map Entry.item) == 0

/-- `Insert3` at the level `lvl`. -/
def insert (c : Contents α) (itm : α) (eqCmp : Option (α → α → Int)) (lvl : Nat) :
    Reply × Contents α :=
  if duplicate cmp eqCmp c.entries itm then (.node none, { c with alloc := c.alloc + 1 })
  else
    (.node (some c.alloc),
      { c with
        entries := entriesBelow cmp itm c.entries ++ ⟨c.alloc, itm, lvl⟩ :: entriesFrom cmp itm c.entries
        alloc := c.alloc + 1 })

/-- The entry leaves, and its node is deleted. -/
def remove (c : Contents α) (e : Entry α) : Contents α :=
  { c with entries := c.entries.filter (fun f => f.node != e.node), dead := e.node :: c.dead }

/-- The first entry that `p` picks leaves, if there is one. -/
def removeFirst (c : Contents α) (p : Entry α → Bool) : Reply × Contents α :=
  match c.entries.find? p with
  | some e => (.deleted true, c.remove e)
  | none => (.deleted false, c)

/-- `NewLevel` with `draws` draws below `p`: at most `MaxLevel`, and at most one above `level`,
which then grows. -/
def newLevel (c : Contents α) (draws : Nat) : Nat × Contents α :=
  if min draws maxLevel > c.level then (c.level + 1, { c with level := c.level + 1 })
  else (min draws maxLevel, c)

/-- **What a call does** to the contents. -/
def step (c : Contents α) : Call α → Reply × Contents α
  | .insert3 itm eqCmp lvl => c.insert cmp itm eqCmp lvl
  | .insert2 itm eqCmp draws => (c.newLevel draws).2.insert cmp itm eqCmp (c.newLevel draws).1
  | .delete itm => c.removeFirst fun e => cmp e.item itm == 0
  | .deleteNode n => c.removeFirst fun e => e.node == n

/-- The calls the skiplist is made for: `Insert3` at a level up to `level`, as `Insert2` draws
it, and `DeleteNode` of a node an insert returned. -/
def Admits (c : Contents α) : Call α → Prop
  | .insert3 _ _ lvl => lvl ≤ c.level
  | .deleteNode n => n ∈ c.entries.map Entry.node ∨ n ∈ c.dead
  | _ => True

instance decidableAdmits (c : Contents α) : (call : Call α) → Decidable (c.Admits call)
  | .insert3 _ _ lvl => inferInstanceAs (Decidable (lvl ≤ c.level))
  | .insert2 .. => isTrue trivial
  | .delete _ => isTrue trivial
  | .deleteNode n => inferInstanceAs (Decidable (n ∈ c.entries.map Entry.node ∨ n ∈ c.dead))

end Contents

/-! ## §4 — a skiplist that holds its contents -/

/-- The skiplist holds the contents: it represents their entries at every level, with the
deleted nodes marked, and has their next address and their level. -/
structure Holds (cmp : α → α → Int) (s : Skiplist α) (c : Contents α) : Prop where
  inv : Inv cmp s c.entries c.dead
  alloc : s.alloc = c.alloc
  level : s.level = c.level

end Memdb.Store
