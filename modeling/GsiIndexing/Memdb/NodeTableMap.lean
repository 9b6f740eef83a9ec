import GsiIndexing.Memdb.NodeTable
import GsiIndexing.Lib.Simulation
import Mathlib.Order.Interval.Finset.Nat

/-!
# The node table refines a finite map

What a `NodeTable` is for: a finite map from keys to pointers (`mapStep`), where `Get` looks a
key up, `Update` inserts or replaces, `Remove` erases and `ItemsCount` counts the keys. A call
is made with the key comparison the heap gives at that time; it is admissible (`CallOk`) when
that comparison answers, for every stored pointer, true exactly for the key it is stored
under, and an updated pointer is a pointer of the heap whose node holds the key.

The representation (`Represents`) reads the table one hash at a time: the chain of a hash is
the fast entry followed by the overflow list; its decoded pointers are distinct and are
exactly the pointers stored under keys of that hash (`ChainOk`), the conflict bit is set
exactly when the overflow list exists, and an overflow list is never empty (`Shape`). The
counters count the fast entries, the keys, and the overflow lists.

* **`find_of_lookup_none`** / **`find_of_lookup_some`** — what `find` returns, by the map.
* **`tableStep_simulates`** — every admissible call replies as the map does and keeps the
  representation; `Lib/Simulation` carries it over whole runs.
-/

namespace Memdb.Nodetable

variable {K : Type} [DecidableEq K]

/-! ## §1 — the specification -/

/-- The finite map a table stands for. -/
abbrev PtrMap (K : Type) := AList (fun _ : K => Pointer)

/-- The operations of a `NodeTable`. -/
inductive Op (K : Type) where
  | get (key : K)
  | update (key : K) (nptr : Pointer)
  | remove (key : K)
  | itemsCount
  | close

/-- What an operation returns. -/
inductive Reply where
  | ptr (p : Pointer)
  | updated (updated : Bool) (oldPtr : Pointer)
  | removed (success : Bool) (nptr : Pointer)
  | count (n : Int)
  | closed
  deriving DecidableEq, Repr

/-- A call: the key comparison of the heap at the time, and the operation. -/
abbrev Call (K : Type) := EqualKeyFn K × Op K

/-- The map's answer to a call. -/
def mapStep (m : PtrMap K) : Call K → Reply × PtrMap K
  | (_, .get key) => (.ptr ((m.lookup key).getD nil), m)
  | (_, .update key nptr) =>
    (.updated (m.lookup key).isSome ((m.lookup key).getD nil), m.insert key nptr)
  | (_, .remove key) => (.removed (m.lookup key).isSome ((m.lookup key).getD nil), m.erase key)
  | (_, .itemsCount) => (.count m.keys.length, m)
  | (_, .close) => (.closed, ∅)

/-- The table's answer to a call; `none` where `Remove` panics. -/
def tableStep (hash : HashFn K) (nt : NodeTable) : Call K → Option (Reply × NodeTable)
  | (keyEqual, .get key) => some (.ptr (nt.get hash keyEqual key), nt)
  | (keyEqual, .update key nptr) =>
    let r := nt.update hash keyEqual key nptr
    some (.updated r.1.1 r.1.2, r.2)
  | (keyEqual, .remove key) => (nt.remove hash keyEqual key).map fun r => (.removed r.1.1 r.1.2, r.2)
  | (_, .itemsCount) => some (.count nt.itemsCount.toInt, nt)
  | (_, .close) => some (.closed, nt.close)

/-- A pointer of the heap: not nil, and in the lower half of the 64-bit address space. -/
def ValidPointer (p : Pointer) : Prop := p ≠ nil ∧ p.toNat < 2 ^ 63

instance (p : Pointer) : Decidable (ValidPointer p) := inferInstanceAs (Decidable (_ ∧ _))

/-- `keyEqual` answers true, on a stored pointer, exactly for the key it is stored under. -/
def KeyEqualAgrees (keyEqual : EqualKeyFn K) (m : PtrMap K) : Prop :=
  ∀ e ∈ m.entries, ∀ k, keyEqual e.2 k = true ↔ k = e.1

/-- The precondition of a call in the map it is made in. -/
def CallOk (m : PtrMap K) : Call K → Prop
  | (keyEqual, .update key nptr) =>
    KeyEqualAgrees keyEqual m ∧ ValidPointer nptr ∧ keyEqual nptr key = true
  | (keyEqual, _) => KeyEqualAgrees keyEqual m

-- along the entries: with all of Mathlib `UInt64` is a `Fintype`, and the instance found
-- for `∀ e ∈ l` would enumerate every entry of the type
instance [Fintype K] (keyEqual : EqualKeyFn K) (m : PtrMap K) :
    Decidable (KeyEqualAgrees keyEqual m) :=
  List.decidableBAll _ m.entries

instance [Fintype K] (m : PtrMap K) : ∀ c : Call K, Decidable (CallOk m c)
  | (_, .get _) | (_, .remove _) | (_, .itemsCount) | (_, .close) =>
    inferInstanceAs (Decidable (KeyEqualAgrees _ m))
  | (_, .update _ _) => inferInstanceAs (Decidable (_ ∧ _))

theorem KeyEqualAgrees.key_eq {keyEqual : EqualKeyFn K} {m : PtrMap K}
    (hK : KeyEqualAgrees keyEqual m) {k key : K} {p : Pointer} (hk : m.lookup k = some p) :
    keyEqual p key = true ↔ key = k :=
  hK ⟨k, p⟩ (AList.mem_lookup_iff.1 hk) key

/-- The stored pointers are pointers of the heap, each under one key. -/
structure MapInv (m : PtrMap K) : Prop where
  valid : ∀ k p, m.lookup k = some p → ValidPointer p
  inj : ∀ k k' p, m.lookup k = some p → m.lookup k' = some p → k = k'

theorem mapInv_empty : MapInv (∅ : PtrMap K) :=
  ⟨fun _ _ h => by simp at h, fun _ _ _ h => by simp at h⟩

/-- A map of heap pointers has fewer than `2 ^ 63` keys. -/
theorem MapInv.length_keys_lt {m : PtrMap K} (hm : MapInv m) : m.keys.length < 2 ^ 63 := by
  let f : K → ℕ := fun k => ((m.lookup k).getD nil).toNat
  have hlookup : ∀ k ∈ m.keys.toFinset, m.lookup k = some ((m.lookup k).getD nil) := by
    intro k hk
    obtain ⟨p, hp⟩ := Option.isSome_iff_exists.1
      (AList.lookup_isSome.2 (AList.mem_keys.2 (List.mem_toFinset.1 hk)))
    simp [hp]
  have hmaps : Set.MapsTo f m.keys.toFinset (Finset.Ioo 0 (2 ^ 63)) := by
    intro k hk
    obtain ⟨hne, hlt⟩ := hm.valid k _ (hlookup k hk)
    have hpos : (m.lookup k).getD nil ≠ 0 := hne
    simp only [Finset.coe_Ioo, Set.mem_Ioo, f]
    exact ⟨Nat.pos_of_ne_zero fun h0 => hpos (UInt64.toNat_inj.1 h0), hlt⟩
  have hinj : Set.InjOn f m.keys.toFinset := by
    intro k hk k' hk' hf
    exact hm.inj k k' _ (hlookup k hk) ((UInt64.toNat_inj.1 hf) ▸ hlookup k' hk')
  have hcard := Finset.card_le_card_of_injOn f hmaps hinj
  rw [List.toFinset_card_of_nodup m.keys_nodup, Nat.card_Ioo] at hcard
  omega

/-! ## §2 — the representation -/

/-- The pointers stored under keys of hash `h`. -/
def Stored (hash : HashFn K) (m : PtrMap K) (h : UInt32) (p : Pointer) : Prop :=
  ∃ k, hash k = h ∧ m.lookup k = some p

/-- The chain of a hash: the fast entry, then the overflow list. -/
def chain : Option UInt64 → Option (List UInt64) → List UInt64
  | none, _ => []
  | some v, slow => v :: slow.getD []

/-- The decoded pointers of a chain are distinct and are the pointers of `S`. -/
structure ChainOk (ptrs : List Pointer) (S : Pointer → Prop) : Prop where
  nodup : ptrs.Nodup
  mem : ∀ p, p ∈ ptrs ↔ S p

/-- The conflict bit of the fast entry is set exactly when the overflow list exists, and an
overflow list exists only beside a fast entry and is never empty. -/
structure Shape (fast : Option UInt64) (slow : Option (List UInt64)) : Prop where
  conflict : ∀ v, fast = some v → hasConflict v = slow.isSome
  slow_none : fast = none → slow = none
  slow_ne_nil : slow ≠ some []

/-- **The representation invariant** of a table for a map. -/
structure Represents (hash : HashFn K) (nt : NodeTable) (m : PtrMap K) : Prop where
  shapes : ∀ h, Shape (nt.fastHT.lookup h) (nt.slowHT.lookup h)
  chains : ∀ h, ChainOk ((chain (nt.fastHT.lookup h) (nt.slowHT.lookup h)).map decodePointer)
    (Stored hash m h)
  fastHTCount : nt.fastHTCount = UInt64.ofNat nt.fastHT.keys.length
  items : nt.fastHTCount + nt.slowHTCount = UInt64.ofNat m.keys.length
  conflicts : nt.conflicts = UInt64.ofNat nt.slowHT.keys.length
  map : MapInv m

/-! ## §3 — how the operations of the map change what is stored under a hash -/

section Stored

variable {hash : HashFn K} {m : PtrMap K} {key : K}

theorem stored_insert_of_ne {h : UInt32} (hh : hash key ≠ h) (p : Pointer) :
    Stored hash (m.insert key p) h = Stored hash m h := by
  funext q
  apply propext
  constructor
  · rintro ⟨k, hk, hl⟩
    have hne : k ≠ key := fun heq => hh (heq ▸ hk)
    exact ⟨k, hk, by rwa [AList.lookup_insert_ne hne] at hl⟩
  · rintro ⟨k, hk, hl⟩
    have hne : k ≠ key := fun heq => hh (heq ▸ hk)
    exact ⟨k, hk, by rwa [AList.lookup_insert_ne hne]⟩

theorem stored_erase_of_ne {h : UInt32} (hh : hash key ≠ h) :
    Stored hash (m.erase key) h = Stored hash m h := by
  funext q
  apply propext
  constructor
  · rintro ⟨k, hk, hl⟩
    have hne : k ≠ key := fun heq => hh (heq ▸ hk)
    exact ⟨k, hk, by rwa [AList.lookup_erase_ne hne] at hl⟩
  · rintro ⟨k, hk, hl⟩
    have hne : k ≠ key := fun heq => hh (heq ▸ hk)
    exact ⟨k, hk, by rwa [AList.lookup_erase_ne hne]⟩

/-- A key of the map stores its pointer under no other key. -/
theorem MapInv.lookup_ne {k : K} {p : Pointer} (hm : MapInv m) (hk : m.lookup key = some p)
    (hne : k ≠ key) : m.lookup k ≠ some p :=
  fun hl => hne (hm.inj k key p hl hk)

theorem stored_insert_of_lookup_none (hk : m.lookup key = none) (p : Pointer) :
    Stored hash (m.insert key p) (hash key) = fun q => q = p ∨ Stored hash m (hash key) q := by
  funext q
  apply propext
  constructor
  · rintro ⟨k, hh, hl⟩
    by_cases hke : k = key
    · subst hke
      rw [AList.lookup_insert, Option.some_inj] at hl
      exact .inl hl.symm
    · exact .inr ⟨k, hh, by rwa [AList.lookup_insert_ne hke] at hl⟩
  · rintro (rfl | ⟨k, hh, hl⟩)
    · exact ⟨key, rfl, AList.lookup_insert _⟩
    · have hke : k ≠ key := by rintro rfl; rw [hk] at hl; cases hl
      exact ⟨k, hh, by rwa [AList.lookup_insert_ne hke]⟩

theorem stored_insert_of_lookup_some (hm : MapInv m) {pold : Pointer}
    (hk : m.lookup key = some pold) (p : Pointer) :
    Stored hash (m.insert key p) (hash key) =
      fun q => q = p ∨ (Stored hash m (hash key) q ∧ q ≠ pold) := by
  funext q
  apply propext
  constructor
  · rintro ⟨k, hh, hl⟩
    by_cases hke : k = key
    · subst hke
      rw [AList.lookup_insert, Option.some_inj] at hl
      exact .inl hl.symm
    · rw [AList.lookup_insert_ne hke] at hl
      exact .inr ⟨⟨k, hh, hl⟩, fun hq => hm.lookup_ne hk hke (hq ▸ hl)⟩
  · rintro (rfl | ⟨⟨k, hh, hl⟩, hne⟩)
    · exact ⟨key, rfl, AList.lookup_insert _⟩
    · have hke : k ≠ key := by rintro rfl; rw [hk, Option.some_inj] at hl; exact hne hl.symm
      exact ⟨k, hh, by rwa [AList.lookup_insert_ne hke]⟩

theorem stored_erase_of_lookup_some (hm : MapInv m) {pold : Pointer}
    (hk : m.lookup key = some pold) :
    Stored hash (m.erase key) (hash key) = fun q => Stored hash m (hash key) q ∧ q ≠ pold := by
  funext q
  apply propext
  constructor
  · rintro ⟨k, hh, hl⟩
    have hke : k ≠ key := by rintro rfl; rw [AList.lookup_erase] at hl; cases hl
    rw [AList.lookup_erase_ne hke] at hl
    exact ⟨⟨k, hh, hl⟩, fun hq => hm.lookup_ne hk hke (hq ▸ hl)⟩
  · rintro ⟨⟨k, hh, hl⟩, hne⟩
    have hke : k ≠ key := by rintro rfl; rw [hk, Option.some_inj] at hl; exact hne hl.symm
    exact ⟨k, hh, by rwa [AList.lookup_erase_ne hke]⟩

/-- An admissible update keeps the map's pointers those of the heap, one per key. -/
theorem MapInv.insert (hm : MapInv m) {keyEqual : EqualKeyFn K} (hK : KeyEqualAgrees keyEqual m)
    {p : Pointer} (hp : ValidPointer p) (hkey : keyEqual p key = true) :
    MapInv (m.insert key p) := by
  -- a key that already stores `p` is `key` itself: `keyEqual` says so
  have hown : ∀ k, m.lookup k = some p → k = key := fun k hk => ((hK.key_eq hk).1 hkey).symm
  constructor
  · intro k q hl
    by_cases hke : k = key
    · subst hke
      rw [AList.lookup_insert, Option.some_inj] at hl
      exact hl ▸ hp
    · rw [AList.lookup_insert_ne hke] at hl
      exact hm.valid k q hl
  · intro k k' q hl hl'
    by_cases hke : k = key <;> by_cases hke' : k' = key
    · rw [hke, hke']
    · rw [hke, AList.lookup_insert, Option.some_inj] at hl
      rw [AList.lookup_insert_ne hke', ← hl] at hl'
      exact absurd (hown k' hl') hke'
    · rw [hke', AList.lookup_insert, Option.some_inj] at hl'
      rw [AList.lookup_insert_ne hke, ← hl'] at hl
      exact absurd (hown k hl) hke
    · rw [AList.lookup_insert_ne hke] at hl
      rw [AList.lookup_insert_ne hke'] at hl'
      exact hm.inj k k' q hl hl'

theorem MapInv.erase (hm : MapInv m) : MapInv (m.erase key) := by
  constructor
  · intro k q hl
    by_cases hke : k = key
    · subst hke; rw [AList.lookup_erase] at hl; cases hl
    · exact hm.valid k q (by rwa [AList.lookup_erase_ne hke] at hl)
  · intro k k' q hl hl'
    by_cases hke : k = key
    · subst hke; rw [AList.lookup_erase] at hl; cases hl
    by_cases hke' : k' = key
    · subst hke'; rw [AList.lookup_erase] at hl'; cases hl'
    rw [AList.lookup_erase_ne hke] at hl
    rw [AList.lookup_erase_ne hke'] at hl'
    exact hm.inj k k' q hl hl'

end Stored

/-! ## §4 — chains: replacing, removing and appending a pointer -/

section Chains

variable {S : Pointer → Prop}

theorem ChainOk.replace {A B : List Pointer} {a x : Pointer} (hc : ChainOk (A ++ a :: B) S)
    (hx : x ∈ A ++ a :: B → x = a) :
    ChainOk (A ++ x :: B) (fun q => q = x ∨ (S q ∧ q ≠ a)) := by
  have hnd : (a :: (A ++ B)).Nodup := List.nodup_middle.1 hc.nodup
  have hxAB : x ∉ A ++ B := fun hm =>
    (List.nodup_cons.1 hnd).1 (hx (by simp at hm ⊢; tauto) ▸ hm)
  constructor
  · exact List.nodup_middle.2 (List.nodup_cons.2 ⟨hxAB, (List.nodup_cons.1 hnd).2⟩)
  · intro q
    rw [← hc.mem q]
    have ha : a ∉ A ++ B := (List.nodup_cons.1 hnd).1
    simp only [List.mem_append, List.mem_cons] at ha ⊢
    constructor
    · rintro (hq | rfl | hq)
      · exact .inr ⟨.inl hq, fun h => ha (.inl (h ▸ hq))⟩
      · exact .inl rfl
      · exact .inr ⟨.inr (.inr hq), fun h => ha (.inr (h ▸ hq))⟩
    · rintro (rfl | ⟨hq | rfl | hq, hne⟩)
      · exact .inr (.inl rfl)
      · exact .inl hq
      · exact absurd rfl hne
      · exact .inr (.inr hq)

theorem ChainOk.erase {A B : List Pointer} {a : Pointer} (hc : ChainOk (A ++ a :: B) S) :
    ChainOk (A ++ B) (fun q => S q ∧ q ≠ a) := by
  have hnd : (a :: (A ++ B)).Nodup := List.nodup_middle.1 hc.nodup
  constructor
  · exact (List.nodup_cons.1 hnd).2
  · intro q
    rw [← hc.mem q]
    have ha : a ∉ A ++ B := (List.nodup_cons.1 hnd).1
    simp only [List.mem_append, List.mem_cons] at ha ⊢
    constructor
    · rintro (hq | hq)
      · exact ⟨.inl hq, fun h => ha (.inl (h ▸ hq))⟩
      · exact ⟨.inr (.inr hq), fun h => ha (.inr (h ▸ hq))⟩
    · rintro ⟨hq | rfl | hq, hne⟩
      · exact .inl hq
      · exact absurd rfl hne
      · exact .inr hq

theorem ChainOk.append {L : List Pointer} {x : Pointer} (hc : ChainOk L S) (hx : ¬ S x) :
    ChainOk (L ++ [x]) (fun q => q = x ∨ S q) := by
  have hxL : x ∉ L := fun hm => hx ((hc.mem x).1 hm)
  constructor
  · exact List.nodup_append.2 ⟨hc.nodup, List.nodup_singleton x,
      fun a ha b hb => by rw [List.mem_singleton.1 hb]; exact fun h => hxL (h ▸ ha)⟩
  · intro q
    simp only [List.mem_append, List.mem_singleton, hc.mem q]
    exact Or.comm

theorem chainOk_nil : ChainOk [] (fun _ => False) := ⟨List.nodup_nil, fun _ => by simp⟩

/-- The chain's pointers by the map, from the other side: a stored pointer is in the
chain. -/
theorem ChainOk.eq_nil {L : List Pointer} (hc : ChainOk L S) (hS : ∀ q, ¬ S q) : L = [] :=
  List.eq_nil_iff_forall_not_mem.2 fun q hq => hS q ((hc.mem q).1 hq)

end Chains

/-! ## §5 — sizes of the maps, and the counters -/

section Counts

variable {α : Type} [DecidableEq α] {β : α → Type} {s : AList β} {a : α}

theorem length_keys_insert_of_mem (ha : a ∈ s) (b : β a) :
    (s.insert a b).keys.length = s.keys.length := by
  have hpos : 0 < s.keys.length := List.length_pos_of_mem (AList.mem_keys.1 ha)
  rw [AList.keys_insert, List.length_cons, List.length_erase_of_mem (AList.mem_keys.1 ha)]
  omega

theorem length_keys_insert_of_not_mem (ha : a ∉ s) (b : β a) :
    (s.insert a b).keys.length = s.keys.length + 1 := by
  rw [AList.keys_insert, List.length_cons,
    List.erase_of_not_mem (fun h => ha (AList.mem_keys.2 h))]

theorem length_keys_erase_of_mem (ha : a ∈ s) :
    (s.erase a).keys.length + 1 = s.keys.length := by
  have hpos : 0 < s.keys.length := List.length_pos_of_mem (AList.mem_keys.1 ha)
  rw [AList.keys_erase, List.length_erase_of_mem (AList.mem_keys.1 ha)]
  omega

theorem ofNat_succ (n : Nat) : UInt64.ofNat (n + 1) = UInt64.ofNat n + 1 := by
  rw [UInt64.ofNat_add]
  rfl

theorem ofNat_of_succ_eq {n k : Nat} (h : n + 1 = k) : UInt64.ofNat n = UInt64.ofNat k - 1 := by
  rw [← h, ofNat_succ]
  grind

end Counts

/-! ## §6 — `find`, by the map

The chain of the key's hash holds the key's pointer when the map has one, and `keyEqual`
recognises that pointer and no other of the chain; so `find` stops at the key's pointer, or
at the end of the chain when the key is absent. -/

section Find

variable {hash : HashFn K} {keyEqual : EqualKeyFn K} {nt : NodeTable} {m : PtrMap K} {key : K}

/-- On a value of the key's chain, `isEqual` is the map's lookup. -/
theorem isEqual_iff (hR : Represents hash nt m) (hK : KeyEqualAgrees keyEqual m) {x : UInt64}
    (hx : x ∈ chain (nt.fastHT.lookup (hash key)) (nt.slowHT.lookup (hash key))) :
    isEqual keyEqual key x = true ↔ m.lookup key = some (decodePointer x) := by
  obtain ⟨k, -, hl⟩ := ((hR.chains (hash key)).mem (decodePointer x)).1 (List.mem_map_of_mem hx)
  rw [isEqual, hK.key_eq hl]
  constructor
  · rintro rfl
    exact hl
  · intro hl'
    exact hR.map.inj key k _ hl' hl

theorem find_of_lookup_none (hR : Represents hash nt m) (hK : KeyEqualAgrees keyEqual m)
    (hk : m.lookup key = none) :
    nt.find hash keyEqual key =
      { emptyResult with
        hash := hash key
        fastHTHasEntry := (nt.fastHT.lookup (hash key)).isSome
        hasConflict := (nt.slowHT.lookup (hash key)).isSome } := by
  have hsh := hR.shapes (hash key)
  -- no value of the chain is the key's
  have hno : ∀ x ∈ chain (nt.fastHT.lookup (hash key)) (nt.slowHT.lookup (hash key)),
      isEqual keyEqual key x = false := by
    intro x hx
    have hiff := isEqual_iff hR hK hx
    rw [hk] at hiff
    simpa using hiff
  cases hf : nt.fastHT.lookup (hash key) with
  | none => simp [NodeTable.find, hf, hsh.slow_none hf, emptyResult]
  | some v =>
    have hv := hno v (by simp [chain, hf])
    have hc := hsh.conflict v hf
    cases hs : nt.slowHT.lookup (hash key) with
    | none =>
      rw [hs] at hc
      simp [NodeTable.find, hf, hv, hc]
    | some vs =>
      rw [hs] at hc
      have hidx : vs.findIdx? (isEqual keyEqual key) = none :=
        List.findIdx?_eq_none_iff.2 fun x hx => hno x (by simp [chain, hf, hs, hx])
      simp [NodeTable.find, hf, hv, hc, hs, hidx]

theorem find_of_lookup_some (hR : Represents hash nt m) (hK : KeyEqualAgrees keyEqual m)
    {p : Pointer} (hk : m.lookup key = some p) :
    ∃ v, nt.fastHT.lookup (hash key) = some v ∧
      ((decodePointer v = p ∧ nt.find hash keyEqual key =
          { emptyResult with
            hash := hash key, fastHTHasEntry := true
            hasConflict := (nt.slowHT.lookup (hash key)).isSome
            status := ntFoundInFast, fastHTValue := v }) ∨
       (∃ vs i, ∃ hi : i < vs.length, nt.slowHT.lookup (hash key) = some vs ∧
          decodePointer vs[i] = p ∧ decodePointer v ≠ p ∧
          nt.find hash keyEqual key =
            { emptyResult with
              hash := hash key, fastHTHasEntry := true, hasConflict := true
              status := ntFoundInSlow, slowHTValues := vs, slowHTPos := i })) := by
  have hp : p ∈ (chain (nt.fastHT.lookup (hash key)) (nt.slowHT.lookup (hash key))).map
      decodePointer := ((hR.chains (hash key)).mem p).2 ⟨key, rfl, hk⟩
  have hsh := hR.shapes (hash key)
  cases hf : nt.fastHT.lookup (hash key) with
  | none => simp [chain, hf] at hp
  | some v =>
    refine ⟨v, rfl, ?_⟩
    have hvmem : v ∈ chain (nt.fastHT.lookup (hash key)) (nt.slowHT.lookup (hash key)) := by
      simp [chain, hf]
    by_cases hv : decodePointer v = p
    · -- the fast entry is the key's
      have he : isEqual keyEqual key v = true := (isEqual_iff hR hK hvmem).2 (hv ▸ hk)
      refine .inl ⟨hv, ?_⟩
      simp [NodeTable.find, hf, he, hsh.conflict v hf]
    · -- the key's pointer is in the overflow list, which `find` then walks
      have he : isEqual keyEqual key v = false := by
        rw [← Bool.not_eq_true, isEqual_iff hR hK hvmem, hk, Option.some_inj]
        exact fun h => hv h.symm
      cases hs : nt.slowHT.lookup (hash key) with
      | none =>
        simp only [chain, hf, hs, Option.getD_none, List.map_cons, List.map_nil,
          List.mem_singleton] at hp
        exact absurd hp.symm hv
      | some vs =>
        have hc : hasConflict v = true := by rw [hsh.conflict v hf, hs]; rfl
        have hmem : ∀ x ∈ vs, x ∈ chain (nt.fastHT.lookup (hash key))
            (nt.slowHT.lookup (hash key)) := fun x hx => by simp [chain, hf, hs, hx]
        obtain ⟨x, hx, hxp⟩ : ∃ x ∈ vs, decodePointer x = p := by
          simp only [chain, hf, hs, Option.getD_some, List.map_cons, List.mem_cons,
            List.mem_map] at hp
          exact hp.resolve_left fun h => hv h.symm
        have hxe : isEqual keyEqual key x = true := (isEqual_iff hR hK (hmem x hx)).2 (hxp ▸ hk)
        obtain ⟨i, hidx⟩ : ∃ i, vs.findIdx? (isEqual keyEqual key) = some i := by
          apply Option.ne_none_iff_exists'.1
          intro hnone
          rw [List.findIdx?_eq_none_iff.1 hnone x hx] at hxe
          cases hxe
        obtain ⟨hi, hie, -⟩ := List.findIdx?_eq_some_iff_getElem.1 hidx
        refine .inr ⟨vs, i, hi, rfl, ?_, hv, ?_⟩
        · have hl := (isEqual_iff hR hK (hmem _ (List.getElem_mem hi))).1 hie
          exact Option.some_inj.1 (hl.symm.trans hk)
        · simp [NodeTable.find, hf, he, hc, hs, hidx]

end Find

/-! ## §7 — one operation at a time

Each operation changes the table at the key's hash only. `Represents.of_bucket` carries the
other hashes over; what is left of each case is the bucket of the key's hash, a chain lemma of
§4, and the counters. -/

section Steps

variable {hash : HashFn K} {keyEqual : EqualKeyFn K} {nt : NodeTable} {m : PtrMap K} {key : K}

/-- **The frame lemma**: a table that differs from a represented one only at hash `h`. -/
theorem Represents.of_bucket (hR : Represents hash nt m) {nt' : NodeTable} {m' : PtrMap K}
    {h : UInt32} (hfast : ∀ h', h' ≠ h → nt'.fastHT.lookup h' = nt.fastHT.lookup h')
    (hslow : ∀ h', h' ≠ h → nt'.slowHT.lookup h' = nt.slowHT.lookup h')
    (hstored : ∀ h', h' ≠ h → Stored hash m' h' = Stored hash m h')
    (hshape : Shape (nt'.fastHT.lookup h) (nt'.slowHT.lookup h))
    (hchain : ChainOk ((chain (nt'.fastHT.lookup h) (nt'.slowHT.lookup h)).map decodePointer)
      (Stored hash m' h))
    (hfc : nt'.fastHTCount = UInt64.ofNat nt'.fastHT.keys.length)
    (hitems : nt'.fastHTCount + nt'.slowHTCount = UInt64.ofNat m'.keys.length)
    (hconf : nt'.conflicts = UInt64.ofNat nt'.slowHT.keys.length) (hm : MapInv m') :
    Represents hash nt' m' := by
  refine ⟨fun h' => ?_, fun h' => ?_, hfc, hitems, hconf, hm⟩
  all_goals by_cases hh : h' = h
  · exact hh ▸ hshape
  · rw [hfast h' hh, hslow h' hh]
    exact hR.shapes h'
  · exact hh ▸ hchain
  · rw [hfast h' hh, hslow h' hh, hstored h' hh]
    exact hR.chains h'

/-- An updated pointer already stored is stored under the updated key. -/
theorem lookup_of_stored (hK : KeyEqualAgrees keyEqual m) {nptr : Pointer}
    (hkey : keyEqual nptr key = true) {h : UInt32} (hs : Stored hash m h nptr) :
    m.lookup key = some nptr := by
  obtain ⟨k, -, hl⟩ := hs
  rw [(hK.key_eq hl).1 hkey]
  exact hl

theorem lookup_insert_ne_of_ne {β : Type} {s : AList (fun _ : UInt32 => β)} {h h' : UInt32}
    (hh : h' ≠ h) (b : β) : (s.insert h b).lookup h' = s.lookup h' :=
  AList.lookup_insert_ne hh

theorem decode_chain_some (v : UInt64) (slow : Option (List UInt64)) :
    (chain (some v) slow).map decodePointer =
      decodePointer v :: (slow.getD []).map decodePointer := rfl

/-- The list around position `i`. -/
theorem eq_take_cons_drop {α : Type} (L : List α) {i : Nat} (hi : i < L.length) :
    L = L.take i ++ L[i] :: L.drop (i + 1) := by
  rw [List.getElem_cons_drop hi, List.take_append_drop]

theorem eq_of_stored (hK : KeyEqualAgrees keyEqual m) {nptr p : Pointer}
    (hkey : keyEqual nptr key = true) (hk : m.lookup key = some p) {h : UInt32}
    (hs : Stored hash m h nptr) : nptr = p := by
  have hl := lookup_of_stored hK hkey hs
  rw [hk, Option.some_inj] at hl
  exact hl.symm

theorem mem_of_lookup_eq_some {α β : Type} [DecidableEq α] {s : AList (fun _ : α => β)} {h : α}
    {b : β} (hb : s.lookup h = some b) : h ∈ s :=
  AList.lookup_isSome.1 (by rw [hb]; rfl)

theorem not_mem_of_lookup_eq_none {α β : Type} [DecidableEq α] {s : AList (fun _ : α => β)}
    {h : α} (hb : s.lookup h = none) : h ∉ s :=
  fun hm => by rw [← AList.lookup_isSome, hb] at hm; cases hm

/-! ### `Update` of a key that is present -/

theorem update_found_fast (hR : Represents hash nt m) (hK : KeyEqualAgrees keyEqual m)
    {nptr p : Pointer} (hp : ValidPointer nptr) (hkey : keyEqual nptr key = true)
    (hk : m.lookup key = some p) {v : UInt64} (hf : nt.fastHT.lookup (hash key) = some v)
    (hv : decodePointer v = p)
    (hfind : nt.find hash keyEqual key =
      { emptyResult with
        hash := hash key, fastHTHasEntry := true
        hasConflict := (nt.slowHT.lookup (hash key)).isSome
        status := ntFoundInFast, fastHTValue := v }) :
    (nt.update hash keyEqual key nptr).1 = (true, p) ∧
      Represents hash (nt.update hash keyEqual key nptr).2 (m.insert key nptr) := by
  have hupd : nt.update hash keyEqual key nptr =
      ((true, p),
        { nt with
          fastHT := nt.fastHT.insert (hash key)
            (encodePointer nptr (nt.slowHT.lookup (hash key)).isSome) }) := by
    simp [NodeTable.update, hfind, ntFoundInFast, ntFoundMask, hv]
  rw [hupd]
  refine ⟨rfl, hR.of_bucket (h := hash key) (fun _ hh => lookup_insert_ne_of_ne hh _)
    (fun _ _ => rfl) (fun _ hh => stored_insert_of_ne (Ne.symm hh) nptr) ?_ ?_ ?_ ?_
    hR.conflicts (hR.map.insert hK hp hkey)⟩
  · have hsh := hR.shapes (hash key)
    refine ⟨fun w hw => ?_, fun hnone => by simp at hnone, hsh.slow_ne_nil⟩
    rw [AList.lookup_insert, Option.some_inj] at hw
    rw [← hw, hasConflict_encodePointer hp.2]
  · -- the fast pointer is replaced by the new one
    have hc := hR.chains (hash key)
    rw [hf, decode_chain_some, hv] at hc
    rw [AList.lookup_insert, decode_chain_some, decodePointer_encodePointer hp.2,
      stored_insert_of_lookup_some hR.map hk]
    exact ChainOk.replace (A := []) hc fun hx => eq_of_stored hK hkey hk ((hc.mem nptr).1 hx)
  · rw [hR.fastHTCount, length_keys_insert_of_mem (mem_of_lookup_eq_some hf)]
  · rw [hR.items, length_keys_insert_of_mem (mem_of_lookup_eq_some hk)]

theorem update_found_slow (hR : Represents hash nt m) (hK : KeyEqualAgrees keyEqual m)
    {nptr p : Pointer} (hp : ValidPointer nptr) (hkey : keyEqual nptr key = true)
    (hk : m.lookup key = some p) {v : UInt64} (hf : nt.fastHT.lookup (hash key) = some v)
    {vs : List UInt64} {i : Nat} (hi : i < vs.length) (hs : nt.slowHT.lookup (hash key) = some vs)
    (hvs : decodePointer vs[i] = p)
    (hfind : nt.find hash keyEqual key =
      { emptyResult with
        hash := hash key, fastHTHasEntry := true, hasConflict := true
        status := ntFoundInSlow, slowHTValues := vs, slowHTPos := i }) :
    (nt.update hash keyEqual key nptr).1 = (true, p) ∧
      Represents hash (nt.update hash keyEqual key nptr).2 (m.insert key nptr) := by
  have hupd : nt.update hash keyEqual key nptr =
      ((true, p),
        { nt with slowHT := nt.slowHT.insert (hash key) (vs.set i (encodePointer nptr true)) }) := by
    simp [NodeTable.update, hfind, ntFoundInFast, ntFoundInSlow, ntFoundMask,
      List.getElem?_eq_getElem hi, hvs]
  rw [hupd]
  have hsh := hR.shapes (hash key)
  refine ⟨rfl, hR.of_bucket (h := hash key) (fun _ _ => rfl)
    (fun _ hh => lookup_insert_ne_of_ne hh _) (fun _ hh => stored_insert_of_ne (Ne.symm hh) nptr)
    ?_ ?_ hR.fastHTCount ?_ ?_ (hR.map.insert hK hp hkey)⟩
  · refine ⟨fun w hw => ?_, fun hnone => by simp [hf] at hnone, ?_⟩
    · simp only [hf, Option.some_inj] at hw
      rw [← hw, hsh.conflict v hf, hs]
      simp
    · rw [AList.lookup_insert, ne_eq, Option.some_inj, ← List.length_eq_zero_iff,
        List.length_set]
      exact Nat.ne_zero_of_lt hi
  · -- the overflow pointer at `i` is replaced by the new one
    have hc := hR.chains (hash key)
    have hiL : i < (vs.map decodePointer).length := by rw [List.length_map]; exact hi
    rw [hf, hs, decode_chain_some, Option.getD_some, eq_take_cons_drop _ hiL,
      List.getElem_map, hvs, ← List.cons_append] at hc
    rw [hf, AList.lookup_insert, decode_chain_some, Option.getD_some, List.map_set,
      decodePointer_encodePointer hp.2, List.set_eq_take_append_cons_drop, if_pos hiL,
      ← List.cons_append, stored_insert_of_lookup_some hR.map hk]
    exact ChainOk.replace hc fun hx => eq_of_stored hK hkey hk ((hc.mem nptr).1 hx)
  · rw [hR.items, length_keys_insert_of_mem (mem_of_lookup_eq_some hk)]
  · rw [hR.conflicts, length_keys_insert_of_mem (mem_of_lookup_eq_some hs)]

/-! ### `Update` of a key that is absent -/

theorem update_insert_fast (hR : Represents hash nt m) (hK : KeyEqualAgrees keyEqual m)
    {nptr : Pointer} (hp : ValidPointer nptr) (hkey : keyEqual nptr key = true)
    (hk : m.lookup key = none) (hf : nt.fastHT.lookup (hash key) = none) :
    (nt.update hash keyEqual key nptr).1 = (false, nil) ∧
      Represents hash (nt.update hash keyEqual key nptr).2 (m.insert key nptr) := by
  have hs := (hR.shapes (hash key)).slow_none hf
  have hupd : nt.update hash keyEqual key nptr =
      ((false, nil),
        { nt with
          fastHT := nt.fastHT.insert (hash key) (encodePointer nptr false)
          fastHTCount := nt.fastHTCount + 1 }) := by
    rw [NodeTable.update, find_of_lookup_none hR hK hk]
    simp [hf, hs, ntFoundMask, ntNotFound, emptyResult]
  rw [hupd]
  refine ⟨rfl, hR.of_bucket (h := hash key) (fun _ hh => lookup_insert_ne_of_ne hh _)
    (fun _ _ => rfl) (fun _ hh => stored_insert_of_ne (Ne.symm hh) nptr) ?_ ?_ ?_ ?_
    hR.conflicts (hR.map.insert hK hp hkey)⟩
  · refine ⟨fun w hw => ?_, fun hnone => by simp at hnone, by rw [hs]; simp⟩
    rw [AList.lookup_insert, Option.some_inj] at hw
    rw [← hw, hasConflict_encodePointer hp.2, hs]
    rfl
  · -- the key's hash had no chain: the new pointer is its fast entry
    have hc := hR.chains (hash key)
    rw [hf] at hc
    rw [AList.lookup_insert, hs, decode_chain_some, Option.getD_none, List.map_nil,
      decodePointer_encodePointer hp.2, stored_insert_of_lookup_none hk]
    exact ChainOk.append (L := []) hc fun hS => by
      rw [lookup_of_stored hK hkey hS] at hk
      cases hk
  · show nt.fastHTCount + 1 = _
    rw [hR.fastHTCount, length_keys_insert_of_not_mem (not_mem_of_lookup_eq_none hf), ofNat_succ]
  · show nt.fastHTCount + 1 + nt.slowHTCount = _
    rw [length_keys_insert_of_not_mem (not_mem_of_lookup_eq_none hk), ofNat_succ, ← hR.items]
    grind

theorem update_insert_first_conflict (hR : Represents hash nt m)
    (hK : KeyEqualAgrees keyEqual m) {nptr : Pointer} (hp : ValidPointer nptr)
    (hkey : keyEqual nptr key = true) (hk : m.lookup key = none) {v : UInt64}
    (hf : nt.fastHT.lookup (hash key) = some v) (hs : nt.slowHT.lookup (hash key) = none) :
    (nt.update hash keyEqual key nptr).1 = (false, nil) ∧
      Represents hash (nt.update hash keyEqual key nptr).2 (m.insert key nptr) := by
  have hupd : nt.update hash keyEqual key nptr =
      ((false, nil),
        { nt with
          slowHT := nt.slowHT.insert (hash key) [encodePointer nptr false]
          fastHT := nt.fastHT.insert (hash key) (encodePointer (decodePointer v) true)
          conflicts := nt.conflicts + 1
          slowHTCount := nt.slowHTCount + 1 }) := by
    rw [NodeTable.update, find_of_lookup_none hR hK hk]
    simp [hf, hs, ntFoundMask, ntNotFound, emptyResult]
  rw [hupd]
  refine ⟨rfl, hR.of_bucket (h := hash key) (fun _ hh => lookup_insert_ne_of_ne hh _)
    (fun _ hh => lookup_insert_ne_of_ne hh _) (fun _ hh => stored_insert_of_ne (Ne.symm hh) nptr)
    ?_ ?_ ?_ ?_ ?_ (hR.map.insert hK hp hkey)⟩
  · refine ⟨fun w hw => ?_, fun hnone => by simp at hnone, by simp⟩
    rw [AList.lookup_insert, Option.some_inj] at hw
    rw [← hw, hasConflict_encodePointer (toNat_decodePointer_lt v)]
    simp
  · -- the fast entry gets its first overflow pointer
    have hc := hR.chains (hash key)
    rw [hf, hs, decode_chain_some, Option.getD_none, List.map_nil] at hc
    rw [AList.lookup_insert, AList.lookup_insert, decode_chain_some, Option.getD_some,
      List.map_singleton, decodePointer_encodePointer hp.2,
      decodePointer_encodePointer (toNat_decodePointer_lt v), stored_insert_of_lookup_none hk]
    exact ChainOk.append (L := [decodePointer v]) hc fun hS => by
      rw [lookup_of_stored hK hkey hS] at hk
      cases hk
  · rw [hR.fastHTCount, length_keys_insert_of_mem (mem_of_lookup_eq_some hf)]
  · show nt.fastHTCount + (nt.slowHTCount + 1) = _
    rw [length_keys_insert_of_not_mem (not_mem_of_lookup_eq_none hk), ofNat_succ, ← hR.items]
    grind
  · show nt.conflicts + 1 = _
    rw [hR.conflicts, length_keys_insert_of_not_mem (not_mem_of_lookup_eq_none hs), ofNat_succ]

theorem update_insert_conflict (hR : Represents hash nt m) (hK : KeyEqualAgrees keyEqual m)
    {nptr : Pointer} (hp : ValidPointer nptr) (hkey : keyEqual nptr key = true)
    (hk : m.lookup key = none) {v : UInt64} (hf : nt.fastHT.lookup (hash key) = some v)
    {vs : List UInt64} (hs : nt.slowHT.lookup (hash key) = some vs) :
    (nt.update hash keyEqual key nptr).1 = (false, nil) ∧
      Represents hash (nt.update hash keyEqual key nptr).2 (m.insert key nptr) := by
  have hupd : nt.update hash keyEqual key nptr =
      ((false, nil),
        { nt with
          slowHT := nt.slowHT.insert (hash key) (vs ++ [encodePointer nptr false])
          slowHTCount := nt.slowHTCount + 1 }) := by
    rw [NodeTable.update, find_of_lookup_none hR hK hk]
    simp [hf, hs, ntFoundMask, ntNotFound, emptyResult]
  rw [hupd]
  have hsh := hR.shapes (hash key)
  refine ⟨rfl, hR.of_bucket (h := hash key) (fun _ _ => rfl)
    (fun _ hh => lookup_insert_ne_of_ne hh _) (fun _ hh => stored_insert_of_ne (Ne.symm hh) nptr)
    ?_ ?_ hR.fastHTCount ?_ ?_ (hR.map.insert hK hp hkey)⟩
  · refine ⟨fun w hw => ?_, fun hnone => by simp [hf] at hnone, by simp⟩
    simp only [hf, Option.some_inj] at hw
    rw [← hw, hsh.conflict v hf, hs]
    simp
  · -- the new pointer goes to the end of the overflow list
    have hc := hR.chains (hash key)
    rw [hf, hs, decode_chain_some, Option.getD_some] at hc
    rw [hf, AList.lookup_insert, decode_chain_some, Option.getD_some, List.map_append,
      List.map_singleton, decodePointer_encodePointer hp.2, ← List.cons_append,
      stored_insert_of_lookup_none hk]
    exact ChainOk.append hc fun hS => by
      rw [lookup_of_stored hK hkey hS] at hk
      cases hk
  · show nt.fastHTCount + (nt.slowHTCount + 1) = _
    rw [length_keys_insert_of_not_mem (not_mem_of_lookup_eq_none hk), ofNat_succ, ← hR.items]
    grind
  · rw [hR.conflicts, length_keys_insert_of_mem (mem_of_lookup_eq_some hs)]

/-- **`Update`** replies as the map does and keeps the representation. -/
theorem update_simulates (hR : Represents hash nt m) (hK : KeyEqualAgrees keyEqual m)
    {nptr : Pointer} (hp : ValidPointer nptr) (hkey : keyEqual nptr key = true) :
    (nt.update hash keyEqual key nptr).1 = ((m.lookup key).isSome, (m.lookup key).getD nil) ∧
      Represents hash (nt.update hash keyEqual key nptr).2 (m.insert key nptr) := by
  cases hk : m.lookup key with
  | some p =>
    obtain ⟨v, hf, ⟨hv, hfind⟩ | ⟨vs, i, hi, hs, hvs, -, hfind⟩⟩ := find_of_lookup_some hR hK hk
    · exact update_found_fast hR hK hp hkey hk hf hv hfind
    · exact update_found_slow hR hK hp hkey hk hf hi hs hvs hfind
  | none =>
    -- the three shapes of the key's bucket
    cases hf : nt.fastHT.lookup (hash key) with
    | none => exact update_insert_fast hR hK hp hkey hk hf
    | some v =>
      cases hs : nt.slowHT.lookup (hash key) with
      | none => exact update_insert_first_conflict hR hK hp hkey hk hf hs
      | some vs => exact update_insert_conflict hR hK hp hkey hk hf hs

/-! ### `Remove` -/

theorem erase_of_lookup_none (hk : m.lookup key = none) : m.erase key = m :=
  AList.ext (List.kerase_of_notMem_keys fun hmem => not_mem_of_lookup_eq_none hk hmem)

/-- The item counter after a key leaves. -/
theorem items_erase (hR : Represents hash nt m) {p : Pointer} (hk : m.lookup key = some p) :
    UInt64.ofNat (m.erase key).keys.length = nt.fastHTCount + nt.slowHTCount - 1 := by
  rw [ofNat_of_succ_eq (length_keys_erase_of_mem (mem_of_lookup_eq_some hk)), hR.items]

theorem remove_found_fast_alone (hR : Represents hash nt m) {p : Pointer}
    (hk : m.lookup key = some p) {v : UInt64} (hf : nt.fastHT.lookup (hash key) = some v)
    (hv : decodePointer v = p) (hs : nt.slowHT.lookup (hash key) = none)
    (hfind : nt.find hash keyEqual key =
      { emptyResult with
        hash := hash key, fastHTHasEntry := true
        hasConflict := (nt.slowHT.lookup (hash key)).isSome
        status := ntFoundInFast, fastHTValue := v }) :
    ∃ nt', nt.remove hash keyEqual key = some ((true, p), nt') ∧
      Represents hash nt' (m.erase key) := by
  refine ⟨{ nt with fastHT := nt.fastHT.erase (hash key), fastHTCount := nt.fastHTCount - 1 },
    ?_, ?_⟩
  · rw [NodeTable.remove, hfind]
    simp [hs, hv, ntFoundMask, ntFoundInFast]
  refine hR.of_bucket (h := hash key) (fun _ hh => AList.lookup_erase_ne hh) (fun _ _ => rfl)
    (fun _ hh => stored_erase_of_ne (Ne.symm hh)) ⟨fun w hw => ?_, fun _ => hs, by simp [hs]⟩
    ?_ ?_ ?_ hR.conflicts hR.map.erase
  · simp at hw
  · -- the key's chain was its fast entry alone
    have hc := hR.chains (hash key)
    rw [hf, hs, decode_chain_some, Option.getD_none, List.map_nil, hv] at hc
    rw [AList.lookup_erase, stored_erase_of_lookup_some hR.map hk]
    exact ChainOk.erase (A := []) (B := []) hc
  · show nt.fastHTCount - 1 = _
    rw [hR.fastHTCount, ← ofNat_of_succ_eq (length_keys_erase_of_mem (mem_of_lookup_eq_some hf))]
  · show nt.fastHTCount - 1 + nt.slowHTCount = _
    rw [items_erase hR hk]
    grind

theorem remove_found_fast_promote (hR : Represents hash nt m) {p : Pointer} (hk : m.lookup key = some p) {v : UInt64}
    (hf : nt.fastHT.lookup (hash key) = some v) (hv : decodePointer v = p)
    {w : UInt64} {rest : List UInt64} (hs : nt.slowHT.lookup (hash key) = some (w :: rest))
    (hfind : nt.find hash keyEqual key =
      { emptyResult with
        hash := hash key, fastHTHasEntry := true
        hasConflict := (nt.slowHT.lookup (hash key)).isSome
        status := ntFoundInFast, fastHTValue := v }) :
    ∃ nt', nt.remove hash keyEqual key = some ((true, p), nt') ∧
      Represents hash nt' (m.erase key) := by
  have hw := toNat_decodePointer_lt w
  -- the head of the overflow list becomes the fast entry
  have hc := hR.chains (hash key)
  rw [hf, hs, decode_chain_some, Option.getD_some, hv] at hc
  have hc' := ChainOk.erase (A := []) hc
  rw [← stored_erase_of_lookup_some hR.map hk] at hc'
  have hitems : ∀ nt' : NodeTable, nt'.fastHTCount = nt.fastHTCount →
      nt'.slowHTCount = nt.slowHTCount - 1 →
      nt'.fastHTCount + nt'.slowHTCount = UInt64.ofNat (m.erase key).keys.length := by
    intro nt' hfc hsc
    rw [hfc, hsc, items_erase hR hk]
    grind
  cases rest with
  | nil =>
    -- the overflow list empties: the new fast entry has no conflict
    refine ⟨{ nt with
        slowHT := nt.slowHT.erase (hash key), conflicts := nt.conflicts - 1
        slowHTCount := nt.slowHTCount - 1
        fastHT := nt.fastHT.insert (hash key) (encodePointer (decodePointer w) false) }, ?_, ?_⟩
    · rw [NodeTable.remove, hfind]
      simp [hs, hv, ntFoundMask, ntFoundInFast]
    refine hR.of_bucket (h := hash key) (fun _ hh => lookup_insert_ne_of_ne hh _)
      (fun _ hh => AList.lookup_erase_ne hh) (fun _ hh => stored_erase_of_ne (Ne.symm hh))
      ⟨fun u hu => ?_, fun hnone => by simp at hnone, by simp⟩ ?_ ?_ (hitems _ rfl rfl) ?_
      hR.map.erase
    · rw [AList.lookup_insert, Option.some_inj] at hu
      rw [← hu, hasConflict_encodePointer hw, AList.lookup_erase]
      rfl
    · simpa [decodePointer_encodePointer hw, chain] using hc'
    · rw [hR.fastHTCount, length_keys_insert_of_mem (mem_of_lookup_eq_some hf)]
    · show nt.conflicts - 1 = _
      rw [hR.conflicts, ← ofNat_of_succ_eq (length_keys_erase_of_mem (mem_of_lookup_eq_some hs))]
  | cons u rest =>
    refine ⟨{ nt with
        slowHT := nt.slowHT.insert (hash key) (u :: rest)
        slowHTCount := nt.slowHTCount - 1
        fastHT := nt.fastHT.insert (hash key) (encodePointer (decodePointer w) true) }, ?_, ?_⟩
    · rw [NodeTable.remove, hfind]
      simp [hs, hv, ntFoundMask, ntFoundInFast]
    refine hR.of_bucket (h := hash key) (fun _ hh => lookup_insert_ne_of_ne hh _)
      (fun _ hh => lookup_insert_ne_of_ne hh _) (fun _ hh => stored_erase_of_ne (Ne.symm hh))
      ⟨fun x hx => ?_, fun hnone => by simp at hnone, by simp⟩ ?_ ?_ (hitems _ rfl rfl) ?_
      hR.map.erase
    · rw [AList.lookup_insert, Option.some_inj] at hx
      rw [← hx, hasConflict_encodePointer hw, AList.lookup_insert]
      rfl
    · simpa [decodePointer_encodePointer hw, chain] using hc'
    · rw [hR.fastHTCount, length_keys_insert_of_mem (mem_of_lookup_eq_some hf)]
    · rw [hR.conflicts, length_keys_insert_of_mem (mem_of_lookup_eq_some hs)]

theorem remove_found_slow (hR : Represents hash nt m) {p : Pointer} (hk : m.lookup key = some p)
    {v : UInt64} (hf : nt.fastHT.lookup (hash key) = some v) {vs : List UInt64} {i : Nat}
    (hi : i < vs.length) (hs : nt.slowHT.lookup (hash key) = some vs)
    (hvs : decodePointer vs[i] = p)
    (hfind : nt.find hash keyEqual key =
      { emptyResult with
        hash := hash key, fastHTHasEntry := true, hasConflict := true
        status := ntFoundInSlow, slowHTValues := vs, slowHTPos := i }) :
    ∃ nt', nt.remove hash keyEqual key = some ((true, p), nt') ∧
      Represents hash nt' (m.erase key) := by
  -- `newSlowValue` is the overflow list without position `i`
  have hN : vs.take i ++ (if i + 1 != vs.length then vs.drop (i + 1) else []) =
      vs.take i ++ vs.drop (i + 1) := by
    split
    · rfl
    · rw [List.drop_eq_nil_of_le (by simp_all)]
  have hc := hR.chains (hash key)
  have hiL : i < (vs.map decodePointer).length := by rw [List.length_map]; exact hi
  rw [hf, hs, decode_chain_some, Option.getD_some, eq_take_cons_drop _ hiL, List.getElem_map,
    hvs, ← List.cons_append] at hc
  have hc' := ChainOk.erase hc
  rw [← stored_erase_of_lookup_some hR.map hk, List.cons_append, ← List.map_take,
    ← List.map_drop, ← List.map_append] at hc'
  have hitems : nt.fastHTCount + (nt.slowHTCount - 1) =
      UInt64.ofNat (m.erase key).keys.length := by
    rw [items_erase hR hk]
    grind
  have hsh := hR.shapes (hash key)
  by_cases hnil : vs.take i ++ vs.drop (i + 1) = []
  · -- the overflow list empties: clear the fast entry's conflict bit
    have hv := toNat_decodePointer_lt v
    refine ⟨{ nt with
        slowHTCount := nt.slowHTCount - 1, slowHT := nt.slowHT.erase (hash key)
        fastHT := nt.fastHT.insert (hash key) (encodePointer (decodePointer v) false)
        conflicts := nt.conflicts - 1 }, ?_, ?_⟩
    · rw [NodeTable.remove, hfind]
      dsimp only
      rw [hN, hnil]
      simp [hf, List.getElem?_eq_getElem hi, hvs, ntFoundMask, ntFoundInFast, ntFoundInSlow]
    refine hR.of_bucket (h := hash key) (fun _ hh => lookup_insert_ne_of_ne hh _)
      (fun _ hh => AList.lookup_erase_ne hh) (fun _ hh => stored_erase_of_ne (Ne.symm hh))
      ⟨fun u hu => ?_, fun hnone => by simp at hnone, by simp⟩ ?_ ?_ hitems ?_ hR.map.erase
    · rw [AList.lookup_insert, Option.some_inj] at hu
      rw [← hu, hasConflict_encodePointer hv, AList.lookup_erase]
      rfl
    · rw [hnil, List.map_nil] at hc'
      simpa [decodePointer_encodePointer hv, chain] using hc'
    · rw [hR.fastHTCount, length_keys_insert_of_mem (mem_of_lookup_eq_some hf)]
    · show nt.conflicts - 1 = _
      rw [hR.conflicts, ← ofNat_of_succ_eq (length_keys_erase_of_mem (mem_of_lookup_eq_some hs))]
  · refine ⟨{ nt with
        slowHTCount := nt.slowHTCount - 1
        slowHT := nt.slowHT.insert (hash key) (vs.take i ++ vs.drop (i + 1)) }, ?_, ?_⟩
    · rw [NodeTable.remove, hfind]
      have hcond : ((vs.take i ++ vs.drop (i + 1)).length == 0) = false :=
        beq_eq_false_iff_ne.2 fun h => hnil (List.length_eq_zero_iff.1 h)
      dsimp only
      rw [hN, hcond]
      simp [List.getElem?_eq_getElem hi, hvs, ntFoundMask, ntFoundInFast, ntFoundInSlow]
    refine hR.of_bucket (h := hash key) (fun _ _ => rfl)
      (fun _ hh => lookup_insert_ne_of_ne hh _) (fun _ hh => stored_erase_of_ne (Ne.symm hh))
      ⟨fun u hu => ?_, fun hnone => by simp [hf] at hnone, ?_⟩ ?_ hR.fastHTCount hitems ?_
      hR.map.erase
    · rw [hf, Option.some_inj] at hu
      rw [← hu, hsh.conflict v hf, hs, AList.lookup_insert]
      rfl
    · rw [AList.lookup_insert, ne_eq, Option.some_inj]
      exact hnil
    · simpa [chain, hf] using hc'
    · rw [hR.conflicts, length_keys_insert_of_mem (mem_of_lookup_eq_some hs)]

/-- **`Remove`** never panics, replies as the map does and keeps the representation. -/
theorem remove_simulates (hR : Represents hash nt m) (hK : KeyEqualAgrees keyEqual m) :
    ∃ nt', nt.remove hash keyEqual key =
        some (((m.lookup key).isSome, (m.lookup key).getD nil), nt') ∧
      Represents hash nt' (m.erase key) := by
  cases hk : m.lookup key with
  | none =>
    refine ⟨nt, ?_, by rw [erase_of_lookup_none hk]; exact hR⟩
    rw [NodeTable.remove, find_of_lookup_none hR hK hk]
    simp [emptyResult, ntNotFound, ntFoundMask]
  | some p =>
    obtain ⟨v, hf, ⟨hv, hfind⟩ | ⟨vs, i, hi, hs, hvs, -, hfind⟩⟩ := find_of_lookup_some hR hK hk
    · -- found in the fast table: alone, or with an overflow list to promote from
      cases hs : nt.slowHT.lookup (hash key) with
      | none => exact remove_found_fast_alone hR hk hf hv hs hfind
      | some vs =>
        cases vs with
        | nil => exact absurd hs (hR.shapes (hash key)).slow_ne_nil
        | cons w rest => exact remove_found_fast_promote hR hk hf hv hs hfind
    · exact remove_found_slow hR hk hf hi hs hvs hfind

/-! ### `Get`, `ItemsCount`, `Close` -/

/-- **`Get`** is the map's lookup. -/
theorem get_eq_lookup (hR : Represents hash nt m) (hK : KeyEqualAgrees keyEqual m) :
    nt.get hash keyEqual key = (m.lookup key).getD nil := by
  cases hk : m.lookup key with
  | none =>
    rw [NodeTable.get, find_of_lookup_none hR hK hk]
    simp [emptyResult, ntNotFound, ntFoundMask]
  | some p =>
    obtain ⟨v, -, ⟨hv, hfind⟩ | ⟨vs, i, hi, -, hvs, -, hfind⟩⟩ := find_of_lookup_some hR hK hk
    · rw [NodeTable.get, hfind]
      simp [hv, ntFoundMask, ntFoundInFast]
    · rw [NodeTable.get, hfind]
      simp [List.getElem?_eq_getElem hi, hvs, ntFoundMask, ntFoundInFast, ntFoundInSlow]

/-- **`ItemsCount`** is the number of keys: the `uint64` sum does not wrap, and its `int64`
is not negative, since there are fewer keys than heap pointers. -/
theorem itemsCount_toInt (hR : Represents hash nt m) : nt.itemsCount.toInt = m.keys.length := by
  have hlt := hR.map.length_keys_lt
  rw [NodeTable.itemsCount, ← Int64.toInt_toBitVec, UInt64.toBitVec_toInt64, hR.items,
    BitVec.toInt_eq_toNat_of_lt]
  · simp only [UInt64.toNat_toBitVec, UInt64.toNat_ofNat']
    omega
  · simp only [UInt64.toNat_toBitVec, UInt64.toNat_ofNat']
    omega

theorem represents_new (hash : HashFn K) : Represents hash NodeTable.new (∅ : PtrMap K) := by
  refine ⟨fun h => ⟨fun v hv => ?_, fun _ => ?_, ?_⟩, fun h => ⟨List.nodup_nil, fun p => ?_⟩,
    rfl, rfl, rfl, mapInv_empty⟩
  all_goals simp_all [NodeTable.new, chain, Stored]

end Steps

/-! ## §8 — whole runs -/

/-- **One call**: the table replies as the map does, and keeps representing it. -/
theorem tableStep_simulates (hash : HashFn K) :
    Simulation.StepSimulates (Represents hash) (tableStep hash) mapStep CallOk := by
  rintro nt m ⟨keyEqual, op⟩ hR hok
  cases op with
  | get key => exact ⟨nt, by simp [tableStep, mapStep, get_eq_lookup hR hok], hR⟩
  | update key nptr =>
    obtain ⟨hK, hp, hkey⟩ := hok
    obtain ⟨hreply, hR'⟩ := update_simulates hR hK hp hkey
    exact ⟨_, by simp [tableStep, mapStep, hreply], hR'⟩
  | remove key =>
    obtain ⟨nt', hrem, hR'⟩ := remove_simulates hR hok
    exact ⟨nt', by simp [tableStep, mapStep, hrem], hR'⟩
  | itemsCount => exact ⟨nt, by simp [tableStep, mapStep, itemsCount_toInt hR], hR⟩
  | close => exact ⟨NodeTable.new, rfl, represents_new hash⟩

/-- What the calls leave under `k`, from `acc`: the pointer of the last `Update(k, _)` with no
`Remove(k)` or `Close` after it. -/
def lastPtr (k : K) (acc : Option Pointer) : Op K → Option Pointer
  | .update k' p => if k' = k then some p else acc
  | .remove k' => if k' = k then none else acc
  | .close => none
  | _ => acc

theorem lookup_mapStep (m : PtrMap K) (c : Call K) (k : K) :
    (mapStep m c).2.lookup k = lastPtr k (m.lookup k) c.2 := by
  obtain ⟨keyEqual, op⟩ := c
  cases op with
  | update k' p =>
    by_cases hk : k' = k
    · subst hk
      simp [mapStep, lastPtr]
    · simp [mapStep, lastPtr, hk, AList.lookup_insert_ne (Ne.symm hk)]
  | remove k' =>
    by_cases hk : k' = k
    · subst hk
      simp [mapStep, lastPtr]
    · simp [mapStep, lastPtr, hk, AList.lookup_erase_ne (Ne.symm hk)]
  | get _ | itemsCount => rfl
  | close => simp [mapStep, lastPtr]

theorem lookup_runSpec (calls : List (Call K)) (m : PtrMap K) (k : K) :
    (Simulation.runSpec mapStep m calls).2.lookup k =
      calls.foldl (fun acc c => lastPtr k acc c.2) (m.lookup k) := by
  induction calls generalizing m with
  | nil => rfl
  | cons c calls ih =>
    rw [Simulation.runSpec, List.foldl_cons, ← lookup_mapStep]
    exact ih _

/-- **The node table refines a finite map.** From `New`, every admissible sequence of calls
runs without a panic, each reply is the map's (so `Get`, the reports of `Update` and `Remove`,
and `ItemsCount` are the lookup, the presence and the size of the map at that call), the table
ends up representing the map, and the map stores under each key the pointer of its last
`Update` not followed by a `Remove`. -/
theorem nodeTable_refines_map (hash : HashFn K) (calls : List (Call K))
    (hadm : Simulation.Admissible mapStep CallOk ∅ calls) :
    ∃ nt, Simulation.run (tableStep hash) NodeTable.new calls =
        some ((Simulation.runSpec mapStep ∅ calls).1, nt) ∧
      Represents hash nt (Simulation.runSpec mapStep ∅ calls).2 ∧
      ∀ k, (Simulation.runSpec mapStep ∅ calls).2.lookup k =
        calls.foldl (fun acc c => lastPtr k acc c.2) none := by
  obtain ⟨nt, hrun, hR⟩ := Simulation.run_simulates (Represents hash) (tableStep_simulates hash)
    calls NodeTable.new ∅ (represents_new hash) hadm
  refine ⟨nt, hrun, hR, fun k => ?_⟩
  rw [lookup_runSpec, AList.lookup_empty]

/-- Two keys of one hash, the second updated, the first removed. -/
def collidingCalls : List (Call Bool) :=
  let keyEqual : EqualKeyFn Bool := fun p k => p == if k then 16 else 8
  [(keyEqual, .update false 8), (keyEqual, .update true 16), (keyEqual, .update true 16),
   (keyEqual, .remove false), (keyEqual, .get true), (keyEqual, .itemsCount)]

theorem nodeTable_refines_map_colliding :
    Simulation.Admissible mapStep CallOk ∅ collidingCalls ∧
      ∃ nt, Simulation.run (tableStep fun _ => 7) NodeTable.new collidingCalls =
          some ((Simulation.runSpec mapStep ∅ collidingCalls).1, nt) ∧
        Represents (fun _ => 7) nt (Simulation.runSpec mapStep ∅ collidingCalls).2 ∧
        ∀ k, (Simulation.runSpec mapStep ∅ collidingCalls).2.lookup k =
          collidingCalls.foldl (fun acc c => lastPtr k acc c.2) none :=
  ⟨by decide, nodeTable_refines_map (fun _ => 7) collidingCalls (by decide)⟩

end Memdb.Nodetable
