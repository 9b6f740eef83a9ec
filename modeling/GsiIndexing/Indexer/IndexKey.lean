import Mathlib.Order.RelClasses
import GsiIndexing.Go.Strconv

/-!
# Keys of a primary index (`index_entry.go`)

A scan of a primary index is bounded by `IndexKey`s: a docid (`primaryKey`), or for an open
end one of the two `NilIndexKey`s, `MinIndexKey` and `MaxIndexKey`. `ComparePrefixIndexKey`
orders keys: `MinIndexKey` below every docid, `MaxIndexKey` above, docids by `bytes.Compare`.
`Compare` places a key against an index entry, which for a primary index is the docid itself.

* **`linearOrder`** — `ComparePrefixIndexKey` is a linear order on keys; the proofs about
  scans read its comparisons as `<`, `=` and `>` of that order.
* **`compareEntry_eq`** — a key against an entry compares as against the entry's docid key.
-/

namespace Indexer

open Go

/-- `bytes.Compare`: -1, 0 or +1 as `a` sorts before, with or after `b`. -/
def bytesCompare (a b : Bytes) : Int :=
  match compare a b with
  | .lt => -1
  | .eq => 0
  | .gt => 1

/-- The two `NilIndexKey`s. -/
inductive NilIndexKey where
  | minIndexKey
  | maxIndexKey
  deriving DecidableEq, Repr

/-- `NilIndexKey.cmp`, the comparison with an index entry. -/
def NilIndexKey.cmp : NilIndexKey → Int
  | .minIndexKey => -1
  | .maxIndexKey => 1

/-- `NilIndexKey.pcmp`, the comparison with a key that is not a `NilIndexKey`. -/
def NilIndexKey.pcmp : NilIndexKey → Int
  | .minIndexKey => -1
  | .maxIndexKey => 1

/-- `IndexKey` of a primary index: a `NilIndexKey` or a `primaryKey`. -/
inductive IndexKey where
  | nil (k : NilIndexKey)
  | primaryKey (docid : Bytes)
  deriving DecidableEq, Repr

/-- `MinIndexKey`. -/
def minIndexKey : IndexKey := .nil .minIndexKey

/-- `MaxIndexKey`. -/
def maxIndexKey : IndexKey := .nil .maxIndexKey

/-- `ComparePrefixIndexKey`. Two `NilIndexKey`s compare their `pcmp`s; a `NilIndexKey`
against a `primaryKey` answers its own `pcmp`, and the `primaryKey` the negated `pcmp` of the
other; two `primaryKey`s compare by `bytes.Compare`. -/
def comparePrefixIndexKey : IndexKey → IndexKey → Int
  | .nil k, .nil key => if k.pcmp < key.pcmp then -1 else if k.pcmp = key.pcmp then 0 else 1
  | .nil k, .primaryKey _ => k.pcmp
  | .primaryKey _, .nil key => key.pcmp * -1
  | .primaryKey k, .primaryKey k1 => bytesCompare k k1

/-- `IndexKey.Compare` with an entry of a primary index, whose bytes are its docid. -/
def IndexKey.compareEntry : IndexKey → Bytes → Int
  | .nil k, _ => k.cmp
  | .primaryKey k, entry => bytesCompare k entry

section Bytes

variable {a b c : Bytes}

theorem bytesCompare_neg_iff : bytesCompare a b < 0 ↔ compare a b = .lt := by
  unfold bytesCompare
  cases compare a b <;> simp

theorem bytesCompare_eq_zero_iff : bytesCompare a b = 0 ↔ a = b := by
  rw [← Std.LawfulEqOrd.compare_eq_iff_eq (a := a) (b := b)]
  unfold bytesCompare
  cases compare a b <;> simp

theorem bytesCompare_swap (a b : Bytes) : bytesCompare b a = -bytesCompare a b := by
  unfold bytesCompare
  rw [Std.OrientedOrd.eq_swap (a := b)]
  cases compare a b <;> rfl

end Bytes

section Order

variable {a b c : IndexKey}

@[simp] theorem comparePrefixIndexKey_self (a : IndexKey) : comparePrefixIndexKey a a = 0 := by
  rcases a with k | k
  · simp [comparePrefixIndexKey]
  · exact bytesCompare_eq_zero_iff.mpr rfl

theorem comparePrefixIndexKey_swap (a b : IndexKey) :
    comparePrefixIndexKey b a = -comparePrefixIndexKey a b := by
  rcases a with ⟨_ | _⟩ | a <;> rcases b with ⟨_ | _⟩ | b <;>
    first
    | exact bytesCompare_swap a b
    | simp [comparePrefixIndexKey, NilIndexKey.pcmp]

theorem eq_of_comparePrefixIndexKey_eq_zero (h : comparePrefixIndexKey a b = 0) : a = b := by
  rcases a with ⟨_ | _⟩ | a <;> rcases b with ⟨_ | _⟩ | b <;>
    simp_all [comparePrefixIndexKey, NilIndexKey.pcmp, bytesCompare_eq_zero_iff]

theorem comparePrefixIndexKey_trans (hab : comparePrefixIndexKey a b < 0)
    (hbc : comparePrefixIndexKey b c < 0) : comparePrefixIndexKey a c < 0 := by
  rcases a with ⟨_ | _⟩ | a <;> rcases b with ⟨_ | _⟩ | b <;> rcases c with ⟨_ | _⟩ | c <;>
    simp_all [comparePrefixIndexKey, NilIndexKey.pcmp, bytesCompare_neg_iff]
  -- three docids: the byte order is transitive
  exact Std.TransCmp.lt_trans hab hbc

instance : IsStrictTotalOrder IndexKey fun a b => comparePrefixIndexKey a b < 0 where
  trichotomous a b hab hba := by
    rw [comparePrefixIndexKey_swap] at hba
    exact eq_of_comparePrefixIndexKey_eq_zero (by omega)
  irrefl a := by simp
  trans _ _ _ := comparePrefixIndexKey_trans

/-- Keys in the order of `ComparePrefixIndexKey`. -/
instance linearOrder : LinearOrder IndexKey :=
  linearOrderOfSTO fun a b => comparePrefixIndexKey a b < 0

theorem lt_iff_comparePrefixIndexKey : a < b ↔ comparePrefixIndexKey a b < 0 := Iff.rfl

theorem gt_iff_comparePrefixIndexKey : b < a ↔ comparePrefixIndexKey a b > 0 := by
  rw [lt_iff_comparePrefixIndexKey, comparePrefixIndexKey_swap]
  omega

theorem eq_iff_comparePrefixIndexKey : a = b ↔ comparePrefixIndexKey a b = 0 :=
  ⟨fun h => h ▸ comparePrefixIndexKey_self a, eq_of_comparePrefixIndexKey_eq_zero⟩

theorem le_iff_comparePrefixIndexKey : a ≤ b ↔ comparePrefixIndexKey a b ≤ 0 := by
  rw [le_iff_lt_or_eq, lt_iff_comparePrefixIndexKey, eq_iff_comparePrefixIndexKey]
  omega

/-- Docid keys are ordered as their bytes. -/
theorem primaryKey_lt_primaryKey {d d' : Bytes} :
    IndexKey.primaryKey d < .primaryKey d' ↔ compare d d' = .lt :=
  bytesCompare_neg_iff

/-- **A key against an entry** compares as against the key of the entry's docid. -/
theorem compareEntry_eq (k : IndexKey) (d : Bytes) :
    k.compareEntry d = comparePrefixIndexKey k (.primaryKey d) := by
  rcases k with ⟨_ | _⟩ | k <;> rfl

end Order

end Indexer
