import Mathlib.Data.List.AList
import Mathlib.Algebra.Group.Nat.Defs
import Mathlib.Data.UInt

/-!
# The node lookup table of memdb (`memdb/nodetable`)

A `NodeTable` maps keys to pointers to skiplist nodes through two Go maps. `fastHT` maps the
hash of a key to one encoded pointer; when several keys share a hash, the others go to the
list `slowHT[h]`, and bit 63 of `fastHT[h]` (the conflict bit) says that this list exists.
`find` looks a key up: the fast entry first, then the list in order, each candidate checked
with `keyEqual` on the node it points to.

The model keeps the two maps as `AList`s (a Go map has no order, and no function here reads
one), the three counters as `uint64`, and pointers as their `uintptr` on a 64-bit platform.
The hash function and `keyEqual` are arguments of each operation: `keyEqual` reads the node's
memory, so what it answers is the heap's at the time of the call.

`logging.Fatalf` only logs, so the consistency checks of `Update` and `Remove` that call it
change nothing and are left out; `hasNil` is used by those checks alone. `Remove` indexes
`slowHT[h][0]` without a check, so it returns `none` where Go would panic.
-/

namespace Memdb.Nodetable

/-- `unsafe.Pointer`, as its `uintptr`. -/
abbrev Pointer := UInt64

/-- The `nil` pointer. -/
def nil : Pointer := 0

/-- `HashFn`. -/
abbrev HashFn (K : Type) := K → UInt32

/-- `EqualKeyFn`: whether the node a pointer designates holds a key. -/
abbrev EqualKeyFn (K : Type) := Pointer → K → Bool

def ntNotFound : Nat := 0x00
def ntFoundInFast : Nat := 0x01
def ntFoundInSlow : Nat := 0x03
def ntFoundMask : Nat := 0x01

/-- `ntResult`. -/
structure NtResult where
  status : Nat
  hash : UInt32
  hasConflict : Bool
  fastHTHasEntry : Bool
  fastHTValue : UInt64
  slowHTValues : List UInt64
  slowHTPos : Nat
  deriving DecidableEq, Repr

/-- `emptyResult`, the zero `ntResult`. -/
def emptyResult : NtResult := ⟨ntNotFound, 0, false, false, 0, [], 0⟩

/-- `NodeTable` without its hash function and `keyEqual` (arguments of the operations here)
and its scratch `res`. -/
structure NodeTable where
  fastHT : AList (fun _ : UInt32 => UInt64)
  slowHT : AList (fun _ : UInt32 => List UInt64)
  fastHTCount : UInt64
  slowHTCount : UInt64
  conflicts : UInt64

/-- `New`. -/
def NodeTable.new : NodeTable := ⟨∅, ∅, 0, 0, 0⟩

/-- `decodePointer` on a 64-bit platform: the value without the conflict bit. -/
def decodePointer (v : UInt64) : Pointer := v &&& ~~~((1 : UInt64) <<< 63)

/-- `encodePointer`. -/
def encodePointer (p : Pointer) (hasConflict : Bool) : UInt64 :=
  if hasConflict then p ||| (1 : UInt64) <<< 63 else p

/-- `NodeTable.hasConflict`. -/
def hasConflict (v : UInt64) : Bool := v >>> 63 == 1

variable {K : Type} (hash : HashFn K) (keyEqual : EqualKeyFn K)

/-- `NodeTable.isEqual`. -/
def isEqual (key : K) (v : UInt64) : Bool := keyEqual (decodePointer v) key

namespace NodeTable

/-- `find`: the fast entry of the key's hash, then its overflow list in order when the fast
entry's conflict bit is set. -/
def find (nt : NodeTable) (key : K) : NtResult :=
  let h := hash key
  match nt.fastHT.lookup h with
  | none => { emptyResult with hash := h }
  | some v =>
    let res : NtResult :=
      { emptyResult with hash := h, fastHTHasEntry := true, hasConflict := hasConflict v }
    if isEqual keyEqual key v then { res with status := ntFoundInFast, fastHTValue := v }
    else if res.hasConflict then
      match nt.slowHT.lookup h with
      | none => res
      | some vs =>
        match vs.findIdx? (isEqual keyEqual key) with
        | some i => { res with slowHTPos := i, slowHTValues := vs, status := ntFoundInSlow }
        | none => res
    else res

/-- `Get`. The position `find` returns is inside its list (`find_slowHTPos_lt`), where Go
would otherwise panic. -/
def get (nt : NodeTable) (key : K) : Pointer :=
  let res := nt.find hash keyEqual key
  if res.status &&& ntFoundMask == ntFoundMask then
    if res.status == ntFoundInFast then decodePointer res.fastHTValue
    else decodePointer (res.slowHTValues.getD res.slowHTPos 0)
  else nil

/-- `Update`: `(updated, oldPtr)` and the table after it. In the overflow list the new value
is written with the conflict bit set, as Go does. -/
def update (nt : NodeTable) (key : K) (nptr : Pointer) : (Bool × Pointer) × NodeTable :=
  let res := nt.find hash keyEqual key
  if res.status &&& ntFoundMask == ntFoundMask then
    if res.status == ntFoundInFast then
      ((true, decodePointer res.fastHTValue),
        { nt with fastHT := nt.fastHT.insert res.hash (encodePointer nptr res.hasConflict) })
    else
      -- `res.slowHTValues` shares its array with `slowHT[h]`: the write changes the map
      let slowHTValues := res.slowHTValues.set res.slowHTPos (encodePointer nptr true)
      ((true, decodePointer (res.slowHTValues.getD res.slowHTPos 0)),
        { nt with slowHT := nt.slowHT.insert res.hash slowHTValues })
  else
    let newSlowValue := res.fastHTHasEntry && !res.hasConflict
    if res.hasConflict || newSlowValue then
      let slowHTValues := (nt.slowHT.lookup res.hash).getD [] ++ [encodePointer nptr false]
      let nt := { nt with slowHT := nt.slowHT.insert res.hash slowHTValues }
      -- the first key after the fast one: mark the fast entry's conflict bit
      let nt :=
        if newSlowValue then
          let oldFastPtr := decodePointer ((nt.fastHT.lookup res.hash).getD 0)
          { nt with fastHT := nt.fastHT.insert res.hash (encodePointer oldFastPtr true),
                    conflicts := nt.conflicts + 1 }
        else nt
      ((false, nil), { nt with slowHTCount := nt.slowHTCount + 1 })
    else
      ((false, nil), { nt with fastHT := nt.fastHT.insert res.hash (encodePointer nptr false),
                               fastHTCount := nt.fastHTCount + 1 })

/-- `Remove`: `(success, nptr)` and the table after it, or `none` where `slowHTValues[0]`
would panic. The fast entry of a removed key is replaced by the head of the overflow list. -/
def remove (nt : NodeTable) (key : K) : Option ((Bool × Pointer) × NodeTable) :=
  let res := nt.find hash keyEqual key
  if res.status &&& ntFoundMask == ntFoundMask then
    if res.status == ntFoundInFast then
      let nptr := decodePointer res.fastHTValue
      if res.hasConflict then
        match (nt.slowHT.lookup res.hash).getD [] with
        | [] => none
        | v :: slowHTValues =>
          let conflict := slowHTValues.length != 0
          let slowHT :=
            if conflict then nt.slowHT.insert res.hash slowHTValues else nt.slowHT.erase res.hash
          let conflicts := if conflict then nt.conflicts else nt.conflicts - 1
          some ((true, nptr),
            { nt with slowHT := slowHT, conflicts := conflicts, slowHTCount := nt.slowHTCount - 1,
                      fastHT := nt.fastHT.insert res.hash (encodePointer (decodePointer v) conflict) })
      else
        some ((true, nptr), { nt with fastHT := nt.fastHT.erase res.hash,
                                      fastHTCount := nt.fastHTCount - 1 })
    else
      let vs := res.slowHTValues
      let pos := res.slowHTPos
      let nptr := decodePointer (vs.getD pos 0)
      let newSlowValue := vs.take pos ++ (if pos + 1 != vs.length then vs.drop (pos + 1) else [])
      let nt := { nt with slowHTCount := nt.slowHTCount - 1 }
      if newSlowValue.length == 0 then
        -- the last overflow key is gone: clear the fast entry's conflict bit
        let fastPtr := decodePointer ((nt.fastHT.lookup res.hash).getD 0)
        some ((true, nptr), { nt with slowHT := nt.slowHT.erase res.hash,
                                      fastHT := nt.fastHT.insert res.hash (encodePointer fastPtr false),
                                      conflicts := nt.conflicts - 1 })
      else
        some ((true, nptr), { nt with slowHT := nt.slowHT.insert res.hash newSlowValue })
  else some ((false, nil), nt)

/-- `ItemsCount`. -/
def itemsCount (nt : NodeTable) : Int64 := (nt.fastHTCount + nt.slowHTCount).toInt64

/-- `Close`: empty maps and zero counters. -/
def close (_ : NodeTable) : NodeTable :=
  { fastHTCount := 0, slowHTCount := 0, conflicts := 0, fastHT := ∅, slowHT := ∅ }

end NodeTable

/-! ## The conflict bit

Pointers of the heap lie below `2 ^ 63`, so the conflict bit never meets a pointer's own
bits. -/

theorem toNat_decodePointer (v : UInt64) : (decodePointer v).toNat = v.toNat % 2 ^ 63 := by
  have hmask : ~~~((1 : UInt64) <<< 63) = 0x7FFFFFFFFFFFFFFF := by decide
  rw [decodePointer, hmask, UInt64.toNat_and, show (0x7FFFFFFFFFFFFFFF : UInt64).toNat = 2 ^ 63 - 1
    from rfl, Nat.and_two_pow_sub_one_eq_mod]

theorem toNat_decodePointer_lt (v : UInt64) : (decodePointer v).toNat < 2 ^ 63 := by
  rw [toNat_decodePointer]
  exact Nat.mod_lt _ (Nat.two_pow_pos 63)

/-- Setting the conflict bit of a pointer adds `2 ^ 63`. -/
theorem toNat_encodePointer {p : Pointer} (hp : p.toNat < 2 ^ 63) (c : Bool) :
    (encodePointer p c).toNat = p.toNat + if c then 2 ^ 63 else 0 := by
  cases c with
  | false => simp [encodePointer]
  | true =>
    have hbit : ((1 : UInt64) <<< 63).toNat = 2 ^ 63 := by decide
    have hor := Nat.two_pow_add_eq_or_of_lt hp 1
    rw [Nat.mul_one] at hor
    simp only [encodePointer, if_true, UInt64.toNat_or, hbit]
    rw [Nat.or_comm]
    omega

theorem decodePointer_encodePointer {p : Pointer} (hp : p.toNat < 2 ^ 63) (c : Bool) :
    decodePointer (encodePointer p c) = p := by
  apply UInt64.toNat_inj.1
  rw [toNat_decodePointer, toNat_encodePointer hp]
  split <;> omega

theorem hasConflict_encodePointer {p : Pointer} (hp : p.toNat < 2 ^ 63) (c : Bool) :
    hasConflict (encodePointer p c) = c := by
  -- bit 63 is the quotient by `2 ^ 63`
  have hshift : (encodePointer p c >>> 63).toNat = (encodePointer p c).toNat / 2 ^ 63 := by
    rw [UInt64.toNat_shiftRight, Nat.shiftRight_eq_div_pow]
    rfl
  rw [toNat_encodePointer hp] at hshift
  cases c with
  | false =>
    have h0 : encodePointer p false >>> 63 = 0 := UInt64.toNat_inj.1 (by simp only [hshift]; simp; omega)
    simp [hasConflict, h0]
  | true =>
    have h1 : encodePointer p true >>> 63 = 1 := UInt64.toNat_inj.1 (by simp only [hshift]; simp; omega)
    simp [hasConflict, h1]

end Memdb.Nodetable
