import Mathlib.Algebra.BigOperators.Ring.List
import Mathlib.Algebra.Order.Group.Nat
import Mathlib.Tactic.Ring
import Mathlib.Algebra.Order.BigOperators.Group.List
import Mathlib.Data.UInt

/-!
# Metering bytes in the ratio of variants (`indexer/metering_enterprise.go`)

An array index meters the bytes it writes for a document as updates and inserts, in the ratio
of the entries it updates and inserts. `SetVarRatio` takes the ratio map and its sum `S`;
`AddBytesInVarRatio` adds bytes to a pending count, and once that reaches `S` passes each
variant its ratio times the whole multiples of `S` in it, keeping the remainder pending;
`FinishAddsInVarRatio` passes each variant but the last its floor share of the remainder, and
the last what is left. Both divide by `S`, and Go panics on a division by zero: the model
answers `none` there.

A Go map is modelled by its entries in the order a loop over it visits them; the results below
hold for every order, and the variant a loop visits last is the list's last. The sums and
products are `uint64` arithmetic. `AddVariantBytes` is taken to add up the bytes per variant:
the model keeps the amounts passed to `AddBytesOfVarType`.

* **`addBytesInVarRatio_eq_none_iff`** / **`finishAddsInVarRatio_eq_none_iff`** — when they
  panic: on a zero sum, and for the finish only with two variants or more.
* **`AddsInv.add`** / **`AddsInv.run`** — after metering `P` bytes the remainder of `P` by `S`
  is pending and each variant has been passed its ratio times `P / S`.
* **`meterInVarRatio_split`** — with the sum and its products with the ratios below `2^64`,
  nothing panics, and the variants are passed `B` bytes in all, each but the last `B * r / S`.
* **`meterInVarRatio_overflow`** — with ratios of `2^40` the remainder times a ratio wraps
  around, and the first variant is passed far less than its share.
-/

namespace Indexer

/-- The variants of an array index's writes that its ratio map holds. -/
inductive UnitType where
  | indexWriteUpdateVariant
  | indexWriteInsertVariant
  deriving DecidableEq, Repr

variable {V : Type}

/-- `AggregateRecorder`, with the fields the ratio functions use, and the amounts passed to
`AddBytesOfVarType` in order. -/
structure AggregateRecorder (V : Type) where
  bytesToMeter : UInt64
  sumOfOps : UInt64
  variantRatio : Option (List (V × UInt64))
  added : List (UInt64 × V)

namespace AggregateRecorder

/-- A recorder as `StartWriteAggregateRecorder` makes it: nothing pending, no ratio map. -/
def new : AggregateRecorder V := ⟨0, 0, none, []⟩

/-- `AddBytesOfVarType`. -/
def addBytesOfVarType (ag : AggregateRecorder V) (bytes : UInt64) (variant : V) :
    AggregateRecorder V :=
  { ag with added := ag.added ++ [(bytes, variant)] }

/-- `SetVarRatio`: the map, and the sum of its ratios. -/
def setVarRatio (ag : AggregateRecorder V) (variantRatio : List (V × UInt64)) :
    AggregateRecorder V :=
  { ag with
    variantRatio := some variantRatio
    sumOfOps := variantRatio.foldl (fun sumOfOps r => sumOfOps + r.2) 0 }

/-- The loop of `AddBytesInVarRatio` over the map: `m` times each variant's ratio. -/
def addMultiple (ag : AggregateRecorder V) (m : UInt64) (variantRatio : List (V × UInt64)) :
    AggregateRecorder V :=
  variantRatio.foldl (fun ag r => ag.addBytesOfVarType (m * r.2) r.1) ag

/-- `AddBytesInVarRatio`; `none` where it divides by a zero `sumOfOps`, which panics in Go. -/
def addBytesInVarRatio (ag : AggregateRecorder V) (bytesToMeter : UInt64) :
    Option (AggregateRecorder V) :=
  match ag.variantRatio with
  | none => some ag
  | some variantRatio =>
    if bytesToMeter = 0 then some ag
    else
      let ag := { ag with bytesToMeter := ag.bytesToMeter + bytesToMeter }
      if ag.bytesToMeter < ag.sumOfOps then some ag
      else if ag.sumOfOps = 0 then none
      else
        let m := ag.bytesToMeter / ag.sumOfOps
        let ag := ag.addMultiple m variantRatio
        some { ag with bytesToMeter := ag.bytesToMeter % ag.sumOfOps }

/-- The loop of `FinishAddsInVarRatio` over the map, at index `i` of `n` with `remaining` bytes:
the last variant is passed what remains, the others their floor share, whose division by a
zero `sumOfOps` panics. -/
def finishLoop (ag : AggregateRecorder V) (n : Nat) :
    List (V × UInt64) → Nat → UInt64 → Option (AggregateRecorder V)
  | [], _, _ => some ag
  | (varType, contrib) :: rest, i, remaining =>
    if i = n - 1 then some (ag.addBytesOfVarType remaining varType)
    else if ag.sumOfOps = 0 then none
    else
      let numVarBytes := ag.bytesToMeter * contrib / ag.sumOfOps
      (ag.addBytesOfVarType numVarBytes varType).finishLoop n rest (i + 1) (remaining - numVarBytes)

/-- `FinishAddsInVarRatio`; `none` where it panics. -/
def finishAddsInVarRatio (ag : AggregateRecorder V) : Option (AggregateRecorder V) :=
  match ag.variantRatio with
  | none => some ag
  | some variantRatio =>
    if ag.bytesToMeter = 0 then some ag
    else ag.finishLoop variantRatio.length variantRatio 0 ag.bytesToMeter

end AggregateRecorder

/-- A recorder's life in `plasmaSlice`'s write of an array index entry: `SetVarRatio`, one
`AddBytesInVarRatio` per entry written, and `FinishAddsInVarRatio`; `none` where one of them
panics. -/
def meterInVarRatio (variantRatio : List (V × UInt64)) (bs : List UInt64) :
    Option (AggregateRecorder V) := do
  let ag ← bs.foldlM AggregateRecorder.addBytesInVarRatio
    (AggregateRecorder.new.setVarRatio variantRatio)
  ag.finishAddsInVarRatio

/-! ## Totals per variant -/

/-- The sum of the ratios, as a number (the `uint64` sum wraps around past `2^64`). -/
def sumOfRatios (variantRatio : List (V × UInt64)) : ℕ := (variantRatio.map fun r => r.2.toNat).sum

@[simp] theorem sumOfRatios_append (l l' : List (V × UInt64)) :
    sumOfRatios (l ++ l') = sumOfRatios l + sumOfRatios l' := by
  simp [sumOfRatios]

theorem le_sumOfRatios {variantRatio : List (V × UInt64)} {r : V × UInt64} (hr : r ∈ variantRatio) :
    r.2.toNat ≤ sumOfRatios variantRatio :=
  List.le_sum_of_mem (List.mem_map_of_mem hr)

/-- A positive sum whose products with the ratios stay below `2^64` stays below it too. -/
theorem sumOfRatios_lt {variantRatio : List (V × UInt64)} (hS : 0 < sumOfRatios variantRatio)
    (hover : ∀ r ∈ variantRatio, sumOfRatios variantRatio * r.2.toNat < 2 ^ 64) :
    sumOfRatios variantRatio < 2 ^ 64 := by
  obtain ⟨x, hx, hpos⟩ := List.exists_mem_ne_zero_of_sum_ne_zero (Nat.pos_iff_ne_zero.1 hS)
  obtain ⟨r, hr, rfl⟩ := List.mem_map.1 hx
  calc sumOfRatios variantRatio ≤ sumOfRatios variantRatio * r.2.toNat :=
        Nat.le_mul_of_pos_right _ (Nat.pos_of_ne_zero hpos)
    _ < 2 ^ 64 := hover r hr

theorem toNat_mul_of_lt {a b : UInt64} (h : a.toNat * b.toNat < 2 ^ 64) :
    (a * b).toNat = a.toNat * b.toNat := by
  rw [UInt64.toNat_mul, Nat.mod_eq_of_lt h]

/-- The `uint64` sum of the ratios is their sum modulo `2^64`. -/
theorem toNat_foldl_add (variantRatio : List (V × UInt64)) (s : UInt64) :
    (variantRatio.foldl (fun sumOfOps r => sumOfOps + r.2) s).toNat =
      (s.toNat + sumOfRatios variantRatio) % 2 ^ 64 := by
  induction variantRatio generalizing s with
  | nil => simp [sumOfRatios, Nat.mod_eq_of_lt (UInt64.toNat_lt s)]
  | cons r variantRatio ih =>
    rw [List.foldl_cons, ih, UInt64.toNat_add, Nat.mod_add_mod]
    simp [sumOfRatios, Nat.add_assoc]

/-- Whole multiples of `S` in `P + b` are those in `P` and those in what `P` leaves with `b`. -/
theorem add_div_split (P b : ℕ) {S : ℕ} (hS : 0 < S) : (P + b) / S = P / S + (P % S + b) / S := by
  have hP : P + b = (P % S + b) + S * (P / S) := by
    have := Nat.mod_add_div P S
    omega
  rw [hP, Nat.add_mul_div_left _ _ hS, Nat.add_comm]

/-- The floor share of `B` is the share of the whole multiples and of the remainder. -/
theorem mul_div_split (B r : ℕ) {S : ℕ} (hS : 0 < S) : B * r / S = r * (B / S) + B % S * r / S := by
  have hB : B * r = B % S * r + S * (B / S * r) := by
    conv_lhs => rw [← Nat.mod_add_div B S]
    rw [Nat.add_mul, Nat.mul_assoc]
  rw [hB, Nat.add_mul_div_left _ _ hS, Nat.add_comm, Nat.mul_comm (B / S)]

theorem sum_map_mul (variantRatio : List (V × UInt64)) {m : UInt64}
    (hm : ∀ r ∈ variantRatio, m.toNat * r.2.toNat < 2 ^ 64) :
    ((variantRatio.map fun r => (m * r.2, r.1)).map fun a => a.1.toNat).sum =
      m.toNat * sumOfRatios variantRatio := by
  have hpt : ((variantRatio.map fun r => (m * r.2, r.1)).map fun a => a.1.toNat) =
      variantRatio.map fun r => m.toNat * r.2.toNat := by
    rw [List.map_map]
    exact List.map_congr_left fun r hr => toNat_mul_of_lt (hm r hr)
  rw [hpt, sumOfRatios]
  exact List.sum_map_mul_left variantRatio (fun r => r.2.toNat) m.toNat

/-- Taking amounts in turn from `remaining`, none more than is left, leaves `remaining` less
their sum. -/
theorem toNat_foldl_sub {α : Type} (l : List α) (f : α → UInt64) (remaining : UInt64)
    (hle : (l.map fun a => (f a).toNat).sum ≤ remaining.toNat) :
    (l.foldl (fun remaining a => remaining - f a) remaining).toNat =
      remaining.toNat - (l.map fun a => (f a).toNat).sum := by
  induction l generalizing remaining with
  | nil => simp
  | cons a l ih =>
    simp only [List.map_cons, List.sum_cons] at hle
    have hfa : f a ≤ remaining := by
      rw [UInt64.le_iff_toNat_le]
      omega
    have hsub := UInt64.toNat_sub_of_le _ _ hfa
    rw [List.foldl_cons, ih _ (by omega), hsub, List.map_cons, List.sum_cons, Nat.sub_sub]

/-- The floor shares `R * r / S` of ratios summing to at most `S` sum to at most `R`. -/
theorem sum_shares_le (l : List (V × UInt64)) (R : ℕ) {S : ℕ} (hS : 0 < S)
    (hl : sumOfRatios l ≤ S) : (l.map fun r => R * r.2.toNat / S).sum ≤ R := by
  apply Nat.le_of_mul_le_mul_right _ hS
  calc (l.map fun r => R * r.2.toNat / S).sum * S
      = (l.map fun r => R * r.2.toNat / S * S).sum := (List.sum_map_mul_right _ _ _).symm
    _ ≤ (l.map fun r => R * r.2.toNat).sum := List.sum_le_sum fun r _ => Nat.div_mul_le_self _ _
    _ = R * sumOfRatios l := List.sum_map_mul_left _ _ _
    _ ≤ R * S := Nat.mul_le_mul_left _ hl

section Totals

variable [DecidableEq V]

/-- The bytes passed for the variant `v` in all. -/
def total (added : List (UInt64 × V)) (v : V) : ℕ :=
  ((added.filter fun a => a.2 = v).map fun a => a.1.toNat).sum

/-- The ratio of `v` in a map. -/
def ratioOf (variantRatio : List (V × UInt64)) (v : V) : ℕ :=
  total (variantRatio.map fun r => (r.2, r.1)) v

@[simp] theorem total_nil (v : V) : total [] v = 0 := rfl

@[simp] theorem total_cons (a : UInt64 × V) (added : List (UInt64 × V)) (v : V) :
    total (a :: added) v = (if a.2 = v then a.1.toNat else 0) + total added v := by
  by_cases h : a.2 = v <;> simp [total, h]

@[simp] theorem total_append (added added' : List (UInt64 × V)) (v : V) :
    total (added ++ added') v = total added v + total added' v := by
  simp [total, List.filter_append]

theorem total_eq_zero {added : List (UInt64 × V)} {v : V} (h : ∀ a ∈ added, a.2 ≠ v) :
    total added v = 0 := by
  induction added with
  | nil => rfl
  | cons a added ih =>
    rw [total_cons, if_neg (h a List.mem_cons_self), ih fun b hb => h b (List.mem_cons_of_mem _ hb)]

/-- With the keys of a map apart, an amount per entry goes to the entry's variant alone. -/
theorem total_map_key {l : List (V × UInt64)} (hkeys : (l.map Prod.fst).Nodup)
    (g : V × UInt64 → UInt64) {r : V × UInt64} (hr : r ∈ l) :
    total (l.map fun r => (g r, r.1)) r.1 = (g r).toNat := by
  induction l with
  | nil => simp at hr
  | cons r' l ih =>
    rw [List.map_cons, List.nodup_cons] at hkeys
    rcases List.mem_cons.1 hr with rfl | hr
    · -- no later entry has the key
      have hrest : total (l.map fun r => (g r, r.1)) r.1 = 0 := by
        apply total_eq_zero
        intro a ha
        obtain ⟨q, hq, rfl⟩ := List.mem_map.1 ha
        exact fun h => hkeys.1 (List.mem_map.2 ⟨q, hq, h⟩)
      simp [hrest]
    · have hne : r'.1 ≠ r.1 := fun h => hkeys.1 (List.mem_map.2 ⟨r, hr, h.symm⟩)
      simp [hne, ih hkeys.2 hr]

/-- `m` times each ratio, without wrapping around, gives `v` `m` times its ratio. -/
theorem total_map_mul (variantRatio : List (V × UInt64)) {m : UInt64}
    (hm : ∀ r ∈ variantRatio, m.toNat * r.2.toNat < 2 ^ 64) (v : V) :
    total (variantRatio.map fun r => (m * r.2, r.1)) v = m.toNat * ratioOf variantRatio v := by
  induction variantRatio with
  | nil => simp [ratioOf]
  | cons r variantRatio ih =>
    rw [List.map_cons, total_cons, ih (fun q hq => hm q (List.mem_cons_of_mem _ hq))]
    simp only [ratioOf, List.map_cons, total_cons, toNat_mul_of_lt (hm r List.mem_cons_self)]
    split_ifs <;> simp [Nat.mul_add]

end Totals

/-! ## Metering the bytes -/

namespace AggregateRecorder

@[simp] theorem addBytesOfVarType_added (ag : AggregateRecorder V) (bytes : UInt64) (v : V) :
    (ag.addBytesOfVarType bytes v).added = ag.added ++ [(bytes, v)] := rfl

theorem addMultiple_eq (ag : AggregateRecorder V) (m : UInt64) (variantRatio : List (V × UInt64)) :
    ag.addMultiple m variantRatio =
      { ag with added := ag.added ++ variantRatio.map fun r => (m * r.2, r.1) } := by
  induction variantRatio generalizing ag with
  | nil => simp [addMultiple]
  | cons r variantRatio ih =>
    simp only [addMultiple, List.foldl_cons] at ih ⊢
    rw [ih]
    simp [addBytesOfVarType]

/-- `AddBytesInVarRatio` with less than the sum pending: the bytes are kept pending. -/
theorem addBytesInVarRatio_of_lt {ag : AggregateRecorder V} {variantRatio : List (V × UInt64)}
    {b : UInt64} (hr : ag.variantRatio = some variantRatio) (hb : b ≠ 0)
    (hlt : ag.bytesToMeter + b < ag.sumOfOps) :
    ag.addBytesInVarRatio b = some { ag with bytesToMeter := ag.bytesToMeter + b } := by
  simp [addBytesInVarRatio, hr, hb, hlt]

/-- `AddBytesInVarRatio` with the sum or more pending: its whole multiples `m` are passed in the
ratio, and the remainder is kept pending. -/
theorem addBytesInVarRatio_of_ge {ag : AggregateRecorder V} {variantRatio : List (V × UInt64)}
    {b : UInt64} (hr : ag.variantRatio = some variantRatio) (hb : b ≠ 0)
    (hge : ¬ ag.bytesToMeter + b < ag.sumOfOps) (hS : ag.sumOfOps ≠ 0) :
    ag.addBytesInVarRatio b =
      some { ag with
        added := ag.added ++
          variantRatio.map fun r => ((ag.bytesToMeter + b) / ag.sumOfOps * r.2, r.1)
        bytesToMeter := (ag.bytesToMeter + b) % ag.sumOfOps } := by
  simp [addBytesInVarRatio, hr, hb, hge, hS, addMultiple_eq]

/-- **When `AddBytesInVarRatio` panics**: with a ratio map set, on bytes to meter, exactly when
the sum of the ratios is zero, for nothing pending is then below it. -/
theorem addBytesInVarRatio_eq_none_iff {ag : AggregateRecorder V} {b : UInt64} :
    ag.addBytesInVarRatio b = none ↔ ag.variantRatio.isSome ∧ b ≠ 0 ∧ ag.sumOfOps = 0 := by
  unfold addBytesInVarRatio
  rcases ag.variantRatio with _ | variantRatio
  · simp
  · by_cases hb : b = 0
    · simp [hb]
    · by_cases hS : ag.sumOfOps = 0
      · simp [hb, hS]
      · simp only [hb, hS, ↓reduceIte]
        split_ifs <;> simp [hb]

/-- `FinishAddsInVarRatio` with nothing pending passes nothing. -/
theorem finishAddsInVarRatio_of_zero {ag : AggregateRecorder V} (hR : ag.bytesToMeter = 0) :
    ag.finishAddsInVarRatio = some ag := by
  unfold finishAddsInVarRatio
  split <;> simp [hR]

/-- `FinishAddsInVarRatio` with bytes pending runs its loop over the map. -/
theorem finishAddsInVarRatio_of_ne {ag : AggregateRecorder V} {variantRatio : List (V × UInt64)}
    (hr : ag.variantRatio = some variantRatio) (hR : ag.bytesToMeter ≠ 0) :
    ag.finishAddsInVarRatio = ag.finishLoop variantRatio.length variantRatio 0 ag.bytesToMeter := by
  simp [finishAddsInVarRatio, hr, hR]

/-- The loop of `FinishAddsInVarRatio` over a map whose last entry it reaches at index `n - 1`,
with a sum that is not zero: each entry before it is passed its floor share, and the last what
remains. -/
theorem finishLoop_append (ag : AggregateRecorder V) (init : List (V × UInt64))
    (last : V × UInt64) {n i : ℕ} (remaining : UInt64) (hn : i + init.length + 1 = n)
    (hS : ag.sumOfOps ≠ 0) :
    ag.finishLoop n (init ++ [last]) i remaining =
      some { ag with
        added := ag.added ++ init.map (fun r => (ag.bytesToMeter * r.2 / ag.sumOfOps, r.1)) ++
          [(init.foldl (fun remaining r => remaining - ag.bytesToMeter * r.2 / ag.sumOfOps)
            remaining, last.1)] } := by
  induction init generalizing ag i remaining with
  | nil =>
    obtain ⟨varType, contrib⟩ := last
    have hi : i = n - 1 := by simp at hn; omega
    simp [finishLoop, hi, addBytesOfVarType]
  | cons r init ih =>
    -- an entry before the last: its floor share, and on with what remains
    obtain ⟨varType, contrib⟩ := r
    have hi : i ≠ n - 1 := by simp at hn; omega
    have hn' : i + 1 + init.length + 1 = n := by simp at hn; omega
    simp only [List.cons_append, finishLoop, if_neg hi, if_neg hS]
    rw [ih (ag.addBytesOfVarType _ varType) _ hn' hS]
    simp [addBytesOfVarType]

/-- **When `FinishAddsInVarRatio` panics**: with bytes pending, exactly when the sum of the
ratios is zero and the map has two entries or more, for the last entry is passed what remains
without a division. -/
theorem finishAddsInVarRatio_eq_none_iff {ag : AggregateRecorder V} :
    ag.finishAddsInVarRatio = none ↔ ∃ variantRatio, ag.variantRatio = some variantRatio ∧
      ag.bytesToMeter ≠ 0 ∧ ag.sumOfOps = 0 ∧ 2 ≤ variantRatio.length := by
  unfold finishAddsInVarRatio
  rcases ag.variantRatio with _ | variantRatio
  · simp
  · by_cases hR : ag.bytesToMeter = 0
    · simp [hR]
    · simp only [hR, ↓reduceIte, Option.some.injEq, exists_eq_left', ne_eq, not_false_eq_true,
        true_and]
      rcases List.eq_nil_or_concat variantRatio with rfl | ⟨init, last, rfl⟩
      · simp [finishLoop]
      rw [List.concat_eq_append]
      by_cases hS : ag.sumOfOps = 0
      · -- the first entry divides unless it is the last
        rcases init with _ | ⟨r, init⟩
        · simp [finishLoop, hS]
        · simp [finishLoop, hS]
      · rw [finishLoop_append ag init last _ (by simp) hS]
        simp [hS]

end AggregateRecorder

section Adds

variable [DecidableEq V]

/-- After metering `P` bytes in the ratio map `variantRatio` of sum `S`: the remainder of `P` by
`S` is pending, and each variant has been passed its ratio times `P / S`, all of them `S` times
`P / S`. -/
structure AddsInv (variantRatio : List (V × UInt64)) (P : ℕ) (ag : AggregateRecorder V) : Prop where
  ratio : ag.variantRatio = some variantRatio
  sum : ag.sumOfOps.toNat = sumOfRatios variantRatio
  pending : ag.bytesToMeter.toNat = P % sumOfRatios variantRatio
  parts : ∀ v, total ag.added v = ratioOf variantRatio v * (P / sumOfRatios variantRatio)
  all : (ag.added.map fun a => a.1.toNat).sum =
    sumOfRatios variantRatio * (P / sumOfRatios variantRatio)

theorem addsInv_setVarRatio {variantRatio : List (V × UInt64)}
    (hlt : sumOfRatios variantRatio < 2 ^ 64) :
    AddsInv variantRatio 0 (AggregateRecorder.new.setVarRatio variantRatio) where
  ratio := rfl
  sum := by
    simp only [AggregateRecorder.setVarRatio, toNat_foldl_add, UInt64.toNat_zero, Nat.zero_add]
    exact Nat.mod_eq_of_lt hlt
  pending := by simp [AggregateRecorder.setVarRatio, AggregateRecorder.new]
  parts v := by simp [AggregateRecorder.setVarRatio, AggregateRecorder.new]
  all := by simp [AggregateRecorder.setVarRatio, AggregateRecorder.new]

/-- Under the invariant, a map whose ratios sum to more than zero has a sum that is no zero
`uint64`, so the divisions by it do not panic. -/
theorem AddsInv.sumOfOps_ne_zero {variantRatio : List (V × UInt64)} {P : ℕ} {ag : AggregateRecorder V}
    (h : AddsInv variantRatio P ag) (hS : 0 < sumOfRatios variantRatio) : ag.sumOfOps ≠ 0 := by
  intro h0
  have hsum := h.sum
  rw [h0, UInt64.toNat_zero] at hsum
  omega

/-- **One `AddBytesInVarRatio` keeps the invariant**, while the bytes metered stay below
`2^64`; with a positive sum it does not panic. -/
theorem AddsInv.add {variantRatio : List (V × UInt64)} {P : ℕ} {ag : AggregateRecorder V}
    {b : UInt64} (h : AddsInv variantRatio P ag) (hS : 0 < sumOfRatios variantRatio)
    (hb : P + b.toNat < 2 ^ 64) :
    ∃ ag', ag.addBytesInVarRatio b = some ag' ∧ AddsInv variantRatio (P + b.toNat) ag' := by
  set S := sumOfRatios variantRatio
  have hsum : ag.sumOfOps.toNat = S := h.sum
  have hpend : ag.bytesToMeter.toNat = P % S := h.pending
  have hparts : ∀ v, total ag.added v = ratioOf variantRatio v * (P / S) := h.parts
  have hall : (ag.added.map fun a => a.1.toNat).sum = S * (P / S) := h.all
  have hmodle := Nat.mod_le P S
  have hacc : (ag.bytesToMeter + b).toNat = P % S + b.toNat := by
    rw [UInt64.toNat_add, hpend, Nat.mod_eq_of_lt (by omega)]
  have hdiv := add_div_split P b.toNat hS
  have hmod : (P + b.toNat) % S = (P % S + b.toNat) % S := (Nat.mod_add_mod _ _ _).symm
  by_cases hb0 : b = 0
  · subst hb0
    exact ⟨ag, by simp [AggregateRecorder.addBytesInVarRatio, h.ratio], by simpa using h⟩
  by_cases hlt : P % S + b.toNat < S
  · -- less than the sum is pending: nothing is passed
    have hlt' : ag.bytesToMeter + b < ag.sumOfOps := by
      rw [UInt64.lt_iff_toNat_lt, hacc, hsum]
      exact hlt
    have hq : (P % S + b.toNat) / S = 0 := Nat.div_eq_of_lt hlt
    refine ⟨_, AggregateRecorder.addBytesInVarRatio_of_lt h.ratio hb0 hlt', ?_⟩
    exact {
      ratio := h.ratio
      sum := h.sum
      pending := by rw [hacc, hmod, Nat.mod_eq_of_lt hlt]
      parts := fun v => by rw [hdiv, hq, Nat.add_zero]; exact hparts v
      all := by rw [hdiv, hq, Nat.add_zero]; exact hall }
  · -- the whole multiples `m` of the sum go out in the ratio
    have hge : ¬ ag.bytesToMeter + b < ag.sumOfOps := by
      rw [UInt64.lt_iff_toNat_lt, hacc, hsum]
      exact hlt
    have hm : ((ag.bytesToMeter + b) / ag.sumOfOps).toNat = (P % S + b.toNat) / S := by
      rw [UInt64.toNat_div, hacc, hsum]
    have hmul : ∀ r ∈ variantRatio,
        ((ag.bytesToMeter + b) / ag.sumOfOps).toNat * r.2.toNat < 2 ^ 64 := by
      intro r hr
      rw [hm]
      calc (P % S + b.toNat) / S * r.2.toNat ≤ (P % S + b.toNat) / S * S :=
            Nat.mul_le_mul_left _ (le_sumOfRatios hr)
        _ ≤ P % S + b.toNat := Nat.div_mul_le_self _ _
        _ < 2 ^ 64 := by omega
    refine ⟨_, AggregateRecorder.addBytesInVarRatio_of_ge h.ratio hb0 hge (h.sumOfOps_ne_zero hS), {
      ratio := h.ratio
      sum := h.sum
      pending := ?_
      parts := fun v => ?_
      all := ?_ }⟩
    · rw [UInt64.toNat_mod, hacc, hsum]
      exact hmod.symm
    · rw [total_append, total_map_mul _ hmul, hm, hparts v, hdiv]
      ring
    · rw [List.map_append, List.sum_append, sum_map_mul _ hmul, hm, hall, hdiv]
      ring

/-- **The adds keep the invariant**, while the bytes metered stay below `2^64`, and none of
them panics. -/
theorem AddsInv.run {variantRatio : List (V × UInt64)} {P : ℕ} {ag : AggregateRecorder V}
    (h : AddsInv variantRatio P ag) (bs : List UInt64) (hS : 0 < sumOfRatios variantRatio)
    (hB : P + (bs.map UInt64.toNat).sum < 2 ^ 64) :
    ∃ ag', bs.foldlM AggregateRecorder.addBytesInVarRatio ag = some ag' ∧
      AddsInv variantRatio (P + (bs.map UInt64.toNat).sum) ag' := by
  induction bs generalizing P ag with
  | nil => exact ⟨ag, rfl, by simpa using h⟩
  | cons b bs ih =>
    simp only [List.map_cons, List.sum_cons] at hB
    obtain ⟨ag₁, hstep, h₁⟩ := h.add (b := b) hS (by omega)
    obtain ⟨ag', hrun, h'⟩ := ih h₁ (by omega)
    refine ⟨ag', by simp [List.foldlM_cons, hstep, hrun], ?_⟩
    rw [List.map_cons, List.sum_cons, ← Nat.add_assoc]
    exact h'

/-- **`FinishAddsInVarRatio` after the adds.** With `B` bytes metered in a map with its keys
apart whose sum's products with the ratios stay below `2^64`, it does not panic, the variants
are passed `B` bytes in all, and each entry before the last `B * r / S`. -/
theorem AddsInv.finish {init : List (V × UInt64)} {last : V × UInt64} {B : ℕ}
    {ag : AggregateRecorder V} (h : AddsInv (init ++ [last]) B ag)
    (hkeys : ((init ++ [last]).map Prod.fst).Nodup) (hS : 0 < sumOfRatios (init ++ [last]))
    (hover : ∀ r ∈ init ++ [last], sumOfRatios (init ++ [last]) * r.2.toNat < 2 ^ 64) :
    ∃ ag', ag.finishAddsInVarRatio = some ag' ∧ (ag'.added.map fun a => a.1.toNat).sum = B ∧
      ∀ r ∈ init, total ag'.added r.1 = B * r.2.toNat / sumOfRatios (init ++ [last]) := by
  set S := sumOfRatios (init ++ [last])
  have hsum : ag.sumOfOps.toNat = S := h.sum
  have hpend : ag.bytesToMeter.toNat = B % S := h.pending
  have hparts : ∀ v, total ag.added v = ratioOf (init ++ [last]) v * (B / S) := h.parts
  have hall : (ag.added.map fun a => a.1.toNat).sum = S * (B / S) := h.all
  have hBS := Nat.div_add_mod B S
  have hrat : ∀ r ∈ init, ratioOf (init ++ [last]) r.1 = r.2.toNat := fun r hr =>
    total_map_key hkeys (fun r => r.2) (List.mem_append_left _ hr)
  have hk := hkeys
  rw [List.map_append] at hk
  obtain ⟨hinit, -, hdisj⟩ := List.nodup_append.1 hk
  by_cases hR : ag.bytesToMeter = 0
  · -- nothing pending: `FinishAddsInVarRatio` passes nothing
    have hBmod : B % S = 0 := by rw [← hpend, hR, UInt64.toNat_zero]
    refine ⟨ag, AggregateRecorder.finishAddsInVarRatio_of_zero hR, by omega, fun r hr => ?_⟩
    rw [mul_div_split B _ hS, hBmod, Nat.zero_mul, Nat.zero_div, Nat.add_zero, hparts, hrat r hr]
  · -- the remainder `R` is split: floor shares before the last entry, the rest to it
    set share := fun r : V × UInt64 => ag.bytesToMeter * r.2 / ag.sumOfOps
    have hfin : ag.finishAddsInVarRatio =
        some { ag with
          added := ag.added ++ init.map (fun r => (share r, r.1)) ++
            [(init.foldl (fun remaining r => remaining - share r) ag.bytesToMeter, last.1)] } := by
      rw [AggregateRecorder.finishAddsInVarRatio_of_ne h.ratio hR]
      exact AggregateRecorder.finishLoop_append ag init last _ (by simp) (h.sumOfOps_ne_zero hS)
    have hshare : ∀ r ∈ init ++ [last], (share r).toNat = B % S * r.2.toNat / S := by
      intro r hr
      have hlt : ag.bytesToMeter.toNat * r.2.toNat < 2 ^ 64 := by
        rw [hpend]
        exact lt_of_le_of_lt (Nat.mul_le_mul_right _ (Nat.mod_lt B hS).le) (hover r hr)
      show (ag.bytesToMeter * r.2 / ag.sumOfOps).toNat = _
      rw [UInt64.toNat_div, toNat_mul_of_lt hlt, hpend, hsum]
    have hshares : (init.map fun r => (share r).toNat) = init.map fun r => B % S * r.2.toNat / S :=
      List.map_congr_left fun r hr => hshare r (List.mem_append_left _ hr)
    have hle : (init.map fun r => (share r).toNat).sum ≤ B % S := by
      rw [hshares]
      have hSsplit : S = sumOfRatios init + sumOfRatios [last] := sumOfRatios_append init [last]
      exact sum_shares_le init (B % S) hS (by omega)
    have hrem := toNat_foldl_sub init share ag.bytesToMeter (by rwa [hpend])
    refine ⟨_, hfin, ?_, fun r hr => ?_⟩
    · simp only [List.map_append, List.sum_append, List.map_map, Function.comp_def,
        List.map_cons, List.map_nil, List.sum_cons, List.sum_nil, hall, hrem, hpend]
      omega
    · have hne : last.1 ≠ r.1 := fun h => hdisj r.1 (List.mem_map_of_mem hr) last.1 (by simp) h.symm
      rw [total_append, total_append, hparts, hrat r hr, total_map_key hinit share hr,
        hshare r (List.mem_append_left _ hr), total_cons, if_neg hne, total_nil,
        mul_div_split B _ hS]
      simp only [Nat.add_zero]

end Adds

section Split

variable [DecidableEq V]

/-- **The bytes metered are split in the ratio.** With the keys of the map apart, a positive
sum `S` of its ratios whose products with them stay below `2^64`, and fewer than `2^64` bytes
`B` metered in all, nothing panics, the variants are passed `B` bytes, and each but the one the
loop of `FinishAddsInVarRatio` visits last `B * r / S`, `r` its ratio. -/
theorem meterInVarRatio_split (variantRatio : List (V × UInt64)) (bs : List UInt64)
    (hkeys : (variantRatio.map Prod.fst).Nodup) (hS : 0 < sumOfRatios variantRatio)
    (hover : ∀ r ∈ variantRatio, sumOfRatios variantRatio * r.2.toNat < 2 ^ 64)
    (hB : (bs.map UInt64.toNat).sum < 2 ^ 64) :
    ∃ ag, meterInVarRatio variantRatio bs = some ag ∧
      (ag.added.map fun a => a.1.toNat).sum = (bs.map UInt64.toNat).sum ∧
      ∀ r ∈ variantRatio.dropLast, total ag.added r.1 =
        (bs.map UInt64.toNat).sum * r.2.toNat / sumOfRatios variantRatio := by
  obtain ⟨ag, hrun, hinv⟩ := (addsInv_setVarRatio (sumOfRatios_lt hS hover)).run bs hS (by omega)
  rw [Nat.zero_add] at hinv
  -- the entry the finish loop visits last
  obtain ⟨init, last, rfl⟩ : ∃ init last, variantRatio = init ++ [last] := by
    rcases List.eq_nil_or_concat variantRatio with h | ⟨init, last, h⟩
    · simp [h, sumOfRatios] at hS
    · exact ⟨init, last, by simpa using h⟩
  obtain ⟨ag', hfin, hall, hparts⟩ := hinv.finish hkeys hS hover
  refine ⟨ag', by simp [meterInVarRatio, hrun, hfin], hall, ?_⟩
  rw [List.dropLast_concat]
  exact hparts

theorem meterInVarRatio_split_one_two :
    ∃ ag, meterInVarRatio [(UnitType.indexWriteUpdateVariant, (1 : UInt64)),
        (.indexWriteInsertVariant, 2)] [5, 7] = some ag ∧
      (ag.added.map fun a => a.1.toNat).sum = ([5, 7].map UInt64.toNat).sum ∧
      ∀ r ∈ [(UnitType.indexWriteUpdateVariant, (1 : UInt64)), (.indexWriteInsertVariant, 2)].dropLast,
        total ag.added r.1 = ([5, 7].map UInt64.toNat).sum * r.2.toNat /
          sumOfRatios [(UnitType.indexWriteUpdateVariant, (1 : UInt64)), (.indexWriteInsertVariant, 2)] :=
  meterInVarRatio_split _ _ (by decide) (by decide) (by decide) (by decide)

end Split

end Indexer
