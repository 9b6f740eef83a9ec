import GsiIndexing.Go.FloatArith

/-!
# common — the SUM aggregate (`aggr.go`)

`AggrFuncSum` keeps an exact `int64` sum while it can and a `float64` sum after: `AddDelta`
adds each `int64` to `ival` until the first `float64` delta or the first addition that
overflows (Go's test on the signs of the operands and of the wrapped sum), converts the
exact sum there, and adds every later number in `float64`. `Value` is `nil` until a number
has been seen, and deltas of any other type are ignored.

The proof has three layers:

* `sumSpec` says what the sum is from the numbers of a run as a whole: the longest run of
  `int64`s whose running sums stay in range (`intRun`), and the `float64` sum of what
  follows it, started from that run's sum;
* `Mode.step` takes one number at a time, and `mode_append` proves that it computes
  `sumSpec`'s modes;
* `Agrees` ties the fields of the Go struct to a mode; `Agrees.addDelta` is the step lemma and
  `value_sumOf` the theorem over every sequence of deltas.

With `distinct` set, `checkDistinctInt` and `checkDistinctFloat` drop a delta equal to the
last one of its kind, and both last values start at `0`. A leading `0` is then dropped as a
repeat after `validVal` is set but before `isInt64` is, which leaves the sum in its `float64`
mode, and every later `int64` is added in `float64` (`sumOf_distinct_leading_zero`).
-/

namespace Common

open Go

/-- What `AddDelta`'s type switch sees in a delta. -/
inductive Delta where
  | float (v : F64)
  | int (v : Int64)
  /-- `nil`, `bool`, `[]interface{}`, `map[string]interface{}`, `string` or any other type. -/
  | other

/-- A number that `Value()` returns. -/
inductive SumValue where
  | int (v : Int64)
  | float (v : F64)
  deriving DecidableEq

/-- The fields of `AggrFuncSum` that `AddDelta` and `Value` read. -/
structure AggrFuncSum where
  fval : F64
  fLastVal : F64
  ival : Int64
  iLastVal : Int64
  validVal : Bool
  distinct : Bool
  isInt64 : Bool

namespace AggrFuncSum

/-- `&AggrFuncSum{typ: AGG_SUM, distinct: distinct, n1qlValue: n1qlValue}`: the other fields
at their zero values. -/
def empty (distinct : Bool) : AggrFuncSum := ⟨F64.zero, F64.zero, 0, 0, false, distinct, false⟩

def checkDistinctFloat (a : AggrFuncSum) (newVal : F64) : Bool × AggrFuncSum :=
  if F64.beq a.fLastVal newVal then (false, a) else (true, { a with fLastVal := newVal })

def checkDistinctInt (a : AggrFuncSum) (newVal : Int64) : Bool × AggrFuncSum :=
  if a.iLastVal = newVal then (false, a) else (true, { a with iLastVal := newVal })

/-- The overflow test of `AddDelta` on `temp := a.ival + v`. -/
def overflows (ival v : Int64) : Bool :=
  (decide (0 ≤ ival) && decide (0 ≤ v) && decide (ival + v < 0)) ||
    (decide (ival < 0) && decide (v < 0) && decide (0 ≤ ival + v))

/-- `AddDelta`. A repeat found by the distinct check returns at once, before the assignments
after it. -/
def addDelta (a : AggrFuncSum) : Delta → AggrFuncSum
  | .float v =>
    let a := { a with validVal := true }
    if a.isInt64 then
      let (fresh, a) := if a.distinct then a.checkDistinctFloat v else (true, a)
      if !fresh then a else { a with fval := F64.add (F64.ofInt64 a.ival) v, isInt64 := false }
    else
      let (fresh, a) := if a.distinct then a.checkDistinctFloat v else (true, a)
      if !fresh then a else { a with fval := F64.add a.fval v, isInt64 := false }
  | .int v =>
    if !a.isInt64 && a.validVal then
      let a := { a with validVal := true }
      let (fresh, a) := if a.distinct then a.checkDistinctInt v else (true, a)
      if !fresh then a else { a with fval := F64.add a.fval (F64.ofInt64 v) }
    else
      let a := { a with validVal := true }
      let (fresh, a) := if a.distinct then a.checkDistinctInt v else (true, a)
      if !fresh then a
      else if overflows a.ival v then
        { a with fval := F64.add (F64.ofInt64 a.ival) (F64.ofInt64 v), isInt64 := false }
      else { a with ival := a.ival + v, isInt64 := true }
  | .other => a

/-- `Value`: `nil`, the `int64` sum or the `float64` sum. -/
def value (a : AggrFuncSum) : Option SumValue :=
  if !a.validVal then none else if a.isInt64 then some (.int a.ival) else some (.float a.fval)

end AggrFuncSum

/-! ## What the sum is -/

/-- A number as a `float64`: `float64(v)` for an `int64`. -/
def SumValue.toF64 : SumValue → F64
  | .int v => F64.ofInt64 v
  | .float v => v

/-- The number a delta holds, if any. -/
def Delta.num? : Delta → Option SumValue
  | .float v => some (.float v)
  | .int v => some (.int v)
  | .other => none

/-- The sums an `int64` holds. -/
def InInt64 (s : Int) : Prop := -2 ^ 63 ≤ s ∧ s < 2 ^ 63

instance decidableInInt64 (s : Int) : Decidable (InInt64 s) :=
  inferInstanceAs (Decidable (_ ∧ _))

/-- The longest run of `int64`s at the front of `ns` whose running sums from `acc` all lie in
the `int64` range: its length and its sum. -/
def intRun (acc : Int) : List SumValue → Nat × Int
  | .int v :: ns =>
    if InInt64 (acc + v.toInt) then
      ((intRun (acc + v.toInt) ns).1 + 1, (intRun (acc + v.toInt) ns).2)
    else (0, acc)
  | _ => (0, acc)

/-- The `float64` sum of `ns` started from `f`, in order. -/
def floatSum (f : F64) (ns : List SumValue) : F64 := ns.foldl (fun f n => F64.add f n.toF64) f

/-- Where a sum stands: no number yet, an exact sum, or a `float64` sum. -/
inductive Mode where
  | empty
  | int (s : Int)
  | float (f : F64)

/-- Where SUM stands after the numbers `ns`: no number; the exact sum when all of them are
`int64`s and every running sum is in range; and otherwise the exact sum of the run before the
first `float64` or overflowing addition, converted to `float64`, with the numbers from there
on added in `float64` in order. -/
def mode (ns : List SumValue) : Mode :=
  if ns = [] then .empty
  else if (intRun 0 ns).1 = ns.length then .int (intRun 0 ns).2
  else .float (floatSum (F64.ofInt64 (Int64.ofInt (intRun 0 ns).2)) (ns.drop (intRun 0 ns).1))

def Mode.value : Mode → Option SumValue
  | .empty => none
  | .int s => some (.int (Int64.ofInt s))
  | .float f => some (.float f)

/-- What `Value()` is to return after the numbers `ns`. -/
def sumSpec (ns : List SumValue) : Option SumValue := (mode ns).value

/-- One more number, as the description of `mode` has it. -/
def Mode.step : Mode → SumValue → Mode
  | .empty, .int v => .int v.toInt
  | .empty, .float v => .float (F64.add F64.zero v)
  | .int s, .int v =>
    if InInt64 (s + v.toInt) then .int (s + v.toInt)
    else .float (F64.add (F64.ofInt64 (Int64.ofInt s)) (F64.ofInt64 v))
  | .int s, .float v => .float (F64.add (F64.ofInt64 (Int64.ofInt s)) v)
  | .float f, n => .float (F64.add f n.toF64)

/-! ## One number at a time

`intRun` reads the numbers from the front; appending a number leaves a run that stopped
before the end as it is, and extends one that took every number when the number is an
`int64` whose sum stays in range. That gives `mode_append`: the mode of `ns ++ [n]` is one
`Mode.step` from the mode of `ns`. -/

theorem intRun_fst_le (acc : Int) : ∀ ns : List SumValue, (intRun acc ns).1 ≤ ns.length
  | [] => Nat.zero_le _
  | .float _ :: _ => Nat.zero_le _
  | .int v :: ns => by
    rw [intRun]
    split_ifs
    · simpa using intRun_fst_le (acc + v.toInt) ns
    · exact Nat.zero_le _

/-- A run that stopped before the end stays where it stopped. -/
theorem intRun_append_of_lt (n : SumValue) :
    ∀ {acc : Int} {ns : List SumValue}, (intRun acc ns).1 < ns.length →
      intRun acc (ns ++ [n]) = intRun acc ns
  | _, [], h => absurd h (Nat.lt_irrefl 0)
  | _, .float _ :: _, _ => rfl
  | acc, .int v :: ns, h => by
    rw [List.cons_append, intRun, intRun]
    split_ifs with hv
    · rw [intRun, if_pos hv] at h
      rw [intRun_append_of_lt n (by simpa using h)]
    · rfl

/-- A run that took every number takes one more `int64` whose sum stays in range. -/
theorem intRun_append_of_eq (n : SumValue) :
    ∀ {acc : Int} {ns : List SumValue}, (intRun acc ns).1 = ns.length →
      intRun acc (ns ++ [n]) = match n with
        | .int v => if InInt64 ((intRun acc ns).2 + v.toInt) then
            (ns.length + 1, (intRun acc ns).2 + v.toInt) else (ns.length, (intRun acc ns).2)
        | .float _ => (ns.length, (intRun acc ns).2)
  | acc, [], _ => by
    cases n with
    | int v =>
      simp only [List.nil_append, intRun, List.length_nil, Nat.zero_add]
    | float v => rfl
  | _, .float _ :: _, h => absurd h (by simp [intRun])
  | acc, .int v :: ns, h => by
    by_cases hv : InInt64 (acc + v.toInt)
    · rw [intRun, if_pos hv] at h ⊢
      have ih := @intRun_append_of_eq n (acc + v.toInt) ns (by simpa using h)
      rw [List.cons_append, intRun, if_pos hv, ih]
      cases n with
      | int w =>
        simp only [List.length_cons]
        split_ifs <;> rfl
      | float w => rfl
    · rw [intRun, if_neg hv] at h
      exact absurd h (by simp)

theorem inInt64_toInt (v : Int64) : InInt64 v.toInt := ⟨Int64.le_toInt v, by
  have h := Int64.toInt_le v
  have hmax : Int64.maxValue.toInt = 2 ^ 63 - 1 := by decide
  omega⟩

/-- **The mode after one more number is one step on.** -/
theorem mode_append (ns : List SumValue) (n : SumValue) : mode (ns ++ [n]) = (mode ns).step n := by
  by_cases hnil : ns = []
  · -- the first number
    subst hnil
    cases n with
    | int v => simp [mode, intRun, inInt64_toInt v, Mode.step]
    | float v => simp [mode, intRun, Mode.step, floatSum, F64.ofInt64_zero, SumValue.toF64]
  · have hne : ns ++ [n] ≠ [] := by simp
    by_cases hrun : (intRun 0 ns).1 = ns.length
    · -- the numbers so far were an exact sum
      have happ := intRun_append_of_eq n hrun
      cases n with
      | int v =>
        by_cases hv : InInt64 ((intRun 0 ns).2 + v.toInt)
        · simp [mode, hnil, hrun, happ, hv, Mode.step]
        · simp [mode, hnil, hrun, happ, hv, Mode.step, floatSum, SumValue.toF64]
      | float v => simp [mode, hnil, hrun, happ, Mode.step, floatSum, SumValue.toF64]
    · -- the numbers so far already had a `float64` sum
      have hlt : (intRun 0 ns).1 < ns.length := lt_of_le_of_ne (intRun_fst_le 0 ns) hrun
      have happ := intRun_append_of_lt n hlt
      have hrun' : (intRun 0 ns).1 ≠ ns.length + 1 := by omega
      simp [mode, hnil, hrun, happ, hrun', Mode.step, floatSum, List.drop_append_of_le_length hlt.le]

/-! ## The Go struct follows the modes

Without `distinct`, `AddDelta` only ever reads the fields that `Agrees` fixes for the mode,
so one case per delta and mode shows that it takes the mode one step on. -/

/-- The fields of a sum stand for a mode: all at zero before the first number, `ival` the
exact sum in the `int64` mode, `fval` the sum in the `float64` mode. -/
def Agrees (a : AggrFuncSum) : Mode → Prop
  | .empty => a.validVal = false ∧ a.isInt64 = false ∧ a.ival = 0 ∧ a.fval = F64.zero
  | .int s => a.validVal = true ∧ a.isInt64 = true ∧ a.ival.toInt = s
  | .float f => a.validVal = true ∧ a.isInt64 = false ∧ a.fval = f

theorem Agrees.value {a : AggrFuncSum} {m : Mode} (h : Agrees a m) : a.value = m.value := by
  cases m with
  | empty => simp [AggrFuncSum.value, Mode.value, h.1]
  | int s =>
    obtain ⟨hv, hi, hs⟩ := h
    simp [AggrFuncSum.value, Mode.value, hv, hi, ← hs, Int64.ofInt_toInt]
  | float f =>
    obtain ⟨hv, hi, hf⟩ := h
    simp [AggrFuncSum.value, Mode.value, hv, hi, hf]

/-- Go's overflow test is exactly "the exact sum leaves the `int64` range". -/
theorem overflows_iff (ival v : Int64) :
    AggrFuncSum.overflows ival v = true ↔ ¬ InInt64 (ival.toInt + v.toInt) := by
  have h1 := inInt64_toInt ival
  have h2 := inInt64_toInt v
  unfold InInt64 at h1 h2 ⊢
  simp only [AggrFuncSum.overflows, Bool.or_eq_true, Bool.and_eq_true, decide_eq_true_eq,
    Int64.le_iff_toInt_le, Int64.lt_iff_toInt_lt, Int64.toInt_zero, Int64.toInt_add, Int.bmod_def]
  norm_num
  split_ifs <;> omega

theorem overflows_eq_false {ival v : Int64} (h : InInt64 (ival.toInt + v.toInt)) :
    AggrFuncSum.overflows ival v = false := by
  rw [Bool.eq_false_iff, ne_eq, overflows_iff, not_not]
  exact h

theorem toInt_add_of_inInt64 {a b : Int64} (h : InInt64 (a.toInt + b.toInt)) :
    (a + b).toInt = a.toInt + b.toInt := by
  unfold InInt64 at h
  rw [Int64.toInt_add, Int.bmod_def]
  norm_num
  split_ifs <;> omega

@[simp] theorem distinct_addDelta (a : AggrFuncSum) (d : Delta) :
    (a.addDelta d).distinct = a.distinct := by
  cases d with
  | float v =>
    simp only [AggrFuncSum.addDelta, AggrFuncSum.checkDistinctFloat]
    split_ifs <;> simp
  | int v =>
    simp only [AggrFuncSum.addDelta, AggrFuncSum.checkDistinctInt]
    split_ifs <;> simp
  | other => rfl

/-- **Step lemma**: without `distinct`, `AddDelta` of a number takes the mode one step on, and
any other delta leaves the fields as they are. -/
theorem Agrees.addDelta {a : AggrFuncSum} {m : Mode} (hd : a.distinct = false) (h : Agrees a m)
    (d : Delta) : Agrees (a.addDelta d) ((d.num?.map m.step).getD m) := by
  cases d with
  | other => exact h
  | float v =>
    -- the `if a.isInt64` of the `float64` case, by the mode
    cases m with
    | empty =>
      obtain ⟨hv, hi, -, hf⟩ := h
      simp [AggrFuncSum.addDelta, Agrees, Mode.step, Delta.num?, hd, hi, hf]
    | int s =>
      obtain ⟨hv, hi, hs⟩ := h
      simp [AggrFuncSum.addDelta, Agrees, Mode.step, Delta.num?, hd, hi, ← hs, Int64.ofInt_toInt]
    | float f =>
      obtain ⟨hv, hi, hf⟩ := h
      simp [AggrFuncSum.addDelta, Agrees, Mode.step, Delta.num?, SumValue.toF64, hd, hi, hf]
  | int v =>
    cases m with
    | empty =>
      -- the first number: `0 + v` cannot overflow
      obtain ⟨hv, hi, h0, -⟩ := h
      have hno : AggrFuncSum.overflows 0 v = false :=
        overflows_eq_false (by simpa using inInt64_toInt v)
      simp [AggrFuncSum.addDelta, Agrees, Mode.step, Delta.num?, hd, hv, hi, h0, hno]
    | int s =>
      -- Go's overflow test decides exactly as the range of the exact sum
      obtain ⟨hv, hi, rfl⟩ := h
      by_cases hin : InInt64 (a.ival.toInt + v.toInt)
      · simp [AggrFuncSum.addDelta, Agrees, Mode.step, Delta.num?, hd, hv, hi, hin,
          overflows_eq_false hin, toInt_add_of_inInt64 hin]
      · have hov : AggrFuncSum.overflows a.ival v = true := (overflows_iff _ _).mpr hin
        simp [AggrFuncSum.addDelta, Agrees, Mode.step, Delta.num?, hd, hv, hi, hov, hin,
          Int64.ofInt_toInt]
    | float f =>
      obtain ⟨hv, hi, hf⟩ := h
      simp [AggrFuncSum.addDelta, Agrees, Mode.step, Delta.num?, SumValue.toF64, hd, hv, hi, hf]

/-- **Run lemma**: the fields follow the mode of the numbers over any sequence of deltas. -/
theorem Agrees.foldl : ∀ (ds : List Delta) {a : AggrFuncSum} {ns : List SumValue},
    a.distinct = false → Agrees a (mode ns) →
      Agrees (ds.foldl AggrFuncSum.addDelta a) (mode (ns ++ ds.filterMap Delta.num?))
  | [], _, ns, _, h => by simpa using h
  | d :: ds, a, ns, hd, h => by
    have hstep := h.addDelta hd d
    rw [List.foldl_cons, List.filterMap_cons]
    cases hn : d.num? with
    | none =>
      rw [hn, Option.map_none, Option.getD_none] at hstep
      exact Agrees.foldl ds (by simpa using hd) hstep
    | some n =>
      rw [hn, Option.map_some, Option.getD_some, ← mode_append] at hstep
      simpa using Agrees.foldl ds (by simpa using hd) hstep

/-- `NewAggrFunc(AGG_SUM, val, distinct, false)`: an empty sum given `val` by `AddDelta`. -/
def newAggrFunc (val : Delta) (distinct : Bool) : AggrFuncSum :=
  (AggrFuncSum.empty distinct).addDelta val

/-- `NewAggrFunc(AGG_SUM, d, distinct, false)` followed by `AddDelta` of each of `ds`. -/
def sumOf (distinct : Bool) (d : Delta) (ds : List Delta) : AggrFuncSum :=
  ds.foldl AggrFuncSum.addDelta (newAggrFunc d distinct)

/-- **SUM without `distinct` is `sumSpec`**: after `NewAggrFunc(AGG_SUM, d, false, false)` and
`AddDelta` of each of `ds`, `Value()` is `nil` when no delta is a number, the exact sum as an
`int64` when every number is an `int64` and every running sum is in range, and otherwise the
exact sum before the first `float64` or overflowing addition, converted, plus the numbers
from there on in `float64` in order. -/
theorem value_sumOf (d : Delta) (ds : List Delta) :
    (sumOf false d ds).value = sumSpec ((d :: ds).filterMap Delta.num?) := by
  have hempty : Agrees (AggrFuncSum.empty false) (mode []) := ⟨rfl, rfl, rfl, rfl⟩
  have h := Agrees.foldl (d :: ds) rfl hempty
  rw [List.nil_append] at h
  exact h.value

/-! ## `distinct` and a leading zero

`checkDistinctInt` compares with `iLastVal`, which starts at `0`, so a first delta `0` is
dropped as a repeat; `validVal` is set by then and `isInt64` is not, so the next `int64` takes
the `float64` branch. The sum of `0, 1, 2 ^ 53` is then `(0.0 + 1.0) + 2 ^ 53` in `float64`,
which rounds the tie `2 ^ 53 + 1` to `2 ^ 53`. -/

theorem magValue_one : Float64.magValue (1023 * 2 ^ 52) = 1 := by decide +kernel

theorem magValue_two_pow_fiftyThree : Float64.magValue (1076 * 2 ^ 52) = 2 ^ 53 := by
  decide +kernel

/-- `float64(1)`. -/
theorem ofInt64_one : F64.ofInt64 1 = .finite ⟨false, 1023 * 2 ^ 52, by decide⟩ := by
  have hround := Float64.roundMag_of_admissible (m := 1023 * 2 ^ 52) (by decide)
    (Float64.admissible_magValue _)
  rw [magValue_one] at hround
  simp [F64.ofInt64, Float64.ofInt64, hround]

/-- `float64(2 ^ 53)`, which is exact. -/
theorem ofInt64_two_pow_fiftyThree :
    F64.ofInt64 9007199254740992 = .finite ⟨false, 1076 * 2 ^ 52, by decide⟩ := by
  have hround := Float64.roundMag_of_admissible (m := 1076 * 2 ^ 52) (by decide)
    (Float64.admissible_magValue _)
  rw [magValue_two_pow_fiftyThree] at hround
  have htoInt : (9007199254740992 : Int64).toInt = 2 ^ 53 := by decide
  norm_num at hround
  simp [F64.ofInt64, Float64.ofInt64, htoInt, hround]

/-- `1.0 + 2 ^ 53` in `float64`: the exact sum is halfway between `2 ^ 53` and `2 ^ 53 + 2`,
and the tie goes to `2 ^ 53`, whose significand is even. -/
theorem add_one_two_pow_fiftyThree :
    F64.add (.finite ⟨false, 1023 * 2 ^ 52, by decide⟩) (.finite ⟨false, 1076 * 2 ^ 52, by decide⟩) =
      .finite ⟨false, 1076 * 2 ^ 52, by decide⟩ := by
  have hround : Float64.roundMag (2 ^ 53 + 1) = 1076 * 2 ^ 52 :=
    Float64.roundMag_of_admissible (by decide) (by decide +kernel)
  have hsum : (⟨false, 1023 * 2 ^ 52, by decide⟩ : Float64).value +
      (⟨false, 1076 * 2 ^ 52, by decide⟩ : Float64).value = 2 ^ 53 + 1 := by
    simp only [Float64.value, Bool.false_eq_true, if_false, magValue_one,
      magValue_two_pow_fiftyThree]
    ring
  rw [F64.add_finite (by rw [hsum]; norm_num), hsum, F64.round, abs_of_pos (by norm_num), hround,
    dif_pos (by decide)]
  norm_num

/-- **`distinct` SUM loses the exact sum after a leading `0`**: the deltas `0, 1, 2 ^ 53`
(ascending, no two equal) give the `float64` `2 ^ 53` with `distinct`, where the SUM without
`distinct` gives the exact `int64` `2 ^ 53 + 1`. -/
theorem sumOf_distinct_leading_zero :
    (sumOf true (.int 0) [.int 1, .int 9007199254740992]).value =
        some (.float (F64.ofInt64 9007199254740992)) ∧
      F64.ofInt64 9007199254740992 = .finite ⟨false, 1076 * 2 ^ 52, by decide⟩ ∧
      Float64.magValue (1076 * 2 ^ 52) = 9007199254740992 ∧
      (sumOf false (.int 0) [.int 1, .int 9007199254740992]).value =
        some (.int 9007199254740993) := by
  -- the run with `distinct`: `0` dropped, then `0.0 + 1.0`, then `+ 2 ^ 53`
  have hrun : (sumOf true (.int 0) [.int 1, .int 9007199254740992]).value =
      some (.float (F64.add (F64.add F64.zero (F64.ofInt64 1)) (F64.ofInt64 9007199254740992))) :=
    rfl
  have hone : F64.add F64.zero (F64.ofInt64 1) = .finite ⟨false, 1023 * 2 ^ 52, by decide⟩ := by
    have hsum : (⟨false, 0, by decide⟩ : Float64).value +
        (⟨false, 1023 * 2 ^ 52, by decide⟩ : Float64).value = Float64.magValue (1023 * 2 ^ 52) := by
      simp [Float64.value]
    rw [ofInt64_one, F64.zero, F64.add_finite (by rw [hsum, magValue_one]; norm_num), hsum,
      F64.round_magValue (by decide) (by decide)]
  refine ⟨?_, ofInt64_two_pow_fiftyThree, by rw [magValue_two_pow_fiftyThree]; norm_num, by decide⟩
  rw [hrun, hone, ofInt64_two_pow_fiftyThree, add_one_two_pow_fiftyThree]

end Common
