import GsiIndexing.Go.Float64

/-!
# Go's `float64` arithmetic — every value, addition, `float64(int64)` and `==`

`Float64` holds the finite values. Go code that sums whatever `float64` it is handed also
meets the infinities and NaN, so `F64` adds them, with the operations such code uses:

* `add`, IEEE-754 addition rounding to nearest with ties to even: the exact sum of two
  finite values rounded by `Float64.roundMag`, an infinity where that overflows, `+0` for
  an exact zero unless both operands are `-0`, and NaN for `Inf + -Inf` and any NaN;
* `ofInt64`, the conversion `float64(i)`;
* `beq`, Go's `==`: NaN equals nothing and `-0 == 0`.
-/

namespace Go

/-- A Go `float64`: a finite value, an infinity of a sign, or NaN (every NaN behaves alike
under `+` and `==`). -/
inductive F64 where
  | finite (f : Float64)
  | inf (neg : Bool)
  | nan
  deriving DecidableEq

namespace F64

/-- `0.0`, the zero value of a `float64` variable. -/
def zero : F64 := .finite ⟨false, 0, by decide⟩

/-- The `float64` nearest to a rational, ties to even, and an infinity past the largest
finite value. -/
def round (q : ℚ) : F64 :=
  if h : Float64.roundMag |q| < infMag then .finite ⟨decide (q < 0), Float64.roundMag |q|, h⟩
  else .inf (decide (q < 0))

/-- `x + y` on `float64`. -/
def add : F64 → F64 → F64
  | .nan, _ => .nan
  | _, .nan => .nan
  | .inf a, .inf b => if a = b then .inf a else .nan
  | .inf a, .finite _ => .inf a
  | .finite _, .inf b => .inf b
  | .finite x, .finite y =>
    if x.value + y.value = 0 then .finite ⟨x.sign && y.sign, 0, by decide⟩
    else round (x.value + y.value)

/-- `float64(i)` of an `int64`. -/
def ofInt64 (i : Int64) : F64 := .finite (Float64.ofInt64 i)

/-- `x == y` on `float64`. -/
def beq : F64 → F64 → Bool
  | .finite x, .finite y => decide (x.value = y.value)
  | .inf a, .inf b => a == b
  | _, _ => false

/-- A sum of finite values that is not exactly zero is the exact sum rounded. -/
theorem add_finite {x y : Float64} (h : x.value + y.value ≠ 0) :
    add (.finite x) (.finite y) = round (x.value + y.value) := by
  simp [add, h]

theorem ofInt64_zero : ofInt64 0 = zero := by
  simp [ofInt64, zero, Float64.ofInt64, Float64.roundMag_zero]

/-- A rational that is the value of a finite magnitude rounds to it. -/
theorem round_magValue {m : Nat} (hm : m < infMag) (hpos : 0 < m) :
    round (Float64.magValue m) = .finite ⟨false, m, hm⟩ := by
  have hv := Float64.magValue_pos hpos
  have hround : Float64.roundMag |Float64.magValue m| = m := by
    rw [abs_of_pos hv]
    exact Float64.roundMag_of_admissible hm (Float64.admissible_magValue m)
  simp only [round, hround, dif_pos hm, not_lt.mpr hv.le, decide_false]

end F64

end Go
