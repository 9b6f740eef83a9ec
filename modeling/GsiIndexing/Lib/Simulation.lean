import Mathlib.Logic.Basic

/-!
# Forward simulation of a machine by a total specification

An implementation is a machine that answers each call with a reply and a new state, or
fails (a runtime panic). Its specification is a total machine over an abstract state. A call
is *admissible* when it meets a precondition in the abstract state it is made in, so the
preconditions of a whole sequence of calls are read along the specification's run.

`run_simulates` is the induction over the calls, done once: a relation that one step
preserves, with equal replies, relates the two whole runs, and the implementation never
fails on an admissible sequence.
-/

namespace Simulation

variable {σ α ι ο : Type}

/-- The implementation's run: the replies to `calls` and the final state, or `none` when a
call fails. -/
def run (step : σ → ι → Option (ο × σ)) : σ → List ι → Option (List ο × σ)
  | s, [] => some ([], s)
  | s, i :: calls =>
    match step s i with
    | none => none
    | some (o, s') => (run step s' calls).map fun r => (o :: r.1, r.2)

/-- The specification's run. -/
def runSpec (spec : α → ι → ο × α) : α → List ι → List ο × α
  | a, [] => ([], a)
  | a, i :: calls =>
    let r := runSpec spec (spec a i).2 calls
    ((spec a i).1 :: r.1, r.2)

/-- Every call meets `pre` in the abstract state it is made in. -/
def Admissible (spec : α → ι → ο × α) (pre : α → ι → Prop) : α → List ι → Prop
  | _, [] => True
  | a, i :: calls => pre a i ∧ Admissible spec pre (spec a i).2 calls

instance decidableAdmissible (spec : α → ι → ο × α) (pre : α → ι → Prop)
    [∀ a i, Decidable (pre a i)] : ∀ a calls, Decidable (Admissible spec pre a calls)
  | _, [] => isTrue trivial
  | a, i :: calls =>
    have := decidableAdmissible spec pre (spec a i).2 calls
    inferInstanceAs (Decidable (pre a i ∧ _))

/-- A precondition that always holds admits every sequence. -/
theorem admissible_of_forall {spec : α → ι → ο × α} {pre : α → ι → Prop} (h : ∀ a i, pre a i) :
    ∀ calls a, Admissible spec pre a calls := by
  intro calls
  induction calls with
  | nil => intro a; trivial
  | cons i calls ih => intro a; exact ⟨h a i, ih _⟩

section Simulates

variable {step : σ → ι → Option (ο × σ)} {spec : α → ι → ο × α} {pre : α → ι → Prop}
  (R : σ → α → Prop)

/-- The one-step obligation: from related states an admissible call succeeds, replies as the
specification does, and ends in related states. -/
def StepSimulates (step : σ → ι → Option (ο × σ)) (spec : α → ι → ο × α)
    (pre : α → ι → Prop) : Prop :=
  ∀ s a i, R s a → pre a i → ∃ s', step s i = some ((spec a i).1, s') ∧ R s' (spec a i).2

/-- **Forward simulation over whole runs.** -/
theorem run_simulates (hstep : StepSimulates R step spec pre) :
    ∀ calls s a, R s a → Admissible spec pre a calls →
      ∃ s', run step s calls = some ((runSpec spec a calls).1, s') ∧
        R s' (runSpec spec a calls).2 := by
  intro calls
  induction calls with
  | nil => intro s a hR _; exact ⟨s, rfl, hR⟩
  | cons i calls ih =>
    intro s a hR hadm
    obtain ⟨s1, hs1, hR1⟩ := hstep s a i hR hadm.1
    obtain ⟨s', hrun, hR'⟩ := ih s1 _ hR1 hadm.2
    refine ⟨s', ?_, hR'⟩
    simp only [run, hs1, hrun, runSpec, Option.map_some]

end Simulates

end Simulation
