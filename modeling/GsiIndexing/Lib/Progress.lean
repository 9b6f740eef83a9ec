import Mathlib.Logic.Basic

/-!
# Progress over rounds, by a variant

A system run in rounds, each round a function of the state. Where every round keeps an
invariant and a predicate `done`, and from a state that is not done lowers a measure that is
positive there, the run is done after as many rounds as the measure's value at its start.

* **`Lowers`**: what one round must do.
* **`done_of_lowers`**: the induction over the rounds, done once.
-/

namespace Progress

variable {σ : Type}

/-- The state after the rounds `fs`, in order. -/
def runRounds (fs : List (σ → σ)) (s : σ) : σ := fs.foldl (fun s f => f s) s

@[simp] theorem runRounds_nil (s : σ) : runRounds [] s = s := rfl

@[simp] theorem runRounds_cons (f : σ → σ) (fs : List (σ → σ)) (s : σ) :
    runRounds (f :: fs) s = runRounds fs (f s) := rfl

/-- A round keeps `inv` and `done`, and lowers `μ` from a state that is not done. -/
structure Lowers (inv done : σ → Prop) (μ : σ → Nat) (f : σ → σ) : Prop where
  keeps_inv : ∀ s, inv s → inv (f s)
  keeps_done : ∀ s, inv s → done s → done (f s)
  lowers : ∀ s, inv s → ¬ done s → μ (f s) < μ s

variable {inv done : σ → Prop} {μ : σ → Nat}

/-- A run that is done stays done. -/
theorem done_runRounds :
    ∀ (fs : List (σ → σ)) (s : σ), (∀ f ∈ fs, Lowers inv done μ f) → inv s → done s →
      done (runRounds fs s)
  | [], _, _, _, hd => hd
  | f :: fs, s, hfs, hs, hd => by
    have hf := hfs f List.mem_cons_self
    exact done_runRounds fs (f s) (fun g hg => hfs g (List.mem_cons_of_mem f hg))
      (hf.keeps_inv s hs) (hf.keeps_done s hs hd)

/-- **Rounds that lower a variant end done**, `μ s` of them at most, when `μ` is positive on
the states that are not done. -/
theorem done_of_lowers (hpos : ∀ s, inv s → ¬ done s → 0 < μ s) :
    ∀ (fs : List (σ → σ)) (s : σ), (∀ f ∈ fs, Lowers inv done μ f) → inv s →
      μ s ≤ fs.length → done (runRounds fs s)
  | [], s, _, hs, hμ => by
    by_cases hd : done s
    · exact hd
    · have := hpos s hs hd
      rw [List.length_nil] at hμ
      omega
  | f :: fs, s, hfs, hs, hμ => by
    have hf := hfs f List.mem_cons_self
    have hrest : ∀ g ∈ fs, Lowers inv done μ g := fun g hg => hfs g (List.mem_cons_of_mem f hg)
    rw [runRounds_cons]
    by_cases hd : done s
    · exact done_runRounds fs (f s) hrest (hf.keeps_inv s hs) (hf.keeps_done s hs hd)
    · -- the round lowers the measure, which leaves one round fewer to go
      have hlt := hf.lowers s hs hd
      rw [List.length_cons] at hμ
      exact done_of_lowers hpos fs (f s) hrest (hf.keeps_inv s hs) (by omega)

end Progress
