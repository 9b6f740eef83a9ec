import Mathlib.Logic.Basic

/-!
# Go's `for` loops with `break` and `return`

One round of a loop body ends in one of three ways: it goes on with the next round, it
leaves the loop with `break`, or it leaves the function with `return`. A body is a function
from the loop's variables to a `Round`, in a monad that carries the panics of the body.

`countLoop` runs a body at most `n` times, as `for ; n > 0; n-- { … }` does, and
`whileLoop` runs it while a test holds, with fuel for the rounds. Both return the variables
the loop ends with, or what a round returned.

The run lemmas take the states of the rounds as a family `g : Nat → σ`, with one hypothesis
per round, and give the result of the whole loop.
-/

namespace GoLoop

/-- How one round of a loop body ends. -/
inductive Round (σ α : Type) where
  /-- the next round starts from these variables -/
  | next (s : σ)
  /-- `break`: the loop ends with these variables -/
  | stop (s : σ)
  /-- `return`: the function ends with this result -/
  | ret (a : α)

variable {ε σ α : Type}

/-- `for ; n > 0; n-- { body }`. -/
def countLoop (body : σ → Except ε (Round σ α)) : Nat → σ → Except ε (σ ⊕ α)
  | 0, s => pure (.inl s)
  | n + 1, s => do
    match ← body s with
    | .next s => countLoop body n s
    | .stop s => pure (.inl s)
    | .ret a => pure (.inr a)

/-- `for test(s) { body }`, at most `fuel` rounds; running out is the error `outOfFuel`. -/
def whileLoop (outOfFuel : ε) (test : σ → Except ε Bool) (body : σ → Except ε (Round σ α)) :
    Nat → σ → Except ε (σ ⊕ α)
  | 0, _ => .error outOfFuel
  | fuel + 1, s => do
    if ← test s then
      match ← body s with
      | .next s => whileLoop outOfFuel test body fuel s
      | .stop s => pure (.inl s)
      | .ret a => pure (.inr a)
    else pure (.inl s)

/-! ## One round -/

section Rounds

variable {body : σ → Except ε (Round σ α)} {s s' : σ}

@[simp] theorem countLoop_zero (body : σ → Except ε (Round σ α)) (s : σ) :
    countLoop body 0 s = .ok (.inl s) := rfl

theorem countLoop_next (n : Nat) (h : body s = .ok (.next s')) :
    countLoop body (n + 1) s = countLoop body n s' := by
  simp [countLoop, h, bind, Except.bind]

variable {outOfFuel : ε} {test : σ → Except ε Bool}

theorem whileLoop_exit (fuel : Nat) (ht : test s = .ok false) :
    whileLoop outOfFuel test body (fuel + 1) s = .ok (.inl s) := by
  simp [whileLoop, ht, bind, Except.bind, pure, Except.pure]

theorem whileLoop_next (fuel : Nat) (ht : test s = .ok true) (h : body s = .ok (.next s')) :
    whileLoop outOfFuel test body (fuel + 1) s = whileLoop outOfFuel test body fuel s' := by
  simp [whileLoop, ht, h, bind, Except.bind]

theorem whileLoop_stop (fuel : Nat) (ht : test s = .ok true) (h : body s = .ok (.stop s')) :
    whileLoop outOfFuel test body (fuel + 1) s = .ok (.inl s') := by
  simp [whileLoop, ht, h, bind, Except.bind, pure, Except.pure]

theorem whileLoop_ret (fuel : Nat) {a : α} (ht : test s = .ok true) (h : body s = .ok (.ret a)) :
    whileLoop outOfFuel test body (fuel + 1) s = .ok (.inr a) := by
  simp [whileLoop, ht, h, bind, Except.bind, pure, Except.pure]

end Rounds

/-! ## Whole runs -/

section Runs

variable {body : σ → Except ε (Round σ α)} {g : Nat → σ}

/-- `n` rounds that each go on: the loop ends with the variables of the last. -/
theorem countLoop_of_next {n : Nat} (h : ∀ k < n, body (g k) = .ok (.next (g (k + 1)))) :
    countLoop body n (g 0) = .ok (.inl (g n)) := by
  -- the rounds from `k` on, for `k` counting down from `n`
  suffices hk : ∀ m k, k + m = n → countLoop body m (g k) = .ok (.inl (g n)) from hk n 0 (by omega)
  intro m
  induction m with
  | zero =>
    intro k hk
    rw [countLoop_zero, show k = n by omega]
  | succ m ih =>
    intro k hk
    rw [countLoop_next m (h k (by omega))]
    exact ih (k + 1) (by omega)

variable {outOfFuel : ε} {test : σ → Except ε Bool}

/-- `n` rounds whose test holds and that go on, then a test that fails, within the fuel. -/
theorem whileLoop_of_next {n fuel : Nat} (hfuel : n < fuel)
    (ht : ∀ k < n, test (g k) = .ok true) (h : ∀ k < n, body (g k) = .ok (.next (g (k + 1))))
    (hend : test (g n) = .ok false) :
    whileLoop outOfFuel test body fuel (g 0) = .ok (.inl (g n)) := by
  suffices hk : ∀ f k, k ≤ n → n - k < f → whileLoop outOfFuel test body f (g k) = .ok (.inl (g n)) from
    hk fuel 0 (by omega) (by omega)
  intro f
  induction f with
  | zero =>
    intro k _ hf
    omega
  | succ f ih =>
    intro k hk hf
    rcases Nat.lt_or_eq_of_le hk with hlt | rfl
    · rw [whileLoop_next f (ht k hlt) (h k hlt)]
      exact ih (k + 1) (by omega) (by omega)
    · exact whileLoop_exit f hend

/-- Rounds whose test holds and that go on, then one that returns, within the fuel. -/
theorem whileLoop_of_ret {m fuel : Nat} {a : α} (hfuel : m < fuel)
    (ht : ∀ k ≤ m, test (g k) = .ok true) (h : ∀ k < m, body (g k) = .ok (.next (g (k + 1))))
    (hret : body (g m) = .ok (.ret a)) :
    whileLoop outOfFuel test body fuel (g 0) = .ok (.inr a) := by
  suffices hk : ∀ f k, k ≤ m → m - k < f → whileLoop outOfFuel test body f (g k) = .ok (.inr a) from
    hk fuel 0 (by omega) (by omega)
  intro f
  induction f with
  | zero =>
    intro k _ hf
    omega
  | succ f ih =>
    intro k hk hf
    rcases Nat.lt_or_eq_of_le hk with hlt | rfl
    · rw [whileLoop_next f (ht k hk) (h k hlt)]
      exact ih (k + 1) (by omega) (by omega)
    · exact whileLoop_ret f (ht k hk) hret

end Runs

/-! ## Loops that fill a slice

`for i := 0; i < n; i++ { ts[i] = f(i) }` with a body that may panic is `(List.range n).mapM f`
in `Except`. -/

/-- A body that returns at every index. -/
theorem mapM_of_ok {β : Type} {f : σ → Except ε β} {g : σ → β} :
    ∀ {l : List σ}, (∀ i ∈ l, f i = .ok (g i)) → l.mapM f = .ok (l.map g)
  | [], _ => rfl
  | i :: l, h => by
    rw [List.mapM_cons, h i List.mem_cons_self, mapM_of_ok fun j hj => h j (List.mem_cons_of_mem _ hj)]
    rfl

/-! ## Loops over a slice

`for _, x := range xs { body }` with a body that may panic is `xs.foldlM body` in `Option`. -/

/-- **The invariant of a `range` loop**: a property of the elements gone through and of the
variables, true before the loop and kept by each round at its place in the slice, holds when
the loop ends. -/
theorem foldlM_invariant {β : Type} {f : σ → β → Option σ} (P : List β → σ → Prop)
    {l : List β} {s r : σ} (h0 : P [] s)
    (hstep : ∀ pre x post s s', l = pre ++ x :: post → P pre s → f s x = some s' →
      P (pre ++ [x]) s')
    (h : l.foldlM f s = some r) : P l r := by
  -- the rounds still to go, after those of `pre`
  suffices hpost : ∀ post pre s, l = pre ++ post → P pre s → post.foldlM f s = some r → P l r from
    hpost l [] s rfl h0 h
  intro post
  induction post with
  | nil =>
    intro pre s hl hP hr
    cases hr
    simpa [hl] using hP
  | cons x post ih =>
    intro pre s hl hP hr
    rw [List.foldlM_cons] at hr
    obtain ⟨s', hs', hrest⟩ := Option.bind_eq_some_iff.1 hr
    exact ih (pre ++ [x]) s' (by simp [hl]) (hstep pre x post s s' hl hP hs') hrest

end GoLoop
