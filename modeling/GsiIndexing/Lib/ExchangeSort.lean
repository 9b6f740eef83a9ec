import Mathlib.Data.List.Sort
import Mathlib.Data.List.GetD

/-!
# Exchange sort and the bubble pass, over a total preorder

Two in-place loops over a list, each comparing the elements at two positions and swapping
them (`List.swap`) when the first is not below the second in a relation `r`:

* `exchangeSort`: for each position `i` but the last, and each later position `j`, the
  elements at `i` and `j` swap unless the one at `i` is `r`-below the one at `j`.
* `bubble`: the element at the front moves back one place at a time past each element it is
  not `r`-below, and stops at the first it is.

For `r` total and transitive (a total preorder):

* **`exchangeRound_zero`**: one inner round at position `0` brings to the front an element
  `r`-below all the others, and only permutes the list.
* **`exchangeSort_spec`**: the sort returns a permutation of its input that is `r`-sorted.
* **`bubble_cons`**: the bubble pass is `List.orderedInsert` of the front element into the
  rest, so Mathlib's lemmas about it give sortedness and the permutation.
-/

namespace ExchangeSort

variable {α : Type*} (r : α → α → Prop) [DecidableRel r] [Inhabited α]

/-- One round of the inner loop: the elements at `i` and `j` swap unless the one at `i` is
`r`-below the one at `j`. -/
def exchange (i : Nat) (l : List α) (j : Nat) : List α :=
  if r (l.getD i default) (l.getD j default) then l else l.swap i j

/-- The inner loop for position `i`: one `exchange` with each later position in turn. -/
def exchangeRound (l : List α) (i : Nat) : List α :=
  (List.range' (i + 1) (l.length - (i + 1))).foldl (exchange r i) l

/-- Exchange sort: the inner loop for each position but the last. -/
def exchangeSort (l : List α) : List α :=
  (List.range (l.length - 1)).foldl (exchangeRound r) l

/-- The bubble pass from position `pos`, over the positions `is` after it: the element at
`pos` swaps with the next one unless it is `r`-below it, and the pass stops at the first
that it is `r`-below. -/
def bubbleFrom : List α → Nat → List Nat → List α
  | l, _, [] => l
  | l, pos, i :: is =>
    if r (l.getD pos default) (l.getD i default) then l else bubbleFrom (l.swap pos i) i is

/-- The bubble pass of the front element over the rest of the list. -/
def bubble (l : List α) : List α := bubbleFrom r l 0 (List.range' 1 (l.length - 1))

/-! ## §1 — swaps behind a prefix

The sort works on a list whose front is already in place: a swap at positions past a prefix
is a swap in the rest. -/

section Swap

variable {r}

omit [Inhabited α] in
theorem swap_append_left (pre l : List α) (i j : Nat) :
    (pre ++ l).swap (pre.length + i) (pre.length + j) = pre ++ l.swap i j := by
  induction pre with
  | nil => simp
  | cons a pre ih =>
    rw [List.cons_append, List.length_cons, Nat.add_right_comm, Nat.add_right_comm _ 1 j,
      List.swap_cons, ih, List.cons_append]

omit [Inhabited α] in
/-- What a swap leaves at position `m`. -/
theorem getD_swap {l : List α} {i j : Nat} (hi : i < l.length) (hj : j < l.length) (m : Nat)
    (d : α) :
    (l.swap i j).getD m d = if m = i then l.getD j d else if m = j then l.getD i d else l.getD m d := by
  by_cases hm : m < l.length
  · have hm' : m < (l.swap i j).length := by rwa [List.length_swap]
    rw [List.getD_eq_getElem _ _ hm', List.getElem_swap]
    split_ifs <;> simp_all
  · have hmi : m ≠ i := by omega
    have hmj : m ≠ j := by omega
    rw [if_neg hmi, if_neg hmj, List.getD_eq_default _ _ (by simpa using hm),
      List.getD_eq_default _ _ (by omega)]

theorem exchange_perm (i : Nat) (l : List α) (j : Nat) : (exchange r i l j).Perm l := by
  unfold exchange
  split
  · exact List.Perm.refl l
  · exact List.swap_perm l i j

theorem length_exchange (i : Nat) (l : List α) (j : Nat) :
    (exchange r i l j).length = l.length :=
  (exchange_perm i l j).length_eq

theorem exchangeRound_perm (l : List α) (i : Nat) : (exchangeRound r l i).Perm l := by
  unfold exchangeRound
  -- each round of the fold only permutes
  suffices h : ∀ (js : List Nat) (m : List α), (js.foldl (exchange r i) m).Perm m from h _ l
  intro js
  induction js with
  | nil => intro m; exact List.Perm.refl m
  | cons j js ih => intro m; exact (ih _).trans (exchange_perm i m j)

theorem exchange_append (pre l : List α) (j : Nat) :
    exchange r pre.length (pre ++ l) (pre.length + j) = pre ++ exchange r 0 l j := by
  unfold exchange
  rw [List.getD_append_right _ _ _ _ (le_refl _),
    List.getD_append_right _ _ _ _ (Nat.le_add_right _ _), Nat.sub_self, Nat.add_sub_cancel_left]
  split
  · rfl
  · simpa using swap_append_left pre l 0 j

/-- The inner round for the position just past a prefix is the round at `0` of the rest. -/
theorem exchangeRound_append (pre l : List α) :
    exchangeRound r (pre ++ l) pre.length = pre ++ exchangeRound r l 0 := by
  unfold exchangeRound
  have hjs : List.range' (pre.length + 1) ((pre ++ l).length - (pre.length + 1)) =
      (List.range' 1 (l.length - (0 + 1))).map (pre.length + ·) := by
    rw [List.map_add_range', List.length_append]
    congr 1
    omega
  rw [hjs, List.foldl_map]
  -- the rounds one by one, each an `exchange` past the prefix
  suffices h : ∀ (js : List Nat) (m : List α),
      js.foldl (fun x y => exchange r pre.length x (pre.length + y)) (pre ++ m) =
        pre ++ js.foldl (exchange r 0) m from h _ l
  intro js
  induction js with
  | nil => intro m; rfl
  | cons j js ih =>
    intro m
    rw [List.foldl_cons, exchange_append, ih, List.foldl_cons]

end Swap

/-! ## §2 — the inner round brings a least element to the front

Induction on the number of positions compared with the front: after the rounds with
positions `1 … t`, the front element is `r`-below each element at those positions. A swap
at `t + 1` brings a smaller element to the front, still below the others by transitivity. -/

section Round

variable {r} [Std.Total r] [IsTrans α r]

theorem exchange_zero_inv (l : List α) :
    ∀ t, t + 1 ≤ l.length →
      ((List.range' 1 t).foldl (exchange r 0) l).Perm l ∧
        ∀ m, 1 ≤ m → m ≤ t →
          r (((List.range' 1 t).foldl (exchange r 0) l).getD 0 default)
            (((List.range' 1 t).foldl (exchange r 0) l).getD m default) := by
  intro t
  induction t with
  | zero =>
    intro _
    exact ⟨List.Perm.refl l, fun m h1 h2 => absurd h2 (by omega)⟩
  | succ t ih =>
    intro ht
    obtain ⟨hperm, hlow⟩ := ih (by omega)
    rw [List.range'_concat, List.foldl_append, List.foldl_cons, List.foldl_nil]
    set L := (List.range' 1 t).foldl (exchange r 0) l
    have hlen : L.length = l.length := hperm.length_eq
    have hj : 1 + 1 * t = t + 1 := by omega
    rw [hj]
    refine ⟨(exchange_perm 0 L (t + 1)).trans hperm, ?_⟩
    intro m h1 h2
    unfold exchange
    split
    case isTrue hle =>
      rcases Nat.lt_or_eq_of_le h2 with hlt | rfl
      · exact hlow m h1 (by omega)
      · exact hle
    case isFalse hgt =>
      -- the element at `t + 1` is below the old front, which was below the others
      have hback := (total_of r (L.getD 0 default) (L.getD (t + 1) default)).resolve_left hgt
      rw [getD_swap (by omega) (by omega), getD_swap (by omega) (by omega), if_pos rfl]
      rcases Nat.lt_or_eq_of_le h2 with hlt | rfl
      · rw [if_neg (by omega), if_neg (by omega)]
        exact trans_of r hback (hlow m h1 (by omega))
      · rw [if_neg (by omega), if_pos rfl]
        exact hback

/-- **The inner round at the front.** It permutes the list and leaves at the front an
element `r`-below every other. -/
theorem exchangeRound_zero {l : List α} (hl : l ≠ []) :
    ∃ y ys, exchangeRound r l 0 = y :: ys ∧ (y :: ys).Perm l ∧ ∀ z ∈ ys, r y z := by
  have hpos : 0 < l.length := List.length_pos_iff.mpr hl
  obtain ⟨hperm, hlow⟩ := exchange_zero_inv (r := r) l (l.length - 1) (by omega)
  have heq : exchangeRound r l 0 = (List.range' 1 (l.length - 1)).foldl (exchange r 0) l := rfl
  rw [← heq] at hperm hlow
  cases hL : exchangeRound r l 0 with
  | nil =>
    rw [hL] at hperm
    exact absurd hperm.symm.eq_nil hl
  | cons y ys =>
    rw [hL] at hperm hlow
    refine ⟨y, ys, rfl, hperm, fun z hz => ?_⟩
    obtain ⟨k, hk, rfl⟩ := List.getElem_of_mem hz
    have hys : ys.length + 1 = l.length := by simpa using hperm.length_eq
    have := hlow (k + 1) (by omega) (by omega)
    rwa [List.getD_cons_zero, List.getD_cons_succ, List.getD_eq_getElem _ _ hk] at this

end Round

/-! ## §3 — the whole sort

Induction on the number of outer rounds: after `m` of them the list is a sorted prefix of
length `m`, each element of which is `r`-below every element of the rest. -/

section Sorting

variable {r} [Std.Total r] [IsTrans α r]

theorem exchangeSort_inv (l : List α) :
    ∀ m, m ≤ l.length - 1 →
      ∃ pre rest, (List.range m).foldl (exchangeRound r) l = pre ++ rest ∧ pre.length = m ∧
        (pre ++ rest).Perm l ∧ pre.Pairwise r ∧ ∀ x ∈ pre, ∀ y ∈ rest, r x y := by
  intro m
  induction m with
  | zero =>
    intro _
    exact ⟨[], l, rfl, rfl, List.Perm.refl l, List.Pairwise.nil, by simp⟩
  | succ m ih =>
    intro hm
    obtain ⟨pre, rest, hfold, hlen, hperm, hsorted, hbelow⟩ := ih (by omega)
    have hrest : rest ≠ [] := by
      intro h
      have := hperm.length_eq
      simp [h] at this
      omega
    obtain ⟨y, ys, hround, hyperm, hy⟩ := exchangeRound_zero (r := r) hrest
    have hmem : ∀ z, z ∈ y :: ys → z ∈ rest := fun z hz => hyperm.mem_iff.mp hz
    refine ⟨pre ++ [y], ys, ?_, by simp [hlen], ?_, ?_, ?_⟩
    · rw [List.range_succ, List.foldl_append, hfold, List.foldl_cons, List.foldl_nil, ← hlen,
        exchangeRound_append, hround]
      simp
    · simpa using (List.Perm.append_left pre hyperm).trans hperm
    · refine List.pairwise_append.mpr ⟨hsorted, List.pairwise_singleton r y, ?_⟩
      intro x hx z hz
      rw [List.mem_singleton] at hz
      exact hbelow x hx z (hmem z (by simp [hz]))
    · intro x hx z hz
      rcases List.mem_append.mp hx with hx | hx
      · exact hbelow x hx z (hmem z (List.mem_cons_of_mem y hz))
      · rw [List.mem_singleton.mp hx]
        exact hy z hz

/-- **Exchange sort is a sort.** For a total preorder, the result is a permutation of the
input and is sorted. -/
theorem exchangeSort_spec (l : List α) :
    (exchangeSort r l).Perm l ∧ (exchangeSort r l).Pairwise r := by
  obtain ⟨pre, rest, hfold, hlen, hperm, hsorted, hbelow⟩ :=
    exchangeSort_inv (r := r) l (l.length - 1) le_rfl
  unfold exchangeSort
  rw [hfold]
  refine ⟨hperm, List.pairwise_append.mpr ⟨hsorted, ?_, hbelow⟩⟩
  -- what is left after the last round holds at most one element
  have hle : rest.length ≤ 1 := by
    have := hperm.length_eq
    simp at this
    omega
  match rest, hle with
  | [], _ => exact List.Pairwise.nil
  | [a], _ => exact List.pairwise_singleton r a

end Sorting

/-! ## §4 — the bubble pass is an ordered insertion

Induction on the rest of the list: each swap moves one element from after the bubbled one to
before it, where it joins the prefix. -/

section Bubble

variable {r}

theorem bubbleFrom_append (x : α) (t : List α) :
    ∀ pre : List α, bubbleFrom r (pre ++ x :: t) pre.length
      (List.range' (pre.length + 1) t.length) = pre ++ t.orderedInsert r x := by
  induction t with
  | nil => intro pre; rfl
  | cons b t ih =>
    intro pre
    rw [List.length_cons, List.range'_succ, bubbleFrom,
      List.getD_append_right _ _ _ _ (le_refl _),
      List.getD_append_right _ _ _ _ (Nat.le_succ _), Nat.sub_self,
      show pre.length + 1 - pre.length = 1 by omega, List.getD_cons_zero, List.getD_cons_succ,
      List.getD_cons_zero, List.orderedInsert_cons]
    split
    · rfl
    · -- `b` moves in front of `x` and joins the prefix
      have hswap : (pre ++ x :: b :: t).swap pre.length (pre.length + 1) = (pre ++ [b]) ++ x :: t := by
        simpa using swap_append_left pre (x :: b :: t) 0 1
      have := ih (pre ++ [b])
      rw [List.length_append, List.length_singleton] at this
      rw [hswap, this]
      simp

/-- **The bubble pass inserts the front element into the rest.** -/
theorem bubble_cons (x : α) (t : List α) : bubble r (x :: t) = t.orderedInsert r x := by
  simpa [bubble] using bubbleFrom_append (r := r) x t []

theorem bubble_perm (l : List α) : (bubble r l).Perm l := by
  cases l with
  | nil => exact List.Perm.refl []
  | cons x t =>
    rw [bubble_cons]
    exact List.perm_orderedInsert r x t

/-- **The bubble pass sorts a list sorted after its front.** -/
theorem bubble_pairwise [Std.Total r] [IsTrans α r] {l : List α} (hl : l.tail.Pairwise r) :
    (bubble r l).Pairwise r := by
  cases l with
  | nil => exact List.Pairwise.nil
  | cons x t =>
    rw [bubble_cons]
    exact hl.orderedInsert x t

end Bubble

end ExchangeSort
