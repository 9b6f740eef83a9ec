import Mathlib.Order.Basic

/-!
# Lexicographic codes — comparing concatenations piece by piece

Order-preserving binary encodings are compared with a single lexicographic comparison of
the whole byte string, while the values they encode are compared field by field. The
bridge between the two is the notion `LexAgree cmp enc x y`: comparing `enc x` followed by
*any* continuation with `enc y` followed by any other continuation decides `cmp x y` first
and only then looks at the continuations. A code with this property is self-delimiting
(no code word is a proper prefix of another one it differs from), and it composes: codes
can be prefixed by a tag, concatenated, and repeated under a terminator that sorts below
every code word's first symbol.

Everything here is generic in the symbol type and the comparator; it only uses the lawful
comparison classes of the core library.
-/

namespace LexCode

open Std

variable {α : Type*} [Ord α]

section Basic

variable [LawfulEqOrd α]

/-- A common prefix does not take part in the comparison. -/
@[simp] theorem compare_append_left (p a b : List α) :
    compare (p ++ a) (p ++ b) = compare a b := by
  induction p with
  | nil => rfl
  | cons x p ih => simp [List.compare_cons_cons, ReflOrd.compare_self, ih]

/-- A leading symbol compares first. -/
theorem compare_cons_cons_of_ne {x y : α} (h : x ≠ y) (a b : List α) :
    compare (x :: a) (y :: b) = compare x y := by
  have hne : compare x y ≠ .eq := fun he => h (LawfulEqOrd.eq_of_compare he)
  rw [List.compare_cons_cons]
  cases hc : compare x y <;> simp_all

/-- A decided comparison ignores what would break a tie. -/
theorem then_of_ne_eq {o : Ordering} (h : o ≠ .eq) (p : Ordering) : o.then p = o := by
  cases o <;> simp_all [Ordering.then]

omit [LawfulEqOrd α] in
/-- Words of one length compare first, and only a tie looks at what follows them. -/
theorem compare_append_of_length_eq {a b : List α} (h : a.length = b.length) (s t : List α) :
    compare (a ++ s) (b ++ t) = (compare a b).then (compare s t) := by
  induction a generalizing b with
  | nil =>
    cases b with
    | nil => rfl
    | cons y b => simp at h
  | cons x a ih =>
    cases b with
    | nil => simp at h
    | cons y b =>
      simp only [List.length_cons, Nat.add_right_cancel_iff] at h
      rw [List.cons_append, List.cons_append, List.compare_cons_cons, List.compare_cons_cons,
        ih h, Ordering.then_assoc]

end Basic

/-! ## Codes that agree with a comparison -/

/-- `enc x` and `enc y` agree with `cmp x y` under every continuation: the comparison of
`enc x ++ s` with `enc y ++ t` is `cmp x y`, and when that is a tie it is the comparison of
the continuations. -/
def LexAgree {β : Type*} (cmp : β → β → Ordering) (enc : β → List α) (x y : β) : Prop :=
  ∀ s t : List α, compare (enc x ++ s) (enc y ++ t) = (cmp x y).then (compare s t)

section Agree

variable {β γ : Type*} {cmp : β → β → Ordering} {enc : β → List α}

/-- Without continuations the codes compare exactly as the values do. -/
theorem LexAgree.compare_eq {x y : β} (h : LexAgree cmp enc x y) :
    compare (enc x) (enc y) = cmp x y := by
  simpa using h [] []

/-- Agreement survives a re-association of the continuation on both sides. -/
theorem LexAgree.append {x y : β} (h : LexAgree cmp enc x y) (s s' t t' : List α) :
    compare (enc x ++ s ++ s') (enc y ++ t ++ t') = (cmp x y).then (compare (s ++ s') (t ++ t')) := by
  simpa [List.append_assoc] using h (s ++ s') (t ++ t')

/-- Agreement only depends on the code words: a code equal to an agreeing one agrees. -/
theorem LexAgree.congr {enc' : β → List α} {x y : β} (h : LexAgree cmp enc x y)
    (hx : enc' x = enc x) (hy : enc' y = enc y) : LexAgree cmp enc' x y := by
  intro s t
  rw [hx, hy]
  exact h s t

/-- A fixed symbol in front of every code word keeps the agreement. -/
theorem LexAgree.cons [LawfulEqOrd α] (c : α) {x y : β} (h : LexAgree cmp enc x y) :
    LexAgree cmp (fun z => c :: enc z) x y := by
  intro s t
  simpa using h s t

/-- A fixed word after every code word keeps the agreement. -/
theorem LexAgree.append_right [LawfulEqOrd α] (w : List α) {x y : β} (h : LexAgree cmp enc x y) :
    LexAgree cmp (fun z => enc z ++ w) x y := by
  intro s t
  simpa using h (w ++ s) (w ++ t)

/-- Agreement moves to other values under another code and comparison that give the same
code words and the same comparison. -/
theorem LexAgree.transport {cmp' : γ → γ → Ordering} {enc' : γ → List α} {x y : β} {x' y' : γ}
    (h : LexAgree cmp enc x y) (hx : enc' x' = enc x) (hy : enc' y' = enc y)
    (hc : cmp' x' y' = cmp x y) : LexAgree cmp' enc' x' y' := by
  intro s t
  rw [hx, hy, hc]
  exact h s t

/-- A value that ties with itself agrees with itself under any code. -/
theorem lexAgree_refl [LawfulEqOrd α] {x : β} (h : cmp x x = .eq) : LexAgree cmp enc x x := by
  intro s t
  rw [compare_append_left, h, Ordering.eq_then]

/-- Two agreeing codes in sequence agree with the lexicographic pair comparison. -/
theorem LexAgree.seq {cmp' : γ → γ → Ordering} {enc' : γ → List α} {x y : β} {u v : γ}
    (h : LexAgree cmp enc x y) (h' : LexAgree cmp' enc' u v) :
    LexAgree (fun p q : β × γ => (cmp p.1 q.1).then (cmp' p.2 q.2))
      (fun p => enc p.1 ++ enc' p.2) (x, u) (y, v) := by
  intro s t
  simp only [List.append_assoc]
  rw [h, h', Ordering.then_assoc]

end Agree

/-- The lexicographic comparison of mapped lists compares the images. -/
theorem compareLex_map {β γ : Type*} (cmp : γ → γ → Ordering) (f : β → γ) (xs ys : List β) :
    List.compareLex cmp (xs.map f) (ys.map f) = List.compareLex (fun a b => cmp (f a) (f b)) xs ys := by
  induction xs generalizing ys with
  | nil => cases ys <;> rfl
  | cons x xs ih =>
    cases ys with
    | nil => rfl
    | cons y ys => rw [List.map_cons, List.map_cons, List.compareLex_cons_cons,
        List.compareLex_cons_cons, ih]

/-! ## Terminated sequences

A terminator `z` that sorts below every symbol of the words it closes (or below the first
symbol of every code word in a repetition) makes the shorter sequence sort first. -/

section Terminated

variable [OrientedOrd α] [LawfulEqOrd α]

/-- Words whose symbols all sort above `z`, closed by `z`, compare as the words do and
then as what follows. -/
theorem compare_append_terminator {z : α} {a b : List α}
    (ha : ∀ c ∈ a, compare z c = .lt) (hb : ∀ c ∈ b, compare z c = .lt) (s t : List α) :
    compare (a ++ z :: s) (b ++ z :: t) = (compare a b).then (compare s t) := by
  induction a generalizing b with
  | nil =>
    cases b with
    | nil => simp [List.compare_cons_cons, ReflOrd.compare_self]
    | cons y b =>
      have hzy : compare z y = .lt := hb y (by simp)
      simp [List.compare_cons_cons, hzy]
  | cons x a ih =>
    have hzx : compare z x = .lt := ha x (by simp)
    cases b with
    | nil =>
      have hxz : compare x z = .gt := OrientedCmp.gt_of_lt hzx
      simp [List.compare_cons_cons, hxz]
    | cons y b =>
      have ih' := @ih b (fun c hc => ha c (by simp [hc])) (fun c hc => hb c (by simp [hc]))
      simp only [List.cons_append, List.compare_cons_cons]
      rw [ih', Ordering.then_assoc]

/-- Words over symbols above `z`, closed by `z`, form an agreeing code for the plain
lexicographic order on the words. -/
theorem lexAgree_terminated {z : α} {a b : List α}
    (ha : ∀ c ∈ a, compare z c = .lt) (hb : ∀ c ∈ b, compare z c = .lt) :
    LexAgree compare (fun w => w ++ [z]) a b := by
  intro s t
  simpa using compare_append_terminator ha hb s t

variable {β : Type*} {cmp : β → β → Ordering} {enc : β → List α}

/-- A repetition of agreeing code words, each starting above the terminator `z`, closed
by `z`, agrees with the lexicographic order on the value lists (a proper prefix first). -/
theorem lexAgree_flatMap_terminated {z : α} {xs ys : List β}
    (hagree : ∀ x ∈ xs, ∀ y ∈ ys, LexAgree cmp enc x y)
    (hxs : ∀ x ∈ xs, ∃ c w, enc x = c :: w ∧ compare z c = .lt)
    (hys : ∀ y ∈ ys, ∃ c w, enc y = c :: w ∧ compare z c = .lt) :
    LexAgree (List.compareLex cmp) (fun l => l.flatMap enc ++ [z]) xs ys := by
  intro s t
  induction xs generalizing ys with
  | nil =>
    cases ys with
    | nil => simp [List.compare_cons_cons, ReflOrd.compare_self, List.compareLex_nil_nil]
    | cons y ys =>
      obtain ⟨c, w, hy, hzc⟩ := hys y (by simp)
      simp [hy, List.compare_cons_cons, hzc, List.compareLex_nil_cons]
  | cons x xs ih =>
    cases ys with
    | nil =>
      obtain ⟨c, w, hx, hzc⟩ := hxs x (by simp)
      have hcz : compare c z = .gt := OrientedCmp.gt_of_lt hzc
      simp [hx, List.compare_cons_cons, hcz, List.compareLex_cons_nil]
    | cons y ys =>
      have hxy := hagree x (by simp) y (by simp)
      have ih' := @ih ys (fun x' hx' y' hy' => hagree x' (by simp [hx']) y' (by simp [hy']))
        (fun x' hx' => hxs x' (by simp [hx'])) (fun y' hy' => hys y' (by simp [hy']))
      simp only [List.flatMap_cons, List.append_assoc] at ih' ⊢
      rw [hxy, List.compareLex_cons_cons, Ordering.then_assoc]
      simpa using congrArg ((cmp x y).then ·) ih'

/-- **Escaped words.** A word written symbol by symbol through `sym` and closed by the end
marker `e` agrees with the lexicographic order on words, when two different symbols are
decided inside their code words and the end marker sorts below every symbol's code word
(this is what escaping the marker's bytes inside the word achieves). -/
theorem lexAgree_flatMap_end {β : Type*} [Ord β] [LawfulEqOrd β] {sym : β → List α} {e : List α}
    (hsym : ∀ a b, a ≠ b → ∀ s t, compare (sym a ++ s) (sym b ++ t) = compare a b)
    (hend : ∀ a s t, compare (e ++ s) (sym a ++ t) = .lt) (w w' : List β) :
    LexAgree compare (fun w => w.flatMap sym ++ e) w w' := by
  intro s t
  induction w generalizing w' with
  | nil =>
    cases w' with
    | nil => simp
    | cons b w' => simp [List.compare_nil_cons, hend]
  | cons a w ih =>
    cases w' with
    | nil =>
      have hswap : ∀ u v : List α, compare u v = (compare v u).swap := fun _ _ => OrientedCmp.eq_swap
      simp only [List.flatMap_cons, List.flatMap_nil, List.nil_append, List.append_assoc,
        List.compare_cons_nil]
      rw [hswap, hend]
      rfl
    | cons b w' =>
      simp only [List.flatMap_cons, List.append_assoc]
      by_cases hab : a = b
      · subst hab
        rw [compare_append_left, List.compare_cons_cons, ReflOrd.compare_self, Ordering.eq_then]
        simpa [List.append_assoc] using ih w'
      · rw [hsym a b hab, List.compare_cons_cons, Ordering.then_assoc]
        have hne : compare a b ≠ .eq := fun h => hab (LawfulEqOrd.eq_of_compare h)
        rw [then_of_ne_eq hne]

end Terminated

/-! ## Prefix-incomparable words and symbol maps

Two words neither of which is a prefix of the other are decided inside both, so nothing
appended to them matters, and a symbol map that reverses the symbol order reverses their
comparison. Agreeing codes are of this kind whenever the values differ. -/

section Incomparable

variable [LawfulEqOrd α]

/-- Words that are not prefixes of each other are compared inside both. -/
theorem compare_append_of_incomparable {a b : List α} (hab : ¬ a <+: b) (hba : ¬ b <+: a)
    (s t : List α) : compare (a ++ s) (b ++ t) = compare a b := by
  induction a generalizing b with
  | nil => exact absurd (List.nil_prefix) hab
  | cons x a ih =>
    cases b with
    | nil => exact absurd (List.nil_prefix) hba
    | cons y b =>
      by_cases hxy : x = y
      · subst hxy
        simp only [List.cons_prefix_cons, true_and] at hab hba
        rw [List.cons_append, List.cons_append, List.compare_cons_cons, List.compare_cons_cons, ReflOrd.compare_self,
          Ordering.eq_then, Ordering.eq_then, ih hab hba]
      · rw [List.cons_append, List.cons_append, compare_cons_cons_of_ne hxy,
          compare_cons_cons_of_ne hxy]

omit [LawfulEqOrd α] in
/-- A symbol map that preserves the order of the symbols involved preserves the order of
words. -/
theorem compare_map_of_compare {β : Type*} [Ord β] {φ : α → β} {a b : List α}
    (hφ : ∀ c ∈ a, ∀ d ∈ b, compare (φ c) (φ d) = compare c d) :
    compare (a.map φ) (b.map φ) = compare a b := by
  induction a generalizing b with
  | nil => cases b <;> rfl
  | cons x a ih =>
    cases b with
    | nil => rfl
    | cons y b =>
      simp only [List.map_cons, List.compare_cons_cons]
      rw [hφ x (by simp) y (by simp),
        ih (fun c hc d hd => hφ c (by simp [hc]) d (by simp [hd]))]

variable [OrientedOrd α] {β : Type*} [Ord β] [LawfulEqOrd β]

/-- A symbol map that reverses the order of the symbols involved reverses the order of
prefix-incomparable words, whatever follows them. -/
theorem compare_append_map_swap {φ : α → β} {a b : List α}
    (hφ : ∀ c ∈ a, ∀ d ∈ b, compare (φ c) (φ d) = compare d c)
    (hab : ¬ a <+: b) (hba : ¬ b <+: a) (s t : List β) :
    compare (a.map φ ++ s) (b.map φ ++ t) = (compare a b).swap := by
  induction a generalizing b with
  | nil => exact absurd (List.nil_prefix) hab
  | cons x a ih =>
    cases b with
    | nil => exact absurd (List.nil_prefix) hba
    | cons y b =>
      by_cases hxy : x = y
      · subst hxy
        simp only [List.cons_prefix_cons, true_and] at hab hba
        have hxx : compare (φ x) (φ x) = .eq := ReflOrd.compare_self
        simp only [List.map_cons, List.cons_append, List.compare_cons_cons, hxx,
          ReflOrd.compare_self, Ordering.eq_then]
        exact ih (fun c hc d hd => hφ c (by simp [hc]) d (by simp [hd])) hab hba
      · have hne : compare (φ x) (φ y) ≠ .eq := by
          rw [hφ x (by simp) y (by simp)]
          exact fun h => hxy (LawfulEqOrd.eq_of_compare h).symm
        have hφxy : φ x ≠ φ y := fun h => hne (by rw [h]; exact ReflOrd.compare_self)
        rw [List.map_cons, List.map_cons, List.cons_append, List.cons_append,
          compare_cons_cons_of_ne hφxy, compare_cons_cons_of_ne hxy, hφ x (by simp) y (by simp)]
        exact OrientedCmp.eq_swap

end Incomparable

section AgreeShape

variable [LawfulEqOrd α] {β : Type*} {cmp : β → β → Ordering} {enc : β → List α} {x y : β}

/-- What agreement means for two code words: equal words for tied values, and
prefix-incomparable words ordered as the values otherwise. -/
theorem LexAgree.eq_or_incomparable (h : LexAgree cmp enc x y) :
    (cmp x y = .eq ∧ enc x = enc y) ∨
      (cmp x y ≠ .eq ∧ ¬ enc x <+: enc y ∧ ¬ enc y <+: enc x ∧ compare (enc x) (enc y) = cmp x y) := by
  by_cases hc : cmp x y = .eq
  · left
    refine ⟨hc, LawfulEqOrd.eq_of_compare ?_⟩
    rw [h.compare_eq, hc]
  · right
    refine ⟨hc, ?_, ?_, h.compare_eq⟩
    · -- a proper extension would compare equal to the longer word itself
      rintro ⟨r, hr⟩
      have := h r []
      rw [hr, List.append_nil, ReflOrd.compare_self] at this
      exact hc (Ordering.then_eq_eq.mp this.symm).1
    · rintro ⟨r, hr⟩
      have := h [] r
      rw [← hr, List.append_nil, ReflOrd.compare_self] at this
      exact hc (Ordering.then_eq_eq.mp this.symm).1

/-- The converse: tied values with equal words, or prefix-incomparable words in the order
of the values, agree. -/
theorem lexAgree_of_eq_or_incomparable
    (h : (cmp x y = .eq ∧ enc x = enc y) ∨
      (¬ enc x <+: enc y ∧ ¬ enc y <+: enc x ∧ compare (enc x) (enc y) = cmp x y)) :
    LexAgree cmp enc x y := by
  intro s t
  rcases h with ⟨hc, he⟩ | ⟨hxy, hyx, hcmp⟩
  · rw [he, hc, compare_append_left, Ordering.eq_then]
  · rw [compare_append_of_incomparable hxy hyx, hcmp]
    cases hcv : cmp x y
    · rfl
    · exact absurd (LawfulEqOrd.eq_of_compare (hcmp.trans hcv)) (fun he => hxy (he ▸ List.prefix_refl _))
    · rfl

variable {γ : Type*} [Ord γ] [LawfulEqOrd γ]

/-- **Flipping a code.** Under a symbol map that reverses the symbol order, an agreeing code
agrees with the reversed comparison. -/
theorem LexAgree.map_swap [OrientedOrd α] {φ : α → γ} (h : LexAgree cmp enc x y)
    (hφ : ∀ c ∈ enc x, ∀ d ∈ enc y, compare (φ c) (φ d) = compare d c) :
    LexAgree (fun u v => (cmp u v).swap) (fun z => (enc z).map φ) x y := by
  intro s t
  rcases h.eq_or_incomparable with ⟨hc, he⟩ | ⟨-, hxy, hyx, hcmp⟩
  · simp only [he, hc, compare_append_left, Ordering.swap, Ordering.eq_then]
  · rw [compare_append_map_swap hφ hxy hyx, hcmp]
    have hne : cmp x y ≠ .eq := fun he => hxy (LawfulEqOrd.eq_of_compare (hcmp.trans he) ▸
      List.prefix_refl _)
    show _ = ((cmp x y).swap).then (compare s t)
    cases hcv : cmp x y
    · rfl
    · exact absurd hcv hne
    · rfl

end AgreeShape

end LexCode
