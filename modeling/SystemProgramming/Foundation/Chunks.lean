import Mathlib.Tactic

/-!
# A list cut at increasing offsets

`slice xs a b` is the part of a list between two offsets. Parts that meet at their ends make up
the part between the outer ends, so a list cut at increasing offsets from `0` to its length is the
concatenation of its parts. A left fold with an associative function can be done part by part,
each part from a left identity, as long as no part is empty: a left identity is all it needs.

## Main definitions

* `slice xs a b`: the elements from offset `a` up to offset `b`

## Main results

* `flatMap_slice`: the parts between increasing offsets, in order
* `foldl_foldl_slice`: a fold that is done part by part
* `mul_div_lt_succ`: cut into at most as many parts as it has elements, no part is empty
-/

namespace SystemProgramming

section Slice

variable {α : Type*} {xs : List α} {a b c : ℕ}

/-- The elements of `xs` from offset `a` up to offset `b`. -/
def slice (xs : List α) (a b : ℕ) : List α := (xs.take b).drop a

@[simp] theorem slice_self : slice xs a a = [] := by simp [slice]

theorem slice_of_le (h : b ≤ a) : slice xs a b = [] := by
  apply List.drop_eq_nil_of_le
  exact (List.length_take_le b xs).trans h

theorem slice_zero : slice xs 0 b = xs.take b := rfl

theorem slice_eq_take_drop : slice xs a b = (xs.drop a).take (b - a) := List.drop_take

theorem slice_append (hab : a ≤ b) (hbc : b ≤ c) : slice xs a b ++ slice xs b c = slice xs a c := by
  have hdrop : xs.drop b = (xs.drop a).drop (b - a) := by
    rw [List.drop_drop, Nat.add_sub_cancel' hab]
  have hlen : c - a = (b - a) + (c - b) := by omega
  rw [slice_eq_take_drop, slice_eq_take_drop, slice_eq_take_drop, hdrop, hlen, List.take_add]

theorem slice_succ (hab : a ≤ b) (hb : b < xs.length) :
    slice xs a (b + 1) = slice xs a b ++ [xs[b]] := by
  rw [slice, slice, List.take_add_one, List.getElem?_eq_getElem hb, Option.toList_some]
  apply List.drop_append_of_le_length
  rw [List.length_take]
  omega

theorem slice_ne_nil (hab : a < b) (hb : b ≤ xs.length) : slice xs a b ≠ [] := by
  apply List.ne_nil_of_length_pos
  rw [slice, List.length_drop, List.length_take]
  omega

/-- **A list cut at increasing offsets.** -/
theorem flatMap_slice {f : ℕ → ℕ} (hf : Monotone f) (n : ℕ) :
    ((List.range n).flatMap fun i => slice xs (f i) (f (i + 1))) = slice xs (f 0) (f n) := by
  induction n with
  | zero => rw [List.range_zero, List.flatMap_nil, slice_self]
  | succ n ih =>
    rw [List.range_succ, List.flatMap_append, ih, List.flatMap_singleton]
    exact slice_append (hf (Nat.zero_le n)) (hf n.le_succ)

end Slice

/-! ## Folding part by part -/

section Fold

variable {α : Type*} {f : α → α → α} {b : α}

/-- A fold of a list that is not empty can start at the left identity. -/
theorem foldl_eq_of_left_identity (hassoc : ∀ x y z, f (f x y) z = f x (f y z))
    (hb : ∀ x, f b x = x) (r : α) {xs : List α} (hne : xs ≠ []) :
    xs.foldl f r = f r (xs.foldl f b) := by
  obtain ⟨x, xs, rfl⟩ := List.exists_cons_of_ne_nil hne
  rw [List.foldl_cons, List.foldl_cons, hb]
  -- the first element carries over, so the induction is on the elements after it
  induction xs using List.reverseRecOn with
  | nil => rfl
  | append_singleton xs y ih =>
    rw [List.foldl_append, List.foldl_append, ih (List.cons_ne_nil x xs)]
    exact hassoc _ _ _

/-- **A fold that is done part by part.** The parts before offset `p t` have given the fold of
the elements before it; the part from there to `p (t + 1)` starts at the left identity. -/
theorem foldl_foldl_slice (hassoc : ∀ x y z, f (f x y) z = f x (f y z)) (hb : ∀ x, f b x = x)
    {xs : List α} {i j : ℕ} (hij : i < j) (hj : j ≤ xs.length) :
    f ((xs.take i).foldl f b) ((slice xs i j).foldl f b) = (xs.take j).foldl f b := by
  have hcut : xs.take j = xs.take i ++ slice xs i j := by
    rw [← slice_zero, ← slice_zero, slice_append (Nat.zero_le i) hij.le]
  rw [hcut, List.foldl_append]
  exact (foldl_eq_of_left_identity hassoc hb _ (slice_ne_nil hij hj)).symm

end Fold

/-! ## Offsets in even steps -/

section Even

variable {len n : ℕ}

theorem mul_div_mono (len n : ℕ) : Monotone fun i => len * i / n :=
  fun _ _ h => Nat.div_le_div_right (Nat.mul_le_mul_left len h)

theorem mul_div_le {i : ℕ} (hi : i ≤ n) : len * i / n ≤ len :=
  Nat.div_le_of_le_mul (by rw [Nat.mul_comm n]; exact Nat.mul_le_mul_left len hi)

/-- With at most as many parts as elements, no part is empty. -/
theorem mul_div_lt_succ (hn : 0 < n) (hle : n ≤ len) (i : ℕ) :
    len * i / n < len * (i + 1) / n := by
  apply Nat.lt_of_succ_le
  calc len * i / n + 1 = (len * i + n) / n := (Nat.add_div_right _ hn).symm
    _ ≤ len * (i + 1) / n := Nat.div_le_div_right (by rw [Nat.mul_succ]; omega)

end Even

end SystemProgramming
