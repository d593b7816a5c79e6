import Mathlib.Tactic
import Mathlib.Algebra.BigOperators.Fin

/-!
# Weighted counts over the parties of a system

Each party `i` is in a place `f i`, and places have weights. When one party moves, the total
weight changes by the difference of two weights. When places weigh at most one, a total tells
where the parties are.

## Main definitions

* `first`, `second`: the parties of a system of two

## Main results

* `sum_update`: one party moves
* `eq_one_of_sum`: all but one party have weight one
* `eq_zero_of_sum`: all but one party have weight zero
* `countP_snoc`: one more element of a list
-/

namespace SystemProgramming

/-- The first of two parties. -/
def first : Fin 2 := ⟨0, Nat.two_pos⟩

/-- The second of two parties. -/
def second : Fin 2 := ⟨1, Nat.one_lt_two⟩

variable {ι α : Type*} [Fintype ι] [DecidableEq ι] {w : α → Nat} {f : ι → α} {i j : ι}

/-- One party moves. -/
theorem sum_update (w : α → Nat) (f : ι → α) (i : ι) (a : α) :
    ∑ j, w (Function.update f i a j) + w (f i) = ∑ j, w (f j) + w a := by
  have hcomp : (fun j => w (Function.update f i a j)) =
      Function.update (fun j => w (f j)) i (w a) := by
    ext j
    exact Function.apply_update (fun _ => w) f i a j
  rw [hcomp, Finset.sum_update_of_mem (Finset.mem_univ i),
    Finset.sum_eq_add_sum_sdiff_singleton_of_mem (Finset.mem_univ i) fun j => w (f j)]
  omega

/-- All parties but one have weight one, when the total is one less than their number. -/
theorem eq_one_of_sum (hw : ∀ a, w a ≤ 1) (hsum : ∑ j, w (f j) + 1 = Fintype.card ι)
    (hi : w (f i) = 0) (hj : j ≠ i) : w (f j) = 1 := by
  have hle : ∀ k ∈ Finset.univ.erase i, w (f k) ≤ 1 := fun k _ => hw (f k)
  have hrest : ∑ k ∈ Finset.univ.erase i, w (f k) = ∑ k ∈ Finset.univ.erase i, 1 := by
    have hsplit := Finset.add_sum_erase Finset.univ (fun k => w (f k)) (Finset.mem_univ i)
    rw [Finset.sum_const, Finset.card_erase_of_mem (Finset.mem_univ i), Finset.card_univ,
      smul_eq_mul]
    omega
  apply (Finset.sum_eq_sum_iff_of_le hle).mp hrest
  exact Finset.mem_erase.mpr ⟨hj, Finset.mem_univ j⟩

/-- All parties but one have weight zero, when the total is the weight of that one. -/
theorem eq_zero_of_sum (hsum : ∑ k, w (f k) = w (f i)) (hj : j ≠ i) : w (f j) = 0 := by
  have hrest : ∑ k ∈ Finset.univ.erase i, w (f k) = 0 := by
    have hsplit := Finset.add_sum_erase Finset.univ (fun k => w (f k)) (Finset.mem_univ i)
    omega
  apply Finset.sum_eq_zero_iff.mp hrest
  exact Finset.mem_erase.mpr ⟨hj, Finset.mem_univ j⟩

/-- One more element. -/
theorem countP_snoc (p : α → Bool) (l : List α) (a : α) :
    (l ++ [a]).countP p = l.countP p + (p a).toNat := by
  cases h : p a <;> simp [List.countP_append, h]

end SystemProgramming
