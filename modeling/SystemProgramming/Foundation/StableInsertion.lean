import Mathlib.Data.List.Sort
import Mathlib.Tactic

/-!
# Stable insertion into a sorted list

A comparer in the style of C orders values up to those that compare equal. A value is inserted
behind all that are less or equal. This keeps the list sorted, and of each class of values that
compare equal it puts the new one last.

## Main definitions

* `TotalPreorder`: a comparer that orders all values
* `insertBehind`, `positionBehind`: the insertion, and where it inserts

## Main results

* `sorted_insertBehind`: the list stays sorted
* `filter_insertBehind`: in its class the new value is the last
-/

namespace SystemProgramming

variable {α β : Type*} {cmp : α → α → Int} {a b c x : α} {q : List α}

/-! ## Comparers -/

/-- A comparer that orders all values: it is negative one way round exactly when it is positive
the other way round, and it is transitive. -/
structure TotalPreorder (cmp : α → α → Int) : Prop where
  swap : ∀ a b, cmp a b < 0 ↔ 0 < cmp b a
  trans : ∀ a b c, cmp a b ≤ 0 → cmp b c ≤ 0 → cmp a c ≤ 0

namespace TotalPreorder

variable (h : TotalPreorder cmp)

include h

theorem nonpos_iff : cmp a b ≤ 0 ↔ ¬ cmp b a < 0 := by
  rw [h.swap b a, not_lt]

theorem neg_of_neg_of_nonpos (hab : cmp a b < 0) (hbc : cmp b c ≤ 0) : cmp a c < 0 := by
  by_contra hac
  exact (h.nonpos_iff.mp (h.trans b c a hbc (h.nonpos_iff.mpr hac))) hab

theorem nonpos_of_eq (hab : cmp a b = 0) : cmp b a ≤ 0 := by
  rw [h.nonpos_iff]
  omega

/-- Values that compare equal compare with others in the same way. -/
theorem ne_zero_of_neg (hxc : cmp x c = 0) (hxa : cmp x a < 0) : cmp a c ≠ 0 := by
  intro hac
  have hcx : cmp c x ≤ 0 := h.nonpos_of_eq hxc
  have hax : cmp a x ≤ 0 := h.trans a c x hac.le hcx
  exact h.nonpos_iff.mp hax hxa

end TotalPreorder

/-- A comparer of ranks in a linear order. -/
theorem TotalPreorder.of_rank [LinearOrder β] (f : α → β)
    (hneg : ∀ a b, cmp a b < 0 ↔ f a < f b) (hnonpos : ∀ a b, cmp a b ≤ 0 ↔ f a ≤ f b) :
    TotalPreorder cmp where
  swap a b := by rw [hneg, ← not_le, ← hnonpos, not_le]
  trans a b c hab hbc := by
    rw [hnonpos] at *
    exact hab.trans hbc

/-! ## Insertion -/

/-- Insert behind all values that are less or equal, from the left. -/
def insertBehind (cmp : α → α → Int) (x : α) (q : List α) : List α :=
  q.orderedInsert (fun a b => cmp a b < 0) x

theorem insertBehind_cons_of_neg (hneg : cmp x b < 0) :
    insertBehind cmp x (b :: q) = x :: b :: q :=
  List.orderedInsert_cons_of_le _ _ hneg

theorem insertBehind_cons_of_not_neg (hneg : ¬ cmp x b < 0) :
    insertBehind cmp x (b :: q) = b :: insertBehind cmp x q :=
  List.orderedInsert_of_not_le _ _ hneg

/-- The number of values that stay in front of an inserted one. -/
def positionBehind (cmp : α → α → Int) (x : α) (q : List α) : Nat :=
  (q.takeWhile fun b => ¬ cmp x b < 0).length

theorem positionBehind_cons_of_neg (hneg : cmp x b < 0) : positionBehind cmp x (b :: q) = 0 := by
  rw [positionBehind, List.takeWhile_cons_of_neg (by simpa using hneg)]
  rfl

theorem positionBehind_cons_of_not_neg (hneg : ¬ cmp x b < 0) :
    positionBehind cmp x (b :: q) = positionBehind cmp x q + 1 := by
  rw [positionBehind, List.takeWhile_cons_of_pos (by simpa using hneg)]
  rfl

/-- The position is where the value is inserted. -/
theorem insertBehind_eq_take_drop :
    insertBehind cmp x q =
      q.take (positionBehind cmp x q) ++ x :: q.drop (positionBehind cmp x q) := by
  induction q with
  | nil => rfl
  | cons b q ih =>
    by_cases hneg : cmp x b < 0
    · rw [insertBehind_cons_of_neg hneg, positionBehind_cons_of_neg hneg]
      rfl
    · rw [insertBehind_cons_of_not_neg hneg, positionBehind_cons_of_not_neg hneg, ih]
      rfl

theorem positionBehind_le_length : positionBehind cmp x q ≤ q.length :=
  (List.takeWhile_prefix _).length_le

theorem perm_insertBehind : (insertBehind cmp x q).Perm (x :: q) := List.perm_orderedInsert _ x q

/-- The list stays sorted. -/
theorem sorted_insertBehind (h : TotalPreorder cmp) (hq : q.Pairwise fun a b => cmp a b ≤ 0) :
    (insertBehind cmp x q).Pairwise fun a b => cmp a b ≤ 0 := by
  induction q with
  | nil => exact List.pairwise_singleton _ _
  | cons b q ih =>
    obtain ⟨hb, hrest⟩ := List.pairwise_cons.mp hq
    by_cases hneg : cmp x b < 0
    · rw [insertBehind_cons_of_neg hneg]
      refine List.pairwise_cons.mpr ⟨fun a ha => ?_, hq⟩
      rcases List.mem_cons.mp ha with rfl | ha
      · exact hneg.le
      · exact h.trans x b a hneg.le (hb a ha)
    · rw [insertBehind_cons_of_not_neg hneg]
      refine List.pairwise_cons.mpr ⟨fun a ha => ?_, ih hrest⟩
      rcases List.mem_cons.mp (perm_insertBehind.mem_iff.mp ha) with rfl | ha
      · exact h.nonpos_iff.mpr hneg
      · exact hb a ha

/-- **Insertion is stable.** Of the values that compare equal to `c`, a new one is the last. -/
theorem filter_insertBehind (h : TotalPreorder cmp) (hq : q.Pairwise fun a b => cmp a b ≤ 0)
    (c : α) :
    (insertBehind cmp x q).filter (cmp · c = 0) =
      q.filter (cmp · c = 0) ++ [x].filter (cmp · c = 0) := by
  induction q with
  | nil => rfl
  | cons b q ih =>
    obtain ⟨hb, hrest⟩ := List.pairwise_cons.mp hq
    by_cases hneg : cmp x b < 0
    · rw [insertBehind_cons_of_neg hneg]
      by_cases hxc : cmp x c = 0
      · -- the values from here on are greater, so none of them is in the class
        have hnone : (b :: q).filter (cmp · c = 0) = [] := by
          refine List.filter_eq_nil_iff.mpr fun a ha => ?_
          have hxa : cmp x a < 0 := by
            rcases List.mem_cons.mp ha with rfl | ha
            · exact hneg
            · exact h.neg_of_neg_of_nonpos hneg (hb a ha)
          simpa using h.ne_zero_of_neg hxc hxa
        rw [List.filter_cons_of_pos (by simpa using hxc), hnone]
        simp [hxc]
      · rw [List.filter_cons_of_neg (by simpa using hxc)]
        simp [hxc]
    · rw [insertBehind_cons_of_not_neg hneg, List.filter_cons, List.filter_cons, ih hrest]
      split_ifs <;> rfl

end SystemProgramming
