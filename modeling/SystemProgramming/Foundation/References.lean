import Mathlib.Tactic

/-!
# Tables of references

A table assigns to every reference a block, or `nil`, and a set says which blocks are in
use. The table owns its blocks when no two references hold one block and every block held is
in use; it is exact when, besides, every block in use is held by some reference. Storing an
unused block in the table and putting it into use keeps both.

## Main definitions

* `Owns nil ref used`: no block is held twice, and every block held is in use
* `Exact nil ref used`: besides, every block in use is held

## Main results

* `Owns.assign`, `Exact.assign`: a reference receives an unused block
-/

namespace SystemProgramming

variable {ι β : Type*} {nil : β} {ref ref' : ι → β} {used used' : Set β} {i j : ι} {b : β}

/-- No block is held twice, and every block held is in use. -/
structure Owns (nil : β) (ref : ι → β) (used : Set β) : Prop where
  inj : ∀ i j, ref i ≠ nil → ref i = ref j → i = j
  mem : ∀ i, ref i ≠ nil → ref i ∈ used

/-- The blocks in use are exactly those that some reference holds. -/
structure Exact (nil : β) (ref : ι → β) (used : Set β) : Prop extends Owns nil ref used where
  held : ∀ b ∈ used, ∃ i, ref i = b

namespace Owns

/-- An unused block is held by no reference. -/
theorem ne_of_not_mem (h : Owns nil ref used) (hb : b ∉ used) (hnil : b ≠ nil) : ref i ≠ b := by
  rintro rfl
  exact hb (h.mem i hnil)

variable [DecidableEq ι]

theorem assign (h : Owns nil ref used) (hb : b ∉ used) :
    Owns nil (Function.update ref i b) (insert b used) := by
  refine ⟨fun x y hx hxy => ?_, fun x hx => ?_⟩
  · by_cases hxi : x = i <;> by_cases hyi : y = i
    · rw [hxi, hyi]
    · rw [hxi, Function.update_self] at hx
      rw [hxi, Function.update_self, Function.update_of_ne hyi] at hxy
      exact absurd hxy.symm (h.ne_of_not_mem hb hx)
    · rw [Function.update_of_ne hxi] at hx
      rw [hyi, Function.update_self, Function.update_of_ne hxi] at hxy
      exact absurd hxy (h.ne_of_not_mem hb (hxy ▸ hx))
    · rw [Function.update_of_ne hxi] at hx
      rw [Function.update_of_ne hxi, Function.update_of_ne hyi] at hxy
      exact h.inj x y hx hxy
  · by_cases hxi : x = i
    · rw [hxi, Function.update_self]
      exact Set.mem_insert b used
    · rw [Function.update_of_ne hxi] at hx ⊢
      exact Set.mem_insert_of_mem b (h.mem x hx)

end Owns

/-- A reference that holds nothing receives an unused block. -/
theorem Exact.assign [DecidableEq ι] (h : Exact nil ref used) (hnil : nil ∉ used)
    (hi : ref i = nil) (hb : b ∉ used) :
    Exact nil (Function.update ref i b) (insert b used) := by
  refine ⟨h.toOwns.assign hb, fun c hc => ?_⟩
  rcases Set.mem_insert_iff.mp hc with rfl | hc
  · exact ⟨i, Function.update_self ..⟩
  · obtain ⟨j, rfl⟩ := h.held c hc
    have hji : j ≠ i := by
      rintro rfl
      exact hnil (hi ▸ hc)
    exact ⟨j, Function.update_of_ne hji ..⟩

end SystemProgramming
