import Mathlib.Logic.Relation
import Mathlib.Tactic

/-!
# Relations without cycles

A wait-for relation changes one node at a time: a node gets a successor, or becomes a node
without successors. The two rules here say when such a change leaves the relation without
cycles. In a finite relation without cycles every path is short: each node has a height, which
drops along every edge.

## Main definitions

* `Acyclic R`: no node reaches itself
* `ReachesCycle R x`: a node that reaches itself is reached from `x`
* `height R vs v`: how many of the nodes `vs` are reached from `v`

## Main results

* `acyclic_of_sink`: new edges into a node without successors
* `acyclic_of_source`: new edges out of a node that their targets do not reach
* `not_acyclic_of_source`: a new edge to a node that reaches back
* `Acyclic.height_lt`, `Acyclic.height_lt_length`: heights drop along edges and are bounded
-/

namespace SystemProgramming

open Relation

variable {α : Type*} {R R' : α → α → Prop} {t : α}

/-- No node reaches itself. -/
def Acyclic (R : α → α → Prop) : Prop := ∀ x, ¬ TransGen R x x

theorem Acyclic.mono (h : Acyclic R) (hR : ∀ x y, R' x y → R x y) : Acyclic R' :=
  fun x hx => h x (TransGen.mono hR _ _ hx)

/-- A path that leaves a node never starts at a sink. -/
theorem ne_of_transGen {x y : α} (hsink : ∀ z, ¬ R t z) (h : TransGen R x y) : x ≠ t := by
  rintro rfl
  obtain ⟨z, hz, -⟩ := TransGen.head'_iff.mp h
  exact hsink z hz

/-- New edges into a node without successors make no cycle. -/
theorem acyclic_of_sink (h : Acyclic R) (hsink : ∀ y, ¬ R' t y)
    (hR : ∀ x y, y ≠ t → R' x y → R x y) : Acyclic R' := by
  have hpath : ∀ {x y}, TransGen R' x y → y ≠ t → TransGen R x y := by
    intro x y hxy hy
    induction hxy using TransGen.head_induction_on with
    | single hxy => exact TransGen.single (hR _ _ hy hxy)
    | head hxz hzy ih => exact ih.head (hR _ _ (ne_of_transGen hsink hzy) hxz)
  exact fun x hx => h x (hpath hx (ne_of_transGen hsink hx))

/-- A path to `t` can be cut where it first meets `t`. -/
theorem reflTransGen_of_agree_off {x : α} (hR : ∀ x y, x ≠ t → R' x y → R x y)
    (h : ReflTransGen R' x t) : ReflTransGen R x t := by
  induction h using ReflTransGen.head_induction_on with
  | refl => exact ReflTransGen.refl
  | @head x y hxy _ ih =>
    by_cases hx : x = t
    · exact hx ▸ ReflTransGen.refl
    · exact ih.head (hR x y hx hxy)

/-- New edges out of a node make no cycle when their targets do not reach it. -/
theorem acyclic_of_source (h : Acyclic R) (hR : ∀ x y, x ≠ t → R' x y → R x y)
    (hback : ∀ y, R' t y → ¬ ReflTransGen R y t) : Acyclic R' := by
  -- a path that does not use the new edges is an old path; otherwise it passes through `t`
  have hpath : ∀ {x y}, TransGen R' x y →
      TransGen R x y ∨ (ReflTransGen R' x t ∧ ReflTransGen R' t y) := by
    intro x y hxy
    induction hxy using TransGen.head_induction_on with
    | @single x hxy =>
      by_cases hx : x = t
      · exact Or.inr ⟨hx ▸ ReflTransGen.refl, hx ▸ ReflTransGen.single hxy⟩
      · exact Or.inl (TransGen.single (hR _ _ hx hxy))
    | @head x z hxz hzy ih =>
      by_cases hx : x = t
      · exact Or.inr ⟨hx ▸ ReflTransGen.refl, hx ▸ hzy.to_reflTransGen.head hxz⟩
      · rcases ih with hold | ⟨hzt, hty⟩
        · exact Or.inl (hold.head (hR _ _ hx hxz))
        · exact Or.inr ⟨hzt.head hxz, hty⟩
  have ht : ¬ TransGen R' t t := by
    intro hcycle
    obtain ⟨y, hty, hyt⟩ := TransGen.head'_iff.mp hcycle
    exact hback y hty (reflTransGen_of_agree_off hR hyt)
  intro x hx
  rcases hpath hx with hold | ⟨hxt, htx⟩
  · exact h x hold
  · exact ht ((TransGen.trans_right htx hx).trans_left hxt)

/-- A new edge to a node that reaches back makes a cycle. -/
theorem not_acyclic_of_source {y : α} (hR : ∀ x y, R x y → R' x y) (hty : R' t y)
    (hyt : ReflTransGen R y t) : ¬ Acyclic R' := by
  intro h
  have hyt' : ReflTransGen R' y t := ReflTransGen.mono hR _ _ hyt
  exact h t (TransGen.head' hty hyt')

/-! ## Nodes that reach a cycle -/

/-- A node that reaches itself is reached from `x`. -/
def ReachesCycle (R : α → α → Prop) (x : α) : Prop := ∃ y, ReflTransGen R x y ∧ TransGen R y y

namespace ReachesCycle

variable {x y : α}

theorem self (h : TransGen R x x) : ReachesCycle R x := ⟨x, ReflTransGen.refl, h⟩

theorem of_reflTransGen (hxy : ReflTransGen R x y) (h : ReachesCycle R y) : ReachesCycle R x := by
  obtain ⟨z, hyz, hz⟩ := h
  exact ⟨z, hxy.trans hyz, hz⟩

/-- A cycle is reached through a successor. -/
theorem cases_head (h : ReachesCycle R x) : TransGen R x x ∨ ∃ y, R x y ∧ ReachesCycle R y := by
  obtain ⟨z, hxz, hz⟩ := h
  rcases ReflTransGen.cases_head hxz with rfl | ⟨y, hxy, hyz⟩
  · exact Or.inl hz
  · exact Or.inr ⟨y, hxy, z, hyz, hz⟩

end ReachesCycle

/-! ## Heights -/

open Classical in
/-- How many of the nodes `vs` are reached from `v`. -/
noncomputable def height (R : α → α → Prop) (vs : List α) (v : α) : Nat :=
  (vs.toFinset.filter (TransGen R v)).card

/-- Heights drop along edges. -/
theorem Acyclic.height_lt {vs : List α} {x y : α} (h : Acyclic R) (hxy : R x y) (hy : y ∈ vs) :
    height R vs y < height R vs x := by
  classical
  refine Finset.card_lt_card (Finset.ssubset_iff_of_subset ?_ |>.mpr ⟨y, ?_, ?_⟩)
  · intro z hz
    rw [Finset.mem_filter] at hz ⊢
    exact ⟨hz.1, hz.2.head hxy⟩
  · exact Finset.mem_filter.mpr ⟨List.mem_toFinset.mpr hy, TransGen.single hxy⟩
  · intro hyy
    exact h y (Finset.mem_filter.mp hyy).2

/-- A node does not count towards its own height. -/
theorem Acyclic.height_lt_length {vs : List α} {v : α} (h : Acyclic R) (hv : v ∈ vs) :
    height R vs v < vs.length := by
  classical
  have hlt : height R vs v < vs.toFinset.card := by
    refine Finset.card_lt_card (Finset.ssubset_iff_of_subset (Finset.filter_subset _ _) |>.mpr
      ⟨v, List.mem_toFinset.mpr hv, ?_⟩)
    intro hvv
    exact h v (Finset.mem_filter.mp hvv).2
  exact hlt.trans_le (List.toFinset_card_le vs)

end SystemProgramming
