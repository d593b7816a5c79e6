import Mathlib.Tactic

/-!
# Tilings of an interval

A list of segments tiles an interval when each segment begins where the one before it
ended. The segments are of any type; `lo` and `hi` give the ends of one.

## Main definitions

* `Tiles lo hi s bs e`: the segments `bs` tile the interval from `s` to `e`

## Main results

* `tiles_append`: a tiling splits at every segment boundary
* `Tiles.bounds`: a segment lies inside the interval
* `Tiles.disjoint`: two segments are equal or disjoint
* `Tiles.unique`: segments named by where they begin tile an interval in one way
-/

namespace SystemProgramming

variable {α : Type*} {lo hi : α → Nat}

/-- The segments `bs` tile the interval from `s` to `e`. -/
def Tiles (lo hi : α → Nat) : Nat → List α → Nat → Prop
  | s, [], e => s = e
  | s, b :: bs, e => lo b = s ∧ Tiles lo hi (hi b) bs e

variable {s e : Nat} {b c : α} {bs l r : List α}

@[simp] theorem tiles_nil : Tiles lo hi s [] e ↔ s = e := Iff.rfl

@[simp] theorem tiles_cons :
    Tiles lo hi s (b :: bs) e ↔ lo b = s ∧ Tiles lo hi (hi b) bs e := Iff.rfl

/-- A tiling splits at every segment boundary. -/
theorem tiles_append :
    Tiles lo hi s (l ++ r) e ↔ ∃ m, Tiles lo hi s l m ∧ Tiles lo hi m r e := by
  induction l generalizing s with
  | nil => simp
  | cons b l ih => simp [ih, and_assoc]

/-- Segments named by other values with the same ends. -/
theorem Tiles.map {β : Type*} {lo' hi' : β → Nat} {f : α → β} (h : Tiles lo hi s bs e)
    (hlo : ∀ b ∈ bs, lo' (f b) = lo b) (hhi : ∀ b ∈ bs, hi' (f b) = hi b) :
    Tiles lo' hi' s (bs.map f) e := by
  induction bs generalizing s with
  | nil => exact h
  | cons b bs ih =>
    refine ⟨(hlo b (by simp)).trans h.1, ?_⟩
    rw [hhi b (by simp)]
    exact ih h.2 (fun c hc => hlo c (by simp [hc])) fun c hc => hhi c (by simp [hc])

/-- Replacing some segments by others that tile the same interval keeps the tiling. -/
theorem Tiles.replace {x y : List α} (h : Tiles lo hi s (l ++ x ++ r) e)
    (hxy : ∀ i j, Tiles lo hi i x j → Tiles lo hi i y j) : Tiles lo hi s (l ++ y ++ r) e := by
  rw [tiles_append] at h ⊢
  obtain ⟨j, hlx, hr⟩ := h
  obtain ⟨i, hl, hx⟩ := tiles_append.mp hlx
  exact ⟨j, tiles_append.mpr ⟨i, hl, hxy i j hx⟩, hr⟩

section Order

variable (hle : ∀ b : α, lo b < hi b)
include hle

theorem Tiles.le (h : Tiles lo hi s bs e) : s ≤ e := by
  induction bs generalizing s with
  | nil => exact h.le
  | cons b bs ih =>
    have hb := hle b
    have := ih h.2
    have := h.1
    omega

/-- Every segment takes up some of the interval. -/
theorem Tiles.length_le (h : Tiles lo hi s bs e) : s + bs.length ≤ e := by
  induction bs generalizing s with
  | nil => exact Nat.le_of_eq h
  | cons b bs ih =>
    have hb := hle b
    have := ih h.2
    have := h.1
    simp only [List.length_cons]
    omega

/-- A segment lies inside the interval. -/
theorem Tiles.bounds (h : Tiles lo hi s bs e) (hb : b ∈ bs) : s ≤ lo b ∧ hi b ≤ e := by
  obtain ⟨l, r, rfl⟩ := List.append_of_mem hb
  obtain ⟨m, hl, hr⟩ := tiles_append.mp h
  have h₁ := Tiles.le hle hl
  have h₂ := Tiles.le hle hr.2
  have h₃ := hr.1
  omega

theorem Tiles.pairwise (h : Tiles lo hi s bs e) : bs.Pairwise fun b c => hi b ≤ lo c := by
  induction bs generalizing s with
  | nil => exact List.Pairwise.nil
  | cons b bs ih => exact List.Pairwise.cons (fun c hc => (Tiles.bounds hle h.2 hc).1) (ih h.2)

/-- Two segments are equal or disjoint. -/
theorem Tiles.disjoint (h : Tiles lo hi s bs e) (hb : b ∈ bs) (hc : c ∈ bs) :
    b = c ∨ hi b ≤ lo c ∨ hi c ≤ lo b := by
  have hp : bs.Pairwise fun b c => hi b ≤ lo c ∨ hi c ≤ lo b :=
    (Tiles.pairwise hle h).imp Or.inl
  have : Std.Symm fun b c : α => hi b ≤ lo c ∨ hi c ≤ lo b := ⟨fun _ _ => Or.symm⟩
  rcases eq_or_ne b c with rfl | hne
  · exact Or.inl rfl
  · exact Or.inr (hp.forall hb hc hne)

/-- Segments are determined by where they begin. -/
theorem Tiles.eq_of_lo_eq (h : Tiles lo hi s bs e) (hb : b ∈ bs) (hc : c ∈ bs)
    (heq : lo b = lo c) : b = c := by
  have h₁ := hle b
  have h₂ := hle c
  rcases Tiles.disjoint hle h hb hc with hbc | hbc | hbc
  · exact hbc
  all_goals omega

end Order

/-- Segments named by where they begin tile an interval in one way. -/
theorem Tiles.unique {hi : Nat → Nat} {as as' : List Nat} (hle : ∀ a, a < hi a)
    (h : Tiles id hi s as e) (h' : Tiles id hi s as' e) : as = as' := by
  induction as generalizing s as' with
  | nil =>
    cases as' with
    | nil => rfl
    | cons a as' =>
      have hse : s = e := h
      have hs : a = s := h'.1
      have := Tiles.le hle h'.2
      have := hle a
      omega
  | cons a as ih =>
    have ha : a = s := h.1
    cases as' with
    | nil =>
      have hse : s = e := h'
      have := Tiles.le hle h.2
      have := hle a
      omega
    | cons a' as' =>
      obtain rfl : a = a' := ha.trans h'.1.symm
      rw [ih h.2 h'.2]

end SystemProgramming
