import SystemProgramming.Vector.Refinement

/-!
# The growth of a vector

`get_new_capacity` doubles a `size_t` from one on. The largest power of two that it comes to is
`2 ^ 63`, after which it is zero for ever. The bytes of the array are eight times the capacity,
which is a `size_t` only up to a capacity of `2 ^ 60`.

## Main definitions

* `Grown`: the capacity and the request of bytes after a growth
* `GrowsExactly`: `vector_reserve` ends, and grows the vector as it should

## Main results

* `growCapacity_eq_none`: a target above `2 ^ 63` is never met
* `growsExactly_iff`: the growth is exact up to the target `2 ^ 60`
-/

namespace SystemProgramming.Vector

variable {V : Type} {s s' : State V} {target n c k : Nat}

/-- The capacity is the least power of two that is at least `n`, and the array was reallocated
with as many bytes as its words take. -/
structure Grown (s s' : State V) (n : Nat) : Prop where
  power : ∃ k, s'.capacity = 2 ^ k ∧ n ≤ 2 ^ k ∧ ∀ j, n ≤ 2 ^ j → k ≤ j
  noWrap : pointerSize * s'.capacity < 2 ^ 64
  array : s'.array = realloc s.array (pointerSize * s'.capacity)

/-- `vector_reserve` ends, and if it reallocates it does so with the least power of two. -/
def GrowsExactly (s : State V) (n : Nat) : Prop :=
  ∃ s', s.reserve n = some s' ∧ (s.capacity < n → Grown s s' n)

/-! ## The doubling -/

/-- What the loop comes to from one on. -/
theorem double_cases (hc : c = 0 ∨ ∃ i ≤ 63, c = 2 ^ i) :
    c * growthFactor % 2 ^ 64 = 0 ∨ ∃ i ≤ 63, c * growthFactor % 2 ^ 64 = 2 ^ i := by
  rcases hc with rfl | ⟨i, hi, rfl⟩
  · exact Or.inl (by simp)
  · rw [growthFactor, ← pow_succ]
    rcases Nat.eq_or_lt_of_le hi with rfl | hlt
    · exact Or.inl (Nat.mod_self _)
    · refine Or.inr ⟨i + 1, hlt, Nat.mod_eq_of_lt ?_⟩
      exact Nat.pow_lt_pow_right one_lt_two (by omega)

/-- **A target above `2 ^ 63` is never met**, in however many turns. -/
theorem growCapacity_eq_none (h : 2 ^ 63 < target) (fuel : Nat)
    (hc : c = 0 ∨ ∃ i ≤ 63, c = 2 ^ i) : growCapacity target fuel c = none := by
  induction fuel generalizing c with
  | zero => rfl
  | succ fuel ih =>
    have hlt : c < target := by
      rcases hc with rfl | ⟨i, hi, rfl⟩
      · omega
      · exact (Nat.pow_le_pow_right two_pos hi).trans_lt h
    rw [growCapacity, if_pos hlt]
    exact ih (double_cases hc)

theorem getNewCapacity_eq_none (h : 2 ^ 63 < target) : getNewCapacity target = none :=
  growCapacity_eq_none h 65 (Or.inr ⟨0, by decide, rfl⟩)

/-! ## Reservations -/

/-- The words of the array do not take more bytes than a `size_t` counts exactly if the target is
at most `2 ^ 60`. -/
theorem noWrap_iff (hle : n ≤ 2 ^ k) (hleast : ∀ j < k, 2 ^ j < n) :
    pointerSize * 2 ^ k < 2 ^ 64 ↔ n ≤ 2 ^ 60 := by
  have hbytes : pointerSize * 2 ^ k = 2 ^ (3 + k) := by
    rw [pow_add, pointerSize]
    norm_num
  rw [hbytes, Nat.pow_lt_pow_iff_right one_lt_two]
  constructor
  · intro hk
    exact hle.trans (Nat.pow_le_pow_right two_pos (by omega))
  · intro hn
    by_contra hk
    exact absurd (hleast 60 (by omega)) (not_lt.mpr hn)

/-- A reservation within the capacity changes nothing. -/
theorem reserve_of_le (h : n ≤ s.capacity) : s.reserve n = some s := by
  rw [State.reserve, if_neg (not_lt.mpr h)]

/-- A reservation that reallocates. -/
theorem reserve_of_lt (h : s.capacity < n) :
    s.reserve n = (getNewCapacity n).map fun capacity => { s with
      capacity := capacity
      array := realloc s.array (capacity * pointerSize % 2 ^ 64) } := by
  rw [State.reserve, if_pos h]
  cases getNewCapacity n <;> rfl

/-- **The growth is exact up to the target `2 ^ 60`.** For every vector and every `n`,
`vector_reserve` ends and, if it reallocates, takes the least power of two that is at least `n`
and asks for eight times as many bytes, if and only if it has the capacity already or `n` is at
most `2 ^ 60`. -/
theorem growsExactly_iff (s : State V) (n : Nat) :
    GrowsExactly s n ↔ n ≤ s.capacity ∨ n ≤ 2 ^ 60 := by
  rcases le_or_gt n s.capacity with hle | hlt
  · exact iff_of_true ⟨s, reserve_of_le hle, fun hlt => absurd hle (not_le.mpr hlt)⟩ (Or.inl hle)
  · rw [or_iff_right (not_le.mpr hlt), GrowsExactly, reserve_of_lt hlt]
    rcases le_or_gt n (2 ^ 63) with hn | hn
    · obtain ⟨k, hk, hnew, hle, hleast⟩ := getNewCapacity_spec hn
      rw [hnew, ← noWrap_iff hle hleast]
      constructor
      · rintro ⟨s', hreserve, hgrown⟩
        obtain rfl := Option.some.inj hreserve
        exact (hgrown hlt).noWrap
      · intro hwrap
        refine ⟨_, rfl, fun _ => ⟨⟨k, rfl, hle, fun j hj => ?_⟩, hwrap, ?_⟩⟩
        · by_contra hjk
          exact absurd (hleast j (not_le.mp hjk)) (not_lt.mpr hj)
        · show realloc s.array (2 ^ k * pointerSize % 2 ^ 64) = _
          rw [Nat.mul_comm, Nat.mod_eq_of_lt hwrap]
    · -- the loop never ends
      rw [getNewCapacity_eq_none hn]
      refine iff_of_false ?_ (by omega)
      rintro ⟨s', hreserve, -⟩
      cases hreserve

/-- The largest `n` is never met by doubling. -/
theorem not_growsExactly :
    ¬ ∀ (s : State Nat) (n : Nat), n < 2 ^ 64 → GrowsExactly s n := by
  intro h
  obtain ⟨s', hreserve, -⟩ := h (create Nat) (2 ^ 64 - 1) (by decide)
  have hlt : (create Nat).capacity < 2 ^ 64 - 1 := by decide
  rw [reserve_of_lt hlt, getNewCapacity_eq_none (by decide)] at hreserve
  cases hreserve

end SystemProgramming.Vector
