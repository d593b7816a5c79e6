import Mathlib.Tactic

/-!
# The priority queue of `libpriqueue.c`

The linked list of entries is a list of values, head first. `offer` walks it with the two
comparisons of the source; the comparer is a parameter of each call, since the values it
looks at may change while they are queued.

## Main definitions

* `offer`, `poll`, `peek`: the operations, `offer` with the position it returns
* `compared`: the values that `offer` compares the new one with

## Main results

* `offer_perm`: an offer adds one element and loses none
-/

namespace SystemProgramming.Scheduler.Priqueue

variable {α : Type*} (comparer : α → α → Int)

/-- The loop of `priqueue_offer` from `leftentry`, the head of a list that is not empty. -/
def offerAfter (x : α) : List α → Nat → List α × Nat
  | [], retval => ([x], retval)
  | [left], retval => ([left, x], retval)
  | left :: next :: rest, retval =>
    if comparer left x ≤ 0 ∧ comparer x next < 0 then (left :: x :: next :: rest, retval)
    else
      let (q, retval) := offerAfter x (next :: rest) (retval + 1)
      (left :: q, retval)

/-- `priqueue_offer`: the queue, and the position of the new element. -/
def offer (q : List α) (x : α) : List α × Nat :=
  match q with
  | [] => ([x], 0)
  | head :: rest =>
    if comparer x head < 0 then (x :: head :: rest, 0)
    else offerAfter comparer x (head :: rest) 1

/-- The values that the loop of `priqueue_offer` from `leftentry` hands to the comparer. -/
def comparedAfter (x : α) : List α → List α
  | [] => []
  | [left] => [left]
  | left :: next :: rest =>
    if comparer left x ≤ 0 ∧ comparer x next < 0 then [left, next]
    else left :: comparedAfter x (next :: rest)

/-- The values of the queue that `priqueue_offer` hands to the comparer. -/
def compared (q : List α) (x : α) : List α :=
  match q with
  | [] => []
  | head :: rest =>
    if comparer x head < 0 then [head] else comparedAfter comparer x (head :: rest)

/-- `priqueue_peek`. -/
def peek (q : List α) : Option α := q.head?

/-- `priqueue_poll`. -/
def poll : List α → Option (α × List α)
  | [] => none
  | head :: rest => some (head, rest)

theorem offerAfter_perm (x : α) (q : List α) (n : Nat) :
    (offerAfter comparer x q n).1.Perm (x :: q) := by
  induction q generalizing n with
  | nil => exact List.Perm.refl _
  | cons left rest ih =>
    cases rest with
    | nil => exact List.Perm.swap _ _ _
    | cons next rest =>
      rw [offerAfter]
      split_ifs with h
      · exact List.Perm.swap _ _ _
      · exact ((ih (n + 1)).cons left).trans (List.Perm.swap _ _ _)

/-- An offer adds one element and loses none. -/
theorem offer_perm (q : List α) (x : α) : (offer comparer q x).1.Perm (x :: q) := by
  cases q with
  | nil => exact List.Perm.refl _
  | cons head rest =>
    rw [offer]
    split_ifs with h
    · exact List.Perm.refl _
    · exact offerAfter_perm comparer x _ _

theorem comparedAfter_subset (x : α) (q : List α) : comparedAfter comparer x q ⊆ q := by
  induction q with
  | nil => exact List.Subset.refl _
  | cons left rest ih =>
    cases rest with
    | nil => exact List.Subset.refl _
    | cons next rest =>
      rw [comparedAfter]
      split_ifs with h
      · simp
      · exact List.cons_subset_cons left ih

/-- An offer looks at elements of the queue only. -/
theorem compared_subset (q : List α) (x : α) : compared comparer q x ⊆ q := by
  cases q with
  | nil => exact List.Subset.refl _
  | cons head rest =>
    rw [compared]
    split_ifs with h
    · simp
    · exact comparedAfter_subset comparer x _

/-- An offer always looks at the head. -/
theorem head_mem_compared {q : List α} {x head : α} (h : head ∈ q.head?) :
    head ∈ compared comparer q x := by
  obtain ⟨rest, rfl⟩ := List.head?_eq_some_iff.mp h
  rw [compared]
  split_ifs
  · exact List.mem_singleton_self head
  · cases rest with
    | nil => exact List.mem_singleton_self head
    | cons next rest =>
      rw [comparedAfter]
      split_ifs <;> exact List.mem_cons_self

end SystemProgramming.Scheduler.Priqueue
