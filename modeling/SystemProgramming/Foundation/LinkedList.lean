import Mathlib.Tactic

/-!
# Linked lists

A linked list is read through its link functions and a head: a singly linked one through
`next`, a doubly linked one through `next` and `prev`. In a doubly linked list the first node's
`prev` is not constrained, so that dropping the head needs no write. The nodes are of any type;
`nil` is the null link.

## Main definitions

* `Linked next nil head l`: from `head` the links run through the nodes `l`
* `DoublyLinked next prev nil head l`: the same, with links back

## Main results

* `Linked.congr`, `DoublyLinked.congr`: links that agree on the nodes give the same list
* `Linked.push`, `Linked.concat`, `Linked.unlink`, `Linked.replace`: a node put in front or
  behind, an inner node taken out, an inner node exchanged for another
* `DoublyLinked.push`, `DoublyLinked.pop`, `DoublyLinked.unlink`: a node put in front, the
  front node dropped, an inner node unlinked
-/

namespace SystemProgramming

variable {α : Type*}

/-- From `head` the links run through the nodes `l`, none of them null, and end in `nil`. -/
def Linked (next : α → α) (nil : α) : α → List α → Prop
  | head, [] => head = nil
  | head, x :: l => head = x ∧ x ≠ nil ∧ Linked next nil (next x) l

namespace Linked

variable {next next' : α → α} {nil head x x' y : α} {l a c : List α}

theorem ne_nil (h : Linked next nil head l) (hx : x ∈ l) : x ≠ nil := by
  induction l generalizing head with
  | nil => exact absurd hx List.not_mem_nil
  | cons y l ih =>
    obtain ⟨-, hy, htail⟩ := h
    rcases List.mem_cons.mp hx with rfl | hx
    · exact hy
    · exact ih htail hx

theorem head_eq (h : Linked next nil head (x :: l)) : head = x := h.1

theorem tail (h : Linked next nil head (x :: l)) : Linked next nil (next x) l := h.2.2

/-- Links that agree on the nodes give the same list. -/
theorem congr (h : Linked next nil head l) (hn : ∀ x ∈ l, next' x = next x) :
    Linked next' nil head l := by
  induction l generalizing head with
  | nil => exact h
  | cons x l ih =>
    obtain ⟨hhead, hx, htail⟩ := h
    refine ⟨hhead, hx, ?_⟩
    rw [hn x List.mem_cons_self]
    exact ih htail fun y hy => hn y (List.mem_cons_of_mem _ hy)

/-- A node put in front of the list. -/
theorem push (h : Linked next nil head l) (hnil : x ≠ nil) (hx : next' x = head)
    (hn : ∀ y ∈ l, next' y = next y) : Linked next' nil x (x :: l) :=
  ⟨rfl, hnil, hx ▸ h.congr hn⟩

/-- A node put behind the last one, which is linked to it. -/
theorem concat (h : Linked next nil head l) (hnil : x ≠ nil) (hx : next' x = nil)
    (hlast : ∀ y ∈ l.getLast?, next' y = x) (hn : ∀ y ∈ l.dropLast, next' y = next y) :
    Linked next' nil (l.headD x) (l ++ [x]) := by
  induction l generalizing head with
  | nil => exact ⟨rfl, hnil, hx⟩
  | cons y l ih =>
    obtain ⟨-, hy, htail⟩ := h
    refine ⟨rfl, hy, ?_⟩
    cases l with
    | nil => exact ⟨hlast y rfl, hnil, hx⟩
    | cons z l =>
      have hz : next' y = z := by
        rw [hn y List.mem_cons_self]
        exact htail.head_eq
      rw [hz]
      exact ih htail (fun w hw => hlast w (by simpa using hw))
        fun w hw => hn w (List.mem_cons_of_mem _ hw)

/-- An inner node taken out: the node before it gets its link. -/
theorem unlink (h : Linked next nil head (a ++ y :: x :: c)) (hy : next' y = next x)
    (hn : ∀ z ∈ a ++ c, next' z = next z) : Linked next' nil head (a ++ y :: c) := by
  induction a generalizing head with
  | nil =>
    obtain ⟨hhead, hnil, -, -, htail⟩ := h
    exact ⟨hhead, hnil, hy ▸ htail.congr hn⟩
  | cons z a ih =>
    obtain ⟨hhead, hnil, htail⟩ := h
    refine ⟨hhead, hnil, ?_⟩
    rw [hn z List.mem_cons_self]
    exact ih htail fun w hw => hn w (List.mem_cons_of_mem _ hw)

/-- An inner node exchanged for another one, which gets its link. -/
theorem replace (h : Linked next nil head (a ++ y :: x :: c)) (hnil : x' ≠ nil)
    (hy : next' y = x') (hx : next' x' = next x) (hn : ∀ z ∈ a ++ c, next' z = next z) :
    Linked next' nil head (a ++ y :: x' :: c) := by
  induction a generalizing head with
  | nil =>
    obtain ⟨hhead, hynil, -, -, htail⟩ := h
    exact ⟨hhead, hynil, hy, hnil, hx ▸ htail.congr hn⟩
  | cons z a ih =>
    obtain ⟨hhead, hznil, htail⟩ := h
    refine ⟨hhead, hznil, ?_⟩
    rw [hn z List.mem_cons_self]
    exact ih htail fun w hw => hn w (List.mem_cons_of_mem _ hw)

end Linked

/-- From `head` the links run through the nodes `l` and end in `nil`. -/
structure DoublyLinked (next prev : α → α) (nil head : α) (l : List α) : Prop where
  /-- the head is the first node -/
  head : head = l.headD nil
  /-- neighbours point at each other -/
  chain : l.IsChain fun x y => next x = y ∧ prev y = x
  /-- the last node ends the list -/
  last : ∀ x ∈ l.getLast?, next x = nil

namespace DoublyLinked

variable {next prev next' prev' : α → α} {nil head x y : α} {l a c : List α}

theorem empty : DoublyLinked next prev nil nil [] :=
  ⟨rfl, List.isChain_nil, fun _ h => by simp at h⟩

/-- Links that agree on the nodes give the same list. -/
theorem congr (h : DoublyLinked next prev nil head l) (hn : ∀ x ∈ l, next' x = next x)
    (hp : ∀ x ∈ l.tail, prev' x = prev x) : DoublyLinked next' prev' nil head l where
  head := h.head
  chain := h.chain.imp_of_mem_tail_imp fun x y hx hy hxy => by
    rw [hn x hx, hp y hy]
    exact hxy
  last := fun x hx => by
    rw [hn x (List.mem_of_getLast? hx)]
    exact h.last x hx

/-- The successor of a node is the next node of the list. -/
theorem next_eq (h : DoublyLinked next prev nil head (a ++ x :: c)) : next x = c.headD nil := by
  cases c with
  | nil => exact h.last x (by simp)
  | cons y c => exact ((List.isChain_append_cons_cons.mp h.chain).2.1).1

/-- The predecessor of an inner node is the node before it. -/
theorem prev_eq (h : DoublyLinked next prev nil head (a ++ y :: x :: c)) : prev x = y :=
  ((List.isChain_append_cons_cons.mp h.chain).2.1).2

/-- A node put in front of the list. -/
theorem push (h : DoublyLinked next prev nil head l) (hx : next' x = head)
    (hn : ∀ y ∈ l, next' y = next y) (hfst : ∀ y ∈ l.head?, prev' y = x)
    (hp : ∀ y ∈ l.tail, prev' y = prev y) : DoublyLinked next' prev' nil x (x :: l) := by
  have h' := h.congr hn hp
  refine ⟨rfl, List.isChain_cons.mpr ⟨fun y hy => ⟨?_, hfst y hy⟩, h'.chain⟩, fun z hz => ?_⟩
  · cases l with
    | nil => simp at hy
    | cons w l =>
      obtain rfl : w = y := by simpa using hy
      rw [hx, h.head, List.headD_cons]
  · cases l with
    | nil =>
      obtain rfl : x = z := by simpa using hz
      rw [hx, h.head, List.headD_nil]
    | cons w l => exact h'.last z (by simpa using hz)

/-- The front node dropped. -/
theorem pop (h : DoublyLinked next prev nil head (x :: l)) :
    DoublyLinked next prev nil (next x) l := by
  refine ⟨h.next_eq (a := []), (List.isChain_cons.mp h.chain).2, fun z hz => h.last z ?_⟩
  cases l with
  | nil => simp at hz
  | cons w l => simpa using hz

/-- An inner node unlinked: its neighbours are made to point at each other. -/
theorem unlink (h : DoublyLinked next prev nil head (a ++ y :: x :: c))
    (hy : next' y = next x) (hfst : ∀ z ∈ c.head?, prev' z = y)
    (hn : ∀ z ∈ a ++ c, next' z = next z) (hpa : ∀ z ∈ a ++ [y], prev' z = prev z)
    (hpc : ∀ z ∈ c.tail, prev' z = prev z) :
    DoublyLinked next' prev' nil head (a ++ y :: c) := by
  have hxc : next x = c.headD nil :=
    next_eq (a := a ++ [y]) (x := x) (c := c) (by simpa using h)
  obtain ⟨hay, -, hchain⟩ := List.isChain_append_cons_cons.mp h.chain
  obtain ⟨haa, -, hseam⟩ := List.isChain_append.mp hay
  have hcc := (List.isChain_cons.mp hchain).2
  refine ⟨?_, List.isChain_append.mpr ⟨?_, List.isChain_cons.mpr ⟨fun z hz => ⟨?_, hfst z hz⟩, ?_⟩,
    fun z hz w hw => ?_⟩, ?_⟩
  · have := h.head
    cases a <;> simpa using this
  · refine haa.imp_of_mem_imp fun z w hz hw hzw => ?_
    rw [hn z (by simp [hz]), hpa w (by simp [hw])]
    exact hzw
  · cases c with
    | nil => simp at hz
    | cons w c =>
      obtain rfl : w = z := by simpa using hz
      rw [hy, hxc, List.headD_cons]
  · refine hcc.imp_of_mem_tail_imp fun z w hz hw hzw => ?_
    rw [hn z (by simp [hz]), hpc w hw]
    exact hzw
  · obtain rfl : y = w := by simpa using hw
    rw [hn z (by simp [List.mem_of_getLast? hz]), hpa y (by simp)]
    exact hseam z hz y (by simp)
  · intro z hz
    cases c with
    | nil =>
      obtain rfl : y = z := by simpa using hz
      rw [hy, hxc, List.headD_nil]
    | cons w c =>
      have hz' : z ∈ (w :: c).getLast? := by simpa [List.getLast?_append] using hz
      rw [hn z (by simp [List.mem_of_getLast? hz'])]
      exact h.last z (by simpa [List.getLast?_append] using hz)

end DoublyLinked

end SystemProgramming
