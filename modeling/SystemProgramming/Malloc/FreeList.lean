import SystemProgramming.Malloc.Layout

/-!
# The free list

`insert_free` pushes a node and `remove_free` drops one, and both touch link words only.
The nodes of the list are apart from each other and not null.

## Main definitions

* `Heap.FreeList h fl`: the links of `h` run through the nodes `fl`

## Main results

* `Heap.FreeList.insertFree`, `Heap.FreeList.removeFree`: the two list operations
* `Heap.insertFree_mem`, `Heap.removeFree_mem`: what they leave alone
* `Heap.FreeList.firstFit_eq`: the walk of `malloc` comes to an end
-/

namespace SystemProgramming.Malloc.Heap

/-- The links of `h` run through the nodes `fl`, which are apart and not null. -/
structure FreeList (h : Heap) (fl : List Nat) : Prop where
  linked : DoublyLinked h.nextFree h.prevFree 0 h.headFree fl
  apart : fl.Pairwise Apart
  pos : ∀ p ∈ fl, 0 < p
  lt : ∀ p ∈ fl, p < 2 ^ 64

variable {h h' : Heap} {fl : List Nat} {node p : Nat}

/-- The heap without the node's links, whatever they are, is the same list. -/
theorem FreeList.congr (hl : h.FreeList fl) (hhead : h'.headFree = h.headFree)
    (hm : ∀ p ∈ fl, ∀ a, p + 16 ≤ a → a < p + 32 → h'.mem a = h.mem a) : h'.FreeList fl := by
  refine ⟨?_, hl.apart, hl.pos, hl.lt⟩
  rw [hhead]
  refine hl.linked.congr (fun p hp => Memory.load_congr fun a h₁ h₂ => hm p hp a ?_ ?_)
    fun p hp => Memory.load_congr fun a h₁ h₂ => hm p (List.mem_of_mem_tail hp) a ?_ ?_
  all_goals omega

theorem FreeList.nodup (hl : h.FreeList fl) : fl.Nodup :=
  hl.apart.imp fun hap => by
    unfold Apart at hap
    omega

theorem FreeList.apart_of_ne {q : Nat} (hl : h.FreeList fl) (hp : p ∈ fl) (hq : q ∈ fl)
    (hne : p ≠ q) : Apart p q := by
  have : Std.Symm Apart := ⟨fun _ _ => Apart.symm⟩
  exact hl.apart.forall hp hq hne

/-! ## Insertion -/

theorem insertFree_tailMem (h : Heap) (node : Nat) : (h.insertFree node).tailMem = h.tailMem := by
  unfold insertFree
  split <;> rfl

theorem insertFree_startMem (h : Heap) (node : Nat) :
    (h.insertFree node).startMem = h.startMem := by
  unfold insertFree
  split <;> rfl

theorem insertFree_brk (h : Heap) (node : Nat) : (h.insertFree node).brk = h.brk := by
  unfold insertFree
  split <;> rfl

/-- `insert_free` writes the links of the node and of the old head only. -/
theorem insertFree_mem {a : Nat} (hnode : ¬ (node + 16 ≤ a ∧ a < node + 32))
    (hhead : h.headFree = 0 ∨ ¬ (h.headFree + 16 ≤ a ∧ a < h.headFree + 32)) :
    (h.insertFree node).mem a = h.mem a := by
  unfold insertFree
  split
  · simp only [setNextFree, setPrevFree, withMem_mem]
    rw [Memory.store_of_not_mem (by omega), Memory.store_of_not_mem (by omega)]
  · simp only [setNextFree, setPrevFree, withMem_mem, withMem_headFree]
    rw [Memory.store_of_not_mem (by omega), Memory.store_of_not_mem (by omega),
      Memory.store_of_not_mem (by omega)]

/-- `insert_free` puts the node in front. -/
theorem FreeList.insertFree (hl : h.FreeList fl) (hap : ∀ p ∈ fl, Apart node p)
    (hpos : 0 < node) (hlt : node < 2 ^ 64) : (h.insertFree node).FreeList (node :: fl) := by
  refine ⟨?_, List.pairwise_cons.mpr ⟨hap, hl.apart⟩, ?_, ?_⟩
  · unfold Heap.insertFree
    have hhead := hl.linked.head
    split
    · rename_i h0
      obtain rfl : fl = [] := by
        cases fl with
        | nil => rfl
        | cons q fl => exact absurd (hhead.symm.trans h0) (hl.pos q (by simp)).ne'
      refine hl.linked.push ?_ (by simp) (by simp) (by simp)
      have hnext : ((h.setNextFree node 0).setPrevFree node 0).nextFree node = 0 := by
        rw [nextFree_setPrevFree (Or.inl rfl), nextFree_setNextFree_self (by omega)]
      exact hnext.trans h0.symm
    · rename_i h0
      obtain ⟨q, l, rfl⟩ : ∃ q l, fl = q :: l := by
        cases fl with
        | nil => exact absurd hhead h0
        | cons q l => exact ⟨q, l, rfl⟩
      obtain rfl : h.headFree = q := hhead
      have hq : Apart node h.headFree := hap _ (by simp)
      refine hl.linked.push ?_ ?_ ?_ ?_
      · change (((h.setNextFree node h.headFree).setPrevFree node 0).setPrevFree
          h.headFree node).nextFree node = h.headFree
        rw [nextFree_setPrevFree (Or.inr hq.symm), nextFree_setPrevFree (Or.inl rfl),
          nextFree_setNextFree_self (hl.lt _ (by simp))]
      · intro y hy
        change (((h.setNextFree node h.headFree).setPrevFree node 0).setPrevFree
          h.headFree node).nextFree y = h.nextFree y
        rw [nextFree_setPrevFree, nextFree_setPrevFree (Or.inr (hap y hy)),
          nextFree_setNextFree (hap y hy)]
        rcases List.mem_cons.mp hy with rfl | hy
        · exact Or.inl rfl
        · exact Or.inr ((List.pairwise_cons.mp hl.apart).1 y hy)
      · intro y hy
        obtain rfl : h.headFree = y := by simpa using hy
        exact prevFree_setPrevFree_self hlt
      · intro y hy
        change (((h.setNextFree node h.headFree).setPrevFree node 0).setPrevFree
          h.headFree node).prevFree y = h.prevFree y
        have hy' : Apart node y := hap y (List.mem_cons_of_mem _ hy)
        rw [prevFree_setPrevFree ((List.pairwise_cons.mp hl.apart).1 y hy),
          prevFree_setPrevFree hy', prevFree_setNextFree (Or.inr hy')]
  · intro p hp
    rcases List.mem_cons.mp hp with rfl | hp
    · exact hpos
    · exact hl.pos p hp
  · intro p hp
    rcases List.mem_cons.mp hp with rfl | hp
    · exact hlt
    · exact hl.lt p hp

/-! ## Removal -/

theorem removeFree_tailMem (h : Heap) (node : Nat) : (h.removeFree node).tailMem = h.tailMem := by
  unfold removeFree
  split
  · rfl
  · dsimp only
    split_ifs <;> rfl

theorem removeFree_startMem (h : Heap) (node : Nat) :
    (h.removeFree node).startMem = h.startMem := by
  unfold removeFree
  split
  · rfl
  · dsimp only
    split_ifs <;> rfl

theorem removeFree_brk (h : Heap) (node : Nat) : (h.removeFree node).brk = h.brk := by
  unfold removeFree
  split
  · rfl
  · dsimp only
    split_ifs <;> rfl

/-- A node of the list is its head or has a node before it. -/
theorem FreeList.head_or_inner (hl : h.FreeList fl) (hp : node ∈ fl) :
    (∃ c, fl = node :: c ∧ h.headFree = node) ∨
      ∃ a y c, fl = a ++ y :: node :: c ∧ h.headFree ≠ node ∧ h.prevFree node = y ∧
        h.nextFree node = c.headD 0 := by
  obtain ⟨l, c, rfl⟩ := List.append_of_mem hp
  rcases List.eq_nil_or_concat l with rfl | ⟨a, y, rfl⟩
  · exact Or.inl ⟨c, rfl, hl.linked.head⟩
  · have heq : a.concat y ++ node :: c = a ++ y :: node :: c := by simp
    rw [heq] at hl ⊢
    refine Or.inr ⟨a, y, c, rfl, ?_, hl.linked.prev_eq, ?_⟩
    · rw [hl.linked.head]
      have hap := List.pairwise_append.mp hl.apart
      intro hhd
      cases a with
      | nil =>
        have := (List.pairwise_cons.mp hl.apart).1 node (by simp)
        simp only [List.nil_append, List.headD_cons] at hhd
        unfold Apart at this
        omega
      | cons z a =>
        have := hap.2.2 z (by simp) node (by simp)
        simp only [List.cons_append, List.headD_cons] at hhd
        unfold Apart at this
        omega
    · exact DoublyLinked.next_eq (a := a ++ [y]) (by simpa using hl.linked)

/-- `remove_free` writes links of nodes of the list only. -/
theorem FreeList.removeFree_mem (hl : h.FreeList fl) (hp : node ∈ fl) {a : Nat}
    (ha : ∀ p ∈ fl, ¬ (p + 16 ≤ a ∧ a < p + 32)) : (h.removeFree node).mem a = h.mem a := by
  rcases hl.head_or_inner hp with ⟨c, rfl, hhd⟩ | ⟨b, y, c, rfl, hhd, hprev, hnext⟩
  · rw [removeFree, if_pos hhd.symm]
  · rw [removeFree, if_neg hhd.symm, hprev, hnext]
    have hy := ha y (by simp)
    have hx := ha node (by simp)
    have hc : c.headD 0 = 0 ∨ ¬ (c.headD 0 + 16 ≤ a ∧ a < c.headD 0 + 32) := by
      cases c with
      | nil => exact Or.inl rfl
      | cons z c => exact Or.inr (ha z (by simp))
    dsimp only
    split_ifs
    all_goals
      simp only [setNextFree, setPrevFree, withMem_mem]
      repeat rw [Memory.store_of_not_mem (by omega)]

/-- The writes of `remove_free` at an inner node, as one update of the links. -/
theorem removeFree_inner (hl : h.FreeList fl) {y z : Nat} (hhd : h.headFree ≠ node)
    (hprev : h.prevFree node = y) (hy : y ∈ fl) (hnode : node ∈ fl)
    (hnext : h.nextFree node = 0 ∨ h.nextFree node ∈ fl) (hz : z ∈ fl) (hzn : z ≠ node) :
    (h.removeFree node).nextFree z = (if z = y then h.nextFree node else h.nextFree z) ∧
      (h.removeFree node).prevFree z = (if z = h.nextFree node then y else h.prevFree z) := by
  have hap : ∀ w ∈ fl, w = z ∨ Apart w z := fun w hw =>
    (eq_or_ne w z).imp_right (hl.apart_of_ne hw hz)
  have hnz : Apart node z := hl.apart_of_ne hnode hz hzn.symm
  rw [removeFree, if_neg hhd.symm, hprev]
  dsimp only
  rw [if_pos (hl.pos y hy).ne']
  by_cases h0 : h.nextFree node = 0
  · have hz0 : z ≠ h.nextFree node := fun heq => (hl.pos z hz).ne' (heq.trans h0)
    rw [if_neg (not_not_intro h0), if_neg hz0, nextFree_setPrevFree (Or.inr hnz),
      nextFree_setNextFree hnz, prevFree_setPrevFree hnz, prevFree_setNextFree (Or.inr hnz),
      prevFree_setNextFree (hap y hy)]
    refine ⟨?_, rfl⟩
    split_ifs with hzy
    · rw [hzy, nextFree_setNextFree_self (nextFree_lt ..)]
    · exact nextFree_setNextFree (hl.apart_of_ne hy hz (Ne.symm hzy))
  · have hnf := hnext.resolve_left h0
    rw [if_pos h0, nextFree_setPrevFree (Or.inr hnz), nextFree_setNextFree hnz,
      nextFree_setPrevFree (hap _ hnf), prevFree_setPrevFree hnz, prevFree_setNextFree (Or.inr hnz)]
    constructor
    · split_ifs with hzy
      · rw [hzy, nextFree_setNextFree_self (nextFree_lt ..)]
      · exact nextFree_setNextFree (hl.apart_of_ne hy hz (Ne.symm hzy))
    · split_ifs with hzn
      · rw [hzn, prevFree_setPrevFree_self (hl.lt y hy)]
      · rw [prevFree_setPrevFree (hl.apart_of_ne hnf hz (Ne.symm hzn)),
          prevFree_setNextFree (hap y hy)]

/-- `remove_free` drops the node. -/
theorem FreeList.removeFree (hl : h.FreeList fl) (hp : node ∈ fl) :
    (h.removeFree node).FreeList (fl.erase node) := by
  have hsub : List.Sublist (fl.erase node) fl := List.erase_sublist
  refine ⟨?_, hl.apart.sublist hsub, fun p hp => hl.pos p (hsub.subset hp),
    fun p hp => hl.lt p (hsub.subset hp)⟩
  rcases hl.head_or_inner hp with ⟨c, rfl, hhd⟩ | ⟨a, y, c, rfl, hhd, hprev, hnext⟩
  · rw [Heap.removeFree, if_pos hhd.symm, List.erase_cons_head, hhd]
    exact hl.linked.pop
  · -- an inner node: no two of `a`, `y`, the node and `c` share an address
    obtain ⟨hya, hna, hac⟩ : y ∉ a ∧ node ∉ a ∧ ∀ z ∈ a, z ∉ c := by
      have := (List.nodup_append.mp hl.nodup).2.2
      exact ⟨fun hm => this y hm y (by simp) rfl, fun hm => this node hm node (by simp) rfl,
        fun z hz hm => this z hz z (by simp [hm]) rfl⟩
    obtain ⟨hyn, hyc, hnc, hcd⟩ : y ≠ node ∧ y ∉ c ∧ node ∉ c ∧ c.Nodup := by
      have := (List.nodup_append.mp hl.nodup).2.1
      simpa [List.nodup_cons, and_assoc] using this
    have herase : (a ++ y :: node :: c).erase node = a ++ y :: c := by
      rw [List.erase_append_right _ hna, List.erase_cons_tail (by simpa using hyn),
        List.erase_cons_head]
    have hhead : (h.removeFree node).headFree = h.headFree := by
      rw [Heap.removeFree, if_neg hhd.symm]
      dsimp only
      split_ifs <;> rfl
    have hnext' : h.nextFree node = 0 ∨ h.nextFree node ∈ a ++ y :: node :: c := by
      rw [hnext]
      cases c <;> simp
    have hlink := fun z hz => removeFree_inner (z := z) hl hhd hprev (by simp) (by simp) hnext' hz
    rw [herase, hhead]
    refine hl.linked.unlink ?_ ?_ ?_ ?_ ?_
    · rw [(hlink y (by simp) hyn).1, if_pos rfl]
    · intro z hz
      cases c with
      | nil => simp at hz
      | cons w c =>
        obtain rfl : w = z := by simpa using hz
        rw [(hlink w (by simp) (by rintro rfl; simp at hnc)).2, hnext, List.headD_cons, if_pos rfl]
    · intro z hz
      have hz' : z ≠ node ∧ z ≠ y := by
        rcases List.mem_append.mp hz with hz | hz
        · exact ⟨fun heq => hna (heq ▸ hz), fun heq => hya (heq ▸ hz)⟩
        · exact ⟨fun heq => hnc (heq ▸ hz), fun heq => hyc (heq ▸ hz)⟩
      have hmem : z ∈ a ++ y :: node :: c := by
        rcases List.mem_append.mp hz with hz | hz <;> simp [hz]
      rw [(hlink z hmem hz'.1).1, if_neg hz'.2]
    · intro z hz
      have hz' : z ≠ node ∧ z ∉ c := by
        rcases List.mem_append.mp hz with hz | hz
        · exact ⟨fun heq => hna (heq ▸ hz), hac z hz⟩
        · obtain rfl : z = y := by simpa using hz
          exact ⟨hyn, hyc⟩
      have hmem : z ∈ a ++ y :: node :: c := by
        rcases List.mem_append.mp hz with hz | hz
        · simp [hz]
        · simp [List.mem_singleton.mp hz]
      rw [(hlink z hmem hz'.1).2, hnext, if_neg]
      cases c with
      | nil => exact (hl.pos z hmem).ne'
      | cons w c => exact fun heq => hz'.2 (by simp [heq])
    · intro z hz
      have hzc : z ∈ c := List.mem_of_mem_tail hz
      rw [(hlink z (by simp [hzc]) fun heq => hnc (heq ▸ hzc)).2, hnext, if_neg]
      cases c with
      | nil => simp at hz
      | cons w c =>
        rintro rfl
        exact (List.nodup_cons.mp hcd).1 (by simpa using hz)

/-! ## First fit -/

/-- The walk of `malloc` stops at the first node that is large enough, or at the end. -/
theorem FreeList.firstFit_eq {size : Nat} (hl : h.FreeList fl) :
    ∀ {a c : List Nat}, fl = a ++ c → ∀ {fuel : Nat}, c.length < fuel →
      h.firstFit size fuel (c.headD 0) = some ((c.find? fun p => size ≤ h.size p).getD 0) := by
  intro a c
  induction c generalizing a with
  | nil =>
    intro _ fuel hfuel
    obtain ⟨fuel, rfl⟩ := Nat.exists_eq_succ_of_ne_zero (Nat.ne_of_gt (Nat.zero_lt_of_lt hfuel))
    rw [firstFit, List.headD_nil, if_pos rfl]
    rfl
  | cons p c ih =>
    intro hfl fuel hfuel
    obtain ⟨fuel, rfl⟩ := Nat.exists_eq_succ_of_ne_zero (Nat.ne_of_gt (Nat.zero_lt_of_lt hfuel))
    have hp0 : p ≠ 0 := (hl.pos p (by simp [hfl])).ne'
    rw [firstFit, List.headD_cons, if_neg hp0]
    split_ifs with hsz
    · rw [List.find?_cons_of_pos (by simpa using hsz)]
      rfl
    · have hnext : h.nextFree p = c.headD 0 := (hfl ▸ hl.linked).next_eq
      rw [List.find?_cons_of_neg (by simpa using hsz), hnext]
      exact ih (a := a ++ [p]) (by simp [hfl]) (by simpa using hfuel)

end SystemProgramming.Malloc.Heap
