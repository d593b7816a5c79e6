import SystemProgramming.Malloc.Rep

/-!
# Freeing a block

`free` puts a block back and merges it with a free neighbour below, above, or both. Each
of the four outcomes is a step on the list of blocks; all of them write to headers and tags
only.

## Main definitions

* `Freed found b bs bs'`: freeing the block `b` makes the blocks `bs'` of the blocks `bs`
* `Outcome h b bs h'`: which of its four ways `free` takes

## Main results

* `Rep.coalesceThreeBlocks`, `Rep.coalesceTwoBlocksBefore`, `Rep.coalesceTwoBlocksAfter`,
  `Rep.freeBlock`: the four outcomes
* `Rep.free_outcome`: the way that `free` of an allocated block takes
* `Rep.free`: `free` of an allocated block keeps the representation and the other blocks
* `Rep.free_mem`: `free` writes to headers and tags only
-/

namespace SystemProgramming.Malloc

variable {base : Nat} {h : Heap} {b p n : Block} {bs l r : List Block} {fl : List Nat}

/-- Dropping the first entry of a permutation. -/
theorem perm_erase {a : Nat} {l rest : List Nat} (hp : l.Perm (a :: rest)) : (l.erase a).Perm rest := by
  simpa using hp.erase a

/-- The heap `h'` differs from `h` in headers and tags only. -/
def MetaOnly (bs : List Block) (h h' : Heap) : Prop := ∀ a, ¬ MetaByte bs a → h'.mem a = h.mem a

theorem MetaOnly.trans {h₁ h₂ h₃ : Heap} (h₁₂ : MetaOnly bs h₁ h₂) (h₂₃ : MetaOnly bs h₂ h₃) :
    MetaOnly bs h₁ h₃ := fun a ha => (h₂₃ a ha).trans (h₁₂ a ha)

theorem setIsFree_metaOnly {v : Nat} (hb : b ∈ bs) : MetaOnly bs h (h.setIsFree b.addr v) :=
  fun a ha => Memory.store_of_not_mem fun hba =>
    ha ⟨b, hb, Or.inl ⟨by omega, by unfold Block.data; omega⟩⟩

theorem updateNodeSize_metaOnly {v : Nat} (hp : p ∈ bs) (hn : n ∈ bs) :
    MetaOnly bs h (h.updateNodeSize p.addr n.tag v) := by
  intro a ha
  have h₁ : ¬ (p.addr ≤ a ∧ a < p.addr + 8) := fun hpa =>
    ha ⟨p, hp, Or.inl ⟨hpa.1, by unfold Block.data; omega⟩⟩
  have h₂ : ¬ (n.tag ≤ a ∧ a < n.tag + 8) := fun hna =>
    ha ⟨n, hn, Or.inr ⟨hna.1, by unfold Block.tag Block.next at *; omega⟩⟩
  simp only [Heap.updateNodeSize, Heap.setBtag, Heap.setSize, Heap.withMem_mem]
  rw [Memory.store_of_not_mem h₂, Memory.store_of_not_mem h₁]

theorem moveTail_metaOnly {h' : Heap} {c t : Nat}
    (hh' : h' = if c = 0 then { h with tailMem := t } else h) : MetaOnly bs h h' := by
  intro a _
  rw [hh']
  split_ifs <;> rfl

theorem mem_mid {q : Block} : q ∈ l ++ [q] ++ r := by simp

/-- What freeing the block `b` makes of the list of blocks: a free block before it is always
merged with it, a free block after it when `found`. -/
inductive Freed (found : Prop) (b : Block) : List Block → List Block → Prop
  | three (l r : List Block) {p n : Block} (hp : p.free = true) (hn : n.free = true)
      (hfound : found) :
      Freed found b (l ++ [p, b, n] ++ r)
        (l ++ [⟨p.addr, p.size + (80 + b.size + n.size), true⟩] ++ r)
  | before (l r : List Block) {p : Block} (hp : p.free = true)
      (hr : ∀ n ∈ r.head?, n.free = true → ¬ found) :
      Freed found b (l ++ [p, b] ++ r) (l ++ [⟨p.addr, p.size + (40 + b.size), true⟩] ++ r)
  | after (l r : List Block) {n : Block} (hl : ∀ p ∈ l.getLast?, p.free = false)
      (hn : n.free = true) (hfound : found) :
      Freed found b (l ++ [b, n] ++ r) (l ++ [⟨b.addr, b.size + (40 + n.size), true⟩] ++ r)
  | alone (l r : List Block) (hl : ∀ p ∈ l.getLast?, p.free = false)
      (hr : ∀ n ∈ r.head?, n.free = true → ¬ found) :
      Freed found b (l ++ [b] ++ r) (l ++ [{ b with free := true }] ++ r)

/-- The other allocated blocks are kept. -/
theorem Freed.keep {found : Prop} {bs' : List Block} {c : Block} (hf : Freed found b bs bs')
    (hc : c ∈ bs) (hcf : c.free = false) (hcb : c ≠ b) : c ∈ bs' := by
  cases hf with
  | three l r hp hn _ =>
    simp only [List.mem_append, List.mem_cons, List.not_mem_nil, or_false] at hc ⊢
    rcases hc with (hc | rfl | rfl | rfl) | hc
    · exact Or.inl (Or.inl hc)
    · simp [hp] at hcf
    · exact absurd rfl hcb
    · simp [hn] at hcf
    · exact Or.inr hc
  | before l r hp _ =>
    simp only [List.mem_append, List.mem_cons, List.not_mem_nil, or_false] at hc ⊢
    rcases hc with (hc | rfl | rfl) | hc
    · exact Or.inl (Or.inl hc)
    · simp [hp] at hcf
    · exact absurd rfl hcb
    · exact Or.inr hc
  | after l r _ hn _ =>
    simp only [List.mem_append, List.mem_cons, List.not_mem_nil, or_false] at hc ⊢
    rcases hc with (hc | rfl | rfl) | hc
    · exact Or.inl (Or.inl hc)
    · exact absurd rfl hcb
    · simp [hn] at hcf
    · exact Or.inr hc
  | alone l r _ _ =>
    simp only [List.mem_append, List.mem_cons, List.not_mem_nil, or_false] at hc ⊢
    rcases hc with (hc | rfl) | hc
    · exact Or.inl (Or.inl hc)
    · exact absurd rfl hcb
    · exact Or.inr hc

namespace Rep

theorem mem_list_iff (hr : Rep base h bs fl) {a : Nat} :
    a ∈ fl ↔ ∃ b ∈ bs, b.free = true ∧ b.addr = a := by
  rw [hr.perm.mem_iff]
  simp [and_assoc]

theorem mem_list (hr : Rep base h bs fl) (hb : b ∈ bs) (hf : b.free = true) : b.addr ∈ fl :=
  hr.mem_list_iff.mpr ⟨b, hb, hf, rfl⟩

theorem not_mem_list (hr : Rep base h bs fl) (hb : b ∈ bs) (hf : b.free = false) :
    b.addr ∉ fl := by
  intro hmem
  obtain ⟨c, hc, hcf, hca⟩ := hr.mem_list_iff.mp hmem
  obtain rfl := hr.layout.eq_of_addr_eq hc hb hca
  simp [hf] at hcf

/-- A free node other than the erased one is a free block other than it. -/
theorem of_mem_erase (hr : Rep base h bs fl) {a : Nat} (ha : a ∈ fl.erase n.addr) :
    ∃ c ∈ bs, c.free = true ∧ c.addr = a ∧ c ≠ n := by
  obtain ⟨hne, hmem⟩ := (hr.list.nodup.mem_erase_iff).mp ha
  obtain ⟨c, hc, hcf, rfl⟩ := hr.mem_list_iff.mp hmem
  exact ⟨c, hc, hcf, rfl, fun heq => hne (heq ▸ rfl)⟩

/-! ## The four outcomes -/

/-- `tail_mem` after a merge of the blocks from `p` to `n`: moved to `p`, or past `n`. -/
theorem moveTail (hc : Core base h (l ++ n :: r) fl) (hp : p ∈ l ++ n :: r) {h' : Heap}
    (hh' : h' = if h.getNextMem n.addr = 0 then { h with tailMem := p.addr } else h) :
    Core base h' (l ++ n :: r) fl ∧ (h'.tailMem = p.addr ∨ ∃ t ∈ r, t.addr = h'.tailMem) := by
  by_cases h0 : h.getNextMem n.addr = 0
  · rw [if_pos h0] at hh'
    subst hh'
    exact ⟨hc.setTail ⟨p, hp, rfl⟩, Or.inl rfl⟩
  · rw [if_neg h0] at hh'
    subst hh'
    obtain ⟨n', r', rfl, -, ht⟩ := hc.exists_of_getNextMem h0
    exact ⟨hc, Or.inr ht⟩

/-- The size of a neighbour with its header and tag, which does not wrap. -/
theorem wadd_size (hc : Core base h bs fl) (hn : n ∈ bs) :
    wadd metaBtagSize (h.size n.addr) = 40 + n.size := by
  have hlt := hc.next_lt hn
  unfold Block.next at hlt
  rw [hc.size_eq hn, show metaBtagSize = 40 from rfl, wadd_of_lt (by omega)]

/-- The blocks `x` behind `p`, none of them on the free list, become part of it. -/
theorem mergeInto {x : List Block} {q : Block} {s : Nat} (hc : Core base h (l ++ (p :: x) ++ r) fl)
    (haddr : q.addr = p.addr) (hfree : q.free = p.free) (hsize : q.size = p.size + s)
    (htag : ∃ c ∈ p :: x, c.tag = q.tag)
    (hxy : ∀ i j, Tiles Block.addr Block.next i (p :: x) j → Tiles Block.addr Block.next i [q] j)
    (hinner : ∀ c ∈ x, c.addr ∉ fl)
    (htail : h.tailMem = p.addr ∨ ∃ t ∈ r, t.addr = h.tailMem) :
    Core base (h.updateNodeSize p.addr q.tag s) (l ++ [q] ++ r) fl := by
  refine hc.merge haddr hfree hsize htag hxy (fun a ha => ?_) (Or.inr ?_)
  · obtain ⟨c, hcm, rfl⟩ := hc.nodes a ha
    simp only [List.mem_append, List.mem_cons] at hcm
    rcases hcm with (hcl | rfl | hcx) | hcr
    · exact ⟨c, by simp [hcl], rfl⟩
    · exact ⟨q, mem_mid, haddr⟩
    · exact absurd ha (hinner c hcx)
    · exact ⟨c, by simp [hcr], rfl⟩
  · rcases htail with ht | ⟨t, htr, ht⟩
    · exact ⟨q, mem_mid, haddr.trans ht.symm⟩
    · exact ⟨t, by simp [htr], ht⟩

/-- The headers and tags of two blocks hold those of the block merged from them. -/
theorem metaByte_merge {a : Nat} (hn : n.addr = b.next)
    (ha : MetaByte (l ++ [⟨b.addr, b.size + (40 + n.size), true⟩] ++ r) a) :
    MetaByte (l ++ [b, n] ++ r) a := by
  obtain ⟨c, hc, hca⟩ := ha
  simp only [List.mem_append, List.mem_singleton] at hc
  rcases hc with (hc | rfl) | hc
  · exact ⟨c, by simp [hc], hca⟩
  · rcases hca with hca | hca
    · exact ⟨b, by simp, Or.inl hca⟩
    · refine ⟨n, by simp, Or.inr ?_⟩
      simp only [Block.next, Block.tag] at *
      omega
  · exact ⟨c, by simp [hc], hca⟩

/-- An erased node is not on the list. -/
theorem not_mem_erase (hr : Rep base h bs fl) (a : Nat) : a ∉ fl.erase a :=
  fun ha => ((hr.list.nodup.mem_erase_iff).mp ha).1 rfl

/-- A block between two free ones becomes part of the lower one. -/
theorem coalesceThreeBlocks (hr : Rep base h (l ++ [p, b, n] ++ r) fl) (hp : p.free = true)
    (hb : b.free = false) (hn : n.free = true) :
    Rep base (h.coalesceThreeBlocks b.addr p.addr n.addr)
        (l ++ [⟨p.addr, p.size + (80 + b.size + n.size), true⟩] ++ r) (fl.erase n.addr) ∧
      MetaOnly (l ++ [p, b, n] ++ r) h (h.coalesceThreeBlocks b.addr p.addr n.addr) := by
  have hpm : p ∈ l ++ [p, b, n] ++ r := by simp
  have hbm : b ∈ l ++ [p, b, n] ++ r := by simp
  have hnm : n ∈ l ++ [p, b, n] ++ r := by simp
  have hc₁ := hr.toCore.removeFree (hr.mem_list hnm hn)
  have hm₁ : MetaOnly _ h (h.removeFree n.addr) := fun _ => hr.removeFree_mem (hr.mem_list hnm hn)
  obtain ⟨h₁, hh₁⟩ : ∃ h₁, h₁ = h.removeFree n.addr := ⟨_, rfl⟩
  rw [← hh₁] at hc₁ hm₁
  obtain ⟨h₂, hh₂⟩ : ∃ h₂, h₂ = if h₁.getNextMem n.addr = 0 then { h₁ with tailMem := p.addr } else h₁ :=
    ⟨_, rfl⟩
  obtain ⟨hc₂, htail⟩ := moveTail (l := l ++ [p, b]) (r := r) (by simpa using hc₁) (by simp) hh₂
  replace hc₂ : Core base h₂ (l ++ [p, b, n] ++ r) (fl.erase n.addr) := by simpa using hc₂
  obtain ⟨m, -, hmp, hmb, hmn, -⟩ := tiles_append.mp (tiles_append.mp hr.layout.tiles).choose_spec.1
  have hlt := hc₂.next_lt hnm
  have hnew : wadd (wadd (2 * metaBtagSize) (h₂.size b.addr)) (h₂.size n.addr) =
      80 + b.size + n.size := by
    rw [hc₂.size_eq hbm, hc₂.size_eq hnm]
    unfold Block.next at *
    rw [show 2 * metaBtagSize = 80 from rfl, wadd_of_lt (p := 80) (by omega), wadd_of_lt (by omega)]
  have htag : n.tag = (⟨p.addr, p.size + (80 + b.size + n.size), true⟩ : Block).tag := by
    simp only [Block.next, Block.tag] at *
    omega
  have heq : h.coalesceThreeBlocks b.addr p.addr n.addr =
      h₂.updateNodeSize p.addr (h₂.getNodeBtag n.addr)
        (wadd (wadd (2 * metaBtagSize) (h₂.size b.addr)) (h₂.size n.addr)) := by
    rw [hh₂, hh₁]
    rfl
  rw [heq, hnew, hc₂.getNodeBtag_eq hnm]
  refine ⟨?_, hm₁.trans ((moveTail_metaOnly hh₂).trans (updateNodeSize_metaOnly hpm hnm))⟩
  rw [htag]
  refine ⟨mergeInto hc₂ rfl hp.symm rfl ⟨n, by simp, htag⟩ ?_ ?_ htail, ?_⟩
  · rintro i j ⟨h1, h2, h3, h4⟩
    refine ⟨h1, ?_⟩
    simp only [tiles_nil, Block.next] at *
    omega
  · intro c hc
    rcases List.mem_pair.mp hc with rfl | rfl
    · exact fun ha => hr.not_mem_list hbm hb (List.mem_of_mem_erase ha)
    · exact hr.not_mem_erase _
  · refine perm_erase (hr.perm.trans ?_)
    simpa [List.filter_append, List.filter_cons, hp, hb, hn] using
      @List.perm_middle _ _ ((l.filter Block.free).map Block.addr ++ [p.addr]) _

/-- A block after a free one becomes part of it. -/
theorem coalesceTwoBlocksBefore (hr : Rep base h (l ++ [p, b] ++ r) fl) (hp : p.free = true)
    (hb : b.free = false) :
    Rep base (h.coalesceTwoBlocksBefore b.addr p.addr (h.getNextMem b.addr))
        (l ++ [⟨p.addr, p.size + (40 + b.size), true⟩] ++ r) fl ∧
      MetaOnly (l ++ [p, b] ++ r) h
        (h.coalesceTwoBlocksBefore b.addr p.addr (h.getNextMem b.addr)) := by
  have hpm : p ∈ l ++ [p, b] ++ r := by simp
  have hbm : b ∈ l ++ [p, b] ++ r := by simp
  obtain ⟨h₂, hh₂⟩ : ∃ h₂, h₂ = if h.getNextMem b.addr = 0 then { h with tailMem := p.addr } else h :=
    ⟨_, rfl⟩
  obtain ⟨hc₂, htail⟩ := moveTail (l := l ++ [p]) (r := r) (by simpa using hr.toCore) (by simp) hh₂
  replace hc₂ : Core base h₂ (l ++ [p, b] ++ r) fl := by simpa using hc₂
  obtain ⟨m, -, hmp, hmb, -⟩ := tiles_append.mp (tiles_append.mp hr.layout.tiles).choose_spec.1
  have htag : b.tag = (⟨p.addr, p.size + (40 + b.size), true⟩ : Block).tag := by
    simp only [Block.next, Block.tag] at *
    omega
  have heq : h.coalesceTwoBlocksBefore b.addr p.addr (h.getNextMem b.addr) =
      h₂.updateNodeSize p.addr (h₂.getNodeBtag b.addr) (wadd metaBtagSize (h₂.size b.addr)) := by
    rw [hh₂]
    rfl
  rw [heq, wadd_size hc₂ hbm, hc₂.getNodeBtag_eq hbm]
  refine ⟨?_, (moveTail_metaOnly hh₂).trans (updateNodeSize_metaOnly hpm hbm)⟩
  rw [htag]
  refine ⟨mergeInto hc₂ rfl hp.symm rfl ⟨b, by simp, htag⟩ ?_ ?_ htail, ?_⟩
  · rintro i j ⟨h1, h2, h3⟩
    refine ⟨h1, ?_⟩
    simp only [tiles_nil, Block.next] at *
    omega
  · intro c hc
    obtain rfl := List.mem_singleton.mp hc
    exact hr.not_mem_list hbm hb
  · refine hr.perm.trans (List.Perm.of_eq ?_)
    simp [List.filter_append, hp, hb]

/-- A block before a free one takes it over and goes on the free list. -/
theorem coalesceTwoBlocksAfter (hr : Rep base h (l ++ [b, n] ++ r) fl) (hb : b.free = false)
    (hn : n.free = true) :
    Rep base (h.coalesceTwoBlocksAfter b.addr n.addr)
        (l ++ [⟨b.addr, b.size + (40 + n.size), true⟩] ++ r) (b.addr :: fl.erase n.addr) ∧
      MetaOnly (l ++ [b, n] ++ r) h (h.coalesceTwoBlocksAfter b.addr n.addr) := by
  have hbm : b ∈ l ++ [b, n] ++ r := by simp
  have hnm : n ∈ l ++ [b, n] ++ r := by simp
  have hc₁ := hr.toCore.removeFree (hr.mem_list hnm hn)
  have hm₁ : MetaOnly _ h (h.removeFree n.addr) := fun _ => hr.removeFree_mem (hr.mem_list hnm hn)
  obtain ⟨h₁, hh₁⟩ : ∃ h₁, h₁ = h.removeFree n.addr := ⟨_, rfl⟩
  rw [← hh₁] at hc₁ hm₁
  obtain ⟨h₂, hh₂⟩ : ∃ h₂, h₂ = if h₁.getNextMem n.addr = 0 then { h₁ with tailMem := b.addr } else h₁ :=
    ⟨_, rfl⟩
  obtain ⟨hc₂, htail⟩ := moveTail (l := l ++ [b]) (r := r) (by simpa using hc₁) (by simp) hh₂
  -- the flag is written before the blocks are merged
  have hc₃ : Core base (h₂.setIsFree b.addr 1) (l ++ [{ b with free := true }, n] ++ r)
      (fl.erase n.addr) := by
    have := Core.setIsFree (l := l) (r := n :: r) (by simpa using hc₂) true
    simpa using this
  obtain ⟨h₃, hh₃⟩ : ∃ h₃, h₃ = h₂.setIsFree b.addr 1 := ⟨_, rfl⟩
  have htail₃ : h₃.tailMem = h₂.tailMem := by rw [hh₃, Heap.setIsFree, Heap.withMem_tailMem]
  rw [← hh₃] at hc₃
  have hnm₃ : n ∈ l ++ [{ b with free := true }, n] ++ r := by simp
  obtain ⟨m, -, hmb, hmn, -⟩ := tiles_append.mp (tiles_append.mp hr.layout.tiles).choose_spec.1
  have htag : n.tag = (⟨b.addr, b.size + (40 + n.size), true⟩ : Block).tag := by
    simp only [Block.next, Block.tag] at *
    omega
  have heq : h.coalesceTwoBlocksAfter b.addr n.addr =
      (h₃.updateNodeSize b.addr (h₃.getNodeBtag n.addr)
        (wadd metaBtagSize (h₃.size n.addr))).insertFree b.addr := by
    rw [hh₃, hh₂, hh₁]
    rfl
  have hnb : b.addr ∉ fl.erase n.addr := fun ha => hr.not_mem_list hbm hb (List.mem_of_mem_erase ha)
  rw [heq, wadd_size hc₃ hnm₃, hc₃.getNodeBtag_eq hnm₃, htag]
  have hc₄ := mergeInto (q := ⟨b.addr, b.size + (40 + n.size), true⟩) hc₃ rfl rfl rfl
    ⟨n, by simp, htag⟩ ?_ ?_ (htail₃ ▸ htail)
  · have hm₃ : MetaOnly (l ++ [b, n] ++ r) h h₃ :=
      hm₁.trans ((moveTail_metaOnly hh₂).trans (hh₃ ▸ setIsFree_metaOnly hbm))
    have hm₄ : MetaOnly (l ++ [b, n] ++ r) h₃ (h₃.updateNodeSize b.addr n.tag (40 + n.size)) :=
      updateNodeSize_metaOnly hbm hnm
    refine ⟨⟨hc₄.insertFree (b := ⟨b.addr, b.size + (40 + n.size), true⟩) mem_mid hnb, ?_⟩,
      hm₃.trans ((htag ▸ hm₄).trans fun a ha =>
        hc₄.insertFree_mem (b := ⟨b.addr, b.size + (40 + n.size), true⟩) mem_mid fun hma =>
          ha (metaByte_merge hmn hma))⟩
    have hperm : (fl.erase n.addr).Perm
        ((l.filter Block.free).map Block.addr ++ (r.filter Block.free).map Block.addr) := by
      refine perm_erase (hr.perm.trans ?_)
      simp [List.filter_append, hb, hn]
    refine (hperm.cons b.addr).trans ?_
    simpa [List.filter_append, List.filter_cons] using List.perm_middle.symm
  · rintro i j ⟨h1, h2, h3⟩
    refine ⟨h1, ?_⟩
    simp only [tiles_nil, Block.next] at *
    omega
  · intro c hc
    obtain rfl := List.mem_singleton.mp hc
    exact hr.not_mem_erase _

/-- A block with no free neighbour goes on the free list. -/
theorem freeBlock (hr : Rep base h (l ++ [b] ++ r) fl) (hb : b.free = false) :
    Rep base ((h.setIsFree b.addr 1).insertFree b.addr) (l ++ [{ b with free := true }] ++ r)
        (b.addr :: fl) ∧
      MetaOnly (l ++ [b] ++ r) h ((h.setIsFree b.addr 1).insertFree b.addr) := by
  have hbm : b ∈ l ++ [b] ++ r := by simp
  have hc := hr.toCore.setIsFree true
  have hnb : b.addr ∉ fl := hr.not_mem_list hbm hb
  refine ⟨⟨hc.insertFree (b := { b with free := true }) mem_mid hnb, ?_⟩,
    (setIsFree_metaOnly hbm).trans fun a ha =>
      hc.insertFree_mem (b := { b with free := true }) mem_mid fun hma => ha ?_⟩
  swap
  · obtain ⟨c, hcm, hca⟩ := hma
    simp only [List.mem_append, List.mem_singleton] at hcm
    rcases hcm with (hcm | rfl) | hcm
    · exact ⟨c, by simp [hcm], hca⟩
    · exact ⟨b, hbm, hca⟩
    · exact ⟨c, by simp [hcm], hca⟩
  have hperm : fl.Perm
      ((l.filter Block.free).map Block.addr ++ (r.filter Block.free).map Block.addr) := by
    refine hr.perm.trans (List.Perm.of_eq ?_)
    simp [List.filter_append, hb]
  refine (hperm.cons b.addr).trans ?_
  simpa [List.filter_append, List.filter_cons] using List.perm_middle.symm

/-! ## The choice between them -/

theorem wsub_data (hc : Core base h bs fl) (hb : b ∈ bs) : wsub b.data nodeSize = b.addr := by
  have hlt := hc.next_lt hb
  unfold Block.data Block.next nodeSize at *
  rw [wsub_of_le (by omega) (by omega)]
  omega

/-- The previous neighbour is merged when it is a free block. -/
theorem prev_valid_iff (hc : Core base h (l ++ b :: r) fl) :
    (h.getPrevMem b.addr ≠ 0 ∧ h.getPrevMem b.addr ≥ h.startMem ∧
        h.isFree (h.getPrevMem b.addr) ≠ 0) ↔
      ∃ l' p, l = l' ++ [p] ∧ p.free = true ∧ h.getPrevMem b.addr = p.addr := by
  rcases List.eq_nil_or_concat l with rfl | ⟨l', p, rfl⟩
  · have h0 : h.getPrevMem b.addr = 0 := hc.getPrevMem_first
    simp [h0]
  · have hc' : Core base h (l' ++ p :: b :: r) fl := by simpa using hc
    have hp : p ∈ l' ++ p :: b :: r := by simp
    have hbase := (hc'.layout.bounds hp).1
    have hle := hc'.base_le
    rw [hc'.getPrevMem_eq, hc'.isFree_eq hp, hc'.startMem_eq hp]
    constructor
    · rintro ⟨-, -, hf⟩
      refine ⟨l', p, by simp, ?_, rfl⟩
      cases hpf : p.free with
      | true => rfl
      | false => simp [hpf] at hf
    · rintro ⟨l'', q, heq, hq, -⟩
      have heq' : l' ++ [p] = l'' ++ [q] := by simpa using heq
      obtain ⟨-, hpq⟩ := List.append_inj' heq' rfl
      obtain rfl : p = q := by simpa using hpq
      refine ⟨by omega, hbase, ?_⟩
      simp [hq]

/-- The next neighbour is merged when it is found and a free block. -/
theorem next_valid_iff (hc : Core base h (l ++ b :: r) fl) :
    (h.getNextMem b.addr ≠ 0 ∧ h.getNextMem b.addr ≤ h.tailMem ∧
        h.isFree (h.getNextMem b.addr) ≠ 0) ↔
      h.getNextMem b.addr ≠ 0 ∧ ∃ n r', r = n :: r' ∧ n.free = true ∧
        h.getNextMem b.addr = n.addr := by
  refine and_congr_right fun h0 => ?_
  obtain ⟨n, r', rfl, hn, t, ht, hta⟩ := hc.exists_of_getNextMem h0
  have hnm : n ∈ l ++ b :: n :: r' := by simp
  have hle : n.addr ≤ h.tailMem := by
    rw [← hta]
    obtain ⟨m, -, -, htiles⟩ := tiles_append.mp hc.layout.tiles
    have := (htiles.bounds Block.addr_lt_next ht).1
    have := htiles.1
    omega
  rw [hn, hc.isFree_eq hnm]
  constructor
  · rintro ⟨-, hf⟩
    refine ⟨n, r', rfl, ?_, rfl⟩
    cases hnf : n.free with
    | true => rfl
    | false => simp [hnf] at hf
  · rintro ⟨n', r'', heq, hf, -⟩
    obtain ⟨rfl, -⟩ := List.cons.inj heq
    exact ⟨hle, by simp [hf]⟩

/-- No free block before one whose previous neighbour is not merged. -/
theorem not_free_before (hc : Core base h (l ++ b :: r) fl)
    (hn : ¬ ∃ l' p, l = l' ++ [p] ∧ p.free = true ∧ h.getPrevMem b.addr = p.addr) :
    ∀ p ∈ l.getLast?, p.free = false := by
  intro p hp
  obtain ⟨l', rfl⟩ := List.getLast?_eq_some_iff.mp hp
  have hc' : Core base h (l' ++ p :: b :: r) fl := by simpa using hc
  by_contra hf
  exact hn ⟨l', p, rfl, by simpa using hf, hc'.getPrevMem_eq⟩

/-- A free block after one whose next neighbour is not merged was not found. -/
theorem not_found_after (hc : Core base h (l ++ b :: r) fl)
    (hn : ¬ (h.getNextMem b.addr ≠ 0 ∧ ∃ n r', r = n :: r' ∧ n.free = true ∧
      h.getNextMem b.addr = n.addr)) :
    ∀ n ∈ r.head?, n.free = true → ¬ h.getNextMem b.addr ≠ 0 := by
  intro n hr hf hfound
  obtain ⟨n', r', rfl, hna, -⟩ := hc.exists_of_getNextMem hfound
  obtain rfl : n' = n := by simpa using hr
  exact hn ⟨hfound, n', r', rfl, hf, hna⟩

/-- Which of the four outcomes a call of `free` has. -/
inductive Outcome (h : Heap) (b : Block) : List Block → Heap → Prop
  | three (l r : List Block) {p n : Block} (hp : p.free = true) (hn : n.free = true)
      (hfound : h.getNextMem b.addr ≠ 0) :
      Outcome h b (l ++ [p, b, n] ++ r) (h.coalesceThreeBlocks b.addr p.addr n.addr)
  | before (l r : List Block) {p : Block} (hp : p.free = true)
      (hr : ∀ n ∈ r.head?, n.free = true → ¬ h.getNextMem b.addr ≠ 0) :
      Outcome h b (l ++ [p, b] ++ r)
        (h.coalesceTwoBlocksBefore b.addr p.addr (h.getNextMem b.addr))
  | after (l r : List Block) {n : Block} (hl : ∀ p ∈ l.getLast?, p.free = false)
      (hn : n.free = true) (hfound : h.getNextMem b.addr ≠ 0) :
      Outcome h b (l ++ [b, n] ++ r) (h.coalesceTwoBlocksAfter b.addr n.addr)
  | alone (l r : List Block) (hl : ∀ p ∈ l.getLast?, p.free = false)
      (hr : ∀ n ∈ r.head?, n.free = true → ¬ h.getNextMem b.addr ≠ 0) :
      Outcome h b (l ++ [b] ++ r) ((h.setIsFree b.addr 1).insertFree b.addr)

theorem free_outcome (hr : Rep base h bs fl) (hb : b ∈ bs) (hf : b.free = false) :
    Outcome h b bs (h.free b.data) := by
  obtain ⟨l, r, rfl⟩ := List.append_of_mem hb
  have hdata : b.data ≠ 0 := by
    unfold Block.data
    omega
  have hflag : h.isFree b.addr = 0 := by
    rw [hr.isFree_eq hb, hf]
    rfl
  have hprev := prev_valid_iff hr.toCore
  have hnext := next_valid_iff hr.toCore
  rw [Heap.free, if_neg hdata, wsub_data hr.toCore hb, if_neg (not_not_intro hflag)]
  by_cases h₁ : (∃ l' p, l = l' ++ [p] ∧ p.free = true ∧ h.getPrevMem b.addr = p.addr)
  · by_cases h₂ : h.getNextMem b.addr ≠ 0 ∧ ∃ n r', r = n :: r' ∧ n.free = true ∧
        h.getNextMem b.addr = n.addr
    · rw [if_pos ⟨hprev.mpr h₁, hnext.mpr h₂⟩]
      obtain ⟨l', p, rfl, hp, hpa⟩ := h₁
      obtain ⟨hfound, n, r', rfl, hn, hna⟩ := h₂
      rw [hpa, hna]
      simpa using Outcome.three l' r' hp hn hfound
    · rw [if_neg fun hboth => h₂ (hnext.mp hboth.2), if_pos (hprev.mpr h₁)]
      have hafter := not_found_after hr.toCore h₂
      obtain ⟨l', p, rfl, hp, hpa⟩ := h₁
      rw [hpa]
      simpa using Outcome.before l' r hp hafter
  · rw [if_neg fun hboth => h₁ (hprev.mp hboth.1), if_neg fun hp => h₁ (hprev.mp hp)]
    have hbefore := not_free_before hr.toCore h₁
    by_cases h₂ : h.getNextMem b.addr ≠ 0 ∧ ∃ n r', r = n :: r' ∧ n.free = true ∧
        h.getNextMem b.addr = n.addr
    · rw [if_pos (hnext.mpr h₂)]
      obtain ⟨hfound, n, r', rfl, hn, hna⟩ := h₂
      rw [hna]
      simpa using Outcome.after l r' hbefore hn hfound
    · rw [if_neg fun hn => h₂ (hnext.mp hn)]
      simpa using Outcome.alone l r hbefore (not_found_after hr.toCore h₂)

/-- **`free` of an allocated block** keeps the representation and the other allocated
blocks, and writes to headers and tags only. -/
theorem free (hr : Rep base h bs fl) (hb : b ∈ bs) (hf : b.free = false) :
    ∃ bs' fl', Rep base (h.free b.data) bs' fl' ∧ Freed (h.getNextMem b.addr ≠ 0) b bs bs' ∧
      MetaOnly bs h (h.free b.data) := by
  have hout := hr.free_outcome hb hf
  generalize h.free b.data = h' at hout ⊢
  cases hout with
  | three l r hp hn hfound =>
    obtain ⟨hrep, hmeta⟩ := hr.coalesceThreeBlocks hp hf hn
    exact ⟨_, _, hrep, .three l r hp hn hfound, hmeta⟩
  | before l r hp hafter =>
    obtain ⟨hrep, hmeta⟩ := hr.coalesceTwoBlocksBefore hp hf
    exact ⟨_, _, hrep, .before l r hp hafter, hmeta⟩
  | after l r hbefore hn hfound =>
    obtain ⟨hrep, hmeta⟩ := hr.coalesceTwoBlocksAfter hf hn
    exact ⟨_, _, hrep, .after l r hbefore hn hfound, hmeta⟩
  | alone l r hbefore hafter =>
    obtain ⟨hrep, hmeta⟩ := hr.freeBlock hf
    exact ⟨_, _, hrep, .alone l r hbefore hafter, hmeta⟩

end Rep

end SystemProgramming.Malloc
