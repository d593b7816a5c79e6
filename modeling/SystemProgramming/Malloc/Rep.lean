import SystemProgramming.Malloc.FreeList

/-!
# The representation of the heap

`Rep` relates a heap to its list of blocks and its free list. It is `Core`, which holds
also while a block is on its way into or out of the free list, and the agreement of the
free list with the free blocks. `tail_mem` is null or a block, not always the last one,
and the word below the heap reads zero, so that the first block has no neighbour below.

## Main definitions

* `MetaByte bs a`: the address `a` is in a header or a tag of a block
* `Core base h bs fl`, `Rep base h bs fl`: the heap `h` holds the blocks `bs` and the list `fl`

## Main results

* `Core.getPrevMem_eq`, `Core.getNextMem_eq`: the neighbours the code finds
* `Core.removeFree`, `Core.insertFree`, `Core.setIsFree`, `Core.merge`: the steps of `free`
-/

namespace SystemProgramming.Malloc

/-- The address `a` is in a header or a tag of a block. -/
def MetaByte (bs : List Block) (a : Nat) : Prop :=
  ∃ b ∈ bs, (b.addr ≤ a ∧ a < b.data) ∨ (b.tag ≤ a ∧ a < b.next)

/-- The heap `h` holds the blocks `bs`, and its links run through some of them. -/
structure Core (base : Nat) (h : Heap) (bs : List Block) (fl : List Nat) : Prop where
  layout : Layout h.mem base h.brk bs
  list : h.FreeList fl
  nodes : ∀ p ∈ fl, ∃ b ∈ bs, b.addr = p
  tail : h.tailMem = 0 ∨ ∃ b ∈ bs, b.addr = h.tailMem
  start : h.startMem = if bs = [] then 0 else base
  below : h.mem.load (base - 8) 8 = 0
  base_le : 40 ≤ base
  brk_lt : h.brk < 2 ^ 63

/-- The heap `h` holds the blocks `bs`, and its links run through exactly the free ones. -/
structure Rep (base : Nat) (h : Heap) (bs : List Block) (fl : List Nat) : Prop
    extends Core base h bs fl where
  perm : fl.Perm ((bs.filter Block.free).map Block.addr)

/-- Data bytes are in no header or tag. -/
theorem Layout.not_metaByte {m : Memory} {base brk a : Nat} {bs : List Block} {b : Block}
    (h : Layout m base brk bs) (hb : b ∈ bs) (h₁ : b.data ≤ a) (h₂ : a < b.tag) :
    ¬ MetaByte bs a := by
  rintro ⟨c, hc, hca⟩
  have hd := h.disjoint hb hc
  simp only [Block.data, Block.tag, Block.next] at *
  rcases hd with rfl | hd | hd
  all_goals omega

namespace Core

variable {base : Nat} {h h' : Heap} {b c p : Block} {bs bs' l r x : List Block} {fl : List Nat}

theorem addr_pos (hc : Core base h bs fl) (hb : b ∈ bs) : 0 < b.addr := by
  have h₁ := hc.base_le
  have h₂ := (hc.layout.bounds hb).1
  omega

theorem next_lt (hc : Core base h bs fl) (hb : b ∈ bs) : b.next < 2 ^ 64 := by
  have h₁ := hc.brk_lt
  have h₂ := (hc.layout.bounds hb).2
  omega

theorem size_eq (hc : Core base h bs fl) (hb : b ∈ bs) : h.size b.addr = b.size :=
  (hc.layout.inMemory b hb).size

theorem isFree_eq (hc : Core base h bs fl) (hb : b ∈ bs) : h.isFree b.addr = b.free.toNat :=
  (hc.layout.inMemory b hb).flag

theorem startMem_eq (hc : Core base h bs fl) (hb : b ∈ bs) : h.startMem = base := by
  rw [hc.start, if_neg (List.ne_nil_of_mem hb)]

theorem getNodeBtag_eq (hc : Core base h bs fl) (hb : b ∈ bs) : h.getNodeBtag b.addr = b.tag := by
  have hlt := hc.next_lt hb
  unfold Heap.getNodeBtag nodeSize
  rw [hc.size_eq hb, wadd_of_lt]
  all_goals
    unfold Block.tag Block.next at *
    omega

/-- The word below the heap is kept when no byte below the heap is written. -/
theorem below_congr (hc : Core base h bs fl) (hm : ∀ a, a < base → h'.mem a = h.mem a) :
    h'.mem.load (base - 8) 8 = 0 := by
  have hle := hc.base_le
  rw [← hc.below]
  exact Memory.load_congr fun a h₁ h₂ => hm a (by omega)

/-! ## Neighbours -/

/-- The block before the first one is not found. -/
theorem getPrevMem_first (hc : Core base h (b :: r) fl) : h.getPrevMem b.addr = 0 := by
  have hb : b ∈ b :: r := by simp
  have hlt := hc.next_lt hb
  have haddr : b.addr = base := hc.layout.tiles.1
  have hle := hc.base_le
  have hbelow := hc.below
  unfold Heap.getPrevMem Heap.btagAt btagSize nodeSize
  unfold Block.next at hlt
  have h₁ : wsub base 8 = base - 8 := wsub_of_le (by omega) (by omega)
  have h₂ : wsub (base - 8) 0 = base - 8 := wsub_of_le (by omega) (by omega)
  have h₃ : wsub (base - 8) 32 = base - 40 := wsub_of_le (by omega) (by omega)
  dsimp only
  rw [hc.startMem_eq hb, haddr, h₁, hbelow, h₂, h₃]
  exact if_pos (by omega)

/-- The block before another one is found through its tag. -/
theorem getPrevMem_eq (hc : Core base h (l ++ p :: b :: r) fl) : h.getPrevMem b.addr = p.addr := by
  have hp : p ∈ l ++ p :: b :: r := by simp
  have hb : b ∈ l ++ p :: b :: r := by simp
  have hlt := hc.next_lt hb
  have haddr : b.addr = p.next := by
    obtain ⟨m, -, hm⟩ := tiles_append.mp hc.layout.tiles
    exact hm.2.1
  have htag := (hc.layout.inMemory p hp).tag
  have hbase := (hc.layout.bounds hp).1
  unfold Heap.getPrevMem Heap.btagAt btagSize nodeSize
  have h₁ : wsub b.addr 8 = p.tag := by
    unfold Block.next Block.tag at *
    rw [wsub_of_le (by omega) (by omega)]
    omega
  have h₂ : wsub p.tag p.size = p.data := by
    unfold Block.next Block.tag Block.data at *
    rw [wsub_of_le (by omega) (by omega)]
    omega
  have h₃ : wsub p.data 32 = p.addr := by
    unfold Block.next Block.data at *
    rw [wsub_of_le (by omega) (by omega)]
    omega
  dsimp only
  rw [h₁, htag, h₂, h₃, hc.startMem_eq hb]
  exact if_neg (by omega)

/-- The candidate for the next block is where this one ends. -/
theorem getNextMem_eq (hc : Core base h bs fl) (hb : b ∈ bs) :
    h.getNextMem b.addr = if h.tailMem < b.next then 0 else b.next := by
  have hlt := hc.next_lt hb
  have hcand : wadd b.addr (metaBtagSize + h.size b.addr) = b.next := by
    unfold metaBtagSize nodeSize btagSize Block.next at *
    rw [hc.size_eq hb, wadd_of_lt (by omega)]
    omega
  rw [Heap.getNextMem, hcand]

/-- A next block that is found is the next block, and `tail_mem` is it or a later one. -/
theorem exists_of_getNextMem (hc : Core base h (l ++ b :: r) fl)
    (hn : h.getNextMem b.addr ≠ 0) :
    ∃ n r', r = n :: r' ∧ h.getNextMem b.addr = n.addr ∧ ∃ t ∈ n :: r', t.addr = h.tailMem := by
  have hb : b ∈ l ++ b :: r := by simp
  have heq := hc.getNextMem_eq hb
  have htail : b.next ≤ h.tailMem := by
    by_contra hlt
    rw [if_pos (by omega)] at heq
    exact hn heq
  rw [if_neg (by omega)] at heq
  have hpos := b.addr_lt_next
  obtain ⟨t, ht, hta⟩ : ∃ t ∈ l ++ b :: r, t.addr = h.tailMem := hc.tail.resolve_left (by omega)
  -- `tail_mem` is past `b`, so it is one of the blocks after `b`
  have htr : t ∈ r := by
    have hpw := hc.layout.tiles.pairwise Block.addr_lt_next
    rcases List.mem_append.mp ht with htl | htr
    · have := (List.pairwise_append.mp hpw).2.2 t htl b (by simp)
      have := t.addr_lt_next
      omega
    · rcases List.mem_cons.mp htr with rfl | htr
      · omega
      · exact htr
  obtain ⟨n, r', rfl⟩ : ∃ n r', r = n :: r' := by
    cases r with
    | nil => simp at htr
    | cons n r' => exact ⟨n, r', rfl⟩
  refine ⟨n, r', rfl, ?_, t, htr, hta⟩
  obtain ⟨m, -, hm⟩ := tiles_append.mp hc.layout.tiles
  rw [heq]
  exact hm.2.1.symm

/-! ## The steps of `free` -/

/-- Memory writes outside headers and tags, and to link words, keep the blocks. -/
theorem congr_links (hc : Core base h bs fl) (hbrk : h'.brk = h.brk)
    (htail : h'.tailMem = h.tailMem) (hstart : h'.startMem = h.startMem) {fl' nodes : List Nat}
    (hlist : h'.FreeList fl') (hfl' : ∀ p ∈ fl', ∃ b ∈ bs, b.addr = p)
    (hnodes : ∀ p ∈ nodes, ∃ b ∈ bs, b.addr = p)
    (hm : ∀ a, (∀ p ∈ nodes, ¬ (p + 16 ≤ a ∧ a < p + 32)) → h'.mem a = h.mem a) :
    Core base h' bs fl' where
  layout := hbrk ▸ hc.layout.congr_links hnodes hm
  list := hlist
  nodes := hfl'
  tail := htail ▸ hc.tail
  start := hstart ▸ hc.start
  below := hc.below_congr fun a ha => hm a fun p hp hpa => by
    obtain ⟨b, hb, rfl⟩ := hnodes p hp
    have := (hc.layout.bounds hb).1
    omega
  base_le := hc.base_le
  brk_lt := hbrk ▸ hc.brk_lt

theorem removeFree (hc : Core base h bs fl) {node : Nat} (hp : node ∈ fl) :
    Core base (h.removeFree node) bs (fl.erase node) :=
  hc.congr_links (Heap.removeFree_brk ..) (Heap.removeFree_tailMem ..)
    (Heap.removeFree_startMem ..) (hc.list.removeFree hp)
    (fun p hp => hc.nodes p (List.mem_of_mem_erase hp)) hc.nodes
    fun _ ha => hc.list.removeFree_mem hp ha

theorem removeFree_mem (hc : Core base h bs fl) {node a : Nat} (hp : node ∈ fl)
    (ha : ¬ MetaByte bs a) : (h.removeFree node).mem a = h.mem a := by
  refine hc.list.removeFree_mem hp fun p hp hpa => ha ?_
  obtain ⟨b, hb, rfl⟩ := hc.nodes p hp
  exact ⟨b, hb, Or.inl ⟨by omega, by unfold Block.data; omega⟩⟩

theorem insertFree_mem (hc : Core base h bs fl) {a : Nat} (hb : b ∈ bs) (ha : ¬ MetaByte bs a) :
    (h.insertFree b.addr).mem a = h.mem a := by
  have hout : ∀ c ∈ bs, ¬ (c.addr + 16 ≤ a ∧ a < c.addr + 32) := fun c hcb hca =>
    ha ⟨c, hcb, Or.inl ⟨by omega, by unfold Block.data; omega⟩⟩
  refine Heap.insertFree_mem (hout b hb) ?_
  rw [hc.list.linked.head]
  cases fl with
  | nil => exact Or.inl rfl
  | cons q fl =>
    obtain ⟨c, hcb, rfl⟩ := hc.nodes q (by simp)
    exact Or.inr (hout c hcb)

theorem insertFree (hc : Core base h bs fl) (hb : b ∈ bs) (hnew : b.addr ∉ fl) :
    Core base (h.insertFree b.addr) bs (b.addr :: fl) := by
  have hnext := hc.next_lt hb
  have hnodes : ∀ p ∈ b.addr :: fl, ∃ b ∈ bs, b.addr = p := by
    intro p hp
    rcases List.mem_cons.mp hp with rfl | hp
    · exact ⟨b, hb, rfl⟩
    · exact hc.nodes p hp
  refine hc.congr_links (Heap.insertFree_brk ..) (Heap.insertFree_tailMem ..)
    (Heap.insertFree_startMem ..) (hc.list.insertFree ?_ (hc.addr_pos hb) ?_) hnodes hnodes ?_
  · intro p hp
    obtain ⟨c, hcb, rfl⟩ := hc.nodes p hp
    exact hc.layout.apart hb hcb fun heq => hnew (heq ▸ hp)
  · unfold Block.next at hnext
    omega
  · intro a ha
    refine Heap.insertFree_mem (ha _ (by simp)) ?_
    rw [hc.list.linked.head]
    cases fl with
    | nil => exact Or.inl rfl
    | cons q fl => exact Or.inr (ha q (by simp))

/-- A change of `tail_mem` to another block. -/
theorem setTail (hc : Core base h bs fl) {t : Nat} (ht : ∃ b ∈ bs, b.addr = t) :
    Core base { h with tailMem := t } bs fl :=
  ⟨hc.layout, ⟨hc.list.linked, hc.list.apart, hc.list.pos, hc.list.lt⟩, hc.nodes, Or.inr ht,
    hc.start, hc.below, hc.base_le, hc.brk_lt⟩

/-- Writes inside the blocks `x` that miss all links exchange these blocks for others. -/
theorem replace {y : List Block} (hc : Core base h (l ++ x ++ r) fl) (hx : x ≠ []) (hy : y ≠ [])
    (hxy : ∀ i j, Tiles Block.addr Block.next i x j → Tiles Block.addr Block.next i y j)
    (hhead : h'.headFree = h.headFree) (hstart : h'.startMem = h.startMem)
    (hbrk : h'.brk = h.brk)
    (hm : ∀ a, (∀ b ∈ x, ¬ (b.addr ≤ a ∧ a < b.next)) → h'.mem a = h.mem a)
    (hlinks : ∀ p ∈ fl, ∀ a, p + 16 ≤ a → a < p + 32 → h'.mem a = h.mem a)
    (hmem : ∀ b ∈ y, b.InMemory h'.mem)
    (hnodes : ∀ p ∈ fl, ∃ b ∈ l ++ y ++ r, b.addr = p)
    (htail : h'.tailMem = 0 ∨ ∃ b ∈ l ++ y ++ r, b.addr = h'.tailMem) :
    Core base h' (l ++ y ++ r) fl where
  layout := hbrk ▸ hc.layout.replace hxy hm hmem
  list := hc.list.congr hhead hlinks
  nodes := hnodes
  tail := htail
  start := by
    rw [hstart, hc.start, if_neg (by simp [hx]), if_neg (by simp [hy])]
  below := hc.below_congr fun a ha => hm a fun b hb hba => by
    have := (hc.layout.bounds (b := b) (by simp [hb])).1
    omega
  base_le := hc.base_le
  brk_lt := hbrk ▸ hc.brk_lt

/-- Link words are in no size field, flag or tag of a block. -/
theorem link_ne (hc : Core base h bs fl) (hb : b ∈ bs) {p a : Nat} (hp : p ∈ fl)
    (h₁ : p + 16 ≤ a) (h₂ : a < p + 32) :
    ¬ (b.addr ≤ a ∧ a < b.addr + 16) ∧ ¬ (b.tag ≤ a ∧ a < b.next) := by
  obtain ⟨c, hcb, rfl⟩ := hc.nodes p hp
  have hd := hc.layout.disjoint hb hcb
  unfold Block.tag Block.next at *
  rcases hd with rfl | hd | hd
  all_goals omega

/-- The flag of a block is rewritten. -/
theorem setIsFree (hc : Core base h (l ++ [b] ++ r) fl) (v : Bool) :
    Core base (h.setIsFree b.addr v.toNat) (l ++ [{ b with free := v }] ++ r) fl := by
  have hb : b ∈ l ++ [b] ++ r := by simp
  have hout : ∀ a, ¬ (b.addr ≤ a ∧ a < b.addr + 16) →
      (h.setIsFree b.addr v.toNat).mem a = h.mem a := fun a ha =>
    Memory.store_of_not_mem (by omega)
  refine hc.replace (by simp) (by simp) ?_ rfl rfl rfl ?_ ?_ ?_ ?_ ?_
  · rintro i j ⟨hi, hj⟩
    exact ⟨hi, hj⟩
  · intro a ha
    have := ha b (by simp)
    refine hout a fun hba => this ⟨hba.1, ?_⟩
    unfold Block.next
    omega
  · intro p hp a h₁ h₂
    exact hout a (hc.link_ne hb hp h₁ h₂).1
  · intro c hcb
    obtain rfl : c = { b with free := v } := by simpa using hcb
    have hin := hc.layout.inMemory b hb
    refine ⟨?_, ?_, ?_⟩
    · rw [← hin.size]
      exact Memory.load_store_of_disjoint (by simp)
    · have hv : v.toNat < 256 ^ 1 := by cases v <;> simp
      exact Memory.load_store_of_lt _ _ hv
    · have htag : ({ b with free := v } : Block).tag = b.tag := rfl
      rw [htag]
      refine Eq.trans (Memory.load_store_of_disjoint ?_) hin.tag
      unfold Block.tag
      omega
  · intro p hp
    obtain ⟨c, hcb, rfl⟩ := hc.nodes p hp
    simp only [List.mem_append, List.mem_singleton] at hcb ⊢
    rcases hcb with (hcb | rfl) | hcb
    · exact ⟨c, Or.inl (Or.inl hcb), rfl⟩
    · exact ⟨_, Or.inl (Or.inr rfl), rfl⟩
    · exact ⟨c, Or.inr hcb, rfl⟩
  · refine hc.tail.imp_right fun ⟨c, hcb, ht⟩ => ?_
    simp only [List.mem_append, List.mem_singleton] at hcb ⊢
    rcases hcb with (hcb | rfl) | hcb
    · exact ⟨c, Or.inl (Or.inl hcb), ht⟩
    · exact ⟨_, Or.inl (Or.inr rfl), ht⟩
    · exact ⟨c, Or.inr hcb, ht⟩

/-- `update_node_size` makes one block `q` of the block `p` and the blocks `x` after it. -/
theorem merge {q : Block} {n : Nat} (hc : Core base h (l ++ (p :: x) ++ r) fl)
    (haddr : q.addr = p.addr) (hfree : q.free = p.free) (hsize : q.size = p.size + n)
    (htag : ∃ c ∈ p :: x, c.tag = q.tag)
    (hxy : ∀ i j, Tiles Block.addr Block.next i (p :: x) j → Tiles Block.addr Block.next i [q] j)
    (hnodes : ∀ a ∈ fl, ∃ b ∈ l ++ [q] ++ r, b.addr = a)
    (htail : h.tailMem = 0 ∨ ∃ b ∈ l ++ [q] ++ r, b.addr = h.tailMem) :
    Core base (h.updateNodeSize p.addr q.tag n) (l ++ [q] ++ r) fl := by
  have hp : p ∈ l ++ (p :: x) ++ r := by simp
  obtain ⟨c, hcx, hct⟩ := htag
  have hc' : c ∈ l ++ (p :: x) ++ r := by
    rcases List.mem_cons.mp hcx with rfl | hcx
    · exact hp
    · simp [hcx]
  have hq : q.size < 2 ^ 64 := by
    have := hc.next_lt hc'
    simp only [Block.next, Block.tag] at this hct
    omega
  have hval : wadd (h.size p.addr) n = q.size := by
    rw [hc.size_eq hp, wadd_of_lt (by omega), hsize]
  -- the two words written are the size of `p` and the tag of the last block
  have hout : ∀ a, ¬ (p.addr ≤ a ∧ a < p.addr + 8) → ¬ (c.tag ≤ a ∧ a < c.next) →
      (h.updateNodeSize p.addr q.tag n).mem a = h.mem a := by
    intro a h₁ h₂
    have h₂' : ¬ (q.tag ≤ a ∧ a < q.tag + 8) := by
      rw [← hct]
      unfold Block.tag Block.next at *
      omega
    simp only [Heap.updateNodeSize, Heap.setBtag, Heap.setSize, Heap.withMem_mem]
    rw [Memory.store_of_not_mem h₂', Memory.store_of_not_mem h₁]
  refine hc.replace (by simp) (by simp) hxy rfl rfl rfl ?_ ?_ ?_ hnodes htail
  · intro a ha
    have h₁ := ha p (by simp)
    have h₂ := ha c hcx
    refine hout a (fun hpa => h₁ ⟨hpa.1, ?_⟩) fun hca => h₂ ⟨?_, hca.2⟩
    all_goals
      unfold Block.next Block.tag at *
      omega
  · intro a' ha' a h₁ h₂
    have hne := hc.link_ne hp ha' h₁ h₂
    exact hout a (by omega) (hc.link_ne hc' ha' h₁ h₂).2
  · intro d hd
    obtain rfl : d = q := by simpa using hd
    have hin := hc.layout.inMemory p hp
    have hdt : d.addr + 32 ≤ d.tag := by
      unfold Block.tag
      omega
    have hself : (h.setSize p.addr (wadd (h.size p.addr) n)).size p.addr = d.size := by
      rw [hval]
      exact Memory.load_store_of_lt _ _ hq
    simp only [Heap.updateNodeSize, hself]
    refine ⟨?_, ?_, ?_⟩
    · refine (Memory.load_store_of_disjoint (by omega)).trans ?_
      rw [haddr]
      exact hself
    · rw [hfree, ← hin.flag, haddr]
      refine (Memory.load_store_of_disjoint (by omega)).trans ?_
      exact Memory.load_store_of_disjoint (by omega)
    · exact Memory.load_store_of_lt _ _ hq

end Core

end SystemProgramming.Malloc
