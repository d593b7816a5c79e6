import SystemProgramming.Malloc.Free

/-!
# Handing out a block

`malloc` takes the first free block that is large enough, cuts it when the rest is worth
keeping, and otherwise asks the kernel for a block at the break. On the list of blocks these
are a change of flag, an exchange of one block for two, and a new last block.

## Main definitions

* `Kept h h' b`: the data of the block `b` is the same in both heaps
* `Served base h bs size ptr h'`: what a client may rely on after a request for `size` bytes
* `Serving size bs bs'`: serving a request makes the blocks `bs'` of the blocks `bs`

## Main results

* `Rep.allocFree_whole`, `Rep.allocFree_split`, `Rep.allocNew`: the three outcomes
* `Rep.malloc`, `Rep.calloc`, `Rep.realloc_grow`: requests are served or refused as a whole
-/

namespace SystemProgramming.Malloc

variable {base : Nat} {h h' : Heap} {b c : Block} {bs l r : List Block} {fl : List Nat}
  {size : Nat}

/-- The data of the block `b` is the same in both heaps. -/
def Kept (h h' : Heap) (b : Block) : Prop := ∀ a, b.data ≤ a → a < b.tag → h'.mem a = h.mem a

theorem MetaOnly.kept (hm : MetaOnly bs h h') (hc : Core base h bs fl) (hb : b ∈ bs) :
    Kept h h' b := fun a h₁ h₂ => hm a (hc.layout.not_metaByte hb h₁ h₂)

theorem Kept.trans {h'' : Heap} (h₁ : Kept h h' b) (h₂ : Kept h' h'' b) : Kept h h'' b :=
  fun a ha hb => (h₂ a ha hb).trans (h₁ a ha hb)

/-- A request for `size` bytes was served: the pointer `ptr` is the data of an allocated
block that is large enough, and the blocks that were allocated before are kept. -/
def Served (base : Nat) (h : Heap) (bs : List Block) (size ptr : Nat) (h' : Heap) : Prop :=
  ∃ b bs' fl', Rep base h' bs' fl' ∧ b ∈ bs' ∧ b.free = false ∧ b.data = ptr ∧ size ≤ b.size ∧
    ∀ c ∈ bs, c.free = false → c ∈ bs' ∧ c ≠ b ∧ Kept h h' c

/-- What serving a request for `size` bytes makes of the list of blocks: a new last block, or
a free block that is handed out whole or cut in two. -/
inductive Serving (size : Nat) : List Block → List Block → Prop
  | extend (bs : List Block) (x : Nat) : Serving size bs (bs ++ [⟨x, size, false⟩])
  | whole (l r : List Block) {b : Block} (hb : b.free = true) :
      Serving size (l ++ [b] ++ r) (l ++ [{ b with free := false }] ++ r)
  | split (l r : List Block) {b : Block} (x n : Nat) (hb : b.free = true) :
      Serving size (l ++ [b] ++ r) (l ++ [⟨b.addr, size, false⟩] ++ (⟨x, n, true⟩ :: r))

/-- Writing size, flag and tag makes a block. -/
theorem inMemory_store (m : Memory) {x n : Nat} (free : Bool) (hn : n < 2 ^ 64) :
    (⟨x, n, free⟩ : Block).InMemory
      (((m.store x 8 n).store (x + 8) 1 free.toNat).store (x + 32 + n) 8 n) where
  size := by
    dsimp only
    rw [Memory.load_store_of_disjoint (by omega), Memory.load_store_of_disjoint (by omega)]
    exact Memory.load_store_of_lt _ _ hn
  flag := by
    have hf : free.toNat < 256 ^ 1 := by cases free <;> simp
    dsimp only
    rw [Memory.load_store_of_disjoint (by omega)]
    exact Memory.load_store_of_lt _ _ hf
  tag := Memory.load_store_of_lt _ _ hn

/-- The writes of `inMemory_store` stay inside the block. -/
theorem store_block_of_not_mem {m : Memory} {x n v a : Nat} (ha : ¬ (x ≤ a ∧ a < x + 40 + n)) :
    (((m.store x 8 n).store (x + 8) 1 v).store (x + 32 + n) 8 n) a = m a := by
  rw [Memory.store_of_not_mem (by omega), Memory.store_of_not_mem (by omega),
    Memory.store_of_not_mem (by omega)]

/-! ## A block from the kernel -/

/-- What `alloc_new` leaves behind when the kernel grants the request. -/
theorem Heap.allocNew_eq {grant : Bool} (hlt : h.brk + (40 + size) < 2 ^ 63)
    (hg : grant = true) (hsz : 40 + size < 2 ^ 63) :
    h.allocNew grant size = (h.brk + 32,
      { mem := ((((h.mem.store (h.brk + 24) 8 0).store (h.brk + 16) 8 0).store h.brk 8 size).store
          (h.brk + 8) 1 0).store (h.brk + 32 + size) 8 size
        headFree := h.headFree
        tailMem := if h.tailMem = 0 then h.brk else h.tailMem
        startMem := if h.startMem = 0 then h.brk else h.startMem
        brk := h.brk + (40 + size) }) := by
  have hwadd : wadd metaBtagSize size = 40 + size := wadd_of_lt (p := 40) (by omega)
  have hself : ∀ m : Memory, ((m.store h.brk 8 size).store (h.brk + 8) 1 0).load h.brk 8 = size := by
    intro m
    rw [Memory.load_store_of_disjoint (by omega)]
    exact Memory.load_store_of_lt _ _ (by omega)
  have hbtag : wadd h.brk (nodeSize + size) = h.brk + 32 + size := by
    rw [show nodeSize = 32 from rfl, wadd_of_lt (by omega)]
    omega
  have hdata : wadd h.brk nodeSize = h.brk + 32 := wadd_of_lt (by unfold nodeSize; omega)
  have hsbrk : h.sbrk grant (wadd metaBtagSize size) =
      some (h.brk, { h with brk := h.brk + (40 + size) }) := by
    rw [Heap.sbrk, hwadd, if_pos ⟨hg, hsz, hlt⟩]
  rw [Heap.allocNew, hsbrk]
  by_cases hs : h.startMem = 0 <;> by_cases ht : h.tailMem = 0
  all_goals
    simp only [hs, ht, if_true, if_false, Heap.setNextFree, Heap.setPrevFree, Heap.setSize,
      Heap.setIsFree, Heap.setBtag, Heap.withMem, Heap.size, hself, hbtag, hdata]

theorem Heap.allocNew_refused {grant : Bool}
    (hn : ¬ (grant = true ∧ 40 + size < 2 ^ 63 ∧ h.brk + (40 + size) < 2 ^ 63))
    (hspan : h.startMem ≠ 0 → h.brk + 40 < h.startMem + 2 ^ 63) (hsz : size < 2 ^ 63) :
    h.allocNew grant size = (0, h) := by
  have hwadd : wadd metaBtagSize size = 40 + size := wadd_of_lt (p := 40) (by omega)
  rw [Heap.allocNew, Heap.sbrk, hwadd, if_neg hn, if_neg]
  -- the break is not far enough above the start to be moved down
  rintro ⟨-, -, hstart, hle⟩
  have := hspan hstart
  omega

/-- A new last block, written above the old break. -/
theorem Core.extend (hc : Core base h bs fl) (hb : b.addr = h.brk) (hbrk : h'.brk = b.next)
    (hlt : b.next < 2 ^ 63) (hmem : b.InMemory h'.mem) (hm : ∀ a, a < h.brk → h'.mem a = h.mem a)
    (hhead : h'.headFree = h.headFree)
    (htail : h'.tailMem = if h.tailMem = 0 then h.brk else h.tailMem)
    (hstart : h'.startMem = if h.startMem = 0 then h.brk else h.startMem) :
    Core base h' (bs ++ [b]) fl := by
  have hle : base ≤ h.brk := hc.layout.tiles.le Block.addr_lt_next
  refine ⟨⟨?tiles, ?inMemory⟩, ?list, ?nodes, ?tail, ?start, ?below, hc.base_le, hbrk ▸ hlt⟩
  case tiles =>
    exact tiles_append.mpr ⟨h.brk, hc.layout.tiles, hb, hbrk.symm⟩
  case inMemory =>
    intro c hcm
    rcases List.mem_append.mp hcm with hcm | hcm
    · have hbound := (hc.layout.bounds hcm).2
      refine (hc.layout.inMemory c hcm).congr (fun a _ h₂ => hm a ?_) fun a _ h₂ => hm a ?_
      all_goals
        unfold Block.next at *
        omega
    · obtain rfl : c = b := by simpa using hcm
      exact hmem
  case list =>
    refine hc.list.congr hhead fun p hp a _ h₂ => hm a ?_
    obtain ⟨c, hcm, rfl⟩ := hc.nodes p hp
    have hbound := (hc.layout.bounds hcm).2
    unfold Block.next at hbound
    omega
  case nodes =>
    intro p hp
    obtain ⟨c, hcm, rfl⟩ := hc.nodes p hp
    exact ⟨c, by simp [hcm], rfl⟩
  case tail =>
    rw [htail]
    by_cases ht : h.tailMem = 0
    · rw [if_pos ht]
      exact Or.inr ⟨b, by simp, hb⟩
    · rw [if_neg ht]
      obtain ⟨c, hcm, hct⟩ := hc.tail.resolve_left ht
      exact Or.inr ⟨c, by simp [hcm], hct⟩
  case start =>
    rw [hstart, hc.start, if_neg (c := bs ++ [b] = []) (by simp)]
    have hpos := hc.base_le
    cases bs with
    | nil => exact (hc.layout.tiles : base = h.brk).symm
    | cons d bs =>
      rw [if_neg (c := d :: bs = []) (by simp), if_neg (by omega)]
  case below =>
    have hbase := hc.base_le
    exact hc.below_congr fun a ha => hm a (by omega)

/-- The request is not one that the kernel grants. -/
theorem Rep.allocNew_refused (hr : Rep base h bs fl) {grant : Bool} (hsz : size < 2 ^ 63)
    (hn : ¬ (grant = true ∧ 40 + size < 2 ^ 63 ∧ h.brk + (40 + size) < 2 ^ 63)) :
    h.allocNew grant size = (0, h) := by
  refine Heap.allocNew_refused hn (fun hstart => ?_) hsz
  have hlt := hr.brk_lt
  have hle := hr.base_le
  have hbase := hr.start
  split_ifs at hbase
  all_goals omega

/-- A granted request adds a last block, and writes nothing below it. -/
theorem Rep.allocNew_granted (hr : Rep base h bs fl) {grant : Bool}
    (hg : grant = true ∧ 40 + size < 2 ^ 63 ∧ h.brk + (40 + size) < 2 ^ 63) :
    Rep base (h.allocNew grant size).2 (bs ++ [⟨h.brk, size, false⟩]) fl ∧
      ∀ a, a < h.brk → (h.allocNew grant size).2.mem a = h.mem a := by
  have hout : ∀ a, a < h.brk →
      (((((h.mem.store (h.brk + 24) 8 0).store (h.brk + 16) 8 0).store h.brk 8 size).store
        (h.brk + 8) 1 0).store (h.brk + 32 + size) 8 size) a = h.mem a := by
    intro a ha
    rw [store_block_of_not_mem (by omega), Memory.store_of_not_mem (by omega),
      Memory.store_of_not_mem (by omega)]
  have hnext : (⟨h.brk, size, false⟩ : Block).next = h.brk + (40 + size) := by
    simp only [Block.next]
    omega
  rw [Heap.allocNew_eq hg.2.2 hg.1 hg.2.1]
  refine ⟨⟨hr.toCore.extend rfl hnext.symm (hnext ▸ hg.2.2) (inMemory_store _ false (by omega))
    hout rfl rfl rfl, ?_⟩, hout⟩
  simpa [List.filter_append] using hr.perm

/-- **`alloc_new`** serves the request with a new last block, or leaves the heap as it was. -/
theorem Rep.allocNew (hr : Rep base h bs fl) (grant : Bool) (hsz : size < 2 ^ 63) :
    ∃ ptr h', h.allocNew grant size = (ptr, h') ∧
      ((ptr = 0 ∧ h' = h) ∨ (0 < ptr ∧ Served base h bs size ptr h' ∧
        ∃ bs' fl', Rep base h' bs' fl' ∧ Serving size bs bs')) := by
  by_cases hg : grant = true ∧ 40 + size < 2 ^ 63 ∧ h.brk + (40 + size) < 2 ^ 63
  · obtain ⟨hr', hmem⟩ := hr.allocNew_granted hg
    have hptr : (h.allocNew grant size).1 = h.brk + 32 := by
      rw [Heap.allocNew_eq hg.2.2 hg.1 hg.2.1]
    refine ⟨h.brk + 32, _, Prod.ext hptr rfl, Or.inr ⟨by omega,
      ⟨⟨h.brk, size, false⟩, _, _, hr', by simp, rfl, rfl, le_refl _, ?_⟩, _, _, hr',
      .extend bs h.brk⟩⟩
    intro c hc _
    have hbound := (hr.layout.bounds hc).2
    refine ⟨by simp [hc], ?_, fun a _ h₂ => hmem a ?_⟩
    · rintro rfl
      simp only [Block.next] at hbound
      omega
    · unfold Block.next Block.tag at *
      omega
  · exact ⟨0, h, hr.allocNew_refused hsz hg, Or.inl ⟨rfl, rfl⟩⟩

/-! ## A block from the free list -/

/-- The heap once both blocks are written, before the second one goes on the free list. -/
def Heap.cut (h : Heap) (node size rest : Nat) : Heap :=
  { h with
    mem := (((((h.mem.store (node + 40 + size) 8 rest).store (node + 40 + size + 8) 1 1).store
      (node + 40 + size + 32 + rest) 8 rest).store node 8 size).store (node + 8) 1 0).store
        (node + 32 + size) 8 size
    tailMem := if h.tailMem < node + 40 + size then node + 40 + size else h.tailMem }

/-- What `alloc_free_split` leaves behind: the two blocks are written, then the second one
goes on the free list. -/
theorem Heap.allocFreeSplit_eq {node : Nat} (hle : size + 40 ≤ h.size node)
    (hlt : node + 40 + h.size node < 2 ^ 64) :
    h.allocFreeSplit size node =
      (h.cut node size (h.size node - (40 + size))).insertFree (node + 40 + size) := by
  have hextra : wadd node (metaBtagSize + size) = node + 40 + size := by
    rw [show metaBtagSize = 40 from rfl, wadd_of_lt (by omega)]
    omega
  have hrest : wsub (wsub (h.size node) metaBtagSize) size = h.size node - (40 + size) := by
    rw [show metaBtagSize = 40 from rfl, wsub_of_le (p := h.size node) (by omega) (by omega),
      wsub_of_le (by omega) (by omega)]
    omega
  obtain ⟨e, he⟩ : ∃ e, e = h.size node - (40 + size) := ⟨_, rfl⟩
  have hself : ∀ m : Memory, ∀ x n v : Nat, n < 2 ^ 64 →
      ((m.store x 8 n).store (x + 8) 1 v).load x 8 = n := by
    intro m x n v hn
    rw [Memory.load_store_of_disjoint (by omega)]
    exact Memory.load_store_of_lt _ _ hn
  have htag₁ : wadd (node + 40 + size) (nodeSize + e) = node + 40 + size + 32 + e := by
    rw [show nodeSize = 32 from rfl, wadd_of_lt (by omega)]
    omega
  have htag₂ : wadd node (nodeSize + size) = node + 32 + size := by
    rw [show nodeSize = 32 from rfl, wadd_of_lt (by omega)]
    omega
  rw [Heap.allocFreeSplit, Heap.cut, hextra, hrest, ← he]
  by_cases ht : h.tailMem < node + 40 + size
  all_goals
    simp only [ht, if_true, if_false, Heap.setSize, Heap.setIsFree, Heap.setBtag,
      Heap.withMem, Heap.size, hself _ (node + 40 + size) e 1 (by omega), htag₁,
      hself _ node size 0 (by omega), htag₂]

/-- Cutting a block writes nothing outside of it. -/
theorem Heap.cut_mem {rest : Nat} (hsz : 40 + size + rest = b.size) {a : Nat}
    (ha : ¬ (b.addr ≤ a ∧ a < b.next)) : (h.cut b.addr size rest).mem a = h.mem a := by
  simp only [Block.next] at ha
  rw [Heap.cut]
  dsimp only
  rw [Memory.store_of_not_mem (by omega), Memory.store_of_not_mem (by omega),
    Memory.store_of_not_mem (by omega), Memory.store_of_not_mem (by omega),
    Memory.store_of_not_mem (by omega), Memory.store_of_not_mem (by omega)]

/-- Both parts of the block are written with their sizes and tags. -/
theorem Heap.cut_inMemory {x rest : Nat} (hlt : x + 80 + size + rest < 2 ^ 64) :
    (⟨x, size, false⟩ : Block).InMemory (h.cut x size rest).mem ∧
      (⟨x + 40 + size, rest, true⟩ : Block).InMemory (h.cut x size rest).mem := by
  have hfst := inMemory_store (((h.mem.store (x + 40 + size) 8 rest).store (x + 40 + size + 8) 1
    1).store (x + 40 + size + 32 + rest) 8 rest) (x := x) (n := size) false (by omega)
  have hsnd := inMemory_store h.mem (x := x + 40 + size) (n := rest) true (by omega)
  refine ⟨hfst, hsnd.congr (fun a g₁ g₂ => store_block_of_not_mem ?_)
    fun a g₁ g₂ => store_block_of_not_mem ?_⟩
  all_goals
    simp only [Block.tag, Block.next] at *
    omega

namespace Rep

/-- The free nodes after a free block was taken out. -/
theorem perm_take (hr : Rep base h (l ++ [b] ++ r) fl) (hb : b.free = true) :
    (fl.erase b.addr).Perm
      ((l.filter Block.free).map Block.addr ++ (r.filter Block.free).map Block.addr) := by
  refine perm_erase (hr.perm.trans ?_)
  simp [List.filter_append, hb]

/-- An allocated block next to a free one in the list is in the rest of the list. -/
theorem mem_rest (hc : c ∈ l ++ [b] ++ r) (hcf : c.free = false) (hb : b.free = true) :
    c ∈ l ∨ c ∈ r := by
  simp only [List.mem_append, List.mem_singleton] at hc
  rcases hc with (hc | rfl) | hc
  · exact Or.inl hc
  · simp [hb] at hcf
  · exact Or.inr hc

/-- A free block that is not cut is marked as taken. -/
theorem rep_whole (hr : Rep base h (l ++ [b] ++ r) fl) (hb : b.free = true) :
    Rep base ((h.removeFree b.addr).setIsFree b.addr 0) (l ++ [{ b with free := false }] ++ r)
      (fl.erase b.addr) := by
  have hmem := hr.mem_list (by simp) hb
  refine ⟨(hr.toCore.removeFree hmem).setIsFree false, (hr.perm_take hb).trans (List.Perm.of_eq ?_)⟩
  simp [List.filter_append]

/-- A free block that is not cut is handed out as it is. -/
theorem allocFree_whole (hr : Rep base h (l ++ [b] ++ r) fl) (hb : b.free = true)
    (hsz : size ≤ b.size) :
    Served base h (l ++ [b] ++ r) size b.data ((h.removeFree b.addr).setIsFree b.addr 0) ∧
      ∃ bs' fl', Rep base ((h.removeFree b.addr).setIsFree b.addr 0) bs' fl' ∧
        Serving size (l ++ [b] ++ r) bs' := by
  have hbm : b ∈ l ++ [b] ++ r := by simp
  have hmem := hr.mem_list hbm hb
  have hmeta : MetaOnly (l ++ [b] ++ r) h ((h.removeFree b.addr).setIsFree b.addr 0) :=
    MetaOnly.trans (fun _ => hr.removeFree_mem hmem) (setIsFree_metaOnly hbm)
  have hr' := hr.rep_whole hb
  refine ⟨⟨{ b with free := false }, _, _, hr', mem_mid, rfl, rfl, hsz, ?_⟩, _, _, hr', .whole l r hb⟩
  intro c hcm hcf
  refine ⟨?_, ?_, hmeta.kept hr.toCore hcm⟩
  · rcases mem_rest hcm hcf hb with hc | hc <;> simp [hc]
  · intro heq
    have haddr : c.addr = b.addr := by rw [heq]
    obtain rfl := hr.layout.eq_of_addr_eq hcm hbm haddr
    simp [hb] at hcf

/-- The two parts of a free block, once it is cut and before its rest is listed. -/
def parts (b : Block) (size rest : Nat) : List Block :=
  [⟨b.addr, size, false⟩, ⟨b.addr + 40 + size, rest, true⟩]

/-- Cutting a free block replaces it by its parts. -/
theorem core_cut (hr : Rep base h (l ++ [b] ++ r) fl) (hb : b.free = true) {rest : Nat}
    (hsz : 40 + size + rest = b.size) :
    Core base ((h.removeFree b.addr).cut b.addr size rest) (l ++ parts b size rest ++ r)
      (fl.erase b.addr) := by
  have hbm : b ∈ l ++ [b] ++ r := by simp
  have hc := hr.toCore.removeFree (hr.mem_list hbm hb)
  have hlt := hc.next_lt hbm
  simp only [Block.next] at hlt
  refine hc.replace (by simp) (by simp [parts]) ?_ rfl rfl rfl ?_ ?_ ?_ ?_ ?_
  · rintro i j ⟨g₁, g₂⟩
    have hij : b.addr + 40 + b.size = j := g₂
    refine ⟨g₁, rfl, ?_⟩
    simp only [tiles_nil, Block.next]
    omega
  · intro a ha
    exact Heap.cut_mem hsz (ha b (by simp))
  · -- links of other free blocks are outside, and the block itself is off the list
    intro p hp a g₁ g₂
    obtain ⟨c, hcm, -, rfl, hcb⟩ := hr.of_mem_erase hp
    refine Heap.cut_mem hsz fun hba => ?_
    rcases hr.layout.disjoint hcm hbm with rfl | hd | hd
    · exact hcb rfl
    all_goals
      simp only [Block.next] at *
      omega
  · intro c hcm
    have hlt : b.addr + 80 + size + rest < 2 ^ 64 := by omega
    obtain ⟨hfst, hsnd⟩ := Heap.cut_inMemory (h := h.removeFree b.addr) hlt
    simp only [parts, List.mem_cons, List.not_mem_nil, or_false] at hcm
    rcases hcm with rfl | rfl
    · exact hfst
    · exact hsnd
  · intro p hp
    obtain ⟨c, hcm, hcf, rfl, hcb⟩ := hr.of_mem_erase hp
    simp only [List.mem_append, List.mem_singleton] at hcm
    rcases hcm with (hcm | rfl) | hcm
    · exact ⟨c, by simp [hcm], rfl⟩
    · exact absurd rfl hcb
    · exact ⟨c, by simp [hcm], rfl⟩
  · -- the last block is the rest, or the one it was
    rw [Heap.cut]
    dsimp only
    by_cases ht : (h.removeFree b.addr).tailMem < b.addr + 40 + size
    · rw [if_pos ht]
      exact Or.inr ⟨⟨b.addr + 40 + size, rest, true⟩, by simp [parts], rfl⟩
    · rw [if_neg ht]
      refine hc.tail.imp_right ?_
      rintro ⟨c, hcm, hct⟩
      simp only [List.mem_append, List.mem_singleton] at hcm
      rcases hcm with (hcm | rfl) | hcm
      · exact ⟨c, by simp [hcm], hct⟩
      · exact ⟨⟨c.addr, size, false⟩, by simp [parts], hct⟩
      · exact ⟨c, by simp [hcm], hct⟩

/-- The rest of the block goes on the free list. -/
theorem rep_split (hr : Rep base h (l ++ [b] ++ r) fl) (hb : b.free = true) {rest : Nat}
    (hsz : 40 + size + rest = b.size) :
    Rep base ((((h.removeFree b.addr).cut b.addr size rest).insertFree (b.addr + 40 + size)).setIsFree
        b.addr 0) (l ++ [⟨b.addr, size, false⟩] ++ (⟨b.addr + 40 + size, rest, true⟩ :: r))
      ((b.addr + 40 + size) :: fl.erase b.addr) := by
  have hbm : b ∈ l ++ [b] ++ r := by simp
  have hnew : b.addr + 40 + size ∉ fl.erase b.addr := by
    intro hp
    obtain ⟨c, hc, -, hca, hcb⟩ := hr.of_mem_erase hp
    rcases hr.layout.disjoint hc hbm with rfl | hd | hd
    · exact hcb rfl
    all_goals
      simp only [Block.next] at *
      omega
  have hins := (hr.core_cut hb hsz).insertFree (b := ⟨b.addr + 40 + size, rest, true⟩)
    (by simp [parts]) hnew
  refine ⟨Core.setIsFree (b := ⟨b.addr, size, false⟩) (by simpa [parts] using hins) false,
    ((hr.perm_take hb).cons _).trans ?_⟩
  simpa [List.filter_append, List.filter_cons] using List.perm_middle.symm

/-- Splitting a block changes no byte of the data of another one. -/
theorem split_mem (hr : Rep base h (l ++ [b] ++ r) fl) (hb : b.free = true) {rest : Nat}
    (hsz : 40 + size + rest = b.size) (hcm : c ∈ l ++ [b] ++ r) (hcf : c.free = false) {a : Nat}
    (g₁ : c.data ≤ a) (g₂ : a < c.tag) :
    ((((h.removeFree b.addr).cut b.addr size rest).insertFree (b.addr + 40 + size)).setIsFree
      b.addr 0).mem a = h.mem a := by
  have hbm : b ∈ l ++ [b] ++ r := by simp
  have hdisj : c.next ≤ b.addr ∨ b.next ≤ c.addr := by
    rcases hr.layout.disjoint hcm hbm with rfl | hd
    · simp [hb] at hcf
    · exact hd
  have hcm₂ : c ∈ l ++ parts b size rest ++ r := by
    rcases mem_rest hcm hcf hb with hc | hc <;> simp [hc]
  have hcut := hr.core_cut hb hsz
  have hna := hcut.layout.not_metaByte hcm₂ g₁ g₂
  have hnb : ¬ (b.addr ≤ a ∧ a < b.next) := by
    simp only [Block.data, Block.tag, Block.next] at *
    omega
  have hem : (⟨b.addr + 40 + size, rest, true⟩ : Block) ∈ l ++ parts b size rest ++ r := by
    simp [parts]
  refine Eq.trans (Memory.store_of_not_mem ?_) ?_
  · simp only [Block.next] at hnb
    omega
  · rw [hcut.insertFree_mem hem hna, Heap.cut_mem hsz hnb]
    exact hr.removeFree_mem (hr.mem_list hbm hb) (hr.layout.not_metaByte hcm g₁ g₂)

/-- A free block that is cut: its front is handed out, the rest goes on the free list. -/
theorem allocFree_split (hr : Rep base h (l ++ [b] ++ r) fl) (hb : b.free = true)
    (hsz : size + 40 ≤ b.size) :
    Served base h (l ++ [b] ++ r) size b.data
        (((h.removeFree b.addr).allocFreeSplit size b.addr).setIsFree b.addr 0) ∧
      ∃ bs' fl',
        Rep base (((h.removeFree b.addr).allocFreeSplit size b.addr).setIsFree b.addr 0) bs' fl' ∧
          Serving size (l ++ [b] ++ r) bs' := by
  have hbm : b ∈ l ++ [b] ++ r := by simp
  have hc := hr.toCore.removeFree (hr.mem_list hbm hb)
  have hlt := hc.next_lt hbm
  simp only [Block.next] at hlt
  rw [Heap.allocFreeSplit_eq (by rw [hc.size_eq hbm]; omega) (by rw [hc.size_eq hbm]; omega),
    hc.size_eq hbm]
  obtain ⟨rest, hrest⟩ : ∃ rest, rest = b.size - (40 + size) := ⟨_, rfl⟩
  have hsum : 40 + size + rest = b.size := by omega
  rw [← hrest]
  have hr' := hr.rep_split hb hsum
  refine ⟨⟨⟨b.addr, size, false⟩, _, _, hr', mem_mid, rfl, rfl, le_refl _, ?_⟩, _, _, hr',
    .split l r _ rest hb⟩
  intro c hcm hcf
  refine ⟨?_, ?_, fun a g₁ g₂ => hr.split_mem hb hsum hcm hcf g₁ g₂⟩
  · rcases mem_rest hcm hcf hb with hc | hc <;> simp [hc]
  · -- an allocated block does not begin where the free one did
    rintro rfl
    have hfree := congrArg Block.free (hr.layout.eq_of_addr_eq hcm hbm rfl)
    simp [hb] at hfree

/-! ## Requests -/

/-- The free list is shorter than the fuel of the first-fit walk. -/
theorem length_lt (hr : Rep base h bs fl) : fl.length < h.brk + 1 := by
  have h₁ := hr.layout.tiles.length_le Block.addr_lt_next
  have h₂ := hr.perm.length_eq
  have h₃ := List.length_filter_le Block.free bs
  rw [List.length_map] at h₂
  omega

/-- Where the block of a request comes from. -/
inductive Request (h : Heap) (grant : Bool) (size : Nat) : List Block → Nat × Heap → Prop
  | kernel (bs : List Block) : Request h grant size bs (h.allocNew grant size)
  | split (l r : List Block) {b : Block} (hb : b.free = true) (hsz : size + 40 ≤ b.size) :
      Request h grant size (l ++ [b] ++ r)
        (b.data, ((h.removeFree b.addr).allocFreeSplit size b.addr).setIsFree b.addr 0)
  | whole (l r : List Block) {b : Block} (hb : b.free = true) (hsz : size ≤ b.size) :
      Request h grant size (l ++ [b] ++ r) (b.data, (h.removeFree b.addr).setIsFree b.addr 0)

theorem malloc_request (hr : Rep base h bs fl) (h0 : 0 < size) (hsz : size < 2 ^ 63)
    (grant : Bool) : ∃ result, h.malloc grant size = some result ∧
      Request h grant size bs result := by
  have hwalk : h.firstFit size (h.brk + 1) h.headFree =
      some ((fl.find? fun p => size ≤ h.size p).getD 0) := by
    rw [hr.list.linked.head]
    exact hr.list.firstFit_eq (a := []) rfl hr.length_lt
  rw [Heap.malloc, if_neg (by omega), hwalk, Option.map_some]
  cases hfind : fl.find? fun p => size ≤ h.size p with
  | none =>
    rw [Option.getD_none, if_pos rfl]
    exact ⟨_, rfl, .kernel bs⟩
  | some p =>
    have hp := List.mem_of_find?_eq_some hfind
    have hfit : size ≤ h.size p := by simpa using List.find?_some hfind
    obtain ⟨b, hbm, hb, rfl⟩ := hr.mem_list_iff.mp hp
    have hpos := hr.addr_pos hbm
    have hlt := hr.next_lt hbm
    have hsize := hr.size_eq hbm
    have hdata : wadd b.addr nodeSize = b.data := by
      simp only [Block.next] at hlt
      exact wadd_of_lt (by unfold nodeSize; omega)
    have hsum : wadd (wadd metaBtagSize size) splitTreshold = 40 + size + 65536 := by
      rw [show metaBtagSize = 40 from rfl, show splitTreshold = 65536 from rfl,
        wadd_of_lt (p := 40) (by omega), wadd_of_lt (by omega)]
    have hsize' : (h.removeFree b.addr).size b.addr = b.size :=
      (hr.toCore.removeFree (hr.mem_list hbm hb)).size_eq hbm
    obtain ⟨l, r, rfl⟩ := List.append_of_mem hbm
    have halloc : (h.removeFree b.addr).allocFree size b.addr = (b.data,
        (if b.size ≥ 40 + size + 65536 then (h.removeFree b.addr).allocFreeSplit size b.addr
          else h.removeFree b.addr).setIsFree b.addr 0) := by
      rw [Heap.allocFree, hdata, hsum, hsize']
    have hlist : l ++ b :: r = l ++ [b] ++ r := by simp
    rw [Option.getD_some, if_neg (by omega), halloc, hlist]
    by_cases hsplit : b.size ≥ 40 + size + 65536
    · rw [if_pos hsplit]
      exact ⟨_, rfl, .split l r hb (by omega)⟩
    · rw [if_neg hsplit]
      exact ⟨_, rfl, .whole l r hb (by omega)⟩

/-- **A request** returns: it is refused with the heap unchanged, or served. -/
theorem malloc (hr : Rep base h bs fl) (hsz : size < 2 ^ 63) (grant : Bool) :
    ∃ ptr h', h.malloc grant size = some (ptr, h') ∧
      ((ptr = 0 ∧ h' = h) ∨ (0 < ptr ∧ Served base h bs size ptr h' ∧
        ∃ bs' fl', Rep base h' bs' fl' ∧ Serving size bs bs')) := by
  rcases Nat.eq_zero_or_pos size with rfl | h0
  · exact ⟨0, h, rfl, Or.inl ⟨rfl, rfl⟩⟩
  obtain ⟨result, heq, hreq⟩ := hr.malloc_request h0 hsz grant
  cases hreq with
  | kernel bs =>
    obtain ⟨ptr, h', hnew, hcase⟩ := hr.allocNew grant hsz
    exact ⟨ptr, h', by rw [heq, hnew], hcase⟩
  | @split l r b hb hfit =>
    exact ⟨b.data, _, heq, Or.inr ⟨by unfold Block.data; omega, hr.allocFree_split hb hfit⟩⟩
  | @whole l r b hb hfit =>
    exact ⟨b.data, _, heq, Or.inr ⟨by unfold Block.data; omega, hr.allocFree_whole hb hfit⟩⟩

/-- Writes to the data of an allocated block keep the representation. -/
theorem withMem (hr : Rep base h bs fl) (hb : b ∈ bs) {m : Memory}
    (hm : ∀ a, ¬ (b.data ≤ a ∧ a < b.tag) → m a = h.mem a) : Rep base (h.withMem m) bs fl := by
  have hmeta : ∀ a, MetaByte bs a → m a = h.mem a := fun a ha => hm a fun hba =>
    hr.layout.not_metaByte hb hba.1 hba.2 ha
  refine ⟨⟨?_, ?_, hr.nodes, hr.tail, hr.start, ?_, hr.base_le, hr.brk_lt⟩, hr.perm⟩
  · refine hr.layout.congr (fun c hc a h₁ h₂ => hmeta a ⟨c, hc, Or.inl ⟨h₁, ?_⟩⟩)
      fun c hc a h₁ h₂ => hmeta a ⟨c, hc, Or.inr ⟨h₁, h₂⟩⟩
    unfold Block.data
    omega
  · refine hr.list.congr rfl fun p hp a h₁ h₂ => ?_
    obtain ⟨c, hc, rfl⟩ := hr.nodes p hp
    exact hmeta a ⟨c, hc, Or.inl ⟨by omega, by unfold Block.data; omega⟩⟩
  · refine hr.below_congr fun a ha => hm a fun hba => ?_
    have := (hr.layout.bounds hb).1
    unfold Block.data at hba
    omega

/-- Writes to the data of one block keep the data of the others. -/
theorem kept_withMem (hr : Rep base h bs fl) (hb : b ∈ bs) (hc : c ∈ bs) (hne : c ≠ b)
    {m : Memory} (hm : ∀ a, ¬ (b.data ≤ a ∧ a < b.tag) → m a = h.mem a) :
    Kept h (h.withMem m) c := by
  intro a h₁ h₂
  refine hm a fun hba => ?_
  rcases hr.layout.disjoint hc hb with heq | hd | hd
  · exact hne heq
  all_goals
    simp only [Block.data, Block.tag, Block.next] at *
    omega

/-- Clearing bytes of a block writes to its data only. -/
theorem fill_data {m : Memory} {n : Nat} {v : UInt8} (hn : n ≤ b.size) :
    ∀ a, ¬ (b.data ≤ a ∧ a < b.tag) → m.fill b.data v n a = m a := by
  intro a ha
  refine Memory.fill_of_not_mem fun hba => ha ⟨hba.1, ?_⟩
  simp only [Block.data, Block.tag] at *
  omega

/-- Copying bytes to a block writes to its data only. -/
theorem copy_data {m : Memory} {n src : Nat} (hn : n ≤ b.size) :
    ∀ a, ¬ (b.data ≤ a ∧ a < b.tag) → m.copy b.data src n a = m a := by
  intro a ha
  refine Memory.copy_of_not_mem fun hba => ha ⟨hba.1, ?_⟩
  simp only [Block.data, Block.tag] at *
  omega

/-- **`calloc`** is `malloc` with the bytes cleared. -/
theorem calloc (hr : Rep base h bs fl) {num : Nat}
    (hsz : num * size < 2 ^ 63) (grant : Bool) :
    ∃ ptr h', h.calloc grant num size = some (ptr, h') ∧
      ((ptr = 0 ∧ h' = h) ∨ (0 < ptr ∧ Served base h bs (num * size) ptr h' ∧
        ∀ a, ptr ≤ a → a < ptr + num * size → h'.mem a = 0)) := by
  have hmod : num * size % 2 ^ 64 = num * size := Nat.mod_eq_of_lt (by omega)
  obtain ⟨ptr, h', heq, hcase⟩ := hr.malloc hsz grant
  rw [Heap.calloc, hmod, heq, Option.map_some]
  dsimp only
  rcases hcase with ⟨rfl, rfl⟩ | ⟨hpos, ⟨b, bs', fl', hr', hbm, hb, rfl, hle, hkeep⟩, -⟩
  · exact ⟨0, h', rfl, Or.inl ⟨rfl, rfl⟩⟩
  · have hfill := fill_data (m := h'.mem) (v := 0) hle
    refine ⟨b.data, _, by rw [if_neg (by omega)], Or.inr ⟨hpos, ?_, ?_⟩⟩
    · refine ⟨b, bs', fl', hr'.withMem hbm hfill, hbm, hb, rfl, hle, fun c hc hcf => ?_⟩
      obtain ⟨hcm, hne, hk⟩ := hkeep c hc hcf
      exact ⟨hcm, hne, hk.trans (hr'.kept_withMem hbm hcm hne hfill)⟩
    · intro a h₁ h₂
      exact Memory.fill_of_mem ⟨h₁, h₂⟩

/-- **`realloc` of a block that is too small**: refused with the heap unchanged, or moved to
a block that is large enough, with the whole old block copied. -/
theorem realloc_grow (hr : Rep base h bs fl) (hbm : b ∈ bs) (hb : b.free = false)
    (hgrow : b.size < size) (hsz : size < 2 ^ 63) (grant : Bool) :
    ∃ ptr h', h.realloc grant b.data size = some (ptr, h') ∧
      ((ptr = 0 ∧ h' = h) ∨
        (0 < ptr ∧ (∃ c bs' fl', Rep base h' bs' fl' ∧ c ∈ bs' ∧ c.free = false ∧ c.data = ptr ∧
          size ≤ c.size ∧ ∀ d ∈ bs, d.free = false → d ≠ b → d ∈ bs' ∧ d ≠ c ∧ Kept h h' d) ∧
          ∀ i < b.size, h'.mem (ptr + i) = h.mem (b.data + i))) := by
  have hdata : b.data ≠ 0 := by
    unfold Block.data
    omega
  obtain ⟨ptr, h₁, heq, hcase⟩ := hr.malloc hsz grant
  rw [Heap.realloc, if_neg hdata, if_neg (by omega), wsub_data hr.toCore hbm]
  dsimp only
  rw [hr.size_eq hbm, if_neg (by omega), heq, Option.map_some]
  rcases hcase with ⟨rfl, rfl⟩ | ⟨hpos, ⟨c, bs₁, fl₁, hr₁, hcm, hcf, rfl, hle, hkeep⟩, -⟩
  · exact ⟨0, h₁, by rw [if_neg (by simp)], Or.inl ⟨rfl, rfl⟩⟩
  · obtain ⟨hbm₁, hbc, hkb⟩ := hkeep b hbm hb
    dsimp only
    rw [if_pos (by omega), hr₁.size_eq hbm₁]
    have hcopy : ∀ a, ¬ (c.data ≤ a ∧ a < c.tag) →
        h₁.mem.copy c.data b.data b.size a = h₁.mem a := copy_data (by omega)
    have hr₂ := hr₁.withMem hcm hcopy
    obtain ⟨bs₃, fl₃, hr₃, hfreed, hmeta₃⟩ := hr₂.free hbm₁ hb
    refine ⟨c.data, _, rfl, Or.inr ⟨hpos, ⟨c, bs₃, fl₃, hr₃, hfreed.keep hcm hcf hbc.symm, hcf,
      rfl, hle, fun d hd hdf hdb => ?_⟩, ?_⟩⟩
    · obtain ⟨hdm, hdc, hkd⟩ := hkeep d hd hdf
      refine ⟨hfreed.keep hdm hdf hdb, hdc, ?_⟩
      exact (hkd.trans (hr₁.kept_withMem hcm hdm hdc hcopy)).trans (hmeta₃.kept hr₂.toCore hdm)
    · intro i hi
      have hkc := hmeta₃.kept hr₂.toCore hcm (c.data + i) (by omega) (by
        simp only [Block.data, Block.tag]
        omega)
      have hkbi := hkb (b.data + i) (by omega) (by
        simp only [Block.data, Block.tag]
        omega)
      have hcp : (h₁.withMem (h₁.mem.copy c.data b.data b.size)).mem (c.data + i) =
          h₁.mem (b.data + i) := by
        refine (Memory.copy_of_mem (by omega)).trans ?_
        rw [Nat.add_sub_cancel_left]
      exact hkc.trans (hcp.trans hkbi)

end Rep

end SystemProgramming.Malloc
