import Mathlib.Tactic
import SystemProgramming.Foundation.References
import SystemProgramming.Minixfs.Blocks

/-!
# What allocation does to the references

The references of a file system are the pointers to indirect blocks and the slots of all
live inodes. Every step of `minixfs_min_blockcount` stores one unused block in one free
reference of its inode (`Assigns`), so a whole call only adds references: what was assigned
stays as it is, the blocks in use before keep their bytes, apart from the entries of the
inode's own indirect block, and every slot that receives a block receives a block of zeros
(`Grows`).

## Main definitions

* `ref fs`: the table of references, with `-1` for what is free or dead
* `inUse fs`: the blocks that the data map marks
* `Assigns`, `Grows`: one step, and any number of steps
* `unusedBlocks`, `Spends`: the blocks that are left, and what becomes of them

## Main results

* `Assigns.grows`, `Grows.trans`
* `minBlockcount_spec`: `minixfs_min_blockcount` comes to an end and only adds references
-/

namespace SystemProgramming.Minixfs

/-! ## References -/

/-- Where an inode keeps a block number. -/
inductive Place where
  | pointer
  | slot (k : Nat)
  deriving DecidableEq

/-- The block number in a place of an inode. -/
def Inode.ref (node : Inode) (data : Memory) : Place → Int
  | .pointer => node.indirect
  | .slot k => slot node data k

/-- The references of a file system. An inode that is not live has none. -/
def ref (fs : FileSystem) (x : Nat × Place) : Int :=
  if (fs.inodes x.1).nlink = 0 then unassignedNode else (fs.inodes x.1).ref fs.data x.2

/-- The data blocks that are in use. -/
def inUse (fs : FileSystem) : Set Int := {b | 0 ≤ b ∧ b < fs.dblockCount ∧ fs.map b.toNat = true}

/-- No block is referenced twice, and every referenced block is in use. -/
abbrev Owned (fs : FileSystem) : Prop := Owns unassignedNode (ref fs) (inUse fs)

/-- The byte `i` of the data block `b`. -/
def byteAt (data : Memory) (b : Int) (i : Nat) : UInt8 := data (blockSize * b.toNat + i)

/-- Two memories hold the same bytes in the data block `b`. -/
def SameBlock (data data' : Memory) (b : Int) : Prop :=
  ∀ i < blockSize, byteAt data b i = byteAt data' b i

section References

variable {fs fs' : FileSystem} {node node' : Inode} {data data' : Memory} {n j k : Nat} {b c : Int}

theorem ref_of_live (h : fs.Live n) (x : Place) : ref fs (n, x) = (fs.inodes n).ref fs.data x :=
  if_neg h

theorem ref_of_dead (h : ¬ fs.Live n) (x : Place) : ref fs (n, x) = unassignedNode :=
  if_pos (not_not.mp h)

theorem slot_of_lt (h : k < numDirectBlocks) : slot node data k = node.direct k := if_pos h

theorem slot_add (hk : k < numIndirectBlocks) (h : node.indirect ≠ unassignedNode) :
    slot node data (numDirectBlocks + k) =
      entry data (numIndirectBlocks * node.indirect.toNat + k) := by
  have hlt : ¬ numDirectBlocks + k < numDirectBlocks := by omega
  have hle : numDirectBlocks + k < numDirectBlocks + numIndirectBlocks := by omega
  rw [slot, if_neg hlt, if_pos ⟨hle, h⟩, Nat.add_sub_cancel_left]

theorem slot_of_ge (h : numDirectBlocks + numIndirectBlocks ≤ k) :
    slot node data k = unassignedNode := by
  rw [slot, if_neg (by omega), if_neg fun hk => by omega]

theorem slot_of_unassigned (hk : numDirectBlocks ≤ k) (h : node.indirect = unassignedNode) :
    slot node data k = unassignedNode := by
  rw [slot, if_neg (by omega), if_neg fun hk => hk.2 h]

/-- An entry lies in the bytes of its block. -/
theorem entry_congr_block (hj : j < numIndirectBlocks) (h : SameBlock data data' b) :
    entry data (numIndirectBlocks * b.toNat + j) = entry data' (numIndirectBlocks * b.toNat + j) := by
  refine entry_congr fun a hlow hhigh => ?_
  have ha : a = blockSize * b.toNat + (a - blockSize * b.toNat) := by
    simp only [numIndirectBlocks, blockSize] at *
    omega
  have hlt : a - blockSize * b.toNat < blockSize := by
    simp only [numIndirectBlocks, blockSize] at *
    omega
  rw [ha]
  exact h _ hlt

/-- A slot depends on the inode and on the bytes of its indirect block. -/
theorem slot_congr (hdirect : k < numDirectBlocks → node'.direct k = node.direct k)
    (hpointer : node'.indirect = node.indirect)
    (hblock : node.indirect ≠ unassignedNode → SameBlock data data' node.indirect) :
    slot node' data' k = slot node data k := by
  by_cases hk : k < numDirectBlocks
  · rw [slot_of_lt hk, slot_of_lt hk, hdirect hk]
  obtain ⟨j, rfl⟩ := Nat.exists_eq_add_of_le (not_lt.mp hk)
  by_cases hind : node.indirect = unassignedNode
  · rw [slot_of_unassigned (by omega) hind, slot_of_unassigned (by omega) (hpointer.trans hind)]
  by_cases hj : j < numIndirectBlocks
  · rw [slot_add hj hind, slot_add hj (hpointer ▸ hind), hpointer]
    exact (entry_congr_block hj (hblock hind)).symm
  · rw [slot_of_ge (by omega), slot_of_ge (by omega)]

theorem not_mem_inUse : unassignedNode ∉ inUse fs := fun h => absurd h.1 (by decide)

/-- Bytes of different blocks lie at different addresses. -/
theorem blockAddr_ne {i : Nat} (hb : 0 ≤ b) (hc : 0 ≤ c) (hne : b ≠ c) (hi : i < blockSize) :
    ¬ (blockSize * c.toNat ≤ blockSize * b.toNat + i ∧
      blockSize * b.toNat + i < blockSize * c.toNat + blockSize) := by
  rintro ⟨hlow, hhigh⟩
  simp only [blockSize] at *
  omega

end References

/-! ## One step, and any number of steps -/

/-- An inode may get new slots, a new indirect block and a link; nothing else of it changes. -/
structure SameNode (node node' : Inode) : Prop where
  uid : node'.uid = node.uid
  gid : node'.gid = node.gid
  mode : node'.mode = node.mode
  atim : node'.atim = node.atim
  mtim : node'.mtim = node.mtim
  ctim : node'.ctim = node.ctim
  size : node'.size = node.size

/-- The place `x.2` of the live inode `x.1` receives the unused block `b`. -/
structure Assigns (x : Nat × Place) (b : Int) (fs fs' : FileSystem) : Prop where
  count : fs'.dblockCount = fs.dblockCount
  others : ∀ j, j ≠ x.1 → fs'.inodes j = fs.inodes j
  node : SameNode (fs.inodes x.1) (fs'.inodes x.1)
  live : fs'.Live x.1
  free : ref fs x = unassignedNode
  unused : b ∉ inUse fs
  used : inUse fs' = insert b (inUse fs)
  table : ref fs' = Function.update (ref fs) x b
  before : ∀ k j, x.2 = .slot k → j < k → ref fs (x.1, .slot j) ≠ unassignedNode
  bytes : ∀ c ∈ inUse fs, c ≠ ref fs (x.1, .pointer) → SameBlock fs.data fs'.data c
  zero : ∀ k, x.2 = .slot k → ∀ i < blockSize, byteAt fs'.data b i = 0

/-- The inode `n` receives any number of unused blocks. -/
structure Grows (n : Nat) (fs fs' : FileSystem) : Prop where
  count : fs'.dblockCount = fs.dblockCount
  others : ∀ j, j ≠ n → fs'.inodes j = fs.inodes j
  node : SameNode (fs.inodes n) (fs'.inodes n)
  live : fs.Live n → fs'.Live n
  used : inUse fs ⊆ inUse fs'
  held : ∀ b ∈ inUse fs', b ∈ inUse fs ∨ ∃ x, ref fs' x = b
  kept : ∀ x, ref fs x ≠ unassignedNode → ref fs' x = ref fs x
  fresh : ∀ x, ref fs x = unassignedNode → ref fs' x ≠ unassignedNode →
    x.1 = n ∧ ref fs' x ∉ inUse fs
  before : ∀ k j, j < k → ref fs (n, .slot k) = unassignedNode →
    ref fs' (n, .slot k) ≠ unassignedNode → ref fs' (n, .slot j) ≠ unassignedNode
  bytes : ∀ c ∈ inUse fs, c ≠ ref fs (n, .pointer) → SameBlock fs.data fs'.data c
  zero : ∀ k, ref fs (n, .slot k) = unassignedNode → ref fs' (n, .slot k) ≠ unassignedNode →
    ∀ i < blockSize, byteAt fs'.data (ref fs' (n, .slot k)) i = 0

section Growth

variable {fs fs' fs'' : FileSystem} {n : Nat} {x : Nat × Place} {b : Int}

theorem SameNode.refl (node : Inode) : SameNode node node := ⟨rfl, rfl, rfl, rfl, rfl, rfl, rfl⟩

theorem SameNode.trans {node node' node'' : Inode} (h : SameNode node node')
    (h' : SameNode node' node'') : SameNode node node'' where
  uid := h'.uid.trans h.uid
  gid := h'.gid.trans h.gid
  mode := h'.mode.trans h.mode
  atim := h'.atim.trans h.atim
  mtim := h'.mtim.trans h.mtim
  ctim := h'.ctim.trans h.ctim
  size := h'.size.trans h.size

theorem SameBlock.trans {data data' data'' : Memory} {c : Int} (h : SameBlock data data' c)
    (h' : SameBlock data' data'' c) : SameBlock data data'' c :=
  fun i hi => (h i hi).trans (h' i hi)

/-- A step keeps the ownership. -/
theorem Assigns.owned (h : Assigns x b fs fs') (ho : Owned fs) : Owned fs' := by
  rw [Owned, h.table, h.used]
  exact ho.assign h.unused

theorem Assigns.exact (h : Assigns x b fs fs') (he : Exact unassignedNode (ref fs) (inUse fs)) :
    Exact unassignedNode (ref fs') (inUse fs') := by
  rw [h.table, h.used]
  exact he.assign not_mem_inUse h.free h.unused

theorem Assigns.ref_self (h : Assigns x b fs fs') : ref fs' x = b := by
  rw [h.table, Function.update_self]

theorem Assigns.ref_of_ne (h : Assigns x b fs fs') {y : Nat × Place} (hy : y ≠ x) :
    ref fs' y = ref fs y := by
  rw [h.table, Function.update_of_ne hy]

theorem Assigns.grows (h : Assigns x b fs fs') : Grows x.1 fs fs' where
  count := h.count
  others := h.others
  node := h.node
  live := fun _ => h.live
  used := h.used ▸ Set.subset_insert b _
  held := fun c hc => by
    rcases Set.mem_insert_iff.mp (h.used ▸ hc) with rfl | hc
    · exact Or.inr ⟨x, h.ref_self⟩
    · exact Or.inl hc
  kept := fun y hy => h.ref_of_ne fun hyx => hy (hyx ▸ h.free)
  fresh := fun y hfree hy => by
    by_cases hyx : y = x
    · exact ⟨hyx ▸ rfl, by rw [hyx, h.ref_self]; exact h.unused⟩
    · exact absurd ((h.ref_of_ne hyx).trans hfree) hy
  before := fun k j hj hfree hk => by
    by_cases hkx : (x.1, Place.slot k) = x
    · have hassigned := h.before k j (congrArg Prod.snd hkx).symm hj
      have hjx : (x.1, Place.slot j) ≠ x := fun hjx => hassigned (hjx.symm ▸ h.free)
      rw [h.ref_of_ne hjx]
      exact hassigned
    · exact absurd ((h.ref_of_ne hkx).trans hfree) hk
  bytes := h.bytes
  zero := fun k hfree hk i hi => by
    by_cases hkx : (x.1, Place.slot k) = x
    · rw [hkx, h.ref_self]
      exact h.zero k (congrArg Prod.snd hkx).symm i hi
    · exact absurd ((h.ref_of_ne hkx).trans hfree) hk

theorem Grows.refl (n : Nat) (fs : FileSystem) : Grows n fs fs where
  count := rfl
  others := fun _ _ => rfl
  node := SameNode.refl _
  live := id
  used := subset_rfl
  held := fun _ => Or.inl
  kept := fun _ _ => rfl
  fresh := fun _ hfree hx => absurd hfree hx
  before := fun _ _ _ hfree hk => absurd hfree hk
  bytes := fun _ _ _ _ _ => rfl
  zero := fun _ hfree hk => absurd hfree hk

theorem Grows.trans (h : Grows n fs fs') (h' : Grows n fs' fs'') (ho' : Owned fs') :
    Grows n fs fs'' where
  count := h'.count.trans h.count
  others := fun j hj => (h'.others j hj).trans (h.others j hj)
  node := h.node.trans h'.node
  live := h'.live ∘ h.live
  used := h.used.trans h'.used
  held := fun b hb => by
    rcases h'.held b hb with hb' | hx
    · rcases h.held b hb' with hb₀ | ⟨x, rfl⟩
      · exact Or.inl hb₀
      · refine Or.inr ⟨x, h'.kept x fun hx => ?_⟩
        exact not_mem_inUse (hx ▸ hb')
    · exact Or.inr hx
  kept := fun x hx => by
    have hx' := h.kept x hx
    rw [h'.kept x (hx'.symm ▸ hx), hx']
  fresh := fun x hfree hx => by
    by_cases hx' : ref fs' x = unassignedNode
    · have hfresh := h'.fresh x hx' hx
      exact ⟨hfresh.1, fun hmem => hfresh.2 (h.used hmem)⟩
    · rw [h'.kept x hx']
      exact h.fresh x hfree hx'
  before := fun k j hj hfree hk => by
    by_cases hk' : ref fs' (n, .slot k) = unassignedNode
    · exact h'.before k j hj hk' hk
    · have hj' := h.before k j hj hfree hk'
      rw [h'.kept _ hj']
      exact hj'
  bytes := fun c hc hne => by
    refine (h.bytes c hc hne).trans (h'.bytes c (h.used hc) fun hpointer => ?_)
    -- a pointer that was free before has received a block that was not in use
    by_cases hfree : ref fs (n, .pointer) = unassignedNode
    · have hassigned : ref fs' (n, .pointer) ≠ unassignedNode := fun h₀ =>
        not_mem_inUse (h₀ ▸ hpointer ▸ hc)
      exact (h.fresh _ hfree hassigned).2 (hpointer ▸ hc)
    · exact hne (hpointer.trans (h.kept _ hfree))
  zero := fun k hfree hk i hi => by
    by_cases hk' : ref fs' (n, .slot k) = unassignedNode
    · exact h'.zero k hk' hk i hi
    · have hkept := h'.kept _ hk'
      have hne : ref fs' (n, .slot k) ≠ ref fs' (n, .pointer) := fun heq => by
        cases ho'.inj _ _ hk' heq
      rw [hkept, ← h'.bytes _ (ho'.mem _ hk') hne i hi]
      exact h.zero k hfree hk' i hi

/-- Growing keeps every block in use held. -/
theorem Grows.exact (h : Grows n fs fs') (ho : Owned fs')
    (he : Exact unassignedNode (ref fs) (inUse fs)) :
    Exact unassignedNode (ref fs') (inUse fs') := by
  refine ⟨ho, fun b hb => ?_⟩
  rcases h.held b hb with hb | hx
  · obtain ⟨x, rfl⟩ := he.held b hb
    exact ⟨x, h.kept x fun hx => not_mem_inUse (hx ▸ hb)⟩
  · exact hx

end Growth

/-! ## Unused blocks -/

/-- The number of unused data blocks. -/
def unusedBlocks (fs : FileSystem) : Nat :=
  ((Finset.range fs.dblockCount).filter fun b => fs.map b = false).card

/-- The blocks that a file of `a` blocks may need to have `c` blocks. With the direct slots full it
gets an indirect block. -/
def blocksToGrow (a c : Nat) : Nat :=
  c - a + if a ≤ numDirectBlocks ∧ numDirectBlocks ≤ c then 1 else 0

/-- At most `c` blocks have been taken, and a failure has left none where `c` were needed. -/
structure Spends (c : Nat) (fs fs' : FileSystem) (r : Int) : Prop where
  le : unusedBlocks fs' ≤ unusedBlocks fs
  bound : unusedBlocks fs ≤ unusedBlocks fs' + c
  full : r = -1 → unusedBlocks fs' = 0 ∧ unusedBlocks fs < c

section Unused

variable {fs fs' fs'' : FileSystem} {c c' : Nat} {r r' : Int} {x : Nat × Place} {b : Int}

/-- There is no unused block to pick. -/
theorem pick_eq_iff (p : Picker) (fs : FileSystem) : p.pick fs = -1 ↔ unusedBlocks fs = 0 := by
  rw [unusedBlocks, Finset.card_eq_zero, Finset.filter_eq_empty_iff]
  rcases p.spec fs with ⟨b, hb, hlt, hfree⟩ | ⟨hnone, hfull⟩
  · refine iff_of_false (by omega) fun hall => ?_
    exact hall (Finset.mem_range.mpr hlt) hfree
  · refine iff_of_true hnone fun b hb => ?_
    rw [hfull b (Finset.mem_range.mp hb)]
    exact Bool.true_eq_false_eq_False

/-- An unused block is taken. -/
theorem unusedBlocks_take {i : Nat} (hcount : fs'.dblockCount = fs.dblockCount)
    (hlt : i < fs.dblockCount) (hfree : fs.map i = false)
    (hmap : ∀ j < fs.dblockCount, fs'.map j = false ↔ j ≠ i ∧ fs.map j = false) :
    unusedBlocks fs' + 1 = unusedBlocks fs := by
  have hmem : i ∈ (Finset.range fs.dblockCount).filter fun j => fs.map j = false :=
    Finset.mem_filter.mpr ⟨Finset.mem_range.mpr hlt, hfree⟩
  have herase : (Finset.range fs'.dblockCount).filter (fun j => fs'.map j = false) =
      ((Finset.range fs.dblockCount).filter fun j => fs.map j = false).erase i := by
    ext j
    simp only [Finset.mem_filter, Finset.mem_erase, Finset.mem_range, hcount]
    constructor
    · rintro ⟨hj, hfree'⟩
      obtain ⟨hne, hfree⟩ := (hmap j hj).mp hfree'
      exact ⟨hne, hj, hfree⟩
    · rintro ⟨hne, hj, hfree⟩
      exact ⟨hj, (hmap j hj).mpr ⟨hne, hfree⟩⟩
  rw [unusedBlocks, unusedBlocks, herase, Finset.card_erase_add_one hmem]

/-- Marking an unused block. -/
theorem unusedBlocks_mark {i : Nat} (hcount : fs'.dblockCount = fs.dblockCount)
    (hmap : fs'.map = Function.update fs.map i true) (hlt : i < fs.dblockCount)
    (hfree : fs.map i = false) : unusedBlocks fs' + 1 = unusedBlocks fs := by
  refine unusedBlocks_take hcount hlt hfree fun j _ => ?_
  rw [hmap]
  by_cases hj : j = i
  · simp [hj]
  · simp [hj]

/-- A block is unused if it is not in use. -/
theorem map_eq_false_iff {i : Nat} (hi : i < fs.dblockCount) :
    fs.map i = false ↔ (i : Int) ∉ inUse fs := by
  simp [inUse, hi]

theorem Assigns.unusedBlocks (h : Assigns x b fs fs') :
    unusedBlocks fs' + 1 = unusedBlocks fs := by
  obtain ⟨hlow, hhigh, -⟩ : b ∈ inUse fs' := h.used ▸ Set.mem_insert b _
  have hlt : b.toNat < fs.dblockCount := by
    have hcount := h.count
    omega
  have hfree : fs.map b.toNat = false := by
    rw [map_eq_false_iff hlt, Int.toNat_of_nonneg hlow]
    exact h.unused
  refine unusedBlocks_take h.count hlt hfree fun j hj => ?_
  have hne : (j : Int) = b ↔ j = b.toNat := by omega
  rw [map_eq_false_iff hj, map_eq_false_iff (h.count ▸ hj), h.used, Set.mem_insert_iff, hne,
    not_or]

theorem Spends.refl (c : Nat) (fs : FileSystem) : Spends c fs fs 0 :=
  ⟨le_rfl, Nat.le_add_right _ _, fun h => absurd h (by decide)⟩

theorem Spends.mono (h : Spends c fs fs' r) (hle : c ≤ c') : Spends c' fs fs' r :=
  ⟨h.le, h.bound.trans (by omega), fun hr => (h.full hr).imp_right fun hlt => hlt.trans_le hle⟩

theorem Spends.trans (h : Spends c fs fs' r) (h' : Spends c' fs' fs'' r') :
    Spends (c + c') fs fs'' r' := by
  have hle := h.le
  have hbound := h.bound
  have hle' := h'.le
  have hbound' := h'.bound
  refine ⟨by omega, by omega, fun hr => ?_⟩
  have hfull := h'.full hr
  omega

/-- A step that finds no unused block. -/
theorem Spends.none (hnone : Minixfs.unusedBlocks fs = 0) (hc : 0 < c) : Spends c fs fs (-1) :=
  ⟨le_rfl, Nat.le_add_right _ _, fun _ => ⟨hnone, by omega⟩⟩

theorem Assigns.spends (h : Assigns x b fs fs') : Spends 1 fs fs' 0 := by
  have hone := h.unusedBlocks
  exact ⟨by omega, by omega, fun h => absurd h (by decide)⟩

end Unused

/-! ## The steps of the allocator -/

section Steps

variable {p : Picker} {fs fs' : FileSystem} {n i : Nat} {b : Int} {place : Place} {node' : Inode}

/-- What `first_unused_data` returns. -/
theorem Picker.pick_cases (p : Picker) (fs : FileSystem) :
    p.pick fs = -1 ∨ p.pick fs ≠ -1 ∧ 0 ≤ p.pick fs ∧ p.pick fs < fs.dblockCount ∧
      p.pick fs ∉ inUse fs := by
  rcases p.spec fs with ⟨b, hb, hlt, hfree⟩ | ⟨hnone, -⟩
  · refine Or.inr ⟨by omega, by omega, by omega, fun hmem => ?_⟩
    have hmap := hmem.2.2
    rw [hb, Int.toNat_natCast, hfree] at hmap
    cases hmap
  · exact Or.inl hnone

/-- The data map after an unused block is marked. -/
theorem inUse_insert (hcount : fs'.dblockCount = fs.dblockCount)
    (hmap : fs'.map = Function.update fs.map b.toNat true) (hlow : 0 ≤ b)
    (hhigh : b < fs.dblockCount) : inUse fs' = insert b (inUse fs) := by
  ext c
  simp only [inUse, Set.mem_ofPred_eq, Set.mem_insert_iff, hcount, hmap]
  by_cases hcb : c = b
  · simp [hcb, hlow, hhigh]
  · constructor
    · rintro ⟨h₀, h₁, h₂⟩
      rw [Function.update_of_ne (by omega)] at h₂
      exact Or.inr ⟨h₀, h₁, h₂⟩
    · rintro (h | ⟨h₀, h₁, h₂⟩)
      · exact absurd h hcb
      · rw [Function.update_of_ne (by omega)]
        exact ⟨h₀, h₁, h₂⟩

/-- A step that changes one place of one inode, and no bytes of blocks in use but those of its
indirect block. -/
theorem Assigns.of_node (ho : Owned fs) (hlive : fs.Live n) (hlow : 0 ≤ b)
    (hhigh : b < fs.dblockCount) (hunused : b ∉ inUse fs)
    (hcount : fs'.dblockCount = fs.dblockCount)
    (hinodes : fs'.inodes = Function.update fs.inodes n node')
    (hmap : fs'.map = Function.update fs.map b.toNat true)
    (hnode : SameNode (fs.inodes n) node') (hlink : node'.nlink ≠ 0)
    (hfree : ref fs (n, place) = unassignedNode)
    (href : ∀ y, node'.ref fs'.data y = if y = place then b else (fs.inodes n).ref fs.data y)
    (hbefore : ∀ k j, place = .slot k → j < k → ref fs (n, .slot j) ≠ unassignedNode)
    (hbytes : ∀ c ∈ inUse fs, c ≠ ref fs (n, .pointer) → SameBlock fs.data fs'.data c)
    (hzero : ∀ k, place = .slot k → ∀ i < blockSize, byteAt fs'.data b i = 0) :
    Assigns (n, place) b fs fs' := by
  have hself : fs'.inodes n = node' := by rw [hinodes, Function.update_self]
  have hothers : ∀ j, j ≠ n → fs'.inodes j = fs.inodes j := fun j hj => by
    rw [hinodes, Function.update_of_ne hj]
  have hlive' : fs'.Live n := by rwa [FileSystem.Live, hself]
  refine ⟨hcount, hothers, hself ▸ hnode, hlive', hfree, hunused,
    inUse_insert hcount hmap hlow hhigh, ?_, hbefore, hbytes, hzero⟩
  funext ⟨j, y⟩
  by_cases hj : j = n
  · rw [hj, ref_of_live hlive', hself, href]
    by_cases hy : y = place
    · rw [if_pos hy, hy, Function.update_self]
    · rw [if_neg hy, Function.update_of_ne fun h => hy (congrArg Prod.snd h), ref_of_live hlive]
  rw [Function.update_of_ne fun h => hj (congrArg Prod.fst h)]
  by_cases hjlive : fs.Live j
  · have hjlive' : fs'.Live j := by rwa [FileSystem.Live, hothers j hj]
    rw [ref_of_live hjlive, ref_of_live hjlive', hothers j hj]
    cases y with
    | pointer => rfl
    | slot k =>
      refine slot_congr (fun _ => rfl) rfl fun hind => ?_
      -- the indirect block of another inode is in use, and is not the one of `n`
      have hpointer : ref fs (j, .pointer) = (fs.inodes j).indirect := ref_of_live hjlive _
      have hmem := ho.mem (j, .pointer) (hpointer ▸ hind)
      refine hbytes _ (hpointer ▸ hmem) fun heq => ?_
      cases ho.inj (j, .pointer) (n, .pointer) (hpointer ▸ hind) (hpointer.trans heq)
      exact hj rfl
  · have hjlive' : ¬ fs'.Live j := by rwa [FileSystem.Live, hothers j hj]
    rw [ref_of_dead hjlive, ref_of_dead hjlive']

/-- Clearing a block writes zeros to it. -/
theorem clear_eq (hlow : 0 ≤ b) (hhigh : b < fs.dblockCount) :
    fs.clear b = some { fs with data := fs.data.fill (blockSize * b.toNat) 0 blockSize } := by
  rw [FileSystem.clear, FileSystem.block, if_pos ⟨hlow, hhigh⟩, Option.map_some]

theorem byteAt_fill {data : Memory} (hi : i < blockSize) :
    byteAt (data.fill (blockSize * b.toNat) 0 blockSize) b i = 0 :=
  Memory.fill_of_mem ⟨by omega, by omega⟩

theorem sameBlock_fill {data : Memory} {c : Int} (hb : 0 ≤ b) (hc : 0 ≤ c) (hne : c ≠ b) :
    SameBlock data (data.fill (blockSize * b.toNat) 0 blockSize) c :=
  fun _ hi => (Memory.fill_of_not_mem (blockAddr_ne hc hb hne hi)).symm

theorem setDataUsed_eq (hlow : 0 ≤ b) (hhigh : b < fs.dblockCount) :
    fs.setDataUsed b true = { fs with map := Function.update fs.map b.toNat true } :=
  if_pos ⟨hlow, hhigh⟩

/-- The first free slot is found where it is looked for. -/
theorem firstFree_eq {blocks : Nat → Int} {m : Nat} (hi : i < m) (hfree : blocks i = -1)
    (hbefore : ∀ j < i, blocks j ≠ -1) : firstFree blocks m = some i := by
  rw [firstFree, List.find?_range_eq_some]
  refine ⟨decide_eq_true hfree, List.mem_range.mpr hi, fun j hj => ?_⟩
  have hne : ¬ blocks j = unassignedNode := hbefore j hj
  rw [decide_eq_false hne, Bool.not_false]

/-- A block is added in the slot that was found, unless there is no unused block. -/
theorem addDataBlock_some {put : Nat → Int → FileSystem} (i : Nat) :
    addDataBlock p fs put (some i) = (fs, -1) ∧ unusedBlocks fs = 0 ∨
    ∃ b, addDataBlock p fs put (some i) = ((put i b).setDataUsed b true, b) ∧ b ≠ -1 ∧ 0 ≤ b ∧
      b < fs.dblockCount ∧ b ∉ inUse fs := by
  rcases p.pick_cases fs with hnone | ⟨hpick, hlow, hhigh, hunused⟩
  · exact Or.inl ⟨if_pos hnone, (pick_eq_iff p fs).mp hnone⟩
  · exact Or.inr ⟨p.pick fs, if_neg hpick, hpick, hlow, hhigh, hunused⟩

/-- One round of the loop over the direct slots. -/
theorem addDirect_assigns (ho : Owned fs) (hlive : fs.Live n) (hi : i < numDirectBlocks)
    (hfree : (fs.inodes n).direct i = -1) (hbefore : ∀ j < i, (fs.inodes n).direct j ≠ -1) :
    addDataBlockToInode p fs n = (fs, -1) ∧ unusedBlocks fs = 0 ∨ ∃ fs₁ err fs₂ b,
      addDataBlockToInode p fs n = (fs₁, err) ∧ err ≠ -1 ∧
      fs₁.clear ((fs₁.inodes n).direct i) = some fs₂ ∧ Assigns (n, .slot i) b fs fs₂ := by
  rw [addDataBlockToInode, firstFree_eq hi hfree hbefore]
  refine (addDataBlock_some i).imp id ?_
  rintro ⟨b, hadd, hpick, hlow, hhigh, hunused⟩
  obtain ⟨node', hnode'⟩ : ∃ node', node' = (fs.inodes n).setDirect i b := ⟨_, rfl⟩
  have hdirect : node'.direct = Function.update (fs.inodes n).direct i b := by
    rw [hnode', Inode.setDirect]
  have hself : ((fs.setInode n node').inodes n).direct i = b := by
    rw [FileSystem.setInode_self, hdirect, Function.update_self]
  have hused : (fs.setInode n node').setDataUsed b true = _ := setDataUsed_eq hlow hhigh
  rw [← hnode', hused] at hadd
  refine ⟨_, b, _, b, hadd, hpick, (congrArg _ hself).trans (clear_eq hlow hhigh), ?_⟩
  have hslots : ∀ j < numDirectBlocks, ref fs (n, .slot j) = (fs.inodes n).direct j :=
    fun j hj => (ref_of_live hlive _).trans (slot_of_lt hj)
  refine Assigns.of_node ho hlive hlow hhigh hunused rfl rfl rfl (hnode' ▸ ⟨rfl, rfl, rfl, rfl, rfl,
    rfl, rfl⟩) (hnode' ▸ hlive) ((hslots i hi).trans hfree) (fun y => ?_) ?_ ?_ fun _ _ _ hj =>
      byteAt_fill hj
  · -- the entries are read from the same indirect block
    have hentries : ∀ k, k ≠ i → slot node' (fs.data.fill (blockSize * b.toNat) 0 blockSize) k =
        slot (fs.inodes n) fs.data k := fun k hk => by
      refine slot_congr (fun _ => ?_) (hnode' ▸ rfl) fun hind => ?_
      · rw [hdirect, Function.update_of_ne hk]
      · have hpointer : ref fs (n, .pointer) = (fs.inodes n).indirect := ref_of_live hlive _
        have hmem := ho.mem (n, .pointer) (hpointer ▸ hind)
        rw [hpointer] at hmem
        exact sameBlock_fill hlow hmem.1 fun h => hunused (h ▸ hmem)
    by_cases hy : y = .slot i
    · rw [if_pos hy, hy]
      exact (slot_of_lt hi).trans (by rw [hdirect, Function.update_self])
    · rw [if_neg hy]
      cases y with
      | pointer => rw [hnode']; rfl
      | slot k => exact hentries k fun hk => hy (hk ▸ rfl)
  · rintro k j hk hj
    cases hk
    rw [hslots j (by omega)]
    exact hbefore j hj
  · intro c hc _
    exact sameBlock_fill hlow hc.1 fun h => hunused (h ▸ hc)

/-- Storing an entry of the indirect block `c` leaves all other blocks alone. -/
theorem sameBlock_setEntry {data : Memory} {c d v : Int} (hc : 0 ≤ c) (hd : 0 ≤ d) (hne : d ≠ c)
    (hi : i < numIndirectBlocks) :
    SameBlock data (setEntry data (numIndirectBlocks * c.toNat + i) v) d := by
  intro a ha
  have hblock := blockAddr_ne hd hc hne ha
  have hout : ¬ (4 * (numIndirectBlocks * c.toNat + i) ≤ blockSize * d.toNat + a ∧
      blockSize * d.toNat + a < 4 * (numIndirectBlocks * c.toNat + i) + 4) := by
    simp only [numIndirectBlocks, blockSize] at *
    omega
  exact (setEntry_of_not_mem hout).symm

/-- Storing an entry of the indirect block assigns the slot of the entry, and no other. -/
theorem slot_setEntry {node : Inode} {data : Memory} {v : Int}
    (hind : node.indirect ≠ unassignedNode) (hi : i < numIndirectBlocks) (hlow : -2 ^ 31 ≤ v)
    (hhigh : v < 2 ^ 31) (k : Nat) :
    slot node (setEntry data (numIndirectBlocks * node.indirect.toNat + i) v) k =
      if k = numDirectBlocks + i then v else slot node data k := by
  by_cases hk : k < numDirectBlocks
  · rw [slot_of_lt hk, slot_of_lt hk, if_neg (by omega)]
  obtain ⟨j, rfl⟩ := Nat.exists_eq_add_of_le (not_lt.mp hk)
  by_cases hj : j < numIndirectBlocks
  · rw [slot_add hj hind, slot_add hj hind]
    by_cases hji : j = i
    · rw [if_pos (by omega), hji, entry_setEntry hlow hhigh]
    · rw [if_neg (by omega), entry_setEntry_of_ne (by omega)]
  · -- slots behind the entries of the indirect block
    rw [slot_of_ge (by omega), slot_of_ge (by omega), if_neg (by omega)]

/-- One round of the loop over the entries of the indirect block. -/
theorem addEntry_assigns (ho : Owned fs) (hlive : fs.Live n) (hcount : fs.dblockCount ≤ 2 ^ 31)
    (hind : (fs.inodes n).indirect ≠ unassignedNode)
    (hdirect : ∀ j < numDirectBlocks, ref fs (n, .slot j) ≠ unassignedNode)
    (hi : i < numIndirectBlocks)
    (hfree : entry fs.data (numIndirectBlocks * (fs.inodes n).indirect.toNat + i) = -1)
    (hbefore : ∀ j < i,
      entry fs.data (numIndirectBlocks * (fs.inodes n).indirect.toNat + j) ≠ -1) :
    addDataBlockToIndirectBlock p fs (numIndirectBlocks * (fs.inodes n).indirect.toNat) =
      (fs, -1) ∧ unusedBlocks fs = 0 ∨
    ∃ fs₁ err fs₂ b,
      addDataBlockToIndirectBlock p fs (numIndirectBlocks * (fs.inodes n).indirect.toNat) =
        (fs₁, err) ∧ err ≠ -1 ∧
      fs₁.clear (entry fs₁.data (numIndirectBlocks * (fs.inodes n).indirect.toNat + i)) = some fs₂ ∧
      Assigns (n, .slot (numDirectBlocks + i)) b fs fs₂ := by
  obtain ⟨blocks, hblocks⟩ : ∃ k, k = numIndirectBlocks * (fs.inodes n).indirect.toNat := ⟨_, rfl⟩
  have hpointer : ref fs (n, .pointer) = (fs.inodes n).indirect := ref_of_live hlive _
  have hmem := ho.mem (n, .pointer) (hpointer ▸ hind)
  rw [hpointer] at hmem
  rw [← hblocks] at hfree hbefore ⊢
  have hfirst : firstFree (fun i => entry fs.data (blocks + i)) numIndirectBlocks = some i :=
    firstFree_eq hi hfree hbefore
  rw [addDataBlockToIndirectBlock, hfirst]
  refine (addDataBlock_some i).imp id ?_
  rintro ⟨b, hadd, hpick, hlow, hhigh, hunused⟩
  obtain ⟨data', hdata'⟩ : ∃ data', data' = setEntry fs.data (blocks + i) b := ⟨_, rfl⟩
  have hused : { fs with data := data' }.setDataUsed b true = _ := setDataUsed_eq hlow hhigh
  rw [← hdata', hused] at hadd
  have hself : entry data' (blocks + i) = b := hdata' ▸ entry_setEntry (by omega) (by omega)
  have hne : (fs.inodes n).indirect ≠ b := fun h => hunused (h ▸ hmem)
  -- the indirect block itself is not cleared
  have hclear : SameBlock data' (data'.fill (blockSize * b.toNat) 0 blockSize)
      (fs.inodes n).indirect := sameBlock_fill hlow hmem.1 hne
  refine ⟨_, b, _, b, hadd, hpick, (congrArg _ hself).trans (clear_eq hlow hhigh), ?_⟩
  have hslot : ∀ j < numIndirectBlocks, slot (fs.inodes n) fs.data (numDirectBlocks + j) =
      entry fs.data (blocks + j) := fun j hj => by
    rw [slot_add hj hind, hblocks]
  have hentries : ∀ j < numIndirectBlocks, ref fs (n, .slot (numDirectBlocks + j)) =
      entry fs.data (blocks + j) := fun j hj => (ref_of_live hlive _).trans (hslot j hj)
  refine Assigns.of_node ho hlive hlow hhigh hunused rfl (Function.update_eq_self n fs.inodes).symm
    rfl (SameNode.refl _) hlive ((hentries i hi).trans hfree) (fun y => ?_) ?_ ?_
    fun _ _ _ hj => byteAt_fill hj
  · cases y with
    | pointer => rfl
    | slot k =>
      change slot (fs.inodes n) (data'.fill (blockSize * b.toNat) 0 blockSize) k = _
      rw [slot_congr (fun _ => rfl) rfl fun _ => hclear, hdata', hblocks,
        slot_setEntry hind hi (by omega) (by omega)]
      simp only [Place.slot.injEq]
      rfl
  · rintro k j hk hj
    cases hk
    by_cases hjd : j < numDirectBlocks
    · exact hdirect j hjd
    obtain ⟨j', rfl⟩ := Nat.exists_eq_add_of_le (not_lt.mp hjd)
    rw [hentries j' (by omega)]
    exact hbefore j' (by omega)
  · intro c hc hcp
    rw [hpointer] at hcp
    have hset : SameBlock fs.data data' c := by
      rw [hdata', hblocks]
      exact sameBlock_setEntry hmem.1 hc.1 hcp hi
    exact hset.trans (sameBlock_fill hlow hc.1 fun h => hunused (h ▸ hc))

/-- The loop that empties an indirect block, after `m` rounds. -/
theorem unassign_spec (data : Memory) (blocks m : Nat) :
    (∀ j < m, entry ((List.range m).foldl (fun data i =>
      setEntry data (blocks + i) unassignedNode) data) (blocks + j) = unassignedNode) ∧
    ∀ a, ¬ (4 * blocks ≤ a ∧ a < 4 * (blocks + m)) → (List.range m).foldl (fun data i =>
      setEntry data (blocks + i) unassignedNode) data a = data a := by
  induction m with
  | zero => exact ⟨fun j hj => absurd hj (Nat.not_lt_zero j), fun a _ => rfl⟩
  | succ m ih =>
    simp only [List.range_succ, List.foldl_append, List.foldl_cons, List.foldl_nil]
    refine ⟨fun j hj => ?_, fun a ha => ?_⟩
    · rcases Nat.lt_succ_iff_lt_or_eq.mp hj with hlt | rfl
      · rw [entry_setEntry_of_ne (by omega)]
        exact ih.1 j hlt
      · exact entry_setEntry (by decide) (by decide)
    · have hout : ¬ (4 * (blocks + m) ≤ a ∧ a < 4 * (blocks + m) + 4) := by omega
      rw [setEntry_of_not_mem hout]
      exact ih.2 a (by omega)

theorem entry_unassignEntries {data : Memory} {blocks j : Nat} (hj : j < numIndirectBlocks) :
    entry (unassignEntries data blocks) (blocks + j) = unassignedNode :=
  (unassign_spec data blocks numIndirectBlocks).1 j hj

theorem sameBlock_unassignEntries {data : Memory} {c : Int} (hb : 0 ≤ b) (hc : 0 ≤ c)
    (hne : c ≠ b) : SameBlock data (unassignEntries data (numIndirectBlocks * b.toNat)) c := by
  intro a ha
  have hblock := blockAddr_ne hc hb hne ha
  have hout : ¬ (4 * (numIndirectBlocks * b.toNat) ≤ blockSize * c.toNat + a ∧
      blockSize * c.toNat + a < 4 * (numIndirectBlocks * b.toNat + numIndirectBlocks)) := by
    simp only [numIndirectBlocks, blockSize] at *
    omega
  exact ((unassign_spec data _ numIndirectBlocks).2 _ hout).symm

/-- An inode without an indirect block gets one, all of whose entries are free. -/
theorem addPointer_assigns (ho : Owned fs) (hlive : fs.Live n)
    (hind : (fs.inodes n).indirect = unassignedNode) :
    addSingleIndirectBlock p fs n = (fs, -1) ∧ unusedBlocks fs = 0 ∨ ∃ fs₂ b,
      addSingleIndirectBlock p fs n = (fs₂, 0) ∧ Assigns (n, .pointer) b fs fs₂ := by
  have hpointer : ref fs (n, .pointer) = unassignedNode := (ref_of_live hlive _).trans hind
  have hguard : ¬ (fs.inodes n).indirect ≠ unassignedNode := not_not.mpr hind
  rcases p.pick_cases fs with hnone | ⟨hpick, hlow, hhigh, hunused⟩
  · left
    refine ⟨?_, (pick_eq_iff p fs).mp hnone⟩
    simp only [addSingleIndirectBlock, if_neg hguard, hnone, if_true]
  right
  obtain ⟨b, hb⟩ : ∃ b, b = p.pick fs := ⟨_, rfl⟩
  rw [← hb] at hpick hlow hhigh hunused
  obtain ⟨node', hnode'⟩ : ∃ node', node' = { fs.inodes n with indirect := b, nlink := 1 } :=
    ⟨_, rfl⟩
  have hused : (fs.setInode n node').setDataUsed b true = _ := setDataUsed_eq hlow hhigh
  obtain ⟨data', hdata'⟩ : ∃ data', data' =
      unassignEntries fs.data (numIndirectBlocks * b.toNat) := ⟨_, rfl⟩
  have hadd : addSingleIndirectBlock p fs n = ({ fs.setInode n node' with
      map := Function.update fs.map b.toNat true, data := data' }, 0) := by
    simp only [addSingleIndirectBlock, if_neg hguard, ← hb, if_neg hpick, ← hnode', hused, hdata']
    rfl
  have hind' : node'.indirect = b := by rw [hnode']
  have hlink : node'.nlink ≠ 0 := by rw [hnode']; exact one_ne_zero
  have hdirect : node'.direct = (fs.inodes n).direct := by rw [hnode']
  have hbytes : ∀ c ∈ inUse fs, SameBlock fs.data data' c := fun c hc =>
    hdata' ▸ sameBlock_unassignEntries hlow hc.1 fun h => hunused (h ▸ hc)
  refine ⟨_, b, hadd, Assigns.of_node ho hlive hlow hhigh hunused rfl rfl rfl (hnode' ▸ ⟨rfl, rfl,
    rfl, rfl, rfl, rfl, rfl⟩) hlink hpointer (fun y => ?_) (fun k j hk => by cases hk)
    (fun c hc _ => hbytes c hc) fun k hk => by cases hk⟩
  cases y with
  | pointer => exact hind'
  | slot k =>
    rw [if_neg fun h => by cases h]
    change slot node' data' k = slot (fs.inodes n) fs.data k
    by_cases hk : k < numDirectBlocks
    · rw [slot_of_lt hk, slot_of_lt hk, hdirect]
    -- there were no entries before, and the new ones are free
    rw [slot_of_unassigned (not_lt.mp hk) hind]
    obtain ⟨j, rfl⟩ := Nat.exists_eq_add_of_le (not_lt.mp hk)
    by_cases hj : j < numIndirectBlocks
    · have hne : node'.indirect ≠ unassignedNode := by
        rw [hind']
        exact hpick
      rw [slot_add hj hne, hind', hdata']
      exact entry_unassignEntries hj
    · rw [slot_of_ge (by omega)]

end Steps

/-! ## The loops -/

section Loops

variable {p : Picker} {fs fs' : FileSystem} {n : Nat} {blockArray : FileSystem → Nat → Int}
  {add : FileSystem → FileSystem × Int}

/-- A loop over the slots from `base` on. `P` says which array the loop works on; it is kept
while the inode grows. -/
theorem fillSlots_spec {P : FileSystem → Prop} {base lim : Nat}
    (howned : ∀ fs, P fs → Owned fs)
    (hslot : ∀ fs i, P fs → i < lim → blockArray fs i = ref fs (n, .slot (base + i)))
    (hstep : ∀ fs i, P fs → i < lim → blockArray fs i = -1 → (∀ j < i, blockArray fs j ≠ -1) →
      add fs = (fs, -1) ∧ unusedBlocks fs = 0 ∨ ∃ fs₁ err fs₂ b, add fs = (fs₁, err) ∧ err ≠ -1 ∧
        fs₁.clear (blockArray fs₁ i) = some fs₂ ∧ Assigns (n, .slot (base + i)) b fs fs₂)
    (hkeep : ∀ fs fs', P fs → Owned fs' → Grows n fs fs' → P fs')
    (m i : Nat) (hm : i + m ≤ lim) (hP : P fs) (hdone : ∀ j < i, blockArray fs j ≠ -1) :
    ∃ fs' r, fillSlots blockArray add (List.range' i m) fs = some (fs', r) ∧ P fs' ∧
      Grows n fs fs' ∧
      (∀ a, (∀ j < a, j < lim → blockArray fs j ≠ -1) → Spends (i + m - max i a) fs fs' r) ∧
      (r = -1 ∨ r = 0 ∧ ∀ j < i + m, blockArray fs' j ≠ -1) := by
  -- the induction is on the slots that are left, with those before `i` assigned
  induction m generalizing i fs with
  | zero =>
    exact ⟨fs, 0, rfl, hP, Grows.refl n fs, fun _ _ => Spends.refl _ fs, Or.inr ⟨rfl, hdone⟩⟩
  | succ m ih =>
    have hi : i < lim := by omega
    rw [List.range'_succ, fillSlots]
    by_cases hfree : blockArray fs i = -1
    · rw [if_pos hfree]
      -- `i` is the first free slot
      have hle : ∀ a, (∀ j < a, j < lim → blockArray fs j ≠ -1) → a ≤ i := fun a ha => by
        by_contra hlt
        exact ha i (not_le.mp hlt) hi hfree
      rcases hstep fs i hP hi hfree hdone with
        ⟨hfull, hnone⟩ | ⟨fs₁, err, fs₂, b, hadd, herr, hclear, hassigns⟩
      · refine ⟨fs, -1, by simp only [hfull, if_true], hP, Grows.refl n fs, fun a ha => ?_,
          Or.inl rfl⟩
        have hai := hle a ha
        exact Spends.none hnone (by omega)
      have hgrows : Grows n fs fs₂ := hassigns.grows
      have hP₂ : P fs₂ := hkeep fs fs₂ hP (hassigns.owned (howned fs hP)) hgrows
      -- the slots before keep their blocks, and `i` has a new one
      have hdone₂ : ∀ j < i + 1, blockArray fs₂ j ≠ -1 := fun j hj => by
        rw [hslot fs₂ j hP₂ (by omega)]
        rcases Nat.lt_succ_iff_lt_or_eq.mp hj with hlt | rfl
        · have hold : ref fs (n, .slot (base + j)) ≠ -1 :=
            hslot fs j hP (by omega) ▸ hdone j hlt
          rw [hgrows.kept _ hold]
          exact hold
        · rw [hassigns.ref_self]
          exact fun hb => not_mem_inUse (hb ▸ hassigns.used ▸ Set.mem_insert b _)
      obtain ⟨fs', r, hfill, hP', hgrows', hspends, hr⟩ := ih (i + 1) (by omega) hP₂ hdone₂
      refine ⟨fs', r, ?_, hP', hgrows.trans hgrows' (howned _ hP₂), fun a ha => ?_, ?_⟩
      · simp only [hadd, if_neg herr, hclear, Option.bind_some]
        exact hfill
      · have hai := hle a ha
        have hrest := hspends a fun j hj _ => hdone₂ j (by omega)
        exact (hassigns.spends.trans hrest).mono (by omega)
      · rwa [show i + (m + 1) = i + 1 + m by omega]
    · rw [if_neg hfree]
      have hdone' : ∀ j < i + 1, blockArray fs j ≠ -1 := fun j hj => by
        rcases Nat.lt_succ_iff_lt_or_eq.mp hj with hlt | rfl
        · exact hdone j hlt
        · exact hfree
      obtain ⟨fs', r, hfill, hP', hgrows', hspends, hr⟩ := ih (i + 1) (by omega) hP hdone'
      refine ⟨fs', r, hfill, hP', hgrows', fun a ha => (hspends a ha).mono (by omega), ?_⟩
      rwa [show i + (m + 1) = i + 1 + m by omega]

/-- The loop over the first `m` direct slots. -/
theorem fillDirect_spec (ho : Owned fs) (hlive : fs.Live n) {m : Nat} (hm : m ≤ numDirectBlocks) :
    ∃ fs' r, fillDirect p n m fs = some (fs', r) ∧ Owned fs' ∧ fs'.Live n ∧ Grows n fs fs' ∧
      (∀ a, (∀ j < a, ref fs (n, .slot j) ≠ unassignedNode) → Spends (m - a) fs fs' r) ∧
      (r = -1 ∨ r = 0 ∧ ∀ j < m, ref fs' (n, .slot j) ≠ unassignedNode) := by
  have hslot : ∀ fs i, Owned fs ∧ fs.Live n → i < numDirectBlocks →
      (fs.inodes n).direct i = ref fs (n, .slot (0 + i)) := fun fs i h hi => by
    rw [Nat.zero_add, ref_of_live h.2]
    exact (slot_of_lt hi).symm
  obtain ⟨fs', r, hfill, hP, hgrows, hspends, hr⟩ := fillSlots_spec
    (P := fun fs => Owned fs ∧ fs.Live n) (fun _ h => h.1) hslot
    (fun fs i h hi hfree hbefore => by
      rw [Nat.zero_add]
      exact addDirect_assigns (p := p) h.1 h.2 hi hfree hbefore)
    (fun _ _ h ho' hg => ⟨ho', hg.live h.2⟩) m 0 (by omega) ⟨ho, hlive⟩
    fun _ hj => absurd hj (Nat.not_lt_zero _)
  refine ⟨fs', r, ?_, hP.1, hP.2, hgrows, fun a ha => ?_,
    hr.imp id (And.imp id fun h j hj => ?_)⟩
  · rw [fillDirect, List.range_eq_range']
    exact hfill
  · refine (hspends a fun j hj hlim => ?_).mono (by omega)
    rw [hslot fs j ⟨ho, hlive⟩ hlim, Nat.zero_add]
    exact ha j hj
  · have hassigned := h j (by omega)
    rw [hslot fs' j hP (by omega), Nat.zero_add] at hassigned
    exact hassigned

/-- The loop over the first `m` entries of the indirect block. -/
theorem fillIndirect_spec (ho : Owned fs) (hlive : fs.Live n) (hcount : fs.dblockCount ≤ 2 ^ 31)
    (hind : (fs.inodes n).indirect ≠ unassignedNode)
    (hdirect : ∀ j < numDirectBlocks, ref fs (n, .slot j) ≠ unassignedNode) {m : Nat}
    (hm : m ≤ numIndirectBlocks) :
    ∃ fs' r, fillIndirect p (numIndirectBlocks * (fs.inodes n).indirect.toNat) m fs =
        some (fs', r) ∧ Owned fs' ∧ Grows n fs fs' ∧
      (∀ a, (∀ j < a, ref fs (n, .slot j) ≠ unassignedNode) →
        Spends (m - (a - numDirectBlocks)) fs fs' r) ∧
      (r = -1 ∨ r = 0 ∧ ∀ j < numDirectBlocks + m, ref fs' (n, .slot j) ≠ unassignedNode) := by
  obtain ⟨c, hc⟩ : ∃ c, c = (fs.inodes n).indirect := ⟨_, rfl⟩
  rw [← hc] at hind ⊢
  -- what stays true while the entries are filled
  obtain ⟨P, hPdef⟩ : ∃ P : FileSystem → Prop, P = fun fs => Owned fs ∧ fs.Live n ∧
      fs.dblockCount ≤ 2 ^ 31 ∧ (fs.inodes n).indirect = c ∧
      ∀ j < numDirectBlocks, ref fs (n, .slot j) ≠ unassignedNode := ⟨_, rfl⟩
  have hP : P fs := hPdef ▸ ⟨ho, hlive, hcount, hc.symm, hdirect⟩
  have hslot : ∀ fs i, P fs → i < numIndirectBlocks →
      entry fs.data (numIndirectBlocks * c.toNat + i) = ref fs (n, .slot (numDirectBlocks + i)) := by
    subst hPdef
    rintro fs i ⟨-, hlive, -, rfl, -⟩ hi
    rw [ref_of_live hlive]
    exact (slot_add hi hind).symm
  have hstep : ∀ fs i, P fs → i < numIndirectBlocks →
      entry fs.data (numIndirectBlocks * c.toNat + i) = -1 →
      (∀ j < i, entry fs.data (numIndirectBlocks * c.toNat + j) ≠ -1) →
      addDataBlockToIndirectBlock p fs (numIndirectBlocks * c.toNat) = (fs, -1) ∧
        unusedBlocks fs = 0 ∨
      ∃ fs₁ err fs₂ b, addDataBlockToIndirectBlock p fs (numIndirectBlocks * c.toNat) =
          (fs₁, err) ∧ err ≠ -1 ∧
        fs₁.clear (entry fs₁.data (numIndirectBlocks * c.toNat + i)) = some fs₂ ∧
        Assigns (n, .slot (numDirectBlocks + i)) b fs fs₂ := by
    subst hPdef
    rintro fs i ⟨ho, hlive, hcount, rfl, hdirect⟩ hi hfree hbefore
    exact addEntry_assigns ho hlive hcount hind hdirect hi hfree hbefore
  have hkeep : ∀ fs fs', P fs → Owned fs' → Grows n fs fs' → P fs' := by
    subst hPdef
    rintro fs fs' ⟨ho, hlive, hcount, hpointer, hdirect⟩ ho' hg
    have hold : ref fs (n, .pointer) = c := (ref_of_live hlive _).trans hpointer
    have hnew : ref fs' (n, .pointer) = c := (hg.kept _ (hold ▸ hind)).trans hold
    refine ⟨ho', hg.live hlive, hg.count ▸ hcount,
      (ref_of_live (hg.live hlive) _).symm.trans hnew, fun j hj => ?_⟩
    rw [hg.kept _ (hdirect j hj)]
    exact hdirect j hj
  obtain ⟨fs', r, hfill, hP', hgrows, hspends, hr⟩ := fillSlots_spec
    (fun fs h => (hPdef ▸ h : _ ∧ _).1) hslot hstep hkeep m 0 (by omega) hP
    fun _ hj => absurd hj (Nat.not_lt_zero _)
  have hP'' := hP'
  rw [hPdef] at hP''
  refine ⟨fs', r, ?_, hP''.1, hgrows, fun a ha => ?_, hr.imp id (And.imp id fun h j hj => ?_)⟩
  · rw [fillIndirect, List.range_eq_range']
    exact hfill
  · refine (hspends (a - numDirectBlocks) fun j hj hlim => ?_).mono (by omega)
    rw [hslot fs j hP hlim]
    exact ha _ (by omega)
  · by_cases hjd : j < numDirectBlocks
    · exact hP''.2.2.2.2 j hjd
    obtain ⟨j, rfl⟩ := Nat.exists_eq_add_of_le (not_lt.mp hjd)
    rw [← hslot fs' j hP' (by omega)]
    exact h j (by omega)

/-- The indirect block of an inode, there already or new. -/
theorem addSingleIndirectBlock_spec (ho : Owned fs) (hlive : fs.Live n) :
    (addSingleIndirectBlock p fs n = (fs, -1) ∧ unusedBlocks fs = 0 ∧
      (fs.inodes n).indirect = unassignedNode) ∨
    ∃ fs', addSingleIndirectBlock p fs n = (fs', 0) ∧ Owned fs' ∧ Grows n fs fs' ∧
      Spends (if (fs.inodes n).indirect = unassignedNode then 1 else 0) fs fs' 0 ∧
      (fs'.inodes n).indirect ≠ unassignedNode := by
  by_cases hind : (fs.inodes n).indirect = unassignedNode
  · refine (addPointer_assigns ho hlive hind).imp (fun h => ⟨h.1, h.2, hind⟩) ?_
    rintro ⟨fs', b, hadd, hassigns⟩
    have hself : ref fs' (n, .pointer) = b := hassigns.ref_self
    rw [ref_of_live hassigns.live] at hself
    refine ⟨fs', hadd, hassigns.owned ho, hassigns.grows, ?_, fun h => ?_⟩
    · rw [if_pos hind]
      exact hassigns.spends
    · have hb : b = unassignedNode := hself.symm.trans h
      exact not_mem_inUse (hb ▸ hassigns.used ▸ Set.mem_insert b _)
  · refine Or.inr ⟨fs, if_pos hind, ho, Grows.refl n fs, ?_, hind⟩
    rw [if_neg hind]
    exact Spends.refl _ fs

/-- **Growing a file.** A call of `minixfs_min_blockcount` on a live inode comes to an end, and
adds nothing but references of this inode to blocks that were unused; when it returns `0`, the
first `blockCount` slots are assigned. It takes no more blocks than the slots that are not assigned
need, and fails only when there are fewer. -/
theorem minBlockcount_spec (p : Picker) (ho : Owned fs) (hlive : fs.Live n)
    (hcount : fs.dblockCount ≤ 2 ^ 31) {blockCount : Int}
    (hmax : blockCount ≤ numDirectBlocks + numIndirectBlocks) :
    ∃ fs' r, minBlockcount p fs n blockCount = some (fs', r) ∧ Owned fs' ∧ Grows n fs fs' ∧
      (∀ a, (∀ k < a, ref fs (n, .slot k) ≠ unassignedNode) →
        Spends (blocksToGrow a blockCount.toNat) fs fs' r) ∧
      (r = -1 ∨ r = 0 ∧ ∀ k : Nat, k < blockCount → ref fs' (n, .slot k) ≠ unassignedNode) := by
  by_cases hsmall : blockCount < numDirectBlocks
  · obtain ⟨fs', r, hfill, ho', -, hgrows, hspends, hr⟩ := fillDirect_spec (p := p) ho hlive
      (m := blockCount.toNat) (by omega)
    refine ⟨fs', r, ?_, ho', hgrows, fun a ha => (hspends a ha).mono (Nat.le_add_right _ _),
      hr.imp id (And.imp id fun h k hk => h k (by omega))⟩
    rw [minBlockcount, if_pos hsmall, hfill]
  obtain ⟨fs₁, r₁, hfill₁, ho₁, hlive₁, hgrows₁, hspends₁, hr₁⟩ :=
    fillDirect_spec (p := p) ho hlive le_rfl
  have heq : minBlockcount p fs n blockCount = (do
      if r₁ = -1 then return (fs₁, -1)
      let added := addSingleIndirectBlock p fs₁ n
      if added.2 = -1 then return (added.1, -1)
      let b ← added.1.block (added.1.inodes n).indirect
      fillIndirect p (numIndirectBlocks * b) (blockCount - numDirectBlocks).toNat added.1) := by
    rw [minBlockcount, if_neg hsmall, hfill₁]
    rfl
  rcases hr₁ with rfl | ⟨rfl, hdirect₁⟩
  · refine ⟨fs₁, -1, heq, ho₁, hgrows₁, fun a ha => (hspends₁ a ha).mono ?_, Or.inl rfl⟩
    rw [blocksToGrow]
    omega
  -- a file with an assigned slot behind the direct ones has an indirect block
  have hno : ∀ a, (∀ k < a, ref fs (n, .slot k) ≠ unassignedNode) →
      (fs₁.inodes n).indirect = unassignedNode → a ≤ numDirectBlocks := fun a ha hind => by
    by_contra hlt
    have hassigned := ha numDirectBlocks (not_le.mp hlt)
    rw [← hgrows₁.kept _ hassigned, ref_of_live hlive₁] at hassigned
    exact hassigned (slot_of_unassigned le_rfl hind)
  obtain ⟨hfull, hnone, hind⟩ | ⟨fs₂, hadd, ho₂, hgrows₂, hspends₂, hind₂⟩ :=
    addSingleIndirectBlock_spec (p := p) ho₁ hlive₁
  · refine ⟨fs₁, -1, by rw [heq, hfull]; rfl, ho₁, hgrows₁, fun a ha => ?_, Or.inl rfl⟩
    have hle := hno a ha hind
    refine ((hspends₁ a ha).trans (Spends.none hnone one_pos)).mono ?_
    rw [blocksToGrow, if_pos ⟨hle, by omega⟩]
    omega
  have hlive₂ := hgrows₂.live hlive₁
  have hpointer : ref fs₂ (n, .pointer) = (fs₂.inodes n).indirect := ref_of_live hlive₂ _
  have hmem := ho₂.mem (n, .pointer) (hpointer ▸ hind₂)
  rw [hpointer] at hmem
  have hblock : fs₂.block (fs₂.inodes n).indirect = some (fs₂.inodes n).indirect.toNat :=
    if_pos ⟨hmem.1, hmem.2.1⟩
  have hdirect₂ : ∀ j < numDirectBlocks, ref fs₂ (n, .slot j) ≠ unassignedNode := fun j hj => by
    rw [hgrows₂.kept _ (hdirect₁ j hj)]
    exact hdirect₁ j hj
  have hcount₂ : fs₂.dblockCount ≤ 2 ^ 31 := by rwa [hgrows₂.count, hgrows₁.count]
  obtain ⟨fs', r, hfill, ho', hgrows, hspends, hr⟩ := fillIndirect_spec (p := p) ho₂ hlive₂
    hcount₂ hind₂ hdirect₂ (m := (blockCount - numDirectBlocks).toNat) (by omega)
  refine ⟨fs', r, ?_, ho', (hgrows₁.trans hgrows₂ ho₁).trans hgrows ho₂, fun a ha => ?_,
    hr.imp id (And.imp id fun h k hk => h k (by omega))⟩
  · rw [heq, hadd]
    simp only [hblock, Option.bind_eq_bind, Option.bind_some]
    exact hfill
  · have hkept : ∀ k < a, ref fs₂ (n, .slot k) ≠ unassignedNode := fun k hk => by
      have hassigned₁ : ref fs₁ (n, .slot k) ≠ unassignedNode :=
        hgrows₁.kept _ (ha k hk) ▸ ha k hk
      exact hgrows₂.kept _ hassigned₁ ▸ hassigned₁
    have hone : (fs₁.inodes n).indirect = unassignedNode → a ≤ numDirectBlocks := hno a ha
    refine (((hspends₁ a ha).trans hspends₂).trans (hspends a hkept)).mono ?_
    rw [blocksToGrow]
    split_ifs <;> omega

end Loops

end SystemProgramming.Minixfs
