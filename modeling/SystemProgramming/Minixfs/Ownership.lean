import Mathlib.Tactic
import SystemProgramming.Foundation.Run
import SystemProgramming.Minixfs.Growth

/-!
# Ownership of data blocks

A run initialises unused inodes and grows live ones, in any order, with any choice of unused
blocks, and with calls that run out of blocks half way. In every state of such a run the
data map marks exactly the referenced blocks, no block is referenced twice, and the assigned
slots of an inode are its first ones. A call that returns `0` has assigned all the slots it
was asked for, and those it assigned are blocks of zeros.

## Main definitions

* `Request`, `step`: the operations of a run
* `Kept`: what holds in every state

## Main results

* `Kept.step`: an operation keeps it
* `blocks_owned`: ownership in every reachable state
-/

namespace SystemProgramming.Minixfs

/-- An operation of a run. -/
inductive Request where
  /-- `init_inode` on an unused inode. -/
  | init (now : Timespec) (parent n : Nat)
  /-- `minixfs_min_blockcount` on a live inode. -/
  | blockcount (p : Picker) (n : Nat) (blockCount : Int)

/-- An operation, where it is allowed. -/
def step (fs : FileSystem) : Request → Option FileSystem
  | .init now parent n =>
    if n < inodesNumber ∧ (fs.inodes n).nlink = 0 then
      some (fs.setInode n (initInode now (fs.inodes parent)))
    else none
  | .blockcount p n blockCount =>
    if (fs.inodes n).nlink ≠ 0 ∧ blockCount ≤ numDirectBlocks + numIndirectBlocks then
      (minBlockcount p fs n blockCount).map Prod.fst
    else none

/-- The assigned slots of an inode are its first ones. -/
def Prefixed (fs : FileSystem) (n : Nat) : Prop :=
  ∀ k j, j < k → ref fs (n, .slot k) ≠ unassignedNode → ref fs (n, .slot j) ≠ unassignedNode

/-- What holds in every state of a run. -/
structure Kept (fs : FileSystem) : Prop where
  count : fs.dblockCount = dataNumber
  exact : Exact unassignedNode (ref fs) (inUse fs)
  prefixed : ∀ n, Prefixed fs n

variable {fs fs' : FileSystem} {n : Nat}

/-- An inode whose slots are unassigned has no references. -/
theorem ref_of_unassigned {node : Inode} (hdirect : ∀ i, node.direct i = unassignedNode)
    (hind : node.indirect = unassignedNode) (data : Memory) (x : Place) :
    node.ref data x = unassignedNode := by
  cases x with
  | pointer => exact hind
  | slot k =>
    by_cases hk : k < numDirectBlocks
    · exact (slot_of_lt hk).trans (hdirect k)
    · exact slot_of_unassigned (not_lt.mp hk) hind

/-- Initialising an unused inode leaves the references as they are. -/
theorem ref_setInode_init (now : Timespec) (parent : Inode) (h : ¬ fs.Live n) :
    ref (fs.setInode n (initInode now parent)) = ref fs := by
  funext ⟨j, x⟩
  by_cases hj : j = n
  · rw [hj, ref_of_dead h, ref]
    simp only [FileSystem.setInode_self]
    exact (if_neg one_ne_zero).trans (ref_of_unassigned (fun _ => rfl) rfl _ _)
  · simp only [ref, FileSystem.setInode_of_ne _ _ hj]
    rfl

theorem Kept.start (now : Timespec) : Kept (minixfsMkfs now) := by
  have href : ∀ x, ref (minixfsMkfs now) x = unassignedNode := by
    rintro ⟨j, x⟩
    by_cases hj : j = 0
    · rw [hj, ref]
      simp only [minixfsMkfs_root]
      exact (if_neg one_ne_zero).trans (ref_of_unassigned (fun _ => rfl) rfl _ _)
    · refine ref_of_dead (not_not.mpr ?_) x
      rw [minixfsMkfs_of_ne now hj]
      rfl
  refine ⟨rfl, ⟨⟨fun x _ hx => absurd (href x) hx, fun x hx => absurd (href x) hx⟩,
    fun b hb => ?_⟩, fun n k _ _ hk => absurd (href _) hk⟩
  cases hb.2.2

/-- Growing a file keeps the assigned slots together. -/
theorem Grows.prefixed (h : Grows n fs fs') (hp : ∀ j, Prefixed fs j) (m : Nat) :
    Prefixed fs' m := by
  intro k j hj hk
  by_cases hfree : ref fs (m, .slot k) = unassignedNode
  · obtain rfl : m = n := (h.fresh _ hfree hk).1
    exact h.before k j hj hfree hk
  · have hassigned := hp m k j hj hfree
    rw [h.kept _ hassigned]
    exact hassigned

theorem Kept.step {r : Request} (h : Kept fs) (hs : Minixfs.step fs r = some fs') : Kept fs' := by
  cases r with
  | init now parent n =>
    simp only [Minixfs.step] at hs
    split_ifs at hs with hn
    obtain rfl := Option.some.inj hs
    have href := @ref_setInode_init fs n now (fs.inodes parent) (not_not.mpr hn.2)
    refine ⟨h.count, ?_, fun m k j => ?_⟩
    · rw [href]
      exact h.exact
    · rw [href]
      exact h.prefixed m k j
  | blockcount p n blockCount =>
    simp only [Minixfs.step] at hs
    split_ifs at hs with hn
    obtain ⟨fs₁, r, hgrow, ho', hgrows, -⟩ := minBlockcount_spec p h.exact.toOwns hn.1
      (h.count ▸ by decide) hn.2
    rw [hgrow] at hs
    obtain rfl := Option.some.inj hs
    exact ⟨hgrows.count.trans h.count, hgrows.exact ho' h.exact, hgrows.prefixed h.prefixed⟩

/-- **Every block has one owner.** In every state that initialisations and
`minixfs_min_blockcount` calls lead to, no two references of live inodes hold one block, the
data map marks exactly the blocks that are referenced, and the assigned slots of an inode come
first. A further call always returns, and when it returns `0`, the first slots are assigned,
the new ones to blocks of zeros. -/
theorem blocks_owned {now : Timespec} (h : Reachable step (minixfsMkfs now) fs) :
    (∀ x y, ref fs x ≠ unassignedNode → ref fs x = ref fs y → x = y) ∧
    (∀ x, ref fs x ≠ unassignedNode → 0 ≤ ref fs x ∧ ref fs x < fs.dblockCount) ∧
    (∀ b : Nat, b < fs.dblockCount → (fs.map b = true ↔ ∃ x, ref fs x = b)) ∧
    (∀ n, Prefixed fs n) ∧
    ∀ p n (blockCount : Int), fs.Live n → blockCount ≤ numDirectBlocks + numIndirectBlocks →
      ∃ fs' r, minBlockcount p fs n blockCount = some (fs', r) ∧
        (r = -1 ∨ r = 0 ∧ ∀ k : Nat, k < blockCount →
          ref fs' (n, .slot k) ≠ unassignedNode ∧
          (ref fs (n, .slot k) = unassignedNode →
            ∀ i < blockSize, byteAt fs'.data (ref fs' (n, .slot k)) i = 0)) := by
  have hk : Kept fs := h.invariant (Kept.start now) fun _ _ _ hk hs => hk.step hs
  have ho : Owned fs := hk.exact.toOwns
  refine ⟨ho.inj, fun x hx => ?_, fun b hb => ⟨fun hmap => ?_, fun ⟨x, hx⟩ => ?_⟩, hk.prefixed,
    fun p n blockCount hlive hmax => ?_⟩
  · have hmem := ho.mem x hx
    exact ⟨hmem.1, hmem.2.1⟩
  · exact hk.exact.held b ⟨by omega, by omega, by rwa [Int.toNat_natCast]⟩
  · have hmem := ho.mem x (by rw [hx]; simp only [unassignedNode]; omega)
    rw [hx] at hmem
    simpa using hmem.2.2
  · obtain ⟨fs', r, hgrow, -, hgrows, -, hr⟩ := minBlockcount_spec p ho hlive
      (hk.count ▸ by decide) hmax
    exact ⟨fs', r, hgrow, hr.imp id (And.imp id fun hall k hkk =>
      ⟨hall k hkk, fun hfree => hgrows.zero k hfree (hall k hkk)⟩)⟩

/-- A file of two blocks. -/
def twoBlocks : List Request := [.init 0 0 1, .blockcount lowest 1 2]

theorem blocks_owned_twoBlocks :
    ∃ fs, run step (minixfsMkfs 0) twoBlocks = some fs ∧ fs.map 1 = true ∧
      ∃ x, ref fs x = (1 : Nat) := by
  have hend : (run step (minixfsMkfs 0) twoBlocks).map
      (fun fs => (fs.dblockCount, fs.map 1)) = some (2048, true) := by
    decide +kernel
  obtain ⟨fs, hrun, hfs⟩ := Option.map_eq_some_iff.mp hend
  obtain ⟨hcount, hmap⟩ := Prod.mk.inj hfs
  have hlt : 1 < fs.dblockCount := by omega
  exact ⟨fs, hrun, hmap, ((blocks_owned ⟨twoBlocks, hrun⟩).2.2.1 1 hlt).mp hmap⟩

end SystemProgramming.Minixfs
