import Mathlib.Tactic
import SystemProgramming.Minixfs.Unlinking

/-!
# Creating files

`minixfs_create_inode_for_path` looks at the path, the inodes and the name before it changes
anything, but not at the parent: a parent that does not exist is dereferenced, and one that is
not a directory is used as one. It reserves an indirect block and initialises the new inode
before it looks for the block of the new entry, and takes neither back when there is none.

## Main definitions

* `blocksNeeded`: the blocks that a new entry takes
* `CannotCreate`: the reasons not to create a file

## Main results

* `reserveIndirect_cases`, `createIn_none`: what the steps do when they give up
* `create_clean_iff`
-/

namespace SystemProgramming.Minixfs

/-! ## Blocks -/

/-- A new entry goes behind the direct slots of an inode without an indirect block. -/
def NeedsIndirect (node : Inode) : Prop :=
  numDirectBlocks ≤ node.size / blockSize ∧ node.indirect = unassignedNode

instance (node : Inode) : Decidable (NeedsIndirect node) := inferInstanceAs (Decidable (_ ∧ _))

/-- The number of blocks that a new entry takes. -/
def blocksNeeded (node : Inode) : Nat :=
  (if NeedsIndirect node then 1 else 0) + if node.size % blockSize = 0 then 1 else 0

section Blocks

variable {p : Picker} {fs fs' : FileSystem} {n : Nat}

/-- Reserving an indirect block fails without a change, or takes one unused block. -/
theorem addSingleIndirectBlock_cases (hind : (fs.inodes n).indirect = unassignedNode) :
    (unusedBlocks fs = 0 ∧ addSingleIndirectBlock p fs n = (fs, -1)) ∨
      ∃ fs₁, addSingleIndirectBlock p fs n = (fs₁, 0) ∧ unusedBlocks fs₁ + 1 = unusedBlocks fs ∧
        fs₁.dblockCount = fs.dblockCount ∧ (∀ j, j ≠ n → fs₁.inodes j = fs.inodes j) ∧
        ∃ b : Int, 0 ≤ b ∧ b < fs.dblockCount ∧
          fs₁.inodes n = { fs.inodes n with indirect := b, nlink := 1 } := by
  have hguard : ¬ (fs.inodes n).indirect ≠ unassignedNode := not_not.mpr hind
  rcases p.spec fs with ⟨b, hb, hlt, hfree⟩ | ⟨hnone, -⟩
  · right
    obtain ⟨node', hnode'⟩ : ∃ node' : Inode,
      node' = { fs.inodes n with indirect := (b : Int), nlink := 1 } := ⟨_, rfl⟩
    have hpick : ¬ (b : Int) = -1 := by omega
    have hused : (fs.setInode n node').setDataUsed b true = _ :=
      setDataUsed_eq (Int.natCast_nonneg b) (Int.ofNat_lt.mpr hlt)
    obtain ⟨data', hdata'⟩ : ∃ data', data' =
        unassignEntries fs.data (numIndirectBlocks * (b : Int).toNat) := ⟨_, rfl⟩
    have hadd : addSingleIndirectBlock p fs n = ({ fs.setInode n node' with
        map := Function.update fs.map b true, data := data' }, 0) := by
      simp only [addSingleIndirectBlock, if_neg hguard, hb, if_neg hpick, ← hnode', hused, hdata']
      rfl
    refine ⟨_, hadd, unusedBlocks_mark rfl rfl hlt hfree, rfl, fun j hj => ?_, b,
      Int.natCast_nonneg b, Int.ofNat_lt.mpr hlt, ?_⟩
    · exact FileSystem.setInode_of_ne _ _ hj
    · exact (FileSystem.setInode_self _ _ _).trans hnode'
  · left
    refine ⟨(pick_eq_iff p fs).mp hnone, ?_⟩
    have hnone' : p.pick fs = -1 := hnone
    simp only [addSingleIndirectBlock, if_neg hguard, hnone', if_true]

/-- The number of full blocks of a file is an `int`. -/
theorem toInt_blocks (hsize : (fs.inodes n).size ≤ maxSize) :
    toInt ((fs.inodes n).size / blockSize) = ((fs.inodes n).size / blockSize : Nat) := by
  have hsmall : (fs.inodes n).size / blockSize < 2 ^ 31 := by
    simp only [maxSize, numDirectBlocks, numIndirectBlocks, blockSize] at *
    omega
  rw [toInt, Nat.mod_eq_of_lt (hsmall.trans (by decide)), ofBits, if_pos hsmall]

/-- The first step of `minixfs_create_inode_for_path`. -/
theorem reserveIndirect_cases (hsize : (fs.inodes n).size ≤ maxSize) :
    (NeedsIndirect (fs.inodes n) ∧ unusedBlocks fs = 0 ∧
      reserveIndirect p fs n (toInt ((fs.inodes n).size / blockSize)) = (fs, -1)) ∨
    (¬ NeedsIndirect (fs.inodes n) ∧
      reserveIndirect p fs n (toInt ((fs.inodes n).size / blockSize)) = (fs, 0)) ∨
    (NeedsIndirect (fs.inodes n) ∧ ∃ fs₁,
      reserveIndirect p fs n (toInt ((fs.inodes n).size / blockSize)) = (fs₁, 0) ∧
      unusedBlocks fs₁ + 1 = unusedBlocks fs ∧ fs₁.dblockCount = fs.dblockCount ∧
      (∀ j, j ≠ n → fs₁.inodes j = fs.inodes j) ∧ ∃ b : Int, 0 ≤ b ∧ b < fs.dblockCount ∧
        fs₁.inodes n = { fs.inodes n with indirect := b, nlink := 1 }) := by
  have hblocks := toInt_blocks hsize
  have hguard : (toInt ((fs.inodes n).size / blockSize) ≥ numDirectBlocks ∧
      (fs.inodes n).indirect = unassignedNode) ↔ NeedsIndirect (fs.inodes n) := by
    rw [hblocks, NeedsIndirect, ge_iff_le, Nat.cast_le]
  rw [reserveIndirect]
  by_cases hneeds : NeedsIndirect (fs.inodes n)
  · rw [if_pos (hguard.mpr hneeds)]
    rcases @addSingleIndirectBlock_cases p fs n hneeds.2 with ⟨hnone, hadd⟩ | hsome
    · exact Or.inl ⟨hneeds, hnone, hadd⟩
    · exact Or.inr (Or.inr ⟨hneeds, hsome⟩)
  · rw [if_neg (mt hguard.mp hneeds)]
    exact Or.inr (Or.inl ⟨hneeds, rfl⟩)

/-- Adding a block gives up without a change, and only when there is none. -/
theorem addDataBlock_cases {put : Nat → Int → FileSystem} (found : Option Nat) :
    (unusedBlocks fs = 0 ∧ addDataBlock p fs put found = (fs, -1)) ∨
      (addDataBlock p fs put found).2 ≠ -1 := by
  cases found with
  | none => exact Or.inr (by decide : (0 : Int) ≠ -1)
  | some i =>
    by_cases hpick : p.pick fs = -1
    · exact Or.inl ⟨(pick_eq_iff p fs).mp hpick, if_pos hpick⟩
    · refine Or.inr ?_
      rwa [addDataBlock, if_neg hpick]

end Blocks

/-! ## Creating in a directory -/

section Create

variable {p : Picker} {now : Timespec} {fs fs' : FileSystem} {n newNodeIdx : Nat}
  {name path : List UInt8}

/-- The block of the new entry is missing only when a new one was needed. -/
theorem entryBlock_none {numBlocks : Int} {rem : Nat}
    (h : entryBlock p fs n numBlocks rem = some (fs', none)) :
    rem = 0 ∧ unusedBlocks fs = 0 ∧ fs' = fs := by
  rw [entryBlock] at h
  dsimp only at h
  by_cases hrem : rem = 0
  · rw [if_neg (not_not.mpr hrem)] at h
    refine ⟨hrem, ?_⟩
    by_cases hind : (fs.inodes n).indirect = unassignedNode
    · rw [if_pos hind] at h
      have hadd : (unusedBlocks fs = 0 ∧ addDataBlockToInode p fs n = (fs, -1)) ∨
        (addDataBlockToInode p fs n).2 ≠ -1 := addDataBlock_cases _
      obtain ⟨hfs, hblock⟩ := Prod.mk.inj (Option.some.inj h)
      rcases hadd with ⟨hnone, hadd⟩ | hadd
      · rw [hadd] at hfs
        exact ⟨hnone, hfs.symm⟩
      · rw [if_neg hadd] at hblock
        cases hblock
    · rw [if_neg hind] at h
      obtain ⟨b, -, h⟩ := Option.map_eq_some_iff.mp h
      have hadd : (unusedBlocks fs = 0 ∧
          addDataBlockToIndirectBlock p fs (numIndirectBlocks * b) = (fs, -1)) ∨
        (addDataBlockToIndirectBlock p fs (numIndirectBlocks * b)).2 ≠ -1 := addDataBlock_cases _
      obtain ⟨hfs, hblock⟩ := Prod.mk.inj h
      rcases hadd with ⟨hnone, hadd⟩ | hadd
      · rw [hadd] at hfs
        exact ⟨hnone, hfs.symm⟩
      · rw [if_neg hadd] at hblock
        cases hblock
  · rw [if_pos hrem] at h
    split_ifs at h <;> obtain ⟨b, -, h⟩ := Option.map_eq_some_iff.mp h <;>
      cases (Prod.mk.inj h).2

theorem putEntry_ne_none {b : Int} : putEntry fs n newNodeIdx name b ≠ some (fs', none) := by
  intro h
  obtain ⟨c, -, h⟩ := Option.map_eq_some_iff.mp h
  cases (Prod.mk.inj h).2

/-- Without a block for the indirect block nothing happens. -/
theorem createIn_reserve (hsize : (fs.inodes n).size ≤ maxSize)
    (hneeds : NeedsIndirect (fs.inodes n)) (hfull : unusedBlocks fs = 0) :
    createIn p now fs n newNodeIdx name = some (fs, none) := by
  rcases @reserveIndirect_cases p fs n hsize with
    ⟨-, -, hres⟩ | ⟨hno, -⟩ | ⟨-, fs₁, -, hcount, -⟩
  · rw [createIn]
    dsimp only
    rw [hres, if_pos rfl]
  · exact absurd hneeds hno
  · omega

/-- When it gives up later, the blocks did not suffice, and the new inode is in use. -/
theorem createIn_none (hsize : (fs.inodes n).size ≤ maxSize) (hnew : ¬ fs.Live newNodeIdx)
    (hres : ¬ (NeedsIndirect (fs.inodes n) ∧ unusedBlocks fs = 0))
    (h : createIn p now fs n newNodeIdx name = some (fs', none)) :
    unusedBlocks fs < blocksNeeded (fs.inodes n) ∧ fs' ≠ fs := by
  obtain ⟨fs₁, hreserve, hunused, hothers⟩ : ∃ fs₁,
      reserveIndirect p fs n (toInt ((fs.inodes n).size / blockSize)) = (fs₁, 0) ∧
      (unusedBlocks fs₁ + if NeedsIndirect (fs.inodes n) then 1 else 0) = unusedBlocks fs ∧
      ∀ j, j ≠ n → fs₁.inodes j = fs.inodes j := by
    rcases @reserveIndirect_cases p fs n hsize with
      ⟨hneeds, hfull, -⟩ | ⟨hno, hres'⟩ | ⟨hneeds, fs₁, hres', hcount, -, hothers, -⟩
    · exact absurd ⟨hneeds, hfull⟩ hres
    · exact ⟨fs, hres', by rw [if_neg hno, Nat.add_zero], fun j _ => rfl⟩
    · exact ⟨fs₁, hres', by rw [if_pos hneeds, hcount], hothers⟩
  rw [createIn] at h
  dsimp only at h
  rw [hreserve, if_neg (show ¬ (0 : Int) = -1 by decide)] at h
  obtain ⟨⟨fs₂, reqDataBlock⟩, hentry, h⟩ := Option.bind_eq_some_iff.mp h
  cases reqDataBlock with
  | some b => exact absurd h putEntry_ne_none
  | none =>
    obtain ⟨hrem, hfull, rfl⟩ := entryBlock_none hentry
    obtain rfl := (Prod.mk.inj (Option.some.inj h)).1
    have hsame : unusedBlocks (fs₁.setInode newNodeIdx (initInode now (fs₁.inodes n))) =
        unusedBlocks fs₁ := rfl
    rw [hsame] at hfull
    refine ⟨?_, fun heq => hnew ?_⟩
    · rw [blocksNeeded, if_pos hrem]
      omega
    · rw [FileSystem.Live, ← heq, FileSystem.setInode_self]
      exact one_ne_zero

/-- In a tree every path is looked up without a fault. -/
theorem Tree.getInode_total (h : Tree fs) (hzero : (0 : UInt8) ∉ path) :
    getInode fs path = some none ∨
      ∃ m : Nat, getInode fs path = some (some (m : Int)) ∧ m < inodesNumber ∧ fs.Live m := by
  obtain ⟨rank, hdirs⟩ := h.directories
  obtain ⟨i, hi, hlt, hroot⟩ := h.resolves [] 0 rfl
  obtain rfl : i = 0 := by omega
  cases path with
  | nil => exact Or.inr ⟨0, rfl, hlt, hroot⟩
  | cons c path =>
    rw [getInode]
    split_ifs
    · exact Or.inl rfl
    · rcases walk_total hdirs hroot hlt fun tok htok hmem => hzero (mem_of_mem_tokens htok hmem) with
        hnone | ⟨m, hm, hmlt, hmlive, -⟩
      · exact Or.inl hnone
      · exact Or.inr ⟨m, hm, hmlt, hmlive⟩

/-- So is its parent. -/
theorem Tree.parentDirectory_total (h : Tree fs) (hzero : (0 : UInt8) ∉ path)
    (hslash : (47 : UInt8) ∈ path) : parentDirectory fs path = some (none, filename path) ∨
      ∃ m : Nat, parentDirectory fs path = some (some (m : Int), filename path) ∧
        m < inodesNumber ∧ fs.Live m := by
  rw [parentDirectory, if_pos hslash]
  have hzero' : (0 : UInt8) ∉ path.take (path.length - (filename path).length) := fun hmem =>
    hzero (List.mem_of_mem_take hmem)
  dsimp only
  rcases h.getInode_total hzero' with hnone | ⟨m, hm, hlt, hlive⟩
  · rw [hnone]
    exact Or.inl rfl
  · rw [hm]
    exact Or.inr ⟨m, rfl, hlt, hlive⟩

/-- The reasons not to create a file: the path leads to an inode, there is no unused inode, the
name is empty, the parent does not exist or is no directory, or the blocks do not suffice. -/
def CannotCreate (fs : FileSystem) (path : List UInt8) : Prop :=
  (∃ m, getInode fs path = some (some m)) ∨ firstUnusedInode fs = none ∨ filename path = [] ∨
    (∃ name, parentDirectory fs path = some (none, name)) ∨
    ∃ (n : Nat) (name : List UInt8), parentDirectory fs path = some (some (n : Int), name) ∧
      (isDirectory (fs.inodes n) = false ∨ unusedBlocks fs < blocksNeeded (fs.inodes n))

theorem validFilename_filename (hslash : (47 : UInt8) ∈ path) (hne : filename path ≠ []) :
    validFilename (filename path) = true := by
  obtain ⟨-, -, hname, -⟩ := split_path hslash
  simp [validFilename, hne, hname]

/-- Where the code looks at the parent. -/
theorem createInodeForPath_eq (hpath : getInode fs path = some none)
    (hnew : firstUnusedInode fs = some newNodeIdx) (hslash : (47 : UInt8) ∈ path)
    (hne : filename path ≠ []) {parent : Option Int}
    (hparent : parentDirectory fs path = some (parent, filename path)) :
    createInodeForPath p now fs path =
      (parent.bind inode?).bind fun n => createIn p now fs n newNodeIdx (filename path) := by
  have hvalid := validFilename_filename hslash hne
  simp only [createInodeForPath, hpath, hnew, hparent, hvalid, Option.bind_eq_bind,
    Option.bind_some, Option.isSome_none, Bool.false_eq_true, if_false, Bool.not_true]
  cases parent <;> rfl

/-- Where the code returns before it looks at the parent. -/
theorem createInodeForPath_early (h : Tree fs) (hzero : (0 : UInt8) ∉ path)
    (hslash : (47 : UInt8) ∈ path) (hearly : (∃ m, getInode fs path = some (some m)) ∨
      firstUnusedInode fs = none ∨ filename path = []) :
    createInodeForPath p now fs path = some (fs, none) := by
  rcases h.getInode_total hzero with hnone | ⟨m, hm, -⟩
  · cases hnew : firstUnusedInode fs with
    | none => simp [createInodeForPath, hnone, hnew]
    | some i =>
      have hname : filename path = [] := by
        rcases hearly with ⟨m, hm⟩ | hnew' | hname
        · rw [hnone] at hm
          cases Option.some.inj hm
        · rw [hnew] at hnew'
          cases hnew'
        · exact hname
      have hvalid : validFilename [] = false := by decide
      have hparent : ∃ parent, parentDirectory fs path = some (parent, []) := by
        rw [← hname]
        rcases h.parentDirectory_total hzero hslash with hparent | ⟨m, hparent, -⟩
        · exact ⟨_, hparent⟩
        · exact ⟨_, hparent⟩
      obtain ⟨parent, hparent⟩ := hparent
      simp [createInodeForPath, hnone, hnew, hparent, hvalid]
  · simp [createInodeForPath, hm]

/-- Behind the checks of the parent: an early failure, or none at all. -/
theorem createIn_clean_iff {n : Nat} {name : List UInt8}
    (hsize : (fs.inodes n).size ≤ maxSize) (hnew : ¬ fs.Live newNodeIdx) :
    ((isDirectory (fs.inodes n) = false ∨ unusedBlocks fs < blocksNeeded (fs.inodes n) →
        ∃ fs', createIn p now fs n newNodeIdx name = some (fs', none)) ∧
      ∀ fs', createIn p now fs n newNodeIdx name = some (fs', none) → fs' = fs) ↔
    NeedsIndirect (fs.inodes n) ∧ unusedBlocks fs = 0 ∨
      isDirectory (fs.inodes n) = true ∧ blocksNeeded (fs.inodes n) ≤ unusedBlocks fs := by
  by_cases hres : NeedsIndirect (fs.inodes n) ∧ unusedBlocks fs = 0
  · have hreturn := @createIn_reserve p now fs n newNodeIdx name hsize hres.1 hres.2
    refine iff_of_true ⟨fun _ => ⟨fs, hreturn⟩, fun fs' hfs' => ?_⟩ (Or.inl hres)
    exact (Prod.mk.inj (Option.some.inj (hfs'.symm.trans hreturn))).1
  have hlate := fun fs' => @createIn_none p now fs fs' n newNodeIdx name hsize hnew hres
  constructor
  · rintro ⟨hreturns, hclean⟩
    refine Or.inr ?_
    by_contra hnot
    -- a reason to fail, and every failure leaves the new inode behind
    have hreason : isDirectory (fs.inodes n) = false ∨
        unusedBlocks fs < blocksNeeded (fs.inodes n) := by
      rcases not_and_or.mp hnot with hdir | hblocks
      · exact Or.inl (Bool.not_eq_true _ ▸ hdir)
      · exact Or.inr (not_le.mp hblocks)
    obtain ⟨fs', hfs'⟩ := hreturns hreason
    exact (hlate fs' hfs').2 (hclean fs' hfs')
  · rintro (hres' | ⟨hdir, hblocks⟩)
    · exact absurd hres' hres
    · refine ⟨fun hreason => ?_, fun fs' hfs' => ?_⟩
      · rcases hreason with hfile | hfew
        · rw [hdir] at hfile
          cases hfile
        · omega
      · exact absurd (hlate fs' hfs').1 (not_lt.mpr hblocks)

/-- There is one parent. -/
theorem exists_parent_iff {n : Nat} {name : List UInt8} (P : Nat → Prop)
    (hparent : parentDirectory fs path = some (some (n : Int), name)) :
    (∃ (n' : Nat) (name' : List UInt8),
      parentDirectory fs path = some (some (n' : Int), name') ∧ P n') ↔ P n := by
  constructor
  · rintro ⟨n', name', hparent', hP⟩
    have hpair := (Prod.mk.inj (Option.some.inj (hparent'.symm.trans hparent))).1
    rwa [Int.ofNat_inj.mp (Option.some.inj hpair)] at hP
  · exact fun hP => ⟨n, name, hparent, hP⟩

/-- **A failed creation changes nothing only when it fails early.** The call returns `NULL` for
every reason not to create a file and leaves the state as it is whenever it returns `NULL`
exactly if it fails at the path, at the inodes, at the name, or at the indirect block of the
parent, or if the parent is a directory and the blocks suffice. -/
theorem create_clean_iff (p : Picker) (now : Timespec) (h : Tree fs) (hzero : (0 : UInt8) ∉ path)
    (hslash : path.head? = some 47) :
    ((CannotCreate fs path → ∃ fs', createInodeForPath p now fs path = some (fs', none)) ∧
      ∀ fs', createInodeForPath p now fs path = some (fs', none) → fs' = fs) ↔
    (∃ m, getInode fs path = some (some m)) ∨ firstUnusedInode fs = none ∨ filename path = [] ∨
      ∃ (n : Nat) (name : List UInt8), parentDirectory fs path = some (some (n : Int), name) ∧
        (NeedsIndirect (fs.inodes n) ∧ unusedBlocks fs = 0 ∨
          isDirectory (fs.inodes n) = true ∧ blocksNeeded (fs.inodes n) ≤ unusedBlocks fs) := by
  have hmem : (47 : UInt8) ∈ path := List.mem_of_mem_head? hslash
  by_cases hearly : (∃ m, getInode fs path = some (some m)) ∨ firstUnusedInode fs = none ∨
      filename path = []
  · have hreturn := @createInodeForPath_early p now fs path h hzero hmem hearly
    refine iff_of_true ⟨fun _ => ⟨fs, hreturn⟩, fun fs' hfs' => ?_⟩ ?_
    · exact (Prod.mk.inj (Option.some.inj (hfs'.symm.trans hreturn))).1
    · exact hearly.imp id (Or.imp id Or.inl)
  obtain ⟨hpath', hinode, hname⟩ := not_or.mp hearly |>.imp_right not_or.mp
  obtain ⟨newNodeIdx, hnew⟩ := Option.ne_none_iff_exists'.mp hinode
  have hpath : getInode fs path = some none := by
    rcases h.getInode_total hzero with hnone | ⟨m, hm, -⟩
    · exact hnone
    · exact absurd ⟨m, hm⟩ hpath'
  rcases h.parentDirectory_total hzero hmem with hparent | ⟨n, hparent, hn, hlive⟩
  · -- the parent is `NULL`, and dereferenced
    have hfault := @createInodeForPath_eq p now fs newNodeIdx path hpath hnew hmem hname _ hparent
    refine iff_of_false (fun hclean => ?_) ?_
    · obtain ⟨fs', hfs'⟩ := hclean.1 (Or.inr (Or.inr (Or.inr (Or.inl ⟨_, hparent⟩))))
      rw [hfault] at hfs'
      cases hfs'
    · rintro (hex | hnone | hempty | ⟨n, name, hparent', -⟩)
      · exact hpath' hex
      · exact hinode hnone
      · exact hname hempty
      · rw [hparent] at hparent'
        cases (Prod.mk.inj (Option.some.inj hparent')).1
  · have hcreate : createInodeForPath p now fs path =
        createIn p now fs n newNodeIdx (filename path) := by
      rw [createInodeForPath_eq hpath hnew hmem hname hparent, Option.bind_some,
        inode?_natCast hn, Option.bind_some]
    have hfound : ¬ ∃ name, parentDirectory fs path = some (none, name) := by
      rintro ⟨name, hparent'⟩
      rw [hparent] at hparent'
      cases (Prod.mk.inj (Option.some.inj hparent')).1
    have hreasons : CannotCreate fs path ↔ isDirectory (fs.inodes n) = false ∨
        unusedBlocks fs < blocksNeeded (fs.inodes n) := by
      rw [CannotCreate, or_iff_right hpath', or_iff_right hinode, or_iff_right hname,
        or_iff_right hfound]
      exact exists_parent_iff (fun n' => isDirectory (fs.inodes n') = false ∨
        unusedBlocks fs < blocksNeeded (fs.inodes n')) hparent
    rw [hreasons, or_iff_right hpath', or_iff_right hinode, or_iff_right hname, hcreate,
      createIn_clean_iff (h.size_le hlive) (not_live_firstUnusedInode hnew)]
    exact (exists_parent_iff (fun n' => NeedsIndirect (fs.inodes n') ∧ unusedBlocks fs = 0 ∨
      isDirectory (fs.inodes n') = true ∧ blocksNeeded (fs.inodes n') ≤ unusedBlocks fs)
      hparent).symm

end Create

/-- The path `/A` exists, so nothing is created. The parent of `/A/x` is no directory, which is
found behind the initialised inode. -/
theorem create_clean_iff_twoExits :
    (CannotCreate (manyFiles 2) (chars "/A") ∧ ∃ fs',
      createInodeForPath lowest 0 (manyFiles 2) (chars "/A") = some (fs', none) ∧
      fs' = manyFiles 2) ∧
    CannotCreate (manyFiles 2) (chars "/A/x") ∧ ∃ fs',
      createInodeForPath lowest 0 (manyFiles 2) (chars "/A/x") = some (fs', none) ∧
      fs' ≠ manyFiles 2 := by
  have htree : Tree (manyFiles 2) := tree_manyFiles (by decide)
  constructor
  · have hsplit : chars "/A" = 47 :: manyNames 0 := by decide
    have hpath := getInode_manyFiles (show 2 ≤ 128 by decide) two_pos
    rw [← hsplit] at hpath
    have hcannot : CannotCreate (manyFiles 2) (chars "/A") := Or.inl ⟨1, hpath⟩
    obtain ⟨hreturns, hclean⟩ := (create_clean_iff lowest 0 htree (by decide) (by decide)).mpr
      (Or.inl ⟨1, hpath⟩)
    obtain ⟨fs', hfs'⟩ := hreturns hcannot
    exact ⟨hcannot, fs', hfs', hclean fs' hfs'⟩
  · have hpath : getInode (manyFiles 2) (chars "/A/x") = some none := by decide +kernel
    have hparent : parentDirectory (manyFiles 2) (chars "/A/x") =
        some (some ((1 : Nat) : Int), chars "x") := by
      decide +kernel
    have hfile : isDirectory ((manyFiles 2).inodes 1) = false := by decide +kernel
    -- the parent is a file, which is noticed behind `init_inode`
    have hcannot : CannotCreate (manyFiles 2) (chars "/A/x") :=
      Or.inr (Or.inr (Or.inr (Or.inr ⟨1, chars "x", hparent, Or.inl hfile⟩)))
    have hcreate : (createInodeForPath lowest 0 (manyFiles 2) (chars "/A/x")).map Prod.snd =
        some none := by
      decide +kernel
    obtain ⟨⟨fs', r⟩, hcreate, rfl⟩ := Option.map_eq_some_iff.mp hcreate
    refine ⟨hcannot, fs', hcreate, fun hsame => ?_⟩
    have hclean := (create_clean_iff lowest 0 htree
      (show (0 : UInt8) ∉ chars "/A/x" by decide) (by decide)).mp
      ⟨fun _ => ⟨fs', hcreate⟩, fun fs'' hfs'' => by
        rw [← hsame]
        exact (Prod.mk.inj (Option.some.inj (hfs''.symm.trans hcreate))).1⟩
    -- none of the earlier exits is taken
    rcases hclean with ⟨m, hm⟩ | hnone | hname | ⟨n, name, hparent', hreason⟩
    · rw [hpath] at hm
      cases Option.some.inj hm
    · exact absurd hnone (by decide +kernel)
    · exact absurd hname (by decide)
    · rw [hparent] at hparent'
      obtain ⟨hn, -⟩ := Prod.mk.inj (Option.some.inj hparent')
      obtain rfl : 1 = n := Int.ofNat_inj.mp (Option.some.inj hn)
      rw [hfile] at hreason
      rcases hreason with ⟨⟨hneeds, -⟩, -⟩ | ⟨hdir, -⟩
      · exact absurd hneeds (by decide +kernel)
      · cases hdir

/-- With a parent that is a regular file, the call returns `NULL` and leaves an inode in use. -/
theorem not_create_clean_file : ¬ ∀ (p : Picker) (now : Timespec) (fs : FileSystem)
    (path : List UInt8), Tree fs → (0 : UInt8) ∉ path → path.head? = some 47 →
    (CannotCreate fs path → ∃ fs', createInodeForPath p now fs path = some (fs', none)) ∧
      ∀ fs', createInodeForPath p now fs path = some (fs', none) → fs' = fs := by
  intro h
  have hend : (createInodeForPath lowest 0 (manyFiles 2) (chars "/A/x")).map (fun r =>
      (r.2, (r.1.inodes 3).nlink)) = some (none, 1) := by
    decide +kernel
  obtain ⟨⟨fs', r⟩, hcreate, hpair⟩ := Option.map_eq_some_iff.mp hend
  obtain ⟨rfl, hlink⟩ := Prod.mk.inj hpair
  have hsame := (h lowest 0 (manyFiles 2) (chars "/A/x") (tree_manyFiles (by decide))
    (by decide) (by decide)).2 fs' hcreate
  have hbefore : ((manyFiles 2).inodes 3).nlink = 0 := rfl
  rw [hsame] at hlink
  exact absurd (hbefore.symm.trans hlink) zero_ne_one

end SystemProgramming.Minixfs
