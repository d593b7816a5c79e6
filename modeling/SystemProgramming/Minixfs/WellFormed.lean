import Mathlib.Tactic
import SystemProgramming.Minixfs.Files
import SystemProgramming.Minixfs.Entries

/-!
# Well-formed file systems

In a well-formed file system no block is referenced twice, every referenced block is in use,
the size of a live inode does not reach beyond its assigned slots, and every path leads to a
live inode, if to any. The content of a file is the sequence of its bytes, read through its
slots.

## Main definitions

* `WellFormed`
* `content fs node`: the bytes of a file
* `oneFile`: a file system with one file in the root directory

## Main results

* `getBlock_eq`, `block_slot`: `get_block` finds the block of an assigned slot
* `wellFormed_oneFile`
-/

namespace SystemProgramming.Minixfs

/-- **A well-formed file system.** -/
structure WellFormed (fs : FileSystem) : Prop where
  /-- Block numbers are `int`s. -/
  count : fs.dblockCount ≤ 2 ^ 31
  owned : Owned fs
  /-- The size of an inode does not reach beyond its assigned slots. -/
  covered : ∀ n k, fs.Live n → blockSize * k < (fs.inodes n).size →
    ref fs (n, .slot k) ≠ unassignedNode
  /-- What a path leads to is a live inode. -/
  resolves : ∀ path m, getInode fs path = some (some m) →
    ∃ n : Nat, m = n ∧ n < inodesNumber ∧ fs.Live n

/-- The byte `i` of a file. -/
def fileByte (fs : FileSystem) (node : Inode) (i : Nat) : UInt8 :=
  byteAt fs.data (slot node fs.data (i / blockSize)) (i % blockSize)

/-- The content of a file. -/
def content (fs : FileSystem) (node : Inode) : List UInt8 :=
  (List.range node.size).map (fileByte fs node)

section Slots

variable {fs : FileSystem} {node : Inode} {n k : Nat}

@[simp] theorem length_content : (content fs node).length = node.size := by simp [content]

theorem lt_of_slot (h : slot node fs.data k ≠ unassignedNode) :
    k < numDirectBlocks + numIndirectBlocks := by
  by_contra hk
  exact h (slot_of_ge (not_lt.mp hk))

/-- The block of an assigned reference is a data block. -/
theorem block_ref (ho : Owned fs) {x : Nat × Place} (h : ref fs x ≠ unassignedNode) :
    fs.block (ref fs x) = some (ref fs x).toNat :=
  if_pos ⟨(ho.mem x h).1, (ho.mem x h).2.1⟩

/-- `get_block` finds the block of an assigned slot. -/
theorem getBlock_eq (ho : Owned fs) (hlive : fs.Live n)
    (h : ref fs (n, .slot k) ≠ unassignedNode) :
    getBlock fs (fs.inodes n) k = some (ref fs (n, .slot k)) := by
  have hslot : ref fs (n, .slot k) = slot (fs.inodes n) fs.data k := ref_of_live hlive _
  rw [hslot] at h ⊢
  rw [getBlock]
  split_ifs with hk
  · rw [slot_of_lt hk]
  obtain ⟨j, rfl⟩ := Nat.exists_eq_add_of_le (not_lt.mp hk)
  have hj : j < numIndirectBlocks := by
    have hlt := lt_of_slot h
    omega
  have hind : (fs.inodes n).indirect ≠ unassignedNode := fun hind =>
    h (slot_of_unassigned (not_lt.mp hk) hind)
  have hpointer : ref fs (n, .pointer) = (fs.inodes n).indirect := ref_of_live hlive _
  have hmem := ho.mem (n, .pointer) (hpointer ▸ hind)
  rw [hpointer] at hmem
  obtain ⟨c, hc⟩ := Int.eq_ofNat_of_zero_le hmem.1
  have hlt : c < fs.dblockCount := by
    have hhigh := hmem.2.1
    omega
  have hpos : (numIndirectBlocks : Int) * (fs.inodes n).indirect +
      ((numDirectBlocks + j : Nat) - numDirectBlocks : Int) = (numIndirectBlocks * c + j : Nat) := by
    rw [hc]
    push_cast
    omega
  have hroom : numIndirectBlocks * c + j < numIndirectBlocks * fs.dblockCount := by
    simp only [numIndirectBlocks] at *
    omega
  rw [slot_add hj hind, indirects, hpos, if_pos ⟨by omega, by exact_mod_cast hroom⟩, hc]
  rfl

/-- A file has at most `4107` blocks. -/
theorem WellFormed.size_le (h : WellFormed fs) (hlive : fs.Live n) :
    (fs.inodes n).size ≤ maxSize := by
  by_contra hlarge
  have hassigned := h.covered n (numDirectBlocks + numIndirectBlocks) hlive
    (by rw [maxSize] at hlarge; rw [Nat.mul_comm]; omega)
  rw [ref_of_live hlive] at hassigned
  exact hassigned (slot_of_ge le_rfl)

end Slots

/-! ## One file -/

/-- The only entry of the root directory, at the beginning of its block `0`, is the file `1`. -/
structure OneEntry (fs : FileSystem) : Prop where
  blocks : 0 < fs.dblockCount
  live : ∀ n, fs.Live n ↔ n = 0 ∨ n = 1
  root : isDirectory (fs.inodes 0) = true
  size : (fs.inodes 0).size = fileNameEntry
  direct : (fs.inodes 0).direct 0 = 0
  file : isDirectory (fs.inodes 1) = false
  number : makeDirentFromString fs.data 0 = some ⟨0, 1⟩

namespace OneEntry

variable {fs : FileSystem}

/-- The file is found under its name and no other. -/
theorem findInodeNamed (h : OneEntry fs) (tok : List UInt8) :
    findInodeNamed fs (fs.inodes 0) tok = some (if nameIs fs.data 0 tok then some 1 else none) := by
  have hslot : slot (fs.inodes 0) fs.data 0 = (0 : Nat) :=
    (slot_of_lt (by decide)).trans h.direct
  have hdir : Directory fs (fs.inodes 0) 1 := by
    refine ⟨h.size, by decide, fun q hq => ?_, fun h => absurd h (by decide)⟩
    have hq0 : q = 0 := by
      simp only [blockEntries, blockSize, fileNameEntry] at hq
      omega
    rw [hq0, hslot]
    exact ⟨by decide, 0, rfl, h.blocks⟩
  have haddr : entryAddr fs (fs.inodes 0) 0 = 0 := by
    simpa using entryAddr_add (q := 0) (i := 0) (by decide) hslot
  have hfind := findInodeNamed_eq hdir tok (Or.inr (by rw [haddr, h.number]; rfl))
  rw [hfind, List.range_one, List.findSome?_singleton, haddr, hit, h.number, Option.bind_some]

/-- A walk ends at the root, at the file, or nowhere. -/
theorem getInode (h : OneEntry fs) (path : List UInt8) :
    getInode fs path = some (some 0) ∨ getInode fs path = some (some 1) ∨
      getInode fs path = some none := by
  have h₀ : inode? 0 = some 0 := rfl
  have h₁ : inode? 1 = some 1 := rfl
  cases path with
  | nil =>
    rw [Minixfs.getInode]
    exact Or.inl rfl
  | cons c path =>
    rw [Minixfs.getInode]
    split_ifs
    · exact Or.inr (Or.inr rfl)
    cases tokens (c :: path) with
    | nil =>
      rw [walk]
      exact Or.inl rfl
    | cons tok toks =>
      have hfind := h.findInodeNamed tok
      split_ifs at hfind
      · rw [walk_of_some h₀ h.root hfind]
        cases toks with
        | nil =>
          rw [walk]
          exact Or.inr (Or.inl rfl)
        | cons tok toks =>
          rw [walk_of_file h₁ h.file]
          exact Or.inr (Or.inr rfl)
      · rw [walk_of_none h₀ h.root hfind]
        exact Or.inr (Or.inr rfl)

/-- The path of the file. -/
theorem getInode_name (h : OneEntry fs) {name : List UInt8} {num : Nat}
    (hentry : EntryAt fs.data 0 name num) (hvalid : validFilename name = true) :
    Minixfs.getInode fs (47 :: name) = some (some 1) := by
  have h₀ : inode? 0 = some 0 := rfl
  have hfind := h.findInodeNamed name
  have hslash : tokens [47] = [] := by decide
  have htokens : tokens (47 :: name) = [name] := by
    have hsnoc := tokens_snoc [] hvalid
    rwa [List.nil_append, List.nil_append, hslash, List.nil_append] at hsnoc
  rw [(hentry.nameIs hentry.nonzero).mpr rfl, if_pos rfl] at hfind
  rw [Minixfs.getInode, if_neg (fun h => h rfl), htokens, walk_of_some h₀ h.root hfind, walk]

/-- Every path leads to a live inode, if to any. -/
theorem resolves (h : OneEntry fs) (path : List UInt8) (m : Int)
    (hm : Minixfs.getInode fs path = some (some m)) :
    ∃ n : Nat, m = n ∧ n < inodesNumber ∧ fs.Live n := by
  rcases h.getInode path with hroot | hfile | hnone
  · rw [hroot] at hm
    obtain rfl := Option.some.inj (Option.some.inj hm)
    exact ⟨0, rfl, by decide, (h.live 0).mpr (Or.inl rfl)⟩
  · rw [hfile] at hm
    obtain rfl := Option.some.inj (Option.some.inj hm)
    exact ⟨1, rfl, by decide, (h.live 1).mpr (Or.inr rfl)⟩
  · rw [hnone] at hm
    cases hm

end OneEntry

/-- A file system of two blocks with one file, of one block at most, in the root directory. -/
def oneFile (name bytes : List UInt8) : FileSystem where
  dblockCount := 2
  inodes := fun n =>
    if n = 0 then { rootInode 0 with
      size := fileNameEntry
      direct := fun i => if i = 0 then 0 else unassignedNode }
    else if n = 1 then { initInode 0 (rootInode 0) with
      size := bytes.length
      direct := fun i => if i = 0 then 1 else unassignedNode }
    else blankInode
  data := (makeStringFromDirent Memory.zero 0 name 1).write blockSize bytes
  map := fun b => b < 2

section OneFile

variable {name bytes : List UInt8}

theorem live_oneFile {n : Nat} : (oneFile name bytes).Live n ↔ n = 0 ∨ n = 1 := by
  rw [FileSystem.Live, oneFile]
  dsimp only
  split_ifs with h₀ h₁
  · exact iff_of_true one_ne_zero (Or.inl h₀)
  · exact iff_of_true one_ne_zero (Or.inr h₁)
  · exact iff_of_false (fun h => h rfl) (not_or.mpr ⟨h₀, h₁⟩)

theorem ref_oneFile (x : Nat × Place) :
    ref (oneFile name bytes) x =
      if x = (0, .slot 0) then 0 else if x = (1, .slot 0) then 1 else unassignedNode := by
  obtain ⟨n, y⟩ := x
  by_cases hlive : (oneFile name bytes).Live n
  · rw [ref_of_live hlive]
    have hind : ((oneFile name bytes).inodes n).indirect = unassignedNode := by
      rcases live_oneFile.mp hlive with rfl | rfl <;> rfl
    cases y with
    | pointer =>
      have hne : ∀ j, ((n, .pointer) : Nat × Place) ≠ (j, .slot 0) := fun j h => by cases h
      rw [if_neg (hne 0), if_neg (hne 1)]
      exact hind
    | slot k =>
      by_cases hk : k < numDirectBlocks
      · refine (slot_of_lt hk).trans ?_
        rcases live_oneFile.mp hlive with rfl | rfl <;> simp [oneFile]
      · refine (slot_of_unassigned (not_lt.mp hk) hind).trans ?_
        have hne : k ≠ 0 := fun h => hk (h ▸ by decide)
        simp [hne]
  · rw [ref_of_dead hlive]
    have hne := not_or.mp (mt live_oneFile.mpr hlive)
    simp [hne.1, hne.2]

theorem ref_oneFile_cases {x : Nat × Place} (h : ref (oneFile name bytes) x ≠ unassignedNode) :
    x = (0, .slot 0) ∧ ref (oneFile name bytes) x = 0 ∨
      x = (1, .slot 0) ∧ ref (oneFile name bytes) x = 1 := by
  rw [ref_oneFile] at h ⊢
  split_ifs at h ⊢ with h₀ h₁
  · exact Or.inl ⟨h₀, rfl⟩
  · exact Or.inr ⟨h₁, rfl⟩
  · exact absurd rfl h

theorem owned_oneFile : Owned (oneFile name bytes) := by
  refine ⟨fun x y hx hxy => ?_, fun x hx => ?_⟩
  · rcases ref_oneFile_cases hx with ⟨rfl, hx'⟩ | ⟨rfl, hx'⟩ <;>
      rcases ref_oneFile_cases (hxy ▸ hx) with ⟨rfl, hy'⟩ | ⟨rfl, hy'⟩
    · rfl
    · omega
    · omega
    · rfl
  · rcases ref_oneFile_cases hx with ⟨-, hx'⟩ | ⟨-, hx'⟩
    · rw [hx']
      exact ⟨le_rfl, two_pos, rfl⟩
    · rw [hx']
      exact ⟨zero_le_one, one_lt_two, rfl⟩

/-- The bytes of the file are outside of the entry. -/
theorem entryAt_oneFile (hfits : name.length < fileNameLength) (hzero : (0 : UInt8) ∉ name) :
    EntryAt (oneFile name bytes).data 0 name 1 := by
  refine (entryAt_makeString Memory.zero 0 hfits hzero one_pos (by decide)).copy fun i hi => ?_
  refine Memory.write_of_not_mem ?_
  simp only [fileNameEntry, blockSize] at *
  omega

theorem oneEntry_oneFile (hentry : EntryAt (oneFile name bytes).data 0 name 1) :
    OneEntry (oneFile name bytes) := by
  have hroot : isDirectory (rootInode 0) = true := by decide
  have hfile : isDirectory (initInode 0 (rootInode 0)) = false := by decide
  exact ⟨two_pos, fun n => live_oneFile, hroot, rfl, rfl, hfile, hentry.number⟩

/-- The content of the file. -/
theorem content_oneFile (hlen : bytes.length ≤ blockSize) :
    content (oneFile name bytes) ((oneFile name bytes).inodes 1) = bytes := by
  have hsize : ((oneFile name bytes).inodes 1).size = bytes.length := rfl
  have hslot : slot ((oneFile name bytes).inodes 1) (oneFile name bytes).data 0 = (1 : Nat) :=
    slot_of_lt (by decide)
  refine List.ext_getElem (by rw [length_content, hsize]) fun i hi hi' => ?_
  have hdiv : i / blockSize = 0 := Nat.div_eq_of_lt (lt_of_lt_of_le hi' hlen)
  have hmod : i % blockSize = i := Nat.mod_eq_of_lt (lt_of_lt_of_le hi' hlen)
  have hbyte : (oneFile name bytes).data (blockSize + i) = bytes.getD i 0 := by
    refine (Memory.write_of_mem (by omega)).trans ?_
    rw [Nat.add_sub_cancel_left]
  simp only [content, List.getElem_map, List.getElem_range]
  rw [fileByte, hdiv, hmod, hslot, byteAt, Int.toNat_natCast, Nat.mul_one, hbyte,
    List.getD_eq_getElem _ _ hi']

theorem wellFormed_oneFile (hentry : EntryAt (oneFile name bytes).data 0 name 1)
    (hlen : bytes.length ≤ blockSize) : WellFormed (oneFile name bytes) := by
  refine ⟨by simp [oneFile], owned_oneFile, fun n k hlive hk => ?_,
    (oneEntry_oneFile hentry).resolves⟩
  have hk0 : k = 0 := by
    rcases live_oneFile.mp hlive with rfl | rfl
    · have hsize : ((oneFile name bytes).inodes 0).size = fileNameEntry := rfl
      rw [hsize] at hk
      simp only [blockSize, fileNameEntry] at hk
      omega
    · have hsize : ((oneFile name bytes).inodes 1).size = bytes.length := rfl
      rw [hsize] at hk
      simp only [blockSize] at hk hlen
      omega
  rw [hk0, ref_oneFile]
  rcases live_oneFile.mp hlive with rfl | rfl <;> simp [unassignedNode]

end OneFile

end SystemProgramming.Minixfs
