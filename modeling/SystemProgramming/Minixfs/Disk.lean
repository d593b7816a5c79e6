import Mathlib.Tactic
import SystemProgramming.Foundation.Bytes

/-!
# The disk of `minixfs`

A mounted file system is an array of inodes, an array of data blocks and a data map that
holds one entry for each data block. The blocks lie one after the other in memory, so
`data` is the memory from `data_root` on: block `b` begins at the byte `16384 * b`, and the
integer at position `k` of the region, `4096` to a block, begins at the byte `4 * k`. A
block number is an `int`, and `-1` stands for an unassigned slot.

`first_unused_data` tosses a coin for every unused block it passes, so it may return any of
them. `firstUnusedData` is its loop, for given tosses; a `Picker` is a choice it can make in
every state. Within one operation the data map grows from one call to the next, so a
function of the state covers every sequence of choices of the operation.

## Main definitions

* `Inode`, `FileSystem`: the records of `minixfs.h`
* `entry`, `setEntry`: the integers of an indirect block
* `setDataUsed`, `getDataUsed`, `firstUnusedInode`, `firstUnusedData`
* `initInode`, `minixfsMkfs`

## Main results

* `firstUnusedData_spec`, `exists_toss`: the values `first_unused_data` may return
* `entry_setEntry`, `entry_setEntry_of_ne`: an entry reads back as written
-/

namespace SystemProgramming.Minixfs

open Memory (load store)

/-! ## Constants -/

def inodesNumber : Nat := 1024

def dataNumber : Nat := 2048

/-- `sizeof(data_block)`. -/
def blockSize : Nat := 16384

def numDirectBlocks : Nat := 11

/-- `sizeof(data_block) / sizeof(data_block_number)`. -/
def numIndirectBlocks : Nat := 4096

def unassignedNode : Int := -1

def rwxBitsNumber : Nat := 9

def typeFile : BitVec 16 := 1

def typeDirectory : BitVec 16 := 2

/-! ## Inodes and the file system -/

/-- A time, as `clock_gettime` delivers it. -/
abbrev Timespec := Nat

structure Inode where
  uid : BitVec 32
  gid : BitVec 32
  mode : BitVec 16
  nlink : Nat
  atim : Timespec
  mtim : Timespec
  ctim : Timespec
  size : Nat
  direct : Nat → Int
  indirect : Int

structure FileSystem where
  /-- `meta->dblock_count`. -/
  dblockCount : Nat
  /-- `inode_root[n]`. -/
  inodes : Nat → Inode
  /-- The memory from `data_root` on. -/
  data : Memory
  /-- `GET_DATA_MAP(meta)[b]`. -/
  map : Nat → Bool

/-- `mode >> RWX_BITS_NUMBER`. -/
def Inode.type (node : Inode) : BitVec 16 := node.mode >>> rwxBitsNumber

def isFile (node : Inode) : Bool := node.type == typeFile

def isDirectory (node : Inode) : Bool := node.type == typeDirectory

/-- An inode is in use as long as something links to it. -/
def FileSystem.Live (fs : FileSystem) (n : Nat) : Prop := (fs.inodes n).nlink ≠ 0

namespace FileSystem

def setInode (fs : FileSystem) (n : Nat) (node : Inode) : FileSystem :=
  { fs with inodes := Function.update fs.inodes n node }

@[simp] theorem setInode_self (fs : FileSystem) (n : Nat) (node : Inode) :
    (fs.setInode n node).inodes n = node := Function.update_self ..

@[simp] theorem setInode_of_ne (fs : FileSystem) {n j : Nat} (node : Inode) (h : j ≠ n) :
    (fs.setInode n node).inodes j = fs.inodes j := Function.update_of_ne h ..

/-- `set_data_used`. -/
def setDataUsed (fs : FileSystem) (b : Int) (used : Bool) : FileSystem :=
  if 0 ≤ b ∧ b < fs.dblockCount then
    { fs with map := Function.update fs.map b.toNat used }
  else fs

/-- `get_data_used`, with `-1` outside the map. -/
def getDataUsed (fs : FileSystem) (b : Int) : Int :=
  if 0 ≤ b ∧ b < fs.dblockCount then if fs.map b.toNat then 1 else 0 else unassignedNode

/-- `fs->data_root + b`, where it points to a data block. -/
def block (fs : FileSystem) (b : Int) : Option Nat :=
  if 0 ≤ b ∧ b < fs.dblockCount then some b.toNat else none

/-- `memset(fs->data_root + b, 0, sizeof(data_block))`. -/
def clear (fs : FileSystem) (b : Int) : Option FileSystem :=
  (fs.block b).map fun b => { fs with data := fs.data.fill (blockSize * b) 0 blockSize }

end FileSystem

/-! ## Integers in data blocks -/

/-- The `int` with the given bits. -/
def ofBits (u : Nat) : Int := if u < 2 ^ 31 then u else u - 2 ^ 32

/-- The `int` at position `k`. -/
def entry (data : Memory) (k : Nat) : Int := ofBits (load data (4 * k) 4)

def setEntry (data : Memory) (k : Nat) (v : Int) : Memory :=
  store data (4 * k) 4 (v % 2 ^ 32).toNat

section Entries

variable {data data' : Memory} {k j : Nat} {v : Int}

theorem entry_setEntry (hlow : -2 ^ 31 ≤ v) (hhigh : v < 2 ^ 31) :
    entry (setEntry data k v) k = v := by
  have hlt : (v % 2 ^ 32).toNat < 256 ^ 4 := by omega
  have hcast : ((v % 2 ^ 32).toNat : Int) = v % 2 ^ 32 := Int.toNat_of_nonneg (by omega)
  rw [entry, setEntry, Memory.load_store_of_lt _ _ hlt, ofBits, hcast]
  split_ifs <;> omega

theorem entry_setEntry_of_ne (h : k ≠ j) : entry (setEntry data k v) j = entry data j := by
  have hdisjoint : 4 * k + 4 ≤ 4 * j ∨ 4 * j + 4 ≤ 4 * k := by omega
  rw [entry, entry, setEntry, Memory.load_store_of_disjoint hdisjoint]

theorem entry_congr (h : ∀ a, 4 * k ≤ a → a < 4 * k + 4 → data a = data' a) :
    entry data k = entry data' k := by
  rw [entry, entry, Memory.load_congr h]

/-- Bytes outside an entry are not written with it. -/
theorem setEntry_of_not_mem {a : Nat} (h : ¬ (4 * k ≤ a ∧ a < 4 * k + 4)) :
    setEntry data k v a = data a :=
  Memory.store_of_not_mem h

end Entries

/-! ## Unused inodes and blocks -/

/-- `first_unused_inode`, with `none` for `-1`. -/
def firstUnusedInode (fs : FileSystem) : Option Nat :=
  (List.range' 1 (inodesNumber - 1)).find? fun i => (fs.inodes i).nlink = 0

theorem not_live_firstUnusedInode {fs : FileSystem} {n : Nat} (h : firstUnusedInode fs = some n) :
    ¬ fs.Live n := by
  have hunused := List.find?_some h
  rw [decide_eq_true_eq] at hunused
  exact not_not.mpr hunused

/-- `first_unused_data`, for given values of `rand() % 2` in each pass over the data map; the
last argument bounds the number of passes. -/
def firstUnusedData (fs : FileSystem) (toss : Nat → Nat → Bool) : Nat → Option Int
  | 0 => none
  | passes + 1 =>
    match (List.range fs.dblockCount).find? fun i => !fs.map i && toss 0 i with
    | some i => some i
    | none =>
      if (List.range fs.dblockCount).countP fs.map < fs.dblockCount then
        firstUnusedData fs (fun pass => toss (pass + 1)) passes
      else some unassignedNode

/-- A value that `first_unused_data` may return: an unused block, or `-1` when there is
none. -/
def FirstUnused (fs : FileSystem) (r : Int) : Prop :=
  (∃ b : Nat, r = b ∧ b < fs.dblockCount ∧ fs.map b = false) ∨
    (r = unassignedNode ∧ ∀ b < fs.dblockCount, fs.map b = true)

section FirstUnused

variable {fs : FileSystem} {toss : Nat → Nat → Bool} {passes : Nat} {r : Int}

theorem firstUnusedData_spec (h : firstUnusedData fs toss passes = some r) :
    FirstUnused fs r := by
  induction passes generalizing toss with
  | zero => cases h
  | succ passes ih =>
    rw [firstUnusedData] at h
    cases hfind : (List.range fs.dblockCount).find? fun i => !fs.map i && toss 0 i with
    | some i =>
      have hi := List.find?_some hfind
      have hmem := List.mem_of_find?_eq_some hfind
      simp only [Bool.and_eq_true, Bool.not_eq_true'] at hi
      simp only [hfind] at h
      exact Or.inl ⟨i, (Option.some.inj h).symm, List.mem_range.mp hmem, hi.1⟩
    | none =>
      simp only [hfind] at h
      split_ifs at h with hlt
      · exact ih h
      · -- every entry of the map was counted
        have hle := List.countP_le_length (p := fs.map) (l := List.range fs.dblockCount)
        have hall : (List.range fs.dblockCount).countP fs.map =
            (List.range fs.dblockCount).length := by
          rw [List.length_range] at hle ⊢
          omega
        exact Or.inr ⟨(Option.some.inj h).symm, fun b hb =>
          List.countP_eq_length.mp hall b (List.mem_range.mpr hb)⟩

/-- Every unused block is returned for some tosses. -/
theorem exists_toss (h : FirstUnused fs r) : ∃ toss, firstUnusedData fs toss 1 = some r := by
  rcases h with ⟨b, rfl, hb, hfree⟩ | ⟨rfl, hfull⟩
  · refine ⟨fun _ i => i == b, ?_⟩
    have hfind : (List.range fs.dblockCount).find? (fun i => !fs.map i && i == b) = some b := by
      rw [List.find?_range_eq_some]
      refine ⟨by simp [hfree], List.mem_range.mpr hb, fun j hj => ?_⟩
      simp [hj.ne]
    simp only [firstUnusedData, hfind]
  · refine ⟨fun _ _ => true, ?_⟩
    have hfind : (List.range fs.dblockCount).find? (fun i => !fs.map i && true) = none := by
      rw [List.find?_eq_none]
      intro i hi
      simp [hfull i (List.mem_range.mp hi)]
    have hcount : (List.range fs.dblockCount).countP fs.map = fs.dblockCount := by
      conv_rhs => rw [← List.length_range (n := fs.dblockCount)]
      exact List.countP_eq_length.mpr fun b hb => hfull b (List.mem_range.mp hb)
    simp only [firstUnusedData, hfind, hcount, lt_irrefl, if_false]

end FirstUnused

/-- What `first_unused_data` returns in each state. -/
structure Picker where
  pick : FileSystem → Int
  spec : ∀ fs, FirstUnused fs (pick fs)

/-- The picker that takes the first unused block. -/
def lowest : Picker where
  pick fs := ((List.range' 0 fs.dblockCount).find? fun b => !fs.map b).elim unassignedNode (↑)
  spec fs := by
    rw [← List.range_eq_range']
    cases hfind : (List.range fs.dblockCount).find? fun b => !fs.map b with
    | some b =>
      exact Or.inl ⟨b, rfl, List.mem_range.mp (List.mem_of_find?_eq_some hfind),
        by simpa using List.find?_some hfind⟩
    | none =>
      refine Or.inr ⟨rfl, fun b hb => ?_⟩
      simpa using List.find?_eq_none.mp hfind b (List.mem_range.mpr hb)

/-! ## New inodes and new file systems -/

/-- `init_inode(parent, init)`, at the time `now`. -/
def initInode (now : Timespec) (parent : Inode) : Inode where
  uid := parent.uid
  gid := parent.gid
  mode := (typeFile <<< rwxBitsNumber) ||| (parent.mode &&& 0o777)
  nlink := 1
  atim := now
  mtim := now
  ctim := now
  size := 0
  direct _ := unassignedNode
  indirect := unassignedNode

/-- An inode of a file of zeros. -/
def blankInode : Inode where
  uid := 0
  gid := 0
  mode := 0
  nlink := 0
  atim := 0
  mtim := 0
  ctim := 0
  size := 0
  direct _ := 0
  indirect := 0

/-- The root directory as `minixfs_mkfs` sets it up. -/
def rootInode (now : Timespec) : Inode where
  uid := 0
  gid := 0
  mode := 0o755 ||| (typeDirectory <<< rwxBitsNumber)
  nlink := 1
  atim := now
  mtim := now
  ctim := now
  size := 0
  direct _ := unassignedNode
  indirect := unassignedNode

/-- `minixfs_mkfs`, at the time `now`. -/
def minixfsMkfs (now : Timespec) : FileSystem where
  dblockCount := dataNumber
  inodes := Function.update (fun _ => blankInode) 0 (rootInode now)
  data := Memory.zero
  map _ := false

@[simp] theorem minixfsMkfs_root (now : Timespec) :
    (minixfsMkfs now).inodes 0 = rootInode now := by
  simp only [minixfsMkfs, Function.update_self]

@[simp] theorem minixfsMkfs_of_ne (now : Timespec) {n : Nat} (h : n ≠ 0) :
    (minixfsMkfs now).inodes n = blankInode := by
  simp only [minixfsMkfs, Function.update_of_ne h]

end SystemProgramming.Minixfs
