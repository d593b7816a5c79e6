import Mathlib.Tactic
import SystemProgramming.Minixfs.Disk

/-!
# Allocating data blocks

The slots of an inode, in their order: `11` direct slots, then the `4096` entries of the
indirect block, once there is one. The two `add_data_block` functions search for the first
free slot and fill it with an unused block; `minixfs_min_blockcount` walks over the slots
it is asked for, adds a block wherever a slot is free, and clears the block in the slot it
looked at.

## Main definitions

* `slot node data k`: the block number in slot `k` of an inode
* `addDataBlockToInode`, `addDataBlockToIndirectBlock`, `addSingleIndirectBlock`
* `minBlockcount`: `minixfs_min_blockcount`, once the path has been looked up
-/

namespace SystemProgramming.Minixfs

/-- The block number in slot `k` of an inode. -/
def slot (node : Inode) (data : Memory) (k : Nat) : Int :=
  if k < numDirectBlocks then node.direct k
  else if k < numDirectBlocks + numIndirectBlocks ∧ node.indirect ≠ unassignedNode then
    entry data (numIndirectBlocks * node.indirect.toNat + (k - numDirectBlocks))
  else unassignedNode

/-- The first unassigned slot of an array of `m` block numbers. -/
def firstFree (blocks : Nat → Int) (m : Nat) : Option Nat :=
  (List.range m).find? fun i => blocks i = unassignedNode

/-- The two `add_data_block` functions, for the slot that their search found: the new state and
the returned value. -/
def addDataBlock (p : Picker) (fs : FileSystem) (put : Nat → Int → FileSystem) :
    Option Nat → FileSystem × Int
  | none => (fs, 0)
  | some i =>
    let firstData := p.pick fs
    if firstData = -1 then (fs, -1)
    else ((put i firstData).setDataUsed firstData true, firstData)

/-- `node->direct[i] = b`. -/
def Inode.setDirect (node : Inode) (i : Nat) (b : Int) : Inode :=
  { node with direct := Function.update node.direct i b }

/-- `add_data_block_to_inode`. -/
def addDataBlockToInode (p : Picker) (fs : FileSystem) (n : Nat) : FileSystem × Int :=
  addDataBlock p fs (fun i b => fs.setInode n ((fs.inodes n).setDirect i b))
    (firstFree (fs.inodes n).direct numDirectBlocks)

/-- `add_data_block_to_indirect_block`, for the array of entries at position `blocks` of the
data region. -/
def addDataBlockToIndirectBlock (p : Picker) (fs : FileSystem) (blocks : Nat) :
    FileSystem × Int :=
  addDataBlock p fs (fun i b => { fs with data := setEntry fs.data (blocks + i) b })
    (firstFree (fun i => entry fs.data (blocks + i)) numIndirectBlocks)

/-- The loop of `add_single_indirect_block` that empties a new indirect block. -/
def unassignEntries (data : Memory) (blocks : Nat) : Memory :=
  (List.range numIndirectBlocks).foldl
    (fun data i => setEntry data (blocks + i) unassignedNode) data

/-- `add_single_indirect_block`. -/
def addSingleIndirectBlock (p : Picker) (fs : FileSystem) (n : Nat) : FileSystem × Int :=
  let node := fs.inodes n
  if node.indirect ≠ unassignedNode then (fs, 0)
  else
    let firstData := p.pick fs
    if firstData = -1 then (fs, -1)
    else
      let fs := (fs.setInode n { node with indirect := firstData, nlink := 1 }).setDataUsed
        firstData true
      let data := unassignEntries fs.data (numIndirectBlocks * firstData.toNat)
      ({ fs with data := data }, 0)

/-- A loop of `minixfs_min_blockcount` over the slots `is` of the array `blockArray`, with
`add` to fill a slot. -/
def fillSlots (blockArray : FileSystem → Nat → Int) (add : FileSystem → FileSystem × Int) :
    List Nat → FileSystem → Option (FileSystem × Int)
  | [], fs => some (fs, 0)
  | i :: is, fs =>
    if blockArray fs i = -1 then
      let (fs, err) := add fs
      if err = -1 then some (fs, -1)
      else (fs.clear (blockArray fs i)).bind (fillSlots blockArray add is)
    else fillSlots blockArray add is fs

/-- The loop over the first `m` direct slots. -/
def fillDirect (p : Picker) (n m : Nat) : FileSystem → Option (FileSystem × Int) :=
  fillSlots (fun fs i => (fs.inodes n).direct i) (addDataBlockToInode p · n) (List.range m)

/-- The loop over the first `m` entries of the indirect block at position `blocks`. -/
def fillIndirect (p : Picker) (blocks m : Nat) : FileSystem → Option (FileSystem × Int) :=
  fillSlots (fun fs i => entry fs.data (blocks + i)) (addDataBlockToIndirectBlock p · blocks)
    (List.range m)

/-- `minixfs_min_blockcount` for the inode `n`: the new state and the returned value. -/
def minBlockcount (p : Picker) (fs : FileSystem) (n : Nat) (blockCount : Int) :
    Option (FileSystem × Int) :=
  if blockCount < numDirectBlocks then fillDirect p n blockCount.toNat fs
  else do
    let (fs, err) ← fillDirect p n numDirectBlocks fs
    if err = -1 then return (fs, -1)
    let (fs, err) := addSingleIndirectBlock p fs n
    if err = -1 then return (fs, -1)
    let b ← fs.block (fs.inodes n).indirect
    fillIndirect p (numIndirectBlocks * b) (blockCount - numDirectBlocks).toNat fs

end SystemProgramming.Minixfs
