import Mathlib.Tactic
import SystemProgramming.Minixfs.Blocks
import SystemProgramming.Minixfs.Paths

/-!
# The operations of `minixfs`

An operation gives the new state, the returned value and, where there is one, the new
offset. It has no result where the code dereferences `NULL`, reads a variable that is not
initialised, or follows an inode number or a block number outside of the arrays.

## Main definitions

* `createInodeForPath`, `minixfsMkdir`, `minixfsUnlink`
* `minixfsChmod`, `minixfsChown`
* `minBlockcountAt`: `minixfs_min_blockcount`
* `minixfsWrite`, `minixfsRead`, `minixfsVirtualRead`
-/

namespace SystemProgramming.Minixfs

/-- The conversion of a `size_t` to `int`. -/
def toInt (x : Nat) : Int := ofBits (x % 2 ^ 32)

/-- `get_indirects(fs, node)[j]`, anywhere in the data region. -/
def indirects (fs : FileSystem) (indirect j : Int) : Option Int :=
  let k := numIndirectBlocks * indirect + j
  if 0 ≤ k ∧ k < numIndirectBlocks * fs.dblockCount then some (entry fs.data k.toNat) else none

/-- `node->direct[j]`. -/
def direct? (node : Inode) (j : Int) : Option Int :=
  if 0 ≤ j ∧ j < numDirectBlocks then some (node.direct j.toNat) else none

/-! ## Creating files -/

/-- The first step of `minixfs_create_inode_for_path`: an indirect block for a parent `n` whose
direct slots are full. -/
def reserveIndirect (p : Picker) (fs : FileSystem) (n : Nat) (numBlocks : Int) :
    FileSystem × Int :=
  if numBlocks ≥ numDirectBlocks ∧ (fs.inodes n).indirect = unassignedNode then
    addSingleIndirectBlock p fs n
  else (fs, 0)

/-- The block that receives the new entry: the new state, and the block number or `none` where
the function gives up. -/
def entryBlock (p : Picker) (fs : FileSystem) (n : Nat) (numBlocks : Int) (rem : Nat) :
    Option (FileSystem × Option Int) :=
  let parent := fs.inodes n
  if rem ≠ 0 then
    if parent.indirect = unassignedNode then
      (direct? parent numBlocks).map fun b => (fs, some b)
    else (indirects fs parent.indirect (numBlocks - numDirectBlocks)).map fun b => (fs, some b)
  else if parent.indirect = unassignedNode then
    let (fs, newDbIdx) := addDataBlockToInode p fs n
    some (fs, if newDbIdx = -1 then none else some newDbIdx)
  else
    (fs.block parent.indirect).map fun b =>
      let (fs, newDbIdx) := addDataBlockToIndirectBlock p fs (numIndirectBlocks * b)
      (fs, if newDbIdx = -1 then none else some newDbIdx)

/-- The last step: the new entry at the beginning of the block, and the new size of the
parent. -/
def putEntry (fs : FileSystem) (n newNodeIdx : Nat) (name : List UInt8) (reqDataBlock : Int) :
    Option (FileSystem × Option Nat) :=
  (fs.block reqDataBlock).map fun b =>
    let data := makeStringFromDirent fs.data (blockSize * b) name newNodeIdx
    let parent := { fs.inodes n with size := ((fs.inodes n).size + fileNameEntry) % 2 ^ 64 }
    ({ fs.setInode n parent with data := data }, some newNodeIdx)

/-- `minixfs_create_inode_for_path`, from where the parent `n` is known. -/
def createIn (p : Picker) (now : Timespec) (fs : FileSystem) (n newNodeIdx : Nat)
    (name : List UInt8) : Option (FileSystem × Option Nat) :=
  let numBlocks := toInt ((fs.inodes n).size / blockSize)
  let rem := (fs.inodes n).size % blockSize
  let (fs, tryAddIndirect) := reserveIndirect p fs n numBlocks
  if tryAddIndirect = -1 then some (fs, none)
  else do
    let fs := fs.setInode newNodeIdx (initInode now (fs.inodes n))
    let (fs, reqDataBlock) ← entryBlock p fs n numBlocks rem
    match reqDataBlock with
    | none => some (fs, none)
    | some reqDataBlock => putEntry fs n newNodeIdx name reqDataBlock

/-- `minixfs_create_inode_for_path`: the new state, and the number of the new inode or `none`
for `NULL`. -/
def createInodeForPath (p : Picker) (now : Timespec) (fs : FileSystem) (path : List UInt8) :
    Option (FileSystem × Option Nat) := do
  if (← getInode fs path).isSome then return (fs, none)
  match firstUnusedInode fs with
  | none => return (fs, none)
  | some newNodeIdx =>
    let (parent, name) ← parentDirectory fs path
    if !validFilename name then return (fs, none)
    createIn p now fs (← inode? (← parent)) newNodeIdx name

/-- `minixfs_mkdir`. -/
def minixfsMkdir (p : Picker) (now : Timespec) (fs : FileSystem) (path : List UInt8)
    (mode : BitVec 32) : Option (FileSystem × Int) := do
  match ← createInodeForPath p now fs path with
  | (fs, none) => return (fs, -1)
  | (fs, some n) =>
    let node := fs.inodes n
    let oldbits := node.mode &&& 0o777
    let newMode := (typeDirectory <<< rwxBitsNumber) ||| oldbits ||| mode.truncate 16
    return (fs.setInode n { node with mode := newMode }, 0)

/-! ## Permissions and owners -/

/-- `minixfs_chmod`. The permissions and the type are joined as `int`s, and the mode keeps the
low half. -/
def minixfsChmod (now : Timespec) (fs : FileSystem) (path : List UInt8)
    (newPermissions : BitVec 32) : Option (FileSystem × Int) := do
  match ← getInode fs path with
  | none => return (fs, -1)
  | some n =>
    let i ← inode? n
    let node := fs.inodes i
    let type : BitVec 32 := node.type.zeroExtend 32
    let newMode := (newPermissions ||| (type <<< rwxBitsNumber)).truncate 16
    return (fs.setInode i { node with mode := newMode, ctim := now }, 0)

/-- `minixfs_chown`. -/
def minixfsChown (now : Timespec) (fs : FileSystem) (path : List UInt8)
    (owner group : BitVec 32) : Option (FileSystem × Int) := do
  match ← getInode fs path with
  | none => return (fs, -1)
  | some n =>
    let i ← inode? n
    let node := fs.inodes i
    let node := if owner ≠ -1 then { node with uid := owner } else node
    let node := if group ≠ -1 then { node with gid := group } else node
    return (fs.setInode i { node with ctim := now }, 0)

/-! ## Writing and reading -/

/-- `minixfs_min_blockcount`. -/
def minBlockcountAt (p : Picker) (now : Timespec) (fs : FileSystem) (path : List UInt8)
    (blockCount : Int) : Option (FileSystem × Int) := do
  match ← getInode fs path with
  | some n => minBlockcount p fs (← inode? n) blockCount
  | none =>
    match ← createInodeForPath p now fs path with
    | (fs, none) => return (fs, -1)
    | (fs, some n) => minBlockcount p fs n blockCount

/-- `get_block`: the number of the block, wherever it points to. -/
def getBlock (fs : FileSystem) (node : Inode) (bIdx : Nat) : Option Int :=
  if bIdx < numDirectBlocks then some (node.direct bIdx)
  else indirects fs node.indirect (bIdx - numDirectBlocks)

/-- `memcpy(blk + bOff, bs, n)`, for a pointer `blk` to a data block; copying nothing does not
look at the pointer. -/
def copyTo (fs : FileSystem) (blk : Option Int) (bOff : Nat) (bs : List UInt8) :
    Option FileSystem :=
  if bs = [] then some fs
  else do
    let b ← fs.block (← blk)
    some { fs with data := fs.data.write (blockSize * b + bOff) bs }

/-- `get_ceil`. -/
def getCeil (quotient dividend : Nat) : Nat :=
  quotient / dividend + if quotient % dividend ≠ 0 then 1 else 0

/-- `MAX_SIZE` in `minixfs_write`. -/
def maxSize : Nat := (numDirectBlocks + numIndirectBlocks) * blockSize

/-- The `while` loop of `minixfs_write`, for at most `rounds` rounds: the new state and
`bytes_wrote`. -/
def writeLoop (n : Nat) (buf : List UInt8) :
    Nat → FileSystem → Nat → Nat → Option (FileSystem × Nat)
  | 0, fs, _, bytesWrote => some (fs, bytesWrote)
  | rounds + 1, fs, bIdx, bytesWrote =>
    if bytesWrote < buf.length then do
      let toWrite := min blockSize (buf.length - bytesWrote)
      -- the source of the copy is `buf` in every round
      let fs ← copyTo fs (getBlock fs (fs.inodes n) bIdx) 0 (buf.take toWrite)
      writeLoop n buf rounds fs (bIdx + 1) (bytesWrote + toWrite)
    else some (fs, bytesWrote)

/-- The copying in `minixfs_write`, from the first block on. Every round of the loop writes at
least one byte, so the length of the buffer is enough rounds. -/
def writeData (fs : FileSystem) (n : Nat) (buf : List UInt8) (off : Nat) :
    Option (FileSystem × Nat) := do
  let bIdx := off / blockSize
  let bOff := off % blockSize
  let toWrite := min buf.length (blockSize - bOff)
  let fs ← copyTo fs (getBlock fs (fs.inodes n) bIdx) bOff (buf.take toWrite)
  writeLoop n buf buf.length fs (bIdx + 1) toWrite

/-- The inode that `minixfs_write` writes to, created where the path has none. -/
def nodeToWrite (p : Picker) (now : Timespec) (fs : FileSystem) (path : List UInt8) :
    Option (FileSystem × Option Int) := do
  match ← getInode fs path with
  | some n => return (fs, some n)
  | none => (createInodeForPath p now fs path).map fun r => (r.1, r.2.map Int.ofNat)

/-- `minixfs_write(path, buf, |buf|, &off)`: the new state, the returned value and the new
offset. The offset is an `off_t`, given by its value modulo `2 ^ 64`. -/
def minixfsWrite (p : Picker) (now : Timespec) (fs : FileSystem) (path buf : List UInt8)
    (off : Nat) : Option (FileSystem × Int × Nat) :=
  if (off + buf.length) % 2 ^ 64 > maxSize then some (fs, -1, off)
  else do
    let (fs, node) ← nodeToWrite p now fs path
    let blocksRequired := getCeil ((off + buf.length) % 2 ^ 64) blockSize
    let (fs, err) ← minBlockcountAt p now fs path blocksRequired
    if err = -1 then return (fs, -1, off)
    let n ← inode? (← node)
    let (fs, bytesWrote) ← writeData fs n buf off
    let off := (off + bytesWrote) % 2 ^ 64
    let node := fs.inodes n
    let node := { node with size := max node.size off, atim := now, mtim := now }
    return (fs.setInode n node, bytesWrote, off)

/-- The loop of `minixfs_read`: the bytes from the block `bIdx` on, `count` of them. -/
def readLoop (fs : FileSystem) (node : Inode) :
    Nat → Nat → Nat → Option (List UInt8)
  | 0, _, _ => some []
  | rounds + 1, bIdx, count =>
    if 0 < count then do
      let b ← fs.block (← getBlock fs node bIdx)
      let toRead := min blockSize count
      let bs ← readLoop fs node rounds (bIdx + 1) (count - toRead)
      some (fs.data.read (blockSize * b) toRead ++ bs)
    else some []

/-- The copying in `minixfs_read`: the bytes that go to the buffer. Every round of the loop reads
at least one byte, so `count` is enough rounds. -/
def readData (fs : FileSystem) (node : Inode) (count off : Nat) : Option (List UInt8) := do
  let bIdx := off / blockSize
  let bOff := off % blockSize
  let toRead := min (blockSize - bOff) count
  let first ← if toRead = 0 then some [] else do
    let b ← fs.block (← getBlock fs node bIdx)
    some (fs.data.read (blockSize * b + bOff) toRead)
  let rest ← readLoop fs node count (bIdx + 1) (count - toRead)
  some (first ++ rest)

/-- The characters of a text. -/
def chars (s : String) : List UInt8 := s.toList.map fun c => UInt8.ofNat c.toNat

/-- `is_virtual_path`: the rest of the path, or `none` for `NULL`. -/
def isVirtualPath (path : List UInt8) : Option (List UInt8) :=
  if path = chars "/virtual" then some []
  else if (chars "/virtual").isPrefixOf path then
    match path.drop (chars "/virtual").length with
    | 47 :: rest => some rest
    | _ => none
  else none

/-- `block_info_string`. -/
def blockInfoString (numUsedBlocks : Nat) : List UInt8 :=
  chars ("Free blocks: " ++ toString ((dataNumber : Int) - numUsedBlocks) ++ "\nUsed blocks: " ++
    toString numUsedBlocks ++ "\n")

/-- The loop of `minixfs_virtual_read` that counts the blocks in use. -/
def blocksUsed (fs : FileSystem) : Nat := (List.range fs.dblockCount).countP fs.map

/-- The conversion of a `size_t` to `ssize_t`. -/
def toSsize (x : Nat) : Int := if x < 2 ^ 63 then x else x - 2 ^ 64

/-- `minixfs_virtual_read`: the returned value, the bytes it copies to the buffer and the new
offset. Outside of the string and its `NUL`, the copy takes what `heap` holds there. -/
def minixfsVirtualRead (heap : Nat → UInt8) (fs : FileSystem) (path : List UInt8)
    (count off : Nat) : Int × List UInt8 × Nat :=
  if path = chars "info" then
    let blockInfoStr := blockInfoString (blocksUsed fs)
    let toRead := min ((blockInfoStr.length + (2 ^ 64 - off)) % 2 ^ 64) count
    let byte := fun i => if h : i < blockInfoStr.length then blockInfoStr[i]
      else if i = blockInfoStr.length then 0 else heap i
    (toSsize toRead, (List.range toRead).map fun i => byte (off + i), (off + toRead) % 2 ^ 64)
  else (-1, [], off)

/-- `minixfs_read`: the new state, the returned value, the bytes copied to the buffer and the new
offset, an `off_t` given by its value modulo `2 ^ 64`. -/
def minixfsRead (heap : Nat → UInt8) (now : Timespec) (fs : FileSystem) (path : List UInt8)
    (count off : Nat) : Option (FileSystem × Int × List UInt8 × Nat) :=
  match isVirtualPath path with
  | some virtualPath => some (fs, minixfsVirtualRead heap fs virtualPath count off)
  | none => do
    match ← getInode fs path with
    | none => return (fs, -1, [], off)
    | some n =>
      let i ← inode? n
      let node := fs.inodes i
      if off ≥ node.size then return (fs, 0, [], off)
      let count := min count (node.size - off)
      let bs ← readData fs node count off
      return (fs.setInode i { node with atim := now }, toSsize bs.length, bs,
        (off + bs.length) % 2 ^ 64)

/-! ## Removing files -/

/-- The inner loop of `minixfs_unlink`, over at most `k` entries of the block at address `a`: the
new memory where the entry is found, or the variables `temp` and `dirents`. -/
def unlinkBlock (data : Memory) (a size : Nat) (target : Int) :
    Nat → Nat → Option Dirent → Option (Memory ⊕ (Nat × Option Dirent))
  | 0, temp, dirents => some (.inr (temp, dirents))
  | k + 1, temp, dirents =>
    if temp < size then do
      let dirent ← (makeDirentFromString data (a + temp)).or dirents
      if dirent.inodeNum = target then
        some (.inl (data.copy (a + temp) (a + temp + fileNameEntry)
          (blockSize - temp - fileNameEntry)))
      else unlinkBlock data a size target k (temp + fileNameEntry) (some dirent)
    else some (.inr (temp, dirents))

/-- The outer loop of `minixfs_unlink`, which takes the indirect block of the removed `node`. -/
def unlinkBlocks (fs : FileSystem) (parent node : Inode) (target : Int) :
    Nat → Bool → Nat → Nat → Option Dirent → Option Memory
  | 0, _, _, _, _ => none
  | rounds + 1, indirect, count, size, dirents =>
    if size = 0 then some fs.data
    else do
      let b ← fs.block (← blockArray fs (if indirect then node else parent) indirect count)
      match ← unlinkBlock fs.data (blockSize * b) size target (blockSize / fileNameEntry) 0
        dirents with
      | .inl data => some data
      | .inr (temp, dirents) =>
        let size := (size + 2 ^ 64 - temp) % 2 ^ 64
        if count + 1 < numDirectBlocks then
          unlinkBlocks fs parent node target rounds indirect (count + 1) size dirents
        else if node.indirect = unassignedNode then some fs.data
        else unlinkBlocks fs parent node target rounds true 0 size dirents

/-- A loop of `free_inode`: free the assigned ones of the first `11` block numbers of an array. -/
def freeBlocks (fs : FileSystem) (blocks : Nat → Int) : FileSystem :=
  (List.range numDirectBlocks).foldl
    (fun fs i => if blocks i ≠ unassignedNode then fs.setDataUsed (blocks i) false else fs) fs

/-- `free_inode`. -/
def freeInode (fs : FileSystem) (n : Nat) : Option FileSystem := do
  let node := fs.inodes n
  let fs := fs.setInode n { node with nlink := 0 }
  let fs := freeBlocks fs node.direct
  if node.indirect = unassignedNode then return fs
  let b ← fs.block node.indirect
  let fs := freeBlocks fs fun i => entry fs.data (numIndirectBlocks * b + i)
  return fs.setDataUsed node.indirect false

/-- `minixfs_unlink`. -/
def minixfsUnlink (fs : FileSystem) (path : List UInt8) : Option (FileSystem × Int) := do
  match ← getInode fs path with
  | none => return (fs, -1)
  | some target =>
    let (parent, _) ← parentDirectory fs path
    let n ← inode? (← parent)
    let i ← inode? target
    let parent := fs.inodes n
    let data ← unlinkBlocks fs parent (fs.inodes i) target maxRounds false 0 parent.size none
    let size := (parent.size + 2 ^ 64 - fileNameEntry) % 2 ^ 64
    let fs := { fs.setInode n { parent with size := size } with data := data }
    return (← freeInode fs i, 0)

end SystemProgramming.Minixfs
