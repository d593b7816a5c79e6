import Mathlib.Tactic
import SystemProgramming.Minixfs.Disk

/-!
# Directories and paths

A directory is a sequence of entries of `256` bytes: a name, and the inode number as eight
hexadecimal digits. An entry whose digits read as zero leaves the variable `node` of the
search as it was, so the search compares with the name of the entry before; at the first
entry the variable is not initialised, and there the search has no result. Neither has a
search that follows a block number outside of the data blocks.

## Main definitions

* `makeDirentFromString`, `makeStringFromDirent`: reading and writing an entry
* `findInodeNamed`: the search for a name in a directory
* `getInode`, `parentDirectory`, `validFilename`: paths
-/

namespace SystemProgramming.Minixfs

def fileNameLength : Nat := 248

def inodeSize : Nat := 8

/-- `FILE_NAME_ENTRY`. -/
def fileNameEntry : Nat := 256

/-! ## Entries -/

/-- `isspace`. -/
def isSpace (c : UInt8) : Bool := c == 32 || (9 ≤ c && c ≤ 13)

/-- The value of a hexadecimal digit. -/
def hexDigit (c : UInt8) : Option Nat :=
  if 48 ≤ c ∧ c ≤ 57 then some (c.toNat - 48)
  else if 97 ≤ c ∧ c ≤ 102 then some (c.toNat - 87)
  else if 65 ≤ c ∧ c ≤ 70 then some (c.toNat - 55)
  else none

/-- The number that a string of hexadecimal digits begins with. -/
def hexNumber (bs : List UInt8) : Nat :=
  ((bs.map hexDigit).takeWhile Option.isSome).foldl (fun n d => 16 * n + d.getD 0) 0

/-- A string after the prefix `0x`, where a digit follows it. -/
def dropHexPrefix : List UInt8 → List UInt8
  | 48 :: x :: d :: bs =>
    if (x = 120 ∨ x = 88) ∧ (hexDigit d).isSome then d :: bs else 48 :: x :: d :: bs
  | bs => bs

/-- `strtoll(bs, NULL, 16)`, for strings too short to overflow. -/
def strtoll16 (bs : List UInt8) : Int :=
  match bs.dropWhile isSpace with
  | 45 :: bs => -hexNumber (dropHexPrefix bs)
  | 43 :: bs => hexNumber (dropHexPrefix bs)
  | bs => hexNumber (dropHexPrefix bs)

/-- A `minixfs_dirent`. The name is a pointer into the data region. -/
structure Dirent where
  name : Nat
  inodeNum : Int
  deriving DecidableEq

/-- `make_dirent_from_string` for the entry at address `a`, where it fills in a result. -/
def makeDirentFromString (data : Memory) (a : Nat) : Option Dirent :=
  let offset := strtoll16 (data.read (a + fileNameLength) inodeSize)
  if offset = 0 then none else some ⟨a, ofBits (offset % 2 ^ 32).toNat⟩

/-- The digit `d` of `%x`. -/
def hexChar (d : Nat) : UInt8 := UInt8.ofNat (if d < 10 then 48 + d else 87 + d)

/-- `%08zx`, for a number of at most eight digits. -/
def hex8 (n : Nat) : List UInt8 := (List.range 8).map fun i => hexChar (n / 16 ^ (7 - i) % 16)

/-- The bytes that `make_string_from_dirent` writes: the name, cut off or filled up with zeros,
the number, and the `NUL` of `sprintf`. -/
def direntString (name : List UInt8) (inodeNum : Nat) : List UInt8 :=
  (List.range fileNameLength).map (fun i => name.getD i 0) ++ hex8 inodeNum ++ [0]

/-- `make_string_from_dirent` at address `a`. -/
def makeStringFromDirent (data : Memory) (a : Nat) (name : List UInt8) (inodeNum : Nat) :
    Memory :=
  data.write a (direntString name inodeNum)

/-- `strcmp(name, a) == 0`, for a pointer `a` into the data region. -/
def nameIs (data : Memory) (a : Nat) (name : List UInt8) : Bool :=
  (List.range name.length).all (fun i => data (a + i) == name.getD i 0) &&
    data (a + name.length) == 0

/-! ## Searching a directory -/

/-- The inner loop of `find_inode_named`, over at most `k` entries from the address `a` on: the
inode number it finds, or the remaining size and the variable `node`. -/
def scanBlock (data : Memory) (name : List UInt8) :
    Nat → Nat → Nat → Option Dirent → Option (Int ⊕ (Nat × Option Dirent))
  | 0, _, size, node => some (.inr (size, node))
  | k + 1, a, size, node =>
    if size = 0 then some (.inr (0, node))
    else do
      let dirent ← (makeDirentFromString data a).or node
      if nameIs data dirent.name name then some (.inl dirent.inodeNum)
      else
        let size := (size + 2 ^ 64 - fileNameEntry) % 2 ^ 64
        scanBlock data name k (a + fileNameEntry) size (some dirent)

/-- `block_array[count]`, where `block_array` points to the direct slots or to the indirect
block of `root`. -/
def blockArray (fs : FileSystem) (root : Inode) (indirect : Bool) (count : Nat) : Option Int :=
  if indirect then
    (fs.block root.indirect).map fun b => entry fs.data (numIndirectBlocks * b + count)
  else some (root.direct count)

/-- The outer loop of `find_inode_named`, for at most `rounds` blocks. -/
def scanBlocks (fs : FileSystem) (root : Inode) (name : List UInt8) :
    Nat → Bool → Nat → Nat → Option Dirent → Option (Option Int)
  | 0, _, _, _, _ => none
  | rounds + 1, indirect, count, size, node =>
    if size = 0 ∨ root.direct count = unassignedNode then some none
    else do
      let b ← fs.block (← blockArray fs root indirect count)
      match ← scanBlock fs.data name (blockSize / fileNameEntry) (blockSize * b) size node with
      | .inl inodeNum => some (some inodeNum)
      | .inr (size, node) =>
        if count + 1 < numDirectBlocks then
          scanBlocks fs root name rounds indirect (count + 1) size node
        else if root.indirect = unassignedNode then some none
        else scanBlocks fs root name rounds true 0 size node

/-- No search of a directory whose size is a multiple of `256` goes through more blocks. A search
of another directory that goes through so many never ends, since its size never becomes zero. -/
def maxRounds : Nat := 2 ^ 50

/-- `find_inode_named`: the inode number, or `none` for `NULL`. -/
def findInodeNamed (fs : FileSystem) (root : Inode) (name : List UInt8) : Option (Option Int) :=
  scanBlocks fs root name maxRounds false 0 root.size none

/-! ## Paths -/

/-- `inode_root + n`, where it points to an inode. -/
def inode? (n : Int) : Option Nat := if 0 ≤ n ∧ n < inodesNumber then some n.toNat else none

/-- The tokens of `strtok(path, "/")`. -/
def tokens (path : List UInt8) : List (List UInt8) := (path.splitOn 47).filter (· ≠ [])

/-- The loop of `get_inode`. -/
def walk (fs : FileSystem) : List (List UInt8) → Int → Option (Option Int)
  | [], n => some (some n)
  | tok :: toks, n => do
    let i ← inode? n
    if !isDirectory (fs.inodes i) then some none
    else match ← findInodeNamed fs (fs.inodes i) tok with
      | none => some none
      | some m => walk fs toks m

/-- `get_inode`: the inode number, or `none` for `NULL`. -/
def getInode (fs : FileSystem) (path : List UInt8) : Option (Option Int) :=
  match path with
  | [] => some (some 0)
  | c :: _ => if c ≠ 47 then some none else walk fs (tokens path) 0

/-- The characters after the last `/` of a path. -/
def filename (path : List UInt8) : List UInt8 := (path.reverse.takeWhile (· ≠ 47)).reverse

/-- `parent_directory`: the parent, or `none` for `NULL`, and the file name. -/
def parentDirectory (fs : FileSystem) (path : List UInt8) :
    Option (Option Int × List UInt8) :=
  -- without a slash the search runs past the beginning of the string
  if 47 ∈ path then
    let parentPath := path.take (path.length - (filename path).length)
    (getInode fs parentPath).map fun parent => (parent, filename path)
  else none

/-- `valid_filename`. -/
def validFilename (name : List UInt8) : Bool := name ≠ [] && !name.contains 47

end SystemProgramming.Minixfs
