import SystemProgramming.Foundation.Bytes

/-!
# The two lookup programs of `mad_mad_access_patterns`

Both programs search a binary tree of words in a data file. `lookup1` reads the nodes with
`fseek` and `fread`, and of a word at most one byte more than the target has. `lookup2` maps the
file into memory and compares with the whole word.

A file is the list of its bytes, a string the list of its bytes before the zero. `char` is
signed, so `fgetc` is an `int` that is cut down to a signed byte before it is compared with `EOF`.
The price, a `float` that is only printed, is its four bytes. `none` is a write behind a buffer, or
a search that takes more steps than it may.

## Main definitions

* `Node`, `nodeAt`: `BinaryTreeNode`
* `strcmp`, `fgetc`, `readAtMost`: the functions that the searches call
* `searchBy`, `searchWord1`, `searchWord2`: `search_word` of the two programs, with the nodes
  that they visit
* `Tree`, `Stored`: the files that hold a finite tree
-/

namespace SystemProgramming.Lookup

/-! ## Nodes and strings -/

/-- `BinaryTreeNode` without the word. -/
structure Node where
  leftChild : Nat
  rightChild : Nat
  count : Nat
  price : Nat
  deriving DecidableEq

/-- The size of `BinaryTreeNode`, and so the offset of the word in a node. -/
def nodeSize : Nat := 16

/-- The node at `off`. -/
def nodeAt (file : List UInt8) (off : Nat) : Node where
  leftChild := (Memory.ofList file).load off 4
  rightChild := (Memory.ofList file).load (off + 4) 4
  count := (Memory.ofList file).load (off + 8) 4
  price := (Memory.ofList file).load (off + 12) 4

/-- `strcmp`. -/
def strcmp : List UInt8 → List UInt8 → Int
  | [], [] => 0
  | [], b :: _ => -b.toNat
  | a :: _, [] => a.toNat
  | a :: u, b :: v => if a = b then strcmp u v else a.toNat - b.toNat

/-- `EOF`. -/
def eof : Int := -1

/-- `fgetc`, where `input` is what follows the position in the file. -/
def fgetc : List UInt8 → Int
  | [] => eof
  | b :: _ => b.toNat

/-- The conversion to a `char`. -/
def char (x : Int) : Int := x.bmod 256

/-- The byte that a `char` is stored as. -/
def byte (ch : Int) : UInt8 := UInt8.ofNat (ch % 256).toNat

/-- `read_at_most`, with `r` bytes still to go. The buffer has room for `r` bytes and one more,
which the zero needs: where a byte takes that one, the zero is written behind the buffer. -/
def readAtMost : Nat → List UInt8 → Option (List UInt8)
  | 0, input =>
    let ch := char (fgetc input)
    if ch ≠ eof ∧ ch ≠ 0 then none else some []
  | r + 1, input =>
    let ch := char (fgetc input)
    if ch ≠ eof ∧ ch ≠ 0 then (readAtMost r input.tail).map (byte ch :: ·) else some []

/-! ## The searches -/

/-- What a search prints: the count and the price, or that the word is not found. -/
abbrev Answer := Option (Nat × Nat)

/-- `search_word`, where `wordAt` reads the word of a node: the offsets of the nodes that it
visits, and the answer. -/
def searchBy (file target : List UInt8) (wordAt : Nat → Option (List UInt8)) :
    Nat → Nat → Option (List Nat × Answer)
  | _, 0 => some ([], none)
  | 0, _ + 1 => none
  | fuel + 1, off + 1 => do
    let node := nodeAt file (off + 1)
    let currWord ← wordAt (off + 1)
    if strcmp target currWord = 0 then some ([off + 1], some (node.count, node.price))
    else if strcmp target currWord < 0 then
      (searchBy file target wordAt fuel node.leftChild).map fun r => ((off + 1) :: r.1, r.2)
    else (searchBy file target wordAt fuel node.rightChild).map fun r => ((off + 1) :: r.1, r.2)

/-- `search_word` of `lookup1`. -/
def searchWord1 (file target : List UInt8) : Nat → Nat → Option (List Nat × Answer) :=
  searchBy file target fun off => readAtMost target.length (file.drop (off + nodeSize))

/-- `search_word` of `lookup2`. -/
def searchWord2 (file target : List UInt8) : Nat → Nat → Option (List Nat × Answer) :=
  searchBy file target fun off => some ((file.drop (off + nodeSize)).takeWhile (· ≠ 0))

/-! ## Trees in a file -/

/-- A tree of words. -/
inductive Tree where
  | nil
  | node (off count price : Nat) (word : List UInt8) (left right : Tree)

/-- The offset of the root, which is zero where there is no child. -/
def Tree.offset : Tree → Nat
  | .nil => 0
  | .node off _ _ _ _ _ => off

def Tree.height : Tree → Nat
  | .nil => 0
  | .node _ _ _ _ left right => max left.height right.height + 1

/-- The tree is in the file: its nodes are where the offsets say, and each is followed by its
word, which ends with a zero. No node is both children of another one. -/
def Stored (file : List UInt8) : Tree → Prop
  | .nil => True
  | .node off count price word left right =>
    off ≠ 0 ∧
    nodeAt file off = ⟨left.offset, right.offset, count, price⟩ ∧
    (∃ rest, file.drop (off + nodeSize) = word ++ 0 :: rest) ∧
    (∀ b ∈ word, b ≠ 0) ∧
    (left.offset = right.offset → left.offset = 0) ∧
    Stored file left ∧ Stored file right

end SystemProgramming.Lookup
