import SystemProgramming.Foundation.Bytes

/-!
# The allocator of `malloc/alloc.c`

The heap is a byte memory and the three globals of `alloc.c`; a node's header and its
boundary tag are fields of that memory, in the layout of a 64-bit host:

    size 8 | is_free 1, padding 7 | prev_free 8 | next_free 8 | data | btag 8

Pointers and sizes are words modulo `2 ^ 64`, and `NULL` is `0`. The kernel's side of `sbrk`
is the break and, for each call, its decision to grant the request. The first-fit walk of
`malloc` follows links stored in memory, so it carries fuel: `none` is a walk that has not
come to an end.

## Main definitions

* `Heap`: the memory, the globals and the break
* `malloc`, `calloc`, `realloc`, `free`: the entry points
-/

namespace SystemProgramming.Malloc

/-- `sizeof(node_t)`. -/
def nodeSize : Nat := 32

/-- `sizeof(btag_t)`. -/
def btagSize : Nat := 8

/-- `sizeof(node_t) + sizeof(btag_t)`. -/
def metaBtagSize : Nat := nodeSize + btagSize

/-- Only split a block when it is worth it. -/
def splitTreshold : Nat := 1024 * 64

/-- Word addition. -/
def wadd (p n : Nat) : Nat := (p + n) % 2 ^ 64

/-- Word subtraction. -/
def wsub (p n : Nat) : Nat := (p + (2 ^ 64 - n % 2 ^ 64)) % 2 ^ 64

/-- The memory, the globals of `alloc.c`, and the program break. -/
structure Heap where
  mem : Memory
  headFree : Nat
  tailMem : Nat
  startMem : Nat
  brk : Nat

namespace Heap

/-! ## Header fields

The fields of the node at an address, and `btag->size` at the address of a tag. -/

def size (h : Heap) (node : Nat) : Nat := h.mem.load node 8

def isFree (h : Heap) (node : Nat) : Nat := h.mem.load (node + 8) 1

def prevFree (h : Heap) (node : Nat) : Nat := h.mem.load (node + 16) 8

def nextFree (h : Heap) (node : Nat) : Nat := h.mem.load (node + 24) 8

def btagAt (h : Heap) (btag : Nat) : Nat := h.mem.load btag 8

/-- Exchange the memory, keep the globals. -/
def withMem (h : Heap) (m : Memory) : Heap := { h with mem := m }

def setSize (h : Heap) (node v : Nat) : Heap := h.withMem (h.mem.store node 8 v)

def setIsFree (h : Heap) (node v : Nat) : Heap := h.withMem (h.mem.store (node + 8) 1 v)

def setPrevFree (h : Heap) (node v : Nat) : Heap := h.withMem (h.mem.store (node + 16) 8 v)

def setNextFree (h : Heap) (node v : Nat) : Heap := h.withMem (h.mem.store (node + 24) 8 v)

def setBtag (h : Heap) (btag v : Nat) : Heap := h.withMem (h.mem.store btag 8 v)

/-! ## Neighbours in memory -/

/-- `get_node_btag`: the address of a node's boundary tag. -/
def getNodeBtag (h : Heap) (node : Nat) : Nat := wadd node (nodeSize + h.size node)

/-- `update_node_size`: grow a node by `newSize` and write the sum to its new tag. -/
def updateNodeSize (h : Heap) (newNodeStart newBtag newSize : Nat) : Heap :=
  let h := h.setSize newNodeStart (wadd (h.size newNodeStart) newSize)
  h.setBtag newBtag (h.size newNodeStart)

/-- `get_next_mem`: the block after `node`, `NULL` past `tail_mem`. -/
def getNextMem (h : Heap) (node : Nat) : Nat :=
  let cand := wadd node (metaBtagSize + h.size node)
  if cand > h.tailMem then 0 else cand

/-- `get_prev_mem`: the block before `node`, found through the tag below it; `NULL` below
`start_mem`. -/
def getPrevMem (h : Heap) (node : Nat) : Nat :=
  let startBtagPrev := wsub node btagSize
  let dataPrev := wsub startBtagPrev (h.btagAt startBtagPrev)
  let prevMem := wsub dataPrev nodeSize
  if prevMem < h.startMem then 0 else prevMem

/-! ## The free list -/

/-- `insert_free`. -/
def insertFree (h : Heap) (node : Nat) : Heap :=
  if h.headFree = 0 then
    let h := (h.setNextFree node 0).setPrevFree node 0
    { h with headFree := node }
  else
    let h := h.setNextFree node h.headFree
    let h := h.setPrevFree node 0
    let h := h.setPrevFree h.headFree node
    { h with headFree := node }

/-- `remove_free`. The head is dropped without touching the new head's `prev_free`. -/
def removeFree (h : Heap) (node : Nat) : Heap :=
  if node = h.headFree then { h with headFree := h.nextFree h.headFree }
  else
    let prev := h.prevFree node
    let next := h.nextFree node
    let h := if prev ≠ 0 then h.setNextFree prev next else h
    let h := if next ≠ 0 then h.setPrevFree next prev else h
    (h.setNextFree node 0).setPrevFree node 0

/-! ## Coalescing -/

/-- `coalesce_three_blocks`. -/
def coalesceThreeBlocks (h : Heap) (node prevNode nextNode : Nat) : Heap :=
  let h := h.removeFree nextNode
  let nextNextNode := h.getNextMem nextNode
  let h := if nextNextNode = 0 then { h with tailMem := prevNode } else h
  let nextNodeBtag := h.getNodeBtag nextNode
  let newSize := wadd (wadd (2 * metaBtagSize) (h.size node)) (h.size nextNode)
  h.updateNodeSize prevNode nextNodeBtag newSize

/-- `coalesce_two_blocks_before`. -/
def coalesceTwoBlocksBefore (h : Heap) (node prevNode nextNode : Nat) : Heap :=
  let h := if nextNode = 0 then { h with tailMem := prevNode } else h
  let nodeBtag := h.getNodeBtag node
  let newSize := wadd metaBtagSize (h.size node)
  h.updateNodeSize prevNode nodeBtag newSize

/-- `coalesce_two_blocks_after`. -/
def coalesceTwoBlocksAfter (h : Heap) (node nextNode : Nat) : Heap :=
  let h := h.removeFree nextNode
  let nextNextNode := h.getNextMem nextNode
  let h := if nextNextNode = 0 then { h with tailMem := node } else h
  let h := h.setIsFree node 1
  let nextNodeBtag := h.getNodeBtag nextNode
  let newSize := wadd metaBtagSize (h.size nextNode)
  let h := h.updateNodeSize node nextNodeBtag newSize
  h.insertFree node

/-! ## Allocation -/

/-- `sbrk`: a granted request returns the old break and moves it. The increment is signed: a
negative one moves the break down, but not below where the heap starts; the addresses of a
process are below `2 ^ 63`. -/
def sbrk (h : Heap) (grant : Bool) (increment : Nat) : Option (Nat × Heap) :=
  if grant = true ∧ increment < 2 ^ 63 ∧ h.brk + increment < 2 ^ 63 then
    some (h.brk, { h with brk := h.brk + increment })
  else if grant = true ∧ 2 ^ 63 ≤ increment ∧ h.startMem ≠ 0 ∧
      h.startMem + (2 ^ 64 - increment) ≤ h.brk then
    some (h.brk, { h with brk := h.brk - (2 ^ 64 - increment) })
  else none

/-- `alloc_new`: a block from the kernel. `tail_mem` is set for the first block only. -/
def allocNew (h : Heap) (grant : Bool) (size : Nat) : Nat × Heap :=
  match h.sbrk grant (wadd metaBtagSize size) with
  | none => (0, h)
  | some (node, h) =>
    let h := if h.startMem = 0 then { h with startMem := node } else h
    let h := (h.setNextFree node 0).setPrevFree node 0
    let h := if h.tailMem = 0 then { h with tailMem := node } else h
    let h := h.setSize node size
    let h := h.setIsFree node 0
    let nodeBtag := wadd node (nodeSize + h.size node)
    let h := h.setBtag nodeBtag size
    (wadd node nodeSize, h)

/-- `alloc_free_split`: cut `size` bytes off the front of `node`, the rest becomes free. -/
def allocFreeSplit (h : Heap) (size node : Nat) : Heap :=
  let extraNode := wadd node (metaBtagSize + size)
  let h := h.setSize extraNode (wsub (wsub (h.size node) metaBtagSize) size)
  let h := h.setIsFree extraNode 1
  let extraNodeBtag := wadd extraNode (nodeSize + h.size extraNode)
  let h := h.setBtag extraNodeBtag (h.size extraNode)
  let h := if extraNode > h.tailMem then { h with tailMem := extraNode } else h
  let h := h.setSize node size
  let h := h.setIsFree node 0
  let nodeBtag := wadd node (nodeSize + h.size node)
  let h := h.setBtag nodeBtag size
  h.insertFree extraNode

/-- `alloc_free`: hand out the free block `node`, split when it is worth it. -/
def allocFree (h : Heap) (size node : Nat) : Nat × Heap :=
  let h := if h.size node ≥ wadd (wadd metaBtagSize size) splitTreshold then
    h.allocFreeSplit size node else h
  (wadd node nodeSize, h.setIsFree node 0)

/-- The first-fit loop of `malloc` from `walk`: the first node of at least `size` bytes, or
`NULL`. -/
def firstFit (h : Heap) (size : Nat) : Nat → Nat → Option Nat
  | 0, _ => none
  | fuel + 1, walk =>
    if walk = 0 then some 0
    else if h.size walk ≥ size then some walk
    else firstFit h size fuel (h.nextFree walk)

/-- `malloc`. Blocks take more than one byte, so a list of blocks is shorter than the break. -/
def malloc (h : Heap) (grant : Bool) (size : Nat) : Option (Nat × Heap) :=
  if size = 0 then some (0, h)
  else
    (h.firstFit size (h.brk + 1) h.headFree).map fun walk =>
      if walk = 0 then h.allocNew grant size
      else (h.removeFree walk).allocFree size walk

/-- `calloc`: the product is a `size_t`. -/
def calloc (h : Heap) (grant : Bool) (num size : Nat) : Option (Nat × Heap) :=
  let nbytes := num * size % 2 ^ 64
  (h.malloc grant nbytes).map fun (ptr, h) =>
    if ptr = 0 then (0, h) else (ptr, h.withMem (h.mem.fill ptr 0 nbytes))

/-- `free`. -/
def free (h : Heap) (ptr : Nat) : Heap :=
  if ptr = 0 then h
  else
    let node := wsub ptr nodeSize
    if h.isFree node ≠ 0 then h
    else
      let prevNode := h.getPrevMem node
      let nextNode := h.getNextMem node
      let isPrevNeighValid := prevNode ≠ 0 ∧ prevNode ≥ h.startMem ∧ h.isFree prevNode ≠ 0
      let isNextNeighValid := nextNode ≠ 0 ∧ nextNode ≤ h.tailMem ∧ h.isFree nextNode ≠ 0
      if isPrevNeighValid ∧ isNextNeighValid then h.coalesceThreeBlocks node prevNode nextNode
      else if isPrevNeighValid then h.coalesceTwoBlocksBefore node prevNode nextNode
      else if isNextNeighValid then h.coalesceTwoBlocksAfter node nextNode
      else (h.setIsFree node 1).insertFree node

/-- `realloc`. A block that is large enough is returned as it is; otherwise the whole old
block is copied. -/
def realloc (h : Heap) (grant : Bool) (ptr size : Nat) : Option (Nat × Heap) :=
  if ptr = 0 then h.malloc grant size
  else if size = 0 then some (0, h.free ptr)
  else
    let node := wsub ptr nodeSize
    if size ≤ h.size node then some (ptr, h)
    else
      (h.malloc grant size).map fun (reallocdData, h) =>
        if reallocdData ≠ 0 then
          let h := h.withMem (h.mem.copy reallocdData ptr (h.size node))
          (reallocdData, h.free ptr)
        else (0, h)

end Heap

end SystemProgramming.Malloc
