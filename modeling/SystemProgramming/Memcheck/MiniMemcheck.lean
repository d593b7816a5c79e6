import Mathlib.Tactic

/-!
# The memory checker of `mini_memcheck.c`

Each block the program asks for has its metadata in front of it, linked into one list. Memory
is given by the metadata at each address; what a payload holds is never read. The answer of
the underlying `malloc` or `realloc` is an argument of each call, with `NULL` as `0`; the block has the
bytes that were asked for. Sizes and counters are `size_t`, below `2 ^ 64`.

The walks follow links stored in memory, so they carry fuel, more than there are addresses. A
walk that has not come to an end, the use of a null pointer and a write behind the end of a block
are `none`.

## Main definitions

* `MetaData`, `State`: the metadata, and the globals
* `blockSize`: what is asked of `malloc` and `realloc`
* `validPtr`, `beforeNode`: the walks
* `miniMalloc`, `miniCalloc`, `miniRealloc`, `miniFree`: the entry points
-/

namespace SystemProgramming.Memcheck

/-- `meta_data`. -/
structure MetaData where
  requestSize : Nat
  filename : String
  instruction : Nat
  next : Nat

/-- `sizeof(meta_data)`. -/
def metaSize : Nat := 32

/-- The size of the block for a request, `sizeof(meta_data) + request_size`. -/
def blockSize (requestSize : Nat) : Nat := (metaSize + requestSize) % 2 ^ 64

/-- The metadata at each address, and the globals. -/
structure State where
  mem : Nat → MetaData
  head : Nat
  totalMemoryRequested : Nat
  totalMemoryFreed : Nat
  invalidAddresses : Nat

/-- More than there are addresses. -/
def walkFuel : Nat := 2 ^ 64 + 1

/-- The loop of `valid_ptr`: the node in front of the payload `ptr`, or `NULL`. -/
def validPtr (mem : Nat → MetaData) (ptr : Nat) : Nat → Nat → Option Nat
  | 0, _ => none
  | fuel + 1, walk =>
    if walk ≠ 0 then
      if walk + metaSize = ptr then some walk else validPtr mem ptr fuel (mem walk).next
    else some 0

/-- The loop of `before_node`. -/
def beforeLoop (mem : Nat → MetaData) (ptr : Nat) : Nat → Nat → Nat → Option Nat
  | 0, _, _ => none
  | fuel + 1, before, walk =>
    if walk ≠ 0 then
      if walk = ptr then some before else beforeLoop mem ptr fuel walk (mem walk).next
    else some 0

/-- `before_node`: the node whose link is `ptr`. -/
def beforeNode (mem : Nat → MetaData) (walk ptr : Nat) : Option Nat :=
  if walk ≠ 0 then beforeLoop mem ptr walkFuel walk (mem walk).next else none

namespace State

/-- Write the metadata at an address. -/
def write (s : State) (node : Nat) (data : MetaData) : State :=
  { s with mem := Function.update s.mem node data }

/-- `before->next = node`. -/
def setNext (s : State) (before node : Nat) : Option State :=
  if before ≠ 0 then some (s.write before { s.mem before with next := node }) else none

/-- Count a request and put its node in front of the list. -/
def insert (s : State) (requestSize : Nat) (filename : String) (instruction node : Nat) :
    State :=
  let s := { s with totalMemoryRequested := (s.totalMemoryRequested + requestSize) % 2 ^ 64 }
  let s := s.write node ⟨requestSize, filename, instruction, s.head⟩
  { s with head := node }

/-- The part that `mini_malloc` and `mini_calloc` share, from the answer `block` of `malloc` on. The
metadata is written to the block, and `mini_calloc` clears the rest of it. -/
def allocate (s : State) (requestSize : Nat) (filename : String) (instruction block : Nat) :
    Option (Nat × State) :=
  if block = 0 then some (0, s)
  else if blockSize requestSize < metaSize + requestSize then none
  else some (block + metaSize, s.insert requestSize filename instruction block)

/-- `mini_malloc`; `block` is the answer of `malloc`. -/
def miniMalloc (s : State) (requestSize : Nat) (filename : String) (instruction block : Nat) :
    Option (Nat × State) :=
  if requestSize = 0 then some (0, s) else s.allocate requestSize filename instruction block

/-- `mini_calloc`; the product is a `size_t`. -/
def miniCalloc (s : State) (numElements elementSize : Nat) (filename : String)
    (instruction block : Nat) : Option (Nat × State) :=
  if numElements = 0 ∨ elementSize = 0 then some (0, s)
  else s.allocate (numElements * elementSize % 2 ^ 64) filename instruction block

/-- `mini_free`. -/
def miniFree (s : State) (payload : Nat) : Option State :=
  if payload = 0 then some s
  else do
    let node ← validPtr s.mem payload walkFuel s.head
    if node ≠ 0 then
      if node = s.head then
        some { s with
          head := (s.mem s.head).next
          totalMemoryFreed := (s.totalMemoryFreed + (s.mem node).requestSize) % 2 ^ 64 }
      else do
        let before ← beforeNode s.mem s.head node
        let s ← s.setNext before (s.mem node).next
        some { s with
          totalMemoryFreed := (s.totalMemoryFreed + (s.mem node).requestSize) % 2 ^ 64 }
    else some { s with invalidAddresses := (s.invalidAddresses + 1) % 2 ^ 64 }

/-- A block that grows is requested memory, one that does not is freed memory. -/
def countResize (s : State) (prevSize requestSize : Nat) : State :=
  if prevSize < requestSize then
    { s with
      totalMemoryRequested := (s.totalMemoryRequested + (requestSize - prevSize)) % 2 ^ 64 }
  else
    { s with totalMemoryFreed := (s.totalMemoryFreed + (prevSize - requestSize)) % 2 ^ 64 }

/-- `realloc` copies the metadata to `block`, and the new size is written there. -/
def resized (s : State) (node requestSize block : Nat) : State :=
  s.write block { s.mem node with requestSize := requestSize }

/-- `node = realloc(node, actual_size)` and `node->request_size = request_size`. -/
def resize (s : State) (node requestSize block : Nat) : Option State :=
  if block = 0 ∨ blockSize requestSize < metaSize + requestSize then none
  else some (s.resized node requestSize block)

/-- `mini_realloc`; `block` is the answer of `malloc` or `realloc`. -/
def miniRealloc (s : State) (payload requestSize : Nat) (filename : String)
    (instruction block : Nat) : Option (Nat × State) :=
  if payload = 0 ∧ requestSize = 0 then some (0, s)
  else if payload = 0 then s.miniMalloc requestSize filename instruction block
  else if requestSize = 0 then do
    let s ← s.miniFree payload
    some (0, s)
  else do
    let node ← validPtr s.mem payload walkFuel s.head
    if node = 0 then some (0, { s with invalidAddresses := (s.invalidAddresses + 1) % 2 ^ 64 })
    else
      let s := s.countResize (s.mem node).requestSize requestSize
      if node = s.head then do
        let s ← s.resize node requestSize block
        some (block + metaSize, { s with head := block })
      else do
        let before ← beforeNode s.mem s.head node
        let s ← s.resize node requestSize block
        let s ← s.setNext before block
        some (block + metaSize, s)

end State

end SystemProgramming.Memcheck
