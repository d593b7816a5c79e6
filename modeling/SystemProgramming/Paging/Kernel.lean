import SystemProgramming.Foundation.Bytes

/-!
# The kernel of `ideal_indirection/kernel.c`

Physical memory is 250 frames. The page directories and page tables of all processes are in
these frames, next to the pages. `entry_mapping` records for each frame the page table entry
that owns it. When no frame is free, the first page is written to a swap file, named after the
address of its entry, and its entry is marked absent.

A pointer into physical memory is a frame and an index in it, which loses nothing because no
access crosses a frame. The base address in an entry is a page number of the machine that
simulates, in 20 bits; `origin` is the page number of `physical_memory`. Swap files can always
be opened and written. `none` stands for a request that no frame can meet: the source then
returns the address `0` and its callers use memory outside of `physical_memory`.

## Main definitions

* `present`, `baseAddr`, `setFlag`, `setBaseAddr`: the bit fields of an entry
* `Kernel`: physical memory, the owners of frames, and the swap files
* `askKernelForFrame`, `returnFrameToKernel`: `ask_kernel_for_frame`, `return_frame_to_kernel`
* `writePageToDisk`, `readPageFromDisk`, `removeSwapFile`: the swap files
-/

namespace SystemProgramming.Paging

/-- `NUM_PHYSICAL_PAGES`. -/
def numPhysicalPages : Nat := 250

/-! ## Entries -/

/-- `base_addr`, the lowest 20 bits. -/
def baseAddr (w : Nat) : Nat := w % 2 ^ 20

/-- Write `base_addr`. -/
def setBaseAddr (w b : Nat) : Nat := w / 2 ^ 20 * 2 ^ 20 + b % 2 ^ 20

/-- The one-bit field at position `k`. -/
def flag (k w : Nat) : Bool := w / 2 ^ k % 2 = 1

/-- Write the one-bit field at position `k`. -/
def setFlag (k : Nat) (b : Bool) (w : Nat) : Nat :=
  w % 2 ^ k + b.toNat * 2 ^ k + w / 2 ^ (k + 1) * 2 ^ (k + 1)

/-- The position of `dirty`. -/
def dirtyBit : Nat := 25

/-- The position of `accessed`. -/
def accessedBit : Nat := 26

/-- The position of `user_supervisor`. -/
def userSupervisorBit : Nat := 29

/-- The position of `read_write`. -/
def readWriteBit : Nat := 30

/-- The position of `present`. -/
def presentBit : Nat := 31

/-- `present`. -/
def present (w : Nat) : Bool := flag presentBit w

/-- The address of an entry: a frame and an index in it. -/
structure EntryPtr where
  frame : Nat
  index : Nat
  deriving DecidableEq

/-! ## The kernel's state -/

/-- `entry_mapping` of a frame: `NULL`, `RESERVED` or an entry. -/
inductive Owner where
  | free
  | reserved
  | entry (e : EntryPtr)
  deriving DecidableEq

/-- The name of a file in the swap directory: the address of an entry, with or without the
extension `.bin`. -/
inductive SwapName where
  | bin (e : EntryPtr)
  | bare (e : EntryPtr)
  deriving DecidableEq

/-- `physical_memory`, `entry_mapping` and the swap directory. -/
structure Kernel where
  memory : Nat → Memory
  entryMapping : Nat → Owner
  swapFiles : SwapName → Option Memory

namespace Kernel

/-- The entry at an address. -/
def load (k : Kernel) (e : EntryPtr) : Nat := (k.memory e.frame).load (4 * e.index) 4

/-- Write an entry. -/
def store (k : Kernel) (e : EntryPtr) (w : Nat) : Kernel :=
  { k with memory := Function.update k.memory e.frame ((k.memory e.frame).store (4 * e.index) 4 w) }

end Kernel

variable (origin : Fin (2 ^ 20))

/-- The address of a frame, as an `addr32`. -/
def frameAddress (i : Nat) : Nat := (origin + i) * 4096 % 2 ^ 32

/-- `get_system_pointer_from_address`: a frame and an offset in it. -/
def systemPointer (address : Nat) : Nat × Nat :=
  let offset := (address + 2 ^ 32 - origin * 4096) % 2 ^ 32
  (offset / 4096, offset % 4096)

/-- The frame of an entry: `get_system_pointer_from_pte` and `get_system_pointer_from_pde`. -/
def pointsTo (w : Nat) : Nat := (systemPointer origin (baseAddr w * 4096 % 2 ^ 32)).1

/-! ## Swap files -/

/-- `write_page_to_disk`. -/
def writePageToDisk (k : Kernel) (e : EntryPtr) : Kernel :=
  let page := k.memory (pointsTo origin (k.load e))
  { k with swapFiles := Function.update k.swapFiles (.bin e) (some page) }

/-- `read_page_from_disk`. -/
def readPageFromDisk (k : Kernel) (e : EntryPtr) : Kernel :=
  match k.swapFiles (.bin e) with
  | none => k
  | some page => { k with memory := Function.update k.memory (pointsTo origin (k.load e)) page }

/-- `remove_swap_file`. -/
def removeSwapFile (k : Kernel) (e : EntryPtr) : Kernel :=
  { k with swapFiles := Function.update k.swapFiles (.bare e) none }

/-! ## Frames -/

/-- The first frame that no one owns. -/
def firstFree (k : Kernel) : Option Nat :=
  (List.range numPhysicalPages).find? fun i => k.entryMapping i = .free

/-- What `ask_kernel_for_frame` writes to `entry_mapping`. -/
def ownerOf : Option EntryPtr → Owner
  | none => .reserved
  | some e => .entry e

/-- The first frame of a page other than that of `entry`, and the owner of the page. -/
def firstEvictable (k : Kernel) (entry : Option EntryPtr) : Option (Nat × EntryPtr) :=
  (List.range numPhysicalPages).findSome? fun i =>
    match k.entryMapping i with
    | .entry e => if entry = some e then none else some (i, e)
    | _ => none

/-- Hand out the frame `i`, filled with zeros. -/
def takeFrame (k : Kernel) (entry : Option EntryPtr) (i : Nat) : Kernel :=
  { k with entryMapping := Function.update k.entryMapping i (ownerOf entry)
           memory := Function.update k.memory i Memory.zero }

/-- Page out the page of `evictee`, which is in the frame `i`. -/
def evict (k : Kernel) (i : Nat) (evictee : EntryPtr) : Kernel :=
  let k := writePageToDisk origin k evictee
  let k := k.store evictee (setFlag presentBit false (k.load evictee))
  let k := k.store evictee (setBaseAddr (k.load evictee) 0)
  { k with entryMapping := Function.update k.entryMapping i .free }

/-- `ask_kernel_for_frame` with a bound on its recursion; two calls are enough, for the second
one finds the frame that the first one has freed. -/
def askForFrame : Nat → Kernel → Option EntryPtr → Option (Nat × Kernel)
  | 0, _, _ => none
  | fuel + 1, k, entry =>
    match firstFree k with
    | some i => some (frameAddress origin i, takeFrame k entry i)
    | none =>
      match firstEvictable k entry with
      | some (i, evictee) => askForFrame fuel (evict origin k i evictee) entry
      | none => none

/-- `ask_kernel_for_frame`: the address of a frame. -/
def askKernelForFrame (k : Kernel) (entry : Option EntryPtr) : Option (Nat × Kernel) :=
  askForFrame origin 2 k entry

/-- `return_frame_to_kernel`. -/
def returnFrameToKernel (k : Kernel) (i : Nat) : Kernel :=
  { k with entryMapping := Function.update k.entryMapping i .free }

end SystemProgramming.Paging
