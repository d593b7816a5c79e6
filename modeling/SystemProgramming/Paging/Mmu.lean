import SystemProgramming.Paging.Kernel

/-!
# The MMU of `ideal_indirection/mmu.c`

An access checks the segments of its process, looks for the page table entry in the TLB and
else walks the page directory and a page table, and brings in what is absent on the way. The
TLB is a list of cached entry addresses, the most recently used first, and is flushed when
another process makes an access.

`none` stands for a run that the source does not define: an access of a process that has not
been added, or a request for a frame that cannot be met.

## Main definitions

* `Segment`, `findSegment`: the segments of a process
* `tlbGetPte`, `tlbAddPte`: the TLB
* `Machine`: the kernel and the MMU
* `mmuRwFromVirtualAddress`, `mmuAddProcess`, `mmuRemoveProcess`: the operations
* `Event`, `Result`, `step`: one operation
-/

namespace SystemProgramming.Paging

/-! ## Segments -/

/-- `vm_segmentation`. -/
structure Segment where
  start : Nat
  stop : Nat
  permissions : Nat
  growsDown : Bool

/-- `READ`. -/
def READ : Nat := 1

/-- `WRITE`. -/
def WRITE : Nat := 2

/-- `EXEC`. -/
def EXEC : Nat := 4

/-- Does a segment contain an address? Both its ends belong to it. -/
def Segment.contains (s : Segment) (address : Nat) : Bool :=
  if s.growsDown then s.stop ≤ address ∧ address ≤ s.start
  else s.start ≤ address ∧ address ≤ s.stop

/-- `find_segment`. -/
def findSegment (segments : List Segment) (address : Nat) : Option Segment :=
  segments.find? fun s => s.contains address

/-- The segments of a new process: stack, mmap, heap, bss, data, text and testing. -/
def newSegmentations : List Segment :=
  [⟨0xBFFFE000, 0xC07FE000, READ ||| WRITE, true⟩,
    ⟨0xC07FE000, 0xC07FE000, READ ||| EXEC ||| WRITE, true⟩,
    ⟨0x08072000, 0x08072000, READ ||| WRITE, false⟩,
    ⟨0x0805A000, 0x08072000, READ ||| WRITE, false⟩,
    ⟨0x08052000, 0x0805A000, READ ||| WRITE, false⟩,
    ⟨0x08048000, 0x08052000, READ ||| EXEC, false⟩,
    ⟨4096, 3 * 4096, READ ||| WRITE, false⟩]

/-! ## The TLB -/

/-- The nodes of the TLB: the number of a virtual page and the address of an entry. -/
abbrev Tlb := List (Nat × Option EntryPtr)

/-- `MAX_NODES`. -/
def maxNodes : Nat := 16

/-- `tlb_create`: one node, filled with zeros. -/
def tlbCreate : Tlb := [(0, none)]

/-- `tlb_get_pte`: a node that is found becomes the head. -/
def tlbGetPte (tlb : Tlb) (page : Nat) : Option EntryPtr × Tlb :=
  match tlb.find? fun node => node.1 = page with
  | some node => (node.2, node :: tlb.eraseP fun node => node.1 = page)
  | none => (none, tlb)

/-- `tlb_add_pte`: the count of nodes starts at two. -/
def tlbAddPte (tlb : Tlb) (page : Nat) (entry : EntryPtr) : Tlb :=
  (page, some entry) :: if maxNodes ≤ max 2 tlb.length then tlb.dropLast else tlb

/-! ## The MMU -/

/-- The kernel and the MMU. A page directory is known by its frame. -/
structure Machine extends Kernel where
  pageDirectories : Nat → Option Nat
  segmentations : Nat → Option (List Segment)
  tlb : Tlb
  numPageFaults : Nat
  numSegmentationFaults : Nat
  numTlbMisses : Nat
  currPid : Nat

/-- `mmu_create`, with all frames free and no swap files. -/
def Machine.create : Machine :=
  ⟨⟨fun _ => Memory.zero, fun _ => .free, fun _ => none⟩, fun _ => none, fun _ => none, tlbCreate,
    0, 0, 0, 0⟩

/-- An access: a read of some bytes, or a write of the bytes of a buffer. -/
inductive Op where
  | read (numBytes : Nat)
  | write (buffer : List UInt8)
  deriving DecidableEq

/-- The permission that an access needs. -/
def Op.permission : Op → Nat
  | .read _ => READ
  | .write _ => WRITE

/-- What an access ends with. -/
inductive Result where
  | segfault
  | bytes (buffer : List UInt8)
  | written
  deriving DecidableEq

variable (origin : Fin (2 ^ 20))

/-- The start of an access: a context switch flushes the TLB. -/
def contextSwitch (m : Machine) (pid : Nat) : Machine :=
  if pid ≠ m.currPid then { m with tlb := tlbCreate, currPid := pid } else m

/-- Bring in the page table of an absent page directory entry. -/
def loadTable (m : Machine) (pde : EntryPtr) : Option Machine := do
  let m := { m with numPageFaults := m.numPageFaults + 1 }
  let (address, k) ← askKernelForFrame origin m.toKernel none
  let k := k.store pde (setBaseAddr (k.load pde) (address / 4096))
  let k := readPageFromDisk origin k pde
  let k := k.store pde (setFlag presentBit true (k.load pde))
  let k := k.store pde (setFlag readWriteBit true (k.load pde))
  let k := k.store pde (setFlag userSupervisorBit false (k.load pde))
  some { m with toKernel := k }

/-- The walk after a TLB miss: the address of the page table entry. -/
def walk (m : Machine) (pid virtualAddress : Nat) : Option (EntryPtr × Machine) := do
  let m := { m with numTlbMisses := m.numTlbMisses + 1 }
  let pd ← m.pageDirectories pid
  let pde : EntryPtr := ⟨pd, virtualAddress / 2 ^ 22⟩
  let m ← if present (m.load pde) then some m else loadTable origin m pde
  some (⟨pointsTo origin (m.load pde), virtualAddress / 4096 % 1024⟩, m)

/-- Bring in the page of an absent page table entry. -/
def loadPage (m : Machine) (pte : EntryPtr) : Option Machine := do
  let m := { m with numPageFaults := m.numPageFaults + 1 }
  let (address, k) ← askKernelForFrame origin m.toKernel (some pte)
  let k := k.store pte (setBaseAddr (k.load pte) (address / 4096))
  let k := readPageFromDisk origin k pte
  let k := k.store pte (setFlag presentBit true (k.load pte))
  let k := k.store pte (setFlag readWriteBit true (k.load pte))
  let k := k.store pte (setFlag userSupervisorBit true (k.load pte))
  some { m with toKernel := k }

/-- The transfer between the buffer and the page. -/
def transfer (k : Kernel) (w virtualAddress : Nat) (op : Op) : Result × Kernel :=
  let physAddr := (baseAddr w * 4096 + virtualAddress % 4096) % 2 ^ 32
  let (frame, offset) := systemPointer origin physAddr
  match op with
  | .read n => (.bytes ((k.memory frame).read offset n), k)
  | .write buffer =>
    (.written, { k with memory := Function.update k.memory frame ((k.memory frame).write offset buffer) })

/-- The end of an access, with its page table entry present: the transfer, the TLB and the
flags of the entry. -/
def finish (m : Machine) (pte : EntryPtr) (virtualAddress : Nat) (op : Op) : Result × Machine :=
  let (result, k) := transfer origin m.toKernel (m.load pte) virtualAddress op
  let k := k.store pte (setFlag accessedBit true (k.load pte))
  let k :=
    match op with
    | .read _ => k
    | .write _ => k.store pte (setFlag dirtyBit true (k.load pte))
  (result, { m with toKernel := k, tlb := tlbAddPte m.tlb (virtualAddress / 4096) pte })

/-- An access that the segments allow. -/
def access (m : Machine) (pid virtualAddress : Nat) (op : Op) : Option (Result × Machine) := do
  let (hit, tlb) := tlbGetPte m.tlb (virtualAddress / 4096)
  let m := { m with tlb := tlb }
  let (pte, m) ←
    match hit with
    | some pte => some (pte, m)
    | none => walk origin m pid virtualAddress
  let m ← if present (m.load pte) then some m else loadPage origin m pte
  some (finish origin m pte virtualAddress op)

/-- `mmu_rw_from_virtual_address`. -/
def mmuRwFromVirtualAddress (m : Machine) (pid virtualAddress : Nat) (op : Op) :
    Option (Result × Machine) := do
  let m := contextSwitch m pid
  let segmentations ← m.segmentations pid
  let fault : Machine := { m with numSegmentationFaults := m.numSegmentationFaults + 1 }
  match findSegment segmentations virtualAddress with
  | none => some (.segfault, fault)
  | some seg =>
    if seg.permissions &&& op.permission = 0 then some (.segfault, fault)
    else access origin m pid virtualAddress op

/-- One of the first two pages of the testing segment. -/
def mapTestingPage (k : Kernel) (pte : EntryPtr) : Option Kernel := do
  let (address, k) ← askKernelForFrame origin k (some pte)
  let k := k.store pte (setBaseAddr (k.load pte) (address / 4096))
  let k := k.store pte (setFlag presentBit true (k.load pte))
  let k := k.store pte (setFlag readWriteBit true (k.load pte))
  some (k.store pte (setFlag userSupervisorBit true (k.load pte)))

/-- `mmu_add_process`. -/
def mmuAddProcess (m : Machine) (pid : Nat) : Option Machine := do
  let (address, k) ← askKernelForFrame origin m.toKernel none
  let pd := (systemPointer origin address).1
  let m := { m with toKernel := k
                    pageDirectories := Function.update m.pageDirectories pid (some pd)
                    segmentations := Function.update m.segmentations pid (some newSegmentations) }
  let pde : EntryPtr := ⟨pd, 0⟩
  let (address, k) ← askKernelForFrame origin m.toKernel none
  let k := k.store pde (setBaseAddr (k.load pde) (address / 4096))
  let k := k.store pde (setFlag presentBit true (k.load pde))
  let k := k.store pde (setFlag readWriteBit true (k.load pde))
  let k := k.store pde (setFlag userSupervisorBit true (k.load pde))
  let k ← mapTestingPage origin k ⟨pointsTo origin (k.load pde), 1⟩
  let k ← mapTestingPage origin k ⟨pointsTo origin (k.load pde), 2⟩
  some { m with toKernel := k }

/-- What `mmu_remove_process` does with a page table entry. -/
def releasePage (k : Kernel) (pte : EntryPtr) : Kernel :=
  let k := if present (k.load pte) then returnFrameToKernel k (pointsTo origin (k.load pte)) else k
  removeSwapFile k pte

/-- What `mmu_remove_process` does with a page directory entry. -/
def releaseTable (k : Kernel) (pde : EntryPtr) : Kernel :=
  if present (k.load pde) then
    let pt := pointsTo origin (k.load pde)
    returnFrameToKernel ((List.range 1024).foldl (fun k i => releasePage origin k ⟨pt, i⟩) k) pt
  else k

/-- `mmu_remove_process`. -/
def mmuRemoveProcess (m : Machine) (pid : Nat) : Machine :=
  let k :=
    match m.pageDirectories pid with
    | none => m.toKernel
    | some pd =>
      returnFrameToKernel
        ((List.range 1024).foldl (fun k i => releaseTable origin k ⟨pd, i⟩) m.toKernel) pd
  { m with toKernel := k
           pageDirectories := Function.update m.pageDirectories pid none
           segmentations := Function.update m.segmentations pid none
           tlb := if m.currPid = pid then tlbCreate else m.tlb }

/-! ## Operations one after another -/

/-- `MAX_PROCESS_ID`. -/
def maxProcessId : Nat := 32768

/-- An operation. -/
inductive Event where
  | add (pid : Nat)
  | remove (pid : Nat)
  | rw (pid virtualAddress : Nat) (op : Op)
  deriving DecidableEq

/-- The number of bytes of an access. -/
def Op.size : Op → Nat
  | .read n => n
  | .write buffer => buffer.length

/-- One operation, with the result of an access. A process is added while it is absent, and
an access stays in one page. -/
def step (m : Machine) : Event → Option (Option Result × Machine)
  | .add pid =>
    if pid < maxProcessId ∧ m.pageDirectories pid = none then
      (mmuAddProcess origin m pid).map fun m => (none, m)
    else none
  | .remove pid =>
    if pid < maxProcessId then some (none, mmuRemoveProcess origin m pid) else none
  | .rw pid virtualAddress op =>
    if pid < maxProcessId ∧ virtualAddress < 2 ^ 32 ∧ op.size + virtualAddress % 4096 ≤ 4096 then
      (mmuRwFromVirtualAddress origin m pid virtualAddress op).map fun (r, m) => (some r, m)
    else none

end SystemProgramming.Paging
