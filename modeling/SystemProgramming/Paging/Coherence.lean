import SystemProgramming.Foundation.Run
import SystemProgramming.Paging.Loading

/-!
# Virtual memory is coherent

Each process sees its own flat memory of zeros: a read returns what the process itself has
written last, wherever the page has been in between. The TLB holds the right entries of the
current process, so a hit finds what a walk would find; faults and evictions change no page.

## Main definitions

* `History`, `record`: what has happened, the most recent first
* `lastWrite`: the last byte that a process has written to an address
* `Inv`: the invariant

## Main results

* `walk_spec`, `loadPage_spec`, `addProcess_spec`: what brings in tables and pages changes no
  page
* `inv_step`: every operation keeps the invariant
* `coherence`: a read returns what was written last
-/

namespace SystemProgramming.Paging

variable {origin : Fin (2 ^ 20)} {m m' : Machine}

/-- Tables may have been added; pages, the directories and the TLB are as before. -/
structure Keeps (origin : Fin (2 ^ 20)) (m m' : Machine) : Prop where
  frames : Frames origin m'.toKernel m'.pageDirectories none
  content : ∀ pid v, content origin m'.toKernel m'.pageDirectories pid v =
    content origin m.toKernel m.pageDirectories pid v
  pte : ∀ pid v e, pte? origin m.toKernel m.pageDirectories pid v = some e →
    pte? origin m'.toKernel m'.pageDirectories pid v = some e
  dirs : m'.pageDirectories = m.pageDirectories
  tlb : m'.tlb = m.tlb
  currPid : m'.currPid = m.currPid

theorem Keeps.refl (h : Frames origin m.toKernel m.pageDirectories none) : Keeps origin m m :=
  ⟨h, fun _ _ => rfl, fun _ _ _ he => he, rfl, rfl, rfl⟩

theorem Keeps.trans {m₁ m₂ m₃ : Machine} (h : Keeps origin m₁ m₂) (h' : Keeps origin m₂ m₃) :
    Keeps origin m₁ m₃ :=
  ⟨h'.frames, fun pid v => (h'.content pid v).trans (h.content pid v),
    fun pid v e he => h'.pte pid v e (h.pte pid v e he), h'.dirs.trans h.dirs, h'.tlb.trans h.tlb,
    h'.currPid.trans h.currPid⟩

/-! ## Faults -/

/-- The entry that is written after a fault, in the frame at `address`. -/
def newEntry (w address : Nat) (user : Bool) : Nat :=
  setFlag userSupervisorBit user (setFlag readWriteBit true
    (setFlag presentBit true (setBaseAddr w (address / 4096))))

/-- The three flags that are set after a fault. -/
theorem store_flags (k : Kernel) (e : EntryPtr) (b : Bool) :
    let k₁ := k.store e (setFlag presentBit true (k.load e))
    let k₂ := k₁.store e (setFlag readWriteBit true (k₁.load e))
    k₂.store e (setFlag userSupervisorBit b (k₂.load e)) =
      k.store e (setFlag userSupervisorBit b (setFlag readWriteBit true
        (setFlag presentBit true (k.load e)))) := by
  have h₁ : setFlag presentBit true (k.load e) < 2 ^ 32 :=
    setFlag_lt (by simp [presentBit]) _ (k.load_lt e)
  have h₂ : setFlag readWriteBit true (setFlag presentBit true (k.load e)) < 2 ^ 32 :=
    setFlag_lt (by simp [readWriteBit]) _ h₁
  intro k₁ k₂
  have hk₂ : k₂ = k.store e (setFlag readWriteBit true (setFlag presentBit true (k.load e))) :=
    Kernel.store_load_store h₁ fun w => setFlag readWriteBit true w
  rw [hk₂]
  exact Kernel.store_load_store h₂ fun w => setFlag userSupervisorBit b w

/-- The same after the base address has been written. -/
theorem store_base_flags (k : Kernel) (e : EntryPtr) (address : Nat) (b : Bool) :
    let k₀ := k.store e (setBaseAddr (k.load e) (address / 4096))
    let k₁ := k₀.store e (setFlag presentBit true (k₀.load e))
    let k₂ := k₁.store e (setFlag readWriteBit true (k₁.load e))
    k₂.store e (setFlag userSupervisorBit b (k₂.load e)) =
      k.store e (newEntry (k.load e) address b) := by
  intro k₀ k₁ k₂
  have hlt : setBaseAddr (k.load e) (address / 4096) < 2 ^ 32 := setBaseAddr_lt (k.load_lt e)
  exact (store_flags k₀ e b).trans (by rw [Kernel.load_store hlt, Kernel.store_store]; rfl)

/-- Bringing in a table: a directory entry has no swap file. -/
theorem loadTable_eq {pde : EntryPtr} {address : Nat} {k : Kernel}
    (hask : askKernelForFrame origin m.toKernel none = some (address, k))
    (hfile : k.swapFiles (.bin pde) = none) :
    loadTable origin m pde = some { m with
      toKernel := k.store pde (newEntry (k.load pde) address false)
      numPageFaults := m.numPageFaults + 1 } := by
  obtain ⟨k₀, hk₀⟩ : ∃ k₀, k₀ = k.store pde (setBaseAddr (k.load pde) (address / 4096)) := ⟨_, rfl⟩
  have hread : readPageFromDisk origin k₀ pde = k₀ := by
    have hnone : k₀.swapFiles (.bin pde) = none := by rw [hk₀]; exact hfile
    rw [readPageFromDisk, hnone]
  simp only [loadTable, Option.bind_eq_bind, hask, Option.bind_some]
  rw [← hk₀, hread, hk₀, store_base_flags]

/-- **A missing table** is brought in. -/
theorem loadTable_spec {pid d i : Nat} (h : Frames origin m.toKernel m.pageDirectories none)
    (hd : m.pageDirectories pid = some d)
    (hnone : tableFrame origin m.toKernel m.pageDirectories pid i = none)
    (hload : loadTable origin m ⟨d, i⟩ = some m') :
    Keeps origin m m' ∧ ∃ t, tableFrame origin m'.toKernel m'.pageDirectories pid i = some t := by
  obtain ⟨⟨address, k₁⟩, hask⟩ : ∃ s, askKernelForFrame origin m.toKernel none = some s := by
    simp only [loadTable, Option.bind_eq_bind, Option.bind_eq_some_iff] at hload
    exact ⟨_, hload.choose_spec.1⟩
  obtain ⟨f, rfl, hh⟩ := ask_spec h hask
  -- a directory has no swap files
  have hfile : k₁.swapFiles (.bin ⟨d, i⟩) = none := by
    by_contra hfile
    obtain ⟨p, j, ht⟩ := hh.frames.swap ⟨d, i⟩ hfile
    have := hh.frames.inj (.dir pid) (.table p j) d hd ht
    simp at this
  rw [loadTable_eq hask hfile] at hload
  obtain rfl := Option.some.inj hload
  obtain ⟨hframes, htable, -, hpte, hcontent⟩ := newTable_spec
    (k₁.store ⟨d, i⟩ (newEntry (k₁.load ⟨d, i⟩) (frameAddress origin f) false)) hh hd hnone
    (newEntry_lt (k₁.load_lt _) _ _) (target_newEntry hh.bound _ _) rfl rfl rfl
  exact ⟨⟨hframes, hcontent, hpte, rfl, rfl, rfl⟩, f, htable⟩

/-- The entries of a table are found through the directory. -/
theorem pte?_of_tableFrame {k : Kernel} {dirs : Nat → Option Nat} {pid d v t : Nat}
    (hd : dirs pid = some d) (ht : tableFrame origin k dirs pid (v / 1024) = some t) :
    pte? origin k dirs pid v = some ⟨pointsTo origin (k.load ⟨d, v / 1024⟩), v % 1024⟩ := by
  rw [pte?, ht]
  rw [tableFrame, hd, Option.bind_some, target] at ht
  split_ifs at ht
  rw [Option.map_some, ← Option.some.inj ht]

/-- **The walk** finds the entry of the page. -/
theorem walk_spec {pid va : Nat} {e : EntryPtr}
    (h : Frames origin m.toKernel m.pageDirectories none)
    (hwalk : walk origin m pid va = some (e, m')) :
    Keeps origin m m' ∧ pte? origin m'.toKernel m'.pageDirectories pid (va / 4096) = some e := by
  simp only [walk, Option.bind_eq_bind, Option.bind_eq_some_iff] at hwalk
  obtain ⟨d, hd, hwalk⟩ := hwalk
  have hdiv : va / 2 ^ 22 = va / 4096 / 1024 := by omega
  rw [hdiv] at hwalk
  split_ifs at hwalk with hpresent
  · rw [Option.bind_some, Option.some.injEq] at hwalk
    obtain ⟨rfl, rfl⟩ := Prod.mk.inj hwalk
    have ht : tableFrame origin m.toKernel m.pageDirectories pid (va / 4096 / 1024) =
        some (pointsTo origin (m.load ⟨d, va / 4096 / 1024⟩)) := by
      rw [tableFrame, hd, Option.bind_some, target, if_pos hpresent]
    have hkeeps := Keeps.refl h
    exact ⟨⟨h, hkeeps.content, hkeeps.pte, rfl, rfl, rfl⟩, pte?_of_tableFrame hd ht⟩
  · obtain ⟨m₁, hm₁, hwalk⟩ := Option.bind_eq_some_iff.mp hwalk
    obtain ⟨rfl, rfl⟩ := Prod.mk.inj (Option.some.inj hwalk)
    have ht : tableFrame origin m.toKernel m.pageDirectories pid (va / 4096 / 1024) = none := by
      rw [tableFrame, hd, Option.bind_some, target, if_neg hpresent]
    obtain ⟨hkeeps, t, ht'⟩ := loadTable_spec (m := { m with numTlbMisses := m.numTlbMisses + 1 })
      h hd ht hm₁
    exact ⟨⟨hkeeps.frames, hkeeps.content, hkeeps.pte, hkeeps.dirs, hkeeps.tlb, hkeeps.currPid⟩,
      pte?_of_tableFrame (hkeeps.dirs ▸ hd) ht'⟩

/-- Writing to another frame and writing an entry commute. -/
theorem store_update {k : Kernel} {e : EntryPtr} {f w : Nat} {x : Memory} (hef : f ≠ e.frame) :
    Kernel.store { k with memory := Function.update k.memory f x } e w =
      { k.store e w with memory := Function.update (k.store e w).memory f x } := by
  simp only [Kernel.store, Function.update_of_ne (Ne.symm hef), Function.update_comm hef]

/-- The frame of a page gets what the swap file of its entry has, if there is one. -/
theorem readPage_store {k : Kernel} {e : EntryPtr} {f : Nat} (hf : f < numPhysicalPages)
    (hef : f ≠ e.frame) :
    let k₀ := k.store e (setBaseAddr (k.load e) (frameAddress origin f / 4096))
    let k₁ := readPageFromDisk origin k₀ e
    let k₂ := k₁.store e (setFlag presentBit true (k₁.load e))
    let k₃ := k₂.store e (setFlag readWriteBit true (k₂.load e))
    k₃.store e (setFlag userSupervisorBit true (k₃.load e)) =
      ⟨Function.update (k.store e (newEntry (k.load e) (frameAddress origin f) true)).memory f
        ((k.swapFiles (.bin e)).getD (k.memory f)), k.entryMapping, k.swapFiles⟩ := by
  intro k₀ k₁ k₂ k₃
  obtain ⟨w₀, hw₀⟩ : ∃ w₀, w₀ = setBaseAddr (k.load e) (frameAddress origin f / 4096) := ⟨_, rfl⟩
  obtain ⟨x, hx⟩ : ∃ x, x = (k.swapFiles (.bin e)).getD (k.memory f) := ⟨_, rfl⟩
  have hlt : w₀ < 2 ^ 32 := hw₀ ▸ setBaseAddr_lt (k.load_lt e)
  have hpoints : pointsTo origin w₀ = f := by
    apply pointsTo_of_baseAddr hf
    rw [hw₀, baseAddr_setBaseAddr]
  -- the entry is in another frame than the page
  have hk₁ : k₁ = { k.store e w₀ with memory := Function.update (k.store e w₀).memory f x } := by
    change readPageFromDisk origin (k.store e (setBaseAddr (k.load e) _)) e = _
    rw [← hw₀, readPageFromDisk, Kernel.load_store hlt, hpoints, hx]
    have hswap : (k.store e w₀).swapFiles (.bin e) = k.swapFiles (.bin e) := rfl
    rw [hswap]
    cases k.swapFiles (.bin e) with
    | some page => rfl
    | none =>
      rw [Option.getD_none, ← Kernel.memory_store_of_ne (w := w₀) hef, Function.update_eq_self]
  have hload : k₁.load e = w₀ := by
    have hsame : k₁.load e = (k.store e w₀).load e := by
      apply load_congr
      rw [hk₁]
      exact Function.update_of_ne (Ne.symm hef) _ _
    rw [hsame, Kernel.load_store hlt]
  have hflags : k₃.store e (setFlag userSupervisorBit true (k₃.load e)) =
      k₁.store e (newEntry (k.load e) (frameAddress origin f) true) := by
    refine (store_flags k₁ e true).trans ?_
    rw [hload, hw₀]
    rfl
  rw [hflags, hk₁, ← hx, store_update hef, Kernel.store_store]
  rfl

/-- Bringing in a page. -/
theorem loadPage_eq {e : EntryPtr} {f : Nat} {k : Kernel} (hf : f < numPhysicalPages)
    (hef : f ≠ e.frame)
    (hask : askKernelForFrame origin m.toKernel (some e) = some (frameAddress origin f, k)) :
    loadPage origin m e = some { m with
      toKernel :=
        ⟨Function.update (k.store e (newEntry (k.load e) (frameAddress origin f) true)).memory f
          ((k.swapFiles (.bin e)).getD (k.memory f)), k.entryMapping, k.swapFiles⟩
      numPageFaults := m.numPageFaults + 1 } := by
  simp only [loadPage, Option.bind_eq_bind, hask, Option.bind_some]
  rw [readPage_store hf hef]

theorem present_of_target {w f : Nat} (h : target origin w = some f) : present w = true := by
  by_contra habsent
  rw [target, if_neg habsent] at h
  simp at h

/-- **A missing page** is brought in. -/
theorem loadPage_spec {pid v : Nat} {e : EntryPtr}
    (h : Frames origin m.toKernel m.pageDirectories none)
    (he : pte? origin m.toKernel m.pageDirectories pid v = some e)
    (habsent : present (m.load e) = false) (hload : loadPage origin m e = some m') :
    Keeps origin m m' ∧ present (m'.load e) = true := by
  obtain ⟨⟨address, k₁⟩, hask⟩ : ∃ s, askKernelForFrame origin m.toKernel (some e) = some s := by
    simp only [loadPage, Option.bind_eq_bind, Option.bind_eq_some_iff] at hload
    exact ⟨_, hload.choose_spec.1⟩
  obtain ⟨f, rfl, hh⟩ := ask_spec h hask
  have hef : f ≠ e.frame := by
    rintro rfl
    refine hh.frames.unused e.frame rfl (.table pid (v / 1024)) ?_
    exact (pte?_eq_some.mp ((hh.tables.pte pid v).trans he)).1
  have htarget : target origin (m.load e) = none := by rw [target, habsent]; rfl
  rw [loadPage_eq hh.bound hef hask, hh.zero] at hload
  obtain rfl := Option.some.inj hload
  -- the frame has the page of the swap file, or zeros
  have hcontent : (k₁.swapFiles (.bin e)).getD Memory.zero =
      content origin m.toKernel m.pageDirectories pid v := by
    rw [← hh.content pid v, content_of_pte ((hh.tables.pte pid v).trans he),
      hh.load e pid v rfl he, htarget]
  have hwf : target origin (newEntry (k₁.load e) (frameAddress origin f) true) = some f :=
    target_newEntry hh.bound _ _
  obtain ⟨hframes, hsame, hloade, -, hcontents⟩ := newPage_spec
    ⟨Function.update (k₁.store e (newEntry (k₁.load e) (frameAddress origin f) true)).memory f
      ((k₁.swapFiles (.bin e)).getD Memory.zero), k₁.entryMapping, k₁.swapFiles⟩
    hh he htarget (newEntry_lt (k₁.load_lt e) _ _) hwf hcontent rfl rfl rfl
  refine ⟨⟨hframes, hcontents, fun p v e he => (hsame.pte p v).trans he, rfl, rfl, rfl⟩, ?_⟩
  apply @present_of_target origin _ f
  rw [← hwf]
  exact congrArg _ hloade

/-! ## New processes -/

/-- A page of zeros is mapped. -/
theorem mapTestingPage_spec {k k' : Kernel} {dirs : Nat → Option Nat} {pid v : Nat} {e : EntryPtr}
    (h : Frames origin k dirs none) (he : pte? origin k dirs pid v = some e)
    (habsent : pageFrame origin k dirs pid v = none)
    (hzero : content origin k dirs pid v = Memory.zero)
    (hmap : mapTestingPage origin k e = some k') :
    Frames origin k' dirs none ∧ SameTables origin k k' dirs ∧
    (∀ u, u ≠ .page pid v → frame? origin k dirs u = none → frame? origin k' dirs u = none) ∧
    ∀ p v, content origin k' dirs p v = content origin k dirs p v := by
  simp only [mapTestingPage, Option.bind_eq_bind, Option.bind_eq_some_iff] at hmap
  obtain ⟨⟨address, k₁⟩, hask, hmap⟩ := hmap
  obtain ⟨f, rfl, hh⟩ := ask_spec h hask
  dsimp only at hmap
  rw [store_base_flags] at hmap
  obtain rfl := Option.some.inj hmap
  have hef : f ≠ e.frame := by
    rintro rfl
    refine hh.frames.unused e.frame rfl (.table pid (v / 1024)) ?_
    exact (pte?_eq_some.mp ((hh.tables.pte pid v).trans he)).1
  rw [pageFrame, he, Option.bind_some] at habsent
  obtain ⟨w, hw⟩ : ∃ w, w = newEntry (k₁.load e) (frameAddress origin f) true := ⟨_, rfl⟩
  rw [← hw]
  have hmem : (k₁.store e w).memory = Function.update (k₁.store e w).memory f Memory.zero := by
    rw [← hh.zero, ← Kernel.memory_store_of_ne (w := w) hef, Function.update_eq_self]
  obtain ⟨hframes, hsame, -, hframe, hcontent⟩ := newPage_spec (k₁.store e w) hh he habsent
    (hw ▸ newEntry_lt (k₁.load_lt e) _ _) (hw ▸ target_newEntry hh.bound _ _) hzero.symm hmem rfl rfl
  refine ⟨hframes, hsame, fun u hu hnone => ?_, hcontent⟩
  rw [hframe, if_neg hu, hh.absent u hnone]

/-- **Adding a process** changes no page of another process, and its own pages are zero. -/
theorem addProcess_spec {pid : Nat} (h : Frames origin m.toKernel m.pageDirectories none)
    (hpid : m.pageDirectories pid = none) (hadd : mmuAddProcess origin m pid = some m') :
    Frames origin m'.toKernel m'.pageDirectories none ∧
    (∀ p v e, pte? origin m.toKernel m.pageDirectories p v = some e →
      pte? origin m'.toKernel m'.pageDirectories p v = some e) ∧
    (∀ p v, content origin m'.toKernel m'.pageDirectories p v =
      content origin m.toKernel m.pageDirectories p v) ∧
    m'.tlb = m.tlb ∧ m'.currPid = m.currPid := by
  simp only [mmuAddProcess, Option.bind_eq_bind, Option.bind_eq_some_iff] at hadd
  obtain ⟨⟨address, k₁⟩, hask₁, ⟨address₂, k₂⟩, hask₂, k₄, hpage₁, k₅, hpage₂, hadd⟩ := hadd
  obtain ⟨d, rfl, hh₁⟩ := ask_spec h hask₁
  obtain ⟨dirs, hdirs⟩ : ∃ dirs, dirs = Function.update m.pageDirectories pid (some d) := ⟨_, rfl⟩
  obtain ⟨hframes₁, htable₁, hcontent₁⟩ := newDir_spec hh₁ hpid
  rw [← hdirs] at hframes₁ htable₁ hcontent₁
  have hd : dirs pid = some d := by rw [hdirs, Function.update_self]
  -- the table of the first pages
  dsimp only at hask₂ hpage₁ hpage₂ hadd
  obtain ⟨t, rfl, hh₂⟩ := ask_spec hframes₁ hask₂
  rw [systemPointer_frameAddress hh₁.bound] at hpage₁ hpage₂ hadd
  dsimp only at hpage₁ hpage₂ hadd
  rw [← hdirs] at hadd
  rw [store_base_flags] at hpage₁
  obtain ⟨k₃, hk₃⟩ : ∃ k₃, k₃ = k₂.store ⟨d, 0⟩
    (newEntry (k₂.load ⟨d, 0⟩) (frameAddress origin t) true) := ⟨_, rfl⟩
  rw [← hk₃] at hpage₁
  have hnone₁ : ∀ i, tableFrame origin k₁ dirs pid i = none := by
    intro i
    rw [htable₁, tableFrame, hpid, Option.bind_none]
  obtain ⟨hframes₃, htable₃, hpage₃, hpte₃, hcontent₃⟩ := newTable_spec k₃ hh₂ hd (hnone₁ 0)
    (newEntry_lt (k₂.load_lt _) _ true) (target_newEntry hh₂.bound _ _) (by rw [hk₃]; rfl)
    (by rw [hk₃]; rfl) (by rw [hk₃]; rfl)
  -- the pages of the process are absent and zero
  have hpte₁ : ∀ v, pte? origin k₁ dirs pid v = none := by
    intro v
    rw [pte?, hnone₁, Option.map_none]
  have habsent₃ : ∀ v, pageFrame origin k₃ dirs pid v = none := by
    intro v
    rw [hpage₃]
    exact hh₂.absent (.page pid v) (by rw [frame?, pageFrame, hpte₁, Option.bind_none])
  have hzero₃ : ∀ v, content origin k₃ dirs pid v = Memory.zero := by
    intro v
    rw [hcontent₃, content, hpte₁]
  -- the two pages of the testing segment
  obtain ⟨hframes₄, hsame₄, habsent₄, hcontent₄⟩ := mapTestingPage_spec (v := 1) hframes₃
    (pte?_of_tableFrame hd htable₃) (habsent₃ 1) (hzero₃ 1) hpage₁
  obtain ⟨hframes₅, hsame₅, -, hcontent₅⟩ := mapTestingPage_spec (v := 2) hframes₄
    (pte?_of_tableFrame hd ((hsame₄.table pid 0).trans htable₃))
    (habsent₄ (.page pid 2) (by simp) (habsent₃ 2)) ((hcontent₄ pid 2).trans (hzero₃ 2)) hpage₂
  obtain rfl := Option.some.inj hadd
  refine ⟨hframes₅, ?_, ?_, rfl, rfl⟩
  · intro p v e he
    have he₁ : pte? origin k₁ dirs p v = some e := by
      rw [pte?, htable₁]
      exact he
    exact (hsame₅.pte p v).trans ((hsame₄.pte p v).trans (hpte₃ p v e he₁))
  · intro p v
    rw [hcontent₅, hcontent₄, hcontent₃, hcontent₁]

/-! ## The TLB -/

/-- What holds of all nodes holds after a lookup, and of the entry that was found. -/
theorem tlbGetPte_spec {P : Nat → EntryPtr → Prop} {tlb : Tlb} (page : Nat)
    (h : ∀ b e, (b, some e) ∈ tlb → P b e) :
    (∀ b e, (b, some e) ∈ (tlbGetPte tlb page).2 → P b e) ∧
    ∀ e, (tlbGetPte tlb page).1 = some e → P page e := by
  rw [tlbGetPte]
  cases hfind : tlb.find? fun node => node.1 = page with
  | none => exact ⟨h, fun e he => by simp at he⟩
  | some node =>
    obtain ⟨b, e⟩ := node
    have hmem : (b, e) ∈ tlb := List.mem_of_find?_eq_some hfind
    have hpage : b = page := by simpa using List.find?_some hfind
    refine ⟨fun b' e' hmem' => ?_, fun e' he' => ?_⟩
    · rcases List.mem_cons.mp hmem' with heq | hmem'
      · obtain ⟨rfl, rfl⟩ := Prod.mk.inj heq
        exact h _ _ hmem
      · exact h _ _ (List.mem_of_mem_eraseP hmem')
    · dsimp only at he'
      rw [he', hpage] at hmem
      exact h _ _ hmem

theorem tlbAddPte_spec {P : Nat → EntryPtr → Prop} {tlb : Tlb} {page : Nat} {entry : EntryPtr}
    (h : ∀ b e, (b, some e) ∈ tlb → P b e) (hnew : P page entry) :
    ∀ b e, (b, some e) ∈ tlbAddPte tlb page entry → P b e := by
  intro b e hmem
  rcases List.mem_cons.mp hmem with heq | hmem
  · obtain ⟨rfl, he⟩ := Prod.mk.inj heq
    exact Option.some.inj he ▸ hnew
  · split_ifs at hmem
    · exact h b e (List.mem_of_mem_dropLast hmem)
    · exact h b e hmem

/-! ## Accesses -/

/-- What an access does to the pages of all processes. -/
def opContent (op : Op) (offset : Nat) (page : Memory) : Memory :=
  match op with
  | .read _ => page
  | .write buffer => page.write offset buffer

/-- What an access returns. -/
def opResult (op : Op) (offset : Nat) (page : Memory) : Result :=
  match op with
  | .read n => .bytes (page.read offset n)
  | .write _ => .written

/-- Flags that are set on a present entry change no page. -/
theorem setFlag_touch {k : Kernel} {dirs : Nat → Option Nat} {pid v b : Nat} {e : EntryPtr}
    (hb : b ∈ [25, 26]) (h : Frames origin k dirs none) (he : pte? origin k dirs pid v = some e) :
    Frames origin (k.store e (setFlag b true (k.load e))) dirs none ∧
    SameTables origin k (k.store e (setFlag b true (k.load e))) dirs ∧
    ∀ p v, content origin (k.store e (setFlag b true (k.load e))) dirs p v =
      content origin k dirs p v := by
  have hb' : b ∈ [25, 26, 29, 30] := by
    simp only [List.mem_cons, List.not_mem_nil, or_false] at hb ⊢
    omega
  have hb'' : b ∈ [25, 26, 29, 30, 31] := by
    simp only [List.mem_cons, List.not_mem_nil, or_false] at hb ⊢
    omega
  refine touch_spec h he (setFlag_lt hb'' _ (k.load_lt e)) ?_
  rw [target, target, present_setFlag hb', pointsTo, pointsTo, baseAddr_setFlag hb'']

/-- **The end of an access** reads or writes the page. -/
theorem finish_spec {pid va : Nat} {e : EntryPtr} {op : Op} {r : Result}
    (h : Frames origin m.toKernel m.pageDirectories none)
    (he : pte? origin m.toKernel m.pageDirectories pid (va / 4096) = some e)
    (hpresent : present (m.load e) = true) (hfin : finish origin m e va op = (r, m')) :
    Frames origin m'.toKernel m'.pageDirectories none ∧
    (∀ p v, pte? origin m'.toKernel m'.pageDirectories p v =
      pte? origin m.toKernel m.pageDirectories p v) ∧
    m'.tlb = tlbAddPte m.tlb (va / 4096) e ∧ m'.currPid = m.currPid ∧
    r = opResult op (va % 4096) (content origin m.toKernel m.pageDirectories pid (va / 4096)) ∧
    ∀ p v, content origin m'.toKernel m'.pageDirectories p v =
      if p = pid ∧ v = va / 4096 then
        opContent op (va % 4096) (content origin m.toKernel m.pageDirectories p v)
      else content origin m.toKernel m.pageDirectories p v := by
  have htarget : target origin (m.load e) = some (pointsTo origin (m.load e)) := by
    rw [target, if_pos hpresent]
  have hcontent : content origin m.toKernel m.pageDirectories pid (va / 4096) =
      m.memory (pointsTo origin (m.load e)) := by
    rw [content_of_pte he, htarget]
  have hpointer : systemPointer origin ((baseAddr (m.load e) * 4096 + va % 4096) % 2 ^ 32) =
      (pointsTo origin (m.load e), va % 4096) := systemPointer_offset (m.load e) (by omega)
  cases op with
  | read n =>
    simp only [finish, transfer, hpointer] at hfin
    obtain ⟨rfl, rfl⟩ := Prod.mk.inj hfin
    obtain ⟨hframes, hsame, hcontents⟩ := setFlag_touch (b := accessedBit) (by simp [accessedBit]) h he
    refine ⟨hframes, hsame.pte, rfl, rfl, by rw [hcontent]; rfl, fun p v => ?_⟩
    rw [opContent, ite_self]
    exact hcontents p v
  | write buffer =>
    simp only [finish, transfer, hpointer] at hfin
    obtain ⟨rfl, rfl⟩ := Prod.mk.inj hfin
    obtain ⟨k₁, hk₁⟩ : ∃ k₁ : Kernel, k₁ = { m.toKernel with
      memory := Function.update m.memory (pointsTo origin (m.load e))
        ((m.memory (pointsTo origin (m.load e))).write (va % 4096) buffer) } := ⟨_, rfl⟩
    rw [← hk₁]
    obtain ⟨hframes₁, hsame₁, -, hcontents₁⟩ := writePage_spec k₁ h he htarget
      (by rw [hk₁]) (by rw [hk₁]) (by rw [hk₁])
    obtain ⟨hframes₂, hsame₂, hcontents₂⟩ := setFlag_touch (b := accessedBit) (by simp [accessedBit])
      hframes₁ ((hsame₁.pte _ _).trans he)
    obtain ⟨hframes₃, hsame₃, hcontents₃⟩ := setFlag_touch (b := dirtyBit) (by simp [dirtyBit])
      hframes₂ ((hsame₂.pte _ _).trans ((hsame₁.pte _ _).trans he))
    refine ⟨hframes₃, fun p v => ?_, rfl, rfl, rfl, fun p v => ?_⟩
    · exact (hsame₃.pte p v).trans ((hsame₂.pte p v).trans (hsame₁.pte p v))
    · refine (hcontents₃ p v).trans ((hcontents₂ p v).trans ((hcontents₁ p v).trans ?_))
      split_ifs with hp
      · rw [hp.1, hp.2, hcontent]
        rfl
      · rfl

/-- An access is a lookup, a walk if it misses, a fault if the page is absent, and the transfer. -/
theorem access_eq_some {pid va : Nat} {op : Op} {s : Result × Machine} :
    access origin m pid va op = some s ↔
      ∃ e m₁ m₂, ((tlbGetPte m.tlb (va / 4096)).1 = some e ∧
            { m with tlb := (tlbGetPte m.tlb (va / 4096)).2 } = m₁ ∨
          (tlbGetPte m.tlb (va / 4096)).1 = none ∧
            walk origin { m with tlb := (tlbGetPte m.tlb (va / 4096)).2 } pid va = some (e, m₁)) ∧
        (present (m₁.load e) = true ∧ m₁ = m₂ ∨
          present (m₁.load e) = false ∧ loadPage origin m₁ e = some m₂) ∧
        finish origin m₂ e va op = s := by
  have hpage : ∀ (m₁ : Machine) (e : EntryPtr),
      (if present (m₁.load e) then some (finish origin m₁ e va op)
        else (loadPage origin m₁ e).bind fun m => some (finish origin m e va op)) = some s ↔
        ∃ m₂, (present (m₁.load e) = true ∧ m₁ = m₂ ∨
          present (m₁.load e) = false ∧ loadPage origin m₁ e = some m₂) ∧
          finish origin m₂ e va op = s := by
    intro m₁ e
    by_cases hp : present (m₁.load e) = true
    · simp [hp]
    · simp [hp, Option.bind_eq_some_iff]
  rcases hget : tlbGetPte m.tlb (va / 4096) with ⟨hit, tlb⟩
  cases hit with
  | some e => simp [access, hget, ← hpage]
  | none => simp [access, hget, Option.bind_eq_some_iff, ← hpage]

/-- The nodes of the TLB are entries of the current process. -/
def TlbOk (origin : Fin (2 ^ 20)) (m : Machine) : Prop :=
  ∀ b e, (b, some e) ∈ m.tlb → pte? origin m.toKernel m.pageDirectories m.currPid b = some e

/-- **An access** that the segments allow. -/
theorem access_spec {pid va : Nat} {op : Op} {r : Result}
    (h : Frames origin m.toKernel m.pageDirectories none) (htlb : TlbOk origin m)
    (hpid : m.currPid = pid) (hacc : access origin m pid va op = some (r, m')) :
    Frames origin m'.toKernel m'.pageDirectories none ∧ TlbOk origin m' ∧
    r = opResult op (va % 4096) (content origin m.toKernel m.pageDirectories pid (va / 4096)) ∧
    ∀ p v, content origin m'.toKernel m'.pageDirectories p v =
      if p = pid ∧ v = va / 4096 then
        opContent op (va % 4096) (content origin m.toKernel m.pageDirectories p v)
      else content origin m.toKernel m.pageDirectories p v := by
  obtain ⟨hnodes, hfound⟩ := tlbGetPte_spec (va / 4096) htlb
  obtain ⟨e, m₁, m₂, hlookup, hpage, hfin⟩ := access_eq_some.mp hacc
  obtain ⟨m₀, hm₀⟩ : ∃ m₀, m₀ = { m with tlb := (tlbGetPte m.tlb (va / 4096)).2 } := ⟨_, rfl⟩
  rw [← hm₀] at hlookup
  have h₀ : Keeps origin m₀ m₀ := Keeps.refl (by rw [hm₀]; exact h)
  have hcontent₀ : ∀ p v, content origin m₀.toKernel m₀.pageDirectories p v =
      content origin m.toKernel m.pageDirectories p v := by
    rw [hm₀]
    exact fun _ _ => rfl
  -- the entry, from the TLB or from a walk
  have hwalk : Keeps origin m₀ m₁ ∧
      pte? origin m₁.toKernel m₁.pageDirectories pid (va / 4096) = some e := by
    rcases hlookup with ⟨hhit, rfl⟩ | ⟨-, hwalk⟩
    · refine ⟨h₀, ?_⟩
      rw [hm₀]
      exact hpid ▸ hfound e hhit
    · exact walk_spec h₀.frames hwalk
  obtain ⟨hkeeps₁, he⟩ := hwalk
  -- the page
  have hload : Keeps origin m₁ m₂ ∧ present (m₂.load e) = true := by
    rcases hpage with ⟨hpresent, rfl⟩ | ⟨habsent, hload⟩
    · exact ⟨Keeps.refl hkeeps₁.frames, hpresent⟩
    · exact loadPage_spec hkeeps₁.frames he habsent hload
  obtain ⟨hkeeps₂, hpresent⟩ := hload
  have hkeeps := hkeeps₁.trans hkeeps₂
  have hcontent : ∀ p v, content origin m₂.toKernel m₂.pageDirectories p v =
      content origin m.toKernel m.pageDirectories p v := fun p v =>
    (hkeeps.content p v).trans (hcontent₀ p v)
  obtain ⟨hframes, hpte, htlb', hpid', hr, hcontent'⟩ := finish_spec hkeeps₂.frames
    (hkeeps₂.pte _ _ _ he) hpresent hfin
  refine ⟨hframes, ?_, by rw [hr, hcontent], fun p v => by rw [hcontent', hcontent]⟩
  intro b e' hmem
  rw [htlb', hkeeps.tlb, hm₀] at hmem
  rw [hpte, hpid', hkeeps.currPid, hm₀]
  refine tlbAddPte_spec (P := fun b e => pte? origin m₂.toKernel m₂.pageDirectories m.currPid b = some e)
    (fun b e hmem => ?_) ?_ b e' hmem
  · exact hkeeps.pte _ _ _ (by rw [hm₀]; exact hnodes b e hmem)
  · exact hpid ▸ hkeeps₂.pte _ _ _ he

/-- The start of an access leaves only the right nodes in the TLB. -/
theorem contextSwitch_spec (h : TlbOk origin m) (pid : Nat) :
    (contextSwitch m pid).toKernel = m.toKernel ∧
    (contextSwitch m pid).pageDirectories = m.pageDirectories ∧
    (contextSwitch m pid).segmentations = m.segmentations ∧
    (contextSwitch m pid).currPid = pid ∧ TlbOk origin (contextSwitch m pid) := by
  rw [contextSwitch]
  split_ifs with hpid
  · exact ⟨rfl, rfl, rfl, rfl, fun b e hmem => by simp [tlbCreate] at hmem⟩
  · exact ⟨rfl, rfl, rfl, (not_not.mp hpid).symm, h⟩

/-- **A call of `mmu_rw_from_virtual_address`** raises a segmentation fault, or reads or writes the
page. -/
theorem rw_spec {pid va : Nat} {op : Op} {r : Result}
    (h : Frames origin m.toKernel m.pageDirectories none) (htlb : TlbOk origin m)
    (hrw : mmuRwFromVirtualAddress origin m pid va op = some (r, m')) :
    Frames origin m'.toKernel m'.pageDirectories none ∧ TlbOk origin m' ∧
    (r = .segfault ∧ (∀ p v, content origin m'.toKernel m'.pageDirectories p v =
        content origin m.toKernel m.pageDirectories p v) ∨
      r = opResult op (va % 4096) (content origin m.toKernel m.pageDirectories pid (va / 4096)) ∧
      ∀ p v, content origin m'.toKernel m'.pageDirectories p v =
        if p = pid ∧ v = va / 4096 then
          opContent op (va % 4096) (content origin m.toKernel m.pageDirectories p v)
        else content origin m.toKernel m.pageDirectories p v) := by
  obtain ⟨hk, hdirs, -, hcurr, htlb₀⟩ := contextSwitch_spec htlb pid
  obtain ⟨m₀, hm₀⟩ : ∃ m₀, m₀ = contextSwitch m pid := ⟨_, rfl⟩
  rw [← hm₀] at hk hdirs hcurr htlb₀
  rw [← hk, ← hdirs] at h ⊢
  simp only [mmuRwFromVirtualAddress, ← hm₀, Option.bind_eq_bind, Option.bind_eq_some_iff] at hrw
  obtain ⟨segments, -, hrw⟩ := hrw
  split at hrw
  · obtain ⟨rfl, rfl⟩ := Prod.mk.inj (Option.some.inj hrw)
    exact ⟨h, htlb₀, Or.inl ⟨rfl, fun _ _ => rfl⟩⟩
  · split_ifs at hrw
    · obtain ⟨rfl, rfl⟩ := Prod.mk.inj (Option.some.inj hrw)
      exact ⟨h, htlb₀, Or.inl ⟨rfl, fun _ _ => rfl⟩⟩
    · obtain ⟨hframes, htlb, hr, hcontent⟩ := access_spec h htlb₀ hcurr hrw
      exact ⟨hframes, htlb, Or.inr ⟨hr, hcontent⟩⟩

/-! ## Histories -/

/-- What has happened, the most recent first. -/
abbrev History := List (Event × Option Result)

/-- The last byte that a process has written to an address. -/
def lastWrite (pid a : Nat) : History → Option UInt8
  | [] => none
  | (.rw p va (.write buffer), some .written) :: h =>
    if p = pid ∧ va ≤ a ∧ a < va + buffer.length then buffer[a - va]? else lastWrite pid a h
  | _ :: h => lastWrite pid a h

/-- An operation, with its entry in the history. -/
def record (origin : Fin (2 ^ 20)) : Machine × History → Event → Option (Machine × History)
  | (m, h), e => (step origin m e).map fun (r, m) => (m, (e, r) :: h)

/-- **The invariant**: frames are owned, the TLB is right, and every page contains what its
process has written. -/
structure Inv (origin : Fin (2 ^ 20)) (s : Machine × History) : Prop where
  frames : Frames origin s.1.toKernel s.1.pageDirectories none
  tlb : TlbOk origin s.1
  coherent : ∀ pid v offset, offset < 4096 →
    content origin s.1.toKernel s.1.pageDirectories pid v offset =
      (lastWrite pid (4096 * v + offset) s.2).getD 0

theorem inv_create : Inv origin (Machine.create, []) where
  frames := by
    have hframe : ∀ u, frame? origin Machine.create.toKernel Machine.create.pageDirectories u = none := by
      intro u
      cases u <;> rfl
    exact ⟨fun u f hu => by simp [hframe] at hu, fun u u' f hu => by simp [hframe] at hu,
      fun u f hu => by simp [hframe] at hu, fun f hf => by simp [Machine.create] at hf, by simp,
      fun e he => by simp [Machine.create] at he⟩
  tlb := fun b e hmem => by simp [Machine.create, tlbCreate] at hmem
  coherent := fun pid v offset _ => rfl

/-- A write shows in the page where it shows among the addresses. -/
theorem write_getD {pid va p v offset : Nat} {buffer : List UInt8} {page : Memory}
    {before : Option UInt8} (hfit : buffer.length + va % 4096 ≤ 4096) (hoffset : offset < 4096)
    (hpage : page offset = before.getD 0) :
    (if p = pid ∧ v = va / 4096 then page.write (va % 4096) buffer else page) offset =
      (if pid = p ∧ va ≤ 4096 * v + offset ∧ 4096 * v + offset < va + buffer.length then
        buffer[4096 * v + offset - va]? else before).getD 0 := by
  by_cases hp : p = pid ∧ v = va / 4096
  · obtain ⟨rfl, rfl⟩ := hp
    rw [if_pos ⟨rfl, rfl⟩]
    by_cases hin : va % 4096 ≤ offset ∧ offset < va % 4096 + buffer.length
    · have hsub : 4096 * (va / 4096) + offset - va = offset - va % 4096 := by omega
      rw [Memory.write_of_mem hin, if_pos ⟨rfl, by omega, by omega⟩, hsub,
        List.getD_eq_getElem?_getD]
    · rw [Memory.write_of_not_mem hin, if_neg (by omega), hpage]
  · have hout : ¬ (pid = p ∧ va ≤ 4096 * v + offset ∧ 4096 * v + offset < va + buffer.length) := by
      rintro ⟨rfl, hle, hlt⟩
      exact hp ⟨rfl, by omega⟩
    rw [if_neg hp, if_neg hout, hpage]

/-- An access and its entry in the history. -/
theorem inv_rw {h : History} {pid va : Nat} {op : Op} {r : Result} (hi : Inv origin (m, h))
    (hfit : op.size + va % 4096 ≤ 4096)
    (hrw : mmuRwFromVirtualAddress origin m pid va op = some (r, m')) :
    Inv origin (m', (.rw pid va op, some r) :: h) ∧
    (r = .segfault ∨
      r = opResult op (va % 4096) (content origin m.toKernel m.pageDirectories pid (va / 4096))) := by
  obtain ⟨hframes, htlb, ⟨rfl, hcontent⟩ | ⟨hr, hcontent⟩⟩ := rw_spec hi.frames hi.tlb hrw
  · refine ⟨⟨hframes, htlb, fun p v offset hoffset => ?_⟩, Or.inl rfl⟩
    have hlast : lastWrite p (4096 * v + offset) ((.rw pid va op, some .segfault) :: h) =
        lastWrite p (4096 * v + offset) h := by
      cases op <;> rfl
    dsimp only
    rw [hcontent, hlast]
    exact hi.coherent p v offset hoffset
  · refine ⟨⟨hframes, htlb, fun p v offset hoffset => ?_⟩, Or.inr hr⟩
    dsimp only
    rw [hcontent]
    cases op with
    | read n =>
      rw [opContent, ite_self]
      exact hi.coherent p v offset hoffset
    | write buffer =>
      rw [hr]
      exact write_getD hfit hoffset (hi.coherent p v offset hoffset)

/-- **Every operation but the removal of a process keeps the invariant.** -/
theorem inv_step {s s' : Machine × History} {e : Event} (hi : Inv origin s)
    (he : ∀ pid, e ≠ .remove pid) (h : record origin s e = some s') : Inv origin s' := by
  obtain ⟨m, hist⟩ := s
  simp only [record, Option.map_eq_some_iff] at h
  obtain ⟨⟨r, m'⟩, hstep, rfl⟩ := h
  cases e with
  | add pid =>
    simp only [step] at hstep
    split_ifs at hstep with hpid
    obtain ⟨m₁, hadd, heq⟩ := Option.map_eq_some_iff.mp hstep
    obtain ⟨rfl, rfl⟩ := Prod.mk.inj heq
    obtain ⟨hframes, hpte, hcontent, htlb, hcurr⟩ := addProcess_spec hi.frames hpid.2 hadd
    refine ⟨hframes, ?_, fun p v offset hoffset => ?_⟩
    · intro b e hmem
      rw [htlb] at hmem
      rw [hcurr]
      exact hpte _ _ _ (hi.tlb b e hmem)
    · dsimp only
      rw [hcontent]
      exact hi.coherent p v offset hoffset
  | remove pid => exact (he pid rfl).elim
  | rw pid va op =>
    simp only [step] at hstep
    split_ifs at hstep with hfit
    obtain ⟨⟨r₁, m₁⟩, hrw, heq⟩ := Option.map_eq_some_iff.mp hstep
    obtain ⟨rfl, rfl⟩ := Prod.mk.inj heq
    exact (inv_rw hi hfit.2.2 hrw).1

/-- **Virtual memory is coherent.** In every run of operations without removals, a read that
raises no segmentation fault returns for each byte what the same process has written last to
its virtual address, or `0`. -/
theorem coherence {es : List Event} (hes : ∀ e ∈ es, ∀ pid, e ≠ .remove pid) {h : History}
    (hrun : run (record origin) (Machine.create, []) es = some (m, h)) {pid va n : Nat}
    {buffer : List UInt8}
    (hread : step origin m (.rw pid va (.read n)) = some (some (.bytes buffer), m')) :
    buffer = (List.range n).map fun i => (lastWrite pid (va + i) h).getD 0 := by
  have hi : Inv origin (m, h) := by
    refine forall_visits_of_takes (C := fun _ e => ∀ pid, e ≠ .remove pid) inv_create
      (fun _ _ _ hi he h => inv_step hi he h) ?_ (m, h) (Visits.final hrun)
    rintro s e ⟨pre, hpre, -⟩
    exact hes e (hpre.subset (by simp))
  simp only [step] at hread
  split_ifs at hread with hfit
  obtain ⟨⟨r, m₁⟩, hrw, heq⟩ := Option.map_eq_some_iff.mp hread
  obtain ⟨hr, rfl⟩ := Prod.mk.inj heq
  obtain rfl := Option.some.inj hr
  rcases (inv_rw hi hfit.2.2 hrw).2 with hfault | hbytes
  · simp at hfault
  · rw [opResult, Result.bytes.injEq] at hbytes
    rw [hbytes, Memory.read]
    refine List.map_congr_left fun i hi' => ?_
    have hin : i < n := List.mem_range.mp hi'
    have hsize : n + va % 4096 ≤ 4096 := hfit.2.2
    have haddr : 4096 * (va / 4096) + (va % 4096 + i) = va + i := by omega
    have := hi.coherent pid (va / 4096) (va % 4096 + i) (by omega)
    rwa [haddr] at this

/-- Two processes that use the same virtual page. -/
def twoProcesses : List Event :=
  [.add 3, .rw 3 4096 (.write [7, 8]), .add 4, .rw 4 4096 (.write [9])]

theorem coherence_twoProcesses :
    ∃ m h m', run (record 5) (Machine.create, []) twoProcesses = some (m, h) ∧
      step 5 m (.rw 3 4096 (.read 3)) = some (some (.bytes [7, 8, 0]), m') ∧
      [7, 8, 0] = (List.range 3).map fun i => (lastWrite 3 (4096 + i) h).getD 0 := by
  have hread : ((run (record 5) (Machine.create, []) twoProcesses).bind fun s =>
      (step 5 s.1 (.rw 3 4096 (.read 3))).map Prod.fst) = some (some (.bytes [7, 8, 0])) := by
    decide +kernel
  obtain ⟨⟨m, h⟩, hrun, hread⟩ := Option.bind_eq_some_iff.mp hread
  obtain ⟨⟨r, m'⟩, hstep, rfl⟩ := Option.map_eq_some_iff.mp hread
  exact ⟨m, h, m', hrun, hstep, coherence (by simp [twoProcesses]) hrun hstep⟩

end SystemProgramming.Paging
