import Mathlib.Data.List.GetD
import SystemProgramming.Paging.Residency

/-!
# Writing the bytes of a buffer

`mmu_write_to_virtual_address` passes a copy that `strdup` makes of its buffer on to
`mmu_rw_from_virtual_address`. The copy ends with the first zero byte; behind it the call reads
whatever lies on the heap. A buffer without a zero byte is copied together with what follows
it in memory, up to a zero byte there; without one the copy is not defined.

## Main definitions

* `strdup`
* `mmuReadFromVirtualAddress`, `mmuWriteToVirtualAddress`

## Main results

* `read_written`: a read returns the bytes of the write before it
* `write_stores_iff`: when a write stores the bytes of its buffer
-/

namespace SystemProgramming.Paging

/-- `strdup(s)`, for the bytes that can be read from `s` on. -/
def strdup (s : List UInt8) : Option (List UInt8) :=
  if 0 ∈ s then some (s.takeWhile (· ≠ 0) ++ [0]) else none

variable (origin : Fin (2 ^ 20))

/-- `mmu_read_from_virtual_address`. -/
def mmuReadFromVirtualAddress (m : Machine) (virtualAddress pid numBytes : Nat) :
    Option (Result × Machine) :=
  if pid < maxProcessId ∧ numBytes + virtualAddress % 4096 ≤ 4096 then
    mmuRwFromVirtualAddress origin m pid virtualAddress (.read numBytes)
  else none

/-- `mmu_write_to_virtual_address`, for the bytes that can be read from `buffer` on. The byte
`heap i` lies at position `i` from the beginning of the copy, where the copy has ended. -/
def mmuWriteToVirtualAddress (heap : Nat → UInt8) (m : Machine) (virtualAddress pid : Nat)
    (buffer : List UInt8) (numBytes : Nat) : Option (Result × Machine) :=
  if pid < maxProcessId ∧ numBytes + virtualAddress % 4096 ≤ 4096 then do
    let bufferNonConst ← strdup buffer
    let bytes := (List.range numBytes).map fun i => bufferNonConst.getD i (heap i)
    mmuRwFromVirtualAddress origin m pid virtualAddress (.write bytes)
  else none

variable {origin} {m m' : Machine} {pid va : Nat}

/-! ## A read after a write -/

/-- An access ends with its page in memory. -/
theorem access_finish {T : Residents} {d : Nat} {op : Op} {r : Result}
    (h : Res origin m.toKernel m.pageDirectories T) (htlb : TlbOk origin m) (hpid : m.currPid = pid)
    (hd : m.pageDirectories pid = some d) (hi : ¬ PageIndex (va / 4096 / 1024))
    (hv : PageIndex (va / 4096 % 1024)) (hacc : access origin m pid va op = some (r, m')) :
    ∃ e m₂ T₂, Res origin m₂.toKernel m₂.pageDirectories T₂ ∧ m₂.currPid = m.currPid ∧
      m₂.pageDirectories = m.pageDirectories ∧ m₂.segmentations = m.segmentations ∧
      pte? origin m₂.toKernel m₂.pageDirectories pid (va / 4096) = some e ∧
      present (m₂.load e) = true ∧ finish origin m₂ e va op = (r, m') := by
  rw [access_eq] at hacc
  obtain ⟨⟨e, m₁⟩, hlookup, hacc⟩ := Option.bind_eq_some_iff.mp hacc
  obtain ⟨m₂, hpage, hfin⟩ := Option.bind_eq_some_iff.mp hacc
  obtain ⟨T₁, -, h₁, hsteady₁, he⟩ := rel_some_left (lookup_res h htlb hpid hd hi) hlookup
  obtain ⟨T₂, -, h₂, hsteady₂, hpresent⟩ := rel_some_left (page_rel h₁ he hv) hpage
  have hsteady := hsteady₁.trans hsteady₂
  exact ⟨e, m₂, T₂, h₂, hsteady.currPid, hsteady.dirs, hsteady.segments, hsteady₂.pte _ _ _ he,
    hpresent, Option.some.inj hfin⟩

/-- What may be written may be read. -/
theorem readable_of_writable : ∀ seg ∈ newSegmentations, seg.permissions &&& WRITE ≠ 0 →
    seg.permissions &&& READ ≠ 0 := by
  decide

/-- An entry that has been added is found. -/
theorem tlbGetPte_add (tlb : Tlb) (page : Nat) (e : EntryPtr) :
    (tlbGetPte (tlbAddPte tlb page e) page).1 = some e := by
  simp [tlbGetPte, tlbAddPte]

/-- An access of a page in memory whose entry is in the TLB. -/
theorem access_of_hit {e : EntryPtr} {op : Op} (hhit : (tlbGetPte m.tlb (va / 4096)).1 = some e)
    (hpresent : present (m.load e) = true) : access origin m pid va op =
      some (finish origin { m with tlb := (tlbGetPte m.tlb (va / 4096)).2 } e va op) := by
  rw [access_eq, lookup, hhit]
  dsimp only
  rw [Option.bind_some, pageIn, if_pos hpresent, Option.bind_some]

/-- The bytes of a write are in the page that its entry points to afterwards. -/
theorem finish_written {T : Residents} {e : EntryPtr} {buffer : List UInt8} {r : Result}
    (h : Res origin m.toKernel m.pageDirectories T)
    (he : pte? origin m.toKernel m.pageDirectories pid (va / 4096) = some e)
    (hpresent : present (m.load e) = true)
    (hfin : finish origin m e va (.write buffer) = (r, m')) :
    ∃ f, target origin (m'.load e) = some f ∧
      (m'.memory f).read (va % 4096) buffer.length = buffer := by
  obtain ⟨h', hpte, -⟩ := finish_res h he hpresent hfin
  have he' := (hpte pid (va / 4096)).trans he
  -- the page stays in its frame
  have htarget : target origin (m'.load e) = target origin (m.load e) := by
    have hframe : ∀ {m : Machine}, pte? origin m.toKernel m.pageDirectories pid (va / 4096) =
        some e → frame? origin m.toKernel m.pageDirectories (.page pid (va / 4096)) =
          target origin (m.load e) := fun h => by rw [frame?, pageFrame, h, Option.bind_some]
    rw [← hframe he, ← hframe he']
    refine Option.ext fun f => ?_
    rw [h'.shows.shown, h.shows.shown]
  have hsome : target origin (m'.load e) = some (pointsTo origin (m.load e)) := by
    rw [htarget, target, if_pos hpresent]
  have hforget := @finish_forget origin m e va (.write buffer)
  rw [hfin] at hforget
  obtain ⟨-, -, -, -, -, hcontent⟩ := finish_spec
    (m := { m with toKernel := m.toKernel.forget }) h.sound.frames he hpresent hforget
  have hpage := hcontent pid (va / 4096)
  rw [if_pos ⟨rfl, rfl⟩, content_of_pte (k := m'.toKernel.forget) he', Kernel.load_forget,
    hsome] at hpage
  have hmemory : m'.memory (pointsTo origin (m.load e)) = (content origin m.toKernel.forget
      m.pageDirectories pid (va / 4096)).write (va % 4096) buffer := hpage
  refine ⟨_, hsome, Memory.read_eq_iff.mpr ⟨rfl, fun i hi => ?_⟩⟩
  rw [hmemory, Memory.write_of_mem (by omega), Nat.add_sub_cancel_left]

/-- **A read returns the bytes of the write before it.** -/
theorem read_written {buffer : List UInt8} (hs : Sound origin m)
    (hwrite : mmuRwFromVirtualAddress origin m pid va (.write buffer) = some (.written, m')) :
    ∃ m'', mmuRwFromVirtualAddress origin m' pid va (.read buffer.length) =
      some (.bytes buffer, m'') := by
  obtain ⟨hk, hdirs, hsegments, hcurr, htlb⟩ := contextSwitch_spec hs.tlb pid
  obtain ⟨m₀, hm₀⟩ : ∃ m₀, m₀ = contextSwitch m pid := ⟨_, rfl⟩
  rw [← hm₀] at hk hdirs hsegments hcurr htlb
  obtain ⟨T, hT⟩ := exists_shows hs.kernel.frames
  have hres : Res origin m₀.toKernel m₀.pageDirectories T := by
    rw [hk, hdirs]
    exact ⟨hs.kernel, hT⟩
  simp only [mmuRwFromVirtualAddress, ← hm₀, Option.bind_eq_bind, Option.bind_eq_some_iff] at hwrite
  obtain ⟨segments, hsegs, hwrite⟩ := hwrite
  obtain ⟨d, hd, rfl⟩ := Option.map_eq_some_iff.mp (((hs.segments pid).symm.trans
    (congrFun hsegments.symm pid)).trans hsegs)
  split at hwrite
  · cases hwrite
  · next seg hfind =>
    split_ifs at hwrite with hperm
    · cases hwrite
    obtain ⟨hi, hv⟩ := findSegment_index hfind
    obtain ⟨e, m₂, T₂, h₂, hcurr₂, hdirs₂, hsegs₂, he, hpresent, hfin⟩ :=
      access_finish hres htlb hcurr (hdirs ▸ hd) hi hv hwrite
    obtain ⟨-, -, -, hsegs', htlb', hcurr'⟩ := finish_res h₂ he hpresent hfin
    obtain ⟨f, htarget, hbytes⟩ := finish_written h₂ he hpresent hfin
    have hswitch : contextSwitch m' pid = m' := by
      rw [contextSwitch, if_neg]
      exact not_not.mpr ((hcurr'.trans (hcurr₂.trans hcurr)).symm)
    have hsegs'' : m'.segmentations pid = some newSegmentations := by rw [hsegs', hsegs₂, hsegs]
    have hread : seg.permissions &&& (Op.read buffer.length).permission ≠ 0 :=
      readable_of_writable seg (List.mem_of_find?_eq_some hfind) hperm
    have hhit : (tlbGetPte m'.tlb (va / 4096)).1 = some e := htlb' ▸ tlbGetPte_add _ _ _
    have hacc : access origin m' pid va (.read buffer.length) = _ := 
      access_of_hit hhit (present_of_target htarget)
    obtain ⟨⟨r, m''⟩, hend⟩ : ∃ s, finish origin { m' with
      tlb := (tlbGetPte m'.tlb (va / 4096)).2 } e va (.read buffer.length) = s := ⟨_, rfl⟩
    have hr := finish_read (m := { m' with tlb := (tlbGetPte m'.tlb (va / 4096)).2 }) htarget hend
    dsimp only at hr
    rw [hbytes] at hr
    refine ⟨m'', ?_⟩
    simp only [mmuRwFromVirtualAddress, hswitch, hsegs'', Option.bind_eq_bind, Option.bind_some,
      hfind]
    rw [if_neg hread, hacc, hend, hr]

/-- Writes of different bytes have different effects. -/
theorem write_inj {bytes bytes' : List UInt8} (hs : Sound origin m)
    (hlen : bytes.length = bytes'.length)
    (hwrite : mmuRwFromVirtualAddress origin m pid va (.write bytes) = some (.written, m'))
    (hwrite' : mmuRwFromVirtualAddress origin m pid va (.write bytes') = some (.written, m')) :
    bytes = bytes' := by
  obtain ⟨m₁, hread⟩ := read_written hs hwrite
  obtain ⟨m₂, hread'⟩ := read_written hs hwrite'
  rw [hlen, hread'] at hread
  exact (Result.bytes.inj (Prod.mk.inj (Option.some.inj hread)).1).symm

/-! ## The copy of the buffer -/

/-- A byte of the copy of a buffer, or of what lies behind it. -/
theorem getD_strdup {buffer copy : List UInt8} (h : strdup buffer = some copy) {i : Nat}
    (hi : i < buffer.length) (d : UInt8) :
    copy.getD i d = if 0 ∈ buffer.take i then d else buffer.getD i 0 := by
  induction buffer generalizing copy i with
  | nil => cases hi
  | cons c cs ih =>
    rw [strdup] at h
    split_ifs at h with hzero
    obtain rfl := Option.some.inj h
    by_cases hc : c = 0
    · subst hc
      rw [List.takeWhile_cons_of_neg (by simp), List.nil_append]
      cases i with
      | zero => simp
      | succ i => simp
    · have hmem : (0 : UInt8) ∈ cs := (List.mem_cons.mp hzero).resolve_left (Ne.symm hc)
      rw [List.takeWhile_cons_of_pos (by simpa using hc), List.cons_append]
      cases i with
      | zero => simp
      | succ i =>
        have hrest := ih (if_pos hmem) (Nat.lt_of_succ_lt_succ hi)
        rw [List.getD_cons_succ, hrest, List.take_succ_cons, List.getD_cons_succ]
        simp only [List.mem_cons, Ne.symm hc, false_or]

/-- When the bytes that are passed on are those of the buffer. -/
theorem copy_eq_take_iff {buffer copy : List UInt8} (h : strdup buffer = some copy)
    (heap : Nat → UInt8) {n : Nat} (hn : n ≤ buffer.length) :
    (List.range n).map (fun i => copy.getD i (heap i)) = buffer.take n ↔
      ∀ i < n, 0 ∈ buffer.take i → heap i = buffer.getD i 0 := by
  have hbuffer : buffer.take n = (List.range n).map fun i => buffer.getD i 0 := by
    refine List.ext_getElem (by simpa using hn) fun i hi hi' => ?_
    rw [List.getElem_map, List.getElem_range, List.getElem_take, List.getD_eq_getElem]
  rw [hbuffer, List.map_inj_left]
  refine forall_congr' fun i => ?_
  rw [List.mem_range]
  refine forall_congr' fun hi => ?_
  rw [getD_strdup h (hi.trans_le hn)]
  split_ifs with hzero
  · exact ⟨fun h _ => h, fun h => h hzero⟩
  · exact iff_of_true rfl fun h => absurd h hzero

/-! ## Writes -/

theorem sound_reachable {h : History}
    (hreach : Reachable (record origin) (Machine.create, []) (m, h)) : Sound origin m := by
  refine hreach.invariant (P := fun s => Sound origin s.1) sound_create ?_
  rintro ⟨m, h⟩ e ⟨m', h'⟩ hs hstep
  obtain ⟨⟨r, m₁⟩, hm, heq⟩ := Option.map_eq_some_iff.mp hstep
  obtain ⟨rfl, -⟩ := Prod.mk.inj heq
  exact sound_step hs hm

/-- **A write stores the bytes of its buffer** exactly if a zero byte can be read somewhere from
the buffer on, and behind the first zero byte of the buffer the heap happens to hold the same
bytes. -/
theorem write_stores_iff {h : History} {n : Nat} {buffer : List UInt8} (heap : Nat → UInt8)
    (hreach : Reachable (record origin) (Machine.create, []) (m, h)) (hpid : pid < maxProcessId)
    (hrange : n + va % 4096 ≤ 4096) (hn : n ≤ buffer.length)
    (hwrite : mmuRwFromVirtualAddress origin m pid va (.write (buffer.take n)) =
      some (.written, m')) :
    (mmuWriteToVirtualAddress origin heap m va pid buffer n = some (.written, m') ∧
        ∃ m'', mmuReadFromVirtualAddress origin m' va pid n =
          some (.bytes (buffer.take n), m'')) ↔
      0 ∈ buffer ∧ ∀ i < n, 0 ∈ buffer.take i → heap i = buffer.getD i 0 := by
  have hs := sound_reachable hreach
  have hlen : (buffer.take n).length = n := List.length_take_of_le hn
  rw [mmuWriteToVirtualAddress, mmuReadFromVirtualAddress, if_pos ⟨hpid, hrange⟩,
    if_pos ⟨hpid, hrange⟩]
  have hread := read_written hs hwrite
  rw [hlen] at hread
  by_cases hzero : (0 : UInt8) ∈ buffer
  · obtain ⟨copy, hcopy⟩ : ∃ copy, strdup buffer = some copy := ⟨_, if_pos hzero⟩
    rw [hcopy, Option.bind_eq_bind, Option.bind_some, ← copy_eq_take_iff hcopy heap hn]
    constructor
    · rintro ⟨hstored, -⟩
      exact ⟨hzero, write_inj hs (by simp [hlen]) hstored hwrite⟩
    · rintro ⟨-, hsame⟩
      rw [hsame]
      exact ⟨hwrite, hread⟩
  · have hcopy : strdup buffer = none := if_neg hzero
    rw [hcopy]
    exact iff_of_false (fun h => by cases h.1) fun h => hzero h.1

/-- The state after process `3` has been added, where it writes three bytes. -/
theorem exists_write (bytes : List UInt8) (hlen : bytes = [7, 8, 0] ∨ bytes = [7, 0, 8]) :
    ∃ m h m', Reachable (record 5) (Machine.create, []) (m, h) ∧
      mmuRwFromVirtualAddress 5 m 3 4096 (.write bytes) = some (.written, m') := by
  have hwritten : ((run (record 5) (Machine.create, []) [.add 3]).bind fun s =>
      (mmuRwFromVirtualAddress 5 s.1 3 4096 (.write bytes)).map Prod.fst) = some .written := by
    rcases hlen with rfl | rfl <;> decide +kernel
  obtain ⟨⟨m, h⟩, hrun, hwritten⟩ := Option.bind_eq_some_iff.mp hwritten
  obtain ⟨⟨r, m'⟩, hrw, rfl⟩ := Option.map_eq_some_iff.mp hwritten
  exact ⟨m, h, m', ⟨_, hrun⟩, hrw⟩

/-- A string with its terminator. -/
theorem write_stores_iff_string : ∃ m h m' m'', Reachable (record 5) (Machine.create, []) (m, h) ∧
    mmuWriteToVirtualAddress 5 (fun _ => 0) m 4096 3 [7, 8, 0] 3 = some (.written, m') ∧
    mmuReadFromVirtualAddress 5 m' 4096 3 3 = some (.bytes [7, 8, 0], m'') := by
  obtain ⟨m, h, m', hreach, hrw⟩ := exists_write [7, 8, 0] (Or.inl rfl)
  have hwhole : [7, 8, 0] = List.take 3 ([7, 8, 0] : List UInt8) := rfl
  rw [hwhole] at hrw
  obtain ⟨hwrite, m'', hread⟩ := (write_stores_iff (fun _ => 0) hreach (by decide) (by decide)
    (by decide) hrw).mpr (by decide)
  exact ⟨m, h, m', m'', hreach, hwrite, hread⟩

/-- The byte behind a zero byte is not stored. -/
theorem not_write_stores_zero : ¬ ∀ (origin : Fin (2 ^ 20)) (heap : Nat → UInt8) (m m' : Machine)
    (h : History) (pid va n : Nat) (buffer : List UInt8),
    Reachable (record origin) (Machine.create, []) (m, h) → pid < maxProcessId →
    n + va % 4096 ≤ 4096 → n ≤ buffer.length →
    mmuRwFromVirtualAddress origin m pid va (.write (buffer.take n)) = some (.written, m') →
    mmuWriteToVirtualAddress origin heap m va pid buffer n = some (.written, m') ∧
      ∃ m'', mmuReadFromVirtualAddress origin m' va pid n = some (.bytes (buffer.take n), m'') := by
  intro hall
  obtain ⟨m, h, m', hreach, hrw⟩ := exists_write [7, 0, 8] (Or.inr rfl)
  obtain ⟨hwrite, -⟩ := hall 5 (fun _ => 0) m m' h 3 4096 3 [7, 0, 8] hreach (by decide) (by decide)
    (by decide) hrw
  have hpassed : mmuWriteToVirtualAddress 5 (fun _ => 0) m 4096 3 [7, 0, 8] 3 =
      mmuRwFromVirtualAddress 5 m 3 4096 (.write [7, 0, 0]) := by
    have hcopy : strdup [7, 0, 8] = some [7, 0] := by decide
    rw [mmuWriteToVirtualAddress, if_pos (by decide), hcopy]
    rfl
  have hne : ([7, 0, 0] : List UInt8) ≠ [7, 0, 8] := by decide
  rw [hpassed] at hwrite
  exact hne (write_inj (sound_reachable hreach) rfl hwrite hrw)

end SystemProgramming.Paging
