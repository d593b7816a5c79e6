import SystemProgramming.Paging.Residency

/-!
# The TLB is transparent

The TLB saves walks and does nothing else. Next to the MMU runs one that never believes its TLB:
every lookup misses. In the same run both return the same bytes, and leave the same memory, page
tables, swap files and owners of frames, and the same counts of page faults and segmentation faults.

A hit gives what the walk would have found, because the nodes of the TLB are entries of the current
process. They stay so while other processes bring in pages and evict pages, for a table never leaves
its frame as long as its process is there; and when the current process is removed, or another one
makes an access, the TLB is flushed.

## Main definitions

* `accessMiss`, `mmuRwMiss`, `stepMiss`: the MMU with lookups that always miss
* `withoutTlb`: what is seen of a run besides the TLB

## Main results

* `lookup_rel`: a hit finds what a walk finds
* `tlb_transparent`: the two machines agree in every run
-/

namespace SystemProgramming.Paging

section Miss

variable (origin : Fin (2 ^ 20))

/-- `access`, with a lookup that misses. -/
def accessMiss (m : Machine) (pid virtualAddress : Nat) (op : Op) : Option (Result × Machine) := do
  let m := { m with tlb := (tlbGetPte m.tlb (virtualAddress / 4096)).2 }
  let (pte, m) ← walk origin m pid virtualAddress
  let m ← if present (m.load pte) then some m else loadPage origin m pte
  some (finish origin m pte virtualAddress op)

/-- `mmuRwFromVirtualAddress`, with a lookup that misses. -/
def mmuRwMiss (m : Machine) (pid virtualAddress : Nat) (op : Op) : Option (Result × Machine) := do
  let m := contextSwitch m pid
  let segmentations ← m.segmentations pid
  let fault : Machine := { m with numSegmentationFaults := m.numSegmentationFaults + 1 }
  match findSegment segmentations virtualAddress with
  | none => some (.segfault, fault)
  | some seg =>
    if seg.permissions &&& op.permission = 0 then some (.segfault, fault)
    else accessMiss origin m pid virtualAddress op

/-- `step`, with lookups that miss. -/
def stepMiss (m : Machine) : Event → Option (Option Result × Machine)
  | .rw pid virtualAddress op =>
    if pid < maxProcessId ∧ virtualAddress < 2 ^ 32 ∧ op.size + virtualAddress % 4096 ≤ 4096 then
      (mmuRwMiss origin m pid virtualAddress op).map fun (r, m) => (some r, m)
    else none
  | e => step origin m e

/-- An operation without a TLB, with its entry in the history. -/
def recordMiss : Machine × History → Event → Option (Machine × History)
  | (m, h), e => (stepMiss origin m e).map fun (r, m) => (m, (e, r) :: h)

end Miss

/-- A machine with another TLB. -/
def Machine.setTlb (m : Machine) (tlb : Tlb) (n : Nat) : Machine :=
  { m with tlb := tlb, numTlbMisses := n }

/-- What is seen of a run besides the TLB and the count of its misses. -/
def withoutTlb (s : Machine × History) : Machine × History := (s.1.setTlb tlbCreate 0, s.2)

variable {origin : Fin (2 ^ 20)} {m m' : Machine} {tlb : Tlb} {n : Nat}

/-! ## What does not look at the TLB -/

/-- Two machines agree but for the TLB. -/
def SameButTlb (m m' : Machine) : Prop := ∃ tlb n, m' = m.setTlb tlb n

theorem SameButTlb.refl (m : Machine) : SameButTlb m m := ⟨m.tlb, m.numTlbMisses, rfl⟩

theorem sameButTlb_iff : SameButTlb m m' ↔ m.setTlb tlbCreate 0 = m'.setTlb tlbCreate 0 := by
  constructor
  · rintro ⟨tlb, n, rfl⟩
    rfl
  · intro h
    refine ⟨m'.tlb, m'.numTlbMisses, ?_⟩
    calc m' = (m'.setTlb tlbCreate 0).setTlb m'.tlb m'.numTlbMisses := rfl
      _ = m.setTlb m'.tlb m'.numTlbMisses := by rw [← h]; rfl

theorem loadTable_setTlb (pde : EntryPtr) :
    loadTable origin (m.setTlb tlb n) pde =
      (loadTable origin m pde).map fun m => m.setTlb tlb n := by
  simp only [loadTable, Machine.setTlb, Option.bind_eq_bind, Option.map_bind]
  rfl

theorem loadPage_setTlb (pte : EntryPtr) :
    loadPage origin (m.setTlb tlb n) pte = (loadPage origin m pte).map fun m => m.setTlb tlb n := by
  simp only [loadPage, Machine.setTlb, Option.bind_eq_bind, Option.map_bind]
  rfl

theorem pageIn_setTlb (pte : EntryPtr) :
    pageIn origin (m.setTlb tlb n) pte = (pageIn origin m pte).map fun m => m.setTlb tlb n := by
  have hload : (m.setTlb tlb n).load pte = m.load pte := rfl
  rw [pageIn, pageIn, hload]
  split_ifs
  · rfl
  · exact loadPage_setTlb pte

theorem finish_setTlb (pte : EntryPtr) (va : Nat) (op : Op) :
    finish origin (m.setTlb tlb n) pte va op =
      ((finish origin m pte va op).1,
        (finish origin m pte va op).2.setTlb (tlbAddPte tlb (va / 4096) pte) n) := by
  cases op <;> rfl

theorem walk_setTlb (pid va : Nat) :
    walk origin (m.setTlb tlb n) pid va =
      (walk origin m pid va).map fun s => (s.1, s.2.setTlb tlb (n + 1)) := by
  obtain ⟨m₁, hm₁⟩ : ∃ m₁, m₁ = { m with numTlbMisses := m.numTlbMisses + 1 } := ⟨_, rfl⟩
  have hmiss : { m.setTlb tlb n with numTlbMisses := n + 1 } = m₁.setTlb tlb (n + 1) := by
    rw [hm₁]
    rfl
  have hcount : (m.setTlb tlb n).numTlbMisses = n := rfl
  have hdirs : (m₁.setTlb tlb (n + 1)).pageDirectories = m₁.pageDirectories := rfl
  have hload : ∀ e, (m₁.setTlb tlb (n + 1)).load e = m₁.load e := fun _ => rfl
  rw [walk, walk, ← hm₁, hcount, hmiss, hdirs]
  cases m₁.pageDirectories pid with
  | none => rfl
  | some d =>
    simp only [Option.bind_eq_bind, Option.bind_some, hload]
    split_ifs
    · rfl
    · rw [loadTable_setTlb, Option.bind_map, Option.map_bind]
      rfl

/-! ## A hit and a walk -/

/-- A walk to an entry that is there brings nothing in. -/
theorem walk_of_pte? {pid va : Nat} {e : EntryPtr}
    (he : pte? origin m.toKernel m.pageDirectories pid (va / 4096) = some e) :
    walk origin m pid va = some (e, { m with numTlbMisses := m.numTlbMisses + 1 }) := by
  have hdiv : va / 2 ^ 22 = va / 4096 / 1024 := by omega
  obtain ⟨t, ht, rfl⟩ := Option.map_eq_some_iff.mp he
  obtain ⟨d, hd, ht⟩ := Option.bind_eq_some_iff.mp ht
  have hpresent := present_of_target ht
  rw [target, if_pos hpresent] at ht
  rw [walk]
  simp only [Option.bind_eq_bind, hd, Option.bind_some, hdiv]
  rw [if_pos hpresent, ← Option.some.inj ht]

/-- **A hit finds what a walk finds.** -/
theorem lookup_rel {pid va : Nat} (htlb : TlbOk origin m) (hpid : m.currPid = pid)
    (h : SameButTlb m m') :
    Option.Rel (fun s s' => s.1 = s'.1 ∧ SameButTlb s.2 s'.2)
      (lookup origin m pid va) (walk origin m' pid va) := by
  obtain ⟨tlb, n, rfl⟩ := h
  rw [lookup, walk_setTlb]
  cases hhit : (tlbGetPte m.tlb (va / 4096)).1 with
  | some e =>
    have he := (tlbGetPte_spec (va / 4096) htlb).2 e hhit
    have hwalk : walk origin m pid va = some (e, { m with numTlbMisses := m.numTlbMisses + 1 }) :=
      walk_of_pte? (hpid ▸ he)
    rw [hwalk, Option.map_some]
    exact .some ⟨rfl, tlb, n + 1, rfl⟩
  | none =>
    -- the count of misses is the only thing that differs between the two walks
    have hwalk : walk origin { m with tlb := (tlbGetPte m.tlb (va / 4096)).2 } pid va =
        (walk origin m pid va).map fun s =>
          (s.1, s.2.setTlb (tlbGetPte m.tlb (va / 4096)).2 (m.numTlbMisses + 1)) :=
      walk_setTlb pid va
    dsimp only
    rw [hwalk]
    cases walk origin m pid va with
    | none => exact .none
    | some s => exact .some ⟨rfl, tlb, n + 1, rfl⟩

theorem accessMiss_eq (m : Machine) (pid va : Nat) (op : Op) :
    accessMiss origin m pid va op =
      (walk origin { m with tlb := (tlbGetPte m.tlb (va / 4096)).2 } pid va).bind fun s =>
        (pageIn origin s.2 s.1).bind fun m => some (finish origin m s.1 va op) := by
  rw [accessMiss]
  simp only [Option.bind_eq_bind, pageIn]
  congr 1
  funext s
  split_ifs <;> rfl

theorem access_miss_rel {pid va : Nat} {op : Op} (htlb : TlbOk origin m) (hpid : m.currPid = pid)
    (h : SameButTlb m m') :
    Option.Rel (fun s s' => s.1 = s'.1 ∧ SameButTlb s.2 s'.2)
      (access origin m pid va op) (accessMiss origin m' pid va op) := by
  obtain ⟨tlb, n, rfl⟩ := h
  rw [access_eq, accessMiss_eq]
  apply rel_bind (lookup_rel htlb hpid ⟨(tlbGetPte tlb (va / 4096)).2, n, rfl⟩)
  rintro ⟨e, m₁⟩ ⟨-, m₂⟩ ⟨rfl, tlb₂, n₂, rfl⟩
  dsimp only
  rw [pageIn_setTlb]
  cases pageIn origin m₁ e with
  | none => exact .none
  | some m₃ =>
    rw [Option.map_some, Option.bind_some, Option.bind_some, finish_setTlb]
    exact .some ⟨rfl, _, _, rfl⟩

/-! ## Runs -/

theorem addProcess_setTlb (pid : Nat) :
    mmuAddProcess origin (m.setTlb tlb n) pid =
      (mmuAddProcess origin m pid).map fun m => m.setTlb tlb n := by
  simp only [mmuAddProcess, Machine.setTlb, Option.bind_eq_bind, Option.map_bind, Function.comp_def,
    Option.map_some]

theorem contextSwitch_sameButTlb (pid : Nat) (h : SameButTlb m m') :
    SameButTlb (contextSwitch m pid) (contextSwitch m' pid) := by
  obtain ⟨tlb, n, rfl⟩ := h
  have hcurr : (m.setTlb tlb n).currPid = m.currPid := rfl
  rw [contextSwitch, contextSwitch, hcurr]
  split_ifs
  · exact ⟨tlbCreate, n, rfl⟩
  · exact ⟨tlb, n, rfl⟩

/-- An access, with and without the TLB. -/
theorem rw_miss_rel {pid va : Nat} {op : Op} (htlb : TlbOk origin m) (h : SameButTlb m m') :
    Option.Rel (fun s s' => s.1 = s'.1 ∧ SameButTlb s.2 s'.2)
      (mmuRwFromVirtualAddress origin m pid va op) (mmuRwMiss origin m' pid va op) := by
  obtain ⟨-, -, -, hcurr, htlb₁⟩ := contextSwitch_spec htlb pid
  have h₁ := contextSwitch_sameButTlb pid h
  rw [mmuRwFromVirtualAddress, mmuRwMiss]
  obtain ⟨m₁, hm₁⟩ : ∃ m₁, m₁ = contextSwitch m pid := ⟨_, rfl⟩
  obtain ⟨m₂, hm₂⟩ : ∃ m₂, m₂ = contextSwitch m' pid := ⟨_, rfl⟩
  rw [← hm₁] at hcurr htlb₁
  rw [← hm₁, ← hm₂] at h₁
  simp only [← hm₁, ← hm₂, Option.bind_eq_bind]
  have hsegments : m₂.segmentations pid = m₁.segmentations pid := by
    obtain ⟨tlb, n, rfl⟩ := h₁
    rfl
  have hfault : SameButTlb { m₁ with numSegmentationFaults := m₁.numSegmentationFaults + 1 }
      { m₂ with numSegmentationFaults := m₂.numSegmentationFaults + 1 } := by
    obtain ⟨tlb, n, rfl⟩ := h₁
    exact ⟨tlb, n, rfl⟩
  rw [hsegments]
  cases m₁.segmentations pid with
  | none => exact .none
  | some segments =>
    rw [Option.bind_some, Option.bind_some]
    cases findSegment segments va with
    | none => exact .some ⟨rfl, hfault⟩
    | some seg =>
      dsimp only
      split_ifs
      · exact .some ⟨rfl, hfault⟩
      · exact access_miss_rel htlb₁ hcurr h₁

/-- **The two machines take the same step.** -/
theorem step_miss_rel {e : Event} (htlb : TlbOk origin m) (h : SameButTlb m m') :
    Option.Rel (fun s s' => s.1 = s'.1 ∧ SameButTlb s.2 s'.2)
      (step origin m e) (stepMiss origin m' e) := by
  cases e with
  | add pid =>
    obtain ⟨tlb, n, rfl⟩ := h
    have hdirs : (m.setTlb tlb n).pageDirectories = m.pageDirectories := rfl
    rw [stepMiss, step, step, hdirs, addProcess_setTlb]
    split_ifs
    · cases mmuAddProcess origin m pid with
      | none => exact .none
      | some m₁ => exact .some ⟨rfl, tlb, n, rfl⟩
    · exact .none
    · simp
  | remove pid =>
    obtain ⟨tlb, n, rfl⟩ := h
    rw [stepMiss, step, step]
    split_ifs
    · exact .some ⟨rfl, _, n, rfl⟩
    · exact .none
    · simp
  | rw pid va op =>
    rw [step, stepMiss]
    split_ifs
    · apply rel_map (rw_miss_rel htlb h)
      rintro ⟨r, m₁⟩ ⟨-, m₂⟩ ⟨rfl, h₁⟩
      exact ⟨rfl, h₁⟩
    · exact .none

/-- **The TLB is transparent.** In every run, the MMU and the MMU whose lookups always miss return
the same results and agree in everything but the TLB and the count of its misses. -/
theorem tlb_transparent (origin : Fin (2 ^ 20)) (es : List Event) :
    (run (record origin) (Machine.create, []) es).map withoutTlb =
      (run (recordMiss origin) (Machine.create, []) es).map withoutTlb := by
  have hrel : Option.Rel (fun s t => Sound origin s.1 ∧ s.2 = t.2 ∧ SameButTlb s.1 t.1)
      (run (record origin) (Machine.create, []) es)
      (run (recordMiss origin) (Machine.create, []) es) := by
    refine rel_run ?_ es ⟨sound_create, rfl, SameButTlb.refl _⟩
    rintro ⟨m, h⟩ ⟨m', -⟩ e ⟨hs, rfl, hsame⟩
    dsimp only at hs hsame
    have hstep := step_miss_rel (e := e) hs.tlb hsame
    rw [record, recordMiss]
    dsimp only
    cases hm : step origin m e with
    | none =>
      rw [hm] at hstep
      generalize stepMiss origin m' e = s' at hstep ⊢
      cases hstep
      exact .none
    | some s =>
      obtain ⟨r, m₁⟩ := s
      obtain ⟨⟨-, m₂⟩, ht, rfl, hsame⟩ := rel_some_left hstep hm
      rw [ht]
      exact .some ⟨sound_step hs hm, rfl, hsame⟩
  apply rel_map_eq hrel
  rintro ⟨m, h⟩ ⟨m', -⟩ ⟨-, rfl, hsame⟩
  rw [withoutTlb, withoutTlb, sameButTlb_iff.mp hsame]

end SystemProgramming.Paging
