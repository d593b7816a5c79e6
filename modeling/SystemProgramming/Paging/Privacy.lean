import SystemProgramming.Paging.Transparency

/-!
# What a new process finds in its pages

A frame is filled with zeros before it is handed out, so a process never sees what another one has
left in a frame. A swap file is another matter. It is named after the address of an entry, and the
removal of a process is meant to remove the files of its entries; but `remove_swap_file` leaves out
the extension `.bin` that the files are written with, so they stay. A later process whose page table
is in the same frame reads them.

Processes are private in every run that removes no process with a swap file.

## Main definitions

* `ownWrite`: the last byte that a process has written to an address since it was added
* `touched`: has a process accessed a page since it was added?
* `NoneSwapped`: a removal leaves no swap file behind
* `Spare`: nothing is written to disk as long as a frame is free
* `Private`: a process reads its own bytes and zeros
* `leakingRun`: a run after which a process reads what the process before it has written

## Main results

* `noFile_of_free`: as long as a frame is free, there are no swap files
* `private_of_noneSwapped`: every run whose removals leave no swap file behind is private
* `leak`: a process reads a byte of a removed one
-/

namespace SystemProgramming.Paging

variable {origin : Fin (2 ^ 20)} {m m' : Machine}

/-! ## Histories of a process -/

/-- The last byte that a process has written to an address since it was added. -/
def ownWrite (pid a : Nat) : History → Option UInt8
  | [] => none
  | (.add p, _) :: h => if p = pid then none else ownWrite pid a h
  | (.remove p, _) :: h => if p = pid then none else ownWrite pid a h
  | (.rw p va (.write buffer), some .written) :: h =>
    if p = pid ∧ va ≤ a ∧ a < va + buffer.length then buffer[a - va]? else ownWrite pid a h
  | _ :: h => ownWrite pid a h

/-- Has a process accessed a page since it was added? -/
def touched (pid v : Nat) : History → Bool
  | [] => false
  | (.add p, _) :: h => if p = pid then false else touched pid v h
  | (.remove p, _) :: h => if p = pid then false else touched pid v h
  | (.rw p va _, r) :: h => (p = pid ∧ va / 4096 = v ∧ r ≠ some .segfault) || touched pid v h

/-- If a process is removed, no swap file is named after an entry of its page tables. -/
def NoneSwapped (origin : Fin (2 ^ 20)) (s : Machine × History) : Event → Prop
  | .remove pid => ∀ i t j, tableFrame origin s.1.toKernel s.1.pageDirectories pid i = some t →
      s.1.swapFiles (.bin ⟨t, j⟩) = none
  | _ => True

/-- **A process reads its own bytes and zeros**: in each byte what it has written itself since it
was added, and all zeros when it has not accessed the page before. -/
def Private (origin : Fin (2 ^ 20)) (s : Machine × History) : Prop :=
  ∀ pid va n buffer m', step origin s.1 (.rw pid va (.read n)) = some (some (.bytes buffer), m') →
    (buffer = (List.range n).map fun i => (ownWrite pid (va + i) s.2).getD 0) ∧
    (touched pid (va / 4096) s.2 = false → buffer = List.replicate n 0)

/-! ## While frames are free -/

section Spare

variable {k k' k'' : Kernel} {pid va : Nat} {e : EntryPtr}

/-- If a frame is free in the end, no page has been written to disk on the way. -/
def Spare (k k' : Kernel) : Prop :=
  ∀ i, i < numPhysicalPages → k'.entryMapping i = .free →
    k.entryMapping i = .free ∧ ∀ e, k'.swapFiles (.bin e) = k.swapFiles (.bin e)

theorem Spare.refl (k : Kernel) : Spare k k := fun _ _ h => ⟨h, fun _ => rfl⟩

theorem Spare.trans (h : Spare k k') (h' : Spare k' k'') : Spare k k'' := by
  intro i hi hfree
  obtain ⟨hfree', hswap'⟩ := h' i hi hfree
  obtain ⟨hfree, hswap⟩ := h i hi hfree'
  exact ⟨hfree, fun e => (hswap' e).trans (hswap e)⟩

theorem Spare.congr (h : Spare k k') (hmap : k''.entryMapping = k'.entryMapping)
    (hswap : k''.swapFiles = k'.swapFiles) : Spare k k'' := by
  intro i hi hfree
  rw [hmap] at hfree
  rw [hswap]
  exact h i hi hfree

theorem spare_ask {entry : Option EntryPtr} {address : Nat}
    (h : askKernelForFrame origin k entry = some (address, k')) : Spare k k' := by
  intro i hi hfree
  cases hfor : frameFor k entry with
  | none => simp [@ask_none origin k entry hfor] at h
  | some f =>
    obtain ⟨k₁, hask, hmap, hswap⟩ := @ask_some origin k entry f hfor
    obtain ⟨-, rfl⟩ := Prod.mk.inj (Option.some.inj (hask.symm.trans h))
    have hif : i ≠ f := by
      rintro rfl
      rw [hmap, Function.update_self] at hfree
      cases entry <;> simp [ownerOf] at hfree
    rw [hmap, Function.update_of_ne hif] at hfree
    refine ⟨hfree, fun e => hswap e ?_⟩
    -- the request has found the first free frame
    cases hfirst : firstFree k with
    | none =>
      have hnot := List.find?_eq_none.mp hfirst i (List.mem_range.mpr hi)
      simp [hfree] at hnot
    | some j =>
      rw [frameFor, hfirst, Option.some_or, Option.some.injEq] at hfor
      simp [← hfor, (firstFree_eq_some hfirst).2]

theorem spare_readPageFromDisk (origin : Fin (2 ^ 20)) (e : EntryPtr) (h : Spare k k') :
    Spare k (readPageFromDisk origin k' e) := by
  rw [readPageFromDisk]
  split
  · exact h
  · exact h

theorem spare_loadTable (h : loadTable origin m e = some m') : Spare m.toKernel m'.toKernel := by
  simp only [loadTable, Option.bind_eq_bind, Option.bind_eq_some_iff, Option.some.injEq] at h
  obtain ⟨⟨address, k⟩, hask, rfl⟩ := h
  have hspare := spare_ask hask
  exact spare_readPageFromDisk origin e hspare

theorem spare_loadPage (h : loadPage origin m e = some m') : Spare m.toKernel m'.toKernel := by
  simp only [loadPage, Option.bind_eq_bind, Option.bind_eq_some_iff, Option.some.injEq] at h
  obtain ⟨⟨address, k⟩, hask, rfl⟩ := h
  have hspare := spare_ask hask
  exact spare_readPageFromDisk origin e hspare

theorem spare_mapTestingPage (h : mapTestingPage origin k e = some k') : Spare k k' := by
  simp only [mapTestingPage, Option.bind_eq_bind, Option.bind_eq_some_iff, Option.some.injEq] at h
  obtain ⟨⟨address, k₁⟩, hask, rfl⟩ := h
  have hspare := spare_ask hask
  exact hspare

theorem spare_mmuAddProcess (h : mmuAddProcess origin m pid = some m') :
    Spare m.toKernel m'.toKernel := by
  simp only [mmuAddProcess, Option.bind_eq_bind, Option.bind_eq_some_iff, Option.some.injEq] at h
  obtain ⟨⟨_, k₁⟩, hdir, ⟨_, k₂⟩, htable, k₃, hpage, k₄, hpage', rfl⟩ := h
  have hspare := (spare_ask hdir).trans (spare_ask htable)
  have hpages := (spare_mapTestingPage hpage).trans (spare_mapTestingPage hpage')
  exact hspare.trans hpages

theorem spare_walk {s : EntryPtr × Machine} (h : walk origin m pid va = some s) :
    Spare m.toKernel s.2.toKernel := by
  simp only [walk, Option.bind_eq_bind] at h
  obtain ⟨d, -, h⟩ := Option.bind_eq_some_iff.mp h
  split_ifs at h
  · obtain rfl := Option.some.inj h
    exact Spare.refl _
  · obtain ⟨m₁, htable, h⟩ := Option.bind_eq_some_iff.mp h
    obtain rfl := Option.some.inj h
    have hspare := spare_loadTable htable
    exact hspare

theorem spare_access {op : Op} {r : Result} (h : access origin m pid va op = some (r, m')) :
    Spare m.toKernel m'.toKernel := by
  rw [access_eq, Option.bind_eq_some_iff] at h
  obtain ⟨⟨e, m₁⟩, hlookup, h⟩ := h
  rw [Option.bind_eq_some_iff] at h
  obtain ⟨m₂, hpage, hfinish⟩ := h
  -- the entry comes from the buffer or from the tables
  have hfound : Spare m.toKernel m₁.toKernel := by
    rw [lookup] at hlookup
    split at hlookup
    · obtain ⟨-, rfl⟩ := Prod.mk.inj (Option.some.inj hlookup)
      exact Spare.refl _
    · exact spare_walk hlookup
  -- and its page is in memory already, or is loaded
  have hloaded : Spare m₁.toKernel m₂.toKernel := by
    rw [pageIn] at hpage
    split_ifs at hpage
    · obtain rfl := Option.some.inj hpage
      exact Spare.refl _
    · exact spare_loadPage hpage
  obtain ⟨hmap, hswap, -⟩ := @finish_kept origin m₂ e va op
  rw [Option.some.inj hfinish] at hmap hswap
  exact (hfound.trans hloaded).congr hmap hswap

/-- An operation other than a removal. -/
theorem spare_step {s s' : Machine × History} {e : Event} (he : ∀ p, e ≠ .remove p)
    (h : record origin s e = some s') : Spare s.1.toKernel s'.1.toKernel := by
  obtain ⟨⟨r, m'⟩, hstep, rfl⟩ := Option.map_eq_some_iff.mp h
  cases e with
  | add p =>
    simp only [step] at hstep
    split_ifs at hstep
    obtain ⟨m₁, hadd, heq⟩ := Option.map_eq_some_iff.mp hstep
    obtain ⟨-, rfl⟩ := Prod.mk.inj heq
    exact spare_mmuAddProcess hadd
  | remove p => exact absurd rfl (he p)
  | rw p a op =>
    simp only [step] at hstep
    split_ifs at hstep
    obtain ⟨⟨r₁, m₁⟩, hrw, heq⟩ := Option.map_eq_some_iff.mp hstep
    obtain ⟨-, rfl⟩ := Prod.mk.inj heq
    -- a switch of the process only flushes the buffer
    have hswitch : (contextSwitch s.1 p).toKernel = s.1.toKernel := by
      rw [contextSwitch]
      split_ifs <;> rfl
    rw [← hswitch]
    simp only [mmuRwFromVirtualAddress, Option.bind_eq_bind] at hrw
    obtain ⟨segments, -, hrw⟩ := Option.bind_eq_some_iff.mp hrw
    split at hrw
    · obtain ⟨-, rfl⟩ := Prod.mk.inj (Option.some.inj hrw)
      exact Spare.refl _
    · split_ifs at hrw
      · obtain ⟨-, rfl⟩ := Prod.mk.inj (Option.some.inj hrw)
        exact Spare.refl _
      · exact spare_access hrw

/-- **As long as a frame is free, there are no swap files.** -/
theorem noFile_of_free {es : List Event} (hes : ∀ p, .remove p ∉ es) {s : Machine × History}
    {i : Nat} (hi : i < numPhysicalPages) (h : run (record origin) (Machine.create, []) es = some s)
    (hfree : s.1.entryMapping i = .free) (e : EntryPtr) : s.1.swapFiles (.bin e) = none := by
  have hspare : ∀ s, Visits (record origin) (Machine.create, []) es s →
      Spare Machine.create.toKernel s.1.toKernel := by
    refine forall_visits_of_takes (C := fun _ e => ∀ p, e ≠ .remove p) (Spare.refl _)
      (fun _ _ _ hs he hstep => hs.trans (spare_step he hstep)) ?_
    rintro s e ⟨pre, hpre, -⟩ p rfl
    exact hes p (hpre.subset (by simp))
  rw [(hspare s (Visits.final h) i hi hfree).2]
  rfl

end Spare

/-! ## Private runs -/

/-- The invariant: every page contains what its process has written since it was added. -/
structure Secluded (origin : Fin (2 ^ 20)) (s : Machine × History) : Prop where
  frames : Frames origin s.1.toKernel s.1.pageDirectories none
  fits : Fits s.1
  tlb : TlbOk origin s.1
  own : ∀ pid v offset, offset < 4096 →
    content origin s.1.toKernel s.1.pageDirectories pid v offset =
      (ownWrite pid (4096 * v + offset) s.2).getD 0
  fresh : ∀ pid v, touched pid v s.2 = false →
    ∀ offset, offset < 4096 → content origin s.1.toKernel s.1.pageDirectories pid v offset = 0

theorem secluded_create : Secluded origin (Machine.create, []) where
  frames := inv_create.frames
  fits := fits_create
  tlb := inv_create.tlb
  own := fun _ _ _ _ => rfl
  fresh := fun _ _ _ _ _ => rfl

/-- A process without a directory has no pages. -/
theorem content_of_dirs {k : Kernel} {dirs : Nat → Option Nat} {pid : Nat} (h : dirs pid = none)
    (v : Nat) : content origin k dirs pid v = Memory.zero := by
  have hpte : pte? origin k dirs pid v = none := by
    rw [pte?, tableFrame, h, Option.bind_none, Option.map_none]
  rw [content, hpte]

/-- **An access** of a process. -/
theorem secluded_rw {h : History} {pid va : Nat} {op : Op} {r : Result} (hs : Secluded origin (m, h))
    (hfits : Fits m') (hfit : op.size + va % 4096 ≤ 4096)
    (hrw : mmuRwFromVirtualAddress origin m pid va op = some (r, m')) :
    Secluded origin (m', (.rw pid va op, some r) :: h) := by
  obtain ⟨hframes, htlb, ⟨rfl, hcontent⟩ | ⟨hr, hcontent⟩⟩ := rw_spec hs.frames hs.tlb hrw
  · refine ⟨hframes, hfits, htlb, fun p v offset hoffset => ?_, fun p v htouched offset hoffset => ?_⟩
    · have hown : ownWrite p (4096 * v + offset) ((.rw pid va op, some .segfault) :: h) =
          ownWrite p (4096 * v + offset) h := by
        cases op <;> rfl
      dsimp only
      rw [hcontent, hown]
      exact hs.own p v offset hoffset
    · dsimp only
      rw [hcontent]
      apply hs.fresh p v _ offset hoffset
      simpa [touched] using htouched
  · refine ⟨hframes, hfits, htlb, fun p v offset hoffset => ?_, fun p v htouched offset hoffset => ?_⟩
    · dsimp only
      rw [hcontent]
      cases op with
      | read n =>
        rw [opContent, ite_self]
        exact hs.own p v offset hoffset
      | write buffer =>
        rw [hr]
        exact write_getD hfit hoffset (hs.own p v offset hoffset)
    · -- a page that is still untouched is not the page of this access
      have hsegfault : r ≠ .segfault := by
        rw [hr]
        cases op <;> simp [opResult]
      simp only [touched, Bool.or_eq_false_iff, decide_eq_false_iff_not] at htouched
      have hne : ¬ (p = pid ∧ v = va / 4096) := by
        rintro ⟨rfl, rfl⟩
        exact htouched.1 ⟨rfl, rfl, by simpa using hsegfault⟩
      dsimp only
      rw [hcontent, if_neg hne]
      exact hs.fresh p v htouched.2 offset hoffset

/-- **A new process** has zeros in all its pages. -/
theorem secluded_add {h : History} {pid : Nat} {r : Option Result} (hs : Secluded origin (m, h))
    (hfits : Fits m') (hpid : m.pageDirectories pid = none)
    (hadd : mmuAddProcess origin m pid = some m') :
    Secluded origin (m', (.add pid, r) :: h) := by
  obtain ⟨hframes, hpte, hcontent, htlb, hcurr⟩ := addProcess_spec hs.frames hpid hadd
  have hzero := @content_of_dirs origin m.toKernel _ _ hpid
  refine ⟨hframes, hfits, ?_, fun p v offset hoffset => ?_, fun p v htouched offset hoffset => ?_⟩
  · intro b e hmem
    rw [htlb] at hmem
    rw [hcurr]
    exact hpte _ _ _ (hs.tlb b e hmem)
  · dsimp only
    rw [hcontent, ownWrite]
    split_ifs with hp
    · rw [← hp, hzero]
      rfl
    · exact hs.own p v offset hoffset
  · dsimp only
    rw [hcontent]
    rw [touched] at htouched
    by_cases hp : pid = p
    · rw [← hp, hzero]
      rfl
    · rw [if_neg hp] at htouched
      exact hs.fresh p v htouched offset hoffset

/-- **A process that goes away**, with no swap file left behind. -/
theorem secluded_remove {h : History} {pid : Nat} {r : Option Result} (hs : Secluded origin (m, h))
    (hfits : Fits (mmuRemoveProcess origin m pid))
    (he : NoneSwapped origin (m, h) (.remove pid)) :
    Secluded origin (mmuRemoveProcess origin m pid, (.remove pid, r) :: h) := by
  obtain ⟨hframes, hpte, hcontent⟩ := removeProcess_spec hs.frames hs.fits.kernel
    (fun i t e ht hframe => by subst hframe; exact he i e.frame e.index ht) rfl
  refine ⟨hframes, hfits, ?_, fun p v offset hoffset => ?_, fun p v htouched offset hoffset => ?_⟩
  · -- the cache is flushed when the process is the current one
    intro b e hmem
    simp only [mmuRemoveProcess] at hmem
    split_ifs at hmem with hcurr
    · simp [tlbCreate] at hmem
    · have hcurr' : (mmuRemoveProcess origin m pid).currPid = m.currPid := rfl
      rw [hcurr', hpte, if_neg hcurr]
      exact hs.tlb b e hmem
  · dsimp only
    rw [hcontent, ownWrite]
    by_cases hp : p = pid
    · rw [if_pos hp, if_pos hp.symm]
      rfl
    · rw [if_neg hp, if_neg (Ne.symm hp)]
      exact hs.own p v offset hoffset
  · dsimp only
    rw [hcontent]
    rw [touched] at htouched
    by_cases hp : p = pid
    · rw [if_pos hp]
      rfl
    · rw [if_neg hp]
      rw [if_neg (Ne.symm hp)] at htouched
      exact hs.fresh p v htouched offset hoffset

/-- **Every operation that leaves no swap file of a removed process behind keeps the invariant.** -/
theorem secluded_step {s s' : Machine × History} {e : Event} (hs : Secluded origin s)
    (he : NoneSwapped origin s e) (h : record origin s e = some s') : Secluded origin s' := by
  obtain ⟨m, hist⟩ := s
  simp only [record, Option.map_eq_some_iff] at h
  obtain ⟨⟨r, m'⟩, hstep, rfl⟩ := h
  have hfits : Fits m' := fits_step hs.fits hstep
  cases e with
  | add pid =>
    simp only [step] at hstep
    split_ifs at hstep with hpid
    obtain ⟨m₁, hadd, heq⟩ := Option.map_eq_some_iff.mp hstep
    obtain ⟨rfl, rfl⟩ := Prod.mk.inj heq
    exact secluded_add hs hfits hpid.2 hadd
  | remove pid =>
    simp only [step] at hstep
    split_ifs at hstep
    obtain ⟨rfl, rfl⟩ := Prod.mk.inj (Option.some.inj hstep)
    exact secluded_remove hs hfits he
  | rw pid va op =>
    simp only [step] at hstep
    split_ifs at hstep with hfit
    obtain ⟨⟨r₁, m₁⟩, hrw, heq⟩ := Option.map_eq_some_iff.mp hstep
    obtain ⟨rfl, rfl⟩ := Prod.mk.inj heq
    exact secluded_rw hs hfits hfit.2.2 hrw

/-- The invariant makes a state private. -/
theorem Secluded.isPrivate {s : Machine × History} (hs : Secluded origin s) : Private origin s := by
  intro pid va n buffer m' hread
  simp only [step] at hread
  split_ifs at hread with hfit
  obtain ⟨⟨r, m₁⟩, hrw, heq⟩ := Option.map_eq_some_iff.mp hread
  obtain ⟨hr, rfl⟩ := Prod.mk.inj heq
  obtain rfl := Option.some.inj hr
  have hsize : n + va % 4096 ≤ 4096 := hfit.2.2
  obtain ⟨-, -, ⟨hfault, -⟩ | ⟨hbytes, -⟩⟩ := rw_spec hs.frames hs.tlb hrw
  · simp at hfault
  rw [opResult, Result.bytes.injEq, Memory.read] at hbytes
  constructor
  · rw [hbytes]
    refine List.map_congr_left fun i hi => ?_
    have hin : i < n := List.mem_range.mp hi
    have haddr : 4096 * (va / 4096) + (va % 4096 + i) = va + i := by omega
    have hown := hs.own pid (va / 4096) (va % 4096 + i) (by omega)
    rwa [haddr] at hown
  · intro htouched
    rw [hbytes, List.eq_replicate_iff]
    refine ⟨by simp, fun b hb => ?_⟩
    obtain ⟨i, hi, rfl⟩ := List.mem_map.mp hb
    have hin : i < n := List.mem_range.mp hi
    exact hs.fresh pid (va / 4096) htouched _ (by omega)

/-- An access goes through if the resident pages of all processes let it. -/
theorem exists_rw {T : Residents} {pid va : Nat} {op : Op} (h : Follows origin m T)
    (hread : (stepResidents T (.rw pid va op)).isSome) :
    ∃ r m', step origin m (.rw pid va op) = some (some r, m') ∧
      mmuRwFromVirtualAddress origin m pid va op = some (r, m') := by
  obtain ⟨T', hT'⟩ := Option.isSome_iff_exists.mp hread
  obtain ⟨⟨r, m'⟩, hstep, -⟩ := rel_some_right (step_rel h _) hT'
  have hstep' := hstep
  simp only [step] at hstep'
  split_ifs at hstep'
  obtain ⟨⟨r, m'⟩, hrw, heq⟩ := Option.map_eq_some_iff.mp hstep'
  obtain ⟨rfl, rfl⟩ := Prod.mk.inj heq
  exact ⟨r, m', hstep, hrw⟩

/-- A read that the segments allow returns bytes, if there are frames for it. -/
theorem exists_read {T : Residents} {pid va n : Nat} (h : Follows origin m T)
    (hallowed : allowed va (.read n) = true)
    (hread : (stepResidents T (.rw pid va (.read n))).isSome) :
    ∃ buffer m', step origin m (.rw pid va (.read n)) = some (some (.bytes buffer), m') := by
  obtain ⟨r, m', hstep, hrw⟩ := exists_rw h hread
  rw [hstep]
  simp only [mmuRwFromVirtualAddress, Option.bind_eq_bind] at hrw
  obtain ⟨segments, hsegments, hrw⟩ := Option.bind_eq_some_iff.mp hrw
  have hsame : (contextSwitch m pid).segmentations = m.segmentations := by
    rw [contextSwitch]
    split_ifs <;> rfl
  -- every process has the segments that it was added with
  obtain rfl : newSegmentations = segments := by
    rw [hsame, h.1.segments, Option.map_eq_some_iff] at hsegments
    obtain ⟨d, -, heq⟩ := hsegments
    exact heq
  obtain ⟨seg, hfind, hperm⟩ := (Option.any_eq_true _ _).mp hallowed
  rw [decide_eq_true_iff] at hperm
  simp only [hfind, if_neg hperm] at hrw
  obtain ⟨e, m₁, m₂, -, -, hfinish⟩ := access_eq_some.mp hrw
  obtain ⟨rfl, -⟩ := Prod.mk.inj hfinish
  exact ⟨_, _, rfl⟩

/-- **Processes are private** in every run in which no process is removed that has a swap file. -/
theorem private_of_noneSwapped {es : List Event}
    (hes : ∀ s e, Takes (record origin) (Machine.create, []) es s e → NoneSwapped origin s e) :
    ∀ s, Visits (record origin) (Machine.create, []) es s → Private origin s := by
  intro s hs
  apply Secluded.isPrivate
  exact forall_visits_of_takes secluded_create (fun _ _ _ hs he h => secluded_step hs he h) hes s hs

/-- Process 0 writes to a page outside of its testing segment and is removed. Process 1 gets its
frames. -/
def cleanRun : List Event := [.add 0, .rw 0 12288 (.write [7]), .remove 0, .add 1]

theorem noneSwapped_cleanRun {s : Machine × History} {e : Event}
    (h : Takes (record 5) (Machine.create, []) cleanRun s e) : NoneSwapped 5 s e := by
  obtain ⟨pre, hpre, hrun⟩ := h
  cases e with
  | remove pid =>
    have hpre' : pre = [.add 0, .rw 0 12288 (.write [7])] := by
      obtain ⟨post, hpost⟩ := hpre
      rcases pre with _ | ⟨a, _ | ⟨b, _ | ⟨c, _ | ⟨d, pre⟩⟩⟩⟩ <;> simp_all [cleanRun]
    have hfree : (run (record 5) (Machine.create, []) pre).map (fun s => s.1.entryMapping 100) =
        some .free := by
      rw [hpre']
      decide +kernel
    rw [hrun, Option.map_some, Option.some.injEq] at hfree
    intro i t j _
    exact noFile_of_free (by simp [hpre']) (by decide) hrun hfree _
  | _ => trivial

theorem private_cleanRun :
    ∃ s m' buffer, run (record 5) (Machine.create, []) cleanRun = some s ∧
      step 5 s.1 (.rw 1 12288 (.read 2)) = some (some (.bytes buffer), m') ∧
      buffer = List.replicate 2 0 := by
  have hread : ((run stepResidents (List.replicate numPhysicalPages none) cleanRun).any fun T =>
      (stepResidents T (.rw 1 12288 (.read 2))).isSome) = true := by
    decide +kernel
  obtain ⟨T, hT, hread⟩ := (Option.any_eq_true _ _).mp hread
  obtain ⟨s, hrun, hs⟩ := rel_some_right (run_rel 5 follows_create cleanRun) hT
  obtain ⟨buffer, m', hstep⟩ := exists_read hs (by decide) hread
  -- process 1 has made no access yet
  have htouched : touched 1 3 s.2 = false := by
    have hadd : run (record 5) (Machine.create, [])
        ([.add 0, .rw 0 12288 (.write [7]), .remove 0] ++ [.add 1]) = some s := hrun
    obtain ⟨t, -, hstep⟩ := run_snoc_eq_some.mp hadd
    obtain ⟨p, -, rfl⟩ := Option.map_eq_some_iff.mp hstep
    rfl
  have hprivate := private_of_noneSwapped (fun s e he => noneSwapped_cleanRun he) s
    (Visits.final hrun) 1 12288 2 buffer m' hstep
  exact ⟨s, m', buffer, hrun, hstep, hprivate.2 htouched⟩

/-! ## What a process finds in a swap file -/

/-- A lookup of an entry that is there leaves memory as it is. -/
theorem lookup_of_pte? {pid va : Nat} {e : EntryPtr} (htlb : TlbOk origin m) (hpid : m.currPid = pid)
    (he : pte? origin m.toKernel m.pageDirectories pid (va / 4096) = some e) :
    ∃ tlb n, lookup origin m pid va = some (e, m.setTlb tlb n) := by
  rw [lookup]
  cases hhit : (tlbGetPte m.tlb (va / 4096)).1 with
  | some e' =>
    have he' := hpid ▸ (tlbGetPte_spec (va / 4096) htlb).2 e' hhit
    obtain rfl : e = e' := Option.some.inj (he.symm.trans he')
    exact ⟨_, m.numTlbMisses, rfl⟩
  | none => exact ⟨_, m.numTlbMisses + 1, walk_of_pte? he⟩

/-- **A page that is not in memory is read from the swap file of its entry**, whoever has left it
there. -/
theorem read_swapped {pid va n : Nat} {e : EntryPtr} {page : Memory} {r : Result} (hs : Sound origin m)
    (he : pte? origin m.toKernel m.pageDirectories pid (va / 4096) = some e)
    (habsent : present (m.load e) = false) (hfile : m.swapFiles (.bin e) = some page)
    (hallowed : allowed va (.read n) = true)
    (hread : mmuRwFromVirtualAddress origin m pid va (.read n) = some (r, m')) :
    r = .bytes (page.read (va % 4096) n) := by
  obtain ⟨hk, hdirs, hsegments, hcurr, htlb⟩ := contextSwitch_spec hs.tlb pid
  obtain ⟨m₀, hm₀⟩ : ∃ m₀, m₀ = contextSwitch m pid := ⟨_, rfl⟩
  rw [← hm₀] at hk hdirs hsegments hcurr htlb
  obtain ⟨T, hT⟩ := exists_shows hs.kernel.frames
  have hres : Res origin m₀.toKernel m₀.pageDirectories T := by
    rw [hk, hdirs]
    exact ⟨hs.kernel, hT⟩
  have hsegs : m₀.segmentations pid = some newSegmentations := by
    obtain ⟨t, ht, -⟩ := Option.map_eq_some_iff.mp he
    obtain ⟨d, hd, -⟩ := Option.bind_eq_some_iff.mp ht
    rw [hsegments, hs.segments, hd, Option.map_some]
  rw [← hk, ← hdirs] at he
  rw [← hk] at habsent hfile
  -- the segments allow the access
  obtain ⟨seg, hfind, hperm⟩ := (Option.any_eq_true _ _).mp hallowed
  obtain ⟨-, hv⟩ := findSegment_index hfind
  rw [decide_eq_true_iff] at hperm
  simp only [mmuRwFromVirtualAddress, ← hm₀, hsegs, Option.bind_eq_bind, Option.bind_some, hfind,
    if_neg hperm] at hread
  -- the page is absent, and its frame gets what is in the file
  obtain ⟨tlb, n', hlookup⟩ := lookup_of_pte? htlb hcurr he
  rw [access_eq, hlookup, Option.bind_some, pageIn_setTlb, pageIn, if_neg (by simp [habsent])] at hread
  rcases newPage_cases hres he hv habsent with ⟨hask, -⟩ | ⟨f, k₁, hf, hef, hask, -, hnew⟩
  · simp [loadPage, hask] at hread
  · obtain ⟨k₂, hk₂, hp, -⟩ := hnew ((k₁.swapFiles (.bin e)).getD (k₁.memory f))
    have hpage : (k₁.swapFiles (.bin e)).getD (k₁.memory f) = page := by
      have hswap := hp.swap e (hres.sound.unowned habsent f)
      rw [hk₂, hfile] at hswap
      dsimp only at hswap
      rw [hswap, Option.getD_some]
    have htarget : target origin (k₂.load e) = some f := by
      have hframe := (hp.frame (.page pid (va / 4096)) f).mpr (Or.inl ⟨rfl, rfl⟩)
      rwa [frame?_page (hp.pte he)] at hframe
    have hmem : k₂.memory f = page := by
      rw [hk₂, ← hpage]
      exact Function.update_self ..
    rw [loadPage_eq hf hef hask, ← hk₂, Option.map_some, Option.bind_some] at hread
    have hr := finish_read (f := f) htarget (Option.some.inj hread)
    rw [hr]
    exact congrArg (fun page => Result.bytes (Memory.read page (va % 4096) n)) hmem

/-! ## A run that leaks -/

/-- Process 0 writes to one of its pages, and 63 processes fill the memory. -/
def fillingRun : List Event :=
  [.add 0, .rw 0 12288 (.write [7])] ++ (List.range 63).map fun i => .add (i + 1)

/-- Then process 0 is removed and added again. -/
def leakingRun : List Event := fillingRun ++ [.remove 0, .add 0]

/-- Added processes write nothing. -/
theorem lastWrite_adds {ps : List Nat} {s s' : Machine × History} {pid a : Nat}
    (h : run (record origin) s (ps.map .add) = some s') :
    lastWrite pid a s'.2 = lastWrite pid a s.2 := by
  induction ps generalizing s with
  | nil =>
    obtain rfl := Option.some.inj h
    rfl
  | cons p ps ih =>
    rw [List.map_cons, run_cons, Option.bind_eq_some_iff] at h
    obtain ⟨⟨m₁, h₁⟩, hstep, hrun⟩ := h
    obtain ⟨⟨r, m₂⟩, -, heq⟩ := Option.map_eq_some_iff.mp hstep
    obtain ⟨-, rfl⟩ := Prod.mk.inj heq
    rw [ih hrun]
    rfl

/-- Where the residents of interest are, before and after the removal. -/
theorem residents_leakingRun :
    ∃ T T', run stepResidents (List.replicate numPhysicalPages none) fillingRun = some T ∧
      run stepResidents T [.remove 0, .add 0] = some T' ∧
      (T[1]? = some (some (.table 0 0)) ∧ some (.page 0 3) ∉ T) ∧
      T'[1]? = some (some (.table 0 0)) ∧ some (.page 0 3) ∉ T' ∧
      (stepResidents T' (.rw 0 12288 (.read 1))).isSome := by
  have h : ((run stepResidents (List.replicate numPhysicalPages none) fillingRun).any fun T =>
      (run stepResidents T [.remove 0, .add 0]).any fun T' =>
        (T[1]? = some (some (.table 0 0)) ∧ some (.page 0 3) ∉ T) ∧
        T'[1]? = some (some (.table 0 0)) ∧ some (.page 0 3) ∉ T' ∧
        (stepResidents T' (.rw 0 12288 (.read 1))).isSome) = true := by
    decide +kernel
  obtain ⟨T, hT, h⟩ := (Option.any_eq_true _ _).mp h
  obtain ⟨T', hT', h⟩ := (Option.any_eq_true _ _).mp h
  exact ⟨T, T', hT, hT', of_decide_eq_true h⟩

theorem present_of_target_none {w : Nat} (h : target origin w = none) : present w = false := by
  by_contra hpresent
  rw [target, if_pos (by simpa using hpresent)] at h
  simp at h

/-- Adding a process leaves the swap files of entries that own no frame. -/
theorem addProcess_swap {pid : Nat} {e : EntryPtr} (hs : Sound origin m)
    (hpid : m.pageDirectories pid = none) (hadd : mmuAddProcess origin m pid = some m')
    (he : Unowned m.toKernel e) (hindex : e.index ∉ [1, 2]) :
    m'.swapFiles (.bin e) = m.swapFiles (.bin e) := by
  obtain ⟨T, hT⟩ := exists_shows hs.kernel.frames
  obtain ⟨T', -, -, -, -, -, -, -, hswap⟩ :=
    rel_some_left (addProcess_rel ⟨hs.kernel, hT⟩ hpid) hadd
  exact hswap e he hindex

/-- After the memory has been filled, what process 0 has written is in a swap file. -/
theorem swapped_fillingRun {s : Machine × History} {T : Residents}
    (hrun : run (record 5) (Machine.create, []) fillingRun = some s) (hT : Follows 5 s.1 T)
    (htable : T[1]? = some (some (.table 0 0))) (hpage : some (.page 0 3) ∉ T) :
    ∃ page, s.1.swapFiles (.bin ⟨1, 3⟩) = some page ∧ page 0 = 7 := by
  have hinv : Inv 5 s := by
    refine forall_visits_of_takes (C := fun _ e => ∀ pid, e ≠ .remove pid) inv_create
      (fun _ _ _ hi he h => inv_step hi he h) ?_ s (Visits.final hrun)
    rintro s e ⟨pre, hpre, -⟩ pid rfl
    have hmem : Event.remove pid ∈ fillingRun := hpre.subset (by simp)
    simp [fillingRun] at hmem
  have hlast : lastWrite 0 12288 s.2 = some 7 := by
    have hadds : (List.range 63).map (fun i => Event.add (i + 1)) =
        ((List.range 63).map (· + 1)).map .add := by
      rw [List.map_map]
      rfl
    rw [fillingRun, hadds, run_append, Option.bind_eq_some_iff] at hrun
    obtain ⟨s₀, hs₀, hrun⟩ := hrun
    have hhistory : (run (record 5) (Machine.create, []) [.add 0, .rw 0 12288 (.write [7])]).map
        Prod.snd = some [(.rw 0 12288 (.write [7]), some .written), (.add 0, none)] := by
      decide +kernel
    rw [hs₀, Option.map_some, Option.some.injEq] at hhistory
    rw [lastWrite_adds hrun, hhistory]
    rfl
  have hcontent := hinv.coherent 0 3 0 (by omega)
  obtain ⟨hpte, htarget⟩ := @entry_of_follows _ _ _ 0 3 _ hT htable hpage
  rw [content_of_pte hpte, htarget] at hcontent
  have hbyte : ((s.1.swapFiles (.bin ⟨1, 3⟩)).getD Memory.zero) 0 = 7 := by
    rw [show 4096 * 3 + 0 = 12288 from rfl, hlast] at hcontent
    exact hcontent
  cases hfile : s.1.swapFiles (.bin ⟨1, 3⟩) with
  | none =>
    rw [hfile] at hbyte
    simp [Memory.zero] at hbyte
  | some page =>
    rw [hfile] at hbyte
    exact ⟨page, rfl, hbyte⟩

/-- A removal returns frames, and no entry gets one. -/
theorem unowned_remove {pid : Nat} {e : EntryPtr} (he : Unowned m.toKernel e) :
    Unowned (mmuRemoveProcess origin m pid).toKernel e := by
  have hfrees := @mmuRemoveProcess_frees origin m pid
  intro f howner
  by_cases hfree : (mmuRemoveProcess origin m pid).entryMapping f = .free
  · simp [hfree] at howner
  · rw [hfrees.kept f fun hf => hfree (hfrees.free f hf)] at howner
    exact he f howner

/-- **The swap file of an entry stays** when its process is removed and added again. -/
theorem swapped_readded {s s' : Machine × History} {pid : Nat} {e : EntryPtr} {page : Memory}
    (hs : Sound origin s.1) (habsent : present (s.1.load e) = false) (hindex : e.index ∉ [1, 2])
    (hfile : s.1.swapFiles (.bin e) = some page)
    (hrun : run (record origin) s [.remove pid, .add pid] = some s') :
    s'.1.swapFiles (.bin e) = some page ∧ ∀ v, touched pid v s'.2 = false := by
  rw [run_cons, Option.bind_eq_some_iff] at hrun
  obtain ⟨s₁, hremove, hrun⟩ := hrun
  rw [run_cons, Option.bind_eq_some_iff] at hrun
  obtain ⟨s₂, hadd, hrun⟩ := hrun
  obtain rfl := Option.some.inj hrun
  simp only [record, Option.map_eq_some_iff] at hremove
  obtain ⟨⟨r₁, m₁⟩, hremove, rfl⟩ := hremove
  simp only [record, Option.map_eq_some_iff] at hadd
  obtain ⟨⟨r₂, m₂⟩, hadd, rfl⟩ := hadd
  have hsound := sound_step hs hremove
  simp only [step] at hremove hadd
  split_ifs at hremove hadd with _ hpid
  obtain ⟨rfl, rfl⟩ := Prod.mk.inj (Option.some.inj hremove)
  obtain ⟨m₃, hadd', heq⟩ := Option.map_eq_some_iff.mp hadd
  obtain ⟨rfl, rfl⟩ := Prod.mk.inj heq
  refine ⟨?_, fun v => by simp [touched]⟩
  have hfrees := @mmuRemoveProcess_frees origin s.1 pid
  dsimp only
  rw [addProcess_swap hsound hpid.2 hadd' (unowned_remove (hs.kernel.unowned habsent)) hindex,
    hfrees.swapFiles, hfile]

/-- A read of a page that is out of memory. -/
theorem step_read_swapped {T : Residents} {pid va : Nat} {e : EntryPtr} {page : Memory}
    (h : Follows origin m T)
    (he : pte? origin m.toKernel m.pageDirectories pid (va / 4096) = some e)
    (hout : target origin (m.load e) = none) (hfile : m.swapFiles (.bin e) = some page)
    (hallowed : allowed va (.read 1) = true)
    (hread : (stepResidents T (.rw pid va (.read 1))).isSome) :
    ∃ m', step origin m (.rw pid va (.read 1)) = some (some (.bytes [page (va % 4096)]), m') := by
  obtain ⟨r, m', hstep, hrw⟩ := exists_rw h hread
  refine ⟨m', ?_⟩
  rw [hstep, read_swapped h.1 he (present_of_target_none hout) hfile hallowed hrw]
  simp [Memory.read]

/-- **A process reads a byte of a removed one.** It has been added, has not accessed the page
before, and finds in it what the process that was removed has written. -/
theorem leak : ∃ s m', run (record 5) (Machine.create, []) leakingRun = some s ∧
    touched 0 3 s.2 = false ∧
    step 5 s.1 (.rw 0 12288 (.read 1)) = some (some (.bytes [7]), m') := by
  obtain ⟨T, T', hT, hT', ⟨htable, hpage⟩, htable', hpage', hread⟩ := residents_leakingRun
  obtain ⟨s, hs, hsT⟩ := rel_some_right (run_rel 5 follows_create fillingRun) hT
  obtain ⟨s', hs', hsT'⟩ := rel_some_right (run_rel 5 hsT [.remove 0, .add 0]) hT'
  obtain ⟨page, hfile, hbyte⟩ := swapped_fillingRun hs hsT htable hpage
  -- the swap file is still there when process 0 is back
  obtain ⟨-, hout⟩ := @entry_of_follows _ _ _ 0 3 _ hsT htable hpage
  obtain ⟨hfile', htouched⟩ :=
    swapped_readded hsT.1 (present_of_target_none hout) (by simp) hfile hs'
  -- and it is what the read finds
  obtain ⟨hpte, hout'⟩ : pte? 5 s'.1.toKernel s'.1.pageDirectories 0 (12288 / 4096) = some ⟨1, 3⟩ ∧
      target 5 (s'.1.load ⟨1, 3⟩) = none :=
    @entry_of_follows _ _ _ 0 3 _ hsT' htable' hpage'
  obtain ⟨m', hstep⟩ := step_read_swapped hsT' hpte hout' hfile' (by decide) hread
  refine ⟨s', m', ?_, htouched 3, ?_⟩
  · rw [leakingRun, run_append, hs]
    exact hs'
  · rw [hstep]
    simp [hbyte]

end SystemProgramming.Paging
