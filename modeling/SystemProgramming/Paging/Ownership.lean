import SystemProgramming.Paging.Residency

/-!
# Frame ownership

Which frame is used for what is recorded twice: in `entry_mapping`, and in the entries of the page
directories and page tables. In every run the two agree, however often pages have been evicted and
processes removed. A frame that `entry_mapping` gives to an entry is the frame that this entry
points to, a reserved frame is a directory or a table, and a removal returns the frames of its
process and no others.

## Main definitions

* `IsTable`, `Maps`: what the directories and tables of a process say of a frame
* `Owned`: both records agree, and no frame is used twice

## Main results

* `Sound.owned`: the invariant of all runs gives ownership
* `frames_owned`: ownership in every reachable state
-/

namespace SystemProgramming.Paging

variable {origin : Fin (2 ^ 20)} {m m' : Machine} {pid f : Nat} {e : EntryPtr}

/-- The frame `f` is a page table of a process: one of the 1024 entries of its directory is present
and points to it. -/
def IsTable (origin : Fin (2 ^ 20)) (m : Machine) (pid f : Nat) : Prop :=
  ∃ d i, m.pageDirectories pid = some d ∧ i < 1024 ∧ present (m.load ⟨d, i⟩) = true ∧
    pointsTo origin (m.load ⟨d, i⟩) = f

/-- The entry `e` is one of the 1024 entries of a page table of a process, it is present, and its
base address is the frame `f`. -/
def Maps (origin : Fin (2 ^ 20)) (m : Machine) (pid : Nat) (e : EntryPtr) (f : Nat) : Prop :=
  IsTable origin m pid e.frame ∧ e.index < 1024 ∧ present (m.load e) = true ∧
    pointsTo origin (m.load e) = f

/-- The process uses the frame `f` as its directory, as a table or as a page. -/
def UsesFrame (origin : Fin (2 ^ 20)) (m : Machine) (pid f : Nat) : Prop :=
  m.pageDirectories pid = some f ∨ IsTable origin m pid f ∨ ∃ e, Maps origin m pid e f

/-- **Frame ownership.** -/
structure Owned (origin : Fin (2 ^ 20)) (m : Machine) : Prop where
  /-- the owner of a frame is the entry that points to it -/
  pages : ∀ f e, m.entryMapping f = .entry e ↔ ∃ pid, Maps origin m pid e f
  /-- the reserved frames are the directories and the tables -/
  reserved : ∀ f, m.entryMapping f = .reserved ↔
    ∃ pid, m.pageDirectories pid = some f ∨ IsTable origin m pid f
  /-- all of them are frames of physical memory -/
  bound : ∀ pid f, UsesFrame origin m pid f → f < numPhysicalPages
  /-- no frame has two uses: as directories, tables or pages of any processes -/
  exclusive : ∀ u u' f, frame? origin m.toKernel m.pageDirectories u = some f →
    frame? origin m.toKernel m.pageDirectories u' = some f → u = u'
  /-- the removal of a process returns its frames, and leaves the others as they are -/
  removal : ∀ pid r m', step origin m (.remove pid) = some (r, m') → ∀ f,
    (UsesFrame origin m pid f → m.entryMapping f ≠ .free ∧ m'.entryMapping f = .free) ∧
    (¬ UsesFrame origin m pid f → m'.entryMapping f = m.entryMapping f)

/-! ## Uses and entries -/

theorem target_eq_some {w : Nat} :
    target origin w = some f ↔ present w = true ∧ pointsTo origin w = f := by
  rw [target]
  split_ifs with h <;> simp [h]

section Fits

variable (hfits : m.toKernel.Fits)
include hfits

/-- An entry that is present is one of the 1024 of its frame. -/
theorem index_lt_of_target (h : target origin (m.load e) = some f) : e.index < 1024 := by
  by_contra hindex
  rw [hfits.target_none (f := e.frame) (not_lt.mp hindex)] at h
  simp at h

theorem isTable_iff :
    IsTable origin m pid f ↔
      ∃ i, frame? origin m.toKernel m.pageDirectories (.table pid i) = some f := by
  simp only [frame?, tableFrame, Option.bind_eq_some_iff]
  constructor
  · rintro ⟨d, i, hd, -, hpresent, hpoints⟩
    exact ⟨i, d, hd, target_eq_some.mpr ⟨hpresent, hpoints⟩⟩
  · rintro ⟨i, d, hd, ht⟩
    exact ⟨d, i, hd, index_lt_of_target hfits ht, target_eq_some.mp ht⟩

theorem maps_iff :
    Maps origin m pid e f ↔
      ∃ v, pte? origin m.toKernel m.pageDirectories pid v = some e ∧
        frame? origin m.toKernel m.pageDirectories (.page pid v) = some f := by
  constructor
  · rintro ⟨htable, hindex, hpresent, hpoints⟩
    obtain ⟨i, ht⟩ := (isTable_iff hfits).mp htable
    have hdiv : (1024 * i + e.index) / 1024 = i := by omega
    have hpte : pte? origin m.toKernel m.pageDirectories pid (1024 * i + e.index) = some e := by
      rw [pte?_eq_some, hdiv]
      exact ⟨ht, by omega⟩
    refine ⟨_, hpte, ?_⟩
    rw [frame?_page hpte]
    exact target_eq_some.mpr ⟨hpresent, hpoints⟩
  · rintro ⟨v, hpte, hv⟩
    rw [frame?_page hpte] at hv
    exact ⟨(isTable_iff hfits).mpr ⟨_, (pte?_eq_some.mp hpte).1⟩, index_lt_of_target hfits hv,
      target_eq_some.mp hv⟩

/-- A process uses the frames of its uses. -/
theorem usesFrame_iff :
    UsesFrame origin m pid f ↔
      ∃ u : Use, u.pid = pid ∧ frame? origin m.toKernel m.pageDirectories u = some f := by
  rw [UsesFrame, isTable_iff hfits]
  simp only [maps_iff hfits]
  constructor
  · rintro (hd | ⟨i, ht⟩ | ⟨e, v, -, hv⟩)
    · exact ⟨.dir pid, rfl, hd⟩
    · exact ⟨.table pid i, rfl, ht⟩
    · exact ⟨.page pid v, rfl, hv⟩
  · rintro ⟨u, rfl, hu⟩
    cases u with
    | dir p => exact Or.inl hu
    | table p i => exact Or.inr (Or.inl ⟨i, hu⟩)
    | page p v =>
      obtain ⟨e, he, -⟩ := Option.bind_eq_some_iff.mp hu
      exact Or.inr (Or.inr ⟨e, v, he, hu⟩)

end Fits

/-! ## Ownership -/

/-- **What holds in every run is ownership.** -/
theorem Sound.owned (h : Sound origin m) : Owned origin m := by
  have hframes := h.kernel.frames
  have hfits := h.fits.kernel
  -- what `entry_mapping` says is what the uses say, with any swap directory
  have howner : ∀ u f, frame? origin m.toKernel m.pageDirectories u = some f →
      m.entryMapping f = ownerOf (owningEntry origin m.toKernel m.pageDirectories u) :=
    hframes.owner
  have hused : ∀ f, m.entryMapping f ≠ .free →
      ∃ u, frame? origin m.toKernel m.pageDirectories u = some f := fun f hf =>
    (hframes.owned f hf).resolve_left (by simp)
  have hpages : ∀ f e, m.entryMapping f = .entry e ↔ ∃ pid, Maps origin m pid e f := by
    intro f e
    constructor
    · intro hf
      obtain ⟨p, v, he, ht⟩ := hframes.page_of_owner hf
      refine ⟨p, (maps_iff hfits).mpr ⟨v, he, ?_⟩⟩
      exact Option.bind_eq_some_iff.mpr ⟨e, he, ht⟩
    · rintro ⟨p, hmaps⟩
      obtain ⟨v, he, hv⟩ := (maps_iff hfits).mp hmaps
      rw [howner _ f hv, owningEntry, he, ownerOf]
  have hreserved : ∀ f, m.entryMapping f = .reserved ↔
      ∃ p, m.pageDirectories p = some f ∨ IsTable origin m p f := by
    intro f
    constructor
    · intro hf
      obtain ⟨u, hu⟩ := hused f (by rw [hf]; simp)
      cases u with
      | dir p => exact ⟨p, Or.inl hu⟩
      | table p i => exact ⟨p, Or.inr ((isTable_iff hfits).mpr ⟨i, hu⟩)⟩
      | page p v =>
        obtain ⟨e, he, -⟩ := Option.bind_eq_some_iff.mp hu
        have hentry := howner _ f hu
        rw [hf, owningEntry, he, ownerOf] at hentry
        cases hentry
    · rintro ⟨p, hd | ht⟩
      · exact howner (.dir p) f hd
      · obtain ⟨i, ht⟩ := (isTable_iff hfits).mp ht
        exact howner (.table p i) f ht
  refine ⟨hpages, hreserved, fun p f hp => ?_, hframes.inj, fun p r m' hstep f => ?_⟩
  · obtain ⟨u, -, hu⟩ := (usesFrame_iff hfits).mp hp
    exact hframes.bound u f hu
  · simp only [step] at hstep
    split_ifs at hstep
    obtain ⟨-, rfl⟩ := Prod.mk.inj (Option.some.inj hstep)
    have hfrees := (@mmuRemoveProcess_frees origin m p).congr fun f =>
      (released_iff hfits).trans (usesFrame_iff hfits).symm
    refine ⟨fun hp => ⟨fun hfree => ?_, hfrees.free f hp⟩, hfrees.kept f⟩
    obtain ⟨u, -, hu⟩ := (usesFrame_iff hfits).mp hp
    have hentry := howner u f hu
    rw [hfree] at hentry
    cases hown : owningEntry origin m.toKernel m.pageDirectories u <;>
      simp [hown, ownerOf] at hentry

/-- **Frames are owned in every run** of operations for which a frame can always be handed out. -/
theorem frames_owned {s : Machine × History}
    (h : Reachable (record origin) (Machine.create, []) s) : Owned origin s.1 := by
  apply Sound.owned
  refine h.invariant (P := fun s => Sound origin s.1) sound_create ?_
  rintro ⟨m, hist⟩ e s' hs hstep
  simp only [record, Option.map_eq_some_iff] at hstep
  obtain ⟨⟨r, m'⟩, hstep, rfl⟩ := hstep
  exact sound_step hs hstep

/-- Process 0 writes to a page outside of its testing segment and is removed. Process 2 and a page
of process 1 get its frames. -/
def ownedRun : List Event :=
  [.add 0, .add 1, .rw 0 12288 (.write [7]), .remove 0, .add 2, .rw 1 12288 (.write [8])]

theorem frames_owned_ownedRun :
    ∃ s, run (record 5) (Machine.create, []) ownedRun = some s ∧
      s.1.entryMapping 8 = .entry ⟨5, 3⟩ ∧ ∃ pid, Maps 5 s.1 pid ⟨5, 3⟩ 8 := by
  have hend : ((run stepResidents (List.replicate numPhysicalPages none) ownedRun).any fun T =>
      T[5]? = some (some (.table 1 0)) ∧ T[8]? = some (some (.page 1 3))) = true := by
    decide +kernel
  obtain ⟨T, hT, hend⟩ := (Option.any_eq_true _ _).mp hend
  obtain ⟨htable, hpage⟩ := of_decide_eq_true hend
  obtain ⟨s, hrun, hs⟩ := rel_some_right (run_rel 5 follows_create ownedRun) hT
  have howner : s.1.entryMapping 8 = .entry ⟨5, 3⟩ :=
    @owner_of_follows _ _ _ 1 3 5 8 hs htable hpage
  exact ⟨s, hrun, howner, ((frames_owned ⟨ownedRun, hrun⟩).pages 8 ⟨5, 3⟩).mp howner⟩

end SystemProgramming.Paging
