import SystemProgramming.Paging.Residency

/-!
# Access control by segments

`find_segment` takes the first segment that holds an address, and both ends of a segment belong to
it. The bytes of a segment are those from its start up to its end, without the end, or from its
end up to its start for a segment that grows down: so the excluded end of a segment, which is
often the start of the next one, is looked up as if it belonged to it. Segments start and end at
page boundaries, so an access inside a page is in one segment with all its bytes or with none.

## Main definitions

* `growSegment`, `shrinkSegment`: `segments.c`
* `Segment.inside`: the bytes of a segment
* `Resized`: what `grow_segment` and `shrink_segment` make of the segments of a new process, with
  disjoint segments at any time
* `Kernel.Roomy`: an access finds the frames that it asks for
* `Controlled`: an access goes through when one segment holds it and permits it, and a
  segmentation fault changes no more than it may
* `EndsHarmless`: an excluded end that is found decides like the segment that goes on there

## Main results

* `inside_page`: a segment holds all bytes of an access or none
* `exists_access`: with enough frames an access comes to an end
* `accessControl_iff`: accesses are controlled except at some excluded ends
-/

namespace SystemProgramming.Paging

/-! ## `segments.c` -/

/-- `PAGE_SIZE`. -/
def pageSize : Nat := 4096

/-- Move the end of a segment by `delta` bytes; `end` is a word of 32 bits. -/
def Segment.moveStop (s : Segment) (delta : Int) : Segment :=
  { s with stop := ((s.stop + delta) % 2 ^ 32).toNat }

/-- `grow_segment`. -/
def growSegment (segments : List Segment) (segment numPages : Nat) : List Segment :=
  segments.modify segment fun s =>
    if s.growsDown then s.moveStop (-(numPages * pageSize)) else s.moveStop (numPages * pageSize)

/-- `shrink_segment`. -/
def shrinkSegment (segments : List Segment) (segment numPages : Nat) : List Segment :=
  segments.modify segment fun s =>
    if s.growsDown then s.moveStop (numPages * pageSize) else s.moveStop (-(numPages * pageSize))

/-! ## What segments are for -/

/-- The bytes of a segment. -/
def Segment.inside (s : Segment) (address : Nat) : Prop :=
  if s.growsDown then s.stop ≤ address ∧ address < s.start
  else s.start ≤ address ∧ address < s.stop

instance (s : Segment) (address : Nat) : Decidable (s.inside address) :=
  inferInstanceAs (Decidable (ite _ _ _))

/-- A segment permits an access. -/
def Segment.permits (s : Segment) (op : Op) : Prop := s.permissions &&& op.permission ≠ 0

instance (s : Segment) (op : Op) : Decidable (s.permits op) :=
  inferInstanceAs (Decidable (_ ≠ _))

/-- No byte belongs to two segments. -/
def DisjointSegments (segments : List Segment) : Prop :=
  segments.Pairwise fun s t => ∀ address, s.inside address → ¬ t.inside address

/-- The segments of a process after some calls that kept them disjoint. -/
inductive Resized : List Segment → Prop where
  | fresh : Resized newSegmentations
  | grow {segments : List Segment} {segment numPages : Nat} (h : Resized segments)
    (hdisjoint : DisjointSegments (growSegment segments segment numPages)) :
    Resized (growSegment segments segment numPages)
  | shrink {segments : List Segment} {segment numPages : Nat} (h : Resized segments)
    (hdisjoint : DisjointSegments (shrinkSegment segments segment numPages)) :
    Resized (shrinkSegment segments segment numPages)

/-- The lower and the upper end of a segment. -/
def Segment.low (s : Segment) : Nat := if s.growsDown then s.stop else s.start

def Segment.high (s : Segment) : Nat := if s.growsDown then s.start else s.stop

/-- All bytes of the access lie in one segment that permits it. -/
def Granted (segments : List Segment) (virtualAddress : Nat) (op : Op) : Prop :=
  ∃ s ∈ segments, (∀ i < op.size, s.inside (virtualAddress + i)) ∧ s.permits op

/-- A frame that is free, or holds a page of another entry. -/
def Kernel.Available (k : Kernel) (entry : Option EntryPtr) (i : Nat) : Prop :=
  i < numPhysicalPages ∧
    (k.entryMapping i = .free ∨ ∃ e, k.entryMapping i = .entry e ∧ entry ≠ some e)

/-- Two frames are free, or hold pages of entries other than any one. -/
def Kernel.Roomy (k : Kernel) : Prop :=
  ∀ entry, ∃ i j, i ≠ j ∧ k.Available entry i ∧ k.Available entry j

/-- The access goes through, if there are frames for it, when all its bytes lie in one segment that
permits it, and raises a segmentation fault when they do not. A segmentation fault changes the count
of segmentation faults, the current process and the TLB only. -/
structure Controlled (origin : Fin (2 ^ 20)) (m : Machine) (pid virtualAddress : Nat) (op : Op)
    (segments : List Segment) : Prop where
  through : Granted segments virtualAddress op → m.toKernel.Roomy →
    ∃ r m', mmuRwFromVirtualAddress origin m pid virtualAddress op = some (r, m') ∧ r ≠ .segfault
  faults : (∃ m', mmuRwFromVirtualAddress origin m pid virtualAddress op = some (.segfault, m')) ↔
    ¬ Granted segments virtualAddress op
  unchanged : ∀ m', mmuRwFromVirtualAddress origin m pid virtualAddress op = some (.segfault, m') →
    m' = { m with
      numSegmentationFaults := m'.numSegmentationFaults
      currPid := m'.currPid
      tlb := m'.tlb }

/-- Where a segment of the table ends at the address, and none before it reaches the address, it
grants the permission exactly if a segment behind it in the table holds the address and grants
it. -/
def EndsHarmless (segments : List Segment) (address : Nat) (op : Op) : Prop :=
  ∀ pre s post, segments = pre ++ s :: post → s.low ≤ address → s.high = address →
    (∀ t ∈ pre, address < t.low ∨ t.high < address) →
    (s.permits op ↔ ∃ t ∈ post, t.inside address ∧ t.permits op)

/-! ## Page boundaries -/

section Boundaries

variable {s t : Segment} {segments : List Segment} {va n : Nat}

/-- A segment starts and ends at page boundaries. -/
def Segment.Aligned (s : Segment) : Prop := s.start % 4096 = 0 ∧ s.stop % 4096 = 0

instance (s : Segment) : Decidable s.Aligned := inferInstanceAs (Decidable (_ ∧ _))

theorem Segment.Aligned.moveStop (h : s.Aligned) {delta : Int} (hdelta : delta % 4096 = 0) :
    (s.moveStop delta).Aligned := by
  refine ⟨h.1, ?_⟩
  have hstop := h.2
  simp only [Segment.moveStop]
  omega

theorem forall_modify {p : Segment → Prop} {f : Segment → Segment} (h : ∀ s ∈ segments, p s)
    (hf : ∀ s, p s → p (f s)) (i : Nat) : ∀ s ∈ segments.modify i f, p s := by
  intro s hs
  obtain ⟨j, hj, rfl⟩ := List.mem_iff_getElem.mp hs
  have hlt : j < segments.length := by rwa [List.length_modify] at hj
  have hmem : p segments[j] := h _ (List.getElem_mem hlt)
  rw [List.getElem_modify]
  split_ifs
  · exact hf _ hmem
  · exact hmem

theorem Resized.aligned (h : Resized segments) : ∀ s ∈ segments, s.Aligned := by
  have hpages : ∀ numPages : Nat, ((numPages : Int) * pageSize) % 4096 = 0 := by
    intro numPages
    simp only [pageSize]
    omega
  induction h with
  | fresh => decide
  | grow h hdisjoint ih =>
    apply forall_modify ih
    intro s hs
    split_ifs
    · exact hs.moveStop (by have := hpages; simp only [pageSize]; omega)
    · exact hs.moveStop (hpages _)
  | shrink h hdisjoint ih =>
    apply forall_modify ih
    intro s hs
    split_ifs
    · exact hs.moveStop (hpages _)
    · exact hs.moveStop (by simp only [pageSize]; omega)

theorem Segment.inside_iff : s.inside va ↔ s.low ≤ va ∧ va < s.high := by
  unfold Segment.inside Segment.low Segment.high
  split_ifs <;> rfl

theorem Segment.contains_iff : s.contains va = true ↔ s.low ≤ va ∧ va ≤ s.high := by
  unfold Segment.contains Segment.low Segment.high
  split_ifs <;> simp

/-- Segments that are empty, or one above the other. -/
theorem disjointSegments_of (h : segments.Pairwise fun s t =>
    s.high ≤ s.low ∨ t.high ≤ t.low ∨ s.high ≤ t.low ∨ t.high ≤ s.low) :
    DisjointSegments segments := by
  refine h.imp fun hor address hs ht => ?_
  rw [Segment.inside_iff] at hs ht
  omega

theorem Resized.disjoint (h : Resized segments) : DisjointSegments segments := by
  cases h with
  | fresh => exact disjointSegments_of (by decide)
  | grow h hdisjoint => exact hdisjoint
  | shrink h hdisjoint => exact hdisjoint

/-- **A segment holds all bytes of an access inside a page, or none.** -/
theorem inside_page (h : s.Aligned) (hpage : n + va % 4096 ≤ 4096) {i j : Nat} (hi : i < n)
    (hj : j < n) (hs : s.inside (va + i)) : s.inside (va + j) := by
  have hlow : s.low % 4096 = 0 := by
    unfold Segment.low
    split_ifs
    · exact h.2
    · exact h.1
  have hhigh : s.high % 4096 = 0 := by
    unfold Segment.high
    split_ifs
    · exact h.1
    · exact h.2
  rw [Segment.inside_iff] at hs ⊢
  omega

/-- A byte belongs to one segment. -/
theorem DisjointSegments.unique (h : DisjointSegments segments) (hs : s ∈ segments)
    (ht : t ∈ segments) (hsa : s.inside va) (hta : t.inside va) : s = t := by
  by_contra hne
  have hsymm : Std.Symm fun s t : Segment => ∀ address, s.inside address → ¬ t.inside address :=
    ⟨fun s t hst address hta hsa => hst address hsa hta⟩
  exact h.forall hs ht hne va hsa hta

end Boundaries

/-! ## Accesses -/

section Accesses

variable {origin : Fin (2 ^ 20)} {m : Machine} {pid va : Nat} {op : Op} {segments : List Segment}

/-- An access that the segments allow does not raise a segmentation fault. -/
theorem access_ne_segfault {r : Result} {m m' : Machine}
    (h : access origin m pid va op = some (r, m')) : r ≠ .segfault := by
  obtain ⟨e, m₁, m₂, -, -, hfinish⟩ := access_eq_some.mp h
  have hr := congrArg Prod.fst hfinish
  rintro rfl
  cases op <;> simp [finish, transfer] at hr

/-- An access faults exactly when the first segment that is found does not permit it. -/
theorem segfault_iff (hsegments : m.segmentations pid = some segments) :
    (∃ m', mmuRwFromVirtualAddress origin m pid va op = some (.segfault, m')) ↔
      ∀ s, findSegment segments va = some s → ¬ s.permits op := by
  have hsame : (contextSwitch m pid).segmentations pid = some segments := by
    rw [← hsegments, contextSwitch]
    split_ifs <;> rfl
  simp only [mmuRwFromVirtualAddress, hsame, Option.bind_eq_bind, Option.bind_some]
  cases hfind : findSegment segments va with
  | none => simp
  | some s =>
    simp only [Option.some.injEq, forall_eq', Segment.permits, not_not]
    split_ifs with hnone
    · exact iff_of_true ⟨_, rfl⟩ hnone
    · apply iff_of_false _ hnone
      rintro ⟨m', hm'⟩
      exact access_ne_segfault hm' rfl

/-- A segmentation fault is counted, and starts a context switch. -/
theorem segfault_changes {m' : Machine}
    (h : mmuRwFromVirtualAddress origin m pid va op = some (.segfault, m')) :
    m' = { m with
      numSegmentationFaults := m'.numSegmentationFaults
      currPid := m'.currPid
      tlb := m'.tlb } := by
  have hfault : m' = { contextSwitch m pid with
      numSegmentationFaults := (contextSwitch m pid).numSegmentationFaults + 1 } := by
    simp only [mmuRwFromVirtualAddress, Option.bind_eq_bind] at h
    obtain ⟨segments, -, h⟩ := Option.bind_eq_some_iff.mp h
    cases hfind : findSegment segments va with
    | none =>
      rw [hfind] at h
      exact (congrArg Prod.snd (Option.some.inj h)).symm
    | some s =>
      rw [hfind] at h
      dsimp only at h
      split_ifs at h
      · exact (congrArg Prod.snd (Option.some.inj h)).symm
      · exact absurd rfl (access_ne_segfault h)
  rw [hfault, contextSwitch]
  split_ifs <;> rfl

/-- A request is met when a frame is available. -/
theorem exists_ask {k : Kernel} {entry : Option EntryPtr} {i : Nat} (h : k.Available entry i) :
    ∃ f k', askKernelForFrame origin k entry = some (frameAddress origin f, k') ∧
      k'.entryMapping = Function.update k.entryMapping f (ownerOf entry) := by
  have hfor : frameFor k entry ≠ none := by
    rw [frameFor, Ne, Option.or_eq_none_iff, Option.map_eq_none_iff]
    rintro ⟨hfree, hevict⟩
    obtain ⟨hi, howner | ⟨e, howner, he⟩⟩ := h
    · exact List.find?_eq_none.mp hfree i (List.mem_range.mpr hi) (by simp [howner])
    · have hnone := List.findSome?_eq_none_iff.mp hevict i (List.mem_range.mpr hi)
      simp [howner, he] at hnone
  obtain ⟨f, hf⟩ := Option.ne_none_iff_exists'.mp hfor
  obtain ⟨k', hask, howners, -⟩ := @ask_some origin k entry f hf
  exact ⟨f, k', hask, howners⟩

/-- Bringing in a table takes one frame. -/
theorem exists_loadTable {pde : EntryPtr} {i : Nat} (h : m.toKernel.Available none i) :
    ∃ m' f, loadTable origin m pde = some m' ∧
      m'.entryMapping = Function.update m.entryMapping f .reserved := by
  obtain ⟨f, k', hask, howners⟩ := @exists_ask origin m.toKernel none i h
  have hread : ∀ k : Kernel, (readPageFromDisk origin k pde).entryMapping = k.entryMapping :=
    fun k => by
      rw [readPageFromDisk]
      split <;> rfl
  obtain ⟨m', hload⟩ : ∃ m', loadTable origin m pde = some m' := by
    simp only [loadTable, Option.bind_eq_bind, hask, Option.bind_some]
    exact ⟨_, rfl⟩
  refine ⟨m', f, hload, ?_⟩
  simp only [loadTable, Option.bind_eq_bind, hask, Option.bind_some, Option.some.injEq] at hload
  rw [← hload]
  exact (hread _).trans howners

theorem exists_loadPage {pte : EntryPtr} {i : Nat} (h : m.toKernel.Available (some pte) i) :
    ∃ m', loadPage origin m pte = some m' := by
  obtain ⟨f, k', hask, -⟩ := @exists_ask origin m.toKernel (some pte) i h
  simp only [loadPage, Option.bind_eq_bind, hask, Option.bind_some]
  exact ⟨_, rfl⟩

/-- The entry of a page is found, and there is still a frame for the page. -/
theorem exists_lookup {d : Nat} (hd : m.pageDirectories pid = some d) (hroomy : m.toKernel.Roomy) :
    ∃ e m', lookup origin m pid va = some (e, m') ∧ ∃ i, m'.toKernel.Available (some e) i := by
  have havailable : ∀ entry, ∃ i, m.toKernel.Available entry i := fun entry => by
    obtain ⟨i, -, -, hi, -⟩ := hroomy entry
    exact ⟨i, hi⟩
  rw [lookup]
  cases hhit : (tlbGetPte m.tlb (va / 4096)).1 with
  | some e => exact ⟨e, _, rfl, havailable (some e)⟩
  | none =>
    simp only [walk, Option.bind_eq_bind, hd, Option.bind_some]
    split_ifs with hpresent
    · exact ⟨_, _, rfl, havailable _⟩
    obtain ⟨i, hi⟩ := havailable none
    obtain ⟨m₁, f, hload, howners⟩ := @exists_loadTable origin
      { m with tlb := (tlbGetPte m.tlb (va / 4096)).2, numTlbMisses := m.numTlbMisses + 1 }
      ⟨d, va / 2 ^ 22⟩ i hi
    rw [hload, Option.bind_some]
    refine ⟨_, m₁, rfl, ?_⟩
    -- the table has taken one of the two frames at most
    have hother : ∀ j, j ≠ f → ∀ entry, m.toKernel.Available entry j →
        m₁.toKernel.Available entry j := by
      rintro j hj entry ⟨hlt, howner⟩
      refine ⟨hlt, ?_⟩
      rw [howners, Function.update_of_ne hj]
      exact howner
    obtain ⟨j, l, hne, hj, hl⟩ := hroomy (some ⟨pointsTo origin (m₁.load ⟨d, va / 2 ^ 22⟩),
      va / 4096 % 1024⟩)
    by_cases hjf : j = f
    · exact ⟨l, hother l (fun hlf => hne (hjf.trans hlf.symm)) _ hl⟩
    · exact ⟨j, hother j hjf _ hj⟩

/-- **With enough frames an access comes to an end.** -/
theorem exists_access {d : Nat} (hd : m.pageDirectories pid = some d)
    (hroomy : m.toKernel.Roomy) : ∃ r m', access origin m pid va op = some (r, m') := by
  obtain ⟨e, m₁, hlookup, i, hi⟩ := @exists_lookup origin m pid va d hd hroomy
  rw [access_eq, hlookup, Option.bind_some, pageIn]
  split_ifs with hpresent
  · exact ⟨_, _, rfl⟩
  · obtain ⟨m₂, hload⟩ := @exists_loadPage origin m₁ e i hi
    rw [hload]
    exact ⟨_, _, rfl⟩

theorem exists_mmuRw {d : Nat} (hsegments : m.segmentations pid = some segments)
    (hd : m.pageDirectories pid = some d) (hroomy : m.toKernel.Roomy) :
    ∃ r m', mmuRwFromVirtualAddress origin m pid va op = some (r, m') := by
  obtain ⟨m₀, hm₀⟩ : ∃ m₀, m₀ = contextSwitch m pid := ⟨_, rfl⟩
  have hsame : m₀.toKernel = m.toKernel ∧ m₀.pageDirectories = m.pageDirectories ∧
      m₀.segmentations = m.segmentations := by
    rw [hm₀, contextSwitch]
    split_ifs <;> exact ⟨rfl, rfl, rfl⟩
  obtain ⟨hkernel, hdirs, hsegs⟩ := hsame
  simp only [mmuRwFromVirtualAddress, ← hm₀, hsegs, hsegments, Option.bind_eq_bind,
    Option.bind_some]
  split
  · exact ⟨_, _, rfl⟩
  · split_ifs
    · exact ⟨_, _, rfl⟩
    · exact exists_access (hdirs ▸ hd) (hkernel ▸ hroomy)

/-- An access is controlled when the segment that is found permits it exactly if the segment that
holds its first byte does. -/
theorem controlled_iff {d : Nat} (hsegments : m.segmentations pid = some segments)
    (hd : m.pageDirectories pid = some d) (hresized : Resized segments) (hsize : 1 ≤ op.size)
    (hpage : op.size + va % 4096 ≤ 4096) :
    Controlled origin m pid va op segments ↔
      ((∃ s, findSegment segments va = some s ∧ s.permits op) ↔
        ∃ t ∈ segments, t.inside va ∧ t.permits op) := by
  -- segments start and stop at pages, so that the first byte decides for all
  have hall : Granted segments va op ↔ ∃ t ∈ segments, t.inside va ∧ t.permits op := by
    refine exists_congr fun s => and_congr_right fun hs => and_congr_left fun _ => ?_
    constructor
    · exact fun h => h 0 hsize
    · intro h i hi
      exact inside_page (hresized.aligned s hs) hpage hsize hi (by simpa using h)
  -- the code looks at the first segment that contains the address, and only at that
  have hfaults : ((∃ m', mmuRwFromVirtualAddress origin m pid va op = some (.segfault, m')) ↔
      ¬ Granted segments va op) ↔ ((∃ s, findSegment segments va = some s ∧ s.permits op) ↔
        ∃ t ∈ segments, t.inside va ∧ t.permits op) := by
    rw [segfault_iff hsegments, ← hall, ← not_iff_not (a := ∃ s, _)]
    push Not
    rfl
  rw [← hfaults]
  refine ⟨fun h => h.faults, fun h => ⟨fun hgranted hroomy => ?_, h, fun _ => segfault_changes⟩⟩
  obtain ⟨r, m', hrw⟩ := @exists_mmuRw origin m pid va op segments d hsegments hd hroomy
  refine ⟨r, m', hrw, ?_⟩
  rintro rfl
  exact h.mp ⟨m', hrw⟩ hgranted

/-- A segment that is found without holding the address ends there. -/
theorem endsHarmless_iff : EndsHarmless segments va op ↔
    ∀ s, findSegment segments va = some s → ¬ s.inside va →
      (s.permits op ↔ ∃ t ∈ segments, t.inside va ∧ t.permits op) := by
  have hreach : ∀ t : Segment, t.contains va = false ↔ va < t.low ∨ t.high < va := fun t => by
    rw [← Bool.not_eq_true, Segment.contains_iff]
    omega
  -- the segment that holds the address comes behind the one that is found
  have hpost : ∀ (pre post : List Segment) (s : Segment), segments = pre ++ s :: post →
      ¬ s.inside va → (∀ t ∈ pre, t.contains va = false) →
      ((∃ t ∈ post, t.inside va ∧ t.permits op) ↔ ∃ t ∈ segments, t.inside va ∧ t.permits op) := by
    rintro pre post s rfl hs hpre
    refine ⟨fun ⟨t, ht, h⟩ => ⟨t, by simp [ht], h⟩, ?_⟩
    rintro ⟨t, ht, hinside, hpermits⟩
    rcases List.mem_append.mp ht with ht | ht
    · have hno := (hreach t).mp (hpre t ht)
      rw [Segment.inside_iff] at hinside
      omega
    · rcases List.mem_cons.mp ht with rfl | ht
      · exact absurd hinside hs
      · exact ⟨t, ht, hinside, hpermits⟩
  constructor
  · intro h s hfind hs
    obtain ⟨hcontains, pre, post, heq, hpre⟩ := List.find?_eq_some_iff_append.mp hfind
    have hno : ∀ t ∈ pre, t.contains va = false := fun t ht => by simpa using hpre t ht
    rw [Segment.contains_iff] at hcontains
    rw [Segment.inside_iff] at hs
    rw [h pre s post heq hcontains.1 (by omega) fun t ht => (hreach t).mp (hno t ht)]
    exact hpost pre post s heq (by rwa [Segment.inside_iff]) hno
  · intro h pre s post heq hlow hhigh hpre
    have hno : ∀ t ∈ pre, t.contains va = false := fun t ht => (hreach t).mpr (hpre t ht)
    have hs : ¬ s.inside va := by
      rw [Segment.inside_iff]
      omega
    have hfind : findSegment segments va = some s :=
      List.find?_eq_some_iff_append.mpr ⟨Segment.contains_iff.mpr ⟨hlow, hhigh.ge⟩, pre, post, heq,
        fun t ht => by simp [hno t ht]⟩
    rw [hpost pre post s heq hs hno]
    exact h s hfind hs

/-- **Accesses are controlled**, except where the first segment that reaches the address has it as
its excluded end, and permits the access while the segment that goes on there does not, or does not
while that one does. -/
theorem accessControl_iff (origin : Fin (2 ^ 20)) (m : Machine) (pid d va : Nat) (op : Op)
    (segments : List Segment) (hsegments : m.segmentations pid = some segments)
    (hd : m.pageDirectories pid = some d) (hresized : Resized segments) (hsize : 1 ≤ op.size)
    (hpage : op.size + va % 4096 ≤ 4096) :
    Controlled origin m pid va op segments ↔ EndsHarmless segments va op := by
  rw [controlled_iff hsegments hd hresized hsize hpage, endsHarmless_iff]
  cases hfind : findSegment segments va with
  | none =>
    -- an address that is in no segment is not found
    refine iff_of_true (iff_of_false (by simp) ?_) (by simp)
    rintro ⟨t, ht, hinside, -⟩
    have hnot := List.find?_eq_none.mp hfind t ht
    rw [Segment.inside_iff] at hinside
    exact hnot (Segment.contains_iff.mpr ⟨hinside.1, hinside.2.le⟩)
  | some s =>
    simp only [Option.some.injEq, exists_eq_left', forall_eq']
    by_cases hinside : s.inside va
    · -- the segment that is found is the one that holds the address
      refine iff_of_true ?_ (absurd hinside)
      have hs := List.mem_of_find?_eq_some hfind
      constructor
      · exact fun hpermits => ⟨s, hs, hinside, hpermits⟩
      · rintro ⟨t, ht, htinside, hpermits⟩
        rwa [hresized.disjoint.unique hs ht hinside htinside]
    · exact ⟨fun h _ => h, fun h => h hinside⟩

/-! ## A new process -/

/-- A process that was added has the segments of a new process. -/
theorem segmentations_mmuAddProcess {m' : Machine} (h : mmuAddProcess origin m pid = some m') :
    m'.segmentations pid = some newSegmentations ∧ ∃ d, m'.pageDirectories pid = some d := by
  simp only [mmuAddProcess, Option.bind_eq_bind, Option.bind_eq_some_iff, Option.some.injEq] at h
  obtain ⟨_, _, _, _, _, _, _, _, rfl⟩ := h
  exact ⟨Function.update_self _ _ _, _, Function.update_self _ _ _⟩

/-- A process can be added to a new machine, and leaves frames free. -/
theorem exists_added : ∃ m, mmuAddProcess 5 Machine.create 1 = some m ∧ m.toKernel.Roomy := by
  have hfree : (mmuAddProcess 5 Machine.create 1).map (fun m =>
      (m.entryMapping 100, m.entryMapping 101)) = some (.free, .free) := by
    decide +kernel
  obtain ⟨m, hm, howners⟩ := Option.map_eq_some_iff.mp hfree
  obtain ⟨h₀, h₁⟩ := Prod.mk.inj howners
  exact ⟨m, hm, fun _ => ⟨100, 101, by decide, ⟨by decide, Or.inl h₀⟩, by decide, Or.inl h₁⟩⟩

end Accesses

/-- The first word of the testing segment of a new process can be read. -/
theorem accessControl_iff_added : ∃ m, mmuAddProcess 5 Machine.create 1 = some m ∧
    Controlled 5 m 1 4096 (.read 8) newSegmentations ∧
    ∃ r m', mmuRwFromVirtualAddress 5 m 1 4096 (.read 8) = some (r, m') ∧ r ≠ .segfault := by
  obtain ⟨m, hm, hroomy⟩ := exists_added
  obtain ⟨hsegments, d, hd⟩ := segmentations_mmuAddProcess hm
  have hends : EndsHarmless newSegmentations 4096 (.read 8) := by
    rw [endsHarmless_iff]
    intro s hs hinside
    obtain rfl : (⟨4096, 3 * 4096, READ ||| WRITE, false⟩ : Segment) = s := Option.some.inj hs
    exact absurd (by decide) hinside
  have hcontrolled := (accessControl_iff 5 m 1 d 4096 (.read 8) newSegmentations hsegments hd .fresh
    (by decide) (by decide)).mpr hends
  refine ⟨m, hm, hcontrolled, hcontrolled.through ?_ hroomy⟩
  refine ⟨⟨4096, 3 * 4096, READ ||| WRITE, false⟩, by simp [newSegmentations], fun i hi => ?_,
    by decide⟩
  simp only [Op.size] at hi
  rw [Segment.inside_iff]
  simp only [Segment.low, Segment.high, Bool.false_eq_true, if_false]
  omega

/-- The byte behind the testing segment can be read. -/
theorem not_controlled_end : ∃ m, mmuAddProcess 5 Machine.create 1 = some m ∧
    Resized newSegmentations ∧ ¬ Controlled 5 m 1 12288 (.read 1) newSegmentations := by
  obtain ⟨m, hm, -⟩ := exists_added
  obtain ⟨hsegments, d, hd⟩ := segmentations_mmuAddProcess hm
  refine ⟨m, hm, .fresh, ?_⟩
  rw [controlled_iff hsegments hd .fresh (by decide) (by decide)]
  intro h
  have hfound : ∃ s, findSegment newSegmentations 12288 = some s ∧ s.permits (.read 1) :=
    ⟨⟨4096, 3 * 4096, READ ||| WRITE, false⟩, rfl, by decide⟩
  exact absurd (h.mp hfound) (by decide)

end SystemProgramming.Paging
