import SystemProgramming.Foundation.Simulation
import SystemProgramming.Paging.Placing

/-!
# Who is in memory

Which directories, tables and pages are in memory, and in which frames, follows rules of its own:
the first free frame is taken, or else the first page has to leave. Neither the bytes in memory, nor
the swap directory, nor the TLB have a say in it. The machine follows these rules in every run,
removals included, whatever files a removed process has left in the swap directory.

A file that was left behind is never read as a page table. The pages of the segments and the tables
they are in have different indices, so that no page directory entry has the name of such a file.

## Main definitions

* `Residents`, `place`, `stepResidents`: the rules
* `Sound`: the invariant
* `Shows`: the machine has these residents

## Main results

* `step_rel`: the machine follows the rules
* `sound_step`: every operation keeps the invariant
-/

namespace SystemProgramming.Paging

variable {origin : Fin (2 ^ 20)} {k k' k₁ : Kernel} {dirs dirs' : Nat → Option Nat}
  {entry : Option EntryPtr} {f : Nat} {m m' : Machine}

/-! ## The rules -/

/-- The frames of physical memory, each with its use. -/
abbrev Residents := List (Option Use)

/-- Only pages have to leave. -/
def Use.isPage : Use → Bool
  | .page _ _ => true
  | _ => false

/-- The first free frame, or else that of the first page. -/
def vacancy (T : Residents) : Option Nat :=
  (T.findIdx? fun o => o.isNone).or (T.findIdx? fun o => o.any Use.isPage)

/-- A use gets a frame. -/
def place (T : Residents) (u : Use) : Option Residents := (vacancy T).map fun f => T.set f (some u)

/-- A use gets a frame if it has none. -/
def bring (T : Residents) (u : Use) : Option Residents :=
  if some u ∈ T then some T else place T u

/-- Do the segments of a process allow an access? -/
def allowed (virtualAddress : Nat) (op : Op) : Bool :=
  (findSegment newSegmentations virtualAddress).any fun seg => seg.permissions &&& op.permission ≠ 0

/-- One operation. -/
def stepResidents (T : Residents) : Event → Option Residents
  | .add pid =>
    if pid < maxProcessId ∧ some (.dir pid) ∉ T then
      (place T (.dir pid)).bind fun T =>
        (place T (.table pid 0)).bind fun T =>
          (place T (.page pid 1)).bind fun T => place T (.page pid 2)
    else none
  | .remove pid =>
    if pid < maxProcessId then some (T.map fun o => o.filter fun u => u.pid ≠ pid) else none
  | .rw pid virtualAddress op =>
    if pid < maxProcessId ∧ virtualAddress < 2 ^ 32 ∧ op.size + virtualAddress % 4096 ≤ 4096 ∧
        some (.dir pid) ∈ T then
      if allowed virtualAddress op then
        (bring T (.table pid (virtualAddress / 4096 / 1024))).bind fun T =>
          bring T (.page pid (virtualAddress / 4096))
      else some T
    else none

/-! ## The machine and the rules -/

/-- Each frame has the use that the list has for it. -/
structure Shows (origin : Fin (2 ^ 20)) (k : Kernel) (dirs : Nat → Option Nat) (T : Residents) :
    Prop where
  length : T.length = numPhysicalPages
  shown : ∀ u f, frame? origin k dirs u = some f ↔ T[f]? = some (some u)

/-- Is an index one that page tables are used at, and page directories are not? -/
def PageIndex (i : Nat) : Prop := i ∉ [0, 32, 769]

/-- **What holds of the kernel in every run**: frames are owned, and no swap file is or will be
named after an entry that a page directory is used at. -/
structure Kernel.Sound (origin : Fin (2 ^ 20)) (k : Kernel) (dirs : Nat → Option Nat) : Prop where
  frames : Frames origin k.forget dirs none
  swap : ∀ e, k.swapFiles (.bin e) ≠ none → PageIndex e.index
  owners : ∀ f e, k.entryMapping f = .entry e → PageIndex e.index

theorem mem_of_shows {T : Residents} {u : Use} (hT : Shows origin k dirs T) :
    some u ∈ T ↔ ∃ f, frame? origin k dirs u = some f := by
  rw [List.mem_iff_getElem?]
  exact exists_congr fun f => (hT.shown u f).symm

/-- The list has each use at most once, so there is one for each machine. -/
theorem exists_shows (h : Frames origin k.forget dirs none) : ∃ T, Shows origin k dirs T := by
  classical
  refine ⟨(List.range numPhysicalPages).map fun f =>
    if hu : ∃ u, frame? origin k dirs u = some f then some hu.choose else none, ?_, ?_⟩
  · rw [List.length_map, List.length_range]
  · intro u f
    rw [List.getElem?_map]
    constructor
    · intro hu
      have hex : ∃ u, frame? origin k dirs u = some f := ⟨u, hu⟩
      rw [List.getElem?_range (h.bound u f hu), Option.map_some, dif_pos hex]
      exact congrArg some (congrArg some (h.inj _ _ f hex.choose_spec hu))
    · intro hu
      have hf : f < numPhysicalPages := by
        by_contra hf
        rw [List.getElem?_eq_none (by simpa using hf)] at hu
        simp at hu
      rw [List.getElem?_range hf, Option.map_some, Option.some.injEq] at hu
      split_ifs at hu with hex
      exact Option.some.inj hu ▸ hex.choose_spec

/-! ## The frame that is handed out -/

/-- Looking through the numbers of a list's entries. -/
theorem find?_range_eq_findIdx? {α : Type*} {p : Nat → Bool} {q : α → Bool} {l : List α} {n : Nat}
    (hn : l.length = n) (h : ∀ i (hi : i < l.length), p i = q l[i]) :
    (List.range n).find? p = l.findIdx? q := by
  subst hn
  ext i
  rw [List.find?_range_eq_some, List.findIdx?_eq_some_iff_getElem]
  constructor
  · rintro ⟨hp, hi, hlt⟩
    have hi' := List.mem_range.mp hi
    refine ⟨hi', h i hi' ▸ hp, fun j hj => ?_⟩
    rw [← h j (hj.trans hi')]
    simpa using hlt j hj
  · rintro ⟨hi, hp, hlt⟩
    refine ⟨(h i hi).symm ▸ hp, List.mem_range.mpr hi, fun j hj => ?_⟩
    rw [h j (hj.trans hi)]
    simpa using hlt j hj

/-- The number of the first entry that gives something. -/
theorem findSome?_map_fst {α : Type*} {g : Nat → Option (Nat × α)} (hg : ∀ i x, g i = some x → x.1 = i)
    (l : List Nat) : (l.findSome? g).map Prod.fst = l.find? fun i => (g i).isSome := by
  induction l with
  | nil => rfl
  | cons i l ih =>
    rw [List.findSome?_cons, List.find?_cons]
    cases hi : g i with
    | none => exact ih
    | some x => exact congrArg some (hg i x hi)

/-- The owner of a frame follows from its use. -/
theorem owner_of_shows {T : Residents} (h : Frames origin k.forget dirs none)
    (hT : Shows origin k dirs T) {i : Nat} (hi : i < T.length) :
    (k.entryMapping i = .free ↔ T[i].isNone) ∧
    ((∃ e, k.entryMapping i = .entry e) ↔ T[i].any Use.isPage) := by
  cases hu : T[i] with
  | none =>
    have hfree : k.entryMapping i = .free := by
      by_contra hne
      obtain ⟨u, hu'⟩ := (h.owned i hne).resolve_left (by simp)
      have hTi := (hT.shown u i).mp hu'
      rw [List.getElem?_eq_getElem hi, hu] at hTi
      simp at hTi
    simp [hfree]
  | some u =>
    have hTi : T[i]? = some (some u) := by rw [List.getElem?_eq_getElem hi, hu]
    have hframe := (hT.shown u i).mpr hTi
    have howner : k.entryMapping i = ownerOf (owningEntry origin k dirs u) := h.owner u i hframe
    rw [howner]
    cases u with
    | page p v =>
      obtain ⟨e, he, -⟩ := Option.bind_eq_some_iff.mp hframe
      rw [owningEntry, he]
      simp [ownerOf, Use.isPage]
    | _ => simp [owningEntry, ownerOf, Use.isPage]

/-- **The frame that the kernel hands out** is the one of the rules. -/
theorem frameFor_eq {T : Residents} (h : Frames origin k.forget dirs none)
    (hT : Shows origin k dirs T) (hentry : ∀ e f, entry = some e → k.entryMapping f ≠ .entry e) :
    frameFor k entry = vacancy T := by
  rw [frameFor, vacancy, firstEvictable, findSome?_map_fst, firstFree]
  · congr 1
    · apply find?_range_eq_findIdx? hT.length
      intro i hi
      rw [Bool.eq_iff_iff, decide_eq_true_iff]
      exact (owner_of_shows h hT hi).1
    · apply find?_range_eq_findIdx? hT.length
      intro i hi
      rw [Bool.eq_iff_iff, ← (owner_of_shows h hT hi).2]
      cases howner : k.entryMapping i with
      | entry e =>
        have hne : ¬ entry = some e := fun heq => hentry e i heq howner
        simp [hne]
      | _ => simp
  · intro i x hx
    cases howner : k.entryMapping i with
    | entry e =>
      simp only [howner] at hx
      split_ifs at hx
      rw [← Option.some.inj hx]
    | _ => simp [howner] at hx

/-! ## One use after another -/

/-- Placing a use keeps what holds of the kernel. -/
theorem Placed.sound {u : Use} (h : k.Sound origin dirs) (hp : Placed origin k k' dirs dirs' u f)
    (hu : ∀ p v, u = .page p v → PageIndex (v % 1024)) : k'.Sound origin dirs' where
  frames := hp.frames
  swap := by
    intro e he
    by_cases hevicted : k.entryMapping f = .entry e
    · exact h.owners f e hevicted
    · rw [hp.swap e hevicted] at he
      exact h.swap e he
  owners := by
    intro g e he
    rw [hp.owner] at he
    by_cases hgf : g = f
    · rw [hgf, Function.update_self] at he
      cases u with
      | page p v =>
        rw [owningEntry] at he
        cases hpte : pte? origin k' dirs' p v with
        | none => simp [hpte, ownerOf] at he
        | some e' =>
          rw [hpte, ownerOf, Owner.entry.injEq] at he
          rw [← he, (pte?_eq_some.mp hpte).2]
          exact hu p v rfl
      | _ => simp [owningEntry, ownerOf] at he
    · rw [Function.update_of_ne hgf] at he
      exact h.owners g e he

/-- Placing a use shows in the list. -/
theorem Placed.shows {T : Residents} {u : Use} (hT : Shows origin k dirs T)
    (hp : Placed origin k k' dirs dirs' u f) (hf : f < numPhysicalPages)
    (hu : frame? origin k dirs u = none) : Shows origin k' dirs' (T.set f (some u)) where
  length := by rw [List.length_set, hT.length]
  shown := by
    intro u' g
    rw [hp.frame, List.getElem?_set, hT.shown]
    by_cases hfg : f = g
    · have hlt : f < T.length := by rw [hT.length]; exact hf
      rw [if_pos hfg, if_pos hlt]
      simp [hfg, eq_comm]
    · rw [if_neg hfg]
      have hgf : g ≠ f := Ne.symm hfg
      have hne : T[g]? = some (some u') → u' ≠ u := by
        rintro hu' rfl
        rw [← hT.shown, hu] at hu'
        simp at hu'
      constructor
      · rintro (⟨-, heq⟩ | ⟨-, -, hu'⟩)
        · exact absurd heq hgf
        · exact hu'
      · exact fun hu' => Or.inr ⟨hne hu', hgf, hu'⟩

/-- No frame is owned by an entry. -/
def Unowned (k : Kernel) (e : EntryPtr) : Prop := ∀ f, k.entryMapping f ≠ .entry e

/-- The swap file of an entry stays while the entry owns no frame. -/
theorem Placed.unowned {u : Use} {e : EntryPtr} (hp : Placed origin k k' dirs dirs' u f)
    (he : Unowned k e) (hu : ∀ p v, u = .page p v → e.index ≠ v % 1024) :
    Unowned k' e ∧ k'.swapFiles (.bin e) = k.swapFiles (.bin e) := by
  refine ⟨fun g howner => ?_, hp.swap e (he f)⟩
  rw [hp.owner] at howner
  by_cases hgf : g = f
  · rw [hgf, Function.update_self] at howner
    cases u with
    | page p v =>
      rw [owningEntry] at howner
      cases hpte : pte? origin k' dirs' p v with
      | none => simp [hpte, ownerOf] at howner
      | some e' =>
        rw [hpte, ownerOf, Owner.entry.injEq] at howner
        exact hu p v rfl (howner ▸ (pte?_eq_some.mp hpte).2)
    | _ => simp [owningEntry, ownerOf] at howner
  · rw [Function.update_of_ne hgf] at howner
    exact he g howner

/-- **The machine has these residents**, and is sound. -/
structure Res (origin : Fin (2 ^ 20)) (k : Kernel) (dirs : Nat → Option Nat) (T : Residents) : Prop where
  sound : k.Sound origin dirs
  shows : Shows origin k dirs T

theorem Placed.res {T : Residents} {u : Use} (h : Res origin k dirs T)
    (hp : Placed origin k k' dirs dirs' u f) (hf : f < numPhysicalPages)
    (hnone : frame? origin k dirs u = none) (hu : ∀ p v, u = .page p v → PageIndex (v % 1024)) :
    Res origin k' dirs' (T.set f (some u)) :=
  ⟨hp.sound h.sound hu, hp.shows h.shows hf hnone⟩

/-- A use that is not in memory asks for a frame. -/
theorem ask_cases {T : Residents} (h : Res origin k dirs T) (u : Use)
    (hentry : ∀ e f, entry = some e → k.entryMapping f ≠ .entry e) :
    (askKernelForFrame origin k entry = none ∧ place T u = none) ∨
    ∃ f k', f < numPhysicalPages ∧ Asked origin k k' dirs entry f ∧
      askKernelForFrame origin k entry = some (frameAddress origin f, k') ∧
      place T u = some (T.set f (some u)) := by
  have hfor := frameFor_eq h.sound.frames h.shows hentry
  rw [place]
  cases hvacancy : vacancy T with
  | none => exact Or.inl ⟨ask_none (hfor.trans hvacancy), rfl⟩
  | some f =>
    obtain ⟨k', hask, hasked⟩ := ask_asked h.sound.frames (hfor.trans hvacancy)
    exact Or.inr ⟨f, k', frameFor_lt (hfor.trans hvacancy), hasked, hask, rfl⟩

/-- An entry that is absent owns no frame. -/
theorem Kernel.Sound.unowned {e : EntryPtr} (h : k.Sound origin dirs)
    (habsent : present (k.load e) = false) : Unowned k e := by
  intro f howner
  obtain ⟨p, v', -, htarget⟩ := h.frames.page_of_owner (f := f) howner
  have htarget' : target origin (k.load e) = some f := htarget
  rw [target, habsent] at htarget'
  simp at htarget'

/-! ## Faults -/

/-- Tables may have been added; the directories and the TLB are as before. -/
structure Steady (origin : Fin (2 ^ 20)) (m m' : Machine) : Prop where
  pte : ∀ p v e, pte? origin m.toKernel m.pageDirectories p v = some e →
    pte? origin m'.toKernel m'.pageDirectories p v = some e
  dirs : m'.pageDirectories = m.pageDirectories
  segments : m'.segmentations = m.segmentations
  tlb : m'.tlb = m.tlb
  currPid : m'.currPid = m.currPid

theorem Steady.refl (m : Machine) : Steady origin m m := ⟨fun _ _ _ h => h, rfl, rfl, rfl, rfl⟩

theorem Steady.trans {m₁ m₂ m₃ : Machine} (h : Steady origin m₁ m₂) (h' : Steady origin m₂ m₃) :
    Steady origin m₁ m₃ :=
  ⟨fun p v e he => h'.pte p v e (h.pte p v e he), h'.dirs.trans h.dirs,
    h'.segments.trans h.segments, h'.tlb.trans h.tlb, h'.currPid.trans h.currPid⟩

/-- The frame that is handed out is not the frame of a table. -/
theorem Asked.ne_table {p i t : Nat} (ha : Asked origin k k' dirs entry f)
    (ht : tableFrame origin k dirs p i = some t) : f ≠ t := by
  rintro rfl
  obtain ⟨files, hh⟩ := ha.handed
  exact hh.frames.unused f rfl (.table p i) ((hh.tables.table p i).trans ht)

/-- **A missing table.** -/
theorem loadTable_rel {T : Residents} {pid d i : Nat} (h : Res origin m.toKernel m.pageDirectories T)
    (hd : m.pageDirectories pid = some d) (hi : ¬ PageIndex i)
    (hnone : tableFrame origin m.toKernel m.pageDirectories pid i = none) :
    Option.Rel (fun m' T' => Res origin m'.toKernel m'.pageDirectories T' ∧ Steady origin m m' ∧
      ∃ t, tableFrame origin m'.toKernel m'.pageDirectories pid i = some t)
      (loadTable origin m ⟨d, i⟩) (place T (.table pid i)) := by
  have hentry : ∀ e f, none = some e → m.entryMapping f ≠ .entry e := fun e f he => by simp at he
  rcases ask_cases h (.table pid i) hentry with ⟨hask, hplace⟩ | ⟨f, k₁, hf, ha, hask, hplace⟩
  · rw [hplace, loadTable]
    simp only [hask]
    exact .none
  · have hw : newEntry (k₁.load ⟨d, i⟩) (frameAddress origin f) false < 2 ^ 32 :=
      newEntry_lt (k₁.load_lt _) _ _
    have hp := newTable_placed h.sound.frames ha hd hnone hw (target_newEntry hf _ _)
    have hres := hp.res h hf hnone (fun p v hu => by simp at hu)
    have hfile : k₁.swapFiles (.bin ⟨d, i⟩) = none := by
      by_contra hfile
      exact hi (hres.sound.swap ⟨d, i⟩ hfile)
    rw [hplace, loadTable_eq hask hfile]
    refine .some ⟨hres, ⟨fun p v e he => hp.pte he, rfl, rfl, rfl, rfl⟩, f, ?_⟩
    exact (hp.frame (.table pid i) f).mpr (Or.inl ⟨rfl, rfl⟩)

/-- A page that is absent gets a frame, and `x` is written to it. -/
theorem newPage_cases {T : Residents} {pid v : Nat} {e : EntryPtr} (h : Res origin k dirs T)
    (he : pte? origin k dirs pid v = some e) (hv : PageIndex (v % 1024))
    (habsent : present (k.load e) = false) :
    (askKernelForFrame origin k (some e) = none ∧ place T (.page pid v) = none) ∨
    ∃ f k₁, f < numPhysicalPages ∧ f ≠ e.frame ∧
      askKernelForFrame origin k (some e) = some (frameAddress origin f, k₁) ∧
      place T (.page pid v) = some (T.set f (some (.page pid v))) ∧
      ∀ x, ∃ k₂ : Kernel, k₂ =
          ⟨Function.update (k₁.store e (newEntry (k₁.load e) (frameAddress origin f) true)).memory f x,
            k₁.entryMapping, k₁.swapFiles⟩ ∧
        Placed origin k k₂ dirs dirs (.page pid v) f ∧
        Res origin k₂ dirs (T.set f (some (.page pid v))) := by
  have htarget : target origin (k.load e) = none := by rw [target, habsent]; rfl
  have hnone : frame? origin k dirs (.page pid v) = none := by
    rw [frame?_page he, htarget]
  have hentry : ∀ e' f, some e = some e' → k.entryMapping f ≠ .entry e' := fun e' f heq =>
    Option.some.inj heq ▸ h.sound.unowned habsent f
  rcases ask_cases h (.page pid v) hentry with ⟨hask, hplace⟩ | ⟨f, k₁, hf, ha, hask, hplace⟩
  · exact Or.inl ⟨hask, hplace⟩
  · refine Or.inr ⟨f, k₁, hf, ha.ne_table (pte?_eq_some.mp he).1, hask, hplace, fun x => ?_⟩
    refine ⟨_, rfl, ?_⟩
    have hw : newEntry (k₁.load e) (frameAddress origin f) true < 2 ^ 32 :=
      newEntry_lt (k₁.load_lt _) _ _
    obtain ⟨k₂, hk₂⟩ : ∃ k₂ : Kernel, k₂ = ⟨Function.update
      (k₁.store e (newEntry (k₁.load e) (frameAddress origin f) true)).memory f x,
      k₁.entryMapping, k₁.swapFiles⟩ := ⟨_, rfl⟩
    have hp : Placed origin k k₂ dirs dirs (.page pid v) f :=
      newPage_placed h.sound.frames ha he htarget hw (target_newEntry hf _ _) (by rw [hk₂])
        (by rw [hk₂]) (by rw [hk₂])
    rw [← hk₂]
    refine ⟨hp, hp.res h hf hnone ?_⟩
    rintro p v' heq
    obtain ⟨-, rfl⟩ := Use.page.inj heq
    exact hv

/-- **A missing page.** -/
theorem loadPage_rel {T : Residents} {pid v : Nat} {e : EntryPtr}
    (h : Res origin m.toKernel m.pageDirectories T)
    (he : pte? origin m.toKernel m.pageDirectories pid v = some e) (hv : PageIndex (v % 1024))
    (habsent : present (m.load e) = false) :
    Option.Rel (fun m' T' => Res origin m'.toKernel m'.pageDirectories T' ∧ Steady origin m m' ∧
      present (m'.load e) = true) (loadPage origin m e) (place T (.page pid v)) := by
  rcases newPage_cases h he hv habsent with ⟨hask, hplace⟩ | ⟨f, k₁, hf, hef, hask, hplace, hnew⟩
  · rw [hplace, loadPage]
    simp only [hask]
    exact .none
  · rw [hplace, loadPage_eq hf hef hask]
    obtain ⟨k₂, rfl, hp, hres⟩ := hnew ((k₁.swapFiles (.bin e)).getD (k₁.memory f))
    refine .some ⟨hres, ⟨fun p v e he => hp.pte he, rfl, rfl, rfl, rfl⟩, ?_⟩
    have hframe := (hp.frame (.page pid v) f).mpr (Or.inl ⟨rfl, rfl⟩)
    rw [frame?_page (hp.pte he)] at hframe
    exact present_of_target hframe

/-! ## New processes -/

/-- A page of the testing segment. -/
theorem mapTestingPage_rel {T : Residents} {pid v : Nat} {e : EntryPtr} (h : Res origin k dirs T)
    (he : pte? origin k dirs pid v = some e) (hv : PageIndex (v % 1024))
    (hnone : frame? origin k dirs (.page pid v) = none) :
    Option.Rel (fun k' T' => Res origin k' dirs T' ∧ ∃ f, Placed origin k k' dirs dirs (.page pid v) f)
      (mapTestingPage origin k e) (place T (.page pid v)) := by
  have habsent : present (k.load e) = false := by
    rw [frame?_page he, target] at hnone
    by_contra hpresent
    rw [if_pos (by simpa using hpresent)] at hnone
    simp at hnone
  rcases newPage_cases h he hv habsent with ⟨hask, hplace⟩ | ⟨f, k₁, hf, hef, hask, hplace, hnew⟩
  · rw [hplace, mapTestingPage]
    simp only [hask]
    exact .none
  · -- the frame keeps the zeros it was handed out with
    obtain ⟨k₂, hk₂, hp, hres⟩ :=
      hnew ((k₁.store e (newEntry (k₁.load e) (frameAddress origin f) true)).memory f)
    rw [Function.update_eq_self] at hk₂
    have hmap : mapTestingPage origin k e = some k₂ := by
      simp only [mapTestingPage, Option.bind_eq_bind, hask, Option.bind_some]
      rw [store_base_flags, hk₂]
      rfl
    rw [hplace, hmap]
    exact .some ⟨hres, f, hp⟩

/-- A new process after it has got its directory and its first table. -/
theorem mmuAddProcess_eq {pid d t : Nat} {k₂ k₃ : Kernel} (hd : d < numPhysicalPages)
    (hask₁ : askKernelForFrame origin m.toKernel none = some (frameAddress origin d, k₁))
    (hask₂ : askKernelForFrame origin k₁ none = some (frameAddress origin t, k₂))
    (hk₃ : k₂.store ⟨d, 0⟩ (newEntry (k₂.load ⟨d, 0⟩) (frameAddress origin t) true) = k₃) :
    mmuAddProcess origin m pid =
      (mapTestingPage origin k₃ ⟨pointsTo origin (k₃.load ⟨d, 0⟩), 1⟩).bind fun k₄ =>
        (mapTestingPage origin k₄ ⟨pointsTo origin (k₄.load ⟨d, 0⟩), 2⟩).bind fun k₅ =>
          some { m with
            toKernel := k₅
            pageDirectories := Function.update m.pageDirectories pid (some d)
            segmentations := Function.update m.segmentations pid (some newSegmentations) } := by
  rw [mmuAddProcess]
  simp only [Option.bind_eq_bind, hask₁, Option.bind_some, systemPointer_frameAddress hd, hask₂]
  rw [store_base_flags, hk₃]

/-- **A new process.** -/
theorem addProcess_rel {T : Residents} {pid : Nat} (h : Res origin m.toKernel m.pageDirectories T)
    (hpid : m.pageDirectories pid = none) :
    Option.Rel (fun m' T' => Res origin m'.toKernel m'.pageDirectories T' ∧
      (∀ p v e, pte? origin m.toKernel m.pageDirectories p v = some e →
        pte? origin m'.toKernel m'.pageDirectories p v = some e) ∧
      (∃ d, m'.pageDirectories = Function.update m.pageDirectories pid (some d)) ∧
      m'.segmentations = Function.update m.segmentations pid (some newSegmentations) ∧
      m'.tlb = m.tlb ∧ m'.currPid = m.currPid ∧
      ∀ e, Unowned m.toKernel e → e.index ∉ [1, 2] → m'.swapFiles (.bin e) = m.swapFiles (.bin e))
      (mmuAddProcess origin m pid)
      ((place T (.dir pid)).bind fun T => (place T (.table pid 0)).bind fun T =>
        (place T (.page pid 1)).bind fun T => place T (.page pid 2)) := by
  have hentry : ∀ {k : Kernel} e f, none = some e → k.entryMapping f ≠ .entry e := by
    intro k e f he
    simp at he
  rcases ask_cases h (.dir pid) hentry with ⟨hask, hplace⟩ | ⟨d, k₁, hd, ha, hask, hplace⟩
  · rw [hplace, mmuAddProcess]
    simp only [hask]
    exact .none
  obtain ⟨dirs, hdirs⟩ : ∃ dirs, dirs = Function.update m.pageDirectories pid (some d) := ⟨_, rfl⟩
  have hp₁ := newDir_placed h.sound.frames ha hpid
  rw [← hdirs] at hp₁
  have hres₁ := hp₁.res h hd hpid (fun p v hu => by simp at hu)
  have hdir : dirs pid = some d := by rw [hdirs, Function.update_self]
  have hnone₁ : tableFrame origin k₁ dirs pid 0 = none := by
    rw [Option.eq_none_iff_forall_ne_some]
    intro t ht
    have hold := (hp₁.frame (.table pid 0) t).mp ht
    simp [frame?, tableFrame, hpid] at hold
  rcases ask_cases hres₁ (.table pid 0) hentry with
    ⟨hask₂, hplace₂⟩ | ⟨t, k₂, ht, ha₂, hask₂, hplace₂⟩
  · rw [mmuAddProcess]
    simp only [Option.bind_eq_bind, hask, hplace, Option.bind_some, hask₂, hplace₂]
    exact .none
  -- the table of the first pages
  have hw : newEntry (k₂.load ⟨d, 0⟩) (frameAddress origin t) true < 2 ^ 32 :=
    newEntry_lt (k₂.load_lt _) _ _
  have hp₂ := newTable_placed hres₁.sound.frames ha₂ hdir hnone₁ hw (target_newEntry ht _ _)
  have hres₂ := hp₂.res hres₁ ht hnone₁ (fun p v hu => by simp at hu)
  have htable₂ := (hp₂.frame (.table pid 0) t).mpr (Or.inl ⟨rfl, rfl⟩)
  obtain ⟨k₃, hk₃⟩ : ∃ k₃, k₃ = k₂.store ⟨d, 0⟩
    (newEntry (k₂.load ⟨d, 0⟩) (frameAddress origin t) true) := ⟨_, rfl⟩
  rw [mmuAddProcess_eq hd hask hask₂ hk₃.symm, hplace, Option.bind_some, hplace₂, Option.bind_some,
    ← hdirs]
  rw [← hk₃] at hp₂ hres₂ htable₂
  have hnone₂ : ∀ v, frame? origin k₃ dirs (.page pid v) = none := by
    intro v
    rw [Option.eq_none_iff_forall_ne_some]
    intro g hg
    have hold := (hp₂.frame _ g).mp hg
    simp only [hp₁.frame] at hold
    simp [frame?, pageFrame, pte?, tableFrame, hpid] at hold
  -- the two pages
  have he₁ : pte? origin k₃ dirs pid 1 = some ⟨pointsTo origin (k₃.load ⟨d, 0⟩), 1⟩ :=
    pte?_of_tableFrame hdir htable₂
  apply rel_bind (mapTestingPage_rel hres₂ he₁ (by simp [PageIndex]) (hnone₂ 1))
  rintro k₄ T₄ ⟨hres₄, f₁, hp₄⟩
  have hnone₄ : frame? origin k₄ dirs (.page pid 2) = none := by
    rw [Option.eq_none_iff_forall_ne_some]
    intro g hg
    have hold := (hp₄.frame _ g).mp hg
    simp [hnone₂] at hold
  have he₂ : pte? origin k₄ dirs pid 2 = some ⟨pointsTo origin (k₄.load ⟨d, 0⟩), 2⟩ :=
    pte?_of_tableFrame hdir (hp₄.tables pid 0 t htable₂)
  apply rel_bind_some (mapTestingPage_rel hres₄ he₂ (by simp [PageIndex]) hnone₄)
  rintro k₅ T₅ ⟨hres₅, f₂, hp₅⟩
  refine ⟨hres₅, fun p v e he => hp₅.pte (hp₄.pte (hp₂.pte (hp₁.pte he))), ⟨d, hdirs⟩, rfl, rfl, rfl,
    fun e he hindex => ?_⟩
  simp only [List.mem_cons, List.not_mem_nil, or_false, not_or] at hindex
  obtain ⟨he₁, hswap₁⟩ := hp₁.unowned he (by simp)
  obtain ⟨he₂, hswap₂⟩ := hp₂.unowned he₁ (by simp)
  obtain ⟨he₄, hswap₄⟩ := hp₄.unowned he₂ (by simpa using hindex.1)
  obtain ⟨-, hswap₅⟩ := hp₅.unowned he₄ (by simpa using hindex.2)
  exact hswap₅.trans (hswap₄.trans (hswap₂.trans hswap₁))

/-! ## Accesses -/

/-- The pages that the segments allow are in other places of their tables than the tables in
their directories. -/
theorem findSegment_index {va : Nat} {seg : Segment} (h : findSegment newSegmentations va = some seg) :
    ¬ PageIndex (va / 4096 / 1024) ∧ PageIndex (va / 4096 % 1024) := by
  have hmem := List.mem_of_find?_eq_some h
  have hin : seg.contains va = true := List.find?_some (p := fun s : Segment => s.contains va) h
  simp only [newSegmentations, List.mem_cons, List.not_mem_nil, or_false] at hmem
  simp only [PageIndex, List.mem_cons, List.not_mem_nil, or_false, not_not]
  rcases hmem with rfl | rfl | rfl | rfl | rfl | rfl | rfl <;>
    simp only [Segment.contains, if_true, Bool.false_eq_true, if_false, decide_eq_true_eq] at hin <;>
    omega

/-- Tables that have their entries are where they were. -/
theorem sameTables_of_pte? (h : ∀ p v, pte? origin k' dirs p v = pte? origin k dirs p v) :
    SameTables origin k k' dirs := by
  refine ⟨fun p i => ?_, h⟩
  have hpte := h p (1024 * i)
  have hi : 1024 * i / 1024 = i := by omega
  rw [pte?, pte?, hi] at hpte
  refine Option.map_injective (fun t t' heq => ?_) hpte
  exact (EntryPtr.mk.inj heq).1

theorem Kernel.Sound.congr (h : k.Sound origin dirs) (hframes : Frames origin k'.forget dirs none)
    (hmap : k'.entryMapping = k.entryMapping) (hswap : k'.swapFiles = k.swapFiles) :
    k'.Sound origin dirs :=
  ⟨hframes, fun e he => h.swap e (hswap ▸ he), fun f e he => h.owners f e (hmap ▸ he)⟩

theorem Kernel.load_forget (k : Kernel) (e : EntryPtr) : k.forget.load e = k.load e := rfl

theorem Kernel.store_forget (k : Kernel) (e : EntryPtr) (w : Nat) :
    k.forget.store e w = (k.store e w).forget := rfl

theorem transfer_forget (k : Kernel) (w va : Nat) (op : Op) :
    transfer origin k.forget w va op =
      ((transfer origin k w va op).1, (transfer origin k w va op).2.forget) := by
  cases op <;> rfl

/-- Swap files make no difference to the end of an access. -/
theorem finish_forget (m : Machine) (e : EntryPtr) (va : Nat) (op : Op) :
    finish origin { m with toKernel := m.toKernel.forget } e va op =
      ((finish origin m e va op).1, { (finish origin m e va op).2 with
        toKernel := (finish origin m e va op).2.toKernel.forget }) := by
  cases op <;> simp only [finish, Kernel.load_forget, transfer_forget, Kernel.store_forget]

/-- The end of an access changes memory and the TLB only. -/
theorem finish_kept (m : Machine) (e : EntryPtr) (va : Nat) (op : Op) :
    (finish origin m e va op).2.entryMapping = m.entryMapping ∧
    (finish origin m e va op).2.swapFiles = m.swapFiles ∧
    (finish origin m e va op).2.pageDirectories = m.pageDirectories ∧
    (finish origin m e va op).2.segmentations = m.segmentations := by
  cases op <;> exact ⟨rfl, rfl, rfl, rfl⟩

/-- The end of a read returns what is in the frame of the page. -/
theorem finish_read {va n f : Nat} {e : EntryPtr} {r : Result}
    (hf : target origin (m.load e) = some f) (hfin : finish origin m e va (.read n) = (r, m')) :
    r = .bytes ((m.memory f).read (va % 4096) n) := by
  have hpointer : systemPointer origin ((baseAddr (m.load e) * 4096 + va % 4096) % 2 ^ 32) =
      (pointsTo origin (m.load e), va % 4096) := systemPointer_offset (m.load e) (by omega)
  rw [target, if_pos (present_of_target hf), Option.some.injEq] at hf
  simp only [finish, transfer, hpointer, hf] at hfin
  exact (Prod.mk.inj hfin).1.symm

/-- **The end of an access.** -/
theorem finish_res {T : Residents} {pid va : Nat} {e : EntryPtr} {op : Op} {r : Result}
    (h : Res origin m.toKernel m.pageDirectories T)
    (he : pte? origin m.toKernel m.pageDirectories pid (va / 4096) = some e)
    (hpresent : present (m.load e) = true) (hfin : finish origin m e va op = (r, m')) :
    Res origin m'.toKernel m'.pageDirectories T ∧
    (∀ p v, pte? origin m'.toKernel m'.pageDirectories p v =
      pte? origin m.toKernel m.pageDirectories p v) ∧
    m'.pageDirectories = m.pageDirectories ∧ m'.segmentations = m.segmentations ∧
    m'.tlb = tlbAddPte m.tlb (va / 4096) e ∧ m'.currPid = m.currPid := by
  have hforget := @finish_forget origin m e va op
  obtain ⟨hmap, hswap, hdirs, hsegments⟩ := @finish_kept origin m e va op
  rw [hfin] at hforget hmap hswap hdirs hsegments
  dsimp only at hmap hswap hdirs hsegments
  obtain ⟨hframes, hpte, htlb, hpid, -⟩ := finish_spec
    (m := { m with toKernel := m.toKernel.forget }) h.sound.frames he hpresent hforget
  have hpte' : ∀ p v, pte? origin m'.toKernel m'.pageDirectories p v =
      pte? origin m.toKernel m.pageDirectories p v := hpte
  refine ⟨?_, hpte', hdirs, hsegments, htlb, hpid⟩
  dsimp only at hframes
  rw [hdirs] at hpte' hframes ⊢
  refine ⟨h.sound.congr hframes hmap hswap, h.shows.length, fun u f => ?_⟩
  rw [← h.shows.shown u f]
  exact frame_iff_of_owner h.sound.frames hframes (sameTables_of_pte? hpte')
    (congrFun hmap f) (by simp) u

/-- **The walk** brings in the table if it is missing. -/
theorem walk_rel {T : Residents} {pid d va : Nat} (h : Res origin m.toKernel m.pageDirectories T)
    (hd : m.pageDirectories pid = some d) (hi : ¬ PageIndex (va / 4096 / 1024)) :
    Option.Rel (fun s T' => Res origin s.2.toKernel s.2.pageDirectories T' ∧ Steady origin m s.2 ∧
      pte? origin s.2.toKernel s.2.pageDirectories pid (va / 4096) = some s.1)
      (walk origin m pid va) (bring T (.table pid (va / 4096 / 1024))) := by
  have hdiv : va / 2 ^ 22 = va / 4096 / 1024 := by omega
  have htable : tableFrame origin m.toKernel m.pageDirectories pid (va / 4096 / 1024) =
      target origin (m.load ⟨d, va / 4096 / 1024⟩) := by
    rw [tableFrame, hd, Option.bind_some]
  rw [walk, bring]
  simp only [Option.bind_eq_bind, hd, Option.bind_some, hdiv]
  by_cases hpresent : present (m.load ⟨d, va / 4096 / 1024⟩) = true
  · rw [target, if_pos hpresent] at htable
    have hmem : some (Use.table pid (va / 4096 / 1024)) ∈ T :=
      (mem_of_shows h.shows).mpr ⟨_, htable⟩
    rw [if_pos hpresent, if_pos hmem]
    exact .some ⟨h, ⟨fun _ _ _ he => he, rfl, rfl, rfl, rfl⟩, pte?_of_tableFrame hd htable⟩
  · rw [target, if_neg hpresent] at htable
    have hmem : some (Use.table pid (va / 4096 / 1024)) ∉ T := by
      rw [mem_of_shows h.shows]
      rintro ⟨t, ht⟩
      exact absurd (htable.symm.trans ht) (by simp)
    rw [if_neg hpresent, if_neg hmem]
    refine rel_bind_some (loadTable_rel (m := { m with numTlbMisses := m.numTlbMisses + 1 })
      h hd hi htable) ?_
    rintro m₁ T' ⟨hres, hsteady, t, ht⟩
    refine ⟨hres, ⟨hsteady.pte, hsteady.dirs, hsteady.segments, hsteady.tlb, hsteady.currPid⟩, ?_⟩
    exact pte?_of_tableFrame (hsteady.dirs ▸ hd) ht

/-- The entry of an access, from the TLB or from a walk. -/
def lookup (origin : Fin (2 ^ 20)) (m : Machine) (pid va : Nat) : Option (EntryPtr × Machine) :=
  match (tlbGetPte m.tlb (va / 4096)).1 with
  | some e => some (e, { m with tlb := (tlbGetPte m.tlb (va / 4096)).2 })
  | none => walk origin { m with tlb := (tlbGetPte m.tlb (va / 4096)).2 } pid va

/-- The page of an access, which may be absent. -/
def pageIn (origin : Fin (2 ^ 20)) (m : Machine) (e : EntryPtr) : Option Machine :=
  if present (m.load e) then some m else loadPage origin m e

theorem access_eq (m : Machine) (pid va : Nat) (op : Op) :
    access origin m pid va op = (lookup origin m pid va).bind fun s =>
      (pageIn origin s.2 s.1).bind fun m => some (finish origin m s.1 va op) := by
  have hpage : ∀ s : EntryPtr × Machine,
      (if present (s.2.load s.1) then some (finish origin s.2 s.1 va op)
        else (loadPage origin s.2 s.1).bind fun m => some (finish origin m s.1 va op)) =
      (pageIn origin s.2 s.1).bind fun m => some (finish origin m s.1 va op) := by
    intro s
    rw [pageIn]
    split_ifs <;> rfl
  rcases hget : tlbGetPte m.tlb (va / 4096) with ⟨hit, tlb⟩
  cases hit with
  | none => simp [access, lookup, hget, ← hpage]
  | some e => simp [access, lookup, hget, ← hpage]

/-- The page of an access, if it is missing. -/
theorem page_rel {T : Residents} {pid v : Nat} {e : EntryPtr}
    (h : Res origin m.toKernel m.pageDirectories T)
    (he : pte? origin m.toKernel m.pageDirectories pid v = some e) (hv : PageIndex (v % 1024)) :
    Option.Rel (fun m' T' => Res origin m'.toKernel m'.pageDirectories T' ∧ Steady origin m m' ∧
      present (m'.load e) = true)
      (pageIn origin m e) (bring T (.page pid v)) := by
  have hframe : frame? origin m.toKernel m.pageDirectories (.page pid v) =
      target origin (m.load e) := by
    rw [frame?_page he]
  rw [bring, pageIn]
  by_cases hpresent : present (m.load e) = true
  · rw [target, if_pos hpresent] at hframe
    have hmem : some (Use.page pid v) ∈ T := (mem_of_shows h.shows).mpr ⟨_, hframe⟩
    rw [if_pos hpresent, if_pos hmem]
    exact .some ⟨h, Steady.refl m, hpresent⟩
  · rw [target, if_neg hpresent] at hframe
    have hmem : some (Use.page pid v) ∉ T := by
      rw [mem_of_shows h.shows]
      rintro ⟨f, hf⟩
      exact absurd (hframe.symm.trans hf) (by simp)
    rw [if_neg hpresent, if_neg hmem]
    exact loadPage_rel h he hv (by simpa using hpresent)

/-- The entry of an access, whether or not the TLB has it. -/
theorem lookup_res {T : Residents} {pid d va : Nat}
    (h : Res origin m.toKernel m.pageDirectories T) (htlb : TlbOk origin m) (hpid : m.currPid = pid)
    (hd : m.pageDirectories pid = some d) (hi : ¬ PageIndex (va / 4096 / 1024)) :
    Option.Rel (fun s T' => Res origin s.2.toKernel s.2.pageDirectories T' ∧
      Steady origin { m with tlb := (tlbGetPte m.tlb (va / 4096)).2 } s.2 ∧
      pte? origin s.2.toKernel s.2.pageDirectories pid (va / 4096) = some s.1)
      (lookup origin m pid va) (bring T (.table pid (va / 4096 / 1024))) := by
  obtain ⟨-, hfound⟩ := tlbGetPte_spec (va / 4096) htlb
  obtain ⟨m₀, hm₀⟩ : ∃ m₀, m₀ = { m with tlb := (tlbGetPte m.tlb (va / 4096)).2 } := ⟨_, rfl⟩
  have h₀ : Res origin m₀.toKernel m₀.pageDirectories T := by rw [hm₀]; exact h
  rw [lookup, ← hm₀]
  cases hhit : (tlbGetPte m.tlb (va / 4096)).1 with
  | none => exact walk_rel h₀ (by rw [hm₀]; exact hd) hi
  | some e =>
    have he : pte? origin m₀.toKernel m₀.pageDirectories pid (va / 4096) = some e := by
      rw [hm₀]
      exact hpid ▸ hfound e hhit
    have hmem : some (Use.table pid (va / 4096 / 1024)) ∈ T :=
      (mem_of_shows h₀.shows).mpr ⟨_, (pte?_eq_some.mp he).1⟩
    rw [bring, if_pos hmem]
    exact .some ⟨h₀, Steady.refl m₀, he⟩

/-- **An access**, whether or not the TLB has its entry. -/
theorem access_rel {T : Residents} {pid d va : Nat} {op : Op}
    (h : Res origin m.toKernel m.pageDirectories T) (htlb : TlbOk origin m) (hpid : m.currPid = pid)
    (hd : m.pageDirectories pid = some d) (hi : ¬ PageIndex (va / 4096 / 1024))
    (hv : PageIndex (va / 4096 % 1024)) :
    Option.Rel (fun s T' => Res origin s.2.toKernel s.2.pageDirectories T' ∧ TlbOk origin s.2 ∧
      s.2.pageDirectories = m.pageDirectories ∧ s.2.segmentations = m.segmentations)
      (access origin m pid va op)
      ((bring T (.table pid (va / 4096 / 1024))).bind fun T => bring T (.page pid (va / 4096))) := by
  obtain ⟨hnodes, -⟩ := tlbGetPte_spec (va / 4096) htlb
  obtain ⟨m₀, hm₀⟩ : ∃ m₀, m₀ = { m with tlb := (tlbGetPte m.tlb (va / 4096)).2 } := ⟨_, rfl⟩
  have hlookup := lookup_res h htlb hpid hd hi
  rw [← hm₀] at hlookup
  rw [access_eq]
  apply rel_bind hlookup
  rintro ⟨e, m₁⟩ T₁ ⟨h₁, hsteady₁, he⟩
  dsimp only at h₁ hsteady₁ he ⊢
  apply rel_bind_some (page_rel h₁ he hv)
  rintro m₂ T₂ ⟨h₂, hsteady₂, hpresent⟩
  have hsteady := hsteady₁.trans hsteady₂
  obtain ⟨⟨r, m₃⟩, hfin⟩ : ∃ s, finish origin m₂ e va op = s := ⟨_, rfl⟩
  obtain ⟨h₃, hpte, hdirs, hsegments, htlb₃, hpid₃⟩ :=
    finish_res h₂ (hsteady₂.pte _ _ _ he) hpresent hfin
  rw [hfin]
  refine ⟨h₃, ?_, ?_, ?_⟩
  · intro b e' hmem
    rw [htlb₃, hsteady.tlb, hm₀] at hmem
    rw [hpte, hpid₃, hsteady.currPid, hm₀]
    refine tlbAddPte_spec (P := fun b e =>
      pte? origin m₂.toKernel m₂.pageDirectories m.currPid b = some e) (fun b e hmem => ?_) ?_ b e' hmem
    · exact hsteady.pte _ _ _ (by rw [hm₀]; exact hnodes b e hmem)
    · exact hpid ▸ hsteady₂.pte _ _ _ he
  · rw [hdirs, hsteady.dirs, hm₀]
  · rw [hsegments, hsteady.segments, hm₀]

/-! ## Operations -/

/-- **The invariant of every run.** -/
structure Sound (origin : Fin (2 ^ 20)) (m : Machine) : Prop where
  kernel : m.toKernel.Sound origin m.pageDirectories
  fits : Fits m
  tlb : TlbOk origin m
  segments : ∀ p, m.segmentations p = (m.pageDirectories p).map fun _ => newSegmentations

theorem sound_create : Sound origin Machine.create where
  kernel := ⟨inv_create.frames.forget, fun e he => absurd rfl he, fun f e he => by
    simp [Machine.create] at he⟩
  fits := fits_create
  tlb := inv_create.tlb
  segments := fun _ => rfl

/-- A machine and its residents. -/
def Follows (origin : Fin (2 ^ 20)) (m : Machine) (T : Residents) : Prop :=
  Sound origin m ∧ Shows origin m.toKernel m.pageDirectories T

/-- Swap files make no difference to the frames that a removal returns. -/
theorem removeProcess_forget (m : Machine) (pid : Nat) :
    (mmuRemoveProcess origin { m with toKernel := m.toKernel.forget } pid).toKernel.forget =
      (mmuRemoveProcess origin m pid).toKernel.forget := by
  have hfrees := @mmuRemoveProcess_frees origin m pid
  have hfrees' := @mmuRemoveProcess_frees origin
    { m with toKernel := m.toKernel.forget } pid
  apply Kernel.forget_congr
  · rw [hfrees.memory, hfrees'.memory]
    rfl
  · funext f
    by_cases hf : ∃ d, m.pageDirectories pid = some d ∧
        ((∃ j ∈ List.range 1024, ∃ t, target origin (m.load ⟨d, j⟩) = some t ∧
          ((∃ i ∈ List.range 1024, target origin (m.load ⟨t, i⟩) = some f) ∨ f = t)) ∨ f = d)
    · rw [hfrees.free f hf]
      exact hfrees'.free f hf
    · rw [hfrees.kept f hf]
      exact hfrees'.kept f hf

/-- **A removal** takes out the directory, the tables and the pages of its process. -/
theorem removeProcess_follows {T : Residents} {pid : Nat} (h : Follows origin m T) :
    Follows origin (mmuRemoveProcess origin m pid) (T.map fun o => o.filter fun u => u.pid ≠ pid) := by
  obtain ⟨hs, hT⟩ := h
  obtain ⟨m', hm'⟩ : ∃ m', m' = mmuRemoveProcess origin m pid := ⟨_, rfl⟩
  have hfrees := @mmuRemoveProcess_frees origin m pid
  have hdirs : m'.pageDirectories = Function.update m.pageDirectories pid none := by rw [hm']; rfl
  have hsegments : m'.segmentations = Function.update m.segmentations pid none := by rw [hm']; rfl
  have hcurr : m'.currPid = m.currPid := by rw [hm']; rfl
  rw [← hm'] at hfrees ⊢
  obtain ⟨hframes, -⟩ := @removeProcess_spec origin { m with toKernel := m.toKernel.forget } _ pid
    hs.kernel.frames
    ⟨hs.fits.kernel.memory, fun _ _ h => by simp [Kernel.forget] at h, hs.fits.kernel.owners⟩
    (fun _ _ _ _ _ => rfl) rfl
  have hframes' : Frames origin m'.toKernel.forget m'.pageDirectories none := by
    rw [hm', ← removeProcess_forget]
    exact hframes.forget
  refine ⟨⟨⟨hframes', ?swap, ?owners⟩, ?fits, ?tlb, ?segments⟩, ⟨?length, ?shown⟩⟩
  case swap =>
    intro e he
    rw [hfrees.swapFiles] at he
    exact hs.kernel.swap e he
  case owners =>
    intro f e he
    by_cases hfree : m'.entryMapping f = .free
    · simp [hfree] at he
    · rw [hfrees.kept f fun hf => hfree (hfrees.free f hf)] at he
      exact hs.kernel.owners f e he
  case fits =>
    rw [hm']
    exact removeProcess_fits hs.fits
  case tlb =>
    intro b e hmem
    rw [hdirs, pte?_remove hfrees.memory, hcurr]
    have htlb : m'.tlb = if m.currPid = pid then tlbCreate else m.tlb := by rw [hm']; rfl
    rw [htlb] at hmem
    split_ifs at hmem with hpid
    · simp [tlbCreate] at hmem
    · rw [if_neg hpid]
      exact hs.tlb b e hmem
  case segments =>
    intro p
    rw [hsegments, hdirs]
    by_cases hp : p = pid
    · rw [hp, Function.update_self, Function.update_self, Option.map_none]
    · rw [Function.update_of_ne hp, Function.update_of_ne hp, hs.segments]
  case length =>
    rw [List.length_map, hT.length]
  case shown =>
    intro u f
    rw [hdirs, frame?_remove hfrees.memory, List.getElem?_map]
    by_cases hu : u.pid = pid
    · simp [hu, Option.filter_eq_some_iff]
    · rw [if_neg hu, hT.shown]
      simp [hu, Option.filter_eq_some_iff]

/-- What an operation leads to, in the machine and in the rules. -/
theorem rel_follows {e : Event} {T' : Option Residents} (h : Fits m)
    (hrel : Option.Rel (fun s T' => Res origin s.2.toKernel s.2.pageDirectories T' ∧
      TlbOk origin s.2 ∧
      ∀ p, s.2.segmentations p = (s.2.pageDirectories p).map fun _ => newSegmentations)
      (step origin m e) T') :
    Option.Rel (fun s T' => Follows origin s.2 T') (step origin m e) T' := by
  cases hstep : step origin m e with
  | none =>
    rw [hstep] at hrel
    cases hrel
    exact .none
  | some s =>
    obtain ⟨T', rfl, hres, htlb, hsegments⟩ := rel_some_left hrel hstep
    exact .some ⟨⟨hres.sound, fits_step h hstep, htlb, hsegments⟩, hres.shows⟩

/-- An access brings in a table and a page, or neither. -/
theorem rw_rel {T : Residents} {pid va : Nat} {op : Op} (hs : Sound origin m)
    (hT : Shows origin m.toKernel m.pageDirectories T) (hpid : some (.dir pid) ∈ T) :
    Option.Rel (fun s T' => Res origin s.2.toKernel s.2.pageDirectories T' ∧ TlbOk origin s.2 ∧
      s.2.pageDirectories = m.pageDirectories ∧ s.2.segmentations = m.segmentations)
      (mmuRwFromVirtualAddress origin m pid va op)
      (if allowed va op then (bring T (.table pid (va / 4096 / 1024))).bind fun T =>
        bring T (.page pid (va / 4096)) else some T) := by
  obtain ⟨d, hd⟩ : ∃ d, m.pageDirectories pid = some d := (mem_of_shows hT).mp hpid
  obtain ⟨hk, hdirs, hsegments, hcurr, htlb⟩ := contextSwitch_spec hs.tlb pid
  obtain ⟨m₀, hm₀⟩ : ∃ m₀, m₀ = contextSwitch m pid := ⟨_, rfl⟩
  rw [← hm₀] at hk hdirs hsegments hcurr htlb
  have hres : Res origin m₀.toKernel m₀.pageDirectories T := by
    rw [hk, hdirs]
    exact ⟨hs.kernel, hT⟩
  have hsegs : m₀.segmentations pid = some newSegmentations := by
    rw [hsegments, hs.segments, hd, Option.map_some]
  rw [mmuRwFromVirtualAddress, ← hdirs, ← hsegments]
  simp only [← hm₀, hsegs, Option.bind_eq_bind, Option.bind_some]
  rcases hfind : findSegment newSegmentations va with _ | seg
  · rw [if_neg (by simp [allowed, hfind])]
    exact .some ⟨hres, htlb, rfl, rfl⟩
  · obtain ⟨hi, hv⟩ := findSegment_index hfind
    by_cases hperm : seg.permissions &&& op.permission = 0
    · rw [if_neg (by simp [allowed, hfind, hperm])]
      simp only [hperm, if_true]
      exact .some ⟨hres, htlb, rfl, rfl⟩
    · rw [if_pos (by simp [allowed, hfind, hperm])]
      simp only [hperm, if_false]
      exact access_rel hres htlb hcurr (hdirs ▸ hd) hi hv

/-- **The machine follows the rules.** An operation goes through exactly when the rules have a
frame for everything it brings in. -/
theorem step_rel {T : Residents} (h : Follows origin m T) (e : Event) :
    Option.Rel (fun s T' => Follows origin s.2 T') (step origin m e) (stepResidents T e) := by
  obtain ⟨hs, hT⟩ := h
  have hdir : ∀ p, some (Use.dir p) ∈ T ↔ ∃ d, m.pageDirectories p = some d := fun p =>
    mem_of_shows hT
  cases e with
  | add pid =>
    have hiff : m.pageDirectories pid = none ↔ some (Use.dir pid) ∉ T := by
      rw [hdir, Option.eq_none_iff_forall_ne_some, not_exists]
    apply rel_follows hs.fits
    rw [step, stepResidents]
    by_cases hpid : pid < maxProcessId ∧ m.pageDirectories pid = none
    · rw [if_pos hpid, if_pos ⟨hpid.1, hiff.mp hpid.2⟩]
      apply rel_map_left (addProcess_rel ⟨hs.kernel, hT⟩ hpid.2)
      rintro m' T' ⟨hres, hpte, ⟨d, hdirs⟩, hsegments, htlb, hcurr, -⟩
      refine ⟨hres, fun b e hmem => ?_, fun p => ?_⟩
      · rw [htlb] at hmem
        rw [hcurr]
        exact hpte _ _ _ (hs.tlb b e hmem)
      · rw [hsegments, hdirs]
        by_cases hp : p = pid
        · rw [hp, Function.update_self, Function.update_self, Option.map_some]
        · rw [Function.update_of_ne hp, Function.update_of_ne hp, hs.segments]
    · rw [if_neg hpid, if_neg (by rwa [← hiff])]
      exact .none
  | remove pid =>
    rw [step, stepResidents]
    split_ifs
    · exact .some (removeProcess_follows ⟨hs, hT⟩)
    · exact .none
  | rw pid va op =>
    apply rel_follows hs.fits
    rw [step, stepResidents]
    by_cases hfit : pid < maxProcessId ∧ va < 2 ^ 32 ∧ op.size + va % 4096 ≤ 4096
    · rw [if_pos hfit]
      by_cases hpid : some (Use.dir pid) ∈ T
      · rw [if_pos ⟨hfit.1, hfit.2.1, hfit.2.2, hpid⟩]
        apply rel_map_left (rw_rel hs hT hpid)
        rintro ⟨r, m'⟩ T' ⟨hres, htlb, hdirs, hsegments⟩
        exact ⟨hres, htlb, fun p => by rw [hsegments, hdirs, hs.segments]⟩
      · -- a process that has not been added has no segments
        have hnone : m.segmentations pid = none := by
          rw [hs.segments, Option.map_eq_none_iff, Option.eq_none_iff_forall_ne_some]
          exact fun d hd => hpid ((hdir pid).mpr ⟨d, hd⟩)
        have hswitch : (contextSwitch m pid).segmentations = m.segmentations := by
          rw [contextSwitch]
          split_ifs <;> rfl
        rw [if_neg fun h => hpid h.2.2.2, mmuRwFromVirtualAddress, hswitch, hnone]
        exact .none
    · rw [if_neg hfit, if_neg fun h => hfit ⟨h.1, h.2.1, h.2.2.1⟩]
      exact .none

/-- **Every operation keeps the invariant.** -/
theorem sound_step {e : Event} {r : Option Result} (h : Sound origin m)
    (hstep : step origin m e = some (r, m')) : Sound origin m' := by
  obtain ⟨T, hT⟩ := exists_shows h.kernel.frames
  obtain ⟨T', -, hs, -⟩ := rel_some_left (step_rel ⟨h, hT⟩ e) hstep
  exact hs

/-- Runs of the machine follow the rules. -/
theorem run_rel (origin : Fin (2 ^ 20)) {h : History} {T : Residents} (hT : Follows origin m T)
    (es : List Event) :
    Option.Rel (fun s T => Follows origin s.1 T) (run (record origin) (m, h) es)
      (run stepResidents T es) := by
  apply rel_run (R := fun (s : Machine × History) T => Follows origin s.1 T) _ es hT
  intro s T e h
  exact rel_map_left (step_rel h e) fun _ _ h => h

theorem follows_create : Follows origin Machine.create (List.replicate numPhysicalPages none) := by
  refine ⟨sound_create, List.length_replicate, fun u f => ?_⟩
  have hnone : frame? origin Machine.create.toKernel Machine.create.pageDirectories u = none := by
    cases u <;> rfl
  rw [hnone]
  constructor
  · intro h
    simp at h
  · intro h
    obtain ⟨_, heq⟩ := List.getElem?_eq_some_iff.mp h
    simp at heq

/-- The entry of a page, and whether the page is in memory. -/
theorem entry_of_follows {T : Residents} {pid v t : Nat} (h : Follows origin m T)
    (ht : T[t]? = some (some (.table pid (v / 1024)))) (hv : some (.page pid v) ∉ T) :
    pte? origin m.toKernel m.pageDirectories pid v = some ⟨t, v % 1024⟩ ∧
    target origin (m.load ⟨t, v % 1024⟩) = none := by
  have htable := (h.2.shown _ _).mpr ht
  have hpte : pte? origin m.toKernel m.pageDirectories pid v = some ⟨t, v % 1024⟩ :=
    pte?_eq_some.mpr ⟨htable, rfl⟩
  refine ⟨hpte, ?_⟩
  rw [mem_of_shows h.2, not_exists, ← Option.eq_none_iff_forall_ne_some] at hv
  rwa [frame?_page hpte] at hv

/-- The owner of the frame of a page. -/
theorem owner_of_follows {T : Residents} {pid v t f : Nat} (h : Follows origin m T)
    (ht : T[t]? = some (some (.table pid (v / 1024)))) (hf : T[f]? = some (some (.page pid v))) :
    m.entryMapping f = .entry ⟨t, v % 1024⟩ := by
  have htable := (h.2.shown _ _).mpr ht
  have hpte : pte? origin m.toKernel m.pageDirectories pid v = some ⟨t, v % 1024⟩ :=
    pte?_eq_some.mpr ⟨htable, rfl⟩
  have howner := h.1.kernel.frames.owner (.page pid v) f ((h.2.shown _ _).mpr hf)
  rwa [owningEntry, show pte? origin m.toKernel.forget m.pageDirectories pid v = _ from hpte]
    at howner

end SystemProgramming.Paging
