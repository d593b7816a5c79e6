import SystemProgramming.Paging.Removal

/-!
# Where a use is placed

Swap files outlive the process they belong to. What is known of frames does not depend on them:
which frame is handed out, which page is evicted for it and which frames the other uses keep is
the same with any swap directory. So this is shown for the kernel without its swap files.

## Main definitions

* `Kernel.forget`: the kernel without its swap files
* `frameFor`: the frame that is handed out
* `Placed`: one use has got a frame, and the page that was there is out

## Main results

* `ask_none`, `ask_some`: handing out a frame, with any swap directory
* `newDir_placed`, `newTable_placed`, `newPage_placed`: the three ways to use the frame
-/

namespace SystemProgramming.Paging

variable {origin : Fin (2 ^ 20)} {k k' k₁ k₂ : Kernel} {dirs : Nat → Option Nat}
  {entry : Option EntryPtr} {f : Nat}

/-! ## The swap directory set aside -/

/-- The kernel without its swap files. -/
def Kernel.forget (k : Kernel) : Kernel := { k with swapFiles := fun _ => none }

theorem Kernel.forget_congr (hmem : k'.memory = k.memory) (hmap : k'.entryMapping = k.entryMapping) :
    k'.forget = k.forget := by
  rw [forget, forget, hmem, hmap]

theorem Kernel.memory_of_forget (h : k'.forget = k.forget) : k'.memory = k.memory :=
  show k'.forget.memory = k.forget.memory by rw [h]

theorem Kernel.entryMapping_of_forget (h : k'.forget = k.forget) :
    k'.entryMapping = k.entryMapping :=
  show k'.forget.entryMapping = k.forget.entryMapping by rw [h]

theorem frame?_congr {k k' : Kernel} (h : k'.memory = k.memory) (u : Use) :
    frame? origin k' dirs u = frame? origin k dirs u := by
  have hload : ∀ e, k'.load e = k.load e := fun e => load_congr (by rw [h])
  cases u <;> simp only [frame?, pageFrame, pte?, tableFrame, hload]

theorem Frames.forget {pending : Option Nat} (h : Frames origin k dirs pending) :
    Frames origin k.forget dirs pending :=
  ⟨h.bound, h.inj, h.owner, h.owned, h.unused, fun _ he => absurd rfl he⟩

/-- Swap files make no difference to the frame that is handed out. -/
theorem askForFrame_forget (fuel : Nat) (k : Kernel) :
    (askForFrame origin fuel k entry).map (fun p => (p.1, p.2.forget)) =
      (askForFrame origin fuel k.forget entry).map fun p => (p.1, p.2.forget) := by
  induction fuel generalizing k with
  | zero => rfl
  | succ fuel ih =>
    have hfree : firstFree k.forget = firstFree k := rfl
    have hevict : firstEvictable k.forget entry = firstEvictable k entry := rfl
    rw [askForFrame, askForFrame, hfree, hevict]
    cases firstFree k with
    | some i => rfl
    | none =>
      cases firstEvictable k entry with
      | none => rfl
      | some victim =>
        have hsame : (evict origin k.forget victim.1 victim.2).forget =
            (evict origin k victim.1 victim.2).forget := rfl
        have hforget := ih (evict origin k.forget victim.1 victim.2)
        rw [hsame] at hforget
        exact (ih _).trans hforget.symm

/-- **Handing out a frame, with any swap directory.** -/
theorem ask_forget {address : Nat} (h : Frames origin k.forget dirs none)
    (hask : askKernelForFrame origin k entry = some (address, k')) :
    ∃ f k₁, address = frameAddress origin f ∧ k₁.forget = k'.forget ∧
      Handed origin k.forget k₁ dirs entry f := by
  have hmap := @askForFrame_forget origin entry 2 k
  have hask' : askForFrame origin 2 k entry = some (address, k') := hask
  rw [hask', Option.map_some] at hmap
  obtain ⟨⟨a, k₁⟩, hask₁, heq⟩ := Option.map_eq_some_iff.mp hmap.symm
  obtain ⟨rfl, hk₁⟩ := Prod.mk.inj heq
  obtain ⟨f, rfl, hh⟩ := ask_spec h hask₁
  exact ⟨f, k₁, rfl, hk₁, hh⟩

/-! ## The frame that is handed out -/

/-- The first free frame, or else the first that a page can be evicted from. -/
def frameFor (k : Kernel) (entry : Option EntryPtr) : Option Nat :=
  (firstFree k).or ((firstEvictable k entry).map Prod.fst)

theorem ask_none (h : frameFor k entry = none) : askKernelForFrame origin k entry = none := by
  rw [frameFor, Option.or_eq_none_iff, Option.map_eq_none_iff] at h
  rw [askKernelForFrame, askForFrame, h.1, h.2]

/-- The frame of an evicted page is the first free one. -/
theorem firstFree_evict {i : Nat} {e : EntryPtr} (hnone : firstFree k = none)
    (hi : i < numPhysicalPages) : firstFree (evict origin k i e) = some i := by
  have hmap : (evict origin k i e).entryMapping = Function.update k.entryMapping i .free := rfl
  have hused : ∀ j, j < numPhysicalPages → k.entryMapping j ≠ .free := by
    intro j hj hfree
    have hnot := List.find?_eq_none.mp hnone j (List.mem_range.mpr hj)
    exact hnot (by simp [hfree])
  cases hfind : firstFree (evict origin k i e) with
  | none =>
    have hnot := List.find?_eq_none.mp hfind i (List.mem_range.mpr hi)
    rw [hmap, Function.update_self] at hnot
    simp at hnot
  | some j =>
    obtain ⟨hj, hfree⟩ := firstFree_eq_some hfind
    by_cases hji : j = i
    · rw [hji]
    · rw [hmap, Function.update_of_ne hji] at hfree
      exact absurd hfree (hused j hj)

theorem firstEvictable_lt {i : Nat} {e : EntryPtr} (h : firstEvictable k entry = some (i, e)) :
    i < numPhysicalPages := by
  obtain ⟨j, hj, hsome⟩ := List.exists_of_findSome?_eq_some h
  cases howner : k.entryMapping j with
  | entry e' =>
    simp only [howner] at hsome
    split_ifs at hsome
    obtain ⟨rfl, -⟩ := Prod.mk.inj (Option.some.inj hsome)
    exact List.mem_range.mp hj
  | free => simp [howner] at hsome
  | reserved => simp [howner] at hsome

/-- What a request for a frame does to the owners and to the swap files. -/
theorem ask_some (h : frameFor k entry = some f) :
    ∃ k', askKernelForFrame origin k entry = some (frameAddress origin f, k') ∧
      k'.entryMapping = Function.update k.entryMapping f (ownerOf entry) ∧
      ∀ e, k.entryMapping f ≠ .entry e → k'.swapFiles (.bin e) = k.swapFiles (.bin e) := by
  rw [frameFor] at h
  rw [askKernelForFrame, askForFrame]
  cases hfree : firstFree k with
  | some i =>
    rw [hfree, Option.some_or, Option.some.injEq] at h
    subst h
    exact ⟨_, rfl, rfl, fun _ _ => rfl⟩
  | none =>
    rw [hfree, Option.none_or, Option.map_eq_some_iff] at h
    obtain ⟨⟨i, e⟩, hevict, rfl⟩ := h
    have howner : k.entryMapping i = .entry e := (firstEvictable_eq_some hevict).1
    dsimp only
    rw [hevict]
    dsimp only
    rw [askForFrame, firstFree_evict hfree (firstEvictable_lt hevict)]
    refine ⟨_, rfl, ?_, fun e' he' => ?_⟩
    · exact Function.update_idem ..
    · have hne : SwapName.bin e' ≠ .bin e := by
        intro heq
        rw [SwapName.bin.inj heq] at he'
        exact he' howner
      exact Function.update_of_ne hne _ _

/-! ## One use gets a frame -/

/-- A frame that keeps its owner keeps its use. -/
theorem frame_iff_of_owner {pending : Option Nat} (h : Frames origin k dirs none)
    (h' : Frames origin k' dirs pending) (hsame : SameTables origin k k' dirs) {g : Nat}
    (hmap : k'.entryMapping g = k.entryMapping g) (hpending : pending ≠ some g) (u : Use) :
    frame? origin k' dirs u = some g ↔ frame? origin k dirs u = some g := by
  -- a use is known by the owner of its frame, or by the directories and tables
  have hunique : ∀ {u u' : Use}, frame? origin k dirs u = some g →
      frame? origin k' dirs u' = some g → u = u' := by
    intro u u' hu hu'
    have howner := h.owner u g hu
    have howner' := h'.owner u' g hu'
    rw [hmap, howner] at howner'
    cases u with
    | page p v =>
      obtain ⟨e, he, -⟩ := Option.bind_eq_some_iff.mp hu
      cases u' with
      | page p' v' =>
        rw [owningEntry, owningEntry, hsame.pte] at howner'
        obtain ⟨e', he', -⟩ := Option.bind_eq_some_iff.mp hu'
        rw [hsame.pte] at he'
        rw [he, he', ownerOf, ownerOf, Owner.entry.injEq] at howner'
        obtain ⟨rfl, rfl⟩ := h.pte_inj he (howner' ▸ he')
        rfl
      | _ => simp [owningEntry, ownerOf, he] at howner'
    | dir p =>
      cases u' with
      | page p' v' =>
        obtain ⟨e', he', -⟩ := Option.bind_eq_some_iff.mp hu'
        simp [owningEntry, ownerOf, he'] at howner'
      | dir p' => exact h.inj _ _ g hu hu'
      | table p' i' => exact h.inj _ _ g hu ((hsame.table p' i').symm.trans hu')
    | table p i =>
      cases u' with
      | page p' v' =>
        obtain ⟨e', he', -⟩ := Option.bind_eq_some_iff.mp hu'
        simp [owningEntry, ownerOf, he'] at howner'
      | dir p' => exact h.inj _ _ g hu hu'
      | table p' i' => exact h.inj _ _ g hu ((hsame.table p' i').symm.trans hu')
  have hused : ∀ {k : Kernel} {pending : Option Nat} {u : Use}, Frames origin k dirs pending →
      frame? origin k dirs u = some g → k.entryMapping g ≠ .free := by
    intro k pending u h hu
    rw [h.owner u g hu]
    cases owningEntry origin k dirs u <;> simp [ownerOf]
  constructor
  · intro hu
    obtain ⟨u₀, hu₀⟩ := (h.owned g (hmap ▸ hused h' hu)).resolve_left (by simp)
    rwa [← hunique hu₀ hu]
  · intro hu
    obtain ⟨u', hu'⟩ := (h'.owned g (hmap ▸ hused h hu)).resolve_left hpending
    rwa [hunique hu hu']

/-- Once a frame has been handed out, the uses of the other frames are as before. -/
theorem Handed.frame_iff (h : Frames origin k dirs none) (hh : Handed origin k k' dirs entry f)
    (hmap : k'.entryMapping = Function.update k.entryMapping f (ownerOf entry)) (u : Use) (g : Nat) :
    frame? origin k' dirs u = some g ↔ g ≠ f ∧ frame? origin k dirs u = some g := by
  by_cases hgf : g = f
  · subst hgf
    simpa using hh.frames.unused g rfl u
  · have hiff := frame_iff_of_owner h hh.frames hh.tables (g := g)
      (by rw [hmap, Function.update_of_ne hgf]) (fun heq => hgf (Option.some.inj heq).symm) u
    rw [hiff]
    simp [hgf]

/-- What a caller of `ask_kernel_for_frame` knows, with any swap directory. -/
structure Asked (origin : Fin (2 ^ 20)) (k k' : Kernel) (dirs : Nat → Option Nat)
    (entry : Option EntryPtr) (f : Nat) : Prop where
  handed : ∃ files, Handed origin k.forget { k' with swapFiles := files } dirs entry f
  owner : k'.entryMapping = Function.update k.entryMapping f (ownerOf entry)
  swap : ∀ e, k.entryMapping f ≠ .entry e → k'.swapFiles (.bin e) = k.swapFiles (.bin e)

theorem frameFor_lt (h : frameFor k entry = some f) : f < numPhysicalPages := by
  rw [frameFor, Option.or_eq_some_iff, Option.map_eq_some_iff] at h
  rcases h with hfree | ⟨-, ⟨i, e⟩, hevict, rfl⟩
  · exact (firstFree_eq_some hfree).1
  · exact (firstEvictable_lt hevict)

/-- **A request for a frame.** -/
theorem ask_asked (h : Frames origin k.forget dirs none) (hfor : frameFor k entry = some f) :
    ∃ k', askKernelForFrame origin k entry = some (frameAddress origin f, k') ∧
      Asked origin k k' dirs entry f := by
  obtain ⟨k', hask, howner, hswap⟩ := @ask_some origin _ _ _ hfor
  obtain ⟨f', k₁, haddress, hk₁, hh⟩ := ask_forget h hask
  have hf : systemPointer origin (frameAddress origin f) = (f', 0) := by
    rw [haddress, systemPointer_frameAddress hh.bound]
  rw [systemPointer_frameAddress (frameFor_lt hfor)] at hf
  obtain ⟨rfl, -⟩ := Prod.mk.inj hf
  have hkernel : { k' with swapFiles := k₁.swapFiles } = k₁ := by
    rw [← Kernel.memory_of_forget hk₁, ← Kernel.entryMapping_of_forget hk₁]
  exact ⟨k', hask, ⟨k₁.swapFiles, hkernel.symm ▸ hh⟩, howner, hswap⟩

/-- The other uses keep their frames. -/
theorem Asked.frame_iff (h : Frames origin k.forget dirs none) (ha : Asked origin k k' dirs entry f)
    (u : Use) (g : Nat) :
    frame? origin k' dirs u = some g ↔ g ≠ f ∧ frame? origin k dirs u = some g := by
  obtain ⟨files, hh⟩ := ha.handed
  have hk : frame? origin k' dirs u = frame? origin { k' with swapFiles := files } dirs u :=
    frame?_congr rfl u
  have hforget : frame? origin k dirs u = frame? origin k.forget dirs u := frame?_congr rfl u
  rw [hk, hforget]
  exact hh.frame_iff h ha.owner u g

/-- **The use `u` has got the frame `f`**, and the page that was there is out. -/
structure Placed (origin : Fin (2 ^ 20)) (k k' : Kernel) (dirs dirs' : Nat → Option Nat) (u : Use)
    (f : Nat) : Prop where
  frames : Frames origin k'.forget dirs' none
  frame : ∀ u' g, frame? origin k' dirs' u' = some g ↔
    u' = u ∧ g = f ∨ u' ≠ u ∧ g ≠ f ∧ frame? origin k dirs u' = some g
  tables : ∀ p i t, tableFrame origin k dirs p i = some t → tableFrame origin k' dirs' p i = some t
  owner : k'.entryMapping = Function.update k.entryMapping f (ownerOf (owningEntry origin k' dirs' u))
  swap : ∀ e, k.entryMapping f ≠ .entry e → k'.swapFiles (.bin e) = k.swapFiles (.bin e)

theorem Placed.pte {dirs' : Nat → Option Nat} {u : Use} (h : Placed origin k k' dirs dirs' u f)
    {p v : Nat} {e : EntryPtr} (he : pte? origin k dirs p v = some e) :
    pte? origin k' dirs' p v = some e := by
  rw [pte?_eq_some] at he ⊢
  exact ⟨h.tables _ _ _ he.1, he.2⟩

/-- The frame that was handed out gets a use that had none. -/
theorem Asked.placed {dirs' : Nat → Option Nat} {u : Use} (h : Frames origin k.forget dirs none)
    (ha : Asked origin k k₁ dirs entry f) (hu : frame? origin k dirs u = none)
    (hframes : Frames origin k₂.forget dirs' none)
    (hframe : ∀ u', frame? origin k₂ dirs' u' = if u' = u then some f else frame? origin k₁ dirs u')
    (hentry : entry = owningEntry origin k₂ dirs' u) (hmap : k₂.entryMapping = k₁.entryMapping)
    (hswap : k₂.swapFiles = k₁.swapFiles) : Placed origin k k₂ dirs dirs' u f where
  frames := hframes
  frame := by
    intro u' g
    rw [hframe]
    split_ifs with huse
    · simp [huse, eq_comm]
    · rw [ha.frame_iff h]
      simp [huse]
  tables := by
    intro p i t ht
    obtain ⟨files, hh⟩ := ha.handed
    have htable : frame? origin k₁ dirs (.table p i) = some t := (hh.tables.table p i).trans ht
    have hne : Use.table p i ≠ u := by
      rintro rfl
      exact absurd (hu.symm.trans ht) (by simp)
    have hframe' := hframe (.table p i)
    rw [if_neg hne, htable] at hframe'
    exact hframe'
  owner := by rw [hmap, ha.owner, hentry]
  swap := fun e he => by rw [hswap, ha.swap e he]

/-- **A new directory.** -/
theorem newDir_placed {pid : Nat} (h : Frames origin k.forget dirs none)
    (ha : Asked origin k k₁ dirs none f) (hpid : dirs pid = none) :
    Placed origin k k₁ dirs (Function.update dirs pid (some f)) (.dir pid) f := by
  obtain ⟨files, hh⟩ := ha.handed
  obtain ⟨hframes, htable, -⟩ := newDir_spec hh hpid
  have htables : ∀ p i, tableFrame origin k₁ (Function.update dirs pid (some f)) p i =
      tableFrame origin k₁ dirs p i := fun p i =>
    (htable p i).trans (hh.tables.table p i).symm
  refine ha.placed h hpid hframes.forget (fun u => ?_) rfl rfl rfl
  cases u with
  | dir p =>
    by_cases hp : p = pid
    · rw [if_pos (by rw [hp]), frame?, hp, Function.update_self]
    · rw [if_neg (by simp [hp]), frame?, frame?, Function.update_of_ne hp]
  | table p i => rw [if_neg (by simp), frame?, frame?, htables]
  | page p v => rw [if_neg (by simp), frame?, frame?, pageFrame, pageFrame, pte?, pte?, htables]

/-- **A new table.** -/
theorem newTable_placed {pid d i w : Nat} (h : Frames origin k.forget dirs none)
    (ha : Asked origin k k₁ dirs none f) (hd : dirs pid = some d)
    (hnone : tableFrame origin k dirs pid i = none) (hw : w < 2 ^ 32)
    (hwf : target origin w = some f) :
    Placed origin k (k₁.store ⟨d, i⟩ w) dirs dirs (.table pid i) f := by
  obtain ⟨files, hh⟩ := ha.handed
  obtain ⟨hframes, -, hpage, -⟩ := newTable_spec { k₁.store ⟨d, i⟩ w with swapFiles := files } hh hd
    hnone hw hwf rfl rfl rfl
  refine ha.placed h hnone hframes.forget (fun u => ?_) rfl rfl rfl
  cases u with
  | dir p => rw [if_neg (by simp)]; rfl
  | table p j =>
    have htable := @tableFrame_of_pde origin _ (k₁.store ⟨d, i⟩ w) _ _ _ _ _ p j _ hh.frames hd hw rfl
    rw [hwf] at htable
    simp only [frame?, Use.table.injEq]
    exact htable
  | page p v => rw [if_neg (by simp)]; exact hpage p v

/-- **A page**, with whatever is read into it. -/
theorem newPage_placed {pid v w : Nat} {e : EntryPtr} {x : Memory}
    (h : Frames origin k.forget dirs none) (ha : Asked origin k k₁ dirs (some e) f)
    (he : pte? origin k dirs pid v = some e) (habsent : target origin (k.load e) = none)
    (hw : w < 2 ^ 32) (hwf : target origin w = some f)
    (hmem : k₂.memory = Function.update (k₁.store e w).memory f x)
    (hmap : k₂.entryMapping = k₁.entryMapping) (hswap : k₂.swapFiles = k₁.swapFiles) :
    Placed origin k k₂ dirs dirs (.page pid v) f := by
  obtain ⟨files, hh⟩ := ha.handed
  have hu : frame? origin k dirs (.page pid v) = none := by
    rw [frame?_page he, habsent]
  have hzero : Memory.zero = content origin k.forget dirs pid v := by
    have hforget : target origin (k.forget.load e) = none := habsent
    rw [content_of_pte (k := k.forget) he, hforget]
    rfl
  -- first a page of zeros, then its bytes
  obtain ⟨k₀, hk₀⟩ : ∃ k₀ : Kernel, k₀ = ⟨Function.update (k₁.store e w).memory f Memory.zero,
    k₁.entryMapping, files⟩ := ⟨_, rfl⟩
  obtain ⟨hframes₀, hsame₀, -, hframe₀, -⟩ := newPage_spec k₀ hh he habsent hw hwf hzero
    (by rw [hk₀]; rfl) (by rw [hk₀]) (by rw [hk₀])
  have hpage : frame? origin k₀ dirs (.page pid v) = some f := by rw [hframe₀, if_pos rfl]
  have hdir : ∀ p, dirs p ≠ some f := by
    intro p hp
    have := hframes₀.inj (.dir p) _ f hp hpage
    simp at this
  have htable : ∀ p i, tableFrame origin k₀ dirs p i ≠ some f := by
    intro p i hp
    have := hframes₀.inj (.table p i) _ f hp hpage
    simp at this
  have hmem₀ : ({ k₂ with swapFiles := files } : Kernel).memory =
      Function.update k₀.memory f x := by
    rw [hk₀, Function.update_idem, ← hmem]
  have hsame := @sameTables_of_data origin _ _ _ _ _ hdir hmem₀
  have hframe := @frame?_of_data origin _ _ _ _ _ hdir htable hmem₀
  have hframes := hframes₀.of_same hframe hsame (by rw [hk₀]; exact hmap) (by rw [hk₀])
  have hentry : some e = pte? origin k₂ dirs pid v := by
    rw [← he]
    exact ((hsame.pte pid v).trans (hsame₀.pte pid v)).symm
  refine ha.placed h hu hframes.forget (fun u => ?_) hentry hmap hswap
  exact (hframe u).trans (hframe₀ u)

end SystemProgramming.Paging
