import SystemProgramming.Paging.Coherence

/-!
# Removing a process

The removal of a process walks its directory and its tables and returns every frame it finds. The
walk writes nothing to memory, so it finds what was there before it began, and it stops at 1024
entries, which is all there are because no operation writes behind the end of a frame. In the swap
directory it removes only files that no one has written.

## Main definitions

* `Fits`: nothing is behind the end of a frame
* `Frees`: a set of frames is returned, and nothing else changes

## Main results

* `fits_step`: every operation stays in its frames
* `mmuRemoveProcess_frees`: the frames of a removed process are returned
* `removeProcess_spec`: the uses of other processes, and their pages, stay
-/

namespace SystemProgramming.Paging

variable {origin : Fin (2 ^ 20)} {k k' : Kernel} {m m' : Machine}

/-! ## The ends of frames -/

/-- Nothing is behind the end of a frame, in memory or in the swap directory, and frames are owned
by entries inside of a frame. -/
structure Kernel.Fits (k : Kernel) : Prop where
  memory : ∀ f o, 4096 ≤ o → k.memory f o = 0
  swapFiles : ∀ n page, k.swapFiles n = some page → ∀ o, 4096 ≤ o → page o = 0
  owners : ∀ f e, k.entryMapping f = .entry e → e.index < 1024

/-- The same, and the TLB has entries inside of a frame. -/
structure Fits (m : Machine) : Prop where
  kernel : m.toKernel.Fits
  tlb : ∀ b e, (b, some e) ∈ m.tlb → e.index < 1024

namespace Kernel.Fits

theorem update (h : k.Fits) {f : Nat} {page : Memory} (hpage : ∀ o, 4096 ≤ o → page o = 0) :
    Kernel.Fits { k with memory := Function.update k.memory f page } where
  memory := by
    rw [Function.forall_update_iff k.memory fun _ page => ∀ o, 4096 ≤ o → page o = 0]
    exact ⟨hpage, fun g _ => h.memory g⟩
  swapFiles := h.swapFiles
  owners := h.owners

theorem setOwner (h : k.Fits) {i : Nat} {owner : Owner}
    (howner : ∀ e, owner = .entry e → e.index < 1024) :
    Kernel.Fits { k with entryMapping := Function.update k.entryMapping i owner } where
  memory := h.memory
  swapFiles := h.swapFiles
  owners := by
    rw [Function.forall_update_iff k.entryMapping fun _ owner => ∀ e, owner = .entry e → e.index < 1024]
    exact ⟨howner, fun g _ => h.owners g⟩

theorem store (h : k.Fits) {e : EntryPtr} (he : e.index < 1024) (w : Nat) : (k.store e w).Fits := by
  apply h.update
  intro o ho
  rw [Memory.store_of_not_mem (by omega)]
  exact h.memory e.frame o ho

theorem take (h : k.Fits) {entry : Option EntryPtr} (he : ∀ e, entry = some e → e.index < 1024)
    (i : Nat) : (takeFrame k entry i).Fits := by
  have howner : ∀ e, ownerOf entry = .entry e → e.index < 1024 := by
    intro e heq
    cases entry with
    | none => simp [ownerOf] at heq
    | some e' => exact he e (congrArg some (Owner.entry.inj heq))
  exact (h.setOwner howner).update fun _ _ => rfl

theorem writePage (h : k.Fits) (e : EntryPtr) : (writePageToDisk origin k e).Fits where
  memory := h.memory
  swapFiles := by
    intro n page hn
    simp only [writePageToDisk] at hn
    by_cases he : n = .bin e
    · rw [he, Function.update_self] at hn
      exact Option.some.inj hn ▸ h.memory _
    · rw [Function.update_of_ne he] at hn
      exact h.swapFiles n page hn
  owners := h.owners

theorem readPage (h : k.Fits) (e : EntryPtr) : (readPageFromDisk origin k e).Fits := by
  rw [readPageFromDisk]
  split
  · exact h
  · rename_i page hpage
    exact h.update (h.swapFiles _ page hpage)

theorem evict (h : k.Fits) {i : Nat} {e : EntryPtr} (he : k.entryMapping i = .entry e) :
    (evict origin k i e).Fits := by
  have hindex := h.owners i e he
  apply setOwner
  · exact ((h.writePage e).store hindex _).store hindex _
  · exact fun _ hfree => by simp at hfree

theorem ask (h : k.Fits) {entry : Option EntryPtr} (he : ∀ e, entry = some e → e.index < 1024)
    {fuel address : Nat} (hask : askForFrame origin fuel k entry = some (address, k')) : k'.Fits := by
  induction fuel generalizing k with
  | zero => simp [askForFrame] at hask
  | succ fuel ih =>
    rw [askForFrame] at hask
    split at hask
    · obtain ⟨-, rfl⟩ := Prod.mk.inj (Option.some.inj hask)
      exact h.take he _
    · split at hask
      · rename_i i e hevict
        exact ih (h.evict (firstEvictable_eq_some hevict).1) hask
      · simp at hask

end Kernel.Fits

theorem loadTable_fits {pde : EntryPtr} (h : Fits m) (he : pde.index < 1024)
    (hload : loadTable origin m pde = some m') : Fits m' := by
  simp only [loadTable, Option.bind_eq_bind, Option.bind_eq_some_iff] at hload
  obtain ⟨⟨address, k⟩, hask, hload⟩ := hload
  obtain rfl := Option.some.inj hload
  have hk : k.Fits := h.kernel.ask (fun _ h => by simp at h) hask
  exact ⟨((((hk.store he _).readPage pde).store he _).store he _).store he _, h.tlb⟩

theorem loadPage_fits {pte : EntryPtr} (h : Fits m) (he : pte.index < 1024)
    (hload : loadPage origin m pte = some m') : Fits m' := by
  simp only [loadPage, Option.bind_eq_bind, Option.bind_eq_some_iff] at hload
  obtain ⟨⟨address, k⟩, hask, hload⟩ := hload
  obtain rfl := Option.some.inj hload
  have hk : k.Fits := h.kernel.ask (fun e h => Option.some.inj h ▸ he) hask
  exact ⟨((((hk.store he _).readPage pte).store he _).store he _).store he _, h.tlb⟩

theorem walk_fits {pid va : Nat} {e : EntryPtr} (h : Fits m) (hva : va < 2 ^ 32)
    (hwalk : walk origin m pid va = some (e, m')) : Fits m' ∧ e.index < 1024 := by
  simp only [walk, Option.bind_eq_bind, Option.bind_eq_some_iff] at hwalk
  obtain ⟨d, hd, hwalk⟩ := hwalk
  have hindex : va / 4096 % 1024 < 1024 := Nat.mod_lt _ (by decide)
  split_ifs at hwalk
  · rw [Option.bind_some, Option.some.injEq] at hwalk
    obtain ⟨rfl, rfl⟩ := Prod.mk.inj hwalk
    exact ⟨⟨h.kernel, h.tlb⟩, hindex⟩
  · obtain ⟨m₁, hm₁, hwalk⟩ := Option.bind_eq_some_iff.mp hwalk
    obtain ⟨rfl, rfl⟩ := Prod.mk.inj (Option.some.inj hwalk)
    have hfits : Fits { m with numTlbMisses := m.numTlbMisses + 1 } := ⟨h.kernel, h.tlb⟩
    exact ⟨loadTable_fits hfits (show va / 2 ^ 22 < 1024 by omega) hm₁, hindex⟩

theorem finish_fits {va : Nat} {e : EntryPtr} {op : Op} {r : Result} (h : Fits m)
    (he : e.index < 1024) (hop : op.size + va % 4096 ≤ 4096)
    (hfin : finish origin m e va op = (r, m')) : Fits m' := by
  have htlb : ∀ b e', (b, some e') ∈ tlbAddPte m.tlb (va / 4096) e → e'.index < 1024 :=
    tlbAddPte_spec (P := fun _ e => e.index < 1024) h.tlb he
  have hpointer := @systemPointer_offset origin (m.load e) _
    (show va % 4096 < 4096 by omega)
  cases op with
  | read n =>
    simp only [finish, transfer, hpointer] at hfin
    obtain ⟨-, rfl⟩ := Prod.mk.inj hfin
    exact ⟨h.kernel.store he _, htlb⟩
  | write buffer =>
    simp only [finish, transfer, hpointer] at hfin
    obtain ⟨-, rfl⟩ := Prod.mk.inj hfin
    have hop' : buffer.length + va % 4096 ≤ 4096 := hop
    refine ⟨((h.kernel.update fun o ho => ?_).store he _).store he _, htlb⟩
    rw [Memory.write_of_not_mem (by omega)]
    exact h.kernel.memory _ o ho

theorem access_fits {pid va : Nat} {op : Op} {r : Result} (h : Fits m) (hva : va < 2 ^ 32)
    (hop : op.size + va % 4096 ≤ 4096) (hacc : access origin m pid va op = some (r, m')) :
    Fits m' := by
  obtain ⟨hnodes, hfound⟩ := tlbGetPte_spec (P := fun _ e => e.index < 1024) (va / 4096) h.tlb
  obtain ⟨e, m₁, m₂, hlookup, hpage, hfin⟩ := access_eq_some.mp hacc
  have hm₁ : Fits m₁ ∧ e.index < 1024 := by
    rcases hlookup with ⟨hhit, rfl⟩ | ⟨-, hwalk⟩
    · exact ⟨⟨h.kernel, hnodes⟩, hfound e hhit⟩
    · refine walk_fits (m := { m with tlb := (tlbGetPte m.tlb (va / 4096)).2 }) ?_ hva hwalk
      exact ⟨h.kernel, hnodes⟩
  rcases hpage with ⟨-, rfl⟩ | ⟨-, hload⟩
  · exact finish_fits hm₁.1 hm₁.2 hop hfin
  · exact finish_fits (loadPage_fits hm₁.1 hm₁.2 hload) hm₁.2 hop hfin

theorem mapTestingPage_fits {pte : EntryPtr} (h : k.Fits) (he : pte.index < 1024)
    (hmap : mapTestingPage origin k pte = some k') : k'.Fits := by
  simp only [mapTestingPage, Option.bind_eq_bind, Option.bind_eq_some_iff] at hmap
  obtain ⟨⟨address, k₁⟩, hask, hmap⟩ := hmap
  obtain rfl := Option.some.inj hmap
  have hk : k₁.Fits := h.ask (fun e h => Option.some.inj h ▸ he) hask
  exact (((hk.store he _).store he _).store he _).store he _

theorem addProcess_fits {pid : Nat} (h : Fits m) (hadd : mmuAddProcess origin m pid = some m') :
    Fits m' := by
  simp only [mmuAddProcess, Option.bind_eq_bind, Option.bind_eq_some_iff] at hadd
  obtain ⟨⟨address, k₁⟩, hask₁, ⟨address₂, k₂⟩, hask₂, k₄, hpage₁, k₅, hpage₂, hadd⟩ := hadd
  obtain rfl := Option.some.inj hadd
  have hk₁ : k₁.Fits := h.kernel.ask (fun _ h => by simp at h) hask₁
  have hk₂ : k₂.Fits := hk₁.ask (fun _ h => by simp at h) hask₂
  refine ⟨mapTestingPage_fits (mapTestingPage_fits ?_ ?_ hpage₁) ?_ hpage₂, h.tlb⟩
  · refine (((hk₂.store ?_ _).store ?_ _).store ?_ _).store ?_ _ <;> exact Nat.zero_lt_succ _
  · exact (by decide : 1 < 1024)
  · exact (by decide : 2 < 1024)

/-! ## The walk of a removal -/

/-- The frames in `freed` are returned. Memory and the swap files of entries are as before. -/
structure Frees (k k' : Kernel) (freed : Nat → Prop) : Prop where
  memory : k'.memory = k.memory
  swapFiles : ∀ e, k'.swapFiles (.bin e) = k.swapFiles (.bin e)
  files : ∀ n page, k'.swapFiles n = some page → k.swapFiles n = some page
  free : ∀ f, freed f → k'.entryMapping f = .free
  kept : ∀ f, ¬ freed f → k'.entryMapping f = k.entryMapping f

theorem Frees.trans {k₁ k₂ k₃ : Kernel} {a b : Nat → Prop} (h : Frees k₁ k₂ a)
    (h' : Frees k₂ k₃ b) : Frees k₁ k₃ fun f => a f ∨ b f where
  memory := h'.memory.trans h.memory
  swapFiles := fun e => (h'.swapFiles e).trans (h.swapFiles e)
  files := fun n page hn => h.files n page (h'.files n page hn)
  free := by
    intro f hf
    by_cases hb : b f
    · exact h'.free f hb
    · rw [h'.kept f hb]
      exact h.free f (hf.resolve_right hb)
  kept := fun f hf => (h'.kept f fun hb => hf (Or.inr hb)).trans (h.kept f fun ha => hf (Or.inl ha))

theorem Frees.congr {a b : Nat → Prop} (h : Frees k k' a) (hab : ∀ f, a f ↔ b f) :
    Frees k k' b :=
  ⟨h.memory, h.swapFiles, h.files, fun f hf => h.free f ((hab f).mpr hf),
    fun f hf => h.kept f fun ha => hf ((hab f).mp ha)⟩

theorem frees_none : Frees k k fun _ => False :=
  ⟨rfl, fun _ => rfl, fun _ _ h => h, fun _ h => h.elim, fun _ _ => rfl⟩

theorem frees_return (k : Kernel) (i : Nat) : Frees k (returnFrameToKernel k i) fun f => f = i where
  memory := rfl
  swapFiles := fun _ => rfl
  files := fun _ _ h => h
  free := fun f hf => by rw [hf]; exact Function.update_self ..
  kept := fun f hf => Function.update_of_ne hf _ _

/-- A loop whose rounds return frames, as the memory says that no round changes. -/
theorem frees_foldl {g : Kernel → Nat → Kernel} {freed : Nat → Nat → Prop} (is : List Nat)
    (h : ∀ k' i, k'.memory = k.memory → Frees k' (g k' i) (freed i)) :
    Frees k (is.foldl g k) fun f => ∃ i ∈ is, freed i f := by
  induction is using List.reverseRecOn with
  | nil => exact frees_none.congr fun f => by simp
  | append_singleton is i ih =>
    rw [List.foldl_append]
    refine (ih.trans (h _ i ih.memory)).congr fun f => ?_
    simp only [List.mem_append, List.mem_singleton]
    constructor
    · rintro (⟨j, hj, hf⟩ | hf)
      · exact ⟨j, Or.inl hj, hf⟩
      · exact ⟨i, Or.inr rfl, hf⟩
    · rintro ⟨j, hj | rfl, hf⟩
      · exact Or.inl ⟨j, hj, hf⟩
      · exact Or.inr hf

theorem releasePage_frees (k : Kernel) (pte : EntryPtr) :
    Frees k (releasePage origin k pte) fun f => target origin (k.load pte) = some f := by
  have hremove : ∀ k : Kernel, Frees k (removeSwapFile k pte) fun _ => False := by
    intro k
    refine ⟨rfl, fun e => ?_, fun n page hn => ?_, fun _ h => h.elim, fun _ _ => rfl⟩
    · have hne : SwapName.bin e ≠ .bare pte := by simp
      exact Function.update_of_ne hne none k.swapFiles
    · simp only [removeSwapFile] at hn
      by_cases hne : n = .bare pte
      · simp [hne] at hn
      · rwa [Function.update_of_ne hne] at hn
  rw [releasePage]
  split_ifs with hpresent
  · refine ((frees_return k _).trans (hremove _)).congr fun f => ?_
    rw [target, if_pos hpresent, or_false, Option.some.injEq, eq_comm]
  · refine (hremove k).congr fun f => ?_
    rw [target, if_neg hpresent]
    simp

theorem releaseTable_frees (k : Kernel) (pde : EntryPtr) :
    Frees k (releaseTable origin k pde) fun f => ∃ t, target origin (k.load pde) = some t ∧
      ((∃ i ∈ List.range 1024, target origin (k.load ⟨t, i⟩) = some f) ∨ f = t) := by
  rw [releaseTable]
  split_ifs with hpresent
  · have htarget : target origin (k.load pde) = some (pointsTo origin (k.load pde)) := by
      rw [target, if_pos hpresent]
    have hpages : Frees k ((List.range 1024).foldl
        (fun k' i => releasePage origin k' ⟨pointsTo origin (k.load pde), i⟩) k) fun f =>
        ∃ i ∈ List.range 1024,
          target origin (k.load ⟨pointsTo origin (k.load pde), i⟩) = some f := by
      refine frees_foldl _ fun k' i hk' => ?_
      have hload : ∀ e, k'.load e = k.load e := fun e => load_congr (by rw [hk'])
      have hrelease := @releasePage_frees origin k' ⟨pointsTo origin (k.load pde), i⟩
      simpa only [hload] using hrelease
    refine (hpages.trans (frees_return _ _)).congr fun f => ?_
    simp [htarget]
  · refine frees_none.congr fun f => ?_
    rw [target, if_neg hpresent]
    simp

/-- **The frames of a removed process are returned.** -/
theorem mmuRemoveProcess_frees (m : Machine) (pid : Nat) :
    Frees m.toKernel (mmuRemoveProcess origin m pid).toKernel fun f =>
      ∃ d, m.pageDirectories pid = some d ∧
        ((∃ j ∈ List.range 1024, ∃ t, target origin (m.load ⟨d, j⟩) = some t ∧
          ((∃ i ∈ List.range 1024, target origin (m.load ⟨t, i⟩) = some f) ∨ f = t)) ∨ f = d) := by
  rw [mmuRemoveProcess]
  cases hd : m.pageDirectories pid with
  | none => exact frees_none.congr fun f => by simp
  | some d =>
    have htables : Frees m.toKernel ((List.range 1024).foldl
        (fun k' j => releaseTable origin k' ⟨d, j⟩) m.toKernel) fun f =>
        ∃ j ∈ List.range 1024, ∃ t, target origin (m.load ⟨d, j⟩) = some t ∧
          ((∃ i ∈ List.range 1024, target origin (m.load ⟨t, i⟩) = some f) ∨ f = t) := by
      refine frees_foldl _ fun k' j hk' => ?_
      have hload : ∀ e, k'.load e = m.load e := fun e => load_congr (by rw [hk'])
      have hrelease := @releaseTable_frees origin k' ⟨d, j⟩
      simpa only [hload] using hrelease
    refine (htables.trans (frees_return _ _)).congr fun f => ?_
    simp

/-! ## What stays -/

/-- The process that uses a frame. -/
def Use.pid : Use → Nat
  | .dir p => p
  | .table p _ => p
  | .page p _ => p

/-- Entries behind the end of a frame are absent. -/
theorem Kernel.Fits.target_none (h : k.Fits) {f i : Nat} (hi : 1024 ≤ i) :
    target origin (k.load ⟨f, i⟩) = none := by
  have hzero : k.load ⟨f, i⟩ = Memory.zero.load (4 * i) 4 :=
    Memory.load_congr fun b hb _ => h.memory f b (by dsimp only at hb; omega)
  rw [hzero, Memory.load_zero, target_zero]

/-- The walk of a removal finds the frames that the process uses. -/
theorem released_iff {dirs : Nat → Option Nat} {pid f : Nat} (hfits : k.Fits) :
    (∃ d, dirs pid = some d ∧
      ((∃ j ∈ List.range 1024, ∃ t, target origin (k.load ⟨d, j⟩) = some t ∧
        ((∃ i ∈ List.range 1024, target origin (k.load ⟨t, i⟩) = some f) ∨ f = t)) ∨ f = d)) ↔
    ∃ u : Use, u.pid = pid ∧ frame? origin k dirs u = some f := by
  constructor
  · rintro ⟨d, hd, ⟨j, -, t, ht, ⟨i, hi, hf⟩ | rfl⟩ | rfl⟩
    · have hindex : (1024 * j + i) / 1024 = j ∧ (1024 * j + i) % 1024 = i := by
        have := List.mem_range.mp hi
        omega
      refine ⟨.page pid (1024 * j + i), rfl, ?_⟩
      rw [frame?, pageFrame, pte?, hindex.1, hindex.2, tableFrame, hd, Option.bind_some, ht]
      exact hf
    · refine ⟨.table pid j, rfl, ?_⟩
      rw [frame?, tableFrame, hd, Option.bind_some, ht]
    · exact ⟨.dir pid, rfl, hd⟩
  · -- a table that is there is one of the 1024 that the walk looks at
    have hsmall : ∀ d j t, target origin (k.load ⟨d, j⟩) = some t → j ∈ List.range 1024 := by
      intro d j t ht
      rw [List.mem_range]
      by_contra hj
      rw [hfits.target_none (by omega)] at ht
      simp at ht
    rintro ⟨u, rfl, hu⟩
    cases u with
    | dir p => exact ⟨f, hu, Or.inr rfl⟩
    | table p j =>
      obtain ⟨d, hd, ht⟩ := Option.bind_eq_some_iff.mp hu
      exact ⟨d, hd, Or.inl ⟨j, hsmall d j f ht, f, ht, Or.inr rfl⟩⟩
    | page p v =>
      obtain ⟨e, he, hf⟩ := Option.bind_eq_some_iff.mp hu
      obtain ⟨ht, hv⟩ := pte?_eq_some.mp he
      obtain ⟨d, hd, ht⟩ := Option.bind_eq_some_iff.mp ht
      refine ⟨d, hd, Or.inl ⟨v / 1024, hsmall _ _ _ ht, e.frame, ht, Or.inl ⟨v % 1024, ?_, ?_⟩⟩⟩
      · exact List.mem_range.mpr (Nat.mod_lt _ (by decide))
      · rw [← hv]
        exact hf

/-- Tables once a process has lost its directory. -/
theorem tableFrame_remove {dirs : Nat → Option Nat} (hmem : k'.memory = k.memory) (pid p i : Nat) :
    tableFrame origin k' (Function.update dirs pid none) p i =
      if p = pid then none else tableFrame origin k dirs p i := by
  have hload : ∀ e, k'.load e = k.load e := fun e => load_congr (by rw [hmem])
  rw [tableFrame]
  by_cases hp : p = pid
  · rw [if_pos hp, hp, Function.update_self, Option.bind_none]
  · rw [if_neg hp, Function.update_of_ne hp, tableFrame]
    simp only [hload]

theorem pte?_remove {dirs : Nat → Option Nat} (hmem : k'.memory = k.memory) (pid p v : Nat) :
    pte? origin k' (Function.update dirs pid none) p v =
      if p = pid then none else pte? origin k dirs p v := by
  rw [pte?, tableFrame_remove hmem]
  split_ifs <;> rfl

/-- **Uses once a process has lost its directory.** -/
theorem frame?_remove {dirs : Nat → Option Nat} (hmem : k'.memory = k.memory) (pid : Nat) (u : Use) :
    frame? origin k' (Function.update dirs pid none) u =
      if u.pid = pid then none else frame? origin k dirs u := by
  have hload : ∀ e, k'.load e = k.load e := fun e => load_congr (by rw [hmem])
  cases u with
  | dir p =>
    rw [frame?, frame?, Use.pid]
    by_cases hp : p = pid
    · rw [if_pos hp, hp, Function.update_self]
    · rw [if_neg hp, Function.update_of_ne hp]
  | table p i => exact tableFrame_remove hmem pid p i
  | page p v =>
    rw [frame?, frame?, pageFrame, pageFrame, pte?_remove hmem, Use.pid]
    by_cases hp : p = pid
    · rw [if_pos hp, if_pos hp, Option.bind_none]
    · rw [if_neg hp, if_neg hp]
      simp only [hload]

/-- Pages once a process has lost its directory. -/
theorem content_remove {dirs : Nat → Option Nat} {freed : Nat → Prop} (hfrees : Frees k k' freed)
    (pid p v : Nat) :
    content origin k' (Function.update dirs pid none) p v =
      if p = pid then Memory.zero else content origin k dirs p v := by
  have hload : ∀ e, k'.load e = k.load e := fun e => load_congr (by rw [hfrees.memory])
  rw [content, content, pte?_remove hfrees.memory]
  by_cases hp : p = pid
  · rw [if_pos hp, if_pos hp]
  · rw [if_neg hp, if_neg hp]
    cases pte? origin k dirs p v with
    | none => rfl
    | some e =>
      dsimp only
      rw [hload, hfrees.swapFiles, hfrees.memory]

/-- The frames of a process that goes away are free, and the others have the uses they had. -/
theorem Frames.remove {dirs : Nat → Option Nat} {pid : Nat} (h : Frames origin k dirs none)
    (hfrees : Frees k k' fun f => ∃ u : Use, u.pid = pid ∧ frame? origin k dirs u = some f)
    (hfiles : ∀ i t e, tableFrame origin k dirs pid i = some t → e.frame = t →
      k.swapFiles (.bin e) = none) :
    Frames origin k' (Function.update dirs pid none) none := by
  have hframe : ∀ u, frame? origin k' (Function.update dirs pid none) u =
      if u.pid = pid then none else frame? origin k dirs u := frame?_remove hfrees.memory pid
  have hold : ∀ u f, frame? origin k' (Function.update dirs pid none) u = some f →
      u.pid ≠ pid ∧ frame? origin k dirs u = some f := by
    intro u f hu
    rw [hframe] at hu
    split_ifs at hu with hp
    exact ⟨hp, hu⟩
  have hkept : ∀ u f, frame? origin k' (Function.update dirs pid none) u = some f →
      k'.entryMapping f = k.entryMapping f := by
    intro u f hu
    obtain ⟨hp, hu⟩ := hold u f hu
    apply hfrees.kept
    rintro ⟨u', hp', hu'⟩
    exact hp (h.inj u u' f hu hu' ▸ hp')
  refine ⟨?_, ?_, ?_, ?_, by simp, ?_⟩
  · exact fun u f hu => h.bound u f (hold u f hu).2
  · exact fun u u' f hu hu' => h.inj u u' f (hold u f hu).2 (hold u' f hu').2
  · intro u f hu
    obtain ⟨hp, hu'⟩ := hold u f hu
    rw [hkept u f hu, h.owner u f hu']
    cases u with
    | page p v =>
      have hne : p ≠ pid := hp
      rw [owningEntry, owningEntry, pte?_remove hfrees.memory, if_neg hne]
    | _ => rfl
  · intro f hf
    have hnot : ¬ ∃ u : Use, u.pid = pid ∧ frame? origin k dirs u = some f :=
      fun hex => hf (hfrees.free f hex)
    rw [hfrees.kept f hnot] at hf
    rcases h.owned f hf with heq | ⟨u, hu⟩
    · simp at heq
    · have hp : u.pid ≠ pid := fun hp => hnot ⟨u, hp, hu⟩
      exact Or.inr ⟨u, by rw [hframe, if_neg hp, hu]⟩
  · -- a swap file that is left is named after an entry of another process
    intro e he
    rw [hfrees.swapFiles] at he
    obtain ⟨p, i, ht⟩ := h.swap e he
    have hp : p ≠ pid := by
      rintro rfl
      exact he (hfiles i _ e ht rfl)
    exact ⟨p, i, (hframe (.table p i)).trans ((if_neg hp).trans ht)⟩

/-- **Removing a process** returns its frames. The other processes keep theirs, and their pages;
the swap files must not be of entries that go away. -/
theorem removeProcess_spec {pid : Nat} (h : Frames origin m.toKernel m.pageDirectories none)
    (hfits : m.toKernel.Fits)
    (hfiles : ∀ i t e, tableFrame origin m.toKernel m.pageDirectories pid i = some t →
      e.frame = t → m.swapFiles (.bin e) = none) (hm : m' = mmuRemoveProcess origin m pid) :
    Frames origin m'.toKernel m'.pageDirectories none ∧
    (∀ p v, pte? origin m'.toKernel m'.pageDirectories p v =
      if p = pid then none else pte? origin m.toKernel m.pageDirectories p v) ∧
    ∀ p v, content origin m'.toKernel m'.pageDirectories p v =
      if p = pid then Memory.zero else content origin m.toKernel m.pageDirectories p v := by
  have hfrees := (@mmuRemoveProcess_frees origin m pid).congr fun f => released_iff hfits
  rw [← hm] at hfrees
  have hdirs : m'.pageDirectories = Function.update m.pageDirectories pid none := by
    rw [hm]
    rfl
  rw [hdirs]
  exact ⟨h.remove hfrees hfiles, pte?_remove hfrees.memory pid, content_remove hfrees pid⟩

theorem removeProcess_fits {pid : Nat} (h : Fits m) : Fits (mmuRemoveProcess origin m pid) := by
  have hfrees := @mmuRemoveProcess_frees origin m pid
  refine ⟨⟨?_, ?_, ?_⟩, ?_⟩
  · rw [hfrees.memory]
    exact h.kernel.memory
  · exact fun n page hn => h.kernel.swapFiles n page (hfrees.files n page hn)
  · intro f e he
    by_cases hf : ∃ d, m.pageDirectories pid = some d ∧
        ((∃ j ∈ List.range 1024, ∃ t, target origin (m.load ⟨d, j⟩) = some t ∧
          ((∃ i ∈ List.range 1024, target origin (m.load ⟨t, i⟩) = some f) ∨ f = t)) ∨ f = d)
    · rw [hfrees.free f hf] at he
      simp at he
    · rw [hfrees.kept f hf] at he
      exact h.kernel.owners f e he
  · intro b e hmem
    simp only [mmuRemoveProcess] at hmem
    split_ifs at hmem
    · simp [tlbCreate] at hmem
    · exact h.tlb b e hmem

/-- **Every operation stays in its frames.** -/
theorem fits_step {e : Event} {r : Option Result} (h : Fits m)
    (hstep : step origin m e = some (r, m')) : Fits m' := by
  cases e with
  | add pid =>
    simp only [step] at hstep
    split_ifs at hstep
    obtain ⟨m₁, hadd, heq⟩ := Option.map_eq_some_iff.mp hstep
    obtain ⟨-, rfl⟩ := Prod.mk.inj heq
    exact addProcess_fits h hadd
  | remove pid =>
    simp only [step] at hstep
    split_ifs at hstep
    obtain ⟨-, rfl⟩ := Prod.mk.inj (Option.some.inj hstep)
    exact removeProcess_fits h
  | rw pid va op =>
    simp only [step] at hstep
    split_ifs at hstep with hfit
    obtain ⟨⟨r₁, m₁⟩, hrw, heq⟩ := Option.map_eq_some_iff.mp hstep
    obtain ⟨-, rfl⟩ := Prod.mk.inj heq
    have hswitch : Fits (contextSwitch m pid) := by
      rw [contextSwitch]
      split_ifs
      · exact ⟨h.kernel, fun b e hmem => by simp [tlbCreate] at hmem⟩
      · exact h
    simp only [mmuRwFromVirtualAddress, Option.bind_eq_bind, Option.bind_eq_some_iff] at hrw
    obtain ⟨segments, -, hrw⟩ := hrw
    split at hrw
    · obtain ⟨-, rfl⟩ := Prod.mk.inj (Option.some.inj hrw)
      exact ⟨hswitch.kernel, hswitch.tlb⟩
    · split_ifs at hrw
      · obtain ⟨-, rfl⟩ := Prod.mk.inj (Option.some.inj hrw)
        exact ⟨hswitch.kernel, hswitch.tlb⟩
      · exact access_fits hswitch hfit.2.1 hfit.2.2 hrw

theorem fits_create : Fits Machine.create :=
  ⟨⟨fun _ _ _ => rfl, fun _ _ h => by simp [Machine.create] at h,
    fun _ _ h => by simp [Machine.create] at h⟩, fun _ _ h => by simp [Machine.create, tlbCreate] at h⟩

end SystemProgramming.Paging
