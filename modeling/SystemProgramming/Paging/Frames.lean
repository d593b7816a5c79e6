import SystemProgramming.Paging.Mmu

/-!
# Who uses which frame

The frames of physical memory are used as page directories, as page tables and as pages. The
memory itself says which: directories are known, their entries point to tables, and the
entries of tables point to pages. No two uses share a frame, and `entry_mapping` agrees with
the uses. Between the moment a frame is handed out and the moment an entry points to it, the
frame is pending.

What a page contains is in its frame, or in the swap file of its entry, or zero. Handing out
a frame changes no page, whatever it evicts.

## Main definitions

* `Use`, `frame?`: the uses of frames, and where they are
* `content`: the bytes of a page of a process, wherever they are
* `Frames`: no two uses share a frame, and the kernel knows all uses

## Main results

* `evict_spec`, `ask_spec`: a frame is handed out and no page changes
* `Frames.assign`: the frame that was handed out gets its use
-/

namespace SystemProgramming.Paging

/-! ## Bit fields -/

theorem baseAddr_setFlag {k : Nat} (hk : k ∈ [25, 26, 29, 30, 31]) (b : Bool) (w : Nat) :
    baseAddr (setFlag k b w) = baseAddr w := by
  simp only [List.mem_cons, List.not_mem_nil, or_false] at hk
  unfold baseAddr setFlag
  rcases hk with rfl | rfl | rfl | rfl | rfl <;> cases b <;>
    norm_num only [Bool.toNat_true, Bool.toNat_false] <;> omega

theorem present_setFlag {k : Nat} (hk : k ∈ [25, 26, 29, 30]) (b : Bool) (w : Nat) :
    present (setFlag k b w) = present w := by
  simp only [List.mem_cons, List.not_mem_nil, or_false] at hk
  unfold present flag setFlag presentBit
  rcases hk with rfl | rfl | rfl | rfl <;> cases b <;>
    norm_num only [Bool.toNat_true, Bool.toNat_false] <;> congr 2 <;> omega

theorem present_setPresent (b : Bool) (w : Nat) : present (setFlag presentBit b w) = b := by
  unfold present flag setFlag presentBit
  cases b <;> norm_num only [Bool.toNat_true, Bool.toNat_false] <;> simp <;> omega

@[simp] theorem baseAddr_setBaseAddr (w b : Nat) : baseAddr (setBaseAddr w b) = b % 2 ^ 20 := by
  unfold baseAddr setBaseAddr
  omega

@[simp] theorem present_setBaseAddr (w b : Nat) : present (setBaseAddr w b) = present w := by
  unfold present flag setBaseAddr presentBit
  norm_num only
  congr 2
  omega

theorem setFlag_lt {k w : Nat} (hk : k ∈ [25, 26, 29, 30, 31]) (b : Bool) (hw : w < 2 ^ 32) :
    setFlag k b w < 2 ^ 32 := by
  simp only [List.mem_cons, List.not_mem_nil, or_false] at hk
  unfold setFlag
  rcases hk with rfl | rfl | rfl | rfl | rfl <;> cases b <;>
    norm_num only [Bool.toNat_true, Bool.toNat_false] at hw ⊢ <;> omega

theorem setBaseAddr_lt {w b : Nat} (hw : w < 2 ^ 32) : setBaseAddr w b < 2 ^ 32 := by
  unfold setBaseAddr
  omega

/-! ## Entries in memory -/

namespace Kernel

variable {k : Kernel} {e e' : EntryPtr} {w w' : Nat}

theorem load_lt (k : Kernel) (e : EntryPtr) : k.load e < 2 ^ 32 := by
  have := Memory.load_lt (k.memory e.frame) (4 * e.index) 4
  rw [load]
  omega

theorem memory_store_of_ne {f : Nat} (h : f ≠ e.frame) : (k.store e w).memory f = k.memory f :=
  Function.update_of_ne h _ _

theorem memory_store_self :
    (k.store e w).memory e.frame = (k.memory e.frame).store (4 * e.index) 4 w :=
  Function.update_self ..

theorem load_store (hw : w < 2 ^ 32) : (k.store e w).load e = w := by
  rw [load, memory_store_self, Memory.load_store, Nat.mod_eq_of_lt (by omega)]

theorem load_store_of_ne (h : e' ≠ e) : (k.store e w).load e' = k.load e' := by
  rw [load, load]
  by_cases hf : e'.frame = e.frame
  · have hi : e'.index ≠ e.index := by
      intro hi
      obtain ⟨f, i⟩ := e
      obtain ⟨f', i'⟩ := e'
      exact h (by simp_all)
    rw [hf, memory_store_self]
    exact Memory.load_store_of_disjoint (by omega)
  · rw [memory_store_of_ne hf]

theorem store_store : (k.store e w).store e w' = k.store e w' := by
  simp only [store, Function.update_self, Function.update_idem, Memory.store_store]

/-- Changing an entry that has just been written. -/
theorem store_load_store (hw : w < 2 ^ 32) (change : Nat → Nat) :
    (k.store e w).store e (change ((k.store e w).load e)) = k.store e (change w) := by
  rw [load_store hw, store_store]

end Kernel

/-! ## Uses of frames -/

/-- What a frame is used for. -/
inductive Use where
  | dir (pid : Nat)
  | table (pid i : Nat)
  | page (pid v : Nat)
  deriving DecidableEq

section Uses

variable (origin : Fin (2 ^ 20)) (k : Kernel) (dirs : Nat → Option Nat)

/-- The frame of an entry that is present. -/
def target (w : Nat) : Option Nat := if present w then some (pointsTo origin w) else none

/-- The frame of a page table. -/
def tableFrame (pid i : Nat) : Option Nat :=
  (dirs pid).bind fun d => target origin (k.load ⟨d, i⟩)

/-- The page table entry of a page. -/
def pte? (pid v : Nat) : Option EntryPtr :=
  (tableFrame origin k dirs pid (v / 1024)).map fun t => ⟨t, v % 1024⟩

/-- The frame of a page. -/
def pageFrame (pid v : Nat) : Option Nat :=
  (pte? origin k dirs pid v).bind fun e => target origin (k.load e)

/-- The frame of a use. -/
def frame? : Use → Option Nat
  | .dir pid => dirs pid
  | .table pid i => tableFrame origin k dirs pid i
  | .page pid v => pageFrame origin k dirs pid v

/-- The entry that owns the frame of a use, if it is a page. -/
def owningEntry : Use → Option EntryPtr
  | .page pid v => pte? origin k dirs pid v
  | _ => none

/-- What a page contains. -/
def content (pid v : Nat) : Memory :=
  match pte? origin k dirs pid v with
  | none => Memory.zero
  | some e =>
    match target origin (k.load e) with
    | some f => k.memory f
    | none => (k.swapFiles (.bin e)).getD Memory.zero

/-- **Frame ownership**, with a frame that has been handed out but has no use yet. -/
structure Frames (pending : Option Nat) : Prop where
  bound : ∀ u f, frame? origin k dirs u = some f → f < numPhysicalPages
  inj : ∀ u u' f, frame? origin k dirs u = some f → frame? origin k dirs u' = some f → u = u'
  owner : ∀ u f, frame? origin k dirs u = some f →
    k.entryMapping f = ownerOf (owningEntry origin k dirs u)
  owned : ∀ f, k.entryMapping f ≠ .free → pending = some f ∨ ∃ u, frame? origin k dirs u = some f
  unused : ∀ f, pending = some f → ∀ u, frame? origin k dirs u ≠ some f
  swap : ∀ e, k.swapFiles (.bin e) ≠ none → ∃ pid i, tableFrame origin k dirs pid i = some e.frame

end Uses

variable {origin : Fin (2 ^ 20)} {k k' : Kernel} {dirs dirs' : Nat → Option Nat}
  {pending : Option Nat} {f : Nat}

theorem pte?_eq_some {pid v : Nat} {e : EntryPtr} : pte? origin k dirs pid v = some e ↔
    tableFrame origin k dirs pid (v / 1024) = some e.frame ∧ e.index = v % 1024 := by
  obtain ⟨fr, i⟩ := e
  simp only [pte?, Option.map_eq_some_iff, EntryPtr.mk.injEq]
  constructor
  · rintro ⟨t, ht, rfl, rfl⟩
    exact ⟨ht, rfl⟩
  · rintro ⟨ht, rfl⟩
    exact ⟨fr, ht, rfl, rfl⟩

/-- The page table entry of a page determines the page. -/
theorem Frames.pte_inj {pid pid' v v' : Nat} {e : EntryPtr} (h : Frames origin k dirs pending)
    (he : pte? origin k dirs pid v = some e) (he' : pte? origin k dirs pid' v' = some e) :
    pid = pid' ∧ v = v' := by
  obtain ⟨ht, hi⟩ := pte?_eq_some.mp he
  obtain ⟨ht', hi'⟩ := pte?_eq_some.mp he'
  have huse := h.inj (.table pid (v / 1024)) (.table pid' (v' / 1024)) _ ht ht'
  obtain ⟨hpid, hv⟩ := Use.table.inj huse
  exact ⟨hpid, by omega⟩

theorem content_of_pte {pid v : Nat} {e : EntryPtr} (he : pte? origin k dirs pid v = some e) :
    content origin k dirs pid v =
      match target origin (k.load e) with
      | some f => k.memory f
      | none => (k.swapFiles (.bin e)).getD Memory.zero := by
  rw [content, he]

/-- The frame of a page is where its entry points. -/
theorem frame?_page {pid v : Nat} {e : EntryPtr} (he : pte? origin k dirs pid v = some e) :
    frame? origin k dirs (.page pid v) = target origin (k.load e) := by
  rw [frame?, pageFrame, he, Option.bind_some]

/-- The content of a page depends on its entry, and on the frame or the swap file behind it. -/
theorem content_congr {k' : Kernel} {dirs' : Nat → Option Nat} {pid v : Nat} {e : EntryPtr}
    (he : pte? origin k dirs pid v = some e) (he' : pte? origin k' dirs' pid v = some e)
    (htarget : target origin (k'.load e) = target origin (k.load e))
    (hframe : ∀ f, target origin (k.load e) = some f → k'.memory f = k.memory f)
    (hswap : target origin (k.load e) = none → k'.swapFiles (.bin e) = k.swapFiles (.bin e)) :
    content origin k' dirs' pid v = content origin k dirs pid v := by
  rw [content_of_pte he, content_of_pte he', htarget]
  cases ht : target origin (k.load e) with
  | some f => exact hframe f ht
  | none =>
    dsimp only
    rw [hswap ht]

/-! ## Changes of memory -/

/-- Tables, and the entries in them, are where they were. -/
structure SameTables (origin : Fin (2 ^ 20)) (k k' : Kernel) (dirs : Nat → Option Nat) : Prop where
  table : ∀ pid i, tableFrame origin k' dirs pid i = tableFrame origin k dirs pid i
  pte : ∀ pid v, pte? origin k' dirs pid v = pte? origin k dirs pid v

/-- Writing to a frame that is neither a directory nor a table changes no entry. -/
theorem sameTables_of_data {x : Memory} (hdir : ∀ pid, dirs pid ≠ some f)
    (hmem : k'.memory = Function.update k.memory f x) : SameTables origin k k' dirs := by
  have htable : ∀ pid i, tableFrame origin k' dirs pid i = tableFrame origin k dirs pid i := by
    intro pid i
    cases hd : dirs pid with
    | none => simp [tableFrame, hd]
    | some d =>
      have hne : d ≠ f := by
        rintro rfl
        exact hdir pid hd
      simp [tableFrame, hd, Kernel.load, hmem, Function.update_of_ne hne]
  exact ⟨htable, fun pid v => by rw [pte?, pte?, htable]⟩

/-- Writing a page table entry changes no other entry. -/
theorem sameTables_of_pte {pid v w : Nat} {e : EntryPtr} (h : Frames origin k dirs pending)
    (he : pte? origin k dirs pid v = some e) (hmem : k'.memory = (k.store e w).memory) :
    SameTables origin k k' dirs := by
  refine sameTables_of_data (f := e.frame) ?_ hmem
  intro pid' hd
  have := h.inj (.dir pid') (.table pid (v / 1024)) _ hd (pte?_eq_some.mp he).1
  simp at this

theorem load_congr {e : EntryPtr} (hmem : k'.memory e.frame = k.memory e.frame) :
    k'.load e = k.load e := by
  rw [Kernel.load, Kernel.load, hmem]

/-- Uses after writing to a frame that is neither a directory nor a table. -/
theorem frame?_of_data {x : Memory} (hdir : ∀ pid, dirs pid ≠ some f)
    (htable : ∀ pid i, tableFrame origin k dirs pid i ≠ some f)
    (hmem : k'.memory = Function.update k.memory f x) (u : Use) :
    frame? origin k' dirs u = frame? origin k dirs u := by
  have hsame : SameTables origin k k' dirs := sameTables_of_data hdir hmem
  cases u with
  | dir pid => rfl
  | table pid i => exact hsame.table pid i
  | page pid v =>
    rw [frame?, frame?, pageFrame, pageFrame, hsame.pte]
    cases he : pte? origin k dirs pid v with
    | none => rw [Option.bind_none, Option.bind_none]
    | some e =>
      have hne : e.frame ≠ f := by
        rintro rfl
        exact htable _ _ (pte?_eq_some.mp he).1
      have hload : k'.load e = k.load e := load_congr (by rw [hmem, Function.update_of_ne hne])
      rw [Option.bind_some, Option.bind_some, hload]

/-- Uses after writing a page table entry. -/
theorem frame?_of_pte {pid v w : Nat} {e : EntryPtr} (h : Frames origin k dirs pending)
    (he : pte? origin k dirs pid v = some e) (hw : w < 2 ^ 32)
    (hmem : k'.memory = (k.store e w).memory) (u : Use) :
    frame? origin k' dirs u = if u = .page pid v then target origin w else frame? origin k dirs u := by
  have hsame := sameTables_of_pte h he hmem
  have hload : ∀ e', k'.load e' = (k.store e w).load e' := fun e' => load_congr (by rw [hmem])
  cases u with
  | dir pid => rw [if_neg (by simp)]; rfl
  | table pid i => rw [if_neg (by simp)]; exact hsame.table pid i
  | page pid' v' =>
    rw [frame?, frame?, pageFrame, pageFrame, hsame.pte]
    by_cases huse : Use.page pid' v' = Use.page pid v
    · obtain ⟨rfl, rfl⟩ := Use.page.inj huse
      rw [if_pos rfl, he, Option.bind_some, hload, Kernel.load_store hw]
    · rw [if_neg huse]
      cases he' : pte? origin k dirs pid' v' with
      | none => rw [Option.bind_none, Option.bind_none]
      | some e' =>
        have hne : e' ≠ e := by
          rintro rfl
          obtain ⟨rfl, rfl⟩ := h.pte_inj he' he
          exact huse rfl
        rw [Option.bind_some, Option.bind_some, hload, Kernel.load_store_of_ne hne]

/-! ## Changes of ownership -/

/-- The pending frame gets its use. -/
theorem Frames.assign (h : Frames origin k dirs (some f)) (hf : f < numPhysicalPages) (u₀ : Use)
    (hnone : frame? origin k dirs u₀ = none)
    (hframe : ∀ u, frame? origin k' dirs' u = if u = u₀ then some f else frame? origin k dirs u)
    (hmap : k'.entryMapping = k.entryMapping)
    (howner : k.entryMapping f = ownerOf (owningEntry origin k' dirs' u₀))
    (hentry : ∀ u g, frame? origin k dirs u = some g →
      owningEntry origin k' dirs' u = owningEntry origin k dirs u)
    (hswap : k'.swapFiles = k.swapFiles) : Frames origin k' dirs' none := by
  have hold : ∀ u g, frame? origin k' dirs' u = some g →
      (u = u₀ ∧ g = f) ∨ (u ≠ u₀ ∧ frame? origin k dirs u = some g) := by
    intro u g hu
    rw [hframe] at hu
    split_ifs at hu with huse
    · exact Or.inl ⟨huse, (Option.some.inj hu).symm⟩
    · exact Or.inr ⟨huse, hu⟩
  refine ⟨?bound, ?inj, ?owner, ?owned, ?unused, ?swap⟩
  case bound =>
    intro u g hu
    rcases hold u g hu with ⟨-, rfl⟩ | ⟨-, hu⟩
    · exact hf
    · exact h.bound u g hu
  case inj =>
    intro u u' g hu hu'
    rcases hold u g hu with ⟨rfl, rfl⟩ | ⟨-, hu⟩
    · rcases hold u' g hu' with ⟨rfl, -⟩ | ⟨-, hu'⟩
      · rfl
      · exact (h.unused g rfl u' hu').elim
    · rcases hold u' g hu' with ⟨-, rfl⟩ | ⟨-, hu'⟩
      · exact (h.unused g rfl u hu).elim
      · exact h.inj u u' g hu hu'
  case owner =>
    intro u g hu
    rw [hmap]
    rcases hold u g hu with ⟨rfl, rfl⟩ | ⟨-, hu⟩
    · exact howner
    · rw [h.owner u g hu, hentry u g hu]
  case owned =>
    intro g hg
    rw [hmap] at hg
    by_cases hgf : g = f
    · exact Or.inr ⟨u₀, by rw [hframe, if_pos rfl, hgf]⟩
    · rcases h.owned g hg with heq | ⟨u, hu⟩
      · exact (hgf (Option.some.inj heq).symm).elim
      · have huse : u ≠ u₀ := by
          rintro rfl
          simp [hnone] at hu
        exact Or.inr ⟨u, by rw [hframe, if_neg huse, hu]⟩
  case unused =>
    intro g hg
    simp at hg
  case swap =>
    intro e he
    rw [hswap] at he
    obtain ⟨pid, i, ht⟩ := h.swap e he
    have huse : Use.table pid i ≠ u₀ := by
      rintro rfl
      rw [frame?, ht] at hnone
      simp at hnone
    exact ⟨pid, i, ((hframe (.table pid i)).trans (if_neg huse)).trans ht⟩

/-- The owner of a frame is the entry of the page in it. -/
theorem Frames.page_of_owner {e : EntryPtr} (h : Frames origin k dirs none)
    (hf : k.entryMapping f = .entry e) :
    ∃ pid v, pte? origin k dirs pid v = some e ∧ target origin (k.load e) = some f := by
  rcases h.owned f (by rw [hf]; simp) with heq | ⟨u, hu⟩
  · simp at heq
  · have howner := h.owner u f hu
    rw [hf] at howner
    cases u with
    | dir pid => simp [owningEntry, ownerOf] at howner
    | table pid i => simp [owningEntry, ownerOf] at howner
    | page pid v =>
      rw [frame?, pageFrame] at hu
      cases he : pte? origin k dirs pid v with
      | none => simp [he] at hu
      | some e' =>
        rw [owningEntry, he, ownerOf, Owner.entry.injEq] at howner
        rw [he, Option.bind_some] at hu
        exact ⟨pid, v, howner ▸ he, howner ▸ hu⟩

/-- A frame with a present entry is not the frame of a table. -/
theorem Frames.page_ne_table {pid v pid' i t : Nat} {e : EntryPtr}
    (h : Frames origin k dirs pending) (he : pte? origin k dirs pid v = some e)
    (hf : target origin (k.load e) = some f) (ht : tableFrame origin k dirs pid' i = some t) :
    f ≠ t := by
  rintro rfl
  have hpage : frame? origin k dirs (.page pid v) = some f := by
    rw [frame?_page he, hf]
  have := h.inj _ (.table pid' i) f hpage ht
  simp at this

theorem evict_eq (k : Kernel) (i : Nat) (e : EntryPtr) :
    evict origin k i e =
      { memory := (k.store e (setBaseAddr (setFlag presentBit false (k.load e)) 0)).memory
        entryMapping := Function.update k.entryMapping i .free
        swapFiles := Function.update k.swapFiles (.bin e)
          (some (k.memory (pointsTo origin (k.load e)))) } := by
  have hlt : setFlag presentBit false ((writePageToDisk origin k e).load e) < 2 ^ 32 :=
    setFlag_lt (by simp [presentBit]) _ (Kernel.load_lt _ _)
  rw [evict, Kernel.store_load_store hlt fun w => setBaseAddr w 0]
  rfl

section Evict

variable {pid v i : Nat} {e e' : EntryPtr} (h : Frames origin k dirs none)
  (he : pte? origin k dirs pid v = some e)

theorem evict_load (hne : e' ≠ e) : (evict origin k i e).load e' = k.load e' := by
  rw [evict_eq]
  exact (Kernel.load_store_of_ne hne : _)

/-- The entry of the page that is evicted is not present any more. -/
theorem evict_absent : target origin ((evict origin k i e).load e) = none := by
  have hlt : setBaseAddr (setFlag presentBit false (k.load e)) 0 < 2 ^ 32 :=
    setBaseAddr_lt (setFlag_lt (by simp [presentBit]) _ (Kernel.load_lt _ _))
  have hload : (evict origin k i e).load e =
      setBaseAddr (setFlag presentBit false (k.load e)) 0 := by
    rw [evict_eq]
    exact (Kernel.load_store hlt : _)
  rw [hload, target, present_setBaseAddr, present_setPresent]
  rfl

theorem evict_memory {g : Nat} (hne : g ≠ e.frame) :
    (evict origin k i e).memory g = k.memory g := by
  rw [evict_eq]
  exact Kernel.memory_store_of_ne hne

theorem evict_swapFiles : (evict origin k i e).swapFiles = Function.update k.swapFiles (.bin e)
    (some (k.memory (pointsTo origin (k.load e)))) := by
  rw [evict_eq]

theorem evict_entryMapping :
    (evict origin k i e).entryMapping = Function.update k.entryMapping i .free := by
  rw [evict_eq]

include h he in
theorem evict_tables : SameTables origin k (evict origin k i e) dirs :=
  sameTables_of_pte (w := setBaseAddr (setFlag presentBit false (k.load e)) 0) h he
    (by rw [evict_eq])

include h he in
/-- All frames but that of the page stay in use. -/
theorem evict_frame? (u : Use) : frame? origin (evict origin k i e) dirs u =
    if u = .page pid v then none else frame? origin k dirs u := by
  have hlt : setBaseAddr (setFlag presentBit false (k.load e)) 0 < 2 ^ 32 :=
    setBaseAddr_lt (setFlag_lt (by simp [presentBit]) _ (Kernel.load_lt _ _))
  have habsent : target origin (setBaseAddr (setFlag presentBit false (k.load e)) 0) = none := by
    rw [target, present_setBaseAddr, present_setPresent]
    rfl
  rw [frame?_of_pte h he hlt (by rw [evict_eq]), habsent]

include h he in
/-- The page that is evicted is read from its swap file then, and all others from where they
were. -/
theorem evict_content (htarget : target origin (k.load e) = some i) (pid' v' : Nat) :
    content origin (evict origin k i e) dirs pid' v' = content origin k dirs pid' v' := by
  have hpte' : pte? origin (evict origin k i e) dirs pid' v' = pte? origin k dirs pid' v' :=
    (evict_tables h he).pte pid' v'
  cases hpte : pte? origin k dirs pid' v' with
  | none => rw [content, content, hpte', hpte]
  | some e' =>
    by_cases hne : e' = e
    · subst hne
      have hpoints : pointsTo origin (k.load e') = i := by
        rw [target] at htarget
        split_ifs at htarget
        exact Option.some.inj htarget
      rw [content_of_pte (hpte'.trans hpte), content_of_pte hpte, evict_absent, htarget,
        evict_swapFiles, Function.update_self, hpoints]
      rfl
    · refine content_congr hpte (hpte'.trans hpte) (by rw [evict_load hne]) (fun g hg => ?_)
        fun _ => by rw [evict_swapFiles, Function.update_of_ne (by simp [hne])]
      exact evict_memory (h.page_ne_table hpte hg (pte?_eq_some.mp he).1)

end Evict

/-- **Evicting a page** frees its frame and changes no page. -/
theorem evict_spec {i : Nat} {e : EntryPtr} (h : Frames origin k dirs none)
    (hi : k.entryMapping i = .entry e) :
    Frames origin (evict origin k i e) dirs none ∧
    SameTables origin k (evict origin k i e) dirs ∧
    (∀ e', e' ≠ e → (evict origin k i e).load e' = k.load e') ∧
    (∀ u, frame? origin k dirs u = none → frame? origin (evict origin k i e) dirs u = none) ∧
    ∀ pid v, content origin (evict origin k i e) dirs pid v = content origin k dirs pid v := by
  obtain ⟨pid, v, he, htarget⟩ := h.page_of_owner hi
  have hsame : SameTables origin k (evict origin k i e) dirs := evict_tables h he
  have hframe : ∀ u, frame? origin (evict origin k i e) dirs u = _ := evict_frame? h he
  have hpage : frame? origin k dirs (.page pid v) = some i := (frame?_page he).trans htarget
  have hold : ∀ u g, frame? origin (evict origin k i e) dirs u = some g →
      g ≠ i ∧ frame? origin k dirs u = some g := by
    intro u g hu
    rw [hframe] at hu
    split_ifs at hu with huse
    refine ⟨?_, hu⟩
    rintro rfl
    exact huse (h.inj u _ g hu hpage)
  refine ⟨⟨?bound, ?inj, ?owner, ?owned, ?unused, ?swap⟩, hsame, fun e' hne => evict_load hne, ?absent,
    evict_content h he htarget⟩
  case bound =>
    exact fun u g hu => h.bound u g (hold u g hu).2
  case inj =>
    exact fun u u' g hu hu' => h.inj u u' g (hold u g hu).2 (hold u' g hu').2
  case owner =>
    intro u g hu
    obtain ⟨hne, hu⟩ := hold u g hu
    rw [evict_entryMapping, Function.update_of_ne hne, h.owner u g hu]
    cases u with
    | page pid v => rw [owningEntry, owningEntry, hsame.pte]
    | _ => rfl
  case owned =>
    intro g hg
    rw [evict_entryMapping] at hg
    have hne : g ≠ i := by
      rintro rfl
      simp at hg
    rw [Function.update_of_ne hne] at hg
    rcases h.owned g hg with heq | ⟨u, hu⟩
    · simp at heq
    · have huse : u ≠ .page pid v := by
        rintro rfl
        exact hne (Option.some.inj (hu.symm.trans hpage))
      exact Or.inr ⟨u, by rw [hframe, if_neg huse, hu]⟩
  case unused =>
    simp
  case swap =>
    intro e' he'
    by_cases hne : e' = e
    · exact ⟨pid, v / 1024, by rw [hsame.table, hne, (pte?_eq_some.mp he).1]⟩
    · rw [evict_swapFiles, Function.update_of_ne (by simp [hne])] at he'
      obtain ⟨pid', i', ht⟩ := h.swap e' he'
      exact ⟨pid', i', by rw [hsame.table, ht]⟩
  case absent =>
    intro u hu
    rw [hframe, hu, ite_self]

/-- What a caller of `ask_kernel_for_frame` knows: it has a frame of zeros, its own, and no
page has changed. -/
structure Handed (origin : Fin (2 ^ 20)) (k k' : Kernel) (dirs : Nat → Option Nat)
    (entry : Option EntryPtr) (f : Nat) : Prop where
  frames : Frames origin k' dirs (some f)
  bound : f < numPhysicalPages
  owner : k'.entryMapping f = ownerOf entry
  zero : k'.memory f = Memory.zero
  tables : SameTables origin k k' dirs
  content : ∀ pid v, content origin k' dirs pid v = content origin k dirs pid v
  load : ∀ e pid v, entry = some e → pte? origin k dirs pid v = some e → k'.load e = k.load e
  absent : ∀ u, frame? origin k dirs u = none → frame? origin k' dirs u = none

/-- The uses when a frame that nothing uses is handed out. -/
theorem Frames.handOut {entry : Option EntryPtr} (h : Frames origin k dirs none)
    (hunused : ∀ u, frame? origin k dirs u ≠ some f)
    (hmap : k'.entryMapping = Function.update k.entryMapping f (ownerOf entry))
    (hswap : k'.swapFiles = k.swapFiles) (hsame : SameTables origin k k' dirs)
    (hframe : ∀ u, frame? origin k' dirs u = frame? origin k dirs u) :
    Frames origin k' dirs (some f) := by
  constructor
  case bound => exact fun u g hu => h.bound u g (hframe u ▸ hu)
  case inj => exact fun u u' g hu hu' => h.inj u u' g (hframe u ▸ hu) (hframe u' ▸ hu')
  case owner =>
    intro u g hu
    rw [hframe] at hu
    have hgf : g ≠ f := by
      rintro rfl
      exact hunused u hu
    rw [hmap, Function.update_of_ne hgf, h.owner u g hu]
    cases u with
    | page pid v => rw [owningEntry, owningEntry, hsame.pte]
    | _ => rfl
  case owned =>
    intro g hg
    by_cases hgf : g = f
    · exact Or.inl (hgf ▸ rfl)
    · rw [hmap, Function.update_of_ne hgf] at hg
      rcases h.owned g hg with heq | ⟨u, hu⟩
      · simp at heq
      · exact Or.inr ⟨u, (hframe u).trans hu⟩
  case unused =>
    intro g hg u
    rw [hframe, ← Option.some.inj hg]
    exact hunused u
  case swap =>
    intro e he
    rw [hswap] at he
    obtain ⟨pid, i, ht⟩ := h.swap e he
    exact ⟨pid, i, (hsame.table pid i).trans ht⟩

/-- Handing out a free frame. -/
theorem take_spec (h : Frames origin k dirs none) (entry : Option EntryPtr)
    (hf : f < numPhysicalPages) (hfree : k.entryMapping f = .free) :
    Handed origin k (takeFrame k entry f) dirs entry f := by
  have hunused : ∀ u, frame? origin k dirs u ≠ some f := by
    intro u hu
    have howner := h.owner u f hu
    rw [hfree] at howner
    cases hentry : owningEntry origin k dirs u <;> simp [hentry, ownerOf] at howner
  have hdir : ∀ pid, dirs pid ≠ some f := fun pid => hunused (.dir pid)
  have htable : ∀ pid i, tableFrame origin k dirs pid i ≠ some f := fun pid i => hunused (.table pid i)
  obtain ⟨k', hk'⟩ : ∃ k', k' = takeFrame k entry f := ⟨_, rfl⟩
  rw [← hk']
  have hmem : k'.memory = Function.update k.memory f Memory.zero := by rw [hk']; rfl
  have hmap : k'.entryMapping = Function.update k.entryMapping f (ownerOf entry) := by rw [hk']; rfl
  have hswap : k'.swapFiles = k.swapFiles := by rw [hk']; rfl
  have hsame : SameTables origin k k' dirs := sameTables_of_data hdir hmem
  have hframe : ∀ u, frame? origin k' dirs u = frame? origin k dirs u :=
    frame?_of_data hdir htable hmem
  -- an entry of a table in use is in another frame
  have hload : ∀ pid v e, pte? origin k dirs pid v = some e → k'.load e = k.load e := by
    intro pid v e he
    have hne : e.frame ≠ f := by
      rintro rfl
      exact htable _ _ (pte?_eq_some.mp he).1
    exact load_congr (by rw [hmem, Function.update_of_ne hne])
  constructor
  case frames => exact h.handOut hunused hmap hswap hsame hframe
  case bound => exact hf
  case owner => rw [hmap, Function.update_self]
  case zero => rw [hmem, Function.update_self]
  case tables => exact hsame
  case content =>
    intro pid v
    cases he : pte? origin k dirs pid v with
    | none => rw [Paging.content, Paging.content, hsame.pte, he]
    | some e =>
      refine content_congr he ((hsame.pte pid v).trans he) (by rw [hload pid v e he])
        (fun g hg => ?_) fun _ => by rw [hswap]
      have hgf : g ≠ f := by
        rintro rfl
        exact hunused (.page pid v) ((frame?_page he).trans hg)
      rw [hmem, Function.update_of_ne hgf]
  case load => exact fun e pid v _ he => hload pid v e he
  case absent => exact fun u hu => (hframe u).trans hu

theorem firstFree_eq_some {i : Nat} (h : firstFree k = some i) :
    i < numPhysicalPages ∧ k.entryMapping i = .free :=
  ⟨List.mem_range.mp (List.mem_of_find?_eq_some h), by simpa using List.find?_some h⟩

theorem firstEvictable_eq_some {entry : Option EntryPtr} {i : Nat} {e : EntryPtr}
    (h : firstEvictable k entry = some (i, e)) : k.entryMapping i = .entry e ∧ entry ≠ some e := by
  obtain ⟨j, -, hj⟩ := List.exists_of_findSome?_eq_some h
  cases howner : k.entryMapping j with
  | free => simp [howner] at hj
  | reserved => simp [howner] at hj
  | entry e' =>
    simp only [howner] at hj
    split_ifs at hj with hne
    obtain ⟨rfl, rfl⟩ := Prod.mk.inj (Option.some.inj hj)
    exact ⟨howner, hne⟩

/-- **Handing out a frame**, with or without evicting a page. -/
theorem ask_spec {entry : Option EntryPtr} {address : Nat} (h : Frames origin k dirs none)
    (hask : askKernelForFrame origin k entry = some (address, k')) :
    ∃ f, address = frameAddress origin f ∧ Handed origin k k' dirs entry f := by
  rw [askKernelForFrame, askForFrame] at hask
  split at hask
  · rename_i i hfree
    obtain ⟨hi, hmap⟩ := firstFree_eq_some hfree
    obtain ⟨rfl, rfl⟩ := Prod.mk.inj (Option.some.inj hask)
    exact ⟨i, rfl, take_spec h entry hi hmap⟩
  · split at hask
    · rename_i i e hevict
      obtain ⟨hi, hne⟩ := firstEvictable_eq_some hevict
      obtain ⟨hframes, hsame, hload, habsent, hcontent⟩ := evict_spec h hi
      rw [askForFrame] at hask
      split at hask
      · rename_i j hfree
        obtain ⟨hj, hmap⟩ := firstFree_eq_some hfree
        obtain ⟨rfl, rfl⟩ := Prod.mk.inj (Option.some.inj hask)
        have hh := take_spec hframes entry hj hmap
        refine ⟨j, rfl, ⟨hh.frames, hj, hh.owner, hh.zero, ⟨?_, ?_⟩, ?_, ?_,
          fun u hu => hh.absent u (habsent u hu)⟩⟩
        · exact fun pid i => (hh.tables.table pid i).trans (hsame.table pid i)
        · exact fun pid v => (hh.tables.pte pid v).trans (hsame.pte pid v)
        · exact fun pid v => (hh.content pid v).trans (hcontent pid v)
        · intro e' pid v he' hpte
          have hee : e' ≠ e := fun heq => hne (he'.trans (congrArg some heq))
          rw [hh.load e' pid v he' ((hsame.pte pid v).trans hpte), hload e' hee]
      · split at hask
        · simp [askForFrame] at hask
        · simp at hask
    · simp at hask

end SystemProgramming.Paging
