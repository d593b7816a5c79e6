import SystemProgramming.Paging.Frames

/-!
# Frames get their use

A frame that has been handed out becomes a page directory, a page table or a page when it is
entered in the directories, in a directory or in a table. None of these changes the content of
a page: a new directory and a new table are empty, and a page that is brought in brings its
content along.

## Main results

* `newDir_spec`, `newTable_spec`, `newPage_spec`: the three ways to use a frame
-/

namespace SystemProgramming.Paging

variable {origin : Fin (2 ^ 20)} {k k₁ k₂ : Kernel} {dirs : Nat → Option Nat} {f : Nat}

/-! ## Addresses -/

theorem systemPointer_frameAddress (hf : f < numPhysicalPages) :
    systemPointer origin (frameAddress origin f) = (f, 0) := by
  have := origin.isLt
  unfold numPhysicalPages at hf
  unfold systemPointer frameAddress
  rw [Prod.mk.injEq]
  constructor <;> omega

theorem pointsTo_of_baseAddr {w : Nat} (hf : f < numPhysicalPages)
    (hw : baseAddr w = frameAddress origin f / 4096 % 2 ^ 20) : pointsTo origin w = f := by
  have := origin.isLt
  unfold numPhysicalPages at hf
  unfold pointsTo systemPointer
  rw [hw]
  unfold frameAddress
  dsimp only
  omega

/-- The address of a byte in a page. -/
theorem systemPointer_offset (w : Nat) {offset : Nat} (h : offset < 4096) :
    systemPointer origin ((baseAddr w * 4096 + offset) % 2 ^ 32) = (pointsTo origin w, offset) := by
  have := origin.isLt
  unfold pointsTo systemPointer baseAddr
  dsimp only
  rw [Prod.mk.injEq]
  constructor <;> omega

/-- The entry that the callers of `ask_kernel_for_frame` write. -/
theorem target_newEntry (hf : f < numPhysicalPages) (w : Nat) (b : Bool) :
    target origin (setFlag userSupervisorBit b (setFlag readWriteBit true
      (setFlag presentBit true (setBaseAddr w (frameAddress origin f / 4096))))) = some f := by
  rw [target, present_setFlag (by simp [userSupervisorBit]), present_setFlag (by simp [readWriteBit]),
    present_setPresent, if_pos rfl, pointsTo_of_baseAddr hf]
  rw [baseAddr_setFlag (by simp [userSupervisorBit]), baseAddr_setFlag (by simp [readWriteBit]),
    baseAddr_setFlag (by simp [presentBit]), baseAddr_setBaseAddr]

theorem newEntry_lt {w : Nat} (hw : w < 2 ^ 32) (a : Nat) (b : Bool) :
    setFlag userSupervisorBit b (setFlag readWriteBit true
      (setFlag presentBit true (setBaseAddr w a))) < 2 ^ 32 :=
  setFlag_lt (by simp [userSupervisorBit]) _ (setFlag_lt (by simp [readWriteBit]) _
    (setFlag_lt (by simp [presentBit]) _ (setBaseAddr_lt hw)))

theorem target_zero : target origin 0 = none := by
  rw [target, if_neg]
  decide

/-- A frame of zeros has no present entries. -/
theorem load_of_zero {e : EntryPtr} (h : k.memory e.frame = Memory.zero) : k.load e = 0 := by
  rw [Kernel.load, h, Memory.load_zero]

/-! ## Directories -/

/-- **A new directory** is empty. -/
theorem newDir_spec {pid : Nat} (hh : Handed origin k k₁ dirs none f) (hpid : dirs pid = none) :
    Frames origin k₁ (Function.update dirs pid (some f)) none ∧
    (∀ p i, tableFrame origin k₁ (Function.update dirs pid (some f)) p i =
      tableFrame origin k dirs p i) ∧
    ∀ p v, content origin k₁ (Function.update dirs pid (some f)) p v = content origin k dirs p v := by
  have htable : ∀ p i, tableFrame origin k₁ (Function.update dirs pid (some f)) p i =
      tableFrame origin k₁ dirs p i := by
    intro p i
    by_cases hp : p = pid
    · rw [tableFrame, tableFrame, hp, Function.update_self, hpid, Option.bind_some, Option.bind_none,
        load_of_zero hh.zero, target_zero]
    · rw [tableFrame, tableFrame, Function.update_of_ne hp]
  have hpte : ∀ p v, pte? origin k₁ (Function.update dirs pid (some f)) p v =
      pte? origin k₁ dirs p v := fun p v => by rw [pte?, pte?, htable]
  refine ⟨hh.frames.assign hh.bound (.dir pid) hpid ?_ rfl hh.owner ?_ rfl, ?_, ?_⟩
  · intro u
    cases u with
    | dir p =>
      by_cases hp : p = pid
      · rw [if_pos (by rw [hp]), frame?, hp, Function.update_self]
      · rw [if_neg (by simp [hp]), frame?, frame?, Function.update_of_ne hp]
    | table p i => rw [if_neg (by simp), frame?, frame?, htable]
    | page p v => rw [if_neg (by simp), frame?, frame?, pageFrame, pageFrame, hpte]
  · intro u _ _
    cases u with
    | page p v => rw [owningEntry, owningEntry, hpte]
    | _ => rfl
  · exact fun p i => (htable p i).trans (hh.tables.table p i)
  · intro p v
    rw [← hh.content p v, content, content, hpte]

/-! ## Tables -/

/-- Entries after writing a page directory entry. -/
theorem tableFrame_of_pde {pid d i w p j : Nat} {pending : Option Nat}
    (h : Frames origin k₁ dirs pending) (hd : dirs pid = some d) (hw : w < 2 ^ 32)
    (hmem : k₂.memory = (k₁.store ⟨d, i⟩ w).memory) :
    tableFrame origin k₂ dirs p j =
      if p = pid ∧ j = i then target origin w else tableFrame origin k₁ dirs p j := by
  have hload : ∀ e, k₂.load e = (k₁.store ⟨d, i⟩ w).load e := fun e => load_congr (by rw [hmem])
  rw [tableFrame, tableFrame]
  cases hd' : dirs p with
  | none =>
    have hne : ¬ (p = pid ∧ j = i) := by
      rintro ⟨rfl, -⟩
      simp [hd] at hd'
    rw [if_neg hne, Option.bind_none, Option.bind_none]
  | some d' =>
    rw [Option.bind_some, Option.bind_some, hload]
    by_cases hp : p = pid ∧ j = i
    · obtain ⟨rfl, rfl⟩ := hp
      obtain rfl : d = d' := Option.some.inj (hd.symm.trans hd')
      rw [if_pos ⟨rfl, rfl⟩, Kernel.load_store hw]
    · rw [if_neg hp, Kernel.load_store_of_ne]
      intro heq
      obtain ⟨rfl, rfl⟩ := EntryPtr.mk.inj heq
      exact hp ⟨Use.dir.inj (h.inj (.dir p) (.dir pid) d' hd' hd), rfl⟩

section NewTable

variable {pid d i w : Nat} (hh : Handed origin k k₁ dirs none f) (hd : dirs pid = some d)
  (hnone : tableFrame origin k dirs pid i = none) (hw : w < 2 ^ 32)
  (hwf : target origin w = some f) (hmem : k₂.memory = (k₁.store ⟨d, i⟩ w).memory)
  (hswap : k₂.swapFiles = k₁.swapFiles)

include hh hd hw hwf hmem in
theorem newTable_tableFrame (p j : Nat) : tableFrame origin k₂ dirs p j =
    if p = pid ∧ j = i then some f else tableFrame origin k₁ dirs p j := by
  rw [tableFrame_of_pde hh.frames hd hw hmem, hwf]

include hh hd hmem hswap in
/-- The entries of the new table are absent, and have no swap files. -/
theorem newTable_empty (j : Nat) :
    target origin (k₂.load ⟨f, j⟩) = none ∧ k₂.swapFiles (.bin ⟨f, j⟩) = none := by
  have hdf : f ≠ d := by
    rintro rfl
    exact hh.frames.unused f rfl (.dir pid) hd
  refine ⟨?_, ?_⟩
  · rw [load_of_zero (by rw [hmem, Kernel.memory_store_of_ne hdf, hh.zero]), target_zero]
  · rw [hswap]
    by_contra hfile
    obtain ⟨p, j', ht⟩ := hh.frames.swap _ hfile
    exact hh.frames.unused f rfl (.table p j') ht

include hh hd hnone hw hwf hmem in
/-- The pages of the new table have an entry now. -/
theorem newTable_pte {p v : Nat} (hp : p = pid ∧ v / 1024 = i) :
    pte? origin k₂ dirs p v = some ⟨f, v % 1024⟩ ∧ pte? origin k₁ dirs p v = none := by
  obtain ⟨rfl, rfl⟩ := hp
  rw [pte?, pte?, newTable_tableFrame hh hd hw hwf hmem, if_pos ⟨rfl, rfl⟩, hh.tables.table, hnone]
  exact ⟨rfl, rfl⟩

include hh hd hw hwf hmem in
theorem newTable_pte_of_ne {p v : Nat} (hne : ¬ (p = pid ∧ v / 1024 = i)) :
    pte? origin k₂ dirs p v = pte? origin k₁ dirs p v := by
  rw [pte?, pte?, newTable_tableFrame hh hd hw hwf hmem, if_neg hne]

include hh hd hmem in
/-- The entry that is written is not one of a page. -/
theorem newTable_load {p v : Nat} {e : EntryPtr} (he : pte? origin k₁ dirs p v = some e) :
    k₂.load e = k₁.load e := by
  refine load_congr ?_
  rw [hmem, Kernel.memory_store_of_ne]
  intro heq
  have := hh.frames.inj (.table p (v / 1024)) (.dir pid) e.frame (pte?_eq_some.mp he).1 (by
    rw [heq]
    exact hd)
  simp at this

include hh hd hnone hw hwf hmem hswap in
theorem newTable_pageFrame (p v : Nat) :
    pageFrame origin k₂ dirs p v = pageFrame origin k₁ dirs p v := by
  rw [pageFrame, pageFrame]
  by_cases hp : p = pid ∧ v / 1024 = i
  · obtain ⟨hnew, hold⟩ := newTable_pte hh hd hnone hw hwf hmem hp
    rw [hnew, hold, Option.bind_some, Option.bind_none, (newTable_empty hh hd hmem hswap _).1]
  · rw [newTable_pte_of_ne hh hd hw hwf hmem hp]
    cases he : pte? origin k₁ dirs p v with
    | none => rw [Option.bind_none, Option.bind_none]
    | some e => rw [Option.bind_some, Option.bind_some, newTable_load hh hd hmem he]

include hh hd hnone hw hwf hmem hswap in
theorem newTable_content (p v : Nat) :
    content origin k₂ dirs p v = content origin k₁ dirs p v := by
  by_cases hp : p = pid ∧ v / 1024 = i
  · obtain ⟨hnew, hold⟩ := newTable_pte hh hd hnone hw hwf hmem hp
    obtain ⟨habsent, hfile⟩ := newTable_empty hh hd hmem hswap (v % 1024)
    rw [content_of_pte hnew, habsent, hfile, content, hold]
    rfl
  · have hpte := newTable_pte_of_ne hh hd hw hwf hmem hp
    cases he : pte? origin k₁ dirs p v with
    | none => rw [content, content, hpte, he]
    | some e =>
      refine content_congr he (hpte.trans he) (by rw [newTable_load hh hd hmem he]) (fun g hg => ?_)
        fun _ => by rw [hswap]
      have hgd : g ≠ d := by
        rintro rfl
        have := hh.frames.inj (.page p v) (.dir pid) g ((frame?_page he).trans hg) hd
        simp at this
      rw [hmem, Kernel.memory_store_of_ne hgd]

end NewTable

/-- **A new table** is empty. -/
theorem newTable_spec (k₂ : Kernel) {pid d i w : Nat} (hh : Handed origin k k₁ dirs none f)
    (hd : dirs pid = some d) (hnone : tableFrame origin k dirs pid i = none) (hw : w < 2 ^ 32)
    (hwf : target origin w = some f) (hmem : k₂.memory = (k₁.store ⟨d, i⟩ w).memory)
    (hmap : k₂.entryMapping = k₁.entryMapping) (hswap : k₂.swapFiles = k₁.swapFiles) :
    Frames origin k₂ dirs none ∧ tableFrame origin k₂ dirs pid i = some f ∧
    (∀ p v, pageFrame origin k₂ dirs p v = pageFrame origin k₁ dirs p v) ∧
    (∀ p v e, pte? origin k dirs p v = some e → pte? origin k₂ dirs p v = some e) ∧
    ∀ p v, content origin k₂ dirs p v = content origin k dirs p v := by
  have htable := newTable_tableFrame hh hd hw hwf hmem
  have hpage := newTable_pageFrame hh hd hnone hw hwf hmem hswap
  have hnone₁ : tableFrame origin k₁ dirs pid i = none := (hh.tables.table pid i).trans hnone
  refine ⟨hh.frames.assign hh.bound (.table pid i) hnone₁ ?_ hmap hh.owner ?_ hswap, ?_, hpage,
    ?_, ?_⟩
  · intro u
    cases u with
    | dir p => rw [if_neg (by simp), frame?, frame?]
    | table p j => simp only [frame?, htable, Use.table.injEq]
    | page p v => rw [if_neg (by simp), frame?, frame?, hpage]
  · intro u g hu
    cases u with
    | page p v =>
      refine newTable_pte_of_ne hh hd hw hwf hmem fun hp => ?_
      rw [frame?, pageFrame, (newTable_pte hh hd hnone hw hwf hmem hp).2] at hu
      simp at hu
    | _ => rfl
  · rw [htable, if_pos ⟨rfl, rfl⟩]
  · intro p v e he
    rw [← hh.tables.pte] at he
    rw [newTable_pte_of_ne hh hd hw hwf hmem fun hp => ?_, he]
    simp [(newTable_pte hh hd hnone hw hwf hmem hp).2] at he
  · intro p v
    rw [newTable_content hh hd hnone hw hwf hmem hswap, hh.content p v]

/-! ## Pages -/

/-- **A page that is brought in** has its content in the new frame. -/
theorem newPage_spec (k₂ : Kernel) {pid v w : Nat} {e : EntryPtr} {x : Memory}
    (hh : Handed origin k k₁ dirs (some e) f) (he : pte? origin k dirs pid v = some e)
    (habsent : target origin (k.load e) = none) (hw : w < 2 ^ 32)
    (hwf : target origin w = some f) (hx : x = content origin k dirs pid v)
    (hmem : k₂.memory = Function.update (k₁.store e w).memory f x)
    (hmap : k₂.entryMapping = k₁.entryMapping) (hswap : k₂.swapFiles = k₁.swapFiles) :
    Frames origin k₂ dirs none ∧ SameTables origin k k₂ dirs ∧ k₂.load e = w ∧
    (∀ u, frame? origin k₂ dirs u = if u = .page pid v then some f else frame? origin k₁ dirs u) ∧
    ∀ p v, content origin k₂ dirs p v = content origin k dirs p v := by
  have hframes := hh.frames
  have he₁ : pte? origin k₁ dirs pid v = some e := (hh.tables.pte pid v).trans he
  have hdir : ∀ p, dirs p ≠ some f := fun p => hframes.unused f rfl (.dir p)
  have hef : e.frame ≠ f := by
    intro heq
    exact hframes.unused f rfl (.table pid (v / 1024)) (heq ▸ (pte?_eq_some.mp he₁).1)
  -- first the entry is written, then the frame
  have hsame₁ : SameTables origin k₁ (k₁.store e w) dirs := sameTables_of_pte hframes he₁ rfl
  have hsame₂ : SameTables origin (k₁.store e w) k₂ dirs := sameTables_of_data hdir hmem
  have hpte : ∀ p v, pte? origin k₂ dirs p v = pte? origin k₁ dirs p v := fun p v =>
    (hsame₂.pte p v).trans (hsame₁.pte p v)
  have hframe : ∀ u, frame? origin k₂ dirs u =
      if u = .page pid v then some f else frame? origin k₁ dirs u := by
    intro u
    rw [frame?_of_data (k := k₁.store e w) hdir ?_ hmem, frame?_of_pte hframes he₁ hw rfl, hwf]
    intro p i
    rw [hsame₁.table]
    exact hframes.unused f rfl (.table p i)
  have hload : ∀ e', e'.frame ≠ f → k₂.load e' = (k₁.store e w).load e' := fun e' hne =>
    load_congr (by rw [hmem, Function.update_of_ne hne])
  have hloade : k₂.load e = w := by rw [hload e hef, Kernel.load_store hw]
  have hnone : frame? origin k₁ dirs (.page pid v) = none := by
    rw [frame?_page he₁, hh.load e pid v rfl he, habsent]
  refine ⟨hframes.assign hh.bound (.page pid v) hnone hframe hmap ?_ ?_ hswap, ⟨?_, ?_⟩, hloade,
    hframe, ?_⟩
  · rw [hh.owner, owningEntry, hpte, he₁]
  · intro u _ _
    cases u with
    | page p v => exact hpte p v
    | _ => rfl
  · exact fun p i => ((hsame₂.table p i).trans (hsame₁.table p i)).trans (hh.tables.table p i)
  · exact fun p v => (hpte p v).trans (hh.tables.pte p v)
  · intro p v'
    cases he' : pte? origin k₁ dirs p v' with
    | none => rw [← hh.content p v', content, content, hpte, he']
    | some e' =>
      by_cases heq : e' = e
      · subst heq
        obtain ⟨rfl, rfl⟩ := hframes.pte_inj he' he₁
        rw [content_of_pte ((hpte p v').trans he'), hloade, hwf, ← hx, hmem]
        exact Function.update_self ..
      · have hef' : e'.frame ≠ f := by
          intro h
          exact hframes.unused f rfl (.table p (v' / 1024)) (h ▸ (pte?_eq_some.mp he').1)
        rw [← hh.content p v']
        refine content_congr he' ((hpte p v').trans he')
          (by rw [hload e' hef', Kernel.load_store_of_ne heq]) (fun g hg => ?_) fun _ => by rw [hswap]
        have hge : g ≠ e.frame := hframes.page_ne_table he' hg (pte?_eq_some.mp he₁).1
        have hgf : g ≠ f := by
          rintro rfl
          exact hframes.unused g rfl (.page p v') ((frame?_page he').trans hg)
        rw [hmem, Function.update_of_ne hgf, Kernel.memory_store_of_ne hge]

/-! ## Accesses -/

/-- Uses that stay where they are stay owned. -/
theorem Frames.of_same (h : Frames origin k dirs none)
    (hframe : ∀ u, frame? origin k₂ dirs u = frame? origin k dirs u)
    (hsame : SameTables origin k k₂ dirs) (hmap : k₂.entryMapping = k.entryMapping)
    (hswap : k₂.swapFiles = k.swapFiles) : Frames origin k₂ dirs none := by
  refine ⟨fun u g hu => h.bound u g (hframe u ▸ hu),
    fun u u' g hu hu' => h.inj u u' g (hframe u ▸ hu) (hframe u' ▸ hu'), ?_, ?_, by simp, ?_⟩
  · intro u g hu
    rw [hmap, h.owner u g (hframe u ▸ hu)]
    cases u with
    | page p v => rw [owningEntry, owningEntry, hsame.pte]
    | _ => rfl
  · intro g hg
    rw [hmap] at hg
    rcases h.owned g hg with heq | ⟨u, hu⟩
    · simp at heq
    · exact Or.inr ⟨u, (hframe u).trans hu⟩
  · intro e he
    rw [hswap] at he
    obtain ⟨p, i, ht⟩ := h.swap e he
    exact ⟨p, i, (hsame.table p i).trans ht⟩

/-- **Changing flags** of an entry changes no page. -/
theorem touch_spec {pid v w : Nat} {e : EntryPtr} (h : Frames origin k dirs none)
    (he : pte? origin k dirs pid v = some e) (hw : w < 2 ^ 32)
    (hwf : target origin w = target origin (k.load e)) :
    Frames origin (k.store e w) dirs none ∧ SameTables origin k (k.store e w) dirs ∧
    ∀ p v, content origin (k.store e w) dirs p v = content origin k dirs p v := by
  have hsame : SameTables origin k (k.store e w) dirs := sameTables_of_pte h he rfl
  have hframe : ∀ u, frame? origin (k.store e w) dirs u = frame? origin k dirs u := by
    intro u
    rw [frame?_of_pte h he hw rfl]
    split_ifs with hu
    · rw [hu, frame?_page he, hwf]
    · rfl
  refine ⟨h.of_same hframe hsame rfl rfl, hsame, ?_⟩
  intro p v'
  cases he' : pte? origin k dirs p v' with
  | none => rw [content, content, hsame.pte, he']
  | some e' =>
    have hload : target origin ((k.store e w).load e') = target origin (k.load e') := by
      by_cases heq : e' = e
      · rw [heq, Kernel.load_store hw, hwf]
      · rw [Kernel.load_store_of_ne heq]
    exact content_congr he' ((hsame.pte p v').trans he') hload
      (fun g hg => Kernel.memory_store_of_ne (h.page_ne_table he' hg (pte?_eq_some.mp he).1))
      fun _ => rfl

/-- **Writing to a page** changes this page. -/
theorem writePage_spec (k₂ : Kernel) {pid v : Nat} {e : EntryPtr} {x : Memory} (h : Frames origin k dirs none)
    (he : pte? origin k dirs pid v = some e) (hf : target origin (k.load e) = some f)
    (hmem : k₂.memory = Function.update k.memory f x) (hmap : k₂.entryMapping = k.entryMapping)
    (hswap : k₂.swapFiles = k.swapFiles) :
    Frames origin k₂ dirs none ∧ SameTables origin k k₂ dirs ∧ k₂.load e = k.load e ∧
    ∀ p v', content origin k₂ dirs p v' =
      if p = pid ∧ v' = v then x else content origin k dirs p v' := by
  have hpage : frame? origin k dirs (.page pid v) = some f := by
    rw [frame?_page he, hf]
  have hdir : ∀ p, dirs p ≠ some f := by
    intro p hp
    have := h.inj (.dir p) _ f hp hpage
    simp at this
  have htable : ∀ p i, tableFrame origin k dirs p i ≠ some f := by
    intro p i hp
    have := h.inj (.table p i) _ f hp hpage
    simp at this
  have hsame : SameTables origin k k₂ dirs := sameTables_of_data hdir hmem
  have hframe := frame?_of_data hdir htable hmem
  have hload : ∀ p v' e', pte? origin k dirs p v' = some e' → k₂.load e' = k.load e' := by
    intro p v' e' he'
    refine load_congr ?_
    rw [hmem, Function.update_of_ne]
    intro heq
    exact htable _ _ (heq ▸ (pte?_eq_some.mp he').1)
  refine ⟨h.of_same hframe hsame hmap hswap, hsame, hload pid v e he, ?_⟩
  intro p v'
  cases he' : pte? origin k dirs p v' with
  | none =>
    have hne : ¬ (p = pid ∧ v' = v) := by
      rintro ⟨rfl, rfl⟩
      simp [he] at he'
    rw [if_neg hne, content, content, hsame.pte, he']
  | some e' =>
    by_cases hp : p = pid ∧ v' = v
    · obtain ⟨rfl, rfl⟩ := hp
      obtain rfl : e = e' := Option.some.inj (he.symm.trans he')
      rw [content_of_pte ((hsame.pte p v').trans he'), hload p v' e he, if_pos ⟨rfl, rfl⟩, hf, hmem]
      exact Function.update_self ..
    · rw [if_neg hp]
      refine content_congr he' ((hsame.pte p v').trans he') (by rw [hload p v' e' he'])
        (fun g hg => ?_) fun _ => by rw [hswap]
      -- no two pages share a frame
      have hgf : g ≠ f := by
        rintro rfl
        obtain ⟨rfl, rfl⟩ := Use.page.inj (h.inj (.page p v') _ g ((frame?_page he').trans hg) hpage)
        exact hp ⟨rfl, rfl⟩
      rw [hmem, Function.update_of_ne hgf]

end SystemProgramming.Paging
