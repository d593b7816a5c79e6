import SystemProgramming.Paging.Coherence

/-!
# The TLB as an LRU cache

A lookup that hits moves its node to the front, and the access then puts another node for the
same page before it. So the TLB holds a page twice after the first hit. As long as no access hits,
the TLB holds the pages of the last accesses, and behind them the node of zeros with which it
starts, which counts as a node for page 0.

## Main definitions

* `accessStep`: a successful access, with a record of the pages accessed and of the misses
* `LateMisses`, `Lru`: what an LRU cache is to do
* `NeverRecent`: no access is to one of the last pages

## Main results

* `access_tlb`: what an access does to the TLB and to the count of its misses
* `tlb_lru_iff`: the TLB is an LRU cache in the runs in which no access hits
-/

namespace SystemProgramming.Paging

/-! ## Accesses of one process -/

/-- The page of an address. -/
def pageOf (virtualAddress : Nat) : Nat := virtualAddress / 4096

/-- A successful access. The record has the pages that were accessed, the last one first, and
whether the access was counted as a TLB miss. -/
def accessStep (origin : Fin (2 ^ 20)) (pid : Nat) (s : Machine × List (Nat × Bool))
    (a : Nat × Op) : Option (Machine × List (Nat × Bool)) := do
  let (r, m) ← mmuRwFromVirtualAddress origin s.1 pid a.1 a.2
  if r ≠ .segfault then some (m, (pageOf a.1, m.numTlbMisses ≠ s.1.numTlbMisses) :: s.2) else none

/-- An access to a page accessed before is a miss only if enough other pages were accessed since
then. -/
def LateMisses : List (Nat × Bool) → Prop
  | [] => True
  | (page, missed) :: before =>
    (missed = true → page ∈ before.map Prod.fst →
      maxNodes - 1 ≤ ((before.map Prod.fst).takeWhile (· ≠ page)).toFinset.card) ∧
    LateMisses before

/-- The TLB is an LRU cache of pages. -/
structure Lru (s : Machine × List (Nat × Bool)) : Prop where
  length : s.1.tlb.length ≤ maxNodes
  nodup : (s.1.tlb.map Prod.fst).Nodup
  late : LateMisses s.2

/-- The pages of the last nodes that were put into the TLB, after accesses to some pages, the last
one first. -/
def recent (pages : List Nat) : List Nat := (pages ++ [0]).take maxNodes

/-- No access is to a page of the last nodes. -/
def NeverRecent (accesses : List (Nat × Op)) : Prop :=
  ∀ before a, before ++ [a] <+: accesses →
    pageOf a.1 ∉ recent (before.map fun a => pageOf a.1).reverse

/-! ## What an access does to the TLB -/

section Access

variable {origin : Fin (2 ^ 20)} {m m' : Machine} {pid va : Nat} {op : Op}

/-- Only the kernel and the count of page faults change. -/
theorem loadTable_changes {pde : EntryPtr} (h : loadTable origin m pde = some m') :
    m' = { m with toKernel := m'.toKernel, numPageFaults := m'.numPageFaults } := by
  simp only [loadTable, Option.bind_eq_bind, Option.bind_eq_some_iff, Option.some.injEq] at h
  obtain ⟨_, _, rfl⟩ := h
  rfl

theorem loadPage_changes {pte : EntryPtr} (h : loadPage origin m pte = some m') :
    m' = { m with toKernel := m'.toKernel, numPageFaults := m'.numPageFaults } := by
  simp only [loadPage, Option.bind_eq_bind, Option.bind_eq_some_iff, Option.some.injEq] at h
  obtain ⟨_, _, rfl⟩ := h
  rfl

/-- The walk is counted as a TLB miss. -/
theorem walk_changes {e : EntryPtr} (h : walk origin m pid va = some (e, m')) :
    m'.tlb = m.tlb ∧ m'.currPid = m.currPid ∧ m'.numTlbMisses = m.numTlbMisses + 1 := by
  simp only [walk, Option.bind_eq_bind, Option.bind_eq_some_iff] at h
  obtain ⟨pd, -, h⟩ := h
  split_ifs at h
  · obtain rfl := congrArg Prod.snd (Option.some.inj h)
    exact ⟨rfl, rfl, rfl⟩
  · obtain ⟨m₁, hload, h⟩ := Option.bind_eq_some_iff.mp h
    obtain rfl := congrArg Prod.snd (Option.some.inj h)
    rw [loadTable_changes hload]
    exact ⟨rfl, rfl, rfl⟩

/-- **The TLB after an access**: it is looked up in, and a node is added for every access. -/
theorem access_tlb {r : Result} (h : access origin m pid va op = some (r, m')) :
    m'.currPid = m.currPid ∧
      ∃ pte, m'.tlb = tlbAddPte (tlbGetPte m.tlb (pageOf va)).2 (pageOf va) pte := by
  obtain ⟨pte, m₁, m₂, hlookup, hpage, hfinish⟩ := access_eq_some.mp h
  have h₁ : m₁.tlb = (tlbGetPte m.tlb (pageOf va)).2 ∧ m₁.currPid = m.currPid := by
    rcases hlookup with ⟨-, rfl⟩ | ⟨-, hwalk⟩
    · exact ⟨rfl, rfl⟩
    · exact ⟨(walk_changes hwalk).1, (walk_changes hwalk).2.1⟩
  have h₂ : m₂.tlb = m₁.tlb ∧ m₂.currPid = m₁.currPid := by
    rcases hpage with ⟨-, rfl⟩ | ⟨-, hload⟩
    · exact ⟨rfl, rfl⟩
    · rw [loadPage_changes hload]
      exact ⟨rfl, rfl⟩
  obtain rfl := congrArg Prod.snd hfinish
  refine ⟨h₂.2.trans h₁.2, pte, ?_⟩
  change tlbAddPte m₂.tlb _ pte = _
  rw [h₂.1, h₁.1]
  rfl

/-- A successful access of the current process. -/
theorem accessStep_spec {s s' : Machine × List (Nat × Bool)} {a : Nat × Op}
    (hpid : s.1.currPid = pid) (h : accessStep origin pid s a = some s') :
    s'.1.currPid = pid ∧ (∃ missed, s'.2 = (pageOf a.1, missed) :: s.2) ∧
      ∃ pte, s'.1.tlb = tlbAddPte (tlbGetPte s.1.tlb (pageOf a.1)).2 (pageOf a.1) pte := by
  have hsame : contextSwitch s.1 pid = s.1 := if_neg (not_not.mpr hpid.symm)
  simp only [accessStep, mmuRwFromVirtualAddress, hsame, Option.bind_eq_bind,
    Option.bind_eq_some_iff] at h
  obtain ⟨⟨r, m'⟩, ⟨segments, -, hrw⟩, h⟩ := h
  split_ifs at h with hr
  obtain rfl := Option.some.inj h
  cases hfind : findSegment segments a.1 with
  | none =>
    rw [hfind] at hrw
    exact absurd (congrArg Prod.fst (Option.some.inj hrw)).symm hr
  | some seg =>
    rw [hfind] at hrw
    dsimp only at hrw
    split_ifs at hrw
    · exact absurd (congrArg Prod.fst (Option.some.inj hrw)).symm hr
    · obtain ⟨hcurr, htlb⟩ := access_tlb hrw
      exact ⟨hcurr.trans hpid, ⟨_, rfl⟩, htlb⟩

end Access

/-! ## Nodes -/

section Nodes

variable {tlb : Tlb} {page : Nat} {pte : EntryPtr} {pages : List Nat}

/-- A miss leaves the TLB as it is. -/
theorem tlbGetPte_of_notMem (h : page ∉ tlb.map Prod.fst) : (tlbGetPte tlb page).2 = tlb := by
  have hfind : tlb.find? (fun node => node.1 = page) = none := by
    rw [List.find?_eq_none]
    intro node hnode heq
    exact h (List.mem_map.mpr ⟨node, hnode, of_decide_eq_true heq⟩)
  rw [tlbGetPte, hfind]

/-- A hit brings the page to the front. -/
theorem tlbGetPte_of_mem (h : page ∈ tlb.map Prod.fst) :
    ∃ rest, (tlbGetPte tlb page).2.map Prod.fst = page :: rest ∧ rest.length + 1 = tlb.length := by
  obtain ⟨node, hnode, hpage⟩ := List.mem_map.mp h
  obtain ⟨found, hfind⟩ : ∃ found, tlb.find? (fun node => node.1 = page) = some found := by
    rw [← Option.isSome_iff_exists, List.find?_isSome]
    exact ⟨node, hnode, decide_eq_true hpage⟩
  have hfound : found.1 = page := by simpa using List.find?_some hfind
  refine ⟨(tlb.eraseP fun node => node.1 = page).map Prod.fst, ?_, ?_⟩
  · rw [tlbGetPte, hfind, List.map_cons, hfound]
  · rw [List.length_map, List.length_eraseP_of_mem hnode (decide_eq_true hpage)]
    have := List.length_pos_of_mem hnode
    omega

/-- After a hit the page is in the TLB twice. -/
theorem not_nodup_of_mem (h : page ∈ tlb.map Prod.fst) :
    ¬ ((tlbAddPte (tlbGetPte tlb page).2 page pte).map Prod.fst).Nodup := by
  obtain ⟨rest, hfront, hlen⟩ := tlbGetPte_of_mem h
  have htwice : page ∈ (if maxNodes ≤ max 2 (tlbGetPte tlb page).2.length
      then (tlbGetPte tlb page).2.dropLast else (tlbGetPte tlb page).2).map Prod.fst := by
    split_ifs with hfull
    · -- the last node that goes is not the first one
      have hlength : (tlbGetPte tlb page).2.length = rest.length + 1 := by
        have := congrArg List.length hfront
        simpa using this
      have hne : rest ≠ [] := by
        rintro rfl
        rw [hlength] at hfull
        exact absurd hfull (by decide)
      rw [List.map_dropLast, hfront, List.dropLast_cons_of_ne_nil hne]
      exact List.mem_cons_self
    · rw [hfront]
      exact List.mem_cons_self
  rw [tlbAddPte, List.map_cons, List.nodup_cons]
  exact fun hnodup => hnodup.1 htwice

theorem recent_cons (page : Nat) (pages : List Nat) :
    recent (page :: pages) = page :: (pages ++ [0]).take (maxNodes - 1) := rfl

/-- After a miss the TLB holds the pages of the last accesses. -/
theorem tlbAddPte_recent (h : tlb.map Prod.fst = recent pages) :
    (tlbAddPte tlb page pte).map Prod.fst = recent (page :: pages) := by
  have hlen : tlb.length = min maxNodes (pages.length + 1) := by
    have hlength := congrArg List.length h
    simpa [recent] using hlength
  rw [tlbAddPte, List.map_cons, recent_cons]
  congr 1
  split_ifs with hfull
  · have hcount : min (min maxNodes (pages.length + 1) - 1) maxNodes = maxNodes - 1 := by
      have hmax : maxNodes = 16 := rfl
      omega
    rw [List.map_dropLast, h, recent, List.dropLast_eq_take, List.take_take, List.length_take,
      List.length_append, List.length_singleton, hcount]
  · -- the TLB is not full, and no node has gone
    have hshort : pages.length + 1 ≤ maxNodes - 1 := by
      have hmax : maxNodes = 16 := rfl
      omega
    rw [h, recent, List.take_of_length_le, List.take_of_length_le]
    · simpa using hshort
    · simp only [List.length_append, List.length_singleton]
      omega

end Nodes

/-! ## Runs -/

section Runs

variable {origin : Fin (2 ^ 20)} {pid : Nat} {s s' : Machine × List (Nat × Bool)} {a : Nat × Op}

/-- The TLB holds the pages of the last accesses, each once. -/
structure Window (pid : Nat) (s : Machine × List (Nat × Bool)) : Prop where
  current : s.1.currPid = pid
  nodes : s.1.tlb.map Prod.fst = recent (s.2.map Prod.fst)
  nodup : (recent (s.2.map Prod.fst)).Nodup
  late : LateMisses s.2

theorem Window.lru (h : Window pid s) : Lru s where
  length := by
    have hlength := congrArg List.length h.nodes
    rw [List.length_map] at hlength
    rw [hlength]
    exact List.length_take_le _ _
  nodup := h.nodes ▸ h.nodup
  late := h.late

/-- A page that was accessed, and not by one of the last accesses, has been followed by many
others. -/
theorem card_since {pages : List Nat} {page : Nat} (hnodup : (recent pages).Nodup)
    (hmem : page ∈ pages) (hnot : page ∉ recent pages) :
    maxNodes - 1 ≤ (pages.takeWhile (· ≠ page)).toFinset.card := by
  -- the last accesses are among those since the access to the page
  obtain ⟨since, before, rfl, hsince⟩ := List.eq_append_cons_of_mem hmem
  have hlong : maxNodes ≤ since.length := by
    by_contra hlt
    apply hnot
    rw [recent, List.append_assoc, List.take_append, List.cons_append]
    obtain ⟨k, hk⟩ : ∃ k, maxNodes - since.length = k + 1 := ⟨maxNodes - since.length - 1, by omega⟩
    rw [hk, List.take_succ_cons]
    exact List.mem_append_right _ List.mem_cons_self
  have hwindow : recent (since ++ page :: before) = since.take maxNodes := by
    rw [recent, List.append_assoc, List.take_append_of_le_length hlong]
  have htake : (since ++ page :: before).takeWhile (· ≠ page) = since := by
    rw [List.takeWhile_append_of_pos, List.takeWhile_cons_of_neg (by simp), List.append_nil]
    intro c hc
    exact decide_eq_true fun heq => hsince (heq ▸ hc)
  rw [htake]
  have hsub : (since.take maxNodes).toFinset ⊆ since.toFinset := by
    intro c hc
    rw [List.mem_toFinset] at hc ⊢
    exact List.mem_of_mem_take hc
  have hcard : (since.take maxNodes).toFinset.card = maxNodes := by
    rw [List.toFinset_card_of_nodup (hwindow ▸ hnodup), List.length_take_of_le hlong]
  have hle := Finset.card_le_card hsub
  omega

/-- An access that misses keeps the window. -/
theorem Window.step (h : Window pid s) (hnot : pageOf a.1 ∉ recent (s.2.map Prod.fst))
    (hs : accessStep origin pid s a = some s') : Window pid s' := by
  obtain ⟨hcurr, ⟨missed, hrecord⟩, pte, htlb⟩ := accessStep_spec h.current hs
  have hmiss : pageOf a.1 ∉ s.1.tlb.map Prod.fst := h.nodes ▸ hnot
  have hpages : s'.2.map Prod.fst = pageOf a.1 :: s.2.map Prod.fst := by rw [hrecord, List.map_cons]
  constructor
  case current => exact hcurr
  case nodes =>
    rw [htlb, tlbGetPte_of_notMem hmiss, tlbAddPte_recent h.nodes, hpages]
  case nodup =>
    have hsub : ((s.2.map Prod.fst ++ [0]).take (maxNodes - 1)).Sublist
        (recent (s.2.map Prod.fst)) := by
      rw [recent]
      exact (List.take_prefix_take_left (Nat.sub_le _ _)).sublist
    rw [hpages, recent_cons, List.nodup_cons]
    exact ⟨fun hmem => hnot (hsub.subset hmem), h.nodup.sublist hsub⟩
  case late =>
    rw [hrecord]
    exact ⟨fun _ hmem => card_since h.nodup hmem hnot, h.late⟩

/-- An access that hits puts its page into the TLB twice. -/
theorem Window.not_lru (h : Window pid s) (hmem : pageOf a.1 ∈ recent (s.2.map Prod.fst))
    (hs : accessStep origin pid s a = some s') : ¬ Lru s' := by
  obtain ⟨-, -, pte, htlb⟩ := accessStep_spec h.current hs
  intro hlru
  have hnodup := hlru.nodup
  rw [htlb] at hnodup
  exact not_nodup_of_mem (h.nodes ▸ hmem) hnodup

/-- The record of a run has the pages of its accesses. -/
theorem record_pages {m : Machine} {accesses : List (Nat × Op)} (hpid : m.currPid = pid)
    (hrun : run (accessStep origin pid) (m, []) accesses = some s) :
    s.1.currPid = pid ∧ s.2.map Prod.fst = (accesses.map fun a => pageOf a.1).reverse := by
  induction accesses using List.reverseRecOn generalizing s with
  | nil =>
    obtain rfl := Option.some.inj hrun
    exact ⟨hpid, rfl⟩
  | append_singleton accesses a ih =>
    obtain ⟨t, ht, hs⟩ := run_snoc_eq_some.mp hrun
    obtain ⟨hcurr, hpages⟩ := ih ht
    obtain ⟨hcurr', ⟨missed, hrecord⟩, -⟩ := accessStep_spec hcurr hs
    refine ⟨hcurr', ?_⟩
    rw [hrecord, List.map_cons, hpages, List.map_append, List.reverse_append]
    rfl

/-- **The TLB is an LRU cache in the runs in which no access hits.** A run begins where the process
is switched to, or with a new TLB. -/
theorem tlb_lru_iff (origin : Fin (2 ^ 20)) (m : Machine) (pid : Nat)
    (hstart : m.currPid ≠ pid ∨ m.tlb = tlbCreate) (accesses : List (Nat × Op))
    (s : Machine × List (Nat × Bool))
    (hrun : run (accessStep origin pid) (contextSwitch m pid, []) accesses = some s) :
    (∀ t, Visits (accessStep origin pid) (contextSwitch m pid, []) accesses t → Lru t) ↔
      NeverRecent accesses := by
  have hpid : (contextSwitch m pid).currPid = pid := by
    rw [contextSwitch]
    split_ifs with hne
    · rfl
    · exact (not_not.mp hne).symm
  have htlb : (contextSwitch m pid).tlb = tlbCreate := by
    rw [contextSwitch]
    split_ifs with hne
    · rfl
    · exact hstart.resolve_left fun h => hne (Ne.symm h)
  have hwindow : Window pid (contextSwitch m pid, []) :=
    ⟨hpid, by rw [htlb]; rfl, List.nodup_singleton 0, trivial⟩
  rw [forall_visits_iff (C := fun s a => pageOf a.1 ∉ recent (s.2.map Prod.fst)) hwindow
    (fun _ _ _ h hnot hs => h.step hnot hs) (fun _ h => h.lru)
    (fun _ _ _ h hmem hs => h.not_lru (not_not.mp hmem) hs) hrun]
  constructor
  · intro h before a hprefix
    obtain ⟨t, ht⟩ := exists_run_of_prefix ((List.prefix_append before [a]).trans hprefix) hrun
    rw [← (record_pages hpid ht).2]
    exact h t a ⟨before, hprefix, ht⟩
  · rintro h t a ⟨before, hprefix, ht⟩
    rw [(record_pages hpid ht).2]
    exact h before a hprefix

end Runs

/-- A process that was added to a new machine makes two accesses. -/
theorem exists_accesses (accesses : List (Nat × Op))
    (h : accesses = [(4096, .read 1), (8192, .read 1)] ∨
      accesses = [(4096, .read 1), (4096, .read 1)]) :
    ∃ m s, mmuAddProcess 5 Machine.create 1 = some m ∧
      run (accessStep 5 1) (contextSwitch m 1, []) accesses = some s ∧
      (s.1.tlb.map Prod.fst) = accesses.reverse.map (fun a => pageOf a.1) ++ [0] := by
  have hpages : ((mmuAddProcess 5 Machine.create 1).bind fun m =>
      (run (accessStep 5 1) (contextSwitch m 1, []) accesses).map fun s =>
        s.1.tlb.map Prod.fst) = some (accesses.reverse.map (fun a => pageOf a.1) ++ [0]) := by
    rcases h with rfl | rfl <;> decide +kernel
  obtain ⟨m, hm, hrun⟩ := Option.bind_eq_some_iff.mp hpages
  obtain ⟨s, hs, hpages⟩ := Option.map_eq_some_iff.mp hrun
  exact ⟨m, s, hm, hs, hpages⟩

theorem currPid_mmuAddProcess {origin : Fin (2 ^ 20)} {pid : Nat} {m m' : Machine}
    (h : mmuAddProcess origin m pid = some m') : m'.currPid = m.currPid := by
  simp only [mmuAddProcess, Option.bind_eq_bind, Option.bind_eq_some_iff, Option.some.injEq] at h
  obtain ⟨_, _, _, _, _, _, _, _, rfl⟩ := h
  rfl

/-- Two pages. -/
theorem tlb_lru_iff_two : ∃ m s, mmuAddProcess 5 Machine.create 1 = some m ∧
    run (accessStep 5 1) (contextSwitch m 1, []) [(4096, .read 1), (8192, .read 1)] = some s ∧
    ((∀ t, Visits (accessStep 5 1) (contextSwitch m 1, []) [(4096, .read 1), (8192, .read 1)] t →
      Lru t) ↔ NeverRecent [(4096, .read 1), (8192, .read 1)]) := by
  obtain ⟨m, s, hm, hs, -⟩ := exists_accesses _ (Or.inl rfl)
  have hcurr : m.currPid ≠ 1 := by
    rw [currPid_mmuAddProcess hm]
    decide
  exact ⟨m, s, hm, hs, tlb_lru_iff 5 m 1 (Or.inl hcurr) _ s hs⟩

/-- One page, read twice. -/
theorem not_lru_twice : ∃ m s, mmuAddProcess 5 Machine.create 1 = some m ∧ m.currPid ≠ 1 ∧
    run (accessStep 5 1) (contextSwitch m 1, []) [(4096, .read 1), (4096, .read 1)] = some s ∧
    ¬ Lru s := by
  obtain ⟨m, s, hm, hs, hpages⟩ := exists_accesses _ (Or.inr rfl)
  have hcurr : m.currPid ≠ 1 := by
    rw [currPid_mmuAddProcess hm]
    decide
  refine ⟨m, s, hm, hcurr, hs, fun hlru => ?_⟩
  have hnodup := hlru.nodup
  rw [hpages] at hnodup
  exact absurd hnodup (by decide)

end SystemProgramming.Paging
