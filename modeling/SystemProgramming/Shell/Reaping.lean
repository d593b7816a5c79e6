import SystemProgramming.Shell.Processes

/-!
# Who erases the entry of a child

A child that was waited for is looked up in the table, and the shell ends when it is not there.
Two kinds of children are not: the one that was just forked, before its entry is stored, and one
whose entry the built-in `kill` has erased, since that child still has to be waited for. When the
handler never finds such a child among those that have exited, every child has its entry erased
once, by the one who waits for it or by the built-in.

## Main definitions

* `Accounted s`: no lookup has failed, and every child is removed exactly once
* `ReapsListed s i`: the handler meets no child whose entry is not in the table
* `Inv s`: what the table, the children and the phase have to do with each other

## Main results

* `Inv.step`: steps that reap listed children keep the invariant
* `accounted_iff`: a run is accounted for exactly when its handlers reap listed children only
-/

namespace SystemProgramming.Shell

/-! ## What is promised -/

/-- `delete_process` has found every process id so far, no launch was removed twice, and at the
prompt the launches of children that were waited for are removed. -/
structure Accounted (s : State) : Prop where
  found : s.phase ≠ .aborted
  once : ∀ k, s.removed.count k ≤ 1
  gone : s.phase = .prompt → ∀ k < s.launches, (∀ c ∈ s.children, c.launch ≠ k) →
    s.removed.count k = 1

/-- The process id of a child whose entry is not stored yet. -/
def Phase.launching : Phase → Option Pid
  | .forked p => some p.pid
  | _ => none

/-- The child was not erased by the built-in `kill`, and is not about to be stored. -/
def Listed (s : State) (c : Child) : Prop :=
  c.launch ∉ s.killed ∧ s.phase.launching ≠ some c.pid

instance (s : State) (c : Child) : Decidable (Listed s c) := inferInstanceAs (Decidable (_ ∧ _))

/-- When the signal is handled, the children that have exited are listed. -/
def ReapsListed (s : State) : Input → Prop
  | .sigchld _ => ∀ c ∈ s.children, c.state = .exited → Listed s c
  | _ => True

instance (s : State) (i : Input) : Decidable (ReapsListed s i) :=
  match i with
  | .sigchld _ => inferInstanceAs (Decidable (∀ c ∈ s.children, _))
  | .execute _ _ | .pushBack | .setpgid _ | .waitpid | .delete | .builtin _ _ | .remove
  | .exit _ => inferInstanceAs (Decidable True)

/-! ## The vector -/

variable {s s' t : State} {p : Process} {c : Child} {pid : Pid} {order : List Pid} {i : Input}

/-- The entry of a process id is found and erased. -/
theorem deleteProcess_eq (hnodup : (s.processes.map Process.pid).Nodup) (hp : p ∈ s.processes) :
    s.position p.pid ≠ none ∧ s.deleteProcess p.pid = some { s with
      processes := s.processes.filter (·.pid ≠ p.pid), removed := s.removed ++ [p.launch] } := by
  obtain ⟨l, r, hlr⟩ := List.append_of_mem hp
  rw [hlr, List.map_append, List.map_cons] at hnodup
  have hl : ∀ q ∈ l, q.pid ≠ p.pid := by
    intro q hq heq
    exact (List.nodup_append.mp hnodup).2.2 q.pid (List.mem_map_of_mem hq) p.pid (by simp) heq
  have hr : ∀ q ∈ r, q.pid ≠ p.pid := by
    intro q hq heq
    have := (List.nodup_cons.mp (List.nodup_append.mp hnodup).2.1).1
    exact this (heq ▸ List.mem_map_of_mem hq)
  have hpos : s.position p.pid = some l.length := by
    rw [State.position, hlr, List.findIdx?_append]
    have hnone : l.findIdx? (fun q => decide (q.pid = p.pid)) = none := by
      simpa [List.findIdx?_eq_none_iff] using hl
    simp [hnone, List.findIdx?_cons]
  refine ⟨by simp [hpos], ?_⟩
  have hget : s.processes[l.length]? = some p := by simp [hlr]
  have herase : s.processes.eraseIdx l.length = l ++ r := by
    rw [hlr, List.eraseIdx_append_of_length_le (le_refl _)]
    simp
  have hfilter : s.processes.filter (·.pid ≠ p.pid) = l ++ r := by
    rw [hlr, List.filter_append, List.filter_cons_of_neg (by simp),
      List.filter_eq_self.mpr (by simpa using hl), List.filter_eq_self.mpr (by simpa using hr)]
  rw [State.deleteProcess, hpos, Option.getD_some, State.vectorErase, hget, herase, hfilter,
    Option.map_some]

theorem position_eq_none (hpid : ∀ p ∈ s.processes, p.pid ≠ pid) : s.position pid = none := by
  simpa [State.position, List.findIdx?_eq_none_iff] using hpid

/-- An id without an entry: the index is outside of the vector. -/
theorem deleteProcess_eq_none (hlen : s.processes.length < 2 ^ 64)
    (hpid : ∀ p ∈ s.processes, p.pid ≠ pid) : s.deleteProcess pid = none := by
  rw [State.deleteProcess, position_eq_none hpid, Option.getD_none, State.vectorErase,
    List.getElem?_eq_none (by omega), Option.map_none]

theorem removeProcess_eq (hnodup : (s.processes.map Process.pid).Nodup) (hp : p ∈ s.processes) :
    s.removeProcess p.pid = s.deleteProcess p.pid := by
  obtain ⟨hpos, -⟩ := deleteProcess_eq hnodup hp
  rw [State.removeProcess, State.deleteProcess]
  cases h : s.position p.pid with
  | none => exact absurd h hpos
  | some i => rfl

/-- Whatever `delete_process` does, it adds no entries. -/
theorem mem_of_deleteProcess (hd : s.deleteProcess pid = some t) (hp : p ∈ t.processes) :
    p ∈ s.processes := by
  obtain ⟨q, -, rfl⟩ := Option.map_eq_some_iff.mp hd
  exact List.mem_of_mem_eraseIdx hp

theorem length_of_deleteProcess (hd : s.deleteProcess pid = some t) :
    t.processes.length ≤ s.processes.length := by
  obtain ⟨q, -, rfl⟩ := Option.map_eq_some_iff.mp hd
  exact List.length_eraseIdx_le _ _

/-- The handler fails when it waits for a child without an entry. -/
theorem handler_eq_none (hlen : s.processes.length < 2 ^ 64) (hmem : pid ∈ order)
    (hpid : ∀ p ∈ s.processes, p.pid ≠ pid) :
    s.waitForAllBackgroundChildProcesses order = none := by
  induction order generalizing s with
  | nil => simp at hmem
  | cons x order ih =>
    rw [State.waitForAllBackgroundChildProcesses, List.foldlM_cons]
    cases hd : (s.reap x).deleteProcess x with
    | none => rfl
    | some t =>
      have hsub : ∀ p ∈ t.processes, p.pid ≠ pid := fun p hp =>
        hpid p (mem_of_deleteProcess (s := s.reap x) hd hp)
      have hlen' : t.processes.length < 2 ^ 64 := (length_of_deleteProcess hd).trans_lt hlen
      rcases List.mem_cons.mp hmem with rfl | hmem
      · rw [deleteProcess_eq_none (s := s.reap pid) hlen hpid] at hd
        simp at hd
      · exact ih hlen' hmem hsub

/-! ## The invariant -/

/-- What entries and children are compared by. -/
def Process.key (p : Process) : Pid × Nat := (p.pid, p.launch)

def Child.key (c : Child) : Pid × Nat := (c.pid, c.launch)

/-- The child that `execute_command` is working on. -/
def Phase.current : Phase → Option Pid
  | .forked p => some p.pid
  | .pushed _ child => some child
  | .waiting child => some child
  | _ => none

/-- The launches whose entry is not stored yet. -/
def Phase.unpushed : Phase → List Nat
  | .forked p => [p.launch]
  | _ => []

/-- Neither a child nor an entry is about to be stored or erased. -/
def Phase.Calm : Phase → Prop
  | .forked _ => False
  | .waited _ => False
  | _ => True

namespace Phase.Calm

variable {phase : Phase}

theorem ne_forked (h : phase.Calm) (p : Process) : phase ≠ .forked p := by
  rintro rfl
  exact h

theorem ne_waited (h : phase.Calm) (pid : Pid) : phase ≠ .waited pid := by
  rintro rfl
  exact h

theorem launching (h : phase.Calm) : phase.launching = none := by
  cases phase <;> first | rfl | exact h.elim

theorem unpushed (h : phase.Calm) : phase.unpushed = [] := by
  cases phase <;> first | rfl | exact h.elim

end Phase.Calm

/-- What the table, the children and the phase have to do with each other. Entries belong to
children, but for the one that was just waited for; and children have entries, but for those that
the built-in `kill` has erased and the one that was just forked. -/
structure Inv (s : State) : Prop where
  pids : (s.processes.map Process.pid).Nodup
  range : ∀ p ∈ s.processes, 0 < p.pid ∧ p.pid < 2 ^ 31
  children : (s.children.map Child.pid).Nodup
  entry : ∀ p ∈ s.processes, p.key ∈ s.children.map Child.key ∨ s.phase = .waited p.pid
  child : ∀ c ∈ s.children, c.key ∈ s.processes.map Process.key ∨ c.launch ∈ s.killed ∨
    s.phase.launching = some c.pid
  forked : ∀ p, s.phase = .forked p → p.key ∈ s.children.map Child.key ∧
    (0 < p.pid ∧ p.pid < 2 ^ 31) ∧ ∀ q ∈ s.processes, q.pid ≠ p.pid
  waited : ∀ pid, s.phase = .waited pid →
    (∃ p ∈ s.processes, p.pid = pid) ∧ ∀ c ∈ s.children, c.pid ≠ pid
  current : ∀ c ∈ s.children, s.phase.current = some c.pid → c.launch ∉ s.killed
  killed : ∀ k ∈ s.killed, k ∈ s.removed
  launches : (s.removed ++ s.processes.map Process.launch ++ s.phase.unpushed).Perm
    (List.range s.launches)

namespace Inv

theorem start : Inv State.start := by
  constructor <;> simp [State.start, Phase.unpushed, Phase.current]

/-- Process ids are few, so the index of an id that is not found is outside of the table. -/
theorem length_lt (h : Inv s) : s.processes.length < 2 ^ 64 := by
  have hsub : (s.processes.map Process.pid).toFinset ⊆ Finset.Ioo 0 (2 ^ 31) := by
    intro x hx
    obtain ⟨p, hp, rfl⟩ := List.mem_map.mp (List.mem_toFinset.mp hx)
    exact Finset.mem_Ioo.mpr (h.range p hp)
  have hcard := Finset.card_le_card hsub
  rw [List.toFinset_card_of_nodup h.pids, List.length_map, Int.card_Ioo] at hcard
  omega

/-- A launch is removed, stored or about to be stored, one of the three, and once. -/
theorem nodup (h : Inv s) :
    (s.removed ++ s.processes.map Process.launch ++ s.phase.unpushed).Nodup :=
  h.launches.nodup_iff.mpr List.nodup_range

theorem child_eq (h : Inv s) {c d : Child} (hc : c ∈ s.children) (hd : d ∈ s.children)
    (heq : c.pid = d.pid) : c = d := List.inj_on_of_nodup_map h.children hc hd heq

/-- The invariant accounts for every launch. -/
theorem accounted (h : Inv s) (hs : s.phase ≠ .aborted) : Accounted s := by
  refine ⟨hs, fun k => ?_, fun hprompt k hk hgone => ?_⟩
  · have hnodup : s.removed.Nodup := (List.nodup_append.mp (List.nodup_append.mp h.nodup).1).1
    exact List.nodup_iff_count_le_one.mp hnodup k
  · have hmem := h.launches.mem_iff.mpr (List.mem_range.mpr hk)
    have hnodup := h.nodup
    have hunpushed : s.phase.unpushed = [] := by
      rw [hprompt]
      rfl
    rw [hunpushed, List.append_nil] at hmem hnodup
    refine List.count_eq_one_of_mem (List.nodup_append.mp hnodup).1 ?_
    rcases List.mem_append.mp hmem with hrem | hent
    · exact hrem
    · -- an entry at the prompt belongs to a child
      obtain ⟨p, hp, rfl⟩ := List.mem_map.mp hent
      rcases h.entry p hp with hc | hw
      · obtain ⟨c, hc, hkey⟩ := List.mem_map.mp hc
        exact absurd (congrArg Prod.snd hkey) (hgone c hc)
      · simp [hprompt] at hw

/-- Children that are listed have an entry, the others do not. -/
theorem listed_iff (h : Inv s) (hc : c ∈ s.children) :
    Listed s c ↔ ∃ p ∈ s.processes, p.pid = c.pid := by
  constructor
  · rintro ⟨hkilled, hlaunch⟩
    rcases h.child c hc with hent | hk | hl
    · obtain ⟨p, hp, hkey⟩ := List.mem_map.mp hent
      exact ⟨p, hp, congrArg Prod.fst hkey⟩
    · exact absurd hk hkilled
    · exact absurd hl hlaunch
  · rintro ⟨p, hp, hpid⟩
    refine ⟨fun hk => ?_, fun hl => ?_⟩
    · rcases h.entry p hp with hent | hw
      · -- the entry would be of the same launch, which is removed
        obtain ⟨d, hd, hkey⟩ := List.mem_map.mp hent
        obtain rfl := h.child_eq hd hc ((congrArg Prod.fst hkey).trans hpid)
        have hlaunch : p.launch = d.launch := (congrArg Prod.snd hkey).symm
        exact (List.nodup_append.mp (List.nodup_append.mp h.nodup).1).2.2 d.launch (h.killed _ hk)
          p.launch (List.mem_map_of_mem hp) hlaunch.symm
      · exact (h.waited _ hw).2 c hc hpid.symm
    · cases hphase : s.phase with
      | forked q =>
        rw [hphase] at hl
        have hq : q.pid = c.pid := Option.some.inj hl
        exact (h.forked q hphase).2.2 p hp (hpid.trans hq.symm)
      | _ => simp [hphase, Phase.launching] at hl

/-! ## One step at a time -/

/-- A new child. -/
theorem execute (h : Inv s) (hs : s.phase = .prompt) (hpid : s.Fresh pid) {buffer : List UInt8} :
    Inv { s with
      children := s.children ++ [⟨pid, s.launches, .running⟩]
      phase := .forked ⟨buffer, pid, s.launches⟩
      launches := s.launches + 1 } := by
  obtain ⟨hpos, hlt, hfresh⟩ := hpid
  have hold : ∀ k ∈ s.killed, k < s.launches := fun k hk =>
    List.mem_range.mp (h.launches.mem_iff.mp (by simp [h.killed k hk]))
  have hunpushed : s.phase.unpushed = [] := by
    rw [hs]
    rfl
  -- at the prompt every entry belongs to a child, and the id is that of none
  have hentry : ∀ p ∈ s.processes, p.key ∈ s.children.map Child.key := fun p hp =>
    (h.entry p hp).resolve_right (by simp [hs])
  have hnew : ∀ p ∈ s.processes, p.pid ≠ pid := by
    intro p hp heq
    obtain ⟨c, hc, hkey⟩ := List.mem_map.mp (hentry p hp)
    exact hfresh c hc ((congrArg Prod.fst hkey).trans heq)
  constructor
  case pids => exact h.pids
  case range => exact h.range
  case children =>
    rw [List.map_append, List.nodup_append]
    refine ⟨h.children, by simp, ?_⟩
    simpa using hfresh
  case entry =>
    intro p hp
    left
    rw [List.map_append]
    exact List.mem_append_left _ (hentry p hp)
  case child =>
    intro c hc
    rcases List.mem_append.mp hc with hc | hc
    · rcases h.child c hc with hent | hk | hl
      · exact Or.inl hent
      · exact Or.inr (Or.inl hk)
      · simp [hs, Phase.launching] at hl
    · obtain rfl := List.mem_singleton.mp hc
      exact Or.inr (Or.inr rfl)
  case forked =>
    rintro p hp
    obtain rfl := Phase.forked.inj hp
    exact ⟨by simp [Process.key, Child.key], ⟨hpos, hlt⟩, hnew⟩
  case waited =>
    rintro pid ⟨⟩
  case current =>
    rintro c hc hcur hk
    rcases List.mem_append.mp hc with hc | hc
    · exact hfresh c hc (Option.some.inj hcur).symm
    · obtain rfl := List.mem_singleton.mp hc
      exact absurd (hold _ hk) (lt_irrefl _)
  case killed => exact h.killed
  case launches =>
    have hperm := h.launches
    rw [hunpushed, List.append_nil] at hperm
    rw [List.range_succ]
    exact hperm.append_right _

/-- The entry of the new child is stored. -/
theorem pushBack (h : Inv s) (hs : s.phase = .forked p) :
    Inv { s with processes := s.processes ++ [p], phase := .pushed p.command p.pid } := by
  obtain ⟨hkey, hrange, hnew⟩ := h.forked p hs
  have hunpushed : s.phase.unpushed = [p.launch] := by
    rw [hs]
    rfl
  constructor
  case pids =>
    rw [List.map_append, List.nodup_append]
    refine ⟨h.pids, by simp, ?_⟩
    simpa using hnew
  case range =>
    intro q hq
    rcases List.mem_append.mp hq with hq | hq
    · exact h.range q hq
    · obtain rfl := List.mem_singleton.mp hq
      exact hrange
  case children => exact h.children
  case entry =>
    intro q hq
    rcases List.mem_append.mp hq with hq | hq
    · exact Or.inl ((h.entry q hq).resolve_right (by simp [hs]))
    · obtain rfl := List.mem_singleton.mp hq
      exact Or.inl hkey
  case child =>
    intro c hc
    rcases h.child c hc with hent | hk | hl
    · left
      rw [List.map_append]
      exact List.mem_append_left _ hent
    · exact Or.inr (Or.inl hk)
    · -- the child that was about to be stored
      obtain ⟨d, hd, hdkey⟩ := List.mem_map.mp hkey
      rw [hs] at hl
      have hpid : d.pid = c.pid := (congrArg Prod.fst hdkey).trans (Option.some.inj hl)
      obtain rfl := h.child_eq hd hc hpid
      left
      rw [hdkey]
      simp
  case forked => rintro q ⟨⟩
  case waited => rintro pid ⟨⟩
  case current =>
    intro c hc hcur
    refine h.current c hc ?_
    rw [hs]
    exact hcur
  case killed => exact h.killed
  case launches =>
    have hperm := h.launches
    rw [hunpushed] at hperm
    simpa [Phase.unpushed] using hperm

/-- The shell goes on to a phase in which it works on the same child, or on none. -/
theorem setPhase (h : Inv s) {phase : Phase} (hs : s.phase.Calm) (hp : phase.Calm)
    (hcur : ∀ pid, phase.current = some pid → s.phase.current = some pid) :
    Inv { s with phase := phase } where
  pids := h.pids
  range := h.range
  children := h.children
  entry := fun p hp => Or.inl ((h.entry p hp).resolve_right (hs.ne_waited p.pid))
  child := fun c hc => by
    rcases h.child c hc with hent | hk | hl
    · exact Or.inl hent
    · exact Or.inr (Or.inl hk)
    · simp [hs.launching] at hl
  forked := fun p hq => absurd hq (hp.ne_forked p)
  waited := fun pid hq => absurd hq (hp.ne_waited pid)
  current := fun c hc hc' => h.current c hc (hcur _ hc')
  killed := h.killed
  launches := by
    have hperm := h.launches
    rw [hs.unpushed] at hperm
    rwa [hp.unpushed]

/-- The shell is back at the prompt. -/
theorem prompt (h : Inv s) (hs : s.phase.Calm) : Inv { s with phase := .prompt } :=
  h.setPhase hs trivial (by simp [Phase.current])

/-- What the children do changes nothing. -/
theorem congr_children (h : Inv s) {children : List Child}
    (hkeys : children.map Child.key = s.children.map Child.key) :
    Inv { s with children := children } := by
  have hmem : ∀ c ∈ children, ∃ d ∈ s.children, d.pid = c.pid ∧ d.launch = c.launch := by
    intro c hc
    have hkey := List.mem_map_of_mem (f := Child.key) hc
    rw [hkeys] at hkey
    obtain ⟨d, hd, hkey⟩ := List.mem_map.mp hkey
    exact ⟨d, hd, congrArg Prod.fst hkey, congrArg Prod.snd hkey⟩
  have hpids : children.map Child.pid = s.children.map Child.pid := by
    have := congrArg (List.map Prod.fst) hkeys
    simpa [List.map_map, Function.comp_def, Child.key] using this
  constructor
  case pids => exact h.pids
  case range => exact h.range
  case children =>
    rw [hpids]
    exact h.children
  case entry =>
    intro p hp
    rw [hkeys]
    exact h.entry p hp
  case child =>
    intro c hc
    obtain ⟨d, hd, hpid, hlaunch⟩ := hmem c hc
    have hkey : c.key = d.key := by rw [Child.key, Child.key, hpid, hlaunch]
    rw [hkey, ← hpid, ← hlaunch]
    exact h.child d hd
  case forked =>
    intro p hp
    rw [hkeys]
    exact h.forked p hp
  case waited =>
    intro pid hp
    refine ⟨(h.waited pid hp).1, fun c hc => ?_⟩
    obtain ⟨d, hd, hpid, -⟩ := hmem c hc
    exact hpid ▸ (h.waited pid hp).2 d hd
  case current =>
    intro c hc hcur
    obtain ⟨d, hd, hpid, hlaunch⟩ := hmem c hc
    rw [← hlaunch]
    exact h.current d hd (hpid ▸ hcur)
  case killed => exact h.killed
  case launches => exact h.launches

theorem mem_reap : c ∈ (s.reap pid).children ↔ c ∈ s.children ∧ c.pid ≠ pid := by
  simp [State.reap, List.mem_filter]

theorem nodup_reap (h : Inv s) : ((s.reap pid).children.map Child.pid).Nodup :=
  h.children.sublist (List.filter_sublist.map _)

/-- An entry of another process id is of a child that is still there. -/
theorem entry_reap (h : Inv s) (hp : p ∈ s.processes) (hne : p.pid ≠ pid) :
    p.key ∈ (s.reap pid).children.map Child.key ∨ s.phase = .waited p.pid := by
  refine (h.entry p hp).imp_left fun hent => ?_
  obtain ⟨c, hc, hkey⟩ := List.mem_map.mp hent
  have hpid : c.pid = p.pid := congrArg Prod.fst hkey
  exact List.mem_map.mpr ⟨c, mem_reap.mpr ⟨hc, hpid ▸ hne⟩, hkey⟩

/-- The foreground child is waited for; its entry is still there. -/
theorem waitpid (h : Inv s) (hs : s.phase = .waiting pid) (hc : c ∈ s.children)
    (hpid : c.pid = pid) : Inv { s.reap pid with phase := .waited pid } := by
  have hlisted : Listed s c := ⟨h.current c hc (by rw [hs, hpid]; rfl), by
    rw [hs]
    simp [Phase.launching]⟩
  obtain ⟨p, hp, hpc⟩ := (h.listed_iff hc).mp hlisted
  constructor
  case pids => exact h.pids
  case range => exact h.range
  case children => exact h.nodup_reap
  case entry =>
    intro q hq
    by_cases hqp : q.pid = pid
    · right
      rw [hqp]
    · exact Or.inl ((h.entry_reap hq hqp).resolve_right (by simp [hs]))
  case child =>
    intro d hd
    rcases h.child d (mem_reap.mp hd).1 with hent | hk | hl
    · exact Or.inl hent
    · exact Or.inr (Or.inl hk)
    · simp [hs, Phase.launching] at hl
  case forked => rintro q ⟨⟩
  case waited =>
    intro pid' hp'
    obtain rfl := Phase.waited.inj hp'
    exact ⟨⟨p, hp, hpc.trans hpid⟩, fun d hd => (mem_reap.mp hd).2⟩
  case current => rintro d - ⟨⟩
  case killed => exact h.killed
  case launches =>
    have hperm := h.launches
    rw [hs] at hperm
    exact hperm

theorem perm_filter (h : Inv s) (hp : p ∈ s.processes) :
    s.processes.Perm (p :: s.processes.filter (·.pid ≠ p.pid)) := by
  have hnodup : s.processes.Nodup := h.pids.of_map _
  refine (List.perm_ext_iff_of_nodup hnodup ?_).mpr fun q => ?_
  · exact List.nodup_cons.mpr ⟨by simp [List.mem_filter], hnodup.filter _⟩
  · rw [List.mem_cons, List.mem_filter]
    constructor
    · intro hq
      by_cases hqp : q.pid = p.pid
      · exact Or.inl (List.inj_on_of_nodup_map h.pids hq hp hqp)
      · exact Or.inr ⟨hq, by simpa using hqp⟩
    · rintro (rfl | hq)
      · exact hp
      · exact hq.1

/-- The launches, when one moves from the table to those that are removed. -/
theorem launches_erase (h : Inv s) (hp : p ∈ s.processes) :
    (s.removed ++ [p.launch] ++ (s.processes.filter (·.pid ≠ p.pid)).map Process.launch ++
      s.phase.unpushed).Perm (List.range s.launches) := by
  refine List.Perm.trans ?_ h.launches
  rw [List.append_assoc s.removed]
  exact (((h.perm_filter hp).symm.map Process.launch).append_left _).append_right _

/-- The entry of a listed child is erased by the one who waits for it. -/
theorem reap_delete (h : Inv s) (hc : c ∈ s.children) (hp : p ∈ s.processes)
    (hpid : p.pid = c.pid) :
    ∃ t, (s.reap c.pid).deleteProcess c.pid = some t ∧ Inv t ∧ t.phase = s.phase ∧
      t.children = (s.reap c.pid).children ∧ t.processes = s.processes.filter (·.pid ≠ c.pid) := by
  have hnw : s.phase ≠ .waited c.pid := fun hw => (h.waited _ hw).2 c hc rfl
  have hlisted := (h.listed_iff hc).mpr ⟨p, hp, hpid⟩
  obtain ⟨-, hdel⟩ := deleteProcess_eq (s := s.reap c.pid) h.pids hp
  rw [hpid] at hdel
  refine ⟨_, hdel, ?_, rfl, rfl, rfl⟩
  have hmem : ∀ q, q ∈ s.processes.filter (·.pid ≠ c.pid) ↔ q ∈ s.processes ∧ q.pid ≠ c.pid := by
    simp [List.mem_filter]
  constructor
  case pids => exact h.pids.sublist (List.filter_sublist.map _)
  case range => exact fun q hq => h.range q ((hmem q).mp hq).1
  case children => exact h.nodup_reap
  case entry => exact fun q hq => h.entry_reap ((hmem q).mp hq).1 ((hmem q).mp hq).2
  case child =>
    intro d hd
    obtain ⟨hd, hne⟩ := mem_reap.mp hd
    refine (h.child d hd).imp_left fun hent => ?_
    obtain ⟨q, hq, hkey⟩ := List.mem_map.mp hent
    have hqd : q.pid = d.pid := congrArg Prod.fst hkey
    exact List.mem_map.mpr ⟨q, (hmem q).mpr ⟨hq, hqd ▸ hne⟩, hkey⟩
  case forked =>
    intro q hq
    obtain ⟨hkey, hrange, hnew⟩ := h.forked q hq
    refine ⟨?_, hrange, fun r hr => hnew r ((hmem r).mp hr).1⟩
    obtain ⟨d, hd, hdkey⟩ := List.mem_map.mp hkey
    refine List.mem_map.mpr ⟨d, mem_reap.mpr ⟨hd, fun hdc => hlisted.2 ?_⟩, hdkey⟩
    have hphase : s.phase = .forked q := hq
    rw [hphase, ← hdc]
    exact congrArg some (congrArg Prod.fst hdkey).symm
  case waited =>
    intro pid hw
    obtain ⟨⟨q, hq, hqp⟩, hgone⟩ := h.waited pid hw
    refine ⟨⟨q, (hmem q).mpr ⟨hq, fun hqc => hnw ?_⟩, hqp⟩, fun d hd => hgone d (mem_reap.mp hd).1⟩
    rw [← hqc, hqp]
    exact hw
  case current => exact fun d hd => h.current d (mem_reap.mp hd).1
  case killed => exact fun k hk => List.mem_append_left _ (h.killed k hk)
  case launches =>
    have hperm := h.launches_erase hp
    rw [hpid] at hperm
    exact hperm

/-- An entry is erased by the shell itself: of the foreground child, which was waited for, or of
the target of the built-in `kill`. -/
theorem erase (h : Inv s) (hp : p ∈ s.processes) (hun : s.phase.unpushed = [])
    (hw : ∀ pid, s.phase = .waited pid → pid = p.pid) (hl : s.phase.launching = none)
    {killed : List Nat} (hsub : ∀ k ∈ s.killed, k ∈ killed)
    (hk : ∀ k ∈ killed, k ∈ s.killed ∨ k = p.launch)
    (hchild : ∀ c ∈ s.children, c.pid = p.pid → c.launch ∈ killed) :
    Inv { s with
      processes := s.processes.filter (·.pid ≠ p.pid)
      removed := s.removed ++ [p.launch]
      phase := .prompt
      killed := killed } := by
  have hmem : ∀ q, q ∈ s.processes.filter (·.pid ≠ p.pid) ↔ q ∈ s.processes ∧ q.pid ≠ p.pid := by
    simp [List.mem_filter]
  constructor
  case pids => exact h.pids.sublist (List.filter_sublist.map _)
  case range => exact fun q hq => h.range q ((hmem q).mp hq).1
  case children => exact h.children
  case entry =>
    intro q hq
    obtain ⟨hq, hne⟩ := (hmem q).mp hq
    exact Or.inl ((h.entry q hq).resolve_right fun hqw => hne (hw _ hqw))
  case child =>
    intro d hd
    rcases h.child d hd with hent | hdk | hdl
    · by_cases hdp : d.pid = p.pid
      · exact Or.inr (Or.inl (hchild d hd hdp))
      · left
        obtain ⟨q, hq, hkey⟩ := List.mem_map.mp hent
        have hqd : q.pid = d.pid := congrArg Prod.fst hkey
        exact List.mem_map.mpr ⟨q, (hmem q).mpr ⟨hq, hqd ▸ hdp⟩, hkey⟩
    · exact Or.inr (Or.inl (hsub _ hdk))
    · simp [hl] at hdl
  case forked => rintro q ⟨⟩
  case waited => rintro pid ⟨⟩
  case current => rintro d - ⟨⟩
  case killed =>
    intro k hkk
    rcases hk k hkk with hold | rfl
    · exact List.mem_append_left _ (h.killed k hold)
    · simp
  case launches =>
    have hperm := h.launches_erase hp
    rw [hun] at hperm
    exact hperm

/-- The handler waits for listed children and erases their entries. -/
theorem handler (h : Inv s) (hnodup : order.Nodup)
    (hlisted : ∀ pid ∈ order, (∃ c ∈ s.children, c.pid = pid) ∧ ∃ p ∈ s.processes, p.pid = pid) :
    ∃ t, s.waitForAllBackgroundChildProcesses order = some t ∧ Inv t ∧ t.phase = s.phase := by
  induction order generalizing s with
  | nil => exact ⟨s, rfl, h, rfl⟩
  | cons x order ih =>
    obtain ⟨hx, hrestNodup⟩ := List.nodup_cons.mp hnodup
    obtain ⟨⟨c, hc, rfl⟩, p, hp, hpid⟩ := hlisted x (by simp)
    obtain ⟨t, ht, hinv, hphase, hchildren, hprocesses⟩ := h.reap_delete hc hp hpid
    -- the other children and their entries are still there
    have hrest : ∀ pid ∈ order, (∃ c ∈ t.children, c.pid = pid) ∧ ∃ p ∈ t.processes, p.pid = pid := by
      intro pid hpid
      have hne : pid ≠ c.pid := fun heq => hx (heq ▸ hpid)
      obtain ⟨⟨d, hd, hdp⟩, q, hq, hqp⟩ := hlisted pid (by simp [hpid])
      refine ⟨⟨d, ?_, hdp⟩, q, ?_, hqp⟩
      · rw [hchildren]
        exact mem_reap.mpr ⟨hd, hdp ▸ hne⟩
      · rw [hprocesses]
        exact List.mem_filter.mpr ⟨hq, by simpa [hqp] using hne⟩
    obtain ⟨u, hu, hinvu, hphaseu⟩ := ih hinv hrestNodup hrest
    refine ⟨u, ?_, hinvu, hphaseu.trans hphase⟩
    rw [State.waitForAllBackgroundChildProcesses, List.foldlM_cons, ht]
    exact hu

end Inv

theorem mem_of_exited (hs : s.Exited order) :
    pid ∈ order ↔ ∃ c ∈ s.children, c.state = .exited ∧ c.pid = pid := by
  rw [hs.mem_iff]
  simp [List.mem_filter, and_assoc]

/-- The signal is handled without a failed lookup exactly when the children that have exited are
listed. -/
theorem Inv.sigchld (h : Inv s) (hs : s.phase ≠ .aborted)
    (hstep : Shell.step s (.sigchld order) = some s') :
    (ReapsListed s (.sigchld order) → Inv s' ∧ s'.phase ≠ .aborted) ∧
      (¬ ReapsListed s (.sigchld order) → s'.phase = .aborted) := by
  rw [Shell.step] at hstep
  split_ifs at hstep with hrun
  obtain ⟨-, hexited⟩ := hrun
  have hnodup : order.Nodup := hexited.nodup_iff.mpr (h.children.sublist (List.filter_sublist.map _))
  constructor
  · intro hlisted
    obtain ⟨t, ht, hinv, hphase⟩ := h.handler hnodup fun pid hpid => by
      obtain ⟨c, hc, hstate, rfl⟩ := (mem_of_exited hexited).mp hpid
      exact ⟨⟨c, hc, rfl⟩, (h.listed_iff hc).mp (hlisted c hc hstate)⟩
    rw [ht] at hstep
    obtain rfl := Option.some.inj hstep
    exact ⟨hinv, hphase ▸ hs⟩
  · intro hnot
    simp only [ReapsListed, not_forall] at hnot
    obtain ⟨c, hc, hstate, hunlisted⟩ := hnot
    have hnone : s.waitForAllBackgroundChildProcesses order = none := by
      refine handler_eq_none h.length_lt ((mem_of_exited hexited).mpr ⟨c, hc, hstate, rfl⟩) ?_
      intro p hp hpid
      exact hunlisted ((h.listed_iff hc).mpr ⟨p, hp, hpid⟩)
    rw [hnone] at hstep
    obtain rfl := Option.some.inj hstep
    rfl

section Inputs

variable {buffer : List UInt8} {child : Option Pid} {succesfully : Bool} {signal : Signal}

theorem Inv.step_execute (h : Inv s) (hs : s.phase ≠ .aborted)
    (hstep : Shell.step s (.execute buffer child) = some s') : Inv s' ∧ s'.phase ≠ .aborted := by
  simp only [Shell.step] at hstep
  split_ifs at hstep with hprompt hcd
  · obtain rfl := Option.some.inj hstep
    exact ⟨h, hs⟩
  · replace hprompt : s.phase = .prompt := not_not.mp hprompt
    cases child with
    | none =>
      obtain rfl := Option.some.inj hstep
      have hcalm : s.phase.Calm := hprompt ▸ trivial
      exact ⟨h.setPhase hcalm trivial (by simp [Phase.current]), by simp⟩
    | some pid =>
      dsimp only at hstep
      split_ifs at hstep with hfresh
      obtain rfl := Option.some.inj hstep
      exact ⟨h.execute hprompt hfresh, by simp⟩

theorem Inv.step_setpgid (h : Inv s)
    (hstep : Shell.step s (.setpgid succesfully) = some s') : Inv s' ∧ s'.phase ≠ .aborted := by
  simp only [Shell.step] at hstep
  split at hstep
  case h_2 => simp at hstep
  case h_1 buffer child hphase =>
    have hcalm : s.phase.Calm := hphase ▸ trivial
    split_ifs at hstep
    all_goals obtain rfl := Option.some.inj hstep
    · exact ⟨h.setPhase hcalm trivial (by simp [Phase.current]), by simp⟩
    · exact ⟨h.prompt hcalm, by simp⟩
    · -- the shell waits for the child that it has stored
      refine ⟨h.setPhase hcalm trivial fun pid hpid => ?_, by simp⟩
      rw [hphase]
      exact hpid

theorem Inv.step_waitpid (h : Inv s) (hstep : Shell.step s .waitpid = some s') :
    Inv s' ∧ s'.phase ≠ .aborted := by
  simp only [Shell.step] at hstep
  split at hstep
  case h_2 => simp at hstep
  case h_1 child hphase =>
    split at hstep
    case h_1 =>
      obtain rfl := Option.some.inj hstep
      exact ⟨h.setPhase (hphase ▸ trivial) trivial (by simp [Phase.current]), by simp⟩
    case h_2 c hfind =>
      split_ifs at hstep
      obtain rfl := Option.some.inj hstep
      have hpid : c.pid = child := by simpa using List.find?_some hfind
      exact ⟨h.waitpid hphase (List.mem_of_find?_eq_some hfind) hpid, by simp⟩

theorem Inv.step_delete (h : Inv s) (hstep : Shell.step s .delete = some s') :
    Inv s' ∧ s'.phase ≠ .aborted := by
  simp only [Shell.step] at hstep
  split at hstep
  case h_2 => simp at hstep
  case h_1 child hphase =>
    obtain ⟨⟨p, hp, rfl⟩, hgone⟩ := h.waited child hphase
    rw [(deleteProcess_eq h.pids hp).2] at hstep
    obtain rfl := Option.some.inj hstep
    refine ⟨h.erase hp (by simp [hphase, Phase.unpushed]) ?_ (by simp [hphase, Phase.launching])
      (fun k hk => hk) (fun k hk => Or.inl hk) fun c hc hcp => absurd hcp (hgone c hc), by simp⟩
    rw [hphase]
    rintro pid ⟨⟩
    rfl

/-- A signal changes what children do, and not who they are. -/
theorem Inv.kill (h : Inv s) : Inv (s.kill pid signal) := by
  refine h.congr_children ?_
  rw [List.map_map]
  refine List.map_congr_left fun c _ => ?_
  dsimp only [Function.comp]
  split_ifs <;> rfl

theorem Inv.step_builtin (h : Inv s) (hs : s.phase ≠ .aborted)
    (hstep : Shell.step s (.builtin signal pid) = some s') : Inv s' ∧ s'.phase ≠ .aborted := by
  by_cases hprompt : s.phase = .prompt
  · rw [Shell.step, if_neg (not_not_intro hprompt)] at hstep
    cases hfind : s.getProcessByPid pid with
    | none =>
      rw [hfind] at hstep
      obtain rfl := Option.some.inj hstep
      exact ⟨h, hs⟩
    | some p =>
      rw [hfind] at hstep
      dsimp only at hstep
      split_ifs at hstep
      all_goals obtain rfl := Option.some.inj hstep
      · have hcalm : (s.kill pid signal).phase.Calm := by
          rw [State.kill, hprompt]
          trivial
        exact ⟨h.kill.setPhase hcalm trivial (by simp [Phase.current]), by simp⟩
      · exact ⟨h.kill, hs⟩
  · rw [Shell.step, if_pos hprompt] at hstep
    simp at hstep

theorem Inv.step_remove (h : Inv s) (hstep : Shell.step s .remove = some s') :
    Inv s' ∧ s'.phase ≠ .aborted := by
  simp only [Shell.step] at hstep
  split at hstep
  case h_2 => simp at hstep
  case h_1 pid hphase =>
    cases hfind : s.getProcessByPid pid with
    | none =>
      have hpos : s.position pid = none := position_eq_none fun p hp hpid => by
        have := List.find?_eq_none.mp hfind p hp
        simp [hpid] at this
      rw [State.removeProcess, hpos, hfind] at hstep
      obtain rfl := Option.some.inj hstep
      have hinv : Inv { s with phase := .prompt } := h.prompt (hphase ▸ trivial)
      exact ⟨by simpa using hinv, by simp⟩
    | some p =>
      have hp := List.mem_of_find?_eq_some hfind
      obtain rfl : p.pid = pid := by simpa using List.find?_some hfind
      rw [removeProcess_eq h.pids hp, (deleteProcess_eq h.pids hp).2, hfind] at hstep
      obtain rfl := Option.some.inj hstep
      refine ⟨h.erase hp (by simp [hphase, Phase.unpushed]) (by simp [hphase])
        (by simp [hphase, Phase.launching]) (fun k hk => by simp [hk]) (fun k hk => by simpa using hk)
        fun c hc hcp => ?_, by simp⟩
      -- the target of `kill` is the child of the entry
      have hent := (h.entry p hp).resolve_right (by simp [hphase])
      obtain ⟨d, hd, hkey⟩ := List.mem_map.mp hent
      obtain rfl := h.child_eq hd hc ((congrArg Prod.fst hkey).trans hcp.symm)
      have hlaunch : d.launch = p.launch := congrArg Prod.snd hkey
      simp [hlaunch]

theorem Inv.step_exit (h : Inv s) (hs : s.phase ≠ .aborted)
    (hstep : Shell.step s (.exit pid) = some s') : Inv s' ∧ s'.phase ≠ .aborted := by
  simp only [Shell.step] at hstep
  split_ifs at hstep
  obtain rfl := Option.some.inj hstep
  refine ⟨h.congr_children ?_, hs⟩
  rw [List.map_map]
  refine List.map_congr_left fun c _ => ?_
  dsimp only [Function.comp]
  split_ifs <;> rfl

end Inputs

/-- **Steps that reap listed children** keep the invariant, and no lookup fails. -/
theorem Inv.step (h : Inv s) (hs : s.phase ≠ .aborted) (hlisted : ReapsListed s i)
    (hstep : Shell.step s i = some s') : Inv s' ∧ s'.phase ≠ .aborted := by
  cases i with
  | execute buffer child => exact h.step_execute hs hstep
  | pushBack =>
    simp only [Shell.step] at hstep
    split at hstep
    case h_2 => simp at hstep
    case h_1 p hphase =>
      obtain rfl := Option.some.inj hstep
      exact ⟨h.pushBack hphase, by simp⟩
  | setpgid succesfully => exact h.step_setpgid hstep
  | waitpid => exact h.step_waitpid hstep
  | delete => exact h.step_delete hstep
  | builtin signal pid => exact h.step_builtin hs hstep
  | remove => exact h.step_remove hstep
  | sigchld order => exact (h.sigchld hs hstep).1 hlisted
  | exit pid => exact h.step_exit hs hstep

/-! ## Main results -/

/-- **The process table.** In every state of a run the table accounts for all children exactly
when the handler never meets an exited child that the built-in `kill` has erased, or whose entry
is not stored yet. -/
theorem accounted_iff {is : List Input} (hrun : run Shell.step .start is = some s) :
    (∀ t, Visits Shell.step .start is t → Accounted t) ↔
      ∀ t i, Takes Shell.step .start is t i → ReapsListed t i := by
  have hstart : State.start.phase ≠ .aborted := by simp [State.start]
  refine forall_visits_iff (P := fun t => Inv t ∧ t.phase ≠ .aborted) ⟨Inv.start, hstart⟩ ?_
    (fun t ht => ht.1.accounted ht.2) ?_ hrun
  · rintro t i t' ⟨hinv, hphase⟩ hlisted hstep
    exact hinv.step hphase hlisted hstep
  · rintro t i t' ⟨hinv, hphase⟩ hnot hstep hacc
    cases i with
    | sigchld order => exact hacc.found ((hinv.sigchld hphase hstep).2 hnot)
    | _ => exact hnot trivial

/-- A command in the background exits and is reaped; a second one is waited for. -/
def quietSession : List Input :=
  [.execute [120, 38] (some 7), .pushBack, .setpgid true, .exit 7, .sigchld [7],
    .execute [121] (some 7), .pushBack, .setpgid true, .exit 7, .waitpid, .delete, .sigchld []]

theorem accounted_quietSession :
    ∃ s, run Shell.step .start quietSession = some s ∧
      ∀ t, Visits Shell.step .start quietSession t → Accounted t := by
  have hsome : (run Shell.step .start quietSession).isSome = true := by decide
  have hcheck : checkRun Shell.step (fun s i => decide (ReapsListed s i)) .start quietSession =
      true := by
    decide
  obtain ⟨s, hs⟩ := Option.isSome_iff_exists.mp hsome
  refine ⟨s, hs, (accounted_iff hs).mpr fun t i hti => ?_⟩
  exact of_decide_eq_true (forall_takes_of_checkRun hcheck t i hti)

/-- A command in the background is killed by the built-in, and the signal comes after it. -/
def killSession : List Input :=
  [.execute [120, 38] (some 7), .pushBack, .setpgid true, .builtin .sigkill 7, .remove, .exit 7,
    .sigchld [7]]

theorem not_accounted_killSession :
    ∃ s, run Shell.step .start killSession = some s ∧ ¬ Accounted s := by
  have hphase : (run Shell.step .start killSession).map State.phase = some .aborted := by decide
  obtain ⟨s, hs, hp⟩ := Option.map_eq_some_iff.mp hphase
  exact ⟨s, hs, fun hacc => hacc.found hp⟩

end SystemProgramming.Shell
