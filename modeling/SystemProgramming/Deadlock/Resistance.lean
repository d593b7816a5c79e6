import SystemProgramming.Foundation.Cycles
import SystemProgramming.Foundation.Run
import SystemProgramming.Deadlock.Libdrm

/-!
# Threads that use deadlock-resistant mutexes

Any number of threads call `drm_wait` and `drm_post`, each with its own id. The code under
`m_global` is atomic; between the two sections of `drm_wait` a thread waits for the drm's own
mutex. A deadlock is a cycle of threads that each wait for a drm owned by the next one.

The resource allocation graph mirrors the mutexes, so a call of `drm_wait` that closes a
deadlock is one that closes a cycle in the graph. The search of `drm_wait` does not find that
cycle: it refuses a call only when its start is still in `visited`, left there by a
thread that is waiting.

## Main definitions

* `World`, `Event`, `step`: the threads, the mutexes and the globals
* `WaitsFor`, `Deadlocked`: who waits for whom
* `Refused`, `Closes`, `Guarded`: the calls that are refused, those that close a cycle, and
  the condition that the first include the second
* `Consistent`: the graph mirrors the mutexes

## Main results

* `Consistent.step`: every step keeps the graph consistent
* `deadlock_free_iff`: a run is free of deadlock exactly when it never makes a call that
  closes a cycle and is not refused
-/

namespace SystemProgramming.Deadlock

open Relation

/-- Where a thread is: outside of `drm_wait`, waiting for the mutex of a drm, or holding it
and about to enter the second critical section. -/
inductive Pc (D : Type) where
  | idle
  | waiting (d : D)
  | acquired (d : D)

/-- The globals, the owner of each drm's mutex, and where each thread is. -/
structure World (G S Th D : Type) where
  globals : Globals G S
  mutex : D → Option Th
  pc : Th → Pc D

/-- What can happen next. -/
inductive Event (Th D : Type) where
  | init (d : D)
  | waitEnter (t : Th) (d : D)
  | lock (t : Th)
  | waitExit (t : Th)
  | post (t : Th) (d : D)

section System

variable {G S Th D : Type} [DecidableEq Th] [DecidableEq D] (graph : GraphOps G (Node Th D))
  (set : SetOps S (Node Th D))

/-- No drm, no thread seen yet. -/
def World.start : World G S Th D := ⟨⟨graph.create, none⟩, fun _ => none, fun _ => .idle⟩

/-- One step. A drm is initialised once and used after that; a thread calls while it is
outside of `drm_wait`; a mutex is acquired when it is free. -/
def step (w : World G S Th D) : Event Th D → Option (World G S Th D)
  | .init d =>
    if graph.containsVertex w.globals.g (.drm d) then none
    else some { w with globals := drmInit graph w.globals d }
  | .waitEnter t d =>
    match w.pc t with
    | .idle =>
      if graph.containsVertex w.globals.g (.drm d) then
        (drmWaitEnter graph set w.globals d t).map fun (waits, globals) =>
          ⟨globals, w.mutex, if waits then Function.update w.pc t (.waiting d) else w.pc⟩
      else none
    | _ => none
  | .lock t =>
    match w.pc t with
    | .waiting d =>
      if (w.mutex d).isNone then
        some { w with mutex := Function.update w.mutex d (some t)
                      pc := Function.update w.pc t (.acquired d) }
      else none
    | _ => none
  | .waitExit t =>
    match w.pc t with
    | .acquired d => some { w with globals := drmWaitExit graph w.globals d t
                                   pc := Function.update w.pc t .idle }
    | _ => none
  | .post t d =>
    match w.pc t with
    | .idle =>
      let (_, globals, unlocks) := drmPost graph w.globals d t
      some { w with globals := globals
                    mutex := if unlocks then Function.update w.mutex d none else w.mutex }
    | _ => none

end System

section Deadlocks

variable {G S Th D : Type}

/-- The thread `t` is blocked on a drm that `t'` holds. -/
def WaitsFor (w : World G S Th D) (t t' : Th) : Prop :=
  ∃ d, w.pc t = .waiting d ∧ w.mutex d = some t'

/-- A cycle of threads, each blocked on a drm held by the next. -/
def Deadlocked (w : World G S Th D) : Prop := ∃ t, TransGen (WaitsFor w) t t

variable (graph : GraphOps G (Node Th D)) (set : SetOps S (Node Th D))

/-- `drm_wait(d, t)` is refused: the thread owns the drm, or is still in `visited`. -/
def Refused (w : World G S Th D) (t : Th) (d : D) : Prop :=
  graph.Edge w.globals.g (.drm d) (.thread t) ∨
    ∃ v, w.globals.visited = some v ∧ set.contains v (.thread t) = true

/-- The edge from the thread to the drm closes a cycle in the resource allocation graph. -/
def Closes (w : World G S Th D) (t : Th) (d : D) : Prop :=
  TransGen (graph.Edge w.globals.g) (.drm d) (.thread t)

/-- A call of `drm_wait` that closes a cycle is refused. -/
def Guarded (w : World G S Th D) : Event Th D → Prop
  | .waitEnter t d => Closes graph w t d → Refused graph set w t d
  | _ => True

/-! ## The graph mirrors the mutexes -/

/-- The resource allocation graph is what the threads and the mutexes say it is. -/
structure Consistent (w : World G S Th D) : Prop where
  request : ∀ t d, graph.Edge w.globals.g (.thread t) (.drm d) ↔
    w.pc t = .waiting d ∨ w.pc t = .acquired d
  owner : ∀ d t, graph.Edge w.globals.g (.drm d) (.thread t) ↔
    w.mutex d = some t ∧ w.pc t ≠ .acquired d
  noThread : ∀ t t', ¬ graph.Edge w.globals.g (.thread t) (.thread t')
  noDrm : ∀ d d', ¬ graph.Edge w.globals.g (.drm d) (.drm d')
  acquired : ∀ t d, w.pc t = .acquired d → w.mutex d = some t

variable {graph set} {w w' : World G S Th D} {e : Event Th D}

theorem Consistent.start (hg : GraphLaws graph) : Consistent graph (World.start (S := S) graph) := by
  have hedge : ∀ a b, ¬ graph.Edge graph.create a b := fun a b h => by
    have := h.1
    simp [hg.contains_create] at this
  constructor <;> intros <;> simp_all [World.start]

/-- An idle thread owns exactly the drms whose mutex it holds. -/
theorem Consistent.owner_of_idle (hc : Consistent graph w) {t : Th} (ht : w.pc t = .idle) (d : D) :
    graph.Edge w.globals.g (.drm d) (.thread t) ↔ w.mutex d = some t := by
  rw [hc.owner, ht]
  simp

/-- A step that changes neither threads, mutexes nor edges. -/
theorem Consistent.congr (hc : Consistent graph w) (hpc : w'.pc = w.pc) (hm : w'.mutex = w.mutex)
    (hedge : ∀ a b, graph.Edge w'.globals.g a b ↔ graph.Edge w.globals.g a b) :
    Consistent graph w' := by
  constructor
  · intro t d
    rw [hedge, hpc, hc.request]
  · intro d t
    rw [hedge, hpc, hm, hc.owner]
  · intro t t'
    rw [hedge]
    exact hc.noThread t t'
  · intro d d'
    rw [hedge]
    exact hc.noDrm d d'
  · intro t d
    rw [hpc, hm]
    exact hc.acquired t d

/-- What a step does to the threads, the mutexes and the edges of the graph. -/
inductive Effect [DecidableEq Th] [DecidableEq D] (graph : GraphOps G (Node Th D))
    (set : SetOps S (Node Th D)) (w : World G S Th D) : Event Th D → World G S Th D → Prop where
  | init {d : D} {w' : World G S Th D} (pc : w'.pc = w.pc) (mutex : w'.mutex = w.mutex)
      (edge : ∀ a b, graph.Edge w'.globals.g a b ↔ graph.Edge w.globals.g a b) :
      Effect graph set w (.init d) w'
  | refuse {t : Th} {d : D} {w' : World G S Th D} (idle : w.pc t = .idle)
      (refused : Refused graph set w t d) (pc : w'.pc = w.pc) (mutex : w'.mutex = w.mutex)
      (edge : ∀ a b, graph.Edge w'.globals.g a b ↔ graph.Edge w.globals.g a b) :
      Effect graph set w (.waitEnter t d) w'
  | request {t : Th} {d : D} {w' : World G S Th D} (idle : w.pc t = .idle)
      (admitted : ¬ Refused graph set w t d) (pc : w'.pc = Function.update w.pc t (.waiting d))
      (mutex : w'.mutex = w.mutex)
      (edge : ∀ a b, graph.Edge w'.globals.g a b ↔
        graph.Edge w.globals.g a b ∨ (a = .thread t ∧ b = .drm d)) :
      Effect graph set w (.waitEnter t d) w'
  | lock {t : Th} {d : D} {w' : World G S Th D} (waiting : w.pc t = .waiting d)
      (unlocked : w.mutex d = none) (pc : w'.pc = Function.update w.pc t (.acquired d))
      (mutex : w'.mutex = Function.update w.mutex d (some t))
      (edge : ∀ a b, graph.Edge w'.globals.g a b ↔ graph.Edge w.globals.g a b) :
      Effect graph set w (.lock t) w'
  | own {t : Th} {d : D} {w' : World G S Th D} (acquired : w.pc t = .acquired d)
      (pc : w'.pc = Function.update w.pc t .idle) (mutex : w'.mutex = w.mutex)
      (edge : ∀ a b, graph.Edge w'.globals.g a b ↔
        (graph.Edge w.globals.g a b ∧ ¬ (a = .thread t ∧ b = .drm d)) ∨
          (a = .drm d ∧ b = .thread t)) :
      Effect graph set w (.waitExit t) w'
  | unlock {t : Th} {d : D} {w' : World G S Th D} (idle : w.pc t = .idle)
      (owned : w.mutex d = some t) (pc : w'.pc = w.pc)
      (mutex : w'.mutex = Function.update w.mutex d none)
      (edge : ∀ a b, graph.Edge w'.globals.g a b ↔
        graph.Edge w.globals.g a b ∧ ¬ (a = .drm d ∧ b = .thread t)) :
      Effect graph set w (.post t d) w'
  | ignore {t : Th} {d : D} {w' : World G S Th D} (idle : w.pc t = .idle)
      (foreign : w.mutex d ≠ some t) (pc : w'.pc = w.pc) (mutex : w'.mutex = w.mutex)
      (edge : ∀ a b, graph.Edge w'.globals.g a b ↔ graph.Edge w.globals.g a b) :
      Effect graph set w (.post t d) w'

section Steps

variable [DecidableEq Th] [DecidableEq D]

/-- Every step has one of these effects. -/
theorem step_effect (hg : GraphLaws graph) (hs : SetLaws set) (hc : Consistent graph w)
    (h : step graph set w e = some w') : Effect graph set w e w' := by
  cases e with
  | init d =>
    simp only [step] at h
    split_ifs at h
    obtain rfl := Option.some.inj h
    exact .init rfl rfl fun a b => hg.edge_addVertex _ _ _ _
  | waitEnter t d =>
    simp only [step] at h
    split at h
    · rename_i hpc
      split_ifs at h with hd
      have hno : ¬ graph.Edge w.globals.g (.thread t) (.drm d) := by
        rw [hc.request, hpc]
        simp
      obtain ⟨waits, s', hrun, hwaits, hedge⟩ := drmWaitEnter_spec hg hs hd hno
      rw [hrun, Option.map_some] at h
      obtain rfl := Option.some.inj h
      cases waits with
      | false => exact .refuse hpc (hwaits.mp rfl) rfl rfl (by simpa using hedge)
      | true =>
        refine .request hpc (fun hr => ?_) rfl rfl (by simpa using hedge)
        have := hwaits.mpr hr
        simp at this
    · simp at h
  | lock t =>
    simp only [step] at h
    split at h
    · rename_i d hpc
      split_ifs at h with hm
      obtain rfl := Option.some.inj h
      exact .lock hpc (by simpa using hm) rfl rfl fun _ _ => Iff.rfl
    · simp at h
  | waitExit t =>
    simp only [step] at h
    split at h
    · rename_i d hpc
      obtain rfl := Option.some.inj h
      exact .own hpc rfl rfl (drmWaitExit_edge hg ((hc.request t d).mpr (Or.inr hpc)))
    · simp at h
  | post t d =>
    simp only [step] at h
    split at h
    · rename_i hpc
      obtain ⟨r, s', unlocks, hrun, hunl, hedge⟩ := drmPost_spec hg w.globals d t
      rw [hrun] at h
      obtain rfl := Option.some.inj h
      rw [hc.owner_of_idle hpc] at hunl
      cases unlocks with
      | true => exact .unlock hpc (hunl.mp rfl) rfl rfl (by simpa using hedge)
      | false =>
        refine .ignore hpc (fun hm => ?_) rfl rfl (by simpa using hedge)
        have := hunl.mpr hm
        simp at this
    · simp at h

omit [DecidableEq D] in
/-- The request of a thread is added when it begins to wait. -/
theorem Consistent.requested (hc : Consistent graph w) {t : Th} {d : D} (idle : w.pc t = .idle)
    (pc : w'.pc = Function.update w.pc t (.waiting d)) (mutex : w'.mutex = w.mutex)
    (edge : ∀ a b, graph.Edge w'.globals.g a b ↔
      graph.Edge w.globals.g a b ∨ (a = .thread t ∧ b = .drm d)) : Consistent graph w' := by
  constructor
  · intro t' d'
    rw [edge, pc, hc.request]
    by_cases ht : t' = t
    · subst ht
      simp [idle, eq_comm]
    · simp [ht]
  · intro d' t'
    rw [edge, pc, mutex, hc.owner]
    by_cases ht : t' = t
    · subst ht
      simp [idle]
    · simp [ht]
  · intro t' t''
    rw [edge]
    simp [hc.noThread]
  · intro d' d''
    rw [edge]
    simp [hc.noDrm]
  · intro t' d'
    rw [pc, mutex]
    by_cases ht : t' = t
    · subst ht
      simp
    · simpa [ht] using hc.acquired t' d'

/-- The graph does not change when a thread acquires a mutex. -/
theorem Consistent.locked (hc : Consistent graph w) {t : Th} {d : D} (waiting : w.pc t = .waiting d)
    (unlocked : w.mutex d = none) (pc : w'.pc = Function.update w.pc t (.acquired d))
    (mutex : w'.mutex = Function.update w.mutex d (some t))
    (edge : ∀ a b, graph.Edge w'.globals.g a b ↔ graph.Edge w.globals.g a b) :
    Consistent graph w' := by
  constructor
  · intro t' d'
    rw [edge, pc, hc.request]
    by_cases ht : t' = t
    · subst ht
      simp [waiting]
    · simp [ht]
  · -- the thread holds the mutex, but its edge is added in the second section only
    intro d' t'
    rw [edge, pc, mutex, hc.owner]
    by_cases hd : d' = d
    · subst hd
      by_cases ht : t' = t
      · subst ht
        simp [unlocked]
      · simp [unlocked, Ne.symm ht]
    · by_cases ht : t' = t
      · subst ht
        simp [hd, waiting, Ne.symm hd]
      · simp [hd, ht]
  · intro t' t''
    rw [edge]
    exact hc.noThread t' t''
  · intro d' d''
    rw [edge]
    exact hc.noDrm d' d''
  · intro t' d'
    rw [pc, mutex]
    by_cases ht : t' = t
    · subst ht
      simp only [Function.update_self, Pc.acquired.injEq]
      rintro rfl
      simp
    · intro h'
      rw [Function.update_of_ne ht] at h'
      -- nobody else can have acquired a mutex that was free
      have hd : d' ≠ d := by
        rintro rfl
        exact absurd (hc.acquired t' d' h') (by simp [unlocked])
      rw [Function.update_of_ne hd]
      exact hc.acquired t' d' h'

/-- The request is turned around when the thread returns from `drm_wait`. -/
theorem Consistent.owned (hc : Consistent graph w) {t : Th} {d : D} (acquired : w.pc t = .acquired d)
    (pc : w'.pc = Function.update w.pc t .idle) (mutex : w'.mutex = w.mutex)
    (edge : ∀ a b, graph.Edge w'.globals.g a b ↔
      (graph.Edge w.globals.g a b ∧ ¬ (a = .thread t ∧ b = .drm d)) ∨
        (a = .drm d ∧ b = .thread t)) : Consistent graph w' := by
  have howner := hc.acquired t d acquired
  constructor
  · intro t' d'
    rw [edge, pc, hc.request]
    by_cases ht : t' = t
    · subst ht
      simp [acquired, eq_comm]
    · simp [ht]
  · intro d' t'
    rw [edge, pc, mutex, hc.owner]
    by_cases ht : t' = t
    · subst ht
      by_cases hd : d' = d
      · subst hd
        simp [howner]
      · simp [acquired, hd, Ne.symm hd]
    · simp [ht]
  · intro t' t''
    rw [edge]
    simp [hc.noThread]
  · intro d' d''
    rw [edge]
    simp [hc.noDrm]
  · intro t' d'
    rw [pc, mutex]
    by_cases ht : t' = t
    · subst ht
      simp
    · simpa [ht] using hc.acquired t' d'

omit [DecidableEq Th] in
/-- The owner's edge is removed when it unlocks. -/
theorem Consistent.unlocked (hc : Consistent graph w) {t : Th} {d : D} (idle : w.pc t = .idle)
    (owned : w.mutex d = some t) (pc : w'.pc = w.pc)
    (mutex : w'.mutex = Function.update w.mutex d none)
    (edge : ∀ a b, graph.Edge w'.globals.g a b ↔
      graph.Edge w.globals.g a b ∧ ¬ (a = .drm d ∧ b = .thread t)) : Consistent graph w' := by
  constructor
  · intro t' d'
    rw [edge, pc, hc.request]
    simp
  · intro d' t'
    rw [edge, pc, mutex, hc.owner]
    by_cases hd : d' = d
    · subst hd
      constructor
      · rintro ⟨⟨h₁, -⟩, h₂⟩
        rw [owned] at h₁
        exact absurd ⟨rfl, by rw [Option.some.inj h₁]⟩ h₂
      · simp
    · simp [hd]
  · intro t' t''
    rw [edge]
    simp [hc.noThread]
  · intro d' d''
    rw [edge]
    simp [hc.noDrm]
  · intro t' d' h'
    rw [pc] at h'
    -- the thread that unlocks is idle, so it is not about to enter the second section
    have hd : d' ≠ d := by
      rintro rfl
      have := (hc.acquired t' d' h').symm.trans owned
      obtain rfl := Option.some.inj this
      simp [idle] at h'
    rw [mutex, Function.update_of_ne hd]
    exact hc.acquired t' d' h'

/-- **The graph mirrors the mutexes**: every step keeps it so. -/
theorem Consistent.step (hg : GraphLaws graph) (hs : SetLaws set) (hc : Consistent graph w)
    (h : step graph set w e = some w') : Consistent graph w' := by
  cases step_effect hg hs hc h with
  | init pc mutex edge => exact hc.congr pc mutex edge
  | refuse idle refused pc mutex edge => exact hc.congr pc mutex edge
  | ignore idle foreign pc mutex edge => exact hc.congr pc mutex edge
  | request idle admitted pc mutex edge => exact hc.requested idle pc mutex edge
  | lock waiting unlocked pc mutex edge => exact hc.locked waiting unlocked pc mutex edge
  | own acquired pc mutex edge => exact hc.owned acquired pc mutex edge
  | unlock idle owned pc mutex edge => exact hc.unlocked idle owned pc mutex edge

end Steps

/-! ## Cycles in the graph and among the threads -/

/-- A thread that waits for another one has a path to it in the graph. -/
theorem Consistent.transGen_of_waitsFor (hc : Consistent graph w) {d : D} {t t' : Th}
    (ht : w.mutex d = some t) (hpath : ReflTransGen (WaitsFor w) t t') (hidle : w.pc t' = .idle) :
    TransGen (graph.Edge w.globals.g) (.drm d) (.thread t') := by
  induction hpath using ReflTransGen.head_induction_on generalizing d with
  | refl => exact TransGen.single ((hc.owner_of_idle hidle d).mpr ht)
  | @head t t'' hstep _ ih =>
    obtain ⟨d', hwait, hown⟩ := hstep
    have h₁ : graph.Edge w.globals.g (.drm d) (.thread t) := by
      rw [hc.owner, hwait]
      exact ⟨ht, by simp⟩
    have h₂ : graph.Edge w.globals.g (.thread t) (.drm d') := (hc.request t d').mpr (Or.inl hwait)
    exact ((ih hown).head h₂).head h₁

/-- A path in the graph from a drm to an idle thread is a chain of waiting threads that
begins with the owner of the drm. -/
theorem Consistent.waitsFor_of_transGen (hc : Consistent graph w) {d : D} {t : Th}
    (hpath : TransGen (graph.Edge w.globals.g) (.drm d) (.thread t)) :
    ∃ t', w.mutex d = some t' ∧ ReflTransGen (WaitsFor w) t' t := by
  -- the path alternates between drms and threads
  have key : ∀ a, TransGen (graph.Edge w.globals.g) a (.thread t) →
      (∀ d, a = .drm d → ∃ t', w.mutex d = some t' ∧ ReflTransGen (WaitsFor w) t' t) ∧
      (∀ t', a = .thread t' → ReflTransGen (WaitsFor w) t' t) := by
    intro a ha
    induction ha using TransGen.head_induction_on with
    | @single a hedge =>
      refine ⟨fun d hd => ?_, fun t' ht' => ?_⟩
      · subst hd
        exact ⟨t, ((hc.owner d t).mp hedge).1, ReflTransGen.refl⟩
      · subst ht'
        exact absurd hedge (hc.noThread t' t)
    | @head a b hedge _ ih =>
      refine ⟨fun d hd => ?_, fun t' ht' => ?_⟩
      · subst hd
        cases b with
        | thread t' => exact ⟨t', ((hc.owner d t').mp hedge).1, ih.2 t' rfl⟩
        | drm d' => exact absurd hedge (hc.noDrm d d')
      · subst ht'
        cases b with
        | thread t'' => exact absurd hedge (hc.noThread t' t'')
        | drm d' =>
          obtain ⟨t'', hown, hrest⟩ := ih.1 d' rfl
          rcases (hc.request t' d').mp hedge with hwait | hacq
          · exact hrest.head ⟨d', hwait, hown⟩
          · -- a thread that has acquired the drm is its owner
            obtain rfl : t' = t'' := Option.some.inj ((hc.acquired t' d' hacq).symm.trans hown)
            exact hrest
  exact (key _ hpath).1 d rfl

/-- No cycle of waiting threads. -/
theorem not_deadlocked_iff : ¬ Deadlocked w ↔ Acyclic (WaitsFor w) := by
  unfold Deadlocked Acyclic
  exact not_exists

variable [DecidableEq Th] [DecidableEq D]

/-- Steps whose calls of `drm_wait` close no cycle, unless they are refused, cause no
deadlock. -/
theorem acyclic_step (hg : GraphLaws graph) (hs : SetLaws set) (hc : Consistent graph w)
    (ha : Acyclic (WaitsFor w)) (hguard : Guarded graph set w e)
    (h : step graph set w e = some w') : Acyclic (WaitsFor w') := by
  have hsame : w'.pc = w.pc → w'.mutex = w.mutex → Acyclic (WaitsFor w') := by
    intro hpc hm
    refine ha.mono ?_
    rintro x y ⟨d, h₁, h₂⟩
    exact ⟨d, hpc ▸ h₁, hm ▸ h₂⟩
  cases step_effect hg hs hc h with
  | init pc mutex edge => exact hsame pc mutex
  | refuse idle refused pc mutex edge => exact hsame pc mutex
  | ignore idle foreign pc mutex edge => exact hsame pc mutex
  | @request t d _ idle admitted pc mutex edge =>
    -- only `t` begins to wait; a way back to it is one that `drm_wait` would have seen
    refine acyclic_of_source (t := t) ha ?_ ?_
    · rintro x y hx ⟨d', h₁, h₂⟩
      rw [pc, Function.update_of_ne hx] at h₁
      exact ⟨d', h₁, mutex ▸ h₂⟩
    · rintro y ⟨d', h₁, h₂⟩ hback
      rw [pc, Function.update_self, Pc.waiting.injEq] at h₁
      subst h₁
      rw [mutex] at h₂
      exact admitted (hguard (hc.transGen_of_waitsFor h₂ hback idle))
  | @lock t d _ waiting unlocked pc mutex edge =>
    -- the new owner waits for nobody, so the edges to it are on no cycle
    refine acyclic_of_sink (t := t) ha ?_ ?_
    · rintro y ⟨d', h₁, -⟩
      rw [pc, Function.update_self] at h₁
      simp at h₁
    · rintro x y hy ⟨d', h₁, h₂⟩
      have hx : x ≠ t := by
        rintro rfl
        rw [pc, Function.update_self] at h₁
        simp at h₁
      rw [pc, Function.update_of_ne hx] at h₁
      refine ⟨d', h₁, ?_⟩
      by_cases hd : d' = d
      · subst hd
        rw [mutex, Function.update_self] at h₂
        exact absurd (Option.some.inj h₂).symm hy
      · rwa [mutex, Function.update_of_ne hd] at h₂
  | @own t d _ acquired pc mutex edge =>
    refine ha.mono ?_
    rintro x y ⟨d', h₁, h₂⟩
    have hx : x ≠ t := by
      rintro rfl
      rw [pc, Function.update_self] at h₁
      simp at h₁
    rw [pc, Function.update_of_ne hx] at h₁
    exact ⟨d', h₁, mutex ▸ h₂⟩
  | @unlock t d _ idle owned pc mutex edge =>
    refine ha.mono ?_
    rintro x y ⟨d', h₁, h₂⟩
    refine ⟨d', pc ▸ h₁, ?_⟩
    by_cases hd : d' = d
    · subst hd
      rw [mutex, Function.update_self] at h₂
      simp at h₂
    · rwa [mutex, Function.update_of_ne hd] at h₂

/-- A call of `drm_wait` that closes a cycle and is not refused is a deadlock. -/
theorem not_acyclic_step (hg : GraphLaws graph) (hs : SetLaws set) (hc : Consistent graph w)
    (hguard : ¬ Guarded graph set w e) (h : step graph set w e = some w') :
    ¬ Acyclic (WaitsFor w') := by
  cases step_effect hg hs hc h with
  | init => exact absurd trivial hguard
  | lock => exact absurd trivial hguard
  | own => exact absurd trivial hguard
  | unlock => exact absurd trivial hguard
  | ignore => exact absurd trivial hguard
  | refuse idle refused pc mutex edge => exact absurd (fun _ => refused) hguard
  | @request t d _ idle admitted pc mutex edge =>
    have hcloses : Closes graph w t d := by
      by_contra hno
      exact hguard fun hclose => absurd hclose hno
    obtain ⟨t', hown, hpath⟩ := hc.waitsFor_of_transGen hcloses
    refine not_acyclic_of_source (t := t) (y := t') ?_ ?_ hpath
    · rintro x y ⟨d', h₁, h₂⟩
      have hx : x ≠ t := by
        rintro rfl
        simp [idle] at h₁
      exact ⟨d', by rw [pc, Function.update_of_ne hx, h₁], mutex ▸ h₂⟩
    · exact ⟨d, by rw [pc, Function.update_self], mutex ▸ hown⟩

/-- **Deadlock resistance.** A run of any number of threads and drms is free of deadlock if
and only if every call of `drm_wait` that closes a cycle in the resource allocation graph is
refused: because the thread owns the drm, or because `visited` still holds the thread. -/
theorem deadlock_free_iff (hg : GraphLaws graph) (hs : SetLaws set) {es : List (Event Th D)}
    (hrun : run (step graph set) (World.start graph) es = some w') :
    (∀ w, Visits (step graph set) (World.start graph) es w → ¬ Deadlocked w) ↔
      ∀ w e, Takes (step graph set) (World.start graph) es w e → Guarded graph set w e := by
  refine forall_visits_iff (P := fun w => Consistent graph w ∧ Acyclic (WaitsFor w)) ?_ ?_ ?_ ?_ hrun
  · refine ⟨Consistent.start hg, fun t ht => ?_⟩
    obtain ⟨t', ⟨d, hd, -⟩, -⟩ := TransGen.head'_iff.mp ht
    simp [World.start] at hd
  · rintro w e w' ⟨hc, ha⟩ hguard h
    exact ⟨hc.step hg hs h, acyclic_step hg hs hc ha hguard h⟩
  · rintro w ⟨-, ha⟩
    exact not_deadlocked_iff.mpr ha
  · rintro w e w' ⟨hc, -⟩ hguard h hnot
    exact not_acyclic_step hg hs hc hguard h (not_deadlocked_iff.mp hnot)

end Deadlocks

/-- Each of two threads locks a drm; the first asks for the other's, and the second asks
twice for the first one's. -/
def askTwice : List (Event Nat Nat) :=
  [.init 1, .init 2, .waitEnter 1 1, .lock 1, .waitExit 1, .waitEnter 2 2, .lock 2, .waitExit 2,
    .waitEnter 1 2, .waitEnter 2 1, .waitEnter 2 1]

/-- The states of the two threads and the owners of the two drms. -/
def World.snapshot {G S : Type} (w : World G S Nat Nat) :
    (Option Nat × Option Nat) × Option Nat × Option Nat :=
  let waitingFor (t : Nat) := match w.pc t with
    | .waiting d => some d
    | _ => none
  ((waitingFor 1, waitingFor 2), w.mutex 1, w.mutex 2)

theorem deadlock_free_iff_askTwice :
    (∃ w', run (step listGraph listSet) (World.start listGraph) askTwice = some w') ∧
      ((∀ w, Visits (step listGraph listSet) (World.start listGraph) askTwice w → ¬ Deadlocked w) ↔
        ∀ w e, Takes (step listGraph listSet) (World.start listGraph) askTwice w e →
          Guarded listGraph listSet w e) := by
  have hsome : (run (step listGraph listSet) (World.start listGraph) askTwice).isSome := by decide
  obtain ⟨w', hw'⟩ := Option.isSome_iff_exists.mp hsome
  exact ⟨⟨w', hw'⟩, deadlock_free_iff listGraph_laws listSet_laws hw'⟩

/-- After that run the two threads wait for each other. -/
theorem deadlocked_askTwice :
    ∃ w, run (step listGraph listSet) (World.start listGraph) askTwice = some w ∧ Deadlocked w := by
  have hsnap : (run (step listGraph listSet) (World.start listGraph) askTwice).map
      World.snapshot = some ((some 2, some 1), some 1, some 2) := by decide
  obtain ⟨w, hrun, heq⟩ := Option.map_eq_some_iff.mp hsnap
  have hwait : ∀ t d, (match w.pc t with | .waiting d => some d | _ => none) = some d →
      w.pc t = .waiting d := by
    intro t d h
    cases hpc : w.pc t with
    | waiting d' => simpa [hpc] using h
    | idle => simp [hpc] at h
    | acquired d' => simp [hpc] at h
  simp only [World.snapshot, Prod.mk.injEq] at heq
  obtain ⟨⟨h₁, h₂⟩, m₁, m₂⟩ := heq
  refine ⟨w, hrun, 1, TransGen.tail (TransGen.single ⟨2, hwait 1 2 h₁, m₂⟩) ⟨1, hwait 2 1 h₂, m₁⟩⟩

end SystemProgramming.Deadlock
