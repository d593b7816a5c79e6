import SystemProgramming.Deadlock.Resistance

/-!
# The resource allocation graph along a run

The graph is read and written under `m_global` only, but `drm_wait` leaves that lock while it
waits for the drm's own mutex, and other threads run in both windows. In every state that
they can reach, the edges say who owns which drm and who is blocked on which.

The search of `drm_wait` does not ask that graph for a cycle: it answers whether the calling
thread is in `visited`. That set is null, unless the search of a thread that is still blocked
left it behind.

## Main definitions

* `Matches`: what the edges say about the mutexes and the threads
* `Stale`: the thread is in the set an earlier search left behind
* `Behind`: the owner of the drm is the thread, or waits for it

## Main results

* `matches_of_reachable`: the graph matches the locks in every reachable state
* `closes_iff_behind`: a call closes a cycle exactly when the drm's owner waits for the thread
* `refused_iff`: which calls are refused
* `refusals_close_iff`: the refusals of a run close cycles exactly when each thread found in
  a stale `visited` is waited for by the owner of the drm
-/

namespace SystemProgramming.Deadlock

open Relation

section Matching

variable {G S Th D : Type} {graph : GraphOps G (Node Th D)} {set : SetOps S (Node Th D)}
  {w : World G S Th D}

/-- An edge from a drm leads to the thread that holds its mutex. -/
theorem Consistent.edge_drm (hc : Consistent graph w) {d : D} {a : Node Th D}
    (h : graph.Edge w.globals.g (.drm d) a) : ∃ t, a = .thread t ∧ w.mutex d = some t := by
  cases a with
  | thread t => exact ⟨t, rfl, ((hc.owner d t).mp h).1⟩
  | drm d' => exact absurd h (hc.noDrm d d')

/-- An edge from a thread leads to the drm that it waits for or has just acquired. -/
theorem Consistent.edge_thread (hc : Consistent graph w) {t : Th} {a : Node Th D}
    (h : graph.Edge w.globals.g (.thread t) a) :
    ∃ d, a = .drm d ∧ (w.pc t = .waiting d ∨ w.pc t = .acquired d) := by
  cases a with
  | thread t' => exact absurd h (hc.noThread t t')
  | drm d => exact ⟨d, rfl, (hc.request t d).mp h⟩

/-- A thread that does not own the drm posts it in vain. -/
theorem Consistent.drmPost_foreign (hc : Consistent graph w) {t : Th} {d : D}
    (hpc : w.pc t = .idle) (hm : w.mutex d ≠ some t) :
    (drmPost graph w.globals d t).2 = (w.globals, false) := by
  have hno : ¬ graph.Edge w.globals.g (.drm d) (.thread t) := by
    rw [hc.owner_of_idle hpc]
    exact hm
  unfold drmPost
  split_ifs with hvalid hadj
  · rfl
  · -- the edge would be one between valid vertices
    rw [not_or, not_not, not_not] at hvalid
    exact absurd ⟨hvalid.1, hvalid.2, hadj⟩ hno
  · rfl

variable [DecidableEq Th] [DecidableEq D]

theorem step_post_foreign (hc : Consistent graph w) {t : Th} {d : D} (hpc : w.pc t = .idle)
    (hm : w.mutex d ≠ some t) : step graph set w (.post t d) = some w := by
  obtain ⟨result, hpost⟩ : ∃ result, drmPost graph w.globals d t = (result, w.globals, false) :=
    ⟨_, Prod.ext rfl (hc.drmPost_foreign hpc hm)⟩
  simp only [step, hpc, hpost, Bool.false_eq_true, if_false]

/-- The graph mirrors the mutexes in every reachable state. -/
theorem consistent_of_reachable (hg : GraphLaws graph) (hs : SetLaws set)
    (h : Reachable (step graph set) (World.start graph) w) : Consistent graph w := by
  apply h.invariant (Consistent.start hg)
  intro w e w' hc hstep
  exact hc.step hg hs hstep

variable (graph set) in
/-- What the edges of the graph say about the mutexes and the threads. -/
structure Matches (w : World G S Th D) : Prop where
  oneOwner : ∀ d a b, graph.Edge w.globals.g (.drm d) a → graph.Edge w.globals.g (.drm d) b → a = b
  owned : ∀ d a, graph.Edge w.globals.g (.drm d) a → ∃ t, a = .thread t ∧ w.mutex d = some t
  oneRequest : ∀ t a b,
    graph.Edge w.globals.g (.thread t) a → graph.Edge w.globals.g (.thread t) b → a = b
  blocked : ∀ t d, w.pc t = .waiting d → ∀ a, graph.Edge w.globals.g (.thread t) a ↔ a = .drm d
  foreignPost : ∀ t d, w.pc t = .idle → w.mutex d ≠ some t →
    (drmPost graph w.globals d t).2 = (w.globals, false) ∧
      step graph set w (.post t d) = some w

/-- **The resource graph matches the locks** in every state that any number of threads
can reach. -/
theorem matches_of_reachable (hg : GraphLaws graph) (hs : SetLaws set)
    (h : Reachable (step graph set) (World.start graph) w) : Matches graph set w := by
  have hc := consistent_of_reachable hg hs h
  constructor
  case oneOwner =>
    intro d a b ha hb
    obtain ⟨t, rfl, ht⟩ := hc.edge_drm ha
    obtain ⟨t', rfl, ht'⟩ := hc.edge_drm hb
    rw [ht, Option.some.injEq] at ht'
    rw [ht']
  case owned =>
    intro d a ha
    exact hc.edge_drm ha
  case oneRequest =>
    intro t a b ha hb
    obtain ⟨d, rfl, hd⟩ := hc.edge_thread ha
    obtain ⟨d', rfl, hd'⟩ := hc.edge_thread hb
    rcases hd with hd | hd <;> rcases hd' with hd' | hd' <;> rw [hd] at hd' <;> cases hd' <;> rfl
  case blocked =>
    intro t d hpc a
    constructor
    · intro ha
      obtain ⟨d', rfl, hd' | hd'⟩ := hc.edge_thread ha <;> rw [hpc] at hd' <;> cases hd'
      rfl
    · rintro rfl
      exact (hc.request t d).mpr (Or.inl hpc)
  case foreignPost =>
    intro t d hpc hm
    exact ⟨hc.drmPost_foreign hpc hm, step_post_foreign hc hpc hm⟩

end Matching

/-- Each of two threads owns a drm, and the second one is blocked on the first one's. -/
def crossed : List (Event Nat Nat) :=
  [.init 1, .init 2, .waitEnter 1 1, .lock 1, .waitExit 1, .waitEnter 2 2, .lock 2, .waitExit 2,
    .waitEnter 2 1]

theorem matches_of_reachable_crossed :
    ∃ w, run (step listGraph listSet) (World.start listGraph) crossed = some w ∧
      Matches listGraph listSet w := by
  have hsome : (run (step listGraph listSet) (World.start listGraph) crossed).isSome := by decide
  obtain ⟨w, hw⟩ := Option.isSome_iff_exists.mp hsome
  exact ⟨w, hw, matches_of_reachable listGraph_laws listSet_laws ⟨crossed, hw⟩⟩

/-! ## Which calls are refused -/

section Refusals

variable {G S Th D : Type} (graph : GraphOps G (Node Th D)) (set : SetOps S (Node Th D))

/-- The search of a thread that is still blocked has left `t` in `visited`. -/
def Stale (w : World G S Th D) (t : Th) : Prop :=
  ∃ v, w.globals.visited = some v ∧ set.contains v (.thread t) = true

/-- The owner of the drm is the thread, or waits for it through blocked threads. -/
def Behind (w : World G S Th D) (t : Th) (d : D) : Prop :=
  ∃ t', w.mutex d = some t' ∧ ReflTransGen (WaitsFor w) t' t

/-- A call of `drm_wait` that returns `0` does so because the edge to the drm would close
a cycle. -/
def RefusalCloses (w : World G S Th D) : Event Th D → Prop
  | .waitEnter t d =>
    (∃ s, drmWaitEnter graph set w.globals d t = some (false, s)) → Closes graph w t d
  | _ => True

/-- A thread that calls `drm_wait` while it is in a stale `visited` is one that the owner
of the drm waits for. -/
def StaleBehind (w : World G S Th D) : Event Th D → Prop
  | .waitEnter t d => Stale set w t → Behind w t d
  | _ => True

variable {graph set} {w w' : World G S Th D}

/-- The edge to the drm closes a cycle exactly when the owner of the drm waits for the
thread. -/
theorem closes_iff_behind (hc : Consistent graph w) {t : Th} {d : D} (hpc : w.pc t = .idle) :
    Closes graph w t d ↔ Behind w t d := by
  constructor
  · intro h
    exact hc.waitsFor_of_transGen h
  · rintro ⟨t', hown, hpath⟩
    exact hc.transGen_of_waitsFor hown hpath hpc

variable [DecidableEq Th] [DecidableEq D]

/-- A call of `drm_wait` is made outside of `drm_wait`, for a drm that is initialised. -/
theorem waitEnter_enabled {t : Th} {d : D} (h : step graph set w (.waitEnter t d) = some w') :
    w.pc t = .idle ∧ graph.containsVertex w.globals.g (.drm d) = true := by
  simp only [step] at h
  split at h
  · rename_i hpc
    split_ifs at h with hd
    exact ⟨hpc, hd⟩
  · simp at h

/-- **Which calls are refused**: those of the owner, and those of a thread that a stale
`visited` holds. -/
theorem refused_iff (hg : GraphLaws graph) (hs : SetLaws set) (hc : Consistent graph w) {t : Th}
    {d : D} (h : step graph set w (.waitEnter t d) = some w') :
    (∃ s, drmWaitEnter graph set w.globals d t = some (false, s)) ↔ Refused graph set w t d := by
  obtain ⟨hpc, hd⟩ := waitEnter_enabled h
  have hno : ¬ graph.Edge w.globals.g (.thread t) (.drm d) := by
    rw [hc.request, hpc]
    simp
  obtain ⟨waits, s, hrun, hwaits, -⟩ := drmWaitEnter_spec hg hs hd hno
  rw [Refused, ← hwaits, hrun]
  simp

/-- A call of `drm_wait` is refused rightly exactly when it does not find its thread in a
stale `visited`, or the owner of the drm waits for the thread. -/
theorem refusalCloses_iff (hg : GraphLaws graph) (hs : SetLaws set) (hc : Consistent graph w)
    {e : Event Th D} (h : step graph set w e = some w') :
    RefusalCloses graph set w e ↔ StaleBehind set w e := by
  cases e with
  | waitEnter t d =>
    have hclose := closes_iff_behind hc (t := t) (d := d) (waitEnter_enabled h).1
    rw [RefusalCloses, refused_iff hg hs hc h, hclose, StaleBehind]
    constructor
    · intro hback hstale
      exact hback (Or.inr hstale)
    · rintro hback (hown | hstale)
      · -- the thread owns the drm: the edge back is there
        exact hclose.mp (TransGen.single hown)
      · exact hback hstale
  | init d => exact Iff.rfl
  | lock t => exact Iff.rfl
  | waitExit t => exact Iff.rfl
  | post t d => exact Iff.rfl

/-- **No false refusals**, exactly when the stale `visited` misleads nobody: in a run of any
number of threads, every call of `drm_wait` that returns `0` closes a cycle if and only if
whenever a thread calls while `visited` still holds it, the owner of the drm waits for it. -/
theorem refusals_close_iff (hg : GraphLaws graph) (hs : SetLaws set) {es : List (Event Th D)}
    (hrun : run (step graph set) (World.start graph) es = some w') :
    (∀ w e, Takes (step graph set) (World.start graph) es w e → RefusalCloses graph set w e) ↔
      ∀ w e, Takes (step graph set) (World.start graph) es w e → StaleBehind set w e := by
  refine forall_takes_iff (P := Consistent graph) (Consistent.start hg) ?_ ?_ hrun
  · intro w e w' hc _ h
    exact hc.step hg hs h
  · intro w e w' hc h
    exact refusalCloses_iff hg hs hc h

end Refusals

/-- The second thread owns the first drm and the first thread is blocked on it. Then the
second thread asks for the second drm, which is free. -/
def askFree : List (Event Nat Nat) :=
  [.init 1, .init 2, .waitEnter 2 1, .lock 2, .waitExit 2, .waitEnter 1 1]

theorem refusals_close_iff_askFree :
    (∃ w', run (step listGraph listSet) (World.start listGraph)
        (askFree ++ [.waitEnter 2 2]) = some w') ∧
      ((∀ w e, Takes (step listGraph listSet) (World.start listGraph)
          (askFree ++ [.waitEnter 2 2]) w e → RefusalCloses listGraph listSet w e) ↔
        ∀ w e, Takes (step listGraph listSet) (World.start listGraph)
          (askFree ++ [.waitEnter 2 2]) w e → StaleBehind listSet w e) := by
  have hsome : (run (step listGraph listSet) (World.start listGraph)
      (askFree ++ [.waitEnter 2 2])).isSome := by decide
  obtain ⟨w', hw'⟩ := Option.isSome_iff_exists.mp hsome
  exact ⟨⟨w', hw'⟩, refusals_close_iff listGraph_laws listSet_laws hw'⟩

/-- That call is refused, though no edge leaves the free drm. -/
theorem refused_askFree :
    ∃ w, run (step listGraph listSet) (World.start listGraph) askFree = some w ∧
      (∃ s, drmWaitEnter listGraph listSet w.globals 2 2 = some (false, s)) ∧
      ¬ Closes listGraph w 2 2 := by
  have hrun : (run (step listGraph listSet) (World.start listGraph) askFree).map (fun w =>
      ((drmWaitEnter listGraph listSet w.globals 2 2).map Prod.fst, w.globals.g.2)) =
      some (some false, [(.drm 1, .thread 2), (.thread 1, .drm 1)]) := by decide
  obtain ⟨w, hw, heq⟩ := Option.map_eq_some_iff.mp hrun
  simp only [Prod.mk.injEq] at heq
  obtain ⟨hrefused, hedges⟩ := heq
  refine ⟨w, hw, ?_, fun hclose => ?_⟩
  · obtain ⟨⟨b, s⟩, hs, hb⟩ := Option.map_eq_some_iff.mp hrefused
    obtain rfl : b = false := hb
    exact ⟨s, hs⟩
  · obtain ⟨a, hedge, -⟩ := TransGen.head'_iff.mp hclose
    rw [listGraph_edge, hedges] at hedge
    simp at hedge

end SystemProgramming.Deadlock
