import SystemProgramming.ParallelMake.Sharing

/-!
# No worker waits forever

A worker waits on `rule_cv` with `rules_lock`, but the broadcast is sent without it: a rule may
succeed after a worker has read its state and before the worker waits, and then the wakeup is
lost. It is made up for by the worker that sent it, which goes back to the list. So the workers
never all wait: the last of them to wait has seen, while all others waited, that each rule on the
list lacks a dependency, and the rule lowest in the graph lacks none. When the list gets empty,
the worker that takes the last rule has a broadcast to send to those that wait.

## Main definitions

* `Pc.passed`: how many rules the scan of a worker has passed over
* `Awake`: the invariant

## Main results

* `awake_step`: every step keeps the invariant
* `never_stuck`: when every worker waits or has exited, every worker has exited
-/

namespace SystemProgramming.ParallelMake

open Relation

variable {W G S K C : Type} {graph : GraphOps G K} {set : SetOps S K} {g : G}
  {commands : K → List C} {order : List K} {s s' : Shop W K C}

/-- Some dependency of the rule has no state yet. -/
def Shop.Lacks (graph : GraphOps G K) (g : G) (s : Shop W K C) (r : K) : Prop :=
  ∃ d ∈ graph.neighbors g r, s.state d = .default

/-- The number of rules that the scan of a worker has passed over. -/
def Pc.passed : Pc K C → Nat
  | .scan i _ => i
  | .files i _ _ _ => i
  | .wantDeps i _ _ _ => i
  | .readDeps i _ _ _ => i
  | .decided i _ _ .notFinished => i + 1
  | .decided i _ _ _ => i
  | _ => 0

/-- A worker that has a broadcast to send. -/
def Pc.Busy : Pc K C → Prop
  | .running _ _ => True
  | .marking _ _ => True
  | .writing _ _ => True
  | .signalling => True
  | _ => False

/-- The rules that a worker has passed over lack a dependency. -/
def Passed (graph : GraphOps G K) (g : G) (s : Shop W K C) (pc : Pc K C) : Prop :=
  ∀ j r, j < pc.passed → s.rules[j]? = some r → s.Lacks graph g r

/-- **The invariant.** Somebody does not wait; while a single worker does not wait, the rules it
has passed over lack a dependency; and those that wait when the list is empty will be woken. -/
structure Awake (graph : GraphOps G K) (g : G) (s : Shop W K C) : Prop where
  some : ∃ w, s.pc w ≠ .waiting
  passed : ∀ w, (∀ w', w' ≠ w → s.pc w' = .waiting) → Passed graph g s (s.pc w)
  empty : s.rules = [] → ∀ w, s.pc w = .waiting → ∃ w', (s.pc w').Busy

theorem awake_start [Nonempty W] (rules : List K) :
    Awake graph g (Shop.start rules : Shop W K C) where
  some := ⟨Classical.arbitrary W, by simp [Shop.start]⟩
  passed := fun _ _ j _ hj => (Nat.not_lt_zero j hj).elim
  empty := fun _ w hw => by simp [Shop.start] at hw

/-- After a step of a worker that does not wait then, only this worker can be the last that does
not wait. -/
theorem Awake.of_moved {w : W} (hw : s'.pc w ≠ .waiting)
    (hpassed : (∀ w', w' ≠ w → s'.pc w' = .waiting) → Passed graph g s' (s'.pc w))
    (hempty : s'.rules = [] → ∀ w', s'.pc w' = .waiting → ∃ w', (s'.pc w').Busy) :
    Awake graph g s' where
  some := ⟨w, hw⟩
  passed := by
    intro v hv
    by_cases hvw : v = w
    · rw [hvw] at hv ⊢
      exact hpassed hv
    · exact (hw (hv w (Ne.symm hvw))).elim
  empty := hempty

/-- Workers that are busy do not stop being so when another worker moves. -/
theorem Awake.busy_update [DecidableEq W] (ha : Awake graph g s) {w : W} {p : Pc K C}
    (hp : p ≠ .waiting) (hbusy : (s.pc w).Busy → p.Busy) (hrules : s.rules = [])
    {w' : W} (hw' : Function.update s.pc w p w' = .waiting) :
    ∃ v, (Function.update s.pc w p v).Busy := by
  have hne : w' ≠ w := by
    rintro rfl
    rw [Function.update_self] at hw'
    exact hp hw'
  rw [Function.update_of_ne hne] at hw'
  obtain ⟨v, hv⟩ := ha.empty hrules w' hw'
  by_cases hvw : v = w
  · exact ⟨w, by rw [Function.update_self]; exact hbusy (hvw ▸ hv)⟩
  · exact ⟨v, by rwa [Function.update_of_ne hvw]⟩

/-- A worker moves on, and neither the list nor the states change. -/
theorem Awake.move [DecidableEq W] (ha : Awake graph g s) {w : W} {p : Pc K C}
    (hstate : s'.state = s.state) (hrules : s'.rules = s.rules)
    (hpc : s'.pc = Function.update s.pc w p) (hp : p ≠ .waiting)
    (hbusy : (s.pc w).Busy → p.Busy)
    (hpassed : Passed graph g s (s.pc w) → Passed graph g s p) : Awake graph g s' := by
  apply Awake.of_moved (w := w)
  · rwa [hpc, Function.update_self]
  · intro hothers
    have hlast : Passed graph g s p := by
      apply hpassed
      apply ha.passed
      intro w' hne
      have hw' := hothers w' hne
      rwa [hpc, Function.update_of_ne hne] at hw'
    rw [hpc, Function.update_self]
    intro j r hj hr
    rw [Shop.Lacks, hstate]
    exact hlast j r hj (hrules ▸ hr)
  · rw [hrules, hpc]
    exact fun hnil w' hw' => ha.busy_update hp hbusy hnil hw'

/-- When a single worker does not wait and all rules on the list lack a dependency, the list is
empty: a rule is listed behind its dependencies, and nobody is at work on them. -/
theorem Tidy.not_all_lack (ht : Tidy graph g order s) (hordered : Ordered graph g order)
    (hnone : ∀ w, (s.pc w).held = none) (hlack : ∀ r ∈ s.rules, s.Lacks graph g r) :
    s.rules = [] := by
  -- by induction from the front of the list as it was at the start
  have hgone : ∀ pre post, order = pre ++ post → ∀ r ∈ pre, r ∉ s.rules := by
    intro pre
    induction pre using List.reverseRecOn with
    | nil => exact fun _ _ r hr => (List.not_mem_nil hr).elim
    | append_singleton pre v ih =>
      intro post hsplit r hr hmem
      rw [List.append_assoc, List.singleton_append] at hsplit
      rcases List.mem_append.mp hr with hr | hr
      · exact ih (v :: post) hsplit r hr hmem
      · obtain rfl := List.mem_singleton.mp hr
        obtain ⟨d, hd, hdefault⟩ := hlack r hmem
        have hpre : d ∈ pre := hordered pre r post hsplit d hd
        rcases ht.all d (by rw [hsplit]; exact List.mem_append_left _ hpre) with h | ⟨w, hw⟩ | h
        · exact ih (r :: post) hsplit d hpre h
        · rw [hnone w] at hw
          exact absurd hw (by simp)
        · exact h hdefault
  rw [List.eq_nil_iff_forall_not_mem]
  intro r hr
  exact hgone order [] (List.append_nil order).symm r (ht.sub hr) hr

/-- The last worker that does not wait finds something to do. -/
theorem Awake.others_not_waiting (ha : Awake graph g s) (ht : Tidy graph g order s)
    (hordered : Ordered graph g order) {w : W} {i n : Nat} {t : K}
    (hpc : s.pc w = .decided i n t .notFinished) (hlast : i + 1 = n) :
    ∃ w', w' ≠ w ∧ s.pc w' ≠ .waiting := by
  by_contra hcon
  have hothers : ∀ w', w' ≠ w → s.pc w' = .waiting :=
    fun w' hne => by_contra fun hw' => hcon ⟨w', hne, hw'⟩
  have hplace := ht.place w
  rw [hpc] at hplace
  obtain ⟨hn, hi, -⟩ := hplace
  have hpassed := ha.passed w hothers
  rw [hpc] at hpassed
  have hnil : s.rules = [] := by
    apply ht.not_all_lack hordered
    · intro w'
      by_cases hw : w' = w
      · rw [hw, hpc]
        rfl
      · rw [hothers w' hw]
        rfl
    · intro r hr
      obtain ⟨j, hj⟩ := List.mem_iff_getElem?.mp hr
      have hlt := (List.getElem?_eq_some_iff.mp hj).1
      refine hpassed j r ?_ hj
      show j < i + 1
      omega
  rw [hnil] at hi
  exact absurd hi (by simp)

/-! ## Every step -/

section Moves

variable {w : W} {a : Answers K C} {q p : Pc K C} {rulesLock gLock : Option W}

theorem Moves.busy (h : Moves graph g s w a q p rulesLock gLock) (hq : q.Busy) : p.Busy := by
  cases h <;> first | exact hq.elim | trivial

/-- A scan passes over a rule only for a dependency without a state. -/
theorem Moves.passed (h : Moves graph g s w a q p rulesLock gLock) (hplace : Place graph g s q)
    (hq : Passed graph g s q) : Passed graph g s p := by
  cases h with
  | noDeps hi hnil hcode => rcases hcode with ⟨rfl, -⟩ | rfl <;> exact hq
  | settled hcode => rcases hcode with rfl | rfl <;> exact hq
  | @notValid i n t d ds hd =>
    obtain ⟨-, hi, hsub⟩ := hplace
    cases hst : s.state d with
    | valid => exact (hd hst).elim
    | invalid => exact hq
    | default =>
      intro j r hj hr
      rcases Nat.lt_succ_iff_lt_or_eq.mp hj with hlt | rfl
      · exact hq j r hlt hr
      · obtain rfl : t = r := Option.some.inj (hi.symm.trans hr)
        exact ⟨d, hsub List.mem_cons_self, hst⟩
  | wait hlast => exact fun j r hj => (Nat.not_lt_zero j hj).elim
  | _ => exact hq

/-- A worker begins to wait only at the end of the list. -/
theorem Moves.ne_waiting (h : Moves graph g s w a q p rulesLock gLock)
    (hend : ∀ i t, q ≠ .decided i (i + 1) t .notFinished) : p ≠ .waiting := by
  cases h with
  | @wait i n t hlast => exact (hend i t (by rw [hlast])).elim
  | _ => simp

end Moves

variable [DecidableEq W]

/-- A worker that takes a rule is busy. -/
theorem Awake.take {w : W} {i : Nat} {p : Pc K C} (hp : p.Busy) :
    Awake graph g
      { s with rules := s.rules.eraseIdx i, rulesLock := none, pc := Function.update s.pc w p } := by
  apply Awake.of_moved (w := w)
  · dsimp only
    rw [Function.update_self]
    rintro rfl
    exact hp
  · intro _ j r hj
    dsimp only at hj
    rw [Function.update_self] at hj
    cases p <;> first | exact (Nat.not_lt_zero j hj).elim | exact hp.elim
  · exact fun _ _ _ => ⟨w, by dsimp only; rwa [Function.update_self]⟩

/-- A worker waits: another one does not, and the list is not empty. -/
theorem Awake.wait (ha : Awake graph g s) (ht : Tidy graph g order s)
    (hordered : Ordered graph g order) {w : W} {i n : Nat} {t : K}
    (hpc : s.pc w = .decided i n t .notFinished) (hlast : i + 1 = n) :
    Awake graph g { s with rulesLock := none, pc := Function.update s.pc w .waiting } := by
  have hplace := ht.place w
  rw [hpc] at hplace
  obtain ⟨hn, hi, -⟩ := hplace
  obtain ⟨v, hvw, hv⟩ := ha.others_not_waiting ht hordered hpc hlast
  refine ⟨⟨v, by dsimp only; rwa [Function.update_of_ne hvw]⟩, ?_, ?_⟩
  · intro w' hothers j r hj
    have hw' : w' = v := by
      by_contra hne
      have hwait := hothers v (Ne.symm hne)
      dsimp only at hwait
      rw [Function.update_of_ne hvw] at hwait
      exact hv hwait
    dsimp only at hj
    rw [hw', Function.update_of_ne hvw] at hj
    -- the other worker does not scan, so it has passed over nothing
    have hidle : ¬ (s.pc v).Scanning := by
      intro hscan
      apply hvw
      exact ht.scanning_unique (by rw [hpc]; trivial) hscan
    cases hpv : s.pc v <;> rw [hpv] at hj hidle <;>
      first | exact (Nat.not_lt_zero j hj).elim | exact (hidle trivial).elim
  · intro hnil
    rw [show s.rules = [] from hnil] at hi
    exact absurd hi (by simp)

/-- A worker moves on. -/
theorem Awake.moves (ha : Awake graph g s) (ht : Tidy graph g order s)
    (hordered : Ordered graph g order) {w : W} {a : Answers K C} {q p : Pc K C}
    {rulesLock gLock : Option W} (hpc : s.pc w = q)
    (h : Moves graph g s w a q p rulesLock gLock) :
    Awake graph g
      { s with rulesLock := rulesLock, gLock := gLock, pc := Function.update s.pc w p } := by
  by_cases hend : ∃ i t, q = .decided i (i + 1) t .notFinished
  · obtain ⟨i, t, rfl⟩ := hend
    cases h with
    | wait hlast => exact ha.wait ht hordered hpc rfl
    | next hlast => exact (hlast rfl).elim
  · have hp : p ≠ .waiting := h.ne_waiting fun i t hq => hend ⟨i, t, hq⟩
    refine ha.move rfl rfl rfl hp (fun hb => h.busy (hpc ▸ hb)) fun hpassed => ?_
    exact h.passed (hpc ▸ ht.place w) (hpc ▸ hpassed)

variable [DecidableEq K]

/-- **Every step of a worker keeps the invariant.** -/
theorem awake_work {w : W} {a : Answers K C} (ha : Awake graph g s) (ht : Tidy graph g order s)
    (hordered : Ordered graph g order) (h : Works graph g commands s w a s') :
    Awake graph g s' := by
  cases h with
  | move hpc h => exact ha.moves ht hordered hpc h
  | take hpc h =>
    have hplace := ht.place w
    rw [hpc] at hplace
    cases h with
    | drop => exact (hplace.2.2 rfl).elim
    | _ => exact Awake.take trivial
  | system hpc =>
    refine ha.move rfl rfl rfl ?_ ?_ ?_
    · split_ifs <;> simp
    · split_ifs <;> exact fun _ => trivial
    · rw [hpc]
      split_ifs <;> exact id
  | write hpc =>
    apply Awake.of_moved (w := w)
    · simp
    · intro _ j r hj
      simp [Pc.passed] at hj
    · exact fun _ _ _ => ⟨w, by dsimp only; rw [Function.update_self]; trivial⟩
  | signal hpc =>
    apply Awake.of_moved (w := w)
    · simp
    · intro _ j r hj
      simp [Pc.passed] at hj
    · -- nobody waits after a broadcast
      intro _ w' hw'
      dsimp only at hw'
      by_cases hne : w' = w
      · simp [hne] at hw'
      · rw [Function.update_of_ne hne] at hw'
        cases hp : s.pc w' <;> simp [hp, wake] at hw'

theorem awake_step {e : Event W K C} (ha : Awake graph g s) (ht : Tidy graph g order s)
    (hordered : Ordered graph g order) (h : step graph g commands s e = some s') :
    Awake graph g s' := by
  rcases step_cases h with ⟨w, a, rfl, hworks⟩ | ⟨w, rfl, hpc, rfl⟩
  · exact awake_work ha ht hordered hworks
  · exact ha.move rfl rfl rfl (by simp) (by rw [hpc]; exact id) (by rw [hpc]; exact id)

/-! ## Every run -/

/-- **Parallel make never gets stuck.** In no reachable state every worker that has not exited
waits on `rule_cv`; in particular none waits once the list is empty and all others have exited. -/
theorem never_stuck [Nonempty W] (hg : GraphLaws graph) (hset : SetLaws set)
    (hacyclic : Acyclic (graph.Edge g)) {goals : List K}
    (hgoals : ∀ t ∈ goals, graph.containsVertex g t = true) :
    ∃ rules, getRulesInOrder graph set g goals = some rules ∧
      ∀ s : Shop W K C, Reachable (step graph g commands) (Shop.start rules) s →
        ((∀ w, s.pc w = .waiting ∨ s.pc w = .exited) → ∀ w, s.pc w = .exited) ∧
        ∀ w, s.rules = [] → (∀ w', w' ≠ w → s.pc w' = .exited) → s.pc w ≠ .waiting := by
  obtain ⟨rules, hrules, hnodup, hordered, -⟩ := getRulesInOrder_spec hg hset hacyclic hgoals
  refine ⟨rules, hrules, fun s hs => ?_⟩
  obtain ⟨ht, ha⟩ : Tidy graph g rules s ∧ Awake graph g s := by
    refine hs.invariant (P := fun s => Tidy graph g rules s ∧ Awake graph g s)
      ⟨tidy_start hnodup, awake_start rules⟩ ?_
    rintro s e s' ⟨ht, ha⟩ h
    exact ⟨tidy_step ht h, awake_step ha ht hordered h⟩
  have hstuck : (∀ w, s.pc w = .waiting ∨ s.pc w = .exited) → ∀ w, s.pc w = .exited := by
    intro hall w
    refine (hall w).resolve_left fun hw => ?_
    -- somebody has exited, so the list is empty, and a busy worker is neither of the two
    obtain ⟨v, hv⟩ := ha.some
    have hplace := ht.place v
    rw [(hall v).resolve_left hv] at hplace
    obtain ⟨u, hu⟩ := ha.empty hplace w hw
    rcases hall u with h | h <;> rw [h] at hu <;> exact hu
  refine ⟨hstuck, fun w _ hothers hw => ?_⟩
  have hexit := hstuck (fun w' => ?_) w
  · rw [hw] at hexit
    exact absurd hexit (by simp)
  · by_cases hne : w' = w
    · exact Or.inl (hne ▸ hw)
    · exact Or.inr (hothers w' hne)

/-- Nothing is a file, and all commands succeed. -/
def allSucceed : Answers Nat Nat := ⟨fun _ => false, fun _ => none, fun _ => true⟩

/-- One of two workers takes the dependency, and the other waits for it. -/
def secondWaits : List (Event Bool Nat Nat) :=
  List.replicate 3 (.work true allSucceed) ++ List.replicate 5 (.work false allSucceed)

theorem never_stuck_secondWaits :
    ∃ s, run (step listGraph oneDep fun t => [t + 7]) (Shop.start [1, 0]) secondWaits = some s ∧
      s.pc false = .waiting ∧ ¬ ∀ w, s.pc w = .waiting ∨ s.pc w = .exited := by
  have hend : (run (step listGraph oneDep fun t => [t + 7]) (Shop.start [1, 0])
      secondWaits).map (fun s => s.pc false) = some .waiting := by
    decide +kernel
  obtain ⟨s, hrun, hpc⟩ := Option.map_eq_some_iff.mp hend
  obtain ⟨rules, hrules, h⟩ := @never_stuck Bool _ _ Nat Nat listGraph listSet oneDep
    (fun t => [t + 7]) _ _ _ listGraph_laws listSet_laws acyclic_oneDep [0] (by decide)
  obtain rfl : [1, 0] = rules := by
    have horder : getRulesInOrder listGraph listSet oneDep [0] = some [1, 0] := by
      decide +kernel
    exact Option.some.inj (horder.symm.trans hrules)
  refine ⟨s, hrun, hpc, fun hall => ?_⟩
  have hexit := (h s ⟨secondWaits, hrun⟩).1 hall false
  rw [hpc] at hexit
  exact absurd hexit (by simp)

end SystemProgramming.ParallelMake
