import SystemProgramming.ParallelMake.Sharing

/-!
# When a rule is run

`run_status` says that a rule is to be run at three points: a rule without dependencies that is
not a file; a rule that is not a file and whose dependencies are all `VALID`; and a rule that is
a file, as soon as one of its dependencies counts as newer or is not a file. At the third point
nobody has looked at the states of the dependencies. A rule is run only after its dependencies have
succeeded as long as this does not matter.

## Main definitions

* `FileRouteSound`: the third point is reached only for rules whose dependencies have succeeded
* `Checked`: what a worker knows about dependencies at each point

## Main results

* `running_deps_valid`: a rule is run only when its dependencies have succeeded
* `running_failed_dep`: a rule is run after its only dependency has failed
-/

namespace SystemProgramming.ParallelMake

open Relation

variable {W G S K C : Type} {graph : GraphOps G K} {set : SetOps S K} {g : G}
  {commands : K → List C} {order : List K} {s s' : Shop W K C}

/-- When `run_status`, for a target that is a file, meets a dependency that is newer, or not a
file, or older by `2 ^ 31` seconds or more, all dependencies of the target have succeeded. -/
def FileRouteSound (graph : GraphOps G K) (g : G) (s : Shop W K C) : Event W K C → Prop
  | .work w a => ∀ i n t d ds, s.pc w = .files i n t (d :: ds) →
      (a.access d = false ∨
        ∃ t₁ t₂, a.mtime t = some t₁ ∧ a.mtime d = some t₂ ∧ (t₁ < t₂ ∨ 2 ^ 31 ≤ t₁ - t₂)) →
      s.DepsValid graph g t
  | .spurious _ => True

/-- A dependency counts as newer if it is, or if it is older by more than an `int` holds. -/
theorem diff_neg_iff {t₁ t₂ : Int} : diff t₁ t₂ < 0 ↔ t₁ < t₂ ∨ 2 ^ 31 ≤ t₁ - t₂ := by
  rw [diff]
  split_ifs <;> omega

/-- What a worker knows about the dependencies of the rule it works on. -/
def Checked (graph : GraphOps G K) (g : G) (s : Shop W K C) : Pc K C → Prop
  | .wantDeps _ _ t ds => graph.neighbors g t ⊆ ds
  | .readDeps _ _ t ds => ∀ d ∈ graph.neighbors g t, d ∈ ds ∨ s.state d = .valid
  | .decided _ _ t .runImm => s.DepsValid graph g t
  | .running t _ => s.DepsValid graph g t
  | _ => True

theorem Checked.mono {pc : Pc K C} (hs : Settles s s') (h : Checked graph g s pc) :
    Checked graph g s' pc := by
  cases pc with
  | readDeps i n t ds =>
    intro d hd
    refine (h d hd).imp_right fun hv => ?_
    rw [hs d (by rw [hv]; decide), hv]
  | decided i n t code =>
    cases code with
    | runImm => exact hs.depsValid h
    | _ => trivial
  | running t cs => exact hs.depsValid h
  | _ => exact h

theorem Checked.wake {pc : Pc K C} (h : Checked graph g s pc) : Checked graph g s (wake pc) := by
  cases pc <;> exact h

/-- The invariant: what the workers know, and that no command of a rule was run too early. -/
structure RunsAfterDeps (graph : GraphOps G K) (g : G) (order : List K) (s : Shop W K C) :
    Prop where
  tidy : Tidy graph g order s
  checked : ∀ w, Checked graph g s (s.pc w)
  logged : ∀ e ∈ s.log, s.DepsValid graph g e.1

/-- A worker that moves keeps what it has found out. -/
theorem Moves.checked {w : W} {a : Answers K C} {q p : Pc K C} {rulesLock gLock : Option W}
    (h : Moves graph g s w a q p rulesLock gLock) (hpc : s.pc w = q)
    (hroute : FileRouteSound graph g s (.work w a)) (hq : Checked graph g s q) :
    Checked graph g s p := by
  cases h with
  | noDeps hi hnil hcode =>
    rcases hcode with ⟨rfl, -⟩ | rfl
    · trivial
    · intro d hd
      rw [hnil] at hd
      exact (List.not_mem_nil hd).elim
  | noFile hi ha => exact List.Subset.refl _
  | newer hmet =>
    -- the only decision that does not rest on the states
    simp only [diff_neg_iff] at hmet
    exact hroute _ _ _ _ _ hpc hmet
  | settled hcode => rcases hcode with rfl | rfl <;> trivial
  | lockDeps hfree => exact fun d hd => Or.inl (hq hd)
  | allValid => exact fun d hd => (hq d hd).resolve_left List.not_mem_nil
  | @notValid i n t d ds hd =>
    cases hst : s.state d with
    | valid => exact (hd hst).elim
    | _ => trivial
  | isValid hd =>
    intro x hx
    rcases hq x hx with hmem | hvalid
    · rcases List.mem_cons.mp hmem with rfl | hmem
      · exact Or.inr hd
      · exact Or.inl hmem
    · exact Or.inr hvalid
  | exit | enter | done | isFile | older | next | wait | finish | mark | back => trivial

variable [DecidableEq W] [DecidableEq K]

/-- A worker goes on with what it has found out. -/
theorem checked_work {w : W} {a : Answers K C} (hchecked : Checked graph g s (s.pc w))
    (hroute : FileRouteSound graph g s (.work w a)) (h : Works graph g commands s w a s') :
    Checked graph g s (s'.pc w) := by
  cases h with
  | move hpc h =>
    dsimp only
    rw [Function.update_self]
    exact h.checked hpc hroute (hpc ▸ hchecked)
  | take hpc h =>
    rw [hpc] at hchecked
    dsimp only
    rw [Function.update_self]
    cases h with
    | run => exact hchecked
    | _ => trivial
  | system hpc =>
    rw [hpc] at hchecked
    dsimp only
    rw [Function.update_self]
    split_ifs
    · exact hchecked
    · trivial
  | write | signal =>
    dsimp only
    rw [Function.update_self]
    trivial

/-- Only the commands of a rule that is being run are called. -/
theorem work_log {w : W} {a : Answers K C} (h : Works graph g commands s w a s') :
    s'.log = s.log ∨ ∃ t c cs, s.pc w = .running t (c :: cs) ∧ s'.log = s.log ++ [(t, c)] := by
  cases h with
  | system hpc => exact Or.inr ⟨_, _, _, hpc, rfl⟩
  | _ => exact Or.inl rfl

/-- **A step whose file route is sound keeps the invariant.** -/
theorem runsAfterDeps_step {e : Event W K C} (hi : RunsAfterDeps graph g order s)
    (hroute : FileRouteSound graph g s e) (h : step graph g commands s e = some s') :
    RunsAfterDeps graph g order s' := by
  have hsettles := step_settles hi.tidy h
  have htidy := tidy_step hi.tidy h
  rcases step_cases h with ⟨w, a, rfl, hworks⟩ | ⟨w, rfl, -, rfl⟩
  · refine ⟨htidy, fun w' => ?_, fun x hx => ?_⟩
    · apply Checked.mono hsettles
      by_cases hw : w' = w
      · rw [hw]
        exact checked_work (hi.checked w) hroute hworks
      · rcases hworks.others hw with heq | heq
        · rw [heq]
          exact hi.checked w'
        · rw [heq]
          exact (hi.checked w').wake
    · apply hsettles.depsValid
      rcases work_log hworks with hlog | ⟨t, c, cs, hpc, hlog⟩
      · exact hi.logged x (hlog ▸ hx)
      · rw [hlog, List.mem_append, List.mem_singleton] at hx
        rcases hx with hx | rfl
        · exact hi.logged x hx
        · have hchecked := hi.checked w
          rwa [hpc] at hchecked
  · refine ⟨htidy, fun w' => ?_, fun x hx => hi.logged x hx⟩
    by_cases hw : w' = w
    · simp only [hw, Function.update_self, Checked]
    · simp only [Function.update_of_ne hw]
      exact hi.checked w'

/-- **A rule is run only when its dependencies have succeeded**, in every run in which the file
route of `run_status` is sound; hence no command of a rule with a failed dependency is called. -/
theorem running_deps_valid (hg : GraphLaws graph) (hset : SetLaws set)
    (hacyclic : Acyclic (graph.Edge g)) {goals : List K}
    (hgoals : ∀ t ∈ goals, graph.containsVertex g t = true) :
    ∃ rules, getRulesInOrder graph set g goals = some rules ∧
      ∀ es : List (Event W K C),
        (∀ s e, Takes (step graph g commands) (Shop.start rules) es s e →
          FileRouteSound graph g s e) →
        ∀ s, Visits (step graph g commands) (Shop.start rules) es s →
          (∀ w t cs, s.pc w = .running t cs → s.DepsValid graph g t) ∧
          (∀ t, (∃ d ∈ graph.neighbors g t, s.state d = .invalid) → s.logOf t = []) := by
  obtain ⟨rules, hrules, hnodup, -, -⟩ := getRulesInOrder_spec hg hset hacyclic hgoals
  refine ⟨rules, hrules, fun es hroute s hs => ?_⟩
  have hstart : RunsAfterDeps graph g rules (Shop.start rules : Shop W K C) :=
    ⟨tidy_start hnodup, fun _ => trivial, fun e he => (List.not_mem_nil he).elim⟩
  have hi := forall_visits_of_takes (C := FileRouteSound graph g) hstart
    (fun _ _ _ hi hc h => runsAfterDeps_step hi hc h) hroute s hs
  refine ⟨fun w t cs hpc => ?_, ?_⟩
  · have hchecked := hi.checked w
    rwa [hpc] at hchecked
  · rintro t ⟨d, hd, hinvalid⟩
    rw [Shop.logOf, List.map_eq_nil_iff, List.filter_eq_nil_iff]
    intro e he ht
    have hvalid := hi.logged e he d (by rwa [of_decide_eq_true ht])
    rw [hinvalid] at hvalid
    exact State.noConfusion hvalid

/-- The goal is a file and its dependency is not, and the command `8` fails or not. -/
def goalIsFile (fails : Bool) : Answers Nat Nat :=
  ⟨fun t => t = 0, fun _ => some 0, fun c => !(fails && c = 8)⟩

/-- One worker, up to the first command of the goal. -/
def toTheGoal (fails : Bool) : List (Event Unit Nat Nat) :=
  List.replicate (if fails then 11 else 12) (.work () (goalIsFile fails))

theorem running_failed_dep :
    Acyclic (listGraph.Edge oneDep) ∧
    getRulesInOrder listGraph listSet oneDep [0] = some [1, 0] ∧
    ∃ s, run (step listGraph oneDep fun t => [t + 7]) (Shop.start [1, 0]) (toTheGoal true) =
        some s ∧
      s.pc () = .running 0 [7] ∧ 1 ∈ listGraph.neighbors oneDep 0 ∧ s.state 1 = .invalid := by
  have hend : (run (step listGraph oneDep fun t => [t + 7]) (Shop.start [1, 0])
      (toTheGoal true)).map (fun s => (s.pc (), s.state 1)) = some (.running 0 [7], .invalid) := by
    decide +kernel
  obtain ⟨s, hrun, hs⟩ := Option.map_eq_some_iff.mp hend
  have horder : getRulesInOrder listGraph listSet oneDep [0] = some [1, 0] := by
    decide +kernel
  exact ⟨acyclic_oneDep, horder, s, hrun, (Prod.mk.inj hs).1,
    by simp [listGraph, oneDep], (Prod.mk.inj hs).2⟩

/-- A test for the file route in the runs of one worker over `oneDep`. -/
def fileRouteCheck (s : Shop Unit Nat Nat) (_ : Event Unit Nat Nat) : Bool :=
  match s.pc () with
  | .files _ _ t _ => (listGraph.neighbors oneDep t).all fun d => s.state d = .valid
  | _ => true

theorem running_deps_valid_toTheGoal :
    ∃ s, run (step listGraph oneDep fun t => [t + 7]) (Shop.start [1, 0]) (toTheGoal false) =
        some s ∧
      s.pc () = .running 0 [7] ∧ s.DepsValid listGraph oneDep 0 := by
  have hend : (run (step listGraph oneDep fun t => [t + 7]) (Shop.start [1, 0])
      (toTheGoal false)).map (fun s => s.pc ()) = some (.running 0 [7]) := by
    decide +kernel
  obtain ⟨s, hrun, hpc⟩ := Option.map_eq_some_iff.mp hend
  obtain ⟨rules, hrules, h⟩ := @running_deps_valid Unit _ _ Nat Nat listGraph listSet oneDep
    (fun t => [t + 7]) _ _ listGraph_laws listSet_laws acyclic_oneDep [0] (by decide)
  obtain rfl : [1, 0] = rules := by
    have horder : getRulesInOrder listGraph listSet oneDep [0] = some [1, 0] := by
      decide +kernel
    exact Option.some.inj (horder.symm.trans hrules)
  have hcheck : checkRun (step listGraph oneDep fun t => [t + 7]) fileRouteCheck
      (Shop.start [1, 0]) (toTheGoal false) = true := by
    decide +kernel
  refine ⟨s, hrun, hpc, (h (toTheGoal false) ?_ s (Visits.final hrun)).1 () 0 [7] hpc⟩
  intro s e he
  have hs := forall_takes_of_checkRun hcheck s e he
  cases e with
  | work w a =>
    intro i n t d ds hpc _ x hx
    obtain rfl : w = () := rfl
    simp only [fileRouteCheck, hpc, List.all_eq_true, decide_eq_true_eq] at hs
    exact hs x hx
  | spurious w => trivial

end SystemProgramming.ParallelMake
