import SystemProgramming.ParallelMake.Sharing

/-!
# Parallel make computes the sequential result

Once all workers have exited, the state of every rule the goals need is what a sequential
make gives it, and its commands have been run as a sequential make runs them: not at all
when a dependency failed, else once, in order, up to the first that fails.

The invariant splits the rules in three: those on the list, untouched; those a worker has
taken off it, each by one worker; and those with a state, which have their outcome. States
never change again, so what a worker finds out about dependencies stays true.

## Main definitions

* `ran`: the commands that are run of a list
* `Outcome`: a rule has a state that its dependencies and commands give it
* `Inv`: the invariant

## Main results

* `inv_step`: every step of a worker keeps the invariant
* `sequential_result`: the final states and the commands that have been run
-/

namespace SystemProgramming.ParallelMake

open Relation

variable {W G S K C : Type}
  {graph : GraphOps G K} {set : SetOps S K} {g : G} {commands : K → List C} {result : C → Bool}

/-- The commands that are run: up to the first that fails. -/
def ran (result : C → Bool) : List C → List C
  | [] => []
  | c :: cs => c :: if result c then ran result cs else []

theorem ran_append {pre cs : List C} (hpre : ∀ c ∈ pre, result c = true) :
    ran result (pre ++ cs) = pre ++ ran result cs := by
  induction pre with
  | nil => rfl
  | cons c pre ih =>
    have hc : result c = true := hpre c List.mem_cons_self
    rw [List.cons_append, ran, if_pos hc, ih fun c' hc' => hpre c' (List.mem_cons_of_mem c hc'),
      List.cons_append]

variable {s s' : Shop W K C}

variable [DecidableEq K]

/-- No target is a file, and commands have fixed outcomes. -/
def Fixed (result : C → Bool) : Event W K C → Prop
  | .work _ a => (∀ k, a.access k = false) ∧ a.system = result
  | .spurious _ => True

/-- `st` is the state that the dependencies and the commands of `r` give it, and its commands
have been run accordingly. -/
def Outcome (graph : GraphOps G K) (g : G) (commands : K → List C) (result : C → Bool)
    (s : Shop W K C) (r : K) (st : State) : Prop :=
  (s.DepsValid graph g r ∧ s.logOf r = ran result (commands r) ∧
    st = if (commands r).all result then .valid else .invalid) ∨
  ((∃ d ∈ graph.neighbors g r, s.state d = .invalid) ∧ s.logOf r = [] ∧ st = .invalid)

/-- What `run_status` knows when it returns. -/
def Decided (graph : GraphOps G K) (g : G) (s : Shop W K C) (t : K) : StatCode → Prop
  | .runImm => s.DepsValid graph g t
  | .err => ∃ d ∈ graph.neighbors g t, s.state d = .invalid
  | .notFinished => True
  | .satNoRun => False
  | .alreadyDone => False

/-- What a worker knows at each point. -/
def PcOk (graph : GraphOps G K) (g : G) (commands : K → List C) (result : C → Bool)
    (s : Shop W K C) : Pc K C → Prop
  | .scan i n => n = s.rules.length ∧ i < n
  | .files _ _ _ _ => False
  | .wantDeps i n t ds => n = s.rules.length ∧ s.rules[i]? = some t ∧ graph.neighbors g t = ds
  | .readDeps i n t ds => n = s.rules.length ∧ s.rules[i]? = some t ∧ ds ⊆ graph.neighbors g t ∧
      ∀ d ∈ graph.neighbors g t, d ∈ ds ∨ s.state d = .valid
  | .decided i n t code => n = s.rules.length ∧ s.rules[i]? = some t ∧ Decided graph g s t code
  | .running t cs => s.DepsValid graph g t ∧
      ∃ pre, commands t = pre ++ cs ∧ (∀ c ∈ pre, result c = true) ∧ s.logOf t = pre
  | .marking t st => Outcome graph g commands result s t st
  | .writing t st => Outcome graph g commands result s t st
  | .exited => s.rules = []
  | _ => True

/-- **The invariant** of the workers, for a list that began as `order`. -/
structure Inv (graph : GraphOps G K) (g : G) (commands : K → List C) (result : C → Bool)
    (order : List K) (s : Shop W K C) : Prop where
  nodup : s.rules.Nodup
  lock : ∀ w, (s.pc w).Scanning → s.rulesLock = some w
  listed : ∀ r ∈ s.rules, s.state r = .default ∧ s.logOf r = [] ∧ ∀ w, (s.pc w).held ≠ some r
  holder : ∀ w w' r, (s.pc w).held = some r → (s.pc w').held = some r → w = w'
  held : ∀ w r, (s.pc w).held = some r → s.state r = .default
  known : ∀ w, PcOk graph g commands result s (s.pc w)
  done : ∀ r, s.state r ≠ .default → Outcome graph g commands result s r (s.state r)
  all : ∀ r ∈ order, r ∈ s.rules ∨ (∃ w, (s.pc w).held = some r) ∨ s.state r ≠ .default

variable {order : List K}

theorem inv_start (h : order.Nodup) :
    Inv graph g commands result order (Shop.start order : Shop W K C) where
  nodup := h
  lock := fun _ hs => hs.elim
  listed := fun r _ => ⟨rfl, rfl, fun w hw => by simp [Shop.start, Pc.held] at hw⟩
  holder := fun w _ _ hw => by simp [Shop.start, Pc.held] at hw
  held := fun w _ hw => by simp [Shop.start, Pc.held] at hw
  known := fun _ => trivial
  done := fun r hr => (hr rfl).elim
  all := fun r hr => Or.inl hr

/-! ## Steps keep what a worker knows -/

theorem Settles.outcome {r : K} {st : State} (h : Settles s s') (hlog : s'.logOf r = s.logOf r)
    (ho : Outcome graph g commands result s r st) : Outcome graph g commands result s' r st := by
  rcases ho with ⟨hd, hran, hst⟩ | ⟨hd, hran, hst⟩
  · exact Or.inl ⟨h.depsValid hd, hlog.trans hran, hst⟩
  · exact Or.inr ⟨h.depInvalid hd, hlog.trans hran, hst⟩

theorem Outcome.ne_default {t : K} {st : State} (h : Outcome graph g commands result s t st) :
    st ≠ .default := by
  rcases h with ⟨-, -, rfl⟩ | ⟨-, -, rfl⟩
  · split_ifs <;> decide
  · decide

theorem logOf_snoc (t r : K) (c : C) : Shop.logOf { s with log := s.log ++ [(t, c)] } r =
    s.logOf r ++ if t = r then [c] else [] := by
  by_cases h : t = r
  · simp [Shop.logOf, h]
  · simp [Shop.logOf, h]

/-- Rules with an outcome have the state a sequential make gives them. -/
theorem Outcome.state_iff {r : K} (h : Outcome graph g commands result s r (s.state r)) :
    (s.state r = .valid ↔ s.DepsValid graph g r ∧ ∀ c ∈ commands r, result c = true) ∧
    (s.state r = .invalid ↔ ¬ (s.DepsValid graph g r ∧ ∀ c ∈ commands r, result c = true)) := by
  have hne := h.ne_default
  have hiff : s.state r = .valid ↔ s.DepsValid graph g r ∧ ∀ c ∈ commands r, result c = true := by
    rcases h with ⟨hdeps, -, hst⟩ | ⟨⟨d, hd, hinvalid⟩, -, hst⟩
    · rw [hst, ← List.all_eq_true]
      by_cases hall : (commands r).all result = true
      · simp [hall, hdeps]
      · simp [hall]
    · rw [hst]
      refine ⟨fun h => by simp at h, fun h => ?_⟩
      simp [h.1 d hd] at hinvalid
  refine ⟨hiff, ?_⟩
  rw [← hiff]
  cases hst : s.state r <;> simp [hst] at hne ⊢

/-- What a worker knows stays true while others change what it does not hold. -/
theorem PcOk.mono {pc : Pc K C} (h : Settles s s') (hrules : pc.Scanning → s'.rules = s.rules)
    (hempty : s.rules = [] → s'.rules = [])
    (hlog : ∀ r, pc.held = some r → s'.logOf r = s.logOf r)
    (hok : PcOk graph g commands result s pc) : PcOk graph g commands result s' pc := by
  cases pc with
  | scan i n =>
    rw [PcOk, hrules trivial]
    exact hok
  | files i n t ds => exact hok
  | wantDeps i n t ds =>
    rw [PcOk, hrules trivial]
    exact hok
  | readDeps i n t ds =>
    obtain ⟨hn, ht, hsub, hds⟩ := hok
    rw [PcOk, hrules trivial]
    refine ⟨hn, ht, hsub, fun d hd => (hds d hd).imp_right fun hv => ?_⟩
    rw [h d (by rw [hv]; decide), hv]
  | decided i n t code =>
    obtain ⟨hn, ht, hcode⟩ := hok
    rw [PcOk, hrules trivial]
    refine ⟨hn, ht, ?_⟩
    cases code with
    | runImm => exact h.depsValid hcode
    | err => exact h.depInvalid hcode
    | _ => exact hcode
  | running t cs =>
    obtain ⟨hd, pre, hcmds, hpre, hran⟩ := hok
    exact ⟨h.depsValid hd, pre, hcmds, hpre, (hlog t rfl).trans hran⟩
  | marking t st => exact h.outcome (hlog t rfl) hok
  | writing t st => exact h.outcome (hlog t rfl) hok
  | exited => exact hempty hok
  | _ => trivial

theorem PcOk.wake {pc : Pc K C} (h : PcOk graph g commands result s pc) :
    PcOk graph g commands result s (wake pc) := by
  cases pc <;> exact h

variable {w : W} {a : Answers K C}

/-- A worker that moves on knows what its new place asks for, when no target is a file. -/
theorem Moves.known {q p : Pc K C} {rulesLock gLock : Option W}
    (h : Moves graph g s w a q p rulesLock gLock) (haccess : ∀ k, a.access k = false)
    (hlisted : ∀ r ∈ s.rules, s.state r = .default) (hq : PcOk graph g commands result s q) :
    PcOk graph g commands result s p := by
  cases h with
  | exit hfree hnil => exact hnil
  | enter hfree hne => exact ⟨rfl, List.length_pos_of_ne_nil hne⟩
  | done ht hst => exact (hst (hlisted _ (List.mem_of_getElem? ht))).elim
  | noDeps ht hnil hcode =>
    rcases hcode with ⟨rfl, ha⟩ | rfl
    · simp [haccess] at ha
    · exact ⟨hq.1, ht, fun d hd => by simp [hnil] at hd⟩
  | isFile ht ha => simp [haccess] at ha
  | noFile ht ha => exact ⟨hq.1, ht, rfl⟩
  | older | newer | settled => exact hq.elim
  | lockDeps hfree =>
    obtain ⟨hn, ht, hds⟩ := hq
    exact ⟨hn, ht, hds ▸ List.Subset.refl _, fun d hd => Or.inl (hds ▸ hd)⟩
  | allValid =>
    obtain ⟨hn, ht, -, hds⟩ := hq
    exact ⟨hn, ht, fun d hd => (hds d hd).resolve_left List.not_mem_nil⟩
  | @notValid i n t d ds hd =>
    obtain ⟨hn, ht, hsub, -⟩ := hq
    refine ⟨hn, ht, ?_⟩
    cases hst : s.state d with
    | default => trivial
    | valid => exact (hd hst).elim
    | invalid => exact ⟨d, hsub List.mem_cons_self, hst⟩
  | isValid hd =>
    obtain ⟨hn, ht, hsub, hds⟩ := hq
    refine ⟨hn, ht, List.subset_of_cons_subset hsub, fun x hx => ?_⟩
    rcases hds x hx with hmem | hvalid
    · rcases List.mem_cons.mp hmem with rfl | hmem
      · exact Or.inr hd
      · exact Or.inl hmem
    · exact Or.inr hvalid
  | next hlast =>
    obtain ⟨hn, ht, -⟩ := hq
    have hlt := (List.getElem?_eq_some_iff.mp ht).1
    exact ⟨hn, by omega⟩
  | wait hlast => trivial
  | finish =>
    -- all commands have succeeded
    obtain ⟨hdeps, pre, hcmds, hpre, hlog⟩ := hq
    rw [List.append_nil] at hcmds
    have hran : ran result (pre ++ []) = pre ++ ran result [] := ran_append hpre
    refine Or.inl ⟨hdeps, ?_, ?_⟩
    · rw [hlog, hcmds]
      simpa [ran] using hran.symm
    · rw [if_pos (by rw [hcmds, List.all_eq_true]; exact hpre)]
  | mark hfree => exact hq
  | back hfree => trivial

/-- A rule that is taken has not been worked on. -/
theorem Deals.known {t : K} {code : StatCode} {p : Pc K C} (h : Deals commands t code p)
    (hcode : Decided graph g s t code) (hlog : s.logOf t = []) :
    PcOk graph g commands result s p := by
  cases h with
  | run => exact ⟨hcode, [], rfl, by simp, hlog⟩
  | skip => exact hcode.elim
  | fail => exact Or.inr ⟨hcode, hlog, rfl⟩
  | drop => trivial

/-- A worker that has run a command goes on or has the outcome. -/
theorem known_system {t : K} {c : C} {cs : List C}
    (hq : PcOk graph g commands result s (.running t (c :: cs))) :
    PcOk graph g commands result { s with log := s.log ++ [(t, c)] }
      (if result c then .running t cs else .marking t .invalid) := by
  obtain ⟨hdeps, pre, hcmds, hpre, hlog⟩ := hq
  have hlog' : Shop.logOf { s with log := s.log ++ [(t, c)] } t = pre ++ [c] := by
    rw [logOf_snoc, if_pos rfl, hlog]
  by_cases hc : result c = true
  · rw [if_pos hc]
    refine ⟨hdeps, pre ++ [c], by rw [hcmds, List.append_assoc, List.singleton_append], ?_, hlog'⟩
    intro x hx
    rcases List.mem_append.mp hx with hx | hx
    · exact hpre x hx
    · rw [List.mem_singleton.mp hx, hc]
  · rw [if_neg hc]
    refine Or.inl ⟨hdeps, ?_, ?_⟩
    · rw [hcmds, ran_append hpre, ran, if_neg hc]
      exact hlog'
    · rw [if_neg]
      rw [List.all_eq_true, hcmds]
      exact fun hall => hc (hall c (by simp))

/-! ## Every step -/

variable [DecidableEq W]

/-- The worker that takes a step knows what its new place asks for. -/
theorem known_work (haccess : ∀ k, a.access k = false) (hsystem : a.system = result)
    (hi : Inv graph g commands result order s) (h : Works graph g commands s w a s') :
    PcOk graph g commands result s' (s'.pc w) := by
  have hknown := hi.known w
  have hlisted : ∀ r ∈ s.rules, s.state r = .default := fun r hr => (hi.listed r hr).1
  cases h with
  | move hpc h =>
    rw [hpc] at hknown
    dsimp only
    rw [Function.update_self]
    exact (h.known haccess hlisted hknown).mono (fun _ _ => rfl) (fun _ => rfl) id fun _ _ => rfl
  | take hpc h =>
    rw [hpc] at hknown
    obtain ⟨-, ht, hcode⟩ := hknown
    dsimp only
    rw [Function.update_self]
    have hp : PcOk graph g commands result s _ :=
      h.known hcode (hi.listed _ (List.mem_of_getElem? ht)).2.1
    refine PcOk.mono (s := s) (fun _ _ => rfl) (fun hs => (h.not_scanning hs).elim) (fun hnil => ?_)
      (fun _ _ => rfl) hp
    simp [hnil] at ht
  | system hpc =>
    rw [hpc] at hknown
    dsimp only
    rw [Function.update_self, hsystem]
    exact (known_system hknown).mono (fun _ _ => rfl) (fun _ => rfl) id fun _ _ => rfl
  | write | signal =>
    dsimp only
    rw [Function.update_self]
    trivial

/-- Only the worker that scans changes the list. -/
theorem Works.rules (h : Works graph g commands s w a s') :
    s'.rules.Sublist s.rules ∧ (¬ (s.pc w).Scanning → s'.rules = s.rules) := by
  cases h with
  | take hpc h =>
    refine ⟨List.eraseIdx_sublist _ _, fun hs => (hs ?_).elim⟩
    rw [hpc]
    trivial
  | _ => exact ⟨List.Sublist.refl _, fun _ => rfl⟩

/-- Commands are run only for the rule that the worker holds. -/
theorem Works.logOf (h : Works graph g commands s w a s') {r : K}
    (hr : (s.pc w).held ≠ some r) : s'.logOf r = s.logOf r := by
  cases h with
  | @system t c cs hpc =>
    have hne : t ≠ r := by
      rintro rfl
      exact hr (by rw [hpc]; rfl)
    exact (logOf_snoc t r c).trans (by rw [if_neg hne, List.append_nil])
  | _ => rfl

/-- A state is written only with the outcome of the rule. -/
theorem Works.state (h : Works graph g commands s w a s')
    (hi : Inv graph g commands result order s) (r : K) :
    s'.state r = s.state r ∨
      s'.logOf r = s.logOf r ∧ Outcome graph g commands result s r (s'.state r) := by
  cases h with
  | @write t st hpc =>
    have hout := hi.known w
    rw [hpc] at hout
    by_cases hr : r = t
    · dsimp only
      rw [hr, Function.update_self]
      exact Or.inr ⟨rfl, hout⟩
    · exact Or.inl (Function.update_of_ne hr _ _)
  | _ => exact Or.inl rfl

/-- **Every step of a worker keeps the invariant**, when no target is a file and commands
have fixed outcomes. -/
theorem inv_work (haccess : ∀ k, a.access k = false) (hsystem : a.system = result)
    (ht : Tidy graph g order s) (hi : Inv graph g commands result order s)
    (ht' : Tidy graph g order s') (hsettles : Settles s s')
    (h : Works graph g commands s w a s') : Inv graph g commands result order s' := by
  -- what a worker holds, no other does, and it is neither listed nor done
  have hother : ∀ w' r, w' ≠ w → (s.pc w').held = some r → (s.pc w).held ≠ some r :=
    fun w' r hne hw' hw => hne (hi.holder w' w r hw' hw)
  have hset : ∀ r, s.state r ≠ .default → (s.pc w).held ≠ some r :=
    fun r hr hw => hr (hi.held w r hw)
  refine
    { nodup := ht'.nodup, lock := ht'.lock, holder := ht'.holder, held := ht'.held, all := ht'.all
      listed := fun r hr => ?listed, known := fun w' => ?known, done := fun r hr => ?done }
  case listed =>
    obtain ⟨-, hlog, hfree⟩ := hi.listed r (h.rules.1.subset hr)
    exact ⟨(ht'.listed r hr).1, (h.logOf (hfree w)).trans hlog, (ht'.listed r hr).2⟩
  case known =>
    by_cases hw : w' = w
    · rw [hw]
      exact known_work haccess hsystem hi h
    · have hkeep : PcOk graph g commands result s' (s.pc w') := by
        refine (hi.known w').mono hsettles (fun hs => h.rules.2 fun hscan => ?_) (fun hnil => ?_)
          fun r hr => h.logOf (hother w' r hw hr)
        · exact hw (ht.scanning_unique hscan hs)
        · exact List.sublist_nil.mp (hnil ▸ h.rules.1)
      rcases h.others hw with heq | heq
      · rw [heq]
        exact hkeep
      · rw [heq]
        exact hkeep.wake
  case done =>
    by_cases hdefault : s.state r = .default
    · -- the rule whose outcome is written
      rcases h.state hi r with hsame | ⟨hlog, hout⟩
      · exact (hr (hsame.trans hdefault)).elim
      · exact hsettles.outcome hlog hout
    · rw [hsettles r hdefault]
      exact hsettles.outcome (h.logOf (hset r hdefault)) (hi.done r hdefault)

theorem inv_step {e : Event W K C} (he : Fixed result e) (ht : Tidy graph g order s)
    (hi : Inv graph g commands result order s) (h : step graph g commands s e = some s') :
    Inv graph g commands result order s' := by
  have ht' := tidy_step ht h
  have hsettles := step_settles ht h
  rcases step_cases h with ⟨w, a, rfl, hworks⟩ | ⟨w, rfl, hpc, rfl⟩
  · exact inv_work he.1 he.2 ht hi ht' hsettles hworks
  · refine
      { nodup := ht'.nodup, lock := ht'.lock, holder := ht'.holder, held := ht'.held, all := ht'.all
        listed := fun r hr => ⟨(ht'.listed r hr).1, (hi.listed r hr).2.1, (ht'.listed r hr).2⟩
        known := ?_, done := hi.done }
    rw [Function.forall_update_iff s.pc fun _ p => PcOk graph g commands result _ p]
    exact ⟨trivial, fun w' _ => (hi.known w').mono hsettles (fun _ => rfl) id fun _ _ => rfl⟩

/-! ## The result -/

/-- **Parallel make computes the sequential result.** Commands are run only once all
dependencies have succeeded. When all workers have exited, each rule that the goals need has
succeeded exactly if its dependencies and its commands have, and its commands were run once,
in order and up to the first failure, if its dependencies have succeeded, and else never. -/
theorem sequential_result [Nonempty W] (hg : GraphLaws graph) (hset : SetLaws set)
    (hacyclic : Acyclic (graph.Edge g)) {goals : List K}
    (hgoals : ∀ t ∈ goals, graph.containsVertex g t = true) :
    ∃ rules, getRulesInOrder graph set g goals = some rules ∧
      ∀ (es : List (Event W K C)) (s : Shop W K C), (∀ e ∈ es, Fixed result e) →
        run (step graph g commands) (Shop.start rules) es = some s →
        (∀ s' w t cs, Visits (step graph g commands) (Shop.start rules) es s' →
          s'.pc w = .running t cs → s'.DepsValid graph g t) ∧
        ((∀ w, s.pc w = .exited) → ∀ r, (∃ t ∈ goals, ReflTransGen (Needs graph g) t r) →
          (s.state r = .valid ↔ s.DepsValid graph g r ∧ ∀ c ∈ commands r, result c = true) ∧
          (s.state r = .invalid ↔ ¬ (s.DepsValid graph g r ∧ ∀ c ∈ commands r, result c = true)) ∧
          (s.DepsValid graph g r → s.logOf r = ran result (commands r)) ∧
          (¬ s.DepsValid graph g r → s.logOf r = [])) := by
  obtain ⟨rules, hrules, hnodup, -, hmem⟩ := getRulesInOrder_spec hg hset hacyclic hgoals
  refine ⟨rules, hrules, fun es s hfixed hrun => ?_⟩
  have hinv : ∀ s', Visits (step graph g commands) (Shop.start rules) es s' →
      Tidy graph g rules s' ∧ Inv graph g commands result rules s' := by
    refine forall_visits_of_takes (C := fun _ e => Fixed result e)
      ⟨tidy_start hnodup, inv_start hnodup⟩ (fun _ _ _ hi he h => ?_) ?_
    · exact ⟨tidy_step hi.1 h, inv_step he hi.1 hi.2 h⟩
    · rintro s' e ⟨pre, hpre, -⟩
      exact hfixed e (hpre.subset (by simp))
  refine ⟨fun s' w t cs hvisits hpc => ?_, fun hexit r hr => ?_⟩
  · have hknown := (hinv s' hvisits).2.known w
    rw [hpc] at hknown
    exact hknown.1
  · have hi := (hinv s (Visits.final hrun)).2
    obtain ⟨w₀⟩ := ‹Nonempty W›
    -- an exited worker has seen the list empty, and no exited worker holds a rule
    have hnil : s.rules = [] := by
      have hknown := hi.known w₀
      rwa [hexit w₀] at hknown
    have hset : s.state r ≠ .default := by
      rcases hi.all r ((hmem r).mpr hr) with h | ⟨w, hw⟩ | h
      · rw [hnil] at h
        exact (List.not_mem_nil h).elim
      · simp [hexit w, Pc.held] at hw
      · exact h
    have hout := hi.done r hset
    refine ⟨hout.state_iff.1, hout.state_iff.2, fun hdeps => ?_, fun hdeps => ?_⟩
    · rcases hout with ⟨-, hran, -⟩ | ⟨⟨d, hd, hinvalid⟩, -, -⟩
      · exact hran
      · simp [hdeps d hd] at hinvalid
    · rcases hout with ⟨hvalid, -, -⟩ | ⟨-, hran, -⟩
      · exact (hdeps hvalid).elim
      · exact hran

/-- A goal with two dependencies. -/
def twoDeps : List Nat × List (Nat × Nat) := ([0, 1, 2], [(0, 1), (0, 2)])

/-- Nothing is a file, and the command `8` fails. -/
def eightFails : Answers Nat Nat := ⟨fun _ => false, fun _ => none, fun c => c ≠ 8⟩

/-- One of two workers does everything. -/
def lazyPartner : List (Event Bool Nat Nat) :=
  List.replicate 27 (.work true eightFails) ++ [.work false eightFails]

theorem sequential_result_lazyPartner :
    ∃ s, run (step listGraph twoDeps fun t => [t + 5, t + 6]) (Shop.start [1, 2, 0]) lazyPartner =
        some s ∧
      (s.state 0 = .invalid ↔ ¬ (s.DepsValid listGraph twoDeps 0 ∧
        ∀ c ∈ [5, 6], eightFails.system c = true)) ∧
      (s.DepsValid listGraph twoDeps 1 → s.logOf 1 = [6, 7]) := by
  have hacyclic : Acyclic (listGraph.Edge twoDeps) := by
    have hlt : ∀ x y, TransGen (listGraph.Edge twoDeps) x y → x < y := by
      intro x y h
      induction h with
      | single h =>
        obtain ⟨-, -, hmem⟩ := (listGraph_edge _ _ _).mp h
        simp [twoDeps] at hmem
        omega
      | tail _ h ih =>
        obtain ⟨-, -, hmem⟩ := (listGraph_edge _ _ _).mp h
        simp [twoDeps] at hmem
        omega
    exact fun x hx => lt_irrefl x (hlt x x hx)
  obtain ⟨rules, hrules, h⟩ := @sequential_result Bool _ _ Nat Nat listGraph listSet twoDeps
    (fun t => [t + 5, t + 6]) eightFails.system _ _ _ listGraph_laws listSet_laws hacyclic [0]
    (by decide)
  obtain rfl : [1, 2, 0] = rules := by
    have horder : getRulesInOrder listGraph listSet twoDeps [0] = some [1, 2, 0] := by
      decide +kernel
    exact Option.some.inj (horder.symm.trans hrules)
  have hend : (run (step listGraph twoDeps fun t => [t + 5, t + 6]) (Shop.start [1, 2, 0])
      lazyPartner).map (fun s => (s.pc true, s.pc false)) = some (.exited, .exited) := by
    decide +kernel
  obtain ⟨s, hrun, hpcs⟩ := Option.map_eq_some_iff.mp hend
  have hexit : ∀ w, s.pc w = .exited := by
    intro w
    cases w with
    | true => exact (Prod.mk.inj hpcs).1
    | false => exact (Prod.mk.inj hpcs).2
  have hfixed : ∀ e ∈ lazyPartner, Fixed eightFails.system e := by
    intro e he
    simp only [lazyPartner, List.mem_append, List.mem_replicate, List.mem_singleton] at he
    rcases he with ⟨-, rfl⟩ | rfl <;> exact ⟨fun _ => rfl, rfl⟩
  have hfinal := (h lazyPartner s hfixed hrun).2 hexit
  have hgoal := hfinal 0 ⟨0, by simp, ReflTransGen.refl⟩
  have hdep := hfinal 1 ⟨0, by simp, ReflTransGen.single (by simp [Needs, listGraph, twoDeps])⟩
  exact ⟨s, hrun, hgoal.2.1, hdep.2.2.1⟩

end SystemProgramming.ParallelMake
