import Mathlib.Tactic

/-!
# Runs of a transition function

A system is a transition function `step : σ → ι → Option σ`: an input that is not
enabled in a state has no successor. A run is a list of inputs. An invariant holds in
every reachable state once it holds initially and across one step, and a property that is
lost exactly at the steps violating a condition holds along a run exactly when every step
of the run meets the condition.

## Main definitions

* `run step s is`: the state after the inputs `is`
* `Reachable step s₀ s`: some run leads from `s₀` to `s`
* `Visits step s₀ is s`: the run `is` passes through `s`
* `Takes step s₀ is s i`: the run `is` takes the input `i` in the state `s`
* `checkRun step check s₀ is`: a test of every step of a run

## Main results

* `Reachable.invariant`: the invariant rule
* `length_add_measure_le`: the rule for termination
* `forall_visits_of_takes`: a property kept by the steps meeting a condition
* `forall_visits_iff`: a property lost exactly at the steps violating a condition
* `forall_takes_iff`: a property of single steps, under an invariant of a condition
* `forall_takes_congr`: the same for runs that need not go through
* `forall_takes_of_checkRun`: a test that succeeds holds at every step
-/

namespace SystemProgramming

variable {σ ι : Type*} (step : σ → ι → Option σ)

/-- The state after the inputs `is`, if each of them is enabled in turn. -/
def run (s : σ) (is : List ι) : Option σ := is.foldlM step s

/-- Some run leads from `s₀` to `s`. -/
def Reachable (s₀ s : σ) : Prop := ∃ is, run step s₀ is = some s

/-- The run `is` from `s₀` passes through the state `s`. -/
def Visits (s₀ : σ) (is : List ι) (s : σ) : Prop := ∃ pre, pre <+: is ∧ run step s₀ pre = some s

/-- The run `is` from `s₀` takes the input `i` in the state `s`. -/
def Takes (s₀ : σ) (is : List ι) (s : σ) (i : ι) : Prop :=
  ∃ pre, pre ++ [i] <+: is ∧ run step s₀ pre = some s

/-- Test every step that the run `is` from `s₀` takes. -/
def checkRun (check : σ → ι → Bool) : σ → List ι → Bool
  | _, [] => true
  | s, i :: is => check s i && (step s i).all fun s' => checkRun check s' is

variable {step} {s₀ s s' : σ} {is : List ι} {i : ι}

@[simp] theorem run_nil : run step s [] = some s := rfl

theorem run_cons : run step s (i :: is) = (step s i).bind fun s' => run step s' is := rfl

theorem run_append (is' : List ι) :
    run step s (is ++ is') = (run step s is).bind fun s' => run step s' is' := by
  simp [run, List.foldlM_append]

theorem run_snoc : run step s (is ++ [i]) = (run step s is).bind fun s' => step s' i := by
  rw [run_append]
  congr 1
  funext s'
  cases h : step s' i <;> simp [run_cons, h]

theorem run_snoc_eq_some :
    run step s (is ++ [i]) = some s' ↔ ∃ t, run step s is = some t ∧ step t i = some s' := by
  rw [run_snoc, Option.bind_eq_some_iff]

/-- A prefix of a run that goes through goes through. -/
theorem exists_run_of_prefix {pre : List ι} (hp : pre <+: is) (h : run step s₀ is = some s) :
    ∃ t, run step s₀ pre = some t := by
  obtain ⟨rest, rfl⟩ := hp
  rw [run_append, Option.bind_eq_some_iff] at h
  exact h.imp fun _ ht => ht.1

/-- The states before and after an input of a run. -/
theorem exists_states {pre post : List ι} (h : (run step s₀ (pre ++ [i] ++ post)).isSome) :
    ∃ s t u, run step s₀ pre = some s ∧ step s i = some t ∧ run step t post = some u ∧
      run step s₀ (pre ++ [i]) = some t ∧ run step s₀ (pre ++ [i] ++ post) = some u := by
  obtain ⟨u, hu⟩ := Option.isSome_iff_exists.mp h
  obtain ⟨t, ht⟩ := exists_run_of_prefix (List.prefix_append _ _) hu
  obtain ⟨s, hs, hi⟩ := run_snoc_eq_some.mp ht
  refine ⟨s, t, u, hs, hi, ?_, ht, hu⟩
  rwa [run_append, ht, Option.bind_some] at hu

namespace Reachable

theorem refl : Reachable step s₀ s₀ := ⟨[], rfl⟩

theorem next (h : Reachable step s₀ s) (hs : step s i = some s') : Reachable step s₀ s' := by
  obtain ⟨is, his⟩ := h
  exact ⟨is ++ [i], run_snoc_eq_some.mpr ⟨s, his, hs⟩⟩

theorem run (h : Reachable step s₀ s) (hr : SystemProgramming.run step s is = some s') :
    Reachable step s₀ s' := by
  obtain ⟨pre, hpre⟩ := h
  refine ⟨pre ++ is, ?_⟩
  rw [run_append, hpre]
  exact hr

/-- **The invariant rule.** -/
theorem invariant {P : σ → Prop} (h₀ : P s₀)
    (hstep : ∀ s i s', P s → step s i = some s' → P s') (h : Reachable step s₀ s) : P s := by
  obtain ⟨is, his⟩ := h
  induction is using List.reverseRecOn generalizing s with
  | nil => exact Option.some.inj his ▸ h₀
  | append_singleton is i ih =>
    obtain ⟨t, ht, hi⟩ := run_snoc_eq_some.mp his
    exact hstep t i s (ih ht) hi

end Reachable

/-- **The rule for termination.** Where every step keeps the invariant and lowers the measure, a
run is no longer than the measure at its start. -/
theorem length_add_measure_le {P : σ → Prop} {μ : σ → ℕ} (h₀ : P s₀)
    (hstep : ∀ s i s', P s → step s i = some s' → P s' ∧ μ s' < μ s)
    (hrun : run step s₀ is = some s) : P s ∧ is.length + μ s ≤ μ s₀ := by
  induction is using List.reverseRecOn generalizing s with
  | nil =>
    obtain rfl := Option.some.inj hrun
    exact ⟨h₀, by simp⟩
  | append_singleton is i ih =>
    obtain ⟨t, ht, hi⟩ := run_snoc_eq_some.mp hrun
    obtain ⟨hP, hle⟩ := ih ht
    obtain ⟨hP', hlt⟩ := hstep t i s hP hi
    refine ⟨hP', ?_⟩
    rw [List.length_append, List.length_singleton]
    omega

theorem Visits.start : Visits step s₀ is s₀ := ⟨[], List.nil_prefix, rfl⟩

theorem Visits.final (h : run step s₀ is = some s) : Visits step s₀ is s := ⟨is, List.prefix_rfl, h⟩

theorem Visits.reachable (h : Visits step s₀ is s) : Reachable step s₀ s :=
  ⟨h.choose, h.choose_spec.2⟩

theorem Visits.snoc (h : Visits step s₀ is s) : Visits step s₀ (is ++ [i]) s :=
  h.imp fun _ hp => ⟨hp.1.trans (List.prefix_append _ _), hp.2⟩

theorem Takes.snoc {j : ι} (h : Takes step s₀ is s i) : Takes step s₀ (is ++ [j]) s i :=
  h.imp fun _ hp => ⟨hp.1.trans (List.prefix_append _ _), hp.2⟩

theorem Takes.last (h : run step s₀ is = some s) : Takes step s₀ (is ++ [i]) s i :=
  ⟨is, List.prefix_rfl, h⟩

/-- A property kept by every step meeting `C` holds in every state of a run whose steps
meet `C`. -/
theorem forall_visits_of_takes {P : σ → Prop} {C : σ → ι → Prop} (h₀ : P s₀)
    (hstep : ∀ s i s', P s → C s i → step s i = some s' → P s')
    (hC : ∀ s i, Takes step s₀ is s i → C s i) : ∀ s, Visits step s₀ is s → P s := by
  rintro s ⟨pre, hpre, hs⟩
  induction pre using List.reverseRecOn generalizing s with
  | nil => exact Option.some.inj hs ▸ h₀
  | append_singleton pre i ih =>
    obtain ⟨t, ht, hi⟩ := run_snoc_eq_some.mp hs
    have hpre' : pre <+: is := (List.prefix_append pre [i]).trans hpre
    exact hstep t i s (ih t hpre' ht) (hC t i ⟨pre, hpre, ht⟩) hi

/-- A step of a run with one more input is a step of the run, or the last one. -/
theorem takes_snoc {j : ι} (h : Takes step s₀ (is ++ [i]) s j) :
    Takes step s₀ is s j ∨ (j = i ∧ run step s₀ is = some s) := by
  obtain ⟨pre, hpre, hs⟩ := h
  rcases List.prefix_concat_iff.mp hpre with heq | hpre
  · obtain ⟨rfl, hj⟩ := List.append_inj' heq rfl
    exact Or.inr ⟨by simpa using hj, hs⟩
  · exact Or.inl ⟨pre, hpre, hs⟩

/-- A property that is kept by every step meeting `C` and lost by every other step holds
along a run exactly when all its steps meet `C`. -/
theorem forall_visits_iff {P Q : σ → Prop} {C : σ → ι → Prop} (h₀ : P s₀)
    (hstep : ∀ s i s', P s → C s i → step s i = some s' → P s') (hPQ : ∀ s, P s → Q s)
    (hbad : ∀ s i s', P s → ¬ C s i → step s i = some s' → ¬ Q s')
    (hrun : run step s₀ is = some s') :
    (∀ s, Visits step s₀ is s → Q s) ↔ ∀ s i, Takes step s₀ is s i → C s i := by
  refine ⟨fun hQ => ?_, fun hC s hs => hPQ s (forall_visits_of_takes h₀ hstep hC s hs)⟩
  induction is using List.reverseRecOn generalizing s' with
  | nil =>
    rintro s i ⟨pre, hpre, -⟩
    simp at hpre
  | append_singleton is i ih =>
    obtain ⟨t, ht, hi⟩ := run_snoc_eq_some.mp hrun
    have hC := ih ht fun s hs => hQ s hs.snoc
    intro s j hj
    rcases takes_snoc hj with hj | ⟨rfl, hs⟩
    · exact hC s j hj
    · -- the steps before the last one meet `C`, so the invariant is there when it is taken
      obtain rfl : t = s := Option.some.inj (ht.symm.trans hs)
      have hP : P t := forall_visits_of_takes h₀ hstep hC t (Visits.final ht)
      by_contra hnC
      exact hbad t j s' hP hnC hi (hQ s' (Visits.final hrun))

/-- A step that a run takes has a successor. -/
theorem Takes.exists_step (h : Takes step s₀ is s i) (hrun : run step s₀ is = some s') :
    ∃ t, step s i = some t := by
  obtain ⟨pre, hpre, hs⟩ := h
  obtain ⟨t, ht⟩ := exists_run_of_prefix hpre hrun
  obtain ⟨u, hu, hi⟩ := run_snoc_eq_some.mp ht
  obtain rfl : u = s := Option.some.inj (hu.symm.trans hs)
  exact ⟨t, hi⟩

/-- Where the steps meeting `C` keep `P`, and under `P` a step is good exactly when it meets
`C`, the steps of a run are all good exactly when they all meet `C`. -/
theorem forall_takes_iff {P : σ → Prop} {C G : σ → ι → Prop} (h₀ : P s₀)
    (hstep : ∀ s i s', P s → C s i → step s i = some s' → P s')
    (hgood : ∀ s i s', P s → step s i = some s' → (G s i ↔ C s i))
    (hrun : run step s₀ is = some s') :
    (∀ s i, Takes step s₀ is s i → G s i) ↔ ∀ s i, Takes step s₀ is s i → C s i := by
  constructor
  · intro hG
    induction is using List.reverseRecOn generalizing s' with
    | nil =>
      rintro s i ⟨pre, hpre, -⟩
      simp at hpre
    | append_singleton is i ih =>
      obtain ⟨t, ht, hi⟩ := run_snoc_eq_some.mp hrun
      have hC := ih ht fun s j hj => hG s j hj.snoc
      intro s j hj
      rcases takes_snoc hj with hj | ⟨rfl, hs⟩
      · exact hC s j hj
      · obtain rfl : t = s := Option.some.inj (ht.symm.trans hs)
        have hP : P t := forall_visits_of_takes h₀ hstep hC t (Visits.final ht)
        exact (hgood t j s' hP hi).mp (hG t j (Takes.last ht))
  · intro hC s i hi
    obtain ⟨t, ht⟩ := hi.exists_step hrun
    have hP : P s := by
      obtain ⟨pre, hpre, hs⟩ := hi
      exact forall_visits_of_takes h₀ hstep hC s ⟨pre, (List.prefix_append pre [i]).trans hpre, hs⟩
    exact (hgood s i t hP ht).mpr (hC s i hi)

/-- Where the steps meeting `C` keep `P`, and under `P` the steps that are good are those that meet
`C`, the steps that a run takes are all good exactly when they all meet `C`, also where the run does
not go through. -/
theorem forall_takes_congr {P : σ → Prop} {C G : σ → ι → Prop} (h₀ : P s₀)
    (hstep : ∀ s i s', P s → C s i → step s i = some s' → P s')
    (hgood : ∀ s i, P s → (G s i ↔ C s i)) :
    (∀ s i, Takes step s₀ is s i → G s i) ↔ ∀ s i, Takes step s₀ is s i → C s i := by
  have hvisits : ∀ {D : σ → ι → Prop}, (∀ s i, P s → D s i → C s i) →
      (∀ s i, Takes step s₀ is s i → D s i) → ∀ s i, Takes step s₀ is s i → P s := by
    rintro D hDC hD s i ⟨pre, hpre, hs⟩
    exact forall_visits_of_takes h₀ (fun s i s' hP hd => hstep s i s' hP (hDC s i hP hd)) hD s
      ⟨pre, (List.prefix_append pre [i]).trans hpre, hs⟩
  constructor
  · intro hG s i hi
    have hP := hvisits (fun s i hP => (hgood s i hP).mp) hG s i hi
    exact (hgood s i hP).mp (hG s i hi)
  · intro hC s i hi
    have hP := hvisits (fun _ _ _ hc => hc) hC s i hi
    exact (hgood s i hP).mpr (hC s i hi)

/-- A test that succeeds on a run holds at every step the run takes. -/
theorem forall_takes_of_checkRun {check : σ → ι → Bool} (h : checkRun step check s₀ is = true) :
    ∀ s i, Takes step s₀ is s i → check s i = true := by
  rintro s i ⟨pre, ⟨post, rfl⟩, hs⟩
  induction pre generalizing s₀ with
  | nil =>
    obtain rfl : s₀ = s := Option.some.inj hs
    simp only [List.nil_append, List.singleton_append, checkRun, Bool.and_eq_true] at h
    exact h.1
  | cons j pre ih =>
    simp only [List.cons_append, checkRun, Bool.and_eq_true] at h
    rw [run_cons, Option.bind_eq_some_iff] at hs
    obtain ⟨t, ht, hs⟩ := hs
    rw [ht, Option.all_some] at h
    exact ih hs h.2

end SystemProgramming
