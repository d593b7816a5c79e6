import SystemProgramming.Foundation.Run

/-!
# Simulations

Two systems run side by side on the same inputs. They are related step by step when from
related states an input is enabled in both of them or in neither, and leads to related
states again. Runs of the two systems are then related.

## Main results

* `rel_bind`: related computations one after another
* `rel_run`: related steps make related runs
* `forward_run`: a system that can follow every step of another can follow its runs
* `Reachable.simulate`: the same, with any number of steps for each step
-/

namespace SystemProgramming

variable {α β γ δ σ τ ι : Type*}

/-- Computations that are related end in related values, or both fail. -/
theorem rel_bind {r : α → β → Prop} {s : γ → δ → Prop} {a : Option α} {b : Option β}
    {f : α → Option γ} {g : β → Option δ} (h : Option.Rel r a b)
    (hfg : ∀ x y, r x y → Option.Rel s (f x) (g y)) : Option.Rel s (a.bind f) (b.bind g) := by
  cases h with
  | none => exact .none
  | some hxy => exact hfg _ _ hxy

/-- The last step of one of the two is a value. -/
theorem rel_bind_some {r : α → β → Prop} {s : γ → β → Prop} {a : Option α} {b : Option β}
    {f : α → γ} (h : Option.Rel r a b) (hf : ∀ x y, r x y → s (f x) y) :
    Option.Rel s (a.bind fun x => some (f x)) b := by
  cases h with
  | none => exact .none
  | some hxy => exact .some (hf _ _ hxy)

theorem rel_map_left {r : α → β → Prop} {s : γ → β → Prop} {a : Option α} {b : Option β}
    {f : α → γ} (h : Option.Rel r a b) (hf : ∀ x y, r x y → s (f x) y) :
    Option.Rel s (a.map f) b := by
  rw [Option.map_eq_bind]
  exact rel_bind_some h hf

theorem rel_map {r : α → β → Prop} {s : γ → δ → Prop} {a : Option α} {b : Option β}
    {f : α → γ} {g : β → δ} (h : Option.Rel r a b) (hfg : ∀ x y, r x y → s (f x) (g y)) :
    Option.Rel s (a.map f) (b.map g) := by
  cases h with
  | none => exact .none
  | some hxy => exact .some (hfg _ _ hxy)

/-- Values that are equal to all intents, seen through `f`. -/
theorem rel_map_eq {r : α → β → Prop} {a : Option α} {b : Option β} {f : α → γ} {g : β → γ}
    (h : Option.Rel r a b) (hfg : ∀ x y, r x y → f x = g y) : a.map f = b.map g := by
  cases h with
  | none => rfl
  | some hxy => exact congrArg some (hfg _ _ hxy)

/-- A value that is there is related to another one that is there. -/
theorem rel_some_left {r : α → β → Prop} {a : Option α} {b : Option β} {x : α}
    (h : Option.Rel r a b) (ha : a = some x) : ∃ y, b = some y ∧ r x y := by
  subst ha
  cases h with
  | some hxy => exact ⟨_, rfl, hxy⟩

theorem rel_some_right {r : α → β → Prop} {a : Option α} {b : Option β} {y : β}
    (h : Option.Rel r a b) (hb : b = some y) : ∃ x, a = some x ∧ r x y := by
  subst hb
  cases h with
  | some hxy => exact ⟨_, rfl, hxy⟩

/-- **Related steps make related runs.** -/
theorem rel_run {R : σ → τ → Prop} {step : σ → ι → Option σ} {step' : τ → ι → Option τ}
    (hstep : ∀ s t i, R s t → Option.Rel R (step s i) (step' t i)) (is : List ι) {s : σ} {t : τ}
    (h : R s t) : Option.Rel R (run step s is) (run step' t is) := by
  induction is generalizing s t with
  | nil => exact .some h
  | cons i is ih =>
    rw [run_cons, run_cons]
    apply rel_bind (hstep s t i h)
    intro s' t' h'
    exact ih h'

/-- **Forward simulation.** Where every step of the second system can be followed by the first
one, so can every run. -/
theorem forward_run {R : σ → τ → Prop} {step : σ → ι → Option σ} {step' : τ → ι → Option τ}
    (hstep : ∀ s t i t', R s t → step' t i = some t' → ∃ s', step s i = some s' ∧ R s' t')
    {is : List ι} {s : σ} {t t' : τ} (h : R s t) (hrun : run step' t is = some t') :
    ∃ s', run step s is = some s' ∧ R s' t' := by
  induction is generalizing s t with
  | nil =>
    obtain rfl : t = t' := Option.some.inj hrun
    exact ⟨s, rfl, h⟩
  | cons i is ih =>
    rw [run_cons, Option.bind_eq_some_iff] at hrun
    obtain ⟨u, hu, hrun⟩ := hrun
    obtain ⟨s', hs', h'⟩ := hstep s t i u h hu
    obtain ⟨s'', hs'', h''⟩ := ih h' hrun
    refine ⟨s'', ?_, h''⟩
    rw [run_cons, hs']
    exact hs''

/-- **Simulation with any number of steps.** Where every step of a system can be followed by some
steps of another one, so can every state that it reaches. -/
theorem Reachable.simulate {κ : Type*} {R : σ → τ → Prop} {step : σ → ι → Option σ}
    {step' : τ → κ → Option τ} {s₀ s : σ} {t₀ : τ} (h : Reachable step s₀ s) (h₀ : R s₀ t₀)
    (hstep : ∀ s t i s', R s t → step s i = some s' → ∃ t', Reachable step' t t' ∧ R s' t') :
    ∃ t, Reachable step' t₀ t ∧ R s t := by
  refine h.invariant (P := fun s => ∃ t, Reachable step' t₀ t ∧ R s t) ⟨t₀, .refl, h₀⟩ ?_
  rintro s i s' ⟨t, ht, hR⟩ hs
  obtain ⟨t', ⟨is, his⟩, hR'⟩ := hstep s t i s' hR hs
  exact ⟨t', ht.run his, hR'⟩

end SystemProgramming
