import SystemProgramming.ParallelMake.Order
import SystemProgramming.ParallelMake.Steps

/-!
# How the workers share the list

Whatever `access`, `stat` and `system` answer, a rule is on the list, or with one worker, or has
a state; a worker that scans holds `rules_lock`; and a rule with a state keeps it. What is said
about the result, about files and about waiting rests on this.

## Main definitions

* `Settles`: no state that is set changes
* `Place`: what a worker knows about the list at each point
* `Tidy`: the invariant

## Main results

* `tidy_step`: every step keeps the invariant
* `step_settles`: no step changes a state that is set
-/

namespace SystemProgramming.ParallelMake

variable {W G K C : Type} {graph : GraphOps G K} {g : G} {commands : K → List C}
  {order : List K} {s s' : Shop W K C}

/-- All dependencies have succeeded. -/
def Shop.DepsValid (graph : GraphOps G K) (g : G) (s : Shop W K C) (r : K) : Prop :=
  ∀ d ∈ graph.neighbors g r, s.state d = .valid

/-- States that are set stay as they are. -/
def Settles (s s' : Shop W K C) : Prop := ∀ r, s.state r ≠ .default → s'.state r = s.state r

theorem Settles.depsValid {r : K} (h : Settles s s') (hr : s.DepsValid graph g r) :
    s'.DepsValid graph g r := by
  intro d hd
  rw [h d (by rw [hr d hd]; decide), hr d hd]

theorem Settles.depInvalid {r : K} (h : Settles s s')
    (hr : ∃ d ∈ graph.neighbors g r, s.state d = .invalid) :
    ∃ d ∈ graph.neighbors g r, s'.state d = .invalid := by
  obtain ⟨d, hd, hst⟩ := hr
  exact ⟨d, hd, by rw [h d (by rw [hst]; decide), hst]⟩

/-- The calls of `system` for a rule. -/
def Shop.logOf [DecidableEq K] (s : Shop W K C) (r : K) : List C :=
  (s.log.filter fun e => e.1 = r).map Prod.snd

theorem mem_eraseIdx_iff [DecidableEq K] {rules : List K} {i : Nat} {t r : K} (h : rules.Nodup)
    (ht : rules[i]? = some t) : r ∈ rules.eraseIdx i ↔ r ≠ t ∧ r ∈ rules := by
  obtain ⟨hi, rfl⟩ := List.getElem?_eq_some_iff.mp ht
  rw [← h.erase_getElem i hi, h.mem_erase_iff]

/-- Where a worker stands on the list, and which dependencies it has still to look at. -/
def Place (graph : GraphOps G K) (g : G) (s : Shop W K C) : Pc K C → Prop
  | .scan i n => n = s.rules.length ∧ i < n
  | .files i n t _ => n = s.rules.length ∧ s.rules[i]? = some t
  | .wantDeps i n t ds => n = s.rules.length ∧ s.rules[i]? = some t ∧ ds ⊆ graph.neighbors g t
  | .readDeps i n t ds => n = s.rules.length ∧ s.rules[i]? = some t ∧ ds ⊆ graph.neighbors g t
  | .decided i n t code => n = s.rules.length ∧ s.rules[i]? = some t ∧ code ≠ .alreadyDone
  | .marking _ st => st ≠ .default
  | .writing _ st => st ≠ .default
  | .exited => s.rules = []
  | _ => True

/-- **The sharing invariant**, for a list that began as `order`. -/
structure Tidy (graph : GraphOps G K) (g : G) (order : List K) (s : Shop W K C) : Prop where
  nodup : s.rules.Nodup
  sub : s.rules ⊆ order
  lock : ∀ w, (s.pc w).Scanning → s.rulesLock = some w
  place : ∀ w, Place graph g s (s.pc w)
  listed : ∀ r ∈ s.rules, s.state r = .default ∧ ∀ w, (s.pc w).held ≠ some r
  holder : ∀ w w' r, (s.pc w).held = some r → (s.pc w').held = some r → w = w'
  held : ∀ w r, (s.pc w).held = some r → s.state r = .default
  all : ∀ r ∈ order, r ∈ s.rules ∨ (∃ w, (s.pc w).held = some r) ∨ s.state r ≠ .default

theorem tidy_start (h : order.Nodup) : Tidy graph g order (Shop.start order : Shop W K C) where
  nodup := h
  sub := List.Subset.refl order
  lock := fun _ hs => hs.elim
  place := fun _ => trivial
  listed := fun r _ => ⟨rfl, fun w hw => by simp [Shop.start, Pc.held] at hw⟩
  holder := fun w _ _ hw => by simp [Shop.start, Pc.held] at hw
  held := fun w _ hw => by simp [Shop.start, Pc.held] at hw
  all := fun _ hr => Or.inl hr

/-- Only a worker that scans, or one that has exited, looks at the list. -/
theorem Place.mono {pc : Pc K C} (hrules : pc.Scanning → s'.rules = s.rules)
    (hempty : s.rules = [] → s'.rules = []) (h : Place graph g s pc) : Place graph g s' pc := by
  cases pc with
  | exited => exact hempty h
  | scan | files | wantDeps | readDeps | decided =>
    rw [Place, hrules trivial]
    exact h
  | _ => exact h

/-- Two workers do not scan at the same time. -/
theorem Tidy.scanning_unique (ht : Tidy graph g order s) {w w' : W} (h : (s.pc w).Scanning)
    (h' : (s.pc w').Scanning) : w' = w :=
  Option.some.inj ((ht.lock w' h').symm.trans (ht.lock w h))

/-! ## Kinds of steps -/

/-- A step that changes the locks, the log and where the workers are, but not the rules they
hold. -/
theorem Tidy.quiet (ht : Tidy graph g order s) (hstate : s'.state = s.state)
    (hrules : s'.rules = s.rules) (hheld : ∀ w, (s'.pc w).held = (s.pc w).held)
    (hlock : ∀ w, (s'.pc w).Scanning → s'.rulesLock = some w)
    (hplace : ∀ w, Place graph g s (s'.pc w)) : Tidy graph g order s' where
  nodup := hrules ▸ ht.nodup
  sub := hrules ▸ ht.sub
  lock := hlock
  place := fun w => (hplace w).mono (fun _ => hrules) fun h => hrules.trans h
  listed := fun r hr => by
    obtain ⟨hst, hw⟩ := ht.listed r (hrules ▸ hr)
    exact ⟨hstate ▸ hst, fun w => (hheld w).symm ▸ hw w⟩
  holder := fun w w' r hw hw' => ht.holder w w' r ((hheld w).symm.trans hw) ((hheld w').symm.trans hw')
  held := fun w r hw => hstate ▸ ht.held w r ((hheld w).symm.trans hw)
  all := fun r hr => by
    rw [hrules, hstate]
    rcases ht.all r hr with h | ⟨w, hw⟩ | h
    · exact Or.inl h
    · exact Or.inr (Or.inl ⟨w, (hheld w).trans hw⟩)
    · exact Or.inr (Or.inr h)

variable [DecidableEq W]

/-- The same when only one worker moves. -/
theorem Tidy.move (ht : Tidy graph g order s) {w : W} {p : Pc K C} (hstate : s'.state = s.state)
    (hrules : s'.rules = s.rules) (hpc : s'.pc = Function.update s.pc w p)
    (hheld : p.held = (s.pc w).held) (hlock : p.Scanning → s'.rulesLock = some w)
    (hothers : ∀ w', w' ≠ w → s.rulesLock = some w' → s'.rulesLock = some w')
    (hplace : Place graph g s p) : Tidy graph g order s' := by
  refine ht.quiet hstate hrules ?_ ?_ ?_
  · rw [hpc, Function.forall_update_iff s.pc fun w p => p.held = (s.pc w).held]
    exact ⟨hheld, fun _ _ => rfl⟩
  · rw [hpc, Function.forall_update_iff s.pc fun w p => p.Scanning → s'.rulesLock = some w]
    exact ⟨hlock, fun w' hne hs => hothers w' hne (ht.lock w' hs)⟩
  · rw [hpc, Function.forall_update_iff s.pc fun _ p => Place graph g s p]
    exact ⟨hplace, fun w' _ => ht.place w'⟩

/-- A worker takes a rule off the list. -/
theorem Tidy.take [DecidableEq K] (ht : Tidy graph g order s) {w : W} {i : Nat} {t : K}
    {p : Pc K C} (hscan : (s.pc w).Scanning) (hi : s.rules[i]? = some t) (hheld : p.held = some t)
    (hp : ¬ p.Scanning) (hplace : ∀ s : Shop W K C, Place graph g s p) :
    Tidy graph g order
      { s with rules := s.rules.eraseIdx i, rulesLock := none, pc := Function.update s.pc w p } := by
  have hmem : t ∈ s.rules := List.mem_of_getElem? hi
  obtain ⟨hdefault, hfree⟩ := ht.listed t hmem
  -- the worker has the lock of the list, so nobody else is on the list
  have hfresh : ∀ w', w' ≠ w → ¬ (s.pc w').Scanning :=
    fun w' hne hs => hne (ht.scanning_unique hscan hs)
  have hupdate : ∀ w' r, (Function.update s.pc w p w').held = some r →
      (w' = w ∧ r = t) ∨ (w' ≠ w ∧ (s.pc w').held = some r) := by
    intro w' r h
    by_cases hw : w' = w
    · rw [hw, Function.update_self, hheld] at h
      exact Or.inl ⟨hw, (Option.some.inj h).symm⟩
    · rw [Function.update_of_ne hw] at h
      exact Or.inr ⟨hw, h⟩
  refine
    { nodup := ht.nodup.sublist (List.eraseIdx_sublist _ _)
      sub := fun r hr => ht.sub (List.mem_of_mem_eraseIdx hr)
      lock := ?lock, place := ?place, listed := ?listed
      holder := ?holder, held := ?held, all := ?all }
  case lock =>
    rw [Function.forall_update_iff s.pc fun w' p => p.Scanning → (none : Option W) = some w']
    exact ⟨fun hs => (hp hs).elim, fun w' hne hs => (hfresh w' hne hs).elim⟩
  case place =>
    rw [Function.forall_update_iff s.pc fun _ p => Place graph g _ p]
    refine ⟨hplace _, fun w' hne => (ht.place w').mono (fun hs => (hfresh w' hne hs).elim) ?_⟩
    exact fun hnil => (List.not_mem_nil (hnil ▸ hmem)).elim
  case listed =>
    intro r hr
    obtain ⟨hne, hr⟩ := (mem_eraseIdx_iff ht.nodup hi).mp hr
    obtain ⟨hst, hw⟩ := ht.listed r hr
    refine ⟨hst, fun w' h => ?_⟩
    rcases hupdate w' r h with ⟨-, rfl⟩ | ⟨-, h⟩
    · exact hne rfl
    · exact hw w' h
  case holder =>
    intro w₁ w₂ r h₁ h₂
    rcases hupdate w₁ r h₁ with ⟨rfl, rfl⟩ | ⟨-, h₁⟩
    · rcases hupdate w₂ r h₂ with ⟨rfl, -⟩ | ⟨-, h₂⟩
      · rfl
      · exact (hfree w₂ h₂).elim
    · rcases hupdate w₂ r h₂ with ⟨-, rfl⟩ | ⟨-, h₂⟩
      · exact (hfree w₁ h₁).elim
      · exact ht.holder w₁ w₂ r h₁ h₂
  case held =>
    intro w' r h
    rcases hupdate w' r h with ⟨-, rfl⟩ | ⟨-, h⟩
    · exact hdefault
    · exact ht.held w' r h
  case all =>
    intro r hr
    rcases ht.all r hr with h | ⟨w', hw'⟩ | h
    · by_cases hrt : r = t
      · exact Or.inr (Or.inl ⟨w, by dsimp only; rw [Function.update_self, hheld, hrt]⟩)
      · exact Or.inl ((mem_eraseIdx_iff ht.nodup hi).mpr ⟨hrt, h⟩)
    · have hne : w' ≠ w := by
        rintro rfl
        rw [hscan.held] at hw'
        exact absurd hw' (by simp)
      exact Or.inr (Or.inl ⟨w', by dsimp only; rw [Function.update_of_ne hne, hw']⟩)
    · exact Or.inr (Or.inr h)

/-- The outcome of a rule is written. -/
theorem Tidy.write [DecidableEq K] (ht : Tidy graph g order s) {w : W} {t : K} {st : State}
    (hpc : s.pc w = .writing t st) :
    Tidy graph g order { s with state := Function.update s.state t st
                                pc := Function.update s.pc w .signalling } := by
  have hheld : (s.pc w).held = some t := by
    rw [hpc]
    rfl
  have hst : st ≠ .default := by
    have hplace := ht.place w
    rwa [hpc] at hplace
  have hold : ∀ w' r, (Function.update s.pc w (.signalling : Pc K C) w').held = some r →
      r ≠ t ∧ (s.pc w').held = some r := by
    intro w' r h
    by_cases hw : w' = w
    · rw [hw, Function.update_self] at h
      exact absurd h (by simp [Pc.held])
    · rw [Function.update_of_ne hw] at h
      exact ⟨by rintro rfl; exact hw (ht.holder w' w r h hheld), h⟩
  refine
    { nodup := ht.nodup, sub := ht.sub, lock := ?lock, place := ?place, listed := ?listed
      holder := fun w₁ w₂ r h₁ h₂ => ht.holder w₁ w₂ r (hold w₁ r h₁).2 (hold w₂ r h₂).2
      held := ?held, all := ?all }
  case lock =>
    rw [Function.forall_update_iff s.pc fun w' p => p.Scanning → s.rulesLock = some w']
    exact ⟨fun h => h.elim, fun w' _ => ht.lock w'⟩
  case place =>
    rw [Function.forall_update_iff s.pc fun _ p => Place graph g _ p]
    exact ⟨trivial, fun w' _ => (ht.place w').mono (fun _ => rfl) id⟩
  case listed =>
    intro r hr
    obtain ⟨hdefault, hw⟩ := ht.listed r hr
    have hne : r ≠ t := by
      rintro rfl
      exact hw w hheld
    exact ⟨(Function.update_of_ne hne _ _).trans hdefault, fun w' h => hw w' (hold w' r h).2⟩
  case held =>
    intro w' r h
    obtain ⟨hne, h⟩ := hold w' r h
    exact (Function.update_of_ne hne _ _).trans (ht.held w' r h)
  case all =>
    intro r hr
    by_cases hrt : r = t
    · exact Or.inr (Or.inr (by dsimp only; rw [hrt, Function.update_self]; exact hst))
    · rcases ht.all r hr with h | ⟨w', hw'⟩ | h
      · exact Or.inl h
      · have hne : w' ≠ w := by
          rintro rfl
          exact hrt (Option.some.inj (hw'.symm.trans hheld))
        exact Or.inr (Or.inl ⟨w', by dsimp only; rw [Function.update_of_ne hne, hw']⟩)
      · exact Or.inr (Or.inr (by dsimp only; rwa [Function.update_of_ne hrt]))

/-- A worker wakes the others. -/
theorem Tidy.signal (ht : Tidy graph g order s) {w : W} (hpc : s.pc w = .signalling) :
    Tidy graph g order
      { s with gLock := none, pc := Function.update (fun w => wake (s.pc w)) w .top } := by
  have hplace : ∀ p : Pc K C, Place graph g s p → Place graph g s (wake p) := by
    intro p
    cases p <;> exact id
  refine ht.quiet rfl rfl ?_ ?_ ?_
  · rw [Function.forall_update_iff _ fun w (p : Pc K C) => p.held = (s.pc w).held]
    exact ⟨by rw [hpc]; rfl, fun w' _ => held_wake _⟩
  · rw [Function.forall_update_iff _ fun w (p : Pc K C) => p.Scanning → s.rulesLock = some w]
    exact ⟨fun h => h.elim, fun w' _ h => ht.lock w' (scanning_wake h)⟩
  · rw [Function.forall_update_iff _ fun _ p => Place graph g s p]
    exact ⟨trivial, fun w' _ => hplace _ (ht.place w')⟩

/-! ## Every step -/

section Moves

variable {w : W} {a : Answers K C} {q p : Pc K C} {rulesLock gLock : Option W}

omit [DecidableEq W] in
/-- A worker that moves on the list stays on it. -/
theorem Moves.place (h : Moves graph g s w a q p rulesLock gLock)
    (hlisted : ∀ r ∈ s.rules, s.state r = .default) (hq : Place graph g s q) :
    Place graph g s p := by
  cases h with
  | exit hfree hnil => exact hnil
  | enter hfree hne => exact ⟨rfl, List.length_pos_of_ne_nil hne⟩
  | done hi hst => exact (hst (hlisted _ (List.mem_of_getElem? hi))).elim
  | noDeps hi hnil hcode =>
    refine ⟨hq.1, hi, ?_⟩
    rcases hcode with ⟨rfl, -⟩ | rfl <;> decide
  | isFile hi ha => exact ⟨hq.1, hi⟩
  | noFile hi ha => exact ⟨hq.1, hi, List.Subset.refl _⟩
  | older => exact hq
  | newer hmet => exact ⟨hq.1, hq.2, by decide⟩
  | settled hcode =>
    refine ⟨hq.1, hq.2, ?_⟩
    rcases hcode with rfl | rfl <;> decide
  | lockDeps hfree => exact hq
  | allValid => exact ⟨hq.1, hq.2.1, by decide⟩
  | @notValid i n t d ds hd =>
    refine ⟨hq.1, hq.2.1, ?_⟩
    cases s.state d <;> decide
  | isValid hd => exact ⟨hq.1, hq.2.1, List.subset_of_cons_subset hq.2.2⟩
  | next hlast =>
    obtain ⟨hn, hi, -⟩ := hq
    have hlt := (List.getElem?_eq_some_iff.mp hi).1
    exact ⟨hn, by omega⟩
  | wait hlast => trivial
  | finish => exact State.noConfusion
  | mark hfree => exact hq
  | back hfree => trivial

/-- A worker moves on. -/
theorem Tidy.moves (ht : Tidy graph g order s) (hpc : s.pc w = q)
    (h : Moves graph g s w a q p rulesLock gLock) :
    Tidy graph g order
      { s with rulesLock := rulesLock, gLock := gLock, pc := Function.update s.pc w p } := by
  have hlock : q.Scanning → s.rulesLock = some w := fun hs => ht.lock w (hpc ▸ hs)
  refine ht.move rfl rfl rfl (hpc ▸ h.held) ?_ ?_ ?_
  · intro hp
    rcases h.lock hp with hown | ⟨hq, hsame⟩
    · exact hown
    · exact hsame.trans (hlock hq)
  · -- another worker that holds `rules_lock` keeps it
    intro w' hne hw'
    rcases h.others with hsame | hfree | hq
    · exact hsame.trans hw'
    · simp [hfree] at hw'
    · exact (hne (Option.some.inj (hw'.symm.trans (hlock hq)))).elim
  · exact h.place (fun r hr => (ht.listed r hr).1) (hpc ▸ ht.place w)

end Moves

variable [DecidableEq K]

/-- A worker takes the rule that it has decided about. -/
theorem Tidy.deals (ht : Tidy graph g order s) {w : W} {i n : Nat} {t : K} {code : StatCode}
    {p : Pc K C} (hpc : s.pc w = .decided i n t code) (h : Deals commands t code p) :
    Tidy graph g order
      { s with rules := s.rules.eraseIdx i, rulesLock := none, pc := Function.update s.pc w p } := by
  have hplace := ht.place w
  have hscan : (s.pc w).Scanning := by
    rw [hpc]
    trivial
  rw [hpc] at hplace
  obtain ⟨-, hi, hcode⟩ := hplace
  refine ht.take hscan hi (h.held hcode) h.not_scanning fun s' => ?_
  cases h <;> first | trivial | exact State.noConfusion

/-- **Every step of a worker keeps the sharing invariant.** -/
theorem tidy_work {w : W} {a : Answers K C} (ht : Tidy graph g order s)
    (h : Works graph g commands s w a s') : Tidy graph g order s' := by
  cases h with
  | move hpc h => exact ht.moves hpc h
  | take hpc h => exact ht.deals hpc h
  | system hpc =>
    -- only the log changes, which the invariant does not mention
    refine ht.move rfl rfl rfl ?_ ?_ (fun _ _ h => h) ?_
    · rw [hpc]
      split_ifs <;> rfl
    · split_ifs <;> exact fun h => h.elim
    · split_ifs
      · trivial
      · exact State.noConfusion
  | write hpc => exact ht.write hpc
  | signal hpc => exact ht.signal hpc

theorem tidy_step {e : Event W K C} (ht : Tidy graph g order s)
    (h : step graph g commands s e = some s') : Tidy graph g order s' := by
  rcases step_cases h with ⟨w, a, rfl, hworks⟩ | ⟨w, rfl, hpc, rfl⟩
  · exact tidy_work ht hworks
  · exact ht.move rfl rfl rfl (by rw [hpc]; rfl) (fun h => h.elim) (fun _ _ h => h) trivial

/-- **No step changes a state that is set**: a worker writes only to the rule it holds. -/
theorem step_settles {e : Event W K C} (ht : Tidy graph g order s)
    (h : step graph g commands s e = some s') : Settles s s' := by
  rcases step_cases h with ⟨w, a, rfl, hworks⟩ | ⟨w, rfl, hpc, rfl⟩
  · cases hworks with
    | @write t st hpc =>
      intro r hr
      refine Function.update_of_ne ?_ _ _
      rintro rfl
      exact hr (ht.held w r (by rw [hpc]; rfl))
    | _ => exact fun _ _ => rfl
  · exact fun _ _ => rfl

/-- A goal with one dependency. -/
def oneDep : List Nat × List (Nat × Nat) := ([0, 1], [(0, 1)])

theorem acyclic_oneDep : Acyclic (listGraph.Edge oneDep) := by
  have hedge : ∀ x y, listGraph.Edge oneDep x y → x = 0 ∧ y = 1 := by
    intro x y h
    obtain ⟨-, -, hmem⟩ := (listGraph_edge _ _ _).mp h
    simpa [oneDep] using hmem
  intro x hx
  obtain ⟨y, hxy, -⟩ := Relation.TransGen.head'_iff.mp hx
  obtain ⟨z, -, hzx⟩ := Relation.TransGen.tail'_iff.mp hx
  have h₁ := (hedge x y hxy).1
  have h₂ := (hedge z x hzx).2
  omega

end SystemProgramming.ParallelMake
