import SystemProgramming.ParallelMake.Parmake

/-!
# What a worker can do in a step

In most steps a worker only moves on and takes or gives back a lock. In the others it takes a
rule off the list, runs a command, writes an outcome, or wakes those that wait. `work` is read
once, here; everything that is proved about the workers goes through these cases.

## Main definitions

* `Pc.held`, `Pc.Scanning`: the rule that a worker holds, and whether it holds `rules_lock`
* `Moves`: where a worker can move on to, and what becomes of the locks
* `Works`: the effects of a step

## Main results

* `work_cases`, `step_cases`: the steps of a worker are these
* `Moves.held`, `Moves.lock`, `Moves.others`: what every move leaves as it is
-/

namespace SystemProgramming.ParallelMake

variable {W G K C : Type}

/-- The rule a worker has taken off the list. -/
def Pc.held : Pc K C → Option K
  | .running t _ => some t
  | .marking t _ => some t
  | .writing t _ => some t
  | _ => none

/-- Does a worker hold `rules_lock`? -/
def Pc.Scanning : Pc K C → Prop
  | .scan _ _ => True
  | .files _ _ _ _ => True
  | .wantDeps _ _ _ _ => True
  | .readDeps _ _ _ _ => True
  | .decided _ _ _ _ => True
  | _ => False

theorem Pc.Scanning.held {pc : Pc K C} (h : pc.Scanning) : pc.held = none := by
  cases pc <;> first | rfl | exact h.elim

theorem held_wake (pc : Pc K C) : (wake pc).held = pc.held := by
  cases pc <;> rfl

theorem scanning_wake {pc : Pc K C} (h : (wake pc).Scanning) : pc.Scanning := by
  cases pc <;> exact h

/-- A worker moves on from one point to another. The last two places are the owners of
`rules_lock` and `g_lock` afterwards. -/
inductive Moves (graph : GraphOps G K) (g : G) (s : Shop W K C) (w : W) (a : Answers K C) :
    Pc K C → Pc K C → Option W → Option W → Prop
  | exit (hfree : s.rulesLock = none) (hnil : s.rules = []) :
      Moves graph g s w a .top .exited s.rulesLock s.gLock
  | enter (hfree : s.rulesLock = none) (hne : s.rules ≠ []) :
      Moves graph g s w a .top (.scan 0 s.rules.length) (some w) s.gLock
  | done {i n t} (hi : s.rules[i]? = some t) (ht : s.state t ≠ .default) :
      Moves graph g s w a (.scan i n) (.decided i n t .alreadyDone) s.rulesLock s.gLock
  | noDeps {i n t code} (hi : s.rules[i]? = some t) (hnil : graph.neighbors g t = [])
      (hcode : code = .satNoRun ∧ a.access t = true ∨ code = .runImm) :
      Moves graph g s w a (.scan i n) (.decided i n t code) s.rulesLock s.gLock
  | isFile {i n t} (hi : s.rules[i]? = some t) (ha : a.access t = true) :
      Moves graph g s w a (.scan i n) (.files i n t (graph.neighbors g t)) s.rulesLock s.gLock
  | noFile {i n t} (hi : s.rules[i]? = some t) (ha : a.access t = false) :
      Moves graph g s w a (.scan i n) (.wantDeps i n t (graph.neighbors g t)) s.rulesLock s.gLock
  /-- A dependency that does not count as newer. -/
  | older {i n t d ds} :
      Moves graph g s w a (.files i n t (d :: ds)) (.files i n t ds) s.rulesLock s.gLock
  | newer {i n t d ds}
      (hmet : a.access d = false ∨
        ∃ t₁ t₂, a.mtime t = some t₁ ∧ a.mtime d = some t₂ ∧ diff t₁ t₂ < 0) :
      Moves graph g s w a (.files i n t (d :: ds)) (.decided i n t .runImm) s.rulesLock s.gLock
  /-- The end of the loop over a file, or a failure of `stat`. -/
  | settled {i n t ds code} (hcode : code = .satNoRun ∨ code = .err) :
      Moves graph g s w a (.files i n t ds) (.decided i n t code) s.rulesLock s.gLock
  | lockDeps {i n t ds} (hfree : s.gLock = none) :
      Moves graph g s w a (.wantDeps i n t ds) (.readDeps i n t ds) s.rulesLock (some w)
  | allValid {i n t} :
      Moves graph g s w a (.readDeps i n t []) (.decided i n t .runImm) s.rulesLock none
  | notValid {i n t d ds} (hd : s.state d ≠ .valid) :
      Moves graph g s w a (.readDeps i n t (d :: ds)) (.decided i n t (s.state d).code)
        s.rulesLock none
  | isValid {i n t d ds} (hd : s.state d = .valid) :
      Moves graph g s w a (.readDeps i n t (d :: ds)) (.readDeps i n t ds) s.rulesLock s.gLock
  | next {i n t} (hlast : i + 1 ≠ n) :
      Moves graph g s w a (.decided i n t .notFinished) (.scan (i + 1) n) s.rulesLock s.gLock
  | wait {i n t} (hlast : i + 1 = n) :
      Moves graph g s w a (.decided i n t .notFinished) .waiting none s.gLock
  | finish {t} : Moves graph g s w a (.running t []) (.marking t .valid) s.rulesLock s.gLock
  | mark {t st} (hfree : s.gLock = none) :
      Moves graph g s w a (.marking t st) (.writing t st) s.rulesLock (some w)
  | back (hfree : s.rulesLock = none) : Moves graph g s w a .woken .top s.rulesLock s.gLock

/-- A worker goes on with the rule it takes off the list, as `run_status` says. -/
inductive Deals (commands : K → List C) (t : K) : StatCode → Pc K C → Prop
  | run : Deals commands t .runImm (.running t (commands t))
  | skip : Deals commands t .satNoRun (.marking t .valid)
  | fail : Deals commands t .err (.marking t .invalid)
  | drop : Deals commands t .alreadyDone .top

/-- The effects of a step of a worker. -/
inductive Works [DecidableEq W] [DecidableEq K] (graph : GraphOps G K) (g : G)
    (commands : K → List C) (s : Shop W K C) (w : W) (a : Answers K C) : Shop W K C → Prop
  | move {q p rulesLock gLock} (hpc : s.pc w = q)
      (h : Moves graph g s w a q p rulesLock gLock) :
      Works graph g commands s w a
        { s with rulesLock := rulesLock, gLock := gLock, pc := Function.update s.pc w p }
  | take {i n t code p} (hpc : s.pc w = .decided i n t code) (h : Deals commands t code p) :
      Works graph g commands s w a
        { s with rules := s.rules.eraseIdx i, rulesLock := none, pc := Function.update s.pc w p }
  | system {t c cs} (hpc : s.pc w = .running t (c :: cs)) :
      Works graph g commands s w a
        { s with log := s.log ++ [(t, c)]
                 pc := Function.update s.pc w
                  (if a.system c then .running t cs else .marking t .invalid) }
  | write {t st} (hpc : s.pc w = .writing t st) :
      Works graph g commands s w a
        { s with state := Function.update s.state t st
                 pc := Function.update s.pc w .signalling }
  | signal (hpc : s.pc w = .signalling) :
      Works graph g commands s w a
        { s with gLock := none, pc := Function.update (fun w => wake (s.pc w)) w .top }

variable {graph : GraphOps G K} {g : G} {commands : K → List C} {s s' : Shop W K C} {w : W}
  {a : Answers K C}

/-- The start of `run_status` is a move. -/
theorem moves_runStatus [DecidableEq W] [DecidableEq K] {i n : Nat} {t : K}
    (hi : s.rules[i]? = some t) :
    Moves graph g s w a (.scan i n) (runStatus graph g s a i n t) s.rulesLock s.gLock := by
  by_cases ht : s.state t = .default
  · rw [runStatus, if_neg (not_not.mpr ht)]
    cases hds : graph.neighbors g t with
    | nil =>
      by_cases ha : a.access t = true
      · exact .noDeps hi hds (Or.inl ⟨if_pos ha, ha⟩)
      · exact .noDeps hi hds (Or.inr (if_neg ha))
    | cons d ds =>
      dsimp only
      rw [← hds]
      split_ifs with ha
      · exact .isFile hi ha
      · exact .noFile hi (Bool.eq_false_of_not_eq_true ha)
  · rw [runStatus, if_pos ht]
    exact .done hi ht

/-- A round over the dependencies of a file is a move. -/
theorem moves_fileRound {i n : Nat} {t : K} {ds : List K} :
    Moves graph g s w a (.files i n t ds) (fileRound a i n t ds) s.rulesLock s.gLock := by
  cases ds with
  | nil => exact .settled (Or.inl rfl)
  | cons d ds =>
    rw [fileRound]
    split_ifs with ha
    · split
      · rename_i t₁ t₂ ht₁ ht₂
        split_ifs with hlt
        · exact .newer (Or.inr ⟨t₁, t₂, ht₁, ht₂, hlt⟩)
        · exact .older
      · exact .settled (Or.inr rfl)
    · exact .newer (Or.inl (Bool.eq_false_of_not_eq_true ha))

variable {q p : Pc K C} {rulesLock gLock : Option W}

/-- A worker that moves keeps the rule it holds. -/
theorem Moves.held (h : Moves graph g s w a q p rulesLock gLock) : p.held = q.held := by
  cases h <;> rfl

/-- A worker that scans after a move has just begun to, or the owner of `rules_lock` is as
before. -/
theorem Moves.lock (h : Moves graph g s w a q p rulesLock gLock) (hp : p.Scanning) :
    rulesLock = some w ∨ q.Scanning ∧ rulesLock = s.rulesLock := by
  cases h <;> first | exact hp.elim | exact Or.inl rfl | exact Or.inr ⟨trivial, rfl⟩

/-- `rules_lock` is taken when it is free, and given back by the worker that scans. -/
theorem Moves.others (h : Moves graph g s w a q p rulesLock gLock) :
    rulesLock = s.rulesLock ∨ s.rulesLock = none ∨ q.Scanning := by
  cases h with
  | enter hfree => exact Or.inr (Or.inl hfree)
  | wait => exact Or.inr (Or.inr trivial)
  | _ => exact Or.inl rfl

/-- A worker that takes a rule holds it, unless it had a state. -/
theorem Deals.held {t : K} {code : StatCode} {p : Pc K C} (h : Deals commands t code p)
    (hcode : code ≠ .alreadyDone) : p.held = some t := by
  cases h <;> first | rfl | exact (hcode rfl).elim

theorem Deals.not_scanning {t : K} {code : StatCode} {p : Pc K C} (h : Deals commands t code p) :
    ¬ p.Scanning := by
  cases h <;> exact id

variable [DecidableEq W] [DecidableEq K]

/-- What is done with the result of `run_status`. -/
theorem works_act {i n : Nat} {t : K} {code : StatCode} (hpc : s.pc w = .decided i n t code) :
    Works graph g commands s w a (act commands s w i n t code) := by
  cases code with
  | runImm => exact .take hpc .run
  | satNoRun => exact .take hpc .skip
  | err => exact .take hpc .fail
  | alreadyDone => exact .take hpc .drop
  | notFinished =>
    rw [act]
    split_ifs with hlast
    · exact .move hpc (.wait hlast)
    · exact .move hpc (.next hlast)

/-- **The steps of a worker.** -/
theorem work_cases (h : work graph g commands s w a = some s') :
    Works graph g commands s w a s' := by
  cases hpc : s.pc w with
  | top =>
    simp only [work, hpc] at h
    split_ifs at h with hlock hnil <;> obtain rfl := Option.some.inj h <;>
      rw [Option.not_isSome_iff_eq_none] at hlock
    · exact .move hpc (.exit hlock hnil)
    · exact .move hpc (.enter hlock hnil)
  | scan i n =>
    simp only [work, hpc, Option.bind_eq_bind, Option.bind_eq_some_iff] at h
    obtain ⟨t, hi, h⟩ := h
    obtain rfl := Option.some.inj h
    exact .move hpc (moves_runStatus hi)
  | files i n t ds =>
    simp only [work, hpc] at h
    obtain rfl := Option.some.inj h
    exact .move hpc moves_fileRound
  | wantDeps i n t ds =>
    simp only [work, hpc] at h
    split_ifs at h with hlock
    obtain rfl := Option.some.inj h
    exact .move hpc (.lockDeps (Option.not_isSome_iff_eq_none.mp hlock))
  | readDeps i n t ds =>
    cases ds <;> simp only [work, hpc] at h
    · obtain rfl := Option.some.inj h
      exact .move hpc .allValid
    · split_ifs at h with hd <;> obtain rfl := Option.some.inj h
      · exact .move hpc (.notValid hd)
      · exact .move hpc (.isValid (not_not.mp hd))
  | decided i n t code =>
    simp only [work, hpc] at h
    obtain rfl := Option.some.inj h
    exact works_act hpc
  | running t cs =>
    cases cs <;> simp only [work, hpc] at h <;> obtain rfl := Option.some.inj h
    · exact .move hpc .finish
    · exact .system hpc
  | marking t st =>
    simp only [work, hpc] at h
    split_ifs at h with hlock
    obtain rfl := Option.some.inj h
    exact .move hpc (.mark (Option.not_isSome_iff_eq_none.mp hlock))
  | writing t st =>
    simp only [work, hpc] at h
    obtain rfl := Option.some.inj h
    exact .write hpc
  | signalling =>
    simp only [work, hpc] at h
    obtain rfl := Option.some.inj h
    exact .signal hpc
  | waiting => simp [work, hpc] at h
  | woken =>
    simp only [work, hpc] at h
    split_ifs at h with hlock
    obtain rfl := Option.some.inj h
    exact .move hpc (.back (Option.not_isSome_iff_eq_none.mp hlock))
  | exited => simp [work, hpc] at h

/-- A worker that waits may also wake up on its own. -/
theorem step_spurious (h : step graph g commands s (.spurious w) = some s') :
    s.pc w = .waiting ∧ s' = { s with pc := Function.update s.pc w .woken } := by
  cases hpc : s.pc w <;> simp only [step, hpc, reduceCtorEq] at h
  exact ⟨rfl, (Option.some.inj h).symm⟩

theorem step_cases {e : Event W K C} (h : step graph g commands s e = some s') :
    (∃ w a, e = .work w a ∧ Works graph g commands s w a s') ∨
    ∃ w, e = .spurious w ∧ s.pc w = .waiting ∧
      s' = { s with pc := Function.update s.pc w .woken } := by
  cases e with
  | work w a => exact Or.inl ⟨w, a, rfl, work_cases h⟩
  | spurious w => exact Or.inr ⟨w, rfl, step_spurious h⟩

/-- A step of one worker leaves the others where they are, or wakes them. -/
theorem Works.others {w' : W} (h : Works graph g commands s w a s') (hne : w' ≠ w) :
    s'.pc w' = s.pc w' ∨ s'.pc w' = wake (s.pc w') := by
  cases h with
  | signal hpc => exact Or.inr (Function.update_of_ne hne _ fun w => wake (s.pc w))
  | _ => exact Or.inl (Function.update_of_ne hne _ _)

end SystemProgramming.ParallelMake
