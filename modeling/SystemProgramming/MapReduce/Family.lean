import SystemProgramming.MapReduce.Pipeline

/-!
# Who has which end of a pipe

The table of `main` is copied at each fork, and `main` closes the write end for a mapper just
before it forks that mapper. So the tables of all processes are known from where `main` is and
from who is running, and with them who can still write to a pipe.

## Main definitions

* `Line.forked`, `Line.waited`: the children `main` has forked, and has waited for
* `owns`: the ends that a running process has
* `Family`: the tables of all processes

## Main results

* `Family.step`: every step keeps the tables
* `Family.held_mpWrite`, `Family.held_redWrite`: who can still write to a pipe
* `Move`, `Family.move`: what a step can do
-/

namespace SystemProgramming.MapReduce.Pipeline

variable {n : Nat} {β : Type}

/-- `main` has forked `p`. -/
def Line.forked (l : Line) : Proc n → Bool
  | .main => true
  | .splitter k =>
    match l with
    | .splitters i => k < i
    | _ => true
  | .mapper k =>
    match l with
    | .splitters _ => false
    | .mappers i => k < i
    | _ => true
  | .reducer =>
    match l with
    | .splitters _ | .mappers _ => false
    | _ => true

/-- `main` has waited for `p`. -/
def Line.waited (l : Line) : Proc n → Bool
  | .main => l = .returned
  | .splitter k =>
    match l with
    | .splitters _ | .mappers _ => false
    | .waitSplitters i => k < i
    | _ => true
  | .mapper k =>
    match l with
    | .waitMappers i => k < i
    | .waitReducer | .returned => true
    | _ => false
  | .reducer => l = .returned

/-- The ends that `p` has as long as it runs. -/
def owns (l : Line) : Proc n → End n → Bool
  | .main, .mpWrite k => !l.forked (.mapper k)
  | .main, .redWrite => !l.forked (n := n) .reducer
  | .main, _ => true
  | .splitter i, .mpRead k => k ≠ i
  | .splitter _, _ => true
  | .mapper i, .mpWrite k => i < k
  | .mapper _, .redRead => false
  | .mapper _, _ => true
  | .reducer, .mpRead _ => true
  | .reducer, .redRead => true
  | .reducer, _ => false

/-- The tables of all processes. -/
structure Family (w : World n β) : Prop where
  alive : ∀ p, w.phase p ≠ .killed
  mainRuns : w.line ≠ .returned → w.phase .main = .running
  unborn : ∀ p, w.phase p = .unborn ↔ w.line.forked p = false
  waited : ∀ p, w.line.waited p = true → w.phase p = .exited
  ends : ∀ p e, w.ends p e = true ↔ w.phase p = .running ∧ owns w.line p e = true

variable {capacity : Nat} {func : List UInt8 → List UInt8} {reduce : List UInt8 → β}
  {portion : Fin n → List UInt8} {w w' : World n β} {e : Event n} {p : Proc n} {l : Line}

/-! ## Forks -/

/-- Only `main` has another table later. -/
theorem owns_child (hp : p ≠ .main) (l l' : Line) (e : End n) : owns l p e = owns l' p e := by
  cases p with
  | main => exact absurd rfl hp
  | splitter i => cases e <;> rfl
  | mapper i => cases e <;> rfl
  | reducer => cases e <;> rfl

/-- The loops go on by one. -/
theorem lt_succ_iff (k : Fin n) {i : Nat} (hi : i < n) :
    decide (k.val < i + 1) = (decide (k.val < i) || decide (k = ⟨i, hi⟩)) := by
  rw [← Bool.decide_or, decide_eq_decide, Fin.ext_iff]
  change k.val < i + 1 ↔ k.val < i ∨ k.val = i
  omega

theorem World.close_ends (w : World n β) (p : Proc n) (e : End n) :
    (w.close p e).ends p = Function.update (w.ends p) e false := by
  simp [World.close]

namespace Family

theorem start : Family (World.start β portion) where
  alive p := by
    by_cases hp : p = .main
    · simp [World.start, hp]
    · simp [World.start, hp]
  mainRuns _ := rfl
  unborn p := by cases p <;> simp [World.start, Line.forked]
  waited p hp := by cases p <;> simp [World.start, Line.waited] at hp
  ends p e := by
    by_cases hp : p = .main
    · cases e <;> simp [World.start, hp, owns, Line.forked]
    · simp [World.start, hp]

/-- What is not about processes and their tables does not matter. -/
theorem congr (h : Family w) (hline : w'.line = w.line) (hphase : w'.phase = w.phase)
    (hends : w'.ends = w.ends) : Family w' where
  alive := hphase ▸ h.alive
  mainRuns := by
    rw [hline, hphase]
    exact h.mainRuns
  unborn := by
    rw [hline, hphase]
    exact h.unborn
  waited := by
    rw [hline, hphase]
    exact h.waited
  ends := by
    rw [hline, hphase, hends]
    exact h.ends

theorem forked_of_running (h : Family w) (hp : w.phase p = .running) : w.line.forked p = true := by
  rw [← Bool.not_eq_false, ← h.unborn, hp]
  exact fun h => Phase.noConfusion h

/-- A child ends. -/
theorem leave (h : Family w) (hp : w.phase p = .running) (hmain : p ≠ .main) :
    Family (w.leave p .exited) where
  alive q := by
    by_cases hq : q = p
    · simp [World.leave, hq]
    · simpa [World.leave, hq] using h.alive q
  mainRuns hl := by
    have hne : Proc.main ≠ p := hmain.symm
    simpa [World.leave, hne] using h.mainRuns hl
  unborn q := by
    by_cases hq : q = p
    · simpa [World.leave, hq] using h.forked_of_running hp
    · simpa [World.leave, hq] using h.unborn q
  waited q hw := by
    by_cases hq : q = p
    · simp [World.leave, hq]
    · simpa [World.leave, hq] using h.waited q hw
  ends q e := by
    by_cases hq : q = p
    · simp [World.leave, hq]
    · simpa [World.leave, hq] using h.ends q e

/-- `main` forks the child `p`. -/
theorem fork (h : Family w) (hline : w.line ≠ .returned) (hp : p ≠ .main)
    (hphase : w'.phase = Function.update w.phase p .running)
    (hforked : ∀ q, w'.line.forked q = (w.line.forked q || q = p))
    (hwaited : ∀ q : Proc n, w'.line.waited q = false)
    (hmain : ∀ e, w'.ends .main e = owns w'.line .main e)
    (hchild : ∀ e, w'.ends p e = owns w'.line p e)
    (hother : ∀ q, q ≠ .main → q ≠ p → w'.ends q = w.ends q) : Family w' where
  alive q := by
    by_cases hq : q = p
    · simp [hphase, hq]
    · simpa [hphase, hq] using h.alive q
  mainRuns _ := by
    rw [hphase, Function.update_of_ne hp.symm]
    exact h.mainRuns hline
  unborn q := by
    by_cases hq : q = p
    · simp [hphase, hforked, hq]
    · simpa [hphase, hforked, hq] using h.unborn q
  waited q hw := by
    rw [hwaited] at hw
    cases hw
  ends q e := by
    by_cases hq : q = p
    · rw [hq, hphase, hchild, Function.update_self]
      simp
    · by_cases hm : q = .main
      · rw [hm, hphase, hmain, Function.update_of_ne hp.symm, h.mainRuns hline]
        simp
      · rw [hother q hm hq, hphase, Function.update_of_ne hq, owns_child hm w'.line w.line]
        exact h.ends q e

/-- `main` goes on and forks nobody. -/
theorem goOn (h : Family w) (hline : w.line ≠ .returned) (hphase : w'.phase = w.phase)
    (hends : w'.ends = w.ends) (hforked : ∀ q : Proc n, w'.line.forked q = w.line.forked q)
    (hwaited : ∀ q : Proc n, w'.line.waited q = true →
      w.line.waited q = true ∨ w.phase q = .exited) : Family w' where
  alive := hphase ▸ h.alive
  mainRuns _ := hphase ▸ h.mainRuns hline
  unborn q := by
    rw [hphase, hforked]
    exact h.unborn q
  waited q hw := by
    rw [hphase]
    exact (hwaited q hw).elim (h.waited q) id
  ends q e := by
    rw [hphase, hends, h.ends]
    by_cases hm : q = .main
    · have howns : owns w'.line .main e = owns w.line .main e := by
        cases e <;> simp [owns, hforked]
      rw [hm, howns]
    · rw [owns_child hm w'.line w.line]

/-- `waitpid` returns when the child has exited. -/
theorem gone_iff (h : Family w) : w.gone p = true ↔ w.phase p = .exited := by
  simp [World.gone, h.alive p]

/-- What `main` has, as long as it runs. -/
theorem main_ends (h : Family w) (hline : w.line ≠ .returned) (e : End n) :
    w.ends .main e = owns w.line .main e := by
  rw [Bool.eq_iff_iff, h.ends, h.mainRuns hline]
  simp

theorem splitters (h : Family w) {i : Nat} (hline : w.line = .splitters i) (hi : i < n) :
    Family { w.fork (.splitter ⟨i, hi⟩) [.mpRead ⟨i, hi⟩] with line := .splitters (i + 1) } := by
  have hne : w.line ≠ .returned := by simp [hline]
  refine h.fork (p := .splitter ⟨i, hi⟩) hne (by simp) rfl ?_ ?_ ?_ ?_ ?_
  · intro q
    cases q with
    | splitter k => simpa [Line.forked, hline] using lt_succ_iff k hi
    | _ => simp [Line.forked, hline]
  · intro q
    cases q <;> simp [Line.waited]
  · intro e
    have hmain := h.main_ends hne e
    cases e <;> simpa [World.fork, owns, Line.forked, hline] using hmain
  · intro e
    have hmain := h.main_ends hne e
    cases e <;> simp [World.fork, owns, Line.forked, hline, hmain]
  · intro q hmain hq
    simp [World.fork, hq]

theorem mappers (h : Family w) {i : Nat} (hline : w.line = .mappers i) (hi : i < n) :
    Family { (w.close .main (.mpWrite ⟨i, hi⟩)).fork (.mapper ⟨i, hi⟩) [.redRead] with
      line := .mappers (i + 1) } := by
  have hne : w.line ≠ .returned := by simp [hline]
  have hclosed : ∀ e, (w.close .main (.mpWrite ⟨i, hi⟩)).ends .main e =
      owns (.mappers (i + 1)) .main e := by
    intro e
    have hmain := h.main_ends hne e
    rw [hline] at hmain
    rw [World.close_ends]
    by_cases he : e = .mpWrite ⟨i, hi⟩
    · simp [he, owns, Line.forked]
    · rw [Function.update_of_ne he, hmain]
      cases e with
      | mpWrite k =>
        have hk : k ≠ ⟨i, hi⟩ := fun hk => he (congrArg End.mpWrite hk)
        rw [owns, owns, Line.forked, Line.forked, lt_succ_iff k hi, decide_eq_false hk,
          Bool.or_false]
      | _ => simp [owns, Line.forked]
  refine h.fork (p := .mapper ⟨i, hi⟩) hne (by simp) rfl ?_ ?_ ?_ ?_ ?_
  · intro q
    cases q with
    | mapper k => simpa [Line.forked, hline] using lt_succ_iff k hi
    | _ => simp [Line.forked, hline]
  · intro q
    cases q <;> simp [Line.waited]
  · intro e
    simpa [World.fork] using hclosed e
  · intro e
    have hmain := hclosed e
    cases e with
    | mpWrite k =>
      have hk : (!decide (k.val < i + 1)) = decide ((⟨i, hi⟩ : Fin n) < k) := by
        rw [← decide_not, decide_eq_decide, Fin.lt_def]
        change ¬ k.val < i + 1 ↔ i < k.val
        omega
      have hnot : [(End.redRead : End n)].contains (.mpWrite k) = false := rfl
      simp only [World.fork, Function.update_self, hmain, owns, Line.forked, hk, hnot,
        Bool.not_false, Bool.and_true]
    | _ => simp [World.fork, hmain, owns, Line.forked]
  · intro q hmain hq
    simp [World.fork, World.close, hq, hmain]

theorem reducer (h : Family w) {i : Nat} (hline : w.line = .mappers i) (hi : ¬ i < n) :
    Family { (w.close .main .redWrite).fork .reducer [] with line := .waitSplitters 0 } := by
  have hne : w.line ≠ .returned := by simp [hline]
  have hclosed : ∀ e, (w.close .main .redWrite).ends .main e =
      owns (.waitSplitters 0) .main e := by
    intro e
    have hmain := h.main_ends hne e
    rw [hline] at hmain
    rw [World.close_ends]
    by_cases he : e = .redWrite
    · simp [he, owns, Line.forked]
    · rw [Function.update_of_ne he, hmain]
      cases e with
      | mpWrite k =>
        have hk : k.val < i := by omega
        simp [owns, Line.forked, hk]
      | redWrite => exact absurd rfl he
      | _ => simp [owns]
  refine h.fork (p := .reducer) hne (by simp) rfl ?_ ?_ ?_ ?_ ?_
  · intro q
    cases q with
    | mapper k =>
      have hk : k.val < i := by omega
      simp [Line.forked, hline, hk]
    | _ => simp [Line.forked, hline]
  · intro q
    cases q <;> simp [Line.waited]
  · intro e
    simpa [World.fork] using hclosed e
  · intro e
    have hmain := hclosed e
    cases e <;> simp [World.fork, hmain, owns, Line.forked]
  · intro q hmain hq
    simp [World.fork, World.close, hq, hmain]

/-- `main` returns after its last `waitpid`. -/
theorem returned (h : Family w) (hline : w.line = .waitReducer) (hgone : w.gone .reducer = true) :
    Family { w.leave .main .exited with line := .returned } := by
  have hall : ∀ p, p ≠ .main → w.phase p = .exited := by
    intro p hp
    cases p with
    | main => exact absurd rfl hp
    | reducer => exact h.gone_iff.mp hgone
    | _ => exact h.waited _ (by simp [hline, Line.waited])
  have hphase : ∀ p, (w.leave .main .exited).phase p = .exited := by
    intro p
    by_cases hp : p = .main
    · simp [World.leave, hp]
    · simpa [World.leave, hp] using hall p hp
  refine ⟨fun p => ?_, fun hne => absurd rfl hne, fun p => ?_, fun p _ => hphase p, fun p e => ?_⟩
  · exact fun hk => Phase.noConfusion ((hphase p).symm.trans hk)
  · have hforked : Line.forked .returned p = true := by cases p <;> rfl
    rw [hforked]
    simp [hphase]
  · have hends : (w.leave .main .exited).ends p e = false := by
      by_cases hp : p = .main
      · simp [World.leave, hp]
      · have hnot := h.ends p e
        rw [hall p hp] at hnot
        simpa [World.leave, hp] using hnot
    simp [hphase, hends]

end Family

/-- What `main` can do next. -/
inductive MainMove (w : World n β) : World n β → Prop
  | splitters {i : Nat} (hline : w.line = .splitters i) (hi : i < n) :
    MainMove w { w.fork (.splitter ⟨i, hi⟩) [.mpRead ⟨i, hi⟩] with line := .splitters (i + 1) }
  | splittersDone {i : Nat} (hline : w.line = .splitters i) (hi : ¬ i < n) :
    MainMove w { w with line := .mappers 0 }
  | mappers {i : Nat} (hline : w.line = .mappers i) (hi : i < n) :
    MainMove w { (w.close .main (.mpWrite ⟨i, hi⟩)).fork (.mapper ⟨i, hi⟩) [.redRead] with
      line := .mappers (i + 1) }
  | reducer {i : Nat} (hline : w.line = .mappers i) (hi : ¬ i < n) :
    MainMove w { (w.close .main .redWrite).fork .reducer [] with line := .waitSplitters 0 }
  | waitSplitter {i : Nat} (hline : w.line = .waitSplitters i) (hi : i < n)
    (hgone : w.gone (.splitter ⟨i, hi⟩) = true) :
    MainMove w { w with line := .waitSplitters (i + 1) }
  | splittersGone {i : Nat} (hline : w.line = .waitSplitters i) (hi : ¬ i < n) :
    MainMove w { w with line := .waitMappers 0 }
  | waitMapper {i : Nat} (hline : w.line = .waitMappers i) (hi : i < n)
    (hgone : w.gone (.mapper ⟨i, hi⟩) = true) :
    MainMove w { w with line := .waitMappers (i + 1) }
  | mappersGone {i : Nat} (hline : w.line = .waitMappers i) (hi : ¬ i < n) :
    MainMove w { w with line := .waitReducer }
  | returned (hline : w.line = .waitReducer) (hgone : w.gone .reducer = true) :
    MainMove w { w.leave .main .exited with line := .returned }

theorem mainMove (hs : stepMain w = some w') : MainMove w w' := by
  unfold stepMain at hs
  split at hs
  · next i hline =>
    split_ifs at hs with hi
    · exact Option.some.inj hs ▸ .splitters hline hi
    · exact Option.some.inj hs ▸ .splittersDone hline hi
  · next i hline =>
    split_ifs at hs with hi
    · exact Option.some.inj hs ▸ .mappers hline hi
    · exact Option.some.inj hs ▸ .reducer hline hi
  · next i hline =>
    split_ifs at hs with hi hgone
    · exact Option.some.inj hs ▸ .waitSplitter hline hi hgone
    · exact Option.some.inj hs ▸ .splittersGone hline hi
  · next i hline =>
    split_ifs at hs with hi hgone
    · exact Option.some.inj hs ▸ .waitMapper hline hi hgone
    · exact Option.some.inj hs ▸ .mappersGone hline hi
  · next hline =>
    split_ifs at hs with hgone
    exact Option.some.inj hs ▸ .returned hline hgone
  · cases hs

theorem Family.mainMove (h : Family w) (hm : MainMove w w') : Family w' := by
  cases hm with
  | splitters hline hi => exact h.splitters hline hi
  | @splittersDone i hline hi =>
    refine h.goOn (by simp [hline]) rfl rfl (fun q => ?_) fun q hq => ?_
    · cases q with
      | splitter k =>
        have hk : k.val < i := by omega
        simp [Line.forked, hline, hk]
      | _ => simp [Line.forked, hline]
    · cases q <;> simp [Line.waited] at hq
  | mappers hline hi => exact h.mappers hline hi
  | reducer hline hi => exact h.reducer hline hi
  | @waitSplitter i hline hi hgone =>
    refine h.goOn (by simp [hline]) rfl rfl (fun q => ?_) fun q hq => ?_
    · cases q <;> simp [Line.forked, hline]
    · cases q with
      | splitter k =>
        rw [Line.waited, lt_succ_iff k hi, Bool.or_eq_true, decide_eq_true_eq,
          decide_eq_true_eq] at hq
        rcases hq with hq | rfl
        · exact Or.inl (by simpa [Line.waited, hline] using hq)
        · exact Or.inr (h.gone_iff.mp hgone)
      | _ => simp [Line.waited] at hq
  | @splittersGone i hline hi =>
    refine h.goOn (by simp [hline]) rfl rfl (fun q => ?_) fun q hq => ?_
    · cases q <;> simp [Line.forked, hline]
    · cases q with
      | splitter k =>
        have hk : k.val < i := by omega
        simp [Line.waited, hline, hk]
      | _ => simp [Line.waited] at hq
  | @waitMapper i hline hi hgone =>
    refine h.goOn (by simp [hline]) rfl rfl (fun q => ?_) fun q hq => ?_
    · cases q <;> simp [Line.forked, hline]
    · cases q with
      | splitter k => simp [Line.waited, hline]
      | mapper k =>
        rw [Line.waited, lt_succ_iff k hi, Bool.or_eq_true, decide_eq_true_eq,
          decide_eq_true_eq] at hq
        rcases hq with hq | rfl
        · exact Or.inl (by simpa [Line.waited, hline] using hq)
        · exact Or.inr (h.gone_iff.mp hgone)
      | _ => simp [Line.waited] at hq
  | @mappersGone i hline hi =>
    refine h.goOn (by simp [hline]) rfl rfl (fun q => ?_) fun q hq => ?_
    · cases q <;> simp [Line.forked, hline]
    · cases q with
      | splitter k => simp [Line.waited, hline]
      | mapper k =>
        have hk : k.val < i := by omega
        simp [Line.waited, hline, hk]
      | _ => simp [Line.waited] at hq
  | returned hline hgone => exact h.returned hline hgone

/-! ## Readers and writers -/

theorem World.held_iff (w : World n β) (e : End n) : w.held e = true ↔ ∃ p, w.ends p e = true := by
  rw [World.held, Bool.or_eq_true, Bool.or_eq_true, List.any_eq_true]
  constructor
  · rintro ((h | h) | ⟨i, -, h⟩)
    · exact ⟨_, h⟩
    · exact ⟨_, h⟩
    · rcases (Bool.or_eq_true _ _).mp h with h | h
      · exact ⟨_, h⟩
      · exact ⟨_, h⟩
  · rintro ⟨p, hp⟩
    cases p with
    | main => exact Or.inl (Or.inl hp)
    | reducer => exact Or.inl (Or.inr hp)
    | splitter i => exact Or.inr ⟨i, List.mem_finRange i, by rw [hp, Bool.true_or]⟩
    | mapper i => exact Or.inr ⟨i, List.mem_finRange i, by rw [hp, Bool.or_true]⟩

namespace Family

/-- As long as a child runs, `main` has not returned. -/
theorem line_ne (h : Family w) (hp : w.phase p = .running) (hmain : p ≠ .main) :
    w.line ≠ .returned := by
  intro hline
  have hwaited : w.line.waited p = true := by
    rw [hline]
    cases p with
    | main => exact absurd rfl hmain
    | _ => rfl
  exact Phase.noConfusion (hp.symm.trans (h.waited p hwaited))

/-- There is a reader for whoever writes. -/
theorem held_read (h : Family w) (hp : w.phase p = .running) (hmain : p ≠ .main) (i : Fin n) :
    w.held (.mpRead i) = true ∧ w.held .redRead = true := by
  have hline := h.line_ne hp hmain
  exact ⟨(w.held_iff _).mpr ⟨.main, h.main_ends hline _⟩,
    (w.held_iff _).mpr ⟨.main, h.main_ends hline _⟩⟩

/-- **Who can still write to a mapper:** `main`, until it forks the mapper, all splitters, and the
mappers before it. -/
theorem held_mpWrite (h : Family w) (i : Fin n) : w.held (.mpWrite i) = true ↔
    w.line.forked (.mapper i) = false ∨ (∃ j, w.phase (.splitter j) = .running) ∨
      ∃ j < i, w.phase (.mapper j) = .running := by
  rw [w.held_iff]
  constructor
  · rintro ⟨p, hp⟩
    rw [h.ends] at hp
    cases p with
    | main => exact Or.inl (by simpa [owns] using hp.2)
    | splitter j => exact Or.inr (Or.inl ⟨j, hp.1⟩)
    | mapper j => exact Or.inr (Or.inr ⟨j, by simpa [owns] using hp.2, hp.1⟩)
    | reducer => exact absurd hp.2 Bool.false_ne_true
  · rintro (hline | ⟨j, hj⟩ | ⟨j, hji, hj⟩)
    · have hne : w.line ≠ .returned := fun heq => by
        rw [heq] at hline
        exact Bool.noConfusion hline
      exact ⟨.main, (h.ends _ _).mpr ⟨h.mainRuns hne, by simp [owns, hline]⟩⟩
    · exact ⟨.splitter j, (h.ends _ _).mpr ⟨hj, rfl⟩⟩
    · exact ⟨.mapper j, (h.ends _ _).mpr ⟨hj, by simpa [owns] using hji⟩⟩

/-- **Who can still write to the reducer:** `main`, until it forks the reducer, all splitters and
all mappers. -/
theorem held_redWrite (h : Family w) : w.held .redWrite = true ↔
    w.line.forked (n := n) .reducer = false ∨ (∃ j, w.phase (.splitter j) = .running) ∨
      ∃ j, w.phase (.mapper j) = .running := by
  rw [w.held_iff]
  constructor
  · rintro ⟨p, hp⟩
    rw [h.ends] at hp
    cases p with
    | main => exact Or.inl (by simpa [owns] using hp.2)
    | splitter j => exact Or.inr (Or.inl ⟨j, hp.1⟩)
    | mapper j => exact Or.inr (Or.inr ⟨j, hp.1⟩)
    | reducer => exact absurd hp.2 Bool.false_ne_true
  · rintro (hline | ⟨j, hj⟩ | ⟨j, hj⟩)
    · have hne : w.line ≠ .returned := fun heq => by
        rw [heq] at hline
        exact Bool.noConfusion hline
      exact ⟨.main, (h.ends _ _).mpr ⟨h.mainRuns hne, by simp [owns, hline]⟩⟩
    · exact ⟨.splitter j, (h.ends _ _).mpr ⟨hj, rfl⟩⟩
    · exact ⟨.mapper j, (h.ends _ _).mpr ⟨hj, rfl⟩⟩

end Family

/-! ## What a step can do -/

/-- What the steps can do. Nobody is killed. -/
inductive Move (capacity : Nat) (func : List UInt8 → List UInt8) (reduce : List UInt8 → β)
    (w : World n β) : Event n → World n β → Prop
  | main {v : World n β} (hm : MainMove w v) : Move capacity func reduce w .main v
  | splitterWrite {i : Fin n} {k : Nat} (hrun : w.phase (.splitter i) = .running) (hpos : 0 < k)
    (hle : k ≤ (w.rest i).length) (hroom : (w.pipe i).length + k ≤ capacity) :
    Move capacity func reduce w (.splitterWrite i k) { w with
      rest := Function.update w.rest i ((w.rest i).drop k)
      pipe := Function.update w.pipe i (w.pipe i ++ (w.rest i).take k) }
  | splitterExit {i : Fin n} (hrun : w.phase (.splitter i) = .running) (hrest : w.rest i = []) :
    Move capacity func reduce w (.splitterExit i) (w.leave (.splitter i) .exited)
  | mapperRead {i : Fin n} {k : Nat} (hrun : w.phase (.mapper i) = .running)
    (hout : (w.task i).output = []) (heof : (w.task i).eof = false)
    (hmore : 10 ∉ (w.task i).buffer) (hpos : 0 < k) (hle : k ≤ (w.pipe i).length) :
    Move capacity func reduce w (.mapperRead i k) { w with
      pipe := Function.update w.pipe i ((w.pipe i).drop k)
      task := Function.update w.task i { w.task i with
        buffer := (w.task i).buffer ++ (w.pipe i).take k } }
  | mapperEof {i : Fin n} (hrun : w.phase (.mapper i) = .running)
    (hout : (w.task i).output = []) (heof : (w.task i).eof = false)
    (hmore : 10 ∉ (w.task i).buffer) (hpipe : w.pipe i = []) (hheld : w.held (.mpWrite i) = false) :
    Move capacity func reduce w (.mapperEof i)
      { w with task := Function.update w.task i { w.task i with eof := true } }
  | mapperLine {i : Fin n} {line buffer : List UInt8} (hrun : w.phase (.mapper i) = .running)
    (hout : (w.task i).output = []) (hmore : 10 ∈ (w.task i).buffer ∨ (w.task i).eof = true)
    (hget : getline (w.task i).buffer = some (line, buffer)) :
    Move capacity func reduce w (.mapperLine i) { w with
      task := Function.update w.task i ⟨buffer, (w.task i).eof,
        (func ((removeNewline line).takeWhile (· ≠ 0))).length,
        func ((removeNewline line).takeWhile (· ≠ 0))⟩ }
  | mapperWrite {i : Fin n} {k : Nat} (hrun : w.phase (.mapper i) = .running) (hpos : 0 < k)
    (hle : k ≤ (w.task i).output.length)
    (hwhole : (w.task i).size ≤ pipeBuf → k = (w.task i).output.length)
    (hroom : w.red.length + k ≤ capacity) :
    Move capacity func reduce w (.mapperWrite i k) { w with
      task := Function.update w.task i { w.task i with output := (w.task i).output.drop k }
      red := w.red ++ (w.task i).output.take k
      log := w.log ++ [(i, (w.task i).output.take k)] }
  | mapperExit {i : Fin n} (hrun : w.phase (.mapper i) = .running)
    (hout : (w.task i).output = []) (heof : (w.task i).eof = true)
    (hbuffer : (w.task i).buffer = []) :
    Move capacity func reduce w (.mapperExit i) (w.leave (.mapper i) .exited)
  | reducerRead {k : Nat} (hrun : w.phase .reducer = .running) (hpos : 0 < k)
    (hle : k ≤ w.red.length) :
    Move capacity func reduce w (.reducerRead k)
      { w with red := w.red.drop k, input := w.input ++ w.red.take k }
  | reducerExit (hrun : w.phase .reducer = .running) (hred : w.red = [])
    (hheld : w.held .redWrite = false) :
    Move capacity func reduce w .reducerExit
      { w.leave .reducer .exited with outFile := some (reduce w.input) }

/-- A write never kills. -/
theorem Family.move (h : Family w) (hs : step capacity func reduce w e = some w') :
    Move capacity func reduce w e w' := by
  cases e with
  | main => exact .main (Pipeline.mainMove hs)
  | splitterWrite i k =>
    simp only [step, splitterWrite] at hs
    split_ifs at hs with hguard hheld hroom
    · exact Option.some.inj hs ▸ .splitterWrite hguard.1 hguard.2.1 hguard.2.2 hroom
    · exact absurd (h.held_read hguard.1 (by simp) i).1 hheld
  | splitterExit i =>
    simp only [step] at hs
    split_ifs at hs with hguard
    exact Option.some.inj hs ▸ .splitterExit hguard.1 hguard.2
  | mapperRead i k =>
    simp only [step, mapperRead] at hs
    split_ifs at hs with hguard
    obtain ⟨hrun, hout, heof, hmore, hpos, hle⟩ := hguard
    exact Option.some.inj hs ▸ .mapperRead hrun hout heof hmore hpos hle
  | mapperEof i =>
    simp only [step, mapperEof] at hs
    split_ifs at hs with hguard
    obtain ⟨hrun, hout, heof, hmore, hpipe, hheld⟩ := hguard
    exact Option.some.inj hs ▸ .mapperEof hrun hout heof hmore hpipe hheld
  | mapperLine i =>
    simp only [step, mapperLine] at hs
    split_ifs at hs with hguard
    obtain ⟨hrun, hout, hmore⟩ := hguard
    cases hget : getline (w.task i).buffer with
    | none =>
      rw [hget] at hs
      cases hs
    | some got =>
      rw [hget] at hs
      exact Option.some.inj hs ▸ .mapperLine hrun hout hmore hget
  | mapperWrite i k =>
    simp only [step, mapperWrite] at hs
    split_ifs at hs with hguard hheld hroom
    · obtain ⟨hrun, hpos, hle, hwhole⟩ := hguard
      exact Option.some.inj hs ▸ .mapperWrite hrun hpos hle hwhole hroom
    · exact absurd (h.held_read hguard.1 (by simp) i).2 hheld
  | mapperExit i =>
    simp only [step, mapperExit] at hs
    split_ifs at hs with hguard
    obtain ⟨hrun, hout, heof, hbuffer⟩ := hguard
    exact Option.some.inj hs ▸ .mapperExit hrun hout heof hbuffer
  | reducerRead k =>
    simp only [step] at hs
    split_ifs at hs with hguard
    exact Option.some.inj hs ▸ .reducerRead hguard.1 hguard.2.1 hguard.2.2
  | reducerExit =>
    simp only [step] at hs
    split_ifs at hs with hguard
    exact Option.some.inj hs ▸ .reducerExit hguard.1 hguard.2.1 hguard.2.2

/-- **Every step keeps the tables.** -/
theorem Family.step (h : Family w) (hm : Move capacity func reduce w e w') : Family w' := by
  cases hm with
  | main hm => exact h.mainMove hm
  | splitterExit hrun _ => exact h.leave hrun (by simp)
  | mapperExit hrun _ _ _ => exact h.leave hrun (by simp)
  | reducerExit hrun _ _ => exact (h.leave hrun (by simp)).congr rfl rfl rfl
  | _ => exact h.congr rfl rfl rfl

end SystemProgramming.MapReduce.Pipeline
