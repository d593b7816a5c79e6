import SystemProgramming.Foundation.Counting
import SystemProgramming.Cracker.Workers

/-!
# The hashes of a task

A worker reports and adds its hashes in the loop, once `found` is set, or after the loop, if
`found` is not set. One that leaves the loop by `break` has seen or written `found`, which stays
set until the main thread has passed the second barrier, so it does not report again. One that
has tried its whole range reports only if nobody has found the password before it looks. So the
hashes of a task are accounted for in every run in which no worker comes to the end of its range
too late, and no counter leaves the range of an `int`.

## Main definitions

* `Counted`: the condition on a step
* `Accounted`: all hashes are added, and all workers have reported
* `Fine`, `Working`, `Inv`: what holds of a worker during a task, and of all threads

## Main results

* `working_work`, `inv_step`: a step that meets the condition keeps the invariant
* `broken_step`, `Broken.work`: one that does not breaks the task for good
* `hashes_accounted_iff`: the hashes of every task, in a run whose steps meet the condition
-/

namespace SystemProgramming.Cracker

variable {n : Nat} {w w' : World n} {t : Fin n} {x : Worker} {crypt : List UInt8 → List UInt8}

/-- The hashes that the workers have computed for the task. -/
def World.computed (w : World n) : Nat := ∑ t, (w.worker t).computed

/-- The hashes that the workers have added. -/
def World.added (w : World n) : Nat := ∑ t, (w.worker t).added

/-- A worker that has come to the end of its range finds `found` zero, and one that goes on
leaves the number of hashes within the range of an `int`. -/
def Counted (w : World n) : Event n → Prop
  | .work t =>
    ((w.worker t).pc = .checkEnd → (w.worker t).count ≤ (w.worker t).c → w.found = false) ∧
    ((w.worker t).pc = .loop → (w.worker t).c < (w.worker t).count → w.computed + 1 < 2 ^ 31)
  | _ => True

instance (w : World n) (e : Event n) : Decidable (Counted w e) := by
  cases e <;> unfold Counted <;> infer_instance

/-- A worker has reported its hashes, once. -/
def Worker.Reported (x : Worker) : Prop := ∃ r, x.results = [((x.computed : Int), r)]

/-- `total_hashes` is the sum of what the workers have computed, and each has reported. -/
def Accounted (w : World n) : Prop :=
  w.totalHashes = (w.computed : Int) ∧ ∀ t, (w.worker t).Reported

/-! ## A worker -/

/-- A worker that has reported nothing. -/
structure Pending (x : Worker) : Prop where
  hashes : x.hashes = (x.computed : Int)
  added : x.added = 0
  results : x.results = []

theorem Pending.at (h : Pending x) (pc : Pc) : Pending { x with pc := pc } :=
  ⟨h.hashes, h.added, h.results⟩

/-- A worker that has reported its hashes and not added them. -/
structure Reporting (x : Worker) : Prop where
  hashes : x.hashes = (x.computed : Int)
  added : x.added = 0
  reported : x.Reported

/-- A worker that has reported and added its hashes. -/
structure Through (x : Worker) : Prop where
  added : x.added = x.computed
  reported : x.Reported

/-- What holds of a worker in the middle of a task. -/
def Fine (found : Bool) (x : Worker) : Prop :=
  match x.pc with
  | .begin => x.computed = 0 ∧ x.added = 0 ∧ x.results = []
  | .loop => Pending x
  | .save => Pending x ∧ x.c < x.count
  | .setFound => Pending x ∧ x.c < x.count
  | .checkFound => Pending x ∧ x.c < x.count
  | .report r => Pending x ∧ (r ≠ 2 → found = true ∧ x.c < x.count)
  | .add r => Reporting x ∧ (r ≠ 2 → found = true ∧ x.c < x.count)
  | .checkEnd => x.count ≤ x.c ∧ Pending x ∨ x.c < x.count ∧ found = true ∧ Through x
  | .second => Through x
  | .first => False
  | .exited => False

/-- `found` may be set at any time. -/
theorem Fine.found {found found' : Bool} (h : Fine found x) (hfound : found = true → found' = true) :
    Fine found' x := by
  unfold Fine at h ⊢
  cases hpc : x.pc with
  | report r =>
    simp only [hpc] at h ⊢
    exact ⟨h.1, fun hr => ⟨hfound (h.2 hr).1, (h.2 hr).2⟩⟩
  | add r =>
    simp only [hpc] at h ⊢
    exact ⟨h.1, fun hr => ⟨hfound (h.2 hr).1, (h.2 hr).2⟩⟩
  | checkEnd =>
    simp only [hpc] at h ⊢
    exact h.imp id fun h => ⟨h.1, hfound h.2.1, h.2.2⟩
  | first => simp only [hpc] at h
  | exited => simp only [hpc] at h
  | _ =>
    simp only [hpc] at h ⊢
    exact h

theorem Fine.added_le {found : Bool} (h : Fine found x) : x.added ≤ x.computed := by
  unfold Fine at h
  cases hpc : x.pc with
  | begin =>
    simp only [hpc] at h
    exact h.2.1.le.trans (Nat.zero_le _)
  | loop =>
    simp only [hpc] at h
    exact h.added.le.trans (Nat.zero_le _)
  | checkEnd =>
    simp only [hpc] at h
    rcases h with h | h
    · exact h.2.added.le.trans (Nat.zero_le _)
    · exact h.2.2.added.le
  | second =>
    simp only [hpc] at h
    exact h.added.le
  | first => simp only [hpc] at h
  | exited => simp only [hpc] at h
  | _ =>
    simp only [hpc] at h
    exact h.1.added.le.trans (Nat.zero_le _)

/-! ## A task -/

/-- What holds between the two barriers. -/
structure Working (w : World n) : Prop where
  taskDone : w.taskDone = false
  fine : ∀ t, Fine w.found (w.worker t)
  total : w.totalHashes = (w.added : Int)
  bound : w.computed < 2 ^ 31

theorem computed_set (h : w'.worker = Function.update w.worker t x) :
    w'.computed + (w.worker t).computed = w.computed + x.computed := by
  rw [World.computed, h]
  exact sum_update Worker.computed w.worker t x

theorem added_set (h : w'.worker = Function.update w.worker t x) :
    w'.added + (w.worker t).added = w.added + x.added := by
  rw [World.added, h]
  exact sum_update Worker.added w.worker t x

/-- A worker moves. -/
theorem Working.move (h : Working w) (hworker : w'.worker = Function.update w.worker t x)
    (htask : w'.taskDone = w.taskDone) (hfound : w.found = true → w'.found = true)
    (hx : Fine w'.found x)
    (htotal : w'.totalHashes + (w.worker t).added = w.totalHashes + x.added)
    (hbound : w.computed + x.computed < 2 ^ 31 + (w.worker t).computed) : Working w' where
  taskDone := htask.trans h.taskDone
  fine := fun u => by
    rw [hworker]
    by_cases hu : u = t
    · rw [hu, Function.update_self]
      exact hx
    · rw [Function.update_of_ne hu]
      exact (h.fine u).found hfound
  total := by
    have hadded := added_set hworker
    have htotalOld := h.total
    omega
  bound := by
    have hcomputed := computed_set hworker
    omega

/-- Worker `t` alone moves, and has computed and added as much as before. -/
theorem Working.set (h : Working w) (hx : Fine w.found x)
    (hcomputed : x.computed = (w.worker t).computed) (hadded : x.added = (w.worker t).added) :
    Working (w.set t x) := by
  have hbound := h.bound
  exact h.move rfl rfl id hx (by rw [hadded]; rfl) (by omega)

/-- A hash is counted before `found` is looked at. -/
theorem Working.hash (h : Working w) (hpending : Pending (w.worker t))
    (hlt : (w.worker t).c < (w.worker t).count) (hroom : w.computed + 1 < 2 ^ 31) (hit : Bool) :
    Working (w.set t
      { w.worker t with
        pc := if hit then .save else .checkFound
        hashes := int ((w.worker t).hashes + 1)
        computed := (w.worker t).computed + 1 }) := by
  have hle : (w.worker t).computed ≤ w.computed :=
    Finset.single_le_sum (f := fun u => (w.worker u).computed)
      (fun _ _ => Nat.zero_le _) (Finset.mem_univ t)
  have hhash : int ((w.worker t).hashes + 1) = (((w.worker t).computed + 1 : Nat) : Int) := by
    rw [hpending.hashes, ← Nat.cast_add_one]
    exact int_eq (by omega)
  have hnext : ∀ pc, Pending { w.worker t with
      pc := pc
      hashes := int ((w.worker t).hashes + 1)
      computed := (w.worker t).computed + 1 } := fun pc =>
    ⟨hhash, hpending.added, hpending.results⟩
  refine h.move (t := t) rfl rfl id ?_ rfl (by dsimp only; omega)
  cases hit with
  | true => exact ⟨hnext _, hlt⟩
  | false => exact ⟨hnext _, hlt⟩

/-- What is added so far and what this worker adds is at most what is computed. -/
theorem Working.added_add_le (h : Working w) (hzero : (w.worker t).added = 0) :
    w.added + (w.worker t).computed ≤ w.computed := by
  have hrest := Finset.sum_le_sum fun u (_ : u ∈ Finset.univ.erase t) => (h.fine u).added_le
  have hadded := Finset.add_sum_erase Finset.univ (fun u => (w.worker u).added)
    (Finset.mem_univ t)
  have hcomputed := Finset.add_sum_erase Finset.univ (fun u => (w.worker u).computed)
    (Finset.mem_univ t)
  rw [World.added, World.computed]
  omega

/-- A worker adds the hashes that it has reported. -/
theorem Working.add (h : Working w) {r : Nat} (hreporting : Reporting (w.worker t))
    (hbreak : r ≠ 2 → w.found = true ∧ (w.worker t).c < (w.worker t).count) :
    Working
      { w.set t
          { w.worker t with
            pc := if r = 2 then .second else .checkEnd
            added := (w.worker t).added + (w.worker t).computed } with
        totalHashes := int (w.totalHashes + (w.worker t).hashes) } := by
  have hbound := h.bound
  have hsum := h.added_add_le hreporting.added
  have hint : int (w.totalHashes + (w.worker t).hashes) =
      ((w.added + (w.worker t).computed : Nat) : Int) := by
    rw [h.total, hreporting.hashes, ← Nat.cast_add]
    exact int_eq (by omega)
  have hthrough : ∀ pc, Through { w.worker t with
      pc := pc, added := (w.worker t).added + (w.worker t).computed } := fun pc =>
    ⟨by dsimp only; rw [hreporting.added, Nat.zero_add], hreporting.reported⟩
  refine h.move (t := t) rfl rfl id ?_ ?_ (by dsimp only; omega)
  · by_cases hr : r = 2
    · simp only [hr, if_true]
      exact hthrough _
    · simp only [if_neg hr]
      exact Or.inr ⟨(hbreak hr).2, (hbreak hr).1, hthrough _⟩
  · dsimp only
    rw [hint, h.total, hreporting.added]
    push_cast
    omega

/-- **A worker takes a step that meets the condition.** -/
theorem working_work (h : Working w) (hC : Counted w (.work t)) (hs : work crypt w t = some w') :
    Working w' := by
  have hfine := h.fine t
  have hbound := h.bound
  unfold Fine at hfine
  rw [work] at hs
  cases hpc : (w.worker t).pc with
  | first => simp [hpc] at hs
  | begin =>
    simp only [hpc, h.taskDone, Bool.false_eq_true, if_false] at hfine hs
    obtain rfl := Option.some.inj hs
    refine h.set ?_ rfl rfl
    exact ⟨by rw [hfine.1]; rfl, hfine.2.1, hfine.2.2⟩
  | loop =>
    simp only [hpc] at hfine hs
    by_cases hlt : (w.worker t).c < (w.worker t).count
    · rw [if_pos hlt] at hs
      obtain rfl := Option.some.inj hs
      have hhash := h.hash hfine hlt (hC.2 hpc hlt) (decide (crypt (w.worker t).pwd = w.hashedPwd))
      simpa only [decide_eq_true_eq] using hhash
    · rw [if_neg hlt] at hs
      obtain rfl := Option.some.inj hs
      refine h.set ?_ rfl rfl
      exact Or.inl ⟨not_lt.mp hlt, hfine.at _⟩
  | save =>
    simp only [hpc] at hfine hs
    obtain rfl := Option.some.inj hs
    exact h.move (t := t) rfl rfl id ⟨hfine.1.at _, hfine.2⟩ rfl (by dsimp only; omega)
  | setFound =>
    simp only [hpc] at hfine hs
    obtain rfl := Option.some.inj hs
    exact h.move (t := t) rfl rfl (fun _ => rfl) ⟨hfine.1.at _, fun _ => ⟨rfl, hfine.2⟩⟩ rfl
      (by dsimp only; omega)
  | checkFound =>
    simp only [hpc] at hfine hs
    split_ifs at hs with hfound
    · obtain rfl := Option.some.inj hs
      refine h.set ?_ rfl rfl
      exact ⟨hfine.1.at _, fun _ => ⟨hfound, hfine.2⟩⟩
    · obtain rfl := Option.some.inj hs
      refine h.set ?_ rfl rfl
      exact ⟨hfine.1.hashes, hfine.1.added, hfine.1.results⟩
  | report r =>
    simp only [hpc] at hfine hs
    obtain rfl := Option.some.inj hs
    refine h.set ?_ rfl rfl
    refine ⟨⟨hfine.1.hashes, hfine.1.added, r, ?_⟩, hfine.2⟩
    dsimp only
    rw [hfine.1.results, hfine.1.hashes]
    rfl
  | add r =>
    simp only [hpc] at hfine hs
    obtain rfl := Option.some.inj hs
    exact h.add hfine.1 hfine.2
  | checkEnd =>
    simp only [hpc] at hfine hs
    split_ifs at hs with hfound
    · obtain rfl := Option.some.inj hs
      refine h.set ?_ rfl rfl
      rcases hfine with hfine | hfine
      · -- the branch that the condition excludes
        rw [hC.1 hpc hfine.1] at hfound
        cases hfound
      · exact ⟨hfine.2.2.added, hfine.2.2.reported⟩
    · obtain rfl := Option.some.inj hs
      refine h.set ?_ rfl rfl
      rcases hfine with hfine | hfine
      · exact ⟨hfine.2.at _, fun hr => absurd rfl hr⟩
      · -- a worker that has left the loop by `break` has seen `found`
        exact (hfound hfine.2.1).elim
  | second => simp [hpc] at hs
  | exited => simp [hpc] at hs

/-! ## All threads -/

/-- A worker leaves the main thread alone. -/
theorem main_work (hs : work crypt w t = some w') : w'.main = w.main := by
  rw [work] at hs
  cases hpc : (w.worker t).pc <;> simp only [hpc, reduceCtorEq] at hs <;>
    (try split_ifs at hs) <;> (obtain rfl := Option.some.inj hs; rfl)

/-- All workers wait for the next task. -/
structure Resting (w : World n) : Prop where
  taskDone : w.taskDone = false
  first : ∀ t, (w.worker t).pc = .first

/-- **The invariant.** -/
def Inv (w : World n) : Prop :=
  match w.main with
  | .reading => Resting w ∧ w.found = false ∧ w.totalHashes = 0
  | .first => Resting w ∧ w.found = false ∧ w.totalHashes = 0
  | .second => Working w
  | .resetFound => Resting w
  | .resetTotal => Resting w ∧ w.found = false
  | .ending => w.taskDone = true ∧ ∀ t, (w.worker t).pc = .first
  | .exited => w.taskDone = true ∧ ∀ t, (w.worker t).pc = .begin ∨ (w.worker t).pc = .exited

theorem inv_start : Inv (World.start n) := ⟨⟨rfl, fun _ => rfl⟩, rfl, rfl⟩

/-- The workers leave the first barrier. -/
theorem Resting.begin (h : Resting w) (htotal : w.totalHashes = 0) {main : MainPc} :
    Working { w with main := main, worker := fun t => (w.worker t).pass } := by
  have hpass : ∀ t, (w.worker t).pass =
      { w.worker t with pc := .begin, computed := 0, added := 0, results := [] } := by
    intro t
    rw [Worker.pass, h.first t]
  refine ⟨h.taskDone, fun t => ?_, ?_, ?_⟩
  · dsimp only
    rw [hpass]
    exact ⟨rfl, rfl, rfl⟩
  · have hadded : (∑ t, (w.worker t).pass.added) = 0 :=
      Finset.sum_eq_zero fun t _ => by rw [hpass]
    rw [World.added]
    dsimp only
    rw [hadded, htotal]
    rfl
  · have hcomputed : (∑ t, (w.worker t).pass.computed) = 0 :=
      Finset.sum_eq_zero fun t _ => by rw [hpass]
    rw [World.computed]
    dsimp only
    rw [hcomputed]
    decide

/-- At the second barrier all workers are through. -/
theorem Working.second (h : Working w) (hwait : w.AllWait) (t : Fin n) :
    (w.worker t).pc = .second := by
  refine (hwait.2 t).resolve_left fun hpc => ?_
  have hfine := h.fine t
  unfold Fine at hfine
  simp only [hpc] at hfine

/-- The hashes of a task, when the main thread passes the second barrier. -/
theorem Working.accounted (h : Working w) (hwait : w.AllWait) : Accounted w := by
  have hthrough : ∀ t, Through (w.worker t) := by
    intro t
    have hfine := h.fine t
    unfold Fine at hfine
    simpa only [h.second hwait t] using hfine
  refine ⟨?_, fun t => (hthrough t).reported⟩
  rw [h.total, World.added, World.computed]
  congr 1
  exact Finset.sum_congr rfl fun t _ => (hthrough t).added

/-- Outside a task a worker waits, or it sees that there are no more tasks. -/
theorem Inv.work (hi : Inv w) (hmain : w.main ≠ .second) (hs : work crypt w t = some w') :
    Inv w' ∧ (w.worker t).pc = .begin := by
  have hmain' : w'.main = w.main := main_work hs
  have hrest : (w.worker t).pc = .first → Inv w' ∧ (w.worker t).pc = .begin := fun hpc => by
    simp [Cracker.work, hpc] at hs
  unfold Inv at hi
  cases hcase : w.main with
  | second => exact (hmain hcase).elim
  | exited =>
    simp only [hcase] at hi
    rcases hi.2 t with hpc | hpc
    · simp only [Cracker.work, hpc, hi.1, if_true] at hs
      obtain rfl := Option.some.inj hs
      refine ⟨?_, hpc⟩
      simp only [Inv, World.set, hcase]
      refine ⟨hi.1, fun u => ?_⟩
      by_cases hu : u = t
      · exact Or.inr (by rw [hu, Function.update_self])
      · rw [Function.update_of_ne hu]
        exact hi.2 u
    · simp [Cracker.work, hpc] at hs
  | reading =>
    simp only [hcase] at hi
    exact hrest (hi.1.first t)
  | first =>
    simp only [hcase] at hi
    exact hrest (hi.1.first t)
  | resetFound =>
    simp only [hcase] at hi
    exact hrest (hi.first t)
  | resetTotal =>
    simp only [hcase] at hi
    exact hrest (hi.1.first t)
  | ending =>
    simp only [hcase] at hi
    exact hrest (hi.2 t)

/-- **A step that meets the condition keeps the invariant.** -/
theorem inv_step {e : Event n} (hi : Inv w) (hC : Counted w e) (hs : step crypt w e = some w') :
    Inv w' := by
  cases e with
  | read hashedPwd knownPwd =>
    rw [step] at hs
    split_ifs at hs with hmain
    obtain rfl := Option.some.inj hs
    simp only [Inv, hmain] at hi
    exact ⟨⟨hi.1.taskDone, hi.1.first⟩, hi.2⟩
  | eof =>
    rw [step] at hs
    split_ifs at hs with hmain
    obtain rfl := Option.some.inj hs
    simp only [Inv, hmain] at hi
    exact ⟨rfl, hi.1.first⟩
  | release =>
    rw [step] at hs
    split_ifs at hs with hwait
    obtain rfl := Option.some.inj hs
    rcases hwait.1 with hmain | hmain | hmain
    · simp only [Inv, hmain] at hi
      simp only [Inv, hmain, MainPc.pass]
      exact hi.1.begin hi.2.2
    · simp only [Inv, hmain] at hi
      simp only [Inv, hmain, MainPc.pass]
      exact ⟨hi.taskDone, fun t => by simp only [Worker.pass, hi.second hwait t]⟩
    · simp only [Inv, hmain] at hi
      simp only [Inv, hmain, MainPc.pass]
      exact ⟨hi.1, fun t => Or.inl (by simp only [Worker.pass, hi.2 t])⟩
  | main =>
    rw [step] at hs
    cases hmain : w.main with
    | resetFound =>
      simp only [Inv, hmain] at hi hs
      obtain rfl := Option.some.inj hs
      exact ⟨⟨hi.taskDone, hi.first⟩, rfl⟩
    | resetTotal =>
      simp only [Inv, hmain] at hi hs
      obtain rfl := Option.some.inj hs
      exact ⟨⟨hi.1.taskDone, hi.1.first⟩, hi.2, rfl⟩
    | _ => simp [hmain] at hs
  | work t =>
    by_cases hmain : w.main = .second
    · rw [Inv, main_work hs, hmain]
      rw [Inv, hmain] at hi
      exact working_work hi hC hs
    · exact (hi.work hmain hs).1

/-! ## After a step that does not meet the condition -/

/-- A task whose hashes will not be accounted for: a worker has passed its report over, or there
are more hashes than an `int` counts. -/
structure Broken (w : World n) : Prop where
  main : w.main = .second
  total : w.totalHashes < 2 ^ 31
  lost : (∃ t, (w.worker t).pc = .second ∧ (w.worker t).results = []) ∨ 2 ^ 31 ≤ w.computed

theorem int_lt (x : Int) : int x < 2 ^ 31 := by
  rw [int, Int.bmod_def]
  omega

/-- What a step of a worker does to the two counters. -/
theorem work_counters (hs : work crypt w t = some w') :
    w.computed ≤ w'.computed ∧ (w'.totalHashes = w.totalHashes ∨ w'.totalHashes < 2 ^ 31) ∧
      ∀ u, u ≠ t → w'.worker u = w.worker u := by
  have hset : ∀ x : Worker, w'.worker = Function.update w.worker t x →
      (w.worker t).computed ≤ x.computed →
      (w'.totalHashes = w.totalHashes ∨ w'.totalHashes < 2 ^ 31) →
      w.computed ≤ w'.computed ∧ (w'.totalHashes = w.totalHashes ∨ w'.totalHashes < 2 ^ 31) ∧
        ∀ u, u ≠ t → w'.worker u = w.worker u := by
    intro x hworker hle htotal
    have hcomputed := computed_set hworker
    exact ⟨by omega, htotal, fun u hu => by rw [hworker, Function.update_of_ne hu]⟩
  rw [work] at hs
  cases hpc : (w.worker t).pc with
  | add r =>
    simp only [hpc] at hs
    obtain rfl := Option.some.inj hs
    exact hset _ rfl le_rfl (Or.inr (int_lt _))
  | loop =>
    simp only [hpc] at hs
    by_cases hlt : (w.worker t).c < (w.worker t).count
    · rw [if_pos hlt] at hs
      obtain rfl := Option.some.inj hs
      exact hset _ rfl (Nat.le_succ _) (Or.inl rfl)
    · rw [if_neg hlt] at hs
      obtain rfl := Option.some.inj hs
      exact hset _ rfl le_rfl (Or.inl rfl)
  | first => simp [hpc] at hs
  | second => simp [hpc] at hs
  | exited => simp [hpc] at hs
  | _ =>
    simp only [hpc] at hs
    (try split_ifs at hs) <;>
      (obtain rfl := Option.some.inj hs; exact hset _ rfl le_rfl (Or.inl rfl))

theorem Broken.work (h : Broken w) (hs : work crypt w t = some w') : Broken w' := by
  obtain ⟨hcomputed, htotal, hothers⟩ := work_counters hs
  refine ⟨(main_work hs).trans h.main, ?_, h.lost.imp (fun ⟨u, hpc, hnone⟩ => ?_) fun hbig =>
    hbig.trans hcomputed⟩
  · rcases htotal with htotal | htotal
    · rw [htotal]
      exact h.total
    · exact htotal
  · -- a worker at the second barrier does nothing
    have hu : u ≠ t := by
      rintro rfl
      simp [Cracker.work, hpc] at hs
    exact ⟨u, by rw [hothers u hu, hpc], by rw [hothers u hu, hnone]⟩

theorem Broken.not_accounted (h : Broken w) : ¬ Accounted w := by
  rintro ⟨htotal, hreported⟩
  rcases h.lost with ⟨t, -, hnone⟩ | hbig
  · obtain ⟨r, hr⟩ := hreported t
    rw [hnone] at hr
    cases hr
  · have hlt := h.total
    omega

/-- A step that does not meet the condition breaks the task. -/
theorem broken_step {e : Event n} (hi : Inv w) (hC : ¬ Counted w e)
    (hs : step crypt w e = some w') : Broken w' := by
  cases e with
  | work t =>
    by_cases hmain : w.main = .second
    · rw [Inv, hmain] at hi
      have hfine := hi.fine t
      have hbound := hi.bound
      have hsmall : w.totalHashes < 2 ^ 31 := by
        have hle : w.added ≤ w.computed := Finset.sum_le_sum fun u _ => (hi.fine u).added_le
        rw [hi.total]
        omega
      have hmain' : w'.main = .second := (main_work hs).trans hmain
      have htotal : w'.totalHashes < 2 ^ 31 := by
        rcases (work_counters hs).2.1 with htotal | htotal
        · rw [htotal]
          exact hsmall
        · exact htotal
      refine ⟨hmain', htotal, ?_⟩
      rw [step] at hs
      unfold Fine at hfine
      by_cases hend : (w.worker t).pc = .checkEnd → (w.worker t).count ≤ (w.worker t).c →
          w.found = false
      · -- one hash too many
        have hloop : (w.worker t).pc = .loop ∧ (w.worker t).c < (w.worker t).count ∧
            ¬ w.computed + 1 < 2 ^ 31 := by
          by_contra hno
          refine hC ⟨hend, fun hpc hlt => ?_⟩
          by_contra hbig
          exact hno ⟨hpc, hlt, hbig⟩
        obtain ⟨hpc, hlt, hbig⟩ := hloop
        simp only [work, hpc, if_pos hlt] at hs
        obtain rfl := Option.some.inj hs
        obtain ⟨w', hw'⟩ : ∃ w', w' = w.set t { w.worker t with
          pc := if crypt (w.worker t).pwd = w.hashedPwd then .save else .checkFound
          hashes := int ((w.worker t).hashes + 1)
          computed := (w.worker t).computed + 1 } := ⟨_, rfl⟩
        have hcomputed := computed_set (congrArg World.worker hw')
        dsimp only at hcomputed
        rw [← hw']
        exact Or.inr (by omega)
      · -- the report is passed over
        push Not at hend
        obtain ⟨hpc, hle, hfound⟩ := hend
        simp only [hpc] at hfine
        have hpending : Pending (w.worker t) :=
          (hfine.resolve_right fun h => absurd h.1 (not_lt.mpr hle)).2
        simp only [work, hpc, (Bool.not_eq_false _).mp hfound, if_true] at hs
        obtain rfl := Option.some.inj hs
        refine Or.inl ⟨t, ?_, ?_⟩
        · simp [World.set]
        · simpa [World.set] using hpending.results
    · have hpc := (hi.work hmain hs).2
      refine (hC ⟨fun h => ?_, fun h => ?_⟩).elim
      · rw [hpc] at h
        cases h
      · rw [hpc] at h
        cases h
  | _ => exact (hC trivial).elim

/-- In a run all steps meet the condition, or the hashes of a task were not accounted for, or
will not be. -/
theorem counted_or_broken {is : List (Event n)}
    (hrun : run (step crypt) (World.start n) is = some w) :
    ((∀ v e, Takes (step crypt) (World.start n) is v e → Counted v e) ∧ Inv w) ∨
      (∃ v, Visits (step crypt) (World.start n) is v ∧ v.main = .second ∧ v.AllWait ∧
        ¬ Accounted v) ∨ Broken w := by
  induction is using List.reverseRecOn generalizing w with
  | nil =>
    obtain rfl := Option.some.inj hrun
    refine Or.inl ⟨?_, inv_start⟩
    rintro v e ⟨pre, hpre, -⟩
    simp at hpre
  | append_singleton is e ih =>
    obtain ⟨v, hv, hs⟩ := run_snoc_eq_some.mp hrun
    rcases ih hv with ⟨hC, hi⟩ | ⟨u, hu, hbad⟩ | hbroken
    · by_cases hCe : Counted v e
      · refine Or.inl ⟨fun u d hd => ?_, inv_step hi hCe hs⟩
        rcases takes_snoc hd with hd | ⟨rfl, hu⟩
        · exact hC u d hd
        · obtain rfl : v = u := Option.some.inj (hv.symm.trans hu)
          exact hCe
      · exact Or.inr (Or.inr (broken_step hi hCe hs))
    · exact Or.inr (Or.inl ⟨u, hu.snoc, hbad⟩)
    · cases e with
      | work t => exact Or.inr (Or.inr (hbroken.work hs))
      | release =>
        rw [step] at hs
        split_ifs at hs with hwait
        exact Or.inr (Or.inl ⟨v, (Visits.final hv).snoc, hbroken.main, hwait,
          hbroken.not_accounted⟩)
      | read hashedPwd knownPwd => simp [step, hbroken.main] at hs
      | eof => simp [step, hbroken.main] at hs
      | main => simp [step, hbroken.main] at hs

/-- **The hashes of every task are accounted for** when no worker comes to the end of its range
after the password has been found, and the hashes of a task are not more than an `int` counts:
whenever the main thread passes the second barrier, `total_hashes` is the sum of what all workers
have computed, and each has reported once. In a run that does not end in the middle of a task,
this is also necessary. -/
theorem hashes_accounted_iff (crypt : List UInt8 → List UInt8) (n : Nat) (is : List (Event n)) :
    ((∀ w e, Takes (step crypt) (World.start n) is w e → Counted w e) →
      ∀ w, Visits (step crypt) (World.start n) is w → w.main = .second → w.AllWait →
        Accounted w) ∧
    ∀ w', run (step crypt) (World.start n) is = some w' → w'.main ≠ .second →
      ((∀ w, Visits (step crypt) (World.start n) is w → w.main = .second → w.AllWait →
        Accounted w) ↔
      ∀ w e, Takes (step crypt) (World.start n) is w e → Counted w e) := by
  have hgood : (∀ w e, Takes (step crypt) (World.start n) is w e → Counted w e) →
      ∀ w, Visits (step crypt) (World.start n) is w → w.main = .second → w.AllWait →
        Accounted w := by
    intro hC w hw hmain hwait
    have hi : Inv w :=
      forall_visits_of_takes inv_start (fun _ _ _ hi hC hs => inv_step hi hC hs) hC w hw
    rw [Inv, hmain] at hi
    exact Working.accounted hi hwait
  refine ⟨hgood, fun w' hrun hmain => ⟨fun hall => ?_, hgood⟩⟩
  rcases counted_or_broken hrun with hC | ⟨v, hv, hsecond, hwait, hbad⟩ | hbroken
  · exact hC.1
  · exact (hbad (hall v hv hsecond hwait)).elim
  · exact (hmain hbroken.main).elim

/-! ## Two runs -/

/-- `crypt_r` with the salt `xx`, at the letters from `a` to `n`. -/
def cryptLetter (pwd : List UInt8) : List UInt8 :=
  match pwd with
  | [c] => hashes.getD (c.toNat - 97) []
  | _ => []
where
  hashes : List (List UInt8) := [
    [120, 120, 75, 75, 84, 113, 77, 116, 86, 121, 121, 72, 73],
    [120, 120, 73, 116, 65, 54, 121, 77, 77, 110, 112, 82, 69],
    [120, 120, 105, 74, 47, 84, 83, 98, 118, 48, 53, 70, 65],
    [120, 120, 73, 90, 102, 79, 86, 82, 80, 53, 113, 105, 54],
    [120, 120, 83, 110, 75, 52, 114, 79, 109, 77, 116, 104, 81],
    [120, 120, 98, 75, 81, 56, 82, 117, 57, 71, 73, 99, 119],
    [120, 120, 109, 80, 98, 112, 51, 117, 85, 66, 74, 110, 103],
    [120, 120, 97, 121, 65, 72, 90, 65, 50, 84, 55, 78, 103],
    [120, 120, 52, 51, 54, 98, 73, 87, 116, 68, 68, 82, 69],
    [120, 120, 114, 110, 66, 102, 110, 54, 111, 114, 103, 109, 103],
    [120, 120, 97, 46, 88, 102, 81, 51, 111, 52, 108, 76, 99],
    [120, 120, 56, 68, 98, 54, 83, 110, 49, 88, 46, 113, 119],
    [120, 120, 99, 78, 75, 122, 75, 120, 98, 98, 118, 97, 73],
    [120, 120, 53, 104, 52, 116, 48, 68, 71, 69, 118, 117, 89]]

/-- The password is `b`. The first worker finds it at its second hash, the other one sees that
after its first. -/
def earlyFind : List (Event 2) :=
  [.read (cryptLetter [98]) [46], .release, .work first, .work second] ++
    List.replicate 3 (.work first) ++ [.work second] ++ List.replicate 5 (.work first) ++
    List.replicate 4 (.work second)

theorem hashes_accounted_earlyFind :
    ∃ w, run (step cryptLetter) (World.start 2) earlyFind = some w ∧ w.totalHashes = 3 ∧
      Accounted w := by
  have hend : (run (step cryptLetter) (World.start 2) earlyFind).map
      (fun w => (w.totalHashes, w.main, decide w.AllWait)) = some (3, .second, true) := by
    decide +kernel
  have hcheck : checkRun (step cryptLetter) (fun w e => decide (Counted w e)) (World.start 2)
      earlyFind = true := by
    decide +kernel
  obtain ⟨w, hrun, hw⟩ := Option.map_eq_some_iff.mp hend
  simp only [Prod.mk.injEq, decide_eq_true_eq] at hw
  refine ⟨w, hrun, hw.1, (hashes_accounted_iff cryptLetter 2 earlyFind).1 (fun v e hve => ?_) w
    (Visits.final hrun) hw.2.1 hw.2.2⟩
  exact of_decide_eq_true (forall_takes_of_checkRun hcheck v e hve)

/-- The password is `n`. The first worker has tried the letters up to `m` when the second one
finds it at its first hash. -/
def lateFind : List (Event 2) :=
  [.read (cryptLetter [110]) [46], .release] ++ List.replicate 28 (.work first) ++
    List.replicate 7 (.work second) ++ [.work first]

theorem not_accounted_lateFind :
    ∃ w, Visits (step cryptLetter) (World.start 2) lateFind w ∧ w.main = .second ∧ w.AllWait ∧
      w.totalHashes = 1 ∧ w.computed = 14 ∧ (w.worker 0).results = [] ∧ ¬ Accounted w := by
  have hend : (run (step cryptLetter) (World.start 2) lateFind).map
      (fun w => (w.main, decide w.AllWait, w.totalHashes, w.computed,
        decide ((w.worker 0).results = []))) = some (.second, true, 1, 14, true) := by
    decide +kernel
  obtain ⟨w, hrun, hw⟩ := Option.map_eq_some_iff.mp hend
  simp only [Prod.mk.injEq, decide_eq_true_eq] at hw
  obtain ⟨hmain, hwait, htotal, hcomputed, hresults⟩ := hw
  refine ⟨w, Visits.final hrun, hmain, hwait, htotal, hcomputed, hresults, fun haccounted => ?_⟩
  obtain ⟨r, hr⟩ := haccounted.2 0
  rw [hresults] at hr
  cases hr

end SystemProgramming.Cracker
