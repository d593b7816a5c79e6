import SystemProgramming.Foundation.Run
import SystemProgramming.Foundation.Chunks
import SystemProgramming.Foundation.Counting

/-!
# `teaching_threads/par_reduce.c`

`par_reduce` cuts the list into one part for each thread. A worker folds its part from the base
case, and after `pthread_join` of all workers the main thread folds their results, from the base
case again. The pointers of a `worklist_t` are offsets from `list`, and the arithmetic on them is
that of `size_t`. `reduce` is the loop over the whole list.

A step is one turn of the loop of a worker, or what the main thread does in one turn of its
loops; a worker may run as soon as it is created. A worker that reads outside the list has no
next step.

The order of the steps does not matter: every run is finite, and where it cannot go on
`par_reduce` has returned what `reduce` returns, when the reducer is associative and the base
case is a left identity of it. A worker without elements would need a right identity too, but
there is none.

## Main definitions

* `reduce`, `add`, `mult`: the sequential reduction and two of the reducers
* `Worklist`, `worklist`: `worklist_t` and what `par_reduce` puts into it
* `World`, `Event`, `step`: the main thread and its workers

## Main results

* `parReduce_eq_reduce`: `par_reduce` returns what `reduce` returns
-/

namespace SystemProgramming.TeachingThreads

variable {α : Type}

/-- `reduce`. -/
def reduce (list : List α) (reduceFunc : α → α → α) (baseCase : α) : α :=
  list.foldl reduceFunc baseCase

/-- `add`. -/
def add (elem1 elem2 : Int32) : Int32 := elem1 + elem2

/-- `mult`. -/
def mult (elem1 elem2 : Int32) : Int32 := elem1 * elem2

/-- `add_base_case` and `mult_base_case`. -/
def addBaseCase : Int32 := 0
def multBaseCase : Int32 := 1

/-! ## The threads -/

/-- `worklist_t`. -/
structure Worklist (α : Type) where
  leftValue : Nat
  rightValue : Nat
  acc : α
  callback : α → α → α

/-- The number of threads that are created: no more than the list has elements. -/
def threadCount (listLen numThreads : Nat) : Nat :=
  if listLen < numThreads then listLen else numThreads

/-- `workers[thread_id]` before the threads are created. -/
def worklist (list : List α) (reduceFunc : α → α → α) (baseCase : α) (numThreads threadId : Nat) :
    Worklist α where
  leftValue := list.length * threadId % 2 ^ 64 / numThreads
  rightValue := list.length * ((threadId + 1) % 2 ^ 64) % 2 ^ 64 / numThreads
  acc := baseCase
  callback := reduceFunc

/-- Where a worker is: not created yet, at the condition of its loop, or through. -/
inductive Pc where
  | idle
  | loop (addr : Nat)
  | exited
  deriving DecidableEq

/-- A worker: `*arg`, and where it is in `solve_worker`. -/
structure Thread (α : Type) where
  worker : Worklist α
  pc : Pc

/-- Where the main thread is in `par_reduce`: in the loop that creates the threads, in the loop
that joins them, in the loop that combines their results, or back from the call. -/
inductive MainPc (α : Type) where
  | create (threadId : Nat)
  | join (i : Nat)
  | combine (threadId : Nat) (parReduced : α)
  | returned (value : α)

/-- The main thread and `n` workers. -/
structure World (α : Type) (n : Nat) where
  main : MainPc α
  thread : Fin n → Thread α

/-- A thread takes a step. -/
inductive Event (n : Nat) where
  | main
  | worker (t : Fin n)

section Steps

variable {n : Nat} (list : List α) (reduceFunc : α → α → α) (baseCase : α)

/-- One turn of the loop of `solve_worker`. -/
def solveWorker (x : Thread α) : Option (Thread α) :=
  match x.pc with
  | .idle => none
  | .loop addr =>
    if addr < x.worker.rightValue then
      list[addr]?.map fun value =>
        { worker := { x.worker with acc := x.worker.callback x.worker.acc value }
          pc := .loop (addr + 1) }
    else some { x with pc := .exited }
  | .exited => none

/-- One turn of a loop of the main thread. The last thread that is created leads into the loop of
the joins, and that one back to the end of the loop around it. -/
def mainStep (w : World α n) : Option (World α n) :=
  match w.main with
  | .create threadId =>
    if h : threadId < n then
      let x := w.thread ⟨threadId, h⟩
      some
        { main := if threadId + 1 = n then .join 0 else .create (threadId + 1)
          thread := Function.update w.thread ⟨threadId, h⟩
            { x with pc := .loop x.worker.leftValue } }
    else some { w with main := .combine 0 baseCase }
  | .join i =>
    if h : i < n then
      if (w.thread ⟨i, h⟩).pc = .exited then some { w with main := .join (i + 1) } else none
    else some { w with main := .create n }
  | .combine threadId parReduced =>
    if h : threadId < n then
      some { w with
        main := .combine (threadId + 1)
          (reduceFunc parReduced (w.thread ⟨threadId, h⟩).worker.acc) }
    else some { w with main := .returned parReduced }
  | .returned _ => none

/-- One step of a thread. `none` is a thread that waits, or has nothing to do. -/
def step (w : World α n) : Event n → Option (World α n)
  | .main => mainStep reduceFunc baseCase w
  | .worker t =>
    (solveWorker list (w.thread t)).map fun x =>
      { w with thread := Function.update w.thread t x }

/-- `par_reduce` before it creates the threads. -/
def parReduce (numThreads : Nat) : World α (threadCount list.length numThreads) where
  main := .create 0
  thread t :=
    { worker := worklist list reduceFunc baseCase (threadCount list.length numThreads) t
      pc := .idle }

end Steps

/-! ## What a worker and the main thread have done -/

section Invariant

variable {n : Nat} (list : List α) (f : α → α → α) (b : α)

/-- Where the part of worker `t` starts. -/
def cut (n t : Nat) : Nat := list.length * t / n

/-- How many threads the main thread has created, and how many it has joined. -/
def MainPc.created (n : Nat) : MainPc α → Nat
  | .create threadId => threadId
  | _ => n

def MainPc.joined (n : Nat) : MainPc α → Nat
  | .create threadId => if threadId < n then 0 else n
  | .join i => i
  | _ => n

/-- A worker has folded the elements of its part up to the address at which it is. -/
structure Thread.Inv (n created joined t : Nat) (x : Thread α) : Prop where
  left : x.worker.leftValue = cut list n t
  right : x.worker.rightValue = cut list n (t + 1)
  callback : x.worker.callback = f
  idle : x.pc = .idle ↔ created ≤ t
  exited : t < joined → x.pc = .exited
  acc : match x.pc with
    | .idle => x.worker.acc = b
    | .loop addr => cut list n t ≤ addr ∧ addr ≤ cut list n (t + 1) ∧
        x.worker.acc = (slice list (cut list n t) addr).foldl f b
    | .exited => x.worker.acc = (slice list (cut list n t) (cut list n (t + 1))).foldl f b

/-- The main thread has folded the elements of the parts that it has combined. -/
def MainPc.Inv (n : Nat) : MainPc α → Prop
  | .create threadId => threadId ≤ n
  | .join i => i ≤ n
  | .combine threadId parReduced =>
    threadId ≤ n ∧ parReduced = (list.take (cut list n threadId)).foldl f b
  | .returned value => value = reduce list f b

/-- The invariant of `par_reduce`. -/
structure World.Inv (w : World α n) : Prop where
  main : w.main.Inv list f b n
  thread : ∀ t : Fin n, (w.thread t).Inv list f b n (w.main.created n) (w.main.joined n) t

/-- The turns that a worker has left, and one more before it is created. -/
def Thread.measure (x : Thread α) : Nat :=
  match x.pc with
  | .idle => x.worker.rightValue - x.worker.leftValue + 2
  | .loop addr => x.worker.rightValue - addr + 1
  | .exited => 0

/-- A bound on the turns that the main thread has left. -/
def MainPc.measure (n : Nat) : MainPc α → Nat
  | .create threadId => if threadId < n then (n - threadId) + (2 * n + 3) else n + 2
  | .join i => (n - i) + (n + 3)
  | .combine threadId _ => (n - threadId) + 1
  | .returned _ => 0

def World.measure (w : World α n) : Nat := w.main.measure n + ∑ t, (w.thread t).measure

end Invariant

/-! ## One step -/

section Step

variable {n : Nat} {list : List α} {f : α → α → α} {b : α} {w w' : World α n}

theorem cut_le (t : Fin n) : cut list n (t + 1) ≤ list.length := mul_div_le t.isLt

/-- What a turn of a worker does to it. -/
theorem Thread.Inv.solveWorker {created joined t : Nat} {x x' : Thread α}
    (hx : x.Inv list f b n created joined t) (h : solveWorker list x = some x') :
    x'.Inv list f b n created joined t ∧ x'.measure < x.measure := by
  have hacc := hx.acc
  have hidle := hx.idle
  have hexited := hx.exited
  cases hpc : x.pc with
  | idle => simp [TeachingThreads.solveWorker, hpc] at h
  | exited => simp [TeachingThreads.solveWorker, hpc] at h
  | loop addr =>
    simp only [hpc] at hacc hexited hidle
    obtain ⟨hleft, hright, hfold⟩ := hacc
    have hstarted : ¬ created ≤ t := fun hle => Pc.noConfusion (hidle.mpr hle)
    have hnotJoined : ¬ t < joined := fun hlt => Pc.noConfusion (hexited hlt)
    simp only [TeachingThreads.solveWorker, hpc] at h
    split_ifs at h with hlt
    · -- the loop goes on: one more element is folded
      obtain ⟨value, hvalue, rfl⟩ := Option.map_eq_some_iff.mp h
      obtain ⟨haddr, rfl⟩ := List.getElem?_eq_some_iff.mp hvalue
      rw [hx.right] at hlt
      refine ⟨⟨hx.left, hx.right, hx.callback, ?_, ?_, ?_⟩, ?_⟩
      · simp [hstarted]
      · exact fun hjoined => absurd hjoined hnotJoined
      · refine ⟨by omega, hlt, ?_⟩
        rw [slice_succ hleft haddr, List.foldl_append, ← hfold, hx.callback]
        rfl
      · simp only [Thread.measure, hpc, hx.right]
        omega
    · obtain rfl := Option.some.inj h
      rw [hx.right] at hlt
      obtain rfl : addr = cut list n (t + 1) := by omega
      refine ⟨⟨hx.left, hx.right, hx.callback, ?_, fun _ => rfl, hfold⟩, ?_⟩
      · simp [hstarted]
      · simp [Thread.measure, hpc]

/-- A worker that is created and not through can take its next turn. -/
theorem Thread.Inv.exists_solveWorker {joined : Nat} {t : Fin n} {x : Thread α}
    (hx : x.Inv list f b n n joined t) (hpc : x.pc ≠ .exited) :
    ∃ x', TeachingThreads.solveWorker list x = some x' := by
  have hidle := hx.idle
  cases hpc' : x.pc with
  | idle => exact absurd (hidle.mp hpc') (by have := t.isLt; omega)
  | exited => exact absurd hpc' hpc
  | loop addr =>
    simp only [TeachingThreads.solveWorker, hpc']
    split_ifs with hlt
    · have haddr : addr < list.length := by
        rw [hx.right] at hlt
        exact hlt.trans_le (cut_le t)
      rw [List.getElem?_eq_getElem haddr]
      exact ⟨_, rfl⟩
    · exact ⟨_, rfl⟩

/-- Nothing changes for a worker while the counts of the main thread stay on its side. -/
theorem Thread.Inv.congr {created joined created' joined' t : Nat} {x : Thread α}
    (hx : x.Inv list f b n created joined t) (hcreated : created' ≤ t ↔ created ≤ t)
    (hjoined : t < joined' → t < joined) : x.Inv list f b n created' joined' t :=
  { hx with
    idle := hx.idle.trans hcreated.symm
    exited := fun h => hx.exited (hjoined h) }

theorem World.Inv.worker {t : Fin n} (hw : w.Inv list f b)
    (h : step list f b w (.worker t) = some w') :
    w'.Inv list f b ∧ w'.measure < w.measure := by
  obtain ⟨x, hx, rfl⟩ := Option.map_eq_some_iff.mp h
  obtain ⟨hinv, hlt⟩ := (hw.thread t).solveWorker hx
  refine ⟨⟨hw.main, fun s => ?_⟩, ?_⟩
  · rcases eq_or_ne s t with rfl | hne
    · simpa using hinv
    · simpa [hne] using hw.thread s
  · have hsum := sum_update Thread.measure w.thread t x
    simp only [World.measure]
    omega

/-- The main thread creates a thread. -/
theorem World.Inv.create {threadId : Nat} (hw : w.Inv list f b)
    (hmain : w.main = .create threadId) (h : threadId < n)
    (hstep : mainStep f b w = some w') : w'.Inv list f b ∧ w'.measure < w.measure := by
  have hx := hw.thread ⟨threadId, h⟩
  have hidle : (w.thread ⟨threadId, h⟩).pc = .idle := hx.idle.mpr (by simp [hmain, MainPc.created])
  have hacc := hx.acc
  simp only [hidle] at hacc
  simp only [mainStep, hmain, h, dite_true] at hstep
  obtain rfl := Option.some.inj hstep
  set main' : MainPc α := if threadId + 1 = n then .join 0 else .create (threadId + 1) with hmain'
  have hcreated : main'.created n = threadId + 1 := by
    rw [hmain']
    split_ifs with hlast
    · exact hlast.symm
    · rfl
  have hjoined : main'.joined n = 0 := by
    rw [hmain']
    split_ifs with hlast
    · rfl
    · exact if_pos (by omega)
  have hmeasure : main'.measure n + 1 ≤ w.main.measure n := by
    rw [hmain', hmain]
    split_ifs with hlast <;> simp only [MainPc.measure] <;> split_ifs <;> omega
  refine ⟨⟨?_, fun s => ?_⟩, ?_⟩
  · change main'.Inv list f b n
    rw [hmain']
    split_ifs with hlast
    · exact Nat.zero_le n
    · exact h
  · change Thread.Inv list f b n (main'.created n) (main'.joined n) s _
    rw [hcreated, hjoined]
    dsimp only
    rcases eq_or_ne s ⟨threadId, h⟩ with rfl | hne
    · rw [Function.update_self]
      refine ⟨hx.left, hx.right, hx.callback, ?_, fun hlt => absurd hlt (Nat.not_lt_zero _), ?_⟩
      · simp
      · have hle : cut list n threadId ≤ cut list n (threadId + 1) :=
          mul_div_mono list.length n threadId.le_succ
        refine ⟨hx.left.ge, hx.left.le.trans hle, ?_⟩
        rw [hx.left, slice_self]
        exact hacc
    · rw [Function.update_of_ne hne]
      refine (hw.thread s).congr ?_ (fun hlt => absurd hlt (Nat.not_lt_zero _))
      have hval : (s : Nat) ≠ threadId := fun heq => hne (Fin.ext heq)
      simp only [hmain, MainPc.created]
      omega
  · have hsum := sum_update Thread.measure w.thread ⟨threadId, h⟩
      { w.thread ⟨threadId, h⟩ with pc := .loop (w.thread ⟨threadId, h⟩).worker.leftValue }
    simp only [Thread.measure, hidle] at hsum
    simp only [World.measure]
    change main'.measure n + _ < _
    simp only [Thread.measure]
    omega

/-- The main thread goes on and leaves the workers alone. -/
theorem World.Inv.setMain (hw : w.Inv list f b) {m : MainPc α} (hm : m.Inv list f b n)
    (hcreated : ∀ t : Fin n, m.created n ≤ t ↔ w.main.created n ≤ t)
    (hjoined : ∀ t : Fin n, t < m.joined n → t < w.main.joined n ∨ (w.thread t).pc = .exited)
    (hlt : m.measure n < w.main.measure n) :
    { w with main := m }.Inv list f b ∧ { w with main := m }.measure < w.measure := by
  refine ⟨⟨hm, fun t => ?_⟩, ?_⟩
  · have hx := hw.thread t
    exact { hx with
      idle := hx.idle.trans (hcreated t).symm
      exited := fun h => (hjoined t h).elim hx.exited id }
  · simp only [World.measure]
    omega

/-- The results of the workers are folded from `base_case` on. -/
theorem World.Inv.combineFirst (hw : w.Inv list f b) (hmain : w.main = .create n) :
    { w with main := .combine 0 b }.Inv list f b ∧
      { w with main := .combine 0 b }.measure < w.measure := by
  apply hw.setMain
  · exact ⟨Nat.zero_le _, by simp [cut]⟩
  · simp [hmain, MainPc.created]
  · simp [hmain, MainPc.joined]
  · simp [hmain, MainPc.measure]

/-- All threads have been joined. -/
theorem World.Inv.joined (hw : w.Inv list f b) (hmain : w.main = .join n) :
    { w with main := .create n }.Inv list f b ∧
      { w with main := .create n }.measure < w.measure := by
  apply hw.setMain
  · exact le_refl n
  · simp [hmain, MainPc.created]
  · simp [hmain, MainPc.joined]
  · simp [hmain, MainPc.measure]

/-- A thread that has exited is joined. -/
theorem World.Inv.join {i : Nat} (hw : w.Inv list f b) (hmain : w.main = .join i) (hlt : i < n)
    (hexited : (w.thread ⟨i, hlt⟩).pc = .exited) :
    { w with main := .join (i + 1) }.Inv list f b ∧
      { w with main := .join (i + 1) }.measure < w.measure := by
  apply hw.setMain
  · exact hlt
  · simp [hmain, MainPc.created]
  · intro t ht
    rcases Nat.lt_succ_iff_lt_or_eq.mp ht with hti | hti
    · exact Or.inl (by rwa [hmain])
    · obtain rfl : t = ⟨i, hlt⟩ := Fin.ext hti
      exact Or.inr hexited
  · simp only [hmain, MainPc.measure]
    omega

/-- The result of the next worker is folded in. -/
theorem World.Inv.combine {threadId : Nat} {parReduced : α} (hw : w.Inv list f b)
    (hmain : w.main = .combine threadId parReduced) (hlt : threadId < n) (hn : n ≤ list.length)
    (hassoc : ∀ x y z, f (f x y) z = f x (f y z)) (hb : ∀ x, f b x = x) :
    let m : MainPc α :=
      .combine (threadId + 1) (f parReduced (w.thread ⟨threadId, hlt⟩).worker.acc)
    { w with main := m }.Inv list f b ∧ { w with main := m }.measure < w.measure := by
  have hinv := hw.main
  rw [hmain] at hinv
  obtain ⟨-, hfold⟩ := hinv
  have hx := hw.thread ⟨threadId, hlt⟩
  have hexited : (w.thread ⟨threadId, hlt⟩).pc = .exited :=
    hx.exited (by simpa [hmain, MainPc.joined] using hlt)
  have hacc := hx.acc
  simp only [hexited] at hacc
  apply hw.setMain
  · refine ⟨hlt, ?_⟩
    -- the part is not empty, so the fold of the worker can be appended
    rw [hacc, hfold]
    exact foldl_foldl_slice hassoc hb
      (mul_div_lt_succ (Nat.zero_lt_of_lt hlt) hn threadId) (cut_le ⟨threadId, hlt⟩)
  · simp [hmain, MainPc.created]
  · simp [hmain, MainPc.joined]
  · simp only [hmain, MainPc.measure]
    omega

/-- The results of all workers make the reduction of the list. -/
theorem World.Inv.returned {parReduced : α} (hw : w.Inv list f b)
    (hmain : w.main = .combine n parReduced) (hempty : n = 0 → list = []) :
    { w with main := .returned parReduced }.Inv list f b ∧
      { w with main := .returned parReduced }.measure < w.measure := by
  have hinv := hw.main
  rw [hmain] at hinv
  obtain ⟨-, hfold⟩ := hinv
  have hcut : list.take (cut list n n) = list := by
    rcases Nat.eq_zero_or_pos n with hzero | hpos
    · rw [hempty hzero, List.take_nil]
    · rw [cut, Nat.mul_div_cancel _ hpos, List.take_length]
  apply hw.setMain
  · change parReduced = reduce list f b
    rw [hfold, hcut, reduce]
  · simp [hmain, MainPc.created]
  · simp [hmain, MainPc.joined]
  · simp [hmain, MainPc.measure]

/-- What a turn of the main thread does, when no part is empty. -/
theorem World.Inv.mainStep (hw : w.Inv list f b) (hn : n ≤ list.length)
    (hempty : n = 0 → list = []) (hassoc : ∀ x y z, f (f x y) z = f x (f y z))
    (hb : ∀ x, f b x = x) (h : mainStep f b w = some w') :
    w'.Inv list f b ∧ w'.measure < w.measure := by
  have hinv := hw.main
  cases hmain : w.main with
  | create threadId =>
    rw [hmain] at hinv
    by_cases hlt : threadId < n
    · exact hw.create hmain hlt h
    · simp only [TeachingThreads.mainStep, hmain, hlt, dite_false] at h
      obtain rfl := Option.some.inj h
      obtain rfl : threadId = n := le_antisymm hinv (not_lt.mp hlt)
      exact hw.combineFirst hmain
  | join i =>
    rw [hmain] at hinv
    simp only [TeachingThreads.mainStep, hmain] at h
    split_ifs at h with hlt hexited
    · obtain rfl := Option.some.inj h
      exact hw.join hmain hlt hexited
    · obtain rfl := Option.some.inj h
      obtain rfl : i = n := le_antisymm hinv (not_lt.mp hlt)
      exact hw.joined hmain
  | combine threadId parReduced =>
    rw [hmain] at hinv
    simp only [TeachingThreads.mainStep, hmain] at h
    split_ifs at h with hlt
    · obtain rfl := Option.some.inj h
      exact hw.combine hmain hlt hn hassoc hb
    · obtain rfl := Option.some.inj h
      obtain rfl : threadId = n := le_antisymm hinv.1 (not_lt.mp hlt)
      exact hw.returned hmain hempty
  | returned value => simp [TeachingThreads.mainStep, hmain] at h

/-- The main thread waits in `pthread_join` only. -/
theorem exists_mainStep (hmain : ∀ value, w.main ≠ .returned value)
    (hjoin : ∀ i (h : i < n), w.main = .join i → (w.thread ⟨i, h⟩).pc = .exited) :
    ∃ w', mainStep f b w = some w' := by
  cases hpc : w.main with
  | create threadId =>
    by_cases hlt : threadId < n <;> simp [mainStep, hpc, hlt]
  | join i =>
    by_cases hlt : i < n
    · simp [mainStep, hpc, hlt, hjoin i hlt hpc]
    · simp [mainStep, hpc, hlt]
  | combine threadId parReduced =>
    by_cases hlt : threadId < n <;> simp [mainStep, hpc, hlt]
  | returned value => exact absurd hpc (hmain value)

/-- Some thread can take a step until `par_reduce` has returned: a worker for which the main
thread waits is not through, and can go on. -/
theorem World.Inv.exists_step (hw : w.Inv list f b) (hmain : ∀ value, w.main ≠ .returned value) :
    ∃ e w', step list f b w e = some w' := by
  by_cases hjoin : ∀ i (h : i < n), w.main = .join i → (w.thread ⟨i, h⟩).pc = .exited
  · obtain ⟨w', hw'⟩ := exists_mainStep (f := f) (b := b) hmain hjoin
    exact ⟨.main, w', hw'⟩
  · push Not at hjoin
    obtain ⟨i, hlt, hpc, hexited⟩ := hjoin
    have hx := hw.thread ⟨i, hlt⟩
    rw [hpc] at hx
    obtain ⟨x', hx'⟩ := hx.exists_solveWorker hexited
    exact ⟨.worker ⟨i, hlt⟩, _, by rw [step, hx', Option.map_some]⟩

end Step

/-! ## A run -/

section Run

variable {list : List α} {f : α → α → α} {b : α} {numThreads : Nat}

/-- Whatever the order of the steps, there are finitely many of them, and `par_reduce` returns
`value`: nothing else is returned, and until it is some thread can take a step. -/
def Returns (list : List α) (f : α → α → α) (b : α) (numThreads : Nat) (value : α) : Prop :=
  ∃ bound, ∀ is w, run (step list f b) (parReduce list f b numThreads) is = some w →
    is.length ≤ bound ∧ (∀ r, w.main = .returned r → r = value) ∧
      ((∀ e, step list f b w e = none) → w.main = .returned value)

theorem threadCount_le_length : threadCount list.length numThreads ≤ list.length := by
  rw [threadCount]
  split_ifs with h
  · exact le_refl _
  · exact not_lt.mp h

theorem threadCount_le : threadCount list.length numThreads ≤ numThreads := by
  rw [threadCount]
  split_ifs with h
  · exact h.le
  · exact le_refl _

theorem eq_nil_of_threadCount (hthreads : 1 ≤ numThreads)
    (h : threadCount list.length numThreads = 0) : list = [] := by
  rw [threadCount] at h
  apply List.length_eq_zero_iff.mp
  split_ifs at h <;> omega

/-- The offsets of the workers are computed without overflow. -/
theorem worklist_offsets {n t : Nat} (hlt : t < n) (hn : n ≤ list.length)
    (hlen : list.length * n < 2 ^ 64) :
    (worklist list f b n t).leftValue = cut list n t ∧
      (worklist list f b n t).rightValue = cut list n (t + 1) := by
  have hsmall : ∀ i ≤ n, list.length * i < 2 ^ 64 := fun i hi =>
    (Nat.mul_le_mul_left _ hi).trans_lt hlen
  have hpos : 0 < list.length := (Nat.zero_lt_of_lt hlt).trans_le hn
  have hsucc : t + 1 < 2 ^ 64 := (Nat.le_mul_of_pos_left _ hpos).trans_lt (hsmall (t + 1) hlt)
  constructor
  · rw [worklist, Nat.mod_eq_of_lt (hsmall t hlt.le), cut]
  · rw [worklist, Nat.mod_eq_of_lt hsucc, Nat.mod_eq_of_lt (hsmall (t + 1) hlt), cut]

theorem World.Inv.start (hlen : list.length * numThreads < 2 ^ 64) :
    (parReduce list f b numThreads).Inv list f b where
  main := Nat.zero_le _
  thread t := by
    have hle : list.length * threadCount list.length numThreads < 2 ^ 64 :=
      (Nat.mul_le_mul_left _ threadCount_le).trans_lt hlen
    obtain ⟨hleft, hright⟩ := worklist_offsets (f := f) (b := b) t.isLt threadCount_le_length hle
    refine ⟨hleft, hright, rfl, by simp [parReduce, MainPc.created], ?_, rfl⟩
    intro hjoined
    have hnone : (parReduce list f b numThreads).main.joined (threadCount list.length numThreads)
        = 0 := if_pos (Nat.zero_lt_of_lt t.isLt)
    exact absurd (hnone ▸ hjoined) (Nat.not_lt_zero _)

theorem returns_reduce (hthreads : 1 ≤ numThreads) (hlen : list.length * numThreads < 2 ^ 64)
    (hassoc : ∀ x y z, f (f x y) z = f x (f y z)) (hb : ∀ x, f b x = x) :
    Returns list f b numThreads (reduce list f b) := by
  have hstep : ∀ (w : World α (threadCount list.length numThreads)) e w', w.Inv list f b →
      step list f b w e = some w' → w'.Inv list f b ∧ w'.measure < w.measure := by
    intro w e w' hw h
    cases e with
    | main =>
      exact hw.mainStep threadCount_le_length (eq_nil_of_threadCount hthreads) hassoc hb h
    | worker t => exact hw.worker h
  refine ⟨(parReduce list f b numThreads).measure, fun is w hrun => ?_⟩
  obtain ⟨hw, hle⟩ := length_add_measure_le (World.Inv.start hlen) hstep hrun
  have hvalue : ∀ r, w.main = .returned r → r = reduce list f b := by
    intro r hr
    have hinv := hw.main
    rw [hr] at hinv
    exact hinv
  refine ⟨by omega, hvalue, fun hstuck => ?_⟩
  by_contra hne
  have hmain : ∀ value, w.main ≠ .returned value := by
    intro value hr
    exact hne (hvalue value hr ▸ hr)
  obtain ⟨e, w', h⟩ := hw.exists_step hmain
  rw [hstuck e] at h
  exact Option.some_ne_none w' h.symm

end Run

/-! ## Parallel and sequential reduction -/

/-- **`par_reduce` returns what `reduce` returns**, for every associative reducer with a left
identity as its base case, and so for `add` and `mult` on wrapping integers. -/
theorem parReduce_eq_reduce (list : List Int32) (numThreads : Nat) (hthreads : 1 ≤ numThreads)
    (hlen : list.length * numThreads < 2 ^ 64) :
    (∀ (f : Int32 → Int32 → Int32) (b : Int32), (∀ x y z, f (f x y) z = f x (f y z)) →
      (∀ x, f b x = x) → Returns list f b numThreads (reduce list f b)) ∧
    Returns list add addBaseCase numThreads (reduce list add addBaseCase) ∧
    Returns list mult multBaseCase numThreads (reduce list mult multBaseCase) :=
  ⟨fun _ _ hassoc hb => returns_reduce hthreads hlen hassoc hb,
    returns_reduce hthreads hlen Int32.add_assoc Int32.zero_add,
    returns_reduce hthreads hlen Int32.mul_assoc Int32.one_mul⟩

/-- Three threads, and five elements. -/
theorem parReduce_eq_reduce_five :
    Returns [3, 1, 4, 1, 5] add addBaseCase 3 14 ∧ Returns [3, 1, 4, 1, 5] mult multBaseCase 3 60 :=
  (parReduce_eq_reduce [3, 1, 4, 1, 5] 3 (by decide) (by decide)).2

end SystemProgramming.TeachingThreads
