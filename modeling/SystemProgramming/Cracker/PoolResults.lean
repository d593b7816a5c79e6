import SystemProgramming.Foundation.Monitor
import SystemProgramming.Cracker.Pool

/-!
# The results of the thread pool

A task is in the queue, in the hand of one thread, or destroyed. A thread prints one result for
each task, and the result is that of the sequential search. `NULL` is the last element of the
queue, or in the hand of one thread while the queue is empty, so a thread that waits for the queue
waits for that one.

## Main definitions

* `Solves`: a result of the sequential search
* `Accounted`: the tasks, the results and the counters of a state
* `Inv`: the invariant

## Main results

* `inv_step`: every step keeps the invariant
* `exists_step`: no run gets stuck before the summary is printed
-/

namespace SystemProgramming.Cracker.Pool

variable {Q : Type} {ops : QueueOps Q (Option TaskT)} {crypt : List UInt8 → List UInt8} {n : Nat}

/-! ## Weights of a thread -/

/-- The task that a thread has in hand. -/
def Pc.hand : Pc → Option TaskT
  | .solving tsk _ => some tsk
  | .recovering tsk _ => some tsk
  | .recovered tsk _ => some tsk
  | .failing tsk => some tsk
  | .failed tsk => some tsk
  | .finishing tsk => some tsk
  | _ => none

/-- Has the result of the task in hand been printed? -/
def Pc.reported : Pc → Bool
  | .solving _ x => x.succ
  | .recovering _ _ => true
  | .recovered _ _ => true
  | .failing _ => true
  | .failed _ => true
  | .finishing _ => true
  | _ => false

def Pc.handed (p : TaskT → Bool) (pc : Pc) : Nat :=
  match pc.hand with
  | some tsk => (p tsk).toNat
  | none => 0

def Pc.printed (p : TaskT → Bool) (pc : Pc) : Nat := if pc.reported then pc.handed p else 0

/-- Is a counter still to be increased? -/
def Pc.owesRecovered : Pc → Nat
  | .recovering _ _ => 1
  | .recovered _ _ => 1
  | _ => 0

def Pc.owesFailed : Pc → Nat
  | .failing _ => 1
  | .failed _ => 1
  | _ => 0

/-- Does a thread have one of the two mutexes? -/
def Pc.HoldsRecovered : Pc → Prop
  | .recovered _ _ => True
  | _ => False

def Pc.HoldsFailed : Pc → Prop
  | .failed _ => True
  | _ => False

/-- `NULL` in hand. -/
def Pc.sentinel : Pc → Nat
  | .pushing => 1
  | _ => 0

/-! ## What a result says -/

/-- The sequential search gives this result. -/
def Solves (crypt : List UInt8 → List UInt8) (r : Result) : Prop :=
  ∃ fuel x, solveTask crypt r.tsk.hashedPwd r.tsk.knownPwd fuel (Task.start r.tsk.knownPwd) =
    some x ∧ r.password = (if x.succ then x.hashed.getLast? else none) ∧
    r.hashCount = int x.hashed.length

/-- The turns of the inner loop lead to these variables. -/
def Turns (crypt : List UInt8 → List UInt8) (tsk : TaskT) (x : Task) : Prop :=
  ∃ k, ∀ fuel, solveTask crypt tsk.hashedPwd tsk.knownPwd (fuel + k) (Task.start tsk.knownPwd) =
    solveTask crypt tsk.hashedPwd tsk.knownPwd fuel x

/-- What holds of a thread on its own. -/
def Fine (crypt : List UInt8 → List UInt8) : Pc → Prop
  | .solving tsk x => Turns crypt tsk x ∧ (x.succ = true → x.done = true)
  | .recovering tsk x => Turns crypt tsk x ∧ x.done = false ∧ crypt x.pwd = tsk.hashedPwd
  | .recovered tsk x => Turns crypt tsk x ∧ x.done = false ∧ crypt x.pwd = tsk.hashedPwd
  | _ => True

theorem turns_start (tsk : TaskT) : Turns crypt tsk (Task.start tsk.knownPwd) := ⟨0, fun _ => rfl⟩

theorem Turns.turn {tsk : TaskT} {x : Task} (h : Turns crypt tsk x) (hdone : x.done = false) :
    Turns crypt tsk (turn crypt tsk.hashedPwd tsk.knownPwd x) := by
  obtain ⟨k, hk⟩ := h
  refine ⟨k + 1, fun fuel => ?_⟩
  rw [← Nat.add_assoc, Nat.add_right_comm, hk, solveTask, if_neg (by simp [hdone])]

theorem Turns.solveTask {tsk : TaskT} {x : Task} (h : Turns crypt tsk x) (hdone : x.done = true) :
    ∃ fuel, Cracker.solveTask crypt tsk.hashedPwd tsk.knownPwd fuel (Task.start tsk.knownPwd) =
      some x := by
  obtain ⟨k, hk⟩ := h
  exact ⟨1 + k, by rw [hk, Cracker.solveTask, if_pos hdone]⟩

/-- A turn that finds the password. -/
theorem turn_of_found {tsk : TaskT} {x : Task} (hfound : crypt x.pwd = tsk.hashedPwd) :
    (turn crypt tsk.hashedPwd tsk.knownPwd x).done = true ∧
    (turn crypt tsk.hashedPwd tsk.knownPwd x).succ = true ∧
    (turn crypt tsk.hashedPwd tsk.knownPwd x).hashed = x.hashed ++ [x.pwd] := by
  simp [turn, hfound]

/-- **The result of a thread is that of the sequential search.** -/
theorem Turns.solves_found {tsk : TaskT} {x : Task} (h : Turns crypt tsk x) (hdone : x.done = false)
    (hfound : crypt x.pwd = tsk.hashedPwd) :
    Solves crypt ⟨tsk, some x.pwd, int (x.hashed.length + 1)⟩ := by
  obtain ⟨hdone', hsucc, hhashed⟩ := turn_of_found hfound
  obtain ⟨fuel, hfuel⟩ := (h.turn hdone).solveTask hdone'
  refine ⟨fuel, _, hfuel, ?_, ?_⟩
  · rw [if_pos hsucc, hhashed, List.getLast?_concat]
  · rw [hhashed, List.length_append, List.length_singleton]
    push_cast
    rfl

theorem Turns.solves_missed {tsk : TaskT} {x : Task} (h : Turns crypt tsk x) (hdone : x.done = true)
    (hsucc : x.succ = false) : Solves crypt ⟨tsk, none, int x.hashed.length⟩ := by
  obtain ⟨fuel, hfuel⟩ := h.solveTask hdone
  refine ⟨fuel, x, hfuel, ?_, ?_⟩
  · rw [if_neg (by simp [hsucc])]
  · dsimp only

/-! ## The tasks, the results and the counters -/

def countTasks (p : TaskT → Bool) (results : List Result) : Nat := results.countP fun r => p r.tsk

def found (r : Result) : Bool := r.password.isSome

def missed (r : Result) : Bool := r.password.isNone

/-- The tasks in the queue are `rest`. -/
structure Accounted (ops : QueueOps Q (Option TaskT)) (tasks rest : List TaskT) (w : World Q n) :
    Prop where
  queue : ops.elements w.queue = rest.map some ++ [none] ∧ ∑ t, (w.pc t).sentinel = 0 ∨
    ops.elements w.queue = [] ∧ rest = [] ∧ ∑ t, (w.pc t).sentinel = 1
  drained : ∀ t, w.pc t = .pushing ∨ w.pc t = .ended → rest = []
  tasks : ∀ p, rest.countP p + ∑ t, (w.pc t).handed p + w.destroyed.countP p = tasks.countP p
  results : ∀ p, countTasks p w.results = w.destroyed.countP p + ∑ t, (w.pc t).printed p
  recovered : ∃ k : Nat, w.numRecovered = int k ∧
    k + ∑ t, (w.pc t).owesRecovered = w.results.countP found
  failed : ∃ k : Nat, w.numFailed = int k ∧ k + ∑ t, (w.pc t).owesFailed = w.results.countP missed

/-- The main thread. -/
def MainFine (w : World Q n) : Prop :=
  match w.main with
  | .creating i => i < n ∧ ∀ t, w.pc t = .unborn ↔ i ≤ t
  | .joining j => j ≤ n ∧ ∀ t : Fin n, w.pc t ≠ .unborn ∧ (t < j → w.pc t = .ended)
  | .returned r f => (∀ t, w.pc t = .ended) ∧ r = w.numRecovered ∧ f = w.numFailed

/-- **The invariant.** -/
structure Inv (ops : QueueOps Q (Option TaskT)) (crypt : List UInt8 → List UInt8)
    (tasks : List TaskT) (w : World Q n) : Prop where
  accounted : ∃ rest, Accounted ops tasks rest w
  fine : ∀ t, Fine crypt (w.pc t)
  solves : ∀ r ∈ w.results, Solves crypt r
  recoveredMtx : HeldBy w.numRecoveredMtx Pc.HoldsRecovered w.pc
  failedMtx : HeldBy w.numFailedMtx Pc.HoldsFailed w.pc
  main : MainFine w

/-! ## Steps of one thread -/

section Moves

variable {tasks rest : List TaskT} {w w' : World Q n} {t : Fin n} {pc : Pc} {tsk : TaskT} {x : Task}

/-- What is in the queue at the start. -/
theorem elements_start (laws : QueueLaws ops) :
    ops.elements (World.start ops n tasks).queue = tasks.map some ++ [none] := by
  have hpush : ∀ queue,
      ops.elements (tasks.foldl (fun queue tsk => ops.push queue (some tsk)) queue) =
        ops.elements queue ++ tasks.map some := by
    intro queue
    induction tasks generalizing queue with
    | nil => simp
    | cons tsk tasks ih =>
      rw [List.foldl_cons, ih, laws.elements_push, List.map_cons, List.append_assoc]
      rfl
  rw [World.start, laws.elements_push, hpush, laws.elements_create, List.nil_append]

theorem accounted_start (laws : QueueLaws ops) :
    Accounted ops tasks tasks (World.start ops n tasks) where
  queue := Or.inl ⟨elements_start laws, by simp [World.start, Pc.sentinel]⟩
  drained := by
    rintro t (h | h)
    · cases h
    · cases h
  tasks := fun p => by simp [World.start, Pc.handed, Pc.hand]
  results := fun p => by simp [World.start, countTasks, Pc.printed, Pc.reported]
  recovered := ⟨0, rfl, by simp [World.start, Pc.owesRecovered]⟩
  failed := ⟨0, rfl, by simp [World.start, Pc.owesFailed]⟩

theorem inv_start (laws : QueueLaws ops) (hn : 0 < n) :
    Inv ops crypt tasks (World.start ops n tasks) where
  accounted := ⟨tasks, accounted_start laws⟩
  fine := fun _ => trivial
  solves := fun r h => absurd h List.not_mem_nil
  recoveredMtx := fun _ => iff_of_false id (by simp [World.start])
  failedMtx := fun _ => iff_of_false id (by simp [World.start])
  main := ⟨hn, fun t => by simp [World.start]⟩

theorem sentinel_eq_zero (h : pc ≠ .pushing) : pc.sentinel = 0 := by
  cases pc <;> first | rfl | exact absurd rfl h

/-- A thread moves. What it adds to the tasks, the results and the counters is what it has taken
from them. -/
theorem Accounted.update {rest' : List TaskT} (h : Accounted ops tasks rest w)
    (hpc : w'.pc = Function.update w.pc t pc)
    (hqueue : ops.elements w'.queue = rest'.map some ++ [none] ∧
        ∑ u, (w.pc u).sentinel + pc.sentinel = (w.pc t).sentinel ∨
      ops.elements w'.queue = [] ∧ rest' = [] ∧
        ∑ u, (w.pc u).sentinel + pc.sentinel = (w.pc t).sentinel + 1)
    (hdrained : pc = .pushing ∨ pc = .ended ∨ rest = [] → rest' = [])
    (htasks : ∀ p, rest'.countP p + pc.handed p + w'.destroyed.countP p =
      rest.countP p + (w.pc t).handed p + w.destroyed.countP p)
    (hresults : ∀ p, countTasks p w'.results + w.destroyed.countP p + (w.pc t).printed p =
      countTasks p w.results + w'.destroyed.countP p + pc.printed p)
    (hrecovered : ∀ k : Nat, w.numRecovered = int k → ∃ k' : Nat, w'.numRecovered = int k' ∧
      k' + pc.owesRecovered + w.results.countP found =
        k + (w.pc t).owesRecovered + w'.results.countP found)
    (hfailed : ∀ k : Nat, w.numFailed = int k → ∃ k' : Nat, w'.numFailed = int k' ∧
      k' + pc.owesFailed + w.results.countP missed =
        k + (w.pc t).owesFailed + w'.results.countP missed) :
    Accounted ops tasks rest' w' where
  queue := by
    -- only the thread `t` moves, so each sum changes by its term
    have hsum := sum_update Pc.sentinel w.pc t pc
    rw [← hpc] at hsum
    rcases hqueue with ⟨hshape, hzero⟩ | ⟨hshape, hrest, hone⟩
    · exact Or.inl ⟨hshape, by omega⟩
    · exact Or.inr ⟨hshape, hrest, by omega⟩
  drained := fun u hu => by
    rw [hpc] at hu
    by_cases hut : u = t
    · rw [hut, Function.update_self] at hu
      exact hdrained (hu.imp id Or.inl)
    · rw [Function.update_of_ne hut] at hu
      exact hdrained (Or.inr (Or.inr (h.drained u hu)))
  tasks := fun p => by
    have hsum := sum_update (Pc.handed p) w.pc t pc
    have hbalance := htasks p
    have hold := h.tasks p
    rw [← hpc] at hsum
    omega
  results := fun p => by
    have hsum := sum_update (Pc.printed p) w.pc t pc
    have hbalance := hresults p
    have hold := h.results p
    rw [← hpc] at hsum
    omega
  recovered := by
    obtain ⟨k, hk, hcount⟩ := h.recovered
    obtain ⟨k', hk', hbalance⟩ := hrecovered k hk
    have hsum := sum_update Pc.owesRecovered w.pc t pc
    rw [← hpc] at hsum
    exact ⟨k', hk', by omega⟩
  failed := by
    obtain ⟨k, hk, hcount⟩ := h.failed
    obtain ⟨k', hk', hbalance⟩ := hfailed k hk
    have hsum := sum_update Pc.owesFailed w.pc t pc
    rw [← hpc] at hsum
    exact ⟨k', hk', by omega⟩

/-- A thread moves and leaves the queue alone. -/
theorem Accounted.move (h : Accounted ops tasks rest w) (hpc : w'.pc = Function.update w.pc t pc)
    (hqueue : w'.queue = w.queue) (hold : w.pc t ≠ .pushing) (hnew : pc ≠ .pushing)
    (hended : pc ≠ .ended)
    (htasks : ∀ p, pc.handed p + w'.destroyed.countP p =
      (w.pc t).handed p + w.destroyed.countP p)
    (hresults : ∀ p, countTasks p w'.results + w.destroyed.countP p + (w.pc t).printed p =
      countTasks p w.results + w'.destroyed.countP p + pc.printed p)
    (hrecovered : ∀ k : Nat, w.numRecovered = int k → ∃ k' : Nat, w'.numRecovered = int k' ∧
      k' + pc.owesRecovered + w.results.countP found =
        k + (w.pc t).owesRecovered + w'.results.countP found)
    (hfailed : ∀ k : Nat, w.numFailed = int k → ∃ k' : Nat, w'.numFailed = int k' ∧
      k' + pc.owesFailed + w.results.countP missed =
        k + (w.pc t).owesFailed + w'.results.countP missed) :
    Accounted ops tasks rest w' := by
  -- the queue is left alone, so its shape and the remaining tasks stay
  apply h.update hpc _ _ _ hresults hrecovered hfailed
  · rw [hqueue, sentinel_eq_zero hold, sentinel_eq_zero hnew]
    exact h.queue
  · rintro (hpushing | hpc | hrest)
    · exact absurd hpushing hnew
    · exact absurd hpc hended
    · exact hrest
  · intro p
    rw [Nat.add_assoc, htasks, Nat.add_assoc]

/-- A thread moves, and what is printed and counted stays. -/
theorem Accounted.atQueue {rest' : List TaskT} (h : Accounted ops tasks rest w)
    (hpc : w'.pc = Function.update w.pc t pc)
    (hqueue : ops.elements w'.queue = rest'.map some ++ [none] ∧
        ∑ u, (w.pc u).sentinel + pc.sentinel = (w.pc t).sentinel ∨
      ops.elements w'.queue = [] ∧ rest' = [] ∧
        ∑ u, (w.pc u).sentinel + pc.sentinel = (w.pc t).sentinel + 1)
    (hdrained : pc = .pushing ∨ pc = .ended ∨ rest = [] → rest' = [])
    (htasks : ∀ p, rest'.countP p + pc.handed p = rest.countP p + (w.pc t).handed p)
    (hdestroyed : w'.destroyed = w.destroyed) (hresults : w'.results = w.results)
    (hrecovered : w'.numRecovered = w.numRecovered) (hfailed : w'.numFailed = w.numFailed)
    (hreported : pc.reported = false ∧ (w.pc t).reported = false)
    (howesRecovered : pc.owesRecovered = (w.pc t).owesRecovered)
    (howesFailed : pc.owesFailed = (w.pc t).owesFailed) : Accounted ops tasks rest' w' := by
  apply h.update hpc hqueue hdrained
  · intro p
    rw [htasks, hdestroyed]
  · intro p
    rw [hresults, hdestroyed, Pc.printed, Pc.printed, hreported.1, hreported.2]
    rfl
  · exact fun k hk => ⟨k, hrecovered.trans hk, by rw [howesRecovered, hresults]⟩
  · exact fun k hk => ⟨k, hfailed.trans hk, by rw [howesFailed, hresults]⟩

/-- A thread moves, and nothing that is counted changes. -/
theorem Accounted.quiet (h : Accounted ops tasks rest w) (hpc : w'.pc = Function.update w.pc t pc)
    (hqueue : w'.queue = w.queue) (hdestroyed : w'.destroyed = w.destroyed)
    (hresults : w'.results = w.results) (hrecovered : w'.numRecovered = w.numRecovered)
    (hfailed : w'.numFailed = w.numFailed) (hold : w.pc t ≠ .pushing) (hnew : pc ≠ .pushing)
    (hended : pc ≠ .ended) (hhand : pc.hand = (w.pc t).hand)
    (hreported : pc.reported = (w.pc t).reported)
    (howesRecovered : pc.owesRecovered = (w.pc t).owesRecovered)
    (howesFailed : pc.owesFailed = (w.pc t).owesFailed) : Accounted ops tasks rest w' := by
  have hhanded : ∀ p, pc.handed p = (w.pc t).handed p := fun p => by
    rw [Pc.handed, Pc.handed, hhand]
  have hprinted : ∀ p, pc.printed p = (w.pc t).printed p := fun p => by
    rw [Pc.printed, Pc.printed, hreported, hhanded]
  refine h.move hpc hqueue hold hnew hended (fun p => ?_) (fun p => ?_) (fun k hk => ?_)
    fun k hk => ?_
  · rw [hhanded, hdestroyed]
  · rw [hprinted, hdestroyed, hresults]
  · exact ⟨k, hrecovered.trans hk, by rw [howesRecovered, hresults]⟩
  · exact ⟨k, hfailed.trans hk, by rw [howesFailed, hresults]⟩

theorem countTasks_snoc (p : TaskT → Bool) (results : List Result) (r : Result) :
    countTasks p (results ++ [r]) = countTasks p results + (p r.tsk).toNat := by
  cases h : p r.tsk <;> simp [countTasks, List.countP_append, h]

theorem int_succ {i : Int} {k : Nat} (h : i = int k) : int (i + 1) = int (k + 1 : Nat) := by
  rw [h, int, int, int, Int.bmod_add_bmod]
  push_cast
  rfl

/-- A thread takes `NULL`, and the queue is empty. -/
theorem Accounted.pullNull {queue : Q} (h : Accounted ops tasks rest w)
    (hpc : w.pc t = .pulling) (hqueue : ops.elements w.queue = none :: ops.elements queue) :
    Accounted ops tasks rest { w.goto t .pushing with queue := queue } := by
  rcases h.queue with ⟨hshape, hzero⟩ | ⟨hshape, -⟩
  · rw [hqueue] at hshape
    cases rest with
    | cons tsk rest => simp at hshape
    | nil =>
      have hempty : ops.elements queue = [] := by simpa using hshape
      exact h.atQueue rfl (Or.inr ⟨hempty, rfl, by rw [hzero, hpc]; rfl⟩) (fun _ => rfl)
        (fun p => by rw [hpc]; rfl) rfl rfl rfl rfl ⟨rfl, by rw [hpc]; rfl⟩ (by rw [hpc]; rfl)
        (by rw [hpc]; rfl)
  · rw [hqueue] at hshape
    cases hshape

/-- A thread takes a task. -/
theorem Accounted.pullTask {queue : Q} (h : Accounted ops tasks rest w)
    (hpc : w.pc t = .pulling) (hqueue : ops.elements w.queue = some tsk :: ops.elements queue) :
    ∃ rest', Accounted ops tasks rest'
      { w.goto t (.solving tsk (Task.start tsk.knownPwd)) with queue := queue } := by
  rcases h.queue with ⟨hshape, hzero⟩ | ⟨hshape, -⟩
  · rw [hqueue] at hshape
    cases rest with
    | nil => simp at hshape
    | cons first rest =>
      simp only [List.map_cons, List.cons_append, List.cons.injEq, Option.some.injEq] at hshape
      obtain ⟨rfl, hqueue'⟩ := hshape
      refine ⟨rest, h.atQueue rfl (Or.inl ⟨hqueue', by rw [hzero, hpc]; rfl⟩) ?_ (fun p => ?_) rfl
        rfl rfl rfl ⟨rfl, by rw [hpc]; rfl⟩ (by rw [hpc]; rfl) (by rw [hpc]; rfl)⟩
      · rintro (hpc | hpc | hrest)
        · cases hpc
        · cases hpc
        · cases hrest
      · rw [hpc]
        cases hp : p tsk <;> simp [Pc.handed, Pc.hand, hp]
  · rw [hqueue] at hshape
    cases hshape

/-- A thread puts `NULL` back. -/
theorem Accounted.push (laws : QueueLaws ops) (h : Accounted ops tasks rest w)
    (hpc : w.pc t = .pushing) :
    Accounted ops tasks rest { w.goto t .ended with queue := ops.push w.queue none } := by
  have hrest : rest = [] := h.drained t (Or.inl hpc)
  have hpos : 1 ≤ ∑ u, (w.pc u).sentinel := by
    have hle := Finset.single_le_sum (f := fun u => (w.pc u).sentinel)
      (fun _ _ => Nat.zero_le _) (Finset.mem_univ t)
    rw [hpc] at hle
    exact hle
  rcases h.queue with ⟨hshape, hzero⟩ | ⟨hshape, -, hone⟩
  · omega
  · refine h.atQueue rfl (Or.inl ⟨?_, by rw [hone, hpc]; rfl⟩) (fun _ => hrest)
      (fun p => by rw [hpc]; rfl) rfl rfl rfl rfl ⟨rfl, by rw [hpc]; rfl⟩ (by rw [hpc]; rfl)
      (by rw [hpc]; rfl)
    dsimp only
    rw [laws.elements_push, hshape, hrest]
    rfl

/-! ## Steps at the results and the counters -/

/-- A thread prints a result. -/
theorem Accounted.print {r : Result} (h : Accounted ops tasks rest w)
    (hpc : w.pc t = .solving tsk x) (hsucc : x.succ = false) (htsk : r.tsk = tsk) (hhand : pc.hand = some tsk)
    (hreported : pc.reported = true) (hrecovered : pc.owesRecovered = (found r).toNat)
    (hfailed : pc.owesFailed = (missed r).toNat) (hnew : pc ≠ .pushing) (hended : pc ≠ .ended) :
    Accounted ops tasks rest { w.goto t pc with results := w.results ++ [r] } := by
  have hold : ∀ p, (w.pc t).handed p = (p tsk).toNat := fun p => by rw [hpc]; rfl
  have hhanded : ∀ p, pc.handed p = (p tsk).toNat := fun p => by rw [Pc.handed, hhand]
  refine h.move rfl rfl (by simp [hpc]) hnew hended ?_ ?_ ?_ ?_
  · intro p
    rw [hhanded, hold]
    rfl
  · intro p
    -- the thread has its task in hand, and has not reported it before
    have hprinted : (w.pc t).printed p = 0 := by
      rw [Pc.printed, hpc, Pc.reported, hsucc]
      rfl
    rw [hprinted, Pc.printed, hreported, if_pos rfl, hhanded]
    dsimp only [World.goto]
    rw [countTasks_snoc, htsk]
    omega
  · intro k hk
    refine ⟨k, hk, ?_⟩
    -- a result with a password is one that the thread has still to count
    have hzero : (w.pc t).owesRecovered = 0 := by rw [hpc]; rfl
    rw [hrecovered, hzero]
    dsimp only
    rw [countP_snoc]
    omega
  · intro k hk
    refine ⟨k, hk, ?_⟩
    have hzero : (w.pc t).owesFailed = 0 := by rw [hpc]; rfl
    rw [hfailed, hzero]
    dsimp only
    rw [countP_snoc]
    omega

/-- A thread that has found the password counts it, and goes on with the inner loop. -/
theorem Accounted.countRecovered (h : Accounted ops tasks rest w) (hpc : w.pc t = .recovered tsk x)
    (hsucc : (turn crypt tsk.hashedPwd tsk.knownPwd x).succ = true) :
    Accounted ops tasks rest
      { w.goto t (.solving tsk (turn crypt tsk.hashedPwd tsk.knownPwd x)) with
        numRecoveredMtx := none
        numRecovered := int (w.numRecovered + 1) } := by
  refine h.move rfl rfl (by simp [hpc]) (by simp) (by simp) ?_ ?_ ?_ ?_
  · intro p
    rw [hpc]
    rfl
  · intro p
    rw [hpc, Pc.printed, Pc.printed, Pc.reported, hsucc]
    rfl
  · intro k hk
    refine ⟨k + 1, int_succ hk, ?_⟩
    rw [hpc]
    dsimp only [Pc.owesRecovered, World.goto]
  · exact fun k hk => ⟨k, hk, by rw [hpc]; rfl⟩

/-- A thread that has found no password counts that. -/
theorem Accounted.countFailed (h : Accounted ops tasks rest w) (hpc : w.pc t = .failed tsk) :
    Accounted ops tasks rest
      { w.goto t (.finishing tsk) with
        numFailedMtx := none
        numFailed := int (w.numFailed + 1) } := by
  refine h.move rfl rfl (by simp [hpc]) (by simp) (by simp) ?_ ?_ ?_ ?_
  · intro p
    rw [hpc]
    rfl
  · intro p
    rw [hpc]
    rfl
  · exact fun k hk => ⟨k, hk, by rw [hpc]; rfl⟩
  · intro k hk
    refine ⟨k + 1, int_succ hk, ?_⟩
    rw [hpc]
    dsimp only [Pc.owesFailed, World.goto]

/-- A thread destroys its task. -/
theorem Accounted.destroy (h : Accounted ops tasks rest w) (hpc : w.pc t = .finishing tsk) :
    Accounted ops tasks rest { w.goto t .pulling with destroyed := w.destroyed ++ [tsk] } := by
  have hold : ∀ p, (w.pc t).handed p = (p tsk).toNat := fun p => by rw [hpc]; rfl
  refine h.move rfl rfl (by simp [hpc]) (by simp) (by simp) ?_ ?_ ?_ ?_
  · intro p
    rw [hold]
    dsimp only
    rw [countP_snoc]
    change 0 + _ = _
    omega
  · intro p
    have hprinted : (w.pc t).printed p = (p tsk).toNat := by rw [hpc]; rfl
    rw [hprinted]
    dsimp only [World.goto]
    rw [countP_snoc]
    change _ = _ + 0
    omega
  · exact fun k hk => ⟨k, hk, by rw [hpc]; rfl⟩
  · exact fun k hk => ⟨k, hk, by rw [hpc]; rfl⟩

end Moves

/-! ## Every step -/

section Invariant

variable {tasks : List TaskT} {w w' : World Q n} {t : Fin n} {pc : Pc}

theorem fine_update (h : ∀ u, Fine crypt (w.pc u)) (hpc : Fine crypt pc) (u : Fin n) :
    Fine crypt (Function.update w.pc t pc u) := by
  by_cases hu : u = t
  · rw [hu, Function.update_self]
    exact hpc
  · rw [Function.update_of_ne hu]
    exact h u

/-- Threads that run go on without the main thread. -/
theorem MainFine.update (h : MainFine w) (hmain : w'.main = w.main)
    (hpc : w'.pc = Function.update w.pc t pc) (hold : w.pc t ≠ .unborn ∧ w.pc t ≠ .ended)
    (hnew : pc ≠ .unborn) : MainFine w' := by
  rw [MainFine, hmain, hpc]
  rw [MainFine] at h
  cases hm : w.main with
  | creating i =>
    simp only [hm] at h ⊢
    refine ⟨h.1, fun u => ?_⟩
    by_cases hu : u = t
    · rw [hu, Function.update_self]
      exact iff_of_false hnew fun hi => hold.1 ((h.2 t).mpr hi)
    · rw [Function.update_of_ne hu]
      exact h.2 u
  | joining j =>
    simp only [hm] at h ⊢
    refine ⟨h.1, fun u => ?_⟩
    by_cases hu : u = t
    · rw [hu, Function.update_self]
      exact ⟨hnew, fun hj => absurd ((h.2 t).2 hj) hold.2⟩
    · rw [Function.update_of_ne hu]
      exact h.2 u
  | returned r f =>
    simp only [hm] at h
    exact absurd (h.1 t) hold.2

/-- A thread moves, with what it alone is responsible for. -/
theorem Inv.set {rest : List TaskT} (hi : Inv ops crypt tasks w)
    (hacc : Accounted ops tasks rest w') (hpc : w'.pc = Function.update w.pc t pc) (hmain : w'.main = w.main)
    (hold : w.pc t ≠ .unborn ∧ w.pc t ≠ .ended) (hnew : pc ≠ .unborn) (hfine : Fine crypt pc)
    (hsolves : ∀ r ∈ w'.results, Solves crypt r)
    (hrecovered : HeldBy w'.numRecoveredMtx Pc.HoldsRecovered (Function.update w.pc t pc))
    (hfailed : HeldBy w'.numFailedMtx Pc.HoldsFailed (Function.update w.pc t pc)) :
    Inv ops crypt tasks w' where
  accounted := ⟨rest, hacc⟩
  fine := hpc ▸ fine_update hi.fine hfine
  solves := hsolves
  recoveredMtx := hpc ▸ hrecovered
  failedMtx := hpc ▸ hfailed
  main := hi.main.update hmain hpc hold hnew

/-- A result is printed. -/
theorem Inv.solves_snoc {r : Result} (hi : Inv ops crypt tasks w) (hr : Solves crypt r) :
    ∀ r' ∈ w.results ++ [r], Solves crypt r' := by
  intro r' hr'
  rcases List.mem_append.mp hr' with hr' | hr'
  · exact hi.solves r' hr'
  · rw [List.mem_singleton.mp hr']
    exact hr

theorem Inv.pull (laws : QueueLaws ops) (hi : Inv ops crypt tasks w) (hpc : w.pc t = .pulling)
    (hs : w.pull ops t = some w') : Inv ops crypt tasks w' := by
  obtain ⟨rest, hacc⟩ := hi.accounted
  have hruns : w.pc t ≠ .unborn ∧ w.pc t ≠ .ended := by simp [hpc]
  have hfree : ¬ (w.pc t).HoldsRecovered ∧ ¬ (w.pc t).HoldsFailed := by
    rw [hpc]
    exact ⟨id, id⟩
  rw [World.pull] at hs
  cases hpull : ops.pull w.queue with
  | none => simp [hpull] at hs
  | some pulled =>
    obtain ⟨head, queue⟩ := pulled
    have hqueue := laws.elements_pull _ _ _ hpull
    -- `NULL` ends the thread, and anything else is the task that it takes on
    cases head with
    | none =>
      simp only [hpull] at hs
      obtain rfl := Option.some.inj hs
      exact hi.set (hacc.pullNull hpc hqueue) rfl rfl hruns (by simp) trivial hi.solves
        (hi.recoveredMtx.move hfree.1 id) (hi.failedMtx.move hfree.2 id)
    | some tsk =>
      simp only [hpull] at hs
      obtain rfl := Option.some.inj hs
      obtain ⟨rest', hacc'⟩ := hacc.pullTask hpc hqueue
      have hstart : Fine crypt (.solving tsk (Task.start tsk.knownPwd)) :=
        ⟨turns_start tsk, fun hsucc => by cases hsucc⟩
      exact hi.set hacc' rfl rfl hruns (by simp) hstart hi.solves
        (hi.recoveredMtx.move hfree.1 id) (hi.failedMtx.move hfree.2 id)

theorem Inv.solve {tsk : TaskT} {x : Task} (hi : Inv ops crypt tasks w)
    (hpc : w.pc t = .solving tsk x) : Inv ops crypt tasks (w.solve crypt t tsk x) := by
  obtain ⟨rest, hacc⟩ := hi.accounted
  have hruns : w.pc t ≠ .unborn ∧ w.pc t ≠ .ended := by simp [hpc]
  have hfree : ¬ (w.pc t).HoldsRecovered ∧ ¬ (w.pc t).HoldsFailed := by
    rw [hpc]
    exact ⟨id, id⟩
  have hfine := hi.fine t
  rw [hpc] at hfine
  obtain ⟨hturns, hsuccDone⟩ := hfine
  rw [World.solve]
  split_ifs with hdone hsucc hfound
  -- the task is through, with a success that was reported before
  · have hacc' : Accounted ops tasks rest (w.goto t (.finishing tsk)) := by
      refine hacc.quiet rfl rfl rfl rfl rfl rfl (by simp [hpc]) (by simp) (by simp) ?_ ?_ ?_ ?_
      all_goals rw [hpc]
      case refine_2 => exact hsucc.symm
      all_goals rfl
    exact hi.set hacc' rfl rfl hruns (by simp) trivial hi.solves
      (hi.recoveredMtx.move hfree.1 id) (hi.failedMtx.move hfree.2 id)
  -- the task is through without a success: it is reported now
  · have hsucc : x.succ = false := Bool.eq_false_iff.mpr hsucc
    have hacc' : Accounted ops tasks rest { w.goto t (.failing tsk) with
        results := w.results ++ [⟨tsk, none, int x.hashed.length⟩] } :=
      hacc.print hpc hsucc rfl rfl rfl rfl rfl (by simp) (by simp)
    exact hi.set hacc' rfl rfl hruns (by simp) trivial
      (hi.solves_snoc (hturns.solves_missed hdone hsucc))
      (hi.recoveredMtx.move hfree.1 id) (hi.failedMtx.move hfree.2 id)
  -- the hash of this candidate is the one: it is reported, and not yet counted
  · have hdone : x.done = false := Bool.eq_false_iff.mpr hdone
    have hsucc : x.succ = false := Bool.eq_false_iff.mpr fun h => by simp [hsuccDone h] at hdone
    have hacc' : Accounted ops tasks rest { w.goto t (.recovering tsk x) with
        results := w.results ++ [⟨tsk, some x.pwd, int (x.hashed.length + 1)⟩] } :=
      hacc.print hpc hsucc rfl rfl rfl rfl rfl (by simp) (by simp)
    exact hi.set hacc' rfl rfl hruns (by simp) ⟨hturns, hdone, hfound⟩
      (hi.solves_snoc (hturns.solves_found hdone hfound))
      (hi.recoveredMtx.move hfree.1 id) (hi.failedMtx.move hfree.2 id)
  -- any other candidate
  · have hdone : x.done = false := Bool.eq_false_iff.mpr hdone
    have hsucc : x.succ = false := Bool.eq_false_iff.mpr fun h => by simp [hsuccDone h] at hdone
    have hnext : (turn crypt tsk.hashedPwd tsk.knownPwd x).succ = false := by
      simp [turn, hsucc, hfound]
    have hacc' : Accounted ops tasks rest
        (w.goto t (.solving tsk (turn crypt tsk.hashedPwd tsk.knownPwd x))) := by
      refine hacc.quiet rfl rfl rfl rfl rfl rfl (by simp [hpc]) (by simp) (by simp) ?_ ?_ ?_ ?_
      all_goals rw [hpc]
      case refine_2 => exact hnext.trans hsucc.symm
      all_goals rfl
    exact hi.set hacc' rfl rfl hruns (by simp)
      ⟨hturns.turn hdone, fun h => by simp [hnext] at h⟩ hi.solves
      (hi.recoveredMtx.move hfree.1 id) (hi.failedMtx.move hfree.2 id)

/-- **A thread takes a step.** -/
theorem inv_work (laws : QueueLaws ops) (hi : Inv ops crypt tasks w)
    (hs : work ops crypt w t = some w') : Inv ops crypt tasks w' := by
  obtain ⟨rest, hacc⟩ := hi.accounted
  have hfine := hi.fine t
  rw [work] at hs
  cases hpc : w.pc t with
  | unborn => simp [hpc] at hs
  | pulling =>
    simp only [hpc] at hs
    exact hi.pull laws hpc hs
  | solving tsk x =>
    simp only [hpc] at hs
    obtain rfl := Option.some.inj hs
    exact hi.solve hpc
  | recovering tsk x =>
    simp only [hpc] at hs hfine
    split_ifs at hs with hm
    obtain rfl := Option.some.inj hs
    refine hi.set
      (hacc.quiet rfl rfl rfl rfl rfl rfl (by simp [hpc]) (by simp) (by simp) ?_ ?_ ?_ ?_)
      rfl rfl (by simp [hpc]) (by simp) hfine hi.solves
      (hi.recoveredMtx.acquire (by simpa using hm) trivial)
      (hi.failedMtx.move (by rw [hpc]; exact id) id)
    all_goals rw [hpc]; rfl
  | recovered tsk x =>
    simp only [hpc] at hs hfine
    obtain rfl := Option.some.inj hs
    -- the turn ends only here, behind the unlock
    obtain ⟨hturns, hdone, hfound⟩ := hfine
    obtain ⟨hdone', hsucc, -⟩ := turn_of_found hfound
    exact hi.set (hacc.countRecovered hpc hsucc) rfl rfl (by simp [hpc]) (by simp)
      ⟨hturns.turn hdone, fun _ => hdone'⟩ hi.solves
      (hi.recoveredMtx.release (by rw [hpc]; trivial) id)
      (hi.failedMtx.move (by rw [hpc]; exact id) id)
  | failing tsk =>
    simp only [hpc] at hs
    split_ifs at hs with hm
    obtain rfl := Option.some.inj hs
    refine hi.set
      (hacc.quiet rfl rfl rfl rfl rfl rfl (by simp [hpc]) (by simp) (by simp) ?_ ?_ ?_ ?_)
      rfl rfl (by simp [hpc]) (by simp) trivial hi.solves
      (hi.recoveredMtx.move (by rw [hpc]; exact id) id)
      (hi.failedMtx.acquire (by simpa using hm) trivial)
    all_goals rw [hpc]; rfl
  | failed tsk =>
    simp only [hpc] at hs
    obtain rfl := Option.some.inj hs
    exact hi.set (hacc.countFailed hpc) rfl rfl (by simp [hpc]) (by simp) trivial hi.solves
      (hi.recoveredMtx.move (by rw [hpc]; exact id) id)
      (hi.failedMtx.release (by rw [hpc]; trivial) id)
  | finishing tsk =>
    simp only [hpc] at hs
    obtain rfl := Option.some.inj hs
    exact hi.set (hacc.destroy hpc) rfl rfl (by simp [hpc]) (by simp) trivial hi.solves
      (hi.recoveredMtx.move (by rw [hpc]; exact id) id)
      (hi.failedMtx.move (by rw [hpc]; exact id) id)
  | pushing =>
    simp only [hpc] at hs
    obtain rfl := Option.some.inj hs
    exact hi.set (hacc.push laws hpc) rfl rfl (by simp [hpc]) (by simp) trivial hi.solves
      (hi.recoveredMtx.move (by rw [hpc]; exact id) id)
      (hi.failedMtx.move (by rw [hpc]; exact id) id)
  | ended => simp [hpc] at hs

/-- The main thread creates a thread. -/
theorem Inv.create (hi : Inv ops crypt tasks w) {i : Nat} (hmain : w.main = .creating i)
    (hlt : i < n) :
    Inv ops crypt tasks
      { w.goto ⟨i, hlt⟩ .pulling with
        main := if i + 1 = n then .joining 0 else .creating (i + 1) } := by
  obtain ⟨rest, hacc⟩ := hi.accounted
  have hfine := hi.main
  rw [MainFine, hmain] at hfine
  have hpc : w.pc ⟨i, hlt⟩ = .unborn := (hfine.2 ⟨i, hlt⟩).mpr (le_refl _)
  -- the threads from `i + 1` on are still to be created
  have hborn : ∀ u : Fin n, Function.update w.pc ⟨i, hlt⟩ .pulling u = .unborn ↔ i + 1 ≤ u := by
    intro u
    by_cases hu : u = ⟨i, hlt⟩
    · rw [hu, Function.update_self]
      exact iff_of_false (by simp) (by simp)
    · have hne : (u : Nat) ≠ i := fun h => hu (Fin.ext h)
      rw [Function.update_of_ne hu, hfine.2 u]
      omega
  have hgoto : Function.update w.pc ⟨i, hlt⟩ (.pulling : Pc) = Function.update w.pc _ _ := rfl
  refine ⟨⟨rest, hacc.quiet hgoto rfl rfl rfl rfl rfl (by simp [hpc])
    (by simp) (by simp) ?_ ?_ ?_ ?_⟩, fine_update hi.fine trivial, hi.solves,
    hi.recoveredMtx.move (by rw [hpc]; exact id) id,
    hi.failedMtx.move (by rw [hpc]; exact id) id, ?_⟩
  case refine_5 =>
    rw [MainFine]
    by_cases hlast : i + 1 = n
    · simp only [if_pos hlast]
      refine ⟨Nat.zero_le _, fun u => ?_⟩
      have hu := u.isLt
      exact ⟨fun h => absurd ((hborn u).mp h) (by omega), fun h => absurd h (Nat.not_lt_zero _)⟩
    · simp only [if_neg hlast]
      exact ⟨by omega, hborn⟩
  all_goals rw [hpc]; rfl

/-- The main thread moves on. -/
theorem Inv.setMain (hi : Inv ops crypt tasks w) {main : MainPc}
    (hmain : MainFine { w with main := main }) : Inv ops crypt tasks { w with main := main } := by
  obtain ⟨rest, hacc⟩ := hi.accounted
  exact ⟨⟨rest, hacc.queue, hacc.drained, hacc.tasks, hacc.results, hacc.recovered, hacc.failed⟩,
    hi.fine, hi.solves, hi.recoveredMtx, hi.failedMtx, hmain⟩

theorem inv_main (hi : Inv ops crypt tasks w) (hs : mainWork w = some w') :
    Inv ops crypt tasks w' := by
  have hfine := hi.main
  rw [mainWork] at hs
  rw [MainFine] at hfine
  cases hmain : w.main with
  | creating i =>
    simp only [hmain] at hs hfine
    rw [dif_pos hfine.1] at hs
    obtain rfl := Option.some.inj hs
    exact hi.create hmain hfine.1
  | joining j =>
    simp only [hmain] at hs hfine
    split_ifs at hs with hlt
    · cases hpc : w.pc ⟨j, hlt⟩ <;> simp only [hpc, reduceCtorEq] at hs
      obtain rfl := Option.some.inj hs
      refine hi.setMain ⟨hlt, fun u => ⟨(hfine.2 u).1, fun hu => ?_⟩⟩
      -- those joined before, and the one joined now
      rcases Nat.lt_succ_iff_lt_or_eq.mp hu with hu | hu
      · exact (hfine.2 u).2 hu
      · have heq : u = ⟨j, hlt⟩ := Fin.ext hu
        rw [heq]
        exact hpc
    · obtain rfl := Option.some.inj hs
      refine hi.setMain ⟨fun u => (hfine.2 u).2 ?_, rfl, rfl⟩
      have hu := u.isLt
      omega
  | returned r f => simp [hmain] at hs

/-- **Every step keeps the invariant.** -/
theorem inv_step {e : Event n} (laws : QueueLaws ops) (hi : Inv ops crypt tasks w)
    (hs : step ops crypt w e = some w') : Inv ops crypt tasks w' := by
  cases e with
  | main => exact inv_main hi hs
  | work t => exact inv_work laws hi hs

theorem inv_reachable (laws : QueueLaws ops) (hn : 0 < n)
    (h : Reachable (step ops crypt) (World.start ops n tasks) w) : Inv ops crypt tasks w :=
  h.invariant (inv_start laws hn) fun _ _ _ hi hs => inv_step laws hi hs

/-! ## Nobody gets stuck -/

/-- A thread that runs can go on, or waits for one that can. -/
theorem exists_work (laws : QueueLaws ops) (hi : Inv ops crypt tasks w)
    (hruns : w.pc t ≠ .unborn ∧ w.pc t ≠ .ended) :
    ∃ u, (work ops crypt w u).isSome = true := by
  cases hpc : w.pc t with
  | unborn => exact absurd hpc hruns.1
  | ended => exact absurd hpc hruns.2
  | pulling =>
    obtain ⟨rest, hacc⟩ := hi.accounted
    rcases hacc.queue with ⟨hqueue, -⟩ | ⟨-, -, hone⟩
    · refine ⟨t, ?_⟩
      rw [work, hpc]
      dsimp only
      rw [World.pull]
      cases hpull : ops.pull w.queue with
      | none => simp [(laws.pull_eq_none _).mp hpull] at hqueue
      | some pulled =>
        obtain ⟨head, queue⟩ := pulled
        cases head <;> rfl
    · -- the one with the `NULL`
      obtain ⟨u, -, hu⟩ := Finset.exists_ne_zero_of_sum_ne_zero (hone.trans_ne Nat.one_ne_zero)
      refine ⟨u, ?_⟩
      cases hpu : w.pc u <;> simp only [hpu, Pc.sentinel, ne_eq, not_true_eq_false] at hu
      simp [work, hpu]
  | recovering tsk x =>
    cases hm : w.numRecoveredMtx with
    | none => exact ⟨t, by simp [work, hpc, hm]⟩
    | some u =>
      have hheld := (hi.recoveredMtx u).mpr hm
      refine ⟨u, ?_⟩
      cases hpu : w.pc u <;> simp only [hpu, Pc.HoldsRecovered] at hheld
      simp [work, hpu]
  | failing tsk =>
    cases hm : w.numFailedMtx with
    | none => exact ⟨t, by simp [work, hpc, hm]⟩
    | some u =>
      have hheld := (hi.failedMtx u).mpr hm
      refine ⟨u, ?_⟩
      cases hpu : w.pc u <;> simp only [hpu, Pc.HoldsFailed] at hheld
      simp [work, hpu]
  | solving tsk x => exact ⟨t, by simp [work, hpc]⟩
  | recovered tsk x => exact ⟨t, by simp [work, hpc]⟩
  | failed tsk => exact ⟨t, by simp [work, hpc]⟩
  | finishing tsk => exact ⟨t, by simp [work, hpc]⟩
  | pushing => exact ⟨t, by simp [work, hpc]⟩

/-- **As long as the summary is not printed, some thread can take a step.** -/
theorem exists_step (laws : QueueLaws ops) (hi : Inv ops crypt tasks w)
    (hmain : ∀ r f, w.main ≠ .returned r f) :
    ∃ e, (step ops crypt w e).isSome = true := by
  have hfine := hi.main
  rw [MainFine] at hfine
  cases hm : w.main with
  | creating i =>
    simp only [hm] at hfine
    exact ⟨.main, by simp [step, mainWork, hm, hfine.1]⟩
  | joining j =>
    simp only [hm] at hfine
    by_cases hlt : j < n
    · by_cases hended : w.pc ⟨j, hlt⟩ = .ended
      · exact ⟨.main, by simp [step, mainWork, hm, hlt, hended]⟩
      · obtain ⟨u, hu⟩ := exists_work laws hi ⟨(hfine.2 ⟨j, hlt⟩).1, hended⟩
        exact ⟨.work u, hu⟩
    · exact ⟨.main, by simp [step, mainWork, hm, hlt]⟩
  | returned r f => exact absurd hm (hmain r f)

end Invariant

end SystemProgramming.Cracker.Pool
