import SystemProgramming.Foundation.Run

/-!
# The barrier of `critical_concurrency/barrier.c`

`barrier_wait` has two gates on one condition variable. A thread waits at the first gate while
the barrier is open, that is, until the threads of the round before have left. Then it is
counted. The thread that completes the count opens the barrier and leaves; the others wait at the
second gate until the barrier is open, and the last of them closes it again.

A step of the model is what a thread does with `mtx` between two points where it takes the mutex
or gives it up, so threads are free to interleave at every `pthread_mutex_lock`,
`pthread_cond_wait` and `pthread_mutex_unlock`. A thread may wake up on its own. `count` is an
integer, so that a count below zero would show.

## Main definitions

* `Barrier`, `barrierInit`: the fields of `barrier_t`
* `Pc`: where a thread is in `barrier_wait`
* `World`, `Event`, `step`: `n` threads that call `barrier_wait` again and again
-/

namespace SystemProgramming.Concurrency

/-- `barrier_t`, without its mutex and its condition variable. -/
structure Barrier where
  nThreads : Nat
  count : Int
  /-- `0` while the barrier is open, `1` while it is closed. -/
  timesUsed : Nat
  deriving DecidableEq

/-- `barrier_init`. -/
def barrierInit (numThreads : Nat) : Barrier := ⟨numThreads, 0, 1⟩

/-- Where a thread is in `barrier_wait`. -/
inductive Pc where
  | outside
  /-- Before `pthread_mutex_lock`. -/
  | locking
  /-- At the condition of the first loop, with the mutex. -/
  | gate1
  /-- In `pthread_cond_wait` of the first loop, before and after a wakeup. -/
  | asleep1
  | woken1
  /-- At the condition of the second loop, with the mutex. -/
  | gate2
  /-- In `pthread_cond_wait` of the second loop, before and after a wakeup. -/
  | asleep2
  | woken2
  /-- Before `pthread_mutex_unlock`. -/
  | leaving
  deriving DecidableEq

/-- `pthread_cond_broadcast` or a spurious wakeup. -/
def wake : Pc → Pc
  | .asleep1 => .woken1
  | .asleep2 => .woken2
  | pc => pc

/-- `n` threads around a barrier, and how often each has called `barrier_wait` and returned. -/
structure World (n : Nat) where
  barrier : Barrier
  mtx : Option (Fin n)
  pc : Fin n → Pc
  entered : Fin n → Nat
  returned : Fin n → Nat

/-- A thread takes a step, or wakes up on its own. -/
inductive Event (n : Nat) where
  | work (t : Fin n)
  | spurious (t : Fin n)

/-- A thread at the first gate: it waits, completes the count and opens the barrier, or goes on
to the second gate. -/
def World.passGate1 {n : Nat} (s : World n) (t : Fin n) : World n :=
  if s.barrier.timesUsed = 0 then
    { s with mtx := none, pc := Function.update s.pc t .asleep1 }
  else if s.barrier.count + 1 = s.barrier.nThreads then
    { s with barrier := { s.barrier with timesUsed := 0, count := s.barrier.count + 1 - 1 }
             pc := Function.update (fun u => wake (s.pc u)) t .leaving }
  else
    { s with barrier := { s.barrier with count := s.barrier.count + 1 }
             pc := Function.update s.pc t .gate2 }

/-- A thread at the second gate: it waits, or leaves and closes the barrier if it is the last. -/
def World.passGate2 {n : Nat} (s : World n) (t : Fin n) : World n :=
  if s.barrier.count < s.barrier.nThreads ∧ s.barrier.timesUsed ≠ 0 then
    { s with mtx := none, pc := Function.update s.pc t .asleep2 }
  else
    { s with
      barrier :=
        { s.barrier with
          count := s.barrier.count - 1
          timesUsed := if s.barrier.count - 1 = 0 then 1 else s.barrier.timesUsed }
      pc := Function.update (fun u => wake (s.pc u)) t .leaving }

/-- `pthread_mutex_lock`, or the end of `pthread_cond_wait`. -/
def World.lock {n : Nat} (s : World n) (t : Fin n) (pc : Pc) : Option (World n) :=
  if s.mtx.isSome then none
  else some { s with mtx := some t, pc := Function.update s.pc t pc }

/-- One step of a thread. `none` is a thread that is blocked. -/
def work {n : Nat} (s : World n) (t : Fin n) : Option (World n) :=
  match s.pc t with
  | .outside =>
    some { s with pc := Function.update s.pc t .locking
                  entered := Function.update s.entered t (s.entered t + 1) }
  | .locking => s.lock t .gate1
  | .gate1 => some (s.passGate1 t)
  | .asleep1 => none
  | .woken1 => s.lock t .gate1
  | .gate2 => some (s.passGate2 t)
  | .asleep2 => none
  | .woken2 => s.lock t .gate2
  | .leaving =>
    some { s with mtx := none
                  pc := Function.update s.pc t .outside
                  returned := Function.update s.returned t (s.returned t + 1) }

/-- One event. -/
def step {n : Nat} (s : World n) : Event n → Option (World n)
  | .work t => work s t
  | .spurious t =>
    if s.pc t = .asleep1 ∨ s.pc t = .asleep2 then
      some { s with pc := Function.update s.pc t (wake (s.pc t)) }
    else none

/-- `n` threads that have not called `barrier_wait` yet. -/
def World.start (n : Nat) : World n :=
  ⟨barrierInit n, none, fun _ => .outside, fun _ => 0, fun _ => 0⟩

/-- All threads are inside `barrier_wait`, blocked in `pthread_cond_wait`, and nobody has been
woken. -/
def World.Stuck {n : Nat} (s : World n) : Prop :=
  ∀ t, s.pc t = .asleep1 ∨ s.pc t = .asleep2

end SystemProgramming.Concurrency
