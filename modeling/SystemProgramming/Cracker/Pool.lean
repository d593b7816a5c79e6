import SystemProgramming.Foundation.Containers
import SystemProgramming.Foundation.Ctype
import SystemProgramming.Foundation.Lines
import SystemProgramming.Foundation.Run
import SystemProgramming.Cracker.SolveTask

/-!
# The threads of `password_cracker/cracker1.c`

`start` reads the tasks into a queue, puts `NULL` behind them, creates the threads, waits for all
of them and prints how many passwords were recovered. A thread takes tasks out of the queue until
it gets `NULL`, which it puts back for the others.

The queue of `includes/queue.h` is linked from an archive, so its operations are a parameter. They
act at once, and a pull waits while the queue is empty. A step is what a thread does up to its next
access to something that is shared: the queue, one of the two mutexes, or the variable behind it.
`crypt` stands for `crypt_r` with the salt of the source. Thread ids and times, which are only
printed, are left out.

## Main definitions

* `TaskT`, `parseLine`, `readTasks`: the tasks, as read from `stdin`
* `Pc`, `MainPc`, `World`: the threads of `solve_task`, the main thread in `start`, and what they
  share
* `work`, `mainWork`, `step`: a step of a thread, and of the main thread
-/

namespace SystemProgramming.Cracker.Pool

/-! ## The tasks -/

/-- `task_t`. -/
structure TaskT where
  username : List UInt8
  hashedPwd : List UInt8
  knownPwd : List UInt8
  deriving DecidableEq

/-- `parse_line` and `create_task`. `none` is a call of `strdup` with `NULL`. -/
def parseLine (lineptr : List UInt8) : Option TaskT := do
  let (username, rest) ← strtok lineptr
  let (hashedPwd, rest) ← strtok rest
  let (knownPwd, _) ← strtok rest
  some ⟨username, hashedPwd, knownPwd⟩

/-- The loop of `start` over the lines of `stdin`. -/
def readTasks (input : List UInt8) : Option (List TaskT) :=
  match h : getline input with
  | none => some []
  | some (line, rest) =>
    have : rest.length < input.length := length_getline h
    (parseLine (lineString line)).bind fun tsk => (readTasks rest).map (tsk :: ·)
termination_by input.length

/-! ## The threads -/

/-- What `v1_print_thread_result` prints: the password, if there is one, and `hashes`. -/
structure Result where
  tsk : TaskT
  password : Option (List UInt8)
  hashCount : Int
  deriving DecidableEq

/-- Where a thread is in `solve_task`. -/
inductive Pc where
  /-- Before `pthread_create`. -/
  | unborn
  /-- Before `queue_pull`. -/
  | pulling
  /-- At the condition of the inner loop. -/
  | solving (tsk : TaskT) (x : Task)
  /-- The password is found: before `numRecoveredMtx` is taken, and with it. -/
  | recovering (tsk : TaskT) (x : Task)
  | recovered (tsk : TaskT) (x : Task)
  /-- No password is found: before `numFailedMtx` is taken, and with it. -/
  | failing (tsk : TaskT)
  | failed (tsk : TaskT)
  /-- Before `task_destroy`. -/
  | finishing (tsk : TaskT)
  /-- Behind the outer loop, before `queue_push`. -/
  | pushing
  | ended

/-- Where the main thread is in `start`: about to create thread `i`, about to join thread `j`, or
behind `v1_print_summary`. -/
inductive MainPc where
  | creating (i : Nat)
  | joining (j : Nat)
  | returned (numRecovered numFailed : Int)
  deriving DecidableEq

/-- The main thread, `n` threads, and what they share. The last two fields follow what has
happened: the results that have been printed, and the tasks that have been destroyed. -/
structure World (Q : Type) (n : Nat) where
  queue : Q
  main : MainPc
  pc : Fin n → Pc
  numRecoveredMtx : Option (Fin n)
  numFailedMtx : Option (Fin n)
  numRecovered : Int
  numFailed : Int
  results : List Result
  destroyed : List TaskT

inductive Event (n : Nat) where
  | main
  | work (t : Fin n)

section Steps

variable {Q : Type} (ops : QueueOps Q (Option TaskT)) (crypt : List UInt8 → List UInt8) {n : Nat}

def World.goto (w : World Q n) (t : Fin n) (pc : Pc) : World Q n :=
  { w with pc := Function.update w.pc t pc }

/-- `queue_pull`, in the condition of the outer loop. -/
def World.pull (w : World Q n) (t : Fin n) : Option (World Q n) :=
  match ops.pull w.queue with
  | none => none
  | some (none, queue) => some { w.goto t .pushing with queue := queue }
  | some (some tsk, queue) =>
    some { w.goto t (.solving tsk (Task.start tsk.knownPwd)) with queue := queue }

/-- The inner loop at its condition, up to the next lock. -/
def World.solve (w : World Q n) (t : Fin n) (tsk : TaskT) (x : Task) : World Q n :=
  if x.done then
    if x.succ then w.goto t (.finishing tsk)
    else
      { w.goto t (.failing tsk) with
        results := w.results ++ [⟨tsk, none, int x.hashed.length⟩] }
  else if crypt x.pwd = tsk.hashedPwd then
    { w.goto t (.recovering tsk x) with
      results := w.results ++ [⟨tsk, some x.pwd, int (x.hashed.length + 1)⟩] }
  else w.goto t (.solving tsk (turn crypt tsk.hashedPwd tsk.knownPwd x))

/-- One step of a thread. `none` is a thread that is blocked, or does not run. -/
def work (w : World Q n) (t : Fin n) : Option (World Q n) :=
  match w.pc t with
  | .unborn => none
  | .pulling => w.pull ops t
  | .solving tsk x => some (w.solve crypt t tsk x)
  | .recovering tsk x =>
    if w.numRecoveredMtx.isSome then none
    else some { w.goto t (.recovered tsk x) with numRecoveredMtx := some t }
  | .recovered tsk x =>
    some { w.goto t (.solving tsk (turn crypt tsk.hashedPwd tsk.knownPwd x)) with
      numRecoveredMtx := none
      numRecovered := int (w.numRecovered + 1) }
  | .failing tsk =>
    if w.numFailedMtx.isSome then none
    else some { w.goto t (.failed tsk) with numFailedMtx := some t }
  | .failed tsk =>
    some { w.goto t (.finishing tsk) with
      numFailedMtx := none
      numFailed := int (w.numFailed + 1) }
  | .finishing tsk => some { w.goto t .pulling with destroyed := w.destroyed ++ [tsk] }
  | .pushing => some { w.goto t .ended with queue := ops.push w.queue none }
  | .ended => none

/-- One step of the main thread: `pthread_create`, `pthread_join`, or `v1_print_summary`. -/
def mainWork (w : World Q n) : Option (World Q n) :=
  match w.main with
  | .creating i =>
    if h : i < n then
      some { w.goto ⟨i, h⟩ .pulling with
        main := if i + 1 = n then .joining 0 else .creating (i + 1) }
    else some { w with main := .returned w.numRecovered w.numFailed }
  | .joining j =>
    if h : j < n then
      match w.pc ⟨j, h⟩ with
      | .ended => some { w with main := .joining (j + 1) }
      | _ => none
    else some { w with main := .returned w.numRecovered w.numFailed }
  | .returned _ _ => none

def step (w : World Q n) : Event n → Option (World Q n)
  | .main => mainWork w
  | .work t => work ops crypt w t

/-- `start`, with all tasks and the `NULL` in the queue. -/
def World.start (n : Nat) (tasks : List TaskT) : World Q n where
  queue := ops.push (tasks.foldl (fun queue tsk => ops.push queue (some tsk)) ops.create) none
  main := .creating 0
  pc := fun _ => .unborn
  numRecoveredMtx := none
  numFailedMtx := none
  numRecovered := 0
  numFailed := 0
  results := []
  destroyed := []

end Steps

end SystemProgramming.Cracker.Pool
