import SystemProgramming.Foundation.Run
import SystemProgramming.Cracker.Search

/-!
# The threads of `password_cracker/cracker2.c`

The main thread reads one task after the other. Before and after each task it meets the `n`
workers at one barrier, on which all `n + 1` threads wait. A worker searches its range until it
finds the password, reads `found` after a hash and sees that another one did, or is through.

A step is what a thread does up to its next access to a variable that is shared: the accesses to
`found`, the additions to `total_hashes`, the copy to `curr_password` and the report of a result
are steps of their own. `hashes` and `total_hashes` are `int`s.

## Main definitions

* `Pc`, `Worker`: where a worker is in `solve_task`, and its variables
* `MainPc`, `World`, `Event`, `step`: `start` and `solve_task` together
-/

namespace SystemProgramming.Cracker

/-- Where a worker is in `solve_task`. -/
inductive Pc where
  /-- At the first `pthread_barrier_wait` of the loop, and right after it. -/
  | first
  | begin
  /-- At the condition of the loop over the candidates. -/
  | loop
  /-- The password is found: before `strcpy` to `curr_password`, before `found = 1`. -/
  | save
  | setFound
  /-- Before `found` is read in the loop. -/
  | checkFound
  /-- Before `v2_print_thread_result`, and before the addition to `total_hashes`. -/
  | report (result : Nat)
  | add (result : Nat)
  /-- Before `found` is read after the loop. -/
  | checkEnd
  /-- At the second `pthread_barrier_wait`. -/
  | second
  | exited
  deriving DecidableEq

/-- The variables of a worker. The last three fields follow what has happened in the task: how
many hashes it has computed, how many of them it has added, and what it has reported. -/
structure Worker where
  pc : Pc
  pwd : List UInt8
  count : Int
  c : Int
  hashes : Int
  computed : Nat
  added : Nat
  results : List (Int × Nat)
  deriving DecidableEq

/-- Where the main thread is in `start`: before `getline`, at the barrier before and after a
task, before `found` and `total_hashes` are set to zero, and at the last barrier. -/
inductive MainPc where
  | reading
  | first
  | second
  | resetFound
  | resetTotal
  | ending
  | exited
  deriving DecidableEq

/-- The main thread, `n` workers, and the variables that they share. -/
structure World (n : Nat) where
  hashedPwd : List UInt8
  knownPwd : List UInt8
  currPassword : List UInt8
  found : Bool
  totalHashes : Int
  taskDone : Bool
  main : MainPc
  worker : Fin n → Worker

/-- The main thread gets a task from `getline`, or the end of the input; all threads leave the
barrier; the main thread or a worker takes a step. -/
inductive Event (n : Nat) where
  | read (hashedPwd knownPwd : List UInt8)
  | eof
  | release
  | main
  | work (t : Fin n)

variable {n : Nat}

/-- A worker after the first barrier has computed, added and reported nothing for the task. -/
def Worker.pass (x : Worker) : Worker :=
  match x.pc with
  | .first => { x with pc := .begin, computed := 0, added := 0, results := [] }
  | .second => { x with pc := .first }
  | _ => x

/-- The main thread after the barrier. After the first one it waits at the second. -/
def MainPc.pass : MainPc → MainPc
  | .first => .second
  | .second => .resetFound
  | .ending => .exited
  | m => m

/-- All `n + 1` threads wait at the barrier. -/
def World.AllWait (w : World n) : Prop :=
  (w.main = .first ∨ w.main = .second ∨ w.main = .ending) ∧
    ∀ t, (w.worker t).pc = .first ∨ (w.worker t).pc = .second

instance (w : World n) : Decidable w.AllWait := inferInstanceAs (Decidable (_ ∧ _))

/-- Worker `t` has done something that no other thread can see. -/
def World.set (w : World n) (t : Fin n) (x : Worker) : World n :=
  { w with worker := Function.update w.worker t x }

section Steps

variable (crypt : List UInt8 → List UInt8)

/-- One step of a worker. `none` is a worker that waits, or is gone. -/
def work (w : World n) (t : Fin n) : Option (World n) :=
  let x := w.worker t
  match x.pc with
  | .first => none
  | .begin =>
    if w.taskDone then some (w.set t { x with pc := .exited })
    else
      some (w.set t
        { x with
          pc := .loop
          pwd := startPassword w.knownPwd n (t + 1)
          count := (rangeOf w.knownPwd n (t + 1)).2
          c := 0
          hashes := 0 })
  | .loop =>
    if x.c < x.count then
      some (w.set t
        { x with
          pc := if crypt x.pwd = w.hashedPwd then .save else .checkFound
          hashes := int (x.hashes + 1)
          computed := x.computed + 1 })
    else some (w.set t { x with pc := .checkEnd })
  | .save => some { w.set t { x with pc := .setFound } with currPassword := x.pwd }
  | .setFound => some { w.set t { x with pc := .report 0 } with found := true }
  | .checkFound =>
    if w.found then some (w.set t { x with pc := .report 1 })
    else some (w.set t { x with pc := .loop, pwd := (incrementString x.pwd).1, c := x.c + 1 })
  | .report r => some (w.set t { x with pc := .add r, results := x.results ++ [(x.hashes, r)] })
  | .add r =>
    some
      { w.set t
          { x with pc := if r = 2 then .second else .checkEnd, added := x.added + x.computed } with
        totalHashes := int (w.totalHashes + x.hashes) }
  | .checkEnd =>
    if w.found then some (w.set t { x with pc := .second })
    else some (w.set t { x with pc := .report 2 })
  | .second => none
  | .exited => none

/-- One event. -/
def step (w : World n) : Event n → Option (World n)
  | .read hashedPwd knownPwd =>
    if w.main = .reading then
      some { w with main := .first, hashedPwd := hashedPwd, knownPwd := knownPwd }
    else none
  | .eof => if w.main = .reading then some { w with main := .ending, taskDone := true } else none
  | .release =>
    if w.AllWait then some { w with main := w.main.pass, worker := fun t => (w.worker t).pass }
    else none
  | .main =>
    match w.main with
    | .resetFound => some { w with main := .resetTotal, found := false }
    | .resetTotal => some { w with main := .reading, totalHashes := 0 }
    | _ => none
  | .work t => work crypt w t

end Steps

/-- `n` workers that wait for the first task. -/
def World.start (n : Nat) : World n where
  hashedPwd := []
  knownPwd := []
  currPassword := []
  found := false
  totalHashes := 0
  taskDone := false
  main := .reading
  worker := fun _ => ⟨.first, [], 0, 0, 0, 0, 0, []⟩

end SystemProgramming.Cracker
