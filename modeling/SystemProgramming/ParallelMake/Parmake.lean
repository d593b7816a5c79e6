import SystemProgramming.Foundation.Containers
import SystemProgramming.Foundation.Run

/-!
# The workers of `parallel_make/parmake.c`

`parmake` lists the rules that its goals need, dependencies first, and starts workers that
share the list. A worker scans the list under `rules_lock` until it finds a rule it can deal
with, takes it off the list, runs its commands without a lock, and records the outcome under
`g_lock`. When no rule is ready it waits on `rule_cv`, under `rules_lock`, for a broadcast
that is sent under `g_lock`.

A step of the model is what one worker does between two points where another worker could
see or change what it works on: taking a lock, reading the state of one dependency, running
one command, writing one state, waking the waiters. What `access`, `stat` and `system` answer
is part of the event, so it may change at any time. The graph is fixed once the workers run,
except for the states of its rules. The graph and set libraries are parameters.

Modification times are integers of any size, whose difference goes into an `int` as on x86-64,
and no rule has more commands or dependencies than `size_t` counts.

## Main definitions

* `getRulesInOrder`: the rules in the order of the list
* `State`, `StatCode`, `Pc`: the codes of a rule, of `run_status`, and where a worker is
* `diff`: what `run_status` makes of two modification times
* `Shop`, `Event`, `step`: the shared state and the steps of the workers
-/

namespace SystemProgramming.ParallelMake

section Order

variable {G S K : Type} (graph : GraphOps G K) (set : SetOps S K) (g : G)

/-- `get_rules`, with a bound on the depth of the recursion: `cnt` and `rules`. -/
def getRules : Nat → S × List K → List K → Option (S × List K)
  | 0, _, _ => none
  | fuel + 1, acc, targets =>
    targets.foldlM (fun acc target => do
      let (cnt, rules) ← getRules fuel acc (graph.neighbors g target)
      if set.contains cnt target then some (cnt, rules)
      else some (set.add cnt target, rules ++ [target])) acc

/-- `get_rules_in_order`, with an empty list of rules to begin with. -/
def getRulesInOrder (targets : List K) : Option (List K) :=
  (getRules graph set g ((graph.vertices g).length + 1) (set.create, []) targets).map Prod.snd

end Order

/-- `state` of a rule: `DEFAULT`, `VALID` and `INVALID`. -/
inductive State where
  | default
  | valid
  | invalid
  deriving DecidableEq

/-- What `run_status` returns. -/
inductive StatCode where
  | err
  | notFinished
  | runImm
  | satNoRun
  | alreadyDone
  deriving DecidableEq

/-- The state of a dependency as the result of `run_status`: `-1`, `0` and `1`. -/
def State.code : State → StatCode
  | .default => .notFinished
  | .valid => .runImm
  | .invalid => .err

/-- Where a worker is in `solve`. `i` and `n` are the index and the bound of the scan. -/
inductive Pc (K C : Type) where
  /-- At the head of the loop. -/
  | top
  /-- Before `run_status`. Here and up to `decided` the worker holds `rules_lock`. -/
  | scan (i n : Nat)
  /-- In the loop of `run_status` over a target that is a file. -/
  | files (i n : Nat) (target : K) (dependencies : List K)
  /-- Before `g_lock` in `run_status`. -/
  | wantDeps (i n : Nat) (target : K) (dependencies : List K)
  /-- In the loop of `run_status` over the states of dependencies, with `g_lock`. -/
  | readDeps (i n : Nat) (target : K) (dependencies : List K)
  /-- After `run_status`. -/
  | decided (i n : Nat) (target : K) (code : StatCode)
  /-- In the loop over the commands. -/
  | running (target : K) (commands : List C)
  /-- Before `g_lock`, with an outcome. -/
  | marking (target : K) (st : State)
  /-- With `g_lock`, before the outcome is written. -/
  | writing (target : K) (st : State)
  /-- With `g_lock`, before the broadcast. -/
  | signalling
  /-- In `pthread_cond_wait`, before and after the broadcast. -/
  | waiting
  | woken
  | exited
  deriving DecidableEq

/-- What the workers share, where each of them is, and the calls of `system` so far. -/
structure Shop (W K C : Type) where
  state : K → State
  rules : List K
  rulesLock : Option W
  gLock : Option W
  pc : W → Pc K C
  log : List (K × C)

/-- What the operating system answers in a step. -/
structure Answers (K C : Type) where
  /-- Is there a file with this name? -/
  access : K → Bool
  /-- Its modification time, unless `stat` fails. -/
  mtime : K → Option Int
  /-- Does the command return `0`? -/
  system : C → Bool

/-- A worker takes a step, or wakes up on its own. -/
inductive Event (W K C : Type) where
  | work (w : W) (answers : Answers K C)
  | spurious (w : W)

section Workers

variable {W G K C : Type} [DecidableEq W] [DecidableEq K]
  (graph : GraphOps G K) (g : G) (commands : K → List C)

/-- The start of `run_status`, up to its loops. -/
def runStatus (s : Shop W K C) (a : Answers K C) (i n : Nat) (target : K) : Pc K C :=
  if s.state target ≠ .default then .decided i n target .alreadyDone
  else
    match graph.neighbors g target with
    | [] => .decided i n target (if a.access target then .satNoRun else .runImm)
    | d :: ds => if a.access target then .files i n target (d :: ds) else .wantDeps i n target (d :: ds)

/-- `diff`, the result of `difftime` as an `int`. A difference that is no `int` is converted to
the least one, whatever its sign. -/
def diff (t₁ t₂ : Int) : Int :=
  if -2 ^ 31 ≤ t₁ - t₂ ∧ t₁ - t₂ < 2 ^ 31 then t₁ - t₂ else -2 ^ 31

/-- One round of the loop over a target that is a file, or its end. -/
def fileRound (a : Answers K C) (i n : Nat) (target : K) : List K → Pc K C
  | [] => .decided i n target .satNoRun
  | d :: ds =>
    if a.access d then
      match a.mtime target, a.mtime d with
      | some t₁, some t₂ =>
        if diff t₁ t₂ < 0 then .decided i n target .runImm else .files i n target ds
      | _, _ => .decided i n target .err
    else .decided i n target .runImm

/-- What a worker does with the result of `run_status`. -/
def act (s : Shop W K C) (w : W) (i n : Nat) (target : K) : StatCode → Shop W K C
  | .runImm =>
    { s with rules := s.rules.eraseIdx i, rulesLock := none,
             pc := Function.update s.pc w (.running target (commands target)) }
  | .satNoRun =>
    { s with rules := s.rules.eraseIdx i, rulesLock := none,
             pc := Function.update s.pc w (.marking target .valid) }
  | .err =>
    { s with rules := s.rules.eraseIdx i, rulesLock := none,
             pc := Function.update s.pc w (.marking target .invalid) }
  | .alreadyDone =>
    { s with rules := s.rules.eraseIdx i, rulesLock := none, pc := Function.update s.pc w .top }
  | .notFinished =>
    if i + 1 = n then { s with rulesLock := none, pc := Function.update s.pc w .waiting }
    else { s with pc := Function.update s.pc w (.scan (i + 1) n) }

/-- `pthread_cond_broadcast`. -/
def wake : Pc K C → Pc K C
  | .waiting => .woken
  | pc => pc

/-- One step of a worker. `none` is a worker that is blocked or has exited. -/
def work (s : Shop W K C) (w : W) (a : Answers K C) : Option (Shop W K C) :=
  match s.pc w with
  | .top =>
    if s.rulesLock.isSome then none
    else if s.rules = [] then some { s with pc := Function.update s.pc w .exited }
    else some { s with rulesLock := some w, pc := Function.update s.pc w (.scan 0 s.rules.length) }
  | .scan i n => do
    let target ← s.rules[i]?
    some { s with pc := Function.update s.pc w (runStatus graph g s a i n target) }
  | .files i n target ds => some { s with pc := Function.update s.pc w (fileRound a i n target ds) }
  | .wantDeps i n target ds =>
    if s.gLock.isSome then none
    else some { s with gLock := some w, pc := Function.update s.pc w (.readDeps i n target ds) }
  | .readDeps i n target [] =>
    some { s with gLock := none, pc := Function.update s.pc w (.decided i n target .runImm) }
  | .readDeps i n target (d :: ds) =>
    if s.state d ≠ .valid then
      some { s with gLock := none
                    pc := Function.update s.pc w (.decided i n target (s.state d).code) }
    else some { s with pc := Function.update s.pc w (.readDeps i n target ds) }
  | .decided i n target code => some (act commands s w i n target code)
  | .running target [] => some { s with pc := Function.update s.pc w (.marking target .valid) }
  | .running target (c :: cs) =>
    let pc := if a.system c then .running target cs else .marking target .invalid
    some { s with log := s.log ++ [(target, c)], pc := Function.update s.pc w pc }
  | .marking target st =>
    if s.gLock.isSome then none
    else some { s with gLock := some w, pc := Function.update s.pc w (.writing target st) }
  | .writing target st =>
    some { s with state := Function.update s.state target st
                  pc := Function.update s.pc w .signalling }
  | .signalling =>
    some { s with gLock := none, pc := Function.update (fun w => wake (s.pc w)) w .top }
  | .waiting => none
  | .woken => if s.rulesLock.isSome then none else some { s with pc := Function.update s.pc w .top }
  | .exited => none

/-- One event. -/
def step (s : Shop W K C) : Event W K C → Option (Shop W K C)
  | .work w a => work graph g commands s w a
  | .spurious w =>
    match s.pc w with
    | .waiting => some { s with pc := Function.update s.pc w .woken }
    | _ => none

/-- All workers are about to start on the list `rules`. -/
def Shop.start (rules : List K) : Shop W K C :=
  ⟨fun _ => .default, rules, none, none, fun _ => .top, []⟩

end Workers

end SystemProgramming.ParallelMake
