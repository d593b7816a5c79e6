import SystemProgramming.Scheduler.Content

/-!
# Green threads over the scheduler

`gthreads.c` runs threads on the stacks of one process. Every alarm and every `gtdoyield` asks
the scheduler who runs next, except that each other alarm suspends the running thread and switches
to the main thread, which switches back when it yields. The suspended thread then goes on where it
was, in the middle of `gtyield`.

A step is what happens between two switches. The code of the library is shorter than a quantum, so
that no alarm falls into it. Contexts, stacks and the log are left out.

## Main definitions

* `World`, `Event`, `step`: the globals of `gthreads.c` and what a thread or an alarm does to them
* `World.dispatched`: the thread that the scheduler has been asked for last, if it has not ended
* `Move`: a step as the scheduler sees it

## Main results

* `Move.of_step`: the scheduler is given back the thread it returned last, unless that one ended
* `threads_finish`: the threads end once each, and the program exits when all of them have
* `fcfs_in_order`: under FCFS a thread runs when all threads started before it have ended
-/

namespace SystemProgramming.Scheduler.Gthreads

/-- `MAX_JOBS`. -/
def maxJobs : Nat := 100

/-- `MAIN_FREQUENCY`. -/
def mainFrequency : Nat := 2

/-- The globals. A thread is its index in `jobs`, and `none` is `gtmain`. -/
structure World (T : Type) where
  sched : State Nat T
  /-- The last time that was read. -/
  clock : Option T
  currjob : Option Nat
  suspended : Option (Option Nat)
  counter : Nat
  /-- `job_count`: the threads that have not ended. -/
  jobCount : Int
  /-- `jobcount`: the slots of `jobs` in use. -/
  jobs : Nat
  /-- The threads that have ended, in order. -/
  finished : List Nat
  exited : Bool

/-- What a thread does, or an alarm. -/
inductive Event (T : Type) where
  /-- `gtgo`. -/
  | go (time : T) (schedData : SchedulerInfo T)
  /-- `gtdoyield(0)`. -/
  | yield (time : T)
  /-- A round of the loop of `gtsleep`. -/
  | sleep (time : T)
  /-- The signal handler. -/
  | alarm (time : T)
  /-- The function of a thread returns to `gtstop`. The clock is read twice. -/
  | stop (time finishTime : T)
  /-- A round of the loop of `gtret` in the main thread. -/
  | ret (time : T)

def Event.time {T : Type} : Event T → T
  | .go time _ => time
  | .yield time => time
  | .sleep time => time
  | .alarm time => time
  | .stop time _ => time
  | .ret time => time

/-- `gtinit`. -/
def World.start {T : Type} [Zero T] (scheme : Scheme) (metadata : Nat → JobInfo T) : World T where
  sched := startUp scheme metadata
  clock := none
  currjob := none
  suspended := none
  counter := 1
  jobCount := 0
  jobs := 0
  finished := []
  exited := false

section Model

variable {T : Type} [One T] [Neg T] [Add T] [Sub T] [BEq T] [LT T] [DecidableLT T]

/-- Times never decrease. -/
def World.notBefore (w : World T) (time : T) : Bool := w.clock.all fun t => ¬ time < t

/-- The end of `gtyield`: the scheduler returns the thread to run, or it is the main thread's
turn. The flag is whether that is another thread. -/
def dispatch (w : World T) (quantumJob : Option Nat) (time : T) : Option (World T × Bool) := do
  let (newjob, sched) ← w.sched.quantumExpired quantumJob time
  some ({ w with sched, currjob := newjob }, newjob != w.currjob)

/-- The alarms and the rounds of `gtsleep` are counted. -/
def World.count (w : World T) (counts : Bool) : World T :=
  if counts then { w with counter := (w.counter + 1) % mainFrequency } else w

/-- `gtyield`, up to the switch that leaves the thread. `counts` is whether `sig` is `SIGALRM` or
`GTSLEEP_SIG`. -/
def gtyield (w : World T) (counts : Bool) (time : T) : Option (World T × Bool) :=
  match w.currjob, w.suspended with
  | none, some none =>
    -- a switch from the main thread to itself, and `gtyield` returns
    some ({ w with suspended := none }, true)
  | none, some (some thread) =>
    -- the suspended thread comes back from `gtswtch` and goes on to the end of its `gtyield`
    (dispatch { w with currjob := some thread, suspended := none } (some thread) time).map
      fun (w, _) => (w, true)
  | _, _ =>
    let w := w.count counts
    if counts ∧ w.counter = 0 ∧ w.jobCount ≠ 0 then
      let w := { w with suspended := some w.currjob }
      match w.currjob with
      -- a switch from the main thread to itself
      | none => dispatch w none time
      | some _ => some ({ w with currjob := none }, true)
    else dispatch w w.currjob time

/-- `gtgo`. The slot of the stack is one behind that of the job. -/
def gtgo (w : World T) (time : T) (schedData : SchedulerInfo T) : Option (World T) :=
  if w.jobs + 1 < maxJobs then do
    let sched ← w.sched.newJob w.jobs (w.jobs + 1) time schedData
    some { w with sched, jobCount := w.jobCount + 1, jobs := w.jobs + 1 }
  else none

/-- `gtstop`. A thread that has ended must not be switched back to. -/
def gtstop (w : World T) (time finishTime : T) : Option (World T) := do
  let j ← w.currjob
  let sched ← w.sched.jobFinished j finishTime
  let w := { w with sched, jobCount := w.jobCount - 1, finished := w.finished ++ [j] }
  let (w, switched) ← dispatch w none time
  if switched then some w else none

/-- A round of the loop of `gtret`, which ends when there is no other thread. -/
def gtret (w : World T) (time : T) : Option (World T) :=
  if w.currjob = none then
    (gtyield w false time).map fun (w, switched) => { w with exited := !switched }
  else none

/-- One step. -/
def step (w : World T) (e : Event T) : Option (World T) :=
  if w.exited = false ∧ w.notBefore e.time then
    match e with
    | .go time schedData =>
      (gtgo w time schedData).map fun w => { w with clock := some time }
    | .yield time => (gtyield w false time).map fun (w, _) => { w with clock := some time }
    | .sleep time => (gtyield w true time).map fun (w, _) => { w with clock := some time }
    | .alarm time => (gtyield w true time).map fun (w, _) => { w with clock := some time }
    | .stop time finishTime =>
      if finishTime < time then none
      else (gtstop w time finishTime).map fun w => { w with clock := some finishTime }
    | .ret time => (gtret w time).map fun w => { w with clock := some time }
  else none

end Model

/-! ## What the scheduler sees -/

variable {T : Type} {w w' : World T}

/-- The thread that runs, or that waits for the main thread to switch back. -/
def World.dispatched (w : World T) : Option Nat := w.currjob.or w.suspended.join

section Move

variable [One T] [Neg T] [Add T] [Sub T] [BEq T] [LT T] [DecidableLT T]

/-- A step as the scheduler sees it. It is given back the thread that it returned last, unless
this one has ended. -/
inductive Move (e : Event T) (w w' : World T) : Prop where
  | go (time : T) (schedData : SchedulerInfo T) (hevent : e = .go time schedData)
      (hsched : w'.sched = w.sched.arrival w.jobs (w.jobs + 1) time schedData)
      (hclock : w'.clock = some time) (htime : w.notBefore time)
      (hjobs : w'.jobs = w.jobs + 1) (hfinished : w'.finished = w.finished)
      (hdispatched : w'.dispatched = w.dispatched) (hexited : w'.exited = false)
  | pause (hsched : w'.sched = w.sched) (hclock : ∃ t, w'.clock = some t ∧ w.notBefore t)
      (hjobs : w'.jobs = w.jobs) (hfinished : w'.finished = w.finished)
      (hdispatched : w'.dispatched = w.dispatched) (hexited : w'.exited = false)
  | quantum (time : T)
      (hsched : w.sched.quantumExpired w.dispatched time = some (w'.dispatched, w'.sched))
      (hclock : w'.clock = some time) (htime : w.notBefore time)
      (hjobs : w'.jobs = w.jobs) (hfinished : w'.finished = w.finished)
      (hexited : w'.exited = true → w.dispatched = none ∧ w'.dispatched = none)
  | stop (j : Nat) (time finishTime : T) (hdispatched : w.dispatched = some j)
      (hsched : (w.sched.departure j finishTime).quantumExpired none time =
        some (w'.dispatched, w'.sched))
      (hclock : w'.clock = some finishTime) (htime : w.notBefore finishTime)
      (hjobs : w'.jobs = w.jobs) (hfinished : w'.finished = w.finished ++ [j])
      (hother : w'.dispatched ≠ some j) (hexited : w'.exited = false)

end Move

/-- While a thread runs, no other one is suspended. -/
def World.Steady (w : World T) : Prop := w.currjob ≠ none → w.suspended.join = none

/-- A call of `gtyield` keeps all but the scheduler and who runs. -/
structure Frame (w w' : World T) : Prop where
  steady : w'.Steady
  jobs : w'.jobs = w.jobs
  finished : w'.finished = w.finished
  exited : w'.exited = w.exited

section Calls

variable [One T] [Neg T] [Sub T] [BEq T] [LT T] [DecidableLT T] {time : T} {counts switched : Bool}

theorem dispatch_spec {q : Option Nat} (h : dispatch w q time = some (w', switched))
    (hnone : w.suspended.join = none) :
    Frame w w' ∧ w.sched.quantumExpired q time = some (w'.dispatched, w'.sched) ∧
      switched = (w'.dispatched != w.currjob) := by
  simp only [dispatch, Option.bind_eq_bind, Option.bind_eq_some_iff, Prod.exists, Option.some.injEq,
    Prod.mk.injEq] at h
  obtain ⟨newjob, sched, hsched, rfl, rfl⟩ := h
  have hdispatched : newjob.or w.suspended.join = newjob := by rw [hnone, Option.or_none]
  refine ⟨⟨fun _ => hnone, rfl, rfl, rfl⟩, ?_, ?_⟩
  · rw [World.dispatched, hdispatched]
    exact hsched
  · rw [World.dispatched, hdispatched]

omit [One T] [Neg T] [Sub T] [BEq T] [LT T] [DecidableLT T] in
theorem count_eq (w : World T) (counts : Bool) : ∃ c, w.count counts = { w with counter := c } := by
  unfold World.count
  split_ifs
  · exact ⟨_, rfl⟩
  · exact ⟨_, rfl⟩

/-- **`gtyield` passes the dispatched thread back to the scheduler**, or pauses it. -/
theorem gtyield_spec (hsteady : w.Steady) (h : gtyield w counts time = some (w', switched)) :
    Frame w w' ∧
      ((w'.sched = w.sched ∧ w'.dispatched = w.dispatched ∧ switched = true) ∨
        w.sched.quantumExpired w.dispatched time = some (w'.dispatched, w'.sched) ∧
          (w.currjob = none → switched = false → w.dispatched = none ∧ w'.dispatched = none)) := by
  -- the main thread goes back to what it suspended, where only a thread goes on with its own call
  cases hcurr : w.currjob with
  | none =>
    cases hsusp : w.suspended with
    | some thread =>
      have hdispatched : w.dispatched = thread := by
        rw [World.dispatched, hcurr, hsusp]
        rfl
      rw [hdispatched]
      cases thread with
      | none =>
        simp only [gtyield, hcurr, hsusp, Option.some.injEq, Prod.mk.injEq] at h
        obtain ⟨rfl, rfl⟩ := h
        exact ⟨⟨fun h => absurd rfl h, rfl, rfl, rfl⟩, Or.inl ⟨rfl, rfl, rfl⟩⟩
      | some j =>
        simp only [gtyield, hcurr, hsusp, Option.map_eq_some_iff, Prod.mk.injEq, Prod.exists] at h
        obtain ⟨v, b, h, rfl, rfl⟩ := h
        obtain ⟨⟨hsteady', hjobs, hfinished, hexited⟩, hsched, -⟩ := dispatch_spec h rfl
        exact ⟨⟨hsteady', hjobs, hfinished, hexited⟩, Or.inr ⟨hsched, fun _ h => by simp at h⟩⟩
    | none =>
      have hdispatched : w.dispatched = none := by
        rw [World.dispatched, hcurr, hsusp]
        rfl
      obtain ⟨c, hcount⟩ := count_eq w counts
      simp only [gtyield, hcurr, hsusp, hcount] at h
      rw [hdispatched]
      split_ifs at h
      all_goals
        obtain ⟨⟨hsteady', hjobs, hfinished, hexited⟩, hsched, rfl⟩ := dispatch_spec h rfl
        refine ⟨⟨hsteady', hjobs, hfinished, hexited⟩, Or.inr ⟨hsched, fun _ hlast => ⟨rfl, ?_⟩⟩⟩
        simpa using hlast
  | some j =>
    -- a thread runs, so nothing is suspended
    have hnone : w.suspended.join = none := hsteady (by simp [hcurr])
    have hdispatched : w.dispatched = some j := by
      rw [World.dispatched, hcurr, hnone]
      rfl
    obtain ⟨c, hcount⟩ := count_eq w counts
    simp only [gtyield, hcurr, hcount] at h
    split_ifs at h
    -- the counter has gone round: the main thread is next
    · obtain ⟨rfl, rfl⟩ := Prod.mk.inj (Option.some.inj h)
      refine ⟨⟨fun h => absurd rfl h, rfl, rfl, rfl⟩, Or.inl ⟨rfl, ?_, rfl⟩⟩
      rw [hdispatched]
      rfl
    · obtain ⟨⟨hsteady', hjobs, hfinished, hexited⟩, hsched, -⟩ := dispatch_spec h hnone
      rw [hdispatched]
      exact ⟨⟨hsteady', hjobs, hfinished, hexited⟩, Or.inr ⟨hsched, fun h => by simp at h⟩⟩

end Calls

variable [LinearOrder T] [One T] [Neg T] [Add T] [Sub T] [BEq T] {e : Event T} {scheme : Scheme}

omit [One T] [Neg T] [Add T] [Sub T] [BEq T] in
theorem notBefore_mono {s t : T} (h : w.notBefore s) (hst : ¬ t < s) : w.notBefore t := by
  simp only [World.notBefore, Option.all_eq_true, decide_eq_true_eq, not_lt] at h hst ⊢
  exact fun c hc => (h c hc).trans hst

/-- A call of `gtyield` is a move. -/
theorem Move.of_gtyield {e : Event T} {counts switched : Bool} {time : T} (hsteady : w.Steady)
    (hexited : w.exited = false) (htime : w.notBefore time)
    (h : gtyield w counts time = some (w', switched)) :
    Move e w { w' with clock := some time } ∧ w'.Steady ∧
      (w.currjob = none → Move e w { w' with clock := some time, exited := !switched }) := by
  obtain ⟨⟨hsteady', hjobs, hfinished, hexited'⟩, ⟨hsched, hdispatched, rfl⟩ | ⟨hsched, hlast⟩⟩ :=
    gtyield_spec hsteady h
  · exact ⟨.pause hsched ⟨time, rfl, htime⟩ hjobs hfinished hdispatched (hexited'.trans hexited),
      hsteady', fun _ => .pause hsched ⟨time, rfl, htime⟩ hjobs hfinished hdispatched rfl⟩
  · refine ⟨.quantum time hsched rfl htime hjobs hfinished fun h => ?_, hsteady', fun hmain =>
      .quantum time hsched rfl htime hjobs hfinished fun h => ?_⟩
    · have hno : w'.exited = true := h
      simp [hexited', hexited] at hno
    · have hswitched : switched = false := by simpa using h
      exact hlast hmain hswitched

/-- **A step is a move**: the scheduler is given back the thread that it returned last, unless
this one has ended. -/
theorem Move.of_step (hsteady : w.Steady) (h : step w e = some w') : Move e w w' ∧ w'.Steady := by
  unfold step at h
  split_ifs at h with hguard
  obtain ⟨hexited, htime⟩ := hguard
  have hyield {counts : Bool}
      (h : ((gtyield w counts e.time).map fun (w, _) => { w with clock := some e.time }) =
        some w') : Move e w w' ∧ w'.Steady := by
    simp only [Option.map_eq_some_iff, Prod.exists] at h
    obtain ⟨v, switched, hy, rfl⟩ := h
    obtain ⟨hmove, hsteady', -⟩ := Move.of_gtyield hsteady hexited htime hy
    exact ⟨hmove, hsteady'⟩
  cases e with
  | go time schedData =>
    simp only [gtgo, Option.map_eq_some_iff, Option.ite_none_right_eq_some, Option.bind_eq_bind,
      Option.bind_eq_some_iff, State.newJob_eq_some, Option.some.injEq] at h
    obtain ⟨-, ⟨-, _, ⟨-, rfl⟩, rfl⟩, rfl⟩ := h
    exact ⟨.go time schedData rfl rfl rfl htime rfl rfl rfl hexited, hsteady⟩
  | yield time => exact hyield h
  | sleep time => exact hyield h
  | alarm time => exact hyield h
  | stop time finishTime =>
    dsimp only at h
    split_ifs at h with hlater
    simp only [gtstop, Option.map_eq_some_iff, Option.bind_eq_bind, Option.bind_eq_some_iff,
      State.jobFinished_eq_some, Prod.exists, Option.ite_none_right_eq_some,
      Option.some.injEq] at h
    obtain ⟨v, ⟨j, hcurr, _, ⟨-, rfl⟩, v, switched, hd, hswitched, rfl⟩, rfl⟩ := h
    -- the thread that stops is the one that was dispatched
    have hnone : w.suspended.join = none := hsteady (by simp [hcurr])
    have hdispatched : w.dispatched = some j := by
      rw [World.dispatched, hcurr, hnone]
      rfl
    obtain ⟨hframe, hsched, rfl⟩ := dispatch_spec hd hnone
    have hother : v.dispatched ≠ some j := by simpa [hcurr] using hswitched
    exact ⟨.stop j time finishTime hdispatched hsched rfl (notBefore_mono htime hlater)
      hframe.jobs hframe.finished hother (hframe.exited.trans hexited), hframe.steady⟩
  | ret time =>
    simp only [gtret, Option.map_eq_some_iff, Option.ite_none_right_eq_some, Prod.exists] at h
    obtain ⟨-, ⟨hmain, v, switched, hy, rfl⟩, rfl⟩ := h
    obtain ⟨-, hsteady', hmove⟩ := Move.of_gtyield hsteady hexited htime hy
    exact ⟨hmove hmain, hsteady'⟩

/-! ## Runs -/

omit [LinearOrder T] [Add T] in
/-- What asking the scheduler does to the queue, when the thread given back is its head. -/
theorem quantumExpired_queue [LT T] [DecidableLT T] {s s' : State Nat T} {evicted next : Option Nat}
    {time : T} (hhead : ∀ r, evicted = some r → s.pqueue.head? = some r)
    (h : s.quantumExpired evicted time = some (next, s')) :
    s'.pqueue.Perm s.pqueue ∧ s'.live = s.live ∧ s'.pqueueScheme = s.pqueueScheme ∧
      (∀ j, (s'.metadata j).arrivalTime = (s.metadata j).arrivalTime) ∧
      (∀ j, next = some j → s'.pqueue.head? = some j) ∧
      (¬ isPreemptive s.pqueueScheme → s'.pqueue = s.pqueue) ∧
      (evicted = none → next = none → s.pqueue = []) := by
  obtain ⟨hperm, hlive, -⟩ := State.quantumExpired_spec h
  rcases State.quantumExpired_cases h with ⟨hq, rfl, rfl, rfl⟩ | ⟨head, hq, rfl, rfl, rfl⟩ |
    ⟨r, head, rest, rfl, hpre, hq, rfl, rfl⟩ | ⟨r, rfl, hpre, rfl, rfl⟩
  · exact ⟨hperm, hlive, rfl, fun _ => rfl, fun _ h => by simp at h, fun _ => rfl, fun _ _ => hq⟩
  · exact ⟨hperm, hlive, rfl, fun _ => rfl, fun j h => h ▸ hq, fun _ => rfl, fun _ h => by simp at h⟩
  · exact ⟨hperm, hlive, rfl, fun _ => rfl, fun j h => h, fun h => absurd hpre h,
      fun h => by simp at h⟩
  · exact ⟨hperm, hlive, rfl, fun _ => rfl, fun j h => h ▸ hhead r rfl, fun _ => rfl,
      fun h => by simp at h⟩

/-- What the program keeps. -/
structure Kept (scheme : Scheme) (w : World T) : Prop where
  steady : w.Steady
  scheme_eq : w.sched.pqueueScheme = scheme
  /-- A thread that was started has ended, or is in the queue. -/
  threads : (w.finished ++ w.sched.pqueue).Perm (List.range w.jobs)
  head : ∀ j, w.dispatched = some j → w.sched.pqueue.head? = some j
  /-- The metadata of a queued thread is not freed. -/
  live : ∀ j ∈ w.sched.pqueue, w.sched.live j
  arrived : ∀ j ∈ w.sched.pqueue, ∃ t ∈ w.clock, (w.sched.metadata j).arrivalTime ≤ t
  /-- Under FCFS the queue holds the threads as they were started. -/
  order : scheme = .fcfs → w.finished ++ w.sched.pqueue = List.range w.jobs
  exited : w.exited = true → w.sched.pqueue = [] ∧ w.dispatched = none

/-- The scheme is FCFS, or no thread is started while another one is dispatched. -/
def Calm (scheme : Scheme) (w : World T) (e : Event T) : Prop :=
  scheme = .fcfs ∨ ∀ time schedData, e = .go time schedData → w.dispatched = none

omit [One T] [Neg T] [Add T] [Sub T] [BEq T] in
theorem Kept.start [Zero T] (scheme : Scheme) (metadata : Nat → JobInfo T) :
    Kept scheme (World.start scheme metadata) where
  steady := fun h => absurd rfl h
  scheme_eq := rfl
  threads := List.Perm.refl _
  head := fun _ h => by simp [World.start, World.dispatched] at h
  live := fun _ h => by simp [World.start, startUp] at h
  arrived := fun _ h => by simp [World.start, startUp] at h
  order := fun _ => rfl
  exited := fun h => by simp [World.start] at h

omit [One T] [Neg T] [Add T] [Sub T] [BEq T] in
theorem Kept.nodup (hw : Kept scheme w) : w.sched.pqueue.Nodup :=
  (List.nodup_append.mp (hw.threads.nodup_iff.mpr List.nodup_range)).2.1

omit [One T] [Neg T] [Add T] [Sub T] [BEq T] in
theorem Kept.lt_jobs (hw : Kept scheme w) {j : Nat} (hj : j ∈ w.sched.pqueue) : j < w.jobs :=
  List.mem_range.mp (hw.threads.mem_iff.mp (List.mem_append_right _ hj))

omit [One T] [Neg T] [Add T] [Sub T] [BEq T] in
/-- What has arrived is not later than a time read now. -/
theorem Kept.arrived_le (hw : Kept scheme w) {time : T} (htime : w.notBefore time) {j : Nat}
    (hj : j ∈ w.sched.pqueue) : (w.sched.metadata j).arrivalTime ≤ time := by
  obtain ⟨t, ht, hle⟩ := hw.arrived j hj
  simp only [World.notBefore, Option.all_eq_true, decide_eq_true_eq, not_lt] at htime
  exact hle.trans (htime t ht)

omit [Add T] [Sub T] [BEq T] in
/-- Under FCFS a thread that is started goes to the end of the queue. -/
theorem Kept.newJob_fcfs (hw : Kept scheme w) (hfcfs : scheme = .fcfs) {time : T}
    (htime : w.notBefore time) {n : Int} {schedData : SchedulerInfo T} :
    (w.sched.arrival w.jobs n time schedData).pqueue = w.sched.pqueue ++ [w.jobs] := by
  refine Priqueue.offer_eq_concat fun y hy => ?_
  have hne : y ≠ w.jobs := (hw.lt_jobs hy).ne
  have hbefore := hw.arrived_le htime hy
  show ¬ comparisionFunc w.sched.pqueueScheme _ _ < 0
  rw [hw.scheme_eq, hfcfs]
  show ¬ comparerFcfs (Function.update w.sched.metadata w.jobs _ w.jobs)
    (Function.update w.sched.metadata w.jobs _ y) < 0
  rw [comparerFcfs_neg, not_lt, Function.update_self, Function.update_of_ne hne]
  exact hbefore

omit [Add T] [Sub T] [BEq T] in
theorem Kept.go (hw : Kept scheme w) {time : T} {schedData : SchedulerInfo T}
    (hcalm : scheme = .fcfs ∨ w.dispatched = none) (hsteady : w'.Steady)
    (hsched : w'.sched = w.sched.arrival w.jobs (w.jobs + 1) time schedData)
    (hclock : w'.clock = some time) (htime : w.notBefore time) (hjobs : w'.jobs = w.jobs + 1)
    (hfinished : w'.finished = w.finished) (hdispatched : w'.dispatched = w.dispatched)
    (hexited : w'.exited = false) : Kept scheme w' := by
  have hperm := State.arrival_perm w.sched w.jobs (w.jobs + 1) time schedData
  have hscheme : w'.sched.pqueueScheme = scheme := by
    rw [hsched]
    exact hw.scheme_eq
  have hqueue (hfcfs : scheme = .fcfs) :
      w'.sched.pqueue = w.sched.pqueue ++ [w.jobs] := by
    rw [hsched]
    exact hw.newJob_fcfs hfcfs htime
  rw [← hsched] at hperm
  refine ⟨hsteady, hscheme, ?_, fun j hj => ?_, fun j hj => ?_, fun j hj => ?_, fun hfcfs => ?_,
    fun h => by simp [hexited] at h⟩
  · rw [hfinished, hjobs, List.range_succ]
    calc (w.finished ++ w'.sched.pqueue).Perm (w.finished ++ w.jobs :: w.sched.pqueue) :=
          hperm.append_left _
      _ |>.Perm (w.jobs :: (w.finished ++ w.sched.pqueue)) := List.perm_middle
      _ |>.Perm (w.jobs :: List.range w.jobs) := hw.threads.cons _
      _ |>.Perm (List.range w.jobs ++ [w.jobs]) := (List.perm_append_singleton _ _).symm
  · rw [hdispatched] at hj
    -- under FCFS a new thread is put behind the head
    rcases hcalm with hfcfs | hnone
    · rw [hqueue hfcfs, List.head?_append, hw.head j hj]
      rfl
    · simp [hnone] at hj
  · rw [hsched]
    show Function.update w.sched.live w.jobs true j = true
    rcases List.mem_cons.mp (hperm.mem_iff.mp hj) with rfl | hj
    · rw [Function.update_self]
    · rw [Function.update_of_ne (hw.lt_jobs hj).ne]
      exact hw.live j hj
  · refine ⟨time, hclock, ?_⟩
    rw [hsched]
    rcases List.mem_cons.mp (hperm.mem_iff.mp hj) with rfl | hj
    · show (Function.update w.sched.metadata w.jobs _ w.jobs).arrivalTime ≤ time
      rw [Function.update_self]
      exact le_rfl
    · show (Function.update w.sched.metadata w.jobs _ j).arrivalTime ≤ time
      rw [Function.update_of_ne (hw.lt_jobs hj).ne]
      exact hw.arrived_le htime hj
  · rw [hfinished, hqueue hfcfs, hjobs, List.range_succ, ← List.append_assoc, hw.order hfcfs]

omit [Add T] in
theorem Kept.quantum (hw : Kept scheme w) {time : T} (hsteady : w'.Steady)
    (hsched : w.sched.quantumExpired w.dispatched time = some (w'.dispatched, w'.sched))
    (hclock : w'.clock = some time) (htime : w.notBefore time) (hjobs : w'.jobs = w.jobs)
    (hfinished : w'.finished = w.finished)
    (hexited : w'.exited = true → w.dispatched = none ∧ w'.dispatched = none) : Kept scheme w' := by
  obtain ⟨hperm, hlive, hscheme, harrival, hnext, hsame, hempty⟩ :=
    quantumExpired_queue hw.head hsched
  refine ⟨hsteady, hscheme.trans hw.scheme_eq, ?_, hnext,
    fun j hj => hlive ▸ hw.live j (hperm.mem_iff.mp hj), fun j hj => ⟨time, hclock, ?_⟩,
    fun hfcfs => ?_, fun h => ?_⟩
  · rw [hfinished, hjobs]
    exact (hperm.append_left _).trans hw.threads
  · rw [harrival]
    exact hw.arrived_le htime (hperm.mem_iff.mp hj)
  · rw [hfinished, hjobs, hsame (by simp [hw.scheme_eq, hfcfs, isPreemptive])]
    exact hw.order hfcfs
  · obtain ⟨hold, hnew⟩ := hexited h
    have hq : w.sched.pqueue = [] := hempty hold hnew
    rw [hq] at hperm
    exact ⟨hperm.eq_nil, hnew⟩

theorem Kept.stop (hw : Kept scheme w) {j : Nat} {time finishTime : T} (hsteady : w'.Steady)
    (hdispatched : w.dispatched = some j)
    (hsched : (w.sched.departure j finishTime).quantumExpired none time =
      some (w'.dispatched, w'.sched))
    (hclock : w'.clock = some finishTime) (htime : w.notBefore finishTime)
    (hjobs : w'.jobs = w.jobs) (hfinished : w'.finished = w.finished ++ [j])
    (hexited : w'.exited = false) : Kept scheme w' := by
  obtain ⟨rest, hrest⟩ := List.head?_eq_some_iff.mp (hw.head j hdispatched)
  have hnodup : j ∉ rest := (List.nodup_cons.mp (hrest ▸ hw.nodup)).1
  obtain ⟨hperm, hlive, hscheme, harrival, hnext, hsame, -⟩ :=
    quantumExpired_queue (fun _ h => by simp at h) hsched
  rw [State.departure_pqueue hrest] at hperm hsame
  refine ⟨hsteady, hscheme.trans hw.scheme_eq, ?_, hnext, fun i hi => ?_,
    fun i hi => ⟨finishTime, hclock, ?_⟩, fun hfcfs => ?_,
    fun h => by simp [hexited] at h⟩
  · have hthreads := hw.threads
    rw [hrest] at hthreads
    rw [hfinished, hjobs, List.append_assoc]
    exact ((hperm.cons j).append_left _).trans hthreads
  · -- the thread that has ended is the only one whose metadata was freed
    have hmem : i ∈ rest := hperm.mem_iff.mp hi
    have hne : i ≠ j := fun heq => hnodup (heq ▸ hmem)
    rw [hlive]
    show Function.update w.sched.live j false i = true
    rw [Function.update_of_ne hne]
    exact hw.live i (hrest ▸ List.mem_cons_of_mem _ hmem)
  · rw [harrival]
    exact hw.arrived_le htime (hrest ▸ List.mem_cons_of_mem _ (hperm.mem_iff.mp hi))
  · have horder := hw.order hfcfs
    rw [hrest] at horder
    have hpre : ¬ isPreemptive (w.sched.departure j finishTime).pqueueScheme := by
      show ¬ isPreemptive w.sched.pqueueScheme
      rw [hw.scheme_eq, hfcfs]
      simp [isPreemptive]
    rw [hfinished, hjobs, hsame hpre, List.append_assoc]
    exact horder

/-- A step keeps it. -/
theorem Kept.step (hw : Kept scheme w) (hcalm : Calm scheme w e)
    (h : Gthreads.step w e = some w') : Kept scheme w' := by
  obtain ⟨hmove, hsteady⟩ := Move.of_step hw.steady h
  cases hmove with
  | go time schedData hevent hsched hclock htime hjobs hfinished hdispatched hexited =>
    exact hw.go (hcalm.imp id fun h => h time schedData hevent) hsteady hsched hclock htime hjobs
      hfinished hdispatched hexited
  -- the queue and the dispatched thread stay as they are
  | pause hsched hclock hjobs hfinished hdispatched hexited =>
    obtain ⟨time, hclock, htime⟩ := hclock
    refine ⟨hsteady, hsched ▸ hw.scheme_eq, ?_, ?_, hsched ▸ hw.live, ?_, ?_,
      fun h => by simp [hexited] at h⟩
    · rw [hfinished, hsched, hjobs]
      exact hw.threads
    · rw [hdispatched, hsched]
      exact hw.head
    · rw [hsched]
      exact fun j hj => ⟨time, hclock, hw.arrived_le htime hj⟩
    · rw [hfinished, hsched, hjobs]
      exact hw.order
  | quantum time hsched hclock htime hjobs hfinished hexited =>
    exact hw.quantum hsteady hsched hclock htime hjobs hfinished hexited
  | stop j time finishTime hdispatched hsched hclock htime hjobs hfinished hother hexited =>
    exact hw.stop hsteady hdispatched hsched hclock htime hjobs hfinished hexited

/-- What the thread that runs may do, and the alarm. -/
def Possible (w : World T) : Event T → Prop
  | .go _ _ => w.jobs + 1 < maxJobs
  | .stop time finishTime => w.currjob ≠ none ∧ ¬ finishTime < time
  | .ret _ => w.currjob = none
  | _ => True

omit [LinearOrder T] [Add T] in
theorem exists_dispatch [LT T] [DecidableLT T] {q : Option Nat} (time : T)
    (hlive : ∀ j ∈ w.sched.pqueue, w.sched.live j) (h : ∀ r, q = some r → r ∈ w.sched.pqueue) :
    ∃ v, dispatch w q time = some v := by
  obtain ⟨next, s', hs⟩ := State.exists_quantumExpired hlive h
  exact ⟨_, by rw [dispatch, hs]; rfl⟩

omit [Add T] in
theorem Kept.exists_gtyield (hw : Kept scheme w) (counts : Bool) (time : T) :
    ∃ v, gtyield w counts time = some v := by
  cases hcurr : w.currjob with
  | none =>
    cases hsusp : w.suspended with
    | some thread =>
      cases thread with
      | none =>
        simp only [gtyield, hcurr, hsusp]
        exact ⟨_, rfl⟩
      | some j =>
        have hdispatched : w.dispatched = some j := by
          rw [World.dispatched, hcurr, hsusp]
          rfl
        -- the suspended thread is at the head, so its metadata is there
        obtain ⟨v, hv⟩ := exists_dispatch (w := { w with currjob := some j, suspended := none })
          (q := some j) time hw.live fun r hr => List.mem_of_head? (hw.head r (hr ▸ hdispatched))
        simp only [gtyield, hcurr, hsusp]
        exact ⟨_, by rw [hv]; rfl⟩
    | none =>
      obtain ⟨c, hcount⟩ := count_eq w counts
      simp only [gtyield, hcurr, hsusp, hcount]
      split_ifs
      all_goals exact exists_dispatch time hw.live fun r hr => by simp at hr
  | some j =>
    have hdispatched : w.dispatched = some j := by
      rw [World.dispatched, hcurr]
      rfl
    obtain ⟨c, hcount⟩ := count_eq w counts
    simp only [gtyield, hcurr, hcount]
    split_ifs
    · exact ⟨_, rfl⟩
    · exact exists_dispatch time hw.live fun r hr =>
        List.mem_of_head? (hw.head r (hr ▸ hdispatched))

/-- A thread that ends is the head that is polled, so another one comes next. -/
theorem Kept.exists_gtstop (hw : Kept scheme w) {j : Nat} (hcurr : w.currjob = some j)
    (time finishTime : T) : ∃ v, gtstop w time finishTime = some v := by
  have hnone : w.suspended.join = none := hw.steady (by simp [hcurr])
  have hhead : w.sched.pqueue.head? = some j := hw.head j (by rw [World.dispatched, hcurr]; rfl)
  obtain ⟨rest, hrest⟩ := List.head?_eq_some_iff.mp hhead
  have hnodup : j ∉ rest := (List.nodup_cons.mp (hrest ▸ hw.nodup)).1
  have hpoll : (w.sched.departure j finishTime).pqueue = rest := State.departure_pqueue hrest
  have hfree : w.sched.jobFinished j finishTime = some (w.sched.departure j finishTime) :=
    State.jobFinished_eq_some.mpr ⟨hw.live j (List.mem_of_head? hhead), rfl⟩
  have hlive : ∀ i ∈ (w.sched.departure j finishTime).pqueue,
      (w.sched.departure j finishTime).live i := by
    intro i hi
    rw [hpoll] at hi
    have hne : i ≠ j := fun heq => hnodup (heq ▸ hi)
    show Function.update w.sched.live j false i = true
    rw [Function.update_of_ne hne]
    exact hw.live i (hrest ▸ List.mem_cons_of_mem _ hi)
  obtain ⟨⟨v, switched⟩, hv⟩ := exists_dispatch
    (w := { w with
      sched := w.sched.departure j finishTime
      jobCount := w.jobCount - 1
      finished := w.finished ++ [j] }) (q := none) time hlive fun r hr => by simp at hr
  obtain ⟨-, hsched, hswitched⟩ := dispatch_spec hv hnone
  -- the thread that stopped is out of the queue, so it is not switched to
  have hother : v.dispatched ≠ some j := by
    intro hdispatched
    obtain ⟨hperm, -, -, -, hnext, -⟩ := quantumExpired_queue (fun _ h => by simp at h) hsched
    have hmem : j ∈ v.sched.pqueue := List.mem_of_head? (hnext j hdispatched)
    exact hnodup (hpoll ▸ hperm.mem_iff.mp hmem)
  have hswitched : switched = true := by
    rw [hswitched]
    simpa [hcurr] using hother
  refine ⟨v, ?_⟩
  simp only [hcurr] at hv
  simp only [gtstop, hcurr, hfree, Option.bind_eq_bind, Option.bind_some, hv, hswitched, if_true]

/-- **No crash.** What a thread may do goes through. -/
theorem Kept.exists_step (hw : Kept scheme w) (hexited : w.exited = false)
    (htime : w.notBefore e.time) (h : Possible w e) : ∃ w', Gthreads.step w e = some w' := by
  have hyield (counts : Bool) (time : T) :
      ∃ w', ((gtyield w counts time).map fun (w, _) => { w with clock := some time }) =
        some w' := by
    obtain ⟨v, hv⟩ := hw.exists_gtyield counts time
    exact ⟨_, by rw [hv]; rfl⟩
  unfold Gthreads.step
  rw [if_pos ⟨hexited, htime⟩]
  cases e with
  | go time schedData =>
    have hroom : w.jobs + 1 < maxJobs := h
    -- the comparer only sees threads in the queue, which have not stopped
    have hnew : w.sched.newJob w.jobs (w.jobs + 1) time schedData =
        some (w.sched.arrival w.jobs (w.jobs + 1) time schedData) :=
      State.newJob_eq_some.mpr ⟨fun i hi => Or.inr
        (hw.live i (Priqueue.compared_subset _ _ _ hi)), rfl⟩
    simp [gtgo, hroom, hnew]
  | yield time => exact hyield false time
  | sleep time => exact hyield true time
  | alarm time => exact hyield true time
  | stop time finishTime =>
    obtain ⟨hcurr, hlater⟩ := h
    obtain ⟨j, hcurr⟩ := Option.ne_none_iff_exists'.mp hcurr
    obtain ⟨v, hv⟩ := hw.exists_gtstop hcurr time finishTime
    dsimp only
    rw [if_neg hlater, hv]
    exact ⟨_, rfl⟩
  | ret time =>
    have hmain : w.currjob = none := h
    obtain ⟨v, hv⟩ := hw.exists_gtyield false time
    simp [gtret, hmain, hv]

variable [Zero T] {metadata : Nat → JobInfo T} {es : List (Event T)}

theorem kept_of_run (hcalm : ∀ w e, Takes step (World.start scheme metadata) es w e →
      Calm scheme w e)
    (hrun : run step (World.start scheme metadata) es = some w) : Kept scheme w :=
  forall_visits_of_takes (Kept.start scheme metadata) (fun _ _ _ hw hc h => hw.step hc h) hcalm w
    (Visits.final hrun)

/-- **The threads end once each.** Under FCFS, and under every scheme when no thread is started
while another one is dispatched: a thread that was started has ended once, or waits in the
scheduler's queue once; a thread that has ended does not run; the program exits only when all
threads have ended; and until then whatever the running thread may do goes through. -/
theorem threads_finish
    (hcalm : ∀ w e, Takes step (World.start scheme metadata) es w e → Calm scheme w e)
    (hrun : run step (World.start scheme metadata) es = some w) :
    (w.finished ++ w.sched.pqueue).Perm (List.range w.jobs) ∧
      (∀ j, w.currjob = some j → j < w.jobs ∧ j ∉ w.finished) ∧
      (w.exited = true → w.finished.Perm (List.range w.jobs)) ∧
      ∀ e, w.exited = false → w.notBefore e.time → Possible w e → ∃ w', step w e = some w' := by
  have hw : Kept scheme w := kept_of_run hcalm hrun
  refine ⟨hw.threads, fun j hj => ?_, fun h => ?_, fun e hexited htime h =>
    hw.exists_step hexited htime h⟩
  · have hmem : j ∈ w.sched.pqueue :=
      List.mem_of_head? (hw.head j (by rw [World.dispatched, hj]; rfl))
    have hnodup := hw.threads.nodup_iff.mpr List.nodup_range
    exact ⟨hw.lt_jobs hmem, fun h => (List.nodup_append.mp hnodup).2.2 j h j hmem rfl⟩
  · have hthreads := hw.threads
    rw [(hw.exited h).1, List.append_nil] at hthreads
    exact hthreads

/-- Two threads, alarms among them, and the main thread waits until both have ended. -/
def twoThreads : List (Event ℚ) :=
  [.go 0 ⟨3, 1⟩, .go 0 ⟨3, 2⟩, .alarm 1, .alarm 2, .alarm 3, .ret 4, .alarm 5, .stop 6 6, .alarm 7,
    .ret 8, .stop 9 9, .ret 10]

/-- In RR the second thread ends first. -/
theorem threads_finish_twoThreads :
    ∃ w, run step (World.start .rr noMetadata) twoThreads = some w ∧ w.finished = [1, 0] ∧
      w.exited = true ∧ w.finished.Perm (List.range w.jobs) := by
  have hend : (run step (World.start .rr noMetadata) twoThreads).map
      (fun w => (w.finished, w.exited)) = some ([1, 0], true) := by decide +kernel
  obtain ⟨w, hrun, hw⟩ := Option.map_eq_some_iff.mp hend
  obtain ⟨hfinished, hexited⟩ := Prod.mk.inj hw
  have hcheck : checkRun step (fun (w : World ℚ) e => match e with
      | .go _ _ => w.dispatched.isNone
      | _ => true) (World.start .rr noMetadata) twoThreads = true := by
    decide +kernel
  refine ⟨w, hrun, hfinished, hexited,
    (threads_finish (fun v e hve => Or.inr ?_) hrun).2.2.1 hexited⟩
  rintro time schedData rfl
  exact Option.isNone_iff_eq_none.mp (forall_takes_of_checkRun hcheck v _ hve)

/-- **First come, first served.** Under FCFS the threads end in the order in which they were
started, a thread runs only when all threads started before it have ended, and all threads have
ended when the program exits. -/
theorem fcfs_in_order (hrun : run step (World.start .fcfs metadata) es = some w) :
    w.finished = List.range w.finished.length ∧
      (∀ j, w.currjob = some j → j = w.finished.length) ∧
      (w.exited = true → w.finished = List.range w.jobs) := by
  have hw : Kept .fcfs w := kept_of_run (fun _ _ _ => Or.inl rfl) hrun
  have horder := hw.order rfl
  have hprefix : w.finished <+: List.range w.jobs := ⟨_, horder⟩
  have hlen : w.finished.length ≤ w.jobs := by
    simpa using hprefix.length_le
  refine ⟨?_, fun j hj => ?_, fun h => ?_⟩
  · rw [List.prefix_iff_eq_take.mp hprefix, List.take_range, List.length_range]
  · obtain ⟨rest, hrest⟩ := List.head?_eq_some_iff.mp
      (hw.head j (by rw [World.dispatched, hj]; rfl))
    have hget : (List.range w.jobs)[w.finished.length]? = some j := by
      rw [← horder, hrest, List.getElem?_append_right le_rfl, Nat.sub_self]
      rfl
    obtain ⟨hlt, hget⟩ := List.getElem?_eq_some_iff.mp hget
    simpa using hget.symm
  · rw [(hw.exited h).1, List.append_nil] at horder
    exact horder

theorem fcfs_in_order_twoThreads :
    ∃ w, run step (World.start .fcfs noMetadata) twoThreads = some w ∧ w.exited = true ∧
      w.jobs = 2 ∧ w.finished = List.range w.jobs := by
  have hend : (run step (World.start .fcfs noMetadata) twoThreads).map
      (fun w => (w.exited, w.jobs)) = some (true, 2) := by decide +kernel
  obtain ⟨w, hrun, hw⟩ := Option.map_eq_some_iff.mp hend
  obtain ⟨hexited, hjobs⟩ := Prod.mk.inj hw
  exact ⟨w, hrun, hexited, hjobs, (fcfs_in_order hrun).2.2 hexited⟩

end SystemProgramming.Scheduler.Gthreads
