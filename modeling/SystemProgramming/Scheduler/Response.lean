import SystemProgramming.Scheduler.Content

/-!
# The response time of a finished job

The response time of a job runs from its arrival to the first time it is given to run.
`scheduler_quantum_expired` sets `start_time` for the job it finds at the head of the queue,
before it decides which job to return, and `scheduler_job_finished` adds up what it finds
there. A job that finishes while it is not the head stays in the queue, and its metadata is gone.

## Main definitions

* `History`, `historyStep`: the scheduler, with when each job arrived, was first found at the
  head of the queue, and was first returned
* `RespondsRight`: a finished job adds the time from its arrival to its first return
* `FoundWhenReturned`: it was first found at the head at the time of its first return
* `FindsUnfinished`: the queued jobs that a call looks at still have their metadata

## Main results

* `Recorded.goesThrough_iff`: a call goes through exactly when it finds no finished job
* `responds_iff`: every call is right exactly when none finds a finished job, and each job that
  finishes was first found at the head at the time of its first return
-/

namespace SystemProgramming.Scheduler

/-- The scheduler, and of each job when it arrived, when a call first found it at the head of
the queue (at a time other than -1, which stands for not started), and when a call first
returned it. -/
structure History (J : Type) where
  world : World J ℚ
  arrived : J → Option ℚ
  found : J → Option ℚ
  returned : J → Option ℚ

variable {J : Type} [DecidableEq J] {a a' : History J} {e : Event J ℚ}

/-- The scheduler just after `scheduler_start_up`. -/
def History.start (scheme : Scheme) (metadata : J → JobInfo ℚ) : History J :=
  ⟨World.start scheme metadata, fun _ => none, fun _ => none, fun _ => none⟩

def historyStep (a : History J) (e : Event J ℚ) : Option (History J) :=
  (step a.world e).map fun w =>
    match e with
    | .newJob j _ t _ =>
      { world := w
        arrived := Function.update a.arrived j (some t)
        found := Function.update a.found j none
        returned := Function.update a.returned j none }
    | .quantumExpired t =>
      { a with
        world := w
        found := fun j =>
          if a.world.sched.pqueue.head? = some j ∧ a.found j = none ∧ t ≠ -1 then some t
          else a.found j
        returned := fun j =>
          if w.running = some j ∧ a.returned j = none then some t else a.returned j }
    | .jobFinished _ => { a with world := w }

/-- A call that is permitted goes through, and a job that finishes adds to `response_time` the
time from its arrival to its first return. -/
def RespondsRight (a : History J) (e : Event J ℚ) : Prop :=
  a.world.permits e → ∃ w', step a.world e = some w' ∧
    ∀ t, e = .jobFinished t → ∀ r, a.world.running = some r →
      ∃ arrival first, a.arrived r = some arrival ∧ a.returned r = some first ∧
        w'.sched.responseTime - a.world.sched.responseTime = first - arrival

/-- A job that finishes was first found at the head of the queue when it was first returned. -/
def FoundWhenReturned (a : History J) : Event J ℚ → Prop
  | .jobFinished _ => ∀ r, a.world.running = some r →
    a.returned r = some ((a.found r).getD (-1))
  | _ => True

/-- The queued jobs that a call looks at have not finished: those that a job which is offered is
compared with, and when a quantum expires the head. -/
def FindsUnfinished (a : History J) : Event J ℚ → Prop
  | .newJob j n t d => ∀ i ∈ a.world.sched.comparedWith j n t d, i = j ∨ a.world.sched.live i
  | .quantumExpired t => ∀ head rest, a.world.sched.pqueue = head :: rest →
    a.world.sched.live head ∧ ∀ r, a.world.running = some r →
      isPreemptive a.world.sched.pqueueScheme →
      ∀ i ∈ Priqueue.compared (a.world.sched.requeuedComparer r t) rest head,
        a.world.sched.live i
  | .jobFinished _ => True

/-- The metadata of a job that has arrived says when it arrived and when it was found, and the
running job is queued and has not finished. -/
structure Recorded (a : History J) : Prop where
  queued : ∀ j ∈ a.world.sched.pqueue, (a.arrived j).isSome
  running : ∀ r, a.world.running = some r → r ∈ a.world.sched.pqueue ∧ a.world.sched.live r
  arrivalTime : ∀ j t, a.arrived j = some t → (a.world.sched.metadata j).arrivalTime = t
  startTime : ∀ j t, a.arrived j = some t →
    (a.world.sched.metadata j).startTime = (a.found j).getD (-1)
  found : ∀ j, a.found j ≠ some (-1)

omit [DecidableEq J] in
theorem Recorded.start (scheme : Scheme) (metadata : J → JobInfo ℚ) :
    Recorded (History.start scheme metadata) where
  queued := nofun
  running := nofun
  arrivalTime := nofun
  startTime := nofun
  found := nofun

/-- Every quantum sets the start time of the head of the queue, and no arrival time. -/
theorem quantumExpired_startTime {s s' : State J ℚ} {evicted next : Option J} {t : ℚ}
    (h : s.quantumExpired evicted t = some (next, s')) (j : J) :
    (s'.metadata j).arrivalTime = (s.metadata j).arrivalTime ∧
      (s'.metadata j).startTime =
        if s.pqueue.head? = some j ∧ (s.metadata j).startTime = -1 then t
        else (s.metadata j).startTime := by
  rcases State.quantumExpired_cases h with ⟨hq, -, -, rfl⟩ | ⟨head, -, -, -, rfl⟩ |
    ⟨r, head, rest, -, -, -, -, rfl⟩ | ⟨r, -, -, -, rfl⟩
  · simp [hq]
  all_goals
    refine ⟨rfl, ?_⟩
    simp [State.charged, State.requeued, State.waiting, State.dispatched, State.started]

theorem Recorded.newJob (ha : Recorded a) {j : J} {n : Int} {t : ℚ} {d : SchedulerInfo ℚ} :
    Recorded
      { world := ⟨a.world.sched.arrival j n t d, j :: a.world.present, a.world.running, some t⟩
        arrived := Function.update a.arrived j (some t)
        found := Function.update a.found j none
        returned := Function.update a.returned j none } := by
  have hmeta (i : J) (f : JobInfo ℚ → ℚ) (hi : i ≠ j) :
      f ((a.world.sched.arrival j n t d).metadata i) = f (a.world.sched.metadata i) :=
    congrArg f (Function.update_of_ne hi _ _)
  have hperm := State.arrival_perm a.world.sched j n t d
  constructor
  case queued =>
    intro i hi
    -- the metadata of `j` are new, and those of the other jobs are kept
    by_cases hij : i = j
    · simp [hij]
    · have hmem := hperm.mem_iff.mp hi
      simpa [Function.update_of_ne hij] using ha.queued i ((List.mem_cons.mp hmem).resolve_left hij)
  case running =>
    intro r hr
    obtain ⟨hmem, hlive⟩ := ha.running r hr
    refine ⟨hperm.mem_iff.mpr (List.mem_cons_of_mem _ hmem), ?_⟩
    show Function.update a.world.sched.live j true r = true
    by_cases hrj : r = j
    · rw [hrj, Function.update_self]
    · rw [Function.update_of_ne hrj]
      exact hlive
  case arrivalTime =>
    intro i t' hi
    dsimp only at hi
    by_cases hij : i = j
    · subst hij
      rw [Function.update_self] at hi
      obtain rfl := Option.some.inj hi
      show (Function.update a.world.sched.metadata i _ i).arrivalTime = t
      rw [Function.update_self]
      rfl
    · rw [Function.update_of_ne hij] at hi
      exact (hmeta i JobInfo.arrivalTime hij).trans (ha.arrivalTime i t' hi)
  case startTime =>
    intro i t' hi
    dsimp only at hi
    by_cases hij : i = j
    · subst hij
      show (Function.update a.world.sched.metadata i _ i).startTime =
        (Function.update a.found i none i).getD (-1)
      rw [Function.update_self, Function.update_self]
      rfl
    · rw [Function.update_of_ne hij] at hi
      dsimp only
      rw [Function.update_of_ne hij]
      exact (hmeta i JobInfo.startTime hij).trans (ha.startTime i t' hi)
  case found =>
    intro i
    by_cases hij : i = j
    · simp [hij]
    · simpa [Function.update_of_ne hij] using ha.found i

/-- The time recorded for the head of the queue is the start time that it gets. -/
theorem getD_found {o : Option ℚ} {t : ℚ} {p : Prop} [Decidable p] (ho : o ≠ some (-1)) :
    (if p ∧ o.getD (-1) = -1 then t else o.getD (-1)) =
      (if p ∧ o = none ∧ t ≠ -1 then some t else o).getD (-1) := by
  cases o with
  | none =>
    by_cases ht : t = -1
    · simp [ht]
    · by_cases hp : p <;> simp [hp, ht]
  | some x =>
    have hx : x ≠ -1 := fun heq => ho (congrArg some heq)
    simp [hx]

/-- A job that is returned is queued and has not finished. -/
theorem returned_unfinished (ha : Recorded a) {t : ℚ} {next : Option J} {s : State J ℚ}
    (h : a.world.sched.quantumExpired a.world.running t = some (next, s)) {r : J}
    (hr : next = some r) : r ∈ a.world.sched.pqueue ∧ a.world.sched.live r := by
  obtain ⟨hperm, -, hmem⟩ := State.quantumExpired_spec h
  cases hrun : a.world.running with
  | none =>
    rw [hrun] at h
    rcases State.quantumExpired_none.mp h with ⟨-, rfl, -⟩ | ⟨head, hhead, hlive, rfl, -⟩
    · cases hr
    · obtain rfl := Option.some.inj hr
      exact ⟨List.mem_of_head? hhead, hlive⟩
  | some evicted =>
    rw [hrun] at h
    by_cases hpre : isPreemptive a.world.sched.pqueueScheme
    · obtain ⟨head, rest, hq, -, hlive, hcompared, hnext, rfl⟩ :=
        (State.quantumExpired_preemptive hpre).mp h
      refine ⟨hperm.mem_iff.mp (List.mem_of_head? (hnext.symm.trans hr)), ?_⟩
      -- the new head is the old one, or the head of the rest that it was compared with
      rw [hnext, State.rotated_pqueue, Priqueue.head?_offer] at hr
      cases hrest : rest.head? with
      | none =>
        rw [hrest] at hr
        exact Option.some.inj hr ▸ hlive
      | some second =>
        rw [hrest, Option.elim_some] at hr
        split_ifs at hr with hlt
        · exact Option.some.inj hr ▸ hlive
        · exact Option.some.inj hr ▸ hcompared second (Priqueue.head_mem_compared _ hrest)
    · obtain ⟨-, -, rfl, -⟩ := (State.quantumExpired_keeps hpre).mp h
      obtain rfl := Option.some.inj hr
      exact ha.running evicted hrun

theorem Recorded.quantum (ha : Recorded a) {t : ℚ} {next : Option J} {s : State J ℚ}
    (h : a.world.sched.quantumExpired a.world.running t = some (next, s))
    {returned : J → Option ℚ} :
    Recorded
      { a with
        world := ⟨s, a.world.present, next, some t⟩
        found := fun j =>
          if a.world.sched.pqueue.head? = some j ∧ a.found j = none ∧ t ≠ -1 then some t
          else a.found j
        returned := returned } := by
  obtain ⟨hperm, hlive, -⟩ := State.quantumExpired_spec h
  have hspec := quantumExpired_startTime h
  constructor
  case queued => exact fun j hj => ha.queued j (hperm.mem_iff.mp hj)
  case running =>
    intro r hr
    obtain ⟨hmem, hunfinished⟩ := returned_unfinished ha h hr
    exact ⟨hperm.mem_iff.mpr hmem, hlive ▸ hunfinished⟩
  case arrivalTime => exact fun j t' hj => (hspec j).1.trans (ha.arrivalTime j t' hj)
  case startTime =>
    intro j t' hj
    -- the start time is set on the head, and only once
    refine (hspec j).2.trans ?_
    rw [ha.startTime j t' hj]
    exact getD_found (ha.found j)
  case found =>
    intro j
    dsimp only
    split_ifs with hj
    · exact fun heq => hj.2.2 (Option.some.inj heq)
    · exact ha.found j

theorem Recorded.step (ha : Recorded a) (h : historyStep a e = some a') : Recorded a' := by
  obtain ⟨w, hw, rfl⟩ := Option.map_eq_some_iff.mp h
  rcases step_cases hw with ⟨j, n, t, d, rfl, hj, rfl⟩ | ⟨t, next, s, rfl, hq, rfl⟩ |
    ⟨t, r, rfl, hr, -, rfl⟩
  · exact ha.newJob
  · exact ha.quantum hq
  · refine ⟨fun j hj => ha.queued j ?_, nofun, ha.arrivalTime, ha.startTime, ha.found⟩
    -- whichever job is polled, those behind it were queued
    cases hq : a.world.sched.pqueue with
    | nil => simp [State.departure, hq, Priqueue.poll] at hj
    | cons head rest =>
      have hrest : j ∈ rest := by simpa [State.departure_pqueue hq] using hj
      exact List.mem_cons_of_mem _ hrest

/-! ## Calls that go through -/

/-- A quantum goes through exactly when the heads that it looks at have not finished. -/
theorem Recorded.quantumExpired_iff (ha : Recorded a) {t : ℚ} :
    (∃ next s, a.world.sched.quantumExpired a.world.running t = some (next, s)) ↔
      FindsUnfinished a (.quantumExpired t) := by
  cases hr : a.world.running with
  -- only the head is looked at
  | none =>
    simp only [State.quantumExpired_none, FindsUnfinished, hr]
    constructor
    · rintro ⟨_, _, ⟨hq, -⟩ | ⟨head, hhead, hlive, -⟩⟩ head' rest hq'
      · simp [hq] at hq'
      · obtain rfl : head' = head := by simpa [hq'] using hhead
        exact ⟨hlive, fun _ h => by simp at h⟩
    · intro hfinds
      cases hq : a.world.sched.pqueue with
      | nil => exact ⟨_, _, Or.inl ⟨rfl, rfl, rfl⟩⟩
      | cons head rest => exact ⟨_, _, Or.inr ⟨head, rfl, (hfinds head rest hq).1, rfl, rfl⟩⟩
  | some r =>
    obtain ⟨hmem, hlive⟩ := ha.running r hr
    obtain ⟨head, rest, hq⟩ := List.exists_cons_of_ne_nil (List.ne_nil_of_mem hmem)
    -- the evicted job is offered again, and compared with the queue
    by_cases hpre : isPreemptive a.world.sched.pqueueScheme
    · simp only [State.quantumExpired_preemptive hpre, FindsUnfinished, hr]
      constructor
      · rintro ⟨_, _, head', rest', hq', -, hhead, hcompared, -⟩ head'' rest'' hq''
        obtain ⟨rfl, rfl⟩ := List.cons.inj (hq'.symm.trans hq'')
        exact ⟨hhead, fun r' hr' _ => Option.some.inj hr' ▸ hcompared⟩
      · intro hfinds
        obtain ⟨hhead, hcompared⟩ := hfinds head rest hq
        exact ⟨_, _, head, rest, hq, hlive, hhead, hcompared r rfl hpre, rfl, rfl⟩
    · simp only [State.quantumExpired_keeps hpre, FindsUnfinished, hr]
      constructor
      · rintro ⟨_, _, hhead, -⟩ head' rest' hq'
        exact ⟨hhead head' (by simp [hq']), fun _ _ h => absurd h hpre⟩
      · intro hfinds
        refine ⟨_, _, fun head' hhead' => ?_, hlive, rfl, rfl⟩
        obtain rfl : head = head' := by simpa [hq] using hhead'
        exact (hfinds head rest hq).1

/-- A permitted call goes through exactly when it finds no finished job. -/
theorem Recorded.goesThrough_iff (ha : Recorded a) (hpermits : a.world.permits e) :
    (∃ w', Scheduler.step a.world e = some w') ↔ FindsUnfinished a e := by
  unfold Scheduler.step
  rw [if_pos hpermits]
  cases e with
  | newJob j n t d =>
    simp only [Option.map_eq_some_iff, State.newJob_eq_some]
    constructor
    · rintro ⟨_, _, ⟨hlive, -⟩, -⟩
      exact hlive
    · intro hlive
      exact ⟨_, _, ⟨hlive, rfl⟩, rfl⟩
  | quantumExpired t =>
    have hmap : (∃ w', ((a.world.sched.quantumExpired a.world.running t).map fun (next, s) =>
        (⟨s, a.world.present, next, some t⟩ : World J ℚ)) = some w') ↔
        ∃ next s, a.world.sched.quantumExpired a.world.running t = some (next, s) := by
      simp only [Option.map_eq_some_iff, Prod.exists]
      exact ⟨fun ⟨_, next, s, h, _⟩ => ⟨next, s, h⟩, fun ⟨next, s, h⟩ => ⟨_, next, s, h, rfl⟩⟩
    exact hmap.trans ha.quantumExpired_iff
  | jobFinished t =>
    have hsome : a.world.running.isSome := (Bool.and_eq_true_iff.mp hpermits).2
    obtain ⟨r, hr⟩ := Option.isSome_iff_exists.mp hsome
    have hfree : a.world.sched.jobFinished r t = some (a.world.sched.departure r t) :=
      State.jobFinished_eq_some.mpr ⟨(ha.running r hr).2, rfl⟩
    simp [hr, hfree, FindsUnfinished]

/-- What a job that finishes adds. -/
theorem Recorded.adds (ha : Recorded a) {t : ℚ} {w : World J ℚ} {r : J}
    (hr : a.world.running = some r) (hw : Scheduler.step a.world (.jobFinished t) = some w) :
    ∃ arrival, a.arrived r = some arrival ∧
      w.sched.responseTime - a.world.sched.responseTime = (a.found r).getD (-1) - arrival := by
  rcases step_cases hw with ⟨_, _, _, _, ⟨⟩, -⟩ | ⟨_, _, _, ⟨⟩, -⟩ | ⟨_, r', ⟨⟩, hr', -, rfl⟩
  obtain rfl : r = r' := Option.some.inj (hr.symm.trans hr')
  obtain ⟨arrival, harr⟩ := Option.isSome_iff_exists.mp (ha.queued r (ha.running r hr).1)
  refine ⟨arrival, harr, ?_⟩
  show a.world.sched.responseTime + ((a.world.sched.metadata r).startTime -
    (a.world.sched.metadata r).arrivalTime) - a.world.sched.responseTime = _
  rw [ha.startTime r arrival harr, ha.arrivalTime r arrival harr, add_sub_cancel_left]

/-- **One call.** It is right exactly when it finds no finished job, and a job that finishes was
first found at the head of the queue when it was first returned. -/
theorem Recorded.respondsRight_iff (ha : Recorded a) :
    RespondsRight a e ↔ (a.world.permits e → FindsUnfinished a e ∧ FoundWhenReturned a e) := by
  refine imp_congr_right fun hpermits => ?_
  rw [← ha.goesThrough_iff hpermits]
  constructor
  · rintro ⟨w, hw, hright⟩
    refine ⟨⟨w, hw⟩, ?_⟩
    cases e with
    | newJob j n t d => trivial
    | quantumExpired t => trivial
    | jobFinished t =>
      intro r hr
      obtain ⟨arrival, harr, hadds⟩ := ha.adds hr hw
      obtain ⟨arrival', first, harr', hfirst, heq⟩ := hright t rfl r hr
      obtain rfl : arrival = arrival' := Option.some.inj (harr.symm.trans harr')
      rw [hfirst, sub_left_inj.mp (hadds.symm.trans heq)]
  · rintro ⟨⟨w, hw⟩, hfound⟩
    refine ⟨w, hw, ?_⟩
    rintro t rfl r hr
    obtain ⟨arrival, harr, hadds⟩ := ha.adds hr hw
    exact ⟨arrival, _, harr, hfound r hr, hadds⟩

/-- **Response times.** In every scheme, along every run of the library at times that never
decrease, each call goes through and each finished job adds the time from its arrival to its
first return, if and only if no call looks at a job in the queue that has finished, and each job
that finishes was first found at the head of the queue at the time of its first return. -/
theorem responds_iff {scheme : Scheme} {metadata : J → JobInfo ℚ} {es : List (Event J ℚ)} :
    (∀ a e, Takes historyStep (History.start scheme metadata) es a e → RespondsRight a e) ↔
      ∀ a e, Takes historyStep (History.start scheme metadata) es a e →
        a.world.permits e → FindsUnfinished a e ∧ FoundWhenReturned a e :=
  forall_takes_congr (Recorded.start scheme metadata) (fun _ _ _ ha _ => ha.step)
    fun _ _ ha => ha.respondsRight_iff

/-- Two jobs arrive and run one after the other. -/
def inTurn : List (Event Nat ℚ) :=
  [.newJob 1 1 0 ⟨10, 1⟩, .newJob 2 2 1 ⟨5, 1⟩, .quantumExpired 2, .jobFinished 12,
    .quantumExpired 12, .jobFinished 17]

/-- Two jobs arrive, the second one is given to run after the first and finishes. -/
def secondFinishes : List (Event Nat ℚ) :=
  [.newJob 1 1 0 ⟨10, 1⟩, .newJob 2 2 0 ⟨1, 1⟩, .quantumExpired 0, .quantumExpired 1,
    .jobFinished 2]

/-- A test of a step: the queue holds no freed metadata, and a job that finishes was found at the
head when it was returned. -/
def checkResponse (a : History Nat) : Event Nat ℚ → Bool
  | .jobFinished _ => a.world.sched.pqueue.all a.world.sched.live &&
      a.world.running.all fun r => a.returned r == some ((a.found r).getD (-1))
  | _ => a.world.sched.pqueue.all a.world.sched.live

/-- Under FCFS the two jobs respond after 2 and after 11. -/
theorem responds_iff_inTurn :
    (run historyStep (History.start .fcfs noMetadata) inTurn).map
      (fun a => a.world.sched.responseTime) = some 13 ∧
      ∀ a e, Takes historyStep (History.start .fcfs noMetadata) inTurn a e → RespondsRight a e := by
  -- the condition is checked at each of the steps
  have hcheck : checkRun historyStep checkResponse (History.start .fcfs noMetadata) inTurn =
      true := by
    decide +kernel
  refine ⟨by decide +kernel, responds_iff.mpr fun a e hae _ => ?_⟩
  have h := forall_takes_of_checkRun hcheck a e hae
  cases e with
  | newJob j n t d =>
    have hlive := List.all_eq_true.mp h
    exact ⟨fun i hi => Or.inr (hlive i (Priqueue.compared_subset _ _ _ hi)), trivial⟩
  | quantumExpired t =>
    have hlive := List.all_eq_true.mp h
    refine ⟨?_, trivial⟩
    intro head rest hq
    rw [hq] at hlive
    exact ⟨hlive head List.mem_cons_self, fun r _ _ i hi =>
      hlive i (List.mem_cons_of_mem _ (Priqueue.compared_subset _ _ _ hi))⟩
  | jobFinished t =>
    simp only [checkResponse, Bool.and_eq_true] at h
    refine ⟨trivial, ?_⟩
    intro r hr
    simpa [hr] using h.2

/-- In RR the second job is returned at 1, is never found at the head, and adds -1 to the response
time. In PRI the job that finishes stays in the queue without metadata, and the next quantum finds
it there. -/
theorem responds_wrong :
    (¬ ∀ a e, Takes historyStep (History.start .rr noMetadata) secondFinishes a e →
      RespondsRight a e) ∧
    ¬ ∀ a e, Takes historyStep (History.start .pri noMetadata)
      (lateArrival ++ [.quantumExpired 11]) a e → RespondsRight a e := by
  constructor
  · have hrun : (run historyStep (History.start .rr noMetadata) secondFinishes.dropLast).map
        (fun a => ((a.world.permits (.jobFinished 2), a.world.running, a.arrived 2, a.returned 2),
          a.world.sched.responseTime,
          (step a.world (.jobFinished 2)).map fun w => w.sched.responseTime)) =
        some ((true, some 2, some 0, some 1), 0, some (-1)) := by decide +kernel
    obtain ⟨a, ha, heq⟩ := Option.map_eq_some_iff.mp hrun
    simp only [Prod.mk.injEq, Option.map_eq_some_iff] at heq
    obtain ⟨⟨hpermits, hr, harr, hret⟩, hbefore, w, hw, hafter⟩ := heq
    intro hall
    have htakes : Takes historyStep (History.start .rr noMetadata) secondFinishes a
        (.jobFinished 2) := ⟨secondFinishes.dropLast, List.prefix_rfl, ha⟩
    -- job 2 was first returned at 1, and its response time should have been added
    obtain ⟨w', hw', hright⟩ := hall a _ htakes hpermits
    obtain rfl := Option.some.inj (hw.symm.trans hw')
    obtain ⟨arrival, first, harr', hret', hadds⟩ := hright 2 rfl 2 hr
    obtain rfl := Option.some.inj (harr.symm.trans harr')
    obtain rfl := Option.some.inj (hret.symm.trans hret')
    rw [hbefore, hafter] at hadds
    norm_num at hadds
  · have hrun : (run historyStep (History.start .pri noMetadata) lateArrival).map
        (fun a =>
          (a.world.permits (.quantumExpired 11), (step a.world (.quantumExpired 11)).isNone)) =
        some (true, true) := by decide +kernel
    obtain ⟨a, ha, heq⟩ := Option.map_eq_some_iff.mp hrun
    obtain ⟨hpermits, hnone⟩ := Prod.mk.inj heq
    intro hall
    -- the head of the queue has finished
    obtain ⟨w, hw, -⟩ := hall a _ (Takes.last ha) hpermits
    rw [hw] at hnone
    cases hnone

end SystemProgramming.Scheduler
