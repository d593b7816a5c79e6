import SystemProgramming.Foundation.Run
import SystemProgramming.Scheduler.Quantum

/-!
# What the scheduler's queue holds

The simulator tells the scheduler about new jobs, expired quanta and finished jobs, and the
job it passes back is the one it was last given to run. The queue should hold the jobs that
have arrived and not finished. `scheduler_job_finished` polls the head of the queue instead
of the job it is given, and an arrival may have changed the head.

## Main definitions

* `World`, `Event`, `step`: the scheduler with what the simulator knows
* `Content`: the queue holds exactly the present jobs, each once
* `FinishesHead`: a finished job is the head of the queue

## Main results

* `content_iff`: the queue is right all along a run exactly when every finished job was the
  head of the queue at that moment
-/

namespace SystemProgramming.Scheduler

/-- The scheduler, the jobs that have arrived and not finished, the job last returned and not
finished, and the time of the last call. -/
structure World (J T : Type) where
  sched : State J T
  present : List J
  running : Option J
  clock : Option T

/-- A call of the library. -/
inductive Event (J T : Type) where
  | newJob (j : J) (jobNumber : Int) (time : T) (schedData : SchedulerInfo T)
  | quantumExpired (time : T)
  | jobFinished (time : T)

variable {J T : Type} {w w' : World J T} {e : Event J T}

def Event.time : Event J T → T
  | .newJob _ _ time _ => time
  | .quantumExpired time => time
  | .jobFinished time => time

/-- The queue holds exactly the jobs that have arrived and not finished, each once. -/
def Content (w : World J T) : Prop :=
  w.sched.pqueue.Nodup ∧ ∀ j, j ∈ w.sched.pqueue ↔ j ∈ w.present

/-- A job that finishes is the head of the queue. -/
def FinishesHead (w : World J T) : Event J T → Prop
  | .jobFinished _ => w.sched.pqueue.head? = w.running
  | _ => True

/-- The queue is right, jobs are present once, and the running job is present. -/
structure Queued (w : World J T) : Prop where
  perm : w.sched.pqueue.Perm w.present
  nodup : w.present.Nodup
  running : ∀ r, w.running = some r → r ∈ w.present

theorem Queued.content (h : Queued w) : Content w :=
  ⟨h.perm.nodup_iff.mpr h.nodup, fun _ => h.perm.mem_iff⟩

/-- The library just after `scheduler_start_up`. -/
def World.start [Zero T] (scheme : Scheme) (metadata : J → JobInfo T) : World J T :=
  ⟨startUp scheme metadata, [], none, none⟩

theorem Queued.start [Zero T] (scheme : Scheme) (metadata : J → JobInfo T) :
    Queued (World.start scheme metadata) :=
  ⟨List.Perm.refl _, List.nodup_nil, fun r hr => by simp [World.start] at hr⟩

/-! ## Runs -/

variable [DecidableEq J] [One T] [Neg T] [Add T] [Sub T] [BEq T] [LT T] [DecidableLT T]

/-- Times never decrease. -/
def World.notBefore (w : World J T) (time : T) : Bool := w.clock.all fun t => ¬ time < t

/-- What the simulator may call: times never decrease, a job arrives only while it is not there
already, and only a running job finishes. -/
def World.permits (w : World J T) (e : Event J T) : Bool :=
  w.notBefore e.time &&
    match e with
    | .newJob j _ _ _ => j ∉ w.present
    | .quantumExpired _ => true
    | .jobFinished _ => w.running.isSome

/-- One call. It has no result where it uses metadata that was freed. -/
def step (w : World J T) (e : Event J T) : Option (World J T) :=
  if w.permits e then
    match e with
    | .newJob j n time d =>
      (w.sched.newJob j n time d).map fun s => ⟨s, j :: w.present, w.running, some time⟩
    | .quantumExpired time =>
      (w.sched.quantumExpired w.running time).map fun (next, s) => ⟨s, w.present, next, some time⟩
    | .jobFinished time => do
      let r ← w.running
      let s ← w.sched.jobFinished r time
      some ⟨s, w.present.erase r, none, some time⟩
  else none

/-- What a call does to the queue and to the present jobs. -/
theorem step_cases (h : step w e = some w') :
    (∃ j n t d, e = .newJob j n t d ∧ j ∉ w.present ∧
      w' = ⟨w.sched.arrival j n t d, j :: w.present, w.running, some t⟩) ∨
    (∃ t next s, e = .quantumExpired t ∧ w.sched.quantumExpired w.running t = some (next, s) ∧
      w' = ⟨s, w.present, next, some t⟩) ∨
    ∃ t r, e = .jobFinished t ∧ w.running = some r ∧ w.sched.live r ∧
      w' = ⟨w.sched.departure r t, w.present.erase r, none, some t⟩ := by
  unfold step at h
  split_ifs at h with hpermits
  cases e with
  | newJob j n t d =>
    obtain ⟨s, hs, rfl⟩ := Option.map_eq_some_iff.mp h
    obtain ⟨-, rfl⟩ := State.newJob_eq_some.mp hs
    have hj : j ∉ w.present := by simpa [World.permits] using (Bool.and_eq_true_iff.mp hpermits).2
    exact Or.inl ⟨j, n, t, d, rfl, hj, rfl⟩
  | quantumExpired t =>
    obtain ⟨⟨next, s⟩, hq, rfl⟩ := Option.map_eq_some_iff.mp h
    exact Or.inr (Or.inl ⟨t, next, s, rfl, hq, rfl⟩)
  | jobFinished t =>
    simp only [Option.bind_eq_bind, Option.bind_eq_some_iff, State.jobFinished_eq_some,
      Option.some.injEq] at h
    obtain ⟨r, hr, _, ⟨hlive, rfl⟩, rfl⟩ := h
    exact Or.inr (Or.inr ⟨t, r, rfl, hr, hlive, rfl⟩)

/-- A call keeps the queue right when a job that finishes is the head of the queue. -/
theorem Queued.step (hw : Queued w) (hc : FinishesHead w e) (h : step w e = some w') :
    Queued w' := by
  rcases step_cases h with ⟨j, n, t, d, rfl, hj, rfl⟩ | ⟨t, next, s, rfl, hq, rfl⟩ |
    ⟨t, r, rfl, hr, -, rfl⟩
  · refine ⟨(State.arrival_perm ..).trans (hw.perm.cons j), List.nodup_cons.mpr ⟨hj, hw.nodup⟩, ?_⟩
    intro r hr
    exact List.mem_cons_of_mem _ (hw.running r hr)
  · obtain ⟨hperm, -, hnext⟩ := State.quantumExpired_spec hq
    refine ⟨hperm.trans hw.perm, hw.nodup, fun j hj => ?_⟩
    rcases hnext j hj with hmem | hev
    · exact hw.perm.mem_iff.mp hmem
    · exact hw.running j hev
  · have hhead : w.sched.pqueue.head? = some r := hr ▸ hc
    obtain ⟨rest, hrest⟩ := List.head?_eq_some_iff.mp hhead
    refine ⟨?_, hw.nodup.erase r, fun _ h => by simp at h⟩
    dsimp only
    rw [State.departure_pqueue hrest]
    have hperm := (hrest ▸ hw.perm).erase r
    simpa using hperm

/-- A job that finishes without being the head of the queue leaves the head missing. -/
theorem Queued.not_content (hw : Queued w) (hc : ¬ FinishesHead w e)
    (h : Scheduler.step w e = some w') : ¬ Content w' := by
  rcases step_cases h with ⟨j, n, t, d, rfl, hj, rfl⟩ | ⟨t, next, s, rfl, hq, rfl⟩ |
    ⟨t, r, rfl, hr, -, rfl⟩
  · exact absurd trivial hc
  · exact absurd trivial hc
  · rintro ⟨-, hiff⟩
    have hmem : r ∈ w.sched.pqueue := hw.perm.mem_iff.mpr (hw.running r hr)
    cases hq : w.sched.pqueue with
    | nil => simp [hq] at hmem
    | cons head rest =>
      have hne : head ≠ r := fun heq => hc (by simp [FinishesHead, hq, hr, heq])
      have hpoll : (w.sched.departure r t).pqueue = rest := State.departure_pqueue hq
      -- the head was polled, but it is still present
      have hpresent : head ∈ w.present.erase r :=
        (List.mem_erase_of_ne hne).mpr (hw.perm.mem_iff.mp (by simp [hq]))
      have hrest : head ∈ rest := hpoll ▸ (hiff head).mpr hpresent
      have hnodup : (head :: rest).Nodup := hq ▸ hw.perm.nodup_iff.mpr hw.nodup
      exact (List.nodup_cons.mp hnodup).1 hrest

/-- **Queue content.** Along a run of the library, in any scheme, the queue always holds
exactly the jobs that have arrived and not finished if and only if every job that finished
was the head of the queue when it did. -/
theorem content_iff [Zero T] {scheme : Scheme} {metadata : J → JobInfo T} {es : List (Event J T)}
    (hrun : run step (World.start scheme metadata) es = some w') :
    (∀ w, Visits step (World.start scheme metadata) es w → Content w) ↔
      ∀ w e, Takes step (World.start scheme metadata) es w e → FinishesHead w e :=
  forall_visits_iff (Queued.start scheme metadata) (fun _ _ _ => Queued.step)
    (fun _ => Queued.content) (fun _ _ _ => Queued.not_content) hrun

/-- A job of lower priority runs, one of higher priority arrives, the first one finishes. -/
def lateArrival : List (Event Nat ℚ) :=
  [.newJob 1 1 0 ⟨10, 5⟩, .quantumExpired 0, .newJob 2 2 3 ⟨10, 1⟩, .jobFinished 10]

/-- Metadata before any job arrives. -/
def noMetadata : Nat → JobInfo ℚ := fun _ => ⟨0, 0, 0, 0, 0, 0, 0, 0⟩

theorem content_iff_lateArrival :
    (∃ w', run step (World.start .pri noMetadata) lateArrival = some w') ∧
      ((∀ w, Visits step (World.start .pri noMetadata) lateArrival w → Content w) ↔
        ∀ w e, Takes step (World.start .pri noMetadata) lateArrival w e → FinishesHead w e) := by
  have hsome : (run step (World.start .pri noMetadata) lateArrival).isSome := by decide
  obtain ⟨w', hw'⟩ := Option.isSome_iff_exists.mp hsome
  exact ⟨⟨w', hw'⟩, content_iff hw'⟩

/-- After that run the queue holds the job that finished, and not the one that waits. -/
theorem content_lost :
    ∃ w : World Nat ℚ, run step (World.start .pri noMetadata) lateArrival = some w ∧
      w.sched.pqueue = [1] ∧ w.present = [2] ∧ ¬ Content w := by
  have hw : (run step (World.start .pri noMetadata) lateArrival).map
      (fun w => (w.sched.pqueue, w.present)) = some ([1], [2]) := by decide
  obtain ⟨w, hrun, heq⟩ := Option.map_eq_some_iff.mp hw
  obtain ⟨hq, hp⟩ := Prod.mk.inj heq
  refine ⟨w, hrun, hq, hp, fun hc => ?_⟩
  have := (hc.2 1).mp (by simp [hq])
  simp [hp] at this

end SystemProgramming.Scheduler
