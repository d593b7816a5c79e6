import SystemProgramming.Scheduler.Content

/-!
# The remaining times of PSRTF

A job that runs should have the time it runs taken off its `remaining_time`. The scheduler
takes off the time since `start_after_preempt`, which the same call has set to the current
time for the job at the head of the queue, so a job that keeps the head is never charged.

## Main definitions

* `Account`, `Call`, `accountStep`: the scheduler with the time each job has run
* `Accounted`: the remaining times are the running times without the times run
* `ChargedRight`: what the call is given, and finds, when it charges the right time

## Main results

* `remaining_iff`: the remaining times are right after every call exactly when every call
  charges the right time
-/

namespace SystemProgramming.Scheduler

/-- The scheduler, the total time each job was the one last returned, and the time of the last
call of `scheduler_quantum_expired`. -/
structure Account (J : Type) where
  world : World J ℚ
  ran : J → ℚ
  since : ℚ

/-- A call of the library. A quantum expires for the job last returned, or for none. -/
inductive Call (J : Type) where
  | newJob (j : J) (jobNumber : Int) (time : ℚ) (schedData : SchedulerInfo ℚ)
  | quantumExpired (evicted : Option J) (time : ℚ)

variable {J : Type} [DecidableEq J] {a a' : Account J} {c : Call J}

/-- The scheduler just after `scheduler_start_up` for PSRTF. -/
def Account.start (metadata : J → JobInfo ℚ) : Account J :=
  ⟨World.start .psrtf metadata, fun _ => 0, 0⟩

/-- The job last returned has run until now. -/
def Account.ranUntil (a : Account J) (time : ℚ) (j : J) : ℚ :=
  if a.world.running = some j then a.ran j + (time - a.since) else a.ran j

def accountStep (a : Account J) : Call J → Option (Account J)
  | .newJob j n t d =>
    (step a.world (.newJob j n t d)).map fun w =>
      { a with world := w, ran := Function.update a.ran j 0 }
  | .quantumExpired evicted t =>
    if evicted = a.world.running ∨ evicted = none then
      (step { a.world with running := evicted } (.quantumExpired t)).map fun w =>
        { world := w, ran := a.ranUntil t, since := t }
    else none

/-- Each unfinished job has its running time left, but for the time it has run. -/
def Accounted (a : Account J) : Prop :=
  ∀ j ∈ a.world.present, (a.world.sched.metadata j).remainingTime =
    (a.world.sched.metadata j).runningTime - a.ran j

/-- The remaining times are right after a quantum has expired. -/
def AccountedAfter (a : Account J) : Call J → Prop
  | .quantumExpired evicted t =>
    ∀ a', accountStep a (.quantumExpired evicted t) = some a' → Accounted a'
  | _ => True

/-- The evicted job is not the head of the queue, and its `start_after_preempt` is the time it
was last returned; a job that is the head, or is not passed back, has not run. -/
def ChargedRight (a : Account J) : Call J → Prop
  | .quantumExpired evicted t => ∀ r, a.world.running = some r →
    if evicted = some r ∧ a.world.sched.pqueue.head? ≠ some r then
      (a.world.sched.metadata r).startAfterPreempt = a.since
    else t = a.since
  | _ => True

/-- The scheme is PSRTF, the queue holds the present jobs, and the remaining times are right. -/
structure Charging (a : Account J) : Prop where
  scheme : a.world.sched.pqueueScheme = .psrtf
  queued : Queued a.world
  accounted : Accounted a

omit [DecidableEq J] in
theorem Charging.start (metadata : J → JobInfo ℚ) : Charging (Account.start metadata) where
  scheme := rfl
  queued := Queued.start .psrtf metadata
  accounted := nofun

section Quantum

variable {s s' : State J ℚ} {evicted next : Option J} {t : ℚ}

/-- What a quantum takes off the remaining time of a job in PSRTF. -/
theorem quantumExpired_remaining (hs : s.pqueueScheme = .psrtf)
    (h : s.quantumExpired evicted t = some (next, s')) :
    s'.pqueueScheme = .psrtf ∧ ∀ j, (s'.metadata j).runningTime = (s.metadata j).runningTime ∧
      (s'.metadata j).remainingTime = (s.metadata j).remainingTime -
        if evicted = some j ∧ s.pqueue.head? ≠ some j then
          t - (s.metadata j).startAfterPreempt else 0 := by
  rcases State.quantumExpired_cases h with ⟨-, rfl, -, rfl⟩ | ⟨head, -, rfl, -, rfl⟩ |
    ⟨r, head, rest, rfl, -, hq, -, rfl⟩ | ⟨r, -, hpre, -⟩
  · simp [hs]
  · refine ⟨hs, fun j => ⟨rfl, ?_⟩⟩
    simp [State.dispatched, State.started]
  · refine ⟨hs, fun j => ⟨rfl, ?_⟩⟩
    by_cases hj : j = r
    · subst hj
      by_cases hhead : head = j <;>
        simp [State.charged, State.dispatched, hq, hhead]
    · simp [State.charged, hj, Ne.symm hj]
  · simp [hs, isPreemptive] at hpre

end Quantum

/-- An arrival leaves the accounts of the other jobs, and opens one. -/
theorem Charging.newJob (ha : Charging a) {j : J} {n : Int} {t : ℚ} {d : SchedulerInfo ℚ}
    (h : accountStep a (.newJob j n t d) = some a') : Charging a' := by
  obtain ⟨w, hw, rfl⟩ := Option.map_eq_some_iff.mp h
  have hqueued := ha.queued.step (e := .newJob j n t d) trivial hw
  rcases step_cases hw with ⟨j', n', t', d', heq, hj, rfl⟩ | ⟨_, _, _, ⟨⟩, -⟩ | ⟨_, _, ⟨⟩, -⟩
  cases heq
  refine ⟨ha.scheme, hqueued, fun i hi => ?_⟩
  by_cases hij : i = j
  · subst hij
    show (Function.update a.world.sched.metadata i _ i).remainingTime =
      (Function.update a.world.sched.metadata i _ i).runningTime - Function.update a.ran i 0 i
    simp only [Function.update_self, sub_zero]
    rfl
  · have hmem : i ∈ a.world.present := (List.mem_cons.mp hi).resolve_left hij
    show (Function.update a.world.sched.metadata j _ i).remainingTime =
      (Function.update a.world.sched.metadata j _ i).runningTime - Function.update a.ran j 0 i
    rw [Function.update_of_ne hij, Function.update_of_ne hij]
    exact ha.accounted i hmem

/-- What the evicted job is charged is the time it has run exactly when the call finds it right. -/
theorem chargedRight_iff {evicted : Option J} {t : ℚ} :
    ChargedRight a (.quantumExpired evicted t) ↔ ∀ r, a.world.running = some r →
      (if evicted = some r ∧ a.world.sched.pqueue.head? ≠ some r then
        t - (a.world.sched.metadata r).startAfterPreempt else 0) = t - a.since := by
  refine forall₂_congr fun r _ => ?_
  split_ifs
  · exact (sub_right_inj).symm
  · exact ⟨fun h => by rw [h, sub_self], fun h => sub_eq_zero.mp h.symm⟩

/-- **One quantum.** The remaining times stay right exactly when the right time is charged. -/
theorem Charging.quantum (ha : Charging a) {evicted : Option J} {t : ℚ}
    (h : accountStep a (.quantumExpired evicted t) = some a') :
    a'.world.sched.pqueueScheme = .psrtf ∧ Queued a'.world ∧
      (Accounted a' ↔ ChargedRight a (.quantumExpired evicted t)) := by
  simp only [accountStep, Option.ite_none_right_eq_some, Option.map_eq_some_iff] at h
  obtain ⟨hev, w, hw, rfl⟩ := h
  have hgiven : Queued { a.world with running := evicted } :=
    ⟨ha.queued.perm, ha.queued.nodup, fun r hr => by
      rcases hev with rfl | rfl
      · exact ha.queued.running r hr
      · cases hr⟩
  have hqueued := hgiven.step (e := .quantumExpired t) trivial hw
  rcases step_cases hw with ⟨_, _, _, _, ⟨⟩, -⟩ | ⟨t', next, s, heq, hq, rfl⟩ | ⟨_, _, ⟨⟩, -⟩
  cases heq
  obtain ⟨hscheme, hspec⟩ := quantumExpired_remaining ha.scheme hq
  refine ⟨hscheme, hqueued, ?_⟩
  rw [chargedRight_iff]
  constructor
  · intro hacc r hr
    have hmem := ha.queued.running r hr
    have hnew := hacc r hmem
    rw [(hspec r).1, (hspec r).2, ha.accounted r hmem] at hnew
    simp only [Account.ranUntil, hr, if_true] at hnew
    linarith
  · intro hcharge j hj
    rw [(hspec j).1, (hspec j).2, ha.accounted j hj]
    by_cases hr : a.world.running = some j
    · simp only [Account.ranUntil, hr, if_true]
      linarith [hcharge j hr]
    · -- only the job last returned is passed back
      have hne : evicted ≠ some j := by
        rcases hev with rfl | rfl
        · exact hr
        · nofun
      simp [Account.ranUntil, hr, hne]

theorem Charging.step (ha : Charging a) (hc : ChargedRight a c) (h : accountStep a c = some a') :
    Charging a' := by
  cases c with
  | newJob j n t d => exact ha.newJob h
  | quantumExpired evicted t =>
    obtain ⟨hscheme, hqueued, hiff⟩ := ha.quantum h
    exact ⟨hscheme, hqueued, hiff.mpr hc⟩

/-- **Remaining times of PSRTF.** Along every run of arrivals and expiring quanta at times
that never decrease, the remaining times are right after each quantum if and only if each
quantum charges the evicted job from the time it was returned. -/
theorem remaining_iff {metadata : J → JobInfo ℚ} {cs : List (Call J)}
    (hrun : run accountStep (Account.start metadata) cs = some a') :
    (∀ a c, Takes accountStep (Account.start metadata) cs a c → AccountedAfter a c) ↔
      ∀ a c, Takes accountStep (Account.start metadata) cs a c → ChargedRight a c := by
  refine forall_takes_iff (Charging.start metadata) (fun _ _ _ => Charging.step) ?_ hrun
  intro a c a' ha h
  cases c with
  | newJob j n t d => exact Iff.rfl
  | quantumExpired evicted t =>
    rw [← (ha.quantum h).2.2]
    exact ⟨fun hd => hd _ h, fun hacc a'' h' => Option.some.inj (h.symm.trans h') ▸ hacc⟩

/-- A job runs for a quantum and keeps running. -/
def keepsRunning : List (Call Nat) :=
  [.newJob 1 1 0 ⟨10, 1⟩, .quantumExpired none 0, .quantumExpired (some 1) 4]

theorem remaining_iff_keepsRunning :
    (∃ a', run accountStep (Account.start noMetadata) keepsRunning = some a') ∧
      ((∀ a c, Takes accountStep (Account.start noMetadata) keepsRunning a c →
          AccountedAfter a c) ↔
        ∀ a c, Takes accountStep (Account.start noMetadata) keepsRunning a c →
          ChargedRight a c) := by
  have hsome : (run accountStep (Account.start noMetadata) keepsRunning).isSome := by decide
  obtain ⟨a', ha'⟩ := Option.isSome_iff_exists.mp hsome
  exact ⟨⟨a', ha'⟩, remaining_iff ha'⟩

/-- After that run the job has run for 4, and all of its 10 are left. -/
theorem remaining_wrong :
    ¬ ∀ a c, Takes accountStep (Account.start noMetadata) keepsRunning a c →
      AccountedAfter a c := by
  have hrun : (run accountStep (Account.start noMetadata) keepsRunning).map
      (fun a => (a.world.present, (a.world.sched.metadata 1).remainingTime,
        (a.world.sched.metadata 1).runningTime, a.ran 1)) = some ([1], 10, 10, 4) := by
    decide +kernel
  obtain ⟨a', ha', heq⟩ := Option.map_eq_some_iff.mp hrun
  simp only [Prod.mk.injEq] at heq
  obtain ⟨hpresent, hremaining, hrunning, hran⟩ := heq
  have hsplit : run accountStep (Account.start noMetadata)
      (keepsRunning.dropLast ++ [.quantumExpired (some 1) 4]) = some a' := ha'
  obtain ⟨a, ha, hstep⟩ := run_snoc_eq_some.mp hsplit
  intro hall
  have hacc := hall a _ (Takes.last ha) a' hstep 1 (by simp [hpresent])
  rw [hremaining, hrunning, hran] at hacc
  norm_num at hacc

end SystemProgramming.Scheduler
