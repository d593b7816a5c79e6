import SystemProgramming.Scheduler.Content

/-!
# Which job a preemptive scheme gives to run

The list of the queue is sorted by offers alone, but `scheduler_quantum_expired` gives the
evicted job its new key while it is queued, and offers the head again instead of the evicted
job. In PPRI the keys never change. In PSRTF the head stays the head, whatever the evicted job
has left to run. In RR only the first two jobs are compared.

## Main definitions

* `dispatchStep`: a call at a later time than the one before, and no job finishes
* `Least`: no other queued job comes before the job to run
* `InOrder`: what the queue has to be like when a quantum expires

## Main results

* `dispatch_iff`: the job returned is always a least one exactly when every quantum expires
  with the queue in order
-/

namespace SystemProgramming.Scheduler

variable {J : Type} [DecidableEq J] {w w' : World J ℚ} {e : Event J ℚ}

/-- The job to run compares less than or equal to every other queued job. -/
def Least (w : World J ℚ) : Prop :=
  ∀ r, w.running = some r → ∀ j ∈ w.sched.pqueue, j ≠ r → w.sched.comparer r j ≤ 0

/-- A call of `scheduler_new_job` or `scheduler_quantum_expired`, later than the call before. -/
def dispatchStep (w : World J ℚ) (e : Event J ℚ) : Option (World J ℚ) :=
  match e with
  | .jobFinished _ => none
  | e => if w.clock.all (· < e.time) then step w e else none

/-- A quantum that expires makes the scheduler return a least job. -/
def DispatchesLeast (w : World J ℚ) : Event J ℚ → Prop
  | .quantumExpired t => ∀ w', dispatchStep w (.quantumExpired t) = some w' → Least w'
  | _ => True

/-- The metadata of a job, with the `next_time` that the evicted job `r` gets. -/
def World.rekeyed (w : World J ℚ) (r : J) (t : ℚ) (j : J) : JobInfo ℚ :=
  { w.sched.metadata j with
    nextTime := if j = r then t else (w.sched.metadata j).nextTime }

/-- The evicted job without the time it has run since it was given to run. -/
def World.afterRunning (w : World J ℚ) (r : J) (t : ℚ) : JobInfo ℚ :=
  { w.sched.metadata r with
    remainingTime := (w.sched.metadata r).remainingTime -
      (t - (w.sched.metadata r).startAfterPreempt) }

/-- In PSRTF an evicted job that is not the head still does not come before the head, with
the time it has run taken off. In RR no job behind the first two comes before both of them. -/
def InOrder (w : World J ℚ) : Event J ℚ → Prop
  | .quantumExpired t => ∀ r head rest, w.running = some r → w.sched.pqueue = head :: rest →
    match w.sched.pqueueScheme with
    | .psrtf => r ≠ head → comparerPsrtf (w.sched.metadata head) (w.afterRunning r t) ≤ 0
    | .rr => ∀ second tail, rest = second :: tail → ∀ j ∈ tail,
      comparerRr (w.rekeyed r t head) (w.rekeyed r t j) ≤ 0 ∨
        comparerRr (w.rekeyed r t second) (w.rekeyed r t j) ≤ 0
    | _ => True
  | _ => True

/-- What the queue keeps: jobs arrived at different times, and none comes before the head. -/
structure Ordered (w : World J ℚ) : Prop where
  queued : Queued w
  preemptive : isPreemptive w.sched.pqueueScheme
  arrived : ∀ j ∈ w.sched.pqueue, ∃ t ∈ w.clock, (w.sched.metadata j).arrivalTime ≤ t
  distinct : ∀ i ∈ w.sched.pqueue, ∀ j ∈ w.sched.pqueue,
    (w.sched.metadata i).arrivalTime = (w.sched.metadata j).arrivalTime → i = j
  least : ∀ head ∈ w.sched.pqueue.head?, ∀ j ∈ w.sched.pqueue,
    rank w.sched.pqueueScheme (w.sched.metadata head) ≤
      rank w.sched.pqueueScheme (w.sched.metadata j)

omit [DecidableEq J] in
theorem Ordered.start {scheme : Scheme} (hpre : isPreemptive scheme)
    (metadata : J → JobInfo ℚ) : Ordered (World.start scheme metadata) where
  queued := Queued.start scheme metadata
  preemptive := hpre
  arrived := nofun
  distinct := nofun
  least := nofun

omit [DecidableEq J] in
theorem least_iff : Least w ↔ ∀ r, w.running = some r → ∀ j ∈ w.sched.pqueue,
    rank w.sched.pqueueScheme (w.sched.metadata r) ≤
      rank w.sched.pqueueScheme (w.sched.metadata j) := by
  simp only [Least, State.comparer, comparisionFunc_nonpos]
  refine forall₂_congr fun r _ => forall₂_congr fun j _ => ⟨fun h => ?_, fun h _ => h⟩
  by_cases hj : j = r
  · rw [hj]
  · exact h hj

/-- Such a call is a call of the library at a later time, and no job finishes. -/
theorem dispatchStep_spec (h : dispatchStep w e = some w') :
    step w e = some w' ∧ (∀ t ∈ w.clock, t < e.time) ∧ FinishesHead w e := by
  cases e with
  | jobFinished t => simp [dispatchStep] at h
  | newJob j n t d =>
    simp only [dispatchStep, Option.ite_none_right_eq_some, Option.all_eq_true] at h
    exact ⟨h.2, by simpa using h.1, trivial⟩
  | quantumExpired t =>
    simp only [dispatchStep, Option.ite_none_right_eq_some, Option.all_eq_true] at h
    exact ⟨h.2, by simpa using h.1, trivial⟩

omit [DecidableEq J] in
/-- Different jobs of the queue have different ranks. -/
theorem Ordered.rank_lt (hw : Ordered w) {head : J} {rest : List J}
    (hq : w.sched.pqueue = head :: rest) {j : J} (hj : j ∈ rest) :
    rank w.sched.pqueueScheme (w.sched.metadata head) <
      rank w.sched.pqueueScheme (w.sched.metadata j) := by
  have hmem : j ∈ w.sched.pqueue := hq ▸ List.mem_cons_of_mem _ hj
  have hhead : head ∈ w.sched.pqueue := hq ▸ List.mem_cons_self
  refine lt_of_le_of_ne (hw.least head (by simp [hq]) j hmem) fun heq => ?_
  have harr : (w.sched.metadata head).arrivalTime = (w.sched.metadata j).arrivalTime :=
    congrArg (fun p => (ofLex p).2) heq
  obtain rfl := hw.distinct head hhead j hmem harr
  have hnodup : (head :: rest).Nodup := hq ▸ hw.queued.content.1
  exact (List.nodup_cons.mp hnodup).1 hj

/-! ## An arrival -/

section Arrival

variable {s : State J ℚ} {j : J} {n : Int} {t : ℚ} {d : SchedulerInfo ℚ}

theorem arrival_metadata_of_ne {i : J} (hi : i ≠ j) :
    (s.arrival j n t d).metadata i = s.metadata i :=
  Function.update_of_ne hi _ _

theorem arrival_arrivalTime : ((s.arrival j n t d).metadata j).arrivalTime = t := by
  show (Function.update s.metadata j _ j).arrivalTime = t
  rw [Function.update_self]
  rfl

/-- The head of the queue after an arrival is the new job, or the head from before where that
one does not come after the new job. -/
theorem arrival_head? {head : J} (h : head ∈ (s.arrival j n t d).pqueue.head?) :
    (head = j ∧ ∀ y ∈ s.pqueue.head?, (s.arrival j n t d).comparer j y < 0) ∨
      head ∈ s.pqueue.head? ∧ ¬ (s.arrival j n t d).comparer j head < 0 := by
  have hoffer : (s.arrival j n t d).pqueue.head? =
      s.pqueue.head?.elim (some j) fun y =>
        if (s.arrival j n t d).comparer j y < 0 then some j else some y :=
    Priqueue.head?_offer j s.pqueue
  rw [hoffer] at h
  cases hq : s.pqueue.head? with
  | none =>
    rw [hq] at h
    exact Or.inl ⟨(Option.some.inj h).symm, nofun⟩
  | some y =>
    rw [hq] at h
    simp only [Option.elim_some] at h
    split_ifs at h with hlt
    · refine Or.inl ⟨(Option.some.inj h).symm, fun z hz => ?_⟩
      obtain rfl : y = z := Option.some.inj hz
      exact hlt
    · obtain rfl : y = head := Option.some.inj h
      exact Or.inr ⟨rfl, hlt⟩

end Arrival

/-- An arrival keeps the queue in order: it comes later than every job that is there. -/
theorem Ordered.newJob (hw : Ordered w) {j : J} {n : Int} {t : ℚ} {d : SchedulerInfo ℚ}
    (hj : j ∉ w.present) (ht : ∀ c ∈ w.clock, c < t)
    (hqueued : Queued ⟨w.sched.arrival j n t d, j :: w.present, w.running, some t⟩) :
    Ordered ⟨w.sched.arrival j n t d, j :: w.present, w.running, some t⟩ := by
  have hperm := State.arrival_perm w.sched j n t d
  have hmem {i : J} (hi : i ∈ (w.sched.arrival j n t d).pqueue) : i = j ∨ i ∈ w.sched.pqueue :=
    List.mem_cons.mp (hperm.mem_iff.mp hi)
  have hold {i : J} (hi : i ∈ w.sched.pqueue) :
      (w.sched.arrival j n t d).metadata i = w.sched.metadata i := by
    apply arrival_metadata_of_ne
    rintro rfl
    exact hj (hw.queued.perm.mem_iff.mp hi)
  have hbefore {i : J} (hi : i ∈ w.sched.pqueue) : (w.sched.metadata i).arrivalTime < t := by
    obtain ⟨c, hc, hle⟩ := hw.arrived i hi
    exact lt_of_le_of_lt hle (ht c hc)
  refine ⟨hqueued, hw.preemptive, ?_, ?_, ?_⟩
  · intro i hi
    refine ⟨t, rfl, ?_⟩
    rcases hmem hi with rfl | hi
    · exact arrival_arrivalTime.le
    · dsimp only
      rw [hold hi]
      exact (hbefore hi).le
  · intro i hi k hk heq
    dsimp only at heq
    rcases hmem hi with rfl | hi' <;> rcases hmem hk with hkj | hk'
    · exact hkj.symm
    · rw [arrival_arrivalTime, hold hk'] at heq
      exact absurd heq (hbefore hk').ne'
    · rw [hkj, arrival_arrivalTime, hold hi'] at heq
      exact absurd heq (hbefore hi').ne
    · rw [hold hi', hold hk'] at heq
      exact hw.distinct i hi' k hk' heq
  · intro head hhead i hi
    show rank w.sched.pqueueScheme ((w.sched.arrival j n t d).metadata head) ≤
      rank w.sched.pqueueScheme ((w.sched.arrival j n t d).metadata i)
    rcases arrival_head? hhead with ⟨rfl, hlt⟩ | ⟨hhead, hle⟩
    · rcases hmem hi with rfl | hi
      · exact le_rfl
      · -- the old head comes after the new job, and no other job before the old head
        obtain ⟨y, rest, hq⟩ := List.exists_cons_of_ne_nil (List.ne_nil_of_mem hi)
        have hy : y ∈ w.sched.pqueue.head? := by simp [hq]
        have hlt := (comparisionFunc_neg _ _ _).mp (hlt y hy)
        rw [hold (List.mem_of_head? hy)] at hlt
        exact (hold hi) ▸ (hlt.le.trans (hw.least y hy i hi))
    · have hmemhead := List.mem_of_head? hhead
      rcases hmem hi with rfl | hi
      · exact le_of_not_gt fun hgt => hle ((comparisionFunc_neg _ _ _).mpr hgt)
      · rw [hold hmemhead, hold hi]
        exact hw.least head hhead i hi

/-! ## A quantum that expires -/

section Quantum

variable {t : ℚ} {r head : J} {rest : List J} {next : Option J} {s : State J ℚ}

theorem rank_dispatched (scheme : Scheme) (j : J) :
    rank scheme (s.dispatched t j) = rank scheme (s.metadata j) := by
  cases scheme <;> rfl

/-- In PPRI and in PSRTF the head that is polled goes back to the front: no key changes before
it is offered. -/
theorem Ordered.offer_head (hw : Ordered w) (hrr : w.sched.pqueueScheme ≠ .rr)
    (hq : w.sched.pqueue = head :: rest) :
    (Priqueue.offer (w.sched.requeuedComparer r t) rest head).1 = head :: rest := by
  have hsame (j : J) : rank w.sched.pqueueScheme (w.sched.requeued r t j) =
      rank w.sched.pqueueScheme (w.sched.metadata j) := by
    cases hs : w.sched.pqueueScheme with
    | rr => exact absurd hs hrr
    | _ => rfl
  apply Priqueue.offer_eq_cons
  intro y hy
  rw [State.requeuedComparer, comparisionFunc_neg, hsame, hsame]
  exact hw.rank_lt hq (List.mem_of_head? hy)

/-- PPRI: the keys never change, so the head is a least job. -/
theorem Ordered.least_ppri (hw : Ordered w) (hs : w.sched.pqueueScheme = .ppri)
    (hq : w.sched.pqueue = head :: rest) : ∀ j ∈ rest,
      rank .ppri (w.sched.charged r t head) ≤ rank .ppri (w.sched.charged r t j) := by
  intro j hj
  have hlt := hw.rank_lt hq hj
  rw [hs] at hlt
  exact hlt.le

/-- The head is charged nothing: its `start_after_preempt` is the current time by then. -/
theorem remainingTime_charged_head (hq : w.sched.pqueue.head? = some head) :
    (w.sched.charged r t head).remainingTime = (w.sched.metadata head).remainingTime := by
  simp [State.charged, State.dispatched, hq]

/-- PSRTF: the head is a least job if it does not come after the evicted one. -/
theorem Ordered.least_psrtf (hw : Ordered w) (hs : w.sched.pqueueScheme = .psrtf)
    (hq : w.sched.pqueue = head :: rest) (hr : r ∈ w.sched.pqueue) :
    (∀ j ∈ rest, rank .psrtf (w.sched.charged r t head) ≤ rank .psrtf (w.sched.charged r t j)) ↔
      (r ≠ head → comparerPsrtf (w.sched.metadata head) (w.afterRunning r t) ≤ 0) := by
  have hhead : w.sched.pqueue.head? = some head := by simp [hq]
  have hrank : rank .psrtf (w.sched.charged r t head) = rank .psrtf (w.sched.metadata head) :=
    congrArg toLex (Prod.ext (remainingTime_charged_head hhead) rfl)
  have hother {j : J} (hj : j ≠ r) :
      rank .psrtf (w.sched.charged r t j) = rank .psrtf (w.sched.metadata j) := by
    refine congrArg toLex (Prod.ext ?_ rfl)
    simp [key, State.charged, hj]
  have hevicted (hne : r ≠ head) :
      rank .psrtf (w.sched.charged r t r) = rank .psrtf (w.afterRunning r t) := by
    refine congrArg toLex (Prod.ext ?_ rfl)
    simp [key, State.charged, State.dispatched, World.afterRunning, hhead, hne.symm]
  have hlt {j : J} (hj : j ∈ rest) :
      rank .psrtf (w.sched.metadata head) < rank .psrtf (w.sched.metadata j) := by
    have := hw.rank_lt hq hj
    rwa [hs] at this
  constructor
  · intro h hne
    have hmem : r ∈ rest := (List.mem_cons.mp (hq ▸ hr)).resolve_left hne
    have hle := h r hmem
    rw [hrank, hevicted hne] at hle
    exact (comparisionFunc_nonpos .psrtf _ _).mpr hle
  · intro h j hj
    rw [hrank]
    by_cases hjr : j = r
    · subst hjr
      have hne : j ≠ head := by
        rintro rfl
        exact lt_irrefl _ (hlt hj)
      rw [hevicted hne]
      exact (comparisionFunc_nonpos .psrtf _ _).mp (h hne)
    · rw [hother hjr]
      exact (hlt hj).le

omit [DecidableEq J] in
/-- RR: the offer compares the head with the second job, and the lower one is returned. -/
theorem least_rr_iff (ρ : J → ℚ ×ₗ ℚ) {first : J} {q : List J}
    (hperm : q.Perm (head :: rest))
    (hfirst : rest.head?.elim (some head) (fun y => if ρ head < ρ y then some head else some y) =
      some first) :
    (∀ j ∈ q, ρ first ≤ ρ j) ↔
      ∀ second tail, rest = second :: tail → ∀ j ∈ tail, ρ head ≤ ρ j ∨ ρ second ≤ ρ j := by
  cases rest with
  | nil =>
    obtain rfl : head = first := Option.some.inj hfirst
    refine ⟨fun _ _ _ => nofun, fun _ j hj => ?_⟩
    rw [List.mem_singleton.mp (hperm.mem_iff.mp hj)]
  | cons second tail =>
    simp only [List.head?_cons, Option.elim_some] at hfirst
    have hmin : (first = head ∨ first = second) ∧ ρ first ≤ ρ head ∧ ρ first ≤ ρ second := by
      split_ifs at hfirst with hlt
      · obtain rfl : head = first := Option.some.inj hfirst
        exact ⟨Or.inl rfl, le_rfl, hlt.le⟩
      · obtain rfl : second = first := Option.some.inj hfirst
        exact ⟨Or.inr rfl, le_of_not_gt hlt, le_rfl⟩
    obtain ⟨hor, hhead, hsecond⟩ := hmin
    constructor
    · rintro h _ _ ⟨⟩ j hj
      have hle := h j (hperm.mem_iff.mpr (by simp [hj]))
      rcases hor with rfl | rfl
      · exact Or.inl hle
      · exact Or.inr hle
    · intro h j hj
      have hmem := hperm.mem_iff.mp hj
      rw [List.mem_cons, List.mem_cons] at hmem
      rcases hmem with rfl | rfl | hj
      · exact hhead
      · exact hsecond
      · exact (h second tail rfl j hj).elim hhead.trans hsecond.trans

omit [DecidableEq J] in
theorem least_iff_of_head {q : List J} (hq : s.pqueue = head :: q) (hnext : next = s.pqueue.head?) :
    Least ⟨s, w.present, next, some t⟩ ↔ ∀ j ∈ q,
      rank s.pqueueScheme (s.metadata head) ≤ rank s.pqueueScheme (s.metadata j) := by
  rw [least_iff]
  subst hnext
  constructor
  · intro h j hj
    exact h head (by simp [hq]) j (by simp [hq, hj])
  · intro h r hr j hj
    obtain rfl : head = r := by simpa [hq] using hr
    rcases List.mem_cons.mp (hq ▸ hj) with rfl | hj
    · exact le_rfl
    · exact h j hj

/-- The order asked for, when the scheduler puts the head back. -/
theorem inOrder_iff (hrun : w.running = some r) (hq : w.sched.pqueue = head :: rest) :
    InOrder w (.quantumExpired t) ↔
      match w.sched.pqueueScheme with
      | .psrtf => r ≠ head → comparerPsrtf (w.sched.metadata head) (w.afterRunning r t) ≤ 0
      | .rr => ∀ second tail, rest = second :: tail → ∀ j ∈ tail,
        comparerRr (w.rekeyed r t head) (w.rekeyed r t j) ≤ 0 ∨
          comparerRr (w.rekeyed r t second) (w.rekeyed r t j) ≤ 0
      | _ => True := by
  constructor
  · intro h
    exact h r head rest hrun hq
  · intro h r' head' rest' hrun' hq'
    obtain rfl : r = r' := Option.some.inj (hrun.symm.trans hrun')
    obtain ⟨rfl, rfl⟩ := List.cons.inj (hq.symm.trans hq')
    exact h

/-- **One quantum.** The job returned is a least one exactly when the queue was in order. -/
theorem Ordered.quantum (hw : Ordered w)
    (h : w.sched.quantumExpired w.running t = some (next, s)) :
    Least ⟨s, w.present, next, some t⟩ ↔ InOrder w (.quantumExpired t) := by
  rcases State.quantumExpired_cases h with ⟨hq, hrun, rfl, rfl⟩ | ⟨head, hq, hrun, rfl, rfl⟩ |
    ⟨r, head, rest, hrun, hpre, hq, hnext, hs⟩ | ⟨r, hrun, hpre, -⟩
  · simp [least_iff, InOrder, hrun]
  · rw [least_iff]
    refine ⟨fun _ r head rest hr => by simp [hrun] at hr, fun _ r hr j hj => ?_⟩
    obtain rfl : head = r := Option.some.inj hr
    simp only [rank_dispatched]
    exact hw.least head hq j hj
  · have hr : r ∈ w.sched.pqueue := hw.queued.perm.mem_iff.mpr (hw.queued.running r hrun)
    have hscheme : s.pqueueScheme = w.sched.pqueueScheme := by rw [hs, State.rotated_pqueueScheme]
    have hmeta : s.metadata = w.sched.charged r t := by rw [hs, State.rotated_metadata]
    rw [inOrder_iff hrun hq]
    cases hsch : w.sched.pqueueScheme with
    | ppri =>
      have hsq : s.pqueue = head :: rest := by
        rw [hs, State.rotated_pqueue, hw.offer_head (by simp [hsch]) hq]
      rw [least_iff_of_head hsq hnext, hscheme, hsch, hmeta]
      exact iff_true_intro (hw.least_ppri hsch hq)
    | psrtf =>
      have hsq : s.pqueue = head :: rest := by
        rw [hs, State.rotated_pqueue, hw.offer_head (by simp [hsch]) hq]
      rw [least_iff_of_head hsq hnext, hscheme, hsch, hmeta]
      exact hw.least_psrtf hsch hq hr
    | rr =>
      -- the offer already sees the new `next_time` of the evicted job
      have hrank (j : J) : rank .rr (s.metadata j) = rank .rr (w.rekeyed r t j) := by
        rw [hmeta]
        rfl
      have hfirst : s.pqueue.head? = rest.head?.elim (some head) fun y =>
          if rank .rr (w.rekeyed r t head) < rank .rr (w.rekeyed r t y) then some head
          else some y := by
        rw [hs, State.rotated_pqueue, Priqueue.head?_offer]
        simp only [State.requeuedComparer, hsch, comparisionFunc_neg]
        rfl
      have hperm : s.pqueue.Perm (head :: rest) := by
        rw [hs]
        exact Priqueue.offer_perm _ _ _
      obtain ⟨first, hsome⟩ : ∃ first, s.pqueue.head? = some first := by
        cases hsq : s.pqueue with
        | nil => simp [hsq] at hperm
        | cons first tail => exact ⟨first, rfl⟩
      have hleast : Least ⟨s, w.present, next, some t⟩ ↔
          ∀ j ∈ s.pqueue, rank .rr (w.rekeyed r t first) ≤ rank .rr (w.rekeyed r t j) := by
        rw [least_iff, hnext, hsome]
        simp only [Option.some.injEq, forall_eq', hscheme, hsch, hrank]
      rw [hleast, least_rr_iff (fun j => rank .rr (w.rekeyed r t j)) hperm
        (hfirst.symm.trans hsome)]
      simp only [← comparisionFunc_nonpos]
      rfl
    | _ => simp [isPreemptive, hsch] at hpre
  · exact absurd hw.preemptive hpre

/-- In a preemptive scheme the head of the queue is returned, and no arrival time changes. -/
theorem quantum_frame (hpre : isPreemptive w.sched.pqueueScheme)
    (h : w.sched.quantumExpired w.running t = some (next, s)) :
    next = s.pqueue.head? ∧ s.pqueueScheme = w.sched.pqueueScheme ∧
      ∀ j, (s.metadata j).arrivalTime = (w.sched.metadata j).arrivalTime := by
  rcases State.quantumExpired_cases h with ⟨hq, -, rfl, rfl⟩ | ⟨head, hq, -, rfl, rfl⟩ |
    ⟨r, head, rest, -, -, -, hnext, hs⟩ | ⟨r, -, hnot, -⟩
  · exact ⟨by simp [hq], rfl, fun _ => rfl⟩
  · exact ⟨hq.symm, rfl, fun _ => rfl⟩
  · rw [hs, State.rotated_pqueueScheme, State.rotated_metadata]
    exact ⟨hs ▸ hnext, rfl, fun _ => rfl⟩
  · exact absurd hpre hnot

/-- A quantum that returns a least job keeps the queue in order. -/
theorem Ordered.afterQuantum (hw : Ordered w) (hqueued : Queued ⟨s, w.present, next, some t⟩)
    (ht : ∀ c ∈ w.clock, c < t) (h : w.sched.quantumExpired w.running t = some (next, s))
    (hleast : Least ⟨s, w.present, next, some t⟩) : Ordered ⟨s, w.present, next, some t⟩ := by
  obtain ⟨hnext, hscheme, harr⟩ := quantum_frame hw.preemptive h
  have hmem {j : J} (hj : j ∈ s.pqueue) : j ∈ w.sched.pqueue :=
    (State.quantumExpired_spec h).1.mem_iff.mp hj
  refine ⟨hqueued, hscheme ▸ hw.preemptive, fun j hj => ?_, fun i hi j hj heq => ?_,
    fun head hhead => least_iff.mp hleast head (hnext.trans hhead)⟩
  · obtain ⟨c, hc, hle⟩ := hw.arrived j (hmem hj)
    refine ⟨t, rfl, ?_⟩
    rw [harr]
    exact hle.trans (ht c hc).le
  · dsimp only at heq
    rw [harr, harr] at heq
    exact hw.distinct i (hmem hi) j (hmem hj) heq

end Quantum

theorem Ordered.step (hw : Ordered w) (hc : InOrder w e) (h : dispatchStep w e = some w') :
    Ordered w' := by
  obtain ⟨hstep, htime, hfin⟩ := dispatchStep_spec h
  have hqueued := hw.queued.step hfin hstep
  rcases step_cases hstep with ⟨j, n, t, d, rfl, hj, rfl⟩ | ⟨t, next, s, rfl, hq, rfl⟩ |
    ⟨t, r, rfl, -, -⟩
  · exact hw.newJob hj htime hqueued
  · exact hw.afterQuantum hqueued htime hq ((hw.quantum hq).mpr hc)
  · simp [dispatchStep] at h

/-- **Preemptive dispatch.** In PPRI, PSRTF and RR, along every run of arrivals and expiring
quanta at increasing times, each quantum that expires returns a job that no other queued job
comes before if and only if each finds the queue in order. -/
theorem dispatch_iff {scheme : Scheme} (hpre : isPreemptive scheme) {metadata : J → JobInfo ℚ}
    {es : List (Event J ℚ)} (hrun : run dispatchStep (World.start scheme metadata) es = some w') :
    (∀ w e, Takes dispatchStep (World.start scheme metadata) es w e → DispatchesLeast w e) ↔
      ∀ w e, Takes dispatchStep (World.start scheme metadata) es w e → InOrder w e := by
  refine forall_takes_iff (Ordered.start hpre metadata) (fun _ _ _ => Ordered.step) ?_ hrun
  intro w e w' hw h
  cases e with
  | newJob j n t d => exact Iff.rfl
  | jobFinished t => exact Iff.rfl
  | quantumExpired t =>
    have hstep := (dispatchStep_spec h).1
    rcases step_cases hstep with ⟨_, _, _, _, ⟨⟩, -⟩ | ⟨_, next, s, ⟨⟩, hq, rfl⟩ | ⟨_, _, ⟨⟩, -⟩
    rw [← hw.quantum hq]
    exact ⟨fun hd => hd _ h, fun hl w' h' => Option.some.inj (h.symm.trans h') ▸ hl⟩

/-- A long job runs, a shorter one arrives, and at the end of the quantum the first one has
less left to run. -/
def nearlyDone : List (Event Nat ℚ) :=
  [.newJob 1 1 0 ⟨10, 1⟩, .quantumExpired 1, .newJob 2 2 2 ⟨5, 1⟩, .quantumExpired 9]

/-- Two jobs have taken turns when a third arrives and comes before the one that runs. -/
def newcomer : List (Event Nat ℚ) :=
  [.newJob 1 1 0 ⟨10, 1⟩, .newJob 2 2 1 ⟨10, 1⟩, .quantumExpired 2, .quantumExpired 3,
    .quantumExpired 4, .newJob 3 3 5 ⟨10, 1⟩, .quantumExpired 6, .quantumExpired 7]

theorem dispatch_iff_newcomer :
    (∃ w', run dispatchStep (World.start .rr noMetadata) newcomer = some w') ∧
      ((∀ w e, Takes dispatchStep (World.start .rr noMetadata) newcomer w e →
          DispatchesLeast w e) ↔
        ∀ w e, Takes dispatchStep (World.start .rr noMetadata) newcomer w e → InOrder w e) := by
  have hsome : (run dispatchStep (World.start .rr noMetadata) newcomer).isSome := by decide
  obtain ⟨w', hw'⟩ := Option.isSome_iff_exists.mp hsome
  exact ⟨⟨w', hw'⟩, dispatch_iff rfl hw'⟩

/-- The last quantum of a run returns a job that another queued job comes before. -/
theorem not_dispatchesLeast {scheme : Scheme} {es : List (Event Nat ℚ)} {t : ℚ} {r j : Nat}
    (hne : j ≠ r)
    (h : (run dispatchStep (World.start scheme noMetadata) (es ++ [.quantumExpired t])).map
      (fun w => (w.running, decide (j ∈ w.sched.pqueue), decide (w.sched.comparer r j ≤ 0))) =
        some (some r, true, false)) :
    ¬ ∀ w e, Takes dispatchStep (World.start scheme noMetadata) (es ++ [.quantumExpired t]) w e →
      DispatchesLeast w e := by
  obtain ⟨w', hrun, heq⟩ := Option.map_eq_some_iff.mp h
  obtain ⟨hr, hmem, hcmp⟩ := Prod.mk.inj heq |>.imp id Prod.mk.inj
  obtain ⟨w, hw, hstep⟩ := run_snoc_eq_some.mp hrun
  intro hall
  exact of_decide_eq_false hcmp
    (hall w _ (Takes.last hw) w' hstep r hr j (of_decide_eq_true hmem) hne)

/-- In PSRTF the job with 5 left is returned while one with 2 left is queued, and in RR a job
that waits since 6 is returned while one that waits since 4 is queued. -/
theorem not_least :
    (¬ ∀ w e, Takes dispatchStep (World.start .psrtf noMetadata) nearlyDone w e →
      DispatchesLeast w e) ∧
    ¬ ∀ w e, Takes dispatchStep (World.start .rr noMetadata) newcomer w e →
      DispatchesLeast w e :=
  ⟨@not_dispatchesLeast .psrtf nearlyDone.dropLast 9 2 1 (by decide) (by decide +kernel),
    @not_dispatchesLeast .rr newcomer.dropLast 7 1 2 (by decide) (by decide +kernel)⟩

end SystemProgramming.Scheduler
