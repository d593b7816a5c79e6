import SystemProgramming.Scheduler.Libscheduler

/-!
# What `scheduler_quantum_expired` changes

The call marks the head of the queue as started, gives the evicted job a new `next_time`, and
in a preemptive scheme polls the head, offers it again and charges the evicted job. The
metadata after the call is written out job by job, so that later modules read one field off.
The comparers order the jobs by a key, and by arrival where the keys are the same.

## Main definitions

* `State.started`, `State.dispatched`, `State.requeued`, `State.charged`: the metadata in turn
* `rank`: the key of a scheme with the arrival time

## Main results

* `State.quantumExpired_none`, `State.quantumExpired_preemptive`, `State.quantumExpired_keeps`:
  what a call does, and the metadata it needs
* `State.quantumExpired_cases`: the four things a call can do
* `comparisionFunc_neg`, `comparisionFunc_nonpos`: the comparers compare ranks
* `Priqueue.offer_eq_cons`, `Priqueue.offer_eq_concat`, `Priqueue.head?_offer`: where an offered
  job goes
-/

namespace SystemProgramming.Scheduler

namespace Priqueue

variable {α : Type*} {comparer : α → α → Int}

theorem offerAfter_head? (x left : α) (rest : List α) (n : Nat) :
    (offerAfter comparer x (left :: rest) n).1.head? = some left := by
  cases rest with
  | nil => rfl
  | cons next rest =>
    rw [offerAfter]
    split_ifs <;> rfl

theorem offer_eq_cons {x : α} {q : List α} (h : ∀ y ∈ q.head?, comparer x y < 0) :
    (offer comparer q x).1 = x :: q := by
  cases q with
  | nil => rfl
  | cons head rest => rw [offer, if_pos (h head rfl)]

theorem offerAfter_eq_concat {x : α} {q : List α} {n : Nat} (h : ∀ y ∈ q, ¬ comparer x y < 0) :
    (offerAfter comparer x q n).1 = q ++ [x] := by
  induction q generalizing n with
  | nil => rfl
  | cons left rest ih =>
    cases rest with
    | nil => rfl
    | cons next rest =>
      have hnext : ¬ comparer x next < 0 := h next (by simp)
      rw [offerAfter, if_neg fun hboth => hnext hboth.2]
      exact congrArg (left :: ·) (ih fun y hy => h y (List.mem_cons_of_mem _ hy))

/-- A value that comes before none goes to the end of the queue. -/
theorem offer_eq_concat {x : α} {q : List α} (h : ∀ y ∈ q, ¬ comparer x y < 0) :
    (offer comparer q x).1 = q ++ [x] := by
  cases q with
  | nil => rfl
  | cons head rest =>
    rw [offer, if_neg (h head List.mem_cons_self)]
    exact offerAfter_eq_concat h

/-- An offered value becomes the head of the queue, or the head stays. -/
theorem head?_offer (x : α) (q : List α) :
    (offer comparer q x).1.head? =
      q.head?.elim (some x) fun y => if comparer x y < 0 then some x else some y := by
  cases q with
  | nil => rfl
  | cons head rest =>
    rw [offer]
    by_cases h : comparer x head < 0
    · simp [h]
    · simp [h, offerAfter_head?]

end Priqueue

/-! ## The comparers -/

section Rank

variable {T : Type} [LinearOrder T]

/-- The field a scheme compares first. -/
def key : Scheme → JobInfo T → T
  | .fcfs => JobInfo.arrivalTime
  | .pri => JobInfo.priority
  | .ppri => JobInfo.priority
  | .psrtf => JobInfo.remainingTime
  | .rr => JobInfo.nextTime
  | .sjf => JobInfo.runningTime

/-- Jobs are ordered by the key of the scheme, then by arrival. -/
def rank (scheme : Scheme) (info : JobInfo T) : T ×ₗ T := toLex (key scheme info, info.arrivalTime)

theorem comparerFcfs_neg (a b : JobInfo T) :
    comparerFcfs a b < 0 ↔ a.arrivalTime < b.arrivalTime := by
  unfold comparerFcfs compareBy
  split_ifs with h₁ h₂ <;> simp_all

theorem comparerFcfs_nonpos (a b : JobInfo T) :
    comparerFcfs a b ≤ 0 ↔ a.arrivalTime ≤ b.arrivalTime := by
  unfold comparerFcfs compareBy
  split_ifs with h₁ h₂
  · simp [h₁.le]
  · simp [h₂]
  · simp [le_of_not_gt h₂]

theorem compareBy_neg (field : JobInfo T → T) (a b : JobInfo T) :
    compareBy field breakTie a b < 0 ↔
      toLex (field a, a.arrivalTime) < toLex (field b, b.arrivalTime) := by
  rw [Prod.Lex.toLex_lt_toLex]
  unfold compareBy
  split_ifs with h₁ h₂
  · simp [h₁]
  · simp [h₂.not_gt, h₂.ne']
  · have heq : field a = field b := le_antisymm (le_of_not_gt h₂) (le_of_not_gt h₁)
    simp [heq, breakTie, comparerFcfs_neg]

theorem compareBy_nonpos (field : JobInfo T → T) (a b : JobInfo T) :
    compareBy field breakTie a b ≤ 0 ↔
      toLex (field a, a.arrivalTime) ≤ toLex (field b, b.arrivalTime) := by
  rw [Prod.Lex.toLex_le_toLex]
  unfold compareBy
  split_ifs with h₁ h₂
  · simp [h₁]
  · simp [h₂.not_gt, h₂.ne']
  · have heq : field a = field b := le_antisymm (le_of_not_gt h₂) (le_of_not_gt h₁)
    simp [heq, breakTie, comparerFcfs_nonpos]

/-- A comparer is negative exactly when the first job has the lower rank. -/
theorem comparisionFunc_neg (scheme : Scheme) (a b : JobInfo T) :
    comparisionFunc scheme a b < 0 ↔ rank scheme a < rank scheme b := by
  cases scheme with
  | fcfs =>
    show comparerFcfs a b < 0 ↔ _
    rw [comparerFcfs_neg, rank, rank, Prod.Lex.toLex_lt_toLex]
    simp +contextual [key, or_iff_left_of_imp]
  | pri => exact compareBy_neg _ a b
  | ppri => exact compareBy_neg _ a b
  | psrtf => exact compareBy_neg _ a b
  | rr => exact compareBy_neg _ a b
  | sjf => exact compareBy_neg _ a b

theorem comparisionFunc_nonpos (scheme : Scheme) (a b : JobInfo T) :
    comparisionFunc scheme a b ≤ 0 ↔ rank scheme a ≤ rank scheme b := by
  cases scheme with
  | fcfs =>
    show comparerFcfs a b ≤ 0 ↔ _
    rw [comparerFcfs_nonpos, rank, rank, Prod.Lex.toLex_le_toLex]
    simp only [key]
    exact ⟨fun h => h.lt_or_eq.imp id fun heq => ⟨heq, h⟩, fun h => h.elim le_of_lt And.right⟩
  | pri => exact compareBy_nonpos _ a b
  | ppri => exact compareBy_nonpos _ a b
  | psrtf => exact compareBy_nonpos _ a b
  | rr => exact compareBy_nonpos _ a b
  | sjf => exact compareBy_nonpos _ a b

end Rank

/-! ## The metadata after a call -/

namespace State

variable {J T : Type} [DecidableEq J] [One T] [Neg T] [Sub T] [BEq T]

/-- The head of the queue has started, if it had not. -/
def started (s : State J T) (time : T) (j : J) : JobInfo T :=
  { s.metadata j with
    startTime := if s.pqueue.head? = some j ∧ (s.metadata j).startTime == -1 then time
      else (s.metadata j).startTime }

/-- The head of the queue is given to run. -/
def dispatched (s : State J T) (time : T) (j : J) : JobInfo T :=
  { s.started time j with
    startAfterPreempt := if s.pqueue.head? = some j then time
      else (s.metadata j).startAfterPreempt }

/-- The evicted job waits from now on. -/
def waiting (s : State J T) (evicted : J) (time : T) (j : J) : JobInfo T :=
  { s.started time j with
    nextTime := if j = evicted then time else (s.metadata j).nextTime }

/-- What the metadata says when the polled head is offered again. -/
def requeued (s : State J T) (evicted : J) (time : T) (j : J) : JobInfo T :=
  { s.dispatched time j with
    nextTime := if j = evicted then time else (s.metadata j).nextTime }

/-- The evicted job is charged from its `start_after_preempt`, which the head has just lost. -/
def charged (s : State J T) (evicted : J) (time : T) (j : J) : JobInfo T :=
  { s.requeued evicted time j with
    remainingTime := if j = evicted then
        (s.metadata j).remainingTime - (time - (s.dispatched time j).startAfterPreempt)
      else (s.metadata j).remainingTime }

omit [One T] [Neg T] [Sub T] [BEq T] in
/-- A change of one job's metadata, written out job by job. -/
theorem modify_eq_some {s s' : State J T} {x : J} {f : JobInfo T → JobInfo T} {m : J → JobInfo T}
    (hx : m x = f (s.metadata x)) (hne : ∀ j, j ≠ x → m j = s.metadata j) :
    s.modify x f = some s' ↔ s.live x ∧ { s with metadata := m } = s' := by
  have hm : Function.update s.metadata x (f (s.metadata x)) = m := by
    funext j
    by_cases hj : j = x
    · subst hj
      simp [hx]
    · rw [Function.update_of_ne hj, hne j hj]
  simp [modify, hm]

section

omit [Sub T]

theorem markStart_eq_some {s s' : State J T} {time : T} :
    s.markStart time = some s' ↔
      (∀ head ∈ s.pqueue.head?, s.live head) ∧ { s with metadata := s.started time } = s' := by
  unfold markStart Priqueue.peek
  cases hq : s.pqueue.head? with
  | none =>
    have hsame : { s with metadata := s.started time } = s := by
      refine congrArg (fun m => { s with metadata := m }) (funext fun j => ?_)
      simp [started, hq]
    simp [hsame]
  | some head =>
    have hmodify : s.modify head (fun info =>
        { info with startTime := if info.startTime == -1 then time else info.startTime }) =
          some s' ↔ s.live head ∧ { s with metadata := s.started time } = s' :=
      modify_eq_some (by simp [started, hq]) fun j hj => by simp [started, hq, Ne.symm hj]
    simpa using hmodify

variable {s s' : State J T} {time : T} {head r : J} {q : List J}

theorem modify_dispatched (hq : s.pqueue.head? = some head) :
    { s with metadata := s.started time }.modify head
      (fun info => { info with startAfterPreempt := time }) = some s' ↔
      s.live head ∧ { s with metadata := s.dispatched time } = s' := by
  apply modify_eq_some
  · simp [dispatched, hq]
  · intro j hj
    simp [dispatched, started, hq, Ne.symm hj]

theorem modify_waiting :
    { s with metadata := s.started time }.modify r (fun info => { info with nextTime := time }) =
      some s' ↔ s.live r ∧ { s with metadata := s.waiting r time } = s' := by
  apply modify_eq_some
  · simp [waiting]
  · intro j hj
    simp [waiting, started, hj]

theorem modify_requeued (hq : s.pqueue.head? = some head) :
    { s with pqueue := q, metadata := s.waiting r time }.modify head
      (fun info => { info with startAfterPreempt := time }) = some s' ↔
      s.live head ∧ { s with pqueue := q, metadata := s.requeued r time } = s' := by
  apply modify_eq_some
  · simp [requeued, dispatched, waiting, hq]
  · intro j hj
    simp [requeued, dispatched, waiting, started, hq, Ne.symm hj]

end

theorem modify_charged {s s' : State J T} {time : T} {r : J} {q : List J} :
    { s with pqueue := q, metadata := s.requeued r time }.modify r
      (fun info =>
        { info with remainingTime := info.remainingTime - (time - info.startAfterPreempt) }) =
      some s' ↔ s.live r ∧ { s with pqueue := q, metadata := s.charged r time } = s' := by
  apply modify_eq_some
  · simp [charged, requeued, dispatched, started]
  · intro j hj
    simp [charged, requeued, dispatched, started, hj]

variable [LT T] [DecidableLT T] {s s' : State J T} {evicted next : Option J} {r : J} {time : T}

/-- The comparer when the polled head is offered again. -/
def requeuedComparer (s : State J T) (r : J) (time : T) (a b : J) : Int :=
  comparisionFunc s.pqueueScheme (s.requeued r time a) (s.requeued r time b)

/-- What a preemptive scheme does with the queue and with the evicted job `r`. -/
def rotated (s : State J T) (r : J) (time : T) (head : J) (rest : List J) : State J T :=
  { s with
    pqueue := (Priqueue.offer (s.requeuedComparer r time) rest head).1
    metadata := s.charged r time }

section

variable {head : J} {rest : List J}

@[simp] theorem rotated_pqueue : (s.rotated r time head rest).pqueue =
    (Priqueue.offer (s.requeuedComparer r time) rest head).1 := rfl

@[simp] theorem rotated_metadata :
    (s.rotated r time head rest).metadata = s.charged r time := rfl

@[simp] theorem rotated_pqueueScheme :
    (s.rotated r time head rest).pqueueScheme = s.pqueueScheme := rfl

end

omit [DecidableEq J] [Sub T] [One T] [Neg T] [BEq T] in
theorem offer_requeued {m : J → JobInfo T} {head : J} {rest : List J} (hlive : s.live head) :
    { s with pqueue := rest, metadata := m }.offer head = some s' ↔
      (∀ i ∈ Priqueue.compared (fun a b => comparisionFunc s.pqueueScheme (m a) (m b)) rest head,
        s.live i) ∧
      { s with
        pqueue := (Priqueue.offer
          (fun a b => comparisionFunc s.pqueueScheme (m a) (m b)) rest head).1
        metadata := m } = s' :=
  offer_eq_some (s := { s with pqueue := rest, metadata := m }) hlive

/-- With nothing evicted, the head of the queue is given to run. -/
theorem quantumExpired_none :
    s.quantumExpired none time = some (next, s') ↔
      (s.pqueue = [] ∧ next = none ∧ s' = s) ∨
      ∃ head, s.pqueue.head? = some head ∧ s.live head ∧ next = some head ∧
        s' = { s with metadata := s.dispatched time } := by
  unfold quantumExpired
  split_ifs with hnull
  -- no job runs and none is queued
  · have hq : s.pqueue = [] := by simpa [Priqueue.peek] using hnull
    constructor
    · intro h
      obtain ⟨rfl, rfl⟩ := Prod.mk.inj (Option.some.inj h)
      exact Or.inl ⟨hq, rfl, rfl⟩
    · rintro (⟨-, rfl, rfl⟩ | ⟨head, hhead, -⟩)
      · rfl
      · simp [hq] at hhead
  · have hne : s.pqueue ≠ [] := fun hq => hnull ⟨by rw [hq]; rfl, rfl⟩
    simp only [Option.bind_eq_bind, Option.bind_eq_some_iff, markStart_eq_some]
    constructor
    · rintro ⟨_, ⟨-, rfl⟩, head, hpeek, _, hs, h⟩
      have hhead : s.pqueue.head? = some head := hpeek
      obtain ⟨hlive, rfl⟩ := (modify_dispatched hhead).mp hs
      obtain ⟨rfl, rfl⟩ := Prod.mk.inj (Option.some.inj h)
      exact Or.inr ⟨head, hhead, hlive, rfl, rfl⟩
    · rintro (⟨hq, -⟩ | ⟨head, hhead, hlive, rfl, rfl⟩)
      · exact absurd hq hne
      · exact ⟨_, ⟨by simpa [hhead] using hlive, rfl⟩, head, hhead, _,
          (modify_dispatched hhead).mpr ⟨hlive, rfl⟩, rfl⟩

/-- In a preemptive scheme the head is polled and offered again, and the evicted job charged. -/
theorem quantumExpired_preemptive (hpre : isPreemptive s.pqueueScheme) :
    s.quantumExpired (some r) time = some (next, s') ↔
      ∃ head rest, s.pqueue = head :: rest ∧ s.live r ∧ s.live head ∧
        (∀ i ∈ Priqueue.compared (s.requeuedComparer r time) rest head, s.live i) ∧
        next = s'.pqueue.head? ∧ s' = s.rotated r time head rest := by
  simp only [quantumExpired, Option.isNone_some, Bool.false_eq_true, and_false, if_false,
    Option.bind_eq_bind, Option.bind_eq_some_iff, markStart_eq_some]
  constructor
  · rintro ⟨s₁, ⟨-, rfl⟩, s₂, hs₂, h⟩
    obtain ⟨hr, rfl⟩ := modify_waiting.mp hs₂
    rw [if_pos hpre] at h
    cases hq : s.pqueue with
    | nil => simp [hq, Priqueue.poll] at h
    | cons head rest =>
      have hhead : s.pqueue.head? = some head := by rw [hq]; rfl
      simp only [hq, Priqueue.poll, Option.bind_eq_some_iff, Option.some.injEq, exists_eq_left',
        Prod.mk.injEq] at h
      obtain ⟨s₃, hs₃, s₄, hs₄, s₅, hs₅, rfl, rfl⟩ := h
      obtain ⟨hlive, rfl⟩ := (modify_requeued hhead).mp hs₃
      obtain ⟨hcompared, rfl⟩ := (offer_requeued hlive).mp hs₄
      obtain ⟨-, rfl⟩ := modify_charged.mp hs₅
      exact ⟨head, rest, rfl, hr, hlive, hcompared, rfl, rfl⟩
  · rintro ⟨head, rest, hq, hr, hlive, hcompared, rfl, rfl⟩
    have hhead : s.pqueue.head? = some head := by rw [hq]; rfl
    refine ⟨_, ⟨by simpa [hhead] using hlive, rfl⟩, _, modify_waiting.mpr ⟨hr, rfl⟩, ?_⟩
    rw [if_pos hpre]
    simp only [hq, Priqueue.poll, Option.bind_eq_some_iff, Option.some.injEq, exists_eq_left',
      Prod.mk.injEq]
    exact ⟨_, (modify_requeued hhead).mpr ⟨hlive, rfl⟩, _,
      (offer_requeued hlive).mpr ⟨hcompared, rfl⟩, _, modify_charged.mpr ⟨hr, rfl⟩, rfl, rfl⟩

/-- In any other scheme the evicted job keeps running. -/
theorem quantumExpired_keeps (hpre : ¬ isPreemptive s.pqueueScheme) :
    s.quantumExpired (some r) time = some (next, s') ↔
      (∀ head ∈ s.pqueue.head?, s.live head) ∧ s.live r ∧ next = some r ∧
        s' = { s with metadata := s.waiting r time } := by
  simp only [quantumExpired, Option.isNone_some, Bool.false_eq_true, and_false, if_false,
    Option.bind_eq_bind, Option.bind_eq_some_iff, markStart_eq_some]
  constructor
  · rintro ⟨s₁, ⟨hhead, rfl⟩, s₂, hs₂, h⟩
    obtain ⟨hr, rfl⟩ := modify_waiting.mp hs₂
    rw [if_neg hpre] at h
    obtain ⟨rfl, rfl⟩ := Prod.mk.inj (Option.some.inj h)
    exact ⟨hhead, hr, rfl, rfl⟩
  · rintro ⟨hhead, hr, rfl, rfl⟩
    refine ⟨_, ⟨hhead, rfl⟩, _, modify_waiting.mpr ⟨hr, rfl⟩, ?_⟩
    rw [if_neg hpre]

/-- **What a call does.** With nothing queued and nothing evicted it does nothing; with
nothing evicted it gives the head to run; in a preemptive scheme it puts the head back; in
any other the evicted job keeps running. -/
theorem quantumExpired_cases (h : s.quantumExpired evicted time = some (next, s')) :
    (s.pqueue = [] ∧ evicted = none ∧ next = none ∧ s' = s) ∨
    (∃ head, s.pqueue.head? = some head ∧ evicted = none ∧ next = some head ∧
      s' = { s with metadata := s.dispatched time }) ∨
    (∃ r head rest, evicted = some r ∧ isPreemptive s.pqueueScheme ∧ s.pqueue = head :: rest ∧
      next = s'.pqueue.head? ∧ s' = s.rotated r time head rest) ∨
    ∃ r, evicted = some r ∧ ¬ isPreemptive s.pqueueScheme ∧ next = some r ∧
      s' = { s with metadata := s.waiting r time } := by
  cases evicted with
  | none =>
    rcases quantumExpired_none.mp h with ⟨hq, hnext, hs⟩ | ⟨head, hhead, -, hnext, hs⟩
    · exact Or.inl ⟨hq, rfl, hnext, hs⟩
    · exact Or.inr (Or.inl ⟨head, hhead, rfl, hnext, hs⟩)
  | some r =>
    by_cases hpre : isPreemptive s.pqueueScheme
    · obtain ⟨head, rest, hq, -, -, -, hnext, hs⟩ := (quantumExpired_preemptive hpre).mp h
      exact Or.inr (Or.inr (Or.inl ⟨r, head, rest, rfl, hpre, hq, hnext, hs⟩))
    · obtain ⟨-, -, hnext, hs⟩ := (quantumExpired_keeps hpre).mp h
      exact Or.inr (Or.inr (Or.inr ⟨r, rfl, hpre, hnext, hs⟩))

/-- `scheduler_quantum_expired` keeps the jobs of the queue, and frees nothing. It returns a
queued job, or the job it was given, or a null pointer. -/
theorem quantumExpired_spec (h : s.quantumExpired evicted time = some (next, s')) :
    s'.pqueue.Perm s.pqueue ∧ s'.live = s.live ∧
      ∀ j, next = some j → j ∈ s.pqueue ∨ evicted = some j := by
  rcases quantumExpired_cases h with ⟨hq, -, rfl, rfl⟩ | ⟨head, hhead, -, rfl, rfl⟩ |
    ⟨r, head, rest, -, -, hq, hnext, rfl⟩ | ⟨r, rfl, -, rfl, rfl⟩
  · exact ⟨List.Perm.refl _, rfl, fun j hj => by simp at hj⟩
  · refine ⟨List.Perm.refl _, rfl, fun j hj => Or.inl ?_⟩
    exact List.mem_of_head? (hhead.trans hj)
  · have hperm : (s.rotated r time head rest).pqueue.Perm s.pqueue := by
      rw [hq]
      exact Priqueue.offer_perm _ _ _
    exact ⟨hperm, rfl, fun j hj => Or.inl
      (hperm.mem_iff.mp (List.mem_of_head? (hnext.symm.trans hj)))⟩
  · exact ⟨List.Perm.refl _, rfl, fun j hj => Or.inr hj⟩

/-- A call goes through when the evicted job and all queued jobs have their metadata. -/
theorem exists_quantumExpired (hlive : ∀ j ∈ s.pqueue, s.live j)
    (h : ∀ r, evicted = some r → r ∈ s.pqueue) :
    ∃ next s', s.quantumExpired evicted time = some (next, s') := by
  cases evicted with
  | none =>
    cases hq : s.pqueue with
    | nil => exact ⟨_, _, quantumExpired_none.mpr (Or.inl ⟨hq, rfl, rfl⟩)⟩
    | cons head rest =>
      have hhead : s.live head := hlive head (by rw [hq]; exact List.mem_cons_self)
      exact ⟨_, _, quantumExpired_none.mpr (Or.inr ⟨head, by rw [hq]; rfl, hhead, rfl, rfl⟩)⟩
  | some r =>
    have hr : r ∈ s.pqueue := h r rfl
    by_cases hpre : isPreemptive s.pqueueScheme
    · obtain ⟨head, rest, hq⟩ := List.exists_cons_of_ne_nil (List.ne_nil_of_mem hr)
      rw [hq] at hlive
      refine ⟨_, _, (quantumExpired_preemptive hpre).mpr ⟨head, rest, hq, hlive r (hq ▸ hr),
        hlive head List.mem_cons_self, fun i hi => ?_, rfl, rfl⟩⟩
      exact hlive i (List.mem_cons_of_mem _ (Priqueue.compared_subset _ _ _ hi))
    · exact ⟨_, _, (quantumExpired_keeps hpre).mpr
        ⟨fun head hhead => hlive head (List.mem_of_head? hhead), hlive r hr, rfl, rfl⟩⟩

end State

end SystemProgramming.Scheduler
