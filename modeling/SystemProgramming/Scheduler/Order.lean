import SystemProgramming.Foundation.Doubles
import SystemProgramming.Foundation.Run
import SystemProgramming.Foundation.StableInsertion
import SystemProgramming.Scheduler.Quantum

/-!
# The order of the priority queue

The walk of `priqueue_offer` inserts a new element behind all that are less or equal, whatever
the comparer, if only it orders all elements. So over a run of offers and polls the queue stays
sorted, and of elements that compare equal the one that was offered first is polled first. The
comparers of the scheduler order jobs whose metadata stays the same and whose times and priorities
are numbers: a NaN compares equal to everything.

## Main definitions

* `Queue`: `priqueue_t`, with the size that it counts
* `Record`, `step`: a queue with what it was offered and what was polled from it
* `Kept`: what a run of offers and polls keeps
* `Numbers`: the fields that a scheme compares are numbers

## Main results

* `offer_eq`: the walk is the stable insertion
* `kept_of_reachable`: the queue is sorted and in order, and holds what was offered and not polled
* `comparisionFunc_totalPreorder`: the six comparers order the jobs
* `not_totalPreorder_nan`: with a NaN in the middle they do not
* `priqueue_order`: all of this for every run
-/

namespace SystemProgramming.Scheduler.Priqueue

variable {α : Type*} {comparer : α → α → Int} {x : α} {q : List α}

/-! ## The walk -/

/-- From an element that is less or equal, the walk inserts into the rest of the list. -/
theorem offerAfter_eq (h : TotalPreorder comparer) {left : α} {n : Nat}
    (hleft : comparer left x ≤ 0) :
    offerAfter comparer x (left :: q) n =
      (left :: insertBehind comparer x q, n + positionBehind comparer x q) := by
  induction q generalizing left n with
  | nil => rfl
  | cons next rest ih =>
    rw [offerAfter]
    by_cases hnext : comparer x next < 0
    · rw [if_pos ⟨hleft, hnext⟩, insertBehind_cons_of_neg hnext, positionBehind_cons_of_neg hnext,
        add_zero]
    · rw [if_neg fun hboth => hnext hboth.2, ih (h.nonpos_iff.mpr hnext),
        insertBehind_cons_of_not_neg hnext, positionBehind_cons_of_not_neg hnext]
      simp only [Prod.mk.injEq, true_and]
      omega

/-- **`priqueue_offer` inserts behind all that are less or equal**, and returns the position. -/
theorem offer_eq (h : TotalPreorder comparer) :
    offer comparer q x = (insertBehind comparer x q, positionBehind comparer x q) := by
  cases q with
  | nil => rfl
  | cons head rest =>
    rw [offer]
    by_cases hhead : comparer x head < 0
    · rw [if_pos hhead, insertBehind_cons_of_neg hhead, positionBehind_cons_of_neg hhead]
    · rw [if_neg hhead, offerAfter_eq h (h.nonpos_iff.mpr hhead),
        insertBehind_cons_of_not_neg hhead, positionBehind_cons_of_not_neg hhead, add_comm]

/-! ## Runs -/

/-- `priqueue_t`. -/
structure Queue (α : Type*) where
  size : Nat
  entries : List α

namespace Queue

/-- `priqueue_init`. -/
def init : Queue α := ⟨0, []⟩

/-- `priqueue_offer` with the count of the elements. -/
def offer (comparer : α → α → Int) (q : Queue α) (x : α) : Queue α × Nat :=
  let (entries, retval) := Priqueue.offer comparer q.entries x
  (⟨q.size + 1, entries⟩, retval)

/-- `priqueue_poll` with the count of the elements. -/
def poll (q : Queue α) : Option α × Queue α :=
  match Priqueue.poll q.entries with
  | none => (none, q)
  | some (head, rest) => (some head, ⟨q.size - 1, rest⟩)

end Queue

/-- A call of the library. -/
inductive Op (α : Type*) where
  | offer (x : α)
  | poll

/-- A queue, with the elements offered and the elements polled so far, in order. -/
structure Record (α : Type*) where
  queue : Queue α
  offered : List α
  polled : List α

def Record.init : Record α := ⟨Queue.init, [], []⟩

/-- One call. -/
def step (comparer : α → α → Int) (r : Record α) : Op α → Option (Record α)
  | .offer x => some ⟨(r.queue.offer comparer x).1, r.offered ++ [x], r.polled⟩
  | .poll => some ⟨r.queue.poll.2, r.offered, r.polled ++ r.queue.poll.1.toList⟩

/-- What a run of offers and polls keeps. -/
structure Kept (comparer : α → α → Int) (r : Record α) : Prop where
  /-- The queue is sorted. -/
  sorted : r.queue.entries.Pairwise fun a b => comparer a b ≤ 0
  /-- The size is the number of elements. -/
  size : r.queue.size = r.queue.entries.length
  /-- Elements that compare equal are polled, or wait in the queue, as they were offered. -/
  fifo : ∀ c, (r.polled ++ r.queue.entries).filter (comparer · c = 0) =
    r.offered.filter (comparer · c = 0)
  /-- No element is lost, and none is there twice. -/
  perm : (r.polled ++ r.queue.entries).Perm r.offered

variable {r r' : Record α} {op : Op α}

theorem Kept.offer (h : TotalPreorder comparer) (hr : Kept comparer r) :
    Kept comparer ⟨(r.queue.offer comparer x).1, r.offered ++ [x], r.polled⟩ := by
  have hqueue : (r.queue.offer comparer x).1 =
      ⟨r.queue.size + 1, insertBehind comparer x r.queue.entries⟩ := by
    rw [Queue.offer, offer_eq h]
  rw [hqueue]
  refine ⟨sorted_insertBehind h hr.sorted, ?_, fun c => ?_, ?_⟩
  · have hlength : (insertBehind comparer x r.queue.entries).length =
        r.queue.entries.length + 1 := perm_insertBehind.length_eq
    rw [hlength, hr.size]
  · have hfifo := hr.fifo c
    rw [List.filter_append] at hfifo
    rw [List.filter_append, List.filter_append, filter_insertBehind h hr.sorted, ← hfifo,
      List.append_assoc]
  · have hnew : (r.polled ++ insertBehind comparer x r.queue.entries).Perm
        (x :: (r.polled ++ r.queue.entries)) :=
      (perm_insertBehind.append_left _).trans List.perm_middle
    have hold : (x :: (r.polled ++ r.queue.entries)).Perm (r.offered ++ [x]) :=
      (hr.perm.cons x).trans (List.perm_append_singleton x r.offered).symm
    exact hnew.trans hold

/-- A poll moves the head of the queue to the end of the polled elements. -/
theorem Kept.poll (hr : Kept comparer r) :
    Kept comparer ⟨r.queue.poll.2, r.offered, r.polled ++ r.queue.poll.1.toList⟩ := by
  obtain ⟨⟨size, entries⟩, offered, polled⟩ := r
  cases entries with
  | nil => simpa [Queue.poll, Priqueue.poll] using hr
  | cons head rest =>
    have hmoved : polled ++ [head] ++ rest = polled ++ head :: rest := by simp
    refine ⟨(List.pairwise_cons.mp hr.sorted).2, ?_, fun c => ?_, ?_⟩
    · have hsize : size = rest.length + 1 := hr.size
      show size - 1 = rest.length
      omega
    · show (polled ++ [head] ++ rest).filter _ = _
      rw [hmoved]
      exact hr.fifo c
    · show (polled ++ [head] ++ rest).Perm _
      rw [hmoved]
      exact hr.perm

theorem Kept.step (h : TotalPreorder comparer) (hr : Kept comparer r)
    (hstep : step comparer r op = some r') : Kept comparer r' := by
  cases op with
  | offer x =>
    obtain rfl := Option.some.inj hstep
    exact hr.offer h
  | poll =>
    obtain rfl := Option.some.inj hstep
    exact hr.poll

/-- **The queue is sorted and in order over every run**, and holds what was offered and not yet
polled. -/
theorem kept_of_reachable (h : TotalPreorder comparer)
    (hr : Reachable (step comparer) Record.init r) : Kept comparer r :=
  hr.invariant ⟨List.Pairwise.nil, rfl, fun _ => rfl, List.Perm.refl _⟩
    fun _ _ _ hkept hstep => hkept.step h hstep

/-! ## The comparers of the scheduler -/

/-- The fields that a scheme compares are no NaN. -/
def Numbers (scheme : Scheme) (info : JobInfo Double) : Prop :=
  (key scheme info).isNan = false ∧ info.arrivalTime.isNan = false

/-- The fields that are compared, as places among the numbers. -/
def places (info : JobInfo Double) : JobInfo Int where
  id := info.id
  priority := info.priority.place
  runningTime := info.runningTime.place
  startTime := info.startTime.place
  arrivalTime := info.arrivalTime.place
  remainingTime := info.remainingTime.place
  nextTime := info.nextTime.place
  startAfterPreempt := info.startAfterPreempt.place

theorem compareBy_places {field : JobInfo Double → Double} {field' : JobInfo Int → Int}
    {tie : JobInfo Double → JobInfo Double → Int} {tie' : JobInfo Int → JobInfo Int → Int}
    {a b : JobInfo Double} (hfield : ∀ info, field' (places info) = (field info).place)
    (ha : (field a).isNan = false) (hb : (field b).isNan = false)
    (htie : tie a b = tie' (places a) (places b)) :
    compareBy field tie a b = compareBy field' tie' (places a) (places b) := by
  unfold compareBy
  simp only [Double.lt_iff ha hb, Double.lt_iff hb ha, hfield, htie]

/-- Numbers are compared by their places. -/
theorem comparisionFunc_places {scheme : Scheme} {a b : JobInfo Double} (ha : Numbers scheme a)
    (hb : Numbers scheme b) :
    comparisionFunc scheme a b = comparisionFunc scheme (places a) (places b) := by
  have htie : breakTie a b = breakTie (places a) (places b) := by
    show compareBy JobInfo.arrivalTime (fun _ _ => 0) a b =
      compareBy JobInfo.arrivalTime (fun _ _ => 0) (places a) (places b)
    exact compareBy_places (fun _ => rfl) ha.2 hb.2 rfl
  cases scheme with
  | fcfs => exact htie
  | pri => exact compareBy_places (fun _ => rfl) ha.1 hb.1 htie
  | ppri => exact compareBy_places (fun _ => rfl) ha.1 hb.1 htie
  | psrtf => exact compareBy_places (fun _ => rfl) ha.1 hb.1 htie
  | rr => exact compareBy_places (fun _ => rfl) ha.1 hb.1 htie
  | sjf => exact compareBy_places (fun _ => rfl) ha.1 hb.1 htie

variable {J : Type}

/-- **The comparers order all jobs**, while their metadata stays the same and has numbers in the
fields that are compared. -/
theorem comparisionFunc_totalPreorder {scheme : Scheme} {metadata : J → JobInfo Double}
    (hnumbers : ∀ j, Numbers scheme (metadata j)) :
    TotalPreorder fun a b => comparisionFunc scheme (metadata a) (metadata b) := by
  apply TotalPreorder.of_rank fun j => rank scheme (places (metadata j))
  · intro a b
    rw [comparisionFunc_places (hnumbers a) (hnumbers b)]
    exact comparisionFunc_neg scheme _ _
  · intro a b
    rw [comparisionFunc_places (hnumbers a) (hnumbers b)]
    exact comparisionFunc_nonpos scheme _ _

/-- Metadata with one double in all fields. -/
def filled (d : Double) : JobInfo Double := ⟨0, d, d, d, d, d, d, d⟩

/-- A job of 2, then one of NaN, and behind them one of 1. -/
def nanBetween : Nat → JobInfo Double
  | 0 => filled ⟨0x4000000000000000⟩
  | 1 => filled ⟨0x7FF8000000000000⟩
  | _ => filled ⟨0x3FF0000000000000⟩

/-- A NaN compares equal to 2 and to 1, but 2 does not compare equal to 1. -/
theorem not_totalPreorder_nan :
    ¬ ∃ scheme, TotalPreorder fun a b =>
      comparisionFunc scheme (nanBetween a) (nanBetween b) := by
  rintro ⟨scheme, h⟩
  have hle := h.trans 0 1 2 (by cases scheme <;> decide) (by cases scheme <;> decide)
  revert hle
  cases scheme <;> decide

/-- **The order of the priority queue.** With a comparer that orders all elements, whatever was
offered and polled before, the queue is sorted, elements that compare equal are in the order in
which they were offered, the size is the number of elements, and no element is lost or doubled.
An offer returns the position of the new element, and a poll removes the head and returns it. The
six comparers of the scheduler are such comparers on jobs that have numbers in the fields that are
compared. -/
theorem priqueue_order (h : TotalPreorder comparer)
    (hr : Reachable (step comparer) Record.init r) :
    Kept comparer r ∧
    (∀ x, ∃ n ≤ r.queue.entries.length, (r.queue.offer comparer x).2 = n ∧
      (r.queue.offer comparer x).1.entries =
        r.queue.entries.take n ++ x :: r.queue.entries.drop n) ∧
    r.queue.poll.1 = r.queue.entries.head? ∧ r.queue.poll.2.entries = r.queue.entries.tail ∧
    ∀ (scheme : Scheme) (metadata : J → JobInfo Double), (∀ j, Numbers scheme (metadata j)) →
      TotalPreorder fun a b => comparisionFunc scheme (metadata a) (metadata b) := by
  refine ⟨kept_of_reachable h hr, fun x => ?_, ?_, ?_, fun _ _ => comparisionFunc_totalPreorder⟩
  · refine ⟨positionBehind comparer x r.queue.entries, positionBehind_le_length, ?_, ?_⟩
    · rw [Queue.offer, offer_eq h]
    · rw [Queue.offer, offer_eq h]
      exact insertBehind_eq_take_drop
  · rw [Queue.poll]
    cases r.queue.entries <;> rfl
  · rw [Queue.poll]
    cases hentries : r.queue.entries with
    | nil => exact hentries
    | cons head rest => rfl

/-- Two jobs that arrived at 5, and others that arrived at 4. -/
def arrivals : Nat → JobInfo Double
  | 1 => filled ⟨0x4014000000000000⟩
  | 2 => filled ⟨0x4014000000000000⟩
  | _ => filled ⟨0x4010000000000000⟩

theorem priqueue_order_fcfs :
    ∃ r, run (step fun a b => comparisionFunc .fcfs (arrivals a) (arrivals b)) Record.init
        [.offer 1, .offer 2, .offer 3, .poll, .offer 4] = some r ∧
      r.queue.entries = [4, 1, 2] ∧ r.polled = [3] ∧
      Kept (fun a b => comparisionFunc .fcfs (arrivals a) (arrivals b)) r := by
  refine ⟨_, rfl, by decide, by decide, ?_⟩
  have hnumbers (j : Nat) : Numbers .fcfs (arrivals j) := by
    unfold arrivals
    split <;> exact ⟨by decide, by decide⟩
  have hfcfs := comparisionFunc_totalPreorder hnumbers
  exact (priqueue_order (J := Nat) hfcfs
    ⟨[.offer 1, .offer 2, .offer 3, .poll, .offer 4], rfl⟩).1

end SystemProgramming.Scheduler.Priqueue
