import SystemProgramming.Foundation.Containers
import SystemProgramming.Foundation.Monitor
import SystemProgramming.Concurrency.Fifo

/-!
# The queue implements an atomic queue

To its callers the linked list behind a mutex is a list with two atomic operations: one that
waits while the list has its maximal length and then appends a value, and one that waits while the
list is empty and then takes the first value. They act where the threads of `queue.c` change the
list.

## Main definitions

* `Op`, `Result`, `atomicQueue`: the operations on a list
* `Sees`: what the callers know of the linked list

## Main results

* `atomicQueue_listQueue`: without a maximal length, it follows the laws of a queue
* `Sees.step`: a step of the threads is at most one step of the atomic queue
* `queue_linearizable`: every reachable state is seen as one of the atomic queue, and the threads
  come to rest only where the atomic queue has nothing ready
-/

namespace SystemProgramming.SharedQueue

variable {α : Type*} {n : Nat}

inductive Op (α : Type*) where
  | push (data : α)
  | pull

/-- What a call has done when it returns. -/
inductive Result (α : Type*) where
  | pushed (data : α)
  | pulled (data : α)

/-- The queue as a list. -/
def atomicQueue (maxSize : Int) : Guarded (List α) (Op α) (Option (Result α)) where
  ready
    | .push _, l => ¬ (0 < maxSize ∧ (l.length : Int) = maxSize)
    | .pull, l => !l.isEmpty
  act
    | .push data, l => (l ++ [data], some (.pushed data))
    | .pull, l => (l.tail, l.head?.map .pulled)

/-- Without a maximal length, the two operations are those of `listQueue`, and so they follow the
laws of a queue. -/
theorem atomicQueue_listQueue {β : Type} {maxSize : Int} (h : maxSize ≤ 0) (l : List β) :
    (∀ data, (atomicQueue maxSize).ready (.push data) l = true ∧
      ((atomicQueue maxSize).act (.push data) l).1 = listQueue.push l data) ∧
    ∀ data l', listQueue.pull l = some (data, l') ↔ (atomicQueue maxSize).ready .pull l = true ∧
      (atomicQueue maxSize).act .pull l = (l', some (.pulled data)) := by
  refine ⟨fun data => ⟨?_, rfl⟩, fun data l' => ?_⟩
  · simp only [atomicQueue, decide_eq_true_eq]
    omega
  · cases l with
    | nil => simp [atomicQueue, listQueue]
    | cons a l => simp [atomicQueue, listQueue, and_comm]

/-- What a caller knows of where it is. -/
def Pc.status : Pc α → Atomic.Status (Op α) (Option (Result α))
  | .outside => .idle
  | .pushLocking data => .called (.push data)
  | .pushing data => .called (.push data)
  | .pushAsleep data => .called (.push data)
  | .pushWoken data => .called (.push data)
  | .pushed data => .done (some (.pushed data))
  | .pullLocking => .called .pull
  | .pulling => .called .pull
  | .pullAsleep => .called .pull
  | .pullWoken => .called .pull
  | .pulled data => .done (some (.pulled data))

@[simp] theorem status_wake (p : Pc α) : (wake p).status = p.status := by cases p <;> rfl

/-- The returns from `queue_push` in what the callers have seen, and those from `queue_pull`. -/
def pushReturns (history : List (Fin n × Mark (Op α) (Option (Result α)))) : List (Fin n × α) :=
  history.filterMap fun e => match e.2 with
    | .ret (some (.pushed data)) => some (e.1, data)
    | _ => none

def pullReturns (history : List (Fin n × Mark (Op α) (Option (Result α)))) : List (Fin n × α) :=
  history.filterMap fun e => match e.2 with
    | .ret (some (.pulled data)) => some (e.1, data)
    | _ => none

/-- The atomic queue that the callers see. -/
structure Sees (w : World n α) (a : Atomic.World n (List α) (Op α) (Option (Result α))) :
    Prop where
  contents : ∃ l, Rep w.store l ∧ a.state = w.store.contents l
  status : ∀ t, a.status t = (w.pc t).status
  pushes : w.pushes = pushReturns a.history
  pulls : w.pulls = pullReturns a.history

variable {w w' : World n α} {a : Atomic.World n (List α) (Op α) (Option (Result α))} {t : Fin n}
  {p : Pc α} {data : α} {maxSize : Int}

/-- A thread moves and its caller does not see it. -/
theorem Sees.hidden (h : Sees w a) (hstore : w'.store = w.store) (hpushes : w'.pushes = w.pushes)
    (hpulls : w'.pulls = w.pulls) (hpc : w'.pc = Function.update w.pc t p)
    (hp : p.status = (w.pc t).status) : Sees w' a where
  contents := hstore ▸ h.contents
  status := fun u => by
    rw [hpc]
    by_cases hu : u = t
    · rw [hu, Function.update_self, hp, h.status]
    · rw [Function.update_of_ne hu, h.status]
  pushes := hpushes.trans h.pushes
  pulls := hpulls.trans h.pulls

theorem Sees.update_status {s : Atomic.Status (Op α) (Option (Result α))} (h : Sees w a)
    (hp : p.status = s) (u : Fin n) :
    Function.update a.status t s u = (Function.update w.pc t p u).status := by
  by_cases hu : u = t
  · rw [hu, Function.update_self, Function.update_self, hp]
  · rw [Function.update_of_ne hu, Function.update_of_ne hu, h.status]

theorem Sees.lock (h : Sees w a) (hp : p.status = (w.pc t).status) (hs : w.lock t p = some w') :
    Sees w' a := by
  rw [World.lock] at hs
  split_ifs at hs
  obtain rfl := Option.some.inj hs
  exact h.hidden rfl rfl rfl rfl hp

/-- A thread outside calls. -/
theorem Sees.call {k : Op α} (h : Sees w a) (hp : p.status = .called k)
    (hs : w.call t p = some w') :
    ∃ a', Reachable (Atomic.step (atomicQueue maxSize)) a a' ∧ Sees w' a' := by
  cases hpc : w.pc t <;> simp only [World.call, hpc, reduceCtorEq] at hs
  obtain rfl := Option.some.inj hs
  have hidle : a.status t = .idle := by rw [h.status, hpc]; rfl
  refine ⟨_, Reachable.refl.next (Atomic.step_call (k := k) hidle), h.contents,
    h.update_status hp, ?_, ?_⟩
  · dsimp only
    rw [h.pushes, pushReturns, pushReturns, List.filterMap_append]
    exact (List.append_nil _).symm
  · dsimp only
    rw [h.pulls, pullReturns, pullReturns, List.filterMap_append]
    exact (List.append_nil _).symm

/-- After a change of the list, all others have been woken. -/
theorem Sees.acted {s : Atomic.Status (Op α) (Option (Result α))} (h : Sees w a)
    (hp : p.status = s) (u : Fin n) :
    Function.update a.status t s u =
      (Function.update (fun u => wake (w.pc u)) t p u).status := by
  by_cases hu : u = t
  · rw [hu, Function.update_self, Function.update_self, hp]
  · rw [Function.update_of_ne hu, Function.update_of_ne hu, status_wake, h.status]

theorem length_contents {s : Store α} {l : List Nat} (h : Rep s l) :
    ((s.contents l).length : Int) = s.queue.size := by
  rw [h.size, Store.contents, List.length_map]

/-- **`queue_push` acts where it links its node.** -/
theorem Sees.tryPush {m : Nat} (h : Sees w a) (hlimit : w.store.queue.maxSize = maxSize)
    (hpc : w.pc t = .pushing data) (hs : w.tryPush t data m = some w') :
    ∃ a', Reachable (Atomic.step (atomicQueue maxSize)) a a' ∧ Sees w' a' := by
  rw [World.tryPush] at hs
  split_ifs at hs with hfull hfresh
  · obtain rfl := Option.some.inj hs
    exact ⟨a, .refl, h.hidden rfl rfl rfl rfl (by rw [hpc]; rfl)⟩
  · obtain rfl := Option.some.inj hs
    obtain ⟨l, hrep, hstate⟩ := h.contents
    have hcalled : a.status t = .called (.push data) := by rw [h.status, hpc]; rfl
    have hready : (atomicQueue maxSize).ready (.push data) a.state = true := by
      simp only [atomicQueue, decide_eq_true_eq, hstate, length_contents hrep, ← hlimit]
      exact hfull
    refine ⟨_, Reachable.refl.next (Atomic.step_act hcalled hready), ⟨l ++ [m], hrep.enqueue hfresh,
      ?_⟩, h.acted rfl, h.pushes, h.pulls⟩
    dsimp only
    rw [hrep.contents_enqueue hfresh, hstate]
    rfl

/-- **`queue_pull` acts where it unlinks its node.** -/
theorem Sees.tryPull (h : Sees w a) (hpc : w.pc t = .pulling) :
    ∃ a', Reachable (Atomic.step (atomicQueue maxSize)) a a' ∧ Sees (w.tryPull t) a' := by
  rw [World.tryPull]
  split_ifs with hempty
  · exact ⟨a, .refl, h.hidden rfl rfl rfl rfl (by rw [hpc]; rfl)⟩
  · obtain ⟨l, hrep, hstate⟩ := h.contents
    cases l with
    | nil => exact (hempty (hrep.empty_iff.mpr rfl)).elim
    | cons b l =>
      have hcalled : a.status t = .called .pull := by rw [h.status, hpc]; rfl
      have hstate : a.state = w.store.front :: w.store.contents l := by
        rw [hstate, hrep.front]
        rfl
      have hready : (atomicQueue maxSize).ready .pull a.state = true := by
        rw [hstate]
        rfl
      refine ⟨_, Reachable.refl.next (Atomic.step_act hcalled hready), ⟨l, hrep.dequeue, ?_⟩,
        h.acted ?_, h.pushes, h.pulls⟩
      · dsimp only
        rw [hstate]
        rfl
      · rw [hstate]
        rfl

/-- A thread gives the mutex up and returns. -/
theorem Sees.ret {r : Result α} (h : Sees w a) (hp : (w.pc t).status = .done (some r))
    (hstore : w'.store = w.store) (hpc : w'.pc = Function.update w.pc t .outside)
    (hpushes : w'.pushes = w.pushes ++ pushReturns [(t, .ret (some r))])
    (hpulls : w'.pulls = w.pulls ++ pullReturns [(t, .ret (some r))]) :
    ∃ a', Reachable (Atomic.step (atomicQueue maxSize)) a a' ∧ Sees w' a' := by
  refine ⟨_, Reachable.refl.next (Atomic.step_ret ((h.status t).trans hp)), hstore ▸ h.contents,
    fun u => ?_, ?_, ?_⟩
  · rw [hpc]
    exact h.update_status (p := .outside) rfl u
  · rw [hpushes, h.pushes, pushReturns, pushReturns, pushReturns, List.filterMap_append]
  · rw [hpulls, h.pulls, pullReturns, pullReturns, pullReturns, List.filterMap_append]

/-- **A step of the threads is at most one step of the atomic queue.** -/
theorem Sees.step {e : Event n α} (h : Sees w a) (hi : Inv maxSize w)
    (hs : SharedQueue.step w e = some w') :
    ∃ a', Reachable (Atomic.step (atomicQueue maxSize)) a a' ∧ Sees w' a' := by
  cases e with
  | push t data => exact h.call rfl hs
  | pull t => exact h.call rfl hs
  | work t m =>
    rw [SharedQueue.step, work] at hs
    cases hpc : w.pc t with
    | outside => simp [hpc] at hs
    | pushLocking data =>
      simp only [hpc] at hs
      exact ⟨a, .refl, h.lock (by rw [hpc]; rfl) hs⟩
    | pushing data =>
      simp only [hpc] at hs
      exact h.tryPush hi.limit hpc hs
    | pushAsleep data => simp [hpc] at hs
    | pushWoken data =>
      simp only [hpc] at hs
      exact ⟨a, .refl, h.lock (by rw [hpc]; rfl) hs⟩
    | pushed data =>
      simp only [hpc] at hs
      obtain rfl := Option.some.inj hs
      exact h.ret (r := .pushed data) (by rw [hpc]; rfl) rfl rfl rfl (List.append_nil _).symm
    | pullLocking =>
      simp only [hpc] at hs
      exact ⟨a, .refl, h.lock (by rw [hpc]; rfl) hs⟩
    | pulling =>
      simp only [hpc] at hs
      obtain rfl := Option.some.inj hs
      exact h.tryPull hpc
    | pullAsleep => simp [hpc] at hs
    | pullWoken =>
      simp only [hpc] at hs
      exact ⟨a, .refl, h.lock (by rw [hpc]; rfl) hs⟩
    | pulled data =>
      simp only [hpc] at hs
      obtain rfl := Option.some.inj hs
      exact h.ret (r := .pulled data) (by rw [hpc]; rfl) rfl rfl (List.append_nil _).symm rfl
  | spurious t =>
    rw [SharedQueue.step] at hs
    cases hpc : w.pc t <;> simp only [hpc, reduceCtorEq] at hs
    case pushAsleep data =>
      obtain rfl := Option.some.inj hs
      exact ⟨a, .refl, h.hidden rfl rfl rfl rfl (by rw [hpc]; rfl)⟩
    case pullAsleep =>
      obtain rfl := Option.some.inj hs
      exact ⟨a, .refl, h.hidden rfl rfl rfl rfl (by rw [hpc]; rfl)⟩

/-! ## Coming to rest -/

/-- Whoever has the mutex can go on, as long as `malloc` finds an address. -/
theorem Pc.Holding.exists_work {m : Nat} (h : (w.pc t).Holding) (hfresh : w.store.Fresh m) :
    (work w t m).isSome = true := by
  cases hpc : w.pc t <;> simp only [hpc, Pc.Holding] at h <;> simp only [work, hpc]
  · rw [World.tryPush]
    split_ifs
    · rfl
    · rfl
  all_goals rfl

/-- Where the mutex is free, a thread inside can go on, or it sleeps. -/
theorem rest_cases {m : Nat} (hm : w.m = none) (hheld : ¬ (w.pc t).Holding)
    (hrest : ¬ (work w t m).isSome = true) :
    w.pc t = .outside ∨ (∃ data, w.pc t = .pushAsleep data) ∨ w.pc t = .pullAsleep := by
  cases hpc : w.pc t with
  | outside => exact Or.inl rfl
  | pushAsleep data => exact Or.inr (Or.inl ⟨data, rfl⟩)
  | pullAsleep => exact Or.inr (Or.inr rfl)
  | pushLocking data => simp [work, hpc, World.lock, hm] at hrest
  | pushWoken data => simp [work, hpc, World.lock, hm] at hrest
  | pullLocking => simp [work, hpc, World.lock, hm] at hrest
  | pullWoken => simp [work, hpc, World.lock, hm] at hrest
  | pushing data => exact (hheld (by rw [hpc]; trivial)).elim
  | pushed data => exact (hheld (by rw [hpc]; trivial)).elim
  | pulling => exact (hheld (by rw [hpc]; trivial)).elim
  | pulled data => exact (hheld (by rw [hpc]; trivial)).elim

/-- **The queue is an atomic queue.** Every reachable state is one of the atomic queue: the same
values in the same order, every caller waiting for the same, and the same returns. As long as
there is an address left, the threads come to rest only when nobody inside can act: producers wait
at a full queue, consumers at an empty one. -/
theorem queue_linearizable {nodes : Nat → QueueNode α}
    (h : Reachable step (World.start n maxSize nodes) w) :
    (∃ a, Reachable (Atomic.step (atomicQueue maxSize)) (Atomic.World.start n []) a ∧ Sees w a) ∧
    ((∀ m, ¬ w.store.Fresh m) ∨ (∃ t m, (work w t m).isSome = true) ∨
      ∀ t, w.pc t = .outside ∨ (∃ data, w.pc t = .pushAsleep data ∧ w.store.queue.Full) ∨
        w.pc t = .pullAsleep ∧ w.store.queue.Empty) := by
  constructor
  · have hstart : Sees (World.start n maxSize nodes) (Atomic.World.start n []) :=
      ⟨⟨[], rep_create maxSize nodes, rfl⟩, fun _ => rfl, rfl, rfl⟩
    obtain ⟨a, ha, -, hsees⟩ := h.simulate (R := fun w a => Inv maxSize w ∧ Sees w a)
      ⟨inv_start nodes, hstart⟩ fun w a e w' hwa hs => by
        obtain ⟨a', ha', hsees⟩ := hwa.2.step hwa.1 hs
        exact ⟨a', ha', inv_step hwa.1 hs, hsees⟩
    exact ⟨a, ha, hsees⟩
  · have hi := inv_reachable h
    by_cases hfresh : ∀ m, ¬ w.store.Fresh m
    · exact Or.inl hfresh
    push Not at hfresh
    obtain ⟨m, hm⟩ := hfresh
    by_cases hwork : ∃ t m, (work w t m).isSome = true
    · exact Or.inr (Or.inl hwork)
    have hheld : ∀ t, ¬ (w.pc t).Holding := fun t hheld => hwork ⟨t, m, hheld.exists_work hm⟩
    have hfree : w.m = none := by
      cases hmutex : w.m with
      | none => rfl
      | some u => exact absurd ((hi.mutex u).mpr hmutex) (hheld u)
    refine Or.inr (Or.inr fun t => ?_)
    have hawake := hi.awake t
    rcases rest_cases hfree (hheld t) fun hsome => hwork ⟨t, m, hsome⟩ with hpc | ⟨data, hpc⟩ | hpc
    · exact Or.inl hpc
    · rw [hpc] at hawake
      exact Or.inr (Or.inl ⟨data, hpc, hawake⟩)
    · rw [hpc] at hawake
      exact Or.inr (Or.inr ⟨hpc, hawake⟩)

/-- Two values go through a queue for one value. -/
theorem queue_linearizable_oneSlot :
    ∃ w, run step (World.start 2 1 fun _ => ⟨0, 0⟩) oneSlot = some w ∧ w.pulls = [(0, 7)] ∧
      ∃ a, Reachable (Atomic.step (atomicQueue 1)) (Atomic.World.start 2 []) a ∧ Sees w a := by
  have hend : (run step (World.start 2 1 fun _ => ⟨0, 0⟩) oneSlot).map World.pulls =
      some [(0, 7)] := by
    decide +kernel
  obtain ⟨w, hrun, hw⟩ := Option.map_eq_some_iff.mp hend
  exact ⟨w, hrun, hw, (queue_linearizable ⟨oneSlot, hrun⟩).1⟩

end SystemProgramming.SharedQueue
