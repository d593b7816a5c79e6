import Mathlib.Tactic
import SystemProgramming.Foundation.Run

/-!
# The queue of `critical_concurrency/queue.c`

A linked list of nodes on the heap with a head, a tail and a size, behind one mutex and one
condition variable on which producers and consumers wait alike.

The heap is read by address, `NULL` is `0`, and what it contains outside the nodes of the queue
is arbitrary. `malloc` returns the address that the event of the step names, so that every
choice of the allocator is covered: an address that is not allocated, and in the lower half of
the address space, which is where user memory is. `size` is an `ssize_t`, which wraps.

A step of the model is what a thread does with `m` between two points where it takes the mutex
or gives it up, so threads interleave at every `pthread_mutex_lock`, `pthread_cond_wait` and
`pthread_mutex_unlock`. A thread may wake up on its own.

## Main definitions

* `QueueNode`, `Queue`, `Heap`: the data of the source
* `queueCreate`, `Store.enqueue`, `Store.dequeue`: `queue_create`, and what `queue_push` and
  `queue_pull` do once their loops are over
* `Client`, `World`, `Event`, `step`: `n` threads that push and pull
-/

namespace SystemProgramming.SharedQueue

variable {α : Type*}

/-! ## The list -/

/-- `queue_node`. -/
structure QueueNode (α : Type*) where
  data : α
  next : Nat

/-- `queue`, without its mutex and its condition variable. -/
structure Queue where
  head : Nat
  tail : Nat
  size : Int
  maxSize : Int
  deriving DecidableEq

/-- The value that an `ssize_t` holds. -/
def ssize (x : Int) : Int := x.bmod (2 ^ 64)

/-- `queue_create`. -/
def queueCreate (maxSize : Int) : Queue := ⟨0, 0, 0, maxSize⟩

/-- The condition of the loop of `queue_push`. -/
def Queue.Full (q : Queue) : Prop := 0 < q.maxSize ∧ q.size = q.maxSize

instance (q : Queue) : Decidable q.Full := inferInstanceAs (Decidable (_ ∧ _))

/-- The condition of the loop of `queue_pull`. -/
def Queue.Empty (q : Queue) : Prop := q.size = 0

instance (q : Queue) : Decidable q.Empty := inferInstanceAs (Decidable (_ = _))

/-- A queue and the heap that its nodes are on. -/
structure Store (α : Type*) where
  queue : Queue
  nodes : Nat → QueueNode α
  allocated : Finset Nat

/-- An address that `malloc` may return. -/
def Store.Fresh (s : Store α) (a : Nat) : Prop := a ≠ 0 ∧ a < 2 ^ 63 ∧ a ∉ s.allocated

instance (s : Store α) (a : Nat) : Decidable (s.Fresh a) :=
  inferInstanceAs (Decidable (_ ∧ _ ∧ _))

/-- The new node, and the node before it linked to it. -/
def Store.linkNode (s : Store α) (a : Nat) (data : α) : Nat → QueueNode α :=
  let nodes := Function.update s.nodes a ⟨data, 0⟩
  if s.queue.tail ≠ 0 then
    Function.update nodes s.queue.tail { nodes s.queue.tail with next := a }
  else nodes

/-- `queue_push` after its loop: `malloc` has returned `a`. -/
def Store.enqueue (s : Store α) (a : Nat) (data : α) : Store α where
  queue :=
    { s.queue with
      head := if s.queue.tail ≠ 0 then s.queue.head else a
      tail := a
      size := ssize (s.queue.size + 1) }
  nodes := s.linkNode a data
  allocated := insert a s.allocated

/-- The data that `queue_pull` reads after its loop. -/
def Store.front (s : Store α) : α := (s.nodes s.queue.head).data

/-- `queue_pull` after its loop. -/
def Store.dequeue (s : Store α) : Store α where
  queue :=
    if ssize (s.queue.size - 1) = 0 then
      { s.queue with head := 0, tail := 0, size := ssize (s.queue.size - 1) }
    else
      { s.queue with
        head := (s.nodes s.queue.head).next
        size := ssize (s.queue.size - 1) }
  nodes := s.nodes
  allocated := s.allocated.erase s.queue.head

/-! ## The threads -/

/-- Where a thread is in `queue_push` or `queue_pull`. -/
inductive Pc (α : Type*) where
  | outside
  /-- In `queue_push`: before `pthread_mutex_lock`, and at the condition of the loop. -/
  | pushLocking (data : α)
  | pushing (data : α)
  /-- In `pthread_cond_wait` of `queue_push`, before and after a wakeup. -/
  | pushAsleep (data : α)
  | pushWoken (data : α)
  /-- In `queue_push`, before `pthread_mutex_unlock`. -/
  | pushed (data : α)
  /-- In `queue_pull`: before `pthread_mutex_lock`, and at the condition of the loop. -/
  | pullLocking
  | pulling
  /-- In `pthread_cond_wait` of `queue_pull`, before and after a wakeup. -/
  | pullAsleep
  | pullWoken
  /-- In `queue_pull`, before `pthread_mutex_unlock`. -/
  | pulled (data : α)
  deriving DecidableEq

/-- `pthread_cond_broadcast` or a spurious wakeup. -/
def wake : Pc α → Pc α
  | .pushAsleep data => .pushWoken data
  | .pullAsleep => .pullWoken
  | pc => pc

/-- `n` threads around a queue. The last three fields follow what has happened so far: the
values put into the list, and those of the calls that are over, each with its thread and in the
order in which the mutex was given up. -/
structure World (n : Nat) (α : Type*) where
  store : Store α
  m : Option (Fin n)
  pc : Fin n → Pc α
  enqueued : List (Fin n × α)
  pushes : List (Fin n × α)
  pulls : List (Fin n × α)

/-- A thread calls `queue_push` or `queue_pull`, takes a step, or wakes up on its own. `malloc`
would return `a` in the step. -/
inductive Event (n : Nat) (α : Type*) where
  | push (t : Fin n) (data : α)
  | pull (t : Fin n)
  | work (t : Fin n) (a : Nat)
  | spurious (t : Fin n)

variable {n : Nat}

/-- `pthread_mutex_lock`, or the end of `pthread_cond_wait`. -/
def World.lock (s : World n α) (t : Fin n) (pc : Pc α) : Option (World n α) :=
  if s.m.isSome then none else some { s with m := some t, pc := Function.update s.pc t pc }

/-- `pthread_cond_wait`: the mutex is given up. -/
def World.sleep (s : World n α) (t : Fin n) (pc : Pc α) : World n α :=
  { s with m := none, pc := Function.update s.pc t pc }

/-- A thread at the condition of `queue_push`: it waits, or adds its node and wakes all others. -/
def World.tryPush (s : World n α) (t : Fin n) (data : α) (a : Nat) : Option (World n α) :=
  if s.store.queue.Full then some (s.sleep t (.pushAsleep data))
  else if s.store.Fresh a then
    some { s with
      store := s.store.enqueue a data
      pc := Function.update (fun u => wake (s.pc u)) t (.pushed data)
      enqueued := s.enqueued ++ [(t, data)] }
  else none

/-- A thread at the condition of `queue_pull`: it waits, or takes a node out and wakes all
others. -/
def World.tryPull (s : World n α) (t : Fin n) : World n α :=
  if s.store.queue.Empty then s.sleep t .pullAsleep
  else
    { s with
      store := s.store.dequeue
      pc := Function.update (fun u => wake (s.pc u)) t (.pulled s.store.front) }

/-- One step of a thread. `none` is a thread that is blocked, or outside. -/
def work (s : World n α) (t : Fin n) (a : Nat) : Option (World n α) :=
  match s.pc t with
  | .outside => none
  | .pushLocking data => s.lock t (.pushing data)
  | .pushing data => s.tryPush t data a
  | .pushAsleep _ => none
  | .pushWoken data => s.lock t (.pushing data)
  | .pushed data =>
    some { s with
      m := none
      pc := Function.update s.pc t .outside
      pushes := s.pushes ++ [(t, data)] }
  | .pullLocking => s.lock t .pulling
  | .pulling => some (s.tryPull t)
  | .pullAsleep => none
  | .pullWoken => s.lock t .pulling
  | .pulled data =>
    some { s with
      m := none
      pc := Function.update s.pc t .outside
      pulls := s.pulls ++ [(t, data)] }

/-- A thread outside calls one of the two functions. -/
def World.call (s : World n α) (t : Fin n) (pc : Pc α) : Option (World n α) :=
  match s.pc t with
  | .outside => some { s with pc := Function.update s.pc t pc }
  | _ => none

/-- One event. -/
def step (s : World n α) : Event n α → Option (World n α)
  | .push t data => s.call t (.pushLocking data)
  | .pull t => s.call t .pullLocking
  | .work t a => work s t a
  | .spurious t =>
    match s.pc t with
    | .pushAsleep data => some { s with pc := Function.update s.pc t (.pushWoken data) }
    | .pullAsleep => some { s with pc := Function.update s.pc t .pullWoken }
    | _ => none

/-- `n` threads around a new queue, with a heap of any contents. -/
def World.start (n : Nat) (maxSize : Int) (nodes : Nat → QueueNode α) : World n α where
  store := ⟨queueCreate maxSize, nodes, ∅⟩
  m := none
  pc := fun _ => .outside
  enqueued := []
  pushes := []
  pulls := []

end SystemProgramming.SharedQueue
