import SystemProgramming.Foundation.LinkedList
import SystemProgramming.Concurrency.Queue

/-!
# The queue is first in, first out

The links run from the head through the nodes of the queue to the tail, and the nodes are what
is allocated. Adding a node appends its value, taking one out drops the first value, so the
values put into the list are those pulled, then one that a thread holds in its hand, then those
in the list. A thread has a value in its hand only while it has the mutex. A thread sleeps in
`queue_push` only while the queue is full, and in `queue_pull` only while it is empty: every
change of the size wakes all.

## Main definitions

* `Rep`, `Store.contents`: the nodes of a queue, and their values
* `World.linked`, `World.taken`: the value of a call that is about to return
* `Inv`: the invariant

## Main results

* `Rep.enqueue`, `Rep.dequeue`: the two operations on the list
* `inv_step`: every step keeps the invariant
* `queue_fifo`: order, bounds and wakeups in every reachable state
-/

namespace SystemProgramming.SharedQueue

variable {α : Type*} {n : Nat}

/-! ## The list -/

/-- The links run from the head through the nodes `l` to the tail, and nothing else is
allocated. -/
structure Rep (s : Store α) (l : List Nat) : Prop where
  linked : Linked (fun a => (s.nodes a).next) 0 s.queue.head l
  tail : s.queue.tail = l.getLast?.getD 0
  nodup : l.Nodup
  allocated : s.allocated = l.toFinset
  bound : ∀ a ∈ l, a < 2 ^ 63
  size : s.queue.size = l.length

/-- The values of the nodes `l`. -/
def Store.contents (s : Store α) (l : List Nat) : List α := l.map fun a => (s.nodes a).data

variable {s : Store α} {l : List Nat} {a : Nat} {data : α}

theorem rep_create (maxSize : Int) (nodes : Nat → QueueNode α) :
    Rep ⟨queueCreate maxSize, nodes, ∅⟩ [] where
  linked := rfl
  tail := rfl
  nodup := List.nodup_nil
  allocated := rfl
  bound := fun _ h => by simp at h
  size := rfl

/-- There are fewer addresses than an `ssize_t` can count. -/
theorem length_lt_of_nodup (hnodup : l.Nodup) (hne : ∀ a ∈ l, a ≠ 0)
    (hbound : ∀ a ∈ l, a < 2 ^ 63) : l.length < 2 ^ 63 := by
  have hsub : l.toFinset ⊆ Finset.Ioo 0 (2 ^ 63) := fun a ha => by
    have hmem := List.mem_toFinset.mp ha
    exact Finset.mem_Ioo.mpr ⟨Nat.pos_of_ne_zero (hne a hmem), hbound a hmem⟩
  have hcard := Finset.card_le_card hsub
  rw [List.toFinset_card_of_nodup hnodup, Nat.card_Ioo] at hcard
  omega

theorem Rep.length_lt (h : Rep s l) : l.length < 2 ^ 63 :=
  length_lt_of_nodup h.nodup (fun _ ha => h.linked.ne_nil ha) h.bound

theorem ssize_eq {x : Int} (hlow : -2 ^ 63 ≤ x) (hhigh : x < 2 ^ 63) : ssize x = x := by
  rw [ssize, Int.bmod_def]
  omega

theorem Rep.fresh_notMem (h : Rep s l) (ha : s.Fresh a) : a ∉ l := by
  have := ha.2.2
  rwa [h.allocated, List.mem_toFinset] at this

theorem Rep.tail_ne (h : Rep s l) : s.queue.tail ≠ 0 ↔ l ≠ [] := by
  rw [h.tail]
  rcases List.eq_nil_or_concat l with rfl | ⟨init, b, rfl⟩
  · simp
  · simpa using h.linked.ne_nil (x := b) (by simp)

/-- The nodes before the new one keep their values. -/
theorem Rep.linkNode_data (h : Rep s l) (ha : s.Fresh a) {b : Nat} (hb : b ∈ l) :
    (s.linkNode a data b).data = (s.nodes b).data := by
  have hab : b ≠ a := fun hab => h.fresh_notMem ha (hab ▸ hb)
  rw [Store.linkNode]
  split_ifs with htail
  · by_cases hbt : b = s.queue.tail
    · rw [hbt, Function.update_self, ← hbt, Function.update_of_ne hab]
    · rw [Function.update_of_ne hbt, Function.update_of_ne hab]
  · rw [Function.update_of_ne hab]

/-- The new node is the last one. -/
theorem Rep.linkNode_self (h : Rep s l) (ha : s.Fresh a) : s.linkNode a data a = ⟨data, 0⟩ := by
  rw [Store.linkNode]
  split_ifs with htail
  · have hta : a ≠ s.queue.tail := by
      rintro rfl
      rcases List.eq_nil_or_concat l with rfl | ⟨init, b, rfl⟩
      · exact h.tail_ne.mp htail rfl
      · exact h.fresh_notMem ha (by simp [h.tail])
    rw [Function.update_of_ne hta, Function.update_self]
  · rw [Function.update_self]

/-- The nodes before the last one are not the tail. -/
theorem Rep.ne_tail (h : Rep s l) {b : Nat} (hb : b ∈ l.dropLast) : b ≠ s.queue.tail := by
  rcases List.eq_nil_or_concat l with rfl | ⟨init, c, rfl⟩
  · simp at hb
  · have hnodup := h.nodup
    rw [List.concat_eq_append, List.dropLast_concat] at hb
    rw [h.tail, List.concat_eq_append, List.getLast?_concat, Option.getD_some]
    rw [List.concat_eq_append, List.nodup_append] at hnodup
    exact hnodup.2.2 b hb c (by simp)

/-- **`queue_push` appends its value.** -/
theorem Rep.enqueue (h : Rep s l) (ha : s.Fresh a) : Rep (s.enqueue a data) (l ++ [a]) := by
  have hnodup : (l ++ [a]).Nodup := by
    rw [List.nodup_append]
    refine ⟨h.nodup, List.nodup_singleton a, fun b hb c hc => ?_⟩
    obtain rfl : c = a := by simpa using hc
    exact fun hbc => h.fresh_notMem ha (hbc ▸ hb)
  have hbound : ∀ b ∈ l ++ [a], b < 2 ^ 63 := by
    intro b hb
    rcases List.mem_append.mp hb with hb | hb
    · exact h.bound b hb
    · obtain rfl : b = a := by simpa using hb
      exact ha.2.1
  have hlinked : Linked (fun b => ((s.enqueue a data).nodes b).next) 0 (l.headD a) (l ++ [a]) := by
    refine h.linked.concat ha.1 ?_ (fun b hb => ?_) fun b hb => ?_
    · change (s.linkNode a data a).next = 0
      rw [h.linkNode_self ha]
    · -- the last node is the tail, which is linked to the new one
      have htail : s.queue.tail = b := by rw [h.tail, hb, Option.getD_some]
      have hne : s.queue.tail ≠ 0 := h.tail_ne.mpr fun hl => by simp [hl] at hb
      change (s.linkNode a data b).next = a
      rw [Store.linkNode, if_pos hne, ← htail, Function.update_self]
    · have hbl : b ∈ l := List.dropLast_subset l hb
      have hba : b ≠ a := fun hab => h.fresh_notMem ha (hab ▸ hbl)
      have hne : s.queue.tail ≠ 0 := h.tail_ne.mpr fun hl => by simp [hl] at hb
      have hbt : b ≠ s.queue.tail := h.ne_tail hb
      change (s.linkNode a data b).next = (s.nodes b).next
      rw [Store.linkNode, if_pos hne, Function.update_of_ne hbt, Function.update_of_ne hba]
  refine ⟨?_, ?_, hnodup, ?_, hbound, ?_⟩
  · have hhead : (s.enqueue a data).queue.head = l.headD a := by
      change (if s.queue.tail ≠ 0 then s.queue.head else a) = l.headD a
      cases l with
      | nil => rw [if_neg fun hne => h.tail_ne.mp hne rfl, List.headD_nil]
      | cons b l => rw [if_pos (h.tail_ne.mpr (by simp)), h.linked.head_eq, List.headD_cons]
    rw [hhead]
    exact hlinked
  · rw [List.getLast?_concat]
    rfl
  · change insert a s.allocated = _
    rw [h.allocated]
    ext b
    simp
  · have hlt := length_lt_of_nodup hnodup (fun b hb => hlinked.ne_nil hb) hbound
    rw [List.length_append, List.length_singleton] at hlt ⊢
    change ssize (s.queue.size + 1) = _
    rw [h.size, ssize_eq (by omega) (by omega)]
    push_cast
    rfl

theorem Rep.contents_enqueue (h : Rep s l) (ha : s.Fresh a) :
    (s.enqueue a data).contents (l ++ [a]) = s.contents l ++ [data] := by
  rw [Store.contents, List.map_append, List.map_singleton, Store.contents]
  congr 1
  · exact List.map_congr_left fun b hb => h.linkNode_data ha hb
  · change [(s.linkNode a data a).data] = [data]
    rw [h.linkNode_self ha]

/-- **`queue_pull` drops the first value.** -/
theorem Rep.dequeue (h : Rep s (a :: l)) : Rep s.dequeue l := by
  have hsize : ssize (s.queue.size - 1) = l.length := by
    have hlt := h.length_lt
    have hlen : s.queue.size = l.length + 1 := by
      rw [h.size, List.length_cons]
      push_cast
      rfl
    rw [List.length_cons] at hlt
    rw [hlen, ssize_eq (by omega) (by omega)]
    omega
  have hhead := h.linked.head_eq
  have hnodup := List.nodup_cons.mp h.nodup
  have hallocated : s.allocated.erase s.queue.head = l.toFinset := by
    rw [hhead, h.allocated, List.toFinset_cons, Finset.erase_insert (by simpa using hnodup.1)]
  have hbound : ∀ b ∈ l, b < 2 ^ 63 := fun b hb => h.bound b (List.mem_cons_of_mem _ hb)
  cases l with
  | nil =>
    have hzero : ssize (s.queue.size - 1) = 0 := hsize
    rw [Store.dequeue, if_pos hzero]
    exact ⟨rfl, rfl, hnodup.2, hallocated, hbound, hsize⟩
  | cons b l =>
    have hne : ssize (s.queue.size - 1) ≠ 0 := by
      rw [hsize, List.length_cons]
      omega
    rw [Store.dequeue, if_neg hne]
    refine ⟨?_, ?_, hnodup.2, hallocated, hbound, hsize⟩
    · dsimp only
      rw [hhead]
      exact h.linked.tail
    · dsimp only
      rw [h.tail, List.getLast?_cons_cons]

theorem Rep.front (h : Rep s (a :: l)) : s.front = (s.nodes a).data := by
  rw [Store.front, h.linked.head_eq]

theorem Rep.empty_iff (h : Rep s l) : s.queue.Empty ↔ l = [] := by
  rw [Queue.Empty, h.size]
  simp

/-! ## The threads -/

/-- Does a thread have the mutex? -/
def Pc.Holding : Pc α → Prop
  | .pushing _ => True
  | .pushed _ => True
  | .pulling => True
  | .pulled _ => True
  | _ => False

/-- The value of a `queue_push` that is about to return. -/
def Pc.linked : Pc α → List α
  | .pushed data => [data]
  | _ => []

/-- The value of a `queue_pull` that is about to return. -/
def Pc.taken : Pc α → List α
  | .pulled data => [data]
  | _ => []

variable {w w' : World n α} {t : Fin n} {p : Pc α}

/-- The `queue_push` that has added its value and not returned. -/
def World.linked (w : World n α) : List (Fin n × α) :=
  w.m.elim [] fun t => (w.pc t).linked.map (t, ·)

/-- The `queue_pull` that has taken its value out and not returned. -/
def World.taken (w : World n α) : List (Fin n × α) :=
  w.m.elim [] fun t => (w.pc t).taken.map (t, ·)

/-- Nobody sleeps without a reason. -/
def Awake (q : Queue) : Pc α → Prop
  | .pushAsleep _ => q.Full
  | .pullAsleep => q.Empty
  | _ => True

/-- What the calls so far have put into the list and taken out of it, and what is left. -/
structure Accounted (w : World n α) (l : List Nat) : Prop where
  rep : Rep w.store l
  pushes : w.enqueued = w.pushes ++ w.linked
  pulls : w.enqueued.map Prod.snd =
    (w.pulls ++ w.taken).map Prod.snd ++ w.store.contents l

/-- **The invariant.** -/
structure Inv (maxSize : Int) (w : World n α) : Prop where
  limit : w.store.queue.maxSize = maxSize
  mutex : ∀ t, (w.pc t).Holding ↔ w.m = some t
  accounted : ∃ l, Accounted w l
  size_le : 0 < maxSize → w.store.queue.size ≤ maxSize
  awake : ∀ t, Awake w.store.queue (w.pc t)

theorem awake_wake (q : Queue) (p : Pc α) : Awake q (wake p) := by
  cases p <;> trivial

theorem holding_wake : (wake p).Holding ↔ p.Holding := by cases p <;> rfl

variable {maxSize : Int}

theorem inv_start (nodes : Nat → QueueNode α) :
    Inv maxSize (World.start n maxSize nodes) where
  limit := rfl
  mutex := fun t => ⟨False.elim, fun h => by cases h⟩
  accounted := ⟨[], rep_create maxSize nodes, rfl, rfl⟩
  size_le := fun h => h.le
  awake := fun _ => trivial

/-! ## Kinds of steps -/

/-- A thread moves, and the list and what is in hand stay. -/
theorem Inv.move (hi : Inv maxSize w) (hpc : w'.pc = Function.update w.pc t p)
    (hstore : w'.store = w.store) (henqueued : w'.enqueued = w.enqueued)
    (hpushes : w'.pushes = w.pushes) (hpulls : w'.pulls = w.pulls)
    (hlinked : w'.linked = w.linked) (htaken : w'.taken = w.taken)
    (hmutex : p.Holding ↔ w'.m = some t)
    (hothers : ∀ u, u ≠ t → (w'.m = some u ↔ w.m = some u)) (hawake : Awake w.store.queue p) :
    Inv maxSize w' where
  limit := hstore ▸ hi.limit
  mutex := fun u => by
    by_cases hu : u = t
    · rw [hu, hpc, Function.update_self, hmutex]
    · rw [hpc, Function.update_of_ne hu, hothers u hu, hi.mutex]
  accounted := by
    obtain ⟨l, hrep, hpush, hpull⟩ := hi.accounted
    refine ⟨l, hstore ▸ hrep, ?_, ?_⟩
    · rw [henqueued, hpushes, hlinked, hpush]
    · rw [henqueued, hpulls, htaken, hstore, hpull]
  size_le := hstore ▸ hi.size_le
  awake := fun u => by
    rw [hstore, hpc]
    by_cases hu : u = t
    · rw [hu, Function.update_self]
      exact hawake
    · rw [Function.update_of_ne hu]
      exact hi.awake u

/-- A thread without the mutex moves. -/
theorem Inv.moveOutside (hi : Inv maxSize w) (ht : ¬ (w.pc t).Holding) (hp : ¬ p.Holding)
    (hawake : Awake w.store.queue p) :
    Inv maxSize { w with pc := Function.update w.pc t p } := by
  have hm : w.m ≠ some t := fun h => ht ((hi.mutex t).mpr h)
  have hother : ∀ u, w.m = some u → Function.update w.pc t p u = w.pc u := by
    intro u hu
    refine Function.update_of_ne ?_ _ _
    rintro rfl
    exact hm hu
  refine hi.move (t := t) rfl rfl rfl rfl rfl ?_ ?_ (iff_of_false hp hm) (fun _ _ => Iff.rfl) hawake
  · cases h : w.m with
    | none => simp only [World.linked, h, Option.elim_none]
    | some u => simp only [World.linked, h, Option.elim_some, hother u h]
  · cases h : w.m with
    | none => simp only [World.taken, h, Option.elim_none]
    | some u => simp only [World.taken, h, Option.elim_some, hother u h]

/-- A thread takes the mutex. -/
theorem Inv.lock (hi : Inv maxSize w) (h : w.lock t p = some w') (hp : p.Holding)
    (hlinked : p.linked = []) (htaken : p.taken = []) (hawake : Awake w.store.queue p) :
    Inv maxSize w' := by
  rw [World.lock] at h
  split_ifs at h with hm
  obtain rfl := Option.some.inj h
  have hm : w.m = none := by simpa using hm
  refine hi.move (t := t) rfl rfl rfl rfl rfl ?_ ?_ (iff_of_true hp rfl) (fun u hu => ?_) hawake
  · simp [World.linked, hm, hlinked]
  · simp [World.taken, hm, htaken]
  · simp [hm, Ne.symm hu]

/-- A thread gives the mutex up to wait. -/
theorem Inv.sleep (hi : Inv maxSize w) (ht : (w.pc t).Holding) (hlinked : (w.pc t).linked = [])
    (htaken : (w.pc t).taken = []) (hp : ¬ p.Holding) (hawake : Awake w.store.queue p) :
    Inv maxSize (w.sleep t p) := by
  have hm : w.m = some t := (hi.mutex t).mp ht
  refine hi.move (t := t) rfl rfl rfl rfl rfl ?_ ?_ (iff_of_false hp (by simp [World.sleep]))
    (fun u hu => ?_) hawake
  · simp [World.linked, World.sleep, hm, hlinked]
  · simp [World.taken, World.sleep, hm, htaken]
  · simp [World.sleep, hm, Ne.symm hu]

/-- The mutex and the sleepers after a thread has changed the list and woken all others. -/
theorem Inv.broadcast (hi : Inv maxSize w) (ht : (w.pc t).Holding) (hp : p.Holding)
    (hpc : w'.pc = Function.update (fun u => wake (w.pc u)) t p) (hm : w'.m = w.m)
    (hawake : ∀ q, Awake q p) :
    (∀ u, (w'.pc u).Holding ↔ w'.m = some u) ∧ ∀ u, Awake w'.store.queue (w'.pc u) := by
  refine ⟨fun u => ?_, fun u => ?_⟩
  · by_cases hu : u = t
    · rw [hu, hpc, Function.update_self, hm]
      exact iff_of_true hp ((hi.mutex t).mp ht)
    · rw [hpc, Function.update_of_ne hu, holding_wake, hm, hi.mutex]
  · by_cases hu : u = t
    · rw [hu, hpc, Function.update_self]
      exact hawake _
    · rw [hpc, Function.update_of_ne hu]
      exact awake_wake _ _

/-- A thread at the condition of `queue_push`. -/
theorem Inv.tryPush (hi : Inv maxSize w) (hpc : w.pc t = .pushing data)
    (h : w.tryPush t data a = some w') : Inv maxSize w' := by
  have ht : (w.pc t).Holding := by
    rw [hpc]
    trivial
  have hm : w.m = some t := (hi.mutex t).mp ht
  rw [World.tryPush] at h
  split_ifs at h with hfull hfresh
  · obtain rfl := Option.some.inj h
    exact hi.sleep ht (by rw [hpc]; rfl) (by rw [hpc]; rfl) id hfull
  · obtain rfl := Option.some.inj h
    obtain ⟨l, hrep, hpush, hpull⟩ := hi.accounted
    have hheld : (Pc.pushed data).Holding := trivial
    obtain ⟨hmutex, hawake⟩ := @broadcast _ _ _ { w with
        store := w.store.enqueue a data
        pc := Function.update (fun u => wake (w.pc u)) t (.pushed data)
        enqueued := w.enqueued ++ [(t, data)] } _ _ _ hi ht hheld rfl rfl fun _ => trivial
    have hrep' : Rep (w.store.enqueue a data) (l ++ [a]) := hrep.enqueue hfresh
    refine ⟨hi.limit, hmutex, ⟨l ++ [a], hrep', ?_, ?_⟩, fun hpos => ?_, hawake⟩
    · -- the thread had nothing in hand, and now has its value
      have hnone : w.linked = [] := by simp [World.linked, hm, hpc, Pc.linked]
      simp only [World.linked, hm, Option.elim_some, Function.update_self, Pc.linked,
        List.map_singleton]
      rw [hpush, hnone, List.append_nil]
    · have hnone : w.taken = [] := by simp [World.taken, hm, hpc, Pc.taken]
      simp only [World.taken, hm, Option.elim_some, Function.update_self, Pc.taken, List.map_nil,
        List.append_nil]
      rw [hrep.contents_enqueue hfresh, List.map_append, hpull, hnone, List.append_nil,
        List.map_singleton, List.append_assoc]
    · -- the queue was not full, so there was room for one more
      have hsize := hrep'.size
      rw [List.length_append, List.length_singleton] at hsize
      have hold := hi.size_le hpos
      have hne : w.store.queue.size ≠ maxSize := fun heq =>
        hfull ⟨hi.limit ▸ hpos, heq.trans hi.limit.symm⟩
      have holdSize := hrep.size
      dsimp only
      omega

/-- A thread at the condition of `queue_pull`. -/
theorem Inv.tryPull (hi : Inv maxSize w) (hpc : w.pc t = .pulling) :
    Inv maxSize (w.tryPull t) := by
  have ht : (w.pc t).Holding := by
    rw [hpc]
    trivial
  have hm : w.m = some t := (hi.mutex t).mp ht
  rw [World.tryPull]
  split_ifs with hempty
  · exact hi.sleep ht (by rw [hpc]; rfl) (by rw [hpc]; rfl) id hempty
  · obtain ⟨l, hrep, hpush, hpull⟩ := hi.accounted
    have hheld : (Pc.pulled w.store.front).Holding := trivial
    obtain ⟨hmutex, hawake⟩ := @broadcast _ _ _ { w with
        store := w.store.dequeue
        pc := Function.update (fun u => wake (w.pc u)) t (.pulled w.store.front) }
      _ _ _ hi ht hheld rfl rfl fun _ => trivial
    cases l with
    | nil => exact (hempty (hrep.empty_iff.mpr rfl)).elim
    | cons a l =>
      have hmax : w.store.dequeue.queue.maxSize = maxSize := by
        rw [Store.dequeue]
        split_ifs <;> exact hi.limit
      have hrep' : Rep w.store.dequeue l := hrep.dequeue
      refine ⟨hmax, hmutex, ⟨l, hrep', ?_, ?_⟩, fun hpos => ?_, hawake⟩
      · have hnone : w.linked = [] := by simp [World.linked, hm, hpc, Pc.linked]
        simp only [World.linked, hm, Option.elim_some, Function.update_self, Pc.linked,
          List.map_nil, List.append_nil]
        rw [hpush, hnone, List.append_nil]
      · -- the first value of the list goes into the hand of the thread
        have hnone : w.taken = [] := by simp [World.taken, hm, hpc, Pc.taken]
        simp only [World.taken, hm, Option.elim_some, Function.update_self, Pc.taken,
          List.map_singleton, List.map_append]
        rw [hpull, hnone, List.append_nil, hrep.front, Store.contents, List.map_cons,
          List.append_assoc]
        rfl
      · have hold := hi.size_le hpos
        have holdSize := hrep.size
        have hsize := hrep'.size
        rw [List.length_cons] at holdSize
        dsimp only
        omega

/-- A thread gives the mutex up and returns from `queue_push`. -/
theorem Inv.pushed (hi : Inv maxSize w) (hpc : w.pc t = .pushed data) :
    Inv maxSize { w with
      m := none
      pc := Function.update w.pc t .outside
      pushes := w.pushes ++ [(t, data)] } := by
  have hm : w.m = some t := (hi.mutex t).mp (by rw [hpc]; trivial)
  obtain ⟨l, hrep, hpush, hpull⟩ := hi.accounted
  refine ⟨hi.limit, fun u => ?_, ⟨l, hrep, ?_, ?_⟩, hi.size_le, fun u => ?_⟩
  · by_cases hu : u = t
    · simp [hu, Pc.Holding]
    · simp [Function.update_of_ne hu, hi.mutex, hm, Ne.symm hu]
  · simpa [World.linked, hm, hpc, Pc.linked] using hpush
  · simpa [World.taken, hm, hpc, Pc.taken] using hpull
  · by_cases hu : u = t
    · simp [hu, Awake]
    · simpa [Function.update_of_ne hu] using hi.awake u

/-- A thread gives the mutex up and returns from `queue_pull`. -/
theorem Inv.pulled (hi : Inv maxSize w) (hpc : w.pc t = .pulled data) :
    Inv maxSize { w with
      m := none
      pc := Function.update w.pc t .outside
      pulls := w.pulls ++ [(t, data)] } := by
  have hm : w.m = some t := (hi.mutex t).mp (by rw [hpc]; trivial)
  obtain ⟨l, hrep, hpush, hpull⟩ := hi.accounted
  refine ⟨hi.limit, fun u => ?_, ⟨l, hrep, ?_, ?_⟩, hi.size_le, fun u => ?_⟩
  · by_cases hu : u = t
    · simp [hu, Pc.Holding]
    · simp [Function.update_of_ne hu, hi.mutex, hm, Ne.symm hu]
  · simpa [World.linked, hm, hpc, Pc.linked] using hpush
  · simpa [World.taken, hm, hpc, Pc.taken] using hpull
  · by_cases hu : u = t
    · simp [hu, Awake]
    · simpa [Function.update_of_ne hu] using hi.awake u

/-! ## Every step -/

/-- A thread takes a step. -/
theorem inv_work (hi : Inv maxSize w) (h : work w t a = some w') : Inv maxSize w' := by
  rw [work] at h
  cases hpc : w.pc t with
  | outside => simp [hpc] at h
  | pushLocking data =>
    simp only [hpc] at h
    exact hi.lock h trivial rfl rfl trivial
  | pushing data =>
    simp only [hpc] at h
    exact hi.tryPush hpc h
  | pushAsleep data => simp [hpc] at h
  | pushWoken data =>
    simp only [hpc] at h
    exact hi.lock h trivial rfl rfl trivial
  | pushed data =>
    simp only [hpc] at h
    obtain rfl := Option.some.inj h
    exact hi.pushed hpc
  | pullLocking =>
    simp only [hpc] at h
    exact hi.lock h trivial rfl rfl trivial
  | pulling =>
    simp only [hpc] at h
    obtain rfl := Option.some.inj h
    exact hi.tryPull hpc
  | pullAsleep => simp [hpc] at h
  | pullWoken =>
    simp only [hpc] at h
    exact hi.lock h trivial rfl rfl trivial
  | pulled data =>
    simp only [hpc] at h
    obtain rfl := Option.some.inj h
    exact hi.pulled hpc

/-- A thread outside calls one of the two functions. -/
theorem Inv.call (hi : Inv maxSize w) (h : w.call t p = some w') (hp : ¬ p.Holding)
    (hawake : Awake w.store.queue p) : Inv maxSize w' := by
  rw [World.call] at h
  cases hpc : w.pc t with
  | outside =>
    simp only [hpc] at h
    obtain rfl := Option.some.inj h
    exact hi.moveOutside (by rw [hpc]; exact id) hp hawake
  | _ => simp [hpc] at h

/-- **Every step keeps the invariant.** -/
theorem inv_step {e : Event n α} (hi : Inv maxSize w) (h : step w e = some w') :
    Inv maxSize w' := by
  cases e with
  | push t data => exact hi.call h id trivial
  | pull t => exact hi.call h id trivial
  | work t a => exact inv_work hi h
  | spurious t =>
    rw [step] at h
    cases hpc : w.pc t with
    | pushAsleep data =>
      simp only [hpc] at h
      obtain rfl := Option.some.inj h
      exact hi.moveOutside (by rw [hpc]; exact id) id trivial
    | pullAsleep =>
      simp only [hpc] at h
      obtain rfl := Option.some.inj h
      exact hi.moveOutside (by rw [hpc]; exact id) id trivial
    | _ => simp [hpc] at h

theorem inv_reachable {nodes : Nat → QueueNode α}
    (h : Reachable step (World.start n maxSize nodes) w) : Inv maxSize w :=
  h.invariant (inv_start nodes) fun _ _ _ hi hs => inv_step hi hs

/-- **The queue is first in, first out.** The values of the pulls that are over are the first of
those put into the list; what is not pulled is in the hand of the one thread that has the mutex,
or in the list between head and tail. `size` is the length of that list and within the bound.
Whoever sleeps without a wakeup waits for something that is not there. -/
theorem queue_fifo {nodes : Nat → QueueNode α}
    (h : Reachable step (World.start n maxSize nodes) w) :
    w.pulls.map Prod.snd <+: w.enqueued.map Prod.snd ∧
    w.enqueued = w.pushes ++ w.linked ∧
    (∃ l, Rep w.store l ∧ w.store.queue.size = l.length ∧
      w.enqueued.map Prod.snd =
        w.pulls.map Prod.snd ++ w.taken.map Prod.snd ++ w.store.contents l) ∧
    (0 < maxSize → w.store.queue.size ≤ maxSize) ∧
    ∀ t, (∀ data, w.pc t = .pushAsleep data → w.store.queue.Full) ∧
      (w.pc t = .pullAsleep → w.store.queue.Empty) := by
  have hi := inv_reachable h
  obtain ⟨l, hrep, hpush, hpull⟩ := hi.accounted
  rw [List.map_append] at hpull
  refine ⟨?_, hpush, ⟨l, hrep, hrep.size, hpull⟩, hi.size_le, fun t => ⟨fun data hpc => ?_,
    fun hpc => ?_⟩⟩
  · rw [hpull, List.append_assoc]
    exact List.prefix_append _ _
  · have hawake := hi.awake t
    rw [hpc] at hawake
    exact hawake
  · have hawake := hi.awake t
    rw [hpc] at hawake
    exact hawake

/-- A queue for one value. Thread `0` waits for a value, thread `1` pushes one and waits to push
another one until thread `0` has pulled the first. -/
def oneSlot : List (Event 2 Nat) :=
  [.pull 0, .work 0 0, .work 0 0, .push 1 7, .work 1 0, .work 1 16, .work 1 0, .push 1 8,
    .work 1 0, .work 1 32, .work 0 0, .work 0 0, .work 0 0, .work 1 0, .work 1 32]

theorem queue_fifo_oneSlot :
    ∃ w, run step (World.start 2 1 fun _ => ⟨0, 0⟩) oneSlot = some w ∧
      w.pulls = [(0, 7)] ∧ w.enqueued = [(1, 7), (1, 8)] ∧ w.store.queue = ⟨32, 32, 1, 1⟩ ∧
      w.pulls.map Prod.snd <+: w.enqueued.map Prod.snd := by
  have hend : (run step (World.start 2 1 fun _ => ⟨0, 0⟩) oneSlot).map
      (fun w => (w.pulls, w.enqueued, w.store.queue)) =
        some ([(0, 7)], [(1, 7), (1, 8)], ⟨32, 32, 1, 1⟩) := by
    decide +kernel
  obtain ⟨w, hrun, hw⟩ := Option.map_eq_some_iff.mp hend
  simp only [Prod.mk.injEq] at hw
  exact ⟨w, hrun, hw.1, hw.2.1, hw.2.2, (queue_fifo ⟨oneSlot, hrun⟩).1⟩

end SystemProgramming.SharedQueue
