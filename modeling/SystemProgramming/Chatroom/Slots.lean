import SystemProgramming.Foundation.Counting
import SystemProgramming.Chatroom.Server

/-!
# The slots of the chat server

As long as the accept loop never stores a descriptor that some slot still holds, the slots hold
different descriptors and `clientsCount` counts them. The loop and the thread of a slot change
`clients` under the mutex only; what the invariant has to follow is the descriptor of a thread that
has closed it and has not cleared its slot.

## Main definitions

* `DescriptorFree`: the accept loop stores a descriptor that no slot holds
* `SlotsOk`: slots are different and counted
* `Inv`: the invariant of the server

## Main results

* `inv_step`: every step that stores a free descriptor keeps the invariant
* `slotsOk_iff`: the slots are right exactly as long as stored descriptors are free
-/

namespace SystemProgramming.Chatroom

variable {w w' : World} {i j : Slot} {fd : Descriptor} {c : Connection}

/-- When the accept loop stores a descriptor, no slot holds it. -/
def DescriptorFree (w : World) : Event → Prop
  | .serve => ∀ fd, w.server = .registering fd → w.clientsCount ≠ maxClients →
      ∀ i, w.clients i ≠ some fd
  | _ => True

/-- Does a slot hold a descriptor? -/
def occupied : Option Descriptor → Nat
  | none => 0
  | some _ => 1

/-- No two slots hold the same descriptor, and `clientsCount` is their number. -/
structure SlotsOk (w : World) : Prop where
  distinct : ∀ i j fd, w.clients i = some fd → w.clients j = some fd → i = j
  count : w.clientsCount = (∑ i, occupied (w.clients i) : Nat)
  count_le : w.clientsCount ≤ maxClients

/-- The descriptor of the slot has not been closed. -/
def Pc.Open : Pc → Prop
  | .idle => False
  | .wantClear => False
  | .clearing => False
  | _ => True

/-- Does the thread hold the mutex? -/
def Pc.Locked : Pc → Prop
  | .writing _ _ _ => True
  | .writingBody _ _ _ _ => True
  | .clearing => True
  | _ => False

/-- The broadcast that the thread is sending. -/
def Pc.number : Pc → Option Nat
  | .writing n _ _ => some n
  | .writingBody n _ _ _ => some n
  | _ => none

/-- The loop has each slot before it at most once. -/
def Pc.LoopOk : Pc → Prop
  | .writing _ _ rest => rest.Nodup
  | .writingBody _ _ i rest => (i :: rest).Nodup
  | _ => True

/-- The descriptor that the accept loop has not stored yet. -/
def ServerPc.pending : ServerPc → Option Descriptor
  | .accepting => none
  | .wantRegister fd => some fd
  | .registering fd => some fd

/-- What clients have received, in the order of the broadcasts. -/
def InOrder (w : World) : Prop :=
  ∀ c, (w.received c).Pairwise (fun p q => p.1 ≤ q.1) ∧ ∀ p ∈ w.received c, p.1 < w.broadcasts

/-- **The invariant of the server.** -/
structure Inv (w : World) : Prop where
  slots : SlotsOk w
  idle : ∀ i, w.pc i = .idle ↔ w.clients i = none
  locked : ∀ i, (w.pc i).Locked → w.mutex = some (.client i)
  registering : ∀ fd, w.server = .registering fd → w.mutex = some .server
  opened : ∀ i fd, w.clients i = some fd → (w.pc i).Open → w.table fd ≠ none
  pending : ∀ fd, w.server.pending = some fd →
    w.table fd ≠ none ∧ ∀ i, w.clients i = some fd → ¬ (w.pc i).Open
  table : ∀ fd fd' c, w.table fd = some c → w.table fd' = some c → fd = fd'
  fresh : ∀ fd c, w.table fd = some c → c < w.connections
  loop : ∀ i, (w.pc i).LoopOk
  current : ∀ i n, (w.pc i).number = some n → n + 1 = w.broadcasts
  order : InOrder w

theorem inv_start : Inv World.start where
  slots :=
    { distinct := fun _ _ _ h => by simp [World.start] at h
      count := by simp [World.start, occupied]
      count_le := by simp [World.start] }
  idle := fun _ => by simp [World.start]
  locked := fun _ h => h.elim
  registering := fun _ h => by simp [World.start] at h
  opened := fun _ _ h => by simp [World.start] at h
  pending := fun _ h => by simp [World.start, ServerPc.pending] at h
  table := fun _ _ _ h => by simp [World.start] at h
  fresh := fun _ _ h => by simp [World.start] at h
  loop := fun _ => trivial
  current := fun _ _ h => by simp [World.start, Pc.number] at h
  order := fun _ => ⟨List.Pairwise.nil, fun _ h => by simp [World.start] at h⟩

theorem Pc.Locked.of_number {p : Pc} {n : Nat} (h : p.number = some n) : p.Locked := by
  cases p <;> trivial

/-! ## Slots -/

theorem sum_occupied_le (clients : Slot → Option Descriptor) :
    ∑ i, occupied (clients i) ≤ maxClients := by
  have hle : ∀ i ∈ Finset.univ, occupied (clients i) ≤ 1 := by
    intro i _
    cases clients i <;> simp [occupied]
  refine (Finset.sum_le_sum hle).trans ?_
  simp [Slot]

/-- There is a free slot unless the count says otherwise. -/
theorem SlotsOk.exists_free (h : SlotsOk w) (hcount : w.clientsCount ≠ maxClients) :
    ∃ id, (List.finRange maxClients).find? (fun id => (w.clients id).isNone) = some id ∧
      w.clients id = none := by
  have hfree : ∃ i, w.clients i = none := by
    by_contra hfull
    have hone : ∀ i, occupied (w.clients i) = 1 := by
      intro i
      cases hc : w.clients i with
      | none => exact (hfull ⟨i, hc⟩).elim
      | some fd => rfl
    apply hcount
    rw [h.count]
    simp [hone, Slot]
  obtain ⟨i, hi⟩ := hfree
  cases hfind : (List.finRange maxClients).find? (fun id => (w.clients id).isNone) with
  | none =>
    have := List.find?_eq_none.mp hfind i (List.mem_finRange i)
    simp [hi] at this
  | some id =>
    have := List.find?_some hfind
    exact ⟨id, rfl, by simpa using this⟩

theorem SlotsOk.update (h : SlotsOk w) {v : Option Descriptor} {count : Int}
    (hv : ∀ fd, v = some fd → ∀ j, w.clients j ≠ some fd)
    (hcount : count + occupied (w.clients i) = w.clientsCount + occupied v)
    (hclients : w'.clients = Function.update w.clients i v) (hw' : w'.clientsCount = count) :
    SlotsOk w' := by
  have hsum : w'.clientsCount = (∑ j, occupied (w'.clients j) : Nat) := by
    have hupdate := sum_update occupied w.clients i v
    have hold := h.count
    rw [hclients, hw']
    omega
  refine ⟨?_, hsum, ?_⟩
  · intro a b fd ha hb
    rw [hclients] at ha hb
    by_cases hai : a = i
    · by_cases hbi : b = i
      · rw [hai, hbi]
      · rw [hai, Function.update_self] at ha
        rw [Function.update_of_ne hbi] at hb
        exact (hv fd ha b hb).elim
    · rw [Function.update_of_ne hai] at ha
      by_cases hbi : b = i
      · rw [hbi, Function.update_self] at hb
        exact (hv fd hb a ha).elim
      · rw [Function.update_of_ne hbi] at hb
        exact h.distinct a b fd ha hb
  · rw [hsum]
    exact_mod_cast sum_occupied_le w'.clients

/-! ## Kinds of steps -/

/-- A thread moves on, and clients may receive something; slots and descriptors stay. -/
theorem Inv.move (hi : Inv w) {p : Pc} (hclients : w'.clients = w.clients)
    (hcount : w'.clientsCount = w.clientsCount) (hserver : w'.server = w.server)
    (htable : w'.table = w.table) (hconnections : w'.connections = w.connections)
    (hpc : w'.pc = Function.update w.pc i p) (hidle : p ≠ .idle) (hactive : w.pc i ≠ .idle)
    (hopen : p.Open → (w.pc i).Open) (hlocked : p.Locked → w'.mutex = some (.client i))
    (hmutex : ∀ t, t ≠ .client i → w.mutex = some t → w'.mutex = some t) (hloop : p.LoopOk)
    (hnumber : ∀ n, p.number = some n → n + 1 = w'.broadcasts)
    (hothers : ∀ j n, j ≠ i → (w.pc j).number = some n → n + 1 = w'.broadcasts)
    (horder : InOrder w') : Inv w' := by
  have hself : w'.pc i = p := by rw [hpc, Function.update_self]
  have hother : ∀ j, j ≠ i → w'.pc j = w.pc j := fun j hj => by rw [hpc, Function.update_of_ne hj]
  have hopen' : ∀ j, (w'.pc j).Open → (w.pc j).Open := by
    intro j h
    by_cases hj : j = i
    · rw [hj, hself] at h
      exact hj ▸ hopen h
    · rwa [hother j hj] at h
  refine
    { slots := ⟨hclients ▸ hi.slots.distinct, ?slots, hcount ▸ hi.slots.count_le⟩
      idle := ?idle, locked := ?locked
      registering := fun fd h => hmutex _ (by simp) (hi.registering fd (hserver ▸ h))
      opened := fun j fd h ho => htable ▸ hi.opened j fd (hclients ▸ h) (hopen' j ho)
      pending := ?pending
      table := htable ▸ hi.table
      fresh := fun fd c h => hconnections ▸ hi.fresh fd c (htable ▸ h)
      loop := ?loop, current := ?current, order := horder }
  case slots =>
    rw [hcount, hclients]
    exact hi.slots.count
  case idle =>
    intro j
    rw [hclients]
    by_cases hj : j = i
    · rw [hj, hself, ← hi.idle i]
      exact ⟨fun h => (hidle h).elim, fun h => (hactive h).elim⟩
    · rw [hother j hj]
      exact hi.idle j
  case locked =>
    intro j h
    by_cases hj : j = i
    · rw [hj, hself] at h
      rw [hj]
      exact hlocked h
    · rw [hother j hj] at h
      exact hmutex _ (by simpa using hj) (hi.locked j h)
  case pending =>
    intro fd h
    obtain ⟨hfd, hclosed⟩ := hi.pending fd (hserver ▸ h)
    exact ⟨htable ▸ hfd, fun j hj ho => hclosed j (hclients ▸ hj) (hopen' j ho)⟩
  case loop =>
    intro j
    by_cases hj : j = i
    · rw [hj, hself]
      exact hloop
    · rw [hother j hj]
      exact hi.loop j
  case current =>
    intro j n h
    by_cases hj : j = i
    · rw [hj, hself] at h
      exact hnumber n h
    · rw [hother j hj] at h
      exact hothers j n hj h

/-- Nobody else is in a broadcast while a thread holds the mutex. -/
theorem Inv.number_unique (hi : Inv w) (hlocked : (w.pc i).Locked) {n : Nat}
    (h : (w.pc j).number = some n) : j = i := by
  have hj := hi.locked j (.of_number h)
  rw [hi.locked i hlocked] at hj
  simpa using hj.symm

theorem InOrder.write (h : InOrder w) {n : Nat} (hn : n + 1 = w.broadcasts) (bytes : List UInt8)
    (fd : Descriptor) : InOrder (w.write n bytes fd) := by
  rw [World.write]
  split
  · exact h
  · rename_i c hc
    intro d
    dsimp only
    by_cases hd : d = c
    · rw [hd, Function.update_self]
      refine ⟨List.pairwise_append.mpr ⟨(h c).1, List.pairwise_singleton _ _, ?_⟩, ?_⟩
      · intro p hp q hq
        have hlt := (h c).2 p hp
        rw [List.mem_singleton.mp hq]
        dsimp only
        omega
      · intro p hp
        rcases List.mem_append.mp hp with hp | hp
        · exact (h c).2 p hp
        · rw [List.mem_singleton.mp hp]
          dsimp only
          omega
    · rw [Function.update_of_ne hd]
      exact h d

/-- What writing leaves alone. -/
theorem write_frame (w : World) (n : Nat) (bytes : List UInt8) (fd : Descriptor) :
    ∃ received, w.write n bytes fd = { w with received := received } := by
  rw [World.write]
  split
  · exact ⟨w.received, rfl⟩
  · exact ⟨_, rfl⟩

/-- A round of the loop of `write_to_clients`. -/
theorem Inv.round (hi : Inv w) {p : Pc} {n : Nat} {received : Connection → List (Nat × List UInt8)}
    (hnumber : (w.pc i).number = some n) (hp : p.number = some n) (hopen : p.Open)
    (hloop : p.LoopOk) (horder : InOrder { w with received := received }) :
    Inv { w with received := received, pc := Function.update w.pc i p } := by
  have hlocked := Pc.Locked.of_number hnumber
  refine hi.move (i := i) (p := p) rfl rfl rfl rfl rfl rfl ?_ ?_ (fun _ => ?_)
    (fun _ => hi.locked i hlocked) (fun _ _ h => h) hloop ?_ (fun j m _ h => hi.current j m h) horder
  · rintro rfl
    exact hopen
  · intro h
    rw [h] at hlocked
    exact hlocked
  · cases hpc : w.pc i <;> rw [hpc] at hnumber <;> trivial
  · intro m hm
    obtain rfl := Option.some.inj (hp.symm.trans hm)
    exact hi.current i _ hnumber

/-- No thread has the mutex while the accept loop has it. -/
theorem Inv.not_locked (hi : Inv w) (hserver : w.server = .registering fd) (i : Slot) :
    ¬ (w.pc i).Locked := by
  intro h
  have hmutex := hi.locked i h
  rw [hi.registering fd hserver] at hmutex
  simp at hmutex

/-- The accept loop closes a descriptor that it has no slot for. -/
theorem Inv.refuse (hi : Inv w) (hserver : w.server = .registering fd) :
    Inv { w.close fd with server := .accepting, mutex := none } := by
  obtain ⟨-, hclosed⟩ := hi.pending fd (by rw [hserver]; rfl)
  have htable : ∀ fd' c, Function.update w.table fd none fd' = some c →
      fd' ≠ fd ∧ w.table fd' = some c := by
    intro fd' c h
    by_cases hne : fd' = fd
    · simp [hne] at h
    · exact ⟨hne, by rwa [Function.update_of_ne hne] at h⟩
  exact
    { slots := ⟨hi.slots.distinct, hi.slots.count, hi.slots.count_le⟩
      idle := hi.idle
      locked := fun i h => (hi.not_locked hserver i h).elim
      registering := fun _ h => ServerPc.noConfusion h
      opened := fun i fd' h ho => by
        -- no thread works with a descriptor that is not stored
        have hne : fd' ≠ fd := by
          rintro rfl
          exact hclosed i h ho
        dsimp only [World.close]
        rw [Function.update_of_ne hne]
        exact hi.opened i fd' h ho
      pending := fun _ h => by simp [ServerPc.pending] at h
      table := fun a b c ha hb => hi.table a b c (htable a c ha).2 (htable b c hb).2
      fresh := fun a c h => hi.fresh a c (htable a c h).2
      loop := hi.loop
      current := hi.current
      order := hi.order }

/-- The accept loop stores a descriptor in a free slot, and starts its thread. -/
theorem Inv.store (hi : Inv w) (hserver : w.server = .registering fd) {id : Slot}
    (hid : w.clients id = none) (hfree : ∀ i, w.clients i ≠ some fd) :
    Inv { w with clients := Function.update w.clients id (some fd)
                 clientsCount := w.clientsCount + 1
                 pc := Function.update w.pc id .reading
                 server := .accepting
                 mutex := none } := by
  obtain ⟨hfd, -⟩ := hi.pending fd (by rw [hserver]; rfl)
  have hpc : ∀ i, Function.update w.pc id .reading i ≠ .reading →
      i ≠ id ∧ Function.update w.pc id .reading i = w.pc i := by
    intro i h
    by_cases hii : i = id
    · simp [hii] at h
    · exact ⟨hii, Function.update_of_ne hii _ _⟩
  refine
    { slots := hi.slots.update (i := id) (v := some fd) ?distinct ?count rfl rfl
      idle := ?idle, locked := ?locked
      registering := fun _ h => ServerPc.noConfusion h
      opened := ?opened
      pending := fun _ h => by simp [ServerPc.pending] at h
      table := hi.table
      fresh := hi.fresh
      loop := ?loop, current := ?current
      order := hi.order }
  case distinct =>
    intro fd' h
    obtain rfl := Option.some.inj h
    exact hfree
  case count =>
    rw [hid]
    simp [occupied]
  case idle =>
    intro i
    dsimp only
    by_cases hii : i = id
    · simp [hii]
    · rw [Function.update_of_ne hii, Function.update_of_ne hii]
      exact hi.idle i
  case locked =>
    intro i h
    dsimp only at h
    rw [(hpc i (by intro heq; rw [heq] at h; exact h)).2] at h
    exact (hi.not_locked hserver i h).elim
  case opened =>
    intro i fd' h ho
    dsimp only at h ho
    by_cases hii : i = id
    · rw [hii, Function.update_self] at h
      exact Option.some.inj h ▸ hfd
    · rw [Function.update_of_ne hii] at h ho
      exact hi.opened i fd' h ho
  case loop =>
    rw [Function.forall_update_iff w.pc fun _ (p : Pc) => p.LoopOk]
    exact ⟨trivial, fun j _ => hi.loop j⟩
  case current =>
    intro i n h
    dsimp only at h
    rw [(hpc i (by intro heq; rw [heq] at h; simp [Pc.number] at h)).2] at h
    exact hi.current i n h

/-- The accept loop stores a descriptor, or closes it. -/
theorem Inv.register (hi : Inv w) (hserver : w.server = .registering fd)
    (hfree : w.clientsCount ≠ maxClients → ∀ i, w.clients i ≠ some fd) : Inv (w.register fd) := by
  rw [World.register]
  split_ifs with hcount
  · exact hi.refuse hserver
  · obtain ⟨id, hfind, hid⟩ := hi.slots.exists_free hcount
    simp only [hfind]
    exact hi.store hserver hid (hfree hcount)

/-- A thread closes the descriptor of its slot. -/
theorem Inv.close (hi : Inv w) (hpc : w.pc i = .closing) (hfd : w.clients i = some fd) :
    Inv { w with table := Function.update w.table fd none
                 pc := Function.update w.pc i .wantClear } := by
  have hopen : (w.pc i).Open := by
    rw [hpc]
    trivial
  have htable : ∀ fd' c, Function.update w.table fd none fd' = some c →
      fd' ≠ fd ∧ w.table fd' = some c := by
    intro fd' c h
    by_cases hne : fd' = fd
    · simp [hne] at h
    · exact ⟨hne, by rwa [Function.update_of_ne hne] at h⟩
  have hother : ∀ j, (Function.update w.pc i .wantClear j).Open → j ≠ i ∧ (w.pc j).Open := by
    intro j h
    by_cases hj : j = i
    · rw [hj, Function.update_self] at h
      exact h.elim
    · exact ⟨hj, by rwa [Function.update_of_ne hj] at h⟩
  refine
    { slots := ⟨hi.slots.distinct, hi.slots.count, hi.slots.count_le⟩
      idle := ?idle, locked := ?locked
      registering := hi.registering
      opened := ?opened, pending := ?pending
      table := fun a b c ha hb => hi.table a b c (htable a c ha).2 (htable b c hb).2
      fresh := fun a c h => hi.fresh a c (htable a c h).2
      loop := ?loop, current := ?current
      order := hi.order }
  case idle =>
    intro j
    show Function.update w.pc i .wantClear j = .idle ↔ w.clients j = none
    by_cases hj : j = i
    · simp [hj, hfd]
    · rw [Function.update_of_ne hj]
      exact hi.idle j
  case locked =>
    intro j h
    by_cases hj : j = i
    · simp only [hj, Function.update_self] at h
      exact h.elim
    · simp only [Function.update_of_ne hj] at h
      exact hi.locked j h
  case opened =>
    intro j fd' h ho
    obtain ⟨hj, ho⟩ := hother j ho
    have hne : fd' ≠ fd := by
      rintro rfl
      exact hj (hi.slots.distinct j i fd' h hfd)
    show Function.update w.table fd none fd' ≠ none
    rw [Function.update_of_ne hne]
    exact hi.opened j fd' h ho
  case pending =>
    intro fd' h
    obtain ⟨hopened, hclosed⟩ := hi.pending fd' h
    have hne : fd' ≠ fd := by
      rintro rfl
      exact hclosed i hfd hopen
    refine ⟨?_, fun j hj ho => hclosed j hj (hother j ho).2⟩
    show Function.update w.table fd none fd' ≠ none
    rwa [Function.update_of_ne hne]
  case loop =>
    rw [Function.forall_update_iff w.pc fun _ (p : Pc) => p.LoopOk]
    exact ⟨trivial, fun j _ => hi.loop j⟩
  case current =>
    rw [Function.forall_update_iff w.pc fun _ (p : Pc) => ∀ n, p.number = some n → n + 1 = w.broadcasts]
    exact ⟨fun n h => by simp [Pc.number] at h, fun j _ => hi.current j⟩

/-- A thread clears its slot. -/
theorem Inv.clear (hi : Inv w) (hpc : w.pc i = .clearing) :
    Inv { w with clients := Function.update w.clients i none
                 clientsCount := w.clientsCount - 1
                 mutex := none
                 pc := Function.update w.pc i .idle } := by
  have hlocked : (w.pc i).Locked := by
    rw [hpc]
    trivial
  have hmutex := hi.locked i hlocked
  obtain ⟨fd, hfd⟩ : ∃ fd, w.clients i = some fd := by
    rw [← Option.ne_none_iff_exists', ne_eq, ← hi.idle i, hpc]
    decide
  have hclients : ∀ j fd, Function.update w.clients i none j = some fd →
      j ≠ i ∧ w.clients j = some fd := by
    intro j fd h
    by_cases hj : j = i
    · simp [hj] at h
    · exact ⟨hj, by rwa [Function.update_of_ne hj] at h⟩
  refine
    { slots := hi.slots.update (i := i) (v := none) (fun _ h => by simp at h) ?count rfl rfl
      idle := ?idle, locked := ?locked, registering := ?registering
      opened := ?opened, pending := ?pending
      table := hi.table
      fresh := hi.fresh
      loop := ?loop, current := ?current
      order := hi.order }
  case count =>
    rw [hfd]
    simp [occupied]
  case idle =>
    intro j
    dsimp only
    by_cases hj : j = i
    · simp [hj]
    · rw [Function.update_of_ne hj, Function.update_of_ne hj]
      exact hi.idle j
  case locked =>
    rw [Function.forall_update_iff w.pc fun j (p : Pc) => p.Locked → none = some (Thread.client j)]
    refine ⟨fun h => h.elim, fun j hj h => ?_⟩
    have := hi.locked j h
    rw [hmutex] at this
    simp only [Option.some.injEq, Thread.client.injEq] at this
    exact (hj this.symm).elim
  case registering =>
    intro fd h
    have := hi.registering fd h
    rw [hmutex] at this
    simp at this
  case opened =>
    intro j fd' h ho
    obtain ⟨hj, h⟩ := hclients j fd' h
    simp only [Function.update_of_ne hj] at ho
    exact hi.opened j fd' h ho
  case pending =>
    intro fd' h
    obtain ⟨hopened, hclosed⟩ := hi.pending fd' h
    refine ⟨hopened, fun j hj ho => ?_⟩
    obtain ⟨hne, hj⟩ := hclients j fd' hj
    simp only [Function.update_of_ne hne] at ho
    exact hclosed j hj ho
  case loop =>
    rw [Function.forall_update_iff w.pc fun _ (p : Pc) => p.LoopOk]
    exact ⟨trivial, fun j _ => hi.loop j⟩
  case current =>
    rw [Function.forall_update_iff w.pc fun _ (p : Pc) => ∀ n, p.number = some n → n + 1 = w.broadcasts]
    exact ⟨fun n h => by simp [Pc.number] at h, fun j _ => hi.current j⟩

/-- A thread gets the mutex for a broadcast, which is numbered. -/
theorem Inv.beginWrite (hi : Inv w) {message : List UInt8} (hpc : w.pc i = .wantWrite message)
    (hfree : w.mutex = none) :
    Inv { w with
      mutex := some (.client i)
      broadcasts := w.broadcasts + 1
      pc := Function.update w.pc i (.writing w.broadcasts message (List.finRange maxClients)) } := by
  refine hi.move (i := i) rfl rfl rfl rfl rfl rfl (by simp) (by simp [hpc]) ?_ (fun _ => rfl) ?_
    (List.nodup_finRange _) ?_ ?_ ?_
  · rw [hpc]
    exact id
  · rw [hfree]
    exact fun _ _ h => by simp at h
  · intro n hn
    rw [← Option.some.inj hn]
  · -- nobody is in a broadcast while the mutex is free
    intro j n _ hn
    have hj := hi.locked j (.of_number hn)
    rw [hfree] at hj
    simp at hj
  · exact fun c => ⟨(hi.order c).1, fun p hp => Nat.lt_succ_of_lt ((hi.order c).2 p hp)⟩

/-- A thread moves on outside of the broadcasts, and may give back the mutex. -/
theorem Inv.leave (hi : Inv w) {p : Pc} {mutex : Option Thread} (hactive : w.pc i ≠ .idle)
    (hidle : p ≠ .idle) (hopen : p.Open → (w.pc i).Open) (hlocked : ¬ p.Locked)
    (hmutex : ∀ t, t ≠ .client i → w.mutex = some t → mutex = some t) :
    Inv { w with mutex := mutex, pc := Function.update w.pc i p } := by
  have hnumber : ∀ n, p.number ≠ some n := fun n hn => hlocked (.of_number hn)
  have hloop : p.LoopOk := by
    cases p <;> first | trivial | exact (hlocked trivial).elim
  exact hi.move (i := i) rfl rfl rfl rfl rfl rfl hidle hactive hopen (fun h => (hlocked h).elim) hmutex
    hloop (fun n hn => (hnumber n hn).elim) (fun j m _ h => hi.current j m h) hi.order

/-- A connection is accepted at a descriptor that is not in use. -/
theorem Inv.accept (hi : Inv w) (hfd : w.table fd = none) :
    Inv { w with table := Function.update w.table fd (some w.connections)
                 connections := w.connections + 1
                 server := .wantRegister fd } := by
  have htable : ∀ a c, Function.update w.table fd (some w.connections) a = some c →
      (a = fd ∧ c = w.connections) ∨ (a ≠ fd ∧ w.table a = some c) := by
    intro a c h
    by_cases ha : a = fd
    · rw [ha, Function.update_self] at h
      exact Or.inl ⟨ha, (Option.some.inj h).symm⟩
    · rw [Function.update_of_ne ha] at h
      exact Or.inr ⟨ha, h⟩
  refine
    { slots := ⟨hi.slots.distinct, hi.slots.count, hi.slots.count_le⟩
      idle := hi.idle
      locked := hi.locked
      registering := fun _ h => by simp at h
      opened := ?opened, pending := ?pending, table := ?table, fresh := ?fresh
      loop := hi.loop
      current := hi.current
      order := hi.order }
  case opened =>
    intro i a h ho
    dsimp only
    by_cases ha : a = fd
    · simp [ha]
    · rw [Function.update_of_ne ha]
      exact hi.opened i a h ho
  case pending =>
    intro a ha
    obtain rfl : fd = a := Option.some.inj ha
    refine ⟨by simp, fun i h ho => ?_⟩
    exact hi.opened i fd h ho hfd
  case table =>
    -- a new connection is at no other descriptor
    intro a b c ha hb
    rcases htable a c ha with ⟨haf, hc⟩ | ⟨-, hac⟩
    · rcases htable b c hb with ⟨hbf, -⟩ | ⟨-, hbc⟩
      · exact haf.trans hbf.symm
      · exact ((hi.fresh b c hbc).ne hc).elim
    · rcases htable b c hb with ⟨-, hc⟩ | ⟨-, hbc⟩
      · exact ((hi.fresh a c hac).ne hc).elim
      · exact hi.table a b c hac hbc
  case fresh =>
    intro a c ha
    dsimp only
    rcases htable a c ha with ⟨-, rfl⟩ | ⟨-, ha⟩
    · exact Nat.lt_succ_self _
    · exact Nat.lt_succ_of_lt (hi.fresh a c ha)

/-- The accept loop gets the mutex. -/
theorem Inv.lockServer (hi : Inv w) (hserver : w.server = .wantRegister fd)
    (hfree : w.mutex = none) :
    Inv { w with mutex := some .server, server := .registering fd } where
  slots := ⟨hi.slots.distinct, hi.slots.count, hi.slots.count_le⟩
  idle := hi.idle
  locked := fun i hl => by
    have hmutex := hi.locked i hl
    rw [hfree] at hmutex
    simp at hmutex
  registering := fun _ _ => rfl
  opened := hi.opened
  pending := fun a ha => hi.pending a (by rw [hserver]; exact ha)
  table := hi.table
  fresh := hi.fresh
  loop := hi.loop
  current := hi.current
  order := hi.order

/-! ## Every step -/

/-- A step of a thread keeps the invariant. -/
theorem inv_work (hi : Inv w) (h : work w i = some w') : Inv w' := by
  have hloop := hi.loop i
  have hcurrent := hi.current i
  cases hpc : w.pc i with
  | idle => simp [work, hpc] at h
  | reading => simp [work, hpc] at h
  | wantWrite message =>
    simp only [work, hpc] at h
    split_ifs at h with hmutex
    obtain rfl := Option.some.inj h
    exact hi.beginWrite hpc (by simpa using hmutex)
  | writing n message rest =>
    rw [hpc] at hloop hcurrent
    have hnumber : (w.pc i).number = some n := by
      rw [hpc]
      rfl
    cases rest with
    | nil =>
      simp only [work, hpc] at h
      obtain rfl := Option.some.inj h
      refine hi.leave (by simp [hpc]) (by simp) (fun _ => by rw [hpc]; trivial) id ?_
      intro t ht hmutex
      rw [hi.locked i (.of_number hnumber)] at hmutex
      exact (ht (Option.some.inj hmutex).symm).elim
    | cons j rest =>
      have hrest : rest.Nodup := (List.nodup_cons.mp hloop).2
      simp only [work, hpc] at h
      split at h
      · -- an empty slot
        obtain rfl := Option.some.inj h
        exact hi.round hnumber rfl trivial hrest hi.order
      · rename_i fd _
        split_ifs at h with hfd
        · -- a descriptor that its own thread has closed
          obtain rfl := Option.some.inj h
          exact hi.round hnumber rfl trivial hrest hi.order
        · obtain rfl := Option.some.inj h
          have horder := hi.order.write (hcurrent n rfl) (networkSize message.length) fd
          obtain ⟨received, hwrite⟩ := write_frame w n (networkSize message.length) fd
          rw [hwrite] at horder ⊢
          exact hi.round hnumber rfl trivial hloop horder
  | writingBody n message j rest =>
    rw [hpc] at hloop hcurrent
    have hnumber : (w.pc i).number = some n := by
      rw [hpc]
      rfl
    have hrest : rest.Nodup := (List.nodup_cons.mp hloop).2
    simp only [work, hpc] at h
    split at h
    · obtain rfl := Option.some.inj h
      exact hi.round hnumber rfl trivial hrest hi.order
    · rename_i fd _
      obtain rfl := Option.some.inj h
      have horder := hi.order.write (hcurrent n rfl) message fd
      obtain ⟨received, hwrite⟩ := write_frame w n message fd
      rw [hwrite] at horder ⊢
      exact hi.round hnumber rfl trivial hrest horder
  | closing =>
    simp only [work, hpc] at h
    split at h
    · rename_i hnone
      have hidle := (hi.idle i).mpr hnone
      rw [hpc] at hidle
      exact Pc.noConfusion hidle
    · rename_i fd hfd
      obtain rfl := Option.some.inj h
      exact hi.close hpc hfd
  | wantClear =>
    simp only [work, hpc] at h
    split_ifs at h with hmutex
    obtain rfl := Option.some.inj h
    have hfree : w.mutex = none := by simpa using hmutex
    refine hi.move (i := i) rfl rfl rfl rfl rfl rfl (by simp) (by simp [hpc]) (fun h => h.elim)
      (fun _ => rfl) ?_ trivial (fun _ h => by simp [Pc.number] at h)
      (fun j m _ h => hi.current j m h) hi.order
    rw [hfree]
    exact fun _ _ h => by simp at h
  | clearing =>
    simp only [work, hpc] at h
    obtain rfl := Option.some.inj h
    exact hi.clear hpc

/-- **Every step keeps the invariant** that stores a descriptor which no slot holds. -/
theorem inv_step {e : Event} (hi : Inv w) (he : DescriptorFree w e) (h : step w e = some w') :
    Inv w' := by
  cases e with
  | accept fd =>
    simp only [step] at h
    split_ifs at h with hcond
    obtain rfl := Option.some.inj h
    exact hi.accept hcond.2
  | serve =>
    cases hserver : w.server with
    | accepting => simp [step, serve, hserver] at h
    | wantRegister fd =>
      simp only [step, serve, hserver] at h
      split_ifs at h with hmutex
      obtain rfl := Option.some.inj h
      exact hi.lockServer hserver (by simpa using hmutex)
    | registering fd =>
      simp only [step, serve, hserver] at h
      obtain rfl := Option.some.inj h
      exact hi.register hserver (he fd hserver)
  | message i message =>
    simp only [step] at h
    split_ifs at h with hcond
    obtain rfl := Option.some.inj h
    exact hi.leave (by simp [hcond.1]) (by simp) (fun _ => by rw [hcond.1]; trivial) id fun _ _ h => h
  | gone i =>
    simp only [step] at h
    split_ifs at h with hcond
    obtain rfl := Option.some.inj h
    exact hi.leave (by simp [hcond]) (by simp) (fun _ => by rw [hcond]; trivial) id fun _ _ h => h
  | work i => exact inv_work hi h

/-- A descriptor that a slot holds already is in two slots then. -/
theorem not_slotsOk_step {e : Event} (hi : Inv w) (he : ¬ DescriptorFree w e)
    (h : step w e = some w') : ¬ SlotsOk w' := by
  cases e with
  | serve =>
    simp only [DescriptorFree, not_forall, ne_eq, not_not] at he
    obtain ⟨fd, hserver, hcount, i, hheld⟩ := he
    obtain ⟨id, hfind, hid⟩ := hi.slots.exists_free hcount
    simp only [step, serve, hserver] at h
    obtain rfl := Option.some.inj h
    intro hslots
    rw [World.register, if_neg hcount] at hslots
    simp only [hfind] at hslots
    have hne : i ≠ id := by
      rintro rfl
      rw [hid] at hheld
      simp at hheld
    apply hne
    apply hslots.distinct i id fd
    · exact (Function.update_of_ne hne _ _).trans hheld
    · exact Function.update_self _ _ _
  | _ => exact (he trivial).elim

/-- **The slots are right in every state of a run exactly when the accept loop never stores a
descriptor that a slot holds.** -/
theorem slotsOk_iff {es : List Event} (hrun : run step World.start es = some w) :
    (∀ w, Visits step World.start es w → SlotsOk w) ↔
      ∀ w e, Takes step World.start es w e → DescriptorFree w e :=
  forall_visits_iff inv_start (fun _ _ _ hi he h => inv_step hi he h) (fun _ hi => hi.slots)
    (fun _ _ _ hi he h => not_slotsOk_step hi he h) hrun

end SystemProgramming.Chatroom
