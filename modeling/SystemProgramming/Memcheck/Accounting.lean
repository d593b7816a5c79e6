import SystemProgramming.Foundation.LinkedList
import SystemProgramming.Foundation.Run
import SystemProgramming.Memcheck.MiniMemcheck

/-!
# The accounts of the memory checker

A program calls the memory checker with any pointers. Beside the checker's state stands what
the program knows: the payloads it was given and has not freed, with their sizes, what it has
asked for and given back in all, and how often it passed a pointer that was not live.

## Main definitions

* `World`, `Call`, `step`: the checker with what the program knows, and a call
* `Answers`: the underlying allocator answers with addresses of no live block
* `Accounted`: the list of metadata and the counters agree with what the program knows
* `Kept`, `Call.Fits`: a call goes through and keeps the accounts; its block is not asked for with a
  size that wraps around, or not given

## Main results

* `Booked.kept_iff`: one call
* `accounting_iff`: every call of a run goes through, keeps the accounts and lowers no total, exactly
  when the blocks that are given have the size of the request
* `not_harmless`: a `realloc` that fails leaves no call that goes through
-/

namespace SystemProgramming.Memcheck

/-- A call of the program, with the answer of the underlying allocator. -/
inductive Call where
  | malloc (requestSize : Nat) (filename : String) (instruction block : Nat)
  | calloc (numElements elementSize : Nat) (filename : String) (instruction block : Nat)
  | realloc (payload requestSize : Nat) (filename : String) (instruction block : Nat)
  | free (payload : Nat)

/-- The checker, the live payloads with their sizes, the bytes asked for and given back so
far, and the number of calls with a pointer that was not live. -/
structure World where
  state : State
  live : List (Nat × Nat)
  requested : Nat
  freed : Nat
  invalid : Nat

/-- Before the first call. What memory holds is never read. -/
def World.start (mem : Nat → MetaData) : World := ⟨⟨mem, 0, 0, 0, 0⟩, [], 0, 0, 0⟩

namespace World

/-- The pointer may be passed to `mini_free` and `mini_realloc`. -/
def Live (w : World) (payload : Nat) : Prop := payload ∈ w.live.map Prod.fst

instance (w : World) (payload : Nat) : Decidable (w.Live payload) :=
  inferInstanceAs (Decidable (_ ∈ _))

/-- A block at this address is no live block. -/
def Fresh (w : World) (block : Nat) : Prop :=
  block ≠ 0 ∧ block + metaSize < 2 ^ 64 ∧ ¬ w.Live (block + metaSize)

instance (w : World) (block : Nat) : Decidable (w.Fresh block) :=
  inferInstanceAs (Decidable (_ ∧ _))

/-- `malloc` may fail; `realloc` succeeds, and may move the block. -/
def Answers (w : World) : Call → Prop
  | .malloc _ _ _ block => block = 0 ∨ w.Fresh block
  | .calloc _ _ _ _ block => block = 0 ∨ w.Fresh block
  | .realloc payload _ _ _ block =>
    if payload = 0 then block = 0 ∨ w.Fresh block else block + metaSize = payload ∨ w.Fresh block
  | .free _ => True

instance (w : World) (c : Call) : Decidable (w.Answers c) :=
  match c with
  | .malloc _ _ _ _ => inferInstanceAs (Decidable (_ ∨ _))
  | .calloc _ _ _ _ _ => inferInstanceAs (Decidable (_ ∨ _))
  | .realloc _ _ _ _ _ => inferInstanceAs (Decidable (ite _ _ _))
  | .free _ => inferInstanceAs (Decidable True)

/-- The program was given `payload` for `size` bytes, or a null pointer. -/
def given (w : World) (state : State) (payload size : Nat) : World :=
  if payload = 0 then { w with state := state }
  else { w with
    state := state
    live := (payload, size) :: w.live
    requested := w.requested + size }

/-- The size the program asked for at a live payload. -/
def sizeAt (w : World) (payload : Nat) : Nat := ((w.live.lookup payload).getD 0)

/-- The live payloads without this one. -/
def without (w : World) (payload : Nat) : List (Nat × Nat) :=
  w.live.filter fun e => e.1 ≠ payload

/-- The program passed `payload` to be freed. -/
def released (w : World) (state : State) (payload : Nat) : World :=
  if payload = 0 then { w with state := state }
  else if w.Live payload then
    { w with
      state := state
      live := w.without payload
      freed := w.freed + w.sizeAt payload }
  else { w with state := state, invalid := w.invalid + 1 }

/-- The program passed `payload` to be resized, and was given `payload'`. -/
def moved (w : World) (state : State) (payload payload' size : Nat) : World :=
  if w.Live payload then
    { w with
      state := state
      live := (payload', size) :: w.without payload
      requested := w.requested + (size - w.sizeAt payload)
      freed := w.freed + (w.sizeAt payload - size) }
  else { w with state := state, invalid := w.invalid + 1 }

/-- A call, and what the program makes of its result. -/
def perform (w : World) : Call → Option World
  | .malloc size filename instruction block => do
    let (payload, state) ← w.state.miniMalloc size filename instruction block
    some (w.given state payload size)
  | .calloc num size filename instruction block => do
    let (payload, state) ← w.state.miniCalloc num size filename instruction block
    some (w.given state payload (num * size % 2 ^ 64))
  | .realloc payload size filename instruction block => do
    let (payload', state) ← w.state.miniRealloc payload size filename instruction block
    if payload = 0 then some (w.given state payload' size)
    else if size = 0 then some (w.released state payload)
    else some (w.moved state payload payload' size)
  | .free payload => do
    let state ← w.state.miniFree payload
    some (w.released state payload)

end World

/-- A call that the allocator answers as it may. -/
def step (w : World) (c : Call) : Option World := if w.Answers c then w.perform c else none

/-- The list of metadata and the counters agree with what the program knows. -/
structure Accounted (w : World) : Prop where
  /-- each live payload has one node, with its size, and there are no other nodes -/
  nodes : ∃ l, Linked (fun node => (w.state.mem node).next) 0 w.state.head l ∧
    (l.map fun node => (node + metaSize, (w.state.mem node).requestSize)).Perm w.live
  /-- the live payloads are different -/
  distinct : (w.live.map Prod.fst).Nodup
  /-- the counters are the totals, and their difference is what is live, as words -/
  requested : w.state.totalMemoryRequested = w.requested % 2 ^ 64
  freed : w.state.totalMemoryFreed = w.freed % 2 ^ 64
  difference : (w.state.totalMemoryRequested + (2 ^ 64 - w.state.totalMemoryFreed)) % 2 ^ 64 =
    (w.live.map Prod.snd).sum % 2 ^ 64
  invalid : w.state.invalidAddresses = w.invalid % 2 ^ 64

/-- No total and, before it wraps around, no counter is smaller later on. -/
structure Later (w w' : World) : Prop where
  requested : w.requested ≤ w'.requested
  freed : w.freed ≤ w'.freed
  requestedCounter : w'.requested < 2 ^ 64 →
    w.state.totalMemoryRequested ≤ w'.state.totalMemoryRequested
  freedCounter : w'.freed < 2 ^ 64 → w.state.totalMemoryFreed ≤ w'.state.totalMemoryFreed

/-- The call goes through, and the accounts are kept. -/
def Kept (w : World) (c : Call) : Prop :=
  w.Answers c → ∃ w', step w c = some w' ∧ Accounted w' ∧ Later w w'

/-- The size of the block that the call asks for does not wrap around, or no block is given. A
pointer that is not live gets none. -/
def Call.Fits (w : World) : Call → Prop
  | .malloc size _ _ block => block = 0 ∨ metaSize + size < 2 ^ 64
  | .calloc num size _ _ block => block = 0 ∨ metaSize + num * size % 2 ^ 64 < 2 ^ 64
  | .realloc payload size _ _ block =>
    (if payload = 0 then block = 0 else ¬ w.Live payload) ∨ metaSize + size < 2 ^ 64
  | .free _ => True

instance (w : World) (c : Call) : Decidable (c.Fits w) :=
  match c with
  | .malloc _ _ _ _ => inferInstanceAs (Decidable (_ ∨ _))
  | .calloc _ _ _ _ _ => inferInstanceAs (Decidable (_ ∨ _))
  | .realloc _ _ _ _ _ => inferInstanceAs (Decidable (_ ∨ _))
  | .free _ => inferInstanceAs (Decidable True)

/-! ## Sizes -/

/-- A size that does not wrap around is the size of the block. -/
theorem blockSize_lt_iff {size : Nat} :
    blockSize size < metaSize + size ↔ ¬ metaSize + size < 2 ^ 64 := by
  rw [blockSize]
  omega

section Allocate

variable {s : State} {size instruction block : Nat} {filename : String}

theorem allocate_eq (h : block = 0 ∨ metaSize + size < 2 ^ 64) :
    s.allocate size filename instruction block =
      some (if block = 0 then (0, s)
        else (block + metaSize, s.insert size filename instruction block)) := by
  rw [State.allocate]
  split_ifs with hnull hlt
  · rfl
  · exact absurd (h.resolve_left hnull) (blockSize_lt_iff.mp hlt)
  · rfl

/-- A block that is too short is written behind its end. -/
theorem allocate_none (h : ¬ (block = 0 ∨ metaSize + size < 2 ^ 64)) :
    s.allocate size filename instruction block = none := by
  obtain ⟨hnull, hlarge⟩ := not_or.mp h
  rw [State.allocate, if_neg hnull, if_pos (blockSize_lt_iff.mpr hlarge)]

end Allocate

/-! ## The walks -/

section Walks

variable {mem : Nat → MetaData} {l a c : List Nat} {walk ptr x y : Nat}

theorem validPtr_eq (h : Linked (fun node => (mem node).next) 0 walk l) {fuel : Nat}
    (hfuel : l.length < fuel) :
    validPtr mem ptr fuel walk = some ((l.find? fun node => node + metaSize = ptr).getD 0) := by
  induction l generalizing walk fuel with
  | nil =>
    obtain ⟨fuel, rfl⟩ := Nat.exists_eq_succ_of_ne_zero (Nat.ne_of_gt hfuel)
    obtain rfl : walk = 0 := h
    rfl
  | cons z l ih =>
    obtain ⟨fuel, rfl⟩ := Nat.exists_eq_succ_of_ne_zero (Nat.ne_of_gt (Nat.zero_lt_of_lt hfuel))
    obtain ⟨rfl, hz, htail⟩ := h
    rw [validPtr, if_pos hz]
    by_cases hptr : walk + metaSize = ptr
    · simp [hptr]
    · simp only [if_neg hptr, List.find?_cons, decide_eq_false hptr]
      exact ih htail (Nat.lt_of_succ_lt_succ hfuel)

theorem beforeLoop_eq (h : Linked (fun node => (mem node).next) 0 walk (a ++ x :: c))
    (hx : x ∉ a) {fuel before : Nat} (hfuel : a.length < fuel) :
    beforeLoop mem x fuel before walk = some (a.getLastD before) := by
  induction a generalizing walk fuel before with
  | nil =>
    obtain ⟨fuel, rfl⟩ := Nat.exists_eq_succ_of_ne_zero (Nat.ne_of_gt hfuel)
    obtain ⟨rfl, hz, -⟩ := h
    simp [beforeLoop, hz]
  | cons z a ih =>
    obtain ⟨fuel, rfl⟩ := Nat.exists_eq_succ_of_ne_zero (Nat.ne_of_gt (Nat.zero_lt_of_lt hfuel))
    obtain ⟨rfl, hz, htail⟩ := h
    have hne : walk ≠ x := fun heq => hx (heq ▸ List.mem_cons_self)
    rw [beforeLoop, if_pos hz, if_neg hne,
      ih htail (fun hmem => hx (List.mem_cons_of_mem _ hmem)) (Nat.lt_of_succ_lt_succ hfuel),
      List.getLastD_cons]

theorem beforeNode_eq (h : Linked (fun node => (mem node).next) 0 walk (a ++ y :: x :: c))
    (hnodup : (a ++ y :: x :: c).Nodup) (hlen : (a ++ y :: x :: c).length ≤ 2 ^ 64) :
    beforeNode mem walk x = some y := by
  have hlen' : a.length + 2 ≤ 2 ^ 64 := by
    simp only [List.length_append, List.length_cons] at hlen
    omega
  cases a with
  | nil =>
    obtain ⟨rfl, hz, htail⟩ := h
    rw [beforeNode, if_pos hz]
    exact beforeLoop_eq (a := []) htail List.not_mem_nil (by simp [walkFuel])
  | cons z a =>
    obtain ⟨rfl, hz, htail⟩ := h
    have hx : x ∉ a ++ [y] := by
      intro hmem
      have hsplit : (walk :: (a ++ [y]) ++ x :: c).Nodup := by simpa using hnodup
      exact (List.nodup_append.mp hsplit).2.2 x (List.mem_cons_of_mem _ hmem) x
        List.mem_cons_self rfl
    have hshort : (a ++ [y]).length < walkFuel := by
      simp only [List.length_append, List.length_cons, List.length_nil, walkFuel] at hlen' ⊢
      omega
    have htail' : Linked (fun node => (mem node).next) 0 (mem walk).next ((a ++ [y]) ++ x :: c) := by
      simpa using htail
    rw [beforeNode, if_pos hz, beforeLoop_eq htail' hx hshort]
    simp

end Walks

/-! ## Live payloads -/

/-- A live payload and the others. -/
theorem perm_without {l : List (Nat × Nat)} {k v : Nat} (hnodup : (l.map Prod.fst).Nodup)
    (hmem : (k, v) ∈ l) : l.Perm ((k, v) :: l.filter fun e => e.1 ≠ k) := by
  induction l with
  | nil => exact absurd hmem List.not_mem_nil
  | cons e l ih =>
    obtain ⟨hnew, hnodup⟩ := List.nodup_cons.mp hnodup
    rcases List.mem_cons.mp hmem with rfl | hmem
    · have hall : l.filter (fun e => e.1 ≠ k) = l := by
        refine List.filter_eq_self.mpr fun e he => ?_
        have hmem : e.1 ∈ l.map Prod.fst := List.mem_map_of_mem he
        have hne : e.1 ≠ k := fun heq => hnew (heq ▸ hmem)
        simpa using hne
      have hcons : ((k, v) :: l).filter (fun e => e.1 ≠ k) = l := by
        rw [List.filter_cons_of_neg (by simp), hall]
      rw [hcons]
    · have hkey : k ∈ l.map Prod.fst := List.mem_map_of_mem hmem
      have hne : e.1 ≠ k := fun heq => hnew (heq ▸ hkey)
      have hcons : (e :: l).filter (fun e => e.1 ≠ k) = e :: l.filter fun e => e.1 ≠ k := by
        simp [hne]
      rw [hcons]
      exact ((ih hnodup hmem).cons e).trans (List.Perm.swap _ _ _)

theorem lookup_of_mem {l : List (Nat × Nat)} {k v : Nat} (hnodup : (l.map Prod.fst).Nodup)
    (hmem : (k, v) ∈ l) : l.lookup k = some v := by
  induction l with
  | nil => exact absurd hmem List.not_mem_nil
  | cons e l ih =>
    obtain ⟨hnew, hnodup⟩ := List.nodup_cons.mp hnodup
    rcases List.mem_cons.mp hmem with rfl | hmem
    · simp
    · have hkey : k ∈ l.map Prod.fst := List.mem_map_of_mem hmem
      have hne : k ≠ e.1 := fun heq => hnew (heq ▸ hkey)
      rw [List.lookup_cons, beq_false_of_ne hne]
      exact ih hnodup hmem

/-! ## The invariant -/

/-- The payload behind a node, with the size the node holds. -/
def State.entry (s : State) (node : Nat) : Nat × Nat := (node + metaSize, (s.mem node).requestSize)

/-- The link of each node. -/
def State.link (s : State) (node : Nat) : Nat := (s.mem node).next

/-- The list of metadata runs through the nodes `l`, which are the live payloads. -/
structure Booked (w : World) (l : List Nat) : Prop where
  linked : Linked w.state.link 0 w.state.head l
  nodup : l.Nodup
  bound : ∀ node ∈ l, node + metaSize < 2 ^ 64
  entries : (l.map w.state.entry).Perm w.live
  requested : w.state.totalMemoryRequested = w.requested % 2 ^ 64
  freed : w.state.totalMemoryFreed = w.freed % 2 ^ 64
  balance : w.requested = w.freed + (w.live.map Prod.snd).sum
  invalid : w.state.invalidAddresses = w.invalid % 2 ^ 64

theorem Booked.start (mem : Nat → MetaData) : Booked (World.start mem) [] :=
  ⟨rfl, List.nodup_nil, nofun, List.Perm.nil, rfl, rfl, rfl, rfl⟩

theorem mem_write (s : State) (node x : Nat) (data : MetaData) :
    (s.write node data).mem x = if x = node then data else s.mem x :=
  Function.update_apply _ _ _ _

namespace Booked

variable {w : World} {l : List Nat}

theorem perm_keys (h : Booked w l) : (l.map (· + metaSize)).Perm (w.live.map Prod.fst) := by
  have hmap := h.entries.map Prod.fst
  rw [List.map_map] at hmap
  exact hmap

theorem distinct (h : Booked w l) : (w.live.map Prod.fst).Nodup :=
  h.perm_keys.nodup_iff.mp (h.nodup.map fun _ _ heq => Nat.add_right_cancel heq)

theorem live_iff (h : Booked w l) {payload : Nat} :
    w.Live payload ↔ ∃ node ∈ l, node + metaSize = payload := by
  rw [World.Live, ← h.perm_keys.mem_iff, List.mem_map]

/-- There are no more nodes than addresses. -/
theorem length_le (h : Booked w l) : l.length ≤ 2 ^ 64 := by
  have hsub : l ⊆ List.range (2 ^ 64) := fun node hn =>
    List.mem_range.mpr (Nat.lt_of_le_of_lt (Nat.le_add_right _ _) (h.bound node hn))
  have hle := (h.nodup.subperm hsub).length_le
  rwa [List.length_range] at hle

theorem length_lt (h : Booked w l) : l.length < walkFuel := Nat.lt_succ_of_le h.length_le

theorem validPtr_live (h : Booked w l) {node : Nat} (hn : node ∈ l) :
    validPtr w.state.mem (node + metaSize) walkFuel w.state.head = some node := by
  rw [validPtr_eq h.linked h.length_lt]
  have hfind : l.find? (fun n => n + metaSize = node + metaSize) = some node := by
    rw [List.find?_eq_some_iff_append]
    obtain ⟨a, c, rfl⟩ := List.append_of_mem hn
    refine ⟨by simp, a, c, rfl, fun n ha => ?_⟩
    have hne : n ≠ node := (List.nodup_append.mp h.nodup).2.2 n ha node List.mem_cons_self
    simpa using hne
  rw [hfind]
  rfl

theorem validPtr_dead (h : Booked w l) {payload : Nat} (hp : ¬ w.Live payload) :
    validPtr w.state.mem payload walkFuel w.state.head = some 0 := by
  rw [validPtr_eq h.linked h.length_lt]
  have hfind : l.find? (fun n => n + metaSize = payload) = none := by
    rw [List.find?_eq_none]
    intro n hn heq
    exact hp (h.live_iff.mpr ⟨n, hn, of_decide_eq_true heq⟩)
  rw [hfind]
  rfl

/-- A new block goes in front of the list. -/
theorem insert (h : Booked w l) {block size instruction : Nat} {filename : String}
    (hb : w.Fresh block) :
    Booked (w.given (w.state.insert size filename instruction block) (block + metaSize) size)
      (block :: l) := by
  obtain ⟨hnil, hlt, hdead⟩ := hb
  have hnew : block ∉ l := fun hmem => hdead (h.live_iff.mpr ⟨block, hmem, rfl⟩)
  have hne {x : Nat} (hx : x ∈ l) : x ≠ block := fun heq => hnew (heq ▸ hx)
  have hgiven : block + metaSize ≠ 0 := by simp [metaSize]
  have hmem (x : Nat) : (w.state.insert size filename instruction block).mem x =
      if x = block then ⟨size, filename, instruction, w.state.head⟩ else w.state.mem x :=
    mem_write _ _ _ _
  simp only [World.given, hgiven, if_false]
  constructor
  case linked =>
    apply h.linked.push hnil
    · simp [State.link, hmem]
    · intro y hy
      simp [State.link, hmem, hne hy]
  case nodup => exact List.nodup_cons.mpr ⟨hnew, h.nodup⟩
  case bound =>
    intro node hn
    rcases List.mem_cons.mp hn with rfl | hn
    · exact hlt
    · exact h.bound node hn
  case entries =>
    have hold : l.map (w.state.insert size filename instruction block).entry =
        l.map w.state.entry :=
      List.map_congr_left fun x hx => by simp [State.entry, hmem, hne hx]
    have hfirst : (w.state.insert size filename instruction block).entry block =
        (block + metaSize, size) := by simp [State.entry, hmem]
    rw [List.map_cons, hold, hfirst]
    exact h.entries.cons _
  case requested =>
    show (w.state.totalMemoryRequested + size) % 2 ^ 64 = (w.requested + size) % 2 ^ 64
    rw [h.requested, Nat.mod_add_mod]
  case freed => exact h.freed
  case balance =>
    show w.requested + size = w.freed + (size + (w.live.map Prod.snd).sum)
    rw [h.balance]
    omega
  case invalid => exact h.invalid

/-- What the program asked for at a live payload is what its node says; the other payloads are
those of the other nodes. -/
theorem others {a c : List Nat} {node : Nat} (h : Booked w (a ++ node :: c)) :
    w.sizeAt (node + metaSize) = (w.state.mem node).requestSize ∧
      ((a ++ c).map w.state.entry).Perm (w.without (node + metaSize)) ∧
      (w.live.map Prod.snd).sum = (w.state.mem node).requestSize +
        ((w.without (node + metaSize)).map Prod.snd).sum := by
  have hmem : w.state.entry node ∈ w.live :=
    h.entries.mem_iff.mp (List.mem_map_of_mem (by simp))
  have hperm := perm_without h.distinct hmem
  refine ⟨?_, ?_, ?_⟩
  · rw [World.sizeAt, lookup_of_mem h.distinct hmem]
    rfl
  · have hmiddle : ((a ++ node :: c).map w.state.entry).Perm
        (w.state.entry node :: (a ++ c).map w.state.entry) :=
      List.perm_middle.map w.state.entry
    exact (hmiddle.symm.trans (h.entries.trans hperm)).cons_inv
  · have hsum := (hperm.map Prod.snd).sum_eq
    rw [hsum, List.map_cons, List.sum_cons]
    rfl

theorem live (h : Booked w l) {node : Nat} (hn : node ∈ l) : w.Live (node + metaSize) :=
  h.live_iff.mpr ⟨node, hn, rfl⟩

/-- A node that is taken out of the list is freed with its size. -/
theorem remove {a c : List Nat} {node : Nat} (h : Booked w (a ++ node :: c)) {s : State}
    (hlinked : Linked s.link 0 s.head (a ++ c))
    (hsize : ∀ x, (s.mem x).requestSize = (w.state.mem x).requestSize)
    (hrequested : s.totalMemoryRequested = w.state.totalMemoryRequested)
    (hfreed : s.totalMemoryFreed =
      (w.state.totalMemoryFreed + (w.state.mem node).requestSize) % 2 ^ 64)
    (hinvalid : s.invalidAddresses = w.state.invalidAddresses) :
    Booked (w.released s (node + metaSize)) (a ++ c) := by
  obtain ⟨hat, hothers, hsum⟩ := h.others
  have hnil : node + metaSize ≠ 0 := by simp [metaSize]
  have hlive : w.Live (node + metaSize) := h.live (by simp)
  have hsub : (a ++ c).Sublist (a ++ node :: c) :=
    List.Sublist.append_left (List.sublist_cons_self _ _) _
  simp only [World.released, hnil, hlive, if_false, if_true, hat]
  constructor
  case linked => exact hlinked
  case nodup => exact h.nodup.sublist hsub
  case bound => exact fun x hx => h.bound x (hsub.subset hx)
  case entries =>
    have hsame : s.entry = w.state.entry := funext fun x => by simp [State.entry, hsize x]
    rw [hsame]
    exact hothers
  case requested => exact hrequested.trans h.requested
  case freed =>
    show s.totalMemoryFreed = (w.freed + (w.state.mem node).requestSize) % 2 ^ 64
    rw [hfreed, h.freed, Nat.mod_add_mod]
  case balance =>
    show w.requested = w.freed + (w.state.mem node).requestSize +
      ((w.without (node + metaSize)).map Prod.snd).sum
    rw [h.balance, hsum, Nat.add_assoc]
  case invalid => exact hinvalid.trans h.invalid

/-- A node that is exchanged for one with a new size. -/
theorem resize {a c : List Nat} {node block size : Nat} (h : Booked w (a ++ node :: c))
    {s : State} (hlinked : Linked s.link 0 s.head (a ++ block :: c)) (hnew : block ∉ a ++ c)
    (hbound : block + metaSize < 2 ^ 64) (hblock : (s.mem block).requestSize = size)
    (hsize : ∀ x ∈ a ++ c, (s.mem x).requestSize = (w.state.mem x).requestSize)
    (hrequested : s.totalMemoryRequested =
      (w.state.totalMemoryRequested + (size - (w.state.mem node).requestSize)) % 2 ^ 64)
    (hfreed : s.totalMemoryFreed =
      (w.state.totalMemoryFreed + ((w.state.mem node).requestSize - size)) % 2 ^ 64)
    (hinvalid : s.invalidAddresses = w.state.invalidAddresses) :
    Booked (w.moved s (node + metaSize) (block + metaSize) size) (a ++ block :: c) := by
  obtain ⟨hat, hothers, hsum⟩ := h.others
  have hlive : w.Live (node + metaSize) := h.live (by simp)
  have hsub : (a ++ c).Sublist (a ++ node :: c) :=
    List.Sublist.append_left (List.sublist_cons_self _ _) _
  simp only [World.moved, hlive, if_true, hat]
  constructor
  case linked => exact hlinked
  case nodup =>
    exact List.perm_middle.nodup_iff.mpr (List.nodup_cons.mpr ⟨hnew, h.nodup.sublist hsub⟩)
  case bound =>
    intro x hx
    rcases List.mem_cons.mp (List.perm_middle.mem_iff.mp hx) with rfl | hx
    · exact hbound
    · exact h.bound x (hsub.subset hx)
  case entries =>
    have hsame : (a ++ c).map s.entry = (a ++ c).map w.state.entry :=
      List.map_congr_left fun x hx => by simp [State.entry, hsize x hx]
    have hentry : s.entry block = (block + metaSize, size) := by simp [State.entry, hblock]
    refine (List.perm_middle.map s.entry).trans ?_
    rw [List.map_cons, hsame, hentry]
    exact hothers.cons _
  case requested =>
    show s.totalMemoryRequested = (w.requested + (size - (w.state.mem node).requestSize)) % 2 ^ 64
    rw [hrequested, h.requested, Nat.mod_add_mod]
  case freed =>
    show s.totalMemoryFreed = (w.freed + ((w.state.mem node).requestSize - size)) % 2 ^ 64
    rw [hfreed, h.freed, Nat.mod_add_mod]
  case balance =>
    have hbalance := h.balance
    show w.requested + (size - (w.state.mem node).requestSize) =
      w.freed + ((w.state.mem node).requestSize - size) +
        (size + ((w.without (node + metaSize)).map Prod.snd).sum)
    omega
  case invalid => exact hinvalid.trans h.invalid

/-- A pointer that is not live is counted. -/
theorem reject (h : Booked w l) :
    Booked
      { w with
        state := { w.state with invalidAddresses := (w.state.invalidAddresses + 1) % 2 ^ 64 }
        invalid := w.invalid + 1 } l where
  linked := h.linked
  nodup := h.nodup
  bound := h.bound
  entries := h.entries
  requested := h.requested
  freed := h.freed
  balance := h.balance
  invalid := by
    show (w.state.invalidAddresses + 1) % 2 ^ 64 = (w.invalid + 1) % 2 ^ 64
    rw [h.invalid, Nat.mod_add_mod]

/-- The first node of a list is the head, and no other one is. -/
theorem ne_head {a c : List Nat} {y node : Nat} (h : Booked w (a ++ y :: node :: c)) :
    node ≠ w.state.head := by
  intro heq
  have hnodup := h.nodup
  cases a with
  | nil =>
    have hy : w.state.head = y := h.linked.head_eq
    simp [heq, hy] at hnodup
  | cons z a =>
    have hz : w.state.head = z := h.linked.head_eq
    simp [heq, hz] at hnodup

/-- `mini_free` goes through, whatever the pointer. -/
theorem free (h : Booked w l) (payload : Nat) :
    ∃ s l', w.state.miniFree payload = some s ∧ Booked (w.released s payload) l' := by
  unfold State.miniFree
  by_cases hnull : payload = 0
  · refine ⟨w.state, l, if_pos hnull, ?_⟩
    simpa [World.released, hnull] using h
  rw [if_neg hnull]
  by_cases hlive : w.Live payload
  · obtain ⟨node, hn, rfl⟩ := h.live_iff.mp hlive
    have hnil : node ≠ 0 := h.linked.ne_nil hn
    obtain ⟨a, c, rfl⟩ := List.append_of_mem hn
    rw [h.validPtr_live hn, Option.bind_eq_bind, Option.bind_some, if_pos hnil]
    obtain rfl | ⟨a, y, rfl⟩ := a.eq_nil_or_concat'
    · -- the node is the head of the list
      have hhead : w.state.head = node := h.linked.head_eq
      refine ⟨_, c, if_pos hhead.symm, ?_⟩
      refine h.remove (a := []) ?_ (fun _ => rfl) rfl rfl rfl
      have htail : Linked w.state.link 0 (w.state.link node) c := h.linked.tail
      rw [← hhead] at htail
      exact htail
    · have h' : Booked w (a ++ y :: node :: c) := by simpa using h
      have hy : y ≠ 0 := h'.linked.ne_nil (by simp)
      have hne : ∀ x ∈ a ++ node :: c, x ≠ y := by
        have hnodup := List.perm_middle.nodup_iff.mp h'.nodup
        exact fun x hx heq => (List.nodup_cons.mp hnodup).1 (heq ▸ hx)
      rw [if_neg h'.ne_head, beforeNode_eq h'.linked h'.nodup h'.length_le, Option.bind_some,
        State.setNext, if_pos hy]
      refine ⟨_, a ++ [y] ++ c, rfl, ?_⟩
      refine h.remove ?_ (fun x => ?_) rfl ?_ rfl
      · -- the node before takes over the link
        have hlinked : Linked (w.state.write y
            { w.state.mem y with next := (w.state.mem node).next }).link 0 w.state.head
            (a ++ y :: c) := by
          apply h'.linked.unlink
          · simp [State.link, mem_write]
          · intro z hz
            have hzy : z ≠ y := hne z (by
              rcases List.mem_append.mp hz with hz | hz <;> simp [hz])
            simp [State.link, mem_write, hzy]
        rw [List.append_assoc, List.singleton_append]
        exact hlinked
      · by_cases hx : x = y <;> simp [mem_write, hx]
      · have hny : node ≠ y := hne node (by simp)
        simp [State.write, hny]
  · rw [h.validPtr_dead hlive, Option.bind_eq_bind, Option.bind_some, if_neg (by simp)]
    refine ⟨_, l, rfl, ?_⟩
    simpa [World.released, hnull, hlive] using h.reject

/-- The counters when a change of size has been counted. -/
theorem countResize_spec (h : Booked w l) (prev size : Nat) :
    (w.state.countResize prev size).mem = w.state.mem ∧
      (w.state.countResize prev size).head = w.state.head ∧
      (w.state.countResize prev size).totalMemoryRequested =
        (w.state.totalMemoryRequested + (size - prev)) % 2 ^ 64 ∧
      (w.state.countResize prev size).totalMemoryFreed =
        (w.state.totalMemoryFreed + (prev - size)) % 2 ^ 64 ∧
      (w.state.countResize prev size).invalidAddresses = w.state.invalidAddresses := by
  have hrequested := h.requested
  have hfreed := h.freed
  unfold State.countResize
  split_ifs with hlt
  · refine ⟨rfl, rfl, rfl, ?_, rfl⟩
    show w.state.totalMemoryFreed = _
    omega
  · refine ⟨rfl, rfl, ?_, rfl, rfl⟩
    show w.state.totalMemoryRequested = _
    omega

section Realloc

variable {a c : List Nat} {node size block instruction : Nat} {filename : String}

/-- The block is the node itself, or none of the nodes. -/
theorem place (h : Booked w (a ++ node :: c))
    (hb : block + metaSize = node + metaSize ∨ w.Fresh block) :
    block ∉ a ++ c ∧ block ≠ 0 ∧ block + metaSize < 2 ^ 64 := by
  have hn : node ∈ a ++ node :: c := by simp
  rcases hb with heq | hfresh
  · obtain rfl : block = node := Nat.add_right_cancel heq
    have hnodup := List.nodup_cons.mp (List.perm_middle.nodup_iff.mp h.nodup)
    exact ⟨hnodup.1, h.linked.ne_nil hn, h.bound block hn⟩
  · refine ⟨fun hmem => hfresh.2.2 (h.live ?_), hfresh.1, hfresh.2.1⟩
    rcases List.mem_append.mp hmem with hmem | hmem <;> simp [hmem]

/-- `mini_realloc` for a live pointer: the change counted, the node moved, then its neighbour. -/
theorem miniRealloc_live (h : Booked w l) (hn : node ∈ l) (hsize : size ≠ 0) (hblock : block ≠ 0)
    (hfits : metaSize + size < 2 ^ 64) {s : State}
    (hs : w.state.countResize (w.state.mem node).requestSize size = s) :
    w.state.miniRealloc (node + metaSize) size filename instruction block =
      if node = s.head then
        some (block + metaSize, { s.resized node size block with head := block })
      else (beforeNode s.mem s.head node).bind fun before =>
        ((s.resized node size block).setNext before block).bind fun s' =>
          some (block + metaSize, s') := by
  have hnull : node + metaSize ≠ 0 := by simp [metaSize]
  have hnil : node ≠ 0 := h.linked.ne_nil hn
  have hresize : s.resize node size block = some (s.resized node size block) := by
    rw [State.resize, if_neg (not_or.mpr ⟨hblock, fun hlt => blockSize_lt_iff.mp hlt hfits⟩)]
  simp only [State.miniRealloc, hnull, hsize, h.validPtr_live hn, hnil, hs, hresize, false_and,
    if_false, Option.bind_eq_bind, Option.bind_some]

variable {s : State}

theorem resized_mem (hmem : s.mem = w.state.mem) (x : Nat) :
    (s.resized node size block).mem x =
      if x = block then { w.state.mem node with requestSize := size } else w.state.mem x := by
  rw [State.resized, mem_write, hmem]

/-- The node at the head of the list moves, and the head with it. -/
theorem resize_head (h : Booked w (node :: c)) (hnew : block ∉ c) (hnull : block ≠ 0)
    (hbound : block + metaSize < 2 ^ 64)
    (hs : w.state.countResize (w.state.mem node).requestSize size = s) :
    Booked (w.moved { s.resized node size block with head := block } (node + metaSize)
      (block + metaSize) size) (block :: c) := by
  obtain ⟨hmem, -, hrequested, hfreed, hinvalid⟩ :=
    h.countResize_spec (w.state.mem node).requestSize size
  rw [hs] at hmem hrequested hfreed hinvalid
  have hother {x : Nat} (hx : x ∈ c) : x ≠ block := fun heq => hnew (heq ▸ hx)
  refine h.resize (a := []) ⟨rfl, hnull, ?_⟩ hnew hbound ?_ ?_ hrequested hfreed hinvalid
  · have htail : Linked w.state.link 0 (w.state.link node) c := h.linked.tail
    have hcongr : Linked (s.resized node size block).link 0 (w.state.link node) c :=
      htail.congr fun x hx => by
        simp [State.link, resized_mem hmem, hother hx]
    have hlink : (s.resized node size block).link block = w.state.link node := by
      simp [State.link, resized_mem hmem]
    rw [← hlink] at hcongr
    exact hcongr
  · simp [resized_mem hmem]
  · intro x hx
    simp [resized_mem hmem, hother hx]

/-- A node behind another one moves, and the node before takes over the link. -/
theorem resize_behind {y : Nat} (h : Booked w (a ++ y :: node :: c)) (hnew : block ∉ a ++ y :: c)
    (hnull : block ≠ 0) (hbound : block + metaSize < 2 ^ 64)
    (hs : w.state.countResize (w.state.mem node).requestSize size = s) :
    Booked (w.moved ((s.resized node size block).write y
      { (s.resized node size block).mem y with next := block }) (node + metaSize)
      (block + metaSize) size) (a ++ [y] ++ block :: c) := by
  obtain ⟨hmem, hhead, hrequested, hfreed, hinvalid⟩ :=
    h.countResize_spec (w.state.mem node).requestSize size
  rw [hs] at hmem hhead hrequested hfreed hinvalid
  have h' : Booked w (a ++ [y] ++ node :: c) := by simpa using h
  have hnew' : block ∉ a ++ [y] ++ c := by simpa using hnew
  have hother {x : Nat} (hx : x ∈ a ++ [y] ++ c) : x ≠ block := fun heq => hnew' (heq ▸ hx)
  have hyb : y ≠ block := hother (by simp)
  have hne : ∀ x ∈ a ++ c, x ≠ y := by
    have hnodup := List.perm_middle.nodup_iff.mp h.nodup
    intro x hx heq
    refine (List.nodup_cons.mp hnodup).1 (heq ▸ ?_)
    rcases List.mem_append.mp hx with hx | hx <;> simp [hx]
  have hwritten (x : Nat) : ((s.resized node size block).write y
      { (s.resized node size block).mem y with next := block }).mem x =
        if x = y then { (s.resized node size block).mem y with next := block }
        else (s.resized node size block).mem x := mem_write _ _ _ _
  refine h'.resize ?_ hnew' hbound ?_ ?_ hrequested hfreed hinvalid
  · have hlinked : Linked ((s.resized node size block).write y
        { (s.resized node size block).mem y with next := block }).link 0 w.state.head
        (a ++ y :: block :: c) := by
      apply h.linked.replace hnull
      · simp only [State.link]
        rw [hwritten, if_pos rfl]
      · simp only [State.link]
        rw [hwritten, if_neg hyb.symm, resized_mem hmem, if_pos rfl]
      · intro z hz
        have hz' : z ∈ a ++ [y] ++ c := by
          rcases List.mem_append.mp hz with hz | hz <;> simp [hz]
        simp only [State.link]
        rw [hwritten, if_neg (hne z hz), resized_mem hmem, if_neg (hother hz')]
    rw [List.append_assoc, List.singleton_append]
    exact hhead ▸ hlinked
  · rw [hwritten, if_neg hyb.symm, resized_mem hmem, if_pos rfl]
  · intro x hx
    rw [hwritten]
    split_ifs with hxy
    · rw [hxy, resized_mem hmem, if_neg hyb]
    · rw [resized_mem hmem, if_neg (hother hx)]

/-- `mini_realloc` goes through for a live pointer, and its node moves with the block. -/
theorem realloc (h : Booked w l) (hn : node ∈ l) (hsize : size ≠ 0)
    (hfits : metaSize + size < 2 ^ 64)
    (hb : block + metaSize = node + metaSize ∨ w.Fresh block) :
    ∃ s l', w.state.miniRealloc (node + metaSize) size filename instruction block =
        some (block + metaSize, s) ∧
      Booked (w.moved s (node + metaSize) (block + metaSize) size) l' := by
  obtain ⟨a, c, rfl⟩ := List.append_of_mem hn
  obtain ⟨hnew, hnull, hbound⟩ := h.place hb
  obtain ⟨hmem, hhead, -⟩ := h.countResize_spec (w.state.mem node).requestSize size
  rw [h.miniRealloc_live hn hsize hnull hfits rfl, hmem, hhead]
  obtain rfl | ⟨a, y, rfl⟩ := a.eq_nil_or_concat'
  · -- the node is the head of the list
    have hfirst : w.state.head = node := h.linked.head_eq
    exact ⟨_, _, if_pos hfirst.symm, h.resize_head hnew hnull hbound rfl⟩
  · -- the walk finds the node before
    have h' : Booked w (a ++ y :: node :: c) := by simpa using h
    have hy : y ≠ 0 := h'.linked.ne_nil (by simp)
    rw [if_neg h'.ne_head, beforeNode_eq h'.linked h'.nodup h'.length_le, Option.bind_some,
      State.setNext, if_pos hy, Option.bind_some]
    exact ⟨_, _, rfl, h'.resize_behind (by simpa using hnew) hnull hbound rfl⟩

end Realloc

end Booked

section Step

variable {w w' : World} {l l' : List Nat}

theorem Booked.accounted (h : Booked w l) : Accounted w where
  nodes := ⟨l, h.linked, h.entries⟩
  distinct := h.distinct
  requested := h.requested
  freed := h.freed
  difference := by
    have hrequested := h.requested
    have hfreed := h.freed
    have hbalance := h.balance
    omega
  invalid := h.invalid

/-- The counters are the totals, so they wrap around together. -/
theorem Booked.later (h : Booked w l) (h' : Booked w' l') (hrequested : w.requested ≤ w'.requested)
    (hfreed : w.freed ≤ w'.freed) : Later w w' where
  requested := hrequested
  freed := hfreed
  requestedCounter := fun hlt => by
    rw [h.requested, h'.requested, Nat.mod_eq_of_lt hlt]
    exact (Nat.mod_le _ _).trans hrequested
  freedCounter := fun hlt => by
    rw [h.freed, h'.freed, Nat.mod_eq_of_lt hlt]
    exact (Nat.mod_le _ _).trans hfreed

theorem given_totals (state : State) (payload size : Nat) :
    w.requested ≤ (w.given state payload size).requested ∧
      w.freed ≤ (w.given state payload size).freed := by
  unfold World.given
  split_ifs <;> exact ⟨by simp, by simp⟩

theorem released_totals (state : State) (payload : Nat) :
    w.requested ≤ (w.released state payload).requested ∧
      w.freed ≤ (w.released state payload).freed := by
  unfold World.released
  split_ifs <;> exact ⟨by simp, by simp⟩

theorem moved_totals (state : State) (payload payload' size : Nat) :
    w.requested ≤ (w.moved state payload payload' size).requested ∧
      w.freed ≤ (w.moved state payload payload' size).freed := by
  unfold World.moved
  split_ifs <;> exact ⟨by simp, by simp⟩

/-- A request that fails changes nothing; a block that is granted goes in front of the list. -/
theorem Booked.request (h : Booked w l) {block size instruction : Nat} {filename : String}
    (hb : block = 0 ∨ w.Fresh block) (hfits : block = 0 ∨ metaSize + size < 2 ^ 64) :
    ∃ r l', w.state.allocate size filename instruction block = some r ∧
      Booked (w.given r.2 r.1 size) l' := by
  rw [allocate_eq hfits]
  split_ifs with hnull
  · exact ⟨_, l, rfl, by simpa [World.given] using h⟩
  · exact ⟨_, block :: l, rfl, h.insert (hb.resolve_left hnull)⟩

/-- A call of `mini_realloc`: an allocation, a free, an invalid address or a resize. -/
theorem Booked.performRealloc (h : Booked w l) {payload size instruction block : Nat}
    {filename : String} (hc : w.Answers (.realloc payload size filename instruction block))
    (hfits : (Call.realloc payload size filename instruction block).Fits w) :
    ∃ w' l', w.perform (.realloc payload size filename instruction block) = some w' ∧
      Booked w' l' ∧ w.requested ≤ w'.requested ∧ w.freed ≤ w'.freed := by
  -- `mini_malloc` does the work
  by_cases hnull : payload = 0
  · subst hnull
    by_cases hsize : size = 0
    · refine ⟨w, l, ?_, h, le_rfl, le_rfl⟩
      simp [World.perform, State.miniRealloc, hsize, World.given]
    · have hb : block = 0 ∨ w.Fresh block := by simpa [World.Answers] using hc
      obtain ⟨r, l', hr, h'⟩ :=
        @Booked.request w l h block size instruction filename hb
          (by simpa [Call.Fits] using hfits)
      refine ⟨_, l', ?_, h', given_totals _ _ _⟩
      simp [World.perform, State.miniRealloc, State.miniMalloc, hsize, hr]
  have hb : block + metaSize = payload ∨ w.Fresh block := by
    simpa [World.Answers, hnull] using hc
  -- `mini_free` does the work
  by_cases hsize : size = 0
  · obtain ⟨s, l', hfree, h'⟩ := h.free payload
    refine ⟨_, l', ?_, h', released_totals _ _⟩
    simp [World.perform, State.miniRealloc, hnull, hsize, hfree]
  by_cases hlive : w.Live payload
  · obtain ⟨node, hn, rfl⟩ := h.live_iff.mp hlive
    have hlt : metaSize + size < 2 ^ 64 := by
      rw [Call.Fits, if_neg hnull] at hfits
      exact hfits.resolve_left (not_not.mpr hlive)
    obtain ⟨s, l', hrealloc, h'⟩ := @Booked.realloc w l node size block instruction filename
      h hn hsize hlt hb
    refine ⟨_, l', ?_, h', moved_totals _ _ _ _⟩
    simp only [World.perform, hrealloc, Option.bind_eq_bind, Option.bind_some, if_neg hnull,
      if_neg hsize]
  -- an address that is not in the list is only counted
  · refine ⟨_, l, ?_, h.reject, le_rfl, le_rfl⟩
    have hdead : w.state.miniRealloc payload size filename instruction block =
        some (0, { w.state with
          invalidAddresses := (w.state.invalidAddresses + 1) % 2 ^ 64 }) := by
      simp [State.miniRealloc, hnull, hsize, h.validPtr_dead hlive]
    simp [World.perform, hdead, hnull, hsize, World.moved, hlive]

/-- **One call.** It goes through, and keeps the accounts. -/
theorem Booked.perform (h : Booked w l) {c : Call} (hc : w.Answers c) (hfits : c.Fits w) :
    ∃ w' l', w.perform c = some w' ∧ Booked w' l' ∧ w.requested ≤ w'.requested ∧
      w.freed ≤ w'.freed := by
  cases c with
  | malloc size filename instruction block =>
    -- a size of zero is answered at once, with `NULL`
    by_cases hsize : size = 0
    · refine ⟨w, l, ?_, h, le_rfl, le_rfl⟩
      simp [World.perform, State.miniMalloc, hsize, World.given]
    · obtain ⟨r, l', hr, h'⟩ := @Booked.request w l h block size instruction filename hc hfits
      refine ⟨_, l', ?_, h', given_totals _ _ _⟩
      simp only [World.perform, State.miniMalloc, if_neg hsize, hr, Option.bind_eq_bind,
        Option.bind_some]
  | calloc num size filename instruction block =>
    by_cases hsize : num = 0 ∨ size = 0
    · refine ⟨w, l, ?_, h, le_rfl, le_rfl⟩
      simp [World.perform, State.miniCalloc, hsize, World.given]
    · obtain ⟨r, l', hr, h'⟩ :=
        @Booked.request w l h block (num * size % 2 ^ 64) instruction filename hc hfits
      refine ⟨_, l', ?_, h', given_totals _ _ _⟩
      simp only [World.perform, State.miniCalloc, if_neg hsize, hr, Option.bind_eq_bind,
        Option.bind_some]
  | free payload =>
    obtain ⟨s, l', hfree, h'⟩ := h.free payload
    refine ⟨_, l', ?_, h', released_totals _ _⟩
    simp only [World.perform, hfree, Option.bind_eq_bind, Option.bind_some]
  | realloc payload size filename instruction block =>
    exact h.performRealloc hc hfits

/-- For a live pointer the new size is written to the block that `realloc` gives, for the head and for
other nodes. -/
theorem Booked.realloc_none (h : Booked w l) {payload size block : Nat} (hlive : w.Live payload)
    (hsize : size ≠ 0) (hblock : block = 0 ∨ ¬ metaSize + size < 2 ^ 64) (filename : String)
    (instruction : Nat) : w.state.miniRealloc payload size filename instruction block = none := by
  obtain ⟨node, hn, rfl⟩ := h.live_iff.mp hlive
  have hnull : node + metaSize ≠ 0 := by simp [metaSize]
  have hnil : node ≠ 0 := h.linked.ne_nil hn
  have hresize : ∀ s : State, s.resize node size block = none := fun s =>
    if_pos (hblock.imp_right blockSize_lt_iff.mpr)
  simp only [State.miniRealloc, hnull, hsize, h.validPtr_live hn, hnil, hresize, false_and, if_false,
    Option.bind_eq_bind, Option.bind_some, Option.bind_none, Option.bind_fun_none, ite_self]

/-- A block whose size has wrapped around is written behind its end. -/
theorem Booked.perform_none (h : Booked w l) {c : Call} (hfits : ¬ c.Fits w) :
    w.perform c = none := by
  have hsmall : metaSize + 0 < 2 ^ 64 := by decide
  cases c with
  | malloc size filename instruction block =>
    -- a call that asks for nothing fits
    have hsize : size ≠ 0 := by
      rintro rfl
      exact hfits (Or.inr hsmall)
    simp only [World.perform, State.miniMalloc, if_neg hsize, allocate_none hfits,
      Option.bind_eq_bind, Option.bind_none]
  | calloc num size filename instruction block =>
    have hsize : ¬ (num = 0 ∨ size = 0) := fun hzero => by
      have hproduct : num * size = 0 := Nat.mul_eq_zero.mpr hzero
      exact hfits (Or.inr (by rwa [hproduct]))
    simp only [World.perform, State.miniCalloc, if_neg hsize, allocate_none hfits,
      Option.bind_eq_bind, Option.bind_none]
  | free payload => exact absurd trivial hfits
  | realloc payload size filename instruction block =>
    have hsize : size ≠ 0 := by
      rintro rfl
      exact hfits (Or.inr hsmall)
    rw [Call.Fits] at hfits
    by_cases hnull : payload = 0
    · rw [if_pos hnull] at hfits
      simp [World.perform, State.miniRealloc, State.miniMalloc, hnull, hsize, allocate_none hfits]
    · rw [if_neg hnull, not_or, not_not] at hfits
      simp only [World.perform, h.realloc_none hfits.1 hsize (Or.inr hfits.2), Option.bind_eq_bind,
        Option.bind_none]

/-- **A call keeps the accounts exactly if its block fits.** -/
theorem Booked.kept_iff (h : Booked w l) (c : Call) : Kept w c ↔ (w.Answers c → c.Fits w) := by
  refine forall_congr' fun hc => ?_
  have hstep : step w c = w.perform c := if_pos hc
  rw [hstep]
  by_cases hfits : c.Fits w
  · obtain ⟨w', l', hperform, h', hrequested, hfreed⟩ := h.perform hc hfits
    exact iff_of_true ⟨w', hperform, h'.accounted, h.later h' hrequested hfreed⟩ hfits
  · refine iff_of_false ?_ hfits
    rintro ⟨w', hperform, -⟩
    rw [h.perform_none hfits] at hperform
    cases hperform

end Step

/-- A call that goes through keeps the books. -/
theorem exists_booked_step {w w' : World} {c : Call} (hw : ∃ l, Booked w l)
    (hstep : step w c = some w') : ∃ l, Booked w' l := by
  obtain ⟨l, h⟩ := hw
  unfold step at hstep
  split_ifs at hstep with hc
  have hfits : c.Fits w := by
    by_contra hfits
    rw [h.perform_none hfits] at hstep
    cases hstep
  obtain ⟨w'', l', hperform, h', -⟩ := h.perform hc hfits
  obtain rfl := Option.some.inj (hperform.symm.trans hstep)
  exact ⟨l', h'⟩

/-- Every reachable state is booked. -/
theorem exists_booked {mem : Nat → MetaData} {w : World}
    (hw : Reachable step (World.start mem) w) : ∃ l, Booked w l :=
  hw.invariant (P := fun w => ∃ l, Booked w l) ⟨[], Booked.start mem⟩
    fun _ _ _ h hstep => exists_booked_step h hstep

/-- **The accounts of the memory checker.** In a run of calls with any pointers and sizes, every
call goes through, lowers no total, and leaves one node for each live pointer and the counters at
what was asked for, given back and wrongly passed, if and only if each block that the allocator gives
was asked for with a size that does not wrap around. -/
theorem accounting_iff {mem : Nat → MetaData} {cs : List Call} :
    (∀ w c, Takes step (World.start mem) cs w c → Kept w c) ↔
      ∀ w c, Takes step (World.start mem) cs w c → w.Answers c → c.Fits w :=
  forall_takes_congr (P := fun w => ∃ l, Booked w l) ⟨[], Booked.start mem⟩
    (fun _ _ _ h _ hstep => exists_booked_step h hstep) fun _ c ⟨_, h⟩ => h.kept_iff c

/-- Memory before the first call. -/
def anyMemory : Nat → MetaData := fun _ => ⟨0, "", 0, 0⟩

/-- Three blocks are given, the middle one moves, one is freed twice and one was never given. -/
def session : List Call :=
  [.malloc 8 "main.c" 1 1000, .calloc 4 4 "main.c" 2 2000, .malloc 5 "main.c" 3 3000,
    .realloc 2032 32 "main.c" 4 4000, .free 1032, .free 1032, .realloc 77 1 "main.c" 5 5000]

theorem accounting_iff_session :
    ∃ w, run step (World.start anyMemory) session = some w ∧
      w.live = [(4032, 32), (3032, 5)] ∧ w.invalid = 2 ∧
      ∀ w c, Takes step (World.start anyMemory) session w c → Kept w c := by
  have hrun : (run step (World.start anyMemory) session).map (fun w => (w.live, w.invalid)) =
      some ([(4032, 32), (3032, 5)], 2) := by decide +kernel
  have hcheck : checkRun step (fun w c => decide (c.Fits w)) (World.start anyMemory) session =
      true := by
    decide +kernel
  obtain ⟨w, hw, heq⟩ := Option.map_eq_some_iff.mp hrun
  obtain ⟨hlive, hinvalid⟩ := Prod.mk.inj heq
  refine ⟨w, hw, hlive, hinvalid, accounting_iff.mpr fun w c hwc _ => ?_⟩
  exact of_decide_eq_true (forall_takes_of_checkRun hcheck w c hwc)

/-- `mini_calloc(1, 2 ^ 64 - 1)` asks for 31 bytes, is given them, and clears `2 ^ 64 - 1`. -/
theorem not_kept_wrapped :
    ¬ Kept (World.start anyMemory) (.calloc 1 (2 ^ 64 - 1) "main.c" 1 1000) := by
  intro hkept
  obtain ⟨w', hstep, -⟩ := hkept (by decide)
  have hnone : (step (World.start anyMemory) (.calloc 1 (2 ^ 64 - 1) "main.c" 1 1000)).isNone =
      true := by
    decide +kernel
  rw [hstep] at hnone
  cases hnone

/-! ## A `realloc` that fails -/

/-- A `mini_realloc` that fails and does no harm: it returns a null pointer, the node of the payload
is in the list as it was, and the counters stay. -/
def Harmless (s : State) (payload requestSize : Nat) (filename : String) (instruction : Nat) :
    Prop :=
  ∃ s', s.miniRealloc payload requestSize filename instruction 0 = some (0, s') ∧
    (∃ l node, Linked s'.link 0 s'.head l ∧ node ∈ l ∧ node + metaSize = payload ∧
      s'.mem node = s.mem node) ∧
    s'.totalMemoryRequested = s.totalMemoryRequested ∧
    s'.totalMemoryFreed = s.totalMemoryFreed ∧ s'.invalidAddresses = s.invalidAddresses

/-- **A failed `mini_realloc` always does harm**: the answer of `realloc` is used before anybody
looks at it. -/
theorem not_harmless {mem : Nat → MetaData} {w : World} (hw : Reachable step (World.start mem) w)
    {payload requestSize : Nat} (hlive : w.Live payload) (hsize : 0 < requestSize)
    (filename : String) (instruction : Nat) :
    ¬ Harmless w.state payload requestSize filename instruction := by
  rintro ⟨s', hs', -⟩
  obtain ⟨l, h⟩ := exists_booked hw
  rw [h.realloc_none hlive hsize.ne' (Or.inl rfl)] at hs'
  cases hs'

/-- One block of eight bytes. -/
def oneBlock : World :=
  (World.start anyMemory).given ((World.start anyMemory).state.insert 8 "main.c" 1 1000) 1032 8

theorem reachable_oneBlock : Reachable step (World.start anyMemory) oneBlock :=
  ⟨[.malloc 8 "main.c" 1 1000], rfl⟩

theorem not_harmless_oneBlock : ¬ Harmless oneBlock.state 1032 16 "main.c" 2 :=
  not_harmless reachable_oneBlock (by decide) (by decide) "main.c" 2

/-- The block cannot get sixteen bytes. -/
theorem harmful_oneBlock : Reachable step (World.start anyMemory) oneBlock ∧
    oneBlock.Live 1032 ∧ ¬ Harmless oneBlock.state 1032 16 "main.c" 2 := by
  refine ⟨reachable_oneBlock, by decide, ?_⟩
  rintro ⟨s', hs', -⟩
  obtain ⟨l, h⟩ := exists_booked reachable_oneBlock
  rw [h.realloc_none (by decide) (by decide) (Or.inl rfl)] at hs'
  cases hs'

end SystemProgramming.Memcheck
