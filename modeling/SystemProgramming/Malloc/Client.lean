import SystemProgramming.Foundation.Run
import SystemProgramming.Malloc.Allocate

/-!
# The allocator and its client

A client holds the pointers it was given and the sizes it asked for. It calls the allocator
with pointers it holds and writes to the bytes it asked for; everything else is the
allocator's. The runs of this system are the runs of a correct program.

## Main definitions

* `Boot`: the process before its first request
* `World`, `Call`, `Action`: the heap with the live pointers, and what a client does
* `step`: one call or one write of the client
* `Isolated`, `Returned`: what the live pointers and each call are promised
* `Represented`: what the bytes of the heap look like between calls

## Main results

* `isolation`: live payloads never meet each other or the allocator's own bytes
* `representation`: the heap is tiled by blocks and its list runs through the free ones
-/

namespace SystemProgramming.Malloc

/-- The process before its first request: the break is above the null page, and the word
below it reads zero. -/
structure Boot where
  mem : Memory
  base : Nat
  base_le : metaBtagSize ≤ base
  base_lt : base < 2 ^ 63
  below : mem.load (base - 8) 8 = 0

/-- The heap, and the live pointers with the sizes asked for. -/
structure World where
  heap : Heap
  live : List (Nat × Nat)

/-- The empty heap. -/
def Boot.world (boot : Boot) : World :=
  ⟨⟨boot.mem, 0, 0, 0, boot.base⟩, []⟩

/-- A call of the allocator. The flag is the kernel's answer, should it be asked. -/
inductive Call where
  | malloc (grant : Bool) (size : Nat)
  | calloc (grant : Bool) (num size : Nat)
  | realloc (grant : Bool) (ptr size : Nat)
  | free (ptr : Nat)

/-- The pointer a call is given. -/
def Call.target : Call → Nat
  | .malloc _ _ => 0
  | .calloc _ _ _ => 0
  | .realloc _ ptr _ => ptr
  | .free ptr => ptr

/-- What a client does: it calls the allocator, or writes a byte. -/
inductive Action where
  | call (c : Call)
  | write (a : Nat) (v : UInt8)

namespace World

/-- `ptr` may be passed to `free` and `realloc`. -/
def Holds (w : World) (ptr : Nat) : Prop := ptr = 0 ∨ ptr ∈ w.live.map Prod.fst

instance (w : World) (ptr : Nat) : Decidable (w.Holds ptr) := inferInstanceAs (Decidable (_ ∨ _))

/-- The calls a correct client makes. -/
def Allowed (w : World) : Call → Prop
  | .malloc _ size => size < 2 ^ 63
  | .calloc _ num size => num * size < 2 ^ 63
  | .realloc _ ptr size => size < 2 ^ 63 ∧ w.Holds ptr
  | .free ptr => w.Holds ptr

instance (w : World) (c : Call) : Decidable (w.Allowed c) :=
  match c with
  | .malloc _ _ => inferInstanceAs (Decidable (_ < _))
  | .calloc _ _ _ => inferInstanceAs (Decidable (_ < _))
  | .realloc _ _ _ => inferInstanceAs (Decidable (_ ∧ _))
  | .free ptr => inferInstanceAs (Decidable (w.Holds ptr))

/-- The byte at `a` belongs to the client. -/
def Owns (w : World) (a : Nat) : Prop := ∃ e ∈ w.live, e.1 ≤ a ∧ a < e.1 + e.2

instance (w : World) (a : Nat) : Decidable (w.Owns a) :=
  inferInstanceAs (Decidable (∃ e ∈ w.live, _))

/-- The live pointers without `ptr`. -/
def without (w : World) (ptr : Nat) : List (Nat × Nat) := w.live.filter fun e => e.1 ≠ ptr

/-- The live pointers after a request for `size` bytes returned `q`. -/
def grantTo (live : List (Nat × Nat)) (q size : Nat) : List (Nat × Nat) :=
  if q = 0 then live else (q, size) :: live

/-- A call, with the pointer it returns. -/
def perform (w : World) : Call → Option (Nat × World)
  | .malloc grant size =>
    (w.heap.malloc grant size).map fun (q, h) => (q, ⟨h, grantTo w.live q size⟩)
  | .calloc grant num size =>
    (w.heap.calloc grant num size).map fun (q, h) => (q, ⟨h, grantTo w.live q (num * size)⟩)
  | .realloc grant ptr size =>
    (w.heap.realloc grant ptr size).map fun (q, h) =>
      -- a null result of a proper request leaves the old pointer with the client
      if q = 0 ∧ 0 < size then (q, ⟨h, w.live⟩)
      else (q, ⟨h, grantTo (w.without ptr) q size⟩)
  | .free ptr => some (0, ⟨w.heap.free ptr, w.without ptr⟩)

end World

/-- One action of a correct client. -/
def step (w : World) : Action → Option World
  | .call c => if w.Allowed c then (w.perform c).map Prod.snd else none
  | .write a v =>
    if w.Owns a then some { w with heap := w.heap.withMem (w.heap.mem.store a 1 v.toNat) }
    else none

/-! ## What is promised -/

/-- The addresses `as` are the headers of the blocks found by walking the heap from `base`
to the break, each block with the tag of its header. -/
def Tiling (h : Heap) (base : Nat) (as : List Nat) : Prop :=
  Tiles id (fun a => a + metaBtagSize + h.size a) base as h.brk ∧
    ∀ a ∈ as, h.btagAt (a + nodeSize + h.size a) = h.size a

/-- The range of `n` bytes at `p` and the range of `m` bytes at `q` do not meet. -/
def Disjoint (p n q m : Nat) : Prop := p + n ≤ q ∨ q + m ≤ p

/-- Live payloads do not meet each other, lie between `base` and the break, and meet no
header and no tag. -/
structure Isolated (base : Nat) (w : World) : Prop where
  disjoint : w.live.Pairwise fun e f => Disjoint e.1 e.2 f.1 f.2
  inside : ∀ e ∈ w.live, base ≤ e.1 ∧ e.1 + e.2 ≤ w.heap.brk
  outside : ∃ as, Tiling w.heap base as ∧ ∀ e ∈ w.live, ∀ a ∈ as,
    Disjoint e.1 e.2 a nodeSize ∧ Disjoint e.1 e.2 (a + nodeSize + w.heap.size a) btagSize

/-- What the result `q` of a call that led from `w` to `w'` is promised to be: cleared bytes
from `calloc`, the old bytes from `realloc`, and no change from a `realloc` that failed. -/
def Call.Post (w : World) (q : Nat) (w' : World) : Call → Prop
  | .malloc _ _ => True
  | .calloc _ num size => q ≠ 0 → ∀ a, q ≤ a → a < q + num * size → w'.heap.mem a = 0
  | .realloc _ ptr size =>
    (q ≠ 0 → ∀ old, (ptr, old) ∈ w.live → ∀ i < min old size,
      w'.heap.mem (q + i) = w.heap.mem (ptr + i)) ∧
    (q = 0 → 0 < size → w' = w)
  | .free _ => True

/-- The call `c` returned `q` and led from `w` to `w'` as it should: the payload bytes of
other live blocks are kept, and the result is as promised. -/
structure Returned (w : World) (c : Call) (q : Nat) (w' : World) : Prop where
  frame : ∀ e ∈ w.live, e.1 ≠ c.target → ∀ a, e.1 ≤ a → a < e.1 + e.2 →
    w'.heap.mem a = w.heap.mem a
  post : c.Post w q w'

/-- The bytes of the heap between calls. -/
def Represented (base : Nat) (h : Heap) : Prop :=
  ∃ as fl : List Nat, Tiling h base as ∧ (h.startMem = if as = [] then 0 else base) ∧
    DoublyLinked h.nextFree h.prevFree 0 h.headFree fl ∧ fl.Nodup ∧
    (∀ a, a ∈ fl ↔ a ∈ as ∧ h.isFree a = 1) ∧ (h.tailMem = 0 ∨ h.tailMem ∈ as)

/-! ## The invariant -/

/-- Every live pointer is the data of its own allocated block, which is large enough. -/
structure Covers (bs : List Block) (live : List (Nat × Nat)) : Prop where
  block : ∀ e ∈ live, ∃ b ∈ bs, b.free = false ∧ b.data = e.1 ∧ e.2 ≤ b.size
  nodup : (live.map Prod.fst).Nodup

/-- The heap holds blocks, and these cover the live pointers. -/
def Good (base : Nat) (w : World) : Prop :=
  ∃ bs fl, Rep base w.heap bs fl ∧ Covers bs w.live

variable {base : Nat} {w : World} {bs bs' : List Block} {fl : List Nat}
  {live : List (Nat × Nat)} {h h' : Heap} {ptr q size : Nat}

theorem Good.start (boot : Boot) : Good boot.base boot.world := by
  have hle := boot.base_le
  refine ⟨[], [], ⟨⟨⟨rfl, by simp⟩, ⟨DoublyLinked.empty, List.Pairwise.nil, by simp, by simp⟩,
    by simp, Or.inl rfl, rfl, boot.below, hle, boot.base_lt⟩, by simp⟩, by simp [Boot.world],
    by simp [Boot.world]⟩

/-- A payload lies in the data of its block. -/
theorem mem_data {b : Block} {e : Nat × Nat} {a : Nat} (hd : b.data = e.1) (hle : e.2 ≤ b.size)
    (h₁ : e.1 ≤ a) (h₂ : a < e.1 + e.2) : b.data ≤ a ∧ a < b.tag := by
  unfold Block.data Block.tag at *
  omega

namespace Covers

theorem pos (hc : Covers bs live) {e : Nat × Nat} (he : e ∈ live) : 0 < e.1 := by
  obtain ⟨b, -, -, hd, -⟩ := hc.block e he
  unfold Block.data at hd
  omega

theorem without {w : World} (hc : Covers bs w.live) (ptr : Nat) : Covers bs (w.without ptr) where
  block := fun e he => hc.block e (List.mem_of_mem_filter he)
  nodup := hc.nodup.sublist (List.filter_sublist.map _)

theorem without_zero {w : World} (hc : Covers bs w.live) : w.without 0 = w.live := by
  refine List.filter_eq_self.mpr fun e he => ?_
  have := hc.pos he
  simpa using this.ne'

/-- The other live pointers survive when the allocated blocks other than `b` do. -/
theorem without_of_keep {w : World} {b : Block} (hc : Covers bs w.live) (hb : b.data = ptr)
    (hkeep : ∀ c ∈ bs, c.free = false → c ≠ b → c ∈ bs') : Covers bs' (w.without ptr) := by
  refine ⟨fun e he => ?_, (hc.without ptr).nodup⟩
  obtain ⟨c, hcm, hcf, hd, hle⟩ := hc.block e (List.mem_of_mem_filter he)
  have hne : e.1 ≠ ptr := by simpa using List.of_mem_filter he
  refine ⟨c, hkeep c hcm hcf ?_, hcf, hd, hle⟩
  rintro rfl
  exact hne (hd.symm.trans hb)

/-- A pointer to a new block joins the live ones. -/
theorem cons {b : Block} (hc : Covers bs live) (hb : b ∈ bs) (hbf : b.free = false)
    (hle : size ≤ b.size) (hnew : ∀ e ∈ live, e.1 ≠ b.data) :
    Covers bs ((b.data, size) :: live) := by
  refine ⟨?_, ?_⟩
  · intro e he
    rcases List.mem_cons.mp he with rfl | he
    · exact ⟨b, hb, hbf, rfl, hle⟩
    · exact hc.block e he
  · rw [List.map_cons, List.nodup_cons]
    refine ⟨fun hmem => ?_, hc.nodup⟩
    obtain ⟨e, he, heq⟩ := List.mem_map.mp hmem
    exact hnew e he heq

end Covers

theorem grantTo_of_pos (hq : 0 < q) : World.grantTo live q size = (q, size) :: live :=
  if_neg hq.ne'

/-- The blocks of live pointers are kept by a request that was served. -/
theorem Served.good (hc : Covers bs live)
    (hs : Served base h bs size ptr h') :
    Good base ⟨h', (ptr, size) :: live⟩ ∧
      ∀ e ∈ live, ∀ a, e.1 ≤ a → a < e.1 + e.2 → h'.mem a = h.mem a := by
  obtain ⟨b, bs', fl', hr', hbm, hbf, rfl, hle, hkeep⟩ := hs
  have hcov : Covers bs' live := by
    refine ⟨fun e he => ?_, hc.nodup⟩
    obtain ⟨c, hcm, hcf, hd, hce⟩ := hc.block e he
    exact ⟨c, (hkeep c hcm hcf).1, hcf, hd, hce⟩
  refine ⟨⟨bs', fl', hr', hcov.cons hbm hbf hle fun e he heq => ?_⟩, fun e he a h₁ h₂ => ?_⟩
  all_goals obtain ⟨c, hcm, hcf, hd, hce⟩ := hc.block e he
  all_goals obtain ⟨hcm', hne, hk⟩ := hkeep c hcm hcf
  · refine hne (hr'.layout.eq_of_addr_eq hcm' hbm ?_)
    unfold Block.data at *
    omega
  · obtain ⟨g₁, g₂⟩ := mem_data hd hce h₁ h₂
    exact hk a g₁ g₂

/-! ## One call at a time -/

/-- What every call has to show. -/
def Correct (base : Nat) (w : World) (c : Call) : Prop :=
  ∃ q w', w.perform c = some (q, w') ∧ Good base w' ∧ Returned w c q w'

/-- A call that changes nothing keeps the invariant and every payload. -/
theorem Correct.of_same {c : Call} (hg : Good base w) (hperf : w.perform c = some (q, w))
    (hpost : c.Post w q w) : Correct base w c :=
  ⟨q, w, hperf, hg, fun _ _ _ _ _ _ => rfl, hpost⟩

theorem malloc_correct (hg : Good base w) {grant : Bool} (hsz : size < 2 ^ 63) :
    Correct base w (.malloc grant size) := by
  obtain ⟨bs, fl, hr, hc⟩ := hg
  obtain ⟨ptr, h', heq, hcase⟩ := hr.malloc hsz grant
  have hperf : w.perform (.malloc grant size) = some (ptr, ⟨h', World.grantTo w.live ptr size⟩) := by
    rw [World.perform, heq, Option.map_some]
  rcases hcase with ⟨rfl, rfl⟩ | ⟨hpos, hs, -⟩
  · exact Correct.of_same ⟨bs, fl, hr, hc⟩ hperf trivial
  · rw [grantTo_of_pos hpos] at hperf
    obtain ⟨hgood, hframe⟩ := hs.good hc
    exact ⟨ptr, _, hperf, hgood, fun e he _ => hframe e he, trivial⟩

theorem calloc_correct (hg : Good base w) {grant : Bool} {num : Nat}
    (hsz : num * size < 2 ^ 63) : Correct base w (.calloc grant num size) := by
  obtain ⟨bs, fl, hr, hc⟩ := hg
  obtain ⟨ptr, h', heq, hcase⟩ := hr.calloc hsz grant
  have hperf : w.perform (.calloc grant num size) =
      some (ptr, ⟨h', World.grantTo w.live ptr (num * size)⟩) := by
    rw [World.perform, heq, Option.map_some]
  rcases hcase with ⟨rfl, rfl⟩ | ⟨hpos, hs, hzero⟩
  · exact Correct.of_same ⟨bs, fl, hr, hc⟩ hperf fun hq => absurd rfl hq
  · rw [grantTo_of_pos hpos] at hperf
    obtain ⟨hgood, hframe⟩ := hs.good hc
    exact ⟨ptr, _, hperf, hgood, fun e he _ => hframe e he, fun _ => hzero⟩

/-- Freeing a live pointer. -/
theorem free_live (hg : Good base w) (hmem : ptr ∈ w.live.map Prod.fst) :
    Good base ⟨w.heap.free ptr, w.without ptr⟩ ∧
      ∀ e ∈ w.live, e.1 ≠ ptr → ∀ a, e.1 ≤ a → a < e.1 + e.2 →
        (w.heap.free ptr).mem a = w.heap.mem a := by
  obtain ⟨bs, fl, hr, hc⟩ := hg
  obtain ⟨e, he, rfl⟩ := List.mem_map.mp hmem
  obtain ⟨b, hbm, hbf, hd, -⟩ := hc.block e he
  obtain ⟨bs', fl', hr', hfreed, hmeta⟩ := hr.free hbm hbf
  rw [← hd]
  refine ⟨⟨bs', fl', hr', hc.without_of_keep rfl fun _ => hfreed.keep⟩, fun f hf _ a h₁ h₂ => ?_⟩
  obtain ⟨c, hcm, -, hcd, hce⟩ := hc.block f hf
  obtain ⟨g₁, g₂⟩ := mem_data hcd hce h₁ h₂
  exact hmeta.kept hr.toCore hcm a g₁ g₂

theorem free_correct (hg : Good base w) (hheld : w.Holds ptr) : Correct base w (.free ptr) := by
  rcases hheld with rfl | hmem
  · obtain ⟨bs, fl, hr, hc⟩ := hg
    refine Correct.of_same ⟨bs, fl, hr, hc⟩ (q := 0) ?_ trivial
    rw [World.perform, hc.without_zero]
    rfl
  · obtain ⟨hgood, hframe⟩ := free_live hg hmem
    exact ⟨0, _, rfl, hgood, hframe, trivial⟩

/-- `realloc` of a live pointer to some bytes: in place, or moved, or refused. -/
theorem realloc_live (hg : Good base w) {grant : Bool} {e : Nat × Nat} (he : e ∈ w.live)
    (h0 : 0 < size) (hsz : size < 2 ^ 63) : Correct base w (.realloc grant e.1 size) := by
  obtain ⟨bs, fl, hr, hc⟩ := hg
  obtain ⟨b, hbm, hbf, hd, hle⟩ := hc.block e he
  have hpos := hc.pos he
  -- the request kept for a pointer is unique
  have hold : ∀ old, (e.1, old) ∈ w.live → old = e.2 := fun old hmem => by
    have := List.inj_on_of_nodup_map hc.nodup hmem he rfl
    exact congrArg Prod.snd this
  by_cases hfit : size ≤ b.size
  · have hperf : w.perform (.realloc grant e.1 size) =
        some (e.1, ⟨w.heap, (e.1, size) :: w.without e.1⟩) := by
      have hnode : wsub e.1 nodeSize = b.addr := hd ▸ Rep.wsub_data hr.toCore hbm
      rw [World.perform, Heap.realloc, if_neg hpos.ne', if_neg h0.ne', hnode]
      dsimp only
      rw [hr.size_eq hbm, if_pos hfit, Option.map_some, if_neg (by omega), grantTo_of_pos hpos]
    refine ⟨e.1, _, hperf, ⟨bs, fl, hr, ?_⟩, fun _ _ _ _ _ _ => rfl, fun _ _ _ _ _ => rfl, ?_⟩
    · have := (hc.without e.1).cons hbm hbf hfit fun f hf => by
        rw [hd]
        simpa using List.of_mem_filter hf
      rwa [hd] at this
    · intro hq
      omega
  · obtain ⟨q, h', heq, hcase⟩ := hr.realloc_grow hbm hbf (by omega) hsz grant
    rw [hd] at heq
    rcases hcase with ⟨rfl, rfl⟩ | ⟨hq, ⟨c, bs', fl', hr', hcm, hcf, rfl, hsize, hkeep⟩, hbytes⟩
    · refine Correct.of_same ⟨bs, fl, hr, hc⟩ (q := 0) ?_ ⟨fun hq => absurd rfl hq, fun _ _ => rfl⟩
      rw [World.perform, heq, Option.map_some]
      dsimp only
      rw [if_pos ⟨rfl, h0⟩]
    · have hperf : w.perform (.realloc grant e.1 size) =
          some (c.data, ⟨h', (c.data, size) :: w.without e.1⟩) := by
        rw [World.perform, heq, Option.map_some]
        dsimp only
        rw [if_neg (by omega), grantTo_of_pos hq]
      have hcov := hc.without_of_keep hd fun d hdm hdf hdb => (hkeep d hdm hdf hdb).1
      have hother : ∀ f ∈ w.live, f.1 ≠ e.1 →
          ∃ d ∈ bs, d.data = f.1 ∧ f.2 ≤ d.size ∧ d ∈ bs' ∧ d ≠ c ∧ Kept w.heap h' d := by
        intro f hf hne
        obtain ⟨d, hdm, hdf, hdd, hds⟩ := hc.block f hf
        obtain ⟨h₁, h₂, h₃⟩ := hkeep d hdm hdf fun hdb => hne (by rw [← hdd, hdb, hd])
        exact ⟨d, hdm, hdd, hds, h₁, h₂, h₃⟩
      refine ⟨c.data, _, hperf, ⟨bs', fl', hr', hcov.cons hcm hcf hsize fun f hf hfc => ?_⟩,
        fun f hf hne a h₁ h₂ => ?_, ⟨fun _ old hmem i hi => ?_, fun hq0 => by omega⟩⟩
      · obtain ⟨d, -, hdd, -, hdm', hdc, -⟩ :=
          hother f (List.mem_of_mem_filter hf) (by simpa using List.of_mem_filter hf)
        refine hdc (hr'.layout.eq_of_addr_eq hdm' hcm ?_)
        unfold Block.data at *
        omega
      · obtain ⟨d, -, hdd, hds, -, -, hk⟩ := hother f hf hne
        obtain ⟨g₁, g₂⟩ := mem_data hdd hds h₁ h₂
        exact hk a g₁ g₂
      · rw [hold old hmem] at hi
        have := hbytes i (by omega)
        rwa [hd] at this

theorem realloc_correct (hg : Good base w) {grant : Bool} (hsz : size < 2 ^ 63)
    (hheld : w.Holds ptr) : Correct base w (.realloc grant ptr size) := by
  rcases hheld with rfl | hmem
  · -- a null pointer: the call is `malloc`
    obtain ⟨bs, fl, hr, hc⟩ := hg
    obtain ⟨q, h', heq, hcase⟩ := hr.malloc hsz grant
    have hnull : w.heap.realloc grant 0 size = some (q, h') := by rw [Heap.realloc, if_pos rfl, heq]
    rcases hcase with ⟨rfl, rfl⟩ | ⟨hpos, hs, -⟩
    · refine Correct.of_same ⟨bs, fl, hr, hc⟩ (q := 0) ?_ ⟨fun hq => absurd rfl hq, fun _ _ => rfl⟩
      rw [World.perform, hnull, Option.map_some, hc.without_zero]
      dsimp only
      split_ifs <;> rfl
    · obtain ⟨hgood, hframe⟩ := hs.good hc
      refine ⟨q, ⟨h', (q, size) :: w.live⟩, ?_, hgood, fun e he _ => hframe e he,
        fun _ old hmem => ?_, fun hq => by omega⟩
      · rw [World.perform, hnull, Option.map_some, hc.without_zero]
        dsimp only
        rw [if_neg (by omega), grantTo_of_pos hpos]
      · have := hc.pos hmem
        omega
  · obtain ⟨e, he, rfl⟩ := List.mem_map.mp hmem
    rcases Nat.eq_zero_or_pos size with rfl | h0
    · obtain ⟨hgood, hframe⟩ := free_live hg hmem
      have hpos : e.1 ≠ 0 := by
        obtain ⟨bs, fl, hr, hc⟩ := hg
        exact (hc.pos he).ne'
      refine ⟨0, ⟨w.heap.free e.1, w.without e.1⟩, ?_, hgood, hframe, fun hq => absurd rfl hq,
        fun _ h0 => by omega⟩
      rw [World.perform, Heap.realloc, if_neg hpos, if_pos rfl, Option.map_some]
      rfl
    · exact realloc_live hg he h0 hsz

/-- **Every call** of a correct client returns and does what it should. -/
theorem Good.perform (hg : Good base w) {c : Call} (hc : w.Allowed c) : Correct base w c := by
  cases c with
  | malloc grant size => exact malloc_correct hg hc
  | calloc grant num size => exact calloc_correct hg hc
  | realloc grant ptr size => exact realloc_correct hg hc.1 hc.2
  | free ptr => exact free_correct hg hc

/-- A client's write stays in the data of one allocated block. -/
theorem Good.write (hg : Good base w) {a : Nat} (v : UInt8) (ha : w.Owns a) :
    Good base { w with heap := w.heap.withMem (w.heap.mem.store a 1 v.toNat) } := by
  obtain ⟨bs, fl, hr, hc⟩ := hg
  obtain ⟨e, he, h₁, h₂⟩ := ha
  obtain ⟨b, hbm, -, hd, hle⟩ := hc.block e he
  have hin := mem_data hd hle h₁ h₂
  refine ⟨bs, fl, hr.withMem hbm fun x hx => Memory.store_of_not_mem ?_, hc⟩
  omega

theorem Good.step {w' : World} {i : Action} (hg : Good base w) (hs : step w i = some w') :
    Good base w' := by
  cases i with
  | call c =>
    by_cases hc : w.Allowed c
    · obtain ⟨q, w₁, hperf, hgood, -⟩ := hg.perform hc
      rw [Malloc.step, if_pos hc, hperf] at hs
      exact Option.some.inj hs ▸ hgood
    · rw [Malloc.step, if_neg hc] at hs
      simp at hs
  | write a v =>
    by_cases ha : w.Owns a
    · rw [Malloc.step, if_pos ha] at hs
      exact Option.some.inj hs ▸ hg.write v ha
    · rw [Malloc.step, if_neg ha] at hs
      simp at hs

theorem Good.of_reachable {boot : Boot} (hw : Reachable Malloc.step boot.world w) :
    Good boot.base w :=
  hw.invariant (Good.start boot) fun _ _ _ => Good.step

/-! ## Reading the heap -/

/-- The headers of the blocks tile the heap. -/
theorem Core.tiling (hc : Core base h bs fl) : Tiling h base (bs.map Block.addr) := by
  refine ⟨hc.layout.tiles.map (fun b _ => rfl) fun b hb => ?_, fun a ha => ?_⟩
  · rw [hc.size_eq hb]
    rfl
  · obtain ⟨b, hb, rfl⟩ := List.mem_map.mp ha
    rw [hc.size_eq hb]
    exact (hc.layout.inMemory b hb).tag

theorem Good.isolated (hg : Good base w) : Isolated base w := by
  obtain ⟨bs, fl, hr, hc⟩ := hg
  refine ⟨?_, ?_, _, hr.tiling, ?_⟩
  · -- different pointers have different blocks
    have hne : w.live.Pairwise fun e f => e.1 ≠ f.1 := List.pairwise_map.mp hc.nodup
    refine hne.imp_of_mem fun {e f} he hf hef => ?_
    obtain ⟨b, hbm, -, hbd, hbs⟩ := hc.block e he
    obtain ⟨c, hcm, -, hcd, hcs⟩ := hc.block f hf
    rcases hr.layout.disjoint hbm hcm with rfl | hd | hd
    · exact absurd (hbd.symm.trans hcd) hef
    all_goals
      unfold Disjoint
      unfold Block.data Block.next at *
      omega
  · intro e he
    obtain ⟨b, hbm, -, hbd, hbs⟩ := hc.block e he
    have hbound := hr.layout.bounds hbm
    unfold Block.data Block.next at *
    omega
  · intro e he a ha
    obtain ⟨b, hbm, -, hbd, hbs⟩ := hc.block e he
    obtain ⟨c, hcm, rfl⟩ := List.mem_map.mp ha
    rw [hr.size_eq hcm]
    unfold Disjoint nodeSize btagSize
    rcases hr.layout.disjoint hbm hcm with rfl | hd | hd
    all_goals
      unfold Block.data at hbd
      try unfold Block.next at hd
      omega

theorem Rep.represented (hr : Rep base h bs fl) : Represented base h := by
  refine ⟨bs.map Block.addr, fl, hr.tiling, ?_, hr.list.linked, hr.list.nodup, ?_, ?_⟩
  · simpa using hr.start
  · intro a
    rw [hr.mem_list_iff]
    constructor
    · rintro ⟨b, hbm, hbf, rfl⟩
      refine ⟨List.mem_map_of_mem hbm, ?_⟩
      rw [hr.isFree_eq hbm, hbf]
      rfl
    · rintro ⟨ha, hone⟩
      obtain ⟨b, hbm, rfl⟩ := List.mem_map.mp ha
      rw [hr.isFree_eq hbm] at hone
      refine ⟨b, hbm, ?_, rfl⟩
      cases hbf : b.free with
      | true => rfl
      | false => simp [hbf] at hone
  · refine hr.tail.imp_right fun ⟨b, hbm, hb⟩ => ?_
    exact List.mem_map.mpr ⟨b, hbm, hb⟩

/-! ## Main results -/

/-- **Allocator isolation.** In every state a correct client can reach, the live payloads are
apart from each other and from the allocator's bytes; and from there every call of a
correct client returns, keeps the payloads of other live blocks, and gives what it promises. -/
theorem isolation {boot : Boot} {w : World} (hw : Reachable Malloc.step boot.world w) :
    Isolated boot.base w ∧
      ∀ c, w.Allowed c → ∃ q w', w.perform c = some (q, w') ∧ Returned w c q w' := by
  have hg := Good.of_reachable hw
  refine ⟨hg.isolated, fun c hc => ?_⟩
  obtain ⟨q, w', hperf, -, hret⟩ := hg.perform hc
  exact ⟨q, w', hperf, hret⟩

/-- A process whose memory reads zero. -/
def zeroBoot : Boot :=
  ⟨fun _ => 0, 4096, by decide, by decide, by decide⟩

/-- Two blocks are asked for, the second is written to, the first is freed. -/
def shortSession : List Action :=
  [.call (.malloc true 16), .call (.calloc true 2 4), .write 4184 7, .call (.free 4128)]

theorem isolation_shortSession :
    ∃ w, run Malloc.step zeroBoot.world shortSession = some w ∧ w.live = [(4184, 8)] ∧
      Isolated zeroBoot.base w := by
  have hlive : (run Malloc.step zeroBoot.world shortSession).map World.live = some [(4184, 8)] := by
    decide
  obtain ⟨w, hw, hl⟩ := Option.map_eq_some_iff.mp hlive
  exact ⟨w, hw, hl, (isolation ⟨shortSession, hw⟩).1⟩

/-- **Allocator representation invariant.** In every state a correct client can reach, the
heap is tiled by blocks with matching tags, the free list runs through exactly the free
ones, and `tail_mem` is null or a block. -/
theorem representation {boot : Boot} {w : World} (hw : Reachable Malloc.step boot.world w) :
    Represented boot.base w.heap := by
  obtain ⟨bs, fl, hr, -⟩ := Good.of_reachable hw
  exact hr.represented

theorem representation_shortSession :
    ∃ w, run Malloc.step zeroBoot.world shortSession = some w ∧ w.heap.headFree = 4096 ∧
      Represented zeroBoot.base w.heap := by
  have hhead : (run Malloc.step zeroBoot.world shortSession).map (fun w => w.heap.headFree) =
      some 4096 := by
    decide
  obtain ⟨w, hw, hh⟩ := Option.map_eq_some_iff.mp hhead
  exact ⟨w, hw, hh, representation ⟨shortSession, hw⟩⟩

end SystemProgramming.Malloc
