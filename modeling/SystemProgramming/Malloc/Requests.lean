import SystemProgramming.Malloc.Client

/-!
# Requests of any size

A client may pass any 64-bit number to `malloc`, `calloc` and `realloc`. The size of the
header is added to it, and the two arguments of `calloc` are multiplied, modulo `2 ^ 64`:
a request near the limits reaches `sbrk` as a small or a negative increment, and the kernel
may grant that.

## Main definitions

* `anyStep`: one action of a client that passes any 64-bit arguments
* `Fits`, `AsLarge`: a call returns, null or the data of a block that is as large as was asked
* `Heap.Refuses`, `Unwrapped`: the request is turned down; no request that wraps is granted

## Main results

* `Good.asLarge_iff`: an action gives what was asked exactly when it is not a wrapped request
  that is granted
* `as_large_iff`: the same for every action of a run
-/

namespace SystemProgramming.Malloc

variable {base : Nat} {w w' : World} {bs : List Block} {fl : List Nat} {h h' : Heap}
  {c : Call} {q size : Nat}

/-! ## A client with any arguments -/

/-- The number of bytes that a call asks for. -/
def Call.asked : Call → Nat
  | .malloc _ size => size
  | .calloc _ num size => num * size
  | .realloc _ _ size => size
  | .free _ => 0

/-- The kernel's answer to the call, should it be asked. -/
def Call.grant : Call → Bool
  | .malloc grant _ => grant
  | .calloc grant _ _ => grant
  | .realloc grant _ _ => grant
  | .free _ => false

/-- The arguments of the call are 64-bit numbers. -/
def Call.Words : Call → Prop
  | .malloc _ size => size < 2 ^ 64
  | .calloc _ num size => num < 2 ^ 64 ∧ size < 2 ^ 64
  | .realloc _ _ size => size < 2 ^ 64
  | .free _ => True

instance (c : Call) : Decidable c.Words :=
  match c with
  | .malloc _ _ => inferInstanceAs (Decidable (_ < _))
  | .calloc _ _ _ => inferInstanceAs (Decidable (_ ∧ _))
  | .realloc _ _ _ => inferInstanceAs (Decidable (_ < _))
  | .free _ => inferInstanceAs (Decidable True)

/-- One action of a client that passes any sizes, and pointers that it holds. -/
def anyStep (w : World) : Action → Option World
  | .call c => if c.Words ∧ w.Holds c.target then (w.perform c).map Prod.snd else none
  | .write a v => step w (.write a v)

/-- `q` is null, or the data of a block of the heap with room for `n` bytes. -/
def Fits (base : Nat) (h : Heap) (q n : Nat) : Prop :=
  q = 0 ∨ ∃ as, Tiling h base as ∧ ∃ a ∈ as, q = a + nodeSize ∧ n ≤ h.size a

/-- The result `q` of the call is what was asked for; `calloc` cleared all of it. -/
def Call.Enough (base : Nat) (h : Heap) (q : Nat) : Call → Prop
  | .calloc _ num size =>
    Fits base h q (num * size) ∧ (q ≠ 0 → ∀ a, q ≤ a → a < q + num * size → h.mem a = 0)
  | c => Fits base h q c.asked

/-- The client passes 64-bit numbers and a pointer that it holds. -/
def World.Permits (w : World) : Action → Prop
  | .call c => c.Words ∧ w.Holds c.target
  | .write _ _ => True

instance (w : World) (i : Action) : Decidable (w.Permits i) :=
  match i with
  | .call _ => inferInstanceAs (Decidable (_ ∧ _))
  | .write _ _ => inferInstanceAs (Decidable True)

/-- A call of the client returns, null or as much as was asked for. -/
def AsLarge (base : Nat) (w : World) : Action → Prop
  | .call c => w.Permits (.call c) →
      ∃ q w', w.perform c = some (q, w') ∧ c.Enough base w'.heap q
  | .write _ _ => True

/-- `malloc(size)` has nothing to give: nothing is asked for, or no free block is large enough
and the kernel turns the request down. -/
def Heap.Refuses (h : Heap) (grant : Bool) (size : Nat) : Prop :=
  size = 0 ∨ (h.firstFit size (h.brk + 1) h.headFree = some 0 ∧
    (h.sbrk grant (wadd metaBtagSize size)).isNone)

instance (h : Heap) (grant : Bool) (size : Nat) : Decidable (h.Refuses grant size) :=
  inferInstanceAs (Decidable (_ ∨ _))

/-- A request for which the size of the block does not fit in a positive increment is turned
down. -/
def Unwrapped (w : World) : Action → Prop
  | .call c => metaBtagSize + c.asked < 2 ^ 63 ∨ w.heap.Refuses c.grant (c.asked % 2 ^ 64)
  | .write _ _ => True

instance (w : World) (i : Action) : Decidable (Unwrapped w i) :=
  match i with
  | .call _ => inferInstanceAs (Decidable (_ ∨ _))
  | .write _ _ => inferInstanceAs (Decidable True)

/-! ## The break -/

section Break

variable (h : Heap) (p v : Nat)

@[simp] theorem Heap.setSize_brk : (h.setSize p v).brk = h.brk := rfl

@[simp] theorem Heap.setIsFree_brk : (h.setIsFree p v).brk = h.brk := rfl

@[simp] theorem Heap.setBtag_brk : (h.setBtag p v).brk = h.brk := rfl

@[simp] theorem Heap.updateNodeSize_brk (t : Nat) : (h.updateNodeSize p t v).brk = h.brk := rfl

theorem Heap.coalesceThreeBlocks_brk (b n : Nat) :
    (h.coalesceThreeBlocks b p n).brk = h.brk := by
  unfold Heap.coalesceThreeBlocks
  rw [Heap.updateNodeSize_brk]
  split
  all_goals exact h.removeFree_brk n

theorem Heap.coalesceTwoBlocksBefore_brk (b n : Nat) :
    (h.coalesceTwoBlocksBefore b p n).brk = h.brk := by
  unfold Heap.coalesceTwoBlocksBefore
  rw [Heap.updateNodeSize_brk]
  split
  all_goals rfl

theorem Heap.coalesceTwoBlocksAfter_brk (n : Nat) :
    (h.coalesceTwoBlocksAfter p n).brk = h.brk := by
  unfold Heap.coalesceTwoBlocksAfter
  rw [Heap.insertFree_brk, Heap.updateNodeSize_brk, Heap.setIsFree_brk]
  split
  all_goals exact h.removeFree_brk n

theorem Heap.free_brk : (h.free p).brk = h.brk := by
  unfold Heap.free
  split
  · rfl
  dsimp only
  split
  · rfl
  split
  · exact h.coalesceThreeBlocks_brk _ _ _
  split
  · exact h.coalesceTwoBlocksBefore_brk _ _ _
  split
  · exact h.coalesceTwoBlocksAfter_brk _ _
  · rw [Heap.insertFree_brk, Heap.setIsFree_brk]

theorem Heap.allocFreeSplit_brk (size : Nat) : (h.allocFreeSplit size p).brk = h.brk := by
  simp only [Heap.allocFreeSplit, Heap.insertFree_brk, Heap.setBtag_brk, Heap.setIsFree_brk,
    Heap.setSize_brk, apply_ite Heap.brk, ite_self]

theorem Heap.allocFree_brk (size : Nat) : (h.allocFree size p).2.brk = h.brk := by
  unfold Heap.allocFree
  rw [Heap.setIsFree_brk]
  split
  · exact h.allocFreeSplit_brk p size
  · rfl

end Break

variable {grant : Bool}

/-- The break stays below the end of the address space. -/
theorem Heap.sbrk_brk_lt {node increment : Nat} (hlt : h.brk < 2 ^ 63)
    (hs : h.sbrk grant increment = some (node, h')) : node = h.brk ∧ h'.brk < 2 ^ 63 := by
  unfold Heap.sbrk at hs
  split_ifs at hs with h₁ h₂
  · obtain ⟨rfl, rfl⟩ := Prod.mk.inj (Option.some.inj hs)
    exact ⟨rfl, h₁.2.2⟩
  · obtain ⟨rfl, rfl⟩ := Prod.mk.inj (Option.some.inj hs)
    refine ⟨rfl, ?_⟩
    dsimp only
    omega

/-! ## Requests that are granted or turned down -/

theorem Heap.malloc_of_refuses (hn : h.Refuses grant size) :
    h.malloc grant size = some (0, h) := by
  unfold Heap.malloc
  rcases hn with rfl | ⟨hwalk, hs⟩
  · rfl
  · split_ifs with h0
    · rfl
    · rw [hwalk, Option.map_some, if_pos rfl, Heap.allocNew, Option.isNone_iff_eq_none.mp hs]

/-- A block from the kernel is not null, however large the request is. -/
theorem Heap.allocNew_pos (hlt : h.brk < 2 ^ 63)
    (hs : (h.sbrk grant (wadd metaBtagSize size)).isNone ≠ true) :
    0 < (h.allocNew grant size).1 ∧ (h.allocNew grant size).2.brk < 2 ^ 63 := by
  obtain ⟨⟨node, h₁⟩, hsome⟩ := Option.ne_none_iff_exists'.mp fun hnone =>
    hs (Option.isNone_iff_eq_none.mpr hnone)
  obtain ⟨rfl, hbrk⟩ := Heap.sbrk_brk_lt hlt hsome
  rw [Heap.allocNew, hsome]
  constructor
  · change 0 < wadd h.brk nodeSize
    rw [wadd_of_lt (by unfold nodeSize; omega)]
    unfold nodeSize
    omega
  · dsimp only [Heap.setBtag, Heap.setIsFree, Heap.setSize, Heap.withMem]
    split_ifs <;> exact hbrk

/-- A request that is not turned down gets a block. -/
theorem Rep.malloc_of_not_refuses (hr : Rep base h bs fl) (hn : ¬ h.Refuses grant size) :
    ∃ q h', h.malloc grant size = some (q, h') ∧ 0 < q ∧ h'.brk < 2 ^ 63 := by
  rw [Heap.Refuses, not_or, not_and] at hn
  obtain ⟨h0, hs⟩ := hn
  have hwalk : h.firstFit size (h.brk + 1) h.headFree =
      some ((fl.find? fun p => size ≤ h.size p).getD 0) := by
    rw [hr.list.linked.head]
    exact hr.list.firstFit_eq (a := []) rfl hr.length_lt
  rw [Heap.malloc, if_neg h0, hwalk, Option.map_some]
  cases hfind : fl.find? fun p => size ≤ h.size p with
  | none =>
    rw [hfind] at hwalk
    obtain ⟨hpos, hbrk⟩ := Heap.allocNew_pos hr.brk_lt (hs hwalk)
    exact ⟨_, _, rfl, hpos, hbrk⟩
  | some p =>
    obtain ⟨b, hbm, -, rfl⟩ := hr.mem_list_iff.mp (List.mem_of_find?_eq_some hfind)
    have hpos := hr.addr_pos hbm
    have hlt := hr.next_lt hbm
    refine ⟨_, _, by rw [Option.getD_some, if_neg hpos.ne'], ?_, ?_⟩
    · change 0 < wadd b.addr nodeSize
      unfold Block.next at hlt
      rw [wadd_of_lt (by unfold nodeSize; omega)]
      omega
    · rw [Heap.allocFree_brk, Heap.removeFree_brk]
      exact hr.brk_lt

/-! ## One call at a time -/

/-- What a call returns is null, or joins the live pointers with what was asked for. -/
theorem World.mem_live_of_perform (hperf : w.perform c = some (q, w')) :
    q = 0 ∨ (q, c.asked) ∈ w'.live := by
  have hgrant : ∀ (live : List (Nat × Nat)) (n : Nat),
      q = 0 ∨ (q, n) ∈ World.grantTo live q n := by
    intro live n
    rcases Nat.eq_zero_or_pos q with h0 | hpos
    · exact Or.inl h0
    · rw [grantTo_of_pos hpos]
      exact Or.inr List.mem_cons_self
  cases c with
  | malloc grant size =>
    obtain ⟨⟨q₁, h₁⟩, -, hf⟩ := Option.map_eq_some_iff.mp hperf
    obtain ⟨rfl, rfl⟩ := Prod.mk.inj hf
    exact hgrant _ _
  | calloc grant num size =>
    obtain ⟨⟨q₁, h₁⟩, -, hf⟩ := Option.map_eq_some_iff.mp hperf
    obtain ⟨rfl, rfl⟩ := Prod.mk.inj hf
    exact hgrant _ _
  | realloc grant ptr size =>
    obtain ⟨⟨q₁, h₁⟩, -, hf⟩ := Option.map_eq_some_iff.mp hperf
    dsimp only at hf
    split_ifs at hf with hnull
    · obtain ⟨rfl, -⟩ := Prod.mk.inj hf
      exact Or.inl hnull.1
    · obtain ⟨rfl, rfl⟩ := Prod.mk.inj hf
      exact hgrant _ _
  | free ptr =>
    obtain ⟨rfl, -⟩ := Prod.mk.inj (Option.some.inj hperf)
    exact Or.inl rfl

/-- A live pointer is the data of a block with room for what was asked. -/
theorem Good.fits (hg : Good base w) {n : Nat} (hmem : (q, n) ∈ w.live) : Fits base w.heap q n := by
  obtain ⟨bs, fl, hr, hc⟩ := hg
  obtain ⟨b, hbm, -, hd, hle⟩ := hc.block _ hmem
  refine Or.inr ⟨_, hr.tiling, b.addr, List.mem_map_of_mem hbm, hd.symm, ?_⟩
  rw [hr.size_eq hbm]
  exact hle

/-- A block does not reach past the break. -/
theorem Fits.lt (hf : Fits base h q size) (hq : q ≠ 0) : size + 40 ≤ h.brk := by
  obtain ⟨as, ht, a, ha, -, hle⟩ := hf.resolve_left hq
  have hlt : ∀ x, id x < x + metaBtagSize + h.size x := fun x => by
    unfold metaBtagSize nodeSize btagSize
    simp only [id_eq]
    omega
  have hbound := (ht.1.bounds hlt ha).2
  unfold metaBtagSize nodeSize btagSize at hbound
  omega

theorem Call.Enough.fits (he : c.Enough base h q) : Fits base h q c.asked := by
  cases c with
  | calloc grant num size => exact he.1
  | malloc grant size => exact he
  | realloc grant ptr size => exact he
  | free ptr => exact he

/-- What a correct client is given is enough. -/
theorem Good.enough (hg : Good base w) (hc : w.Allowed c) (hperf : w.perform c = some (q, w')) :
    c.Enough base w'.heap q := by
  obtain ⟨q₁, w₁, hperf₁, hg₁, hret⟩ := hg.perform hc
  obtain ⟨rfl, rfl⟩ := Prod.mk.inj (Option.some.inj (hperf.symm.trans hperf₁))
  have hfits : Fits base w'.heap q c.asked :=
    (World.mem_live_of_perform hperf).elim Or.inl hg₁.fits
  cases c with
  | calloc grant num size => exact ⟨hfits, hret.post⟩
  | malloc grant size => exact hfits
  | realloc grant ptr size => exact hfits
  | free ptr => exact hfits

/-- The blocks of the heap are far smaller than a request that wraps. -/
theorem Good.size_lt (hg : Good base w) {ptr : Nat} (hmem : ptr ∈ w.live.map Prod.fst) :
    ptr ≠ 0 ∧ 40 + w.heap.size (wsub ptr nodeSize) < 2 ^ 63 := by
  obtain ⟨bs, fl, hr, hc⟩ := hg
  obtain ⟨e, he, rfl⟩ := List.mem_map.mp hmem
  obtain ⟨b, hbm, -, hd, -⟩ := hc.block e he
  have hbound := (hr.layout.bounds hbm).2
  have hlt := hr.brk_lt
  rw [← hd, Rep.wsub_data hr.toCore hbm, hr.size_eq hbm]
  unfold Block.data
  unfold Block.next at hbound
  omega

/-- A request that wraps and is turned down changes nothing. -/
theorem Good.perform_of_refuses (hg : Good base w) (hwords : c.Words) (hheld : w.Holds c.target)
    (hbig : 2 ^ 63 ≤ 40 + c.asked) (hn : w.heap.Refuses c.grant (c.asked % 2 ^ 64)) :
    w.perform c = some (0, w) := by
  have hzero := hg.choose_spec.choose_spec.2.without_zero
  cases c with
  | malloc grant size =>
    have hmod : size % 2 ^ 64 = size := Nat.mod_eq_of_lt hwords
    simp only [Call.asked, Call.grant, hmod] at hn
    rw [World.perform, Heap.malloc_of_refuses hn]
    rfl
  | calloc grant num size =>
    simp only [Call.asked, Call.grant] at hn
    rw [World.perform, Heap.calloc, Heap.malloc_of_refuses hn]
    rfl
  | realloc grant ptr size =>
    have hmod : size % 2 ^ 64 = size := Nat.mod_eq_of_lt hwords
    simp only [Call.asked, Call.grant, hmod] at hn hbig
    have h0 : size ≠ 0 := by omega
    have hrun : w.heap.realloc grant ptr size = some (0, w.heap) := by
      rcases hheld with rfl | hmem
      · exact Heap.malloc_of_refuses hn
      · obtain ⟨hptr, hlt⟩ := hg.size_lt hmem
        rw [Call.target] at hptr hlt
        rw [Heap.realloc, if_neg hptr, if_neg h0]
        dsimp only
        rw [if_neg (by omega), Heap.malloc_of_refuses hn]
        rfl
    rw [World.perform, hrun, Option.map_some]
    dsimp only
    rw [if_pos ⟨rfl, Nat.pos_of_ne_zero h0⟩]
  | free ptr =>
    simp only [Call.asked] at hbig
    omega

/-- A request that wraps and is granted returns a pointer, in a heap that has no room. -/
theorem Good.perform_of_not_refuses (hg : Good base w) (hwords : c.Words)
    (hheld : w.Holds c.target) (hbig : 2 ^ 63 ≤ 40 + c.asked)
    (hn : ¬ w.heap.Refuses c.grant (c.asked % 2 ^ 64)) :
    ∃ q w', w.perform c = some (q, w') ∧ 0 < q ∧ w'.heap.brk < 2 ^ 63 := by
  obtain ⟨bs, fl, hr, -⟩ := id hg
  obtain ⟨q, h', heq, hpos, hbrk⟩ := hr.malloc_of_not_refuses hn
  cases c with
  | malloc grant size =>
    rw [Call.asked, Nat.mod_eq_of_lt hwords, Call.grant] at heq
    exact ⟨q, _, by rw [World.perform, heq, Option.map_some], hpos, hbrk⟩
  | calloc grant num size =>
    simp only [Call.asked, Call.grant] at heq
    refine ⟨q, ⟨h'.withMem (h'.mem.fill q 0 (num * size % 2 ^ 64)),
      World.grantTo w.live q (num * size)⟩, ?_, hpos, hbrk⟩
    rw [World.perform, Heap.calloc, heq, Option.map_some, Option.map_some]
    dsimp only
    rw [if_neg hpos.ne']
  | realloc grant ptr size =>
    rw [Call.asked, Nat.mod_eq_of_lt hwords, Call.grant] at heq
    rw [Call.asked] at hbig
    have h0 : size ≠ 0 := by omega
    obtain ⟨h₂, hrun, hbrk₂⟩ : ∃ h₂, w.heap.realloc grant ptr size = some (q, h₂) ∧
        h₂.brk < 2 ^ 63 := by
      rcases hheld with rfl | hmem
      · exact ⟨h', heq, hbrk⟩
      · obtain ⟨hptr, hlt⟩ := hg.size_lt hmem
        rw [Call.target] at hptr hlt
        refine ⟨(h'.withMem (h'.mem.copy q ptr (h'.size (wsub ptr nodeSize)))).free ptr, ?_, ?_⟩
        · rw [Heap.realloc, if_neg hptr, if_neg h0]
          dsimp only
          rw [if_neg (by omega), heq, Option.map_some]
          dsimp only
          rw [if_pos hpos.ne']
        · rw [Heap.free_brk]
          exact hbrk
    refine ⟨q, ⟨h₂, World.grantTo (w.without ptr) q size⟩, ?_, hpos, hbrk₂⟩
    rw [World.perform, hrun, Option.map_some]
    dsimp only
    rw [if_neg fun hnull => hpos.ne' hnull.1]
  | free ptr =>
    simp only [Call.asked] at hbig
    omega

/-- A client with any arguments calls like a correct one when its request does not wrap. -/
theorem World.allowed_of_asked (hheld : w.Holds c.target) (hsmall : 40 + c.asked < 2 ^ 63) :
    w.Allowed c := by
  cases c with
  | malloc grant size =>
    simp only [Call.asked] at hsmall
    exact (by omega : size < 2 ^ 63)
  | calloc grant num size =>
    simp only [Call.asked] at hsmall
    exact (by omega : num * size < 2 ^ 63)
  | realloc grant ptr size =>
    simp only [Call.asked] at hsmall
    exact ⟨by omega, hheld⟩
  | free ptr => exact hheld

/-- An action with no wrapped request that is granted keeps the heap well-formed. -/
theorem Good.anyStep (hg : Good base w) {i : Action} (hu : Unwrapped w i)
    (hs : anyStep w i = some w') : Good base w' := by
  cases i with
  | write a v =>
    have hs' : Malloc.step w (.write a v) = some w' := hs
    exact hg.step hs'
  | call c =>
    rw [Malloc.anyStep] at hs
    split_ifs at hs with hperm
    obtain ⟨⟨q, w₁⟩, hperf, rfl⟩ := Option.map_eq_some_iff.mp hs
    by_cases hsmall : 40 + c.asked < 2 ^ 63
    · obtain ⟨q₁, w₁', hperf₁, hg₁, -⟩ := hg.perform (World.allowed_of_asked hperm.2 hsmall)
      obtain ⟨rfl, rfl⟩ := Prod.mk.inj (Option.some.inj (hperf.symm.trans hperf₁))
      exact hg₁
    · have hsame := hg.perform_of_refuses hperm.1 hperm.2 (by omega) (hu.resolve_left hsmall)
      obtain ⟨-, rfl⟩ := Prod.mk.inj (Option.some.inj (hperf.symm.trans hsame))
      exact hg

/-- **One action** gives what is asked for exactly when it is not a request that wraps and
is granted. -/
theorem Good.asLarge_iff (hg : Good base w) (i : Action) :
    AsLarge base w i ↔ (w.Permits i → Unwrapped w i) := by
  cases i with
  | write a v => exact iff_of_true trivial fun _ => trivial
  | call c =>
    refine forall_congr' fun hperm => ?_
    by_cases hsmall : 40 + c.asked < 2 ^ 63
    · have hallowed := World.allowed_of_asked hperm.2 hsmall
      obtain ⟨q, w₁, hperf, -, -⟩ := hg.perform hallowed
      exact iff_of_true ⟨q, w₁, hperf, hg.enough hallowed hperf⟩ (Or.inl hsmall)
    · by_cases hn : w.heap.Refuses c.grant (c.asked % 2 ^ 64)
      · refine iff_of_true ⟨0, w, hg.perform_of_refuses hperm.1 hperm.2 (by omega) hn, ?_⟩
          (Or.inr hn)
        cases c with
        | calloc grant num size => exact ⟨Or.inl rfl, fun h0 => absurd rfl h0⟩
        | malloc grant size => exact Or.inl rfl
        | realloc grant ptr size => exact Or.inl rfl
        | free ptr => exact Or.inl rfl
      · -- the block would have to end above the break
        obtain ⟨q, w₁, hperf, hpos, hbrk⟩ :=
          hg.perform_of_not_refuses hperm.1 hperm.2 (by omega) hn
        refine iff_of_false ?_ fun hu => hu.elim hsmall hn
        rintro ⟨q', w', hperf', henough⟩
        obtain ⟨rfl, rfl⟩ := Prod.mk.inj (Option.some.inj (hperf.symm.trans hperf'))
        have hle := henough.fits.lt hpos.ne'
        omega

/-! ## Main results -/

/-- **Allocations are as large as asked**, in a run of a client that passes any 64-bit
arguments, exactly when the run makes no request that wraps and is granted. A call that gives what
was asked for returns. -/
theorem as_large_iff {boot : Boot} {is : List Action} :
    (∀ v i, Takes anyStep boot.world is v i → AsLarge boot.base v i) ↔
      ∀ v i, Takes anyStep boot.world is v i → v.Permits i → Unwrapped v i := by
  refine forall_takes_congr (P := Good boot.base) (Good.start boot) ?_ fun v i hg =>
    hg.asLarge_iff i
  intro v i v' hg hu hs
  refine hg.anyStep (hu ?_) hs
  -- an action with a successor is one of the client's
  cases i with
  | write a b => trivial
  | call c =>
    rw [Malloc.anyStep] at hs
    split_ifs at hs with hperm
    exact hperm

/-- A request, a cleared one, and one of `2 ^ 63` bytes that the kernel turns down. -/
def modestSession : List Action :=
  [.call (.malloc true 16), .call (.calloc true 2 4), .call (.malloc false (2 ^ 63))]

theorem as_large_modestSession :
    ∃ w, run anyStep zeroBoot.world modestSession = some w ∧
      ∀ v i, Takes anyStep zeroBoot.world modestSession v i → AsLarge zeroBoot.base v i := by
  have hsome : (run anyStep zeroBoot.world modestSession).isSome = true := by decide
  have hcheck : checkRun anyStep (fun v i => decide (Unwrapped v i)) zeroBoot.world modestSession =
      true := by
    decide
  obtain ⟨w, hw⟩ := Option.isSome_iff_exists.mp hsome
  refine ⟨w, hw, as_large_iff.mpr fun v i hvi _ => ?_⟩
  exact of_decide_eq_true (forall_takes_of_checkRun hcheck v i hvi)

/-- A fresh process asks for `2 ^ 64 - 1` bytes: the kernel is asked for 39. -/
theorem not_asLarge_wrapped :
    zeroBoot.world.Permits (.call (.malloc true (2 ^ 64 - 1))) ∧
      ¬ AsLarge zeroBoot.base zeroBoot.world (.call (.malloc true (2 ^ 64 - 1))) := by
  have hperm : zeroBoot.world.Permits (.call (.malloc true (2 ^ 64 - 1))) := by decide
  refine ⟨hperm, fun hlarge => ?_⟩
  have hread : (zeroBoot.world.perform (.malloc true (2 ^ 64 - 1))).map (fun r =>
      (r.1, r.2.heap.brk)) = some (4128, 4135) := by
    decide
  obtain ⟨⟨q, w⟩, hperf, hr⟩ := Option.map_eq_some_iff.mp hread
  simp only [Prod.mk.injEq] at hr
  obtain ⟨q', w', hperf', henough⟩ := hlarge hperm
  obtain ⟨rfl, rfl⟩ := Prod.mk.inj (Option.some.inj (hperf.symm.trans hperf'))
  have hle := henough.fits.lt (by omega)
  rw [hr.2, Call.asked] at hle
  omega

end SystemProgramming.Malloc
