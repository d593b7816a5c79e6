import SystemProgramming.Malloc.Client

/-!
# Merging of free neighbours

`free` looks for the block after a node no further than `tail_mem`, and `alloc_new` moves
`tail_mem` for the first block only. A free block past `tail_mem` is therefore out of sight,
and a block freed in front of it stays apart from it. This is the only way in which two
free blocks come to be neighbours: requests hand out a free block or the front of one, and
every other `free` merges the block with both of its free neighbours.

## Main definitions

* `Merged base h`: no two neighbouring blocks of the heap are both free
* `NextSeen h ptr`: a free block after the one of `ptr` is not past `tail_mem`
* `World.freed w c`: the heap and the pointer with which the call `c` enters `free`

## Main results

* `Rep.merged_free_iff`: `free` keeps the heap merged exactly when the next block is seen
* `merged_run_iff`: all heaps of a run are merged exactly when every `free` sees the next block
-/

namespace SystemProgramming.Malloc

/-! ## What is promised -/

/-- No two blocks next to each other in memory are both free. -/
def Merged (base : Nat) (h : Heap) : Prop :=
  ∃ as, Tiling h base as ∧ as.IsChain fun a b => ¬ (h.isFree a ≠ 0 ∧ h.isFree b ≠ 0)

/-- The block after the one of `ptr`, if there is one and it is free, is not past `tail_mem`. -/
def NextSeen (h : Heap) (ptr : Nat) : Prop :=
  let node := wsub ptr nodeSize
  let next := wadd node (metaBtagSize + h.size node)
  next < h.brk → h.isFree next ≠ 0 → next ≤ h.tailMem

instance (h : Heap) (ptr : Nat) : Decidable (NextSeen h ptr) :=
  inferInstanceAs (Decidable (_ → _ → _))

/-- The heap and the pointer with which the call enters `free`, unless it frees nothing: a
moving `realloc` does so after the new block was asked for and filled. -/
def World.freed (w : World) : Call → Option (Heap × Nat)
  | .malloc _ _ => none
  | .calloc _ _ _ => none
  | .realloc grant ptr size =>
    let node := wsub ptr nodeSize
    if ptr = 0 then none
    else if size = 0 then some (w.heap, ptr)
    else if size ≤ w.heap.size node then none
    else
      (w.heap.malloc grant size).bind fun (q, h) =>
        if q = 0 then none else some (h.withMem (h.mem.copy q ptr (h.size node)), ptr)
  | .free ptr => if ptr = 0 then none else some (w.heap, ptr)

/-- Whatever the action frees, it sees the block after it. -/
def SeesNext (w : World) : Action → Prop
  | .call c => ∀ f ∈ w.freed c, NextSeen f.1 f.2
  | .write _ _ => True

instance (w : World) (i : Action) : Decidable (SeesNext w i) :=
  match i with
  | .call c => inferInstanceAs (Decidable (∀ f ∈ w.freed c, _))
  | .write _ _ => inferInstanceAs (Decidable True)

/-! ## Lists of blocks -/

/-- No two neighbours in the list of blocks are both free. -/
def Separated (bs : List Block) : Prop := bs.IsChain fun b c => ¬ (b.free = true ∧ c.free = true)

variable {base : Nat} {h h' : Heap} {b p n : Block} {bs bs' l r : List Block} {fl : List Nat}
  {size ptr q : Nat} {w w' : World} {c : Call}

/-- The two sides of an allocated block do not see each other. -/
theorem separated_of_not_free (hb : b.free = false) :
    Separated (l ++ [b] ++ r) ↔ Separated l ∧ Separated r := by
  simp [Separated, List.isChain_append, List.isChain_cons, hb]

/-- A free block needs allocated neighbours. -/
theorem separated_of_free (hb : b.free = true) :
    Separated (l ++ [b] ++ r) ↔ (Separated l ∧ ∀ p ∈ l.getLast?, p.free = false) ∧
      Separated r ∧ ∀ n ∈ r.head?, n.free = false := by
  simp only [Separated, List.isChain_append, List.isChain_cons, List.append_assoc,
    List.singleton_append, List.head?_cons, Option.mem_some_iff, forall_eq', hb, true_and, and_true,
    Bool.not_eq_true]
  tauto

/-- A request keeps the blocks separated. -/
theorem Serving.separated (hs : Serving size bs bs') (hsep : Separated bs) : Separated bs' := by
  cases hs with
  | extend bs x =>
    have := (separated_of_not_free (b := ⟨x, size, false⟩) (l := bs) (r := []) rfl).mpr
      ⟨hsep, List.isChain_nil⟩
    simpa using this
  | whole l r hb =>
    obtain ⟨⟨hl, -⟩, hr, -⟩ := (separated_of_free hb).mp hsep
    exact (separated_of_not_free rfl).mpr ⟨hl, hr⟩
  | split l r x n hb =>
    obtain ⟨⟨hl, -⟩, hr, hnr⟩ := (separated_of_free hb).mp hsep
    refine (separated_of_not_free rfl).mpr ⟨hl, ?_⟩
    have := (separated_of_free (b := ⟨x, n, true⟩) (l := []) (r := r) rfl).mpr
      ⟨⟨List.isChain_nil, by simp⟩, hr, hnr⟩
    simpa using this

/-- Freeing a block keeps the blocks separated exactly when a free block after it is found. -/
theorem Freed.separated_iff {found : Prop} (hf : Freed found b bs bs') (hb : b.free = false)
    (hsep : Separated bs) :
    ∃ l r, bs = l ++ b :: r ∧ (Separated bs' ↔ ∀ n ∈ r.head?, n.free = true → found) := by
  have hsplit : ∀ {l r}, Separated (l ++ b :: r) → Separated l ∧ Separated r := fun {l r} h =>
    (separated_of_not_free hb).mp (by simpa using h)
  have hlast : ∀ {l p}, p.free = true → Separated (l ++ [p]) →
      Separated l ∧ ∀ q ∈ l.getLast?, q.free = false := fun {l p} hp h =>
    ((separated_of_free (r := []) hp).mp (by simpa using h)).1
  have hfirst : ∀ {r n}, n.free = true → Separated (n :: r) →
      Separated r ∧ ∀ q ∈ r.head?, q.free = false := fun {r n} hn h =>
    ((separated_of_free (l := []) hn).mp h).2
  cases hf with
  | @three l r p n hp hn hfound =>
    obtain ⟨hsl, hsr⟩ := hsplit (l := l ++ [p]) (r := n :: r) (by simpa using hsep)
    refine ⟨l ++ [p], n :: r, by simp, ?_⟩
    exact iff_of_true ((separated_of_free rfl).mpr ⟨hlast hp hsl, hfirst hn hsr⟩) fun _ _ _ => hfound
  | @before l r p hp hafter =>
    obtain ⟨hsl, hsr⟩ := hsplit (l := l ++ [p]) (r := r) (by simpa using hsep)
    refine ⟨l ++ [p], r, by simp, (separated_of_free rfl).trans ?_⟩
    refine ⟨fun h n hn hnf => ?_, fun h => ⟨hlast hp hsl, hsr, fun n hn => ?_⟩⟩
    · simp [h.2.2 n hn] at hnf
    · by_contra hnf
      exact hafter n hn (by simpa using hnf) (h n hn (by simpa using hnf))
  | @after l r n hbefore hn hfound =>
    obtain ⟨hsl, hsr⟩ := hsplit (l := l) (r := n :: r) (by simpa using hsep)
    refine ⟨l, n :: r, by simp, ?_⟩
    exact iff_of_true ((separated_of_free rfl).mpr ⟨⟨hsl, hbefore⟩, hfirst hn hsr⟩)
      fun _ _ _ => hfound
  | alone l r hbefore hafter =>
    obtain ⟨hsl, hsr⟩ := hsplit (l := l) (r := r) (by simpa using hsep)
    refine ⟨l, r, by simp, (separated_of_free rfl).trans ?_⟩
    refine ⟨fun h n hn hnf => ?_, fun h => ⟨⟨hsl, hbefore⟩, hsr, fun n hn => ?_⟩⟩
    · simp [h.2.2 n hn] at hnf
    · by_contra hnf
      exact hafter n hn (by simpa using hnf) (h n hn (by simpa using hnf))

/-! ## Reading the heap -/

theorem Tiling.unique {as as' : List Nat} (ht : Tiling h base as) (ht' : Tiling h base as') :
    as = as' := by
  refine Tiles.unique (fun a => ?_) ht.1 ht'.1
  unfold metaBtagSize nodeSize btagSize
  omega

/-- The heap is merged when its blocks are separated. -/
theorem Core.merged_iff_separated (hc : Core base h bs fl) : Merged base h ↔ Separated bs := by
  have hflags : (bs.map Block.addr).IsChain (fun a b => ¬ (h.isFree a ≠ 0 ∧ h.isFree b ≠ 0)) ↔
      Separated bs := by
    refine (List.isChain_map _).trans (List.IsChain.iff_of_mem_imp fun b c hb hcm => ?_)
    rw [hc.isFree_eq hb, hc.isFree_eq hcm]
    cases b.free <;> cases c.free <;> simp
  refine ⟨?_, fun hs => ⟨_, hc.tiling, hflags.mpr hs⟩⟩
  rintro ⟨as, ht, has⟩
  exact hflags.mp (ht.unique hc.tiling ▸ has)

theorem Core.nextSeen_iff (hc : Core base h (l ++ b :: r) fl) :
    NextSeen h b.data ↔ ∀ n ∈ r.head?, n.free = true → h.getNextMem b.addr ≠ 0 := by
  have hb : b ∈ l ++ b :: r := by simp
  have hlt := hc.next_lt hb
  have hnext : wadd b.addr (metaBtagSize + h.size b.addr) = b.next := by
    unfold metaBtagSize nodeSize btagSize Block.next at *
    rw [hc.size_eq hb, wadd_of_lt (by omega)]
    omega
  obtain ⟨m, -, -, htiles⟩ := tiles_append.mp hc.layout.tiles
  simp only [NextSeen, Rep.wsub_data hc hb, hnext]
  cases r with
  | nil =>
    have hlast : b.next = h.brk := htiles
    simp [hlast]
  | cons n r =>
    have hn : n ∈ l ++ b :: n :: r := by simp
    have haddr : n.addr = b.next := htiles.1
    have hbrk : b.next < h.brk := by
      have := (hc.layout.bounds hn).2
      have := n.addr_lt_next
      omega
    have hpos : b.next ≠ 0 := by
      unfold Block.next
      omega
    have hfound : h.getNextMem b.addr ≠ 0 ↔ b.next ≤ h.tailMem := by
      rw [hc.getNextMem_eq hb]
      split_ifs with ht
      · exact iff_of_false (by simp) (by omega)
      · exact iff_of_true hpos (by omega)
    rw [← haddr, hc.isFree_eq hn, haddr, List.head?_cons]
    simp only [Option.mem_some_iff, forall_eq', hfound, hbrk, forall_const]
    cases n.free <;> simp

/-- **`free` of a live block** keeps the heap merged exactly when it sees the next block. -/
theorem Rep.merged_free_iff (hr : Rep base h bs fl) (hbm : b ∈ bs) (hb : b.free = false)
    (hm : Merged base h) : Merged base (h.free b.data) ↔ NextSeen h b.data := by
  obtain ⟨bs', fl', hr', hfreed, -⟩ := hr.free hbm hb
  obtain ⟨l, r, rfl, hiff⟩ := hfreed.separated_iff hb (hr.merged_iff_separated.mp hm)
  rw [hr'.merged_iff_separated, hiff, hr.nextSeen_iff]

/-- Writes to the data of an allocated block keep the heap merged. -/
theorem Rep.merged_withMem (hr : Rep base h bs fl) (hb : b ∈ bs) {m : Memory}
    (hm : ∀ a, ¬ (b.data ≤ a ∧ a < b.tag) → m a = h.mem a) :
    Merged base (h.withMem m) ↔ Merged base h := by
  rw [(hr.withMem hb hm).merged_iff_separated, hr.merged_iff_separated]

/-- A request keeps the heap merged. -/
theorem Rep.merged_malloc (hr : Rep base h bs fl) (hsz : size < 2 ^ 63) {grant : Bool}
    (heq : h.malloc grant size = some (ptr, h')) (hm : Merged base h) : Merged base h' := by
  obtain ⟨q, h₁, heq₁, hcase⟩ := hr.malloc hsz grant
  obtain ⟨rfl, rfl⟩ : ptr = q ∧ h' = h₁ := by simpa using heq.symm.trans heq₁
  rcases hcase with ⟨-, rfl⟩ | ⟨-, -, bs', fl', hr', hs⟩
  · exact hm
  · exact hr'.merged_iff_separated.mpr (hs.separated (hr.merged_iff_separated.mp hm))

/-- A cleared request keeps the heap merged. -/
theorem Rep.merged_calloc (hr : Rep base h bs fl) {num : Nat} (hsz : num * size < 2 ^ 63)
    {grant : Bool} (heq : h.calloc grant num size = some (ptr, h')) (hm : Merged base h) :
    Merged base h' := by
  have hmod : num * size % 2 ^ 64 = num * size := Nat.mod_eq_of_lt (by omega)
  obtain ⟨q, h₁, heq₁, hcase⟩ := hr.malloc hsz grant
  have hm₁ := hr.merged_malloc hsz heq₁ hm
  rw [Heap.calloc, hmod, heq₁, Option.map_some] at heq
  dsimp only at heq
  rcases hcase with ⟨rfl, -⟩ | ⟨hpos, ⟨b, bs₁, fl₁, hr₁, hbm, -, rfl, hle, -⟩, -⟩
  · obtain ⟨-, rfl⟩ : 0 = ptr ∧ h₁ = h' := by simpa using heq
    exact hm₁
  · rw [if_neg (by omega)] at heq
    obtain ⟨-, rfl⟩ := Prod.mk.inj (Option.some.inj heq)
    exact (hr₁.merged_withMem hbm (Rep.fill_data hle)).mpr hm₁

/-! ## One call at a time -/

theorem perform_realloc {grant : Bool} (hperf : w.perform (.realloc grant ptr size) = some (q, w')) :
    w.heap.realloc grant ptr size = some (q, w'.heap) := by
  obtain ⟨⟨q₁, h₁⟩, heq, hf⟩ := Option.map_eq_some_iff.mp hperf
  rw [heq]
  dsimp only at hf
  split_ifs at hf
  all_goals
    obtain ⟨rfl, rfl⟩ := Prod.mk.inj hf
    rfl

/-- `realloc` of a live pointer: nothing is moved, or the old block is freed. -/
theorem merged_realloc_iff (hr : Rep base w.heap bs fl) (hbm : b ∈ bs) (hb : b.free = false)
    (hsz : size < 2 ^ 63) {grant : Bool} (hm : Merged base w.heap)
    (heq : w.heap.realloc grant b.data size = some (q, h')) :
    Merged base h' ↔ ∀ f ∈ w.freed (.realloc grant b.data size), NextSeen f.1 f.2 := by
  have hdata : b.data ≠ 0 := by
    unfold Block.data
    omega
  simp only [World.freed, Heap.realloc, if_neg hdata] at heq ⊢
  rcases Nat.eq_zero_or_pos size with rfl | hpos
  · rw [if_pos rfl] at heq ⊢
    obtain ⟨-, rfl⟩ := Prod.mk.inj (Option.some.inj heq)
    simpa using hr.merged_free_iff hbm hb hm
  rw [if_neg hpos.ne'] at heq ⊢
  by_cases hfit : size ≤ w.heap.size (wsub b.data nodeSize)
  · rw [if_pos hfit] at heq ⊢
    obtain ⟨-, rfl⟩ := Prod.mk.inj (Option.some.inj heq)
    simpa using hm
  rw [if_neg hfit] at heq ⊢
  obtain ⟨q₁, h₁, heq₁, hcase⟩ := hr.malloc hsz grant
  have hm₁ := hr.merged_malloc hsz heq₁ hm
  rw [heq₁] at heq ⊢
  simp only [Option.map_some, Option.bind_some] at heq ⊢
  rcases hcase with ⟨rfl, -⟩ | ⟨hq, ⟨c, bs₁, fl₁, hr₁, hcm, hcf, rfl, hle, hkeep⟩, -⟩
  · obtain ⟨-, rfl⟩ : 0 = q ∧ h₁ = h' := by simpa using heq
    simpa using hm₁
  · -- the old block is freed in the heap that holds the copy
    rw [if_pos hq.ne'] at heq
    rw [if_neg hq.ne']
    obtain ⟨-, rfl⟩ := Prod.mk.inj (Option.some.inj heq)
    obtain ⟨hbm₁, -, -⟩ := hkeep b hbm hb
    have hle' : h₁.size (wsub b.data nodeSize) ≤ c.size := by
      rw [Rep.wsub_data hr.toCore hbm, hr.size_eq hbm] at hfit
      rw [Rep.wsub_data hr.toCore hbm, hr₁.size_eq hbm₁]
      omega
    have hcopy : ∀ a, ¬ (c.data ≤ a ∧ a < c.tag) →
        h₁.mem.copy c.data b.data (h₁.size (wsub b.data nodeSize)) a = h₁.mem a :=
      Rep.copy_data hle'
    have hm₂ := (hr₁.merged_withMem hcm hcopy).mpr hm₁
    simpa using (hr₁.withMem hcm hcopy).merged_free_iff hbm₁ hb hm₂

/-- **Every call** of a correct client keeps the heap merged exactly when whatever it frees
sees the next block. -/
theorem Good.merged_perform_iff (hg : Good base w) (hc : w.Allowed c) (hm : Merged base w.heap)
    (hperf : w.perform c = some (q, w')) :
    Merged base w'.heap ↔ ∀ f ∈ w.freed c, NextSeen f.1 f.2 := by
  obtain ⟨bs, fl, hr, hcov⟩ := hg
  have hblock : ∀ {ptr}, ptr ∈ w.live.map Prod.fst → ∃ b ∈ bs, b.free = false ∧ b.data = ptr := by
    intro ptr hmem
    obtain ⟨e, he, rfl⟩ := List.mem_map.mp hmem
    obtain ⟨b, hbm, hb, hd, -⟩ := hcov.block e he
    exact ⟨b, hbm, hb, hd⟩
  cases c with
  | malloc grant size =>
    obtain ⟨⟨q₁, h₁⟩, heq, hf⟩ := Option.map_eq_some_iff.mp hperf
    obtain ⟨-, rfl⟩ := Prod.mk.inj hf
    simpa [World.freed] using hr.merged_malloc hc heq hm
  | calloc grant num size =>
    obtain ⟨⟨q₁, h₁⟩, heq, hf⟩ := Option.map_eq_some_iff.mp hperf
    obtain ⟨-, rfl⟩ := Prod.mk.inj hf
    simpa [World.freed] using hr.merged_calloc hc heq hm
  | realloc grant ptr size =>
    have heq := perform_realloc hperf
    rcases hc.2 with rfl | hmem
    · rw [Heap.realloc, if_pos rfl] at heq
      simpa [World.freed] using hr.merged_malloc hc.1 heq hm
    · obtain ⟨b, hbm, hb, rfl⟩ := hblock hmem
      exact merged_realloc_iff hr hbm hb hc.1 hm heq
  | free ptr =>
    obtain ⟨-, rfl⟩ := Prod.mk.inj (Option.some.inj hperf)
    rcases hc with rfl | hmem
    · simpa [World.freed, Heap.free] using hm
    · obtain ⟨b, hbm, hb, rfl⟩ := hblock hmem
      have hdata : b.data ≠ 0 := by
        unfold Block.data
        omega
      simpa [World.freed, hdata] using hr.merged_free_iff hbm hb hm

/-- A client's write keeps the heap merged. -/
theorem Good.merged_write (hg : Good base w) {a : Nat} {v : UInt8} (ha : w.Owns a)
    (hm : Merged base w.heap) : Merged base (w.heap.withMem (w.heap.mem.store a 1 v.toNat)) := by
  obtain ⟨bs, fl, hr, hc⟩ := hg
  obtain ⟨e, he, h₁, h₂⟩ := ha
  obtain ⟨b, hbm, -, hd, hle⟩ := hc.block e he
  have hin := mem_data hd hle h₁ h₂
  refine (hr.merged_withMem hbm fun x hx => Memory.store_of_not_mem ?_).mpr hm
  omega

/-- **One action** keeps the heap merged exactly when it sees the next block. -/
theorem Good.merged_step_iff {i : Action} (hg : Good base w) (hm : Merged base w.heap)
    (hs : Malloc.step w i = some w') : Merged base w'.heap ↔ SeesNext w i := by
  cases i with
  | call c =>
    by_cases hc : w.Allowed c
    · rw [Malloc.step, if_pos hc] at hs
      obtain ⟨⟨q, w₁⟩, hperf, rfl⟩ := Option.map_eq_some_iff.mp hs
      exact hg.merged_perform_iff hc hm hperf
    · rw [Malloc.step, if_neg hc] at hs
      simp at hs
  | write a v =>
    by_cases ha : w.Owns a
    · rw [Malloc.step, if_pos ha] at hs
      obtain rfl := Option.some.inj hs
      exact iff_of_true (hg.merged_write ha hm) trivial
    · rw [Malloc.step, if_neg ha] at hs
      simp at hs

/-! ## Main results -/

/-- **Freed neighbours are merged** in every state of a run of a correct client exactly when
no block is freed in front of a free block past `tail_mem`. -/
theorem merged_run_iff {boot : Boot} {is : List Action} (hrun : run step boot.world is = some w) :
    (∀ v, Visits step boot.world is v → Merged boot.base v.heap) ↔
      ∀ v i, Takes step boot.world is v i → SeesNext v i := by
  have hstart : Merged boot.base boot.world.heap := ⟨[], ⟨rfl, by simp⟩, List.isChain_nil⟩
  refine forall_visits_iff (P := fun v => Good boot.base v ∧ Merged boot.base v.heap)
    ⟨Good.start boot, hstart⟩ ?_ (fun v hv => hv.2) ?_ hrun
  · rintro v i v' ⟨hg, hm⟩ hC hs
    exact ⟨hg.step hs, (hg.merged_step_iff hm hs).mpr hC⟩
  · rintro v i v' ⟨hg, hm⟩ hC hs
    exact mt (hg.merged_step_iff hm hs).mp hC

/-- Two blocks are freed in the order of their addresses. -/
def upwardSession : List Action :=
  [.call (.malloc true 16), .call (.malloc true 16), .call (.free 4128), .call (.free 4184)]

theorem merged_upwardSession :
    ∃ w, run step zeroBoot.world upwardSession = some w ∧
      ∀ v, Visits step zeroBoot.world upwardSession v → Merged zeroBoot.base v.heap := by
  have hsome : (run step zeroBoot.world upwardSession).isSome = true := by decide
  have hcheck : checkRun step (fun v i => decide (SeesNext v i)) zeroBoot.world upwardSession =
      true := by
    decide
  obtain ⟨w, hw⟩ := Option.isSome_iff_exists.mp hsome
  refine ⟨w, hw, (merged_run_iff hw).mpr fun v i hvi => ?_⟩
  exact of_decide_eq_true (forall_takes_of_checkRun hcheck v i hvi)

/-- Two blocks are freed in the opposite order: the second one is past `tail_mem`. -/
def downwardSession : List Action :=
  [.call (.malloc true 16), .call (.malloc true 16), .call (.free 4184), .call (.free 4128)]

theorem not_merged_downwardSession :
    ∃ w, run step zeroBoot.world downwardSession = some w ∧ ¬ Merged zeroBoot.base w.heap := by
  have hread : (run step zeroBoot.world downwardSession).map (fun w =>
      [w.heap.brk, w.heap.size 4096, w.heap.size 4152, w.heap.btagAt 4144, w.heap.btagAt 4200,
        w.heap.isFree 4096, w.heap.isFree 4152]) = some [4208, 16, 16, 16, 16, 1, 1] := by
    decide
  obtain ⟨w, hw, hr⟩ := Option.map_eq_some_iff.mp hread
  simp only [List.cons.injEq, and_true] at hr
  obtain ⟨hbrk, hs₁, hs₂, ht₁, ht₂, hf₁, hf₂⟩ := hr
  have htiling : Tiling w.heap zeroBoot.base [4096, 4152] := by
    refine ⟨⟨rfl, ?_⟩, ?_⟩
    · simp [hs₁, hs₂, hbrk, metaBtagSize, nodeSize, btagSize]
    · simp [hs₁, hs₂, ht₁, ht₂, nodeSize]
  refine ⟨w, hw, ?_⟩
  rintro ⟨as, has, hchain⟩
  obtain rfl := has.unique htiling
  simp [hf₁, hf₂] at hchain

end SystemProgramming.Malloc
