import SystemProgramming.Malloc.Merging
import SystemProgramming.Malloc.Requests

/-!
# Freeing a pointer twice

`free` looks at `is_free` in the header in front of its pointer and returns when it is set.
A block that is merged into a free one below it is not marked: the header in the middle of
the merged block still says that the block is in use, and a second `free` of the same
pointer merges it again.

That the second merge always does damage needs the link words of the block above: a head of
the free list keeps a stale `prev_free`, since `remove_free` drops the head without touching
the new one. The stale word is an address that was a block when it was written, so no header
begins in the bytes that follow it.

## Main definitions

* `Clear`, `HeadClear`: no header begins right after the stale word of the head
* `PrevTaken`: there is no free block just below the one of a pointer

## Main results

* `Good.headClear_anyStep`: every action keeps the stale word of the head clear
* `free_twice_iff`: a second `free` is harmless exactly when no free block is just below
-/

namespace SystemProgramming.Malloc

variable {base : Nat} {h h' : Heap} {b c p n : Block} {bs bs' l r : List Block} {fl : List Nat}
  {q size : Nat}

/-! ## The stale word of the head -/

/-- No block begins in the 40 bytes from `q`. -/
def Clear (brk : Nat) (as : List Nat) (q : Nat) : Prop :=
  q = 0 ∨ (q + 40 ≤ brk ∧ ∀ a ∈ as, a ≤ q ∨ q + 40 ≤ a)

/-- The `prev_free` of the head of the free list is null, or no block begins right after it. -/
def HeadClear (base : Nat) (h : Heap) : Prop :=
  ∃ as, Tiling h base as ∧ (h.headFree ≠ 0 → Clear h.brk as (h.prevFree h.headFree))

/-- The same, for the blocks that the heap holds. -/
def HeadOk (h : Heap) (bs : List Block) : Prop :=
  h.headFree ≠ 0 → Clear h.brk (bs.map Block.addr) (h.prevFree h.headFree)

theorem Core.headClear_iff (hc : Core base h bs fl) : HeadClear base h ↔ HeadOk h bs := by
  constructor
  · rintro ⟨as, ht, hclear⟩
    obtain rfl := ht.unique hc.tiling
    exact hclear
  · intro hok
    exact ⟨_, hc.tiling, hok⟩

/-- Blocks may go away, and new ones may begin at the break. -/
theorem Clear.mono {brk brk' : Nat} {as as' : List Nat} (hq : Clear brk as q) (hle : brk ≤ brk')
    (has : ∀ a ∈ as', a ∈ as ∨ brk ≤ a) : Clear brk' as' q := by
  refine hq.imp_right fun ⟨hend, hout⟩ => ⟨by omega, fun a ha => ?_⟩
  rcases has a ha with ha | ha
  · exact hout a ha
  · omega

/-- A block is clear of the other ones. -/
theorem Layout.clear (hl : Layout h.mem base h.brk bs) (hb : b ∈ bs) :
    Clear h.brk (bs.map Block.addr) b.addr := by
  have hbound := (hl.bounds hb).2
  refine Or.inr ⟨by unfold Block.next at hbound; omega, fun a ha => ?_⟩
  obtain ⟨c, hcm, rfl⟩ := List.mem_map.mp ha
  have hd := hl.disjoint hb hcm
  unfold Block.next at hd
  rcases hd with rfl | hd | hd
  all_goals omega

/-- The same head with the same word. -/
theorem HeadOk.congr (hok : HeadOk h bs) (hhead : h'.headFree = h.headFree)
    (hprev : h.headFree ≠ 0 → h'.prevFree h.headFree = h.prevFree h.headFree)
    (hle : h.brk ≤ h'.brk)
    (hbs : ∀ a ∈ bs'.map Block.addr, a ∈ bs.map Block.addr ∨ h.brk ≤ a) : HeadOk h' bs' := by
  intro h0
  rw [hhead] at h0 ⊢
  rw [hprev h0]
  exact (hok h0).mono hle hbs

/-- The head of the free list is a block. -/
theorem Core.exists_head (hc : Core base h bs fl) (h0 : h.headFree ≠ 0) :
    ∃ z ∈ bs, z.addr = h.headFree ∧ h.headFree ∈ fl := by
  have hhead := hc.list.linked.head
  cases fl with
  | nil => exact absurd hhead h0
  | cons q fl =>
    obtain ⟨z, hz, haddr⟩ := hc.nodes q (by simp)
    exact ⟨z, hz, haddr.trans hhead.symm, by rw [hhead]; simp⟩

/-- After `remove_free` the stale word of the head is as clear as before: it is the block that
was removed, or the old word. -/
theorem Core.headOk_removeFree (hc : Core base h bs fl) (hb : b ∈ bs) (hmem : b.addr ∈ fl)
    (hok : HeadOk h bs) : HeadOk (h.removeFree b.addr) bs := by
  rcases hc.list.head_or_inner hmem with ⟨d, rfl, hhd⟩ | ⟨a, y, d, rfl, hhd, hprev, hnext⟩
  · have hnext : h.nextFree b.addr = d.headD 0 := hc.list.linked.next_eq (a := [])
    rw [Heap.removeFree, if_pos hhd.symm, hhd, hnext]
    cases d with
    | nil => exact fun h0 => absurd rfl h0
    | cons z d =>
      intro _
      have hword : h.prevFree z = b.addr := hc.list.linked.prev_eq (a := [])
      have heq : ({ h with headFree := z } : Heap).prevFree z = b.addr := hword
      rw [List.headD_cons, heq]
      exact hc.layout.clear hb
  · have hhead : (h.removeFree b.addr).headFree = h.headFree := by
      rw [Heap.removeFree, if_neg hhd.symm]
      dsimp only
      split_ifs <;> rfl
    have hnext' : h.nextFree b.addr = 0 ∨ h.nextFree b.addr ∈ a ++ y :: b.addr :: d := by
      rw [hnext]
      cases d <;> simp
    refine hok.congr hhead (fun h0 => ?_) (Heap.removeFree_brk ..).ge fun x hx => Or.inl hx
    obtain ⟨z, -, -, hzm⟩ := hc.exists_head h0
    have hlink := Heap.removeFree_inner hc.list hhd hprev (by simp) (by simp) hnext' hzm hhd
    rw [hlink.2, if_neg]
    -- the head comes before the node that was removed
    rw [hnext]
    intro heq
    cases d with
    | nil => exact h0 heq
    | cons z' d =>
      have hhead' := hc.list.linked.head
      have hnodup := hc.list.nodup
      rw [heq, List.headD_cons] at hhead'
      cases a with
      | nil =>
        obtain rfl : z' = y := by simpa using hhead'
        simp at hnodup
      | cons x a =>
        obtain rfl : z' = x := by simpa using hhead'
        simp at hnodup

/-- `insert_free` clears the `prev_free` of the node it puts in front. -/
theorem Heap.prevFree_insertFree {node : Nat} (hap : h.headFree = 0 ∨ Apart h.headFree node) :
    (h.insertFree node).headFree = node ∧ (h.insertFree node).prevFree node = 0 := by
  unfold Heap.insertFree
  split_ifs with h0
  · exact ⟨rfl, Heap.prevFree_setPrevFree_self (by omega)⟩
  · refine ⟨rfl, ?_⟩
    change (((h.setNextFree node h.headFree).setPrevFree node 0).setPrevFree
      h.headFree node).prevFree node = 0
    rw [Heap.prevFree_setPrevFree (hap.resolve_left h0), Heap.prevFree_setPrevFree_self (by omega)]

theorem headOk_insertFree {node : Nat} (hap : h.headFree = 0 ∨ Apart h.headFree node) :
    HeadOk (h.insertFree node) bs := by
  obtain ⟨hhead, hprev⟩ := Heap.prevFree_insertFree hap
  intro _
  rw [hhead, hprev]
  exact Or.inl rfl

/-- Writes that miss the header of the head keep its word. -/
theorem Core.prevFree_head (hc : Core base h bs fl) (h0 : h.headFree ≠ 0)
    (hm : ∀ z ∈ bs, ∀ a, z.addr + 16 ≤ a → a < z.addr + 24 → h'.mem a = h.mem a) :
    h'.prevFree h.headFree = h.prevFree h.headFree := by
  obtain ⟨z, hz, haddr, -⟩ := hc.exists_head h0
  rw [← haddr]
  refine Memory.load_congr fun a h₁ h₂ => hm z hz a h₁ (by omega)

/-- The flag of a block is in no link word. -/
theorem Layout.setIsFree_links (hl : Layout h.mem base h.brk bs) (hb : b ∈ bs) {v : Nat} :
    ∀ z ∈ bs, ∀ a, z.addr + 16 ≤ a → a < z.addr + 24 → (h.setIsFree b.addr v).mem a = h.mem a := by
  intro z hz a h₁ h₂
  refine Memory.store_of_not_mem fun hba => ?_
  have hd := hl.disjoint hb hz
  unfold Block.next at hd
  rcases hd with rfl | hd | hd
  all_goals omega

/-- The size of a block and the tag of a block are in no link word. -/
theorem Layout.updateNodeSize_links (hl : Layout h.mem base h.brk bs) (hp : p ∈ bs) (hn : n ∈ bs)
    {v : Nat} : ∀ z ∈ bs, ∀ a, z.addr + 16 ≤ a → a < z.addr + 24 →
      (h.updateNodeSize p.addr n.tag v).mem a = h.mem a := by
  intro z hz a h₁ h₂
  have hdp := hl.disjoint hp hz
  have hdn := hl.disjoint hn hz
  simp only [Block.next] at hdp hdn
  have hnt : ¬ (n.tag ≤ a ∧ a < n.tag + 8) := by
    unfold Block.tag
    rcases hdn with rfl | hd | hd
    all_goals omega
  have hps : ¬ (p.addr ≤ a ∧ a < p.addr + 8) := by
    rcases hdp with rfl | hd | hd
    all_goals omega
  simp only [Heap.updateNodeSize, Heap.setBtag, Heap.setSize, Heap.withMem_mem]
  rw [Memory.store_of_not_mem hnt, Memory.store_of_not_mem hps]

/-! ## Every action keeps it -/

/-- Moving `tail_mem` changes neither the head nor its word. -/
theorem HeadOk.moveTail (hok : HeadOk h bs) {x t : Nat}
    (hh' : h' = if x = 0 then { h with tailMem := t } else h) : HeadOk h' bs := by
  rw [hh']
  split_ifs
  · exact hok
  · exact hok

/-- A merge writes a size and a tag. -/
theorem Core.headOk_updateNodeSize (hc : Core base h bs fl) (hp : p ∈ bs) (hn : n ∈ bs)
    (hok : HeadOk h bs) {v : Nat} (haddr : ∀ a ∈ bs'.map Block.addr, a ∈ bs.map Block.addr) :
    HeadOk (h.updateNodeSize p.addr (h.getNodeBtag n.addr) v) bs' := by
  rw [hc.getNodeBtag_eq hn]
  refine hok.congr rfl (fun h0 => ?_) (Heap.updateNodeSize_brk ..).ge fun a ha => Or.inl (haddr a ha)
  exact hc.prevFree_head h0 (hc.layout.updateNodeSize_links hp hn)

/-- The blocks after `free` begin where blocks began before. -/
theorem Freed.addr_mem {found : Prop} (hf : Freed found b bs bs') :
    ∀ a ∈ bs'.map Block.addr, a ∈ bs.map Block.addr := by
  intro a ha
  cases hf with
  | three | before | after | alone =>
    simp only [List.map_append, List.map_cons, List.map_nil, List.mem_append, List.mem_cons,
      List.not_mem_nil, or_false] at ha ⊢
    tauto

/-- A node in front of the list is apart from the old head. -/
theorem Core.apart_head (hc : Core base h bs fl) (hb : b ∈ bs) (hnew : b.addr ∉ fl) :
    h.headFree = 0 ∨ Apart h.headFree b.addr := by
  rcases eq_or_ne h.headFree 0 with h0 | h0
  · exact Or.inl h0
  · obtain ⟨z, hz, haddr, hzm⟩ := hc.exists_head h0
    rw [← haddr] at hzm ⊢
    exact Or.inr (hc.layout.apart hz hb fun heq => hnew (heq ▸ hzm))

theorem Rep.headClear_free (hr : Rep base h bs fl) (hb : b ∈ bs) (hf : b.free = false)
    (hclear : HeadClear base h) : HeadClear base (h.free b.data) := by
  have hok := hr.headClear_iff.mp hclear
  obtain ⟨bs', fl', hr', hfreed, -⟩ := hr.free hb hf
  have haddr := hfreed.addr_mem
  have hnew := hr.not_mem_list hb hf
  rw [hr'.headClear_iff]
  have hout := hr.free_outcome hb hf
  clear hr' hfreed
  generalize h.free b.data = h' at hout ⊢
  cases hout with
  | @three l r p n hp hn hfound =>
    have hmem := hr.mem_list (by simp) hn
    have hc₁ := hr.toCore.removeFree hmem
    have hok₁ := hr.toCore.headOk_removeFree (by simp) hmem hok
    obtain ⟨h₂, hh₂⟩ : ∃ h₂, h₂ = if (h.removeFree n.addr).getNextMem n.addr = 0 then
        { h.removeFree n.addr with tailMem := p.addr } else h.removeFree n.addr := ⟨_, rfl⟩
    obtain ⟨hc₂, -⟩ := Rep.moveTail (l := l ++ [p, b]) (r := r) (by simpa using hc₁) (by simp) hh₂
    have hc₂' : Core base h₂ (l ++ [p, b, n] ++ r) (fl.erase n.addr) := by simpa using hc₂
    have heq : h.coalesceThreeBlocks b.addr p.addr n.addr =
        h₂.updateNodeSize p.addr (h₂.getNodeBtag n.addr)
          (wadd (wadd (2 * metaBtagSize) (h₂.size b.addr)) (h₂.size n.addr)) := by
      rw [hh₂]
      rfl
    rw [heq]
    exact hc₂'.headOk_updateNodeSize (by simp) (by simp) (hok₁.moveTail hh₂) haddr
  | @before l r p hp hafter =>
    obtain ⟨h₂, hh₂⟩ : ∃ h₂, h₂ = if h.getNextMem b.addr = 0 then { h with tailMem := p.addr }
        else h := ⟨_, rfl⟩
    obtain ⟨hc₂, -⟩ := Rep.moveTail (l := l ++ [p]) (r := r) (by simpa using hr.toCore) (by simp) hh₂
    have hc₂' : Core base h₂ (l ++ [p, b] ++ r) fl := by simpa using hc₂
    have heq : h.coalesceTwoBlocksBefore b.addr p.addr (h.getNextMem b.addr) =
        h₂.updateNodeSize p.addr (h₂.getNodeBtag b.addr) (wadd metaBtagSize (h₂.size b.addr)) := by
      rw [hh₂]
      rfl
    rw [heq]
    exact hc₂'.headOk_updateNodeSize (by simp) (by simp) (hok.moveTail hh₂) haddr
  | @after l r n hl hn hfound =>
    have hc₁ := hr.toCore.removeFree (hr.mem_list (by simp) hn)
    have hap := hc₁.apart_head hb fun hmem => hnew (List.mem_of_mem_erase hmem)
    -- only `remove_free` has changed the head before the insertion
    obtain ⟨h₃, hh₃, heq⟩ : ∃ h₃ : Heap, h₃.headFree = (h.removeFree n.addr).headFree ∧
        h.coalesceTwoBlocksAfter b.addr n.addr = h₃.insertFree b.addr := by
      refine ⟨_, ?_, rfl⟩
      dsimp only [Heap.updateNodeSize, Heap.setBtag, Heap.setSize, Heap.setIsFree, Heap.withMem]
      split_ifs <;> rfl
    rw [heq]
    exact headOk_insertFree (hh₃ ▸ hap)
  | alone l r hl hafter => exact headOk_insertFree (hr.toCore.apart_head hb hnew)

/-- Writes to the data of a block miss the links. -/
theorem Rep.headClear_withMem (hr : Rep base h bs fl) (hb : b ∈ bs) {m : Memory}
    (hm : ∀ a, ¬ (b.data ≤ a ∧ a < b.tag) → m a = h.mem a) (hclear : HeadClear base h) :
    HeadClear base (h.withMem m) := by
  rw [(hr.withMem hb hm).headClear_iff]
  refine (hr.headClear_iff.mp hclear).congr rfl (fun h0 => ?_) le_rfl fun a ha => Or.inl ha
  refine hr.toCore.prevFree_head h0 fun z hz a h₁ h₂ => hm a fun hba => ?_
  refine hr.layout.not_metaByte hb hba.1 hba.2 ⟨z, hz, Or.inl ⟨by omega, ?_⟩⟩
  unfold Block.data
  omega

/-- A last block from the kernel begins at the break. -/
theorem Rep.headClear_allocNew (hr : Rep base h bs fl) {grant : Bool} (hsz : size < 2 ^ 63)
    (hclear : HeadClear base h) : HeadClear base (h.allocNew grant size).2 := by
  by_cases hg : grant = true ∧ 40 + size < 2 ^ 63 ∧ h.brk + (40 + size) < 2 ^ 63
  · obtain ⟨hr', hmem⟩ := hr.allocNew_granted hg
    rw [hr'.headClear_iff]
    have heq := Heap.allocNew_eq hg.2.2 hg.1 hg.2.1
    refine (hr.headClear_iff.mp hclear).congr (by rw [heq]) (fun h0 => ?_) ?_ ?_
    · refine hr.toCore.prevFree_head h0 fun z hz a _ h₂ => hmem a ?_
      have hbound := (hr.layout.bounds hz).2
      unfold Block.next at hbound
      omega
    · rw [heq]
      exact Nat.le_add_right _ _
    · intro a ha
      simp only [List.map_append, List.map_cons, List.map_nil, List.mem_append,
        List.mem_singleton] at ha
      exact ha.imp_right fun heq => heq.ge
  · rw [hr.allocNew_refused hsz hg]
    exact hclear

/-- A free block that is cut: its rest is the new head, with no word. -/
theorem Rep.headClear_split (hr : Rep base h (l ++ [b] ++ r) fl) (hb : b.free = true)
    (hsz : size + 40 ≤ b.size) : HeadClear base
      (((h.removeFree b.addr).allocFreeSplit size b.addr).setIsFree b.addr 0) := by
  have hbm : b ∈ l ++ [b] ++ r := by simp
  obtain ⟨-, bs', fl', hr', -⟩ := hr.allocFree_split hb hsz
  rw [hr'.headClear_iff]
  have hc₁ := hr.toCore.removeFree (hr.mem_list hbm hb)
  have hnodup := hr.list.nodup
  obtain ⟨h₁, hh₁⟩ : ∃ h₁, h₁ = h.removeFree b.addr := ⟨_, rfl⟩
  rw [← hh₁] at hc₁ ⊢
  have hsize := hc₁.size_eq hbm
  have hlt := hc₁.next_lt hbm
  simp only [Block.next] at hlt
  -- the rest lies in the old block, away from the head
  have hap : h₁.headFree = 0 ∨ Apart h₁.headFree (b.addr + 40 + size) := by
    rcases eq_or_ne h₁.headFree 0 with h0 | h0
    · exact Or.inl h0
    · obtain ⟨z, hz, haddr, hzm⟩ := hc₁.exists_head h0
      have hne : z ≠ b := by
        rintro rfl
        exact (hnodup.mem_erase_iff.mp (haddr ▸ hzm)).1 rfl
      have hd := (hr.layout.disjoint hz hbm).resolve_left hne
      rw [← haddr]
      unfold Apart
      unfold Block.next at hd
      right
      rcases hd with hd | hd
      all_goals omega
  rw [Heap.allocFreeSplit_eq (by omega) (by omega)]
  have hap₂ : (h₁.cut b.addr size (h₁.size b.addr - (40 + size))).headFree = 0 ∨
      Apart (h₁.cut b.addr size (h₁.size b.addr - (40 + size))).headFree (b.addr + 40 + size) := hap
  obtain ⟨hhead, hprev⟩ := Heap.prevFree_insertFree hap₂
  intro _
  left
  refine Eq.trans ?_ hprev
  rw [Heap.setIsFree, Heap.withMem_headFree, hhead]
  exact Memory.load_store_of_disjoint (by omega)

/-- A request keeps the word of the head clear. -/
theorem Rep.headClear_malloc (hr : Rep base h bs fl) (hsz : size < 2 ^ 63) {grant : Bool}
    (heq : h.malloc grant size = some (q, h')) (hclear : HeadClear base h) :
    HeadClear base h' := by
  rcases Nat.eq_zero_or_pos size with rfl | h0
  · obtain ⟨-, rfl⟩ := Prod.mk.inj (Option.some.inj heq)
    exact hclear
  obtain ⟨result, heq', hreq⟩ := hr.malloc_request h0 hsz grant
  obtain rfl := Option.some.inj (heq.symm.trans heq')
  generalize hres : (q, h') = result at hreq
  cases hreq with
  | kernel bs =>
    have hh' : h' = (h.allocNew grant size).2 := congrArg Prod.snd hres
    rw [hh']
    exact hr.headClear_allocNew hsz hclear
  | split l r hb hfit =>
    obtain ⟨-, rfl⟩ := Prod.mk.inj hres
    exact hr.headClear_split hb hfit
  | @whole l r b hb hfit =>
    obtain ⟨-, rfl⟩ := Prod.mk.inj hres
    have hbm : b ∈ l ++ [b] ++ r := by simp
    have hmem := hr.mem_list hbm hb
    have hc₁ := hr.toCore.removeFree hmem
    have hok₁ := hr.toCore.headOk_removeFree hbm hmem (hr.headClear_iff.mp hclear)
    rw [(hr.rep_whole hb).headClear_iff]
    refine hok₁.congr rfl (fun h0 => ?_) le_rfl fun a ha => Or.inl (by simpa using ha)
    exact hc₁.prevFree_head h0 (hc₁.layout.setIsFree_links hbm)

/-- A cleared request keeps it. -/
theorem Rep.headClear_calloc (hr : Rep base h bs fl) {num : Nat} (hsz : num * size < 2 ^ 63)
    {grant : Bool} (heq : h.calloc grant num size = some (q, h')) (hclear : HeadClear base h) :
    HeadClear base h' := by
  have hmod : num * size % 2 ^ 64 = num * size := Nat.mod_eq_of_lt (by omega)
  obtain ⟨ptr, h₁, heq₁, hcase⟩ := hr.malloc hsz grant
  have hclear₁ := hr.headClear_malloc hsz heq₁ hclear
  rw [Heap.calloc, hmod, heq₁, Option.map_some] at heq
  dsimp only at heq
  rcases hcase with ⟨rfl, -⟩ | ⟨hpos, ⟨b, bs₁, fl₁, hr₁, hbm, -, rfl, hle, -⟩, -⟩
  · obtain ⟨-, rfl⟩ : 0 = q ∧ h₁ = h' := by simpa using heq
    exact hclear₁
  · rw [if_neg (by omega)] at heq
    obtain ⟨-, rfl⟩ := Prod.mk.inj (Option.some.inj heq)
    exact hr₁.headClear_withMem hbm (Rep.fill_data hle) hclear₁

/-- `realloc` keeps it: nothing moves, or the old block is freed in the heap with the copy. -/
theorem Rep.headClear_realloc (hr : Rep base h bs fl) (hbm : b ∈ bs) (hb : b.free = false)
    (hsz : size < 2 ^ 63) {grant : Bool} (heq : h.realloc grant b.data size = some (q, h'))
    (hclear : HeadClear base h) : HeadClear base h' := by
  have hdata : b.data ≠ 0 := by
    unfold Block.data
    omega
  rw [Heap.realloc, if_neg hdata] at heq
  rcases Nat.eq_zero_or_pos size with rfl | hpos
  · rw [if_pos rfl] at heq
    obtain ⟨-, rfl⟩ := Prod.mk.inj (Option.some.inj heq)
    exact hr.headClear_free hbm hb hclear
  rw [if_neg hpos.ne', wsub_data hr.toCore hbm] at heq
  dsimp only at heq
  by_cases hfit : size ≤ h.size b.addr
  · rw [if_pos hfit] at heq
    obtain ⟨-, rfl⟩ := Prod.mk.inj (Option.some.inj heq)
    exact hclear
  rw [if_neg hfit] at heq
  obtain ⟨ptr, h₁, heq₁, hcase⟩ := hr.malloc hsz grant
  have hclear₁ := hr.headClear_malloc hsz heq₁ hclear
  rw [heq₁, Option.map_some] at heq
  dsimp only at heq
  rcases hcase with ⟨rfl, -⟩ | ⟨hq, ⟨c, bs₁, fl₁, hr₁, hcm, hcf, rfl, hle, hkeep⟩, -⟩
  · obtain ⟨-, rfl⟩ : 0 = q ∧ h₁ = h' := by simpa using heq
    exact hclear₁
  · rw [if_pos hq.ne'] at heq
    obtain ⟨-, rfl⟩ := Prod.mk.inj (Option.some.inj heq)
    obtain ⟨hbm₁, -, -⟩ := hkeep b hbm hb
    have hle' : h₁.size b.addr ≤ c.size := by
      rw [hr.size_eq hbm] at hfit
      rw [hr₁.size_eq hbm₁]
      omega
    have hcopy : ∀ a, ¬ (c.data ≤ a ∧ a < c.tag) →
        h₁.mem.copy c.data b.data (h₁.size b.addr) a = h₁.mem a := copy_data hle'
    exact (hr₁.withMem hcm hcopy).headClear_free hbm₁ hb (hr₁.headClear_withMem hcm hcopy hclear₁)

/-- **Every action** that makes no wrapped request keeps the word of the head clear. -/
theorem Good.headClear_anyStep {w w' : World} {i : Action} (hg : Good base w)
    (hclear : HeadClear base w.heap) (hu : Unwrapped w i) (hs : Malloc.anyStep w i = some w') :
    HeadClear base w'.heap := by
  have hblock : ∀ {ptr}, ptr ∈ w.live.map Prod.fst →
      ∃ bs fl b, Rep base w.heap bs fl ∧ b ∈ bs ∧ b.free = false ∧ b.data = ptr := by
    obtain ⟨bs, fl, hr, hcov⟩ := hg
    intro ptr hmem
    obtain ⟨e, he, rfl⟩ := List.mem_map.mp hmem
    obtain ⟨b, hbm, hb, hd, -⟩ := hcov.block e he
    exact ⟨bs, fl, b, hr, hbm, hb, hd⟩
  obtain ⟨bs, fl, hr, hcov⟩ := id hg
  cases i with
  | write a v =>
    rw [Malloc.anyStep, Malloc.step] at hs
    split_ifs at hs with ha
    obtain rfl := Option.some.inj hs
    obtain ⟨e, he, h₁, h₂⟩ := ha
    obtain ⟨b, hbm, -, hd, hle⟩ := hcov.block e he
    have hin := mem_data hd hle h₁ h₂
    refine hr.headClear_withMem hbm (fun x hx => Memory.store_of_not_mem ?_) hclear
    omega
  | call c =>
    rw [Malloc.anyStep] at hs
    split_ifs at hs with hperm
    obtain ⟨⟨ptr, w₁⟩, hperf, rfl⟩ := Option.map_eq_some_iff.mp hs
    by_cases hsmall : 40 + c.asked < 2 ^ 63
    · have hc := World.allowed_of_asked hperm.2 hsmall
      cases c with
      | malloc grant size =>
        obtain ⟨⟨q₁, h₁⟩, heq, hf⟩ := Option.map_eq_some_iff.mp hperf
        obtain ⟨-, rfl⟩ := Prod.mk.inj hf
        exact hr.headClear_malloc hc heq hclear
      | calloc grant num size =>
        obtain ⟨⟨q₁, h₁⟩, heq, hf⟩ := Option.map_eq_some_iff.mp hperf
        obtain ⟨-, rfl⟩ := Prod.mk.inj hf
        exact hr.headClear_calloc hc heq hclear
      | realloc grant ptr size =>
        have heq := perform_realloc hperf
        rcases hc.2 with rfl | hmem
        · rw [Heap.realloc, if_pos rfl] at heq
          exact hr.headClear_malloc hc.1 heq hclear
        · obtain ⟨bs₁, fl₁, b, hr₁, hbm, hb, rfl⟩ := hblock hmem
          exact hr₁.headClear_realloc hbm hb hc.1 heq hclear
      | free ptr =>
        obtain ⟨-, rfl⟩ := Prod.mk.inj (Option.some.inj hperf)
        rcases hc with rfl | hmem
        · exact hclear
        · obtain ⟨bs₁, fl₁, b, hr₁, hbm, hb, rfl⟩ := hblock hmem
          exact hr₁.headClear_free hbm hb hclear
    · -- the request was turned down: nothing has changed
      have hsame := hg.perform_of_refuses hperm.1 hperm.2 (by omega) (hu.resolve_left hsmall)
      obtain ⟨-, rfl⟩ := Prod.mk.inj (Option.some.inj (hperf.symm.trans hsame))
      exact hclear

/-! ## The second call -/

/-- The block just below the one of `ptr` is not free, or there is none. -/
def PrevTaken (h : Heap) (ptr : Nat) : Prop :=
  let prev := h.getPrevMem (wsub ptr nodeSize)
  prev = 0 ∨ h.isFree prev = 0

instance (h : Heap) (ptr : Nat) : Decidable (PrevTaken h ptr) :=
  inferInstanceAs (Decidable (_ ∨ _))

/-- `remove_free` of a node that is not the head writes three nodes: the ones its links name,
and itself. -/
theorem Heap.size_removeFree {node a : Nat} (hhead : node ≠ h.headFree)
    (hprev : h.prevFree node = 0 ∨ a + 8 ≤ h.prevFree node + 24 ∨ h.prevFree node + 32 ≤ a)
    (hnext : h.nextFree node = 0 ∨ a + 8 ≤ h.nextFree node + 16 ∨ h.nextFree node + 24 ≤ a)
    (hnode : a + 8 ≤ node + 16 ∨ node + 32 ≤ a) : (h.removeFree node).size a = h.size a := by
  rw [Heap.removeFree, if_neg hhead]
  dsimp only
  split_ifs with h₁ h₂ h₂
  all_goals
    simp only [Heap.size, Heap.setNextFree, Heap.setPrevFree, Heap.withMem_mem]
    repeat rw [Memory.load_store_of_disjoint (by omega)]

/-- A merge into the block `p` grows its size by what is merged. -/
theorem Heap.size_updateNodeSize {t v : Nat} {a : Nat} (ht : a + 8 ≤ t ∨ t + 8 ≤ a) :
    (h.updateNodeSize a t v).size a = wadd (h.size a) v := by
  simp only [Heap.updateNodeSize, Heap.setBtag, Heap.setSize, Heap.size, Heap.withMem_mem]
  rw [Memory.load_store_of_disjoint (by omega)]
  exact Memory.load_store_of_lt _ _ (Nat.mod_lt _ (by norm_num))

/-- Adding something changes a word. -/
theorem wadd_ne {x v : Nat} (_ : x < 2 ^ 64) (_ : 0 < v) (_ : v < 2 ^ 64) : wadd x v ≠ x := by
  unfold wadd
  omega

/-- What the second call finds in the middle of the merged block: the header and the flag that
the first call left there, and the free block below. -/
structure Remains (h : Heap) (p b : Block) : Prop where
  prev : h.getPrevMem b.addr = p.addr
  start : h.startMem ≤ p.addr
  size : h.size b.addr = b.size
  taken : h.isFree b.addr = 0
  free : h.isFree p.addr = 1
  pos : 0 < p.addr
  next : b.addr = p.next
  lt : b.next < 2 ^ 64

/-- The second call finds no free block above: the lower block grows once more. -/
theorem Remains.free_ne_of_not_found (hm : Remains h p b)
    (hn : ¬ (h.getNextMem b.addr ≠ 0 ∧ h.getNextMem b.addr ≤ h.tailMem ∧
      h.isFree (h.getNextMem b.addr) ≠ 0)) : h.free b.data ≠ h := by
  have hlt := hm.lt
  have hnext := hm.next
  have hpos := hm.pos
  simp only [Block.next] at hlt hnext
  have hdata : wsub b.data nodeSize = b.addr := by
    unfold Block.data nodeSize
    rw [wsub_of_le (by omega) (by omega)]
    omega
  have hfree : h.free b.data = h.coalesceTwoBlocksBefore b.addr p.addr (h.getNextMem b.addr) := by
    have hvp : p.addr ≠ 0 ∧ p.addr ≥ h.startMem ∧ h.isFree p.addr ≠ 0 :=
      ⟨by omega, hm.start, by rw [hm.free]; exact one_ne_zero⟩
    rw [Heap.free, if_neg (by unfold Block.data; omega), hdata, if_neg (not_not_intro hm.taken)]
    dsimp only
    rw [hm.prev, if_neg fun hboth => hn hboth.2, if_pos hvp]
  intro heq
  rw [hfree] at heq
  obtain ⟨h₂, hh₂⟩ : ∃ h₂, h₂ = if h.getNextMem b.addr = 0 then { h with tailMem := p.addr }
      else h := ⟨_, rfl⟩
  have hsize : ∀ a, h₂.size a = h.size a := by
    intro a
    rw [hh₂]
    split_ifs <;> rfl
  have hgrow : h.coalesceTwoBlocksBefore b.addr p.addr (h.getNextMem b.addr) =
      h₂.updateNodeSize p.addr (h₂.getNodeBtag b.addr) (wadd metaBtagSize (h₂.size b.addr)) := by
    rw [hh₂]
    rfl
  have htag : h₂.getNodeBtag b.addr = b.tag := by
    unfold Heap.getNodeBtag nodeSize Block.tag
    rw [hsize, hm.size, wadd_of_lt (by omega)]
    omega
  have hsum : wadd metaBtagSize (h₂.size b.addr) = 40 + b.size := by
    rw [hsize, hm.size, show metaBtagSize = 40 from rfl, wadd_of_lt (by omega)]
  have hfinal := congrArg (fun g => Heap.size g p.addr) heq
  rw [hgrow, htag, hsum, Heap.size_updateNodeSize (by unfold Block.tag; omega), hsize] at hfinal
  exact wadd_ne (Memory.load_lt _ _ 8) (by omega) (by omega) hfinal

/-- The second call finds the merged block above: the lower block grows once more, unless a
stale link of that block leads to one of the three sizes. -/
theorem Remains.free_ne_of_found (hm : Remains h p b) (hnlt : n.next < 2 ^ 64)
    (hbn : n.addr = b.next) (hfound : h.getNextMem b.addr = n.addr) (htail : n.addr ≤ h.tailMem)
    (hfree : h.isFree n.addr = 1) (hsize : h.size n.addr = n.size) (hhead : n.addr ≠ h.headFree)
    (hprev : ∀ c ∈ [p, b, n], h.prevFree n.addr = 0 ∨ c.addr + 8 ≤ h.prevFree n.addr + 24 ∨
      h.prevFree n.addr + 32 ≤ c.addr)
    (hlink : ∀ c ∈ [p, b, n], h.nextFree n.addr = 0 ∨ c.addr + 8 ≤ h.nextFree n.addr + 16 ∨
      h.nextFree n.addr + 24 ≤ c.addr) : h.free b.data ≠ h := by
  have hlt := hm.lt
  have hnext := hm.next
  have hpos := hm.pos
  simp only [Block.next] at hlt hnext hnlt hbn
  have hdata : wsub b.data nodeSize = b.addr := by
    unfold Block.data nodeSize
    rw [wsub_of_le (by omega) (by omega)]
    omega
  have hthree : h.free b.data = h.coalesceThreeBlocks b.addr p.addr n.addr := by
    have hvp : p.addr ≠ 0 ∧ p.addr ≥ h.startMem ∧ h.isFree p.addr ≠ 0 :=
      ⟨by omega, hm.start, by rw [hm.free]; exact one_ne_zero⟩
    have hvn : n.addr ≠ 0 ∧ n.addr ≤ h.tailMem ∧ h.isFree n.addr ≠ 0 :=
      ⟨by omega, htail, by rw [hfree]; exact one_ne_zero⟩
    rw [Heap.free, if_neg (by unfold Block.data; omega), hdata, if_neg (not_not_intro hm.taken)]
    dsimp only
    rw [hm.prev, hfound, if_pos ⟨hvp, hvn⟩]
  intro heq
  rw [hthree] at heq
  have hkeep : ∀ c ∈ [p, b, n], (h.removeFree n.addr).size c.addr = h.size c.addr := by
    intro c hc
    refine Heap.size_removeFree hhead (hprev c hc) (hlink c hc) ?_
    simp only [List.mem_cons, List.not_mem_nil, or_false] at hc
    rcases hc with rfl | rfl | rfl
    all_goals omega
  obtain ⟨h₂, hh₂⟩ : ∃ h₂, h₂ = if (h.removeFree n.addr).getNextMem n.addr = 0 then
      { h.removeFree n.addr with tailMem := p.addr } else h.removeFree n.addr := ⟨_, rfl⟩
  have hsize₂ : ∀ a, h₂.size a = (h.removeFree n.addr).size a := by
    intro a
    rw [hh₂]
    split_ifs <;> rfl
  have hgrow : h.coalesceThreeBlocks b.addr p.addr n.addr =
      h₂.updateNodeSize p.addr (h₂.getNodeBtag n.addr)
        (wadd (wadd (2 * metaBtagSize) (h₂.size b.addr)) (h₂.size n.addr)) := by
    rw [hh₂]
    rfl
  have htag : h₂.getNodeBtag n.addr = n.tag := by
    unfold Heap.getNodeBtag nodeSize Block.tag
    rw [hsize₂, hkeep n (by simp), hsize, wadd_of_lt (by omega)]
    omega
  have hsum : wadd (wadd (2 * metaBtagSize) (h₂.size b.addr)) (h₂.size n.addr) =
      80 + b.size + n.size := by
    rw [hsize₂, hsize₂, hkeep b (by simp), hkeep n (by simp), hm.size, hsize,
      show 2 * metaBtagSize = 80 from rfl, wadd_of_lt (p := 80) (by omega), wadd_of_lt (by omega)]
  have hfinal := congrArg (fun g => Heap.size g p.addr) heq
  rw [hgrow, htag, hsum, Heap.size_updateNodeSize (by unfold Block.tag; omega), hsize₂,
    hkeep p (by simp)] at hfinal
  exact wadd_ne (Memory.load_lt _ _ 8) (by omega) (by omega) hfinal

/-- A new size is written to one header and one tag. -/
theorem Heap.load_updateNodeSize {x k t v : Nat} (h₁ : p.addr + 8 ≤ x)
    (h₂ : x + k ≤ t ∨ t + 8 ≤ x) :
    (h.updateNodeSize p.addr t v).mem.load x k = h.mem.load x k := by
  simp only [Heap.updateNodeSize, Heap.setBtag, Heap.setSize, Heap.withMem_mem]
  rw [Memory.load_store_of_disjoint (by omega), Memory.load_store_of_disjoint (by omega)]

/-- The second call looks where the header left behind leads it. -/
theorem Remains.getNextMem_eq (hm : Remains h p b) :
    h.getNextMem b.addr = if h.tailMem < b.next then 0 else b.next := by
  have hlt := hm.lt
  unfold Block.next at *
  rw [Heap.getNextMem, hm.size, show metaBtagSize = 40 from rfl, wadd_of_lt (by omega)]
  simp only [gt_iff_lt, Nat.add_assoc]

/-- A merge into the block `p` leaves the header of `b` behind. -/
theorem Core.remains (hc : Core base h (l ++ p :: b :: r) fl) (hp : p.free = true)
    (hb : b.free = false) {t v : Nat} (ht : b.tag ≤ t) :
    Remains (h.updateNodeSize p.addr t v) p b := by
  have hpm : p ∈ l ++ p :: b :: r := by simp
  have hbm : b ∈ l ++ p :: b :: r := by simp
  have hlt := hc.next_lt hbm
  have hnext : b.addr = p.next := by
    obtain ⟨m, -, hm⟩ := tiles_append.mp hc.layout.tiles
    exact hm.2.1
  have hload : ∀ x k, p.addr + 8 ≤ x → x + k ≤ b.tag →
      (h.updateNodeSize p.addr t v).mem.load x k = h.mem.load x k := fun x k h₁ h₂ =>
    Heap.load_updateNodeSize h₁ (Or.inl (h₂.trans ht))
  unfold Block.tag at hload
  unfold Block.next at hnext hlt
  refine ⟨?_, ?_, ?_, ?_, ?_, hc.addr_pos hpm, hnext, hlt⟩
  · refine Eq.trans ?_ hc.getPrevMem_eq
    have hbelow : wsub b.addr btagSize = b.addr - 8 := wsub_of_le (by unfold btagSize; omega) (by omega)
    have htag : (h.updateNodeSize p.addr t v).btagAt (b.addr - 8) = h.btagAt (b.addr - 8) :=
      hload _ _ (by omega) (by omega)
    rw [Heap.getPrevMem, Heap.getPrevMem, hbelow, htag]
    rfl
  · change h.startMem ≤ p.addr
    rw [hc.startMem_eq hpm]
    exact (hc.layout.bounds hpm).1
  · rw [← hc.size_eq hbm]
    exact hload _ _ (by omega) (by omega)
  · rw [show (0 : Nat) = b.free.toNat from by rw [hb]; rfl, ← hc.isFree_eq hbm]
    exact hload _ _ (by omega) (by omega)
  · rw [show (1 : Nat) = p.free.toNat from by rw [hp]; rfl, ← hc.isFree_eq hpm]
    exact hload _ _ (by omega) (by omega)

/-- **A block merged with the one below** is merged once more by a second call. -/
theorem Rep.free_free_before (hr : Rep base h (l ++ [p, b] ++ r) fl) (hp : p.free = true)
    (hb : b.free = false) (hafter : ∀ n ∈ r.head?, n.free = true → ¬ h.getNextMem b.addr ≠ 0) :
    (h.coalesceTwoBlocksBefore b.addr p.addr (h.getNextMem b.addr)).free b.data ≠
      h.coalesceTwoBlocksBefore b.addr p.addr (h.getNextMem b.addr) := by
  obtain ⟨h₂, hh₂⟩ : ∃ h₂, h₂ = if h.getNextMem b.addr = 0 then { h with tailMem := p.addr }
      else h := ⟨_, rfl⟩
  obtain ⟨hc₂, -⟩ := Rep.moveTail (l := l ++ [p]) (r := r) (by simpa using hr.toCore) (by simp) hh₂
  have hc₂' : Core base h₂ (l ++ p :: b :: r) fl := by simpa using hc₂
  have hc : Core base h (l ++ [p] ++ b :: r) fl := by simpa using hr.toCore
  have hbm : b ∈ l ++ p :: b :: r := by simp
  have heq : h.coalesceTwoBlocksBefore b.addr p.addr (h.getNextMem b.addr) =
      h₂.updateNodeSize p.addr b.tag (wadd metaBtagSize (h₂.size b.addr)) := by
    rw [← hc₂'.getNodeBtag_eq hbm, hh₂]
    rfl
  rw [heq]
  have hm := hc₂'.remains hp hb (v := wadd metaBtagSize (h₂.size b.addr)) le_rfl
  refine hm.free_ne_of_not_found fun hfound => ?_
  -- the second call looks where the first one looked
  have htail : (h₂.updateNodeSize p.addr b.tag (wadd metaBtagSize (h₂.size b.addr))).tailMem =
      h₂.tailMem := rfl
  obtain ⟨hn0, hle, hflag⟩ := hfound
  rw [hm.getNextMem_eq, htail] at hn0 hle hflag
  by_cases h0 : h.getNextMem b.addr = 0
  · rw [if_pos h0] at hh₂
    have hp_lt : p.addr < b.next := by
      have := hm.next
      unfold Block.next at *
      omega
    rw [hh₂, if_pos hp_lt] at hn0
    exact hn0 rfl
  · rw [if_neg h0] at hh₂
    obtain ⟨n, r', rfl, hna, -⟩ := hc.exists_of_getNextMem h0
    have hnm : n ∈ l ++ p :: b :: n :: r' := by simp
    have hnb : n.addr = b.next := by
      obtain ⟨m, -, hm'⟩ := tiles_append.mp hc₂'.layout.tiles
      exact hm'.2.2.1
    have hnf : n.free = false := by
      by_contra hf
      exact hafter n (by simp) (by simpa using hf) h0
    split_ifs at hn0 hflag with hlt
    · exact hn0 rfl
    · apply hflag
      rw [← hnb]
      have hload : (h₂.updateNodeSize p.addr b.tag (wadd metaBtagSize (h₂.size b.addr))).isFree
          n.addr = h₂.isFree n.addr := by
        have hnext := hm.next
        unfold Block.next at *
        exact Heap.load_updateNodeSize (by omega) (by unfold Block.tag; omega)
      rw [hload, hc₂'.isFree_eq hnm, hnf]
      rfl

/-- The links that a removed node keeps: none, or those of a head of the list, whose word is
clear of all headers. -/
theorem Core.links_removed (hc : Core base h bs fl) (hn : n ∈ bs) (hmem : n.addr ∈ fl)
    (hok : HeadOk h bs) (hcm : c ∈ bs) :
    ((h.removeFree n.addr).prevFree n.addr = 0 ∨
      c.addr + 8 ≤ (h.removeFree n.addr).prevFree n.addr + 24 ∨
      (h.removeFree n.addr).prevFree n.addr + 32 ≤ c.addr) ∧
    ((h.removeFree n.addr).nextFree n.addr = 0 ∨
      c.addr + 8 ≤ (h.removeFree n.addr).nextFree n.addr + 16 ∨
      (h.removeFree n.addr).nextFree n.addr + 24 ≤ c.addr) := by
  rcases hc.list.head_or_inner hmem with ⟨d, rfl, hhd⟩ | ⟨a, y, d, rfl, hhd, -, -⟩
  · have hpos := hc.addr_pos hn
    have hnext : h.nextFree n.addr = d.headD 0 := hc.list.linked.next_eq (a := [])
    have hclear := hok (by omega)
    rw [hhd] at hclear
    have hmem₁ : (h.removeFree n.addr).mem = h.mem := by rw [Heap.removeFree, if_pos hhd.symm]
    have hprev₁ : (h.removeFree n.addr).prevFree n.addr = h.prevFree n.addr := by
      rw [Heap.prevFree, hmem₁, Heap.prevFree]
    have hnext₁ : (h.removeFree n.addr).nextFree n.addr = d.headD 0 := by
      rw [Heap.nextFree, hmem₁, ← hnext, Heap.nextFree]
    rw [hprev₁, hnext₁]
    constructor
    · refine hclear.imp_right ?_
      rintro ⟨-, hout⟩
      have := hout c.addr (List.mem_map_of_mem hcm)
      omega
    · cases d with
      | nil => exact Or.inl rfl
      | cons z d =>
        obtain ⟨e, hem, rfl⟩ := hc.nodes z (by simp)
        right
        rw [List.headD_cons]
        have hd := hc.layout.disjoint hcm hem
        unfold Block.next at hd
        rcases hd with rfl | hd | hd
        all_goals omega
  · -- an inner node is cleared
    have hlink : (h.removeFree n.addr).prevFree n.addr = 0 ∧
        (h.removeFree n.addr).nextFree n.addr = 0 := by
      rw [Heap.removeFree, if_neg hhd.symm]
      dsimp only
      rw [Heap.prevFree_setPrevFree_self (by omega), Heap.nextFree_setPrevFree (Or.inl rfl),
        Heap.nextFree_setNextFree_self (by omega)]
      exact ⟨rfl, rfl⟩
    exact ⟨Or.inl hlink.1, Or.inl hlink.2⟩

/-- Two neighbours merged into the block `p`: a second call merges them once more, as the links
left in the upper one lead away from the three headers. -/
theorem Core.free_ne_of_merged {v : Nat} (hc : Core base h (l ++ p :: b :: n :: r) fl)
    (hp : p.free = true) (hb : b.free = false) (hn : n.free = true) (hnotin : n.addr ∉ fl)
    (hlinks : ∀ c ∈ [p, b, n],
      (h.prevFree n.addr = 0 ∨ c.addr + 8 ≤ h.prevFree n.addr + 24 ∨
        h.prevFree n.addr + 32 ≤ c.addr) ∧
      (h.nextFree n.addr = 0 ∨ c.addr + 8 ≤ h.nextFree n.addr + 16 ∨
        h.nextFree n.addr + 24 ≤ c.addr)) :
    (h.updateNodeSize p.addr n.tag v).free b.data ≠ h.updateNodeSize p.addr n.tag v := by
  have hnm : n ∈ l ++ p :: b :: n :: r := by simp
  obtain ⟨m, -, hpt⟩ := tiles_append.mp hc.layout.tiles
  have hpb : b.addr = p.next := hpt.2.1
  have hbn : n.addr = b.next := hpt.2.2.1
  have hnlt := hc.next_lt hnm
  have hm := hc.remains (r := n :: r) hp hb (t := n.tag) (v := v) (by
    unfold Block.tag Block.next at *
    omega)
  by_cases hfound : (h.updateNodeSize p.addr n.tag v).getNextMem b.addr ≠ 0 ∧
      (h.updateNodeSize p.addr n.tag v).getNextMem b.addr ≤
        (h.updateNodeSize p.addr n.tag v).tailMem ∧
      (h.updateNodeSize p.addr n.tag v).isFree
        ((h.updateNodeSize p.addr n.tag v).getNextMem b.addr) ≠ 0
  · have hna : (h.updateNodeSize p.addr n.tag v).getNextMem b.addr = n.addr := by
      have h0 := hfound.1
      rw [hm.getNextMem_eq] at h0 ⊢
      split_ifs at h0 ⊢ with ht
      · exact absurd rfl h0
      · exact hbn.symm
    rw [hna] at hfound
    -- what the header of `n` held is still there
    have hload : ∀ x k, n.addr ≤ x → x + k ≤ n.tag →
        (h.updateNodeSize p.addr n.tag v).mem.load x k = h.mem.load x k := by
      intro x k h₁ h₂
      unfold Block.next at hpb hbn
      exact Heap.load_updateNodeSize (by omega) (Or.inl h₂)
    unfold Block.tag at hload
    have hprev : (h.updateNodeSize p.addr n.tag v).prevFree n.addr = h.prevFree n.addr :=
      hload _ _ (by omega) (by omega)
    have hnext : (h.updateNodeSize p.addr n.tag v).nextFree n.addr = h.nextFree n.addr :=
      hload _ _ (by omega) (by omega)
    refine hm.free_ne_of_found hnlt hbn hna hfound.2.1 ?_ ?_ ?_ ?_ ?_
    · have hflag := hc.isFree_eq hnm
      rw [hn] at hflag
      exact (hload _ _ (by omega) (by omega)).trans hflag
    · exact (hload _ _ (by omega) (by omega)).trans (hc.size_eq hnm)
    · intro hhd
      have hhead : h.headFree = n.addr := hhd.symm
      have hpos := hc.addr_pos hnm
      obtain ⟨z, -, -, hzm⟩ := hc.exists_head (by omega)
      exact hnotin (hhead ▸ hzm)
    · rw [hprev]
      exact fun c hcm => (hlinks c hcm).1
    · rw [hnext]
      exact fun c hcm => (hlinks c hcm).2
  · exact hm.free_ne_of_not_found hfound

/-- **A block merged with both neighbours** is merged once more by a second call. -/
theorem Rep.free_free_three (hr : Rep base h (l ++ [p, b, n] ++ r) fl) (hp : p.free = true)
    (hb : b.free = false) (hn : n.free = true) (hok : HeadOk h (l ++ [p, b, n] ++ r)) :
    (h.coalesceThreeBlocks b.addr p.addr n.addr).free b.data ≠
      h.coalesceThreeBlocks b.addr p.addr n.addr := by
  have hnm : n ∈ l ++ [p, b, n] ++ r := by simp
  have hmem := hr.mem_list hnm hn
  have hc₁ := hr.toCore.removeFree hmem
  have hlinks := fun c (hc : c ∈ [p, b, n]) =>
    hr.toCore.links_removed hnm hmem hok (c := c) (by
      simp only [List.mem_append]
      exact Or.inl (Or.inr hc))
  obtain ⟨h₁, hh₁⟩ : ∃ h₁, h₁ = h.removeFree n.addr := ⟨_, rfl⟩
  rw [← hh₁] at hc₁ hlinks
  obtain ⟨h₂, hh₂⟩ : ∃ h₂, h₂ = if h₁.getNextMem n.addr = 0 then { h₁ with tailMem := p.addr }
      else h₁ := ⟨_, rfl⟩
  obtain ⟨hc₂, -⟩ := Rep.moveTail (l := l ++ [p, b]) (r := r) (by simpa using hc₁) (by simp) hh₂
  have hc₂' : Core base h₂ (l ++ p :: b :: n :: r) (fl.erase n.addr) := by simpa using hc₂
  have hmem₂ : h₂.mem = h₁.mem := by
    rw [hh₂]
    split_ifs <;> rfl
  obtain ⟨v, hv⟩ : ∃ v, v = wadd (wadd (2 * metaBtagSize) (h₂.size b.addr)) (h₂.size n.addr) :=
    ⟨_, rfl⟩
  have heq : h.coalesceThreeBlocks b.addr p.addr n.addr = h₂.updateNodeSize p.addr n.tag v := by
    rw [hv, ← hc₂'.getNodeBtag_eq (by simp), hh₂, hh₁]
    rfl
  rw [heq]
  refine hc₂'.free_ne_of_merged hp hb hn (hr.not_mem_erase _) fun c hc => ?_
  have hprev : h₂.prevFree n.addr = h₁.prevFree n.addr := by
    rw [Heap.prevFree, hmem₂, Heap.prevFree]
  have hnext : h₂.nextFree n.addr = h₁.nextFree n.addr := by
    rw [Heap.nextFree, hmem₂, Heap.nextFree]
  rw [hprev, hnext]
  exact hlinks c hc

/-- A call on a block that is marked does nothing. -/
theorem Heap.free_of_isFree {ptr : Nat} (hf : h.isFree (wsub ptr nodeSize) ≠ 0) :
    h.free ptr = h := by
  unfold Heap.free
  split
  · rfl
  · exact if_pos hf

/-- **A second `free`** of a live block is harmless exactly when no free block is just below. -/
theorem Rep.free_free_iff (hr : Rep base h bs fl) (hbm : b ∈ bs) (hb : b.free = false)
    (hclear : HeadClear base h) : (h.free b.data).free b.data = h.free b.data ↔
      PrevTaken h b.data := by
  have hok := hr.headClear_iff.mp hclear
  have hnode := wsub_data hr.toCore hbm
  -- what a free block below, or none, means for the guard
  have hbelow : ∀ {l r}, Core base h (l ++ b :: r) fl → (∀ p ∈ l.getLast?, p.free = false) →
      PrevTaken h b.data := by
    intro l r hc hl
    rw [PrevTaken, hnode]
    rcases List.eq_nil_or_concat l with rfl | ⟨l', p, rfl⟩
    · exact Or.inl hc.getPrevMem_first
    · right
      have hc' : Core base h (l' ++ p :: b :: r) fl := by simpa using hc
      rw [hc'.getPrevMem_eq, hc'.isFree_eq (by simp), hl p (by simp)]
      rfl
  have habove : ∀ {l p r}, Core base h (l ++ p :: b :: r) fl → p.free = true →
      ¬ PrevTaken h b.data := by
    intro l p r hc hp
    have hpos := hc.addr_pos (b := p) (by simp)
    rw [PrevTaken, hnode, hc.getPrevMem_eq, hc.isFree_eq (by simp), hp]
    simp only [Bool.toNat_true, one_ne_zero, or_false]
    omega
  have hmarked : ∀ {h' : Heap} {c : Block} {bs' fl'}, Rep base h' bs' fl' → c ∈ bs' →
      c.addr = b.addr → c.free = true → h'.free b.data = h' := by
    intro h' c bs' fl' hr' hcm haddr hcf
    refine Heap.free_of_isFree ?_
    rw [hnode, ← haddr, hr'.isFree_eq hcm, hcf]
    exact one_ne_zero
  have hout := hr.free_outcome hbm hb
  generalize h.free b.data = h' at hout ⊢
  cases hout with
  | three l r hp hn hfound =>
    exact iff_of_false (hr.free_free_three hp hb hn hok) (habove (by simpa using hr.toCore) hp)
  | @before l r p hp hafter =>
    exact iff_of_false (hr.free_free_before hp hb hafter) (habove (by simpa using hr.toCore) hp)
  | @after l r n hl hn hfound =>
    obtain ⟨hr', -⟩ := hr.coalesceTwoBlocksAfter hb hn
    exact iff_of_true (hmarked hr' mem_mid rfl rfl) (hbelow (by simpa using hr.toCore) hl)
  | alone l r hl hafter =>
    obtain ⟨hr', -⟩ := hr.freeBlock hb
    exact iff_of_true (hmarked hr' mem_mid rfl rfl) (hbelow (by simpa using hr.toCore) hl)

/-! ## Main results -/

/-- The heaps that a client can reach without a wrapped request. -/
theorem good_of_unwrapped {boot : Boot} {w : World} {is : List Action}
    (hrun : run anyStep boot.world is = some w)
    (hu : ∀ v i, Takes anyStep boot.world is v i → Unwrapped v i) :
    Good boot.base w ∧ HeadClear boot.base w.heap := by
  refine forall_visits_of_takes (P := fun v => Good boot.base v ∧ HeadClear boot.base v.heap)
    (C := Unwrapped) ?_ ?_ hu w (Visits.final hrun)
  · exact ⟨Good.start boot, [], ⟨rfl, by simp⟩, fun h0 => absurd rfl h0⟩
  · rintro v i v' ⟨hg, hclear⟩ hC hs
    exact ⟨hg.anyStep hC hs, hg.headClear_anyStep hclear hC hs⟩

/-- **Freeing twice.** In every heap that calls with live pointers reach, a live pointer may be
freed a second time right after the first exactly when there is no free block just below. -/
theorem free_twice_iff {boot : Boot} {w : World} {is : List Action}
    (hrun : run anyStep boot.world is = some w)
    (hu : ∀ v i, Takes anyStep boot.world is v i → Unwrapped v i) {ptr : Nat}
    (hlive : ptr ∈ w.live.map Prod.fst) :
    (w.heap.free ptr).free ptr = w.heap.free ptr ↔ PrevTaken w.heap ptr := by
  obtain ⟨⟨bs, fl, hr, hcov⟩, hclear⟩ := good_of_unwrapped hrun hu
  obtain ⟨e, he, rfl⟩ := List.mem_map.mp hlive
  obtain ⟨b, hbm, hb, hd, -⟩ := hcov.block e he
  rw [← hd]
  exact hr.free_free_iff hbm hb hclear

/-- Three blocks; the lowest one is free. -/
def threeBlocks : List Action :=
  [.call (.malloc true 16), .call (.malloc true 16), .call (.malloc true 16), .call (.free 4128)]

theorem free_twice_threeBlocks :
    ∃ w, run anyStep zeroBoot.world threeBlocks = some w ∧
      (w.heap.free 4240).free 4240 = w.heap.free 4240 := by
  have hread : (run anyStep zeroBoot.world threeBlocks).map (fun w =>
      (w.live.map Prod.fst, decide (PrevTaken w.heap 4240))) = some ([4240, 4184], true) := by
    decide
  have hcheck : checkRun anyStep (fun v i => decide (Unwrapped v i)) zeroBoot.world threeBlocks =
      true := by
    decide
  obtain ⟨w, hw, hr⟩ := Option.map_eq_some_iff.mp hread
  obtain ⟨hlive, htaken⟩ := Prod.mk.inj hr
  refine ⟨w, hw, (free_twice_iff hw (fun v i hvi => ?_) ?_).mpr (of_decide_eq_true htaken)⟩
  · exact of_decide_eq_true (forall_takes_of_checkRun hcheck v i hvi)
  · rw [hlive]
    simp

/-- The middle block of the three is freed twice: the merged block grows to twice its size,
into the block above. -/
theorem free_twice_grows :
    ∃ w, run anyStep zeroBoot.world threeBlocks = some w ∧ 4184 ∈ w.live.map Prod.fst ∧
      (w.heap.free 4184).size 4096 = 72 ∧ ((w.heap.free 4184).free 4184).size 4096 = 128 ∧
      (w.heap.free 4184).free 4184 ≠ w.heap.free 4184 := by
  have hread : (run anyStep zeroBoot.world threeBlocks).map (fun w =>
      (w.live.map Prod.fst, (w.heap.free 4184).size 4096,
        ((w.heap.free 4184).free 4184).size 4096)) = some ([4240, 4184], 72, 128) := by
    decide
  obtain ⟨w, hw, hr⟩ := Option.map_eq_some_iff.mp hread
  simp only [Prod.mk.injEq] at hr
  obtain ⟨hlive, honce, htwice⟩ := hr
  refine ⟨w, hw, by rw [hlive]; simp, honce, htwice, fun heq => ?_⟩
  rw [heq, honce] at htwice
  omega

end SystemProgramming.Malloc
