import Mathlib.Tactic
import SystemProgramming.Minixfs.WellFormed

/-!
# Writing files

`minixfs_write` copies to the rest of the first block, then to whole blocks, then to the beginning
of the last one. The source of each copy is the buffer itself, not what is left of it, so every
block but the first one begins with the first bytes of the buffer. Blocks that the file gets for
the write are cleared, but what a block already holds behind the end of the file stays there, and
becomes part of a file that is extended over it.

## Main definitions

* `Patched n f`: some bytes of the file `n` change, and nothing else
* `written buf off`: the bytes that a write stores
* `overlay`, `Written`: what a write is to do

## Main results

* `writeData_spec`: the copies of a write
* `content_write`: the bytes of the file after a write
* `write_law_iff`: when a write does what it is to do
-/

namespace SystemProgramming.Minixfs

/-! ## Bytes that change -/

/-- The byte `x` of the file `n` becomes `f x`, if that is given; nothing else changes. -/
structure Patched (n : Nat) (f : Nat → Option UInt8) (fs fs' : FileSystem) : Prop where
  same : fs' = { fs with data := fs'.data }
  bytes : ∀ k, ref fs (n, .slot k) ≠ unassignedNode → ∀ j < blockSize,
    byteAt fs'.data (ref fs (n, .slot k)) j =
      (f (blockSize * k + j)).getD (byteAt fs.data (ref fs (n, .slot k)) j)
  others : ∀ b, 0 ≤ b → (∀ k, ref fs (n, .slot k) ≠ b) → SameBlock fs.data fs'.data b

section Patches

variable {fs fs₁ fs' : FileSystem} {n k o : Nat} {f g : Nat → Option UInt8} {bs : List UInt8}

theorem Patched.refl (n : Nat) (fs : FileSystem) : Patched n (fun _ => none) fs fs :=
  ⟨rfl, fun _ _ _ _ => rfl, fun _ _ _ _ _ => rfl⟩

theorem Patched.congr (h : Patched n f fs fs') (hfg : ∀ x, f x = g x) : Patched n g fs fs' :=
  (funext hfg : f = g) ▸ h

theorem Patched.inodes (h : Patched n f fs fs') : fs'.inodes = fs.inodes := by
  rw [h.same]

theorem Patched.live (h : Patched n f fs fs') {m : Nat} : fs'.Live m ↔ fs.Live m := by
  rw [FileSystem.Live, h.inodes, FileSystem.Live]

theorem Patched.inUse_eq (h : Patched n f fs fs') : inUse fs' = inUse fs := by
  rw [h.same]
  rfl

/-- The blocks with the references of other inodes, and with those of the indirect block, stay
as they are. -/
theorem Patched.sameBlock (h : Patched n f fs fs') (ho : Owned fs) {x : Nat × Place}
    (hx : ref fs x ≠ unassignedNode) (hne : ∀ k, x ≠ (n, .slot k)) :
    SameBlock fs.data fs'.data (ref fs x) := by
  apply h.others _ (ho.mem x hx).1
  intro k hk
  exact hne k (ho.inj x (n, .slot k) hx hk.symm)

theorem Patched.ref_eq (h : Patched n f fs fs') (ho : Owned fs) : ref fs' = ref fs := by
  funext ⟨m, place⟩
  by_cases hlive : fs.Live m
  · rw [ref_of_live hlive, ref_of_live (h.live.mpr hlive), h.inodes]
    cases place with
    | pointer => rfl
    | slot k =>
      apply slot_congr (fun _ => rfl) rfl
      intro hind
      have hpointer : ref fs (m, .pointer) = (fs.inodes m).indirect := ref_of_live hlive _
      rw [← hpointer] at hind ⊢
      exact h.sameBlock ho hind fun k hk => by cases hk
  · rw [ref_of_dead hlive, ref_of_dead (mt h.live.mp hlive)]

theorem Patched.owned (h : Patched n f fs fs') (ho : Owned fs) : Owned fs' := by
  rw [Owned, h.ref_eq ho, h.inUse_eq]
  exact ho

theorem Patched.trans (h : Patched n f fs fs₁) (h' : Patched n g fs₁ fs') (ho : Owned fs) :
    Patched n (fun x => (g x).or (f x)) fs fs' where
  same := by rw [h'.same, h.same]
  bytes := fun k hk j hj => by
    have hlater := h'.bytes k (h.ref_eq ho ▸ hk) j hj
    rw [h.ref_eq ho, h.bytes k hk j hj] at hlater
    rw [hlater]
    cases g (blockSize * k + j) <;> rfl
  others := fun b hb hne =>
    (h.others b hb hne).trans (h'.others b hb fun k => h.ref_eq ho ▸ hne k)

/-- One copy, within a block. -/
theorem copyTo_spec (ho : Owned fs) (hlive : fs.Live n) (hfits : o + bs.length ≤ blockSize)
    (hassigned : bs ≠ [] → ref fs (n, .slot k) ≠ unassignedNode) :
    ∃ fs', copyTo fs (getBlock fs (fs.inodes n) k) o bs = some fs' ∧
      Patched n (fun x => if blockSize * k + o ≤ x ∧ x < blockSize * k + o + bs.length then
        some (bs.getD (x - (blockSize * k + o)) 0) else none) fs fs' := by
  by_cases hnil : bs = []
  · refine ⟨fs, if_pos hnil, (Patched.refl n fs).congr fun x => ?_⟩
    rw [if_neg]
    rw [hnil, List.length_nil]
    omega
  · have hk := hassigned hnil
    obtain ⟨b, hb⟩ : ∃ b, b = ref fs (n, .slot k) := ⟨_, rfl⟩
    have hmem := ho.mem _ hk
    rw [← hb] at hmem
    refine ⟨{ fs with data := fs.data.write (blockSize * b.toNat + o) bs }, ?_, rfl, ?_, ?_⟩
    · rw [copyTo, if_neg hnil, getBlock_eq ho hlive hk, Option.bind_eq_bind, Option.bind_some,
        block_ref ho hk, Option.bind_eq_bind, Option.bind_some, ← hb]
    · intro k' hk' j hj
      dsimp only
      by_cases hkk : k' = k
      · -- the block that is copied to
        subst hkk
        rw [← hb, byteAt]
        by_cases hin : o ≤ j ∧ j < o + bs.length
        · rw [Memory.write_of_mem (by omega), if_pos (by omega), Option.getD_some]
          congr 1
          omega
        · rw [Memory.write_of_not_mem (by omega), if_neg (by omega)]
          rfl
      · have hother : ref fs (n, .slot k') ≠ b := by
          intro heq
          cases ho.inj _ _ hk' (heq.trans hb)
          exact hkk rfl
        have hout : ¬ (blockSize * k + o ≤ blockSize * k' + j ∧
            blockSize * k' + j < blockSize * k + o + bs.length) := by
          simp only [blockSize] at *
          omega
        have haddr := blockAddr_ne (ho.mem _ hk').1 hmem.1 hother hj
        rw [if_neg hout, byteAt, Memory.write_of_not_mem (by omega)]
        rfl
    · intro c hc hne j hj
      have haddr := blockAddr_ne hc hmem.1 (fun heq => hne k (hb ▸ heq.symm)) hj
      have hout : ¬ (blockSize * b.toNat + o ≤ blockSize * c.toNat + j ∧
          blockSize * c.toNat + j < blockSize * b.toNat + o + bs.length) := by omega
      exact (Memory.write_of_not_mem hout).symm

end Patches

/-! ## The copies of a write -/

section Copies

variable {fs fs' : FileSystem} {n off : Nat} {buf : List UInt8}

/-- The loop copies the beginning of the buffer to each block. -/
theorem writeLoop_spec {rounds bIdx bytesWrote : Nat} (ho : Owned fs) (hlive : fs.Live n)
    (hwrote : bytesWrote ≤ buf.length) (hrounds : buf.length - bytesWrote ≤ rounds)
    (hassigned : ∀ k, bIdx ≤ k → blockSize * k < blockSize * bIdx + (buf.length - bytesWrote) →
      ref fs (n, .slot k) ≠ unassignedNode) :
    ∃ fs', writeLoop n buf rounds fs bIdx bytesWrote = some (fs', buf.length) ∧
      Patched n (fun x => if blockSize * bIdx ≤ x ∧
          x < blockSize * bIdx + (buf.length - bytesWrote) then
        some (buf.getD (x % blockSize) 0) else none) fs fs' := by
  induction rounds generalizing fs bIdx bytesWrote with
  | zero =>
    obtain rfl : bytesWrote = buf.length := by omega
    refine ⟨fs, rfl, (Patched.refl n fs).congr fun x => ?_⟩
    rw [if_neg (by omega)]
  | succ rounds ih =>
    rw [writeLoop]
    by_cases hlt : bytesWrote < buf.length
    · rw [if_pos hlt]
      obtain ⟨t, ht⟩ : ∃ t, t = min blockSize (buf.length - bytesWrote) := ⟨_, rfl⟩
      have hpos : 0 < blockSize := by decide
      have htake : (buf.take t).length = t := List.length_take_of_le (by omega)
      obtain ⟨fs₁, hcopy, hpatch⟩ := copyTo_spec (k := bIdx) (o := 0) ho hlive
        (by rw [htake]; omega) fun _ => hassigned bIdx le_rfl (by omega)
      have hassigned₁ : ∀ k, bIdx + 1 ≤ k → blockSize * k < blockSize * (bIdx + 1) +
          (buf.length - (bytesWrote + t)) → ref fs₁ (n, .slot k) ≠ unassignedNode := by
        intro k hle hk
        have hmul := Nat.mul_le_mul_left blockSize hle
        rw [hpatch.ref_eq ho]
        apply hassigned k (by omega)
        rw [Nat.mul_succ] at hk hmul
        omega
      obtain ⟨fs', hloop, hpatch'⟩ := ih (hpatch.owned ho) (hpatch.live.mpr hlive)
        (show bytesWrote + t ≤ buf.length by omega) (by omega) hassigned₁
      refine ⟨fs', ?_, (hpatch.trans hpatch' ho).congr fun x => ?_⟩
      · dsimp only
        rw [← ht, hcopy]
        exact hloop
      · -- the first of the blocks, or a later one
        rw [htake, Nat.mul_succ, Nat.add_zero]
        by_cases hfirst : blockSize * bIdx ≤ x ∧ x < blockSize * bIdx + t
        · have hmod : x % blockSize = x - blockSize * bIdx := by
            obtain ⟨j, rfl⟩ := Nat.exists_eq_add_of_le hfirst.1
            rw [Nat.mul_add_mod, Nat.mod_eq_of_lt (by omega), Nat.add_sub_cancel_left]
          rw [if_neg (by omega), if_pos hfirst, if_pos (by omega), hmod, Option.none_or,
            List.getD_eq_getElem?_getD, List.getElem?_take_of_lt (by omega),
            ← List.getD_eq_getElem?_getD]
        · rw [if_neg hfirst, Option.or_none]
          apply if_congr _ rfl rfl
          omega
    · rw [if_neg hlt]
      obtain rfl : bytesWrote = buf.length := by omega
      refine ⟨fs, rfl, (Patched.refl n fs).congr fun x => ?_⟩
      rw [if_neg (by omega)]

/-- The length of the first copy. -/
def firstChunk (buf : List UInt8) (off : Nat) : Nat := min buf.length (blockSize - off % blockSize)

/-- The byte that a write stores at `x`. -/
def written (buf : List UInt8) (off x : Nat) : Option UInt8 :=
  if off ≤ x ∧ x < off + buf.length then
    some (buf.getD (if x < off + firstChunk buf off then x - off else x % blockSize) 0)
  else none

/-- **The copies of a write.** -/
theorem writeData_spec (ho : Owned fs) (hlive : fs.Live n)
    (hassigned : ∀ k, blockSize * k < off + buf.length → ref fs (n, .slot k) ≠ unassignedNode) :
    ∃ fs', writeData fs n buf off = some (fs', buf.length) ∧
      Patched n (written buf off) fs fs' := by
  obtain ⟨c, hc⟩ : ∃ c, c = firstChunk buf off := ⟨_, rfl⟩
  have hpos : 0 < blockSize := by decide
  have hdiv := Nat.div_add_mod off blockSize
  have hmod : off % blockSize < blockSize := Nat.mod_lt _ hpos
  have hcdef : c = min buf.length (blockSize - off % blockSize) := hc
  have htake : (buf.take c).length = c := List.length_take_of_le (by omega)
  have hfirst : buf.take c ≠ [] → ref fs (n, .slot (off / blockSize)) ≠ unassignedNode := by
    intro hne
    have hlen := List.length_pos_of_ne_nil hne
    exact hassigned _ (by omega)
  obtain ⟨fs₁, hcopy, hpatch⟩ := copyTo_spec (k := off / blockSize) (o := off % blockSize) ho hlive
    (by rw [htake]; omega) hfirst
  rw [hdiv, htake] at hpatch
  have hassigned₁ : ∀ k, off / blockSize + 1 ≤ k →
      blockSize * k < blockSize * (off / blockSize + 1) + (buf.length - c) →
      ref fs₁ (n, .slot k) ≠ unassignedNode := by
    intro k hle hk
    have hmul := Nat.mul_le_mul_left blockSize hle
    rw [hpatch.ref_eq ho]
    apply hassigned k
    rw [Nat.mul_succ] at hk hmul
    omega
  obtain ⟨fs', hloop, hpatch'⟩ := writeLoop_spec (hpatch.owned ho) (hpatch.live.mpr hlive)
    (show c ≤ buf.length by omega) (Nat.sub_le _ _) hassigned₁
  refine ⟨fs', ?_, (hpatch.trans hpatch' ho).congr fun x => ?_⟩
  · have hmin : min buf.length (blockSize - off % blockSize) = c := hc.symm
    rw [writeData, hmin, hcopy]
    exact hloop
  · rw [written, ← hc, Nat.mul_succ]
    by_cases hone : off ≤ x ∧ x < off + c
    · rw [if_neg (by omega), if_pos hone, if_pos (by omega), if_pos hone.2, Option.none_or,
        List.getD_eq_getElem?_getD, List.getElem?_take_of_lt (by omega),
        ← List.getD_eq_getElem?_getD]
    · rw [if_neg hone, Option.or_none]
      by_cases hin : off ≤ x ∧ x < off + buf.length
      · rw [if_pos (by omega), if_pos hin, if_neg (by omega)]
      · rw [if_neg (by omega), if_neg hin]

end Copies

/-! ## The whole write -/

/-- The byte `x` of the file `n` in a file system whose unassigned slots are filled with cleared
blocks. -/
def grownByte (fs : FileSystem) (n x : Nat) : UInt8 :=
  if ref fs (n, .slot (x / blockSize)) ≠ unassignedNode then fileByte fs (fs.inodes n) x else 0

section Write

variable {fs fs₁ fs' : FileSystem} {n m k off x : Nat} {buf path : List UInt8} {p : Picker}
  {now : Timespec}

/-- A slot that was assigned keeps its block and its bytes; a new block is cleared. -/
theorem Grows.byteAt_eq (h : Grows n fs fs₁) (ho : Owned fs)
    (hassigned : ref fs₁ (m, .slot k) ≠ unassignedNode) {j : Nat} (hj : j < blockSize) :
    byteAt fs₁.data (ref fs₁ (m, .slot k)) j =
      if ref fs (m, .slot k) ≠ unassignedNode then byteAt fs.data (ref fs (m, .slot k)) j
      else 0 := by
  by_cases hold : ref fs (m, .slot k) = unassignedNode
  · obtain rfl : m = n := (h.fresh _ hold hassigned).1
    rw [if_neg (not_not.mpr hold)]
    exact h.zero k hold hassigned j hj
  · rw [if_pos hold, h.kept _ hold]
    apply (h.bytes _ (ho.mem _ hold) _ j hj).symm
    intro heq
    cases ho.inj _ _ hold heq

/-- The blocks that a stretch of bytes needs. -/
theorem lt_getCeil : k < getCeil x blockSize ↔ blockSize * k < x := by
  have hdiv := Nat.div_add_mod x blockSize
  have hmod : x % blockSize < blockSize := Nat.mod_lt _ (by decide)
  rw [getCeil]
  by_cases hzero : x % blockSize = 0
  · rw [if_neg (not_not.mpr hzero)]
    simp only [blockSize] at *
    omega
  · rw [if_pos hzero]
    simp only [blockSize] at *
    omega

theorem fileByte_of_live (hlive : fs.Live n) :
    fileByte fs (fs.inodes n) x = byteAt fs.data (ref fs (n, .slot (x / blockSize)))
      (x % blockSize) := by
  rw [ref_of_live hlive]
  rfl

/-- The blocks of a write on an existing file, and what comes after the growth. -/
theorem minixfsWrite_cases (p : Picker) (now : Timespec) (h : WellFormed fs)
    (hpath : getInode fs path = some (some (n : Int))) (hmax : off + buf.length ≤ maxSize) :
    ∃ fs₁ err, minBlockcount p fs n (getCeil (off + buf.length) blockSize : Nat) =
        some (fs₁, err) ∧ Owned fs₁ ∧ Grows n fs fs₁ ∧
      (err = -1 ∧ minixfsWrite p now fs path buf off = some (fs₁, -1, off) ∨
        (∀ k, blockSize * k < off + buf.length → ref fs₁ (n, .slot k) ≠ unassignedNode) ∧
        ∃ fs₂, Patched n (written buf off) fs₁ fs₂ ∧ minixfsWrite p now fs path buf off =
          some (fs₂.setInode n { fs₂.inodes n with
            size := max (fs₂.inodes n).size (off + buf.length), atim := now, mtim := now },
            (buf.length : Int), off + buf.length)) := by
  obtain ⟨i, hi, hlt, hlive⟩ := h.resolves path n hpath
  obtain rfl : n = i := by omega
  have hinode : inode? (n : Int) = some n := by
    rw [inode?, if_pos ⟨by omega, by omega⟩, Int.toNat_natCast]
  have hlarge : off + buf.length < 2 ^ 63 := by
    simp only [maxSize, numDirectBlocks, numIndirectBlocks, blockSize] at hmax
    omega
  -- up to the largest file nothing wraps around
  have hmod : (off + buf.length) % 2 ^ 64 = off + buf.length := Nat.mod_eq_of_lt (by omega)
  obtain ⟨c, hc⟩ : ∃ c, c = getCeil (off + buf.length) blockSize := ⟨_, rfl⟩
  have hceil : ∀ k, blockSize * k < off + buf.length ↔ k < c := fun k => hc ▸ lt_getCeil.symm
  have hcmax : c ≤ numDirectBlocks + numIndirectBlocks := by
    by_contra hlt
    have hle := (hceil _).mpr (not_le.mp hlt)
    rw [maxSize, Nat.mul_comm] at hmax
    omega
  obtain ⟨fs₁, r, hblocks, ho₁, hgrows, -, hr⟩ := minBlockcount_spec p h.owned hlive h.count
    (show (c : Int) ≤ numDirectBlocks + numIndirectBlocks by exact_mod_cast hcmax)
  have hnode : nodeToWrite p now fs path = some (fs, some (n : Int)) := by
    rw [nodeToWrite, hpath]
    rfl
  have hat : minBlockcountAt p now fs path c = some (fs₁, r) := by
    rw [minBlockcountAt, hpath, Option.bind_eq_bind, Option.bind_some]
    dsimp only
    rw [hinode, Option.bind_eq_bind, Option.bind_some, hblocks]
  refine ⟨fs₁, r, hc ▸ hblocks, ho₁, hgrows, ?_⟩
  rw [minixfsWrite, hmod, if_neg (not_lt.mpr hmax), hnode, ← hc]
  simp only [Option.bind_eq_bind, Option.bind_some, hat]
  rcases hr with rfl | ⟨rfl, hassigned⟩
  · exact Or.inl ⟨rfl, rfl⟩
  · have hslots : ∀ k, blockSize * k < off + buf.length →
        ref fs₁ (n, .slot k) ≠ unassignedNode := fun k hk =>
      hassigned k (by exact_mod_cast (hceil k).mp hk)
    obtain ⟨fs₂, hdata, hpatch⟩ := writeData_spec ho₁ (hgrows.live hlive) hslots
    refine Or.inr ⟨hslots, fs₂, hpatch, ?_⟩
    rw [if_neg (by decide), hinode]
    simp only [Option.bind_some, hdata, hmod]
    rfl

/-- A write succeeds if the file gets its blocks. -/
theorem minixfsWrite_succeeds (now : Timespec) (h : WellFormed fs)
    (hpath : getInode fs path = some (some (n : Int))) (hmax : off + buf.length ≤ maxSize)
    (hblocks : (minBlockcount p fs n (getCeil (off + buf.length) blockSize : Nat)).map Prod.snd =
      some 0) :
    ∃ fs', minixfsWrite p now fs path buf off =
      some (fs', (buf.length : Int), off + buf.length) := by
  obtain ⟨fs₁, err, hgrow, -, -, ⟨rfl, -⟩ | ⟨-, fs₂, -, hdone⟩⟩ :=
    minixfsWrite_cases p now h hpath hmax
  · rw [hgrow] at hblocks
    cases hblocks
  · exact ⟨_, hdone⟩

/-- **What a write that succeeds leaves behind.** -/
theorem minixfsWrite_bytes {r : Int} {off' : Nat} (h : WellFormed fs)
    (hpath : getInode fs path = some (some (n : Int))) (hmax : off + buf.length ≤ maxSize)
    (hwrite : minixfsWrite p now fs path buf off = some (fs', r, off')) (hr : 0 ≤ r) :
    r = buf.length ∧ off' = off + buf.length ∧
      (fs'.inodes n).size = max (fs.inodes n).size (off + buf.length) ∧
      (∀ x < max (fs.inodes n).size (off + buf.length),
        fileByte fs' (fs'.inodes n) x = (written buf off x).getD (grownByte fs n x)) ∧
      ∀ m, m ≠ n → fs.Live m → content fs' (fs'.inodes m) = content fs (fs.inodes m) := by
  obtain ⟨i, hi, -, hlive⟩ := h.resolves path n hpath
  obtain rfl : n = i := by omega
  obtain ⟨fs₁, err, -, ho₁, hgrows, ⟨-, hfail⟩ | ⟨hslots, fs₂, hpatch, hdone⟩⟩ :=
    minixfsWrite_cases p now h hpath hmax
  · rw [hfail] at hwrite
    cases hwrite
    exact absurd hr (by decide)
  rw [hdone] at hwrite
  cases hwrite
  have hlive₂ : fs₂.Live n := hpatch.live.mpr (hgrows.live hlive)
  refine ⟨rfl, rfl, ?_, ?_, ?_⟩
  · rw [FileSystem.setInode_self, hpatch.inodes, hgrows.node.size]
  · intro x hx
    have hdiv := Nat.div_add_mod x blockSize
    have hmod : x % blockSize < blockSize := Nat.mod_lt _ (by decide)
    have hassigned : ref fs₁ (n, .slot (x / blockSize)) ≠ unassignedNode := by
      by_cases hbefore : x < off + buf.length
      · exact hslots _ (by omega)
      · have hold := h.covered n (x / blockSize) hlive (by omega)
        exact hgrows.kept _ hold ▸ hold
    have hbytes := hpatch.bytes _ hassigned _ hmod
    rw [hdiv, hgrows.byteAt_eq h.owned hassigned hmod, ← fileByte_of_live hlive,
      ← hpatch.ref_eq ho₁, ← fileByte_of_live hlive₂] at hbytes
    rw [FileSystem.setInode_self]
    exact hbytes
  · intro m hm hm_live
    have hinode : (fs₂.setInode n { fs₂.inodes n with
        size := max (fs₂.inodes n).size (off + buf.length), atim := now, mtim := now }).inodes m =
        fs₂.inodes m := FileSystem.setInode_of_ne _ _ hm
    have hinodes : fs₂.inodes m = fs.inodes m := by rw [hpatch.inodes, hgrows.others m hm]
    have hlive_m : fs₂.Live m := by
      rw [FileSystem.Live, hinodes]
      exact hm_live
    rw [hinode, content, content, hinodes]
    refine List.map_congr_left fun x hx => ?_
    have hmod : x % blockSize < blockSize := Nat.mod_lt _ (by decide)
    have hle := Nat.mul_div_le x blockSize
    have hsize := List.mem_range.mp hx
    have hold := h.covered m (x / blockSize) hm_live (by omega)
    have hassigned : ref fs₁ (m, .slot (x / blockSize)) ≠ unassignedNode :=
      hgrows.kept _ hold ▸ hold
    -- neither the growth nor the copies reach a block of another file
    have hsame := hpatch.sameBlock ho₁ hassigned (fun k heq => by cases heq; exact hm rfl) _ hmod
    rw [hgrows.byteAt_eq h.owned hassigned hmod, if_pos hold, ← fileByte_of_live hm_live,
      ← hpatch.ref_eq ho₁, ← fileByte_of_live hlive_m, hinodes] at hsame
    exact hsame.symm

/-! ## What a write is to do -/

/-- The bytes `c` padded with zeros up to `off`, and with `buf` over them from there on. -/
def overlay (c buf : List UInt8) (off : Nat) : List UInt8 :=
  (c ++ List.replicate (off - c.length) 0).take off ++ buf ++ c.drop (off + buf.length)

/-- The file `n` holds the bytes of the buffer from `off` on, behind its end zeros, and is as long
as that needs; every other file is as it was. -/
structure Written (n : Nat) (buf : List UInt8) (off : Nat) (fs fs' : FileSystem) : Prop where
  content : content fs' (fs'.inodes n) = overlay (content fs (fs.inodes n)) buf off
  size : (fs'.inodes n).size = max (fs.inodes n).size (off + buf.length)
  others : ∀ m, m ≠ n → fs.Live m → Minixfs.content fs' (fs'.inodes m) =
    Minixfs.content fs (fs.inodes m)

@[simp] theorem length_overlay (c buf : List UInt8) (off : Nat) :
    (overlay c buf off).length = max c.length (off + buf.length) := by
  simp only [overlay, List.length_append, List.length_take, List.length_replicate,
    List.length_drop]
  omega

/-- The bytes of an overlay. -/
theorem getD_overlay (c buf : List UInt8) (off x : Nat) :
    (overlay c buf off).getD x 0 =
      if off ≤ x ∧ x < off + buf.length then buf.getD (x - off) 0 else c.getD x 0 := by
  have hpad : ((c ++ List.replicate (off - c.length) 0).take off).length = off := by
    simp only [List.length_take, List.length_append, List.length_replicate]
    omega
  rw [overlay, List.append_assoc]
  by_cases hbefore : x < off
  · rw [if_neg (by omega), List.getD_append _ _ _ _ (by omega), List.getD_eq_getElem?_getD,
      List.getElem?_take_of_lt hbefore, ← List.getD_eq_getElem?_getD]
    by_cases hc : x < c.length
    · rw [List.getD_append _ _ _ _ hc]
    · rw [List.getD_append_right _ _ _ _ (by omega), List.getD_eq_default c _ (by omega)]
      exact List.getD_replicate _ (by omega)
  · rw [List.getD_append_right _ _ _ _ (by omega), hpad]
    by_cases hin : x - off < buf.length
    · rw [if_pos (by omega), List.getD_append _ _ _ _ hin]
    · rw [if_neg (by omega), List.getD_append_right _ _ _ _ (by omega),
        List.getD_eq_getElem?_getD, List.getElem?_drop, ← List.getD_eq_getElem?_getD]
      congr 1
      omega

theorem content_eq_iff {node : Inode} {l : List UInt8} (hlen : l.length = node.size) :
    content fs node = l ↔ ∀ x < node.size, fileByte fs node x = l.getD x 0 := by
  constructor
  · rintro rfl x hx
    rw [content, List.getD_eq_getElem _ _ (by simpa using hx), List.getElem_map,
      List.getElem_range]
  · intro hbytes
    apply List.ext_getElem (by rw [length_content, hlen])
    intro x hx hx'
    rw [length_content] at hx
    rw [← List.getD_eq_getElem l 0, ← hbytes x hx]
    simp only [content, List.getElem_map, List.getElem_range]

/-- A byte of the file. -/
theorem getD_content {node : Inode} (hx : x < node.size) :
    (content fs node).getD x 0 = fileByte fs node x :=
  ((content_eq_iff length_content).mp rfl x hx).symm

/-- **When a write does what it is to do.** A write that succeeds writes the buffer, and nothing
else, exactly if every byte of it that does not go to the first block is the byte that the
beginning of the buffer has for its place in the block, and the blocks that the file has already
hold zeros between the end of the file and the offset. -/
theorem write_law_iff {r : Int} {off' : Nat} (h : WellFormed fs)
    (hpath : getInode fs path = some (some (n : Int))) (hmax : off + buf.length ≤ maxSize)
    (hwrite : minixfsWrite p now fs path buf off = some (fs', r, off')) (hr : 0 ≤ r) :
    (r = buf.length ∧ off' = off + buf.length ∧ Written n buf off fs fs') ↔
      (∀ i, firstChunk buf off ≤ i → i < buf.length →
        buf.getD i 0 = buf.getD ((off + i) % blockSize) 0) ∧
      ∀ x, (fs.inodes n).size ≤ x → x < off → ref fs (n, .slot (x / blockSize)) ≠ unassignedNode →
        fileByte fs (fs.inodes n) x = 0 := by
  obtain ⟨i, hi, -, hlive⟩ := h.resolves path n hpath
  obtain rfl : n = i := by omega
  obtain ⟨hlength, hoff, hsize, hbytes, hothers⟩ := minixfsWrite_bytes h hpath hmax hwrite hr
  have hlen : (overlay (content fs (fs.inodes n)) buf off).length = (fs'.inodes n).size := by
    rw [length_overlay, length_content, hsize]
  have hcontent : content fs' (fs'.inodes n) = overlay (content fs (fs.inodes n)) buf off ↔
      ∀ x < max (fs.inodes n).size (off + buf.length), fileByte fs' (fs'.inodes n) x =
        (overlay (content fs (fs.inodes n)) buf off).getD x 0 :=
    hsize ▸ content_eq_iff hlen
  constructor
  · rintro ⟨-, -, hwritten⟩
    have hall := hcontent.mp hwritten.content
    constructor
    · intro i hfirst hi
      have hbyte := hall (off + i) (by omega)
      rw [hbytes _ (by omega), getD_overlay, if_pos (by omega), written, if_pos (by omega),
        if_neg (by omega), Option.getD_some, Nat.add_sub_cancel_left] at hbyte
      exact hbyte.symm
    · intro x hx hoff hassigned
      have hbyte := hall x (by omega)
      rw [hbytes _ (by omega), getD_overlay, if_neg (by omega), written, if_neg (by omega),
        Option.getD_none, grownByte, if_pos hassigned,
        List.getD_eq_default _ _ (by rw [length_content]; exact hx)] at hbyte
      exact hbyte
  · rintro ⟨hrepeat, hzero⟩
    refine ⟨hlength, hoff, hcontent.mpr fun x hx => ?_, hsize, hothers⟩
    rw [hbytes x hx, getD_overlay, written]
    by_cases hin : off ≤ x ∧ x < off + buf.length
    · rw [if_pos hin, if_pos hin, Option.getD_some]
      by_cases hfirst : x < off + firstChunk buf off
      · rw [if_pos hfirst]
      · have hbyte := hrepeat (x - off) (by omega) (by omega)
        rw [Nat.add_sub_cancel' hin.1] at hbyte
        rw [if_neg hfirst, hbyte]
    · rw [if_neg hin, if_neg hin, Option.getD_none, grownByte]
      by_cases hold : x < (fs.inodes n).size
      · -- a byte that the file had before
        have hle := Nat.mul_div_le x blockSize
        rw [if_pos (h.covered n _ hlive (by omega)), getD_content hold]
      · rw [List.getD_eq_default _ _ (by rw [length_content]; omega)]
        by_cases hassigned : ref fs (n, .slot (x / blockSize)) = unassignedNode
        · rw [if_neg (not_not.mpr hassigned)]
        · rw [if_pos hassigned]
          exact hzero x (by omega) (by omega) hassigned

end Write

theorem write_law_iff_a : ∃ fs', minixfsWrite lowest 5 (oneFile (chars "a") [1, 2, 3])
      (chars "/a") [7, 8] 1 = some (fs', 2, 3) ∧
    content fs' (fs'.inodes 1) = [1, 7, 8] := by
  have hentry : EntryAt (oneFile (chars "a") [1, 2, 3]).data 0 (chars "a") 1 :=
    entryAt_oneFile (by decide) (by decide)
  have hlen : ([1, 2, 3] : List UInt8).length ≤ blockSize := by decide
  have hwf := wellFormed_oneFile hentry hlen
  have hpath : getInode (oneFile (chars "a") [1, 2, 3]) (chars "/a") =
      some (some ((1 : Nat) : Int)) :=
    (oneEntry_oneFile hentry).getInode_name hentry (by decide)
  have hmax : 1 + ([7, 8] : List UInt8).length ≤ maxSize := by decide
  have hgrow : (minBlockcount lowest (oneFile (chars "a") [1, 2, 3]) 1
      (getCeil (1 + ([7, 8] : List UInt8).length) blockSize : Nat)).map Prod.snd = some 0 := rfl
  obtain ⟨fs', hwrite⟩ := minixfsWrite_succeeds 5 hwf hpath hmax hgrow
  have hsize : ((oneFile (chars "a") [1, 2, 3]).inodes 1).size = 3 := rfl
  have hlaw := (write_law_iff hwf hpath hmax hwrite (by decide)).mpr
    ⟨fun i hfirst hi => absurd hfirst (by simp [firstChunk, blockSize] at hi ⊢; omega),
      fun x hx hoff => by omega⟩
  refine ⟨fs', hwrite, ?_⟩
  rw [hlaw.2.2.content, content_oneFile hlen]
  rfl

/-- The root directory with an empty file in it, and one block that is not in use. -/
def emptyFile : FileSystem := { oneFile (chars "a") [] with dblockCount := 3 }

theorem entryAt_emptyFile : EntryAt emptyFile.data 0 (chars "a") 1 :=
  entryAt_oneFile (by decide) (by decide)

theorem oneEntry_emptyFile : OneEntry emptyFile := by
  have hone : OneEntry (oneFile (chars "a") []) := oneEntry_oneFile entryAt_emptyFile
  exact ⟨by decide, hone.live, hone.root, hone.size, hone.direct, hone.file, hone.number⟩

theorem wellFormed_emptyFile : WellFormed emptyFile := by
  have hwf : WellFormed (oneFile (chars "a") []) :=
    wellFormed_oneFile entryAt_emptyFile (by decide)
  have hsub : inUse (oneFile (chars "a") []) ⊆ inUse emptyFile := by
    rintro b ⟨hlow, hhigh, hused⟩
    exact ⟨hlow, lt_trans hhigh (by decide), hused⟩
  refine ⟨by decide, ⟨hwf.owned.inj, fun x hx => hsub (hwf.owned.mem x hx)⟩, hwf.covered,
    oneEntry_emptyFile.resolves⟩

/-- A buffer that goes beyond one block is not written: the second block of the file begins
with the first byte of the buffer. -/
theorem not_write_law : ¬ ∀ (fs fs' : FileSystem) (p : Picker) (now : Timespec)
    (path buf : List UInt8) (n off off' : Nat) (r : Int), WellFormed fs →
    getInode fs path = some (some (n : Int)) → isFile (fs.inodes n) = true →
    off + buf.length ≤ maxSize → minixfsWrite p now fs path buf off = some (fs', r, off') →
    0 ≤ r → r = buf.length ∧ off' = off + buf.length ∧ Written n buf off fs fs' := by
  intro h
  obtain ⟨buf, hbuf⟩ : ∃ buf, buf = List.replicate blockSize (0 : UInt8) ++ [1] := ⟨_, rfl⟩
  have hlength : buf.length = blockSize + 1 := by
    rw [hbuf, List.length_append, List.length_replicate, List.length_singleton]
  have hlast : buf.getD blockSize 0 = 1 := by
    rw [hbuf, List.getD_append_right _ _ _ _ (by simp), List.length_replicate, Nat.sub_self]
    rfl
  have hfirst : buf.getD 0 0 = 0 := by
    rw [hbuf, List.getD_append _ _ _ _ (by rw [List.length_replicate]; decide)]
    exact List.getD_replicate _ (by decide)
  have hpath : getInode emptyFile (chars "/a") = some (some ((1 : Nat) : Int)) :=
    oneEntry_emptyFile.getInode_name entryAt_emptyFile (by decide)
  have hmax : 0 + buf.length ≤ maxSize := by
    rw [hlength]
    decide
  have hgrow : (minBlockcount lowest emptyFile 1
      (getCeil (0 + buf.length) blockSize : Nat)).map Prod.snd = some 0 := by
    rw [hlength]
    rfl
  obtain ⟨fs', hwrite⟩ := minixfsWrite_succeeds 5 wellFormed_emptyFile hpath hmax hgrow
  obtain ⟨-, -, hwritten⟩ := h _ fs' lowest 5 _ buf 1 0 _ _ wellFormed_emptyFile hpath
    (by decide) hmax hwrite (by omega)
  obtain ⟨-, -, hsize, hbytes, -⟩ := minixfsWrite_bytes wellFormed_emptyFile hpath hmax hwrite
    (by omega)
  -- the byte behind the first block
  have hbyte := hbytes blockSize (by omega)
  have hshould := getD_overlay (content emptyFile (emptyFile.inodes 1)) buf 0 blockSize
  rw [if_pos (by omega), Nat.sub_zero, hlast, ← hwritten.content, getD_content (by omega), hbyte,
    written, if_pos (by omega), if_neg (by simp only [firstChunk]; omega), Nat.mod_self,
    Option.getD_some, hfirst] at hshould
  exact absurd hshould (by decide)

end SystemProgramming.Minixfs
