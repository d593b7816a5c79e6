import Mathlib.Tactic
import SystemProgramming.Minixfs.Growth
import SystemProgramming.Minixfs.Paths

/-!
# Looking a name up

The entries of a directory lie one after the other in its slots, `64` to a block. As long as
the number of the first entry reads as something else than zero, an entry without a number is
passed over: the name compared in its place is one that did not match before. So
`find_inode_named` finds the first entry that has a number and the name it looks for.

## Main definitions

* `entryAddr`: where the entry `k` of a directory lies
* `hit`: the inode number of an entry that has the name

## Main results

* `findInodeNamed_eq`: the search of a directory of at most `22` blocks
* `getInode_congr`: paths depend on the directories only
-/

namespace SystemProgramming.Minixfs

/-- The entries of a block. -/
def blockEntries : Nat := blockSize / fileNameEntry

/-- The address of the entry `k` of a directory. -/
def entryAddr (fs : FileSystem) (root : Inode) (k : Nat) : Nat :=
  blockSize * (slot root fs.data (k / blockEntries)).toNat + fileNameEntry * (k % blockEntries)

/-- The inode number of the entry at `a`, where it has a number and the name. -/
def hit (data : Memory) (name : List UInt8) (a : Nat) : Option Int :=
  (makeDirentFromString data a).bind fun d => if nameIs data a name then some d.inodeNum else none

/-- The variable `node` does not have the name. -/
def Missed (data : Memory) (name : List UInt8) (node : Option Dirent) : Prop :=
  ∀ d, node = some d → nameIs data d.name name = false

section Scan

variable {fs : FileSystem} {root : Inode} {data : Memory} {name : List UInt8}
  {node : Option Dirent} {a k m : Nat}

theorem name_makeDirent {d : Dirent} (h : makeDirentFromString data a = some d) : d.name = a := by
  rw [makeDirentFromString] at h
  split_ifs at h
  exact (Option.some.inj h) ▸ rfl

theorem scanBlock_zero_size : scanBlock data name k a 0 node = some (.inr (0, node)) := by
  cases k with
  | zero => rfl
  | succ k => rw [scanBlock, if_pos rfl]

/-- One entry that is passed over. -/
theorem scanBlock_miss (hnode : node = none → (makeDirentFromString data a).isSome)
    (hmiss : hit data name a = none) (hstale : Missed data name node) (hm : 0 < m)
    (hlt : fileNameEntry * m < 2 ^ 64) :
    ∃ d, Missed data name (some d) ∧ scanBlock data name (k + 1) a (fileNameEntry * m) node =
      scanBlock data name k (a + fileNameEntry) (fileNameEntry * (m - 1)) (some d) := by
  have hsize : fileNameEntry * m ≠ 0 := Nat.mul_ne_zero (by decide) hm.ne'
  have hrest : (fileNameEntry * m + 2 ^ 64 - fileNameEntry) % 2 ^ 64 = fileNameEntry * (m - 1) := by
    obtain ⟨m, rfl⟩ := Nat.exists_eq_add_of_lt hm
    simp only [fileNameEntry] at *
    omega
  obtain ⟨d, hd, hmissed⟩ : ∃ d, (makeDirentFromString data a).or node = some d ∧
      nameIs data d.name name = false := by
    cases hmake : makeDirentFromString data a with
    | some d =>
      refine ⟨d, rfl, ?_⟩
      rw [hit, hmake, Option.bind_some] at hmiss
      rw [name_makeDirent hmake]
      by_contra hname
      rw [Bool.not_eq_false] at hname
      rw [if_pos hname] at hmiss
      cases hmiss
    | none =>
      cases node with
      | none =>
        have hsome := hnode rfl
        rw [hmake] at hsome
        cases hsome
      | some d => exact ⟨d, rfl, hstale d rfl⟩
  refine ⟨d, fun d' hd' => Option.some.inj hd' ▸ hmissed, ?_⟩
  rw [scanBlock, if_neg hsize, hd]
  simp only [Option.bind_eq_bind, Option.bind_some, hmissed, Bool.false_eq_true, if_false, hrest]

/-- One entry that is found. -/
theorem scanBlock_hit {i : Int} (hhit : hit data name a = some i) (hm : 0 < m) :
    scanBlock data name (k + 1) a (fileNameEntry * m) node = some (.inl i) := by
  have hsize : fileNameEntry * m ≠ 0 := Nat.mul_ne_zero (by decide) hm.ne'
  obtain ⟨d, hd, hi⟩ := Option.bind_eq_some_iff.mp hhit
  split_ifs at hi with hname
  rw [← name_makeDirent hd] at hname
  rw [scanBlock, if_neg hsize, hd]
  simp only [Option.some_or, Option.bind_eq_bind, Option.bind_some, hname, if_true]
  rw [Option.some.inj hi]

/-- The search of one block of at most `m` entries. -/
theorem scanBlock_spec (hnode : node = none → (makeDirentFromString data a).isSome)
    (hstale : Missed data name node) (hm : 0 < m) (hk : 0 < k) (hlt : fileNameEntry * m < 2 ^ 64) :
    match (List.range (min k m)).findSome? fun i => hit data name (a + fileNameEntry * i) with
    | some i => scanBlock data name k a (fileNameEntry * m) node = some (.inl i)
    | none => ∃ d, Missed data name (some d) ∧
        scanBlock data name k a (fileNameEntry * m) node =
          some (.inr (fileNameEntry * (m - k), some d)) := by
  induction k generalizing a m node with
  | zero => omega
  | succ k ih =>
    obtain ⟨m, rfl⟩ := Nat.exists_eq_succ_of_ne_zero hm.ne'
    rw [Nat.succ_min_succ, List.range_succ_eq_map, List.findSome?_cons, Nat.mul_zero,
      Nat.add_zero]
    cases hhit : hit data name a with
    | some i => exact scanBlock_hit hhit hm
    | none =>
      obtain ⟨d, hd, hscan⟩ := scanBlock_miss (k := k) hnode hhit hstale hm hlt
      dsimp only
      rw [hscan, List.findSome?_map, Nat.succ_sub_one]
      by_cases hdone : m = 0 ∨ k = 0
      · have hmin : min k m = 0 := by omega
        have hsub : m + 1 - (k + 1) = m - k := by omega
        rw [hmin, hsub]
        refine ⟨d, hd, ?_⟩
        rcases hdone with rfl | rfl
        · rw [Nat.mul_zero, scanBlock_zero_size, Nat.zero_sub, Nat.mul_zero]
        · rfl
      · have hsub : m + 1 - (k + 1) = m - k := by omega
        have hshift : ((fun i => hit data name (a + fileNameEntry * i)) ∘ Nat.succ) =
            fun i => hit data name (a + fileNameEntry + fileNameEntry * i) := by
          funext i
          rw [Function.comp_apply, Nat.mul_succ, Nat.add_assoc, Nat.add_comm fileNameEntry]
        rw [hshift, hsub]
        have hlt' : fileNameEntry * m < 2 ^ 64 :=
          lt_of_le_of_lt (Nat.mul_le_mul_left _ (by omega)) hlt
        exact ih (fun h => by cases h) hd (by omega) (by omega) hlt'

end Scan

/-! ## Directories -/

/-- The directory `root` has `size` entries in blocks that a search reaches. -/
structure Directory (fs : FileSystem) (root : Inode) (entries : Nat) : Prop where
  size : root.size = fileNameEntry * entries
  bound : entries ≤ 22 * blockEntries
  slots : ∀ q, blockEntries * q < entries → slot root fs.data q ≠ unassignedNode ∧
    ∃ b : Nat, slot root fs.data q = b ∧ b < fs.dblockCount
  pointer : blockEntries * numDirectBlocks < entries → root.indirect ≠ unassignedNode ∧
    ∃ b : Nat, root.indirect = b ∧ b < fs.dblockCount

/-- Two searches that agree on the members of a list. -/
theorem findSome?_congr {α β : Type} {f g : α → Option β} {l : List α}
    (h : ∀ x ∈ l, f x = g x) : l.findSome? f = l.findSome? g := by
  rw [← List.head?_filterMap, List.filterMap_congr h, List.head?_filterMap]

section Directories

variable {fs : FileSystem} {root : Inode} {entries : Nat} {name : List UInt8}

theorem block_natCast {b : Nat} (h : b < fs.dblockCount) : fs.block b = some b := by
  rw [FileSystem.block, if_pos ⟨by omega, by omega⟩, Int.toNat_natCast]

/-- The block that the search reads after `q` others. -/
theorem Directory.blockArray (h : Directory fs root entries) {q : Nat}
    (hq : blockEntries * q < entries) :
    ∃ b : Nat, Minixfs.blockArray fs root (decide (numDirectBlocks ≤ q)) (q % numDirectBlocks) =
        some (b : Int) ∧ slot root fs.data q = b ∧ b < fs.dblockCount ∧
      root.direct (q % numDirectBlocks) ≠ unassignedNode := by
  obtain ⟨hassigned, b, hb, hlt⟩ := h.slots q hq
  have hq22 : q < 22 := by
    have hbound := h.bound
    simp only [blockEntries, blockSize, fileNameEntry] at *
    omega
  have hmod : q % numDirectBlocks ≤ q := Nat.mod_le _ _
  have hsmall : q % numDirectBlocks < numDirectBlocks := Nat.mod_lt _ (by decide)
  have hdirect : root.direct (q % numDirectBlocks) ≠ unassignedNode := by
    have hslot := (h.slots (q % numDirectBlocks)
      (lt_of_le_of_lt (Nat.mul_le_mul_left _ hmod) hq)).1
    rwa [slot_of_lt hsmall] at hslot
  refine ⟨b, ?_, hb, hlt, hdirect⟩
  by_cases hind : numDirectBlocks ≤ q
  · have hpointer := h.pointer (lt_of_le_of_lt (Nat.mul_le_mul_left _ hind) hq)
    obtain ⟨hne, c, hc, hclt⟩ := hpointer
    obtain ⟨j, rfl⟩ := Nat.exists_eq_add_of_le hind
    have hj : j < numDirectBlocks := by
      simp only [numDirectBlocks] at *
      omega
    have hjlt : j < numIndirectBlocks := lt_of_lt_of_le hj (by decide)
    rw [slot_add hjlt hne, hc, Int.toNat_natCast] at hb
    rw [Minixfs.blockArray, decide_eq_true hind, if_pos rfl, hc, block_natCast hclt, Option.map_some,
      Nat.add_mod_left, Nat.mod_eq_of_lt hj, hb]
  · rw [slot_of_lt (not_le.mp hind)] at hb
    rw [Minixfs.blockArray, decide_eq_false hind, if_neg Bool.false_ne_true,
      Nat.mod_eq_of_lt (not_le.mp hind), hb]

/-- The address of an entry of the block `q`. -/
theorem entryAddr_add {q i b : Nat} (hi : i < blockEntries) (hb : slot root fs.data q = b) :
    entryAddr fs root (blockEntries * q + i) = blockSize * b + fileNameEntry * i := by
  have hpos : 0 < blockEntries := by decide
  rw [entryAddr, Nat.mul_add_div hpos, Nat.div_eq_of_lt hi, Nat.add_zero, hb, Int.toNat_natCast,
    Nat.mul_add_mod, Nat.mod_eq_of_lt hi]

/-- The entries of the block `q` come before those of the later blocks. -/
theorem range'_block (q : Nat) :
    List.range' (blockEntries * q) (entries - blockEntries * q) =
      (List.range (min blockEntries (entries - blockEntries * q))).map (blockEntries * q + ·) ++
        List.range' (blockEntries * (q + 1)) (entries - blockEntries * (q + 1)) := by
  rw [← List.range'_eq_map_range, Nat.mul_succ]
  by_cases h : blockEntries * q + blockEntries ≤ entries
  · have hmin : min blockEntries (entries - blockEntries * q) = blockEntries := by omega
    have hsplit : entries - blockEntries * q =
        blockEntries + (entries - (blockEntries * q + blockEntries)) := by omega
    rw [hmin, hsplit, ← List.range'_append_1]
  · have hmin : min blockEntries (entries - blockEntries * q) = entries - blockEntries * q := by
      omega
    have hzero : entries - (blockEntries * q + blockEntries) = 0 := by omega
    rw [hmin, hzero, List.range'_zero, List.append_nil]

theorem scanBlocks_done {indirect : Bool} {rounds count : Nat} {node : Option Dirent} :
    scanBlocks fs root name (rounds + 1) indirect count 0 node = some none := by
  rw [scanBlocks, if_pos (Or.inl rfl)]

/-- The entries of the block `q`, by their addresses in the block. -/
theorem findSome?_block {q b : Nat} (hb : slot root fs.data q = b) (m : Nat) :
    ((List.range (min blockEntries m)).map (blockEntries * q + ·)).findSome?
        (fun k => hit fs.data name (entryAddr fs root k)) =
      (List.range (min blockEntries m)).findSome?
        fun i => hit fs.data name (blockSize * b + fileNameEntry * i) := by
  rw [List.findSome?_map]
  refine findSome?_congr fun i hi => ?_
  have hi' : i < blockEntries := lt_of_lt_of_le (List.mem_range.mp hi) (min_le_left _ _)
  rw [Function.comp_apply, entryAddr_add hi' hb]

/-- Where the search goes on after the block `q`: `count` counts the direct blocks, and then the
entries of the indirect block from the first. -/
theorem Directory.scanNext (h : Directory fs root entries) {q rounds : Nat} (hq : q + 1 ≤ 22)
    (hrounds : rounds ≠ 0) (node : Option Dirent) :
    (if q % numDirectBlocks + 1 < numDirectBlocks then
        Minixfs.scanBlocks fs root name rounds (decide (numDirectBlocks ≤ q))
          (q % numDirectBlocks + 1) (fileNameEntry * (entries - blockEntries * (q + 1))) node
      else if root.indirect = unassignedNode then some none
      else Minixfs.scanBlocks fs root name rounds true 0
        (fileNameEntry * (entries - blockEntries * (q + 1))) node) =
      Minixfs.scanBlocks fs root name rounds (decide (numDirectBlocks ≤ q + 1))
        ((q + 1) % numDirectBlocks) (fileNameEntry * (entries - blockEntries * (q + 1))) node := by
  by_cases hround : q % numDirectBlocks + 1 < numDirectBlocks
  · have hcount : (q + 1) % numDirectBlocks = q % numDirectBlocks + 1 := by
      simp only [numDirectBlocks] at *
      omega
    have hflag : (numDirectBlocks ≤ q + 1) = (numDirectBlocks ≤ q) := by
      simp only [numDirectBlocks] at *
      exact propext (by omega)
    rw [if_pos hround, hcount]
    simp only [hflag]
  · have hcount : (q + 1) % numDirectBlocks = 0 := by
      simp only [numDirectBlocks] at *
      omega
    have hflag : numDirectBlocks ≤ q + 1 := by
      simp only [numDirectBlocks] at *
      omega
    rw [if_neg hround, hcount, decide_eq_true hflag]
    split_ifs with hind
    · -- without an indirect block there are no entries left
      have hlast : entries ≤ blockEntries * (q + 1) := by
        by_contra hmore
        refine (h.pointer (lt_of_le_of_lt ?_ (not_le.mp hmore))).1 hind
        exact Nat.mul_le_mul_left _ hflag
      obtain ⟨r, rfl⟩ := Nat.exists_eq_succ_of_ne_zero hrounds
      rw [Nat.sub_eq_zero_of_le hlast, Nat.mul_zero, scanBlocks_done]
    · rfl

/-- The search from the block `q` on. -/
theorem Directory.scanBlocks (h : Directory fs root entries) (name : List UInt8) (rounds : Nat)
    {q : Nat} {node : Option Dirent} (hq : q ≤ 22) (hrounds : 23 ≤ q + rounds)
    (hnode : node = none → entries ≤ blockEntries * q ∨
      (makeDirentFromString fs.data (entryAddr fs root (blockEntries * q))).isSome)
    (hstale : Missed fs.data name node) :
    Minixfs.scanBlocks fs root name rounds (decide (numDirectBlocks ≤ q)) (q % numDirectBlocks)
        (fileNameEntry * (entries - blockEntries * q)) node =
      some ((List.range' (blockEntries * q) (entries - blockEntries * q)).findSome?
        fun k => hit fs.data name (entryAddr fs root k)) := by
  induction rounds generalizing q node with
  | zero => omega
  | succ rounds ih =>
    have hbound := h.bound
    by_cases hdone : entries ≤ blockEntries * q
    · rw [Nat.sub_eq_zero_of_le hdone, Nat.mul_zero, scanBlocks_done]
      rfl
    obtain ⟨b, harray, hb, hlt, hassigned⟩ := h.blockArray (not_le.mp hdone)
    have hsize : fileNameEntry * (entries - blockEntries * q) ≠ 0 :=
      Nat.mul_ne_zero (by decide) (by omega)
    have haddr : entryAddr fs root (blockEntries * q) = blockSize * b := by
      simpa using entryAddr_add (i := 0) (by decide) hb
    have hfirst : node = none → (makeDirentFromString fs.data (blockSize * b)).isSome := by
      intro hnone
      rcases hnode hnone with hle | hsome
      · exact absurd hle hdone
      · rwa [haddr] at hsome
    have hpos : 0 < entries - blockEntries * q := by omega
    have hmax : fileNameEntry * (entries - blockEntries * q) < 2 ^ 64 := by
      simp only [blockEntries, blockSize, fileNameEntry] at *
      omega
    have hscan := scanBlock_spec (k := blockEntries) hfirst hstale hpos (by decide) hmax
    rw [Minixfs.scanBlocks, if_neg (not_or.mpr ⟨hsize, hassigned⟩), harray, range'_block,
      List.findSome?_append, findSome?_block hb]
    simp only [Option.bind_eq_bind, Option.bind_some, block_natCast hlt]
    change ((Minixfs.scanBlock fs.data name blockEntries (blockSize * b)
      (fileNameEntry * (entries - blockEntries * q)) node).bind _) = _
    cases hsome : (List.range (min blockEntries (entries - blockEntries * q))).findSome?
        fun i => hit fs.data name (blockSize * b + fileNameEntry * i) with
    | some i =>
      rw [hsome] at hscan
      rw [hscan]
      rfl
    | none =>
      rw [hsome] at hscan
      obtain ⟨d, hd, hrest⟩ := hscan
      have hsub : entries - blockEntries * q - blockEntries = entries - blockEntries * (q + 1) := by
        rw [Nat.mul_succ, Nat.sub_sub]
      have hq1 : q + 1 ≤ 22 := by
        simp only [blockEntries, blockSize, fileNameEntry] at *
        omega
      rw [hrest, hsub, Option.none_or, Option.bind_some]
      -- the later blocks begin behind an entry that was missed
      exact (h.scanNext hq1 (by omega) (some d)).trans
        (@ih (q + 1) (some d) hq1 (by omega) (fun h => by cases h) hd)

/-- **A search finds the first entry that has a number and the name.** -/
theorem findInodeNamed_eq (h : Directory fs root entries) (name : List UInt8)
    (hfirst : entries = 0 ∨ (makeDirentFromString fs.data (entryAddr fs root 0)).isSome) :
    findInodeNamed fs root name =
      some ((List.range entries).findSome? fun k => hit fs.data name (entryAddr fs root k)) := by
  have hscan := @Directory.scanBlocks fs root entries h name maxRounds 0 none
    (Nat.zero_le 22) (by simp only [maxRounds]; omega)
    (fun _ => hfirst.imp (fun h => h.le) id) (fun d hd => by cases hd)
  rw [Nat.mul_zero, Nat.sub_zero, ← h.size, ← List.range_eq_range'] at hscan
  rw [findInodeNamed, ← hscan]
  rfl

end Directories

/-! ## Walks -/

section Walks

variable {fs : FileSystem} {tok : List UInt8} {toks : List (List UInt8)} {n m : Int} {i : Nat}

theorem walk_of_file (hi : inode? n = some i) (h : isDirectory (fs.inodes i) = false) :
    walk fs (tok :: toks) n = some none := by
  rw [walk, hi, Option.bind_eq_bind, Option.bind_some, h, Bool.not_false, if_pos rfl]

theorem walk_of_none (hi : inode? n = some i) (h : isDirectory (fs.inodes i) = true)
    (hfind : findInodeNamed fs (fs.inodes i) tok = some none) :
    walk fs (tok :: toks) n = some none := by
  rw [walk, hi, Option.bind_eq_bind, Option.bind_some, h, Bool.not_true,
    if_neg Bool.false_ne_true, hfind, Option.bind_eq_bind, Option.bind_some]

theorem walk_of_some (hi : inode? n = some i) (h : isDirectory (fs.inodes i) = true)
    (hfind : findInodeNamed fs (fs.inodes i) tok = some (some m)) :
    walk fs (tok :: toks) n = walk fs toks m := by
  rw [walk, hi, Option.bind_eq_bind, Option.bind_some, h, Bool.not_true,
    if_neg Bool.false_ne_true, hfind, Option.bind_eq_bind, Option.bind_some]

end Walks

/-! ## Other states -/

section Congr

variable {fs fs' : FileSystem}

/-- The fields of an inode that a search reads. -/
structure SameEntries (node node' : Inode) : Prop where
  mode : node'.mode = node.mode
  size : node'.size = node.size
  direct : node'.direct = node.direct
  indirect : node'.indirect = node.indirect

theorem block_congr (h : fs'.dblockCount = fs.dblockCount) (b : Int) : fs'.block b = fs.block b := by
  rw [FileSystem.block, FileSystem.block, h]

theorem findInodeNamed_congr {root root' : Inode} (hcount : fs'.dblockCount = fs.dblockCount)
    (hdata : fs'.data = fs.data) (h : SameEntries root root') (name : List UInt8) :
    findInodeNamed fs' root' name = findInodeNamed fs root name := by
  have hscan : ∀ rounds indirect count size node,
      scanBlocks fs' root' name rounds indirect count size node =
        scanBlocks fs root name rounds indirect count size node := by
    intro rounds
    induction rounds with
    | zero => intros; rfl
    | succ rounds ih =>
      intro indirect count size node
      rw [scanBlocks, scanBlocks, h.direct, h.indirect, hdata]
      simp only [ih, blockArray, block_congr hcount, hdata, h.direct, h.indirect]
  rw [findInodeNamed, findInodeNamed, hscan, h.size]

theorem walk_congr (hdir : ∀ i, isDirectory (fs'.inodes i) = isDirectory (fs.inodes i))
    (hsearch : ∀ i tok, findInodeNamed fs' (fs'.inodes i) tok =
      findInodeNamed fs (fs.inodes i) tok) (toks : List (List UInt8)) (n : Int) :
    walk fs' toks n = walk fs toks n := by
  induction toks generalizing n with
  | nil => rfl
  | cons tok toks ih =>
    have hrest : walk fs' toks = walk fs toks := funext ih
    rw [walk, walk]
    refine Option.bind_congr fun i _ => ?_
    rw [hdir, hsearch, hrest]

/-- **Paths depend on the directories only.** -/
theorem getInode_congr (hcount : fs'.dblockCount = fs.dblockCount) (hdata : fs'.data = fs.data)
    (h : ∀ n, SameEntries (fs.inodes n) (fs'.inodes n)) (path : List UInt8) :
    getInode fs' path = getInode fs path := by
  have hwalk := @walk_congr fs fs'
    (fun i => by rw [isDirectory, isDirectory, Inode.type, Inode.type, (h i).mode])
    (fun i tok => findInodeNamed_congr hcount hdata (h i) tok)
  cases path with
  | nil => rfl
  | cons c path =>
    rw [getInode, getInode]
    split_ifs
    · rfl
    · exact hwalk _ _

end Congr

end SystemProgramming.Minixfs
