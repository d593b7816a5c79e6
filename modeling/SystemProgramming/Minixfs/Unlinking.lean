import Mathlib.Tactic
import SystemProgramming.Minixfs.Listing
import SystemProgramming.Minixfs.Removing

/-!
# Removing names

`minixfs_unlink` looks for the entry with the inode number of the file, moves the rest of its
block one entry to the front, and takes one entry off the size of the directory. The entries
of the later blocks stay where they are, so the directory loses its last entry, whichever it
is, and in the last block of a shift the entry before it stays twice. Behind the direct slots
of the directory the search goes on in the slots of the file, and moves nothing.

## Main definitions

* `shifted`: the entry that lies at a position after the removal

## Main results

* `unlinkBlocks_found`, `unlinkBlocks_passed`: the search for the entry
* `Tree.listing_unlink`: the directory after the removal
* `unlink_names_iff`
-/

namespace SystemProgramming.Minixfs

/-! ## The search for the entry -/

section Search

variable {data : Memory} {a i k m t target : Nat} {dirents : Option Dirent} {nums : Nat → Nat}

/-- Entries with other numbers are passed. -/
theorem unlinkBlock_miss (him : i ≤ m) (hnums : ∀ j < m, j < i + k →
      (makeDirentFromString data (a + fileNameEntry * j)).map Dirent.inodeNum =
        some (nums j : Int))
    (hmiss : ∀ j < m, j < i + k → nums j ≠ target) :
    ∃ d, unlinkBlock data a (fileNameEntry * m) target k (fileNameEntry * i) dirents =
      some (.inr (fileNameEntry * min (i + k) m, d)) := by
  induction k generalizing i dirents with
  | zero =>
    refine ⟨dirents, ?_⟩
    rw [unlinkBlock, Nat.add_zero, min_eq_left him]
  | succ k ih =>
    rw [unlinkBlock]
    by_cases hlt : i < m
    · rw [if_pos (Nat.mul_lt_mul_of_pos_left hlt (by decide))]
      obtain ⟨d, hd, hnum⟩ := Option.map_eq_some_iff.mp (hnums i hlt (by omega))
      have hne : d.inodeNum ≠ (target : Int) := by
        rw [hnum]
        exact fun h => hmiss i hlt (by omega) (Int.ofNat_inj.mp h)
      rw [hd, Option.some_or, Option.bind_eq_bind, Option.bind_some, if_neg hne, ← Nat.mul_succ]
      have hround : i + 1 + k = i + (k + 1) := by omega
      have hnext := @ih (i + 1) (some d) (by omega)
        (fun j hj hjk => hnums j hj (by omega)) fun j hj hjk => hmiss j hj (by omega)
      rwa [hround] at hnext
    · have him' : i = m := by omega
      rw [if_neg (by rw [him']; exact lt_irrefl _), min_eq_right (by omega), him']
      exact ⟨dirents, rfl⟩

/-- The entry with the number is found, and the rest of the block moves. -/
theorem unlinkBlock_hit (ht : t < m) (hnums : ∀ j ≤ t,
      (makeDirentFromString data (a + fileNameEntry * j)).map Dirent.inodeNum =
        some (nums j : Int))
    (htarget : nums t = target) (hmiss : ∀ j < t, nums j ≠ target) (hit : i ≤ t) (htk : t < i + k) :
    unlinkBlock data a (fileNameEntry * m) target k (fileNameEntry * i) dirents =
      some (.inl (data.copy (a + fileNameEntry * t) (a + fileNameEntry * t + fileNameEntry)
        (blockSize - fileNameEntry * t - fileNameEntry))) := by
  induction k generalizing i dirents with
  | zero => omega
  | succ k ih =>
    rw [unlinkBlock, if_pos (Nat.mul_lt_mul_of_pos_left (lt_of_le_of_lt hit ht) (by decide))]
    obtain ⟨d, hd, hnum⟩ := Option.map_eq_some_iff.mp (hnums i hit)
    rw [hd, Option.some_or, Option.bind_eq_bind, Option.bind_some, hnum]
    by_cases hlast : i = t
    · rw [hlast, htarget, if_pos rfl]
    · have hne : (nums i : Int) ≠ target := fun h => hmiss i (by omega) (Int.ofNat_inj.mp h)
      rw [if_neg hne, ← Nat.mul_succ]
      exact ih (by omega) (by omega)

end Search

section Blocks

variable {fs : FileSystem} {node : Inode} {d entries k q rounds : Nat} {names : Nat → List UInt8}
  {nums : Nat → Nat} {dirents : Option Dirent}

/-- The numbers of the entries of a block. -/
theorem Listing.numbers (h : Listing fs d entries names nums) {b : Nat}
    (hb : slot (fs.inodes d) fs.data q = b) {j : Nat} (hj : j < blockEntries)
    (hlt : blockEntries * q + j < entries) :
    (makeDirentFromString fs.data (blockSize * b + fileNameEntry * j)).map Dirent.inodeNum =
      some (nums (blockEntries * q + j) : Int) := by
  rw [← entryAddr_add hj hb, (h.entry _ hlt).number]
  rfl

/-- The search in a direct slot of the directory. -/
theorem Listing.unlinkBlock (h : Listing fs d entries names nums) (hq : q < numDirectBlocks)
    (hlt : blockEntries * q < entries) : ∃ b : Nat, slot (fs.inodes d) fs.data q = b ∧
      blockArray fs (fs.inodes d) false q = some (b : Int) ∧ fs.block (b : Int) = some b := by
  obtain ⟨-, b, hb, hb'⟩ := h.slots q hlt
  refine ⟨b, hb, ?_, block_natCast hb'⟩
  rw [slot_of_lt hq] at hb
  rw [blockArray, if_neg Bool.false_ne_true, hb]

/-- What remains of the size after a block. -/
theorem size_sub_block (hlt : blockEntries * q < entries) (hmax : entries ≤ 22 * blockEntries) :
    (fileNameEntry * (entries - blockEntries * q) + 2 ^ 64 -
        fileNameEntry * min (0 + blockEntries) (entries - blockEntries * q)) % 2 ^ 64 =
      fileNameEntry * (entries - blockEntries * (q + 1)) := by
  simp only [blockEntries, blockSize, fileNameEntry] at *
  omega

/-- **The entry is found in a direct slot.** -/
theorem unlinkBlocks_found (h : Listing fs d entries names nums) (hk : k < entries)
    (hdirect : k / blockEntries < numDirectBlocks) (hq : q ≤ k / blockEntries)
    (hrounds : k / blockEntries < q + rounds) :
    unlinkBlocks fs (fs.inodes d) node (nums k) rounds false q
        (fileNameEntry * (entries - blockEntries * q)) dirents =
      some (fs.data.copy (entryAddr fs (fs.inodes d) k)
        (entryAddr fs (fs.inodes d) k + fileNameEntry)
        (blockSize - fileNameEntry * (k % blockEntries) - fileNameEntry)) := by
  induction rounds generalizing q dirents with
  | zero => omega
  | succ rounds ih =>
    have hdiv := Nat.div_add_mod k blockEntries
    have hmod : k % blockEntries < blockEntries := Nat.mod_lt _ (by decide)
    have hlt : blockEntries * q < entries :=
      lt_of_le_of_lt ((Nat.mul_le_mul_left _ hq).trans (by omega)) hk
    obtain ⟨b, hb, harray, hblock⟩ := h.unlinkBlock (lt_of_le_of_lt hq hdirect) hlt
    have hsize : fileNameEntry * (entries - blockEntries * q) ≠ 0 :=
      Nat.mul_ne_zero (by decide) (by omega)
    rw [unlinkBlocks, if_neg hsize, if_neg Bool.false_ne_true, harray, Option.bind_eq_bind,
      Option.bind_some, hblock, Option.bind_eq_bind, Option.bind_some]
    change (unlinkBlock fs.data (blockSize * b) (fileNameEntry * (entries - blockEntries * q))
      (nums k) blockEntries (fileNameEntry * 0) dirents).bind _ = _
    by_cases hlast : q = k / blockEntries
    · rw [← hlast] at hdiv
      have hhit := @unlinkBlock_hit fs.data (blockSize * b) 0 blockEntries
        (entries - blockEntries * q) (k % blockEntries) (nums k) dirents
        (fun j => nums (blockEntries * q + j)) (by omega) (fun j hj => h.numbers hb (by omega) (by omega)) (by rw [hdiv])
        (fun j hj heq => by have := h.nums_inj _ (by omega) _ hk heq; omega) (Nat.zero_le _)
        (by omega)
      have haddr : entryAddr fs (fs.inodes d) k =
          blockSize * b + fileNameEntry * (k % blockEntries) := by
        rw [← entryAddr_add hmod hb, hdiv]
      rw [hhit, haddr]
      rfl
    · obtain ⟨d', hmiss⟩ := @unlinkBlock_miss fs.data (blockSize * b) 0 blockEntries
        (entries - blockEntries * q) (nums k) dirents (fun j => nums (blockEntries * q + j))
        (Nat.zero_le _)
        (fun j hj hjk => h.numbers hb (by omega) (by omega))
        (fun j hj hjk heq => by
          have hsame := h.nums_inj _ (by omega) _ hk heq
          have hq' : q + 1 ≤ k / blockEntries := by omega
          have hle := Nat.mul_le_mul_left blockEntries hq'
          rw [Nat.mul_succ] at hle
          omega)
      rw [hmiss, Option.bind_some]
      dsimp only
      rw [size_sub_block hlt h.bound, if_pos (by omega)]
      exact ih (by omega) (by omega)

/-- **Behind the direct slots the search goes on in the slots of the file.** -/
theorem unlinkBlocks_passed (node : Inode) (dirents : Option Dirent)
    (h : Listing fs d entries names nums) (hk : k < entries)
    (hlate : numDirectBlocks ≤ k / blockEntries) (hq : q < numDirectBlocks)
    (hrounds : numDirectBlocks ≤ q + rounds) :
    ∃ rounds' d', unlinkBlocks fs (fs.inodes d) node (nums k) rounds false q
        (fileNameEntry * (entries - blockEntries * q)) dirents =
      if node.indirect = unassignedNode then some fs.data
      else unlinkBlocks fs (fs.inodes d) node (nums k) rounds' true 0
        (fileNameEntry * (entries - blockEntries * numDirectBlocks)) d' := by
  induction rounds generalizing q dirents with
  | zero => omega
  | succ rounds ih =>
    have hdiv := Nat.div_add_mod k blockEntries
    have hq' : q + 1 ≤ k / blockEntries := by omega
    have hle := Nat.mul_le_mul_left blockEntries hq'
    rw [Nat.mul_succ] at hle
    have hlt : blockEntries * q < entries := by omega
    obtain ⟨b, hb, harray, hblock⟩ := h.unlinkBlock hq hlt
    have hsize : fileNameEntry * (entries - blockEntries * q) ≠ 0 :=
      Nat.mul_ne_zero (by decide) (by omega)
    rw [unlinkBlocks, if_neg hsize, if_neg Bool.false_ne_true, harray, Option.bind_eq_bind,
      Option.bind_some, hblock, Option.bind_eq_bind, Option.bind_some]
    change ∃ rounds' d', (unlinkBlock fs.data (blockSize * b)
      (fileNameEntry * (entries - blockEntries * q)) (nums k) blockEntries (fileNameEntry * 0)
      dirents).bind _ = _
    obtain ⟨d', hmiss⟩ := @unlinkBlock_miss fs.data (blockSize * b) 0 blockEntries
      (entries - blockEntries * q) (nums k) dirents (fun j => nums (blockEntries * q + j))
      (Nat.zero_le _)
      (fun j hj hjk => h.numbers hb (by omega) (by omega))
      (fun j hj hjk heq => by
        have hsame := h.nums_inj _ (by omega) _ hk heq
        omega)
    rw [hmiss, Option.bind_some]
    dsimp only
    rw [size_sub_block hlt h.bound]
    by_cases hnext : q + 1 < numDirectBlocks
    · rw [if_pos hnext]
      exact ih d' hnext (by omega)
    · have hlast : q + 1 = numDirectBlocks := by omega
      rw [if_neg hnext, hlast]
      exact ⟨rounds, d', rfl⟩

end Blocks

/-! ## The directory after the removal -/

/-- The entry that lies at position `j` after the removal of the entry `k`. -/
def shifted (k j : Nat) : Nat :=
  if k / blockEntries < numDirectBlocks ∧ j / blockEntries = k / blockEntries ∧ k ≤ j ∧
    j % blockEntries + 1 < blockEntries then j + 1 else j

section Shift

variable {fs : FileSystem} {d n entries j k : Nat} {names : Nat → List UInt8} {nums : Nat → Nat}
  {data : Memory}

/-- Where an entry of a directory lies. -/
theorem Listing.entryAddr_eq (h : Listing fs d entries names nums) (hlive : fs.Live d)
    (hj : j < entries) : ∃ b : Nat, ref fs (d, .slot (j / blockEntries)) = b ∧
      entryAddr fs (fs.inodes d) j = blockSize * b + fileNameEntry * (j % blockEntries) := by
  have hdiv := Nat.div_add_mod j blockEntries
  obtain ⟨-, b, hb, -⟩ := h.slots (j / blockEntries) (by omega)
  refine ⟨b, (ref_of_live hlive _).trans hb, ?_⟩
  rw [← entryAddr_add (Nat.mod_lt _ (by decide)) hb, hdiv]

/-- Two slots of a directory that hold one block. -/
theorem slot_inj (hwf : WellFormed fs) {x y : Nat × Place} {b : Nat}
    (hx : ref fs x = b) (hy : ref fs y = b) : x = y := by
  refine hwf.owned.inj x y ?_ (hx.trans hy.symm)
  rw [hx, unassignedNode]
  omega

/-- The move within a block. -/
theorem copy_entry (hwf : WellFormed fs) (h : Listing fs d entries names nums)
    (hlive : fs.Live d) (hk : k < entries) (hj : j + 1 < entries)
    (hdirect : k / blockEntries < numDirectBlocks) {i : Nat} (hi : i < fileNameEntry) :
    fs.data.copy (entryAddr fs (fs.inodes d) k) (entryAddr fs (fs.inodes d) k + fileNameEntry)
        (blockSize - fileNameEntry * (k % blockEntries) - fileNameEntry)
        (entryAddr fs (fs.inodes d) j + i) =
      fs.data (entryAddr fs (fs.inodes d) (shifted k j) + i) := by
  have hkmod : k % blockEntries < blockEntries := Nat.mod_lt _ (by decide)
  have hjmod : j % blockEntries < blockEntries := Nat.mod_lt _ (by decide)
  have hkdiv := Nat.div_add_mod k blockEntries
  have hjdiv := Nat.div_add_mod j blockEntries
  obtain ⟨b, hb, hkaddr⟩ := h.entryAddr_eq hlive hk
  obtain ⟨c, hc, hjaddr⟩ := h.entryAddr_eq hlive (show j < entries by omega)
  by_cases hsame : j / blockEntries = k / blockEntries
  · have hbc : b = c := by
      rw [hsame] at hc
      exact Int.ofNat_inj.mp (hb.symm.trans hc)
    subst hbc
    rw [hsame] at hjdiv
    by_cases hmoved : k ≤ j ∧ j % blockEntries + 1 < blockEntries
    · have hshift : shifted k j = j + 1 := if_pos ⟨hdirect, hsame, hmoved⟩
      have hnext : (j + 1) / blockEntries = k / blockEntries ∧
          (j + 1) % blockEntries = j % blockEntries + 1 := by
        have hj1 : j + 1 = blockEntries * (k / blockEntries) + (j % blockEntries + 1) := by omega
        rw [hj1, Nat.mul_add_div (by decide), Nat.div_eq_of_lt hmoved.2, Nat.mul_add_mod,
          Nat.mod_eq_of_lt hmoved.2]
        exact ⟨Nat.add_zero _, rfl⟩
      obtain ⟨b', hb', haddr⟩ := h.entryAddr_eq hlive hj
      rw [hnext.1] at hb'
      obtain rfl : b = b' := Int.ofNat_inj.mp (hb.symm.trans hb')
      have hsrc : entryAddr fs (fs.inodes d) k + fileNameEntry + (entryAddr fs (fs.inodes d) j + i -
          entryAddr fs (fs.inodes d) k) = entryAddr fs (fs.inodes d) (j + 1) + i := by
        rw [haddr, hjaddr, hkaddr, hnext.2]
        simp only [fileNameEntry]
        omega
      rw [hshift, ← hsrc, Memory.copy_of_mem]
      rw [hjaddr, hkaddr]
      simp only [fileNameEntry, blockSize, blockEntries] at hmoved hkmod hjdiv hkdiv hi ⊢
      omega
    · have hshift : shifted k j = j := if_neg fun hall => hmoved hall.2.2
      rw [hshift, Memory.copy_of_not_mem]
      simp only [fileNameEntry, blockSize, blockEntries] at *
      omega
  · have hshift : shifted k j = j := if_neg fun hall => hsame hall.2.1
    have hbc : b ≠ c := by
      rintro rfl
      have heq := slot_inj hwf hc hb
      exact hsame (Place.slot.inj (Prod.mk.inj heq).2)
    rw [hshift, Memory.copy_of_not_mem]
    simp only [fileNameEntry, blockSize, blockEntries] at *
    omega

/-- **What lies at a position of the directory after the removal.** -/
theorem unlinkBlocks_entry (hwf : WellFormed fs) (h : Listing fs d entries names nums)
    (hlive : fs.Live d) (hk : k < entries) (hn : nums k = n) (hnlive : fs.Live n) (hne : n ≠ d)
    (hdata : unlinkBlocks fs (fs.inodes d) (fs.inodes n) n maxRounds false 0 (fs.inodes d).size
      none = some data) (hj : j + 1 < entries) {i : Nat} (hi : i < fileNameEntry) :
    data (entryAddr fs (fs.inodes d) j + i) =
      fs.data (entryAddr fs (fs.inodes d) (shifted k j) + i) := by
  have hsize : (fs.inodes d).size = fileNameEntry * (entries - blockEntries * 0) := h.size
  have hlarge : numDirectBlocks ≤ maxRounds := by
    simp only [numDirectBlocks, maxRounds]
    omega
  rw [hsize, ← hn] at hdata
  by_cases hdirect : k / blockEntries < numDirectBlocks
  · rw [unlinkBlocks_found h hk hdirect (Nat.zero_le _) (by omega)] at hdata
    rw [← Option.some.inj hdata]
    exact copy_entry hwf h hlive hk hj hdirect hi
  · have hshift : shifted k j = j := if_neg fun hall => hdirect hall.1
    obtain ⟨rounds, dirents, hpassed⟩ := unlinkBlocks_passed (fs.inodes (nums k)) none h hk
      (not_lt.mp hdirect) (show 0 < numDirectBlocks by decide)
      (show numDirectBlocks ≤ 0 + maxRounds by omega)
    rw [hpassed] at hdata
    rw [hshift]
    split_ifs at hdata with hind
    · rw [← Option.some.inj hdata]
    · -- what moves now is a block of the file
      obtain ⟨c, hc, haddr⟩ := h.entryAddr_eq hlive (show j < entries by omega)
      have hjmod : j % blockEntries < blockEntries := Nat.mod_lt _ (by decide)
      refine unlinkBlocks_frame (by decide) hdata fun b flag hflag hb hmem => ?_
      obtain rfl := hflag rfl
      obtain ⟨q, hq⟩ := slot_of_moved (hn ▸ hnlive) hlive hb
      rw [if_pos rfl, hn] at hq
      have hbc : b ≠ c := by
        rintro rfl
        have heq := slot_inj hwf hq hc
        exact hne (Prod.mk.inj heq).1
      simp only [fileNameEntry, blockSize, blockEntries] at *
      omega

end Shift

/-! ## The file system after the removal -/

/-- What the removal of the entry `k` of the directory `d` leaves. -/
structure Unlinked (fs fs' : FileSystem) (d entries k : Nat) (nums : Nat → Nat) : Prop where
  count : fs'.dblockCount = fs.dblockCount
  parent : fs'.inodes d = { fs.inodes d with size := fileNameEntry * (entries - 1) }
  others : ∀ e, e ≠ d → e ≠ nums k → fs'.inodes e = fs.inodes e
  data : unlinkBlocks fs (fs.inodes d) (fs.inodes (nums k)) (nums k) maxRounds false 0
    (fs.inodes d).size none = some fs'.data

section Unlink

variable {fs fs' : FileSystem} {d entries k : Nat} {names : Nat → List UInt8} {nums : Nat → Nat}
  {path name : List UInt8} {r : Int}

theorem unlinked (h : Listing fs d entries names nums) (hk : k < entries)
    (hne : nums k ≠ d) (hlt : nums k < inodesNumber)
    (hpath : getInode fs path = some (some (nums k : Int)))
    (hparent : parentDirectory fs path = some (some (d : Int), name))
    (hunlink : minixfsUnlink fs path = some (fs', r)) : Unlinked fs fs' d entries k nums := by
  obtain ⟨-, m, name', data, hparent', -, hdata, hfree⟩ :=
    minixfsUnlink_eq_some hpath hlt hunlink
  obtain rfl : d = m := by
    have hpair := (Prod.mk.inj (Option.some.inj (hparent.symm.trans hparent'))).1
    exact Int.ofNat_inj.mp (Option.some.inj hpair)
  have hsize : ((fs.inodes d).size + 2 ^ 64 - fileNameEntry) % 2 ^ 64 =
      fileNameEntry * (entries - 1) := by
    have hbound := h.bound
    rw [h.size]
    simp only [blockEntries, blockSize, fileNameEntry] at *
    omega
  rw [hsize] at hfree
  obtain ⟨hcount, hdata', hinodes⟩ := freeInode_frame hfree
  refine ⟨hcount, ?_, fun e hed hen => ?_, hdata' ▸ hdata⟩
  · rw [hinodes, Function.update_of_ne hne.symm]
    exact FileSystem.setInode_self _ _ _
  · rw [hinodes, Function.update_of_ne hen]
    exact FileSystem.setInode_of_ne _ _ hed

/-- The entries of the directory after the removal. -/
theorem Unlinked.entries_after (hu : Unlinked fs fs' d entries k nums) (hwf : WellFormed fs)
    (h : Listing fs d entries names nums) (hlive : fs.Live d) (hk : k < entries)
    (hnlive : fs.Live (nums k)) (hne : nums k ≠ d) :
    Entries fs' d (entries - 1) (fun j => names (shifted k j)) fun j => nums (shifted k j) := by
  have hpointer : ref fs (d, .pointer) = (fs.inodes d).indirect := ref_of_live hlive _
  have hslot : ∀ q, slot (fs'.inodes d) fs'.data q = slot (fs.inodes d) fs.data q := by
    intro q
    rw [hu.parent]
    refine slot_congr (fun _ => rfl) rfl fun hassigned i hi => ?_
    have hsame := hwf.sameBlock_unlinkBlocks hnlive hlive hu.data (hpointer ▸ hassigned)
      fun k => ⟨(fun heq => by cases heq), (fun heq => by cases heq)⟩
    rw [← hpointer]
    exact (hsame i hi).symm
  have hsub : entries - 1 < entries := by omega
  refine ⟨⟨by rw [hu.parent], hsub.le.trans h.bound, fun q hq => ?_, fun hmany => ?_⟩,
    fun j hj => ?_⟩
  · rw [hslot, hu.count]
    exact h.slots q (hq.trans hsub)
  · rw [hu.parent, hu.count]
    exact h.pointer (hmany.trans hsub)
  · have haddr : entryAddr fs' (fs'.inodes d) j = entryAddr fs (fs.inodes d) j := by
      rw [entryAddr, entryAddr, hslot]
    have hshift : shifted k j < entries := by
      rw [shifted]
      split_ifs <;> omega
    refine (h.entry _ hshift).copy fun i hi => ?_
    rw [haddr]
    exact unlinkBlocks_entry hwf h hlive hk rfl hnlive hne hu.data (by omega) hi

/-- The other directories stay as they are. -/
theorem Unlinked.frame (hu : Unlinked fs fs' d entries k nums) (hwf : WellFormed fs)
    (hlive : fs.Live d) (hnlive : fs.Live (nums k)) {e entries' : Nat}
    {names' : Nat → List UInt8} {nums' : Nat → Nat} (h : Entries fs e entries' names' nums')
    (helive : fs.Live e) (hed : e ≠ d) (hen : e ≠ nums k) :
    Entries fs' e entries' names' nums' := by
  have hpointer : ref fs (e, .pointer) = (fs.inodes e).indirect := ref_of_live helive _
  have hsame : SameEntries (fs.inodes e) (fs'.inodes e) := by
    rw [hu.others e hed hen]
    exact ⟨rfl, rfl, rfl, rfl⟩
  refine h.frame hu.count hsame (fun hassigned i hi => ?_) fun q hq i hi => ?_
  · rw [← hpointer]
    exact (hwf.sameBlock_unlinkBlocks hnlive hlive hu.data (hpointer ▸ hassigned)
      (fun k => ⟨(fun heq => by cases heq), (fun heq => by cases heq)⟩) i hi).symm
  · have hslot : ref fs (e, .slot q) = slot (fs.inodes e) fs.data q := ref_of_live helive _
    rw [← hslot]
    exact (hwf.sameBlock_unlinkBlocks hnlive hlive hu.data (hslot ▸ (h.slots q hq).1)
      (fun k => ⟨fun heq => hed (Prod.mk.inj heq).1, fun heq => hen (Prod.mk.inj heq).1⟩) i
      hi).symm

theorem shifted_lt {i : Nat} (hi : i + 1 < entries) : shifted k i < entries := by
  rw [shifted]
  split_ifs <;> omega

/-- A name that is still there. -/
theorem Unlinked.findInodeNamed (hu : Unlinked fs fs' d entries k nums) (hwf : WellFormed fs)
    (h : Listing fs d entries names nums) (hlive : fs.Live d) (hk : k < entries)
    (hnlive : fs.Live (nums k)) (hne : nums k ≠ d) {i : Nat} (hi : i + 1 < entries) :
    Minixfs.findInodeNamed fs' (fs'.inodes d) (names (shifted k i)) =
      some (some (nums (shifted k i) : Int)) := by
  have hj := @shifted_lt entries k i hi
  rw [(hu.entries_after hwf h hlive hk hnlive hne).findInodeNamed_eq (h.entry _ hj).nonzero]
  obtain ⟨v, hv⟩ : ∃ v, (List.range (entries - 1)).findSome? (fun i' =>
      if names (shifted k i) = names (shifted k i') then some (nums (shifted k i') : Int)
      else none) = some v := by
    rw [← Option.isSome_iff_exists, List.findSome?_isSome_iff]
    exact ⟨i, List.mem_range.mpr (by omega), by rw [if_pos rfl]; rfl⟩
  obtain ⟨i', hi', hval⟩ := List.exists_of_findSome?_eq_some hv
  have hlt : i' + 1 < entries := by
    have hrange := List.mem_range.mp hi'
    omega
  split_ifs at hval with hname
  rw [hv, ← Option.some.inj hval, ← h.names_inj _ hj _ (shifted_lt hlt) hname]

/-- A name that is gone. -/
theorem Unlinked.findInodeNamed_none (hu : Unlinked fs fs' d entries k nums) (hwf : WellFormed fs)
    (h : Listing fs d entries names nums) (hlive : fs.Live d) (hk : k < entries)
    (hnlive : fs.Live (nums k)) (hne : nums k ≠ d) {j : Nat} (hj : j < entries)
    (hgone : ∀ i, i + 1 < entries → shifted k i ≠ j) :
    Minixfs.findInodeNamed fs' (fs'.inodes d) (names j) = some none := by
  rw [(hu.entries_after hwf h hlive hk hnlive hne).findInodeNamed_eq (h.entry j hj).nonzero]
  refine congrArg some (List.findSome?_eq_none_iff.mpr fun i hi => ?_)
  have hlt : i + 1 < entries := by
    have hrange := List.mem_range.mp hi
    omega
  exact if_neg fun hname => hgone i hlt (h.names_inj j hj _ (shifted_lt hlt) hname).symm

/-- Which entries are still there. -/
theorem shifted_iff (hk : k < entries) :
    ((∀ i, i + 1 < entries → shifted k i ≠ k) ∧
      ∀ j < entries, j ≠ k → ∃ i, i + 1 < entries ∧ shifted k i = j) ↔
    k + 1 = entries ∨
      k / blockEntries = (entries - 1) / blockEntries ∧ k / blockEntries < numDirectBlocks := by
  have hblock : blockEntries = 64 := rfl
  simp only [shifted, hblock]
  constructor
  · rintro ⟨-, hall⟩
    by_cases hlast : k + 1 = entries
    · exact Or.inl hlast
    -- the last entry must have moved to the front
    obtain ⟨i, hi, hshift⟩ := hall (entries - 1) (by omega) (by omega)
    split_ifs at hshift with hmoved
    · exact Or.inr ⟨by omega, hmoved.1⟩
    · omega
  · rintro (hlast | ⟨hsame, hdirect⟩)
    · refine ⟨fun i hi => ?_, fun j hj hjk => ⟨j, by omega, if_neg (by omega)⟩⟩
      rw [if_neg (by omega)]
      omega
    · refine ⟨fun i hi => ?_, fun j hj hjk => ?_⟩
      · split_ifs with hmoved
        · omega
        · exact fun heq => hmoved ⟨hdirect, by omega, by omega, by omega⟩
      · rcases Nat.lt_or_gt_of_ne hjk with hlt | hgt
        · exact ⟨j, by omega, if_neg (by omega)⟩
        · refine ⟨j - 1, by omega, ?_⟩
          rw [if_pos ⟨hdirect, by omega, by omega, by omega⟩]
          omega

theorem not_isDirectory_of_isFile {node : Inode} (h : isFile node = true) :
    isDirectory node = false := by
  rw [isFile, beq_iff_eq] at h
  rw [isDirectory, h]
  decide

/-- A directory entry is looked up through the path of the directory. -/
theorem getInode_entry {p : List UInt8} {i : Int} (hd : d < inodesNumber)
    (hp : getInode fs (p ++ [47]) = some (some (d : Int)))
    (hdir : isDirectory (fs.inodes d) = true) (hname : validFilename name = true)
    (hfind : findInodeNamed fs (fs.inodes d) name = some (some i)) :
    getInode fs (p ++ 47 :: name) = some (some i) := by
  rw [getInode_snoc hp hname, walk_of_some (inode?_natCast hd) hdir hfind, walk_nil]

theorem getInode_entry_none {p : List UInt8} (hd : d < inodesNumber)
    (hp : getInode fs (p ++ [47]) = some (some (d : Int)))
    (hdir : isDirectory (fs.inodes d) = true) (hname : validFilename name = true)
    (hfind : findInodeNamed fs (fs.inodes d) name = some none) :
    getInode fs (p ++ 47 :: name) = some none := by
  rw [getInode_snoc hp hname, walk_of_none (inode?_natCast hd) hdir hfind]

/-- The path of the directory is not affected. -/
theorem Unlinked.getInode_parent (hu : Unlinked fs fs' d entries k nums) (h : Tree fs)
    (hlive : fs.Live d) (hnlive : fs.Live (nums k)) (hfile : isFile (fs.inodes (nums k)) = true)
    {p : List UInt8} (hzero : (0 : UInt8) ∉ p)
    (hp : getInode fs (p ++ [47]) = some (some (d : Int))) :
    getInode fs' (p ++ [47]) = some (some (d : Int)) := by
  have hhead := getInode_eq_walk hp
  obtain ⟨rank, hdirs⟩ := h.directories
  obtain ⟨i, hi, hlt, hroot⟩ := h.resolves [] 0 rfl
  obtain rfl : i = 0 := by omega
  have htoks : ∀ tok ∈ tokens (p ++ 47 :: []), (0 : UInt8) ∉ tok := by
    intro tok htok hmem
    rcases List.mem_append.mp (mem_of_mem_tokens htok hmem) with hmem | hmem
    · exact hzero hmem
    · exact absurd (List.mem_singleton.mp hmem) (by decide)
  rw [getInode_slash hhead] at hp ⊢
  refine walk_frame hdirs (fun e hed helive hedir => ?_) hroot hlt htoks hp
  have hen : e ≠ nums k := by
    rintro rfl
    rw [not_isDirectory_of_isFile hfile] at hedir
    cases hedir
  obtain ⟨entries', names', nums', hlist, -⟩ := hdirs e helive hedir
  have hafter := hu.frame h.toWellFormed hlive hnlive hlist.toEntries helive hed hen
  refine ⟨by rwa [hu.others e hed hen], fun tok htok => ?_⟩
  rw [hafter.findInodeNamed_eq htok, hlist.findInodeNamed_eq htok]

/-- The lookups of the entries of the directory, before and after the removal. -/
theorem lookups_unlink (h : Tree fs) (hzero : (0 : UInt8) ∉ path)
    (hdir : isDirectory (fs.inodes d) = true) (hlist : Listing fs d entries names nums)
    (hk : k < entries) (hfile : isFile (fs.inodes (nums k)) = true)
    (hparent : parentDirectory fs path = some (some (d : Int), names k))
    (hunlink : minixfsUnlink fs path = some (fs', r)) :
    ∃ p, path = p ++ 47 :: names k ∧ path.take (path.length - (names k).length) = p ++ [47] ∧
      (∀ j < entries, getInode fs (p ++ 47 :: names j) = some (some (nums j : Int))) ∧
      ∀ j < entries,
        (∃ i, i + 1 < entries ∧ shifted k i = j) ∧
            getInode fs' (p ++ 47 :: names j) = some (some (nums j : Int)) ∨
          (∀ i, i + 1 < entries → shifted k i ≠ j) ∧
            getInode fs' (p ++ 47 :: names j) = some none := by
  have hwf := h.toWellFormed
  obtain ⟨p, hsplit, -, htake, hp⟩ := parentDirectory_eq_some hparent
  obtain ⟨i, hi, hd, hlive⟩ := hwf.resolves _ _ hp
  obtain rfl : d = i := Int.ofNat_inj.mp hi
  have hbefore := fun j (hj : j < entries) =>
    getInode_entry hd hp hdir (hlist.valid j hj) (hlist.findInodeNamed hj)
  have hpath : getInode fs path = some (some (nums k : Int)) := hsplit ▸ hbefore k hk
  obtain ⟨i, hi, hlt, hnlive⟩ := hwf.resolves _ _ hpath
  obtain rfl : nums k = i := Int.ofNat_inj.mp hi
  have hne : nums k ≠ d := by
    intro heq
    rw [heq] at hfile
    rw [not_isDirectory_of_isFile hfile] at hdir
    cases hdir
  have hu := unlinked hlist hk hne hlt hpath hparent hunlink
  have hpzero : (0 : UInt8) ∉ p := fun hmem => hzero (hsplit ▸ List.mem_append_left _ hmem)
  have hp' := hu.getInode_parent h hlive hnlive hfile hpzero hp
  have hdir' : isDirectory (fs'.inodes d) = true := by rwa [hu.parent]
  refine ⟨p, hsplit, htake, hbefore, fun j hj => ?_⟩
  by_cases hex : ∃ i, i + 1 < entries ∧ shifted k i = j
  · obtain ⟨i, hi, rfl⟩ := hex
    exact Or.inl ⟨⟨i, hi, rfl⟩, getInode_entry hd hp' hdir' (hlist.valid _ hj)
      (hu.findInodeNamed hwf hlist hlive hk hnlive hne hi)⟩
  · have hgone : ∀ i, i + 1 < entries → shifted k i ≠ j := fun i hi heq => hex ⟨i, hi, heq⟩
    exact Or.inr ⟨hgone, getInode_entry_none hd hp' hdir' (hlist.valid j hj)
      (hu.findInodeNamed_none hwf hlist hlive hk hnlive hne hj hgone)⟩

/-- **Removing a file removes its name and no other only near the end of the directory.** In a
well-formed file system the path of the removed file leads nowhere afterwards and all other
names of its directory lead to the same inodes as before exactly if the entry was the last
one, or lay in the same block as the last one and in a direct slot. -/
theorem unlink_names_iff (h : Tree fs) (hzero : (0 : UInt8) ∉ path)
    (hdir : isDirectory (fs.inodes d) = true) (hlist : Listing fs d entries names nums)
    (hk : k < entries) (hfile : isFile (fs.inodes (nums k)) = true)
    (hparent : parentDirectory fs path = some (some (d : Int), names k))
    (hunlink : minixfsUnlink fs path = some (fs', r)) :
    (getInode fs' path = some none ∧ ∀ j < entries, j ≠ k →
        getInode fs' (path.take (path.length - (names k).length) ++ names j) =
          getInode fs (path.take (path.length - (names k).length) ++ names j)) ↔
      k + 1 = entries ∨
        k / blockEntries = (entries - 1) / blockEntries ∧ k / blockEntries < numDirectBlocks := by
  obtain ⟨p, hsplit, htake, hbefore, hafter⟩ :=
    lookups_unlink h hzero hdir hlist hk hfile hparent hunlink
  have happend : ∀ name : List UInt8, p ++ [47] ++ name = p ++ 47 :: name := fun name => by simp
  rw [← shifted_iff hk, htake]
  simp only [happend]
  refine and_congr ?_ (forall_congr' fun j => forall_congr' fun hj => forall_congr' fun _ => ?_)
  · rw [hsplit]
    rcases hafter k hk with ⟨⟨i, hi, hik⟩, hstill⟩ | ⟨hgone, hnone⟩
    · rw [hstill]
      exact iff_of_false (fun h => by cases h) fun hgone => hgone i hi hik
    · exact iff_of_true hnone hgone
  · rw [hbefore j hj]
    rcases hafter j hj with ⟨hex, hstill⟩ | ⟨hgone, hnone⟩
    · exact iff_of_true hstill hex
    · rw [hnone]
      exact iff_of_false (fun h => by cases h) fun ⟨i, hi, hij⟩ => hgone i hi hij

end Unlink

/-! ## A directory of empty files -/

/-- Two blocks of entries: the entry `k` has a name of one character, and the number `k + 1`. -/
def manyData : Memory := fun a =>
  if a % fileNameEntry = 0 then UInt8.ofNat (65 + a / fileNameEntry)
  else if a % fileNameEntry < fileNameLength then 0
  else (hex8 (a / fileNameEntry + 1)).getD (a % fileNameEntry - fileNameLength) 0

/-- A root directory with the empty files `1` to `entries`. -/
def manyFiles (entries : Nat) : FileSystem where
  dblockCount := 2
  inodes := fun n =>
    if n = 0 then { rootInode 0 with
      size := fileNameEntry * entries
      direct := fun i => if i < 2 then i else unassignedNode }
    else if n ≤ entries then initInode 0 (rootInode 0)
    else blankInode
  data := manyData
  map := fun b => b < 2

def manyNames (k : Nat) : List UInt8 := [UInt8.ofNat (65 + k)]

section ManyFiles

variable {entries : Nat}

theorem live_manyFiles (n : Nat) : (manyFiles entries).Live n ↔ n ≤ entries := by
  rw [FileSystem.Live, manyFiles]
  dsimp only
  split_ifs with h₀ h₁
  · exact iff_of_true one_ne_zero (by omega)
  · exact iff_of_true one_ne_zero h₁
  · exact iff_of_false (fun h => h rfl) h₁

theorem ref_manyFiles (x : Nat × Place) : ref (manyFiles entries) x =
    if x = (0, .slot 0) then 0 else if x = (0, .slot 1) then 1 else unassignedNode := by
  obtain ⟨n, y⟩ := x
  by_cases hlive : (manyFiles entries).Live n
  case neg =>
    have hn : n ≠ 0 := fun h => hlive ((live_manyFiles n).mpr (h ▸ Nat.zero_le _))
    rw [ref_of_dead hlive]
    simp [hn]
  rw [ref_of_live hlive]
  have hind : ((manyFiles entries).inodes n).indirect = unassignedNode := by
    rw [manyFiles]
    dsimp only
    split_ifs with h₀ h₁
    · rfl
    · rfl
    · exact absurd ((live_manyFiles n).mp hlive) h₁
  cases y with
  | pointer => simpa [Inode.ref] using hind
  | slot k =>
    by_cases hk : k < numDirectBlocks
    · refine (slot_of_lt hk).trans ?_
      rw [manyFiles]
      dsimp only
      split_ifs with h₀ h₁ h₂ h₃ h₄ h₅ <;> simp_all [initInode]
      · omega
      · exact absurd ((live_manyFiles n).mp hlive) (by omega)
    · refine (slot_of_unassigned (not_lt.mp hk) hind).trans ?_
      have h₀ : k ≠ 0 := fun h => hk (h ▸ by decide)
      have h₁ : k ≠ 1 := fun h => hk (h ▸ by decide)
      simp [h₀, h₁]

theorem valid_manyNames {k : Nat} (hk : k < 128) :
    validFilename (manyNames k) = true ∧ (0 : UInt8) ∉ manyNames k := by
  have hnat : (UInt8.ofNat (65 + k)).toNat = 65 + k := UInt8.toNat_ofNat_of_lt' (by
    simp only [UInt8.size]
    omega)
  have hne : ∀ c : UInt8, c.toNat < 65 → c ∉ manyNames k := by
    intro c hc hmem
    rw [List.mem_singleton.mp hmem, hnat] at hc
    omega
  exact ⟨validFilename_iff.mpr ⟨List.cons_ne_nil _ _, hne 47 (by decide)⟩, hne 0 (by decide)⟩

theorem entryAt_manyData {k : Nat} (hk : k < 128) :
    EntryAt manyData (fileNameEntry * k) (manyNames k) (k + 1) := by
  have hbyte : ∀ i < fileNameEntry, manyData (fileNameEntry * k + i) =
      if i = 0 then UInt8.ofNat (65 + k) else if i < fileNameLength then 0
      else (hex8 (k + 1)).getD (i - fileNameLength) 0 := by
    intro i hi
    have hmod : (fileNameEntry * k + i) % fileNameEntry = i := by
      rw [Nat.mul_add_mod, Nat.mod_eq_of_lt hi]
    have hdiv : (fileNameEntry * k + i) / fileNameEntry = k := by
      rw [Nat.mul_add_div (by decide), Nat.div_eq_of_lt hi, Nat.add_zero]
    rw [manyData, hmod, hdiv]
  have hdigits : manyData.read (fileNameEntry * k + fileNameLength) inodeSize = hex8 (k + 1) := by
    refine Memory.read_eq_iff.mpr ⟨length_hex8 _, fun i hi => ?_⟩
    have hne : fileNameLength + i ≠ 0 := by
      simp only [fileNameLength]
      omega
    have hlt : fileNameLength + i < fileNameEntry := by
      simp only [fileNameLength, fileNameEntry, inodeSize] at *
      omega
    rw [Nat.add_assoc, hbyte _ hlt, if_neg hne, if_neg (by omega), Nat.add_sub_cancel_left]
  have hlen : (manyNames k).length = 1 := rfl
  refine ⟨?_, by rw [hlen]; decide, (valid_manyNames hk).2, fun i hi => ?_, ?_⟩
  · have hmod : (((k + 1 : Nat) : Int) % 2 ^ 32).toNat = k + 1 := by omega
    rw [makeDirentFromString, hdigits, strtoll16_hex8 (by omega), if_neg (by omega), hmod, ofBits,
      if_pos (by omega)]
  · obtain rfl : i = 0 := by omega
    rw [hbyte 0 (by decide), if_pos rfl]
    rfl
  · rw [hlen, hbyte 1 (by decide), if_neg one_ne_zero, if_pos (by decide)]

theorem listing_manyFiles (h : entries ≤ 128) :
    Listing (manyFiles entries) 0 entries manyNames (· + 1) := by
  have hslot : ∀ q < 2, slot ((manyFiles entries).inodes 0) (manyFiles entries).data q =
      (q : Nat) := by
    intro q hq
    refine (slot_of_lt (lt_trans hq (by decide))).trans ?_
    exact if_pos hq
  have haddr : ∀ k < entries, entryAddr (manyFiles entries) ((manyFiles entries).inodes 0) k =
      fileNameEntry * k := by
    intro k hk
    have hdiv := Nat.div_add_mod k blockEntries
    have hq : k / blockEntries < 2 := by
      simp only [blockEntries, blockSize, fileNameEntry]
      omega
    rw [entryAddr, hslot _ hq, Int.toNat_natCast]
    simp only [blockEntries, blockSize, fileNameEntry] at hdiv ⊢
    omega
  refine ⟨⟨⟨rfl, h.trans (by decide), fun q hq => ?_, fun hmany => ?_⟩, fun k hk => ?_⟩,
    fun k hk => (valid_manyNames (by omega)).1, fun j hj k hk heq => ?_,
    fun j hj k hk heq => Nat.succ.inj heq⟩
  · have hq2 : q < 2 := by
      simp only [blockEntries, blockSize, fileNameEntry] at hq
      omega
    rw [hslot q hq2]
    refine ⟨?_, q, rfl, hq2⟩
    rw [unassignedNode]
    omega
  · simp only [blockEntries, blockSize, fileNameEntry, numDirectBlocks] at hmany
    omega
  · rw [haddr k hk]
    exact entryAt_manyData (by omega)
  · have hval := congrArg UInt8.toNat (List.singleton_inj.mp heq)
    rw [UInt8.toNat_ofNat', UInt8.toNat_ofNat'] at hval
    omega

theorem tree_manyFiles (h : entries ≤ 128) : Tree (manyFiles entries) := by
  have hroot : (manyFiles entries).Live 0 := (live_manyFiles 0).mpr (Nat.zero_le _)
  have hdir : ∀ d, (manyFiles entries).Live d →
      isDirectory ((manyFiles entries).inodes d) = true → d = 0 := by
    intro d hlive hdir
    by_contra hne
    have hfile : isDirectory (initInode 0 (rootInode 0)) = false := by decide
    have hd := (live_manyFiles d).mp hlive
    rw [manyFiles] at hdir
    dsimp only at hdir
    rw [if_neg hne, if_pos hd, hfile] at hdir
    cases hdir
  have hnums : ∀ k < entries, k + 1 < inodesNumber ∧ (manyFiles entries).Live (k + 1) :=
    fun k hk => ⟨by simp only [inodesNumber]; omega, (live_manyFiles _).mpr hk⟩
  have hlist := listing_manyFiles h
  have hblocks : (manyFiles entries).dblockCount = 2 := rfl
  refine ⟨⟨by rw [hblocks]; omega, ⟨fun x y hx hxy => ?_, fun x hx => ?_⟩,
    fun n k hlive hk => ?_, resolves_of_directories hroot fun d hlive hd => ?_⟩, id,
    fun d hlive hd => ?_⟩
  · rw [ref_manyFiles] at hx hxy
    rw [ref_manyFiles] at hxy
    split_ifs at hx hxy <;> simp_all
  · rw [ref_manyFiles] at hx ⊢
    split_ifs at hx ⊢
    · exact ⟨le_rfl, two_pos, rfl⟩
    · exact ⟨zero_le_one, one_lt_two, rfl⟩
    · exact absurd rfl hx
  · have hsize : ((manyFiles entries).inodes n).size ≤ if n = 0 then fileNameEntry * entries else 0 := by
      rw [manyFiles]
      dsimp only
      split_ifs <;> simp [initInode, blankInode]
    split_ifs at hsize with hn
    · subst hn
      have hk2 : k = 0 ∨ k = 1 := by
        simp only [blockSize, fileNameEntry] at hk hsize
        omega
      rw [ref_manyFiles]
      rcases hk2 with rfl | rfl <;> simp [unassignedNode]
    · omega
  · obtain rfl := hdir d hlive hd
    exact ⟨entries, manyNames, (· + 1), hlist.toEntries, hnums⟩
  · obtain rfl := hdir d hlive hd
    exact ⟨entries, manyNames, (· + 1), hlist, fun k hk =>
      ⟨(hnums k hk).1, (hnums k hk).2, Nat.succ_pos k⟩⟩

/-- The paths of the files. -/
theorem getInode_manyFiles (h : entries ≤ 128) {k : Nat} (hk : k < entries) :
    getInode (manyFiles entries) (47 :: manyNames k) = some (some ((k + 1 : Nat) : Int)) := by
  have hroot : getInode (manyFiles entries) ([] ++ [47]) = some (some ((0 : Nat) : Int)) := by
    have htokens : tokens [47] = [] := by decide
    rw [List.nil_append, getInode, if_neg (fun h => h rfl), htokens, walk]
    rfl
  have hdir : isDirectory (rootInode 0) = true := by decide
  have hlist := listing_manyFiles h
  exact getInode_entry (by decide) hroot hdir (hlist.valid k hk) (hlist.findInodeNamed hk)

end ManyFiles

theorem unlink_names_iff_first : ∃ fs', minixfsUnlink (manyFiles 2) (chars "/A") = some (fs', 0) ∧
    getInode fs' (chars "/A") = some none ∧ getInode fs' (chars "/B") = some (some 2) := by
  have hend : (minixfsUnlink (manyFiles 2) (chars "/A")).map (fun r => r.2) = some 0 := by
    decide +kernel
  obtain ⟨⟨fs', r⟩, hunlink, rfl⟩ := Option.map_eq_some_iff.mp hend
  have hparent : parentDirectory (manyFiles 2) (chars "/A") =
      some (some ((0 : Nat) : Int), manyNames 0) := by
    decide
  have hdir : isDirectory ((manyFiles 2).inodes 0) = true := by decide
  have hfile : isFile ((manyFiles 2).inodes 1) = true := by decide
  obtain ⟨hgone, hothers⟩ := (unlink_names_iff (tree_manyFiles (by decide)) (by decide)
    hdir (listing_manyFiles (by decide)) two_pos hfile hparent hunlink).mpr
      (Or.inr ⟨rfl, by decide⟩)
  have hsecond := hothers 1 one_lt_two one_ne_zero
  have hbefore := getInode_manyFiles (show 2 ≤ 128 by decide) one_lt_two
  exact ⟨fs', hunlink, hgone, hsecond.trans hbefore⟩

/-- The removal of the first of `65` files takes the last one off the directory. -/
theorem not_unlink_names_manyFiles : ¬ ∀ (fs fs' : FileSystem) (d entries k : Nat)
    (names : Nat → List UInt8) (nums : Nat → Nat) (path : List UInt8), Tree fs →
    (0 : UInt8) ∉ path → isDirectory (fs.inodes d) = true → Listing fs d entries names nums →
    entries ≤ 1023 → k < entries → isFile (fs.inodes (nums k)) = true →
    parentDirectory fs path = some (some (d : Int), names k) →
    minixfsUnlink fs path = some (fs', 0) →
    getInode fs' path = some none ∧ ∀ j < entries, j ≠ k →
      getInode fs' (path.take (path.length - (names k).length) ++ names j) =
        getInode fs (path.take (path.length - (names k).length) ++ names j) := by
  intro h
  have hend : (minixfsUnlink (manyFiles 65) (chars "/A")).map (fun r => r.2) = some 0 := by
    decide +kernel
  obtain ⟨⟨fs', r⟩, hunlink, rfl⟩ := Option.map_eq_some_iff.mp hend
  have hparent : parentDirectory (manyFiles 65) (chars "/A") =
      some (some ((0 : Nat) : Int), manyNames 0) := by
    decide
  have hdir : isDirectory ((manyFiles 65).inodes 0) = true := by decide
  have hfile : isFile ((manyFiles 65).inodes 1) = true := by decide
  have htree := tree_manyFiles (show 65 ≤ 128 by decide)
  have hlist := listing_manyFiles (show 65 ≤ 128 by decide)
  have hzero : (0 : UInt8) ∉ chars "/A" := by decide
  have hothers := (h (manyFiles 65) fs' 0 65 0 manyNames (· + 1) (chars "/A") htree hzero hdir
    hlist (by decide) (by decide) hfile hparent hunlink).2 64 (by decide) (by decide)
  obtain ⟨p, hsplit, htake, hbefore, hafter⟩ :=
    lookups_unlink htree hzero hdir hlist (by decide) hfile hparent hunlink
  have happend : p ++ [47] ++ manyNames 64 = p ++ 47 :: manyNames 64 := by simp
  rw [htake, happend, hbefore 64 (by decide)] at hothers
  rcases hafter 64 (by decide) with ⟨⟨i, hi, hshift⟩, -⟩ | ⟨-, hlost⟩
  · have hblock : blockEntries = 64 := rfl
    simp only [shifted, hblock] at hshift
    split_ifs at hshift <;> omega
  · rw [hlost] at hothers
    cases hothers

end SystemProgramming.Minixfs
