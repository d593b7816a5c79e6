import Mathlib.Tactic
import SystemProgramming.Minixfs.WellFormed

/-!
# Reading files

`minixfs_read` copies the rest of the first block, then whole blocks, then the beginning of
the last one. Each piece holds the next bytes of the file, so the pieces together are a
stretch of its content, whichever of them lie in direct and in indirect slots.

The path `/virtual` and the paths below it are not looked up in the file system: a file with
such a name cannot be read under it. Of `/virtual/info` the code reads beyond the end of the
string, when the offset lies there.

## Main definitions

* `fileBytes`: a stretch of a file
* `Touched`: another access time
* `readChunks`: a sequence of reads

## Main results

* `readData_spec`: the pieces of a read
* `read_content`, `virtualRead_iff`
-/

namespace SystemProgramming.Minixfs

/-- The `m` bytes of a file from `a` on. -/
def fileBytes (fs : FileSystem) (node : Inode) (a m : Nat) : List UInt8 :=
  (List.range m).map fun i => fileByte fs node (a + i)

section Pieces

variable {fs : FileSystem} {node : Inode} {n a k m : Nat}

@[simp] theorem length_fileBytes : (fileBytes fs node a m).length = m := by simp [fileBytes]

theorem fileBytes_append : fileBytes fs node a m ++ fileBytes fs node (a + m) k =
    fileBytes fs node a (m + k) := by
  simp only [fileBytes, List.range_add, List.map_append, List.map_map, Function.comp_def,
    Nat.add_assoc]

/-- A stretch of the content. -/
theorem take_drop_content (h : a + m ≤ node.size) :
    ((content fs node).drop a).take m = fileBytes fs node a m := by
  obtain ⟨k, hk⟩ := Nat.exists_eq_add_of_le h
  rw [content, hk, Nat.add_assoc, List.range_add, List.map_append, List.drop_left' (by simp),
    List.map_map, List.range_add, List.map_append, List.take_left' (by simp)]
  rfl

/-- A piece of a file within one block. -/
theorem read_block (fs : FileSystem) (node : Inode) (k : Nat) {o : Nat} (h : o + m ≤ blockSize) :
    fs.data.read (blockSize * (slot node fs.data k).toNat + o) m =
      fileBytes fs node (blockSize * k + o) m := by
  refine List.map_congr_left fun i hi => ?_
  have hlt : o + i < blockSize := lt_of_lt_of_le (Nat.add_lt_add_left (List.mem_range.mp hi) o) h
  have hdiv : (blockSize * k + o + i) / blockSize = k := by
    rw [Nat.add_assoc, Nat.mul_add_div (by decide), Nat.div_eq_of_lt hlt, Nat.add_zero]
  have hmod : (blockSize * k + o + i) % blockSize = o + i := by
    rw [Nat.add_assoc, Nat.mul_add_mod, Nat.mod_eq_of_lt hlt]
  rw [fileByte, byteAt, hdiv, hmod, Nat.add_assoc]

/-- The block that holds a byte of a file is found. -/
theorem WellFormed.getBlock (h : WellFormed fs) (hlive : fs.Live n)
    (hk : blockSize * k < (fs.inodes n).size) :
    getBlock fs (fs.inodes n) k = some (slot (fs.inodes n) fs.data k) ∧
      fs.block (slot (fs.inodes n) fs.data k) =
        some (slot (fs.inodes n) fs.data k).toNat := by
  have hassigned := h.covered n k hlive hk
  have hslot : ref fs (n, .slot k) = slot (fs.inodes n) fs.data k := ref_of_live hlive _
  rw [← hslot]
  exact ⟨getBlock_eq h.owned hlive hassigned, block_ref h.owned hassigned⟩

/-- The loop reads the next bytes. -/
theorem readLoop_spec (h : WellFormed fs) (hlive : fs.Live n) {rounds : Nat} (hm : m ≤ rounds)
    (hend : blockSize * k + m ≤ (fs.inodes n).size) :
    readLoop fs (fs.inodes n) rounds k m =
      some (fileBytes fs (fs.inodes n) (blockSize * k) m) := by
  induction rounds generalizing k m with
  | zero =>
    obtain rfl : m = 0 := by omega
    rfl
  | succ rounds ih =>
    rw [readLoop]
    split_ifs with hpos
    · obtain ⟨hget, hblock⟩ := h.getBlock hlive (k := k) (by omega)
      obtain ⟨t, ht⟩ : ∃ t, t = min blockSize m := ⟨_, rfl⟩
      have htm : t + (m - t) = m := by omega
      have hrest : readLoop fs (fs.inodes n) rounds (k + 1) (m - t) =
          some (fileBytes fs (fs.inodes n) (blockSize * k + t) (m - t)) := by
        by_cases hlast : m ≤ blockSize
        · have hzero : m - t = 0 := by omega
          rw [hzero]
          cases rounds <;> rfl
        · have hfull : t = blockSize := by omega
          have hbs : 0 < blockSize := by decide
          rw [hfull, ← Nat.mul_succ]
          exact ih (by omega) (by rw [Nat.mul_succ]; omega)
      rw [hget, Option.bind_eq_bind, Option.bind_some, hblock, Option.bind_eq_bind,
        Option.bind_some, ← ht]
      dsimp only
      have hread := @read_block t fs (fs.inodes n) k 0 (by omega)
      rw [Nat.add_zero, Nat.add_zero] at hread
      rw [hrest, Option.bind_eq_bind, Option.bind_some, hread, fileBytes_append, htm]
    · obtain rfl : m = 0 := by omega
      rfl

/-- **The pieces of a read.** -/
theorem readData_spec (h : WellFormed fs) (hlive : fs.Live n) (hstart : a < (fs.inodes n).size)
    (hend : a + m ≤ (fs.inodes n).size) :
    readData fs (fs.inodes n) m a = some (fileBytes fs (fs.inodes n) a m) := by
  have hdiv := Nat.div_add_mod a blockSize
  have hmod : a % blockSize < blockSize := Nat.mod_lt _ (by decide)
  obtain ⟨hget, hblock⟩ := h.getBlock hlive (k := a / blockSize) (by omega)
  obtain ⟨t, ht⟩ : ∃ t, t = min (blockSize - a % blockSize) m := ⟨_, rfl⟩
  have htm : t + (m - t) = m := by omega
  have hrest : readLoop fs (fs.inodes n) m (a / blockSize + 1) (m - t) =
      some (fileBytes fs (fs.inodes n) (a + t) (m - t)) := by
    by_cases hlast : m ≤ blockSize - a % blockSize
    · have hzero : m - t = 0 := by omega
      rw [hzero]
      cases m <;> rfl
    · have hnext : blockSize * (a / blockSize + 1) = a + t := by
        rw [Nat.mul_succ]
        omega
      rw [readLoop_spec h hlive (Nat.sub_le _ _) (by omega), hnext]
  rw [readData]
  dsimp only
  rw [← ht]
  split_ifs with hzero
  · have hempty : [] = fileBytes fs (fs.inodes n) a t := by
      rw [hzero]
      rfl
    rw [hrest, Option.bind_eq_bind, Option.bind_some, Option.bind_some, hempty,
      fileBytes_append, htm]
  · rw [hget, Option.bind_eq_bind, Option.bind_some, hblock, Option.bind_eq_bind,
      Option.bind_some, read_block _ _ _ (by omega), hdiv, hrest, Option.bind_eq_bind, Option.bind_some,
      Option.bind_some, fileBytes_append, htm]

end Pieces

/-! ## Access times -/

/-- The access time of the inode `n` may have changed, and nothing else. -/
def Touched (n : Nat) (fs fs' : FileSystem) : Prop :=
  ∃ time, fs' = fs.setInode n { fs.inodes n with atim := time }

namespace Touched

variable {fs fs' fs'' : FileSystem} {n m : Nat}

theorem refl (fs : FileSystem) (n : Nat) : Touched n fs fs := by
  refine ⟨(fs.inodes n).atim, ?_⟩
  rw [FileSystem.setInode, Function.update_eq_self]

theorem trans (h : Touched n fs fs') (h' : Touched n fs' fs'') : Touched n fs fs'' := by
  obtain ⟨time, rfl⟩ := h
  obtain ⟨time', rfl⟩ := h'
  refine ⟨time', ?_⟩
  rw [FileSystem.setInode_self]
  simp only [FileSystem.setInode, Function.update_idem]

/-- Nothing but the access time changes. -/
theorem inodes (h : Touched n fs fs') (m : Nat) :
    ∃ time, fs'.inodes m = { fs.inodes m with atim := time } := by
  obtain ⟨time, rfl⟩ := h
  by_cases hm : m = n
  · subst hm
    exact ⟨time, FileSystem.setInode_self _ _ _⟩
  · exact ⟨(fs.inodes m).atim, FileSystem.setInode_of_ne _ _ hm⟩

theorem ref_eq (h : Touched n fs fs') : ref fs' = ref fs := by
  funext ⟨m, x⟩
  obtain ⟨time, htime⟩ := h.inodes m
  have hdata : fs'.data = fs.data := by
    obtain ⟨_, rfl⟩ := h
    rfl
  simp only [ref, htime, hdata]
  cases x <;> rfl

theorem live (h : Touched n fs fs') : fs'.Live m ↔ fs.Live m := by
  obtain ⟨time, htime⟩ := h.inodes m
  rw [FileSystem.Live, FileSystem.Live, htime]

theorem size (h : Touched n fs fs') : (fs'.inodes m).size = (fs.inodes m).size := by
  obtain ⟨time, htime⟩ := h.inodes m
  rw [htime]

theorem content_eq (h : Touched n fs fs') :
    content fs' (fs'.inodes m) = content fs (fs.inodes m) := by
  obtain ⟨time, htime⟩ := h.inodes m
  have hdata : fs'.data = fs.data := by
    obtain ⟨_, rfl⟩ := h
    rfl
  rw [htime]
  refine List.map_congr_left fun i _ => ?_
  rw [fileByte, fileByte, hdata]
  rfl

theorem getInode_eq (h : Touched n fs fs') (path : List UInt8) :
    getInode fs' path = getInode fs path := by
  refine getInode_congr ?_ ?_ (fun m => ?_) path
  · obtain ⟨_, rfl⟩ := h
    rfl
  · obtain ⟨_, rfl⟩ := h
    rfl
  · obtain ⟨time, htime⟩ := h.inodes m
    rw [htime]
    exact ⟨rfl, rfl, rfl, rfl⟩

theorem wellFormed (h : Touched n fs fs') (hwf : WellFormed fs) : WellFormed fs' := by
  have hcount : fs'.dblockCount = fs.dblockCount := by
    obtain ⟨_, rfl⟩ := h
    rfl
  have huse : inUse fs' = inUse fs := by
    obtain ⟨_, rfl⟩ := h
    rfl
  refine ⟨hcount ▸ hwf.count, ?_, fun m k hlive hk => ?_, fun path m hm => ?_⟩
  · rw [Owned, h.ref_eq, huse]
    exact hwf.owned
  · rw [h.ref_eq]
    exact hwf.covered m k (h.live.mp hlive) (h.size ▸ hk)
  · obtain ⟨i, hi, hlt, hlive⟩ := hwf.resolves path m (h.getInode_eq path ▸ hm)
    exact ⟨i, hi, hlt, h.live.mpr hlive⟩

end Touched

/-! ## Regular files -/

/-- The number of bytes that a read gives back. -/
def readLength (size count off : Nat) : Nat := if off < size then min count (size - off) else 0

/-- A sequence of reads, each from where the one before ended. -/
def readChunks (heap : Nat → UInt8) (path : List UInt8) :
    List (Timespec × Nat) → FileSystem → Nat → Option (FileSystem × List UInt8 × Nat)
  | [], fs, off => some (fs, [], off)
  | (now, count) :: reads, fs, off => do
    let (fs, _, bs, off) ← minixfsRead heap now fs path count off
    let (fs, rest, off) ← readChunks heap path reads fs off
    return (fs, bs ++ rest, off)

section Files

variable {fs : FileSystem} {path : List UInt8} {n : Nat}

/-- Two reads in a row give back as much as one. -/
theorem readLength_add (size a b off : Nat) :
    readLength size (a + b) off =
      readLength size a off + readLength size b (off + readLength size a off) := by
  simp only [readLength]
  split_ifs <;> omega

/-- One read. -/
theorem minixfsRead_eq (h : WellFormed fs) (hvirtual : isVirtualPath path = none)
    (hpath : getInode fs path = some (some (n : Int))) (heap : Nat → UInt8) (now : Timespec)
    (count off : Nat) : ∃ fs', Touched n fs fs' ∧ minixfsRead heap now fs path count off =
      some (fs', (readLength (fs.inodes n).size count off : Int),
        ((content fs (fs.inodes n)).drop off).take (readLength (fs.inodes n).size count off),
        off + readLength (fs.inodes n).size count off) := by
  obtain ⟨i, hi, hlt, hlive⟩ := h.resolves path n hpath
  obtain rfl : n = i := by omega
  have hinode : inode? (n : Int) = some n := by
    rw [inode?, if_pos ⟨by omega, by omega⟩, Int.toNat_natCast]
  have hmax := h.size_le hlive
  simp only [minixfsRead, hvirtual, hpath, hinode, Option.bind_eq_bind, Option.bind_some,
    readLength]
  split_ifs with hge hoff hoff
  · omega
  · refine ⟨fs, Touched.refl fs n, ?_⟩
    rfl
  · obtain ⟨m, hm⟩ : ∃ m, m = min count ((fs.inodes n).size - off) := ⟨_, rfl⟩
    have hend : off + m ≤ (fs.inodes n).size := by omega
    have hlarge : off + m < 2 ^ 63 := by
      simp only [maxSize, numDirectBlocks, numIndirectBlocks, blockSize] at hmax
      omega
    have hsize : toSsize m = m := if_pos (by omega)
    have hnext : (off + m) % 2 ^ 64 = off + m := Nat.mod_eq_of_lt (by omega)
    refine ⟨_, ⟨now, rfl⟩, ?_⟩
    rw [← hm, readData_spec h hlive hoff hend, take_drop_content hend, Option.bind_some,
      length_fileBytes, hsize, hnext]
    rfl
  · omega

/-- The reads of a sequence together. -/
theorem readChunks_eq (h : WellFormed fs) (hvirtual : isVirtualPath path = none)
    (hpath : getInode fs path = some (some (n : Int))) (heap : Nat → UInt8)
    (reads : List (Timespec × Nat)) (off : Nat) :
    ∃ fs', Touched n fs fs' ∧ readChunks heap path reads fs off =
      some (fs', ((content fs (fs.inodes n)).drop off).take
          (readLength (fs.inodes n).size (reads.map Prod.snd).sum off),
        off + readLength (fs.inodes n).size (reads.map Prod.snd).sum off) := by
  induction reads generalizing fs off with
  | nil =>
    have hzero : readLength (fs.inodes n).size 0 off = 0 := by simp [readLength]
    refine ⟨fs, Touched.refl fs n, ?_⟩
    rw [List.map_nil, List.sum_nil, hzero]
    rfl
  | cons read reads ih =>
    obtain ⟨now, count⟩ := read
    obtain ⟨fs₁, htouch, hread⟩ := minixfsRead_eq h hvirtual hpath heap now count off
    obtain ⟨fs', htouch', hrest⟩ := ih (htouch.wellFormed h) ((htouch.getInode_eq path).trans hpath)
      (off + readLength (fs.inodes n).size count off)
    refine ⟨fs', htouch.trans htouch', ?_⟩
    rw [readChunks, hread, Option.bind_eq_bind, Option.bind_some]
    dsimp only
    rw [hrest, Option.bind_eq_bind, Option.bind_some, htouch.content_eq, htouch.size,
      List.map_cons, List.sum_cons, readLength_add, List.take_add, List.drop_drop, Nat.add_assoc]
    rfl

/-- **A read gives back a stretch of the file.** Read through a path that is not virtual, a file
gives back its next bytes, as many as were asked for and are there; the offset advances by
their number, and nothing but the access time changes. A sequence of reads gives back the
bytes of one read of the whole length. -/
theorem read_content (h : WellFormed fs) (hvirtual : isVirtualPath path = none)
    (hpath : getInode fs path = some (some (n : Int))) (heap : Nat → UInt8) (off : Nat) :
    (∀ now count, ∃ fs', Touched n fs fs' ∧ minixfsRead heap now fs path count off =
      some (fs', (readLength (content fs (fs.inodes n)).length count off : Int),
        ((content fs (fs.inodes n)).drop off).take
          (readLength (content fs (fs.inodes n)).length count off),
        off + readLength (content fs (fs.inodes n)).length count off)) ∧
    ∀ reads, ∃ fs', Touched n fs fs' ∧ readChunks heap path reads fs off =
      some (fs', ((content fs (fs.inodes n)).drop off).take
          (readLength (content fs (fs.inodes n)).length (reads.map Prod.snd).sum off),
        off + readLength (content fs (fs.inodes n)).length (reads.map Prod.snd).sum off) := by
  rw [length_content]
  exact ⟨fun now count => minixfsRead_eq h hvirtual hpath heap now count off,
    fun reads => readChunks_eq h hvirtual hpath heap reads off⟩

end Files

theorem read_content_a : ∃ fs', Touched 1 (oneFile (chars "a") [1, 2, 3]) fs' ∧
    minixfsRead (fun _ => 0) 5 (oneFile (chars "a") [1, 2, 3]) (chars "/a") 7 1 =
      some (fs', 2, [2, 3], 3) := by
  have hentry : EntryAt (oneFile (chars "a") [1, 2, 3]).data 0 (chars "a") 1 :=
    entryAt_oneFile (by decide) (by decide)
  have hlen : [1, 2, 3].length ≤ blockSize := by decide
  obtain ⟨fs', htouch, hread⟩ := (read_content (wellFormed_oneFile hentry hlen) (by decide)
    ((oneEntry_oneFile hentry).getInode_name hentry (by decide)) (fun _ => 0) 1).1 5 7
  rw [content_oneFile hlen] at hread
  exact ⟨fs', htouch, hread⟩

/-- A file with the name `virtual` is not read through its path. -/
theorem not_read_virtual : ¬ ∀ (fs : FileSystem) (path : List UInt8) (n : Nat), WellFormed fs →
    getInode fs path = some (some (n : Int)) → isFile (fs.inodes n) = true →
    ∀ (heap : Nat → UInt8) (now : Timespec) (count off : Nat), ∃ fs', Touched n fs fs' ∧
      minixfsRead heap now fs path count off =
        some (fs', (readLength (content fs (fs.inodes n)).length count off : Int),
          ((content fs (fs.inodes n)).drop off).take
            (readLength (content fs (fs.inodes n)).length count off),
          off + readLength (content fs (fs.inodes n)).length count off) := by
  intro h
  have hentry : EntryAt (oneFile (chars "virtual") [1]).data 0 (chars "virtual") 1 :=
    entryAt_oneFile (by decide) (by decide)
  have hlen : [1].length ≤ blockSize := by decide
  have hfile : isFile ((oneFile (chars "virtual") [1]).inodes 1) = true := by
    decide
  have hpath := (oneEntry_oneFile hentry).getInode_name hentry (by decide)
  obtain ⟨fs', -, hread⟩ := h _ _ 1 (wellFormed_oneFile hentry hlen) hpath hfile
    (fun _ => 0) 5 1 0
  have hvirtual : isVirtualPath (47 :: chars "virtual") = some [] := by decide
  have hresult := congrArg (Option.map fun r => r.2.1) hread
  simp only [minixfsRead, hvirtual, minixfsVirtualRead, Option.map_some] at hresult
  rw [length_content] at hresult
  revert hresult
  decide +kernel

/-! ## The virtual file -/

section Virtual

theorem length_chars (s : String) : (chars s).length = s.length := by
  rw [chars, List.length_map, String.length_toList]

theorem length_toString_le {m : Nat} (h : m < 2 ^ 63) : (toString m).length ≤ 19 :=
  (Nat.length_repr_le_iff (by decide)).mpr (h.trans (by decide))

/-- The numbers in the string have at most `19` digits. -/
theorem length_blockInfoString {m : Nat} (h : m < 2 ^ 63) : (blockInfoString m).length ≤ 67 := by
  have hfree : (toString ((dataNumber : Int) - m)).length ≤ 20 := by
    cases hz : (dataNumber : Int) - m with
    | ofNat k =>
      have hk : k < 2 ^ 63 := by
        simp only [dataNumber, Int.ofNat_eq_natCast] at hz
        omega
      exact (length_toString_le hk).trans (by decide)
    | negSucc k =>
      have hk : k + 1 < 2 ^ 63 := by
        simp only [dataNumber] at hz
        omega
      have hrepr : toString (Int.negSucc k) = "-" ++ toString (k + 1) := rfl
      rw [hrepr, String.length_append]
      exact Nat.add_le_add_left (length_toString_le hk) 1
  have hfirst : "Free blocks: ".length = 13 := rfl
  have hsecond : "\nUsed blocks: ".length = 14 := rfl
  have hlast : "\n".length = 1 := rfl
  have hused := length_toString_le h
  rw [blockInfoString, length_chars, String.length_append, String.length_append,
    String.length_append, String.length_append, hfirst, hsecond, hlast]
  omega

theorem blocksUsed_le (fs : FileSystem) : blocksUsed fs ≤ fs.dblockCount := by
  rw [blocksUsed]
  exact List.countP_le_length.trans_eq List.length_range

/-- **`/virtual/info` reads like a file only up to its end.** The read gives back the next
characters of the string and advances the offset by their number exactly if the offset does
not lie beyond the end of the string, or nothing is asked for. -/
theorem virtualRead_iff (fs : FileSystem) (count off : Nat) (heap : Nat → UInt8) (now : Timespec)
    (hblocks : fs.dblockCount < 2 ^ 63)
    (hoff : off < 2 ^ 63) (hcount : count < 2 ^ 64) :
    minixfsRead heap now fs (chars "/virtual/info") count off =
        some (fs, (readLength (blockInfoString (blocksUsed fs)).length count off : Int),
          ((blockInfoString (blocksUsed fs)).drop off).take
            (readLength (blockInfoString (blocksUsed fs)).length count off),
          off + readLength (blockInfoString (blocksUsed fs)).length count off) ↔
      off ≤ (blockInfoString (blocksUsed fs)).length ∨ count = 0 := by
  have hvirtual : isVirtualPath (chars "/virtual/info") = some (chars "info") := by
    decide
  have hlen := length_blockInfoString (lt_of_le_of_lt (blocksUsed_le fs) hblocks)
  obtain ⟨s, hs⟩ : ∃ s, s = blockInfoString (blocksUsed fs) := ⟨_, rfl⟩
  simp only [minixfsRead, hvirtual, minixfsVirtualRead, if_true, ← hs] at hlen ⊢
  obtain ⟨t, ht⟩ : ∃ t, t = min ((s.length + (2 ^ 64 - off)) % 2 ^ 64) count := ⟨_, rfl⟩
  rw [← ht]
  constructor
  · intro h
    by_contra hbeyond
    obtain ⟨hbeyond, hpos⟩ := not_or.mp hbeyond
    -- the difference of the lengths wraps around
    have hdiff : (s.length + (2 ^ 64 - off)) % 2 ^ 64 = s.length + (2 ^ 64 - off) :=
      Nat.mod_eq_of_lt (by omega)
    have hread : readLength s.length count off = 0 := if_neg (by omega)
    have hreturned : toSsize t = 0 := by
      have hsecond := congrArg (Option.map fun r => r.2.1) h
      simpa [hread] using hsecond
    rw [toSsize] at hreturned
    split_ifs at hreturned <;> omega
  · intro h
    have hread : readLength s.length count off = t := by
      rw [ht, readLength]
      rcases h with hle | hzero
      · have hdiff : (s.length + (2 ^ 64 - off)) % 2 ^ 64 = s.length - off := by omega
        rw [hdiff]
        split_ifs <;> omega
      · split_ifs <;> omega
    have hinside : t = 0 ∨ off + t ≤ s.length := by
      rw [← hread, readLength]
      split_ifs <;> omega
    have hreturned : toSsize t = t := if_pos (by omega)
    have hoffset : (off + t) % 2 ^ 64 = off + t := Nat.mod_eq_of_lt (by omega)
    have hbytes : (List.range t).map (fun i => if h : off + i < s.length then s[off + i]
        else if off + i = s.length then 0 else heap (off + i)) = (s.drop off).take t := by
      refine List.ext_getElem ?_ fun i hi hi' => ?_
      · simp only [List.length_map, List.length_range, List.length_take, List.length_drop]
        omega
      · have hlt : off + i < s.length := by
          simp only [List.length_map, List.length_range] at hi
          omega
        rw [List.getElem_map, List.getElem_range, dif_pos hlt, List.getElem_take,
          List.getElem_drop]
    rw [hread, hreturned, hoffset, hbytes]

end Virtual

theorem blocksUsed_minixfsMkfs : blocksUsed (minixfsMkfs 0) = 0 := by
  rw [blocksUsed, List.countP_eq_zero]
  exact fun b _ h => Bool.false_ne_true h

theorem virtualRead_iff_new : minixfsRead (fun _ => 0) 0 (minixfsMkfs 0) (chars "/virtual/info") 6 5 =
    some (minixfsMkfs 0, 6, chars "blocks", 11) := by
  have hinside : 5 ≤ (blockInfoString 0).length := by decide
  have hlength : readLength (blockInfoString 0).length 6 5 = 6 := by decide
  have hbytes : ((blockInfoString 0).drop 5).take 6 = chars "blocks" := by decide
  have hread := (virtualRead_iff (minixfsMkfs 0) 6 5 (fun _ => 0) 0
    (by decide) (by decide) (by decide)).mpr (Or.inl (by rwa [blocksUsed_minixfsMkfs]))
  rw [blocksUsed_minixfsMkfs, hlength, hbytes] at hread
  exact hread

/-- Far beyond the end of the string, a read still gives back a byte. -/
theorem not_virtualRead_beyond : ¬ ∀ (fs : FileSystem) (heap : Nat → UInt8) (now : Timespec)
    (count off : Nat), fs.dblockCount < 2 ^ 63 → off < 2 ^ 63 → count < 2 ^ 64 →
    minixfsRead heap now fs (chars "/virtual/info") count off =
      some (fs, (readLength (blockInfoString (blocksUsed fs)).length count off : Int),
        ((blockInfoString (blocksUsed fs)).drop off).take
          (readLength (blockInfoString (blocksUsed fs)).length count off),
        off + readLength (blockInfoString (blocksUsed fs)).length count off) := by
  intro h
  have hread := h (minixfsMkfs 0) (fun _ => 0) 0 1 100 (by decide) (by decide) (by decide)
  have hlength : readLength (blockInfoString 0).length 1 100 = 0 := by decide
  rw [blocksUsed_minixfsMkfs, hlength] at hread
  have hresult := congrArg (Option.map fun r => r.2.1) hread
  revert hresult
  decide +kernel

end SystemProgramming.Minixfs
