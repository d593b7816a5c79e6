import SystemProgramming.Minixfs.Namespace
import SystemProgramming.Minixfs.Reading
import SystemProgramming.Minixfs.Writing

/-!
# Reading and writing existing files

Seen from its callers the file system is a store that keeps a string of bytes for each file. A
write does what it is to do as long as it stays within one block, and a hole reads as zeros as
long as the blocks of a file are clear behind its end. Writes of this kind keep both of that, and
the directories, so whole runs of them behave like the store.

## Main definitions

* `Rewrites n fs fs'`: the file `n` has changed, and nothing else
* `ClearTails`: the blocks of a file are clear behind its end
* `Access`, `serve`: calls of `minixfs_read` and `minixfs_write`, and what they give back
* `Answers`: what a store of strings gives back

## Main results

* `Rewrites.getInode_eq`: every path leads where it led before
* `serve_answers`: one call
* `sessions_refine_store`: every run
-/

namespace SystemProgramming.Minixfs

/-! ## A change of one file -/

/-- The file `n` has changed: its slots, its size, and the bytes of its blocks. -/
structure Rewrites (n : Nat) (fs fs' : FileSystem) : Prop where
  count : fs'.dblockCount = fs.dblockCount
  others : ∀ m, m ≠ n → fs'.inodes m = fs.inodes m
  mode : (fs'.inodes n).mode = (fs.inodes n).mode
  live : ∀ m, fs'.Live m ↔ fs.Live m
  blocks : ∀ x : Nat × Place, x.1 ≠ n → ref fs x ≠ unassignedNode →
    SameBlock fs.data fs'.data (ref fs x)

section Rewriting

variable {fs fs' : FileSystem} {n m d entries : Nat} {names : Nat → List UInt8} {nums : Nat → Nat}
  {tok path : List UInt8} {toks : List (List UInt8)}

theorem Rewrites.isDirectory_eq (h : Rewrites n fs fs') (m : Nat) :
    isDirectory (fs'.inodes m) = isDirectory (fs.inodes m) := by
  by_cases hm : m = n
  · rw [hm, isDirectory, isDirectory, Inode.type, Inode.type, h.mode]
  · rw [h.others m hm]

/-- The entries of another directory stay where they are, and keep their bytes. -/
theorem Rewrites.directory (h : Rewrites n fs fs') (hlive : fs.Live d) (hd : d ≠ n)
    (hdir : Directory fs (fs.inodes d) entries) :
    Directory fs' (fs'.inodes d) entries ∧ ∀ k < entries,
      entryAddr fs' (fs'.inodes d) k = entryAddr fs (fs.inodes d) k ∧
      ∀ i < fileNameEntry, fs'.data (entryAddr fs (fs.inodes d) k + i) =
        fs.data (entryAddr fs (fs.inodes d) k + i) := by
  have hnode : SameEntries (fs.inodes d) (fs'.inodes d) := by
    rw [h.others d hd]
    exact ⟨rfl, rfl, rfl, rfl⟩
  have hpointer : ref fs (d, .pointer) = (fs.inodes d).indirect := ref_of_live hlive _
  have hslot : ∀ q, ref fs (d, .slot q) = slot (fs.inodes d) fs.data q := fun q =>
    ref_of_live hlive _
  exact hdir.frame h.count hnode
    (fun hne => hpointer ▸ h.blocks (d, .pointer) hd (hpointer ▸ hne))
    (fun q hq => hslot q ▸ h.blocks (d, .slot q) hd (hslot q ▸ (hdir.slots q hq).1))

/-- Another directory has the entries it had. -/
theorem Rewrites.sparse (h : Rewrites n fs fs') (hlive : fs.Live d) (hd : d ≠ n)
    (hsparse : Sparse fs d entries names nums) : Sparse fs' d entries names nums := by
  obtain ⟨hdir, hentries⟩ := h.directory hlive hd hsparse.toDirectory
  refine ⟨hdir, fun k hk => ?_⟩
  obtain ⟨haddr, hbytes⟩ := hentries k hk
  rw [haddr]
  rcases hsparse.entry k hk with hnone | hentry
  · exact Or.inl ((makeDirent_congr fun i _ hi => hbytes i hi).trans hnone)
  · exact Or.inr (hentry.copy hbytes)

/-- A name is found where it was found before. -/
theorem Rewrites.findInodeNamed_eq (h : Rewrites n fs fs') (hlive : fs.Live d) (hd : d ≠ n)
    (hsparse : Sparse fs d entries names nums) (htok : (0 : UInt8) ∉ tok) {r : Option Int}
    (hfind : findInodeNamed fs (fs.inodes d) tok = some r) :
    findInodeNamed fs' (fs'.inodes d) tok = some r := by
  obtain ⟨hdir, hentries⟩ := h.directory hlive hd hsparse.toDirectory
  have hfirst : entries = 0 ∨
      (makeDirentFromString fs'.data (entryAddr fs' (fs'.inodes d) 0)).isSome := by
    rcases Nat.eq_zero_or_pos entries with hzero | hpos
    · exact Or.inl hzero
    · obtain ⟨haddr, hbytes⟩ := hentries 0 hpos
      rw [haddr, makeDirent_congr fun i _ hi => hbytes i hi]
      exact Or.inr (hsparse.toDirectory.first_isSome hpos hfind)
  rw [Minixfs.findInodeNamed_eq hdir tok hfirst, hsparse.toDirectory.findInodeNamed_some hfind]
  apply congrArg some
  apply findSome?_congr
  intro k hk
  obtain ⟨haddr, hbytes⟩ := hentries k (List.mem_range.mp hk)
  rw [haddr]
  exact hsparse.hit_eq (List.mem_range.mp hk) htok hbytes

/-- A walk leads where it led before. -/
theorem Rewrites.walk_eq (h : Rewrites n fs fs') (hs : Searchable fs)
    (hfile : isDirectory (fs.inodes n) = false) (htoks : ∀ tok ∈ toks, (0 : UInt8) ∉ tok)
    (hm : m < inodesNumber) (hlive : fs.Live m) {r : Int}
    (hwalk : walk fs toks m = some (some r)) : walk fs' toks m = some (some r) := by
  induction toks generalizing m with
  | nil =>
    rw [walk_nil] at hwalk ⊢
    exact hwalk
  | cons tok toks ih =>
    obtain ⟨i, hi, ⟨-, hnone⟩ | ⟨hdirectory, ⟨-, hnone⟩ | ⟨j, hfind, hrest⟩⟩⟩ := walk_cons hwalk
    · cases hnone
    · cases hnone
    obtain rfl : m = i := Option.some.inj ((inode?_natCast hm).symm.trans hi)
    obtain ⟨j, rfl, hj, hjlive⟩ := hs.findInodeNamed_live hlive hdirectory hfind
    obtain ⟨e, names, nums, hsparse, -⟩ := hs.directories m hlive hdirectory
    -- the walk goes through directories, and `n` is none
    have hmn : m ≠ n := by
      rintro rfl
      rw [hfile] at hdirectory
      cases hdirectory
    have hsame := h.findInodeNamed_eq hlive hmn hsparse (htoks tok List.mem_cons_self) hfind
    rw [walk_of_some hi ((h.isDirectory_eq m).trans hdirectory) hsame]
    exact ih (fun tok htok => htoks tok (List.mem_cons_of_mem _ htok)) hj hjlive hrest

/-- **Every path leads where it led before.** -/
theorem Rewrites.getInode_eq (h : Rewrites n fs fs') (hs : Searchable fs)
    (hfile : isDirectory (fs.inodes n) = false) (hzero : (0 : UInt8) ∉ path) {r : Int}
    (hpath : getInode fs path = some (some r)) : getInode fs' path = some (some r) := by
  obtain ⟨i, hi, hlt, hroot⟩ := hs.resolves [] 0 rfl
  obtain rfl : i = 0 := by omega
  cases path with
  | nil => exact hpath
  | cons c path =>
    rw [getInode] at hpath ⊢
    split_ifs at hpath ⊢
    · exact hpath
    · exact h.walk_eq hs hfile (fun tok htok hmem => hzero (mem_of_mem_tokens htok hmem)) hlt hroot
        hpath

/-- Where every search of a directory leads to a live inode, every path does. -/
theorem resolves_of_searches (hroot : fs.Live 0)
    (h : ∀ d, fs.Live d → isDirectory (fs.inodes d) = true → ∀ tok m,
      findInodeNamed fs (fs.inodes d) tok = some (some m) →
        ∃ i : Nat, m = i ∧ i < inodesNumber ∧ fs.Live i)
    (path : List UInt8) (r : Int) (hpath : getInode fs path = some (some r)) :
    ∃ i : Nat, r = i ∧ i < inodesNumber ∧ fs.Live i := by
  have hwalk : ∀ toks (n : Nat), n < inodesNumber → fs.Live n → ∀ r,
      walk fs toks n = some (some r) → ∃ i : Nat, r = i ∧ i < inodesNumber ∧ fs.Live i := by
    intro toks
    induction toks with
    | nil =>
      intro n hn hlive r hr
      rw [walk_nil] at hr
      exact ⟨n, (Option.some.inj (Option.some.inj hr)).symm, hn, hlive⟩
    | cons tok toks ih =>
      intro n hn hlive r hr
      obtain ⟨i, hi, ⟨-, hnone⟩ | ⟨hdirectory, ⟨-, hnone⟩ | ⟨m, hfind, hrest⟩⟩⟩ := walk_cons hr
      · cases hnone
      · cases hnone
      obtain rfl : n = i := Option.some.inj ((inode?_natCast hn).symm.trans hi)
      obtain ⟨j, rfl, hj, hjlive⟩ := h n hlive hdirectory tok m hfind
      exact ih j hj hjlive r hrest
  cases path with
  | nil => exact ⟨0, (Option.some.inj (Option.some.inj hpath)).symm, by decide, hroot⟩
  | cons c path =>
    rw [getInode] at hpath
    split_ifs at hpath
    · cases hpath
    · exact hwalk _ 0 (by decide) hroot r hpath

/-- **A change of one file keeps the directories.** -/
theorem Rewrites.searchable (h : Rewrites n fs fs') (hs : Searchable fs)
    (hfile : isDirectory (fs.inodes n) = false) (howned : Owned fs')
    (hcovered : ∀ m k, fs'.Live m → blockSize * k < (fs'.inodes m).size →
      ref fs' (m, .slot k) ≠ unassignedNode) : Searchable fs' := by
  have hne : ∀ d, isDirectory (fs'.inodes d) = true → d ≠ n := by
    rintro d hd rfl
    rw [h.isDirectory_eq, hfile] at hd
    cases hd
  have hdirectories : ∀ d, fs'.Live d → isDirectory (fs'.inodes d) = true →
      ∃ entries names nums, Sparse fs' d entries names nums ∧ ∀ k < entries,
        makeDirentFromString fs'.data (entryAddr fs' (fs'.inodes d) k) = none ∨
          nums k < inodesNumber ∧ fs'.Live (nums k) := by
    intro d hlive hdirectory
    have hold := (h.live d).mp hlive
    obtain ⟨entries, names, nums, hsparse, hnums⟩ :=
      hs.directories d hold ((h.isDirectory_eq d).symm.trans hdirectory)
    refine ⟨entries, names, nums, h.sparse hold (hne d hdirectory) hsparse, fun k hk => ?_⟩
    obtain ⟨haddr, hbytes⟩ := (h.directory hold (hne d hdirectory) hsparse.toDirectory).2 k hk
    rw [haddr, makeDirent_congr fun i _ hi => hbytes i hi]
    exact (hnums k hk).imp_right fun hnum => ⟨hnum.1, (h.live _).mpr hnum.2⟩
  obtain ⟨i, hi, -, hroot⟩ := hs.resolves [] 0 rfl
  obtain rfl : i = 0 := by omega
  refine ⟨⟨h.count ▸ hs.count, howned, hcovered, resolves_of_searches ((h.live 0).mpr hroot) ?_⟩,
    hdirectories⟩
  intro d hlive hdirectory tok m hfind
  obtain ⟨entries, names, nums, hsparse, hnums⟩ := hdirectories d hlive hdirectory
  obtain ⟨k, hk, hm, hused⟩ := hsparse.findInodeNamed_mem hfind
  exact ⟨nums k, hm, (hnums k hk).resolve_left hused⟩

/-! ## What stays, and what a write changes -/

/-- Another inode has the references it had. -/
theorem Rewrites.ref_eq (h : Rewrites n fs fs') (hm : m ≠ n) (x : Place) :
    ref fs' (m, x) = ref fs (m, x) := by
  by_cases hlive : fs.Live m
  · rw [ref_of_live hlive, ref_of_live ((h.live m).mpr hlive), h.others m hm]
    cases x with
    | pointer => rfl
    | slot k =>
      apply slot_congr (fun _ => rfl) rfl
      intro hind
      have hpointer : ref fs (m, .pointer) = (fs.inodes m).indirect := ref_of_live hlive _
      rw [← hpointer] at hind ⊢
      exact h.blocks (m, .pointer) hm hind
  · rw [ref_of_dead hlive, ref_of_dead (mt (h.live m).mp hlive)]

theorem Rewrites.trans {fs'' : FileSystem} (h : Rewrites n fs fs') (h' : Rewrites n fs' fs'') :
    Rewrites n fs fs'' where
  count := h'.count.trans h.count
  others := fun m hm => (h'.others m hm).trans (h.others m hm)
  mode := h'.mode.trans h.mode
  live := fun m => (h'.live m).trans (h.live m)
  blocks := by
    rintro ⟨m, x⟩ hm hassigned
    have hsame := h'.blocks (m, x) hm (h.ref_eq hm x ▸ hassigned)
    rw [h.ref_eq hm x] at hsame
    exact (h.blocks (m, x) hm hassigned).trans hsame

/-- Another file has the bytes it had. -/
theorem Rewrites.fileByte_eq (h : Rewrites n fs fs') (hm : m ≠ n) (hlive : fs.Live m) {x : Nat}
    (hassigned : ref fs (m, .slot (x / blockSize)) ≠ unassignedNode) :
    fileByte fs' (fs'.inodes m) x = fileByte fs (fs.inodes m) x := by
  rw [fileByte_of_live hlive, fileByte_of_live ((h.live m).mpr hlive), h.ref_eq hm]
  exact (h.blocks (m, .slot (x / blockSize)) hm hassigned _ (Nat.mod_lt _ (by decide))).symm

theorem Rewrites.content_eq (h : Rewrites n fs fs') (hs : WellFormed fs) (hm : m ≠ n)
    (hlive : fs.Live m) : content fs' (fs'.inodes m) = content fs (fs.inodes m) := by
  rw [content, content, h.others m hm]
  apply List.map_congr_left
  intro x hx
  have hle := Nat.mul_div_le x blockSize
  have hsize := List.mem_range.mp hx
  rw [← h.fileByte_eq hm hlive (hs.covered m _ hlive (by omega)), h.others m hm]

theorem Grows.rewrites (h : Grows n fs fs') (ho : Owned fs) (hlive : fs.Live n) :
    Rewrites n fs fs' where
  count := h.count
  others := h.others
  mode := h.node.mode
  live := fun m => by
    by_cases hm : m = n
    · rw [hm]
      exact iff_of_true (h.live hlive) hlive
    · rw [FileSystem.Live, FileSystem.Live, h.others m hm]
  blocks := by
    intro x hx hassigned
    apply h.bytes _ (ho.mem x hassigned)
    intro heq
    exact hx (congrArg Prod.fst (ho.inj x (n, .pointer) hassigned heq))

theorem Patched.rewrites {f : Nat → Option UInt8} (h : Patched n f fs fs') (ho : Owned fs) :
    Rewrites n fs fs' where
  count := by rw [h.same]
  others := fun m _ => by rw [h.inodes]
  mode := by rw [h.inodes]
  live := fun _ => h.live
  blocks := by
    intro x hx hassigned
    apply h.sameBlock ho hassigned
    rintro k rfl
    exact hx rfl

/-- A new size and new times. -/
theorem rewrites_setInode (fs : FileSystem) (n size : Nat) (now : Timespec) :
    Rewrites n fs (fs.setInode n { fs.inodes n with size := size, atim := now, mtim := now }) where
  count := rfl
  others := fun m hm => FileSystem.setInode_of_ne _ _ hm
  mode := by rw [FileSystem.setInode_self]
  live := fun m => by
    by_cases hm : m = n
    · rw [FileSystem.Live, hm, FileSystem.setInode_self, FileSystem.Live]
    · rw [FileSystem.Live, FileSystem.setInode_of_ne _ _ hm, FileSystem.Live]
  blocks := fun _ _ _ _ _ => rfl

/-- The references do not depend on them. -/
theorem ref_setInode (fs : FileSystem) (n size : Nat) (now : Timespec) :
    ref (fs.setInode n { fs.inodes n with size := size, atim := now, mtim := now }) = ref fs := by
  ext ⟨m, x⟩
  by_cases hm : m = n
  · subst hm
    simp only [ref, FileSystem.setInode_self]
    cases x <;> rfl
  · simp only [ref, FileSystem.setInode_of_ne _ _ hm]
    cases x <;> rfl

/-- The unused blocks are those that the data map does not mark. -/
theorem unusedBlocks_congr (hcount : fs'.dblockCount = fs.dblockCount) (hmap : fs'.map = fs.map) :
    unusedBlocks fs' = unusedBlocks fs := by
  rw [unusedBlocks, unusedBlocks, hcount, hmap]

end Rewriting

/-! ## One write -/

section Write

variable {fs fs' : FileSystem} {n off : Nat} {buf path : List UInt8} {p : Picker} {now : Timespec}

/-- The blocks that a file of `size` bytes may need to have `size'` bytes. -/
def blocksFor (size size' : Nat) : Nat :=
  blocksToGrow (getCeil size blockSize) (getCeil size' blockSize)

/-- A write changes its file only, keeps its slots, and gives back `-1` or the number of bytes. The
bytes of all its blocks are known, also behind the end of the file. -/
structure Outcome (n off : Nat) (buf : List UInt8) (fs fs' : FileSystem) (r : Int) (off' : Nat) :
    Prop where
  rewrites : Rewrites n fs fs'
  owned : Owned fs'
  kept : ∀ x, ref fs x ≠ unassignedNode → ref fs' x = ref fs x
  spends : Spends (blocksFor (fs.inodes n).size (off + buf.length)) fs fs' r
  result : r = -1 ∧ off' = off ∧ (fs'.inodes n).size = (fs.inodes n).size ∧
      (∀ x, ref fs' (n, .slot (x / blockSize)) ≠ unassignedNode →
        fileByte fs' (fs'.inodes n) x = grownByte fs n x) ∨
    r = buf.length ∧ off' = off + buf.length ∧
      (fs'.inodes n).size = max (fs.inodes n).size (off + buf.length) ∧
      (∀ k, blockSize * k < off + buf.length → ref fs' (n, .slot k) ≠ unassignedNode) ∧
      ∀ x, ref fs' (n, .slot (x / blockSize)) ≠ unassignedNode →
        fileByte fs' (fs'.inodes n) x = (written buf off x).getD (grownByte fs n x)

/-- The bytes of the file after it has grown. -/
theorem Grows.fileByte_eq (h : Grows n fs fs') (ho : Owned fs) (hlive : fs.Live n) {x : Nat}
    (hassigned : ref fs' (n, .slot (x / blockSize)) ≠ unassignedNode) :
    fileByte fs' (fs'.inodes n) x = grownByte fs n x := by
  rw [fileByte_of_live (h.live hlive), h.byteAt_eq ho hassigned (Nat.mod_lt _ (by decide)),
    grownByte, fileByte_of_live hlive]

/-- The blocks that a file takes are no more than it needs. -/
theorem WellFormed.spends_of_blocks (h : WellFormed fs) (hlive : fs.Live n)
    (hmax : off + buf.length ≤ maxSize) {r : Int}
    (hblocks : minBlockcount p fs n (getCeil (off + buf.length) blockSize : Nat) = some (fs', r)) :
    Spends (blocksFor (fs.inodes n).size (off + buf.length)) fs fs' r := by
  have hceil : getCeil (off + buf.length) blockSize ≤ numDirectBlocks + numIndirectBlocks := by
    by_contra hlarge
    have hlt := lt_getCeil.mp (not_le.mp hlarge)
    rw [maxSize, Nat.mul_comm] at hmax
    omega
  obtain ⟨fs₁, r₁, hblocks₁, -, -, hspends, -⟩ := minBlockcount_spec p h.owned hlive h.count
    (show ((getCeil (off + buf.length) blockSize : Nat) : Int) ≤
      numDirectBlocks + numIndirectBlocks by exact_mod_cast hceil)
  obtain ⟨rfl, rfl⟩ := Prod.mk.inj (Option.some.inj (hblocks.symm.trans hblocks₁))
  -- the slots of the old content are assigned
  exact hspends _ fun k hk => h.covered n k hlive (lt_getCeil.mp hk)

theorem minixfsWrite_outcome (p : Picker) (now : Timespec) (h : WellFormed fs)
    (hpath : getInode fs path = some (some (n : Int))) (hmax : off + buf.length ≤ maxSize) :
    ∃ fs' r off', minixfsWrite p now fs path buf off = some (fs', r, off') ∧
      Outcome n off buf fs fs' r off' := by
  obtain ⟨i, hi, -, hlive⟩ := h.resolves path n hpath
  obtain rfl : n = i := by omega
  obtain ⟨fs₁, err, hblocks, ho₁, hgrows, ⟨rfl, hfail⟩ | ⟨hslots, fs₂, hpatch, hdone⟩⟩ :=
    minixfsWrite_cases p now h hpath hmax
  all_goals have hspends := h.spends_of_blocks hlive hmax hblocks
  · exact ⟨fs₁, -1, off, hfail, hgrows.rewrites h.owned hlive, ho₁, hgrows.kept, hspends,
      Or.inl ⟨rfl, rfl, hgrows.node.size, fun x hassigned =>
        hgrows.fileByte_eq h.owned hlive hassigned⟩⟩
  · refine ⟨_, _, _, hdone, ?_⟩
    have hrewrites := ((hgrows.rewrites h.owned hlive).trans (hpatch.rewrites ho₁)).trans
      (rewrites_setInode fs₂ n (max (fs₂.inodes n).size (off + buf.length)) now)
    have href : ref (fs₂.setInode n { fs₂.inodes n with
        size := max (fs₂.inodes n).size (off + buf.length), atim := now, mtim := now }) = ref fs₁ :=
      (ref_setInode _ _ _ _).trans (hpatch.ref_eq ho₁)
    have hlive₁ := hgrows.live hlive
    -- the bytes and the size are written into blocks that are there already
    have hunused : unusedBlocks (fs₂.setInode n { fs₂.inodes n with
        size := max (fs₂.inodes n).size (off + buf.length), atim := now, mtim := now }) =
          unusedBlocks fs₁ :=
      unusedBlocks_congr (hpatch.rewrites ho₁).count (by rw [hpatch.same]; rfl)
    refine ⟨hrewrites, ?_, fun x hx => ?_, ⟨hunused ▸ hspends.le, hunused ▸ hspends.bound, fun hr =>
      by omega⟩, Or.inr ⟨rfl, rfl, ?_, fun k hk => ?_, fun x hx => ?_⟩⟩
    · have huse : inUse (fs₂.setInode n { fs₂.inodes n with
          size := max (fs₂.inodes n).size (off + buf.length), atim := now, mtim := now }) =
          inUse fs₁ := hpatch.inUse_eq
      rw [Owned, href, huse]
      exact ho₁
    · rw [href]
      exact hgrows.kept x hx
    · rw [FileSystem.setInode_self, hpatch.inodes, hgrows.node.size]
    · rw [href]
      exact hslots k hk
    · rw [href] at hx
      have hmod : x % blockSize < blockSize := Nat.mod_lt _ (by decide)
      have hbytes := hpatch.bytes _ hx _ hmod
      rw [Nat.div_add_mod x blockSize, ← fileByte_of_live hlive₁,
        hgrows.fileByte_eq h.owned hlive hx, ← hpatch.ref_eq ho₁,
        ← fileByte_of_live (hpatch.live.mpr hlive₁)] at hbytes
      rw [FileSystem.setInode_self]
      exact hbytes

/-! ## Files that are clear behind their end -/

/-- The blocks of a file hold zeros behind its end. -/
def ClearTails (fs : FileSystem) : Prop :=
  ∀ n, fs.Live n → isDirectory (fs.inodes n) = false → ∀ x, (fs.inodes n).size ≤ x →
    ref fs (n, .slot (x / blockSize)) ≠ unassignedNode → fileByte fs (fs.inodes n) x = 0

theorem ClearTails.grownByte (h : ClearTails fs) (hlive : fs.Live n)
    (hfile : isDirectory (fs.inodes n) = false) {x : Nat} (hx : (fs.inodes n).size ≤ x) :
    grownByte fs n x = 0 := by
  rw [Minixfs.grownByte]
  split_ifs with hassigned
  · exact h n hlive hfile x hx hassigned
  · rfl

/-- A write within a block. -/
theorem written_of_le (hblock : buf.length ≤ blockSize - off % blockSize) (x : Nat) :
    written buf off x =
      if off ≤ x ∧ x < off + buf.length then some (buf.getD (x - off) 0) else none := by
  rw [written, firstChunk, min_eq_left hblock]
  by_cases hin : off ≤ x ∧ x < off + buf.length
  · rw [if_pos hin, if_pos hin, if_pos hin.2]
  · rw [if_neg hin, if_neg hin]

theorem Outcome.clearTails {r : Int} {off' : Nat} (h : Outcome n off buf fs fs' r off')
    (hclear : ClearTails fs) (hlive : fs.Live n) (hfile : isDirectory (fs.inodes n) = false) :
    ClearTails fs' := by
  intro m hm hmfile x hx hassigned
  by_cases hmn : m = n
  · subst hmn
    rcases h.result with ⟨-, -, hsize, hbytes⟩ | ⟨-, -, hsize, -, hbytes⟩
    · rw [hbytes x hassigned]
      exact hclear.grownByte hlive hfile (hsize ▸ hx)
    · rw [hsize] at hx
      rw [hbytes x hassigned, written, if_neg (by omega), Option.getD_none]
      exact hclear.grownByte hlive hfile (by omega)
  · have hold := (h.rewrites.live m).mp hm
    rw [h.rewrites.ref_eq hmn] at hassigned
    rw [h.rewrites.fileByte_eq hmn hold hassigned]
    rw [h.rewrites.isDirectory_eq] at hmfile
    rw [h.rewrites.others m hmn] at hx
    exact hclear m hold hmfile x hx hassigned

theorem Outcome.covered {r : Int} {off' : Nat} (h : Outcome n off buf fs fs' r off')
    (hs : WellFormed fs) (hlive : fs.Live n) (m k : Nat) (hm : fs'.Live m)
    (hk : blockSize * k < (fs'.inodes m).size) : ref fs' (m, .slot k) ≠ unassignedNode := by
  have hkept : ref fs (m, .slot k) ≠ unassignedNode → ref fs' (m, .slot k) ≠ unassignedNode :=
    fun hassigned => (h.kept _ hassigned).symm ▸ hassigned
  by_cases hmn : m = n
  · subst hmn
    rcases h.result with ⟨-, -, hsize, -⟩ | ⟨-, -, hsize, hslots, -⟩
    · exact hkept (hs.covered m k hlive (hsize ▸ hk))
    · rw [hsize] at hk
      by_cases hnew : blockSize * k < off + buf.length
      · exact hslots k hnew
      · exact hkept (hs.covered m k hlive (by omega))
  · rw [h.rewrites.others m hmn] at hk
    exact hkept (hs.covered m k ((h.rewrites.live m).mp hm) hk)

/-- The content of the file that is written. -/
theorem Outcome.content_eq {r : Int} {off' : Nat} (h : Outcome n off buf fs fs' r off')
    (hs : WellFormed fs) (hclear : ClearTails fs) (hlive : fs.Live n)
    (hfile : isDirectory (fs.inodes n) = false)
    (hblock : buf.length ≤ blockSize - off % blockSize) :
    content fs' (fs'.inodes n) =
      if r = -1 then content fs (fs.inodes n) else overlay (content fs (fs.inodes n)) buf off := by
  have hassigned : ∀ x < (fs'.inodes n).size,
      ref fs' (n, .slot (x / blockSize)) ≠ unassignedNode := fun x hx => by
    have hle := Nat.mul_div_le x blockSize
    exact h.covered hs hlive n _ ((h.rewrites.live n).mpr hlive) (by omega)
  -- behind the end of the file there are zeros, also in its last block
  have hgrown : ∀ x, (content fs (fs.inodes n)).getD x 0 = grownByte fs n x := fun x => by
    by_cases hold : x < (fs.inodes n).size
    · have hle := Nat.mul_div_le x blockSize
      rw [getD_content hold, grownByte, if_pos (hs.covered n _ hlive (by omega))]
    · rw [List.getD_eq_default _ _ (by rw [length_content]; omega),
        hclear.grownByte hlive hfile (not_lt.mp hold)]
  rcases h.result with ⟨rfl, -, hsize, hbytes⟩ | ⟨rfl, -, hsize, -, hbytes⟩
  · rw [if_pos rfl, content_eq_iff (by rw [length_content, hsize])]
    intro x hx
    rw [hbytes x (hassigned x hx), hgrown]
  · rw [if_neg (by omega), content_eq_iff (by rw [length_overlay, length_content, hsize])]
    intro x hx
    rw [hbytes x (hassigned x hx), written_of_le hblock, getD_overlay, hgrown]
    split_ifs <;> rfl

end Write

/-! ## Reads -/

section Read

variable {fs fs' : FileSystem} {n : Nat}

theorem Touched.rewrites (h : Touched n fs fs') : Rewrites n fs fs' := by
  obtain ⟨time, rfl⟩ := h
  refine ⟨rfl, fun m hm => FileSystem.setInode_of_ne _ _ hm, ?_, fun m => ?_, fun _ _ _ _ _ => rfl⟩
  · rw [FileSystem.setInode_self]
  · exact Touched.live ⟨time, rfl⟩

theorem Touched.clearTails (h : Touched n fs fs') (hclear : ClearTails fs) : ClearTails fs' := by
  intro m hm hfile x hx hassigned
  have hold := h.live.mp hm
  have hdata : fs'.data = fs.data := by
    obtain ⟨_, rfl⟩ := h
    rfl
  rw [h.rewrites.isDirectory_eq] at hfile
  rw [h.size] at hx
  rw [h.ref_eq] at hassigned
  rw [fileByte_of_live hm, h.ref_eq, hdata, ← fileByte_of_live hold]
  exact hclear m hold hfile x hx hassigned

end Read

/-! ## The store -/

/-- A call of `minixfs_read` or `minixfs_write`, with the clock, the memory and the free blocks
that it meets. -/
inductive Access where
  | read (heap : Nat → UInt8) (now : Timespec) (path : List UInt8) (count off : Nat)
  | write (p : Picker) (now : Timespec) (path buf : List UInt8) (off : Nat)

/-- What a call gives back: its result, the bytes in the buffer, and the new offset. -/
structure Reply where
  result : Int
  bytes : List UInt8
  off : Nat

def serve (fs : FileSystem) : Access → Option (FileSystem × Reply)
  | .read heap now path count off =>
    (minixfsRead heap now fs path count off).map fun r => (r.1, ⟨r.2.1, r.2.2.1, r.2.2.2⟩)
  | .write p now path buf off =>
    (minixfsWrite p now fs path buf off).map fun r => (r.1, ⟨r.2.1, [], r.2.2⟩)

/-- A call in a session, which keeps the replies. -/
def answer (s : FileSystem × List Reply) (req : Access) : Option (FileSystem × List Reply) :=
  (serve s.1 req).map fun r => (r.1, s.2 ++ [r.2])

/-- A string of bytes for each file, and the number of free blocks. -/
structure Store where
  content : Nat → List UInt8
  free : Nat

/-- **What a store gives back.** A write fails if the file would get too large, or when there are
fewer free blocks than the file may need; the file then takes those that are left. -/
inductive Answers (name : List UInt8 → Option (Option Int)) (store : Store) :
    Access → Reply → Store → Prop
  | read {heap : Nat → UInt8} {now : Timespec} {path : List UInt8} {count off n : Nat}
    (hname : name path = some (some (n : Int))) :
    Answers name store (.read heap now path count off)
      ⟨(readLength (store.content n).length count off : Nat),
        ((store.content n).drop off).take (readLength (store.content n).length count off),
        off + readLength (store.content n).length count off⟩ store
  | write {p : Picker} {now : Timespec} {path buf : List UInt8} {off n free : Nat}
    (hname : name path = some (some (n : Int))) (hle : free ≤ store.free)
    (hbound : store.free ≤ free + blocksFor (store.content n).length (off + buf.length)) :
    Answers name store (.write p now path buf off) ⟨buf.length, [], off + buf.length⟩
      ⟨Function.update store.content n (overlay (store.content n) buf off), free⟩
  | tooLarge {p : Picker} {now : Timespec} {path buf : List UInt8} {off : Nat}
    (hlarge : maxSize < off + buf.length) :
    Answers name store (.write p now path buf off) ⟨-1, [], off⟩ store
  | full {p : Picker} {now : Timespec} {path buf : List UInt8} {off n : Nat}
    (hname : name path = some (some (n : Int)))
    (hfull : store.free < blocksFor (store.content n).length (off + buf.length)) :
    Answers name store (.write p now path buf off) ⟨-1, [], off⟩ { store with free := 0 }

/-- One answer after the other. -/
inductive Serves (name : List UInt8 → Option (Option Int)) :
    Store → List Access → List Reply → Store → Prop
  | nil {store : Store} : Serves name store [] [] store
  | snoc {store store₁ store₂ : Store} {reqs : List Access} {replies : List Reply}
    {req : Access} {reply : Reply} (h : Serves name store reqs replies store₁)
    (hlast : Answers name store₁ req reply store₂) :
    Serves name store (reqs ++ [req]) (replies ++ [reply]) store₂

/-- The store has what the files have, and as many free blocks. -/
structure Holds (fs : FileSystem) (store : Store) : Prop where
  content : ∀ n, fs.Live n → store.content n = content fs (fs.inodes n)
  free : store.free = unusedBlocks fs

def Access.path : Access → List UInt8
  | .read _ _ path _ _ => path
  | .write _ _ path _ _ => path

/-- A call on a regular file; a write within a block. -/
structure Access.Proper (fs : FileSystem) (req : Access) : Prop where
  string : (0 : UInt8) ∉ req.path
  plain : isVirtualPath req.path = none
  file : ∃ n : Nat, getInode fs req.path = some (some (n : Int)) ∧
    isDirectory (fs.inodes n) = false
  block : ∀ p now path buf off, req = .write p now path buf off →
    buf.length ≤ blockSize - off % blockSize ∧ off + buf.length < 2 ^ 64

/-- What a session keeps of the file system `fs₀` that it begins with. -/
structure Session (fs₀ fs : FileSystem) : Prop where
  searchable : Searchable fs
  clear : ClearTails fs
  names : ∀ path, (0 : UInt8) ∉ path → ∀ r, getInode fs₀ path = some (some r) →
    getInode fs path = some (some r)
  files : ∀ n, isDirectory (fs.inodes n) = isDirectory (fs₀.inodes n)

section Sessions

variable {fs₀ fs fs' : FileSystem} {n : Nat} {store : Store} {req : Access}

theorem Session.start (hs : Searchable fs) (hclear : ClearTails fs) : Session fs fs :=
  ⟨hs, hclear, fun _ _ _ h => h, fun _ => rfl⟩

/-- A change of a regular file. -/
theorem Session.next (h : Session fs₀ fs) (hrewrites : Rewrites n fs fs')
    (hfile : isDirectory (fs.inodes n) = false) (howned : Owned fs')
    (hcovered : ∀ m k, fs'.Live m → blockSize * k < (fs'.inodes m).size →
      ref fs' (m, .slot k) ≠ unassignedNode) (hclear : ClearTails fs') : Session fs₀ fs' where
  searchable := hrewrites.searchable h.searchable hfile howned hcovered
  clear := hclear
  names := fun path hzero r hr =>
    hrewrites.getInode_eq h.searchable hfile hzero (h.names path hzero r hr)
  files := fun m => (hrewrites.isDirectory_eq m).trans (h.files m)

theorem Holds.update (h : Holds fs store) (hs : WellFormed fs) (hrewrites : Rewrites n fs fs') :
    Holds fs' ⟨Function.update store.content n (Minixfs.content fs' (fs'.inodes n)),
      unusedBlocks fs'⟩ := by
  refine ⟨fun m hm => ?_, rfl⟩
  dsimp only
  by_cases hmn : m = n
  · rw [hmn, Function.update_self]
  · rw [Function.update_of_ne hmn, h.content m ((hrewrites.live m).mp hm)]
    exact (hrewrites.content_eq hs hmn ((hrewrites.live m).mp hm)).symm

/-- **One call.** -/
theorem serve_answers (h : Session fs₀ fs) (hstore : Holds fs store) (hreq : req.Proper fs₀) :
    ∃ fs' reply store', serve fs req = some (fs', reply) ∧ Session fs₀ fs' ∧ Holds fs' store' ∧
      Answers (getInode fs₀) store req reply store' := by
  obtain ⟨n, hname, hfile⟩ := hreq.file
  have hpath := h.names req.path hreq.string n hname
  rw [← h.files n] at hfile
  obtain ⟨i, hi, -, hlive⟩ := h.searchable.resolves _ _ hpath
  obtain rfl : n = i := by omega
  cases req with
  | read heap now path count off =>
    obtain ⟨fs', htouched, hread⟩ := minixfsRead_eq h.searchable.toWellFormed hreq.plain hpath heap
      now count off
    have hwf := htouched.wellFormed h.searchable.toWellFormed
    have hsize : (fs.inodes n).size = (store.content n).length := by
      rw [hstore.content n hlive, length_content]
    rw [hsize, ← hstore.content n hlive] at hread
    refine ⟨fs', _, store, ?_, h.next htouched.rewrites hfile hwf.owned hwf.covered
      (htouched.clearTails h.clear), ⟨fun m hm => ?_, ?_⟩, Answers.read hname⟩
    · exact congrArg (Option.map _) hread
    · rw [htouched.content_eq]
      exact hstore.content m (htouched.live.mp hm)
    · obtain ⟨time, rfl⟩ := htouched
      exact hstore.free
  | write p now path buf off =>
    obtain ⟨hblock, hlarge⟩ := hreq.block _ _ _ _ _ rfl
    have hstored := hstore.content n hlive
    by_cases hmax : off + buf.length ≤ maxSize
    · obtain ⟨fs', r, off', hwrite, houtcome⟩ :=
        minixfsWrite_outcome p now h.searchable.toWellFormed hpath hmax
      have hsession : Session fs₀ fs' := h.next houtcome.rewrites hfile houtcome.owned
        (houtcome.covered h.searchable.toWellFormed hlive) (houtcome.clearTails h.clear hlive hfile)
      have hcontent := houtcome.content_eq h.searchable.toWellFormed h.clear hlive hfile hblock
      have hupdate := hstore.update h.searchable.toWellFormed houtcome.rewrites
      have hserve : serve fs (.write p now path buf off) = some (fs', ⟨r, [], off'⟩) :=
        congrArg (Option.map _) hwrite
      have hspends := houtcome.spends
      have hlength : (store.content n).length = (fs.inodes n).size := by
        rw [hstored, length_content]
      rw [← hlength] at hspends
      rcases houtcome.result with ⟨rfl, rfl, -, -⟩ | ⟨rfl, rfl, -, -, -⟩
      · obtain ⟨hnone, hfull⟩ := hspends.full rfl
        rw [hcontent, if_pos rfl, ← hstored, Function.update_eq_self, hnone] at hupdate
        rw [← hstore.free] at hfull
        exact ⟨fs', _, _, hserve, hsession, hupdate, Answers.full hname hfull⟩
      · rw [hcontent, if_neg (by omega), ← hstored] at hupdate
        exact ⟨fs', _, _, hserve, hsession, hupdate, Answers.write hname
          (hstore.free ▸ hspends.le) (hstore.free ▸ hspends.bound)⟩
    · -- the file would get too large
      have hwrite : minixfsWrite p now fs path buf off = some (fs, -1, off) := by
        rw [minixfsWrite, Nat.mod_eq_of_lt hlarge, if_pos (not_le.mp hmax)]
      exact ⟨fs, _, store, congrArg (Option.map _) hwrite, h, hstore,
        Answers.tooLarge (not_le.mp hmax)⟩

/-- **The file system is a store of strings.** In a file system that can be searched, and whose
files are clear behind their end, every sequence of reads and of writes within a block on its
regular files goes through. Its replies are those of a store that keeps a string of bytes for each
file and counts its free blocks, which is what the file system holds in the end, and every path
leads where it led before. -/
theorem sessions_refine_store (hs : Searchable fs) (hclear : ClearTails fs)
    (hstore : Holds fs store) {reqs : List Access} (hreqs : ∀ req ∈ reqs, req.Proper fs) :
    ∃ fs' replies store', run answer (fs, []) reqs = some (fs', replies) ∧
      Serves (getInode fs) store reqs replies store' ∧ Holds fs' store' ∧
      ∀ path, (0 : UInt8) ∉ path → ∀ r, getInode fs path = some (some r) →
        getInode fs' path = some (some r) := by
  have hrun : ∃ fs' replies store', run answer (fs, []) reqs = some (fs', replies) ∧
      Serves (getInode fs) store reqs replies store' ∧ Holds fs' store' ∧ Session fs fs' := by
    induction reqs using List.reverseRecOn with
    | nil => exact ⟨fs, [], store, rfl, .nil, hstore, Session.start hs hclear⟩
    | append_singleton reqs req ih =>
      obtain ⟨fs₁, replies, store₁, hrun, hserves, hstore₁, hsession⟩ :=
        ih fun req hreq => hreqs req (List.mem_append_left _ hreq)
      have hproper := hreqs req (List.mem_append_right _ List.mem_cons_self)
      obtain ⟨fs', reply, store', hserve, hsession', hstore', hanswers⟩ :=
        serve_answers hsession hstore₁ hproper
      refine ⟨fs', replies ++ [reply], store', ?_, .snoc hserves hanswers, hstore', hsession'⟩
      refine run_snoc_eq_some.mpr ⟨_, hrun, ?_⟩
      rw [answer, hserve]
      rfl
  obtain ⟨fs', replies, store', hrun, hserves, hstore', hsession⟩ := hrun
  exact ⟨fs', replies, store', hrun, hserves, hstore', hsession.names⟩

/-- A file that was just made is written behind a hole, and read. -/
theorem sessions_refine_store_a : ∃ fs' replies store',
    run answer (firstFile, []) [.write lowest 5 (chars "/a") [7, 8] 1,
      .read (fun _ => 0) 6 (chars "/a") 9 0] = some (fs', replies) ∧
    Serves (getInode firstFile)
      ⟨fun n => content firstFile (firstFile.inodes n), unusedBlocks firstFile⟩
      [.write lowest 5 (chars "/a") [7, 8] 1, .read (fun _ => 0) 6 (chars "/a") 9 0] replies
      store' ∧ Holds fs' store' := by
  have hpath : getInode firstFile (chars "/a") = some (some ((1 : Nat) : Int)) := by decide +kernel
  have hfile : isDirectory (firstFile.inodes 1) = false := by decide +kernel
  have hclear : ClearTails firstFile := by
    intro n hlive hn x _ hassigned
    rw [firstFile_spec.ref] at hassigned
    split_ifs at hassigned with heq
    · -- the only block is that of the root directory
      obtain rfl : n = 0 := congrArg Prod.fst heq
      rw [show isDirectory (firstFile.inodes 0) = true by decide +kernel] at hn
      cases hn
    · exact absurd rfl hassigned
  have hreqs : ∀ req ∈ [Access.write lowest 5 (chars "/a") [7, 8] 1,
      .read (fun _ => 0) 6 (chars "/a") 9 0], req.Proper firstFile := by
    intro req hreq
    rcases List.mem_cons.mp hreq with rfl | hreq
    · refine ⟨by simp [Access.path, chars], by decide, ⟨1, hpath, hfile⟩, ?_⟩
      rintro _ _ _ _ _ ⟨⟩
      exact ⟨by decide, by decide⟩
    · obtain rfl := List.mem_singleton.mp hreq
      refine ⟨by simp [Access.path, chars], by decide, ⟨1, hpath, hfile⟩, ?_⟩
      rintro _ _ _ _ _ ⟨⟩
  have hstore : Holds firstFile
      ⟨fun n => content firstFile (firstFile.inodes n), unusedBlocks firstFile⟩ :=
    ⟨fun _ _ => by dsimp only, by dsimp only⟩
  obtain ⟨fs', replies, store', hrun, hserves, hholds, -⟩ :=
    sessions_refine_store firstFile_spec.searchable hclear hstore hreqs
  exact ⟨fs', replies, store', hrun, hserves, hholds⟩

end Sessions

end SystemProgramming.Minixfs
