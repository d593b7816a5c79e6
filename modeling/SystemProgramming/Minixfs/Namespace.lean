import Mathlib.Tactic
import SystemProgramming.Minixfs.Creating
import SystemProgramming.Minixfs.Ownership
import SystemProgramming.Minixfs.Types
import SystemProgramming.Minixfs.Writing

/-!
# Creating keeps the namespace

`minixfs_create_inode_for_path` writes the new entry to the beginning of a block: of a new block
where the size of the parent is a multiple of the size of a block, and else of the last block,
over the entry that is there. A new block goes to the first free slot, which is not the one
behind the last entry where a slot is still assigned from before. So the names of a directory
are kept only where the block is in its place and begins with an entry that is not in use.

## Main definitions

* `Sparse`, `Searchable`: directories in which some entries are not in use
* `Inserts`: what a directory with one more entry is like
* `HasRoom`: where the new entry is in its place

## Main results

* `Inserts.getInode_eq`, `Inserts.getInode_new`: the lookups afterwards
* `create_keeps_names`
-/

namespace SystemProgramming.Minixfs

/-! ## Directories with unused entries -/

/-- The directory `d` has the given names and inode numbers, where the entry is in use. -/
structure Sparse (fs : FileSystem) (d entries : Nat) (names : Nat → List UInt8)
    (nums : Nat → Nat) : Prop extends Directory fs (fs.inodes d) entries where
  entry : ∀ k < entries, makeDirentFromString fs.data (entryAddr fs (fs.inodes d) k) = none ∨
    EntryAt fs.data (entryAddr fs (fs.inodes d) k) (names k) (nums k)

/-- A well-formed file system whose directories lead to live inodes. -/
structure Searchable (fs : FileSystem) : Prop extends WellFormed fs where
  directories : ∀ d, fs.Live d → isDirectory (fs.inodes d) = true →
    ∃ entries names nums, Sparse fs d entries names nums ∧ ∀ k < entries,
      makeDirentFromString fs.data (entryAddr fs (fs.inodes d) k) = none ∨
        nums k < inodesNumber ∧ fs.Live (nums k)

theorem hit_of_none {data : Memory} {a : Nat} (h : makeDirentFromString data a = none)
    (tok : List UInt8) : hit data tok a = none := by
  rw [hit, h, Option.bind_none]

/-- A search where everything that is found is the same. -/
theorem findSome?_eq_some_of_forall {α β : Type} {f : α → Option β} {l : List α} {v : β}
    (hall : ∀ x ∈ l, f x = none ∨ f x = some v) (hex : ∃ x ∈ l, f x = some v) :
    l.findSome? f = some v := by
  obtain ⟨x, hx, hfx⟩ := hex
  obtain ⟨i, hi⟩ : ∃ i, l.findSome? f = some i := by
    rw [← Option.isSome_iff_exists, List.findSome?_isSome_iff]
    exact ⟨x, hx, by rw [hfx]; rfl⟩
  obtain ⟨y, hy, hfy⟩ := List.exists_of_findSome?_eq_some hi
  rcases hall y hy with hnone | hsome
  · rw [hnone] at hfy
    cases hfy
  · rw [hi, ← hfy, hsome]

section Directories

variable {fs fs' : FileSystem} {d entries k : Nat} {names : Nat → List UInt8} {nums : Nat → Nat}
  {tok : List UInt8} {m : Int}

/-- A search that ends began with an entry that is in use. -/
theorem Directory.first_isSome {root : Inode} (h : Directory fs root entries)
    (hpos : 0 < entries) {r : Option Int} (hfind : findInodeNamed fs root tok = some r) :
    (makeDirentFromString fs.data (entryAddr fs root 0)).isSome := by
  obtain ⟨b, harray, hb, hlt, hassigned⟩ := h.blockArray (q := 0) (by simpa using hpos)
  have haddr : entryAddr fs root 0 = blockSize * b := by
    simpa using entryAddr_add (q := 0) (i := 0) (by decide) hb
  have hsize : root.size ≠ 0 := by
    rw [h.size]
    exact Nat.mul_ne_zero (by decide) hpos.ne'
  rw [haddr]
  by_contra hnone
  rw [Option.not_isSome_iff_eq_none] at hnone
  have hscan : scanBlock fs.data tok (blockSize / fileNameEntry) (blockSize * b) root.size none =
      none := by
    rw [show blockSize / fileNameEntry = 63 + 1 from rfl, scanBlock, if_neg hsize, hnone]
    rfl
  have harray' : Minixfs.blockArray fs root false 0 = some (b : Int) := harray
  have hassigned' : root.direct 0 ≠ unassignedNode := hassigned
  obtain ⟨rounds, hrounds⟩ : ∃ rounds, maxRounds = rounds + 1 :=
    Nat.exists_eq_succ_of_ne_zero (by simp only [maxRounds]; omega)
  rw [findInodeNamed, hrounds, Minixfs.scanBlocks, if_neg (not_or.mpr ⟨hsize, hassigned'⟩),
    harray'] at hfind
  simp only [Option.bind_eq_bind, Option.bind_some, block_natCast hlt, hscan, Option.bind_none]
    at hfind
  cases hfind

/-- What a search finds. -/
theorem Directory.findInodeNamed_some {root : Inode} (h : Directory fs root entries)
    {r : Option Int} (hfind : findInodeNamed fs root tok = some r) :
    r = (List.range entries).findSome? fun k => hit fs.data tok (entryAddr fs root k) := by
  have hfirst : entries = 0 ∨
      (makeDirentFromString fs.data (entryAddr fs root 0)).isSome := by
    rcases Nat.eq_zero_or_pos entries with hzero | hpos
    · exact Or.inl hzero
    · exact Or.inr (h.first_isSome hpos hfind)
  rw [findInodeNamed_eq h tok hfirst] at hfind
  exact (Option.some.inj hfind).symm

/-- An entry that keeps its bytes is found as before. -/
theorem Sparse.hit_eq (h : Sparse fs d entries names nums) (hk : k < entries)
    (htok : (0 : UInt8) ∉ tok) {data' : Memory}
    (hbytes : ∀ i < fileNameEntry, data' (entryAddr fs (fs.inodes d) k + i) =
      fs.data (entryAddr fs (fs.inodes d) k + i)) :
    hit data' tok (entryAddr fs (fs.inodes d) k) =
      hit fs.data tok (entryAddr fs (fs.inodes d) k) := by
  rcases h.entry k hk with hnone | hentry
  · rw [hit_of_none hnone, hit_of_none ((makeDirent_congr fun i _ hi => hbytes i hi).trans hnone)]
  · rw [hentry.hit htok, (hentry.copy hbytes).hit htok]

/-- What is found is the number of an entry that is in use. -/
theorem Sparse.findInodeNamed_mem (h : Sparse fs d entries names nums)
    (hfind : findInodeNamed fs (fs.inodes d) tok = some (some m)) :
    ∃ k < entries, m = nums k ∧
      makeDirentFromString fs.data (entryAddr fs (fs.inodes d) k) ≠ none := by
  obtain ⟨k, hk, hhit⟩ := List.exists_of_findSome?_eq_some
    (h.toDirectory.findInodeNamed_some hfind).symm
  have hlt := List.mem_range.mp hk
  rcases h.entry k hlt with hnone | hentry
  · rw [hit_of_none hnone] at hhit
    cases hhit
  · rw [hit, hentry.number, Option.bind_some] at hhit
    split_ifs at hhit
    refine ⟨k, hlt, (Option.some.inj hhit).symm, ?_⟩
    rw [hentry.number]
    exact Option.some_ne_none _

/-- A directory leads to live inodes. -/
theorem Searchable.findInodeNamed_live (h : Searchable fs) (hlive : fs.Live d)
    (hdir : isDirectory (fs.inodes d) = true)
    (hfind : findInodeNamed fs (fs.inodes d) tok = some (some m)) :
    ∃ i : Nat, m = i ∧ i < inodesNumber ∧ fs.Live i := by
  obtain ⟨entries, names, nums, hsparse, hnums⟩ := h.directories d hlive hdir
  obtain ⟨k, hk, hm, hused⟩ := hsparse.findInodeNamed_mem hfind
  exact ⟨nums k, hm, (hnums k hk).resolve_left hused⟩

end Directories

/-! ## A directory with one more entry -/

/-- The directory `d` has one more entry. It leads from `name` to `new`; what was found is found
as before, and other inodes and their blocks stay as they are. -/
structure Inserts (fs fs' : FileSystem) (d entries new : Nat) (name : List UInt8) : Prop where
  count : fs'.dblockCount = fs.dblockCount
  others : ∀ m, m ≠ d → fs.Live m → fs'.inodes m = fs.inodes m
  blocks : ∀ x : Nat × Place, x.1 ≠ d → ref fs x ≠ unassignedNode →
    SameBlock fs.data fs'.data (ref fs x)
  mode : (fs'.inodes d).mode = (fs.inodes d).mode
  directory : Directory fs' (fs'.inodes d) (entries + 1)
  first : (makeDirentFromString fs'.data (entryAddr fs' (fs'.inodes d) 0)).isSome
  hits : ∀ k < entries, ∀ tok, (0 : UInt8) ∉ tok → tok ≠ name →
    hit fs'.data tok (entryAddr fs' (fs'.inodes d) k) =
      hit fs.data tok (entryAddr fs (fs.inodes d) k)
  named : ∀ k < entries, hit fs'.data name (entryAddr fs' (fs'.inodes d) k) = none ∨
    hit fs'.data name (entryAddr fs' (fs'.inodes d) k) = some (new : Int)
  found : ∃ k ≤ entries, hit fs'.data name (entryAddr fs' (fs'.inodes d) k) = some (new : Int)

namespace Inserts

variable {fs fs' : FileSystem} {d entries new m : Nat} {name tok path : List UInt8}
  {toks : List (List UInt8)}

/-- The search for the new name. -/
theorem findInodeNamed_new (h : Inserts fs fs' d entries new name) :
    findInodeNamed fs' (fs'.inodes d) name = some (some (new : Int)) := by
  rw [findInodeNamed_eq h.directory name (Or.inr h.first)]
  apply congrArg some
  obtain ⟨k, hk, hhit⟩ := h.found
  rcases Nat.lt_or_eq_of_le hk with hlt | rfl
  · rw [List.range_succ, List.findSome?_append, findSome?_eq_some_of_forall
      (fun j hj => h.named j (List.mem_range.mp hj)) ⟨k, List.mem_range.mpr hlt, hhit⟩,
      Option.some_or]
  · apply findSome?_eq_some_of_forall _ ⟨k, List.mem_range.mpr (Nat.lt_succ_self k), hhit⟩
    intro j hj
    rcases Nat.lt_succ_iff_lt_or_eq.mp (List.mem_range.mp hj) with hlt | rfl
    · exact h.named j hlt
    · exact Or.inr hhit

/-- The search for a name that was there. -/
theorem findInodeNamed_old (h : Inserts fs fs' d entries new name)
    (hdir : Directory fs (fs.inodes d) entries)
    (habsent : findInodeNamed fs (fs.inodes d) name = some none) (htok : (0 : UInt8) ∉ tok)
    {i : Int} (hfind : findInodeNamed fs (fs.inodes d) tok = some (some i)) :
    findInodeNamed fs' (fs'.inodes d) tok = some (some i) := by
  have hne : tok ≠ name := by
    rintro rfl
    rw [habsent] at hfind
    cases Option.some.inj hfind
  have hold := hdir.findInodeNamed_some hfind
  have hsame : (List.range entries).findSome?
      (fun k => hit fs'.data tok (entryAddr fs' (fs'.inodes d) k)) = some i := by
    rw [hold]
    exact findSome?_congr fun k hk => h.hits k (List.mem_range.mp hk) tok htok hne
  rw [findInodeNamed_eq h.directory tok (Or.inr h.first), List.range_succ,
    List.findSome?_append, hsame, Option.some_or]

/-- The search of another directory. -/
theorem findInodeNamed_other (h : Inserts fs fs' d entries new name) {e : Nat}
    {names : Nat → List UInt8} {nums : Nat → Nat} (hlive : fs.Live m) (hm : m ≠ d)
    (hsparse : Sparse fs m e names nums) (htok : (0 : UInt8) ∉ tok) {i : Int}
    (hfind : findInodeNamed fs (fs.inodes m) tok = some (some i)) :
    findInodeNamed fs' (fs'.inodes m) tok = some (some i) := by
  have hnode : SameEntries (fs.inodes m) (fs'.inodes m) := by
    rw [h.others m hm hlive]
    exact ⟨rfl, rfl, rfl, rfl⟩
  have hpointer : ref fs (m, .pointer) = (fs.inodes m).indirect := ref_of_live hlive _
  have hslot : ∀ q, ref fs (m, .slot q) = slot (fs.inodes m) fs.data q := fun q =>
    ref_of_live hlive _
  obtain ⟨hdir, hentries⟩ := hsparse.toDirectory.frame h.count hnode
    (fun hne => hpointer ▸ h.blocks (m, .pointer) hm (hpointer ▸ hne))
    (fun q hq => hslot q ▸ h.blocks (m, .slot q) hm (hslot q ▸ (hsparse.slots q hq).1))
  have hhits : ∀ k < e, hit fs'.data tok (entryAddr fs' (fs'.inodes m) k) =
      hit fs.data tok (entryAddr fs (fs.inodes m) k) := by
    intro k hk
    obtain ⟨haddr, hbytes⟩ := hentries k hk
    rw [haddr]
    exact hsparse.hit_eq hk htok hbytes
  have hold := hsparse.toDirectory.findInodeNamed_some hfind
  have hfirst : e = 0 ∨
      (makeDirentFromString fs'.data (entryAddr fs' (fs'.inodes m) 0)).isSome := by
    rcases Nat.eq_zero_or_pos e with hzero | hpos
    · exact Or.inl hzero
    · obtain ⟨haddr, hbytes⟩ := hentries 0 hpos
      have hsome := hsparse.toDirectory.first_isSome hpos hfind
      rw [haddr, makeDirent_congr fun i _ hi => hbytes i hi]
      exact Or.inr hsome
  rw [findInodeNamed_eq hdir tok hfirst, hold]
  exact congrArg some (findSome?_congr fun k hk => hhits k (List.mem_range.mp hk))

theorem isDirectory_eq (h : Inserts fs fs' d entries new name) (hlive : fs.Live m) :
    isDirectory (fs'.inodes m) = isDirectory (fs.inodes m) := by
  by_cases hm : m = d
  · rw [hm, isDirectory, isDirectory, Inode.type, Inode.type, h.mode]
  · rw [h.others m hm hlive]

/-- A walk leads where it led before. -/
theorem walk_eq (h : Inserts fs fs' d entries new name) (hs : Searchable fs)
    (hdir : Directory fs (fs.inodes d) entries)
    (habsent : findInodeNamed fs (fs.inodes d) name = some none)
    (htoks : ∀ tok ∈ toks, (0 : UInt8) ∉ tok) {n : Nat} (hn : n < inodesNumber)
    (hlive : fs.Live n) {r : Int} (hwalk : walk fs toks n = some (some r)) :
    walk fs' toks n = some (some r) := by
  induction toks generalizing n with
  | nil =>
    rw [walk_nil] at hwalk ⊢
    exact hwalk
  | cons tok toks ih =>
    have htok := htoks tok List.mem_cons_self
    obtain ⟨i, hi, ⟨-, hnone⟩ | ⟨hdirectory, ⟨-, hnone⟩ | ⟨m, hfind, hrest⟩⟩⟩ := walk_cons hwalk
    · cases hnone
    · cases hnone
    obtain rfl : n = i := Option.some.inj ((inode?_natCast hn).symm.trans hi)
    obtain ⟨j, rfl, hj, hjlive⟩ := hs.findInodeNamed_live hlive hdirectory hfind
    have hsame : findInodeNamed fs' (fs'.inodes n) tok = some (some (j : Int)) := by
      by_cases hnd : n = d
      · subst hnd
        exact h.findInodeNamed_old hdir habsent htok hfind
      · obtain ⟨e, names, nums, hsparse, -⟩ := hs.directories n hlive hdirectory
        exact h.findInodeNamed_other hlive hnd hsparse htok hfind
    rw [walk_of_some hi ((h.isDirectory_eq hlive).trans hdirectory) hsame]
    exact ih (fun tok htok => htoks tok (List.mem_cons_of_mem _ htok)) hj hjlive hrest

/-- **Every path leads where it led before.** -/
theorem getInode_eq (h : Inserts fs fs' d entries new name) (hs : Searchable fs)
    (hdir : Directory fs (fs.inodes d) entries)
    (habsent : findInodeNamed fs (fs.inodes d) name = some none) (hzero : (0 : UInt8) ∉ path)
    {r : Int} (hpath : getInode fs path = some (some r)) : getInode fs' path = some (some r) := by
  obtain ⟨i, hi, hlt, hroot⟩ := hs.resolves [] 0 rfl
  obtain rfl : i = 0 := by omega
  cases path with
  | nil =>
    rw [getInode] at hpath ⊢
    exact hpath
  | cons c path =>
    rw [getInode] at hpath ⊢
    split_ifs at hpath ⊢
    · exact hpath
    · exact h.walk_eq hs hdir habsent (fun tok htok hmem => hzero (mem_of_mem_tokens htok hmem))
        hlt hroot hpath

/-- **The new path leads to the new inode.** -/
theorem getInode_new (h : Inserts fs fs' d entries new name) (hs : Searchable fs)
    (hdir : Directory fs (fs.inodes d) entries) (hlive : fs.Live d) (hd : d < inodesNumber)
    (hdirectory : isDirectory (fs.inodes d) = true)
    (habsent : findInodeNamed fs (fs.inodes d) name = some none) (hzero : (0 : UInt8) ∉ path)
    (hname : validFilename name = true)
    (hparent : parentDirectory fs path = some (some (d : Int), name)) :
    getInode fs' path = some (some (new : Int)) := by
  obtain ⟨p, hpath, -, -, hp⟩ := parentDirectory_eq_some hparent
  have hzero' : (0 : UInt8) ∉ p ++ [47] := by
    rw [hpath] at hzero
    simp only [List.mem_append, List.mem_cons, not_or] at hzero ⊢
    exact ⟨hzero.1, hzero.2.1, List.not_mem_nil⟩
  have hp' := h.getInode_eq hs hdir habsent hzero' hp
  rw [hpath, getInode_snoc hp' hname, walk_of_some (inode?_natCast hd)
    ((h.isDirectory_eq hlive).trans hdirectory) h.findInodeNamed_new, walk_nil]

/-- Other files keep their content. -/
theorem content_eq (h : Inserts fs fs' d entries new name) (hs : WellFormed fs) (hm : m ≠ d)
    (hlive : fs.Live m) : content fs' (fs'.inodes m) = content fs (fs.inodes m) := by
  rw [h.others m hm hlive, content, content]
  apply List.map_congr_left
  intro x hx
  have hmod : x % blockSize < blockSize := Nat.mod_lt _ (by decide)
  have hle := Nat.mul_div_le x blockSize
  have hsize := List.mem_range.mp hx
  have hassigned := hs.covered m (x / blockSize) hlive (by omega)
  have hpointer : ref fs (m, .pointer) = (fs.inodes m).indirect := ref_of_live hlive _
  have hslot : ref fs (m, .slot (x / blockSize)) = slot (fs.inodes m) fs.data (x / blockSize) :=
    ref_of_live hlive _
  have hsame : slot (fs.inodes m) fs'.data (x / blockSize) =
      slot (fs.inodes m) fs.data (x / blockSize) :=
    slot_congr (fun _ => rfl) rfl fun hne => hpointer ▸ h.blocks (m, .pointer) hm (hpointer ▸ hne)
  have hblock := h.blocks (m, .slot (x / blockSize)) hm hassigned _ hmod
  rw [hslot] at hblock
  rw [fileByte, fileByte, hsame]
  exact hblock.symm

end Inserts

/-! ## The place of the new entry -/

/-- The inode `d` has the block `b` in its slot `q`, from a block that was not in use where it did
not have it before, and everything else that it had. -/
structure Ready (fs fs₁ : FileSystem) (d q : Nat) (b : Int) : Prop where
  count : fs₁.dblockCount = fs.dblockCount
  others : ∀ m, m ≠ d → fs.Live m → fs₁.inodes m = fs.inodes m
  node : SameNode (fs.inodes d) (fs₁.inodes d)
  slots : ∀ k, slot (fs.inodes d) fs.data k ≠ unassignedNode →
    slot (fs₁.inodes d) fs₁.data k = slot (fs.inodes d) fs.data k
  self : slot (fs₁.inodes d) fs₁.data q = b
  low : 0 ≤ b
  high : b < fs.dblockCount
  apart : ∀ x, ref fs x ≠ unassignedNode → x ≠ (d, .slot q) → ref fs x ≠ b
  pointer : (fs₁.inodes d).indirect ≠ unassignedNode →
    (fs₁.inodes d).indirect ≠ b ∧ ∃ c : Nat, (fs₁.inodes d).indirect = c ∧ c < fs.dblockCount
  indirect : numDirectBlocks ≤ q ∨ (fs.inodes d).indirect ≠ unassignedNode →
    (fs₁.inodes d).indirect ≠ unassignedNode
  bytes : ∀ x, x ≠ (d, .pointer) → ref fs x ≠ unassignedNode →
    SameBlock fs.data fs₁.data (ref fs x)

/-- The new entry comes behind the others, or takes the place of one that is not in use. Its
string has one byte more than an entry. -/
def Vacant (fs : FileSystem) (d entries q : Nat) : Prop :=
  entries = blockEntries * q ∧ q < 22 ∨
    blockEntries * q < entries ∧ entries % blockEntries ≠ 0 ∧ ∀ i < 2,
      blockEntries * q + i < entries →
        makeDirentFromString fs.data (entryAddr fs (fs.inodes d) (blockEntries * q + i)) = none

section Put

variable {fs fs₁ : FileSystem} {d entries new q : Nat} {b : Int} {name : List UInt8}

/-- The bytes of another block. -/
theorem sameBlock_makeString {data : Memory} {c : Int} (hb : 0 ≤ b) (hc : 0 ≤ c) (hne : c ≠ b) :
    SameBlock data (makeStringFromDirent data (blockSize * b.toNat) name new) c := by
  intro i hi
  have haddr := blockAddr_ne hc hb hne hi
  have hout : ¬ (blockSize * b.toNat ≤ blockSize * c.toNat + i ∧
      blockSize * c.toNat + i < blockSize * b.toNat + (direntString name new).length) := by
    rw [length_direntString]
    simp only [fileNameEntry, blockSize] at *
    omega
  exact (Memory.write_of_not_mem hout).symm

/-- The bytes of the same block, behind the entry. -/
theorem makeString_behind {data : Memory} {a i : Nat} (hi : fileNameEntry < i) :
    makeStringFromDirent data a name new (a + i) = data (a + i) := by
  refine Memory.write_of_not_mem ?_
  rw [length_direntString]
  omega

/-- What `putEntry` does: the size of the directory grows, and the bytes of a block change. -/
structure Puts (fs₁ fs' : FileSystem) (d new : Nat) (b : Int) (name : List UInt8) : Prop where
  count : fs'.dblockCount = fs₁.dblockCount
  others : ∀ m, m ≠ d → fs'.inodes m = fs₁.inodes m
  mode : (fs'.inodes d).mode = (fs₁.inodes d).mode
  direct : (fs'.inodes d).direct = (fs₁.inodes d).direct
  indirect : (fs'.inodes d).indirect = (fs₁.inodes d).indirect
  size : (fs'.inodes d).size = ((fs₁.inodes d).size + fileNameEntry) % 2 ^ 64
  data : fs'.data = makeStringFromDirent fs₁.data (blockSize * b.toNat) name new

theorem putEntry_puts (hlow : 0 ≤ b) (hhigh : b < fs₁.dblockCount) :
    ∃ fs', putEntry fs₁ d new name b = some (fs', some new) ∧ Puts fs₁ fs' d new b name := by
  have hblock : fs₁.block b = some b.toNat := if_pos ⟨hlow, hhigh⟩
  rw [putEntry, hblock, Option.map_some]
  refine ⟨_, rfl, rfl, fun m hm => FileSystem.setInode_of_ne _ _ hm, ?_, ?_, ?_, ?_, rfl⟩
  all_goals
    dsimp only
    rw [FileSystem.setInode_self]

theorem Puts.sameBlock {fs' : FileSystem} {c : Int} (hp : Puts fs₁ fs' d new b name) (hb : 0 ≤ b)
    (hc : 0 ≤ c) (hne : c ≠ b) : SameBlock fs₁.data fs'.data c := by
  rw [hp.data]
  exact sameBlock_makeString hb hc hne

/-- The entries of a block end in it. -/
theorem entry_in_block (k : Nat) {i : Nat} (hi : i < fileNameEntry) :
    fileNameEntry * (k % blockEntries) + i < blockSize := by
  have hmod : k % blockEntries < blockEntries := Nat.mod_lt _ (by decide)
  simp only [blockEntries, blockSize, fileNameEntry] at *
  omega

theorem Vacant.le (h : Vacant fs d entries q) : blockEntries * q ≤ entries := by
  rcases h with ⟨hq, -⟩ | ⟨hq, -⟩
  · exact hq.ge
  · exact hq.le

/-- The two entries that the string of the new one reaches are not in use. -/
theorem Vacant.dead (h : Vacant fs d entries q) {k : Nat} (hk : k < entries)
    (hkq : k / blockEntries = q) (hmod : k % blockEntries < 2) :
    makeDirentFromString fs.data (entryAddr fs (fs.inodes d) k) = none := by
  have hdiv := Nat.div_add_mod k blockEntries
  rw [hkq] at hdiv
  rcases h with ⟨hend, -⟩ | ⟨-, -, hdead⟩
  · omega
  · have hnone := hdead (k % blockEntries) hmod (by omega)
    rwa [hdiv] at hnone

namespace Ready

variable {fs' : FileSystem} {names : Nat → List UInt8} {nums : Nat → Nat} {k : Nat}
  (h : Ready fs fs₁ d q b)
include h

/-- The slots of the directory stay, since the new entry is not in its indirect block. -/
theorem slot_eq (hp : Puts fs₁ fs' d new b name) (k : Nat) :
    slot (fs'.inodes d) fs'.data k = slot (fs₁.inodes d) fs₁.data k := by
  apply slot_congr (fun _ => by rw [hp.direct]) hp.indirect
  intro hne
  obtain ⟨hneb, c, hc, -⟩ := h.pointer hne
  exact hp.sameBlock h.low (by omega) hneb

theorem slot_old (hp : Puts fs₁ fs' d new b name) (hdirectory : Directory fs (fs.inodes d) entries)
    (hk : blockEntries * k < entries) :
    slot (fs'.inodes d) fs'.data k = slot (fs.inodes d) fs.data k :=
  (h.slot_eq hp k).trans (h.slots k (hdirectory.slots k hk).1)

theorem entryAddr_old (hp : Puts fs₁ fs' d new b name)
    (hdirectory : Directory fs (fs.inodes d) entries) (hk : k < entries) :
    entryAddr fs' (fs'.inodes d) k = entryAddr fs (fs.inodes d) k := by
  have hle := Nat.mul_div_le k blockEntries
  rw [entryAddr, entryAddr, h.slot_old hp hdirectory (by omega)]

theorem entryAddr_new (hp : Puts fs₁ fs' d new b name) :
    entryAddr fs' (fs'.inodes d) (blockEntries * q) = blockSize * b.toNat := by
  have hpos : 0 < blockEntries := by decide
  rw [entryAddr, Nat.mul_div_cancel_left q hpos, Nat.mul_mod_right, h.slot_eq hp, h.self,
    Nat.mul_zero, Nat.add_zero]

/-- The bytes of the entries of other blocks. -/
theorem bytes_other (hp : Puts fs₁ fs' d new b name) (ho : Owned fs) (hlive : fs.Live d)
    (hdirectory : Directory fs (fs.inodes d) entries) (hk : k < entries)
    (hkq : k / blockEntries ≠ q) : ∀ i < fileNameEntry,
      fs'.data (entryAddr fs (fs.inodes d) k + i) = fs.data (entryAddr fs (fs.inodes d) k + i) := by
  intro i hi
  have hle := Nat.mul_div_le k blockEntries
  have href : ref fs (d, .slot (k / blockEntries)) =
      slot (fs.inodes d) fs.data (k / blockEntries) := ref_of_live hlive _
  have hassigned := href ▸ (hdirectory.slots (k / blockEntries) (by omega)).1
  have hne : ((d, .slot (k / blockEntries)) : Nat × Place) ≠ (d, .slot q) := by
    intro heq
    cases heq
    exact hkq rfl
  have hbytes := (h.bytes _ (fun heq => by cases heq) hassigned).trans
    (hp.sameBlock h.low (ho.mem _ hassigned).1 (h.apart _ hassigned hne)) _ (entry_in_block k hi)
  rw [href] at hbytes
  rw [entryAddr, Nat.add_assoc]
  exact hbytes.symm

/-- The bytes of the block of the new entry, behind its string. -/
theorem bytes_behind (hp : Puts fs₁ fs' d new b name) (hlive : fs.Live d)
    (hdirectory : Directory fs (fs.inodes d) entries) (hk : k < entries)
    (hkq : k / blockEntries = q) : ∀ i < fileNameEntry,
      fileNameEntry < fileNameEntry * (k % blockEntries) + i →
      fs'.data (entryAddr fs (fs.inodes d) k + i) = fs.data (entryAddr fs (fs.inodes d) k + i) := by
  intro i hi hbehind
  have hle := Nat.mul_div_le k blockEntries
  have href : ref fs (d, .slot (k / blockEntries)) =
      slot (fs.inodes d) fs.data (k / blockEntries) := ref_of_live hlive _
  have hassigned := (hdirectory.slots (k / blockEntries) (by omega)).1
  have hb : slot (fs.inodes d) fs.data (k / blockEntries) = b := by
    rw [← h.slots _ hassigned, hkq, h.self]
  have hbytes := h.bytes (d, .slot (k / blockEntries)) (fun heq => by cases heq)
    (href ▸ hassigned) _ (entry_in_block k hi)
  rw [href, hb] at hbytes
  rw [entryAddr, hb, Nat.add_assoc, hp.data, makeString_behind hbehind]
  exact hbytes.symm

/-- What a search sees in the other entries. -/
theorem hit_old (hp : Puts fs₁ fs' d new b name) (ho : Owned fs) (hlive : fs.Live d)
    (hsparse : Sparse fs d entries names nums) (hvacant : Vacant fs d entries q)
    (hk : k < entries) (hne : k ≠ blockEntries * q) {tok : List UInt8} (htok : (0 : UInt8) ∉ tok) :
    hit fs'.data tok (entryAddr fs (fs.inodes d) k) =
      hit fs.data tok (entryAddr fs (fs.inodes d) k) := by
  have hdirectory := hsparse.toDirectory
  by_cases hkq : k / blockEntries = q
  · have hdiv := Nat.div_add_mod k blockEntries
    rw [hkq] at hdiv
    have hbehind := h.bytes_behind hp hlive hdirectory hk hkq
    by_cases hone : k % blockEntries = 1
    · -- the string of the new entry ends in the name of this one
      have hnone := hvacant.dead hk hkq (by omega)
      have hnumber : makeDirentFromString fs'.data (entryAddr fs (fs.inodes d) k) =
          makeDirentFromString fs.data (entryAddr fs (fs.inodes d) k) := by
        apply makeDirent_congr
        intro i hlow hi
        apply hbehind i hi
        rw [hone]
        simp only [fileNameLength] at hlow
        omega
      rw [hit_of_none hnone, hit_of_none (hnumber.trans hnone)]
    · apply hsparse.hit_eq hk htok
      intro i hi
      apply hbehind i hi
      have hmul : fileNameEntry * 2 ≤ fileNameEntry * (k % blockEntries) :=
        Nat.mul_le_mul_left _ (by omega)
      simp only [fileNameEntry] at *
      omega
  · exact hsparse.hit_eq hk htok (h.bytes_other hp ho hlive hdirectory hk hkq)

/-- The directory with the new entry. -/
theorem directory_put (hp : Puts fs₁ fs' d new b name)
    (hdirectory : Directory fs (fs.inodes d) entries) (hvacant : Vacant fs d entries q) :
    Directory fs' (fs'.inodes d) (entries + 1) := by
  have hbound := hdirectory.bound
  have hcount : fs'.dblockCount = fs.dblockCount := hp.count.trans h.count
  refine ⟨?_, ?_, fun k hk => ?_, fun hmany => ?_⟩
  · rw [hp.size, h.node.size, hdirectory.size, ← Nat.mul_succ, Nat.mod_eq_of_lt]
    simp only [blockEntries, blockSize, fileNameEntry] at *
    omega
  · rcases hvacant with ⟨hend, hq22⟩ | ⟨-, hmod, -⟩
    · simp only [blockEntries, blockSize, fileNameEntry] at *
      omega
    · simp only [blockEntries, blockSize, fileNameEntry] at *
      omega
  · by_cases hk' : blockEntries * k < entries
    · obtain ⟨hassigned, c, hc, hclt⟩ := hdirectory.slots k hk'
      rw [h.slot_old hp hdirectory hk']
      exact ⟨hassigned, c, hc, hcount ▸ hclt⟩
    · -- the slot behind the last entry is that of the new one
      obtain rfl : k = q := by
        rcases hvacant with ⟨hend, -⟩ | ⟨-, hmod, -⟩
        · simp only [blockEntries, blockSize, fileNameEntry] at *
          omega
        · simp only [blockEntries, blockSize, fileNameEntry] at *
          omega
      have hb : b ≠ unassignedNode := fun heq => absurd h.low (by rw [heq]; decide)
      have hhigh : b.toNat < fs'.dblockCount := by
        have hhigh := h.high
        have hlow := h.low
        omega
      rw [h.slot_eq hp, h.self]
      exact ⟨hb, b.toNat, (Int.toNat_of_nonneg h.low).symm, hhigh⟩
  · have hind : (fs₁.inodes d).indirect ≠ unassignedNode := by
      apply h.indirect
      rcases hvacant with ⟨hend, -⟩ | ⟨-, hmod, -⟩
      · left
        simp only [blockEntries, blockSize, fileNameEntry, numDirectBlocks] at *
        omega
      · right
        apply (hdirectory.pointer _).1
        simp only [blockEntries, blockSize, fileNameEntry, numDirectBlocks] at *
        omega
    obtain ⟨-, c, hc, hclt⟩ := h.pointer hind
    rw [hp.indirect]
    exact ⟨hind, c, hc, hcount ▸ hclt⟩

/-- The first entry is in use, also when it is the new one. -/
theorem first_put (hp : Puts fs₁ fs' d new b name) (ho : Owned fs) (hlive : fs.Live d)
    (hdirectory : Directory fs (fs.inodes d) entries)
    (habsent : findInodeNamed fs (fs.inodes d) name = some none)
    (hvacant : Vacant fs d entries q) (hentry : EntryAt fs'.data (blockSize * b.toNat) name new) :
    (makeDirentFromString fs'.data (entryAddr fs' (fs'.inodes d) 0)).isSome := by
  by_cases hnone : entries = 0
  · obtain rfl : q = 0 := by
      have hle := hvacant.le
      simp only [blockEntries, blockSize, fileNameEntry] at hle
      omega
    rw [← Nat.mul_zero blockEntries, h.entryAddr_new hp, hentry.number]
    rfl
  · have hpos := Nat.pos_of_ne_zero hnone
    have hsome := hdirectory.first_isSome hpos habsent
    have hq0 : 0 / blockEntries ≠ q := by
      intro hq0
      rw [hvacant.dead hpos hq0 (by rw [Nat.zero_mod]; decide)] at hsome
      cases hsome
    rw [h.entryAddr_old hp hdirectory hpos,
      makeDirent_congr fun i _ hi => h.bytes_other hp ho hlive hdirectory hpos hq0 i hi]
    exact hsome

/-- The entry is put where it is to be. -/
theorem inserts (ho : Owned fs) (hlive : fs.Live d) (hsparse : Sparse fs d entries names nums)
    (habsent : findInodeNamed fs (fs.inodes d) name = some none)
    (hvacant : Vacant fs d entries q) (hfits : name.length < fileNameLength)
    (hzero : (0 : UInt8) ∉ name) (hpos : 0 < new) (hlt : new < 2 ^ 31) :
    ∃ fs', putEntry fs₁ d new name b = some (fs', some new) ∧
      Inserts fs fs' d entries new name := by
  have hdirectory := hsparse.toDirectory
  obtain ⟨fs', hput, hp⟩ : ∃ fs', putEntry fs₁ d new name b = some (fs', some new) ∧
      Puts fs₁ fs' d new b name := putEntry_puts h.low (h.count ▸ h.high)
  have hentry : EntryAt fs'.data (blockSize * b.toNat) name new := by
    rw [hp.data]
    exact entryAt_makeString _ _ hfits hzero hpos hlt
  have hnew := h.entryAddr_new hp
  refine ⟨fs', hput, hp.count.trans h.count, ?_, ?_, hp.mode.trans h.node.mode,
    h.directory_put hp hdirectory hvacant,
    h.first_put hp ho hlive hdirectory habsent hvacant hentry, ?_, ?_, ?_⟩
  · intro m hm hlive
    exact (hp.others m hm).trans (h.others m hm hlive)
  · intro x hx hassigned
    apply (h.bytes x (fun heq => hx (heq ▸ rfl)) hassigned).trans
    apply hp.sameBlock h.low (ho.mem x hassigned).1
    exact h.apart x hassigned fun heq => hx (heq ▸ rfl)
  · -- an entry that the new one replaces was not in use
    intro k hk tok htok hne
    rw [h.entryAddr_old hp hdirectory hk]
    by_cases hkq : k = blockEntries * q
    · have hpos : 0 < blockEntries := by decide
      have hnone := hvacant.dead hk (by rw [hkq, Nat.mul_div_cancel_left q hpos])
        (by rw [hkq, Nat.mul_mod_right]; decide)
      rw [hit_of_none hnone, ← h.entryAddr_old hp hdirectory hk, hkq, hnew, hentry.hit htok,
        if_neg hne]
    · exact h.hit_old hp ho hlive hsparse hvacant hk hkq htok
  · -- the other entries do not have the name
    intro k hk
    by_cases hkq : k = blockEntries * q
    · rw [hkq, hnew, hentry.hit hzero, if_pos rfl]
      exact Or.inr rfl
    · have hnone := List.findSome?_eq_none_iff.mp (hdirectory.findInodeNamed_some habsent).symm k
        (List.mem_range.mpr hk)
      rw [h.entryAddr_old hp hdirectory hk, h.hit_old hp ho hlive hsparse hvacant hk hkq hzero]
      exact Or.inl hnone
  · exact ⟨blockEntries * q, hvacant.le, by rw [hnew, hentry.hit hzero, if_pos rfl]⟩

end Ready

end Put

/-! ## The blocks of a new entry -/

/-- The block that receives a new entry where the last block is not full. -/
def lastBlock (fs : FileSystem) (node : Inode) : Option Int :=
  if node.indirect = unassignedNode then direct? node (node.size / blockSize : Nat)
  else indirects fs node.indirect ((node.size / blockSize : Nat) - numDirectBlocks)

/-- The block of a new entry is in its place: it is a new one for the slot behind the last entry,
which is free, or one of the blocks of the directory, which begins with an entry that is not in
use. -/
def HasRoom (fs : FileSystem) (node : Inode) : Prop :=
  if node.size % blockSize = 0 then
    node.size / blockSize < 22 ∧ slot node fs.data (node.size / blockSize) = unassignedNode ∧
      (node.size / blockSize < numDirectBlocks → node.indirect = unassignedNode)
  else ∃ q ≤ node.size / blockSize, lastBlock fs node = some (slot node fs.data q) ∧
    ∀ i < 2, blockEntries * q + i < node.size / fileNameEntry →
      makeDirentFromString fs.data (entryAddr fs node (blockEntries * q + i)) = none

section Room

variable {p : Picker} {now : Timespec} {fs fs₁ fs₂ fs' : FileSystem} {d entries new q : Nat}
  {b : Int} {name : List UInt8}

/-- A directory that has grown, and then has its slot `q` assigned. -/
theorem Ready.of_grows (ho : Owned fs) (ho₁ : Owned fs₁) (hgrows : Grows d fs fs₁)
    (hlive : fs.Live d) (hnew : ¬ fs.Live new) (hcount : fs₂.dblockCount = fs₁.dblockCount)
    (hothers : ∀ m, m ≠ d → m ≠ new → fs₂.inodes m = fs₁.inodes m)
    (hnode : SameNode (fs₁.inodes d) (fs₂.inodes d))
    (hind : (fs₂.inodes d).indirect = (fs₁.inodes d).indirect)
    (hslots : ∀ k, slot (fs₂.inodes d) fs₂.data k =
      if k = q then b else slot (fs₁.inodes d) fs₁.data k)
    (hold : slot (fs₁.inodes d) fs₁.data q ≠ unassignedNode →
      slot (fs₁.inodes d) fs₁.data q = b)
    (hlow : 0 ≤ b) (hhigh : b < fs₁.dblockCount)
    (hapart : ∀ x, ref fs₁ x ≠ unassignedNode → x ≠ (d, .slot q) → ref fs₁ x ≠ b)
    (hindirect : numDirectBlocks ≤ q → (fs₁.inodes d).indirect ≠ unassignedNode)
    (hbytes : ∀ c ∈ inUse fs₁, c ≠ (fs₁.inodes d).indirect → SameBlock fs₁.data fs₂.data c) :
    Ready fs fs₂ d q b := by
  have hlive₁ := hgrows.live hlive
  have hslot : ∀ k, ref fs (d, .slot k) = slot (fs.inodes d) fs.data k := fun k =>
    ref_of_live hlive _
  have hslot₁ : ∀ k, ref fs₁ (d, .slot k) = slot (fs₁.inodes d) fs₁.data k := fun k =>
    ref_of_live hlive₁ _
  have hpointer : ref fs (d, .pointer) = (fs.inodes d).indirect := ref_of_live hlive _
  have hpointer₁ : ref fs₁ (d, .pointer) = (fs₁.inodes d).indirect := ref_of_live hlive₁ _
  have hkept : ∀ x, ref fs x ≠ unassignedNode → ref fs₁ x ≠ unassignedNode := fun x hx =>
    hgrows.kept x hx ▸ hx
  refine ⟨hcount.trans hgrows.count, fun m hm hmlive => ?others, hgrows.node.trans hnode, fun k hk => ?slots,
    ?self, hlow, hgrows.count ▸ hhigh, fun x hx hne => ?apart, fun hne => ⟨?pointer, ?index⟩, fun h => ?indirect,
    fun x hne hx => ?bytes⟩
  case others =>
    have hmnew : m ≠ new := fun heq => hnew (heq ▸ hmlive)
    rw [hothers m hm hmnew, hgrows.others m hm]
  case slots =>
    have hsame : slot (fs₁.inodes d) fs₁.data k = slot (fs.inodes d) fs.data k := by
      rw [← hslot₁, ← hslot, hgrows.kept _ (hslot k ▸ hk)]
    rw [hslots]
    split_ifs with hkq
    · subst hkq
      rw [← hold (hsame ▸ hk), hsame]
    · exact hsame
  case self =>
    rw [hslots, if_pos rfl]
  case apart =>
    rw [← hgrows.kept x hx]
    exact hapart x (hkept x hx) hne
  case pointer =>
    rw [hind, ← hpointer₁] at hne ⊢
    exact hapart _ hne fun heq => by cases heq
  case index =>
    rw [hind, ← hpointer₁] at hne ⊢
    have hmem := ho₁.mem _ hne
    refine ⟨_, (Int.toNat_of_nonneg hmem.1).symm, ?_⟩
    have hcount' := hgrows.count
    have hlt := hmem.2.1
    have hge := hmem.1
    omega
  case indirect =>
    rw [hind]
    rcases h with hq | hne
    · exact hindirect hq
    · rw [← hpointer₁, hgrows.kept _ (hpointer ▸ hne), hpointer]
      exact hne
  case bytes =>
    have hmem := ho.mem x hx
    have hpath : ref fs x ≠ ref fs (d, .pointer) := fun heq => hne (ho.inj x _ hx heq)
    apply (hgrows.bytes _ hmem hpath).trans
    apply hbytes _ (hgrows.used hmem)
    rw [← hpointer₁, ← hgrows.kept x hx]
    exact fun heq => hne (ho₁.inj x _ (hkept x hx) heq)

/-- A new block in a direct slot. -/
theorem ready_direct (ho : Owned fs) (hlive : fs.Live d) (hnew : ¬ fs.Live new)
    (node : Inode) (hq : q < numDirectBlocks) (hfree : (fs.inodes d).direct q = -1)
    (hbefore : ∀ j < q, (fs.inodes d).direct j ≠ -1) :
    (addDataBlockToInode p (fs.setInode new node) d).2 = -1 ∨
      ∃ fs₂ b, addDataBlockToInode p (fs.setInode new node) d = (fs₂, b) ∧ b ≠ -1 ∧
        Ready fs fs₂ d q b := by
  have hne : d ≠ new := fun heq => hnew (heq ▸ hlive)
  have hself : (fs.setInode new node).inodes d = fs.inodes d :=
    FileSystem.setInode_of_ne _ _ hne
  rw [addDataBlockToInode, hself, firstFree_eq hq hfree hbefore]
  rcases @addDataBlock_some p (fs.setInode new node) (fun i b =>
    (fs.setInode new node).setInode d ((fs.inodes d).setDirect i b)) q with
    ⟨hnone, -⟩ | ⟨b, hadd, hpick, hlow, hhigh, hunused⟩
  · left
    rw [hnone]
  · right
    obtain ⟨node', hnode'⟩ : ∃ node', node' = (fs.inodes d).setDirect q b := ⟨_, rfl⟩
    have hdirect : node'.direct = Function.update (fs.inodes d).direct q b := by
      rw [hnode', Inode.setDirect]
    -- what is left is that only the slot `q` of `d` and the inode `new` differ
    have hused : ((fs.setInode new node).setInode d node').setDataUsed b true = _ :=
      setDataUsed_eq hlow hhigh
    rw [← hnode', hused] at hadd
    have hself' : ((fs.setInode new node).setInode d node').inodes d = node' :=
      FileSystem.setInode_self _ _ _
    refine ⟨_, b, hadd, hpick, Ready.of_grows ho ho (Grows.refl d fs) hlive hnew rfl ?_ ?_ ?_ ?_ ?_
      hlow hhigh ?_ ?_ ?_⟩
    · intro m hm hmnew
      exact (FileSystem.setInode_of_ne _ _ hm).trans (FileSystem.setInode_of_ne _ _ hmnew)
    · rw [hself', hnode']
      exact ⟨rfl, rfl, rfl, rfl, rfl, rfl, rfl⟩
    · rw [hself', hnode']
      rfl
    · intro k
      rw [hself']
      by_cases hkq : k = q
      · rw [if_pos hkq, hkq, slot_of_lt hq, hdirect, Function.update_self]
      · rw [if_neg hkq]
        apply slot_congr _ (by rw [hnode']; rfl) fun _ _ _ => rfl
        intro _
        rw [hdirect, Function.update_of_ne hkq]
    · intro hassigned
      exact absurd ((slot_of_lt hq).trans hfree) hassigned
    · intro x hx _ heq
      exact hunused (heq ▸ ho.mem x hx)
    · intro hge
      omega
    · intro c _ _ _ _
      rfl

/-- A new block in an entry of the indirect block. -/
theorem ready_entry (ho : Owned fs) (ho₁ : Owned fs₁) (hgrows : Grows d fs fs₁)
    (hlive : fs.Live d) (hnew : ¬ fs.Live new) (hcount : fs₁.dblockCount ≤ 2 ^ 31) (node : Inode)
    {i : Nat} (hi : i < numIndirectBlocks) (hind : (fs₁.inodes d).indirect ≠ unassignedNode)
    (hfree : ref fs₁ (d, .slot (numDirectBlocks + i)) = unassignedNode)
    (hbefore : ∀ j < i, ref fs₁ (d, .slot (numDirectBlocks + j)) ≠ unassignedNode) :
    (addDataBlockToIndirectBlock p (fs₁.setInode new node)
        (numIndirectBlocks * (fs₁.inodes d).indirect.toNat)).2 = -1 ∨
      ∃ fs₂ b, addDataBlockToIndirectBlock p (fs₁.setInode new node)
          (numIndirectBlocks * (fs₁.inodes d).indirect.toNat) = (fs₂, b) ∧ b ≠ -1 ∧
        Ready fs fs₂ d (numDirectBlocks + i) b := by
  have hne : d ≠ new := fun heq => hnew (heq ▸ hlive)
  have hlive₁ := hgrows.live hlive
  have hself : (fs₁.setInode new node).inodes d = fs₁.inodes d :=
    FileSystem.setInode_of_ne _ _ hne
  obtain ⟨c, hc⟩ : ∃ c, c = (fs₁.inodes d).indirect := ⟨_, rfl⟩
  have hpointer : ref fs₁ (d, .pointer) = c := (ref_of_live hlive₁ _).trans hc.symm
  have hmem : c ∈ inUse fs₁ := hpointer ▸ ho₁.mem (d, .pointer) (hpointer ▸ hc ▸ hind)
  have hslot : ∀ j < numIndirectBlocks, ref fs₁ (d, .slot (numDirectBlocks + j)) =
      entry fs₁.data (numIndirectBlocks * c.toNat + j) := fun j hj => by
    rw [ref_of_live hlive₁, hc]
    exact slot_add hj hind
  -- the entries before `i` are in use, so the search ends there
  have hfirst : firstFree (fun i => entry (fs₁.setInode new node).data
      (numIndirectBlocks * c.toNat + i)) numIndirectBlocks = some i := by
    apply firstFree_eq hi ((hslot i hi).symm.trans hfree)
    intro j hj
    exact hslot j (hj.trans hi) ▸ hbefore j hj
  obtain ⟨put, hput⟩ : ∃ put : Nat → Int → FileSystem, put = fun i b =>
      { fs₁.setInode new node with data := setEntry fs₁.data (numIndirectBlocks * c.toNat + i) b } :=
    ⟨_, rfl⟩
  have hstep : addDataBlockToIndirectBlock p (fs₁.setInode new node) (numIndirectBlocks * c.toNat) =
      addDataBlock p (fs₁.setInode new node) put (some i) := by
    rw [addDataBlockToIndirectBlock, hfirst, hput]
    rfl
  rw [← hc, hstep]
  rcases @addDataBlock_some p (fs₁.setInode new node) put i with
    ⟨hnone, -⟩ | ⟨b, hadd, hpick, hlow, hhigh, hunused⟩
  · left
    rw [hnone]
  · right
    obtain ⟨data', hdata'⟩ : ∃ data', data' =
        setEntry fs₁.data (numIndirectBlocks * c.toNat + i) b := ⟨_, rfl⟩
    have hused : ({ fs₁.setInode new node with data := data' } : FileSystem).setDataUsed b true =
        _ := setDataUsed_eq hlow hhigh
    have hadd' := hadd
    rw [hput] at hadd'
    dsimp only at hadd'
    rw [← hput, ← hdata'] at hadd'
    rw [hused] at hadd'
    have hbound : b < 2 ^ 31 := by
      have hcount' : (fs₁.setInode new node).dblockCount = fs₁.dblockCount := rfl
      rw [hcount'] at hhigh
      omega
    refine ⟨_, b, hadd', hpick, Ready.of_grows ho ho₁ hgrows hlive hnew rfl ?_ ?_ ?_ ?_ ?_ hlow
      hhigh ?_ ?_ ?_⟩
    · intro m _ hmnew
      exact FileSystem.setInode_of_ne _ _ hmnew
    · exact hself ▸ SameNode.refl _
    · exact congrArg Inode.indirect hself
    · intro k
      change slot ((fs₁.setInode new node).inodes d) data' k = _
      rw [hself, hdata', hc]
      exact slot_setEntry hind hi (by omega) hbound k
    · intro hassigned
      rw [ref_of_live hlive₁] at hfree
      exact absurd hfree hassigned
    · intro x hx _ heq
      exact hunused (heq ▸ ho₁.mem x hx)
    · exact fun _ => hind
    · intro e he hne
      exact hdata' ▸ sameBlock_setEntry hmem.1 he.1 (hc ▸ hne) hi

/-- The block of an entry that is not in use. -/
theorem ready_last (ho : Owned fs) (hlive : fs.Live d) (hnew : ¬ fs.Live new) (node : Inode)
    (hassigned : ref fs (d, .slot q) ≠ unassignedNode)
    (hind : numDirectBlocks ≤ q → (fs.inodes d).indirect ≠ unassignedNode) :
    Ready fs (fs.setInode new node) d q (ref fs (d, .slot q)) := by
  have hne : d ≠ new := fun heq => hnew (heq ▸ hlive)
  have hself : (fs.setInode new node).inodes d = fs.inodes d :=
    FileSystem.setInode_of_ne _ _ hne
  have hmem := ho.mem _ hassigned
  refine Ready.of_grows ho ho (Grows.refl d fs) hlive hnew rfl
    (fun m _ hmnew => FileSystem.setInode_of_ne _ _ hmnew) (hself ▸ SameNode.refl _)
    (congrArg Inode.indirect hself) (fun k => ?_) (fun _ => (ref_of_live hlive (.slot q)).symm) hmem.1
    hmem.2.1 (fun x hx hne heq => hne (ho.inj x _ hx heq)) hind fun _ _ _ _ _ => rfl
  rw [hself]
  split_ifs with hkq
  · rw [hkq]
    exact (ref_of_live hlive (.slot q)).symm
  · rfl

/-- What reserving an indirect block does to the parent. -/
theorem reserveIndirect_grows (hs : WellFormed fs) (hlive : fs.Live d)
    (hres : reserveIndirect p fs d (toInt ((fs.inodes d).size / blockSize)) = (fs₁, 0)) :
    Owned fs₁ ∧ Grows d fs fs₁ ∧ (¬ NeedsIndirect (fs.inodes d) → fs₁ = fs) ∧
      (numDirectBlocks ≤ (fs.inodes d).size / blockSize →
        (fs₁.inodes d).indirect ≠ unassignedNode) ∧
      ∀ k, ref fs₁ (d, .slot k) = ref fs (d, .slot k) := by
  -- the size of a directory does not wrap as an `int`
  have hguard : (toInt ((fs.inodes d).size / blockSize) ≥ numDirectBlocks ∧
      (fs.inodes d).indirect = unassignedNode) ↔ NeedsIndirect (fs.inodes d) := by
    rw [toInt_blocks (hs.size_le hlive), NeedsIndirect, ge_iff_le, Nat.cast_le]
  rw [reserveIndirect] at hres
  by_cases hneeds : NeedsIndirect (fs.inodes d)
  · rw [if_pos (hguard.mpr hneeds)] at hres
    rcases @addPointer_assigns p fs d hs.owned hlive hneeds.2 with
      ⟨hnone, -⟩ | ⟨fs₂, b, hadd, hassigns⟩
    · rw [hnone] at hres
      cases hres
    · rw [hadd] at hres
      obtain rfl := (Prod.mk.inj hres).1
      have hself : ref fs₂ (d, .pointer) = b := hassigns.ref_self
      rw [ref_of_live hassigns.live] at hself
      refine ⟨hassigns.owned hs.owned, hassigns.grows, fun h => absurd hneeds h, fun _ h => ?_,
        fun k => hassigns.ref_of_ne fun heq => by cases heq⟩
      have hb : b = unassignedNode := hself.symm.trans h
      exact not_mem_inUse (hb ▸ hassigns.used ▸ Set.mem_insert b _)
  · rw [if_neg (mt hguard.mp hneeds)] at hres
    obtain rfl := (Prod.mk.inj hres).1
    exact ⟨hs.owned, Grows.refl d fs, fun _ => rfl, fun hge hind => hneeds ⟨hge, hind⟩,
      fun _ => rfl⟩

/-- A block that was looked for is found, and is ready, or the function gives up. -/
theorem ready_of_added {added : FileSystem × Int} {found : Option Int}
    (hadded : added.2 = -1 ∨ ∃ fs₃ b, added = (fs₃, b) ∧ b ≠ -1 ∧ Ready fs fs₃ d q b)
    (hblock : (added.1, if added.2 = -1 then none else some added.2) = (fs₂, found)) :
    found = none ∨ ∃ b, found = some b ∧ Ready fs fs₂ d q b := by
  obtain ⟨hfs, hfound⟩ := Prod.mk.inj hblock
  rcases hadded with hnone | ⟨fs₃, b, rfl, hb, hready⟩
  · rw [if_pos hnone] at hfound
    exact Or.inl hfound.symm
  · rw [if_neg hb] at hfound
    exact Or.inr ⟨b, hfound.symm, hfs ▸ hready⟩

section NewBlock

variable {found : Option Int} {numBlocks : Int}

/-- A new block for the entry, in a direct slot. -/
theorem entryBlock_direct (hs : WellFormed fs) (hlive : fs.Live d) (hnew : ¬ fs.Live new)
    (node : Inode) (hq : q < numDirectBlocks) (hle : blockSize * q ≤ (fs.inodes d).size)
    (hfree : slot (fs.inodes d) fs.data q = unassignedNode)
    (hind : (fs.inodes d).indirect = unassignedNode)
    (hblock : entryBlock p (fs.setInode new node) d numBlocks 0 = some (fs₂, found)) :
    found = none ∨ ∃ b, found = some b ∧ Ready fs fs₂ d q b := by
  have hne : d ≠ new := fun heq => hnew (heq ▸ hlive)
  have hself : (fs.setInode new node).inodes d = fs.inodes d := FileSystem.setInode_of_ne _ _ hne
  rw [entryBlock, hself, if_neg (not_not.mpr rfl), if_pos hind] at hblock
  refine ready_of_added ?_ (Option.some.inj hblock)
  refine ready_direct hs.owned hlive hnew node hq ((slot_of_lt hq).symm.trans hfree) fun j hj => ?_
  have hassigned : ref fs (d, .slot j) ≠ unassignedNode := by
    apply hs.covered d j hlive
    simp only [blockSize] at *
    omega
  rwa [ref_of_live hlive, Inode.ref, slot_of_lt (hj.trans hq)] at hassigned

/-- A new block for the entry, in a slot of the indirect block. -/
theorem entryBlock_indirect (hs : WellFormed fs) (hlive : fs.Live d) (hnew : ¬ fs.Live new)
    (ho₁ : Owned fs₁) (hgrows : Grows d fs fs₁)
    (hslots : ∀ k, ref fs₁ (d, .slot k) = ref fs (d, .slot k)) (node : Inode) {i : Nat}
    (hi : i < numIndirectBlocks) (hle : blockSize * (numDirectBlocks + i) ≤ (fs.inodes d).size)
    (hfree : slot (fs.inodes d) fs.data (numDirectBlocks + i) = unassignedNode)
    (hind : (fs₁.inodes d).indirect ≠ unassignedNode)
    (hblock : entryBlock p (fs₁.setInode new node) d numBlocks 0 = some (fs₂, found)) :
    found = none ∨ ∃ b, found = some b ∧ Ready fs fs₂ d (numDirectBlocks + i) b := by
  have hne : d ≠ new := fun heq => hnew (heq ▸ hlive)
  have hself : (fs₁.setInode new node).inodes d = fs₁.inodes d :=
    FileSystem.setInode_of_ne _ _ hne
  -- the indirect block is in use, so it is one of the file system
  have hpointer : ref fs₁ (d, .pointer) = (fs₁.inodes d).indirect :=
    ref_of_live (hgrows.live hlive) _
  have hmem := ho₁.mem (d, .pointer) (hpointer ▸ hind)
  rw [hpointer] at hmem
  have hpick : (fs₁.setInode new node).block (fs₁.inodes d).indirect =
      some (fs₁.inodes d).indirect.toNat := if_pos ⟨hmem.1, hmem.2.1⟩
  rw [entryBlock, hself, if_neg (not_not.mpr rfl), if_neg hind, hpick, Option.map_some] at hblock
  have hbefore : ∀ j < i, ref fs₁ (d, .slot (numDirectBlocks + j)) ≠ unassignedNode := by
    intro j hj
    rw [hslots]
    apply hs.covered d _ hlive
    simp only [blockSize] at *
    omega
  have hadded := @ready_entry p fs fs₁ d new hs.owned ho₁ hgrows hlive hnew
    (hgrows.count ▸ hs.count) node i hi hind
    ((hslots _).trans ((ref_of_live hlive _).trans hfree)) hbefore
  obtain ⟨added, hadd⟩ : ∃ added, added = addDataBlockToIndirectBlock p (fs₁.setInode new node)
    (numIndirectBlocks * (fs₁.inodes d).indirect.toNat) := ⟨_, rfl⟩
  rw [← hadd] at hblock hadded
  cases added
  exact ready_of_added hadded (Option.some.inj hblock)

/-- The last block is full in part: the entry goes to the block that is found there. -/
theorem entryBlock_last (hs : WellFormed fs) (hlive : fs.Live d) (hnew : ¬ fs.Live new)
    (node : Inode) {rem : Nat} (hrem : rem ≠ 0)
    (hlast : lastBlock fs (fs.inodes d) = some (slot (fs.inodes d) fs.data q))
    (hassigned : ref fs (d, .slot q) ≠ unassignedNode)
    (hblock : entryBlock p (fs.setInode new node) d ((fs.inodes d).size / blockSize : Nat) rem =
      some (fs₂, found)) : ∃ b, found = some b ∧ Ready fs fs₂ d q b := by
  have hne : d ≠ new := fun heq => hnew (heq ▸ hlive)
  have hself : (fs.setInode new node).inodes d = fs.inodes d := FileSystem.setInode_of_ne _ _ hne
  have hslot : ref fs (d, .slot q) = slot (fs.inodes d) fs.data q := ref_of_live hlive _
  rw [entryBlock, hself, if_pos hrem] at hblock
  have hblock' : (lastBlock fs (fs.inodes d)).map
      (fun b => (fs.setInode new node, some b)) = some (fs₂, found) := by
    rw [lastBlock]
    split_ifs with hnone
    · rwa [if_pos hnone] at hblock
    · rwa [if_neg hnone] at hblock
  rw [hlast, Option.map_some] at hblock'
  obtain ⟨rfl, rfl⟩ := Prod.mk.inj (Option.some.inj hblock')
  refine ⟨_, rfl, hslot ▸ ready_last hs.owned hlive hnew node hassigned fun hge hind => ?_⟩
  exact hassigned (hslot.trans (slot_of_unassigned hge hind))

end NewBlock

/-- The block that a new entry receives in a directory with room. -/
theorem entryBlock_ready (hs : WellFormed fs) (hlive : fs.Live d) (hnew : ¬ fs.Live new)
    (hdirectory : Directory fs (fs.inodes d) entries) (hroom : HasRoom fs (fs.inodes d))
    (hres : reserveIndirect p fs d (toInt ((fs.inodes d).size / blockSize)) = (fs₁, 0))
    {found : Option Int} (node : Inode)
    (hblock : entryBlock p (fs₁.setInode new node) d (toInt ((fs.inodes d).size / blockSize))
      ((fs.inodes d).size % blockSize) = some (fs₂, found)) :
    found = none ∨ ∃ q b, found = some b ∧ Vacant fs d entries q ∧ Ready fs fs₂ d q b := by
  have hsize := hdirectory.size
  obtain ⟨ho₁, hgrows, hsame, hindirect, hslots⟩ := reserveIndirect_grows hs hlive hres
  rw [toInt_blocks (hs.size_le hlive)] at hblock
  rw [HasRoom] at hroom
  obtain ⟨q, hq⟩ : ∃ q, q = (fs.inodes d).size / blockSize := ⟨_, rfl⟩
  by_cases hrem : (fs.inodes d).size % blockSize = 0
  · -- a new block, behind the last entry
    rw [if_pos hrem, ← hq] at hroom
    rw [hrem] at hblock
    obtain ⟨h22, hfree, hdirect⟩ := hroom
    have hle : blockSize * q ≤ (fs.inodes d).size := hq ▸ Nat.mul_div_le _ _
    have hvacant : Vacant fs d entries q := by
      left
      simp only [blockEntries, blockSize, fileNameEntry] at *
      omega
    by_cases hq11 : q < numDirectBlocks
    · obtain rfl : fs₁ = fs := hsame fun hneeds => by
        have hge := hneeds.1
        omega
      rcases entryBlock_direct hs hlive hnew node hq11 hle hfree (hdirect hq11) hblock with
        hnone | ⟨b, hfound, hready⟩
      · exact Or.inl hnone
      · exact Or.inr ⟨q, b, hfound, hvacant, hready⟩
    · have hind := hindirect (hq ▸ not_lt.mp hq11)
      obtain ⟨i, rfl⟩ := Nat.exists_eq_add_of_le (not_lt.mp hq11)
      have hi : i < numIndirectBlocks := by
        simp only [numDirectBlocks, numIndirectBlocks] at *
        omega
      rcases entryBlock_indirect hs hlive hnew ho₁ hgrows hslots node hi hle hfree hind hblock with
        hnone | ⟨b, hfound, hready⟩
      · exact Or.inl hnone
      · exact Or.inr ⟨_, b, hfound, hvacant, hready⟩
  · -- one of the blocks that there are
    rw [if_neg hrem] at hroom
    obtain ⟨k, hkq, hlast, hdead⟩ := hroom
    have hentries : (fs.inodes d).size / fileNameEntry = entries := by
      rw [hsize, Nat.mul_div_cancel_left _ (by decide)]
    have hk : blockEntries * k < entries ∧ entries % blockEntries ≠ 0 := by
      simp only [blockEntries, blockSize, fileNameEntry] at *
      omega
    have hassigned : ref fs (d, .slot k) ≠ unassignedNode :=
      (ref_of_live hlive (.slot k)) ▸ (hdirectory.slots k hk.1).1
    have hlt : blockSize * q < (fs.inodes d).size := by
      simp only [blockSize] at *
      omega
    -- the block at the end is assigned, so nothing had to be reserved
    obtain rfl : fs₁ = fs := hsame fun hneeds =>
      hs.covered d q hlive hlt ((ref_of_live hlive (.slot q)).trans
        (slot_of_unassigned (hq ▸ hneeds.1) hneeds.2))
    obtain ⟨b, hfound, hready⟩ := entryBlock_last hs hlive hnew node hrem hlast hassigned hblock
    exact Or.inr ⟨k, b, hfound, Or.inr ⟨hk.1, hk.2, hentries ▸ hdead⟩, hready⟩

/-- What a creation in a directory with room does. -/
theorem createIn_inserts (hs : WellFormed fs) {names : Nat → List UInt8} {nums : Nat → Nat}
    (hlive : fs.Live d) (hsparse : Sparse fs d entries names nums)
    (habsent : findInodeNamed fs (fs.inodes d) name = some none)
    (hroom : HasRoom fs (fs.inodes d)) (hfits : name.length < fileNameLength)
    (hzero : (0 : UInt8) ∉ name) (hnew : ¬ fs.Live new) (hpos : 0 < new) (hlt : new < 2 ^ 31)
    {r : Nat} (hcreate : createIn p now fs d new name = some (fs', some r)) :
    r = new ∧ Inserts fs fs' d entries new name := by
  rw [createIn] at hcreate
  dsimp only at hcreate
  obtain ⟨⟨fs₁, err⟩, hres⟩ : ∃ r, r = reserveIndirect p fs d
    (toInt ((fs.inodes d).size / blockSize)) := ⟨_, rfl⟩
  rw [← hres] at hcreate
  by_cases herr : err = -1
  · rw [if_pos herr] at hcreate
    cases (Prod.mk.inj (Option.some.inj hcreate)).2
  obtain rfl : err = 0 := by
    rcases @reserveIndirect_cases p fs d (hs.size_le hlive) with
      ⟨-, -, h⟩ | ⟨-, h⟩ | ⟨-, fs₂, h, -⟩
    · rw [h] at hres
      exact absurd (Prod.mk.inj hres).2 herr
    · exact (Prod.mk.inj (hres.trans h)).2
    · exact (Prod.mk.inj (hres.trans h)).2
  rw [if_neg herr] at hcreate
  obtain ⟨⟨fs₂, found⟩, hblock, hput⟩ := Option.bind_eq_some_iff.mp hcreate
  rcases entryBlock_ready hs hlive hnew hsparse.toDirectory hroom hres.symm _ hblock with
    rfl | ⟨q, b, rfl, hvacant, hready⟩
  · cases (Prod.mk.inj (Option.some.inj hput)).2
  · obtain ⟨fs₃, hput', hinserts⟩ := hready.inserts hs.owned hlive hsparse habsent hvacant hfits
      hzero hpos hlt
    obtain ⟨rfl, hr⟩ := Prod.mk.inj (Option.some.inj (hput.symm.trans hput'))
    exact ⟨Option.some.inj hr, hinserts⟩

end Room

/-! ## Runs -/

/-- The new path leads to the new inode; what a path led to before, it leads to still, and every
inode that a path led to, but for the parent, has the content it had. -/
structure NamesKept (fs fs' : FileSystem) (path : List UInt8) (d new : Nat) : Prop where
  made : getInode fs' path = some (some (new : Int))
  kept : ∀ path' m, (0 : UInt8) ∉ path' → getInode fs path' = some (some m) →
    getInode fs' path' = some (some m)
  content : ∀ path' (m : Nat), (0 : UInt8) ∉ path' →
    getInode fs path' = some (some (m : Int)) → m ≠ d →
    Minixfs.content fs' (fs'.inodes m) = Minixfs.content fs (fs.inodes m)

/-- The calls that change the names and the contents of files. -/
inductive Change where
  | create (path : List UInt8)
  | mkdir (path : List UInt8) (mode : BitVec 32)
  | write (path buf : List UInt8) (off : Nat)
  | unlink (path : List UInt8)

/-- A call, with the blocks and the time it is served with. -/
structure Turn where
  p : Picker
  now : Timespec
  change : Change

/-- A successful call. -/
def change (fs : FileSystem) (t : Turn) : Option FileSystem :=
  match t.change with
  | .create path => (createInodeForPath t.p t.now fs path).bind fun r => r.2.map fun _ => r.1
  | .mkdir path mode => succeeded (minixfsMkdir t.p t.now fs path mode)
  | .write path buf off =>
    succeeded ((minixfsWrite t.p t.now fs path buf off).map fun r => (r.1, r.2.1))
  | .unlink path => succeeded (minixfsUnlink fs path)

/-- A creation in a directory keeps the names, if the name is valid and has less than `248`
bytes. -/
def KeepsNames (fs : FileSystem) (t : Turn) : Prop :=
  match t.change with
  | .create path => ∀ (d new : Nat) (name : List UInt8) (fs' : FileSystem), (0 : UInt8) ∉ path →
      parentDirectory fs path = some (some (d : Int), name) → isDirectory (fs.inodes d) = true →
      validFilename name = true → name.length < fileNameLength →
      createInodeForPath t.p t.now fs path = some (fs', some new) → NamesKept fs fs' path d new
  | _ => True

/-- The parent of a file that is to be created has room. -/
def RoomFor (fs : FileSystem) (t : Turn) : Prop :=
  match t.change with
  | .create path => ∀ (d : Nat) (name : List UInt8),
      parentDirectory fs path = some (some (d : Int), name) → HasRoom fs (fs.inodes d)
  | _ => True

section Runs

variable {p : Picker} {now : Timespec} {fs fs' : FileSystem} {d new : Nat}
  {path name : List UInt8}

/-- A creation that succeeds has looked at the path, the inodes and the parent. -/
theorem createInodeForPath_some
    (hparent : parentDirectory fs path = some (some (d : Int), name)) (hd : d < inodesNumber)
    (hcreate : createInodeForPath p now fs path = some (fs', some new)) :
    getInode fs path = some none ∧ ∃ i, firstUnusedInode fs = some i ∧
      createIn p now fs d i name = some (fs', some new) := by
  rw [createInodeForPath] at hcreate
  obtain ⟨found, hfound, hcreate⟩ := Option.bind_eq_some_iff.mp hcreate
  cases found with
  | some m =>
    cases (Prod.mk.inj (Option.some.inj hcreate)).2
  | none =>
    refine ⟨hfound, ?_⟩
    cases hnew : firstUnusedInode fs with
    | none =>
      rw [hnew] at hcreate
      cases (Prod.mk.inj (Option.some.inj hcreate)).2
    | some i =>
      refine ⟨i, rfl, ?_⟩
      simp only [hnew, hparent, Option.isSome_none, Bool.false_eq_true, if_false,
        Option.bind_eq_bind, Option.bind_some, inode?_natCast hd] at hcreate
      split_ifs at hcreate with hvalid
      · cases (Prod.mk.inj (Option.some.inj hcreate)).2
      · exact hcreate

/-- One creation. -/
theorem createInodeForPath_keeps (hs : Searchable fs) (hzero : (0 : UInt8) ∉ path)
    (hparent : parentDirectory fs path = some (some (d : Int), name))
    (hdirectory : isDirectory (fs.inodes d) = true) (hname : validFilename name = true)
    (hfits : name.length < fileNameLength) (hroom : HasRoom fs (fs.inodes d))
    (hcreate : createInodeForPath p now fs path = some (fs', some new)) :
    NamesKept fs fs' path d new := by
  obtain ⟨p', hpath, -, -, hp⟩ := parentDirectory_eq_some hparent
  obtain ⟨d', hd', hd, hlive⟩ := hs.resolves _ _ hp
  obtain rfl : d = d' := by omega
  obtain ⟨hmissing, i, hunused, hin⟩ := createInodeForPath_some hparent hd hcreate
  have hnew := not_live_firstUnusedInode hunused
  have hrange := List.mem_range'_1.mp (List.mem_of_find?_eq_some hunused)
  have hlt : i < 2 ^ 31 := by
    simp only [inodesNumber] at hrange
    omega
  have hzero' : (0 : UInt8) ∉ name := by
    rw [hpath] at hzero
    exact fun hmem => hzero (List.mem_append_right _ (List.mem_cons_of_mem _ hmem))
  -- the name is not in the parent
  have habsent : findInodeNamed fs (fs.inodes d) name = some none := by
    rw [hpath, getInode_snoc hp hname] at hmissing
    obtain ⟨j, hj, ⟨hfile, -⟩ | ⟨-, ⟨hnone, -⟩ | ⟨m, -, hrest⟩⟩⟩ := walk_cons hmissing
    · obtain rfl : d = j := Option.some.inj ((inode?_natCast hd).symm.trans hj)
      rw [hdirectory] at hfile
      cases hfile
    · obtain rfl : d = j := Option.some.inj ((inode?_natCast hd).symm.trans hj)
      exact hnone
    · rw [walk_nil] at hrest
      cases Option.some.inj hrest
  obtain ⟨entries, names, nums, hsparse, -⟩ := hs.directories d hlive hdirectory
  obtain ⟨rfl, hinserts⟩ := createIn_inserts hs.toWellFormed hlive hsparse habsent hroom hfits
    hzero' hnew hrange.1 hlt hin
  refine ⟨hinserts.getInode_new hs hsparse.toDirectory hlive hd hdirectory habsent hzero hname
    hparent, fun path' m hzero' hm => hinserts.getInode_eq hs hsparse.toDirectory habsent hzero' hm,
    fun path' m _ hm hne => ?_⟩
  obtain ⟨m', hm', -, hmlive⟩ := hs.resolves path' m hm
  obtain rfl : m = m' := by omega
  exact hinserts.content_eq hs.toWellFormed hne hmlive

end Runs

/-- **Creating in directories with room keeps the names.** In a run of successful calls from a new
file system, through states that are well-formed, where the parent of every file that is created
has room, every creation is found under its path, and every other path leads to the inode it led
to, with its content. -/
theorem creations_keep_names {now : Timespec} {ts : List Turn}
    (hs : ∀ fs t, Takes change (minixfsMkfs now) ts fs t → Searchable fs)
    (hroom : ∀ fs t, Takes change (minixfsMkfs now) ts fs t → RoomFor fs t) :
    ∀ fs t, Takes change (minixfsMkfs now) ts fs t → KeepsNames fs t := by
  intro fs t ht
  have hsearch := hs fs t ht
  have hroom' := hroom fs t ht
  obtain ⟨p, now', call⟩ := t
  cases call with
  | create path =>
    intro d new name fs' hzero hparent hdirectory hname hfits hcreate
    exact createInodeForPath_keeps hsearch hzero hparent hdirectory hname hfits
      (hroom' d name hparent) hcreate
  | mkdir path mode => trivial
  | write path buf off => trivial
  | unlink path => trivial

/-- A new file system can be searched. -/
theorem searchable_minixfsMkfs (now : Timespec) : Searchable (minixfsMkfs now) := by
  have hkept := Kept.start now
  have hlive : ∀ d, (minixfsMkfs now).Live d → d = 0 := by
    intro d hd
    by_contra hne
    apply hd
    rw [minixfsMkfs_of_ne now hne]
    rfl
  have hroot : Directory (minixfsMkfs now) ((minixfsMkfs now).inodes 0) 0 := by
    refine ⟨?_, by decide, fun q hq => absurd hq (Nat.not_lt_zero _), fun h => absurd h (by decide)⟩
    rw [minixfsMkfs_root]
    rfl
  have hrootlive : (minixfsMkfs now).Live 0 := by
    rw [FileSystem.Live, minixfsMkfs_root]
    exact one_ne_zero
  refine ⟨⟨hkept.count ▸ by decide, hkept.exact.toOwns, fun n k hn hk => ?_,
    resolves_of_directories hrootlive fun d hd _ => ?_⟩, fun d hd _ => ?_⟩
  · obtain rfl := hlive n hn
    rw [minixfsMkfs_root] at hk
    exact absurd hk (Nat.not_lt_zero _)
  · obtain rfl := hlive d hd
    exact ⟨0, fun _ => [], fun _ => 0, ⟨hroot, fun k hk => absurd hk (Nat.not_lt_zero k)⟩,
      fun k hk => absurd hk (Nat.not_lt_zero k)⟩
  · obtain rfl := hlive d hd
    exact ⟨0, fun _ => [], fun _ => 0, ⟨hroot, fun k hk => absurd hk (Nat.not_lt_zero k)⟩,
      fun k hk => absurd hk (Nat.not_lt_zero k)⟩

/-- The root directory has one entry, for an inode without blocks. -/
structure FirstEntry (fs : FileSystem) (name : List UInt8) : Prop where
  count : fs.dblockCount = dataNumber
  map : fs.map 0 = true
  root : fs.inodes 0 = { (rootInode 0).setDirect 0 0 with size := fileNameEntry }
  live : ∀ n, fs.Live n ↔ n = 0 ∨ n = 1
  size : (fs.inodes 1).size = 0
  direct : (fs.inodes 1).direct = fun _ => unassignedNode
  indirect : (fs.inodes 1).indirect = unassignedNode
  entry : EntryAt fs.data 0 name 1

namespace FirstEntry

variable {fs : FileSystem} {name : List UInt8}

theorem ref (h : FirstEntry fs name) (x : Nat × Place) :
    ref fs x = if x = (0, .slot 0) then 0 else unassignedNode := by
  obtain ⟨n, y⟩ := x
  by_cases hlive : fs.Live n
  · have hind : (fs.inodes n).indirect = unassignedNode := by
      rcases (h.live n).mp hlive with rfl | rfl
      · rw [h.root]
        rfl
      · exact h.indirect
    rw [ref_of_live hlive]
    cases y with
    | pointer =>
      rw [if_neg fun h => by cases h]
      exact hind
    | slot k =>
      by_cases hk : k < numDirectBlocks
      · apply (slot_of_lt hk).trans
        rcases (h.live n).mp hlive with rfl | rfl
        · have hdirect : (fs.inodes 0).direct = Function.update (rootInode 0).direct 0 0 := by
            rw [h.root]
            rfl
          rw [hdirect, Function.update_apply]
          simp [rootInode]
        · simp only [Prod.mk.injEq, one_ne_zero, false_and, if_false, h.direct]
      · apply (slot_of_unassigned (not_lt.mp hk) hind).trans
        have hne : k ≠ 0 := fun h => hk (h ▸ by decide)
        simp [hne]
  · rw [ref_of_dead hlive, if_neg]
    rintro ⟨⟩
    exact hlive ((h.live 0).mpr (Or.inl rfl))

/-- The root is a directory with one entry. -/
theorem directory (h : FirstEntry fs name) : Directory fs (fs.inodes 0) 1 := by
  have hslot : slot (fs.inodes 0) fs.data 0 = (0 : Nat) := by
    rw [h.root]
    exact slot_of_lt (by decide)
  refine ⟨by rw [h.root]; rfl, by decide, fun q hq => ?_, fun h => absurd h (by decide)⟩
  obtain rfl : q = 0 := by
    simp only [blockEntries, blockSize, fileNameEntry] at hq
    omega
  rw [hslot]
  exact ⟨by decide, 0, rfl, by rw [h.count]; decide⟩

theorem entryAddr_zero (h : FirstEntry fs name) : entryAddr fs (fs.inodes 0) 0 = 0 := by
  have hslot : slot (fs.inodes 0) fs.data 0 = (0 : Nat) := by
    rw [h.root]
    exact slot_of_lt (by decide)
  simpa using entryAddr_add (q := 0) (i := 0) (by decide) hslot

/-- The inode of the entry may be a directory, which is empty then. -/
theorem directories (h : FirstEntry fs name) (d : Nat) (hd : fs.Live d) :
    ∃ entries names nums, Entries fs d entries names nums ∧
      ∀ k < entries, nums k < inodesNumber ∧ fs.Live (nums k) := by
  rcases (h.live d).mp hd with rfl | rfl
  · refine ⟨1, fun _ => name, fun _ => 1, ⟨h.directory, fun k hk => ?_⟩, fun k hk => ?_⟩
    · obtain rfl : k = 0 := by omega
      rw [h.entryAddr_zero]
      exact h.entry
    · have hsmall : 1 < inodesNumber := by decide
      exact ⟨hsmall, (h.live 1).mpr (Or.inr rfl)⟩
  · refine ⟨0, fun _ => [], fun _ => 0, ⟨⟨h.size, by decide, fun q hq => ?_, fun h => ?_⟩,
      fun k hk => absurd hk (Nat.not_lt_zero k)⟩, fun k hk => absurd hk (Nat.not_lt_zero k)⟩
    · exact absurd hq (Nat.not_lt_zero _)
    · exact absurd h (Nat.not_lt_zero _)

theorem searchable (h : FirstEntry fs name) : Searchable fs := by
  have href : ∀ x, Minixfs.ref fs x ≠ unassignedNode →
      x = (0, .slot 0) ∧ Minixfs.ref fs x = 0 := by
    intro x hx
    rw [h.ref] at hx ⊢
    split_ifs at hx ⊢ with hplace
    · exact ⟨hplace, rfl⟩
    · exact absurd rfl hx
  refine ⟨⟨h.count ▸ by decide, ⟨fun x y hx hxy => ?_, fun x hx => ?_⟩, fun n k hn hk => ?_,
    resolves_of_directories ((h.live 0).mpr (Or.inl rfl)) fun d hd _ => ?_⟩, fun d hd _ => ?_⟩
  · rw [(href x hx).1, (href y (hxy ▸ hx)).1]
  · rw [(href x hx).2]
    exact ⟨le_rfl, by rw [h.count]; decide, h.map⟩
  -- only the root has a size
  · obtain rfl : n = 0 := by
      rcases (h.live n).mp hn with rfl | rfl
      · rfl
      · rw [h.size] at hk
        exact absurd hk (Nat.not_lt_zero _)
    obtain rfl : k = 0 := by
      rw [h.root] at hk
      simp only [blockSize, fileNameEntry] at hk
      omega
    rw [h.ref, if_pos rfl]
    decide
  · exact h.directories d hd
  · obtain ⟨entries, names, nums, hentries, hnums⟩ := h.directories d hd
    exact ⟨entries, names, nums, ⟨hentries.toDirectory, fun k hk => Or.inr (hentries.entry k hk)⟩,
      fun k hk => Or.inr (hnums k hk)⟩

end FirstEntry

/-- The new file system after the creation of a file in the root directory. -/
def firstEntry (name : List UInt8) : FileSystem :=
  let fs := (minixfsMkfs 0).setInode 1 (initInode 0 (rootInode 0))
  let fs := (fs.setInode 0 ((fs.inodes 0).setDirect 0 0)).setDataUsed 0 true
  { fs.setInode 0 { fs.inodes 0 with size := fileNameEntry } with
    data := makeStringFromDirent Memory.zero 0 name 1 }

theorem live_firstEntry (name : List UInt8) (n : Nat) :
    (firstEntry name).Live n ↔ n = 0 ∨ n = 1 := by
  by_cases h₀ : n = 0
  · subst h₀
    exact iff_of_true one_ne_zero (Or.inl rfl)
  by_cases h₁ : n = 1
  · subst h₁
    exact iff_of_true one_ne_zero (Or.inr rfl)
  · have hblank : (firstEntry name).inodes n = blankInode := by
      rw [← minixfsMkfs_of_ne 0 h₀]
      exact (FileSystem.setInode_of_ne _ _ h₀).trans ((FileSystem.setInode_of_ne _ _ h₀).trans
        (FileSystem.setInode_of_ne _ _ h₁))
    refine iff_of_false (fun h => h ?_) (not_or.mpr ⟨h₀, h₁⟩)
    rw [hblank]
    rfl

theorem firstEntry_spec {name : List UInt8} (hlen : name.length < fileNameLength)
    (hzero : (0 : UInt8) ∉ name) : FirstEntry (firstEntry name) name where
  count := rfl
  map := rfl
  root := rfl
  live := live_firstEntry name
  size := rfl
  direct := rfl
  indirect := rfl
  entry := by
    have hdata : (firstEntry name).data = makeStringFromDirent Memory.zero 0 name 1 := by
      simp only [firstEntry]
    rw [hdata]
    exact entryAt_makeString Memory.zero 0 hlen hzero one_pos (by decide)

/-- The new file system after the creation of `/a`. -/
def firstFile : FileSystem := firstEntry (chars "a")

theorem firstFile_spec : FirstEntry firstFile (chars "a") :=
  firstEntry_spec (by decide) (by decide)

/-- The new file system after the directory `/d` has been made. -/
def firstDirectory : FileSystem :=
  (firstEntry (chars "d")).setInode 1 { initInode 0 (rootInode 0) with
    mode := (typeDirectory <<< rwxBitsNumber) ||| ((initInode 0 (rootInode 0)).mode &&& 0o777) |||
      0o755 }

theorem firstDirectory_spec : FirstEntry firstDirectory (chars "d") := by
  have hfirst : FirstEntry (firstEntry (chars "d")) (chars "d") :=
    firstEntry_spec (by decide) (by decide)
  have hdata : firstDirectory.data = (firstEntry (chars "d")).data := by
    simp only [firstDirectory, FileSystem.setInode]
  refine ⟨rfl, rfl, rfl, fun n => ?_, rfl, rfl, rfl, by rw [hdata]; exact hfirst.entry⟩
  by_cases hn : n = 1
  · subst hn
    exact iff_of_true one_ne_zero (Or.inr rfl)
  · rw [← hfirst.live n, FileSystem.Live, FileSystem.Live, firstDirectory,
      FileSystem.setInode_of_ne _ _ hn]

/-- A directory in the root directory, and a file in it. The directory keeps its path. -/
theorem creations_keep_names_d : ∃ fs',
    run change (minixfsMkfs 0) [⟨lowest, 0, .mkdir (chars "/d") 0o755⟩,
      ⟨lowest, 0, .create (chars "/d/x")⟩] = some fs' ∧
    getInode fs' (chars "/d") = some (some 1) ∧ getInode fs' (chars "/d/x") = some (some 2) := by
  have hmkdir : change (minixfsMkfs 0) ⟨lowest, 0, .mkdir (chars "/d") 0o755⟩ =
      some firstDirectory := by
    have hcreate : createInodeForPath lowest 0 (minixfsMkfs 0) (chars "/d") =
        some (firstEntry (chars "d"), some 1) := by rfl
    rw [change]
    dsimp only
    rw [minixfsMkdir, hcreate]
    rfl
  have hcreate : (createInodeForPath lowest 0 firstDirectory (chars "/d/x")).map Prod.snd =
      some (some 2) := by
    decide +kernel
  obtain ⟨⟨fs', r⟩, hcreate, rfl⟩ := Option.map_eq_some_iff.mp hcreate
  have hparent : parentDirectory firstDirectory (chars "/d/x") = some (some 1, chars "x") := by
    decide +kernel
  -- the two steps of the run, with the states in which they are taken
  have htakes : ∀ fs t, Takes change (minixfsMkfs 0) [⟨lowest, 0, .mkdir (chars "/d") 0o755⟩,
      ⟨lowest, 0, .create (chars "/d/x")⟩] fs t →
      (fs = minixfsMkfs 0 ∧ t = ⟨lowest, 0, .mkdir (chars "/d") 0o755⟩) ∨
        fs = firstDirectory ∧ t = ⟨lowest, 0, .create (chars "/d/x")⟩ := by
    intro fs t ht
    rcases @takes_snoc _ _ change _ _ [⟨lowest, 0, .mkdir (chars "/d") 0o755⟩] _ _ ht with
      ht | ⟨rfl, hrun⟩
    · rcases @takes_snoc _ _ change _ _ [] _ _ ht with ⟨pre, hpre, -⟩ | ⟨rfl, hrun⟩
      · simp at hpre
      · exact Or.inl ⟨(Option.some.inj hrun).symm, rfl⟩
    · rw [run_cons, hmkdir] at hrun
      exact Or.inr ⟨(Option.some.inj hrun).symm, rfl⟩
  have hkeeps := creations_keep_names (fun fs t ht => by
      rcases htakes fs t ht with ⟨rfl, -⟩ | ⟨rfl, -⟩
      · exact searchable_minixfsMkfs 0
      · exact firstDirectory_spec.searchable)
    (fun fs t ht => by
      rcases htakes fs t ht with ⟨-, rfl⟩ | ⟨rfl, rfl⟩
      · trivial
      · intro d name hd
        rw [hparent] at hd
        obtain ⟨hd, -⟩ := Prod.mk.inj (Option.some.inj hd)
        obtain rfl : d = 1 := by
          have hd := Option.some.inj hd
          omega
        exact ⟨by decide, rfl, fun _ => rfl⟩)
    firstDirectory ⟨lowest, 0, .create (chars "/d/x")⟩
    ⟨[⟨lowest, 0, .mkdir (chars "/d") 0o755⟩], List.prefix_refl _, by rw [run_cons, hmkdir]; rfl⟩
  have hkept := hkeeps 1 2 (chars "x") fs' (by decide) hparent (by decide) (by decide) (by decide)
    hcreate
  have hbefore : getInode firstDirectory (chars "/d") = some (some 1) := by decide +kernel
  refine ⟨fs', ?_, hkept.kept _ 1 (by decide) hbefore, hkept.made⟩
  rw [run_cons, hmkdir, Option.bind_some, run_cons, change]
  dsimp only
  rw [hcreate]
  rfl

/-- The second file of the root directory takes the place of the first. -/
theorem not_creations_keep_names : ¬ ∀ (now : Timespec) (ts : List Turn) (fs : FileSystem)
    (t : Turn), Takes change (minixfsMkfs now) ts fs t → Searchable fs → KeepsNames fs t := by
  intro h
  have hfirst : change (minixfsMkfs 0) ⟨lowest, 0, .create (chars "/a")⟩ = some firstFile := by
    have hcreate : createInodeForPath lowest 0 (minixfsMkfs 0) (chars "/a") =
        some (firstFile, some 1) := by rfl
    rw [change]
    dsimp only
    rw [hcreate]
    rfl
  have hsecond : (createInodeForPath lowest 0 firstFile (chars "/b")).map
      (fun r => (r.2, getInode r.1 (chars "/a"))) = some (some 2, some none) := by
    decide +kernel
  obtain ⟨⟨fs', r⟩, hcreate, hpair⟩ := Option.map_eq_some_iff.mp hsecond
  obtain ⟨rfl, hlost⟩ := Prod.mk.inj hpair
  have htakes : Takes change (minixfsMkfs 0)
      [⟨lowest, 0, .create (chars "/a")⟩, ⟨lowest, 0, .create (chars "/b")⟩] firstFile
      ⟨lowest, 0, .create (chars "/b")⟩ := by
    refine ⟨[⟨lowest, 0, .create (chars "/a")⟩], List.prefix_refl _, ?_⟩
    rw [run_cons, hfirst]
    rfl
  have hkeeps := h 0 _ _ _ htakes firstFile_spec.searchable 0 2 (chars "b") fs' (by decide)
    (by decide +kernel) (by decide) (by decide) (by decide) hcreate
  have hbefore : getInode firstFile (chars "/a") = some (some 1) := by decide +kernel
  rw [hkeeps.kept _ 1 (by decide) hbefore] at hlost
  cases hlost

end SystemProgramming.Minixfs
