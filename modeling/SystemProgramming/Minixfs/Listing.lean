import Mathlib.Data.List.TakeWhile
import Mathlib.Tactic
import SystemProgramming.Minixfs.WellFormed

/-!
# Directories as lists of names

In a well-formed directory every entry has a number and a name that ends within its `248`
bytes, and no two entries share one of them. A search then finds exactly the names of the
entries. In a tree of such directories every path is looked up without a fault, and a walk
never comes back to a directory.

## Main definitions

* `Entries`, `Listing`: the entries of a directory, and of a well-formed one
* `Tree`: a well-formed file system of well-formed directories

## Main results

* `Listing.findInodeNamed`: the search of a directory
* `Tree.walk_total`, `Tree.walk_frame`: walks end, and depend on the directories they go through
* `split_path`, `getInode_snoc`: paths with a file name
-/

namespace SystemProgramming.Minixfs

/-! ## Directories -/

/-- The directory `d` has the given names and inode numbers. -/
structure Entries (fs : FileSystem) (d entries : Nat) (names : Nat → List UInt8)
    (nums : Nat → Nat) : Prop extends Directory fs (fs.inodes d) entries where
  entry : ∀ k < entries, EntryAt fs.data (entryAddr fs (fs.inodes d) k) (names k) (nums k)

/-- A well-formed directory has each of its names and inode numbers once. -/
structure Listing (fs : FileSystem) (d entries : Nat) (names : Nat → List UInt8)
    (nums : Nat → Nat) : Prop extends Entries fs d entries names nums where
  valid : ∀ k < entries, validFilename (names k) = true
  names_inj : ∀ j < entries, ∀ k < entries, names j = names k → j = k
  nums_inj : ∀ j < entries, ∀ k < entries, nums j = nums k → j = k

section Directories

variable {fs fs' : FileSystem} {d entries k : Nat} {names : Nat → List UInt8} {nums : Nat → Nat}
  {tok : List UInt8}

/-- A search finds the first entry with the name. -/
theorem Entries.findInodeNamed_eq (h : Entries fs d entries names nums) (htok : (0 : UInt8) ∉ tok) :
    findInodeNamed fs (fs.inodes d) tok = some ((List.range entries).findSome? fun k =>
      if tok = names k then some (nums k : Int) else none) := by
  have hfirst : entries = 0 ∨
      (makeDirentFromString fs.data (entryAddr fs (fs.inodes d) 0)).isSome := by
    rcases Nat.eq_zero_or_pos entries with hzero | hpos
    · exact Or.inl hzero
    · rw [(h.entry 0 hpos).number]
      exact Or.inr rfl
  rw [Minixfs.findInodeNamed_eq h.toDirectory tok hfirst]
  refine congrArg some (findSome?_congr fun k hk => ?_)
  exact (h.entry k (List.mem_range.mp hk)).hit htok

/-- The entries lie in blocks that keep their bytes. -/
theorem Directory.frame (h : Directory fs (fs.inodes d) entries)
    (hcount : fs'.dblockCount = fs.dblockCount) (hnode : SameEntries (fs.inodes d) (fs'.inodes d))
    (hpointer : (fs.inodes d).indirect ≠ unassignedNode →
      SameBlock fs.data fs'.data (fs.inodes d).indirect)
    (hslots : ∀ q, blockEntries * q < entries →
      SameBlock fs.data fs'.data (slot (fs.inodes d) fs.data q)) :
    Directory fs' (fs'.inodes d) entries ∧ ∀ k < entries,
      entryAddr fs' (fs'.inodes d) k = entryAddr fs (fs.inodes d) k ∧
      ∀ i < fileNameEntry, fs'.data (entryAddr fs (fs.inodes d) k + i) =
        fs.data (entryAddr fs (fs.inodes d) k + i) := by
  have hslot : ∀ q, slot (fs'.inodes d) fs'.data q = slot (fs.inodes d) fs.data q := fun q =>
    slot_congr (fun _ => by rw [hnode.direct]) hnode.indirect hpointer
  refine ⟨⟨hnode.size.trans h.size, h.bound, fun q hq => ?_, fun hmany => ?_⟩, fun k hk => ⟨?_, ?_⟩⟩
  · rw [hslot, hcount]
    exact h.slots q hq
  · rw [hnode.indirect, hcount]
    exact h.pointer hmany
  · rw [entryAddr, entryAddr, hslot]
  · intro i hi
    have hdiv := Nat.div_add_mod k blockEntries
    have hmod : k % blockEntries < blockEntries := Nat.mod_lt _ (by decide)
    have hin : fileNameEntry * (k % blockEntries) + i < blockSize := by
      simp only [blockEntries, blockSize, fileNameEntry] at *
      omega
    have hsame := hslots (k / blockEntries) (by omega) _ hin
    rw [entryAddr, Nat.add_assoc]
    exact hsame.symm

/-- So the directory has the entries that it had. -/
theorem Entries.frame (h : Entries fs d entries names nums)
    (hcount : fs'.dblockCount = fs.dblockCount) (hnode : SameEntries (fs.inodes d) (fs'.inodes d))
    (hpointer : (fs.inodes d).indirect ≠ unassignedNode →
      SameBlock fs.data fs'.data (fs.inodes d).indirect)
    (hslots : ∀ q, blockEntries * q < entries →
      SameBlock fs.data fs'.data (slot (fs.inodes d) fs.data q)) :
    Entries fs' d entries names nums := by
  obtain ⟨hdir, hentries⟩ := h.toDirectory.frame hcount hnode hpointer hslots
  refine ⟨hdir, fun k hk => (h.entry k hk).copy fun i hi => ?_⟩
  obtain ⟨haddr, hbytes⟩ := hentries k hk
  rw [haddr]
  exact hbytes i hi

/-- A search finds an entry, whatever the name. -/
theorem Entries.findInodeNamed_mem (h : Entries fs d entries names nums) (hpos : 0 < entries)
    {m : Int} (hm : findInodeNamed fs (fs.inodes d) tok = some (some m)) :
    ∃ k < entries, m = nums k := by
  rw [Minixfs.findInodeNamed_eq h.toDirectory tok (Or.inr (by
    rw [(h.entry 0 hpos).number]
    rfl))] at hm
  obtain ⟨k, hk, hhit⟩ := List.exists_of_findSome?_eq_some (Option.some.inj hm)
  have hk' := List.mem_range.mp hk
  rw [hit, (h.entry k hk').number, Option.bind_some] at hhit
  split_ifs at hhit
  exact ⟨k, hk', (Option.some.inj hhit).symm⟩

theorem Listing.findInodeNamed (h : Listing fs d entries names nums) (hk : k < entries) :
    findInodeNamed fs (fs.inodes d) (names k) = some (some (nums k : Int)) := by
  rw [h.findInodeNamed_eq (h.entry k hk).nonzero]
  obtain ⟨i, hi⟩ : ∃ i, (List.range entries).findSome? (fun j =>
      if names k = names j then some (nums j : Int) else none) = some i := by
    rw [← Option.isSome_iff_exists, List.findSome?_isSome_iff]
    exact ⟨k, List.mem_range.mpr hk, by rw [if_pos rfl]; rfl⟩
  obtain ⟨j, hj, hji⟩ := List.exists_of_findSome?_eq_some hi
  split_ifs at hji with hname
  rw [hi, ← Option.some.inj hji, h.names_inj k hk j (List.mem_range.mp hj) hname]

theorem Listing.findInodeNamed_none (h : Listing fs d entries names nums) (htok : (0 : UInt8) ∉ tok)
    (hnone : ∀ k < entries, tok ≠ names k) :
    Minixfs.findInodeNamed fs (fs.inodes d) tok = some none := by
  rw [h.findInodeNamed_eq htok]
  refine congrArg some (List.findSome?_eq_none_iff.mpr fun k hk => ?_)
  exact if_neg (hnone k (List.mem_range.mp hk))

/-- A search finds an entry with the name, or nothing. -/
theorem Listing.findInodeNamed_cases (h : Listing fs d entries names nums) (htok : (0 : UInt8) ∉ tok) :
    (∃ k < entries, tok = names k ∧
        Minixfs.findInodeNamed fs (fs.inodes d) tok = some (some (nums k : Int))) ∨
      (∀ k < entries, tok ≠ names k) ∧ Minixfs.findInodeNamed fs (fs.inodes d) tok = some none := by
  by_cases hex : ∃ k < entries, tok = names k
  · obtain ⟨k, hk, rfl⟩ := hex
    exact Or.inl ⟨k, hk, rfl, h.findInodeNamed hk⟩
  · have hnone : ∀ k < entries, tok ≠ names k := fun k hk heq => hex ⟨k, hk, heq⟩
    exact Or.inr ⟨hnone, h.findInodeNamed_none htok hnone⟩

end Directories

/-! ## Walks -/

section Walks

variable {fs fs' : FileSystem} {tok : List UInt8} {toks toks' : List (List UInt8)} {n m : Int}
  {r : Option Int}

/-- The first step of a walk. -/
theorem walk_cons (h : walk fs (tok :: toks) n = some r) :
    ∃ i, inode? n = some i ∧ (isDirectory (fs.inodes i) = false ∧ r = none ∨
      isDirectory (fs.inodes i) = true ∧
        (findInodeNamed fs (fs.inodes i) tok = some none ∧ r = none ∨
          ∃ m, findInodeNamed fs (fs.inodes i) tok = some (some m) ∧ walk fs toks m = some r)) := by
  rw [walk] at h
  obtain ⟨i, hi, h⟩ := Option.bind_eq_some_iff.mp h
  refine ⟨i, hi, ?_⟩
  cases hdir : isDirectory (fs.inodes i) with
  | false =>
    rw [hdir, Bool.not_false, if_pos rfl] at h
    exact Or.inl ⟨rfl, (Option.some.inj h).symm⟩
  | true =>
    rw [hdir, Bool.not_true, if_neg Bool.false_ne_true] at h
    obtain ⟨found, hfound, h⟩ := Option.bind_eq_some_iff.mp h
    cases found with
    | none => exact Or.inr ⟨rfl, Or.inl ⟨hfound, (Option.some.inj h).symm⟩⟩
    | some m => exact Or.inr ⟨rfl, Or.inr ⟨m, hfound, h⟩⟩

theorem walk_nil : walk fs [] n = some (some n) := by rw [walk]

/-- A walk that goes on. -/
theorem walk_append (h : walk fs toks n = some (some m)) :
    walk fs (toks ++ toks') n = walk fs toks' m := by
  induction toks generalizing n with
  | nil =>
    rw [walk_nil] at h
    rw [List.nil_append, Option.some.inj (Option.some.inj h)]
  | cons tok toks ih =>
    obtain ⟨i, hi, ⟨-, hnone⟩ | ⟨hdir, ⟨-, hnone⟩ | ⟨m', hfind, hrest⟩⟩⟩ := walk_cons h
    · cases hnone
    · cases hnone
    · rw [List.cons_append, walk_of_some hi hdir hfind, ih hrest]

end Walks

/-! ## Paths with a file name -/

section Splitting

variable {path name p : List UInt8}

/-- The characters of a token are characters of the path. -/
theorem mem_of_mem_tokens {tok : List UInt8} {c : UInt8} (htok : tok ∈ tokens path)
    (hc : c ∈ tok) : c ∈ path := by
  have hsplit : ∀ path : List UInt8, ∀ tok ∈ path.splitOn 47, c ∈ tok → c ∈ path := by
    intro path
    induction path with
    | nil => simp
    | cons x path ih =>
      intro tok htok hc
      rw [List.splitOn_cons_eq_if_modifyHead] at htok
      obtain ⟨hd, tl, hsplit⟩ := List.exists_cons_of_ne_nil (List.splitOn_ne_nil 47 path)
      rw [hsplit] at htok ih
      split_ifs at htok
      · rcases List.mem_cons.mp htok with rfl | hmem
        · cases hc
        · exact List.mem_cons_of_mem x (ih tok hmem hc)
      · rcases List.mem_cons.mp htok with rfl | hmem
        · rcases List.mem_cons.mp hc with rfl | hc
          · exact List.mem_cons_self
          · exact List.mem_cons_of_mem x (ih hd List.mem_cons_self hc)
        · exact List.mem_cons_of_mem x (ih tok (List.mem_cons_of_mem hd hmem) hc)
  exact hsplit path tok (List.mem_filter.mp htok).1 hc

/-- A path with a slash ends with its file name. -/
theorem split_path (h : (47 : UInt8) ∈ path) : ∃ p, path = p ++ 47 :: filename path ∧
    (47 : UInt8) ∉ filename path ∧ path.take (path.length - (filename path).length) = p ++ [47] := by
  have hname : (47 : UInt8) ∉ filename path := by
    rw [filename, List.mem_reverse]
    intro hmem
    have hne := List.mem_takeWhile_imp hmem
    simp at hne
  have hsplit := List.takeWhile_append_dropWhile (p := (· ≠ (47 : UInt8))) (l := path.reverse)
  cases hrest : path.reverse.dropWhile (· ≠ (47 : UInt8)) with
  | nil =>
    rw [hrest, List.append_nil] at hsplit
    rw [filename, hsplit, List.reverse_reverse] at hname
    exact absurd h hname
  | cons c rest =>
    have hc : c = 47 := by
      have hhead := List.head?_dropWhile_not (· ≠ (47 : UInt8)) path.reverse
      rw [hrest] at hhead
      simpa using hhead
    subst hc
    have hpath : path = rest.reverse ++ 47 :: filename path := by
      rw [hrest] at hsplit
      rw [filename]
      have hrev := congrArg List.reverse hsplit
      simpa using hrev.symm
    refine ⟨rest.reverse, hpath, hname, ?_⟩
    have hlen := congrArg List.length hpath
    rw [List.length_append, List.length_cons] at hlen
    have htake : path.length - (filename path).length = (rest.reverse ++ [47]).length := by
      rw [List.length_append, List.length_singleton]
      omega
    rw [htake]
    conv_lhs => rw [hpath]
    have hassoc : rest.reverse ++ 47 :: filename path = (rest.reverse ++ [47]) ++ filename path := by
      simp
    rw [hassoc, List.take_left']
    rfl

end Splitting

/-! ## Trees -/

/-- A well-formed file system of well-formed directories, none of which lies below itself. -/
structure Tree (fs : FileSystem) : Prop extends WellFormed fs where
  directories : ∃ rank : Nat → Nat, ∀ d, fs.Live d → isDirectory (fs.inodes d) = true →
    ∃ entries names nums, Listing fs d entries names nums ∧ ∀ k < entries,
      nums k < inodesNumber ∧ fs.Live (nums k) ∧ rank d < rank (nums k)

/-- A file system of well-formed directories is well-formed. -/
theorem resolves_of_directories {fs : FileSystem} (hroot : fs.Live 0)
    (h : ∀ d, fs.Live d → isDirectory (fs.inodes d) = true →
      ∃ entries names nums, Entries fs d entries names nums ∧ ∀ k < entries,
        nums k < inodesNumber ∧ fs.Live (nums k)) (path : List UInt8) (m : Int)
    (hm : getInode fs path = some (some m)) :
    ∃ n : Nat, m = n ∧ n < inodesNumber ∧ fs.Live n := by
  have hwalk : ∀ toks (n : Nat), n < inodesNumber → fs.Live n → ∀ m,
      walk fs toks n = some (some m) → ∃ i : Nat, m = i ∧ i < inodesNumber ∧ fs.Live i := by
    intro toks
    induction toks with
    | nil =>
      intro n hn hlive m hm
      rw [walk_nil] at hm
      exact ⟨n, (Option.some.inj (Option.some.inj hm)).symm, hn, hlive⟩
    | cons tok toks ih =>
      intro n hn hlive m hm
      obtain ⟨i, hi, ⟨-, hnone⟩ | ⟨hdir, ⟨-, hnone⟩ | ⟨m', hfind, hrest⟩⟩⟩ := walk_cons hm
      · cases hnone
      · cases hnone
      have hin : i = n := by
        rw [inode?, if_pos ⟨by omega, by omega⟩, Int.toNat_natCast] at hi
        exact (Option.some.inj hi).symm
      subst hin
      obtain ⟨entries, names, nums, hlist, hnums⟩ := h i hlive hdir
      rcases Nat.eq_zero_or_pos entries with hzero | hpos
      · subst hzero
        rw [Minixfs.findInodeNamed_eq hlist.toDirectory tok (Or.inl rfl)] at hfind
        cases Option.some.inj hfind
      · obtain ⟨k, hk, rfl⟩ := hlist.findInodeNamed_mem hpos hfind
        exact ih (nums k) (hnums k hk).1 (hnums k hk).2 m hrest
  have hzero : ∃ n : Nat, (0 : Int) = n ∧ n < inodesNumber ∧ fs.Live n :=
    ⟨0, rfl, by decide, hroot⟩
  cases path with
  | nil =>
    rw [getInode] at hm
    rw [← Option.some.inj (Option.some.inj hm)]
    exact hzero
  | cons c path =>
    rw [getInode] at hm
    split_ifs at hm
    · cases Option.some.inj hm
    · exact hwalk _ 0 (by decide) hroot m hm

section Trees

variable {fs fs' : FileSystem} {toks : List (List UInt8)} {n m : Nat}

theorem inode?_natCast (h : n < inodesNumber) : inode? (n : Int) = some n := by
  rw [inode?, if_pos ⟨by omega, by omega⟩, Int.toNat_natCast]

/-- **Every walk ends.** It leads further down, to a live inode, or nowhere. -/
theorem walk_total {rank : Nat → Nat} (h : ∀ d, fs.Live d → isDirectory (fs.inodes d) = true →
    ∃ entries names nums, Listing fs d entries names nums ∧ ∀ k < entries,
      nums k < inodesNumber ∧ fs.Live (nums k) ∧ rank d < rank (nums k))
    (hlive : fs.Live n) (hn : n < inodesNumber) (htoks : ∀ tok ∈ toks, (0 : UInt8) ∉ tok) :
    walk fs toks n = some none ∨ ∃ m : Nat, walk fs toks n = some (some (m : Int)) ∧
      m < inodesNumber ∧ fs.Live m ∧ (toks ≠ [] → rank n < rank m) := by
  induction toks generalizing n with
  | nil => exact Or.inr ⟨n, walk_nil, hn, hlive, fun h => absurd rfl h⟩
  | cons tok toks ih =>
    have hi := inode?_natCast hn
    cases hdir : isDirectory (fs.inodes n) with
    | false => exact Or.inl (walk_of_file hi hdir)
    | true =>
      obtain ⟨entries, names, nums, hlist, hnums⟩ := h n hlive hdir
      rcases hlist.findInodeNamed_cases (htoks tok List.mem_cons_self) with
        ⟨k, hk, -, hfind⟩ | ⟨-, hfind⟩
      · obtain ⟨hlt, hlive', hrank⟩ := hnums k hk
        rw [walk_of_some hi hdir hfind]
        rcases ih hlive' hlt fun tok htok => htoks tok (List.mem_cons_of_mem _ htok) with
          hnone | ⟨m, hm, hmlt, hmlive, hmrank⟩
        · exact Or.inl hnone
        · refine Or.inr ⟨m, hm, hmlt, hmlive, fun _ => ?_⟩
          by_cases htoks' : toks = []
          · rw [htoks', walk_nil] at hm
            have heq : nums k = m := Int.ofNat_inj.mp (Option.some.inj (Option.some.inj hm))
            rwa [← heq]
          · exact hrank.trans (hmrank htoks')
      · exact Or.inl (walk_of_none hi hdir hfind)

/-- **A walk depends on the directories before its end.** -/
theorem walk_frame {rank : Nat → Nat} (h : ∀ d, fs.Live d → isDirectory (fs.inodes d) = true →
    ∃ entries names nums, Listing fs d entries names nums ∧ ∀ k < entries,
      nums k < inodesNumber ∧ fs.Live (nums k) ∧ rank d < rank (nums k))
    (hframe : ∀ d, d ≠ m → fs.Live d → isDirectory (fs.inodes d) = true →
      isDirectory (fs'.inodes d) = true ∧ ∀ tok, (0 : UInt8) ∉ tok →
        findInodeNamed fs' (fs'.inodes d) tok = findInodeNamed fs (fs.inodes d) tok)
    (hlive : fs.Live n) (hn : n < inodesNumber) (htoks : ∀ tok ∈ toks, (0 : UInt8) ∉ tok)
    (hwalk : walk fs toks n = some (some (m : Int))) : walk fs' toks n = some (some (m : Int)) := by
  induction toks generalizing n with
  | nil =>
    rw [walk_nil] at hwalk ⊢
    exact hwalk
  | cons tok toks ih =>
    have hi := inode?_natCast hn
    have htok := htoks tok List.mem_cons_self
    have hnm : n ≠ m := by
      rcases walk_total h hlive hn htoks with hnone | ⟨m', hm', -, -, hrank⟩
      · rw [hnone] at hwalk
        cases Option.some.inj hwalk
      · rw [hm'] at hwalk
        have heq : m' = m := Int.ofNat_inj.mp (Option.some.inj (Option.some.inj hwalk))
        rintro rfl
        exact absurd (hrank (List.cons_ne_nil _ _)) (heq ▸ lt_irrefl _)
    obtain ⟨i, hi', ⟨-, hnone⟩ | ⟨hdir, ⟨-, hnone⟩ | ⟨m', hfind, hrest⟩⟩⟩ := walk_cons hwalk
    · cases hnone
    · cases hnone
    obtain rfl : n = i := Option.some.inj (hi.symm.trans hi')
    obtain ⟨entries, names, nums, hlist, hnums⟩ := h n hlive hdir
    obtain ⟨hdir', hsame⟩ := hframe n hnm hlive hdir
    rcases hlist.findInodeNamed_cases htok with ⟨k, hk, -, hfind'⟩ | ⟨-, hfind'⟩
    · obtain ⟨hlt, hlive', -⟩ := hnums k hk
      rw [walk_of_some hi hdir' ((hsame tok htok).trans hfind')]
      rw [hfind'] at hfind
      rw [← Option.some.inj (Option.some.inj hfind)] at hrest
      exact ih hlive' hlt (fun tok htok => htoks tok (List.mem_cons_of_mem _ htok)) hrest
    · rw [hfind'] at hfind
      cases Option.some.inj hfind

theorem getInode_eq_walk {p rest : List UInt8}
    (h : getInode fs (p ++ 47 :: rest) = some (some (m : Int))) :
    p.head? = none ∨ p.head? = some 47 := by
  cases p with
  | nil => exact Or.inl rfl
  | cons c p =>
    rw [List.cons_append, getInode] at h
    split_ifs at h with hc
    · cases Option.some.inj h
    · exact Or.inr (congrArg some (not_not.mp hc))

/-- The lookup of a path that begins with a slash. -/
theorem getInode_slash {p rest : List UInt8} (hp : p.head? = none ∨ p.head? = some 47) :
    getInode fs (p ++ 47 :: rest) = walk fs (tokens (p ++ 47 :: rest)) 0 := by
  cases p with
  | nil => rw [List.nil_append, getInode, if_neg (fun h => h rfl)]
  | cons c p =>
    obtain rfl : c = 47 := by simpa using hp
    rw [List.cons_append, getInode, if_neg (fun h => h rfl)]

/-- A name in a directory. -/
theorem getInode_snoc {p name : List UInt8} (hp : getInode fs (p ++ [47]) = some (some (m : Int)))
    (hname : validFilename name = true) :
    getInode fs (p ++ 47 :: name) = walk fs [name] m := by
  have hhead := getInode_eq_walk hp
  rw [getInode_slash hhead] at hp ⊢
  rw [tokens_snoc p hname, walk_append hp]

/-- The parent and the name of a path. -/
theorem parentDirectory_eq_some {path name : List UInt8} {parent : Option Int}
    (h : parentDirectory fs path = some (parent, name)) :
    ∃ p, path = p ++ 47 :: name ∧ (47 : UInt8) ∉ name ∧
      path.take (path.length - name.length) = p ++ [47] ∧ getInode fs (p ++ [47]) = some parent := by
  rw [parentDirectory] at h
  split_ifs at h with hslash
  obtain ⟨found, hfound, hpair⟩ := Option.map_eq_some_iff.mp h
  obtain ⟨rfl, rfl⟩ := Prod.mk.inj hpair
  obtain ⟨p, hpath, hname, htake⟩ := split_path hslash
  rw [htake] at hfound
  exact ⟨p, hpath, hname, htake, hfound⟩

end Trees

end SystemProgramming.Minixfs
