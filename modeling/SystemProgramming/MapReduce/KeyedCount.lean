import SystemProgramming.MapReduce.WordCount

/-!
# Mappers that count keys

The four mappers write a line for each key that they find in a line of their input: a word, the
length of a word, a letter, or the word `letters`. The reducer then prints the number of each key,
in whatever order the lines come to it.

## Main definitions

* `asciicountMapper`, `lettercountMapper`, `wordlengthsMapper`: the functions of `mappers/`
* `Keyed func keys`: what `func` writes for a string is a line for each of its keys
* `keysOf`: the keys of a file

## Main results

* `keyed_mapper`, `keyed_asciicount`, `keyed_lettercount`, `keyed_wordlengths`: the four mappers
* `runMapperOnFds_eq`: a mapper goes through the lines
* `reducer_counts`: the reducer prints the numbers of the keys
-/

namespace SystemProgramming.MapReduce

open Ctype

/-! ## The mappers -/

/-- The loop of `asciicount.c` and of `lettercount.c`, with what is printed for a letter. -/
def letterLines (key : UInt8 → List UInt8) : List UInt8 → List UInt8
  | [] => []
  | c :: data => if isAlpha c then keyLine (key c) ++ letterLines key data else letterLines key data

/-- `mapper` of `asciicount.c`. -/
def asciicountMapper : List UInt8 → List UInt8 := letterLines fun c => [toLower c]

/-- `mapper` of `lettercount.c`. -/
def lettercountMapper : List UInt8 → List UInt8 :=
  letterLines fun _ => [108, 101, 116, 116, 101, 114, 115]

/-- The loop over the tokens in `wordlengths.c`. -/
def printLengths (str : List UInt8) : List UInt8 :=
  match h : strtok str with
  | none => []
  | some (datum, rest) =>
    have : rest.length < str.length := length_strtok h
    keyLine (decimal datum.length) ++ printLengths rest
termination_by str.length

/-- `mapper` of `wordlengths.c`. -/
def wordlengthsMapper (data : List UInt8) : List UInt8 :=
  printLengths (data.map fun c => if c = 10 then 32 else c)

/-! ## Their keys -/

/-- What is written for a string of one line is a line for each of its keys. -/
structure Keyed (func : List UInt8 → List UInt8) (keys : List UInt8 → List (List UInt8)) :
    Prop where
  func_eq : ∀ s, 10 ∉ s → func s = (keys s).flatMap keyLine
  plain : ∀ s, 0 ∉ s → 10 ∉ s → ∀ k ∈ keys s, PlainWord k

/-- The words of a string, with `';'` for `':'`. -/
def wordKeys (s : List UInt8) : List (List UInt8) :=
  (runs (· = 32) s).map fun word => word.map fun c => if c = 58 then 59 else c

/-- A key for each letter of a string. -/
def letterKeys (key : UInt8 → List UInt8) (s : List UInt8) : List (List UInt8) :=
  (s.filter isAlpha).map key

/-- The lengths of the words of a string. -/
def lengthKeys (s : List UInt8) : List (List UInt8) :=
  (runs (· = 32) s).map fun word => decimal word.length

variable {s str input : List UInt8} {k : List UInt8}

theorem keyed_mapper : Keyed mapper wordKeys where
  func_eq s hs := by
    have hblank : (fun c : UInt8 => decide (c = 32)) ∘ (fun c => if c = 58 then 59 else c) =
        fun c => decide (c = 32) := by
      funext c
      by_cases hc : c = 58
      · simp [hc]
      · simp [hc]
    rw [mapper, replaceChars_eq hs, printTokens_eq, runs_map, hblank, wordKeys]
  plain s hzero hs k hk c hc := by
    obtain ⟨word, hword, rfl⟩ := List.mem_map.mp hk
    obtain ⟨d, hd, rfl⟩ := List.mem_map.mp hc
    obtain ⟨hblank, hmem⟩ := of_mem_runs hword hd
    have hd32 : d ≠ 32 := of_decide_eq_false hblank
    have hd0 : d ≠ 0 := fun h => hzero (h ▸ hmem)
    have hd10 : d ≠ 10 := fun h => hs (h ▸ hmem)
    by_cases hcolon : d = 58
    · rw [if_pos hcolon]
      decide
    · rw [if_neg hcolon]
      exact ⟨hd0, hcolon, hd32, hd10⟩

theorem letterLines_eq (key : UInt8 → List UInt8) (s : List UInt8) :
    letterLines key s = (letterKeys key s).flatMap keyLine := by
  induction s with
  | nil => rfl
  | cons c s ih =>
    rw [letterLines, letterKeys, ih]
    by_cases hc : isAlpha c
    · rw [if_pos hc, List.filter_cons_of_pos hc]
      rfl
    · rw [if_neg hc, List.filter_cons_of_neg hc]
      rfl

theorem keyed_letterLines {key : UInt8 → List UInt8}
    (hkey : ∀ c, isAlpha c = true → PlainWord (key c)) :
    Keyed (letterLines key) (letterKeys key) where
  func_eq s _ := letterLines_eq key s
  plain s _ _ k hk := by
    obtain ⟨c, hc, rfl⟩ := List.mem_map.mp hk
    exact hkey c (List.of_mem_filter hc)

theorem ne_of_toNat_ne {c d : UInt8} (h : c.toNat ≠ d.toNat) : c ≠ d := fun heq => h (heq ▸ rfl)

theorem keyed_asciicount : Keyed asciicountMapper (letterKeys fun c => [toLower c]) := by
  apply keyed_letterLines
  intro c hc d hd
  rw [List.mem_singleton.mp hd]
  have hge : 97 ≤ (toLower c).toNat := by
    have h65 : (65 : UInt8).toNat = 65 := rfl
    have h90 : (90 : UInt8).toNat = 90 := rfl
    have h97 : (97 : UInt8).toNat = 97 := rfl
    have h32 : (32 : UInt8).toNat = 32 := rfl
    rw [isAlpha, Bool.or_eq_true] at hc
    rw [toLower]
    split_ifs with hupper
    · rw [isUpper, Bool.and_eq_true, decide_eq_true_eq, decide_eq_true_eq, UInt8.le_iff_toNat_le,
        UInt8.le_iff_toNat_le] at hupper
      rw [UInt8.toNat_add]
      omega
    · have hlower := hc.resolve_left hupper
      rw [isLower, Bool.and_eq_true, decide_eq_true_eq, decide_eq_true_eq, UInt8.le_iff_toNat_le,
        UInt8.le_iff_toNat_le] at hlower
      omega
  refine ⟨?_, ?_, ?_, ?_⟩
  all_goals
    apply ne_of_toNat_ne
    intro heq
    rw [heq] at hge
    exact absurd hge (by decide)

theorem keyed_lettercount :
    Keyed lettercountMapper (letterKeys fun _ => [108, 101, 116, 116, 101, 114, 115]) := by
  apply keyed_letterLines
  intro c _ d hd
  have hall : ∀ d ∈ ([108, 101, 116, 116, 101, 114, 115] : List UInt8),
      d ≠ 0 ∧ d ≠ 58 ∧ d ≠ 32 ∧ d ≠ 10 := by simp
  exact hall d hd

theorem printLengths_eq (str : List UInt8) :
    printLengths str =
      ((runs (· = 32) str).map fun word => decimal word.length).flatMap keyLine := by
  induction hlen : str.length using Nat.strong_induction_on generalizing str with
  | _ n ih =>
    rw [printLengths]
    rcases strtok_cases str with ⟨hnone, hruns⟩ | ⟨datum, rest, hsome, hruns⟩
    · rw [hruns]
      split
      · rfl
      · simp_all
    · rw [hruns, List.map_cons, List.flatMap_cons,
        ← ih rest.length (hlen ▸ length_strtok hsome) rest rfl]
      split
      · simp_all
      · simp_all

theorem keyed_wordlengths : Keyed wordlengthsMapper lengthKeys where
  func_eq s hs := by
    have hsame : s.map (fun c => if c = 10 then 32 else c) = s := by
      refine (List.map_congr_left fun c hc => ?_).trans (List.map_id s)
      have hne : c ≠ 10 := fun h => hs (h ▸ hc)
      exact if_neg hne
    rw [wordlengthsMapper, hsame, printLengths_eq, lengthKeys]
  plain s _ _ k hk c hc := by
    obtain ⟨word, -, rfl⟩ := List.mem_map.mp hk
    have hdigit := isDigit_iff.mp (isDigit_of_mem_decimal hc)
    refine ⟨?_, ?_, ?_, ?_⟩
    all_goals
      apply ne_of_toNat_ne
      intro heq
      rw [heq] at hdigit
      exact absurd hdigit (by decide)

/-! ## A file -/

/-- The string that a mapper is given for a line. -/
def lineText (line : List UInt8) : List UInt8 := (removeNewline line).takeWhile (· ≠ 0)

/-- The keys of a file. -/
def keysOf (keys : List UInt8 → List (List UInt8)) (data : List UInt8) : List (List UInt8) :=
  (lines data).flatMap fun line => keys (lineText line)

/-- A mapper goes through the lines. -/
theorem runMapperOnFds_eq (func : List UInt8 → List UInt8) (input : List UInt8) :
    runMapperOnFds func input = (lines input).flatMap fun line => func (lineText line) := by
  induction hlen : input.length using Nat.strong_induction_on generalizing input with
  | _ n ih =>
    rw [runMapperOnFds]
    rcases getline_cases input with ⟨hnone, rfl⟩ | ⟨line, rest, hsome, hlines, hlt⟩
    · split
      · rfl
      · simp_all
    · rw [hlines, List.flatMap_cons, ← ih rest.length (hlen ▸ hlt) rest rfl]
      split
      · simp_all
      · rename_i line' rest' heq
        obtain ⟨rfl, rfl⟩ := Prod.mk.inj (Option.some.inj (hsome.symm.trans heq))
        rfl

theorem notMem_lineText {line : List UInt8} (h : line ∈ lines str) :
    0 ∉ lineText line ∧ 10 ∉ lineText line := by
  refine ⟨fun hmem => by simpa using List.mem_takeWhile_imp hmem, fun hmem => ?_⟩
  apply notMem_chomp h
  rw [← removeNewline_eq]
  exact List.takeWhile_subset _ hmem

theorem Keyed.plain_of_mem {func : List UInt8 → List UInt8} {keys : List UInt8 → List (List UInt8)}
    (hk : Keyed func keys) (h : k ∈ keysOf keys str) : PlainWord k := by
  obtain ⟨line, hline, hk'⟩ := List.mem_flatMap.mp h
  obtain ⟨hzero, hnewline⟩ := notMem_lineText hline
  exact hk.plain _ hzero hnewline k hk'

/-- The lines that a mapper writes for a line. -/
theorem Keyed.lines_func {func : List UInt8 → List UInt8} {keys : List UInt8 → List (List UInt8)}
    (hk : Keyed func keys) (hzero : 0 ∉ s) (hnewline : 10 ∉ s) :
    lines (func s) = (keys s).map keyLine := by
  rw [hk.func_eq s hnewline]
  exact lines_keyLines (hk.plain s hzero hnewline)

/-! ## The counts -/

/-- **The numbers of the keys.** From lines for keys, in any order, the reducer prints a line for
each key, in the order of `strcmp`, with its number. -/
theorem reducer_counts {T : Type} (ops : TreeOps T) (laws : TreeLaws ops)
    {keys merged : List (List UInt8)} (hplain : ∀ k ∈ keys, PlainWord k)
    (hcount : ∀ k, keys.count k < 2 ^ 31) (hmerged : merged.Perm (keys.map keyLine)) :
    ∃ ks : List (List UInt8), ks.Pairwise (· < ·) ∧ (∀ k, k ∈ ks ↔ k ∈ keys) ∧
      runReducerOn ops reducer merged.flatten =
        some (ks.flatMap fun k => printDs k (decimal (keys.count k)), []) := by
  obtain ⟨later, rfl, hperm⟩ :=
    (congrFun (congrFun (List.eq_map_comp_perm keyLine) merged) keys).mpr hmerged
  have hplain' : ∀ k ∈ later, PlainWord k := fun k hk => hplain k (hperm.subset hk)
  have hnothing : Counts ops ops.null [] := fun k => by
    rw [laws.tfind_null, if_neg List.not_mem_nil]
  obtain ⟨ds, hrun, hcounts⟩ := run_reduceLine laws later hnothing hplain' fun k => by
    rw [List.nil_append, hperm.count_eq]
    exact hcount k
  rw [List.nil_append] at hcounts
  have hentry : ∀ e, e ∈ ops.twalk ds ↔
      e.key ∈ later ∧ e.value = decimal (keys.count e.key) := by
    intro e
    rw [laws.mem_twalk, hcounts, ← hperm.count_eq]
    split_ifs with hmem
    · rw [Option.some.injEq]
      exact ⟨fun h => ⟨hmem, (congrArg Entry.value h).symm⟩, fun h => by rw [← h.2]⟩
    · exact iff_of_false (by simp) fun h => hmem h.1
  have hinput : lines (later.map keyLine).flatten = later.map keyLine := by
    rw [← List.flatMap_def, lines_keyLines hplain']
  have hprint : datastoreIterate ops ds printDs = ((ops.twalk ds).map Entry.key).flatMap
      fun k => printDs k (decimal (keys.count k)) := by
    rw [datastoreIterate, List.flatMap_map]
    refine List.flatMap_congr fun e he => ?_
    rw [((hentry e).mp he).2]
  refine ⟨(ops.twalk ds).map Entry.key, List.pairwise_map.mpr (laws.sorted ds), fun k => ?_, ?_⟩
  · rw [List.mem_map, ← hperm.mem_iff]
    constructor
    · rintro ⟨e, he, rfl⟩
      exact ((hentry e).mp he).1
    · exact fun hk => ⟨⟨k, decimal (keys.count k)⟩, (hentry _).mpr ⟨hk, rfl⟩, rfl⟩
  · rw [runReducerOn, reduceLines_eq, hinput, hrun, ← hprint]
    rfl

end SystemProgramming.MapReduce
