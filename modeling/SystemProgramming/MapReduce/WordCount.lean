import Mathlib.Data.List.Perm.Basic
import SystemProgramming.MapReduce.Mapper
import SystemProgramming.MapReduce.Reducer

/-!
# Counting words

The splitter, the word-count mappers and the summing reducer together count the words of a file,
for every number of mappers and every order in which their lines come to the reducer.

A line of a mapper is the word and `": 1"`. The word has neither a colon nor a blank, so the reducer
finds it again; and a sum of ones does not depend on their order.

## Main definitions

* `PlainWord`: a word that the reducer finds again
* `Counts`: the datastore holds the numbers of the words seen so far

## Main results

* `splitKeyValue_keyLine`: the reducer finds the word again
* `Counts.reduceLine`, `run_reduceLine`: one line, and all of them
* `word_count`: the output is one line for each word, in order, with its number
-/

namespace SystemProgramming.MapReduce

/-! ## The words -/

/-- A word without NULs, colons, blanks and newlines. -/
def PlainWord (word : List UInt8) : Prop := ∀ c ∈ word, c ≠ 0 ∧ c ≠ 58 ∧ c ≠ 32 ∧ c ≠ 10

section Words

variable {data word : List UInt8}

theorem plain_of_mem (hnul : 0 ∉ data) (h : word ∈ wordsOf data) : PlainWord word := by
  obtain ⟨line, hline, hword⟩ := List.mem_flatMap.mp h
  obtain ⟨w, hw, rfl⟩ := List.mem_map.mp hword
  intro c hc
  obtain ⟨d, hd, rfl⟩ := List.mem_map.mp hc
  obtain ⟨hblank, hmem⟩ := of_mem_runs hw hd
  have hnewline : d ≠ 10 := fun heq => notMem_chomp hline (heq ▸ hmem)
  have hzero : d ≠ 0 := by
    rintro rfl
    apply hnul
    rw [← flatten_lines data]
    exact List.mem_flatten.mpr ⟨line, hline, chomp_subset line hmem⟩
  have hblank' : d ≠ 32 := of_decide_eq_false hblank
  by_cases hcolon : d = 58
  · rw [if_pos hcolon]
    decide
  · rw [if_neg hcolon]
    exact ⟨hzero, hcolon, hblank', hnewline⟩

/-- The lines that a mapper writes. -/
theorem lines_keyLines {ws : List (List UInt8)} (h : ∀ w ∈ ws, PlainWord w) :
    lines (ws.flatMap keyLine) = ws.map keyLine := by
  rw [List.flatMap_def]
  apply lines_flatten
  intro l hl
  obtain ⟨w, hw, rfl⟩ := List.mem_map.mp hl
  refine ⟨w ++ [58, 32, 49], ?_, by simp [keyLine]⟩
  rw [List.mem_append, not_or]
  exact ⟨fun hmem => (h w hw 10 hmem).2.2.2 rfl, by decide⟩

/-- **The reducer finds the word again.** -/
theorem splitKeyValue_keyLine (h : PlainWord word) :
    splitKeyValue (keyLine word) = some (word, [49]) := by
  have hsplit : strstr (keyLine word) [58, 32] = some word.length :=
    strstr_eq_of_notMem (t := [32]) (b := [49, 10]) fun hmem => (h 58 hmem).2.1 rfl
  have hnewline : strstr (keyLine word) [10] = some (word.length + 3) := by
    have hnone : 10 ∉ word ++ [58, 32, 49] := by
      rw [List.mem_append, not_or]
      exact ⟨fun hmem => (h 10 hmem).2.2.2 rfl, by decide⟩
    have hfound := strstr_eq_of_notMem (t := []) (b := []) hnone
    have hline : word ++ [58, 32, 49] ++ ([10] ++ []) = keyLine word := by simp [keyLine]
    rwa [hline, List.length_append] at hfound
  have hblock : ((keyLine word ++ [0]).set word.length 0).set (word.length + 3) 0 =
      word ++ [0, 32, 49, 0, 0] := by
    simp [keyLine]
  have hkey : (word ++ [0, 32, 49, 0, 0]).takeWhile (· ≠ 0) = word := by
    rw [List.takeWhile_append_of_pos fun c hc => decide_eq_true (h c hc).1]
    simp
  have hvalue : ((word ++ [0, 32, 49, 0, 0]).drop (word.length + 2)).takeWhile (· ≠ 0) = [49] := by
    rw [List.drop_length_add_append]
    decide
  simp only [splitKeyValue, hsplit, hnewline, Option.bind_eq_bind, Option.bind_some, hblock, hkey,
    hvalue]

end Words

/-! ## The counts -/

section Counts

variable {T : Type} {ops : TreeOps T} {ds : T} {ws : List (List UInt8)} {word : List UInt8}

/-- The datastore holds the number of occurrences of each word. -/
def Counts (ops : TreeOps T) (ds : T) (ws : List (List UInt8)) : Prop :=
  ∀ k, ops.tfind ds k = if k ∈ ws then some ⟨k, decimal (ws.count k)⟩ else none

/-- One more occurrence. -/
theorem reducer_one {n : Nat} (h : n + 1 < 2 ^ 31) :
    reducer (decimal n) [49] = some (decimal (n + 1)) := by
  have hone : atoi [49] = 1 := by decide
  rw [reducer, atoi_decimal, hone, if_pos ⟨by omega, by omega⟩]
  exact congrArg some (formatInt_natCast (n + 1))

/-- **A line for one word** adds one to its number. -/
theorem Counts.reduceLine (laws : TreeLaws ops) (h : Counts ops ds ws) (hplain : PlainWord word)
    (hcount : (ws ++ [word]).count word < 2 ^ 31) :
    ∃ ds', MapReduce.reduceLine ops reducer (ds, []) (keyLine word) = some (ds', []) ∧
      Counts ops ds' (ws ++ [word]) := by
  have hstring : (keyLine word).takeWhile (· ≠ 0) = keyLine word := by
    rw [List.takeWhile_eq_self_iff]
    intro c hc
    rcases List.mem_append.mp hc with hc | hc
    · exact decide_eq_true (hplain c hc).1
    · have hall : ∀ c ∈ ([58, 32, 49, 10] : List UInt8), c ≠ 0 := by simp
      exact decide_eq_true (hall c hc)
  rw [List.count_append, List.count_singleton_self] at hcount
  by_cases hmem : word ∈ ws
  · -- the word was seen before
    have hfind : ops.tfind ds word = some ⟨word, decimal (ws.count word)⟩ := by
      rw [h, if_pos hmem]
    refine ⟨ops.writeValue ds word (decimal (ws.count word + 1)), ?_, fun k => ?_⟩
    · simp only [MapReduce.reduceLine, hstring, splitKeyValue_keyLine hplain, datastoreGet, hfind,
        Option.map_some, reducer_one hcount, Option.bind_eq_bind, Option.bind_some, datastoreUpdate,
        Option.isSome_some, if_true]
    · rw [laws.tfind_writeValue, hfind, List.count_append]
      by_cases hk : k = word
      · subst hk
        simp
      · rw [if_neg hk, h k]
        simp [hk, Ne.symm hk]
  · -- the word is new
    have hfind : ops.tfind ds word = none := by rw [h, if_neg hmem]
    have hone : decimal 1 = [49] := by simp [decimal]
    refine ⟨ops.tsearch ds ⟨word, [49]⟩, ?_, fun k => ?_⟩
    · simp only [MapReduce.reduceLine, hstring, splitKeyValue_keyLine hplain, datastoreGet, hfind,
        Option.map_none, datastorePut, Option.isNone_none, if_true]
    · rw [laws.tfind_tsearch ds ⟨word, [49]⟩ k hfind, List.count_append]
      by_cases hk : k = word
      · subst hk
        simp [List.count_eq_zero_of_not_mem hmem, hone]
      · rw [if_neg hk, h k]
        simp [hk, Ne.symm hk]

/-- **Lines for words** add to their numbers. -/
theorem run_reduceLine (laws : TreeLaws ops) (later : List (List UInt8)) (h : Counts ops ds ws)
    (hplain : ∀ w ∈ later, PlainWord w) (hcount : ∀ w, (ws ++ later).count w < 2 ^ 31) :
    ∃ ds', run (reduceLine ops reducer) (ds, []) (later.map keyLine) = some (ds', []) ∧
      Counts ops ds' (ws ++ later) := by
  induction later generalizing ds ws with
  | nil => exact ⟨ds, rfl, by rwa [List.append_nil]⟩
  | cons w later ih =>
    have hfirst : (ws ++ [w]).count w < 2 ^ 31 := by
      refine lt_of_le_of_lt ?_ (hcount w)
      rw [List.count_append, List.count_append, List.count_singleton_self, List.count_cons_self]
      omega
    obtain ⟨ds₁, hline, hcounts⟩ := h.reduceLine laws (hplain w List.mem_cons_self) hfirst
    have hsplit : ws ++ w :: later = ws ++ [w] ++ later := by simp
    obtain ⟨ds', hrun, hcounts'⟩ := ih hcounts (fun w hw => hplain w (List.mem_cons_of_mem _ hw))
      (hsplit ▸ hcount)
    refine ⟨ds', ?_, hsplit ▸ hcounts'⟩
    rw [List.map_cons, run_cons, hline]
    exact hrun

end Counts

/-! ## All together -/

/-- **Words are counted**, for every number of mappers and every order in which their lines are
merged: the output is a line for each word, in the order of `strcmp`, with the number of its
occurrences in the file, and nothing is written to `stderr`. -/
theorem word_count {T : Type} (ops : TreeOps T) (laws : TreeLaws ops) (data : List UInt8) (n : Nat)
    (hn : 1 ≤ n) (hlen : data.length * n < 2 ^ 64) (hnul : 0 ∉ data)
    (hcount : ∀ w, (wordsOf data).count w < 2 ^ 31) (merged : List (List UInt8))
    (hmerged : Merged ((List.range n).map fun i =>
      lines (runMapperOnFds mapper (writePortion data n i))) merged) :
    ∃ ws : List (List UInt8), ws.Pairwise (· < ·) ∧ (∀ w, w ∈ ws ↔ w ∈ wordsOf data) ∧
      runReducerOn ops reducer merged.flatten =
        some (ws.flatMap fun w => printDs w (decimal ((wordsOf data).count w)), []) := by
  -- every line is written for a word, and the words are those of the file
  have hlines : ∀ i ∈ List.range n, lines (runMapperOnFds mapper (writePortion data n i)) =
      (wordsOf (writePortion data n i)).map keyLine := by
    intro i hi
    have hsubset : writePortion data n i ⊆ data := by
      rw [writePortion_eq_slice hlen (List.mem_range.mp hi)]
      exact fun c hc => List.take_subset _ _ (List.drop_subset _ _ hc)
    have hnul' : 0 ∉ writePortion data n i := fun h => hnul (hsubset h)
    rw [runMapperOnFds_mapper hnul', lines_keyLines fun w hw => plain_of_mem hnul' hw]
  have hwords : (List.range n).flatMap (fun i => wordsOf (writePortion data n i)) =
      wordsOf data := by
    rw [wordsOf, ← lines_writePortion hn hlen, List.flatMap_assoc]
    rfl
  have himages := hmerged.perm
  rw [List.map_congr_left hlines, ← List.flatMap_def, ← List.map_flatMap, hwords] at himages
  obtain ⟨later, rfl, hperm⟩ :=
    (congrFun (congrFun (List.eq_map_comp_perm keyLine) merged) (wordsOf data)).mpr himages
  have hplain : ∀ w ∈ later, PlainWord w := fun w hw => plain_of_mem hnul (hperm.subset hw)
  have hnothing : Counts ops ops.null [] := fun k => by
    rw [laws.tfind_null, if_neg List.not_mem_nil]
  obtain ⟨ds, hrun, hcounts⟩ := run_reduceLine laws later hnothing hplain fun w => by
    rw [List.nil_append, hperm.count_eq]
    exact hcount w
  rw [List.nil_append] at hcounts
  -- the reducer's input has these lines, and the datastore their counts
  have hinput : lines (later.map keyLine).flatten = later.map keyLine := by
    rw [← List.flatMap_def, lines_keyLines hplain]
  have hentry : ∀ e, e ∈ ops.twalk ds ↔
      e.key ∈ later ∧ e.value = decimal ((wordsOf data).count e.key) := by
    intro e
    rw [laws.mem_twalk, hcounts, ← hperm.count_eq]
    split_ifs with hmem
    · rw [Option.some.injEq]
      exact ⟨fun h => ⟨hmem, (congrArg Entry.value h).symm⟩, fun h => by rw [← h.2]⟩
    · exact ⟨nofun, fun h => absurd h.1 hmem⟩
  refine ⟨(ops.twalk ds).map Entry.key, List.pairwise_map.mpr (laws.sorted ds), fun w => ?_, ?_⟩
  · rw [List.mem_map, ← hperm.mem_iff]
    constructor
    · rintro ⟨e, he, rfl⟩
      exact ((hentry e).mp he).1
    · exact fun hw => ⟨⟨w, decimal ((wordsOf data).count w)⟩, (hentry _).mpr ⟨hw, rfl⟩, rfl⟩
  · rw [runReducerOn, reduceLines_eq, hinput, hrun]
    have hprint : datastoreIterate ops ds printDs = ((ops.twalk ds).map Entry.key).flatMap
        fun w => printDs w (decimal ((wordsOf data).count w)) := by
      rw [datastoreIterate, List.flatMap_map]
      refine List.flatMap_congr fun e he => ?_
      rw [((hentry e).mp he).2]
    rw [← hprint]
    rfl

/-- The lines `"b a"` and `"a:"`, with two mappers. -/
theorem word_count_two :
    ∃ ws : List (List UInt8), ws.Pairwise (· < ·) ∧
      (∀ w, w ∈ ws ↔ w ∈ wordsOf [98, 32, 97, 13, 10, 97, 58, 10]) ∧
      runReducerOn sortedTree reducer ((List.range 2).map fun i => lines
        (runMapperOnFds mapper (writePortion [98, 32, 97, 13, 10, 97, 58, 10] 2 i))).flatten.flatten =
        some (ws.flatMap fun w =>
          printDs w (decimal ((wordsOf [98, 32, 97, 13, 10, 97, 58, 10]).count w)), []) :=
  word_count sortedTree sortedTree_laws [98, 32, 97, 13, 10, 97, 58, 10] 2 (by decide) (by decide)
    (by simp) (fun _ => List.count_le_length.trans_lt (by decide)) _ (Merged.flatten _)

end SystemProgramming.MapReduce
