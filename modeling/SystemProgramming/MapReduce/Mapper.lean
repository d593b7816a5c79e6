import SystemProgramming.Foundation.CStrings
import SystemProgramming.Foundation.Ctype
import SystemProgramming.Foundation.Lines
import SystemProgramming.MapReduce.Splitter

/-!
# The mappers of `mapreduce`

A mapper reads its portion of the file line by line and writes a line for each word. A string is
the list of its bytes, and a line that `getline` delivers is a string up to its first NUL.

The portions end where lines end, so the mappers together see the lines of the file.

## Main definitions

* `runMapperOnFds`: the loop of `core/mapper.c`
* `replaceChars`, `mapper`: the functions of `mappers/wordcount.c`
* `wordsOf`: the words of a file
* `keyLine`: what is written for a word

## Main results

* `lines_writePortion`: the lines of the portions are those of the file
* `runMapperOnFds_mapper`: a mapper writes a line for each word
-/

namespace SystemProgramming.MapReduce

/-! ## The program -/

/-- `run_mapper_on_fds`: what is written to `output`. -/
def runMapperOnFds (func : List UInt8 → List UInt8) (input : List UInt8) : List UInt8 :=
  match h : getline input with
  | none => []
  | some (line, rest) =>
    have : rest.length < input.length := length_getline h
    func ((removeNewline line).takeWhile (· ≠ 0)) ++ runMapperOnFds func rest
termination_by input.length

/-- `replace_chars`. -/
def replaceChars (str : List UInt8) : List UInt8 :=
  str.map fun c =>
    let c := if c = 58 then 59 else c
    if c = 10 then 32 else c

/-- `fprintf(output, "%s: 1\n", datum)`. -/
def keyLine (datum : List UInt8) : List UInt8 := datum ++ [58, 32, 49, 10]

/-- The loop of `mapper` over the tokens. -/
def printTokens (str : List UInt8) : List UInt8 :=
  match h : strtok str with
  | none => []
  | some (datum, rest) =>
    have : rest.length < str.length := length_strtok h
    keyLine datum ++ printTokens rest
termination_by str.length

/-- `mapper`: what is written to `output` for a line. -/
def mapper (data : List UInt8) : List UInt8 := printTokens (replaceChars data)

/-! ## What it is for -/

/-- A line without its newline, and without a carriage return before the newline. -/
def chomp (line : List UInt8) : List UInt8 :=
  match line.reverse with
  | 10 :: 13 :: before => before.reverse
  | 10 :: before => before.reverse
  | _ => line

/-- The words of a line: the maximal runs of characters that are no blanks, with `';'` for
`':'`. -/
def wordsOfLine (line : List UInt8) : List (List UInt8) :=
  (runs (· = 32) (chomp line)).map fun word => word.map fun c => if c = 58 then 59 else c

/-- The words of a file. -/
def wordsOf (data : List UInt8) : List (List UInt8) := (lines data).flatMap wordsOfLine

/-! ## The lines of the portions -/

section Portions

variable {data : List UInt8} {count k j : Nat}

theorem lines_take (h : LineBoundary data k) (hkj : k ≤ j) :
    lines (data.take j) = lines (data.take k) ++ lines (slice data k j) := by
  have hsplit : data.take j = data.take k ++ slice data k j := by
    rw [← slice_zero, ← slice_zero, slice_append (Nat.zero_le k) hkj]
  rw [hsplit]
  rcases h with rfl | rfl | ⟨i, rfl, hi⟩
  · rfl
  · -- nothing is behind the end of the data
    rw [slice, List.drop_eq_nil_of_le (List.length_take_le' j data), List.append_nil, lines,
      List.append_nil]
  · apply lines_append
    rw [List.getLast?_take, if_neg i.succ_ne_zero, Nat.add_sub_cancel, hi]
    rfl

/-- **The lines of the portions** are those of the file. -/
theorem lines_writePortion (hcount : 1 ≤ count) (hlen : data.length * count < 2 ^ 64) :
    (List.range count).flatMap (fun i => lines (writePortion data count i)) = lines data := by
  have hprefixes : ∀ k ≤ count, (List.range k).flatMap (fun i => lines (writePortion data count i)) =
      lines (data.take (portionStart data count k)) := by
    intro k
    induction k with
    | zero => exact fun _ => by rw [portionStart, if_pos rfl]; rfl
    | succ k ih =>
      intro hk
      rw [List.range_succ, List.flatMap_append, ih (by omega), List.flatMap_singleton,
        writePortion_eq_slice hlen hk]
      exact (lines_take (portionStart_boundary k) (portionStart_mono k.le_succ)).symm
  have hend : portionStart data count count = data.length := by
    rw [portionStart, if_neg (by omega), if_pos (le_refl count)]
  rw [hprefixes count (le_refl count), hend, List.take_length]

end Portions

/-! ## What a mapper writes -/

section Words

variable {line str : List UInt8}

theorem removeNewline_eq (line : List UInt8) : removeNewline line = chomp line := by
  obtain ⟨r, rfl⟩ : ∃ r : List UInt8, line = r.reverse := ⟨line.reverse, by simp⟩
  rw [removeNewline, chomp, List.reverse_reverse]
  rcases r with _ | ⟨c, _ | ⟨d, r⟩⟩
  · rfl
  · by_cases hc : c = 10
    · simp [hc]
    · simp [hc]
  · by_cases hc : c = 10
    · by_cases hd : d = 13
      · simp [hc, hd]
      · simp [hc, hd]
    · simp [hc]

/-- Nothing is left of the newline. -/
theorem notMem_chomp (h : line ∈ lines str) : 10 ∉ chomp line := by
  obtain ⟨a, ha, rfl | rfl⟩ := line_cases h
  · rw [← List.mem_reverse] at ha
    rw [chomp, List.reverse_append, List.reverse_singleton, List.singleton_append]
    cases hr : a.reverse with
    | nil => exact List.not_mem_nil
    | cons c r =>
      rw [hr, List.mem_cons, not_or] at ha
      by_cases hc : c = 13
      · simpa [hc] using ha.2
      · simpa [hc, and_comm] using ha
  · rw [chomp]
    split
    · simp_all
    · simp_all
    · exact ha

theorem replaceChars_eq (h : 10 ∉ str) :
    replaceChars str = str.map fun c => if c = 58 then 59 else c := by
  refine List.map_congr_left fun c hc => ?_
  have hne : c ≠ 10 := fun heq => h (heq ▸ hc)
  by_cases h58 : c = 58
  · simp [h58]
  · simp [h58, hne]

theorem printTokens_eq (str : List UInt8) : printTokens str = (runs (· = 32) str).flatMap keyLine := by
  induction hlen : str.length using Nat.strong_induction_on generalizing str with
  | _ n ih =>
    rw [printTokens]
    rcases strtok_cases str with ⟨hnone, hruns⟩ | ⟨datum, rest, hsome, hruns⟩
    · rw [hruns]
      split
      · rfl
      · simp_all
    · rw [hruns, List.flatMap_cons, ← ih rest.length (hlen ▸ length_strtok hsome) rest rfl]
      split
      · simp_all
      · simp_all

/-- **`mapper`** writes a line for each word. -/
theorem mapper_line (h : line ∈ lines str) : mapper (chomp line) = (wordsOfLine line).flatMap keyLine := by
  have hblank : (fun c : UInt8 => decide (c = 32)) ∘ (fun c => if c = 58 then 59 else c) =
      fun c => decide (c = 32) := by
    funext c
    by_cases hc : c = 58
    · simp [hc]
    · simp [hc]
  rw [mapper, replaceChars_eq (notMem_chomp h), printTokens_eq, runs_map, hblank, wordsOfLine]

theorem chomp_subset (line : List UInt8) : chomp line ⊆ line := by
  intro c hc
  rw [← List.mem_reverse]
  rw [chomp] at hc
  split at hc <;> simp_all

/-- **A mapper** writes a line for each word. -/
theorem runMapperOnFds_mapper (h : 0 ∉ str) :
    runMapperOnFds mapper str = (wordsOf str).flatMap keyLine := by
  have hloop : ∀ ls : List (List UInt8), (∀ line ∈ ls, line ∈ lines str) → ∀ input,
      lines input = ls → runMapperOnFds mapper input = (ls.flatMap wordsOfLine).flatMap keyLine := by
    intro ls
    induction ls with
    | nil =>
      intro _ input hls
      rw [runMapperOnFds]
      rcases getline_cases input with ⟨hnone, -⟩ | ⟨line, rest, -, heq, -⟩
      · split
        · rfl
        · simp_all
      · rw [hls] at heq
        cases heq
    | cons l ls ih =>
      intro hmem input hls
      rcases getline_cases input with ⟨-, rfl⟩ | ⟨line, rest, hsome, heq, -⟩
      · cases hls
      · obtain ⟨rfl, rfl⟩ := List.cons.inj (hls.symm.trans heq)
        have hline := hmem l List.mem_cons_self
        have hnul : 0 ∉ removeNewline l := by
          intro hzero
          rw [removeNewline_eq] at hzero
          apply h
          rw [← flatten_lines str]
          exact List.mem_flatten.mpr ⟨l, hline, chomp_subset l hzero⟩
        have hstring : (removeNewline l).takeWhile (· ≠ 0) = removeNewline l := by
          rw [List.takeWhile_eq_self_iff]
          exact fun c hc => decide_eq_true fun heq => hnul (heq ▸ hc)
        have hrest := ih (fun line hl => hmem line (List.mem_cons_of_mem _ hl)) rest rfl
        rw [List.flatMap_cons, List.flatMap_append, ← hrest, ← mapper_line hline, ← removeNewline_eq,
          ← hstring]
        conv_lhs => rw [runMapperOnFds]
        split
        · simp_all
        · simp_all
  exact hloop (lines str) (fun _ => id) str rfl

end Words

end SystemProgramming.MapReduce
