import Mathlib.Data.List.TakeWhile
import Mathlib.Tactic

/-!
# Lines of a stream

A line ends with its newline; only the last one may lack it. Programs that write to one stream,
line by line, are merged: the stream has the lines of all of them, those of one program in their
order.

## Main definitions

* `getline`: the next line, as the C library reads it
* `removeNewline`, `lineString`: a line without its end, and as a string
* `lines s`: the lines of `s`
* `Merged streams s`: the elements of `s` are those of the streams, in the order of each stream
* `contributions i log`: what `i` has written to a log

## Main results

* `getline_cases`: reading to the end goes through the lines
* `lines_append`: where a line ends, the lines before and behind are apart
* `Merged.perm`: nothing is lost and nothing is added
* `perm_contributions`: a log is made up of what the writers have written
-/

namespace SystemProgramming

/-! ## Lines -/

section Lines

variable {a rest s : List UInt8}

/-- `getline`: the next line with its newline, and what is behind it. -/
def getline (input : List UInt8) : Option (List UInt8 × List UInt8) :=
  if input = [] then none
  else
    let behind := input.dropWhile (· ≠ 10)
    some (input.takeWhile (· ≠ 10) ++ behind.take 1, behind.drop 1)

/-- A line without its newline, and without a carriage return before the newline. -/
def removeNewline (line : List UInt8) : List UInt8 :=
  if line.getLast? = some 10 then
    let line := line.dropLast
    if line.getLast? = some 13 then line.dropLast else line
  else line

/-- A line as a string, without the newline of `getline`. -/
def lineString (line : List UInt8) : List UInt8 :=
  let lineptr := if line.getLast? = some 10 then line.dropLast else line
  lineptr.takeWhile (· ≠ 0)

/-- The lines, with their newlines. -/
def lines : List UInt8 → List (List UInt8)
  | [] => []
  | c :: s =>
    if c = 10 then [10] :: lines s
    else
      match lines s with
      | [] => [[c]]
      | line :: later => (c :: line) :: later

theorem lines_line (h : 10 ∉ a) : lines (a ++ 10 :: rest) = (a ++ [10]) :: lines rest := by
  induction a with
  | nil => rw [List.nil_append, lines, if_pos rfl, List.nil_append]
  | cons c a ih =>
    rw [List.mem_cons, not_or] at h
    rw [List.cons_append, lines, if_neg (Ne.symm h.1), ih h.2]
    rfl

/-- A last line without a newline. -/
theorem lines_of_notMem (hne : a ≠ []) (h : 10 ∉ a) : lines a = [a] := by
  induction a with
  | nil => exact absurd rfl hne
  | cons c a ih =>
    rw [List.mem_cons, not_or] at h
    rw [lines, if_neg (Ne.symm h.1)]
    cases a with
    | nil => rfl
    | cons d a => rw [ih (List.cons_ne_nil d a) h.2]

theorem flatten_lines (s : List UInt8) : (lines s).flatten = s := by
  induction s with
  | nil => rfl
  | cons c s ih =>
    rw [lines]
    split_ifs with hc
    · rw [List.flatten_cons, ih, hc]
      rfl
    · cases hlines : lines s with
      | nil =>
        rw [hlines, List.flatten_nil] at ih
        rw [← ih]
        rfl
      | cons line later =>
        rw [hlines] at ih
        rw [← ih]
        rfl

/-- A list with a newline has a first line. -/
theorem exists_line (s : List UInt8) : s = [] ∨ (s ≠ [] ∧ 10 ∉ s) ∨
    ∃ a rest, s = a ++ 10 :: rest ∧ 10 ∉ a := by
  by_cases hmem : 10 ∈ s
  · exact Or.inr (Or.inr (List.eq_append_cons_of_mem hmem))
  · by_cases hne : s = []
    · exact Or.inl hne
    · exact Or.inr (Or.inl ⟨hne, hmem⟩)

/-- Only the last byte of a line is a newline. -/
theorem line_cases {line : List UInt8} (h : line ∈ lines s) :
    ∃ a, 10 ∉ a ∧ (line = a ++ [10] ∨ line = a) := by
  induction hlen : s.length using Nat.strong_induction_on generalizing s with
  | _ n ih =>
    rcases exists_line s with rfl | ⟨hne, hmem⟩ | ⟨a, rest, rfl, ha⟩
    · exact absurd h List.not_mem_nil
    · rw [lines_of_notMem hne hmem, List.mem_singleton] at h
      exact ⟨s, hmem, Or.inr h⟩
    · rw [lines_line ha, List.mem_cons] at h
      rcases h with rfl | h
      · exact ⟨a, ha, Or.inl rfl⟩
      · refine ih rest.length ?_ h rfl
        rw [List.length_append, List.length_cons] at hlen
        omega

/-- **Where a line ends**, the lines before and behind are apart. -/
theorem lines_append (h : s.getLast? = some 10) (rest : List UInt8) :
    lines (s ++ rest) = lines s ++ lines rest := by
  induction s with
  | nil => cases h
  | cons c s ih =>
    rw [List.cons_append, lines, lines]
    by_cases hs : s = []
    · obtain rfl : c = 10 := by simpa [hs] using h
      rw [hs]
      rfl
    · have hlast : s.getLast? = some 10 := by
        rwa [List.getLast?_cons_of_ne_nil hs] at h
      rw [ih hlast]
      split_ifs with hc
      · rfl
      · cases hlines : lines s with
        | nil =>
          have hflat := flatten_lines s
          rw [hlines] at hflat
          exact absurd hflat.symm hs
        | cons line later => rfl

/-- Lines that are written one after the other. -/
theorem lines_flatten {ls : List (List UInt8)} (h : ∀ l ∈ ls, ∃ a, 10 ∉ a ∧ l = a ++ [10]) :
    lines ls.flatten = ls := by
  induction ls with
  | nil => rfl
  | cons l ls ih =>
    obtain ⟨a, ha, rfl⟩ := h l List.mem_cons_self
    rw [List.flatten_cons, List.append_assoc, List.singleton_append, lines_line ha,
      ih fun l hl => h l (List.mem_cons_of_mem _ hl)]

/-- **`getline`** reads the lines one by one. -/
theorem getline_cases (input : List UInt8) : getline input = none ∧ input = [] ∨
    ∃ line rest, getline input = some (line, rest) ∧ lines input = line :: lines rest ∧
      rest.length < input.length := by
  have hall : ∀ a : List UInt8, 10 ∉ a → ∀ c ∈ a, decide (c ≠ 10) = true := fun a ha c hc =>
    decide_eq_true fun heq => ha (heq ▸ hc)
  rcases exists_line input with rfl | ⟨hne, hmem⟩ | ⟨a, rest, rfl, ha⟩
  · exact Or.inl ⟨rfl, rfl⟩
  · refine Or.inr ⟨input, [], ?_, ?_, List.length_pos_of_ne_nil hne⟩
    · have htake : input.takeWhile (· ≠ 10) = input := List.takeWhile_eq_self_iff.mpr (hall _ hmem)
      have hdrop : input.dropWhile (· ≠ 10) = [] := List.dropWhile_eq_nil_iff.mpr (hall _ hmem)
      rw [getline, if_neg hne]
      simp only [htake, hdrop, List.take_nil, List.append_nil, List.drop_nil]
    · exact lines_of_notMem hne hmem
  · refine Or.inr ⟨a ++ [10], rest, ?_, lines_line ha, ?_⟩
    · have htake : (a ++ 10 :: rest).takeWhile (· ≠ 10) = a := by
        rw [List.takeWhile_append_of_pos (hall _ ha), List.takeWhile_cons_of_neg (by simp),
          List.append_nil]
      have hdrop : (a ++ 10 :: rest).dropWhile (· ≠ 10) = 10 :: rest := by
        rw [List.dropWhile_append_of_pos (hall _ ha), List.dropWhile_cons_of_neg (by simp)]
      rw [getline, if_neg (by simp)]
      simp only [htake, hdrop]
      rfl
    · rw [List.length_append, List.length_cons]
      omega

/-- `getline` at a line that has its newline. -/
theorem getline_line (h : 10 ∉ a) : getline (a ++ 10 :: rest) = some (a ++ [10], rest) := by
  rcases getline_cases (a ++ 10 :: rest) with ⟨-, hnil⟩ | ⟨line, rest', heq, hlines, -⟩
  · simp at hnil
  · obtain ⟨hline, hrest⟩ := List.cons.inj ((lines_line h).symm.trans hlines)
    rw [heq, hline, ← flatten_lines rest, hrest, flatten_lines]

/-- `getline` on what is there already, when more of the stream is to come. -/
theorem lines_of_getline {input line more : List UInt8} (h : getline input = some (line, rest))
    (hmore : 10 ∈ input ∨ more = []) : lines (input ++ more) = line :: lines (rest ++ more) := by
  by_cases hmem : 10 ∈ input
  · obtain ⟨a, rest', rfl, ha⟩ := List.eq_append_cons_of_mem hmem
    rw [getline_line ha, Option.some.injEq, Prod.mk.injEq] at h
    rw [← h.1, ← h.2, List.append_assoc, List.cons_append, lines_line ha]
  · rw [hmore.resolve_left hmem, List.append_nil, List.append_nil]
    rcases getline_cases input with ⟨hnone, -⟩ | ⟨_, _, heq, hlines, -⟩
    · rw [hnone] at h
      cases h
    · obtain ⟨rfl, rfl⟩ := Prod.mk.inj (Option.some.inj (heq.symm.trans h))
      exact hlines

theorem length_getline {input line : List UInt8} (h : getline input = some (line, rest)) :
    rest.length < input.length := by
  rcases getline_cases input with ⟨hnone, -⟩ | ⟨_, _, heq, -, hlt⟩
  · rw [hnone] at h
    cases h
  · obtain ⟨rfl, rfl⟩ := Prod.mk.inj (Option.some.inj (heq.symm.trans h))
    exact hlt

end Lines

/-! ## Merged streams -/

section Merging

variable {α : Type*}

/-- The next element comes from any of the streams. -/
inductive Merged : List (List α) → List α → Prop
  | done {streams} (h : ∀ s ∈ streams, s = []) : Merged streams []
  | next {streams : List (List α)} {merged x s} (i : Nat) (hi : streams[i]? = some (x :: s))
      (h : Merged (streams.set i s) merged) : Merged streams (x :: merged)

/-- Taking an element off a stream. -/
theorem flatten_set_perm {streams : List (List α)} {i : Nat} {x : α} {s : List α}
    (hi : streams[i]? = some (x :: s)) :
    List.Perm (x :: (streams.set i s).flatten) streams.flatten := by
  induction streams generalizing i with
  | nil => cases hi
  | cons first later ih =>
    cases i with
    | zero =>
      obtain rfl : first = x :: s := by simpa using hi
      exact List.Perm.refl _
    | succ i =>
      rw [List.set_cons_succ, List.flatten_cons, List.flatten_cons]
      exact List.perm_middle.symm.trans ((ih hi).append_left first)

/-- **A merged stream** has the elements of all streams. -/
theorem Merged.perm {streams : List (List α)} {merged : List α} (h : Merged streams merged) :
    merged.Perm streams.flatten := by
  induction h with
  | done h =>
    rw [List.flatten_eq_nil_iff.mpr h]
  | next i hi _ ih => exact (ih.cons _).trans (flatten_set_perm hi)

theorem Merged.cons_nil {streams : List (List α)} {merged : List α} (h : Merged streams merged) :
    Merged ([] :: streams) merged := by
  induction h with
  | done h => exact .done (List.forall_mem_cons.mpr ⟨rfl, h⟩)
  | next i hi _ ih => exact .next (i + 1) hi ih

/-- The streams may come one after the other. -/
theorem Merged.flatten (streams : List (List α)) : Merged streams streams.flatten := by
  induction streams with
  | nil => exact .done fun _ h => nomatch h
  | cons s later ih =>
    induction s with
    | nil => exact ih.cons_nil
    | cons x s ihs => exact .next 0 rfl ihs

end Merging

/-! ## Logs of several writers -/

section Logs

variable {α : Type*} {n : Nat} {i j : Fin n} {x : α} {log : List (Fin n × α)}

/-- What `i` has written, in the order of the log. -/
def contributions (i : Fin n) (log : List (Fin n × α)) : List α :=
  (log.filter (·.1 = i)).map Prod.snd

theorem contributions_snoc_self :
    contributions i (log ++ [(i, x)]) = contributions i log ++ [x] := by
  simp [contributions]

theorem contributions_snoc_of_ne (h : j ≠ i) :
    contributions j (log ++ [(i, x)]) = contributions j log := by
  simp [contributions, h.symm]

/-- One of the lists has an element more. -/
theorem flatMap_cons_perm {ι : Type*} {f g : ι → List α} {i : ι} {l : List ι} (hl : l.Nodup)
    (hi : i ∈ l) (hself : g i = x :: f i) (hother : ∀ j ≠ i, g j = f j) :
    (l.flatMap g).Perm (x :: l.flatMap f) := by
  obtain ⟨before, behind, rfl⟩ := List.append_of_mem hi
  have hni : i ∉ before ∧ i ∉ behind := by
    rw [List.nodup_append, List.nodup_cons] at hl
    exact ⟨fun h => hl.2.2 i h i List.mem_cons_self rfl, hl.2.1.1⟩
  have hsame : ∀ l' : List ι, i ∉ l' → l'.flatMap g = l'.flatMap f := fun l' hl' =>
    List.flatMap_congr fun j hj => hother j fun h => hl' (h ▸ hj)
  rw [List.flatMap_append, List.flatMap_append, List.flatMap_cons, List.flatMap_cons, hself,
    hsame before hni.1, hsame behind hni.2, List.cons_append]
  exact List.perm_middle

/-- **A log** is made up of what the writers have written. -/
theorem perm_contributions (log : List (Fin n × α)) :
    (log.map Prod.snd).Perm ((List.finRange n).flatMap fun i => contributions i log) := by
  induction log with
  | nil => simp [contributions]
  | cons entry log ih =>
    obtain ⟨i, x⟩ := entry
    refine (ih.cons x).trans (List.Perm.symm ?_)
    apply flatMap_cons_perm (List.nodup_finRange n) (List.mem_finRange i)
    · simp [contributions]
    · intro j hj
      simp [contributions, hj.symm]

end Logs

end SystemProgramming
