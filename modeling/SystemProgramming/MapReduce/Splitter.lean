import SystemProgramming.Foundation.Chunks

/-!
# The splitter of `mapreduce/splitter.c`

The splitter cuts a file into `count` portions of about the same size. Each portion is written by
a process of its own, which finds both ends of it: an even share of the bytes, and from there on
to the next line. Pointers into `data` are offsets, and `count` and `index` are nonnegative, so
`size_t` is their type in the arithmetic.

The end of one portion and the start of the next come from the same offset, and the search for
the next line is monotone. So the portions are slices between increasing offsets.

## Main definitions

* `getSubrange`, `nextLine`, `writePortion`: the functions of the source
* `LineBoundary data k`: offset `k` cuts no line of `data`

## Main results

* `writePortion_eq_slice`: a portion is a slice between two line boundaries
* `portions_concat`: the portions make up the file and no line is broken
-/

namespace SystemProgramming.MapReduce

/-- `getSubrange`. -/
def getSubrange (length count idx : Nat) : Nat × Nat :=
  let startOffset := length * idx % 2 ^ 64 / count
  let endOffset := length * (idx + 1) % 2 ^ 64 / count
  (startOffset, if endOffset > length then length else endOffset)

/-- `nextLine`, for `stop` the end of the data. -/
def nextLine (data : List UInt8) (p stop : Nat) : Nat :=
  if p < stop then
    if data[p]? = some 10 then p + 1 else nextLine data (p + 1) stop
  else stop
termination_by stop - p

/-- `write_portion`: the bytes that go to `stdout`. -/
def writePortion (data : List UInt8) (count index : Nat) : List UInt8 :=
  let length := data.length
  let (startOffset, endOffset) := getSubrange length count index
  let startPtr := if index = 0 then 0 else nextLine data startOffset length
  let endPtr := if index = count - 1 then length else nextLine data endOffset length
  if endPtr > startPtr then (data.drop startPtr).take (endPtr - startPtr) else []

/-- Offset `k` is the start or the end of the data, or comes right after a newline. -/
def LineBoundary (data : List UInt8) (k : Nat) : Prop :=
  k = 0 ∨ k = data.length ∨ ∃ i, k = i + 1 ∧ data[i]? = some 10

/-! ## The next line -/

section NextLine

variable {data : List UInt8} {p q stop : Nat}

theorem le_nextLine (h : p ≤ stop) : p ≤ nextLine data p stop ∧ nextLine data p stop ≤ stop := by
  induction p using nextLine.induct data stop with
  | case1 p hlt hnewline =>
    rw [nextLine, if_pos hlt, if_pos hnewline]
    exact ⟨p.le_succ, hlt⟩
  | case2 p hlt hnewline ih =>
    rw [nextLine, if_pos hlt, if_neg hnewline]
    obtain ⟨hge, hle⟩ := ih hlt
    exact ⟨p.le_succ.trans hge, hle⟩
  | case3 p hlt =>
    rw [nextLine, if_neg hlt]
    exact ⟨h, le_refl stop⟩

theorem nextLine_boundary :
    nextLine data p stop = stop ∨ ∃ i, nextLine data p stop = i + 1 ∧ data[i]? = some 10 := by
  induction p using nextLine.induct data stop with
  | case1 p hlt hnewline =>
    rw [nextLine, if_pos hlt, if_pos hnewline]
    exact Or.inr ⟨p, rfl, hnewline⟩
  | case2 p hlt hnewline ih =>
    rw [nextLine, if_pos hlt, if_neg hnewline]
    exact ih
  | case3 p hlt =>
    rw [nextLine, if_neg hlt]
    exact Or.inl rfl

/-- A search that starts later does not end earlier. -/
theorem nextLine_mono (hpq : p ≤ q) (hq : q ≤ stop) :
    nextLine data p stop ≤ nextLine data q stop := by
  induction p using nextLine.induct data stop with
  | case1 p hlt hnewline =>
    rcases hpq.eq_or_lt with rfl | hpq
    · exact le_refl _
    · -- the line ends before `q`
      rw [nextLine, if_pos hlt, if_pos hnewline]
      exact le_trans hpq (le_nextLine hq).1
  | case2 p hlt hnewline ih =>
    rcases hpq.eq_or_lt with rfl | hpq
    · exact le_refl _
    · rw [nextLine, if_pos hlt, if_neg hnewline]
      exact ih hpq
  | case3 p hlt =>
    obtain rfl : p = q := by omega
    exact le_refl _

end NextLine

/-! ## The ends of the portions -/

section Portions

variable {data : List UInt8} {count : Nat}

/-- Where portion `i` starts, and portion `i - 1` ends. -/
def portionStart (data : List UInt8) (count i : Nat) : Nat :=
  if i = 0 then 0
  else if count ≤ i then data.length
  else nextLine data (data.length * i / count) data.length

theorem portionStart_le (i : Nat) : portionStart data count i ≤ data.length := by
  rw [portionStart]
  split_ifs with hzero hlast
  · exact Nat.zero_le _
  · exact le_refl _
  · exact (le_nextLine (mul_div_le (not_le.mp hlast).le)).2

theorem portionStart_mono : Monotone (portionStart data count) := by
  intro i j hij
  by_cases hj : count ≤ j
  · -- the last portion ends with the data
    by_cases hzero : j = 0
    · obtain rfl : i = j := by omega
      exact le_refl _
    · rw [show portionStart data count j = data.length by rw [portionStart, if_neg hzero, if_pos hj]]
      exact portionStart_le i
  · by_cases hi : i = 0
    · rw [portionStart, if_pos hi]
      exact Nat.zero_le _
    · rw [portionStart, portionStart, if_neg hi, if_neg (by omega), if_neg (by omega), if_neg hj]
      exact nextLine_mono (mul_div_mono _ _ hij) (mul_div_le (not_le.mp hj).le)

theorem portionStart_boundary (i : Nat) : LineBoundary data (portionStart data count i) := by
  rw [portionStart]
  split_ifs with hzero hlast
  · exact Or.inl rfl
  · exact Or.inr (Or.inl rfl)
  · exact Or.inr nextLine_boundary

/-- **The end of one portion is the start of the next.** -/
theorem writePortion_eq_slice (hlen : data.length * count < 2 ^ 64) {i : Nat} (hi : i < count) :
    writePortion data count i =
      slice data (portionStart data count i) (portionStart data count (i + 1)) := by
  have hsmall : ∀ j ≤ count, data.length * j < 2 ^ 64 := fun j hj =>
    (Nat.mul_le_mul_left _ hj).trans_lt hlen
  have hsubrange : getSubrange data.length count i =
      (data.length * i / count, data.length * (i + 1) / count) := by
    rw [getSubrange, Nat.mod_eq_of_lt (hsmall i hi.le), Nat.mod_eq_of_lt (hsmall (i + 1) hi),
      if_neg (not_lt.mpr (mul_div_le hi))]
  have hstart : (if i = 0 then 0 else nextLine data (data.length * i / count) data.length) =
      portionStart data count i := by
    rw [portionStart, if_neg (not_le.mpr hi)]
  have hend : (if i = count - 1 then data.length
      else nextLine data (data.length * (i + 1) / count) data.length) =
      portionStart data count (i + 1) := by
    rw [portionStart, if_neg i.succ_ne_zero]
    apply if_congr _ rfl rfl
    omega
  rw [writePortion]
  simp only [hsubrange, hstart, hend]
  split_ifs with hlt
  · exact slice_eq_take_drop.symm
  · exact (slice_of_le (not_lt.mp hlt)).symm

/-- The first `k` portions are the data up to a line boundary. -/
theorem flatMap_writePortion (hlen : data.length * count < 2 ^ 64) {k : Nat} (hk : k ≤ count) :
    (List.range k).flatMap (writePortion data count) =
      data.take (portionStart data count k) := by
  have hslices : (List.range k).flatMap (writePortion data count) =
      (List.range k).flatMap fun i =>
        slice data (portionStart data count i) (portionStart data count (i + 1)) := by
    apply List.flatMap_congr
    intro i hi
    exact writePortion_eq_slice hlen ((List.mem_range.mp hi).trans_le hk)
  rw [hslices, flatMap_slice portionStart_mono]
  exact slice_zero

/-- **The portions make up the file, and no line is broken**: where one portion ends and the next
starts, a line ends. -/
theorem portions_concat (data : List UInt8) (count : Nat) (hcount : 1 ≤ count)
    (hlen : data.length * count < 2 ^ 64) :
    (List.range count).flatMap (writePortion data count) = data ∧
      ∀ k ≤ count,
        LineBoundary data ((List.range k).flatMap (writePortion data count)).length := by
  constructor
  · have hend : portionStart data count count = data.length := by
      rw [portionStart, if_neg (by omega), if_pos (le_refl count)]
    rw [flatMap_writePortion hlen (le_refl count), hend, List.take_length]
  · intro k hk
    rw [flatMap_writePortion hlen hk, List.length_take, min_eq_left (portionStart_le k)]
    exact portionStart_boundary k

/-- Three portions of `"ab\n\ncdefgh\ni"`. -/
theorem portions_concat_three :
    (List.range 3).flatMap (writePortion [97, 98, 10, 10, 99, 100, 101, 102, 103, 104, 10, 105] 3) =
      [97, 98, 10, 10, 99, 100, 101, 102, 103, 104, 10, 105] :=
  (portions_concat _ 3 (by decide) (by decide)).1

end Portions

end SystemProgramming.MapReduce
