import Mathlib.Tactic

/-!
# Strings of C

A string of C is an object in memory: bytes other than NUL, and a NUL behind them. No object has
more than `2 ^ 63 - 1` bytes. A block of memory is the list of its bytes, and pointers into it are
offsets. What reads or writes outside the block is `none`.

## Main definitions

* `CString`: the bytes of a string, and `CString.block` with its NUL
* `strAt block p`: the string at a pointer
* `strchr`, `strstr`, `strncpy`: the functions of the C library
* `Occurs t i s`: the string `t` occurs in `s` at index `i`

## Main results

* `strAt_eq`: the bytes before the first NUL
* `strstr_eq_some_iff`, `strstr_eq_none_iff`: `strstr` finds the first occurrence
* `strncpy_eq`: a copy that stays in its block
-/

namespace SystemProgramming

/-- A string of C. -/
structure CString where
  bytes : List UInt8
  nul_free : 0 ∉ bytes
  fits : bytes.length + 1 < 2 ^ 63

/-- A string and its NUL. -/
def CString.block (s : CString) : List UInt8 := s.bytes ++ [0]

/-- A `size_t`. -/
def sizeT (x : Int) : Nat := (x % 2 ^ 64).toNat

theorem sizeT_eq {x : Int} {n : Nat} (h : x = n) (hn : n < 2 ^ 64) : sizeT x = n := by
  rw [sizeT, h]
  omega

/-! ## Reading -/

section Reading

variable {block a b s : List UInt8} {t : List UInt8} {i : Nat}

/-- The string at offset `p` of a block. -/
def strAt (block : List UInt8) (p : Nat) : Option (List UInt8) :=
  if 0 ∈ block.drop p then some ((block.drop p).takeWhile (· ≠ 0)) else none

theorem strAt_eq (h : block = a ++ (s ++ 0 :: b)) (hs : 0 ∉ s) : strAt block a.length = some s := by
  have hdrop : block.drop a.length = s ++ 0 :: b := by rw [h, List.drop_left']; rfl
  have hall : ∀ c ∈ s, decide (c ≠ 0) = true := by
    intro c hc
    exact decide_eq_true fun heq => hs (heq ▸ hc)
  rw [strAt, hdrop, if_pos (by simp), List.takeWhile_append_of_pos hall,
    List.takeWhile_cons_of_neg (by simp), List.append_nil]

/-- The string at a pointer into a string is the rest of it. -/
theorem CString.strAt_drop (s : CString) (hi : i ≤ s.bytes.length) :
    strAt s.block i = some (s.bytes.drop i) := by
  have hsplit : s.block = s.bytes.take i ++ (s.bytes.drop i ++ 0 :: []) := by
    rw [← List.append_assoc, List.take_append_drop]
    rfl
  have hlen : (s.bytes.take i).length = i := List.length_take_of_le hi
  have heq := strAt_eq hsplit fun hmem => s.nul_free (List.mem_of_mem_drop hmem)
  rwa [hlen] at heq

/-- `strchr` in a string, the NUL of which counts. -/
def strchr (s : List UInt8) (c : UInt8) : Option Nat := (s ++ [0]).idxOf? c

theorem strchr_eq_none {d : UInt8} (hd : d ≠ 0) (h : d ∉ s) : strchr s d = none := by
  rw [strchr, List.idxOf?_eq_none_iff]
  simp [hd, h]

theorem strchr_append_cons {d : UInt8} (h : d ∉ a) : strchr (a ++ d :: b) d = some a.length := by
  rw [strchr, List.append_assoc, List.idxOf?_eq_some_iff]
  refine ⟨by simp, by simp, fun j hj => ?_⟩
  rw [List.getElem_append_left hj]
  exact fun heq => h (heq ▸ List.getElem_mem hj)

/-- The string `t` occurs in `s` at index `i`. -/
def Occurs (t : List UInt8) (i : Nat) (s : List UInt8) : Prop :=
  ∃ a b, s = a ++ (t ++ b) ∧ a.length = i

theorem occurs_iff : Occurs t i s ↔ i ≤ s.length ∧ t <+: s.drop i := by
  constructor
  · rintro ⟨a, b, rfl, rfl⟩
    exact ⟨by simp, b, by simp⟩
  · rintro ⟨hi, b, hb⟩
    refine ⟨s.take i, b, ?_, List.length_take_of_le hi⟩
    rw [hb, List.take_append_drop]

/-- `strstr`: where the needle occurs first. -/
def strstr (haystack needle : List UInt8) : Option Nat :=
  (List.range (haystack.length + 1)).find? fun i => needle.isPrefixOf (haystack.drop i)

theorem strstr_eq_some_iff : strstr s t = some i ↔ IsLeast {i | Occurs t i s} i := by
  have hmem : ∀ j, j ∈ {i | Occurs t i s} ↔
      j < s.length + 1 ∧ t.isPrefixOf (s.drop j) = true := by
    intro j
    change Occurs t j s ↔ _
    rw [occurs_iff, List.isPrefixOf_iff_prefix, Nat.lt_succ_iff]
  rw [strstr, List.find?_range_eq_some]
  constructor
  · rintro ⟨hpre, hi, hleast⟩
    refine ⟨(hmem i).mpr ⟨List.mem_range.mp hi, hpre⟩, fun j hj => ?_⟩
    by_contra hlt
    have hno := hleast j (not_le.mp hlt)
    rw [((hmem j).mp hj).2] at hno
    cases hno
  · rintro ⟨hi, hleast⟩
    obtain ⟨hlt, hpre⟩ := (hmem i).mp hi
    refine ⟨hpre, List.mem_range.mpr hlt, fun j hj => ?_⟩
    rw [Bool.not_eq_true']
    apply Bool.eq_false_of_not_eq_true
    intro hyes
    exact absurd (hleast ((hmem j).mpr ⟨hj.trans hlt, hyes⟩)) (not_le.mpr hj)

/-- A needle whose first byte does not come before it. -/
theorem strstr_eq_of_notMem {c : UInt8} (h : c ∉ a) :
    strstr (a ++ (c :: t ++ b)) (c :: t) = some a.length := by
  rw [strstr_eq_some_iff]
  refine ⟨⟨a, b, rfl, rfl⟩, ?_⟩
  rintro j ⟨a', b', heq, rfl⟩
  by_contra hlt
  have hget : (a ++ (c :: t ++ b))[a'.length]? = some c := by
    rw [heq]
    simp
  rw [List.getElem?_append_left (not_le.mp hlt)] at hget
  exact h (List.mem_of_getElem? hget)

theorem strstr_eq_none_iff : strstr s t = none ↔ ∀ i, ¬ Occurs t i s := by
  rw [strstr, List.find?_eq_none]
  constructor
  · intro h i hi
    obtain ⟨hle, hpre⟩ := occurs_iff.mp hi
    exact h i (List.mem_range.mpr (by omega)) (List.isPrefixOf_iff_prefix.mpr hpre)
  · intro h i hi hpre
    refine h i (occurs_iff.mpr ⟨?_, List.isPrefixOf_iff_prefix.mp hpre⟩)
    have := List.mem_range.mp hi
    omega

end Reading

/-! ## Writing -/

section Writing

variable {b src : List UInt8} {n : Nat}

/-- `malloc`: a block that holds whatever was in the heap. -/
def malloc (heap : List UInt8) (n : Nat) : List UInt8 := (heap ++ List.replicate n 0).take n

@[simp] theorem length_malloc (heap : List UInt8) (n : Nat) : (malloc heap n).length = n := by
  simp [malloc]

/-- `strncpy` of the string `src` to offset `p` of a block: `n` bytes, with zeros behind a string
that is shorter. -/
def strncpy (dst : List UInt8) (p : Nat) (src : List UInt8) (n : Nat) : Option (List UInt8) :=
  if p + n ≤ dst.length then
    some (dst.take p ++ (src ++ List.replicate n 0).take n ++ dst.drop (p + n))
  else none

/-- A copy over `n` bytes in the middle of a block. -/
theorem strncpy_eq (a c src : List UInt8) (hb : b.length = n) :
    strncpy (a ++ (b ++ c)) a.length src n =
      some (a ++ ((src ++ List.replicate n 0).take n ++ c)) := by
  subst hb
  have htake : (a ++ (b ++ c)).take a.length = a := List.take_left' rfl
  have hdrop : (a ++ (b ++ c)).drop (a.length + b.length) = c := by
    rw [← List.append_assoc]
    exact List.drop_left' List.length_append
  rw [strncpy, if_pos (by simp), htake, hdrop, List.append_assoc]

theorem take_pad_of_le (h : n ≤ src.length) :
    (src ++ List.replicate n 0).take n = src.take n := List.take_append_of_le_length h

/-- The copy that takes the NUL along. -/
theorem take_pad_succ : (src ++ List.replicate (src.length + 1) 0).take (src.length + 1) =
    src ++ [0] := by
  rw [List.replicate_succ, List.take_append]
  simp

end Writing

end SystemProgramming
