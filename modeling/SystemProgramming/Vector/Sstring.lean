import SystemProgramming.Foundation.Ctype
import SystemProgramming.Foundation.CStrings

/-!
# `sstring_split` and `sstring_substitute` of `sstring.c`

An `sstring` is the block of memory that holds its string. `sstring_split` writes a NUL over each
delimiter for as long as it copies the piece before it; its vector is the list of the pieces that
are pushed. `sstring_substitute` puts the new string together in a block from `malloc`.

The special case of `sstring_split` adds the empty piece behind a delimiter at the end. The loop
is not entered for the empty string, so its one empty piece is missed.

## Main definitions

* `splitLoop`, `sstringSplit`: `sstring_split`
* `sstringSubstitute`: `sstring_substitute`
* `SplitsLikePython`: the pieces between the delimiters, and the string as it was

## Main results

* `splitLoop_spec`: the loop from any character on
* `sstringSplit_iff`: every string but the empty one is split as in Python
* `sstringSubstitute_spec`: the first occurrence behind the offset is replaced
-/

namespace SystemProgramming.Sstring

/-! ## `sstring_split` -/

/-- The loop of `sstring_split`, with pointers into the block and the pieces in `v`. -/
def splitLoop (delimiter : UInt8) (block : List UInt8) (str stop : Nat) (v : List (List UInt8)) :
    Option (List UInt8 × List (List UInt8)) :=
  if str < stop then do
    let s ← strAt block str
    match strchr s delimiter with
    | none => splitLoop delimiter block stop stop (v ++ [s])
    | some k =>
      let substrEnd := str + k
      let aux ← block[substrEnd]?
      -- the piece is a string as long as the NUL is there
      let cut := block.set substrEnd 0
      let piece ← strAt cut str
      let restored := cut.set substrEnd aux
      let v := v ++ [piece]
      let v := if substrEnd = stop - 1 ∧ restored[substrEnd]? = some delimiter then v ++ [[]] else v
      splitLoop delimiter restored (substrEnd + 1) stop v
  else some (block, v)
termination_by stop - str

/-- `sstring_split`: the block afterwards, and the vector. -/
def sstringSplit (this : List UInt8) (delimiter : UInt8) :
    Option (List UInt8 × List (List UInt8)) := do
  let s ← strAt this 0
  splitLoop delimiter this 0 s.length []

/-- The pieces of the string between the delimiters, one more than there are delimiters, which
joined with the delimiter give the string back. The `sstring` is as it was. -/
def SplitsLikePython (s : CString) (d : UInt8) : Prop :=
  ∃ v, sstringSplit s.block d = some (s.block, v) ∧ v = s.bytes.splitOn d ∧
    v.length = s.bytes.count d + 1 ∧ (∀ piece ∈ v, d ∉ piece) ∧ [d].intercalate v = s.bytes

section Split

variable {d : UInt8} {a rest u : List UInt8}

/-- A byte in the middle of a block is replaced. -/
theorem set_middle (a u rest : List UInt8) (c x : UInt8) :
    (a ++ (u ++ c :: rest)).set (a.length + u.length) x = a ++ (u ++ x :: rest) := by
  rw [← List.append_assoc, ← List.append_assoc, ← List.length_append]
  simp [List.set_append_right]

theorem getElem?_middle (c : UInt8) :
    (a ++ (u ++ c :: rest))[a.length + u.length]? = some c := by
  rw [← List.append_assoc, ← List.length_append]
  simp

/-- **The loop of `sstring_split`**, where there are characters left. -/
theorem splitLoop_spec (pre : List UInt8) (v : List (List UInt8)) (hd : d ≠ 0) (hrest : rest ≠ [])
    (hnul : 0 ∉ rest) :
    splitLoop d (pre ++ (rest ++ [0])) pre.length (pre.length + rest.length) v =
      some (pre ++ (rest ++ [0]), v ++ rest.splitOn d) := by
  induction hlen : rest.length using Nat.strong_induction_on generalizing pre rest v with
  | _ n ih =>
    subst hlen
    have hpos : 0 < rest.length := List.length_pos_of_ne_nil hrest
    rw [splitLoop, if_pos (Nat.lt_add_of_pos_right hpos), strAt_eq rfl hnul]
    by_cases hmem : d ∈ rest
    · -- the first piece ends at a delimiter
      obtain ⟨u, tail, rfl, hu⟩ := List.eq_append_cons_of_mem hmem
      have hblock : pre ++ (u ++ d :: tail ++ [0]) = pre ++ (u ++ d :: (tail ++ [0])) := by simp
      have hnul' : 0 ∉ u := fun h => hnul (List.mem_append_left _ h)
      have hpiece : strAt (pre ++ (u ++ 0 :: (tail ++ [0]))) pre.length = some u :=
        strAt_eq rfl hnul'
      have hsplit : (u ++ d :: tail).splitOn d = u :: tail.splitOn d :=
        List.splitOn_append_cons_self_of_not_mem hu tail
      simp only [Option.bind_eq_bind, Option.bind_some, strchr_append_cons hu, hblock,
        getElem?_middle, set_middle, hpiece]
      have hstop : pre.length + (u ++ d :: tail).length =
          (pre ++ u ++ [d]).length + tail.length := by
        simp
        omega
      by_cases htail : tail = []
      · -- the delimiter is the last character, and the loop ends
        subst htail
        rw [if_pos (by simp), splitLoop, if_neg (by simp; omega), hsplit, List.splitOn_nil]
        simp
      · have hnotLast : ¬ (pre.length + u.length = pre.length + (u ++ d :: tail).length - 1 ∧
            True) := by
          have := List.length_pos_of_ne_nil htail
          simp
          omega
        have hnext : pre.length + u.length + 1 = (pre ++ u ++ [d]).length := by
          simp
          omega
        have hblock' : pre ++ (u ++ d :: (tail ++ [0])) = pre ++ u ++ [d] ++ (tail ++ [0]) := by
          simp
        have hnul'' : 0 ∉ tail := by
          intro h
          exact hnul (List.mem_append_right u (List.mem_cons_of_mem d h))
        rw [if_neg hnotLast, hnext, hstop, hblock',
          ih tail.length (by simp; omega) _ _ htail hnul'' rfl, hsplit]
        simp
    · -- no delimiter is left
      simp only [Option.bind_eq_bind, Option.bind_some, strchr_eq_none hd hmem]
      rw [splitLoop, if_neg (lt_irrefl _), List.splitOn_eq_singleton hmem]

theorem length_splitOn (d : UInt8) (s : List UInt8) : (s.splitOn d).length = s.count d + 1 := by
  induction s with
  | nil => simp
  | cons c s ih =>
    rw [List.splitOn_cons_eq_if_modifyHead, List.count_cons]
    split_ifs
    · rw [List.length_cons, ih]
    · rw [List.length_modifyHead, ih]

theorem notMem_of_mem_splitOn {d : UInt8} {s piece : List UInt8} (h : piece ∈ s.splitOn d) :
    d ∉ piece := by
  induction s generalizing piece with
  | nil =>
    obtain rfl : piece = [] := by simpa using h
    exact List.not_mem_nil
  | cons c s ih =>
    rw [List.splitOn_cons_eq_if_modifyHead] at h
    split_ifs at h with hc
    · rcases List.mem_cons.mp h with rfl | h
      · exact List.not_mem_nil
      · exact ih h
    · -- the character belongs to the first piece
      obtain ⟨first, others, hsplit⟩ := List.exists_cons_of_ne_nil (List.splitOn_ne_nil d s)
      rw [hsplit, List.modifyHead_cons] at h
      rcases List.mem_cons.mp h with rfl | h
      · intro hmem
        rcases List.mem_cons.mp hmem with rfl | hmem
        · exact hc (beq_self_eq_true d)
        · exact ih (hsplit ▸ List.mem_cons_self) hmem
      · exact ih (hsplit ▸ List.mem_cons_of_mem first h)

/-- The loop is not entered for the empty string. -/
theorem sstringSplit_nil (d : UInt8) : sstringSplit [0] d = some ([0], []) := by
  have hstart : strAt [0] 0 = some [] := by decide
  rw [sstringSplit, hstart, Option.bind_eq_bind, Option.bind_some, splitLoop, if_neg (by simp)]

/-- A string that is not empty is split into the pieces between the delimiters. -/
theorem sstringSplit_of_ne_nil (s : CString) (hd : d ≠ 0) (hne : s.bytes ≠ []) :
    sstringSplit s.block d = some (s.block, s.bytes.splitOn d) := by
  have hstart : strAt s.block 0 = some s.bytes := s.strAt_drop (Nat.zero_le _)
  have hloop := splitLoop_spec [] [] hd hne s.nul_free
  rw [List.nil_append, List.nil_append, List.length_nil, Nat.zero_add] at hloop
  rw [sstringSplit, hstart]
  exact hloop

end Split

/-- **Every string but the empty one is split as in Python.** -/
theorem sstringSplit_iff (s : CString) (d : UInt8) (hd : d ≠ 0) :
    SplitsLikePython s d ↔ s.bytes ≠ [] := by
  constructor
  · rintro ⟨v, hv, -, hlen, -⟩ hempty
    rw [CString.block, hempty, List.nil_append, sstringSplit_nil] at hv
    obtain rfl := congrArg Prod.snd (Option.some.inj hv)
    rw [List.length_nil] at hlen
    omega
  · intro hne
    exact ⟨s.bytes.splitOn d, sstringSplit_of_ne_nil s hd hne, rfl, length_splitOn d s.bytes,
      fun piece => notMem_of_mem_splitOn, List.intercalate_splitOn d⟩

/-- The string `"abca"`, and the delimiter `'a'`. -/
theorem sstringSplit_iff_abca :
    SplitsLikePython ⟨[97, 98, 99, 97], by decide, by decide⟩ 97 :=
  (sstringSplit_iff ⟨[97, 98, 99, 97], by decide, by decide⟩ 97 (by decide)).mpr (by decide)

/-- The empty string. -/
theorem not_splitsLikePython_empty :
    (97 : UInt8) ≠ 0 ∧ ¬ SplitsLikePython ⟨[], by decide, by decide⟩ 97 := by
  refine ⟨by decide, ?_⟩
  rintro ⟨v, hv, -, hlen, -⟩
  obtain rfl := congrArg Prod.snd (Option.some.inj ((sstringSplit_nil 97).symm.trans hv))
  exact absurd hlen (by decide)

/-! ## `sstring_substitute` -/

/-- `sstring_substitute`: what is returned, and the block afterwards. -/
def sstringSubstitute (heap this : List UInt8) (offset : Nat) (target substitution : CString) :
    Option (Int × List UInt8) := do
  let s ← strAt this 0
  let haystack ← strAt this offset
  match strstr haystack target.bytes with
  | none => some (-1, this)
  | some k =>
    let next := offset + k
    let totalNbytes :=
      sizeT ((s.length : Int) + 1 - target.bytes.length + substitution.bytes.length)
    let aux := malloc heap totalNbytes
    let firstNbytes := next
    let aux ← strncpy aux 0 s firstNbytes
    let secondNbytes := substitution.bytes.length
    let aux ← strncpy aux firstNbytes substitution.bytes secondNbytes
    let remainingNbytes := sizeT ((totalNbytes : Int) - firstNbytes - secondNbytes)
    let rest ← strAt this (next + target.bytes.length)
    let aux ← strncpy aux (firstNbytes + secondNbytes) rest remainingNbytes
    if totalNbytes - 1 < aux.length then some (0, aux.set (totalNbytes - 1) 0) else none

section Substitute

variable {s t u : CString} {offset i : Nat}

/-- The first occurrence behind the offset, as `strstr` finds it from there on. -/
theorem isLeast_drop (hoffset : offset ≤ s.bytes.length)
    (h : IsLeast {i | offset ≤ i ∧ Occurs t.bytes i s.bytes} i) :
    strstr (s.bytes.drop offset) t.bytes = some (i - offset) := by
  have hoccurs : ∀ k, Occurs t.bytes k (s.bytes.drop offset) ↔
      Occurs t.bytes (offset + k) s.bytes := by
    intro k
    rw [occurs_iff, occurs_iff, List.drop_drop, List.length_drop]
    refine and_congr_left fun _ => ?_
    omega
  obtain ⟨⟨hle, hi⟩, hleast⟩ := h
  rw [strstr_eq_some_iff]
  constructor
  · change Occurs _ _ _
    rw [hoccurs, Nat.add_sub_cancel' hle]
    exact hi
  · intro k hk
    have := hleast ⟨Nat.le_add_right offset k, (hoccurs k).mp hk⟩
    omega

/-- The three copies put the new string together. -/
theorem sstringSubstitute_found (heap : List UInt8) (hoffset : offset ≤ s.bytes.length)
    (h : IsLeast {i | offset ≤ i ∧ Occurs t.bytes i s.bytes} i) :
    sstringSubstitute heap s.block offset t u =
      some (0, s.bytes.take i ++ u.bytes ++ s.bytes.drop (i + t.bytes.length) ++ [0]) := by
  have hfound := isLeast_drop hoffset h
  obtain ⟨⟨hle, pre, post, hs, rfl⟩, -⟩ := h
  have hlen : s.bytes.length = pre.length + t.bytes.length + post.length := by
    rw [hs]
    simp [Nat.add_assoc]
  have htake : s.bytes.take pre.length = pre := by rw [hs, List.take_left']; rfl
  have hdrop : s.bytes.drop (pre.length + t.bytes.length) = post := by
    rw [hs, ← List.append_assoc]
    exact List.drop_left' List.length_append
  have hsfits := s.fits
  have hufits := u.fits
  -- the sizes are those of the parts, and a `size_t` holds them
  have htotal : sizeT ((s.bytes.length : Int) + 1 - t.bytes.length + u.bytes.length) =
      pre.length + u.bytes.length + (post.length + 1) := sizeT_eq (by omega) (by omega)
  have hremaining : sizeT (((pre.length + u.bytes.length + (post.length + 1) : Nat) : Int) -
      pre.length - u.bytes.length) = post.length + 1 := sizeT_eq (by omega) (by omega)
  -- the block that `malloc` returns, cut where the copies go
  obtain ⟨x, y, z, hmalloc, hx, hy, hz⟩ : ∃ x y z,
      malloc heap (pre.length + u.bytes.length + (post.length + 1)) = x ++ (y ++ z) ∧
        x.length = pre.length ∧ y.length = u.bytes.length ∧ z.length = post.length + 1 := by
    set block := malloc heap (pre.length + u.bytes.length + (post.length + 1)) with hblock
    have hlength : block.length = pre.length + u.bytes.length + (post.length + 1) :=
      length_malloc heap _
    refine ⟨block.take pre.length, (block.drop pre.length).take u.bytes.length,
      (block.drop pre.length).drop u.bytes.length, by simp, ?_, ?_, ?_⟩
    · exact List.length_take_of_le (by omega)
    · rw [List.length_take_of_le]
      rw [List.length_drop]
      omega
    · rw [List.length_drop, List.length_drop]
      omega
  have hfirst : strncpy (x ++ (y ++ z)) 0 s.bytes pre.length = some (pre ++ (y ++ z)) := by
    have hcopy := strncpy_eq [] (y ++ z) s.bytes hx
    rw [take_pad_of_le (by omega), htake] at hcopy
    exact hcopy
  have hsecond : strncpy (pre ++ (y ++ z)) pre.length u.bytes u.bytes.length =
      some (pre ++ (u.bytes ++ z)) := by
    have hcopy := strncpy_eq pre z u.bytes hy
    rwa [take_pad_of_le (le_refl _), List.take_length] at hcopy
  have hthird : strncpy (pre ++ (u.bytes ++ z)) (pre.length + u.bytes.length) post
      (post.length + 1) = some (pre ++ u.bytes ++ (post ++ [0])) := by
    have hcopy := strncpy_eq (pre ++ u.bytes) [] post hz
    rw [take_pad_succ, List.length_append, List.append_nil, List.append_nil] at hcopy
    rwa [← List.append_assoc]
  have hrest : strAt s.block (pre.length + t.bytes.length) = some post := by
    rw [s.strAt_drop (by omega), hdrop]
  have hlast : (pre ++ u.bytes ++ (post ++ [0])).set
      (pre.length + u.bytes.length + (post.length + 1) - 1) 0 =
      pre ++ u.bytes ++ (post ++ [0]) := by
    have hset := set_middle (pre ++ u.bytes) post [] 0 0
    rwa [List.length_append] at hset
  have hnext : offset + (pre.length - offset) = pre.length := Nat.add_sub_cancel' hle
  rw [sstringSubstitute, s.strAt_drop (Nat.zero_le _), s.strAt_drop hoffset]
  simp only [List.drop_zero, Option.bind_eq_bind, Option.bind_some, hfound, hnext, htotal, hmalloc,
    hfirst, hsecond, hremaining, hrest, hthird, hlast]
  rw [if_pos (by simp; omega), htake, hdrop]
  simp

/-- **The first occurrence behind the offset is replaced**, and a string without one stays as it
is. Every write goes into its block, or there would be no result. -/
theorem sstringSubstitute_spec (heap : List UInt8) (s t u : CString) (offset : Nat)
    (hoffset : offset ≤ s.bytes.length) :
    (∀ i, IsLeast {i | offset ≤ i ∧ Occurs t.bytes i s.bytes} i →
      sstringSubstitute heap s.block offset t u =
        some (0, s.bytes.take i ++ u.bytes ++ s.bytes.drop (i + t.bytes.length) ++ [0])) ∧
    ((∀ i, offset ≤ i → ¬ Occurs t.bytes i s.bytes) →
      sstringSubstitute heap s.block offset t u = some (-1, s.block)) := by
  refine ⟨fun i hi => sstringSubstitute_found heap hoffset hi, fun hnone => ?_⟩
  have hmiss : strstr (s.bytes.drop offset) t.bytes = none := by
    rw [strstr_eq_none_iff]
    intro k hk
    apply hnone (offset + k) (Nat.le_add_right _ _)
    rw [occurs_iff, List.length_drop, List.drop_drop] at hk
    exact occurs_iff.mpr ⟨by omega, hk.2⟩
  rw [sstringSubstitute, s.strAt_drop (Nat.zero_le _), s.strAt_drop hoffset]
  simp only [Option.bind_eq_bind, Option.bind_some, hmiss]

end Substitute

/-- In `"ab{}"` the `"{}"` is replaced by `"c"`. -/
theorem sstringSubstitute_spec_braces :
    sstringSubstitute [] [97, 98, 123, 125, 0] 1 ⟨[123, 125], by decide, by decide⟩
      ⟨[99], by decide, by decide⟩ = some (0, [97, 98, 99, 0]) := by
  apply (sstringSubstitute_spec [] ⟨[97, 98, 123, 125], by decide, by decide⟩
    ⟨[123, 125], by decide, by decide⟩ ⟨[99], by decide, by decide⟩ 1 (by decide)).1 2
  refine ⟨⟨by decide, occurs_iff.mpr ⟨by decide, List.prefix_rfl⟩⟩, ?_⟩
  rintro i ⟨hle, hi⟩
  by_contra hlt
  obtain rfl : i = 1 := by omega
  exact absurd (occurs_iff.mp hi).2 (by decide)

end SystemProgramming.Sstring
