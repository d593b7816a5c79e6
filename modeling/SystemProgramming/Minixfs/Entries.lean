import Mathlib.Data.List.GetD
import Mathlib.Tactic
import SystemProgramming.Minixfs.Lookup

/-!
# Entries of directories

`make_string_from_dirent` writes the number of an inode as eight hexadecimal digits, which
`strtoll` reads back. An entry whose name ends within its `248` bytes has the names of a path
compared with the whole name.

## Main definitions

* `EntryAt`: an entry with a name and a number

## Main results

* `strtoll16_hex8`: a number reads back as written
* `entryAt_makeString`: an entry reads back as written
* `EntryAt.copy`, `EntryAt.hit`
* `tokens_snoc`: the tokens of a path that ends with a name
-/

namespace SystemProgramming.Minixfs

/-! ## Hexadecimal digits -/

section Digits

variable {d n : Nat}

theorem hexDigit_hexChar : ∀ d < 16, hexDigit (hexChar d) = some d := by decide

/-- No digit is a blank, a sign, or the `x` of a prefix. -/
theorem hexChar_plain : ∀ d < 16, isSpace (hexChar d) = false ∧ hexChar d ≠ 45 ∧ hexChar d ≠ 43 ∧
    hexChar d ≠ 120 ∧ hexChar d ≠ 88 := by
  decide

theorem hexNumber_hex8 (h : n < 2 ^ 32) : hexNumber (hex8 n) = n := by
  have hdigit : ∀ i, hexDigit (hexChar (n / 16 ^ i % 16)) = some (n / 16 ^ i % 16) := fun i =>
    hexDigit_hexChar _ (Nat.mod_lt _ (by decide))
  have hrange : List.range 8 = [0, 1, 2, 3, 4, 5, 6, 7] := rfl
  simp only [hexNumber, hex8, hrange, List.map_cons, List.map_nil, hdigit, List.takeWhile_cons,
    List.takeWhile_nil, Option.isSome_some, if_true, List.foldl_cons, List.foldl_nil,
    Option.getD_some]
  omega

/-- **A number reads back as written.** -/
theorem strtoll16_hex8 (h : n < 2 ^ 32) : strtoll16 (hex8 n) = n := by
  obtain ⟨c, x, cs, hcs, hc, hx⟩ : ∃ c x cs, hex8 n = c :: x :: cs ∧
      (isSpace c = false ∧ c ≠ 45 ∧ c ≠ 43) ∧ x ≠ 120 ∧ x ≠ 88 := by
    have hc := hexChar_plain _ (Nat.mod_lt (n / 16 ^ 7) (show 0 < 16 by decide))
    have hx := hexChar_plain _ (Nat.mod_lt (n / 16 ^ 6) (show 0 < 16 by decide))
    exact ⟨_, _, _, rfl, ⟨hc.1, hc.2.1, hc.2.2.1⟩, hx.2.2.2⟩
  have hnumber := hexNumber_hex8 h
  rw [hcs] at hnumber ⊢
  have hsame : dropHexPrefix (c :: x :: cs) = c :: x :: cs := by
    rw [dropHexPrefix.eq_def]
    split
    · next heq =>
      obtain ⟨rfl, htail⟩ := List.cons.inj heq
      obtain ⟨rfl, -⟩ := List.cons.inj htail
      rw [if_neg (by tauto), heq]
    · rfl
  have hdrop : (c :: x :: cs).dropWhile isSpace = c :: x :: cs :=
    List.dropWhile_cons_of_neg (by simp [hc.1])
  rw [strtoll16, hdrop]
  split
  · next heq => exact absurd (List.cons.inj heq).1 hc.2.1
  · next heq => exact absurd (List.cons.inj heq).1 hc.2.2
  · rw [hsame, hnumber]

end Digits

/-! ## The entry at an address -/

/-- The entry at address `a` has the name and the inode number. -/
structure EntryAt (data : Memory) (a : Nat) (name : List UInt8) (num : Nat) : Prop where
  number : makeDirentFromString data a = some ⟨a, num⟩
  fits : name.length < fileNameLength
  nonzero : (0 : UInt8) ∉ name
  bytes : ∀ i < name.length, data (a + i) = name.getD i 0
  stop : data (a + name.length) = 0

section Entries

variable {data data' : Memory} {a a' num : Nat} {name tok : List UInt8}

/-- Whether an entry is in use depends on the bytes of its number, and so does the number. -/
theorem inodeNum_congr
    (h : ∀ i, fileNameLength ≤ i → i < fileNameEntry → data' (a' + i) = data (a + i)) :
    (makeDirentFromString data' a').map Dirent.inodeNum =
      (makeDirentFromString data a).map Dirent.inodeNum := by
  have hread : data'.read (a' + fileNameLength) inodeSize =
      data.read (a + fileNameLength) inodeSize := by
    refine List.map_congr_left fun i hi => ?_
    have hlt : fileNameLength + i < fileNameEntry := by
      have hi' := List.mem_range.mp hi
      simp only [fileNameLength, fileNameEntry, inodeSize] at *
      omega
    rw [Nat.add_assoc, Nat.add_assoc]
    exact h _ (Nat.le_add_right _ _) hlt
  rw [makeDirentFromString, makeDirentFromString, hread]
  split_ifs <;> rfl

theorem makeDirent_congr
    (h : ∀ i, fileNameLength ≤ i → i < fileNameEntry → data' (a + i) = data (a + i)) :
    makeDirentFromString data' a = makeDirentFromString data a := by
  have hnum := inodeNum_congr h
  cases hdirent : makeDirentFromString data a with
  | none => simpa [hdirent] using hnum
  | some d =>
    rw [hdirent, Option.map_some, Option.map_eq_some_iff] at hnum
    obtain ⟨d', hd', hnum⟩ := hnum
    rw [hd', Option.some_inj]
    have hname : d'.name = d.name := (name_makeDirent hd').trans (name_makeDirent hdirent).symm
    exact congrArg₂ Dirent.mk hname hnum

/-- A copy of an entry. -/
theorem EntryAt.copy (h : EntryAt data a name num)
    (hcopy : ∀ i < fileNameEntry, data' (a' + i) = data (a + i)) : EntryAt data' a' name num := by
  have hfits := h.fits
  have hwithin : ∀ i ≤ name.length, i < fileNameEntry := fun i hi => by
    simp only [fileNameLength, fileNameEntry] at *
    omega
  refine ⟨?_, h.fits, h.nonzero, fun i hi => ?_, ?_⟩
  · have hnum := inodeNum_congr fun i _ hi => hcopy i hi
    rw [h.number, Option.map_some, Option.map_eq_some_iff] at hnum
    obtain ⟨d, hd, hnum⟩ := hnum
    have hname : d.name = a' := name_makeDirent hd
    subst hname
    exact hd.trans (congrArg (fun n => some (Dirent.mk d.name n)) hnum)
  · rw [hcopy i (hwithin i hi.le)]
    exact h.bytes i hi
  · rw [hcopy _ (hwithin _ le_rfl)]
    exact h.stop

theorem getD_ne_zero {i : Nat} (h : (0 : UInt8) ∉ name) (hi : i < name.length) :
    name.getD i 0 ≠ 0 := by
  rw [List.getD_eq_getElem _ _ hi]
  exact fun hzero => h (hzero ▸ List.getElem_mem hi)

/-- A name of a path is compared with the whole name of the entry. -/
theorem EntryAt.nameIs (h : EntryAt data a name num) (htok : (0 : UInt8) ∉ tok) :
    nameIs data a tok = true ↔ tok = name := by
  simp only [Minixfs.nameIs, Bool.and_eq_true, List.all_eq_true, List.mem_range, beq_iff_eq]
  constructor
  · rintro ⟨hbytes, hstop⟩
    have hle : name.length ≤ tok.length := by
      by_contra hlt
      exact getD_ne_zero h.nonzero (not_le.mp hlt) ((h.bytes _ (not_le.mp hlt)).symm.trans hstop)
    have hge : tok.length ≤ name.length := by
      by_contra hlt
      exact getD_ne_zero htok (not_le.mp hlt) ((hbytes _ (not_le.mp hlt)).symm.trans h.stop)
    refine List.ext_getElem (le_antisymm hge hle) fun i hi hi' => ?_
    rw [← List.getD_eq_getElem _ 0 hi, ← List.getD_eq_getElem _ 0 hi', ← hbytes i hi,
      h.bytes i hi']
  · rintro rfl
    exact ⟨h.bytes, h.stop⟩

@[simp] theorem length_hex8 (n : Nat) : (hex8 n).length = inodeSize := by
  rw [hex8, List.length_map, List.length_range, inodeSize]

/-- The string of an entry has one byte more than an entry. -/
@[simp] theorem length_direntString (name : List UInt8) (num : Nat) :
    (direntString name num).length = fileNameEntry + 1 := by
  simp [direntString, fileNameLength, fileNameEntry, inodeSize]

/-- **An entry reads back as written.** -/
theorem entryAt_makeString (data : Memory) (a : Nat) (hfits : name.length < fileNameLength)
    (hzero : (0 : UInt8) ∉ name) (hpos : 0 < num) (hnum : num < 2 ^ 31) :
    EntryAt (makeStringFromDirent data a name num) a name num := by
  have hwrite : ∀ i < fileNameEntry + 1,
      makeStringFromDirent data a name num (a + i) = (direntString name num).getD i 0 := by
    intro i hi
    rw [makeStringFromDirent, Memory.write_of_mem (by rw [length_direntString]; omega),
      Nat.add_sub_cancel_left]
  have hname : ∀ i < fileNameLength,
      makeStringFromDirent data a name num (a + i) = name.getD i 0 := by
    intro i hi
    rw [hwrite i (lt_trans hi (by decide)), direntString, List.append_assoc,
      List.getD_append _ _ _ _ (by simpa using hi)]
    simp [List.getD, hi]
  have hdigits : (makeStringFromDirent data a name num).read (a + fileNameLength) inodeSize =
      hex8 num := by
    refine Memory.read_eq_iff.mpr ⟨length_hex8 num, fun i hi => ?_⟩
    have hlt : fileNameLength + i < fileNameEntry + 1 := by
      simp only [fileNameLength, fileNameEntry, inodeSize] at *
      omega
    rw [Nat.add_assoc, hwrite _ hlt, direntString, List.append_assoc,
      List.getD_append_right _ _ _ _ (by simp)]
    simp [List.getD, hi, List.getElem?_append_left]
  refine ⟨?_, hfits, hzero, fun i hi => hname i (hi.trans hfits), ?_⟩
  · have hmod : ((num : Int) % 2 ^ 32).toNat = num := by omega
    rw [makeDirentFromString, hdigits, strtoll16_hex8 (by omega), if_neg (by omega), hmod,
      ofBits, if_pos hnum]
  · rw [hname _ hfits, List.getD_eq_default _ _ le_rfl]

theorem EntryAt.hit (h : EntryAt data a name num) (htok : (0 : UInt8) ∉ tok) :
    hit data tok a = if tok = name then some (num : Int) else none := by
  rw [Minixfs.hit, h.number, Option.bind_some]
  simp only [h.nameIs htok]

end Entries

/-! ## Names -/

section Names

variable {name : List UInt8}

theorem validFilename_iff : validFilename name = true ↔ name ≠ [] ∧ (47 : UInt8) ∉ name := by
  rw [validFilename, Bool.and_eq_true, decide_eq_true_eq, Bool.not_eq_true', List.contains_eq_mem,
    decide_eq_false_iff_not]

/-- The tokens of a path that ends with a name. -/
theorem tokens_snoc (p : List UInt8) (hname : validFilename name = true) :
    tokens (p ++ 47 :: name) = tokens (p ++ [47]) ++ [name] := by
  obtain ⟨hne, hslash⟩ := validFilename_iff.mp hname
  rw [tokens, tokens, List.splitOn_append_cons_self, List.splitOn_append_cons_self,
    List.splitOn_eq_singleton hslash, List.splitOn_nil, List.filter_append, List.filter_append]
  simp [hne]

end Names

end SystemProgramming.Minixfs
