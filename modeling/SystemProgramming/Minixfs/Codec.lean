import SystemProgramming.Minixfs.Entries

/-!
# The slots of directory entries

The data region is divided into slots of `FILE_NAME_ENTRY` bytes. `make_string_from_dirent` writes
an entry to a slot, and `make_dirent_from_string` reads it from there. The number is printed with
`sprintf`, which puts a `NUL` behind it: one byte behind the slot, where the next entry begins,
or the next data block.

## Main definitions

* `StringAt`: the string at a pointer
* `slotAddr`, `decodeSlot`: the address of a slot, and what it decodes to
* `TouchesOnly`: a slot is written, and no other one

## Main results

* `makeDirent_makeString`: an entry reads back as written
* `touchesOnly_iff`: only the slot is written exactly where the byte behind it is zero
-/

namespace SystemProgramming.Minixfs

/-- The string at a pointer into the data region. -/
def StringAt (data : Memory) (a : Nat) (s : List UInt8) : Prop :=
  (0 : UInt8) ∉ s ∧ data.read a (s.length + 1) = s ++ [0]

/-- The address of the slot at position `k`. -/
def slotAddr (k : Nat) : Nat := fileNameEntry * k

/-- The number in a slot, and the name up to its end or the end of its field. -/
def decodeSlot (data : Memory) (k : Nat) : Option (Int × List UInt8) :=
  (makeDirentFromString data (slotAddr k)).map fun dirent =>
    (dirent.inodeNum, (data.read dirent.name fileNameLength).takeWhile (· ≠ 0))

/-- An entry that is written to a slot changes no byte outside of it, and all the other slots
decode as before. -/
def TouchesOnly (data : Memory) (k : Nat) (name : List UInt8) (num : Nat) : Prop :=
  (∀ i, ¬ (slotAddr k ≤ i ∧ i < slotAddr k + fileNameEntry) →
    makeStringFromDirent data (slotAddr k) name num i = data i) ∧
  ∀ j ≠ k, decodeSlot (makeStringFromDirent data (slotAddr k) name num) j = decodeSlot data j

variable {data data' : Memory} {a k j num : Nat} {name : List UInt8}

/-! ## Reading back -/

theorem EntryAt.stringAt (h : EntryAt data a name num) : StringAt data a name := by
  refine ⟨h.nonzero, Memory.read_eq_iff.mpr ⟨by simp, fun i hi => ?_⟩⟩
  rcases Nat.lt_succ_iff_lt_or_eq.mp hi with hlt | rfl
  · rw [h.bytes i hlt, List.getD_append _ _ _ _ hlt]
  · rw [h.stop, List.getD_append_right _ _ _ _ le_rfl, Nat.sub_self]
    rfl

/-- **An entry reads back as written**, whatever was there before: a name of up to `247` bytes,
and a number that is not zero. -/
theorem makeDirent_makeString (data : Memory) (a : Nat) (name : List UInt8) (num : Nat)
    (hlength : 1 ≤ name.length ∧ name.length ≤ 247) (hname : ∀ b ∈ name, b ≠ 0)
    (hnum : 1 ≤ num ∧ num ≤ 2 ^ 31 - 1) :
    ∃ dirent, makeDirentFromString (makeStringFromDirent data a name num) a = some dirent ∧
      dirent.inodeNum = num ∧
      StringAt (makeStringFromDirent data a name num) dirent.name name := by
  have hfits : name.length < fileNameLength := by
    rw [fileNameLength]
    omega
  have hentry := entryAt_makeString data a hfits (fun h => hname 0 h rfl) hnum.1 (by omega)
  exact ⟨⟨a, num⟩, hentry.number, rfl, hentry.stringAt⟩

/-- The name `a` of the inode `10`. -/
theorem makeDirent_makeString_a :
    ∃ dirent, makeDirentFromString (makeStringFromDirent (fun _ => 255) 256 [97] 10) 256 =
        some dirent ∧
      dirent.inodeNum = 10 ∧
      StringAt (makeStringFromDirent (fun _ => 255) 256 [97] 10) dirent.name [97] :=
  makeDirent_makeString (fun _ => 255) 256 [97] 10 (by decide) (by simp) (by decide)

/-! ## What is written -/

/-- Two slots do not meet. -/
theorem slotAddr_disjoint (hne : j ≠ k) {i : Nat} (hi : i < fileNameEntry) :
    ¬ (slotAddr k ≤ slotAddr j + i ∧ slotAddr j + i < slotAddr k + fileNameEntry) := by
  rw [slotAddr, slotAddr]
  rcases Nat.lt_or_gt_of_ne hne with h | h
  · have := Nat.mul_le_mul_left fileNameEntry (Nat.succ_le_of_lt h)
    rw [Nat.mul_succ] at this
    omega
  · have := Nat.mul_le_mul_left fileNameEntry (Nat.succ_le_of_lt h)
    rw [Nat.mul_succ] at this
    omega

/-- What a slot decodes to depends on its bytes. -/
theorem decodeSlot_congr (h : ∀ i < fileNameEntry, data' (slotAddr j + i) = data (slotAddr j + i)) :
    decodeSlot data' j = decodeSlot data j := by
  have hname : data'.read (slotAddr j) fileNameLength = data.read (slotAddr j) fileNameLength :=
    List.map_congr_left fun i hi => h i ((List.mem_range.mp hi).trans (by decide))
  have hmake : makeDirentFromString data' (slotAddr j) = makeDirentFromString data (slotAddr j) :=
    makeDirent_congr fun i _ hi => h i hi
  rw [decodeSlot, decodeSlot, hmake]
  cases hdirent : makeDirentFromString data (slotAddr j) with
  | none => rfl
  | some dirent => rw [Option.map_some, Option.map_some, name_makeDirent hdirent, hname]

/-- Behind the slot there is the `NUL` of `sprintf`. -/
theorem makeString_next :
    makeStringFromDirent data a name num (a + fileNameEntry) = 0 := by
  have hin : a ≤ a + fileNameEntry ∧ a + fileNameEntry < a + (direntString name num).length := by
    rw [length_direntString]
    omega
  rw [makeStringFromDirent, Memory.write_of_mem hin, Nat.add_sub_cancel_left, direntString,
    List.getD_append_right _ _ _ _ (by simp [fileNameLength, fileNameEntry, inodeSize])]
  simp [fileNameLength, fileNameEntry, inodeSize]

/-- No other byte is written. -/
theorem makeString_of_ne {i : Nat} (hout : ¬ (a ≤ i ∧ i < a + fileNameEntry))
    (hne : i ≠ a + fileNameEntry) : makeStringFromDirent data a name num i = data i := by
  refine Memory.write_of_not_mem ?_
  rw [length_direntString]
  omega

/-- **An entry touches only its slot exactly where the byte behind the slot is zero.** -/
theorem touchesOnly_iff (data : Memory) (k : Nat) (name : List UInt8) (num : Nat) :
    TouchesOnly data k name num ↔ data (slotAddr k + fileNameEntry) = 0 := by
  constructor
  · rintro ⟨hsame, -⟩
    rw [← hsame (slotAddr k + fileNameEntry) (by omega)]
    exact makeString_next
  · intro hzero
    have hsame : ∀ i, ¬ (slotAddr k ≤ i ∧ i < slotAddr k + fileNameEntry) →
        makeStringFromDirent data (slotAddr k) name num i = data i := by
      intro i hout
      by_cases hi : i = slotAddr k + fileNameEntry
      · rw [hi, makeString_next, hzero]
      · exact makeString_of_ne hout hi
    exact ⟨hsame, fun j hj => decodeSlot_congr fun i hi => hsame _ (slotAddr_disjoint hj hi)⟩

/-- An empty data region. -/
theorem touchesOnly_iff_zero : TouchesOnly (fun _ => 0) 63 [97] 10 :=
  (touchesOnly_iff (fun _ => 0) 63 [97] 10).mpr rfl

/-- The last slot of a data block, and a file with a byte `1` in the block behind it. -/
theorem not_touchesOnly :
    ¬ ∀ (data : Memory) (k : Nat) (name : List UInt8) (num : Nat), num ≤ 2 ^ 31 - 1 →
      TouchesOnly data k name num := by
  intro h
  have hsame := (h (fun _ => 1) 63 [97] 10 (by decide)).1 (slotAddr 63 + fileNameEntry) (by omega)
  have hzero : makeStringFromDirent (fun _ => 1) (slotAddr 63) [97] 10
      (slotAddr 63 + fileNameEntry) = 0 := makeString_next
  exact absurd (hzero.symm.trans hsame) (by decide)

end SystemProgramming.Minixfs
