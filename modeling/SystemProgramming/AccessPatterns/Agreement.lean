import Mathlib.Data.List.TakeWhile
import SystemProgramming.AccessPatterns.Lookup

/-!
# Where the two lookups agree

`lookup1` compares the target with the beginning of a word, into a buffer that has no room for a
longer word than the target. And the signed byte `0xFF` equals `EOF`, so a word is read up to its
first `0xFF` only. This misleads the search where the target goes on as the word does up to there
and is not greater than the word: `lookup1` then takes the target for the word, or for greater.

## Main definitions

* `turn`: what a search does at a node
* `seen`: the part of a word that `lookup1` reads
* `Misread`: a word that misleads `lookup1`
* `Clear`: no word on the path of `lookup2` is too long for the buffer of `lookup1`, and none
  misleads it, but for one of a node without children

## Main results

* `turn_readAtMost`, `turn_misread`: the turn of `lookup1` is that of `lookup2`, or the wrong one
* `lookups_agree_iff`: the two searches visit the same nodes and print the same, exactly where
  the path is clear
-/

namespace SystemProgramming.Lookup

variable {a b : UInt8} {target word u v : List UInt8} {r : Nat}

/-! ## The comparison -/

/-- What a search does: it has found the word, or turns left or right. -/
def turn (target word : List UInt8) : Ordering :=
  if strcmp target word = 0 then .eq else if strcmp target word < 0 then .lt else .gt

@[simp] theorem turn_nil_nil : turn [] [] = .eq := rfl

theorem toNat_pos (hb : b ≠ 0) : 0 < b.toNat := by
  rw [Nat.pos_iff_ne_zero, Ne, ← UInt8.toNat_zero, UInt8.toNat_inj]
  exact hb

theorem turn_nil_cons (hb : b ≠ 0) : turn [] (b :: v) = .lt := by
  have hpos := toNat_pos hb
  have hneg : strcmp [] (b :: v) < 0 := by
    rw [strcmp]
    omega
  rw [turn, if_neg hneg.ne, if_pos hneg]

theorem turn_cons_nil (ha : a ≠ 0) : turn (a :: u) [] = .gt := by
  have hpos : 0 < strcmp (a :: u) [] := by
    rw [strcmp]
    exact_mod_cast toNat_pos ha
  rw [turn, if_neg hpos.ne', if_neg hpos.not_gt]

@[simp] theorem turn_cons_self : turn (a :: u) (a :: v) = turn u v := by
  rw [turn, turn, strcmp, if_pos rfl]

/-- Different bytes decide. -/
theorem turn_cons_of_ne (hab : a ≠ b) : turn (a :: u) (b :: v) = turn [a] [b] := by
  simp [turn, strcmp, hab]

theorem turn_eq_iff (hu : ∀ x ∈ u, x ≠ 0) (hv : ∀ x ∈ v, x ≠ 0) : turn u v = .eq ↔ u = v := by
  induction u generalizing v with
  | nil =>
    cases v with
    | nil => simp
    | cons b v => simp [turn_nil_cons (hv b (by simp))]
  | cons a u ih =>
    cases v with
    | nil => simp [turn_cons_nil (hu a (by simp))]
    | cons b v =>
      by_cases hab : a = b
      · rw [hab, turn_cons_self, List.cons_inj_right]
        exact ih (fun x hx => hu x (by simp [hx])) fun x hx => hv x (by simp [hx])
      · have hne : a.toNat ≠ b.toNat := fun h => hab (UInt8.toNat_inj.mp h)
        rw [turn_cons_of_ne hab, List.cons.injEq, turn, strcmp, if_neg hab]
        refine iff_of_false ?_ fun h => hab h.1
        split_ifs <;> first | omega | simp

/-! ## What `lookup1` reads -/

theorem char_eq_zero : char b.toNat = 0 ↔ b = 0 := by
  have hlt := b.toNat_lt
  rw [← UInt8.toNat_inj, char, Int.bmod_def]
  have hzero : (0 : UInt8).toNat = 0 := rfl
  omega

theorem char_eq_eof : char b.toNat = eof ↔ b = 255 := by
  have hlt := b.toNat_lt
  rw [← UInt8.toNat_inj, char, Int.bmod_def, eof]
  have hff : (255 : UInt8).toNat = 255 := rfl
  omega

theorem byte_char : byte (char b.toNat) = b := by
  have hlt := b.toNat_lt
  rw [byte, char, ← UInt8.toNat_inj, UInt8.toNat_ofNat', Int.bmod_def]
  omega

theorem readAtMost_stop {input : List UInt8}
    (h : char (fgetc input) = eof ∨ char (fgetc input) = 0) : readAtMost r input = some [] := by
  have hstop : ¬ (char (fgetc input) ≠ eof ∧ char (fgetc input) ≠ 0) := by
    rintro ⟨heof, hzero⟩
    exact h.elim heof hzero
  cases r with
  | zero => rw [readAtMost, if_neg hstop]
  | succ r => rw [readAtMost, if_neg hstop]

/-- The word as `lookup1` has it. -/
def seen (word : List UInt8) : List UInt8 := word.takeWhile (· ≠ 255)

/-- **`read_at_most` reads up to the end of the word or its first `0xFF`**, or leaves its buffer. -/
theorem readAtMost_eq {rest : List UInt8} (hword : ∀ x ∈ word, x ≠ 0) :
    readAtMost r (word ++ 0 :: rest) =
      if (seen word).length ≤ r then some (seen word) else none := by
  -- the loop of `read_at_most` goes through the bytes of the word
  induction word generalizing r with
  | nil =>
    have hstop : char (fgetc (0 :: rest)) = 0 := by
      rw [fgetc]
      exact char_eq_zero.mpr rfl
    rw [List.nil_append, readAtMost_stop (Or.inr hstop)]
    rfl
  | cons b word ih =>
    have hb : b ≠ 0 := hword b (by simp)
    have hrest : ∀ x ∈ word, x ≠ 0 := fun x hx => hword x (by simp [hx])
    -- the byte 255 is a negative `char`, the same as `EOF`
    by_cases hff : b = 255
    · have hstop : char (fgetc (b :: (word ++ 0 :: rest))) = eof := by
        rw [fgetc]
        exact char_eq_eof.mpr hff
      rw [List.cons_append, readAtMost_stop (Or.inl hstop), hff]
      simp [seen]
    · have hgo : char (fgetc (b :: (word ++ 0 :: rest))) ≠ eof ∧
          char (fgetc (b :: (word ++ 0 :: rest))) ≠ 0 := by
        rw [fgetc]
        exact ⟨fun h => hff (char_eq_eof.mp h), fun h => hb (char_eq_zero.mp h)⟩
      have hbyte : byte (char (fgetc (b :: (word ++ 0 :: rest)))) = b := by
        rw [fgetc]
        exact byte_char
      have hseen : seen (b :: word) = b :: seen word :=
        List.takeWhile_cons_of_pos (by simpa using hff)
      rw [List.cons_append, hseen, List.length_cons]
      -- behind the last byte of the block there is no place for the zero
      cases r with
      | zero => rw [readAtMost, if_pos hgo, if_neg (by omega)]
      | succ r =>
        rw [readAtMost, if_pos hgo, hbyte, List.tail_cons, ih hrest]
        by_cases hle : (seen word).length ≤ r
        · rw [if_pos hle, if_pos (by omega)]
          rfl
        · rw [if_neg hle, if_neg (by omega)]
          rfl

/-- A word that misleads `lookup1`: the target goes on like the word up to its first `0xFF`, and
is not greater than the word. -/
def Misread (target word : List UInt8) : Prop :=
  255 ∈ word ∧ seen word <+: target ∧ turn target word ≠ .gt

theorem seen_cons (hb : b ≠ 255) : seen (b :: v) = b :: seen v :=
  List.takeWhile_cons_of_pos (by simpa using hb)

@[simp] theorem seen_stop : seen (255 :: v) = [] := by simp [seen]

theorem misread_cons (hb : b ≠ 255) : Misread (b :: u) (b :: v) ↔ Misread u v := by
  rw [Misread, Misread, turn_cons_self, seen_cons hb, List.cons_prefix_cons]
  simp [Ne.symm hb]

/-- **`lookup1` turns as `lookup2` does, unless it is misled.** -/
theorem turn_seen (htarget : ∀ x ∈ target, x ≠ 0) (hword : ∀ x ∈ word, x ≠ 0)
    (h : ¬ Misread target word) : turn target (seen word) = turn target word := by
  induction target generalizing word with
  | nil =>
    cases word with
    | nil => rfl
    | cons b word =>
      have hb : b ≠ 0 := hword b (by simp)
      by_cases hff : b = 255
      · refine (h ⟨by simp [hff], by simp [hff], ?_⟩).elim
        rw [turn_nil_cons hb]
        decide
      · rw [seen_cons hff, turn_nil_cons hb, turn_nil_cons hb]
  | cons a target ih =>
    have ha : a ≠ 0 := htarget a (by simp)
    have htail : ∀ x ∈ target, x ≠ 0 := fun x hx => htarget x (by simp [hx])
    cases word with
    | nil => rfl
    | cons b word =>
      have hrest : ∀ x ∈ word, x ≠ 0 := fun x hx => hword x (by simp [hx])
      by_cases hff : b = 255
      · -- the word is cut before its first byte, so the target has to be greater
        rw [hff, seen_stop, turn_cons_nil ha]
        by_contra hne
        exact h ⟨by simp [hff], by simp [hff], fun hgt => hne (by rw [← hff, hgt])⟩
      · rw [seen_cons hff]
        by_cases hab : a = b
        · subst hab
          rw [turn_cons_self, turn_cons_self]
          exact ih htail hrest fun hmis => h ((misread_cons hff).mpr hmis)
        · exact (turn_cons_of_ne hab).trans (turn_cons_of_ne hab).symm

/-- The turn of a misled `lookup1`. -/
theorem turn_misread (htarget : ∀ x ∈ target, x ≠ 0) (h : Misread target word) :
    turn target (seen word) = if seen word = target then .eq else .gt := by
  obtain ⟨-, ⟨more, hmore⟩, -⟩ := h
  generalize seen word = p at hmore
  subst hmore
  induction p with
  | nil =>
    cases more with
    | nil => rfl
    | cons a more => exact turn_cons_nil (htarget a (by simp))
  | cons c p ih =>
    rw [List.cons_append, turn_cons_self, ih fun x hx => htarget x (by simp [hx])]
    simp

/-- A word that misleads `lookup1` is not too long for it. -/
theorem Misread.length_le (h : Misread target word) : (seen word).length ≤ target.length :=
  h.2.1.length_le

/-! ## The searches -/

variable {file : List UInt8} {wordAt : Nat → Option (List UInt8)} {fuel off : Nat}
  {out out' : List Nat × Answer} {left right tree : Tree}

/-- A node in front of a path. -/
def visit (off : Nat) (out : List Nat × Answer) : List Nat × Answer := (off :: out.1, out.2)

theorem visit_inj : visit off out = visit off out' ↔ out = out' := by
  simp [visit, Prod.ext_iff]

theorem map_visit {r : Option (List Nat × Answer)} :
    r.map (visit off) = some (visit off out) ↔ r = some out := by
  rw [Option.map_eq_some_iff]
  refine ⟨fun ⟨out', h, hvisit⟩ => ?_, fun h => ⟨out, h, rfl⟩⟩
  rw [h, visit_inj.mp hvisit]

/-- What a search does at a node, given how it turns and what it does at the children. -/
def outcome (off : Nat) (found : Nat × Nat) (atLeft atRight : Option (List Nat × Answer)) :
    Ordering → Option (List Nat × Answer)
  | .eq => some ([off], some found)
  | .lt => atLeft.map (visit off)
  | .gt => atRight.map (visit off)

theorem outcome_turn (found : Nat × Nat) (atLeft atRight : Option (List Nat × Answer)) :
    outcome off found atLeft atRight (turn target word) =
      if strcmp target word = 0 then some ([off], some found)
      else if strcmp target word < 0 then atLeft.map (visit off) else atRight.map (visit off) := by
  rw [turn]
  split_ifs <;> rfl

@[simp] theorem searchBy_zero : searchBy file target wordAt fuel 0 = some ([], none) := by
  cases fuel <;> rfl

theorem searchBy_node {count price : Nat} (h : Stored file (.node off count price word left right)) :
    searchBy file target wordAt (fuel + 1) off = (wordAt off).bind fun w =>
      outcome off (count, price) (searchBy file target wordAt fuel left.offset)
        (searchBy file target wordAt fuel right.offset) (turn target w) := by
  obtain ⟨hoff, hnode, -⟩ := h
  obtain ⟨off, rfl⟩ := Nat.exists_eq_succ_of_ne_zero hoff
  simp only [searchBy, hnode, outcome_turn, Option.bind_eq_bind]
  rfl

/-- The word of a node as `lookup1` reads it. -/
theorem searchWord1_node {count price : Nat}
    (h : Stored file (.node off count price word left right))
    (hlen : (seen word).length ≤ target.length) :
    searchWord1 file target (fuel + 1) off =
      outcome off (count, price) (searchWord1 file target fuel left.offset)
        (searchWord1 file target fuel right.offset) (turn target (seen word)) := by
  obtain ⟨-, -, ⟨rest, hrest⟩, hword, -⟩ := id h
  rw [searchWord1, searchBy_node h, hrest, readAtMost_eq hword, if_pos hlen]
  rfl

/-- A word that is too long leaves the buffer. -/
theorem searchWord1_long {count price : Nat}
    (h : Stored file (.node off count price word left right))
    (hlen : ¬ (seen word).length ≤ target.length) :
    searchWord1 file target (fuel + 1) off = none := by
  obtain ⟨-, -, ⟨rest, hrest⟩, hword, -⟩ := id h
  rw [searchWord1, searchBy_node h, hrest, readAtMost_eq hword, if_neg hlen]
  rfl

/-- The word of a node as `lookup2` reads it. -/
theorem searchWord2_node {count price : Nat}
    (h : Stored file (.node off count price word left right)) :
    searchWord2 file target (fuel + 1) off =
      outcome off (count, price) (searchWord2 file target fuel left.offset)
        (searchWord2 file target fuel right.offset) (turn target word) := by
  obtain ⟨-, -, ⟨rest, hrest⟩, hword, -⟩ := id h
  have hcurr : (word ++ 0 :: rest).takeWhile (· ≠ 0) = word := by
    rw [List.takeWhile_append_of_pos fun x hx => by simpa using hword x hx]
    simp
  rw [searchWord2, searchBy_node h, hrest, hcurr]
  rfl

/-- The search of `lookup2` comes to an end within the height of the tree. -/
theorem exists_searchWord2 (h : Stored file tree) (hfuel : tree.height ≤ fuel) :
    ∃ out, searchWord2 file target fuel tree.offset = some out := by
  induction tree generalizing fuel with
  | nil => exact ⟨_, searchBy_zero⟩
  | node off count price word left right ihLeft ihRight =>
    rw [Tree.height] at hfuel
    obtain ⟨fuel, rfl⟩ : ∃ k, fuel = k + 1 := Nat.exists_eq_succ_of_ne_zero (by omega)
    have hheightLeft : left.height ≤ fuel := by omega
    have hheightRight : right.height ≤ fuel := by omega
    obtain ⟨out₁, hleft⟩ := ihLeft h.2.2.2.2.2.1 hheightLeft
    obtain ⟨out₂, hright⟩ := ihRight h.2.2.2.2.2.2 hheightRight
    rw [Tree.offset, searchWord2_node h, hleft, hright]
    cases turn target word <;> exact ⟨_, rfl⟩

/-- A search begins at its offset. -/
theorem head_searchBy (h : searchBy file target wordAt fuel off = some out) :
    out.1.head? = if off = 0 then none else some off := by
  cases off with
  | zero =>
    rw [searchBy_zero] at h
    obtain rfl := Option.some.inj h
    rfl
  | succ off =>
    cases fuel with
    | zero => cases h
    | succ fuel =>
      simp only [searchBy, Option.bind_eq_bind] at h
      obtain ⟨w, -, h⟩ := Option.bind_eq_some_iff.mp h
      split_ifs at h
      · obtain rfl := Option.some.inj h
        rfl
      · obtain ⟨next, -, rfl⟩ := Option.map_eq_some_iff.mp h
        rfl
      · obtain ⟨next, -, rfl⟩ := Option.map_eq_some_iff.mp h
        rfl

/-- A search that visits no node has found nothing. -/
theorem ne_found_of_searchBy {found : Nat × Nat}
    (h : searchBy file target wordAt fuel off = some out) : out ≠ ([], some found) := by
  rintro rfl
  have hhead := head_searchBy h
  by_cases hoff : off = 0
  · subst hoff
    rw [searchBy_zero] at h
    cases h
  · rw [if_neg hoff] at hhead
    cases hhead

/-! ## Agreement -/

/-- No word on the path of `lookup2` has more bytes than the target before its first `0xFF` or its
end, and none misleads `lookup1`, unless its node has no children, and the target is neither the
word nor its part before the first `0xFF`. -/
def Clear (target : List UInt8) : Tree → Prop
  | .nil => True
  | .node _ _ _ word left right =>
    (seen word).length ≤ target.length ∧
    (Misread target word → word ≠ target ∧ seen word ≠ target ∧
      left.offset = 0 ∧ right.offset = 0) ∧
    match turn target word with
    | .lt => Clear target left
    | .eq => True
    | .gt => Clear target right

theorem seen_ne_of_mem (h : 255 ∈ word) : seen word ≠ word := by
  intro heq
  rw [← heq, seen] at h
  simpa using List.mem_takeWhile_imp h

theorem clear_of_offset (h : Stored file tree) (hoff : tree.offset = 0) : Clear target tree := by
  cases tree with
  | nil => trivial
  | node off count price word left right => exact (h.1 hoff).elim

/-- At a node whose word misleads `lookup1`, the searches part for good, unless they both come to
an end there. -/
theorem misread_node {count price : Nat} (h : Stored file (.node off count price word left right))
    (htarget : ∀ x ∈ target, x ≠ 0) (hmis : Misread target word)
    (hleft : searchWord2 file target fuel left.offset = some out) :
    ∃ out₂, searchWord2 file target (fuel + 1) off = some out₂ ∧
      (searchWord1 file target (fuel + 1) off = some out₂ ↔
        Clear target (.node off count price word left right)) := by
  obtain ⟨-, -, -, hword, hchildren, hstoredLeft, -⟩ := id h
  rw [searchWord1_node h hmis.length_le, searchWord2_node h, turn_misread htarget hmis, hleft]
  by_cases hfound : word = target
  · -- `lookup2` has found the word, `lookup1` turns right
    have hpart : seen word ≠ target := hfound ▸ seen_ne_of_mem hmis.1
    rw [if_neg hpart, (turn_eq_iff htarget hword).mpr hfound.symm]
    refine ⟨_, rfl, iff_of_false (fun heq => ?_) fun hclear => (hclear.2.1 hmis).1 hfound⟩
    obtain ⟨out', hright, hsame⟩ := Option.map_eq_some_iff.mp heq
    have hfirst : out' = ([], some (count, price)) := visit_inj.mp hsame
    exact ne_found_of_searchBy hright hfirst
  · have hturn : turn target word = .lt := by
      cases hcase : turn target word with
      | lt => rfl
      | eq => exact (hfound ((turn_eq_iff htarget hword).mp hcase).symm).elim
      | gt => exact (hmis.2.2 hcase).elim
    rw [hturn]
    by_cases hpart : seen word = target
    · -- `lookup1` takes the beginning for the word, `lookup2` turns left
      rw [if_pos hpart]
      refine ⟨visit off out, rfl, iff_of_false (fun heq => ?_) fun hclear =>
        (hclear.2.1 hmis).2.1 hpart⟩
      have hsame : out = ([], some (count, price)) := visit_inj.mp (Option.some.inj heq).symm
      exact ne_found_of_searchBy hleft hsame
    · -- `lookup1` turns right, `lookup2` turns left
      rw [if_neg hpart]
      refine ⟨visit off out, rfl, ?_⟩
      have hheadLeft := head_searchBy hleft
      constructor
      · intro heq
        obtain ⟨out', hright, hsame⟩ := Option.map_eq_some_iff.mp heq
        have hheadRight := head_searchBy hright
        rw [visit_inj.mp hsame, hheadLeft] at hheadRight
        have hoffset : left.offset = right.offset := by
          by_cases hl : left.offset = 0 <;> by_cases hr : right.offset = 0 <;>
            simp_all
        have hzero : left.offset = 0 := hchildren hoffset
        refine ⟨hmis.length_le, fun _ => ⟨hfound, hpart, hzero, hoffset ▸ hzero⟩, ?_⟩
        rw [hturn]
        exact clear_of_offset hstoredLeft hzero
      · intro hclear
        obtain ⟨-, -, hl, hr⟩ := hclear.2.1 hmis
        rw [hl, searchWord2, searchBy_zero] at hleft
        rw [hr, searchWord1, outcome, searchBy_zero, hleft]
        rfl

/-- **The two lookups agree exactly where the path is clear.** For a file that holds a finite
tree of words of nonzero bytes, and a target of nonzero bytes, the search of `lookup2` comes to an
end, and that of `lookup1` does so too, visits the same nodes and prints the same, if and only if no
word on the path of `lookup2` is too long for the buffer of `lookup1` or misleads it. -/
theorem lookups_agree_iff (h : Stored file tree) (htarget : ∀ x ∈ target, x ≠ 0)
    (hfuel : tree.height ≤ fuel) :
    ∃ out, searchWord2 file target fuel tree.offset = some out ∧
      (searchWord1 file target fuel tree.offset = some out ↔ Clear target tree) := by
  induction tree generalizing fuel with
  | nil => exact ⟨_, searchBy_zero, iff_of_true searchBy_zero trivial⟩
  | node off count price word left right ihLeft ihRight =>
    obtain ⟨-, -, -, hword, -, hstoredLeft, hstoredRight⟩ := id h
    rw [Tree.height] at hfuel
    have hheight : max left.height right.height + 1 ≤ fuel := hfuel
    obtain ⟨fuel, rfl⟩ : ∃ k, fuel = k + 1 := Nat.exists_eq_succ_of_ne_zero (by omega)
    have hheightLeft : left.height ≤ fuel := by omega
    have hheightRight : right.height ≤ fuel := by omega
    by_cases hlen : (seen word).length ≤ target.length
    · by_cases hmis : Misread target word
      · obtain ⟨out, hleft⟩ : ∃ out, searchWord2 file target fuel left.offset = some out :=
          exists_searchWord2 hstoredLeft hheightLeft
        exact misread_node h htarget hmis hleft
      · -- both turn the same way
        rw [Tree.offset, searchWord1_node h hlen, searchWord2_node h, turn_seen htarget hword hmis]
        have hclear : Clear target (.node off count price word left right) ↔
            match turn target word with
            | .lt => Clear target left
            | .eq => True
            | .gt => Clear target right :=
          ⟨fun hclear => hclear.2.2, fun hclear => ⟨hlen, fun hm => (hmis hm).elim, hclear⟩⟩
        rw [hclear]
        cases hturn : turn target word with
        | eq => exact ⟨_, rfl, iff_of_true rfl trivial⟩
        | lt =>
          obtain ⟨out, hsearch, hiff⟩ := ihLeft hstoredLeft hheightLeft
          exact ⟨visit off out, by rw [hsearch]; rfl, map_visit.trans hiff⟩
        | gt =>
          obtain ⟨out, hsearch, hiff⟩ := ihRight hstoredRight hheightRight
          exact ⟨visit off out, by rw [hsearch]; rfl, map_visit.trans hiff⟩
    · -- `lookup1` leaves its buffer
      obtain ⟨out, hsearch⟩ := @exists_searchWord2 target file _ _ h hfuel
      refine ⟨out, hsearch, iff_of_false (fun heq => ?_) fun hclear => hlen hclear.1⟩
      rw [Tree.offset, searchWord1_long h hlen] at heq
      cases heq

/-! ## A file with a byte `0xFF` -/

/-- The root is the word `a` and a byte `0xFF`, with count `1`; its left child is the word `a`,
with count `7`. -/
def umlautFile : List UInt8 :=
  [66, 84, 82, 69] ++
  [23, 0, 0, 0, 0, 0, 0, 0, 1, 0, 0, 0, 0, 0, 128, 63, 97, 255, 0] ++
  [0, 0, 0, 0, 0, 0, 0, 0, 7, 0, 0, 0, 0, 0, 0, 64, 97, 0]

def umlautTree : Tree :=
  .node 4 1 1065353216 [97, 255] (.node 23 7 1073741824 [97] .nil .nil) .nil

theorem stored_umlautTree : Stored umlautFile umlautTree :=
  ⟨by decide, by decide +kernel, ⟨_, rfl⟩, by simp, by decide,
    ⟨by decide, by decide +kernel, ⟨_, rfl⟩, by simp, by decide, trivial, trivial⟩, trivial⟩

theorem lookups_agree_umlautFile :
    ∃ out, searchWord1 umlautFile [98] 2 4 = some out ∧
      searchWord2 umlautFile [98] 2 4 = some out := by
  have htarget : ∀ x ∈ ([98] : List UInt8), x ≠ 0 := by simp
  have hheight : umlautTree.height ≤ 2 := by decide
  obtain ⟨out, h₂, hiff⟩ := lookups_agree_iff stored_umlautTree htarget hheight
  have hmis : ¬ Misread [98] [97, 255] := fun h => absurd h.2.1 (by decide)
  exact ⟨out, hiff.mpr ⟨by decide, fun h => (hmis h).elim, trivial⟩, h₂⟩

/-- `lookup1` takes the root for the word `a`. -/
theorem lookups_differ_umlautFile :
    Stored umlautFile umlautTree ∧
    searchWord1 umlautFile [97] 2 umlautTree.offset = some ([4], some (1, 1065353216)) ∧
    searchWord2 umlautFile [97] 2 umlautTree.offset = some ([4, 23], some (7, 1073741824)) ∧
    searchWord1 umlautFile [97] 2 umlautTree.offset ≠
      searchWord2 umlautFile [97] 2 umlautTree.offset :=
  ⟨stored_umlautTree, by decide +kernel, by decide +kernel, by decide +kernel⟩

end SystemProgramming.Lookup
