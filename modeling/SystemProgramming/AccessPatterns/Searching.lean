import SystemProgramming.AccessPatterns.Agreement

/-!
# The search of `lookup2`

A tree of distinct words in the order of `strcmp` is a map from words to counts and prices. The
search of `lookup2` computes that map: it goes on on the one side of a node where the word can be.

## Main definitions

* `Tree.entries`: the words of a tree with their counts and prices, from left to right
* `Tree.Ordered`: the words increase from left to right

## Main results

* `searchWord2_found`, `searchWord2_notFound`: what the search answers, for a word of the tree and
  for any other
* `searchWord2_correct`: the search comes to an end, with the answer that the tree has for the word
-/

namespace SystemProgramming.Lookup

/-! ## Trees as maps -/

/-- A word with its count and its price. -/
abbrev Entry := List UInt8 × Nat × Nat

/-- The entries of a tree, from left to right. -/
def Tree.entries : Tree → List Entry
  | .nil => []
  | .node _ count price word left right =>
    left.entries ++ (word, count, price) :: right.entries

/-- A binary search tree of distinct words. -/
def Tree.Ordered (tree : Tree) : Prop :=
  tree.entries.Pairwise fun e e' => strcmp e.1 e'.1 < 0

/-- `BINTREE_ROOT_NODE_OFFSET`. -/
def rootNodeOffset : Nat := 4

variable {file target word : List UInt8} {tree left right : Tree} {e : Entry}
  {off count price fuel : Nat}

theorem mem_entries_node :
    e ∈ (Tree.node off count price word left right).entries ↔
      e ∈ left.entries ∨ e = (word, count, price) ∨ e ∈ right.entries := by
  rw [Tree.entries, List.mem_append, List.mem_cons]

/-- At a node, the words on the left are less and those on the right are greater. -/
theorem Tree.Ordered.node (h : (Tree.node off count price word left right).Ordered) :
    left.Ordered ∧ right.Ordered ∧ (∀ e ∈ left.entries, strcmp e.1 word < 0) ∧
      ∀ e ∈ right.entries, strcmp word e.1 < 0 := by
  rw [Tree.Ordered, Tree.entries, List.pairwise_append, List.pairwise_cons] at h
  obtain ⟨hleft, ⟨hgreater, hright⟩, hless⟩ := h
  exact ⟨hleft, hright, fun e he => hless e he _ List.mem_cons_self, hgreater⟩

theorem strcmp_swap {u v : List UInt8} : strcmp v u = -strcmp u v := by
  induction u generalizing v with
  | nil => cases v <;> simp [strcmp]
  | cons a u ih =>
    cases v with
    | nil => simp [strcmp]
    | cons b v =>
      rw [strcmp, strcmp]
      by_cases hab : a = b
      · rw [if_pos hab, if_pos hab.symm, ih]
      · rw [if_neg hab, if_neg (Ne.symm hab)]
        omega

theorem turn_eq_lt_iff {u v : List UInt8} : turn u v = .lt ↔ strcmp u v < 0 := by
  rw [turn]
  split_ifs with heq hlt
  · simp [heq]
  · simp [hlt]
  · simp [hlt]

theorem turn_eq_gt_iff {u v : List UInt8} : turn u v = .gt ↔ 0 < strcmp u v := by
  rw [turn]
  split_ifs with heq hlt
  · simp [heq]
  · simp [hlt.le]
  · simpa using lt_of_le_of_ne (not_lt.mp hlt) (Ne.symm heq)

/-! ## Answers -/

/-- **For a word of the tree, the search answers with its count and price.** -/
theorem searchWord2_found (h : Stored file tree) (hord : tree.Ordered)
    (htarget : ∀ x ∈ target, x ≠ 0) (hfuel : tree.height ≤ fuel)
    (hmem : (target, count, price) ∈ tree.entries) :
    ∃ visited, searchWord2 file target fuel tree.offset =
      some (visited, some (count, price)) := by
  induction tree generalizing fuel with
  | nil => cases hmem
  | node off count' price' word left right ihLeft ihRight =>
    obtain ⟨-, -, -, hword, -, hstoredLeft, hstoredRight⟩ := id h
    obtain ⟨hordLeft, hordRight, hless, hgreater⟩ := hord.node
    rw [Tree.height] at hfuel
    obtain ⟨fuel, rfl⟩ : ∃ k, fuel = k + 1 := Nat.exists_eq_succ_of_ne_zero (by omega)
    have hheightLeft : left.height ≤ fuel := by omega
    have hheightRight : right.height ≤ fuel := by omega
    rw [Tree.offset, searchWord2_node h]
    -- the side of the entry is the side that the search turns to
    rcases mem_entries_node.mp hmem with hmem | heq | hmem
    · rw [turn_eq_lt_iff.mpr (hless _ hmem)]
      obtain ⟨visited, hvisited⟩ := ihLeft hstoredLeft hordLeft hheightLeft hmem
      exact ⟨off :: visited, by rw [outcome, hvisited]; rfl⟩
    · obtain ⟨rfl, rfl, rfl⟩ : target = word ∧ count = count' ∧ price = price' := by simpa using heq
      rw [(turn_eq_iff htarget hword).mpr rfl]
      exact ⟨[off], rfl⟩
    · have hgt : 0 < strcmp target word := by
        have hlt : strcmp word target < 0 := hgreater _ hmem
        rw [strcmp_swap]
        omega
      rw [turn_eq_gt_iff.mpr hgt]
      obtain ⟨visited, hvisited⟩ := ihRight hstoredRight hordRight hheightRight hmem
      exact ⟨off :: visited, by rw [outcome, hvisited]; rfl⟩

/-- **For any other word, the search answers that the word is not found.** The order does not
matter here. -/
theorem searchWord2_notFound (h : Stored file tree) (htarget : ∀ x ∈ target, x ≠ 0)
    (hfuel : tree.height ≤ fuel) (hnot : ∀ e ∈ tree.entries, e.1 ≠ target) :
    ∃ visited, searchWord2 file target fuel tree.offset = some (visited, none) := by
  induction tree generalizing fuel with
  | nil => exact ⟨[], searchBy_zero⟩
  | node off count price word left right ihLeft ihRight =>
    obtain ⟨-, -, -, hword, -, hstoredLeft, hstoredRight⟩ := id h
    rw [Tree.height] at hfuel
    obtain ⟨fuel, rfl⟩ : ∃ k, fuel = k + 1 := Nat.exists_eq_succ_of_ne_zero (by omega)
    have hheightLeft : left.height ≤ fuel := by omega
    have hheightRight : right.height ≤ fuel := by omega
    rw [Tree.offset, searchWord2_node h]
    cases hturn : turn target word with
    | lt =>
      obtain ⟨visited, hvisited⟩ := ihLeft hstoredLeft hheightLeft fun e he =>
        hnot e (mem_entries_node.mpr (Or.inl he))
      exact ⟨off :: visited, by rw [outcome, hvisited]; rfl⟩
    | eq =>
      have hsame : target = word := (turn_eq_iff htarget hword).mp hturn
      exact (hnot _ (mem_entries_node.mpr (Or.inr (Or.inl rfl))) hsame.symm).elim
    | gt =>
      obtain ⟨visited, hvisited⟩ := ihRight hstoredRight hheightRight fun e he =>
        hnot e (mem_entries_node.mpr (Or.inr (Or.inr he)))
      exact ⟨off :: visited, by rw [outcome, hvisited]; rfl⟩

/-- **The lookup is correct.** In a file that holds a binary search tree of distinct words with
its root behind the header, the search for any word comes to an end. It answers with a count and
a price exactly if the tree has the word with them, and with nothing exactly if the tree does not
have the word. -/
theorem searchWord2_correct (h : Stored file tree) (hroot : tree.offset = rootNodeOffset)
    (hord : tree.Ordered) (htarget : ∀ x ∈ target, x ≠ 0) (hfuel : tree.height ≤ fuel) :
    ∃ visited answer, searchWord2 file target fuel rootNodeOffset = some (visited, answer) ∧
      (∀ count price, answer = some (count, price) ↔ (target, count, price) ∈ tree.entries) ∧
      (answer = none ↔ ∀ e ∈ tree.entries, e.1 ≠ target) := by
  rw [← hroot]
  by_cases hmem : ∃ e ∈ tree.entries, e.1 = target
  · obtain ⟨⟨found, count, price⟩, hmem, rfl⟩ := hmem
    obtain ⟨visited, hvisited⟩ := searchWord2_found h hord htarget hfuel hmem
    refine ⟨visited, some (count, price), hvisited, fun count' price' => ⟨?_, fun hmem' => ?_⟩, ?_⟩
    · intro heq
      obtain ⟨rfl, rfl⟩ : count = count' ∧ price = price' := by simpa using heq
      exact hmem
    · -- the search has one answer, so the tree has the word once
      obtain ⟨visited', hvisited'⟩ := searchWord2_found h hord htarget hfuel hmem'
      rw [hvisited] at hvisited'
      exact (Prod.ext_iff.mp (Option.some.inj hvisited')).2
    · exact iff_of_false (by simp) fun hnot => hnot _ hmem rfl
  · have hnot : ∀ e ∈ tree.entries, e.1 ≠ target := fun e he heq => hmem ⟨e, he, heq⟩
    obtain ⟨visited, hvisited⟩ := searchWord2_notFound h htarget hfuel hnot
    refine ⟨visited, none, hvisited, fun count price => iff_of_false (by simp) fun hmem' => ?_, ?_⟩
    · exact hnot _ hmem' rfl
    · exact iff_of_true rfl hnot

/-! ## The file of the format's description -/

/-- `sample.data`. -/
def sampleFile : List UInt8 :=
  [66, 84, 82, 69] ++
  [52, 0, 0, 0, 28, 0, 0, 0, 25, 0, 0, 0, 154, 153, 41, 65, 115, 97, 109, 112, 108, 101, 0, 0] ++
  [96, 0, 0, 0, 0, 0, 0, 0, 17, 0, 0, 0, 184, 30, 165, 63, 119, 111, 114, 100, 0, 0, 0, 0] ++
  [76, 0, 0, 0, 120, 0, 0, 0, 12, 0, 0, 0, 10, 215, 35, 61, 108, 105, 115, 116, 0, 0, 0, 0] ++
  [0, 0, 0, 0, 0, 0, 0, 0, 10, 0, 0, 0, 82, 184, 99, 66, 102, 111, 114, 0] ++
  [0, 0, 0, 0, 0, 0, 0, 0, 9, 0, 0, 0, 195, 245, 168, 62, 116, 104, 105, 115, 0, 0, 0, 0] ++
  [0, 0, 0, 0, 0, 0, 0, 0, 3, 0, 0, 0, 10, 215, 35, 60, 112, 114, 111, 103, 114, 97, 109, 0]

/-- The words `sample`, `list`, `for`, `program`, `word` and `this`. -/
def sampleTree : Tree :=
  .node 4 25 0x4129999A [115, 97, 109, 112, 108, 101]
    (.node 52 12 0x3D23D70A [108, 105, 115, 116]
      (.node 76 10 0x4263B852 [102, 111, 114] .nil .nil)
      (.node 120 3 0x3C23D70A [112, 114, 111, 103, 114, 97, 109] .nil .nil))
    (.node 28 17 0x3FA51EB8 [119, 111, 114, 100]
      (.node 96 9 0x3EA8F5C3 [116, 104, 105, 115] .nil .nil) .nil)

theorem stored_sampleTree : Stored sampleFile sampleTree :=
  ⟨by decide, by decide +kernel, ⟨_, rfl⟩, by simp, by decide,
    ⟨by decide, by decide +kernel, ⟨_, rfl⟩, by simp, by decide,
      ⟨by decide, by decide +kernel, ⟨_, rfl⟩, by simp, by decide, trivial, trivial⟩,
      ⟨by decide, by decide +kernel, ⟨_, rfl⟩, by simp, by decide, trivial, trivial⟩⟩,
    ⟨by decide, by decide +kernel, ⟨_, rfl⟩, by simp, by decide,
      ⟨by decide, by decide +kernel, ⟨_, rfl⟩, by simp, by decide, trivial, trivial⟩, trivial⟩⟩

theorem ordered_sampleTree : sampleTree.Ordered := by
  rw [Tree.Ordered]
  decide +kernel

/-- The word `program` is found with its count and price. -/
theorem searchWord2_correct_program :
    ∃ visited, searchWord2 sampleFile [112, 114, 111, 103, 114, 97, 109] 3 4 =
      some (visited, some (3, 0x3C23D70A)) := by
  have htarget : ∀ x ∈ ([112, 114, 111, 103, 114, 97, 109] : List UInt8), x ≠ 0 := by simp
  have hheight : sampleTree.height ≤ 3 := by decide
  obtain ⟨visited, answer, hsearch, hfound, -⟩ :=
    searchWord2_correct stored_sampleTree rfl ordered_sampleTree htarget hheight
  have hmem : ([112, 114, 111, 103, 114, 97, 109], 3, 0x3C23D70A) ∈ sampleTree.entries := by
    simp [sampleTree, Tree.entries]
  rw [(hfound 3 0x3C23D70A).mpr hmem] at hsearch
  exact ⟨visited, hsearch⟩

end SystemProgramming.Lookup
