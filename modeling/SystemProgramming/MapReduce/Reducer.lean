import SystemProgramming.Foundation.CStrings
import SystemProgramming.Foundation.Decimal
import SystemProgramming.Foundation.Lines
import SystemProgramming.Foundation.Run

/-!
# The reducer of `mapreduce`

A reducer reads the lines of all mappers, keeps one value for each key and prints the keys and
values at the end. Keys and values are strings, without their NUL. The search tree of the C
library, in which the datastore keeps its entries, is a parameter.

## Main definitions

* `TreeOps`, `TreeLaws`: the functions of `search.h` as an ordered map
* `datastoreGet`, `datastorePut`, `datastoreUpdate`, `datastoreIterate`: `core/libds.c`
* `splitKeyValue`: of `core/utils.c`
* `runReducerOn`: the loop of `core/reducer.c`
* `reducer`: `reducers/sum.c`

## Main results

* `reduceLines_eq`: the loop goes through the lines
* `sortedTree_laws`: a sorted list is an ordered map
-/

namespace SystemProgramming.MapReduce

/-! ## The datastore -/

/-- `datastore_entry_t`. -/
structure Entry where
  key : List UInt8
  value : List UInt8

/-- The functions of `search.h`, with `compare` for the order. An entry that `tfind` returns is
written in place; `twalk` visits each entry once as `postorder` or `leaf`. -/
structure TreeOps (T : Type) where
  null : T
  tfind : T → List UInt8 → Option Entry
  tsearch : T → Entry → T
  writeValue : T → List UInt8 → List UInt8 → T
  twalk : T → List Entry

/-- The tree is an ordered map, and is walked in order. -/
structure TreeLaws {T : Type} (ops : TreeOps T) : Prop where
  tfind_null : ∀ k, ops.tfind ops.null k = none
  tfind_tsearch : ∀ t e k, ops.tfind t e.key = none →
    ops.tfind (ops.tsearch t e) k = if k = e.key then some e else ops.tfind t k
  tfind_writeValue : ∀ t k v k', ops.tfind (ops.writeValue t k v) k' =
    if k' = k then (ops.tfind t k).map fun e => { e with value := v } else ops.tfind t k'
  sorted : ∀ t, (ops.twalk t).Pairwise fun e e' => e.key < e'.key
  mem_twalk : ∀ t e, e ∈ ops.twalk t ↔ ops.tfind t e.key = some e

section Datastore

variable {T : Type} (ops : TreeOps T)

/-- `datastore_put`: was the pair added? -/
def datastorePut (ds : T) (key value : List UInt8) : Bool × T :=
  if (ops.tfind ds key).isNone then (true, ops.tsearch ds ⟨key, value⟩) else (false, ds)

/-- `datastore_get`: a copy of the value. -/
def datastoreGet (ds : T) (key : List UInt8) : Option (List UInt8) :=
  (ops.tfind ds key).map Entry.value

/-- `datastore_update`: was the key there? -/
def datastoreUpdate (ds : T) (key value : List UInt8) : Bool × T :=
  if (ops.tfind ds key).isSome then (true, ops.writeValue ds key value) else (false, ds)

/-- `datastore_iterate`, for a function that prints. -/
def datastoreIterate (ds : T) (f : List UInt8 → List UInt8 → List UInt8) : List UInt8 :=
  (ops.twalk ds).flatMap fun e => f e.key e.value

end Datastore

/-! ## The loop -/

/-- `split_key_value`: the key and the value, unless the line is malformed. Both end at a NUL that
is written into the line. -/
def splitKeyValue (line : List UInt8) : Option (List UInt8 × List UInt8) := do
  let split ← strstr line [58, 32]
  let newline ← strstr line [10]
  let block := ((line ++ [0]).set split 0).set newline 0
  some (block.takeWhile (· ≠ 0), (block.drop (split + 2)).takeWhile (· ≠ 0))

/-- `"reducer input is malformed: "`. -/
def malformed : List UInt8 :=
  [114, 101, 100, 117, 99, 101, 114, 32, 105, 110, 112, 117, 116, 32, 105, 115, 32, 109, 97, 108,
    102, 111, 114, 109, 101, 100, 58, 32]

/-- `print_ds`. -/
def printDs (key value : List UInt8) : List UInt8 := key ++ [58, 32] ++ value ++ [10]

section Loop

variable {T : Type} (ops : TreeOps T) (func : List UInt8 → List UInt8 → Option (List UInt8))

/-- What `run_reducer_on` does with a line. The second part is what was written to `stderr`. -/
def reduceLine (s : T × List UInt8) (line : List UInt8) : Option (T × List UInt8) :=
  let (ds, errors) := s
  let line := line.takeWhile (· ≠ 0)
  match splitKeyValue line with
  | none => some (ds, errors ++ malformed ++ line ++ [10])
  | some (key, value) =>
    match datastoreGet ops ds key with
    | some currVal => do
      let newValue ← func currVal value
      some ((datastoreUpdate ops ds key newValue).2, errors)
    | none => some ((datastorePut ops ds key value).2, errors)

/-- The loop of `run_reducer_on`. -/
def reduceLines (s : T × List UInt8) (input : List UInt8) : Option (T × List UInt8) :=
  match h : getline input with
  | none => some s
  | some (line, rest) =>
    have : rest.length < input.length := length_getline h
    (reduceLine ops func s line).bind fun s => reduceLines s rest
termination_by input.length

/-- `run_reducer_on`: what is written to `output` and to `stderr`. -/
def runReducerOn (input : List UInt8) : Option (List UInt8 × List UInt8) := do
  let (ds, errors) ← reduceLines ops func (ops.null, []) input
  some (datastoreIterate ops ds printDs, errors)

/-- The loop goes through the lines. -/
theorem reduceLines_eq (s : T × List UInt8) (input : List UInt8) :
    reduceLines ops func s input = run (reduceLine ops func) s (lines input) := by
  induction hlen : input.length using Nat.strong_induction_on generalizing s input with
  | _ n ih =>
    rw [reduceLines]
    rcases getline_cases input with ⟨hnone, rfl⟩ | ⟨line, rest, hsome, hlines, hlt⟩
    · rfl
    · rw [hlines, run_cons]
      split
      · simp_all
      · next line' rest' heq =>
        obtain ⟨rfl, rfl⟩ := Prod.mk.inj (Option.some.inj (heq.symm.trans hsome))
        congr 1
        funext s'
        exact ih rest'.length (hlen ▸ hlt) s' rest' rfl

end Loop

/-- `reducer` of `sum.c`. A sum that is no `int` has no result. -/
def reducer (value1 value2 : List UInt8) : Option (List UInt8) :=
  let count1 := atoi value1
  let count2 := atoi value2
  if -2 ^ 31 ≤ count1 + count2 ∧ count1 + count2 < 2 ^ 31 then some (formatInt (count1 + count2))
  else none

/-! ## A tree -/

section Sorted

/-- Entries in the order of their keys. -/
abbrev SortedTree := { l : List Entry // l.Pairwise fun e e' => e.key < e'.key }

/-- An entry is put where it belongs. -/
def insertEntry (e : Entry) : List Entry → List Entry
  | [] => [e]
  | e' :: l =>
    if e.key < e'.key then e :: e' :: l
    else if e.key = e'.key then e' :: l
    else e' :: insertEntry e l

variable {e : Entry} {l : List Entry}

theorem mem_insertEntry {x : Entry} (h : x ∈ insertEntry e l) : x = e ∨ x ∈ l := by
  induction l with
  | nil => exact Or.inl (List.mem_singleton.mp h)
  | cons e' l ih =>
    rw [insertEntry] at h
    split_ifs at h with hlt heq
    · exact List.mem_cons.mp h
    · exact Or.inr h
    · rcases List.mem_cons.mp h with rfl | h
      · exact Or.inr List.mem_cons_self
      · exact (ih h).imp_right (List.mem_cons_of_mem e')

theorem pairwise_insertEntry (h : l.Pairwise fun e e' => e.key < e'.key) :
    (insertEntry e l).Pairwise fun e e' => e.key < e'.key := by
  induction l with
  | nil => exact List.pairwise_singleton _ e
  | cons e' l ih =>
    rw [insertEntry]
    obtain ⟨hfirst, hlater⟩ := List.pairwise_cons.mp h
    split_ifs with hlt heq
    · refine List.pairwise_cons.mpr ⟨fun x hx => ?_, h⟩
      rcases List.mem_cons.mp hx with rfl | hx
      · exact hlt
      · exact List.lt_trans hlt (hfirst x hx)
    · exact h
    · refine List.pairwise_cons.mpr ⟨fun x hx => ?_, ih hlater⟩
      rcases mem_insertEntry hx with rfl | hx
      · rw [List.not_lt] at hlt
        exact Std.lt_of_le_of_ne hlt (Ne.symm heq)
      · exact hfirst x hx

/-- The entry with a key. -/
def findEntry (l : List Entry) (k : List UInt8) : Option Entry := l.find? fun e => e.key = k

theorem findEntry_cons (e : Entry) (l : List Entry) (k : List UInt8) :
    findEntry (e :: l) k = if k = e.key then some e else findEntry l k := by
  by_cases h : k = e.key
  · simp [findEntry, h]
  · simp [findEntry, h, Ne.symm h]

theorem findEntry_insertEntry (h : findEntry l e.key = none) (k : List UInt8) :
    findEntry (insertEntry e l) k = if k = e.key then some e else findEntry l k := by
  induction l with
  | nil => exact findEntry_cons e [] k
  | cons e' l ih =>
    rw [findEntry_cons] at h
    split_ifs at h with heq
    rw [insertEntry, if_neg heq]
    by_cases hlt : e.key < e'.key
    · rw [if_pos hlt, findEntry_cons]
    · rw [if_neg hlt, findEntry_cons, findEntry_cons, ih h]
      by_cases hk : k = e.key
      · rw [if_neg (hk ▸ heq), if_pos hk, if_pos hk]
      · rw [if_neg hk, if_neg hk]

theorem findEntry_map (v : List UInt8) (k k' : List UInt8) :
    findEntry (l.map fun e => if e.key = k then { e with value := v } else e) k' =
      if k' = k then (findEntry l k).map fun e => { e with value := v } else findEntry l k' := by
  induction l with
  | nil => simp [findEntry]
  | cons e l ih =>
    rw [List.map_cons, findEntry_cons, findEntry_cons, findEntry_cons, ih]
    by_cases hk : k' = k
    · subst hk
      by_cases he : k' = e.key
      · simp [he]
      · simp [he, Ne.symm he]
    · by_cases he : e.key = k
      · simp [hk, he]
      · simp [hk, he]

theorem mem_iff_findEntry (h : l.Pairwise fun e e' => e.key < e'.key) (x : Entry) :
    x ∈ l ↔ findEntry l x.key = some x := by
  constructor
  · intro hx
    induction l with
    | nil => exact absurd hx List.not_mem_nil
    | cons e l ih =>
      obtain ⟨hfirst, hlater⟩ := List.pairwise_cons.mp h
      rw [findEntry_cons]
      rcases List.mem_cons.mp hx with rfl | hx
      · exact if_pos rfl
      · rw [if_neg fun heq => List.lt_irrefl _ (heq ▸ hfirst x hx), ih hlater hx]
  · exact List.mem_of_find?_eq_some

/-- A list in order, as a tree. -/
def sortedTree : TreeOps SortedTree where
  null := ⟨[], List.Pairwise.nil⟩
  tfind t k := findEntry t.1 k
  tsearch t e := ⟨insertEntry e t.1, pairwise_insertEntry t.2⟩
  writeValue t k v := ⟨t.1.map fun e => if e.key = k then { e with value := v } else e, by
    rw [List.pairwise_map]
    refine t.2.imp fun {e e'} h => ?_
    split_ifs <;> exact h⟩
  twalk t := t.1

/-- **A sorted list is an ordered map.** -/
theorem sortedTree_laws : TreeLaws sortedTree where
  tfind_null := fun _ => rfl
  tfind_tsearch := fun _ _ k h => findEntry_insertEntry h k
  tfind_writeValue := fun _ k v k' => findEntry_map v k k'
  sorted := fun t => t.2
  mem_twalk := fun t => mem_iff_findEntry t.2

end Sorted

end SystemProgramming.MapReduce
