import Mathlib.Data.List.TakeWhile
import Mathlib.Tactic

/-!
# Characters and runs of characters

The character classes of the C locale, the maximal runs of a list between separators, and the
tokens that the C library finds.

## Main definitions

* `isSpace`, `isPunct`, `isUpper`, `isAlpha`, `toLower`, `toUpper`
* `runs p s`: the maximal nonempty runs of `s` without separators
* `strtok`: the next token between blanks

## Main results

* `runs_append_cons`: the runs on both sides of a separator
* `strtok_cases`: reading token by token goes through the runs
-/

namespace SystemProgramming.Ctype

def isSpace (c : UInt8) : Bool := c == 32 || (9 ≤ c && c ≤ 13)

def isUpper (c : UInt8) : Bool := 65 ≤ c && c ≤ 90

def isLower (c : UInt8) : Bool := 97 ≤ c && c ≤ 122

def isAlpha (c : UInt8) : Bool := isUpper c || isLower c

def isPunct (c : UInt8) : Bool :=
  (33 ≤ c && c ≤ 47) || (58 ≤ c && c ≤ 64) || (91 ≤ c && c ≤ 96) || (123 ≤ c && c ≤ 126)

def toLower (c : UInt8) : UInt8 := if isUpper c then c + 32 else c

def toUpper (c : UInt8) : UInt8 := if isLower c then c - 32 else c

theorem toLower_eq_self_iff {c : UInt8} : toLower c = c ↔ isUpper c = false := by
  rw [toLower]
  split_ifs with h
  · refine iff_of_false (fun heq => ?_) (by simp [h])
    have hnat := congrArg UInt8.toNat heq
    rw [UInt8.toNat_add] at hnat
    have h32 : (32 : UInt8).toNat = 32 := rfl
    have := c.toNat_lt
    omega
  · exact iff_of_true rfl (by simpa using h)

theorem toLower_of_not_isAlpha {c : UInt8} (h : isAlpha c = false) : toLower c = c := by
  rw [isAlpha, Bool.or_eq_false_iff] at h
  exact toLower_eq_self_iff.mpr h.1

/-- A letter is not a blank. -/
theorem isSpace_of_lt {c : UInt8} (h : 32 < c.toNat) : isSpace c = false := by
  have h32 : (32 : UInt8).toNat = 32 := rfl
  have h13 : (13 : UInt8).toNat = 13 := rfl
  have hne : c ≠ 32 := fun heq => by
    rw [heq] at h
    omega
  have hle : ¬ c ≤ 13 := fun hle => by
    rw [UInt8.le_iff_toNat_le] at hle
    omega
  simp [isSpace, hne, hle]

/-- Changing the case of a character does not make it a blank. -/
theorem isSpace_toLower (c : UInt8) : isSpace (toLower c) = isSpace c := by
  rw [toLower]
  split_ifs with h
  · have h32 : (32 : UInt8).toNat = 32 := rfl
    rw [isUpper, Bool.and_eq_true, decide_eq_true_eq, decide_eq_true_eq, UInt8.le_iff_toNat_le,
      UInt8.le_iff_toNat_le] at h
    have h65 : (65 : UInt8).toNat = 65 := rfl
    have h90 : (90 : UInt8).toNat = 90 := rfl
    rw [isSpace_of_lt (c := c) (by omega), isSpace_of_lt (by rw [UInt8.toNat_add]; omega)]
  · rfl

theorem isSpace_of_isUpper {c : UInt8} (h : isUpper c = true) : isSpace c = false := by
  have h65 : (65 : UInt8).toNat = 65 := rfl
  rw [isUpper, Bool.and_eq_true, decide_eq_true_eq, UInt8.le_iff_toNat_le] at h
  exact isSpace_of_lt (by omega)

theorem isSpace_toUpper (c : UInt8) : isSpace (toUpper c) = isSpace c := by
  rw [toUpper]
  split_ifs with h
  · have h32 : (32 : UInt8).toNat = 32 := rfl
    rw [isLower, Bool.and_eq_true, decide_eq_true_eq, decide_eq_true_eq, UInt8.le_iff_toNat_le,
      UInt8.le_iff_toNat_le] at h
    have h97 : (97 : UInt8).toNat = 97 := rfl
    have h122 : (122 : UInt8).toNat = 122 := rfl
    rw [isSpace_of_lt (c := c) (by omega), isSpace_of_lt (by rw [UInt8.toNat_sub]; omega)]
  · rfl

end SystemProgramming.Ctype

namespace SystemProgramming

/-! ## Runs -/

section Runs

variable {α : Type*} (p : α → Bool)

/-- The maximal nonempty runs of elements that are no separators. -/
def runs (s : List α) : List (List α) := (s.splitOnP p).filter fun w => !w.isEmpty

@[simp] theorem runs_nil : runs p [] = [] := by simp [runs]

/-- The runs on both sides of a separator. -/
theorem runs_append_cons (s rest : List α) {sep : α} (hsep : p sep = true) :
    runs p (s ++ sep :: rest) = runs p s ++ runs p rest := by
  rw [runs, List.splitOnP_append_cons s rest hsep, List.filter_append, runs, runs]

variable {p} {s : List α}

/-- A list without separators is a run. -/
theorem runs_of_forall (hne : s ≠ []) (h : ∀ c ∈ s, p c = false) : runs p s = [s] := by
  rw [runs, List.splitOnP_eq_singleton h]
  simp [hne]

/-- Where the elements to drop end. -/
theorem not_of_dropWhile {p : α → Bool} {c : α} {rest : List α} (h : s.dropWhile p = c :: rest) :
    p c = false := by
  have hhead := List.head_dropWhile_not p (h ▸ List.cons_ne_nil c rest)
  simp only [h, List.head_cons] at hhead
  exact hhead

/-- A list begins with a run of elements with a property. -/
theorem exists_span (p : α → Bool) (s : List α) :
    ∃ w t, s = w ++ t ∧ (∀ d ∈ w, p d = true) ∧ ∀ c rest, t = c :: rest → p c = false := by
  refine ⟨s.takeWhile p, s.dropWhile p, List.takeWhile_append_dropWhile.symm,
    fun d hd => List.all_eq_true.mp List.all_takeWhile d hd, fun c rest ht => not_of_dropWhile ht⟩

/-- There is no run among separators. -/
theorem runs_append_of_forall (h : ∀ c ∈ s, p c = true) (rest : List α) :
    runs p (s ++ rest) = runs p rest := by
  induction s with
  | nil => rfl
  | cons c s ih =>
    have hc := runs_append_cons p [] (s ++ rest) (h c List.mem_cons_self)
    rw [List.nil_append, runs_nil, List.nil_append] at hc
    rw [List.cons_append, hc, ih fun d hd => h d (List.mem_cons_of_mem c hd)]

/-- The pieces between separators hold what is in the list and is no separator. -/
theorem of_mem_splitOnP {w : List α} (hw : w ∈ s.splitOnP p) {c : α} (hc : c ∈ w) :
    p c = false ∧ c ∈ s := by
  induction s generalizing w with
  | nil =>
    rw [List.splitOnP_nil, List.mem_singleton] at hw
    exact absurd (hw ▸ hc) List.not_mem_nil
  | cons d s ih =>
    rw [List.splitOnP_cons_eq_if_modifyHead] at hw
    split_ifs at hw with hd
    · rcases List.mem_cons.mp hw with rfl | hw
      · exact absurd hc List.not_mem_nil
      · exact (ih hw hc).imp_right (List.mem_cons_of_mem d)
    · cases hsplit : s.splitOnP p with
      | nil =>
        rw [hsplit] at hw
        exact absurd hw List.not_mem_nil
      | cons first later =>
        rw [hsplit] at hw ih
        rcases List.mem_cons.mp hw with rfl | hw
        · rcases List.mem_cons.mp hc with rfl | hc
          · exact ⟨Bool.eq_false_iff.mpr hd, List.mem_cons_self⟩
          · exact (ih List.mem_cons_self hc).imp_right (List.mem_cons_of_mem d)
        · exact (ih (List.mem_cons_of_mem first hw) hc).imp_right (List.mem_cons_of_mem d)

theorem of_mem_runs {w : List α} (hw : w ∈ runs p s) {c : α} (hc : c ∈ w) : p c = false ∧ c ∈ s :=
  of_mem_splitOnP (List.mem_filter.mp hw).1 hc

theorem ne_nil_of_mem_runs {w : List α} (hw : w ∈ runs p s) : w ≠ [] := by
  rintro rfl
  simp [runs] at hw

/-- The runs of a list whose elements are replaced. -/
theorem runs_map {β : Type*} (p : β → Bool) (f : α → β) (s : List α) :
    runs p (s.map f) = (runs (p ∘ f) s).map (List.map f) := by
  have hsplit : (s.map f).splitOnP p = (s.splitOnP (p ∘ f)).map (List.map f) := by
    induction s with
    | nil => simp
    | cons c s ih =>
      rw [List.map_cons, List.splitOnP_cons_eq_if_modifyHead, ih,
        List.splitOnP_cons_eq_if_modifyHead, Function.comp_apply]
      split_ifs
      · rfl
      · cases s.splitOnP (p ∘ f) <;> rfl
  rw [runs, runs, hsplit, List.filter_map]
  congr 1
  exact List.filter_congr fun w _ => by cases w <;> rfl

end Runs

/-! ## Tokens -/

/-- `strtok` with the delimiter `" "`: the next token and what is behind it. -/
def strtok (str : List UInt8) : Option (List UInt8 × List UInt8) :=
  match str.dropWhile (· = 32) with
  | [] => none
  | c :: str =>
    let str := c :: str
    some (str.takeWhile (· ≠ 32), (str.dropWhile (· ≠ 32)).drop 1)

theorem length_strtok {str datum rest : List UInt8} (h : strtok str = some (datum, rest)) :
    rest.length < str.length := by
  rw [strtok] at h
  have hle := (List.dropWhile_suffix (l := str) (· = 32)).length_le
  cases hdrop : str.dropWhile (· = 32) with
  | nil => simp [hdrop] at h
  | cons c s =>
    have hc : c ≠ 32 := by simpa using not_of_dropWhile hdrop
    have hle' := (List.dropWhile_suffix (l := s) (· ≠ 32)).length_le
    rw [hdrop] at h hle
    simp only [Option.some.injEq, Prod.mk.injEq] at h
    rw [← h.2, List.dropWhile_cons_of_pos (by simpa using hc), List.length_drop]
    rw [List.length_cons] at hle
    omega

/-- **`strtok`** goes through the runs. -/
theorem strtok_cases (str : List UInt8) : strtok str = none ∧ runs (· = 32) str = [] ∨
    ∃ datum rest, strtok str = some (datum, rest) ∧
      runs (· = 32) str = datum :: runs (· = 32) rest := by
  have hblanks : ∀ c ∈ str.takeWhile (· = 32), decide (c = 32) = true := by
    intro c hc
    simpa using List.mem_takeWhile_imp hc
  have hruns : runs (· = 32) str = runs (· = 32) (str.dropWhile (· = 32)) := by
    conv_lhs => rw [← List.takeWhile_append_dropWhile (p := (· = 32)) (l := str)]
    exact runs_append_of_forall hblanks _
  rw [hruns, strtok]
  cases hdrop : str.dropWhile (· = 32) with
  | nil => exact Or.inl ⟨rfl, runs_nil _⟩
  | cons c s =>
    have hc : c ≠ 32 := by simpa using not_of_dropWhile hdrop
    have hword : ∀ d ∈ (c :: s).takeWhile (· ≠ 32), decide (d = 32) = false := by
      intro d hd
      simpa using List.mem_takeWhile_imp hd
    have hne : (c :: s).takeWhile (· ≠ 32) ≠ [] := by
      rw [List.takeWhile_cons_of_pos (by simpa using hc)]
      exact List.cons_ne_nil _ _
    refine Or.inr ⟨_, _, rfl, ?_⟩
    conv_lhs => rw [← List.takeWhile_append_dropWhile (p := (· ≠ 32)) (l := c :: s)]
    cases hbehind : (c :: s).dropWhile (· ≠ 32) with
    | nil =>
      rw [List.append_nil, List.drop_nil, runs_nil]
      exact runs_of_forall hne hword
    | cons d rest =>
      have hd : d = 32 := by simpa using not_of_dropWhile hbehind
      rw [runs_append_cons _ _ _ (by simpa using hd), runs_of_forall hne hword]
      rfl

end SystemProgramming
