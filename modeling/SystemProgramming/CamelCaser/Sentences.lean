import Mathlib.Data.List.GetD
import SystemProgramming.CamelCaser.CamelCaser

/-!
# Camel case meets its specification, almost

The specification splits the text before each punctuation character into its runs of characters
that are not blank, writes the first run in lower case, capitalises the others and joins them. The
loop over the characters does the same, except where the first character that is not blank is
the last one: it only notes that it has seen the first word, and then the loop ends.

## Main definitions

* `sentences`, `camelCase`: the specification

## Main results

* `splitStr_eq`: the pieces are the sentences
* `camelCaseStr_spec`: what becomes of a piece
* `camelCaser_iff`: when the output is the specified one
-/

namespace SystemProgramming.CamelCaser

open Ctype

/-- The texts before the punctuation characters. -/
def sentences (s : List UInt8) : List (List UInt8) := (s.splitOnP isPunct).dropLast

/-- The first letter in upper case, the other letters in lower case. -/
def capitalise (word : List UInt8) : List UInt8 :=
  word.takeWhile (fun c => !isAlpha c) ++
    match word.dropWhile fun c => !isAlpha c with
    | [] => []
    | c :: cs => toUpper c :: cs.map toLower

/-- **The specification** for one sentence. -/
def camelCase (sentence : List UInt8) : List UInt8 :=
  match runs isSpace sentence with
  | [] => []
  | word :: words => word.map toLower ++ words.flatMap capitalise

/-! ## Splitting -/

theorem splitLoop_eq {s : List UInt8} {rounds i : Nat} (splitted : List (List UInt8))
    (hrounds : s.length - i < rounds) :
    splitLoop s rounds i splitted = some (splitted ++ ((s.drop i).splitOnP isPunct).dropLast) := by
  induction rounds generalizing i splitted with
  | zero => omega
  | succ rounds ih =>
    rw [splitLoop]
    by_cases hi : i < s.length
    · rw [if_pos hi]
      cases hfind : (s.drop i).findIdx? isPunct with
      | some k =>
        obtain ⟨hk, hsep, hbefore⟩ := List.findIdx?_eq_some_iff_getElem.mp hfind
        have hsplit : s.drop i = (s.drop i).take k ++ (s.drop i)[k] :: s.drop (i + k + 1) := by
          rw [Nat.add_assoc, ← List.drop_drop, ← List.drop_eq_getElem_cons hk,
            List.take_append_drop]
        have hpieces : (s.drop i).splitOnP isPunct =
            (s.drop i).take k :: (s.drop (i + k + 1)).splitOnP isPunct := by
          conv_lhs => rw [hsplit]
          refine List.splitOnP_append_cons_of_forall_mem (fun c hc => ?_) _ hsep _
          obtain ⟨j, hj, rfl⟩ := List.mem_take_iff_getElem.mp hc
          exact Bool.not_eq_true _ ▸ hbefore j (by omega)
        dsimp only
        rw [ih _ (by omega), hpieces, List.dropLast_cons_of_ne_nil (List.splitOnP_ne_nil _ _),
          List.append_assoc, List.singleton_append]
      | none =>
        have hnone : ∀ c ∈ s.drop i, isPunct c = false := by
          simpa using List.findIdx?_eq_none_iff.mp hfind
        have hend : s.drop (s.length + 1) = [] := List.drop_eq_nil_of_le (Nat.le_succ _)
        dsimp only
        rw [ih _ (by omega), hend, List.splitOnP_eq_singleton hnone, List.splitOnP_nil]
        rfl
    · have hend : s.drop i = [] := List.drop_eq_nil_of_le (not_lt.mp hi)
      rw [if_neg hi, hend, List.splitOnP_nil]
      simp

/-- **The pieces** are the sentences. -/
theorem splitStr_eq (s : List UInt8) : splitStr s = some (sentences s) := by
  rw [splitStr, splitLoop_eq [] (by omega), List.drop_zero, List.nil_append, sentences]

/-! ## Words -/

section Words

variable {word : List UInt8}

/-- The first word is written in lower case. -/
theorem camelCaseWord_first (word : List UInt8) : camelCaseWord word true = word.map toLower := by
  have hletters : ∀ (b : Bool) (word : List UInt8),
      caseLetters true b word = word.map toLower := by
    intro b word
    induction word generalizing b with
    | nil => rfl
    | cons c walk ih =>
      rw [caseLetters, List.map_cons]
      by_cases hc : isAlpha c = true
      · rw [if_pos hc, if_pos rfl, ih, ih, ite_self]
      · rw [if_neg hc, ih, toLower_of_not_isAlpha (by simpa using hc)]
  exact hletters false word

/-- The other words are capitalised. -/
theorem camelCaseWord_later (word : List UInt8) :
    camelCaseWord word false = capitalise word := by
  have hrest : ∀ word : List UInt8, caseLetters false true word = word.map toLower := by
    intro word
    induction word with
    | nil => rfl
    | cons c walk ih =>
      rw [caseLetters, List.map_cons, ih]
      by_cases hc : isAlpha c = true
      · rw [if_pos hc]
        rfl
      · rw [if_neg hc, toLower_of_not_isAlpha (by simpa using hc)]
  rw [camelCaseWord]
  induction word with
  | nil => rfl
  | cons c walk ih =>
    rw [caseLetters, capitalise]
    by_cases hc : isAlpha c = true
    · rw [if_pos hc, hrest, List.takeWhile_cons_of_neg (by simp [hc]),
        List.dropWhile_cons_of_neg (by simp [hc])]
      rfl
    · rw [if_neg hc, ih, List.takeWhile_cons_of_pos (by simp [hc]),
        List.dropWhile_cons_of_pos (by simp [hc])]
      rfl

/-- Blanks stay blanks. -/
theorem map_isSpace_caseLetters (b b' : Bool) (word : List UInt8) :
    (caseLetters b b' word).map isSpace = word.map isSpace := by
  induction word generalizing b' with
  | nil => rfl
  | cons c walk ih =>
    rw [caseLetters]
    split_ifs <;> simp [ih, isSpace_toLower, isSpace_toUpper]

theorem length_camelCaseWord (word : List UInt8) (b : Bool) :
    (camelCaseWord word b).length = word.length := by
  have hlen := congrArg List.length (map_isSpace_caseLetters b false word)
  rwa [List.length_map, List.length_map] at hlen

theorem removeWhitespaces_append (s s' : List UInt8) :
    removeWhitespacesStr (s ++ s') = removeWhitespacesStr s ++ removeWhitespacesStr s' :=
  List.filter_append ..

theorem removeWhitespaces_of_forall (h : ∀ c ∈ word, isSpace c = false) :
    removeWhitespacesStr word = word :=
  List.filter_eq_self.mpr fun c hc => by simp [h c hc]

theorem removeWhitespaces_blanks (h : ∀ c ∈ word, isSpace c = true) :
    removeWhitespacesStr word = [] :=
  List.filter_eq_nil_iff.mpr fun c hc => by simp [h c hc]

/-- A word of characters that are not blank. -/
theorem removeWhitespaces_word (h : ∀ c ∈ word, isSpace c = false) (b : Bool) :
    removeWhitespacesStr (camelCaseWord word b) = camelCaseWord word b := by
  refine removeWhitespaces_of_forall fun c hc => ?_
  have hmem := List.mem_map_of_mem (f := isSpace) hc
  rw [camelCaseWord, map_isSpace_caseLetters] at hmem
  obtain ⟨d, hd, hcd⟩ := List.mem_map.mp hmem
  rw [← hcd, h d hd]

end Words

/-! ## The loops -/

section Loops

variable {str word tail front : List UInt8} {rounds i : Nat}

theorem getD_append_length (front tail : List UInt8) (c : UInt8) :
    (front ++ c :: tail).getD front.length 0 = c := by
  rw [List.getD_append_right _ _ _ _ le_rfl, Nat.sub_self, List.getD_cons_zero]

/-- A word ends at a blank. -/
theorem scanWord_blank {c : UInt8} (hword : ∀ d ∈ word, isSpace d = false) (hc : isSpace c = true)
    (hrounds : word.length < rounds) :
    scanWord (front ++ word ++ c :: tail).length i rounds (front ++ word ++ c :: tail) true
        front.length =
      ((front ++ word ++ c :: tail).take i ++
          camelCaseWord ((front ++ word).drop i) (i == 0) ++ 32 :: tail,
        true, (front ++ word).length) := by
  induction word generalizing front rounds with
  | nil =>
    obtain ⟨rounds, rfl⟩ := Nat.exists_eq_add_one_of_ne_zero (by omega : rounds ≠ 0)
    simp only [List.append_nil]
    rw [scanWord, getD_append_length]
    simp only [hc, Bool.not_true, Bool.and_false, Bool.false_eq_true, if_false, Bool.and_true,
      if_true]
    have htake : (front ++ c :: tail).take front.length = front := List.take_left
    have hdrop : (front ++ c :: tail).drop (front.length + 1) = tail := by
      rw [← List.drop_drop, List.drop_left]
      rfl
    rw [htake, hdrop]
  | cons d word ih =>
    obtain ⟨rounds, rfl⟩ := Nat.exists_eq_add_one_of_ne_zero (by omega : rounds ≠ 0)
    have hd := hword d List.mem_cons_self
    have hnext := @ih (front ++ [d]) rounds (fun e he => hword e (List.mem_cons_of_mem d he))
      (by simpa using hrounds)
    simp only [List.append_assoc, List.singleton_append, List.length_append, List.length_cons,
      List.length_nil] at hnext ⊢
    rw [scanWord, List.cons_append, getD_append_length]
    simp only [hd, Bool.not_true, Bool.and_false, Bool.false_eq_true, if_false, Bool.false_and]
    rw [if_neg (by omega)]
    exact hnext

/-- The last word ends with the string. -/
theorem scanWord_end (hne : word ≠ []) (hword : ∀ d ∈ word, isSpace d = false)
    (hrounds : word.length ≤ rounds) :
    scanWord (front ++ word).length i rounds (front ++ word) true front.length =
      ((front ++ word).take i ++ camelCaseWord ((front ++ word).drop i) (i == 0), true,
        (front ++ word).length - 1) := by
  induction word generalizing front rounds with
  | nil => exact absurd rfl hne
  | cons d word ih =>
    obtain ⟨rounds, rfl⟩ := Nat.exists_eq_add_one_of_ne_zero (by
      rw [List.length_cons] at hrounds
      omega : rounds ≠ 0)
    have hd := hword d List.mem_cons_self
    rw [scanWord, getD_append_length]
    simp only [hd, Bool.not_true, Bool.and_false, Bool.false_eq_true, if_false, Bool.false_and]
    by_cases hend : word = []
    · subst hend
      have hlast : front.length = (front ++ [d]).length - 1 := by simp
      rw [if_pos hlast, ← hlast]
    · have hpos := List.length_pos_of_ne_nil hend
      have hnext := @ih (front ++ [d]) rounds hend
        (fun e he => hword e (List.mem_cons_of_mem d he)) (by simpa using hrounds)
      simp only [List.append_assoc, List.singleton_append, List.length_append, List.length_cons,
        List.length_nil] at hnext ⊢
      rw [if_neg (by omega)]
      exact hnext

/-- Blanks before the first word. -/
theorem scanWord_skip {c : UInt8} {n : Nat} (hblank : ∀ d ∈ word, isSpace d = true)
    (hc : isSpace c = false) (hn : n = word.length + 1 + rounds) :
    scanWord (front ++ word ++ c :: tail).length i n (front ++ word ++ c :: tail) false
        front.length =
      scanWord (front ++ word ++ c :: tail).length i rounds (front ++ word ++ c :: tail) true
        ((front ++ word).length + 1) := by
  induction word generalizing front n with
  | nil =>
    obtain rfl : n = rounds + 1 := by
      rw [hn, List.length_nil]
      omega
    simp only [List.append_nil]
    rw [scanWord, getD_append_length]
    simp only [hc, Bool.not_false, Bool.and_true, if_true]
  | cons d word ih =>
    obtain ⟨n, rfl⟩ : ∃ m, n = m + 1 := ⟨word.length + 1 + rounds, by
      rw [hn, List.length_cons]
      omega⟩
    have hd := hblank d List.mem_cons_self
    have hnext := @ih (front ++ [d]) n (fun e he => hblank e (List.mem_cons_of_mem d he)) (by
      rw [List.length_cons] at hn
      omega)
    have hstr : front ++ [d] ++ word = front ++ d :: word := by simp
    have hlen : (front ++ [d]).length = front.length + 1 := by simp
    rw [hstr, hlen] at hnext
    rw [← hnext, scanWord, List.append_assoc, List.cons_append, getD_append_length]
    simp only [hd, Bool.not_true, Bool.not_false, Bool.and_false, Bool.and_true, Bool.false_eq_true,
      if_false]
    rw [if_neg]
    simp only [List.length_append, List.length_cons]
    omega

/-- Nothing but blanks. -/
theorem scanWord_blanks (hne : word ≠ []) (hblank : ∀ d ∈ word, isSpace d = true)
    (hrounds : word.length ≤ rounds) :
    scanWord (front ++ word).length i rounds (front ++ word) false front.length =
      ((front ++ word).take i ++ camelCaseWord ((front ++ word).drop i) (i == 0), false,
        (front ++ word).length - 1) := by
  induction word generalizing front rounds with
  | nil => exact absurd rfl hne
  | cons d word ih =>
    obtain ⟨rounds, rfl⟩ := Nat.exists_eq_add_one_of_ne_zero (by
      rw [List.length_cons] at hrounds
      omega : rounds ≠ 0)
    have hd := hblank d List.mem_cons_self
    rw [scanWord, getD_append_length]
    simp only [hd, Bool.not_true, Bool.not_false, Bool.and_false, Bool.and_true, Bool.false_eq_true,
      if_false]
    by_cases hend : word = []
    · subst hend
      have hlast : front.length = (front ++ [d]).length - 1 := by simp
      rw [if_pos hlast, ← hlast]
    · have hpos := List.length_pos_of_ne_nil hend
      have hnext := @ih (front ++ [d]) rounds hend
        (fun e he => hblank e (List.mem_cons_of_mem d he)) (by simpa using hrounds)
      simp only [List.append_assoc, List.singleton_append, List.length_append, List.length_cons,
        List.length_nil] at hnext ⊢
      rw [if_neg (by omega)]
      exact hnext

/-- The loop has come to the end of the string. -/
theorem scanWords_of_le {strLen : Nat} {b : Bool} (hrounds : 0 < rounds) (hi : strLen ≤ i) :
    scanWords strLen rounds str b i = some str := by
  obtain ⟨rounds, rfl⟩ := Nat.exists_eq_add_one_of_ne_zero hrounds.ne'
  rw [scanWords, if_neg (not_lt.mpr hi)]

/-- A turn of the outer loop. -/
theorem scanWords_turn {strLen j : Nat} {b b' : Bool} {str' : List UInt8} (hi : i < strLen)
    (h : scanWord strLen i (strLen - i) str b i = (str', b', j)) :
    scanWords strLen (rounds + 1) str b i = scanWords strLen rounds str' b' (j + 1) := by
  rw [scanWords, if_pos hi, h]

/-- **The later words** are capitalised. -/
theorem scanWords_later (hfront : front ≠ []) (hrounds : str.length < rounds) :
    ∃ str', scanWords (front ++ str).length rounds (front ++ str) true front.length =
        some (front ++ str') ∧
      removeWhitespacesStr str' = (runs isSpace str).flatMap capitalise := by
  induction hn : str.length using Nat.strong_induction_on generalizing str front rounds with
  | _ n ih =>
    obtain ⟨rounds, rfl⟩ := Nat.exists_eq_add_one_of_ne_zero (by omega : rounds ≠ 0)
    obtain ⟨word, tail, rfl, hword, htail⟩ := exists_span (fun c => !isSpace c) str
    have hletters : ∀ d ∈ word, isSpace d = false := fun d hd => by simpa using hword d hd
    have hlater : (front.length == 0) = false := by
      simpa using hfront
    have hcased := removeWhitespaces_word hletters false
    rw [camelCaseWord_later] at hcased
    cases tail with
    | nil =>
      -- the string ends with the word, or with the blank before it
      rw [List.append_nil] at hn hrounds ⊢
      by_cases hne : word = []
      · refine ⟨[], ?_, by rw [hne, runs_nil]; rfl⟩
        rw [hne]
        exact scanWords_of_le (Nat.succ_pos _) (by simp)
      have hpos := List.length_pos_of_ne_nil hne
      have hlt : front.length < (front ++ word).length := by
        rw [List.length_append]
        omega
      refine ⟨capitalise word, ?_, by rw [hcased, runs_of_forall hne hletters]; simp⟩
      rw [scanWords_turn hlt (scanWord_end hne hletters (by simp)), List.take_left, List.drop_left,
        hlater, camelCaseWord_later]
      exact scanWords_of_le (by omega) (by omega)
    | cons c rest =>
      have hc : isSpace c = true := by simpa using htail c rest rfl
      have hlt : front.length < (front ++ word ++ c :: rest).length := by
        simp only [List.length_append, List.length_cons]
        omega
      have hlen := length_camelCaseWord word false
      rw [camelCaseWord_later] at hlen
      have hnext : rest.length < n := by
        rw [← hn, List.length_append, List.length_cons]
        omega
      -- the word and its blank become a part of the front
      obtain ⟨str', hrun, hstr'⟩ := @ih rest.length hnext rest (front ++ capitalise word ++ [32])
        rounds (by simp) (by omega) rfl
      refine ⟨capitalise word ++ 32 :: str', ?_, ?_⟩
      · rw [← List.append_assoc, scanWords_turn hlt (scanWord_blank hletters hc (by
          simp only [List.length_append, List.length_cons]
          omega))]
        have hstr : front ++ capitalise word ++ 32 :: rest =
            front ++ capitalise word ++ [32] ++ rest := by simp
        have htotal : (front ++ word ++ c :: rest).length =
            (front ++ capitalise word ++ [32] ++ rest).length := by
          simp only [List.length_append, List.length_cons, List.length_nil, hlen]
          omega
        have hnextIndex : (front ++ word).length + 1 = (front ++ capitalise word ++ [32]).length := by
          simp only [List.length_append, List.length_cons, List.length_nil, hlen]
        have hstart : (front ++ word ++ c :: rest).take front.length = front := by
          rw [List.append_assoc, List.take_left]
        rw [hstart, List.drop_left, hlater, camelCaseWord_later, htotal, hnextIndex, hstr, hrun]
        simp
      · have hblank : removeWhitespacesStr (32 :: str') = removeWhitespacesStr str' := rfl
        rw [removeWhitespaces_append, hcased, hblank, hstr', runs_append_cons isSpace word rest hc]
        by_cases hne : word = []
        · rw [hne, runs_nil]
          rfl
        · rw [runs_of_forall hne hletters, List.flatMap_append]
          simp

end Loops

/-! ## One sentence -/

/-- The only character that is not blank is a capital letter, and the last character. -/
def LoneCapital (s : List UInt8) : Prop :=
  ∃ blanks c, s = blanks ++ [c] ∧ (∀ d ∈ blanks, isSpace d = true) ∧ isUpper c = true

section Sentence

variable {blanks tail : List UInt8} {c : UInt8}

theorem loneCapital_last (hblank : ∀ d ∈ blanks, isSpace d = true) :
    LoneCapital (blanks ++ [c]) ↔ isUpper c = true := by
  constructor
  · rintro ⟨blanks', d, heq, -, hupper⟩
    obtain ⟨-, hcd⟩ := List.append_inj' heq rfl
    exact List.singleton_inj.mp hcd ▸ hupper
  · exact fun h => ⟨blanks, c, rfl, hblank, h⟩

theorem not_loneCapital (hc : isSpace c = false) (htail : tail ≠ []) :
    ¬ LoneCapital (blanks ++ c :: tail) := by
  rintro ⟨blanks', d, heq, hblank, -⟩
  have hinit := congrArg List.dropLast heq
  rw [List.dropLast_concat, List.dropLast_append_of_ne_nil (List.cons_ne_nil c tail),
    List.dropLast_cons_of_ne_nil htail] at hinit
  have hmem : c ∈ blanks' := hinit ▸ List.mem_append_right _ List.mem_cons_self
  rw [hblank c hmem] at hc
  cases hc

/-- The specification for a sentence with a first word. -/
theorem camelCase_of_runs {s word : List UInt8} {words : List (List UInt8)}
    (h : runs isSpace s = word :: words) :
    camelCase s = word.map toLower ++ words.flatMap capitalise := by
  rw [camelCase, h]

theorem removeWhitespaces_blanks_append (hblank : ∀ d ∈ blanks, isSpace d = true)
    (s : List UInt8) : removeWhitespacesStr (blanks ++ s) = removeWhitespacesStr s := by
  rw [removeWhitespaces_append, removeWhitespaces_blanks hblank, List.nil_append]

/-- The first word, with blanks before it. -/
theorem removeWhitespaces_first {word : List UInt8} (hblank : ∀ d ∈ blanks, isSpace d = true)
    (hword : ∀ d ∈ word, isSpace d = false) :
    removeWhitespacesStr (camelCaseWord (blanks ++ word) true) = word.map toLower := by
  have hcased := removeWhitespaces_word hword true
  rw [camelCaseWord_first] at hcased
  rw [camelCaseWord_first, List.map_append, removeWhitespaces_append, hcased,
    removeWhitespaces_blanks, List.nil_append]
  intro d hd
  obtain ⟨e, he, rfl⟩ := List.mem_map.mp hd
  rw [isSpace_toLower, hblank e he]

/-- Nothing but blanks. -/
theorem camelCaseStr_blanks (hblank : ∀ d ∈ blanks, isSpace d = true) :
    ∃ str', camelCaseStr blanks = some str' ∧ removeWhitespacesStr str' = camelCase blanks := by
  have hruns : runs isSpace blanks = [] := by
    have happend := runs_append_of_forall hblank []
    rwa [List.append_nil, runs_nil] at happend
  by_cases hne : blanks = []
  · subst hne
    exact ⟨[], rfl, rfl⟩
  · have hpos := List.length_pos_of_ne_nil hne
    have hscan := @scanWord_blanks blanks [] blanks.length 0 hne hblank le_rfl
    simp only [List.nil_append, List.length_nil, List.take_zero, List.drop_zero] at hscan
    refine ⟨camelCaseWord blanks true, ?_, ?_⟩
    · rw [camelCaseStr, scanWords_turn hpos hscan]
      exact scanWords_of_le hpos (by omega)
    · have hfirst := @removeWhitespaces_first blanks [] hblank (by simp)
      rw [List.append_nil] at hfirst
      rw [hfirst, camelCase, hruns]
      rfl

/-- The first character that is not blank is only looked at: the scan goes on behind it. -/
theorem scanWord_start (hblank : ∀ d ∈ blanks, isSpace d = true) (hc : isSpace c = false) :
    scanWord (blanks ++ c :: tail).length 0 ((blanks ++ c :: tail).length - 0)
        (blanks ++ c :: tail) false 0 =
      scanWord (blanks ++ c :: tail).length 0 tail.length (blanks ++ c :: tail) true
        (blanks.length + 1) := by
  have hskip := @scanWord_skip blanks tail [] tail.length 0 c (blanks ++ c :: tail).length hblank
    hc (by simp only [List.length_append, List.length_cons]; omega)
  simpa only [List.nil_append, List.length_nil, Nat.sub_zero] using hskip

/-- A single character, with which the loop ends before it gets to the case of the letters. -/
theorem camelCaseStr_letter (hblank : ∀ d ∈ blanks, isSpace d = true) (hc : isSpace c = false) :
    ∃ str', camelCaseStr (blanks ++ [c]) = some str' ∧
      (removeWhitespacesStr str' = camelCase (blanks ++ [c]) ↔ isUpper c ≠ true) := by
  have hword : ∀ d ∈ [c], isSpace d = false := fun d hd => List.mem_singleton.mp hd ▸ hc
  refine ⟨blanks ++ [c], ?_, ?_⟩
  · rw [camelCaseStr, scanWords_turn (by simp) (scanWord_start hblank hc), List.length_nil, scanWord]
    exact scanWords_of_le (by simp) (by simp)
  · rw [removeWhitespaces_blanks_append hblank, removeWhitespaces_of_forall hword, camelCase,
      runs_append_of_forall hblank, runs_of_forall (List.cons_ne_nil c []) hword, ne_eq,
      Bool.not_eq_true, ← toLower_eq_self_iff]
    simp [eq_comm]

/-- One word of several characters. -/
theorem camelCaseStr_word {word : List UInt8} (hblank : ∀ d ∈ blanks, isSpace d = true)
    (hne : word ≠ []) (hletters : ∀ d ∈ c :: word, isSpace d = false) :
    ∃ str', camelCaseStr (blanks ++ c :: word) = some str' ∧
      removeWhitespacesStr str' = camelCase (blanks ++ c :: word) := by
  have hscan := @scanWord_end word (blanks ++ [c]) word.length 0 hne
    (fun d hd => hletters d (List.mem_cons_of_mem c hd)) le_rfl
  rw [show blanks ++ [c] ++ word = blanks ++ c :: word by simp,
    show (blanks ++ [c]).length = blanks.length + 1 by simp] at hscan
  have hruns := runs_of_forall (List.cons_ne_nil c word) hletters
  refine ⟨camelCaseWord (blanks ++ c :: word) true, ?_, ?_⟩
  · have hstart := (scanWord_start hblank (hletters c List.mem_cons_self)).trans hscan
    rw [camelCaseStr, scanWords_turn (by simp) hstart]
    exact scanWords_of_le (by simp) (by omega)
  · rw [removeWhitespaces_first hblank hletters,
      camelCase_of_runs ((runs_append_of_forall hblank _).trans hruns)]
    simp

/-- A first word with a blank behind it, and whatever follows. -/
theorem camelCaseStr_words {word rest : List UInt8} {e : UInt8}
    (hblank : ∀ d ∈ blanks, isSpace d = true) (hletters : ∀ d ∈ c :: word, isSpace d = false)
    (he : isSpace e = true) :
    ∃ str', camelCaseStr (blanks ++ c :: (word ++ e :: rest)) = some str' ∧
      removeWhitespacesStr str' = camelCase (blanks ++ c :: (word ++ e :: rest)) := by
  have hlen := length_camelCaseWord (blanks ++ c :: word) true
  have hstr : blanks ++ c :: word ++ e :: rest = blanks ++ c :: (word ++ e :: rest) := by simp
  have hscan := @scanWord_blank word rest (blanks ++ [c]) (word ++ e :: rest).length 0 e
    (fun d hd => hletters d (List.mem_cons_of_mem c hd)) he
    (by simp only [List.length_append, List.length_cons]; omega)
  rw [show blanks ++ [c] ++ word = blanks ++ c :: word by simp, hstr,
    show (blanks ++ [c]).length = blanks.length + 1 by simp] at hscan
  -- the loop over the later words starts behind the first one
  have hrounds : rest.length < (blanks ++ c :: (word ++ e :: rest)).length := by
    simp only [List.length_append, List.length_cons]
    omega
  have hfront : camelCaseWord (blanks ++ c :: word) true ++ [32] ≠ [] := by simp
  obtain ⟨str', hrun, hstr'⟩ := scanWords_later hfront hrounds
  have hnext : (blanks ++ c :: word).length + 1 =
      (camelCaseWord (blanks ++ c :: word) true ++ [32]).length := by
    rw [@List.length_append _ (camelCaseWord _ _), hlen, List.length_singleton]
  have htotal : (camelCaseWord (blanks ++ c :: word) true ++ [32] ++ rest).length =
      (blanks ++ c :: (word ++ e :: rest)).length := by
    rw [← hstr, List.length_append, ← hnext]
    simp only [List.length_append, List.length_cons]
    omega
  refine ⟨camelCaseWord (blanks ++ c :: word) true ++ [32] ++ str', ?_, ?_⟩
  · have hstart := (scanWord_start hblank (hletters c List.mem_cons_self)).trans hscan
    rw [camelCaseStr, scanWords_turn (by simp) hstart]
    rw [htotal] at hrun
    rw [hnext, List.take_zero, List.drop_zero, List.nil_append]
    rw [List.append_assoc _ [32] rest, List.singleton_append] at hrun
    exact hrun
  · have hsplit : blanks ++ c :: (word ++ e :: rest) = blanks ++ (c :: word ++ e :: rest) := by
      simp
    have hwords : runs isSpace (blanks ++ c :: (word ++ e :: rest)) =
        (c :: word) :: runs isSpace rest := by
      rw [hsplit, runs_append_of_forall hblank, runs_append_cons isSpace _ rest he,
        runs_of_forall (List.cons_ne_nil c word) hletters, List.singleton_append]
    have hblank' : removeWhitespacesStr [32] = [] := rfl
    rw [removeWhitespaces_append, removeWhitespaces_append,
      removeWhitespaces_first hblank hletters, hblank', hstr', List.append_nil,
      camelCase_of_runs hwords]

/-- **What becomes of a piece.** It is the specified sentence, unless the first character that is
not blank is a capital letter and the last character. -/
theorem camelCaseStr_spec (str : List UInt8) :
    ∃ str', camelCaseStr str = some str' ∧
      (removeWhitespacesStr str' = camelCase str ↔ ¬ LoneCapital str) := by
  obtain ⟨blanks, tail, rfl, hblank, htail⟩ := exists_span isSpace str
  cases tail with
  | nil =>
    rw [List.append_nil]
    obtain ⟨str', hrun, heq⟩ := camelCaseStr_blanks hblank
    refine ⟨str', hrun, iff_of_true heq ?_⟩
    rintro ⟨blanks', c, rfl, -, hupper⟩
    have hc := hblank c (by simp)
    rw [isSpace_of_isUpper hupper] at hc
    cases hc
  | cons c tail =>
    have hc := htail c tail rfl
    by_cases hend : tail = []
    · subst hend
      rw [loneCapital_last hblank]
      exact camelCaseStr_letter hblank hc
    · have hlone := @not_loneCapital blanks tail c hc hend
      obtain ⟨word, rest, rfl, hword, hrest⟩ := exists_span (fun c => !isSpace c) tail
      have hletters : ∀ d ∈ c :: word, isSpace d = false := by
        intro d hd
        rcases List.mem_cons.mp hd with rfl | hd
        · exact hc
        · simpa using hword d hd
      cases rest with
      | nil =>
        rw [List.append_nil] at hend hlone ⊢
        obtain ⟨str', hrun, heq⟩ := camelCaseStr_word hblank hend hletters
        exact ⟨str', hrun, iff_of_true heq hlone⟩
      | cons e rest =>
        have he : isSpace e = true := by simpa using hrest e rest rfl
        obtain ⟨str', hrun, heq⟩ := @camelCaseStr_words _ _ _ rest e hblank hletters he
        exact ⟨str', hrun, iff_of_true heq hlone⟩

end Sentence

/-! ## The output -/

/-- A function on all elements that always ends gives the specified list exactly if it gives the
specified value for each element. -/
theorem mapM_eq_map_iff {α β : Type} {f : α → Option β} {g : α → β} {P : α → Prop}
    (h : ∀ x, ∃ y, f x = some y ∧ (y = g x ↔ P x)) (xs : List α) :
    xs.mapM f = some (xs.map g) ↔ ∀ x ∈ xs, P x := by
  induction xs with
  | nil => simp
  | cons x xs ih =>
    obtain ⟨y, hy, hyg⟩ := h x
    rw [List.forall_mem_cons, ← ih, ← hyg, List.mapM_cons, hy, Option.bind_eq_bind,
      Option.bind_some, List.map_cons]
    cases xs.mapM f <;> simp

/-- **Camel casing meets its specification** exactly if no sentence consists of one capital letter,
with nothing but blanks before it. -/
theorem camelCaser_iff (inputStr : List UInt8) :
    camelCaser inputStr = some ((sentences inputStr).map camelCase) ↔
      ∀ s ∈ sentences inputStr, ¬ LoneCapital s := by
  rw [camelCaser, splitStr_eq, Option.bind_eq_bind, Option.bind_some]
  refine mapM_eq_map_iff (fun str => ?_) _
  obtain ⟨str', hcased, hiff⟩ := camelCaseStr_spec str
  exact ⟨removeWhitespacesStr str', by rw [hcased, Option.map_some], hiff⟩

/-- The output for `"A."` is `"A"`, not `"a"`. -/
theorem not_camelCaser : ¬ ∀ inputStr : List UInt8, (∀ c ∈ inputStr, c ≠ 0 ∧ c < 128) →
    camelCaser inputStr = some ((sentences inputStr).map camelCase) := by
  intro h
  have hcased := h [65, 46] (by simp)
  have houtput : camelCaser [65, 46] = some [[65]] := by decide
  have hspec : (sentences [65, 46]).map camelCase = [[97]] := by decide
  rw [houtput, hspec] at hcased
  exact absurd hcased (by decide)

end SystemProgramming.CamelCaser
