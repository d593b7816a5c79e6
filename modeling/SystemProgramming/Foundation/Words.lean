import Mathlib.Tactic

/-!
# Words as numbers

The words of length `d` over `b` letters are the numbers below `b ^ d`, most significant letter
first. Where the letters are in order, so are the words.

## Main definitions

* `word letter b d n`: the word of length `d` that stands for `n`

## Main results

* `word_lt_word`: the order of numbers is the lexicographic order of words
* `exists_word`: every word over the letters stands for a number below `b ^ d`
* `word_succ`, `word_carry`: the next word, without and with a carry
* `flatMap_range'_sub`: consecutive ranges
-/

namespace SystemProgramming

variable {α : Type*} (letter : Nat → α) (b : Nat)

/-- The word of length `d` that stands for `n`. -/
def word : Nat → Nat → List α
  | 0, _ => []
  | d + 1, n => word d (n / b) ++ [letter (n % b)]

variable {letter b} {d m n : Nat}

@[simp] theorem length_word : (word letter b d n).length = d := by
  induction d generalizing n with
  | zero => rfl
  | succ d ih => rw [word, List.length_append, ih, List.length_singleton]

/-- The next word: the last letter goes up. -/
theorem word_succ (hb : 0 < b) (hn : n % b + 1 < b) :
    word letter b (d + 1) (n + 1) = word letter b d (n / b) ++ [letter (n % b + 1)] := by
  have hdiv : (n + 1) / b = n / b := by
    rw [Nat.succ_div_of_not_dvd]
    intro hdvd
    have := Nat.mod_eq_zero_of_dvd hdvd
    rw [Nat.add_mod, Nat.mod_eq_of_lt (by omega : 1 < b), Nat.mod_eq_of_lt hn] at this
    omega
  have hmod : (n + 1) % b = n % b + 1 := by
    rw [Nat.add_mod, Nat.mod_eq_of_lt (by omega : 1 < b), Nat.mod_eq_of_lt hn]
  rw [word, hdiv, hmod]

/-- The next word: the last letter starts again, and the word before it goes up. -/
theorem word_carry (hn : n % b + 1 = b) :
    word letter b (d + 1) (n + 1) = word letter b d (n / b + 1) ++ [letter 0] := by
  have hdvd : b ∣ n + 1 := by
    refine ⟨n / b + 1, ?_⟩
    have := Nat.div_add_mod n b
    rw [Nat.mul_add, Nat.mul_one]
    omega
  rw [word, Nat.succ_div_of_dvd hdvd, Nat.mod_eq_zero_of_dvd hdvd]

/-- Every word over the letters stands for a number. -/
theorem exists_word (w : List α) (hw : ∀ c ∈ w, ∃ k < b, letter k = c) :
    ∃ n < b ^ w.length, word letter b w.length n = w := by
  induction w using List.reverseRecOn with
  | nil => exact ⟨0, Nat.one_pos, rfl⟩
  | append_singleton w c ih =>
    obtain ⟨n, hn, hword⟩ := ih fun x hx => hw x (by simp [hx])
    obtain ⟨k, hk, rfl⟩ := hw c (by simp)
    have hb : 0 < b := by omega
    refine ⟨b * n + k, ?_, ?_⟩
    · have hle : b * (n + 1) ≤ b * b ^ w.length := Nat.mul_le_mul_left b hn
      rw [List.length_append, List.length_singleton, Nat.pow_succ, Nat.mul_comm _ b]
      rw [Nat.mul_add] at hle
      omega
    · rw [List.length_append, List.length_singleton, word, Nat.mul_add_div hb,
        Nat.div_eq_of_lt hk, Nat.add_zero, hword, Nat.mul_add_mod, Nat.mod_eq_of_lt hk]

theorem append_lt_append_of_length_eq [LT α] {u v x y : List α} (hlt : u < v)
    (hlen : u.length = v.length) : u ++ x < v ++ y := by
  induction u generalizing v with
  | nil =>
    obtain rfl : v = [] := List.length_eq_zero_iff.mp hlen.symm
    exact absurd hlt (List.not_lt_nil _)
  | cons a u ih =>
    cases v with
    | nil => simp at hlen
    | cons c v =>
      rw [List.cons_append, List.cons_append, List.cons_lt_cons_iff]
      refine (List.cons_lt_cons_iff.mp hlt).imp id fun h => ⟨h.1, ih h.2 (by simpa using hlen)⟩

/-- **The order of numbers is the lexicographic order of words.** -/
theorem word_lt_word [LT α] (hb : 0 < b)
    (hletter : ∀ i j, i < j → j < b → letter i < letter j) (hmn : m < n) (hn : n < b ^ d) :
    word letter b d m < word letter b d n := by
  induction d generalizing m n with
  | zero =>
    rw [Nat.pow_zero] at hn
    omega
  | succ d ih =>
    rw [word, word]
    have hdiv : m / b ≤ n / b := Nat.div_le_div_right hmn.le
    rcases hdiv.lt_or_eq with hlt | heq
    · apply append_lt_append_of_length_eq _ (by simp)
      apply ih hlt
      rw [Nat.div_lt_iff_lt_mul hb, ← Nat.pow_succ]
      exact hn
    · -- the same word before the last letter
      rw [heq]
      apply List.append_left_lt
      have hm := Nat.div_add_mod m b
      have hn := Nat.div_add_mod n b
      rw [heq] at hm
      rw [List.cons_lt_cons_iff]
      exact Or.inl (hletter _ _ (by omega) (Nat.mod_lt _ hb))

/-- Consecutive ranges put together. -/
theorem flatMap_range'_sub {f : Nat → Nat} (hf : Monotone f) (k : Nat) :
    (List.range k).flatMap (fun i => List.range' (f i) (f (i + 1) - f i)) =
      List.range' (f 0) (f k - f 0) := by
  induction k with
  | zero => simp
  | succ k ih =>
    have h0 : f 0 ≤ f k := hf (Nat.zero_le k)
    have hk : f k ≤ f (k + 1) := hf (Nat.le_succ k)
    rw [List.range_succ, List.flatMap_append, ih, List.flatMap_singleton]
    have hcount : f (k + 1) - f 0 = (f k - f 0) + (f (k + 1) - f k) := by omega
    rw [hcount, List.range'_append_1.symm]
    congr 2
    omega

end SystemProgramming
