import Mathlib.Data.List.TakeWhile
import SystemProgramming.Foundation.Ctype

/-!
# Numbers in text

The C library prints an `int` in decimal and reads one back.

## Main definitions

* `decimal n`: the decimal digits of a number
* `formatInt`: the conversion `"%d"`
* `atoi`: the number that a string begins with

## Main results

* `atoi_decimal`: a number comes back as it was printed
-/

namespace SystemProgramming

/-- The decimal digits of `n`. -/
def decimal (n : Nat) : List UInt8 :=
  if n < 10 then [UInt8.ofNat (48 + n)] else decimal (n / 10) ++ [UInt8.ofNat (48 + n % 10)]

/-- `"%d"`. -/
def formatInt (i : Int) : List UInt8 :=
  if i < 0 then 45 :: decimal i.natAbs else decimal i.natAbs

/-- `isdigit`, in the C locale. -/
def isDigit (c : UInt8) : Bool := 48 ≤ c && c ≤ 57

/-- The value of the digits that a string begins with. -/
def digitsValue (s : List UInt8) : Nat :=
  (s.takeWhile isDigit).foldl (fun n c => 10 * n + (c.toNat - 48)) 0

/-- `atoi`: blanks and a sign are skipped. -/
def atoi (s : List UInt8) : Int :=
  match s.dropWhile Ctype.isSpace with
  | 45 :: s => -(digitsValue s : Int)
  | 43 :: s => digitsValue s
  | s => digitsValue s

theorem toNat_digit {n : Nat} (h : n < 10) : (UInt8.ofNat (48 + n)).toNat = 48 + n := by
  rw [UInt8.toNat_ofNat']
  omega

theorem isDigit_iff {c : UInt8} : isDigit c = true ↔ 48 ≤ c.toNat ∧ c.toNat ≤ 57 := by
  rw [isDigit, Bool.and_eq_true, decide_eq_true_iff, decide_eq_true_iff]
  exact Iff.rfl

theorem isDigit_digit {n : Nat} (h : n < 10) : isDigit (UInt8.ofNat (48 + n)) = true := by
  rw [isDigit_iff, toNat_digit h]
  omega

theorem decimal_ne_nil (n : Nat) : decimal n ≠ [] := by
  rw [decimal]
  split_ifs <;> simp

theorem isDigit_of_mem_decimal {n : Nat} {c : UInt8} (h : c ∈ decimal n) : isDigit c = true := by
  induction n using Nat.strong_induction_on with
  | _ n ih =>
    rw [decimal] at h
    split_ifs at h with hn
    · rw [List.mem_singleton.mp h]
      exact isDigit_digit hn
    · rcases List.mem_append.mp h with h | h
      · exact ih (n / 10) (by omega) h
      · rw [List.mem_singleton.mp h]
        exact isDigit_digit (Nat.mod_lt n (by decide))

theorem foldl_decimal (n : Nat) :
    (decimal n).foldl (fun n c => 10 * n + (c.toNat - 48)) 0 = n := by
  induction n using Nat.strong_induction_on with
  | _ n ih =>
    rw [decimal]
    split_ifs with hn
    · rw [List.foldl_cons, List.foldl_nil, toNat_digit hn]
      omega
    · rw [List.foldl_append, ih (n / 10) (by omega), List.foldl_cons, List.foldl_nil,
        toNat_digit (Nat.mod_lt n (by decide))]
      omega

/-- **A number** comes back as it was printed. -/
theorem atoi_decimal (n : Nat) : atoi (decimal n) = n := by
  obtain ⟨c, s, hs⟩ := List.exists_cons_of_ne_nil (decimal_ne_nil n)
  have hdigit : isDigit c = true := isDigit_of_mem_decimal (hs ▸ List.mem_cons_self)
  have hrange := isDigit_iff.mp hdigit
  have hspace : Ctype.isSpace c = false := Ctype.isSpace_of_lt (by omega)
  have hdrop : (c :: s).dropWhile Ctype.isSpace = c :: s :=
    List.dropWhile_cons_of_neg (by simp [hspace])
  -- the first byte is no sign
  have hminus : c ≠ 45 := fun h => absurd hrange.1 (by rw [h]; decide)
  have hplus : c ≠ 43 := fun h => absurd hrange.1 (by rw [h]; decide)
  have hvalue : digitsValue (decimal n) = n := by
    have htake : (decimal n).takeWhile isDigit = decimal n :=
      List.takeWhile_eq_self_iff.mpr fun _ => isDigit_of_mem_decimal
    rw [digitsValue, htake, foldl_decimal]
  rw [atoi, hs, hdrop]
  rw [hs] at hvalue
  split
  · exact absurd (List.cons.inj ‹_›).1 hminus
  · exact absurd (List.cons.inj ‹_›).1 hplus
  · rw [hvalue]

theorem formatInt_natCast (n : Nat) : formatInt n = decimal n := by
  rw [formatInt, if_neg (by omega), Int.natAbs_natCast]

end SystemProgramming
