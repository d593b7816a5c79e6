import Mathlib.Tactic

/-!
# Byte memories

A memory assigns a byte to every address. A field of `n` bytes is read and written
little-endian, a region is copied, filled, or overwritten with a list of bytes. Each
operation has one lemma for the addresses it touches and one frame lemma for all others.

## Main definitions

* `Memory`: the bytes of an address space
* `Memory.load m a n`, `Memory.store m a n v`: an `n`-byte little-endian field
* `Memory.copy`, `Memory.fill`, `Memory.write`: `memcpy`, `memset`, and a list of bytes
* `Memory.read m a n`: the `n` bytes from `a`

## Main results

* `Memory.load_store`: a field reads back as written
* `Memory.load_congr`: a read depends only on the bytes it covers
-/

namespace SystemProgramming

/-- The bytes of an address space. -/
def Memory := Nat → UInt8

namespace Memory

/-- Memory that reads zero. -/
def zero : Memory := fun _ => 0

/-- The bytes of a list from address `0`, and zeros after them. -/
def ofList (bs : List UInt8) : Memory := fun i => bs.getD i 0

/-- The `n`-byte little-endian field at `a`. -/
def load (m : Memory) (a : Nat) : Nat → Nat
  | 0 => 0
  | n + 1 => (m a).toNat + 256 * load m (a + 1) n

/-- Write the low `n` bytes of `v` at `a`, least significant byte first. -/
def store (m : Memory) (a n v : Nat) : Memory := fun b =>
  if a ≤ b ∧ b < a + n then UInt8.ofNat (v / 256 ^ (b - a)) else m b

/-- `memcpy(dst, src, n)`. -/
def copy (m : Memory) (dst src n : Nat) : Memory := fun b =>
  if dst ≤ b ∧ b < dst + n then m (src + (b - dst)) else m b

/-- `memset(a, v, n)`. -/
def fill (m : Memory) (a : Nat) (v : UInt8) (n : Nat) : Memory := fun b =>
  if a ≤ b ∧ b < a + n then v else m b

/-- Overwrite the region from `a` with the bytes `bs`. -/
def write (m : Memory) (a : Nat) (bs : List UInt8) : Memory := fun b =>
  if a ≤ b ∧ b < a + bs.length then bs.getD (b - a) 0 else m b

/-- The `n` bytes from `a`. -/
def read (m : Memory) (a n : Nat) : List UInt8 := (List.range n).map fun i => m (a + i)

variable {m m' : Memory} {a b n v : Nat}

/-! ## Frames -/

theorem store_of_not_mem (h : ¬ (a ≤ b ∧ b < a + n)) : store m a n v b = m b := if_neg h

theorem copy_of_mem {dst src : Nat} (h : dst ≤ b ∧ b < dst + n) :
    copy m dst src n b = m (src + (b - dst)) := if_pos h

theorem copy_of_not_mem {dst src : Nat} (h : ¬ (dst ≤ b ∧ b < dst + n)) :
    copy m dst src n b = m b := if_neg h

theorem fill_of_mem {v : UInt8} (h : a ≤ b ∧ b < a + n) : fill m a v n b = v := if_pos h

theorem fill_of_not_mem {v : UInt8} (h : ¬ (a ≤ b ∧ b < a + n)) : fill m a v n b = m b := if_neg h

theorem write_of_mem {bs : List UInt8} (h : a ≤ b ∧ b < a + bs.length) :
    write m a bs b = bs.getD (b - a) 0 := if_pos h

theorem write_of_not_mem {bs : List UInt8} (h : ¬ (a ≤ b ∧ b < a + bs.length)) :
    write m a bs b = m b := if_neg h

/-! ## Little-endian fields -/

/-- A field depends only on the bytes it covers. -/
theorem load_congr (h : ∀ b, a ≤ b → b < a + n → m b = m' b) : load m a n = load m' a n := by
  induction n generalizing a with
  | zero => rfl
  | succ n ih =>
    rw [load, load, h a le_rfl (by omega), ih fun b hb hb' => h b (by omega) (by omega)]

theorem load_lt (m : Memory) (a n : Nat) : load m a n < 256 ^ n := by
  induction n generalizing a with
  | zero => simp [load]
  | succ n ih =>
    have h₁ := ih (a + 1)
    have h₂ := (m a).toNat_lt
    rw [load, pow_succ]
    omega

/-- A field reads back as written, truncated to its width. -/
theorem load_store (m : Memory) (a n v : Nat) : load (store m a n v) a n = v % 256 ^ n := by
  induction n generalizing a v m with
  | zero => simp [load, Nat.mod_one]
  | succ n ih =>
    have htail : load (store m a (n + 1) v) (a + 1) n = load (store m (a + 1) n (v / 256)) (a + 1) n := by
      refine load_congr fun b hb hb' => ?_
      have hdiv : v / 256 / 256 ^ (b - (a + 1)) = v / 256 ^ (b - a) := by
        rw [Nat.div_div_eq_div_mul, ← pow_succ', show b - (a + 1) + 1 = b - a by omega]
      rw [store, store, if_pos (by omega), if_pos (by omega), hdiv]
    have hhead : (store m a (n + 1) v a).toNat = v % 256 := by
      rw [store, if_pos (by omega)]
      simp
    rw [load, htail, ih, hhead, pow_succ', Nat.mod_mul]

@[simp] theorem load_zero (a n : Nat) : load zero a n = 0 := by
  induction n generalizing a with
  | zero => rfl
  | succ n ih =>
    rw [load, ih]
    rfl

theorem load_store_of_lt (m : Memory) (a : Nat) {n v : Nat} (h : v < 256 ^ n) :
    load (store m a n v) a n = v := by
  rw [load_store, Nat.mod_eq_of_lt h]

/-- A field determines the bytes it covers. -/
theorem eq_of_load_eq (h : load m a n = load m' a n) (hab : a ≤ b) (hb : b < a + n) :
    m b = m' b := by
  induction n generalizing a with
  | zero => omega
  | succ n ih =>
    -- the lowest byte is the remainder, the other bytes are the quotient
    have h₁ := (m a).toNat_lt
    have h₂ := (m' a).toNat_lt
    rw [load, load] at h
    rcases Nat.eq_or_lt_of_le hab with rfl | hlt
    · exact UInt8.toNat_inj.mp (by omega)
    · have htail : load m (a + 1) n = load m' (a + 1) n := by omega
      exact ih htail hlt (by omega)

/-- The second of two writes to a field counts. -/
theorem store_store (m : Memory) (a n v v' : Nat) :
    store (store m a n v) a n v' = store m a n v' := by
  funext b
  by_cases h : a ≤ b ∧ b < a + n
  · exact (if_pos h).trans (if_pos h).symm
  · rw [store_of_not_mem h, store_of_not_mem h, store_of_not_mem h]

/-- Writing one field leaves a disjoint field alone. -/
theorem load_store_of_disjoint {k : Nat} (h : a + n ≤ b ∨ b + k ≤ a) :
    load (store m a n v) b k = load m b k :=
  load_congr fun _ _ _ => store_of_not_mem (by omega)

/-! ## Regions -/

@[simp] theorem length_read (m : Memory) (a n : Nat) : (read m a n).length = n := by simp [read]

theorem getElem?_read (m : Memory) (a n i : Nat) :
    (read m a n)[i]? = if i < n then some (m (a + i)) else none := by
  by_cases h : i < n <;> simp [read, h]

theorem read_eq_iff {bs : List UInt8} :
    read m a n = bs ↔ bs.length = n ∧ ∀ i, i < n → m (a + i) = bs.getD i 0 := by
  constructor
  · rintro rfl
    exact ⟨length_read .., fun i hi => by simp [read, hi]⟩
  · rintro ⟨hlen, h⟩
    refine List.ext_getElem (by simp [hlen]) fun i h₁ h₂ => ?_
    have hi : i < n := by simpa using h₁
    simpa [read, List.getD_eq_getElem?_getD, List.getElem?_eq_getElem h₂] using h i hi

end Memory

end SystemProgramming
