import SystemProgramming.Foundation.Words

/-!
# The search of `password_cracker/cracker2.c`

The worker threads of `cracker2` share the completions of a known part: `getSubrange` gives each
thread a range of indices, `setStringPosition` writes the first one over the dots, and
`incrementString` steps through the others. It is called on the whole password, so a carry can
run into the prefix, which happens after the last completion only.

A string is the list of its bytes. `int`, `long` and `size` are the conversions of the source:
the number of threads and the ids of the threads are kept in an `int`. The hash is a parameter,
`crypt_r` with the salt of the source.

## Main definitions

* `getPrefixLength`, `setStringPosition`, `incrementString`, `getSubrange`: `libs/utils.c`
* `triedBy`, `tried`: the candidates of one worker of `solve_task` and of all of them, as long as
  nobody else finds the password
* `CoversOnce`: the completions of a prefix in lexicographic order

## Main results

* `incrementString_word`: the next completion
* `triedBy_eq`: the candidates of a worker are its range of completions
* `search_covers`: all workers together try every completion once, in order
-/

namespace SystemProgramming.Cracker

/-! ## The functions of `utils.c` -/

/-- An `int`. -/
def int (x : Int) : Int := x.bmod (2 ^ 32)

/-- A `long`. -/
def long (x : Int) : Int := x.bmod (2 ^ 64)

/-- A `size_t`. -/
def size (x : Int) : Nat := (x % 2 ^ 64).toNat

/-- `getPrefixLength`. -/
def getPrefixLength (str : List UInt8) : Nat :=
  if 46 ∈ str then str.idxOf 46 else str.length

/-- `'a' + k` as a `char`. -/
def fromA (k : Int) : UInt8 := UInt8.ofNat ((97 + k) % 256).toNat

/-- The loop of `setStringPosition`, which writes `p` bytes from the last one to the first. -/
def setPositions : Nat → Int → List UInt8
  | 0, _ => []
  | p + 1, n => setPositions p (n.tdiv 26) ++ [fromA (n.tmod 26)]

/-- `setStringPosition`. -/
def setStringPosition (result : List UInt8) (n : Int) : List UInt8 :=
  setPositions result.length n

/-- The first loop of `incrementString`: the last of the first `p` bytes that is not a `z`. -/
def lastNotZ (str : List UInt8) : Nat → Option Nat
  | 0 => none
  | p + 1 => if str.getD p 0 = 122 then lastNotZ str p else some p

/-- `incrementString`: the new string, and what is returned. A byte that goes up to zero ends
the string. -/
def incrementString (str : List UInt8) : List UInt8 × Nat :=
  match lastNotZ str str.length with
  | some p =>
    let c := str.getD p 0 + 1
    if c = 0 then (str.take p, 1)
    else (str.take p ++ c :: List.replicate (str.length - p - 1) 97, 1)
  | none => (str, 0)

/-- `getSubrange`: the start index and the count. -/
def getSubrange (unknownLetterCount threadCount : Nat) (threadId : Int) : Int × Int :=
  let max := (fun m => long (m * 26))^[unknownLetterCount] 1
  let startIndex := long (size (long (max * int (threadId - 1))) / threadCount : Nat)
  let endIndex := long (size (long (max * threadId)) / threadCount : Nat)
  let endIndex := if endIndex > max then max else endIndex
  (startIndex, long (endIndex - startIndex))

/-! ## The workers -/

section Workers

variable (crypt : List UInt8 → List UInt8) (hashedPwd : List UInt8)

/-- The loop of `solve_task`, with `found` zero: it stops at the password. -/
def tryCandidates : Nat → List UInt8 → List (List UInt8)
  | 0, _ => []
  | c + 1, pwd =>
    if crypt pwd = hashedPwd then [pwd]
    else pwd :: tryCandidates c (incrementString pwd).1

/-- The range of a worker: where `getSubrange` tells it to start, and how long it is.
`THREAD_COUNT` is an `int`, and so is the id that `getSubrange` takes. -/
def rangeOf (knownPwd : List UInt8) (threadCount tid : Nat) : Int × Int :=
  getSubrange (knownPwd.length - getPrefixLength knownPwd) (size (int threadCount)) (int tid)

/-- The first password of a worker. -/
def startPassword (knownPwd : List UInt8) (threadCount tid : Nat) : List UInt8 :=
  let dotsStart := getPrefixLength knownPwd
  knownPwd.take dotsStart ++
    setStringPosition (knownPwd.drop dotsStart) (rangeOf knownPwd threadCount tid).1

/-- The candidates that a worker of `solve_task` tries. -/
def triedBy (knownPwd : List UInt8) (threadCount tid : Nat) : List (List UInt8) :=
  tryCandidates crypt hashedPwd (rangeOf knownPwd threadCount tid).2.toNat
    (startPassword knownPwd threadCount tid)

/-- The candidates of all workers, whose ids start at `1`. -/
def tried (knownPwd : List UInt8) (threadCount : Nat) : List (List UInt8) :=
  (List.range threadCount).flatMap fun i =>
    triedBy crypt hashedPwd knownPwd threadCount (i + 1)

end Workers

/-- The strings `l` are the completions of `pre` by `d` lowercase letters, each once and in
lexicographic order. -/
def CoversOnce (pre : List UInt8) (d : Nat) (l : List (List UInt8)) : Prop :=
  l.length = 26 ^ d ∧ l.Pairwise (· < ·) ∧
    ∀ s, s ∈ l ↔ ∃ w : List UInt8, w.length = d ∧ (∀ c ∈ w, 97 ≤ c ∧ c ≤ 122) ∧ s = pre ++ w

/-! ## Completions as numbers -/

/-- The `k`-th lowercase letter. -/
def letter (k : Nat) : UInt8 := UInt8.ofNat (97 + k)

variable {d n : Nat} {u v pre : List UInt8} {c : UInt8}

theorem toNat_letter {k : Nat} (hk : k < 26) : (letter k).toNat = 97 + k := by
  rw [letter, UInt8.toNat_ofNat', Nat.mod_eq_of_lt (by omega)]

theorem letter_lt {i j : Nat} (hij : i < j) (hj : j < 26) : letter i < letter j := by
  rw [UInt8.lt_iff_toNat_lt, toNat_letter (by omega), toNat_letter hj]
  omega

theorem exists_letter (hlow : 97 ≤ c) (hhigh : c ≤ 122) : ∃ k < 26, letter k = c := by
  have h97 : 97 ≤ c.toNat := hlow
  have h122 : c.toNat ≤ 122 := hhigh
  refine ⟨c.toNat - 97, by omega, ?_⟩
  rw [← UInt8.toNat_inj, toNat_letter (by omega)]
  omega

theorem letter_bounds {k : Nat} (hk : k < 26) : 97 ≤ letter k ∧ letter k ≤ 122 := by
  have := toNat_letter hk
  constructor
  · change 97 ≤ (letter k).toNat
    omega
  · change (letter k).toNat ≤ 122
    omega

theorem mem_word (hc : c ∈ word letter 26 d n) : 97 ≤ c ∧ c ≤ 122 := by
  induction d generalizing n with
  | zero => simp [word] at hc
  | succ d ih =>
    rcases List.mem_append.mp hc with hc | hc
    · exact ih hc
    · obtain rfl : c = letter (n % 26) := by simpa using hc
      exact letter_bounds (Nat.mod_lt _ (by omega))

theorem setPositions_eq : setPositions d n = word letter 26 d n := by
  induction d generalizing n with
  | zero => rfl
  | succ d ih =>
    have hdigit : fromA ((n : Int).tmod 26) = letter (n % 26) := by
      rw [fromA, Int.tmod_eq_emod_of_nonneg (by omega), letter]
      congr 1
      omega
    rw [setPositions, word, hdigit, ← ih]
    rfl

/-! ## The next completion -/

theorem getD_append_left {p : Nat} (hp : p < u.length) : (u ++ v).getD p 0 = u.getD p 0 := by
  rw [List.getD_eq_getElem?_getD, List.getElem?_append_left hp, List.getD_eq_getElem?_getD]

theorem lastNotZ_append {p : Nat} (hp : p ≤ u.length) : lastNotZ (u ++ v) p = lastNotZ u p := by
  induction p with
  | zero => rfl
  | succ p ih =>
    rw [lastNotZ, lastNotZ, ih (by omega), getD_append_left (by omega)]

theorem lastNotZ_lt {str : List UInt8} {p q : Nat} (h : lastNotZ str p = some q) : q < p := by
  induction p with
  | zero => cases h
  | succ p ih =>
    rw [lastNotZ] at h
    split_ifs at h with hz
    · exact (ih h).trans (Nat.lt_succ_self p)
    · obtain rfl := Option.some.inj h
      exact Nat.lt_succ_self p

/-- The last byte goes up. -/
theorem incrementString_last (hc : c ≠ 122) (hzero : c + 1 ≠ 0) :
    incrementString (u ++ [c]) = (u ++ [c + 1], 1) := by
  have hget : (u ++ [c]).getD u.length 0 = c := by simp
  have hlast : lastNotZ (u ++ [c]) (u ++ [c]).length = some u.length := by
    rw [List.length_append, List.length_singleton, lastNotZ, hget, if_neg hc]
  rw [incrementString, hlast]
  simp only [hget, if_neg hzero, List.take_left', List.length_append, List.length_singleton]
  simp

/-- The last byte is a `z`, and the bytes before it go up. -/
theorem incrementString_carry (h : incrementString u = (v, 1)) (hlen : v.length = u.length) :
    incrementString (u ++ [122]) = (v ++ [97], 1) := by
  rw [incrementString] at h
  cases hp : lastNotZ u u.length with
  | none => simp [hp] at h
  | some p =>
    have hlt : p < u.length := lastNotZ_lt hp
    have hlast : lastNotZ (u ++ [122]) (u ++ [122]).length = some p := by
      rw [List.length_append, List.length_singleton, lastNotZ, lastNotZ_append le_rfl, hp]
      simp
    simp only [hp] at h
    split_ifs at h with hzero
    · -- the string got shorter
      obtain rfl : u.take p = v := congrArg Prod.fst h
      rw [List.length_take] at hlen
      omega
    · obtain rfl := congrArg Prod.fst h
      have hget : (u ++ [122]).getD p 0 = u.getD p 0 := getD_append_left hlt
      have hrest : (u ++ [122]).length - p - 1 = (u.length - p - 1) + 1 := by
        rw [List.length_append, List.length_singleton]
        omega
      rw [incrementString, hlast]
      simp only [hget, if_neg hzero, hrest, List.replicate_succ', List.take_append_of_le_length hlt.le,
        List.append_assoc, List.cons_append]

/-- **The next completion.** -/
theorem incrementString_word (hn : n + 1 < 26 ^ d) :
    incrementString (pre ++ word letter 26 d n) = (pre ++ word letter 26 d (n + 1), 1) := by
  induction d generalizing n with
  | zero =>
    rw [Nat.pow_zero] at hn
    omega
  | succ d ih =>
    have hlt : n % 26 < 26 := Nat.mod_lt _ (by omega)
    rcases (show n % 26 + 1 ≤ 26 from hlt).lt_or_eq with hmod | hmod
    · have hnext : letter (n % 26) + 1 = letter (n % 26 + 1) := by
        rw [← UInt8.toNat_inj, UInt8.toNat_add, toNat_letter hlt, toNat_letter hmod]
        have hone : (1 : UInt8).toNat = 1 := rfl
        omega
      have hz : letter (n % 26) ≠ 122 := by
        rw [Ne, ← UInt8.toNat_inj, toNat_letter hlt]
        have hlast : (122 : UInt8).toNat = 122 := rfl
        omega
      have hpos : letter (n % 26) + 1 ≠ 0 := by
        rw [hnext, Ne, ← UInt8.toNat_inj, toNat_letter hmod]
        have hnul : (0 : UInt8).toNat = 0 := rfl
        omega
      rw [word_succ (by omega) hmod, word, ← List.append_assoc, incrementString_last hz hpos,
        hnext, List.append_assoc]
    · have hz : letter (n % 26) = 122 := by
        rw [show n % 26 = 25 by omega]
        rfl
      have hdiv : n / 26 + 1 < 26 ^ d := by
        rw [Nat.pow_succ] at hn
        omega
      rw [word_carry hmod, word, hz, ← List.append_assoc,
        incrementString_carry (ih hdiv) (by simp), List.append_assoc]
      rfl

/-! ## The range of a worker -/

theorem int_eq {x : Nat} (hx : x < 2 ^ 31) : int x = x := by
  rw [int, Int.bmod_def]
  omega

theorem long_eq {x : Nat} (hx : x < 2 ^ 63) : long x = x := by
  rw [long, Int.bmod_def]
  omega

theorem size_eq {x : Nat} (hx : x < 2 ^ 63) : size x = x := by
  rw [size]
  omega

/-- The loop of `getSubrange`. -/
theorem max_eq (hd : 26 ^ d < 2 ^ 63) :
    (fun m => long (m * 26))^[d] 1 = ((26 ^ d : Nat) : Int) := by
  induction d with
  | zero => rfl
  | succ d ih =>
    have hlt : 26 ^ d < 2 ^ 63 := (Nat.pow_le_pow_right (by omega) (Nat.le_succ d)).trans_lt hd
    have hcast : ((26 ^ d : Nat) : Int) * 26 = ((26 ^ (d + 1) : Nat) : Int) := by
      rw [Nat.pow_succ]
      push_cast
      rfl
    rw [Function.iterate_succ_apply', ih hlt, hcast, long_eq hd]

variable {T t : Nat}

/-- Where the range of the thread `t + 1` starts. -/
def bound (d T t : Nat) : Nat := 26 ^ d * t / T

theorem monotone_bound : Monotone (bound d T) :=
  fun _ _ hij => Nat.div_le_div_right (Nat.mul_le_mul_left _ hij)

theorem bound_self (hT : 1 ≤ T) : bound d T T = 26 ^ d := Nat.mul_div_cancel _ hT

theorem bound_le (hT : 1 ≤ T) (ht : t ≤ T) : bound d T t ≤ 26 ^ d :=
  (monotone_bound ht).trans (bound_self hT).le

/-- **Each worker gets its share of the indices.** -/
theorem getSubrange_eq (hT : 1 ≤ T) (hint : T < 2 ^ 31) (hfit : 26 ^ d * T < 2 ^ 63)
    (ht : t < T) :
    getSubrange d (size (int T)) (int (t + 1 : Nat)) =
      ((bound d T t : Int), ((bound d T (t + 1) - bound d T t : Nat) : Int)) := by
  have hd : 26 ^ d < 2 ^ 63 := (Nat.le_mul_of_pos_right _ hT).trans_lt hfit
  have hprod : ∀ k ≤ T, 26 ^ d * k < 2 ^ 63 := fun k hk =>
    (Nat.mul_le_mul_left _ hk).trans_lt hfit
  have hdiv : ∀ k ≤ T, long ((26 ^ d * k / T : Nat) : Int) = (bound d T k : Int) := fun k hk =>
    long_eq ((Nat.div_le_self _ _).trans_lt (hprod k hk))
  -- the product of the loop's result and an id, through `long` and `size_t`
  have hshare : ∀ k ≤ T, long ((size (long (((26 ^ d : Nat) : Int) * (k : Int))) / T : Nat) : Int) =
      (bound d T k : Int) := by
    intro k hk
    rw [← Nat.cast_mul, long_eq (hprod k hk), size_eq (hprod k hk), hdiv k hk]
  have hpred : int (((t + 1 : Nat) : Int) - 1) = (t : Int) := by
    rw [← int_eq (show t < 2 ^ 31 by omega)]
    congr 1
    omega
  have hle : bound d T t ≤ bound d T (t + 1) := monotone_bound (Nat.le_succ t)
  have hend : ¬ (bound d T (t + 1) : Int) > ((26 ^ d : Nat) : Int) := by
    have := bound_le (d := d) hT (show t + 1 ≤ T by omega)
    omega
  have hcount : long ((bound d T (t + 1) : Int) - (bound d T t : Int)) =
      ((bound d T (t + 1) - bound d T t : Nat) : Int) := by
    rw [← Nat.cast_sub hle]
    have := bound_le (d := d) hT (show t + 1 ≤ T by omega)
    exact long_eq (by omega)
  have hsize : size (int T) = T := by rw [int_eq hint, size_eq (by omega)]
  have hid : int ((t + 1 : Nat) : Int) = ((t + 1 : Nat) : Int) := int_eq (by omega)
  simp only [getSubrange, hsize, hid, max_eq hd, hpred, hshare t ht.le, hshare (t + 1) ht,
    if_neg hend, hcount]

/-! ## The candidates -/

variable {crypt : List UInt8 → List UInt8} {hashedPwd : List UInt8}

/-- The loop of a worker that does not find the password. -/
theorem tryCandidates_eq {c i : Nat} (hfit : i + c ≤ 26 ^ d)
    (hmiss : ∀ s ∈ tryCandidates crypt hashedPwd c (pre ++ word letter 26 d i),
      crypt s ≠ hashedPwd) :
    tryCandidates crypt hashedPwd c (pre ++ word letter 26 d i) =
      (List.range' i c).map fun n => pre ++ word letter 26 d n := by
  induction c generalizing i with
  | zero => rfl
  | succ c ih =>
    have hne : crypt (pre ++ word letter 26 d i) ≠ hashedPwd := by
      refine hmiss _ ?_
      rw [tryCandidates]
      split_ifs <;> simp
    rw [tryCandidates, if_neg hne] at hmiss ⊢
    rw [List.range'_succ, List.map_cons]
    congr 1
    cases c with
    | zero => rfl
    | succ c =>
      rw [incrementString_word (by omega)] at hmiss ⊢
      exact ih (by omega) fun s hs => hmiss s (List.mem_cons_of_mem _ hs)

/-- The known part: a prefix without dots, and dots. -/
theorem getPrefixLength_eq (hdots : 46 ∉ pre) :
    getPrefixLength (pre ++ List.replicate d 46) = pre.length := by
  rw [getPrefixLength]
  cases d with
  | zero => simp [hdots]
  | succ d =>
    rw [if_pos (by simp), List.idxOf_append_of_notMem hdots, List.replicate_succ,
      List.idxOf_cons_self, Nat.add_zero]

/-- **The candidates of a worker are its range of completions.** -/
theorem triedBy_eq (hdots : 46 ∉ pre) (hT : 1 ≤ T) (hint : T < 2 ^ 31)
    (hfit : 26 ^ d * T < 2 ^ 63) (ht : t < T)
    (hmiss : ∀ s ∈ triedBy crypt hashedPwd (pre ++ List.replicate d 46) T (t + 1),
      crypt s ≠ hashedPwd) :
    triedBy crypt hashedPwd (pre ++ List.replicate d 46) T (t + 1) =
      (List.range' (bound d T t) (bound d T (t + 1) - bound d T t)).map
        fun n => pre ++ word letter 26 d n := by
  have hlen : (pre ++ List.replicate d (46 : UInt8)).length - pre.length = d := by simp
  have hrange := getSubrange_eq hT hint hfit ht
  have hstart : startPassword (pre ++ List.replicate d 46) T (t + 1) =
      pre ++ word letter 26 d (bound d T t) := by
    simp only [startPassword, rangeOf, getPrefixLength_eq hdots, hlen, hrange]
    rw [List.take_left', List.drop_left', setStringPosition, List.length_replicate, setPositions_eq]
    · rfl
    · rfl
  have hcount : (rangeOf (pre ++ List.replicate d 46) T (t + 1)).2.toNat =
      bound d T (t + 1) - bound d T t := by
    simp only [rangeOf, getPrefixLength_eq hdots, hlen, hrange]
    omega
  have hle : bound d T t ≤ bound d T (t + 1) := monotone_bound (Nat.le_succ t)
  have htop := bound_le (d := d) hT (show t + 1 ≤ T by omega)
  rw [triedBy, hstart, hcount] at hmiss ⊢
  exact tryCandidates_eq (by omega) hmiss

/-- The completions in the order of their numbers are the completions in order. -/
theorem coversOnce_word :
    CoversOnce pre d ((List.range' 0 (26 ^ d)).map fun n => pre ++ word letter 26 d n) := by
  refine ⟨by simp, ?_, fun s => ⟨fun hs => ?_, ?_⟩⟩
  · rw [List.pairwise_map]
    refine List.Pairwise.imp_of_mem (fun {m n} hm hn hmn => ?_)
      (List.pairwise_lt_range' 1 Nat.one_pos)
    rw [List.mem_range'_1] at hn
    exact List.append_left_lt (word_lt_word (by omega) (fun i j => letter_lt) hmn (by omega))
  · obtain ⟨n, -, rfl⟩ := List.mem_map.mp hs
    exact ⟨word letter 26 d n, length_word, fun c hc => mem_word hc, rfl⟩
  · rintro ⟨w, rfl, hw, rfl⟩
    obtain ⟨n, hn, hword⟩ := exists_word w fun c hc => exists_letter (hw c hc).1 (hw c hc).2
    refine List.mem_map.mpr ⟨n, ?_, by rw [hword]⟩
    rw [List.mem_range'_1]
    omega

/-- **The search covers the space once.** Where the number of threads is an `int`, and the
products of `getSubrange` fit a `long`, the workers that do not find the password try all
completions of the prefix, in order and each once. -/
theorem search_covers (pre : List UInt8) (d T : Nat) (crypt : List UInt8 → List UInt8)
    (hashedPwd : List UInt8) (hdots : 46 ∉ pre) (hT : 1 ≤ T) (hint : T < 2 ^ 31)
    (hfit : 26 ^ d * T < 2 ^ 63)
    (hmiss : ∀ s ∈ tried crypt hashedPwd (pre ++ List.replicate d 46) T, crypt s ≠ hashedPwd) :
    CoversOnce pre d (tried crypt hashedPwd (pre ++ List.replicate d 46) T) := by
  have hworker : ∀ t ∈ List.range T,
      triedBy crypt hashedPwd (pre ++ List.replicate d 46) T (t + 1) =
        (List.range' (bound d T t) (bound d T (t + 1) - bound d T t)).map
          fun n => pre ++ word letter 26 d n := fun t ht =>
    triedBy_eq hdots hT hint hfit (List.mem_range.mp ht) fun s hs =>
      hmiss s (List.mem_flatMap.mpr ⟨t, ht, hs⟩)
  have hall : tried crypt hashedPwd (pre ++ List.replicate d 46) T =
      (List.range' 0 (26 ^ d)).map fun n => pre ++ word letter 26 d n := by
    have hzero : bound d T 0 = 0 := by simp [bound]
    rw [tried, List.flatMap_congr hworker, ← List.map_flatMap, flatMap_range'_sub monotone_bound,
      bound_self hT, hzero, Nat.sub_zero]
  rw [hall]
  exact coversOnce_word

/-! ## Runs -/

/-- `abc`. -/
def abc : List UInt8 := [97, 98, 99]

/-- `crypt_r` with the salt `xx`, at `abc`. -/
def cryptAbc (_pwd : List UInt8) : List UInt8 :=
  [120, 120, 55, 48, 52, 47, 53, 66, 56, 55, 74, 110, 50]

/-- The hash of another password. -/
def hashAbd : List UInt8 := [120, 120, 83, 48, 56, 88, 90, 111, 67, 87, 107, 114, 119]

theorem cryptAbc_ne (s : List UInt8) : cryptAbc s ≠ hashAbd := by
  rw [cryptAbc, hashAbd]
  decide

/-- `ab`. -/
def ab : List UInt8 := [97, 98]

/-- The hashes of `aba` to `abz` with the salt `xx`. -/
def hashesAb : List String :=
  ["xxEOHXt818CvM", "xxWe1Xp/hSLSU", "xx704/5B87Jn2", "xxS08XZoCWkrw", "xxvOfCvqM.U6E",
    "xxYjODcX1p.cs", "xxhAJlcO2NjhE", "xx996GyaESBuU", "xxBfUIne/hz6g", "xx4esqlAcy676",
    "xxqTuCxl3UQlA", "xxLxODAoEn.kI", "xx0/uzyx0uP5.", "xxmvge6yFIjhU", "xxObYnMOiHfVk",
    "xxgF5wWfXeUMc", "xxx4nWCwgEYpM", "xxcdmoPsQN/7A", "xx/F8cFNBBMjM", "xxuXVkZuRgfNM",
    "xxVGV9GZpk4Lw", "xxseE7QkvhueY", "xxd9lbhMXsIJ2", "xxe1C0ff7WLu.", "xxjZUCA0naWXQ",
    "xxY0rDIZuo8tk"]

def bytes (s : String) : List UInt8 := s.toList.map fun c => c.toNat.toUInt8

/-- `crypt_r` with the salt `xx`, at `aba` to `abz`. -/
def cryptAb (pwd : List UInt8) : List UInt8 :=
  bytes (hashesAb.getD ((pwd.getD 2 97).toNat - 97) "")

/-- The hash of `xyz`. -/
def hashXyz : List UInt8 := bytes "xxqUhccHGwtpw"

theorem cryptAb_ne (s : List UInt8) : cryptAb s ≠ hashXyz := by
  have hall : ∀ h ∈ hashesAb, bytes h ≠ hashXyz := by decide +kernel
  rw [cryptAb, List.getD_eq_getElem?_getD]
  cases hhash : hashesAb[(s.getD 2 97).toNat - 97]? with
  | none => decide +kernel
  | some h => exact hall h (List.mem_of_getElem? hhash)

/-- Three workers on the 26 completions of `ab.`. -/
theorem search_covers_ab : CoversOnce ab 1 (tried cryptAb hashXyz (ab ++ List.replicate 1 46) 3) :=
  search_covers ab 1 3 cryptAb hashXyz (by decide) (by decide) (by decide) (by decide)
    fun s _ => cryptAb_ne s

theorem two_le_length_flatMap {β : Type*} {f : Nat → List β} {k : Nat} (hfirst : f 0 ≠ [])
    (hlast : f (k + 1) ≠ []) : 2 ≤ ((List.range (k + 2)).flatMap f).length := by
  have h0 := List.length_pos_iff.mpr hfirst
  have hk := List.length_pos_iff.mpr hlast
  rw [List.range_succ, List.range_succ_eq_map, List.flatMap_append, List.flatMap_cons,
    List.flatMap_singleton, List.length_append, List.length_append]
  omega

/-- With more threads than an `int` counts, two workers have the same id and the same range. -/
theorem not_coversOnce_sameId :
    46 ∉ abc ∧ 1 ≤ 4294967297 ∧ 26 ^ 0 * 4294967297 < 2 ^ 63 ∧
    (∀ s ∈ tried cryptAbc hashAbd (abc ++ List.replicate 0 46) 4294967297,
      cryptAbc s ≠ hashAbd) ∧
    ¬ CoversOnce abc 0 (tried cryptAbc hashAbd (abc ++ List.replicate 0 46) 4294967297) := by
  refine ⟨by decide, by decide, by decide, fun s _ => cryptAbc_ne s, fun hcovers => ?_⟩
  have hfirst : triedBy cryptAbc hashAbd (abc ++ List.replicate 0 46) 4294967297 (0 + 1) ≠ [] := by
    decide +kernel
  have hlast : triedBy cryptAbc hashAbd (abc ++ List.replicate 0 46) 4294967297
      (4294967295 + 1 + 1) ≠ [] := by
    decide +kernel
  have htwo := two_le_length_flatMap (k := 4294967295)
    (f := fun i => triedBy cryptAbc hashAbd (abc ++ List.replicate 0 46) 4294967297 (i + 1))
    hfirst hlast
  have hone := hcovers.1
  rw [tried] at hone
  rw [hone] at htwo
  exact absurd htwo (by decide)

end SystemProgramming.Cracker
