import SystemProgramming.Foundation.CStrings
import SystemProgramming.Foundation.Decimal

/-!
# The copy of `deepfried_dd`

The block size and the block count pass through an `int` on their way from the command line.
`run_dd` reads and writes block by block, over a buffer on the stack. The counts are compared only
after a block was copied, so the count zero is never met. The blocks are counted in an `int`, and
one more than `2 ^ 31 - 1` of them is undefined, which is `none` here, as is a buffer for which
there is no room. Sizes are numbers modulo `2 ^ 64`.

The input is what follows the position in the file, and a block is short only at its end. Reports
on `SIGUSR1` are left out.

## Main definitions

* `Params`, `setDefaultParams`, `parseIn`: the block size and the block count
* `copyLoop`, `runDd`: the copy, with the bytes that are written and the statistics
* `wanted`, `Copied`: what a copy is to do
* `Countable`: the buffer fits, and the sizes and counts are in range

## Main results

* `copyLoop_eq`, `runDd_eq`: the copy from any block on, and as a whole
* `copied_iff`: the copy is right exactly where the sizes and counts are in range
-/

namespace SystemProgramming.Dd

/-! ## Parameters -/

structure Params where
  blockSize : Nat
  blockCount : Nat

/-- `set_default_params`, for the sizes. -/
def setDefaultParams : Params := ⟨512, sizeT (-1)⟩

/-- The `int` that `atoi` makes of a number: `strtol` stays within a `long`, of which the low 32
bits are kept. -/
def toInt (x : Int) : Int := (max (-2 ^ 63) (min x (2 ^ 63 - 1))).bmod (2 ^ 32)

/-- `parse_in`, for the text after `-b`, and the text after `-c` if there is one. -/
def parseIn (b : List UInt8) (count : Option (List UInt8)) : Params :=
  { blockSize := sizeT (toInt (atoi b))
    blockCount := count.elim setDefaultParams.blockCount fun c => sizeT (toInt (atoi c)) }

/-- The statistics. -/
@[ext] structure Stats where
  fullBlocksIn : Nat
  partialBlocksIn : Nat
  fullBlocksOut : Nat
  partialBlocksOut : Nat
  totalBytesCopied : Nat
  deriving DecidableEq

namespace Stats

def zero : Stats := ⟨0, 0, 0, 0, 0⟩

def addFull (s : Stats) : Stats :=
  { s with
    fullBlocksIn := (s.fullBlocksIn + 1) % 2 ^ 64
    fullBlocksOut := (s.fullBlocksOut + 1) % 2 ^ 64 }

def addPartial (s : Stats) : Stats :=
  { s with
    partialBlocksIn := (s.partialBlocksIn + 1) % 2 ^ 64
    partialBlocksOut := (s.partialBlocksOut + 1) % 2 ^ 64 }

def addBytes (s : Stats) (n : Nat) : Stats :=
  { s with totalBytesCopied := (s.totalBytesCopied + n) % 2 ^ 64 }

end Stats

/-! ## The copy -/

/-- The loop of `run_dd`. -/
def copyLoop (p : Params) (blocksCopied : Nat) (input output : List UInt8) (s : Stats) :
    Option (List UInt8 × Stats) :=
  let buf := input.take p.blockSize
  if buf = [] then some (output, s)
  else if blocksCopied + 1 = 2 ^ 31 then none
  else
    let s := s.addBytes buf.length
    let output := output ++ buf
    if p.blockSize ≠ buf.length then some (output, s.addPartial)
    else if p.blockCount = blocksCopied + 1 then some (output, s.addFull)
    else copyLoop p (blocksCopied + 1) (input.drop p.blockSize) output s.addFull
termination_by input.length
decreasing_by
  rename_i hbuf _ _ _
  rw [List.take_eq_nil_iff, not_or] at hbuf
  have hpos : 0 < input.length := List.length_pos_of_ne_nil hbuf.2
  rw [List.length_drop]
  omega

/-- `run_dd`: what is written, and the statistics. `room` is what is left of the stack, and no
buffer has `2 ^ 63` bytes. -/
def runDd (room : Nat) (p : Params) (input : List UInt8) : Option (List UInt8 × Stats) :=
  if p.blockSize ≤ room ∧ p.blockSize < 2 ^ 63 then copyLoop p 0 input [] Stats.zero else none

/-- The parameters for the numbers `b` and `count` on the command line. -/
def params (b : Nat) (count : Option Nat) : Params := parseIn (decimal b) (count.map decimal)

/-- What is to be written. -/
def wanted (b : Nat) (count : Option Nat) (input : List UInt8) : List UInt8 :=
  count.elim input fun c => input.take (b * c)

/-- The statistics of a copy of `n` bytes. -/
def statsOf (b n : Nat) : Stats where
  fullBlocksIn := n / b
  partialBlocksIn := if b ∣ n then 0 else 1
  fullBlocksOut := n / b
  partialBlocksOut := if b ∣ n then 0 else 1
  totalBytesCopied := n

/-- The copy is right: what is to be written is written, and the statistics are those of it. -/
def Copied (room b : Nat) (count : Option Nat) (input : List UInt8) : Prop :=
  runDd room (params b count) input =
    some (wanted b count input, statsOf b (wanted b count input).length)

/-- The number of blocks that `n` bytes take. -/
def blocks (b n : Nat) : Nat := (n + b - 1) / b

/-- How many of `n` bytes lie before the end that the parameters set. The count zero sets none. -/
def Params.covers (p : Params) (n : Nat) : Nat :=
  if p.blockSize = 0 then 0
  else if p.blockCount = 0 then n
  else min n (p.blockSize * p.blockCount)

/-- The sizes and counts are in range. -/
structure Countable (room b : Nat) (count : Option Nat) (input : List UInt8) : Prop where
  /-- There is room for the buffer. -/
  fits : (params b count).blockSize ≤ room ∧ (params b count).blockSize < 2 ^ 63
  /-- The block size is kept by an `int`, or no block of the kept size is filled. -/
  size : (params b count).blockSize = b ∨ (wanted b count input).length = 0 ∨
    (wanted b count input).length < (params b count).blockSize
  /-- The kept size and count set the end that was asked for. -/
  covers : (params b count).covers input.length = (wanted b count input).length
  /-- The blocks are counted in an `int`, and the bytes in a `size_t`. -/
  blocks_lt : blocks (params b count).blockSize (wanted b count input).length < 2 ^ 31
  bytes_lt : (wanted b count input).length < 2 ^ 64

variable {b n k c room : Nat} {count : Option Nat} {p : Params} {input output w : List UInt8}
  {s : Stats}

/-! ## Blocks -/

@[simp] theorem blocks_zero (hb : 0 < b) : blocks b 0 = 0 := by
  rw [blocks, Nat.div_eq_zero_iff]
  omega

theorem blocks_add (hb : 0 < b) : blocks b (b + n) = blocks b n + 1 := by
  have hsum : b + n + b - 1 = (n + b - 1) + b := by omega
  rw [blocks, blocks, hsum, Nat.add_div_right _ hb]

theorem blocks_of_le (hn : 0 < n) (hle : n ≤ b) : blocks b n = 1 := by
  rw [blocks, Nat.div_eq_iff (by omega)]
  omega

theorem blocks_pos (hb : 0 < b) (hn : 0 < n) : 0 < blocks b n := by
  rw [blocks, Nat.div_pos_iff]
  omega

theorem blocks_mono {m : Nat} (h : m ≤ n) : blocks b m ≤ blocks b n :=
  Nat.div_le_div_right (by omega)

theorem blocks_mul (hb : 0 < b) (k : Nat) : blocks b (b * k) = k := by
  induction k with
  | zero => rw [Nat.mul_zero, blocks_zero hb]
  | succ k ih => rw [Nat.mul_succ, Nat.add_comm, blocks_add hb, ih]

/-- The statistics of whole blocks and a rest. -/
theorem statsOf_mul_add (hn : n < b) :
    statsOf b (b * k + n) = ⟨k, if n = 0 then 0 else 1, k, if n = 0 then 0 else 1, b * k + n⟩ := by
  have hb : 0 < b := by omega
  have hdiv : (b * k + n) / b = k := by
    rw [Nat.mul_add_div hb, Nat.div_eq_of_lt hn, Nat.add_zero]
  have hdvd : b ∣ b * k + n ↔ n = 0 := by
    rw [Nat.dvd_add_right (Nat.dvd_mul_right b k)]
    exact ⟨fun h => Nat.eq_zero_of_dvd_of_lt h hn, fun h => h ▸ Nat.dvd_zero b⟩
  simp only [statsOf, hdiv, hdvd]

/-! ## The loop -/

/-- The statistics after `n` bytes as the program has them. -/
def countedStats (b n : Nat) : Stats := { statsOf b n with totalBytesCopied := n % 2 ^ 64 }

theorem countedStats_mul_add (hn : n < b) :
    countedStats b (b * k + n) =
      ⟨k, if n = 0 then 0 else 1, k, if n = 0 then 0 else 1, (b * k + n) % 2 ^ 64⟩ := by
  rw [countedStats, statsOf_mul_add hn]

theorem countedStats_mul (hb : 0 < b) (k : Nat) :
    countedStats b (b * k) = ⟨k, 0, k, 0, (b * k) % 2 ^ 64⟩ := countedStats_mul_add hb

theorem addFull_countedStats (hb : 0 < b) (hk : k + 1 < 2 ^ 31) :
    ((countedStats b (b * k)).addBytes b).addFull = countedStats b (b * (k + 1)) := by
  have hwrap : (k + 1) % 2 ^ 64 = k + 1 := Nat.mod_eq_of_lt (by omega)
  rw [countedStats_mul hb, countedStats_mul hb, Stats.addBytes, Stats.addFull, Nat.mod_add_mod]
  simp only [hwrap, Nat.mul_succ]

theorem addPartial_countedStats (hn : n < b) (hpos : 0 < n) :
    ((countedStats b (b * k)).addBytes n).addPartial = countedStats b (b * k + n) := by
  rw [countedStats_mul (hpos.trans hn), countedStats_mul_add hn, if_neg hpos.ne', Stats.addBytes,
    Stats.addPartial, Nat.mod_add_mod]
  rfl

/-- **The copy from block `k` on**, with a count that is not met yet. -/
theorem copyLoop_eq (hb : 0 < p.blockSize) (hk : k < 2 ^ 31) (hcount : k < p.blockCount)
    (hw : w = input.take (p.blockSize * (p.blockCount - k))) :
    copyLoop p k input output (countedStats p.blockSize (p.blockSize * k)) =
      if k + blocks p.blockSize w.length < 2 ^ 31 then
        some (output ++ w, countedStats p.blockSize (p.blockSize * k + w.length))
      else none := by
  induction hlen : input.length using Nat.strong_induction_on generalizing input k output w with
  | _ len ih =>
    subst hlen hw
    have hsize : p.blockSize * (p.blockCount - k) =
        p.blockSize + p.blockSize * (p.blockCount - (k + 1)) := by
      have hsucc : p.blockCount - k = p.blockCount - (k + 1) + 1 := by omega
      rw [hsucc, Nat.mul_succ, Nat.add_comm]
    rw [copyLoop]
    by_cases hnil : input = []
    · -- the end of the input, at the end of a block
      subst hnil
      simpa [hb] using hk
    · have hpos : 0 < input.length := List.length_pos_of_ne_nil hnil
      have hbuf : input.take p.blockSize ≠ [] := by simp [hb.ne', hnil]
      have hwlen : 0 < (input.take (p.blockSize * (p.blockCount - k))).length := by
        rw [List.length_take]
        omega
      rw [if_neg hbuf]
      by_cases hover : k + 1 = 2 ^ 31
      · -- one block too many for the counter
        have := blocks_pos hb hwlen
        rw [if_pos hover, if_neg (by omega)]
      · rw [if_neg hover]
        by_cases hshort : input.length < p.blockSize
        · -- the last block is a partial one
          have hall : input.take p.blockSize = input := List.take_of_length_le hshort.le
          have hw : input.take (p.blockSize * (p.blockCount - k)) = input :=
            List.take_of_length_le (by omega)
          rw [hall, hw, if_pos hshort.ne', blocks_of_le hpos hshort.le, if_pos (by omega),
            addPartial_countedStats hshort hpos]
        · have hbuflen : (input.take p.blockSize).length = p.blockSize :=
            List.length_take_of_le (not_lt.mp hshort)
          rw [hbuflen, if_neg (not_not.mpr rfl), addFull_countedStats hb (by omega)]
          by_cases hlast : p.blockCount = k + 1
          · -- the count is met
            have hw : p.blockSize * (p.blockCount - k) = p.blockSize := by
              rw [hlast, Nat.add_sub_cancel_left, Nat.mul_one]
            rw [if_pos hlast, hw, hbuflen, blocks_of_le hb le_rfl, if_pos (by omega),
              Nat.mul_succ]
          · have hdrop : (input.drop p.blockSize).length < input.length := by
              rw [List.length_drop]
              omega
            have hsplit : input.take (p.blockSize * (p.blockCount - k)) = input.take p.blockSize ++
                (input.drop p.blockSize).take (p.blockSize * (p.blockCount - (k + 1))) := by
              rw [hsize, List.take_add]
            rw [if_neg hlast, ih _ hdrop (by omega) (by omega) rfl rfl, hsplit, List.length_append,
              hbuflen, blocks_add hb]
            rw [Nat.add_right_comm, ← Nat.add_assoc k, Nat.mul_succ, List.append_assoc, Nat.add_assoc (p.blockSize * k)]

/-- Counts that no number of blocks meets are the same. -/
theorem copyLoop_congr {q : Params} (hsize : p.blockSize = q.blockSize) (hk : k < 2 ^ 31)
    (hcount : ∀ i, i + 1 < 2 ^ 31 → (p.blockCount = i + 1 ↔ q.blockCount = i + 1)) :
    copyLoop p k input output s = copyLoop q k input output s := by
  induction hlen : input.length using Nat.strong_induction_on generalizing input k output s with
  | _ len ih =>
    subst hlen
    rw [copyLoop, copyLoop, hsize]
    by_cases hbuf : input.take q.blockSize = []
    · rw [if_pos hbuf, if_pos hbuf]
    · rw [if_neg hbuf, if_neg hbuf]
      have hdrop : (input.drop q.blockSize).length < input.length := by
        rw [List.take_eq_nil_iff, not_or] at hbuf
        have hpos : 0 < input.length := List.length_pos_of_ne_nil hbuf.2
        rw [List.length_drop]
        omega
      by_cases hover : k + 1 = 2 ^ 31
      · rw [if_pos hover, if_pos hover]
      · rw [if_neg hover, if_neg hover]
        simp only [hcount k (by omega)]
        rw [ih _ hdrop (by omega) rfl]

/-! ## The whole copy -/

/-- **The copy**, whatever the count is. -/
theorem runDd_eq (hfits : p.blockSize ≤ room ∧ p.blockSize < 2 ^ 63)
    (hw : w = input.take (p.covers input.length)) :
    runDd room p input =
      if blocks p.blockSize w.length < 2 ^ 31 then
        some (w, countedStats p.blockSize w.length)
      else none := by
  rw [runDd, if_pos hfits]
  rcases Nat.eq_zero_or_pos p.blockSize with hb | hb
  · -- nothing is read into an empty buffer
    obtain rfl : w = [] := by rw [hw, Params.covers, if_pos hb, List.take_zero]
    rw [copyLoop, hb, List.take_zero, if_pos rfl]
    rfl
  have hzero : Stats.zero = countedStats p.blockSize (p.blockSize * 0) := by
    rw [countedStats_mul hb]
    rfl
  rw [Params.covers, if_neg hb.ne'] at hw
  by_cases hcount : p.blockCount = 0
  · -- the count zero is never met, and neither is `2 ^ 31`
    rw [if_pos hcount, List.take_length] at hw
    subst hw
    obtain ⟨m, hm⟩ : ∃ m, m = 2 ^ 31 := ⟨_, rfl⟩
    have hsame : copyLoop p 0 w [] Stats.zero = copyLoop ⟨p.blockSize, m⟩ 0 w [] Stats.zero := by
      refine copyLoop_congr (q := ⟨p.blockSize, m⟩) rfl (by decide) fun i hi => ?_
      rw [hcount]
      exact iff_of_false (by omega) (by dsimp only; omega)
    have hlimit : 0 < (⟨p.blockSize, m⟩ : Params).blockCount := by
      dsimp only
      omega
    rw [hsame, hzero, copyLoop_eq (p := ⟨p.blockSize, m⟩) hb (by decide) hlimit rfl]
    simp only [Nat.sub_zero, Nat.zero_add, List.nil_append, Nat.mul_zero]
    by_cases hlong : w.length < p.blockSize * m
    · rw [List.take_of_length_le hlong.le]
    · have hlen : (w.take (p.blockSize * m)).length = p.blockSize * m :=
        List.length_take_of_le (not_lt.mp hlong)
      have hmany : m ≤ blocks p.blockSize w.length := by
        rw [← blocks_mul hb m]
        exact blocks_mono (not_lt.mp hlong)
      rw [hlen, blocks_mul hb, if_neg (by omega), if_neg (by omega)]
  · have hstart : w = input.take (p.blockSize * (p.blockCount - 0)) := by
      rw [hw, if_neg hcount, Nat.sub_zero]
      rw [Nat.min_comm]
      exact List.take_eq_take_min.symm
    rw [hzero, copyLoop_eq hb (by decide) (Nat.pos_of_ne_zero hcount) hstart, List.nil_append,
      Nat.zero_add, Nat.mul_zero, Nat.zero_add]

/-- What the numbers on the command line become. -/
theorem params_eq (b : Nat) (count : Option Nat) :
    params b count = ⟨sizeT (toInt b), count.elim (sizeT (-1)) fun c => sizeT (toInt c)⟩ := by
  cases count with
  | none => rw [params, parseIn, atoi_decimal]; rfl
  | some c =>
    rw [params, parseIn, atoi_decimal, Option.map_some, Option.elim_some, atoi_decimal]
    rfl

/-- The kept block size is the one that was asked for, or at most half of it. -/
theorem blockSize_eq_or (hb : 1 ≤ b) (hsize : (params b count).blockSize < 2 ^ 63) :
    (params b count).blockSize = b ∨ 2 * (params b count).blockSize < b := by
  rw [params_eq] at hsize ⊢
  dsimp only at hsize ⊢
  rw [sizeT, toInt, Int.bmod] at hsize ⊢
  split_ifs at hsize ⊢ <;> omega

/-- The statistics of the blocks that were kept are those of the blocks asked for, if these are
the same, or none is filled, and the bytes are counted. -/
theorem countedStats_eq_iff (hb : 1 ≤ b) (hk : k = b ∨ 2 * k < b) (hn : k = 0 → n = 0) :
    countedStats k n = statsOf b n ↔ (k = b ∨ n = 0 ∨ n < k) ∧ n < 2 ^ 64 := by
  have hmod : n % 2 ^ 64 = n ↔ n < 2 ^ 64 := Nat.mod_eq_iff_lt (by decide)
  rw [countedStats, Stats.ext_iff]
  simp only [statsOf, hmod, ← and_assoc]
  refine and_congr_left fun hbytes => ?_
  constructor
  · rintro ⟨⟨⟨hdiv, -⟩, -⟩, -⟩
    by_contra hnot
    have hhalf : 2 * k < b := by omega
    have hkn : k ≤ n := by omega
    have hpos : 0 < k := by omega
    have hfilled : 0 < n / b := by rw [← hdiv]; exact Nat.div_pos hkn hpos
    -- a block that was asked for takes more than two of those that were kept
    have htwice : n / b * 2 ≤ n / k := by
      rw [Nat.le_div_iff_mul_le hpos]
      calc n / b * 2 * k = n / b * (2 * k) := Nat.mul_assoc ..
        _ ≤ n / b * b := Nat.mul_le_mul_left _ hhalf.le
        _ ≤ n := Nat.div_mul_le_self n b
    omega
  · rintro (rfl | rfl | hlt)
    · simp
    · simp
    · have hshort : n < b := by omega
      have hdvd {m : Nat} (h : n < m) : m ∣ n ↔ n = 0 := by
        exact ⟨fun hd => Nat.eq_zero_of_dvd_of_lt hd h, fun h => h ▸ Nat.dvd_zero m⟩
      simp [hdvd hlt, hdvd hshort, Nat.div_eq_of_lt hlt, Nat.div_eq_of_lt hshort]

/-- **The copy is right exactly where the sizes and counts are in range**: there is room for a
block, an `int` keeps the block size and the end that the count sets, or the input is too short to
tell, and the blocks fit an `int`. -/
theorem copied_iff (room b : Nat) (count : Option Nat) (input : List UInt8) (hb : 1 ≤ b) :
    Copied room b count input ↔ Countable room b count input := by
  obtain ⟨w, hw⟩ : ∃ w, w = input.take ((params b count).covers input.length) := ⟨_, rfl⟩
  have hcovers : (params b count).covers input.length ≤ input.length := by
    unfold Params.covers
    split_ifs
    · exact Nat.zero_le _
    · exact le_rfl
    · exact Nat.min_le_left _ _
  have hlen : w.length = (params b count).covers input.length := by
    rw [hw, List.length_take_of_le hcovers]
  have hstart : wanted b count input = input.take (wanted b count input).length := by
    cases count with
    | none => exact (List.take_length).symm
    | some c =>
      show input.take (b * c) = input.take (input.take (b * c)).length
      rw [List.length_take, ← List.take_eq_take_min]
  -- what is written and what is wanted are both beginnings of the input
  have hsame : w = wanted b count input ↔ w.length = (wanted b count input).length := by
    refine ⟨congrArg _, fun h => ?_⟩
    rw [hstart, hw, ← hlen, h]
  constructor
  · intro h
    -- a buffer that does not fit ends the program
    have hfits : (params b count).blockSize ≤ room ∧ (params b count).blockSize < 2 ^ 63 := by
      by_contra hnot
      rw [Copied, runDd, if_neg hnot] at h
      cases h
    rw [Copied, runDd_eq hfits hw] at h
    split_ifs at h with hblocks
    obtain ⟨hwanted, hstats⟩ := Prod.mk.inj (Option.some.inj h)
    rw [hwanted] at hblocks hstats
    have hempty : (params b count).blockSize = 0 → (wanted b count input).length = 0 := by
      intro hzero
      rw [← hwanted, hlen, Params.covers, if_pos hzero]
    obtain ⟨hsize, hbytes⟩ :=
      (countedStats_eq_iff hb (blockSize_eq_or hb hfits.2) hempty).mp hstats
    exact ⟨hfits, hsize, hlen ▸ hsame.mp hwanted, hblocks, hbytes⟩
  · rintro ⟨hfits, hsize, hend, hblocks, hbytes⟩
    have hwanted : w = wanted b count input := hsame.mpr (hlen.trans hend)
    have hempty : (params b count).blockSize = 0 → (wanted b count input).length = 0 := by
      intro hzero
      rw [← hend, Params.covers, if_pos hzero]
    rw [Copied, runDd_eq hfits hw, hwanted, if_pos hblocks,
      (countedStats_eq_iff hb (blockSize_eq_or hb hfits.2) hempty).mpr ⟨hsize, hbytes⟩]

/-- Five bytes in blocks of two, of which two are asked for. -/
theorem copied_iff_five : Copied 8388608 2 (some 2) [97, 98, 99, 100, 101] := by
  have hparams : params 2 (some 2) = ⟨2, 2⟩ := params_eq 2 (some 2)
  apply (copied_iff 8388608 2 (some 2) [97, 98, 99, 100, 101] (by decide)).mpr
  constructor
  case fits => rw [hparams]; decide
  case size => rw [hparams]; exact Or.inl rfl
  case covers => rw [hparams]; decide
  case blocks_lt => rw [hparams]; decide
  case bytes_lt => decide

/-- The byte is copied although no block is asked for. Of the `2 ^ 32 + 1` blocks that are asked
for, an `int` keeps one. -/
theorem not_copied_zero :
    ¬ Copied 8388608 1 (some 0) [97] ∧ ¬ Copied 8388608 1 (some 4294967297) [97, 98, 99] := by
  constructor
  · intro h
    have hparams : params 1 (some 0) = ⟨1, 0⟩ := params_eq 1 (some 0)
    have hcovers := ((copied_iff 8388608 1 (some 0) [97] (by decide)).mp h).covers
    rw [hparams] at hcovers
    revert hcovers
    decide
  · intro h
    have hparams : params 1 (some 4294967297) = ⟨1, 1⟩ := params_eq 1 (some 4294967297)
    have hcovers :=
      ((copied_iff 8388608 1 (some 4294967297) [97, 98, 99] (by decide)).mp h).covers
    rw [hparams] at hcovers
    revert hcovers
    decide

end SystemProgramming.Dd
