import Mathlib.Data.List.TakeWhile
import SystemProgramming.Foundation.Bytes
import SystemProgramming.Foundation.Streams

/-!
# The transfer loops of `nonstop_networking/common.c`

The loops retry interrupted calls and go on after partial ones, so that what they transfer
does not depend on how the socket fragments it. They carry fuel, enough for the schedule of
the socket. Counts are those the programs use, far below the range of an `int`.

`read_header_from_socket` looks at its buffer as a C string after each call. What the memory
around the buffer holds is a parameter, since one caller passes a buffer that is not
initialised.

## Main definitions

* `readFromSocket`, `writeToSocket`, `readHeaderFromSocket`: the loops
* `isError`, `getMin`: the length check and the chunk size
* `sizeBytes`, `sizeValue`: a `size_t` as its eight bytes

## Main results

* `readFromSocket_spec`, `writeToSocket_spec`: the loops transfer everything
* `readHeaderFromSocket_line`: a line is read up to its newline
* `sizeValue_sizeBytes`: the size comes back as it was sent
-/

namespace SystemProgramming.Networking

/-- `MAX_HEADER_LEN`. -/
def maxHeaderLen : Nat := 1024

/-! ## Reading -/

/-- The loop of `read_from_socket`, with the bytes read so far. -/
def readLoop : Nat → Source → Nat → List UInt8 → List UInt8 × Source
  | 0, s, _, buffer => (buffer, s)
  | fuel + 1, s, count, buffer =>
    if buffer.length < count then
      match s.read (count - buffer.length) with
      | (none, s) => readLoop fuel s count buffer
      | (some [], s) => (buffer, s)
      | (some newlyRead, s) => readLoop fuel s count (buffer ++ newlyRead)
    else (buffer, s)

/-- `read_from_socket`: the bytes read. -/
def readFromSocket (s : Source) (count : Nat) : List UInt8 × Source :=
  readLoop (count + s.sched.length + 1) s count []

theorem readLoop_spec (fuel : Nat) : ∀ (s : Source) (count : Nat) (buffer : List UInt8),
    buffer.length ≤ count → count - buffer.length + s.sched.length < fuel →
    ∃ sched, readLoop fuel s count buffer =
      (buffer ++ s.bytes.take (count - buffer.length),
        ⟨s.bytes.drop (count - buffer.length), sched⟩) := by
  induction fuel with
  | zero =>
    intro s count buffer _ hfuel
    omega
  | succ fuel ih =>
    intro s count buffer hle hfuel
    rw [readLoop]
    split_ifs with hlt
    · rcases s.read_cases (n := count - buffer.length) (by omega) with
        ⟨rest, hread, hrest⟩ | ⟨m, rest, hm, hmn, hread, hrest⟩
      · rw [hread]
        exact ih ⟨s.bytes, rest⟩ count buffer hle (by dsimp only; omega)
      · rw [hread]
        cases htake : s.bytes.take m with
        | nil =>
          -- no bytes: the stream has ended
          have hnil : s.bytes = [] := by
            cases hb : s.bytes with
            | nil => rfl
            | cons b bs =>
              obtain ⟨m, rfl⟩ := Nat.exists_eq_succ_of_ne_zero hm.ne'
              simp [hb] at htake
          exact ⟨rest, by simp [hnil]⟩
        | cons b bs =>
          have hlen : (b :: bs).length ≤ count - buffer.length ∧ 0 < (b :: bs).length := by
            rw [← htake]
            refine ⟨(List.length_take_le _ _).trans hmn, ?_⟩
            rw [htake]
            simp
          obtain ⟨sched, hrec⟩ := ih ⟨s.bytes.drop m, rest⟩ count (buffer ++ (b :: bs))
            (by rw [List.length_append]; omega)
            (by rw [List.length_append]; dsimp only; omega)
          refine ⟨sched, ?_⟩
          dsimp only at hrec ⊢
          rw [hrec, ← htake]
          have htl : (s.bytes.take m).length = min m s.bytes.length := List.length_take
          by_cases hshort : s.bytes.length ≤ m
          · have hdrop : s.bytes.drop m = [] := List.drop_eq_nil_of_le hshort
            simp [hdrop, List.take_of_length_le hshort,
              List.take_of_length_le (Nat.le_trans hshort hmn),
              List.drop_eq_nil_of_le (Nat.le_trans hshort hmn)]
          · have hm' : (s.bytes.take m).length = m := by omega
            have hsplit : count - buffer.length = m + (count - buffer.length - m) := by omega
            have hcount : count - (buffer ++ s.bytes.take m).length = count - buffer.length - m := by
              rw [List.length_append, hm']
              omega
            rw [hcount, List.append_assoc, List.drop_drop]
            conv_rhs => rw [hsplit, List.take_add]
    · have hzero : count - buffer.length = 0 := by omega
      exact ⟨s.sched, by simp [hzero]⟩

/-- **`read_from_socket`** reads as many bytes as asked for, or up to the end of the stream. -/
theorem readFromSocket_spec (s : Source) (count : Nat) :
    ∃ sched, readFromSocket s count = (s.bytes.take count, ⟨s.bytes.drop count, sched⟩) := by
  obtain ⟨sched, h⟩ := readLoop_spec (count + s.sched.length + 1) s count [] (by simp) (by simp)
  exact ⟨sched, by simpa [readFromSocket] using h⟩

/-! ## Writing -/

/-- The loop of `write_to_socket`, with the bytes still to be written. -/
def writeLoop : Nat → Sink → List UInt8 → Sink
  | 0, s, _ => s
  | fuel + 1, s, buffer =>
    if buffer = [] then s
    else
      match s.write buffer with
      | (none, s) => writeLoop fuel s buffer
      | (some newlyWrote, s) => writeLoop fuel s (buffer.drop newlyWrote)

/-- `write_to_socket`. -/
def writeToSocket (s : Sink) (buffer : List UInt8) : Sink :=
  writeLoop (buffer.length + s.sched.length + 1) s buffer

theorem writeLoop_spec (fuel : Nat) : ∀ (s : Sink) (buffer : List UInt8),
    buffer.length + s.sched.length < fuel → (writeLoop fuel s buffer).bytes = s.bytes ++ buffer := by
  induction fuel with
  | zero =>
    intro s buffer hfuel
    omega
  | succ fuel ih =>
    intro s buffer hfuel
    rw [writeLoop]
    split_ifs with hnil
    · simp [hnil]
    · rcases s.write_cases hnil with ⟨rest, hwrite, hrest⟩ | ⟨m, rest, hm, hmn, hwrite, hrest⟩
      · rw [hwrite]
        exact ih ⟨s.bytes, rest⟩ buffer (by dsimp only; omega)
      · rw [hwrite]
        have hrec := ih ⟨s.bytes ++ buffer.take m, rest⟩ (buffer.drop m)
          (by rw [List.length_drop]; dsimp only; omega)
        rw [hrec, List.append_assoc, List.take_append_drop]

/-- **`write_to_socket`** writes the whole buffer. -/
@[simp] theorem writeToSocket_spec (s : Sink) (buffer : List UInt8) :
    (writeToSocket s buffer).bytes = s.bytes ++ buffer :=
  writeLoop_spec _ s buffer (by omega)

/-! ## Header lines -/

/-- The string at the start of a buffer: the bytes before the first NUL. -/
def cString (buffer : List UInt8) : List UInt8 := buffer.takeWhile (· ≠ 0)

/-- The memory around a buffer before anything is read into it: the byte before it, and what
is in it and behind it. -/
structure Around where
  before : UInt8
  memory : List UInt8

/-- A buffer in the middle of zeros. -/
def Around.zeroed : Around := ⟨0, []⟩

/-- A buffer of `n` zeros, with a zero before it and other memory behind it. -/
def Around.calloc (n : Nat) (behind : List UInt8) : Around := ⟨0, List.replicate n 0 ++ behind⟩

/-- The string at the start of a buffer into which some bytes were read. -/
def Around.string (around : Around) (buffer : List UInt8) : List UInt8 :=
  cString (buffer ++ around.memory.drop buffer.length)

/-- `buffer[strlen(buffer) - 1] == '\n'`; the empty string makes it look before the buffer. -/
def endsLine (around : Around) (buffer : List UInt8) : Bool :=
  match (around.string buffer).getLast? with
  | some c => c == 10
  | none => around.before == 10

/-- The loop of `read_header_from_socket`. A byte that ends the line is in the buffer, but it
is not counted. -/
def headerLoop (around : Around) : Nat → Source → Nat → List UInt8 → Nat × List UInt8 × Source
  | 0, s, _, buffer => (buffer.length, buffer, s)
  | fuel + 1, s, count, buffer =>
    if buffer.length < count then
      match s.read 1 with
      | (some [], s) => (buffer.length, buffer, s)
      | (some (c :: _), s) =>
        if endsLine around (buffer ++ [c]) then (buffer.length, buffer ++ [c], s)
        else headerLoop around fuel s count (buffer ++ [c])
      | (none, s) =>
        if endsLine around buffer then (buffer.length, buffer, s)
        else headerLoop around fuel s count buffer
    else (buffer.length, buffer, s)

/-- `read_header_from_socket`: the count it returns, and the buffer. -/
def readHeaderFromSocket (around : Around) (s : Source) (count : Nat) :
    Nat × List UInt8 × Source :=
  headerLoop around (count + s.sched.length + 1) s count []

/-- Reading one byte: interrupted, or the next byte, or the end. -/
theorem Source.read_one (s : Source) :
    (∃ rest, s.read 1 = (none, ⟨s.bytes, rest⟩) ∧ rest.length < s.sched.length) ∨
    ∃ rest, s.read 1 = (some (s.bytes.take 1), ⟨s.bytes.drop 1, rest⟩) ∧
      rest.length ≤ s.sched.length := by
  rcases s.read_cases (n := 1) (by omega) with h | ⟨m, rest, hm, hmn, h, hrest⟩
  · exact Or.inl h
  · obtain rfl : m = 1 := by omega
    exact Or.inr ⟨rest, h, hrest⟩

theorem cString_of_ne {buffer : List UInt8} (h : ∀ c ∈ buffer, c ≠ 0) :
    cString buffer = buffer :=
  List.takeWhile_eq_self_iff.mpr fun c hc => by simpa using h c hc

theorem cString_append_of_ne {a b : List UInt8} (h : ∀ c ∈ a, c ≠ 0) :
    cString (a ++ b) = a ++ cString b :=
  List.takeWhile_append_of_pos fun c hc => by simpa using h c hc

theorem cString_mono {a b : List UInt8} (h : a <+: b) : cString a <+: cString b := by
  obtain ⟨c, rfl⟩ := h
  rw [cString, cString, List.takeWhile_append]
  split_ifs with hall
  · exact (List.takeWhile_prefix _).trans (List.prefix_append _ _)
  · exact List.prefix_rfl

theorem cString_append_of_mem {a b : List UInt8} (h : 0 ∈ a) : cString (a ++ b) = cString a := by
  rw [cString, cString, List.takeWhile_append, if_neg]
  intro hall
  have heq := List.IsPrefix.eq_of_length (List.takeWhile_prefix _) hall
  exact absurd (List.takeWhile_eq_self_iff.mp heq 0 h) (by decide)

theorem cString_append_of_nil {a b : List UInt8} (h : cString b = []) :
    cString (a ++ b) = cString a := by
  induction a with
  | nil => exact h
  | cons c a ih =>
    simp only [cString, List.cons_append, List.takeWhile_cons] at ih ⊢
    split_ifs
    · rw [ih]
    · rfl

/-- The first `n` bytes of the buffer are zeros, and no newline is before it. -/
structure Around.Blank (around : Around) (n : Nat) : Prop where
  before : around.before ≠ 10
  memory : ∀ k < n, cString (around.memory.drop k) = []

theorem Around.calloc_blank (n : Nat) (behind : List UInt8) : (Around.calloc n behind).Blank n where
  before := by simp [calloc]
  memory := fun k hk => by
    obtain ⟨m, hm⟩ : ∃ m, n - k = m + 1 := ⟨n - k - 1, by omega⟩
    rw [calloc, List.drop_append_of_le_length (by rw [List.length_replicate]; exact hk.le),
      List.drop_replicate, hm, List.replicate_succ]
    rfl

section Blank

variable {around : Around} {n : Nat}

theorem Around.Blank.string_eq (hblank : around.Blank n) {buffer : List UInt8}
    (hn : buffer.length < n) : around.string buffer = cString buffer :=
  cString_append_of_nil (hblank.memory _ hn)

theorem endsLine_snoc (hblank : around.Blank n) {buffer : List UInt8} {c : UInt8}
    (hn : buffer.length + 1 < n) (h : ∀ b ∈ buffer, b ≠ 0) (hc : c ≠ 0) :
    endsLine around (buffer ++ [c]) = (c == 10) := by
  have : ∀ b ∈ buffer ++ [c], b ≠ 0 := by
    simpa [or_imp, forall_and] using ⟨h, hc⟩
  rw [endsLine, hblank.string_eq (by simpa using hn), cString_of_ne this,
    List.getLast?_append_of_ne_nil _ (List.cons_ne_nil c [])]
  rfl

theorem endsLine_of_ne (hblank : around.Blank n) {buffer : List UInt8} (hn : buffer.length < n)
    (h : ∀ b ∈ buffer, b ≠ 0) (h' : ∀ b ∈ buffer, b ≠ 10) : endsLine around buffer = false := by
  rcases List.eq_nil_or_concat buffer with rfl | ⟨init, c, rfl⟩
  · rw [endsLine, hblank.string_eq hn]
    simpa [cString] using hblank.before
  · rw [List.concat_eq_append] at *
    rw [endsLine_snoc hblank (by simpa using hn) (fun b hb => h b (by simp [hb])) (h c (by simp))]
    simpa using h' c (by simp)

/-- No newline is seen in a buffer that has none before its first NUL. -/
theorem endsLine_of_not_mem (hblank : around.Blank n) {buffer : List UInt8}
    (hn : buffer.length < n) (h : 10 ∉ cString buffer) : endsLine around buffer = false := by
  rw [endsLine, hblank.string_eq hn]
  cases hlast : (cString buffer).getLast? with
  | none => simpa using hblank.before
  | some c =>
    have hc : c ≠ 10 := fun hc => h (hc ▸ List.mem_of_getLast? hlast)
    simpa using hc

end Blank

section HeaderLoop

variable {around : Around} {count : Nat} {buffer : List UInt8}

/-- The next byte is read, after some interruptions. -/
theorem headerLoop_next {c : UInt8} {rest : List UInt8} (hends : endsLine around buffer = false)
    (hlt : buffer.length < count) (fuel : Nat) : ∀ (s : Source), s.bytes = c :: rest →
    count - buffer.length + s.sched.length < fuel →
    ∃ fuel' sched, count - (buffer.length + 1) + sched.length < fuel' ∧
      headerLoop around fuel s count buffer =
        if endsLine around (buffer ++ [c]) then (buffer.length, buffer ++ [c], ⟨rest, sched⟩)
        else headerLoop around fuel' ⟨rest, sched⟩ count (buffer ++ [c]) := by
  induction fuel with
  | zero =>
    intro s _ hfuel
    omega
  | succ fuel ih =>
    intro s hbytes hfuel
    rw [headerLoop, if_pos hlt]
    rcases Source.read_one s with ⟨sched, hread, hless⟩ | ⟨sched, hread, hle⟩
    · rw [hread]
      dsimp only
      rw [hends]
      exact ih ⟨s.bytes, sched⟩ hbytes (by dsimp only; omega)
    · refine ⟨fuel, sched, by omega, ?_⟩
      simp only [hread, hbytes, List.take_succ_cons, List.take_zero, List.drop_succ_cons,
        List.drop_zero]

/-- The stream ends. -/
theorem headerLoop_end (hends : endsLine around buffer = false) (fuel : Nat) :
    ∀ (s : Source), s.bytes = [] →
      ∃ sched, headerLoop around fuel s count buffer = (buffer.length, buffer, ⟨[], sched⟩) := by
  induction fuel with
  | zero =>
    intro s hbytes
    exact ⟨s.sched, by rw [headerLoop, ← hbytes]⟩
  | succ fuel ih =>
    intro s hbytes
    rw [headerLoop]
    by_cases hlt : buffer.length < count
    · rw [if_pos hlt]
      rcases Source.read_one s with ⟨sched, hread, -⟩ | ⟨sched, hread, -⟩
      · rw [hread]
        dsimp only
        rw [hends]
        exact ih ⟨s.bytes, sched⟩ hbytes
      · exact ⟨sched, by simp [hread, hbytes]⟩
    · rw [if_neg hlt]
      exact ⟨s.sched, by rw [← hbytes]⟩

/-- The buffer is full. -/
theorem headerLoop_full (hfull : count ≤ buffer.length) (fuel : Nat) (s : Source) :
    headerLoop around fuel s count buffer = (buffer.length, buffer, s) := by
  cases fuel with
  | zero => rfl
  | succ fuel => rw [headerLoop, if_neg (by omega)]

/-- Bytes after which no line ends are read one by one. -/
theorem headerLoop_skip {rest : List UInt8} (more : List UInt8) :
    ∀ (fuel : Nat) (s : Source) (buffer : List UInt8), s.bytes = more ++ rest →
    (∀ p, p <+: buffer ++ more → endsLine around p = false) →
    (buffer ++ more).length ≤ count → count - buffer.length + s.sched.length < fuel →
    ∃ fuel' sched, count - (buffer ++ more).length + sched.length < fuel' ∧
      headerLoop around fuel s count buffer =
        headerLoop around fuel' ⟨rest, sched⟩ count (buffer ++ more) := by
  induction more with
  | nil =>
    intro fuel s buffer hbytes _ _ hfuel
    rw [List.nil_append] at hbytes
    exact ⟨fuel, s.sched, by simpa using hfuel, by rw [List.append_nil, ← hbytes]⟩
  | cons c more ih =>
    intro fuel s buffer hbytes hends hcount hfuel
    rw [List.append_cons] at hends hcount ⊢
    have hlt : buffer.length < count := by
      simp only [List.length_append, List.length_singleton] at hcount
      omega
    have hbuffer : endsLine around buffer = false :=
      hends _ (by simp)
    have hnext : endsLine around (buffer ++ [c]) = false :=
      hends _ (List.prefix_append _ _)
    obtain ⟨fuel', sched, hfuel', heq⟩ := headerLoop_next hbuffer hlt fuel s hbytes hfuel
    rw [heq, hnext]
    exact ih fuel' ⟨more ++ rest, sched⟩ (buffer ++ [c]) rfl hends hcount (by simpa using hfuel')

end HeaderLoop

section Header

variable {around : Around} {n : Nat}

/-- **A header line** is read up to its newline, which is left in the buffer uncounted. -/
theorem readHeaderFromSocket_line (hblank : around.Blank n) {s : Source} {count : Nat}
    {line rest : List UInt8} (hbytes : s.bytes = line ++ 10 :: rest) (h0 : ∀ b ∈ line, b ≠ 0)
    (h10 : ∀ b ∈ line, b ≠ 10) (hcount : line.length < count) (hn : line.length + 1 < n) :
    ∃ sched, readHeaderFromSocket around s count = (line.length, line ++ [10], ⟨rest, sched⟩) := by
  have hends : ∀ p, p <+: [] ++ line → endsLine around p = false := fun p hp =>
    have hsub : ∀ b ∈ p, b ∈ line := fun b hb => hp.subset hb
    have hle : p.length ≤ line.length := hp.length_le
    endsLine_of_ne hblank (by omega) (fun b hb => h0 b (hsub b hb)) fun b hb => h10 b (hsub b hb)
  obtain ⟨fuel, sched, hfuel, hskip⟩ :=
    headerLoop_skip line (count + s.sched.length + 1) s [] hbytes hends hcount.le (by simp)
  obtain ⟨fuel', sched', -, hnext⟩ := headerLoop_next (hends line List.prefix_rfl) hcount
    fuel ⟨10 :: rest, sched⟩ rfl hfuel
  refine ⟨sched', ?_⟩
  rw [readHeaderFromSocket, hskip, List.nil_append, hnext, endsLine_snoc hblank hn h0 (by decide)]
  rfl

/-- A stream without a line, all of which fits the buffer. -/
theorem readHeaderFromSocket_cut (hblank : around.Blank n) {s : Source} {count : Nat}
    (hline : 10 ∉ cString s.bytes) (hcount : s.bytes.length ≤ count) (hn : s.bytes.length < n) :
    ∃ sched, readHeaderFromSocket around s count = (s.bytes.length, s.bytes, ⟨[], sched⟩) := by
  have hends : ∀ p, p <+: [] ++ s.bytes → endsLine around p = false := fun p hp =>
    endsLine_of_not_mem hblank (hp.length_le.trans_lt hn) fun h =>
      hline ((cString_mono hp).subset h)
  obtain ⟨fuel, sched, -, hskip⟩ := headerLoop_skip s.bytes (count + s.sched.length + 1) s []
    (List.append_nil _).symm hends hcount (by simp)
  obtain ⟨sched', hend⟩ := @headerLoop_end _ count _ (hends _ List.prefix_rfl) fuel ⟨[], sched⟩
    rfl
  exact ⟨sched', by rw [readHeaderFromSocket, hskip, hend, List.nil_append]⟩

/-- A stream without a line that fills the buffer; what is behind the buffer decides whether its
last byte is counted. -/
theorem readHeaderFromSocket_full (hblank : around.Blank (n + 1)) {s : Source}
    (hline : 10 ∉ cString (s.bytes.take n)) (hlen : n < s.bytes.length) :
    ∃ sched, readHeaderFromSocket around s (n + 1) =
      (if endsLine around (s.bytes.take (n + 1)) then n else n + 1, s.bytes.take (n + 1),
        ⟨s.bytes.drop (n + 1), sched⟩) := by
  obtain ⟨c, rest, hdrop⟩ : ∃ c rest, s.bytes.drop n = c :: rest :=
    List.exists_cons_of_length_pos (by rw [List.length_drop]; omega)
  have htake : s.bytes.take (n + 1) = s.bytes.take n ++ [c] := by
    rw [List.take_add, hdrop]
    rfl
  have hrest : s.bytes.drop (n + 1) = rest := by
    rw [← List.drop_drop, hdrop]
    rfl
  have hlength : (s.bytes.take n).length = n := List.length_take_of_le hlen.le
  have hends : ∀ p, p <+: [] ++ s.bytes.take n → endsLine around p = false := fun p hp =>
    endsLine_of_not_mem hblank (by have := hp.length_le; simp only [List.nil_append, hlength] at this; omega)
      fun h => hline ((cString_mono hp).subset h)
  obtain ⟨fuel, sched, hfuel, hskip⟩ := headerLoop_skip (s.bytes.take n) (n + 1 + s.sched.length + 1)
    s [] (List.take_append_drop n s.bytes).symm hends
    (show _ ≤ n + 1 by rw [List.nil_append, hlength]; exact n.le_succ) (by simp)
  obtain ⟨fuel', sched', -, hnext⟩ := headerLoop_next (hends _ List.prefix_rfl)
    (by simp [hlength]) fuel ⟨s.bytes.drop n, sched⟩ hdrop hfuel
  refine ⟨sched', ?_⟩
  rw [readHeaderFromSocket, hskip, hnext, htake, hrest]
  simp only [List.nil_append]
  rw [headerLoop_full (by simp [hlength]), hlength]
  split_ifs
  · rfl
  · rw [List.length_append, hlength]
    rfl

end Header

/-- At the end of the stream nothing is read, whatever the buffer holds. -/
theorem readHeaderFromSocket_nil {around : Around} {s : Source} (hs : s.bytes = []) (count : Nat) :
    (readHeaderFromSocket around s count).1 = 0 := by
  have hloop : ∀ (fuel : Nat) (s : Source), s.bytes = [] →
      (headerLoop around fuel s count []).1 = 0 := by
    intro fuel
    induction fuel with
    | zero => exact fun _ _ => rfl
    | succ fuel ih =>
      intro s hs
      rw [headerLoop]
      by_cases hlt : ([] : List UInt8).length < count
      · rw [if_pos hlt]
        rcases Source.read_one s with ⟨sched, hread, -⟩ | ⟨sched, hread, -⟩
        · rw [hread]
          dsimp only
          by_cases hline : endsLine around [] = true
          · rw [if_pos hline]
            rfl
          · rw [if_neg hline]
            exact ih ⟨s.bytes, sched⟩ hs
        · simp [hread, hs]
      · rw [if_neg hlt]
        rfl
  exact hloop _ s hs

/-! ## Lengths -/

/-- `is_error`. -/
def isError (readBytes bufferSize : Nat) : Bool :=
  if readBytes = 0 ∧ readBytes ≠ bufferSize then true
  else if readBytes < bufferSize then true
  else readBytes > bufferSize

@[simp] theorem isError_eq_false {n m : Nat} : isError n m = false ↔ n = m := by
  unfold isError
  split_ifs <;> simp <;> omega

/-- `get_min`. -/
def getMin (x y : Nat) : Nat := if x ≤ y then x else y

theorem getMin_eq (x y : Nat) : getMin x y = min x y := by
  unfold getMin
  split_ifs <;> omega

/-- The eight bytes of a `size_t`. -/
def sizeBytes (size : Nat) : List UInt8 := (Memory.zero.store 0 8 size).read 0 8

/-- A `size_t` that was zero, with some bytes read into its front. -/
def sizeValue (bytes : List UInt8) : Nat := (Memory.ofList bytes).load 0 8

@[simp] theorem length_sizeBytes (size : Nat) : (sizeBytes size).length = 8 := by
  simp [sizeBytes]

theorem sizeValue_lt (bytes : List UInt8) : sizeValue bytes < 2 ^ 64 :=
  Memory.load_lt _ _ _

/-- **A size** comes back as it was sent. -/
theorem sizeValue_sizeBytes {size : Nat} (h : size < 2 ^ 64) : sizeValue (sizeBytes size) = size := by
  have hload : sizeValue (sizeBytes size) = (Memory.zero.store 0 8 size).load 0 8 := by
    refine Memory.load_congr fun b _ hb => ?_
    have hget := Memory.getElem?_read (Memory.zero.store 0 8 size) 0 8 b
    rw [if_pos (by omega)] at hget
    simp [Memory.ofList, sizeBytes, List.getD_eq_getElem?_getD, hget]
  rw [hload, Memory.load_store_of_lt _ _ h]

end SystemProgramming.Networking
