import Mathlib.Tactic

/-!
# Blocking byte streams

A stream socket as a process sees it: the bytes that are still to come until the peer stops
sending, and the bytes written so far. Each call may be interrupted, or transfer fewer bytes
than asked for; a schedule says which, call by call. A schedule is finite: a call that is
interrupted for ever is not a behaviour considered here, and after its end calls transfer all
they can.

## Main definitions

* `Sys`: what the kernel does with one call
* `Source`, `Source.read`: the receiving side
* `Sink`, `Sink.write`: the sending side
-/

namespace SystemProgramming

/-- What the kernel does with one call: interrupt it, or transfer at most `k + 1` bytes. -/
inductive Sys where
  | eintr
  | part (k : Nat)
  deriving DecidableEq

/-- The bytes still to come, up to the end of the stream, and what happens to the calls. -/
structure Source where
  bytes : List UInt8
  sched : List Sys

/-- The bytes written so far, and what happens to the calls. -/
structure Sink where
  bytes : List UInt8
  sched : List Sys

/-- `read` of at most `n` bytes: `none` when interrupted, no bytes at the end of the stream. -/
def Source.read (s : Source) (n : Nat) : Option (List UInt8) × Source :=
  match s.sched with
  | [] => (some (s.bytes.take n), ⟨s.bytes.drop n, []⟩)
  | .eintr :: rest => (none, ⟨s.bytes, rest⟩)
  | .part k :: rest => (some (s.bytes.take (min (k + 1) n)), ⟨s.bytes.drop (min (k + 1) n), rest⟩)

/-- `write` of some bytes: `none` when interrupted, otherwise how many went out. -/
def Sink.write (s : Sink) (buffer : List UInt8) : Option Nat × Sink :=
  match s.sched with
  | [] => (some buffer.length, ⟨s.bytes ++ buffer, []⟩)
  | .eintr :: rest => (none, ⟨s.bytes, rest⟩)
  | .part k :: rest =>
    (some (min (k + 1) buffer.length), ⟨s.bytes ++ buffer.take (min (k + 1) buffer.length), rest⟩)

/-- A call is interrupted, or moves some of the bytes asked for from the front of the stream;
the schedule gets shorter unless it is used up. -/
theorem Source.read_cases (s : Source) {n : Nat} (hn : 0 < n) :
    (∃ rest, s.read n = (none, ⟨s.bytes, rest⟩) ∧ rest.length < s.sched.length) ∨
    ∃ m rest, 0 < m ∧ m ≤ n ∧ s.read n = (some (s.bytes.take m), ⟨s.bytes.drop m, rest⟩) ∧
      rest.length ≤ s.sched.length := by
  unfold read
  split
  · rename_i h
    exact Or.inr ⟨n, [], hn, le_refl n, rfl, by simp⟩
  · rename_i rest h
    exact Or.inl ⟨rest, rfl, by simp [h]⟩
  · rename_i k rest h
    refine Or.inr ⟨min (k + 1) n, rest, by omega, Nat.min_le_right _ _, rfl, by simp [h]⟩

theorem Sink.write_cases (s : Sink) {buffer : List UInt8} (hb : buffer ≠ []) :
    (∃ rest, s.write buffer = (none, ⟨s.bytes, rest⟩) ∧ rest.length < s.sched.length) ∨
    ∃ m rest, 0 < m ∧ m ≤ buffer.length ∧
      s.write buffer = (some m, ⟨s.bytes ++ buffer.take m, rest⟩) ∧
      rest.length ≤ s.sched.length := by
  have hpos : 0 < buffer.length := List.length_pos_iff.mpr hb
  unfold write
  split
  · exact Or.inr ⟨buffer.length, [], hpos, le_refl _, by simp, by simp⟩
  · rename_i rest h
    exact Or.inl ⟨rest, rfl, by simp [h]⟩
  · rename_i k rest h
    exact Or.inr ⟨min (k + 1) buffer.length, rest, by omega, Nat.min_le_right _ _, rfl, by simp [h]⟩

end SystemProgramming
