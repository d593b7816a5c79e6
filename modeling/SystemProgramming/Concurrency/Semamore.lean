import SystemProgramming.Foundation.Monitor

/-!
# The semaphore of `critical_concurrency/semamore.c`

`semm_wait` and `semm_post` are operations of a monitor: one mutex, one condition variable, and
a broadcast after every change of `value`. `semm_wait` waits while `value` is `0`, and
`semm_post` while it is `max_val`. `value` is an integer here; it never leaves the range from `0`
to `max_val`, both of which are an `int`.

## Main definitions

* `Semamore`, `semmInit`: the fields of the source
* `semm`: `semm_wait` and `semm_post`, as operations of a monitor

## Main results

* `semamore_bounded`: bounds, conservation and wakeups in every reachable state
-/

namespace SystemProgramming.Concurrency

/-- `Semamore`, without its mutex and its condition variable. -/
structure Semamore where
  value : Int
  maxVal : Int
  deriving DecidableEq

/-- `semm_init`. -/
def semmInit (value maxVal : Int) : Semamore := ⟨value, maxVal⟩

inductive Semm where
  | wait
  | post
  deriving DecidableEq

/-- The conditions of the loops of `semm_wait` and `semm_post`, and what is behind the loops. The
result only says which of the two has returned. -/
def semm : Guarded Semamore Semm Semm where
  ready
    | .wait, s => s.value ≠ 0
    | .post, s => s.value ≠ s.maxVal
  act
    | .wait, s => ({ s with value := s.value - 1 }, .wait)
    | .post, s => ({ s with value := s.value + 1 }, .post)

variable {n : Nat} {w : Monitor.World n Semamore Semm Semm} {s : Semamore} {value maxVal : Int}
  {l : List (Fin n × Semm × Semm)}

/-- How often `semm_wait` or `semm_post` has been called, and has returned. -/
def calls (k : Semm) (w : Monitor.World n Semamore Semm Semm) : Nat :=
  Atomic.called (· == k) w.history

def returns (k : Semm) (w : Monitor.World n Semamore Semm Semm) : Nat :=
  Atomic.returned (· == k) w.history

/-- `value` is within its bounds. -/
structure Semamore.Bounded (maxVal : Int) (s : Semamore) : Prop where
  nonneg : 0 ≤ s.value
  le : s.value ≤ maxVal
  maxVal : s.maxVal = maxVal

theorem semm_keeps : semm.Keeps (Semamore.Bounded maxVal) := by
  rintro (_ | _) s ⟨hnonneg, hle, hmax⟩ hready
  · have hne : s.value ≠ 0 := by simpa [semm] using hready
    exact ⟨by dsimp only [semm]; omega, by dsimp only [semm]; omega, hmax⟩
  · have hne : s.value ≠ s.maxVal := by simpa [semm] using hready
    exact ⟨by dsimp only [semm]; omega, by dsimp only [semm]; omega, hmax⟩

/-- Each `semm_wait` takes one, each `semm_post` gives one. -/
theorem serial_value (h : semm.Serial (semmInit value maxVal) l s) :
    (∀ e ∈ l, e.2.2 = e.2.1) ∧
    s.value + l.countP (fun e => e.2.1 == .wait) = value + l.countP fun e => e.2.1 == .post := by
  induction h with
  | nil => exact ⟨by simp, by simp [semmInit]⟩
  | @snoc l s k t h hready ih =>
    obtain ⟨hresult, hvalue⟩ := ih
    have hk : (semm.act k s).2 = k := by cases k <;> rfl
    refine ⟨fun e he => ?_, ?_⟩
    · rcases List.mem_append.mp he with he | he
      · exact hresult e he
      · rw [List.mem_singleton.mp he]
        exact hk
    · rw [countP_snoc, countP_snoc]
      cases k with
      | wait =>
        have hact : (semm.act .wait s).1.value = s.value - 1 := rfl
        have hwait : (Semm.wait == Semm.wait) = true := rfl
        have hpost : (Semm.wait == Semm.post) = false := rfl
        simp only [hact, hwait, hpost, Bool.toNat_true, Bool.toNat_false]
        push_cast
        omega
      | post =>
        have hact : (semm.act .post s).1.value = s.value + 1 := rfl
        have hwait : (Semm.post == Semm.wait) = false := rfl
        have hpost : (Semm.post == Semm.post) = true := rfl
        simp only [hact, hwait, hpost, Bool.toNat_true, Bool.toNat_false]
        push_cast
        omega

/-- **The semaphore is bounded and loses nothing.** In every reachable state `value` is between
`0` and `max_val`. No more `semm_wait` have returned than there were units at the beginning and
`semm_post` called, and no more `semm_post` than there was room at the beginning and `semm_wait`
called. When no thread can take a step, everybody inside sleeps in `semm_wait` and `value` is `0`,
or everybody inside sleeps in `semm_post` and `value` is `max_val`. -/
theorem semamore_bounded (hvalue : 0 ≤ value) (hle : value ≤ maxVal) (hmax : 0 < maxVal)
    (h : Reachable (Monitor.step semm) (Monitor.World.start n (semmInit value maxVal)) w) :
    0 ≤ w.state.value ∧ w.state.value ≤ maxVal ∧
    (returns .wait w : Int) ≤ value + calls .post w ∧
    (returns .post w : Int) ≤ maxVal - value + calls .wait w ∧
    ((∃ t, (Monitor.work semm w t).isSome = true) ∨
      (∀ t, w.pc t = .outside ∨ w.pc t = .asleep .wait ∧ w.state.value = 0) ∨
      ∀ t, w.pc t = .outside ∨ w.pc t = .asleep .post ∧ w.state.value = maxVal) := by
  obtain ⟨hnonneg, hbound, hmaxVal⟩ :=
    Monitor.invariant h (I := Semamore.Bounded maxVal) ⟨hvalue, hle, rfl⟩ semm_keeps
  obtain ⟨a, ha, hsees⟩ := Monitor.linearizable h
  obtain ⟨hresult, hcount⟩ := serial_value (Atomic.serial ha)
  rw [hsees.state] at hcount
  have hcalls : ∀ k, a.log.countP (fun e => e.2.1 == k) ≤ calls k w := fun k => by
    rw [calls, ← hsees.history]
    exact Atomic.acted_le_called (· == k) ha
  have hreturns : ∀ k, returns k w ≤ a.log.countP fun e => e.2.1 == k := fun k => by
    have hret := Atomic.returned_le_acted (· == k) ha
    rw [hsees.history] at hret
    rwa [List.countP_congr fun e he => by rw [hresult e he]] at hret
  refine ⟨hnonneg, hbound, ?_, ?_, ?_⟩
  · have hwait := hreturns .wait
    have hpost := hcalls .post
    omega
  · have hwait := hcalls .wait
    have hpost := hreturns .post
    omega
  rcases Monitor.progress h with hwork | hrest
  · exact Or.inl hwork
  refine Or.inr ?_
  by_cases hzero : w.state.value = 0
  · refine Or.inl fun t => (hrest t).imp_right ?_
    rintro ⟨k, hk, hready⟩
    cases k with
    | wait => exact ⟨hk, hzero⟩
    | post =>
      have hfull : w.state.value = w.state.maxVal := by simpa [semm] using hready
      omega
  · refine Or.inr fun t => (hrest t).imp_right ?_
    rintro ⟨k, hk, hready⟩
    cases k with
    | wait => exact absurd (by simpa [semm] using hready) hzero
    | post =>
      have hfull : w.state.value = w.state.maxVal := by simpa [semm] using hready
      exact ⟨hk, hfull.trans hmaxVal⟩

/-- Two threads and one unit: the second one waits until the first one gives the unit back. -/
def handOver : List (Monitor.Event 2 Semm) :=
  .call first .wait :: List.replicate 3 (.work first) ++
    .call second .wait :: List.replicate 2 (.work second) ++
    .call first .post :: List.replicate 3 (.work first) ++ List.replicate 3 (.work second)

theorem semamore_bounded_handOver :
    ∃ w, run (Monitor.step semm) (Monitor.World.start 2 (semmInit 1 1)) handOver = some w ∧
      returns .wait w = 2 ∧ calls .post w = 1 ∧ (returns .wait w : Int) ≤ 1 + calls .post w := by
  have hend : (run (Monitor.step semm) (Monitor.World.start 2 (semmInit 1 1)) handOver).map
      (fun w => (returns .wait w, calls .post w)) = some (2, 1) := by
    decide +kernel
  obtain ⟨w, hrun, hw⟩ := Option.map_eq_some_iff.mp hend
  simp only [Prod.mk.injEq] at hw
  exact ⟨w, hrun, hw.1, hw.2,
    (semamore_bounded (by decide) (by decide) (by decide) ⟨handOver, hrun⟩).2.2.1⟩

end SystemProgramming.Concurrency
