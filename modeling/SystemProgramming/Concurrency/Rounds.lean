import SystemProgramming.Foundation.Counting
import SystemProgramming.Concurrency.Barrier

/-!
# The rounds of the barrier

While the barrier is closed, all threads have left it equally often: those at the second gate
have been counted for the next round, the others have not. While it is open, all threads have
been counted equally often: those at the second gate have still to leave. The counter is the
number of threads at the second gate, so it is below `n`, and it is above zero while the barrier
is open. Nobody sleeps at the first gate of a closed barrier, or at the second gate of an open
one. The last two facts need that the thread that opens the barrier is not alone.

## Main definitions

* `Pc.inner`, `World.left`: threads at the second gate, and how often a thread has left
* `Closed`, `Open`: what holds while the barrier is closed and while it is open
* `Inv`: the invariant

## Main results

* `inv_step`: every step keeps the invariant
* `rounds_separated`: no thread returns before all others have entered as often
* `never_stuck_iff`: a complete round is never blocked, exactly for two threads and more
-/

namespace SystemProgramming.Concurrency

variable {n : Nat} {s s' : World n}

/-- Is a thread at the second gate? -/
def Pc.inner : Pc → Nat
  | .gate2 => 1
  | .asleep2 => 1
  | .woken2 => 1
  | _ => 0

/-- Is a thread about to return? -/
def Pc.after : Pc → Nat
  | .leaving => 1
  | _ => 0

/-- Is a thread inside `barrier_wait`? -/
def Pc.inside : Pc → Nat
  | .outside => 0
  | _ => 1

@[simp] theorem inner_wake (p : Pc) : (wake p).inner = p.inner := by cases p <;> rfl

@[simp] theorem after_wake (p : Pc) : (wake p).after = p.after := by cases p <;> rfl

@[simp] theorem inside_wake (p : Pc) : (wake p).inside = p.inside := by cases p <;> rfl

theorem inner_le_one (p : Pc) : p.inner ≤ 1 := by cases p <;> decide

theorem inner_add_after_le (p : Pc) : p.inner + p.after ≤ p.inside := by cases p <;> decide

theorem wake_ne_asleep (p : Pc) : wake p ≠ .asleep1 ∧ wake p ≠ .asleep2 := by cases p <;> decide

/-- How often a thread has left the barrier. -/
def World.left (s : World n) (t : Fin n) : Nat := s.returned t + (s.pc t).after

/-- A closed barrier: all threads have left it equally often. -/
structure Closed (s : World n) : Prop where
  timesUsed : s.barrier.timesUsed = 1
  count_lt : s.barrier.count < n
  awake : ∀ t, s.pc t ≠ .asleep1
  round : ∃ k, ∀ t, s.left t = k

/-- An open barrier: all threads have been counted equally often, and some have still to leave. -/
structure Open (s : World n) : Prop where
  timesUsed : s.barrier.timesUsed = 0
  count_pos : 0 < s.barrier.count
  count_lt : s.barrier.count < n
  awake : ∀ t, s.pc t ≠ .asleep2
  round : ∃ k, ∀ t, s.left t + (s.pc t).inner = k

/-- **The invariant.** -/
structure Inv (s : World n) : Prop where
  nThreads : s.barrier.nThreads = n
  calls : ∀ t, s.entered t = s.returned t + (s.pc t).inside
  count : s.barrier.count = (∑ t, (s.pc t).inner : Nat)
  gate : Closed s ∨ Open s

theorem inv_start (hn : 0 < n) : Inv (World.start n) where
  nThreads := rfl
  calls := fun _ => rfl
  count := by simp [World.start, barrierInit, Pc.inner]
  gate := Or.inl
    { timesUsed := rfl
      count_lt := by simpa [World.start, barrierInit] using hn
      awake := fun t => by simp [World.start]
      round := ⟨0, fun _ => rfl⟩ }

/-! ## Kinds of steps -/

/-- Threads move, but none of them past a gate. -/
theorem Inv.quiet (hi : Inv s) (hbarrier : s'.barrier = s.barrier)
    (hcalls : ∀ t, s'.entered t = s'.returned t + (s'.pc t).inside)
    (hinner : ∀ t, (s'.pc t).inner = (s.pc t).inner) (hleft : ∀ t, s'.left t = s.left t)
    (hasleep₁ : ∀ t, s'.pc t = .asleep1 → s.pc t = .asleep1 ∨ s.barrier.timesUsed = 0)
    (hasleep₂ : ∀ t, s'.pc t = .asleep2 → s.pc t = .asleep2 ∨ s.barrier.timesUsed ≠ 0) :
    Inv s' where
  nThreads := hbarrier ▸ hi.nThreads
  calls := hcalls
  count := by
    rw [hbarrier, hi.count]
    congr 1
    exact Finset.sum_congr rfl fun t _ => (hinner t).symm
  gate := by
    rcases hi.gate with h | h
    · refine Or.inl ⟨hbarrier ▸ h.timesUsed, hbarrier ▸ h.count_lt, fun t ht => ?_, ?_⟩
      · rcases hasleep₁ t ht with hs | hs
        · exact h.awake t hs
        · exact absurd (h.timesUsed.symm.trans hs) (by decide)
      · exact h.round.imp fun k hk t => (hleft t).trans (hk t)
    · refine Or.inr ⟨hbarrier ▸ h.timesUsed, hbarrier ▸ h.count_pos, hbarrier ▸ h.count_lt,
        fun t ht => ?_, ?_⟩
      · rcases hasleep₂ t ht with hs | hs
        · exact h.awake t hs
        · exact hs h.timesUsed
      · refine h.round.imp fun k hk t => ?_
        rw [hleft, hinner, hk]

/-- A single thread moves, but not past a gate. -/
theorem Inv.move (hi : Inv s) {t : Fin n} {p : Pc} (hbarrier : s'.barrier = s.barrier)
    (hpc : s'.pc = Function.update s.pc t p)
    (hentered : ∀ u, u ≠ t → s'.entered u = s.entered u)
    (hreturned : ∀ u, u ≠ t → s'.returned u = s.returned u)
    (hcalls : s'.entered t = s'.returned t + p.inside) (hinner : p.inner = (s.pc t).inner)
    (hleft : s'.returned t + p.after = s.left t)
    (hasleep₁ : p = .asleep1 → s.barrier.timesUsed = 0)
    (hasleep₂ : p = .asleep2 → s.barrier.timesUsed ≠ 0) : Inv s' := by
  have hself : s'.pc t = p := by rw [hpc, Function.update_self]
  have hother : ∀ u, u ≠ t → s'.pc u = s.pc u := fun u hu => by rw [hpc, Function.update_of_ne hu]
  refine hi.quiet hbarrier ?_ ?_ ?_ ?_ ?_
  · intro u
    by_cases hu : u = t
    · rw [hu, hself, hcalls]
    · rw [hother u hu, hentered u hu, hreturned u hu, hi.calls]
  · intro u
    by_cases hu : u = t
    · rw [hu, hself, hinner]
    · rw [hother u hu]
  · intro u
    by_cases hu : u = t
    · rw [hu, World.left, hself, hleft]
    · rw [World.left, World.left, hother u hu, hreturned u hu]
  · intro u h
    by_cases hu : u = t
    · rw [hu, hself] at h
      exact Or.inr (hasleep₁ h)
    · exact Or.inl (hother u hu ▸ h)
  · intro u h
    by_cases hu : u = t
    · rw [hu, hself] at h
      exact Or.inr (hasleep₂ h)
    · exact Or.inl (hother u hu ▸ h)

/-- A thread takes the mutex. -/
theorem Inv.lock (hi : Inv s) {t : Fin n} {p : Pc} (h : s.lock t p = some s')
    (hinside : p.inside = (s.pc t).inside) (hinner : p.inner = (s.pc t).inner)
    (hafter : p.after = (s.pc t).after) (hp : p ≠ .asleep1 ∧ p ≠ .asleep2) : Inv s' := by
  rw [World.lock] at h
  split_ifs at h
  obtain rfl := Option.some.inj h
  refine hi.move (t := t) rfl rfl (fun _ _ => rfl) (fun _ _ => rfl) ?_ hinner ?_
    (fun h => (hp.1 h).elim) (fun h => (hp.2 h).elim)
  · rw [hinside]
    exact hi.calls t
  · rw [hafter]
    rfl

/-! ## The gates -/

/-- A thread wakes all others and is about to return. -/
theorem Inv.broadcast (hi : Inv s) {t : Fin n} {b : Barrier} (hn : b.nThreads = n)
    (ht : (s.pc t).inside = 1) (hcount : b.count + (s.pc t).inner = s.barrier.count)
    (hgate : ∀ s' : World n, s'.barrier = b →
      (∀ u, s'.pc u ≠ .asleep1 ∧ s'.pc u ≠ .asleep2) →
      s'.left t = s.returned t + 1 → (s'.pc t).inner = 0 →
      (∀ u, u ≠ t → s'.left u = s.left u ∧ (s'.pc u).inner = (s.pc u).inner) →
      Closed s' ∨ Open s') :
    Inv { s with barrier := b, pc := Function.update (fun u => wake (s.pc u)) t .leaving } where
  nThreads := hn
  calls := by
    intro u
    by_cases hu : u = t
    · have hcalls := hi.calls t
      rw [ht] at hcalls
      rw [hu]
      dsimp only
      rw [Function.update_self, hcalls]
      rfl
    · simp [Function.update_of_ne hu, hi.calls]
  count := by
    have hsum := sum_update Pc.inner (fun u => wake (s.pc u)) t .leaving
    simp only [inner_wake] at hsum
    have hzero : Pc.leaving.inner = 0 := rfl
    have hold := hi.count
    dsimp only
    omega
  gate := by
    apply hgate _ rfl
    · intro u
      by_cases hu : u = t
      · simp [hu]
      · dsimp only
        rw [Function.update_of_ne hu]
        exact wake_ne_asleep _
    · simp [World.left, Pc.after]
    · simp [Pc.inner]
    · intro u hu
      simp [World.left, Function.update_of_ne hu]

/-- The first gate. -/
theorem Inv.passGate1 (hn : 2 ≤ n) (hi : Inv s) {t : Fin n} (hpc : s.pc t = .gate1) :
    Inv (s.passGate1 t) := by
  have hcalls : s.entered t = s.returned t + 1 := by
    rw [hi.calls, hpc]
    rfl
  have hinner : (s.pc t).inner = 0 := by
    rw [hpc]
    rfl
  have hleft : s.left t = s.returned t := by
    rw [World.left, hpc]
    rfl
  rw [World.passGate1]
  split_ifs with hopen hfull
  · exact hi.move rfl rfl (fun _ _ => rfl) (fun _ _ => rfl) hcalls hinner.symm hleft.symm
      (fun _ => hopen) (fun h => absurd h (by decide))
  · -- the count is complete: all others are at the second gate, and the barrier opens for them
    have hclosed : Closed s := hi.gate.resolve_right fun h => hopen h.timesUsed
    obtain ⟨k, hk⟩ := hclosed.round
    rw [hi.nThreads] at hfull
    have hothers : ∀ u, u ≠ t → (s.pc u).inner = 1 := by
      intro u hu
      rw [hi.count] at hfull
      exact eq_one_of_sum inner_le_one (by rw [Fintype.card_fin]; omega) hinner hu
    refine hi.broadcast hi.nThreads (by rw [hpc]; rfl) (by rw [hinner]; simp) ?_
    intro s' hbarrier hawake hleft' hinner' hsame
    refine Or.inr ⟨by rw [hbarrier], ?_, ?_, fun u => (hawake u).2, k + 1, fun u => ?_⟩
    · rw [hbarrier]
      dsimp only
      omega
    · rw [hbarrier]
      dsimp only
      omega
    · by_cases hu : u = t
      · rw [hu, hleft', hinner', ← hleft, hk]
      · rw [(hsame u hu).1, (hsame u hu).2, hk, hothers u hu]
  · -- one more thread is counted
    have hclosed : Closed s := hi.gate.resolve_right fun h => hopen h.timesUsed
    have hlt := hclosed.count_lt
    rw [hi.nThreads] at hfull
    have hothers : ∀ u, u ≠ t → Function.update s.pc t .gate2 u = s.pc u :=
      fun u hu => Function.update_of_ne hu _ _
    refine ⟨hi.nThreads, fun u => ?_, ?_, Or.inl ⟨hclosed.timesUsed, ?_, fun u => ?_, ?_⟩⟩
    · by_cases hu : u = t
      · simp [hu, hcalls, Pc.inside]
      · dsimp only
        rw [hothers u hu, hi.calls]
    · have hsum := sum_update Pc.inner s.pc t .gate2
      have hone : Pc.gate2.inner = 1 := rfl
      have hold := hi.count
      dsimp only
      omega
    · dsimp only
      omega
    · by_cases hu : u = t
      · simp [hu]
      · dsimp only
        rw [hothers u hu]
        exact hclosed.awake u
    · refine hclosed.round.imp fun k hk u => ?_
      by_cases hu : u = t
      · rw [hu, ← hk t, hleft]
        simp [World.left, Pc.after]
      · rw [← hk u, World.left, World.left]
        dsimp only
        rw [hothers u hu]

/-- The second gate. -/
theorem Inv.passGate2 (hi : Inv s) {t : Fin n} (hpc : s.pc t = .gate2) :
    Inv (s.passGate2 t) := by
  have hcalls : s.entered t = s.returned t + 1 := by
    rw [hi.calls, hpc]
    rfl
  have hinner : (s.pc t).inner = 1 := by
    rw [hpc]
    rfl
  have hleft : s.left t = s.returned t := by
    rw [World.left, hpc]
    rfl
  rw [World.passGate2, hi.nThreads]
  split_ifs with hclosed hlast
  · exact hi.move rfl rfl (fun _ _ => rfl) (fun _ _ => rfl) hcalls hinner.symm hleft.symm
      (fun h => absurd h (by decide)) (fun _ => hclosed.2)
  all_goals
    -- a closed barrier is not full, so the thread found it open
    have hopen : Open s := by
      apply hi.gate.resolve_left
      intro h
      exact hclosed ⟨h.count_lt, by rw [h.timesUsed]; decide⟩
    obtain ⟨k, hk⟩ := hopen.round
    have hpos := hopen.count_pos
    have hlt := hopen.count_lt
    refine hi.broadcast hi.nThreads (by rw [hpc]; rfl) (by rw [hinner]; simp) ?_
    intro s' hbarrier hawake hleft' hinner' hsame
  · -- it was the last one: nobody is at the second gate, and the barrier closes
    have hothers : ∀ u, u ≠ t → (s.pc u).inner = 0 := by
      intro u hu
      rw [hi.count] at hlast
      exact eq_zero_of_sum (w := Pc.inner) (i := t) (by omega) hu
    refine Or.inl ⟨by rw [hbarrier], ?_, fun u => (hawake u).1, k, fun u => ?_⟩
    · rw [hbarrier]
      dsimp only
      omega
    · have hku := hk u
      by_cases hu : u = t
      · rw [hu, hleft', ← hleft, ← hinner, ← hu, hku]
      · rw [(hsame u hu).1, ← hku, hothers u hu, Nat.add_zero]
  · refine Or.inr ⟨by rw [hbarrier]; exact hopen.timesUsed, ?_, ?_, fun u => (hawake u).2, k,
      fun u => ?_⟩
    · rw [hbarrier]
      dsimp only
      omega
    · rw [hbarrier]
      dsimp only
      omega
    · have hku := hk u
      by_cases hu : u = t
      · rw [hu, hleft', hinner', ← hleft, ← hinner, ← hu, hku, Nat.add_zero]
      · rw [(hsame u hu).1, (hsame u hu).2, hku]

/-! ## Every step -/

/-- **Every step keeps the invariant**, with two threads or more. -/
theorem inv_step (hn : 2 ≤ n) (hi : Inv s) {e : Event n} (h : step s e = some s') : Inv s' := by
  cases e with
  | work t =>
    have hcalls := hi.calls t
    cases hpc : s.pc t with
    | outside =>
      simp only [step, work, hpc] at h
      obtain rfl := Option.some.inj h
      refine hi.move (t := t) rfl rfl (fun u hu => Function.update_of_ne hu _ _) (fun _ _ => rfl)
        ?_ (by rw [hpc]; rfl) (by rw [World.left, hpc]; rfl) (fun h => absurd h (by decide))
        (fun h => absurd h (by decide))
      dsimp only
      rw [Function.update_self, hcalls, hpc]
      rfl
    | locking =>
      simp only [step, work, hpc] at h
      exact hi.lock h (by rw [hpc]; rfl) (by rw [hpc]; rfl) (by rw [hpc]; rfl) (by decide)
    | gate1 =>
      simp only [step, work, hpc] at h
      obtain rfl := Option.some.inj h
      exact hi.passGate1 hn hpc
    | asleep1 => simp [step, work, hpc] at h
    | woken1 =>
      simp only [step, work, hpc] at h
      exact hi.lock h (by rw [hpc]; rfl) (by rw [hpc]; rfl) (by rw [hpc]; rfl) (by decide)
    | gate2 =>
      simp only [step, work, hpc] at h
      obtain rfl := Option.some.inj h
      exact hi.passGate2 hpc
    | asleep2 => simp [step, work, hpc] at h
    | woken2 =>
      simp only [step, work, hpc] at h
      exact hi.lock h (by rw [hpc]; rfl) (by rw [hpc]; rfl) (by rw [hpc]; rfl) (by decide)
    | leaving =>
      simp only [step, work, hpc] at h
      obtain rfl := Option.some.inj h
      refine hi.move (t := t) rfl rfl (fun _ _ => rfl) (fun u hu => Function.update_of_ne hu _ _)
        ?_ (by rw [hpc]; rfl) ?_ (fun h => absurd h (by decide)) (fun h => absurd h (by decide))
      · dsimp only
        rw [Function.update_self, hcalls, hpc]
        rfl
      · dsimp only
        rw [Function.update_self, World.left, hpc]
        rfl
  | spurious t =>
    simp only [step] at h
    split_ifs at h
    obtain rfl := Option.some.inj h
    refine hi.move (t := t) rfl rfl (fun _ _ => rfl) (fun _ _ => rfl) ?_ (inner_wake _) ?_
      (fun h => ((wake_ne_asleep _).1 h).elim) (fun h => ((wake_ne_asleep _).2 h).elim)
    · rw [inside_wake]
      exact hi.calls t
    · rw [after_wake]
      rfl

theorem inv_reachable (hn : 2 ≤ n) (h : Reachable step (World.start n) s) : Inv s :=
  h.invariant (inv_start (by omega)) fun _ _ _ hi hs => inv_step hn hi hs

/-! ## Rounds -/

/-- **The barrier separates rounds.** When a thread has returned `k` times, all threads have
entered `k` times, and the counter stays between `0` and `n`. -/
theorem rounds_separated (hn : 2 ≤ n) (h : Reachable step (World.start n) s) :
    (∀ t u, s.returned t ≤ s.entered u) ∧ 0 ≤ s.barrier.count ∧ s.barrier.count ≤ n := by
  have hi := inv_reachable hn h
  have hreturned : ∀ t, s.returned t ≤ s.left t := fun t => Nat.le_add_right _ _
  have hentered : ∀ u, s.left u + (s.pc u).inner ≤ s.entered u := by
    intro u
    have hpc := inner_add_after_le (s.pc u)
    rw [hi.calls, World.left]
    omega
  have hcount := hi.count
  refine ⟨fun t u => ?_, by omega, ?_⟩
  · have ht := hreturned t
    have hu := hentered u
    rcases hi.gate with hgate | hgate
    · obtain ⟨k, hk⟩ := hgate.round
      rw [hk] at ht hu
      omega
    · obtain ⟨k, hk⟩ := hgate.round
      have hkt := hk t
      have hku := hk u
      omega
  · rcases hi.gate with hgate | hgate
    · exact hgate.count_lt.le
    · exact hgate.count_lt.le

/-- Two threads, one of which passes the barrier and comes back before the other one leaves. -/
def earlyReturn : List (Event 2) :=
  List.replicate 4 (.work first) ++ List.replicate 7 (.work second)

theorem rounds_separated_earlyReturn :
    ∃ s, run step (World.start 2) earlyReturn = some s ∧ s.returned 1 = 1 ∧ s.pc 0 = .woken2 ∧
      s.returned 1 ≤ s.entered 0 := by
  have hend : (run step (World.start 2) earlyReturn).map
      (fun s => (s.returned 1, s.pc 0)) = some (1, .woken2) := by
    decide +kernel
  obtain ⟨s, hrun, hs⟩ := Option.map_eq_some_iff.mp hend
  have hsep := (rounds_separated (by decide) ⟨earlyReturn, hrun⟩ : (∀ t u, s.returned t ≤ s.entered u) ∧ _)
  exact ⟨s, hrun, (Prod.mk.inj hs).1, (Prod.mk.inj hs).2, hsep.1 1 0⟩

/-! ## Blocked rounds -/

/-- One thread that calls `barrier_wait` twice. -/
def aloneTwice : List (Event 1) :=
  [.work 0, .work 0, .work 0, .work 0, .work 0, .work 0, .work 0]

theorem exists_stuck_alone : ∃ s, Reachable step (World.start 1) s ∧ s.Stuck := by
  have hend : (run step (World.start 1) aloneTwice).map (fun s => s.pc 0) = some .asleep1 := by
    decide +kernel
  obtain ⟨s, hrun, hs⟩ := Option.map_eq_some_iff.mp hend
  refine ⟨s, ⟨aloneTwice, hrun⟩, fun t => Or.inl ?_⟩
  obtain rfl : t = 0 := Subsingleton.elim t 0
  exact hs

/-- **A complete round is never blocked, exactly for two threads and more.** -/
theorem never_stuck_iff :
    (∀ s, Reachable step (World.start n) s → ¬ s.Stuck) ↔ 2 ≤ n := by
  constructor
  · intro hnever
    by_contra hn
    obtain rfl | rfl : n = 0 ∨ n = 1 := by omega
    · exact hnever (World.start 0) Reachable.refl fun t => t.elim0
    · obtain ⟨s, hreach, hstuck⟩ := exists_stuck_alone
      exact hnever s hreach hstuck
  · intro hn s h hstuck
    have hi := inv_reachable hn h
    rcases hi.gate with hgate | hgate
    · -- all threads sleep at the second gate, so the count is complete
      have hall : ∀ t, (s.pc t).inner = 1 := by
        intro t
        rw [(hstuck t).resolve_left (hgate.awake t)]
        rfl
      have hcount := hi.count
      have hlt := hgate.count_lt
      simp only [hall, Finset.sum_const, Finset.card_univ, Fintype.card_fin, smul_eq_mul] at hcount
      omega
    · -- all threads sleep at the first gate, so nobody is counted
      have hall : ∀ t, (s.pc t).inner = 0 := by
        intro t
        rw [(hstuck t).resolve_right (hgate.awake t)]
        rfl
      have hcount := hi.count
      have hpos := hgate.count_pos
      simp only [hall, Finset.sum_const_zero] at hcount
      omega

theorem stuck_aloneTwice : ¬ ∀ s, Reachable step (World.start 1) s → ¬ s.Stuck := by
  intro hnever
  obtain ⟨s, hreach, hstuck⟩ := exists_stuck_alone
  exact hnever s hreach hstuck

end SystemProgramming.Concurrency
