import SystemProgramming.Foundation.Counting
import SystemProgramming.Foundation.Simulation

/-!
# Guarded operations and monitors

An object has operations that wait until they are ready and then act on its state in one go.
That is the atomic object: a caller calls, acts once, and returns. A monitor implements it with
one mutex and one condition variable. A caller takes the mutex, sleeps as long as it is not
ready, acts, wakes all others, and gives the mutex up. Threads interleave wherever the mutex is
taken or given up, and a sleeper may wake up on its own.

## Main definitions

* `HeldBy m P f`: the party that has the mutex `m` is the one in a place where `P` holds
* `Guarded σ κ ρ`: operations `κ` on a state `σ` with results `ρ`
* `Guarded.Serial`: operations one after the other, each when it is ready
* `Atomic.World`, `Atomic.step`: threads around the atomic object
* `Monitor.World`, `Monitor.step`: threads around the monitor

## Main results

* `Monitor.linearizable`: what the callers of a monitor see is what those of the atomic object see
* `Atomic.serial`: what those see is a serial order
* `Atomic.acted_le_called`, `Atomic.returned_le_acted`: an operation acts after its call and
  before its return
* `Monitor.invariant`: what the operations keep holds in every reachable state
* `Monitor.progress`: a monitor is at rest only when nobody inside is ready
-/

namespace SystemProgramming

/-! ## A mutex -/

section Mutex

variable {ι α : Type*} [DecidableEq ι] {m : Option ι} {P : α → Prop} {f g : ι → α} {t : ι} {a : α}

/-- The party in a place where `P` holds is the one that has the mutex. -/
def HeldBy (m : Option ι) (P : α → Prop) (f : ι → α) : Prop := ∀ t, P (f t) ↔ m = some t

namespace HeldBy

omit [DecidableEq ι] in
theorem congr (h : HeldBy m P f) (hg : ∀ t, P (g t) ↔ P (f t)) : HeldBy m P g :=
  fun t => (hg t).trans (h t)

/-- A party without the mutex moves. -/
theorem move (h : HeldBy m P f) (hold : ¬ P (f t)) (hnew : ¬ P a) :
    HeldBy m P (Function.update f t a) := by
  apply h.congr
  intro u
  by_cases hu : u = t
  · rw [hu, Function.update_self]
    exact iff_of_false hnew hold
  · rw [Function.update_of_ne hu]

/-- The party that has the mutex moves, and keeps it. -/
theorem stay (h : HeldBy m P f) (hold : P (f t)) (hnew : P a) :
    HeldBy m P (Function.update f t a) := by
  apply h.congr
  intro u
  by_cases hu : u = t
  · rw [hu, Function.update_self]
    exact iff_of_true hnew hold
  · rw [Function.update_of_ne hu]

theorem acquire (h : HeldBy m P f) (hm : m = none) (hnew : P a) :
    HeldBy (some t) P (Function.update f t a) := by
  intro u
  by_cases hu : u = t
  · rw [hu, Function.update_self]
    exact iff_of_true hnew rfl
  · rw [Function.update_of_ne hu, h u, hm]
    simp [Ne.symm hu]

theorem release (h : HeldBy m P f) (hold : P (f t)) (hnew : ¬ P a) :
    HeldBy none P (Function.update f t a) := by
  have hm : m = some t := (h t).mp hold
  intro u
  by_cases hu : u = t
  · rw [hu, Function.update_self]
    exact iff_of_false hnew (by simp)
  · rw [Function.update_of_ne hu, h u, hm]
    simp [Ne.symm hu]

end HeldBy

end Mutex

/-! ## Operations -/

variable {σ κ ρ : Type*} {n : Nat}

/-- Operations that wait until they are ready. -/
structure Guarded (σ κ ρ : Type*) where
  ready : κ → σ → Bool
  act : κ → σ → σ × ρ

/-- What a caller sees: its calls, and the results it gets. -/
inductive Mark (κ ρ : Type*) where
  | call (k : κ)
  | ret (r : ρ)
  deriving DecidableEq

/-- Operations one after the other, each when it is ready. -/
inductive Guarded.Serial {ι : Type*} (G : Guarded σ κ ρ) (s₀ : σ) :
    List (ι × κ × ρ) → σ → Prop where
  | nil : Serial G s₀ [] s₀
  | snoc {l : List (ι × κ × ρ)} {s : σ} {k : κ} (t : ι) (h : Serial G s₀ l s)
      (hready : G.ready k s = true) :
      Serial G s₀ (l ++ [(t, k, (G.act k s).2)]) (G.act k s).1

/-- What the operations keep. -/
def Guarded.Keeps (G : Guarded σ κ ρ) (I : σ → Prop) : Prop :=
  ∀ k s, I s → G.ready k s = true → I (G.act k s).1

/-! ## The atomic object -/

namespace Atomic

/-- Where a caller is. -/
inductive Status (κ ρ : Type*) where
  | idle
  | called (k : κ)
  | done (r : ρ)
  deriving DecidableEq

/-- Threads around an object, the operations that have acted, and what the callers have seen. -/
structure World (n : Nat) (σ κ ρ : Type*) where
  state : σ
  status : Fin n → Status κ ρ
  log : List (Fin n × κ × ρ)
  history : List (Fin n × Mark κ ρ)

inductive Event (n : Nat) (κ : Type*) where
  | call (t : Fin n) (k : κ)
  | act (t : Fin n)
  | ret (t : Fin n)

def step (G : Guarded σ κ ρ) (w : World n σ κ ρ) : Event n κ → Option (World n σ κ ρ)
  | .call t k =>
    match w.status t with
    | .idle =>
      some { w with
        status := Function.update w.status t (.called k)
        history := w.history ++ [(t, .call k)] }
    | _ => none
  | .act t =>
    match w.status t with
    | .called k =>
      if G.ready k w.state then
        some { w with
          state := (G.act k w.state).1
          status := Function.update w.status t (.done (G.act k w.state).2)
          log := w.log ++ [(t, k, (G.act k w.state).2)] }
      else none
    | _ => none
  | .ret t =>
    match w.status t with
    | .done r =>
      some { w with
        status := Function.update w.status t .idle
        history := w.history ++ [(t, .ret r)] }
    | _ => none

def World.start (n : Nat) (s₀ : σ) : World n σ κ ρ := ⟨s₀, fun _ => .idle, [], []⟩

variable {G : Guarded σ κ ρ} {w w' : World n σ κ ρ} {t : Fin n} {k : κ} {s₀ : σ}

theorem step_call (h : w.status t = .idle) :
    step G w (.call t k) = some { w with
      status := Function.update w.status t (.called k)
      history := w.history ++ [(t, .call k)] } := by
  simp only [step, h]

theorem step_act (h : w.status t = .called k) (hready : G.ready k w.state = true) :
    step G w (.act t) = some { w with
      state := (G.act k w.state).1
      status := Function.update w.status t (.done (G.act k w.state).2)
      log := w.log ++ [(t, k, (G.act k w.state).2)] } := by
  simp only [step, h, hready, if_true]

theorem step_ret {r : ρ} (h : w.status t = .done r) :
    step G w (.ret t) = some { w with
      status := Function.update w.status t .idle
      history := w.history ++ [(t, .ret r)] } := by
  simp only [step, h]

/-- Only an operation that acts changes the state, and it is ready. -/
theorem step_cases {e : Event n κ} (h : step G w e = some w') :
    (w'.state = w.state ∧ w'.log = w.log) ∨
    ∃ t k, G.ready k w.state = true ∧ w'.state = (G.act k w.state).1 ∧
      w'.log = w.log ++ [(t, k, (G.act k w.state).2)] := by
  cases e with
  | call t k =>
    cases hs : w.status t <;> simp only [step, hs, reduceCtorEq] at h
    obtain rfl := Option.some.inj h
    exact Or.inl ⟨rfl, rfl⟩
  | act t =>
    cases hs : w.status t <;> simp only [step, hs, reduceCtorEq] at h
    split_ifs at h with hready
    obtain rfl := Option.some.inj h
    exact Or.inr ⟨t, _, hready, rfl, rfl⟩
  | ret t =>
    cases hs : w.status t <;> simp only [step, hs, reduceCtorEq] at h
    obtain rfl := Option.some.inj h
    exact Or.inl ⟨rfl, rfl⟩

/-- **The operations that have acted are a serial order.** -/
theorem serial (h : Reachable (step G) (World.start n s₀) w) : G.Serial s₀ w.log w.state := by
  refine h.invariant (P := fun w => G.Serial s₀ w.log w.state) .nil fun w e w' hw hs => ?_
  rcases step_cases hs with ⟨hstate, hlog⟩ | ⟨t, k, hready, hstate, hlog⟩
  · rwa [hstate, hlog]
  · rw [hstate, hlog]
    exact .snoc t hw hready

/-! ### Calls, actions and returns -/

/-- How many of these calls a history has, and how many of these returns. -/
def called (p : κ → Bool) (history : List (Fin n × Mark κ ρ)) : Nat :=
  history.countP fun e => match e.2 with
    | .call k => p k
    | .ret _ => false

def returned (q : ρ → Bool) (history : List (Fin n × Mark κ ρ)) : Nat :=
  history.countP fun e => match e.2 with
    | .call _ => false
    | .ret r => q r

/-- A caller that waits to act, and one that has acted. -/
def Status.waiting (p : κ → Bool) : Status κ ρ → Nat
  | .called k => (p k).toNat
  | _ => 0

def Status.acted (q : ρ → Bool) : Status κ ρ → Nat
  | .done r => (q r).toNat
  | _ => 0

section Counts

variable {p : κ → Bool} {q : ρ → Bool} {r : ρ} {history : List (Fin n × Mark κ ρ)}

@[simp] theorem waiting_idle : (.idle : Status κ ρ).waiting p = 0 := rfl

@[simp] theorem waiting_called : (.called k : Status κ ρ).waiting p = (p k).toNat := rfl

@[simp] theorem waiting_done : (.done r : Status κ ρ).waiting p = 0 := rfl

@[simp] theorem acted_idle : (.idle : Status κ ρ).acted q = 0 := rfl

@[simp] theorem acted_called : (.called k : Status κ ρ).acted q = 0 := rfl

@[simp] theorem acted_done : (.done r : Status κ ρ).acted q = (q r).toNat := rfl

@[simp] theorem called_snoc_call :
    called p (history ++ [(t, .call k)]) = called p history + (p k).toNat := countP_snoc _ _ _

@[simp] theorem called_snoc_ret :
    called p (history ++ [(t, .ret r)]) = called p history := countP_snoc _ _ _

@[simp] theorem returned_snoc_call :
    returned q (history ++ [(t, .call k)]) = returned q history := countP_snoc _ _ _

@[simp] theorem returned_snoc_ret :
    returned q (history ++ [(t, .ret r)]) = returned q history + (q r).toNat := countP_snoc _ _ _

end Counts

/-- Every call waits, or has acted; every action waits for its return, or has returned. -/
theorem counts (p : κ → Bool) (q : ρ → Bool)
    (h : Reachable (step G) (World.start n s₀) w) :
    called p w.history =
      w.log.countP (fun e => p e.2.1) + ∑ t, (w.status t).waiting p ∧
    w.log.countP (fun e => q e.2.2) = returned q w.history + ∑ t, (w.status t).acted q := by
  refine h.invariant (P := fun w => called p w.history =
      w.log.countP (fun e => p e.2.1) + ∑ t, (w.status t).waiting p ∧
    w.log.countP (fun e => q e.2.2) = returned q w.history + ∑ t, (w.status t).acted q)
    (by simp [World.start, called, returned]) ?_
  rintro w e w' ⟨hcalled, hacted⟩ hs
  have hwaiting := sum_update (Status.waiting (ρ := ρ) p) w.status
  have hdone := sum_update (Status.acted (κ := κ) q) w.status
  cases e with
  | call t k =>
    cases hst : w.status t <;> simp only [step, hst, reduceCtorEq] at hs
    obtain rfl := Option.some.inj hs
    have hwaiting := hwaiting t (.called k)
    have hdone := hdone t (.called k)
    simp only [hst, waiting_idle, waiting_called, acted_idle, acted_called] at hwaiting hdone
    simp only [called_snoc_call, returned_snoc_call]
    omega
  | act t =>
    cases hst : w.status t <;> simp only [step, hst, reduceCtorEq] at hs
    split_ifs at hs with hready
    obtain rfl := Option.some.inj hs
    rename_i k
    have hwaiting := hwaiting t (.done (G.act k w.state).2)
    have hdone := hdone t (.done (G.act k w.state).2)
    simp only [hst, waiting_called, waiting_done, acted_called, acted_done] at hwaiting hdone
    simp only [countP_snoc]
    omega
  | ret t =>
    cases hst : w.status t <;> simp only [step, hst, reduceCtorEq] at hs
    obtain rfl := Option.some.inj hs
    have hwaiting := hwaiting t .idle
    have hdone := hdone t .idle
    simp only [hst, waiting_idle, waiting_done, acted_idle, acted_done] at hwaiting hdone
    simp only [called_snoc_ret, returned_snoc_ret]
    omega

/-- **No operation acts before it is called.** -/
theorem acted_le_called (p : κ → Bool) (h : Reachable (step G) (World.start n s₀) w) :
    w.log.countP (fun e => p e.2.1) ≤ called p w.history := by
  rw [(counts p (fun _ => false) h).1]
  exact Nat.le_add_right _ _

/-- **No operation returns before it has acted.** -/
theorem returned_le_acted (q : ρ → Bool) (h : Reachable (step G) (World.start n s₀) w) :
    returned q w.history ≤ w.log.countP fun e => q e.2.2 := by
  rw [(counts (fun _ => false) q h).2]
  exact Nat.le_add_right _ _

end Atomic

/-- What the operations keep holds after every serial order. -/
theorem Guarded.Serial.invariant {ι : Type*} {G : Guarded σ κ ρ} {s₀ s : σ}
    {l : List (ι × κ × ρ)} {I : σ → Prop} (h : G.Serial s₀ l s) (h₀ : I s₀) (hI : G.Keeps I) :
    I s := by
  induction h with
  | nil => exact h₀
  | snoc t _ hready ih => exact hI _ _ ih hready

/-! ## The monitor -/

namespace Monitor

/-- Where a thread is in an operation. -/
inductive Pc (κ ρ : Type*) where
  | outside
  /-- Before it takes the mutex. -/
  | locking (k : κ)
  /-- At the condition of the loop, with the mutex. -/
  | testing (k : κ)
  /-- Waiting on the condition variable, before and after a wakeup. -/
  | asleep (k : κ)
  | woken (k : κ)
  /-- It has acted, and has the mutex. -/
  | leaving (r : ρ)
  deriving DecidableEq

/-- A broadcast, or a spurious wakeup. -/
def wake : Pc κ ρ → Pc κ ρ
  | .asleep k => .woken k
  | pc => pc

/-- Threads around a monitor, and what the callers have seen. -/
structure World (n : Nat) (σ κ ρ : Type*) where
  state : σ
  mutex : Option (Fin n)
  pc : Fin n → Pc κ ρ
  history : List (Fin n × Mark κ ρ)

/-- A thread calls an operation, takes a step, or wakes up on its own. -/
inductive Event (n : Nat) (κ : Type*) where
  | call (t : Fin n) (k : κ)
  | work (t : Fin n)
  | spurious (t : Fin n)

def World.lock (w : World n σ κ ρ) (t : Fin n) (k : κ) : Option (World n σ κ ρ) :=
  if w.mutex.isSome then none
  else some { w with mutex := some t, pc := Function.update w.pc t (.testing k) }

/-- A thread at the condition of the loop: it sleeps, or acts and wakes all others. -/
def World.test (G : Guarded σ κ ρ) (w : World n σ κ ρ) (t : Fin n) (k : κ) : World n σ κ ρ :=
  if G.ready k w.state then
    { w with
      state := (G.act k w.state).1
      pc := Function.update (fun u => wake (w.pc u)) t (.leaving (G.act k w.state).2) }
  else
    { w with mutex := none, pc := Function.update w.pc t (.asleep k) }

/-- One step of a thread. `none` is a thread that is blocked, or outside. -/
def work (G : Guarded σ κ ρ) (w : World n σ κ ρ) (t : Fin n) : Option (World n σ κ ρ) :=
  match w.pc t with
  | .outside => none
  | .locking k => w.lock t k
  | .testing k => some (w.test G t k)
  | .asleep _ => none
  | .woken k => w.lock t k
  | .leaving r =>
    some { w with
      mutex := none
      pc := Function.update w.pc t .outside
      history := w.history ++ [(t, .ret r)] }

def step (G : Guarded σ κ ρ) (w : World n σ κ ρ) : Event n κ → Option (World n σ κ ρ)
  | .call t k =>
    match w.pc t with
    | .outside =>
      some { w with
        pc := Function.update w.pc t (.locking k)
        history := w.history ++ [(t, .call k)] }
    | _ => none
  | .work t => work G w t
  | .spurious t =>
    match w.pc t with
    | .asleep k => some { w with pc := Function.update w.pc t (.woken k) }
    | _ => none

def World.start (n : Nat) (s₀ : σ) : World n σ κ ρ := ⟨s₀, none, fun _ => .outside, []⟩

/-- What a caller knows of where it is. -/
def Pc.status : Pc κ ρ → Atomic.Status κ ρ
  | .outside => .idle
  | .locking k => .called k
  | .testing k => .called k
  | .asleep k => .called k
  | .woken k => .called k
  | .leaving r => .done r

/-- Does a thread have the mutex? -/
def Pc.Holding : Pc κ ρ → Prop
  | .testing _ => True
  | .leaving _ => True
  | _ => False

@[simp] theorem status_wake (p : Pc κ ρ) : (wake p).status = p.status := by cases p <;> rfl

theorem holding_wake {p : Pc κ ρ} : (wake p).Holding ↔ p.Holding := by cases p <;> rfl

theorem wake_ne_asleep {p : Pc κ ρ} {k : κ} : wake p ≠ .asleep k := by cases p <;> simp [wake]

/-- **The invariant of a monitor.** Whoever sleeps is not ready. -/
structure Inv (G : Guarded σ κ ρ) (w : World n σ κ ρ) : Prop where
  mutex : HeldBy w.mutex Pc.Holding w.pc
  asleep : ∀ t k, w.pc t = .asleep k → G.ready k w.state = false

/-- The atomic object that the callers see. -/
structure Sees (w : World n σ κ ρ) (a : Atomic.World n σ κ ρ) : Prop where
  state : a.state = w.state
  status : ∀ t, a.status t = (w.pc t).status
  history : a.history = w.history

variable {G : Guarded σ κ ρ} {w w' : World n σ κ ρ} {a : Atomic.World n σ κ ρ} {t : Fin n} {k : κ}
  {p : Pc κ ρ} {s₀ : σ}

theorem inv_start : Inv G (World.start n s₀ : World n σ κ ρ) where
  mutex := fun _ => iff_of_false id (by simp [World.start])
  asleep := fun _ _ h => by cases h

/-- Thread `t` moves, and only a thread that is not ready falls asleep. -/
theorem asleep_update {state : σ}
    (hold : ∀ u k, w.pc u = .asleep k → G.ready k state = false)
    (hnew : ∀ k, p = .asleep k → G.ready k state = false) (u : Fin n) (k : κ)
    (h : Function.update w.pc t p u = .asleep k) : G.ready k state = false := by
  by_cases hu : u = t
  · rw [hu, Function.update_self] at h
    exact hnew k h
  · rw [Function.update_of_ne hu] at h
    exact hold u k h

theorem Inv.lock (hi : Inv G w) (h : w.lock t k = some w') : Inv G w' := by
  rw [World.lock] at h
  split_ifs at h with hm
  obtain rfl := Option.some.inj h
  have hm : w.mutex = none := by simpa using hm
  exact ⟨hi.mutex.acquire hm trivial, asleep_update hi.asleep fun _ h => by cases h⟩

theorem Inv.test (hi : Inv G w) (hpc : w.pc t = .testing k) : Inv G (w.test G t k) := by
  have hheld : (w.pc t).Holding := by
    rw [hpc]
    trivial
  rw [World.test]
  split_ifs with hready
  · -- nobody sleeps after a broadcast
    have hwake : HeldBy w.mutex Pc.Holding fun u => wake (w.pc u) :=
      hi.mutex.congr fun _ => holding_wake
    refine ⟨hwake.stay (holding_wake.mpr hheld) trivial, fun u k' hk => ?_⟩
    by_cases hu : u = t
    · simp [hu] at hk
    · simp only [Function.update_of_ne hu] at hk
      exact absurd hk wake_ne_asleep
  · refine ⟨hi.mutex.release hheld id, asleep_update hi.asleep fun k' hk => ?_⟩
    rw [← Pc.asleep.inj hk]
    exact Bool.eq_false_iff.mpr hready

/-- **Every step keeps the invariant.** -/
theorem inv_step {e : Event n κ} (hi : Inv G w) (h : step G w e = some w') : Inv G w' := by
  cases e with
  | call t k =>
    cases hpc : w.pc t <;> simp only [step, hpc, reduceCtorEq] at h
    obtain rfl := Option.some.inj h
    exact ⟨hi.mutex.move (by rw [hpc]; exact id) id, asleep_update hi.asleep fun _ h => by cases h⟩
  | work t =>
    simp only [step, work] at h
    cases hpc : w.pc t <;> simp only [hpc, reduceCtorEq] at h
    case locking k => exact hi.lock h
    case testing k =>
      obtain rfl := Option.some.inj h
      exact hi.test hpc
    case woken k => exact hi.lock h
    case leaving r =>
      obtain rfl := Option.some.inj h
      exact ⟨hi.mutex.release (by rw [hpc]; trivial) id,
        asleep_update hi.asleep fun _ h => by cases h⟩
  | spurious t =>
    cases hpc : w.pc t <;> simp only [step, hpc, reduceCtorEq] at h
    obtain rfl := Option.some.inj h
    exact ⟨hi.mutex.move (by rw [hpc]; exact id) id, asleep_update hi.asleep fun _ h => by cases h⟩

theorem inv_reachable (h : Reachable (step G) (World.start n s₀) w) : Inv G w :=
  h.invariant inv_start fun _ _ _ hi hs => inv_step hi hs

/-! ## What the callers see -/

/-- A thread moves and its caller does not see it. -/
theorem Sees.hidden (h : Sees w a) (hstate : w'.state = w.state) (hhistory : w'.history = w.history)
    (hpc : w'.pc = Function.update w.pc t p) (hp : p.status = (w.pc t).status) : Sees w' a where
  state := h.state.trans hstate.symm
  status := fun u => by
    rw [hpc]
    by_cases hu : u = t
    · rw [hu, Function.update_self, hp, h.status]
    · rw [Function.update_of_ne hu, h.status]
  history := h.history.trans hhistory.symm

/-- A thread moves, and its caller sees it. -/
theorem Sees.status_update (h : Sees w a) (hp : p.status = s) (u : Fin n) :
    Function.update a.status t s u = (Function.update w.pc t p u).status := by
  by_cases hu : u = t
  · rw [hu, Function.update_self, Function.update_self, hp]
  · rw [Function.update_of_ne hu, Function.update_of_ne hu, h.status]

theorem Sees.lock (h : Sees w a) (hpc : (w.pc t).status = .called k) (hs : w.lock t k = some w') :
    Sees w' a := by
  rw [World.lock] at hs
  split_ifs at hs
  obtain rfl := Option.some.inj hs
  exact h.hidden rfl rfl rfl hpc.symm

/-- **Every step is seen as at most one step of the atomic object.** -/
theorem Sees.step {e : Event n κ} (h : Sees w a) (hs : step G w e = some w') :
    ∃ a', Reachable (Atomic.step G) a a' ∧ Sees w' a' := by
  have hstatus : ∀ t p, w.pc t = p → a.status t = p.status := fun t p hp => hp ▸ h.status t
  cases e with
  | call t k =>
    cases hpc : w.pc t <;> simp only [Monitor.step, hpc, reduceCtorEq] at hs
    obtain rfl := Option.some.inj hs
    refine ⟨_, Reachable.refl.next (Atomic.step_call (k := k) (hstatus t _ hpc)),
      h.state, h.status_update rfl, ?_⟩
    rw [h.history]
  | work t =>
    simp only [Monitor.step, work] at hs
    cases hpc : w.pc t <;> simp only [hpc, reduceCtorEq] at hs
    case locking k => exact ⟨a, .refl, h.lock (by rw [hpc]; rfl) hs⟩
    case testing k =>
      obtain rfl := Option.some.inj hs
      rw [World.test]
      split_ifs with hready
      · -- the operation acts here
        rw [← h.state] at hready ⊢
        refine ⟨_, Reachable.refl.next (Atomic.step_act (hstatus t _ hpc) hready), rfl,
          fun u => ?_, h.history⟩
        by_cases hu : u = t
        · rw [hu]
          simp only [Function.update_self, Pc.status]
        · simp only [Function.update_of_ne hu, status_wake]
          exact h.status u
      · exact ⟨a, .refl, h.hidden rfl rfl rfl (by rw [hpc]; rfl)⟩
    case woken k => exact ⟨a, .refl, h.lock (by rw [hpc]; rfl) hs⟩
    case leaving r =>
      obtain rfl := Option.some.inj hs
      refine ⟨_, Reachable.refl.next (Atomic.step_ret (hstatus t _ hpc)), h.state,
        h.status_update rfl, ?_⟩
      rw [h.history]
  | spurious t =>
    cases hpc : w.pc t <;> simp only [Monitor.step, hpc, reduceCtorEq] at hs
    obtain rfl := Option.some.inj hs
    exact ⟨a, .refl, h.hidden rfl rfl rfl (by rw [hpc]; rfl)⟩

/-- **A monitor is linearizable.** Its callers see what those of the atomic object see. -/
theorem linearizable (h : Reachable (step G) (World.start n s₀) w) :
    ∃ a, Reachable (Atomic.step G) (Atomic.World.start n s₀) a ∧ Sees w a :=
  h.simulate ⟨rfl, fun _ => rfl, rfl⟩ fun _ _ _ _ hsees hs => hsees.step hs

/-- **What the operations keep holds in every reachable state.** -/
theorem invariant {I : σ → Prop} (h : Reachable (step G) (World.start n s₀) w) (h₀ : I s₀)
    (hI : G.Keeps I) : I w.state := by
  obtain ⟨a, ha, hsees⟩ := linearizable h
  rw [← hsees.state]
  exact (Atomic.serial ha).invariant h₀ hI

/-- Whoever has the mutex can go on. -/
theorem Pc.Holding.isSome_work (h : (w.pc t).Holding) : (work G w t).isSome = true := by
  cases hpc : w.pc t <;> simp only [hpc, Pc.Holding] at h <;>
    simp only [work, hpc, Option.isSome_some]

/-- **No lost wakeup.** When no thread can take a step, everybody inside sleeps, and nobody is
ready. -/
theorem progress (h : Reachable (step G) (World.start n s₀) w) :
    (∃ t, (work G w t).isSome = true) ∨
    ∀ t, w.pc t = .outside ∨ ∃ k, w.pc t = .asleep k ∧ G.ready k w.state = false := by
  have hi := inv_reachable h
  by_cases hwork : ∃ t, (work G w t).isSome = true
  · exact Or.inl hwork
  refine Or.inr fun t => ?_
  have hrest : ¬ (work G w t).isSome = true := fun hsome => hwork ⟨t, hsome⟩
  have hfree : w.mutex = none := by
    cases hm : w.mutex with
    | none => rfl
    | some u => exact absurd ⟨u, ((hi.mutex u).mpr hm).isSome_work⟩ hwork
  cases hpc : w.pc t with
  | outside => exact Or.inl rfl
  | asleep k => exact Or.inr ⟨k, rfl, hi.asleep t k hpc⟩
  | locking k => simp [work, hpc, World.lock, hfree] at hrest
  | woken k => simp [work, hpc, World.lock, hfree] at hrest
  | testing k => simp [work, hpc] at hrest
  | leaving r => simp [work, hpc] at hrest

end Monitor

end SystemProgramming
