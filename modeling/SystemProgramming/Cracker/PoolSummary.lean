import SystemProgramming.Cracker.PoolResults

/-!
# The summary of the thread pool

The results of a run are those of the sequential searches, one for each task that `stdin` has,
and the search tells the truth where a known part is lowercase letters followed by dots. So the
summary counts the tasks with and without a password. A run ends when every search ends: each
step lowers a measure.

## Main definitions

* `TaskT.Completes`, `Correct`: the truth of a result
* `TaskT.line`: a task as a line of the input
* `World.measure`: the steps that are left at most

## Main results

* `solves_correct`: the sequential search tells the truth
* `readTasks_eq`: tasks are read as they are written
* `pool_results`: the results of a finished run, and that no run gets stuck
* `pool_terminates`: every run ends, when every search ends
-/

namespace SystemProgramming.Cracker.Pool

variable {Q : Type} {ops : QueueOps Q (Option TaskT)} {crypt : List UInt8 → List UInt8} {n : Nat}

/-! ## The truth of a result -/

/-- The known part is lowercase letters, then dots. -/
def TaskT.WellFormed (tsk : TaskT) : Prop :=
  ∃ (pre : List UInt8) (d : Nat), (∀ c ∈ pre, 97 ≤ c ∧ c ≤ 122) ∧
    tsk.knownPwd = pre ++ List.replicate d 46

/-- The string `s` has a letter in the place of every dot of the known part. -/
def TaskT.Completes (tsk : TaskT) (s : List UInt8) : Prop :=
  IsCompletion (tsk.knownPwd.take (getPrefixLength tsk.knownPwd))
    (tsk.knownPwd.length - getPrefixLength tsk.knownPwd) s

/-- A result tells the truth. -/
def Correct (crypt : List UInt8 → List UInt8) (r : Result) : Prop :=
  match r.password with
  | some s => r.tsk.Completes s ∧ crypt s = r.tsk.hashedPwd
  | none => ∀ s, r.tsk.Completes s → crypt s ≠ r.tsk.hashedPwd

section Search

variable {pre : List UInt8} {d : Nat} {hashedPwd knownPwd : List UInt8} {x y : Task}

/-- What every turn keeps holds where the loop ends. -/
theorem solveTask_invariant {I : Task → Prop}
    (hturn : ∀ x, I x → x.done = false → I (turn crypt hashedPwd knownPwd x)) {fuel : Nat}
    (hx : I x) (h : solveTask crypt hashedPwd knownPwd fuel x = some y) : I y ∧ y.done = true := by
  induction fuel generalizing x with
  | zero => cases h
  | succ fuel ih =>
    rw [solveTask] at h
    split_ifs at h with hdone
    · obtain rfl := Option.some.inj h
      exact ⟨hx, hdone⟩
    · exact ih (hturn x hx (Bool.eq_false_iff.mpr hdone)) h

/-- The inner loop is at completion `m` and has missed all before it. -/
structure At (crypt : List UInt8 → List UInt8) (hashedPwd pre : List UInt8) (d m : Nat) (x : Task) :
    Prop where
  lt : m < 26 ^ d
  pwd : x.pwd = pre ++ word letter 26 d m
  succ : x.succ = false
  done : x.done = false
  miss : ∀ i < m, crypt (pre ++ word letter 26 d i) ≠ hashedPwd

/-- The inner loop goes on, or it is over and knows the answer. -/
inductive Searching (crypt : List UInt8 → List UInt8) (hashedPwd pre : List UInt8) (d : Nat)
    (x : Task) : Prop where
  | on (m : Nat) (h : At crypt hashedPwd pre d m x)
  | found (s : List UInt8) (hsucc : x.succ = true) (hdone : x.done = true)
      (hlast : x.hashed.getLast? = some s) (hs : IsCompletion pre d s) (hhash : crypt s = hashedPwd)
  | missed (hsucc : x.succ = false) (hdone : x.done = true)
      (hmiss : ∀ i < 26 ^ d, crypt (pre ++ word letter 26 d i) ≠ hashedPwd)

theorem isCompletion_word (pre : List UInt8) (d m : Nat) :
    IsCompletion pre d (pre ++ word letter 26 d m) :=
  ⟨_, length_word, fun _ hc => mem_word hc, rfl⟩

/-- Every completion has a number. -/
theorem exists_completion {s : List UInt8} (h : IsCompletion pre d s) :
    ∃ i < 26 ^ d, s = pre ++ word letter 26 d i := by
  obtain ⟨v, rfl, hv, rfl⟩ := h
  obtain ⟨i, hi, hword⟩ :=
    exists_word v fun c hc => exists_letter (hv c hc).1 (hv c hc).2
  exact ⟨i, hi, by rw [hword]⟩

theorem At.pwd_last {m : Nat} (h : At crypt hashedPwd pre d m x) (hlast : m + 1 = 26 ^ d) :
    x.pwd = pre ++ List.replicate d 122 := by
  rw [h.pwd, show m = 26 ^ d - 1 by omega, word_last]

section Missed

variable {m : Nat} (h : At crypt hashedPwd pre d m x) (hmissed : crypt x.pwd ≠ hashedPwd)
include h hmissed

theorem At.miss_succ : ∀ i < m + 1, crypt (pre ++ word letter 26 d i) ≠ hashedPwd := by
  intro i hi
  rcases Nat.lt_succ_iff_lt_or_eq.mp hi with hi | rfl
  · exact h.miss i hi
  · rwa [← h.pwd]

theorem At.turn_succ : (turn crypt hashedPwd knownPwd x).succ = false := by
  simp [turn, h.succ, hmissed]

theorem At.turn_done (hdots : 46 ∉ pre) :
    (turn crypt hashedPwd (pre ++ List.replicate d 46) x).done =
      !((incrementString x.pwd).1.take pre.length == pre) := by
  simp [turn, h.done, hmissed, samePrefix_eq hdots]

/-- The next completion. -/
theorem At.turn_next (hdots : 46 ∉ pre) (hlt : m + 1 < 26 ^ d) :
    At crypt hashedPwd pre d (m + 1) (turn crypt hashedPwd (pre ++ List.replicate d 46) x) := by
  have hnext : (incrementString x.pwd).1 = pre ++ word letter 26 d (m + 1) := by
    rw [h.pwd, incrementString_word hlt]
  refine ⟨hlt, hnext, h.turn_succ hmissed, ?_, h.miss_succ hmissed⟩
  rw [h.turn_done hmissed hdots, hnext, List.take_left' rfl, beq_self_eq_true]
  rfl

/-- There is no next completion, and a carry into the prefix shows it. -/
theorem At.turn_last (hletters : ∀ c ∈ pre, 97 ≤ c ∧ c ≤ 122) (hlast : m + 1 = 26 ^ d)
    (hpre : ∃ c ∈ pre, c ≠ 122) :
    (turn crypt hashedPwd (pre ++ List.replicate d 46) x).done = true := by
  rw [h.turn_done hmissed (notMem_dot hletters), h.pwd_last hlast,
    beq_eq_false_iff_ne.mpr (take_incrementString_ne hletters hpre)]
  rfl

/-- There is no next completion, and the last one comes again. -/
theorem At.turn_again (hdots : 46 ∉ pre) (hlast : m + 1 = 26 ^ d) (hpre : ∀ c ∈ pre, c = 122) :
    At crypt hashedPwd pre d m (turn crypt hashedPwd (pre ++ List.replicate d 46) x) := by
  have hnext : (incrementString x.pwd).1 = x.pwd := by
    rw [incrementString_of_forall]
    intro c hc
    rw [h.pwd_last hlast] at hc
    exact (List.mem_append.mp hc).elim (hpre c) List.eq_of_mem_replicate
  refine ⟨h.lt, hnext.trans h.pwd, h.turn_succ hmissed, ?_, h.miss⟩
  rw [h.turn_done hmissed hdots, hnext, h.pwd, List.take_left' rfl, beq_self_eq_true]
  rfl

end Missed

theorem Searching.turn (hletters : ∀ c ∈ pre, 97 ≤ c ∧ c ≤ 122)
    (h : Searching crypt hashedPwd pre d x) (hrun : x.done = false) :
    Searching crypt hashedPwd pre d (turn crypt hashedPwd (pre ++ List.replicate d 46) x) := by
  have hdots := notMem_dot hletters
  rcases h with ⟨m, hat⟩ | ⟨-, -, hdone, -⟩ | ⟨-, hdone, -⟩
  · by_cases hfound : crypt x.pwd = hashedPwd
    · refine .found x.pwd ?_ ?_ ?_ (hat.pwd ▸ isCompletion_word pre d m) hfound
      · simp [Cracker.turn, hfound]
      · simp [Cracker.turn, hfound]
      · simp [Cracker.turn]
    rcases (show m + 1 ≤ 26 ^ d from hat.lt).lt_or_eq with hlt | hlast
    · exact .on (m + 1) (hat.turn_next hfound hdots hlt)
    · by_cases hpre : ∃ c ∈ pre, c ≠ 122
      · refine .missed (hat.turn_succ hfound) (hat.turn_last hfound hletters hlast hpre) ?_
        exact fun i hi => hat.miss_succ hfound i (by omega)
      · push Not at hpre
        exact .on m (hat.turn_again hfound hdots hlast hpre)
  · rw [hdone] at hrun
    cases hrun
  · rw [hdone] at hrun
    cases hrun

/-- **The search ends**, when the prefix holds another letter than `z` or some completion has the
hash. -/
theorem At.ends {m : Nat} (hletters : ∀ c ∈ pre, 97 ≤ c ∧ c ≤ 122)
    (hend : (∃ c ∈ pre, c ≠ 122) ∨ ∃ s, IsCompletion pre d s ∧ crypt s = hashedPwd)
    (h : At crypt hashedPwd pre d m x) :
    ∃ fuel, (solveTask crypt hashedPwd (pre ++ List.replicate d 46) fuel x).isSome = true := by
  have hover : ∀ y : Task, y.done = true →
      (solveTask crypt hashedPwd (pre ++ List.replicate d 46) 1 y).isSome = true := by
    intro y hy
    rw [solveTask, if_pos hy]
    rfl
  have hrun : ∀ fuel, solveTask crypt hashedPwd (pre ++ List.replicate d 46) (fuel + 1) x =
      solveTask crypt hashedPwd (pre ++ List.replicate d 46) fuel
        (Cracker.turn crypt hashedPwd (pre ++ List.replicate d 46) x) := fun fuel => by
    rw [solveTask, if_neg (by simp [h.done])]
  -- by induction on the number of completions that are left
  induction hk : 26 ^ d - m generalizing m x with
  | zero =>
    have hlt := h.lt
    omega
  | succ k ih =>
    by_cases hfound : crypt x.pwd = hashedPwd
    · refine ⟨2, ?_⟩
      rw [hrun]
      exact hover _ (by simp [Cracker.turn, hfound])
    rcases (show m + 1 ≤ 26 ^ d from h.lt).lt_or_eq with hlt | hlast
    · have hnext := h.turn_next hfound (notMem_dot hletters) hlt
      obtain ⟨fuel, hfuel⟩ := ih hnext (fun fuel => by
        rw [solveTask, if_neg (by simp [hnext.done])]) (by omega)
      exact ⟨fuel + 1, by rwa [hrun]⟩
    · have hpre : ∃ c ∈ pre, c ≠ 122 := by
        refine hend.resolve_right ?_
        rintro ⟨s, hs, hhash⟩
        obtain ⟨i, hi, rfl⟩ := exists_completion hs
        exact h.miss_succ hfound i (by omega) hhash
      refine ⟨2, ?_⟩
      rw [hrun]
      exact hover _ (h.turn_last hfound hletters hlast hpre)

theorem at_start (pre : List UInt8) (d : Nat) :
    At crypt hashedPwd pre d 0 (Task.before pre d 0) :=
  ⟨Nat.pow_pos (by omega), rfl, rfl, rfl, fun i hi => absurd hi (Nat.not_lt_zero i)⟩

/-- **The sequential search tells the truth.** -/
theorem solves_correct {r : Result} (hformed : r.tsk.WellFormed) (h : Solves crypt r) :
    Correct crypt r := by
  obtain ⟨pre, d, hletters, hknown⟩ := hformed
  obtain ⟨fuel, x, hx, hpassword, -⟩ := h
  have hdots := notMem_dot hletters
  have hcompletes : ∀ s, r.tsk.Completes s ↔ IsCompletion pre d s := fun s => by
    rw [TaskT.Completes, hknown, getPrefixLength_eq hdots, List.take_left' rfl]
    simp
  rw [hknown, start_eq hdots] at hx
  obtain ⟨hend, hdone⟩ := solveTask_invariant (fun x hx hrun => hx.turn hletters hrun)
    (Searching.on 0 (at_start pre d)) hx
  rw [Correct, hpassword]
  rcases hend with ⟨m, hat⟩ | ⟨s, hsucc, -, hlast, hs, hhash⟩ | ⟨hsucc, -, hmiss⟩
  · rw [hat.done] at hdone
    cases hdone
  · rw [if_pos hsucc, hlast]
    exact ⟨(hcompletes s).mpr hs, hhash⟩
  · rw [if_neg (by simp [hsucc])]
    intro s hs
    obtain ⟨i, hi, rfl⟩ := exists_completion ((hcompletes s).mp hs)
    exact hmiss i hi

end Search

/-! ## Reading the tasks -/

section Reading

/-- A task as a line of the input. -/
def TaskT.line (tsk : TaskT) : List UInt8 :=
  tsk.username ++ 32 :: (tsk.hashedPwd ++ 32 :: tsk.knownPwd) ++ [10]

/-- A field that `strtok` finds. -/
def Word (field : List UInt8) : Prop := field ≠ [] ∧ ∀ c ∈ field, c ≠ 32 ∧ c ≠ 10 ∧ c ≠ 0

/-- The fields of a task are words. -/
structure TaskT.Printable (tsk : TaskT) : Prop where
  username : Word tsk.username
  hashedPwd : Word tsk.hashedPwd
  knownPwd : Word tsk.knownPwd

variable {field rest : List UInt8} {tsk : TaskT}

theorem Word.strtok (h : Word field) (hrest : rest = [] ∨ ∃ s, rest = 32 :: s) :
    SystemProgramming.strtok (field ++ rest) = some (field, rest.drop 1) := by
  obtain ⟨hne, hchars⟩ := h
  have htake : field.takeWhile (· ≠ 32) = field :=
    List.takeWhile_eq_self_iff.mpr fun c hc => by simpa using (hchars c hc).1
  have hdrop : field.dropWhile (· ≠ 32) = [] :=
    List.dropWhile_eq_nil_iff.mpr fun c hc => by simpa using (hchars c hc).1
  have hfirst : (field ++ rest).dropWhile (· = 32) = field ++ rest := by
    cases field with
    | nil => exact absurd rfl hne
    | cons c field =>
      rw [List.cons_append, List.dropWhile_cons_of_neg]
      simpa using (hchars c List.mem_cons_self).1
  rw [SystemProgramming.strtok, hfirst]
  cases field with
  | nil => exact absurd rfl hne
  | cons c field =>
    simp only [List.cons_append]
    rw [← List.cons_append]
    rcases hrest with rfl | ⟨s, rfl⟩
    · rw [List.append_nil, htake, hdrop]
    · rw [List.takeWhile_append_of_pos, List.dropWhile_append_of_pos]
      · simp
      · intro c hc
        simpa using (hchars c hc).1
      · intro c hc
        simpa using (hchars c hc).1

/-- A line is parsed as it is written. -/
theorem parseLine_line (h : tsk.Printable) : parseLine (lineString tsk.line) = some tsk := by
  have hzero : ∀ c ∈ tsk.username ++ 32 :: (tsk.hashedPwd ++ 32 :: tsk.knownPwd), c ≠ 0 := by
    intro c hc
    simp only [List.mem_append, List.mem_cons] at hc
    rcases hc with hc | rfl | hc | rfl | hc
    · exact (h.username.2 c hc).2.2
    · decide
    · exact (h.hashedPwd.2 c hc).2.2
    · decide
    · exact (h.knownPwd.2 c hc).2.2
  have hstring : lineString tsk.line =
      tsk.username ++ 32 :: (tsk.hashedPwd ++ 32 :: tsk.knownPwd) := by
    rw [lineString, TaskT.line, List.getLast?_concat, if_pos rfl, List.dropLast_concat]
    exact List.takeWhile_eq_self_iff.mpr fun c hc => by simpa using hzero c hc
  have hlast := h.knownPwd.strtok (Or.inl rfl)
  rw [List.append_nil] at hlast
  rw [hstring, parseLine, h.username.strtok (Or.inr ⟨_, rfl⟩)]
  simp only [List.drop_succ_cons, List.drop_zero, Option.bind_eq_bind, Option.bind_some]
  rw [h.hashedPwd.strtok (Or.inr ⟨_, rfl⟩)]
  simp only [List.drop_succ_cons, List.drop_zero, Option.bind_some]
  rw [hlast]
  rfl

/-- **Tasks are read as they are written.** -/
theorem readTasks_eq {tasks : List TaskT} (h : ∀ tsk ∈ tasks, tsk.Printable) :
    readTasks (tasks.flatMap TaskT.line) = some tasks := by
  induction tasks with
  | nil =>
    rw [List.flatMap_nil, readTasks]
    rfl
  | cons tsk tasks ih =>
    have hfirst := h tsk List.mem_cons_self
    have hnewline : 10 ∉ tsk.username ++ 32 :: (tsk.hashedPwd ++ 32 :: tsk.knownPwd) := by
      simp only [List.mem_append, List.mem_cons]
      rintro (hc | hc | hc | hc | hc)
      · exact (hfirst.username.2 _ hc).2.1 rfl
      · exact absurd hc (by decide)
      · exact (hfirst.hashedPwd.2 _ hc).2.1 rfl
      · exact absurd hc (by decide)
      · exact (hfirst.knownPwd.2 _ hc).2.1 rfl
    have hgetline : getline (tsk.line ++ tasks.flatMap TaskT.line) =
        some (tsk.line, tasks.flatMap TaskT.line) := by
      rw [TaskT.line, List.append_assoc, List.singleton_append]
      exact getline_line hnewline
    rw [List.flatMap_cons, readTasks]
    split
    · rename_i hnone
      rw [hgetline] at hnone
      cases hnone
    · rename_i line rest hsome
      rw [hgetline] at hsome
      obtain ⟨rfl, rfl⟩ := Prod.mk.inj (Option.some.inj hsome)
      rw [parseLine_line hfirst, ih fun t ht => h t (List.mem_cons_of_mem _ ht)]
      rfl

end Reading

/-! ## The end of a run -/

section Summary

variable {tasks : List TaskT} {w : World Q n}

theorem perm_of_countP {l l' : List TaskT} (h : ∀ p : TaskT → Bool, l.countP p = l'.countP p) :
    l.Perm l' :=
  List.perm_iff_count.mpr fun a => h (· == a)

/-- When all threads have ended, every task has its result and is destroyed, and every result is
counted. -/
theorem Inv.finished (hi : Inv ops crypt tasks w) (hended : ∀ t, w.pc t = .ended) (hn : 0 < n) :
    w.destroyed.Perm tasks ∧ (w.results.map Result.tsk).Perm tasks ∧
    w.numRecovered = int (w.results.countP found) ∧ w.numFailed = int (w.results.countP missed) ∧
    ops.elements w.queue = [none] := by
  obtain ⟨rest, hacc⟩ := hi.accounted
  -- a thread ends only when the queue has no tasks left, and all sums over the threads are then
  -- zero
  have hrest : rest = [] := hacc.drained ⟨0, hn⟩ (Or.inr (hended _))
  have hsum : ∀ f : Pc → Nat, f .ended = 0 → ∑ t, f (w.pc t) = 0 := fun f hf =>
    Finset.sum_eq_zero fun t _ => by rw [hended t, hf]
  have hdestroyed : w.destroyed.Perm tasks := perm_of_countP fun p => by
    have htasks := hacc.tasks p
    rw [hrest, hsum (Pc.handed p) rfl, List.countP_nil] at htasks
    omega
  have hresults : (w.results.map Result.tsk).Perm tasks := by
    apply List.Perm.trans _ hdestroyed
    apply perm_of_countP
    intro p
    have hcount := hacc.results p
    rw [hsum (Pc.printed p) rfl] at hcount
    rw [List.countP_map]
    exact hcount
  refine ⟨hdestroyed, hresults, ?_, ?_, ?_⟩
  · obtain ⟨k, hk, hcount⟩ := hacc.recovered
    rw [hsum Pc.owesRecovered rfl] at hcount
    rw [hk, ← hcount, Nat.add_zero]
  · obtain ⟨k, hk, hcount⟩ := hacc.failed
    rw [hsum Pc.owesFailed rfl] at hcount
    rw [hk, ← hcount, Nat.add_zero]
  · rcases hacc.queue with ⟨hqueue, -⟩ | ⟨-, -, hone⟩
    · rw [hqueue, hrest]
      rfl
    · rw [hsum Pc.sentinel rfl] at hone
      omega

/-- **The summary.** The input has a line for each task, and the known parts are lowercase letters
followed by dots. When the summary is printed, there is one result for each task, and it tells the
truth; the two numbers are those of the results with and without a password, as an `int` holds
them; every task has been destroyed once, and `NULL` is all that is left in the queue. As long as
it is not printed, some thread can take a step. -/
theorem pool_results (laws : QueueLaws ops) (hn : 0 < n) (hprint : ∀ tsk ∈ tasks, tsk.Printable)
    (hformed : ∀ tsk ∈ tasks, tsk.WellFormed) {w₀ : World Q n}
    (hstart : (readTasks (tasks.flatMap TaskT.line)).map (World.start ops n) = some w₀)
    (h : Reachable (step ops crypt) w₀ w) :
    (∀ numRecovered numFailed, w.main = .returned numRecovered numFailed →
      (w.results.map Result.tsk).Perm tasks ∧ (∀ r ∈ w.results, Correct crypt r) ∧
      numRecovered = int (w.results.countP found) ∧ numFailed = int (w.results.countP missed) ∧
      w.destroyed.Perm tasks ∧ ops.elements w.queue = [none]) ∧
    ((∃ numRecovered numFailed, w.main = .returned numRecovered numFailed) ∨
      ∃ e, (step ops crypt w e).isSome = true) := by
  rw [readTasks_eq hprint] at hstart
  obtain rfl := Option.some.inj hstart
  have hi := inv_reachable laws hn h
  constructor
  · intro numRecovered numFailed hmain
    -- `start` has returned, so all threads have ended
    have hfine := hi.main
    rw [MainFine, hmain] at hfine
    obtain ⟨hended, rfl, rfl⟩ := hfine
    obtain ⟨hdestroyed, hresults, hrecovered, hfailed, hqueue⟩ := hi.finished hended hn
    refine ⟨hresults, fun r hr => ?_, hrecovered, hfailed, hdestroyed, hqueue⟩
    have hmem : r.tsk ∈ tasks := hresults.mem_iff.mp (List.mem_map_of_mem hr)
    exact solves_correct (hformed r.tsk hmem) (hi.solves r hr)
  · by_cases hmain : ∃ numRecovered numFailed, w.main = .returned numRecovered numFailed
    · exact Or.inl hmain
    · exact Or.inr (exists_step laws hi fun r f hrf => hmain ⟨r, f, hrf⟩)

/-- `"u ab a."` and `"v x b"`. With the identity for `crypt_r` the first password is `ab`, and
there is none for the second user. -/
def twoTasks : List TaskT := [⟨[117], [97, 98], [97, 46]⟩, ⟨[118], [120], [98]⟩]

/-- Two threads take one task each. -/
def twoThreads : List (Event 2) :=
  [.main, .work first, .main, .work first, .work first, .work second, .work first, .work first,
    .work second, .work first, .work first, .work second, .work first, .work first,
    .work second, .main, .work second, .work second, .work second, .work second, .main, .main]

theorem twoTasks_printable : ∀ tsk ∈ twoTasks, tsk.Printable := by
  intro tsk htsk
  simp only [twoTasks, List.mem_cons, List.not_mem_nil, or_false] at htsk
  rcases htsk with rfl | rfl
  · exact ⟨⟨by simp, by simp⟩, ⟨by simp, by simp⟩, ⟨by simp, by simp⟩⟩
  · exact ⟨⟨by simp, by simp⟩, ⟨by simp, by simp⟩, ⟨by simp, by simp⟩⟩

theorem twoTasks_wellFormed : ∀ tsk ∈ twoTasks, tsk.WellFormed := by
  intro tsk htsk
  simp only [twoTasks, List.mem_cons, List.not_mem_nil, or_false] at htsk
  rcases htsk with rfl | rfl
  · exact ⟨[97], 1, by simp, rfl⟩
  · exact ⟨[98], 0, by simp, rfl⟩

theorem pool_results_twoTasks :
    ∃ w, run (step listQueue id) (World.start listQueue 2 twoTasks) twoThreads = some w ∧
      w.main = .returned 1 1 ∧
      w.results.map Result.password = [some [97, 98], none] ∧
      (w.results.map Result.tsk).Perm twoTasks ∧ ∀ r ∈ w.results, Correct id r := by
  have hend : (run (step listQueue id) (World.start listQueue 2 twoTasks) twoThreads).map
      (fun w => (w.main, w.results.map Result.password)) =
        some (.returned 1 1, [some [97, 98], none]) := by
    decide +kernel
  obtain ⟨w, hrun, hw⟩ := Option.map_eq_some_iff.mp hend
  obtain ⟨hmain, hpasswords⟩ := Prod.mk.inj hw
  have hstart : (readTasks (twoTasks.flatMap TaskT.line)).map (World.start listQueue 2) =
      some (World.start listQueue 2 twoTasks) := by
    rw [readTasks_eq twoTasks_printable]
    rfl
  have hresults := (pool_results listQueue_laws (by decide) twoTasks_printable
    twoTasks_wellFormed hstart ⟨twoThreads, hrun⟩).1 1 1 hmain
  exact ⟨w, hrun, hmain, hpasswords, hresults.1, hresults.2.1⟩

end Summary

/-! ## Every run ends -/

section Termination

variable {tasks : List TaskT} {w w' : World Q n} {t : Fin n} {tsk : TaskT} {x : Task}

/-- The inner loop ends from here. -/
def Ends (crypt : List UInt8 → List UInt8) (tsk : TaskT) (x : Task) : Prop :=
  ∃ fuel, (solveTask crypt tsk.hashedPwd tsk.knownPwd fuel x).isSome = true

/-- After how many turns. -/
noncomputable def turnsLeft (crypt : List UInt8 → List UInt8) (tsk : TaskT) (x : Task) : Nat :=
  sInf {fuel | (solveTask crypt tsk.hashedPwd tsk.knownPwd fuel x).isSome = true}

theorem Ends.turn (h : Ends crypt tsk x) (hdone : x.done = false) :
    Ends crypt tsk (turn crypt tsk.hashedPwd tsk.knownPwd x) ∧
    turnsLeft crypt tsk (turn crypt tsk.hashedPwd tsk.knownPwd x) < turnsLeft crypt tsk x := by
  have hstep : ∀ fuel, solveTask crypt tsk.hashedPwd tsk.knownPwd (fuel + 1) x =
      solveTask crypt tsk.hashedPwd tsk.knownPwd fuel
        (Cracker.turn crypt tsk.hashedPwd tsk.knownPwd x) := fun fuel => by
    rw [solveTask, if_neg (by simp [hdone])]
  have hmem :
      (solveTask crypt tsk.hashedPwd tsk.knownPwd (turnsLeft crypt tsk x) x).isSome = true :=
    Nat.sInf_mem (s := {fuel | (solveTask crypt tsk.hashedPwd tsk.knownPwd fuel x).isSome = true}) h
  cases hleft : turnsLeft crypt tsk x with
  | zero =>
    rw [hleft] at hmem
    cases hmem
  | succ k =>
    rw [hleft, hstep] at hmem
    exact ⟨⟨k, hmem⟩, Nat.lt_succ_of_le (Nat.sInf_le hmem)⟩

/-- The steps that a thread has left until it pulls again. -/
noncomputable def Pc.left (crypt : List UInt8 → List UInt8) : Pc → Nat
  | .unborn => 3
  | .pulling => 2
  | .solving tsk x => 3 * turnsLeft crypt tsk x + 6
  | .recovering tsk x => 3 * turnsLeft crypt tsk x + 5
  | .recovered tsk x => 3 * turnsLeft crypt tsk x + 4
  | .failing _ => 5
  | .failed _ => 4
  | .finishing _ => 3
  | .pushing => 1
  | .ended => 0

/-- The steps that an element of the queue asks for. -/
noncomputable def cost (crypt : List UInt8 → List UInt8) : Option TaskT → Nat
  | some tsk => 3 * turnsLeft crypt tsk (Task.start tsk.knownPwd) + 5
  | none => 0

def MainPc.left (n : Nat) : MainPc → Nat
  | .creating i => 2 * n + 2 - i
  | .joining j => n + 1 - j
  | .returned _ _ => 0

/-- The steps that are left at most. -/
noncomputable def World.measure (ops : QueueOps Q (Option TaskT)) (crypt : List UInt8 → List UInt8)
    (w : World Q n) : Nat :=
  ((ops.elements w.queue).map (cost crypt)).sum + ∑ t, (w.pc t).left crypt + w.main.left n

/-- The search of the task in hand ends. -/
def Pc.Ending (crypt : List UInt8 → List UInt8) : Pc → Prop
  | .solving tsk x => Ends crypt tsk x
  | .recovering tsk x => Ends crypt tsk x
  | .recovered tsk x => Ends crypt tsk x
  | _ => True

/-- All searches end. -/
structure Ending (ops : QueueOps Q (Option TaskT)) (crypt : List UInt8 → List UInt8)
    (w : World Q n) : Prop where
  queue : ∀ tsk, some tsk ∈ ops.elements w.queue → Ends crypt tsk (Task.start tsk.knownPwd)
  pc : ∀ t, (w.pc t).Ending crypt

/-- A thread moves and lowers the measure. -/
theorem Ending.move (h : Ending ops crypt w) {pc : Pc} (hpc : w'.pc = Function.update w.pc t pc)
    (hmain : w'.main = w.main)
    (hqueue : ∀ tsk, some tsk ∈ ops.elements w'.queue → some tsk ∈ ops.elements w.queue)
    (hending : pc.Ending crypt)
    (hlt : ((ops.elements w'.queue).map (cost crypt)).sum + pc.left crypt <
      ((ops.elements w.queue).map (cost crypt)).sum + (w.pc t).left crypt) :
    Ending ops crypt w' ∧ w'.measure ops crypt < w.measure ops crypt := by
  refine ⟨⟨fun tsk htsk => h.queue tsk (hqueue tsk htsk), fun u => ?_⟩, ?_⟩
  · rw [hpc]
    by_cases hu : u = t
    · rw [hu, Function.update_self]
      exact hending
    · rw [Function.update_of_ne hu]
      exact h.pc u
  · have hsum := sum_update (Pc.left crypt) w.pc t pc
    rw [World.measure, World.measure, hmain, hpc]
    omega

theorem Ending.pull (laws : QueueLaws ops) (h : Ending ops crypt w) (hpc : w.pc t = .pulling)
    (hs : w.pull ops t = some w') :
    Ending ops crypt w' ∧ w'.measure ops crypt < w.measure ops crypt := by
  rw [World.pull] at hs
  cases hpull : ops.pull w.queue with
  | none => simp [hpull] at hs
  | some pulled =>
    obtain ⟨head, queue⟩ := pulled
    have hqueue := laws.elements_pull _ _ _ hpull
    have hmem : ∀ tsk, some tsk ∈ ops.elements queue → some tsk ∈ ops.elements w.queue :=
      fun tsk htsk => by
        rw [hqueue]
        exact List.mem_cons_of_mem _ htsk
    -- the `NULL` costs one step less, and a task the steps of its search
    cases head with
    | none =>
      simp only [hpull] at hs
      obtain rfl := Option.some.inj hs
      refine h.move rfl rfl hmem trivial ?_
      rw [hpc, hqueue]
      simp [Pc.left, cost]
    | some tsk =>
      simp only [hpull] at hs
      obtain rfl := Option.some.inj hs
      refine h.move rfl rfl hmem (h.queue tsk (by rw [hqueue]; exact List.mem_cons_self)) ?_
      rw [hpc, hqueue]
      simp only [Pc.left, List.map_cons, List.sum_cons, cost]
      omega

theorem Ending.solve (h : Ending ops crypt w) (hpc : w.pc t = .solving tsk x) :
    Ending ops crypt (w.solve crypt t tsk x) ∧
    (w.solve crypt t tsk x).measure ops crypt < w.measure ops crypt := by
  have hends := h.pc t
  rw [hpc] at hends
  rw [World.solve]
  split_ifs with hdone hsucc hfound
  · refine h.move rfl rfl (fun _ htsk => htsk) trivial ?_
    rw [hpc]
    simp only [Pc.left, World.goto]
    omega
  · refine h.move rfl rfl (fun _ htsk => htsk) trivial ?_
    rw [hpc]
    simp only [Pc.left, World.goto]
    omega
  · refine h.move rfl rfl (fun _ htsk => htsk) hends ?_
    rw [hpc]
    simp only [Pc.left, World.goto]
    omega
  -- one turn less is left of the search
  · have hturn := Ends.turn hends (Bool.eq_false_iff.mpr hdone)
    refine h.move rfl rfl (fun _ htsk => htsk) hturn.1 ?_
    rw [hpc]
    simp only [Pc.left, World.goto]
    omega

/-- **A thread takes a step** and comes nearer to the end. -/
theorem ending_work (laws : QueueLaws ops) (h : Ending ops crypt w) (hfine : Fine crypt (w.pc t))
    (hs : work ops crypt w t = some w') :
    Ending ops crypt w' ∧ w'.measure ops crypt < w.measure ops crypt := by
  have hends := h.pc t
  rw [work] at hs
  cases hpc : w.pc t with
  | unborn => simp [hpc] at hs
  | pulling =>
    simp only [hpc] at hs
    exact h.pull laws hpc hs
  | solving tsk x =>
    simp only [hpc] at hs
    obtain rfl := Option.some.inj hs
    exact h.solve hpc
  | recovering tsk x =>
    simp only [hpc] at hs hends
    split_ifs at hs
    obtain rfl := Option.some.inj hs
    refine h.move rfl rfl (fun _ htsk => htsk) hends ?_
    rw [hpc]
    simp only [Pc.left, World.goto]
    omega
  | recovered tsk x =>
    simp only [hpc] at hs hends hfine
    obtain rfl := Option.some.inj hs
    -- the success ends the search, which counts as a turn
    have hturn := Ends.turn hends hfine.2.1
    refine h.move rfl rfl (fun _ htsk => htsk) hturn.1 ?_
    rw [hpc]
    simp only [Pc.left, World.goto]
    omega
  | failing tsk =>
    simp only [hpc] at hs
    split_ifs at hs
    obtain rfl := Option.some.inj hs
    refine h.move rfl rfl (fun _ htsk => htsk) trivial ?_
    rw [hpc]
    simp only [Pc.left, World.goto]
    omega
  | failed tsk =>
    simp only [hpc] at hs
    obtain rfl := Option.some.inj hs
    refine h.move rfl rfl (fun _ htsk => htsk) trivial ?_
    rw [hpc]
    simp only [Pc.left, World.goto]
    omega
  | finishing tsk =>
    simp only [hpc] at hs
    obtain rfl := Option.some.inj hs
    refine h.move rfl rfl (fun _ htsk => htsk) trivial ?_
    rw [hpc]
    simp only [Pc.left, World.goto]
    omega
  | pushing =>
    simp only [hpc] at hs
    obtain rfl := Option.some.inj hs
    refine h.move rfl rfl (fun tsk htsk => ?_) trivial ?_
    · simpa [laws.elements_push] using htsk
    · rw [hpc]
      simp [laws.elements_push, Pc.left, cost]
  | ended => simp [hpc] at hs

/-- **The main thread takes a step** and comes nearer to the end. -/
theorem ending_main (h : Ending ops crypt w) (hfine : MainFine w) (hs : mainWork w = some w') :
    Ending ops crypt w' ∧ w'.measure ops crypt < w.measure ops crypt := by
  rw [mainWork] at hs
  rw [MainFine] at hfine
  cases hmain : w.main with
  | creating i =>
    simp only [hmain] at hs hfine
    rw [dif_pos hfine.1] at hs
    obtain rfl := Option.some.inj hs
    have hpc : w.pc ⟨i, hfine.1⟩ = .unborn := (hfine.2 ⟨i, hfine.1⟩).mpr (le_refl _)
    have hsum := sum_update (Pc.left crypt) w.pc ⟨i, hfine.1⟩ .pulling
    have hlt := hfine.1
    rw [hpc] at hsum
    refine ⟨⟨h.queue, fun u => ?_⟩, ?_⟩
    · change Pc.Ending crypt (Function.update w.pc ⟨i, hfine.1⟩ .pulling u)
      by_cases hu : u = ⟨i, hfine.1⟩
      · rw [hu, Function.update_self]
        trivial
      · rw [Function.update_of_ne hu]
        exact h.pc u
    -- a new thread has steps before it, which the step of the main thread pays for
    · have hleft : (if i + 1 = n then MainPc.joining 0 else .creating (i + 1)).left n <
          (MainPc.creating i).left n := by
        split_ifs <;> simp only [MainPc.left] <;> omega
      rw [World.measure, World.measure, hmain]
      simp only [World.goto] at hsum ⊢
      simp only [Pc.left] at hsum ⊢
      omega
  | joining j =>
    simp only [hmain] at hs hfine
    have hle := hfine.1
    split_ifs at hs with hlt
    · cases hpc : w.pc ⟨j, hlt⟩ <;> simp only [hpc, reduceCtorEq] at hs
      obtain rfl := Option.some.inj hs
      refine ⟨⟨h.queue, h.pc⟩, ?_⟩
      rw [World.measure, World.measure, hmain]
      simp only [MainPc.left]
      omega
    · obtain rfl := Option.some.inj hs
      refine ⟨⟨h.queue, h.pc⟩, ?_⟩
      rw [World.measure, World.measure, hmain]
      simp only [MainPc.left]
      omega
  | returned r f => simp [hmain] at hs

/-- A password is found, or the prefix tells the end of the search. -/
def TaskT.Bounded (crypt : List UInt8 → List UInt8) (tsk : TaskT) : Prop :=
  (∃ c ∈ tsk.knownPwd.take (getPrefixLength tsk.knownPwd), c ≠ 122) ∨
    ∃ s, tsk.Completes s ∧ crypt s = tsk.hashedPwd

theorem TaskT.WellFormed.ends (hformed : tsk.WellFormed) (hbounded : tsk.Bounded crypt) :
    Ends crypt tsk (Task.start tsk.knownPwd) := by
  obtain ⟨pre, d, hletters, hknown⟩ := hformed
  have hdots := notMem_dot hletters
  have htake : tsk.knownPwd.take (getPrefixLength tsk.knownPwd) = pre := by
    rw [hknown, getPrefixLength_eq hdots, List.take_left' rfl]
  have hdrop : tsk.knownPwd.length - getPrefixLength tsk.knownPwd = d := by
    rw [hknown, getPrefixLength_eq hdots]
    simp
  rw [TaskT.Bounded, htake] at hbounded
  simp only [TaskT.Completes, htake, hdrop] at hbounded
  rw [Ends, hknown, start_eq hdots]
  exact (at_start pre d).ends hletters hbounded

/-- **The pool comes to its end.** No run takes more steps than the measure of its start, when
every task has a password to find or another letter than `z` before its dots, and a run that
cannot go on has printed the summary. -/
theorem pool_terminates (laws : QueueLaws ops) (hn : 0 < n)
    (htasks : ∀ tsk ∈ tasks, tsk.WellFormed ∧ tsk.Bounded crypt) {is : List (Event n)}
    (hrun : run (step ops crypt) (World.start ops n tasks) is = some w) :
    is.length ≤ (World.start ops n tasks).measure ops crypt ∧
    ((∀ e, step ops crypt w e = none) →
      ∃ numRecovered numFailed, w.main = .returned numRecovered numFailed) := by
  have hstart : Ending ops crypt (World.start ops n tasks) := by
    refine ⟨fun tsk htsk => ?_, fun _ => trivial⟩
    have hmem : tsk ∈ tasks := by simpa [elements_start laws] using htsk
    exact (htasks tsk hmem).1.ends (htasks tsk hmem).2
  -- the invariant of the results says where a success can be, which the measure needs
  have hstep : ∀ (w : World Q n) (e : Event n) (w' : World Q n),
      Inv ops crypt tasks w ∧ Ending ops crypt w → step ops crypt w e = some w' →
      (Inv ops crypt tasks w' ∧ Ending ops crypt w') ∧
        w'.measure ops crypt < w.measure ops crypt := by
    rintro w e w' ⟨hi, hending⟩ hs
    have hnext : Ending ops crypt w' ∧ w'.measure ops crypt < w.measure ops crypt := by
      cases e with
      | main => exact ending_main hending hi.main hs
      | work t => exact ending_work laws hending (hi.fine t) hs
    exact ⟨⟨inv_step laws hi hs, hnext.1⟩, hnext.2⟩
  obtain ⟨⟨hi, -⟩, hlength⟩ := length_add_measure_le ⟨inv_start laws hn, hstart⟩ hstep hrun
  refine ⟨by omega, fun hstuck => ?_⟩
  by_contra hmain
  push Not at hmain
  obtain ⟨e, he⟩ := exists_step laws hi hmain
  rw [hstuck e] at he
  cases he

theorem pool_terminates_twoTasks :
    ∃ w, run (step listQueue id) (World.start listQueue 2 twoTasks) twoThreads = some w ∧
      twoThreads.length ≤ (World.start listQueue 2 twoTasks).measure listQueue id := by
  have hend : (run (step listQueue id) (World.start listQueue 2 twoTasks) twoThreads).map World.main =
      some (.returned 1 1) := by
    decide +kernel
  obtain ⟨w, hrun, -⟩ := Option.map_eq_some_iff.mp hend
  refine ⟨w, hrun, (pool_terminates listQueue_laws (by decide) (fun tsk htsk => ?_) hrun).1⟩
  refine ⟨twoTasks_wellFormed tsk htsk, Or.inl ?_⟩
  simp only [twoTasks, List.mem_cons, List.not_mem_nil, or_false] at htsk
  rcases htsk with rfl | rfl
  · exact ⟨97, by decide, by decide⟩
  · exact ⟨98, by decide, by decide⟩

end Termination

end SystemProgramming.Cracker.Pool
