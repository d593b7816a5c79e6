import SystemProgramming.Cracker.Search

/-!
# The search of `password_cracker/cracker1.c`

A thread of `cracker1` searches all completions of a known part on its own. It starts at the
first one and goes on with `incrementString` until the hash is found or the prefix has changed.
The prefix changes by the carry that follows the last completion, but there is no such carry out
of a prefix of `z`s only, the empty one included: `incrementString` leaves the last completion as
it is then, and the loop hashes it again and again.

Strings are shorter than an `int` counts. `hashed` follows the candidates that are hashed;
`hashes` is its length.

## Main definitions

* `samePrefix`, `turn`, `solveTask`: the inner loop of `solve_task`
* `IsCompletion pre d s`: `s` completes the prefix by `d` lowercase letters
* `SearchesOnce`: the loop ends, has hashed no completion twice, and reports what there is

## Main results

* `not_searchesOnce`: the loop that does not end
* `searchesOnce_iff`: the prefix holds another letter than `z`, or there is a password
-/

namespace SystemProgramming.Cracker

/-! ## The loop -/

/-- `samePrefix`. -/
def samePrefix (pwd knownPwd : List UInt8) : Bool :=
  let prefixSize := getPrefixLength knownPwd
  pwd.take prefixSize == knownPwd.take prefixSize

/-- The variables of `solve_task` in the inner loop. -/
structure Task where
  pwd : List UInt8
  succ : Bool
  done : Bool
  hashed : List (List UInt8)

section Loop

variable (crypt : List UInt8 → List UInt8) (hashedPwd knownPwd : List UInt8)

/-- The variables before the inner loop. -/
def Task.start : Task where
  pwd :=
    let dotsStart := getPrefixLength knownPwd
    knownPwd.take dotsStart ++ setStringPosition (knownPwd.drop dotsStart) 0
  succ := false
  done := false
  hashed := []

/-- One turn of the inner loop. -/
def turn (x : Task) : Task :=
  let found := crypt x.pwd == hashedPwd
  let pwd := (incrementString x.pwd).1
  { pwd := pwd
    succ := x.succ || found
    done := x.done || found || !samePrefix pwd knownPwd
    hashed := x.hashed ++ [x.pwd] }

/-- The inner loop, for at most `fuel` turns. -/
def solveTask : Nat → Task → Option Task
  | 0, _ => none
  | fuel + 1, x => if x.done then some x else solveTask fuel (turn crypt hashedPwd knownPwd x)

end Loop

/-- The string `s` completes the prefix `pre` by `d` lowercase letters. -/
def IsCompletion (pre : List UInt8) (d : Nat) (s : List UInt8) : Prop :=
  ∃ w : List UInt8, w.length = d ∧ (∀ c ∈ w, 97 ≤ c ∧ c ≤ 122) ∧ s = pre ++ w

/-- The loop ends. It has hashed completions only, none of them twice, and it reports success
exactly when some completion has the hash. -/
def SearchesOnce (crypt : List UInt8 → List UInt8) (hashedPwd pre : List UInt8) (d : Nat) : Prop :=
  ∃ fuel x, solveTask crypt hashedPwd (pre ++ List.replicate d 46) fuel
      (Task.start (pre ++ List.replicate d 46)) = some x ∧
    x.hashed.Nodup ∧ (∀ s ∈ x.hashed, IsCompletion pre d s) ∧
    (x.succ = true ↔ ∃ s, IsCompletion pre d s ∧ crypt s = hashedPwd)

/-! ## The last completion -/

section Last

variable {pre u : List UInt8} {c : UInt8} {d m p : Nat}

theorem lastNotZ_eq_none (h : ∀ c ∈ u, c = 122) (hp : p ≤ u.length) : lastNotZ u p = none := by
  induction p with
  | zero => rfl
  | succ p ih =>
    have hz : u.getD p 0 = 122 := by
      rw [List.getD_eq_getElem?_getD, List.getElem?_eq_getElem hp, Option.getD_some]
      exact h _ (List.getElem_mem hp)
    rw [lastNotZ, if_pos hz, ih (by omega)]

/-- There is no string after the last one. -/
theorem incrementString_of_forall (h : ∀ c ∈ u, c = 122) : incrementString u = (u, 0) := by
  rw [incrementString, lastNotZ_eq_none h (le_refl _)]

/-- The carry runs over all `z`s at the end. -/
theorem incrementString_replicate (hc : c ≠ 122) (hzero : c + 1 ≠ 0) (m : Nat) :
    incrementString (u ++ [c] ++ List.replicate m 122) =
      (u ++ [c + 1] ++ List.replicate m 97, 1) := by
  induction m with
  | zero => simpa using incrementString_last hc hzero
  | succ m ih =>
    rw [List.replicate_succ', ← List.append_assoc, incrementString_carry ih (by simp),
      List.append_assoc, ← List.replicate_succ']

/-- The last letter that is not a `z`. -/
theorem exists_last_ne (h : ∃ c ∈ pre, c ≠ 122) :
    ∃ u c m, c ∈ pre ∧ c ≠ 122 ∧ pre = u ++ [c] ++ List.replicate m 122 := by
  induction pre using List.reverseRecOn with
  | nil =>
    obtain ⟨c, hc, -⟩ := h
    cases hc
  | append_singleton pre x ih =>
    by_cases hx : x = 122
    · obtain ⟨c, hc, hne⟩ := h
      have hpre : c ∈ pre := by
        rcases List.mem_append.mp hc with hc | hc
        · exact hc
        · exact absurd ((List.mem_singleton.mp hc).trans hx) hne
      obtain ⟨u, c, m, hmem, hne, heq⟩ := ih ⟨c, hpre, hne⟩
      refine ⟨u, c, m + 1, List.mem_append_left _ hmem, hne, ?_⟩
      rw [List.replicate_succ', ← List.append_assoc, ← heq, hx]
    · exact ⟨pre, x, 0, by simp, hx, by simp⟩

theorem word_last (d : Nat) : word letter 26 d (26 ^ d - 1) = List.replicate d 122 := by
  induction d with
  | zero => rfl
  | succ d ih =>
    have hpos : 0 < 26 ^ d := Nat.pow_pos (by omega)
    have hpow : 26 ^ (d + 1) = 26 * 26 ^ d := Nat.pow_succ'
    have hdiv : (26 ^ (d + 1) - 1) / 26 = 26 ^ d - 1 := by omega
    have hmod : (26 ^ (d + 1) - 1) % 26 = 25 := by omega
    rw [word, hdiv, hmod, ih, List.replicate_succ']
    rfl

/-- After the last completion the prefix is another one, when it holds another letter than `z`. -/
theorem take_incrementString_ne (hletters : ∀ c ∈ pre, 97 ≤ c ∧ c ≤ 122)
    (h : ∃ c ∈ pre, c ≠ 122) :
    (incrementString (pre ++ List.replicate d 122)).1.take pre.length ≠ pre := by
  obtain ⟨u, c, m, hmem, hne, rfl⟩ := exists_last_ne h
  have hle : c.toNat ≤ 122 := (hletters c hmem).2
  have hadd : (c + 1).toNat = c.toNat + 1 := by
    rw [UInt8.toNat_add]
    exact Nat.mod_eq_of_lt (by simp; omega)
  have hzero : c + 1 ≠ 0 := by
    intro heq
    rw [heq] at hadd
    exact absurd hadd.symm (Nat.succ_ne_zero _)
  rw [List.append_assoc (u ++ [c]), ← List.replicate_add, incrementString_replicate hne hzero]
  intro heq
  -- the letter that went up
  have hget := congrArg (fun l => l[u.length]?) heq
  simp only [List.append_assoc, List.length_append, List.length_singleton, List.length_replicate]
    at hget
  rw [List.getElem?_take_of_lt (by omega), List.getElem?_append_right (le_refl _),
    List.getElem?_append_right (le_refl _)] at hget
  simp at hget

end Last

/-! ## The turns of the loop -/

section Turns

variable {crypt : List UInt8 → List UInt8} {hashedPwd pre : List UInt8} {d n : Nat}

/-- The loop before it hashes completion `n`, if it has not found the password. -/
def Task.before (pre : List UInt8) (d n : Nat) : Task where
  pwd := pre ++ word letter 26 d n
  succ := false
  done := false
  hashed := (List.range n).map fun i => pre ++ word letter 26 d i

theorem notMem_dot (hletters : ∀ c ∈ pre, 97 ≤ c ∧ c ≤ 122) : 46 ∉ pre := by
  intro hmem
  exact absurd (hletters 46 hmem).1 (by decide)

theorem start_eq (hdots : 46 ∉ pre) :
    Task.start (pre ++ List.replicate d 46) = Task.before pre d 0 := by
  rw [Task.start, Task.before, getPrefixLength_eq hdots]
  simp only [List.take_left', List.drop_left', setStringPosition, List.length_replicate]
  congr 2
  exact setPositions_eq (n := 0)

theorem samePrefix_eq (hdots : 46 ∉ pre) (pwd : List UInt8) :
    samePrefix pwd (pre ++ List.replicate d 46) = (pwd.take pre.length == pre) := by
  rw [samePrefix, getPrefixLength_eq hdots, List.take_left']
  rfl

variable (hdots : 46 ∉ pre)
include hdots

/-- A turn that does not find the password. -/
theorem turn_before (hmiss : crypt (pre ++ word letter 26 d n) ≠ hashedPwd) (hn : n + 1 < 26 ^ d) :
    turn crypt hashedPwd (pre ++ List.replicate d 46) (Task.before pre d n) =
      Task.before pre d (n + 1) := by
  have hfound : (crypt (pre ++ word letter 26 d n) == hashedPwd) = false :=
    beq_eq_false_iff_ne.mpr hmiss
  simp only [turn, Task.before, incrementString_word hn, hfound, samePrefix_eq hdots,
    List.take_left', beq_self_eq_true]
  rw [List.range_succ, List.map_append]
  rfl

/-- As long as the password is not found, the loop goes on with the next completion. -/
theorem solveTask_before {fuel : Nat} (hn : n < 26 ^ d)
    (hmiss : ∀ i < n, crypt (pre ++ word letter 26 d i) ≠ hashedPwd) :
    solveTask crypt hashedPwd (pre ++ List.replicate d 46) (fuel + n) (Task.before pre d 0) =
      solveTask crypt hashedPwd (pre ++ List.replicate d 46) fuel (Task.before pre d n) := by
  induction n generalizing fuel with
  | zero => rfl
  | succ n ih =>
    have hrest : fuel + (n + 1) = (fuel + 1) + n := by omega
    rw [hrest, ih (by omega) fun i hi => hmiss i (by omega), solveTask,
      if_neg (by simp [Task.before]), turn_before hdots (hmiss n (by omega)) hn]

/-- The loop ends after the turn that sets `done`. -/
theorem searchesOnce_of_done (hn : n < 26 ^ d)
    (hmiss : ∀ i < n, crypt (pre ++ word letter 26 d i) ≠ hashedPwd)
    (hdone : (turn crypt hashedPwd (pre ++ List.replicate d 46) (Task.before pre d n)).done = true)
    (hsucc : crypt (pre ++ word letter 26 d n) = hashedPwd ∨
      ∀ s, IsCompletion pre d s → crypt s ≠ hashedPwd) :
    SearchesOnce crypt hashedPwd pre d := by
  have hcompletion : ∀ i, IsCompletion pre d (pre ++ word letter 26 d i) := fun i =>
    ⟨_, length_word, fun c hc => mem_word hc, rfl⟩
  refine ⟨2 + n, turn crypt hashedPwd (pre ++ List.replicate d 46) (Task.before pre d n),
    ?_, ?_, ?_, ?_⟩
  · rw [start_eq hdots, solveTask_before hdots hn hmiss, solveTask,
      if_neg (by simp [Task.before]), solveTask, if_pos hdone]
  · -- the completions that are hashed are the first ones in lexicographic order
    have hpairwise : ((List.range (n + 1)).map fun i => pre ++ word letter 26 d i).Pairwise
        (· < ·) := by
      rw [List.pairwise_map]
      refine List.Pairwise.imp_of_mem (fun {i j} hi hj hij => ?_) List.pairwise_lt_range
      have hj := List.mem_range.mp hj
      exact List.append_left_lt (word_lt_word (by omega) (fun _ _ => letter_lt) hij (by omega))
    rw [List.range_succ, List.map_append] at hpairwise
    exact hpairwise.imp fun hlt heq => absurd (heq ▸ hlt) (List.lt_irrefl _)
  · intro s hs
    rcases List.mem_append.mp hs with hs | hs
    · obtain ⟨i, -, rfl⟩ := List.mem_map.mp hs
      exact hcompletion i
    · obtain rfl := List.mem_singleton.mp hs
      exact hcompletion n
  · simp only [turn, Task.before, Bool.false_or, beq_iff_eq]
    rcases hsucc with hfound | hnone
    · exact iff_of_true hfound ⟨_, hcompletion n, hfound⟩
    · exact iff_of_false (hnone _ (hcompletion n)) fun ⟨s, hs, hfound⟩ => hnone s hs hfound

omit hdots in
/-- A loop that never sets `done` does not end. -/
theorem solveTask_eq_none {knownPwd : List UInt8} {I : Task → Prop}
    (hI : ∀ x, I x → x.done = false ∧ I (turn crypt hashedPwd knownPwd x)) (fuel : Nat) {x : Task}
    (hx : I x) : solveTask crypt hashedPwd knownPwd fuel x = none := by
  induction fuel generalizing x with
  | zero => rfl
  | succ fuel ih =>
    obtain ⟨hdone, hnext⟩ := hI x hx
    rw [solveTask, if_neg (by simp [hdone]), ih hnext]

/-- **The loop that does not end.** Without a carry out of the prefix, and without a password, no
completion is the last one. -/
theorem not_searchesOnce (hpre : ∀ c ∈ pre, c = 122)
    (hnone : ∀ s, IsCompletion pre d s → crypt s ≠ hashedPwd) :
    ¬ SearchesOnce crypt hashedPwd pre d := by
  rintro ⟨fuel, x, hx, -⟩
  have hstart : (Task.before pre d 0).done = false ∧
      ∃ n < 26 ^ d, (Task.before pre d 0).pwd = pre ++ word letter 26 d n :=
    ⟨rfl, 0, Nat.pow_pos (by omega), rfl⟩
  rw [start_eq hdots, solveTask_eq_none (I := fun x => x.done = false ∧
    ∃ n < 26 ^ d, x.pwd = pre ++ word letter 26 d n) ?_ fuel hstart] at hx
  · exact Option.some_ne_none x hx.symm
  rintro x ⟨hdone, n, hn, hpwd⟩
  have hmiss : (crypt x.pwd == hashedPwd) = false := by
    rw [hpwd]
    exact beq_eq_false_iff_ne.mpr (hnone _ ⟨_, length_word, fun c hc => mem_word hc, rfl⟩)
  -- the next completion, or the last one again
  obtain ⟨n', hn', hnext⟩ : ∃ n' < 26 ^ d,
      (incrementString x.pwd).1 = pre ++ word letter 26 d n' := by
    rcases (show n + 1 ≤ 26 ^ d from hn).lt_or_eq with hlt | hlast
    · exact ⟨n + 1, hlt, by rw [hpwd, incrementString_word hlt]⟩
    · refine ⟨n, hn, ?_⟩
      have hword : word letter 26 d n = List.replicate d 122 := by
        rw [show n = 26 ^ d - 1 by omega, word_last]
      rw [hpwd, incrementString_of_forall]
      intro c hc
      rw [hword] at hc
      exact (List.mem_append.mp hc).elim (hpre c) List.eq_of_mem_replicate
  refine ⟨hdone, ?_, n', hn', hnext⟩
  simp only [turn, hdone, hmiss, hnext, samePrefix_eq hdots, List.take_left', beq_self_eq_true]
  rfl

end Turns

/-! ## When the search ends -/

/-- **The search ends** after it has hashed each completion at most once, and reports what there
is, exactly when the prefix holds another letter than `z` or some completion has the hash. -/
theorem searchesOnce_iff (crypt : List UInt8 → List UInt8) (hashedPwd pre : List UInt8) (d : Nat)
    (hletters : ∀ c ∈ pre, 97 ≤ c ∧ c ≤ 122) :
    SearchesOnce crypt hashedPwd pre d ↔
      (∃ c ∈ pre, c ≠ 122) ∨ ∃ s, IsCompletion pre d s ∧ crypt s = hashedPwd := by
  have hdots := notMem_dot hletters
  constructor
  · intro hsearch
    by_contra hno
    push Not at hno
    exact not_searchesOnce hdots hno.1 hno.2 hsearch
  · intro h
    by_cases hfound : ∃ n, n < 26 ^ d ∧ crypt (pre ++ word letter 26 d n) = hashedPwd
    · -- the first completion with the hash
      have hfirst := Nat.find_spec hfound
      apply searchesOnce_of_done hdots hfirst.1 _ _ (Or.inl hfirst.2)
      · intro i hi heq
        exact Nat.find_min hfound hi ⟨hi.trans hfirst.1, heq⟩
      · simp [turn, Task.before, hfirst.2]
    · have hmiss : ∀ i < 26 ^ d, crypt (pre ++ word letter 26 d i) ≠ hashedPwd :=
        fun i hi heq => hfound ⟨i, hi, heq⟩
      have hnone : ∀ s, IsCompletion pre d s → crypt s ≠ hashedPwd := by
        rintro _ ⟨w, rfl, hw, rfl⟩
        obtain ⟨n, hn, hword⟩ := exists_word w fun c hc => exists_letter (hw c hc).1 (hw c hc).2
        rw [← hword]
        exact hmiss n hn
      have hother : ∃ c ∈ pre, c ≠ 122 := by
        apply h.resolve_right
        rintro ⟨s, hs, heq⟩
        exact hnone s hs heq
      have hpos : 0 < 26 ^ d := Nat.pow_pos (by omega)
      apply searchesOnce_of_done hdots (n := 26 ^ d - 1) (by omega) _ _ (Or.inr hnone)
      · exact fun i hi => hmiss i (by omega)
      · have hprefix := take_incrementString_ne (d := d) hletters hother
        simp [turn, Task.before, word_last, samePrefix_eq hdots, hprefix]

/-- The known part `"ab."`, with the hash of `abd`. -/
theorem searchesOnce_iff_ab : SearchesOnce cryptAb hashAbd ab 1 :=
  (searchesOnce_iff cryptAb hashAbd ab 1 (by simp [ab])).mpr (Or.inl ⟨97, by decide, by decide⟩)

/-- The known part `"z."`, with a hash that no password has. -/
theorem not_searchesOnce_z :
    (∀ c ∈ ([122] : List UInt8), 97 ≤ c ∧ c ≤ 122) ∧ ¬ SearchesOnce cryptAbc hashAbd [122] 1 :=
  ⟨by simp, not_searchesOnce (by simp) (by simp) fun s _ => cryptAbc_ne s⟩

end SystemProgramming.Cracker
