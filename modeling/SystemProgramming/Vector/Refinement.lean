import Mathlib.Data.List.ReduceOption
import SystemProgramming.Foundation.Simulation
import SystemProgramming.Vector.Vector

/-!
# The vector is a list that owns its elements

The first words of the array are the pointers of a list, each to an object of its own that the
callbacks have made and not destroyed. Every loop of the source is described once, by what it
does to these pointers and to the objects owned.

## Main definitions

* `listStep`: the calls as operations on a list
* `Owns s owned`: the objects made and not destroyed are those of the pointers `owned`
* `Refines s l`: the vector stores the list `l`
* `Grows`: the capacity grows only for the size, or for the target of `vector_reserve`

## Main results

* `Refines.step`: each call does what it does on the list
* `vector_refines`: so does every sequence of calls, and `vector_destroy` leaves no object
-/

namespace SystemProgramming.Vector

variable {V : Type} {cb : Callbacks V} {s s' : State V} {p q : Pointer} {l : List (Option V)}

/-- The calls as operations on a list, with their assertions, for sizes below `2 ^ 60`. -/
def listStep (cb : Callbacks V) (l : List (Option V)) : Op V → Option (List (Option V))
  | .pushBack element =>
    if l.length + 1 < 2 ^ 60 then some (l ++ [cb.copyConstructor element]) else none
  | .popBack => if l ≠ [] then some l.dropLast else none
  | .set position element =>
    if position < l.length then some (l.set position (cb.copyConstructor element)) else none
  | .erase position => if position < l.length then some (l.eraseIdx position) else none
  | .resize n =>
    if n < 2 ^ 60 then
      some (l.take n ++ List.replicate (n - l.length) cb.defaultConstructor)
    else none
  | .reserve n => if n < 2 ^ 60 then some l else none
  | .clear => some []

/-! ## Objects -/

/-- The objects made and not destroyed are those of the pointers `owned`, each once. -/
structure Owns (s : State V) (owned : List Pointer) : Prop where
  leaves : Leaves s.log owned.reduceOption
  bound : ∀ u ∈ s.log, u.resource < s.objects.length

/-- Nothing but the array, the objects and the log changes, and objects keep their value. -/
structure Extends (s s' : State V) : Prop where
  objects : s.objects <+: s'.objects
  size : s'.size = s.size
  capacity : s'.capacity = s.capacity

theorem Extends.refl : Extends s s := ⟨List.prefix_rfl, rfl, rfl⟩

theorem Extends.trans {s'' : State V} (h : Extends s s') (h' : Extends s' s'') : Extends s s'' :=
  ⟨h.objects.trans h'.objects, h'.size.trans h.size, h'.capacity.trans h.capacity⟩

theorem Extends.of_array {array : List (Option Pointer)}
    (h : Extends { s with array := array } s') : Extends s s' := ⟨h.objects, h.size, h.capacity⟩

namespace Owns

variable {owned owned' : List Pointer}

theorem perm (h : Owns s owned) (hp : owned.Perm owned') : Owns s owned' :=
  ⟨h.leaves.perm (hp.filterMap id), h.bound⟩

theorem of_array (h : Owns s owned) {array : List (Option Pointer)} :
    Owns { s with array := array } owned := ⟨h.leaves, h.bound⟩

theorem lt (h : Owns s owned) {o : Nat} (ho : some o ∈ owned) : o < s.objects.length := by
  obtain ⟨pre, mid, hlog, -⟩ := h.leaves.held (List.reduceOption_mem_iff.mpr ho)
  exact h.bound (.make o) (by simp [hlog])

/-- What an owned object reads as does not change. -/
theorem read_eq (h : Owns s owned) (hp : p ∈ owned) (hs : s.objects <+: s'.objects) :
    s'.read p = s.read p := by
  cases p with
  | none => rfl
  | some o =>
    obtain ⟨more, hmore⟩ := hs
    show s'.objects[o]? = s.objects[o]?
    rw [← hmore, List.getElem?_append_left (h.lt hp)]

theorem map_read_eq (h : Owns s owned) (hsub : owned' ⊆ owned) (hs : s.objects <+: s'.objects) :
    owned'.map s'.read = owned'.map s.read :=
  List.map_congr_left fun _ hp => h.read_eq (hsub hp) hs

theorem destructor (h : Owns s (p :: owned)) : Owns (s.destructor p) owned := by
  cases p with
  | none => exact ⟨h.leaves, h.bound⟩
  | some o =>
    refine ⟨Leaves.drop h.leaves, fun u hu => ?_⟩
    rcases List.mem_append.mp hu with hu | hu
    · exact h.bound u hu
    · rw [List.mem_singleton.mp hu]
      exact h.lt List.mem_cons_self

theorem construct (h : Owns s owned) (x : Option V) :
    Owns (s.construct x).2 ((s.construct x).1 :: owned) := by
  cases x with
  | none => exact ⟨h.leaves, h.bound⟩
  | some v =>
    refine ⟨Leaves.make h.leaves fun u hu => (h.bound u hu).ne, fun u hu => ?_⟩
    simp only [State.construct, List.length_append, List.length_singleton]
    rcases List.mem_append.mp hu with hu | hu
    · exact Nat.lt_succ_of_lt (h.bound u hu)
    · rw [List.mem_singleton.mp hu]
      exact Nat.lt_succ_self _

theorem use (h : Owns s owned) {o : Nat} (ho : some o ∈ owned) :
    Owns { s with log := s.log ++ [.use o] } owned := by
  refine ⟨Leaves.use h.leaves (List.reduceOption_mem_iff.mpr ho), fun u hu => ?_⟩
  rcases List.mem_append.mp hu with hu | hu
  · exact h.bound u hu
  · rw [List.mem_singleton.mp hu]
    exact h.lt ho

end Owns

@[simp] theorem destructor_array : (s.destructor p).array = s.array := by
  cases p <;> rfl

theorem extends_destructor : Extends s (s.destructor p) := by
  cases p <;> exact ⟨List.prefix_rfl, rfl, rfl⟩

/-- A constructed object is owned, and reads as the value it was made with. -/
theorem construct_spec {owned : List Pointer} {x : Option V} (h : s.construct x = (p, s'))
    (ho : Owns s owned) :
    s'.array = s.array ∧ Extends s s' ∧ Owns s' (p :: owned) ∧ s'.read p = x := by
  obtain rfl : (s.construct x).1 = p := congrArg Prod.fst h
  obtain rfl : (s.construct x).2 = s' := congrArg Prod.snd h
  have hown := ho.construct x
  cases x with
  | none => exact ⟨rfl, Extends.refl, hown, rfl⟩
  | some v =>
    refine ⟨rfl, ⟨List.prefix_append _ _, rfl, rfl⟩, hown, ?_⟩
    simp [State.construct, State.read]

/-- A copy of a stored object is owned, and reads as a copy. -/
theorem copyConstructor_spec {owned : List Pointer} (h : s.copyConstructor cb p = (q, s'))
    (ho : Owns s owned) (hp : p ∈ owned) :
    s'.array = s.array ∧ Extends s s' ∧ Owns s' (q :: owned) ∧
      s'.read q = cb.copyConstructor (s.read p) := by
  cases p with
  | none => exact construct_spec h ho
  | some o =>
    obtain ⟨harr, hext, hown, hread⟩ := construct_spec h (ho.use hp)
    have hused : Extends s { s with log := s.log ++ [.use o] } := ⟨List.prefix_rfl, rfl, rfl⟩
    exact ⟨harr, hused.trans hext, hown, hread⟩

/-! ## Words of the array -/

section Words

variable {a b : List (Option Pointer)} {c : Option Pointer}

theorem get_eq (h : s.array = a ++ some p :: b) : s.get a.length = some p := by
  simp [State.get, h]

theorem put_eq (h : s.array = a ++ c :: b) :
    s.put a.length p = some { s with array := a ++ some p :: b } := by
  simp [State.put, h]

end Words

/-! ## Loops -/

section Loops

variable {a b : List (Option Pointer)} {ps kept : List Pointer}

theorem destroyFrom_spec (hs : s.array = a ++ (ps.map some ++ b)) (ho : Owns s (ps ++ kept)) :
    ∃ s', s.destroyFrom a.length ps.length = some s' ∧ s'.array = s.array ∧ Extends s s' ∧
      Owns s' kept := by
  induction ps generalizing a s with
  | nil => exact ⟨s, rfl, rfl, Extends.refl, ho⟩
  | cons p ps ih =>
    have hget : s.get a.length = some p := get_eq hs
    have hs₁ : (s.destructor p).array = (a ++ [some p]) ++ (ps.map some ++ b) := by
      simp [hs]
    obtain ⟨s', hloop, harr, hext, hown⟩ := ih hs₁ ho.destructor
    refine ⟨s', ?_, harr.trans destructor_array, extends_destructor.trans hext, hown⟩
    simpa [State.destroyFrom, hget] using hloop

theorem fillFrom_spec {k : Nat} (hs : s.array = a ++ b) (hk : k ≤ b.length) (ho : Owns s kept) :
    ∃ s' ps, s.fillFrom cb a.length k = some s' ∧ s'.array = a ++ (ps.map some ++ b.drop k) ∧
      Extends s s' ∧ Owns s' (kept ++ ps) ∧
      ps.map s'.read = List.replicate k cb.defaultConstructor := by
  induction k generalizing a b s kept with
  | zero => exact ⟨s, [], rfl, hs, Extends.refl, by simpa using ho, rfl⟩
  | succ k ih =>
    obtain ⟨c, b, rfl⟩ := List.exists_cons_of_length_pos (Nat.zero_lt_of_lt hk)
    obtain ⟨p, s₁, hmade⟩ : ∃ p s₁, s.defaultConstructor cb = (p, s₁) := ⟨_, _, rfl⟩
    obtain ⟨harr, hext, hown, hread⟩ := construct_spec hmade ho
    have hput := put_eq (p := p) (harr.trans hs)
    -- the word is written; the rest of the array is filled from the next one on
    obtain ⟨s', ps, hloop, harr', hext', hown', hreads⟩ :=
      @ih { s₁ with array := a ++ some p :: b } (a ++ [some p]) b (kept ++ [p]) (by simp)
        (Nat.le_of_succ_le_succ hk)
        (hown.perm (List.perm_append_singleton p kept).symm).of_array
    have hext' := hext'.of_array
    refine ⟨s', p :: ps, ?_, by simpa using harr', hext.trans hext', by simpa using hown', ?_⟩
    · simpa [State.fillFrom, hmade, hput] using hloop
    · have hkeep : s'.read p = s₁.read p := hown.read_eq List.mem_cons_self hext'.objects
      rw [List.map_cons, List.replicate_succ, hreads, hkeep, hread]

theorem eraseFrom_spec (hs : s.array = a ++ ((p :: ps).map some ++ b))
    (ho : Owns s (p :: ps ++ kept)) :
    ∃ s' qs last, s.eraseFrom cb a.length ps.length = some s' ∧
      s'.array = a ++ (qs.map some ++ some last :: b) ∧ Extends s s' ∧
      Owns s' (last :: qs ++ kept) ∧
      qs.map s'.read = ps.map fun q => cb.copyConstructor (s.read q) := by
  induction ps generalizing a p s kept with
  | nil => exact ⟨s, [], p, rfl, hs, Extends.refl, ho, rfl⟩
  | cons q ps ih =>
    have hget : s.get a.length = some p := get_eq hs
    have hdestroyed : Owns (s.destructor p) (q :: ps ++ kept) := ho.destructor
    have harr₀ : (s.destructor p).array = (a ++ [some p]) ++ some q :: (ps.map some ++ b) := by
      simp [hs]
    have hnext : (s.destructor p).get (a.length + 1) = some q := by
      simpa using get_eq harr₀
    obtain ⟨r, s₁, hmade⟩ : ∃ r s₁, (s.destructor p).copyConstructor cb q = (r, s₁) :=
      ⟨_, _, rfl⟩
    obtain ⟨harr, hext, hown, hread⟩ := copyConstructor_spec hmade hdestroyed List.mem_cons_self
    have hput : s₁.put a.length r =
        some { s₁ with array := a ++ some r :: some q :: (ps.map some ++ b) } :=
      put_eq (c := some p) (by rw [harr, harr₀]; simp)
    have hext₀ : Extends s s₁ := extends_destructor.trans hext
    have hperm : (r :: (q :: ps ++ kept)).Perm (q :: ps ++ r :: kept) :=
      List.perm_middle.symm
    obtain ⟨s', qs, last, hloop, harr', hext', hown', hreads⟩ :=
      @ih { s₁ with array := a ++ some r :: some q :: (ps.map some ++ b) } q (a ++ [some r])
        (r :: kept) (by simp) (hown.perm hperm).of_array
    have hext' := hext'.of_array
    refine ⟨s', r :: qs, last, ?_, by simpa using harr', hext₀.trans hext', ?_, ?_⟩
    · simpa [State.eraseFrom, hget, hnext, hmade, hput] using hloop
    · exact hown'.perm (List.perm_middle.trans (List.Perm.swap last r (qs ++ kept)))
    · have hcopy : s'.read r = cb.copyConstructor (s.read q) := by
        rw [hown.read_eq List.mem_cons_self hext'.objects, hread,
          ho.read_eq (by simp) extends_destructor.objects]
      have hrest : qs.map s'.read = ps.map fun q => cb.copyConstructor (s.read q) := by
        rw [hreads]
        refine List.map_congr_left fun x hx => congrArg cb.copyConstructor ?_
        have hsame : s₁.read x = s.read x := ho.read_eq (by simp [hx]) hext₀.objects
        exact hsame
      rw [List.map_cons, List.map_cons, hcopy, hrest]

/-- The loops of `vector_clear` and of `vector_destroy` write into the array as they go. -/
theorem clearFrom_spec (hs : s.array = a ++ (ps.map some ++ b)) (ho : Owns s (ps ++ kept)) :
    ∃ s', s.clearFrom a.length ps.length = some s' ∧ s'.array.length = s.array.length ∧
      Extends s s' ∧ Owns s' kept := by
  induction ps generalizing a s with
  | nil => exact ⟨s, rfl, rfl, Extends.refl, ho⟩
  | cons p ps ih =>
    have hget : s.get a.length = some p := get_eq hs
    have hput : (s.destructor p).put a.length none =
        some { s.destructor p with array := a ++ some none :: (ps.map some ++ b) } :=
      put_eq (destructor_array.trans hs)
    have hdestroyed : Owns (s.destructor p) (ps ++ kept) := ho.destructor
    obtain ⟨s', hloop, harr, hext, hown⟩ :=
      @ih { s.destructor p with array := a ++ some none :: (ps.map some ++ b) } (a ++ [some none])
        (by simp) hdestroyed.of_array
    refine ⟨s', ?_, harr.trans (by simp [hs]), extends_destructor.trans hext.of_array, hown⟩
    simpa [State.clearFrom, hget, hput] using hloop

theorem destroyLoop_spec (hs : s.array = a ++ (ps.map some ++ b)) (ho : Owns s (ps ++ kept)) :
    ∃ s', s.destroyLoop a.length ps.length = some s' ∧ Owns s' kept := by
  induction ps generalizing a s with
  | nil => exact ⟨s, rfl, ho⟩
  | cons p ps ih =>
    have hget : s.get a.length = some p := get_eq hs
    have hdestroyed : Owns (s.destructor p) (ps ++ kept) := ho.destructor
    cases p with
    | none =>
      obtain ⟨s', hloop, hown⟩ := @ih s (a ++ [some none]) (by simp [hs]) hdestroyed
      refine ⟨s', ?_, hown⟩
      simpa [State.destroyLoop, hget] using hloop
    | some o =>
      have hput : (s.destructor (some o)).put a.length none =
          some { s.destructor (some o) with array := a ++ some none :: (ps.map some ++ b) } :=
        put_eq (destructor_array.trans hs)
      obtain ⟨s', hloop, hown⟩ := @ih
        { s.destructor (some o) with array := a ++ some none :: (ps.map some ++ b) }
        (a ++ [some none]) (by simp) hdestroyed.of_array
      refine ⟨s', ?_, hown⟩
      simpa [State.destroyLoop, hget, hput] using hloop

end Loops

/-! ## The capacity -/

/-- Doubling from a power of two reaches the least one that the target does not exceed. -/
theorem growCapacity_spec {target : Nat} (ht : target ≤ 2 ^ 63) (fuel i : Nat) (hi : i ≤ 63)
    (hfuel : 64 ≤ i + fuel) :
    ∃ k, i ≤ k ∧ k ≤ 63 ∧ growCapacity target fuel (2 ^ i) = some (2 ^ k) ∧ target ≤ 2 ^ k ∧
      ∀ j, i ≤ j → j < k → 2 ^ j < target := by
  induction fuel generalizing i with
  | zero => omega
  | succ fuel ih =>
    rw [growCapacity]
    split_ifs with hlt
    · have hi' : i < 63 := (Nat.pow_lt_pow_iff_right one_lt_two).mp (hlt.trans_le ht)
      have hdouble : 2 ^ i * growthFactor % 2 ^ 64 = 2 ^ (i + 1) := by
        rw [growthFactor, ← pow_succ]
        exact Nat.mod_eq_of_lt (Nat.pow_lt_pow_right one_lt_two (by omega))
      obtain ⟨k, hik, hk, hgrow, hle, hleast⟩ := ih (i + 1) hi' (by omega)
      refine ⟨k, by omega, hk, hdouble ▸ hgrow, hle, fun j hij hjk => ?_⟩
      rcases Nat.eq_or_lt_of_le hij with rfl | hij
      · exact hlt
      · exact hleast j hij hjk
    · exact ⟨i, le_rfl, hi, rfl, not_lt.mp hlt, fun j hij hji => absurd hij (not_le.mpr hji)⟩

/-- The new capacity is the least power of two that the target does not exceed. -/
theorem getNewCapacity_spec {target : Nat} (ht : target ≤ 2 ^ 63) :
    ∃ k, k ≤ 63 ∧ getNewCapacity target = some (2 ^ k) ∧ target ≤ 2 ^ k ∧
      ∀ j < k, 2 ^ j < target := by
  obtain ⟨k, -, hk, hgrow, hle, hleast⟩ := growCapacity_spec ht 65 0 (by omega) (by omega)
  exact ⟨k, hk, hgrow, hle, fun j hj => hleast j j.zero_le hj⟩

/-- The array has the capacity as its length, a power of two from 8 on. -/
structure Capacious (s : State V) : Prop where
  length : s.array.length = s.capacity
  power : ∃ k, 3 ≤ k ∧ k ≤ 60 ∧ s.capacity = 2 ^ k

/-- Reserving keeps the array and adds words behind it, up to a larger power of two. -/
theorem reserve_spec {n : Nat} (hs : Capacious s) (hn : n < 2 ^ 60) :
    ∃ extra s', s.reserve n = some s' ∧ s'.array = s.array ++ extra ∧ Capacious s' ∧
      s'.size = s.size ∧ s'.objects = s.objects ∧ s'.log = s.log ∧ n ≤ s'.capacity ∧
      s.capacity ≤ s'.capacity ∧ (s.capacity < s'.capacity → s.capacity < n) := by
  unfold State.reserve
  split_ifs with hlt
  · obtain ⟨k, hk, hgrow, hle, hleast⟩ := getNewCapacity_spec (hn.le.trans (by norm_num))
    have hk60 : k ≤ 60 := by
      by_contra hgt
      exact absurd (hleast 60 (by omega)) (by omega)
    obtain ⟨k₀, hk₀, -, hcap⟩ := hs.power
    have hk3 : k₀ ≤ k := by
      apply le_of_not_gt
      intro hgt
      have := Nat.pow_lt_pow_right one_lt_two hgt
      omega
    have hbytes : 2 ^ k * pointerSize % 2 ^ 64 / pointerSize = 2 ^ k := by
      have hpow : 2 ^ k ≤ 2 ^ 60 := Nat.pow_le_pow_right two_pos hk60
      rw [pointerSize]
      omega
    have htake : s.array.take (2 ^ k) = s.array := by
      apply List.take_of_length_le
      rw [hs.length]
      exact hlt.le.trans hle
    refine ⟨List.replicate (2 ^ k - s.array.length) none,
      { s with capacity := 2 ^ k, array := realloc s.array (2 ^ k * pointerSize % 2 ^ 64) },
      by rw [hgrow]; rfl, ?_, ?_, rfl, rfl, rfl, hle, hlt.le.trans hle, fun _ => hlt⟩
    · simp only [realloc, hbytes, htake]
    · refine ⟨?_, k, hk₀.trans hk3, hk60, rfl⟩
      simp only [realloc, hbytes, htake, List.length_append, List.length_replicate, hs.length]
      omega
  · exact ⟨[], s, rfl, by simp, hs, rfl, rfl, rfl, not_lt.mp hlt, le_rfl,
      fun h => absurd h (lt_irrefl _)⟩

/-! ## The list -/

/-- The vector stores the objects of `ptrs`, which read as `l`. -/
structure Stores (cb : Callbacks V) (s : State V) (ptrs : List Pointer)
    (l : List (Option V)) : Prop where
  array : ∃ tail, s.array = ptrs.map some ++ tail
  size : s.size = ptrs.length
  capacious : Capacious s
  owns : Owns s ptrs
  reads : ptrs.map s.read = l
  copies : ∀ x ∈ l, cb.copyConstructor x = x
  bound : s.size < 2 ^ 60

/-- The vector stores the list `l`. -/
def Refines (cb : Callbacks V) (s : State V) (l : List (Option V)) : Prop :=
  ∃ ptrs, Stores cb s ptrs l

/-- The capacity never shrinks, and grows only if the size or the target exceeds it. -/
def Grows (s : State V) (op : Op V) (s' : State V) : Prop :=
  s.capacity ≤ s'.capacity ∧ (s.capacity < s'.capacity →
    s.capacity < s'.size ∨ ∃ n, op = .reserve n ∧ s.capacity < n)

theorem Stores.create : Stores cb (create V) [] [] where
  array := ⟨_, rfl⟩
  size := rfl
  capacious := ⟨by simp [Vector.create, realloc, initialCapacity, pointerSize], 3, by decide,
    by decide, rfl⟩
  owns := ⟨Leaves.nil, nofun⟩
  reads := rfl
  copies := nofun
  bound := by simp [Vector.create]

theorem exists_split {α : Type*} {xs : List α} {i : Nat} (h : i < xs.length) :
    ∃ a x b, xs = a ++ x :: b ∧ a.length = i :=
  ⟨xs.take i, xs[i], xs.drop (i + 1), by simp, by simp [h.le]⟩

namespace Stores

variable {ptrs : List Pointer}

theorem length_eq (h : Stores cb s ptrs l) : l.length = s.size := by
  rw [h.size, ← h.reads, List.length_map]

theorem get (h : Stores cb s ptrs l) {a b : List Pointer} (hptrs : ptrs = a ++ p :: b) :
    s.get a.length = some p := by
  obtain ⟨tail, htail⟩ := h.array
  have harr : s.array = a.map some ++ some p :: (b.map some ++ tail) := by
    rw [htail, hptrs]
    simp
  simpa using get_eq harr

/-- A call that changes neither the capacity nor the length of the array. -/
theorem grows_of_eq {op : Op V} (h : s'.capacity = s.capacity) : Grows s op s' :=
  ⟨h.ge, fun hlt => absurd hlt (by omega)⟩

theorem pushBack (h : Stores cb s ptrs l) (element : Option V) (hlen : l.length + 1 < 2 ^ 60) :
    ∃ s', s.pushBack cb element = some s' ∧ Refines cb s' (l ++ [cb.copyConstructor element]) ∧
      Grows s (.pushBack element) s' := by
  obtain ⟨tail, htail⟩ := h.array
  have hn : ptrs.length + 1 < 2 ^ 60 := by rwa [h.length_eq, h.size] at hlen
  have hsize : (s.size + 1) % 2 ^ 64 = ptrs.length + 1 := by
    rw [h.size]
    omega
  obtain ⟨extra, s₁, hreserve, harr₁, hcap₁, hsize₁, hobj₁, hlog₁, hle, hge, hgrow⟩ :=
    @reserve_spec V { s with size := ptrs.length + 1 } (ptrs.length + 1)
      ⟨h.capacious.length, h.capacious.power⟩ hn
  have hown₁ : Owns s₁ ptrs := ⟨hlog₁ ▸ h.owns.leaves, hlog₁ ▸ hobj₁ ▸ h.owns.bound⟩
  obtain ⟨p, s₂, hmade⟩ : ∃ p s₂, s₁.copyElement cb element = (p, s₂) := ⟨_, _, rfl⟩
  obtain ⟨harr₂, hext₂, hown₂, hread⟩ := construct_spec hmade hown₁
  -- the array has room for the new pointer
  have hroom : 0 < (tail ++ extra).length := by
    have hlength := hcap₁.length
    rw [harr₁, htail] at hlength
    simp only [List.length_append, List.length_map] at hlength ⊢
    omega
  obtain ⟨c, rest, hrest⟩ := List.exists_cons_of_length_pos hroom
  have harr : s₂.array = ptrs.map some ++ c :: rest := by
    rw [harr₂, harr₁, htail, ← hrest, List.append_assoc]
  have hput := put_eq (p := p) harr
  refine ⟨{ s₂ with array := ptrs.map some ++ some p :: rest }, ?_, ⟨ptrs ++ [p], ?_⟩, ?_, ?_⟩
  · have hsub : s₂.size - 1 = (ptrs.map some).length := by simp [hext₂.size, hsize₁]
    simp only [State.pushBack, hsize]
    split_ifs with hlt
    · rw [Option.bind_eq_bind, hreserve, Option.bind_some, hmade, hsub]
      exact hput
    · rw [State.reserve, if_neg hlt] at hreserve
      rw [Option.bind_eq_bind, hreserve, Option.bind_some, hmade, hsub]
      exact hput
  · constructor
    case array => exact ⟨rest, by simp⟩
    case size => simp [hext₂.size, hsize₁]
    case capacious =>
      refine ⟨?_, hext₂.capacity ▸ hcap₁.power⟩
      rw [hext₂.capacity, ← hcap₁.length, ← harr₂, harr]
      simp
    case owns => exact (hown₂.perm (List.perm_append_singleton p ptrs).symm).of_array
    case reads =>
      have hkeep : ptrs.map s₂.read = ptrs.map s.read :=
        h.owns.map_read_eq (List.Subset.refl _) (hobj₁ ▸ hext₂.objects)
      have hall : (ptrs ++ [p]).map s₂.read = l ++ [cb.copyConstructor element] := by
        rw [List.map_append, hkeep, h.reads, List.map_singleton, hread]
      exact hall
    case copies =>
      intro x hx
      rcases List.mem_append.mp hx with hx | hx
      · exact h.copies x hx
      · rw [List.mem_singleton.mp hx]
        exact cb.copy_copy element
    case bound => simpa [hext₂.size, hsize₁] using hn
  · simpa [hext₂.capacity] using hge
  · intro hlt
    left
    have hcap : s.capacity < ptrs.length + 1 := hgrow (by simpa [hext₂.capacity] using hlt)
    simpa [hext₂.size, hsize₁] using hcap

theorem popBack (h : Stores cb s ptrs l) (hl : l ≠ []) :
    ∃ s', s.popBack = some s' ∧ Refines cb s' l.dropLast ∧ Grows s .popBack s' := by
  obtain ⟨tail, htail⟩ := h.array
  obtain rfl | ⟨init, p, rfl⟩ := ptrs.eq_nil_or_concat'
  · exact absurd h.reads.symm hl
  have hsize : s.size - 1 = init.length := by simp [h.size]
  have hget : s.get (s.size - 1) = some p := by
    rw [hsize]
    exact h.get rfl
  have hown : Owns (s.destructor p) init :=
    (h.owns.perm (List.perm_append_singleton p init)).destructor
  have hext : Extends s (s.destructor p) := extends_destructor
  have hne : s.size ≠ 0 := by simp [h.size]
  refine ⟨{ s.destructor p with size := (s.destructor p).size - 1 }, ?_, ⟨init, ?_⟩,
    grows_of_eq hext.capacity⟩
  · simp [State.popBack, hne, hget]
  · have hreads : init.map (s.destructor p).read = l.dropLast := by
      rw [h.owns.map_read_eq (List.subset_append_left _ _) hext.objects, ← h.reads]
      simp
    constructor
    case array => exact ⟨some p :: tail, by simp [htail]⟩
    case size => simp [hext.size, hsize]
    case capacious =>
      exact ⟨by simp [hext.capacity, h.capacious.length], hext.capacity ▸ h.capacious.power⟩
    case owns => exact ⟨hown.leaves, hown.bound⟩
    case reads => exact hreads
    case copies => exact fun x hx => h.copies x (List.mem_of_mem_dropLast hx)
    case bound =>
      have hbound := h.bound
      simp only [hext.size]
      omega

theorem set (h : Stores cb s ptrs l) {position : Nat} (element : Option V)
    (hpos : position < l.length) :
    ∃ s', s.set cb position element = some s' ∧
      Refines cb s' (l.set position (cb.copyConstructor element)) ∧
      Grows s (.set position element) s' := by
  obtain ⟨tail, htail⟩ := h.array
  have hlt : position < s.size := h.length_eq ▸ hpos
  obtain ⟨a, p, b, rfl, rfl⟩ := exists_split (h.size ▸ hlt)
  have hget := h.get rfl
  have hdestroyed : Owns (s.destructor p) (a ++ b) := (h.owns.perm List.perm_middle).destructor
  obtain ⟨q, s₁, hmade⟩ : ∃ q s₁, (s.destructor p).copyElement cb element = (q, s₁) :=
    ⟨_, _, rfl⟩
  obtain ⟨harr, hext₁, hown, hread⟩ := construct_spec hmade hdestroyed
  have hext : Extends s s₁ := extends_destructor.trans hext₁
  have harr₁ : s₁.array = a.map some ++ some p :: (b.map some ++ tail) := by
    simp [harr, htail]
  have hput : s₁.put a.length q =
      some { s₁ with array := a.map some ++ some q :: (b.map some ++ tail) } := by
    simpa using put_eq (p := q) harr₁
  refine ⟨{ s₁ with array := a.map some ++ some q :: (b.map some ++ tail) }, ?_,
    ⟨a ++ q :: b, ?_⟩, grows_of_eq hext.capacity⟩
  · simp only [State.set, hlt, if_true, hget, Option.bind_eq_bind, Option.bind_some, hmade]
    exact hput
  · have hreads : (a ++ q :: b).map s₁.read = l.set a.length (cb.copyConstructor element) := by
      have ha : a.map s₁.read = a.map s.read :=
        h.owns.map_read_eq (by simp) hext.objects
      have hb : b.map s₁.read = b.map s.read :=
        h.owns.map_read_eq (fun x hx => by simp [hx]) hext.objects
      rw [← h.reads]
      simp [ha, hb, hread]
    constructor
    case array => exact ⟨tail, by simp⟩
    case size => simp [hext.size, h.size]
    case capacious =>
      refine ⟨?_, hext.capacity ▸ h.capacious.power⟩
      rw [hext.capacity, ← h.capacious.length, htail]
      simp
    case owns => exact (hown.perm List.perm_middle.symm).of_array
    case reads => exact hreads
    case copies =>
      intro x hx
      rcases List.mem_or_eq_of_mem_set hx with hx | rfl
      · exact h.copies x hx
      · exact cb.copy_copy element
    case bound => exact hext.size ▸ h.bound

theorem erase (h : Stores cb s ptrs l) {position : Nat} (hpos : position < l.length) :
    ∃ s', s.erase cb position = some s' ∧ Refines cb s' (l.eraseIdx position) ∧
      Grows s (.erase position) s' := by
  obtain ⟨tail, htail⟩ := h.array
  have hlt : position < s.size := h.length_eq ▸ hpos
  obtain ⟨a, p, b, rfl, rfl⟩ := exists_split (h.size ▸ hlt)
  have hcount : s.size - 1 - a.length = b.length := by
    simp only [h.size, List.length_append, List.length_cons]
    omega
  have harr₀ : s.array = a.map some ++ ((p :: b).map some ++ tail) := by simp [htail]
  have hown₀ : Owns { s with size := s.size - 1 } (p :: b ++ a) :=
    ⟨(h.owns.perm List.perm_append_comm).leaves, h.owns.bound⟩
  obtain ⟨s₁, qs, last, hloop, harr, hext, hown, hreads⟩ :=
    @eraseFrom_spec V cb { s with size := s.size - 1 } p _ tail b a harr₀ hown₀
  have hqs : qs.length = b.length := by simpa using congrArg List.length hreads
  have hsize : s₁.size = (a ++ qs).length := by
    simp only [hext.size, h.size, List.length_append, List.length_cons, hqs]
    omega
  have harr₁ : s₁.array = (a ++ qs).map some ++ some last :: tail := by simp [harr]
  have hget : s₁.get s₁.size = some last := by
    rw [hsize]
    simpa using get_eq harr₁
  have hdestroyed : Owns (s₁.destructor last) (qs ++ a) := hown.destructor
  have hobj : s.objects <+: (s₁.destructor last).objects :=
    hext.objects.trans extends_destructor.objects
  have hcap : (s₁.destructor last).capacity = s.capacity :=
    extends_destructor.capacity.trans hext.capacity
  refine ⟨s₁.destructor last, ?_, ⟨a ++ qs, ?_⟩, grows_of_eq hcap⟩
  · rw [List.length_map] at hloop
    simp only [State.erase, hlt, if_true, hcount, hloop, Option.bind_eq_bind, Option.bind_some,
      hget]
  · constructor
    case array => exact ⟨some last :: tail, by simp [harr]⟩
    case size => exact extends_destructor.size.trans hsize
    case capacious =>
      refine ⟨?_, hcap ▸ h.capacious.power⟩
      rw [hcap, ← h.capacious.length, htail, destructor_array, harr₁]
      simp [hqs]
      omega
    case owns => exact hdestroyed.perm List.perm_append_comm
    case reads =>
      -- the copies of what the list holds read as the originals
      have hcopies : qs.map (s₁.destructor last).read = b.map s.read := by
        rw [hown.map_read_eq (by simp) extends_destructor.objects, hreads]
        refine List.map_congr_left fun x hx => h.copies _ ?_
        rw [← h.reads]
        exact List.mem_map_of_mem (by simp [hx])
      rw [List.map_append, h.owns.map_read_eq (by simp) hobj, hcopies, ← h.reads]
      simp [List.eraseIdx_append_of_length_le]
    case copies => exact fun x hx => h.copies x (List.mem_of_mem_eraseIdx hx)
    case bound =>
      have hbound := h.bound
      simp only [extends_destructor.size, hext.size]
      omega

theorem reserve (h : Stores cb s ptrs l) {n : Nat} (hn : n < 2 ^ 60) :
    ∃ s', s.reserve n = some s' ∧ Stores cb s' ptrs l ∧ s'.size = s.size ∧ n ≤ s'.capacity ∧
      s.capacity ≤ s'.capacity ∧ (s.capacity < s'.capacity → s.capacity < n) := by
  obtain ⟨tail, htail⟩ := h.array
  obtain ⟨extra, s₁, hreserve, harr, hcap, hsize, hobj, hlog, hle, hge, hgrow⟩ :=
    reserve_spec h.capacious hn
  refine ⟨s₁, hreserve, ?_, hsize, hle, hge, hgrow⟩
  constructor
  case array => exact ⟨tail ++ extra, by rw [harr, htail, List.append_assoc]⟩
  case size => exact hsize.trans h.size
  case capacious => exact hcap
  case owns => exact ⟨hlog ▸ h.owns.leaves, hlog ▸ hobj ▸ h.owns.bound⟩
  case reads =>
    rw [h.owns.map_read_eq (List.Subset.refl _) (hobj ▸ List.prefix_rfl), h.reads]
  case copies => exact h.copies
  case bound => exact hsize ▸ h.bound

/-- Growing within the capacity fills the new places with default objects. -/
theorem fill (h : Stores cb s ptrs l) {n : Nat} (hsize : s.size ≤ n) (hcap : n ≤ s.capacity)
    (hn : n < 2 ^ 60) :
    ∃ s', s.fillFrom cb s.size (n - s.size) = some s' ∧
      Refines cb { s' with size := n } (l ++ List.replicate (n - l.length) cb.defaultConstructor) ∧
      s'.capacity = s.capacity := by
  obtain ⟨tail, htail⟩ := h.array
  have hlen : s.size = (ptrs.map some).length := by rw [h.size, List.length_map]
  have hroom : n - s.size ≤ tail.length := by
    have hlength := h.capacious.length
    rw [htail, List.length_append, ← hlen] at hlength
    omega
  obtain ⟨s₁, ps, hloop, harr, hext, hown, hreads⟩ := @fillFrom_spec _ cb _ _ _ _ _ htail hroom h.owns
  rw [← hlen] at hloop
  have hps : ps.length = n - s.size := by simpa using congrArg List.length hreads
  refine ⟨s₁, hloop, ⟨ptrs ++ ps, ?_⟩, hext.capacity⟩
  constructor
  case array => exact ⟨tail.drop (n - s.size), by simp [harr]⟩
  case size =>
    rw [List.length_append, hps, ← h.size]
    exact (Nat.add_sub_of_le hsize).symm
  case capacious =>
    refine ⟨?_, hext.capacity ▸ h.capacious.power⟩
    show s₁.array.length = s₁.capacity
    rw [hext.capacity, ← h.capacious.length, htail, harr]
    simp only [List.length_append, List.length_map, List.length_drop, hps]
    omega
  case owns => exact ⟨hown.leaves, hown.bound⟩
  case reads =>
    have hall : (ptrs ++ ps).map s₁.read =
        l ++ List.replicate (n - l.length) cb.defaultConstructor := by
      rw [List.map_append, h.owns.map_read_eq (List.Subset.refl _) hext.objects, h.reads, hreads,
        h.length_eq]
    exact hall
  case copies =>
    intro x hx
    rcases List.mem_append.mp hx with hx | hx
    · exact h.copies x hx
    · rw [List.eq_of_mem_replicate hx]
      exact cb.copy_default
  case bound => exact hn

theorem resize (h : Stores cb s ptrs l) {n : Nat} (hn : n < 2 ^ 60) :
    ∃ s', s.resize cb n = some s' ∧
      Refines cb s' (l.take n ++ List.replicate (n - l.length) cb.defaultConstructor) ∧
      Grows s (.resize n) s' := by
  unfold State.resize
  split_ifs with hshrink hfit
  · obtain ⟨tail, htail⟩ := h.array
    -- the pointers from the new size on are destroyed, and stay in the array
    obtain ⟨a, b, rfl, rfl⟩ : ∃ a b, ptrs = a ++ b ∧ a.length = n :=
      ⟨ptrs.take n, ptrs.drop n, (List.take_append_drop n ptrs).symm,
        List.length_take_of_le (h.size ▸ hshrink.le)⟩
    have harr₀ : s.array = a.map some ++ (b.map some ++ tail) := by simp [htail]
    obtain ⟨s₁, hloop, harr, hext, hown⟩ :=
      destroyFrom_spec harr₀ (h.owns.perm List.perm_append_comm)
    have hcount : s.size - a.length = b.length := by simp [h.size]
    rw [List.length_map] at hloop
    refine ⟨{ s₁ with size := a.length }, ?_, ⟨a, ?_⟩, grows_of_eq hext.capacity⟩
    · rw [hcount, hloop]
      rfl
    · have hzero : a.length - l.length = 0 := by
        rw [h.length_eq]
        omega
      rw [hzero, List.replicate_zero, List.append_nil]
      constructor
      case array => exact ⟨b.map some ++ tail, harr.trans harr₀⟩
      case size => rfl
      case capacious =>
        exact ⟨by rw [harr, h.capacious.length, ← hext.capacity], hext.capacity ▸ h.capacious.power⟩
      case owns => exact ⟨hown.leaves, hown.bound⟩
      case reads =>
        have hkept : a.map s₁.read = l.take a.length := by
          rw [h.owns.map_read_eq (by simp) hext.objects, ← h.reads]
          simp
        exact hkept
      case copies => exact fun x hx => h.copies x (List.mem_of_mem_take hx)
      case bound => exact hn
  · have hle : s.size ≤ n := not_lt.mp hshrink
    obtain ⟨s₁, hfill, hrefines, hcap⟩ := h.fill hle hfit hn
    refine ⟨{ s₁ with size := n }, by rw [hfill]; rfl, ?_, grows_of_eq hcap⟩
    rwa [List.take_of_length_le (h.length_eq.trans_le hle)]
  · have hle : s.size ≤ n := not_lt.mp hshrink
    obtain ⟨s₁, hreserve, h₁, hsize, hcap₁, hge, hgrow⟩ := h.reserve hn
    obtain ⟨s₂, hfill, hrefines, hcap⟩ := h₁.fill (hsize.trans_le hle) hcap₁ hn
    refine ⟨{ s₂ with size := n }, ?_, ?_, hge.trans_eq hcap.symm, fun _ => Or.inl ?_⟩
    · rw [Option.bind_eq_bind, hreserve, Option.bind_some, hfill]
      rfl
    · rwa [List.take_of_length_le (h.length_eq.trans_le hle)]
    · exact not_le.mp hfit

theorem clear (h : Stores cb s ptrs l) :
    ∃ s', s.clear = some s' ∧ Refines cb s' [] ∧ Grows s .clear s' := by
  obtain ⟨tail, htail⟩ := h.array
  obtain ⟨s₁, hloop, hlen, hext, hown⟩ :=
    @clearFrom_spec V s [] tail ptrs [] htail (by simpa using h.owns)
  have hclear : s.clearFrom 0 s.size = some s₁ := h.size ▸ hloop
  refine ⟨{ s₁ with size := 0 }, ?_, ⟨[], ?_⟩, grows_of_eq hext.capacity⟩
  · rw [State.clear, hclear]
    rfl
  · constructor
    case array => exact ⟨s₁.array, rfl⟩
    case size => rfl
    case capacious =>
      exact ⟨by rw [hlen, h.capacious.length, ← hext.capacity], hext.capacity ▸ h.capacious.power⟩
    case owns => exact ⟨hown.leaves, hown.bound⟩
    case reads => rfl
    case copies => nofun
    case bound => exact Nat.two_pow_pos 60

/-- `vector_destroy` destroys what the vector stores, and nothing is owned any more. -/
theorem destroy (h : Stores cb s ptrs l) : ∃ s', s.destroy = some s' ∧ Owns s' [] := by
  obtain ⟨tail, htail⟩ := h.array
  obtain ⟨s₁, hloop, hown⟩ :=
    @destroyLoop_spec V s [] tail ptrs [] htail (by simpa using h.owns)
  have hdestroy : s.destroyLoop 0 s.size = some s₁ := h.size ▸ hloop
  refine ⟨{ s₁ with array := [] }, ?_, hown.of_array⟩
  rw [State.destroy, hdestroy]
  rfl

end Stores

/-! ## Sequences of calls -/

/-- **One call.** A call whose assertions hold goes through, and does what it does on the
list. -/
theorem Refines.step (h : Refines cb s l) {op : Op V} {l' : List (Option V)}
    (hl : listStep cb l op = some l') :
    ∃ s', exec cb s op = some s' ∧ Refines cb s' l' ∧ Grows s op s' := by
  obtain ⟨ptrs, h⟩ := h
  cases op with
  | pushBack element =>
    obtain ⟨hlen, rfl⟩ := Option.ite_none_right_eq_some.mp hl |>.imp id Option.some.inj
    exact h.pushBack element hlen
  | popBack =>
    obtain ⟨hne, rfl⟩ := Option.ite_none_right_eq_some.mp hl |>.imp id Option.some.inj
    exact h.popBack hne
  | set position element =>
    obtain ⟨hpos, rfl⟩ := Option.ite_none_right_eq_some.mp hl |>.imp id Option.some.inj
    exact h.set element hpos
  | erase position =>
    obtain ⟨hpos, rfl⟩ := Option.ite_none_right_eq_some.mp hl |>.imp id Option.some.inj
    exact h.erase hpos
  | resize n =>
    obtain ⟨hn, rfl⟩ := Option.ite_none_right_eq_some.mp hl |>.imp id Option.some.inj
    exact h.resize hn
  | reserve n =>
    obtain ⟨hn, rfl⟩ := Option.ite_none_right_eq_some.mp hl |>.imp id Option.some.inj
    obtain ⟨s', hreserve, h', -, -, hge, hgrow⟩ := h.reserve hn
    exact ⟨s', hreserve, ⟨ptrs, h'⟩, hge, fun hlt => Or.inr ⟨n, rfl, hgrow hlt⟩⟩
  | clear =>
    obtain rfl : [] = l' := Option.some.inj hl
    exact h.clear

/-- What the stored pointers read as, in their order. -/
def State.contents (s : State V) : List (Option (Option V)) :=
  (List.range s.size).map fun i => (s.get i).map s.read

theorem Stores.contents {ptrs : List Pointer} (h : Stores cb s ptrs l) :
    s.contents = l.map some := by
  apply List.ext_getElem
  · simp [State.contents, h.length_eq]
  · intro i hi _
    have hlt : i < ptrs.length := by simpa [State.contents, h.size] using hi
    obtain ⟨a, p, b, rfl, rfl⟩ := exists_split hlt
    have hget := h.get rfl
    have hread : l[a.length]? = some (s.read p) := by simp [← h.reads]
    obtain ⟨hl, heq⟩ := List.getElem?_eq_some_iff.mp hread
    simp [State.contents, hget, heq]

theorem run_refines {ops : List (Op V)} (hl : run (listStep cb) [] ops = some l) :
    ∃ s, run (exec cb) (create V) ops = some s ∧ Refines cb s l :=
  forward_run (fun _ _ _ _ h hl => (h.step hl).imp fun _ h => ⟨h.1, h.2.1⟩)
    ⟨[], Stores.create⟩ hl

/-- A call of a run whose assertions all hold grows the capacity only where it has to. -/
theorem grows_of_takes {ops : List (Op V)} {op : Op V}
    (hl : run (listStep cb) [] ops = some l) (htakes : Takes (exec cb) (create V) ops s op)
    (hexec : exec cb s op = some s') : Grows s op s' := by
  obtain ⟨pre, hpre, hs⟩ := htakes
  obtain ⟨l', hl'⟩ := exists_run_of_prefix hpre hl
  obtain ⟨l₀, hl₀, hop⟩ := run_snoc_eq_some.mp hl'
  obtain ⟨s₀, hs₀, hrefines⟩ := run_refines hl₀
  obtain rfl : s = s₀ := Option.some.inj (hs.symm.trans hs₀)
  obtain ⟨s'', hs'', -, hgrows⟩ := hrefines.step hop
  obtain rfl : s' = s'' := Option.some.inj (hexec.symm.trans hs'')
  exact hgrows

/-- **The vector refines a list and owns its elements.** A sequence of calls that meets its
assertions goes through. The stored objects then read as the list, within a capacity that is a
power of two, at least 8, that never shrinks and grows only if it has to, and after
`vector_destroy` every object made has been destroyed once and not used again. -/
theorem vector_refines (cb : Callbacks V) {ops : List (Op V)} {l : List (Option V)}
    (hl : run (listStep cb) [] ops = some l) :
    ∃ s, run (exec cb) (create V) ops = some s ∧
      s.contents = l.map some ∧ s.size ≤ s.capacity ∧ (∃ k, 3 ≤ k ∧ s.capacity = 2 ^ k) ∧
      (∀ t op t', Takes (exec cb) (create V) ops t op → exec cb t op = some t' →
        Grows t op t') ∧
      ∃ f, s.destroy = some f ∧ ∀ u ∈ f.log, Once f.log u.resource := by
  obtain ⟨s, hrun, ptrs, h⟩ := run_refines hl
  obtain ⟨f, hdestroy, hown⟩ := h.destroy
  obtain ⟨k, hk, -, hpow⟩ := h.capacious.power
  have hsize : s.size ≤ s.capacity := by
    obtain ⟨tail, htail⟩ := h.array
    rw [h.size, ← h.capacious.length, htail]
    simp
  exact ⟨s, hrun, h.contents, hsize, ⟨k, hk, hpow⟩, fun t op t' => grows_of_takes hl,
    f, hdestroy, fun u hu => hown.leaves.once hu⟩

/-- Elements are pushed, one of them is erased, and the vector grows past its capacity. -/
def growingSession : List (Op Nat) :=
  [.pushBack (some 1), .pushBack none, .pushBack (some 3), .erase 0, .set 1 (some 7), .resize 9,
    .popBack, .reserve 20]

theorem vector_refines_growingSession :
    ∃ s, run (exec (deepCallbacks 0)) (create Nat) growingSession = some s ∧
      s.contents = ([none, some 7, some 0, some 0, some 0, some 0, some 0, some 0] :
        List (Option Nat)).map some ∧
      s.size ≤ s.capacity ∧ (∃ k, 3 ≤ k ∧ s.capacity = 2 ^ k) ∧
      (∀ t op t', Takes (exec (deepCallbacks 0)) (create Nat) growingSession t op →
        exec (deepCallbacks 0) t op = some t' → Grows t op t') ∧
      ∃ f, s.destroy = some f ∧ ∀ u ∈ f.log, Once f.log u.resource :=
  vector_refines (deepCallbacks 0) (by decide)

end SystemProgramming.Vector
