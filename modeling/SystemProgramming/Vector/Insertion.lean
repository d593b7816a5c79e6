import SystemProgramming.Vector.Refinement

/-!
# `vector_insert`

The loop moves the elements from the position on down by one place, the last one first: each is
copied into the place behind it, and then destroyed. It leaves when the index is below the
position, and an unsigned index is never below zero. So an element inserted at the front, and
with it every element inserted into an empty vector, lets the loop run out of the array.

## Main definitions

* `Moved s s' ptrs`: what the log says of the objects that were moved, and of all others
* `Inserted`: the vector after an insertion

## Main results

* `insertLoop_spec`: what the loop does for a position that is not zero
* `insertLoop_zero`: with position zero it does not come to an end
* `vector_insert_iff`: an insertion does what it is for except at the front
-/

namespace SystemProgramming.Vector

variable {V : Type} {cb : Callbacks V} {s s' : State V} {p q : Pointer} {l : List (Option V)}

/-- The objects of `ptrs` were copied once and destroyed once, and other objects that were there
before were left alone. -/
def Moved (s s' : State V) (ptrs : List Pointer) : Prop :=
  ∃ events, s'.log = s.log ++ events ∧
    (∀ o, some o ∈ ptrs → events.count (.use o) = 1 ∧ events.count (.drop o) = 1) ∧
    ∀ o < s.objects.length, some o ∉ ptrs → Unseen events o

/-- The vector `s'` is the vector `s` of the pointers `ptrs`, which read as `l`, with a copy of the
element before the position. It has the capacity for its pointers, and owns their objects. The
pointers in front of the position have stayed, and those behind it are new. -/
structure Inserted (cb : Callbacks V) (s : State V) (ptrs : List Pointer) (l : List (Option V))
    (position : Nat) (element : Option V) (s' : State V) : Prop where
  contents : s'.contents =
    (l.take position ++ [cb.copyConstructor element] ++ l.drop position).map some
  capacity : s'.array.length = s'.capacity
  stores : ∃ inserted moved tail,
    s'.array = (ptrs.take position ++ inserted :: moved).map some ++ tail ∧
      Owns s' (ptrs.take position ++ inserted :: moved)
  moved : Moved s s' (ptrs.drop position)

/-! ## The log -/

theorem destructor_log : (s.destructor p).log = s.log ++ p.toList.map .drop := by
  cases p <;> simp [State.destructor]

theorem construct_log {x : Option V} (h : s.construct x = (p, s')) :
    ∃ made, s'.log = s.log ++ made ∧ ∀ u ∈ made, u = .make s.objects.length := by
  obtain rfl : (s.construct x).2 = s' := congrArg Prod.snd h
  cases x with
  | none => exact ⟨[], (List.append_nil _).symm, nofun⟩
  | some v => exact ⟨[.make s.objects.length], rfl, fun u hu => List.mem_singleton.mp hu⟩

theorem copyConstructor_log (h : s.copyConstructor cb p = (q, s')) :
    ∃ made, s'.log = s.log ++ (p.toList.map .use ++ made) ∧
      ∀ u ∈ made, u = .make s.objects.length := by
  cases p with
  | none =>
    obtain ⟨made, hlog, hmade⟩ := construct_log h
    exact ⟨made, hlog, hmade⟩
  | some o =>
    obtain ⟨made, hlog, hmade⟩ := construct_log h
    exact ⟨made, by simpa using hlog, hmade⟩

/-- A copy of an element, and then the element, as the loop makes and destroys them. -/
theorem moved_singleton {made : List (Use Nat)}
    (hlog : s'.log = s.log ++ (p.toList.map .use ++ made ++ p.toList.map .drop))
    (hmade : ∀ u ∈ made, u = .make s.objects.length) : Moved s s' [p] := by
  refine ⟨_, hlog, fun o ho => ?_, fun o ho hne => ?_⟩
  · obtain rfl := List.mem_singleton.mp ho
    have huse : made.count (.use o) = 0 := by
      apply List.count_eq_zero.mpr
      intro hmem
      cases hmade _ hmem
    have hdrop : made.count (.drop o) = 0 := by
      apply List.count_eq_zero.mpr
      intro hmem
      cases hmade _ hmem
    simp [List.count_append, huse, hdrop]
  · intro u hu
    have hpo : p ≠ some o := fun heq => hne (List.mem_singleton.mpr heq.symm)
    rcases List.mem_append.mp hu with hu | hu
    · rcases List.mem_append.mp hu with hu | hu
      · obtain ⟨o', ho', rfl⟩ := List.mem_map.mp hu
        rintro rfl
        exact hpo (Option.mem_toList.mp ho')
      · rw [hmade u hu]
        exact ho.ne'
    · obtain ⟨o', ho', rfl⟩ := List.mem_map.mp hu
      rintro rfl
      exact hpo (Option.mem_toList.mp ho')

/-- A copy that is made of the client's element. -/
theorem moved_nil {made : List (Use Nat)} (hlog : s'.log = s.log ++ made)
    (hmade : ∀ u ∈ made, u = .make s.objects.length) : Moved s s' [] := by
  refine ⟨made, hlog, nofun, fun o ho _ u hu => ?_⟩
  rw [hmade u hu]
  exact ho.ne'

theorem Moved.append {s₁ : State V} {ps qs : List Pointer} (h : Moved s s₁ ps)
    (h' : Moved s₁ s' qs) (hobjects : s.objects <+: s₁.objects)
    (hlt : ∀ o, some o ∈ qs ++ ps → o < s.objects.length)
    (hdisj : ∀ o, some o ∈ ps → some o ∉ qs) : Moved s s' (qs ++ ps) := by
  obtain ⟨e, hlog, hmoved, hother⟩ := h
  obtain ⟨e', hlog', hmoved', hother'⟩ := h'
  have hcount : ∀ {events : List (Use Nat)} {o}, Unseen events o →
      events.count (.use o) = 0 ∧ events.count (.drop o) = 0 := fun hunseen =>
    ⟨List.count_eq_zero.mpr fun hmem => hunseen _ hmem rfl,
      List.count_eq_zero.mpr fun hmem => hunseen _ hmem rfl⟩
  have hle := hobjects.length_le
  refine ⟨e ++ e', by rw [hlog', hlog, List.append_assoc], fun o ho => ?_, fun o ho hne => ?_⟩
  · -- an object is moved in one of the two parts, and not seen in the other
    have hold := hlt o ho
    rw [List.count_append, List.count_append]
    rcases List.mem_append.mp ho with ho | ho
    · obtain ⟨huse, hdrop⟩ := hmoved' o ho
      obtain ⟨huse', hdrop'⟩ := hcount (hother o hold fun hmem => hdisj o hmem ho)
      omega
    · obtain ⟨huse, hdrop⟩ := hmoved o ho
      obtain ⟨huse', hdrop'⟩ := hcount (hother' o (hold.trans_le hle) (hdisj o ho))
      omega
  · rw [List.mem_append, not_or] at hne
    exact (hother o ho hne.2).append (hother' o (ho.trans_le hle) hne.1)

/-! ## The loop -/

section Loop

variable {a b : List (Option Pointer)} {c : Option Pointer} {ps kept : List Pointer}

/-- The pointers of a vector name different objects. -/
theorem Owns.notMem (h : Owns s (p :: ps)) : ∀ o, p = some o → some o ∉ ps := by
  rintro o rfl hmem
  have hnodup := h.leaves.spec.1
  rw [List.reduceOption_cons_of_some, List.nodup_cons] at hnodup
  exact hnodup.1 (List.reduceOption_mem_iff.mpr hmem)

/-- One turn of the loop: the last of the elements moves down. -/
theorem insertLoop_turn (cb : Callbacks V) (fuel : Nat)
    (hs : s.array = a ++ (ps.map some ++ some p :: c :: b)) (hlen : s.array.length < 2 ^ 64)
    (ho : Owns s (ps ++ p :: kept)) :
    ∃ s₁ q, s.insertLoop cb a.length (fuel + 1) (a.length + ps.length) =
        s₁.insertLoop cb a.length fuel ((a.length + ps.length + (2 ^ 64 - 1)) % 2 ^ 64) ∧
      s₁.array = a ++ (ps.map some ++ some p :: some q :: b) ∧ Extends s s₁ ∧
      Owns s₁ (ps ++ q :: kept) ∧ s₁.read q = cb.copyConstructor (s.read p) ∧ Moved s s₁ [p] := by
  have hs₀ : s.array = (a ++ ps.map some) ++ some p :: (c :: b) := by simp [hs]
  have hget : s.get (a.length + ps.length) = some p := by simpa using get_eq hs₀
  obtain ⟨q, s₁, hmade⟩ : ∃ q s₁, s.copyConstructor cb p = (q, s₁) := ⟨_, _, rfl⟩
  obtain ⟨harr, hext, hown, hread⟩ := copyConstructor_spec hmade ho (by simp)
  obtain ⟨made, hlog, hmake⟩ := copyConstructor_log hmade
  -- the copy goes into the place behind, and the index of that does not wrap
  have hs₁ : s₁.array = (a ++ ps.map some ++ [some p]) ++ c :: b := by simp [harr, hs]
  have hindex : (a.length + ps.length + 1) % 2 ^ 64 = (a ++ ps.map some ++ [some p]).length := by
    rw [hs] at hlen
    simp only [List.length_append, List.length_cons, List.length_map, List.length_nil] at hlen ⊢
    omega
  set s₂ : State V := { s₁ with array := (a ++ ps.map some ++ [some p]) ++ some q :: b } with hs₂
  have hput : s₁.put ((a.length + ps.length + 1) % 2 ^ 64) q = some s₂ := by
    rw [hindex]
    exact put_eq hs₁
  have hs₂' : s₂.array = (a ++ ps.map some) ++ some p :: (some q :: b) := by simp [hs₂]
  have hget₂ : s₂.get (a.length + ps.length) = some p := by simpa using get_eq hs₂'
  have hperm : (q :: (ps ++ p :: kept)).Perm (p :: (ps ++ q :: kept)) :=
    (List.perm_middle.cons q).trans ((List.Perm.swap p q _).trans (List.perm_middle.symm.cons p))
  have hown₂ : Owns s₂ (p :: (ps ++ q :: kept)) := (hown.perm hperm).of_array
  refine ⟨s₂.destructor p, q, ?_, ?_, ?_, hown₂.destructor, ?_, ?_⟩
  · rw [State.insertLoop, if_pos (Nat.le_add_right _ _)]
    simp only [hget, hmade, hput, hget₂, Option.bind_eq_bind, Option.bind_some]
  · simp [hs₂]
  · exact (hext.trans extends_destructor.of_array : Extends s (s₂.destructor p))
  · have hsame : (s₂.destructor p).read q = s₂.read q :=
      hown₂.read_eq (by simp) extends_destructor.objects
    exact hsame.trans hread
  · refine moved_singleton ?_ hmake
    rw [destructor_log]
    change s₁.log ++ _ = _
    rw [hlog, List.append_assoc]

/-- **The loop of `vector_insert`.** It moves the elements behind the position and leaves. -/
theorem insertLoop_spec (cb : Callbacks V) (ha : 0 < a.length)
    (hs : s.array = a ++ (ps.map some ++ c :: b)) (hlen : s.array.length < 2 ^ 64)
    (ho : Owns s (ps ++ kept)) :
    ∃ s' c' qs, s.insertLoop cb a.length (ps.length + 1)
        ((a.length + ps.length + (2 ^ 64 - 1)) % 2 ^ 64) = some s' ∧
      s'.array = a ++ c' :: (qs.map some ++ b) ∧ Extends s s' ∧ Owns s' (qs ++ kept) ∧
      qs.map s'.read = ps.map (fun x => cb.copyConstructor (s.read x)) ∧ Moved s s' ps := by
  -- the last of the elements is the first to move
  induction ps using List.reverseRecOn generalizing s c b kept with
  | nil =>
    refine ⟨s, c, [], ?_, hs, Extends.refl, ho, rfl, [], (List.append_nil _).symm, nofun, ?_⟩
    · have hindex : (a.length + (2 ^ 64 - 1)) % 2 ^ 64 < a.length := by
        rw [hs] at hlen
        simp only [List.length_append, List.length_cons, List.length_map] at hlen
        omega
      simp only [List.length_nil, Nat.add_zero, State.insertLoop]
      rw [if_neg (by omega)]
    · exact fun o _ _ u hu => nomatch hu
  | append_singleton ps p ih =>
    have hs₀ : s.array = a ++ (ps.map some ++ some p :: c :: b) := by simp [hs]
    have ho₀ : Owns s (ps ++ p :: kept) := by simpa using ho
    have hindex : (a.length + (ps ++ [p]).length + (2 ^ 64 - 1)) % 2 ^ 64 =
        a.length + ps.length := by
      rw [hs₀] at hlen
      simp only [List.length_append, List.length_cons, List.length_map, List.length_nil] at hlen ⊢
      omega
    obtain ⟨s₁, q, hturn, harr₁, hext₁, hown₁, hread₁, hmoved₁⟩ :=
      insertLoop_turn cb (ps.length + 1) hs₀ hlen ho₀
    have hlen₁ : s₁.array.length < 2 ^ 64 := by
      rw [harr₁]
      rw [hs₀] at hlen
      simpa using hlen
    obtain ⟨s', c', qs, hloop, harr, hext, hown, hreads, hmoved⟩ := ih harr₁ hlen₁ hown₁
    refine ⟨s', c', qs ++ [q], ?_, by simpa using harr, hext₁.trans hext, by simpa using hown, ?_, ?_⟩
    · rw [hindex, List.length_append, List.length_singleton, hturn, hloop]
    · have hq : s'.read q = s₁.read q := hown₁.read_eq (by simp) hext.objects
      have hps : ps.map (fun x => cb.copyConstructor (s₁.read x)) =
          ps.map (fun x => cb.copyConstructor (s.read x)) := by
        apply List.map_congr_left
        intro x hx
        rw [ho₀.read_eq (List.mem_append_left _ hx) hext₁.objects]
      rw [List.map_append, List.map_append, hreads, hps, List.map_singleton, List.map_singleton, hq,
        hread₁]
    · apply hmoved₁.append hmoved hext₁.objects
      · intro o hmem
        exact ho.lt (List.mem_append_left _ hmem)
      · intro o hpo hmem
        have hfirst : Owns s (p :: (ps ++ kept)) := ho₀.perm List.perm_middle
        exact hfirst.notMem o (List.mem_singleton.mp hpo).symm (List.mem_append_left _ hmem)

/-- With position zero the loop does not come to an end. -/
theorem insertLoop_zero (fuel i : Nat) : s.insertLoop cb 0 fuel i = none := by
  induction fuel generalizing s i with
  | zero => rfl
  | succ fuel ih =>
    rw [State.insertLoop, if_pos (Nat.zero_le i)]
    simp only [Option.bind_eq_bind, Option.bind_eq_none_iff, ih, implies_true]

end Loop

/-! ## The call -/

section Call

variable {ptrs : List Pointer} {position : Nat} {element : Option V}

/-- What the array stores is what the vector holds. -/
theorem contents_of_array {tail : List (Option Pointer)} (harr : s.array = ptrs.map some ++ tail)
    (hsize : s.size = ptrs.length) : s.contents = (ptrs.map s.read).map some := by
  apply List.ext_getElem
  · simp [State.contents, hsize]
  · intro i hi _
    have hlt : i < ptrs.length := by simpa [State.contents, hsize] using hi
    have hget : s.get i = some ptrs[i] := by
      rw [State.get, harr, List.getElem?_append_left (by simpa using hlt), List.getElem?_map,
        List.getElem?_eq_getElem hlt]
      rfl
    simp [State.contents, hget]

/-- There is room for one more element, if need be after reserving it. -/
theorem Stores.room (h : Stores cb s ptrs l) :
    ∃ extra s₁, (if s.capacity < s.size + 1
        then ({ s with size := s.size + 1 } : State V).reserve (s.size + 1)
        else some { s with size := s.size + 1 }) = some s₁ ∧
      s₁.array = s.array ++ extra ∧ Capacious s₁ ∧ s₁.size = s.size + 1 ∧
      s₁.objects = s.objects ∧ s₁.log = s.log ∧ s.size + 1 ≤ s₁.capacity := by
  have hcapacious : Capacious { s with size := s.size + 1 } :=
    ⟨h.capacious.length, h.capacious.power⟩
  split_ifs with hlt
  · -- the array is full, and its capacity is a power of two below the bound
    have hn : s.size + 1 < 2 ^ 60 := by
      obtain ⟨k, -, -, hpow⟩ := h.capacious.power
      have hle : s.size ≤ s.capacity := by
        obtain ⟨tail, htail⟩ := h.array
        rw [h.size, ← h.capacious.length, htail]
        simp
      have hbound := h.bound
      have hk : 2 ^ k < 2 ^ 60 := by omega
      have hk59 : 2 ^ k ≤ 2 ^ 59 := by
        apply Nat.pow_le_pow_right two_pos
        have := (Nat.pow_lt_pow_iff_right one_lt_two).mp hk
        omega
      omega
    obtain ⟨extra, s₁, hreserve, harr, hcap, hsize, hobj, hlog, hle, -⟩ :=
      reserve_spec hcapacious hn
    exact ⟨extra, s₁, hreserve, harr, hcap, hsize, hobj, hlog, hle⟩
  · exact ⟨[], _, rfl, (List.append_nil _).symm, hcapacious, rfl, rfl, rfl, not_lt.mp hlt⟩

/-- The elements from the position on have moved to `qs`, and the place at the position is free. -/
structure Opened (s : State V) (ptrs : List Pointer) (l : List (Option V)) (position : Nat)
    (s' : State V) (qs : List Pointer) (gap : Option Pointer) (rest : List (Option Pointer)) :
    Prop where
  array : s'.array = (ptrs.take position).map some ++ gap :: (qs.map some ++ rest)
  capacity : s'.array.length = s'.capacity
  size : s'.size = s.size + 1
  owns : Owns s' (qs ++ ptrs.take position)
  objects : s.objects <+: s'.objects
  front : (ptrs.take position).map s'.read = l.take position
  back : qs.map s'.read = l.drop position
  moved : Moved s s' (ptrs.drop position)

/-- Room is made, and the loop opens the gap. -/
theorem Stores.opens (h : Stores cb s ptrs l) (hpos : 0 < position) (hle : position ≤ l.length) :
    ∃ s₁ s₂ qs gap rest, (if s.capacity < s.size + 1
        then ({ s with size := s.size + 1 } : State V).reserve (s.size + 1)
        else some { s with size := s.size + 1 }) = some s₁ ∧
      s₁.insertLoop cb position (l.length - position + 1) ((s.size + (2 ^ 64 - 1)) % 2 ^ 64) =
        some s₂ ∧ Opened s ptrs l position s₂ qs gap rest := by
  have hposition : position ≤ s.size := hle.trans_eq h.length_eq
  obtain ⟨tail, htail⟩ := h.array
  obtain ⟨extra, s₁, hroom, harr₁, hcap₁, hsize₁, hobj₁, hlog₁, hge⟩ := h.room
  have hown₁ : Owns s₁ ptrs := ⟨hlog₁ ▸ h.owns.leaves, hlog₁ ▸ hobj₁ ▸ h.owns.bound⟩
  have hread₁ : s₁.read = s.read := by
    funext x
    simp only [State.read, hobj₁]
  -- the pointers in front of the position, and those that move
  obtain ⟨a, b, hptrs, ha⟩ : ∃ a b, ptrs = a ++ b ∧ a.length = position :=
    ⟨ptrs.take position, ptrs.drop position, (List.take_append_drop position ptrs).symm,
      List.length_take_of_le (h.size ▸ hposition)⟩
  have hsize : s.size = a.length + b.length := by rw [h.size, hptrs, List.length_append]
  have htake : ptrs.take position = a := by rw [hptrs, ← ha, List.take_left']; rfl
  have hdrop : ptrs.drop position = b := by rw [hptrs, ← ha, List.drop_left']; rfl
  obtain ⟨c, rest, hrest⟩ : ∃ c rest, tail ++ extra = c :: rest := by
    apply List.exists_cons_of_length_pos
    have hlength := hcap₁.length
    rw [harr₁, htail] at hlength
    simp only [List.length_append, List.length_map, ← h.size] at hlength ⊢
    omega
  have harr : s₁.array = a.map some ++ (b.map some ++ c :: rest) := by
    rw [harr₁, htail, hptrs, ← hrest]
    simp
  have hlen : s₁.array.length < 2 ^ 64 := by
    obtain ⟨k, -, hk, hpow⟩ := hcap₁.power
    rw [hcap₁.length, hpow]
    exact Nat.pow_lt_pow_right one_lt_two (by omega)
  obtain ⟨s₂, gap, qs, hloop, harr₂, hext₂, hown₂, hreads₂, hmoved₂⟩ :=
    insertLoop_spec cb (by simpa [ha] using hpos) harr hlen
      (hown₁.perm (hptrs ▸ List.perm_append_comm))
  rw [List.length_map, ha, ← ha, ← hsize, ha] at hloop
  have hfuel : l.length - position + 1 = b.length + 1 := by
    rw [h.length_eq, hsize, ha, Nat.add_sub_cancel_left]
  have hqs : qs.length = b.length := by simpa using congrArg List.length hreads₂
  refine ⟨s₁, s₂, qs, gap, rest, hroom, hfuel ▸ hloop, ?_⟩
  refine
    { array := htake ▸ harr₂, capacity := ?capacity, size := by rw [hext₂.size, hsize₁]
      owns := htake ▸ hown₂, objects := hobj₁ ▸ hext₂.objects, front := ?front, back := ?back, moved := ?moved }
  case capacity =>
    rw [hext₂.capacity, ← hcap₁.length, harr, harr₂]
    simp [hqs]
    omega
  case front =>
    have hkeep : a.map s₂.read = a.map s₁.read :=
      hown₁.map_read_eq (hptrs ▸ List.subset_append_left a b) hext₂.objects
    rw [htake, hkeep, hread₁, ← htake, List.map_take, h.reads]
  case back =>
    have hcopy : b.map (fun x => cb.copyConstructor (s₁.read x)) = b.map s.read := by
      apply List.map_congr_left
      intro x hx
      rw [hread₁]
      apply h.copies
      rw [← h.reads, hptrs]
      exact List.mem_map_of_mem (List.mem_append_right a hx)
    rw [hreads₂, hcopy, ← hdrop, List.map_drop, h.reads]
  case moved =>
    obtain ⟨events, hlog, hmoved, hother⟩ := hmoved₂
    rw [hdrop]
    exact ⟨events, hlog₁ ▸ hlog, hmoved, hobj₁ ▸ hother⟩

/-- A copy of the element goes into the gap. -/
theorem Opened.fill {s₂ s₃ : State V} {qs : List Pointer} {gap : Option Pointer}
    {rest : List (Option Pointer)} (ho : Opened s ptrs l position s₂ qs gap rest)
    (h : Stores cb s ptrs l) (hle : position ≤ l.length)
    (hmade : s₂.copyElement cb element = (p, s₃)) :
    ∃ s', s₃.put position p = some s' ∧ Inserted cb s ptrs l position element s' := by
  obtain ⟨harr₃, hext₃, hown₃, hread₃⟩ := construct_spec hmade ho.owns
  obtain ⟨made, hlog₃, hmake⟩ := construct_log hmade
  have htake : (ptrs.take position).length = position :=
    List.length_take_of_le (by rw [← h.size, ← h.length_eq]; exact hle)
  have hqs : qs.length = l.length - position := by simpa using congrArg List.length ho.back
  set s' : State V := { s₃ with
    array := (ptrs.take position).map some ++ some p :: (qs.map some ++ rest) } with hs'
  have hput : s₃.put position p = some s' := by
    have hput := put_eq (p := p) (harr₃.trans ho.array)
    rwa [List.length_map, htake] at hput
  have harray : s'.array = (ptrs.take position ++ p :: qs).map some ++ rest := by simp [hs']
  have hsize : s'.size = (ptrs.take position ++ p :: qs).length := by
    change s₃.size = _
    rw [hext₃.size, ho.size, List.length_append, List.length_cons, htake, hqs, ← h.length_eq]
    omega
  refine ⟨s', hput, ?_, ?_, ?_, ?_⟩
  · -- the pointers read as the new list
    have hfront : (ptrs.take position).map s'.read = l.take position :=
      (ho.owns.map_read_eq (List.subset_append_right qs _) hext₃.objects).trans ho.front
    have hback : qs.map s'.read = l.drop position :=
      (ho.owns.map_read_eq (List.subset_append_left qs _) hext₃.objects).trans ho.back
    have hgap : s'.read p = cb.copyConstructor element := hread₃
    rw [contents_of_array harray hsize, List.map_append, List.map_cons, hfront, hgap, hback]
    simp
  · change s'.array.length = s₃.capacity
    rw [hext₃.capacity, ← ho.capacity, ho.array, hs']
    simp
  · refine ⟨p, qs, rest, harray, ?_⟩
    have hperm : (p :: (qs ++ ptrs.take position)).Perm (ptrs.take position ++ p :: qs) :=
      (List.perm_append_comm.cons p).trans List.perm_middle.symm
    exact (hown₃.perm hperm).of_array
  · have hmoved : Moved s₂ s' [] := moved_nil hlog₃ hmake
    apply ho.moved.append hmoved ho.objects
    · exact fun o hmem => h.owns.lt (List.mem_of_mem_drop hmem)
    · exact fun _ _ => List.not_mem_nil

/-- An insertion behind the first element. -/
theorem Stores.insert (h : Stores cb s ptrs l) (element : Option V) (hpos : 0 < position)
    (hle : position ≤ l.length) :
    ∃ s', s.insert cb position element (l.length - position + 1) = some s' ∧
      Inserted cb s ptrs l position element s' := by
  have hsize : (s.size + 1) % 2 ^ 64 = s.size + 1 := by
    have := h.bound
    omega
  obtain ⟨s₁, s₂, qs, gap, rest, hroom, hloop, hopened⟩ := h.opens hpos hle
  obtain ⟨p, s₃, hmade⟩ : ∃ p s₃, s₂.copyElement cb element = (p, s₃) := ⟨_, _, rfl⟩
  obtain ⟨s', hput, hinserted⟩ := hopened.fill h hle hmade
  refine ⟨s', ?_, hinserted⟩
  rw [State.insert, if_pos (hle.trans_eq h.length_eq)]
  simp only [hsize]
  split_ifs at hroom ⊢ with hlt
  · simp only [hroom, Option.bind_eq_bind, Option.bind_some, hloop, hmade, hput]
  · rw [Option.some.inj hroom]
    simp only [Option.bind_eq_bind, Option.bind_some, hloop, hmade, hput]

/-- An insertion at the front does not come to an end. -/
theorem insert_zero (fuel : Nat) : s.insert cb 0 element fuel = none := by
  simp only [State.insert, insertLoop_zero, Option.bind_eq_bind, Option.bind_none,
    Option.bind_fun_none, ite_self]

end Call

/-! ## When an insertion does what it is for -/

/-- **`vector_insert` inserts everywhere but at the front.** -/
theorem vector_insert_iff (cb : Callbacks V) (s : State V) (ptrs : List Pointer) (l : List (Option V))
    (h : Stores cb s ptrs l) (position : Nat) (hle : position ≤ l.length) (element : Option V) :
    (∃ fuel s', s.insert cb position element fuel = some s' ∧
      Inserted cb s ptrs l position element s') ↔ 0 < position := by
  constructor
  · rintro ⟨fuel, s', hinsert, -⟩
    apply Nat.pos_of_ne_zero
    rintro rfl
    rw [insert_zero] at hinsert
    cases hinsert
  · intro hpos
    obtain ⟨s', hinsert, hinserted⟩ := h.insert element hpos hle
    exact ⟨_, s', hinsert, hinserted⟩

/-- A vector of three elements. -/
def three : State Nat where
  array := some (some 0) :: some (some 1) :: some (some 2) :: List.replicate 5 none
  size := 3
  capacity := 8
  objects := [4, 5, 6]
  log := [.make 0, .make 1, .make 2]

theorem stores_three :
    Stores (deepCallbacks 0) three [some 0, some 1, some 2] [some 4, some 5, some 6] where
  array := ⟨List.replicate 5 none, rfl⟩
  size := rfl
  capacious := ⟨rfl, 3, le_refl 3, by decide, rfl⟩
  owns := by
    have hlog : Leaves three.log [2, 1, 0] :=
      .make (.make (.make .nil (by simp [Unseen])) (by simp [Unseen, Use.resource]))
        (by simp [Unseen, Use.resource])
    exact ⟨hlog.perm (by decide), by decide⟩
  reads := rfl
  copies := fun _ _ => rfl
  bound := by decide

/-- An insertion before the second element, which moves two elements. -/
theorem vector_insert_iff_three :
    ∃ fuel s', three.insert (deepCallbacks 0) 1 (some 9) fuel = some s' ∧
      Inserted (deepCallbacks 0) three [some 0, some 1, some 2] [some 4, some 5, some 6] 1 (some 9)
        s' :=
  (vector_insert_iff (deepCallbacks 0) three [some 0, some 1, some 2] [some 4, some 5, some 6]
    stores_three 1 (by decide) (some 9)).mpr (by decide)

/-- An insertion into a vector that was just created. -/
theorem not_inserted_empty : Stores (deepCallbacks 0) (create Nat) [] [] ∧
    ¬ ∃ fuel s', (create Nat).insert (deepCallbacks 0) 0 (some 5) fuel = some s' ∧
      Inserted (deepCallbacks 0) (create Nat) [] [] 0 (some 5) s' := by
  refine ⟨Stores.create, ?_⟩
  rintro ⟨fuel, s', hinsert, -⟩
  rw [insert_zero] at hinsert
  cases hinsert

end SystemProgramming.Vector
