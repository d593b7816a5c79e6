import Mathlib.Tactic

/-!
# Ownership of resources

A program makes resources, uses them and drops them, and a log keeps these events in their
order. Next to the log goes the list of resources the program still holds: what it makes it
holds, what it uses or drops it must hold. A program that holds nothing at the end has dropped
each resource once and used none of them after that.

## Main definitions

* `Use`: an event of the log
* `Leaves log live`: the events are allowed, and leave the program with the resources `live`
* `Held`, `Once`: what the log says of one resource, while it is held and in the end

## Main results

* `Leaves.held`, `Leaves.once_of_not_mem`: a held resource has not been dropped; one that is
  not held any more was dropped once
* `Leaves.once`: with nothing held, every resource of the log was made, then dropped once
-/

namespace SystemProgramming

variable {ι : Type*}

/-- What a program does with a resource. -/
inductive Use (ι : Type*) where
  | make (i : ι)
  | use (i : ι)
  | drop (i : ι)
  deriving DecidableEq

def Use.resource : Use ι → ι
  | .make i => i
  | .use i => i
  | .drop i => i

/-- Nothing in the log is about the resource `i`. -/
def Unseen (log : List (Use ι)) (i : ι) : Prop := ∀ u ∈ log, u.resource ≠ i

/-- The events of the log are allowed one after another, and leave the resources `live`. -/
inductive Leaves : List (Use ι) → List ι → Prop where
  | nil : Leaves [] []
  | make {log : List (Use ι)} {live : List ι} {i : ι} (h : Leaves log live) (hi : Unseen log i) :
    Leaves (log ++ [.make i]) (i :: live)
  | use {log : List (Use ι)} {live : List ι} {i : ι} (h : Leaves log live) (hi : i ∈ live) :
    Leaves (log ++ [.use i]) live
  | drop {log : List (Use ι)} {live : List ι} {i : ι} (h : Leaves log (i :: live)) :
    Leaves (log ++ [.drop i]) live
  | perm {log : List (Use ι)} {live live' : List ι} (h : Leaves log live)
    (hp : live.Perm live') : Leaves log live'

/-- The resource is made, and then only used. -/
def Held (log : List (Use ι)) (i : ι) : Prop :=
  ∃ pre mid, log = pre ++ .make i :: mid ∧ Unseen pre i ∧
    ∀ u ∈ mid, u = .use i ∨ u.resource ≠ i

/-- The resource is made, then only used, then dropped, and nothing is done with it again. -/
def Once (log : List (Use ι)) (i : ι) : Prop :=
  ∃ pre post, log = pre ++ .drop i :: post ∧ Held pre i ∧ Unseen post i

theorem Unseen.append {log log' : List (Use ι)} {i : ι} (h : Unseen log i) (h' : Unseen log' i) :
    Unseen (log ++ log') i :=
  fun u hu => (List.mem_append.mp hu).elim (h u) (h' u)

theorem unseen_singleton {u : Use ι} {i : ι} : Unseen [u] i ↔ u.resource ≠ i := by
  simp [Unseen]

theorem Held.append {log log' : List (Use ι)} {i : ι} (h : Held log i)
    (h' : ∀ u ∈ log', u = .use i ∨ u.resource ≠ i) : Held (log ++ log') i := by
  obtain ⟨pre, mid, rfl, hpre, hmid⟩ := h
  refine ⟨pre, mid ++ log', by simp, hpre, fun u hu => ?_⟩
  exact (List.mem_append.mp hu).elim (hmid u) (h' u)

theorem Once.append {log log' : List (Use ι)} {i : ι} (h : Once log i) (h' : Unseen log' i) :
    Once (log ++ log') i := by
  obtain ⟨pre, post, rfl, hpre, hpost⟩ := h
  exact ⟨pre, post ++ log', by simp, hpre, hpost.append h'⟩

namespace Leaves

variable {log : List (Use ι)} {live : List ι} {i : ι}

/-- What the log says of each resource: held ones are not dropped, others are dropped once. -/
theorem spec (h : Leaves log live) : live.Nodup ∧ (∀ i ∈ live, Held log i) ∧
    ∀ i, i ∉ live → Unseen log i ∨ Once log i := by
  induction h with
  | nil => exact ⟨List.nodup_nil, nofun, fun i _ => Or.inl nofun⟩
  | @make log live j h hj ih =>
    obtain ⟨hnodup, hheld, honce⟩ := ih
    have hnew : j ∉ live := by
      intro hmem
      obtain ⟨pre, mid, rfl, -⟩ := hheld j hmem
      exact hj (.make j) (by simp) rfl
    refine ⟨List.nodup_cons.mpr ⟨hnew, hnodup⟩, fun i hi => ?_, fun i hi => ?_⟩
    · rcases List.mem_cons.mp hi with rfl | hi
      · exact ⟨log, [], rfl, hj, nofun⟩
      · have hne : j ≠ i := fun heq => hnew (heq ▸ hi)
        exact (hheld i hi).append (by simpa [Use.resource] using hne)
    · have hne : j ≠ i := fun heq => hi (heq ▸ List.mem_cons_self)
      have hsingle : Unseen [Use.make j] i := unseen_singleton.mpr hne
      exact (honce i fun hmem => hi (List.mem_cons_of_mem _ hmem)).imp
        (fun hu => hu.append hsingle) fun ho => ho.append hsingle
  | @use log live j h hj ih =>
    obtain ⟨hnodup, hheld, honce⟩ := ih
    refine ⟨hnodup, fun i hi => (hheld i hi).append ?_, fun i hi => ?_⟩
    · intro u hu
      rw [List.mem_singleton.mp hu]
      by_cases hji : j = i
      · exact Or.inl (hji ▸ rfl)
      · exact Or.inr hji
    · have hne : j ≠ i := fun heq => hi (heq ▸ hj)
      have hsingle : Unseen [Use.use j] i := unseen_singleton.mpr hne
      exact (honce i hi).imp (fun hu => hu.append hsingle) fun ho => ho.append hsingle
  | @drop log live j h ih =>
    obtain ⟨hnodup, hheld, honce⟩ := ih
    obtain ⟨hnew, hnodup⟩ := List.nodup_cons.mp hnodup
    refine ⟨hnodup, fun i hi => ?_, fun i hi => ?_⟩
    · have hne : j ≠ i := fun heq => hnew (heq ▸ hi)
      exact (hheld i (List.mem_cons_of_mem _ hi)).append (by simpa [Use.resource] using hne)
    · by_cases hji : j = i
      · subst hji
        exact Or.inr ⟨log, [], rfl, hheld j List.mem_cons_self, nofun⟩
      · have hsingle : Unseen [Use.drop j] i := unseen_singleton.mpr hji
        have hnot : i ∉ j :: live := by
          simp only [List.mem_cons, not_or]
          exact ⟨Ne.symm hji, hi⟩
        exact (honce i hnot).imp (fun hu => hu.append hsingle) fun ho => ho.append hsingle
  | @perm log live live' h hp ih =>
    obtain ⟨hnodup, hheld, honce⟩ := ih
    exact ⟨hp.nodup_iff.mp hnodup, fun i hi => hheld i (hp.mem_iff.mpr hi),
      fun i hi => honce i fun hmem => hi (hp.mem_iff.mp hmem)⟩

theorem held (h : Leaves log live) (hi : i ∈ live) : Held log i := h.spec.2.1 i hi

theorem once_of_not_mem (h : Leaves log live) (hi : i ∉ live) : Unseen log i ∨ Once log i :=
  h.spec.2.2 i hi

/-- **Nothing left.** Every resource the log is about was made, then dropped once. -/
theorem once (h : Leaves log []) {u : Use ι} (hu : u ∈ log) : Once log u.resource :=
  (h.once_of_not_mem List.not_mem_nil).resolve_left fun hunseen => hunseen u hu rfl

end Leaves

end SystemProgramming
