import Mathlib.Tactic

/-!
# Containers

Containers that are known by their operations and laws only: graphs, sets, dictionaries, vectors
and queues as linked from archives with documented headers. A program over them takes the
operations as parameters and the laws, stated for valid arguments, as hypotheses. The list
versions meet the laws, so the hypotheses are satisfiable and programs over them run.

## Main definitions

* `GraphOps`, `GraphLaws`: directed graphs
* `ValueGraphOps`, `ValueGraphLaws`: directed graphs whose vertices carry values
* `SetOps`, `SetLaws`: finite sets
* `DictOps`, `DictLaws`: dictionaries
* `VectorOps`, `VectorLaws`: sequences
* `QueueOps`, `QueueLaws`: queues
* `listGraph`, `listValueGraph`, `listSet`, `listDict`, `listVector`, `listQueue`: all of these as
  lists
-/

namespace SystemProgramming

/-- The operations of a directed graph. -/
structure GraphOps (G V : Type) where
  create : G
  vertices : G → List V
  containsVertex : G → V → Bool
  adjacent : G → V → V → Bool
  neighbors : G → V → List V
  addVertex : G → V → G
  addEdge : G → V → V → G
  removeEdge : G → V → V → G

/-- An edge between valid vertices. -/
def GraphOps.Edge {G V : Type} (ops : GraphOps G V) (g : G) (s t : V) : Prop :=
  ops.containsVertex g s = true ∧ ops.containsVertex g t = true ∧ ops.adjacent g s t = true

/-- What the operations of a graph do to valid arguments. -/
structure GraphLaws {G V : Type} (ops : GraphOps G V) : Prop where
  contains_create : ∀ v, ops.containsVertex ops.create v = false
  mem_vertices : ∀ g v, v ∈ ops.vertices g ↔ ops.containsVertex g v = true
  mem_neighbors : ∀ g s t, ops.containsVertex g s = true → (t ∈ ops.neighbors g s ↔ ops.Edge g s t)
  contains_addVertex : ∀ g k v,
    ops.containsVertex (ops.addVertex g k) v = true ↔ v = k ∨ ops.containsVertex g v = true
  edge_addVertex : ∀ g k a b, ops.Edge (ops.addVertex g k) a b ↔ ops.Edge g a b
  contains_addEdge : ∀ g s t v, ops.containsVertex g s = true → ops.containsVertex g t = true →
    ops.containsVertex (ops.addEdge g s t) v = ops.containsVertex g v
  edge_addEdge : ∀ g s t a b, ops.containsVertex g s = true → ops.containsVertex g t = true →
    (ops.Edge (ops.addEdge g s t) a b ↔ ops.Edge g a b ∨ (a = s ∧ b = t))
  contains_removeEdge : ∀ g s t v, ops.Edge g s t →
    ops.containsVertex (ops.removeEdge g s t) v = ops.containsVertex g v
  edge_removeEdge : ∀ g s t a b, ops.Edge g s t →
    (ops.Edge (ops.removeEdge g s t) a b ↔ ops.Edge g a b ∧ ¬ (a = s ∧ b = t))

/-- The operations of a directed graph whose vertices carry values. -/
structure ValueGraphOps (G V α : Type) extends GraphOps G V where
  vertexValue : G → V → α
  setVertexValue : G → V → α → G

/-- What the operations of a graph with values do to valid arguments. Setting the value of a key
that is no vertex makes it one. -/
structure ValueGraphLaws {G V α : Type} (ops : ValueGraphOps G V α) : Prop
    extends GraphLaws ops.toGraphOps where
  contains_setVertexValue : ∀ g k a v,
    ops.containsVertex (ops.setVertexValue g k a) v = true ↔ v = k ∨ ops.containsVertex g v = true
  edge_setVertexValue : ∀ g k a s t, ops.Edge (ops.setVertexValue g k a) s t ↔ ops.Edge g s t
  vertexValue_self : ∀ g k a, ops.vertexValue (ops.setVertexValue g k a) k = a
  vertexValue_of_ne : ∀ g k a v, ops.containsVertex g v = true → v ≠ k →
    ops.vertexValue (ops.setVertexValue g k a) v = ops.vertexValue g v
  vertexValue_addEdge : ∀ g s t v, ops.containsVertex g s = true → ops.containsVertex g t = true →
    ops.containsVertex g v = true →
    ops.vertexValue (ops.addEdge g s t) v = ops.vertexValue g v

/-- The operations of a set. -/
structure SetOps (S V : Type) where
  create : S
  contains : S → V → Bool
  add : S → V → S

/-- What the operations of a set do. -/
structure SetLaws {S V : Type} (ops : SetOps S V) : Prop where
  contains_create : ∀ v, ops.contains ops.create v = false
  contains_add : ∀ s x v, ops.contains (ops.add s x) v = true ↔ v = x ∨ ops.contains s v = true

/-- The operations of a dictionary; a key that is absent has no value. -/
structure DictOps (D κ ν : Type) where
  create : D
  get : D → κ → Option ν
  set : D → κ → ν → D
  remove : D → κ → D

/-- What the operations of a dictionary do. A key is removed only while it is present. -/
structure DictLaws {D κ ν : Type} [DecidableEq κ] (ops : DictOps D κ ν) : Prop where
  get_create : ∀ k, ops.get ops.create k = none
  get_set : ∀ d k v k', ops.get (ops.set d k v) k' = if k' = k then some v else ops.get d k'
  get_remove : ∀ d k k', ops.get d k ≠ none →
    ops.get (ops.remove d k) k' = if k' = k then none else ops.get d k'

/-- The operations of a vector. `elements` is what an iteration goes through. -/
structure VectorOps (V α : Type) where
  create : V
  elements : V → List α
  size : V → Nat
  pushBack : V → α → V
  erase : V → Nat → V

/-- What the operations of a vector do. An element is erased at a valid position. -/
structure VectorLaws {V α : Type} (ops : VectorOps V α) : Prop where
  elements_create : ops.elements ops.create = []
  size_eq : ∀ v, ops.size v = (ops.elements v).length
  elements_pushBack : ∀ v x, ops.elements (ops.pushBack v x) = ops.elements v ++ [x]
  elements_erase : ∀ v i, i < ops.size v →
    ops.elements (ops.erase v i) = (ops.elements v).eraseIdx i

/-- The operations of a queue that threads share. `elements` is what is in it, and a pull without a
result waits. -/
structure QueueOps (Q α : Type) where
  create : Q
  elements : Q → List α
  push : Q → α → Q
  pull : Q → Option (α × Q)

/-- What the operations of a queue do. -/
structure QueueLaws {Q α : Type} (ops : QueueOps Q α) : Prop where
  elements_create : ops.elements ops.create = []
  elements_push : ∀ q x, ops.elements (ops.push q x) = ops.elements q ++ [x]
  pull_eq_none : ∀ q, ops.pull q = none ↔ ops.elements q = []
  elements_pull : ∀ q x q', ops.pull q = some (x, q') → ops.elements q = x :: ops.elements q'

section Lists

variable {V : Type} [DecidableEq V]

/-- A graph as a list of vertices and a list of edges, oldest first. -/
def listGraph : GraphOps (List V × List (V × V)) V where
  create := ([], [])
  vertices := Prod.fst
  containsVertex g v := v ∈ g.1
  adjacent g s t := (s, t) ∈ g.2
  neighbors g s := (g.2.filter fun e => e.1 = s ∧ e.2 ∈ g.1).map Prod.snd
  addVertex g k := if k ∈ g.1 then g else (g.1 ++ [k], g.2.filter fun e => e.1 ≠ k ∧ e.2 ≠ k)
  addEdge g s t := if (s, t) ∈ g.2 then g else (g.1, g.2 ++ [(s, t)])
  removeEdge g s t := (g.1, g.2.filter fun e => e ≠ (s, t))

theorem listGraph_edge (g : List V × List (V × V)) (s t : V) :
    listGraph.Edge g s t ↔ s ∈ g.1 ∧ t ∈ g.1 ∧ (s, t) ∈ g.2 := by
  simp [GraphOps.Edge, listGraph]

theorem listGraph_laws : GraphLaws (listGraph (V := V)) where
  contains_create := fun v => by simp [listGraph]
  mem_vertices := fun g v => by simp [listGraph]
  mem_neighbors := fun g s t hs => by
    rw [listGraph_edge]
    simp only [listGraph, decide_eq_true_eq] at hs
    simp [listGraph, hs, and_comm]
  contains_addVertex := fun g k v => by
    by_cases hk : k ∈ g.1
    · simp only [listGraph, hk, if_true, decide_eq_true_eq]
      refine ⟨Or.inr, ?_⟩
      rintro (rfl | hv)
      · exact hk
      · exact hv
    · simp [listGraph, hk, or_comm]
  edge_addVertex := fun g k a b => by
    rw [listGraph_edge, listGraph_edge]
    by_cases hk : k ∈ g.1
    · simp [listGraph, hk]
    · have hne : ∀ {v}, v ∈ g.1 → v ≠ k := fun hv heq => hk (heq ▸ hv)
      simp only [listGraph, hk, if_false, List.mem_append, List.mem_singleton, List.mem_filter,
        decide_eq_true_eq]
      constructor
      · rintro ⟨ha, hb, hab, hak, hbk⟩
        exact ⟨ha.resolve_right hak, hb.resolve_right hbk, hab⟩
      · rintro ⟨ha, hb, hab⟩
        exact ⟨Or.inl ha, Or.inl hb, hab, hne ha, hne hb⟩
  contains_addEdge := fun g s t v _ _ => by
    by_cases h : (s, t) ∈ g.2 <;> simp [listGraph, h]
  edge_addEdge := fun g s t a b hs ht => by
    rw [listGraph_edge, listGraph_edge]
    simp only [listGraph, decide_eq_true_eq] at hs ht
    by_cases h : (s, t) ∈ g.2
    · simp only [listGraph, h, if_true]
      refine ⟨Or.inl, ?_⟩
      rintro (hab | ⟨rfl, rfl⟩)
      · exact hab
      · exact ⟨hs, ht, h⟩
    · simp only [listGraph, h, if_false, List.mem_append, List.mem_singleton, Prod.mk.injEq]
      constructor
      · rintro ⟨ha, hb, hab | hab⟩
        · exact Or.inl ⟨ha, hb, hab⟩
        · exact Or.inr hab
      · rintro (⟨ha, hb, hab⟩ | ⟨rfl, rfl⟩)
        · exact ⟨ha, hb, Or.inl hab⟩
        · exact ⟨hs, ht, Or.inr ⟨rfl, rfl⟩⟩
  contains_removeEdge := fun g s t v _ => rfl
  edge_removeEdge := fun g s t a b _ => by
    rw [listGraph_edge, listGraph_edge]
    simp [listGraph, and_assoc, imp_iff_not_or]

/-- A graph and the values of its vertices. -/
def listValueGraph {α : Type} [Inhabited α] :
    ValueGraphOps ((List V × List (V × V)) × (V → α)) V α where
  create := (listGraph.create, fun _ => default)
  vertices g := listGraph.vertices g.1
  containsVertex g := listGraph.containsVertex g.1
  adjacent g := listGraph.adjacent g.1
  neighbors g := listGraph.neighbors g.1
  addVertex g k := (listGraph.addVertex g.1 k, g.2)
  addEdge g s t := (listGraph.addEdge g.1 s t, g.2)
  removeEdge g s t := (listGraph.removeEdge g.1 s t, g.2)
  vertexValue := Prod.snd
  setVertexValue g k a := (listGraph.addVertex g.1 k, Function.update g.2 k a)

theorem listValueGraph_laws {α : Type} [Inhabited α] :
    ValueGraphLaws (listValueGraph (V := V) (α := α)) where
  contains_create := listGraph_laws.contains_create
  mem_vertices := fun g => listGraph_laws.mem_vertices g.1
  mem_neighbors := fun g => listGraph_laws.mem_neighbors g.1
  contains_addVertex := fun g => listGraph_laws.contains_addVertex g.1
  edge_addVertex := fun g => listGraph_laws.edge_addVertex g.1
  contains_addEdge := fun g => listGraph_laws.contains_addEdge g.1
  edge_addEdge := fun g => listGraph_laws.edge_addEdge g.1
  contains_removeEdge := fun g => listGraph_laws.contains_removeEdge g.1
  edge_removeEdge := fun g => listGraph_laws.edge_removeEdge g.1
  contains_setVertexValue := fun g k _ => listGraph_laws.contains_addVertex g.1 k
  edge_setVertexValue := fun g k _ => listGraph_laws.edge_addVertex g.1 k
  vertexValue_self := fun g k a => by simp [listValueGraph]
  vertexValue_of_ne := fun g k a v _ hv => by simp [listValueGraph, hv]
  vertexValue_addEdge := fun _ _ _ _ _ _ _ => rfl

/-- A set as a list. -/
def listSet : SetOps (List V) V where
  create := []
  contains s v := v ∈ s
  add s x := if x ∈ s then s else s ++ [x]

theorem listSet_laws : SetLaws (listSet (V := V)) where
  contains_create := fun v => by simp [listSet]
  contains_add := fun s x v => by
    by_cases hx : x ∈ s
    · simp only [listSet, hx, if_true, decide_eq_true_eq]
      refine ⟨Or.inr, ?_⟩
      rintro (rfl | hv)
      · exact hx
      · exact hv
    · simp [listSet, hx, or_comm]

/-- A dictionary as a list of pairs, the latest first. -/
def listDict {ν : Type} : DictOps (List (V × ν)) V ν where
  create := []
  get d k := (d.find? fun e => e.1 = k).map Prod.snd
  set d k v := (k, v) :: d
  remove d k := d.filter fun e => e.1 ≠ k

theorem listDict_laws {ν : Type} : DictLaws (listDict (V := V) (ν := ν)) where
  get_create := fun k => rfl
  get_set := fun d k v k' => by
    by_cases h : k' = k
    · simp [listDict, h]
    · simp [listDict, h, Ne.symm h]
  get_remove := fun d k k' _ => by
    by_cases h : k' = k
    · subst h
      simp [listDict, List.find?_eq_none]
    · simp only [listDict, h, if_false, List.find?_filter]
      congr 2
      funext e
      by_cases he : e.1 = k'
      · simp [he, h]
      · simp [he]

/-- A vector as a list. -/
def listVector {α : Type} : VectorOps (List α) α where
  create := []
  elements := id
  size := List.length
  pushBack v x := v ++ [x]
  erase := List.eraseIdx

theorem listVector_laws {α : Type} : VectorLaws (listVector (α := α)) where
  elements_create := rfl
  size_eq := fun _ => rfl
  elements_pushBack := fun _ _ => rfl
  elements_erase := fun _ _ _ => rfl

/-- A queue as a list, the oldest first. -/
def listQueue {α : Type} : QueueOps (List α) α where
  create := []
  elements := id
  push q x := q ++ [x]
  pull
    | [] => none
    | x :: q => some (x, q)

theorem listQueue_laws {α : Type} : QueueLaws (listQueue (α := α)) where
  elements_create := rfl
  elements_push := fun _ _ => rfl
  pull_eq_none := fun q => by cases q <;> simp [listQueue]
  elements_pull := fun q x q' h => by
    cases q with
    | nil => cases h
    | cons y q =>
      obtain ⟨rfl, rfl⟩ := Prod.mk.inj (Option.some.inj h)
      rfl

end Lists

end SystemProgramming
