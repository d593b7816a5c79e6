import Mathlib.Logic.Relation
import SystemProgramming.Foundation.Containers

/-!
# The deadlock-resistant mutexes of `libdrm.c`

The graph and set libraries come as archives with headers; they are parameters here, with the
laws their headers document. The globals are the resource allocation graph and the set `visited`, null between most calls.
Each critical section under `m_global` is a function of them; `drm_wait` has two, with the
acquisition of the drm's own mutex between them. The depth-first search carries fuel, one
more than the number of vertices.

## Main definitions

* `Node`: the vertices of the graph, threads and drms
* `Globals`: the graph and `visited`
* `hasCycle`, `drmInit`, `drmPost`, `drmWaitEnter`, `drmWaitExit`: the code under `m_global`

## Main results

* `hasCycle_eq`: the search ends, and its answer is whether its start was visited before
* `hasCycle_null_iff`: with a null `visited` the answer is right where there is no cycle
-/

namespace SystemProgramming.Deadlock

/-- The vertices of the resource allocation graph. -/
inductive Node (Th D : Type) where
  | thread (t : Th)
  | drm (d : D)
  deriving DecidableEq

section Search

variable {G S V : Type} (graph : GraphOps G V) (set : SetOps S V)

/-- `has_cycle` with a `visited` that is not null, and what `visited` is after it. -/
def hasCycleFrom (g : G) : Nat → V → S → Option (Bool × S)
  | 0, _, _ => none
  | fuel + 1, node, visited =>
    if set.contains visited node then some (true, visited)
    else
      let visited := set.add visited node
      (graph.neighbors g node).foldlM (fun acc neigh =>
        if set.contains acc.2 neigh then some acc
        else (hasCycleFrom g fuel neigh acc.2).map fun (r, visited) => (acc.1 || r, visited))
        (false, visited)

/-- `has_cycle`: `visited` is created when it is null. -/
def hasCycle (g : G) (node : V) (visited : Option S) : Option (Bool × S) :=
  hasCycleFrom graph set g ((graph.vertices g).length + 1) node (visited.getD set.create)

variable {graph set}

/-- The vertices not visited yet. -/
def unvisited (graph : GraphOps G V) (set : SetOps S V) (g : G) (visited : S) : List V :=
  (graph.vertices g).filter fun v => set.contains visited v = false

/-- Visiting more leaves fewer vertices. -/
theorem length_unvisited_le {g : G} {v₁ v₂ : S}
    (h : ∀ x, set.contains v₁ x = true → set.contains v₂ x = true) :
    (unvisited graph set g v₂).length ≤ (unvisited graph set g v₁).length := by
  refine (List.monotone_filter_right _ fun x hx => ?_).length_le
  by_contra hx₁
  have := h x (by simpa using hx₁)
  simp [this] at hx

theorem length_unvisited_lt {g : G} {v₁ v₂ : S} {x : V} (hx : x ∈ graph.vertices g)
    (hx₁ : set.contains v₁ x = false) (hx₂ : set.contains v₂ x = true)
    (h : ∀ x, set.contains v₁ x = true → set.contains v₂ x = true) :
    (unvisited graph set g v₂).length < (unvisited graph set g v₁).length := by
  have hsub : (unvisited graph set g v₂).Sublist (unvisited graph set g v₁) :=
    List.monotone_filter_right _ fun y hy => by
      by_contra hy₁
      have := h y (by simpa using hy₁)
      simp [this] at hy
  refine lt_of_le_of_ne hsub.length_le fun heq => ?_
  have hmem : x ∈ unvisited graph set g v₁ := List.mem_filter.mpr ⟨hx, by simpa using hx₁⟩
  rw [← hsub.eq_of_length heq] at hmem
  simp [unvisited, hx₂] at hmem

variable (hg : GraphLaws graph) (hs : SetLaws set)
include hg hs

/-- With more fuel than unvisited vertices the search ends. It only ever calls itself on
vertices that are not visited, so its answer is whether the first one was. -/
theorem hasCycleFrom_eq {g : G} (fuel : Nat) : ∀ (node : V) (visited : S),
    graph.containsVertex g node = true → (unvisited graph set g visited).length < fuel →
    ∃ visited', hasCycleFrom graph set g fuel node visited =
        some (set.contains visited node, visited') ∧
      ∀ x, set.contains visited x = true → set.contains visited' x = true := by
  induction fuel with
  | zero =>
    intro node visited _ hlt
    omega
  | succ fuel ih =>
    intro node visited hnode hlt
    rw [hasCycleFrom]
    by_cases hvis : set.contains visited node = true
    · rw [if_pos hvis]
      exact ⟨visited, by rw [hvis], fun _ hx => hx⟩
    rw [if_neg hvis]
    have hvis' : set.contains visited node = false := by simpa using hvis
    have hadd : ∀ x, set.contains visited x = true →
        set.contains (set.add visited node) x = true := fun x hx =>
      (hs.contains_add _ _ _).mpr (Or.inr hx)
    have hlt' : (unvisited graph set g (set.add visited node)).length < fuel := by
      have hlt : (unvisited graph set g (set.add visited node)).length <
          (unvisited graph set g visited).length :=
        length_unvisited_lt ((hg.mem_vertices g node).mpr hnode) hvis'
          ((hs.contains_add visited node node).mpr (Or.inl rfl)) hadd
      omega
    -- the loop over the neighbours keeps the answer false and only adds to `visited`
    have hloop : ∀ (l : List V) (v : S), (∀ n ∈ l, graph.containsVertex g n = true) →
        (∀ x, set.contains (set.add visited node) x = true → set.contains v x = true) →
        ∃ v', l.foldlM (fun (acc : Bool × S) neigh => if set.contains acc.2 neigh then some acc
            else (hasCycleFrom graph set g fuel neigh acc.2).map fun (r, visited) =>
              (acc.1 || r, visited)) (false, v) = some (false, v') ∧
          ∀ x, set.contains v x = true → set.contains v' x = true := by
      intro l
      induction l with
      | nil => exact fun v _ _ => ⟨v, rfl, fun _ hx => hx⟩
      | cons n l ihl =>
        intro v hl hv
        have hl' : ∀ n ∈ l, graph.containsVertex g n = true := fun m hm => hl m (by simp [hm])
        rw [List.foldlM_cons]
        by_cases hn : set.contains v n = true
        · rw [if_pos hn]
          exact ihl v hl' hv
        · rw [if_neg hn]
          have hle : (unvisited graph set g v).length ≤
              (unvisited graph set g (set.add visited node)).length := length_unvisited_le hv
          obtain ⟨v₁, hrec, hsub⟩ := ih n v (hl n (by simp)) (by omega)
          have hn' : set.contains v n = false := by simpa using hn
          rw [hrec, hn']
          obtain ⟨v₂, hrest, hsub₂⟩ := ihl v₁ hl' fun x hx => hsub x (hv x hx)
          exact ⟨v₂, hrest, fun x hx => hsub₂ x (hsub x hx)⟩
    obtain ⟨v', heq, hsub⟩ := hloop (graph.neighbors g node) (set.add visited node)
      (fun n hn => ((hg.mem_neighbors g node n hnode).mp hn).2.1) fun _ hx => hx
    refine ⟨v', ?_, fun x hx => hsub x (hadd x hx)⟩
    rw [hvis']
    exact heq

/-- **The cycle search** ends, and answers whether its start was already in `visited`: with a
null `visited` it never finds a cycle. -/
theorem hasCycle_eq {g : G} {node : V} (hnode : graph.containsVertex g node = true)
    (visited : Option S) :
    ∃ visited', hasCycle graph set g node visited =
      some (visited.any fun v => set.contains v node, visited') := by
  have hlt : (unvisited graph set g (visited.getD set.create)).length <
      (graph.vertices g).length + 1 := by
    have := List.length_filter_le (fun v => set.contains (visited.getD set.create) v = false)
      (graph.vertices g)
    unfold unvisited
    omega
  obtain ⟨v', heq, -⟩ := hasCycleFrom_eq hg hs _ node (visited.getD set.create) hnode hlt
  refine ⟨v', ?_⟩
  rw [hasCycle, heq]
  cases visited with
  | none => simp [hs.contains_create]
  | some v => simp

open Relation

/-- **With a null `visited`, the search finds no cycle.** It ends, but its answer, whether there
is a path of at least one edge from the start back to it, is right exactly where there is none:
the start is in `visited` as soon as the search has begun, and no neighbour that is in `visited`
is searched from. -/
theorem hasCycle_null_iff (g : G) (node : V) (hnode : graph.containsVertex g node = true) :
    (∃ result visited', hasCycle graph set g node none = some (result, visited') ∧
      (result = true ↔ TransGen (graph.Edge g) node node)) ↔
      ¬ TransGen (graph.Edge g) node node := by
  obtain ⟨visited', hsearch⟩ := hasCycle_eq hg hs hnode none
  rw [Option.any_none] at hsearch
  constructor
  · rintro ⟨result, visited'', hresult, hright⟩ hcycle
    rw [hsearch] at hresult
    obtain ⟨rfl, -⟩ := Prod.ext_iff.mp (Option.some.inj hresult)
    exact Bool.false_ne_true (hright.mpr hcycle)
  · exact fun hno => ⟨false, visited', hsearch, iff_of_false Bool.false_ne_true hno⟩

omit hg hs

theorem hasCycle_null_iff_path :
    ∃ result visited', hasCycle listGraph listSet ([1, 2], [(1, 2)]) 1 none =
        some (result, visited') ∧
      (result = true ↔ TransGen (listGraph.Edge ([1, 2], [(1, 2)])) 1 1) := by
  refine (hasCycle_null_iff listGraph_laws listSet_laws ([1, 2], [(1, 2)]) 1 (by decide)).mpr ?_
  -- no edge leads to the start
  intro hcycle
  obtain ⟨v, -, hedge⟩ := TransGen.tail'_iff.mp hcycle
  simp [listGraph_edge] at hedge

/-- Two vertices with an edge each way. -/
theorem not_hasCycle_null :
    ¬ ∃ result visited', hasCycle listGraph listSet ([1, 2], [(1, 2), (2, 1)]) 1 none =
        some (result, visited') ∧
      (result = true ↔ TransGen (listGraph.Edge ([1, 2], [(1, 2), (2, 1)])) 1 1) := by
  rintro ⟨result, visited', hsearch, hright⟩
  have hfalse : hasCycle listGraph listSet ([1, 2], [(1, 2), (2, 1)]) 1 none =
      some (false, [1, 2]) := by decide
  rw [hfalse] at hsearch
  obtain ⟨rfl, -⟩ := Prod.ext_iff.mp (Option.some.inj hsearch)
  have hthere : listGraph.Edge ([1, 2], [(1, 2), (2, 1)]) 1 2 := by
    simp [listGraph_edge]
  have hback : listGraph.Edge ([1, 2], [(1, 2), (2, 1)]) 2 1 := by
    simp [listGraph_edge]
  exact Bool.false_ne_true (hright.mpr ((TransGen.single hthere).tail hback))

end Search

/-! ## The critical sections -/

/-- The globals of `libdrm.c`. -/
structure Globals (G S : Type) where
  g : G
  visited : Option S

section Sections

variable {G S Th D : Type} (graph : GraphOps G (Node Th D)) (set : SetOps S (Node Th D))

/-- `drm_init`, for the drm `d` it allocates. -/
def drmInit (s : Globals G S) (d : D) : Globals G S := { s with g := graph.addVertex s.g (.drm d) }

/-- `drm_post`: the result, the globals, and whether the drm is unlocked. -/
def drmPost (s : Globals G S) (d : D) (t : Th) : Bool × Globals G S × Bool :=
  if ¬ graph.containsVertex s.g (.drm d) ∨ ¬ graph.containsVertex s.g (.thread t) then
    (false, s, false)
  else if graph.adjacent s.g (.drm d) (.thread t) then
    (true, { s with g := graph.removeEdge s.g (.drm d) (.thread t) }, true)
  else (true, s, false)

/-- `drm_wait` up to the acquisition of the drm: whether the thread goes on to wait, and the
globals. A refused call returns `0`; only the refusal by the search resets `visited`. -/
def drmWaitEnter (s : Globals G S) (d : D) (t : Th) : Option (Bool × Globals G S) :=
  let g := if ¬ graph.containsVertex s.g (.thread t) then graph.addVertex s.g (.thread t) else s.g
  if graph.adjacent g (.drm d) (.thread t) then some (false, { s with g := g })
  else
    let g := graph.addEdge g (.thread t) (.drm d)
    (hasCycle graph set g (.thread t) s.visited).map fun (cycle, visited) =>
      if cycle then (false, ⟨graph.removeEdge g (.thread t) (.drm d), none⟩)
      else (true, ⟨g, some visited⟩)

/-- `drm_wait` after the acquisition of the drm. -/
def drmWaitExit (s : Globals G S) (d : D) (t : Th) : Globals G S :=
  ⟨graph.addEdge (graph.removeEdge s.g (.thread t) (.drm d)) (.drm d) (.thread t), none⟩

/-! ## What the sections do to the graph -/

variable {graph set} (hg : GraphLaws graph)
include hg

/-- The first section of `drm_wait` ends. The call is refused when the thread owns the drm or
is still in `visited`; otherwise the graph has one more edge. -/
theorem drmWaitEnter_spec {s : Globals G S} {d : D} {t : Th} (hs : SetLaws set)
    (hd : graph.containsVertex s.g (.drm d) = true)
    (hno : ¬ graph.Edge s.g (.thread t) (.drm d)) :
    ∃ waits s', drmWaitEnter graph set s d t = some (waits, s') ∧
      (waits = false ↔ graph.Edge s.g (.drm d) (.thread t) ∨
        ∃ v, s.visited = some v ∧ set.contains v (.thread t) = true) ∧
      ∀ a b, graph.Edge s'.g a b ↔
        graph.Edge s.g a b ∨ (waits = true ∧ a = .thread t ∧ b = .drm d) := by
  -- the graph with the thread in it has the same edges
  obtain ⟨g, hgdef⟩ : ∃ g, g = if ¬ graph.containsVertex s.g (.thread t) = true then
      graph.addVertex s.g (.thread t) else s.g := ⟨_, rfl⟩
  have hedge : ∀ a b, graph.Edge g a b ↔ graph.Edge s.g a b := by
    intro a b
    rw [hgdef]
    split_ifs
    · exact Iff.rfl
    · exact hg.edge_addVertex _ _ _ _
  have ht : graph.containsVertex g (.thread t) = true := by
    rw [hgdef]
    split_ifs with hc
    · exact hc
    · exact (hg.contains_addVertex _ _ _).mpr (Or.inl rfl)
  have hd' : graph.containsVertex g (.drm d) = true := by
    rw [hgdef]
    split_ifs
    · exact hd
    · exact (hg.contains_addVertex _ _ _).mpr (Or.inr hd)
  have hadj : graph.adjacent g (.drm d) (.thread t) = true ↔
      graph.Edge s.g (.drm d) (.thread t) := by
    rw [← hedge]
    exact ⟨fun h => ⟨hd', ht, h⟩, fun h => h.2.2⟩
  have hadd := fun a b => hg.edge_addEdge g (.thread t) (.drm d) a b ht hd'
  have ht' : graph.containsVertex (graph.addEdge g (.thread t) (.drm d)) (.thread t) = true := by
    rw [hg.contains_addEdge _ _ _ _ ht hd', ht]
  obtain ⟨visited', hcycle⟩ := hasCycle_eq hg hs ht' s.visited
  have hany : (s.visited.any fun v => set.contains v (.thread t)) = true ↔
      ∃ v, s.visited = some v ∧ set.contains v (.thread t) = true := by
    cases s.visited <;> simp
  rw [drmWaitEnter, ← hgdef]
  dsimp only
  by_cases hown : graph.adjacent g (.drm d) (.thread t) = true
  · rw [if_pos hown]
    refine ⟨false, _, rfl, ?_, fun a b => ?_⟩
    · simp [hadj.mp hown]
    · simp [hedge]
  · rw [if_neg hown, hcycle, Option.map_some]
    by_cases hvis : (s.visited.any fun v => set.contains v (.thread t)) = true
    · refine ⟨false, ⟨graph.removeEdge (graph.addEdge g (.thread t) (.drm d)) (.thread t) (.drm d),
        none⟩, ?_, ?_, fun a b => ?_⟩
      · simp [hvis]
      · simp [hany.mp hvis]
      · -- the edge that was added is taken away again
        rw [hg.edge_removeEdge _ _ _ _ _ ((hadd _ _).mpr (Or.inr ⟨rfl, rfl⟩)), hadd, hedge]
        constructor
        · rintro ⟨h₁ | h₁, h₂⟩
          · exact Or.inl h₁
          · exact absurd h₁ h₂
        · rintro (h₁ | ⟨h₁, -⟩)
          · refine ⟨Or.inl h₁, ?_⟩
            rintro ⟨rfl, rfl⟩
            exact hno h₁
          · simp at h₁
    · refine ⟨true, ⟨graph.addEdge g (.thread t) (.drm d), some visited'⟩, ?_, ?_, fun a b => ?_⟩
      · simp [hvis]
      · rw [← hany, ← hadj]
        simp [hvis, hown]
      · rw [hadd, hedge]
        simp

/-- The second section of `drm_wait` turns the request into ownership. -/
theorem drmWaitExit_edge {s : Globals G S} {d : D} {t : Th}
    (hreq : graph.Edge s.g (.thread t) (.drm d)) (a b : Node Th D) :
    graph.Edge (drmWaitExit graph s d t).g a b ↔
      (graph.Edge s.g a b ∧ ¬ (a = .thread t ∧ b = .drm d)) ∨ (a = .drm d ∧ b = .thread t) := by
  have hcontains := fun v => hg.contains_removeEdge s.g (.thread t) (.drm d) v hreq
  rw [drmWaitExit, hg.edge_addEdge _ _ _ _ _ ((hcontains _).trans hreq.2.1)
    ((hcontains _).trans hreq.1), hg.edge_removeEdge _ _ _ _ _ hreq]

/-- `drm_post` unlocks exactly the drms that the thread owns. -/
theorem drmPost_spec (s : Globals G S) (d : D) (t : Th) :
    ∃ result s' unlocks, drmPost graph s d t = (result, s', unlocks) ∧
      (unlocks = true ↔ graph.Edge s.g (.drm d) (.thread t)) ∧
      ∀ a b, graph.Edge s'.g a b ↔
        graph.Edge s.g a b ∧ ¬ (unlocks = true ∧ a = .drm d ∧ b = .thread t) := by
  rw [drmPost]
  by_cases hvalid : ¬ graph.containsVertex s.g (.drm d) = true ∨
      ¬ graph.containsVertex s.g (.thread t) = true
  · rw [if_pos hvalid]
    refine ⟨_, _, _, rfl, ?_, by simp⟩
    simp only [Bool.false_eq_true, false_iff]
    rintro ⟨h₁, h₂, -⟩
    rcases hvalid with h | h
    · exact h h₁
    · exact h h₂
  · rw [if_neg hvalid]
    rw [not_or, not_not, not_not] at hvalid
    by_cases hadj : graph.adjacent s.g (.drm d) (.thread t) = true
    · rw [if_pos hadj]
      have hedge : graph.Edge s.g (.drm d) (.thread t) := ⟨hvalid.1, hvalid.2, hadj⟩
      refine ⟨_, _, _, rfl, by simp [hedge], fun a b => ?_⟩
      rw [hg.edge_removeEdge _ _ _ _ _ hedge]
      simp
    · rw [if_neg hadj]
      refine ⟨_, _, _, rfl, ?_, by simp⟩
      simp only [Bool.false_eq_true, false_iff]
      exact fun h => hadj h.2.2

end Sections

end SystemProgramming.Deadlock
