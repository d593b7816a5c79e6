import SystemProgramming.Foundation.Cycles
import SystemProgramming.ParallelMake.Parmake

/-!
# The order of the rules

The search that lists the rules goes down before it asks whether it has seen a rule, so it
ends only because the graph has no cycle. It lists each rule that the goals need once, after
all the rules it depends on.

## Main definitions

* `Listed`: a set of seen rules and a list that agree, dependencies first

## Main results

* `getRules_spec`: what a call adds to the list
* `getRulesInOrder_spec`: the whole list
-/

namespace SystemProgramming.ParallelMake

open Relation

variable {G S K : Type} {graph : GraphOps G K} {set : SetOps S K} {g : G}

/-- Every rule stands behind all its dependencies. -/
def Ordered (graph : GraphOps G K) (g : G) (rules : List K) : Prop :=
  ∀ pre v post, rules = pre ++ v :: post → ∀ d ∈ graph.neighbors g v, d ∈ pre

theorem Ordered.snoc {rules : List K} {t : K} (h : Ordered graph g rules)
    (ht : ∀ d ∈ graph.neighbors g t, d ∈ rules) : Ordered graph g (rules ++ [t]) := by
  intro pre v post heq d hd
  rcases List.eq_nil_or_concat post with rfl | ⟨post, x, rfl⟩
  · obtain ⟨rfl, hv⟩ := List.append_inj' heq rfl
    obtain rfl : t = v := by simpa using hv
    exact ht d hd
  · rw [List.concat_eq_append, ← List.cons_append, ← List.append_assoc] at heq
    obtain ⟨hrules, -⟩ := List.append_inj' heq rfl
    exact h pre v post hrules d hd

/-- The set of seen rules and the list agree, and no rule is listed twice or too early. -/
structure Listed (graph : GraphOps G K) (set : SetOps S K) (g : G) (acc : S × List K) : Prop where
  seen : ∀ v, set.contains acc.1 v = true ↔ v ∈ acc.2
  nodup : acc.2.Nodup
  ordered : Ordered graph g acc.2

theorem Listed.snoc {acc : S × List K} {t : K} (hset : SetLaws set) (h : Listed graph set g acc)
    (hnew : set.contains acc.1 t = false) (ht : ∀ d ∈ graph.neighbors g t, d ∈ acc.2) :
    Listed graph set g (set.add acc.1 t, acc.2 ++ [t]) where
  seen := fun v => by
    rw [hset.contains_add, h.seen, List.mem_append, List.mem_singleton, or_comm]
  nodup := by
    rw [List.nodup_append]
    refine ⟨h.nodup, List.nodup_singleton t, ?_⟩
    intro a ha b hb hab
    obtain rfl : b = t := by simpa using hb
    rw [(h.seen b).mpr (hab ▸ ha)] at hnew
    exact Bool.noConfusion hnew
  ordered := h.ordered.snoc ht

/-- The dependency relation. -/
def Needs (graph : GraphOps G K) (g : G) (x y : K) : Prop := y ∈ graph.neighbors g x

/-- What a call adds: its targets, and nothing they do not need. -/
structure Adds (graph : GraphOps G K) (g : G) (rules rules' ts : List K) : Prop where
  old : rules ⊆ rules'
  targets : ts ⊆ rules'
  only : ∀ v ∈ rules', v ∈ rules ∨ ∃ t ∈ ts, ReflTransGen (Needs graph g) t v

/-- The body of the loop of `get_rules`, after the dependencies of its target. -/
theorem Listed.target {acc acc₁ : S × List K} {t : K} (hset : SetLaws set)
    (h : Listed graph set g acc₁) (hadds : Adds graph g acc.2 acc₁.2 (graph.neighbors g t)) :
    ∃ acc₂, (if set.contains acc₁.1 t then some acc₁
        else some (set.add acc₁.1 t, acc₁.2 ++ [t])) = some acc₂ ∧
      Listed graph set g acc₂ ∧ Adds graph g acc.2 acc₂.2 [t] := by
  have honly : ∀ v ∈ acc₁.2, v ∈ acc.2 ∨ ∃ t' ∈ [t], ReflTransGen (Needs graph g) t' v := by
    intro v hv
    rcases hadds.only v hv with hold | ⟨d, hd, hdv⟩
    · exact Or.inl hold
    · exact Or.inr ⟨t, List.mem_singleton_self t, hdv.head hd⟩
  by_cases hseen : set.contains acc₁.1 t = true
  · refine ⟨acc₁, if_pos hseen, h, ⟨hadds.old, ?_, honly⟩⟩
    simpa using (h.seen t).mp hseen
  · refine ⟨_, if_neg hseen, h.snoc hset (Bool.not_eq_true _ ▸ hseen) hadds.targets, ⟨?_, ?_, ?_⟩⟩
    · exact List.subset_append_of_subset_left _ hadds.old
    · exact List.subset_append_right _ _
    · intro v hv
      rcases List.mem_append.mp hv with hv | hv
      · exact honly v hv
      · exact Or.inr ⟨t, List.mem_singleton_self t, List.mem_singleton.mp hv ▸ ReflTransGen.refl⟩

theorem Adds.trans {a b c ts us : List K} (h : Adds graph g a b ts) (h' : Adds graph g b c us) :
    Adds graph g a c (ts ++ us) where
  old := fun _ hv => h'.old (h.old hv)
  targets := by
    intro v hv
    rcases List.mem_append.mp hv with hv | hv
    · exact h'.old (h.targets hv)
    · exact h'.targets hv
  only := by
    intro v hv
    rcases h'.only v hv with hb | ⟨t, ht, htv⟩
    · rcases h.only v hb with ha | ⟨t, ht, htv⟩
      · exact Or.inl ha
      · exact Or.inr ⟨t, List.mem_append_left _ ht, htv⟩
    · exact Or.inr ⟨t, List.mem_append_right _ ht, htv⟩

/-- **The search.** With enough fuel for the heights of its targets, a call ends and adds its
targets with all they need. -/
theorem getRules_spec (hset : SetLaws set) (height : K → Nat) (fuel : Nat) :
    ∀ (targets : List K) (acc : S × List K), Listed graph set g acc → 0 < fuel →
      (∀ t ∈ targets, height t + 1 < fuel ∧
        ∀ x y, ReflTransGen (Needs graph g) t x → Needs graph g x y → height y < height x) →
      ∃ acc', getRules graph set g fuel acc targets = some acc' ∧
        Listed graph set g acc' ∧ Adds graph g acc.2 acc'.2 targets := by
  induction fuel with
  | zero =>
    intro targets acc _ hpos
    omega
  | succ fuel ih =>
    intro targets
    induction targets with
    | nil =>
      intro acc hacc _ _
      exact ⟨acc, rfl, hacc, ⟨List.Subset.refl _, List.nil_subset _, fun v hv => Or.inl hv⟩⟩
    | cons t ts iht =>
      intro acc hacc hpos hfuel
      obtain ⟨ht, hdrop⟩ := hfuel t List.mem_cons_self
      -- the dependencies of the first target, the target itself, and the other targets
      obtain ⟨acc₁, hrun₁, hacc₁, hadds₁⟩ := ih (graph.neighbors g t) acc hacc (by omega)
        fun d hd => ⟨by have := hdrop t d ReflTransGen.refl hd; omega,
          fun x y hx => hdrop x y (hx.head hd)⟩
      obtain ⟨acc₂, hrun₂, hacc₂, hadds₂⟩ := hacc₁.target hset hadds₁
      obtain ⟨acc₃, hrun₃, hacc₃, hadds₃⟩ := iht acc₂ hacc₂ hpos
        fun t' ht' => hfuel t' (List.mem_cons_of_mem t ht')
      refine ⟨acc₃, ?_, hacc₃, hadds₂.trans hadds₃⟩
      rw [getRules] at hrun₃ ⊢
      rw [List.foldlM_cons, hrun₁]
      simp only [Option.bind_eq_bind, Option.bind_some]
      rw [hrun₂]
      exact hrun₃

/-- More fuel makes no difference. -/
theorem getRules_succ {fuel : Nat} : ∀ {targets : List K} {acc acc' : S × List K},
    getRules graph set g fuel acc targets = some acc' →
      getRules graph set g (fuel + 1) acc targets = some acc' := by
  induction fuel with
  | zero => exact fun h => by cases h
  | succ fuel ih =>
    intro targets
    induction targets with
    | nil => exact fun h => h
    | cons t ts iht =>
      intro acc acc' h
      rw [getRules, List.foldlM_cons, Option.bind_eq_bind, Option.bind_eq_some_iff] at h ⊢
      obtain ⟨acc₂, hfirst, hrest⟩ := h
      obtain ⟨acc₁, hdeps, htarget⟩ := Option.bind_eq_some_iff.mp hfirst
      refine ⟨acc₂, Option.bind_eq_some_iff.mpr ⟨acc₁, ih hdeps, htarget⟩, ?_⟩
      exact iht hrest

theorem getRules_mono {fuel fuel' : Nat} {targets : List K} {acc acc' : S × List K}
    (hle : fuel ≤ fuel') (h : getRules graph set g fuel acc targets = some acc') :
    getRules graph set g fuel' acc targets = some acc' := by
  induction hle with
  | refl => exact h
  | step _ ih => exact getRules_succ ih

/-- What a vertex needs at all stands before it. -/
theorem Ordered.transGen {rules : List K} {v d : K} (h : Ordered graph g rules)
    (hvd : TransGen (Needs graph g) v d) :
    ∀ pre post, rules = pre ++ v :: post → d ∈ pre := by
  induction hvd using TransGen.head_induction_on with
  | single hneeds => exact fun pre post hsplit => h pre _ post hsplit d hneeds
  | @head v w hneeds _ ih =>
    intro pre post hsplit
    obtain ⟨pre', post', rfl⟩ := List.append_of_mem (h pre v post hsplit w hneeds)
    refine List.mem_append_left _ (ih pre' (post' ++ v :: post) ?_)
    rw [hsplit, List.append_assoc, List.cons_append]

/-- A vertex needs its successors. -/
theorem Needs.of_edge (hg : GraphLaws graph) {v w : K} (h : graph.Edge g v w) :
    Needs graph g v w :=
  (hg.mem_neighbors g v w h.1).mpr h

/-- What a vertex needs at all are the vertices that it reaches. -/
theorem reflTransGen_needs_iff (hg : GraphLaws graph) {t v : K}
    (ht : graph.containsVertex g t = true) :
    ReflTransGen (Needs graph g) t v ↔
      ReflTransGen (graph.Edge g) t v ∧ graph.containsVertex g v = true := by
  constructor
  · intro h
    induction h with
    | refl => exact ⟨ReflTransGen.refl, ht⟩
    | tail _ hneeds ih =>
      have hedge := (hg.mem_neighbors g _ _ ih.2).mp hneeds
      exact ⟨ih.1.tail hedge, hedge.2.1⟩
  · exact fun h => ReflTransGen.mono (fun _ _ hedge => Needs.of_edge hg hedge) _ _ h.1

/-- The search from the goals, in a graph without cycles, with enough fuel for its vertices. -/
theorem getRules_goals (hg : GraphLaws graph) (hset : SetLaws set)
    (hacyclic : Acyclic (graph.Edge g)) {goals : List K}
    (hgoals : ∀ t ∈ goals, graph.containsVertex g t = true) :
    ∃ cnt rules, getRules graph set g ((graph.vertices g).length + 1) (set.create, []) goals =
        some (cnt, rules) ∧ rules.Nodup ∧ Ordered graph g rules ∧
      ∀ v, v ∈ rules ↔ ∃ t ∈ goals, ReflTransGen (Needs graph g) t v := by
  have hvalid : ∀ t x, graph.containsVertex g t = true → ReflTransGen (Needs graph g) t x →
      graph.containsVertex g x = true :=
    fun t x ht hx => ((reflTransGen_needs_iff hg ht).mp hx).2
  have hempty : Listed graph set g (set.create, []) :=
    ⟨fun v => by simp [hset.contains_create], List.nodup_nil,
      fun pre v post heq => by simp at heq⟩
  obtain ⟨⟨cnt, rules⟩, hrun, hlisted, hadds⟩ := getRules_spec hset
    (height (graph.Edge g) (graph.vertices g)) ((graph.vertices g).length + 1) goals
    _ hempty (by omega) (by
      intro t ht
      refine ⟨?_, ?_⟩
      · have := hacyclic.height_lt_length ((hg.mem_vertices g t).mpr (hgoals t ht))
        omega
      · intro x y hx hxy
        have hedge := (hg.mem_neighbors g x y (hvalid t x (hgoals t ht) hx)).mp hxy
        exact hacyclic.height_lt hedge ((hg.mem_vertices g y).mpr hedge.2.1))
  refine ⟨cnt, rules, hrun, hlisted.nodup, hlisted.ordered, fun v => ?_⟩
  constructor
  · intro hv
    rcases hadds.only v hv with hnil | h
    · simp at hnil
    · exact h
  · rintro ⟨t, ht, htv⟩
    induction htv with
    | refl => exact hadds.targets ht
    | tail _ hyz ih =>
      obtain ⟨pre, post, rfl⟩ := List.append_of_mem ih
      exact List.mem_append_left _ (hlisted.ordered pre _ post rfl _ hyz)

/-- **The list.** For a graph without cycles, `get_rules_in_order` lists the rules that the
goals need, each once and after all it depends on. -/
theorem getRulesInOrder_spec (hg : GraphLaws graph) (hset : SetLaws set)
    (hacyclic : Acyclic (graph.Edge g)) {goals : List K}
    (hgoals : ∀ t ∈ goals, graph.containsVertex g t = true) :
    ∃ rules, getRulesInOrder graph set g goals = some rules ∧ rules.Nodup ∧
      Ordered graph g rules ∧
      ∀ v, v ∈ rules ↔ ∃ t ∈ goals, ReflTransGen (Needs graph g) t v := by
  obtain ⟨cnt, rules, hrun, hlist⟩ := getRules_goals hg hset hacyclic hgoals
  exact ⟨rules, by rw [getRulesInOrder, hrun, Option.map_some], hlist⟩

/-- **The order of the rules.** In a graph without cycles the search ends, whatever fuel beyond
the number of vertices it has, and `rules` has exactly the vertices reached from the goals, each
once, and each behind everything it depends on. -/
theorem rules_in_order (hg : GraphLaws graph) (hset : SetLaws set)
    (hacyclic : Acyclic (graph.Edge g)) {goals : List K}
    (hgoals : ∀ t ∈ goals, graph.containsVertex g t = true) :
    ∃ cnt rules, (∀ fuel, (graph.vertices g).length < fuel →
        getRules graph set g fuel (set.create, []) goals = some (cnt, rules)) ∧
      getRulesInOrder graph set g goals = some rules ∧ rules.Nodup ∧
      (∀ v, v ∈ rules ↔ ∃ t ∈ goals, ReflTransGen (graph.Edge g) t v) ∧
      ∀ pre v post, rules = pre ++ v :: post → ∀ d, TransGen (graph.Edge g) v d → d ∈ pre := by
  obtain ⟨cnt, rules, hrun, hnodup, hordered, hmem⟩ := getRules_goals hg hset hacyclic hgoals
  refine ⟨cnt, rules, fun fuel hfuel => getRules_mono hfuel hrun, ?_, hnodup, fun v => ?_,
    fun pre v post hsplit d hvd => hordered.transGen ?_ pre post hsplit⟩
  · rw [getRulesInOrder, hrun, Option.map_some]
  · rw [hmem]
    refine exists_congr fun t => and_congr_right fun ht => ?_
    rw [reflTransGen_needs_iff hg (hgoals t ht)]
    refine ⟨fun h => h.1, fun h => ⟨h, ?_⟩⟩
    rcases ReflTransGen.cases_tail h with rfl | ⟨u, -, hedge⟩
    · exact hgoals v ht
    · exact hedge.2.1
  · exact TransGen.mono (fun _ _ hedge => Needs.of_edge hg hedge) _ _ hvd

/-- Two goals that share a dependency, one of them listed twice. -/
def sharedDep : List Nat × List (Nat × Nat) := ([0, 1, 2], [(0, 2), (1, 2)])

theorem rules_in_order_sharedDep :
    getRulesInOrder listGraph listSet sharedDep [0, 1, 0] = some [2, 0, 1] ∧
      ∀ pre v post, [2, 0, 1] = pre ++ v :: post →
        ∀ d, TransGen (listGraph.Edge sharedDep) v d → d ∈ pre := by
  have hedge : ∀ x y, listGraph.Edge sharedDep x y → x < y := by
    intro x y h
    rw [listGraph_edge] at h
    simp [sharedDep] at h
    omega
  have hpath : ∀ x y, TransGen (listGraph.Edge sharedDep) x y → x < y := by
    intro x y h
    induction h with
    | single h => exact hedge _ _ h
    | tail _ h ih => exact ih.trans (hedge _ _ h)
  have hacyclic : Acyclic (listGraph.Edge sharedDep) := fun x hx => lt_irrefl x (hpath x x hx)
  obtain ⟨cnt, rules, -, hrules, -, -, hordered⟩ := rules_in_order (g := sharedDep)
    listGraph_laws listSet_laws hacyclic
    (show ∀ t ∈ [0, 1, 0], listGraph.containsVertex sharedDep t = true by decide)
  have horder : getRulesInOrder listGraph listSet sharedDep [0, 1, 0] = some [2, 0, 1] := by
    decide
  obtain rfl := Option.some.inj (horder.symm.trans hrules)
  exact ⟨horder, hordered⟩

end SystemProgramming.ParallelMake
