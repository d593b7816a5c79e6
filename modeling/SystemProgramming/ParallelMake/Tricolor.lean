import SystemProgramming.Foundation.Containers
import SystemProgramming.Foundation.Cycles

/-!
# Cycle detection

`parmake` searches the dependencies of its goals for cycles, one goal after another, with one map
of colours. A search that finds a cycle breaks off and leaves the vertices on its way grey, so
later searches meet grey vertices that are not on their own way. Each of these reaches a
cycle, so meeting one is the right answer all the same.

## Main definitions

* `tricolor`, `searchGoals`: the search from one vertex, and from all goals
* `Coloured`: what holds of the colours at any time
* `Searched`: what a search does to the colours

## Main results

* `tricolor_spec`: a search ends, and says whether its vertex reaches a cycle
* `searchGoals_spec`: all goals
-/

namespace SystemProgramming.ParallelMake

open Relation

/-- The values in the map of colours: `0`, `1` and `2`. -/
inductive Colour where
  | white
  | grey
  | black
  deriving DecidableEq

section Search

variable {G D K : Type} (graph : GraphOps G K) (dict : DictOps D K Colour) (g : G)

/-- The loop of `tricolor` over the children, with the search from a child. -/
def searchChildren (search : D → K → Option (Bool × D)) : D → List K → Option (Bool × D)
  | mp, [] => some (false, mp)
  | mp, child :: children => do
    let (isCycle, mp) ← search mp child
    if isCycle then some (true, mp) else searchChildren search mp children

/-- `tricolor`, with a bound on the depth of the recursion. -/
def tricolor : Nat → D → K → Option (Bool × D)
  | 0, _, _ => none
  | fuel + 1, mp, target => do
    match ← dict.get mp target with
    | .grey => some (true, mp)
    | .black => some (false, mp)
    | .white =>
      let mp := dict.set mp target .grey
      let (isCycle, mp) ← searchChildren (tricolor fuel) mp (graph.neighbors g target)
      if isCycle then some (true, mp) else some (false, dict.set mp target .black)

/-- The map that `parmake` begins with. -/
def whiteMap : D := (graph.vertices g).foldl (fun mp node => dict.set mp node .white) dict.create

/-- The loop of `parmake` over its goals: what each call returns, and the map afterwards. -/
def searchGoals (fuel : Nat) : D → List K → Option (List Bool × D)
  | mp, [] => some ([], mp)
  | mp, goal :: goals => do
    let (isCycle, mp) ← tricolor graph dict g fuel mp goal
    let (results, mp) ← searchGoals fuel mp goals
    some (isCycle :: results, mp)

end Search

section Colours

variable {G K : Type} {graph : GraphOps G K} {g : G} {col col' col'' : K → Option Colour} {t : K}
  {ts : List K} {r : Bool}

/-- **The invariant of the colours.** Every vertex has one; what is black needs only what is
black, and reaches no cycle. -/
structure Coloured (graph : GraphOps G K) (g : G) (col : K → Option Colour) : Prop where
  total : ∀ v, graph.containsVertex g v = true → (col v).isSome
  closed : ∀ v w, col v = some .black → graph.Edge g v w → col w = some .black
  clear : ∀ v, col v = some .black → ¬ ReachesCycle (graph.Edge g) v

/-- What is grey before a search of `t` reaches a cycle, or is on the way to `t`. -/
def Grey (graph : GraphOps G K) (g : G) (col : K → Option Colour) (t : K) : Prop :=
  ∀ v, graph.containsVertex g v = true → col v = some .grey →
    ReachesCycle (graph.Edge g) v ∨ TransGen (graph.Edge g) v t

/-- **What a search of the vertices `ts` does** to the colours, with the result `r`. -/
structure Searched (graph : GraphOps G K) (g : G) (col col' : K → Option Colour) (ts : List K)
    (r : Bool) : Prop where
  coloured : Coloured graph g col'
  white : ∀ v, col' v = some .white → col v = some .white
  grey : ∀ v, col v = some .grey → col' v = some .grey
  black : ∀ v, col v = some .black → col' v = some .black
  cycle : r = true → ∃ t ∈ ts, ReachesCycle (graph.Edge g) t ∧ col' t = some .grey
  broken : r = true → ∀ v, col' v = some .grey → col v = some .grey ∨ ReachesCycle (graph.Edge g) v
  done : r = false → ∀ t ∈ ts, col' t = some .black
  restored : r = false → ∀ v, col' v = some .grey → col v = some .grey

/-- What is reached from a black vertex is black. -/
theorem Coloured.black_of_reflTransGen (h : Coloured graph g col) {v w : K}
    (hv : col v = some .black) (hvw : ReflTransGen (graph.Edge g) v w) : col w = some .black := by
  induction hvw with
  | refl => exact hv
  | tail _ hedge ih => exact h.closed _ _ ih hedge

namespace Searched

/-- Nothing to search. -/
theorem nil (h : Coloured graph g col) : Searched graph g col col [] false where
  coloured := h
  white _ hv := hv
  grey _ hv := hv
  black _ hv := hv
  cycle hr := by cases hr
  broken hr := by cases hr
  done _ v hv := by cases hv
  restored _ _ hv := hv

/-- A search that meets a black vertex. -/
theorem atBlack (h : Coloured graph g col) (ht : col t = some .black) :
    Searched graph g col col [t] false where
  coloured := h
  white _ hv := hv
  grey _ hv := hv
  black _ hv := hv
  cycle hr := by cases hr
  broken hr := by cases hr
  done _ v hv := List.mem_singleton.mp hv ▸ ht
  restored _ _ hv := hv

/-- A search that meets a grey vertex: it is on its own way, or reaches a cycle anyway. -/
theorem atGrey (h : Coloured graph g col) (hgrey : Grey graph g col t)
    (hvertex : graph.containsVertex g t = true) (ht : col t = some .grey) :
    Searched graph g col col [t] true where
  coloured := h
  white _ hv := hv
  grey _ hv := hv
  black _ hv := hv
  cycle _ := ⟨t, List.mem_singleton_self t, (hgrey t hvertex ht).elim id ReachesCycle.self, ht⟩
  broken _ _ hv := Or.inl hv
  done hr := by cases hr
  restored hr := by cases hr

/-- The search of a vertex breaks off when it finds a cycle, so the others are not searched. -/
theorem stop (h : Searched graph g col col' [t] true) : Searched graph g col col' (t :: ts) true where
  coloured := h.coloured
  white := h.white
  grey := h.grey
  black := h.black
  cycle hr := by
    obtain ⟨v, hv, hcycle⟩ := h.cycle hr
    exact ⟨v, List.mem_cons.mpr (Or.inl (List.mem_singleton.mp hv)), hcycle⟩
  broken := h.broken
  done hr := by cases hr
  restored hr := by cases hr

/-- A vertex is searched without a cycle, then the others. -/
theorem cons (h : Searched graph g col col' [t] false) (h' : Searched graph g col' col'' ts r) :
    Searched graph g col col'' (t :: ts) r where
  coloured := h'.coloured
  white v hv := h.white v (h'.white v hv)
  grey v hv := h'.grey v (h.grey v hv)
  black v hv := h'.black v (h.black v hv)
  cycle hr := by
    obtain ⟨v, hv, hcycle⟩ := h'.cycle hr
    exact ⟨v, List.mem_cons_of_mem t hv, hcycle⟩
  broken hr v hv := (h'.broken hr v hv).imp_left (h.restored rfl v)
  done hr v hv := by
    rcases List.mem_cons.mp hv with rfl | hv
    · exact h'.black v (h.done rfl v (List.mem_singleton_self v))
    · exact h'.done hr v hv
  restored hr v hv := h.restored rfl v (h'.restored hr v hv)

end Searched

theorem Grey.mono {col col' : K → Option Colour} (h : Grey graph g col t)
    (hcol : ∀ v, col' v = some .grey → col v = some .grey) : Grey graph g col' t :=
  fun v hv hgrey => h v hv (hcol v hgrey)

/-- How many vertices are white, a bound for the depth of a search. -/
def whites (graph : GraphOps G K) (g : G) (col : K → Option Colour) : Nat :=
  (graph.vertices g).countP fun v => col v = some .white

theorem whites_mono
    (h : ∀ v, col' v = some .white → col v = some .white) :
    whites graph g col' ≤ whites graph g col :=
  List.countP_mono_left fun v _ hv => by simpa using h v (by simpa using hv)

/-- Between two calls of `tricolor` every grey vertex reaches a cycle. -/
structure Rest (graph : GraphOps G K) (g : G) (col : K → Option Colour) : Prop where
  coloured : Coloured graph g col
  grey : ∀ v, graph.containsVertex g v = true → col v = some .grey →
    ReachesCycle (graph.Edge g) v

/-- A call between two others. -/
theorem Searched.rest (h : Searched graph g col col' [t] r) (hrest : Rest graph g col) : Rest graph g col' := by
  refine ⟨h.coloured, fun v hv hgrey => ?_⟩
  cases r with
  | false => exact hrest.grey v hv (h.restored rfl v hgrey)
  | true => exact (h.broken rfl v hgrey).elim (hrest.grey v hv) id

/-- A call returns `1` for a vertex that reaches a cycle, which stays grey. -/
theorem Searched.result (h : Searched graph g col col' [t] r) : (r = true ↔ ReachesCycle (graph.Edge g) t) ∧
      col' t = if r then some .grey else some .black := by
  cases r with
  | false =>
    have hblack := h.done rfl t (List.mem_singleton_self t)
    exact ⟨iff_of_false (by decide) (h.coloured.clear t hblack), hblack⟩
  | true =>
    obtain ⟨v, hv, hcycle, hgrey⟩ := h.cycle rfl
    obtain rfl := List.mem_singleton.mp hv
    exact ⟨iff_of_true rfl hcycle, hgrey⟩

/-! ## One vertex changes -/

variable [DecidableEq K]

/-- A vertex that is white before becomes grey. -/
theorem Coloured.grey (h : Coloured graph g col) (ht : col t = some .white) :
    Coloured graph g (Function.update col t (some .grey)) := by
  have hblack : ∀ v, Function.update col t (some .grey) v = some .black → col v = some .black := by
    intro v hv
    by_cases hvt : v = t
    · subst hvt
      rw [Function.update_self] at hv
      cases hv
    · rwa [Function.update_of_ne hvt] at hv
  refine ⟨fun v hv => ?_, fun v w hv hedge => ?_, fun v hv => h.clear v (hblack v hv)⟩
  · by_cases hvt : v = t
    · rw [hvt, Function.update_self]
      rfl
    · rw [Function.update_of_ne hvt]
      exact h.total v hv
  · have hw := h.closed v w (hblack v hv) hedge
    have hwt : w ≠ t := by
      rintro rfl
      rw [ht] at hw
      cases hw
    rwa [Function.update_of_ne hwt]

/-- A vertex whose successors are black becomes black. -/
theorem Coloured.black (h : Coloured graph g col) (ht : col t ≠ some .black)
    (hsucc : ∀ w, graph.Edge g t w → col w = some .black) :
    Coloured graph g (Function.update col t (some .black)) := by
  have hclear : ¬ ReachesCycle (graph.Edge g) t := by
    intro hcycle
    rcases hcycle.cases_head with hself | ⟨w, hw, hcycle⟩
    · obtain ⟨w, hw, hback⟩ := TransGen.head'_iff.mp hself
      exact ht (h.black_of_reflTransGen (hsucc w hw) hback)
    · exact h.clear w (hsucc w hw) hcycle
  refine ⟨fun v hv => ?_, fun v w hv hedge => ?_, fun v hv => ?_⟩
  · by_cases hvt : v = t
    · rw [hvt, Function.update_self]
      rfl
    · rw [Function.update_of_ne hvt]
      exact h.total v hv
  · by_cases hwt : w = t
    · rw [hwt, Function.update_self]
    · rw [Function.update_of_ne hwt]
      by_cases hvt : v = t
      · exact hsucc w (hvt ▸ hedge)
      · rw [Function.update_of_ne hvt] at hv
        exact h.closed v w hv hedge
  · by_cases hvt : v = t
    · exact hvt ▸ hclear
    · rw [Function.update_of_ne hvt] at hv
      exact h.clear v hv

/-- The children of a grey vertex are searched with it on the way. -/
theorem Grey.child (h : Grey graph g col t) {w : K} (hw : graph.Edge g t w) :
    Grey graph g (Function.update col t (some .grey)) w := by
  intro v hv hgrey
  by_cases hvt : v = t
  · exact Or.inr (TransGen.single (hvt ▸ hw))
  · rw [Function.update_of_ne hvt] at hgrey
    exact (h v hv hgrey).imp_right fun hway => hway.tail hw

/-- The search of a white vertex goes through its children and breaks off at a cycle. -/
theorem Searched.ofChildren {cs : List K} (ht : col t = some .white)
    (hcs : ∀ c ∈ cs, graph.Edge g t c)
    (h : Searched graph g (Function.update col t (some .grey)) col' cs true) :
    Searched graph g col col' [t] true := by
  obtain ⟨c, hc, hcycle, -⟩ := h.cycle rfl
  have hreach : ReachesCycle (graph.Edge g) t :=
    ReachesCycle.of_reflTransGen (ReflTransGen.single (hcs c hc)) hcycle
  have hgrey := h.grey t (Function.update_self ..)
  have hne : ∀ {v : K} {c : Colour}, c ≠ .white → col v = some c → v ≠ t := by
    rintro v c hc hv rfl
    exact hc (Option.some.inj (hv.symm.trans ht))
  refine ⟨h.coloured, fun v hv => ?_, fun v hv => ?_, fun v hv => ?_, fun _ =>
    ⟨t, List.mem_singleton_self t, hreach, hgrey⟩, fun _ v hv => ?_,
    fun hr => Bool.noConfusion hr, fun hr => Bool.noConfusion hr⟩
  · have hvt : v ≠ t := by
      rintro rfl
      rw [hgrey] at hv
      cases hv
    have hbefore := h.white v hv
    rwa [Function.update_of_ne hvt] at hbefore
  · refine h.grey v ?_
    rwa [Function.update_of_ne (hne (by decide) hv)]
  · refine h.black v ?_
    rwa [Function.update_of_ne (hne (by decide) hv)]
  · by_cases hvt : v = t
    · exact Or.inr (hvt ▸ hreach)
    · have hbefore := h.broken rfl v hv
      rwa [Function.update_of_ne hvt] at hbefore

/-- The search of a white vertex whose children are all without a cycle. -/
theorem Searched.finish {cs : List K} (ht : col t = some .white)
    (hcs : ∀ c, graph.Edge g t c → c ∈ cs)
    (h : Searched graph g (Function.update col t (some .grey)) col' cs false) :
    Searched graph g col (Function.update col' t (some .black)) [t] false := by
  have hgrey := h.grey t (Function.update_self ..)
  have hne : ∀ {v : K} {c : Colour}, c ≠ .white → col v = some c → v ≠ t := by
    rintro v c hc hv rfl
    exact hc (Option.some.inj (hv.symm.trans ht))
  refine ⟨h.coloured.black (by rw [hgrey]; decide) fun w hw => h.done rfl w (hcs w hw),
    fun v hv => ?_, fun v hv => ?_, fun v hv => ?_, fun hr => Bool.noConfusion hr,
    fun hr => Bool.noConfusion hr, fun _ v hv => ?_, fun _ v hv => ?_⟩
  · have hvt : v ≠ t := by
      rintro rfl
      rw [Function.update_self] at hv
      cases hv
    rw [Function.update_of_ne hvt] at hv
    have hbefore := h.white v hv
    rwa [Function.update_of_ne hvt] at hbefore
  · have hvt := hne (by decide) hv
    rw [Function.update_of_ne hvt]
    refine h.grey v ?_
    rwa [Function.update_of_ne hvt]
  · have hvt := hne (by decide) hv
    rw [Function.update_of_ne hvt]
    refine h.black v ?_
    rwa [Function.update_of_ne hvt]
  · rw [List.mem_singleton.mp hv, Function.update_self]
  · have hvt : v ≠ t := by
      rintro rfl
      rw [Function.update_self] at hv
      cases hv
    rw [Function.update_of_ne hvt] at hv
    have hbefore := h.restored rfl v hv
    rwa [Function.update_of_ne hvt] at hbefore

end Colours

/-! ## Runs -/

section Runs

variable {G D K : Type} {graph : GraphOps G K} {dict : DictOps D K Colour} {g : G} {mp : D} {t : K}

/-- **The loop over the children.** -/
theorem searchChildren_spec {search : D → K → Option (Bool × D)} {fuel : Nat}
    (hsearch : ∀ mp t, Coloured graph g (dict.get mp) → graph.containsVertex g t = true →
      Grey graph g (dict.get mp) t → whites graph g (dict.get mp) < fuel →
      ∃ r mp', search mp t = some (r, mp') ∧
        Searched graph g (dict.get mp) (dict.get mp') [t] r)
    (cs : List K) (mp : D) (h : Coloured graph g (dict.get mp))
    (hcs : ∀ c ∈ cs, graph.containsVertex g c = true ∧ Grey graph g (dict.get mp) c)
    (hfuel : whites graph g (dict.get mp) < fuel) :
    ∃ r mp', searchChildren search mp cs = some (r, mp') ∧
      Searched graph g (dict.get mp) (dict.get mp') cs r := by
  induction cs generalizing mp with
  | nil => exact ⟨false, mp, rfl, Searched.nil h⟩
  | cons c cs ih =>
    obtain ⟨hvertex, hgrey⟩ := hcs c List.mem_cons_self
    obtain ⟨r, mp₁, hrun, hfirst⟩ := hsearch mp c h hvertex hgrey hfuel
    cases r with
    | true =>
      refine ⟨true, mp₁, ?_, hfirst.stop⟩
      rw [searchChildren, hrun]
      rfl
    | false =>
      obtain ⟨r, mp₂, hrest, hsearched⟩ := ih mp₁ hfirst.coloured (fun c' hc' =>
        ⟨(hcs c' (List.mem_cons_of_mem c hc')).1,
          (hcs c' (List.mem_cons_of_mem c hc')).2.mono (hfirst.restored rfl)⟩)
        (lt_of_le_of_lt (whites_mono hfirst.white) hfuel)
      refine ⟨r, mp₂, ?_, hfirst.cons hsearched⟩
      rw [searchChildren, hrun]
      exact hrest

variable [DecidableEq K]

/-- A vertex that becomes grey is no longer counted. -/
theorem whites_grey (hg : GraphLaws graph) {col : K → Option Colour}
    (hvertex : graph.containsVertex g t = true) (ht : col t = some .white) :
    whites graph g (Function.update col t (some .grey)) < whites graph g col := by
  obtain ⟨pre, post, hsplit⟩ := List.append_of_mem ((hg.mem_vertices g t).mpr hvertex)
  have hmono : ∀ vs : List K,
      vs.countP (fun v => Function.update col t (some .grey) v = some .white) ≤
        vs.countP fun v => col v = some .white := by
    refine fun vs => List.countP_mono_left fun v _ hv => ?_
    rw [decide_eq_true_eq] at hv ⊢
    by_cases hvt : v = t
    · exact hvt ▸ ht
    · rwa [Function.update_of_ne hvt] at hv
  have hpre := hmono pre
  have hpost := hmono post
  rw [whites, whites, hsplit, List.countP_append, List.countP_append, List.countP_cons,
    List.countP_cons]
  simp only [Function.update_self, ht, decide_true, if_true]
  rw [if_neg (by decide)]
  omega

theorem get_set (hdict : DictLaws dict) (c : Colour) :
    dict.get (dict.set mp t c) = Function.update (dict.get mp) t (some c) := by
  funext v
  rw [hdict.get_set, Function.update_apply]

/-- **The search from one vertex.** With more fuel than there are white vertices it ends. -/
theorem tricolor_spec (hg : GraphLaws graph) (hdict : DictLaws dict) (fuel : Nat) :
    ∀ mp t, Coloured graph g (dict.get mp) → graph.containsVertex g t = true →
      Grey graph g (dict.get mp) t → whites graph g (dict.get mp) < fuel →
      ∃ r mp', tricolor graph dict g fuel mp t = some (r, mp') ∧
        Searched graph g (dict.get mp) (dict.get mp') [t] r := by
  induction fuel with
  | zero =>
    intro mp t _ _ _ hfuel
    exact absurd hfuel (Nat.not_lt_zero _)
  | succ fuel ih =>
    intro mp t h hvertex hgrey hfuel
    obtain ⟨c, hc⟩ := Option.isSome_iff_exists.mp (h.total t hvertex)
    cases c with
    | grey =>
      refine ⟨true, mp, ?_, Searched.atGrey h hgrey hvertex hc⟩
      rw [tricolor, hc]
      rfl
    | black =>
      refine ⟨false, mp, ?_, Searched.atBlack h hc⟩
      rw [tricolor, hc]
      rfl
    | white =>
      have hcs : ∀ c, c ∈ graph.neighbors g t ↔ graph.Edge g t c :=
        fun c => hg.mem_neighbors g t c hvertex
      have hmark : dict.get (dict.set mp t .grey) =
          Function.update (dict.get mp) t (some .grey) := get_set hdict .grey
      obtain ⟨r, mp₁, hrun, hsearched⟩ := searchChildren_spec ih (graph.neighbors g t)
        (dict.set mp t .grey) (hmark ▸ h.grey hc)
        (fun c hc' => ⟨((hcs c).mp hc').2.1, hmark ▸ hgrey.child ((hcs c).mp hc')⟩)
        (by have := whites_grey hg hvertex hc; rw [hmark]; omega)
      rw [hmark] at hsearched
      cases r with
      | true =>
        refine ⟨true, mp₁, ?_, hsearched.ofChildren hc fun c => (hcs c).mp⟩
        rw [tricolor, hc]
        simp only [Option.bind_eq_bind, Option.bind_some, hrun, if_true]
      | false =>
        refine ⟨false, dict.set mp₁ t .black, ?_, ?_⟩
        · rw [tricolor, hc]
          simp only [Option.bind_eq_bind, Option.bind_some, hrun, Bool.false_eq_true, if_false]
        · rw [get_set hdict]
          exact hsearched.finish hc fun c => (hcs c).mpr

/-- **All goals.** What a call colours a goal with stays. -/
theorem searchGoals_spec (hg : GraphLaws graph) (hdict : DictLaws dict) {fuel : Nat}
    (hfuel : (graph.vertices g).length < fuel) (goals : List K) (mp : D)
    (hgoals : ∀ t ∈ goals, graph.containsVertex g t = true) (h : Rest graph g (dict.get mp)) :
    ∃ results mp', searchGoals graph dict g fuel mp goals = some (results, mp') ∧
      Rest graph g (dict.get mp') ∧
      (∀ v, dict.get mp v = some .grey → dict.get mp' v = some .grey) ∧
      (∀ v, dict.get mp v = some .black → dict.get mp' v = some .black) ∧
      List.Forall₂ (fun t r => (r = true ↔ ReachesCycle (graph.Edge g) t) ∧
        dict.get mp' t = if r then some .grey else some .black) goals results := by
  induction goals generalizing mp with
  | nil => exact ⟨[], mp, rfl, h, fun _ hv => hv, fun _ hv => hv, .nil⟩
  | cons t goals ih =>
    have hwhites : whites graph g (dict.get mp) < fuel := lt_of_le_of_lt List.countP_le_length hfuel
    obtain ⟨r, mp₁, hrun, hsearched⟩ := tricolor_spec hg hdict fuel mp t h.coloured
      (hgoals t List.mem_cons_self) (fun v hv hgrey => Or.inl (h.grey v hv hgrey)) hwhites
    obtain ⟨results, mp₂, hruns, hrest, hgrey, hblack, hall⟩ := ih mp₁
      (fun t' ht' => hgoals t' (List.mem_cons_of_mem t ht')) (hsearched.rest h)
    obtain ⟨hresult, hcol⟩ := hsearched.result
    refine ⟨r :: results, mp₂, ?_, hrest, fun v hv => hgrey v (hsearched.grey v hv),
      fun v hv => hblack v (hsearched.black v hv), .cons ⟨hresult, ?_⟩ hall⟩
    · rw [searchGoals, hrun]
      simp only [Option.bind_eq_bind, Option.bind_some, hruns]
    · cases r with
      | false => exact hblack t hcol
      | true => exact hgrey t hcol

/-- The map that `parmake` begins with has every vertex white. -/
theorem get_whiteMap (hg : GraphLaws graph) (hdict : DictLaws dict) {v : K}
    (hv : graph.containsVertex g v = true) :
    dict.get (whiteMap graph dict g) v = some .white := by
  have hfold : ∀ (nodes : List K) (mp : D), v ∈ nodes ∨ dict.get mp v = some .white →
      dict.get (nodes.foldl (fun mp node => dict.set mp node .white) mp) v = some .white := by
    intro nodes
    induction nodes with
    | nil => exact fun mp h => h.resolve_left List.not_mem_nil
    | cons node nodes ih =>
      intro mp h
      refine ih (dict.set mp node .white) ?_
      rw [hdict.get_set]
      by_cases heq : v = node
      · exact Or.inr (if_pos heq)
      · rw [if_neg heq]
        exact h.imp_left fun hmem => (List.mem_cons.mp hmem).resolve_left heq
  exact hfold _ _ (Or.inl ((hg.mem_vertices g v).mpr hv))

/-- **Cycle detection with one map of colours.** Running `tricolor` on the goals one after
another, with all vertices white to begin with, every call ends and returns `1` exactly if its
goal reaches a cycle. Afterwards the goals that are not grey are those that reach no cycle, and
no grey vertex is reached from them. -/
theorem tricolor_goals (hg : GraphLaws graph) (hdict : DictLaws dict) {goals : List K}
    (hwhite : ∀ v, graph.containsVertex g v = true → dict.get mp v = some .white)
    (hgoals : ∀ t ∈ goals, graph.containsVertex g t = true) {fuel : Nat}
    (hfuel : (graph.vertices g).length < fuel) :
    ∃ results mp', searchGoals graph dict g fuel mp goals = some (results, mp') ∧
      List.Forall₂ (fun t r => r = true ↔ ReachesCycle (graph.Edge g) t) goals results ∧
      (∀ t ∈ goals, dict.get mp' t ≠ some .grey ↔ ¬ ReachesCycle (graph.Edge g) t) ∧
      ∀ t ∈ goals, dict.get mp' t ≠ some .grey →
        ∀ v, ReflTransGen (graph.Edge g) t v → dict.get mp' v ≠ some .grey := by
  have hvertex : ∀ {v w}, graph.Edge g v w → dict.get mp v ≠ some .black := by
    intro v w hedge hblack
    rw [hwhite v hedge.1] at hblack
    cases hblack
  have hrest : Rest graph g (dict.get mp) := by
    refine ⟨⟨fun v hv => by rw [hwhite v hv]; rfl, fun v w hv hedge => absurd hv (hvertex hedge),
      fun v hv hcycle => ?_⟩, fun v hv hgrey => ?_⟩
    · rcases hcycle.cases_head with hself | ⟨w, hedge, -⟩
      · obtain ⟨w, hedge, -⟩ := TransGen.head'_iff.mp hself
        exact hvertex hedge hv
      · exact hvertex hedge hv
    · rw [hwhite v hv] at hgrey
      cases hgrey
  obtain ⟨results, mp', hrun, hrest', -, -, hall⟩ :=
    searchGoals_spec hg hdict hfuel goals mp hgoals hrest
  have hgoal : ∀ t ∈ goals, dict.get mp' t ≠ some .grey ↔ ¬ ReachesCycle (graph.Edge g) t := by
    intro t ht
    obtain ⟨⟨i, hi⟩, rfl⟩ := List.get_of_mem ht
    obtain ⟨hresult, hcol⟩ := hall.get hi (hall.length_eq ▸ hi)
    rw [hcol, ← hresult]
    cases results.get ⟨i, hall.length_eq ▸ hi⟩ <;> decide
  refine ⟨results, mp', hrun, List.Forall₂.imp (fun _ _ h => h.1) hall, hgoal, fun t ht hclear v htv hgrey => ?_⟩
  have hv : graph.containsVertex g v = true := by
    rcases ReflTransGen.cases_tail htv with rfl | ⟨u, -, hedge⟩
    · exact hgoals v ht
    · exact hedge.2.1
  exact (hgoal t ht).mp hclear (ReachesCycle.of_reflTransGen htv (hrest'.grey v hv hgrey))

end Runs

/-- Four rules: `0` and `1` need each other, `2` needs `3`. -/
def twoComponents : List Nat × List (Nat × Nat) := ([0, 1, 2, 3], [(0, 1), (1, 0), (2, 3)])

theorem tricolor_goals_twoComponents : ∃ results mp',
    searchGoals listGraph listDict twoComponents 5 (whiteMap listGraph listDict twoComponents)
        [0, 2, 1] = some (results, mp') ∧
      results = [true, false, true] ∧
      (listDict.get mp' 2 ≠ some .grey ↔
        ¬ ReachesCycle (listGraph.Edge twoComponents) (2 : Nat)) ∧
      listDict.get mp' 3 ≠ some .grey := by
  obtain ⟨results, mp', hrun, -, hclear, hreached⟩ := tricolor_goals (g := twoComponents)
    listGraph_laws listDict_laws (fun v hv => get_whiteMap listGraph_laws listDict_laws hv)
    (show ∀ t ∈ [0, 2, 1], listGraph.containsVertex twoComponents t = true by decide)
    (show _ < 5 by decide)
  have hresults : (searchGoals listGraph listDict twoComponents 5
      (whiteMap listGraph listDict twoComponents) [0, 2, 1]).map (fun s =>
        (s.1, listDict.get s.2 2)) = some ([true, false, true], some .black) := by
    decide
  rw [hrun, Option.map_some, Option.some.injEq, Prod.mk.injEq] at hresults
  refine ⟨results, mp', hrun, hresults.1, hclear 2 (by decide), ?_⟩
  refine hreached 2 (by decide) (by rw [hresults.2]; decide) 3 (ReflTransGen.single ?_)
  rw [listGraph_edge]
  decide

end SystemProgramming.ParallelMake
