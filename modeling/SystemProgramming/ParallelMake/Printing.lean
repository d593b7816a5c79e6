import SystemProgramming.ParallelMake.Parser

/-!
# Printed makefiles

A makefile is printed line by line: the first line of a rule has its target and its dependencies,
and each command of the rule has a line that begins with a tab. Lines may end with blanks, and
blank lines and comments may stand anywhere. The parser gets back what was printed.

While the lines are read, the graph and the heap show the rules printed so far: each vertex has
a rule of its own, which has the commands so far. A rule whose state is not zero has commands, so
the first command of a block never meets an earlier block.

## Main definitions

* `Name`, `Target`, `Command`, `MakeRule`: what can be printed
* `Printed rules lines`: the lines print the rules
* `Represents`: the graph of rules and goals

## Main results

* `parseLine_between`, `parseLine_command`, `parseLine_rule`: what is left of a line
* `Built.of_printed`: the state after the lines
* `parse_printed`: parsing gets back what was printed
-/

namespace SystemProgramming.ParallelMake

open Ctype

/-! ## Printing -/

/-- The name of a target or of a dependency. -/
structure Name where
  bytes : List UInt8
  ne_nil : bytes ≠ []
  plain : ∀ c ∈ bytes, isSpace c = false ∧ c ≠ 58 ∧ c ≠ 35 ∧ c ≠ 0

/-- A name that begins with a letter, a digit, `'.'` or `'/'`. -/
structure Target extends Name where
  first : ∃ c ∈ bytes.head?, isAlpha c = true ∨ isDigit c = true ∨ c = 46 ∨ c = 47

/-- A text on one line without blanks around it, and without `'#'`. -/
structure Trimmed (s : List UInt8) : Prop where
  ne_nil : s ≠ []
  first : ∀ c ∈ s.head?, isSpace c = false
  last : ∀ c ∈ s.getLast?, isSpace c = false
  plain : ∀ c ∈ s, c ≠ 10 ∧ c ≠ 35 ∧ c ≠ 0

/-- A command of a rule. -/
structure Command where
  bytes : List UInt8
  trimmed : Trimmed bytes

/-- A rule of a makefile. -/
structure MakeRule where
  target : Target
  dependencies : List Name
  commands : List Command

/-- Blanks on one line. -/
def Blank (s : List UInt8) : Prop := ∀ c ∈ s, isSpace c = true ∧ c ≠ 10

/-- A line between those of the rules: blanks, or a comment. -/
inductive Between : List UInt8 → Prop
  | blank {s} (hs : Blank s) : Between s
  | comment {s t} (hs : Blank s) (ht : 10 ∉ t) : Between (s ++ 35 :: t)

/-- The first line of a rule. -/
def firstLine (target : Target) (dependencies : List Name) : List UInt8 :=
  target.bytes ++ 58 :: dependencies.flatMap fun d => 32 :: d.bytes

/-- The lines of a makefile without their newlines, printed one after the other. -/
inductive Printed : List MakeRule → List (List UInt8) → Prop
  | nil : Printed [] []
  | between {rules lines line} (h : Printed rules lines) (hline : Between line) :
      Printed rules (lines ++ [line])
  | rule {rules lines target dependencies blanks} (h : Printed rules lines) (hb : Blank blanks) :
      Printed (rules ++ [⟨target, dependencies, []⟩])
        (lines ++ [firstLine target dependencies ++ blanks])
  | command {rules lines target dependencies commands command blanks}
      (h : Printed (rules ++ [⟨target, dependencies, commands⟩]) lines) (hb : Blank blanks) :
      Printed (rules ++ [⟨target, dependencies, commands ++ [command]⟩])
        (lines ++ [9 :: command.bytes ++ blanks])

/-! ## What is left of a line -/

section Passes

variable {s t w : List UInt8}

theorem Blank.ne_zero (h : Blank s) : ∀ c ∈ s, decide (c ≠ 0) = true := by
  intro c hc
  refine decide_eq_true fun hzero => ?_
  have hspace := (h c hc).1
  rw [hzero] at hspace
  cases hspace

/-- Blanks at the end go, with the newline. -/
theorem strip_removeNewline (s : List UInt8) :
    stripBackWhitespace ((removeNewline (s ++ [10])).takeWhile (· ≠ 0)) =
      stripBackWhitespace (s.takeWhile (· ≠ 0)) := by
  rw [removeNewline, if_pos List.getLast?_concat, List.dropLast_concat]
  dsimp only
  split_ifs with hlast
  · obtain ⟨r, rfl⟩ := List.getLast?_eq_some_iff.mp hlast
    rw [List.dropLast_concat, List.takeWhile_append]
    split_ifs with hlen
    · have hself : r.takeWhile (· ≠ 0) = r :=
        (List.takeWhile_prefix _).eq_of_length hlen
      rw [hself]
      exact (List.rdropWhile_concat_pos isSpace r 13 rfl).symm
    · rfl
  · rfl

theorem strip_blanks (ht : Blank t) : stripBackWhitespace (s ++ t) = stripBackWhitespace s := by
  induction t using List.reverseRecOn with
  | nil => rw [List.append_nil]
  | append_singleton t c ih =>
    rw [← List.append_assoc, stripBackWhitespace,
      List.rdropWhile_concat_pos _ _ _ (ht c (by simp)).1]
    exact ih fun d hd => ht d (List.mem_append_left _ hd)

theorem strip_of_last (hne : w ≠ []) (hlast : ∀ c ∈ w.getLast?, isSpace c = false) :
    stripBackWhitespace (s ++ w) = s ++ w := by
  obtain ⟨w, c, rfl⟩ := (List.eq_nil_or_concat' w).resolve_left hne
  have hc : isSpace c = false := hlast c (by simp)
  rw [← List.append_assoc, stripBackWhitespace, List.rdropWhile_concat_neg _ _ _ (by simp [hc])]

/-- A byte that is no blank is not stripped. -/
theorem strip_append_cons {c : UInt8} (hc : isSpace c = false) (t : List UInt8) :
    ∃ t', stripBackWhitespace (s ++ c :: t) = s ++ c :: t' := by
  induction t using List.reverseRecOn with
  | nil => exact ⟨[], strip_of_last (by simp) (by simpa using hc)⟩
  | append_singleton t d ih =>
    have hsplit : s ++ c :: (t ++ [d]) = (s ++ c :: t) ++ [d] := by simp
    rw [hsplit, stripBackWhitespace, List.rdropWhile_concat]
    split_ifs
    · exact ih
    · exact ⟨t ++ [d], by simp⟩

theorem skipWhitespace_append (hs : Blank s) (hw : ∀ c ∈ w.head?, isSpace c = false) :
    skipWhitespace (s ++ w) = s.length := by
  induction s with
  | nil =>
    cases w with
    | nil => rfl
    | cons c w => simp [skipWhitespace, hw c rfl]
  | cons c s ih =>
    rw [List.cons_append, skipWhitespace, if_neg (by simp [(hs c List.mem_cons_self).1]),
      ih fun d hd => hs d (List.mem_cons_of_mem c hd), List.length_cons]

theorem findComment_eq_none (h : 35 ∉ t) (i : Nat) : findComment s i t = none := by
  induction t generalizing i with
  | nil => rfl
  | cons c t ih =>
    rw [List.mem_cons, not_or] at h
    rw [findComment, if_neg (Ne.symm h.1), ih h.2]

theorem stripBackComments_of_notMem (h : 35 ∉ s) : stripBackComments s = s := by
  rw [stripBackComments, findComment_eq_none h]

theorem stripBackComments_comment (t : List UInt8) : stripBackComments (35 :: t) = [] := rfl

theorem findWhitespace_of_forall (h : ∀ c ∈ s, isSpace c = false) :
    findWhitespace s = s.length := by
  induction s with
  | nil => rfl
  | cons c s ih =>
    rw [findWhitespace, if_neg (by simp [h c List.mem_cons_self]),
      ih fun d hd => h d (List.mem_cons_of_mem c hd), List.length_cons]

/-- The tokens of names that are printed with a space before each. -/
theorem splitLineOnSpaces_names (names : List Name) :
    splitLineOnSpaces (names.flatMap fun d => 32 :: d.bytes) = names.map Name.bytes := by
  have hskip : ∀ rest : List UInt8, runs (· = 32) (32 :: rest) = runs (· = 32) rest := by
    intro rest
    have hcons : runs (· = 32) ([] ++ 32 :: rest) = _ := runs_append_cons (· = 32) [] rest rfl
    rwa [List.nil_append, runs_nil, List.nil_append] at hcons
  rw [splitLineOnSpaces_eq]
  induction names with
  | nil => exact runs_nil _
  | cons d names ih =>
    have hd : ∀ c ∈ d.bytes, decide (c = 32) = false := by
      intro c hc
      refine decide_eq_false fun heq => ?_
      have hspace := (d.plain c hc).1
      rw [heq] at hspace
      cases hspace
    have hrun : runs (· = 32) d.bytes = [d.bytes] := runs_of_forall d.ne_nil hd
    rw [List.flatMap_cons, List.cons_append, hskip, List.map_cons, ← ih]
    cases names with
    | nil => rw [List.flatMap_nil, List.append_nil, hrun, runs_nil]
    | cons e names =>
      rw [List.flatMap_cons, List.cons_append, runs_append_cons _ _ _ (by simp), hrun, hskip]
      rfl

end Passes

section Lines

variable {G : Type} {ops : ValueGraphOps G (List UInt8) Nat}
  {makeFileName lead w blanks : List UInt8}

/-- The parser after it has counted a line. -/
def Parser.count (s : Parser G) : Parser G :=
  { s with lineNumber := (s.lineNumber + 1) % 2 ^ 64 }

/-- The first line of a rule has no blanks around it. -/
theorem trimmed_firstLine (target : Target) (dependencies : List Name) :
    Trimmed (firstLine target dependencies) where
  ne_nil := by simp [firstLine]
  first := by
    obtain ⟨c, bytes, hbytes⟩ := List.exists_cons_of_ne_nil target.ne_nil
    intro d hd
    rw [firstLine, hbytes] at hd
    obtain rfl : c = d := by simpa using hd
    exact (target.plain c (by rw [hbytes]; exact List.mem_cons_self)).1
  last := by
    intro c hc
    rcases List.eq_nil_or_concat' dependencies with rfl | ⟨dependencies, d, rfl⟩
    · obtain rfl : 58 = c := by simpa [firstLine] using hc
      rfl
    · obtain ⟨bytes, e, hbytes⟩ := (List.eq_nil_or_concat' d.bytes).resolve_left d.ne_nil
      have hsplit : firstLine target (dependencies ++ [d]) =
          target.bytes ++ 58 :: (dependencies.flatMap (fun d => 32 :: d.bytes) ++ 32 :: bytes) ++
            [e] := by
        simp [firstLine, hbytes]
      rw [hsplit, List.getLast?_concat] at hc
      obtain rfl : e = c := Option.some.inj hc
      exact (d.plain e (by simp [hbytes])).1
  plain := by
    have hname : ∀ (n : Name), ∀ c ∈ n.bytes, c ≠ 10 ∧ c ≠ 35 ∧ c ≠ 0 := by
      intro n c hc
      obtain ⟨hspace, -, hhash, hzero⟩ := n.plain c hc
      refine ⟨?_, hhash, hzero⟩
      rintro rfl
      cases hspace
    intro c hc
    rw [firstLine, List.mem_append, List.mem_cons, List.mem_flatMap] at hc
    rcases hc with hc | rfl | ⟨d, -, hc⟩
    · exact hname target.toName c hc
    · decide
    · rcases List.mem_cons.mp hc with rfl | hc
      · decide
      · exact hname d c hc

/-- A text between blanks is what the passes leave. -/
theorem passes_trimmed (hlead : Blank lead) (hw : Trimmed w) (hblanks : Blank blanks) :
    stripBackWhitespace ((removeNewline (lead ++ w ++ blanks ++ [10])).takeWhile (· ≠ 0)) =
        lead ++ w ∧
      skipWhitespace (lead ++ w) = lead.length ∧ stripBackComments w = w := by
  refine ⟨?_, skipWhitespace_append hlead hw.first,
    stripBackComments_of_notMem fun h => (hw.plain 35 h).2.1 rfl⟩
  have hall : ∀ c ∈ lead ++ w ++ blanks, decide (c ≠ 0) = true := by
    intro c hc
    simp only [List.mem_append] at hc
    rcases hc with (hc | hc) | hc
    · exact hlead.ne_zero c hc
    · exact decide_eq_true (hw.plain c hc).2.2
    · exact hblanks.ne_zero c hc
  rw [strip_removeNewline, List.takeWhile_eq_self_iff.mpr hall, strip_blanks hblanks,
    strip_of_last hw.ne_nil hw.last]

/-- **A line between those of the rules** is skipped. -/
theorem parseLine_between (s : Parser G) {line : List UInt8} (hline : Between line) :
    parseLine ops makeFileName s (line ++ [10]) = .ok s.count := by
  -- nothing is left of it
  suffices hnil : ∀ buf,
      buf = stripBackWhitespace ((removeNewline (line ++ [10])).takeWhile (· ≠ 0)) →
      stripBackComments (buf.drop (skipWhitespace buf)) = [] by
    rw [parseLine, if_pos (hnil _ rfl)]
    rfl
  rintro buf rfl
  rw [strip_removeNewline]
  cases hline with
  | blank hs =>
    have hself := List.takeWhile_eq_self_iff.mpr hs.ne_zero
    have hstrip : stripBackWhitespace ([] ++ line) = [] := strip_blanks hs
    rw [hself, ← List.nil_append line, hstrip]
    rfl
  | @comment lead t hs ht =>
    have hstring : (lead ++ 35 :: t).takeWhile (· ≠ 0) = lead ++ 35 :: t.takeWhile (· ≠ 0) := by
      rw [List.takeWhile_append_of_pos hs.ne_zero, List.takeWhile_cons_of_pos (by simp)]
    obtain ⟨t', ht'⟩ := strip_append_cons (s := lead) (c := 35) rfl (t.takeWhile (· ≠ 0))
    rw [hstring, ht', skipWhitespace_append hs (by simp [isSpace]), List.drop_left' rfl]
    exact stripBackComments_comment t'

/-- **A command line** is a recipe line. -/
theorem parseLine_command (s : Parser G) (command : Command) (hblanks : Blank blanks) :
    parseLine ops makeFileName s (9 :: command.bytes ++ blanks ++ [10]) =
      s.count.recipe makeFileName command.bytes := by
  have htab : Blank [9] := by simp [Blank, isSpace]
  obtain ⟨hstrip, hskip, hcomments⟩ := passes_trimmed htab command.trimmed hblanks
  have hline : 9 :: command.bytes ++ blanks ++ [10] = [9] ++ command.bytes ++ blanks ++ [10] := rfl
  have hhead : ([9] ++ command.bytes).head? = some 9 := rfl
  rw [hline, parseLine, hstrip, hskip, List.drop_left' rfl, hcomments,
    if_neg command.trimmed.ne_nil, List.take_left' rfl, if_pos hhead]
  rfl

/-- **The first line of a rule** is the start of a new rule. -/
theorem parseLine_rule (s : Parser G) (target : Target) (dependencies : List Name)
    (hblanks : Blank blanks) :
    parseLine ops makeFileName s (firstLine target dependencies ++ blanks ++ [10]) =
      s.count.newRule ops makeFileName (firstLine target dependencies) := by
  have htrimmed := trimmed_firstLine target dependencies
  have hnil : Blank [] := fun _ h => absurd h List.not_mem_nil
  obtain ⟨hstrip, hskip, hcomments⟩ := passes_trimmed hnil htrimmed hblanks
  obtain ⟨c, bytes, hbytes⟩ := List.exists_cons_of_ne_nil target.ne_nil
  obtain ⟨d, hd, hfirst⟩ := target.first
  obtain rfl : c = d := by simpa [hbytes] using hd
  have hhead : (firstLine target dependencies).head? = some c := by simp [firstLine, hbytes]
  have htab : (firstLine target dependencies).head? ≠ some 9 := by
    intro htab
    have hspace := htrimmed.first 9 htab
    cases hspace
  have htarget : isMakefileTarget (firstLine target dependencies) = true := by
    rw [isMakefileTarget, hhead]
    rcases hfirst with h | h | rfl | rfl
    · simp [h]
    · simp [h]
    · rfl
    · rfl
  simp only [List.nil_append] at hstrip hskip
  rw [parseLine, hstrip, hskip, List.length_nil, List.drop_zero, List.take_zero, hcomments,
    List.nil_append, if_neg htrimmed.ne_nil, if_neg htab, if_pos htarget]
  rfl

end Lines

/-! ## What the graph and the heap show -/

section Shows

variable {G : Type} {ops : ValueGraphOps G (List UInt8) Nat} {s s' : Parser G}
  {vertices : Set (List UInt8)} {edges : Set (List UInt8 × List UInt8)}
  {recipes : List UInt8 → List (List UInt8)} {k v a b : List UInt8}

/-- The rule of a vertex. -/
def Parser.rule (ops : ValueGraphOps G (List UInt8) Nat) (s : Parser G) (v : List UInt8) : Rule :=
  s.heap (ops.vertexValue s.graph v)

/-- The graph and the heap show vertices, edges, and commands of vertices. Each vertex has a rule
of its own, and a rule whose state is not zero has commands. -/
structure Shows (ops : ValueGraphOps G (List UInt8) Nat) (s : Parser G)
    (vertices : Set (List UInt8)) (edges : Set (List UInt8 × List UInt8))
    (recipes : List UInt8 → List (List UInt8)) : Prop where
  vertex : ∀ v, ops.containsVertex s.graph v = true ↔ v ∈ vertices
  edge : ∀ a b, ops.Edge s.graph a b ↔ (a, b) ∈ edges
  below : ∀ v ∈ vertices, ops.vertexValue s.graph v < s.fresh
  own : ∀ v ∈ vertices, ∀ w ∈ vertices,
    ops.vertexValue s.graph v = ops.vertexValue s.graph w → v = w
  target : ∀ v ∈ vertices, (s.rule ops v).target = v
  commands : ∀ v ∈ vertices, (s.rule ops v).commands = recipes v
  unstarted : ∀ v ∈ vertices, recipes v = [] → (s.rule ops v).state = 0

/-- The other variables of the parser are as before, and so are the pointers of the vertices. -/
structure Keeps (ops : ValueGraphOps G (List UInt8) Nat) (vertices : Set (List UInt8))
    (s s' : Parser G) : Prop where
  value : ∀ v ∈ vertices, ops.vertexValue s'.graph v = ops.vertexValue s.graph v
  firstTarget : s'.firstTarget = s.firstTarget
  currRule : s'.currRule = s.currRule
  inCommandBlock : s'.inCommandBlock = s.inCommandBlock

theorem Keeps.refl (s : Parser G) : Keeps ops vertices s s := ⟨fun _ _ => rfl, rfl, rfl, rfl⟩

theorem Keeps.trans {s'' : Parser G} {vertices' : Set (List UInt8)} (h : Keeps ops vertices s s')
    (h' : Keeps ops vertices' s' s'') (hsub : vertices ⊆ vertices') : Keeps ops vertices s s'' where
  value := fun v hv => (h'.value v (hsub hv)).trans (h.value v hv)
  firstTarget := h'.firstTarget.trans h.firstTarget
  currRule := h'.currRule.trans h.currRule
  inCommandBlock := h'.inCommandBlock.trans h.inCommandBlock

namespace Shows

variable (h : Shows ops s vertices edges recipes)
include h

/-- Only the graph and the heap count. -/
theorem congr (hgraph : s'.graph = s.graph) (hheap : s'.heap = s.heap)
    (hfresh : s'.fresh = s.fresh) : Shows ops s' vertices edges recipes := by
  have hrule : s'.rule ops = s.rule ops := by
    funext v
    rw [Parser.rule, Parser.rule, hgraph, hheap]
  constructor
  · exact hgraph ▸ h.vertex
  · exact hgraph ▸ h.edge
  · exact hgraph ▸ hfresh ▸ h.below
  · exact hgraph ▸ h.own
  · exact hrule ▸ h.target
  · exact hrule ▸ h.commands
  · exact hrule ▸ h.unstarted

variable (hops : ValueGraphLaws ops)
include hops

/-- A new vertex. -/
theorem setVertexValue (hk : k ∉ vertices) (hrecipe : recipes k = []) :
    Shows ops (s.setVertexValue ops k) (insert k vertices) edges recipes ∧
      Keeps ops vertices s (s.setVertexValue ops k) := by
  have hvalue : ∀ v ∈ vertices, ops.vertexValue (s.setVertexValue ops k).graph v =
      ops.vertexValue s.graph v := fun v hv =>
    hops.vertexValue_of_ne _ _ _ _ ((h.vertex v).mpr hv) fun heq => hk (heq ▸ hv)
  have hself : ops.vertexValue (s.setVertexValue ops k).graph k = s.fresh :=
    hops.vertexValue_self _ _ _
  have hrule : ∀ v ∈ vertices, (s.setVertexValue ops k).rule ops v = s.rule ops v := by
    intro v hv
    rw [Parser.rule, hvalue v hv]
    exact Function.update_of_ne (h.below v hv).ne _ _
  have hnew : (s.setVertexValue ops k).rule ops k = ⟨k, [], 0⟩ := by
    rw [Parser.rule, hself]
    exact Function.update_self ..
  refine ⟨⟨fun v => ?vertex, fun a b => ?edge, ?below, ?own, ?target, ?commands, ?unstarted⟩, ⟨hvalue, rfl, rfl, rfl⟩⟩
  case vertex =>
    rw [Set.mem_insert_iff, ← h.vertex v]
    exact hops.contains_setVertexValue _ _ _ _
  case edge =>
    rw [← h.edge a b]
    exact hops.edge_setVertexValue _ _ _ _ _
  case below =>
    rintro v (rfl | hv)
    · rw [hself]
      exact Nat.lt_succ_self _
    · rw [hvalue v hv]
      exact Nat.lt_succ_of_lt (h.below v hv)
  case own =>
    rintro v (rfl | hv) w (rfl | hw) heq
    · rfl
    · rw [hself, hvalue w hw] at heq
      exact absurd heq (h.below w hw).ne'
    · rw [hself, hvalue v hv] at heq
      exact absurd heq (h.below v hv).ne
    · rw [hvalue v hv, hvalue w hw] at heq
      exact h.own v hv w hw heq
  case target =>
    rintro v (rfl | hv)
    · rw [hnew]
    · rw [hrule v hv, h.target v hv]
  case commands =>
    rintro v (rfl | hv)
    · rw [hnew, hrecipe]
    · rw [hrule v hv, h.commands v hv]
  case unstarted =>
    rintro v (rfl | hv) hnone
    · rw [hnew]
    · rw [hrule v hv, h.unstarted v hv hnone]

/-- A vertex that may be there already. -/
theorem ensure (hrecipe : k ∉ vertices → recipes k = []) :
    Shows ops (if ops.containsVertex s.graph k then s else s.setVertexValue ops k)
        (insert k vertices) edges recipes ∧
      Keeps ops vertices s
        (if ops.containsVertex s.graph k then s else s.setVertexValue ops k) := by
  split_ifs with hk
  · rw [Set.insert_eq_of_mem ((h.vertex k).mp hk)]
    exact ⟨h, Keeps.refl s⟩
  · have hk' : k ∉ vertices := fun hmem => hk ((h.vertex k).mpr hmem)
    exact h.setVertexValue hops hk' (hrecipe hk')

/-- A new edge. -/
theorem addEdge (ha : a ∈ vertices) (hb : b ∈ vertices) :
    Shows ops { s with graph := ops.addEdge s.graph a b } vertices (insert (a, b) edges) recipes ∧
      Keeps ops vertices s { s with graph := ops.addEdge s.graph a b } := by
  have ha' := (h.vertex a).mpr ha
  have hb' := (h.vertex b).mpr hb
  have hvalue : ∀ v ∈ vertices, ops.vertexValue (ops.addEdge s.graph a b) v =
      ops.vertexValue s.graph v := fun v hv =>
    hops.vertexValue_addEdge _ _ _ _ ha' hb' ((h.vertex v).mpr hv)
  have hrule : ∀ v ∈ vertices,
      Parser.rule ops { s with graph := ops.addEdge s.graph a b } v = s.rule ops v := by
    intro v hv
    rw [Parser.rule, Parser.rule, hvalue v hv]
  refine ⟨⟨fun v => ?vertex, fun x y => ?edge, ?below, ?own, ?target, ?commands, ?unstarted⟩, ⟨hvalue, rfl, rfl, rfl⟩⟩
  case vertex =>
    rw [← h.vertex v]
    exact iff_of_eq (congrArg (· = true) (hops.contains_addEdge _ _ _ _ ha' hb'))
  case edge =>
    rw [Set.mem_insert_iff, ← h.edge x y, Prod.mk.injEq, or_comm]
    exact hops.edge_addEdge _ _ _ _ _ ha' hb'
  case below =>
    intro v hv
    rw [hvalue v hv]
    exact h.below v hv
  case own =>
    intro v hv w hw heq
    rw [hvalue v hv, hvalue w hw] at heq
    exact h.own v hv w hw heq
  case target =>
    intro v hv
    rw [hrule v hv, h.target v hv]
  case commands =>
    intro v hv
    rw [hrule v hv, h.commands v hv]
  case unstarted =>
    intro v hv hnone
    rw [hrule v hv, h.unstarted v hv hnone]

/-- The dependencies of a target. -/
theorem addDependencies (deps : List (List UInt8)) (ha : a ∈ vertices)
    (hrecipe : ∀ d ∉ vertices, recipes d = []) :
    Shows ops (deps.foldl (Parser.addDependency ops a) s) (vertices ∪ {d | d ∈ deps})
        (edges ∪ {e | e.1 = a ∧ e.2 ∈ deps}) recipes ∧
      Keeps ops vertices s (deps.foldl (Parser.addDependency ops a) s) := by
  induction deps generalizing s vertices edges with
  | nil => simpa using ⟨h, Keeps.refl s⟩
  | cons d deps ih =>
    obtain ⟨h₁, hkeeps₁⟩ := h.ensure hops (hrecipe d)
    obtain ⟨h₂, hkeeps₂⟩ := h₁.addEdge hops (Set.mem_insert_of_mem d ha) (Set.mem_insert d vertices)
    obtain ⟨h₃, hkeeps₃⟩ := ih h₂ (Set.mem_insert_of_mem d ha) fun e he =>
      hrecipe e fun hmem => he (Set.mem_insert_of_mem d hmem)
    have hvertices : insert d vertices ∪ {e | e ∈ deps} = vertices ∪ {e | e ∈ d :: deps} := by
      ext e
      simp only [Set.mem_union, Set.mem_insert_iff, Set.mem_ofPred_eq, List.mem_cons]
      tauto
    have hedges : insert (a, d) edges ∪ {e | e.1 = a ∧ e.2 ∈ deps} =
        edges ∪ {e | e.1 = a ∧ e.2 ∈ d :: deps} := by
      ext e
      simp only [Set.mem_union, Set.mem_insert_iff, Set.mem_ofPred_eq, List.mem_cons, Prod.ext_iff]
      tauto
    rw [hvertices, hedges] at h₃
    exact ⟨h₃, (hkeeps₁.trans hkeeps₂ (Set.subset_insert d vertices)).trans hkeeps₃
      (Set.subset_insert d vertices)⟩

omit hops

/-- Another rule for a vertex. -/
theorem write (hv : v ∈ vertices) {rule : Rule} (htarget : rule.target = v)
    (hstate : rule.commands = [] → rule.state = 0) (hgraph : s'.graph = s.graph)
    (hfresh : s'.fresh = s.fresh)
    (hheap : s'.heap = Function.update s.heap (ops.vertexValue s.graph v) rule) :
    Shows ops s' vertices edges (Function.update recipes v rule.commands) ∧
      s'.rule ops v = rule ∧ ∀ w ∈ vertices, w ≠ v → s'.rule ops w = s.rule ops w := by
  have hself : s'.rule ops v = rule := by
    rw [Parser.rule, hgraph, hheap, Function.update_self]
  have hother : ∀ w ∈ vertices, w ≠ v → s'.rule ops w = s.rule ops w := by
    intro w hw hne
    rw [Parser.rule, hgraph, hheap, Function.update_of_ne fun heq => hne (h.own w hw v hv heq)]
    rfl
  refine ⟨⟨hgraph ▸ h.vertex, hgraph ▸ h.edge, hgraph ▸ hfresh ▸ h.below, hgraph ▸ h.own, ?_, ?_,
    ?_⟩, hself, hother⟩
  · intro w hw
    by_cases hwv : w = v
    · rw [hwv, hself, htarget]
    · rw [hother w hw hwv, h.target w hw]
  · intro w hw
    by_cases hwv : w = v
    · rw [hwv, hself, Function.update_self]
    · rw [hother w hw hwv, h.commands w hw, Function.update_of_ne hwv]
  · intro w hw hnone
    by_cases hwv : w = v
    · rw [hwv, Function.update_self] at hnone
      rw [hwv, hself, hstate hnone]
    · rw [Function.update_of_ne hwv] at hnone
      rw [hother w hw hwv, h.unstarted w hw hnone]

/-- A recipe line for the current rule. It does not meet an earlier block. -/
theorem recipe (hv : v ∈ vertices) (hcurr : s.currRule = some (ops.vertexValue s.graph v))
    (hblock : s.inCommandBlock = true ↔ recipes v ≠ []) (makeFileName line : List UInt8) :
    ∃ s', s.recipe makeFileName line = .ok s' ∧
      Shows ops s' vertices edges (Function.update recipes v (recipes v ++ [line])) ∧
      s'.graph = s.graph ∧ s'.firstTarget = s.firstTarget ∧ s'.currRule = s.currRule ∧
      s'.inCommandBlock = true := by
  have hunstarted := h.unstarted v hv
  obtain ⟨state, hrule⟩ : ∃ state, s.heap (ops.vertexValue s.graph v) = ⟨v, recipes v, state⟩ :=
    ⟨_, congrArg₂ (Rule.mk · · _) (h.target v hv) (h.commands v hv)⟩
  have hwrite : ∀ (t : Parser G) (state : Int), t.graph = s.graph → t.fresh = s.fresh →
      t.heap = Function.update s.heap (ops.vertexValue s.graph v) ⟨v, recipes v ++ [line], state⟩ →
      Shows ops t vertices edges (Function.update recipes v (recipes v ++ [line])) :=
    fun t state hgraph hfresh hheap => (h.write hv rfl (by simp) hgraph hfresh hheap).1
  rw [Parser.rule, hrule] at hunstarted
  rw [Parser.recipe, hcurr]
  dsimp only
  by_cases hb : s.inCommandBlock = true
  · rw [if_pos hb, hrule]
    exact ⟨_, rfl, hwrite _ state rfl rfl rfl, rfl, rfl, hcurr, rfl⟩
  · -- the rule has no commands yet, so its state is zero
    have hzero : state = 0 := hunstarted (not_not.mp fun hne => hb (hblock.mpr hne))
    rw [if_neg hb, Parser.startBlock, hrule]
    dsimp only
    rw [if_pos hzero]
    dsimp only
    rw [Function.update_self, Function.update_idem]
    exact ⟨_, rfl, hwrite _ _ rfl rfl rfl, rfl, rfl, hcurr, rfl⟩

/-- `zero_out_states` leaves the rules without a state. -/
theorem zeroOutStates (l : List (List UInt8)) (hl : ∀ v ∈ l, v ∈ vertices) :
    Shows ops (l.foldl (Parser.zeroOutState ops) s) vertices edges recipes ∧
      (l.foldl (Parser.zeroOutState ops) s).graph = s.graph ∧
      ∀ w ∈ vertices, w ∈ l ∨ (s.rule ops w).state = 0 →
        ((l.foldl (Parser.zeroOutState ops) s).rule ops w).state = 0 := by
  induction l generalizing s with
  | nil =>
    refine ⟨h, rfl, fun w _ hw => ?_⟩
    exact hw.resolve_left List.not_mem_nil
  | cons v l ih =>
    have hv := hl v List.mem_cons_self
    obtain ⟨rule, hrule⟩ : ∃ rule : Rule, rule = { s.rule ops v with state := 0 } := ⟨_, rfl⟩
    have hheap : (s.zeroOutState ops v).heap =
        Function.update s.heap (ops.vertexValue s.graph v) rule := hrule ▸ rfl
    have hgraph : (s.zeroOutState ops v).graph = s.graph := rfl
    have htarget : rule.target = v := hrule ▸ h.target v hv
    have hcommands : rule.commands = recipes v := hrule ▸ h.commands v hv
    have hstate : rule.state = 0 := hrule ▸ rfl
    obtain ⟨hshows, hself, hother⟩ := h.write hv htarget (fun _ => hstate) hgraph rfl hheap
    rw [hcommands, Function.update_eq_self] at hshows
    obtain ⟨hend, hgraph', hstates⟩ := ih hshows fun w hw => hl w (List.mem_cons_of_mem v hw)
    refine ⟨hend, hgraph', fun w hw hzero => hstates w hw ?_⟩
    by_cases hwv : w = v
    · right
      rw [hwv, hself, hstate]
    · rw [hother w hw hwv]
      exact hzero.imp_left fun hmem => (List.mem_cons.mp hmem).resolve_left hwv

end Shows

end Shows

/-! ## The rules printed so far -/

section Built

variable {G : Type} {ops : ValueGraphOps G (List UInt8) Nat} {s s' : Parser G}
  {rules : List MakeRule} {r : MakeRule} {target : Target} {dependencies : List Name}
  {commands : List Command} {v : List UInt8}

/-- The names in a rule. -/
def MakeRule.names (r : MakeRule) : List (List UInt8) :=
  r.target.bytes :: r.dependencies.map Name.bytes

/-- The vertices of the graph of rules: the names, and the sentinel. -/
def verticesOf (rules : List MakeRule) : Set (List UInt8) :=
  {v | v = [] ∨ v ∈ rules.flatMap MakeRule.names}

/-- The dependencies of rules. -/
def edgesOf (rules : List MakeRule) : Set (List UInt8 × List UInt8) :=
  {e | ∃ r ∈ rules, e.1 = r.target.bytes ∧ e.2 ∈ r.dependencies.map Name.bytes}

/-- The commands printed for a target. -/
def recipesOf (rules : List MakeRule) (v : List UInt8) : List (List UInt8) :=
  rules.flatMap fun r => if v = r.target.bytes then r.commands.map Command.bytes else []

theorem recipesOf_eq_nil (h : ∀ r ∈ rules, v ≠ r.target.bytes) : recipesOf rules v = [] :=
  List.flatMap_eq_nil_iff.mpr fun r hr => if_neg (h r hr)

/-- The commands of the last rule. -/
theorem recipesOf_concat (h : ∀ q ∈ rules, r.target.bytes ≠ q.target.bytes) :
    recipesOf (rules ++ [r]) r.target.bytes = r.commands.map Command.bytes := by
  have hnone := recipesOf_eq_nil h
  rw [recipesOf] at hnone ⊢
  rw [List.flatMap_append, hnone, List.flatMap_singleton, if_pos rfl, List.nil_append]

/-- The parser has built the rules: the graph and the heap show them, and the variables are those
of the last rule. -/
structure Built (ops : ValueGraphOps G (List UInt8) Nat) (rules : List MakeRule) (s : Parser G) :
    Prop where
  shows : Shows ops s (verticesOf rules) (edgesOf rules) (recipesOf rules)
  firstTarget : s.firstTarget = rules.head?.map fun r => r.target.bytes
  currRule : ∀ r ∈ rules.getLast?, s.currRule = some (ops.vertexValue s.graph r.target.bytes)
  block : ∀ r ∈ rules.getLast?, s.inCommandBlock = true ↔ r.commands ≠ []

theorem built_start (hops : ValueGraphLaws ops) : Built ops [] (Parser.start ops) := by
  have hempty : Shows ops
      (⟨ops.create, fun _ => ⟨[], [], 0⟩, 0, none, none, 0, false, []⟩ : Parser G)
      ∅ ∅ (recipesOf []) := by
    refine ⟨fun v => ?_, fun a b => ?_, ?_, ?_, ?_, ?_, ?_⟩
    · simp [hops.contains_create]
    · simp [GraphOps.Edge, hops.contains_create]
    all_goals simp
  obtain ⟨hshows, -⟩ := hempty.setVertexValue hops (Set.notMem_empty []) rfl
  have hvertices : (insert [] ∅ : Set (List UInt8)) = verticesOf [] := by
    ext v
    simp [verticesOf]
  have hedges : (∅ : Set (List UInt8 × List UInt8)) = edgesOf [] := by
    ext e
    simp [edgesOf]
  rw [hvertices, hedges] at hshows
  exact ⟨hshows, rfl, fun _ h => by simp at h, fun _ h => by simp at h⟩

theorem Built.count (h : Built ops rules s) : Built ops rules s.count :=
  ⟨h.shows.congr rfl rfl rfl, h.firstTarget, h.currRule, h.block⟩

/-- The colon of the first line is found. -/
theorem newRule_firstLine (makeFileName : List UInt8) :
    s.newRule ops makeFileName (firstLine target dependencies) =
      .ok ((dependencies.map Name.bytes).foldl (Parser.addDependency ops target.bytes)
        (let s :=
          if ops.containsVertex s.graph target.bytes then s
          else
            let s := s.setVertexValue ops target.bytes
            { s with firstTarget := s.firstTarget.or (some target.bytes) }
        { s with
          inCommandBlock := false
          currRule := some (ops.vertexValue s.graph target.bytes) })) := by
  have hcolon : (58 : UInt8) ∉ target.bytes := fun h => (target.plain 58 h).2.1 rfl
  have hfind : strstr (firstLine target dependencies) [58] = some target.bytes.length :=
    strstr_eq_of_notMem hcolon
  have htake : (firstLine target dependencies).take target.bytes.length = target.bytes :=
    List.take_left' rfl
  have hdrop : (firstLine target dependencies).drop (target.bytes.length + 1) =
      dependencies.flatMap fun d => 32 :: d.bytes := by
    rw [firstLine, ← List.drop_drop, List.drop_left' rfl]
    rfl
  have hend : terminateWhitespace target.bytes = target.bytes := by
    rw [terminateWhitespace, findWhitespace_of_forall fun c hc => (target.plain c hc).1,
      List.take_length]
  rw [Parser.newRule, hfind]
  dsimp only
  rw [htake, hend, hdrop, splitLineOnSpaces_names]

theorem verticesOf_concat : verticesOf (rules ++ [⟨target, dependencies, []⟩]) =
    insert target.bytes (verticesOf rules) ∪ {d | d ∈ dependencies.map Name.bytes} := by
  ext v
  simp only [verticesOf, List.flatMap_append, List.flatMap_singleton, MakeRule.names,
    List.mem_append, List.mem_cons, Set.mem_union, Set.mem_insert_iff, Set.mem_ofPred_eq]
  tauto

theorem edgesOf_concat : edgesOf (rules ++ [⟨target, dependencies, []⟩]) =
    edgesOf rules ∪ {e | e.1 = target.bytes ∧ e.2 ∈ dependencies.map Name.bytes} := by
  ext e
  simp [edgesOf, or_and_right, exists_or]

/-- A name that is no vertex has no recipe yet. -/
theorem recipesOf_of_notMem {v : List UInt8} (hv : v ∉ verticesOf rules) :
    recipesOf rules v = [] := by
  refine recipesOf_eq_nil fun r hr heq => hv (Or.inr ?_)
  exact List.mem_flatMap.mpr ⟨r, hr, by simp [MakeRule.names, heq]⟩

/-- The target becomes a vertex, unless it is a dependency already, and the first one is kept. -/
theorem Built.addTarget (h : Built ops rules s) (hops : ValueGraphLaws ops) {s₁ : Parser G}
    (hs₁ : s₁ =
      if ops.containsVertex s.graph target.bytes then s
      else
        let s := s.setVertexValue ops target.bytes
        { s with firstTarget := s.firstTarget.or (some target.bytes) }) :
    Shows ops s₁ (insert target.bytes (verticesOf rules)) (edgesOf rules) (recipesOf rules) ∧
      s₁.firstTarget =
        (rules ++ [(⟨target, dependencies, []⟩ : MakeRule)]).head?.map fun r => r.target.bytes := by
  constructor
  · refine (h.shows.ensure hops fun hv => recipesOf_of_notMem hv).1.congr ?_ ?_ ?_
    all_goals
      rw [hs₁]
      split_ifs <;> rfl
  · have hfirst := h.firstTarget
    cases rules with
    | nil =>
      have hnew : ops.containsVertex s.graph target.bytes ≠ true := by
        rw [Ne, h.shows.vertex]
        simp [verticesOf, target.ne_nil]
      rw [hs₁, if_neg hnew]
      exact congrArg (Option.or · (some target.bytes)) hfirst
    | cons q rules =>
      rw [hs₁]
      split_ifs
      · exact hfirst
      · exact congrArg (Option.or · (some target.bytes)) hfirst

/-- **The first line of a rule.** -/
theorem Built.rule (h : Built ops rules s) (hops : ValueGraphLaws ops)
    (makeFileName : List UInt8) :
    ∃ s', s.newRule ops makeFileName (firstLine target dependencies) = .ok s' ∧
      Built ops (rules ++ [⟨target, dependencies, []⟩]) s' := by
  obtain ⟨s₁, hs₁⟩ : ∃ s₁, s₁ =
      if ops.containsVertex s.graph target.bytes then s
      else
        let s := s.setVertexValue ops target.bytes
        { s with firstTarget := s.firstTarget.or (some target.bytes) } := ⟨_, rfl⟩
  obtain ⟨hshows₁, hfirst₁⟩ := @Built.addTarget _ _ _ _ target dependencies h hops _ hs₁
  -- then its dependencies
  obtain ⟨s₂, hs₂⟩ : ∃ s₂ : Parser G, s₂ =
      { s₁ with
        inCommandBlock := false
        currRule := some (ops.vertexValue s₁.graph target.bytes) } := ⟨_, rfl⟩
  have hshows₂ : Shows ops s₂ (insert target.bytes (verticesOf rules)) (edgesOf rules)
      (recipesOf rules) := hshows₁.congr (hs₂ ▸ rfl) (hs₂ ▸ rfl) (hs₂ ▸ rfl)
  obtain ⟨hshows, hkeeps⟩ := hshows₂.addDependencies hops (dependencies.map Name.bytes)
    (Set.mem_insert _ _)
    fun d hd => recipesOf_of_notMem fun hmem => hd (Set.mem_insert_of_mem _ hmem)
  have hrecipes : recipesOf rules = recipesOf (rules ++ [⟨target, dependencies, []⟩]) := by
    funext v
    simp [recipesOf]
  rw [← verticesOf_concat, ← edgesOf_concat, hrecipes] at hshows
  rw [newRule_firstLine, ← hs₁, ← hs₂]
  refine ⟨_, rfl, hshows, ?_, ?_, ?_⟩
  · rw [hkeeps.firstTarget, hs₂]
    exact hfirst₁
  · intro r hr
    obtain rfl : ⟨target, dependencies, []⟩ = r := by simpa using hr
    dsimp only
    rw [hkeeps.currRule, hkeeps.value _ (Set.mem_insert _ _), hs₂]
  · intro r hr
    obtain rfl : ⟨target, dependencies, []⟩ = r := by simpa using hr
    rw [hkeeps.inCommandBlock, hs₂]
    simp

/-- **The next command** of the last rule. -/
theorem Built.command (h : Built ops (rules ++ [⟨target, dependencies, commands⟩]) s)
    (hfresh : ∀ r ∈ rules, target.bytes ≠ r.target.bytes) (command : Command)
    (makeFileName : List UInt8) :
    ∃ s', s.recipe makeFileName command.bytes = .ok s' ∧
      Built ops (rules ++ [⟨target, dependencies, commands ++ [command]⟩]) s' := by
  have hlast : (⟨target, dependencies, commands⟩ : MakeRule) ∈
      (rules ++ [(⟨target, dependencies, commands⟩ : MakeRule)]).getLast? := by simp
  have hrecipe : recipesOf (rules ++ [⟨target, dependencies, commands⟩]) target.bytes =
      commands.map Command.bytes := recipesOf_concat hfresh
  have hvertex : target.bytes ∈ verticesOf (rules ++ [⟨target, dependencies, commands⟩]) := by
    simp [verticesOf, MakeRule.names]
  have hblock := h.block _ hlast
  obtain ⟨s', hs', hshows, hgraph, hfirst, hcurr, hblock'⟩ := h.shows.recipe hvertex
    (h.currRule _ hlast) (by rw [hrecipe, hblock]; simp) makeFileName command.bytes
  have hvertices : verticesOf (rules ++ [⟨target, dependencies, commands⟩]) =
      verticesOf (rules ++ [⟨target, dependencies, commands ++ [command]⟩]) := by
    simp [verticesOf, MakeRule.names]
  have hedges : edgesOf (rules ++ [⟨target, dependencies, commands⟩]) =
      edgesOf (rules ++ [⟨target, dependencies, commands ++ [command]⟩]) := by
    simp [edgesOf]
  have hrecipes : Function.update (recipesOf (rules ++ [⟨target, dependencies, commands⟩]))
      target.bytes (recipesOf (rules ++ [⟨target, dependencies, commands⟩]) target.bytes ++
        [command.bytes]) =
      recipesOf (rules ++ [⟨target, dependencies, commands ++ [command]⟩]) := by
    funext v
    by_cases hv : v = target.bytes
    · have hconcat : recipesOf (rules ++ [⟨target, dependencies, commands ++ [command]⟩])
          target.bytes = (commands ++ [command]).map Command.bytes := recipesOf_concat hfresh
      rw [hv, Function.update_self, hrecipe, hconcat, List.map_append, List.map_singleton]
    · rw [Function.update_of_ne hv]
      simp [recipesOf, hv]
  rw [hvertices, hedges, hrecipes] at hshows
  refine ⟨s', hs', hshows, ?_, ?_, ?_⟩
  · rw [hfirst, h.firstTarget, List.head?_append, List.head?_append]
    cases rules <;> rfl
  · intro r hr
    obtain rfl : ⟨target, dependencies, commands ++ [command]⟩ = r := by simpa using hr
    rw [hcurr, hgraph, h.currRule _ hlast]
  · intro r hr
    obtain rfl : ⟨target, dependencies, commands ++ [command]⟩ = r := by simpa using hr
    simp [hblock']

/-- **The lines of a makefile** build its rules. -/
theorem Built.of_printed (hops : ValueGraphLaws ops) (makeFileName : List UInt8)
    {printed : List (List UInt8)} (h : Printed rules printed)
    (hdistinct : (rules.map fun r => r.target.bytes).Nodup) :
    ∃ s, (printed.map (· ++ [10])).foldlM (parseLine ops makeFileName) (Parser.start ops) = .ok s ∧
      Built ops rules s := by
  have hsnoc : ∀ {lines : List (List UInt8)} {line : List UInt8} {s s' : Parser G},
      (lines.map (· ++ [10])).foldlM (parseLine ops makeFileName) (Parser.start ops) = .ok s →
      parseLine ops makeFileName s (line ++ [10]) = .ok s' →
      ((lines ++ [line]).map (· ++ [10])).foldlM (parseLine ops makeFileName) (Parser.start ops) =
        .ok s' := by
    intro lines line s s' hs hs'
    rw [List.map_append, List.foldlM_append, hs]
    change (List.foldlM (parseLine ops makeFileName) s [line ++ [10]]) = .ok s'
    rw [List.foldlM_cons, hs']
    rfl
  have hnew : ∀ {rules : List MakeRule} {r : MakeRule},
      ((rules ++ [r]).map fun r => r.target.bytes).Nodup →
      (rules.map fun r => r.target.bytes).Nodup ∧ ∀ q ∈ rules, r.target.bytes ≠ q.target.bytes := by
    intro rules r hnodup
    rw [List.map_append, List.nodup_append] at hnodup
    exact ⟨hnodup.1, fun q hq heq => hnodup.2.2 _ (List.mem_map_of_mem hq) _ (by simp) heq.symm⟩
  induction h with
  | nil => exact ⟨_, rfl, built_start hops⟩
  | between h hline ih =>
    obtain ⟨s, hs, hbuilt⟩ := ih hdistinct
    exact ⟨s.count, hsnoc hs (parseLine_between s hline), hbuilt.count⟩
  | @rule rules lines target dependencies blanks h hb ih =>
    obtain ⟨s, hs, hbuilt⟩ := ih (hnew hdistinct).1
    obtain ⟨s', hs', hbuilt'⟩ := hbuilt.count.rule hops makeFileName
    exact ⟨s', hsnoc hs ((parseLine_rule s target dependencies hb).trans hs'), hbuilt'⟩
  | @command rules lines target dependencies commands command blanks h hb ih =>
    obtain ⟨hdistinct', hfresh⟩ := hnew hdistinct
    obtain ⟨s, hs, hbuilt⟩ := ih (by simpa using hdistinct)
    obtain ⟨s', hs', hbuilt'⟩ := hbuilt.count.command hfresh command makeFileName
    exact ⟨s', hsnoc hs ((parseLine_command s command hb).trans hs'), hbuilt'⟩

end Built

/-! ## Main results -/

section Main

variable {G : Type} {ops : ValueGraphOps G (List UInt8) Nat} {s : Parser G}
  {rules : List MakeRule} {goals : List (List UInt8)}

/-- The goals, or the first target. -/
def goalsOf (rules : List MakeRule) (goals : List (List UInt8)) : List (List UInt8) :=
  if goals = [] then (rules.head?.map fun r => r.target.bytes).toList else goals

/-- The graph of rules and goals: its vertices are the names and the sentinel, its edges the
dependencies and those from the sentinel to the goals, and the rule of a vertex has the printed
commands in order and no state. -/
structure Represents (ops : ValueGraphOps G (List UInt8) Nat) (rules : List MakeRule)
    (goals : List (List UInt8)) (s : Parser G) : Prop where
  vertex : ∀ v, ops.containsVertex s.graph v = true ↔ v = [] ∨ ∃ r ∈ rules, v ∈ r.names
  edge : ∀ a b, ops.Edge s.graph a b ↔
    (∃ r ∈ rules, a = r.target.bytes ∧ b ∈ r.dependencies.map Name.bytes) ∨
      a = [] ∧ b ∈ goalsOf rules goals
  rule : ∀ r ∈ rules,
    s.rule ops r.target.bytes = ⟨r.target.bytes, r.commands.map Command.bytes, 0⟩
  other : ∀ v, ops.containsVertex s.graph v = true → (∀ r ∈ rules, v ≠ r.target.bytes) →
    s.rule ops v = ⟨v, [], 0⟩

theorem recipesOf_of_mem (hdistinct : (rules.map fun r => r.target.bytes).Nodup) {r : MakeRule}
    (hr : r ∈ rules) : recipesOf rules r.target.bytes = r.commands.map Command.bytes := by
  induction rules with
  | nil => cases hr
  | cons q rules ih =>
    rw [List.map_cons, List.nodup_cons] at hdistinct
    rw [recipesOf, List.flatMap_cons]
    change _ ++ recipesOf rules _ = _
    rcases List.mem_cons.mp hr with rfl | hr
    · have hnone : recipesOf rules r.target.bytes = [] := recipesOf_eq_nil fun q hq heq =>
        hdistinct.1 (heq ▸ List.mem_map_of_mem hq)
      rw [hnone, if_pos rfl, List.append_nil]
    · have hne : r.target.bytes ≠ q.target.bytes := fun heq =>
        hdistinct.1 (heq ▸ List.mem_map_of_mem hr)
      rw [if_neg hne, List.nil_append, ih hdistinct.2 hr]

/-- The loop over the goals. -/
theorem foldlM_addGoal (hops : ValueGraphLaws ops) {vertices : Set (List UInt8)}
    {edges : Set (List UInt8 × List UInt8)} {recipes : List UInt8 → List (List UInt8)}
    (h : Shows ops s vertices edges recipes) (hnil : [] ∈ vertices)
    (hgoals : ∀ goal ∈ goals, goal ∈ vertices) :
    ∃ s', goals.foldlM (Parser.addGoal ops) s = .ok s' ∧
      Shows ops s' vertices (edges ∪ {e | e.1 = [] ∧ e.2 ∈ goals}) recipes := by
  induction goals generalizing s edges with
  | nil => exact ⟨s, rfl, by simpa using h⟩
  | cons goal goals ih =>
    have hgoal := hgoals goal List.mem_cons_self
    obtain ⟨hshows, -⟩ := h.addEdge hops hnil hgoal
    obtain ⟨s', hs', hend⟩ := ih hshows fun g hg => hgoals g (List.mem_cons_of_mem goal hg)
    refine ⟨s', ?_, ?_⟩
    · rw [List.foldlM_cons, Parser.addGoal, if_pos ((h.vertex goal).mpr hgoal)]
      exact hs'
    · have hedges : insert ([], goal) edges ∪ {e | e.1 = [] ∧ e.2 ∈ goals} =
          edges ∪ {e | e.1 = [] ∧ e.2 ∈ goal :: goals} := by
        ext e
        simp only [Set.mem_union, Set.mem_insert_iff, Set.mem_ofPred_eq, List.mem_cons,
          Prod.ext_iff]
        tauto
      rwa [hedges] at hend

/-- There is no newline in a line. -/
theorem Printed.notMem {printed : List (List UInt8)} (h : Printed rules printed) :
    ∀ line ∈ printed, 10 ∉ line := by
  have hblank : ∀ {t : List UInt8}, Blank t → 10 ∉ t := fun ht hmem => (ht 10 hmem).2 rfl
  have htrimmed : ∀ {t : List UInt8}, Trimmed t → 10 ∉ t := fun ht hmem => (ht.plain 10 hmem).1 rfl
  induction h with
  | nil => exact fun _ h => absurd h List.not_mem_nil
  | between h hline ih =>
    refine List.forall_mem_append.mpr ⟨ih, List.forall_mem_singleton.mpr ?_⟩
    cases hline with
    | blank hs => exact hblank hs
    | comment hs ht => simp [hblank hs, ht]
  | @rule rules lines target dependencies blanks h hb ih =>
    refine List.forall_mem_append.mpr ⟨ih, List.forall_mem_singleton.mpr ?_⟩
    simp [hblank hb, htrimmed (trimmed_firstLine target dependencies)]
  | @command rules lines target dependencies commands command blanks h hb ih =>
    refine List.forall_mem_append.mpr ⟨ih, List.forall_mem_singleton.mpr ?_⟩
    simp [hblank hb, htrimmed command.trimmed]

/-- **Parsing gets back what was printed.** For rules with distinct targets, whose lines are in
the file, and goals among their names, the parser returns the graph of the rules and the goals. -/
theorem parse_printed (hops : ValueGraphLaws ops) (hne : rules ≠ [])
    (hdistinct : (rules.map fun r => r.target.bytes).Nodup)
    (hgoals : ∀ goal ∈ goals, ∃ r ∈ rules, goal ∈ r.names) {printed : List (List UInt8)}
    (hprinted : Printed rules printed) {fopen : List UInt8 → Option (List UInt8)}
    {makeFileName : List UInt8} (hopen : fopen makeFileName = some (printed.flatMap (· ++ [10]))) :
    ∃ s, parserParseMakefile ops fopen (some makeFileName) goals = .ok s ∧
      Represents ops rules goals s := by
  have hlines : lines (printed.flatMap (· ++ [10])) = printed.map (· ++ [10]) := by
    rw [List.flatMap_def]
    refine lines_flatten fun line hline => ?_
    obtain ⟨a, ha, rfl⟩ := List.mem_map.mp hline
    exact ⟨a, hprinted.notMem a ha, rfl⟩
  obtain ⟨s₁, hs₁, hbuilt⟩ := Built.of_printed hops makeFileName hprinted hdistinct
  -- the goals are vertices
  have hgoalsOr : s₁.goalsOr goals = .ok (goalsOf rules goals) := by
    obtain ⟨q, later, rfl⟩ := List.exists_cons_of_ne_nil hne
    rw [Parser.goalsOr, goalsOf, hbuilt.firstTarget]
    split_ifs
    · rfl
    · rfl
  have hvertex : ∀ r ∈ rules, ∀ v ∈ r.names, v ∈ verticesOf rules := fun r hr v hv =>
    Or.inr (List.mem_flatMap.mpr ⟨r, hr, hv⟩)
  have hmem : ∀ goal ∈ goalsOf rules goals, goal ∈ verticesOf rules := by
    intro goal hgoal
    rw [goalsOf] at hgoal
    split_ifs at hgoal
    · obtain ⟨q, later, rfl⟩ := List.exists_cons_of_ne_nil hne
      obtain rfl : goal = q.target.bytes := by simpa using hgoal
      exact hvertex q List.mem_cons_self _ List.mem_cons_self
    · obtain ⟨r, hr, hname⟩ := hgoals goal hgoal
      exact hvertex r hr goal hname
  obtain ⟨s₂, hs₂, hshows₂⟩ := foldlM_addGoal hops hbuilt.shows (Or.inl rfl) hmem
  obtain ⟨hshows, -, hzero⟩ := hshows₂.zeroOutStates (ops.vertices s₂.graph) fun v hv =>
    (hshows₂.vertex v).mp ((hops.mem_vertices _ v).mp hv)
  refine ⟨s₂.zeroOutStates ops, ?_, ?_⟩
  · rw [parserParseMakefile, openMakefile, hopen]
    change (parseLines ops makeFileName (Parser.start ops) (printed.flatMap (· ++ [10]))).bind _ = _
    rw [parseLines_eq, hlines, hs₁]
    change (s₁.goalsOr goals).bind _ = _
    rw [hgoalsOr]
    change ((goalsOf rules goals).foldlM (Parser.addGoal ops) s₁).bind _ = _
    rw [hs₂]
    rfl
  have hrule : ∀ v ∈ verticesOf rules,
      (s₂.zeroOutStates ops).rule ops v = ⟨v, recipesOf rules v, 0⟩ := by
    intro v hv
    have hstate : ((s₂.zeroOutStates ops).rule ops v).state = 0 := by
      refine hzero v hv (Or.inl ?_)
      exact (hops.mem_vertices _ v).mpr ((hshows₂.vertex v).mpr hv)
    calc (s₂.zeroOutStates ops).rule ops v
        = ⟨((s₂.zeroOutStates ops).rule ops v).target,
            ((s₂.zeroOutStates ops).rule ops v).commands,
            ((s₂.zeroOutStates ops).rule ops v).state⟩ := rfl
      _ = ⟨v, recipesOf rules v, 0⟩ := by
          rw [hstate]
          exact congrArg₂ (Rule.mk · · 0) (hshows.target v hv) (hshows.commands v hv)
  refine ⟨fun v => ?_, fun a b => ?_, fun r hr => ?_, fun v hv hnone => ?_⟩
  · refine (hshows.vertex v).trans ?_
    simp [verticesOf]
  · exact hshows.edge a b
  · rw [hrule _ (hvertex r hr _ List.mem_cons_self), recipesOf_of_mem hdistinct hr]
  · rw [hrule v ((hshows.vertex v).mp hv), recipesOf_eq_nil hnone]

end Main

/-! ## A makefile -/

/-- A name of one byte. -/
def Name.ofByte (c : UInt8) (h : isSpace c = false ∧ c ≠ 58 ∧ c ≠ 35 ∧ c ≠ 0) : Name where
  bytes := [c]
  ne_nil := List.cons_ne_nil c []
  plain := List.forall_mem_singleton.mpr h

/-- A target of one letter. -/
def Target.ofByte (c : UInt8) (h : isSpace c = false ∧ c ≠ 58 ∧ c ≠ 35 ∧ c ≠ 0)
    (hfirst : isAlpha c = true) : Target where
  toName := Name.ofByte c h
  first := ⟨c, rfl, Or.inl hfirst⟩

theorem trimmed_xy : Trimmed [120, 32, 121] where
  ne_nil := List.cons_ne_nil 120 [32, 121]
  first := by simp [isSpace]
  last := by simp [isSpace]
  plain := by simp

/-- The target `a`, which depends on `b` and has the command `x y`. -/
def ruleA : MakeRule where
  target := Target.ofByte 97 (by decide) rfl
  dependencies := [Name.ofByte 98 (by decide)]
  commands := [⟨[120, 32, 121], trimmed_xy⟩]

/-- The target `b`, on its own. -/
def ruleB : MakeRule where
  target := Target.ofByte 98 (by decide) rfl
  dependencies := []
  commands := []

/-- A comment, `a` with a carriage return at the end of its first line, a blank line, and `b`. -/
def twoRules : List (List UInt8) :=
  [[35, 97, 58], [97, 58, 32, 98, 13], [9, 120, 32, 121, 32], [], [98, 58]]

theorem printed_twoRules : Printed [ruleA, ruleB] twoRules := by
  have hnil : Blank [] := by simp [Blank]
  have hreturn : Blank [13] := by simp [Blank, isSpace]
  have hspace : Blank [32] := by simp [Blank, isSpace]
  have htext : 10 ∉ ([97, 58] : List UInt8) := by simp
  have hcomment : Printed [] [[35, 97, 58]] := Printed.nil.between (Between.comment hnil htext)
  have hfirst : Printed [⟨ruleA.target, ruleA.dependencies, []⟩]
      [[35, 97, 58], [97, 58, 32, 98, 13]] := hcomment.rule hreturn
  have hcommand : Printed [ruleA] [[35, 97, 58], [97, 58, 32, 98, 13], [9, 120, 32, 121, 32]] :=
    @Printed.command [] _ _ _ [] ⟨[120, 32, 121], trimmed_xy⟩ _ hfirst hspace
  exact (hcommand.between (Between.blank hnil)).rule hnil

theorem parse_printed_twoRules : ∃ s, parserParseMakefile listValueGraph
      (fun _ => some (twoRules.flatMap (· ++ [10]))) (some [77]) [[98]] = .ok s ∧
    Represents listValueGraph [ruleA, ruleB] [[98]] s :=
  parse_printed listValueGraph_laws (by simp) (by simp [ruleA, ruleB, Target.ofByte, Name.ofByte])
    (fun goal hgoal => ⟨ruleB, by simp, by
      simpa [MakeRule.names, ruleB, Target.ofByte, Name.ofByte] using hgoal⟩)
    printed_twoRules rfl

end SystemProgramming.ParallelMake
