import Mathlib.Data.List.DropRight
import SystemProgramming.Foundation.CStrings
import SystemProgramming.Foundation.Containers
import SystemProgramming.Foundation.Ctype
import SystemProgramming.Foundation.Decimal
import SystemProgramming.Foundation.Lines

/-!
# The parser of `parallel_make/parser.c`

The parser reads a makefile line by line. Each line goes through passes that work in place: the
newline goes, then the blanks at the end, then the blanks in front are skipped, and a comment
goes. What is left is a recipe line when the buffer begins with a tab, and the start of a rule
otherwise.

A string is the list of its bytes, and a pointer into one is an index. The graph library is a
parameter; the values of its vertices are pointers to rules, which are in a heap. A program that
exits has a status and the text it has written to `stderr`.

## Main definitions

* `stripBackWhitespace`, `skipWhitespace`, `stripBackComments`, `splitLineOnSpaces`: the passes
* `Rule`, `Parser`: `rule_t`, and the variables of the parser with the heap
* `parseLine`: one round of the loop
* `parserParseMakefile`: the whole

## Main results

* `parseLines_eq`: the loop goes through the lines
* `splitLineOnSpaces_eq`: the tokens are the runs between the spaces
-/

namespace SystemProgramming.ParallelMake

open Ctype

/-! ## Passes over a line -/

/-- `split_line_on_spaces`. An empty token would be written over by the next one. -/
def splitLineOnSpaces (line : List UInt8) : List (List UInt8) :=
  match h : strtok line with
  | none => []
  | some (token, rest) =>
    have : rest.length < line.length := length_strtok h
    if token = [] then splitLineOnSpaces rest else token :: splitLineOnSpaces rest
termination_by line.length

/-- `is_makefile_target`. -/
def isMakefileTarget (line : List UInt8) : Bool :=
  line.head?.any fun c => (isAlpha c || isDigit c) || c == 46 || c == 47

/-- `skip_whitespace`, as an index. -/
def skipWhitespace : List UInt8 → Nat
  | [] => 0
  | c :: str => if ¬ isSpace c then 0 else skipWhitespace str + 1

/-- `find_whitespace`, as an index. -/
def findWhitespace : List UInt8 → Nat
  | [] => 0
  | c :: str => if isSpace c then 0 else findWhitespace str + 1

/-- `terminate_whitespace`. -/
def terminateWhitespace (str : List UInt8) : List UInt8 := str.take (findWhitespace str)

/-- `strip_back_whitespace`. -/
def stripBackWhitespace (str : List UInt8) : List UInt8 := str.rdropWhile isSpace

/-- The loop of `in_quotes` over the bytes before `ptr`. A backslash hides the byte behind it. -/
def inQuotesLoop (inQuotes : Bool) : List UInt8 → Bool
  | [] => inQuotes
  | c :: str =>
    if c = 92 then
      match str with
      | [] => inQuotes
      | _ :: str => inQuotesLoop inQuotes str
    else if c = 34 then inQuotesLoop (!inQuotes) str
    else inQuotesLoop inQuotes str

/-- `in_quotes`. -/
def inQuotes (str : List UInt8) (ptr : Nat) : Bool := inQuotesLoop false (str.take ptr)

/-- The loop of `strip_back_comments` from `comment_str` on: where the comment starts. -/
def findComment (str : List UInt8) (commentStr : Nat) : List UInt8 → Option Nat
  | [] => none
  | c :: rest =>
    if c = 35 then
      if inQuotes str commentStr then findComment str (commentStr + 1) rest else some commentStr
    else findComment str (commentStr + 1) rest

/-- `strip_back_comments`. -/
def stripBackComments (str : List UInt8) : List UInt8 :=
  match findComment str 0 str with
  | none => str
  | some commentStr => str.take commentStr

/-! ## The program -/

/-- `rule_t`, without the field for the user. -/
structure Rule where
  target : List UInt8
  commands : List (List UInt8)
  state : Int

/-- What a program that exits leaves: its status, and its output on `stderr`. -/
structure Exit where
  status : Nat
  stderr : List UInt8

/-- The bytes of a text. -/
def text (s : String) : List UInt8 := s.toUTF8.toList

/-- The graph and the variables of `parser_parse_makefile`, and the heap: the rules at pointers
below `fresh`. `stderr` is what has been written to it. -/
structure Parser (G : Type) where
  graph : G
  heap : Nat → Rule
  fresh : Nat
  firstTarget : Option (List UInt8)
  currRule : Option Nat
  lineNumber : Nat
  inCommandBlock : Bool
  stderr : List UInt8

section Program

variable {G : Type} (ops : ValueGraphOps G (List UInt8) Nat) (makeFileName : List UInt8)

/-- `graph_set_vertex_value` with its key for a value: `str_to_rule_constructor` makes a rule. -/
def Parser.setVertexValue (s : Parser G) (key : List UInt8) : Parser G :=
  { s with
    graph := ops.setVertexValue s.graph key s.fresh
    heap := Function.update s.heap s.fresh ⟨key, [], 0⟩
    fresh := s.fresh + 1 }

/-- The message about a line, and the exit. -/
def Parser.stop (s : Parser G) (message : List UInt8) : Exit :=
  ⟨2, s.stderr ++ (makeFileName ++ text ":" ++ decimal s.lineNumber ++ message)⟩

/-- The first command in a block. The commands of an earlier block are dropped. -/
def Parser.startBlock (s : Parser G) (currRule : Nat) : Parser G :=
  let rule := s.heap currRule
  let state := Int.bmod s.lineNumber (2 ^ 32)
  if rule.state = 0 then
    { s with heap := Function.update s.heap currRule { rule with state := state } }
  else
    { s with
      heap := Function.update s.heap currRule { rule with state := state, commands := [] }
      stderr := s.stderr ++
        (makeFileName ++ text ":" ++ decimal s.lineNumber ++
          text ": warning: overriding recipe for target '" ++ rule.target ++ text "'\n") ++
        (makeFileName ++ text ":" ++ decimal (sizeT rule.state) ++
          text ": warning: ignoring old recipe for target '" ++ rule.target ++ text "'\n") }

/-- A recipe line. -/
def Parser.recipe (s : Parser G) (line : List UInt8) : Except Exit (Parser G) :=
  match s.currRule with
  | none =>
    .error (s.stop makeFileName (text ": *** recipe commences before first target.  Stop.\n"))
  | some currRule =>
    let s := if s.inCommandBlock then s else s.startBlock makeFileName currRule
    let rule := s.heap currRule
    .ok { s with
      inCommandBlock := true
      heap := Function.update s.heap currRule { rule with commands := rule.commands ++ [line] } }

/-- One round of the loop over the dependencies. -/
def Parser.addDependency (target : List UInt8) (s : Parser G) (dependency : List UInt8) :
    Parser G :=
  let s := if ops.containsVertex s.graph dependency then s else s.setVertexValue ops dependency
  { s with graph := ops.addEdge s.graph target dependency }

/-- The start of a new rule. -/
def Parser.newRule (s : Parser G) (line : List UInt8) : Except Exit (Parser G) :=
  match strstr line [58] with
  | none => .error (s.stop makeFileName (text ": *** missing separator.  Stop.\n"))
  | some colon =>
    let depLine := line.drop (colon + 1)
    let target := terminateWhitespace (line.take colon)
    let s :=
      if ops.containsVertex s.graph target then s
      else
        let s := s.setVertexValue ops target
        { s with firstTarget := s.firstTarget.or (some target) }
    let s := { s with
      inCommandBlock := false
      currRule := some (ops.vertexValue s.graph target) }
    .ok ((splitLineOnSpaces depLine).foldl (Parser.addDependency ops target) s)

/-- One round of the loop over the lines. The string in the buffer ends at its first NUL. -/
def parseLine (s : Parser G) (lineBuf : List UInt8) : Except Exit (Parser G) :=
  let s := { s with lineNumber := (s.lineNumber + 1) % 2 ^ 64 }
  let lineBuf := stripBackWhitespace ((removeNewline lineBuf).takeWhile (· ≠ 0))
  let start := skipWhitespace lineBuf
  let line := stripBackComments (lineBuf.drop start)
  if line = [] then .ok s
  else if (lineBuf.take start ++ line).head? = some 9 then s.recipe makeFileName line
  else if isMakefileTarget line then s.newRule ops makeFileName line
  else .error (s.stop makeFileName (text ": *** missing separator.  Stop.\n"))

/-- The loop over the lines of a file. -/
def parseLines (s : Parser G) (input : List UInt8) : Except Exit (Parser G) :=
  match h : getline input with
  | none => .ok s
  | some (lineBuf, rest) =>
    have : rest.length < input.length := length_getline h
    (parseLine ops makeFileName s lineBuf).bind fun s => parseLines s rest
termination_by input.length

/-- One round of the loop over the goals. -/
def Parser.addGoal (s : Parser G) (target : List UInt8) : Except Exit (Parser G) :=
  if ops.containsVertex s.graph target then
    .ok { s with graph := ops.addEdge s.graph [] target }
  else
    .error ⟨1, s.stderr ++
      (text "parmake: *** No rule to make target '" ++ target ++ text "'.  Stop.\n")⟩

/-- One round of `zero_out_states`. -/
def Parser.zeroOutState (s : Parser G) (target : List UInt8) : Parser G :=
  let pointer := ops.vertexValue s.graph target
  { s with heap := Function.update s.heap pointer { s.heap pointer with state := 0 } }

/-- `zero_out_states`. -/
def Parser.zeroOutStates (s : Parser G) : Parser G :=
  (ops.vertices s.graph).foldl (Parser.zeroOutState ops) s

end Program

/-- `open_makefile`: the name and the contents of the file. A null pointer to goals is an empty
list. -/
def openMakefile (fopen : List UInt8 → Option (List UInt8)) (makefileName : Option (List UInt8))
    (goals : List (List UInt8)) : Except Exit (List UInt8 × List UInt8) :=
  match makefileName, goals with
  | none, [] =>
    .error ⟨2, text "parmake: *** No targets specified and no makefile found.  Stop.\n"⟩
  | none, goal :: _ =>
    .error ⟨2, text "parmake: *** No rule to make target '" ++ goal ++ text "'.  Stop.\n"⟩
  | some makefileName, _ =>
    match fopen makefileName with
    | none => .error ⟨2, text "parmake: " ++ makefileName ++ text ": No such file or directory\n"⟩
    | some f => .ok (makefileName, f)

/-- The parser before the first line, with the sentinel vertex. -/
def Parser.start {G : Type} (ops : ValueGraphOps G (List UInt8) Nat) : Parser G :=
  Parser.setVertexValue ops
    ⟨ops.create, fun _ => ⟨[], [], 0⟩, 0, none, none, 0, false, []⟩ []

/-- The goals, which are the first target when there are none. -/
def Parser.goalsOr {G : Type} (s : Parser G) (goals : List (List UInt8)) :
    Except Exit (List (List UInt8)) :=
  if goals = [] then
    match s.firstTarget with
    | none => .error ⟨2, s.stderr ++ text "parmake: *** No targets.  Stop.\n"⟩
    | some firstTarget => .ok [firstTarget]
  else .ok goals

/-- `parser_parse_makefile`: the graph, with the heap its vertices point to. -/
def parserParseMakefile {G : Type} (ops : ValueGraphOps G (List UInt8) Nat)
    (fopen : List UInt8 → Option (List UInt8)) (makeFileName : Option (List UInt8))
    (goals : List (List UInt8)) : Except Exit (Parser G) := do
  let opened ← openMakefile fopen makeFileName goals
  let s ← parseLines ops opened.1 (Parser.start ops) opened.2
  let goals ← s.goalsOr goals
  let s ← goals.foldlM (Parser.addGoal ops) s
  return s.zeroOutStates ops

/-! ## The loops -/

section Loops

variable {G : Type} {ops : ValueGraphOps G (List UInt8) Nat} {makeFileName : List UInt8}

/-- The loop goes through the lines. -/
theorem parseLines_eq (s : Parser G) (input : List UInt8) :
    parseLines ops makeFileName s input =
      (lines input).foldlM (parseLine ops makeFileName) s := by
  induction hlen : input.length using Nat.strong_induction_on generalizing s input with
  | _ n ih =>
    rw [parseLines]
    rcases getline_cases input with ⟨hnone, rfl⟩ | ⟨line, rest, hsome, hlines, hlt⟩
    · rfl
    · rw [hlines, List.foldlM_cons]
      split
      · simp_all
      · next line' rest' heq =>
        obtain ⟨rfl, rfl⟩ := Prod.mk.inj (Option.some.inj (heq.symm.trans hsome))
        change Except.bind _ _ = Except.bind _ _
        congr 1
        funext s'
        exact ih rest'.length (hlen ▸ hlt) s' rest' rfl

/-- The tokens are the runs between the spaces. -/
theorem splitLineOnSpaces_eq (line : List UInt8) :
    splitLineOnSpaces line = runs (· = 32) line := by
  induction hlen : line.length using Nat.strong_induction_on generalizing line with
  | _ n ih =>
    rw [splitLineOnSpaces]
    rcases strtok_cases line with ⟨hnone, hruns⟩ | ⟨token, rest, hsome, hruns⟩
    · rw [hruns]
      split
      · rfl
      · simp_all
    · -- no token is empty
      have hne : token ≠ [] := ne_nil_of_mem_runs (hruns ▸ List.mem_cons_self)
      rw [hruns, ← ih rest.length (hlen ▸ length_strtok hsome) rest rfl]
      split
      · simp_all
      · next token' rest' heq =>
        obtain ⟨rfl, rfl⟩ := Prod.mk.inj (Option.some.inj (heq.symm.trans hsome))
        rw [if_neg hne]

end Loops

end SystemProgramming.ParallelMake
