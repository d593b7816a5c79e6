import SystemProgramming.Shell.Processes
import SystemProgramming.Vector.Sstring

/-!
# The logical operators of the shell

The shell looks for an operator among the tokens between the spaces: `&&`, `||`, or a token with
a semicolon at its end. It then cuts the line with `strsep` at the first character of the
operator, wherever that is. So a command before the operator that has this character is cut
there. The last character of a token is read without asking whether the token is empty; of an
empty one it is the byte in front of the string, and the model has `none` there.

What a command does is left to the system, and may depend on the commands before. A `fork`,
`setpgid` or `waitpid` that fails ends the shell. `waitpid` fails when the handler of `SIGCHLD` has
waited for the child already, and the handler ends the shell when it meets a child that is not in
the table. A child that was killed by a signal has failed, but is not reported.

## Main definitions

* `System`, `executeCommand`: `execute_command`, for what it returns
* `Succeeds`: what it is for a command to succeed
* `logicalOps`, `shellLine`: the loop over the tokens, and the line that gets there
* `Operator`: the three operators, with the lines that are made with them
* `Clear`: the command before the operator does not have its character, and no empty token
* `Reported`: the shell learns from the system whether that command has succeeded

## Main results

* `logicalOps_append`: the loop passes the tokens that are no operators
* `cut_line`: where a line with an operator is cut
* `executeCommand_eq_none`, `executeCommand_eq_zero`: what a command returns
* `shellLine_iff`: the line is split at the operator, and the operator obeyed, exactly where the line
  is clear and the first command is reported
-/

namespace SystemProgramming.Shell

/-! ## `execute_command` -/

/-- How a child ends. -/
inductive Status where
  | exited (code : UInt8)
  | signaled (signal : Nat)
  deriving DecidableEq

/-- What `execute_command` returns for the status of a child. -/
def Status.failed : Status → Int
  | .exited code => if code ≠ 0 then 1 else 0
  | .signaled _ => 0

/-- Whether the child was killed by a signal. -/
def Status.killed : Status → Bool
  | .exited _ => false
  | .signaled _ => true

/-- Which children the handler of `SIGCHLD` waits for while a command is executed. -/
inductive Handled where
  /-- Other children, with an entry in the table, or none. -/
  | others
  /-- The child of the command, before the shell waits for it. -/
  | child
  /-- A child without an entry, so that an assertion fails. -/
  | unlisted
  deriving DecidableEq

/-- What the system does, given the commands before. -/
structure System where
  chdir : List (List UInt8) → List UInt8 → Int
  /-- Whether `fork` succeeds. -/
  fork : List (List UInt8) → List UInt8 → Bool
  /-- Whether `setpgid` succeeds. -/
  setpgid : List (List UInt8) → List UInt8 → Bool
  handled : List (List UInt8) → List UInt8 → Handled
  /-- How the child of a command ends. -/
  status : List (List UInt8) → List UInt8 → Status

/-- `execute_command`, `none` where the shell ends. -/
def executeCommand (sys : System) (earlier : List (List UInt8)) (buffer : List UInt8) :
    Option Int :=
  if sys.handled earlier buffer = .unlisted then none
  else if buffer = [99, 100] then some 1
  else if [99, 100, 32].isPrefixOf buffer then
    some (if sys.chdir earlier (buffer.drop 3) = -1 then 1 else 0)
  else if !sys.fork earlier buffer then none
  else if !sys.setpgid earlier buffer then none
  else if isBackground buffer then some 0
  else if sys.handled earlier buffer = .child then none
  else some (sys.status earlier buffer).failed

/-- A command succeeds when the directory is entered, when it is started in the background, or when
its child exits with the status zero. -/
def Succeeds (sys : System) (earlier : List (List UInt8)) (buffer : List UInt8) : Prop :=
  if isCd buffer then buffer ≠ [99, 100] ∧ sys.chdir earlier (buffer.drop 3) ≠ -1
  else sys.fork earlier buffer ∧
    (isBackground buffer ∨ sys.status earlier buffer = .exited 0)

instance (sys : System) (earlier : List (List UInt8)) (buffer : List UInt8) :
    Decidable (Succeeds sys earlier buffer) := by
  unfold Succeeds
  infer_instance

/-- The shell is still there after a command. -/
def Survives (sys : System) (earlier : List (List UInt8)) (buffer : List UInt8) : Prop :=
  sys.handled earlier buffer ≠ .unlisted ∧
    (isCd buffer ∨ sys.fork earlier buffer ∧ sys.setpgid earlier buffer ∧
      (isBackground buffer ∨ sys.handled earlier buffer ≠ .child))

instance (sys : System) (earlier : List (List UInt8)) (buffer : List UInt8) :
    Decidable (Survives sys earlier buffer) :=
  inferInstanceAs (Decidable (_ ∧ _))

/-- The shell waits for a command that is killed by a signal. -/
def Killed (sys : System) (earlier : List (List UInt8)) (buffer : List UInt8) : Prop :=
  ¬ isCd buffer ∧ ¬ isBackground buffer ∧ (sys.status earlier buffer).killed

instance (sys : System) (earlier : List (List UInt8)) (buffer : List UInt8) :
    Decidable (Killed sys earlier buffer) :=
  inferInstanceAs (Decidable (_ ∧ _))

theorem Status.failed_eq_zero {status : Status} :
    status.failed = 0 ↔ status = .exited 0 ∨ status.killed := by
  cases status <;> simp [failed, killed]

section Execute

variable {sys : System} {earlier : List (List UInt8)} {buffer : List UInt8} {failed : Int}

/-- The shell ends in a command exactly where the system makes it. -/
theorem executeCommand_eq_none :
    executeCommand sys earlier buffer = none ↔ ¬ Survives sys earlier buffer := by
  unfold executeCommand Survives isCd
  split_ifs <;> simp_all

/-- A command returns zero exactly when it succeeds or is killed. -/
theorem executeCommand_eq_zero (h : executeCommand sys earlier buffer = some failed) :
    failed = 0 ↔ Succeeds sys earlier buffer ∨ Killed sys earlier buffer := by
  unfold executeCommand at h
  unfold Succeeds Killed
  by_cases hcd : isCd buffer
  · have hpath : buffer ≠ [99, 100] → [99, 100, 32].isPrefixOf buffer = true := by
      intro hne
      simpa [isCd, hne] using hcd
    split_ifs at h with _ hnone _ hchdir
    · subst hnone
      simp [← Option.some.inj h, hcd]
    · simp [← Option.some.inj h, hcd, hchdir]
    · simp [← Option.some.inj h, hcd, hnone, hchdir]
    all_goals exact absurd (hpath hnone) ‹_›
  · have hnone : buffer ≠ [99, 100] ∧ ¬ [99, 100, 32].isPrefixOf buffer = true := by
      simpa [isCd] using hcd
    rw [if_neg hnone.1, if_neg hnone.2] at h
    split_ifs at h with _ hfork _ hback
    · have hforks : sys.fork earlier buffer = true := by simpa using hfork
      simp [← Option.some.inj h, hcd, hforks, hback]
    · have hforks : sys.fork earlier buffer = true := by simpa using hfork
      simp [← Option.some.inj h, hcd, hforks, hback, Status.failed_eq_zero]

/-- A command that is killed has failed. -/
theorem Killed.not_succeeds (h : Killed sys earlier buffer) : ¬ Succeeds sys earlier buffer := by
  obtain ⟨hcd, hback, hkilled⟩ := h
  rw [Succeeds, if_neg hcd]
  rintro ⟨-, hstarted | hexited⟩
  · exact hback hstarted
  · rw [hexited] at hkilled
    cases hkilled

end Execute

/-! ## The loop over the tokens -/

/-- `strsep` with one delimiter: the string before it, and the one behind it. -/
def strsep (s : List UInt8) (delimiter : UInt8) : List UInt8 × Option (List UInt8) :=
  if delimiter ∈ s then (s.takeWhile (· ≠ delimiter), some (s.dropWhile (· ≠ delimiter)).tail)
  else (s, none)

/-- The string `n` characters on, `none` behind its NUL. -/
def advance (n : Nat) (s : List UInt8) : Option (List UInt8) :=
  if n ≤ s.length then some (s.drop n) else none

/-- The string without its last character, `none` where there is none to write a NUL over. -/
def chop (s : List UInt8) : Option (List UInt8) := if s = [] then none else some s.dropLast

section Loop

variable (sys : System) (buffer : List UInt8)

/-- The commands that `execute_command` is called with, and whether the shell ends in the last. -/
structure Calls where
  commands : List (List UInt8)
  ended : Bool
  deriving DecidableEq

/-- The left command, and the right one if it is to be run after that. -/
def runBoth (goesOn : Int → Bool) (left right : List UInt8) : Calls :=
  match executeCommand sys [] left with
  | none => ⟨[left], true⟩
  | some failed =>
    if goesOn failed then ⟨[left, right], (executeCommand sys [left] right).isNone⟩
    else ⟨[left], false⟩

/-- The branches for `&&` and `||`: the space before the operator is cut off on the left, the rest
of the operator and the space behind it on the right. -/
def cutPair (delimiter : UInt8) (goesOn : Int → Bool) : Option Calls := do
  let (left, right) := strsep buffer delimiter
  let left ← chop left
  let right ← right.bind (advance 2)
  some (runBoth sys goesOn left right)

/-- The branch for a semicolon. -/
def cutSemicolon : Option Calls := do
  let (left, right) := strsep buffer 59
  let right ← right.bind (advance 1)
  some (runBoth sys (fun _ => true) left right)

/-- The loop over the tokens: the commands that are run. -/
def logicalOps : List (List UInt8) → Option Calls
  | [] => some ⟨[buffer], (executeCommand sys [] buffer).isNone⟩
  | cmd :: cmds =>
    if cmd = [38, 38] then cutPair sys buffer 38 fun failed => failed = 0
    else if cmd = [124, 124] then cutPair sys buffer 124 fun failed => failed ≠ 0
    else do
      let last ← cmd.getLast?
      if last = 59 then cutSemicolon sys buffer else logicalOps cmds

end Loop

/-- The lines that one of the branches for built-in commands takes. -/
def isBuiltin (buffer : List UInt8) : Bool :=
  buffer = [] || [101, 120, 105, 116].isPrefixOf buffer ||
  buffer = [33, 104, 105, 115, 116, 111, 114, 121] || [35].isPrefixOf buffer ||
  [33].isPrefixOf buffer || buffer = [112, 115] || [107, 105, 108, 108].isPrefixOf buffer ||
  [115, 116, 111, 112].isPrefixOf buffer || [99, 111, 110, 116].isPrefixOf buffer

/-- What the shell runs for a line, where `builtin` stands for the branches for built-ins. -/
def shellLine (sys : System) (builtin : List UInt8 → Option Calls) (buffer : CString) :
    Option Calls :=
  if isBuiltin buffer.bytes then builtin buffer.bytes
  else do
    let (_, cmds) ← Sstring.sstringSplit buffer.block 32
    logicalOps sys buffer.bytes cmds

/-! ## Operators -/

inductive Operator where
  | and
  | or
  | seq
  deriving DecidableEq

namespace Operator

/-- The character at which the line is cut. -/
def char : Operator → UInt8
  | .and => 38
  | .or => 124
  | .seq => 59

/-- The operator with its spaces. -/
def text : Operator → List UInt8
  | .and => [32, 38, 38, 32]
  | .or => [32, 124, 124, 32]
  | .seq => [59, 32]

/-- A line of two commands. -/
def line (op : Operator) (l r : List UInt8) : List UInt8 := l ++ (op.text ++ r)

/-- Whether the right command is run, for what the left one has returned. -/
def goesOn : Operator → Int → Bool
  | .and, failed => failed = 0
  | .or, failed => failed ≠ 0
  | .seq, _ => true

/-- Whether the right command is to be run, if the left one succeeds or fails. -/
def wants : Operator → Bool → Bool
  | .and, succeeds => succeeds
  | .or, succeeds => !succeeds
  | .seq, _ => true

/-- The tokens of the left command that do not have the operator at their end. -/
def passed (op : Operator) (l : List UInt8) : List (List UInt8) :=
  if op = .seq then (l.splitOn 32).dropLast else l.splitOn 32

end Operator

/-- The branch for the operator. -/
def Operator.cut (sys : System) (buffer : List UInt8) : Operator → Option Calls
  | .and => cutPair sys buffer 38 fun failed => failed = 0
  | .or => cutPair sys buffer 124 fun failed => failed ≠ 0
  | .seq => cutSemicolon sys buffer

/-- The words that a line of a built-in command begins with, and the characters of the history. -/
def keywords : List (List UInt8) :=
  [[101, 120, 105, 116], [107, 105, 108, 108], [115, 116, 111, 112], [99, 111, 110, 116],
    [33], [35]]

/-- A token that the shell takes for an operator. -/
def IsOperator (token : List UInt8) : Prop :=
  token = [38, 38] ∨ token = [124, 124] ∨ token.getLast? = some 59

instance (token : List UInt8) : Decidable (IsOperator token) :=
  inferInstanceAs (Decidable (_ ∨ _))

/-- The left command does not have the character of the operator, and among the tokens that the
shell passes there is no empty one. -/
def Clear (op : Operator) (l : List UInt8) : Prop := op.char ∉ l ∧ [] ∉ op.passed l

instance (op : Operator) (l : List UInt8) : Decidable (Clear op l) :=
  inferInstanceAs (Decidable (_ ∧ _))

/-- The operator needs to know whether the left command succeeds, and the shell gets to know: the
command is not killed by a signal. Where the shell ends in the command, the right one is not to be
run. -/
def Reported (sys : System) (op : Operator) (l : List UInt8) : Prop :=
  if Survives sys [] l then op = .seq ∨ ¬ Killed sys [] l
  else op.wants (Succeeds sys [] l) = false

instance (sys : System) (op : Operator) (l : List UInt8) : Decidable (Reported sys op l) := by
  unfold Reported
  infer_instance

variable {sys : System} {builtin : List UInt8 → Option Calls} {op : Operator}
  {l r s : List UInt8} {c d : UInt8} {n : Nat}

/-! ## Tokens -/

/-- The loop passes the tokens that are no operators, but for an empty one. -/
theorem logicalOps_append {cmds cmds' : List (List UInt8)} (h : ∀ cmd ∈ cmds, ¬ IsOperator cmd) :
    logicalOps sys s (cmds ++ cmds') = if [] ∈ cmds then none else logicalOps sys s cmds' := by
  induction cmds with
  | nil => rfl
  | cons cmd cmds ih =>
    have hcmd : ¬ IsOperator cmd := h cmd (by simp)
    have hand : cmd ≠ [38, 38] := fun heq => hcmd (Or.inl heq)
    have hor : cmd ≠ [124, 124] := fun heq => hcmd (Or.inr (Or.inl heq))
    rw [List.cons_append, logicalOps, if_neg hand, if_neg hor]
    cases hlast : cmd.getLast? with
    | none =>
      obtain rfl := List.getLast?_eq_none_iff.mp hlast
      rw [if_pos List.mem_cons_self]
      rfl
    | some last =>
      have hsemicolon : last ≠ 59 := fun heq => hcmd (Or.inr (Or.inr (heq ▸ hlast)))
      have hne : cmd ≠ [] := by
        rintro rfl
        cases hlast
      show (if last = 59 then _ else logicalOps sys s (cmds ++ cmds')) = _
      rw [if_neg hsemicolon, ih fun t ht => h t (List.mem_cons_of_mem _ ht)]
      simp [hne.symm]

/-- A character at the end of a string belongs to its last token. -/
theorem exists_splitOn_snoc (hcd : c ≠ d) (s : List UInt8) :
    ∃ front last, s.splitOn d = front ++ [last] ∧ (s ++ [c]).splitOn d = front ++ [last ++ [c]] := by
  induction s with
  | nil => exact ⟨[], [], List.splitOn_nil _, List.splitOn_eq_singleton (by simpa using hcd.symm)⟩
  | cons x s ih =>
    obtain ⟨front, last, hs, hsnoc⟩ := ih
    rw [List.cons_append, List.splitOn_cons_eq_if_modifyHead, List.splitOn_cons_eq_if_modifyHead,
      hs, hsnoc]
    by_cases hx : x == d
    · exact ⟨[] :: front, last, by rw [if_pos hx]; rfl, by rw [if_pos hx]; rfl⟩
    · rw [if_neg hx, if_neg hx]
      cases front with
      | nil => exact ⟨[], x :: last, rfl, rfl⟩
      | cons token front => exact ⟨(x :: token) :: front, last, rfl, rfl⟩

/-! ## The cut -/

theorem strsep_append_cons (h : d ∉ l) : strsep (l ++ d :: s) d = (l, some s) := by
  have hall : ∀ x ∈ l, decide (x ≠ d) = true := fun x hx =>
    decide_eq_true fun heq => h (heq ▸ hx)
  rw [strsep, if_pos (by simp), List.takeWhile_append_of_pos hall,
    List.dropWhile_append_of_pos hall]
  simp

/-- A line with the delimiter in front is cut in front. -/
theorem strsep_fst_length (h : d ∈ l) : (strsep (l ++ s) d).1.length < l.length := by
  obtain ⟨u, v, rfl, hu⟩ := List.eq_append_cons_of_mem h
  rw [List.append_assoc, List.cons_append, strsep_append_cons hu]
  simp

@[simp] theorem chop_snoc : chop (l ++ [c]) = some l := by simp [chop]

theorem length_of_chop {left : List UInt8} (h : chop s = some left) :
    left.length = s.length - 1 := by
  rw [chop] at h
  split_ifs at h
  obtain rfl := Option.some.inj h
  exact List.length_dropLast

theorem advance_append (s : List UInt8) (h : l.length = n) :
    advance n (l ++ s) = some s := by
  subst h
  rw [advance, if_pos (by simp), List.drop_left]

/-- A clear left command is cut off as it is, and so is the right one. -/
theorem cutPair_of_notMem {goesOn : Int → Bool} (h : d ∉ l) (hspace : d ≠ 32) :
    cutPair sys (l ++ ([32, d, d, 32] ++ r)) d goesOn = some (runBoth sys goesOn l r) := by
  have hleft : d ∉ l ++ [32] := by simpa [hspace] using h
  have hline : l ++ ([32, d, d, 32] ++ r) = (l ++ [32]) ++ d :: (d :: ([32] ++ r)) := by simp
  have hadvance : advance 2 (d :: ([32] ++ r)) = some r := advance_append r (l := [d, 32]) rfl
  rw [cutPair, hline, strsep_append_cons hleft]
  simp only [Option.bind_eq_bind, Option.bind_some, chop_snoc, hadvance]

theorem cut_of_notMem (h : op.char ∉ l) :
    op.cut sys (op.line l r) = some (runBoth sys op.goesOn l r) := by
  cases op with
  | and => exact cutPair_of_notMem h (by decide)
  | or => exact cutPair_of_notMem h (by decide)
  | seq =>
    have hline : Operator.line .seq l r = l ++ 59 :: ([32] ++ r) := rfl
    have hcut : strsep (l ++ 59 :: ([32] ++ r)) 59 = (l, some ([32] ++ r)) := strsep_append_cons h
    have hadvance : advance 1 ([32] ++ r) = some r := advance_append r rfl
    rw [Operator.cut, cutSemicolon, hline, hcut]
    simp only [Option.bind_eq_bind, Option.bind_some, hadvance]
    rfl

theorem head?_runBoth (goesOn : Int → Bool) :
    (runBoth sys goesOn l r).commands.head? = some l := by
  rw [runBoth]
  split
  · rfl
  · split_ifs <;> rfl

/-- The operator is obeyed exactly where the left command is reported. -/
theorem runBoth_eq_iff :
    (runBoth sys op.goesOn l r).commands =
        (if op.wants (Succeeds sys [] l) then [l, r] else [l]) ↔ Reported sys op l := by
  rw [runBoth, Reported]
  cases hexecute : executeCommand sys [] l with
  | none =>
    rw [if_neg (executeCommand_eq_none.mp hexecute)]
    cases op.wants (Succeeds sys [] l) <;> simp
  | some failed =>
    have hsurvives : Survives sys [] l := by
      by_contra hnot
      rw [executeCommand_eq_none.mpr hnot] at hexecute
      cases hexecute
    have hzero := executeCommand_eq_zero hexecute
    -- only a command that was killed is reported as a success without being one
    have hgoesOn : op.goesOn failed = op.wants (Succeeds sys [] l) ↔
        op = .seq ∨ ¬ Killed sys [] l := by
      by_cases hkilled : Killed sys [] l
      · have hfails := hkilled.not_succeeds
        cases op <;> simp [Operator.goesOn, Operator.wants, hzero, hkilled, hfails]
      · cases op <;> simp [Operator.goesOn, Operator.wants, hzero, hkilled]
    rw [if_pos hsurvives, ← hgoesOn]
    dsimp only
    cases op.goesOn failed <;> cases op.wants (Succeeds sys [] l) <;> simp

/-- A left command that has the character is run without its end. -/
theorem cut_of_mem {calls : Calls} (h : op.char ∈ l)
    (hcut : op.cut sys (op.line l r) = some calls) : calls.commands.head? ≠ some l := by
  have hshort := strsep_fst_length (s := op.text ++ r) h
  -- `strsep` stops at the first character of the operator, which is inside `l`
  have hpair : ∀ goesOn, cutPair sys (op.line l r) op.char goesOn = some calls →
      calls.commands.head? ≠ some l := by
    intro goesOn hcalls
    rw [cutPair] at hcalls
    obtain ⟨left, hleft, hcalls⟩ := Option.bind_eq_some_iff.mp hcalls
    obtain ⟨right, -, hcalls⟩ := Option.bind_eq_some_iff.mp hcalls
    obtain rfl := Option.some.inj hcalls
    rw [head?_runBoth]
    intro heq
    obtain rfl := Option.some.inj heq
    have hlen : left.length = (strsep (left ++ (op.text ++ r)) op.char).1.length - 1 :=
      length_of_chop hleft
    omega
  cases op with
  | and => exact hpair _ hcut
  | or => exact hpair _ hcut
  | seq =>
    rw [Operator.cut, cutSemicolon] at hcut
    obtain ⟨right, -, hcalls⟩ := Option.bind_eq_some_iff.mp hcut
    obtain rfl := Option.some.inj hcalls
    rw [head?_runBoth]
    intro heq
    have hlen := congrArg List.length (Option.some.inj heq)
    change ((strsep (l ++ (Operator.seq.text ++ r)) 59).1).length = l.length at hlen
    change ((strsep (l ++ (Operator.seq.text ++ r)) 59).1).length < l.length at hshort
    omega

/-! ## Lines -/

/-- The tokens of a line: those that are passed, and the one that the operator is found at. -/
theorem logicalOps_line (h : ∀ token ∈ l.splitOn 32, ¬ IsOperator token) :
    logicalOps sys s ((op.line l r).splitOn 32) =
      if [] ∈ op.passed l then none else op.cut sys s := by
  cases op with
  | and =>
    have hsplit : (Operator.line .and l r).splitOn 32 =
        l.splitOn 32 ++ [38, 38] :: r.splitOn 32 := by
      have htoken : (32 : UInt8) ∉ [(38 : UInt8), 38] := by decide
      rw [Operator.line, Operator.text, List.cons_append, List.splitOn_append_cons_self]
      exact congrArg _ (List.splitOn_append_cons_self_of_not_mem htoken r)
    rw [hsplit, logicalOps_append h]
    rfl
  | or =>
    have hsplit : (Operator.line .or l r).splitOn 32 =
        l.splitOn 32 ++ [124, 124] :: r.splitOn 32 := by
      have htoken : (32 : UInt8) ∉ [(124 : UInt8), 124] := by decide
      rw [Operator.line, Operator.text, List.cons_append, List.splitOn_append_cons_self]
      exact congrArg _ (List.splitOn_append_cons_self_of_not_mem htoken r)
    rw [hsplit, logicalOps_append h]
    rfl
  | seq =>
    obtain ⟨front, last, hl, hsnoc⟩ := exists_splitOn_snoc (c := 59) (d := 32) (by decide) l
    have hsplit : (Operator.line .seq l r).splitOn 32 =
        front ++ (last ++ [59]) :: r.splitOn 32 := by
      have hline : Operator.line .seq l r = (l ++ [59]) ++ 32 :: r := by
        simp [Operator.line, Operator.text]
      rw [hline, List.splitOn_append_cons_self, hsnoc]
      simp
    have hpassed : Operator.passed .seq l = front := by
      rw [Operator.passed, if_pos rfl, hl, List.dropLast_concat]
    have hfront : ∀ token ∈ front, ¬ IsOperator token := by
      intro token ht
      exact h token (by rw [hl]; exact List.mem_append_left _ ht)
    have hand : last ++ [59] ≠ [38, 38] := by
      intro heq
      have := congrArg List.getLast? heq
      simp at this
    have hor : last ++ [59] ≠ [124, 124] := by
      intro heq
      have := congrArg List.getLast? heq
      simp at this
    rw [hsplit, logicalOps_append hfront, hpassed, logicalOps, if_neg hand, if_neg hor,
      List.getLast?_append]
    rfl

/-- A word in front of a line is in front of the left command. -/
theorem prefix_of_prefix_append {k : List UInt8} (hc : c ∉ k) (h : k <+: l ++ c :: s) :
    k <+: l := by
  rcases List.prefix_or_prefix_of_prefix h (List.prefix_append l (c :: s)) with hk | ⟨m, rfl⟩
  · exact hk
  · cases m with
    | nil => simp
    | cons x m =>
      rw [List.prefix_append_right_inj, List.cons_prefix_cons] at h
      exact absurd (by simp [h.1]) hc

theorem isBuiltin_line (hl : l ≠ []) (hkey : ∀ k ∈ keywords, ¬ k <+: l) :
    isBuiltin (op.line l r) = false := by
  have htext : ∃ c rest, op.text ++ r = c :: rest ∧ (c = 32 ∨ c = 59) := by
    cases op with
    | and => exact ⟨32, _, rfl, Or.inl rfl⟩
    | or => exact ⟨32, _, rfl, Or.inl rfl⟩
    | seq => exact ⟨59, _, rfl, Or.inr rfl⟩
  obtain ⟨c, rest, htext, hc⟩ := htext
  have hprefix : ∀ k ∈ keywords, k.isPrefixOf (op.line l r) = false := by
    intro k hk
    apply Bool.eq_false_of_not_eq_true
    intro hpre
    rw [List.isPrefixOf_iff_prefix, Operator.line, htext] at hpre
    have hsep : ∀ k ∈ keywords, (32 : UInt8) ∉ k ∧ (59 : UInt8) ∉ k := by decide
    refine hkey k hk (prefix_of_prefix_append ?_ hpre)
    rcases hc with rfl | rfl
    · exact (hsep k hk).1
    · exact (hsep k hk).2
  have hchar : op.char ∈ op.line l r := by
    rw [Operator.line]
    cases op <;> simp [Operator.char, Operator.text]
  have hne : ∀ t, op.char ∉ t → op.line l r ≠ t := fun t ht heq => ht (heq ▸ hchar)
  have hempty : op.line l r ≠ [] := by simp [Operator.line, hl]
  have hhistory : op.line l r ≠ [33, 104, 105, 115, 116, 111, 114, 121] :=
    hne _ (by cases op <;> decide)
  have hps : op.line l r ≠ [112, 115] := hne _ (by cases op <;> decide)
  simp only [isBuiltin, hempty, hhistory, hps, decide_false, Bool.or_false,
    hprefix _ (show [101, 120, 105, 116] ∈ keywords by decide),
    hprefix _ (show [107, 105, 108, 108] ∈ keywords by decide),
    hprefix _ (show [115, 116, 111, 112] ∈ keywords by decide),
    hprefix _ (show [99, 111, 110, 116] ∈ keywords by decide),
    hprefix _ (show [33] ∈ keywords by decide), hprefix _ (show [35] ∈ keywords by decide)]

/-- What the shell does with a line of two commands. -/
theorem shellLine_line {buffer : CString} (hbuffer : buffer.bytes = op.line l r) (hl : l ≠ [])
    (hkey : ∀ k ∈ keywords, ¬ k <+: l) (htokens : ∀ token ∈ l.splitOn 32, ¬ IsOperator token) :
    shellLine sys builtin buffer =
      if [] ∈ op.passed l then none else op.cut sys (op.line l r) := by
  have hne : buffer.bytes ≠ [] := by simp [hbuffer, Operator.line, hl]
  have hsplit := Sstring.sstringSplit_of_ne_nil (d := 32) buffer (by decide) hne
  rw [shellLine, hbuffer, isBuiltin_line hl hkey, hsplit, ← logicalOps_line htokens, hbuffer]
  rfl

/-- **The line is split at the operator exactly where it is clear, and the operator is obeyed where
the left command is reported.** For two commands with an operator between them, the left one without
a token that is an operator and not a built-in command: the shell runs the left one as it is, and
then the right one as it is if the operator wants it for the success of the left one, if and only if
the left one does not have the character of the operator, there is no empty token among those that
are passed, and the shell survives the left command and learns whether it has succeeded. -/
theorem shellLine_iff (sys : System) (builtin : List UInt8 → Option Calls) (buffer : CString)
    (op : Operator) (l r : List UInt8) (hbuffer : buffer.bytes = op.line l r) (hl : l ≠ [])
    (hkey : ∀ k ∈ keywords, ¬ k <+: l) (htokens : ∀ token ∈ l.splitOn 32, ¬ IsOperator token) :
    (shellLine sys builtin buffer).map Calls.commands =
        some (if op.wants (Succeeds sys [] l) then [l, r] else [l]) ↔
      Clear op l ∧ Reported sys op l := by
  rw [shellLine_line hbuffer hl hkey htokens, Clear]
  by_cases hempty : [] ∈ op.passed l
  · rw [if_pos hempty]
    exact iff_of_false (by simp) fun h => h.1.2 hempty
  · rw [if_neg hempty]
    by_cases hchar : op.char ∈ l
    · refine iff_of_false (fun hcut => ?_) fun h => h.1.1 hchar
      obtain ⟨calls, hcalls, hcommands⟩ := Option.map_eq_some_iff.mp hcut
      refine cut_of_mem hchar hcalls ?_
      rw [hcommands]
      split_ifs <;> rfl
    · rw [cut_of_notMem hchar, Option.map_some, Option.some.injEq, runBoth_eq_iff]
      exact (and_iff_right ⟨hchar, hempty⟩).symm

/-- Directories can be entered, and children succeed. -/
def quietSystem : System where
  chdir _ _ := 0
  fork _ _ := true
  setpgid _ _ := true
  handled _ _ := .others
  status _ _ := .exited 0

/-- The line `a b || c`: the first command succeeds, so the second one is not run. -/
theorem shellLine_iff_a_or_c :
    (shellLine quietSystem (fun _ => none)
      ⟨[97, 32, 98, 32, 124, 124, 32, 99], by decide, by decide⟩).map Calls.commands =
      some [[97, 32, 98]] :=
  (shellLine_iff quietSystem (fun _ => none)
    ⟨[97, 32, 98, 32, 124, 124, 32, 99], by decide, by decide⟩
    .or [97, 32, 98] [99] rfl (by decide) (by decide) (by decide)).mpr ⟨by decide, by decide⟩

/-- The line `echo a&b && ls`. -/
def ampersandLine : CString :=
  ⟨[101, 99, 104, 111, 32, 97, 38, 98, 32, 38, 38, 32, 108, 115], by decide, by decide⟩

/-- The line is cut in the middle of the first command. -/
theorem not_shellLine :
    ¬ ∀ (sys : System) (builtin : List UInt8 → Option Calls) (buffer : CString)
      (op : Operator) (l r : List UInt8), buffer.bytes = op.line l r → l ≠ [] → r ≠ [] →
      (∀ k ∈ keywords, ¬ k <+: l ∧ ¬ k <+: r) →
      (∀ token ∈ l.splitOn 32 ++ r.splitOn 32, ¬ IsOperator token) →
      (shellLine sys builtin buffer).map Calls.commands =
        some (if op.wants (Succeeds sys [] l) then [l, r] else [l]) := by
  intro h
  have hline : ampersandLine.bytes =
      Operator.line .and [101, 99, 104, 111, 32, 97, 38, 98] [108, 115] := rfl
  have hcalls := h quietSystem (fun _ => none) ampersandLine .and
    [101, 99, 104, 111, 32, 97, 38, 98] [108, 115] hline (by decide) (by decide) (by decide)
    (by decide)
  rw [shellLine_line hline (by decide) (by decide) (by decide)] at hcalls
  revert hcalls
  decide

end SystemProgramming.Shell
