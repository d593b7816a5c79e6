import SystemProgramming.Foundation.Run

/-!
# The process table of `shell/shell.c`

The shell keeps an entry in the vector `processes` for each command it has launched. An entry is
erased in three places: in the handler of `SIGCHLD`, which waits for every child that has exited,
after the wait for a foreground command, and by the built-in `kill`.

A step is what the shell does between two points where the signal may arrive; the handler runs as
a whole, and reaps the exited children in an order the kernel chooses. The kernel's side is the
list of children that were not waited for: a child exits when it likes, and a new one gets a
process id that none of them has. `vector_erase` asserts that its index is inside the vector, and
a failed assertion ends the shell.

Launches are numbered. The numbers, and the fields `removed` and `killed`, are there to state what
becomes of a launch; no function of the source reads them.

## Main definitions

* `Process`, `Child`, `Phase`, `State`: the table, the kernel's children, and where the shell is
* `deleteProcess`, `removeProcess`, `waitForAllBackgroundChildProcesses`: the three removals
* `Input`, `step`: commands, the points between them, and the signal
-/

namespace SystemProgramming.Shell

/-- `pid_t`. -/
abbrev Pid := Int

/-- An entry of `processes`, with the number of its launch. -/
structure Process where
  command : List UInt8
  pid : Pid
  launch : Nat
  deriving DecidableEq

/-- What a child does. A child is dying once it was sent `SIGKILL`. -/
inductive ChildState where
  | running
  | stopped
  | dying
  | exited
  deriving DecidableEq

/-- The signals that the built-ins send. -/
inductive Signal where
  | sigkill
  | sigstop
  | sigcont
  deriving DecidableEq

def ChildState.deliver : Signal → ChildState → ChildState
  | .sigkill, .running => .dying
  | .sigkill, .stopped => .dying
  | .sigstop, .running => .stopped
  | .sigcont, .stopped => .running
  | _, state => state

/-- A child that was not waited for, with the number of its launch. -/
structure Child where
  pid : Pid
  launch : Nat
  state : ChildState
  deriving DecidableEq

/-- Where the shell is. -/
inductive Phase where
  /-- Before the next command. -/
  | prompt
  /-- In `execute_command`, between `fork` and `vector_push_back` of the new process. -/
  | forked (p : Process)
  /-- In `execute_command`, before `setpgid`. -/
  | pushed (buffer : List UInt8) (child : Pid)
  /-- In `execute_command`, before `waitpid`. -/
  | waiting (child : Pid)
  /-- In `execute_command`, between `waitpid` and `delete_process`. -/
  | waited (child : Pid)
  /-- In the built-in `kill`, between `kill` and `remove_process`. -/
  | killing (pid : Pid)
  /-- After `exit`. -/
  | exited
  /-- After a failed assertion. -/
  | aborted
  deriving DecidableEq

structure State where
  processes : List Process
  children : List Child
  phase : Phase
  /-- How many children were launched. -/
  launches : Nat
  /-- The launches whose entry was erased, in this order. -/
  removed : List Nat
  /-- The launches whose entry was erased by the built-in `kill`. -/
  killed : List Nat
  deriving DecidableEq

/-- The shell before its first command. -/
def State.start : State := ⟨[], [], .prompt, 0, [], []⟩

/-! ## The vector -/

/-- `vector_erase`: `none` is the failed assertion that the index is inside. -/
def State.vectorErase (s : State) (position : Nat) : Option State :=
  (s.processes[position]?).map fun p =>
    { s with processes := s.processes.eraseIdx position, removed := s.removed ++ [p.launch] }

/-- The index of the first entry with the process id. -/
def State.position (s : State) (pid : Pid) : Option Nat := s.processes.findIdx? (·.pid = pid)

/-- `remove_process`. -/
def State.removeProcess (s : State) (pid : Pid) : Option State :=
  match s.position pid with
  | some i => s.vectorErase i
  | none => some s

/-- `delete_process`: an id that is not found leaves `removed_pos` at `-1`, which is a
`size_t`. -/
def State.deleteProcess (s : State) (pid : Pid) : Option State :=
  s.vectorErase ((s.position pid).getD (2 ^ 64 - 1))

/-- `get_process_by_pid`. -/
def State.getProcessByPid (s : State) (pid : Pid) : Option Process :=
  s.processes.find? (·.pid = pid)

/-! ## The kernel -/

/-- A child is waited for: its process id may be used again. -/
def State.reap (s : State) (pid : Pid) : State :=
  { s with children := s.children.filter (·.pid ≠ pid) }

/-- `kill`. -/
def State.kill (s : State) (pid : Pid) (signal : Signal) : State :=
  { s with children := s.children.map fun c =>
      if c.pid = pid then { c with state := c.state.deliver signal } else c }

/-- The process ids `fork` may return. -/
def State.Fresh (s : State) (pid : Pid) : Prop :=
  0 < pid ∧ pid < 2 ^ 31 ∧ ∀ c ∈ s.children, c.pid ≠ pid

instance (s : State) (pid : Pid) : Decidable (s.Fresh pid) := inferInstanceAs (Decidable (_ ∧ _))

/-- The orders in which `waitpid` may report the children that have exited. -/
def State.Exited (s : State) (order : List Pid) : Prop :=
  order.Perm ((s.children.filter (·.state = .exited)).map Child.pid)

instance (s : State) (order : List Pid) : Decidable (s.Exited order) :=
  inferInstanceAs (Decidable (List.Perm _ _))

/-- `wait_for_all_background_child_processes`, the handler of `SIGCHLD`. -/
def State.waitForAllBackgroundChildProcesses (s : State) (order : List Pid) : Option State :=
  order.foldlM (fun s pid => (s.reap pid).deleteProcess pid) s

/-! ## Commands -/

/-- The commands that `execute_command` does not fork for: `cd`, and `cd` with a path. -/
def isCd (buffer : List UInt8) : Bool := buffer = [99, 100] || [99, 100, 32].isPrefixOf buffer

/-- A command that ends in an ampersand runs in the background. -/
def isBackground (buffer : List UInt8) : Bool := buffer.getLast? = some 38

/-- What the shell is given and what happens to it. The kernel's answers are part of it. -/
inductive Input where
  /-- `execute_command`, up to `fork`. No process id is a failed `fork`. -/
  | execute (buffer : List UInt8) (child : Option Pid)
  /-- `vector_push_back` of the new process. -/
  | pushBack
  /-- `setpgid`. -/
  | setpgid (succesfully : Bool)
  /-- `waitpid` for the foreground child. -/
  | waitpid
  /-- `delete_process` for the foreground child. -/
  | delete
  /-- A built-in `kill`, `stop` or `cont`, up to the call of `kill`. -/
  | builtin (signal : Signal) (pid : Pid)
  /-- `remove_process` of the built-in `kill`. -/
  | remove
  /-- `SIGCHLD` is delivered. -/
  | sigchld (order : List Pid)
  /-- A child exits. -/
  | exit (pid : Pid)

/-- A failed assertion. -/
def State.abort (s : State) : State := { s with phase := .aborted }

/-- The phases in which the shell is still there. -/
def Phase.Alive (phase : Phase) : Prop := phase ≠ .exited ∧ phase ≠ .aborted

instance (phase : Phase) : Decidable phase.Alive := inferInstanceAs (Decidable (_ ∧ _))

def step (s : State) : Input → Option State
  | .execute buffer child =>
    if s.phase ≠ .prompt then none
    else if isCd buffer then some s
    else
      match child with
      | none => some { s with phase := .exited }
      | some pid =>
        if s.Fresh pid then
          some { s with
            children := s.children ++ [⟨pid, s.launches, .running⟩]
            phase := .forked ⟨buffer, pid, s.launches⟩
            launches := s.launches + 1 }
        else none
  | .pushBack =>
    match s.phase with
    | .forked p => some { s with processes := s.processes ++ [p], phase := .pushed p.command p.pid }
    | _ => none
  | .setpgid succesfully =>
    match s.phase with
    | .pushed buffer child =>
      if !succesfully then some { s with phase := .exited }
      else if isBackground buffer then some { s with phase := .prompt }
      else some { s with phase := .waiting child }
    | _ => none
  | .waitpid =>
    match s.phase with
    | .waiting child =>
      match s.children.find? (·.pid = child) with
      -- there is no such child any more
      | none => some { s with phase := .exited }
      | some c =>
        if c.state = .exited then some { s.reap child with phase := .waited child } else none
    | _ => none
  | .delete =>
    match s.phase with
    | .waited child =>
      match s.deleteProcess child with
      | some s => some { s with phase := .prompt }
      | none => some s.abort
    | _ => none
  | .builtin signal pid =>
    if s.phase ≠ .prompt then none
    else
      match s.getProcessByPid pid with
      | none => some s
      | some _ =>
        if signal = .sigkill then some { s.kill pid signal with phase := .killing pid }
        else some (s.kill pid signal)
  | .remove =>
    match s.phase with
    | .killing pid =>
      match s.removeProcess pid with
      | some t => some { t with
          phase := .prompt
          killed := s.killed ++ ((s.getProcessByPid pid).map Process.launch).toList }
      | none => some s.abort
    | _ => none
  | .sigchld order =>
    if s.phase.Alive ∧ s.Exited order then
      match s.waitForAllBackgroundChildProcesses order with
      | some s => some s
      | none => some s.abort
    else none
  | .exit pid =>
    if ∃ c ∈ s.children, c.pid = pid then
      some { s with children := s.children.map fun c =>
        if c.pid = pid then { c with state := .exited } else c }
    else none

end SystemProgramming.Shell
