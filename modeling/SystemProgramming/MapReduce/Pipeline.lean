import SystemProgramming.Foundation.Lines
import SystemProgramming.Foundation.Run

/-!
# The processes of `mapreduce.c`

`main` makes one pipe for each mapper and one for the reducer, starts a splitter and a mapper for
each of the `n` portions and then the reducer, and waits for all of them. A child gets every end
of a pipe that `main` still has when it forks, and closes only one of them: a splitter has the
write ends of all pipes, and a mapper has those of the mappers behind it. A read ends only when
nobody is left with the write end, so who ends before whom is decided by these tables.

The processes take their steps in any order. A pipe has room for `capacity` bytes. Any part of a
larger write may go first, but at most `PIPE_BUF` bytes are written all at once. What a mapper
prints for a line is in the buffer of its `output` until `fflush`.

## Main definitions

* `World`: the processes, their ends of the pipes, and what is in the pipes
* `stepMain`: the next action of `main`
* `step`: the next action of any process
-/

namespace SystemProgramming.MapReduce.Pipeline

variable {n : Nat} {β : Type}

inductive Proc (n : Nat) where
  | main
  | splitter (i : Fin n)
  | mapper (i : Fin n)
  | reducer
  deriving DecidableEq

/-- The ends of the pipes: `mp[i][0]`, `mp[i][1]`, `red[0]` and `red[1]`. -/
inductive End (n : Nat) where
  | mpRead (i : Fin n)
  | mpWrite (i : Fin n)
  | redRead
  | redWrite
  deriving DecidableEq

inductive Phase where
  | unborn
  | running
  | exited
  | killed
  deriving DecidableEq

/-- Where `main` is: in a loop, with its index, or at one of the statements for the reducer. -/
inductive Line where
  | splitters (i : Nat)
  | mappers (i : Nat)
  | waitSplitters (i : Nat)
  | waitMappers (i : Nat)
  | waitReducer
  | returned
  deriving DecidableEq

/-- The variables of `run_mapper_on_fds`: what is read but not yet taken by `getline`, and what
is left of a flush of `size` bytes. -/
structure Task where
  buffer : List UInt8
  eof : Bool
  size : Nat
  output : List UInt8

/-- The state of all processes. `rest i` is what splitter `i` has not written yet, `input` is
what the reducer has read, and `outFile` is what it has left in the output file. `log` has the
writes to `red`, for the proofs only. -/
structure World (n : Nat) (β : Type) where
  line : Line
  phase : Proc n → Phase
  ends : Proc n → End n → Bool
  rest : Fin n → List UInt8
  pipe : Fin n → List UInt8
  task : Fin n → Task
  red : List UInt8
  input : List UInt8
  outFile : Option β
  log : List (Fin n × List UInt8)

/-- The two loops that make the pipes are done, and `portion i` is what splitter `i` will find. -/
def World.start (β : Type) (portion : Fin n → List UInt8) : World n β where
  line := .splitters 0
  phase p := if p = .main then .running else .unborn
  ends p _ := p = .main
  rest := portion
  pipe _ := []
  task _ := ⟨[], false, 0, []⟩
  red := []
  input := []
  outFile := none
  log := []

namespace World

/-- Some process has the end `e`. -/
def held (w : World n β) (e : End n) : Bool :=
  w.ends .main e || w.ends .reducer e ||
    (List.finRange n).any fun i => w.ends (.splitter i) e || w.ends (.mapper i) e

def close (w : World n β) (p : Proc n) (e : End n) : World n β :=
  { w with ends := Function.update w.ends p (Function.update (w.ends p) e false) }

/-- `fork` in `main`, and what the child closes. -/
def fork (w : World n β) (p : Proc n) (closed : List (End n)) : World n β :=
  { w with
    phase := Function.update w.phase p .running
    ends := Function.update w.ends p fun e => w.ends .main e && !closed.contains e }

/-- The end of a process closes all it has. -/
def leave (w : World n β) (p : Proc n) (how : Phase) : World n β :=
  { w with
    phase := Function.update w.phase p how
    ends := Function.update w.ends p fun _ => false }

/-- `waitpid` returns. -/
def gone (w : World n β) (p : Proc n) : Bool := w.phase p = .exited || w.phase p = .killed

end World

/-- `main`: the next fork, or the next child to wait for. -/
def stepMain (w : World n β) : Option (World n β) :=
  match w.line with
  | .splitters i =>
    if h : i < n then
      some { w.fork (.splitter ⟨i, h⟩) [.mpRead ⟨i, h⟩] with line := .splitters (i + 1) }
    else some { w with line := .mappers 0 }
  | .mappers i =>
    if h : i < n then
      let w := w.close .main (.mpWrite ⟨i, h⟩)
      some { w.fork (.mapper ⟨i, h⟩) [.redRead] with line := .mappers (i + 1) }
    else
      let w := w.close .main .redWrite
      some { w.fork .reducer [] with line := .waitSplitters 0 }
  | .waitSplitters i =>
    if h : i < n then
      if w.gone (.splitter ⟨i, h⟩) then some { w with line := .waitSplitters (i + 1) } else none
    else some { w with line := .waitMappers 0 }
  | .waitMappers i =>
    if h : i < n then
      if w.gone (.mapper ⟨i, h⟩) then some { w with line := .waitMappers (i + 1) } else none
    else some { w with line := .waitReducer }
  | .waitReducer =>
    if w.gone .reducer then some { w.leave .main .exited with line := .returned } else none
  | .returned => none

/-- `PIPE_BUF`, which is also the size of the buffer of a stream that is a pipe. -/
def pipeBuf : Nat := 4096

inductive Event (n : Nat) where
  | main
  | splitterWrite (i : Fin n) (k : Nat)
  | splitterExit (i : Fin n)
  | mapperRead (i : Fin n) (k : Nat)
  | mapperEof (i : Fin n)
  | mapperLine (i : Fin n)
  | mapperWrite (i : Fin n) (k : Nat)
  | mapperExit (i : Fin n)
  | reducerRead (k : Nat)
  | reducerExit

section Step

variable (capacity : Nat) (func : List UInt8 → List UInt8) (reduce : List UInt8 → β)

/-- The splitter writes `k` bytes. Without a reader the write kills it. -/
def splitterWrite (w : World n β) (i : Fin n) (k : Nat) : Option (World n β) :=
  if w.phase (.splitter i) = .running ∧ 0 < k ∧ k ≤ (w.rest i).length then
    if w.held (.mpRead i) then
      if (w.pipe i).length + k ≤ capacity then
        some { w with
          rest := Function.update w.rest i ((w.rest i).drop k)
          pipe := Function.update w.pipe i (w.pipe i ++ (w.rest i).take k) }
      else none
    else some (w.leave (.splitter i) .killed)
  else none

/-- `getline` needs more, and gets `k` bytes. -/
def mapperRead (w : World n β) (i : Fin n) (k : Nat) : Option (World n β) :=
  let t := w.task i
  if w.phase (.mapper i) = .running ∧ t.output = [] ∧ t.eof = false ∧ 10 ∉ t.buffer ∧
      0 < k ∧ k ≤ (w.pipe i).length then
    some { w with
      pipe := Function.update w.pipe i ((w.pipe i).drop k)
      task := Function.update w.task i { t with buffer := t.buffer ++ (w.pipe i).take k } }
  else none

/-- `getline` needs more, but the pipe is empty and nobody is left to write to it. -/
def mapperEof (w : World n β) (i : Fin n) : Option (World n β) :=
  let t := w.task i
  if w.phase (.mapper i) = .running ∧ t.output = [] ∧ t.eof = false ∧ 10 ∉ t.buffer ∧
      w.pipe i = [] ∧ w.held (.mpWrite i) = false then
    some { w with task := Function.update w.task i { t with eof := true } }
  else none

/-- `getline` returns, and `func` prints for the line. -/
def mapperLine (w : World n β) (i : Fin n) : Option (World n β) :=
  let t := w.task i
  if w.phase (.mapper i) = .running ∧ t.output = [] ∧ (10 ∈ t.buffer ∨ t.eof = true) then
    match getline t.buffer with
    | none => none
    | some (line, buffer) =>
      let output := func ((removeNewline line).takeWhile (· ≠ 0))
      some { w with task := Function.update w.task i ⟨buffer, t.eof, output.length, output⟩ }
  else none

/-- `fflush` writes `k` bytes: all of them, unless they are too many to go at once. -/
def mapperWrite (w : World n β) (i : Fin n) (k : Nat) : Option (World n β) :=
  let t := w.task i
  if w.phase (.mapper i) = .running ∧ 0 < k ∧ k ≤ t.output.length ∧
      (t.size ≤ pipeBuf → k = t.output.length) then
    if w.held .redRead then
      if w.red.length + k ≤ capacity then
        some { w with
          task := Function.update w.task i { t with output := t.output.drop k }
          red := w.red ++ t.output.take k
          log := w.log ++ [(i, t.output.take k)] }
      else none
    else some (w.leave (.mapper i) .killed)
  else none

def mapperExit (w : World n β) (i : Fin n) : Option (World n β) :=
  let t := w.task i
  if w.phase (.mapper i) = .running ∧ t.output = [] ∧ t.eof = true ∧ t.buffer = [] then
    some (w.leave (.mapper i) .exited)
  else none

/-- The next action of a process. -/
def step (w : World n β) : Event n → Option (World n β)
  | .main => stepMain w
  | .splitterWrite i k => splitterWrite capacity w i k
  | .splitterExit i =>
    if w.phase (.splitter i) = .running ∧ w.rest i = [] then some (w.leave (.splitter i) .exited)
    else none
  | .mapperRead i k => mapperRead w i k
  | .mapperEof i => mapperEof w i
  | .mapperLine i => mapperLine func w i
  | .mapperWrite i k => mapperWrite capacity w i k
  | .mapperExit i => mapperExit w i
  | .reducerRead k =>
    if w.phase .reducer = .running ∧ 0 < k ∧ k ≤ w.red.length then
      some { w with red := w.red.drop k, input := w.input ++ w.red.take k }
    else none
  | .reducerExit =>
    -- the reducer prints when it has read to the end
    if w.phase .reducer = .running ∧ w.red = [] ∧ w.held .redWrite = false then
      some { w.leave .reducer .exited with outFile := some (reduce w.input) }
    else none

end Step

end SystemProgramming.MapReduce.Pipeline
