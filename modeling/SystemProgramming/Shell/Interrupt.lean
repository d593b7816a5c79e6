import SystemProgramming.Shell.Processes

/-!
# The handler of `SIGINT`

The handler takes the number of processes, and then removes the foreground processes from the
vector while it walks through it. A removal makes the vector shorter than the loop is long, so the
last index is outside of it, and the assertion of `vector_get` fails. Only the removal of the last
entry comes late enough.

A foreground process is one whose process group is not its own id. The groups are a parameter:
nothing in the handler changes them.

## Main definitions

* `IsForeground`: what the handler asks about a process
* `handleSigint`: the handler, with the processes that `SIGKILL` is sent to
* `Interrupted`: what an interrupt is to do

## Main results

* `sigintLoop_eq_none`: a loop that is longer than the vector fails
* `sigintLoop_background`, `sigintLoop_foreground`: the walk up to the first foreground process
* `interrupted_iff`: the handler works where only the last process is in the foreground, or none
-/

namespace SystemProgramming.Shell

section Handler

variable (getpgid : Pid → Pid)

/-- The handler takes the process for one in the foreground. -/
def IsForeground (p : Process) : Prop := p.pid ≠ getpgid p.pid

instance (p : Process) : Decidable (IsForeground getpgid p) := inferInstanceAs (Decidable (_ ≠ _))

/-- The loop of `handle_SIGINT`, with so many turns to go, from index `i`. -/
def sigintLoop : Nat → Nat → State → List Pid → Option (State × List Pid)
  | 0, _, s, sent => some (s, sent)
  | turns + 1, i, s, sent => do
    let p ← s.processes[i]?
    if IsForeground getpgid p then
      let s' ← (s.kill p.pid .sigkill).removeProcess p.pid
      sigintLoop turns (i + 1) s' (sent ++ [p.pid])
    else sigintLoop turns (i + 1) s sent

/-- `handle_SIGINT`: the state, and the process ids that `SIGKILL` was sent to. -/
def handleSigint (s : State) : Option (State × List Pid) :=
  sigintLoop getpgid s.processes.length 0 s []

/-- What an interrupt is to do: `SIGKILL` is sent to the foreground processes, and they are
removed, with the others in their order. -/
def Interrupted (s : State) : Prop :=
  ∃ t sent, handleSigint getpgid s = some (t, sent) ∧
    sent = (s.processes.filter fun p => IsForeground getpgid p).map Process.pid ∧
    t.processes = s.processes.filter fun p => ¬ IsForeground getpgid p

end Handler

variable {getpgid : Pid → Pid} {s t : State} {p : Process} {pid : Pid} {sent : List Pid}
  {front mid rest : List Process} {turns i : Nat}

/-! ## Removals -/

/-- The first entry with the process id is erased. -/
theorem removeProcess_of_split (h : s.processes = front ++ p :: rest)
    (hfront : ∀ q ∈ front, q.pid ≠ p.pid) :
    ∃ t, s.removeProcess p.pid = some t ∧ t.processes = front ++ rest := by
  have hnone : front.findIdx? (fun q => decide (q.pid = p.pid)) = none := by
    simpa [List.findIdx?_eq_none_iff] using hfront
  have hpos : s.position p.pid = some front.length := by
    rw [State.position, h, List.findIdx?_append, hnone]
    simp [List.findIdx?_cons]
  have hget : s.processes[front.length]? = some p := by simp [h]
  have hremove : s.removeProcess p.pid = s.vectorErase front.length := by
    rw [State.removeProcess, hpos]
  refine ⟨_, by rw [hremove, State.vectorErase, hget]; rfl, ?_⟩
  show s.processes.eraseIdx front.length = front ++ rest
  rw [h, List.eraseIdx_append_of_length_le le_rfl]
  simp

theorem length_of_removeProcess (h : s.removeProcess pid = some t) :
    t.processes.length ≤ s.processes.length := by
  rw [State.removeProcess] at h
  split at h
  · obtain ⟨q, -, rfl⟩ := Option.map_eq_some_iff.mp h
    exact List.length_eraseIdx_le _ _
  · obtain rfl := Option.some.inj h
    exact le_rfl

/-! ## The walk -/

/-- **A loop that is longer than the vector fails**: it comes to an index outside of the vector,
whatever it removes before. -/
theorem sigintLoop_eq_none (h : s.processes.length < i + (turns + 1)) :
    sigintLoop getpgid (turns + 1) i s sent = none := by
  induction turns generalizing i s sent with
  | zero =>
    rw [sigintLoop, List.getElem?_eq_none (by omega)]
    rfl
  | succ turns ih =>
    rw [sigintLoop]
    cases hget : s.processes[i]? with
    | none => rfl
    | some p =>
      rw [Option.bind_eq_bind, Option.bind_some]
      split_ifs
      · cases hremove : (s.kill p.pid .sigkill).removeProcess p.pid with
        | none => rfl
        | some t =>
          have hlength : t.processes.length ≤ (s.kill p.pid .sigkill).processes.length :=
            length_of_removeProcess hremove
          have hkill : (s.kill p.pid .sigkill).processes.length = s.processes.length := rfl
          exact ih (by omega)
      · exact ih (by omega)

/-- The walk passes the processes in the background. -/
theorem sigintLoop_background (turns : Nat) (sent : List Pid)
    (h : s.processes = front ++ (mid ++ rest))
    (hmid : ∀ q ∈ mid, ¬ IsForeground getpgid q) :
    sigintLoop getpgid (mid.length + turns) front.length s sent =
      sigintLoop getpgid turns (front.length + mid.length) s sent := by
  induction mid generalizing front with
  | nil => simp
  | cons q mid ih =>
    have hget : s.processes[front.length]? = some q := by simp [h]
    have hturns : (q :: mid).length + turns = mid.length + turns + 1 := by
      rw [List.length_cons]
      omega
    have hsplit : s.processes = (front ++ [q]) ++ (mid ++ rest) := by simp [h]
    have hnext := ih hsplit fun q' hq' => hmid q' (List.mem_cons_of_mem q hq')
    rw [List.length_append, List.length_singleton] at hnext
    rw [hturns, sigintLoop, hget, Option.bind_eq_bind, Option.bind_some,
      if_neg (hmid q List.mem_cons_self), hnext, List.length_cons]
    congr 1
    omega

/-- The first process in the foreground is killed and removed. -/
theorem sigintLoop_foreground (turns : Nat) (sent : List Pid)
    (h : s.processes = mid ++ p :: rest)
    (hmid : ∀ q ∈ mid, ¬ IsForeground getpgid q) (hp : IsForeground getpgid p) :
    ∃ t, t.processes = mid ++ rest ∧
      sigintLoop getpgid (turns + 1) mid.length s sent =
        sigintLoop getpgid turns (mid.length + 1) t (sent ++ [p.pid]) := by
  have hpids : ∀ q ∈ mid, q.pid ≠ p.pid := by
    intro q hq heq
    apply hmid q hq
    rw [IsForeground, heq]
    exact hp
  have hkill : (s.kill p.pid .sigkill).processes = mid ++ p :: rest := h
  obtain ⟨t, hremove, ht⟩ := removeProcess_of_split hkill hpids
  have hget : s.processes[mid.length]? = some p := by simp [h]
  refine ⟨t, ht, ?_⟩
  rw [sigintLoop, hget, Option.bind_eq_bind, Option.bind_some, if_pos hp, hremove]
  rfl

theorem handleSigint_background (hall : ∀ q ∈ s.processes, ¬ IsForeground getpgid q) :
    handleSigint getpgid s = some (s, []) := by
  have hsplit : s.processes = [] ++ (s.processes ++ []) := by simp
  exact sigintLoop_background 0 [] hsplit hall

theorem handleSigint_foreground (h : s.processes = mid ++ p :: rest)
    (hmid : ∀ q ∈ mid, ¬ IsForeground getpgid q) (hp : IsForeground getpgid p) :
    ∃ t, t.processes = mid ++ rest ∧
      handleSigint getpgid s = sigintLoop getpgid rest.length (mid.length + 1) t [p.pid] := by
  have hsplit : s.processes = [] ++ (mid ++ p :: rest) := by simpa using h
  have hwalk := sigintLoop_background (rest.length + 1) [] hsplit hmid
  obtain ⟨t, ht, hloop⟩ := sigintLoop_foreground rest.length [] h hmid hp
  rw [List.length_nil, Nat.zero_add] at hwalk
  refine ⟨t, ht, ?_⟩
  rw [handleSigint, h, List.length_append, List.length_cons, hwalk, hloop]
  rfl

/-- Either all processes are in the background, or there is a first one that is not. -/
theorem exists_first_foreground (getpgid : Pid → Pid) (processes : List Process) :
    (∀ q ∈ processes, ¬ IsForeground getpgid q) ∨
      ∃ mid p rest, processes = mid ++ p :: rest ∧ IsForeground getpgid p ∧
        ∀ q ∈ mid, ¬ IsForeground getpgid q := by
  cases hfind : processes.find? fun q => IsForeground getpgid q with
  | none =>
    left
    intro q hq
    simpa using List.find?_eq_none.mp hfind q hq
  | some p =>
    obtain ⟨hp, mid, rest, hsplit, hmid⟩ := List.find?_eq_some_iff_append.mp hfind
    exact Or.inr ⟨mid, p, rest, hsplit, by simpa using hp, fun q hq => by simpa using hmid q hq⟩

theorem filter_foreground (hmid : ∀ q ∈ mid, ¬ IsForeground getpgid q) :
    mid.filter (fun q => IsForeground getpgid q) = [] ∧
      mid.filter (fun q => ¬ IsForeground getpgid q) = mid := by
  constructor
  · exact List.filter_eq_nil_iff.mpr fun q hq => by simpa using hmid q hq
  · exact List.filter_eq_self.mpr fun q hq => by simpa using hmid q hq

/-- **The handler works exactly where no process but the last one is in the foreground.** -/
theorem interrupted_iff (getpgid : Pid → Pid) (s : State) :
    Interrupted getpgid s ↔ ∀ p ∈ s.processes.dropLast, ¬ IsForeground getpgid p := by
  rcases exists_first_foreground getpgid s.processes with hall | ⟨mid, p, rest, hsplit, hp, hmid⟩
  · -- there is nothing to do
    obtain ⟨hnone, hsame⟩ := filter_foreground hall
    refine iff_of_true ⟨s, [], handleSigint_background hall, by rw [hnone]; rfl, hsame.symm⟩ ?_
    exact fun p hp => hall p (List.mem_of_mem_dropLast hp)
  · obtain ⟨t, ht, hhandler⟩ := handleSigint_foreground hsplit hmid hp
    obtain ⟨hnone, hsame⟩ := filter_foreground hmid
    cases rest with
    | nil =>
      -- the removal comes in the last turn
      refine iff_of_true ⟨t, [p.pid], hhandler, ?_, ?_⟩ ?_
      · rw [hsplit, List.filter_append, hnone, List.filter_cons_of_pos (by simpa using hp)]
        rfl
      · rw [ht, hsplit, List.filter_append, hsame, List.filter_cons_of_neg (by simpa using hp)]
        rfl
      · rw [hsplit, List.dropLast_concat]
        exact hmid
    | cons q rest =>
      have hlate : t.processes.length < mid.length + 1 + (rest.length + 1) := by
        rw [ht, List.length_append, List.length_cons]
        omega
      refine iff_of_false ?_ fun hdrop => hdrop p ?_ hp
      · rintro ⟨t', sent, hrun, -⟩
        rw [hhandler, List.length_cons, sigintLoop_eq_none hlate] at hrun
        cases hrun
      · rw [hsplit, List.dropLast_append_of_ne_nil (List.cons_ne_nil p _)]
        simp

/-- A process in the foreground, and one in the background behind it. -/
def twoProcesses : State := { State.start with processes := [⟨[120], 7, 0⟩, ⟨[120, 38], 8, 1⟩] }

/-- After the removal of the first process there is no second one. -/
theorem not_interrupted_twoProcesses :
    ¬ ∀ (getpgid : Pid → Pid) (s : State), Interrupted getpgid s := by
  intro h
  obtain ⟨t, sent, hrun, -⟩ := h (fun pid => if pid = 7 then 1 else pid) twoProcesses
  have hnone : handleSigint (fun pid => if pid = 7 then 1 else pid) twoProcesses = none := by decide
  rw [hnone] at hrun
  cases hrun

end SystemProgramming.Shell
