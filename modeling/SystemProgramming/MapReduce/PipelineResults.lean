import SystemProgramming.Foundation.Counting
import SystemProgramming.MapReduce.Family
import SystemProgramming.MapReduce.KeyedCount

/-!
# What the processes of `mapreduce` do together

Mapper `i` reads to the end only after all splitters and the mappers before it have ended, because
they all have the write end of its pipe. So the mappers end in order, and the first of them that
still runs never waits for another mapper: the program is not stuck. The bytes of a portion are
in the splitter, in the pipe and in the mapper; the lines of a mapper are in the log, and in what
it has still to write.

## Main definitions

* `Flow`: what is where, and who has ended
* `work`: a bound for the steps that are left

## Main results

* `pipeline_order`: who has ended before whom
* `pipeline_terminates`: the program never gets stuck and always ends
* `pipeline_counts`: the numbers of the keys, in every order of the steps
-/

namespace SystemProgramming.MapReduce.Pipeline

variable {n : Nat} {β : Type} {capacity : Nat} {func : List UInt8 → List UInt8}
  {reduce : List UInt8 → β} {portion : Fin n → List UInt8} {w w' : World n β} {e : Event n}
  {p : Proc n}

/-! ## What is where -/

/-- What mapper `i` has still to take. -/
def World.todo (w : World n β) (i : Fin n) : List UInt8 :=
  (w.task i).buffer ++ w.pipe i ++ w.rest i

/-- Who has ended has nothing left to do. -/
structure Quiet (reduce : List UInt8 → β) (w : World n β) : Prop where
  splitter : ∀ i, w.phase (.splitter i) = .exited → w.rest i = []
  eof : ∀ i, (w.task i).eof = true → (∀ j, w.phase (.splitter j) = .exited) ∧
    (∀ j < i, w.phase (.mapper j) = .exited) ∧ w.pipe i = []
  mapper : ∀ i, w.phase (.mapper i) = .exited →
    (w.task i).eof = true ∧ (w.task i).buffer = [] ∧ (w.task i).output = []
  reducer : w.phase .reducer = .exited → (∀ j, w.phase (.splitter j) = .exited) ∧
    (∀ j, w.phase (.mapper j) = .exited) ∧ w.red = [] ∧ w.outFile = some (reduce w.input)

theorem quiet_start : Quiet reduce (World.start β portion) where
  splitter i h := by simp [World.start] at h
  eof i h := by simp [World.start] at h
  mapper i h := by simp [World.start] at h
  reducer h := by simp [World.start] at h

/-- `main` leaves the data alone, and ends no child. -/
structure Kept (w w' : World n β) : Prop where
  exited : ∀ p, p ≠ .main → (w'.phase p = .exited ↔ w.phase p = .exited)
  rest : w'.rest = w.rest
  pipe : w'.pipe = w.pipe
  task : w'.task = w.task
  red : w'.red = w.red
  input : w'.input = w.input
  outFile : w'.outFile = w.outFile
  log : w'.log = w.log

theorem Family.kept_fork (h : Family w) (q : Proc n) (hq : w.line.forked q = false) (p : Proc n) :
    Function.update w.phase q .running p = .exited ↔ w.phase p = .exited := by
  by_cases hp : p = q
  · have hunborn := (h.unborn q).mpr hq
    simp [hp, hunborn]
  · rw [Function.update_of_ne hp]

theorem Family.kept (h : Family w) (hm : MainMove w w') : Kept w w' := by
  cases hm with
  | @splitters i hline hi =>
    exact ⟨fun p _ => h.kept_fork _ (by simp [hline, Line.forked]) p, rfl, rfl, rfl, rfl, rfl, rfl,
      rfl⟩
  | @mappers i hline hi =>
    exact ⟨fun p _ => h.kept_fork _ (by simp [hline, Line.forked]) p, rfl, rfl, rfl, rfl, rfl, rfl,
      rfl⟩
  | @reducer i hline hi =>
    exact ⟨fun p _ => h.kept_fork _ (by simp [hline, Line.forked]) p, rfl, rfl, rfl, rfl, rfl, rfl,
      rfl⟩
  | returned hline hgone =>
    refine ⟨fun p hp => ?_, rfl, rfl, rfl, rfl, rfl, rfl, rfl⟩
    change Function.update w.phase .main .exited p = .exited ↔ _
    rw [Function.update_of_ne hp]
  | _ => exact ⟨fun _ _ => Iff.rfl, rfl, rfl, rfl, rfl, rfl, rfl, rfl⟩

/-- Who has ended stays so. -/
theorem Family.exited (h : Family w) (hm : Move capacity func reduce w e w') (hp : p ≠ .main)
    (hexited : w.phase p = .exited) : w'.phase p = .exited := by
  have hleave : ∀ q, (w.leave q .exited).phase p = .exited := fun q => by
    by_cases hq : p = q
    · simp [World.leave, hq]
    · simpa [World.leave, hq] using hexited
  cases hm with
  | main hm => exact ((h.kept hm).exited p hp).mpr hexited
  | splitterExit _ _ => exact hleave _
  | mapperExit _ _ _ _ => exact hleave _
  | reducerExit _ _ _ => exact hleave _
  | _ => exact hexited

/-- The children are forked in order. -/
theorem forked_splitter {l : Line} {i : Fin n} (h : l.forked (.mapper i) = true) (j : Fin n) :
    l.forked (.splitter j) = true := by
  cases l <;> simp_all [Line.forked]

theorem forked_mapper {l : Line} {i j : Fin n} (h : l.forked (.mapper i) = true) (hj : j < i) :
    l.forked (.mapper j) = true := by
  cases l with
  | mappers k => exact decide_eq_true (Nat.lt_trans hj (of_decide_eq_true h))
  | _ => simp_all [Line.forked]

theorem forked_all {l : Line} (h : l.forked (n := n) .reducer = true) (p : Proc n) :
    l.forked p = true := by
  cases l <;> cases p <;> simp_all [Line.forked]

theorem Family.exited_of_forked (h : Family w) (hforked : w.line.forked p = true)
    (hrun : w.phase p ≠ .running) : w.phase p = .exited := by
  cases hp : w.phase p with
  | unborn =>
    rw [(h.unborn p).mp hp] at hforked
    cases hforked
  | running => exact absurd hp hrun
  | exited => rfl
  | killed => exact absurd hp (h.alive p)

/-- Nobody is left to write to mapper `i`. -/
theorem Family.of_held_mpWrite (h : Family w) {i : Fin n} (hheld : w.held (.mpWrite i) = false) :
    (∀ j, w.phase (.splitter j) = .exited) ∧ ∀ j < i, w.phase (.mapper j) = .exited := by
  rw [← Bool.not_eq_true, h.held_mpWrite, not_or, not_or, Bool.not_eq_false] at hheld
  obtain ⟨hforked, hsplitters, hmappers⟩ := hheld
  refine ⟨fun j => ?_, fun j hj => ?_⟩
  · exact h.exited_of_forked (forked_splitter hforked j) fun hrun => hsplitters ⟨j, hrun⟩
  · exact h.exited_of_forked (forked_mapper hforked hj) fun hrun => hmappers ⟨j, hj, hrun⟩

/-- Nobody is left to write to the reducer. -/
theorem Family.of_held_redWrite (h : Family w) (hheld : w.held .redWrite = false) :
    (∀ j, w.phase (.splitter j) = .exited) ∧ ∀ j, w.phase (.mapper j) = .exited := by
  rw [← Bool.not_eq_true, h.held_redWrite, not_or, not_or, Bool.not_eq_false] at hheld
  obtain ⟨hforked, hsplitters, hmappers⟩ := hheld
  refine ⟨fun j => ?_, fun j => ?_⟩
  · exact h.exited_of_forked (forked_all hforked _) fun hrun => hsplitters ⟨j, hrun⟩
  · exact h.exited_of_forked (forked_all hforked _) fun hrun => hmappers ⟨j, hrun⟩

theorem World.leave_phase {q : Proc n} {how : Phase} (hp : p ≠ q) :
    (w.leave q how).phase p = w.phase p :=
  Function.update_of_ne hp ..

theorem not_exited_of_running (hp : w.phase p = .running) : ¬ w.phase p = .exited :=
  fun hexited => Phase.noConfusion (hp.symm.trans hexited)

/-- What a mapper does leaves those alone that have ended. -/
theorem task_of_exited {i j : Fin n} {t : Task} (hrun : w.phase (.mapper i) = .running)
    (hj : w.phase (.mapper j) = .exited) : Function.update w.task i t j = w.task j :=
  Function.update_of_ne (fun heq : j = i => not_exited_of_running hrun (heq ▸ hj)) ..

/-- **Every step keeps it so.** -/
theorem Quiet.step (q : Quiet reduce w) (h : Family w)
    (hm : Move capacity func reduce w e w') : Quiet reduce w' := by
  -- the part of `eof` that is about the processes
  have heof : ∀ i, (w.task i).eof = true → (∀ j, w'.phase (.splitter j) = .exited) ∧
      ∀ j < i, w'.phase (.mapper j) = .exited := fun i hi =>
    ⟨fun j => h.exited hm (by simp) ((q.eof i hi).1 j),
      fun j hj => h.exited hm (by simp) ((q.eof i hi).2.1 j hj)⟩
  cases hm with
  | main hm =>
    have hkept := h.kept hm
    refine ⟨fun i hi => ?_, fun i hi => ?_, fun i hi => ?_, fun hr => ?_⟩
    · rw [hkept.rest]
      exact q.splitter i ((hkept.exited _ (by simp)).mp hi)
    · rw [hkept.task] at hi
      rw [hkept.pipe]
      exact ⟨(heof i hi).1, (heof i hi).2, (q.eof i hi).2.2⟩
    · rw [hkept.task]
      exact q.mapper i ((hkept.exited _ (by simp)).mp hi)
    · obtain ⟨hsplitters, hmappers, hred, hout⟩ := q.reducer ((hkept.exited _ (by simp)).mp hr)
      rw [hkept.red, hkept.outFile, hkept.input]
      exact ⟨fun j => (hkept.exited _ (by simp)).mpr (hsplitters j),
        fun j => (hkept.exited _ (by simp)).mpr (hmappers j), hred, hout⟩
  | @splitterWrite i k hrun _ _ _ =>
    have hnot := not_exited_of_running hrun
    refine ⟨fun j hj => ?_, fun j hj => absurd ((q.eof j hj).1 i) hnot, q.mapper, q.reducer⟩
    have hji : j ≠ i := fun heq => hnot (heq ▸ hj)
    change Function.update w.rest i _ j = []
    rw [Function.update_of_ne hji]
    exact q.splitter j hj
  | @splitterExit i hrun hrest =>
    refine ⟨fun j hj => ?_, fun j hj => ⟨(heof j hj).1, (heof j hj).2, (q.eof j hj).2.2⟩,
      fun j hj => ?_, fun hr => ?_⟩
    · by_cases hji : j = i
      · exact hji ▸ hrest
      · rw [World.leave_phase (by simpa using hji)] at hj
        exact q.splitter j hj
    · rw [World.leave_phase (by simp)] at hj
      exact q.mapper j hj
    · rw [World.leave_phase (by simp)] at hr
      exact absurd ((q.reducer hr).1 i) (not_exited_of_running hrun)
  | @mapperRead i k hrun hout heof' hmore hpos hle =>
    refine ⟨q.splitter, fun j hj => ?_, fun j hj => ?_, fun hr => ?_⟩
    · by_cases hji : j = i
      · have heq : (w.task i).eof = true := by simpa [hji] using hj
        rw [heof'] at heq
        cases heq
      · simp only [Function.update_of_ne hji] at hj ⊢
        exact q.eof j hj
    · simp only [task_of_exited hrun hj]
      exact q.mapper j hj
    · exact absurd ((q.reducer hr).2.1 i) (not_exited_of_running hrun)
  | @mapperEof i hrun hout heof' hmore hpipe hheld =>
    refine ⟨q.splitter, fun j hj => ?_, fun j hj => ?_, q.reducer⟩
    · by_cases hji : j = i
      · obtain ⟨hsplitters, hmappers⟩ := h.of_held_mpWrite hheld
        exact ⟨hsplitters, hji ▸ hmappers, hji ▸ hpipe⟩
      · simp only [Function.update_of_ne hji] at hj
        exact q.eof j hj
    · simp only [task_of_exited hrun hj]
      exact q.mapper j hj
  | @mapperLine i line buffer hrun hout hmore hget =>
    refine ⟨q.splitter, fun j hj => ?_, fun j hj => ?_, q.reducer⟩
    · by_cases hji : j = i
      · subst hji
        exact q.eof j (by simpa using hj)
      · simp only [Function.update_of_ne hji] at hj
        exact q.eof j hj
    · simp only [task_of_exited hrun hj]
      exact q.mapper j hj
  | @mapperWrite i k hrun hpos hle hwhole hroom =>
    refine ⟨q.splitter, fun j hj => ?_, fun j hj => ?_, fun hr => ?_⟩
    · by_cases hji : j = i
      · subst hji
        exact q.eof j (by simpa using hj)
      · simp only [Function.update_of_ne hji] at hj
        exact q.eof j hj
    · simp only [task_of_exited hrun hj]
      exact q.mapper j hj
    · exact absurd ((q.reducer hr).2.1 i) (not_exited_of_running hrun)
  | @mapperExit i hrun hout heof' hbuffer =>
    refine ⟨fun j hj => ?_, fun j hj => ⟨(heof j hj).1, (heof j hj).2, (q.eof j hj).2.2⟩,
      fun j hj => ?_, fun hr => ?_⟩
    · rw [World.leave_phase (by simp)] at hj
      exact q.splitter j hj
    · by_cases hji : j = i
      · subst hji
        exact ⟨heof', hbuffer, hout⟩
      · rw [World.leave_phase (by simpa using hji)] at hj
        exact q.mapper j hj
    · rw [World.leave_phase (by simp)] at hr
      exact absurd ((q.reducer hr).2.1 i) (not_exited_of_running hrun)
  | @reducerRead k hrun hpos hle =>
    exact ⟨q.splitter, q.eof, q.mapper, fun hr => absurd hr (not_exited_of_running hrun)⟩
  | reducerExit hrun hred hheld =>
    obtain ⟨hsplitters, hmappers⟩ := h.of_held_redWrite hheld
    have hphase : ∀ p, p ≠ .reducer → (w.leave .reducer .exited).phase p = w.phase p :=
      fun p hp => World.leave_phase hp
    refine ⟨fun j _ => q.splitter j (hsplitters j),
      fun j hj => ⟨(heof j hj).1, (heof j hj).2, (q.eof j hj).2.2⟩,
      fun j _ => q.mapper j (hmappers j), fun _ => ⟨fun j => ?_, fun j => ?_, hred, rfl⟩⟩
    · exact (hphase _ (by simp)).trans (hsplitters j)
    · exact (hphase _ (by simp)).trans (hmappers j)

/-- What is to come, when `getline` takes a line. -/
theorem Quiet.lines_todo (q : Quiet reduce w) {i : Fin n} {line buffer : List UInt8}
    (hmore : 10 ∈ (w.task i).buffer ∨ (w.task i).eof = true)
    (hget : getline (w.task i).buffer = some (line, buffer)) :
    lines (w.todo i) = line :: lines (buffer ++ w.pipe i ++ w.rest i) := by
  rw [World.todo, List.append_assoc, List.append_assoc]
  apply lines_of_getline hget
  apply hmore.imp_right
  intro heof
  obtain ⟨hsplitters, -, hpipe⟩ := q.eof i heof
  rw [hpipe, q.splitter i (hsplitters i)]
  rfl

/-! ## The steps that are left -/

/-- The steps of `main` that are left. -/
def Line.left (n : Nat) : Line → Nat
  | .splitters i => n - i + 3 * n + 5
  | .mappers i => n - i + 2 * n + 4
  | .waitSplitters i => n - i + n + 3
  | .waitMappers i => n - i + 2
  | .waitReducer => 1
  | .returned => 0

def Proc.left (w : World n β) (p : Proc n) : Nat := if w.phase p = .exited then 0 else 1

/-- What comes out of the lines, twice, and the lines. -/
def outputs (func : List UInt8 → List UInt8) (ls : List (List UInt8)) : Nat :=
  (ls.map fun line => 2 * (func (lineText line)).length + 1).sum

/-- The steps that are left for portion `i`: a byte moves twice before it is in the mapper, and
twice when it comes from there. -/
def share (func : List UInt8 → List UInt8) (w : World n β) (i : Fin n) : Nat :=
  2 * (w.rest i).length + (w.pipe i).length + outputs func (lines (w.todo i)) +
    2 * (w.task i).output.length + (if (w.task i).eof then 0 else 1) +
    Proc.left w (.splitter i) + Proc.left w (.mapper i)

/-- A bound for the steps that are left. -/
def work (func : List UInt8 → List UInt8) (w : World n β) : Nat :=
  ∑ i, share func w i + w.red.length + Proc.left w .reducer + w.line.left n

/-- A step for portion `i`. -/
theorem work_lt {i : Fin n} (hother : ∀ j, j ≠ i → share func w' j = share func w j)
    (hi : share func w' i + w'.red.length < share func w i + w.red.length)
    (hline : w'.line = w.line) (hred : w'.phase .reducer = w.phase .reducer) :
    work func w' < work func w := by
  have hshare : Function.update (share func w) i (share func w' i) = share func w' := by
    apply Function.update_eq_iff.mpr
    exact ⟨rfl, fun j hj => (hother j hj).symm⟩
  have hsum := sum_update id (share func w) i (share func w' i)
  simp only [id, hshare] at hsum
  rw [work, work, hline, Proc.left, Proc.left, hred]
  omega

theorem left_leave_self : Proc.left (w.leave p .exited) p = 0 := by simp [Proc.left, World.leave]

theorem left_leave {q : Proc n} (hp : p ≠ q) :
    Proc.left (w.leave q .exited) p = Proc.left w p := by
  rw [Proc.left, World.leave_phase hp, Proc.left]

theorem left_of_running (hp : w.phase p = .running) : Proc.left w p = 1 :=
  if_neg (not_exited_of_running hp)

theorem Kept.share_eq (hkept : Kept w w') : share func w' = share func w := by
  funext i
  have hsplitter := hkept.exited (.splitter i) (by simp)
  have hmapper := hkept.exited (.mapper i) (by simp)
  simp only [share, World.todo, Proc.left, hkept.rest, hkept.pipe, hkept.task, hsplitter, hmapper]

theorem MainMove.left_lt (hm : MainMove w w') : w'.line.left n < w.line.left n := by
  cases hm with
  | _ =>
    simp only [*, Line.left]
    omega

/-- **Every step lowers the bound.** -/
theorem Quiet.work_lt (q : Quiet reduce w) (h : Family w)
    (hm : Move capacity func reduce w e w') : work func w' < work func w := by
  cases hm with
  | main hm =>
    have hkept := h.kept hm
    have hleft := hm.left_lt
    have hred := hkept.exited .reducer (by simp)
    simp only [work, hkept.share_eq, hkept.red, Proc.left, hred]
    omega
  | @splitterWrite i k hrun hpos hle hroom =>
    refine Pipeline.work_lt (i := i) (fun j hj => ?_) ?_ rfl rfl
    · simp only [share, World.todo, Proc.left, Function.update_of_ne hj]
    · have htodo : (w.task i).buffer ++ (w.pipe i ++ (w.rest i).take k) ++ (w.rest i).drop k =
          (w.task i).buffer ++ w.pipe i ++ w.rest i := by simp
      simp only [share, World.todo, Proc.left, Function.update_self, htodo, List.length_drop,
        List.length_append, List.length_take, min_eq_left hle]
      omega
  | @splitterExit i hrun hrest =>
    refine Pipeline.work_lt (i := i) (fun j hj => ?_) ?_ rfl (World.leave_phase (by simp))
    · rw [share, share, left_leave (by simpa using hj), left_leave (by simp)]
      rfl
    · rw [share, share, left_leave_self, left_leave (by simp), left_of_running hrun]
      exact Nat.add_lt_add_right (Nat.add_lt_add_right (Nat.lt_succ_self _) _) _
  | @mapperRead i k hrun hout heof' hmore hpos hle =>
    refine Pipeline.work_lt (i := i) (fun j hj => ?_) ?_ rfl rfl
    · simp only [share, World.todo, Proc.left, Function.update_of_ne hj]
    · have htodo : (w.task i).buffer ++ (w.pipe i).take k ++ (w.pipe i).drop k ++ w.rest i =
          (w.task i).buffer ++ w.pipe i ++ w.rest i := by simp
      simp only [share, World.todo, Proc.left, Function.update_self, htodo, List.length_drop]
      omega
  | @mapperEof i hrun hout heof' hmore hpipe hheld =>
    refine Pipeline.work_lt (i := i) (fun j hj => ?_) ?_ rfl rfl
    · simp only [share, World.todo, Proc.left, Function.update_of_ne hj]
    · simp only [share, World.todo, Proc.left, Function.update_self, heof']
      simp
  | @mapperLine i line buffer hrun hout hmore hget =>
    refine Pipeline.work_lt (i := i) (fun j hj => ?_) ?_ rfl rfl
    · simp only [share, World.todo, Proc.left, Function.update_of_ne hj]
    · have hlines := q.lines_todo hmore hget
      rw [World.todo] at hlines
      simp only [share, World.todo, Proc.left, Function.update_self, hlines, outputs, List.map_cons,
        List.sum_cons, hout, lineText, List.length_nil]
      omega
  | @mapperWrite i k hrun hpos hle hwhole hroom =>
    refine Pipeline.work_lt (i := i) (fun j hj => ?_) ?_ rfl rfl
    · simp only [share, World.todo, Proc.left, Function.update_of_ne hj]
    · simp only [share, World.todo, Proc.left, Function.update_self, List.length_drop,
        List.length_append, List.length_take, min_eq_left hle]
      omega
  | @mapperExit i hrun hout heof' hbuffer =>
    refine Pipeline.work_lt (i := i) (fun j hj => ?_) ?_ rfl (World.leave_phase (by simp))
    · rw [share, share, left_leave (by simp), left_leave (by simpa using hj)]
      rfl
    · rw [share, share, left_leave_self, left_leave (by simp), left_of_running hrun]
      exact Nat.add_lt_add_right (Nat.lt_succ_self _) _
  | @reducerRead k hrun hpos hle =>
    have hlen : (w.red.drop k).length < w.red.length := by
      rw [List.length_drop]
      omega
    change ∑ i, share func w i + _ + _ + _ < ∑ i, share func w i + _ + _ + _
    simp only [Proc.left]
    omega
  | reducerExit hrun hred hheld =>
    have hshare : share func (w.leave .reducer .exited) = share func w := by
      funext i
      rw [share, share, left_leave (by simp), left_leave (by simp)]
      rfl
    change ∑ i, share func (w.leave .reducer .exited) i + _ +
      Proc.left (w.leave .reducer .exited) .reducer + _ < ∑ i, share func w i + _ + _ + _
    rw [hshare, left_leave_self, left_of_running hrun]
    exact Nat.add_lt_add_right (Nat.lt_succ_self _) _

/-! ## Progress -/

/-- What holds in every state. -/
structure Sound (reduce : List UInt8 → β) (w : World n β) : Prop where
  family : Family w
  quiet : Quiet reduce w
  flush : ∀ i, (w.task i).output.length ≤ (w.task i).size

theorem Sound.next (s : Sound reduce w) (hm : Move capacity func reduce w e w') :
    Sound reduce w' where
  family := s.family.step hm
  quiet := s.quiet.step s.family hm
  flush := by
    have hupdate : ∀ (i : Fin n) (t : Task), t.output.length ≤ t.size → ∀ j,
        (Function.update w.task i t j).output.length ≤ (Function.update w.task i t j).size := by
      intro i t ht j
      by_cases hj : j = i
      · rw [hj, Function.update_self]
        exact ht
      · rw [Function.update_of_ne hj]
        exact s.flush j
    cases hm with
    | main hm =>
      rw [(s.family.kept hm).task]
      exact s.flush
    | @mapperRead i _ _ _ _ _ _ _ => exact hupdate i _ (s.flush i)
    | @mapperEof i _ _ _ _ _ _ => exact hupdate i _ (s.flush i)
    | @mapperLine i _ _ _ _ _ _ => exact hupdate i _ (le_refl _)
    | @mapperWrite i k _ _ _ _ _ =>
      refine hupdate i _ (le_trans ?_ (s.flush i))
      rw [List.length_drop]
      exact Nat.sub_le _ _
    | _ => exact s.flush

theorem sound (h : Reachable (step capacity func reduce) (World.start β portion) w) :
    Sound reduce w :=
  h.invariant ⟨Family.start, quiet_start, fun _ => le_refl 0⟩
    fun _ _ _ s hs => s.next (s.family.move hs)

/-- A mapper with something to read, or nobody to wait for, takes a step. -/
theorem Sound.mapper_moves (s : Sound reduce w) (hcapacity : pipeBuf ≤ capacity)
    (hred : w.red = []) {i : Fin n} (hrun : w.phase (.mapper i) = .running)
    (hinput : w.pipe i ≠ [] ∨ w.held (.mpWrite i) = false) :
    ∃ e v, step capacity func reduce w e = some v := by
  by_cases hout : (w.task i).output = []
  · by_cases hline : 10 ∈ (w.task i).buffer ∨ (w.task i).eof = true
    · rcases getline_cases (w.task i).buffer with ⟨-, hbuffer⟩ | ⟨line, rest, hget, -, -⟩
      · have heof : (w.task i).eof = true := hline.resolve_left (by simp [hbuffer])
        exact ⟨.mapperExit i, _, if_pos ⟨hrun, hout, heof, hbuffer⟩⟩
      · refine ⟨.mapperLine i, ?_⟩
        simp [Pipeline.step, mapperLine, hrun, hout, hline, hget]
    · obtain ⟨hmore, heof⟩ := not_or.mp hline
      rw [Bool.not_eq_true] at heof
      by_cases hpipe : w.pipe i = []
      · have hheld := hinput.resolve_left (not_not.mpr hpipe)
        exact ⟨.mapperEof i, _, if_pos ⟨hrun, hout, heof, hmore, hpipe, hheld⟩⟩
      · have hpos := List.length_pos_of_ne_nil hpipe
        exact ⟨.mapperRead i 1, _, if_pos ⟨hrun, hout, heof, hmore, Nat.one_pos, hpos⟩⟩
  · have hpos := List.length_pos_of_ne_nil hout
    have hheld := (s.family.held_read hrun (by simp) i).2
    have hwrite : ∀ k, 0 < k → k ≤ (w.task i).output.length →
        ((w.task i).size ≤ pipeBuf → k = (w.task i).output.length) → k ≤ capacity →
        ∃ v, mapperWrite capacity w i k = some v := by
      intro k hk hle hwhole hroom
      refine ⟨_, (if_pos ⟨hrun, hk, hle, hwhole⟩).trans ((if_pos hheld).trans (if_pos ?_))⟩
      rwa [hred, List.length_nil, Nat.zero_add]
    by_cases hsize : (w.task i).size ≤ pipeBuf
    · -- all at once
      have hroom := ((s.flush i).trans hsize).trans hcapacity
      obtain ⟨v, hv⟩ := hwrite _ hpos (le_refl _) (fun _ => rfl) hroom
      exact ⟨.mapperWrite i _, v, hv⟩
    · have hroom : 1 ≤ capacity := le_trans (by decide) hcapacity
      obtain ⟨v, hv⟩ := hwrite 1 Nat.one_pos hpos (fun h => absurd h hsize) hroom
      exact ⟨.mapperWrite i 1, v, hv⟩

/-- A splitter takes a step, or its pipe is full and its mapper does. -/
theorem Sound.splitter_moves (s : Sound reduce w) (hcapacity : pipeBuf ≤ capacity)
    (hred : w.red = []) {i : Fin n} (hrun : w.phase (.splitter i) = .running)
    (hforked : w.line.forked (.mapper i) = true) :
    ∃ e v, step capacity func reduce w e = some v := by
  by_cases hrest : w.rest i = []
  · exact ⟨.splitterExit i, _, if_pos ⟨hrun, hrest⟩⟩
  by_cases hroom : (w.pipe i).length + 1 ≤ capacity
  · have hheld := (s.family.held_read hrun (by simp) i).1
    have hpos := List.length_pos_of_ne_nil hrest
    exact ⟨.splitterWrite i 1, _, (if_pos ⟨hrun, Nat.one_pos, hpos⟩).trans
      ((if_pos hheld).trans (if_pos hroom))⟩
  · have hmapper : w.phase (.mapper i) = .running := by
      by_contra hnot
      have heof := (s.quiet.mapper i (s.family.exited_of_forked hforked hnot)).1
      exact not_exited_of_running hrun ((s.quiet.eof i heof).1 i)
    have hone : 1 ≤ capacity := le_trans (by decide) hcapacity
    have hpipe : w.pipe i ≠ [] := by
      rintro hnil
      rw [hnil, List.length_nil] at hroom
      omega
    exact s.mapper_moves hcapacity hred hmapper (Or.inl hpipe)

/-- `main` goes on as long as it forks, and when all its children have ended. -/
theorem Family.stepMain_isSome (h : Family w) (hline : w.line ≠ .returned)
    (hwait : w.line.forked (n := n) .reducer = true → ∀ p, p ≠ .main → w.phase p = .exited) :
    ∃ v, stepMain w = some v := by
  have hgone : w.line.forked (n := n) .reducer = true → ∀ p, p ≠ .main → w.gone p = true :=
    fun hforked p hp => h.gone_iff.mpr (hwait hforked p hp)
  unfold stepMain
  split
  · split_ifs <;> exact ⟨_, rfl⟩
  · split_ifs <;> exact ⟨_, rfl⟩
  · next i hl =>
    have hall := hgone (by rw [hl]; rfl)
    split_ifs with hi hg
    · exact ⟨_, rfl⟩
    · exact absurd (hall _ (by simp)) hg
    · exact ⟨_, rfl⟩
  · next i hl =>
    have hall := hgone (by rw [hl]; rfl)
    split_ifs with hi hg
    · exact ⟨_, rfl⟩
    · exact absurd (hall _ (by simp)) hg
    · exact ⟨_, rfl⟩
  · next hl =>
    have hall := hgone (by rw [hl]; rfl)
    rw [if_pos (hall _ (by simp))]
    exact ⟨_, rfl⟩
  · next hl => exact absurd hl hline

/-- **As long as `main` has not returned**, somebody can take a step. -/
theorem Sound.progress (s : Sound reduce w) (hcapacity : pipeBuf ≤ capacity)
    (hline : w.line ≠ .returned) : ∃ e v, step capacity func reduce w e = some v := by
  have hmain : (w.line.forked (n := n) .reducer = true →
      ∀ p, p ≠ .main → w.phase p = .exited) → ∃ e v, step capacity func reduce w e = some v :=
    fun hwait => ⟨.main, s.family.stepMain_isSome hline hwait⟩
  by_cases hforked : w.line.forked (n := n) .reducer = true
  · have hchild : ∀ p, w.phase p ≠ .running → w.phase p = .exited := fun p =>
      s.family.exited_of_forked (forked_all hforked p)
    by_cases hreducer : w.phase .reducer = .running
    · by_cases hred : w.red = []
      · by_cases hmappers : ∃ i, w.phase (.mapper i) = .running
        · -- the first mapper that runs does not wait for another one
          obtain ⟨i, hi, hfirst⟩ := WellFounded.has_min (@wellFounded_lt (Fin n) _ _)
            {i | w.phase (.mapper i) = .running} hmappers
          by_cases hsplitters : ∃ k, w.phase (.splitter k) = .running
          · obtain ⟨k, hk⟩ := hsplitters
            exact s.splitter_moves hcapacity hred hk (forked_all hforked _)
          · refine s.mapper_moves hcapacity hred hi (Or.inr ?_)
            rw [← Bool.not_eq_true, s.family.held_mpWrite, forked_all hforked]
            rintro (hfalse | hsome | ⟨j, hji, hj⟩)
            · cases hfalse
            · exact hsplitters hsome
            · exact hfirst j hj hji
        · have hended : ∀ i, w.phase (.mapper i) = .exited := fun i =>
            hchild _ fun hrun => hmappers ⟨i, hrun⟩
          refine ⟨.reducerExit, _, if_pos ⟨hreducer, hred, ?_⟩⟩
          rw [← Bool.not_eq_true, s.family.held_redWrite, hforked]
          rintro (hfalse | ⟨k, hk⟩ | hsome)
          · cases hfalse
          · have heof := (s.quiet.mapper k (hended k)).1
            exact not_exited_of_running hk ((s.quiet.eof k heof).1 k)
          · exact hmappers hsome
      · exact ⟨.reducerRead 1, _, if_pos ⟨hreducer, Nat.one_pos, List.length_pos_of_ne_nil hred⟩⟩
    · obtain ⟨hsplitters, hmappers, -⟩ := s.quiet.reducer (hchild _ hreducer)
      apply hmain
      intro _ p hp
      cases p with
      | main => exact absurd rfl hp
      | splitter i => exact hsplitters i
      | mapper i => exact hmappers i
      | reducer => exact hchild _ hreducer
  · exact hmain fun h => absurd h hforked

/-- When `main` has returned, nobody is left. -/
theorem Family.at_rest (h : Family w) (hline : w.line = .returned)
    (hm : Move capacity func reduce w e w') : False := by
  have hnot : ∀ p, p ≠ .main → ¬ w.phase p = .running := fun p hp hrun =>
    h.line_ne hrun hp hline
  cases hm with
  | main hm => cases hm <;> simp_all
  | splitterWrite hrun _ _ _ => exact hnot _ (by simp) hrun
  | splitterExit hrun _ => exact hnot _ (by simp) hrun
  | mapperRead hrun _ _ _ _ _ => exact hnot _ (by simp) hrun
  | mapperEof hrun _ _ _ _ _ => exact hnot _ (by simp) hrun
  | mapperLine hrun _ _ _ => exact hnot _ (by simp) hrun
  | mapperWrite hrun _ _ _ _ => exact hnot _ (by simp) hrun
  | mapperExit hrun _ _ _ => exact hnot _ (by simp) hrun
  | reducerRead hrun _ _ => exact hnot _ (by simp) hrun
  | reducerExit hrun _ _ => exact hnot _ (by simp) hrun

/-- **The program never gets stuck and always ends**, for all inputs, all mappers and all orders
of the steps, when a pipe has room for `PIPE_BUF` bytes. Nobody can take a step exactly when
`main` has returned, no write ever kills a process, and a run has no more steps than the bytes of
the portions and of what the mappers print allow. -/
theorem pipeline_terminates (hcapacity : pipeBuf ≤ capacity) {es : List (Event n)}
    (h : run (step capacity func reduce) (World.start β portion) es = some w) :
    ((∀ e, step capacity func reduce w e = none) ↔ w.line = .returned) ∧
    (∀ p, w.phase p ≠ .killed) ∧
    es.length ≤ ∑ i, (2 * (portion i).length + outputs func (lines (portion i)) + 3) +
      4 * n + 6 := by
  have hsound := sound ⟨es, h⟩
  refine ⟨⟨fun hrest => ?_, fun hline e => ?_⟩, hsound.family.alive, ?_⟩
  · by_contra hline
    obtain ⟨e, v, hv⟩ := hsound.progress hcapacity hline
    rw [hrest e] at hv
    cases hv
  · cases hs : step capacity func reduce w e with
    | none => rfl
    | some v => exact (hsound.family.at_rest hline (hsound.family.move hs)).elim
  · have hwork := (length_add_measure_le (P := Sound reduce) (μ := work func)
      ⟨Family.start, quiet_start, fun _ => le_refl 0⟩ (fun _ _ _ s hs =>
        ⟨s.next (s.family.move hs), s.quiet.work_lt s.family (s.family.move hs)⟩) h).2
    have hshare : ∀ i, share func (World.start β portion) i =
        2 * (portion i).length + outputs func (lines (portion i)) + 3 := fun i => by
      simp [share, World.start, World.todo, Proc.left]
    have hstart : work func (World.start β portion) =
        ∑ i, (2 * (portion i).length + outputs func (lines (portion i)) + 3) + 4 * n + 6 := by
      simp only [work, hshare]
      simp [World.start, Proc.left, Line.left]
      omega
    omega

/-- The steps for a file of two lines with letters, and two mappers. Mapper `i` has printed before
splitter `j` writes, but its read ends only with splitter `j`. -/
def twoLines (i j : Fin 2) : List (Event 2) :=
  [.main, .main, .main, .splitterWrite i 3, .splitterExit i, .main, .mapperRead i 3, .mapperLine i,
    .mapperWrite i 22, .main, .main, .splitterWrite j 2, .mapperRead j 2, .mapperLine j,
    .splitterExit j, .mapperEof i, .mapperWrite j 11, .reducerRead 33, .mapperExit i, .mapperEof j,
    .mapperExit j, .reducerExit, .main, .main, .main, .main, .main, .main, .main]

theorem run_twoLines : ∃ w, run (step 65536 lettercountMapper (runReducerOn sortedTree reducer))
    (World.start _ fun i : Fin 2 => writePortion [97, 98, 10, 99, 10] 2 i)
    (twoLines ⟨0, Nat.zero_lt_two⟩ (Fin.last 1)) = some w ∧ w.line = .returned := by
  have h : (run (step 65536 lettercountMapper (runReducerOn sortedTree reducer))
      (World.start _ fun i : Fin 2 => writePortion [97, 98, 10, 99, 10] 2 i)
      (twoLines ⟨0, Nat.zero_lt_two⟩ (Fin.last 1))).map World.line = some .returned := by
    decide +kernel
  exact Option.map_eq_some_iff.mp h

theorem pipeline_terminates_twoLines :
    ∃ w, w.line = .returned ∧ (∀ p, w.phase p ≠ .killed) ∧
      ∀ e, step 65536 lettercountMapper (runReducerOn sortedTree reducer) (n := 2) w e = none := by
  obtain ⟨w, hrun, hline⟩ := run_twoLines
  obtain ⟨hrest, halive, -⟩ := pipeline_terminates (by decide) hrun
  exact ⟨w, hline, halive, hrest.mpr hline⟩

/-- **Who has ended before whom.** A mapper ends after all splitters and after the mappers before
it, the reducer after all of them, and `main` last. -/
theorem pipeline_order (h : Reachable (step capacity func reduce) (World.start β portion) w) :
    (∀ i, w.phase (.mapper i) = .exited →
      (∀ j, w.phase (.splitter j) = .exited) ∧ ∀ j < i, w.phase (.mapper j) = .exited) ∧
    (w.phase .reducer = .exited → ∀ i, w.phase (.mapper i) = .exited) ∧
    (w.line = .returned → ∀ p, w.phase p = .exited) := by
  have hsound := sound h
  refine ⟨fun i hi => ?_, fun hr => (hsound.quiet.reducer hr).2.1, fun hline p => ?_⟩
  · have heof := hsound.quiet.eof i (hsound.quiet.mapper i hi).1
    exact ⟨heof.1, heof.2.1⟩
  · apply hsound.family.waited
    rw [hline]
    cases p <;> rfl

theorem pipeline_order_twoLines : ∃ w : World 2 (Option (List UInt8 × List UInt8)),
    w.line = .returned ∧ ∀ p, w.phase p = .exited := by
  obtain ⟨w, hrun, hline⟩ := run_twoLines
  exact ⟨w, hline,
    (pipeline_order ⟨twoLines ⟨0, Nat.zero_lt_two⟩ (Fin.last 1), hrun⟩).2.2 hline⟩

/-! ## What the reducer gets -/

/-- What is printed for the lines, without what is empty. -/
def printed (func : List UInt8 → List UInt8) (ls : List (List UInt8)) : List (List UInt8) :=
  (ls.map fun line => func (lineText line)).filter (· ≠ [])

/-- The log has what is printed for the lines that a mapper has taken, but for what it has still
to write. -/
structure Ledger (func : List UInt8 → List UInt8) (portion : Fin n → List UInt8)
    (w : World n β) : Prop where
  size : ∀ i, (w.task i).size ≤ pipeBuf
  read : w.input ++ w.red = (w.log.map Prod.snd).flatten
  taken : ∀ i, ∃ done, lines (portion i) = done ++ lines (w.todo i) ∧
    contributions i w.log ++ [(w.task i).output].filter (· ≠ []) = printed func done

theorem ledger_start : Ledger func portion (World.start β portion) where
  size _ := Nat.zero_le _
  read := rfl
  taken i := ⟨[], by simp [World.start, World.todo], rfl⟩

/-- A step between the splitter and the mapper. -/
theorem Ledger.congr (l : Ledger func portion w) (hsize : ∀ i, (w'.task i).size ≤ pipeBuf)
    (hread : w'.input ++ w'.red = w.input ++ w.red) (hlog : w'.log = w.log)
    (htodo : ∀ i, w'.todo i = w.todo i) (hout : ∀ i, (w'.task i).output = (w.task i).output) :
    Ledger func portion w' := by
  refine ⟨hsize, ?_, fun i => ?_⟩
  · rw [hread, hlog]
    exact l.read
  · rw [htodo, hout, hlog]
    exact l.taken i

/-- **Every step keeps the ledger.** -/
theorem Ledger.next (l : Ledger func portion w) (q : Quiet reduce w)
    (h : Family w)
    (hshort : ∀ i, ∀ line ∈ lines (portion i), (func (lineText line)).length ≤ pipeBuf)
    (hm : Move capacity func reduce w e w') : Ledger func portion w' := by
  have hsize : ∀ (i : Fin n) (t : Task), t.size ≤ pipeBuf → ∀ j,
      (Function.update w.task i t j).size ≤ pipeBuf := by
    intro i t ht j
    by_cases hj : j = i
    · rw [hj, Function.update_self]
      exact ht
    · rw [Function.update_of_ne hj]
      exact l.size j
  cases hm with
  | main hm =>
    have hkept := h.kept hm
    refine l.congr (fun i => ?_) ?_ hkept.log (fun i => ?_) fun i => ?_
    · rw [hkept.task]
      exact l.size i
    · rw [hkept.input, hkept.red]
    · rw [World.todo, hkept.task, hkept.pipe, hkept.rest, World.todo]
    · rw [hkept.task]
  | @splitterWrite i k hrun hpos hle hroom =>
    refine l.congr l.size rfl rfl (fun j => ?_) fun _ => rfl
    by_cases hj : j = i
    · simp [World.todo, hj]
    · simp [World.todo, Function.update_of_ne hj]
  | splitterExit _ _ => exact ⟨l.size, l.read, l.taken⟩
  | @mapperRead i k hrun hout heof hmore hpos hle =>
    refine l.congr (hsize i _ (l.size i)) rfl rfl (fun j => ?_) fun j => ?_
    · by_cases hj : j = i
      · simp [World.todo, hj]
      · simp [World.todo, Function.update_of_ne hj]
    · by_cases hj : j = i
      · simp [hj]
      · simp [Function.update_of_ne hj]
  | @mapperEof i hrun hout heof hmore hpipe hheld =>
    refine l.congr (hsize i _ (l.size i)) rfl rfl (fun j => ?_) fun j => ?_
    · by_cases hj : j = i
      · simp [World.todo, hj]
      · simp [World.todo, Function.update_of_ne hj]
    · by_cases hj : j = i
      · simp [hj]
      · simp [Function.update_of_ne hj]
  | @mapperLine i line buffer hrun hout hmore hget =>
    obtain ⟨done, hdone, hlog⟩ := l.taken i
    rw [q.lines_todo hmore hget] at hdone
    have hmem : line ∈ lines (portion i) := by
      rw [hdone]
      exact List.mem_append_right _ List.mem_cons_self
    refine ⟨hsize i _ (hshort i line hmem), l.read, fun j => ?_⟩
    by_cases hj : j = i
    · subst hj
      -- one more line is taken, and nothing was left of the one before
      refine ⟨done ++ [line], ?_, ?_⟩
      · rw [hdone, List.append_assoc]
        simp [World.todo]
      · rw [hout] at hlog
        simp only [Function.update_self, printed, List.map_append, List.filter_append] at hlog ⊢
        rw [← hlog]
        simp [lineText]
    · simp only [World.todo, Function.update_of_ne hj]
      exact l.taken j
  | @mapperWrite i k hrun hpos hle hwhole hroom =>
    have hk : k = (w.task i).output.length := hwhole (l.size i)
    have htake : (w.task i).output.take k = (w.task i).output := by rw [hk, List.take_length]
    have hdrop : (w.task i).output.drop k = [] := by rw [hk, List.drop_length]
    refine ⟨hsize i _ (l.size i), ?_, fun j => ?_⟩
    · rw [List.map_append, List.flatten_append, ← l.read, List.append_assoc]
      simp
    · obtain ⟨done, hdone, hlog⟩ := l.taken j
      refine ⟨done, ?_, ?_⟩
      · rw [hdone]
        by_cases hj : j = i
        · simp [World.todo, hj]
        · simp [World.todo, Function.update_of_ne hj]
      · rw [← hlog]
        by_cases hj : j = i
        · subst hj
          have hne : (w.task j).output ≠ [] := List.ne_nil_of_length_pos (hpos.trans_le hle)
          simp [contributions_snoc_self, htake, hdrop, hne]
        · simp [Function.update_of_ne hj, contributions_snoc_of_ne hj]
  | mapperExit _ _ _ _ => exact ⟨l.size, l.read, l.taken⟩
  | @reducerRead k hrun hpos hle =>
    refine l.congr l.size ?_ rfl (fun _ => rfl) fun _ => rfl
    rw [List.append_assoc, List.take_append_drop]
  | reducerExit _ _ _ => exact ⟨l.size, l.read, l.taken⟩

theorem ledger (hshort : ∀ i, ∀ line ∈ lines (portion i), (func (lineText line)).length ≤ pipeBuf)
    (h : Reachable (step capacity func reduce) (World.start β portion) w) :
    Ledger func portion w :=
  (h.invariant (P := fun w => Sound reduce w ∧ Ledger func portion w)
    ⟨⟨Family.start, quiet_start, fun _ => le_refl 0⟩, ledger_start⟩
    fun _ _ _ s hs => ⟨s.1.next (s.1.family.move hs),
      s.2.next s.1.quiet s.1.family hshort (s.1.family.move hs)⟩).2

/-- What is written for the lines, line by line, whatever is flushed at a time. -/
theorem flatMap_printed {keys : List UInt8 → List (List UInt8)} (hk : Keyed func keys)
    {str : List UInt8} {ls : List (List UInt8)} (hls : ∀ line ∈ ls, line ∈ lines str) :
    (printed func ls).flatMap lines =
      ls.flatMap fun line => (keys (lineText line)).map keyLine := by
  induction ls with
  | nil => rfl
  | cons line ls ih =>
    obtain ⟨hzero, hnewline⟩ := notMem_lineText (hls line List.mem_cons_self)
    have hrest := ih fun l hl => hls l (List.mem_cons_of_mem _ hl)
    have hline := hk.lines_func hzero hnewline
    rw [printed] at hrest ⊢
    rw [List.flatMap_cons, ← hline, ← hrest, List.map_cons]
    by_cases hnil : func (lineText line) = []
    · rw [List.filter_cons_of_neg (by simp [hnil]), hnil]
      rfl
    · rw [List.filter_cons_of_pos (by simp [hnil]), List.flatMap_cons]

/-- In the end the log has what is printed for each portion. -/
theorem Ledger.contributions_eq (l : Ledger func portion w) (q : Quiet reduce w) {i : Fin n}
    (hsplitter : w.phase (.splitter i) = .exited) (hmapper : w.phase (.mapper i) = .exited) :
    contributions i w.log = printed func (lines (portion i)) := by
  obtain ⟨heof, hbuffer, hout⟩ := q.mapper i hmapper
  obtain ⟨done, hdone, hlog⟩ := l.taken i
  have htodo : w.todo i = [] := by
    rw [World.todo, hbuffer, (q.eof i heof).2.2, q.splitter i hsplitter]
    rfl
  rw [htodo, lines, List.append_nil] at hdone
  rw [hout] at hlog
  rw [hdone, ← hlog]
  simp

variable {T : Type} {keys : List UInt8 → List (List UInt8)} {data : List UInt8}

/-- **The numbers of the keys, in every order of the steps.** When `main` has returned, the
output file has a line for each key of the file, in the order of `strcmp`, with the number of
times that the key is in the file, and `stderr` has nothing. The mapper is any that writes a line
for each of its keys, no more than `PIPE_BUF` bytes for one line of the file. -/
theorem pipeline_counts {w : World n (Option (List UInt8 × List UInt8))} (ops : TreeOps T)
    (laws : TreeLaws ops) (hk : Keyed func keys)
    (hn : 1 ≤ n) (hlen : data.length * n < 2 ^ 64)
    (hshort : ∀ line ∈ lines data, (func (lineText line)).length ≤ pipeBuf)
    (hcount : ∀ k, (keysOf keys data).count k < 2 ^ 31)
    (h : Reachable (step capacity func (runReducerOn ops reducer))
      (World.start _ fun i : Fin n => writePortion data n i) w) (hline : w.line = .returned) :
    ∃ ks : List (List UInt8), ks.Pairwise (· < ·) ∧ (∀ k, k ∈ ks ↔ k ∈ keysOf keys data) ∧
      w.outFile = some (some
        (ks.flatMap fun k => printDs k (decimal ((keysOf keys data).count k)), [])) := by
  have hsound := sound h
  have hended : ∀ p, w.phase p = .exited := fun p => by
    apply hsound.family.waited
    rw [hline]
    cases p <;> rfl
  have hrange : (List.finRange n).flatMap (fun i : Fin n => lines (writePortion data n i)) =
      lines data := by
    rw [← lines_writePortion hn hlen, ← List.map_coe_finRange_eq_range, List.flatMap_map]
  have hmem : ∀ i : Fin n, ∀ line ∈ lines (writePortion data n i), line ∈ lines data :=
    fun i line hl => by
      rw [← hrange]
      exact List.mem_flatMap.mpr ⟨i, List.mem_finRange i, hl⟩
  have hledger := ledger (fun i line hl => hshort line (hmem i line hl)) h
  obtain ⟨-, -, hred, hout⟩ := hsound.quiet.reducer (hended .reducer)
  -- the input of the reducer has the lines of the mappers, in some order
  have hinput : w.input = ((w.log.map Prod.snd).flatMap lines).flatten := by
    have hread := hledger.read
    rw [hred, List.append_nil] at hread
    rw [hread]
    induction w.log.map Prod.snd with
    | nil => rfl
    | cons chunk chunks ih =>
      rw [List.flatten_cons, ih, List.flatMap_cons, List.flatten_append, flatten_lines]
  have hperm : ((w.log.map Prod.snd).flatMap lines).Perm ((keysOf keys data).map keyLine) := by
    refine ((perm_contributions w.log).flatMap_right lines).trans (List.Perm.of_eq ?_)
    calc ((List.finRange n).flatMap fun i => contributions i w.log).flatMap lines
        = (List.finRange n).flatMap fun i : Fin n =>
            (lines (writePortion data n i)).flatMap fun line =>
              (keys (lineText line)).map keyLine := by
          rw [List.flatMap_assoc]
          refine List.flatMap_congr fun i _ => ?_
          rw [hledger.contributions_eq hsound.quiet (hended _) (hended _)]
          exact flatMap_printed hk (hmem i)
      _ = (lines data).flatMap fun line => (keys (lineText line)).map keyLine := by
          rw [← List.flatMap_assoc, hrange]
      _ = (keysOf keys data).map keyLine := by rw [keysOf, List.map_flatMap]
  obtain ⟨ks, hsorted, hks, hrun⟩ :=
    reducer_counts ops laws (fun k => hk.plain_of_mem) hcount hperm
  exact ⟨ks, hsorted, hks, by rw [hout, hinput, hrun]⟩

theorem pipeline_counts_twoLines : ∃ w : World 2 (Option (List UInt8 × List UInt8)),
    w.line = .returned ∧ ∃ ks : List (List UInt8), ks.Pairwise (· < ·) ∧
      (∀ k, k ∈ ks ↔ k = [108, 101, 116, 116, 101, 114, 115]) ∧
      w.outFile = some (some (ks.flatMap fun k => printDs k (decimal
        ((List.replicate 3 [108, 101, 116, 116, 101, 114, 115]).count k)), [])) := by
  obtain ⟨w, hrun, hline⟩ := run_twoLines
  have hkeys : keysOf (letterKeys fun _ => [108, 101, 116, 116, 101, 114, 115])
      [97, 98, 10, 99, 10] = List.replicate 3 [108, 101, 116, 116, 101, 114, 115] := by decide
  have hshort : ∀ line ∈ lines [97, 98, 10, 99, 10],
      (lettercountMapper (lineText line)).length ≤ pipeBuf := by
    rw [show lines [97, 98, 10, 99, 10] = [[97, 98, 10], [99, 10]] from rfl]
    decide
  obtain ⟨ks, hsorted, hks, hout⟩ := pipeline_counts sortedTree sortedTree_laws keyed_lettercount
    (by decide) (by decide) hshort (fun k => by
      rw [hkeys]
      exact lt_of_le_of_lt List.count_le_length (by decide))
    ⟨twoLines ⟨0, Nat.zero_lt_two⟩ (Fin.last 1), hrun⟩ hline
  rw [hkeys] at hks hout
  exact ⟨w, hline, ks, hsorted, fun k => (hks k).trans (by simp), hout⟩

end SystemProgramming.MapReduce.Pipeline
