import SystemProgramming.Networking.Server

/-!
# The three copies of the server's store

After every event the list of names, the dictionary of sizes and the directory should agree.
A `PUT` whose body does not match its size removes the file it was writing, but leaves the
name in the list and the dictionary; they were there when the name was stored before.

## Main definitions

* `Store.Consistent`: the three copies agree
* `Complete`: the body of a `PUT` is its size and that many bytes
* `Guarded`: an incomplete `PUT` is not over a stored name

## Main results

* `readPutFromClient_spec`: a body is accepted exactly when it is complete
* `consistent_iff`: the copies agree all along a run exactly when no incomplete `PUT` is over a
  stored name
-/

namespace SystemProgramming.Networking

variable {V D : Type} {vec : VectorOps V Name} {dict : DictOps D Name Nat}

/-- The names of the list are the keys of the dictionary and the files of the directory, and
the dictionary has their lengths. -/
structure Store.Consistent (vec : VectorOps V Name) (dict : DictOps D Name Nat)
    (st : Store V D) : Prop where
  nodup : (vec.elements st.fileList).Nodup
  keys : ∀ n, n ∈ vec.elements st.fileList ↔ dict.get st.fileSize n ≠ none
  files : ∀ n, n ∈ vec.elements st.fileList ↔ st.files n ≠ none
  sizes : ∀ n file, st.files n = some file → dict.get st.fileSize n = some file.length

/-- A body is its size and that many bytes. The size that leaves no room for one more byte
does not count. -/
def Complete (bytes : List UInt8) : Prop :=
  (bytes.drop 8).length = sizeValue (bytes.take 8) ∧ (bytes.drop 8).length + 1 < 2 ^ 64

instance (bytes : List UInt8) : Decidable (Complete bytes) := inferInstanceAs (Decidable (_ ∧ _))

/-- The transfer loop receives the announced number of bytes exactly from a complete body. -/
theorem length_received_iff (bytes : List UInt8) :
    ((bytes.drop 8).take ((sizeValue (bytes.take 8) + 1) % 2 ^ 64)).length =
      sizeValue (bytes.take 8) ↔ Complete bytes := by
  have hlt := sizeValue_lt (bytes.take 8)
  unfold Complete
  rw [List.length_take]
  rcases Nat.lt_or_ge (sizeValue (bytes.take 8) + 1) (2 ^ 64) with h | h
  · rw [Nat.mod_eq_of_lt h]
    omega
  · have : (sizeValue (bytes.take 8) + 1) % 2 ^ 64 = 0 := by
      have : sizeValue (bytes.take 8) + 1 = 2 ^ 64 := by omega
      rw [this]
      rfl
    omega

/-- **A body is accepted exactly when it is complete**; then the file is what follows the
size, and otherwise there is no file. -/
theorem readPutFromClient_spec (vec : VectorOps V Name) (dict : DictOps D Name Nat)
    (st : Store V D) (name : Name) (s : Source) :
    ∃ s', readPutFromClient vec dict st name s =
      if Complete s.bytes then
        (false,
          { files := Function.update st.files name (some (s.bytes.drop 8))
            fileList := if (st.files name).isSome then st.fileList
              else vec.pushBack st.fileList name
            fileSize := dict.set st.fileSize name (s.bytes.drop 8).length }, s')
      else (true, { st with files := Function.update st.files name none }, s') := by
  obtain ⟨s', hbody⟩ := readBody_spec s
  refine ⟨s', ?_⟩
  rw [readPutFromClient, hbody]
  dsimp only
  by_cases hc : Complete s.bytes
  · have herr := isError_eq_false.mpr ((length_received_iff s.bytes).mpr hc)
    rw [herr, if_pos hc, ← hc.1, Nat.mod_eq_of_lt hc.2,
      List.take_of_length_le (Nat.le_succ _)]
    rfl
  · have herr : isError ((s.bytes.drop 8).take ((sizeValue (s.bytes.take 8) + 1) % 2 ^ 64)).length
        (sizeValue (s.bytes.take 8)) = true := by
      rw [← Bool.not_eq_false, isError_eq_false, length_received_iff]
      exact hc
    rw [herr, if_neg hc]
    rfl

/-! ## What the handlers do to the store -/

theorem readHeader_put {st : Store V D} {conn : Conn} {scratch : Scratch} {name : Name} {s : Source}
    (hparse : parseHeader scratch conn.incoming = (.put name, s)) :
    (readHeader vec dict st conn scratch).1 = (readPutFromClient vec dict st name s).2.1 := by
  rw [readHeader, hparse]

theorem readHeader_other {st : Store V D} {conn : Conn} {scratch : Scratch} {req : Request}
    {s : Source} (hparse : parseHeader scratch conn.incoming = (req, s))
    (hreq : ∀ name, req ≠ .put name) : (readHeader vec dict st conn scratch).1 = st := by
  rw [readHeader, hparse]
  cases req with
  | put name => exact absurd rfl (hreq name)
  | bad => rfl
  | get name => rfl
  | delete name => rfl
  | list => rfl

/-- A `PUT` is handled while its header is read, a `DELETE` when it is executed; nothing else
changes the store. -/
theorem runClient_store {st st' : Store V D} {conn conn' : Conn} {scratch : Scratch}
    (h : runClient vec dict st conn scratch = some (st', conn')) :
    st' = st ∨
    (∃ name s, conn.state = .fresh ∧ parseHeader scratch conn.incoming = (.put name, s) ∧
      st' = (readPutFromClient vec dict st name s).2.1) ∨
    (conn.state = .parsed ∧ conn.cmd = .delete ∧ st' = (execDelete vec dict st conn).1) := by
  unfold runClient at h
  cases hstate : conn.state with
  | fresh =>
    rw [hstate] at h
    have hst : (readHeader vec dict st conn scratch).1 = st' := congrArg Prod.fst (Option.some.inj h)
    rcases hparse : parseHeader scratch conn.incoming with ⟨req, s⟩
    by_cases hreq : ∃ name, req = .put name
    · obtain ⟨name, rfl⟩ := hreq
      exact Or.inr (Or.inl ⟨name, s, rfl, rfl, hst.symm.trans (readHeader_put hparse)⟩)
    · refine Or.inl (hst.symm.trans (readHeader_other hparse ?_))
      exact fun name heq => hreq ⟨name, heq⟩
  | parsed =>
    rw [hstate] at h
    unfold execCmd at h
    cases hcmd : conn.cmd with
    | get =>
      simp only [hcmd, Option.map_eq_some_iff] at h
      obtain ⟨_, -, h⟩ := h
      exact Or.inl (congrArg Prod.fst h).symm
    | put =>
      simp only [hcmd, Option.some.injEq] at h
      exact Or.inl (congrArg Prod.fst h).symm
    | list =>
      simp only [hcmd, Option.some.injEq] at h
      exact Or.inl (congrArg Prod.fst h).symm
    | delete =>
      simp only [hcmd, Option.some.injEq] at h
      exact Or.inr (Or.inr ⟨rfl, rfl, (congrArg Prod.fst h).symm⟩)
  | badRequest =>
    rw [hstate] at h
    exact Or.inl (congrArg Prod.fst (Option.some.inj h)).symm
  | badFileSize =>
    rw [hstate] at h
    exact Or.inl (congrArg Prod.fst (Option.some.inj h)).symm
  | noSuchFile =>
    rw [hstate] at h
    exact Or.inl (congrArg Prod.fst (Option.some.inj h)).symm

namespace Store.Consistent

variable {st : Store V D} {name : Name}

theorem start (hv : VectorLaws vec) (hd : DictLaws dict) :
    Store.Consistent vec dict (World.start vec dict).store := by
  constructor <;> simp [World.start, hv.elements_create, hd.get_create]

/-- A complete `PUT` adds the name, or replaces its file. -/
theorem put (hv : VectorLaws vec) (hd : DictLaws dict) (h : st.Consistent vec dict)
    (data : List UInt8) :
    Store.Consistent vec dict
      { files := Function.update st.files name (some data)
        fileList := if (st.files name).isSome then st.fileList else vec.pushBack st.fileList name
        fileSize := dict.set st.fileSize name data.length } := by
  have hmem : ∀ n, n ∈ vec.elements (if (st.files name).isSome then st.fileList
      else vec.pushBack st.fileList name) ↔ n = name ∨ n ∈ vec.elements st.fileList := by
    intro n
    split_ifs with hsome
    · refine ⟨Or.inr, ?_⟩
      rintro (rfl | hn)
      · exact (h.files n).mpr (by simpa [Option.isSome_iff_ne_none] using hsome)
      · exact hn
    · simp [hv.elements_pushBack, or_comm]
  constructor
  · dsimp only
    split_ifs with hsome
    · exact h.nodup
    · have hnew : name ∉ vec.elements st.fileList := by
        rw [h.files]
        simpa [Option.isSome_iff_ne_none] using hsome
      rw [hv.elements_pushBack]
      refine List.nodup_append.mpr ⟨h.nodup, by simp, ?_⟩
      rintro n hn m hm rfl
      obtain rfl : n = name := by simpa using hm
      exact hnew hn
  · intro n
    dsimp only
    rw [hmem, hd.get_set]
    by_cases hn : n = name
    · simp [hn]
    · simp [hn, h.keys]
  · intro n
    dsimp only
    rw [hmem]
    by_cases hn : n = name
    · simp [hn]
    · simp [hn, h.files]
  · intro n file hf
    dsimp only at hf ⊢
    rw [hd.get_set]
    by_cases hn : n = name
    · subst hn
      simp only [Function.update_self, Option.some.injEq] at hf
      simp [hf]
    · rw [Function.update_of_ne hn] at hf
      simp [hn, h.sizes n file hf]

/-- An incomplete `PUT` of a new name leaves no trace. -/
theorem remove_new (h : st.Consistent vec dict) (hnew : name ∉ vec.elements st.fileList) :
    Store.Consistent vec dict { st with files := Function.update st.files name none } := by
  have hnone : st.files name = none := by
    by_contra hne
    exact hnew ((h.files name).mpr hne)
  have hsame : Function.update st.files name none = st.files := by
    rw [← hnone, Function.update_eq_self]
  rw [hsame]
  exact h

/-- A `DELETE` takes the name from all three copies. -/
theorem delete (hv : VectorLaws vec) (hd : DictLaws dict) (h : st.Consistent vec dict)
    (conn : Conn) : Store.Consistent vec dict (execDelete vec dict st conn).1 := by
  obtain ⟨name, hname⟩ : ∃ name, name = conn.filename := ⟨_, rfl⟩
  rw [execDelete, ← hname]
  by_cases hfile : (st.files name).isNone
  · rw [if_pos hfile]
    exact h
  · rw [if_neg hfile]
    have hmem : name ∈ vec.elements st.fileList := (h.files name).mpr (by simpa using hfile)
    have hidx : (vec.elements st.fileList).idxOf name < (vec.elements st.fileList).length :=
      List.idxOf_lt_length_iff.mpr hmem
    dsimp only
    rw [if_neg (by rw [hv.size_eq]; omega)]
    have hera : vec.elements (vec.erase st.fileList ((vec.elements st.fileList).idxOf name)) =
        (vec.elements st.fileList).erase name := by
      rw [hv.elements_erase _ _ (by rw [hv.size_eq]; exact hidx), List.eraseIdx_idxOf_eq_erase]
    constructor
    · dsimp only
      rw [hera]
      exact h.nodup.erase name
    · intro n
      dsimp only
      rw [hera, h.nodup.mem_erase_iff, hd.get_remove _ _ _ ((h.keys name).mp hmem)]
      by_cases hn : n = name
      · simp [hn]
      · simp [hn, h.keys]
    · intro n
      dsimp only
      rw [hera, h.nodup.mem_erase_iff]
      by_cases hn : n = name
      · simp [hn]
      · simp [hn, h.files]
    · intro n file hf
      dsimp only at hf ⊢
      rw [hd.get_remove _ _ _ ((h.keys name).mp hmem)]
      by_cases hn : n = name
      · subst hn
        simp at hf
      · rw [Function.update_of_ne hn] at hf
        simp [hn, h.sizes n file hf]

end Store.Consistent

/-! ## Runs -/

/-- An incomplete `PUT` is not over a stored name. -/
def Guarded (vec : VectorOps V Name) (w : World V D) : Event → Prop
  | .accept _ _ _ => True
  | .ready c scratch => ∀ conn name s, w.clients c = some conn → conn.state = .fresh →
      parseHeader scratch conn.incoming = (.put name, s) → ¬ Complete s.bytes →
      name ∉ vec.elements w.store.fileList

variable {w w' : World V D} {e : Event}

/-- What an event does to the store. -/
theorem step_store (h : step vec dict w e = some w') :
    w'.store = w.store ∨
    ∃ c scratch conn, e = .ready c scratch ∧ w.clients c = some conn ∧
      ((∃ name s, conn.state = .fresh ∧ parseHeader scratch conn.incoming = (.put name, s) ∧
        w'.store = (readPutFromClient vec dict w.store name s).2.1) ∨
      (conn.state = .parsed ∧ conn.cmd = .delete ∧
        w'.store = (execDelete vec dict w.store conn).1)) := by
  cases e with
  | accept c incoming outSched =>
    simp only [step] at h
    split_ifs at h
    exact Or.inl (Option.some.inj h ▸ rfl)
  | ready c scratch =>
    simp only [step, Option.bind_eq_bind, Option.bind_eq_some_iff] at h
    obtain ⟨conn, hconn, h⟩ := h
    split_ifs at h with hopen
    obtain ⟨⟨st, conn'⟩, hrun, h⟩ := Option.bind_eq_some_iff.mp h
    obtain rfl := Option.some.inj h
    rcases runClient_store hrun with hst | ⟨name, s, hfresh, hparse, hst⟩ | hdel
    · exact Or.inl hst
    · exact Or.inr ⟨c, scratch, conn, rfl, hconn, Or.inl ⟨name, s, hfresh, hparse, hst⟩⟩
    · exact Or.inr ⟨c, scratch, conn, rfl, hconn, Or.inr hdel⟩

/-- An event keeps the copies in agreement unless it is an incomplete `PUT` over a stored
name. -/
theorem consistent_step (hv : VectorLaws vec) (hd : DictLaws dict)
    (hw : w.store.Consistent vec dict) (hguard : Guarded vec w e)
    (h : step vec dict w e = some w') : w'.store.Consistent vec dict := by
  rcases step_store h with hst | ⟨c, scratch, conn, rfl, hconn, hcase⟩
  · exact hst ▸ hw
  · rcases hcase with ⟨name, s, hfresh, hparse, hst⟩ | ⟨-, -, hst⟩
    · obtain ⟨s', hspec⟩ := readPutFromClient_spec vec dict w.store name s
      rw [hst, hspec]
      by_cases hc : Complete s.bytes
      · rw [if_pos hc]
        exact hw.put hv hd _
      · rw [if_neg hc]
        exact hw.remove_new (hguard conn name s hconn hfresh hparse hc)
    · rw [hst]
      exact hw.delete hv hd conn

/-- An incomplete `PUT` over a stored name leaves the name listed without a file. -/
theorem not_consistent_step (hguard : ¬ Guarded vec w e)
    (h : step vec dict w e = some w') : ¬ w'.store.Consistent vec dict := by
  cases e with
  | accept c incoming outSched => exact absurd trivial hguard
  | ready c scratch =>
    simp only [Guarded, not_forall, not_not] at hguard
    obtain ⟨conn, name, s, hconn, hfresh, hparse, hinc, hmem⟩ := hguard
    have hst : w'.store = (readPutFromClient vec dict w.store name s).2.1 := by
      simp only [step, hconn, Option.bind_eq_bind, Option.bind_some] at h
      split_ifs at h with hopen
      simp only [runClient, hfresh, Option.bind_some, Option.some.injEq] at h
      rw [← h, readHeader_put hparse]
    obtain ⟨s', hspec⟩ := readPutFromClient_spec vec dict w.store name s
    rw [hspec, if_neg hinc] at hst
    rw [hst]
    intro hbad
    exact (hbad.files name).mp hmem (Function.update_self ..)

/-- **Store consistency.** Along a run of the server, the list of names, the dictionary of
sizes and the directory always agree if and only if no `PUT` with an incomplete body is
handled for a name that is stored at that moment. -/
theorem consistent_iff (hv : VectorLaws vec) (hd : DictLaws dict) {es : List Event}
    (hrun : run (step vec dict) (World.start vec dict) es = some w') :
    (∀ w, Visits (step vec dict) (World.start vec dict) es w → w.store.Consistent vec dict) ↔
      ∀ w e, Takes (step vec dict) (World.start vec dict) es w e → Guarded vec w e :=
  forall_visits_iff (P := fun w => w.store.Consistent vec dict) (Store.Consistent.start hv hd)
    (fun _ _ _ hw hguard h => consistent_step hv hd hw hguard h) (fun _ hw => hw)
    (fun _ _ _ _ hguard h => not_consistent_step hguard h) hrun

/-- `PUT a` with no body, then `PUT a` that announces one byte and sends none. -/
def brokenPut : List Event :=
  [.accept 1 ⟨putVerb ++ [97, 10], []⟩ [], .ready 1 .zeroed,
    .accept 2 ⟨putVerb ++ [97, 10, 1, 0, 0, 0, 0, 0, 0, 0], []⟩ [], .ready 2 .zeroed]

theorem consistent_iff_brokenPut :
    (∃ w', run (step listVector listDict) (World.start listVector listDict) brokenPut = some w') ∧
      ((∀ w, Visits (step listVector listDict) (World.start listVector listDict) brokenPut w →
          w.store.Consistent listVector listDict) ↔
        ∀ w e, Takes (step listVector listDict) (World.start listVector listDict) brokenPut w e →
          Guarded listVector w e) := by
  have hsome : (run (step listVector listDict) (World.start listVector listDict)
      brokenPut).isSome := by decide +kernel
  obtain ⟨w', hw'⟩ := Option.isSome_iff_exists.mp hsome
  exact ⟨⟨w', hw'⟩, consistent_iff listVector_laws listDict_laws hw'⟩

/-- After that run the name is listed, but its file is gone. -/
theorem not_consistent_brokenPut :
    ∃ w, run (step listVector listDict) (World.start listVector listDict) brokenPut = some w ∧
      [97] ∈ listVector.elements w.store.fileList ∧ w.store.files [97] = none ∧
      ¬ w.store.Consistent listVector listDict := by
  have hw : (run (step listVector listDict) (World.start listVector listDict) brokenPut).map
      (fun w => (w.store.fileList, w.store.files [97])) = some ([[97]], none) := by decide +kernel
  obtain ⟨w, hrun, heq⟩ := Option.map_eq_some_iff.mp hw
  obtain ⟨hlist, hfile⟩ := Prod.mk.inj heq
  have hmem : [97] ∈ listVector.elements w.store.fileList := by
    rw [hlist]
    simp [listVector]
  exact ⟨w, hrun, hmem, hfile, fun hc => (hc.files [97]).mp hmem hfile⟩

end SystemProgramming.Networking
