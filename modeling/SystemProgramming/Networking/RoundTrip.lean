import SystemProgramming.Networking.Client
import SystemProgramming.Networking.Bodies

/-!
# What is put is what is got

A file that a client puts on the server comes back to every client that gets it, as long as no
request in between puts or deletes that name. The way from one client to the other goes through
four loops, each with its own chunks, over sockets that interrupt calls and transfer what they
like.

There are requests that spoil this without the name. A path such as that of `./a` leads to the
file of `a`. A `GET` of something that can be opened but was never put, the directory itself for
one, ends the server. Requests with plain names do neither: in all states that they lead to, each
file has its length in the dictionary.

## Main definitions

* `PathLaws`: what is done at a path, and the file that it leads to
* `Touches`: an event that puts or deletes a name
* `Apart`, `Recorded`: events that spare the file of a name, and the server
* `RoundTrips`: a file that was put is what a client gets

## Main results

* `runClient_record`: what one call of `run_client` leaves of a file
* `round_trip`: files come back while the events are apart and recorded
* `round_trip_plain`: files come back in all runs with plain names
-/

namespace SystemProgramming.Networking

/-! ## Files and their sizes -/

/-- Paths lead to files. What is done at a path leaves the other files as they are. -/
structure PathLaws {F ι : Type} (fs : DiskOps F) (target : List UInt8 → ι) : Prop where
  openWrite : ∀ disk path other, target path ≠ target other →
    fs.content (fs.openWrite disk path).2 other = fs.content disk other
  write : ∀ disk path other bytes, target path ≠ target other →
    fs.content (fs.write disk path bytes) other = fs.content disk other
  remove : ∀ disk path other, target path ≠ target other →
    fs.content (fs.remove disk path).2 other = fs.content disk other

/-- In a directory of regular files a path leads to an entry. -/
theorem dirDisk_paths (dir : List UInt8) : PathLaws (dirDisk dir) (entryOf dir) where
  openWrite := fun _ _ _ hne => Function.update_of_ne hne.symm _ _
  write := fun _ _ _ _ hne => Function.update_of_ne hne.symm _ _
  remove := fun disk path other hne => by
    simp only [DiskOps.content, dirDisk]
    split_ifs
    · exact Function.update_of_ne hne.symm _ _
    · rfl

/-- The name that the next call of `run_client` puts or deletes. -/
def Service.Client.changes (client : Service.Client) (scratch : Scratch) : Option Name :=
  match client.state with
  | .fresh =>
    match (parseHeader scratch client.incoming).1 with
    | .put name => some name
    | _ => none
  | .parsed => if client.cmd = .delete then some client.filename else none
  | _ => none

section Record

variable {V D F ι : Type} (fs : DiskOps F) (vec : VectorOps V Name) (dict : DictOps D Name Nat)
  (dir : List UInt8)

/-- The file at the path of a name, and its size in the dictionary. -/
def Service.Store.record (st : Service.Store V D F) (name : Name) :
    Option (List UInt8) × Option Nat :=
  (fs.content st.disk (filepath dir name), dict.get st.fileSize name)

/-- A file that a `GET` opens has its size in the dictionary, and so has one that a `DELETE`
removes and finds in the list of names. -/
def Service.Store.Recorded (st : Service.Store V D F) (client : Service.Client) : Prop :=
  client.state = .parsed →
    (client.cmd = .get → (fs.openRead st.disk (filepath dir client.filename)).1 ≠ none →
      client.filename ≠ [] → dict.get st.fileSize client.filename ≠ none) ∧
    (client.cmd = .delete → (fs.remove st.disk (filepath dir client.filename)).1 = true →
      client.filename ∈ vec.elements st.fileList → dict.get st.fileSize client.filename ≠ none)

variable {fs vec dict dir} {target : List UInt8 → ι} {st : Service.Store V D F}
  {client : Service.Client} {scratch : Scratch} {name other : Name}

/-- A `PUT` of another file. -/
theorem readPutFromClient_record (hfs : DiskLaws fs) (hpaths : PathLaws fs target)
    (hd : DictLaws dict) (hname : other ≠ name)
    (hpath : target (filepath dir other) ≠ target (filepath dir name)) (s : Source) :
    (Service.readPutFromClient fs vec dict dir st other s).2.1.record fs dict dir name =
      st.record fs dict dir name := by
  have hopened := hpaths.openWrite st.disk _ _ hpath
  have hwritten := fun disk bytes => hpaths.write disk _ _ bytes hpath
  rw [Service.readPutFromClient]
  simp only [hfs.openRead]
  by_cases hopen : (fs.openWrite st.disk (filepath dir other)).1 = true
  · by_cases herror : isError (readBody s).2.1.length (readBody s).1 = true
    · simp only [hopen, herror, if_true]
      exact Prod.ext ((hpaths.remove _ _ _ hpath).trans ((hwritten _ _).trans hopened)) rfl
    · simp only [hopen, herror, if_true, if_false, Bool.false_eq_true]
      exact Prod.ext ((hwritten _ _).trans hopened)
        ((hd.get_set _ _ _ _).trans (if_neg hname.symm))
  · simp only [hopen, if_false, Bool.false_eq_true]
    exact Prod.ext hopened rfl

/-- A `DELETE` of another file. -/
theorem execDelete_record (hpaths : PathLaws fs target) (hv : VectorLaws vec) (hd : DictLaws dict)
    (hname : client.filename ≠ name)
    (hpath : target (filepath dir client.filename) ≠ target (filepath dir name))
    (hrecorded : (fs.remove st.disk (filepath dir client.filename)).1 = true →
      client.filename ∈ vec.elements st.fileList →
      dict.get st.fileSize client.filename ≠ none) :
    (Service.execDelete fs vec dict dir st client).1.record fs dict dir name =
      st.record fs dict dir name := by
  have hcontent := hpaths.remove st.disk _ _ hpath
  simp only [Service.execDelete]
  split_ifs with hremoved hid
  · exact Prod.ext hcontent rfl
  · refine Prod.ext hcontent ?_
    -- the name is in the list, so that the dictionary has a size to remove
    have hmem : client.filename ∈ vec.elements st.fileList := by
      rw [hv.size_eq] at hid
      exact List.idxOf_lt_length_iff.mp (lt_of_le_of_ne List.idxOf_le_length hid)
    exact (hd.get_remove _ _ _ (hrecorded hremoved hmem)).trans (if_neg hname.symm)
  · exact Prod.ext hcontent rfl

/-- What `exec_get` does to the store. -/
theorem execGet_store (hfs : DiskLaws fs) : (Service.execGet fs dict dir st client).1 = st := by
  simp only [Service.execGet, hfs.openRead]
  split
  · rfl
  · split_ifs <;> rfl

/-- **One call of `run_client`** leaves a file and its size as they are, unless it puts or deletes
the file. -/
theorem runClient_record (hfs : DiskLaws fs) (hpaths : PathLaws fs target) (hv : VectorLaws vec)
    (hd : DictLaws dict) (hname : client.changes scratch ≠ some name)
    (hpath : ∀ other, client.changes scratch = some other → other ≠ name →
      target (filepath dir other) ≠ target (filepath dir name))
    (hrecorded : st.Recorded fs vec dict dir client) :
    (Service.runClient fs vec dict dir st client scratch).1.record fs dict dir name =
      st.record fs dict dir name := by
  rw [Service.runClient]
  cases hstate : client.state with
  | fresh =>
    simp only [Service.Client.changes, hstate] at hname hpath
    simp only [Service.readHeader]
    rcases hparse : parseHeader scratch client.incoming with ⟨_ | found | found | found | _, s⟩
    -- only a header with `PUT` touches the disk in this state
    case put =>
      simp only [hparse, ne_eq, Option.some.injEq, forall_eq'] at hname hpath
      exact readPutFromClient_record hfs hpaths hd hname (hpath hname) s
    all_goals rfl
  | parsed =>
    dsimp only
    rw [Service.execCmd]
    cases hcmd : client.cmd with
    | get =>
      dsimp only
      rw [execGet_store hfs]
    | put => rfl
    | list => rfl
    -- the file that is removed has another name, and is known to the dictionary
    | delete =>
      simp only [Service.Client.changes, hstate, hcmd, if_true, ne_eq, Option.some.injEq,
        forall_eq'] at hname hpath
      exact execDelete_record hpaths hv hd hname (hpath hname) ((hrecorded hstate).2 hcmd)
  | badRequest => rfl
  | badFileSize => rfl
  | noSuchFile => rfl

/-- A recorded command does not end the server. -/
theorem exists_runClient (hrecorded : st.Recorded fs vec dict dir client) (scratch : Scratch) :
    ∃ client', (Service.runClient fs vec dict dir st client scratch).2 = some client' := by
  rw [Service.runClient]
  cases hstate : client.state with
  | parsed =>
    dsimp only
    rw [Service.execCmd]
    cases hcmd : client.cmd with
    | get =>
      dsimp only
      rw [Service.execGet]
      rcases hread : fs.openRead st.disk (filepath dir client.filename) with ⟨_ | file, disk⟩
      · exact ⟨_, rfl⟩
      · dsimp only
        split_ifs with hnil
        · exact ⟨_, rfl⟩
        -- the size of a file that opens is in the dictionary
        · obtain ⟨size, hsize⟩ := Option.ne_none_iff_exists'.mp
            ((hrecorded hstate).1 hcmd (by simp [hread]) hnil)
          rw [hsize]
          exact ⟨_, rfl⟩
    | put => exact ⟨_, rfl⟩
    | list => exact ⟨_, rfl⟩
    | delete => exact ⟨_, rfl⟩
  | _ => exact ⟨_, rfl⟩

/-- A handler leaves its connection past the header. -/
theorem runClient_state {client' : Service.Client}
    (h : (Service.runClient fs vec dict dir st client scratch).2 = some client') :
    client'.state ≠ .fresh := by
  rw [Service.runClient] at h
  cases hstate : client.state with
  | fresh =>
    simp only [hstate, Service.readHeader, Option.some.injEq] at h
    rw [← h]
    rcases parseHeader scratch client.incoming with ⟨_ | found | found | found | _, s⟩
    -- after the body the request is parsed, or its size is bad
    case put =>
      dsimp only
      split_ifs <;> simp
    all_goals simp
  | parsed =>
    simp only [hstate, Service.execCmd] at h
    cases hcmd : client.cmd with
    | get =>
      simp only [hcmd, Service.execGet] at h
      split at h
      · simp [← Option.some.inj h]
      · split_ifs at h
        · simp [← Option.some.inj h]
        · obtain ⟨size, -, h⟩ := Option.bind_eq_some_iff.mp h
          simp [← Option.some.inj h, Service.cleanClient, hstate]
    | put =>
      simp only [hcmd, Option.some.injEq] at h
      simp [← h, Service.cleanClient]
    | list =>
      simp only [hcmd, Option.some.injEq] at h
      simp [← h, Service.execList, Service.cleanClient, hstate]
    | delete =>
      simp only [hcmd, Option.some.injEq, Service.execDelete] at h
      rw [← h]
      split_ifs <;> simp [Service.cleanClient, hstate]
  | _ =>
    simp only [hstate, Option.some.injEq] at h
    simp [← h, Service.handleErrors, Service.cleanClient, hstate]

end Record

/-! ## Events -/

section Events

variable {V D F ι : Type} (fs : DiskOps F) (vec : VectorOps V Name) (dict : DictOps D Name Nat)
  (dir : List UInt8) (target : List UInt8 → ι)

/-- An event that puts or deletes `name`. -/
def Touches (w : Service V D F) (name : Name) : Event → Prop
  | .accept _ _ _ => False
  | .ready c scratch => ∃ client, w.clients c = some client ∧ client.changes scratch = some name

/-- An event that puts or deletes no other name whose path leads to the file of `name`. -/
def Apart (w : Service V D F) (name : Name) : Event → Prop
  | .accept _ _ _ => True
  | .ready c scratch => ∀ client other, w.clients c = some client →
      client.changes scratch = some other → other ≠ name →
      target (filepath dir other) ≠ target (filepath dir name)

/-- An event that asks the dictionary for no size that it does not have. -/
def Recorded (w : Service V D F) : Event → Prop
  | .accept _ _ _ => True
  | .ready c _ => ∀ client, w.clients c = some client → w.store.Recorded fs vec dict dir client

/-- The server runs, and has the file with its size. -/
structure Kept (w : Service V D F) (name : Name) (file : List UInt8) : Prop where
  alive : w.alive = true
  record : w.store.record fs dict dir name = (some file, some file.length)

/-- Nothing has been sent on a connection whose header has not been read. -/
def Quiet (w : Service V D F) : Prop :=
  ∀ c client, w.clients c = some client → client.state = .fresh →
    client.cleaned = 0 ∧ client.outgoing.bytes = []

variable {fs vec dict dir target} {w w' : Service V D F} {e : Event} {c : Nat}
  {st : Service.Store V D F} {client : Service.Client} {scratch : Scratch} {name : Name}
  {file : List UInt8}

instance (w : Service V D F) (name : Name) : DecidablePred (Touches w name)
  | .accept _ _ _ => isFalse id
  | .ready c scratch =>
    decidable_of_iff ((w.clients c).any fun client => client.changes scratch = some name)
      (by cases h : w.clients c <;> simp [Touches, h])

instance (st : Service.Store V D F) (client : Service.Client) :
    Decidable (st.Recorded fs vec dict dir client) :=
  inferInstanceAs (Decidable (_ → _ ∧ _))

instance (w : Service V D F) : DecidablePred (Recorded fs vec dict dir w)
  | .accept _ _ _ => isTrue trivial
  | .ready c _ =>
    decidable_of_iff ((w.clients c).all fun client => w.store.Recorded fs vec dict dir client)
      (by cases h : w.clients c <;> simp [Recorded, h])

/-- A request that is still to be read asks for no size. -/
theorem recorded_of_fresh (hclient : w.clients c = some client)
    (hfresh : client.state = .fresh) :
    Recorded fs vec dict dir w (.ready c scratch) := by
  intro other hother hstate
  obtain rfl := Option.some.inj (hclient.symm.trans hother)
  rw [hfresh] at hstate
  cases hstate

/-- In a directory the paths of different names lead to different files. -/
theorem apart_dirDisk (v : Service V D F) (name : Name) (e : Event) :
    Apart dir (entryOf dir) v name e := by
  cases e with
  | accept c incoming outSched => trivial
  | ready c scratch =>
    intro client other _ _ hne
    rwa [entryOf_filepath, entryOf_filepath]

theorem Kept.step (hfs : DiskLaws fs) (hpaths : PathLaws fs target) (hv : VectorLaws vec)
    (hd : DictLaws dict) (h : Kept fs dict dir w name file) (hno : ¬ Touches w name e)
    (hapart : Apart dir target w name e) (hrecorded : Recorded fs vec dict dir w e)
    (hstep : serve fs vec dict dir w e = some w') : Kept fs dict dir w' name file := by
  obtain ⟨-, ⟨c, incoming, outSched, -, -, rfl⟩ | ⟨c, scratch, client, rfl, hclient, -, hcase⟩⟩ :=
    serve_cases hstep
  · exact ⟨h.alive, h.record⟩
  · have hsame := @runClient_record _ _ _ _ fs vec dict dir target w.store client scratch name
      hfs hpaths hv hd (fun hchanges => hno ⟨client, hclient, hchanges⟩)
      (fun other => hapart client other hclient) (hrecorded client hclient)
    rcases hcase with ⟨st, hrun, -⟩ | ⟨st, client', hrun, rfl⟩
    · -- a recorded command does not end the server
      obtain ⟨client', hsome⟩ := exists_runClient (hrecorded client hclient) scratch
      rw [hrun] at hsome
      cases hsome
    · rw [hrun] at hsame
      exact ⟨h.alive, hsame.trans h.record⟩

theorem quiet_step (hw : Quiet w) (hstep : serve fs vec dict dir w e = some w') : Quiet w' := by
  intro c client hclient hfresh
  obtain ⟨-, ⟨c', incoming, outSched, -, -, rfl⟩ | ⟨c', scratch, other, rfl, -, -, hcase⟩⟩ :=
    serve_cases hstep
  · by_cases heq : c = c'
    · dsimp only at hclient
      rw [heq, Function.update_self] at hclient
      obtain rfl := Option.some.inj hclient
      exact ⟨rfl, rfl⟩
    · exact hw c client ((Function.update_of_ne heq _ _).symm.trans hclient) hfresh
  · rcases hcase with ⟨st, -, rfl⟩ | ⟨st, client', hrun, rfl⟩
    · exact hw c client hclient hfresh
    · by_cases heq : c = c'
      · dsimp only at hclient
        rw [heq, Function.update_self] at hclient
        obtain rfl := Option.some.inj hclient
        exact absurd hfresh (runClient_state (congrArg Prod.snd hrun))
      · exact hw c client ((Function.update_of_ne heq _ _).symm.trans hclient) hfresh

theorem quiet_of_reachable {disk : F}
    (hw : Reachable (serve fs vec dict dir) (Service.start vec dict disk) w) : Quiet w :=
  hw.invariant (P := Quiet) (fun _ _ hc => by cases hc) fun _ _ _ hq hstep => quiet_step hq hstep

/-! ## The two ends of the round trip -/

/-- The request of a `PUT` is refused, or the file is stored with its size. -/
theorem runClient_put (hfs : DiskLaws fs) (hd : DictLaws dict) (hname : Plain name)
    (hlen : file.length + 1 < 2 ^ 64) (hfresh : client.state = .fresh)
    (hreq : client.incoming.bytes = putVerb ++ name ++ 10 :: (sizeBytes file.length ++ file)) :
    ∃ st' client', Service.runClient fs vec dict dir st client scratch = (st', some client') ∧
      client'.cleaned = client.cleaned ∧ client'.outgoing = client.outgoing ∧
      (client'.state = .badFileSize ∨
        st'.record fs dict dir name = (some file, some file.length)) := by
  obtain ⟨sched, hparse⟩ := parseHeader_put hname hreq scratch
  rw [Service.runClient, hfresh]
  dsimp only
  rw [Service.readHeader, hparse]
  dsimp only
  -- what follows the header is the size and the body
  have hbody : IsBody (sizeBytes file.length ++ file) file := ⟨by omega, rfl⟩
  by_cases hopen : (fs.openWrite st.disk (filepath dir name)).1 = true
  · obtain ⟨st', s', hput, hcontent, hsize⟩ := readPutFromClient_complete vec dict hfs hd hopen
      (s := ⟨sizeBytes file.length ++ file, sched⟩) (hbody.complete (by omega))
    rw [hbody.drop] at hcontent hsize
    rw [hput]
    exact ⟨_, _, rfl, rfl, rfl, Or.inr (Prod.ext hcontent hsize)⟩
  · obtain ⟨disk, hput, -⟩ := readPutFromClient_closed vec dict hfs (Bool.not_eq_true _ ▸ hopen)
      (s := ⟨sizeBytes file.length ++ file, sched⟩)
    rw [hput]
    exact ⟨_, _, rfl, rfl, rfl, Or.inl rfl⟩

/-- A connection that was refused is sent an error, and nothing else. -/
theorem refused_step (hstate : client.state = .badFileSize) (hopen : client.cleaned = 0)
    (h : w.clients c = some client ∨
      w.clients c = some (Service.handleErrors client errBadFileSize))
    (hstep : serve fs vec dict dir w e = some w') :
    w'.clients c = some client ∨
      w'.clients c = some (Service.handleErrors client errBadFileSize) := by
  by_cases hother : ∀ scratch, e ≠ .ready c scratch
  · exact h.imp (fun hc => serve_clients hc hother hstep) fun hc => serve_clients hc hother hstep
  · obtain ⟨scratch, rfl⟩ := not_forall_not.mp hother
    obtain ⟨-, ⟨_, _, _, heq, _⟩ | ⟨_, scratch', found, heq, hfound, hcleaned, hcase⟩⟩ :=
      serve_cases hstep
    · cases heq
    · cases heq
      rcases h with hc | hc
      · obtain rfl := Option.some.inj (hc.symm.trans hfound)
        rw [Service.runClient, hstate] at hcase
        rcases hcase with ⟨st, hrun, -⟩ | ⟨st, client', hrun, rfl⟩
        · cases hrun
        · cases hrun
          exact Or.inr (Function.update_self ..)
      · -- the error has been sent, and the connection is closed
        obtain rfl := Option.some.inj (hc.symm.trans hfound)
        simp [Service.handleErrors, Service.cleanClient, hopen] at hcleaned

/-- The request of a `GET` is ready to be answered. -/
theorem runClient_get (hname : Plain name) (hfresh : client.state = .fresh)
    (hreq : client.incoming.bytes = getVerb ++ name ++ [10]) :
    ∃ s, Service.runClient fs vec dict dir st client scratch = (st, some { client with
      incoming := s, state := .parsed, cmd := .get, filename := name }) := by
  have hget := parseHeader_get hname hreq scratch
  rcases hparse : parseHeader scratch client.incoming with ⟨request, s⟩
  obtain rfl : request = .get name := (congrArg Prod.fst hparse).symm.trans hget
  refine ⟨s, ?_⟩
  rw [Service.runClient, hfresh]
  dsimp only
  rw [Service.readHeader, hparse]

/-- The answer is the size of the file, and its bytes. -/
theorem runClient_answer (scratch : Scratch) (hname : client.filename ≠ [])
    (hstate : client.state = .parsed) (hcmd : client.cmd = .get)
    (hrecord : st.record fs dict dir client.filename = (some file, some file.length)) :
    ∃ st' client', Service.runClient fs vec dict dir st client scratch = (st', some client') ∧
      client'.cleaned = client.cleaned + 1 ∧ client'.outgoing.bytes =
        client.outgoing.bytes ++ (okBytes ++ (sizeBytes file.length ++ file)) := by
  have hread : (fs.openRead st.disk (filepath dir client.filename)).1 = some file :=
    congrArg Prod.fst hrecord
  have hsize : dict.get st.fileSize client.filename = some file.length :=
    congrArg Prod.snd hrecord
  rw [Service.runClient, hstate]
  dsimp only
  rw [Service.execCmd, hcmd]
  dsimp only
  rw [Service.execGet]
  rcases hopen : fs.openRead st.disk (filepath dir client.filename) with ⟨_, disk⟩
  obtain rfl : _ = some file := (congrArg Prod.fst hopen).symm.trans hread
  dsimp only
  rw [if_neg hname, hsize]
  refine ⟨_, _, rfl, rfl, ?_⟩
  simp [Service.cleanClient]

end Events

/-! ## Round trips -/

section RoundTrips

variable {V D F ι : Type} (fs : DiskOps F) (vec : VectorOps V Name) (dict : DictOps D Name Nat)
  (dir : List UInt8) (disk : F)

/-- A client puts a file under a plain name, the server answers `OK`, and no request after that
puts or deletes the name. When another client gets the name, the server answers, and the client
decodes the answer to the file. The schedules of all sockets are arbitrary. All events meet `C`,
and those after the `PUT` meet `A` for the name. -/
def RoundTrips (C : Service V D F → Event → Prop) (A : Service V D F → Name → Event → Prop) :
    Prop :=
  ∀ (name : Name) (file : List UInt8), Plain name → file.length < 2 ^ 63 →
  -- the server handles the request of the `PUT`
  ∀ es w c₁ client₁ putSched scratch₁ w₁,
    run (serve fs vec dict dir) (Service.start vec dict disk) es = some w →
    (∀ v e, Takes (serve fs vec dict dir) (Service.start vec dict disk) es v e → C v e) →
    w.clients c₁ = some client₁ → client₁.state = .fresh →
    client₁.incoming.bytes = (runClientRequest ⟨[], putSched⟩ .put name file).bytes →
    C w (.ready c₁ scratch₁) → serve fs vec dict dir w (.ready c₁ scratch₁) = some w₁ →
  -- it has answered `OK` when the request of the `GET` is there
  ∀ es₁ w₂ answered c₂ client₂ getSched scratch₂,
    run (serve fs vec dict dir) w₁ es₁ = some w₂ →
    (∀ v e, Takes (serve fs vec dict dir) w₁ es₁ v e → C v e ∧ ¬ Touches v name e ∧ A v name e) →
    w₂.clients c₁ = some answered → answered.outgoing.bytes = okBytes →
    w₂.clients c₂ = some client₂ → client₂.state = .fresh →
    client₂.incoming.bytes = (runClientRequest ⟨[], getSched⟩ .get name []).bytes →
    C w₂ (.ready c₂ scratch₂) →
  -- it handles this request, and answers it after any other events
  ∃ w₃, serve fs vec dict dir w₂ (.ready c₂ scratch₂) = some w₃ ∧
    ∀ es₂ w₄ scratch₃, run (serve fs vec dict dir) w₃ es₂ = some w₄ →
      (∀ v e, Takes (serve fs vec dict dir) w₃ es₂ v e → C v e ∧ ¬ Touches v name e ∧ A v name e) →
      (∀ v e, Takes (serve fs vec dict dir) w₃ es₂ v e → ∀ scratch, e ≠ .ready c₂ scratch) →
      ∃ w₅ client, serve fs vec dict dir w₄ (.ready c₂ scratch₃) = some w₅ ∧
        w₅.clients c₂ = some client ∧ client.cleaned = 1 ∧
        ∀ sched, readServerResponse ⟨client.outgoing.bytes, sched⟩ .get = .file file

variable {fs vec dict dir disk} {target : List UInt8 → ι} {I : Service V D F → Prop}
  {C : Service V D F → Event → Prop} {A : Service V D F → Name → Event → Prop}

/-- The file is kept along a run whose events are recorded and apart. -/
theorem Kept.run (hfs : DiskLaws fs) (hpaths : PathLaws fs target) (hv : VectorLaws vec)
    (hd : DictLaws dict)
    (hstep : ∀ v e v', I v → C v e → serve fs vec dict dir v e = some v' → I v')
    (hC : ∀ v e, I v → C v e → Recorded fs vec dict dir v e)
    (hA : ∀ v name e, A v name e → Apart dir target v name e) {name : Name} {file : List UInt8}
    {es : List Event} {w w' : Service V D F} (hI : I w) (hkept : Kept fs dict dir w name file)
    (hrun : SystemProgramming.run (serve fs vec dict dir) w es = some w')
    (hes : ∀ v e, Takes (serve fs vec dict dir) w es v e →
      C v e ∧ ¬ Touches v name e ∧ A v name e) :
    I w' ∧ Kept fs dict dir w' name file := by
  refine forall_visits_of_takes (P := fun v => I v ∧ Kept fs dict dir v name file) ⟨hI, hkept⟩
    ?_ hes w' (Visits.final hrun)
  rintro v e v' ⟨hIv, hkeptv⟩ ⟨hCv, hno, hAv⟩ hv'
  exact ⟨hstep v e v' hIv hCv hv',
    hkeptv.step hfs hpaths hv hd hno (hA v name e hAv) (hC v e hIv hCv) hv'⟩

/-- Under an invariant that makes all events recorded, files come back. -/
theorem roundTrips_of_invariant (hfs : DiskLaws fs) (hpaths : PathLaws fs target)
    (hv : VectorLaws vec) (hd : DictLaws dict) (hstart : I (Service.start vec dict disk))
    (hstep : ∀ v e v', I v → C v e → serve fs vec dict dir v e = some v' → I v')
    (hC : ∀ v e, I v → C v e → Recorded fs vec dict dir v e)
    (hA : ∀ v name e, A v name e → Apart dir target v name e) :
    RoundTrips fs vec dict dir disk C A := by
  intro name file hname hlen es w c₁ client₁ putSched scratch₁ w₁ hrun hes hclient₁ hfresh₁ hreq₁
    hCput hput es₁ w₂ answered c₂ client₂ getSched scratch₂ hrun₁ hes₁ hanswered hok hclient₂
    hfresh₂ hreq₂ hCget
  rw [runClientRequest_put, List.nil_append] at hreq₁
  rw [runClientRequest_get, List.nil_append] at hreq₂
  have hreach : Reachable (serve fs vec dict dir) (Service.start vec dict disk) w := ⟨es, hrun⟩
  -- the file is stored, as otherwise the client would get an error
  obtain ⟨hcleaned₁, hsent₁⟩ := quiet_of_reachable hreach c₁ client₁ hclient₁ hfresh₁
  have halive : w.alive = true := (serve_cases hput).1
  obtain ⟨st₁, client₁', hrunPut, hcleaned₁', hout₁, hstored⟩ :=
    @runClient_put _ _ _ fs vec dict dir w.store client₁ scratch₁ name file hfs hd hname
      (by omega) hfresh₁ hreq₁
  have hw₁ := Option.some.inj (hput.symm.trans (serve_ready hclient₁ halive hcleaned₁ hrunPut))
  have hI₁ : I w₁ := by
    refine hstep _ _ _ ?_ hCput hput
    exact forall_visits_of_takes hstart hstep hes w (Visits.final hrun)
  have hkept₁ : Kept fs dict dir w₁ name file := by
    rcases hstored with hrefused | hrecord
    · exfalso
      have herror := forall_visits_of_takes (P := fun v => v.clients c₁ = some client₁' ∨
          v.clients c₁ = some (Service.handleErrors client₁' errBadFileSize))
        (Or.inl (by rw [hw₁]; exact Function.update_self ..))
        (fun _ _ _ h _ => refused_step hrefused (hcleaned₁'.trans hcleaned₁) h)
        (fun _ _ _ => trivial) w₂ (Visits.final hrun₁)
      rw [hanswered] at herror
      rcases herror with heq | heq
      · rw [Option.some.inj heq, hout₁, hsent₁] at hok
        cases hok
      · rw [Option.some.inj heq] at hok
        simp [Service.handleErrors, Service.cleanClient, hout₁, hsent₁, errorBytes, okBytes] at hok
    · rw [hw₁]
      exact ⟨halive, hrecord⟩
  -- it is still there when the request of the `GET` is handled
  obtain ⟨hI₂, hkept₂⟩ := Kept.run hfs hpaths hv hd hstep hC hA hI₁ hkept₁ hrun₁ hes₁
  have hreach₂ := (hreach.next hput).run hrun₁
  obtain ⟨hcleaned₂, hsent₂⟩ := quiet_of_reachable hreach₂ c₂ client₂ hclient₂ hfresh₂
  obtain ⟨s, hrunGet⟩ := @runClient_get _ _ _ fs vec dict dir w₂.store client₂ scratch₂ name hname
    hfresh₂ hreq₂
  have hget := serve_ready hclient₂ hkept₂.alive hcleaned₂ hrunGet
  refine ⟨_, hget, fun es₂ w₄ scratch₃ hrun₂ hes₂ hother => ?_⟩
  -- and when it is answered
  obtain ⟨-, hkept₄⟩ := Kept.run hfs hpaths hv hd hstep hC hA (hstep _ _ _ hI₂ hCget hget)
    ⟨hkept₂.alive, hkept₂.record⟩ hrun₂ hes₂
  have hclient₄ := forall_visits_of_takes (P := fun v => v.clients c₂ = some _)
    (Function.update_self ..) (fun _ _ _ h hne => serve_clients h hne) hother w₄
    (Visits.final hrun₂)
  obtain ⟨st₅, client₅, hrunAnswer, hcleaned₅, hbytes⟩ := @runClient_answer _ _ _ fs vec dict dir
    w₄.store { client₂ with incoming := s, state := .parsed, cmd := .get, filename := name } file
    scratch₃ (List.ne_nil_of_length_pos hname.1) rfl rfl hkept₄.record
  refine ⟨_, client₅, serve_ready hclient₄ hkept₄.alive hcleaned₂ hrunAnswer,
    Function.update_self .., hcleaned₅.trans (by rw [hcleaned₂]), fun sched => ?_⟩
  refine readServerResponse_file (by omega) ?_
  rw [hbytes, hsent₂, List.nil_append]

end RoundTrips

/-! ## Plain names -/

section Plain

variable {V D : Type} {vec : VectorOps V Name} {dict : DictOps D Name Nat} {dir : List UInt8}
  {w w' : World V D} {e : Event}

/-- Every file has its length in the dictionary. -/
def Sized (dict : DictOps D Name Nat) (st : Store V D) : Prop :=
  ∀ n file, st.files n = some file → dict.get st.fileSize n = some file.length

/-- Every event keeps the sizes right, whatever it does to the list of names. -/
theorem sized_step (hd : DictLaws dict) (hw : Sized dict w.store)
    (h : step vec dict w e = some w') : Sized dict w'.store := by
  rcases step_store h with hst | ⟨c, scratch, conn, rfl, -, hcase⟩
  · exact hst ▸ hw
  · rcases hcase with ⟨name, s, -, -, hst⟩ | ⟨-, -, hst⟩
    · obtain ⟨s', hspec⟩ := readPutFromClient_spec vec dict w.store name s
      rw [hst, hspec]
      intro n file hf
      by_cases hc : Complete s.bytes
      · rw [if_pos hc] at hf ⊢
        dsimp only at hf ⊢
        rw [hd.get_set]
        by_cases hn : n = name
        · subst hn
          rw [Function.update_self, Option.some.injEq] at hf
          rw [if_pos rfl, hf]
        · rw [Function.update_of_ne hn] at hf
          rw [if_neg hn, hw n file hf]
      · rw [if_neg hc] at hf ⊢
        dsimp only at hf ⊢
        by_cases hn : n = name
        · subst hn
          simp at hf
        · rw [Function.update_of_ne hn] at hf
          exact hw n file hf
    · rw [hst, execDelete]
      intro n file hf
      by_cases hnone : (w.store.files conn.filename).isNone
      · rw [if_pos hnone] at hf ⊢
        exact hw n file hf
      · rw [if_neg hnone] at hf ⊢
        -- the file was there, so its size was too
        obtain ⟨old, hold⟩ : ∃ old, w.store.files conn.filename = some old :=
          Option.ne_none_iff_exists'.mp (by simpa using hnone)
        have hkey : dict.get w.store.fileSize conn.filename ≠ none := by
          rw [hw _ _ hold]
          simp
        dsimp only at hf ⊢
        split_ifs at hf ⊢ with hid
        all_goals
          dsimp only at hf ⊢
          by_cases hn : n = conn.filename
          · rw [hn, Function.update_self] at hf
            simp at hf
          · rw [Function.update_of_ne hn] at hf
            first
              | exact hw n file hf
              | rw [hd.get_remove _ _ _ hkey, if_neg hn, hw n file hf]

/-- Where every file has its length in the dictionary, all events are recorded. -/
theorem Sized.recorded (h : Sized dict w.store) :
    Recorded (dirDisk dir) vec dict dir w.service e := by
  have hknown : ∀ name, w.store.files name ≠ none → dict.get w.store.fileSize name ≠ none := by
    intro name hname
    obtain ⟨file, hfile⟩ := Option.ne_none_iff_exists'.mp hname
    rw [h name file hfile]
    exact Option.some_ne_none _
  cases e with
  | accept c incoming outSched => trivial
  | ready c scratch =>
    intro client _ _
    refine ⟨fun _ hopen _ => hknown _ ?_, fun _ hremove _ => hknown _ ?_⟩
    · simpa [dirDisk, World.service, Store.service] using hopen
    · simp only [dirDisk, World.service, Store.service, entryOf_filepath] at hremove
      split_ifs at hremove with hsome
      exact Option.isSome_iff_ne_none.mp hsome

/-- **Round trip with plain names.** In a directory of regular files, files come back in all runs
in which the requests have plain names. -/
theorem round_trip_plain (hv : VectorLaws vec) (hd : DictLaws dict) :
    RoundTrips (dirDisk dir) vec dict dir (fun _ => none) PlainRequest fun _ _ _ => True := by
  -- such runs are those of the model without paths, in which sizes are right
  refine roundTrips_of_invariant (dirDisk_laws dir) (dirDisk_paths dir) hv hd
    (I := fun v => ∃ t : World V D, v = t.service ∧ Sized dict t.store) ?_ ?_ ?_ fun v name e _ =>
      apart_dirDisk v name e
  · exact ⟨World.start vec dict, rfl, fun _ _ hfile => by cases hfile⟩
  · rintro _ e v' ⟨t, rfl, hsized⟩ hplain hstep
    have halive : v'.alive = true := by
      obtain ⟨-, ⟨_, _, _, -, -, rfl⟩ | ⟨c, scratch, client, rfl, hclient, -, hcase⟩⟩ :=
        serve_cases hstep
      · rfl
      · have hrecorded : Recorded (dirDisk dir) vec dict dir t.service (.ready c scratch) :=
          hsized.recorded
        obtain ⟨client', hsome⟩ := exists_runClient (hrecorded client hclient) scratch
        rcases hcase with ⟨st, hrun, -⟩ | ⟨st, client'', -, rfl⟩
        · rw [hrun] at hsome
          cases hsome
        · rfl
    obtain ⟨t', ht', rfl⟩ := (serve_plain hplain).mp ⟨hstep, halive⟩
    exact ⟨t', rfl, sized_step hd hsized ht'⟩
  · rintro _ e ⟨t, rfl, hsized⟩ -
    exact hsized.recorded

end Plain

/-! ## The round trip -/

section Recorded

variable {V D F ι : Type} {fs : DiskOps F} {vec : VectorOps V Name} {dict : DictOps D Name Nat}
  {dir : List UInt8} {disk : F} {target : List UInt8 → ι}

/-- A connection after a run that has been evaluated. -/
theorem exists_client {α : Type} {start w : Service V D F} {es : List Event} (c : Nat)
    (f : Service.Client → α) {x : α} (hw : run (serve fs vec dict dir) start es = some w)
    (h : ((run (serve fs vec dict dir) start es).bind fun w => (w.clients c).map f) = some x) :
    ∃ client, w.clients c = some client ∧ f client = x := by
  rw [hw, Option.bind_some] at h
  exact Option.map_eq_some_iff.mp h

/-- **Round trip.** Files come back in all runs in which every file that a `GET` opens or a `DELETE`
removes is in the dictionary of sizes, while no other path to the file is put or deleted. -/
theorem round_trip (hfs : DiskLaws fs) (hpaths : PathLaws fs target) (hv : VectorLaws vec)
    (hd : DictLaws dict) :
    RoundTrips fs vec dict dir disk (Recorded fs vec dict dir) (Apart dir target) :=
  roundTrips_of_invariant hfs hpaths hv hd (I := fun _ => True) trivial
    (fun _ _ _ _ _ _ => trivial) (fun _ _ _ h => h) fun _ _ _ h => h

end Recorded

/-- A `PUT`, a `GET` of the file, and a `PUT` of another file. -/
def putThenGet : List Event :=
  [.accept 0 ⟨(runClientRequest ⟨[], []⟩ .put [97] [1, 2]).bytes, [.eintr, .part 3]⟩ [.part 1],
    .accept 1 ⟨(runClientRequest ⟨[], []⟩ .get [97] []).bytes, [.part 2]⟩ [.eintr, .part 2],
    .accept 2 ⟨(runClientRequest ⟨[], []⟩ .put [98] [7]).bytes, [.part 1]⟩ []]

/-- The answer to the first `PUT`, and the other one. -/
def between : List Event := [.ready 0 .zeroed, .ready 2 .zeroed, .ready 2 .zeroed]

/-- The file comes back over sockets that transfer single bytes, while another file is put. -/
theorem round_trip_putThenGet :
    ∃ w₃ w₅ client, run (serve (dirDisk [100]) listVector listDict [100])
        (Service.start listVector listDict fun _ => none)
        (putThenGet ++ [.ready 0 .zeroed] ++ between ++ [.ready 1 .zeroed]) = some w₃ ∧
      serve (dirDisk [100]) listVector listDict [100] w₃ (.ready 1 .zeroed) = some w₅ ∧
      w₅.clients 1 = some client ∧ client.cleaned = 1 ∧
      ∀ sched, readServerResponse ⟨client.outgoing.bytes, sched⟩ .get = .file [1, 2] := by
  obtain ⟨w, w₁, w₂, hw, hput, hrun₁, hw₁, hw₂⟩ := @exists_states _ _
    (serve (dirDisk [100]) listVector listDict [100])
    (Service.start listVector listDict fun _ => none) (.ready 0 .zeroed) putThenGet between
    (by decide +kernel)
  -- the requests, and the answer to the first one
  obtain ⟨client₁, hclient₁, heq₁⟩ := exists_client 0
    (fun client => (client.state, client.incoming.bytes)) hw
    (x := (.fresh, (runClientRequest ⟨[], []⟩ .put [97] [1, 2]).bytes)) (by decide +kernel)
  obtain ⟨answered, hanswered, hok⟩ := exists_client 0 (fun client => client.outgoing.bytes) hw₂
    (x := okBytes) (by decide +kernel)
  obtain ⟨client₂, hclient₂, heq₂⟩ := exists_client 1
    (fun client => (client.state, client.incoming.bytes)) hw₂
    (x := (.fresh, (runClientRequest ⟨[], []⟩ .get [97] []).bytes)) (by decide +kernel)
  obtain ⟨hfresh₁, hbytes₁⟩ := Prod.mk.inj heq₁
  obtain ⟨hfresh₂, hbytes₂⟩ := Prod.mk.inj heq₂
  -- the other events do not interfere
  have hbefore : checkRun (serve (dirDisk [100]) listVector listDict [100])
      (fun v e => decide (Recorded (dirDisk [100]) listVector listDict [100] v e))
      (Service.start listVector listDict fun _ => none) putThenGet = true := by decide +kernel
  have hbetween : ((run (serve (dirDisk [100]) listVector listDict [100])
      (Service.start listVector listDict fun _ => none) (putThenGet ++ [.ready 0 .zeroed])).all
      fun w₁ => checkRun (serve (dirDisk [100]) listVector listDict [100])
        (fun v e => decide (Recorded (dirDisk [100]) listVector listDict [100] v e ∧
          ¬ Touches v [97] e)) w₁ between) = true := by decide +kernel
  rw [hw₁, Option.all_some] at hbetween
  have hes₁ : ∀ v e, Takes (serve (dirDisk [100]) listVector listDict [100]) w₁ between v e →
      Recorded (dirDisk [100]) listVector listDict [100] v e ∧ ¬ Touches v [97] e ∧
        Apart [100] (entryOf [100]) v [97] e := by
    intro v e he
    obtain ⟨hrecorded, hno⟩ := of_decide_eq_true (forall_takes_of_checkRun hbetween v e he)
    exact ⟨hrecorded, hno, apart_dirDisk v [97] e⟩
  obtain ⟨w₃, hget, hafter⟩ := round_trip (dirDisk_laws [100]) (dirDisk_paths [100])
    listVector_laws listDict_laws [97] [1, 2] (by decide) (by decide) putThenGet w 0 client₁ []
    .zeroed w₁ hw (fun v e he => of_decide_eq_true (forall_takes_of_checkRun hbefore v e he))
    hclient₁ hfresh₁ hbytes₁ (recorded_of_fresh hclient₁ hfresh₁) hput between w₂ answered 1
    client₂ [] .zeroed hrun₁ hes₁ hanswered hok hclient₂ hfresh₂ hbytes₂
    (recorded_of_fresh hclient₂ hfresh₂)
  obtain ⟨w₅, client, hfinal⟩ := hafter [] w₃ .zeroed run_nil
    (by rintro _ _ ⟨pre, hpre, -⟩; simp at hpre) (by rintro _ _ ⟨pre, hpre, -⟩; simp at hpre)
  exact ⟨w₃, w₅, client, run_snoc_eq_some.mpr ⟨w₂, hw₂, hget⟩, hfinal⟩

/-- A file system in which the directory can be opened for reading under the name `.`. -/
def withSelf (fs : DiskOps F) (dir : List UInt8) : DiskOps F where
  openRead disk path :=
    if path = filepath dir [46] then (some [], disk) else fs.openRead disk path
  openWrite disk path :=
    if path = filepath dir [46] then (false, disk) else fs.openWrite disk path
  write := fs.write
  remove disk path := if path = filepath dir [46] then (false, disk) else fs.remove disk path

theorem withSelf_content {F : Type} (fs : DiskOps F) (dir : List UInt8) (disk : F)
    (path : List UInt8) : (withSelf fs dir).content disk path =
      if path = filepath dir [46] then some [] else fs.content disk path := by
  simp only [DiskOps.content, withSelf]
  split_ifs <;> rfl

theorem withSelf_laws (dir : List UInt8) : DiskLaws (withSelf (dirDisk dir) dir) := by
  have hlaws := dirDisk_laws dir
  -- nothing is written under the name `.`
  have hother : ∀ disk path, ((withSelf (dirDisk dir) dir).openWrite disk path).1 = true →
      path ≠ filepath dir [46] := by
    rintro disk path hopen rfl
    simp [withSelf] at hopen
  constructor
  case openRead =>
    intro disk path
    simp only [withSelf]
    split_ifs <;> rfl
  case openWrite =>
    intro disk path hfail
    by_cases hself : path = filepath dir [46]
    · rw [withSelf_content, withSelf_content, if_pos hself, if_pos hself]
    · simp [withSelf, hself, dirDisk] at hfail
  case write =>
    intro disk path bytes hopen
    have hne := hother disk path hopen
    rw [withSelf_content, if_neg hne]
    simp only [withSelf, hne, if_false] at hopen ⊢
    exact hlaws.write disk path bytes hopen
  case remove =>
    intro disk path bytes hopen
    have hne := hother disk path hopen
    rw [withSelf_content, if_neg hne]
    simp only [withSelf, hne, if_false] at hopen ⊢
    exact hlaws.remove disk path bytes hopen

theorem withSelf_paths (dir : List UInt8) :
    PathLaws (withSelf (dirDisk dir) dir) (entryOf dir) := by
  have hpaths := dirDisk_paths dir
  constructor
  all_goals intro disk path other
  -- the directory itself cannot be opened, written or removed
  case openWrite =>
    intro hne
    simp only [withSelf_content]
    simp only [withSelf]
    split_ifs
    · rfl
    · rfl
    · exact hpaths.openWrite disk path other hne
  case write =>
    intro bytes hne
    simp only [withSelf_content]
    split_ifs
    · rfl
    · exact hpaths.write disk path other bytes hne
  case remove =>
    intro hne
    simp only [withSelf_content]
    simp only [withSelf]
    split_ifs
    · rfl
    · rfl
    · exact hpaths.remove disk path other hne

/-- A `PUT`, a `GET` of the directory under the name `.`, and a `GET` of the file. -/
def putThenGetSelf : List Event :=
  [.accept 0 ⟨(runClientRequest ⟨[], []⟩ .put [97] [1, 2]).bytes, []⟩ [],
    .accept 1 ⟨(runClientRequest ⟨[], []⟩ .get [46] []).bytes, []⟩ [],
    .accept 2 ⟨(runClientRequest ⟨[], []⟩ .get [97] []).bytes, []⟩ []]

/-- The `GET` of the directory ends the server, which touches no file. -/
theorem not_roundTrips_self : DiskLaws (withSelf (dirDisk [100]) [100]) ∧
    PathLaws (withSelf (dirDisk [100]) [100]) (entryOf [100]) ∧
    ¬ RoundTrips (withSelf (dirDisk [100]) [100]) listVector listDict [100] (fun _ => none)
      (fun _ _ => True) fun _ _ _ => True := by
  refine ⟨withSelf_laws _, withSelf_paths _, fun hround => ?_⟩
  obtain ⟨w, w₁, w₂, hw, hput, hrun₁, hw₁, hw₂⟩ := @exists_states _ _
    (serve (withSelf (dirDisk [100]) [100]) listVector listDict [100])
    (Service.start listVector listDict fun _ => none) (.ready 0 .zeroed) putThenGetSelf
    [.ready 0 .zeroed, .ready 1 .zeroed, .ready 1 .zeroed] (by decide +kernel)
  obtain ⟨client₁, hclient₁, heq₁⟩ := exists_client 0
    (fun client => (client.state, client.incoming.bytes)) hw
    (x := (.fresh, (runClientRequest ⟨[], []⟩ .put [97] [1, 2]).bytes)) (by decide +kernel)
  obtain ⟨answered, hanswered, hok⟩ := exists_client 0 (fun client => client.outgoing.bytes) hw₂
    (x := okBytes) (by decide +kernel)
  obtain ⟨client₂, hclient₂, heq₂⟩ := exists_client 2
    (fun client => (client.state, client.incoming.bytes)) hw₂
    (x := (.fresh, (runClientRequest ⟨[], []⟩ .get [97] []).bytes)) (by decide +kernel)
  obtain ⟨hfresh₁, hbytes₁⟩ := Prod.mk.inj heq₁
  obtain ⟨hfresh₂, hbytes₂⟩ := Prod.mk.inj heq₂
  have hno : ((run (serve (withSelf (dirDisk [100]) [100]) listVector listDict [100])
      (Service.start listVector listDict fun _ => none)
      (putThenGetSelf ++ [.ready 0 .zeroed])).all
      fun w₁ => checkRun (serve (withSelf (dirDisk [100]) [100]) listVector listDict [100])
        (fun v e => decide (¬ Touches v [97] e)) w₁
        [.ready 0 .zeroed, .ready 1 .zeroed, .ready 1 .zeroed]) = true := by decide +kernel
  rw [hw₁, Option.all_some] at hno
  obtain ⟨w₃, hget, -⟩ := hround [97] [1, 2] (by decide) (by decide) putThenGetSelf w 0 client₁ []
    .zeroed w₁ hw (fun _ _ _ => trivial) hclient₁ hfresh₁ hbytes₁ trivial hput _ w₂ answered 2
    client₂ [] .zeroed hrun₁
    (fun v e he => ⟨trivial, of_decide_eq_true (forall_takes_of_checkRun hno v e he), trivial⟩)
    hanswered hok hclient₂ hfresh₂ hbytes₂ trivial
  -- the server is no longer there
  have hdead : (run (serve (withSelf (dirDisk [100]) [100]) listVector listDict [100])
      (Service.start listVector listDict fun _ => none) (putThenGetSelf ++ [.ready 0 .zeroed] ++
        [.ready 0 .zeroed, .ready 1 .zeroed, .ready 1 .zeroed])).all
      (fun w₂ => w₂.alive = false) = true := by decide +kernel
  rw [hw₂, Option.all_some, decide_eq_true_eq] at hdead
  rw [(serve_cases hget).1] at hdead
  cases hdead

end SystemProgramming.Networking
