import SystemProgramming.Networking.Grammar

/-!
# The file server with arbitrary file names

The handlers of `server.c` once more, for names that are taken verbatim from the network. The
file system is a parameter, asked by path as the C library is. A handler that reads a missing
entry of the dictionary of sizes ends the server. Each call of `clean_client` is counted.

On plain names, in a directory that is a map from names to contents, these handlers are those of
the model without paths.

## Main definitions

* `DiskOps`: what the C library does with a path
* `filepath`: the path of a file name
* `Service`, `serve`: the server and its event loop

## Main results

* `serve_cases`: what an event does
* `runClient_plain`, `serve_plain`: handlers and events on plain names
-/

namespace SystemProgramming.Networking

/-- The operations of the C library on the file system: `fopen` for reading, with the bytes that
`fread` will deliver, `fopen` for writing, the bytes written until `fclose`, and `remove`. -/
structure DiskOps (F : Type) where
  openRead : F → List UInt8 → Option (List UInt8) × F
  openWrite : F → List UInt8 → Bool × F
  write : F → List UInt8 → List UInt8 → F
  remove : F → List UInt8 → Bool × F

/-- `sprintf(filepath, "%s/%s", g_temp_dir, c_info_ptr->filename)`. -/
def filepath (dir : List UInt8) (name : Name) : List UInt8 := dir ++ 47 :: name

namespace Service

/-- The file system, `file_list` and `file_size`. -/
structure Store (V D F : Type) where
  disk : F
  fileList : V
  fileSize : D

/-- A connection, with its `client_info`; `cleaned` counts the calls of `clean_client` for it. -/
structure Client where
  incoming : Source
  outgoing : Sink
  state : ClientState
  cmd : Verb
  filename : Name
  cleaned : Nat

section Handlers

variable {V D F : Type} (fs : DiskOps F) (vec : VectorOps V Name) (dict : DictOps D Name Nat)
  (dir : List UInt8)

/-- `read_put_from_client`: did it fail? -/
def readPutFromClient (st : Store V D F) (name : Name) (s : Source) : Bool × Store V D F × Source :=
  let path := filepath dir name
  let (readFile, disk) := fs.openRead st.disk path
  let (writeFile, disk) := fs.openWrite disk path
  if writeFile then
    let (size, received, s) := readBody s
    let disk := fs.write disk path received
    if isError received.length size then
      (true, { st with disk := (fs.remove disk path).2 }, s)
    else
      (false,
        { disk
          fileList := if readFile.isSome then st.fileList else vec.pushBack st.fileList name
          fileSize := dict.set st.fileSize name size }, s)
  else (true, { st with disk }, s)

/-- `read_header`. -/
def readHeader (st : Store V D F) (client : Client) (scratch : Scratch) : Store V D F × Client :=
  match parseHeader scratch client.incoming with
  | (.bad, s) => (st, { client with incoming := s, state := .badRequest })
  | (.get name, s) =>
    (st, { client with incoming := s, state := .parsed, cmd := .get, filename := name })
  | (.delete name, s) =>
    (st, { client with incoming := s, state := .parsed, cmd := .delete, filename := name })
  | (.list, s) => (st, { client with incoming := s, state := .parsed, cmd := .list })
  | (.put name, s) =>
    let (failed, st, s) := readPutFromClient fs vec dict dir st name s
    (st, { client with incoming := s, cmd := .put, filename := name
                       state := if failed then .badFileSize else .parsed })

/-- `clean_client`. -/
def cleanClient (client : Client) : Client := { client with cleaned := client.cleaned + 1 }

/-- What becomes of the store and the connection; `none` when the handler reads through a null
pointer, after it has changed the store as given. -/
abbrev Outcome (V D F : Type) := Store V D F × Option Client

/-- `exec_get`, then the connection is closed unless it failed. -/
def execGet (st : Store V D F) (client : Client) : Outcome V D F :=
  let (readFile, disk) := fs.openRead st.disk (filepath dir client.filename)
  let st := { st with disk }
  match readFile with
  | none => (st, some { client with state := .noSuchFile })
  | some file =>
    let out := writeToSocket client.outgoing okBytes
    if client.filename = [] then (st, some { client with outgoing := out, state := .badRequest })
    else
      (st, do
        let size ← dict.get st.fileSize client.filename
        let out := writeToSocket out (sizeBytes size)
        some (cleanClient { client with outgoing := writeGetToClient out size file }))

/-- `exec_list`. -/
def execList (st : Store V D F) (client : Client) : Client :=
  let names := vec.elements st.fileList
  let out := writeToSocket client.outgoing okBytes
  let size := (names.map fun name => name.length + 1).sum
  let out := writeToSocket out (sizeBytes (if size ≠ 0 then size - 1 else size))
  cleanClient { client with outgoing := writeNames out names }

/-- `exec_delete`. -/
def execDelete (st : Store V D F) (client : Client) : Store V D F × Client :=
  let (removed, disk) := fs.remove st.disk (filepath dir client.filename)
  let st := { st with disk }
  if removed then
    let id := (vec.elements st.fileList).idxOf client.filename
    if id = vec.size st.fileList then (st, { client with state := .noSuchFile })
    else
      ({ st with fileList := vec.erase st.fileList id
                 fileSize := dict.remove st.fileSize client.filename },
        cleanClient { client with outgoing := writeToSocket client.outgoing okBytes })
  else (st, { client with state := .noSuchFile })

/-- `exec_cmd`. -/
def execCmd (st : Store V D F) (client : Client) : Outcome V D F :=
  match client.cmd with
  | .get => execGet fs dict dir st client
  | .put => (st, some (cleanClient { client with outgoing := writeToSocket client.outgoing okBytes }))
  | .list => (st, some (execList vec st client))
  | .delete =>
    let (st, client) := execDelete fs vec dict dir st client
    (st, some client)

/-- `handle_errors`. -/
def handleErrors (client : Client) (message : List UInt8) : Client :=
  cleanClient { client with
    outgoing := writeToSocket (writeToSocket client.outgoing errorBytes) message }

/-- `run_client`. -/
def runClient (st : Store V D F) (client : Client) (scratch : Scratch) : Outcome V D F :=
  match client.state with
  | .fresh =>
    let (st, client) := readHeader fs vec dict dir st client scratch
    (st, some client)
  | .parsed => execCmd fs vec dict dir st client
  | .badRequest => (st, some (handleErrors client errBadRequest))
  | .badFileSize => (st, some (handleErrors client errBadFileSize))
  | .noSuchFile => (st, some (handleErrors client errNoSuchFile))

end Handlers

end Service

/-- The store and the connections; is the server still running? -/
structure Service (V D F : Type) where
  store : Service.Store V D F
  clients : Nat → Option Service.Client
  alive : Bool

section Loop

variable {V D F : Type} (fs : DiskOps F) (vec : VectorOps V Name) (dict : DictOps D Name Nat)
  (dir : List UInt8)

/-- No connections and no files. -/
def Service.start (disk : F) : Service V D F :=
  ⟨⟨disk, vec.create, dict.create⟩, fun _ => none, true⟩

/-- One event of the loop. -/
def serve (w : Service V D F) : Event → Option (Service V D F)
  | .accept c incoming outSched =>
    if w.alive ∧ (w.clients c).isNone then
      let client : Service.Client := ⟨incoming, ⟨[], outSched⟩, .fresh, .get, [], 0⟩
      some { w with clients := Function.update w.clients c (some client) }
    else none
  | .ready c scratch => do
    let client ← w.clients c
    if w.alive ∧ client.cleaned = 0 then
      match Service.runClient fs vec dict dir w.store client scratch with
      | (st, some client) =>
        some { w with store := st, clients := Function.update w.clients c (some client) }
      | (st, none) => some { w with store := st, alive := false }
    else none

end Loop

/-! ## What an event does -/

section Events

variable {V D F : Type} {fs : DiskOps F} {vec : VectorOps V Name} {dict : DictOps D Name Nat}
  {dir : List UInt8} {w w' : Service V D F} {e : Event} {c : Nat} {client : Service.Client}

/-- A connection is accepted under a new number, or there is one call of `run_client` for an open
connection, which may end the server. -/
theorem serve_cases (h : serve fs vec dict dir w e = some w') :
    w.alive = true ∧
      ((∃ c incoming outSched, e = .accept c incoming outSched ∧ w.clients c = none ∧
        w' = { w with
          clients := Function.update w.clients c
            (some ⟨incoming, ⟨[], outSched⟩, .fresh, .get, [], 0⟩) }) ∨
      ∃ c scratch client, e = .ready c scratch ∧ w.clients c = some client ∧ client.cleaned = 0 ∧
        ((∃ st, Service.runClient fs vec dict dir w.store client scratch = (st, none) ∧
          w' = { w with store := st, alive := false }) ∨
        ∃ st client', Service.runClient fs vec dict dir w.store client scratch =
            (st, some client') ∧
          w' = { w with store := st, clients := Function.update w.clients c (some client') })) := by
  cases e with
  | accept c incoming outSched =>
    simp only [serve] at h
    split_ifs at h with hnew
    exact ⟨hnew.1, Or.inl ⟨c, incoming, outSched, rfl, Option.isNone_iff_eq_none.mp hnew.2,
      (Option.some.inj h).symm⟩⟩
  | ready c scratch =>
    simp only [serve, Option.bind_eq_bind, Option.bind_eq_some_iff] at h
    obtain ⟨client, hclient, h⟩ := h
    split_ifs at h with hopen
    refine ⟨hopen.1, Or.inr ⟨c, scratch, client, rfl, hclient, hopen.2, ?_⟩⟩
    rcases hrun : Service.runClient fs vec dict dir w.store client scratch with ⟨st, _ | client'⟩
    · rw [hrun] at h
      exact Or.inl ⟨st, rfl, (Option.some.inj h).symm⟩
    · rw [hrun] at h
      exact Or.inr ⟨st, client', rfl, (Option.some.inj h).symm⟩

/-- An open connection can be served. -/
theorem serve_ready (hclient : w.clients c = some client) (halive : w.alive = true)
    (hopen : client.cleaned = 0) {scratch : Scratch} {st : Service.Store V D F}
    {client' : Service.Client}
    (hrun : Service.runClient fs vec dict dir w.store client scratch = (st, some client')) :
    serve fs vec dict dir w (.ready c scratch) =
      some { w with store := st, clients := Function.update w.clients c (some client') } := by
  simp only [serve, hclient, Option.bind_eq_bind, Option.bind_some, halive, hopen, and_self, if_true,
    hrun]

/-- A connection stays as it is while other events are handled. -/
theorem serve_clients (hclient : w.clients c = some client)
    (hother : ∀ scratch, e ≠ .ready c scratch)
    (h : serve fs vec dict dir w e = some w') : w'.clients c = some client := by
  obtain ⟨-, ⟨c', incoming, outSched, -, hnone, rfl⟩ | ⟨c', scratch, client', rfl, -, -, hcase⟩⟩ :=
    serve_cases h
  · have hne : c ≠ c' := by
      rintro rfl
      rw [hclient] at hnone
      cases hnone
    exact (Function.update_of_ne hne _ _).trans hclient
  · have hne : c ≠ c' := by
      rintro rfl
      exact hother scratch rfl
    rcases hcase with ⟨st, -, rfl⟩ | ⟨st, client'', -, rfl⟩
    · exact hclient
    · exact (Function.update_of_ne hne _ _).trans hclient

end Events

/-! ## Plain names -/

/-- The part of a path after the directory and the slash. -/
def entryOf (dir path : List UInt8) : Name := path.drop (dir.length + 1)

@[simp] theorem entryOf_filepath (dir : List UInt8) (name : Name) :
    entryOf dir (filepath dir name) = name := by
  simp [entryOf, filepath, List.drop_append]

/-- A directory of regular files, as a map from their names to their contents. -/
def dirDisk (dir : List UInt8) : DiskOps (Name → Option (List UInt8)) where
  openRead files path := (files (entryOf dir path), files)
  openWrite files path := (true, Function.update files (entryOf dir path) (some []))
  write files path content := Function.update files (entryOf dir path) (some content)
  remove files path :=
    if (files (entryOf dir path)).isSome then
      (true, Function.update files (entryOf dir path) none)
    else (false, files)

section Plain

variable {V D : Type} (vec : VectorOps V Name) (dict : DictOps D Name Nat) (dir : List UInt8)

/-- A store of the model without paths. -/
def Store.service (st : Store V D) : Service.Store V D (Name → Option (List UInt8)) :=
  ⟨st.files, st.fileList, st.fileSize⟩

/-- A connection of the model without paths. -/
def Conn.service (conn : Conn) : Service.Client :=
  ⟨conn.incoming, conn.outgoing, conn.state, conn.cmd, conn.filename, if conn.closed then 1 else 0⟩

theorem readPutFromClient_plain (st : Store V D) (name : Name) (s : Source) :
    Service.readPutFromClient (dirDisk dir) vec dict dir st.service name s =
      ((readPutFromClient vec dict st name s).1, (readPutFromClient vec dict st name s).2.1.service,
        (readPutFromClient vec dict st name s).2.2) := by
  rcases hbody : readBody s with ⟨size, received, s'⟩
  by_cases herr : isError received.length size = true
  · simp [Service.readPutFromClient, readPutFromClient, dirDisk, hbody, herr, Store.service]
  · simp [Service.readPutFromClient, readPutFromClient, dirDisk, hbody, herr, Store.service]

theorem execGet_plain (st : Store V D) (conn : Conn) (hopen : conn.closed = false) :
    Service.execGet (dirDisk dir) dict dir st.service conn.service =
      (st.service, (execGet dict st conn).map Conn.service) := by
  cases hfile : st.files conn.filename with
  | none => simp [Service.execGet, execGet, dirDisk, Store.service, Conn.service, hfile]
  | some file =>
    by_cases hname : conn.filename = []
    · rw [hname] at hfile
      simp [Service.execGet, execGet, dirDisk, Store.service, Conn.service, hfile, hname]
    · cases hsize : dict.get st.fileSize conn.filename <;>
        simp [Service.execGet, execGet, dirDisk, Store.service, Conn.service, hfile, hname, hsize,
          Service.cleanClient, cleanClient, hopen]

theorem execDelete_plain (st : Store V D) (conn : Conn) (hopen : conn.closed = false) :
    Service.execDelete (dirDisk dir) vec dict dir st.service conn.service =
      ((execDelete vec dict st conn).1.service, (execDelete vec dict st conn).2.service) := by
  cases hfile : st.files conn.filename with
  | none => simp [Service.execDelete, execDelete, dirDisk, Store.service, Conn.service, hfile]
  | some file =>
    by_cases hid : (vec.elements st.fileList).idxOf conn.filename = vec.size st.fileList
    · simp [Service.execDelete, execDelete, dirDisk, Store.service, Conn.service, hfile, hid]
    · simp [Service.execDelete, execDelete, dirDisk, Store.service, Conn.service, hfile, hid,
        Service.cleanClient, cleanClient, hopen]

theorem readHeader_plain (st : Store V D) (conn : Conn) (scratch : Scratch) :
    Service.readHeader (dirDisk dir) vec dict dir st.service conn.service scratch =
      ((readHeader vec dict st conn scratch).1.service,
        (readHeader vec dict st conn scratch).2.service) := by
  rw [Service.readHeader, readHeader, show conn.service.incoming = conn.incoming from rfl]
  rcases parseHeader scratch conn.incoming with ⟨_ | name | name | name | _, s⟩
  · rfl
  · rfl
  · dsimp only
    rw [readPutFromClient_plain]
    rcases readPutFromClient vec dict st name s with ⟨failed, st', s'⟩
    rfl
  · rfl
  · rfl

theorem cleanClient_plain (conn : Conn) (out : Sink) (hopen : conn.closed = false) :
    Service.cleanClient { conn.service with outgoing := out } =
      (cleanClient { conn with outgoing := out }).service := by
  simp [Service.cleanClient, cleanClient, Conn.service, hopen]

/-- **The handlers on plain names** are those of the model without paths. -/
theorem runClient_plain (st : Store V D) (conn : Conn) (scratch : Scratch)
    (hopen : conn.closed = false) :
    Service.runClient (dirDisk dir) vec dict dir st.service conn.service scratch =
      (runClient vec dict st conn scratch).elim (st.service, none)
        fun (st', conn') => (st'.service, some conn'.service) := by
  have hclean := fun out => cleanClient_plain conn out hopen
  rw [Service.runClient, runClient, show conn.service.state = conn.state from rfl]
  cases conn.state with
  | fresh =>
    dsimp only
    rw [readHeader_plain]
    rfl
  | parsed =>
    dsimp only
    rw [Service.execCmd, execCmd, show conn.service.cmd = conn.cmd from rfl]
    cases conn.cmd with
    | get =>
      dsimp only
      rw [execGet_plain dict dir st conn hopen]
      cases execGet dict st conn <;> rfl
    | put => simp [Service.cleanClient, cleanClient, Conn.service, hopen]
    | list => exact congrArg (fun c => (st.service, some c)) (hclean _)
    | delete =>
      dsimp only
      rw [execDelete_plain vec dict dir st conn hopen]
      rfl
  | badRequest => exact congrArg (fun c => (st.service, some c)) (hclean _)
  | badFileSize => exact congrArg (fun c => (st.service, some c)) (hclean _)
  | noSuchFile => exact congrArg (fun c => (st.service, some c)) (hclean _)

/-- The server of the model without paths. -/
def World.service (w : World V D) : Service V D (Name → Option (List UInt8)) :=
  ⟨w.store.service, fun c => (w.clients c).map Conn.service, true⟩

end Plain

section PlainEvents

variable {V D : Type} {vec : VectorOps V Name} {dict : DictOps D Name Nat} {dir : List UInt8}

/-- The request that a connection waits to be read has a plain name, if it has one. -/
def PlainRequest {F : Type} (w : Service V D F) : Event → Prop
  | .accept _ _ _ => True
  | .ready c scratch => ∀ client name, w.clients c = some client → client.state = .fresh →
      (parseHeader scratch client.incoming).1.name? = some name → Plain name

/-- A connection is replaced in both models. -/
theorem World.service_update (w : World V D) (st : Store V D) (c : Nat) (conn : Conn) :
    World.service ⟨st, Function.update w.clients c (some conn)⟩ =
      { w.service with
        store := st.service
        clients := Function.update w.service.clients c (some conn.service) } := by
  simp only [World.service]
  congr 1
  ext1 c'
  by_cases hc : c' = c
  · rw [hc, Function.update_self, Function.update_self]
    rfl
  · rw [Function.update_of_ne hc, Function.update_of_ne hc]

/-- **Events with plain names** after which the server still runs are those of the model without
paths. -/
theorem serve_plain {w : World V D} {w' : Service V D (Name → Option (List UInt8))} {e : Event}
    (hplain : PlainRequest w.service e) :
    serve (dirDisk dir) vec dict dir w.service e = some w' ∧ w'.alive = true ↔
      ∃ t, step vec dict w e = some t ∧ w' = t.service := by
  cases e with
  | accept c incoming outSched =>
    simp only [serve, step]
    by_cases hsome : (w.clients c).isSome = true
    · have hne : w.clients c ≠ none := Option.isSome_iff_ne_none.mp hsome
      simp [World.service, hsome, hne]
    · rw [if_neg hsome, if_pos ⟨rfl, by simpa [World.service] using hsome⟩]
      have hupdate := w.service_update w.store c ⟨incoming, ⟨[], outSched⟩, .fresh, .get, [], false⟩
      constructor
      · rintro ⟨h, -⟩
        exact ⟨_, rfl, (Option.some.inj h).symm.trans hupdate.symm⟩
      · rintro ⟨t, ht, rfl⟩
        obtain rfl := Option.some.inj ht
        exact ⟨congrArg some hupdate.symm, rfl⟩
  | ready c scratch =>
    cases hconn : w.clients c with
    | none => simp [serve, step, World.service, hconn]
    | some conn =>
      have hclient : w.service.clients c = some conn.service := congrArg (Option.map _) hconn
      -- a request with a plain name is one that `step` has a result for
      have hconnPlain : conn.plain scratch = true := by
        rw [Conn.plain, decide_eq_true_eq, or_iff_not_imp_left, not_not]
        intro hfresh
        rw [Option.all_eq_true]
        exact fun name hname => decide_eq_true (hplain _ name hclient hfresh hname)
      by_cases hopen : conn.closed = false
      · have hcleaned : conn.service.cleaned = 0 := by simp [Conn.service, hopen]
        simp only [serve, step, hconn, hclient, Option.bind_eq_bind, Option.bind_some]
        rw [if_pos ⟨rfl, hcleaned⟩, if_pos ⟨hopen, hconnPlain⟩,
          show w.service.store = w.store.service from rfl, runClient_plain vec dict dir _ _ _ hopen]
        -- no result of `runClient` is the end of the server
        rcases runClient vec dict w.store conn scratch with _ | ⟨st, conn'⟩
        · simp only [Option.elim_none, Option.bind_none, reduceCtorEq, false_and, exists_false,
            iff_false, not_and, Option.some.injEq]
          rintro rfl
          simp
        · simp only [Option.elim_some, Option.bind_some, Option.some.injEq]
          rw [← w.service_update st c conn']
          constructor
          · rintro ⟨rfl, -⟩
            exact ⟨_, rfl, rfl⟩
          · rintro ⟨t, rfl, rfl⟩
            exact ⟨rfl, rfl⟩
      · have hcleaned : conn.service.cleaned ≠ 0 := by simp [Conn.service, hopen]
        simp [serve, step, hconn, hclient, hopen, hcleaned]

end PlainEvents

end SystemProgramming.Networking
