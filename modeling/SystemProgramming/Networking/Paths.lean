import SystemProgramming.Networking.Responses

/-!
# The paths that the server opens

File names come from the network as they are, so that a path leaves the directory of the server
with a slash or two dots in the name. The calls that name a path are recorded by a file system
that is wrapped around another one.

## Main definitions

* `logging`: a file system with a record of the paths it was asked for
* `Inside`: a path of an entry of the directory
* `SafeHeader`: the names a header carries are names of entries

## Main results

* `runClient_log`: the paths of one call of `run_client`
* `inside_iff`: the streams for which the server stays inside its directory
-/

namespace SystemProgramming.Networking

/-- The name of an entry of a directory. -/
def IsEntry (name : Name) : Prop := 47 ∉ name ∧ name ≠ [] ∧ name ≠ [46] ∧ name ≠ [46, 46]

/-- A path that names an entry directly inside the directory. -/
def Inside (dir path : List UInt8) : Prop := ∃ name, IsEntry name ∧ path = filepath dir name

theorem inside_filepath {dir : List UInt8} {name : Name} :
    Inside dir (filepath dir name) ↔ IsEntry name := by
  refine ⟨fun ⟨name', hentry, heq⟩ => ?_, fun h => ⟨name, h, rfl⟩⟩
  have hname : name = name' := by simpa [filepath] using heq
  exact hname ▸ hentry

/-- A file system that records the paths it is asked to open or to remove. -/
def logging {F : Type} (fs : DiskOps F) : DiskOps (F × List (List UInt8)) where
  openRead disk path := ((fs.openRead disk.1 path).1, (fs.openRead disk.1 path).2, disk.2 ++ [path])
  openWrite disk path :=
    ((fs.openWrite disk.1 path).1, (fs.openWrite disk.1 path).2, disk.2 ++ [path])
  write disk path content := (fs.write disk.1 path content, disk.2)
  remove disk path := ((fs.remove disk.1 path).1, (fs.remove disk.1 path).2, disk.2 ++ [path])

/-- The header of a stream carries a name after its verb, with some memory behind the header. -/
def Carries (bytes : List UInt8) (name : Name) : Prop :=
  ∃ heap text rest, Header heap bytes text rest ∧
    ∃ verb ∈ [getVerb, putVerb, deleteVerb], verb <+: text ∧ filenameOf text verb.length = name

/-- The names that a header can carry are those of entries. -/
def SafeHeader (bytes : List UInt8) : Prop := ∀ name, Carries bytes name → IsEntry name

/-! ## Names in requests -/

section Requests

variable {scratch : Scratch} {s : Source} {name : Name}

theorem parseLine_name {stack : Around} {text : List UInt8}
    (h : (parseLine stack text s).1.name? = some name) :
    ∃ verb ∈ [getVerb, putVerb, deleteVerb], verb <+: text ∧
      filenameOf text verb.length = name := by
  by_cases hget : getVerb <+: text
  · refine ⟨getVerb, by simp, hget, ?_⟩
    rw [parseLine, if_pos hget] at h
    by_cases hmore : (readAfterNewline stack s).1 = true
    · simp [hmore, Request.name?] at h
    · have hname : filenameOf text 4 = name := by simpa [hmore, Request.name?] using h
      exact hname
  by_cases hput : putVerb <+: text
  · refine ⟨putVerb, by simp, hput, ?_⟩
    rw [parseLine_put hput] at h
    exact Option.some.inj h
  by_cases hdelete : deleteVerb <+: text
  · refine ⟨deleteVerb, by simp, hdelete, ?_⟩
    rw [parseLine, if_neg hget, if_neg hput, if_pos hdelete] at h
    by_cases hmore : (readAfterNewline stack s).1 = true
    · simp [hmore, Request.name?] at h
    · have hname : filenameOf text 7 = name := by simpa [hmore, Request.name?] using h
      exact hname
  · -- a `LIST`, or no verb at all
    exfalso
    rw [parseLine, if_neg hget, if_neg hput, if_neg hdelete] at h
    by_cases hlist : text = listLine
    · rw [if_pos hlist] at h
      by_cases hmore : (readAfterNewline stack s).1 = true <;> simp [hmore, Request.name?] at h
    · rw [if_neg hlist] at h
      cases h

/-- A name in a request stands in the header after its verb. -/
theorem parseHeader_name (h : (parseHeader scratch s).1.name? = some name) :
    Carries s.bytes name := by
  by_cases hheader : ∃ text rest, Header scratch.heap s.bytes text rest
  · obtain ⟨text, rest, hheader⟩ := hheader
    obtain ⟨sched, hparse⟩ := hheader.parse
    rw [hparse] at h
    exact ⟨scratch.heap, text, rest, hheader, parseLine_name h⟩
  · rw [parseHeader_of_forall_not fun text rest hheader' => hheader ⟨text, rest, hheader'⟩] at h
    cases h

end Requests

section Handlers

variable {V D F : Type} {fs : DiskOps F} {vec : VectorOps V Name} {dict : DictOps D Name Nat}
  {dir : List UInt8} {st : Service.Store V D (F × List (List UInt8))} {client : Service.Client}

/-! ## The paths of a handler -/

/-- A `PUT` opens its path, at least for reading. -/
theorem readPutFromClient_log (name : Name) (s : Source) :
    ∃ more, (Service.readPutFromClient (logging fs) vec dict dir st name s).2.1.disk.2 =
        st.disk.2 ++ filepath dir name :: more ∧ ∀ path ∈ more, path = filepath dir name := by
  obtain ⟨path, hpath⟩ : ∃ path, path = filepath dir name := ⟨_, rfl⟩
  have hopened : ∀ log : List (List UInt8), log ++ [path] ++ [path] = log ++ path :: [path] := by simp
  have hremoved : ∀ log : List (List UInt8),
      log ++ [path] ++ [path] ++ [path] = log ++ path :: [path, path] := by simp
  simp only [Service.readPutFromClient, logging]
  rw [← hpath]
  by_cases hwrite : (fs.openWrite (fs.openRead st.disk.1 path).2 path).1 = true
  · by_cases herror : isError (readBody s).2.1.length (readBody s).1 = true
    · simp only [hwrite, herror, if_true]
      exact ⟨[path, path], hremoved _, by simp⟩
    · simp only [hwrite, herror, if_true, Bool.false_eq_true, if_false]
      exact ⟨[path], hopened _, by simp⟩
  · simp only [hwrite, Bool.false_eq_true, if_false]
    exact ⟨[path], hopened _, by simp⟩

theorem execGet_log :
    (Service.execGet (logging fs) dict dir st client).1.disk.2 =
      st.disk.2 ++ [filepath dir client.filename] := by
  simp only [Service.execGet, logging]
  rcases (fs.openRead st.disk.1 (filepath dir client.filename)).1 with _ | file
  · rfl
  · dsimp only
    split <;> rfl

theorem execDelete_log :
    (Service.execDelete (logging fs) vec dict dir st client).1.disk.2 =
      st.disk.2 ++ [filepath dir client.filename] := by
  simp only [Service.execDelete, logging]
  by_cases hremoved : (fs.remove st.disk.1 (filepath dir client.filename)).1 = true
  · by_cases hid : (vec.elements st.fileList).idxOf client.filename = vec.size st.fileList
    · simp only [hremoved, hid, if_true]
    · simp only [hremoved, hid, if_true, if_false]
  · simp only [hremoved, Bool.false_eq_true, if_false]

/-- The name whose path the next call of `run_client` opens or removes. -/
def Service.Client.accesses (client : Service.Client) (scratch : Scratch) : Option Name :=
  match client.state with
  | .fresh =>
    match (parseHeader scratch client.incoming).1 with
    | .put name => some name
    | _ => none
  | .parsed => if client.cmd = .get ∨ client.cmd = .delete then some client.filename else none
  | _ => none

/-- A `PUT` uses its name at once. -/
theorem runClient_log_put {scratch : Scratch} {name : Name} (hstate : client.state = .fresh)
    (hput : (parseHeader scratch client.incoming).1 = .put name) :
    ∃ more, (Service.runClient (logging fs) vec dict dir st client scratch).1.disk.2 =
        st.disk.2 ++ filepath dir name :: more ∧ ∀ path ∈ more, path = filepath dir name := by
  obtain ⟨s, hparse⟩ : ∃ s, parseHeader scratch client.incoming = (.put name, s) :=
    ⟨_, Prod.ext hput rfl⟩
  obtain ⟨more, hlog, hmore⟩ := @readPutFromClient_log _ _ _ fs vec dict dir st name s
  refine ⟨more, ?_, hmore⟩
  rw [Service.runClient, hstate]
  dsimp only
  rw [Service.readHeader, hparse]
  exact hlog

/-- The other commands use it when they are executed. -/
theorem runClient_log_exec (scratch : Scratch) (hstate : client.state = .parsed)
    (hcmd : client.cmd = .get ∨ client.cmd = .delete) :
    (Service.runClient (logging fs) vec dict dir st client scratch).1.disk.2 =
      st.disk.2 ++ [filepath dir client.filename] := by
  rw [Service.runClient, hstate]
  dsimp only
  rw [Service.execCmd]
  rcases hcmd with hcmd | hcmd
  · rw [hcmd]
    exact execGet_log
  · rw [hcmd]
    exact execDelete_log

/-- Only a `PUT` changes the store when it is parsed. -/
theorem readHeader_store {scratch : Scratch}
    (h : ∀ name, (parseHeader scratch client.incoming).1 ≠ .put name) :
    (Service.readHeader (logging fs) vec dict dir st client scratch).1 = st := by
  rw [Service.readHeader]
  rcases hparse : parseHeader scratch client.incoming with ⟨_ | name | name | name | _, s⟩
  · rfl
  · rfl
  · exact absurd (by rw [hparse]) (h name)
  · rfl
  · rfl

/-- **The paths of one call of `run_client`** are all that of one name. -/
theorem runClient_log (scratch : Scratch) :
    ∃ new, (Service.runClient (logging fs) vec dict dir st client scratch).1.disk.2 =
        st.disk.2 ++ new ∧
      ∀ path ∈ new, ∃ name, client.accesses scratch = some name ∧ path = filepath dir name := by
  have hnone : ∀ log : List (List UInt8), log = st.disk.2 → ∃ new, log = st.disk.2 ++ new ∧
      ∀ path ∈ new, ∃ name, client.accesses scratch = some name ∧ path = filepath dir name :=
    fun log hlog => ⟨[], by rw [hlog, List.append_nil], by simp⟩
  cases hstate : client.state with
  | fresh =>
    by_cases hput : ∃ name, (parseHeader scratch client.incoming).1 = .put name
    · obtain ⟨name, hput⟩ := hput
      obtain ⟨more, hlog, hmore⟩ := @runClient_log_put _ _ _ fs vec dict dir st client scratch name
        hstate hput
      refine ⟨_, hlog, fun path hpath => ⟨name, ?_, ?_⟩⟩
      · rw [Service.Client.accesses, hstate]
        dsimp only
        rw [hput]
      · exact (List.mem_cons.mp hpath).elim id (hmore path)
    · refine hnone _ ?_
      rw [Service.runClient, hstate]
      dsimp only
      rw [readHeader_store fun name hname => hput ⟨name, hname⟩]
  | parsed =>
    by_cases hcmd : client.cmd = .get ∨ client.cmd = .delete
    · refine ⟨_, runClient_log_exec scratch hstate hcmd, fun path hpath => ⟨_, ?_, by simpa using hpath⟩⟩
      rw [Service.Client.accesses, hstate]
      exact if_pos hcmd
    · refine hnone _ ?_
      rw [Service.runClient, hstate]
      dsimp only
      rw [Service.execCmd]
      cases hverb : client.cmd with
      | get => simp [hverb] at hcmd
      | put => rfl
      | list => rfl
      | delete => simp [hverb] at hcmd
  | badRequest => exact hnone _ (by rw [Service.runClient, hstate])
  | badFileSize => exact hnone _ (by rw [Service.runClient, hstate])
  | noSuchFile => exact hnone _ (by rw [Service.runClient, hstate])

end Handlers

/-! ## The name of a connection -/

section Of

variable {V D F : Type} {fs : DiskOps F} {vec : VectorOps V Name} {dict : DictOps D Name Nat}
  {dir : List UInt8} {st : Service.Store V D F} {client : Service.Client}

/-- The connection of a stream: its header is still to be read, or the name it will use was in the
header. -/
structure Of (bytes : List UInt8) (client : Service.Client) : Prop where
  fresh : client.state = .fresh → client.incoming.bytes = bytes
  parsed : client.state = .parsed → client.cmd = .get ∨ client.cmd = .delete →
    Carries bytes client.filename

variable {bytes : List UInt8}

theorem Of.accesses (h : Of bytes client) {scratch : Scratch} {name : Name}
    (hname : client.accesses scratch = some name) : Carries bytes name := by
  cases hstate : client.state with
  | fresh =>
    simp only [Service.Client.accesses, hstate] at hname
    rcases hparse : (parseHeader scratch client.incoming).1 with _ | other | other | other | _
    all_goals rw [hparse] at hname
    case put =>
      obtain rfl : other = name := Option.some.inj hname
      have hcarries := @parseHeader_name scratch client.incoming other (by rw [hparse]; rfl)
      rwa [h.fresh hstate] at hcarries
    all_goals cases hname
  | parsed =>
    simp only [Service.Client.accesses, hstate] at hname
    split_ifs at hname with hcmd
    obtain rfl := Option.some.inj hname
    exact h.parsed hstate hcmd
  | badRequest => simp [Service.Client.accesses, hstate] at hname
  | badFileSize => simp [Service.Client.accesses, hstate] at hname
  | noSuchFile => simp [Service.Client.accesses, hstate] at hname

/-- A connection that waits for neither uses no name. -/
theorem Of.of_ne (hfresh : client.state ≠ .fresh) (hparsed : client.state ≠ .parsed) :
    Of bytes client :=
  ⟨fun hs => absurd hs hfresh, fun hs => absurd hs hparsed⟩

theorem Of.readHeader (h : Of bytes client) (hstate : client.state = .fresh) {scratch : Scratch} :
    Of bytes (Service.readHeader fs vec dict dir st client scratch).2 := by
  have hcarries : ∀ name, (parseHeader scratch client.incoming).1.name? = some name →
      Carries bytes name := fun name hname => h.fresh hstate ▸ parseHeader_name hname
  rw [Service.readHeader]
  rcases hparse : parseHeader scratch client.incoming with ⟨_ | name | name | name | _, s⟩
  all_goals rw [hparse] at hcarries
  · exact Of.of_ne (by simp) (by simp)
  · exact ⟨by simp, fun _ _ => hcarries name rfl⟩
  · refine ⟨fun hs => ?_, fun _ hcmd => ?_⟩
    · dsimp only at hs
      split_ifs at hs
    · exact (by decide : ¬ (Verb.put = .get ∨ Verb.put = .delete)).elim hcmd
  · exact ⟨by simp, fun _ _ => hcarries name rfl⟩
  · exact ⟨by simp, fun _ hcmd => (by decide : ¬ (Verb.list = .get ∨ Verb.list = .delete)).elim hcmd⟩

/-- A connection that only changes what was sent, or its count of cleanings. -/
theorem Of.congr (h : Of bytes client) {client' : Service.Client}
    (hin : client'.incoming = client.incoming) (hstate : client'.state = client.state)
    (hcmd : client'.cmd = client.cmd) (hname : client'.filename = client.filename) :
    Of bytes client' where
  fresh := fun hs => hin ▸ h.fresh (hstate ▸ hs)
  parsed := fun hs hc => hname ▸ h.parsed (hstate ▸ hs) (hcmd ▸ hc)

theorem Of.execGet (h : Of bytes client) {client' : Service.Client}
    (hrun : (Service.execGet fs dict dir st client).2 = some client') : Of bytes client' := by
  rcases hread : fs.openRead st.disk (filepath dir client.filename) with ⟨_ | file, disk⟩
  · rw [Service.execGet, hread] at hrun
    obtain rfl := Option.some.inj hrun
    exact Of.of_ne (by simp) (by simp)
  · rw [Service.execGet, hread] at hrun
    dsimp only at hrun
    split_ifs at hrun
    · obtain rfl := Option.some.inj hrun
      exact Of.of_ne (by simp) (by simp)
    · obtain ⟨size, -, hsome⟩ := Option.bind_eq_some_iff.mp hrun
      obtain rfl := Option.some.inj hsome
      exact h.congr rfl rfl rfl rfl

theorem Of.execDelete (h : Of bytes client) :
    Of bytes (Service.execDelete fs vec dict dir st client).2 := by
  rcases hremove : fs.remove st.disk (filepath dir client.filename) with ⟨removed, disk⟩
  rw [Service.execDelete, hremove]
  dsimp only
  split_ifs
  · exact Of.of_ne (by simp) (by simp)
  · exact h.congr rfl rfl rfl rfl
  · exact Of.of_ne (by simp) (by simp)

/-- **The stream of a connection** is the source of all names it uses. -/
theorem Of.runClient (h : Of bytes client) {scratch : Scratch} {client' : Service.Client}
    (hrun : (Service.runClient fs vec dict dir st client scratch).2 = some client') :
    Of bytes client' := by
  have hkeep : ∀ out, Of bytes (Service.cleanClient { client with outgoing := out }) :=
    fun out => h.congr rfl rfl rfl rfl
  rw [Service.runClient] at hrun
  cases hstate : client.state with
  | fresh =>
    rw [hstate] at hrun
    obtain rfl := Option.some.inj hrun
    exact h.readHeader hstate
  | parsed =>
    rw [hstate] at hrun
    dsimp only at hrun
    rw [Service.execCmd] at hrun
    cases hcmd : client.cmd with
    | get =>
      rw [hcmd] at hrun
      exact h.execGet hrun
    | put =>
      rw [hcmd] at hrun
      obtain rfl := Option.some.inj hrun
      exact h.congr rfl rfl hcmd.symm rfl
    | list =>
      rw [hcmd] at hrun
      obtain rfl := Option.some.inj hrun
      exact hkeep _
    | delete =>
      rw [hcmd] at hrun
      obtain rfl := Option.some.inj hrun
      exact h.execDelete
  | badRequest =>
    rw [hstate] at hrun
    obtain rfl := Option.some.inj hrun
    exact hkeep _
  | badFileSize =>
    rw [hstate] at hrun
    obtain rfl := Option.some.inj hrun
    exact hkeep _
  | noSuchFile =>
    rw [hstate] at hrun
    obtain rfl := Option.some.inj hrun
    exact hkeep _

end Of

/-! ## Runs -/

section Runs

variable {V D F : Type} {fs : DiskOps F} {vec : VectorOps V Name} {dict : DictOps D Name Nat}
  {dir : List UInt8} {w w' : Service V D F} {e : Event} {c : Nat} {bytes : List UInt8}

/-- Connection `c` is the one on which `bytes` arrive. -/
def Receives (bytes : List UInt8) (c : Nat) (w : Service V D F) : Prop :=
  ∃ client, w.clients c = some client ∧ Of bytes client

theorem Receives.step (h : Receives bytes c w) (hstep : serve fs vec dict dir w e = some w') :
    Receives bytes c w' := by
  obtain ⟨client, hclient, hof⟩ := h
  obtain ⟨-, ⟨c', incoming, outSched, rfl, -⟩ | ⟨c', scratch, client', rfl, hclient', -, hcase⟩⟩ :=
    serve_cases hstep
  · exact ⟨client, serve_clients hclient (by simp) hstep, hof⟩
  · by_cases heq : c' = c
    · subst heq
      obtain rfl := Option.some.inj (hclient.symm.trans hclient')
      rcases hcase with ⟨st, -, rfl⟩ | ⟨st, client'', hrun, rfl⟩
      · exact ⟨client, hclient, hof⟩
      · exact ⟨client'', Function.update_self .., hof.runClient (congrArg Prod.snd hrun)⟩
    · exact ⟨client, serve_clients hclient (by simp [heq]) hstep, hof⟩

/-- While it handles a connection on which `bytes` arrive, the server opens and removes entries of
its directory only. -/
def StaysInside (fs : DiskOps F) (vec : VectorOps V Name) (dict : DictOps D Name Nat)
    (dir : List UInt8) (disk : F) (bytes : List UInt8) : Prop :=
  ∀ w₀ c sched outSched w₁ w scratch w' new,
    Reachable (serve (logging fs) vec dict dir) (Service.start vec dict (disk, [])) w₀ →
    serve (logging fs) vec dict dir w₀ (.accept c ⟨bytes, sched⟩ outSched) = some w₁ →
    Reachable (serve (logging fs) vec dict dir) w₁ w →
    serve (logging fs) vec dict dir w (.ready c scratch) = some w' →
    w'.store.disk.2 = w.store.disk.2 ++ new → ∀ path ∈ new, Inside dir path

theorem staysInside_of_safeHeader {disk : F} (h : SafeHeader bytes) :
    StaysInside fs vec dict dir disk bytes := by
  intro w₀ c sched outSched w₁ w scratch w' new _ haccept hreach hready hlog path hpath
  -- whatever the other clients do, the client `c` holds what is left of its bytes, or the name in
  -- them
  have hreceives : Receives bytes c w := by
    apply hreach.invariant (P := Receives bytes c) _ fun _ _ _ hr hstep => hr.step hstep
    obtain ⟨-, ⟨c', incoming, outSched', heq, -, rfl⟩ | ⟨_, _, _, heq, _⟩⟩ := serve_cases haccept
    · cases heq
      exact ⟨_, Function.update_self .., fun _ => rfl, fun hs => by cases hs⟩
    · cases heq
  obtain ⟨client, hclient, hof⟩ := hreceives
  obtain ⟨-, ⟨_, _, _, heq, _⟩ | ⟨c', scratch', client', heq, hclient', -, hcase⟩⟩ :=
    serve_cases hready
  · cases heq
  · cases heq
    obtain rfl := Option.some.inj (hclient.symm.trans hclient')
    have hst : w'.store =
        (Service.runClient (logging fs) vec dict dir w.store client scratch).1 := by
      rcases hcase with ⟨st, hrun, rfl⟩ | ⟨st, client', hrun, rfl⟩
      all_goals rw [hrun]
    obtain ⟨new', hlog', hnames⟩ := @runClient_log _ _ _ fs vec dict dir w.store client scratch
    rw [hst, hlog'] at hlog
    obtain rfl := List.append_cancel_left hlog
    obtain ⟨name, hname, rfl⟩ := hnames path hpath
    exact inside_filepath.mpr (h name (hof.accesses hname))

/-- An open connection can be served. -/
theorem exists_serve_ready {client : Service.Client} (hclient : w.clients c = some client)
    (halive : w.alive = true) (hopen : client.cleaned = 0) (scratch : Scratch) :
    ∃ w', serve fs vec dict dir w (.ready c scratch) = some w' ∧
      w'.store = (Service.runClient fs vec dict dir w.store client scratch).1 ∧
      ∀ client', (Service.runClient fs vec dict dir w.store client scratch).2 = some client' →
        w'.clients c = some client' ∧ w'.alive = true := by
  simp only [serve, hclient, Option.bind_eq_bind, Option.bind_some]
  rw [if_pos ⟨halive, hopen⟩]
  rcases Service.runClient fs vec dict dir w.store client scratch with ⟨st, _ | client'⟩
  · exact ⟨_, rfl, rfl, by simp⟩
  · refine ⟨_, rfl, rfl, fun other hother => ?_⟩
    obtain rfl := Option.some.inj hother
    exact ⟨Function.update_self .., halive⟩

/-- A header with a verb other than `PUT` may be accepted, and its name is used after that. -/
theorem exists_parsed {heap text rest : List UInt8} (hheader : Header heap bytes text rest)
    {verb : List UInt8} (hverb : verb = getVerb ∨ verb = deleteVerb) (hstart : verb <+: text)
    {st : Service.Store V D F} {client : Service.Client} (hin : client.incoming = ⟨bytes, []⟩)
    (hstate : client.state = .fresh) :
    ∃ client', (Service.runClient fs vec dict dir st client ⟨.newline, heap⟩).2 = some client' ∧
      client'.state = .parsed ∧ (client'.cmd = .get ∨ client'.cmd = .delete) ∧
      client'.filename = filenameOf text verb.length ∧ client'.cleaned = client.cleaned := by
  obtain ⟨sched, hparse⟩ := @Header.parse ⟨.newline, heap⟩ _ _ ⟨bytes, []⟩ hheader
  have hmore := readAfterNewline_newline ⟨rest, sched⟩
  rw [Service.runClient, hstate]
  dsimp only
  rw [Service.readHeader, hin, hparse]
  rcases hverb with rfl | rfl
  · rw [show parseLine .newline text ⟨rest, sched⟩ = (.get (filenameOf text 4), _) from
      Prod.ext (parseLine_get hmore hstart) rfl]
    exact ⟨_, rfl, rfl, Or.inl rfl, rfl, rfl⟩
  · rw [show parseLine .newline text ⟨rest, sched⟩ = (.delete (filenameOf text 7), _) from
      Prod.ext (parseLine_delete hmore hstart) rfl]
    exact ⟨_, rfl, rfl, Or.inr rfl, rfl, rfl⟩

theorem safeHeader_of_staysInside {disk : F} (h : StaysInside fs vec dict dir disk bytes) :
    SafeHeader bytes := by
  intro name hcarries
  obtain ⟨heap, text, rest, hheader, verb, hverb, hstart, rfl⟩ := hcarries
  -- a first connection on which `bytes` arrive, with memory in which the look-ahead misses a byte
  obtain ⟨client, hfresh⟩ : ∃ client : Service.Client,
    client = ⟨⟨bytes, []⟩, ⟨[], []⟩, .fresh, .get, [], 0⟩ := ⟨_, rfl⟩
  obtain ⟨w₁, hw₁⟩ : ∃ w₁ : Service V D (F × List (List UInt8)),
    w₁ = ⟨⟨(disk, []), vec.create, dict.create⟩,
      Function.update (fun _ => none) 0 (some client), true⟩ := ⟨_, rfl⟩
  have haccept : serve (logging fs) vec dict dir (Service.start vec dict (disk, []))
      (.accept 0 ⟨bytes, []⟩ []) = some w₁ := by
    rw [hw₁, hfresh]
    rfl
  have hclient : w₁.clients 0 = some client := by simp [hw₁]
  have halive : w₁.alive = true := by rw [hw₁]
  by_cases hput : verb = putVerb
  · subst hput
    have hparse : (parseHeader ⟨.newline, heap⟩ client.incoming).1 = .put (filenameOf text 4) := by
      obtain ⟨sched, hparse⟩ := @Header.parse ⟨.newline, heap⟩ _ _ ⟨bytes, []⟩ hheader
      rw [hfresh, hparse, parseLine_put hstart]
    obtain ⟨w', hready, hst, -⟩ := @exists_serve_ready _ _ _ (logging fs) vec dict dir w₁ 0 client
      hclient halive (by rw [hfresh]) ⟨.newline, heap⟩
    obtain ⟨more, hlog, -⟩ := @runClient_log_put _ _ _ fs vec dict dir w₁.store client _ _
      (by rw [hfresh]) hparse
    have hlog' : w'.store.disk.2 =
        w₁.store.disk.2 ++ filepath dir (filenameOf text putVerb.length) :: more := by
      rw [hst]
      exact hlog
    exact inside_filepath.mp (h _ 0 [] [] w₁ w₁ _ w' _ .refl haccept .refl hready hlog' _
      List.mem_cons_self)
  · have hother : verb = getVerb ∨ verb = deleteVerb := by
      simp only [List.mem_cons, List.not_mem_nil, or_false] at hverb
      tauto
    obtain ⟨client', hrun, hstate, hcmd, hname, hcleaned⟩ := @exists_parsed V D _ (logging fs) vec dict
      dir _ _ _ _ hheader _ hother hstart w₁.store client (by rw [hfresh]) (by rw [hfresh])
    obtain ⟨w, hready, -, hclients⟩ := @exists_serve_ready _ _ _ (logging fs) vec dict dir w₁ 0 client
      hclient halive (by rw [hfresh]) ⟨.newline, heap⟩
    obtain ⟨hclient', halive'⟩ := hclients client' hrun
    obtain ⟨w', hready', hst', -⟩ := @exists_serve_ready _ _ _ (logging fs) vec dict dir w 0 client'
      hclient' halive' (by rw [hcleaned, hfresh]) .zeroed
    have hlog : w'.store.disk.2 = w.store.disk.2 ++ [filepath dir client'.filename] := by
      rw [hst']
      exact runClient_log_exec .zeroed hstate hcmd
    rw [← hname]
    exact inside_filepath.mp (h _ 0 [] [] w₁ w _ w' _ .refl haccept (Reachable.refl.next hready)
      hready' hlog _ (List.mem_singleton.mpr rfl))

/-- **The server stays inside its directory** while it handles a stream exactly if the names that
the header of the stream can carry are names of entries. -/
theorem staysInside_iff {disk : F} : StaysInside fs vec dict dir disk bytes ↔ SafeHeader bytes :=
  ⟨safeHeader_of_staysInside, staysInside_of_safeHeader⟩

/-- `"GET ../x\n"` is a request for a file next to the directory. -/
theorem not_staysInside_dots : ¬ StaysInside (dirDisk [100]) listVector listDict [100]
    (fun _ => none) (getVerb ++ [46, 46, 47, 120] ++ [10]) := by
  intro h
  have hheader : Header [] (getVerb ++ [46, 46, 47, 120] ++ [10])
      (getVerb ++ [46, 46, 47, 120] ++ [10]) [] :=
    .line rfl (by simp [getVerb]) (by decide)
  have hcarries : Carries (getVerb ++ [46, 46, 47, 120] ++ [10]) [46, 46, 47, 120] :=
    ⟨[], _, [], hheader, getVerb, by simp, ⟨[46, 46, 47, 120, 10], rfl⟩, filenameOf_line⟩
  exact (safeHeader_of_staysInside h _ hcarries).1 (by decide)

end Runs

end SystemProgramming.Networking
