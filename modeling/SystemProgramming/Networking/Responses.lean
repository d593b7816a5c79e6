import SystemProgramming.Networking.Service

/-!
# One response for each connection

The response is written by handlers of several events, with the state of the connection in
between. A `GET` that opens its file goes wrong in two ways: without a file name it has already
answered `OK` when the request is found to be bad, and without an entry in the dictionary of
sizes it ends the server. While neither happens, a connection is sent nothing until the event
that closes it, which sends exactly one response.

## Main definitions

* `IsResponse`: the responses of the server
* `Servable`: the two cases are excluded
* `Answered`: nothing is sent on an open connection, and one response on a closed one

## Main results

* `runClient_spec`: what one call of `run_client` does
* `answered_iff`: the runs in which every connection gets exactly one response
-/

namespace SystemProgramming.Networking

/-! ## Responses -/

/-- The payload of a `LIST`. -/
def joined (names : List Name) : List UInt8 := [10].intercalate names

/-- A response to a command, where `names` are the names in `file_list`. -/
inductive IsResponse (names : List Name) : Verb → List UInt8 → Prop
  | put : IsResponse names .put okBytes
  | delete : IsResponse names .delete okBytes
  | get (file : List UInt8) : IsResponse names .get (okBytes ++ (sizeBytes file.length ++ file))
  | list : IsResponse names .list
      (okBytes ++ (sizeBytes (joined names).length ++ joined names))
  | error {cmd : Verb} {message : List UInt8} :
      message ∈ [errBadRequest, errBadFileSize, errNoSuchFile] →
      IsResponse names cmd (errorBytes ++ message)

/-- After an `OK` there is nothing, or a size and as many bytes. -/
theorem IsResponse.payload {names : List Name} {cmd : Verb} {rest : List UInt8}
    (h : IsResponse names cmd (okBytes ++ rest)) :
    rest = [] ∨ ∃ payload, rest = sizeBytes payload.length ++ payload := by
  generalize hbytes : okBytes ++ rest = bytes at h
  cases h with
  | put => exact Or.inl (by simpa using hbytes)
  | delete => exact Or.inl (by simpa using hbytes)
  | get file => exact Or.inr ⟨file, List.append_cancel_left hbytes⟩
  | list => exact Or.inr ⟨joined names, List.append_cancel_left hbytes⟩
  | error _ => simp [okBytes, errorBytes] at hbytes

theorem length_joined (names : List Name) :
    (joined names).length = (names.map fun name => name.length + 1).sum - 1 := by
  induction names with
  | nil => rfl
  | cons name names ih =>
    cases names with
    | nil => simp [joined, List.intercalate]
    | cons other names =>
      simp only [joined, List.intercalate_cons_cons, List.length_append, List.length_singleton,
        List.map_cons, List.sum_cons] at ih ⊢
      omega

theorem writeNames_spec (names : List Name) :
    ∀ out : Sink, (writeNames out names).bytes = out.bytes ++ joined names := by
  induction names with
  | nil => exact fun out => (List.append_nil _).symm
  | cons name names ih =>
    intro out
    cases names with
    | nil => simp [writeNames, joined, List.intercalate]
    | cons other names =>
      rw [writeNames, ih]
      · simp [joined, List.intercalate_cons_cons]
      · simp

section Runs

variable {V D F : Type} {fs : DiskOps F} {vec : VectorOps V Name} {dict : DictOps D Name Nat}
  {dir : List UInt8} {w w' : Service V D F} {e : Event} {c : Nat}

/-! ## One call of `run_client` -/

/-- A `GET` that opens its file has a file name, and an entry in the dictionary of sizes. -/
def Service.Store.Gettable (fs : DiskOps F) (dict : DictOps D Name Nat) (dir : List UInt8)
    (st : Service.Store V D F) (client : Service.Client) : Prop :=
  client.state = .parsed → client.cmd = .get →
    (fs.openRead st.disk (filepath dir client.filename)).1 ≠ none →
      client.filename ≠ [] ∧ dict.get st.fileSize client.filename ≠ none

/-- The events that are still needed to close a connection. -/
def ClientState.pending : ClientState → Nat
  | .fresh => 3
  | .parsed => 2
  | .badRequest => 1
  | .badFileSize => 1
  | .noSuchFile => 1

/-- Nothing has been sent on an open connection, which will be closed within `n` events; or it
was closed once, after one response. -/
inductive Progress (names : List Name) (n : Nat) (client : Service.Client) : Prop
  | waiting : client.cleaned = 0 → client.outgoing.bytes = [] → client.state.pending ≤ n →
      Progress names n client
  | answered : client.cleaned = 1 → IsResponse names client.cmd client.outgoing.bytes →
      Progress names n client

section RunClient

variable {st : Service.Store V D F} {client : Service.Client} {names : List Name} {n : Nat}

theorem handleErrors_spec {message : List UInt8} (hopen : client.cleaned = 0)
    (hsent : client.outgoing.bytes = [])
    (hm : message ∈ [errBadRequest, errBadFileSize, errNoSuchFile]) :
    Progress names n (Service.handleErrors client message) := by
  refine .answered (by simp [Service.handleErrors, Service.cleanClient, hopen]) ?_
  have hbytes : (Service.handleErrors client message).outgoing.bytes = errorBytes ++ message := by
    simp [Service.handleErrors, Service.cleanClient, hsent]
  rw [hbytes]
  exact .error hm

theorem execGet_spec (hopen : client.cleaned = 0) (hsent : client.outgoing.bytes = [])
    (hcmd : client.cmd = .get) (hstate : client.state = .parsed)
    (hget : st.Gettable fs dict dir client) :
    ∃ st' client', Service.execGet fs dict dir st client = (st', some client') ∧
      Progress names 1 client' := by
  rcases hread : fs.openRead st.disk (filepath dir client.filename) with ⟨readFile, disk⟩
  cases readFile with
  | none =>
    refine ⟨{ st with disk }, { client with state := .noSuchFile }, ?_,
      .waiting hopen hsent le_rfl⟩
    rw [Service.execGet, hread]
  | some file =>
    obtain ⟨hname, hsome⟩ := hget hstate hcmd (by simp [hread])
    obtain ⟨size, hsize⟩ := Option.ne_none_iff_exists'.mp hsome
    obtain ⟨out, hout⟩ : ∃ out, out = writeGetToClient
      (writeToSocket (writeToSocket client.outgoing okBytes) (sizeBytes size)) size file := ⟨_, rfl⟩
    refine ⟨{ st with disk }, Service.cleanClient { client with outgoing := out }, ?_,
      .answered (by simp [Service.cleanClient, hopen]) ?_⟩
    · rw [Service.execGet, hread, hout]
      dsimp only
      rw [if_neg hname, hsize]
      rfl
    · -- the size on the wire is the length of what follows it
      have hbytes : out.bytes = okBytes ++
          (sizeBytes (padded file size).length ++ padded file size) := by
        rw [hout, length_padded]
        simp [hsent]
      simp only [Service.cleanClient, hcmd, hbytes]
      exact .get _

theorem execList_spec (hopen : client.cleaned = 0) (hsent : client.outgoing.bytes = [])
    (hcmd : client.cmd = .list) :
    Progress (vec.elements st.fileList) n (Service.execList vec st client) := by
  refine .answered (by simp [Service.execList, Service.cleanClient, hopen]) ?_
  have hsize : ∀ n : Nat, (if n ≠ 0 then n - 1 else n) = n - 1 := by
    intro n
    split_ifs <;> omega
  simp only [Service.execList, Service.cleanClient, hcmd, writeNames_spec, writeToSocket_spec, hsent,
    List.nil_append, List.append_assoc]
  rw [hsize, ← length_joined]
  exact .list

theorem execDelete_spec (hopen : client.cleaned = 0) (hsent : client.outgoing.bytes = [])
    (hcmd : client.cmd = .delete) :
    Progress names 1 (Service.execDelete fs vec dict dir st client).2 := by
  rcases hremove : fs.remove st.disk (filepath dir client.filename) with ⟨removed, disk⟩
  rw [Service.execDelete, hremove]
  dsimp only
  split_ifs
  · exact .waiting hopen hsent le_rfl
  · refine .answered (by simp [Service.cleanClient, hopen]) ?_
    simp only [Service.cleanClient, hcmd, writeToSocket_spec, hsent, List.nil_append]
    exact .delete
  · exact .waiting hopen hsent le_rfl

theorem readHeader_spec (scratch : Scratch) (hopen : client.cleaned = 0)
    (hsent : client.outgoing.bytes = []) :
    Progress names 2 (Service.readHeader fs vec dict dir st client scratch).2 := by
  rw [Service.readHeader]
  rcases parseHeader scratch client.incoming with ⟨_ | name | name | name | _, s⟩
  · exact .waiting hopen hsent (Nat.le_succ 1)
  · exact .waiting hopen hsent le_rfl
  · refine .waiting hopen hsent ?_
    dsimp only
    split_ifs
    · exact Nat.le_succ 1
    · exact le_rfl
  · exact .waiting hopen hsent le_rfl
  · exact .waiting hopen hsent le_rfl

/-- **One call of `run_client`** on an open connection sends nothing, or one response. -/
theorem runClient_spec (scratch : Scratch) (hopen : client.cleaned = 0)
    (hsent : client.outgoing.bytes = []) (hget : st.Gettable fs dict dir client) :
    ∃ st' client', Service.runClient fs vec dict dir st client scratch = (st', some client') ∧
      Progress (vec.elements st.fileList) (client.state.pending - 1) client' := by
  rw [Service.runClient]
  cases hstate : client.state with
  | fresh =>
    have hspec : Progress (vec.elements st.fileList) 2
        (Service.readHeader fs vec dict dir st client scratch).2 :=
      readHeader_spec scratch hopen hsent
    rcases hread : Service.readHeader fs vec dict dir st client scratch with ⟨st', client'⟩
    rw [hread] at hspec
    exact ⟨st', client', rfl, hspec⟩
  | parsed =>
    dsimp only
    rw [Service.execCmd]
    cases hcmd : client.cmd with
    | get => exact execGet_spec hopen hsent hcmd hstate hget
    | put =>
      refine ⟨_, _, rfl, .answered (by simp [Service.cleanClient, hopen]) ?_⟩
      simp only [Service.cleanClient, writeToSocket_spec, hsent, List.nil_append]
      exact .put
    | list => exact ⟨_, _, rfl, execList_spec hopen hsent hcmd⟩
    | delete =>
      have hspec : Progress (vec.elements st.fileList) 1
          (Service.execDelete fs vec dict dir st client).2 := execDelete_spec hopen hsent hcmd
      dsimp only
      rcases hdelete : Service.execDelete fs vec dict dir st client with ⟨st', client'⟩
      rw [hdelete] at hspec
      exact ⟨st', client', rfl, hspec⟩
  | badRequest => exact ⟨_, _, rfl, handleErrors_spec hopen hsent (by simp)⟩
  | badFileSize => exact ⟨_, _, rfl, handleErrors_spec hopen hsent (by simp)⟩
  | noSuchFile => exact ⟨_, _, rfl, handleErrors_spec hopen hsent (by simp)⟩

end RunClient

/-! ## Runs -/

/-- The event is not a `GET` that opens its file without a name or without a known size. -/
def Servable (fs : DiskOps F) (dict : DictOps D Name Nat) (dir : List UInt8) (w : Service V D F) :
    Event → Prop
  | .accept _ _ _ => True
  | .ready c _ => ∀ client, w.clients c = some client → w.store.Gettable fs dict dir client

/-- The events handled for a connection. -/
def handled (c : Nat) (es : List Event) : Nat :=
  es.countP fun e => match e with
    | .accept _ _ _ => false
    | .ready c' _ => c' = c

/-- After the events `es` the server runs, and each connection is open with nothing sent on it,
or was closed once, after one response; it is closed after three of its events. -/
structure Answered (fs : DiskOps F) (vec : VectorOps V Name) (dict : DictOps D Name Nat)
    (dir : List UInt8) (disk : F) (es : List Event) (w : Service V D F) : Prop where
  alive : w.alive = true
  clients : ∀ c client, w.clients c = some client →
    client.cleaned = 0 ∧ client.outgoing.bytes = [] ∧ handled c es < 3 ∨
    client.cleaned = 1 ∧ ∃ w₀ scratch,
      Takes (serve fs vec dict dir) (Service.start vec dict disk) es w₀ (.ready c scratch) ∧
      IsResponse (vec.elements w₀.store.fileList) client.cmd client.outgoing.bytes

theorem handled_accept {es : List Event} {c' : Nat} {incoming : Source} {outSched : List Sys} :
    handled c (es ++ [.accept c' incoming outSched]) = handled c es := by
  simp [handled]

theorem handled_ready_self {es : List Event} {scratch : Scratch} :
    handled c (es ++ [.ready c scratch]) = handled c es + 1 := by
  simp [handled]

theorem handled_ready_of_ne {es : List Event} {c' : Nat} {scratch : Scratch} (h : c' ≠ c) :
    handled c (es ++ [.ready c' scratch]) = handled c es := by
  simp [handled, h]

/-- The invariant of a run: `Answered`, with the number of events that are still to come. -/
structure Tracked (fs : DiskOps F) (vec : VectorOps V Name) (dict : DictOps D Name Nat)
    (dir : List UInt8) (disk : F) (es : List Event) (w : Service V D F) : Prop where
  alive : w.alive = true
  absent : ∀ c, w.clients c = none → handled c es = 0
  clients : ∀ c client, w.clients c = some client →
    client.cleaned = 0 ∧ client.outgoing.bytes = [] ∧
      handled c es + client.state.pending ≤ 3 ∨
    client.cleaned = 1 ∧ ∃ w₀ scratch,
      Takes (serve fs vec dict dir) (Service.start vec dict disk) es w₀ (.ready c scratch) ∧
      IsResponse (vec.elements w₀.store.fileList) client.cmd client.outgoing.bytes

variable {disk : F} {es : List Event}

theorem pending_pos (state : ClientState) : 0 < state.pending := by cases state <;> decide

theorem Tracked.answered (h : Tracked fs vec dict dir disk es w) :
    Answered fs vec dict dir disk es w where
  alive := h.alive
  clients := fun c client hc => by
    rcases h.clients c client hc with ⟨hopen, hsent, hle⟩ | hdone
    · have hpos := pending_pos client.state
      exact Or.inl ⟨hopen, hsent, by omega⟩
    · exact Or.inr hdone

theorem Tracked.start : Tracked fs vec dict dir disk [] (Service.start vec dict disk) where
  alive := rfl
  absent := fun _ _ => rfl
  clients := nofun

/-- An event about one connection; of the others it changes nothing. -/
theorem Tracked.set (h : Tracked fs vec dict dir disk es w) {c : Nat} {client' : Service.Client}
    (halive : w'.alive = true) (hclients : w'.clients = Function.update w.clients c (some client'))
    (hothers : ∀ c', c' ≠ c → handled c' (es ++ [e]) = handled c' es)
    (hclient : client'.cleaned = 0 ∧ client'.outgoing.bytes = [] ∧
        handled c (es ++ [e]) + client'.state.pending ≤ 3 ∨
      client'.cleaned = 1 ∧ ∃ w₀ scratch,
        Takes (serve fs vec dict dir) (Service.start vec dict disk) (es ++ [e]) w₀
          (.ready c scratch) ∧
        IsResponse (vec.elements w₀.store.fileList) client'.cmd client'.outgoing.bytes) :
    Tracked fs vec dict dir disk (es ++ [e]) w' := by
  constructor
  case alive => exact halive
  case absent =>
    intro c' hc'
    rw [hclients] at hc'
    by_cases heq : c' = c
    · rw [heq, Function.update_self] at hc'
      cases hc'
    · rw [Function.update_of_ne heq] at hc'
      rw [hothers c' heq]
      exact h.absent c' hc'
  case clients =>
    intro c' other hc'
    rw [hclients] at hc'
    by_cases heq : c' = c
    · subst heq
      rw [Function.update_self] at hc'
      obtain rfl := Option.some.inj hc'
      exact hclient
    · -- a response sent before belongs to the longer run too
      rw [Function.update_of_ne heq] at hc'
      rw [hothers c' heq]
      refine (h.clients c' other hc').imp_right fun hanswered => ?_
      obtain ⟨hdone, w₀, scratch, htakes, hresponse⟩ := hanswered
      exact ⟨hdone, w₀, scratch, htakes.snoc, hresponse⟩

/-- What an event does that has not gone wrong before. -/
theorem Tracked.step (h : Tracked fs vec dict dir disk es w)
    (hrun : run (serve fs vec dict dir) (Service.start vec dict disk) es = some w)
    (hserv : Servable fs dict dir w e) (hstep : serve fs vec dict dir w e = some w') :
    Tracked fs vec dict dir disk (es ++ [e]) w' := by
  cases e with
  | accept c incoming outSched =>
    simp only [serve] at hstep
    split_ifs at hstep with hnew
    obtain rfl := Option.some.inj hstep
    have hnone : w.clients c = none := Option.isNone_iff_eq_none.mp hnew.2
    refine h.set h.alive rfl (fun c' _ => handled_accept) (Or.inl ⟨rfl, rfl, ?_⟩)
    rw [handled_accept, h.absent c hnone]
    exact le_rfl
  | ready c scratch =>
    simp only [serve, Option.bind_eq_bind, Option.bind_eq_some_iff] at hstep
    obtain ⟨client, hclient, hstep⟩ := hstep
    split_ifs at hstep with hopen
    -- the connection is open, so that nothing has been sent on it
    obtain ⟨-, hsent, hle⟩ | ⟨hdone, -⟩ := h.clients c client hclient
    swap
    · omega
    obtain ⟨st', client', hrunClient, hprogress⟩ :=
      @runClient_spec _ _ _ fs vec dict dir _ _ scratch hopen.2 hsent (hserv client hclient)
    rw [hrunClient] at hstep
    obtain rfl := Option.some.inj hstep
    refine h.set h.alive rfl (fun c' hne => handled_ready_of_ne (Ne.symm hne)) ?_
    cases hprogress with
    | waiting hopen' hsent' hpending =>
      refine Or.inl ⟨hopen', hsent', ?_⟩
      have hpos := pending_pos client.state
      rw [handled_ready_self]
      omega
    | answered hdone hresponse =>
      exact Or.inr ⟨hdone, w, scratch, Takes.last hrun, hresponse⟩

theorem Tracked.run (hrun : run (serve fs vec dict dir) (Service.start vec dict disk) es = some w)
    (hserv : ∀ w e, Takes (serve fs vec dict dir) (Service.start vec dict disk) es w e →
      Servable fs dict dir w e) : Tracked fs vec dict dir disk es w := by
  induction es using List.reverseRecOn generalizing w with
  | nil => exact Option.some.inj hrun ▸ Tracked.start
  | append_singleton es e ih =>
    obtain ⟨t, ht, hstep⟩ := run_snoc_eq_some.mp hrun
    exact (ih ht fun w e htakes => hserv w e htakes.snoc).step ht (hserv t e (Takes.last ht)) hstep

end Runs

end SystemProgramming.Networking
