import SystemProgramming.Foundation.Containers
import SystemProgramming.Foundation.Run
import SystemProgramming.Networking.Common

/-!
# The file server of `nonstop_networking/server.c`

The server keeps three copies of what it stores: the files in its directory, the list of
their names and the dictionary of their sizes. It handles one epoll event at a time, with
blocking reads, so each handler runs to its end: it reads the header of a connection (and,
for a `PUT`, the body), executes a command, or reports an error.

File names are byte strings. The directory is a map from names to contents, which is what it
is for the names of regular files in it; events whose request has another name are not part
of the model. `none` stands for a handler that reads a missing dictionary entry. The vector
and dictionary libraries are parameters. Connections are told apart by a number of their own,
not by a descriptor that may be used again.

## Main definitions

* `Store`: the three copies
* `Conn`, `World`, `Event`, `step`: the connections and the server's event loop
* `parseHeader`: what a handler finds in a request
* `readPutFromClient`, `execGet`, `execList`, `execDelete`, `handleErrors`: the handlers
-/

namespace SystemProgramming.Networking

/-- A file name, or any other byte string. -/
abbrev Name := List UInt8

/-- `"OK\n"`. -/
def okBytes : List UInt8 := [79, 75, 10]

/-- `"ERROR\n"`. -/
def errorBytes : List UInt8 := [69, 82, 82, 79, 82, 10]

/-- `"Bad request\n"`. -/
def errBadRequest : List UInt8 := [66, 97, 100, 32, 114, 101, 113, 117, 101, 115, 116, 10]

/-- `"Bad file size\n"`. -/
def errBadFileSize : List UInt8 := [66, 97, 100, 32, 102, 105, 108, 101, 32, 115, 105, 122, 101, 10]

/-- `"No such file\n"`. -/
def errNoSuchFile : List UInt8 := [78, 111, 32, 115, 117, 99, 104, 32, 102, 105, 108, 101, 10]

/-- `"GET "`. -/
def getVerb : List UInt8 := [71, 69, 84, 32]

/-- `"PUT "`. -/
def putVerb : List UInt8 := [80, 85, 84, 32]

/-- `"DELETE "`. -/
def deleteVerb : List UInt8 := [68, 69, 76, 69, 84, 69, 32]

/-- `"LIST\n"`. -/
def listLine : List UInt8 := [76, 73, 83, 84, 10]

/-- The name of a regular file in the server's directory that fits its buffers: no slash,
newline or NUL, not `"."` or `".."`. -/
def Plain (name : Name) : Prop :=
  0 < name.length ∧ name.length ≤ 254 ∧ (∀ c ∈ name, c ≠ 47 ∧ c ≠ 10 ∧ c ≠ 0) ∧
    name ≠ [46] ∧ name ≠ [46, 46]

instance (name : Name) : Decidable (Plain name) :=
  haveI : Decidable (∀ c ∈ name, c ≠ 47 ∧ c ≠ 10 ∧ c ≠ 0) := List.decidableBAll _ _
  inferInstanceAs (Decidable (_ ∧ _))

/-- `verb`. -/
inductive Verb where
  | get
  | put
  | delete
  | list
  deriving DecidableEq

/-! ## Requests -/

/-- What `read_header` finds at the start of a stream. -/
inductive Request where
  | bad
  | get (name : Name)
  | put (name : Name)
  | delete (name : Name)
  | list
  deriving DecidableEq

/-- The memory that a handler does not initialise: around the buffer of `read_after_newline`,
and behind the `client_info`, whose last field is the header. -/
structure Scratch where
  stack : Around
  heap : List UInt8

/-- All memory is zero. -/
def Scratch.zeroed : Scratch := ⟨.zeroed, []⟩

/-- The memory around the header, which is cleared when its connection is accepted. -/
def Scratch.header (scratch : Scratch) : Around := .calloc maxHeaderLen scratch.heap

/-- The file name after the verb of a header string, without the last byte. A name that is too
long for its field goes on into the header, which is copied from the front. -/
def filenameOf (line : List UInt8) (verbLen : Nat) : Name := (line.drop verbLen).dropLast

/-- `read_after_newline`: is there a byte after the header? -/
def readAfterNewline (stack : Around) (s : Source) : Bool × Source :=
  let (n, _, s) := readHeaderFromSocket stack s 1
  (n ≠ 0, s)

/-- The comparisons of `read_header` with the verbs. -/
def parseLine (stack : Around) (line : List UInt8) (s : Source) : Request × Source :=
  if getVerb <+: line then
    let (more, s) := readAfterNewline stack s
    (if more then .bad else .get (filenameOf line 4), s)
  else if putVerb <+: line then (.put (filenameOf line 4), s)
  else if deleteVerb <+: line then
    let (more, s) := readAfterNewline stack s
    (if more then .bad else .delete (filenameOf line 7), s)
  else if line = listLine then
    let (more, s) := readAfterNewline stack s
    (if more then .bad else .list, s)
  else (.bad, s)

/-- `read_header` without the body of a `PUT`. -/
def parseHeader (scratch : Scratch) (s : Source) : Request × Source :=
  let (bytesRead, header, s) := readHeaderFromSocket scratch.header s maxHeaderLen
  if bytesRead = maxHeaderLen then (.bad, s)
  else parseLine scratch.stack (scratch.header.string header) s

/-! ## The body of a `PUT` -/

/-- The loop of `read_put_from_client`, which tries to read one byte more than announced; the
client has the same loop. -/
def bodyLoop : Nat → Source → Nat → List UInt8 → List UInt8 × Source
  | 0, s, _, received => (received, s)
  | fuel + 1, s, limit, received =>
    if received.length < limit then
      match readFromSocket s (getMin (limit - received.length) maxHeaderLen) with
      | ([], s) => (received, s)
      | (buffer, s) => bodyLoop fuel s limit (received ++ buffer)
    else (received, s)

/-- The announced size, and up to one byte more than that. `size + 1` is a `size_t`. -/
def readBody (s : Source) : Nat × List UInt8 × Source :=
  let (sizeField, s) := readFromSocket s 8
  let size := sizeValue sizeField
  let (received, s) := bodyLoop (s.bytes.length + 1) s ((size + 1) % 2 ^ 64) []
  (size, received, s)

section Handlers

variable {V D : Type} (vec : VectorOps V Name) (dict : DictOps D Name Nat)

/-- The files of the directory, `file_list` and `file_size`. -/
structure Store (V D : Type) where
  files : Name → Option (List UInt8)
  fileList : V
  fileSize : D

/-- `read_put_from_client`: did it fail? Opening the file truncates or creates it; a failed
transfer removes it. -/
def readPutFromClient (st : Store V D) (name : Name) (s : Source) : Bool × Store V D × Source :=
  let existed := (st.files name).isSome
  let (size, received, s) := readBody s
  if isError received.length size then
    (true, { st with files := Function.update st.files name none }, s)
  else
    (false,
      { files := Function.update st.files name (some received)
        fileList := if existed then st.fileList else vec.pushBack st.fileList name
        fileSize := dict.set st.fileSize name size }, s)

/-- `state` of a `client_info`: `0`, `1`, `-1`, `-2` and `-3`. -/
inductive ClientState where
  | fresh
  | parsed
  | badRequest
  | badFileSize
  | noSuchFile
  deriving DecidableEq

/-- A connection, with its `client_info`. -/
structure Conn where
  incoming : Source
  outgoing : Sink
  state : ClientState
  cmd : Verb
  filename : Name
  closed : Bool

/-- The store and the connections. -/
structure World (V D : Type) where
  store : Store V D
  clients : Nat → Option Conn

/-- `read_header`. -/
def readHeader (st : Store V D) (conn : Conn) (scratch : Scratch) : Store V D × Conn :=
  match parseHeader scratch conn.incoming with
  | (.bad, s) => (st, { conn with incoming := s, state := .badRequest })
  | (.get name, s) => (st, { conn with incoming := s, state := .parsed, cmd := .get, filename := name })
  | (.delete name, s) =>
    (st, { conn with incoming := s, state := .parsed, cmd := .delete, filename := name })
  | (.list, s) => (st, { conn with incoming := s, state := .parsed, cmd := .list })
  | (.put name, s) =>
    let (failed, st, s) := readPutFromClient vec dict st name s
    (st, { conn with incoming := s, cmd := .put, filename := name
                     state := if failed then .badFileSize else .parsed })

/-- The loop of `write_get_to_client`, with the rest of the file. -/
def getLoop : Nat → Sink → Nat → List UInt8 → Sink
  | 0, out, _, _ => out
  | fuel + 1, out, remaining, file =>
    if 0 < remaining then
      let n := getMin remaining maxHeaderLen
      -- the buffer is cleared before each read from the file
      let buffer := file.take n ++ List.replicate (n - (file.take n).length) 0
      getLoop fuel (writeToSocket out buffer) (remaining - n) (file.drop n)
    else out

/-- `write_get_to_client`. -/
def writeGetToClient (out : Sink) (size : Nat) (file : List UInt8) : Sink :=
  getLoop (size + 1) out size file

/-- `clean_client`. -/
def cleanClient (conn : Conn) : Conn := { conn with closed := true }

/-- `exec_get`, then the connection is closed unless it failed. -/
def execGet (st : Store V D) (conn : Conn) : Option Conn :=
  match st.files conn.filename with
  | none => some { conn with state := .noSuchFile }
  | some file =>
    let out := writeToSocket conn.outgoing okBytes
    if conn.filename = [] then some { conn with outgoing := out, state := .badRequest }
    else do
      let size ← dict.get st.fileSize conn.filename
      let out := writeToSocket out (sizeBytes size)
      some (cleanClient { conn with outgoing := writeGetToClient out size file })

/-- The names of `exec_list`, each but the last with a newline. -/
def writeNames : Sink → List Name → Sink
  | out, [] => out
  | out, [name] => writeToSocket out name
  | out, name :: names => writeNames (writeToSocket (writeToSocket out name) [10]) names

/-- `exec_list`. -/
def execList (st : Store V D) (conn : Conn) : Conn :=
  let names := vec.elements st.fileList
  let out := writeToSocket conn.outgoing okBytes
  let size := (names.map fun name => name.length + 1).sum
  let out := writeToSocket out (sizeBytes (if size ≠ 0 then size - 1 else size))
  cleanClient { conn with outgoing := writeNames out names }

/-- `exec_delete`. -/
def execDelete (st : Store V D) (conn : Conn) : Store V D × Conn :=
  if (st.files conn.filename).isNone then (st, { conn with state := .noSuchFile })
  else
    let st := { st with files := Function.update st.files conn.filename none }
    let id := (vec.elements st.fileList).idxOf conn.filename
    if id = vec.size st.fileList then (st, { conn with state := .noSuchFile })
    else
      ({ st with fileList := vec.erase st.fileList id
                 fileSize := dict.remove st.fileSize conn.filename },
        cleanClient { conn with outgoing := writeToSocket conn.outgoing okBytes })

/-- `exec_cmd`. -/
def execCmd (st : Store V D) (conn : Conn) : Option (Store V D × Conn) :=
  match conn.cmd with
  | .get => (execGet dict st conn).map fun conn => (st, conn)
  | .put => some (st, cleanClient { conn with outgoing := writeToSocket conn.outgoing okBytes })
  | .list => some (st, execList vec st conn)
  | .delete => some (execDelete vec dict st conn)

/-- `handle_errors`. -/
def handleErrors (conn : Conn) (message : List UInt8) : Conn :=
  cleanClient { conn with
    outgoing := writeToSocket (writeToSocket conn.outgoing errorBytes) message }

/-- `run_client`. -/
def runClient (st : Store V D) (conn : Conn) (scratch : Scratch) : Option (Store V D × Conn) :=
  match conn.state with
  | .fresh => some (readHeader vec dict st conn scratch)
  | .parsed => execCmd vec dict st conn
  | .badRequest => some (st, handleErrors conn errBadRequest)
  | .badFileSize => some (st, handleErrors conn errBadFileSize)
  | .noSuchFile => some (st, handleErrors conn errNoSuchFile)

/-! ## The event loop -/

/-- A new connection, with all that its client will send; or a connection is ready, with the
memory that its handler finds. -/
inductive Event where
  | accept (c : Nat) (incoming : Source) (outSched : List Sys)
  | ready (c : Nat) (scratch : Scratch)

/-- The name in a request. -/
def Request.name? : Request → Option Name
  | .bad => none
  | .get name => some name
  | .put name => some name
  | .delete name => some name
  | .list => none

/-- The request of a fresh connection has a plain name, if it has one. -/
def Conn.plain (conn : Conn) (scratch : Scratch) : Bool :=
  conn.state ≠ .fresh ∨ ((parseHeader scratch conn.incoming).1.name?.all fun name => Plain name)

/-- An empty directory and no connections. -/
def World.start : World V D :=
  ⟨⟨fun _ => none, vec.create, dict.create⟩, fun _ => none⟩

/-- One event of the loop. -/
def step (w : World V D) : Event → Option (World V D)
  | .accept c incoming outSched =>
    if (w.clients c).isSome then none
    else
      let conn : Conn := ⟨incoming, ⟨[], outSched⟩, .fresh, .get, [], false⟩
      some { w with clients := Function.update w.clients c (some conn) }
  | .ready c scratch => do
    let conn ← w.clients c
    if conn.closed = false ∧ conn.plain scratch then
      let (st, conn) ← runClient vec dict w.store conn scratch
      some ⟨st, Function.update w.clients c (some conn)⟩
    else none

end Handlers

/-! ## The contents of a file -/

/-- The bytes of a file, cut or filled with zeros to a size. -/
def padded (file : List UInt8) (size : Nat) : List UInt8 :=
  file.take size ++ List.replicate (size - file.length) 0

@[simp] theorem length_padded (file : List UInt8) (size : Nat) : (padded file size).length = size := by
  rw [padded, List.length_append, List.length_take, List.length_replicate]
  omega

@[simp] theorem padded_self (file : List UInt8) : padded file file.length = file := by
  simp [padded]

theorem padded_append (file : List UInt8) {n size : Nat} (h : n ≤ size) :
    padded file n ++ padded (file.drop n) (size - n) = padded file size := by
  by_cases hn : n ≤ file.length
  · have hzero : n - file.length = 0 := by omega
    have hsize : size - n - (file.length - n) = size - file.length := by omega
    rw [padded, padded, padded, hzero, List.replicate_zero, List.append_nil, List.length_drop, hsize,
      ← List.append_assoc, ← List.take_add, Nat.add_sub_cancel' h]
  · have hle : file.length ≤ n := by omega
    have hsplit : size - file.length = n - file.length + (size - n) := by omega
    rw [padded, padded, padded, List.drop_eq_nil_of_le hle, List.take_of_length_le hle,
      List.take_of_length_le (hle.trans h), hsplit, List.replicate_add]
    simp

theorem getLoop_spec (fuel : Nat) : ∀ (out : Sink) (remaining : Nat) (file : List UInt8),
    remaining < fuel → (getLoop fuel out remaining file).bytes = out.bytes ++ padded file remaining := by
  induction fuel with
  | zero =>
    intro out remaining file hfuel
    omega
  | succ fuel ih =>
    intro out remaining file hfuel
    rw [getLoop]
    by_cases hpos : 0 < remaining
    · obtain ⟨n, hn⟩ : ∃ n, n = getMin remaining maxHeaderLen := ⟨_, rfl⟩
      have hle : 0 < n ∧ n ≤ remaining := by
        rw [hn, getMin_eq]
        unfold maxHeaderLen
        omega
      have hbuffer : file.take n ++ List.replicate (n - (file.take n).length) 0 = padded file n := by
        rw [padded, List.length_take, show n - min n file.length = n - file.length by omega]
      rw [if_pos hpos, ← hn]
      dsimp only
      rw [hbuffer, ih _ _ _ (by omega), writeToSocket_spec, List.append_assoc, padded_append _ hle.2]
    · have hzero : remaining = 0 := by omega
      rw [if_neg hpos, hzero]
      simp [padded]

/-- **`write_get_to_client`** sends as many bytes as announced. -/
@[simp] theorem writeGetToClient_spec (out : Sink) (size : Nat) (file : List UInt8) :
    (writeGetToClient out size file).bytes = out.bytes ++ padded file size :=
  getLoop_spec _ _ _ _ (Nat.lt_succ_self _)

/-! ## The body loop -/

theorem bodyLoop_spec (fuel : Nat) : ∀ (s : Source) (limit : Nat) (received : List UInt8),
    received.length ≤ limit → s.bytes.length < fuel →
    ∃ sched, bodyLoop fuel s limit received =
      (received ++ s.bytes.take (limit - received.length),
        ⟨s.bytes.drop (limit - received.length), sched⟩) := by
  induction fuel with
  | zero =>
    intro s limit received _ hfuel
    omega
  | succ fuel ih =>
    intro s limit received hle hfuel
    rw [bodyLoop]
    by_cases hlt : received.length < limit
    · rw [if_pos hlt]
      obtain ⟨n, hn⟩ : ∃ n, n = getMin (limit - received.length) maxHeaderLen := ⟨_, rfl⟩
      have hn' : 0 < n ∧ n ≤ limit - received.length := by
        rw [hn, getMin_eq]
        unfold maxHeaderLen
        omega
      obtain ⟨sched, hread⟩ := readFromSocket_spec s n
      rw [← hn, hread]
      cases hbytes : s.bytes with
      | nil => exact ⟨sched, by simp⟩
      | cons b bs =>
        have hne : (b :: bs).take n = b :: bs.take (n - 1) := by
          obtain ⟨n, rfl⟩ := Nat.exists_eq_succ_of_ne_zero hn'.1.ne'
          rfl
        simp only [hne]
        have hlen : (b :: bs.take (n - 1)).length ≤ limit - received.length := by
          rw [← hne, List.length_take]
          omega
        obtain ⟨sched', hrec⟩ := ih ⟨(b :: bs).drop n, sched⟩ limit (received ++ b :: bs.take (n - 1))
          (by rw [List.length_append]; omega)
          (by
            simp only [List.length_drop, List.length_cons, hbytes] at hfuel ⊢
            omega)
        refine ⟨sched', ?_⟩
        rw [hrec, ← hne]
        dsimp only
        -- this read takes all that is left on the connection, or exactly `n` bytes
        by_cases hshort : (b :: bs).length ≤ n
        · have hle' := hshort.trans hn'.2
          simp [List.drop_eq_nil_of_le hshort, List.take_of_length_le hshort,
            List.take_of_length_le hle', List.drop_eq_nil_of_le hle']
        · have htl : ((b :: bs).take n).length = n := by
            rw [List.length_take]
            omega
          have hsplit : limit - received.length = n + (limit - received.length - n) := by omega
          have hcount : limit - (received ++ (b :: bs).take n).length =
              limit - received.length - n := by
            rw [List.length_append, htl]
            omega
          rw [hcount, List.append_assoc, List.drop_drop]
          conv_rhs => rw [hsplit, List.take_add]
    · rw [if_neg hlt]
      have hzero : limit - received.length = 0 := by omega
      exact ⟨s.sched, by simp [hzero]⟩

/-- What the server receives of a body, whatever the fragmentation. -/
theorem readBody_spec (s : Source) :
    ∃ s', readBody s = (sizeValue (s.bytes.take 8),
      (s.bytes.drop 8).take ((sizeValue (s.bytes.take 8) + 1) % 2 ^ 64), s') := by
  obtain ⟨sched, hsize⟩ := readFromSocket_spec s 8
  obtain ⟨sched', hbody⟩ := bodyLoop_spec ((s.bytes.drop 8).length + 1) ⟨s.bytes.drop 8, sched⟩
    ((sizeValue (s.bytes.take 8) + 1) % 2 ^ 64) [] (by simp) (by simp)
  refine ⟨⟨(s.bytes.drop 8).drop ((sizeValue (s.bytes.take 8) + 1) % 2 ^ 64), sched'⟩, ?_⟩
  rw [readBody, hsize]
  dsimp only
  rw [hbody]
  simp

end SystemProgramming.Networking
