import SystemProgramming.Networking.Server

/-!
# The client of `nonstop_networking/client.c`

The client writes its request, for a `PUT` with the size and the bytes of a local file, and
then stops sending. It reads the response with the same transfer loop as the server. Local
files can be opened and read, and the connection stays up.

## Main definitions

* `runClientRequest`: the request a client sends
* `readServerResponse`: what a client makes of the response

## Main results

* `runClientRequest_get`, `runClientRequest_put`: the bytes of a request, whatever the
  fragmentation
* `readServerResponse_file`: a size and that many bytes decode to the bytes
-/

namespace SystemProgramming.Networking

/-- The loop of `perform_put`, with the rest of the local file. -/
def putLoop : Nat → Sink → Nat → List UInt8 → Sink
  | 0, out, _, _ => out
  | fuel + 1, out, remaining, file =>
    if 0 < remaining then
      let n := getMin remaining maxHeaderLen
      putLoop fuel (writeToSocket out (file.take n)) (remaining - n) (file.drop n)
    else out

/-- `perform_put` of a local file. -/
def performPut (out : Sink) (file : List UInt8) : Sink :=
  putLoop (file.length + 1) (writeToSocket out (sizeBytes file.length)) file.length file

/-- `run_client_request`, up to the point where the client stops sending. -/
def runClientRequest (out : Sink) (req : Verb) (remote : Name) (file : List UInt8) : Sink :=
  match req with
  | .list => writeToSocket out listLine
  | .get => writeToSocket out (getVerb ++ remote ++ [10])
  | .delete => writeToSocket out (deleteVerb ++ remote ++ [10])
  | .put => performPut (writeToSocket out (putVerb ++ remote ++ [10])) file

/-- What `read_server_response` ends with: a success without data, the names of a `LIST`, the
local file of a `GET`, a length error, an error message of the server, or no valid response. -/
inductive Response where
  | success
  | names (size : Nat) (text : List UInt8)
  | file (content : List UInt8)
  | badLength
  | error (message : List UInt8)
  | invalid
  deriving DecidableEq

/-- `MAX_ERROR_LEN`. -/
def maxErrorLen : Nat := 32

/-- `read_server_response`. -/
def readServerResponse (s : Source) (req : Verb) : Response :=
  let (response, s) := readFromSocket s okBytes.length
  if cString response = okBytes then
    match req with
    | .put => .success
    | .delete => .success
    | .list =>
      let (sizeField, s) := readFromSocket s 8
      let size := sizeValue sizeField
      let (buffer, _) := readFromSocket s ((size + 1) % 2 ^ 64)
      if isError buffer.length size then .badLength else .names size (cString buffer)
    | .get =>
      let (size, received, _) := readBody s
      if isError received.length size then .badLength else .file received
  else
    let (more, s) := readFromSocket s (errorBytes.length - response.length)
    let copied := cString response
    let errResponse := copied ++ List.replicate (response.length - copied.length) 0 ++ more
    if cString errResponse = errorBytes then .error (cString (readFromSocket s maxErrorLen).1)
    else .invalid

/-! ## Requests -/

theorem putLoop_spec (fuel : Nat) : ∀ (out : Sink) (file : List UInt8), file.length < fuel →
    (putLoop fuel out file.length file).bytes = out.bytes ++ file := by
  induction fuel with
  | zero =>
    intro out file hfuel
    omega
  | succ fuel ih =>
    intro out file hfuel
    rw [putLoop]
    by_cases hpos : 0 < file.length
    · obtain ⟨n, hn⟩ : ∃ n, n = getMin file.length maxHeaderLen := ⟨_, rfl⟩
      have hn' : 0 < n ∧ n ≤ file.length := by
        rw [hn, getMin_eq]
        unfold maxHeaderLen
        omega
      rw [if_pos hpos, ← hn]
      dsimp only
      rw [← List.length_drop, ih _ _ (by rw [List.length_drop]; omega), writeToSocket_spec, List.append_assoc,
        List.take_append_drop]
    · have hnil : file = [] := List.length_eq_zero_iff.mp (by omega)
      rw [if_neg hpos, hnil, List.append_nil]

/-- **The request of a `PUT`**: the header line, the size and the data. -/
theorem runClientRequest_put (out : Sink) (remote : Name) (file : List UInt8) :
    (runClientRequest out .put remote file).bytes =
      out.bytes ++ (putVerb ++ remote ++ 10 :: (sizeBytes file.length ++ file)) := by
  rw [runClientRequest, performPut, putLoop_spec _ _ _ (by omega), writeToSocket_spec,
    writeToSocket_spec]
  simp

/-- **The request of a `GET`**: the header line. -/
theorem runClientRequest_get (out : Sink) (remote : Name) (file : List UInt8) :
    (runClientRequest out .get remote file).bytes = out.bytes ++ (getVerb ++ remote ++ [10]) :=
  writeToSocket_spec _ _

/-! ## Responses -/

/-- A size field and that many bytes are received as these bytes. -/
theorem readBody_sizeBytes {s : Source} {file : List UInt8} (hlen : file.length + 1 < 2 ^ 64)
    (hs : s.bytes = sizeBytes file.length ++ file) :
    ∃ s', readBody s = (file.length, file, s') := by
  obtain ⟨s', h⟩ := readBody_spec s
  refine ⟨s', ?_⟩
  have htake : s.bytes.take 8 = sizeBytes file.length := by
    rw [hs, List.take_append_of_le_length (by simp), List.take_of_length_le (by simp)]
  have hdrop : s.bytes.drop 8 = file := by
    rw [hs, List.drop_append_of_le_length (by simp), List.drop_eq_nil_of_le (by simp),
      List.nil_append]
  rw [h, htake, hdrop, sizeValue_sizeBytes (by omega), Nat.mod_eq_of_lt hlen,
    List.take_of_length_le (by omega)]

/-- **The response to a `GET`** decodes to the file it carries. -/
theorem readServerResponse_file {s : Source} {file : List UInt8} (hlen : file.length + 1 < 2 ^ 64)
    (hs : s.bytes = okBytes ++ (sizeBytes file.length ++ file)) :
    readServerResponse s .get = .file file := by
  obtain ⟨sched, hread⟩ := readFromSocket_spec s okBytes.length
  have htake : s.bytes.take okBytes.length = okBytes := by
    rw [hs, List.take_left]
  have hdrop : s.bytes.drop okBytes.length = sizeBytes file.length ++ file := by
    rw [hs, List.drop_left]
  rw [htake, hdrop] at hread
  obtain ⟨s', hbody⟩ := readBody_sizeBytes (s := ⟨sizeBytes file.length ++ file, sched⟩) hlen rfl
  have hok : cString okBytes = okBytes := by decide
  rw [readServerResponse, hread]
  dsimp only
  rw [if_pos hok, hbody]
  simp

end SystemProgramming.Networking
