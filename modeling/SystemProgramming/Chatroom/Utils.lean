import SystemProgramming.Chatroom.Server
import SystemProgramming.Networking.Common

/-!
# Messages on the wire

A message goes over the wire as its length and its bytes. The length is swapped to network order
in a `size_t`, of which the first four bytes are sent; it comes back through an `int32_t`. The
transfer loops of `charming_chatroom/utils.c` are those of `nonstop_networking`; here the count
may be as large as an `int`, so the conversion of the remaining bytes to `int` is written out. The
host is little-endian, and the loops carry fuel, enough for the schedule of the socket.

## Main definitions

* `readAllFromSocket`, `writeAllToSocket`: the transfer loops
* `htonl`, `writeMessageSize`, `getMessageSize`: the length
* `sendMessages`, `readFromServer`: what a sender and a receiver do

## Main results

* `readAllLoop_eq`, `writeAllLoop_spec`: counts that fit an `int` are transferred as a whole
* `sizeField_eq_networkSize`: the length field is the length in network order
* `messages_round_trip`: the receiver gets the messages that were sent
-/

namespace SystemProgramming.Chatroom

/-- An `int` passed as a `size_t`. -/
def intArgument (n : Nat) : Nat :=
  if n % 2 ^ 32 < 2 ^ 31 then n % 2 ^ 32 else 2 ^ 64 - 2 ^ 32 + n % 2 ^ 32

theorem intArgument_of_lt {n : Nat} (h : n < 2 ^ 31) : intArgument n = n := by
  have hmod : n % 2 ^ 32 = n := Nat.mod_eq_of_lt (by omega)
  rw [intArgument, hmod, if_pos h]

/-! ## The transfer loops -/

/-- The loop of `read_all_from_socket`, with the bytes read so far. -/
def readAllLoop : Nat → Source → Nat → List UInt8 → List UInt8 × Source
  | 0, s, _, buffer => (buffer, s)
  | fuel + 1, s, count, buffer =>
    if buffer.length < count then
      match s.read (intArgument (count - buffer.length)) with
      | (none, s) => readAllLoop fuel s count buffer
      | (some [], s) => (buffer, s)
      | (some newlyRead, s) => readAllLoop fuel s count (buffer ++ newlyRead)
    else (buffer, s)

/-- `read_all_from_socket`: the bytes read. -/
def readAllFromSocket (s : Source) (count : Nat) : List UInt8 × Source :=
  readAllLoop (count + s.sched.length + 1) s count []

/-- The loop of `write_all_to_socket`, with the count of bytes written. -/
def writeAllLoop : Nat → Sink → List UInt8 → Nat → Nat × Sink
  | 0, s, _, bytesWrote => (bytesWrote, s)
  | fuel + 1, s, buffer, bytesWrote =>
    if bytesWrote < buffer.length then
      match s.write ((buffer.drop bytesWrote).take (intArgument (buffer.length - bytesWrote))) with
      | (none, s) => writeAllLoop fuel s buffer bytesWrote
      | (some 0, s) => (bytesWrote, s)
      | (some newlyWrote, s) => writeAllLoop fuel s buffer (bytesWrote + newlyWrote)
    else (bytesWrote, s)

/-- `write_all_to_socket`: the count of bytes written. -/
def writeAllToSocket (s : Sink) (buffer : List UInt8) : Nat × Sink :=
  writeAllLoop (buffer.length + s.sched.length + 1) s buffer 0

/-- Counts that fit an `int` are asked for as they are. -/
theorem readAllLoop_eq {count : Nat} (hcount : count < 2 ^ 31) (fuel : Nat) :
    ∀ (s : Source) (buffer : List UInt8),
      readAllLoop fuel s count buffer = Networking.readLoop fuel s count buffer := by
  induction fuel with
  | zero => exact fun _ _ => rfl
  | succ fuel ih =>
    intro s buffer
    rw [readAllLoop, Networking.readLoop, intArgument_of_lt (by omega)]
    split_ifs
    · rcases s.read (count - buffer.length) with ⟨_ | _ | ⟨b, bs⟩, s⟩
      · exact ih s buffer
      · rfl
      · exact ih s (buffer ++ b :: bs)
    · rfl

/-- **`read_all_from_socket`** reads as many bytes as asked for, or up to the end. -/
theorem readAllFromSocket_spec (s : Source) {count : Nat} (hcount : count < 2 ^ 31) :
    ∃ sched, readAllFromSocket s count = (s.bytes.take count, ⟨s.bytes.drop count, sched⟩) := by
  rw [readAllFromSocket, readAllLoop_eq hcount]
  exact Networking.readFromSocket_spec s count

theorem writeAllLoop_spec {buffer : List UInt8} (hlen : buffer.length < 2 ^ 31) (fuel : Nat) :
    ∀ (s : Sink) (bytesWrote : Nat), bytesWrote ≤ buffer.length →
      buffer.length - bytesWrote + s.sched.length < fuel →
      ∃ sched, writeAllLoop fuel s buffer bytesWrote =
        (buffer.length, ⟨s.bytes ++ buffer.drop bytesWrote, sched⟩) := by
  induction fuel with
  | zero =>
    intro s bytesWrote _ hfuel
    omega
  | succ fuel ih =>
    intro s bytesWrote hle hfuel
    rw [writeAllLoop]
    split_ifs with hlt
    · have harg : (buffer.drop bytesWrote).take (intArgument (buffer.length - bytesWrote)) =
          buffer.drop bytesWrote := by
        rw [intArgument_of_lt (by omega)]
        exact List.take_of_length_le (by rw [List.length_drop])
      rw [harg]
      rcases @Sink.write_cases s (buffer.drop bytesWrote) (by simpa using hlt) with
        ⟨rest, hwrite, hrest⟩ | ⟨m, rest, hm, hmn, hwrite, hrest⟩
      · rw [hwrite]
        exact ih ⟨s.bytes, rest⟩ bytesWrote hle (by dsimp only; omega)
      · rw [hwrite]
        obtain ⟨m, rfl⟩ := Nat.exists_eq_succ_of_ne_zero hm.ne'
        rw [List.length_drop] at hmn
        obtain ⟨sched, hrec⟩ := ih ⟨s.bytes ++ (buffer.drop bytesWrote).take (m + 1), rest⟩
          (bytesWrote + (m + 1)) (by omega) (by dsimp only; omega)
        refine ⟨sched, hrec.trans ?_⟩
        have hsplit : (buffer.drop bytesWrote).take (m + 1) ++ buffer.drop (bytesWrote + (m + 1)) =
            buffer.drop bytesWrote := by
          rw [← List.drop_drop, List.take_append_drop]
        rw [List.append_assoc, hsplit]
    · have heq : bytesWrote = buffer.length := by omega
      refine ⟨s.sched, ?_⟩
      rw [heq, List.drop_length, List.append_nil]

/-- **`write_all_to_socket`** writes the whole buffer. -/
theorem writeAllToSocket_spec (s : Sink) {buffer : List UInt8} (hlen : buffer.length < 2 ^ 31) :
    ∃ sched, writeAllToSocket s buffer = (buffer.length, ⟨s.bytes ++ buffer, sched⟩) := by
  obtain ⟨sched, h⟩ := writeAllLoop_spec hlen (buffer.length + s.sched.length + 1) s 0 (by omega)
    (by omega)
  exact ⟨sched, by simpa [writeAllToSocket] using h⟩

/-! ## The length -/

/-- `htonl`, and `ntohl`: a 32-bit word with its bytes in the opposite order. -/
def htonl (x : Nat) : Nat :=
  x % 2 ^ 8 * 2 ^ 24 + x / 2 ^ 8 % 2 ^ 8 * 2 ^ 16 + x / 2 ^ 16 % 2 ^ 8 * 2 ^ 8 + x / 2 ^ 24 % 2 ^ 8

theorem htonl_lt (x : Nat) : htonl x < 2 ^ 32 := by
  unfold htonl
  omega

/-- A word is made of its four bytes. -/
theorem exists_bytes {x : Nat} (h : x < 2 ^ 32) : ∃ a b c d : Nat, a < 256 ∧ b < 256 ∧ c < 256 ∧
    d < 256 ∧ x = a + 256 * b + 65536 * c + 16777216 * d :=
  ⟨x % 256, x / 256 % 256, x / 65536 % 256, x / 16777216, by omega, by omega, by omega, by omega,
    by omega⟩

/-- The shifts of a word made of four bytes. -/
theorem div_bytes {a b c d : Nat} (ha : a < 256) (hb : b < 256) (hc : c < 256) :
    (a + 256 * b + 65536 * c + 16777216 * d) / 256 = b + 256 * c + 65536 * d ∧
      (a + 256 * b + 65536 * c + 16777216 * d) / 65536 = c + 256 * d ∧
      (a + 256 * b + 65536 * c + 16777216 * d) / 16777216 = d := by
  omega

theorem htonl_bytes {a b c d : Nat} (ha : a < 256) (hb : b < 256) (hc : c < 256) (hd : d < 256) :
    htonl (a + 256 * b + 65536 * c + 16777216 * d) = d + 256 * c + 65536 * b + 16777216 * a := by
  have h₁ : (a + 256 * b + 65536 * c + 16777216 * d) % 2 ^ 8 = a := by omega
  have h₂ : (a + 256 * b + 65536 * c + 16777216 * d) / 2 ^ 8 % 2 ^ 8 = b := by omega
  have h₃ : (a + 256 * b + 65536 * c + 16777216 * d) / 2 ^ 16 % 2 ^ 8 = c := by omega
  have h₄ : (a + 256 * b + 65536 * c + 16777216 * d) / 2 ^ 24 % 2 ^ 8 = d := by omega
  rw [htonl, h₁, h₂, h₃, h₄]
  omega

/-- Swapping twice gives the word back. -/
theorem htonl_htonl {x : Nat} (h : x < 2 ^ 32) : htonl (htonl x) = x := by
  obtain ⟨a, b, c, d, ha, hb, hc, hd, rfl⟩ := exists_bytes h
  rw [htonl_bytes ha hb hc hd, htonl_bytes hd hc hb ha]

/-- The four bytes sent of the variable `network_size`. -/
def sizeField (size : Nat) : List UInt8 := (Memory.zero.store 0 8 (htonl size)).read 0 4

/-- `write_message_size`. -/
def writeMessageSize (size : Nat) (s : Sink) : Nat × Sink := writeAllToSocket s (sizeField size)

/-- `get_message_size`. The variable `size` holds `scratch` before it is read into. -/
def getMessageSize (scratch : List UInt8) (s : Source) : Nat × Source :=
  let (bytes, s) := readAllFromSocket s 4
  if bytes.length = 0 then (0, s)
  else (htonl ((Memory.ofList (bytes ++ scratch.drop bytes.length)).load 0 4), s)

@[simp] theorem length_sizeField (size : Nat) : (sizeField size).length = 4 := by
  simp [sizeField]

/-- The length field is the length in network order. -/
theorem sizeField_eq_networkSize {size : Nat} (h : size < 2 ^ 32) :
    sizeField size = networkSize size := by
  obtain ⟨a, b, c, d, ha, hb, hc, hd, rfl⟩ := exists_bytes h
  have hbyte : ∀ m n : Nat, m % 256 = n % 256 → UInt8.ofNat m = UInt8.ofNat n := fun m n hmn => by
    apply UInt8.toNat_inj.mp
    simpa using hmn
  obtain ⟨h₁, h₂, h₃⟩ := @div_bytes a b c d ha hb hc
  obtain ⟨g₁, g₂, g₃⟩ := @div_bytes d c b a hd hc hb
  rw [sizeField, htonl_bytes ha hb hc hd]
  simp only [networkSize, Memory.read, Memory.store, List.range_succ, List.range_zero,
    List.nil_append, List.cons_append, List.map_cons, List.map_nil, List.cons.injEq, and_true]
  refine ⟨hbyte _ _ ?_, hbyte _ _ ?_, hbyte _ _ ?_, hbyte _ _ ?_⟩
  all_goals
    norm_num [h₁, h₂, h₃, g₁, g₂, g₃]
    omega

/-- The length that was sent. -/
theorem load_sizeField {size : Nat} (h : size < 2 ^ 32) (rest : List UInt8) :
    htonl ((Memory.ofList (sizeField size ++ rest)).load 0 4) = size := by
  have hload : (Memory.ofList (sizeField size ++ rest)).load 0 4 =
      (Memory.zero.store 0 8 (htonl size)).load 0 4 := by
    refine Memory.load_congr fun b _ hb => ?_
    have hget := Memory.getElem?_read (Memory.zero.store 0 8 (htonl size)) 0 4 b
    rw [if_pos (by omega)] at hget
    rw [Memory.ofList, List.getD_eq_getElem?_getD, List.getElem?_append_left (by simp; omega),
      sizeField, hget, Option.getD_some, Nat.zero_add]
  have hlt := htonl_lt size
  have hfield : (Memory.zero.store 0 8 (htonl size)).load 0 4 = (Memory.zero.store 0 4 (htonl size)).load 0 4 :=
    Memory.load_congr fun b _ hb => by
      rw [Memory.store, Memory.store, if_pos (by omega), if_pos (by omega)]
  rw [hload, hfield, Memory.load_store_of_lt _ _ (by omega), htonl_htonl h]

/-! ## Messages -/

/-- One message of `write_to_server`. -/
def sendMessage (s : Sink) (message : List UInt8) : Sink :=
  let (retval, s) := writeMessageSize message.length s
  if 0 < retval then (writeAllToSocket s message).2 else s

/-- The messages of a sender, one after the other. -/
def sendMessages (s : Sink) (messages : List (List UInt8)) : Sink := messages.foldl sendMessage s

/-- The loop of `read_from_server`: the buffers it shows, and the value that ends it. A buffer comes
from `calloc`. -/
def readLoop (scratch : List UInt8) : Nat → Source → Option (List (List UInt8) × Nat)
  | 0, _ => none
  | fuel + 1, s =>
    let (retval, s) := getMessageSize scratch s
    if 0 < retval then
      let (bytes, s) := readAllFromSocket s retval
      if 0 < bytes.length then
        (readLoop scratch fuel s).map fun (messages, last) =>
          ((bytes ++ List.replicate (retval - bytes.length) 0) :: messages, last)
      else some ([], bytes.length)
    else some ([], retval)

/-- `read_from_server`. A message takes at least one byte of the stream. -/
def readFromServer (scratch : List UInt8) (s : Source) : Option (List (List UInt8) × Nat) :=
  readLoop scratch (s.bytes.length + 1) s

/-- What a message looks like on the wire. -/
def wire (message : List UInt8) : List UInt8 := sizeField message.length ++ message

theorem sendMessage_spec (s : Sink) {message : List UInt8} (hlen : message.length < 2 ^ 31) :
    (sendMessage s message).bytes = s.bytes ++ wire message := by
  obtain ⟨sched, hsize⟩ := @writeAllToSocket_spec s (sizeField message.length)
    (by rw [length_sizeField]; norm_num)
  obtain ⟨sched', hbody⟩ := writeAllToSocket_spec ⟨s.bytes ++ sizeField message.length, sched⟩ hlen
  rw [sendMessage, writeMessageSize, hsize]
  dsimp only
  rw [if_pos (by rw [length_sizeField]; norm_num), hbody, wire, List.append_assoc]

theorem sendMessages_spec {messages : List (List UInt8)}
    (hlen : ∀ m ∈ messages, m.length < 2 ^ 31) (s : Sink) :
    (sendMessages s messages).bytes = s.bytes ++ messages.flatMap wire := by
  induction messages generalizing s with
  | nil => simp [sendMessages]
  | cons m messages ih =>
    have hrec := ih (fun m' hm' => hlen m' (by simp [hm'])) (sendMessage s m)
    rw [sendMessages] at hrec ⊢
    rw [List.foldl_cons, hrec, sendMessage_spec s (hlen m (by simp)), List.flatMap_cons,
      List.append_assoc]

/-- The length of the next message. -/
theorem getMessageSize_spec (scratch : List UInt8) {s : Source} {message rest : List UInt8}
    (hs : s.bytes = wire message ++ rest) (hlen : message.length < 2 ^ 31) :
    ∃ sched, getMessageSize scratch s = (message.length, ⟨message ++ rest, sched⟩) := by
  obtain ⟨sched, hread⟩ := readAllFromSocket_spec s (show 4 < 2 ^ 31 by norm_num)
  have htake : s.bytes.take 4 = sizeField message.length := by
    rw [hs, wire, List.append_assoc]
    exact List.take_left' (length_sizeField _)
  have hdrop : s.bytes.drop 4 = message ++ rest := by
    rw [hs, wire, List.append_assoc]
    exact List.drop_left' (length_sizeField _)
  refine ⟨sched, ?_⟩
  rw [getMessageSize, hread, htake, hdrop]
  dsimp only
  rw [if_neg (by rw [length_sizeField]; norm_num), load_sizeField (by omega)]

/-- The end of the stream. -/
theorem getMessageSize_nil (scratch : List UInt8) {s : Source} (hs : s.bytes = []) :
    ∃ s', getMessageSize scratch s = (0, s') := by
  obtain ⟨sched, hread⟩ := readAllFromSocket_spec s (show 4 < 2 ^ 31 by norm_num)
  refine ⟨⟨[], sched⟩, ?_⟩
  rw [getMessageSize, hread, hs]
  rfl

/-- The messages of a stream, each of them taken off its front. -/
theorem readLoop_spec (scratch : List UInt8) {messages : List (List UInt8)}
    (hlen : ∀ m ∈ messages, 0 < m.length ∧ m.length < 2 ^ 31) :
    ∀ (fuel : Nat) (s : Source), s.bytes = messages.flatMap wire → messages.length < fuel →
      readLoop scratch fuel s = some (messages, 0) := by
  induction messages with
  | nil =>
    intro fuel s hs hfuel
    obtain ⟨fuel, rfl⟩ := Nat.exists_eq_succ_of_ne_zero (by omega : fuel ≠ 0)
    obtain ⟨s', hsize⟩ := getMessageSize_nil scratch hs
    rw [readLoop, hsize]
    rfl
  | cons m messages ih =>
    intro fuel s hs hfuel
    obtain ⟨fuel, rfl⟩ := Nat.exists_eq_succ_of_ne_zero (by omega : fuel ≠ 0)
    obtain ⟨hpos, hlt⟩ := hlen m (by simp)
    rw [List.flatMap_cons] at hs
    obtain ⟨sched, hsize⟩ := getMessageSize_spec scratch hs hlt
    obtain ⟨sched', hbody⟩ := readAllFromSocket_spec ⟨m ++ messages.flatMap wire, sched⟩ hlt
    rw [List.take_left, List.drop_left] at hbody
    have hrec := ih (fun m' hm' => hlen m' (by simp [hm'])) fuel ⟨messages.flatMap wire, sched'⟩ rfl
      (by simp only [List.length_cons] at hfuel; omega)
    rw [readLoop, hsize]
    dsimp only
    rw [if_pos hpos, hbody]
    dsimp only
    rw [if_pos hpos, hrec, Nat.sub_self, List.replicate_zero, List.append_nil, Option.map_some]

/-- **Messages** come back as they were sent, in order, and then the end of the stream, however
the sending and the receiving calls were interrupted or cut short. -/
theorem messages_round_trip {messages : List (List UInt8)}
    (hlen : ∀ m ∈ messages, 1 ≤ m.length ∧ m.length ≤ 2 ^ 31 - 1) (sending receiving : List Sys)
    (scratch : List UInt8) :
    readFromServer scratch ⟨(sendMessages ⟨[], sending⟩ messages).bytes, receiving⟩ =
      some (messages, 0) := by
  have hbytes := sendMessages_spec (fun m hm => by have := hlen m hm; omega) ⟨[], sending⟩
  rw [hbytes, List.nil_append]
  refine readLoop_spec scratch (fun m hm => by have := hlen m hm; omega) _ _ rfl ?_
  -- every message takes some bytes of the stream
  have hshort : ∀ ms : List (List UInt8), ms.length ≤ (ms.flatMap wire).length := by
    intro ms
    induction ms with
    | nil => simp
    | cons m ms ih =>
      rw [List.flatMap_cons, List.length_append, List.length_cons, wire, List.length_append,
        length_sizeField]
      omega
  exact Nat.lt_succ_of_le (hshort messages)

theorem messages_round_trip_greeting :
    readFromServer [] ⟨(sendMessages ⟨[], [.part 0, .eintr]⟩ [[104, 105], [33]]).bytes,
      [.eintr, .part 2]⟩ = some ([[104, 105], [33]], 0) :=
  messages_round_trip (by simp) _ _ _

end SystemProgramming.Chatroom
