import SystemProgramming.Foundation.Run

/-!
# The chat server of `charming_chatroom/server.c`

The accept loop stores the descriptor of a new client in a free slot of `clients` and starts a
thread for the slot. The thread reads messages from its client and sends each of them to all
clients. When the client is gone it closes the descriptor, and only then takes the mutex and
clears the slot. In between, the kernel may hand out the same descriptor for the next client.

A step is what the accept loop or a thread does between two points where another one could see or
change what it works on: `accept`, taking the mutex, reading a message, one write, `close`, or the
section under the mutex that changes `clients` and `clientsCount`. Connections are numbered in the
order of their `accept`. A write to a descriptor that is open does not fail. A thread may find that
its client is gone at any time, which also covers the end of the session.

## Main definitions

* `networkSize`: the four bytes that announce a message
* `Pc`, `ServerPc`: where a thread and the accept loop are
* `World`, `Event`, `step`: the server, and what the clients receive
-/

namespace SystemProgramming.Chatroom

/-- `MAX_CLIENTS`. -/
def maxClients : Nat := 8

instance : NeZero maxClients := ⟨by decide⟩

abbrev Slot := Fin maxClients
abbrev Descriptor := Nat
abbrev Connection := Nat

/-- The bytes that `write_message_size` writes. -/
def networkSize (size : Nat) : List UInt8 :=
  [.ofNat (size / 2 ^ 24), .ofNat (size / 2 ^ 16), .ofNat (size / 2 ^ 8), .ofNat size]

/-- Where the thread of a slot is in `process_client`. `number` counts the broadcasts. -/
inductive Pc where
  /-- The slot has no thread. -/
  | idle
  /-- Before `get_message_size`. -/
  | reading
  /-- In `write_to_clients`, before the mutex. -/
  | wantWrite (message : List UInt8)
  /-- In the loop of `write_to_clients`, before the slots `rest`. -/
  | writing (number : Nat) (message : List UInt8) (rest : List Slot)
  /-- The same, after the size has been written to the slot `i`. -/
  | writingBody (number : Nat) (message : List UInt8) (i : Slot) (rest : List Slot)
  /-- Before `close`. -/
  | closing
  /-- Before the mutex, after `close`. -/
  | wantClear
  /-- With the mutex, before the slot is cleared. -/
  | clearing
  deriving DecidableEq

/-- Where the accept loop is. -/
inductive ServerPc where
  | accepting
  /-- Before the mutex, with the descriptor of a new client. -/
  | wantRegister (fd : Descriptor)
  /-- With the mutex. -/
  | registering (fd : Descriptor)
  deriving DecidableEq

/-- Who holds the mutex. -/
inductive Thread where
  | server
  | client (i : Slot)
  deriving DecidableEq

/-- The server, the open descriptors with their connections, and what each connection has
received, with the numbers of the broadcasts. -/
structure World where
  /-- `none` is `-1`. -/
  clients : Slot → Option Descriptor
  clientsCount : Int
  mutex : Option Thread
  server : ServerPc
  pc : Slot → Pc
  table : Descriptor → Option Connection
  connections : Nat
  broadcasts : Nat
  received : Connection → List (Nat × List UInt8)

/-- What happens next. -/
inductive Event where
  /-- `accept` returns a descriptor. -/
  | accept (fd : Descriptor)
  /-- The accept loop goes on. -/
  | serve
  /-- A thread reads a message. -/
  | message (i : Slot) (message : List UInt8)
  /-- A thread finds that its client is gone. -/
  | gone (i : Slot)
  /-- A thread goes on. -/
  | work (i : Slot)

/-- `close`. -/
def World.close (w : World) (fd : Descriptor) : World :=
  { w with table := Function.update w.table fd none }

/-- `write_all_to_socket`, for the broadcast `number`. Nothing happens if the descriptor is not
open. -/
def World.write (w : World) (number : Nat) (bytes : List UInt8) (fd : Descriptor) : World :=
  match w.table fd with
  | none => w
  | some c => { w with received := Function.update w.received c (w.received c ++ [(number, bytes)]) }

/-- The section of the accept loop under the mutex. -/
def World.register (w : World) (fd : Descriptor) : World :=
  if w.clientsCount = maxClients then
    { w.close fd with mutex := none, server := .accepting }
  else
    match (List.finRange maxClients).find? fun id => (w.clients id).isNone with
    | none => { w with clientsCount := w.clientsCount + 1, mutex := none, server := .accepting }
    | some id =>
      { w with clientsCount := w.clientsCount + 1
               clients := Function.update w.clients id (some fd)
               pc := Function.update w.pc id .reading
               mutex := none
               server := .accepting }

/-- The accept loop goes on. -/
def serve (w : World) : Option World :=
  match w.server with
  | .accepting => none
  | .wantRegister fd =>
    if w.mutex.isSome then none
    else some { w with mutex := some .server, server := .registering fd }
  | .registering fd => some (w.register fd)

/-- A thread goes on. -/
def work (w : World) (i : Slot) : Option World :=
  match w.pc i with
  | .idle => none
  | .reading => none
  | .wantWrite message =>
    if w.mutex.isSome then none
    else some { w with mutex := some (.client i)
                       pc := Function.update w.pc i
                        (.writing w.broadcasts message (List.finRange maxClients))
                       broadcasts := w.broadcasts + 1 }
  | .writing _ _ [] => some { w with mutex := none, pc := Function.update w.pc i .reading }
  | .writing number message (j :: rest) =>
    match w.clients j with
    | none => some { w with pc := Function.update w.pc i (.writing number message rest) }
    | some fd =>
      -- the message follows only if the size has been written
      if (w.table fd).isNone then
        some { w with pc := Function.update w.pc i (.writing number message rest) }
      else
        some { w.write number (networkSize message.length) fd with
                pc := Function.update w.pc i (.writingBody number message j rest) }
  | .writingBody number message j rest =>
    match w.clients j with
    | none => some { w with pc := Function.update w.pc i (.writing number message rest) }
    | some fd =>
      some { w.write number message fd with
              pc := Function.update w.pc i (.writing number message rest) }
  | .closing =>
    match w.clients i with
    | none => some { w with pc := Function.update w.pc i .wantClear }
    | some fd => some { w.close fd with pc := Function.update w.pc i .wantClear }
  | .wantClear =>
    if w.mutex.isSome then none
    else some { w with mutex := some (.client i), pc := Function.update w.pc i .clearing }
  | .clearing =>
    some { w with clients := Function.update w.clients i none
                  clientsCount := w.clientsCount - 1
                  mutex := none
                  pc := Function.update w.pc i .idle }

/-- One event. -/
def step (w : World) : Event → Option World
  | .accept fd =>
    if w.server = .accepting ∧ w.table fd = none then
      some { w with server := .wantRegister fd
                    table := Function.update w.table fd (some w.connections)
                    connections := w.connections + 1 }
    else none
  | .serve => serve w
  | .message i message =>
    if w.pc i = .reading ∧ message ≠ [] then
      some { w with pc := Function.update w.pc i (.wantWrite message) }
    else none
  | .gone i =>
    if w.pc i = .reading then some { w with pc := Function.update w.pc i .closing } else none
  | .work i => work w i

/-- No client yet. -/
def World.start : World :=
  ⟨fun _ => none, 0, none, .accepting, fun _ => .idle, fun _ => none, 0, 0, fun _ => []⟩

end SystemProgramming.Chatroom
