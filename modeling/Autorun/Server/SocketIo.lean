import Autorun.Lib.Run

namespace Autorun.Server.SocketIo

inductive Direction
  | read
  | write
deriving DecidableEq

inductive State
  /-- The client is trying it now. -/
  | direct
  /-- Waiting for its socket to be ready. -/
  | queued
  /-- A thread runs it at its next wait. -/
  | ready
  /-- A thread has the APC and has not answered yet. -/
  | running
deriving DecidableEq

inductive Kind
  | io
  | accept
  | acceptInto (sock : Nat)
deriving DecidableEq

inductive Status
  /-- The operation is to be done now. -/
  | alerted
  | pending
  | cancelled
  | handlesClosed
  | other (code : Nat)
deriving DecidableEq

/-- The bytes that have an order: one direction of one socket. -/
structure Stream where
  socket : Nat
  direction : Direction
deriving DecidableEq

/-- `struct horizon_async`, cut to what decides which operation is tried when. `op` is the client's
own pointer to the operation, numbered in the order of the starts; `sock` is the handle it was
started with, `socket` the socket that handle named. -/
structure Async where
  op : Nat
  socket : Nat
  id : BitVec 32
  apcId : BitVec 32 := 0
  ownerTid : Nat
  sock : Nat
  direction : Direction
  state : State := .direct
  pending : Bool := false
  iosb : Nat
  status : Status := .alerted
  readyAt : UInt64 := 0
  kind : Kind
deriving DecidableEq

def Async.stream (a : Async) : Stream := ⟨a.socket, a.direction⟩

/-- `horizon_async_new_id`, and the ids of system APCs. -/
def newId (last : BitVec 32) : BitVec 32 := if last + 1 = 0 then 1 else last + 1

def asyncAdd (list : List Async) (a : Async) : List Async := list ++ [a]

def asyncRemove (list : List Async) (op : Nat) : List Async := list.filter (·.op ≠ op)

/-- A write to one operation of the list. -/
def asyncSet (list : List Async) (op : Nat) (f : Async → Async) : List Async :=
  list.map fun a => if a.op = op then f a else a

def asyncFindId (list : List Async) (id : BitVec 32) : Option Async :=
  if id = 0 then none else list.find? (·.id = id)

def asyncFindApc (list : List Async) (apcId : BitVec 32) : Option Async :=
  if apcId = 0 then none else list.find? fun a => a.state = .running ∧ a.apcId = apcId

/-- `horizon_async_ready` on one operation. -/
def Async.makeReady (status : Status) (now : UInt64) (a : Async) : Async :=
  { a with state := .ready, status, readyAt := now }

def stale : UInt64 := 200000

def asyncReadyFor (list : List Async) (tid : Nat) (now : UInt64) : Option Async :=
  (list.find? fun a => a.state = .ready ∧ a.ownerTid = tid).or
    (list.find? fun a => a.state = .ready ∧ now - a.readyAt ≥ stale)

def asyncNextQueued (sock : Nat) (direction : Direction) : List Async → Option Async
  | [] => none
  | a :: list =>
    if a.sock ≠ sock ∨ a.direction ≠ direction then asyncNextQueued sock direction list
    else match a.state with
      | .queued => some a
      | .ready | .running => none
      | .direct => asyncNextQueued sock direction list

/-- Which operations `horizon_async_cancel` ends. -/
def Async.cancels (sock iosb tid : Nat) (a : Async) : Prop :=
  (a.sock = sock ∨ a.kind = .acceptInto sock) ∧ (iosb = 0 ∨ a.iosb = iosb) ∧ (tid = 0 ∨ a.ownerTid = tid) ∧
    (a.state = .queued ∨ a.state = .ready)

instance (sock iosb tid : Nat) (a : Async) : Decidable (a.cancels sock iosb tid) :=
  inferInstanceAs (Decidable (_ ∧ _ ∧ _ ∧ _))

def asyncCancel (list : List Async) (sock iosb tid : Nat) (now : UInt64) (closing : Bool) : List Async :=
  list.map fun a =>
    if a.cancels sock iosb tid then
      a.makeReady (if closing ∧ a.kind = .io then .handlesClosed else .cancelled) now
    else a

/-- What the descriptors say of a socket, and what came of an accept on it: nothing yet, or how it
ended. -/
structure Polled where
  ready : Direction → Bool
  accepted : Option Status := none

/-- One direction of `horizon_sock_poll_asyncs_locked`. -/
def pollDirection (list : List Async) (sock : Nat) (polled : Polled) (now : UInt64) (direction : Direction) :
    List Async :=
  match asyncNextQueued sock direction list with
  | none => list
  | some a =>
    if polled.ready direction then
      if a.kind = .io then asyncSet list a.op (Async.makeReady .alerted now)
      else match polled.accepted with
        | some status => asyncSet list a.op (Async.makeReady status now)
        | none => list
    else list

/-- `horizon_sock_poll_asyncs_locked`. -/
def pollAsyncs (list : List Async) (sock : Nat) (polled : Polled) (now : UInt64) : List Async :=
  [Direction.read, .write].foldl (pollDirection · sock polled now) list

/-- The sockets `horizon_sock_poll_all_asyncs_locked` looks at: as many as its array holds. -/
def pollHandles : List Async → List Nat → List Nat
  | [], handles => handles
  | a :: list, handles =>
    if handles.length < 64 then
      pollHandles list (if a.state = .queued ∧ a.sock ∉ handles then handles ++ [a.sock] else handles)
    else handles

/-- `horizon_sock_poll_all_asyncs_locked`. `watch` has nothing for a handle without a socket or a
socket without a descriptor. -/
def pollAllAsyncs (list : List Async) (watch : Nat → Option Polled) (now : UInt64) : List Async :=
  (pollHandles list []).foldl (fun list sock =>
    match watch sock with
    | some polled => pollAsyncs list sock polled now
    | none => list) list

/-- The server's side of `set_async_direct_result`. -/
def setAsyncDirectResult (list : List Async) (handle : BitVec 32) (status : Status) : List Async :=
  match asyncFindId list handle with
  | none => list
  | some a =>
    if a.state = .direct then
      if status = .pending then asyncSet list a.op fun a => { a with state := .queued, pending := true }
      else asyncRemove list a.op
    else list

/-- `horizon_server_async_result_locked`. A message too short for a result counts as pending. -/
def asyncResult (list : List Async) (prevApc : BitVec 32) (status : Option Status) : List Async :=
  match asyncFindApc list prevApc with
  | none => list
  | some a =>
    if status.getD .pending = .pending then
      asyncSet list a.op fun a => { a with apcId := 0, state := .queued, status := .alerted }
    else asyncRemove list a.op

/-- A client that was told ALERTED and tries the operation on the descriptor: `outcome` is whether
that would block, once it is tried, and `force` whether it then reports PENDING. -/
structure Try where
  op : Nat
  token : BitVec 32
  stream : Stream
  force : Bool
  outcome : Option Bool := none
deriving DecidableEq

/-- What `sock_recv` and `sock_send` report of the try. -/
def Try.reported (t : Try) (code : Nat) : Status :=
  if t.outcome = some true ∧ t.force then .pending else .other code

/-- A client that has the APC of an operation. -/
structure Call where
  op : Nat
  apcId : BitVec 32
  stream : Stream
  sock : Nat
  kind : Kind
  status : Status
  outcome : Option Bool := none
deriving DecidableEq

/-- What `async_recv_proc` and `async_send_proc` make of the APC. -/
def Call.reported (c : Call) (code : Nat) : Status :=
  if c.status ≠ .alerted then c.status
  else if c.kind = .io ∧ c.outcome = some true then .pending
  else .other code

/-- Bytes moved for an operation, past the operations that `overtaken` names. -/
structure Transfer where
  op : Nat
  stream : Stream
  bytes : Nat
  overtaken : List Nat
deriving DecidableEq

/-- The server's list, the clients, and the transfers, the latest first. -/
structure Sockets where
  asyncs : List Async := []
  nextId : BitVec 32 := 0
  apcIds : BitVec 32 := 0
  started : Nat := 0
  trying : List Try := []
  calls : List Call := []
  log : List Transfer := []

inductive Label
  /-- `recv_socket` or `send_socket`, if the async finds memory or not. -/
  | start (tid sock socket : Nat) (direction : Direction) (iosb : Nat) (force memory : Bool)
  /-- An accept that waits. -/
  | accept (tid sock socket iosb : Nat) (into : Option Nat)
  /-- The client's `recvmsg` or `sendmsg`. -/
  | attempt (op bytes : Nat) (blocked : Bool)
  | directResult (op code : Nat)
  | poll (now : UInt64) (watch : Nat → Option Polled)
  /-- A thread's select hands it an operation. -/
  | handOver (tid : Nat) (now : UInt64)
  /-- The `recvmsg` or `sendmsg` of an APC. -/
  | call (op bytes : Nat) (blocked : Bool)
  | callResult (op code : Nat)
  | cancel (sock iosb tid : Nat) (now : UInt64) (closing : Bool)

/-- An operation that was told PENDING and waits. -/
def Async.waiting (a : Async) : Prop :=
  a.kind = .io ∧ (a.state = .queued ∨ (a.state = .ready ∧ a.status = .alerted))

instance (a : Async) : Decidable a.waiting := inferInstanceAs (Decidable (_ ∧ (_ ∨ (_ ∧ _))))

/-- Those that wait on the stream and were started before. -/
def Sockets.overtaken (s : Sockets) (op : Nat) (stream : Stream) : List Nat :=
  (s.asyncs.filter fun a => a.waiting ∧ a.stream = stream ∧ a.op < op).map Async.op

/-- The bytes one `recvmsg` or `sendmsg` moved. -/
def Sockets.move (s : Sockets) (op : Nat) (stream : Stream) (bytes : Nat) : Sockets :=
  if bytes = 0 then s else { s with log := ⟨op, stream, bytes, s.overtaken op stream⟩ :: s.log }

def Sockets.step (s : Sockets) : Label → Sockets
  | .start tid sock socket direction iosb force memory =>
    -- `reply.wait` is 1 for an operation the server does not keep
    let token := if memory then newId s.nextId else 1
    let client : Try := { op := s.started, token, stream := ⟨socket, direction⟩, force }
    { s with
      asyncs := if memory then asyncAdd s.asyncs
        { op := s.started, socket, id := token, ownerTid := tid, sock, direction, iosb, kind := .io }
        else s.asyncs
      nextId := if memory then token else s.nextId
      started := s.started + 1
      trying := s.trying ++ [client] }
  | .accept tid sock socket iosb into =>
    { s with
      asyncs := asyncAdd s.asyncs
        { op := s.started, socket, id := newId s.nextId, ownerTid := tid, sock, direction := .read, iosb,
          state := .queued, pending := true, kind := into.elim .accept .acceptInto }
      nextId := newId s.nextId
      started := s.started + 1 }
  | .attempt op bytes blocked =>
    match s.trying.find? fun t => t.op = op ∧ t.outcome = none with
    | none => s
    | some t =>
      let s := s.move op t.stream bytes
      { s with trying := s.trying.map fun t => if t.op = op then { t with outcome := some blocked } else t }
  | .directResult op code =>
    match s.trying.find? fun t => t.op = op ∧ t.outcome ≠ none with
    | none => s
    | some t =>
      { s with
        trying := s.trying.filter (·.op ≠ op)
        asyncs := setAsyncDirectResult s.asyncs t.token (t.reported code) }
  | .poll now watch => { s with asyncs := pollAllAsyncs s.asyncs watch now }
  | .handOver tid now =>
    match asyncReadyFor s.asyncs tid now with
    | none => s
    | some a =>
      let apcId := newId s.apcIds
      { s with
        apcIds := apcId
        asyncs := asyncSet s.asyncs a.op fun a => { a with state := .running, apcId }
        calls := s.calls ++ [⟨a.op, apcId, a.stream, a.sock, a.kind, a.status, none⟩] }
  | .call op bytes blocked =>
    match s.calls.find? fun c => c.op = op ∧ c.kind = .io ∧ c.status = .alerted ∧ c.outcome = none with
    | none => s
    | some c =>
      let s := s.move op c.stream bytes
      { s with calls := s.calls.map fun c => if c.op = op then { c with outcome := some blocked } else c }
  | .callResult op code =>
    match s.calls.find? (·.op = op) with
    | none => s
    | some c =>
      { s with
        calls := s.calls.filter (·.op ≠ op)
        asyncs := asyncResult s.asyncs c.apcId (some (c.reported code)) }
  | .cancel sock iosb tid now closing => { s with asyncs := asyncCancel s.asyncs sock iosb tid now closing }

end Autorun.Server.SocketIo
