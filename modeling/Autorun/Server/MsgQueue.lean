import Mathlib.Tactic.Simps.Basic

namespace Autorun.Server.MsgQueue

/-- A map with one entry changed. -/
def put (f : Nat → Option α) (k : Nat) (v : Option α) : Nat → Option α :=
  fun i => if i = k then v else f i

inductive Kind
  | ascii
  | unicode
  | notify
  | callback
  | callbackResult
  | otherProcess
deriving DecidableEq

inductive Status
  | success
  | timeout
  | pending
  | invalidParameter
  | noMemory
  | accessDenied
  /-- Whatever error a reply carries. -/
  | other (code : Nat)
deriving DecidableEq

abbrev QS_SENDMESSAGE : BitVec 32 := 0x0040#32
abbrev QS_SMRESULT : BitVec 32 := 0x8000#32

def callbackResultOffset : Nat := 16

/-- `struct horizon_msgq_sent` but for its link. -/
structure Sent where
  kind : Kind
  win : Nat := 0
  msg : Nat := 0
  wparam : Nat := 0
  lparam : Nat := 0
  x : Int := 0
  y : Int := 0
  time : Nat := 0
  data : List UInt8 := []
  result : Option Nat := none
deriving DecidableEq

/-- `struct horizon_msgq_result` but for its links. -/
structure Result where
  msg : Option Nat
  sender : Option Nat
  receiver : Option Nat
  callbackMsg : Option Nat := none
  replied : Bool := false
  error : Status := .success
  result : UInt64 := 0
  data : List UInt8 := []
  hasDeadline : Bool
  deadline : Nat
deriving DecidableEq

/-- `struct horizon_msgq`. The links between messages and between results are the lists they
make; `sentTail` is the message whose link is written next, `none` for the queue's own. -/
structure Queue where
  tid : Nat
  wakeBits : BitVec 32 := 0
  changedBits : BitVec 32 := 0
  sent : List Nat := []
  sentTail : Option Nat := none
  sendResults : List Nat := []
  callbackResults : List Nat := []
  recvResult : List Nat := []
deriving DecidableEq

/-- What happens to a result. -/
inductive Event
  /-- A message is sent with it. -/
  | made (r : Nat)
  /-- `horizon_msgq_store_result`. -/
  | stored (r : Nat) (value : UInt64) (error : Status)
  /-- Nobody waits for its outcome, which is not there yet. -/
  | left (r : Nat)
  /-- `horizon_msgq_get_reply` gives the sender the outcome. -/
  | got (r : Nat) (value : UInt64) (error : Status)
  /-- `horizon_msgq_free_result`. -/
  | freed (r : Nat)
deriving DecidableEq

/-- The allocated queues, messages and results by their addresses, the list of queues, and what
happened to results, the latest first. -/
structure Heap where
  queues : Nat → Option Queue := fun _ => none
  messages : Nat → Option Sent := fun _ => none
  results : Nat → Option Result := fun _ => none
  head : List Nat := []
  next : Nat := 0
  log : List Event := []

/- Every function below returns `none` when it reads or writes through a pointer that is NULL or
to something freed, or frees something twice. -/

@[simps -fullyApplied] def Heap.putQueue (h : Heap) (q : Nat) (queue : Queue) : Heap :=
  { h with queues := put h.queues q (some queue) }

@[simps -fullyApplied] def Heap.putResult (h : Heap) (r : Nat) (result : Result) : Heap :=
  { h with results := put h.results r (some result) }

@[simps -fullyApplied] def Heap.putMessage (h : Heap) (m : Nat) (msg : Sent) : Heap :=
  { h with messages := put h.messages m (some msg) }

/-- As many new addresses. -/
@[simps -fullyApplied] def Heap.allot (h : Heap) (count : Nat) : Heap := { h with next := h.next + count }

@[simps -fullyApplied] def Heap.setHead (h : Heap) (head : List Nat) : Heap := { h with head }

@[simps -fullyApplied] def Heap.eraseQueue (h : Heap) (q : Nat) : Heap := { h with queues := put h.queues q none }

@[simps -fullyApplied] def Heap.eraseResult (h : Heap) (r : Nat) : Heap := { h with results := put h.results r none }

@[simps -fullyApplied] def Heap.eraseMessage (h : Heap) (m : Nat) : Heap := { h with messages := put h.messages m none }

@[simps -fullyApplied] def Heap.note (h : Heap) (e : Event) : Heap := { h with log := e :: h.log }

def Queue.touch (queue : Queue) (bits : BitVec 32) : Queue :=
  { queue with wakeBits := queue.wakeBits ||| bits, changedBits := queue.changedBits ||| bits }

/-- `free` of a message and its data. -/
def freeMessage (h : Heap) (m : Nat) : Option Heap := do
  let _ ← h.messages m
  some (h.eraseMessage m)

def freeResult (h : Heap) (r : Nat) : Option Heap := do
  let result ← h.results r
  let h ← match result.callbackMsg with
    | some m => freeMessage h m
    | none => some h
  some ((h.eraseResult r).note (.freed r))

/-- `horizon_msgq_unlink_result`: the walk reads every result before the one it looks for. -/
def unlinkResult (results : Nat → Option Result) (r : Nat) : List Nat → Option (List Nat)
  | [] => some []
  | x :: list => do
    let _ ← results x
    if x = r then some list else (unlinkResult results r list).map (x :: ·)

def removeResultFromSender (h : Heap) (r : Nat) : Option Heap := do
  let result ← h.results r
  let s ← result.sender
  let sender ← h.queues s
  let sendResults ← unlinkResult h.results r sender.sendResults
  let callbackResults ← unlinkResult h.results r sender.callbackResults
  let h := (h.putQueue s { sender with sendResults, callbackResults }).putResult r
    { result with sender := none }
  let h := if result.replied then h else h.note (.left r)
  if result.receiver.isNone then freeResult h r else some h

/-- The chain after its link behind `t` was written. -/
def linkAfter (t m : Nat) : List Nat → List Nat
  | [] => []
  | x :: list => if x = t then [x, m] else x :: linkAfter t m list

/-- `*queue->sent_tail = msg; queue->sent_tail = &msg->next`. -/
def appendSent (messages : Nat → Option Sent) (queue : Queue) (m : Nat) : Option Queue :=
  match queue.sentTail with
  | none => some { queue with sent := [m], sentTail := some m }
  | some t => do
    let _ ← messages t
    some { queue with sent := linkAfter t m queue.sent, sentTail := some m }

/-- The data of a callback with the result written into it. -/
def callbackData (data : List UInt8) (value : UInt64) : List UInt8 :=
  if callbackResultOffset + 8 ≤ data.length then
    data.take callbackResultOffset ++
      (List.range 8).map (fun i => (value >>> (8 * i).toUInt64).toUInt8) ++
      data.drop (callbackResultOffset + 8)
  else data

def storeResult (h : Heap) (r : Nat) (value : UInt64) (error : Status) : Option Heap := do
  let result ← h.results r
  let result := { result with result := value, error, replied := true, hasDeadline := false }
  let h := (h.putResult r result).note (.stored r value error)
  match result.sender with
  | some s => do
    let sender ← h.queues s
    match result.callbackMsg with
    | some m => do
      let callback ← h.messages m
      let h := h.putMessage m { callback with data := callbackData callback.data value }
      let sender ← appendSent h.messages sender m
      removeResultFromSender ((h.putQueue s (sender.touch QS_SENDMESSAGE)).putResult r
        { result with callbackMsg := none }) r
    | none =>
      if sender.sendResults.head? = some r then some (h.putQueue s (sender.touch QS_SMRESULT))
      else some h
  | none => if result.receiver.isNone then freeResult h r else some h

def freeSent (h : Heap) (m : Nat) : Option Heap := do
  let msg ← h.messages m
  let h ← match msg.result with
    | some r => do
      let result ← h.results r
      storeResult (h.putResult r { result with msg := none, receiver := none }) r 0 .accessDenied
    | none => some h
  freeMessage h m

/-- `horizon_msgq_unlink_sent`: `before` is the message whose link the walk is at. -/
def unlinkSentLoop (messages : Nat → Option Sent) (m : Nat) (tail : Option Nat) :
    (before : Option Nat) → List Nat → Option (List Nat × Option Nat)
  | _, [] => some ([], tail)
  | before, x :: list => do
    let _ ← messages x
    if x = m then some (list, if tail = some m then before else tail)
    else
      let (list, tail) ← unlinkSentLoop messages m tail (some x) list
      some (x :: list, tail)

def unlinkSent (h : Heap) (q m : Nat) : Option Heap := do
  let queue ← h.queues q
  let (sent, sentTail) ← unlinkSentLoop h.messages m queue.sentTail none queue.sent
  some (h.putQueue q { queue with sent, sentTail })

/-- Which of the allocations of `horizon_msgq_send` find memory. -/
structure SendMemory where
  msg : Bool := true
  data : Bool := true
  result : Bool := true
  callback : Bool := true

/-- The result of a message with one, and the callback that goes back when it is replied. The
callback takes the data from the message. -/
def sendResult (h : Heap) (sender : Option Nat) (receiver : Nat) (msg : Sent) (deadline : Option Nat) :
    Option Heap :=
  let m := h.next
  let r := h.next + 1
  let result : Result :=
    { msg := some m, sender, receiver := some receiver, hasDeadline := deadline.isSome,
      deadline := deadline.getD 0 }
  if msg.kind = .callback then
    let c := h.next + 2
    let callback : Sent :=
      { kind := .callbackResult, win := msg.win, msg := msg.msg, x := msg.x, y := msg.y,
        time := msg.time, data := msg.data }
    let h := ((((h.allot 3).putMessage m { msg with data := [], result := some r }).putMessage
      c callback).putResult r { result with callbackMsg := some c }).note (.made r)
    match sender with
    | some s => do
      let queue ← h.queues s
      some (h.putQueue s { queue with callbackResults := r :: queue.callbackResults })
    | none => some (h.note (.left r))
  else
    let h := (((h.allot 2).putMessage m { msg with result := some r }).putResult r
      result).note (.made r)
    match sender with
    | some s => do
      let queue ← h.queues s
      some (h.putQueue s { queue with sendResults := r :: queue.sendResults })
    | none => some (h.note (.left r))

/-- `horizon_msgq_send`. The message is at the address `h.next`. -/
def send (h : Heap) (sender : Option Nat) (receiver : Nat) (fields : Sent) (data : List UInt8)
    (deadline : Option Nat) (memory : SendMemory) : Option (Status × Heap) :=
  if fields.kind = .callbackResult then some (.invalidParameter, h)
  else if !memory.msg ∨ (data ≠ [] ∧ !memory.data) then some (.noMemory, h)
  else if fields.kind ≠ .notify ∧ (!memory.result ∨ (fields.kind = .callback ∧ !memory.callback)) then
    some (.noMemory, h)
  else do
    let msg := { fields with data, result := none }
    let m := h.next
    let h ← if fields.kind = .notify then some ((h.allot 1).putMessage m msg)
      else sendResult h sender receiver msg deadline
    let queue ← h.queues receiver
    let queue ← appendSent h.messages queue m
    some (.success, h.putQueue receiver (queue.touch QS_SENDMESSAGE))

/-- `horizon_msgq_receive`, with the `free` its caller owes the message. -/
def receive (h : Heap) (q : Nat) : Option (Option Sent × Heap) := do
  let queue ← h.queues q
  match queue.sent with
  | [] => some (none, h)
  | m :: _ => do
    let h ← unlinkSent h q m
    let msg ← h.messages m
    let h ← match msg.result with
      | some r => do
        let result ← h.results r
        let queue ← h.queues q
        some ((h.putResult r { result with msg := none }).putQueue q
          { queue with recvResult := r :: queue.recvResult })
      | none => some h
    let h ← freeMessage h m
    some (some { msg with result := none }, h)

/-- `horizon_msgq_reply`. A reply whose data finds no memory goes without. -/
def reply (h : Heap) (q : Nat) (value : UInt64) (error : Status) (remove : Bool) (data : List UInt8)
    (memory : Bool) : Option Heap := do
  let queue ← h.queues q
  match queue.recvResult with
  | [] => some h
  | r :: rest => do
    let result ← h.results r
    let (result, h) := if remove then
        ({ result with receiver := none }, h.putQueue q { queue with recvResult := rest })
      else (result, h)
    let h := h.putResult r result
    if remove ∧ result.sender.isNone then freeResult h r
    else if !result.replied then
      storeResult (h.putResult r (if memory then { result with data } else result)) r value error
    else some h

/-- What `horizon_msgq_get_reply` answers. -/
structure Reply where
  status : Status := .pending
  value : UInt64 := 0
  data : List UInt8 := []

def getReply (h : Heap) (q : Nat) (cancel : Bool) : Option (Reply × Heap) := do
  let queue ← h.queues q
  match queue.sendResults with
  | [] => some ({}, h)
  | r :: _ => do
    let result ← h.results r
    if !result.replied ∧ !cancel then some ({}, h)
    else do
      let (answer, h) := if result.replied then
          (({ status := result.error, value := result.result, data := result.data } : Reply),
            h.putResult r { result with data := [] })
        else ({}, h)
      let h ← removeResultFromSender h r
      let h := if result.replied then h.note (.got r result.result result.error) else h
      let queue ← h.queues q
      match queue.sendResults with
      | [] => some (answer, h)
      | first :: _ => do
        let result ← h.results first
        if result.replied then some (answer, h.putQueue q (queue.touch QS_SMRESULT))
        else some (answer, h)

def Result.due (result : Result) (now : Nat) : Bool :=
  !result.replied && result.hasDeadline && decide (result.deadline ≤ now)

/-- The walk of `horizon_msgq_expire` along one list of results. -/
def findDue (results : Nat → Option Result) (now : Nat) : List Nat → Option (Option Nat)
  | [] => some none
  | r :: list => do
    let result ← results r
    if result.due now then some (some r) else findDue results now list

/-- Its walk over the queues and their two lists. -/
def findDueQueues (h : Heap) (now : Nat) : List Nat → Option (Option Nat)
  | [] => some none
  | q :: queues => do
    let queue ← h.queues q
    match ← findDue h.results now queue.sendResults with
    | some r => some (some r)
    | none =>
      match ← findDue h.results now queue.callbackResults with
      | some r => some (some r)
      | none => findDueQueues h now queues

/-- What `horizon_msgq_expire` does with a result that is due. -/
def expireResult (h : Heap) (r : Nat) : Option Heap := do
  let result ← h.results r
  let h := h.putResult r { result with hasDeadline := false }
  let h ← match result.msg, result.receiver with
    | some m, some receiver => do
      let h ← unlinkSent h receiver m
      let h ← freeMessage h m
      some (h.putResult r { result with hasDeadline := false, msg := none, receiver := none })
    | _, _ => some h
  storeResult h r 0 .timeout

/-- `horizon_msgq_expire`: it starts again after each result that was due, and each result is due
once, so there is a turn for every address and one more. -/
def expireLoop (now : Nat) : (fuel : Nat) → Heap → Option Heap
  | 0, _ => none
  | fuel + 1, h => do
    match ← findDueQueues h now h.head with
    | none => some h
    | some r => expireLoop now fuel (← expireResult h r)

def expire (h : Heap) (now : Nat) : Option Heap := expireLoop now (h.next + 1) h

/-- `while (queue->send_results)` and `while (queue->callback_results)` of the destruction. -/
def leaveResults (q : Nat) (list : Queue → List Nat) : (fuel : Nat) → Heap → Option Heap
  | 0, _ => none
  | fuel + 1, h => do
    let queue ← h.queues q
    match list queue with
    | [] => some h
    | r :: _ => leaveResults q list fuel (← removeResultFromSender h r)

/-- `while (queue->recv_result)`. -/
def replyAll (q : Nat) : (fuel : Nat) → Heap → Option Heap
  | 0, _ => none
  | fuel + 1, h => do
    let queue ← h.queues q
    match queue.recvResult with
    | [] => some h
    | _ :: _ => replyAll q fuel (← reply h q 0 .accessDenied true [] true)

/-- `while ((msg = queue->sent))`. -/
def freeAllSent (q : Nat) : (fuel : Nat) → Heap → Option Heap
  | 0, _ => none
  | fuel + 1, h => do
    let queue ← h.queues q
    match queue.sent with
    | [] => some h
    | m :: _ => freeAllSent q fuel (← freeSent (← unlinkSent h q m) m)

/-- The walk that unlinks the queue from the list of queues. -/
def unlinkQueue (queues : Nat → Option Queue) (q : Nat) : List Nat → Option (List Nat)
  | [] => some []
  | x :: list => do
    let _ ← queues x
    if x = q then some list else (unlinkQueue queues q list).map (x :: ·)

/-- `horizon_msgq_destroy`. Each loop takes one element a turn. -/
def destroy (h : Heap) (q : Nat) : Option Heap := do
  let queue ← h.queues q
  let h ← leaveResults q Queue.sendResults (queue.sendResults.length + 1) h
  let h ← leaveResults q Queue.callbackResults (queue.callbackResults.length + 1) h
  let h ← replyAll q (queue.recvResult.length + 1) h
  let h ← freeAllSent q (queue.sent.length + 1) h
  let head ← unlinkQueue h.queues q h.head
  some ((h.setHead head).eraseQueue q)

def find (h : Heap) (tid : Nat) : List Nat → Option (Option Nat)
  | [] => some none
  | q :: list => do
    let queue ← h.queues q
    if queue.tid = tid then some (some q) else find h tid list

def get (h : Heap) (tid : Nat) (memory : Bool) : Option Heap := do
  match ← find h tid h.head with
  | some _ => some h
  | none =>
    if tid = 0 ∨ !memory then some h
    else some (((h.allot 1).setHead (h.next :: h.head)).putQueue h.next { tid })

inductive Op
  | get (tid : Nat) (memory : Bool)
  | send (sender : Option Nat) (receiver : Nat) (fields : Sent) (data : List UInt8)
      (deadline : Option Nat) (memory : SendMemory)
  | receive (q : Nat)
  | reply (q : Nat) (value : UInt64) (error : Status) (remove : Bool) (data : List UInt8) (memory : Bool)
  | getReply (q : Nat) (cancel : Bool)
  | expire (now : Nat)
  | destroy (q : Nat)

def Heap.live (h : Heap) (q : Nat) : Bool := (h.queues q).isSome

/-- Callers pass queues that exist: an operation on any other does not take place. -/
def Heap.step (h : Heap) : Op → Option Heap
  | .get tid memory => get h tid memory
  | .send sender receiver fields data deadline memory =>
    if h.live receiver ∧ sender.all h.live then
      (send h sender receiver fields data deadline memory).map Prod.snd
    else some h
  | .receive q => if h.live q then (receive h q).map Prod.snd else some h
  | .reply q value error remove data memory =>
    if h.live q then reply h q value error remove data memory else some h
  | .getReply q cancel => if h.live q then (getReply h q cancel).map Prod.snd else some h
  | .expire now => expire h now
  | .destroy q => if h.live q then destroy h q else some h

/-- The heap after the operations, if no pointer went astray. -/
def Heap.run (h : Heap) : List Op → Option Heap
  | [] => some h
  | op :: ops => (h.step op).bind (run · ops)

end Autorun.Server.MsgQueue
