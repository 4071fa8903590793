namespace Autorun.Sync.Keyed

/-- `struct horizon_keyed_waiter`, with a number for its address. -/
structure Waiter where
  id : Nat
  object : UInt64
  key : UInt64
  release : Bool
deriving DecidableEq

/-- The two waiters are the two sides of one key of one object. -/
def Waiter.pairs (peer self : Waiter) : Bool :=
  !(peer.release == self.release || peer.object != self.object || peer.key != self.key)

/-- `horizon_keyed_match_locked`: the peer, and the queue without it. -/
def matchLocked (self : Waiter) : List Waiter → Option (Waiter × List Waiter)
  | [] => none
  | peer :: queue =>
    if peer.pairs self then some (peer, queue)
    else (matchLocked self queue).map fun (found, rest) => (found, peer :: rest)

def enqueueLocked (queue : List Waiter) (self : Waiter) : List Waiter := queue ++ [self]

/-- `horizon_keyed_cancel_locked`: the queue without `self`, if it was still there. -/
def cancelLocked (id : Nat) : List Waiter → Option (List Waiter)
  | [] => none
  | w :: queue => if w.id = id then some queue else (cancelLocked id queue).map (w :: ·)

inductive Result
  | success
  | timeout
deriving DecidableEq

/-- Where a call of `horizon_keyed_rendezvous` is. -/
inductive Phase
  /-- In the loop, its time not seen to be up. -/
  | waiting
  /-- It saw that its time is up and asks for the lock. -/
  | expired
  | returned (result : Result)
deriving DecidableEq

/-- A call, with its `timeout_ns` and its `done` flag. -/
structure Call where
  waiter : Waiter
  timeout : Int
  phase : Phase
  done : Bool := false
deriving DecidableEq

/-- The queue and every call ever made. Beside them the pairs made so far, the waiter that was
queued and the one that met it, and the calls that were queued, the oldest first. -/
structure State where
  queue : List Waiter := []
  calls : Nat → Option Call := fun _ => none
  pairs : List (Waiter × Waiter) := []
  arrivals : List Nat := []

def State.put (s : State) (id : Nat) (c : Call) : State :=
  { s with calls := fun i => if i = id then some c else s.calls i }

/-- One stretch of a thread: the lock held on entry, one look at `done` and the clock, or the
lock held to cancel. -/
inductive Action
  | enter (self : Waiter) (timeout : Int)
  | look (id : Nat) (timeUp : Bool)
  | cancel (id : Nat)

/-- `__atomic_store_n( &peer->done, 1 )`. -/
def State.publish (s : State) (id : Nat) : State :=
  match s.calls id with
  | some c => s.put id { c with done := true }
  | none => s

/-- `horizon_keyed_rendezvous` up to its first unlock. -/
def State.enter (s : State) (self : Waiter) (timeout : Int) : State :=
  let call : Call := { waiter := self, timeout, phase := .waiting }
  match matchLocked self s.queue with
  | some (peer, queue) =>
    ({ s with queue, pairs := (peer, self) :: s.pairs }.publish peer.id).put self.id
      { call with phase := .returned .success }
  | none =>
    if timeout = 0 then s.put self.id { call with phase := .returned .timeout }
    else
      { s with
        queue := enqueueLocked s.queue self
        arrivals := s.arrivals ++ [self.id] }.put self.id call

/-- The loop's condition, and whether the time is up if there is one. -/
def Call.look (c : Call) (timeUp : Bool) : Call :=
  match c.phase with
  | .waiting =>
    if c.done then { c with phase := .returned .success }
    else if 0 < c.timeout ∧ timeUp then { c with phase := .expired }
    else c
  | _ => c

/-- The cancel of the loop. -/
def State.cancel (s : State) (id : Nat) (c : Call) : State :=
  match cancelLocked id s.queue with
  | some queue => { s with queue }.put id { c with phase := .returned .timeout }
  | none => s.put id { c with phase := .waiting }

/-- A call is made once; each of its stretches is taken where it is. -/
def State.step (s : State) : Action → State
  | .enter self timeout =>
    match s.calls self.id with
    | none => s.enter self timeout
    | some _ => s
  | .look id timeUp =>
    match s.calls id with
    | some c => s.put id (c.look timeUp)
    | none => s
  | .cancel id =>
    match s.calls id with
    | some c => if c.phase = .expired then s.cancel id c else s
    | none => s

end Autorun.Sync.Keyed
