import Autorun.Lib.Bytes
import Autorun.Lib.RingQueue
import Autorun.Lib.Run

namespace Autorun.Server.HorizonPipe
open Lib

def bufferSize : Nat := 0x10000

/-- `struct horizon_pipe`; it is freed when `refs` comes to zero. -/
structure Pipe where
  refs : Nat := 2
  readOpen : Bool := true
  writeOpen : Bool := true
  head : Nat := 0
  tail : Nat := 0
  used : Nat := 0
  readWaiters : Nat := 0
  writeWaiters : Nat := 0
  buffer : Nat → UInt8 := fun _ => 0

/-- The bytes that wait in the buffer, the oldest first. -/
def Pipe.unread (p : Pipe) : List UInt8 := RingQueue.contents ⟨p.buffer, p.head, p.used, bufferSize⟩

/-- The arguments of a call, and how much of them it has moved. -/
structure Transfer where
  ptr : Nat → UInt8
  len : Nat
  total : Nat := 0

/-- The bytes that a call has moved. -/
def Transfer.moved (t : Transfer) : List UInt8 := slice t.ptr 0 t.total

inductive Result where
  | bytes (n : Nat)
  | ebadf
  | epipe
deriving DecidableEq

/-- How a call lets go of the lock. It waits, and before that may signal the other end; or it returns,
and may have a signal to give on its way out. -/
inductive Leave where
  | waits (p : Pipe) (t : Transfer) (signal : Bool)
  | returns (p : Pipe) (t : Transfer) (result : Result) (wake : Bool)

/-- One turn of the writer's loop: as much as fits before the end of the buffer. -/
def Pipe.put (p : Pipe) (t : Transfer) : Pipe × Transfer :=
  let space := bufferSize - p.used
  let chunk := min (min (t.len - t.total) space) (bufferSize - p.tail)
  ({ p with
      buffer := overwrite p.buffer p.tail (slice t.ptr t.total chunk)
      tail := (p.tail + chunk) % bufferSize
      used := p.used + chunk },
    { t with total := t.total + chunk })

/-- One turn of the reader's loop. -/
def Pipe.take (p : Pipe) (t : Transfer) : Pipe × Transfer :=
  let chunk := min (min (t.len - t.total) p.used) (bufferSize - p.head)
  ({ p with head := (p.head + chunk) % bufferSize, used := p.used - chunk },
    { t with ptr := overwrite t.ptr t.total (slice p.buffer p.head chunk), total := t.total + chunk })

/-- `horizon_pipe_write_r` under the lock, from the start of the call or from a wait to the next one. -/
def writeLoop : Nat → Pipe → Transfer → Option Leave
  | 0, _, _ => none
  | turns + 1, p, t =>
    if t.total < t.len then
      if p.readOpen ∧ p.used = bufferSize then
        some (.waits { p with writeWaiters := p.writeWaiters + 1 } t (p.readWaiters ≠ 0))
      else if p.readOpen = false then
        some (.returns p t (if t.total ≠ 0 then .bytes t.total else .epipe) false)
      else writeLoop turns (p.put t).1 (p.put t).2
    else some (.returns p t (.bytes t.total) (p.readWaiters ≠ 0))

/-- `horizon_pipe_read_r` under the lock. -/
def readLoop : Nat → Pipe → Transfer → Option Leave
  | 0, _, _ => none
  | turns + 1, p, t =>
    if t.total < t.len then
      if p.writeOpen ∧ p.used = 0 then
        some (.waits { p with readWaiters := p.readWaiters + 1 } t (t.total ≠ 0 ∧ p.writeWaiters ≠ 0))
      else if p.used = 0 then some (.returns p t (.bytes t.total) false)
      else readLoop turns (p.take t).1 (p.take t).2
    else some (.returns p t (.bytes t.total) (p.writeWaiters ≠ 0))

/-- The turns that a loop needs, one byte in each at the least. -/
def Transfer.turns (t : Transfer) : Nat := t.len - t.total + 1

/-! The two threads. -/

/-- Where a thread is: in no call, in `pthread_cond_wait`, out of it and before the lock, or past the
unlock with a signal to give. -/
inductive Phase where
  | idle
  | asleep (t : Transfer)
  | woken (t : Transfer)
  | signalling

/-- What a signal does to the thread that waits for it. -/
def Phase.signal : Phase → Phase
  | .asleep t => .woken t
  | phase => phase

def Phase.signalIf (phase : Phase) (signal : Bool) : Phase := if signal then phase.signal else phase

/-- Past the unlock at the end of a call. -/
def Phase.leaving (wake : Bool) : Phase := if wake then .signalling else .idle

def Phase.moved : Phase → List UInt8
  | .asleep t | .woken t => t.moved
  | _ => []

/-- `struct horizon_pipe_file`. While it is `closing`, `horizon_pipe_close_r` has let go of the lock: it
frees the file, clears the pointer to it and releases the pipe. -/
inductive File where
  | opened
  | closing
  | closed
deriving DecidableEq

inductive Side where
  | write
  | read
deriving DecidableEq

/-- A pipe and the threads at its ends. `written` and `read` are the bytes that the calls that are over
have moved; `fault` says that the pipe or a file was used while it was freed, or that a call never ends. -/
structure World where
  pipe : Pipe := {}
  writeFile : File := .opened
  readFile : File := .opened
  writer : Phase := .idle
  reader : Phase := .idle
  written : List UInt8 := []
  read : List UInt8 := []
  results : List (Side × Result) := []
  fault : Bool := false

/-- A step of a thread: a call, the end of a wait that nothing signals (`horizon_cond_wait_quit` looks
up four times a second), what follows a wait, the signal after the unlock, and the two halves of
`horizon_pipe_close_r`, which any thread can call. -/
inductive Act where
  | write (ptr : Nat → UInt8) (len : Nat)
  | read (ptr : Nat → UInt8) (len : Nat)
  | wakes (side : Side)
  | resumes (side : Side)
  | signals (side : Side)
  | close (side : Side)
  | release (side : Side)

/-- What the writer does to the world when it lets go of the lock. -/
def World.leaveWrite (w : World) : Option Leave → World
  | none => { w with fault := true }
  | some (.waits p t signal) =>
    { w with pipe := p, writer := .asleep t, reader := w.reader.signalIf signal }
  | some (.returns p t result wake) =>
    { w with
      pipe := p
      writer := .leaving wake
      written := w.written ++ t.moved
      results := w.results ++ [(.write, result)] }

def World.leaveRead (w : World) : Option Leave → World
  | none => { w with fault := true }
  | some (.waits p t signal) =>
    { w with pipe := p, reader := .asleep t, writer := w.writer.signalIf signal }
  | some (.returns p t result wake) =>
    { w with
      pipe := p
      reader := .leaving wake
      read := w.read ++ t.moved
      results := w.results ++ [(.read, result)] }

def World.returns (w : World) (side : Side) (result : Result) : World :=
  { w with results := w.results ++ [(side, result)] }

/-- What a thread does with the pipe, as long as there is one. -/
def World.use (w : World) (after : World) : World :=
  if w.pipe.refs = 0 then { w with fault := true } else after

/-- One step; nothing happens where the thread is not at that place. -/
def World.step (w : World) : Act → World
  | .write ptr len =>
    match w.writer with
    | .idle =>
      match w.writeFile with
      | .closed => w.returns .write .ebadf
      | .closing => { w with fault := true }
      | .opened =>
        if len = 0 then w.returns .write (.bytes 0)
        else w.use (w.leaveWrite (writeLoop (len + 1) w.pipe { ptr := ptr, len := len }))
    | _ => w
  | .read ptr len =>
    match w.reader with
    | .idle =>
      match w.readFile with
      | .closed => w.returns .read .ebadf
      | .closing => { w with fault := true }
      | .opened =>
        if len = 0 then w.returns .read (.bytes 0)
        else w.use (w.leaveRead (readLoop (len + 1) w.pipe { ptr := ptr, len := len }))
    | _ => w
  | .wakes .write => { w with writer := w.writer.signal }
  | .wakes .read => { w with reader := w.reader.signal }
  | .resumes .write =>
    match w.writer with
    | .woken t =>
      w.use (w.leaveWrite
        (writeLoop t.turns { w.pipe with writeWaiters := w.pipe.writeWaiters - 1 } t))
    | _ => w
  | .resumes .read =>
    match w.reader with
    | .woken t =>
      w.use (w.leaveRead (readLoop t.turns { w.pipe with readWaiters := w.pipe.readWaiters - 1 } t))
    | _ => w
  | .signals .write =>
    match w.writer with
    | .signalling => w.use { w with writer := .idle, reader := w.reader.signal }
    | _ => w
  | .signals .read =>
    match w.reader with
    | .signalling => w.use { w with reader := .idle, writer := w.writer.signal }
    | _ => w
  | .close .write =>
    if w.writeFile = .opened then
      w.use { w with
        pipe := { w.pipe with writeOpen := false }
        writeFile := .closing
        writer := w.writer.signal
        reader := w.reader.signal }
    else w
  | .close .read =>
    if w.readFile = .opened then
      w.use { w with
        pipe := { w.pipe with readOpen := false }
        readFile := .closing
        writer := w.writer.signal
        reader := w.reader.signal }
    else w
  | .release .write =>
    if w.writeFile = .closing then
      w.use { w with pipe := { w.pipe with refs := w.pipe.refs - 1 }, writeFile := .closed }
    else w
  | .release .read =>
    if w.readFile = .closing then
      w.use { w with pipe := { w.pipe with refs := w.pipe.refs - 1 }, readFile := .closed }
    else w

/-- All that the writer's calls have moved into the pipe so far. -/
def World.sent (w : World) : List UInt8 := w.written ++ w.writer.moved

/-- All that the reader's calls have moved out of it. -/
def World.received (w : World) : List UInt8 := w.read ++ w.reader.moved

def Phase.Asleep : Phase → Prop
  | .asleep _ => True
  | _ => False

def Phase.Signalling : Phase → Prop
  | .signalling => True
  | _ => False

def Phase.Idle : Phase → Prop
  | .idle => True
  | _ => False

instance : (phase : Phase) → Decidable phase.Asleep
  | .asleep _ => isTrue trivial
  | .idle | .woken _ | .signalling => isFalse id

instance : (phase : Phase) → Decidable phase.Signalling
  | .signalling => isTrue trivial
  | .idle | .asleep _ | .woken _ => isFalse id

instance : (phase : Phase) → Decidable phase.Idle
  | .idle => isTrue trivial
  | .asleep _ | .woken _ | .signalling => isFalse id

/-- A thread sleeps though it could go on, and the other one is not about to signal it. -/
def World.Stalled (w : World) : Prop :=
  (w.reader.Asleep ∧ (0 < w.pipe.used ∨ w.pipe.writeOpen = false) ∧ ¬ w.writer.Signalling) ∨
    (w.writer.Asleep ∧ (w.pipe.used < bufferSize ∨ w.pipe.readOpen = false) ∧ ¬ w.reader.Signalling)

instance (w : World) : Decidable w.Stalled :=
  inferInstanceAs (Decidable (_ ∨ _))

/-- An end is not closed while the thread at it is in a call, and no call starts while it is closed. -/
def World.Apart (w : World) : Act → Prop
  | .write _ _ => w.writeFile ≠ .closing
  | .read _ _ => w.readFile ≠ .closing
  | .close .write => w.writer.Idle
  | .close .read => w.reader.Idle
  | _ => True

instance (w : World) : (act : Act) → Decidable (w.Apart act)
  | .write _ _ => inferInstanceAs (Decidable (w.writeFile ≠ .closing))
  | .read _ _ => inferInstanceAs (Decidable (w.readFile ≠ .closing))
  | .close .write => inferInstanceAs (Decidable w.writer.Idle)
  | .close .read => inferInstanceAs (Decidable w.reader.Idle)
  | .wakes _ | .resumes _ | .signals _ | .release _ => isTrue trivial

end Autorun.Server.HorizonPipe
