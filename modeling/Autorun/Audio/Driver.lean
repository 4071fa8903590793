import Autorun.Audio.Stream

namespace Autorun.Audio

/-- The state of the driver under `audio_lock`, with the buffers that audout holds and what it got. -/
structure World where
  active : List Stream := []
  outputFrames : Fin 4 → Nat := fun _ => 0
  thread : Bool := false
  quit : Bool := false
  closing : Bool := false
  outputRunning : Bool := false
  initialized : Bool := false
  /-- The buffers appended to audout and not released by it, the oldest first. -/
  queue : List (Fin 4) := []
  /-- What was appended to audout, the last at the end. -/
  log : List (List Frame) := []
  /-- What these should have been. -/
  wanted : List (List Frame) := []
  /-- The address of the next stream. -/
  next : Nat := 0

/-- What audout does during one `nx_pump`: it releases some of the oldest buffers, one for each query, then
answers that there is none or fails; and each append succeeds or fails. -/
structure Device where
  released : Nat := 0
  queryFails : Bool := false
  append : Fin 4 → Bool := fun _ => true

def anyRunning (w : World) : Bool := w.active.any (·.running)

/-- `nx_reopen_output` for one stream. -/
def Stream.reopen (s : Stream) (initialized : Bool) : Stream :=
  { s with
    frames := fun _ => 0, submitted := 0, failed := !initialized
    trace := { s.trace with handed := [], recent := [], start := s.trace.done } }

/-- `nx_reopen_output`; `ok` is whether `audoutInitialize` succeeds. -/
def reopenOutput (w : World) (ok : Bool) : World :=
  { w with
    initialized := ok, outputRunning := false, outputFrames := fun _ => 0, queue := []
    active := w.active.map (·.reopen ok) }

def nxSample (value : Int) : Int :=
  if value > 32767 then 32767 else if value < -32768 then -32768 else value

/-- What the release of buffer `i` means for one stream. -/
def Stream.released (s : Stream) (i : Fin 4) : Stream :=
  if s.frames i = 0 then s
  else
    { s with
      held := sub32 s.held (s.frames i)
      submitted := sub32 s.submitted (s.frames i)
      played := (s.played + s.frames i) % 18446744073709551616
      read := u32 (s.read + s.frames i) % s.capacity
      frames := Function.update s.frames i 0
      trace := { s.trace with done := s.trace.done + s.frames i } }

/-- Buffer `i` comes back from audout. -/
def bufferReleased (w : World) (i : Fin 4) : World :=
  { w with outputFrames := Function.update w.outputFrames i 0, active := w.active.map (·.released i) }

/-- The first loop of `nx_pump`, for so many buffers. -/
def releaseLoop (w : World) : Nat → World
  | 0 => w
  | n + 1 =>
    match w.queue with
    | [] => w
    | i :: queue => releaseLoop (bufferReleased { w with queue } i) n

/-- The frames of a stream that are not with audout. -/
def Stream.pending (s : Stream) : Nat := sub32 s.held s.submitted

/-- The frames that `nx_pump` puts in a buffer. -/
def chunkFrames (w : World) : Nat :=
  let frames := w.active.foldl
    (fun frames s => if s.running then if s.pending > frames then s.pending else frames else frames) 0
  if frames > nxChunk then nxChunk else frames

/-- The share of a stream in a buffer of so many frames. -/
def Stream.share (s : Stream) (frames : Nat) : Nat := if s.pending > frames then frames else s.pending

/-- Frame `j` of a stream behind what is with audout. -/
def Stream.ringFrame (s : Stream) (j : Nat) : Frame := s.ring (u32 (s.read + s.submitted + j) % s.capacity)

/-- The `+=` of one sample times its volume. -/
def mixSample (mix sample : Int) (volume : ℚ) : Int := trunc (mix + sample * volume)

/-- One turn of the mixing loop: a stream's frame onto the mix. -/
def mixFrame (mix : Frame) (x : Frame × (ℚ × ℚ)) : Frame :=
  (mixSample mix.1 x.1.1 x.2.1, mixSample mix.2 x.1.2 x.2.2)

/-- The streams with a part in frame `j` of a buffer, with their frames and volumes. -/
def parts (w : World) (frames j : Nat) : List (Frame × (ℚ × ℚ)) :=
  (w.active.filter fun s => s.running && decide (j < s.share frames)).map fun s => (s.ringFrame j, s.volume)

/-- Frame `j` of a buffer. -/
def outputFrame (parts : List (Frame × (ℚ × ℚ))) : Frame :=
  let mix := parts.foldl mixFrame (0, 0)
  (nxSample mix.1, nxSample mix.2)

/-- A buffer of so many frames. -/
def chunk (w : World) (frames : Nat) : List Frame := (List.range frames).map fun j => outputFrame (parts w frames j)

/-- The 16 most significant bits of one channel of an integer source frame, an 8-bit one about its centre. -/
def topSample (source : Source) (frame : Nat → UInt8) (c : Nat) : Int :=
  if source.bits = 8 then (((frame c).toNat : Int) - 128) * 256
  else signed 32768 (leNat (fun k => frame (c * (source.bits / 8) + (source.bits / 8 - 2) + k)) 2)

/-- The left and the right sample, one channel being both. -/
def Origin.samples (o : Origin) : Frame :=
  if o.silent then (0, 0)
  else (topSample o.source o.frame 0, topSample o.source o.frame (if o.source.channels = 1 then 0 else 1))

/-- The sum of the samples, each times its volume and rounded towards zero, in 16 bits. -/
def wantedSample (xs : List (Int × ℚ)) : Int := nxSample (xs.foldr (fun x sum => trunc (x.1 * x.2) + sum) 0)

def wantedFrame (parts : List (Frame × (ℚ × ℚ))) : Frame :=
  (wantedSample (parts.map fun x => (x.1.1, x.2.1)), wantedSample (parts.map fun x => (x.1.2, x.2.2)))

/-- The source samples behind `ringFrame`. -/
def Stream.sourceFrame (s : Stream) (j : Nat) : Frame :=
  match s.trace.origin (u32 (s.read + s.submitted + j) % s.capacity) with
  | none => (0, 0)
  | some o => o.samples

/-- What a buffer of so many frames should be. -/
def wantedChunk (w : World) (frames : Nat) : List Frame :=
  (List.range frames).map fun j => wantedFrame
    ((w.active.filter fun s => s.running && decide (j < s.share frames)).map fun s => (s.sourceFrame j, s.volume))

/-- A stream with its share in buffer `i`, before that is appended. -/
def Stream.fill (s : Stream) (i : Fin 4) (frames : Nat) : Stream :=
  if s.running then { s with frames := Function.update s.frames i (s.share frames) } else s

/-- A stream when buffer `i` has been appended. -/
def Stream.submit (s : Stream) (i : Fin 4) : Stream :=
  let sent := (List.range (s.frames i)).map s.ringFrame
  { s with
    submitted := u32 (s.submitted + s.frames i)
    trace := { s.trace with handed := s.trace.handed ++ sent, recent := s.trace.recent ++ sent } }

/-- A stream when buffer `i` could not be appended. -/
def Stream.unfill (s : Stream) (i : Fin 4) : Stream := { s with frames := Function.update s.frames i 0 }

/-- How a loop of `nx_pump` goes on. -/
inductive Flow where
  | next
  | done
  | failed

/-- One turn of the last loop of `nx_pump`. -/
def fillBuffer (d : Device) (w : World) (i : Fin 4) : Flow × World :=
  if w.outputFrames i ≠ 0 then (.next, w)
  else
    let frames := chunkFrames w
    if frames = 0 then (.done, w)
    else
      let filled := w.active.map (·.fill i frames)
      if d.append i then
        (.next, { w with
          outputFrames := Function.update w.outputFrames i frames
          queue := w.queue ++ [i]
          log := w.log ++ [chunk w frames]
          wanted := w.wanted ++ [wantedChunk w frames]
          active := filled.map (·.submit i) })
      else (.failed, { w with active := filled.map (·.unfill i) })

/-- The last loop of `nx_pump`. -/
def fillLoop (d : Device) (w : World) : List (Fin 4) → Flow × World
  | [] => (.done, w)
  | i :: is =>
    match fillBuffer d w i with
    | (.next, w) => fillLoop d w is
    | (flow, w) => (flow, w)

/-- The `failed:` label of `nx_pump`. -/
def failAll (w : World) : World := { w with active := w.active.map fun s => { s with failed := true } }

def pump (w : World) (d : Device) : World :=
  let w := releaseLoop w d.released
  if d.queryFails then failAll w
  else
    match fillLoop d w [0, 1, 2, 3] with
    | (.failed, w) => failAll w
    | (_, w) => w

/-- A call on one stream. -/
def onStream (w : World) (handle : Nat) (f : Stream → Stream) : World :=
  { w with active := w.active.map fun s => if s.handle = handle then f s else s }

/-- `nx_create_stream` for a shared render stream without rate adjustment; `memory` is whether every
allocation succeeds. -/
def createStream (w : World) (f : WaveFormat) (duration : Int) (eventCallback memory : Bool) :
    Result × World :=
  match nxFormat f, nxFormatTag f with
  | true, some tag =>
    if duration < 0 ∨ duration > 20000000 then (.invalidArg, w)
    else if w.initialized = false then (.deviceInvalidated, w)
    else if memory = false then (.outOfMemory, w)
    else
      let capacity := capacityOf duration.toNat
      let source := sourceOf f tag
      let s : Stream :=
        { handle := w.next, capacity, source, scratchBytes := scratchBytesOf capacity source, eventCallback }
      (.ok, { w with active := s :: w.active, next := w.next + 1 })
  | _, _ => (.unsupportedFormat, w)

/-- The end of `nx_start`, after the pump. -/
def startOutput (w : World) (handle : Nat) (started : Bool) : World :=
  let failed := w.active.any fun s => s.handle = handle && s.failed
  let w :=
    if w.outputRunning then w
    else if !failed && started then { w with outputRunning := true }
    else onStream w handle fun s => { s with failed := true }
  onStream w handle fun s => if s.failed then { s with running := false } else s

/-- `nx_start`; `thread` and `started` are whether the thread and the output can be started. -/
def start (w : World) (handle : Nat) (thread started : Bool) (d : Device) : Result × World :=
  match w.active.find? (·.handle = handle) with
  | none => (.invalidArg, w)
  | some s =>
    if s.running then (.notStopped, w)
    else if s.failed ∨ w.initialized = false then (.deviceInvalidated, w)
    else if s.eventCallback ∧ s.event = false then (.eventHandleNotSet, w)
    else if w.thread = false ∧ thread = false then (.deviceInvalidated, w)
    else
      let w := onStream { w with thread := true } handle fun s => { s with running := true }
      let w := startOutput (pump w d) handle started
      (if w.active.any fun s => s.handle = handle && s.failed then .deviceInvalidated else .ok, w)

def stop (w : World) (handle : Nat) (reopens : Bool) : World :=
  let w := onStream w handle fun s => { s with running := false }
  if !anyRunning w && w.outputRunning then reopenOutput w reopens else w

/-- `nx_release_stream` up to the wait for the thread. -/
def releaseStream (w : World) (handle : Nat) (reopens : Bool) : World :=
  if w.active.any (·.handle = handle) then
    let w := { w with active := w.active.filter (·.handle ≠ handle) }
    if w.active.isEmpty then { w with closing := true, quit := true }
    else if !anyRunning w && w.outputRunning then reopenOutput w reopens else w
  else w

/-- The rest of `nx_release_stream` for the last stream, when the thread has ended. -/
def closeOutput (w : World) (reopens : Bool) : World :=
  if w.closing then { reopenOutput w reopens with thread := false, quit := false, closing := false } else w

/-- What happens to the driver, each under its lock: the calls of the clients, the turns of `nx_timer_loop`
and what a client writes to its scratch buffer. -/
inductive Op where
  | testConnect (ok : Bool)
  | create (f : WaveFormat) (duration : Int) (eventCallback memory : Bool)
  | write (handle : Nat) (scratch : Nat → UInt8)
  | getBuffer (handle frames : Nat)
  | releaseBuffer (handle written : Nat) (flags : UInt32)
  | start (handle : Nat) (thread started : Bool) (d : Device)
  | stop (handle : Nat) (reopens : Bool)
  | reset (handle : Nat)
  | setVolumes (handle : Nat) (left right : ℚ)
  | setEventHandle (handle : Nat)
  | tick (d : Device)
  | release (handle : Nat) (reopens : Bool)
  | close (reopens : Bool)

/-- One of them. A stream is not created while the last one is being released. -/
def step (m : Machine) (w : World) : Op → World
  | .testConnect ok => { w with initialized := w.initialized || ok }
  | .create f duration eventCallback memory =>
    if w.closing then w else (createStream w f duration eventCallback memory).2
  | .write handle scratch => onStream w handle fun s => { s with scratch }
  | .getBuffer handle frames => onStream w handle fun s => (getRenderBuffer s (u32 frames)).2
  | .releaseBuffer handle written flags =>
    onStream w handle fun s => (releaseRenderBuffer m s (u32 written) flags).2
  | .start handle thread started d => (Audio.start w handle thread started d).2
  | .stop handle reopens => Audio.stop w handle reopens
  | .reset handle => onStream w handle fun s => (Audio.reset s w.initialized).2
  | .setVolumes handle left right => onStream w handle fun s => Audio.setVolumes s left right
  | .setEventHandle handle => onStream w handle Audio.setEventHandle
  | .tick d => if w.quit = false ∧ w.outputRunning then pump w d else w
  | .release handle reopens => releaseStream w handle reopens
  | .close reopens => closeOutput w reopens

end Autorun.Audio
