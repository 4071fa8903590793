import Mathlib.Data.Rat.Floor
import Mathlib.Logic.Function.Basic

namespace Autorun.Audio

def nxRate : Nat := 48000

def nxChunk : Nat := 480

def nxBuffers : Nat := 4

/-- The value of an `unsigned int`. -/
def u32 (n : Nat) : Nat := n % 4294967296

/-- The difference of two `unsigned int`s. -/
def sub32 (a b : Nat) : Nat := u32 (a + (4294967296 - b))

inductive FormatTag where
  | pcm
  | ieeeFloat
  | extensible
  | other
deriving DecidableEq

/-- What `nx_format_tag` tells apart. -/
inductive Coding where
  | pcm
  | ieeeFloat
deriving DecidableEq

/-- `WAVEFORMATEXTENSIBLE`, with what its subtype is compared with. -/
structure WaveFormat where
  formatTag : FormatTag
  channels : UInt16
  samplesPerSec : UInt32
  avgBytesPerSec : UInt32
  blockAlign : UInt16
  bitsPerSample : UInt16
  cbSize : UInt16 := 0
  subFormat : Option Coding := none
deriving DecidableEq

def nxFormatTag (f : WaveFormat) : Option Coding :=
  match f.formatTag with
  | .pcm => some .pcm
  | .ieeeFloat => some .ieeeFloat
  | .extensible => if f.cbSize < 22 then none else f.subFormat
  | .other => none

def nxFormat (f : WaveFormat) : Bool :=
  if f.samplesPerSec = 0 ∨ f.channels < 1 ∨ f.channels > 2 then false
  else
    match nxFormatTag f with
    | none => false
    | some tag =>
      if tag = .ieeeFloat ∧ f.bitsPerSample ≠ 32 then false
      else
        (f.bitsPerSample = 8 ∨ f.bitsPerSample = 16 ∨ f.bitsPerSample = 24 ∨ f.bitsPerSample = 32) ∧
          f.blockAlign.toNat = f.channels.toNat * (f.bitsPerSample.toNat / 8) ∧
          f.avgBytesPerSec = f.samplesPerSec * f.blockAlign.toUInt32

/-- A left and a right sample. -/
abbrev Frame := Int × Int

/-- The `source_` fields of a stream. -/
structure Source where
  rate : Nat
  channels : Nat
  bits : Nat
  tag : Coding
  frameBytes : Nat
deriving DecidableEq

/-- What a stored frame was made from: the volume of that time, whether the release was a silent one, and
the bytes of the source frame. -/
structure Origin where
  source : Source
  volume : ℚ × ℚ
  silent : Bool
  frame : Nat → UInt8

/-- What the theorems say about a stream's past. -/
structure Trace where
  /-- The frames stored since it was created. -/
  written : List Frame := []
  /-- How many of them before it was last reset. -/
  base : Nat := 0
  /-- How many frames since then the device has played. -/
  done : Nat := 0
  /-- Its frames handed to audout since that was last reopened. -/
  handed : List Frame := []
  /-- The same, since it was reopened or the stream reset. -/
  recent : List Frame := []
  /-- The frames played when `recent` was last made empty. -/
  start : Nat := 0
  /-- What each place of the ring was made from. -/
  origin : Nat → Option Origin := fun _ => none

/-- `struct nx_audio_stream`; the ring is one of frames, and `volume` is exact. -/
structure Stream where
  handle : Nat
  ring : Nat → Frame := fun _ => (0, 0)
  scratch : Nat → UInt8 := fun _ => 0
  capacity : Nat
  held : Nat := 0
  submitted : Nat := 0
  read : Nat := 0
  locked : Nat := 0
  played : Nat := 0
  frames : Fin 4 → Nat := fun _ => 0
  volume : ℚ × ℚ := (1, 1)
  event : Bool := false
  eventCallback : Bool := false
  source : Source
  scratchBytes : Nat
  running : Bool := false
  failed : Bool := false
  trace : Trace := {}

/-- The results of the calls. -/
inductive Result where
  | ok
  | isFalse
  | unsupportedFormat
  | exclusiveModeNotAllowed
  | invalidArg
  | deviceInvalidated
  | outOfMemory
  | notStopped
  | eventHandleNotSet
  | bufferOperationPending
  | outOfOrder
  | bufferTooLarge
  | invalidSize
deriving DecidableEq

/-- The capacity that `nx_create_stream` computes for a duration. -/
def capacityOf (duration : Nat) : Nat :=
  let capacity := u32 ((duration * nxRate + 9999999) / 10000000)
  if capacity < 2 * nxBuffers * nxChunk then 2 * nxBuffers * nxChunk else capacity

/-- The `source_` fields that `nx_create_stream` takes from a format. -/
def sourceOf (f : WaveFormat) (tag : Coding) : Source where
  rate := f.samplesPerSec.toNat
  channels := f.channels.toNat
  bits := f.bitsPerSample.toNat
  tag := tag
  frameBytes := f.blockAlign.toNat

/-- The `scratch_bytes` that `nx_create_stream` computes. -/
def scratchBytesOf (capacity : Nat) (source : Source) : Nat :=
  u32 ((u32 (capacity * source.rate) / nxRate + 2) * source.frameBytes)

/-- What the C language leaves to the machine: the `int` of four bytes of a float sample, and the `short`
of a number that no `short` is. -/
structure Machine where
  floatSample : List UInt8 → Int
  wide : ℚ → Int

/-- A number without its fraction. -/
def trunc (x : ℚ) : Int := x.num.tdiv x.den

/-- The conversion to `short`. -/
def toShort (m : Machine) (x : ℚ) : Int :=
  if -32768 ≤ trunc x ∧ trunc x ≤ 32767 then trunc x else m.wide x

/-- The number in so many bytes, the lowest first. -/
def leNat (bytes : Nat → UInt8) : Nat → Nat
  | 0 => 0
  | n + 1 => (bytes 0).toNat + 256 * leNat (fun k => bytes (k + 1)) n

/-- The two's complement number of that many values below zero. -/
def signed (half n : Nat) : Int := if n < half then n else (n : Int) - 2 * half

/-- The `int` of one channel of a source frame, as `nx_release_render_buffer` decodes it. -/
def sampleAt (m : Machine) (source : Source) (frame : Nat → UInt8) (c : Nat) : Int :=
  if source.tag = .ieeeFloat then 
    m.floatSample ((List.range 4).map fun k => frame (c * (source.bits / 8) + k))
  else if source.bits = 8 then (((frame c).toNat : Int) - 128) * 256
  else if source.bits = 16 then signed 32768 (leNat (fun k => frame (c * 2 + k)) 2)
  else if source.bits = 24 then signed 8388608 (leNat (fun k => frame (c * 3 + k)) 3)
  else signed 2147483648 (leNat (fun k => frame (c * 4 + k)) 4) / 65536

/-- The frame that `nx_release_render_buffer` stores for a source frame. -/
def storeFrame (m : Machine) (source : Source) (volume : ℚ × ℚ) (silent : Bool) (frame : Nat → UInt8) :
    Frame :=
  let left := if silent then 0 else sampleAt m source frame 0
  let right := if silent then 0 else if source.channels = 1 then left else sampleAt m source frame 1
  (toShort m (left * volume.1), toShort m (right * volume.2))

def getRenderBuffer (s : Stream) (frames : Nat) : Result × Stream :=
  if s.locked ≠ 0 then (.outOfOrder, s)
  else if s.failed then (.deviceInvalidated, s)
  else if frames > sub32 s.capacity s.held then (.bufferTooLarge, s)
  else (.ok, { s with locked := frames })

/-- The `out_frames` of `nx_release_render_buffer`. -/
def outFrames (rate written : Nat) : Nat :=
  let frames := u32 (written * nxRate) / rate
  if written ≠ 0 ∧ frames = 0 then 1 else frames

/-- The source frame of an output frame. -/
def srcFrame (rate i : Nat) : Nat := u32 (i * rate / nxRate)

/-- The frame stored for output frame `i` of a release. -/
def releasedFrame (m : Machine) (s : Stream) (silent : Bool) (i : Nat) : Frame :=
  storeFrame m s.source s.volume silent
    fun k => s.scratch (u32 (srcFrame s.source.rate i * s.source.frameBytes) + k)

/-- Output frame `i` of a release comes from source frame `i * rate / 48000`. -/
def originOf (s : Stream) (silent : Bool) (i : Nat) : Origin where
  source := s.source
  volume := s.volume
  silent := silent
  frame k :=
    if k < s.source.frameBytes then s.scratch (i * s.source.rate / nxRate * s.source.frameBytes + k) else 0

/-- `nx_release_render_buffer`; bit 1 of the flags is `AUDCLNT_BUFFERFLAGS_SILENT`. -/
def releaseRenderBuffer (m : Machine) (s : Stream) (written : Nat) (flags : UInt32) : Result × Stream :=
  if flags &&& ~~~2 ≠ 0 then (.invalidArg, s)
  else if written ≠ 0 ∧ s.locked = 0 then (.outOfOrder, s)
  else if written > s.locked then (.invalidSize, s)
  else
    let out := outFrames s.source.rate written
    if out > sub32 s.capacity s.held then (.bufferTooLarge, s)
    else
      let frame := releasedFrame m s (flags &&& 2 ≠ 0)
      (.ok, { s with
        ring := (List.range out).foldl
          (fun ring i => Function.update ring (u32 (s.read + s.held + i) % s.capacity) (frame i)) s.ring
        held := u32 (s.held + out)
        locked := 0
        trace := { s.trace with
          written := s.trace.written ++ (List.range out).map frame
          origin := (List.range out).foldl
            (fun origin i => Function.update origin (u32 (s.read + s.held + i) % s.capacity)
              (some (originOf s (flags &&& 2 ≠ 0) i))) s.trace.origin } })

def reset (s : Stream) (initialized : Bool) : Result × Stream :=
  if s.running then (.notStopped, s)
  else if s.locked ≠ 0 then (.bufferOperationPending, s)
  else
    (if initialized then .ok else .deviceInvalidated,
      { s with
        read := 0, held := 0, submitted := 0, frames := fun _ => 0, played := 0
        trace := { s.trace with base := s.trace.written.length, done := 0, recent := [], start := 0 } })

/-- `nx_set_volumes`, for the product of the volumes. -/
def setVolumes (s : Stream) (left right : ℚ) : Stream :=
  { s with
    volume := (if 0 ≤ left ∧ left ≤ 1 then left else 0, if 0 ≤ right ∧ right ≤ 1 then right else 0) }

def setEventHandle (s : Stream) : Stream := if s.eventCallback ∧ s.event = false then { s with event := true } else s

end Autorun.Audio
