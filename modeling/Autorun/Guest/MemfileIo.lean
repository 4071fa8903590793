import Mathlib.Algebra.Group.Int.Defs
import Autorun.Lib.Bytes
import Autorun.Guest.World

namespace Autorun.Guest

open Autorun.Lib

def einval : Int := 22

def enospc : Int := 28

/-- The largest `off_t`. -/
def maxOff : Int := 2 ^ 63 - 1

/-- The memory a section lives in: the kernel's mappings, the bytes of the heap
pages, which all mappings of a page share, and how many calls were made. -/
structure Memory where
  kernel : Kernel
  heap : Nat → Nat → Page
  calls : Nat

/-- What the surroundings answer at each call: whether it is refused, and the
address a new anchor is tried at. -/
structure Answers where
  refused : Nat → Bool
  address : Nat → Nat

/-- A kernel call, unless it is refused. -/
def kernelCall (ans : Answers) (call : Kernel → Option Kernel) (m : Memory) : Option Memory :=
  if ans.refused m.calls then none
  else (call m.kernel).map fun kernel => { m with kernel, calls := m.calls + 1 }

/-- The memory after a call that did nothing. -/
def Memory.tick (m : Memory) : Memory := { m with calls := m.calls + 1 }

/-- The operations of a section whose own pages are the heap block `data`. An
anchor is a read-write code mapping at an address nothing has. -/
def pageOps (ans : Answers) (data : Nat) : MemfileOps Memory where
  calloc m := (if ans.refused m.calls then some .nomem else none, m.tick)
  anchor m first count :=
    let addr := ans.address m.calls
    match kernelCall ans (fun k => (k.mapCode addr data first count).bind
        (·.setPerm addr count .rw)) m with
    | none => (.error .nomem, m.tick)
    | some m => (.ok addr, m)
  unanchor m a :=
    match kernelCall ans (·.unmapCode a.addr data a.first a.count) m with
    | none => (some .inval, m.tick)
    | some m => (none, m)
  aliasPages _ m dst src count :=
    match kernelCall ans (·.mapView dst src count) m with
    | none => (some .nomem, m.tick)
    | some m => (none, m)
  unaliasPages _ m dst src count :=
    match kernelCall ans (·.unmapView dst src count) m with
    | none => (some .inval, m.tick)
    | some m => (none, m)

/-- A byte pointer: into a heap block, or to an address the kernel maps. -/
inductive Ptr where
  | heap (block offset : Nat)
  | mapped (addr : Nat)
  deriving DecidableEq, Repr

def Ptr.add : Ptr → Nat → Ptr
  | .heap block offset, n => .heap block (offset + n)
  | .mapped addr, n => .mapped (addr + n)

namespace Memory

/-- The heap page and the byte of it a pointer reaches, if the access does not
fault: a heap page that is lent faults at its own address. -/
def reach (m : Memory) (write : Bool) : Ptr → Option (Nat × Nat × Nat)
  | .heap block offset =>
    if (m.kernel.lentTo block (offset / pageSize)).isNone then
      some (block, offset / pageSize, offset % pageSize)
    else none
  | .mapped addr =>
    match m.kernel.pages (addr / pageSize) with
    | none => none
    | some e =>
      if e.perm = .rw ∨ (write = false ∧ e.perm ≠ .none) then
        some (e.block, e.page, addr % pageSize)
      else none

def setByte (m : Memory) (block page offset : Nat) (b : UInt8) : Memory :=
  { m with heap := fun b' p' i =>
      if b' = block ∧ p' = page ∧ i = offset then b else m.heap b' p' i }

/-- `memcpy` out of memory. -/
def load (m : Memory) (ptr : Ptr) : Nat → Option (List UInt8)
  | 0 => some []
  | n + 1 =>
    match m.reach false ptr with
    | none => none
    | some (block, page, offset) =>
      (load m (ptr.add 1) n).map fun bytes => m.heap block page offset :: bytes

/-- `memcpy` into memory. -/
def store (m : Memory) (ptr : Ptr) : List UInt8 → Option Memory
  | [] => some m
  | b :: bytes =>
    match m.reach true ptr with
    | none => none
    | some (block, page, offset) => store (m.setByte block page offset b) (ptr.add 1) bytes

end Memory

/-- Where a transfer at `offset` goes on: the end of the piece and its address,
by the first anchor that ends after `offset`. -/
def copyPlace (file : Memfile) (offset : Nat) : List Anchor → Nat × Ptr
  | [] => (file.size * pageSize, .heap file.data offset)
  | a :: _ =>
    if a.first ≤ offset / pageSize then
      (a.stop * pageSize, .mapped (a.addr * pageSize + (offset - a.first * pageSize)))
    else (a.first * pageSize, .heap file.data offset)

/-- One `memcpy` of a transfer, between the memory and the buffer. -/
def copyChunk (write : Bool) (ptr : Ptr) (chunk : List UInt8) (m : Memory) :
    Option (List UInt8 × Memory) :=
  if write then (m.store ptr chunk).map fun m => (chunk, m)
  else (m.load ptr chunk.length).map fun bytes => (bytes, m)

/-- The loop of `horizon_memfile_copy_locked`, piece by piece; each piece has at
least a byte, so the length bounds the turns. Gives the buffer back as it is
then. -/
def copyLoop (file : Memfile) (write : Bool) :
    Nat → List Anchor → Nat → List UInt8 → Memory → Option (List UInt8 × Memory)
  | _, _, _, [], m => some ([], m)
  | 0, _, _, _ :: _, _ => none
  | fuel + 1, anchors, offset, b :: bytes, m =>
    let buffer := b :: bytes
    let anchors := anchors.dropWhile fun a => a.stop ≤ offset / pageSize
    let (stop, ptr) := copyPlace file offset anchors
    let chunk := min (stop - offset) buffer.length
    match copyChunk write ptr (buffer.take chunk) m with
    | none => none
    | some (done, m) =>
      (copyLoop file write fuel anchors (offset + chunk) (buffer.drop chunk) m).map
        fun (rest, m) => (done ++ rest, m)

def copyLocked (file : Memfile) (write : Bool) (offset : Nat) (buffer : List UInt8) (m : Memory) :
    Option (List UInt8 × Memory) :=
  copyLoop file write buffer.length file.anchors offset buffer m

/-- What a transfer gives: the return value, a count or a negative `errno`, and
the caller's buffer. -/
structure Reply where
  ret : Int
  buffer : List UInt8
  deriving DecidableEq, Repr

/-- `horizon_memfile_pread_locked`, into a buffer of the length asked for. -/
def preadLocked (file : Memfile) (buffer : List UInt8) (offset : Int) (m : Memory) :
    Option (Reply × Memory) :=
  if offset < 0 then some (⟨-einval, buffer⟩, m)
  else if file.size * pageSize ≤ offset.toNat then some (⟨0, buffer⟩, m)
  else
    let count := min (file.size * pageSize - offset.toNat) buffer.length
    (copyLocked file false offset.toNat (buffer.take count) m).map
      fun (bytes, m) => (⟨count, bytes ++ buffer.drop count⟩, m)

def pwriteLocked (file : Memfile) (buffer : List UInt8) (offset : Int) (m : Memory) :
    Option (Reply × Memory) :=
  if offset < 0 then some (⟨-einval, buffer⟩, m)
  else if buffer = [] then some (⟨0, buffer⟩, m)
  else if file.size * pageSize ≤ offset.toNat then some (⟨-enospc, buffer⟩, m)
  else
    let count := min (file.size * pageSize - offset.toNat) buffer.length
    (copyLocked file true offset.toNat (buffer.take count) m).map
      fun (bytes, m) => (⟨count, bytes ++ buffer.drop count⟩, m)

inductive Whence where
  | set
  | cur
  | fromEnd
  | other
  deriving DecidableEq, Repr

/-- A section with the position its descriptors share. -/
structure OpenSection where
  file : Memfile
  pos : Int
  memory : Memory

def memfileSeek (s : OpenSection) (offset : Int) (whence : Whence) : Int × OpenSection :=
  let move := fun base : Int =>
    if (0 < offset ∧ maxOff - offset < base) ∨ base + offset < 0 then (-einval, s)
    else (base + offset, { s with pos := base + offset })
  match whence with
  | .set => move 0
  | .cur => move s.pos
  | .fromEnd => move (s.file.size * pageSize : Nat)
  | .other => (-einval, s)

/-- A call on a section, each one step under its lock. -/
inductive SectionCall where
  | pread (buffer : List UInt8) (offset : Int)
  | pwrite (buffer : List UInt8) (offset : Int)
  | read (buffer : List UInt8)
  | write (buffer : List UInt8)
  | seek (offset : Int) (whence : Whence)
  | map (dst offset size : Nat)
  | use (offset size : Nat) (up : Bool)
  | trim
  deriving DecidableEq, Repr

/-- `horizon_memfile_read` and `horizon_memfile_write`: the position moves by
what was transferred. -/
def atPosition (s : OpenSection) (transfer : Option (Reply × Memory)) :
    Option (Reply × OpenSection) :=
  transfer.map fun (r, memory) =>
    (r, { s with memory, pos := if 0 < r.ret then s.pos + r.ret else s.pos })

/-- One call; `none` is a fault. -/
def sectionCall (ans : Answers) (s : OpenSection) :
    SectionCall → Option (Option Reply × OpenSection)
  | .pread buffer offset =>
    (preadLocked s.file buffer offset s.memory).map
      fun (r, memory) => (some r, { s with memory })
  | .pwrite buffer offset =>
    (pwriteLocked s.file buffer offset s.memory).map
      fun (r, memory) => (some r, { s with memory })
  | .read buffer =>
    (atPosition s (preadLocked s.file buffer s.pos s.memory)).map fun (r, s) => (some r, s)
  | .write buffer =>
    (atPosition s (pwriteLocked s.file buffer s.pos s.memory)).map fun (r, s) => (some r, s)
  | .seek offset whence =>
    let (ret, s) := memfileSeek s offset whence
    some (some ⟨ret, []⟩, s)
  | .map dst offset size =>
    let (_, file, memory) := memfileMap (pageOps ans s.file.data) s.file dst offset size s.memory
    some (none, { s with file, memory })
  | .use offset size up =>
    let (file, memory) := memfileUse (pageOps ans s.file.data) s.file offset size up s.memory
    some (none, { s with file, memory })
  | .trim =>
    let (anchors, memory) := trim (pageOps ans s.file.data) s.file.anchors s.memory
    some (none, { s with file := { s.file with anchors }, memory })

/-- The calls in turn, with what the transfers among them gave. -/
def sectionCalls (ans : Answers) : OpenSection → List SectionCall →
    Option (List Reply × OpenSection)
  | s, [] => some ([], s)
  | s, c :: cs =>
    match sectionCall ans s c with
    | none => none
    | some (r, s) => (sectionCalls ans s cs).map fun (rs, s) => (r.toList ++ rs, s)

/-- A section as `horizon_memfile_alloc` gives it: `size` pages of its own heap
block, none of them lent. The rest of memory is `m`'s. -/
def allocSection (data size : Nat) (m : Memory) : OpenSection :=
  { file := ⟨data, size, 1, []⟩
    pos := 0
    memory := { m with
      kernel := { m.kernel with
        lentTo := fun b q => if b = data then none else m.kernel.lentTo b q }
      heap := fun b q => if b = data then zeroPage else m.heap b q } }

end Autorun.Guest
