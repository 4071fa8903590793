import Mathlib.Logic.Function.Basic
import Autorun.Lib.Run
import Autorun.Lib.Words

namespace Autorun.Heap.CodeArena

open Autorun.Lib

def align : Nat := 16

def header : Nat := 16

/-- `CODE_ARENA_MIN`, which is also `sizeof(struct code_chunk)`. -/
def least : Nat := header + align

def bins : Nat := 24

def walk : Nat := 32

def none : Nat := 2 ^ 32 - 1

/-- `struct code_arena` with the words behind its base, each at the offset of its first byte. -/
structure Arena where
  size : Nat
  live : Nat := 0
  bins : Nat → Nat := fun _ => none
  mem : Nat → Nat

namespace Arena

variable (a : Arena) (offset : Nat)

def store (v : Nat) : Arena := { a with mem := Function.update a.mem offset v }

/-- The fields of `struct code_chunk`. The last lies in what a chunk in use hands out. -/
def chunkSize : Nat := a.mem offset

def prevSize : Nat := a.mem (offset + 4)

def free : Nat := a.mem (offset + 8)

def nextFree : Nat := a.mem (offset + 12)

def prevFree : Nat := a.mem (offset + 16)

end Arena

/-- The loop of `code_arena_bin`, for the bins left. -/
def binFrom : Nat → Nat → Nat → Nat
  | 0, _, bin => bin
  | left + 1, size, bin => if size > 1 then binFrom left (size / 2) (bin + 1) else bin

def arenaBin (size : Nat) : Nat := binFrom (bins - 1) (size / 32) 0

def unlink (a : Arena) (offset : Nat) : Arena :=
  let a :=
    if a.prevFree offset ≠ none then a.store (a.prevFree offset + 12) (a.nextFree offset)
    else { a with bins := Function.update a.bins (arenaBin (a.chunkSize offset)) (a.nextFree offset) }
  let a :=
    if a.nextFree offset ≠ none then a.store (a.nextFree offset + 16) (a.prevFree offset) else a
  let a := a.store (offset + 8) 0
  let a := a.store (offset + 16) none
  a.store (offset + 12) none

def link (a : Arena) (offset : Nat) : Arena :=
  let bin := arenaBin (a.chunkSize offset)
  let a := a.store (offset + 8) 1
  let a := a.store (offset + 16) none
  let a := a.store (offset + 12) (a.bins bin)
  let a := if a.nextFree offset ≠ none then a.store (a.nextFree offset + 16) offset else a
  { a with bins := Function.update a.bins bin offset }

def round (size : Nat) : Nat :=
  let want := add32 (size % 2 ^ 32) header
  let want := add32 want (align - 1) / align * align
  if want < least then least else want

/-- `memset` of a `struct code_chunk` to zero. -/
def clear (a : Arena) (offset : Nat) : Arena :=
  { a with mem := fun x => if offset ≤ x ∧ x < offset + least then 0 else a.mem x }

/-- `code_arena_init`, over memory as it is found. -/
def init (mem : Nat → Nat) (size : Nat) : Arena :=
  let a : Arena := { size := size / align * align % 2 ^ 32, mem }
  if a.size < least then a
  else link ((clear a 0).store 0 a.size) 0

/-- The loop of `code_arena_search` over one bin, for the chunks still tried. -/
def tryChunks (a : Arena) (want : Nat) : Nat → Nat → Nat
  | 0, _ => none
  | left + 1, offset =>
    if offset = none then none
    else if a.chunkSize offset ≥ want then offset
    else tryChunks a want left (a.nextFree offset)

/-- The loop of `code_arena_search` over the bins left. -/
def searchFrom (a : Arena) (want : Nat) : Nat → Nat → Nat
  | 0, _ => none
  | left + 1, bin =>
    let offset := tryChunks a want walk (a.bins bin)
    if offset ≠ none then offset else searchFrom a want left (bin + 1)

def search (a : Arena) (want : Nat) : Nat := searchFrom a want (bins - arenaBin want) (arenaBin want)

/-- The tail of a chunk becomes a chunk of its own. -/
def splitTail (a : Arena) (offset want rest : Nat) : Arena :=
  let tail := add32 offset want
  let after := add32 offset (a.chunkSize offset)
  let a := clear a tail
  let a := a.store tail rest
  let a := a.store (tail + 4) want
  let a := a.store offset want
  let a := if after < a.size then a.store (after + 4) rest else a
  link a tail

def alloc (a : Arena) (size : Nat) : Nat × Arena :=
  let want := round size
  let offset := search a want
  if offset = none then (0, a)
  else
    let a := unlink a offset
    let rest := sub32 (a.chunkSize offset) want
    let a := if rest ≥ least then splitTail a offset want rest else a
    (add32 offset header, { a with live := add32 a.live (a.chunkSize offset) })

/-- The chunk takes in the one behind it, if that is free. -/
def mergeAfter (a : Arena) (offset : Nat) : Arena :=
  let after := add32 offset (a.chunkSize offset)
  if after < a.size ∧ a.free after ≠ 0 then
    let a := unlink a after
    a.store offset (add32 (a.chunkSize offset) (a.chunkSize after))
  else a

/-- The one before the chunk takes it in, if that is free; the offset of the chunk it then is. -/
def mergeBefore (a : Arena) (offset : Nat) : Nat × Arena :=
  if a.prevSize offset ≠ 0 then
    let before := sub32 offset (a.prevSize offset)
    if a.free before ≠ 0 then
      let a := unlink a before
      (before, a.store before (add32 (a.chunkSize before) (a.chunkSize offset)))
    else (offset, a)
  else (offset, a)

/-- The chunk behind learns the size of this one, which is then free. -/
def settle (a : Arena) (offset : Nat) : Arena :=
  let after := add32 offset (a.chunkSize offset)
  let a := if after < a.size then a.store (after + 4) (a.chunkSize offset) else a
  link a offset

/-- `code_arena_free`: what is free there now, or zero if there was nothing to free. -/
def arenaFree (a : Arena) (payload : Nat) : Nat × Arena :=
  let offset := sub32 payload header
  if payload < header ∨ payload ≥ a.size ∨ a.free offset ≠ 0 then (0, a)
  else
    let a := { a with live := sub32 a.live (a.chunkSize offset) }
    let a := mergeAfter a offset
    let (offset, a) := mergeBefore a offset
    let a := settle a offset
    (a.chunkSize offset, a)

/-- An arena and the payloads that are handed out. -/
structure World where
  arena : Arena
  held : List Nat := []

inductive Op
  | alloc (size : Nat)
  | free (payload : Nat)
  | write (address value : Nat)
deriving DecidableEq

namespace World

/-- One call, or a word the holder of a payload writes. -/
def step (w : World) : Op → World
  | .alloc size =>
    let (payload, arena) := CodeArena.alloc w.arena size
    ⟨arena, if payload = 0 then w.held else payload :: w.held⟩
  | .free payload => ⟨(arenaFree w.arena payload).2, w.held.erase payload⟩
  | .write address value => { w with arena := w.arena.store address value }

/-- The bytes of a payload. -/
def Within (w : World) (payload address : Nat) : Prop :=
  payload ≤ address ∧ address < payload - header + w.arena.chunkSize (payload - header)

/-- What is freed was handed out and not freed since, and holders write to what they hold. -/
def Ok (w : World) : Op → Prop
  | .alloc _ => True
  | .free payload => payload ∈ w.held
  | .write address _ => ∃ payload ∈ w.held, w.Within payload address

instance (w : World) (payload address : Nat) : Decidable (w.Within payload address) :=
  inferInstanceAs (Decidable (_ ∧ _))

instance (w : World) : (op : Op) → Decidable (w.Ok op)
  | .alloc _ => isTrue trivial
  | .free payload => inferInstanceAs (Decidable (payload ∈ w.held))
  | .write address _ => inferInstanceAs (Decidable (∃ payload ∈ w.held, w.Within payload address))

end World

/-- Where the chunks start, one behind the other from the start of the arena. -/
inductive Chunk (a : Arena) : Nat → Prop
  | first : Chunk a 0
  | next : Chunk a offset → offset < a.size → Chunk a (offset + a.chunkSize offset)

/-- A world, and the payloads that have been freed in it and not handed out again: no block that was
handed out since covers the header of one. -/
structure History where
  world : World
  freed : List Nat := []

/-- A new arena. What lies behind it is no part of its memory. -/
def History.start (mem : Nat → Nat) (size : Nat) : History :=
  { world := { arena := init (fun x => if x < size % 2 ^ 32 then mem x else 0) size } }

def History.step (h : History) (op : Op) : History :=
  let world := h.world.step op
  match op with
  | .alloc size =>
    let payload := (alloc h.world.arena size).1
    let stop := payload - header + world.arena.chunkSize (payload - header)
    if payload = 0 then { h with world }
    else ⟨world, h.freed.filter fun p => ¬(payload ≤ p ∧ p - header < stop)⟩
  | .free payload => ⟨world, payload :: h.freed⟩
  | .write _ _ => { h with world }

end Autorun.Heap.CodeArena
