import Mathlib.Logic.Function.Basic
import Autorun.Lib.Words

namespace Autorun.Heap.Backing

open Autorun.Lib Function

def unit : Nat := 65536

def bins : Nat := 18

def none : Nat := 2 ^ 32 - 1

def sizeMax : Nat := 2 ^ 64 - 1

/-- `length | BACKING_USED`. -/
def usedTag (length : Nat) : Nat := length % 2 ^ 31 + 2 ^ 31

/-- `tag & BACKING_USED`. -/
def isUsed (tag : Nat) : Bool := tag / 2 ^ 31 % 2 = 1

/-- `tag & ~BACKING_USED`. -/
def bare (tag : Nat) : Nat := tag % 2 ^ 31

/-- `struct backing_heap`, with a table for each field of `struct backing_block`. -/
structure BackingHeap where
  length : Nat → Nat := fun _ => 0
  next : Nat → Nat := fun _ => 0
  previous : Nat → Nat := fun _ => 0
  base : Nat
  count : Nat
  bottom : Nat
  bins : Nat → Nat := fun _ => none
  holes : Nat := 0
  used : Nat := 0

def bin (length : Nat) : Nat := Nat.log2 length

/-- `backing_init`, over a table as it is found. -/
def init (length next previous : Nat → Nat) (base count : Nat) : BackingHeap :=
  { length, next, previous, base, count, bottom := count }

def tag (h : BackingHeap) (first length : Nat) (used : Bool) : BackingHeap :=
  let v := if used then usedTag length else length
  { h with length := update (update h.length (first + length - 1) v) first v }

def insert (h : BackingHeap) (first length : Nat) : BackingHeap :=
  let h := tag h first length false
  let h := { h with previous := update h.previous first none }
  let h := { h with next := update h.next first (h.bins (bin length)) }
  let h :=
    if h.next first ≠ none then
      { h with previous := update h.previous (h.next first) first }
    else h
  { h with bins := update h.bins (bin length) first, holes := h.holes + 1 }

def remove (h : BackingHeap) (first : Nat) : BackingHeap :=
  let h :=
    if h.previous first ≠ none then
      { h with next := update h.next (h.previous first) (h.next first) }
    else { h with bins := update h.bins (bin (h.length first)) (h.next first) }
  let h :=
    if h.next first ≠ none then
      { h with previous := update h.previous (h.next first) (h.previous first) }
    else h
  { h with holes := h.holes - 1 }

/-- Where a block of `size` bytes goes that ends at unit `stop` or before. -/
def place (h : BackingHeap) (stop size alignment : Nat) : Nat :=
  sub64 (add64 h.base (stop * unit)) size / alignment * alignment

/-- The loop of `backing_alloc` over a bin, for the turns left. -/
def scan (h : BackingHeap) (length size alignment : Nat) : Nat → Nat → Nat → Nat
  | 0, _, best => best
  | left + 1, first, best =>
    if first = none then best
    else if h.length first < length then scan h length size alignment left (h.next first) best
    else if place h (first + h.length first) size alignment < h.base + first * unit then
      scan h length size alignment left (h.next first) best
    else
      let best := if best = none ∨ h.length first < h.length best then first else best
      if h.length first = length then best
      else scan h length size alignment left (h.next first) best

/-- The loop of `backing_alloc` over the bins left. No list is longer than the heap has units. -/
def search (h : BackingHeap) (length size alignment : Nat) : Nat → Nat → Nat
  | 0, _ => none
  | left + 1, b =>
    let best := scan h length size alignment (h.count + 1) (h.bins b) none
    if best ≠ none then best else search h length size alignment left (b + 1)

/-- The pieces of a hole on both sides of a block are holes again. -/
def carve (h : BackingHeap) (first stop at_ length : Nat) : BackingHeap :=
  let h := remove h first
  let h := if at_ > first then insert h first (at_ - first) else h
  if at_ + length < stop then insert h (at_ + length) (stop - at_ - length) else h

/-- The block is tagged and counted. -/
def grant (h : BackingHeap) (at_ length size : Nat) : BackingHeap :=
  let h := tag h at_ length true
  { h with used := h.used + size }

def alloc (h : BackingHeap) (floor alignment size : Nat) : Option Nat × BackingHeap :=
  if size = 0 ∨ alignment = 0 ∨ alignment &&& (alignment - 1) ≠ 0 ∨ size > sizeMax - (unit - 1) then
    (Option.none, h)
  else
    let size := (size + unit - 1) / unit * unit
    let alignment := if alignment < unit then unit else alignment
    if size / unit > h.count then (Option.none, h)
    else
      let length := size / unit
      let first := search h length size alignment (bins - bin length) (bin length)
      if first ≠ none then
        let stop := first + h.length first
        let address := place h stop size alignment
        let at_ := (address - h.base) / unit
        (some address, grant (carve h first stop at_ length) at_ length size)
      else
        let stop := h.bottom
        if length > stop then (Option.none, h)
        else
          let address := place h stop size alignment
          if address < h.base ∨ address < floor then (Option.none, h)
          else
            let at_ := (address - h.base) / unit
            let h := { h with bottom := at_ }
            let h := if at_ + length < stop then insert h (at_ + length) (stop - at_ - length) else h
            (some address, grant h at_ length size)

/-- The hole before the block becomes part of it. -/
def mergeBefore (h : BackingHeap) (first length : Nat) : Nat × Nat × BackingHeap :=
  if first > h.bottom ∧ isUsed (h.length (first - 1)) = false then
    let adjacent := h.length (first - 1)
    (first - adjacent, length + adjacent, remove h (first - adjacent))
  else (first, length, h)

/-- The hole behind the block becomes part of it. -/
def mergeAfter (h : BackingHeap) (first length : Nat) : Nat × BackingHeap :=
  if first + length < h.count ∧ isUsed (h.length (first + length)) = false then
    (length + h.length (first + length), remove h (first + length))
  else (length, h)

/-- `backing_free` of the block at a unit. -/
def freeAt (h : BackingHeap) (first : Nat) : BackingHeap :=
  let length := bare (h.length first)
  let h := { h with used := h.used - length * unit }
  let (first, length, h) := mergeBefore h first length
  let (length, h) := mergeAfter h first length
  if first = h.bottom then { h with bottom := h.bottom + length } else insert h first length

def free (h : BackingHeap) (pointer : Nat) : BackingHeap := freeAt h ((pointer - h.base) / unit)

def resize (h : BackingHeap) (pointer size : Nat) : Bool × BackingHeap :=
  let first := (pointer - h.base) / unit
  let previous := bare (h.length first)
  if size = 0 ∨ size > sizeMax - (unit - 1) then (false, h)
  else
    let size := (size + unit - 1) / unit * unit
    if size / unit > h.count then (false, h)
    else
      let length := size / unit
      if length = previous then (true, h)
      else if length < previous then
        let h := tag h first length true
        let h := tag h (first + length) (previous - length) true
        (true, freeAt h (first + length))
      else if first + previous = h.count then (false, h)
      else
        let adjacent := h.length (first + previous)
        if isUsed adjacent ∨ length - previous > adjacent then (false, h)
        else
          let h := remove h (first + previous)
          let h :=
            if length - previous < adjacent then insert h (first + length) (previous + adjacent - length)
            else h
          let h := tag h first length true
          (true, { h with used := h.used + (length - previous) * unit })

/-- A block that was handed out, and the alignment it was asked with. -/
structure Live where
  pointer : Nat
  alignment : Nat
deriving DecidableEq

/-- The heap and the blocks that were handed out and not freed. -/
structure World where
  heap : BackingHeap
  live : List Live := []

inductive Op
  | alloc (floor alignment size : Nat)
  | free (block : Live)
  | resize (block : Live) (size : Nat)
deriving DecidableEq

namespace World

def step (w : World) : Op → World
  | .alloc floor alignment size =>
    let (pointer, heap) := Backing.alloc w.heap floor alignment size
    ⟨heap, (pointer.map fun p => ⟨p, alignment⟩).toList ++ w.live⟩
  | .free block => ⟨Backing.free w.heap block.pointer, w.live.erase block⟩
  | .resize block size => { w with heap := (Backing.resize w.heap block.pointer size).2 }

/-- The unit a block begins in. -/
def first (w : World) (l : Live) : Nat := (l.pointer - w.heap.base) / unit

/-- How many bytes a block has, as its tag says. -/
def bytes (w : World) (l : Live) : Nat := bare (w.heap.length (w.first l)) * unit

/-- What is freed or resized was handed out and not freed since. -/
def Ok (w : World) : Op → Prop
  | .alloc _ _ _ => True
  | .free block => block ∈ w.live
  | .resize block _ => block ∈ w.live

instance (w : World) (op : Op) : Decidable (w.Ok op) := by
  cases op <;> unfold Ok <;> infer_instance

end World

end Autorun.Heap.Backing
