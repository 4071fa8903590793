import Mathlib.Algebra.Group.Nat.Defs
import Mathlib.Logic.Function.Basic
import Autorun.Lib.Run

namespace Autorun.Swap.Index

/-- `struct horizon_swap_index`: the words of each region that is allocated. -/
abbrev SwapIndex := Nat → Option (Nat → BitVec 64)

def mask (first last : Nat) : BitVec 64 := (BitVec.allOnes 64 <<< first) &&& (BitVec.allOnes 64 >>> (63 - last))

/-- Where the word of a page ends, or the range. -/
def wordEnd (page stop : Nat) : Nat := min (page / 64 * 64 + 64) stop

/-- The words of a page's region, from `calloc` if the call sets and the region has none. -/
def region (memory : Nat → Bool) (set : Bool) (index : SwapIndex) (page : Nat) : Option (Nat → BitVec 64) :=
  match index (page / 32768) with
  | some bits => some bits
  | none => if set = true ∧ memory (page / 32768) = true then some fun _ => 0#64 else none

/-- The loop of `swap_index_update`, for the turns left. -/
def updateLoop (memory : Nat → Bool) (set : Bool) (stop : Nat) : Nat → SwapIndex → Nat → Bool × SwapIndex
  | 0, index, _ => (true, index)
  | left + 1, index, page =>
    if page < stop then
      let next := wordEnd page stop
      let m := mask (page % 64) ((next - 1) % 64)
      match region memory set index page with
      | none => if set then (false, index) else updateLoop memory set stop left index next
      | some bits =>
        let old := bits (page / 64 % 512)
        let bits := Function.update bits (page / 64 % 512) (if set then old ||| m else old &&& ~~~m)
        updateLoop memory set stop left (Function.update index (page / 32768) (some bits)) next
    else (true, index)

/-- The arguments of `swap_index_update`, and for which regions `calloc` has memory. -/
structure Call where
  addr : Nat
  size : Nat
  set : Bool
  memory : Nat → Bool := fun _ => true

/-- `swap_index_update`: whether it returned 0. -/
def swapIndexUpdate (index : SwapIndex) (c : Call) : Bool × SwapIndex :=
  if c.size = 0 then (true, index)
  else if c.addr ≥ 2 ^ 39 ∨ c.size > 2 ^ 39 - c.addr then (false, index)
  else
    let page := if c.set then c.addr / 4096 else (c.addr + 4095) / 4096
    let stop := if c.set then (c.addr + c.size + 4095) / 4096 else (c.addr + c.size) / 4096
    updateLoop c.memory c.set stop (stop - page) index page

/-- The loop of `swap_index_contains`, for the turns left. -/
def containsLoop (index : SwapIndex) (stop : Nat) : Nat → Nat → Bool
  | 0, _ => false
  | left + 1, page =>
    if page < stop then
      match index (page / 32768) with
      | none => containsLoop index stop left (min (page / 32768 * 32768 + 32768) stop)
      | some bits =>
        let next := wordEnd page stop
        if bits (page / 64 % 512) &&& mask (page % 64) ((next - 1) % 64) ≠ 0#64 then true
        else containsLoop index stop left next
    else false

def swapIndexContains (index : SwapIndex) (addr size : Nat) : Bool :=
  if size = 0 then false
  else if size - 1 > 2 ^ 64 - 1 - addr then true
  else if addr ≥ 2 ^ 39 then false
  else
    let size := if size > 2 ^ 39 - addr then 2 ^ 39 - addr else size
    let page := addr / 4096
    let stop := (addr + size + 4095) / 4096
    containsLoop index stop (stop - page) page

/-- The bit of a page. -/
def marked (index : SwapIndex) (page : Nat) : Bool :=
  (index (page / 32768)).any fun bits => (bits (page / 64 % 512)).getLsbD (page % 64)

end Autorun.Swap.Index
