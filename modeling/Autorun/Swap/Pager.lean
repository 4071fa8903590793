import Mathlib.Algebra.Group.Nat.Defs
import Autorun.Lib.Run
import Mathlib.Logic.Function.Basic

namespace Autorun.Swap.Pager

open Function

/-- The bytes of one page. -/
abbrev Page (n : Nat) := Fin n → UInt8

def zeroPage (n : Nat) : Page n := fun _ => 0

/-- Where `errno` comes from: the pager's own checks, or the callback that
failed. -/
inductive Fail where
  | inval
  | io
  | busy
  | callback (errno : Nat)
  deriving DecidableEq, Repr

abbrev Result := Except Fail Unit

/-- The bounds of `int` and `unsigned int`. -/
def intMax : Nat := 2 ^ 31 - 1

def uintMax : Nat := 2 ^ 32 - 1

/-- A slot of -1 is `none`. -/
structure SwapPage where
  slot : Option Nat
  pins : Nat
  stored : Bool
  deriving DecidableEq, Repr

/-- The two arrays are functions below `pageCount` and `slotCount`; an owner
of -1 is `none`. -/
structure SwapPager where
  pages : Nat → SwapPage
  owners : Nat → Option Nat
  pageCount : Nat
  slotCount : Nat
  hand : Nat
  faults : Nat
  reads : Nat
  writes : Nat
  poisoned : Bool

/-- What the callbacks of one run do: the error the n-th call made returns, if
it fails, and the bytes a failed read leaves behind in the slot. -/
structure Callbacks (n : Nat) where
  fails : Nat → Option Nat
  junk : Nat → Page n

/-- The callbacks' side: the frames, the stored copies, what is mapped where,
and the number of calls made so far. -/
structure Context (n : Nat) where
  ram : Nat → Page n
  disk : Nat → Page n
  mapped : Nat → Option Nat
  calls : Nat

/-- The pager with its context. `last` is the bytes the guest last left in each
page; no function of the pager reads it. -/
structure State (n : Nat) where
  pager : SwapPager
  ctx : Context n
  last : Nat → Page n

section Callbacks
variable {n : Nat} (cb : Callbacks n)

def Context.map (c : Context n) (page slot : Nat) : Option Nat × Context n :=
  match cb.fails c.calls with
  | some e => (some e, { c with calls := c.calls + 1 })
  | none => (none, { c with
      mapped := update c.mapped slot (some page), calls := c.calls + 1 })

def Context.unmap (c : Context n) (slot : Nat) : Option Nat × Context n :=
  match cb.fails c.calls with
  | some e => (some e, { c with calls := c.calls + 1 })
  | none => (none, { c with
      mapped := update c.mapped slot none, calls := c.calls + 1 })

def Context.read (c : Context n) (page slot : Nat) : Option Nat × Context n :=
  match cb.fails c.calls with
  | some e => (some e, { c with
      ram := update c.ram slot (cb.junk c.calls), calls := c.calls + 1 })
  | none => (none, { c with
      ram := update c.ram slot (c.disk page), calls := c.calls + 1 })

def Context.write (c : Context n) (page slot : Nat) : Option Nat × Context n :=
  match cb.fails c.calls with
  | some e => (some e, { c with calls := c.calls + 1 })
  | none => (none, { c with
      disk := update c.disk page (c.ram slot), calls := c.calls + 1 })

def Context.zero (c : Context n) (slot : Nat) : Context n :=
  { c with ram := update c.ram slot (zeroPage n) }

end Callbacks

/-- The pager `swap_pager_init` leaves; `none` when it refuses the counts. The
two `calloc`s can fail, which leaves no pager either. -/
def swapPagerInit (pages slots : Nat) : Option SwapPager :=
  if pages = 0 ∨ slots = 0 ∨ slots > pages ∨ pages > intMax then none
  else some {
    pages := fun _ => ⟨none, 0, false⟩
    owners := fun _ => none
    pageCount := pages
    slotCount := slots
    hand := 0, faults := 0, reads := 0, writes := 0, poisoned := false }

/-- The clock: at most `i` slots looked at, each one passed over moves the hand. -/
def clockScan (p : SwapPager) : Nat → Nat → Option Nat × Nat
  | 0, hand => (none, hand)
  | i + 1, hand =>
    let next := (hand + 1) % p.slotCount
    if (p.owners hand).any (fun old => (p.pages old).pins == 0) then (some hand, next)
    else clockScan p i next

/-- The first free slot, else the slot the clock stops at. -/
def selectSlot (p : SwapPager) : Option Nat × SwapPager :=
  match (List.range p.slotCount).find? (fun i => (p.owners i).isNone) with
  | some i => (some i, p)
  | none =>
    let (slot, hand) := clockScan p p.slotCount p.hand
    (slot, { p with hand := hand })

section Operations
variable {n : Nat} (cb : Callbacks n)

/-- Empties a slot that has an owner: unmap, write back, forget. A refused
write maps the page again, and a refused map after that poisons the pager; the
error reported stays the write's. -/
def evictOwner (s : State n) (slot : Nat) : Result × State n :=
  match s.pager.owners slot with
  | none => (.ok (), s)
  | some old =>
    match s.ctx.unmap cb slot with
    | (some e, ctx) => (.error (.callback e), { s with ctx := ctx })
    | (none, ctx) =>
      match ctx.write cb old slot with
      | (some e, ctx) =>
        match ctx.map cb old slot with
        | (some _, ctx) =>
          (.error (.callback e), { s with pager := { s.pager with poisoned := true }, ctx := ctx })
        | (none, ctx) => (.error (.callback e), { s with ctx := ctx })
      | (none, ctx) =>
        (.ok (), { s with
          pager := { s.pager with
            pages := update s.pager.pages old
              { s.pager.pages old with stored := true, slot := none }
            owners := update s.pager.owners slot none
            writes := (s.pager.writes + 1) % 2 ^ 64 }
          ctx := ctx })

/-- Brings a page into an empty slot's frame: its stored copy, or zeros. -/
def fillSlot (s : State n) (page slot : Nat) : Result × State n :=
  if (s.pager.pages page).stored then
    match s.ctx.read cb page slot with
    | (some e, ctx) => (.error (.callback e), { s with ctx := ctx })
    | (none, ctx) =>
      (.ok (), { s with
        pager := { s.pager with reads := (s.pager.reads + 1) % 2 ^ 64 }, ctx := ctx })
  else (.ok (), { s with ctx := s.ctx.zero slot })

def mapSlot (s : State n) (page slot : Nat) : Result × State n :=
  match s.ctx.map cb page slot with
  | (some e, ctx) => (.error (.callback e), { s with ctx := ctx })
  | (none, ctx) =>
    (.ok (), { s with
      pager := { s.pager with
        owners := update s.pager.owners slot (some page)
        pages := update s.pager.pages page
          { s.pager.pages page with slot := some slot }
        faults := (s.pager.faults + 1) % 2 ^ 64 }
      ctx := ctx })

def swapPagerFault (s : State n) (page : Nat) : Result × State n :=
  if page ≥ s.pager.pageCount then (.error .inval, s)
  else if s.pager.poisoned then (.error .io, s)
  else if (s.pager.pages page).slot.isSome then (.ok (), s)
  else
    match selectSlot s.pager with
    | (none, p) => (.error .busy, { s with pager := p })
    | (some slot, p) =>
      match evictOwner cb { s with pager := p } slot with
      | (.error e, s) => (.error e, s)
      | (.ok (), s) =>
        match fillSlot cb s page slot with
        | (.error e, s) => (.error e, s)
        | (.ok (), s) => mapSlot cb s page slot

def setPins (s : State n) (page pins : Nat) : State n :=
  { s with pager := { s.pager with
      pages := update s.pager.pages page { s.pager.pages page with pins := pins } } }

def swapPagerPin (s : State n) (page : Nat) : Result × State n :=
  if page ≥ s.pager.pageCount ∨ (s.pager.pages page).pins = uintMax then (.error .inval, s)
  else
    match swapPagerFault cb s page with
    | (.error e, s) => (.error e, s)
    | (.ok (), s) => (.ok (), setPins s page ((s.pager.pages page).pins + 1))

def swapPagerUnpin (s : State n) (page : Nat) : Result × State n :=
  if page ≥ s.pager.pageCount ∨ (s.pager.pages page).pins = 0 then (.error .inval, s)
  else (.ok (), setPins s page ((s.pager.pages page).pins - 1))

/-- One pass of the closing loop. -/
def closeSlot (acc : Bool × State n) (i : Nat) : Bool × State n :=
  let (failed, s) := acc
  match s.pager.owners i with
  | none => (failed, s)
  | some page =>
    match s.ctx.unmap cb i with
    | (some _, ctx) => (true, { s with ctx := ctx })
    | (none, ctx) =>
      (failed, { s with
        pager := { s.pager with
          pages := update s.pager.pages page { s.pager.pages page with slot := none }
          owners := update s.pager.owners i none }
        ctx := ctx })

/-- A pager that `swap_pager_close` has freed and cleared. -/
def closedPager : SwapPager where
  pages := fun _ => ⟨none, 0, false⟩
  owners := fun _ => none
  pageCount := 0
  slotCount := 0
  hand := 0
  faults := 0
  reads := 0
  writes := 0
  poisoned := false

def swapPagerClose (s : State n) : Result × State n :=
  if (List.range s.pager.pageCount).any (fun i => (s.pager.pages i).pins != 0) then
    (.error .busy, s)
  else
    match (List.range s.pager.slotCount).foldl (closeSlot cb) (s.pager.poisoned, s) with
    | (true, s) => (.error .io, s)
    | (false, s) => (.ok (), { s with pager := closedPager })

/-- The guest stores a byte. Only a page that is mapped takes it; a page that
is not faults first and is stored to afterwards. -/
def guestWrite (s : State n) (page : Nat) (off : Fin n) (byte : UInt8) : State n :=
  match (s.pager.pages page).slot with
  | none => s
  | some slot =>
    if s.ctx.mapped slot = some page then
      { s with
        ctx := { s.ctx with
          ram := update s.ctx.ram slot (update (s.ctx.ram slot) off byte) }
        last := update s.last page (update (s.last page) off byte) }
    else s

end Operations

/-- What can happen to an open pager, besides closing it. -/
inductive Op (n : Nat) where
  | fault (page : Nat)
  | pin (page : Nat)
  | unpin (page : Nat)
  | write (page : Nat) (off : Fin n) (byte : UInt8)

def step {n : Nat} (cb : Callbacks n) (s : State n) : Op n → State n
  | .fault page => (swapPagerFault cb s page).2
  | .pin page => (swapPagerPin cb s page).2
  | .unpin page => (swapPagerUnpin s page).2
  | .write page off byte => guestWrite s page off byte

/-- Every call on the pager, closing it among them. -/
inductive Call (n : Nat) where
  | op (o : Op n)
  | close

def callStep {n : Nat} (cb : Callbacks n) (s : State n) : Call n → State n
  | .op o => step cb s o
  | .close => (swapPagerClose cb s).2

/-- A fresh pager over frames and stored copies with any contents. -/
def start {n : Nat} (p : SwapPager) (ram disk : Nat → Page n) : State n where
  pager := p
  ctx := { ram := ram, disk := disk, mapped := fun _ => none, calls := 0 }
  last := fun _ => zeroPage n

end Autorun.Swap.Pager
