import Mathlib.Logic.Function.Basic
import Autorun.Lib.Run

namespace Autorun.Guest

inductive Errno where
  | inval
  | nomem
  | exist
  | busy
  | nosys
  | io
  deriving DecidableEq, Repr

/-- `horizon_memfile_anchor`: section pages `[first, first + count)` code-mapped
from page `addr` on. The token is the mapping at that address. -/
structure Anchor where
  first : Nat
  count : Nat
  addr : Nat
  users : Nat
  deriving DecidableEq, Repr

namespace Anchor

def stop (a : Anchor) : Nat := a.first + a.count

end Anchor

/-- The part of `horizon_memfile` that views use. `data` is the heap block of
the section's own pages and `size` counts pages. -/
structure Memfile where
  data : Nat
  size : Nat
  refs : Nat
  anchors : List Anchor
  deriving DecidableEq, Repr

/-- `horizon_memfile_ops`, and the `calloc` of a new anchor, over the state they
work on. Each call may refuse, with the `errno` it leaves. `undo` marks a call
that puts back what an earlier one did; the kernel does not see it. -/
structure MemfileOps (σ : Type) where
  calloc : σ → Option Errno × σ
  anchor : σ → (first count : Nat) → Except Errno Nat × σ
  unanchor : σ → Anchor → Option Errno × σ
  aliasPages : (undo : Bool) → σ → (dst src count : Nat) → Option Errno × σ
  unaliasPages : (undo : Bool) → σ → (dst src count : Nat) → Option Errno × σ

variable {σ : Type}

/-- `horizon_memfile_range_valid`, in whole pages. -/
def rangeValid (file : Memfile) (offset size : Nat) : Bool :=
  size ≠ 0 && offset ≤ file.size && size ≤ file.size - offset

/-- `horizon_memfile_trim_locked`: an anchor that is used, or that the kernel
keeps, stays. -/
def trim (ops : MemfileOps σ) : List Anchor → σ → List Anchor × σ
  | [], s => ([], s)
  | a :: rest, s =>
    if a.users ≠ 0 then
      let (rest, s) := trim ops rest s
      (a :: rest, s)
    else
      match ops.unanchor s a with
      | (some _, s) =>
        let (rest, s) := trim ops rest s
        (a :: rest, s)
      | (none, s) => trim ops rest s

/-- One new anchor over `[page, stop)`. -/
def newAnchor (ops : MemfileOps σ) (page stop : Nat) (s : σ) : Except Errno Anchor × σ :=
  match ops.calloc s with
  | (some e, s) => (.error e, s)
  | (none, s) =>
    match ops.anchor s page (stop - page) with
    | (.error e, s) => (.error e, s)
    | (.ok addr, s) => (.ok { first := page, count := stop - page, addr, users := 0 }, s)

/-- `horizon_memfile_anchor_locked` from the anchor at hand on: the anchors that
end before `page` are passed, one that holds it is skipped over, and the gap
before the next one is filled. -/
def anchorPages (ops : MemfileOps σ) (stop : Nat) :
    List Anchor → Nat → σ → Option Errno × List Anchor × σ
  | [], page, s =>
    if page < stop then
      match newAnchor ops page stop s with
      | (.error e, s) => (some e, [], s)
      | (.ok a, s) => (none, [a], s)
    else (none, [], s)
  | a :: rest, page, s =>
    if page < stop then
      if a.stop ≤ page then
        let (e, rest, s) := anchorPages ops stop rest page s
        (e, a :: rest, s)
      else if a.first ≤ page then
        let (e, rest, s) := anchorPages ops stop rest a.stop s
        (e, a :: rest, s)
      else
        match newAnchor ops page (min a.first stop) s with
        | (.error e, s) => (some e, a :: rest, s)
        | (.ok new, s) =>
          if a.first < stop then
            let (e, rest, s) := anchorPages ops stop rest a.stop s
            (e, new :: a :: rest, s)
          else (none, new :: a :: rest, s)
    else (none, a :: rest, s)

/-- `horizon_memfile_alias_range_locked`: maps or unmaps the section pages from
`page` to `stop`, one piece for each anchor, and gives the first page it did not
handle. Section page `first` shows at `dst`. -/
def aliasRange (ops : MemfileOps σ) (map undo : Bool) (dst first stop : Nat) :
    List Anchor → Nat → σ → Nat × Option Errno × σ
  | [], page, s => (page, if page < stop then some .inval else none, s)
  | a :: rest, page, s =>
    if page < stop then
      if a.stop ≤ page then aliasRange ops map undo dst first stop rest page s
      else if page < a.first then (page, some .inval, s)
      else
        let next := min a.stop stop
        let call := if map then ops.aliasPages undo else ops.unaliasPages undo
        match call s (dst + (page - first)) (a.addr + (page - a.first)) (next - page) with
        | (some e, s) => (page, some e, s)
        | (none, s) => aliasRange ops map undo dst first stop rest next s
    else (page, none, s)

/-- `horizon_memfile_alias_locked`: what was done is put back when a piece is
refused. -/
def aliasLocked (ops : MemfileOps σ) (map undo : Bool) (dst first stop : Nat)
    (anchors : List Anchor) (s : σ) : Option Errno × σ :=
  match aliasRange ops map undo dst first stop anchors first s with
  | (_, none, s) => (none, s)
  | (done, some e, s) => (some e, (aliasRange ops (!map) true dst first done anchors first s).2.2)

/-- `horizon_memfile_use_locked`, counting up or down. -/
def useLocked (up : Bool) (first stop : Nat) : List Anchor → List Anchor
  | [] => []
  | a :: rest =>
    if a.first < stop then
      if a.stop ≤ first then a :: useLocked up first stop rest
      else { a with users := if up then a.users + 1 else a.users - 1 } :: useLocked up first stop rest
    else a :: rest

def memfileMap (ops : MemfileOps σ) (file : Memfile) (dst offset size : Nat) (s : σ) :
    Option Errno × Memfile × σ :=
  if !rangeValid file offset size then (some .inval, file, s)
  else
    match anchorPages ops (offset + size) file.anchors offset s with
    | (some e, anchors, s) =>
      let (anchors, s) := trim ops anchors s
      (some e, { file with anchors }, s)
    | (none, anchors, s) =>
      match aliasLocked ops true false dst offset (offset + size) anchors s with
      | (some e, s) =>
        let (anchors, s) := trim ops anchors s
        (some e, { file with anchors }, s)
      | (none, s) =>
        (none, { file with anchors := useLocked true offset (offset + size) anchors }, s)

/-- `horizon_memfile_alias`: the kernel side of a view range alone. -/
def memfileAlias (ops : MemfileOps σ) (file : Memfile) (dst offset size : Nat) (map undo : Bool)
    (s : σ) : Option Errno × σ :=
  if !rangeValid file offset size then (some .inval, s)
  else aliasLocked ops map undo dst offset (offset + size) file.anchors s

/-- `horizon_memfile_use`: counting down removes the anchors no range uses. -/
def memfileUse (ops : MemfileOps σ) (file : Memfile) (offset size : Nat) (up : Bool) (s : σ) :
    Memfile × σ :=
  if !rangeValid file offset size then (file, s)
  else
    let anchors := useLocked up offset (offset + size) file.anchors
    if up then ({ file with anchors }, s)
    else
      let (anchors, s) := trim ops anchors s
      ({ file with anchors }, s)

/-- A live aliased range of a view: section pages `[first, first + count)` shown
from page `dst` on. -/
structure View where
  dst : Nat
  first : Nat
  count : Nat
  deriving DecidableEq, Repr

namespace View

def stop (v : View) : Nat := v.first + v.count

/-- The part of a view range over the section pages `[first, stop)`. -/
def part (v : View) (first stop : Nat) : View := ⟨v.dst + (first - v.first), first, stop - first⟩

end View

/-- The piece of a range being split that could not be made. -/
inductive LostPiece where
  | left
  | middle
  | right
  deriving DecidableEq, Repr

/-- What the views of a section do to it. `enter` is a range that becomes
aliased, and `kept` says that its owner could record it. `leave` is a part of an
aliased range that becomes a hole or leaves the address space. -/
inductive ViewOp where
  | enter (view : View) (kept : Bool)
  | leave (view : View) (first stop : Nat) (lost : Option LostPiece)
  deriving DecidableEq, Repr

/-- A section, its live aliased ranges and the kernel. -/
structure Views (σ : Type) where
  file : Memfile
  live : List View
  kernel : σ

/-- The calls for a range that becomes aliased: `horizon_memfile_map`, undone
when the range cannot be recorded. -/
def enterView (ops : MemfileOps σ) (t : Views σ) (v : View) (kept : Bool) : Views σ :=
  match memfileMap ops t.file v.dst v.first v.count t.kernel with
  | (some _, file, s) => { t with file, kernel := s }
  | (none, file, s) =>
    if kept then { file, live := v :: t.live, kernel := s }
    else
      let (_, s) := memfileAlias ops file v.dst v.first v.count false true s
      let (file, s) := memfileUse ops file v.first v.count false s
      { t with file, kernel := s }

/-- The use a piece counts, if its range is not empty. -/
def usePiece (ops : MemfileOps σ) (up : Bool) (p : View) (file : Memfile) (s : σ) : Memfile × σ :=
  if p.count = 0 then (file, s) else memfileUse ops file p.first p.count up s

/-- The pieces of a split range that are left in the list. -/
def pieces (left right : View) : List View := [left, right].filter (·.count ≠ 0)

/-- The calls of `change_section_range` on an aliased range: the pages go first,
each piece counts its use, and the old range stops counting last. A piece that
is lost puts back what was done. -/
def leaveView (ops : MemfileOps σ) (t : Views σ) (v : View) (first stop : Nat)
    (lost : Option LostPiece) : Views σ :=
  let middle := v.part first stop
  let left := v.part v.first first
  let right := v.part stop v.stop
  match memfileAlias ops t.file middle.dst middle.first middle.count false false t.kernel with
  | (some _, s) => { t with kernel := s }
  | (none, s) =>
    let back := fun (file : Memfile) (s : σ) =>
      let (_, s) := memfileAlias ops file middle.dst middle.first middle.count true true s
      { t with file, kernel := s }
    match lost with
    | some .left => back t.file s
    | some _ =>
      -- the left piece was counted already
      let (file, s) := usePiece ops true left t.file s
      let (file, s) := usePiece ops false left file s
      back file s
    | none =>
      let (file, s) := usePiece ops true left t.file s
      let (file, s) := usePiece ops true right file s
      let (file, s) := memfileUse ops file v.first v.count false s
      { file, live := pieces left right ++ t.live.erase v, kernel := s }

/-- One change of the views. A range leaves only if it is live, and only a part
of itself. -/
def viewStep (ops : MemfileOps σ) (t : Views σ) : ViewOp → Views σ
  | .enter v kept => enterView ops t v kept
  | .leave v first stop lost =>
    if v ∈ t.live ∧ v.first ≤ first ∧ first < stop ∧ stop ≤ v.stop then
      leaveView ops t v first stop lost
    else t

end Autorun.Guest
