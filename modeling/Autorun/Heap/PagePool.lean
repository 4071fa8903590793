import Mathlib.Algebra.Group.Nat.Defs
import Mathlib.Logic.Function.Basic
import Autorun.Lib.Run

namespace Autorun.Heap.PagePool

def page : Nat := 4096

/-- `HORIZON_POOL_PAGES`. -/
def arenaPages : Nat := 512

def retainEmpty : Nat := 8

/-- `HORIZON_POOL_ARENA`. -/
def arenaSize : Nat := arenaPages * page

def sizeMax : Nat := 2 ^ 64 - 1

/-- `sizeof(struct horizon_page_arena)`, where pointers take 8 bytes. -/
def arenaStruct : Nat := 528

/-- `struct horizon_page_arena`. -/
structure Arena where
  memory : Option Nat := none
  freePages : Nat := 0
  used : Nat → Bool := fun _ => false

/-- `struct horizon_page_pool`: the capacity is the length of the table. -/
structure Pool where
  arenas : List Arena := []
  activeArenas : Nat := 0
  peakArenas : Nat := 0
  hits : Nat := 0
  misses : Nat := 0
  reclaims : Nat := 0
  blocks : Nat := 0
  shared : Nat := 0

/-- What the allocator answers to the calls of one request, should they be made: whether the table
can grow, and the addresses for an arena, a dedicated block and plain pages. -/
structure Answers where
  table : Bool := true
  arena : Option Nat := none
  block : Option Nat := none
  direct : Option Nat := none
deriving DecidableEq

/-- `memset` over the flags of pages. -/
def fill (used : Nat → Bool) (first n : Nat) (v : Bool) : Nat → Bool :=
  fun j => if first ≤ j ∧ j < first + n then v else used j

/-- The loop over the pages of an arena, from page `j` on, with `run` unused pages before it. -/
def findRun (used : Nat → Bool) (pages : Nat) : Nat → Nat → Nat → Option Nat
  | 0, _, _ => none
  | left + 1, j, run =>
    let run := if used j then 0 else run + 1
    if run = pages then some (j + 1 - run) else findRun used pages left (j + 1) run

/-- The loop over the arenas that have memory. -/
def takeRun (pages : Nat) : List Arena → Option (Nat × List Arena)
  | [] => none
  | a :: rest =>
    let next := (takeRun pages rest).map fun r => (r.1, a :: r.2)
    match a.memory with
    | none => next
    | some memory =>
      if a.freePages < pages then next
      else
        match findRun a.used pages arenaPages 0 0 with
        | none => next
        | some first =>
          some (memory + first * page,
            { a with used := fill a.used first pages true, freePages := a.freePages - pages } :: rest)

/-- The table with a place for an arena, or nothing if it cannot grow. -/
def growTable (arenas : List Arena) (table : Bool) : Option (List Arena) :=
  if arenas.any (·.memory.isNone) then some arenas
  else
    let capacity := if arenas.length = 0 then 32 else arenas.length * 2
    if capacity > sizeMax / arenaStruct ∨ !table then none
    else some (arenas ++ List.replicate (capacity - arenas.length) ({} : Arena))

/-- The first place without memory becomes an arena with its first pages in use. -/
def placeArena (memory pages : Nat) : List Arena → List Arena
  | [] => []
  | a :: rest =>
    if a.memory.isNone then
      { memory := some memory
        freePages := arenaPages - pages
        used := fill a.used 0 pages true } :: rest
    else a :: placeArena memory pages rest

def pagesAlloc (pool : Pool) (size : Nat) (answers : Answers) : Option Nat × Pool :=
  let pages := size / page
  if size = 0 ∨ size % page ≠ 0 ∨ pages > arenaPages then (none, pool)
  else
    match takeRun pages pool.arenas with
    | some (ptr, arenas) => (some ptr, { pool with arenas, hits := pool.hits + 1 })
    | none =>
      match growTable pool.arenas answers.table with
      | none => (none, pool)
      | some arenas =>
        match answers.arena with
        | none => (none, { pool with arenas })
        | some memory =>
          (some memory, { pool with
            arenas := placeArena memory pages arenas
            activeArenas := pool.activeArenas + 1
            peakArenas := max pool.peakArenas (pool.activeArenas + 1)
            misses := pool.misses + 1
            hits := pool.hits + 1 })

/-- What a dedicated block takes of the heap. -/
def rounded (size : Nat) : Nat := (size + arenaSize - 1) / arenaSize * arenaSize

def pagesAllocDedicated (pool : Pool) (size : Nat) (answers : Answers) : Option Nat × Pool :=
  if size = 0 ∨ size % page ≠ 0 ∨ size > sizeMax - (arenaSize - 1) then (none, pool)
  else
    match pagesAlloc pool size answers with
    | (some ptr, pool) => (some ptr, pool)
    | (none, pool) =>
      match answers.block with
      | some ptr => (some ptr, { pool with blocks := pool.blocks + 1 })
      | none => (none, pool)

def pagesAllocAny (pool : Pool) (size : Nat) (answers : Answers) : Option Nat × Pool :=
  match pagesAllocDedicated pool size answers with
  | (some ptr, pool) => (some ptr, pool)
  | (none, pool) =>
    if size ≠ 0 ∧ size % page = 0 then
      match answers.direct with
      | some ptr => (some ptr, { pool with shared := pool.shared + 1 })
      | none => (none, pool)
    else (none, pool)

/-- An arena gives pages back; it is released if it is empty and there are more than enough. -/
def giveBack (a : Arena) (first pages active : Nat) : Arena × Bool :=
  let a := { a with used := fill a.used first pages false, freePages := a.freePages + pages }
  if a.freePages = arenaPages ∧ active > retainEmpty then ({}, true) else (a, false)

/-- The loop of `horizon_pages_free` over the arenas: the table, and whether an arena was released,
once the arena of the pages is found. -/
def freeIn (active ptr size : Nat) : List Arena → Option (List Arena × Bool)
  | [] => none
  | a :: rest =>
    let next := (freeIn active ptr size rest).map fun r => (a :: r.1, r.2)
    match a.memory with
    | none => next
    | some memory =>
      let offset := (ptr + 2 ^ 64 - memory) % 2 ^ 64
      if offset < arenaSize ∧ offset % page = 0 ∧ size ≤ arenaSize - offset then
        let (a, released) := giveBack a (offset / page) (size / page) active
        some (a :: rest, released)
      else next

def pagesFree (pool : Pool) (ptr size : Nat) : Bool × Pool :=
  if ptr = 0 ∨ size = 0 ∨ size % page ≠ 0 then (false, pool)
  else
    match freeIn pool.activeArenas ptr size pool.arenas with
    | none => (false, pool)
    | some (arenas, released) =>
      (true, { pool with
        arenas
        activeArenas := if released then pool.activeArenas - 1 else pool.activeArenas
        reclaims := if released then pool.reclaims + 1 else pool.reclaims })

/-- The arenas `horizon_pages_trim` gives back. -/
def trimmable (a : Arena) : Bool := a.memory.isSome && a.freePages == arenaPages

def pagesTrim (pool : Pool) : Nat × Pool :=
  let count := pool.arenas.countP trimmable
  let active := pool.activeArenas - count
  (count * arenaSize, { pool with
    arenas := if active = 0 then [] else pool.arenas.map fun a => if trimmable a then {} else a
    activeArenas := active
    reclaims := pool.reclaims + count })

/-- What a caller holds: pages of an arena, or memory of the heap's own. `extent` is what the heap
gave for it. -/
structure Allocation where
  ptr : Nat
  size : Nat
  extent : Nat
  pooled : Bool
deriving DecidableEq

/-- The pool and the allocations its callers hold. -/
structure World where
  pool : Pool := {}
  live : List Allocation := []

inductive Op
  | alloc (size : Nat)
  | allocDedicated (size : Nat)
  | allocAny (size : Nat)
  | free (allocation : Allocation)
  | trim
deriving DecidableEq

namespace World

/-- The caller takes what it was given. -/
def hold (w : World) (result : Option Nat × Pool) (size extent : Nat) (pooled : Bool) : World :=
  match result.1 with
  | none => { w with pool := result.2 }
  | some ptr => ⟨result.2, ⟨ptr, size, extent, pooled⟩ :: w.live⟩

/-- One request, with the allocator's answers. Memory that is not the pool's is freed by the
caller itself. -/
def step (w : World) : Op × Answers → World
  | (.alloc size, answers) => w.hold (pagesAlloc w.pool size answers) size size true
  | (.allocDedicated size, answers) =>
    let pooled := (pagesAlloc w.pool size answers).1.isSome
    w.hold (pagesAllocDedicated w.pool size answers) size (if pooled then size else rounded size) pooled
  | (.allocAny size, answers) =>
    let pooled := (pagesAlloc w.pool size answers).1.isSome
    let dedicated := (pagesAllocDedicated w.pool size answers).1.isSome
    w.hold (pagesAllocAny w.pool size answers) size
      (if pooled || !dedicated then size else rounded size) pooled
  | (.free a, _) => ⟨(pagesFree w.pool a.ptr a.size).2, w.live.erase a⟩
  | (.trim, _) => { w with pool := (pagesTrim w.pool).2 }

end World

end Autorun.Heap.PagePool
