import Autorun.Lib.RingQueue
import Autorun.Heap.CodeArena

namespace Autorun.Heap.Dynarec

open Autorun.Lib
open CodeArena hiding none

def maxArenas : Nat := 32

/-- `struct nx_arena`: the two places its memory is mapped at, and the chunks in it. -/
structure NxArena where
  rw : Nat
  rx : Nat
  size : Nat
  alloc : Arena

/-- `struct code_quarantine_entry`. -/
structure Entry where
  arena : Nat
  payload : Nat
  stamp : Nat
deriving DecidableEq

/-- The translated code a process holds. -/
structure Code where
  arenas : List NxArena := []
  quarantine : RingQueue Entry := ⟨fun _ => ⟨0, 0, 0⟩, 0, 0, 0⟩
  quarantineBytes : Nat := 0
  dynarecBytes : Nat := 0

/-- `wine_nx_box64_code_limit` and `wine_nx_box64_quarantine_ns`. -/
structure Config where
  codeLimit : Nat := 0
  quarantineNs : Nat := 2000000000

/-- `code_quarantine_push`; `memory` is whether `malloc` has any. -/
def quarantinePush (q : RingQueue Entry) (e : Entry) (memory : Bool) : Option (RingQueue Entry) :=
  if q.count = q.cap then
    if memory then some ((q.move (if q.cap = 0 then 256 else q.cap * 2)).append e) else none
  else some (q.append e)

def quarantineOldest (q : RingQueue Entry) : Option Entry :=
  if q.count = 0 then none else some (q.entries q.head)

/-- `find_arena`: the number of the arena, and the offset in it. -/
def findArena (target : Nat) : Nat → List NxArena → Option (Nat × Nat)
  | _, [] => none
  | i, a :: rest =>
    if sub64 target a.rw < a.size then some (i, sub64 target a.rw)
    else if sub64 target a.rx < a.size then some (i, sub64 target a.rx)
    else findArena target (i + 1) rest

namespace Code

variable (c : Code)

/-- The chunks of the arena with that number. -/
def chunks (i : Nat) : Arena := ((c.arenas[i]?).map NxArena.alloc).getD ⟨0, 0, fun _ => CodeArena.none, fun _ => 0⟩

def setChunks (i : Nat) (a : Arena) : Code :=
  { c with arenas := c.arenas.modify i fun nx => { nx with alloc := a } }

end Code

/-- `FreeDynarecMap` at the time `now`. -/
def freeDynarecMap (c : Code) (addr now : Nat) (memory : Bool) : Code :=
  if addr = 0 then c
  else
    match findArena addr 0 c.arenas with
    | none => c
    | some (i, offset) =>
      if offset < header ∨ (c.chunks i).free (sub32 offset header) ≠ 0 then c
      else
        let size := (c.chunks i).chunkSize (sub32 offset header)
        let c := { c with dynarecBytes := sub64 c.dynarecBytes (sub32 size header) }
        match quarantinePush c.quarantine ⟨i, offset, now⟩ memory with
        | some q => { c with quarantine := q, quarantineBytes := add64 c.quarantineBytes size }
        | none => c.setChunks i (arenaFree (c.chunks i) offset).2

/-- `release_quarantine_locked`. For each turn of its loop it is told whether a thread is inside the
block and whether `malloc` has memory. -/
def releaseQuarantine (cfg : Config) (now : Nat) : Code → List (Bool × Bool) → Code
  | c, [] => c
  | c, (busy, memory) :: turns =>
    match quarantineOldest c.quarantine with
    | none => c
    | some entry =>
      if sub64 now entry.stamp < cfg.quarantineNs then c
      else
        let size := (c.chunks entry.arena).chunkSize (sub32 entry.payload header)
        let c := { c with quarantine := c.quarantine.drop }
        match if busy then quarantinePush c.quarantine { entry with stamp := now } memory else none with
        | some q => releaseQuarantine cfg now { c with quarantine := q } turns
        | none =>
          let c := c.setChunks entry.arena (arenaFree (c.chunks entry.arena) entry.payload).2
          releaseQuarantine cfg now { c with quarantineBytes := sub64 c.quarantineBytes size } turns

/-- The loop of `alloc_locked` over the arenas. -/
def allocFrom (size : Nat) : Nat → List NxArena → Option (Nat × Nat × List NxArena)
  | _, [] => none
  | i, a :: rest =>
    let (offset, alloc) := CodeArena.alloc a.alloc size
    if offset ≠ 0 then some (i, offset, { a with alloc } :: rest)
    else (allocFrom size (i + 1) rest).map fun r => (r.1, r.2.1, { a with alloc } :: r.2.2)

def allocLocked (cfg : Config) (c : Code) (size : Nat) : Option (Nat × Nat × List NxArena) :=
  if cfg.codeLimit ≠ 0 ∧ add64 (add64 c.dynarecBytes c.quarantineBytes) size > cfg.codeLimit then none
  else allocFrom size 0 c.arenas

/-- Code memory the kernel gives for a new arena, with what it holds. -/
structure Created where
  rw : Nat
  rx : Nat
  size : Nat
  mem : Nat → Nat

/-- The block is handed out and counted. -/
def handOut (c : Code) (i offset : Nat) : Option (Nat × Nat) × Code :=
  let held := sub32 ((c.chunks i).chunkSize (sub32 offset header)) header
  (some (i, offset), { c with dynarecBytes := add64 c.dynarecBytes held })

/-- `AllocDynarecMap` once it holds the lock and has released what it can: a chunk of an arena, or
of a new one. `create_arena` is told what the kernel gives. -/
def allocDynarecMap (cfg : Config) (c : Code) (size : Nat) (created : Option Created) :
    Option (Nat × Nat) × Code :=
  let size := (size + 15) % 2 ^ 64 / 16 * 16
  match allocLocked cfg c size with
  | some (i, offset, arenas) => handOut { c with arenas } i offset
  | none =>
    if cfg.codeLimit ≠ 0 ∨ c.arenas.length ≥ maxArenas then (none, c)
    else
      match created with
      | none => (none, c)
      | some n =>
        let (offset, alloc) := CodeArena.alloc (init n.mem n.size) size
        let c' := { c with arenas := c.arenas ++ [⟨n.rw, n.rx, n.size, alloc⟩] }
        if offset = 0 then (none, c') else handOut c' c.arenas.length offset

/-- The code and the blocks that were handed out and not freed. -/
structure World where
  code : Code := {}
  live : List (Nat × Nat) := []

/-- What happens under `arena_mutex`. `AllocDynarecMap` is a release and a take, and where it purges
it drops the lock, so that frees come between them. -/
inductive Label
  | release (now : Nat) (turns : List (Bool × Bool))
  | take (size : Nat) (created : Option Created)
  | free (addr now : Nat) (memory : Bool)
  | write (arena address value : Nat)

namespace World

variable (w : World)

/-- The chunks that wait in the quarantine. -/
def waiting : List (Nat × Nat) := w.code.quarantine.contents.map fun e => (e.arena, e.payload)

/-- The size of a block's chunk. -/
def chunkLength (b : Nat × Nat) : Nat := (w.code.chunks b.1).chunkSize (b.2 - header)

def step (cfg : Config) (w : World) : Label → World
  | .release now turns => { w with code := releaseQuarantine cfg now w.code turns }
  | .take size created =>
    if size = 0 then w
    else
      let (block, code) := allocDynarecMap cfg w.code size created
      ⟨code, block.toList ++ w.live⟩
  | .free addr now memory =>
    ⟨freeDynarecMap w.code addr now memory,
      if addr = 0 then w.live
      else
        match findArena addr 0 w.code.arenas with
        | none => w.live
        | some b => w.live.erase b⟩
  | .write i x v => { w with code := w.code.setChunks i ((w.code.chunks i).store x v) }

/-- Code memory that is mapped where no other arena is. -/
structure Fresh (n : Created) : Prop where
  least : least ≤ n.size
  small : n.size < 2 ^ 32
  rw : 0 < n.rw ∧ n.rw + n.size ≤ 2 ^ 64
  rx : 0 < n.rx ∧ n.rx + n.size ≤ 2 ^ 64
  twice : n.rw + n.size ≤ n.rx ∨ n.rx + n.size ≤ n.rw
  apart : ∀ a ∈ w.code.arenas, ∀ p ∈ [n.rw, n.rx], ∀ q ∈ [a.rw, a.rx],
    q + a.size ≤ p ∨ p + n.size ≤ q

/-- The kernel maps code memory where none is, threads write to blocks only, and each address passed
to `FreeDynarecMap` is that of a live block, or the chunk there is flagged free. -/
def Ok (w : World) : Label → Prop
  | .release _ _ => True
  | .take _ created => ∀ n ∈ created, w.Fresh n
  | .free addr _ _ => ∀ b ∈ findArena addr 0 w.code.arenas,
    b ∈ w.live ∨ b.2 < header ∨ (w.code.chunks b.1).free (sub32 b.2 header) ≠ 0
  | .write i x _ => ∃ b ∈ w.live ++ w.waiting, b.1 = i ∧ b.2 ≤ x ∧ x < b.2 - header + w.chunkLength b

instance (n : Created) : Decidable (w.Fresh n) :=
  decidable_of_iff ((CodeArena.least ≤ n.size ∧ n.size < 2 ^ 32) ∧
    (0 < n.rw ∧ n.rw + n.size ≤ 2 ^ 64) ∧ (0 < n.rx ∧ n.rx + n.size ≤ 2 ^ 64) ∧
    (n.rw + n.size ≤ n.rx ∨ n.rx + n.size ≤ n.rw) ∧
    ∀ a ∈ w.code.arenas, ∀ p ∈ [n.rw, n.rx], ∀ q ∈ [a.rw, a.rx], q + a.size ≤ p ∨ p + n.size ≤ q)
    ⟨fun ⟨⟨h₁, h₂⟩, h₃, h₄, h₅, h₆⟩ => ⟨h₁, h₂, h₃, h₄, h₅, h₆⟩,
      fun ⟨h₁, h₂, h₃, h₄, h₅, h₆⟩ => ⟨⟨h₁, h₂⟩, h₃, h₄, h₅, h₆⟩⟩

instance : (label : Label) → Decidable (w.Ok label)
  | .release _ _ => isTrue trivial
  | .take _ created => inferInstanceAs (Decidable (∀ n ∈ created, w.Fresh n))
  | .free addr _ _ => inferInstanceAs (Decidable (∀ b ∈ findArena addr 0 w.code.arenas,
      b ∈ w.live ∨ b.2 < header ∨ (w.code.chunks b.1).free (sub32 b.2 header) ≠ 0))
  | .write i x _ => inferInstanceAs (Decidable (∃ b ∈ w.live ++ w.waiting,
      b.1 = i ∧ b.2 ≤ x ∧ x < b.2 - header + w.chunkLength b))

end World

end Autorun.Heap.Dynarec
