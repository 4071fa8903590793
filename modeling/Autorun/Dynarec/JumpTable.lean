import Autorun.Lib.Radix
import Autorun.Lib.Run

namespace Autorun.Dynarec

open Autorun.Lib

abbrev Addr := BitVec 64

/-- How Box64's headers divide an address: `shift k` is `JMPTABL_SHIFTk`, from 0 to the level below the
outermost `outer + 1`. -/
structure Shape where
  shift : Nat → Nat
  outer : Nat

/-- `JMPTABL_STARTk` -/
def Shape.start (S : Shape) : Nat → Nat
  | 0 => 0
  | k + 1 => S.start k + S.shift k

/-- The levels together take the 64 bits of an address. -/
def Shape.Whole (S : Shape) : Prop := S.start (S.outer + 2) = 64

/-- `(addr >> JMPTABL_STARTk) & JMPTABLE_MASKk` for each level. -/
def Shape.path (S : Shape) (addr k : Nat) : Nat := addr / 2 ^ S.start k % 2 ^ S.shift k

/-- Where a pointer to an entry points. -/
inductive Entry where
  | own (path : Nat → Nat)
  | default0 (i : Nat)
  | oom

structure World (S : Shape) where
  /-- `jmptbl4`; an empty place is one with a default table -/
  table : Radix Nat (S.outer + 1)
  default0 : Nat → Nat
  oomEntry : Nat
  /-- the value that was last stored for each address -/
  last : Addr → Nat
  /-- the entries that `getJumpTableAddress64` gave out -/
  handed : List (Addr × Entry) := []

section

variable {S : Shape} (nativeNext : Nat)

def initJumpTables : World S where
  table := fun i => if i = 0 then some (Radix.fresh nativeNext S.outer) else none
  default0 := fun _ => nativeNext
  oomEntry := nativeNext
  last := fun _ => nativeNext

/-- The tables on the way to an entry are made, the outer ones first; `fails k` says whether there is memory for
one of level `k`. -/
def createJumpTable (fails : Nat → Bool) : (k : Nat) → Radix Nat k → (Nat → Nat) → Bool × Radix Nat k
  | 0, t, _ => (true, t)
  | k + 1, t, path =>
    match t (path (k + 1)) with
    | some sub =>
      let made := createJumpTable fails k sub path
      (made.1, Function.update t (path (k + 1)) (some made.2))
    | none =>
      if fails k then (false, t)
      else
        let made := createJumpTable fails k (Radix.fresh nativeNext k) path
        (made.1, Function.update t (path (k + 1)) (some made.2))

/-- `jump_table_entry( addr, 0 )` -/
def jumpTableEntry (w : World S) (addr : Addr) : Entry :=
  if (Radix.find _ w.table (S.path addr.toNat)).isSome then .own (S.path addr.toNat)
  else .default0 (S.path addr.toNat 0)

/-- `jump_table_entry( addr, 1 )` -/
def createdEntry (w : World S) (addr : Addr) (fails : Nat → Bool) : Entry × World S :=
  let made := createJumpTable nativeNext fails _ w.table (S.path addr.toNat)
  (if made.1 then .own (S.path addr.toNat) else .oom, { w with table := made.2 })

def content (w : World S) : Entry → Nat
  | .own path => (Radix.find _ w.table path).getD (w.default0 (path 0))
  | .default0 i => w.default0 i
  | .oom => w.oomEntry

def store (w : World S) (v : Nat) : Entry → World S
  | .own path => { w with table := Radix.set _ w.table path v }
  | .default0 i => { w with default0 := Function.update w.default0 i v }
  | .oom => { w with oomEntry := v }

/-- `native_lock_storeifref` for an entry of `addr`, as its callers use it: the value is stored if `ref` is there. -/
def storeIfRef (w : World S) (addr : Addr) (entry : Entry) (v ref : Nat) : Nat × World S :=
  if content w entry = ref then (v, { store w v entry with last := Function.update w.last addr v })
  else (content w entry, w)

def addJumpTableIfDefault64 (w : World S) (addr : Addr) (jmp : Nat) (fails : Nat → Bool) : Bool × World S :=
  let made := createdEntry nativeNext w addr fails
  let stored := storeIfRef made.2 addr made.1 jmp nativeNext
  (stored.1 == jmp, stored.2)

def setJumpTableIfRef64 (w : World S) (addr : Addr) (jmp ref : Nat) (fails : Nat → Bool) : Bool × World S :=
  let made := createdEntry nativeNext w addr fails
  let stored := storeIfRef made.2 addr made.1 jmp ref
  (stored.1 == jmp, stored.2)

def setJumpTableDefault64 (w : World S) (addr : Addr) : World S :=
  { store w nativeNext (jumpTableEntry w addr) with last := Function.update w.last addr nativeNext }

def setJumpTableDefaultIfRef64 (w : World S) (addr : Addr) (jmp : Nat) : Bool × World S :=
  let stored := storeIfRef w addr (jumpTableEntry w addr) nativeNext jmp
  (stored.1 == nativeNext, stored.2)

def getJumpTableAddress64 (w : World S) (addr : Addr) (fails : Nat → Bool) : Entry × World S :=
  let made := createdEntry nativeNext w addr fails
  (made.1, { made.2 with handed := (addr, made.1) :: w.handed })

def getJumpAddress64 (w : World S) (addr : Addr) : Nat := content w (jumpTableEntry w addr)

inductive Op where
  | addIfDefault (addr : Addr) (jmp : Nat) (fails : Nat → Bool)
  | setIfRef (addr : Addr) (jmp ref : Nat) (fails : Nat → Bool)
  | setDefault (addr : Addr)
  | setDefaultIfRef (addr : Addr) (jmp : Nat)
  | getAddress (addr : Addr) (fails : Nat → Bool)

def step (w : World S) : Op → World S
  | .addIfDefault addr jmp fails => (addJumpTableIfDefault64 nativeNext w addr jmp fails).2
  | .setIfRef addr jmp ref fails => (setJumpTableIfRef64 nativeNext w addr jmp ref fails).2
  | .setDefault addr => setJumpTableDefault64 nativeNext w addr
  | .setDefaultIfRef addr jmp => (setJumpTableDefaultIfRef64 nativeNext w addr jmp).2
  | .getAddress addr fails => (getJumpTableAddress64 nativeNext w addr fails).2

end

/-! Invalidation. -/

def uintptrMax : Nat := 0xffffffffffffffff

def nextTableBoundary (pos shift : Nat) : Nat :=
  let mask := 2 ^ shift - 1
  if pos > uintptrMax - mask then uintptrMax else ((pos ||| mask) + 1) % 2 ^ 64

/-- A call of `FreeRangeDynablock` or `MarkRangeDynablock`. -/
structure RangeCall where
  destroy : Bool
  db : Nat
  addr : Nat
  size : Nat
deriving Repr, DecidableEq

/-- The loop of `wine_nx_box64_invalidate`: the positions whose entry is not `native_next`, with their targets.
The calls that are made for them change at most the entry at the position itself, which is not looked at again. -/
def walk (S : Shape) (nativeNext : Nat) (table : Radix Nat (S.outer + 1)) (stop : Nat) :
    Nat → Nat → Option (List (Nat × Nat))
  | 0, pos => if pos < stop then none else some []
  | fuel + 1, pos =>
    if pos < stop then
      match Radix.missing _ table (S.path pos) with
      | some k => walk S nativeNext table stop fuel (nextTableBoundary pos (S.start k))
      | none =>
        let target := (Radix.find _ table (S.path pos)).getD nativeNext
        (walk S nativeNext table stop fuel (pos + 1)).map fun found =>
          if target = nativeNext then found else (pos, target) :: found
    else some []

/-- `wine_nx_box64_invalidate` once the dynarec is ready. `dbOf` reads the block in front of a target, 0 for none. -/
def invalidate (S : Shape) (nativeNext : Nat) (table : Radix Nat (S.outer + 1)) (maxBlockSize : Nat)
    (dbOf : Nat → Nat) (addr size : Addr) (destroy : Bool) (fuel : Nat) :
    Option (List (Nat × Nat) × List RangeCall) :=
  if size = 0 then some ([], [])
  else
    let stop := if size.toNat > uintptrMax - addr.toNat then uintptrMax else addr.toNat + size.toNat
    let pos := if addr.toNat > maxBlockSize then addr.toNat - maxBlockSize else 0
    (walk S nativeNext table stop fuel pos).map fun found =>
      (found, (found.filter fun e => dbOf e.2 ≠ 0).map fun e => ⟨destroy, dbOf e.2, addr.toNat, stop - addr.toNat⟩)

end Autorun.Dynarec
