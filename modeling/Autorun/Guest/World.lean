import Autorun.Lib.RangeList
import Autorun.Guest.Memfile

namespace Autorun.Guest

open Autorun.Lib

abbrev Page := Nat → UInt8

def zeroPage : Page := fun _ => 0

/-- Addresses and sizes below count pages of this many bytes. -/
def pageSize : Nat := 4096

structure Prot where
  read : Bool
  write : Bool
  exec : Bool
  deriving DecidableEq, Repr

def readWrite : Prot := ⟨true, true, false⟩

inductive Perm where
  | none
  | r
  | rw
  | rx
  deriving DecidableEq, Repr

def getHorizonPerm (prot : Prot) : Perm :=
  if !(prot.read || prot.write || prot.exec) then .none
  else if prot.exec then .rx
  else if prot.write then .rw
  else .r

/-- How the kernel came to map a page: from heap pages as code, or as a second
mapping of pages that are code-mapped already. -/
inductive Kind where
  | code
  | view
  deriving DecidableEq, Repr

structure Pte where
  block : Nat
  page : Nat
  perm : Perm
  kind : Kind
  deriving DecidableEq, Repr

/-- The kernel's side: what each page of the address space maps, and for each
heap page that is lent to a code mapping the address that has it. -/
structure Kernel where
  pages : Nat → Option Pte
  lentTo : Nat → Nat → Option Nat

namespace Kernel

/-- `svcMapProcessCodeMemory`: a free destination and heap pages not lent yet. -/
def mapCode (k : Kernel) (dst block page count : Nat) : Option Kernel :=
  if (List.range count).all fun i =>
      (k.pages (dst + i)).isNone && (k.lentTo block (page + i)).isNone then
    some {
      pages := fun p => if dst ≤ p ∧ p < dst + count then
        some ⟨block, page + (p - dst), .none, .code⟩ else k.pages p
      lentTo := fun b q => if b = block ∧ page ≤ q ∧ q < page + count then
        some (dst + (q - page)) else k.lentTo b q }
  else none

/-- `svcUnmapProcessCodeMemory`: exactly the pages the source lent there. -/
def unmapCode (k : Kernel) (dst block page count : Nat) : Option Kernel :=
  if (List.range count).all fun i =>
      (k.pages (dst + i)).any (fun e => e.block == block && e.page == page + i && e.kind == .code) &&
      k.lentTo block (page + i) == some (dst + i) then
    some {
      pages := fun p => if dst ≤ p ∧ p < dst + count then none else k.pages p
      lentTo := fun b q => if b = block ∧ page ≤ q ∧ q < page + count then none else k.lentTo b q }
  else none

/-- A change of permission of pages that are code-mapped. -/
def setPerm (k : Kernel) (dst count : Nat) (perm : Perm) : Option Kernel :=
  if (List.range count).all fun i => (k.pages (dst + i)).any fun e => e.kind == .code then
    some { k with
      pages := fun p => if dst ≤ p ∧ p < dst + count then
        (k.pages p).map fun e => { e with perm } else k.pages p }
  else none

/-- `svcMapProcessMemory`: a second mapping of code-mapped pages, read-write. -/
def mapView (k : Kernel) (dst src count : Nat) : Option Kernel :=
  if (List.range count).all fun i =>
      (k.pages (dst + i)).isNone && (k.pages (src + i)).any fun e => e.kind == .code then
    some { k with
      pages := fun p => if dst ≤ p ∧ p < dst + count then
        (k.pages (src + (p - dst))).map fun e => { e with perm := .rw, kind := .view }
        else k.pages p }
  else none

/-- `svcUnmapProcessMemory`. -/
def unmapView (k : Kernel) (dst src count : Nat) : Option Kernel :=
  if (List.range count).all fun i =>
      (k.pages (dst + i)).any fun e => e.kind == .view &&
        (k.pages (src + i)).any fun e' => e'.block == e.block && e'.page == e.page then
    some { k with pages := fun p => if dst ≤ p ∧ p < dst + count then none else k.pages p }
  else none

end Kernel

/-- `swap_unmapped` of a mapping: 0, 1 and 2. -/
inductive SwapUnmapped where
  | attached
  | unmapped
  | mapped
  deriving DecidableEq, Repr

/-- `struct horizon_swap_entry`; token 0 is none. -/
structure SwapEntry where
  token : Nat := 0
  detached : Bool := false
  deriving DecidableEq, Repr

/-- `struct horizon_backing`. -/
structure Backing where
  heapAddr : Option Nat
  codeAddr : Nat := 0
  size : Nat
  swap : SwapEntry := {}
  swapPrivate : Bool := false
  swapExcluded : Bool := false
  deriving DecidableEq, Repr

/-- `struct horizon_mapping`. Backings are named by number. -/
structure Mapping where
  addr : Nat
  size : Nat
  sourceOffset : Nat := 0
  prot : Prot
  backing : Option Nat := none
  swapUnmapped : SwapUnmapped := .attached
  swapManaged : Bool := false
  swapExcluded : Bool := false
  deriving DecidableEq, Repr

namespace Mapping

def stop (m : Mapping) : Nat := m.addr + m.size

def uses (b : Nat) (m : Mapping) : Bool := m.backing == some b

end Mapping

/-- The tree of mappings, ordered by address. -/
def mappings : Ranges Mapping := ⟨Mapping.addr, Mapping.stop⟩

/-- `struct horizon_swap_pin`, in bytes. -/
structure Pin where
  addr : Nat
  size : Nat
  deriving DecidableEq, Repr

/-- The calls that can be refused. -/
inductive Call where
  | heapPages
  | mapCode
  | unmapCode
  | permission
  | save
  | load
  | index
  deriving DecidableEq, Repr

/-- What a run leaves behind for its proofs to speak of: each call and whether
it was accepted, and what became of heap pages and swap tokens. -/
inductive Event where
  | called (call : Call) (accepted : Bool)
  | saved (backing token : Nat)
  | discarded (backing token : Nat) (mapped : Bool)
  | freed (block mappings : Nat) (lent saved : Bool)

/-- Everything outside the runtime, as a function of the moment it is asked. -/
structure Env where
  refuses : Call → Nat → Bool
  saveError : Nat → Errno
  loadError : Nat → Errno
  outOfTime : Nat → Bool
  token : Nat → Nat
  fresh : Nat → Nat → Page
  indexed : Nat → Nat

structure World where
  tree : List Mapping
  backings : Nat → Option Backing
  heap : Nat → Nat → Page
  kernel : Kernel
  aliasBits : Nat → Nat → Bool
  stored : Nat → Option (Nat → Page)
  storedBytes : Nat
  capacity : Nat
  swapActive : Bool
  cursor : Nat
  pins : List Pin
  locks : List Pin
  faultIndex : Nat → Bool
  next : Nat
  log : List Event

namespace World

def moment (w : World) : Nat := w.log.length

def note (w : World) (e : Event) : World := { w with log := e :: w.log }

def setBacking (w : World) (b : Nat) (f : Backing → Backing) : World :=
  { w with backings := Function.update w.backings b ((w.backings b).map f) }

/-- A change of the mapping object at an address. -/
def setMapping (w : World) (addr : Nat) (f : Mapping → Mapping) : World :=
  { w with tree := w.tree.map fun m => if m.addr = addr then f m else m }

end World

section Primitives

variable (env : Env)

/-- A call that does nothing but succeed or fail. -/
def ask (call : Call) (w : World) : Bool × World :=
  let accepted := !env.refuses call w.moment
  (accepted, w.note (.called call accepted))

/-- A system call that changes the kernel's pages. -/
def svc (call : Call) (f : Kernel → Option Kernel) (w : World) : Bool × World :=
  match if env.refuses call w.moment then none else f w.kernel with
  | none => (false, w.note (.called call false))
  | some kernel => (true, { w with kernel }.note (.called call true))

end Primitives

/-- `note_alias_source`: the bit of each heap page that is lent. -/
def noteAliasSource (w : World) (block page count : Nat) (mapped : Bool) : World :=
  { w with aliasBits := fun b q =>
      if b = block ∧ page ≤ q ∧ q < page + count then mapped else w.aliasBits b q }

/-- Whether the kernel has any of the first `count` pages of a heap block lent. -/
def lentRange (w : World) (block count : Nat) : Bool :=
  (List.range count).any fun q => (w.kernel.lentTo block q).isSome

/-- The pages of a backing, from the heap or from the store. -/
def content (w : World) (k : Backing) : Nat → Page :=
  match k.heapAddr with
  | some block => w.heap block
  | none => (w.stored k.swap.token).getD fun _ => zeroPage

end Autorun.Guest
