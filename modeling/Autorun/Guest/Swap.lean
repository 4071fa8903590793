import Mathlib.Algebra.Group.Nat.Defs
import Autorun.Guest.World

namespace Autorun.Guest

open Autorun.Lib

variable (env : Env)

/-- `swap_storage.discard`. `mapped` tells whether every mapping of the backing
has its pages again. -/
def discardToken (w : World) (b token : Nat) : World :=
  { w with stored := Function.update w.stored token none }.note
    (.discarded b token (w.tree.all fun m : Mapping => !m.uses b || m.swapUnmapped == SwapUnmapped.attached))

/-- `swap_index_update` on the pages `[addr, addr + size)`. A bitmap that cannot
be allocated leaves the pages before it marked. -/
def swapIndexUpdate (index : Nat → Bool) (addr size : Nat) (set : Bool) (w : World) :
    Bool × (Nat → Bool) × World :=
  let mark := fun count p => if addr ≤ p ∧ p < addr + count then set else index p
  if !set then (true, mark size, w)
  else
    match ask env .index w with
    | (true, w) => (true, mark size, w)
    | (false, w) => (false, mark (min (env.indexed w.moment) size), w)

/-- The mappings of a backing, as a walk over the tree from its address on meets
them. -/
def backingMappings (w : World) (b : Nat) (k : Backing) : List Mapping :=
  ((mappings.after w.tree k.codeAddr).takeWhile (·.addr < k.codeAddr + k.size)).filter
    (Mapping.uses b)

/-- `swap_mark_faults_locked` over those mappings. -/
def swapMarkFaults (set : Bool) : List Mapping → World → Bool × World
  | [], w => (true, w)
  | m :: ms, w =>
    match swapIndexUpdate env w.faultIndex m.addr m.size set w with
    | (false, index, w) => (false, { w with faultIndex := index })
    | (true, index, w) => swapMarkFaults set ms { w with faultIndex := index }

/-- One turn of `swap_map_memory`, which completes what an earlier one began. -/
def swapMapOne (block : Nat) (m : Mapping) (w : World) : Option Errno × World :=
  match m.swapUnmapped with
  | .attached => (none, w)
  | state =>
    let (accepted, w) :=
      if state = .unmapped then
        match svc env .mapCode (·.mapCode m.addr block m.sourceOffset m.size) w with
        | (false, w) => (false, w)
        | (true, w) =>
          (true, (noteAliasSource w block m.sourceOffset m.size true).setMapping m.addr
            fun m => { m with swapUnmapped := .mapped })
      else (true, w)
    if !accepted then (some .nomem, w)
    else
      match svc env .permission (·.setPerm m.addr m.size (getHorizonPerm m.prot)) w with
      | (false, w) => (some .io, w)
      | (true, w) => (none, w.setMapping m.addr fun m => { m with swapUnmapped := .attached })

/-- The loop of `swap_map_memory`. -/
def swapMapWalk (block : Nat) : List Mapping → World → Option Errno × World
  | [], w => (none, w)
  | m :: ms, w =>
    match swapMapOne env block m w with
    | (some e, w) => (some e, w)
    | (none, w) => swapMapWalk block ms w

def swapMapMemory (w : World) (b : Nat) (k : Backing) (block : Nat) : Option Errno × World :=
  match swapMapWalk env block (backingMappings w b k) w with
  | (some e, w) => (some e, w)
  | (none, w) => (none, (swapMarkFaults env false (backingMappings w b k) w).2)

/-- The loop of `swap_unmap_memory`. When a mapping is refused those before it
are mapped again, and if that fails too the backing counts as detached. -/
def swapUnmapWalk (b : Nat) (k : Backing) (block : Nat) :
    List Mapping → (changed : Bool) → World → Option Errno × World
  | [], _, w => (none, w)
  | m :: ms, changed, w =>
    match svc env .unmapCode (·.unmapCode m.addr block m.sourceOffset m.size) w with
    | (true, w) =>
      swapUnmapWalk b k block ms true
        ((noteAliasSource w block m.sourceOffset m.size false).setMapping m.addr
          fun m => { m with swapUnmapped := .unmapped })
    | (false, w) =>
      match if changed then swapMapMemory env w b k block else (none, w) with
      | (some e, w) =>
        (some e, w.setBacking b fun k => { k with swap := { k.swap with detached := true } })
      | (none, w) => (some .busy, (swapMarkFaults env false (backingMappings w b k) w).2)

def swapUnmapMemory (w : World) (b : Nat) (k : Backing) (block : Nat) : Option Errno × World :=
  match swapMarkFaults env true (backingMappings w b k) w with
  | (false, w) => (some .nomem, (swapMarkFaults env false (backingMappings w b k) w).2)
  | (true, w) => swapUnmapWalk env b k block (backingMappings w b k) false w

/-- `swap_storage.save`: the pages go under a token that is not in use. -/
def saveBlock (w : World) (b block : Nat) : Except Errno Nat × World :=
  match ask env .save w with
  | (false, w) => (.error (env.saveError w.moment), w)
  | (true, w) =>
    let token := env.token w.moment
    if token = 0 ∨ (w.stored token).isSome then (.error (env.saveError w.moment), w)
    else
      (.ok token,
        { w with stored := Function.update w.stored token (some (w.heap block)) }.note
          (.saved b token))

/-- `swap_storage.load` into a heap block. -/
def loadBlock (w : World) (token block : Nat) : Option Errno × World :=
  match ask env .load w with
  | (false, w) => (some (env.loadError w.moment), w)
  | (true, w) =>
    match w.stored token with
    | none => (some (env.loadError w.moment), w)
    | some data => (none, { w with heap := Function.update w.heap block data })

/-- `swap_free_memory`. What is recorded with it is whether the pages are in the
store under the token of their backing. -/
def swapFreeMemory (w : World) (b block size : Nat) : World :=
  w.note (.freed block (w.tree.countP (Mapping.uses b)) (lentRange w block size)
    ((w.backings b).any fun k => (w.stored k.swap.token).isSome))

/-- `horizon_swap_out` with the callbacks of a backing. -/
def swapOut (w : World) (b : Nat) : Option Errno × World :=
  match w.backings b with
  | none => (none, w)
  | some k =>
    if k.swap.token ≠ 0 then (none, w)
    else
      match k.heapAddr with
      | none => (some .inval, w)
      | some block =>
        match if k.swap.detached then (none, w) else swapUnmapMemory env w b k block with
        | (some e, w) => (some e, w)
        | (none, w) =>
          let w := w.setBacking b fun k => { k with swap := { k.swap with detached := true } }
          match saveBlock env w b block with
          | (.error e, w) =>
            match swapMapMemory env w b k block with
            | (some _, w) => (some e, w)
            | (none, w) =>
              (some e, w.setBacking b fun k => { k with swap := { k.swap with detached := false } })
          | (.ok token, w) =>
            let w := w.setBacking b fun k => { k with swap := { k.swap with token } }
            (none, (swapFreeMemory w b block k.size).setBacking b
              fun k => { k with heapAddr := none })

/-- `swap_overlaps`, in bytes. -/
def swapOverlaps (start size : Nat) (pin : Pin) : Bool :=
  pin.addr < start + size && start < pin.addr + pin.size

/-- `swap_pinned_locked`, of a range in pages. -/
def swapPinned (w : World) (addr size : Nat) : Bool :=
  w.pins.any (swapOverlaps (addr * pageSize) (size * pageSize)) ||
    w.locks.any (swapOverlaps (addr * pageSize) (size * pageSize))

/-- The test of `swap_reclaim_locked` on one mapping and its backing. -/
def reclaimable (m : Mapping) (k : Backing) : Bool :=
  m.swapManaged && !m.swapExcluded && !m.prot.exec && !k.swapExcluded && k.heapAddr.isSome &&
    k.swapPrivate && !k.swap.detached && k.swap.token == 0

/-- `swap_storage.capacity - swap_stored_bytes`, as 64-bit arithmetic has it. -/
def swapRoom (w : World) : Nat := (w.capacity + 2 ^ 64 - w.storedBytes) % 2 ^ 64

/-- One pass of `swap_reclaim_locked`. The flag says that it gave up. -/
def reclaimWalk (size : Nat) : List Mapping → (freed : Nat) → World → Bool × Nat × World
  | [], freed, w => (false, freed, w)
  | m :: ms, freed, w =>
    if freed < size then
      let w := { w with cursor := m.stop }
      match m.backing with
      | none => reclaimWalk size ms freed w
      | some b =>
        match w.backings b with
        | none => reclaimWalk size ms freed w
        | some k =>
          if !reclaimable m k || swapPinned w k.codeAddr k.size || k.size * pageSize > swapRoom w then
            reclaimWalk size ms freed w
          else
            match swapOut env w b with
            | (some e, w) => if e = .busy then reclaimWalk size ms freed w else (true, freed, w)
            | (none, w) =>
              let w := { w with storedBytes := w.storedBytes + k.size * pageSize }
              let freed := freed + k.size * pageSize
              if env.outOfTime w.moment then (true, freed, w) else reclaimWalk size ms freed w
    else (false, freed, w)

/-- `swap_reclaim_locked`: from the cursor to the end of the tree, then from its
start to the cursor. `size` and the result are in bytes. -/
def swapReclaim (w : World) (size : Nat) : Nat × World :=
  if !w.swapActive then (0, w)
  else
    let start := w.cursor
    let ahead := if start = 0 then w.tree else mappings.after w.tree start
    match reclaimWalk env size ahead 0 w with
    | (true, freed, w) => (freed, w)
    | (false, freed, w) =>
      let (_, freed, w) := reclaimWalk env size (w.tree.takeWhile (·.addr < start)) freed w
      (freed, w)

/-- Heap pages of their own, with whatever they held before. -/
def allocPages (w : World) : Option Nat × World :=
  match ask env .heapPages w with
  | (false, w) => (none, w)
  | (true, w) =>
    (some w.next,
      { w with heap := Function.update w.heap w.next (env.fresh w.moment), next := w.next + 1 })

/-- The retries of `swap_alloc_memory`. A reclaim that frees something detaches
a backing, so there are no more of them than backings to detach. -/
def swapAllocRetry (size : Nat) : (tries : Nat) → World → Option Nat × World
  | 0, w => (none, w)
  | tries + 1, w =>
    match swapReclaim env w (size * pageSize) with
    | (0, w) => (none, w)
    | (_, w) =>
      match allocPages env w with
      | (some block, w) => (some block, w)
      | (none, w) => swapAllocRetry size tries w

def swapAllocMemory (w : World) (size : Nat) : Option Nat × World :=
  match allocPages env w with
  | (some block, w) => (some block, w)
  | (none, w) => swapAllocRetry env size (w.tree.length + 1) w

/-- The part of `horizon_swap_in` that gets the pages back into the heap. -/
def swapLoad (w : World) (b : Nat) (k : Backing) : Except Errno Nat × World :=
  match k.heapAddr with
  | some block => (.ok block, w)
  | none =>
    match swapAllocMemory env w k.size with
    | (none, w) => (.error .nomem, w)
    | (some block, w) =>
      match loadBlock env w k.swap.token block with
      | (some e, w) => (.error e, swapFreeMemory w b block k.size)
      | (none, w) => (.ok block, w.setBacking b fun k => { k with heapAddr := some block })

def swapIn (w : World) (b : Nat) : Option Errno × World :=
  match w.backings b with
  | none => (none, w)
  | some k =>
    if !k.swap.detached then (none, w)
    else
      match swapLoad env w b k with
      | (.error e, w) => (some e, w)
      | (.ok block, w) =>
        match swapMapMemory env w b k block with
        | (some e, w) => (some e, w)
        | (none, w) =>
          let w := w.setBacking b fun k => { k with swap := { k.swap with detached := false } }
          let w := if k.swap.token ≠ 0 then discardToken w b k.swap.token else w
          (none, w.setBacking b fun k => { k with swap := { k.swap with token := 0 } })

end Autorun.Guest
