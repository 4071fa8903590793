import Autorun.Heap.Dynarec

namespace Autorun.Heap.Dynarec.Quarantine

open Autorun.Lib

/-- A chunk that went back to its arena: when it was freed, what the clock read then, and how many threads were
inside its block. -/
structure Return where
  chunk : Nat × Nat
  freed : Nat
  clock : Nat
  inUsed : Nat
deriving DecidableEq

structure World where
  code : Code := {}
  /-- what `nx_now_ns` returns -/
  clock : Nat := 0
  /-- the `now` that each thread has read -/
  now : Nat → Nat := fun _ => 0
  /-- `in_used` of the block in each chunk, 0 where none is written -/
  inUsed : Nat × Nat → Nat := fun _ => 0
  /-- when the chunks in the quarantine were freed, in their order -/
  freed : List Nat := []
  returned : List Return := []

/-- What threads do: sections under `arena_mutex`, and reads of the clock. `AllocDynarecMap` and
`wine_nx_box64_code_room` read it before they take the lock; a purge in `AllocDynarecMap` drops the lock, so that
frees come before its second release. -/
inductive Label
  | tick (time : Nat)
  | read (thread : Nat)
  | release (thread turns : Nat)
  | take (size : Nat) (created : Option Created)
  | free (addr : Nat)
  | enter (chunk : Nat × Nat)
  | leave (chunk : Nat × Nat)

/-- One turn of the loop in `release_quarantine_locked`. -/
def turn (cfg : Config) (now : Nat) (w : World) : World :=
  match quarantineOldest w.code.quarantine with
  | none => w
  | some e =>
    if sub64 now e.stamp < cfg.quarantineNs then w
    else
      let used := w.inUsed (e.arena, e.payload)
      let w := { w with code := releaseQuarantine cfg now w.code [(used ≠ 0, true)] }
      if used ≠ 0 then { w with freed := w.freed.tail ++ w.freed.take 1 }
      else
        { w with
          freed := w.freed.tail
          returned := ⟨(e.arena, e.payload), w.freed.headD 0, w.clock, used⟩ :: w.returned }

def release (cfg : Config) (now : Nat) : Nat → World → World
  | 0, w => w
  | turns + 1, w => release cfg now turns (turn cfg now w)

/-- The array of the quarantine can always grow. The clock never goes back. -/
def step (cfg : Config) (w : World) : Label → World
  | .tick time => if w.clock ≤ time ∧ time < 2 ^ 64 then { w with clock := time } else w
  | .read thread => { w with now := Function.update w.now thread w.clock }
  | .release thread turns => release cfg (w.now thread) turns w
  | .take size created =>
    if size = 0 then w
    else
      let (block, code) := allocDynarecMap cfg w.code size created
      { w with code, inUsed := (block.map fun b => Function.update w.inUsed b 0).getD w.inUsed }
  | .free addr =>
    let code := freeDynarecMap w.code addr w.clock true
    let waits := code.quarantine.count ≠ w.code.quarantine.count
    { w with code, freed := if waits then w.freed ++ [w.clock] else w.freed }
  | .enter chunk => { w with inUsed := Function.update w.inUsed chunk (w.inUsed chunk + 1) }
  | .leave chunk => { w with inUsed := Function.update w.inUsed chunk (w.inUsed chunk - 1) }

end Autorun.Heap.Dynarec.Quarantine
