import Mathlib.Algebra.Group.Nat.Defs

namespace Autorun.Swap.Locks

/-- `struct horizon_swap_pin`. -/
structure Pin where
  addr : Nat
  size : Nat
deriving DecidableEq

def Pin.stop (p : Pin) : Nat := p.addr + p.size

/-- Why a call returns 0, or -1 with `errno`. -/
inductive Reply
  | nothing | done | inval | noMemory | notResident
deriving DecidableEq

/-- The loop of `horizon_swap_lock` up to the first range it takes off the list. -/
def absorb (start stop : Nat) : List Pin → Option (Pin × List Pin)
  | [] => none
  | old :: rest =>
    if old.addr ≤ stop ∧ start ≤ old.stop then some (old, rest)
    else (absorb start stop rest).map fun (taken, rest) => (taken, old :: rest)

/-- The whole loop, for the turns left: it begins again at the head after each range it takes. -/
def merge : Nat → Nat → Nat → List Pin → Option (Pin × List Pin)
  | 0, _, _, _ => none
  | left + 1, start, stop, locks =>
    match absorb start stop locks with
    | none => some (⟨start, stop - start⟩, locks)
    | some (old, rest) => merge left (min start old.addr) (max stop old.stop) rest

/-- What `horizon_swap_may_contain`, `malloc` and `horizon_swap_pin_begin` answer. -/
structure Answers where
  mayContain : Bool
  memory : Bool
  resident : Bool

/-- `horizon_swap_lock`; none if its loop does not end. -/
def swapLock (a : Answers) (start size : Nat) (locks : List Pin) : Option (Reply × List Pin) :=
  if a.mayContain = false then some (.nothing, locks)
  else if size > 2 ^ 64 - 1 - start then some (.inval, locks)
  else if a.memory = false then some (.noMemory, locks)
  else if a.resident = false then some (.notResident, locks)
  else (merge (locks.length + 1) start (start + size) locks).map fun (pin, rest) => (.done, pin :: rest)

/-- The second loop of `swap_unlock_locked`; none if it writes through a null `right`. -/
def trim (start stop : Nat) : Bool → List Pin → Option (List Pin)
  | _, [] => some []
  | right, pin :: rest =>
    let a := pin.addr
    let b := pin.stop
    if a ≥ stop ∨ b ≤ start then (trim start stop right rest).map (pin :: ·)
    else if a < start then
      if b > stop then
        -- the walk passes over the new node, which begins at `stop`
        if right then (trim start stop false rest).map fun l => ⟨a, start - a⟩ :: ⟨stop, b - stop⟩ :: l
        else none
      else (trim start stop right rest).map (⟨a, start - a⟩ :: ·)
    else if b > stop then (trim start stop right rest).map (⟨stop, b - stop⟩ :: ·)
    else trim start stop right rest

/-- `swap_unlock_locked`: whether it returned 0. -/
def swapUnlockLocked (memory : Bool) (start size : Nat) (locks : List Pin) : Option (Bool × List Pin) :=
  let stop := start + size
  let inner := locks.any fun p => p.addr < start ∧ stop < p.stop
  if inner = true ∧ memory = false then some (false, locks)
  else (trim start stop inner locks).map (true, ·)

/-- The list, and the bytes that were locked and not unlocked since. -/
structure World where
  locks : List Pin
  held : Nat → Prop

inductive Op
  | lock (a : Answers) (start size : Nat)
  | unlock (memory : Bool) (start size : Nat)

/-- The range is not empty and does not wrap. -/
def Op.Ok : Op → Prop
  | .lock _ start size | .unlock _ start size => 0 < size ∧ start + size < 2 ^ 64

def World.step (w : World) : Op → Option World
  | .lock a start size => (swapLock a start size w.locks).map fun (reply, locks) =>
      ⟨locks, fun x => w.held x ∨ reply = .done ∧ start ≤ x ∧ x < start + size⟩
  | .unlock memory start size => (swapUnlockLocked memory start size w.locks).map fun (ok, locks) =>
      ⟨locks, fun x => w.held x ∧ ¬(ok = true ∧ start ≤ x ∧ x < start + size)⟩

end Autorun.Swap.Locks
