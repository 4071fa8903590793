import Mathlib.Algebra.Group.Nat.Defs

namespace Autorun.Server.WinTimers

/-- A rate in milliseconds. -/
abbrev Rate : Type := { rate : UInt32 // rate ≠ 0 }

/-- `rate ? rate : 1`. -/
def rateOf (rate : UInt32) : Rate := if h : rate = 0 then ⟨1, by decide⟩ else ⟨rate, h⟩

/-- `struct horizon_win_timer`. -/
structure Timer where
  tid : Nat
  win : Nat
  msg : Nat
  rate : Rate
  id : Nat
  lparam : Nat
  when : Nat
deriving DecidableEq

/-- What `horizon_win_timers_find` looks for. -/
def Timer.key (t : Timer) : Nat × Nat × Nat × Nat := (t.tid, t.win, t.msg, t.id)

/-- An id for a timer without a window. -/
abbrev TimerId : Type := { id : Nat // 0x100 < id ∧ id ≤ 0x7fff }

/-- `if (--next_id <= 0x100) next_id = 0x7fff`. -/
def before (id : TimerId) : TimerId :=
  if h : id.1 - 1 ≤ 0x100 then ⟨0x7fff, by decide⟩ else ⟨id.1 - 1, by have := id.2; omega⟩

/-- `struct horizon_win_timers`; there is no next id until first use. -/
structure Timers where
  list : List Timer := []
  nextId : Option TimerId := none

inductive Error
  | noMemory
  | noIds
deriving DecidableEq

def find (list : List Timer) (key : Nat × Nat × Nat × Nat) : Option Timer :=
  list.find? (·.key = key)

/-- `horizon_win_timers_remove` at the link that was found. -/
def remove (list : List Timer) (key : Nat × Nat × Nat × Nat) : List Timer :=
  list.eraseP (·.key = key)

/-- The search for an id that is not taken, and the next id after it; `none` if it goes on for more
turns. -/
def freeId (taken : TimerId → Bool) (endId : TimerId) : (turns : Nat) → TimerId → Option (Option TimerId × TimerId)
  | 0, _ => none
  | turns + 1, id =>
    if !taken id then some (some id, before id)
    else if (before id).1 = endId.1 then some (none, before id)
    else freeId taken endId turns (before id)

/-- Whether a new timer takes the place of one there is. -/
def replaces (list : List Timer) (tid win msg id : Nat) : Bool :=
  (win != 0 || id != 0) && (find list (tid, win, msg, id)).isSome

/-- The first half of `horizon_win_timers_set`: the timers without the one that is replaced, the id
the new one gets, and the next id. -/
def chooseId (timers : Timers) (tid win msg id : Nat) : Option (List Timer × Option Nat × TimerId) :=
  let nextId := timers.nextId.getD ⟨0x7fff, by decide⟩
  if replaces timers.list tid win msg id then
    some (remove timers.list (tid, win, msg, id), some id, nextId)
  else if win = 0 then
    (freeId (fun id => (find timers.list (tid, 0, msg, id.1)).isSome) nextId 0x7fff nextId).map
      fun (id, nextId) => (timers.list, id.map Subtype.val, nextId)
  else some (timers.list, some id, nextId)

/-- `horizon_win_timers_set`; `memory` tells whether the allocation succeeds. -/
def set (memory : Bool) (timers : Timers) (tid win msg id : Nat) (rate : UInt32) (lparam now : Nat) :
    Option (Except Error Nat × Timers) :=
  (chooseId timers tid win msg id).map fun
    | (list, none, nextId) => (.error .noIds, ⟨list, some nextId⟩)
    | (list, some id, nextId) =>
      if !memory then (.error .noMemory, ⟨list, some nextId⟩)
      else
        let timer : Timer :=
          { tid, win, msg, id, lparam, rate := rateOf rate, when := (now + (rateOf rate).1.toNat) % 2 ^ 64 }
        (.ok id, ⟨timer :: list, some nextId⟩)

/-- `horizon_win_timers_kill`; whether there was such a timer. -/
def kill (timers : Timers) (tid win msg id : Nat) : Bool × Timers :=
  if (find timers.list (tid, win, msg, id)).isSome then
    (true, { timers with list := remove timers.list (tid, win, msg, id) })
  else (false, timers)

/-- The arguments of `horizon_win_timers_expired` that choose a timer. -/
structure Filter where
  tid : Nat
  getWin : Nat
  first : Nat
  last : Nat
  now : Nat

def Filter.passes (f : Filter) (t : Timer) : Bool :=
  t.tid = f.tid ∧ t.when ≤ f.now ∧ (f.getWin = 0 ∨ t.win = f.getWin) ∧
    (f.first = 0 ∧ f.last = 0 ∨ f.first ≤ t.msg ∧ t.msg ≤ f.last)

/-- The loop of `horizon_win_timers_expired`; a timer is found with its place in the list. -/
def earliest (f : Filter) : List Timer → (place : Nat) → Option (Nat × Timer) → Option (Nat × Timer)
  | [], _, found => found
  | t :: list, place, found =>
    earliest f list (place + 1)
      (if f.passes t && found.all (fun best => t.when < best.2.when) then some (place, t) else found)

/-- `while (found->when <= now) found->when += found->rate`; `none` if it goes on for more turns. -/
def reschedule (rate now : Nat) : (turns : Nat) → (when : Nat) → Option Nat
  | 0, when => if when ≤ now then none else some when
  | turns + 1, when => if when ≤ now then reschedule rate now turns ((when + rate) % 2 ^ 64) else some when

def expired (timers : Timers) (f : Filter) (remove : Bool) : Option (Option Timer × Timers) :=
  match earliest f timers.list 0 none with
  | none => some (none, timers)
  | some (place, t) =>
    if remove then
      (reschedule t.rate.1.toNat f.now (f.now + 1) t.when).map fun when =>
        (some { t with when }, { timers with list := timers.list.set place { t with when } })
    else some (some t, timers)

def drop (timers : Timers) (tid win : Nat) : Timers :=
  { timers with list := timers.list.filter fun t => !(if win ≠ 0 then t.win = win else t.tid = tid) }

inductive Op
  | set (memory : Bool) (tid win msg id : Nat) (rate : UInt32) (lparam now : Nat)
  | kill (tid win msg id : Nat)
  | expired (filter : Filter) (remove : Bool)
  | drop (tid win : Nat)

/-- One call; `none` if it does not end. -/
def step (timers : Timers) : Op → Option Timers
  | .set memory tid win msg id rate lparam now =>
    (set memory timers tid win msg id rate lparam now).map Prod.snd
  | .kill tid win msg id => some (kill timers tid win msg id).2
  | .expired filter remove => (expired timers filter remove).map Prod.snd
  | .drop tid win => some (drop timers tid win)

def run (timers : Timers) : List Op → Option Timers
  | [] => some timers
  | op :: ops => (step timers op).bind (run · ops)

end Autorun.Server.WinTimers
