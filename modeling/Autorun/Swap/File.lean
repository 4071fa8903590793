import Autorun.Lib.Bitmap
import Autorun.Lib.Run
import Autorun.Swap.Store

namespace Autorun.Swap.File

open Autorun.Lib
open Autorun.Swap.Store

/-- `SWAP_FILE_UNIT`. -/
def unitSize : Nat := 4096

def unitCount (size : Nat) : Nat :=
  size / unitSize + if size % unitSize ≠ 0 then 1 else 0

/-- `struct swap_file` without its statistics. `used` is `none` when the bitmap
is not allocated. -/
structure SwapFile where
  store : SwapStore
  used : Option (Bitmap 8)
  units : Nat
  hint : Nat
  usedUnits : Nat

/-- `swap_file_open` over segments `swap_store_open_existing` found valid. -/
def swapFileOpen (megabytes : Nat) (files : Nat → Nat → UInt8) (allocated : Bool) :
    Except Errno SwapFile :=
  if megabytes = 0 ∨ megabytes > 8192 then .error .inval
  else if !allocated then .error .nomem
  else
    let size := megabytes * 1048576
    .ok { store := { size, files, calls := 0 }, used := some fun _ => 0#8,
          units := size / unitSize, hint := 0, usedUnits := 0 }

/-- The bit of a unit, read as clear when there is no bitmap to read. -/
def occupied (file : SwapFile) (unit : Nat) : Bool :=
  (file.used.map (Bitmap.test · unit)).getD false

/-- The search of `swap_file_save` over the next `left` units: the last unit of
the first run of `count` free ones. -/
def scan (free : Nat → Bool) (count : Nat) : (left unit run : Nat) → Option Nat
  | 0, _, _ => none
  | left + 1, unit, run =>
    let run := if free unit then run + 1 else 0
    if run = count then some unit else scan free count left (unit + 1) run

/-- The loop that moves the hint past occupied units. -/
def advance (file : SwapFile) : (left hint : Nat) → Nat
  | 0, hint => hint
  | left + 1, hint => if occupied file hint then advance file left (hint + 1) else hint

/-- `swap_file_discard`, or `none` when one of its assertions fails. The loop
asserts and clears one unit after the other; no unit comes twice. -/
def swapFileDiscard (file : SwapFile) (token size : Nat) : Option SwapFile :=
  let first := token - 1
  let count := unitCount size
  if token ≠ 0 ∧ size ≠ 0 ∧ first < file.units ∧ count ≤ file.units - first ∧
      (List.range' first count).all (occupied file) then
    some { file with
      used := file.used.map (Bitmap.clearRange · first count)
      usedUnits := file.usedUnits - count
      hint := if first < file.hint then first else file.hint }
  else none

/-- What `swap_file_save` hands back: its error, if any, the token it stores
through the pointer and the file. An outer `none` is a failed assertion. -/
abbrev Saved := Option (Option Errno × Nat × SwapFile)

def swapFileSave (fs : FileSystem) (file : SwapFile) (data : List UInt8) : Saved :=
  if data.length = 0 ∨ data.length > file.store.size ∨ file.used = none then
    some (some .inval, 0, file)
  else
    let count := unitCount data.length
    match scan (fun unit => !occupied file unit) count (file.units - file.hint) file.hint 0 with
    | none => some (some .nospc, 0, file)
    | some last =>
      let first := last + 1 - count
      let taken := { file with
        used := file.used.map (Bitmap.setRange · first count)
        usedUnits := file.usedUnits + count }
      match swapStoreWrite fs file.store (first * unitSize) data with
      | (some e, store) =>
        (swapFileDiscard { taken with store } (first + 1) data.length).map fun undone =>
          (some e, 0, undone)
      | (none, store) =>
        let written := { taken with store }
        some (none, first + 1,
          { written with hint := advance written (written.units - written.hint) written.hint })

def swapFileLoad (fs : FileSystem) (file : SwapFile) (token size : Nat) :
    Except Errno (List UInt8) × SwapFile :=
  let first := token - 1
  let count := unitCount size
  if token = 0 ∨ size = 0 ∨ size > file.store.size ∨ first ≥ file.units then (.error .inval, file)
  else if count > file.units - first then (.error .inval, file)
  else if !(List.range' first count).all (occupied file) then (.error .inval, file)
  else
    match swapStoreRead fs file.store (first * unitSize) size with
    | (result, store) => (result, { file with store })

/-- A token in use, with the bytes given to the save that produced it. -/
structure Live where
  token : Nat
  data : List UInt8
  deriving DecidableEq

namespace Live

def first (l : Live) : Nat := l.token - 1

def count (l : Live) : Nat := unitCount l.data.length

end Live

/-- A swap file and the tokens its owner holds. -/
structure State where
  file : SwapFile
  live : List Live

inductive Op where
  | save (data : List UInt8)
  | load (token size : Nat)
  | discard (token : Nat)

/-- One call by the owner. A discard names a live token and its size, so one of
any other token is not made. `none` is an assertion that failed. -/
def step (fs : FileSystem) (s : State) : Op → Option State
  | .save data =>
    (swapFileSave fs s.file data).map fun (error, token, file) =>
      match error with
      | some _ => { s with file }
      | none => { file, live := { token, data } :: s.live }
  | .load token size => some { s with file := (swapFileLoad fs s.file token size).2 }
  | .discard token =>
    match s.live.find? (·.token == token) with
    | none => some s
    | some l =>
      (swapFileDiscard s.file token l.data.length).map fun file =>
        { file, live := s.live.erase l }

/-- A sequence of calls, `none` once an assertion has failed. -/
def runCalls (fs : FileSystem) (s : State) (ops : List Op) : Option State :=
  run (fun s op => s.bind (step fs · op)) (some s) ops

/-- The set bits of the whole bitmap, all `(units + 7) / 8` bytes of it. -/
def setBits (file : SwapFile) : Nat :=
  (file.used.map (Bitmap.card · (8 * ((file.units + 7) / 8)))).getD 0

end Autorun.Swap.File
