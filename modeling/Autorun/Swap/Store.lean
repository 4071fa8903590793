import Mathlib.Logic.Function.Basic
import Mathlib.Data.List.Range

namespace Autorun.Swap.Store

def headerSize : Nat := 4096

def segmentSize : Nat := 1024 * 1024 * 1024

/-- The `errno` values the swap file and its store give themselves. Any other
value comes from a file operation that failed. -/
inductive Errno where
  | inval
  | nospc
  | nomem
  | io (code : Nat)
  deriving DecidableEq, Repr

/-- What the file system does with each transfer of one segment: the error it
ends with, if any, and the bytes a failed write leaves in the range. -/
structure FileSystem where
  fails : Nat → Option Nat
  torn : Nat → Nat → UInt8

/-- An open `swap_store`. The file handles are the segments' contents, each with
its header, and `calls` numbers the transfers made. -/
structure SwapStore where
  size : Nat
  files : Nat → Nat → UInt8
  calls : Nat

/-- `bytes` laid over `f` from `offset` on. -/
def splice (f : Nat → UInt8) (offset : Nat) (bytes : List UInt8) : Nat → UInt8 :=
  fun i => if offset ≤ i ∧ i < offset + bytes.length then bytes.getD (i - offset) 0 else f i

def slice (f : Nat → UInt8) (offset size : Nat) : List UInt8 :=
  (List.range size).map fun i => f (offset + i)

/-- `transfer` and `native_transfer`: one range of one segment file. The result
is the caller's buffer afterwards. -/
def transfer (fs : FileSystem) (store : SwapStore) (index offset : Nat) (data : List UInt8)
    (writing : Bool) : Except Errno (List UInt8) × SwapStore :=
  let file := store.files index
  let called := { store with calls := store.calls + 1 }
  match fs.fails store.calls, writing with
  | some code, true =>
    let torn := slice (fs.torn store.calls) offset data.length
    (.error (.io code),
      { called with files := Function.update store.files index (splice file offset torn) })
  | some code, false => (.error (.io code), called)
  | none, true =>
    (.ok data, { called with files := Function.update store.files index (splice file offset data) })
  | none, false => (.ok (slice file offset data.length), called)

/-- The loop of `store_transfer`, which cuts the range at segment boundaries.
Every turn moves at least one byte, so the length bounds the turns. -/
def transferChunks (fs : FileSystem) (writing : Bool) :
    Nat → SwapStore → Nat → List UInt8 → Except Errno (List UInt8) × SwapStore
  | 0, store, _, _ => (.ok [], store)
  | turns + 1, store, offset, data =>
    if data.length = 0 then (.ok [], store)
    else
      let index := offset / segmentSize
      let position := offset % segmentSize
      let chunk := min data.length (segmentSize - position)
      match transfer fs store index (headerSize + position) (data.take chunk) writing with
      | (.error e, store) => (.error e, store)
      | (.ok moved, store) =>
        match transferChunks fs writing turns store (offset + chunk) (data.drop chunk) with
        | (.error e, store) => (.error e, store)
        | (.ok rest, store) => (.ok (moved ++ rest), store)

def storeTransfer (fs : FileSystem) (store : SwapStore) (offset : Nat) (data : List UInt8)
    (writing : Bool) : Except Errno (List UInt8) × SwapStore :=
  if offset > store.size ∨ data.length > store.size - offset then (.error .inval, store)
  else transferChunks fs writing data.length store offset data

/-- The sizes of the segments that the loop of `open_store` opens, one file after the other. -/
def segmentSizes : Nat → Nat → List Nat
  | 0, _ => []
  | files + 1, left =>
    if left = 0 then [] else min left segmentSize :: segmentSizes files (left - min left segmentSize)

/-- A range of one segment file. -/
structure Piece where
  index : Nat
  position : Nat
  length : Nat

/-- The ranges that the loop of `store_transfer` comes to, if none of them fails. -/
def pieces : Nat → Nat → Nat → List Piece
  | 0, _, _ => []
  | turns + 1, offset, size =>
    if size = 0 then []
    else
      let position := offset % segmentSize
      let chunk := min size (segmentSize - position)
      ⟨offset / segmentSize, headerSize + position, chunk⟩ :: pieces turns (offset + chunk) (size - chunk)

/-- One transfer after the other, up to the first that fails. -/
def transferPieces (fs : FileSystem) (writing : Bool) :
    List Piece → SwapStore → List UInt8 → Except Errno (List UInt8) × SwapStore
  | [], store, _ => (.ok [], store)
  | p :: ps, store, data =>
    match transfer fs store p.index p.position (data.take p.length) writing with
    | (.error e, store) => (.error e, store)
    | (.ok moved, store) =>
      match transferPieces fs writing ps store (data.drop p.length) with
      | (.error e, store) => (.error e, store)
      | (.ok rest, store) => (.ok (moved ++ rest), store)

/-- `swap_store_read` into a buffer of `size` bytes. -/
def swapStoreRead (fs : FileSystem) (store : SwapStore) (offset size : Nat) :
    Except Errno (List UInt8) × SwapStore :=
  storeTransfer fs store offset (List.replicate size 0) false

def swapStoreWrite (fs : FileSystem) (store : SwapStore) (offset : Nat) (data : List UInt8) :
    Option Errno × SwapStore :=
  match storeTransfer fs store offset data true with
  | (.error e, store) => (some e, store)
  | (.ok _, store) => (none, store)

/-- A request: `swap_store_write` of the data, or `swap_store_read` over a buffer that holds it. -/
structure Request where
  offset : Nat
  data : List UInt8
  writing : Bool

def request (fs : FileSystem) (store : SwapStore) (r : Request) : SwapStore :=
  (storeTransfer fs store r.offset r.data r.writing).2

end Autorun.Swap.Store
