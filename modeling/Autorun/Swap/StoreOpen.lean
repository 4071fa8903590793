import Autorun.Lib.Run
import Autorun.Lib.Scan
import Autorun.Swap.Store

namespace Autorun.Swap.StoreOpen
open Lib Store List

def storeFiles : Nat := 8

/-- A file of the store: `part-N.swap`, or `part-N.swap.creating` while it is made. -/
structure Name where
  index : Nat
  creating : Bool
deriving DecidableEq

/-- A file: its size and the part of it that a header takes. -/
structure File where
  size : Nat
  head : List Char
  fits : head.length = min size headerSize

abbrev Dir := Name → Option File

def pathOf (directory : List Char) (name : Name) : List Char :=
  directory ++ "/part-".toList ++ Nat.toDigits 10 name.index ++ ".swap".toList ++
    (if name.creating then ".creating".toList else [])

/-- The sizes of the buffers for a name, in `open_segment` and in `swap_store_remove`. -/
def pathSize : Nat := 768
def tempSize : Nat := 780

/-- The first line of a header, `"Autorun swap POC 1\n"`. -/
def magic : List Char :=
  ['A', 'u', 't', 'o', 'r', 'u', 'n', ' ', 's', 'w', 'a', 'p', ' ', 'P', 'O', 'C', ' ', '1', '\n']

def headerText (index size : Nat) : List Char :=
  magic ++ Nat.toDigits 10 index ++ ['\n'] ++ Nat.toDigits 10 size ++ ['\n']

def header (index size : Nat) : List Char :=
  ((headerText index size).take (headerSize - 1) ++ List.replicate headerSize '\x00').take headerSize

theorem length_header (index size : Nat) : (header index size).length = headerSize := by
  rw [header, length_take, length_append, length_replicate]
  omega

/-- A new file with its size, whatever it holds. -/
def File.fresh (size : Nat) (data : List Char) : File where
  size := size
  head := (data ++ List.replicate headerSize '\x00').take (min size headerSize)
  fits := by
    rw [length_take, length_append, length_replicate]
    omega

/-- The file once the first `n` characters of its header are written. -/
def File.writeHeader (f : File) (index size n : Nat) : File where
  size := max f.size (min n headerSize)
  head := (header index size).take n ++ f.head.drop (min n headerSize)
  fits := by
    rw [length_append, length_take, length_drop, length_header, f.fits]
    omega

/-- The file once it is written up to `n`. -/
def File.grow (f : File) (n : Nat) : File where
  size := max f.size n
  head := f.head ++ List.replicate (min n headerSize - f.head.length) '\x00'
  fits := by
    rw [length_append, length_replicate, f.fits]
    omega

/-! Opening. -/

/-- What is done next by `open_store` and by `open_segment` for one segment. -/
inductive Stage where
  | mkdir
  | survey
  | opening
  | space
  | statTemp
  | create
  | openTemp
  | header (written : Nat)
  | tail (written : Nat)
  | sync
  | close
  | rename
  | reopen
  | unlink
  | done (ok : Bool)
deriving DecidableEq

/-- `swap_store_open` between two file operations: the segment it works on and the bytes that it and
the ones behind it hold. -/
structure Opening where
  dir : Dir
  index : Nat
  left : Nat
  stage : Stage

/-- How a file operation ends: whether it works, how much it writes, and what a new file holds. -/
structure Call where
  works : Bool
  count : Nat
  data : List Char

def Opening.size (s : Opening) : Nat := min s.left segmentSize

def Opening.path (s : Opening) : Name := ⟨s.index, false⟩

def Opening.temp (s : Opening) : Name := ⟨s.index, true⟩

def Opening.at (s : Opening) (stage : Stage) : Opening := { s with stage := stage }

def Opening.set (s : Opening) (name : Name) (file : Option File) : Opening :=
  { s with dir := Function.update s.dir name file }

/-- The next turn of the loop over the segments. -/
def Opening.next (s : Opening) : Opening :=
  let left := s.left - s.size
  ⟨s.dir, s.index + 1, left, if left = 0 then .done true else .opening⟩

/-- The start of `swap_store_open`. -/
def Opening.start (dir : Dir) (megabytes : Nat) : Opening :=
  ⟨dir, 0, megabytes * 1048576, if megabytes = 0 ∨ 8192 < megabytes then .done false else .mkdir⟩

/-- How much of `room` one write takes. -/
def Call.written (c : Call) (room : Nat) : Nat := max 1 (min c.count room)

/-- `swap_store_open`, one file operation at a time; `native` is the build for the console. A failure
after the temporary file has been created goes through `unlink`. -/
def Opening.step (native : Bool) (directory : List Char) (s : Opening) (c : Call) : Opening :=
  match s.stage with
  | .mkdir => s.at (if c.works then .survey else .done false)
  | .survey =>
    if pathSize ≤ (pathOf directory ⟨s.index, false⟩).length then s.at (.done false)
    else s.at (if c.works then .opening else .done false)
  | .opening =>
    match s.dir s.path with
    | some f =>
      if c.works ∧ f.size = s.size + headerSize ∧ f.head = header s.index s.size then s.next
      else s.at (.done false)
    | none => s.at (if c.works then .space else .done false)
  | .space =>
    s.at (if c.works then (if native then .statTemp else .create) else .done false)
  | .statTemp => s.at (if c.works ∧ s.dir s.temp = none then .create else .done false)
  | .create =>
    if native then
      if c.works then
        (s.set s.temp (some (.fresh (s.size + headerSize) c.data))).at .openTemp
      else s.at .unlink
    else if c.works ∧ s.dir s.temp = none then (s.set s.temp (some (.fresh 0 []))).at (.header 0)
    else s.at (.done false)
  | .openTemp => s.at (if c.works then .header 0 else .unlink)
  | .header n =>
    if c.works then
      let n := n + c.written (headerSize - n)
      (s.set s.temp ((s.dir s.temp).map (·.writeHeader s.index s.size n))).at
        (if headerSize ≤ n then .tail 0 else .header n)
    else s.at .unlink
  | .tail n =>
    if c.works then
      let n := if native then s.size else n + c.written (s.size - n)
      (s.set s.temp ((s.dir s.temp).map (·.grow (headerSize + n)))).at
        (if s.size ≤ n then .sync else .tail n)
    else s.at .unlink
  | .sync => s.at (if c.works then .close else .unlink)
  | .close => s.at (if c.works then .rename else .unlink)
  | .rename =>
    if c.works then ((s.set s.path (s.dir s.temp)).set s.temp none).at .reopen else s.at .unlink
  | .reopen => if c.works then s.next else s.at (.done false)
  | .unlink => (if c.works then s.set s.temp none else s).at (.done false)
  | .done _ => s

/-! Removing. -/

/-- `sscanf( found, "Autorun swap POC 1\n%u\n%llu\n", &index, &size ) == 2`. -/
def scanHeader (text : List Char) : Option (Nat × Nat) :=
  match scanText magic text with
  | none => none
  | some text =>
    match scanUnsigned text with
    | none => none
    | some (index, text) => (scanLong (text.dropWhile isspace)).map fun size => (index, size)

/-- What `swap_store_remove` asks of a file before it removes any. -/
def Valid (index : Nat) (f : File) : Prop :=
  headerSize ≤ f.size ∧ ∃ found size, scanHeader (cstr f.head) = some (found, size) ∧ found = index ∧
    size ≠ 0 ∧ size ≤ segmentSize ∧ f.head = header found size ∧ f.size ≤ size + headerSize

instance (index : Nat) (f : File) : Decidable (Valid index f) :=
  match h : scanHeader (cstr f.head) with
  | none => isFalse fun hv => by
      obtain ⟨_, _, _, hs, _⟩ := hv
      rw [h] at hs
      cases hs
  | some (found, size) =>
    decidable_of_iff (headerSize ≤ f.size ∧ found = index ∧ size ≠ 0 ∧ size ≤ segmentSize ∧
        f.head = header found size ∧ f.size ≤ size + headerSize) <| by
      constructor
      · rintro ⟨hsize, hrest⟩
        exact ⟨hsize, found, size, h, hrest⟩
      · rintro ⟨hsize, found', size', hs, hrest⟩
        rw [h] at hs
        cases hs
        exact ⟨hsize, hrest⟩

/-- The names that `swap_store_remove` looks at, in its order. -/
def names : List Name := (List.range (storeFiles * 2)).map fun i => ⟨i / 2, i % 2 = 1⟩

/-- The first loop of `swap_store_remove`: the files to remove, unless one is refused. -/
def collect (directory : List Char) (dir : Dir) : List Name → Option (List Name)
  | [] => some []
  | name :: rest =>
    if tempSize ≤ (pathOf directory name).length then none
    else
      match dir name with
      | none => collect directory dir rest
      | some f =>
        if Valid name.index f then (collect directory dir rest).map (name :: ·) else none

def unlinkAll (dir : Dir) (ns : List Name) : Dir := ns.foldl (fun d n => Function.update d n none) dir

/-- `swap_store_remove`, its file operations working. -/
def remove (directory : List Char) (dir : Dir) : Option Dir :=
  (collect directory dir names).map (unlinkAll dir)

/-! What happens to a directory. -/

/-- An opening that is stopped after some of its file operations, or a removal. -/
inductive Session where
  | open (megabytes : Nat) (calls : List Call)
  | remove

def Session.play (native : Bool) (directory : List Char) (dir : Dir) : Session → Dir
  | .open megabytes calls =>
    (run (Opening.step native directory) (.start dir megabytes) calls).dir
  | .remove => (StoreOpen.remove directory dir).getD dir

/-- The directory after some sessions, with no file of the store in it at first. -/
def reached (native : Bool) (directory : List Char) (sessions : List Session) : Dir :=
  run (Session.play native directory) (fun _ => none) sessions

end Autorun.Swap.StoreOpen
