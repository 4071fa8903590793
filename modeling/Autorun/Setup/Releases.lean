import Mathlib.Logic.Function.Basic
import Autorun.Lib.Crash

namespace Autorun.Releases

open Autorun.Lib Function

abbrev Bytes := List UInt8

inductive Machine where
  | x32 | x64
deriving DecidableEq

/-- The folders of one version: `versions/V.new` and `versions/V`, for each machine. -/
inductive Place where
  | new (machine : Machine)
  | final (machine : Machine)
deriving DecidableEq

/-- The files of a folder, in the order `readdir` gives them; names that differ in case only are one name. -/
abbrev Folder := List (String × Bytes)

def Folder.write (folder : Folder) (name : String) (data : Bytes) : Folder :=
  folder.filter (·.1 != name) ++ [(name, data)]

abbrev Card := Place → Option Folder

/-- What is asked of the card. -/
inductive Op where
  | makeBases
  | make (machine : Machine)
  | saveArchive
  | removeArchive
  | write (machine : Machine)
  | validate (machine : Machine)
  | openDir (place : Place)
  | statEntry (place : Place)
  | removeEntry (place : Place)
  | removeDir (place : Place)
  | rename (machine : Machine)
deriving DecidableEq

structure Act where
  op : Op
  name : String := ""
  data : Bytes := []

def Act.apply (a : Act) (card : Card) : Card :=
  match a.op with
  | .make m => update card (.new m) (some ((card (.new m)).getD []))
  | .write m => update card (.new m) ((card (.new m)).map (·.write a.name a.data))
  | .removeEntry p => update card p ((card p).map (·.filter (·.1 != a.name)))
  | .removeDir p => update card p none
  | .rename m => update (update card (.final m) (card (.new m))) (.new m) none
  | _ => card

/-- What an act that is stopped or fails has done: any part of a write, nothing of the others. -/
def Act.part (a : Act) (card card' : Card) : Prop :=
  card' = card ∨ ∃ m n, a.op = .write m ∧
    card' = update card (.new m) ((card (.new m)).map (·.write a.name (a.data.take n)))

/-- What can be stopped and what can fail. -/
structure Faults where
  stops : Op → Prop
  fails : Op → Prop

def Faults.acts (F : Faults) : Prog.Acts Card Act :=
  (Prog.Acts.mk Act.apply Act.part Act.part).only (F.stops ·.op) (F.fails ·.op)

abbrev Io := Prog Card Act

/-- The loop of `remove_tree`; what cannot be removed stays. -/
def removeEntries (place : Place) : Folder → Io Unit
  | [] => .ret ()
  | file :: rest => .act { op := .statEntry place } fun found =>
      if found then .act { op := .removeEntry place, name := file.1 } fun _ => removeEntries place rest
      else removeEntries place rest

/-- `remove_tree` once the folder is open; a folder that is not empty is not removed. -/
def removeOpened (place : Place) : Io Unit :=
  .look fun card => (removeEntries place ((card place).getD [])).bind fun _ => .look fun card =>
    if card place = some [] then .act { op := .removeDir place } fun _ => .ret () else .ret ()

/-- `remove_tree`, whose result nobody looks at. -/
def removeTree (place : Place) : Io Unit :=
  .act { op := .openDir place } fun opened => if opened then removeOpened place else .ret ()

/-- `rename` to the final folder, which must not be there. -/
def moveIn (machine : Machine) : Io Bool :=
  .look fun card => if (card (.final machine)).isSome then .ret false else .act { op := .rename machine } .ret

inductive Backend where
  | dxvk | sarek | gplasync | vkd3d
deriving DecidableEq

def Backend.dlls : Backend → List String
  | .vkd3d => ["d3d12.dll", "d3d12core.dll"]
  | .sarek => ["ddraw.dll", "d3d8.dll", "d3d9.dll", "d3d10core.dll", "d3d11.dll", "dxgi.dll"]
  | _ => ["d3d8.dll", "d3d9.dll", "d3d10.dll", "d3d10_1.dll", "d3d10core.dll", "d3d11.dll", "dxgi.dll"]

/-- `validate_payload`; `recent` tells a version of vkd3d from 2.9 on, and `pe` is `valid_pe`. -/
def validatePayload (pe : Machine → Bytes → Bool) (backend : Backend) (recent : Bool) (machine : Machine)
    (folder : Folder) : Bool :=
  let found := backend.dlls.filterMap (List.lookup · folder)
  (backend != .vkd3d || (List.lookup "d3d12.dll" folder).any (pe machine)) && found.all (pe machine) &&
    if backend == .vkd3d && recent then found.length == 2 else 0 < found.length

inductive Result where
  | ok | invalidResponse | ioError | cancelled | network | invalidArchive | hashMismatch
deriving DecidableEq

/-- What the caller, the network and the archive bring to one install. -/
structure Job where
  pe : Machine → Bytes → Bool
  backend : Backend
  recent : Bool
  accepted : Bool
  cancelDownload : Bool
  received : Result
  cancelVerify : Bool
  compressed : Bool
  digestMatches : Bool
  cancelInstall : Bool
  entries : List (Machine × String × Bytes)
  complete : Bool
  info : Bytes

namespace Job

variable (job : Job)

/-- The DLLs of the archive for one machine. -/
def files (machine : Machine) : Folder := (job.entries.filter (·.1 == machine)).map (·.2)

def valid (machine : Machine) (folder : Folder) : Bool := validatePayload job.pe job.backend job.recent machine folder

/-- `validate_payload` on a new folder. -/
def validate (machine : Machine) : Io Bool :=
  .act { op := .validate machine } fun ok => .look fun card =>
    .ret (ok && (card (.new machine)).any (job.valid machine))

/-- The checks between the download and the first write, in the source's order. -/
def refused : Option Result :=
  if job.cancelDownload then some .cancelled
  else if job.received ≠ .ok then some job.received
  else if job.cancelVerify then some .cancelled
  else if !job.compressed then some .invalidArchive
  else if !job.digestMatches then some .hashMismatch
  else none

/-- From the download to `write_release_info`. -/
def fill : Io Result :=
  match job.refused with
  | some result => .ret result
  | none =>
    (Prog.all [{ op := .saveArchive }]).check .ioError <|
      if job.cancelInstall then .ret .cancelled
      else (Prog.all (job.entries.map fun e => { op := .write e.1, name := e.2.1, data := e.2.2 })).check .invalidArchive <|
        if !job.complete || (job.files .x32).isEmpty || (job.files .x64).isEmpty then .ret .invalidArchive
        else (job.validate .x32).check .invalidArchive <| (job.validate .x64).check .invalidArchive <|
          (Prog.all [{ op := .write .x32, name := "release.ini", data := job.info },
            { op := .write .x64, name := "release.ini", data := job.info }]).check .ioError (.ret .ok)

/-- The end of an install that failed. -/
def failed (result : Result) : Io Result :=
  .act { op := .removeArchive } fun _ => (removeTree (.new .x32)).bind fun _ => (removeTree (.new .x64)).bind fun _ =>
    .ret result

/-- The old folders go and the new ones take their names. -/
def swap : Io Bool :=
  (removeTree (.final .x32)).bind fun _ => (removeTree (.final .x64)).bind fun _ =>
    (moveIn .x32).check false (moveIn .x64)

/-- `backend_install_release` -/
def install : Io Result :=
  if !job.accepted then .ret .invalidResponse
  else (Prog.all [{ op := .makeBases }]).check .ioError <|
    (removeTree (.new .x32)).bind fun _ => (removeTree (.new .x64)).bind fun _ =>
      (Prog.all [{ op := .make .x32 }, { op := .make .x64 }]).check .ioError <|
        job.fill.bind fun result =>
          if result = .ok then swap.bind fun moved =>
            if moved then .act { op := .removeArchive } fun _ => .ret .ok else failed .ioError
          else failed result

/-- `backend_release_installed` -/
def installed (card : Card) (machine : Machine) : Bool := (card (.final machine)).any (job.valid machine)

end Job

end Autorun.Releases
