import Mathlib.Logic.Function.Basic
import Autorun.Lib.Crash

namespace Autorun.Dlls

open Autorun.Lib

abbrev Bytes := List UInt8

abbrev Path := List Char

abbrev Card := Path → Option Bytes

/-- What is asked of the card. -/
inductive Act where
  | stat (path : Path)
  | read (path : Path)
  | makeFolders (root : Path)
  | open (path : Path)
  | write (path : Path) (data : Bytes)
  | flush (path : Path)
  | sync (path : Path)
  | close (path : Path)
  | remove (path : Path)
  | rename (source target : Path)

/-- A file that is missing counts as removed. -/
def Act.apply : Act → Card → Card
  | .open path, card => Function.update card path (some [])
  | .write path data, card => Function.update card path ((card path).map (· ++ data))
  | .remove path, card => Function.update card path none
  | .rename source target, card => Function.update (Function.update card target (card source)) source none
  | _, card => card

/-- What an act that is stopped or fails has done: any part of a write, nothing of the others. -/
def Act.part : Act → Card → Card → Prop
  | .write path data, card, card' =>
    ∃ n, card' = Function.update card path ((card path).map (· ++ data.take n))
  | _, card, card' => card' = card

/-- The acts that can be stopped and those that can fail. -/
structure Faults where
  stops : Act → Prop
  fails : Act → Prop

def Faults.acts (F : Faults) : Prog.Acts Card Act :=
  (Prog.Acts.mk Act.apply Act.part Act.part).only F.stops F.fails

abbrev Io := Prog Card Act

/-- `path`, with `.part` behind. -/
def part (path : Path) : Path := path ++ ['.', 'p', 'a', 'r', 't']

/-- `write_whole`; a write of nothing cannot fall short. -/
def writeWhole (path : Path) (data : Bytes) : Io Bool :=
  .act (.open path) fun opened =>
    if opened then
      .act (.write path data) fun written => .act (.close path) fun closed =>
        if (written || data.isEmpty) && closed then .ret true
        else .act (.remove path) fun _ => .ret false
    else .ret false

/-- The new file takes the place of the old one, or goes. -/
def replace (path : Path) (ok : Bool) : Io Bool :=
  (if ok then Prog.all [.remove path, .rename (part path) path] else .ret false).bind fun ok =>
    if ok then .ret true else .act (.remove (part path)) fun _ => .ret false

/-- `put_file`; a `stat` that fails is taken for a file that is missing. -/
def putFile (path : Path) (data : Bytes) : Io Bool :=
  .act (.stat path) fun found => .look fun card =>
    if found && (card path).isSome then
      if (part path).length < 800 then (writeWhole (part path) data).check false (replace path true)
      else .ret false
    else writeWhole path data

/-- `join` -/
def join (root name : Path) : Path := root ++ '/' :: name

/-- `write_atomically` -/
def writeAtomically (root name : Path) (data : Bytes) : Io Bool :=
  let path := join root name
  if path.length < 768 ∧ (part path).length < 800 then
    (Prog.all [.makeFolders root, .open (part path)]).check false <|
      (Prog.all [.write (part path) data, .flush (part path), .sync (part path)]).bind fun ok =>
        .act (.close (part path)) fun closed => replace path (ok && closed)
  else .ret false

/-- HORIZON_DLLS_MANIFEST -/
def manifestName : Path := "horizon-dlls/manifest.json".toList

/-- HORIZON_DLLS_CLASSES -/
def classesName : Path := "horizon-dlls/classes.reg".toList

/-- The end of `write_record`; a text is missing if there was no memory for it. -/
def writeRecord (root : Path) (manifest classes : Option Bytes) : Io Bool :=
  match manifest, classes with
  | some manifest, some classes =>
    (writeAtomically root classesName classes).check false (writeAtomically root manifestName manifest)
  | _, _ => .ret false

/-- `horizon_dlls_folders` -/
def folders : List Path :=
  ["drive_c/windows/system32", "drive_c/windows/syswow64", "drive_c/dxvk", "drive_c/dxvk64", "drive_c/vkd3d64",
    "drive_c/physx/Engine/v2.7.1", "drive_c/physx/Engine/v2.7.3", "drive_c/physx/Engine/v2.7.4",
    "drive_c/physx/Engine/v2.7.5", "drive_c/physx/Engine/v2.7.6", "drive_c/physx/Engine/v2.8.0",
    "drive_c/physx/Engine/v2.8.1", "drive_c/physx/Engine/v2.8.3"].map String.toList

/-- A file of a manifest, as far as the card is concerned. -/
structure Listed where
  folder : Fin folders.length
  name : Path
  sha256 : Bytes

def Listed.path (root : Path) (f : Listed) : Path := join root (join (folders.get f.folder) f.name)

/-- `remove_stale` -/
def removeStale (hash : Bytes → Bytes) (root : Path) (f : Listed) : Io Unit :=
  if (f.path root).length < 768 then
    .act (.read (f.path root)) fun ok => .look fun card =>
      if ok && (card (f.path root)).map hash == some f.sha256 then .act (.remove (f.path root)) fun _ => .ret ()
      else .ret ()
  else .ret ()

/-- What `record` does to the card; `stale` are the files it takes away. -/
def record (hash : Bytes → Bytes) (root : Path) (manifest classes : Option Bytes) : List Listed → Io Bool
  | [] => writeRecord root manifest classes
  | f :: stale => (removeStale hash root f).bind fun _ => record hash root manifest classes stale

end Autorun.Dlls
