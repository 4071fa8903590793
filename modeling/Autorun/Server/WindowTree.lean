import Mathlib.Logic.Function.Basic
import Autorun.Server.WindowOrder

namespace Autorun.Server.WindowTree

open WindowOrder

/-- What the allocation of handles reads of `struct horizon_user_entry`. -/
structure UserEntry where
  type : UInt16 := 0
  generation : UInt16 := 0

/-- `desktop_top_window` and `desktop_msg_window`. -/
structure Desktop where
  topWindow : Nat := 0
  msgWindow : Nat := 0

structure Session where
  entries : Nat → UserEntry := fun _ => {}
  handleCount : Nat := 0
  desktops : Nat → Desktop := fun _ => {}
  windows : List Window := []

/-- `HORIZON_STATUS_*`; `failed` is what a call below came back with. -/
inductive Status where
  | success
  | accessDenied
  | invalidHandle
  | invalidParameter
  | noMemory
  | failed
deriving DecidableEq

def firstUserHandle : Nat := 0x0020

def maxUserHandles : Nat := (0xffef - firstUserHandle + 1) / 2

/-- The index the search for a free entry stops at. -/
def freeIndex (s : Session) : Nat :=
  ((List.range s.handleCount).find? fun i => (s.entries i).type = 0).getD s.handleCount

def nextGeneration (generation : UInt16) : UInt16 :=
  if generation + 1 = 0 ∨ generation + 1 = 0xffff then 1 else generation + 1

def userHandle (index : Nat) (generation : UInt16) : Nat :=
  index * 2 + firstUserHandle + generation.toNat * 0x10000

/-- `horizon_server_alloc_user_handle_locked`. -/
def allocUserHandle (s : Session) (type : UInt16) (ready flushed : Bool) : Status × Nat × Session :=
  let index := freeIndex s
  if ready = false then (.failed, 0, s)
  else if index = maxUserHandles then (.noMemory, 0, s)
  else
    let generation := nextGeneration (s.entries index).generation
    (if flushed then .success else .failed, userHandle index generation,
      { s with
        handleCount := if index = s.handleCount then s.handleCount + 1 else s.handleCount
        entries := Function.update s.entries index { type, generation } })

def freeUserHandle (s : Session) (type : UInt16) (handle : Nat) (flushed : Bool) : Status × Session :=
  let low := handle % 0x10000
  let index :=
    if firstUserHandle ≤ low ∧ (low - firstUserHandle) % 2 = 0 then (low - firstUserHandle) / 2
    else maxUserHandles
  let entry := s.entries index
  if s.handleCount ≤ index ∨ entry.type ≠ type ∨ entry.generation.toNat ≠ handle / 0x10000 then
    (.invalidHandle, s)
  else
    (if flushed then .success else .failed,
      { s with entries := Function.update s.entries index { entry with type := 0 } })

/-- What `horizon_server_is_desktop_class` and `horizon_server_is_message_class` tell apart. -/
inductive ClassKind where
  | desktop
  | message
  | other
deriving DecidableEq

/-- A request for a window; where the thread has no desktop, or no such class is found, the status. -/
structure CreateRequest where
  desktop : Except Status Nat
  kind : Except Status ClassKind
  parent : Nat
  owner : Nat
  topmost : Bool

/-- What the calls of `horizon_server_create_window_locked` answer. -/
structure Answers where
  shared : Bool
  memory : Bool
  ready : Bool
  entryFlushed : Bool
  flushed : Bool

/-- The handle of the parent a new window gets, 0 for none. -/
def parentFor (s : Session) (desktop : Desktop) (kind : ClassKind) (parent : Nat) : Except Status Nat :=
  let handle :=
    if parent ≠ 0 then parent
    else if kind = .message ∧ desktop.msgWindow = 0 then 0
    else desktop.topWindow
  if handle = 0 then if kind = .other then .error .accessDenied else .ok 0
  else if (findWindow s.windows handle).isNone then .error .invalidHandle
  else .ok handle

def objWindow : UInt16 := 1

/-- `horizon_server_create_window_locked`, up to the shared data of the window. -/
def createWindow (s : Session) (r : CreateRequest) (a : Answers) : Except Status Nat × Session :=
  match (do
    let desktop ← r.desktop
    let kind ← r.kind
    let parent ← parentFor s (s.desktops desktop) kind r.parent
    pure (desktop, kind, parent) : Except Status (Nat × ClassKind × Nat)) with
  | .error status => (.error status, s)
  | .ok (desktop, kind, parent) =>
    if a.shared = false then (.error .failed, s)
    else if a.memory = false then (.error .noMemory, s)
    else
      match allocUserHandle s objWindow a.ready a.entryFlushed with
      | (.success, handle, s) =>
        if a.flushed = false then (.error .failed, s)
        else
          let d := s.desktops desktop
          let d :=
            if parent ≠ 0 then d
            else if kind = .desktop then { d with topWindow := handle }
            else { d with msgWindow := handle }
          (.ok handle,
            { s with
              windows := { handle, parent, owner := r.owner, topmost := r.topmost } :: s.windows
              desktops := Function.update s.desktops desktop d })
      | (status, _, s) => (.error status, s)

/-- `ptr->parent ? horizon_server_find_window_locked( ptr->parent ) : NULL`. -/
def above (windows : List Window) (ptr : Window) : Option Window :=
  if ptr.parent ≠ 0 then findWindow windows ptr.parent else none

/-- Whether the loop up from a window meets another; `none` if it goes on for more turns. Both are the
first of the list under their handles, so the comparison of the pointers is one of the handles. -/
def meets (windows : List Window) (window : Window) : (turns : Nat) → (ptr : Window) → Option Bool
  | 0, _ => none
  | turns + 1, ptr =>
    if ptr.handle = window.handle then some true
    else
      match above windows ptr with
      | some ptr => meets windows window turns ptr
      | none => some false

def setParentLocked (turns : Nat) (windows : List Window) (window parent : Window) :
    Option (Status × List Window) :=
  if window.parent = 0 then some (.invalidParameter, windows)
  else
    (meets windows window turns parent).map fun met =>
      if met then (.invalidParameter, windows)
      else (.success, linkWindow windows { window with parent := parent.handle } linkTop)

def setParent (turns : Nat) (s : Session) (handle parent : Nat) : Option (Status × Session) :=
  match findWindow s.windows handle, findWindow s.windows parent with
  | some window, some parent =>
    (setParentLocked turns s.windows window parent).map fun (status, windows) => (status, { s with windows })
  | _, _ => some (.invalidHandle, s)

/-- `horizon_server_handle_destroy_window`; without a handle the windows of the thread go, which are
any. -/
def destroyWindow (s : Session) (handle : Nat) (ofThread : Window → Bool) : Status × Session :=
  if handle ≠ 0 then
    (if (findWindow s.windows handle).isSome then .success else .invalidHandle,
      { s with windows := s.windows.eraseP (·.handle = handle) })
  else (.success, { s with windows := s.windows.filter fun w => !ofThread w })

/-- `horizon_server_window_parents_locked`: all parents, of which the caller takes the first
`max_count`. -/
def windowParents (windows : List Window) : (turns : Nat) → (window : Window) → Option (List Nat)
  | 0, _ => none
  | turns + 1, window =>
    if window.parent = 0 then some []
    else
      match findWindow windows window.parent with
      | none => some [window.parent]
      | some parent => (windowParents windows turns parent).map (window.parent :: ·)

/-- The fields of a window that the searches by place read. -/
structure Geometry where
  windowRect : Window → Rectangle
  clientRect : Window → Rectangle
  /-- Neither `HORIZON_WS_MINIMIZE` nor `HORIZON_WS_DISABLED`. -/
  enabled : Window → Bool
  visible : Window → Bool

def offsetRect (r : Rectangle) (x y : Int) : Rectangle :=
  ⟨r.left + x, r.top + y, r.right + x, r.bottom + y⟩

def pointInRect (r : Rectangle) (x y : Int) : Bool :=
  x ≥ r.left && x < r.right && y ≥ r.top && y < r.bottom

/-- The loop of `horizon_server_window_screen_rects_locked`. -/
def screenRects (g : Geometry) (windows : List Window) :
    (turns : Nat) → (window : Window) → Rectangle × Rectangle → Option (Rectangle × Rectangle)
  | 0, _, _ => none
  | turns + 1, window, rects =>
    match above windows window with
    | none => some rects
    | some parent =>
      let client := g.clientRect parent
      screenRects g windows turns parent
        (offsetRect rects.1 client.left client.top, offsetRect rects.2 client.left client.top)

/-- `horizon_server_collect_windows_from_point_locked`: the handles it finds, of which the caller
takes the first `max_handles`. -/
def windowsFromPoint (g : Geometry) (windows : List Window) (x y : Int) :
    (turns : Nat) → (window : Window) → List Nat → Option (List Nat)
  | 0, _, _ => none
  | turns + 1, window, handles => do
    let rects ← screenRects g windows (turns + 1) window (g.windowRect window, g.clientRect window)
    if pointInRect rects.1 x y = false then return handles
    let handles ←
      if g.enabled window && pointInRect rects.2 x y then
        windows.foldlM (fun handles child =>
          if child.parent ≠ window.handle ∨ g.visible child = false then some handles
          else windowsFromPoint g windows x y turns child handles) handles
      else some handles
    return handles ++ [window.handle]

/-- The requests that change windows or their handles. -/
inductive Op where
  | alloc (type : UInt16) (ready flushed : Bool)
  | free (type : UInt16) (handle : Nat) (flushed : Bool)
  | create (request : CreateRequest) (answers : Answers)
  | setParent (handle parent : Nat)
  | destroy (handle : Nat) (ofThread : Window → Bool)

/-- One request; `none` if a loop goes on for more turns. -/
def step (turns : Nat) (s : Session) : Op → Option Session
  | .alloc type ready flushed => some (allocUserHandle s type ready flushed).2.2
  | .free type handle flushed => some (freeUserHandle s type handle flushed).2
  | .create request answers => some (createWindow s request answers).2
  | .setParent handle parent => (setParent turns s handle parent).map (·.2)
  | .destroy handle ofThread => some (destroyWindow s handle ofThread).2

/-- What requests lead to, each made in a state that allows it. -/
inductive Reached (ok : Session → Op → Prop) : Session → Prop where
  | start : Reached ok {}
  | step (turns : Nat) (op : Op) : Reached ok s → ok s op → step turns s op = some s' → Reached ok s'

end Autorun.Server.WindowTree
