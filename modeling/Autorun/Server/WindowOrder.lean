import Mathlib.Data.List.Basic

namespace Autorun.Server.WindowOrder

/-- What the order of the windows reads of `struct horizon_user_window`; `topmost` is
`ex_style & HORIZON_WS_EX_TOPMOST`. -/
structure Window where
  handle : Nat
  parent : Nat
  owner : Nat
  topmost : Bool
deriving DecidableEq

def linkTop : Nat := 0

def linkBottom : Nat := 1

def linkTopmost : Nat := 0xffffffff

def linkNotopmost : Nat := 0xfffffffe

/-- `horizon_server_find_window_locked`. -/
def findWindow (windows : List Window) (handle : Nat) : Option Window :=
  windows.find? (·.handle = handle)

/-- The loop that takes the window out of the list. -/
def unlink (windows : List Window) (window : Window) : List Window :=
  windows.eraseP (·.handle = window.handle)

/-- The list from behind a window on. -/
def behind : List Window → Nat → List Window
  | [], _ => []
  | w :: ws, handle => if w.handle = handle then ws else behind ws handle

/-- A window is put behind another. -/
def insertBehind : List Window → Nat → Window → List Window
  | [], _, _ => []
  | w :: ws, handle, window =>
    if w.handle = handle then w :: window :: ws else w :: insertBehind ws handle window

/-- The window below a sibling: topmost if the siblings on both sides are, not topmost below one
that is not. -/
def linkBelow (windows : List Window) (window after : Window) : List Window :=
  let topmost :=
    if after.topmost = false then false
    else
      match (behind windows after.handle).find? (·.parent = window.parent) with
      | some sibling => if sibling.topmost then true else window.topmost
      | none => window.topmost
  insertBehind windows after.handle { window with topmost }

/-- Where the last loop has come to: the place it goes before, the last sibling so far, and whether
the window is topmost. -/
structure Place where
  before : Option Nat := none
  after : Option Nat := none
  topmost : Bool

/-- The last loop, over the windows left. -/
def findPlace (window : Window) (previous : Nat) : List Window → Nat → Place → Place
  | [], _, p => p
  | sibling :: rest, i, p =>
    if sibling.parent ≠ window.parent then findPlace window previous rest (i + 1) p
    else
      let p := { p with after := some i }
      if p.before.isSome ∨ previous = linkBottom then findPlace window previous rest (i + 1) p
      else if p.topmost ∨ sibling.topmost = false then
        findPlace window previous rest (i + 1) { p with before := some i }
      else if sibling.handle = window.owner then
        findPlace window previous rest (i + 1) { p with topmost := true, before := some i }
      else findPlace window previous rest (i + 1) p

/-- The window at an index, the rest behind it. -/
def insertAt (windows : List Window) (i : Nat) (window : Window) : List Window :=
  windows.take i ++ window :: windows.drop i

/-- The window at the place of its group that the last loop finds. -/
def linkGroup (windows : List Window) (window : Window) (previous : Nat) : List Window :=
  let topmost :=
    if previous = linkBottom then false else if previous = linkTopmost then true else window.topmost
  let p := findPlace window previous windows 0 { topmost }
  let window := { window with topmost := p.topmost }
  match p.before, p.after with
  | some i, _ => insertAt windows i window
  | none, some i => insertAt windows (i + 1) window
  | none, none => window :: windows

/-- The window is taken out of the list and put where `previous` says. The caller has seen to it
that another `previous` is a sibling's handle. -/
def relink (windows : List Window) (window : Window) (previous : Nat) : List Window :=
  let rest := unlink windows window
  if previous ≠ linkTop ∧ previous ≠ linkBottom ∧ previous ≠ linkTopmost then
    match findWindow rest previous with
    | some after => linkBelow rest window after
    | none => rest
  else linkGroup rest window previous

/-- `horizon_server_link_window_locked`. -/
def linkWindow (windows : List Window) (window : Window) (previous : Nat) : List Window :=
  if previous = linkNotopmost then
    if window.topmost = false then windows
    else relink windows { window with topmost := false } linkTop
  else relink windows window previous

/-- `struct horizon_rectangle`. -/
structure Rectangle where
  left : Int
  top : Int
  right : Int
  bottom : Int

/-- What `struct horizon_set_window_pos_request` says up to the place in the order. -/
structure PosRequest where
  handle : BitVec 32
  previous : BitVec 32
  swpFlags : BitVec 32
  window : Rectangle

/-- `HORIZON_STATUS_INVALID_HANDLE` and `HORIZON_STATUS_INVALID_PARAMETER`. -/
inductive PosError where
  | invalidHandle
  | invalidParameter
deriving DecidableEq

def swpNoZOrder : BitVec 32 := 0x0004

/-- What `horizon_server_handle_set_window_pos` comes to: an error, the call of
`horizon_server_link_window_locked`, or no change of the order. -/
inductive PosOutcome where
  | error (status : PosError)
  | links (window : Window) (previous : Nat)
  | stays (window : Window)
deriving DecidableEq

/-- Whether the request asks for another place in the order of a window that has a parent. -/
def PosRequest.moves (r : PosRequest) (window : Window) : Prop :=
  r.swpFlags &&& swpNoZOrder = 0 ∧ window.parent ≠ 0 ∧ r.previous.toNat ≠ window.handle

instance (r : PosRequest) (window : Window) : Decidable (r.moves window) :=
  inferInstanceAs (Decidable (_ ∧ _ ∧ _))

/-- The check that a window is placed after a sibling, which is made where `previous` is above 1 as
an `int`. -/
def checkSibling (windows : List Window) (window : Window) (r : PosRequest) : Option PosError :=
  if r.moves window ∧ 1 < r.previous.toInt then
    match findWindow windows r.previous.toNat with
    | none => some .invalidHandle
    | some previous => if previous.parent ≠ window.parent then some .invalidParameter else none
  else none

/-- `horizon_server_handle_set_window_pos`, up to the new rectangles. -/
def setWindowPos (windows : List Window) (r : PosRequest) : PosOutcome :=
  match findWindow windows r.handle.toNat with
  | none => .error .invalidHandle
  | some window =>
    match checkSibling windows window r with
    | some status => .error status
    | none =>
      if r.window.right < r.window.left ∨ r.window.bottom < r.window.top then .error .invalidParameter
      else if r.moves window then .links window r.previous.toNat
      else .stays window

end Autorun.Server.WindowOrder
