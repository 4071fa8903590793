import Autorun.Text.Config
import Autorun.Lib.Run

namespace Autorun.Text.Config

/-- The settings file and the temporary file beside it, where they exist. -/
structure Card where
  file : Option (List Char)
  temp : Option (List Char)
deriving DecidableEq

/-- The call of `wine_nx_config_save` that is made next. -/
inductive Stage where
  | opening
  | writing (piece : List Char) (left : List (List Char))
  | closing (ok : Bool)
  | removing
  | renaming
  | cleaning
  | done (ok : Bool)
deriving DecidableEq

/-- How a call to the file system ends. One that fails to write has written its first `part`
characters. -/
structure Call where
  works : Bool
  part : Nat
deriving DecidableEq

structure Save where
  card : Card
  stage : Stage
deriving DecidableEq

/-- The size of the buffer for the temporary file's name. -/
def tempSize : Nat := 768

def suffix : List Char := ['.', 'n', 'e', 'w']

/-- The start of `wine_nx_config_save`. -/
def Save.start (path : List Char) (card : Card) : Save :=
  if tempSize ≤ (path ++ suffix).length then ⟨card, .done false⟩ else ⟨card, .opening⟩

/-- What is called after a text has been written. -/
def Stage.next : List (List Char) → Stage
  | [] => .closing true
  | piece :: left => .writing piece left

def Card.append (card : Card) (text : List Char) : Card := { card with temp := card.temp.map (· ++ text) }

/-- `wine_nx_config_save`, one call at a time. -/
def Save.step (es : List Entry) (s : Save) (c : Call) : Save :=
  match s.stage with
  | .opening =>
    if c.works then ⟨{ s.card with temp := some [] }, .next (pieces es)⟩ else ⟨s.card, .done false⟩
  | .writing piece left =>
    if c.works then ⟨s.card.append piece, .next left⟩
    else ⟨s.card.append (piece.take c.part), .closing false⟩
  | .closing ok => ⟨s.card, if c.works ∧ ok then .removing else .cleaning⟩
  | .removing => ⟨if c.works then { s.card with file := none } else s.card, .renaming⟩
  | .renaming =>
    -- FAT does not rename over an existing file
    if c.works ∧ s.card.file = none then ⟨⟨s.card.temp, none⟩, .done true⟩ else ⟨s.card, .cleaning⟩
  | .cleaning => ⟨if c.works then { s.card with temp := none } else s.card, .done false⟩
  | .done _ => s

/-- What is on the card when the program stops after the calls `cs`. -/
def stopped (es : List Entry) (path : List Char) (card : Card) (cs : List Call) : Card :=
  (Lib.run (Save.step es) (.start path card) cs).card

/-- The settings load as before the save or as the ones saved. -/
def Intact (es : List Entry) (before after : Card) : Prop :=
  load after.file = load before.file ∨ load after.file = some (true, es)

/-- The calls up to and with the one that closes the temporary file. -/
def toWrite (es : List Entry) : Nat := es.length + 4

/-- The temporary file is opened, written in full and closed. -/
def Written (es : List Entry) (path : List Char) (cs : List Call) : Prop :=
  (path ++ suffix).length < tempSize ∧ toWrite es ≤ cs.length ∧ ∀ c ∈ cs.take (toWrite es), c.works

/-- The `i`-th call is made and works. -/
def Works (cs : List Call) (i : Nat) : Prop := ∃ c, cs[i]? = some c ∧ c.works

/-- The settings file is removed. -/
def Removed (es : List Entry) (path : List Char) (cs : List Call) : Prop :=
  Written es path cs ∧ Works cs (toWrite es)

/-- The temporary file gets the settings file's name. -/
def Renamed (es : List Entry) (path : List Char) (card : Card) (cs : List Call) : Prop :=
  Written es path cs ∧ (card.file = none ∨ Works cs (toWrite es)) ∧ Works cs (toWrite es + 1)

instance (es : List Entry) (before after : Card) : Decidable (Intact es before after) :=
  inferInstanceAs (Decidable (_ ∨ _))

end Autorun.Text.Config
