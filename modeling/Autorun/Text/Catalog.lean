import Autorun.Lib.Scan

namespace Autorun.Text.Launcher
open Lib

/-- `LAUNCHER_CATALOG_VERSION`. -/
def currentVersion : Nat := 3

def maxEntries : Nat := 256

def uintMax : Nat := 2 ^ 32 - 1

def wrap (n : Nat) : Nat := n % 2 ^ 32

/-- The sizes of the character fields of an entry, and of the line buffer. -/
def pathSize : Nat := 512
def titleSize : Nat := 128
def artSize : Nat := 512
def lineSize : Nat := 1200

/-- `struct launcher_catalog_entry`. -/
structure Entry where
  id : Nat
  addedOrder : Nat
  launchedOrder : Nat
  favorite : Int
  path : List Char
  title : List Char
  squareArt : List Char
  portraitArt : List Char
  heroArt : List Char
deriving DecidableEq

/-- `struct launcher_catalog`. -/
structure Catalog where
  entries : List Entry
  nextId : Nat
  nextOrder : Nat
deriving DecidableEq

def init : Catalog := ⟨[], 1, 1⟩

def startBlank (c : Char) : Bool := c = ' ' ∨ c = '\t'

def endBlank (c : Char) : Bool := c = ' ' ∨ c = '\t' ∨ c = '\r' ∨ c = '\n'

def trim (text : List Char) : List Char := (text.dropWhile startBlank).rdropWhile endBlank

/-- What `copy_value` refuses to store. -/
def refused (c : Char) : Bool := c = '\x00' ∨ c = '\r' ∨ c = '\n'

/-- `copy_value`, with room for `room` characters beside the terminator. It is given the memory from
the value on and is `past` where that memory ends. -/
def copyLoop : Nat → List Char → Read (List Char)
  | _, [] => .past
  | room, c :: mem =>
    let store (c : Char) (mem : List Char) : Read (List Char) :=
      match room with
      | 0 => .nothing
      | room + 1 => if refused c then .nothing else (copyLoop room mem).map (c :: ·)
    if c = '\x00' then .found []
    else if c = '%' then
      match scanHexByte (cstr mem) with
      | none => .nothing
      | some v => store (Char.ofNat v) (mem.drop 2)
    else store c mem

def copyValue (size : Nat) (mem : List Char) : Read (List Char) := copyLoop (size - 1) mem

/-- `strcasecmp` finds no difference. -/
def SameName (a b : List Char) : Prop := a.map Char.toLower = b.map Char.toLower

instance (a b : List Char) : Decidable (SameName a b) := inferInstanceAs (Decidable (_ = _))

def find (catalog : Catalog) (path : List Char) : Option Nat :=
  catalog.entries.findIdx? (SameName ·.path path)

/-- `launcher_catalog_add`: the index of the program, if it has a place. -/
def add (catalog : Catalog) (path title : List Char) : Catalog × Option Nat :=
  match find catalog path with
  | some i => (catalog, some i)
  | none =>
    if path = [] ∨ '\r' ∈ path ∨ '\n' ∈ path ∨ pathSize ≤ path.length ∨
        maxEntries ≤ catalog.entries.length then (catalog, none)
    else
      let entry : Entry :=
        { id := catalog.nextId, addedOrder := catalog.nextOrder, launchedOrder := 0, favorite := 0,
          path := path, title := title.take (titleSize - 1), squareArt := [], portraitArt := [],
          heroArt := [] }
      (⟨catalog.entries ++ [entry], wrap (catalog.nextId + 1), wrap (catalog.nextOrder + 1)⟩,
        some catalog.entries.length)

def remove (catalog : Catalog) (index : Nat) : Catalog :=
  { catalog with entries := catalog.entries.eraseIdx index }

/-- What changes a library that is loaded. -/
inductive Op where
  | add (path title : List Char)
  | remove (index : Nat)
deriving DecidableEq

def Catalog.step (catalog : Catalog) : Op → Catalog
  | .add path title => (Launcher.add catalog path title).1
  | .remove index => Launcher.remove catalog index

/-! What the loader makes of a file. -/

/-- A line of the library as the loader takes it apart. -/
inductive Line where
  | skip
  | game (id : Nat)
  | pair (key value : List Char)
  | bad
deriving DecidableEq

/-- `sscanf( line, "[game %u]%c", &n, &tail ) == 1`: what stands behind the number is looked at only
if it is a bracket. -/
def scanGame (line : List Char) : Option Nat :=
  if "[game".toList <+: line then
    match scanUnsigned ((line.drop 5).dropWhile isspace) with
    | none => none
    | some (n, rest) => if rest.head? = some ']' ∧ rest.length ≠ 1 then none else some n
  else none

/-- The lines that `fgets` gives, each with whether the end of the file was met. -/
def chunks : Nat → List Char → List (List Char × Bool)
  | 0, _ => []
  | fuel + 1, file =>
    let (line, rest, eof) := fgets (lineSize - 1) file
    if line = [] then [] else (line, eof) :: chunks fuel rest

/-- What a line is, once it has been trimmed. -/
def takeApart (line : List Char) : Line :=
  match line.head? with
  | none => .skip
  | some '#' => .skip
  | some ';' => .skip
  | some '[' =>
    match scanGame line with
    | none => .bad
    | some n => .game n
  | some _ =>
    if '=' ∈ line then
      .pair (trim (line.takeWhile (· ≠ '='))) (trim ((line.dropWhile (· ≠ '=')).drop 1))
    else .bad

/-- A line as `fgets` leaves it in the buffer. -/
def readLine (chunk : List Char × Bool) : Line :=
  let line := cstr chunk.1
  if '\n' ∉ line ∧ ¬ chunk.2 then .bad else takeApart (trim line)

def readLines (file : List Char) : List Line := (chunks (file.length + 1) file).map readLine

/-- The loader between two lines: the entries before the current one, the current one, and the rest
of `parsed`. -/
structure Loader where
  done : List Entry
  current : Option Entry
  nextId : Nat
  version : Nat
deriving DecidableEq

def Loader.entries (l : Loader) : List Entry := l.done ++ l.current.toList

def Loader.start : Loader := ⟨[], none, 1, 0⟩

/-- The fields that hold text, by the key of their line; `landscape-art` is an older name. -/
inductive Field where
  | path
  | title
  | squareArt
  | portraitArt
  | heroArt
deriving DecidableEq

def Field.size : Field → Nat
  | .path => pathSize
  | .title => titleSize
  | _ => artSize

def Field.key : Field → List Char
  | .path => "path".toList
  | .title => "title".toList
  | .squareArt => "square-art".toList
  | .portraitArt => "portrait-art".toList
  | .heroArt => "hero-art".toList

def fieldOf (key : List Char) : Option Field :=
  if key = "path".toList then some .path
  else if key = "title".toList then some .title
  else if key = "square-art".toList then some .squareArt
  else if key = "portrait-art".toList ∨ key = "landscape-art".toList then some .portraitArt
  else if key = "hero-art".toList then some .heroArt
  else none

def Entry.set (e : Entry) (text : List Char) : Field → Entry
  | .path => { e with path := text }
  | .title => { e with title := text }
  | .squareArt => { e with squareArt := text }
  | .portraitArt => { e with portraitArt := text }
  | .heroArt => { e with heroArt := text }

def Entry.get (e : Entry) : Field → List Char
  | .path => e.path
  | .title => e.title
  | .squareArt => e.squareArt
  | .portraitArt => e.portraitArt
  | .heroArt => e.heroArt

/-- A line with a key within an entry. The line buffer holds `behind` behind the terminator of the
value. -/
def setPair (e : Entry) (behind key value : List Char) : Option Entry :=
  match fieldOf key with
  | some f =>
    match copyValue f.size (value ++ '\x00' :: behind) with
    | .found text => some (e.set text f)
    | _ => none
  | none =>
    if key = "favorite".toList then some { e with favorite := if atoi value = 1 then 1 else 0 }
    else if key = "added-order".toList then some { e with addedOrder := wrap (strtoul value) }
    else if key = "launched-order".toList then some { e with launchedOrder := wrap (strtoul value) }
    else some e

/-- One turn of the loop of `launcher_catalog_load`; a file that is found invalid stays so. -/
def Loader.step (l : Loader) (behind : List Char) : Line → Option Loader
  | .skip => some l
  | .bad => none
  | .game n =>
    if n = 0 ∨ maxEntries ≤ l.entries.length then none
    else
      some { l with
        done := l.entries
        current := some ⟨n, 0, 0, 0, [], [], [], [], []⟩
        nextId := if l.nextId ≤ n then wrap (n + 1) else l.nextId }
  | .pair key value =>
    match l.current with
    | none =>
      if key = "version".toList then some { l with version := atoi value }
      else if key = "next-id".toList then
        match strtoulAll value with
        | none => none
        | some id => if id = 0 ∨ uintMax ≤ id then none else some { l with nextId := id }
      else none
    | some e => (setPair e behind key value).map fun e => { l with current := some e }

/-- The loop over the lines, each with what the line buffer holds behind its value. -/
def Loader.run (l : Loader) (behind : Nat → List Char) : Nat → List Line → Option Loader
  | _, [] => some l
  | i, line :: lines => (l.step (behind i) line).bind (·.run behind (i + 1) lines)

/-- The order of an entry that has none, and the next order after the entry. -/
def settleOrder (e : Entry) (order : Nat) : Entry × Nat :=
  let (e, order) :=
    if e.addedOrder = 0 then ({ e with addedOrder := order }, wrap (order + 1)) else (e, order)
  let order := if order ≤ e.addedOrder then wrap (e.addedOrder + 1) else order
  let order := if order ≤ e.launchedOrder then wrap (e.launchedOrder + 1) else order
  (e, order)

/-- The last loop of `launcher_catalog_load`, with the entries already looked at. -/
def settle : List Entry → Nat → List Entry → Option (List Entry × Nat)
  | _, order, [] => some ([], order)
  | seen, order, e :: es =>
    if e.path = [] ∨ ∃ d ∈ seen, d.id = e.id ∨ SameName d.path e.path then none
    else
      let (e, order) := settleOrder e order
      (settle (seen ++ [e]) order es).map fun (es, order) => (e :: es, order)

/-- `launcher_catalog_load` on the contents of a file; `none` is `LAUNCHER_CATALOG_INVALID`. -/
def load (behind : Nat → List Char) (file : List Char) : Option Catalog :=
  match Loader.start.run behind 0 (readLines file) with
  | none => none
  | some l =>
    if l.version ≠ 2 ∧ l.version ≠ currentVersion then none
    else (settle [] init.nextOrder l.entries).map fun (es, order) => ⟨es, l.nextId, order⟩

/-! What is written to a file. -/

def decimal (n : Nat) : List Char := Nat.toDigits 10 n

/-- `%d`. -/
def decimalInt (n : Int) : List Char := if n < 0 then '-' :: decimal n.natAbs else decimal n.natAbs

def encodeChar : Char → List Char
  | '%' => ['%', '2', '5']
  | '\r' => ['%', '0', 'D']
  | '\n' => ['%', '0', 'A']
  | '=' => ['%', '3', 'D']
  | '[' => ['%', '5', 'B']
  | ']' => ['%', '5', 'D']
  | c => [c]

def encode (value : List Char) : List Char := value.flatMap encodeChar

def pairLine (key value : List Char) : List Char := key ++ '=' :: value

/-- `write_value`, without the end of the line. -/
def valueLine (key value : List Char) : List Char := pairLine key (encode value)

def artLines (f : Field) (e : Entry) : List (List Char) :=
  if e.get f = [] then [] else [valueLine f.key (e.get f)]

/-- The lines of an entry. -/
def entryLines (e : Entry) : List (List Char) :=
  [[], "[game ".toList ++ decimal e.id ++ [']'], valueLine Field.path.key e.path,
    valueLine Field.title.key e.title, pairLine "added-order".toList (decimal e.addedOrder),
    pairLine "launched-order".toList (decimal e.launchedOrder),
    pairLine "favorite".toList (decimalInt e.favorite)] ++
  artLines .squareArt e ++ artLines .portraitArt e ++ artLines .heroArt e

def savedLines (catalog : Catalog) : List (List Char) :=
  [pairLine "version".toList (decimal currentVersion),
    pairLine "next-id".toList (decimal catalog.nextId)] ++
  catalog.entries.flatMap entryLines

/-- The text that `launcher_catalog_save` writes. -/
def save (catalog : Catalog) : List Char := (savedLines catalog).flatMap (· ++ ['\n'])

end Autorun.Text.Launcher
