import Autorun.Lib.Scan

namespace Autorun.Text.Config
open Lib

/-- `WINE_NX_CONFIG_KEYS`. -/
def maxKeys : Nat := 64

/-- `WINE_NX_CONFIG_KEY`. -/
def keySize : Nat := 64

/-- `WINE_NX_CONFIG_VALUE`. -/
def valueSize : Nat := 256

/-- A character of a text is a byte of it. -/
structure Entry where
  key : List Char
  value : List Char
deriving DecidableEq

def isSpace (c : Char) : Bool := c = ' ' ∨ c = '\t' ∨ c = '\r' ∨ c = '\n'

def space (text : List Char) : List Char := text.dropWhile isSpace

/-- The `switch` of `wine_nx_config_string`. -/
def unescape : Char → Char
  | 'n' => '\n'
  | 't' => '\t'
  | 'r' => '\r'
  | 'b' => '\x08'
  | 'f' => '\x0c'
  | c => c

/-- The loop of `wine_nx_config_string`: the characters of the string and what follows it. -/
def stringLoop : List Char → Read (List Char × List Char)
  | [] => .nothing
  -- the terminator is taken for the escaped character and the loop goes on behind it
  | ['\\'] => .past
  | '\\' :: c :: rest => (stringLoop rest).map fun (s, r) => (unescape c :: s, r)
  | c :: rest => if c = '"' then .found ([], rest) else (stringLoop rest).map fun (s, r) => (c :: s, r)

def string : List Char → Read (List Char × List Char)
  | '"' :: rest => stringLoop rest
  | _ => .nothing

/-- The loop of `wine_nx_config_value_end`: what it passes and where it stops. -/
def valueLoop : Nat → List Char → List Char × List Char
  | _, [] => ([], [])
  | depth, c :: rest =>
    let pass (depth : Nat) := (c :: (valueLoop depth rest).1, (valueLoop depth rest).2)
    if c = '[' ∨ c = '{' then pass (depth + 1)
    else if c = ']' ∨ c = '}' then
      if depth = 0 then ([], c :: rest) else pass (depth - 1)
    else if c = ',' ∧ depth = 0 then ([], c :: rest)
    else pass depth

/-- `wine_nx_config_value_end`: the text of a value and what follows it. -/
def valueEnd (text : List Char) : Read (List Char × List Char) :=
  if text.head? = some '"' then
    match string text with
    | .found (_, rest) => .found (text.take (text.length - rest.length), rest)
    | .nothing => .nothing
    | .past => .past
  else .found (valueLoop 0 text)

/-- The entry of a key and the text read for its value, the key in a buffer of `size` characters. -/
def entryOf (size : Nat) (key : List Char) : Read (List Char × List Char) → Read (Entry × List Char)
  | .past => .past
  | .nothing => .nothing
  | .found (text, rest) =>
    let value := text.rdropWhile isSpace
    if text = [] ∨ valueSize ≤ value.length then .nothing
    else .found (⟨key.take (size - 1), value⟩, rest)

/-- The entry that one turn of `wine_nx_config_parse` reads and what follows it. -/
def entry (size : Nat) (text : List Char) : Read (Entry × List Char) :=
  match string text with
  | .past => .past
  | .nothing => .nothing
  | .found (key, rest) =>
    match space rest with
    | ':' :: rest => entryOf size key (valueEnd (space rest))
    | _ => .nothing

/-- Whether a text was an object and the entries read from it; `none` where bytes behind the
terminator are read. -/
abbrev Result := Option (Bool × List Entry)

def Result.cons (e : Entry) (r : Result) : Result := r.map fun (ok, es) => (ok, e :: es)

/-- The loop of `wine_nx_config_parse`, with room for `left` more entries. -/
def entries (size : Nat) (left : Nat) (text : List Char) : Result :=
  if (space text).head? = some '}' then some (true, [])
  else
    match left with
    | 0 => some (false, [])
    | left + 1 =>
      match entry size (space text) with
      | .past => none
      | .nothing => some (false, [])
      | .found (e, rest) =>
        match space rest with
        | ',' :: rest => (entries size left rest).cons e
        | '}' :: _ => some (true, [e])
        | _ => some (false, [e])

/-- `wine_nx_config_parse`. -/
def parse (text : List Char) : Result :=
  match space text with
  | '{' :: rest => entries keySize maxKeys rest
  | _ => some (false, [])

/-- One line of `wine_nx_config_write`. -/
def line (e : Entry) (comma : Bool) : List Char :=
  [' ', ' ', '"'] ++ e.key ++ ['"', ':', ' '] ++ e.value ++ (if comma then [','] else []) ++ ['\n']

/-- The loop of `wine_nx_config_write`, a text for each of its calls. -/
def lines : List Entry → List (List Char)
  | [] => []
  | e :: es => line e (!es.isEmpty) :: lines es

/-- What `wine_nx_config_write` hands to the file, a text for each call. -/
def pieces (es : List Entry) : List (List Char) := ['{', '\n'] :: (lines es ++ [['}', '\n']])

def write (es : List Entry) : List Char := (pieces es).flatten

/-- The characters that `wine_nx_config_load` reads of a file. -/
def loadSize : Nat := maxKeys * (keySize + valueSize) + 64 - 1

/-- `wine_nx_config_load` on the contents of the file, if there is one. -/
def load : Option (List Char) → Result
  | none => some (false, [])
  | some text => parse ((text.take loadSize).takeWhile (· ≠ '\x00'))

end Autorun.Text.Config
