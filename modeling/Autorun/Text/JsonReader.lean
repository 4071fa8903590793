import Autorun.Lib.Scan

namespace Autorun.Text.Json
open Lib

/-! A parser is given by the bytes from its place to the end of the buffer. What comes of reading is `past`
where a byte behind the end is read, and where a loop does not end. -/

def isSpace (c : Char) : Bool := c = ' ' ∨ c = '\t' ∨ c = '\r' ∨ c = '\n'

def whitespace (text : List Char) : List Char := text.dropWhile isSpace

/-- `strchr`, which also finds the terminator. -/
def strchr (s : List Char) (c : Char) : Bool := c ∈ s ∨ c = '\x00'

/-- `memcmp` with a text, whether it is the same. -/
def memcmp (text s : List Char) : Read Bool :=
  if text.length < s.length then .past else .found (text.take s.length = s)

/-- The loop of `hex4`, for the digits left. -/
def hexLoop : Nat → Nat → List Char → Read Nat
  | 0, v, _ => .found v
  | _ + 1, _, [] => .past
  | left + 1, v, c :: text =>
    match hexValue c with
    | none => .nothing
    | some n => hexLoop left (v * 16 + n) text

def hex4 (text : List Char) : Read Nat := hexLoop 4 0 text

/-- The code of a surrogate pair. -/
def pairCode (code low : Nat) : Nat := 0x10000 + (code - 0xd800) * 1024 + low - 0xdc00

/-- The second half of a surrogate pair: the code of both. -/
def lowHalf (code : Nat) : List Char → Read (Nat × List Char)
  | c :: d :: text =>
    if c ≠ '\\' ∨ d ≠ 'u' then .nothing
    else
      match hex4 text with
      | .past => .past
      | .nothing => .nothing
      | .found low =>
        if low < 0xdc00 ∨ 0xdfff < low then .nothing
        else .found (pairCode code low, text.drop 4)
  | _ => .past

/-- What follows `\u`, as `json_string` and `skip_string` read it: the code and what is behind it. -/
def unicode (text : List Char) : Read (Nat × List Char) :=
  if text.length < 4 then .nothing
  else
    match hex4 text with
    | .past => .past
    | .nothing => .nothing
    | .found code =>
      let text := text.drop 4
      if 0xd800 ≤ code ∧ code ≤ 0xdbff then
        if text.length < 6 then .nothing else lowHalf code text
      else if 0xdc00 ≤ code ∧ code ≤ 0xdfff then .nothing
      else .found (code, text)

/-- The bytes that `emit_utf8` makes of a code. -/
def utf8 (code : Nat) : List Char :=
  (if code ≤ 0x7f then [code]
    else if code ≤ 0x7ff then [0xc0 + code / 64, 0x80 + code % 64]
    else if code ≤ 0xffff then [0xe0 + code / 4096, 0x80 + code / 64 % 64, 0x80 + code % 64]
    else [0xf0 + code / 262144, 0x80 + code / 4096 % 64, 0x80 + code / 64 % 64, 0x80 + code % 64]).map
    Char.ofNat

/-- `emit_utf8` into a buffer of `size` bytes with `used` in it. -/
def emitUtf8 (code size used : Nat) : Option (List Char) :=
  if code = 0 ∨ 0x10ffff < code then none
  else if size ≤ used + (utf8 code).length then none
  else some (utf8 code)

/-- The escapes of one letter. -/
def letters : List (Char × Nat) :=
  [('"', 0x22), ('\\', 0x5c), ('/', 0x2f), ('b', 8), ('f', 12), ('n', 10), ('r', 13), ('t', 9)]

/-- The escape behind a backslash as `json_string` reads it. -/
def escape : List Char → Read (Nat × List Char)
  | [] => .nothing
  | c :: text =>
    match letters.lookup c with
    | some code => .found (code, text)
    | none => if c = 'u' then unicode text else .nothing

/-- The escape behind a backslash as `skip_string` passes it. -/
def skipEscape : List Char → Read (List Char)
  | [] => .nothing
  | c :: text =>
    if strchr ['"', '\\', '/', 'b', 'f', 'n', 'r', 't'] c then .found text
    else if c = 'u' then (unicode text).map Prod.snd
    else .nothing

/-- The loop of `json_string` with `used` bytes in the output: the bytes that follow and what is behind the
string. -/
def stringLoop (size : Nat) : Nat → Nat → List Char → Read (List Char × List Char)
  | 0, _, _ => .past
  | _ + 1, _, [] => .nothing
  | turns + 1, used, c :: text =>
    if c = '"' then .found ([], text)
    else if c.toNat < 0x20 then .nothing
    else if c ≠ '\\' then
      if size ≤ used + 1 then .nothing
      else (stringLoop size turns (used + 1) text).map fun (out, rest) => (c :: out, rest)
    else
      match escape text with
      | .past => .past
      | .nothing => .nothing
      | .found (code, text) =>
        match emitUtf8 code size used with
        | none => .nothing
        | some bytes =>
          (stringLoop size turns (used + bytes.length) text).map fun (out, rest) => (bytes ++ out, rest)

/-- `json_string` into a buffer of `size` bytes: the string without its terminator and what follows it. -/
def jsonString (size : Nat) (text : List Char) : Read (List Char × List Char) :=
  match whitespace text with
  | [] => .nothing
  | c :: text =>
    if size = 0 then .nothing
    else if c ≠ '"' then .nothing
    else stringLoop size (text.length + 1) 0 text

/-- The loop of `skip_string`. -/
def skipLoop : Nat → List Char → Read (List Char)
  | 0, _ => .past
  | _ + 1, [] => .nothing
  | turns + 1, c :: text =>
    if c = '"' then .found text
    else if c.toNat < 0x20 then .nothing
    else if c ≠ '\\' then skipLoop turns text
    else
      match skipEscape text with
      | .past => .past
      | .nothing => .nothing
      | .found text => skipLoop turns text

def skipString (text : List Char) : Read (List Char) :=
  match whitespace text with
  | [] => .nothing
  | c :: text => if c ≠ '"' then .nothing else skipLoop (text.length + 1) text

def consume (c : Char) (text : List Char) : Read (List Char) :=
  match whitespace text with
  | [] => .nothing
  | d :: text => if d ≠ c then .nothing else .found text

/-- The name of a member, up to its value. -/
def skipName (text : List Char) : Read (List Char) :=
  match skipString text with
  | .past => .past
  | .nothing => .nothing
  | .found text => consume ':' text

/-- The loop of `skip_compound`, whose values `value` skips. -/
def compoundLoop (value : List Char → Read (List Char)) (close : Char) :
    Nat → List Char → Read (List Char)
  | 0, _ => .past
  | turns + 1, text =>
    match if close = '}' then skipName text else .found text with
    | .past => .past
    | .nothing => .nothing
    | .found text =>
      match value text with
      | .past => .past
      | .nothing => .nothing
      | .found text =>
        match whitespace text with
        | [] => .nothing
        | c :: text =>
          if c = close then .found text
          else if c ≠ ',' then .nothing
          else compoundLoop value close turns text

def skipCompound (value : List Char → Read (List Char)) (close : Char) (text : List Char) :
    Read (List Char) :=
  let text := whitespace text
  if text.head? = some close then .found text.tail
  else compoundLoop value close (text.length + 1) text

/-- The end of a number: the exponent, if there is one. -/
def exponent : List Char → Bool
  | [] => true
  | c :: token =>
    if c = 'e' ∨ c = 'E' then
      let token := if token.head? = some '+' ∨ token.head? = some '-' then token.tail else token
      match token with
      | [] => false
      | d :: token => d.isDigit && token.dropWhile Char.isDigit = []
    else false

/-- The fraction of a number, if there is one, and its exponent. -/
def fraction : List Char → Bool
  | '.' :: token =>
    match token with
    | [] => false
    | d :: token => d.isDigit && exponent (token.dropWhile Char.isDigit)
  | token => exponent token

/-- Whether `skip_value` takes what it has passed for a number. -/
def number (token : List Char) : Bool :=
  match if token.head? = some '-' then token.tail else token with
  | [] => false
  | c :: token =>
    if c = '0' then fraction token
    else c.isDigit && fraction (token.dropWhile Char.isDigit)

/-- Where `skip_value` takes a number or a word to end. -/
def delimiter (c : Char) : Bool := strchr [' ', '\t', '\r', '\n', ',', ']', '}'] c

/-- The end of `skip_value`: the words and the numbers. -/
def skipToken (text : List Char) : Read (List Char) :=
  let token := text.takeWhile (!delimiter ·)
  let rest := text.dropWhile (!delimiter ·)
  if token = [] then .nothing
  else if token = ['t', 'r', 'u', 'e'] ∨ token = ['n', 'u', 'l', 'l'] then .found rest
  else if token = ['f', 'a', 'l', 's', 'e'] then .found rest
  else if number token then .found rest
  else .nothing

/-- `skip_value` where `left` more levels may be opened. -/
def skipNested (left : Nat) (text : List Char) : Read (List Char) :=
  match whitespace text with
  | [] => .nothing
  | c :: text =>
    if c = '"' then skipString (c :: text)
    else if c = '{' ∨ c = '[' then
      match left with
      | 0 => .nothing
      | left + 1 => skipCompound (skipNested left) (if c = '{' then '}' else ']') text
    else skipToken (c :: text)

def skipValue (depth : Nat) (text : List Char) : Read (List Char) := skipNested (32 - depth) text

def jsonBool (text : List Char) : Read (Bool × List Char) :=
  let text := whitespace text
  let word (s : List Char) : Read Bool := if s.length ≤ text.length then memcmp text s else .found false
  match word ['t', 'r', 'u', 'e'] with
  | .found true => .found (true, text.drop 4)
  | .found false =>
    match word ['f', 'a', 'l', 's', 'e'] with
    | .found true => .found (false, text.drop 5)
    | .found false => .nothing
    | _ => .past
  | _ => .past

def jsonNull (text : List Char) : Read (List Char) :=
  let text := whitespace text
  if text.length < 4 then .nothing
  else
    match memcmp text ['n', 'u', 'l', 'l'] with
    | .found true => .found (text.drop 4)
    | .found false => .nothing
    | _ => .past

/-- The loop of `json_uint`. -/
def uintLoop : Nat → List Char → Option (Nat × List Char)
  | v, [] => some (v, [])
  | v, c :: text =>
    if c.isDigit then
      let n := c.toNat - '0'.toNat
      if (2 ^ 64 - 1 - n) / 10 < v then none else uintLoop (v * 10 + n) text
    else some (v, c :: text)

def jsonUint (text : List Char) : Read (Nat × List Char) :=
  match whitespace text with
  | [] => .nothing
  | c :: text =>
    if !c.isDigit then .nothing
    else if c = '0' ∧ text.head?.any Char.isDigit then .nothing
    else
      match uintLoop 0 (c :: text) with
      | none => .nothing
      | some (v, rest) =>
        if rest.head? = some '.' ∨ rest.head? = some 'e' ∨ rest.head? = some 'E' then .nothing
        else .found (v, rest)

end Autorun.Text.Json
