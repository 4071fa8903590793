import Mathlib.Data.List.Infix

namespace Autorun.Server.DirMask

def asciiLower (ch : UInt8) : UInt8 := if 65 ≤ ch ∧ ch ≤ 90 then ch + 97 - 65 else ch

/-- `*` and `<`. -/
def isRun (ch : UInt8) : Bool := ch = 42 ∨ ch = 60

/-- `?`, `>` and `"`. -/
def isOne (ch : UInt8) : Bool := ch = 63 ∨ ch = 62 ∨ ch = 34

/-- Both strings come without their terminators; the loop over a star's end positions is `tails`. -/
def wildcardMatchTail : List UInt8 → List UInt8 → Bool
  | [], name => name.isEmpty
  | ch :: mask, name =>
    if isRun ch then
      match mask with
      | [] => true
      | next :: _ =>
        if isRun next then wildcardMatchTail mask name else name.tails.any (wildcardMatchTail mask)
    else
      match name with
      -- A byte of the mask is never the terminator the name has here.
      | [] => false
      | c :: name =>
        if isOne ch then wildcardMatchTail mask name
        else if asciiLower ch ≠ asciiLower c then false
        else wildcardMatchTail mask name

def wildcardMatch (mask : Option (List UInt8)) (name : List UInt8) : Bool :=
  match mask.map (·.takeWhile (· ≠ 0)) with
  | none => true
  | some mask =>
    if mask = [] then true
    else if mask = [42] ∨ mask = [42, 46, 42] then true
    else wildcardMatchTail mask name

/-- One unit in the mask's buffer. -/
def unitByte (lo hi : UInt8) : UInt8 :=
  let ch := lo.toNat + 256 * hi.toNat
  if ch < 0x80 then ch.toUInt8 else 63

def unitBytes : List UInt8 → List UInt8
  | lo :: hi :: data => unitByte lo hi :: unitBytes data
  | _ => []

/-- `memory` is whether malloc gives the buffer. -/
def dirMaskFromUtf16 (data : List UInt8) (memory : Bool) : Option (List UInt8) :=
  if data.length = 0 then none
  else if data.length % 2 = 1 then none
  else if !memory then none
  else some (unitBytes data)

end Autorun.Server.DirMask
