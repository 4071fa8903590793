import Mathlib.Algebra.Group.Nat.Defs
import Mathlib.Algebra.Group.Int.Defs
import Mathlib.Data.List.DropRight

namespace Autorun.Lib

open List

/-- What comes of reading a text, given up to its terminator: a result, a refusal, or a read of the
bytes behind the terminator. -/
inductive Read (α : Type) where
  | found (a : α)
  | nothing
  | past
deriving DecidableEq

def Read.map (f : α → β) : Read α → Read β
  | .found a => .found (f a)
  | .nothing => .nothing
  | .past => .past

variable {r : Read α} {f : α → β}

@[simp] theorem Read.map_eq_past : r.map f = .past ↔ r = .past := by
  cases r <;> simp [Read.map]

/-- What is found is as said, and no byte behind the end is read. -/
def Read.Sat (P : α → Prop) : Read α → Prop
  | .found a => P a
  | .nothing => True
  | .past => False

theorem Read.Sat.ne_past {P : α → Prop} (h : r.Sat P) : r ≠ .past := by
  rintro rfl
  exact h

theorem Read.Sat.of_found {P : α → Prop} (h : r.Sat P) (hr : r = .found a) : P a := by
  subst hr
  exact h

/-- A step that reads on from what was found. -/
@[elab_as_elim]
theorem Read.Sat.elim {P : α → Prop} {motive : Read α → Prop} (h : r.Sat P) (nothing : motive .nothing)
    (found : ∀ a, P a → motive (.found a)) : motive r := by
  cases r with
  | found a => exact found a h
  | nothing => exact nothing
  | past => exact h.elim

/-! What is left of a text without its last characters of one kind. -/

variable {a b : List α} {p : α → Bool}

theorem rdropWhile_append_of_all (h : ∀ c ∈ b, p c) : (a ++ b).rdropWhile p = a.rdropWhile p := by
  rw [List.rdropWhile, List.rdropWhile, reverse_append,
    dropWhile_append_of_pos fun c hc => h c (mem_reverse.mp hc)]

theorem rdropWhile_append_of_ne (h : b.rdropWhile p ≠ []) :
    (a ++ b).rdropWhile p = a ++ b.rdropWhile p := by
  have hne : (b.reverse.dropWhile p).isEmpty = false := by
    cases hb : b.reverse.dropWhile p with
    | nil => exact absurd (by rw [List.rdropWhile, hb]; rfl) h
    | cons => rfl
  simp [List.rdropWhile, dropWhile_append, hne]

theorem rdropWhile_cons_of_neg {c : α} (h : p c = false) (v : List α) :
    (c :: v).rdropWhile p = c :: v.rdropWhile p := by
  by_cases hv : v.rdropWhile p = []
  · have hall : ∀ x ∈ v, p x := rdropWhile_eq_nil_iff.mp hv
    rw [hv, ← singleton_append, rdropWhile_append_of_all hall, rdropWhile_singleton]
    simp [h]
  · rw [← singleton_append, rdropWhile_append_of_ne hv]
    rfl

theorem exists_rdropWhile_append (p : α → Bool) (t : List α) :
    ∃ w, (∀ c ∈ w, p c) ∧ t = t.rdropWhile p ++ w := by
  refine ⟨(t.reverse.takeWhile p).reverse, ?_, ?_⟩
  · intro c hc
    exact mem_takeWhile_imp (mem_reverse.mp hc)
  · rw [List.rdropWhile, ← reverse_append, takeWhile_append_dropWhile, reverse_reverse]

/-- The string that starts at an address, given the memory from there on. -/
def cstr (mem : List Char) : List Char := mem.takeWhile (· ≠ '\x00')

@[simp] theorem cstr_append_terminator {s : List Char} (h : '\x00' ∉ s) (mem : List Char) :
    cstr (s ++ '\x00' :: mem) = s := by
  rw [cstr, takeWhile_append_of_pos]
  · simp
  · intro c hc
    simpa using fun he : c = '\x00' => h (he ▸ hc)

/-- A text up to its terminator. -/
structure CString where
  chars : List Char
  terminated : '\x00' ∉ chars

/-- `isspace` in the C locale. -/
def isspace (c : Char) : Bool := c ∈ [' ', '\t', '\n', '\x0b', '\x0c', '\r']

/-- A number as the C library reads it: its sign, its digits and what follows them. -/
structure Number where
  negative : Bool
  digits : List Char
  rest : List Char
deriving DecidableEq

def readSign : List Char → Bool × List Char
  | '-' :: t => (true, t)
  | '+' :: t => (false, t)
  | t => (false, t)

def readNumber (text : List Char) : Number :=
  let (negative, t) := readSign (text.dropWhile isspace)
  ⟨negative, t.takeWhile (·.isDigit), t.dropWhile (·.isDigit)⟩

def Number.value (n : Number) : Nat := Nat.ofDigitChars 10 n.digits 0

/-- The value of `strtoul` with 64 bits and base ten. -/
def Number.unsigned (n : Number) : Nat :=
  if 2 ^ 64 ≤ n.value then 2 ^ 64 - 1
  else if n.negative then (2 ^ 64 - n.value) % 2 ^ 64
  else n.value

/-- The value of `strtol` with 64 bits and base ten. -/
def Number.signed (n : Number) : Int :=
  if n.negative then -(min n.value (2 ^ 63) : Nat) else (min n.value (2 ^ 63 - 1) : Nat)

def strtoul (text : List Char) : Nat := (readNumber text).unsigned

/-- `strtoul` of a text that is one number and in range, as told by `errno` and the end pointer. -/
def strtoulAll (text : List Char) : Option Nat :=
  let n := readNumber text
  if n.digits = [] ∨ n.rest ≠ [] ∨ 2 ^ 64 ≤ n.value then none else some n.unsigned

/-- `atoi`, as the low 32 bits of `strtol`. -/
def atoi (text : List Char) : Nat := ((readNumber text).signed % 2 ^ 32).toNat

/-- `%u` of `sscanf`: the low 32 bits of the number and what follows it. -/
def scanUnsigned (text : List Char) : Option (Nat × List Char) :=
  let n := readNumber text
  if n.digits = [] then none else some (n.unsigned % 2 ^ 32, n.rest)

/-- Plain text in the format of `sscanf`, in which a blank stands for any blanks: what follows it. -/
def scanText : List Char → List Char → Option (List Char)
  | [], text => some text
  | f :: format, text =>
    if isspace f then scanText format (text.dropWhile isspace)
    else
      match text with
      | [] => none
      | c :: text => if c = f then scanText format text else none

/-- `%llu` of `sscanf`. -/
def scanLong (text : List Char) : Option Nat :=
  let n := readNumber text
  if n.digits = [] then none else some n.unsigned

def hexValue (c : Char) : Option Nat :=
  if '0' ≤ c ∧ c ≤ '9' then some (c.toNat - '0'.toNat)
  else if 'a' ≤ c ∧ c ≤ 'f' then some (c.toNat - 'a'.toNat + 10)
  else if 'A' ≤ c ∧ c ≤ 'F' then some (c.toNat - 'A'.toNat + 10)
  else none

/-- The low byte of what `%2x` of `sscanf` reads: a sign and a digit, two digits or one. -/
def scanHexByte (text : List Char) : Option Nat :=
  match text.dropWhile isspace with
  | [] => none
  | c :: t =>
    if c = '+' then t.head?.bind hexValue
    else if c = '-' then (t.head?.bind hexValue).map fun v => (256 - v) % 256
    else
      (hexValue c).map fun v =>
        match t.head?.bind hexValue with
        | some w => 16 * v + w
        | none => v

/-- `fgets` with room for `n` characters: the line or the part of one, what is left of the file, and
whether its end was met. -/
def fgets : Nat → List Char → List Char × List Char × Bool
  | 0, file => ([], file, false)
  | _ + 1, [] => ([], [], true)
  | n + 1, c :: file =>
    if c = '\n' then ([c], file, false)
    else
      let (line, rest, eof) := fgets n file
      (c :: line, rest, eof)

variable {c : Char} {n : Nat}

theorem isDigit_toDigits (h : c ∈ Nat.toDigits 10 n) : c.isDigit :=
  Nat.isDigit_of_mem_toDigits (by decide) (by decide) h

theorem isspace_of_isDigit (h : c.isDigit) : isspace c = false := by
  cases hs : isspace c with
  | false => rfl
  | true =>
    simp only [isspace, mem_cons, not_mem_nil, or_false, decide_eq_true_eq] at hs
    rcases hs with rfl | rfl | rfl | rfl | rfl | rfl <;> exact absurd h (by decide)

variable {rest line : List Char}

/-- A number is read up to the first character that is no digit. -/
theorem readNumber_digits {x : List Char} (hne : x ≠ []) (hall : ∀ c ∈ x, c.isDigit)
    (h : ∀ c, rest.head? = some c → c.isDigit = false) : readNumber (x ++ rest) = ⟨false, x, rest⟩ := by
  obtain ⟨d, ds, rfl⟩ := exists_cons_of_ne_nil hne
  have hfirst : d.isDigit := hall d mem_cons_self
  have hsign : readSign ((d :: ds ++ rest).dropWhile isspace) = (false, d :: ds ++ rest) := by
    rw [cons_append, dropWhile_cons_of_neg (by simp [isspace_of_isDigit hfirst])]
    unfold readSign
    split
    case h_1 t he => exact absurd hfirst (by rw [(List.cons.inj he).1]; decide)
    case h_2 t he => exact absurd hfirst (by rw [(List.cons.inj he).1]; decide)
    case h_3 => rfl
  have htake : rest.takeWhile (·.isDigit) = [] ∧ rest.dropWhile (·.isDigit) = rest := by
    cases rest with
    | nil => exact ⟨rfl, rfl⟩
    | cons c rest => simp [h c rfl]
  rw [readNumber, hsign]
  simp only [Number.mk.injEq, true_and]
  rw [takeWhile_append_of_pos hall, dropWhile_append_of_pos hall, htake.1, htake.2,
    append_nil]
  exact ⟨rfl, rfl⟩

theorem readNumber_toDigits (n : Nat)
    (h : ∀ c, rest.head? = some c → c.isDigit = false) :
    readNumber (Nat.toDigits 10 n ++ rest) = ⟨false, Nat.toDigits 10 n, rest⟩ :=
  readNumber_digits Nat.toDigits_ne_nil (fun _ hc => isDigit_toDigits hc) h

theorem readNumber_all (n : Nat) :
    readNumber (Nat.toDigits 10 n) = ⟨false, Nat.toDigits 10 n, []⟩ := by
  conv_lhs => rw [← append_nil (Nat.toDigits 10 n)]
  exact readNumber_toDigits n nofun

theorem value_toDigits (n : Nat) (rest : List Char) :
    (Number.mk false (Nat.toDigits 10 n) rest).value = n :=
  Nat.ofDigitChars_toDigits (by decide) (by decide)

theorem strtoul_toDigits (h : n < 2 ^ 64) : strtoul (Nat.toDigits 10 n) = n := by
  have hread := readNumber_all n
  rw [strtoul, hread, Number.unsigned, value_toDigits, if_neg (by omega)]
  rfl

theorem strtoulAll_toDigits (h : n < 2 ^ 64) : strtoulAll (Nat.toDigits 10 n) = some n := by
  have hread := readNumber_all n
  rw [strtoulAll, hread]
  simp only [value_toDigits, Number.unsigned, Nat.toDigits_ne_nil, false_or, ne_eq,
    not_true_eq_false, Nat.not_le.mpr h, ↓reduceIte, Bool.false_eq_true]

theorem scanUnsigned_toDigits (h : n < 2 ^ 32)
    (hrest : ∀ c, rest.head? = some c → c.isDigit = false) :
    scanUnsigned (Nat.toDigits 10 n ++ rest) = some (n, rest) := by
  rw [scanUnsigned, readNumber_toDigits n hrest]
  simp only [Nat.toDigits_ne_nil, ↓reduceIte, Number.unsigned, value_toDigits, Bool.false_eq_true]
  rw [if_neg (by omega), Nat.mod_eq_of_lt h]

theorem scanHexByte_one (d : Char) : scanHexByte [d] = hexValue d := by
  by_cases hs : isspace d
  · have hnone : hexValue d = none := by
      simp only [isspace, mem_cons, not_mem_nil, or_false, decide_eq_true_eq] at hs
      rcases hs with rfl | rfl | rfl | rfl | rfl | rfl <;> rfl
    rw [scanHexByte, dropWhile_cons_of_pos hs, hnone]
    rfl
  · rw [scanHexByte, dropWhile_cons_of_neg hs]
    by_cases hp : d = '+'
    · subst hp
      rfl
    by_cases hm : d = '-'
    · subst hm
      rfl
    simp [hp, hm]

/-- A line that has room, with its end. -/
theorem fgets_line (hlen : line.length < n) (hline : '\n' ∉ line)
    (rest : List Char) : fgets n (line ++ '\n' :: rest) = (line ++ ['\n'], rest, false) := by
  induction line generalizing n with
  | nil =>
    obtain ⟨m, rfl⟩ := Nat.exists_eq_add_one_of_ne_zero (Nat.ne_zero_of_lt hlen)
    simp [fgets]
  | cons c line ih =>
    obtain ⟨m, rfl⟩ := Nat.exists_eq_add_one_of_ne_zero (Nat.ne_zero_of_lt hlen)
    simp only [mem_cons, not_or] at hline
    rw [cons_append, fgets, if_neg (Ne.symm hline.1), ih (by simpa using hlen) hline.2]
    rfl

/-- The first part of a line that is too long. -/
theorem fgets_part (hlen : n ≤ line.length) (hline : '\n' ∉ line)
    (rest : List Char) :
    fgets n (line ++ '\n' :: rest) = (line.take n, line.drop n ++ '\n' :: rest, false) := by
  induction line generalizing n with
  | nil =>
    obtain rfl : n = 0 := by simpa using hlen
    rfl
  | cons c line ih =>
    cases n with
    | zero => rfl
    | succ n =>
      simp only [mem_cons, not_or] at hline
      rw [cons_append, fgets, if_neg (Ne.symm hline.1), ih (by simpa using hlen) hline.2]
      rfl

end Autorun.Lib
