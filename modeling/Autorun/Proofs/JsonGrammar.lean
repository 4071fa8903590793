import Autorun.Text.JsonReader

namespace Autorun.Text.Json
open Lib List

/-! The grammar, from the inside out. -/

def Blank (w : List Char) : Prop := ∀ c ∈ w, isSpace c = true

/-- Four hexadecimal digits and their value. -/
inductive Hex4 : List Char → Nat → Prop
  | mk : hexValue a = some w → hexValue b = some x → hexValue c = some y → hexValue d = some z →
      Hex4 [a, b, c, d] (((w * 16 + x) * 16 + y) * 16 + z)

/-- What stands behind a backslash, and the code it stands for. Surrogates come in pairs. -/
inductive EscapeText : List Char → Nat → Prop
  | letter : (c, n) ∈ letters → EscapeText [c] n
  | single : Hex4 h n → n < 0xd800 ∨ 0xdfff < n → EscapeText ('u' :: h) n
  | pair : Hex4 h n → 0xd800 ≤ n → n ≤ 0xdbff → Hex4 h' low → 0xdc00 ≤ low → low ≤ 0xdfff →
      EscapeText ('u' :: (h ++ '\\' :: 'u' :: h')) (pairCode n low)

/-- A part of a string: a byte of its own, or an escape. -/
inductive Item where
  | byte (c : Char)
  | code (n : Nat)

def Item.bytes : Item → List Char
  | .byte c => [c]
  | .code n => utf8 n

inductive Chars : List Char → List Item → Prop
  | nil : Chars [] []
  | byte : 0x20 ≤ c.toNat → c ≠ '"' → c ≠ '\\' → Chars s items → Chars (c :: s) (.byte c :: items)
  | escape : EscapeText e n → Chars s items → Chars ('\\' :: (e ++ s)) (.code n :: items)

inductive StringText : List Char → List Item → Prop
  | mk : Chars s items → StringText ('"' :: (s ++ ['"'])) items

def Digits (s : List Char) : Prop := s ≠ [] ∧ ∀ c ∈ s, c.isDigit = true

inductive IntText : List Char → Prop
  | zero : IntText ['0']
  | digits : c ≠ '0' → Digits (c :: s) → IntText (c :: s)

inductive FracText : List Char → Prop
  | absent : FracText []
  | digits : Digits s → FracText ('.' :: s)

inductive ExpText : List Char → Prop
  | absent : ExpText []
  | digits : e = 'e' ∨ e = 'E' → sign = [] ∨ sign = ['+'] ∨ sign = ['-'] → Digits s →
      ExpText (e :: (sign ++ s))

inductive NumberText : List Char → Prop
  | mk : sign = [] ∨ sign = ['-'] → IntText i → FracText f → ExpText e →
      NumberText (sign ++ (i ++ (f ++ e)))

/-- A word or a number: a value that does not show where it ends. -/
inductive Bare : List Char → Prop
  | wordTrue : Bare ['t', 'r', 'u', 'e']
  | wordNull : Bare ['n', 'u', 'l', 'l']
  | wordFalse : Bare ['f', 'a', 'l', 's', 'e']
  | number : NumberText s → Bare s

inductive Separated (P : List Char → Prop) : List Char → Prop
  | one : P s → Separated P s
  | more : P s → Separated P t → Separated P (s ++ ',' :: t)

/-- A value among others, with the whitespace around it. -/
inductive Element (V : List Char → Prop) : List Char → Prop
  | mk : Blank w → V v → Blank w' → Element V (w ++ (v ++ w'))

/-- The name of a member, with the colon and the whitespace around it. -/
inductive Name : List Char → Prop
  | mk : Blank w → StringText s items → Blank w' → Name (w ++ (s ++ (w' ++ [':'])))

inductive Member (V : List Char → Prop) : List Char → Prop
  | mk : Name k → Element V e → Member V (k ++ e)

def Inside (V : List Char → Prop) (close : Char) (s : List Char) : Prop :=
  Blank s ∨ Separated (if close = '}' then Member V else Element V) s

inductive Compound (V : List Char → Prop) : List Char → Prop
  | object : Inside V '}' s → Compound V ('{' :: (s ++ ['}']))
  | array : Inside V ']' s → Compound V ('[' :: (s ++ [']']))

/-- A value that is nested no deeper than `n`. -/
def Value : Nat → List Char → Prop
  | 0, s => (∃ items, StringText s items) ∨ Bare s
  | n + 1, s => (∃ items, StringText s items) ∨ Bare s ∨ Compound (Value n) s

/-! Whitespace. -/

theorem whitespace_cons (h : isSpace c = false) (t : List Char) : whitespace (c :: t) = c :: t :=
  dropWhile_cons_of_neg (by simp [h])

theorem whitespace_append (h : Blank w) (t : List Char) : whitespace (w ++ t) = whitespace t :=
  dropWhile_append_of_pos h

theorem exists_blank (t : List Char) : ∃ w, Blank w ∧ t = w ++ whitespace t :=
  ⟨t.takeWhile isSpace, fun _ hc => mem_takeWhile_imp hc, takeWhile_append_dropWhile.symm⟩

theorem whitespace_eq_cons (h : whitespace t = c :: r) : ∃ w, Blank w ∧ t = w ++ c :: r := by
  obtain ⟨w, hw, ht⟩ := exists_blank t
  rw [h] at ht
  exact ⟨w, hw, ht⟩

theorem whitespace_length_le (t : List Char) : (whitespace t).length ≤ t.length :=
  (dropWhile_suffix isSpace).length_le

/-! The escapes. -/

theorem hex4_sat (text : List Char) (hlen : 4 ≤ text.length) :
    (hex4 text).Sat fun n => ∃ h, text = h ++ text.drop 4 ∧ Hex4 h n := by
  match text, hlen with
  | a :: b :: c :: d :: text, _ =>
    simp only [hex4, hexLoop]
    cases ha : hexValue a with
    | none => trivial
    | some w =>
      cases hb : hexValue b with
      | none => trivial
      | some x =>
        cases hc : hexValue c with
        | none => trivial
        | some y =>
          cases hd : hexValue d with
          | none => trivial
          | some z => exact ⟨[a, b, c, d], rfl, by simpa using Hex4.mk ha hb hc hd⟩

theorem Hex4.length (h : Hex4 s n) : s.length = 4 := by
  cases h
  rfl

theorem Hex4.read (h : Hex4 s n) (rest : List Char) :
    hex4 (s ++ rest) = .found n ∧ (s ++ rest).drop 4 = rest := by
  obtain ⟨ha, hb, hc, hd⟩ := h
  simp [hex4, hexLoop, ha, hb, hc, hd]

theorem hexValue_lt (h : hexValue c = some n) : n < 16 := by
  unfold hexValue at h
  split at h
  case isTrue hc =>
    have : c.toNat ≤ '9'.toNat := hc.2
    injection h with h
    simp only [Char.reduceToNat] at *
    omega
  case isFalse =>
    split at h
    case isTrue hc =>
      have : c.toNat ≤ 'f'.toNat := hc.2
      injection h with h
      simp only [Char.reduceToNat] at *
      omega
    case isFalse =>
      split at h
      case isTrue hc =>
        have : c.toNat ≤ 'F'.toNat := hc.2
        injection h with h
        simp only [Char.reduceToNat] at *
        omega
      case isFalse => cases h

theorem Hex4.lt (h : Hex4 s n) : n < 0x10000 := by
  obtain ⟨ha, hb, hc, hd⟩ := h
  have := hexValue_lt ha
  have := hexValue_lt hb
  have := hexValue_lt hc
  have := hexValue_lt hd
  omega

theorem EscapeText.le (h : EscapeText e n) : n ≤ 0x10ffff := by
  cases h with
  | letter hc =>
    simp only [letters, mem_cons, Prod.mk.injEq, not_mem_nil, or_false] at hc
    omega
  | single hn => have := hn.lt; omega
  | pair _ h1 h2 _ h3 h4 => unfold pairCode; omega

/-- The low half of a surrogate pair, with its backslash. -/
def LowText (code n : Nat) (e : List Char) : Prop :=
  ∃ h low, e = '\\' :: 'u' :: h ∧ Hex4 h low ∧ 0xdc00 ≤ low ∧ low ≤ 0xdfff ∧ n = pairCode code low

theorem lowHalf_sat (code : Nat) (text : List Char) (hlen : 6 ≤ text.length) :
    (lowHalf code text).Sat fun r => ∃ e, text = e ++ r.2 ∧ LowText code r.1 e := by
  match text, hlen with
  | c :: d :: text, hlen =>
    unfold lowHalf
    dsimp only
    split
    · trivial
    rename_i hcd
    simp only [not_or, Decidable.not_not] at hcd
    obtain ⟨rfl, rfl⟩ := hcd
    refine (hex4_sat text (by simpa using hlen)).elim trivial ?_
    rintro low ⟨h, htext, hh⟩
    dsimp only
    split
    · trivial
    · exact ⟨_, by simpa using htext, h, low, rfl, hh, by omega, by omega, rfl⟩

theorem unicode_sat (text : List Char) :
    (unicode text).Sat fun r => ∃ e, text = e ++ r.2 ∧ EscapeText ('u' :: e) r.1 := by
  unfold unicode
  split
  · trivial
  refine (hex4_sat text (by omega)).elim trivial ?_
  rintro code ⟨h, htext, hh⟩
  dsimp only
  split
  · rename_i hhigh
    split
    · trivial
    · refine (lowHalf_sat code (text.drop 4) (by omega)).elim trivial ?_
      rintro ⟨n, rest⟩ ⟨_, hdrop, h', low, rfl, hh', hlow, hlow', hn⟩
      refine ⟨h ++ '\\' :: 'u' :: h', ?_, hn ▸ .pair hh hhigh.1 hhigh.2 hh' hlow hlow'⟩
      rw [hdrop] at htext
      simpa using htext
  · split
    · trivial
    · exact ⟨h, htext, .single hh (by omega)⟩

theorem unicode_complete (he : EscapeText ('u' :: e) n) (rest : List Char) :
    unicode (e ++ rest) = .found (n, rest) := by
  cases he with
  | letter hc => simp [letters] at hc
  | single hh hn =>
    obtain ⟨hread, hdrop⟩ := hh.read rest
    have hlen := hh.length
    unfold unicode
    rw [if_neg (by rw [length_append]; omega), hread]
    dsimp only
    rw [if_neg (by omega), if_neg (by omega), hdrop]
  | @pair h n h' low hh h1 h2 hh' h3 h4 =>
    obtain ⟨hread, hdrop⟩ := hh.read ('\\' :: 'u' :: (h' ++ rest))
    obtain ⟨hread', hdrop'⟩ := hh'.read rest
    have hlen := hh.length
    have hlen' := hh'.length
    rw [append_assoc, cons_append, cons_append]
    unfold unicode
    rw [if_neg (by rw [length_append]; omega), hread]
    dsimp only
    rw [if_pos ⟨h1, h2⟩, hdrop, if_neg (by simp only [length_cons, length_append]; omega)]
    simp only [lowHalf, hread', hdrop', ne_eq, not_true, or_self, if_false]
    exact if_neg (by omega)

theorem lookup_letters : letters.lookup c = some n ↔ (c, n) ∈ letters := by
  constructor
  · intro h
    obtain ⟨l1, l2, hl, -⟩ := lookup_eq_some_iff.mp h
    rw [hl]
    simp
  · intro h
    simp only [letters, mem_cons, not_mem_nil, or_false] at h
    rcases h with ⟨rfl, rfl⟩ | ⟨rfl, rfl⟩ | ⟨rfl, rfl⟩ | ⟨rfl, rfl⟩ | ⟨rfl, rfl⟩ | ⟨rfl, rfl⟩ | ⟨rfl, rfl⟩ |
      ⟨rfl, rfl⟩ <;> rfl

theorem EscapeText.ne_nil (h : EscapeText e n) : e ≠ [] := by
  cases h <;> nofun

def EscapeAt (text : List Char) (n : Nat) (rest : List Char) : Prop := ∃ e, text = e ++ rest ∧ EscapeText e n

theorem EscapeAt.shorter (h : EscapeAt text n rest) : rest.length < text.length := by
  obtain ⟨e, rfl, he⟩ := h
  have := length_pos_iff.mpr he.ne_nil
  rw [length_append]
  omega

theorem escape_sat (text : List Char) : (escape text).Sat fun r => EscapeAt text r.1 r.2 := by
  unfold escape
  split
  · trivial
  rename_i c text
  cases hc : letters.lookup c with
  | some code => exact ⟨[c], rfl, .letter (lookup_letters.mp hc)⟩
  | none =>
    dsimp only
    split
    · rename_i hu
      refine (unicode_sat text).elim trivial ?_
      rintro ⟨n, rest⟩ ⟨e, rfl, he⟩
      exact ⟨'u' :: e, by rw [hu]; rfl, he⟩
    · trivial

theorem EscapeText.cases_u (h : EscapeText e n) : (∃ c, e = [c] ∧ (c, n) ∈ letters) ∨
    ∃ e', e = 'u' :: e' ∧ EscapeText ('u' :: e') n := by
  cases h with
  | letter hc => exact .inl ⟨_, rfl, hc⟩
  | single hh hn => exact .inr ⟨_, rfl, .single hh hn⟩
  | pair hh h1 h2 hh' h3 h4 => exact .inr ⟨_, rfl, .pair hh h1 h2 hh' h3 h4⟩

theorem escape_complete (h : EscapeAt text n rest) : escape text = .found (n, rest) := by
  obtain ⟨e, rfl, he⟩ := h
  rcases he.cases_u with ⟨c, rfl, hc⟩ | ⟨e, rfl, he⟩
  · simp [escape, lookup_letters.mpr hc]
  · exact unicode_complete he rest

/-- `strchr` finds the letters, and the terminator. -/
theorem strchr_letters (h : c ≠ '\x00') :
    strchr ['"', '\\', '/', 'b', 'f', 'n', 'r', 't'] c = true ↔ ∃ n, (c, n) ∈ letters := by
  simp [strchr, letters, h, exists_or]

/-! Strings. -/

/-- From `text` to `rest` is what `P` says, unless a NUL byte was passed. `strchr` finds that byte in any set,
so a skipped escape may be one. -/
def Passes (text rest : List Char) (P : Prop) : Prop := ∃ s, text = s ++ rest ∧ ('\x00' ∉ s → P)

theorem Passes.of_eq (h : text = s ++ rest) (hp : P) : Passes text rest P := ⟨s, h, fun _ => hp⟩

theorem Passes.imp (h : Passes text rest P) (hpq : P → Q) : Passes text rest Q := by
  obtain ⟨s, hs, hp⟩ := h
  exact ⟨s, hs, fun hnul => hpq (hp hnul)⟩

theorem Passes.trans (h : Passes text mid P) (h' : Passes mid rest Q) : Passes text rest (P ∧ Q) := by
  obtain ⟨s, rfl, hp⟩ := h
  obtain ⟨t, rfl, hq⟩ := h'
  refine ⟨s ++ t, (append_assoc ..).symm, fun hnul => ?_⟩
  rw [mem_append, not_or] at hnul
  exact ⟨hp hnul.1, hq hnul.2⟩

theorem skipEscape_sat (text : List Char) : (skipEscape text).Sat fun rest =>
    rest.length < text.length ∧ Passes text rest (∃ n, EscapeAt text n rest) := by
  unfold skipEscape
  split
  · trivial
  rename_i c text
  split
  · rename_i hs
    refine ⟨Nat.lt_succ_self _, [c], rfl, fun hnul => ?_⟩
    have hc : c ≠ '\x00' := fun hc => hnul (by simp [hc])
    obtain ⟨n, hn⟩ := (strchr_letters hc).mp hs
    exact ⟨n, [c], rfl, .letter hn⟩
  · split
    · rename_i hu
      refine (unicode_sat text).elim trivial ?_
      rintro ⟨n, rest⟩ ⟨e, rfl, he⟩
      have hat : EscapeAt (c :: (e ++ rest)) n rest := ⟨'u' :: e, by rw [hu]; rfl, he⟩
      exact ⟨hat.shorter, .of_eq (s := c :: e) rfl ⟨n, hat⟩⟩
    · trivial

theorem EscapeText.head_ne (h : EscapeText e n) (rest : List Char) : (e ++ rest).head? ≠ some '\x00' := by
  rcases h.cases_u with ⟨c, rfl, hc⟩ | ⟨e, rfl, -⟩
  · intro hz
    injection hz with hz
    subst hz
    simp [letters] at hc
  · nofun

theorem skipEscape_complete (h : EscapeAt text n rest) : skipEscape text = .found rest := by
  obtain ⟨e, rfl, he⟩ := h
  have hhead := he.head_ne rest
  rcases he.cases_u with ⟨c, rfl, hc⟩ | ⟨e, rfl, he⟩
  · exact if_pos ((strchr_letters fun hz => hhead (by rw [hz]; rfl)).mpr ⟨n, hc⟩)
  · rw [cons_append, skipEscape, if_neg (by decide), if_pos rfl, unicode_complete he]
    rfl

theorem skipLoop_sat (hturns : text.length < turns) : (skipLoop turns text).Sat fun rest =>
    rest.length < text.length ∧ Passes text rest (∃ s items, text = s ++ '"' :: rest ∧ Chars s items) := by
  induction turns generalizing text with
  | zero => omega
  | succ turns ih =>
    cases text with
    | nil => trivial
    | cons c text =>
      rw [length_cons] at hturns
      have hfirst : Passes (c :: text) text True := .of_eq (s := [c]) rfl trivial
      unfold skipLoop
      split
      case isTrue hquote =>
        exact ⟨Nat.lt_succ_self _, .of_eq (s := [c]) rfl ⟨[], [], by rw [hquote]; rfl, .nil⟩⟩
      case isFalse hquote =>
        split
        case isTrue => trivial
        case isFalse hlow =>
          split
          case isTrue hslash =>
            refine (@ih text (by omega)).elim trivial ?_
            rintro rest ⟨hshort, hpass⟩
            refine ⟨Nat.lt_succ_of_lt hshort, (hfirst.trans hpass).imp ?_⟩
            rintro ⟨-, s, items, rfl, hs⟩
            exact ⟨c :: s, _, rfl, .byte (by omega) hquote hslash hs⟩
          case isFalse hslash =>
            have hslash : c = '\\' := by simpa using hslash
            refine (skipEscape_sat text).elim trivial ?_
            rintro t ⟨hless, hescape⟩
            dsimp only
            refine (@ih t (by omega)).elim trivial ?_
            rintro rest ⟨hshort, hpass⟩
            refine ⟨by rw [length_cons]; omega, (hfirst.trans (hescape.trans hpass)).imp ?_⟩
            rintro ⟨-, ⟨n, e, rfl, hesc⟩, s, items, rfl, hs⟩
            exact ⟨'\\' :: (e ++ s), _, by rw [hslash]; simp, .escape hesc hs⟩

theorem skipLoop_complete (hs : Chars s items) (hturns : s.length < turns) (rest : List Char) :
    skipLoop turns (s ++ '"' :: rest) = .found rest := by
  induction hs generalizing turns with
  | nil =>
    cases turns with
    | zero => cases hturns
    | succ turns => exact if_pos rfl
  | byte hlow hquote hslash _ ih =>
    cases turns with
    | zero => cases hturns
    | succ turns =>
      rw [cons_append, skipLoop, if_neg hquote, if_neg (by omega), if_pos hslash]
      exact ih (by rw [length_cons] at hturns; omega)
  | @escape e n s items he _ ih =>
    cases turns with
    | zero => cases hturns
    | succ turns =>
      have happ : '\\' :: (e ++ s) ++ '"' :: rest = '\\' :: (e ++ (s ++ '"' :: rest)) := by simp
      have hskip : skipEscape (e ++ (s ++ '"' :: rest)) = .found (s ++ '"' :: rest) := skipEscape_complete ⟨e, rfl, he⟩
      rw [happ, skipLoop, if_neg (by decide), if_neg (by decide), if_neg (by decide), hskip]
      refine ih ?_
      simp only [length_cons, length_append] at hturns
      omega

/-- A string behind whitespace, and what follows it. -/
def StringAt (text : List Char) (items : List Item) (rest : List Char) : Prop :=
  ∃ w s, text = w ++ (s ++ rest) ∧ Blank w ∧ StringText s items

/-- A string starts at the first byte behind the whitespace. -/
theorem stringAt_iff : StringAt text items rest ↔
    ∃ s, whitespace text = '"' :: (s ++ '"' :: rest) ∧ Chars s items := by
  constructor
  · rintro ⟨w, _, rfl, hw, ⟨hs⟩⟩
    refine ⟨_, ?_, hs⟩
    rw [whitespace_append hw, cons_append, whitespace_cons rfl]
    simp
  · rintro ⟨s, ht, hs⟩
    obtain ⟨w, hw, rfl⟩ := whitespace_eq_cons ht
    exact ⟨w, _, by simp, hw, .mk hs⟩

theorem Passes.blank (h : Passes (whitespace text) rest P) : Passes text rest P := by
  obtain ⟨w, -, ht⟩ := exists_blank text
  exact (Passes.trans (.of_eq ht trivial) h).imp And.right

theorem skipString_sat (text : List Char) : (skipString text).Sat fun rest =>
    rest.length < text.length ∧ Passes text rest (∃ items, StringAt text items rest) := by
  have hle := whitespace_length_le text
  simp only [stringAt_iff]
  unfold skipString
  split
  case h_1 => trivial
  case h_2 c t ht =>
    rw [ht, length_cons] at hle
    split
    case isTrue => trivial
    case isFalse hquote =>
      have hquote : c = '"' := by simpa using hquote
      have hfirst : Passes (c :: t) t True := .of_eq (s := [c]) rfl trivial
      refine (skipLoop_sat (Nat.lt_succ_self _)).elim trivial ?_
      rintro rest ⟨hshort, hpass⟩
      refine ⟨by omega, .blank ?_⟩
      rw [ht]
      refine (hfirst.trans hpass).imp ?_
      rintro ⟨-, s, items, rfl, hs⟩
      exact ⟨items, s, by rw [hquote], hs⟩

theorem skipString_complete (h : StringAt text items rest) : skipString text = .found rest := by
  obtain ⟨s, ht, hs⟩ := stringAt_iff.mp h
  unfold skipString
  rw [ht]
  exact skipLoop_complete hs (by rw [length_append]; omega) rest

theorem emitUtf8_eq_some : emitUtf8 code size used = some bytes ↔
    code ≠ 0 ∧ code ≤ 0x10ffff ∧ used + (utf8 code).length < size ∧ bytes = utf8 code := by
  unfold emitUtf8
  split
  case isTrue h => exact ⟨nofun, fun ⟨h1, h2, _⟩ => by omega⟩
  case isFalse h =>
    split
    case isTrue h' => exact ⟨nofun, fun ⟨_, _, h3, _⟩ => by omega⟩
    case isFalse h' =>
      rw [Option.some.injEq]
      exact ⟨fun hb => ⟨by omega, by omega, by omega, hb.symm⟩, fun hb => hb.2.2.2.symm⟩

/-- The string as `json_string` takes it: without the escape for a zero byte, and with room for what it
stands for. -/
def Fits (size used : Nat) (items : List Item) (out : List Char) : Prop :=
  (∀ i ∈ items, i ≠ .code 0) ∧ out = items.flatMap Item.bytes ∧ used + out.length < size

theorem stringLoop_sat (hturns : text.length < turns) (hused : used < size) :
    (stringLoop size turns used text).Sat fun r =>
      ∃ s items, text = s ++ '"' :: r.2 ∧ Chars s items ∧ Fits size used items r.1 := by
  induction turns generalizing text used with
  | zero => omega
  | succ turns ih =>
    cases text with
    | nil => trivial
    | cons c text =>
      rw [length_cons] at hturns
      unfold stringLoop
      split
      case isTrue hquote => exact ⟨[], [], by rw [hquote]; rfl, .nil, nofun, rfl, hused⟩
      case isFalse hquote =>
        split
        case isTrue => trivial
        case isFalse hlow =>
          split
          case isTrue hslash =>
            split
            case isTrue => trivial
            case isFalse hroom =>
              refine (@ih (used + 1) text (by omega) (by omega)).elim trivial ?_
              rintro ⟨out, rest⟩ ⟨s, items, rfl, hs, hzero, rfl, hfits⟩
              refine ⟨c :: s, .byte c :: items, rfl, .byte (by omega) hquote hslash hs, ?_, rfl, ?_⟩
              · exact forall_mem_cons.mpr ⟨nofun, hzero⟩
              · dsimp only at hfits ⊢
                rw [length_cons]
                omega
          case isFalse hslash =>
            have hslash : c = '\\' := by simpa using hslash
            refine (escape_sat text).elim trivial ?_
            rintro ⟨n, t⟩ hat
            have hshort := hat.shorter
            obtain ⟨e, rfl, hesc⟩ := hat
            dsimp only at hshort hturns hesc ⊢
            cases hemit : emitUtf8 n size used with
            | none => trivial
            | some bytes =>
              obtain ⟨hne, -, hroom, rfl⟩ := emitUtf8_eq_some.mp hemit
              dsimp only
              refine (@ih (used + (utf8 n).length) t (by omega) hroom).elim trivial ?_
              rintro ⟨out, rest⟩ ⟨s, items, rfl, hs, hzero, rfl, hfits⟩
              refine ⟨'\\' :: (e ++ s), .code n :: items, by rw [hslash]; simp, .escape hesc hs, ?_, rfl, ?_⟩
              · exact forall_mem_cons.mpr ⟨fun hz => hne (by injection hz), hzero⟩
              · dsimp only at hfits ⊢
                rw [length_append]
                omega

theorem stringLoop_complete (hs : Chars s items) (hturns : s.length < turns)
    (hfits : Fits size used items out) (rest : List Char) :
    stringLoop size turns used (s ++ '"' :: rest) = .found (out, rest) := by
  induction hs generalizing turns used out with
  | nil =>
    cases turns with
    | zero => cases hturns
    | succ turns =>
      rw [hfits.2.1]
      exact if_pos rfl
  | @byte c s items hlow hquote hslash _ ih =>
    cases turns with
    | zero => cases hturns
    | succ turns =>
      obtain ⟨hzero, rfl, hlen⟩ := hfits
      rw [flatMap_cons, length_append, Item.bytes, length_singleton] at hlen
      rw [cons_append, stringLoop, if_neg hquote, if_neg (by omega), if_pos hslash, if_neg (by omega),
        ih (by rw [length_cons] at hturns; omega)
          ⟨(forall_mem_cons.mp hzero).2, rfl, by omega⟩]
      rfl
  | @escape e n s items he _ ih =>
    cases turns with
    | zero => cases hturns
    | succ turns =>
      obtain ⟨hzero, rfl, hlen⟩ := hfits
      obtain ⟨hfirst, hzero⟩ := forall_mem_cons.mp hzero
      rw [flatMap_cons, length_append, Item.bytes] at hlen
      have happ : '\\' :: (e ++ s) ++ '"' :: rest = '\\' :: (e ++ (s ++ '"' :: rest)) := by simp
      have hesc : escape (e ++ (s ++ '"' :: rest)) = .found (n, s ++ '"' :: rest) :=
        escape_complete ⟨e, rfl, he⟩
      have hne : n ≠ 0 := fun hz => hfirst (by rw [hz])
      have hemit : emitUtf8 n size used = some (utf8 n) :=
        emitUtf8_eq_some.mpr ⟨hne, he.le, by omega, rfl⟩
      simp only [length_cons, length_append] at hturns
      rw [happ, stringLoop, if_neg (by decide), if_neg (by decide), if_neg (by decide), hesc]
      dsimp only
      rw [hemit]
      dsimp only
      rw [ih (by omega) ⟨hzero, rfl, by omega⟩]
      rfl

theorem jsonString_sat (size : Nat) (text : List Char) : (jsonString size text).Sat fun r =>
    ∃ items, StringAt text items r.2 ∧ Fits size 0 items r.1 := by
  simp only [stringAt_iff]
  unfold jsonString
  split
  case h_1 => trivial
  case h_2 c t ht =>
    split
    case isTrue => trivial
    case isFalse hsize =>
      split
      case isTrue => trivial
      case isFalse hquote =>
        have hquote : c = '"' := by simpa using hquote
        refine (stringLoop_sat (Nat.lt_succ_self _) (Nat.pos_of_ne_zero hsize)).elim trivial ?_
        rintro ⟨out, rest⟩ ⟨s, items, rfl, hs, hfits⟩
        exact ⟨items, ⟨s, by rw [ht, hquote], hs⟩, hfits⟩

theorem jsonString_complete (h : StringAt text items rest) (hfits : Fits size 0 items out) :
    jsonString size text = .found (out, rest) := by
  obtain ⟨s, ht, hs⟩ := stringAt_iff.mp h
  have := hfits.2.2
  unfold jsonString
  rw [ht]
  dsimp only
  rw [if_neg (by omega), if_neg (by decide)]
  exact stringLoop_complete hs (by rw [length_append]; omega) hfits rest

end Autorun.Text.Json
