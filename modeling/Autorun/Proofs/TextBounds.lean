import Autorun.Proofs.ConfigText
import Autorun.Proofs.CatalogLines

namespace Autorun.Text
open Lib List

namespace Config

/-- A settings text that ends inside a key or a value right after a backslash, with nothing before it
that stops the parser. -/
def EndsInEscape (text : List Char) : Prop :=
  ∃ w t, Blank w ∧ text = w ++ '{' :: t ∧ OpenBody maxKeys t

theorem parse_none_iff {text : List Char} : parse text = none ↔ EndsInEscape text := by
  constructor
  · intro h
    obtain ⟨w, hw, ht⟩ := exists_blank text
    rw [parse] at h
    split at h
    case h_1 t hs => exact ⟨w, t, hw, hs ▸ ht, entries_none_iff.mp h⟩
    case h_2 => cases h
  · rintro ⟨w, t, hw, rfl, hopen⟩
    have hs : space (w ++ '{' :: t) = '{' :: t := (space_append hw _).trans (space_cons (by decide) t)
    rw [parse, hs]
    exact entries_none_iff.mpr hopen

end Config

namespace Launcher

/-- A value that ends in a percent sign and one hexadecimal digit, with nothing before it that stops
`copy_value`, which has room for `n` more characters. -/
inductive EndsInDigit : Nat → List Char → Prop
  | last : hexValue d = some v → refused (Char.ofNat v) = false → EndsInDigit (n + 1) ['%', d]
  | plain : c ≠ '%' → refused c = false → EndsInDigit n t → EndsInDigit (n + 1) (c :: t)
  | escape : scanHexByte (a :: b :: t) = some v → refused (Char.ofNat v) = false → EndsInDigit n t →
      EndsInDigit (n + 1) ('%' :: a :: b :: t)

theorem cstr_terminated {t : List Char} (h : '\x00' ∉ t) : cstr (t ++ ['\x00']) = t :=
  cstr_append_terminator h []

theorem copyLoop_of_endsInDigit {n : Nat} {t : List Char} (h : EndsInDigit n t) (h0 : '\x00' ∉ t) :
    copyLoop n (t ++ ['\x00']) = .past := by
  induction h with
  | @last d v n hd hr =>
    have hscan : scanHexByte (cstr ([d] ++ ['\x00'])) = some v := by
      rw [cstr_terminated fun hm => h0 (mem_cons_of_mem _ hm), scanHexByte_one, hd]
    change copyLoop (n + 1) ('%' :: ([d] ++ ['\x00'])) = .past
    rw [copyLoop_escape hscan, hr]
    change (copyLoop n []).map _ = .past
    rw [copyLoop_nil]
    rfl
  | @plain c n t hc hr _ ih =>
    simp only [mem_cons, not_or] at h0
    rw [cons_append, copyLoop_cons (Ne.symm h0.1) hc, hr, ih h0.2]
    rfl
  | @escape a b t v n hs hr _ ih =>
    have htail : '\x00' ∉ a :: b :: t := fun hm => h0 (mem_cons_of_mem _ hm)
    have hscan : scanHexByte (cstr (a :: b :: t ++ ['\x00'])) = some v := by
      rw [cstr_terminated htail, hs]
    simp only [mem_cons, not_or] at htail
    change copyLoop (n + 1) ('%' :: (a :: b :: t ++ ['\x00'])) = .past
    rw [copyLoop_escape hscan, hr]
    change (copyLoop n (t ++ ['\x00'])).map _ = .past
    rw [ih htail.2.2]
    rfl

theorem endsInDigit_of_copyLoop {n : Nat} {t : List Char} (h0 : '\x00' ∉ t)
    (h : copyLoop n (t ++ ['\x00']) = .past) : EndsInDigit n t := by
  induction n generalizing t with
  | zero =>
    cases t with
    | nil => cases h
    | cons c t =>
      simp only [mem_cons, not_or] at h0
      rw [cons_append, copyLoop_full (Ne.symm h0.1)] at h
      cases h
  | succ n ih =>
    cases t with
    | nil => cases h
    | cons c t =>
      simp only [mem_cons, not_or] at h0
      rw [cons_append] at h
      by_cases hp : c = '%'
      case neg =>
        rw [copyLoop_cons (Ne.symm h0.1) hp] at h
        split at h
        case isTrue => cases h
        case isFalse hr =>
          rw [Read.map_eq_past] at h
          exact .plain hp (by simpa using hr) (ih h0.2 h)
      case pos =>
        subst hp
        cases hs : scanHexByte (cstr (t ++ ['\x00'])) with
        | none => rw [copyLoop_noscan hs] at h; cases h
        | some v =>
          rw [copyLoop_escape hs] at h
          rw [cstr_terminated h0.2] at hs
          split at h
          case isTrue => cases h
          case isFalse hr =>
            rw [Read.map_eq_past] at h
            match t, h, hs, h0.2 with
            | [], h, hs, _ => cases hs
            | [d], h, hs, _ => exact .last (scanHexByte_one d ▸ hs) (by simpa using hr)
            | a :: b :: t, h, hs, h0 =>
              simp only [mem_cons, not_or] at h0
              exact .escape hs (by simpa using hr) (ih h0.2.2 h)

end Launcher

/-- The settings parser and `copy_value` stay within a text and its terminator, except for a settings
text that ends right after a backslash in a string and a value that ends in a percent sign and one
digit. -/
theorem reads_within_text_iff (text : CString) (size : Nat) :
    (Config.parse text.chars ≠ none ↔ ¬ Config.EndsInEscape text.chars) ∧
    (Launcher.copyValue size (text.chars ++ ['\x00']) ≠ .past ↔
      ¬ Launcher.EndsInDigit (size - 1) text.chars) := by
  constructor
  · exact not_congr Config.parse_none_iff
  · exact not_congr ⟨Launcher.endsInDigit_of_copyLoop text.terminated,
      fun h => Launcher.copyLoop_of_endsInDigit h text.terminated⟩

/-- The text `{"a\` and the value `a%5` are read past their ends. -/
theorem escape_reads_past_end :
    Config.parse ['{', '"', 'a', '\\'] = none ∧
      Launcher.copyValue Launcher.titleSize (['a', '%', '5'] ++ ['\x00']) = .past := by
  decide +kernel

end Autorun.Text
