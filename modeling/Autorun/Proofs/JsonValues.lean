import Autorun.Proofs.JsonGrammar

namespace Autorun.Text.Json
open Lib List

/-! Numbers. -/

def NoDigit (s : List Char) : Prop := ∀ c ∈ s.head?, c.isDigit = false

theorem dropWhile_digits {ds : List Char} (hds : ∀ c ∈ ds, c.isDigit = true) (hr : NoDigit r) :
    (ds ++ r).dropWhile Char.isDigit = r := by
  rw [dropWhile_append_of_pos hds]
  cases r with
  | nil => rfl
  | cons c r =>
    have := hr c rfl
    exact dropWhile_cons_of_neg (by simp [this])

theorem digits_run {P : List Char → Bool} {c : Char} {t : List Char}
    (hP : ∀ r, P r = true → NoDigit r) :
    (c.isDigit && P (t.dropWhile Char.isDigit)) = true ↔
      ∃ ds r, c :: t = ds ++ r ∧ Digits ds ∧ P r = true := by
  rw [Bool.and_eq_true]
  constructor
  · rintro ⟨hc, hrest⟩
    refine ⟨c :: t.takeWhile Char.isDigit, _, ?_, ⟨nofun, ?_⟩, hrest⟩
    · rw [cons_append, takeWhile_append_dropWhile]
    · exact forall_mem_cons.mpr ⟨hc, fun d hd => mem_takeWhile_imp hd⟩
  · rintro ⟨ds, r, ht, ⟨hne, hds⟩, hr⟩
    cases ds with
    | nil => exact absurd rfl hne
    | cons d ds =>
      obtain ⟨rfl, htail⟩ := List.cons.inj ht
      obtain ⟨hd, hds⟩ := forall_mem_cons.mp hds
      rw [htail]
      exact ⟨hd, by rw [append_eq, dropWhile_digits hds (hP r hr)]; exact hr⟩

theorem ExpText.noDigit (h : ExpText s) : NoDigit s := by
  cases h with
  | absent => nofun
  | digits he =>
    intro c hc
    injection hc with hc
    subst hc
    rcases he with rfl | rfl <;> rfl

theorem exponent_iff : exponent t = true ↔ ExpText t := by
  have hrun : ∀ c t, (c.isDigit && decide (List.dropWhile Char.isDigit t = [])) = true ↔ Digits (c :: t) := by
    intro c t
    refine (digits_run (P := fun r => decide (r = [])) (t := t) ?_).trans ?_
    · intro r hr
      rw [of_decide_eq_true hr]
      nofun
    · constructor
      · rintro ⟨ds, r, ht, hds, hr⟩
        rw [of_decide_eq_true hr, append_nil] at ht
        exact ht ▸ hds
      · intro hds
        exact ⟨c :: t, [], by rw [append_nil], hds, rfl⟩
  cases t with
  | nil => exact iff_of_true rfl .absent
  | cons e t =>
    unfold exponent
    dsimp only
    constructor
    · intro h
      split at h
      case isFalse => cases h
      case isTrue he =>
        obtain ⟨sign, hsign, ht⟩ : ∃ sign, (sign = [] ∨ sign = ['+'] ∨ sign = ['-']) ∧
            t = sign ++ (if t.head? = some '+' ∨ t.head? = some '-' then t.tail else t) := by
          split
          case isTrue hs =>
            cases t with
            | nil => simp at hs
            | cons c t => exact ⟨[c], by simpa using hs, rfl⟩
          case isFalse => exact ⟨[], .inl rfl, rfl⟩
        generalize (if t.head? = some '+' ∨ t.head? = some '-' then t.tail else t) = u at h ht
        subst ht
        cases u with
        | nil => cases h
        | cons d u => exact .digits he hsign ((hrun d u).mp h)
    · intro h
      cases h with
      | @digits _ sign s he hsign hs =>
        rw [if_pos he]
        obtain ⟨d, ds, rfl⟩ := exists_cons_of_ne_nil hs.1
        have hd := hs.2 d mem_cons_self
        have hrest : (if (sign ++ d :: ds).head? = some '+' ∨ (sign ++ d :: ds).head? = some '-' then
            (sign ++ d :: ds).tail else sign ++ d :: ds) = d :: ds := by
          rcases hsign with rfl | rfl | rfl
          · refine if_neg ?_
            rintro (h | h) <;> injection h with h <;> subst h <;> cases hd
          · rfl
          · rfl
        rw [hrest]
        exact (hrun d ds).mpr hs

theorem FracText.noDigit (hf : FracText f) (he : ExpText e) : NoDigit (f ++ e) := by
  cases hf with
  | absent => exact he.noDigit
  | digits =>
    intro c hc
    injection hc with hc
    subst hc
    rfl

theorem fraction_iff : fraction t = true ↔ ∃ f e, t = f ++ e ∧ FracText f ∧ ExpText e := by
  have hexp : ∀ r, exponent r = true → NoDigit r := fun r hr => (exponent_iff.mp hr).noDigit
  by_cases hdot : ∃ u, t = '.' :: u
  · obtain ⟨u, rfl⟩ := hdot
    have hfrac : fraction ('.' :: u) = true ↔ ∃ ds r, u = ds ++ r ∧ Digits ds ∧ exponent r = true := by
      cases u with
      | nil =>
        refine ⟨nofun, ?_⟩
        rintro ⟨ds, r, hu, hds, -⟩
        exact absurd (append_eq_nil_iff.mp hu.symm).1 hds.1
      | cons d u => exact digits_run hexp
    rw [hfrac]
    constructor
    · rintro ⟨ds, r, rfl, hds, hr⟩
      exact ⟨'.' :: ds, r, rfl, .digits hds, exponent_iff.mp hr⟩
    · rintro ⟨f, e, ht, hf, he⟩
      cases hf with
      | absent =>
        subst ht
        cases he with
        | digits he => simp at he
      | digits hds => exact ⟨_, e, (List.cons.inj ht).2, hds, exponent_iff.mpr he⟩
  · have hfrac : fraction t = exponent t := by
      unfold fraction
      split
      · exact absurd ⟨_, rfl⟩ hdot
      · rfl
    rw [hfrac, exponent_iff]
    constructor
    · intro he
      exact ⟨[], t, rfl, .absent, he⟩
    · rintro ⟨f, e, rfl, hf, he⟩
      cases hf with
      | absent => exact he
      | digits => exact absurd ⟨_, rfl⟩ hdot

theorem number_iff : number t = true ↔ NumberText t := by
  have hfrac : ∀ r, fraction r = true → NoDigit r := by
    intro r hr
    obtain ⟨f, e, rfl, hf, he⟩ := fraction_iff.mp hr
    exact hf.noDigit he
  -- The number without its sign.
  have hbody : ∀ c u, (if c = '0' then fraction u else c.isDigit && fraction (u.dropWhile Char.isDigit)) = true ↔
      ∃ i f e, c :: u = i ++ (f ++ e) ∧ IntText i ∧ FracText f ∧ ExpText e := by
    intro c u
    split
    case isTrue hc =>
      subst hc
      rw [fraction_iff]
      constructor
      · rintro ⟨f, e, rfl, hf, he⟩
        exact ⟨['0'], f, e, rfl, .zero, hf, he⟩
      · rintro ⟨i, f, e, ht, hi, hf, he⟩
        cases hi with
        | zero => exact ⟨f, e, (List.cons.inj ht).2, hf, he⟩
        | digits hne => exact absurd (List.cons.inj ht).1.symm hne
    case isFalse hc =>
      rw [digits_run hfrac]
      constructor
      · rintro ⟨ds, r, ht, hds, hr⟩
        obtain ⟨f, e, rfl, hf, he⟩ := fraction_iff.mp hr
        obtain ⟨d, ds, rfl⟩ := exists_cons_of_ne_nil hds.1
        exact ⟨d :: ds, f, e, ht, .digits ((List.cons.inj ht).1 ▸ hc) hds, hf, he⟩
      · rintro ⟨i, f, e, ht, hi, hf, he⟩
        cases hi with
        | zero => exact absurd (List.cons.inj ht).1 hc
        | digits _ hds => exact ⟨_, f ++ e, ht, hds, fraction_iff.mpr ⟨f, e, rfl, hf, he⟩⟩
  unfold number
  constructor
  · intro h
    obtain ⟨sign, hsign, ht⟩ : ∃ sign, (sign = [] ∨ sign = ['-']) ∧
        t = sign ++ (if t.head? = some '-' then t.tail else t) := by
      split
      case isTrue hs =>
        cases t with
        | nil => cases hs
        | cons c t => exact ⟨[c], by simpa using hs, rfl⟩
      case isFalse => exact ⟨[], .inl rfl, rfl⟩
    generalize (if t.head? = some '-' then t.tail else t) = u at h ht
    subst ht
    cases u with
    | nil => cases h
    | cons c u =>
      obtain ⟨i, f, e, hu, hi, hf, he⟩ := (hbody c u).mp h
      rw [hu]
      exact .mk hsign hi hf he
  · rintro @⟨sign, i, f, e, hsign, hi, hf, he⟩
    obtain ⟨c, u, hc, rfl⟩ : ∃ c u, c ≠ '-' ∧ i = c :: u := by
      cases hi with
      | zero => exact ⟨'0', [], by decide, rfl⟩
      | digits _ hds =>
        refine ⟨_, _, ?_, rfl⟩
        rintro rfl
        exact absurd (hds.2 '-' mem_cons_self) (by decide)
    have hrest : (if (sign ++ (c :: u ++ (f ++ e))).head? = some '-' then
        (sign ++ (c :: u ++ (f ++ e))).tail else sign ++ (c :: u ++ (f ++ e))) = c :: (u ++ (f ++ e)) := by
      rcases hsign with rfl | rfl
      · refine if_neg fun h => hc ?_
        injection h
      · rfl
    rw [hrest]
    exact (hbody c _).mpr ⟨_, f, e, rfl, hi, hf, he⟩

/-! Words and numbers. -/

/-- The bytes that words and numbers are made of. -/
def bareChar (c : Char) : Bool := c.isAlphanum || c = '-' || c = '+' || c = '.'

theorem bareChar_ne (h : bareChar c = true) (hd : bareChar d = false) : c ≠ d := by
  rintro rfl
  rw [h] at hd
  cases hd

theorem bareChar_delimiter (h : bareChar c = true) : delimiter c = false := by
  have hne : ∀ d, bareChar d = false → c ≠ d := fun d hd => bareChar_ne h hd
  simp only [delimiter, strchr, mem_cons, not_mem_nil, or_false, decide_eq_false_iff_not, not_or]
  exact ⟨⟨hne _ rfl, hne _ rfl, hne _ rfl, hne _ rfl, hne _ rfl, hne _ rfl, hne _ rfl⟩, hne _ rfl⟩

theorem bareChar_digit (h : c.isDigit = true) : bareChar c = true := by
  simp [bareChar, Char.isAlphanum, h]

theorem NumberText.chars (h : NumberText s) : ∀ c ∈ s, bareChar c = true := by
  obtain ⟨hsign, hi, hf, he⟩ := h
  have hdigits : ∀ {s}, Digits s → ∀ c ∈ s, bareChar c = true := fun hs c hc => bareChar_digit (hs.2 c hc)
  simp only [forall_mem_append]
  refine ⟨?_, ?_, ?_, ?_⟩
  · rcases hsign with rfl | rfl
    · nofun
    · exact forall_mem_singleton.mpr rfl
  · cases hi with
    | zero => exact forall_mem_singleton.mpr rfl
    | digits _ hds => exact hdigits hds
  · cases hf with
    | absent => nofun
    | digits hds => exact forall_mem_cons.mpr ⟨rfl, hdigits hds⟩
  · cases he with
    | absent => nofun
    | digits he hsign hds =>
      refine forall_mem_cons.mpr ⟨?_, forall_mem_append.mpr ⟨?_, hdigits hds⟩⟩
      · rcases he with rfl | rfl <;> rfl
      · rcases hsign with rfl | rfl | rfl
        · nofun
        · exact forall_mem_singleton.mpr rfl
        · exact forall_mem_singleton.mpr rfl

theorem Bare.chars (h : Bare s) : ∀ c ∈ s, bareChar c = true := by
  cases h with
  | number hn => exact hn.chars
  | _ => exact all_eq_true.mp rfl

theorem Bare.ne_nil (h : Bare s) : s ≠ [] := by
  cases h with
  | number hn =>
    obtain ⟨-, hi, -, -⟩ := hn
    cases hi <;> simp
  | _ => nofun

def Ends (rest : List Char) : Prop := ∀ c ∈ rest.head?, delimiter c = true

theorem takeWhile_bare (hv : ∀ c ∈ v, bareChar c = true) (hr : Ends rest) :
    (v ++ rest).takeWhile (!delimiter ·) = v ∧ (v ++ rest).dropWhile (!delimiter ·) = rest := by
  have hpass : ∀ c ∈ v, (!delimiter c) = true := fun c hc => by rw [bareChar_delimiter (hv c hc)]; rfl
  rw [takeWhile_append_of_pos hpass, dropWhile_append_of_pos hpass]
  cases rest with
  | nil => exact ⟨append_nil v, rfl⟩
  | cons c rest =>
    have hstop : delimiter c = true := hr c rfl
    simp [hstop]

theorem ends_dropWhile (text : List Char) : Ends (text.dropWhile (!delimiter ·)) := by
  intro c hc
  have hhead := List.head?_dropWhile_not (!delimiter ·) text
  rw [Option.mem_def.mp hc] at hhead
  simpa using hhead

theorem skipToken_sat (text : List Char) :
    (skipToken text).Sat fun rest => ∃ v, text = v ++ rest ∧ Bare v ∧ Ends rest := by
  unfold skipToken
  dsimp only
  have htext : text = text.takeWhile (!delimiter ·) ++ text.dropWhile (!delimiter ·) :=
    takeWhile_append_dropWhile.symm
  have hends := ends_dropWhile text
  generalize text.takeWhile (!delimiter ·) = token at htext
  generalize text.dropWhile (!delimiter ·) = r at htext hends
  split
  · trivial
  split
  case isTrue hword =>
    rcases hword with rfl | rfl
    · exact ⟨_, htext, .wordTrue, hends⟩
    · exact ⟨_, htext, .wordNull, hends⟩
  split
  case isTrue hword => exact ⟨_, htext, hword ▸ .wordFalse, hends⟩
  split
  case isTrue hnumber => exact ⟨_, htext, .number (number_iff.mp hnumber), hends⟩
  case isFalse => trivial

theorem skipToken_complete (hv : Bare v) (hr : Ends rest) : skipToken (v ++ rest) = .found rest := by
  obtain ⟨htake, hdrop⟩ := takeWhile_bare hv.chars hr
  unfold skipToken
  dsimp only
  rw [htake, hdrop, if_neg hv.ne_nil]
  cases hv with
  | wordTrue => rfl
  | wordNull => rfl
  | wordFalse => rfl
  | number hn =>
    split
    · rfl
    split
    · rfl
    · exact if_pos (number_iff.mpr hn)

/-! Compounds, for any reader of the values in them. -/

/-- A value behind whitespace, and what follows it. -/
def ValueAt (V : List Char → Prop) (text rest : List Char) : Prop :=
  ∃ w v, text = w ++ (v ++ rest) ∧ Blank w ∧ V v ∧ (Bare v → Ends rest)

/-- The reader skips just the values of `V`, where it passes no NUL byte. -/
structure Reads (value : List Char → Read (List Char)) (V : List Char → Prop) : Prop where
  sat : ∀ text, (value text).Sat fun rest => rest.length < text.length ∧ Passes text rest (ValueAt V text rest)
  complete : ∀ text rest, ValueAt V text rest → value text = .found rest
  starts : ∀ v, V v → ∃ c r, v = c :: r ∧ isSpace c = false ∧ c ≠ '}' ∧ c ≠ ']'

theorem consume_sat (c : Char) (text : List Char) : (consume c text).Sat fun rest => whitespace text = c :: rest := by
  unfold consume
  split
  · trivial
  · rename_i d t ht
    split
    · trivial
    · rename_i hd
      rw [ht, show d = c by simpa using hd]
      rfl

theorem skipName_sat (text : List Char) : (skipName text).Sat fun rest =>
    rest.length < text.length ∧ Passes text rest (∃ k, text = k ++ rest ∧ Name k) := by
  unfold skipName
  refine (skipString_sat text).elim trivial ?_
  rintro t ⟨hshort, hstring⟩
  dsimp only
  refine (consume_sat ':' t).elim trivial ?_
  intro rest ht
  obtain ⟨w', hw', rfl⟩ := whitespace_eq_cons ht
  have hcolon : Passes (w' ++ ':' :: rest) rest True := .of_eq (s := w' ++ [':']) (by simp) trivial
  refine ⟨by simp at hshort; omega, (hstring.trans hcolon).imp ?_⟩
  rintro ⟨⟨items, w, s, rfl, hw, hstring⟩, -⟩
  exact ⟨w ++ (s ++ (w' ++ [':'])), by simp, .mk hw hstring hw'⟩

theorem skipName_complete (h : Name k) (rest : List Char) : skipName (k ++ rest) = .found rest := by
  obtain @⟨w, s, items, w', hw, hstring, hw'⟩ := h
  have happ : w ++ (s ++ (w' ++ [':'])) ++ rest = w ++ (s ++ (w' ++ ':' :: rest)) := by simp
  rw [happ, skipName, skipString_complete ⟨w, s, rfl, hw, hstring⟩]
  simp [consume, whitespace_append hw', whitespace_cons (c := ':') rfl]

/-- The name that a compound asks for before each value. -/
def NameFor (close : Char) (k : List Char) : Prop := if close = '}' then Name k else k = []

theorem name_sat (close : Char) (text : List Char) :
    (if close = '}' then skipName text else .found text : Read (List Char)).Sat fun rest =>
      rest.length ≤ text.length ∧ Passes text rest (∃ k, text = k ++ rest ∧ NameFor close k) := by
  unfold NameFor
  split
  · exact (skipName_sat text).elim trivial fun rest h => ⟨Nat.le_of_lt h.1, h.2⟩
  · exact ⟨Nat.le_refl _, .of_eq (s := []) rfl ⟨[], rfl, rfl⟩⟩

theorem name_complete {close : Char} (h : NameFor close k) (rest : List Char) :
    (if close = '}' then skipName (k ++ rest) else .found (k ++ rest)) = .found rest := by
  unfold NameFor at h
  split at h
  case isTrue hc => exact (if_pos hc).trans (skipName_complete h rest)
  case isFalse hc =>
    rw [if_neg hc, h]
    rfl

abbrev ItemFor (V : List Char → Prop) (close : Char) : List Char → Prop :=
  if close = '}' then Member V else Element V

theorem itemFor_iff {close : Char} :
    ItemFor V close s ↔ ∃ k e, s = k ++ e ∧ NameFor close k ∧ Element V e := by
  unfold ItemFor NameFor
  split
  case isTrue =>
    constructor
    · rintro ⟨hk, he⟩
      exact ⟨_, _, rfl, hk, he⟩
    · rintro ⟨k, e, rfl, hk, he⟩
      exact .mk hk he
  case isFalse =>
    constructor
    · intro he
      exact ⟨[], s, rfl, rfl, he⟩
    · rintro ⟨_, e, rfl, rfl, he⟩
      exact he

section Loop

variable {value : List Char → Read (List Char)} {V : List Char → Prop} {close : Char}

theorem compoundLoop_sat (hr : Reads value V) (hturns : text.length < turns) :
    (compoundLoop value close turns text).Sat fun rest => rest.length < text.length ∧
      Passes text rest (∃ s, text = s ++ close :: rest ∧ Separated (ItemFor V close) s) := by
  induction turns generalizing text with
  | zero => omega
  | succ turns ih =>
    unfold compoundLoop
    refine (name_sat close text).elim trivial ?_
    rintro t ⟨hle, hname⟩
    dsimp only
    refine (hr.sat t).elim trivial ?_
    rintro t' ⟨hlt, hvalue⟩
    dsimp only
    split
    case h_1 => trivial
    case h_2 c u hu =>
      obtain ⟨w', hw', rfl⟩ := whitespace_eq_cons hu
      rw [length_append, length_cons] at hlt
      have hitem : Passes text u (∃ s, text = s ++ c :: u ∧ ItemFor V close s) := by
        refine ((hname.trans hvalue).trans (.of_eq (s := w' ++ [c]) (by simp) trivial)).imp ?_
        rintro ⟨⟨⟨k, rfl, hk⟩, w, v, rfl, hw, hv, -⟩, -⟩
        exact ⟨k ++ (w ++ (v ++ w')), by simp, itemFor_iff.mpr ⟨k, _, rfl, hk, .mk hw hv hw'⟩⟩
      split
      case isTrue hc =>
        refine ⟨by omega, hitem.imp ?_⟩
        rintro ⟨s, hs, hone⟩
        exact ⟨s, hc ▸ hs, .one hone⟩
      case isFalse =>
        split
        case isTrue => trivial
        case isFalse hcomma =>
          have hcomma : c = ',' := by simpa using hcomma
          refine (@ih u (by omega)).elim trivial ?_
          rintro rest ⟨hshort, hmore⟩
          refine ⟨by omega, (hitem.trans hmore).imp ?_⟩
          rintro ⟨⟨s, rfl, hs⟩, t, rfl, ht⟩
          exact ⟨s ++ ',' :: t, by rw [hcomma]; simp, .more hs ht⟩

theorem ends_blank (hw : Blank w) (hc : delimiter c = true) (r : List Char) : Ends (w ++ c :: r) := by
  intro d hd
  cases w with
  | nil =>
    injection hd with hd
    rwa [← hd]
  | cons e w =>
    injection hd with hd
    have he := hw e mem_cons_self
    rw [← hd]
    simp only [isSpace, decide_eq_true_eq] at he
    rcases he with rfl | rfl | rfl | rfl <;> rfl

/-- The loop passes an item and goes on with what stands behind it. -/
theorem compoundLoop_item (hr : Reads value V) (hitem : ItemFor V close s) (hc : isSpace c = false)
    (hd : delimiter c = true) (rest : List Char) :
    compoundLoop value close (turns + 1) (s ++ c :: rest) =
      if c = close then .found rest else if c ≠ ',' then .nothing else compoundLoop value close turns rest := by
  obtain ⟨k, _, rfl, hk, @⟨w, v, w', hw, hv, hw'⟩⟩ := itemFor_iff.mp hitem
  have happ : k ++ (w ++ (v ++ w')) ++ c :: rest = k ++ (w ++ (v ++ (w' ++ c :: rest))) := by simp
  have hvalue : value (w ++ (v ++ (w' ++ c :: rest))) = .found (w' ++ c :: rest) :=
    hr.complete _ _ ⟨w, v, rfl, hw, hv, fun _ => ends_blank hw' hd rest⟩
  rw [happ, compoundLoop, name_complete hk]
  dsimp only
  rw [hvalue]
  dsimp only
  rw [whitespace_append hw', whitespace_cons hc]

theorem compoundLoop_complete (hr : Reads value V) (hclose : close = '}' ∨ close = ']')
    (hs : Separated (ItemFor V close) s) (hturns : s.length < turns) (rest : List Char) :
    compoundLoop value close turns (s ++ close :: rest) = .found rest := by
  have hspace : isSpace close = false := by rcases hclose with rfl | rfl <;> rfl
  have hdelim : delimiter close = true := by rcases hclose with rfl | rfl <;> rfl
  induction hs generalizing turns with
  | one hitem =>
    cases turns with
    | zero => cases hturns
    | succ turns => rw [compoundLoop_item hr hitem hspace hdelim, if_pos rfl]
  | @more s t hitem _ ih =>
    cases turns with
    | zero => cases hturns
    | succ turns =>
      have hcomma : ¬ ',' = close := by rcases hclose with rfl | rfl <;> decide
      have happ : s ++ ',' :: t ++ close :: rest = s ++ ',' :: (t ++ close :: rest) := by simp
      rw [happ, compoundLoop_item hr hitem rfl rfl, if_neg hcomma, if_neg (by decide)]
      refine ih ?_
      rw [length_append, length_cons] at hturns
      omega

theorem Blank.append (h : Blank w) (h' : Blank w') : Blank (w ++ w') :=
  fun c hc => (mem_append.mp hc).elim (h c) (h' c)

theorem Name.blank_append (hw : Blank w) (h : Name k) : Name (w ++ k) := by
  obtain @⟨w1, s, items, w2, hw1, hs, hw2⟩ := h
  rw [← append_assoc]
  exact .mk (hw.append hw1) hs hw2

theorem Element.blank_append (hw : Blank w) (h : Element V e) : Element V (w ++ e) := by
  obtain @⟨w1, v, w2, hw1, hv, hw2⟩ := h
  rw [← append_assoc]
  exact .mk (hw.append hw1) hv hw2

theorem itemFor_blank_append (hw : Blank w) (h : ItemFor V close s) : ItemFor V close (w ++ s) := by
  obtain ⟨k, e, rfl, hk, he⟩ := itemFor_iff.mp h
  unfold NameFor at hk
  split at hk
  case isTrue hc =>
    refine itemFor_iff.mpr ⟨w ++ k, e, (append_assoc ..).symm, ?_, he⟩
    unfold NameFor
    rw [if_pos hc]
    exact hk.blank_append hw
  case isFalse hc =>
    rw [hk, nil_append]
    refine itemFor_iff.mpr ⟨[], w ++ e, rfl, ?_, he.blank_append hw⟩
    unfold NameFor
    rw [if_neg hc]

theorem Separated.blank_append (hw : Blank w) (hs : Separated (ItemFor V close) s) :
    Separated (ItemFor V close) (w ++ s) := by
  cases hs with
  | one h => exact .one (itemFor_blank_append hw h)
  | more h ht =>
    rw [← append_assoc]
    exact .more (itemFor_blank_append hw h) ht

theorem Name.first (h : Name k) : ∃ w t, k = w ++ '"' :: t ∧ Blank w ∧ Name ('"' :: t) := by
  obtain @⟨w, _, items, w', hw, ⟨hs⟩, hw'⟩ := h
  have hnone : Blank [] := nofun
  exact ⟨w, _, rfl, hw, .mk hnone (.mk hs) hw'⟩

/-- An item begins, behind whitespace, with a byte that does not end the compound. -/
theorem itemFor_first (hr : Reads value V) (hclose : close = '}' ∨ close = ']')
    (h : ItemFor V close s) :
    ∃ w c t, s = w ++ c :: t ∧ Blank w ∧ isSpace c = false ∧ c ≠ close ∧ ItemFor V close (c :: t) := by
  obtain ⟨k, e, rfl, hk, he⟩ := itemFor_iff.mp h
  unfold NameFor at hk
  split at hk
  case isTrue hc =>
    obtain ⟨w, t, rfl, hw, hname⟩ := hk.first
    refine ⟨w, '"', t ++ e, append_assoc .., hw, rfl, by rw [hc]; decide, ?_⟩
    refine itemFor_iff.mpr ⟨'"' :: t, e, rfl, ?_, he⟩
    unfold NameFor
    rwa [if_pos hc]
  case isFalse hc =>
    obtain @⟨w, v, w', hw, hv, hw'⟩ := he
    obtain ⟨c, r, rfl, hspace, hc1, hc2⟩ := hr.starts v hv
    refine ⟨w, c, r ++ w', by rw [hk]; rfl, hw, hspace, ?_, ?_⟩
    · rcases hclose with rfl | rfl
      · exact hc1
      · exact hc2
    · have hbare : Element V ([] ++ (c :: r ++ w')) := .mk nofun hv hw'
      refine itemFor_iff.mpr ⟨[], _, rfl, ?_, hbare⟩
      unfold NameFor
      rw [if_neg hc]

theorem Separated.first (hr : Reads value V) (hclose : close = '}' ∨ close = ']')
    (hs : Separated (ItemFor V close) s) :
    ∃ w c t, s = w ++ c :: t ∧ Blank w ∧ isSpace c = false ∧ c ≠ close ∧
      Separated (ItemFor V close) (c :: t) := by
  cases hs with
  | one h =>
    obtain ⟨w, c, t, rfl, hw, hc, hne, ht⟩ := itemFor_first hr hclose h
    exact ⟨w, c, t, rfl, hw, hc, hne, .one ht⟩
  | @more s u h hu =>
    obtain ⟨w, c, t, rfl, hw, hc, hne, ht⟩ := itemFor_first hr hclose h
    exact ⟨w, c, t ++ ',' :: u, by simp, hw, hc, hne, .more ht hu⟩

theorem skipCompound_sat (hr : Reads value V) (text : List Char) : (skipCompound value close text).Sat fun rest =>
    rest.length ≤ text.length ∧ Passes text rest (∃ s, text = s ++ close :: rest ∧ Inside V close s) := by
  obtain ⟨w, hw, htext⟩ := exists_blank text
  have hle := whitespace_length_le text
  unfold skipCompound
  dsimp only
  split
  case isTrue hhead =>
    have ht : text = w ++ close :: (whitespace text).tail := by rw [cons_head?_tail hhead, ← htext]
    exact ⟨by rw [length_tail]; omega, .of_eq (s := w ++ [close]) (by simpa using ht) ⟨w, ht, .inl hw⟩⟩
  case isFalse =>
    refine (compoundLoop_sat hr (Nat.lt_succ_self _)).elim trivial ?_
    rintro rest ⟨hshort, hpass⟩
    refine ⟨by omega, (hpass.imp ?_).blank⟩
    rintro ⟨s, hs, hsep⟩
    exact ⟨w ++ s, by rw [append_assoc, ← hs, ← htext], .inr (hsep.blank_append hw)⟩

theorem skipCompound_complete (hr : Reads value V) (hclose : close = '}' ∨ close = ']')
    (h : Inside V close s) (rest : List Char) :
    skipCompound value close (s ++ close :: rest) = .found rest := by
  have hspace : isSpace close = false := by rcases hclose with rfl | rfl <;> rfl
  unfold skipCompound
  rcases h with hblank | hsep
  · rw [whitespace_append hblank, whitespace_cons hspace]
    exact if_pos rfl
  · obtain ⟨w, c, t, rfl, hw, hc, hne, ht⟩ := Separated.first hr hclose hsep
    rw [append_assoc, cons_append, whitespace_append hw, whitespace_cons hc,
      if_neg (by simpa using hne)]
    refine compoundLoop_complete hr hclose ht ?_ rest
    simp only [length_cons, length_append]
    omega

end Loop

/-! Values, by how deep they may nest. -/

theorem value_iff : Value n s ↔
    (∃ items, StringText s items) ∨ Bare s ∨ ∃ m, n = m + 1 ∧ Compound (Value m) s := by
  cases n with
  | zero => simp [Value]
  | succ n => simp [Value]

theorem bareChar_space (h : bareChar c = true) : isSpace c = false := by
  rw [← Bool.not_eq_true]
  intro hc
  simp only [isSpace, decide_eq_true_eq] at hc
  rcases hc with rfl | rfl | rfl | rfl <;> revert h <;> decide

theorem Bare.first (h : Bare v) : ∃ c r, v = c :: r ∧ bareChar c = true := by
  obtain ⟨c, r, rfl⟩ := exists_cons_of_ne_nil h.ne_nil
  exact ⟨c, r, rfl, h.chars c mem_cons_self⟩

theorem not_bare_cons (hc : bareChar c = false) : ¬ Bare (c :: r) := by
  intro h
  rw [h.chars c mem_cons_self] at hc
  cases hc

theorem ne_quote (h : c = '{' ∨ c = '[') : c ≠ '"' := by
  rcases h with rfl | rfl <;> decide

theorem Value.starts (h : Value n v) : ∃ c r, v = c :: r ∧ isSpace c = false ∧ c ≠ '}' ∧ c ≠ ']' := by
  obtain ⟨_, ⟨-⟩⟩ | hbare | ⟨m, -, ⟨-⟩ | ⟨-⟩⟩ := value_iff.mp h
  · exact ⟨'"', _, rfl, rfl, by decide, by decide⟩
  · obtain ⟨c, r, rfl, hc⟩ := hbare.first
    exact ⟨c, r, rfl, bareChar_space hc, bareChar_ne hc (by decide), bareChar_ne hc (by decide)⟩
  · exact ⟨'{', _, rfl, rfl, by decide, by decide⟩
  · exact ⟨'[', _, rfl, rfl, by decide, by decide⟩

/-- What ends the compound that a bracket opens. -/
def closing (c : Char) : Char := if c = '{' then '}' else ']'

theorem closing_cases (c : Char) : closing c = '}' ∨ closing c = ']' := by
  unfold closing
  split
  · exact .inl rfl
  · exact .inr rfl

theorem compound_iff : Compound V v ↔
    ∃ c s, (c = '{' ∨ c = '[') ∧ v = c :: (s ++ [closing c]) ∧ Inside V (closing c) s := by
  constructor
  · rintro (⟨h⟩ | ⟨h⟩)
    · exact ⟨'{', _, .inl rfl, rfl, h⟩
    · exact ⟨'[', _, .inr rfl, rfl, h⟩
  · rintro ⟨c, s, rfl | rfl, rfl, h⟩
    · exact .object h
    · exact .array h

/-- What `skip_value` does at the first byte of a value, one case for each kind of value. -/
inductive Nested (n : Nat) (c : Char) (t : List Char) : Read (List Char) → Prop
  | string : c = '"' → Nested n c t (skipString (c :: t))
  | deep : c = '{' ∨ c = '[' → n = 0 → Nested n c t .nothing
  | compound : c = '{' ∨ c = '[' → n = m + 1 → Nested n c t (skipCompound (skipNested m) (closing c) t)
  | token : c ≠ '"' → ¬ (c = '{' ∨ c = '[') → Nested n c t (skipToken (c :: t))

theorem skipNested_cases (h : whitespace text = c :: t) : Nested n c t (skipNested n text) := by
  unfold skipNested
  rw [h]
  dsimp only
  split
  case isTrue hc => exact .string hc
  case isFalse hc =>
    split
    case isTrue hopen =>
      cases n with
      | zero => exact .deep hopen rfl
      | succ m => exact .compound hopen rfl
    case isFalse hopen => exact .token hc hopen

section Nested

variable (hr : ∀ m, n = m + 1 → Reads (skipNested m) (Value m))

include hr

theorem skipNested_sat (text : List Char) : (skipNested n text).Sat fun rest =>
    rest.length < text.length ∧ Passes text rest (ValueAt (Value n) text rest) := by
  have hle := whitespace_length_le text
  cases hw : whitespace text with
  | nil =>
    unfold skipNested
    rw [hw]
    trivial
  | cons c t =>
    rw [hw] at hle
    have hcases := @skipNested_cases text c t n hw
    generalize skipNested n text = result at hcases ⊢
    obtain ⟨w, hblank, rfl⟩ := whitespace_eq_cons hw
    have hfirst : Passes (w ++ c :: t) (c :: t) True := .of_eq rfl trivial
    cases hcases with
    | string =>
      refine (skipString_sat (c :: t)).elim trivial ?_
      rintro rest ⟨hshort, hpass⟩
      refine ⟨by omega, (hfirst.trans hpass).imp ?_⟩
      rintro ⟨-, items, w', s, hs, hw', hstring⟩
      refine ⟨w ++ w', s, by rw [hs, append_assoc], hblank.append hw', value_iff.mpr (.inl ⟨items, hstring⟩), ?_⟩
      obtain ⟨-⟩ := hstring
      exact fun hbare => absurd hbare (not_bare_cons rfl)
    | deep => trivial
    | @compound m hopen hn =>
      refine (skipCompound_sat (hr m hn) t).elim trivial ?_
      rintro rest ⟨hshort, hpass⟩
      rw [length_cons] at hle
      refine ⟨by omega, ((hfirst.trans (.of_eq (s := [c]) rfl trivial)).trans hpass).imp ?_⟩
      rintro ⟨-, s, rfl, hs⟩
      refine ⟨w, c :: (s ++ [closing c]), by simp, hblank, ?_, fun hbare => ?_⟩
      · exact value_iff.mpr (.inr (.inr ⟨m, hn, compound_iff.mpr ⟨c, s, hopen, rfl, hs⟩⟩))
      · rcases hopen with rfl | rfl
        · exact absurd hbare (not_bare_cons rfl)
        · exact absurd hbare (not_bare_cons rfl)
    | token =>
      refine (skipToken_sat (c :: t)).elim trivial ?_
      rintro rest ⟨v, hv, hbare, hends⟩
      have hlen := length_pos_iff.mpr hbare.ne_nil
      have hsplit := congrArg List.length hv
      rw [length_append] at hsplit
      refine ⟨by omega, hfirst.trans (.of_eq hv trivial) |>.imp fun _ => ?_⟩
      exact ⟨w, v, by rw [hv], hblank, value_iff.mpr (.inr (.inl hbare)), fun _ => hends⟩

theorem skipNested_complete (h : ValueAt (Value n) text rest) : skipNested n text = .found rest := by
  obtain ⟨w, v, rfl, hblank, hv, hends⟩ := h
  obtain ⟨c, r, rfl, hc, -, -⟩ := hv.starts
  have hw : whitespace (w ++ (c :: r ++ rest)) = c :: (r ++ rest) := by
    rw [whitespace_append hblank, cons_append, whitespace_cons hc]
  have hcases := @skipNested_cases _ c (r ++ rest) n hw
  generalize skipNested n (w ++ (c :: r ++ rest)) = result at hcases ⊢
  obtain ⟨items, hs⟩ | hbare | ⟨m, hm, hcomp⟩ := value_iff.mp hv
  · have hq : c = '"' := by
      generalize hl : c :: r = l at hs
      obtain ⟨-⟩ := hs
      exact (List.cons.inj hl).1
    cases hcases with
    | string => exact skipString_complete ⟨[], c :: r, rfl, nofun, hs⟩
    | deep hopen => exact absurd hq (ne_quote hopen)
    | compound hopen => exact absurd hq (ne_quote hopen)
    | token hne => exact absurd hq hne
  · have hchar := hbare.chars c mem_cons_self
    have hopen : ¬ (c = '{' ∨ c = '[') := fun h =>
      h.elim (bareChar_ne hchar (by decide)) (bareChar_ne hchar (by decide))
    cases hcases with
    | string hq => exact absurd hq (bareChar_ne hchar (by decide))
    | deep h => exact absurd h hopen
    | compound h => exact absurd h hopen
    | token => exact skipToken_complete hbare (hends hbare)
  · obtain ⟨d, s, hopen, heq, hs⟩ := compound_iff.mp hcomp
    obtain ⟨rfl, rfl⟩ := List.cons.inj heq
    cases hcases with
    | string hq => exact absurd hq (ne_quote hopen)
    | deep _ hn => omega
    | @compound m' _ hn =>
      obtain rfl : m = m' := by omega
      rw [append_assoc]
      exact skipCompound_complete (hr m hm) (closing_cases c) hs rest
    | token _ h => exact absurd hopen h

theorem skipNested_reads_of : Reads (skipNested n) (Value n) where
  sat := skipNested_sat hr
  complete _ _ := skipNested_complete hr
  starts _ := Value.starts

end Nested

/-- At each depth the reader takes just the values nested that deep. -/
theorem skipNested_reads (n : Nat) : Reads (skipNested n) (Value n) := by
  induction n with
  | zero => exact skipNested_reads_of nofun
  | succ n ih =>
    refine skipNested_reads_of fun m hm => ?_
    obtain rfl : n = m := by omega
    exact ih

/-! The words and numbers that are read for their value. -/

theorem memcmp_found (h : s.length ≤ text.length) : ∃ b, memcmp text s = .found b :=
  ⟨_, if_neg (Nat.not_lt.mpr h)⟩

theorem jsonBool_ne_past (text : List Char) : jsonBool text ≠ .past := by
  have hword : ∀ s : List Char, ∃ b,
      (if s.length ≤ (whitespace text).length then memcmp (whitespace text) s else .found false) = .found b := by
    intro s
    split
    case isTrue h => exact memcmp_found h
    case isFalse => exact ⟨false, rfl⟩
  obtain ⟨b, hb⟩ := hword ['t', 'r', 'u', 'e']
  obtain ⟨b', hb'⟩ := hword ['f', 'a', 'l', 's', 'e']
  unfold jsonBool
  simp only [hb, hb']
  cases b
  · cases b' <;> nofun
  · nofun

theorem jsonNull_ne_past (text : List Char) : jsonNull text ≠ .past := by
  unfold jsonNull
  dsimp only
  split
  case isTrue => nofun
  case isFalse hlen =>
    obtain ⟨b, hb⟩ := memcmp_found (s := ['n', 'u', 'l', 'l']) (Nat.not_lt.mp hlen)
    rw [hb]
    cases b <;> nofun

theorem jsonUint_ne_past (text : List Char) : jsonUint text ≠ .past := by
  unfold jsonUint
  split
  · nofun
  · split
    · nofun
    split
    · nofun
    · split
      · nofun
      · split <;> nofun

/-! The whole reader. -/

/-- The reader stays in the buffer. `skip_value` takes each value of the grammar and stops at its end, and takes
nothing else unless it passes a NUL byte. The two string readers go by the same strings. -/
theorem reader_accepts_json (depth size : Nat) (text : List Char) :
    (skipValue depth text ≠ .past ∧ skipString text ≠ .past ∧ jsonString size text ≠ .past ∧
      jsonBool text ≠ .past ∧ jsonNull text ≠ .past ∧ jsonUint text ≠ .past) ∧
    ∀ rest,
      (ValueAt (Value (32 - depth)) text rest → skipValue depth text = .found rest) ∧
      (skipValue depth text = .found rest → Passes text rest (ValueAt (Value (32 - depth)) text rest)) ∧
      (∀ items, StringAt text items rest → skipString text = .found rest) ∧
      (skipString text = .found rest → Passes text rest (∃ items, StringAt text items rest)) ∧
      ∀ out, jsonString size text = .found (out, rest) ↔
        ∃ items, StringAt text items rest ∧ Fits size 0 items out := by
  have hvalue := skipNested_reads (32 - depth)
  constructor
  · exact ⟨(hvalue.sat text).ne_past, (skipString_sat text).ne_past, (jsonString_sat size text).ne_past,
      jsonBool_ne_past text, jsonNull_ne_past text, jsonUint_ne_past text⟩
  · intro rest
    refine ⟨hvalue.complete text rest, fun h => ((hvalue.sat text).of_found h).2, fun _ => skipString_complete,
      fun h => ((skipString_sat text).of_found h).2, fun out => ⟨(jsonString_sat size text).of_found, ?_⟩⟩
    rintro ⟨items, hat, hfits⟩
    exact jsonString_complete hat hfits

theorem no_string_at_nul_escape : ¬ StringAt ['"', '\\', '\x00', '"'] items rest := by
  intro h
  obtain ⟨s, ht, hs⟩ := stringAt_iff.mp h
  have ht : ['\\', '\x00', '"'] = s ++ '"' :: rest := (List.cons.inj ht).2
  cases hs with
  | nil => exact absurd (List.cons.inj ht).1 (by decide)
  | byte _ _ hslash => exact hslash (List.cons.inj ht).1.symm
  | @escape e n s items he =>
    have ht : ['\x00', '"'] = e ++ s ++ '"' :: rest := (List.cons.inj ht).2
    have hhead := he.head_ne (s ++ '"' :: rest)
    rw [← append_assoc, ← ht] at hhead
    exact hhead rfl

/-- A NUL byte behind a backslash is skipped, though no string holds it. The escape for a NUL byte is skipped
and never read. A number with a letter behind it is refused. -/
theorem reader_and_grammar_differ :
    (skipValue 0 ['"', '\\', '\x00', '"'] = .found [] ∧
      (∀ items rest, ¬ StringAt ['"', '\\', '\x00', '"'] items rest) ∧
      ∀ size, jsonString size ['"', '\\', '\x00', '"'] = .nothing) ∧
    (skipValue 0 ['"', '\\', 'u', '0', '0', '0', '0', '"'] = .found [] ∧
      ∀ size, jsonString size ['"', '\\', 'u', '0', '0', '0', '0', '"'] = .nothing) ∧
    Value 32 ['1'] ∧ skipValue 0 ['1', 'x'] = .nothing := by
  refine ⟨⟨by decide, fun _ _ => no_string_at_nul_escape, ?_⟩, ⟨by decide, ?_⟩, ?_, by decide⟩
  · rintro (_ | size) <;> rfl
  · rintro (_ | size) <;> rfl
  · exact value_iff.mpr (.inr (.inl (.number (number_iff.mp (by decide)))))

end Autorun.Text.Json
