import Autorun.Text.Config

namespace Autorun.Text.Config
open Lib List

def Blank (w : List Char) : Prop := ∀ c ∈ w, isSpace c

/-- The inside of a string, its escapes complete. -/
inductive Items : List Char → Prop
  | nil : Items []
  | plain : c ≠ '"' → c ≠ '\\' → Items s → Items (c :: s)
  | escape : Items s → Items ('\\' :: c :: s)

/-- The characters that the inside of a string stands for. -/
def decode : List Char → List Char
  | '\\' :: c :: s => unescape c :: decode s
  | c :: s => c :: decode s
  | [] => []

def opening (c : Char) : Bool := c = '[' ∨ c = '{'

def closing (c : Char) : Bool := c = ']' ∨ c = '}'

/-- Wherever a bracket is closed or a comma stands, inside strings too, one is still open of the
brackets of the text and of `d` before it. -/
def Within (d : Nat) (v : List Char) : Prop :=
  ∀ p c s, v = p ++ c :: s → closing c ∨ c = ',' → p.countP closing < d + p.countP opening

/-- The brackets match, those inside strings counted too, and no comma stands outside of them. -/
def Level (v : List Char) : Prop := Within 0 v ∧ v.countP opening = v.countP closing

/-- How deep a value is nested after the text, unless the value ends within it. -/
def depthAfter : Nat → List Char → Option Nat
  | depth, [] => some depth
  | depth, c :: rest =>
    if c = '[' ∨ c = '{' then depthAfter (depth + 1) rest
    else if c = ']' ∨ c = '}' then
      if depth = 0 then none else depthAfter (depth - 1) rest
    else if c = ',' ∧ depth = 0 then none
    else depthAfter depth rest

/-- The text of a value as an entry holds it. -/
inductive Value : List Char → Prop
  | string : Items s → Value ('"' :: (s ++ ['"']))
  | other : isSpace c = false → c ≠ '"' → Level (c :: v) →
      (c :: v).rdropWhile isSpace = c :: v → Value (c :: v)

inductive KeyText : List Char → List Char → Prop
  | mk : Blank w₁ → Items k → Blank w₂ → Blank w₃ →
      KeyText (w₁ ++ '"' :: (k ++ '"' :: (w₂ ++ ':' :: w₃))) (decode k)

/-- The text of an entry, up to the comma or the brace behind it. -/
inductive EntryText : List Char → Entry → Prop
  | mk : KeyText t e.key → Value e.value → e.value.length < valueSize → Blank w →
      EntryText (t ++ (e.value ++ w)) e

/-- The text of an object behind its opening brace, its keys in full. -/
inductive Body : List Char → List Entry → Prop
  | close : Blank w → Body (w ++ '}' :: r) []
  | last : EntryText t e → Body (t ++ '}' :: r) [e]
  | more : EntryText t e → Body r es → Body (t ++ ',' :: r) (e :: es)

/-- An object that ends in a string right after a backslash, behind its opening brace and with room
for `left` more entries. -/
inductive OpenBody : Nat → List Char → Prop
  | key : Blank w → Items k → OpenBody (left + 1) (w ++ '"' :: (k ++ ['\\']))
  | value : KeyText t k → Items s → OpenBody (left + 1) (t ++ '"' :: (s ++ ['\\']))
  | more : EntryText t e → OpenBody left r → OpenBody (left + 1) (t ++ ',' :: r)

def Entry.stored (size : Nat) (e : Entry) : Entry := ⟨e.key.take (size - 1), e.value⟩

theorem space_append {w : List Char} (h : Blank w) (t : List Char) : space (w ++ t) = space t :=
  dropWhile_append_of_pos h

variable {c : Char}

theorem space_cons (h : isSpace c = false) (t : List Char) : space (c :: t) = c :: t := by
  simp [space, h]

theorem exists_blank (t : List Char) : ∃ w, Blank w ∧ t = w ++ space t :=
  ⟨t.takeWhile isSpace, fun _ hc => mem_takeWhile_imp hc, takeWhile_append_dropWhile.symm⟩

/-! Strings. -/

theorem stringLoop_plain (hq : c ≠ '"') (hb : c ≠ '\\') (t : List Char) :
    stringLoop (c :: t) = (stringLoop t).map fun (s, r) => (c :: s, r) := by
  rw [stringLoop.eq_4 _ _ (by simp [hb]) (by simp [hb]), if_neg hq]

theorem decode_plain (hb : c ≠ '\\') (t : List Char) : decode (c :: t) = c :: decode t := by
  cases t <;> simp [decode, hb]

theorem stringLoop_items {s : List Char} (h : Items s) (t : List Char) :
    stringLoop (s ++ '"' :: t) = .found (decode s, t) := by
  induction h with
  | nil => simp [stringLoop, decode]
  | plain hq hb _ ih => rw [cons_append, stringLoop_plain hq hb, ih, decode_plain hb]; rfl
  | escape _ ih =>
    rw [cons_append, cons_append, stringLoop, ih, decode]
    rfl

theorem stringLoop_open {s : List Char} (h : Items s) : stringLoop (s ++ ['\\']) = .past := by
  induction h with
  | nil => rfl
  | plain hq hb _ ih => rw [cons_append, stringLoop_plain hq hb, ih]; rfl
  | escape _ ih =>
    rw [cons_append, cons_append, stringLoop, ih]
    rfl

inductive StringEnd (t : List Char) : Prop
  | found : Items s → t = s ++ '"' :: r → stringLoop t = .found (decode s, r) → StringEnd t
  | nothing : stringLoop t = .nothing → StringEnd t
  | past : Items s → t = s ++ ['\\'] → stringLoop t = .past → StringEnd t

theorem stringLoop_cases (t : List Char) : StringEnd t := by
  induction t using stringLoop.induct with
  | case1 => exact .nothing rfl
  | case2 => exact .past .nil rfl rfl
  | case3 c t ih =>
    cases ih with
    | found hs ht _ =>
      subst ht
      have hi := Items.escape (c := c) hs
      exact .found hi rfl (stringLoop_items hi _)
    | nothing h => exact .nothing (by rw [stringLoop, h]; rfl)
    | past hs ht _ =>
      subst ht
      have hi := Items.escape (c := c) hs
      exact .past hi rfl (stringLoop_open hi)
  | case4 t => exact .found .nil rfl (stringLoop_items .nil t)
  | case5 c t h1 h2 hq ih =>
    have hb : c ≠ '\\' := by
      rintro rfl
      cases t with
      | nil => exact h1 rfl rfl
      | cons d t => exact h2 d t rfl rfl
    cases ih with
    | found hs ht _ =>
      subst ht
      have hi := Items.plain hq hb hs
      exact .found hi rfl (stringLoop_items hi _)
    | nothing h => exact .nothing (by rw [stringLoop_plain hq hb, h]; rfl)
    | past hs ht _ =>
      subst ht
      have hi := Items.plain hq hb hs
      exact .past hi rfl (stringLoop_open hi)

theorem length_decode (s : List Char) : (decode s).length ≤ s.length := by
  induction s using decode.induct with
  | case1 c s ih => simp only [decode, length_cons]; omega
  | case2 c s h ih =>
    rw [decode.eq_2 _ _ h]
    simp only [length_cons]
    omega
  | case3 => simp [decode]

/-! Values. -/

theorem within_cons {v : List Char} {d : Nat} :
    Within d (c :: v) ↔ (closing c ∨ c = ',' → 0 < d) ∧
      ∀ p x s, v = p ++ x :: s → closing x ∨ x = ',' →
        p.countP closing + (if closing c then 1 else 0) <
          d + (p.countP opening + if opening c then 1 else 0) := by
  simp only [← countP_cons]
  constructor
  · intro h
    exact ⟨fun hc => h [] c v rfl hc, fun p x s hv hx => h (c :: p) x s (by rw [hv]; rfl) hx⟩
  · rintro ⟨hc, h⟩ p x s hv hx
    cases p with
    | nil =>
      rw [nil_append, List.cons.injEq] at hv
      obtain ⟨rfl, rfl⟩ := hv
      simpa using hc hx
    | cons y p =>
      rw [cons_append, List.cons.injEq] at hv
      obtain ⟨rfl, rfl⟩ := hv
      exact h p x s rfl hx

theorem depthAfter_iff {v : List Char} {d e : Nat} :
    depthAfter d v = some e ↔ Within d v ∧ d + v.countP opening = e + v.countP closing := by
  induction v generalizing d with
  | nil => simp [depthAfter, Within]
  | cons c v ih =>
    rw [depthAfter, within_cons, countP_cons, countP_cons]
    by_cases h1 : c = '[' ∨ c = '{'
    · have hc : opening c = true ∧ closing c = false ∧ c ≠ ',' := by rcases h1 with rfl | rfl <;> decide
      rw [if_pos h1, ih]
      simp only [hc, Bool.false_eq_true, or_self, false_implies, true_and, if_true, if_false]
      exact and_congr (forall₅_congr fun p x s hv hx => by omega) (by omega)
    by_cases h2 : c = ']' ∨ c = '}'
    · have hc : opening c = false ∧ closing c = true := by rcases h2 with rfl | rfl <;> decide
      rw [if_neg h1, if_pos h2]
      simp only [hc, Bool.false_eq_true, true_or, forall_const, if_true, if_false]
      by_cases hd : d = 0
      · simp [hd]
      · rw [if_neg hd, ih, and_iff_right (Nat.pos_of_ne_zero hd)]
        exact and_congr (forall₅_congr fun p x s hv hx => by omega) (by omega)
    · have hc : opening c = false ∧ closing c = false := ⟨decide_eq_false h1, decide_eq_false h2⟩
      rw [if_neg h1, if_neg h2]
      simp only [hc, Bool.false_eq_true, false_or, if_false, Nat.add_zero]
      by_cases hcomma : c = ',' ∧ d = 0
      · simp [hcomma.1, hcomma.2]
      · have hpos : c = ',' → 0 < d := fun he => by
          by_contra hd
          exact hcomma ⟨he, by omega⟩
        rw [if_neg hcomma, ih, and_iff_right hpos]
        rfl

theorem level_iff {v : List Char} : Level v ↔ depthAfter 0 v = some 0 := by
  rw [depthAfter_iff, Level, Nat.zero_add, Nat.zero_add]

theorem valueLoop_append {d d' : Nat} {v : List Char} (h : depthAfter d v = some d')
    (t : List Char) :
    valueLoop d (v ++ t) = (v ++ (valueLoop d' t).1, (valueLoop d' t).2) := by
  induction v generalizing d with
  | nil =>
    cases h
    rfl
  | cons c v ih =>
    rw [depthAfter] at h
    rw [cons_append, valueLoop]
    split at h
    case isTrue hopen => simp [hopen, ih h]
    case isFalse hopen =>
      split at h
      case isTrue hclose =>
        split at h
        case isTrue => cases h
        case isFalse hd => simp [hopen, hclose, hd, ih h]
      case isFalse hclose =>
        split at h
        case isTrue => cases h
        case isFalse hcomma =>
          simp [hopen, hclose, hcomma, ih h]

theorem valueLoop_spec (d : Nat) (t : List Char) :
    t = (valueLoop d t).1 ++ (valueLoop d t).2 ∧
    ((valueLoop d t).2 = [] ∨ depthAfter d (valueLoop d t).1 = some 0) := by
  induction t generalizing d with
  | nil => exact ⟨rfl, .inl rfl⟩
  | cons c t ih =>
    rw [valueLoop]
    split
    case isTrue hopen =>
      obtain ⟨he, hd⟩ := ih (d + 1)
      refine ⟨congrArg (c :: ·) he, hd.imp_right fun h => ?_⟩
      rw [depthAfter, if_pos hopen, h]
    case isFalse hopen =>
      split
      case isTrue hclose =>
        split
        case isTrue hd => exact ⟨rfl, .inr (by rw [hd]; rfl)⟩
        case isFalse hd =>
          obtain ⟨he, hd'⟩ := ih (d - 1)
          refine ⟨congrArg (c :: ·) he, hd'.imp_right fun h => ?_⟩
          rw [depthAfter, if_neg hopen, if_pos hclose, if_neg hd, h]
      case isFalse hclose =>
        split
        case isTrue hcomma => exact ⟨rfl, .inr (by rw [hcomma.2]; rfl)⟩
        case isFalse hcomma =>
          obtain ⟨he, hd'⟩ := ih d
          refine ⟨congrArg (c :: ·) he, hd'.imp_right fun h => ?_⟩
          rw [depthAfter, if_neg hopen, if_neg hclose, if_neg hcomma, h]

theorem depthAfter_append (d : Nat) (v w : List Char) :
    depthAfter d (v ++ w) = (depthAfter d v).bind (depthAfter · w) := by
  induction v generalizing d with
  | nil => rfl
  | cons c v ih =>
    rw [cons_append, depthAfter, depthAfter]
    repeat' split
    all_goals first | exact ih _ | rfl

theorem depthAfter_blank {w : List Char} (h : Blank w) (d : Nat) : depthAfter d w = some d := by
  induction w with
  | nil => rfl
  | cons c w ih =>
    have hc := h c mem_cons_self
    have hw := ih fun x hx => h x (mem_cons_of_mem _ hx)
    simp only [isSpace, decide_eq_true_eq] at hc
    rcases hc with rfl | rfl | rfl | rfl <;> simpa [depthAfter] using hw

/-- The comma behind an entry, or the brace behind the last one. -/
def Closes (c : Char) : Prop := c = ',' ∨ c = '}'

theorem Closes.not_space (h : Closes c) : isSpace c = false := by
  rcases h with rfl | rfl <;> decide

theorem valueLoop_closes (h : Closes c) (t : List Char) :
    valueLoop 0 (c :: t) = ([], c :: t) := by
  rcases h with rfl | rfl <;> simp [valueLoop]

theorem valueEnd_string {s : List Char} (h : Items s) (t : List Char) :
    valueEnd ('"' :: (s ++ '"' :: t)) = .found ('"' :: (s ++ ['"']), t) := by
  have hread : string ('"' :: (s ++ '"' :: t)) = .found (decode s, t) := stringLoop_items h t
  have htake : ('"' :: (s ++ '"' :: t)).take (('"' :: (s ++ '"' :: t)).length - t.length) =
      '"' :: (s ++ ['"']) := by
    have happ : '"' :: (s ++ '"' :: t) = '"' :: (s ++ ['"']) ++ t := by simp
    rw [happ]
    exact take_left' (by simp; omega)
  rw [valueEnd, hread]
  exact congrArg (fun v => Read.found (v, t)) htake

theorem valueEnd_open {s : List Char} (h : Items s) : valueEnd ('"' :: (s ++ ['\\'])) = .past := by
  have hread : string ('"' :: (s ++ ['\\'])) = .past := stringLoop_open h
  rw [valueEnd, hread]
  rfl

theorem valueEnd_nothing {t : List Char} (h : stringLoop t = .nothing) :
    valueEnd ('"' :: t) = .nothing := by
  have hread : string ('"' :: t) = .nothing := h
  rw [valueEnd, hread]
  rfl

theorem valueEnd_past {t : List Char} (h : valueEnd t = .past) :
    ∃ s, Items s ∧ t = '"' :: (s ++ ['\\']) := by
  by_cases hquote : t.head? = some '"'
  case neg => rw [valueEnd, if_neg hquote] at h; cases h
  case pos =>
    obtain ⟨t, rfl⟩ := List.head?_eq_some_iff.mp hquote
    cases stringLoop_cases t with
    | found hs he _ => subst he; rw [valueEnd_string hs] at h; cases h
    | nothing he => rw [valueEnd_nothing he] at h; cases h
    | past hs he _ => exact ⟨_, hs, he ▸ rfl⟩

theorem valueEnd_other {t : List Char} (h : t.head? ≠ some '"') :
    valueEnd t = .found (valueLoop 0 t) := if_neg h

/-- A value followed by blanks and by what closes the entry ends there. -/
theorem Value.valueEnd {v w : List Char} (hv : Value v) (hw : Blank w) (hc : Closes c)
    (t : List Char) :
    ∃ text rest, valueEnd (v ++ (w ++ c :: t)) = .found (text, rest) ∧ text ≠ [] ∧
      text.rdropWhile isSpace = v ∧ space rest = c :: t := by
  cases hv with
  | @string s hs =>
    have htext : '"' :: (s ++ ['"']) ++ (w ++ c :: t) = '"' :: (s ++ '"' :: (w ++ c :: t)) := by simp
    refine ⟨'"' :: (s ++ ['"']), w ++ c :: t, ?_, by simp, ?_, ?_⟩
    · rw [htext, valueEnd_string hs]
    · rw [← cons_append, rdropWhile_concat_neg _ _ _ (by decide)]
    · rw [space_append hw, space_cons hc.not_space]
  | @other d v hd hq hdepth hlast =>
    refine ⟨d :: v ++ w, c :: t, ?_, by simp, ?_, space_cons hc.not_space t⟩
    · have hall : depthAfter 0 (d :: v ++ w) = some 0 := by
        rw [depthAfter_append, level_iff.mp hdepth]
        exact depthAfter_blank hw 0
      have hrun := valueLoop_append hall (c :: t)
      rw [valueLoop_closes hc, append_nil, append_assoc] at hrun
      rw [valueEnd_other (by simpa using hq), hrun]
    · rw [rdropWhile_append_of_all hw, hlast]

/-- A text that starts neither with a blank nor with a quote and leaves no bracket open is a value
without the blanks at its end. -/
theorem value_of_trimmed {text rest : List Char} (hspace : space (text ++ rest) = text ++ rest)
    (hquote : (text ++ rest).head? ≠ some '"') (hne : text ≠ [])
    (hdepth : depthAfter 0 text = some 0) : Value (text.rdropWhile isSpace) := by
  obtain ⟨c, text', rfl⟩ := exists_cons_of_ne_nil hne
  have hc : isSpace c = false := by
    cases hc : isSpace c with
    | false => rfl
    | true =>
      have hlt := congrArg List.length hspace
      have hle := (dropWhile_suffix (l := text' ++ rest) isSpace).length_le
      simp only [space, cons_append, dropWhile_cons, hc, ↓reduceIte, length_cons] at hlt
      omega
  obtain ⟨w, hw, htext⟩ := exists_rdropWhile_append isSpace (c :: text')
  have hstart : ∃ v, (c :: text').rdropWhile isSpace = c :: v := by
    cases hv : (c :: text').rdropWhile isSpace with
    | nil =>
      rw [hv, nil_append] at htext
      have hblank := hw c (htext ▸ mem_cons_self)
      rw [hc] at hblank
      cases hblank
    | cons d v =>
      rw [hv, cons_append] at htext
      exact ⟨v, by rw [(List.cons.inj htext).1]⟩
  obtain ⟨v, hv⟩ := hstart
  have hdepth' : depthAfter 0 (c :: v) = some 0 := by
    rw [htext, depthAfter_append, hv] at hdepth
    cases hd : depthAfter 0 (c :: v) with
    | none => simp [hd] at hdepth
    | some d =>
      rw [hd] at hdepth
      exact (depthAfter_blank hw d).symm.trans hdepth
  rw [hv]
  exact .other hc (by simpa using hquote) (level_iff.mpr hdepth') (hv ▸ rdropWhile_idempotent isSpace _)

/-- A value text that is read up to what closes the entry, its blanks at the end left out. -/
theorem valueEnd_inv {t text rest r : List Char} (ht : space t = t)
    (h : valueEnd t = .found (text, rest)) (hne : text ≠ []) (hrest : space rest = c :: r) :
    ∃ w, Value (text.rdropWhile isSpace) ∧ Blank w ∧
      t = text.rdropWhile isSpace ++ (w ++ c :: r) := by
  obtain ⟨w', hw', hsplit⟩ := exists_blank rest
  rw [hrest] at hsplit
  by_cases hquote : t.head? = some '"'
  case pos =>
    obtain ⟨t, rfl⟩ := List.head?_eq_some_iff.mp hquote
    cases stringLoop_cases t with
    | @found s r' hs he _ =>
      subst he
      rw [valueEnd_string hs] at h
      cases h
      have htrim : ('"' :: (s ++ ['"'])).rdropWhile isSpace = '"' :: (s ++ ['"']) := by
        rw [← cons_append, rdropWhile_concat_neg _ _ _ (by decide)]
      rw [htrim]
      exact ⟨w', .string hs, hw', by simp [hsplit]⟩
    | nothing he => rw [valueEnd_nothing he] at h; cases h
    | past hs he _ => subst he; rw [valueEnd_open hs] at h; cases h
  case neg =>
    rw [valueEnd_other hquote, Read.found.injEq] at h
    obtain ⟨happ, hstop⟩ := valueLoop_spec 0 t
    rw [h] at happ hstop
    have hdepth : depthAfter 0 text = some 0 := hstop.resolve_left (by simp [hsplit])
    obtain ⟨w, hw, htext⟩ := exists_rdropWhile_append isSpace text
    refine ⟨w ++ w', ?_, ?_, ?_⟩
    · exact value_of_trimmed (by rw [happ] at ht; exact ht) (by rw [happ] at hquote; exact hquote) hne hdepth
    · intro x hx
      exact (mem_append.mp hx).elim (hw x) (hw' x)
    · rw [append_assoc, ← hsplit, ← append_assoc, ← htext, ← happ]

/-! Entries. -/

theorem space_space (t : List Char) : space (space t) = space t :=
  dropWhile_idempotent isSpace t

theorem KeyText.space {t k : List Char} (h : KeyText t k) (u : List Char) :
    (space (t ++ u)).head? = some '"' := by
  cases h with
  | mk hw1 _ _ _ =>
    rw [append_assoc, space_append hw1]
    rfl

theorem KeyText.entry {t k u : List Char} (h : KeyText t k) (hu : Config.space u = u) (size : Nat) :
    entry size (Config.space (t ++ u)) = entryOf size k (valueEnd u) := by
  cases h with
  | @mk w₁ k w₂ w₃ hw1 hk hw2 hw3 =>
    have hread : string ('"' :: (k ++ '"' :: (w₂ ++ ':' :: (w₃ ++ u)))) =
        .found (decode k, w₂ ++ ':' :: (w₃ ++ u)) := stringLoop_items hk _
    have htext : Config.space (w₁ ++ '"' :: (k ++ '"' :: (w₂ ++ ':' :: w₃)) ++ u) =
        '"' :: (k ++ '"' :: (w₂ ++ ':' :: (w₃ ++ u))) := by
      rw [append_assoc, space_append hw1]
      simp [Config.space, isSpace]
    have hcolon : Config.space (w₂ ++ ':' :: (w₃ ++ u)) = ':' :: (w₃ ++ u) := by
      rw [space_append hw2]
      rfl
    have hvalue : Config.space (w₃ ++ u) = u := (space_append hw3 u).trans hu
    rw [htext, Config.entry, hread]
    simp [hcolon, hvalue]

theorem Value.space {v : List Char} (h : Value v) (u : List Char) : space (v ++ u) = v ++ u := by
  cases h with
  | string hs => rfl
  | other hc _ _ _ => exact space_cons hc _

theorem EntryText.entry {t u : List Char} {e : Entry} (h : EntryText t e) (hc : Closes c)
    (size : Nat) :
    ∃ rest, entry size (Config.space (t ++ c :: u)) = .found (e.stored size, rest) ∧
      Config.space rest = c :: u := by
  cases h with
  | mk hkey hvalue hlen hw =>
    obtain ⟨text, rest, hend, hne, htrim, hrest⟩ := hvalue.valueEnd hw hc u
    refine ⟨rest, ?_, hrest⟩
    rw [append_assoc, append_assoc, hkey.entry (hvalue.space _), hend, entryOf]
    simp only [htrim, hne, Nat.not_le.mpr hlen]
    rfl

inductive EntryEnd (size : Nat) (t : List Char) : Prop
  | nothing : entry size (space t) = .nothing → EntryEnd size t
  | key : Blank w → Items k → t = w ++ '"' :: (k ++ ['\\']) → EntryEnd size t
  | value : KeyText u k → Items s → t = u ++ '"' :: (s ++ ['\\']) → EntryEnd size t
  | found : KeyText u k → space v = v → t = u ++ v → valueEnd v = .found (text, rest) → text ≠ [] →
      (text.rdropWhile isSpace).length < valueSize → EntryEnd size t

theorem entry_cases (size : Nat) (t : List Char) : EntryEnd size t := by
  obtain ⟨w₁, hw1, ht⟩ := exists_blank t
  by_cases hquote : (space t).head? = some '"'
  case neg =>
    refine .nothing ?_
    have hread : string (space t) = .nothing := by
      cases hs : space t with
      | nil => rfl
      | cons c s =>
        rw [string]
        intro rest he
        rw [hs, he] at hquote
        exact hquote rfl
    rw [entry, hread]
  case pos =>
    obtain ⟨s, hs⟩ := List.head?_eq_some_iff.mp hquote
    rw [hs] at ht
    cases stringLoop_cases s with
    | nothing h =>
      have hread : string (space t) = .nothing := hs ▸ h
      exact .nothing (by rw [entry, hread])
    | past hk he _ => exact .key hw1 hk (he ▸ ht)
    | @found k r hk he hread =>
      obtain ⟨w₂, hw2, hr⟩ := exists_blank r
      have hread : string (space t) = .found (decode k, r) := hs ▸ hread
      by_cases hcolon : (space r).head? = some ':'
      case neg =>
        refine .nothing ?_
        rw [entry, hread]
        dsimp only
        split
        case h_1 rest he => exact absurd (congrArg List.head? he) hcolon
        case h_2 => rfl
      case pos =>
        obtain ⟨r', hr'⟩ := List.head?_eq_some_iff.mp hcolon
        obtain ⟨w₃, hw3, hr3⟩ := exists_blank r'
        have hkey : KeyText (w₁ ++ '"' :: (k ++ '"' :: (w₂ ++ ':' :: w₃))) (decode k) :=
          .mk hw1 hk hw2 hw3
        have htext : t = w₁ ++ '"' :: (k ++ '"' :: (w₂ ++ ':' :: w₃)) ++ space r' := by
          rw [ht, he, hr, hr', hr3]
          simp [space_append hw3, space_space]
        have hentry := hkey.entry (space_space r') size
        rw [← htext] at hentry
        cases hend : valueEnd (space r') with
        | past =>
          obtain ⟨s, hs, hv⟩ := valueEnd_past hend
          exact .value hkey hs (hv ▸ htext)
        | nothing => exact .nothing (by rw [hentry, hend]; rfl)
        | found p =>
          obtain ⟨text, rest⟩ := p
          by_cases hbad : text = [] ∨ valueSize ≤ (text.rdropWhile isSpace).length
          case pos =>
            refine .nothing ?_
            rw [hentry, hend, entryOf]
            exact if_pos hbad
          case neg =>
            obtain ⟨hne, hlen⟩ := not_or.mp hbad
            exact .found hkey (space_space r') htext hend hne (Nat.lt_of_not_le hlen)

theorem entries_close {w : List Char} (h : Blank w) (size left : Nat) (r : List Char) :
    entries size left (w ++ '}' :: r) = some (true, []) := by
  rw [entries.eq_def, space_append h]
  rfl

theorem EntryText.head {t : List Char} {e : Entry} (h : EntryText t e) (u : List Char) :
    (Config.space (t ++ u)).head? ≠ some '}' := by
  cases h with
  | mk hkey _ _ _ =>
    rw [append_assoc, hkey.space]
    decide

theorem entries_last {t : List Char} {e : Entry} (h : EntryText t e) (size left : Nat)
    (r : List Char) :
    entries size (left + 1) (t ++ '}' :: r) = some (true, [e.stored size]) := by
  obtain ⟨rest, hentry, hrest⟩ := h.entry (u := r) (.inr rfl) size
  rw [entries, if_neg (h.head _), hentry]
  simp [hrest]

theorem entries_more {t : List Char} {e : Entry} (h : EntryText t e) (size left : Nat)
    (r : List Char) :
    entries size (left + 1) (t ++ ',' :: r) = (entries size left r).cons (e.stored size) := by
  obtain ⟨rest, hentry, hrest⟩ := h.entry (u := r) (.inl rfl) size
  rw [entries, if_neg (h.head _), hentry]
  simp [hrest]

theorem entries_openKey {w k : List Char} (hw : Blank w) (hk : Items k) (size left : Nat) :
    entries size (left + 1) (w ++ '"' :: (k ++ ['\\'])) = none := by
  have hread : string ('"' :: (k ++ ['\\'])) = .past := stringLoop_open hk
  have hspace : space (w ++ '"' :: (k ++ ['\\'])) = '"' :: (k ++ ['\\']) := by
    rw [space_append hw]
    rfl
  rw [entries, hspace, if_neg (by simp), entry, hread]

theorem entries_openValue {t k s : List Char} (hkey : KeyText t k) (hs : Items s)
    (size left : Nat) : entries size (left + 1) (t ++ '"' :: (s ++ ['\\'])) = none := by
  have hentry := hkey.entry (u := '"' :: (s ++ ['\\'])) rfl size
  rw [valueEnd_open hs] at hentry
  rw [entries, if_neg (by rw [hkey.space]; decide), hentry]
  rfl

/-- What one turn of the parser's loop can do. -/
inductive Turn (size left : Nat) (t : List Char) : Prop
  | close : Blank w → t = w ++ '}' :: r → Turn size left t
  | refused : entries size left t = some (false, es) → Turn size left t
  | openKey : left = n + 1 → Blank w → Items k → t = w ++ '"' :: (k ++ ['\\']) → Turn size left t
  | openValue : left = n + 1 → KeyText u k → Items s → t = u ++ '"' :: (s ++ ['\\']) →
      Turn size left t
  | last : left = n + 1 → EntryText u e → t = u ++ '}' :: r → Turn size left t
  | more : left = n + 1 → EntryText u e → t = u ++ ',' :: r → Turn size left t

theorem entries_cases (size left : Nat) (t : List Char) : Turn size left t := by
  by_cases hbrace : (space t).head? = some '}'
  case pos =>
    obtain ⟨r, hr⟩ := List.head?_eq_some_iff.mp hbrace
    obtain ⟨w, hw, ht⟩ := exists_blank t
    exact .close hw (hr ▸ ht)
  case neg =>
    cases left with
    | zero => exact .refused (by rw [entries, if_neg hbrace])
    | succ n =>
      cases entry_cases size t with
      | nothing h => exact .refused (by rw [entries, if_neg hbrace, h])
      | key hw hk ht => exact .openKey rfl hw hk ht
      | value hkey hs ht => exact .openValue rfl hkey hs ht
      | @found u k v text rest hkey hv ht hend hne hlen =>
        have hentry : entry size (space t) =
            .found ((⟨k, text.rdropWhile isSpace⟩ : Entry).stored size, rest) := by
          rw [ht, hkey.entry hv, hend, entryOf]
          simp only [hne, Nat.not_le.mpr hlen]
          rfl
        have htext {c : Char} {r : List Char} (hr : space rest = c :: r) :
            ∃ u', EntryText u' ⟨k, text.rdropWhile isSpace⟩ ∧ t = u' ++ c :: r := by
          obtain ⟨w, hval, hw, he⟩ := valueEnd_inv hv hend hne hr
          exact ⟨_, .mk hkey hval hlen hw, by simp [ht, he]⟩
        have hrefused (hcomma : ∀ r, space rest ≠ ',' :: r) (hclose : ∀ r, space rest ≠ '}' :: r) :
            entries size (n + 1) t =
              some (false, [(⟨k, text.rdropWhile isSpace⟩ : Entry).stored size]) := by
          rw [entries, if_neg hbrace, hentry]
          dsimp only
          split
          case h_1 r he => exact absurd he (hcomma r)
          case h_2 r he => exact absurd he (hclose r)
          case h_3 => rfl
        by_cases hcomma : ∃ r, space rest = ',' :: r
        · obtain ⟨r, hr⟩ := hcomma
          obtain ⟨u', hu', ht'⟩ := htext hr
          exact .more rfl hu' ht'
        by_cases hclose : ∃ r, space rest = '}' :: r
        · obtain ⟨r, hr⟩ := hclose
          obtain ⟨u', hu', ht'⟩ := htext hr
          exact .last rfl hu' ht'
        exact .refused (hrefused (not_exists.mp hcomma) (not_exists.mp hclose))

/-- The loop accepts the bodies of objects with entries there is room for. -/
theorem entries_true_iff {size left : Nat} {t : List Char} {es : List Entry} :
    entries size left t = some (true, es) ↔
      ∃ full, Body t full ∧ full.length ≤ left ∧ es = full.map (·.stored size) := by
  constructor
  · intro h
    induction left using Nat.strong_induction_on generalizing t es with
    | _ left ih =>
      cases entries_cases size left t with
      | close hw ht =>
        subst ht
        rw [entries_close hw] at h
        cases h
        exact ⟨[], .close hw, Nat.zero_le _, rfl⟩
      | refused hr => rw [hr] at h; cases h
      | openKey hn hw hk ht => subst hn ht; rw [entries_openKey hw hk] at h; cases h
      | openValue hn hkey hs ht => subst hn ht; rw [entries_openValue hkey hs] at h; cases h
      | last hn he ht =>
        subst hn ht
        rw [entries_last he] at h
        cases h
        exact ⟨_, .last he, by simp, rfl⟩
      | more hn he ht =>
        subst hn ht
        rw [entries_more he, Result.cons, Option.map_eq_some_iff] at h
        obtain ⟨⟨ok, es'⟩, hr, heq⟩ := h
        cases heq
        obtain ⟨full, hbody, hlen, hes⟩ := ih _ (Nat.lt_succ_self _) hr
        exact ⟨_, .more he hbody, by simpa using hlen, by simp [hes]⟩
  · rintro ⟨full, hbody, hlen, rfl⟩
    induction hbody generalizing left with
    | close hw => exact entries_close hw size left _
    | last he =>
      obtain ⟨n, rfl⟩ := Nat.exists_eq_add_of_le' hlen
      exact entries_last he size n _
    | @more t e r es he _ ih =>
      obtain ⟨n, rfl⟩ := Nat.exists_eq_add_one_of_ne_zero (Nat.ne_of_gt (Nat.lt_of_lt_of_le (Nat.succ_pos _) hlen))
      rw [entries_more he, ih (by simpa using hlen)]
      rfl

/-- The loop reads on behind the terminator exactly where a string ends in a backslash there. -/
theorem entries_none_iff {size left : Nat} {t : List Char} :
    entries size left t = none ↔ OpenBody left t := by
  constructor
  · intro h
    induction left using Nat.strong_induction_on generalizing t with
    | _ left ih =>
      cases entries_cases size left t with
      | close hw ht => subst ht; rw [entries_close hw] at h; cases h
      | refused hr => rw [hr] at h; cases h
      | openKey hn hw hk ht => exact hn ▸ ht ▸ .key hw hk
      | openValue hn hkey hs ht => exact hn ▸ ht ▸ .value hkey hs
      | last hn he ht => subst hn ht; rw [entries_last he] at h; cases h
      | more hn he ht =>
        subst hn ht
        rw [entries_more he, Result.cons, Option.map_eq_none_iff] at h
        exact .more he (ih _ (Nat.lt_succ_self _) h)
  · intro h
    induction h with
    | key hw hk => exact entries_openKey hw hk size _
    | value hkey hs => exact entries_openValue hkey hs size _
    | more he _ ih =>
      rw [entries_more he, ih]
      rfl

end Autorun.Text.Config
