import Autorun.Proofs.ConfigText

namespace Autorun.Text.Config

open Lib List

/-! A settings text as JSON has it. -/

/-- What an escape stands for in a string. `\u` is left out: the parser takes it for the character
`u`, on purpose. -/
def escapeOf : Char → Option Char
  | '"' => some '"'
  | '\\' => some '\\'
  | '/' => some '/'
  | 'n' => some '\n'
  | 't' => some '\t'
  | 'r' => some '\r'
  | 'b' => some '\x08'
  | 'f' => some '\x0c'
  | _ => none

/-- The inside of a string and the name it stands for. -/
inductive Name : List Char → List Char → Prop
  | nil : Name [] []
  | plain : c ≠ '"' → c ≠ '\\' → Name s n → Name (c :: s) (c :: n)
  | escape : escapeOf c = some d → Name s n → Name ('\\' :: c :: s) (d :: n)

/-- The inside of an array or of an object: what stands in a string is no bracket. -/
inductive Inside : List Char → Prop
  | nil : Inside []
  | plain : opening c = false → closing c = false → c ≠ '"' → Inside s → Inside (c :: s)
  | string : Items k → Inside s → Inside ('"' :: (k ++ '"' :: s))
  | array : Inside u → Inside s → Inside ('[' :: (u ++ ']' :: s))
  | object : Inside u → Inside s → Inside ('{' :: (u ++ '}' :: s))

inductive ValueText : List Char → Prop
  | string : Items s → ValueText ('"' :: (s ++ ['"']))
  | array : Inside u → ValueText ('[' :: (u ++ [']']))
  | object : Inside u → ValueText ('{' :: (u ++ ['}']))
  /-- A number, `true`, `false` or `null`. -/
  | word : v ≠ [] → (∀ c ∈ v, isSpace c = false ∧ opening c = false ∧ closing c = false ∧
      c ≠ ',' ∧ c ≠ '"') → ValueText v

inductive Member : List Char → Entry → Prop
  | mk : Blank w₁ → Name k e.key → Blank w₂ → Blank w₃ → ValueText e.value → Blank w₄ →
      Member (w₁ ++ '"' :: (k ++ '"' :: (w₂ ++ ':' :: w₃)) ++ (e.value ++ w₄)) e

/-- The members of an object behind its opening brace. -/
inductive Members : List Char → List Entry → Prop
  | close : Blank w → Members (w ++ '}' :: r) []
  | last : Member t e → Members (t ++ '}' :: r) [e]
  | more : Member t e → Members r es → Members (t ++ ',' :: r) (e :: es)

/-- The keys and values that a text has, whatever the parser makes of it. -/
def Reading (text : List Char) (full : List Entry) : Prop :=
  ∃ w t, Blank w ∧ text = w ++ '{' :: t ∧ Members t full

variable {es : List Entry} {t : List Char}

/-- An accepted text: an object with entries there is room for. -/
theorem parse_true_iff {text : List Char} :
    parse text = some (true, es) ↔ ∃ w t, Blank w ∧ text = w ++ '{' :: t ∧
      entries keySize maxKeys t = some (true, es) := by
  constructor
  · intro h
    obtain ⟨w, hw, ht⟩ := exists_blank text
    rw [parse] at h
    split at h
    case h_1 t hs => exact ⟨w, t, hw, hs ▸ ht, h⟩
    case h_2 => cases h
  · rintro ⟨w, t, hw, rfl, h⟩
    have hs : space (w ++ '{' :: t) = '{' :: t := (space_append hw _).trans (space_cons (by decide) t)
    rw [parse, hs]
    exact h

def Plain (key : List Char) : Prop := key.length < keySize ∧ '"' ∉ key ∧ '\\' ∉ key

instance (key : List Char) : Decidable (Plain key) := inferInstanceAs (Decidable (_ ∧ _ ∧ _))

theorem items_of_plain {k : List Char} (hq : '"' ∉ k) (hb : '\\' ∉ k) : Items k ∧ decode k = k := by
  induction k with
  | nil => exact ⟨.nil, rfl⟩
  | cons c k ih =>
    simp only [mem_cons, not_or] at hq hb
    obtain ⟨hi, hd⟩ := ih hq.2 hb.2
    have hc : c ≠ '\\' := Ne.symm hb.1
    exact ⟨.plain (Ne.symm hq.1) hc hi, by rw [decode_plain hc, hd]⟩

theorem unescape_eq_backslash {c : Char} (h : unescape c = '\\') : c = '\\' := by
  unfold unescape at h
  split at h
  case h_6 => exact h
  all_goals cases h

/-- Once the decoded characters lag behind those of the text by a backslash, they never agree
again. -/
theorem not_prefix_of_lag {j : Nat} {key raw x y : List Char} (hraw : Items raw)
    (htext : key ++ '"' :: x = raw ++ '"' :: y)
    (hpre : List.replicate (j + 1) '\\' ++ key <+: decode raw) : False := by
  induction hraw generalizing j key with
  | nil => simp [decode] at hpre
  | plain _ hb _ _ =>
    rw [decode_plain hb, replicate_succ, cons_append, cons_prefix_cons] at hpre
    exact hb hpre.1.symm
  | @escape raw c _ ih =>
    rw [decode, replicate_succ, cons_append, cons_prefix_cons] at hpre
    have hc : c = '\\' := unescape_eq_backslash hpre.1.symm
    subst hc
    cases key with
    | nil => simp at htext
    | cons _ key =>
      cases key with
      | nil => simp at htext
      | cons _ key =>
        simp only [cons_append, List.cons.injEq] at htext
        obtain ⟨rfl, rfl, htext⟩ := htext
        -- one backslash of the text is decoded, two are passed
        refine ih (j := j + 1) htext ?_
        have hshift : List.replicate (j + 1 + 1) '\\' ++ key =
            List.replicate j '\\' ++ '\\' :: '\\' :: key := by
          simp [replicate_succ']
        rw [hshift]
        exact hpre.2

theorem plain_of_prefix {key raw x y : List Char} (hraw : Items raw)
    (htext : key ++ '"' :: x = raw ++ '"' :: y) (hpre : key <+: decode raw) :
    '"' ∉ key ∧ '\\' ∉ key := by
  induction hraw generalizing key with
  | nil =>
    have hnil : key = [] := prefix_nil.mp hpre
    simp [hnil]
  | plain hq hb _ ih =>
    cases key with
    | nil => simp
    | cons d key =>
      rw [decode_plain hb, cons_prefix_cons] at hpre
      simp only [cons_append, List.cons.injEq] at htext
      obtain ⟨h1, h2⟩ := ih htext.2 hpre.2
      simp [h1, h2, hpre.1, hq.symm, hb.symm]
  | @escape raw c hraw ih =>
    exfalso
    match key, htext with
    | [], htext => simp at htext
    | [d], htext =>
      obtain ⟨rfl, rfl, _⟩ := htext
      simp [decode, unescape] at hpre
    | d :: d' :: key, htext =>
      simp only [cons_append, List.cons.injEq] at htext
      obtain ⟨hd, hd', htail⟩ := htext
      rw [decode, cons_prefix_cons] at hpre
      have hc : d' = '\\' := hd'.trans (unescape_eq_backslash (hpre.1.symm.trans hd))
      exact not_prefix_of_lag (j := 0) hraw htail (hc ▸ hpre.2)

/-! What the writer leaves behind the opening brace. -/

def written (es : List Entry) : List Char := '\n' :: ((lines es).flatten ++ ['}', '\n'])

theorem write_eq (es : List Entry) : write es = '{' :: written es := by
  simp [write, pieces, written]

/-- The text of an entry as the writer has it. -/
def writtenEntry (e : Entry) : List Char := ['\n', ' ', ' ', '"'] ++ e.key ++ ['"', ':', ' '] ++ e.value

theorem written_last (e : Entry) : written [e] = writtenEntry e ++ ['\n'] ++ '}' :: ['\n'] := by
  simp [written, lines, line, writtenEntry]

theorem written_more (e f : Entry) (es : List Entry) :
    written (e :: f :: es) = writtenEntry e ++ ',' :: written (f :: es) := by
  simp [written, lines, line, writtenEntry]

/-- What the parser makes sure of for a value. -/
def Valued (e : Entry) : Prop := Value e.value ∧ e.value.length < valueSize

theorem entryText_written {e : Entry} {w : List Char} (hv : Valued e) (hq : '"' ∉ e.key)
    (hb : '\\' ∉ e.key) (hw : Blank w) : EntryText (writtenEntry e ++ w) e := by
  obtain ⟨hi, hd⟩ := items_of_plain hq hb
  have hkey : KeyText (['\n', ' ', ' '] ++ '"' :: (e.key ++ '"' :: ([] ++ ':' :: [' '])))
      (decode e.key) := .mk (by simp [Blank, isSpace]) hi (by simp [Blank]) (by simp [Blank, isSpace])
  rw [hd] at hkey
  have htext := EntryText.mk hkey hv.1 hv.2 hw
  simpa [writtenEntry] using htext

theorem body_written {es : List Entry} (hv : ∀ e ∈ es, Valued e) (hp : ∀ e ∈ es, Plain e.key) :
    Body (written es) es := by
  match es with
  | [] => exact Body.close (w := ['\n']) (by simp [Blank, isSpace])
  | [e] =>
    obtain ⟨_, hq, hb⟩ := hp e mem_cons_self
    rw [written_last]
    exact .last (entryText_written (hv e mem_cons_self) hq hb (by simp [Blank, isSpace]))
  | e :: f :: es =>
    obtain ⟨_, hq, hb⟩ := hp e mem_cons_self
    have htext := entryText_written (w := []) (hv e mem_cons_self) hq hb (by simp [Blank])
    rw [append_nil] at htext
    rw [written_more]
    exact .more htext (body_written (fun x hx => hv x (mem_cons_of_mem _ hx))
      fun x hx => hp x (mem_cons_of_mem _ hx))

/-! What the entries of an accepted text are like. -/

theorem EntryText.valued {e : Entry} (h : EntryText t e) : Valued e := by
  cases h with
  | mk _ hv hlen _ => exact ⟨hv, hlen⟩

theorem EntryText.length_key {e : Entry} (h : EntryText t e) :
    e.key.length ≤ t.length := by
  obtain ⟨key, value⟩ := e
  cases h with
  | mk hkey _ _ _ =>
    cases hkey with
    | @mk _ k _ _ _ _ _ _ =>
      have hd := length_decode k
      simp only [length_append, length_cons]
      omega

theorem Body.entries (h : Body t es) :
    ∀ e ∈ es, Valued e ∧ e.key.length ≤ t.length := by
  induction h with
  | close _ => simp
  | last he =>
    intro e hm
    rw [mem_singleton.mp hm]
    have := he.length_key
    exact ⟨he.valued, by rw [length_append]; omega⟩
  | more he _ ih =>
    intro e hm
    rcases mem_cons.mp hm with rfl | hm
    · have := he.length_key
      exact ⟨he.valued, by rw [length_append]; omega⟩
    · obtain ⟨hv, hk⟩ := ih e hm
      exact ⟨hv, by rw [length_append, length_cons]; omega⟩

theorem stored_eq {e : Entry} {size : Nat} (h : e.key.length < size) : e.stored size = e := by
  rw [Entry.stored, take_of_length_le (by omega)]

theorem map_stored {size : Nat} (h : ∀ e ∈ es, e.key.length < size) :
    es.map (·.stored size) = es := by
  conv_rhs => rw [← map_id es]
  exact map_congr_left fun e he => stored_eq (h e he)

theorem length_stored (e : Entry) : (e.stored keySize).key.length < keySize := by
  rw [Entry.stored, length_take, keySize]
  omega

/-- A text has one list of entries. -/
theorem Body.unique {fs : List Entry} (h : Body t es) (h' : Body t fs) : es = fs := by
  have hread {gs : List Entry} (hb : Body t gs) (hl : gs.length ≤ Nat.max es.length fs.length) :
      Config.entries (t.length + 1) (Nat.max es.length fs.length) t = some (true, gs) := by
    refine entries_true_iff.mpr ⟨gs, hb, hl, (map_stored fun e he => ?_).symm⟩
    exact Nat.lt_succ_of_le (hb.entries e he).2
  have heq := (hread h (Nat.le_max_left ..)).symm.trans (hread h' (Nat.le_max_right ..))
  simpa using heq

theorem Body.first {f : Entry} {fs : List Entry} (h : Body t (f :: fs)) :
    ∃ k r, Items k ∧ f.key = decode k ∧ space t = '"' :: (k ++ '"' :: r) := by
  have htext : ∃ u r, EntryText u f ∧ t = u ++ r := by
    cases h with
    | last he => exact ⟨_, _, he, rfl⟩
    | more he _ => exact ⟨_, _, he, rfl⟩
  obtain ⟨u, r, he, rfl⟩ := htext
  cases he with
  | @mk u w _ hkey _ _ _ =>
    generalize hkeq : f.key = key at hkey
    cases hkey with
    | @mk w1 k w2 w3 hw hk _ _ =>
      refine ⟨k, w2 ++ ':' :: w3 ++ (f.value ++ w) ++ r, hk, rfl, ?_⟩
      rw [append_assoc, append_assoc, space_append hw, cons_append,
        space_cons (by decide)]
      simp

theorem space_written (e : Entry) (es : List Entry) :
    ∃ x, space (written (e :: es)) = '"' :: (e.key ++ '"' :: x) := by
  refine ⟨[':', ' '] ++ e.value ++ (if !es.isEmpty then [','] else []) ++ ['\n'] ++
    (lines es).flatten ++ ['}', '\n'], ?_⟩
  simp [written, lines, line, space, isSpace]

/-- An entry that is written and read with the same key has a plain key and is read as it is. -/
theorem reread {e f : Entry} {fs : List Entry} {left : Nat} (hv : Valued e) (hkey : f.key = e.key)
    (h : entries keySize left (written (e :: es)) = some (true, f :: fs)) :
    Plain e.key ∧ f = e ∧ ∃ n, entries keySize n (written es) = some (true, fs) := by
  obtain ⟨full, hbody, hlen, hes⟩ := entries_true_iff.mp h
  cases full with
  | nil => simp at hes
  | cons g gs =>
    rw [map_cons, List.cons.injEq] at hes
    obtain ⟨k, r, hk, hg, htext⟩ := hbody.first
    obtain ⟨x, hx⟩ := space_written e es
    rw [hx, List.cons.injEq] at htext
    have hcut : e.key = (decode k).take (keySize - 1) := by rw [← hkey, hes.1, Entry.stored, hg]
    obtain ⟨hq, hb⟩ := plain_of_prefix hk htext.2 (hcut ▸ take_prefix _ _)
    have hshort : e.key.length < keySize := by
      rw [← hkey, hes.1]
      exact length_stored g
    obtain ⟨n, rfl⟩ : ∃ n, left = n + 1 :=
      Nat.exists_eq_add_one_of_ne_zero (Nat.ne_of_gt (Nat.lt_of_lt_of_le (Nat.succ_pos _) hlen))
    refine ⟨⟨hshort, hq, hb⟩, ?_⟩
    cases es with
    | nil =>
      have hread := entryText_written (w := ['\n']) hv hq hb (by simp [Blank, isSpace])
      rw [written_last, entries_last hread, stored_eq hshort] at h
      cases h
      exact ⟨rfl, 0, entries_close (w := ['\n']) (by simp [Blank, isSpace]) ..⟩
    | cons e' es =>
      have hread := entryText_written (w := []) hv hq hb (by simp [Blank])
      rw [append_nil] at hread
      rw [written_more, entries_more hread, stored_eq hshort, Result.cons, Option.map_eq_some_iff] at h
      obtain ⟨⟨ok, rest⟩, hrest, heq⟩ := h
      cases heq
      exact ⟨rfl, n, hrest⟩

/-- Settings whose text reads as the same settings have plain keys. -/
theorem plain_of_read {left : Nat} (hv : ∀ e ∈ es, Valued e)
    (h : entries keySize left (written es) = some (true, es)) : ∀ e ∈ es, Plain e.key := by
  induction es generalizing left with
  | nil => simp
  | cons e es ih =>
    obtain ⟨hplain, -, n, hrest⟩ := reread (hv e mem_cons_self) rfl h
    intro g hg
    rcases mem_cons.mp hg with rfl | hg
    · exact hplain
    · exact ih (fun x hx => hv x (mem_cons_of_mem _ hx)) hrest g hg

theorem parse_write (es : List Entry) : parse (write es) = entries keySize maxKeys (written es) := by
  rw [write_eq]
  rfl

theorem read_of_plain (hlen : es.length ≤ maxKeys) (hv : ∀ e ∈ es, Valued e)
    (hp : ∀ e ∈ es, Plain e.key) : parse (write es) = some (true, es) := by
  rw [parse_write]
  exact entries_true_iff.mpr ⟨es, body_written hv hp, hlen, (map_stored fun e he => (hp e he).1).symm⟩

/-! What the parser makes of a reading. -/

/-- An entry that can be kept: a plain key, and a value that is a string or level and fits its
buffer. -/
structure Kept (e : Entry) : Prop where
  plain : Plain e.key
  level : e.value.head? = some '"' ∨ Level e.value
  short : e.value.length < valueSize

theorem Name.decode {s n : List Char} (h : Name s n) : Items s ∧ decode s = n := by
  induction h with
  | nil => exact ⟨.nil, rfl⟩
  | plain hq hb _ ih => exact ⟨.plain hq hb ih.1, by rw [decode_plain hb, ih.2]⟩
  | @escape c d s n hc _ ih =>
    have hd : unescape c = d := by
      unfold escapeOf at hc
      split at hc <;> cases hc <;> rfl
    exact ⟨.escape ih.1, by rw [Config.decode, hd, ih.2]⟩

theorem Value.level {v : List Char} (h : Value v) : v.head? = some '"' ∨ Level v := by
  cases h with
  | string _ => exact .inl rfl
  | other _ _ hl _ => exact .inr hl

theorem ValueText.value {v : List Char} (h : ValueText v) (hl : v.head? = some '"' ∨ Level v) :
    Value v := by
  cases h with
  | string hs => exact .string hs
  | array _ =>
    refine .other rfl (by decide) (hl.resolve_left (by simp)) ?_
    rw [← cons_append, rdropWhile_concat_neg _ _ _ (by decide)]
  | object _ =>
    refine .other rfl (by decide) (hl.resolve_left (by simp)) ?_
    rw [← cons_append, rdropWhile_concat_neg _ _ _ (by decide)]
  | word hne hall =>
    obtain ⟨c, v, rfl⟩ := exists_cons_of_ne_nil hne
    obtain ⟨hspace, -, -, -, hquote⟩ := hall c mem_cons_self
    refine .other hspace hquote (hl.resolve_left (by simpa using hquote)) ?_
    exact rdropWhile_eq_self_iff.mpr fun hne => by simp [(hall _ (getLast_mem hne)).1]

theorem Member.entryText {e : Entry} (h : Member t e) (hk : Kept e) : EntryText t e := by
  cases h with
  | mk hw1 hname hw2 hw3 hvalue hw4 =>
    obtain ⟨hi, hd⟩ := hname.decode
    exact .mk (hd ▸ .mk hw1 hi hw2 hw3) (hvalue.value hk.level) hk.short hw4

theorem Members.body (h : Members t es) (hk : ∀ e ∈ es, Kept e) : Body t es := by
  induction h with
  | close hw => exact .close hw
  | last hm => exact .last (hm.entryText (hk _ mem_cons_self))
  | more hm _ ih =>
    exact .more (hm.entryText (hk _ mem_cons_self)) (ih fun e he => hk e (mem_cons_of_mem _ he))

theorem Member.first {e : Entry} (h : Member t e) (r : List Char) :
    ∃ k r', Name k e.key ∧ space (t ++ r) = '"' :: (k ++ '"' :: r') := by
  cases h with
  | @mk w₁ k w₂ w₃ w₄ _ hw1 hname _ _ _ _ =>
    refine ⟨k, w₂ ++ ':' :: w₃ ++ (e.value ++ w₄) ++ r, hname, ?_⟩
    rw [append_assoc, append_assoc, space_append hw1, cons_append, space_cons (by decide)]
    simp

/-- A member that comes back from what was written for its text can be kept, and is what the parser
read of it. -/
theorem Member.reread {u r : List Char} {f : Entry} {fs : List Entry} {left left' : Nat}
    (hm : Member u f) (haccept : entries keySize left (u ++ r) = some (true, es))
    (hread : entries keySize left' (written es) = some (true, f :: fs)) :
    Kept f ∧ ∃ es' n, es = f :: es' ∧ entries keySize n (written es') = some (true, fs) := by
  obtain ⟨full, hbody, -, rfl⟩ := entries_true_iff.mp haccept
  cases full with
  | nil =>
    rw [map_nil, written] at hread
    have := entries_close (w := ['\n']) (by simp [Blank, isSpace]) keySize left' ['\n']
    cases this.symm.trans hread
  | cons f₀ fs₀ =>
    rw [map_cons] at hread ⊢
    -- the parser reads the name of the first member as it is, then cuts it
    obtain ⟨k, r₁, hk, hkey, htext⟩ := hbody.first
    obtain ⟨k', r₂, hname, htext'⟩ := hm.first r
    obtain ⟨hi, hd⟩ := hname.decode
    have hsame := (stringLoop_items hk r₁).symm.trans
      ((congrArg stringLoop (List.cons.inj (htext.symm.trans htext')).2).trans (stringLoop_items hi r₂))
    have hshort : f.key.length < keySize := by
      obtain ⟨again, -, -, heq⟩ := entries_true_iff.mp hread
      obtain ⟨g, -, hg⟩ := mem_map.mp (heq ▸ mem_cons_self : f ∈ again.map (·.stored keySize))
      exact hg ▸ length_stored g
    have hf : f.key = (f₀.stored keySize).key := by
      have : f₀.key = f.key := hkey.trans ((Prod.mk.inj (Read.found.inj hsame)).1.trans hd)
      rw [Entry.stored, this, take_of_length_le (by omega)]
    have hv : Valued (f₀.stored keySize) := (hbody.entries f₀ mem_cons_self).1
    obtain ⟨hplain, rfl, n, hrest⟩ := Config.reread hv hf hread
    exact ⟨⟨hplain, hv.1.level, hv.2⟩, _, n, rfl, hrest⟩

theorem Members.kept {full : List Entry} {left left' : Nat} (h : Members t full)
    (haccept : entries keySize left t = some (true, es))
    (hread : entries keySize left' (written es) = some (true, full)) : ∀ e ∈ full, Kept e := by
  induction h generalizing left left' es with
  | close => simp
  | last hm =>
    obtain ⟨hkept, -⟩ := hm.reread haccept hread
    simpa using hkept
  | @more u f r fs hm _ ih =>
    obtain ⟨hkept, es', n, rfl, hrest⟩ := hm.reread haccept hread
    obtain ⟨m, rfl⟩ : ∃ m, left = m + 1 := by
      obtain ⟨full, -, hlen, heq⟩ := entries_true_iff.mp haccept
      have := congrArg List.length heq
      simp only [length_cons, length_map] at this
      exact Nat.exists_eq_add_one_of_ne_zero (by omega)
    rw [entries_more (hm.entryText hkept), stored_eq hkept.plain.1, Result.cons,
      Option.map_eq_some_iff] at haccept
    obtain ⟨⟨ok, rest⟩, hr, heq⟩ := haccept
    cases heq
    intro e he
    rcases mem_cons.mp he with rfl | he
    · exact hkept
    · exact ih hr hrest e he

/-- An accepted text that is written and read again gives what the parser read of it exactly where
the keys are plain, and the keys and values it has exactly where all of them can be kept. -/
theorem settings_round_trip_iff {text : List Char} {es : List Entry}
    (haccept : parse text = some (true, es)) :
    (parse (write es) = some (true, es) ↔ ∀ e ∈ es, Plain e.key) ∧
    ∀ full, Reading text full → (parse (write es) = some (true, full) ↔ ∀ e ∈ full, Kept e) := by
  obtain ⟨w, t, hw, htext, hentries⟩ := parse_true_iff.mp haccept
  obtain ⟨read, hbody, hlen, hes⟩ := entries_true_iff.mp hentries
  have hv : ∀ e ∈ es, Valued e := by
    intro e he
    rw [hes] at he
    obtain ⟨f, hf, rfl⟩ := mem_map.mp he
    exact (hbody.entries f hf).1
  have hroom : es.length ≤ maxKeys := by rw [hes, length_map]; exact hlen
  refine ⟨⟨fun h => plain_of_read hv (parse_write es ▸ h), read_of_plain hroom hv⟩, ?_⟩
  rintro full ⟨w', t', hw', htext', hmembers⟩
  have ht : t = t' := by
    have heq := congrArg space (htext.symm.trans htext')
    rw [space_append hw, space_append hw', space_cons (by decide), space_cons (by decide)] at heq
    exact (List.cons.inj heq).2
  subst ht
  refine ⟨fun h => hmembers.kept hentries (parse_write es ▸ h), fun hkept => ?_⟩
  have hread : read = full := hbody.unique (hmembers.body hkept)
  subst hread
  have hstored : es = read := hes.trans (map_stored fun e he => (hkept e he).plain.1)
  rw [hstored] at hv hroom ⊢
  exact read_of_plain hroom hv fun e he => (hkept e he).plain

/-- A list of one string with brackets in it that are level. -/
def levelEntry : Entry := ⟨['a'], ['[', '"', ']', '[', '"', ']']⟩

theorem level_value_round_trips :
    parse (['{', '"', 'a', '"', ':'] ++ levelEntry.value ++ [' ', '}']) = some (true, [levelEntry]) ∧
      parse (write [levelEntry]) = some (true, [levelEntry]) := by
  have haccept : parse (['{', '"', 'a', '"', ':'] ++ levelEntry.value ++ [' ', '}']) =
      some (true, [levelEntry]) := by decide +kernel
  have hinside : Inside ['"', ']', '[', '"'] :=
    .string (k := [']', '[']) (.plain (by decide) (by decide) (.plain (by decide) (by decide) .nil)) .nil
  have hmember : Member (['"', 'a', '"', ':'] ++ levelEntry.value ++ [' ']) levelEntry :=
    @Member.mk [] ['a'] [] [] [' '] levelEntry (by simp [Blank]) (.plain (by decide) (by decide) .nil)
      (by simp [Blank]) (by simp [Blank]) (.array hinside) (by simp [Blank, isSpace])
  refine ⟨haccept, ((settings_round_trip_iff haccept).2 _ ?_).mpr ?_⟩
  · exact ⟨[], _, by simp [Blank], rfl, .last (r := []) hmember⟩
  · intro e he
    rw [mem_singleton.mp he]
    exact ⟨by decide, .inr (level_iff.mpr (by decide)), by decide⟩

/-- A closing brace inside a string ends the object it stands in, and the entry behind it is lost. -/
theorem bracket_in_string_loses_entry :
    let text := "\x7b\"a\":\x7b\"x\x7d\":1\x7d,\"b\":2\x7d".toList
    parse text = some (true, [⟨['a'], "\x7b\"x\x7d\":1".toList⟩]) := by
  decide +kernel

/-- The quote of a key is read from its escape and written without it. -/
theorem quoted_key_lost :
    let text := ['{', '"', 'a', '\\', '"', 'b', '"', ':', '1', '}']
    parse text = some (true, [⟨['a', '"', 'b'], ['1']⟩]) ∧
      parse (write [⟨['a', '"', 'b'], ['1']⟩]) = some (false, []) := by
  decide +kernel

end Autorun.Text.Config
