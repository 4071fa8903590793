import Autorun.Proofs.CatalogLines

namespace Autorun.Text.Launcher
open Lib List

/-! Values without the blanks at their ends. -/

theorem exists_strip (v : List Char) :
    ∃ a b, (∀ c ∈ a, startBlank c) ∧ (∀ c ∈ b, startBlank c) ∧ v = a ++ strip v ++ b := by
  obtain ⟨b, hb, he⟩ := exists_rdropWhile_append startBlank (v.dropWhile startBlank)
  refine ⟨v.takeWhile startBlank, b, fun c hc => mem_takeWhile_imp hc, hb, ?_⟩
  rw [append_assoc, strip, ← he, takeWhile_append_dropWhile]

variable {c d : Char} {v key : List Char}

theorem mem_strip (h : c ∈ strip v) : c ∈ v := by
  obtain ⟨a, b, _, _, he⟩ := exists_strip v
  rw [he]
  simp [h]

theorem length_strip (v : List Char) : (strip v).length ≤ v.length := by
  obtain ⟨a, b, _, _, he⟩ := exists_strip v
  have hlen := congrArg List.length he
  simp only [length_append] at hlen
  omega

theorem breaks_strip (v : List Char) : Breaks (strip v) ↔ Breaks v := by
  obtain ⟨a, b, ha, hb, he⟩ := exists_strip v
  have hblank {c : Char} (hc : startBlank c = false) : c ∉ a ∧ c ∉ b := by
    constructor <;> intro hm
    · rw [ha c hm] at hc; cases hc
    · rw [hb c hm] at hc; cases hc
  obtain ⟨hra, hrb⟩ := hblank (c := '\r') (by decide)
  obtain ⟨hna, hnb⟩ := hblank (c := '\n') (by decide)
  conv_rhs => rw [he]
  simp [Breaks, hra, hrb, hna, hnb]

theorem copyValue_written {size : Nat} (hlen : v.length < size) (h0 : '\x00' ∉ v)
    (behind : List Char) :
    copyValue size (trim (encode v) ++ '\x00' :: behind) =
      if Breaks v then .nothing else .found (strip v) := by
  have hroom : (strip v).length ≤ size - 1 := by
    have := length_strip v
    omega
  rw [copyValue, trim_encode, copyLoop_encode hroom fun h => h0 (mem_strip h)]
  simp [breaks_strip]

/-! Keys. -/

theorem Field.isKey (f : Field) : IsKey f.key := by
  cases f <;>
    exact ⟨⟨_, _, rfl, by decide, by decide, by decide, by decide⟩, by decide, by decide, by decide,
      by decide⟩

theorem fieldOf_key (f : Field) : fieldOf f.key = some f := by cases f <;> rfl

variable {f : Field} {e : Entry}

theorem setPair_written (hlen : v.length < f.size)
    (h0 : '\x00' ∉ v) (behind : List Char) :
    setPair e behind f.key (trim (encode v)) = if Breaks v then none else some (e.set (strip v) f) := by
  rw [setPair, fieldOf_key]
  simp only [copyValue_written hlen h0]
  split <;> rename_i h <;> split at h <;> simp_all

/-! Numbers. -/

theorem not_blank_of_isDigit (h : c.isDigit) : startBlank c = false ∧ endBlank c = false := by
  have hs := isspace_of_isDigit h
  simp only [isspace, mem_cons, decide_eq_false_iff_not, not_or] at hs
  obtain ⟨h1, h2, h3, _, _, h6⟩ := hs
  simp [startBlank, endBlank, h1, h2, h3, h6]

theorem trim_of_not_blank {t : List Char} (h : ∀ c ∈ t, startBlank c = false ∧ endBlank c = false) :
    trim t = t := by
  have hstart : t.dropWhile startBlank = t := by
    cases t with
    | nil => rfl
    | cons c t => exact dropWhile_cons_of_neg (by simp [(h c mem_cons_self).1])
  rw [trim, hstart, rdropWhile_eq_self_iff]
  intro hne
  simp [(h _ (getLast_mem hne)).2]

theorem trim_decimal (n : Nat) : trim (decimal n) = decimal n :=
  trim_of_not_blank fun _ hc => not_blank_of_isDigit (isDigit_toDigits hc)

theorem trim_decimalInt (n : Int) : trim (decimalInt n) = decimalInt n := by
  refine trim_of_not_blank fun c hc => ?_
  unfold decimalInt at hc
  split at hc
  · rcases mem_cons.mp hc with rfl | hc
    · exact ⟨by decide, by decide⟩
    · exact not_blank_of_isDigit (isDigit_toDigits hc)
  · exact not_blank_of_isDigit (isDigit_toDigits hc)

theorem isDigit_ne (h : c.isDigit) (hd : d.isDigit = false) : d ≠ c := by
  rintro rfl
  rw [h] at hd
  cases hd

variable {n fuel i : Nat}

theorem mem_decimal (hd : d.isDigit = false) : d ∉ decimal n :=
  fun h => isDigit_ne (isDigit_toDigits h) hd rfl

theorem mem_decimalInt {n : Int} (hd : d.isDigit = false) (hm : d ≠ '-') : d ∉ decimalInt n := by
  unfold decimalInt
  split
  · simp [hm, mem_decimal hd]
  · exact mem_decimal hd

/-- Of the numbers that fit an `int`, only one is read as one. -/
theorem atoi_decimalInt {n : Int} (hlow : -2 ^ 31 ≤ n) (hhigh : n < 2 ^ 31) :
    atoi (decimalInt n) = 1 ↔ n = 1 := by
  unfold decimalInt
  split
  case isTrue hneg =>
    have hread : readNumber ('-' :: decimal n.natAbs) = ⟨true, decimal n.natAbs, []⟩ := by
      have htake : (decimal n.natAbs).takeWhile (·.isDigit) = decimal n.natAbs :=
        takeWhile_eq_self_iff.mpr fun c hc => isDigit_toDigits hc
      have hdrop : (decimal n.natAbs).dropWhile (·.isDigit) = [] :=
        dropWhile_eq_nil_iff.mpr fun c hc => isDigit_toDigits hc
      have hsign : readSign (('-' :: decimal n.natAbs).dropWhile isspace) =
          (true, decimal n.natAbs) := rfl
      rw [readNumber, hsign]
      simp [htake, hdrop]
    have hvalue : (Number.mk true (decimal n.natAbs) []).value = n.natAbs :=
      value_toDigits n.natAbs []
    rw [atoi, hread, Number.signed, hvalue]
    simp only [↓reduceIte]
    omega
  case isFalse hpos =>
    have hread : readNumber (decimal n.natAbs) = ⟨false, decimal n.natAbs, []⟩ :=
      readNumber_all n.natAbs
    have hvalue : (Number.mk false (decimal n.natAbs) []).value = n.natAbs :=
      value_toDigits n.natAbs []
    rw [atoi, hread, Number.signed, hvalue]
    simp only [Bool.false_eq_true, ↓reduceIte]
    omega

/-! The lines of a file that was written line by line. -/

/-- A line without a break or a terminator in it. -/
def IsLine (l : List Char) : Prop := '\n' ∉ l ∧ '\x00' ∉ l

def file (ls : List (List Char)) : List Char := ls.flatMap (· ++ ['\n'])

theorem file_cons (l : List Char) (ls : List (List Char)) :
    file (l :: ls) = l ++ '\n' :: file ls := by
  simp [file]

theorem length_file (ls : List (List Char)) : ls.length ≤ (file ls).length := by
  induction ls with
  | nil => exact Nat.le_refl _
  | cons l ls ih =>
    rw [file_cons]
    simp only [length_append, length_cons]
    omega

variable {ls : List (List Char)}

theorem chunks_short (hfuel : ls.length < fuel)
    (hls : ∀ l ∈ ls, IsLine l) (hshort : ∀ l ∈ ls, l.length + 1 < lineSize) :
    chunks fuel (file ls) = ls.map fun l => (l ++ ['\n'], false) := by
  induction ls generalizing fuel with
  | nil =>
    obtain ⟨n, rfl⟩ := Nat.exists_eq_add_one_of_ne_zero (Nat.ne_zero_of_lt hfuel)
    rfl
  | cons l ls ih =>
    obtain ⟨n, rfl⟩ := Nat.exists_eq_add_one_of_ne_zero (Nat.ne_zero_of_lt hfuel)
    have hl := hshort l mem_cons_self
    have hget := fgets_line (n := lineSize - 1) (by omega) (hls l mem_cons_self).1 (file ls)
    have hrest := ih (by simpa using hfuel) (fun x hx => hls x (mem_cons_of_mem _ hx))
      fun x hx => hshort x (mem_cons_of_mem _ hx)
    rw [file_cons, chunks, hget]
    simp [hrest]

theorem readLines_short (hls : ∀ l ∈ ls, IsLine l)
    (hshort : ∀ l ∈ ls, l.length + 1 < lineSize) :
    readLines (file ls) = ls.map fun l => takeApart (trim l) := by
  have hlen := length_file ls
  rw [readLines, chunks_short (by omega) hls hshort, map_map]
  refine map_congr_left fun l hl => ?_
  exact readLine_line (hls l hl).2

theorem bad_of_long (hfuel : ls.length < fuel)
    (hls : ∀ l ∈ ls, IsLine l) (hlong : ∃ l ∈ ls, lineSize ≤ l.length + 1) :
    .bad ∈ (chunks fuel (file ls)).map readLine := by
  induction ls generalizing fuel with
  | nil => simp at hlong
  | cons l ls ih =>
    obtain ⟨n, rfl⟩ := Nat.exists_eq_add_one_of_ne_zero (Nat.ne_zero_of_lt hfuel)
    have hl := hls l mem_cons_self
    by_cases hlen : lineSize ≤ l.length + 1
    case pos =>
      have hget := fgets_part (n := lineSize - 1) (by omega) hl.1 (file ls)
      have hne : l.take (lineSize - 1) ≠ [] := by
        intro he
        have hlt := congrArg List.length he
        rw [length_take, length_nil] at hlt
        simp only [lineSize] at hlt hlen
        omega
      rw [file_cons, chunks, hget]
      simp only [hne, ↓reduceIte, map_cons, mem_cons]
      refine .inl ?_
      have hbreak : '\n' ∉ cstr (l.take (lineSize - 1)) := fun h =>
        hl.1 (mem_of_mem_take ((takeWhile_sublist _).mem h))
      simp [readLine, hbreak]
    case neg =>
      have hget := fgets_line (n := lineSize - 1) (by omega) hl.1 (file ls)
      obtain ⟨x, hx, hxlen⟩ := hlong
      have hx' : x ∈ ls := by
        rcases mem_cons.mp hx with rfl | hx
        · exact absurd hxlen hlen
        · exact hx
      have hrest := ih (by simpa using hfuel) (fun y hy => hls y (mem_cons_of_mem _ hy))
        ⟨x, hx', hxlen⟩
      rw [file_cons, chunks, hget]
      simp only [append_eq_nil_iff, cons_ne_self, and_false, ↓reduceIte, map_cons,
        mem_cons]
      exact .inr hrest

variable {lines : List Line} {behind : Nat → List Char} {l : Loader}

theorem run_bad (h : .bad ∈ lines) : l.run behind i lines = none := by
  induction lines generalizing l i with
  | nil => simp at h
  | cons line lines ih =>
    rw [Loader.run]
    rcases mem_cons.mp h with rfl | h
    · rfl
    · cases l.step (behind i) line with
      | none => rfl
      | some l => exact ih h

/-- A line that is read the same whatever the line buffer holds behind it. -/
def Steady (line : Line) : Prop := ∀ (l : Loader) (behind : List Char), l.step behind line = l.step [] line

/-- The loop over lines that do not depend on what is behind them. -/
def Loader.fold (l : Loader) (lines : List Line) : Option Loader := lines.foldlM (·.step []) l

theorem fold_cons (l : Loader) (line : Line) (lines : List Line) :
    l.fold (line :: lines) = (l.step [] line).bind (·.fold lines) :=
  foldlM_cons

theorem fold_skip (l : Loader) (lines : List Line) : l.fold (.skip :: lines) = l.fold lines :=
  fold_cons l .skip lines

theorem run_steady (h : ∀ line ∈ lines, Steady line) : l.run behind i lines = l.fold lines := by
  induction lines generalizing l i with
  | nil => rfl
  | cons line lines ih =>
    have hrest {l : Loader} := ih (l := l) (i := i + 1) fun x hx => h x (mem_cons_of_mem _ hx)
    rw [Loader.run, h line mem_cons_self, fold_cons]
    exact congrArg _ (funext fun l => hrest)

/-! What the loader makes of the lines of an entry. -/

structure Entry.Fits (e : Entry) : Prop where
  id : e.id < 2 ^ 32
  added : e.addedOrder < 2 ^ 32
  launched : e.launchedOrder < 2 ^ 32
  favorite : -2 ^ 31 ≤ e.favorite ∧ e.favorite < 2 ^ 31
  fields : ∀ f, (e.get f).length < f.size ∧ '\x00' ∉ e.get f

def artPairs (f : Field) (e : Entry) : List (List Char × List Char) :=
  if e.get f = [] then [] else [(f.key, trim (encode (e.get f)))]

def entryPairs (e : Entry) : List (List Char × List Char) :=
  [(Field.path.key, trim (encode e.path)), (Field.title.key, trim (encode e.title)),
    ("added-order".toList, decimal e.addedOrder), ("launched-order".toList, decimal e.launchedOrder),
    ("favorite".toList, decimalInt e.favorite)] ++
  artPairs .squareArt e ++ artPairs .portraitArt e ++ artPairs .heroArt e

theorem takeApart_art (f : Field) (e : Entry) :
    (artLines f e).map (fun l => takeApart (trim l)) = (artPairs f e).map fun p => .pair p.1 p.2 := by
  unfold artLines artPairs
  split
  · rfl
  · simp [valueLine, pairLine, takeApart_trim f.isKey]

theorem trim_game (n : Nat) :
    trim ("[game ".toList ++ decimal n ++ [']']) = "[game ".toList ++ decimal n ++ [']'] := by
  have hsplit : "[game ".toList ++ decimal n ++ [']'] = '[' :: ("game ".toList ++ decimal n ++ [']']) := rfl
  rw [hsplit, trim_cons (by decide), ← cons_append, rdropWhile_concat_neg _ _ _ (by decide)]

theorem takeApart_game (h : n < 2 ^ 32) :
    takeApart (trim ("[game ".toList ++ decimal n ++ [']'])) = .game n := by
  have hspace : (' ' :: (decimal n ++ [']'])).dropWhile isspace = decimal n ++ [']'] := by
    obtain ⟨d, ds, hd⟩ := exists_cons_of_ne_nil (l := decimal n) Nat.toDigits_ne_nil
    have hdigit : d.isDigit := isDigit_toDigits (n := n) (by rw [← decimal, hd]; exact mem_cons_self)
    rw [dropWhile_cons_of_pos (by decide), hd, cons_append,
      dropWhile_cons_of_neg (by simp [isspace_of_isDigit hdigit])]
  have hscan : scanUnsigned (decimal n ++ [']']) = some (n, [']']) :=
    scanUnsigned_toDigits h (by simp)
  have hgame : scanGame ("[game ".toList ++ decimal n ++ [']']) = some n := by
    have hpre : "[game".toList <+: "[game ".toList ++ decimal n ++ [']'] :=
      ⟨' ' :: (decimal n ++ [']']), by simp⟩
    have hdrop : ("[game ".toList ++ decimal n ++ [']']).drop 5 = ' ' :: (decimal n ++ [']']) := by simp
    rw [scanGame, if_pos hpre, hdrop, hspace, hscan]
    simp
  rw [trim_game, takeApart, hgame]
  rfl

/-- The keys of the lines that hold a number. -/
def numberKeys : List (List Char) :=
  ["version".toList, "next-id".toList, "added-order".toList, "launched-order".toList,
    "favorite".toList]

theorem isKey_number (h : key ∈ numberKeys) : IsKey key := by
  simp only [numberKeys, mem_cons, not_mem_nil, or_false] at h
  rcases h with rfl | rfl | rfl | rfl | rfl <;>
    exact ⟨⟨_, _, rfl, by decide, by decide, by decide, by decide⟩, by decide, by decide, by decide,
      by decide⟩

theorem takeApart_number {value : List Char} (hkey : key ∈ numberKeys)
    (hvalue : trim value = value) : takeApart (trim (pairLine key value)) = .pair key value := by
  rw [pairLine, takeApart_trim (isKey_number hkey), hvalue]

theorem takeApart_field (f : Field) (value : List Char) :
    takeApart (trim (valueLine f.key value)) = .pair f.key (trim (encode value)) :=
  takeApart_trim f.isKey

theorem takeApart_entry (h : e.id < 2 ^ 32) :
    (entryLines e).map (fun l => takeApart (trim l)) =
      .skip :: .game e.id :: (entryPairs e).map fun p => .pair p.1 p.2 := by
  have hadded := @takeApart_number "added-order".toList _ (by decide) (trim_decimal e.addedOrder)
  have hlaunched :=
    @takeApart_number "launched-order".toList _ (by decide) (trim_decimal e.launchedOrder)
  have hfavorite := @takeApart_number "favorite".toList _ (by decide) (trim_decimalInt e.favorite)
  simp only [entryLines, entryPairs, map_append, map_cons, takeApart_art, takeApart_game h, takeApart_field, hadded, hlaunched, hfavorite]
  rfl

def Entry.reread (e : Entry) : Entry :=
  { e with
    favorite := if e.favorite = 1 then 1 else 0
    path := strip e.path
    title := strip e.title
    squareArt := strip e.squareArt
    portraitArt := strip e.portraitArt
    heroArt := strip e.heroArt }

/-- No field of the entry has a line break in it. -/
def Unbroken (e : Entry) : Prop := ∀ f, ¬ Breaks (e.get f)

def setPairs (e : Entry) (ps : List (List Char × List Char)) : Option Entry :=
  ps.foldlM (fun e p => setPair e [] p.1 p.2) e

theorem setPairs_art {d : Entry} (he : e.Fits) (hb : ¬ Breaks (e.get f))
    (hd : d.get f = []) : setPairs d (artPairs f e) = some (d.set (strip (e.get f)) f) := by
  unfold artPairs
  split
  case isTrue hnil =>
    have hset : d.set [] f = d := by cases f <;> (cases d; cases hd; rfl)
    rw [hnil]
    exact congrArg some hset.symm
  case isFalse =>
    obtain ⟨hlen, h0⟩ := he.fields f
    rw [setPairs, foldlM_cons, setPair_written hlen h0, if_neg hb]
    rfl

theorem setPairs_append (e : Entry) (ps qs : List (List Char × List Char)) :
    setPairs e (ps ++ qs) = (setPairs e ps).bind (setPairs · qs) :=
  foldlM_append

def Entry.fresh (id : Nat) : Entry := ⟨id, 0, 0, 0, [], [], [], [], []⟩

theorem fieldOf_number (h : key ∈ numberKeys) : fieldOf key = none := by
  simp only [numberKeys, mem_cons, not_mem_nil, or_false] at h
  rcases h with rfl | rfl | rfl | rfl | rfl <;> decide

theorem setPair_addedOrder (e : Entry) (behind value : List Char) :
    setPair e behind "added-order".toList value =
      some { e with addedOrder := wrap (strtoul value) } := by
  rw [setPair, fieldOf_number (by decide)]
  exact (if_neg (by decide)).trans (if_pos rfl)

theorem setPair_launchedOrder (e : Entry) (behind value : List Char) :
    setPair e behind "launched-order".toList value =
      some { e with launchedOrder := wrap (strtoul value) } := by
  rw [setPair, fieldOf_number (by decide)]
  exact (if_neg (by decide)).trans ((if_neg (by decide)).trans (if_pos rfl))

theorem setPair_favorite (e : Entry) (behind value : List Char) :
    setPair e behind "favorite".toList value =
      some { e with favorite := if atoi value = 1 then 1 else 0 } := by
  rw [setPair, fieldOf_number (by decide)]
  exact if_pos rfl

theorem wrap_decimal (h : n < 2 ^ 32) : wrap (strtoul (decimal n)) = n := by
  rw [decimal, strtoul_toDigits (by omega), wrap, Nat.mod_eq_of_lt h]

theorem setPairs_entry (he : e.Fits) (hb : Unbroken e) :
    setPairs (.fresh e.id) (entryPairs e) = some e.reread := by
  have hfield (d : Entry) (f : Field) :
      setPair d [] f.key (trim (encode (e.get f))) = some (d.set (strip (e.get f)) f) := by
    obtain ⟨hlen, h0⟩ := he.fields f
    rw [setPair_written hlen h0, if_neg (hb f)]
  have hone := atoi_decimalInt he.favorite.1 he.favorite.2
  have hbase : setPairs (.fresh e.id)
      [(Field.path.key, trim (encode e.path)), (Field.title.key, trim (encode e.title)),
        ("added-order".toList, decimal e.addedOrder),
        ("launched-order".toList, decimal e.launchedOrder),
        ("favorite".toList, decimalInt e.favorite)] =
      some { e.reread with squareArt := [], portraitArt := [], heroArt := [] } := by
    have hpath (d : Entry) := hfield d .path
    have htitle (d : Entry) := hfield d .title
    simp only [Entry.get] at hpath htitle
    simp only [setPairs, foldlM_cons, hpath, htitle, setPair_addedOrder, setPair_launchedOrder, setPair_favorite, wrap_decimal he.added, wrap_decimal he.launched, hone]
    rfl
  rw [entryPairs, setPairs_append, setPairs_append, setPairs_append, hbase, Option.bind_some,
    setPairs_art he (hb .squareArt) rfl, Option.bind_some, setPairs_art he (hb .portraitArt) rfl,
    Option.bind_some, setPairs_art he (hb .heroArt) rfl]
  rfl

theorem setPairs_none {ps : List (List Char × List Char)}
    (h : ∃ p ∈ ps, ∀ d, setPair d [] p.1 p.2 = none) : setPairs e ps = none := by
  induction ps generalizing e with
  | nil => simp at h
  | cons q ps ih =>
    obtain ⟨p, hp, hnone⟩ := h
    rw [setPairs, foldlM_cons]
    rcases mem_cons.mp hp with rfl | hp
    · rw [hnone e]
      rfl
    · cases setPair e [] q.1 q.2 with
      | none => rfl
      | some d => exact ih ⟨p, hp, hnone⟩

theorem mem_entryPairs (h : Breaks (e.get f)) :
    (f.key, trim (encode (e.get f))) ∈ entryPairs e := by
  have hart : (f.key, trim (encode (e.get f))) ∈ artPairs f e := by
    have hne : e.get f ≠ [] := by
      rintro hnil
      simp [hnil, Breaks] at h
    simp [artPairs, hne]
  cases f with
  | path => simp [entryPairs, Entry.get]
  | title => simp [entryPairs, Entry.get]
  | _ => simp [entryPairs, hart]

theorem setPairs_broken {d : Entry} (he : e.Fits) (hb : ¬ Unbroken e) :
    setPairs d (entryPairs e) = none := by
  obtain ⟨f, hf⟩ := not_forall.mp hb
  have hf := not_not.mp hf
  obtain ⟨hlen, h0⟩ := he.fields f
  refine setPairs_none ⟨_, mem_entryPairs hf, fun d => ?_⟩
  rw [setPair_written hlen h0, if_pos hf]

theorem fold_pairs (l : Loader) (e : Entry) (ps : List (List Char × List Char)) :
    ({ l with current := some e } : Loader).fold (ps.map fun p => .pair p.1 p.2) =
      (setPairs e ps).map fun e => { l with current := some e } := by
  induction ps generalizing e with
  | nil => rfl
  | cons p ps ih =>
    rw [map_cons, fold_cons, setPairs, foldlM_cons]
    simp only [Loader.step]
    cases setPair e [] p.1 p.2 with
    | none => rfl
    | some d => exact ih d

theorem fold_append (l : Loader) (as bs : List Line) :
    l.fold (as ++ bs) = (l.fold as).bind (·.fold bs) :=
  foldlM_append

def idAfter (next id : Nat) : Nat := if next ≤ id then wrap (id + 1) else next

theorem step_game (hn : n ≠ 0) (hroom : l.entries.length < maxEntries)
    (behind : List Char) :
    l.step behind (.game n) =
      some ⟨l.entries, some (.fresh n), idAfter l.nextId n, l.version⟩ := by
  rw [Loader.step, if_neg (by omega)]
  rfl

theorem fold_entry (he : e.Fits) (hn : e.id ≠ 0) (hb : Unbroken e)
    (hroom : l.entries.length < maxEntries) :
    l.fold ((entryLines e).map fun x => takeApart (trim x)) =
      some ⟨l.entries, some e.reread, idAfter l.nextId e.id, l.version⟩ := by
  have hpairs := fold_pairs ⟨l.entries, none, idAfter l.nextId e.id, l.version⟩ (.fresh e.id)
    (entryPairs e)
  rw [setPairs_entry he hb] at hpairs
  rw [takeApart_entry he.id, fold_skip, fold_cons, step_game hn hroom, Option.bind_some]
  exact hpairs

theorem fold_entry_some {l' : Loader} (he : e.Fits)
    (h : l.fold ((entryLines e).map fun x => takeApart (trim x)) = some l') :
    e.id ≠ 0 ∧ Unbroken e ∧ l.entries.length < maxEntries := by
  rw [takeApart_entry he.id, fold_skip, fold_cons] at h
  by_cases hgame : e.id = 0 ∨ maxEntries ≤ l.entries.length
  case pos =>
    rw [Loader.step, if_pos hgame] at h
    cases h
  case neg =>
    obtain ⟨hn, hroom⟩ := not_or.mp hgame
    have hroom := Nat.lt_of_not_le hroom
    refine ⟨hn, ?_, hroom⟩
    by_contra hb
    have hpairs := fold_pairs ⟨l.entries, none, idAfter l.nextId e.id, l.version⟩ (.fresh e.id)
      (entryPairs e)
    rw [setPairs_broken he hb] at hpairs
    rw [step_game hn hroom, Option.bind_some] at h
    cases h.symm.trans hpairs

end Autorun.Text.Launcher
