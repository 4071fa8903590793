import Autorun.Proofs.CatalogLoad

namespace Autorun.Text.Launcher
open Lib List

structure Catalog.Fits (catalog : Catalog) : Prop where
  entries : ∀ e ∈ catalog.entries, e.Fits
  count : catalog.entries.length ≤ maxEntries
  nextId : catalog.nextId < 2 ^ 32

/-! The lines that are written. -/

variable {key value v : List Char}

theorem isLine_pair (hkey : IsKey key) (hvalue : IsLine value) : IsLine (pairLine key value) := by
  constructor
  · simp [pairLine, hkey.break_, hvalue.1]
  · simp [pairLine, hkey.zero, hvalue.2]

theorem isLine_encode (h : '\x00' ∉ v) : IsLine (encode v) :=
  ⟨mem_encode_break v, mem_encode_zero h⟩

theorem isLine_decimal (n : Nat) : IsLine (decimal n) := ⟨mem_decimal rfl, mem_decimal rfl⟩

theorem isLine_decimalInt (n : Int) : IsLine (decimalInt n) :=
  ⟨mem_decimalInt rfl (by decide), mem_decimalInt rfl (by decide)⟩

theorem isLine_game (n : Nat) : IsLine ("[game ".toList ++ decimal n ++ [']']) := by
  obtain ⟨hb, h0⟩ := isLine_decimal n
  constructor
  · simp [hb]
  · simp [h0]

variable {e : Entry} {f : Field}

theorem isLine_art (h : '\x00' ∉ e.get f) : ∀ l ∈ artLines f e, IsLine l := by
  intro l hl
  unfold artLines at hl
  split at hl
  · simp at hl
  · rw [mem_singleton.mp hl]
    exact isLine_pair f.isKey (isLine_encode h)

theorem isLine_entry (he : e.Fits) : ∀ l ∈ entryLines e, IsLine l := by
  have hnumber {key : List Char} (hkey : key ∈ numberKeys) (n : Nat) :
      IsLine (pairLine key (decimal n)) := isLine_pair (isKey_number hkey) (isLine_decimal n)
  have hfield (f : Field) : IsLine (valueLine f.key (e.get f)) :=
    isLine_pair f.isKey (isLine_encode (he.fields f).2)
  have hart (f : Field) := isLine_art (he.fields f).2
  intro l hl
  simp only [entryLines, mem_append, mem_cons, not_mem_nil, or_false] at hl
  rcases hl with (((rfl | rfl | rfl | rfl | rfl | rfl | rfl) | hl) | hl) | hl
  · exact ⟨not_mem_nil, not_mem_nil⟩
  · exact isLine_game e.id
  · exact hfield .path
  · exact hfield .title
  · exact hnumber (by decide) e.addedOrder
  · exact hnumber (by decide) e.launchedOrder
  · exact isLine_pair (isKey_number (by decide)) (isLine_decimalInt e.favorite)
  · exact hart .squareArt l hl
  · exact hart .portraitArt l hl
  · exact hart .heroArt l hl

variable {catalog : Catalog}

theorem isLine_saved (h : catalog.Fits) : ∀ l ∈ savedLines catalog, IsLine l := by
  intro l hl
  simp only [savedLines, mem_append, mem_cons, not_mem_nil, or_false,
    mem_flatMap] at hl
  rcases hl with (rfl | rfl) | ⟨e, he, hl⟩
  · exact isLine_pair (isKey_number (by decide)) (isLine_decimal _)
  · exact isLine_pair (isKey_number (by decide)) (isLine_decimal _)
  · exact isLine_entry (h.entries e he) l hl

/-! What the lines are read as does not depend on the line buffer. -/

/-- A line with a key depends on the line buffer only through the value that an entry gets. -/
theorem steady_pair (h : ∀ e behind, setPair e behind key value = setPair e [] key value) :
    Steady (.pair key value) := by
  intro l behind
  rw [Loader.step, Loader.step]
  cases l.current with
  | none => rfl
  | some e =>
    dsimp only
    rw [h e behind]

theorem steady_field (hlen : v.length < f.size) (h0 : '\x00' ∉ v) :
    Steady (.pair f.key (trim (encode v))) := by
  refine steady_pair fun e behind => ?_
  rw [setPair_written hlen h0, setPair_written hlen h0]

theorem steady_number (hkey : fieldOf key = none) (value : List Char) :
    Steady (.pair key value) := by
  refine steady_pair fun e behind => ?_
  rw [setPair, setPair, hkey]

theorem steady_entry (he : e.Fits) :
    ∀ line ∈ (entryLines e).map (fun l => takeApart (trim l)), Steady line := by
  have hfield (f : Field) : Steady (.pair f.key (trim (encode (e.get f)))) :=
    steady_field (he.fields f).1 (he.fields f).2
  have hart (f : Field) : ∀ p ∈ artPairs f e, Steady (.pair p.1 p.2) := by
    intro p hp
    unfold artPairs at hp
    split at hp
    · simp at hp
    · rw [mem_singleton.mp hp]
      exact hfield f
  rw [takeApart_entry he.id]
  intro line hline
  simp only [mem_cons, mem_map] at hline
  rcases hline with rfl | rfl | ⟨p, hp, rfl⟩
  · exact fun _ _ => rfl
  · exact fun _ _ => rfl
  · simp only [entryPairs, mem_append, mem_cons, not_mem_nil, or_false] at hp
    rcases hp with (((rfl | rfl | rfl | rfl | rfl) | hp) | hp) | hp
    · exact hfield .path
    · exact hfield .title
    · exact steady_number (@fieldOf_number "added-order".toList (by decide)) _
    · exact steady_number (@fieldOf_number "launched-order".toList (by decide)) _
    · exact steady_number (@fieldOf_number "favorite".toList (by decide)) _
    · exact hart .squareArt p hp
    · exact hart .portraitArt p hp
    · exact hart .heroArt p hp

theorem takeApart_saved (catalog : Catalog) :
    (savedLines catalog).map (fun l => takeApart (trim l)) =
      .pair "version".toList (decimal currentVersion) ::
      .pair "next-id".toList (decimal catalog.nextId) ::
      catalog.entries.flatMap fun e => (entryLines e).map fun l => takeApart (trim l) := by
  have hversion := @takeApart_number "version".toList _ (by decide) (trim_decimal currentVersion)
  have hnext := @takeApart_number "next-id".toList _ (by decide) (trim_decimal catalog.nextId)
  rw [savedLines, map_append, map_flatMap, map_cons, map_cons, hversion, hnext]
  rfl

theorem run_saved (h : catalog.Fits) (l : Loader) (behind : Nat → List Char)
    (i : Nat) : l.run behind i ((savedLines catalog).map fun l => takeApart (trim l)) =
      l.fold ((savedLines catalog).map fun l => takeApart (trim l)) := by
  refine run_steady fun line hline => ?_
  rw [takeApart_saved] at hline
  simp only [mem_cons, mem_flatMap] at hline
  rcases hline with rfl | rfl | ⟨e, he, hline⟩
  · exact steady_number (fieldOf_number (by decide)) _
  · exact steady_number (fieldOf_number (by decide)) _
  · exact steady_entry (h.entries e he) line hline

/-! What the lines leave behind. -/

theorem fold_header (h : catalog.nextId < 2 ^ 32) (lines : List Line) :
    Loader.start.fold (.pair "version".toList (decimal currentVersion) ::
        .pair "next-id".toList (decimal catalog.nextId) :: lines) =
      if 0 < catalog.nextId ∧ catalog.nextId < uintMax then
        (Loader.mk [] none catalog.nextId currentVersion).fold lines
      else none := by
  have hversion : Loader.start.step [] (.pair "version".toList (decimal currentVersion)) =
      some ⟨[], none, 1, currentVersion⟩ := by
    rw [Loader.step]
    refine (if_pos rfl).trans ?_
    rfl
  have hnext : (Loader.mk [] none 1 currentVersion).step []
      (.pair "next-id".toList (decimal catalog.nextId)) =
      if catalog.nextId = 0 ∨ uintMax ≤ catalog.nextId then none
      else some ⟨[], none, catalog.nextId, currentVersion⟩ := by
    rw [Loader.step]
    refine (if_neg (by decide)).trans ((if_pos rfl).trans ?_)
    rw [decimal, strtoulAll_toDigits (by omega)]
  rw [fold_cons, hversion, Option.bind_some, fold_cons, hnext]
  by_cases hid : 0 < catalog.nextId ∧ catalog.nextId < uintMax
  · rw [if_pos hid, if_neg (by omega), Option.bind_some]
  · rw [if_neg hid, if_pos (by omega), Option.bind_none]

variable {l : Loader} {es seen : List Entry}

theorem fold_entries (hes : ∀ e ∈ es, e.Fits)
    (hok : ∀ e ∈ es, e.id ≠ 0 ∧ Unbroken e) (hroom : l.entries.length + es.length ≤ maxEntries) :
    ∃ l', l.fold (es.flatMap fun e => (entryLines e).map fun l => takeApart (trim l)) = some l' ∧
      l'.entries = l.entries ++ es.map (·.reread) ∧ l'.version = l.version := by
  induction es generalizing l with
  | nil => exact ⟨l, rfl, by simp, rfl⟩
  | cons e es ih =>
    obtain ⟨hn, hb⟩ := hok e mem_cons_self
    rw [length_cons] at hroom
    have hfirst := fold_entry (hes e mem_cons_self) hn hb (l := l) (by omega)
    obtain ⟨l', hl', hentries, hversion⟩ := ih
      (l := ⟨l.entries, some e.reread, idAfter l.nextId e.id, l.version⟩)
      (fun x hx => hes x (mem_cons_of_mem _ hx)) (fun x hx => hok x (mem_cons_of_mem _ hx))
      (by simp only [Loader.entries, Option.toList, length_append, length_singleton] at hroom ⊢
          omega)
    refine ⟨l', ?_, ?_, hversion⟩
    · rw [flatMap_cons, fold_append, hfirst, Option.bind_some, hl']
    · rw [hentries]
      simp [Loader.entries]

theorem fold_entries_some {l' : Loader} (hes : ∀ e ∈ es, e.Fits)
    (h : l.fold (es.flatMap fun e => (entryLines e).map fun l => takeApart (trim l)) = some l') :
    ∀ e ∈ es, e.id ≠ 0 ∧ Unbroken e := by
  induction es generalizing l with
  | nil => simp
  | cons e es ih =>
    rw [flatMap_cons, fold_append, Option.bind_eq_some_iff] at h
    obtain ⟨m, hm, hrest⟩ := h
    have hfirst := fold_entry_some (hes e mem_cons_self) hm
    intro x hx
    rcases mem_cons.mp hx with rfl | hx
    · exact ⟨hfirst.1, hfirst.2.1⟩
    · exact ih (fun y hy => hes y (mem_cons_of_mem _ hy)) hrest x hx

/-! The last look at the entries. -/

/-- Two entries that the loader takes for different ones. -/
def Apart (d e : Entry) : Prop := d.id ≠ e.id ∧ ¬ SameName d.path e.path

/-- Every entry has an order, or follows an entry after which the orders have wrapped to zero. -/
def OrdersKept : Bool → List Entry → Prop
  | _, [] => True
  | wrapped, e :: es => (e.addedOrder ≠ 0 ∨ wrapped) ∧ OrdersKept (e.launchedOrder = uintMax) es

variable {order : Nat}

theorem settleOrder_eq : (settleOrder e order).1 = e ↔ e.addedOrder ≠ 0 ∨ order = 0 := by
  obtain ⟨id, added, launched, favorite, path, title, square, portrait, hero⟩ := e
  by_cases h : added = 0
  · simp [settleOrder, h]
  · simp [settleOrder, h]

/-- An entry that only gets an order and is then as it was saved was read as it was saved. -/
theorem reread_eq_of_settleOrder (h : (settleOrder e.reread order).1 = e) : e.reread = e := by
  have hset : (settleOrder e.reread order).1 =
      { e.reread with addedOrder := (settleOrder e.reread order).1.addedOrder } := by
    by_cases hz : e.reread.addedOrder = 0 <;> simp [settleOrder, hz]
  rw [h] at hset
  exact hset.symm

theorem wrap_lt (n : Nat) : wrap n < 2 ^ 32 := Nat.mod_lt _ (by decide)

theorem settleOrder_next (hl : e.launchedOrder < 2 ^ 32)
    (ho : order < 2 ^ 32) :
    (settleOrder e order).2 < 2 ^ 32 ∧
      ((settleOrder e order).2 = 0 ↔ e.launchedOrder = uintMax) := by
  have hlast {o : Nat} (h : o < 2 ^ 32) :
      (if o ≤ e.launchedOrder then wrap (e.launchedOrder + 1) else o) < 2 ^ 32 ∧
      ((if o ≤ e.launchedOrder then wrap (e.launchedOrder + 1) else o) = 0 ↔
        e.launchedOrder = uintMax) := by
    simp only [wrap, uintMax]
    split <;> omega
  have hadded {o a : Nat} (h : o < 2 ^ 32) : (if o ≤ a then wrap (a + 1) else o) < 2 ^ 32 := by
    split
    · exact wrap_lt _
    · exact h
  rw [settleOrder]
  by_cases h : e.addedOrder = 0
  · simp only [h]
    exact hlast (hadded (wrap_lt _))
  · simp only [h]
    exact hlast (hadded ho)

/-- What the loader asks of an entry and the ones before it. -/
def Welcome (seen : List Entry) (e : Entry) : Prop := e.path ≠ [] ∧ ∀ d ∈ seen, Apart d e

theorem settle_welcome (h : Welcome seen e) :
    settle seen order (e :: es) =
      (settle (seen ++ [(settleOrder e order).1]) (settleOrder e order).2 es).map
        fun p => ((settleOrder e order).1 :: p.1, p.2) := by
  rw [settle, if_neg]
  rintro (hp | ⟨d, hd, hid | hname⟩)
  · exact h.1 hp
  · exact (h.2 d hd).1 hid
  · exact (h.2 d hd).2 hname

theorem settle_unwelcome (h : ¬ Welcome seen e) : settle seen order (e :: es) = none := by
  rw [settle, if_pos]
  by_contra hbad
  simp only [not_or, not_exists, not_and] at hbad
  exact h ⟨hbad.1, fun d hd => hbad.2 d hd⟩

/-- An entry that is settled is welcome, and the others are settled behind it. -/
theorem settle_cons {es' : List Entry} {next : Nat}
    (h : settle seen order (e :: es) = some (es', next)) :
    Welcome seen e ∧ ∃ rest, es' = (settleOrder e order).1 :: rest ∧
      settle (seen ++ [(settleOrder e order).1]) (settleOrder e order).2 es = some (rest, next) := by
  by_cases hw : Welcome seen e
  · rw [settle_welcome hw, Option.map_eq_some_iff] at h
    obtain ⟨⟨rest, n⟩, hrest, heq⟩ := h
    cases heq
    exact ⟨hw, rest, rfl, hrest⟩
  · rw [settle_unwelcome hw] at h
    cases h

theorem settle_iff (hes : ∀ e ∈ es, e.launchedOrder < 2 ^ 32)
    (ho : order < 2 ^ 32) :
    (∃ next, settle seen order es = some (es, next)) ↔
      (∀ e ∈ es, Welcome seen e) ∧ es.Pairwise Apart ∧ OrdersKept (order = 0) es := by
  induction es generalizing seen order with
  | nil => simp [settle, OrdersKept]
  | cons e es ih =>
    by_cases hw : Welcome seen e
    case neg =>
      rw [settle_unwelcome hw]
      constructor
      · rintro ⟨_, h⟩
        cases h
      · rintro ⟨hall, _⟩
        exact absurd (hall e mem_cons_self) hw
    case pos =>
      obtain ⟨hnext, hzero⟩ := settleOrder_next (hes e mem_cons_self) ho
      have hrest {s : List Entry} :=
        @ih s (settleOrder e order).2 (fun x hx => hes x (mem_cons_of_mem _ hx)) hnext
      have hbool : decide ((settleOrder e order).2 = 0) = decide (e.launchedOrder = uintMax) :=
        decide_eq_decide.mpr hzero
      have hseen (x : Entry) : Welcome (seen ++ [e]) x ↔ Welcome seen x ∧ Apart e x := by
        simp [Welcome, or_imp, forall_and, and_assoc]
      rw [settle_welcome hw]
      simp only [Option.map_eq_some_iff, Prod.mk.injEq, List.cons.injEq, mem_cons, forall_eq_or_imp,
        pairwise_cons, OrdersKept, decide_eq_true_eq]
      constructor
      · rintro ⟨_, ⟨p, hp, ⟨he, rfl⟩, rfl⟩⟩
        rw [he] at hp
        obtain ⟨hwel, hpair, horder⟩ := hrest.mp ⟨_, hp⟩
        rw [hbool] at horder
        exact ⟨⟨hw, fun x hx => ((hseen x).mp (hwel x hx)).1⟩,
          ⟨fun x hx => ((hseen x).mp (hwel x hx)).2, hpair⟩, settleOrder_eq.mp he, horder⟩
      · rintro ⟨⟨_, hwel⟩, ⟨hapart, hpair⟩, hadded, horder⟩
        have he := settleOrder_eq.mpr hadded
        rw [← hbool] at horder
        obtain ⟨next, hp⟩ := hrest.mpr
          ⟨fun x hx => (hseen x).mpr ⟨hwel x hx, hapart x hx⟩, hpair, horder⟩
        exact ⟨next, (es, next), by rw [he]; exact hp, ⟨he, rfl⟩, rfl⟩

/-- Entries that come out as they were saved were read as they were saved. -/
theorem reread_of_settle {next : Nat}
    (h : settle seen order (es.map (·.reread)) = some (es, next)) : ∀ e ∈ es, e.reread = e := by
  induction es generalizing seen order with
  | nil => simp
  | cons e es ih =>
    obtain ⟨-, rest, heq, hrest⟩ := settle_cons h
    obtain ⟨he, rfl⟩ := List.cons.inj heq
    exact forall_mem_cons.mpr ⟨reread_eq_of_settleOrder he.symm, ih hrest⟩

/-! Libraries that are read as they were saved. -/

def Bare (v : List Char) : Prop :=
  (∀ c, v.head? = some c → startBlank c = false) ∧ ∀ c, v.getLast? = some c → startBlank c = false

theorem strip_eq_iff : strip v = v ↔ Bare v := by
  have hstart : v.dropWhile startBlank = v ↔ ∀ c, v.head? = some c → startBlank c = false := by
    cases v with
    | nil => simp
    | cons c v => simp
  have hend : v.rdropWhile startBlank = v ↔ ∀ c, v.getLast? = some c → startBlank c = false := by
    cases v using List.reverseRecOn with
    | nil => simp
    | append_singleton v c => simp
  rw [Bare, ← hstart, ← hend]
  constructor
  · intro h
    have hlen := congrArg List.length h
    have h1 := (dropWhile_sublist (l := v) startBlank)
    have h2 := ( rdropWhile_prefix startBlank (l := v.dropWhile startBlank)).length_le
    have hdrop : v.dropWhile startBlank = v := h1.eq_of_length_le (by rw [strip] at hlen; omega)
    exact ⟨hdrop, by rw [strip, hdrop] at h; exact h⟩
  · rintro ⟨h1, h2⟩
    rw [strip, h1, h2]

theorem reread_eq_iff : e.reread = e ↔ (e.favorite = 0 ∨ e.favorite = 1) ∧ ∀ f, Bare (e.get f) := by
  have hfavorite : (if e.favorite = 1 then (1 : Int) else 0) = e.favorite ↔
      e.favorite = 0 ∨ e.favorite = 1 := by
    split <;> omega
  simp only [← strip_eq_iff, ← hfavorite]
  constructor
  · intro h
    refine ⟨congrArg Entry.favorite h, fun f => ?_⟩
    cases f with
    | path => exact congrArg Entry.path h
    | title => exact congrArg Entry.title h
    | squareArt => exact congrArg Entry.squareArt h
    | portraitArt => exact congrArg Entry.portraitArt h
    | heroArt => exact congrArg Entry.heroArt h
  · rintro ⟨hf, hget⟩
    have h1 : strip e.path = e.path := hget .path
    have h2 : strip e.title = e.title := hget .title
    have h3 : strip e.squareArt = e.squareArt := hget .squareArt
    have h4 : strip e.portraitArt = e.portraitArt := hget .portraitArt
    have h5 : strip e.heroArt = e.heroArt := hget .heroArt
    rw [Entry.reread, hf, h1, h2, h3, h4, h5]

structure Keepable (catalog : Catalog) : Prop where
  nextId : 0 < catalog.nextId ∧ catalog.nextId < uintMax
  lines : ∀ l ∈ savedLines catalog, l.length + 1 < lineSize
  ids : ∀ e ∈ catalog.entries, e.id ≠ 0
  paths : ∀ e ∈ catalog.entries, e.path ≠ []
  apart : catalog.entries.Pairwise Apart
  unbroken : ∀ e ∈ catalog.entries, Unbroken e
  bare : ∀ e ∈ catalog.entries, ∀ f, Bare (e.get f)
  favorites : ∀ e ∈ catalog.entries, e.favorite = 0 ∨ e.favorite = 1
  orders : OrdersKept false catalog.entries

theorem load_save (h : catalog.Fits) (behind : Nat → List Char)
    (hlines : ∀ l ∈ savedLines catalog, l.length + 1 < lineSize) :
    Loader.start.run behind 0 (readLines (save catalog)) =
      if 0 < catalog.nextId ∧ catalog.nextId < uintMax then
        (Loader.mk [] none catalog.nextId currentVersion).fold
          (catalog.entries.flatMap fun e => (entryLines e).map fun l => takeApart (trim l))
      else none := by
  have hread : readLines (save catalog) = (savedLines catalog).map fun l => takeApart (trim l) :=
    readLines_short (isLine_saved h) hlines
  rw [hread, run_saved h, takeApart_saved, fold_header h.nextId]

theorem load_long (h : catalog.Fits) (behind : Nat → List Char)
    (hlong : ∃ l ∈ savedLines catalog, lineSize ≤ l.length + 1) : load behind (save catalog) = none := by
  have hbad : .bad ∈ readLines (save catalog) :=
    bad_of_long (Nat.lt_succ_of_le (length_file _)) (isLine_saved h) hlong
  rw [load, run_bad hbad]

def oneGame (title : List Char) : Catalog :=
  ⟨[⟨1, 1, 0, 1, "a%.exe".toList, title, [], [], "h=1".toList⟩], 2, 2⟩

theorem oneGame_fits {title : List Char} (hlen : title.length < titleSize) (h0 : '\x00' ∉ title) :
    (oneGame title).Fits := by
  have hart : ([] : List Char).length < artSize ∧ '\x00' ∉ ([] : List Char) := by decide
  have hpath : "a%.exe".toList.length < pathSize ∧ '\x00' ∉ "a%.exe".toList := by decide
  have hhero : "h=1".toList.length < artSize ∧ '\x00' ∉ "h=1".toList := by decide
  refine ⟨?_, (by decide : 1 ≤ maxEntries), (by decide : 2 < 2 ^ 32)⟩
  intro e he
  rw [mem_singleton.mp he]
  refine ⟨(by decide : 1 < 2 ^ 32), (by decide : 1 < 2 ^ 32), (by decide : 0 < 2 ^ 32),
    (by decide : -2 ^ 31 ≤ (1 : Int) ∧ (1 : Int) < 2 ^ 31), fun f => ?_⟩
  cases f with
  | path => exact hpath
  | title => exact ⟨hlen, h0⟩
  | squareArt => exact hart
  | portraitArt => exact hart
  | heroArt => exact hhero

/-- A library is read as it was saved exactly where `Keepable` says so. -/
theorem library_round_trip_iff {catalog : Catalog} (h : catalog.Fits) (behind : Nat → List Char) :
    (∃ loaded, load behind (save catalog) = some loaded ∧ loaded.entries = catalog.entries) ↔
      Keepable catalog := by
  have hlaunched : ∀ e ∈ catalog.entries, e.launchedOrder < 2 ^ 32 :=
    fun e he => (h.entries e he).launched
  have hsettle := @settle_iff catalog.entries [] init.nextOrder hlaunched (by decide)
  constructor
  · rintro ⟨loaded, hload, heq⟩
    have hlines : ∀ l ∈ savedLines catalog, l.length + 1 < lineSize := by
      by_contra hlong
      simp only [not_forall, Nat.not_lt] at hlong
      obtain ⟨l, hl, hlen⟩ := hlong
      rw [load_long h behind ⟨l, hl, hlen⟩] at hload
      cases hload
    rw [load, load_save h behind hlines] at hload
    by_cases hid : 0 < catalog.nextId ∧ catalog.nextId < uintMax
    case neg => rw [if_neg hid] at hload; cases hload
    case pos =>
      rw [if_pos hid] at hload
      cases hfold : (Loader.mk [] none catalog.nextId currentVersion).fold
          (catalog.entries.flatMap fun e => (entryLines e).map fun l => takeApart (trim l)) with
      | none => rw [hfold] at hload; cases hload
      | some l =>
        have hok := fold_entries_some h.entries hfold
        obtain ⟨l', hl', hentries, hversion⟩ := fold_entries h.entries hok
          (l := ⟨[], none, catalog.nextId, currentVersion⟩)
          (by have := h.count; simpa [Loader.entries] using this)
        obtain rfl : l' = l := Option.some.inj (hl'.symm.trans hfold)
        rw [hfold] at hload
        simp only [hversion, ne_eq, not_true_eq_false, and_false, ↓reduceIte] at hload
        rw [Option.map_eq_some_iff] at hload
        obtain ⟨⟨es, order⟩, hes, rfl⟩ := hload
        subst heq
        rw [hentries] at hes
        have hreread := reread_of_settle hes
        have hsame : catalog.entries.map (·.reread) = catalog.entries := by
          conv_rhs => rw [← map_id catalog.entries]
          exact map_congr_left hreread
        rw [hsame] at hes
        obtain ⟨hwel, hpair, horders⟩ := hsettle.mp ⟨_, hes⟩
        exact ⟨hid, hlines, fun e he => (hok e he).1, fun e he => (hwel e he).1, hpair,
          fun e he => (hok e he).2, fun e he => (reread_eq_iff.mp (hreread e he)).2,
          fun e he => (reread_eq_iff.mp (hreread e he)).1, horders⟩
  · intro hk
    obtain ⟨l, hl, hentries, hversion⟩ := fold_entries h.entries
      (fun e he => ⟨hk.ids e he, hk.unbroken e he⟩)
      (l := ⟨[], none, catalog.nextId, currentVersion⟩)
      (by have := h.count; simpa [Loader.entries] using this)
    have hsame : catalog.entries.map (·.reread) = catalog.entries := by
      conv_rhs => rw [← map_id catalog.entries]
      exact map_congr_left fun e he => reread_eq_iff.mpr ⟨hk.favorites e he, hk.bare e he⟩
    have hentries : l.entries = catalog.entries := hentries.trans hsame
    obtain ⟨order, hes⟩ := hsettle.mpr
      ⟨fun e he => ⟨hk.paths e he, by simp⟩, hk.apart, hk.orders⟩
    refine ⟨⟨catalog.entries, l.nextId, order⟩, ?_, rfl⟩
    rw [load, load_save h behind hk.lines, if_pos hk.nextId, hl]
    simp [hversion, hentries, hes]

theorem spaced_title_round_trips :
    (∃ loaded, load (fun _ => []) (save (oneGame "a b".toList)) = some loaded ∧
      loaded.entries = (oneGame "a b".toList).entries) ↔ Keepable (oneGame "a b".toList) :=
  library_round_trip_iff (oneGame_fits (by decide) (by decide)) _

/-- A line break in a title is written as an escape that the loader refuses. -/
theorem broken_title_refused :
    (oneGame "a\nb".toList).Fits ∧ load (fun _ => []) (save (oneGame "a\nb".toList)) = none :=
  ⟨oneGame_fits (by decide) (by decide), by decide +kernel⟩

example : (load (fun _ => []) (save (oneGame "a b".toList))).map (·.entries) =
    some (oneGame "a b".toList).entries := by decide +kernel

end Autorun.Text.Launcher
