import Mathlib.Data.Nat.Digits.Defs
import Autorun.Lib.Run
import Autorun.Proofs.CatalogRoundTrip

namespace Autorun.Text.Launcher
open Lib List

/-- What a library has to be for its ids and orders to tell its entries apart, now and after the
next start. -/
structure Valid (catalog : Catalog) : Prop where
  ids : ∀ e ∈ catalog.entries, e.id ≠ 0
  distinct : catalog.entries.Pairwise (·.id ≠ ·.id)
  orders : catalog.entries.Pairwise (·.addedOrder ≠ ·.addedOrder)
  accepted : ∀ behind, (load behind (save catalog)).isSome

/-! What is asked of a text and of the programs added to it. -/

instance (v : List Char) : Decidable (Bare v) := decidable_of_iff _ strip_eq_iff

/-- A field whose line has room in the line buffer and, for a path, no blank at its ends. -/
def Writable (f : Field) (text : List Char) : Prop :=
  (f = .path → Bare text) ∧ (valueLine f.key text).length + 1 < lineSize

instance (f : Field) (text : List Char) : Decidable (Writable f text) :=
  inferInstanceAs (Decidable (_ ∧ _))

/-- An order with as many orders above it as there can be entries. -/
def Low (order : Nat) : Prop := order + maxEntries < uintMax

instance (order : Nat) : Decidable (Low order) := inferInstanceAs (Decidable (_ < _))

/-- What is asked of what a value is read as: it ends within the line and can be written again. -/
def ReadOk (f : Field) : Read (List Char) → Prop
  | .past => False
  | .nothing => True
  | .found text => Writable f text

instance (f : Field) : (r : Read (List Char)) → Decidable (ReadOk f r)
  | .past => isFalse id
  | .nothing => isTrue trivial
  | .found text => inferInstanceAs (Decidable (Writable f text))

/-- What is asked of a line: ids and orders well below their limit, and values as above. -/
def LineOk : Line → Prop
  | .game id => id + 1 < uintMax
  | .pair key value =>
    (key = "added-order".toList ∨ key = "launched-order".toList → Low (wrap (strtoul value))) ∧
    ∀ f ∈ fieldOf key, ReadOk f (copyValue f.size (value ++ ['\x00']))
  | _ => True

instance : (line : Line) → Decidable (LineOk line)
  | .skip | .bad => isTrue trivial
  | .game _ => inferInstanceAs (Decidable (_ < _))
  | .pair _ _ => inferInstanceAs (Decidable (_ ∧ _))

/-- The orders that a text gives its entries, zero for none. -/
def orderStep (orders : List Nat) : Line → List Nat
  | .game _ => orders ++ [0]
  | .pair key value =>
    if key = "added-order".toList ∧ orders ≠ [] then orders.dropLast ++ [wrap (strtoul value)] else orders
  | _ => orders

def givenOrders (lines : List Line) : List Nat := lines.foldl orderStep []

/-- A text that gives no order twice, and none behind an entry without one. -/
structure Sound (file : List Char) : Prop where
  lines : ∀ line ∈ readLines file, LineOk line
  orders : (givenOrders (readLines file)).Pairwise fun a b => b = 0 ∨ a ≠ 0 ∧ a ≠ b

/-- What is asked before a program is added. -/
def Op.Ok (catalog : Catalog) : Op → Prop
  | .add path title =>
    '\x00' ∉ path ∧ '\x00' ∉ title ∧ Writable .path path ∧ ¬ Breaks (title.take (titleSize - 1)) ∧
      catalog.nextId + 1 < uintMax ∧ catalog.nextOrder < uintMax
  | .remove _ => True

instance (catalog : Catalog) : (op : Op) → Decidable (op.Ok catalog)
  | .add _ _ => inferInstanceAs (Decidable (_ ∧ _))
  | .remove _ => isTrue trivial

/-! What the loader reads. -/

variable {text key value title path : List Char} {room id n order next : Nat}

theorem stored_ok {c : Char} {r : Read (List Char)}
    (hr : ∀ t, r = .found t → t.length ≤ room ∧ '\x00' ∉ t ∧ ¬ Breaks t)
    (h : (if refused c then .nothing else r.map (c :: ·)) = .found text) :
    text.length ≤ room + 1 ∧ '\x00' ∉ text ∧ ¬ Breaks text := by
  split at h
  case isTrue => cases h
  case isFalse hc =>
    cases r with
    | nothing => cases h
    | past => cases h
    | found t =>
      cases h
      obtain ⟨hlen, h0, hb⟩ := hr t rfl
      simp only [refused, decide_eq_true_eq, not_or] at hc
      simp only [Breaks, not_or] at hb
      simp only [length_cons, mem_cons, Breaks, not_or]
      exact ⟨by omega, ⟨Ne.symm hc.1, h0⟩, ⟨Ne.symm hc.2.1, hb.1⟩, Ne.symm hc.2.2, hb.2⟩

theorem copyLoop_found {mem : List Char} (h : copyLoop room mem = .found text) :
    text.length ≤ room ∧ '\x00' ∉ text ∧ ¬ Breaks text := by
  induction room generalizing mem text with
  | zero =>
    cases mem with
    | nil => cases h
    | cons c mem =>
      by_cases h0 : c = '\x00'
      · subst h0
        cases h
        simp [Breaks]
      · rw [copyLoop_full h0] at h
        cases h
  | succ room ih =>
    cases mem with
    | nil => cases h
    | cons c mem =>
      by_cases h0 : c = '\x00'
      · subst h0
        cases h
        simp [Breaks]
      by_cases hp : c = '%'
      · subst hp
        cases hs : scanHexByte (cstr mem) with
        | none => rw [copyLoop_noscan hs] at h; cases h
        | some v =>
          rw [copyLoop_escape hs] at h
          exact stored_ok (fun t ht => ih ht) h
      · rw [copyLoop_cons h0 hp] at h
        exact stored_ok (fun t ht => ih ht) h

theorem cstr_behind (v behind : List Char) : cstr (v ++ '\x00' :: behind) = cstr (v ++ ['\x00']) := by
  simp [cstr, takeWhile_append]

/-- What is behind the terminator does not matter unless the value runs over it. -/
theorem copyLoop_behind {v : List Char} (h : copyLoop room (v ++ ['\x00']) ≠ .past)
    (behind : List Char) : copyLoop room (v ++ '\x00' :: behind) = copyLoop room (v ++ ['\x00']) := by
  induction room generalizing v with
  | zero =>
    cases v with
    | nil => rfl
    | cons c v =>
      by_cases h0 : c = '\x00'
      · subst h0
        rfl
      · rw [cons_append, cons_append, copyLoop_full h0, copyLoop_full h0]
  | succ room ih =>
    cases v with
    | nil => rfl
    | cons c v =>
      rw [cons_append] at h ⊢
      rw [cons_append]
      by_cases h0 : c = '\x00'
      · subst h0
        rfl
      by_cases hp : c = '%'
      · subst hp
        cases hs : scanHexByte (cstr (v ++ ['\x00'])) with
        | none => rw [copyLoop_noscan hs, copyLoop_noscan (cstr_behind v behind ▸ hs)]
        | some n =>
          rw [copyLoop_escape hs] at h ⊢
          rw [copyLoop_escape (cstr_behind v behind ▸ hs)]
          by_cases hr : refused (Char.ofNat n)
          · rw [if_pos hr, if_pos hr]
          · rw [if_neg hr, if_neg hr]
            rw [if_neg hr, ne_eq, Read.map_eq_past] at h
            match v, h with
            | [], h => exact absurd (copyLoop_nil room) h
            | [_], h => exact absurd (copyLoop_nil room) h
            | _ :: _ :: v, h => exact congrArg (Read.map _) (ih h)
      · rw [copyLoop_cons h0 hp] at h ⊢
        rw [copyLoop_cons h0 hp]
        by_cases hr : refused c
        · rw [if_pos hr, if_pos hr]
        · rw [if_neg hr, ne_eq, Read.map_eq_past] at h
          rw [if_neg hr, if_neg hr, ih h]

/-- An entry as a text that is asked for gives it, its path perhaps still missing. -/
structure Clean (e : Entry) : Prop where
  fits : e.Fits
  unbroken : Unbroken e
  writable : ∀ f, Writable f (e.get f)
  added : Low e.addedOrder
  launched : Low e.launchedOrder

theorem clean_fresh (h : id < 2 ^ 32) : Clean (.fresh id) := by
  have hget (f : Field) : (Entry.fresh id).get f = [] := by cases f <;> rfl
  refine ⟨⟨h, (by decide : 0 < 2 ^ 32), (by decide : 0 < 2 ^ 32),
    (by decide : -2 ^ 31 ≤ (0 : Int) ∧ (0 : Int) < 2 ^ 31), ?_⟩, ?_, ?_, (by decide : Low 0),
    (by decide : Low 0)⟩
  · intro f
    rw [hget]
    cases f <;> decide
  · intro f
    rw [hget]
    decide
  · intro f
    rw [hget]
    cases f <;> decide

theorem get_set (e : Entry) (text : List Char) (f g : Field) :
    (e.set text f).get g = if g = f then text else e.get g := by
  cases f <;> cases g <;> rfl

theorem set_numbers (e : Entry) (text : List Char) (f : Field) :
    (e.set text f).id = e.id ∧ (e.set text f).addedOrder = e.addedOrder ∧
      (e.set text f).launchedOrder = e.launchedOrder ∧ (e.set text f).favorite = e.favorite := by
  cases f <;> exact ⟨rfl, rfl, rfl, rfl⟩

variable {e : Entry}

theorem Clean.set (h : Clean e) {f : Field}
    (hlen : text.length < f.size) (h0 : '\x00' ∉ text) (hb : ¬ Breaks text) (hw : Writable f text) :
    Clean (e.set text f) := by
  obtain ⟨hid, hadded, hlaunched, hfavorite⟩ := set_numbers e text f
  refine ⟨⟨hid ▸ h.fits.id, hadded ▸ h.fits.added, hlaunched ▸ h.fits.launched,
    hfavorite ▸ h.fits.favorite, ?_⟩, ?_, ?_, hadded ▸ h.added, hlaunched ▸ h.launched⟩
  · intro g
    rw [get_set]
    split
    · subst g
      exact ⟨hlen, h0⟩
    · exact h.fits.fields g
  · intro g
    rw [get_set]
    split
    · exact hb
    · exact h.unbroken g
  · intro g
    rw [get_set]
    split
    · subst g
      exact hw
    · exact h.writable g

/-- One line of an entry keeps it clean and gives it the order it has. -/
theorem setPair_clean {e' : Entry} {behind : List Char} (h : Clean e)
    (hok : LineOk (.pair key value)) (hset : setPair e behind key value = some e') :
    Clean e' ∧ e'.id = e.id ∧
      e'.addedOrder = if key = "added-order".toList then wrap (strtoul value) else e.addedOrder := by
  obtain ⟨hlow, hread⟩ := hok
  rw [setPair] at hset
  cases hf : fieldOf key with
  | some f =>
    have hkey : key ≠ "added-order".toList := by
      rintro rfl
      cases hf
    have hok := hread f hf
    rw [hf] at hset
    dsimp only at hset
    have hpast : copyValue f.size (value ++ ['\x00']) ≠ .past := by
      intro hp
      rw [hp] at hok
      exact hok
    have hsame : copyValue f.size (value ++ '\x00' :: behind) = copyValue f.size (value ++ ['\x00']) :=
      copyLoop_behind hpast behind
    rw [hsame] at hset
    cases hcopy : copyValue f.size (value ++ ['\x00']) with
    | past => exact absurd hcopy hpast
    | nothing => rw [hcopy] at hset; cases hset
    | found text =>
      rw [hcopy] at hset hok
      cases hset
      obtain ⟨hlen, h0, hb⟩ := copyLoop_found hcopy
      have hsize : 0 < f.size := by cases f <;> decide
      obtain ⟨hid, hadded, _⟩ := set_numbers e text f
      rw [if_neg hkey]
      exact ⟨h.set (by omega) h0 hb hok, hid, hadded⟩
  | none =>
    rw [hf] at hset
    dsimp only at hset
    split at hset
    case isTrue hkey =>
      cases hset
      have hne : key ≠ "added-order".toList := by rw [hkey]; decide
      rw [if_neg hne]
      refine ⟨⟨⟨h.fits.id, h.fits.added, h.fits.launched, ?_, h.fits.fields⟩, h.unbroken, h.writable,
        h.added, h.launched⟩, rfl, rfl⟩
      dsimp only
      split <;> decide
    case isFalse =>
      split at hset
      case isTrue hkey =>
        cases hset
        rw [if_pos hkey]
        exact ⟨⟨⟨h.fits.id, wrap_lt _, h.fits.launched, h.fits.favorite, h.fits.fields⟩, h.unbroken,
          h.writable, hlow (.inl hkey), h.launched⟩, rfl, rfl⟩
      case isFalse hne =>
        rw [if_neg hne]
        split at hset
        case isTrue hkey =>
          cases hset
          exact ⟨⟨⟨h.fits.id, h.fits.added, wrap_lt _, h.fits.favorite, h.fits.fields⟩, h.unbroken,
            h.writable, h.added, hlow (.inr hkey)⟩, rfl, rfl⟩
        case isFalse =>
          cases hset
          exact ⟨h, rfl, rfl⟩

/-- The loader between two lines of such a text. -/
structure Loader.Good (l : Loader) (orders : List Nat) : Prop where
  nextId : 0 < l.nextId ∧ l.nextId < uintMax
  ids : ∀ e ∈ l.entries, e.id ≠ 0 ∧ e.id < l.nextId
  clean : ∀ e ∈ l.entries, Clean e
  count : l.entries.length ≤ maxEntries
  orders : l.entries.map (·.addedOrder) = orders
  first : l.current = none → l.done = []

theorem good_empty {nextId version : Nat} (h : 0 < nextId ∧ nextId < uintMax) :
    (Loader.mk [] none nextId version).Good [] :=
  ⟨h, by simp [Loader.entries], by simp [Loader.entries], Nat.zero_le _, rfl, fun _ => rfl⟩

variable {orders : List Nat} {l l' : Loader}

theorem Loader.Good.step {behind : List Char} {line : Line}
    (h : l.Good orders) (hok : LineOk line) (hstep : l.step behind line = some l') :
    l'.Good (orderStep orders line) := by
  cases line with
  | skip =>
    cases hstep
    exact h
  | bad => cases hstep
  | game n =>
    rw [Loader.step] at hstep
    split at hstep
    case isTrue => cases hstep
    case isFalse hn =>
      cases hstep
      obtain ⟨hne, hroom⟩ := not_or.mp hn
      have hnext : n + 1 < uintMax := hok
      have hbound := h.nextId
      have hlt : n < (if l.nextId ≤ n then wrap (n + 1) else l.nextId) ∧
          (if l.nextId ≤ n then wrap (n + 1) else l.nextId) < uintMax ∧
          l.nextId ≤ (if l.nextId ≤ n then wrap (n + 1) else l.nextId) := by
        simp only [wrap, uintMax] at hnext hbound ⊢
        split <;> omega
      refine ⟨⟨Nat.lt_of_lt_of_le hbound.1 hlt.2.2, hlt.2.1⟩, ?_, ?_, ?_, ?_, fun hc => absurd hc (Option.some_ne_none _)⟩
      · exact forall_mem_append.mpr ⟨fun e he => ⟨(h.ids e he).1, (h.ids e he).2.trans_le hlt.2.2⟩,
          forall_mem_singleton.mpr ⟨hne, hlt.1⟩⟩
      · exact forall_mem_append.mpr ⟨h.clean, forall_mem_singleton.mpr
          (clean_fresh (by simp only [uintMax] at hnext; omega))⟩
      · change (l.entries ++ [_]).length ≤ maxEntries
        rw [length_append, length_singleton]
        omega
      · change (l.entries ++ [_]).map _ = orders ++ [0]
        rw [map_append, h.orders]
        rfl
  | pair key value =>
    rw [Loader.step] at hstep
    cases hc : l.current with
    | none =>
      obtain ⟨done, current, nextId, version⟩ := l
      obtain rfl : current = none := hc
      obtain rfl : done = [] := h.first rfl
      obtain rfl : orders = [] := h.orders.symm
      have horders : orderStep [] (.pair key value) = [] := if_neg fun hn => hn.2 rfl
      rw [horders]
      dsimp only at hstep
      split at hstep
      case isTrue =>
        cases hstep
        exact good_empty h.nextId
      case isFalse =>
        split at hstep
        case isFalse => cases hstep
        case isTrue =>
          split at hstep
          case h_1 => cases hstep
          case h_2 id _ =>
            split at hstep
            case isTrue => cases hstep
            case isFalse hid =>
              cases hstep
              exact good_empty (by omega)
    | some e =>
      rw [hc] at hstep
      rw [Option.map_eq_some_iff] at hstep
      obtain ⟨e', hset, rfl⟩ := hstep
      have hentries : l.entries = l.done ++ [e] := by rw [Loader.entries, hc]; rfl
      obtain ⟨hids, he⟩ := forall_mem_append.mp (hentries ▸ h.ids)
      obtain ⟨hcleans, hce⟩ := forall_mem_append.mp (hentries ▸ h.clean)
      obtain ⟨hclean, hid, hadded⟩ := setPair_clean (forall_mem_singleton.mp hce) hok hset
      refine ⟨h.nextId, ?_, ?_, ?_, ?_, fun hc => absurd hc (Option.some_ne_none _)⟩
      · refine forall_mem_append.mpr ⟨hids, forall_mem_singleton.mpr ?_⟩
        rw [hid]
        exact he e mem_cons_self
      · exact forall_mem_append.mpr ⟨hcleans, forall_mem_singleton.mpr hclean⟩
      · have hcount := h.count
        rw [hentries] at hcount
        change (l.done ++ [e']).length ≤ maxEntries
        simpa using hcount
      · have horders := h.orders
        rw [hentries, map_append] at horders
        change (l.done ++ [e']).map _ = _
        rw [map_append, map_singleton, hadded, orderStep, ← horders]
        have hne : l.done.map (·.addedOrder) ++ [e].map (·.addedOrder) ≠ [] := by simp
        by_cases hkey : key = "added-order".toList
        · rw [if_pos hkey, if_pos ⟨hkey, hne⟩, map_singleton, dropLast_concat]
        · rw [if_neg hkey, if_neg fun hn => hkey hn.1, map_singleton]

variable {behind : Nat → List Char}

theorem Loader.Good.run {i : Nat}
    {lines : List Line} (h : l.Good orders) (hok : ∀ line ∈ lines, LineOk line)
    (hrun : l.run behind i lines = some l') : l'.Good (lines.foldl orderStep orders) := by
  induction lines generalizing l orders i with
  | nil =>
    cases hrun
    exact h
  | cons line lines ih =>
    rw [Loader.run, Option.bind_eq_some_iff] at hrun
    obtain ⟨m, hm, hrest⟩ := hrun
    exact ih (h.step (hok line mem_cons_self) hm)
      (fun x hx => hok x (mem_cons_of_mem _ hx)) hrest

/-! The orders that the loader gives out. -/

/-- Entries whose orders are below the next one and differ. -/
structure Ordered (es : List Entry) (next : Nat) : Prop where
  below : ∀ e ∈ es, e.addedOrder ≠ 0 ∧ e.addedOrder < next
  distinct : es.Pairwise (·.addedOrder ≠ ·.addedOrder)

theorem pairwise_concat {r : α → α → Prop} {l : List α} {a : α} (h : l.Pairwise r)
    (ha : ∀ b ∈ l, r b a) : (l ++ [a]).Pairwise r :=
  pairwise_append.mpr ⟨h, pairwise_singleton _ _, fun b hb =>
    forall_mem_singleton.mpr (ha b hb)⟩

theorem Ordered.concat {es : List Entry} (h : Ordered es next) (hle : next ≤ n)
    (he : e.addedOrder ≠ 0 ∧ e.addedOrder < n) (hnew : ∀ d ∈ es, d.addedOrder ≠ e.addedOrder) :
    Ordered (es ++ [e]) n :=
  ⟨forall_mem_append.mpr ⟨fun d hd => ⟨(h.below d hd).1, (h.below d hd).2.trans_le hle⟩,
    forall_mem_singleton.mpr he⟩, pairwise_concat h.distinct hnew⟩

theorem settleOrder_low (hpos : 0 < order) (hroom : order + n < uintMax)
    (hn : n < maxEntries) (ha : Low e.addedOrder) (hl : Low e.launchedOrder) :
    (settleOrder e order).1 = { e with
        addedOrder := if e.addedOrder = 0 then order else e.addedOrder } ∧
      order ≤ (settleOrder e order).2 ∧
      (settleOrder e order).1.addedOrder < (settleOrder e order).2 ∧
      (settleOrder e order).2 + n ≤ uintMax := by
  have hlast {o l : Nat} (ho : o + n ≤ uintMax) (hl : Low l) :
      (if o ≤ l then wrap (l + 1) else o) + n ≤ uintMax ∧
        o ≤ (if o ≤ l then wrap (l + 1) else o) ∧ l < (if o ≤ l then wrap (l + 1) else o) := by
    simp only [Low, wrap, uintMax] at *
    split <;> omega
  rw [settleOrder]
  by_cases hz : e.addedOrder = 0
  · have hwrap : wrap (order + 1) = order + 1 := by
      simp only [wrap, uintMax] at *
      omega
    have hskip : ¬ order + 1 ≤ order := by omega
    have hnext := hlast (o := order + 1) (by omega) hl
    simp only [hz, ↓reduceIte, hwrap, hskip]
    exact ⟨trivial, by omega, by omega, hnext.1⟩
  · have hadded := hlast (o := order) (by omega) ha
    have hnext := hlast hadded.1 hl
    simp only [hz, ↓reduceIte]
    exact ⟨trivial, by omega, by omega, hnext.1⟩

variable {es es' seen : List Entry}

/-- Orders that do not clash in the text do not clash once those without one have one. -/
theorem settle_ordered (hpos : 0 < order)
    (hroom : order + es.length ≤ uintMax) (hcount : es.length ≤ maxEntries)
    (hes : ∀ e ∈ es, Clean e) (hseen : Ordered seen order)
    (hpair : es.Pairwise fun a b => b.addedOrder = 0 ∨ a.addedOrder ≠ 0 ∧ a.addedOrder ≠ b.addedOrder)
    (hclash : ∀ d ∈ seen, ∀ e ∈ es, e.addedOrder = 0 ∨ d.addedOrder ≠ e.addedOrder)
    (h : settle seen order es = some (es', next)) :
    Ordered (seen ++ es') next ∧ order ≤ next ∧ next ≤ uintMax := by
  induction es generalizing seen order es' next with
  | nil =>
    cases h
    exact ⟨by simpa using hseen, Nat.le_refl _, by simpa using hroom⟩
  | cons e es ih =>
    obtain ⟨-, rest, rfl, hrest⟩ := settle_cons h
    obtain ⟨hclean, hes⟩ := forall_mem_cons.mp hes
    rw [length_cons] at hroom hcount
    obtain ⟨he, hge, hlt, hroom'⟩ := settleOrder_low (n := es.length) hpos (by omega) (by omega)
      hclean.added hclean.launched
    obtain ⟨hfirst, hpair⟩ := pairwise_cons.mp hpair
    have hadded : (settleOrder e order).1.addedOrder =
        if e.addedOrder = 0 then order else e.addedOrder := by rw [he]
    rw [append_cons]
    have hres := ih (by omega) hroom' (by omega) hes (hseen.concat hge ⟨?_, hlt⟩ ?_) hpair
      (forall_mem_append.mpr ⟨fun d hd => (forall_mem_cons.mp (hclash d hd)).2,
        forall_mem_singleton.mpr ?_⟩) hrest
    · exact ⟨hres.1, by omega, hres.2.2⟩
    · rw [hadded]
      split <;> omega
    · intro d hd
      rw [hadded]
      have hbelow := hseen.below d hd
      rcases hclash d hd e mem_cons_self with hz | hne
      · rw [if_pos hz]
        omega
      · split <;> omega
    · intro x hx
      rw [hadded]
      rcases hfirst x hx with hz | ⟨hne, hdiff⟩
      · exact .inl hz
      · rw [if_neg hne]
        exact .inr hdiff

/-- The last look at the entries changes their orders only, and leaves them apart. -/
theorem settle_entries (ho : order < 2 ^ 32)
    (hes : ∀ e ∈ es, e.Fits) (h : settle seen order es = some (es', next)) :
    es'.length = es.length ∧ es'.Pairwise Apart ∧ ∀ e' ∈ es', Welcome seen e' ∧
      ∃ e ∈ es, ∃ x < 2 ^ 32, e' = { e with addedOrder := x } := by
  induction es generalizing seen order es' next with
  | nil =>
    cases h
    simp
  | cons e es ih =>
    obtain ⟨hw, rest, rfl, hrest⟩ := settle_cons h
    obtain ⟨hfits, hes⟩ := forall_mem_cons.mp hes
    have hset : ∃ x < 2 ^ 32, (settleOrder e order).1 = { e with addedOrder := x } := by
      by_cases hz : e.addedOrder = 0
      · exact ⟨order, ho, by simp [settleOrder, hz]⟩
      · exact ⟨e.addedOrder, hfits.added, by simp [settleOrder, hz]⟩
    obtain ⟨x, hx, he⟩ := hset
    obtain ⟨hlen, hpair, hall⟩ := ih (settleOrder_next hfits.launched ho).1 hes hrest
    refine ⟨by simp [hlen], pairwise_cons.mpr ⟨fun y hy => (hall y hy).1.2 _ (by simp), hpair⟩,
      forall_mem_cons.mpr ⟨⟨?_, e, mem_cons_self, x, hx, he⟩, fun y hy => ?_⟩⟩
    · rw [he]
      exact hw
    · obtain ⟨hwel, d, hd, hrest⟩ := hall y hy
      exact ⟨⟨hwel.1, fun c hc => hwel.2 c (mem_append_left _ hc)⟩, d,
        mem_cons_of_mem _ hd, hrest⟩

/-! Libraries that stay valid. -/

/-- An entry that can be written and read again. -/
structure Kept (e : Entry) : Prop where
  fits : e.Fits
  unbroken : Unbroken e
  writable : ∀ f, Writable f (e.get f)
  path : e.path ≠ []

structure Lasting (catalog : Catalog) : Prop where
  nextId : 0 < catalog.nextId ∧ catalog.nextId < uintMax
  nextOrder : 0 < catalog.nextOrder ∧ catalog.nextOrder ≤ uintMax
  ids : ∀ e ∈ catalog.entries, e.id ≠ 0 ∧ e.id < catalog.nextId
  apart : catalog.entries.Pairwise Apart
  ordered : Ordered catalog.entries catalog.nextOrder
  count : catalog.entries.length ≤ maxEntries
  kept : ∀ e ∈ catalog.entries, Kept e

variable {catalog : Catalog}

theorem lasting_load {file : List Char}
    (hfile : Sound file) (h : load behind file = some catalog) : Lasting catalog := by
  rw [load] at h
  cases hrun : Loader.start.run behind 0 (readLines file) with
  | none => rw [hrun] at h; cases h
  | some l =>
    rw [hrun] at h
    dsimp only at h
    split at h
    case isTrue => cases h
    case isFalse =>
      rw [Option.map_eq_some_iff] at h
      obtain ⟨⟨es, next⟩, hsettle, rfl⟩ := h
      have hgood : l.Good (givenOrders (readLines file)) :=
        Loader.Good.run (good_empty (by decide)) hfile.lines hrun
      have hpair : l.entries.Pairwise fun a b =>
          b.addedOrder = 0 ∨ a.addedOrder ≠ 0 ∧ a.addedOrder ≠ b.addedOrder := by
        have horders := hfile.orders
        rw [← hgood.orders, pairwise_map] at horders
        exact horders
      have hstart : 1 + l.entries.length ≤ uintMax := by
        have := hgood.count
        simp only [maxEntries, uintMax] at *
        omega
      obtain ⟨hordered, hnext⟩ := settle_ordered (by decide) hstart hgood.count hgood.clean
        ⟨by simp, List.Pairwise.nil⟩ hpair (by simp) hsettle
      obtain ⟨hlen, hapart, hall⟩ := settle_entries (by decide) (fun e he => (hgood.clean e he).fits) hsettle
      refine ⟨hgood.nextId, hnext, ?_, hapart, hordered, hlen.trans_le hgood.count, ?_⟩
      · intro e' he'
        obtain ⟨_, e, he, x, _, rfl⟩ := hall e' he'
        exact hgood.ids e he
      · intro e' he'
        obtain ⟨hwel, e, he, x, hx, rfl⟩ := hall e' he'
        have hclean := hgood.clean e he
        have hfits := hclean.fits
        exact ⟨⟨hfits.id, hx, hfits.launched, hfits.favorite, hfits.fields⟩, hclean.unbroken,
          hclean.writable, hwel.1⟩

/-! Their text is accepted again. -/

theorem length_encode (v : List Char) : (encode v).length ≤ 3 * v.length := by
  induction v with
  | nil => exact Nat.le_refl _
  | cons c v ih =>
    have hc : (encodeChar c).length ≤ 3 := by
      cases encoded c with
      | escape he => rw [he]; exact Nat.le_refl _
      | plain he => rw [he]; exact Nat.le_add_left _ _
    rw [encode_cons, length_append, length_cons]
    omega

theorem length_decimal (h : n < 2 ^ 32) : (decimal n).length ≤ 10 :=
  Nat.toDigits_length 10 n 10 (by decide) (by omega)

theorem length_decimalInt {n : Int} (h : -2 ^ 31 ≤ n ∧ n < 2 ^ 31) : (decimalInt n).length ≤ 11 := by
  have hlen := @length_decimal n.natAbs (by omega)
  unfold decimalInt
  split
  · rw [length_cons]
    omega
  · omega

theorem length_number (hkey : key ∈ numberKeys)
    (hvalue : value.length ≤ 11) : (pairLine key value).length + 1 < lineSize := by
  have hlen : key.length ≤ 14 := by
    simp only [numberKeys, mem_cons, not_mem_nil, or_false] at hkey
    rcases hkey with rfl | rfl | rfl | rfl | rfl <;> decide
  rw [pairLine, length_append, length_cons, lineSize]
  omega

theorem Kept.lines (h : Kept e) : ∀ l ∈ entryLines e, l.length + 1 < lineSize := by
  have hfield (f : Field) : (valueLine f.key (e.get f)).length + 1 < lineSize := (h.writable f).2
  have hart (f : Field) : ∀ l ∈ artLines f e, l.length + 1 < lineSize := by
    intro l hl
    unfold artLines at hl
    split at hl
    · simp at hl
    · rw [mem_singleton.mp hl]
      exact hfield f
  have hnumber {n : Nat} (hn : n < 2 ^ 32) : (decimal n).length ≤ 11 := Nat.le_succ_of_le (length_decimal hn)
  intro l hl
  simp only [entryLines, mem_append, mem_cons, not_mem_nil, or_false] at hl
  rcases hl with (((rfl | rfl | rfl | rfl | rfl | rfl | rfl) | hl) | hl) | hl
  · decide
  · have hlen := hnumber h.fits.id
    have hgame : "[game ".toList.length = 6 := by decide
    simp only [length_append, length_singleton, lineSize]
    omega
  · exact hfield .path
  · exact hfield .title
  · exact length_number (by decide) (hnumber h.fits.added)
  · exact length_number (by decide) (hnumber h.fits.launched)
  · exact length_number (by decide) (length_decimalInt h.fits.favorite)
  · exact hart .squareArt l hl
  · exact hart .portraitArt l hl
  · exact hart .heroArt l hl

theorem Lasting.fits (h : Lasting catalog) : catalog.Fits :=
  ⟨fun e he => (h.kept e he).fits, h.count, by have := h.nextId; simp only [uintMax] at this; omega⟩

theorem Lasting.lines (h : Lasting catalog) :
    ∀ l ∈ savedLines catalog, l.length + 1 < lineSize := by
  intro l hl
  simp only [savedLines, mem_append, mem_cons, not_mem_nil, or_false,
    mem_flatMap] at hl
  rcases hl with (rfl | rfl) | ⟨e, he, hl⟩
  · decide
  · exact length_number (by decide) (Nat.le_succ_of_le (length_decimal h.fits.nextId))
  · exact (h.kept e he).lines l hl

theorem settle_isSome (hes : ∀ e ∈ es, Welcome seen e)
    (hpair : es.Pairwise Apart) : (settle seen order es).isSome := by
  induction es generalizing seen order with
  | nil => rfl
  | cons e es ih =>
    obtain ⟨hfirst, hpair⟩ := pairwise_cons.mp hpair
    have hkeys : (settleOrder e order).1.id = e.id ∧ (settleOrder e order).1.path = e.path := by
      by_cases hz : e.addedOrder = 0 <;> simp [settleOrder, hz]
    rw [settle_welcome (hes e mem_cons_self), Option.isSome_map]
    refine ih (fun x hx => ?_) hpair
    obtain ⟨hpath, hseen⟩ := hes x (mem_cons_of_mem _ hx)
    refine ⟨hpath, forall_mem_append.mpr ⟨hseen, forall_mem_singleton.mpr ?_⟩⟩
    rw [Apart, hkeys.1, hkeys.2]
    exact hfirst x hx

theorem Lasting.accepted (h : Lasting catalog) (behind : Nat → List Char) :
    (load behind (save catalog)).isSome := by
  obtain ⟨l, hl, hentries, hversion⟩ := fold_entries h.fits.entries
    (fun e he => ⟨(h.ids e he).1, (h.kept e he).unbroken⟩)
    (l := ⟨[], none, catalog.nextId, currentVersion⟩)
    (by simpa [Loader.entries] using h.count)
  have hentries : l.entries = catalog.entries.map (·.reread) := hentries
  have hpath {e : Entry} (he : e ∈ catalog.entries) : e.reread.path = e.path :=
    strip_eq_iff.mpr (((h.kept e he).writable .path).1 rfl)
  have hsettle : (settle [] init.nextOrder l.entries).isSome := by
    rw [hentries]
    refine settle_isSome ?_ ?_
    · intro x hx
      obtain ⟨e, he, rfl⟩ := mem_map.mp hx
      exact ⟨(hpath he).symm ▸ (h.kept e he).path, by simp⟩
    · rw [pairwise_map]
      refine h.apart.imp_of_mem fun hd he hapart => ?_
      rw [Apart, hpath hd, hpath he]
      exact hapart
  rw [load, load_save h.fits behind h.lines, if_pos h.nextId, hl]
  simp [hversion, hsettle]

/-! Adding and removing. -/

theorem Lasting.remove (h : Lasting catalog) (index : Nat) :
    Lasting (Launcher.remove catalog index) := by
  have hsub : (catalog.entries.eraseIdx index).Sublist catalog.entries := eraseIdx_sublist _ _
  exact ⟨h.nextId, h.nextOrder, fun e he => h.ids e (hsub.mem he), h.apart.sublist hsub,
    ⟨fun e he => h.ordered.below e (hsub.mem he), h.ordered.distinct.sublist hsub⟩,
    hsub.length_le.trans h.count, fun e he => h.kept e (hsub.mem he)⟩

theorem title_writable (h : title.length < titleSize) : Writable .title title := by
  refine ⟨nofun, ?_⟩
  have hlen := length_encode title
  have hkey : Field.title.key.length = 5 := by decide
  simp only [valueLine, pairLine, length_append, length_cons, titleSize, lineSize] at *
  omega

theorem kept_added (hid : id < 2 ^ 32)
    (horder : order < 2 ^ 32) (hpath : path ≠ []) (hlen : path.length < pathSize)
    (hbreak : ¬ Breaks path) (h0 : '\x00' ∉ path) (hw : Writable .path path)
    (ht : ¬ Breaks title) (ht0 : '\x00' ∉ title) (htlen : title.length < titleSize) :
    Kept ⟨id, order, 0, 0, path, title, [], [], []⟩ := by
  have hart {f : Field} (hf : f.size = artSize) (hk : Writable f []) :
      (([] : List Char).length < f.size ∧ '\x00' ∉ ([] : List Char)) ∧ ¬ Breaks [] ∧ Writable f [] :=
    ⟨⟨by rw [hf]; decide, not_mem_nil⟩, by decide, hk⟩
  have hall (f : Field) :
      let v := (⟨id, order, 0, 0, path, title, [], [], []⟩ : Entry).get f
      (v.length < f.size ∧ '\x00' ∉ v) ∧ ¬ Breaks v ∧ Writable f v := by
    cases f with
    | path => exact ⟨⟨hlen, h0⟩, hbreak, hw⟩
    | title => exact ⟨⟨htlen, ht0⟩, ht, title_writable htlen⟩
    | squareArt => exact hart rfl (by decide)
    | portraitArt => exact hart rfl (by decide)
    | heroArt => exact hart rfl (by decide)
  exact ⟨⟨hid, horder, (by decide : 0 < 2 ^ 32), (by decide : -2 ^ 31 ≤ (0 : Int) ∧ (0 : Int) < 2 ^ 31),
    fun f => (hall f).1⟩, fun f => (hall f).2.1, fun f => (hall f).2.2, hpath⟩

theorem Lasting.add (h : Lasting catalog)
    (hok : (Op.add path title).Ok catalog) : Lasting (Launcher.add catalog path title).1 := by
  rw [Launcher.add]
  cases hfind : find catalog path with
  | some i => exact h
  | none =>
    dsimp only
    split
    case isTrue => exact h
    case isFalse hplace =>
      simp only [not_or, Nat.not_le] at hplace
      obtain ⟨hpath, hr, hn, hlen, hcount⟩ := hplace
      obtain ⟨h0, ht0, hw, ht, hid, horder⟩ := hok
      have hnew : ∀ e ∈ catalog.entries, ¬ SameName e.path path := by
        intro e he
        have hall := List.findIdx?_eq_none_iff.mp hfind e he
        simpa using hall
      have hnext : wrap (catalog.nextId + 1) = catalog.nextId + 1 := by
        simp only [wrap, uintMax] at *
        omega
      have hnextOrder : wrap (catalog.nextOrder + 1) = catalog.nextOrder + 1 := by
        simp only [wrap, uintMax] at *
        omega
      have hlimit : uintMax < 2 ^ 32 := by decide
      have hkept : Kept ⟨catalog.nextId, catalog.nextOrder, 0, 0, path, title.take (titleSize - 1), [],
          [], []⟩ :=
        kept_added (by omega) (by omega) hpath hlen (by simp [Breaks, hr, hn]) h0 hw ht
          (fun hm => ht0 (mem_of_mem_take hm)) (by rw [length_take, titleSize]; omega)
      have hpos := h.nextId.1
      have hposOrder := h.nextOrder.1
      rw [hnext, hnextOrder]
      refine ⟨⟨Nat.succ_pos _, hid⟩, ⟨Nat.succ_pos _, horder⟩, ?_, ?_, ?_, ?_, ?_⟩
      · exact forall_mem_append.mpr ⟨fun e he => ⟨(h.ids e he).1, (h.ids e he).2.trans (Nat.lt_succ_self _)⟩,
          forall_mem_singleton.mpr ⟨Nat.ne_of_gt hpos, Nat.lt_succ_self _⟩⟩
      · exact pairwise_concat h.apart fun d hd => ⟨Nat.ne_of_lt (h.ids d hd).2, hnew d hd⟩
      · exact h.ordered.concat (Nat.le_succ _) ⟨Nat.ne_of_gt hposOrder, Nat.lt_succ_self _⟩
          fun d hd => Nat.ne_of_lt (h.ordered.below d hd).2
      · rw [length_append, length_singleton]
        omega
      · exact forall_mem_append.mpr ⟨h.kept, forall_mem_singleton.mpr hkept⟩

theorem Lasting.step {op : Op} (h : Lasting catalog) (hok : op.Ok catalog) :
    Lasting (catalog.step op) := by
  cases op with
  | add path title => exact h.add hok
  | remove index => exact h.remove index

theorem Lasting.valid (h : Lasting catalog) : Valid catalog :=
  ⟨fun e he => (h.ids e he).1, h.apart.imp fun hd => hd.1, h.ordered.distinct, h.accepted⟩

/-- A library that is loaded from a sound text stays valid as long as what is added is as asked. -/
theorem library_stays_valid {file : List Char} {behind : Nat → List Char} {catalog : Catalog}
    {ops : List Op} (hfile : Sound file) (hload : load behind file = some catalog)
    (hops : Allowed (fun c op => op.Ok c) Catalog.step catalog ops) :
    Valid (run Catalog.step catalog ops) :=
  (run_allowed (P := Lasting) (fun _ _ hok h => h.step hok) (lasting_load hfile hload) ops hops).valid

def sampleText : List Char := "version=3\n[game 7]\npath=a.exe\nadded-order=4\n".toList

theorem sampleText_sound : Sound sampleText := ⟨by decide +kernel, by decide +kernel⟩

theorem sampleText_loads : load (fun _ => []) sampleText =
    some ⟨[⟨7, 4, 0, 0, "a.exe".toList, [], [], [], []⟩], 8, 5⟩ := by decide +kernel

theorem sample_library_stays_valid :
    ∃ catalog, load (fun _ => []) sampleText = some catalog ∧
      let ops := [.add "b.exe".toList "B".toList, .remove 0, .add "a.exe".toList []]
      (run Catalog.step catalog ops).entries.length = 2 ∧ Valid (run Catalog.step catalog ops) :=
  ⟨_, sampleText_loads, by decide +kernel,
    library_stays_valid sampleText_sound sampleText_loads (by decide +kernel)⟩

/-- The counter of ids wraps behind the largest id. -/
theorem wrapped_id_zero :
    ∃ catalog, load (fun _ => []) "version=3\n[game 4294967295]\npath=a\n".toList = some catalog ∧
      ¬ Valid (run Catalog.step catalog [.add ['b'] []]) :=
  ⟨⟨[⟨4294967295, 1, 0, 0, ['a'], [], [], [], []⟩], 0, 2⟩, by decide +kernel,
    fun h => absurd h.ids (by decide +kernel)⟩

end Autorun.Text.Launcher
