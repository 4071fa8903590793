import Mathlib.Algebra.GroupWithZero.Nat
import Autorun.Swap.File
import Autorun.Proofs.SwapStore

namespace Autorun.Swap.File

open Autorun.Lib List
open Autorun.Swap.Store

theorem unit_count_bounds (size : Nat) : size ≤ unitCount size * unitSize := by
  unfold unitCount unitSize
  split <;> omega

theorem unit_count_pos {size : Nat} (h : size ≠ 0) : 0 < unitCount size := by
  have := unit_count_bounds size
  by_contra h0
  have hz : unitCount size = 0 := by omega
  simp [hz] at this
  exact h this

variable {file : SwapFile}

theorem occupied_of_used (h : file.used = some m) (i : Nat) : occupied file i = m.test i := by
  simp [occupied, h]

theorem set_bits_of_used (h : file.used = some m) :
    setBits file = m.card (8 * ((file.units + 7) / 8)) := by
  simp [setBits, h]

theorem scan_some {free : Nat → Bool} {count left unit run last start : Nat} (hcount : 0 < count)
    (hstart : start + run ≤ unit) (hrun : ∀ i, unit - run ≤ i → i < unit → free i = true)
    (h : scan free count left unit run = some last) :
    last < unit + left ∧ start + count ≤ last + 1 ∧
      ∀ i, last + 1 - count ≤ i → i < last + 1 → free i = true := by
  induction left generalizing unit run with
  | zero => simp [scan] at h
  | succ left ih =>
    simp only [scan] at h
    cases hf : free unit with
    | true =>
      simp only [hf, if_true] at h
      have hnext : ∀ i, unit + 1 - (run + 1) ≤ i → i < unit + 1 → free i = true := by
        intro i hl hu
        by_cases hi : i = unit
        · exact hi ▸ hf
        · exact hrun i (by omega) (by omega)
      split at h
      · rename_i heq
        cases h
        subst heq
        exact ⟨by omega, by omega, hnext⟩
      · obtain ⟨h1, h2, h3⟩ := ih (by omega) hnext h
        exact ⟨by omega, h2, h3⟩
    | false =>
      simp only [hf, Bool.false_eq_true, if_false] at h
      rw [if_neg (by omega)] at h
      obtain ⟨h1, h2, h3⟩ := ih (show start + 0 ≤ unit + 1 by omega) (fun i _ _ => by omega) h
      exact ⟨by omega, h2, h3⟩

theorem advance_le (file : SwapFile) (left hint : Nat) : advance file left hint ≤ hint + left := by
  induction left generalizing hint with
  | zero => exact Nat.le_refl _
  | succ left ih =>
    rw [advance]
    split
    · have := ih (hint + 1)
      omega
    · omega

theorem advance_occupied (file : SwapFile) (left hint : Nat) (hi : hint ≤ i)
    (hlt : i < advance file left hint) : occupied file i = true := by
  induction left generalizing hint with
  | zero => exact absurd hi (Nat.not_le.mpr hlt)
  | succ left ih =>
    rw [advance] at hlt
    split at hlt
    case isTrue hocc =>
      rcases Nat.eq_or_lt_of_le hi with rfl | hi
      · exact hocc
      · exact ih _ hi hlt
    case isFalse => omega

/-- The unit ranges of two tokens have no unit in common. -/
def Apart (a b : Live) : Prop :=
  a.first + a.count ≤ b.first ∨ b.first + b.count ≤ a.first

variable {a b l : Live}

theorem Apart.symm (h : Apart a b) : Apart b a := Or.symm h

/-- The bitmap, the count and the hint agree with the ranges of `live`. -/
structure Allocated (file : SwapFile) (live : List Live) : Prop where
  mapped : ∃ m, file.used = some m
  sized : file.store.size = file.units * unitSize
  hint_le : file.hint ≤ file.units
  inside : ∀ l ∈ live, l.token ≠ 0 ∧ l.data.length ≠ 0 ∧ l.first + l.count ≤ file.units
  disjoint : live.Pairwise Apart
  covers : ∀ i, occupied file i = true ↔ ∃ l ∈ live, l.first ≤ i ∧ i < l.first + l.count
  counted : file.usedUnits = (live.map Live.count).sum
  bits : setBits file = file.usedUnits

/-- Every token's bytes are on disk from its first unit on. -/
def Stored (file : SwapFile) (live : List Live) : Prop :=
  ∀ l ∈ live, ∀ j, j < l.data.length →
    flat file.store (l.first * unitSize + j) = l.data.getD j 0

def Full (file : SwapFile) : Prop := ∀ i < file.hint, occupied file i = true

theorem Allocated.perm (h : Allocated file live) (hp : live.Perm live') :
    Allocated file live' where
  mapped := h.mapped
  sized := h.sized
  hint_le := h.hint_le
  inside := fun l hl => h.inside l (hp.mem_iff.mpr hl)
  disjoint := h.disjoint.perm hp Apart.symm
  covers := fun i => by simp [h.covers i, hp.mem_iff]
  counted := h.counted.trans (hp.map _).sum_nat
  bits := h.bits

/-- A change of the stored bytes alone is none of the allocation's concern. -/
theorem Allocated.setStore {store : SwapStore} (h : Allocated file live)
    (hs : store.size = file.store.size) : Allocated { file with store } live :=
  { h with sized := hs.trans h.sized }

theorem Allocated.take (h : Allocated file live) (l : Live)
    (htoken : l.token ≠ 0) (hdata : l.data.length ≠ 0) (hin : l.first + l.count ≤ file.units)
    (hfree : ∀ i, l.first ≤ i → i < l.first + l.count → occupied file i = false) :
    Allocated { file with
      used := file.used.map (Bitmap.setRange · l.first l.count)
      usedUnits := file.usedUnits + l.count } (l :: live) := by
  obtain ⟨m, hm⟩ := h.mapped
  have hpos := unit_count_pos hdata
  have hbits : ∀ i, Bitmap.test (m.setRange l.first l.count) i =
      (decide (l.first ≤ i ∧ i < l.first + l.count) || m.test i) :=
    Bitmap.test_setRange (by decide) m _ _
  have happart : ∀ k ∈ live, Apart l k := by
    intro k hk
    obtain ⟨-, hkd, -⟩ := h.inside k hk
    have hkpos := unit_count_pos hkd
    by_contra hno
    -- the later of the two starts would be both free and taken
    have hmeet : ∃ i, (l.first ≤ i ∧ i < l.first + l.count) ∧ k.first ≤ i ∧ i < k.first + k.count := by
      refine ⟨max l.first k.first, ?_⟩
      unfold Apart at hno
      unfold Live.count at *
      omega
    obtain ⟨i, hi, hik⟩ := hmeet
    have htaken := (h.covers i).mpr ⟨k, hk, hik⟩
    rw [hfree i hi.1 hi.2] at htaken
    cases htaken
  have hused : file.used.map (Bitmap.setRange · l.first l.count) =
      some (m.setRange l.first l.count) := by rw [hm, Option.map_some]
  refine ⟨⟨_, hused⟩, h.sized, h.hint_le, ?_, ?_, ?_, ?_, ?_⟩
  · intro k hk
    rcases mem_cons.mp hk with rfl | hk
    · exact ⟨htoken, hdata, hin⟩
    · exact h.inside k hk
  · exact pairwise_cons.mpr ⟨happart, h.disjoint⟩
  · intro i
    have hold := h.covers i
    rw [occupied_of_used hm] at hold
    rw [occupied_of_used hused, hbits]
    simp [hold]
  · simp only [map_cons, sum_cons, h.counted]
    omega
  · rw [set_bits_of_used hused]
    rw [Bitmap.card_set_interval m _ l.first l.count _ (by dsimp only; omega) hbits]
    · rw [← h.bits, set_bits_of_used hm]
    · intro j hl hu
      rw [← occupied_of_used hm]
      exact hfree j hl hu

theorem Allocated.discard (h : Allocated file (l :: live)) :
    ∃ file', swapFileDiscard file l.token l.data.length = some file' ∧
      Allocated file' live ∧ file'.store = file.store ∧
      file'.used = file.used.map (Bitmap.clearRange · l.first l.count) ∧ (Full file → Full file') := by
  obtain ⟨m, hm⟩ := h.mapped
  obtain ⟨htoken, hdata, hin⟩ := h.inside l (mem_cons_self ..)
  have hpos : 0 < l.count := unit_count_pos hdata
  have hall : (List.range' l.first l.count).all (occupied file) = true := by
    rw [all_eq_true]
    intro i hi
    rw [mem_range'_1] at hi
    exact (h.covers i).mpr ⟨l, mem_cons_self .., hi⟩
  have happart := (pairwise_cons.mp h.disjoint).1
  have hchecks : l.token ≠ 0 ∧ l.data.length ≠ 0 ∧ l.first < file.units ∧
      l.count ≤ file.units - l.first ∧ (List.range' l.first l.count).all (occupied file) :=
    ⟨htoken, hdata, by omega, by omega, hall⟩
  have hbits : ∀ i, Bitmap.test (m.clearRange l.first l.count) i =
      (!decide (l.first ≤ i ∧ i < l.first + l.count) && m.test i) :=
    Bitmap.test_clearRange (by decide) m _ _
  have hwas : ∀ i, l.first ≤ i → i < l.first + l.count → m.test i = true := by
    intro i hl hu
    rw [← occupied_of_used hm]
    exact (h.covers i).mpr ⟨l, mem_cons_self .., hl, hu⟩
  have hsum : file.usedUnits = l.count + (live.map Live.count).sum := h.counted
  have hused : file.used.map (Bitmap.clearRange · l.first l.count) =
      some (m.clearRange l.first l.count) := by rw [hm, Option.map_some]
  have hlow : (if l.first < file.hint then l.first else file.hint) ≤ file.hint ∧
      (if l.first < file.hint then l.first else file.hint) ≤ l.first := by
    split <;> omega
  have hfull : Full file → ∀ i < if l.first < file.hint then l.first else file.hint,
      (m.clearRange l.first l.count).test i = true := by
    intro hfull i hi
    have hocc := hfull i (Nat.lt_of_lt_of_le hi hlow.1)
    rw [occupied_of_used hm] at hocc
    simp only [hbits, hocc, Bool.and_true, Bool.not_eq_true', decide_eq_false_iff_not]
    omega
  refine ⟨_, if_pos hchecks, ?_, rfl, rfl, fun h i hi => (occupied_of_used hused i).trans (hfull h i hi)⟩
  change Allocated { file with
    used := file.used.map (Bitmap.clearRange · l.first l.count)
    usedUnits := file.usedUnits - l.count
    hint := if l.first < file.hint then l.first else file.hint } live
  refine ⟨⟨_, hused⟩, h.sized, ?_, ?_, (pairwise_cons.mp h.disjoint).2, ?_, ?_, ?_⟩
  · exact Nat.le_trans hlow.1 h.hint_le
  · exact fun k hk => h.inside k (mem_cons_of_mem _ hk)
  · intro i
    have hold := h.covers i
    rw [occupied_of_used hm, exists_mem_cons_iff] at hold
    rw [occupied_of_used hused, hbits]
    simp only [Bool.and_eq_true, Bool.not_eq_true', decide_eq_false_iff_not, hold]
    constructor
    · rintro ⟨hnot, hmine | hother⟩
      · exact (hnot hmine).elim
      · exact hother
    · rintro ⟨k, hk, hik⟩
      refine ⟨?_, .inr ⟨k, hk, hik⟩⟩
      have hk := happart k hk
      unfold Apart at hk
      omega
  · dsimp only
    omega
  · -- the range set again gives the old bitmap, so the count drops by its length
    have hcard := Bitmap.card_set_interval (m.clearRange l.first l.count) m l.first l.count
      (8 * ((file.units + 7) / 8)) (by omega)
      (fun j => by
        rw [hbits]
        by_cases hj : l.first ≤ j ∧ j < l.first + l.count
        · simp [hj, hwas j hj.1 hj.2]
        · simp [hj])
      (fun j hl hu => by simp [hbits, hl, hu])
    have hold := h.bits
    rw [set_bits_of_used hm, hcard] at hold
    rw [set_bits_of_used hused]
    dsimp only
    omega

theorem Stored.sameOutside {file' : SwapFile} (h : Stored file live)
    (hs : SameOutside offset size file.store file'.store)
    (hout : ∀ l ∈ live, l.first * unitSize + l.data.length ≤ offset ∨
      offset + size ≤ l.first * unitSize ∨ size = 0) : Stored file' live := by
  intro l hl j hj
  rw [hs.outside _ (by have := hout l hl; omega)]
  exact h l hl j hj

theorem Apart.bytes (h : Apart a b) :
    a.first * unitSize + a.data.length ≤ b.first * unitSize ∨
      b.first * unitSize + b.data.length ≤ a.first * unitSize := by
  have ha := unit_count_bounds a.data.length
  have hb := unit_count_bounds b.data.length
  unfold Apart Live.count at h
  unfold unitSize at *
  omega

theorem Allocated.in_store (h : Allocated file live) (first : Nat)
    (hin : first + unitCount size ≤ file.units) : first * unitSize + size ≤ file.store.size := by
  have hb := unit_count_bounds size
  rw [h.sized]
  unfold unitSize at *
  omega

variable (fs : FileSystem)

/-- What a save does: a new token whose bytes are on disk, or an error, token 0 and the
bitmap of before. -/
theorem save_spec (data : List UInt8)
    (ha : Allocated file live) (hs : Stored file live) (hfull : Full file) :
    (∃ e file', swapFileSave fs file data = some (some e, 0, file') ∧
      Allocated file' live ∧ Stored file' live ∧ file'.used = file.used ∧ Full file') ∨
    (∃ token file', swapFileSave fs file data = some (none, token, file') ∧
      Allocated file' (⟨token, data⟩ :: live) ∧ Stored file' (⟨token, data⟩ :: live) ∧ Full file') := by
  unfold swapFileSave
  by_cases hbad : data.length = 0 ∨ data.length > file.store.size ∨ file.used = none
  · rw [if_pos hbad]
    exact .inl ⟨_, _, rfl, ha, hs, rfl, hfull⟩
  rw [if_neg hbad]
  dsimp only
  have hdata : data.length ≠ 0 := fun h0 => hbad (.inl h0)
  have hpos := unit_count_pos hdata
  cases hscan : scan (fun unit => !occupied file unit) (unitCount data.length)
      (file.units - file.hint) file.hint 0 with
  | none => exact .inl ⟨_, _, rfl, ha, hs, rfl, hfull⟩
  | some last =>
  dsimp only
  obtain ⟨hlast, hroom, hfree⟩ :=
    scan_some hpos (Nat.le_refl file.hint) (fun i _ _ => by omega) hscan
  have hhint := ha.hint_le
  obtain ⟨l, hl⟩ : ∃ l : Live, l = ⟨last + 1 - unitCount data.length + 1, data⟩ := ⟨_, rfl⟩
  have hfirst : l.first = last + 1 - unitCount data.length := by rw [hl]; rfl
  have hcount : l.count = unitCount data.length := by rw [hl]; rfl
  have hldata : l.data = data := by rw [hl]
  have hin : l.first + l.count ≤ file.units := by omega
  have hunused : ∀ i, l.first ≤ i → i < l.first + l.count → occupied file i = false := by
    intro i hlo hhi
    simpa using hfree i (by omega) (by omega)
  have htaken := ha.take l (by rw [hl]; simp) (by rw [hldata]; exact hdata) hin hunused
  have happart := (pairwise_cons.mp htaken.disjoint).1
  rw [← hfirst, ← hcount]
  cases hw : swapStoreWrite fs file.store (l.first * unitSize) data with
  | mk error store =>
  obtain ⟨hsame, -, hwritten⟩ :=
    store_write (ha.in_store l.first (by rw [← hcount]; exact hin)) hw
  have hothers : ∀ file' : SwapFile, file'.store = store → Stored file' live := by
    intro file' hst
    apply hs.sameOutside (hst ▸ hsame)
    intro k hk
    have := (happart k hk).bytes
    rw [hldata] at this
    omega
  have hsized := htaken.setStore hsame.size_eq
  have htaken' : ∀ i < file.hint, occupied { file with
      used := file.used.map (Bitmap.setRange · l.first l.count) } i = true := fun i hi => by
    obtain ⟨k, hk, hin⟩ := (ha.covers i).mp (hfull i hi)
    exact (htaken.covers i).mpr ⟨k, mem_cons_of_mem _ hk, hin⟩
  cases error with
  | some e =>
    obtain ⟨undone, hd, hundone, hst, hused, hlow⟩ := hsized.discard
    obtain ⟨m, hm⟩ := ha.mapped
    refine .inl ⟨e, undone, ?_, hundone, hothers _ hst, ?_, hlow htaken'⟩
    · have htoken : l.first + 1 = l.token := by rw [hl]; rfl
      dsimp only at hd ⊢
      rw [htoken, ← hldata, hd]
      rfl
    · rw [hused, hm]
      simp only [Option.map_some]
      rw [Bitmap.clearRange_setRange (by decide)]
      intro j hlo hhi
      rw [← occupied_of_used hm]
      exact hunused j hlo hhi
  | none =>
    refine .inr ⟨l.first + 1, _, rfl, ?_, ?_, fun i hi => ?_⟩
    · have hl' : (⟨l.first + 1, data⟩ : Live) = l := by rw [hfirst, hl]
      rw [hl']
      have hadvance := advance_le
        { file with
          store
          used := file.used.map (Bitmap.setRange · l.first l.count)
          usedUnits := file.usedUnits + l.count } (file.units - file.hint) file.hint
      refine { hsized with hint_le := ?_ }
      dsimp only at hadvance ⊢
      omega
    · intro k hk j hj
      rcases mem_cons.mp hk with rfl | hk
      · have := hwritten rfl (l.first * unitSize + j) (by omega) (by dsimp only at hj; omega)
        rwa [Nat.add_sub_cancel_left] at this
      · exact hothers _ rfl k hk j hj
    · by_cases hlt : i < file.hint
      · exact htaken' i hlt
      · have hocc := advance_occupied _ _ _ (Nat.le_of_not_lt hlt) hi
        exact hocc

theorem load_keeps (token size : Nat)
    (ha : Allocated file live) (hs : Stored file live) (hfull : Full file) :
    Allocated (swapFileLoad fs file token size).2 live ∧
      Stored (swapFileLoad fs file token size).2 live ∧ Full (swapFileLoad fs file token size).2 := by
  unfold swapFileLoad
  dsimp only
  split
  · exact ⟨ha, hs, hfull⟩
  split
  · exact ⟨ha, hs, hfull⟩
  split
  · exact ⟨ha, hs, hfull⟩
  · cases hr : swapStoreRead fs file.store ((token - 1) * unitSize) size with
    | mk r store =>
    obtain ⟨hsame, -, -⟩ := store_read (ha.in_store (token - 1) (by omega)) hr
    have hs' : Stored { file with store } live := hs.sameOutside hsame (by simp)
    exact ⟨ha.setStore hsame.size_eq, hs', hfull⟩

theorem load_spec (ha : Allocated file live) (hs : Stored file live) (hl : l ∈ live) :
    (swapFileLoad fs file l.token l.data.length).1 = .ok l.data ∨
      ∃ e, (swapFileLoad fs file l.token l.data.length).1 = .error e ∧
        FileSystemError fs file.store.calls e := by
  obtain ⟨htoken, hdata, hin⟩ := ha.inside l hl
  have hpos := unit_count_pos hdata
  have hstore := ha.in_store l.first hin
  have hall : (List.range' l.first l.count).all (occupied file) = true := by
    rw [all_eq_true]
    intro i hi
    rw [mem_range'_1] at hi
    exact (ha.covers i).mpr ⟨l, hl, hi⟩
  have h1 : ¬ (l.token = 0 ∨ l.data.length = 0 ∨ l.data.length > file.store.size ∨
      l.first ≥ file.units) := by
    unfold Live.count at hin
    omega
  have h2 : ¬ l.count > file.units - l.first := by omega
  have heq : swapFileLoad fs file l.token l.data.length =
      ((swapStoreRead fs file.store (l.first * unitSize) l.data.length).1,
        { file with store := (swapStoreRead fs file.store (l.first * unitSize) l.data.length).2 }) := by
    exact (if_neg h1).trans ((if_neg h2).trans (if_neg (by simpa [Live.first, Live.count] using hall)))
  rw [heq]
  cases hr : swapStoreRead fs file.store (l.first * unitSize) l.data.length with
  | mk r store =>
  obtain ⟨-, herr, hok⟩ := store_read hstore hr
  cases r with
  | error e => exact .inr ⟨e, rfl, herr e rfl⟩
  | ok bytes =>
    left
    dsimp only
    rw [hok bytes rfl]
    congr 1
    apply ext_getElem (Store.slice_length ..)
    intro j hj hj'
    have := hs l hl j hj'
    simp [Store.slice, this, List.getElem?_eq_getElem hj']

theorem step_keeps (s : State) (op : Op) (ha : Allocated s.file s.live)
    (hs : Stored s.file s.live) (hfull : Full s.file) :
    ∃ s', step fs s op = some s' ∧ Allocated s'.file s'.live ∧ Stored s'.file s'.live ∧ Full s'.file := by
  cases op with
  | save data =>
    rcases save_spec fs data ha hs hfull with ⟨e, file', heq, ha', hs', -, hf⟩ | ⟨token, file', heq, hkept⟩
    · exact ⟨{ s with file := file' }, by simp [step, heq], ha', hs', hf⟩
    · exact ⟨⟨file', ⟨token, data⟩ :: s.live⟩, by simp [step, heq], hkept⟩
  | load token size =>
    exact ⟨_, rfl, load_keeps fs token size ha hs hfull⟩
  | discard token =>
    cases hf : s.live.find? (·.token == token) with
    | none => exact ⟨s, by simp [step, hf], ha, hs, hfull⟩
    | some l =>
      have hl := mem_of_find?_eq_some hf
      have htoken : l.token = token := by simpa using List.find?_some hf
      obtain ⟨file', hd, ha', hst, -, hlow⟩ := (ha.perm (perm_cons_erase hl)).discard
      rw [htoken] at hd
      refine ⟨⟨file', s.live.erase l⟩, by simp [step, hf, hd], ha', ?_, hlow hfull⟩
      intro k hk j hj
      rw [hst]
      exact hs k (mem_of_mem_erase hk) j hj

theorem open_allocated (h : swapFileOpen megabytes files allocated = .ok file) :
    Allocated file [] ∧ Full file := by
  unfold swapFileOpen at h
  split at h
  · cases h
  split at h
  · cases h
  cases h
  have hclear : ∀ i, Bitmap.test (fun _ => 0#8) i = false := by
    intro i
    simp [Bitmap.test]
  refine ⟨⟨⟨_, rfl⟩, ?_, Nat.zero_le _, by simp, List.Pairwise.nil, ?_, rfl, ?_⟩, nofun⟩
  · dsimp only
    unfold unitSize
    omega
  · intro i
    rw [occupied_of_used rfl, hclear]
    simp
  · rw [set_bits_of_used rfl, Bitmap.card, countP_eq_zero.mpr]
    intro i _
    simp [hclear]

theorem run_keeps (h : swapFileOpen megabytes files allocated = .ok file)
    (ops : List Op) :
    ∃ s, runCalls fs ⟨file, []⟩ ops = some s ∧ Allocated s.file s.live ∧ Stored s.file s.live ∧ Full s.file := by
  refine run_invariant (P := fun o : Option State =>
    ∃ s, o = some s ∧ Allocated s.file s.live ∧ Stored s.file s.live ∧ Full s.file) ?_ ?_ ops
  · rintro _ op ⟨s, rfl, ha, hs, hfull⟩
    exact step_keeps fs s op ha hs hfull
  · obtain ⟨ha, hfull⟩ := open_allocated h
    exact ⟨_, rfl, ha, by simp [Stored], hfull⟩

variable {fs}

/-- The tokens of a swap file own disjoint units and keep their bytes, whatever the order of
calls and whichever writes fail; the bitmap and the count say exactly which units are owned. -/
theorem swap_file_keeps_data (fs : FileSystem) (megabytes : Nat) (files : Nat → Nat → UInt8)
    (file : SwapFile) (opened : swapFileOpen megabytes files true = .ok file) (ops : List Op) :
    ∃ s, runCalls fs ⟨file, []⟩ ops = some s ∧
      (∀ l ∈ s.live, l.token ≠ 0 ∧ l.first + l.count ≤ s.file.units) ∧
      s.live.Pairwise Apart ∧
      s.file.usedUnits = setBits s.file ∧
      s.file.usedUnits = (s.live.map Live.count).sum ∧
      (∀ data, ∃ error token file', swapFileSave fs s.file data = some (error, token, file') ∧
        (error ≠ none → token = 0 ∧ file'.used = s.file.used)) ∧
      (∀ l ∈ s.live, (swapFileLoad fs s.file l.token l.data.length).1 = .ok l.data ∨
        ∃ e, (swapFileLoad fs s.file l.token l.data.length).1 = .error e ∧
          FileSystemError fs s.file.store.calls e) := by
  obtain ⟨s, hrun, ha, hs, hfull⟩ := run_keeps fs opened ops
  refine ⟨s, hrun, fun l hl => ?_, ha.disjoint, ha.bits.symm, ha.counted, fun data => ?_,
    fun l hl => load_spec fs ha hs hl⟩
  · obtain ⟨htoken, -, hin⟩ := ha.inside l hl
    exact ⟨htoken, hin⟩
  · rcases save_spec fs data ha hs hfull with ⟨e, file', heq, -, -, hused, -⟩ | ⟨token, file', heq, -, -⟩
    · exact ⟨_, _, _, heq, fun _ => ⟨rfl, hused⟩⟩
    · exact ⟨_, _, _, heq, fun h => (h rfl).elim⟩

def secondFails : FileSystem where
  fails := fun n => if n = 1 then some 5 else none
  torn := fun _ _ => 0xff

/-- A save, a save the disk fails and a load, on a file of one megabyte. -/
theorem swap_file_keeps_data_failed_save :
    ∃ file s, swapFileOpen 1 (fun _ _ => 0) true = .ok file ∧
      runCalls secondFails ⟨file, []⟩ [.save [1, 2], .save [3], .load 1 2] = some s ∧
      s.file.usedUnits = setBits s.file ∧ s.live.Pairwise Apart := by
  obtain ⟨s, hrun, -, hdisj, hbits, -⟩ :=
    swap_file_keeps_data secondFails 1 (fun _ _ => 0) _ rfl [.save [1, 2], .save [3], .load 1 2]
  exact ⟨_, s, rfl, hrun, hbits, hdisj⟩

/-! The hint. -/

def FreeRun (file : SwapFile) (count first : Nat) : Prop :=
  first + count ≤ file.units ∧ ∀ i, first ≤ i → i < first + count → occupied file i = false

theorem scan_complete (free : Nat → Bool) {count run : Nat} (left unit first : Nat) (hrun : run < count)
    (hfirst : unit ≤ first + run) (hend : first + count ≤ unit + left)
    (hfree : ∀ i, first ≤ i → i < first + count → free i = true) :
    ∃ last, scan free count left unit run = some last := by
  induction left generalizing unit run with
  | zero => omega
  | succ left ih =>
    unfold scan
    cases hf : free unit with
    | true =>
      by_cases heq : run + 1 = count
      · exact ⟨unit, by simp [heq]⟩
      · have hnext := @ih (run + 1) (unit + 1) (by omega) (by omega) (by omega)
        simpa [heq] using hnext
    | false =>
      -- the run lies behind a unit that is not free
      have hbehind : unit < first := by
        by_contra hle
        rw [hfree unit (by omega) (by omega)] at hf
        cases hf
      have hnext := @ih 0 (unit + 1) (by omega) (by omega) (by omega)
      simpa [show ¬ 0 = count by omega] using hnext

theorem scan_skip {count : Nat} (free : Nat → Bool) (hcount : count ≠ 0) (skip left unit : Nat)
    (hfull : ∀ i, unit ≤ i → i < unit + skip → free i = false) :
    scan free count (skip + left) unit 0 = scan free count left (unit + skip) 0 := by
  induction skip generalizing unit with
  | zero => rw [Nat.zero_add, Nat.add_zero]
  | succ skip ih =>
    have hnext := ih (unit + 1) fun i hl hu => hfull i (by omega) (by omega)
    rw [Nat.add_right_comm, scan]
    simp only [hfull unit (Nat.le_refl _) (by omega), Bool.false_eq_true, if_false]
    rw [if_neg (Ne.symm hcount), hnext, Nat.add_assoc, Nat.add_comm 1]

theorem store_write_error (h : swapStoreWrite fs store offset data = (some e, store')) : e ≠ .nospc := by
  by_cases hin : offset + data.length ≤ store.size
  · obtain ⟨_, _, -, -, rfl⟩ := (store_write hin h).2.1 e rfl
    nofun
  · rw [swapStoreWrite, storeTransfer, if_pos (by omega)] at h
    cases h
    nofun

theorem save_nospc_iff (fs : FileSystem) (file : SwapFile) (data : List UInt8)
    (hok : ¬ (data.length = 0 ∨ data.length > file.store.size ∨ file.used = none)) :
    (∃ token file', swapFileSave fs file data = some (some .nospc, token, file')) ↔
      scan (fun i => !occupied file i) (unitCount data.length) (file.units - file.hint) file.hint 0 = none := by
  unfold swapFileSave
  rw [if_neg hok]
  dsimp only
  cases scan (fun i => !occupied file i) (unitCount data.length) (file.units - file.hint) file.hint 0 with
  | none => simp
  | some last =>
    refine iff_of_false ?_ nofun
    rintro ⟨token, file', hsave⟩
    cases hw : swapStoreWrite fs file.store ((last + 1 - unitCount data.length) * unitSize) data with
    | mk error store =>
    simp only [hw] at hsave
    cases error with
    | none => cases hsave
    | some e =>
      simp only [Option.map_eq_some_iff, Prod.mk.injEq, Option.some.injEq] at hsave
      obtain ⟨_, -, he, -⟩ := hsave
      exact store_write_error hw he

/-- In every run the search from the hint on finds what a search of all units finds, and a size that
the file can hold is refused for want of room just when no run of free units is long enough. -/
theorem hinted_search_complete (fs : FileSystem) (megabytes : Nat) (files : Nat → Nat → UInt8)
    (file : SwapFile) (opened : swapFileOpen megabytes files true = .ok file) (ops : List Op) :
    ∃ s, runCalls fs ⟨file, []⟩ ops = some s ∧ (∀ i < s.file.hint, occupied s.file i = true) ∧
      ∀ data : List UInt8, data.length ≤ s.file.store.size →
        (data.length ≠ 0 →
          scan (fun i => !occupied s.file i) (unitCount data.length) (s.file.units - s.file.hint) s.file.hint 0 =
            scan (fun i => !occupied s.file i) (unitCount data.length) s.file.units 0 0) ∧
        ((∃ token file', swapFileSave fs s.file data = some (some .nospc, token, file')) ↔
          ∀ first, ¬ FreeRun s.file (unitCount data.length) first) := by
  obtain ⟨s, hrun, ha, hs, hfull⟩ := run_keeps fs opened ops
  refine ⟨s, hrun, hfull, fun data hsize => ?_⟩
  by_cases hdata : data.length = 0
  · -- no data is refused for another reason, and needs no units
    refine ⟨fun h => absurd hdata h, iff_of_false ?_ fun h => h 0 ⟨?_, fun i _ hi => ?_⟩⟩
    · simp [swapFileSave, hdata]
    · simp [hdata, unitCount]
    · simp [hdata, unitCount] at hi
  have hpos := unit_count_pos hdata
  have hsame := scan_skip (!occupied s.file ·) (Nat.ne_of_gt hpos) s.file.hint (s.file.units - s.file.hint) 0
    fun i _ hi => by simpa using hfull i (by omega)
  rw [Nat.add_sub_cancel' ha.hint_le, Nat.zero_add] at hsame
  obtain ⟨m, hm⟩ := ha.mapped
  rw [save_nospc_iff fs s.file data (by simp [hdata, hsize, hm]), ← hsame]
  refine ⟨fun _ => rfl, fun hnone first hrun => ?_, fun hnone => ?_⟩
  · have hend := hrun.1
    obtain ⟨last, hlast⟩ := scan_complete (!occupied s.file ·) s.file.units 0 first hpos (Nat.zero_le _) (by omega)
      fun i hl hu => by simpa using hrun.2 i hl hu
    rw [hlast] at hnone
    cases hnone
  · cases hscan : scan (fun i => !occupied s.file i) (unitCount data.length) s.file.units 0 0 with
    | none => rfl
    | some last =>
      obtain ⟨hlast, hroom, hfree⟩ := scan_some hpos (Nat.le_refl 0) (fun i _ _ => by omega) hscan
      refine absurd ⟨?_, fun i hl hu => ?_⟩ (hnone (last + 1 - unitCount data.length))
      · omega
      · simpa using hfree i hl (by omega)

/-- The second save fails and the third one comes behind the first. -/
theorem hinted_search_complete_failed_save :
    ∃ file s, swapFileOpen 1 (fun _ _ => 0) true = .ok file ∧
      runCalls secondFails ⟨file, []⟩ [.save [1, 2], .save [3], .save [4]] = some s ∧
      s.live = [⟨2, [4]⟩, ⟨1, [1, 2]⟩] ∧ s.file.hint = 2 ∧ ∀ i < s.file.hint, occupied s.file i = true := by
  obtain ⟨s, hrun, hfull, -⟩ :=
    hinted_search_complete secondFails 1 (fun _ _ => 0) _ rfl [.save [1, 2], .save [3], .save [4]]
  have hend : (some s).map (fun s => (s.live, s.file.hint)) = some ([⟨2, [4]⟩, ⟨1, [1, 2]⟩], 2) := by
    rw [← hrun]
    decide +kernel
  obtain ⟨hlive, hhint⟩ := Prod.mk.inj (Option.some.inj hend)
  exact ⟨_, s, rfl, hrun, hlive, hhint, hfull⟩

/-- No run is long enough for more than the file holds, which is refused for another reason. -/
theorem too_much_is_invalid :
    ∃ file, swapFileOpen 1 (fun _ _ => 0) true = .ok file ∧
      swapFileSave secondFails file (List.replicate 1048577 0) = some (some .inval, 0, file) ∧
      ∀ first, ¬ FreeRun file (unitCount (List.replicate 1048577 (0 : UInt8)).length) first := by
  refine ⟨_, rfl, ?_, fun first hrun => ?_⟩
  · rw [swapFileSave, length_replicate, if_pos (.inr (.inl (by decide)))]
  · have hlong := hrun.1
    rw [length_replicate] at hlong
    change first + 257 ≤ 1 * 1048576 / unitSize at hlong
    unfold unitSize at hlong
    omega

end Autorun.Swap.File
