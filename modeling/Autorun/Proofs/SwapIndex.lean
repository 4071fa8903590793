import Autorun.Swap.Index

namespace Autorun.Swap.Index

open Lib

variable {index : SwapIndex} {page stop q : Nat} {bits : Nat → BitVec 64} {set : Bool}

theorem mask_bit (hlast : last < 64) (hi : i < 64) : (mask first last).getLsbD i = decide (first ≤ i ∧ i ≤ last) := by
  unfold mask
  rw [BitVec.getLsbD_and, BitVec.getLsbD_shiftLeft, BitVec.getLsbD_ushiftRight, BitVec.getLsbD_allOnes,
    BitVec.getLsbD_allOnes]
  grind

theorem mask_page (hpage : page < stop) (hword : q / 64 = page / 64) :
    (mask (page % 64) ((wordEnd page stop - 1) % 64)).getLsbD (q % 64) =
      decide (page ≤ q ∧ q < wordEnd page stop) := by
  rw [mask_bit (Nat.mod_lt _ (by decide)) (Nat.mod_lt _ (by decide))]
  unfold wordEnd
  apply decide_eq_decide.mpr
  omega

theorem lt_wordEnd (hpage : page < stop) : page < wordEnd page stop ∧ wordEnd page stop ≤ stop := by
  unfold wordEnd
  omega

theorem mem_word (hpage : page < stop) (hq : page ≤ q) (hlt : q < wordEnd page stop) : q / 64 = page / 64 := by
  unfold wordEnd at hlt
  omega

theorem marked_some (hr : q / 32768 = page / 32768) (h : index (page / 32768) = some bits) :
    marked index q = (bits (q / 64 % 512)).getLsbD (q % 64) := by
  rw [marked, hr, h, Option.any_some]

theorem marked_none (hr : q / 32768 = page / 32768) (h : index (page / 32768) = none) : marked index q = false := by
  rw [marked, hr, h, Option.any_none]

theorem index_none (h : region memory set index page = none) : index (page / 32768) = none := by
  unfold region at h
  cases hi : index (page / 32768) with
  | some b =>
    rw [hi] at h
    cases h
  | none => rfl

theorem marked_region (hr : q / 32768 = page / 32768) (h : region memory set index page = some bits) :
    marked index q = (bits (q / 64 % 512)).getLsbD (q % 64) := by
  unfold region at h
  cases hi : index (page / 32768) with
  | some b =>
    rw [hi] at h
    cases h
    exact marked_some hr hi
  | none =>
    rw [hi] at h
    obtain ⟨-, heq⟩ := Option.ite_none_right_eq_some.mp h
    cases heq
    rw [marked_none hr hi]
    exact (BitVec.getLsbD_zero ..).symm

theorem marked_turn (hpage : page < stop) (h : region memory set index page = some bits) (q : Nat) :
    marked (Function.update index (page / 32768) (some (Function.update bits (page / 64 % 512)
      (if set then bits (page / 64 % 512) ||| mask (page % 64) ((wordEnd page stop - 1) % 64)
        else bits (page / 64 % 512) &&& ~~~mask (page % 64) ((wordEnd page stop - 1) % 64))))) q =
      if page ≤ q ∧ q < wordEnd page stop then set else marked index q := by
  by_cases hr : q / 32768 = page / 32768
  · rw [marked_region hr h, marked, hr, Function.update_self, Option.any_some]
    by_cases hw : q / 64 % 512 = page / 64 % 512
    · have hbit := mask_page hpage (show q / 64 = page / 64 by omega)
      have hq : q % 64 < 64 := Nat.mod_lt _ (by decide)
      rw [hw, Function.update_self]
      cases set with
      | true =>
        rw [if_pos rfl, BitVec.getLsbD_or, hbit]
        by_cases hin : page ≤ q ∧ q < wordEnd page stop
        · rw [if_pos hin, decide_eq_true hin, Bool.or_true]
        · rw [if_neg hin, decide_eq_false hin, Bool.or_false]
      | false =>
        rw [if_neg Bool.false_ne_true, BitVec.getLsbD_and, BitVec.getLsbD_not, hbit, decide_eq_true hq, Bool.true_and]
        by_cases hin : page ≤ q ∧ q < wordEnd page stop
        · rw [if_pos hin, decide_eq_true hin, Bool.not_true, Bool.and_false]
        · rw [if_neg hin, decide_eq_false hin, Bool.not_false, Bool.and_true]
    · rw [Function.update_of_ne hw, if_neg fun hin => hw (by rw [mem_word hpage hin.1 hin.2])]
  · rw [marked, marked, Function.update_of_ne hr, if_neg]
    intro hin
    have := mem_word hpage hin.1 hin.2
    omega

theorem updateLoop_spec (left : Nat) (hleft : stop - page ≤ left) :
    let r := updateLoop memory set stop left index page
    (r.1 = true → ∀ q, marked r.2 q = if page ≤ q ∧ q < stop then set else marked index q) ∧
      (r.1 = false → set = true ∧ ∀ q, marked index q = true → marked r.2 q = true) := by
  induction left generalizing index page with
  | zero => exact ⟨fun _ q => (if_neg (by omega)).symm, nofun⟩
  | succ left ih =>
    unfold updateLoop
    split
    case isFalse hdone => exact ⟨fun _ q => (if_neg (by omega)).symm, nofun⟩
    case isTrue hpage =>
    have hnext := lt_wordEnd hpage
    have hleft : stop - wordEnd page stop ≤ left := by omega
    cases hr : region memory set index page with
    | none =>
      cases set with
      | true => exact ⟨nofun, fun _ => ⟨rfl, fun _ hq => hq⟩⟩
      | false =>
        refine ⟨fun hok q => ((ih hleft).1 hok q).trans ?_, fun hno => (ih hleft).2 hno⟩
        have hclear : page ≤ q → q < wordEnd page stop → marked index q = false := fun hle hlt =>
          marked_none (by have := mem_word hpage hle hlt; omega) (index_none hr)
        grind
    | some bits =>
      refine ⟨fun hok q => ?_, fun hno => ⟨((ih hleft).2 hno).1, fun q hq => ((ih hleft).2 hno).2 q ?_⟩⟩
      · rw [(ih hleft).1 hok q, marked_turn hpage hr]
        grind
      · rw [marked_turn hpage hr, ((ih hleft).2 hno).1, hq, ite_self]

theorem word_ne_zero (hpage : page < stop) (h : index (page / 32768) = some bits) :
    bits (page / 64 % 512) &&& mask (page % 64) ((wordEnd page stop - 1) % 64) ≠ 0#64 ↔
      ∃ q, page ≤ q ∧ q < wordEnd page stop ∧ marked index q = true := by
  have hbit : ∀ q, q / 64 = page / 64 →
      (bits (page / 64 % 512) &&& mask (page % 64) ((wordEnd page stop - 1) % 64)).getLsbD (q % 64) =
        (marked index q && decide (page ≤ q ∧ q < wordEnd page stop)) := by
    intro q hq
    rw [BitVec.getLsbD_and, mask_page hpage hq, marked_some (by omega) h, hq]
  constructor
  · intro hne
    by_contra hno
    refine hne (BitVec.eq_of_getLsbD_eq fun i hi => ?_)
    have hi' := hbit (page / 64 * 64 + i) (by omega)
    rw [show (page / 64 * 64 + i) % 64 = i by omega] at hi'
    rw [hi', BitVec.getLsbD_zero, Bool.and_eq_false_imp]
    exact fun hq => decide_eq_false fun hin => hno ⟨_, hin.1, hin.2, hq⟩
  · rintro ⟨q, hle, hlt, hq⟩ hzero
    have hone := hbit q (mem_word hpage hle hlt)
    rw [hzero, hq, decide_eq_true ⟨hle, hlt⟩, BitVec.getLsbD_zero] at hone
    cases hone

theorem containsLoop_iff (left : Nat) (hleft : stop - page ≤ left) :
    containsLoop index stop left page = true ↔ ∃ q, page ≤ q ∧ q < stop ∧ marked index q = true := by
  induction left generalizing page with
  | zero => exact ⟨nofun, fun ⟨q, hq⟩ => by omega⟩
  | succ left ih =>
    unfold containsLoop
    split
    case isFalse hdone => exact ⟨nofun, fun ⟨q, hq⟩ => by omega⟩
    case isTrue hpage =>
    have hnext := lt_wordEnd hpage
    cases hr : index (page / 32768) with
    | none =>
      refine (ih (by omega)).trans (exists_congr fun q => ?_)
      have hclear : q / 32768 = page / 32768 → marked index q = false := fun heq => marked_none heq hr
      grind
    | some bits =>
      have hword := word_ne_zero hpage hr
      dsimp only
      split
      case isTrue hsome =>
        obtain ⟨q, hle, hlt, hq⟩ := hword.mp hsome
        exact ⟨fun _ => ⟨q, hle, by omega, hq⟩, fun _ => rfl⟩
      case isFalse hno =>
        refine (ih (by omega)).trans (exists_congr fun q => ?_)
        grind

def Touches (addr size q : Nat) : Prop := ∃ x, addr ≤ x ∧ x < addr + size ∧ x / 4096 = q

def Inside (addr size q : Nat) : Prop := ∀ x, x / 4096 = q → addr ≤ x ∧ x < addr + size

theorem touches_iff (hsize : 0 < size) :
    Touches addr size q ↔ addr / 4096 ≤ q ∧ q < (addr + size + 4095) / 4096 := by
  constructor
  · rintro ⟨x, hx⟩
    omega
  · intro hq
    exact ⟨max addr (q * 4096), by omega⟩

theorem inside_iff (addr size : Nat) :
    Inside addr size q ↔ (addr + 4095) / 4096 ≤ q ∧ q < (addr + size) / 4096 := by
  constructor
  · intro hin
    have hlo := hin (q * 4096) (by omega)
    have hhi := hin (q * 4096 + 4095) (by omega)
    omega
  · intro hq x hx
    omega

def reference (pages : Nat → Prop) (c : Call) (q : Nat) : Prop :=
  if c.set then pages q ∨ Touches c.addr c.size q else pages q ∧ ¬Inside c.addr c.size q

theorem update_ok (hok : (swapIndexUpdate index c).1 = true) (q : Nat) :
    marked (swapIndexUpdate index c).2 q = true ↔ reference (marked index · = true) c q := by
  unfold swapIndexUpdate reference at *
  split
  case isTrue hzero =>
    have htouch : ¬Touches c.addr c.size q := fun ⟨x, hx⟩ => by omega
    have hinside : ¬Inside c.addr c.size q := fun hin => by
      have := hin (q * 4096) (by omega)
      omega
    simp [htouch, hinside]
  case isFalse hsize =>
  rw [if_neg hsize] at hok
  split at hok
  case isTrue => cases hok
  case isFalse hlow =>
  rw [if_neg hlow, (updateLoop_spec _ (Nat.le_refl _)).1 hok q]
  cases c.set with
  | true =>
    simp only [touches_iff (Nat.pos_of_ne_zero hsize)]
    grind
  | false =>
    simp only [inside_iff]
    grind

theorem update_failed (hno : (swapIndexUpdate index c).1 = false) (hq : marked index q = true) :
    marked (swapIndexUpdate index c).2 q = true := by
  unfold swapIndexUpdate at *
  split
  case isTrue => exact hq
  case isFalse hsize =>
  rw [if_neg hsize] at hno
  split
  case isTrue => exact hq
  case isFalse hlow =>
  rw [if_neg hlow] at hno
  exact ((updateLoop_spec _ (Nat.le_refl _)).2 hno).2 q hq

theorem contains_iff (haddr : addr < 2 ^ 64) :
    swapIndexContains index addr size = true ↔
      addr + size > 2 ^ 64 ∨ ∃ q, q < 2 ^ 27 ∧ Touches addr size q ∧ marked index q = true := by
  unfold swapIndexContains
  split
  case isTrue hzero =>
    refine ⟨nofun, fun h => ?_⟩
    rcases h with hwrap | ⟨q, -, ⟨x, hx⟩, -⟩
    · omega
    · omega
  case isFalse hsize =>
  split
  case isTrue hwrap => exact ⟨fun _ => .inl (by omega), fun _ => rfl⟩
  case isFalse hwrap =>
  rw [or_iff_right (by omega)]
  split
  case isTrue hhigh =>
    refine ⟨nofun, fun ⟨q, hlt, ⟨x, hx⟩, _⟩ => ?_⟩
    omega
  case isFalse hlow =>
  refine (containsLoop_iff _ (Nat.le_refl _)).trans (exists_congr fun q => ?_)
  rw [touches_iff (Nat.pos_of_ne_zero hsize)]
  split
  · grind
  · grind

def Succeeds (index : SwapIndex) (c : Call) : Prop := (swapIndexUpdate index c).1 = true

def after (index : SwapIndex) (c : Call) : SwapIndex := (swapIndexUpdate index c).2

theorem run_marked (calls : List Call) (hok : Allowed Succeeds after index calls) :
    (fun q => marked (run after index calls) q = true) = run reference (fun q => marked index q = true) calls := by
  induction calls generalizing index with
  | nil => rfl
  | cons c calls ih =>
    rw [run_cons, run_cons, ih hok.2]
    congr 1
    exact funext fun q => propext (update_ok hok.1 q)

/-- After any calls that succeed the marked pages are those of the reference set, a search finds exactly
the ranges that touch one, and a call that fails marks no page less. -/
theorem index_is_page_set (calls : List Call) (hok : Allowed Succeeds after (fun _ => none) calls) :
    let index := run after (fun _ => none) calls
    (∀ q, marked index q = true ↔ run reference (fun _ => False) calls q) ∧
      (∀ addr size, addr < 2 ^ 64 → (swapIndexContains index addr size = true ↔
        addr + size > 2 ^ 64 ∨ ∃ q, q < 2 ^ 27 ∧ Touches addr size q ∧ marked index q = true)) ∧
      ∀ c q, ¬Succeeds index c → marked index q = true → marked (after index c) q = true := by
  refine ⟨fun q => ?_, fun addr size => contains_iff, fun c q hno => update_failed (eq_false_of_ne_true hno)⟩
  have hrun := run_marked calls hok
  have hempty : (fun q => marked (fun _ => none) q = true) = fun _ => False := by simp [marked]
  rw [hempty] at hrun
  exact iff_of_eq (congrFun hrun q)

/-- A range over the end of a region, and the page behind that end cleared again. -/
theorem index_over_region_end :
    let calls : List Call := [⟨134215680, 4096, true, fun _ => true⟩, ⟨134217728, 4096, false, fun _ => true⟩]
    let index := run after (fun _ => none) calls
    marked index 32767 = true ∧ marked index 32768 = false ∧ run reference (fun _ => False) calls 32767 ∧
      swapIndexContains index (2 ^ 64 - 1) 2 = true := by
  intro calls index
  obtain ⟨hset, hfind, -⟩ := index_is_page_set calls ⟨rfl, rfl, trivial⟩
  have hmarked : marked index 32767 = true := by decide +kernel
  exact ⟨hmarked, by decide +kernel, (hset _).mp hmarked, (hfind _ 2 (by decide)).mpr (.inl (by decide))⟩

/-- A range up to the end of the address space is not taken for one that wraps. -/
theorem last_page_is_not_found :
    let addr := 2 ^ 64 - 4096
    (addr + 4096) % 2 ^ 64 < addr ∧ swapIndexContains (fun _ => none) addr 4096 = false := by
  decide

end Autorun.Swap.Index
