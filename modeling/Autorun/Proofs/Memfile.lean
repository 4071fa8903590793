import Autorun.Lib.RangeList
import Autorun.Guest.Memfile

namespace Autorun.Guest

open Autorun.Lib List

def anchorRanges : Ranges Anchor := ⟨Anchor.first, Anchor.stop⟩

/-- What the kernel operations of a section promise about the pages they show at
a view's address. `refused` counts the calls to put something back that were
refused. -/
structure LawfulOps (ops : MemfileOps σ) (shown : σ → Nat → Bool) (refused : σ → Nat) : Prop where
  calloc : ∀ s, shown (ops.calloc s).2 = shown s ∧ refused (ops.calloc s).2 = refused s
  anchor : ∀ s first count, shown (ops.anchor s first count).2 = shown s ∧
    refused (ops.anchor s first count).2 = refused s
  unanchor : ∀ s a, shown (ops.unanchor s a).2 = shown s ∧
    refused (ops.unanchor s a).2 = refused s
  alias_done : ∀ u s dst src count, (ops.aliasPages u s dst src count).1 = none →
    (∀ p, shown (ops.aliasPages u s dst src count).2 p =
      (decide (dst ≤ p ∧ p < dst + count) || shown s p)) ∧
    refused (ops.aliasPages u s dst src count).2 = refused s
  alias_refused : ∀ u s dst src count, (ops.aliasPages u s dst src count).1 ≠ none →
    shown (ops.aliasPages u s dst src count).2 = shown s ∧
      refused (ops.aliasPages u s dst src count).2 = refused s + u.toNat
  unalias_done : ∀ u s dst src count, (ops.unaliasPages u s dst src count).1 = none →
    (∀ p, shown (ops.unaliasPages u s dst src count).2 p =
      (!decide (dst ≤ p ∧ p < dst + count) && shown s p)) ∧
    refused (ops.unaliasPages u s dst src count).2 = refused s
  unalias_refused : ∀ u s dst src count, (ops.unaliasPages u s dst src count).1 ≠ none →
    shown (ops.unaliasPages u s dst src count).2 = shown s ∧
      refused (ops.unaliasPages u s dst src count).2 = refused s + u.toNat

/-- `shown` with the pages `[lo, hi)` all mapped, or all unmapped. -/
def overlay (map : Bool) (lo hi : Nat) (f : Nat → Bool) : Nat → Bool :=
  fun p => if lo ≤ p ∧ p < hi then map else f p

theorem overlay_empty (map : Bool) (lo : Nat) (f : Nat → Bool) : overlay map lo lo f = f := by
  funext p
  unfold overlay
  rw [if_neg (by omega)]

variable {hi lo count first : Nat}

theorem overlay_append {mid : Nat} (map : Bool) (f : Nat → Bool) (h1 : lo ≤ mid)
    (h2 : mid ≤ hi) : overlay map mid hi (overlay map lo mid f) = overlay map lo hi f := by
  funext p
  unfold overlay
  split
  · rw [if_pos (by omega)]
  · split
    · rw [if_pos (by omega)]
    · rw [if_neg (by omega)]

/-- Mapping a range and unmapping it again is nothing when all of it was unmapped. -/
theorem overlay_undo (map : Bool) (f : Nat → Bool)
    (h : ∀ p, lo ≤ p → p < hi → f p = !map) : overlay (!map) lo hi (overlay map lo hi f) = f := by
  funext p
  unfold overlay
  split
  · rename_i hp
    rw [h p hp.1 hp.2]
  · rfl

section Operations

variable {ops : MemfileOps σ} {shown : σ → Nat → Bool} {refused : σ → Nat}
  (law : LawfulOps ops shown refused)

include law

theorem alias_call (map undo : Bool) (s : σ) (dst src count : Nat) :
    let r := (if map then ops.aliasPages undo else ops.unaliasPages undo) s dst src count
    (r.1 = none → shown r.2 = overlay map dst (dst + count) (shown s) ∧ refused r.2 = refused s) ∧
    (r.1 ≠ none → shown r.2 = shown s ∧ refused r.2 = refused s + undo.toNat) := by
  cases map with
  | true =>
    refine ⟨fun h => ?_, law.alias_refused undo s dst src count⟩
    simp only [if_true] at h ⊢
    obtain ⟨hshown, hrefused⟩ := law.alias_done undo s dst src count h
    refine ⟨?_, hrefused⟩
    funext p
    rw [hshown p]
    unfold overlay
    split <;> rename_i hp <;> simp [hp]
  | false =>
    refine ⟨fun h => ?_, law.unalias_refused undo s dst src count⟩
    simp only [Bool.false_eq_true, if_false] at h ⊢
    obtain ⟨hshown, hrefused⟩ := law.unalias_done undo s dst src count h
    refine ⟨?_, hrefused⟩
    funext p
    rw [hshown p]
    unfold overlay
    split <;> rename_i hp <;> simp [hp]

/-- The walk over the anchors handles the pages up to `done` and no others. -/
theorem alias_range (map undo : Bool) (dst first stop : Nat) (as : List Anchor) (page : Nat) (s : σ)
    (hfirst : first ≤ page) (hstop : page ≤ stop) :
    let r := aliasRange ops map undo dst first stop as page s
    page ≤ r.1 ∧ r.1 ≤ stop ∧ (r.2.1 = none → r.1 = stop) ∧
    shown r.2.2 = overlay map (dst + (page - first)) (dst + (r.1 - first)) (shown s) ∧
    anchorRanges.Covers as page r.1 ∧ refused s ≤ refused r.2.2 := by
  have hnone : ∀ as page, anchorRanges.Covers as page page := fun _ _ q hl hu => by omega
  induction as generalizing page s with
  | nil =>
    refine ⟨Nat.le_refl _, hstop, ?_, (overlay_empty ..).symm, hnone _ _, Nat.le_refl _⟩
    simp only [aliasRange]
    intro h
    by_contra hne
    rw [if_pos (by omega)] at h
    cases h
  | cons a rest ih =>
    simp only [aliasRange]
    split
    · split
      · obtain ⟨h1, h2, h3, h4, h5, h6⟩ := ih page s hfirst hstop
        exact ⟨h1, h2, h3, h4, h5.mono (subset_cons_self ..), h6⟩
      split
      · exact ⟨Nat.le_refl _, hstop, by simp, (overlay_empty ..).symm, hnone _ _, Nat.le_refl _⟩
      · have hnext : page < min a.stop stop ∧ min a.stop stop ≤ stop := by omega
        have hmine : ∀ done, anchorRanges.Covers rest (min a.stop stop) done →
            done ≤ stop → anchorRanges.Covers (a :: rest) page done := by
          intro done hcov hdone q hl hu
          by_cases hq : q < a.stop
          · exact ⟨a, mem_cons_self .., by simp only [anchorRanges, Ranges.Has]; omega⟩
          · exact hcov.mono (subset_cons_self ..) q (by omega) hu
        generalize min a.stop stop = next at hnext hmine ⊢
        obtain ⟨hok, hbad⟩ := alias_call law map undo s (dst + (page - first))
          (a.addr + (page - a.first)) (next - page)
        generalize (if map then ops.aliasPages undo else ops.unaliasPages undo) s
          (dst + (page - first)) (a.addr + (page - a.first)) (next - page) = r at *
        obtain ⟨e, s'⟩ := r
        cases e with
        | some e =>
          obtain ⟨hshown, hrefused⟩ := hbad (by simp)
          exact ⟨Nat.le_refl _, hstop, by simp, hshown.trans (overlay_empty ..).symm, hnone _ _,
            hrefused ▸ Nat.le_add_right ..⟩
        | none =>
          dsimp only
          obtain ⟨h1, h2, h3, h4, h5, h6⟩ := ih next s' (by omega) hnext.2
          obtain ⟨hshown, hrefused⟩ := hok rfl
          refine ⟨by omega, h2, h3, ?_, hmine _ h5 h2, hrefused ▸ h6⟩
          rw [h4, hshown]
          have hmid : dst + (page - first) + (next - page) = dst + (next - first) := by omega
          rw [hmid]
          exact overlay_append map _ (by omega) (by omega)
    · exact ⟨Nat.le_refl _, hstop, fun _ => by omega, (overlay_empty ..).symm, hnone _ _, Nat.le_refl _⟩

/-- A walk over pages that are covered fails only if the kernel refuses one of its calls. -/
theorem alias_range_undo (map : Bool) (dst first stop : Nat) (as : List Anchor) (page : Nat) (s : σ)
    (hfirst : first ≤ page) (hstop : page ≤ stop)
    (hcovered : anchorRanges.Covers as page stop)
    (hsorted : anchorRanges.Sorted as) :
    let r := aliasRange ops map true dst first stop as page s
    r.2.1 = none ∨ refused s < refused r.2.2 := by
  induction as generalizing page s with
  | nil =>
    simp only [aliasRange]
    by_cases hlt : page < stop
    · obtain ⟨a, ha, _⟩ := hcovered page (Nat.le_refl _) hlt
      cases ha
    · rw [if_neg hlt]
      exact .inl rfl
  | cons a rest ih =>
    simp only [aliasRange]
    have hrest : ∀ next, a.stop ≤ next → anchorRanges.Covers (a :: rest) next stop →
        anchorRanges.Covers rest next stop := by
      intro next hpast hcov q hl hu
      obtain ⟨b, hb, hq⟩ := hcov q hl hu
      rcases mem_cons.mp hb with rfl | hb'
      · have := hq.2
        simp only [anchorRanges] at this
        omega
      · exact ⟨b, hb', hq⟩
    split
    · split
      · rename_i hskip
        exact ih page s hfirst hstop (hrest page hskip hcovered) hsorted.tail
      split
      · rename_i hlt hskip hgap
        obtain ⟨b, hb, hq⟩ := hcovered page (Nat.le_refl _) hlt
        rcases mem_cons.mp hb with rfl | hb'
        · have := hq.1
          simp only [anchorRanges] at this
          omega
        · have h1 := hsorted.head_le hb'
          have h2 := hq.1
          have h3 := hsorted.nonempty a (mem_cons_self ..)
          simp only [anchorRanges] at h1 h2 h3
          omega
      · obtain ⟨hok, hbad⟩ := alias_call law map true s (dst + (page - first))
          (a.addr + (page - a.first)) (min a.stop stop - page)
        generalize (if map then ops.aliasPages true else ops.unaliasPages true) s
          (dst + (page - first)) (a.addr + (page - a.first)) (min a.stop stop - page) = r at *
        obtain ⟨e, s'⟩ := r
        cases e with
        | some e => exact .inr ((hbad (by simp)).2 ▸ Nat.lt_add_one _)
        | none =>
          rw [← (hok rfl).2]
          refine ih (min a.stop stop) s' (by omega) (by omega) ?_ hsorted.tail
          by_cases hend : a.stop ≤ stop
          · rw [Nat.min_eq_left hend]
            exact hrest a.stop (Nat.le_refl _) fun q hl hu => hcovered q (by omega) hu
          · intro q hl hu
            omega
    · exact .inl rfl

/-- When `horizon_memfile_alias_locked` fails nothing changes hands, unless the kernel refuses to put
a piece back. -/
theorem alias_locked (map undo : Bool) (dst first stop : Nat) (as : List Anchor) (s : σ)
    (hle : first ≤ stop) (hsorted : anchorRanges.Sorted as)
    (hbefore : ∀ p, dst ≤ p → p < dst + (stop - first) → shown s p = !map) :
    let r := aliasLocked ops map undo dst first stop as s
    r.1 ≠ none → shown r.2 = shown s ∨ refused s < refused r.2 := by
  obtain ⟨h1, h2, -, h4, h5, h6⟩ :=
    alias_range law map undo dst first stop as first s (Nat.le_refl _) hle
  simp only [aliasLocked]
  generalize aliasRange ops map undo dst first stop as first s = r at *
  obtain ⟨done, e, s'⟩ := r
  simp only [Nat.sub_self] at h1 h2 h4 h5 h6
  cases e with
  | none => exact fun h => absurd rfl h
  | some e =>
    obtain ⟨k1, k2, k3, k4, -, -⟩ :=
      alias_range law (!map) true dst first done as first s' (Nat.le_refl _) h1
    have hundo := alias_range_undo law (!map) dst first done as first s' (Nat.le_refl _) h1 h5 hsorted
    simp only [Nat.sub_self] at k1 k2 k3 k4 hundo
    intro _
    rcases hundo with hnone | hrefused
    · left
      rw [k4, h4, k3 hnone]
      exact overlay_undo map _ fun p hl hu => hbefore p hl (by omega)
    · exact .inr (Nat.lt_of_le_of_lt h6 hrefused)

theorem trim_shown (as : List Anchor) (s : σ) :
    shown (trim ops as s).2 = shown s ∧ refused (trim ops as s).2 = refused s := by
  induction as generalizing s with
  | nil => exact ⟨rfl, rfl⟩
  | cons a rest ih =>
    simp only [trim]
    split
    · exact ih s
    · obtain ⟨hshown, hrefused⟩ := law.unanchor s a
      generalize ops.unanchor s a = r at *
      obtain ⟨e, s'⟩ := r
      obtain ⟨hih, hih'⟩ := ih s'
      cases e with
      | some e => exact ⟨hih.trans hshown, hih'.trans hrefused⟩
      | none => exact ⟨hih.trans hshown, hih'.trans hrefused⟩

theorem new_anchor_shown (page stop : Nat) (s : σ) :
    shown (newAnchor ops page stop s).2 = shown s ∧ refused (newAnchor ops page stop s).2 = refused s := by
  obtain ⟨hc, hc'⟩ := law.calloc s
  unfold newAnchor
  generalize ops.calloc s = r at *
  obtain ⟨e, s'⟩ := r
  cases e with
  | some e => exact ⟨hc, hc'⟩
  | none =>
    obtain ⟨ha, ha'⟩ := law.anchor s' page (stop - page)
    dsimp only
    generalize ops.anchor s' page (stop - page) = r at *
    obtain ⟨e, s''⟩ := r
    cases e with
    | error e => exact ⟨ha.trans hc, ha'.trans hc'⟩
    | ok addr => exact ⟨ha.trans hc, ha'.trans hc'⟩

theorem anchor_pages_shown (stop : Nat) (as : List Anchor) (page : Nat) (s : σ) :
    let r := anchorPages ops stop as page s
    shown r.2.2 = shown s ∧ refused r.2.2 = refused s := by
  induction as generalizing page s with
  | nil =>
    simp only [anchorPages]
    split
    · have hn := new_anchor_shown law page stop s
      generalize newAnchor ops page stop s = r at *
      obtain ⟨e, s'⟩ := r
      cases e with
      | error e => exact hn
      | ok a => exact hn
    · exact ⟨rfl, rfl⟩
  | cons a rest ih =>
    simp only [anchorPages]
    split
    · split
      · exact ih page s
      split
      · exact ih a.stop s
      · have hn := new_anchor_shown law page (min a.first stop) s
        generalize newAnchor ops page (min a.first stop) s = r at *
        obtain ⟨e, s'⟩ := r
        cases e with
        | error e => exact hn
        | ok new =>
          dsimp only
          split
          · obtain ⟨hih, hih'⟩ := ih a.stop s'
            exact ⟨hih.trans hn.1, hih'.trans hn.2⟩
          · exact hn
    · exact ⟨rfl, rfl⟩

end Operations

section Anchors

variable (ops : MemfileOps σ)

theorem trim_sublist (as : List Anchor) (s : σ) : (trim ops as s).1.Sublist as := by
  induction as generalizing s with
  | nil => exact List.Sublist.refl _
  | cons a rest ih =>
    simp only [trim]
    split
    · exact (ih s).cons_cons a
    · generalize ops.unanchor s a = r
      obtain ⟨e, s'⟩ := r
      cases e with
      | some e => exact (ih s').cons_cons a
      | none => exact (ih s').cons a

theorem trim_keeps_used (as : List Anchor) (s : σ) (ha : a ∈ as) (hu : a.users ≠ 0) :
    a ∈ (trim ops as s).1 := by
  induction as generalizing s with
  | nil => cases ha
  | cons b rest ih =>
    simp only [trim]
    split
    · rcases mem_cons.mp ha with rfl | ha'
      · exact mem_cons_self ..
      · exact mem_cons_of_mem _ (ih s ha')
    · rename_i hb
      have hne : a ∈ rest := by
        rcases mem_cons.mp ha with rfl | ha'
        · exact absurd hu hb
        · exact ha'
      generalize ops.unanchor s b = r
      obtain ⟨e, s'⟩ := r
      cases e with
      | some e => exact mem_cons_of_mem _ (ih s' hne)
      | none => exact ih s' hne

theorem new_anchor_ok {page stop : Nat} {s s' : σ} (h : newAnchor ops page stop s = (.ok a, s')) :
    a.first = page ∧ a.count = stop - page ∧ a.users = 0 := by
  unfold newAnchor at h
  generalize ops.calloc s = r at h
  obtain ⟨e, s1⟩ := r
  cases e with
  | some e => cases h
  | none =>
    dsimp only at h
    generalize ops.anchor s1 page (stop - page) = r at h
    obtain ⟨e, s2⟩ := r
    cases e with
    | error e => cases h
    | ok addr =>
      cases h
      exact ⟨rfl, rfl, rfl⟩

/-- What `horizon_memfile_anchor_locked` makes of the anchors that lie after `page`. -/
structure Filled (page stop : Nat) (as as' : List Anchor) : Prop where
  sorted : anchorRanges.Sorted as'
  kept : ∀ a ∈ as, a ∈ as'
  new : ∀ a ∈ as', a ∈ as ∨ a.users = 0 ∧ page ≤ a.first ∧ a.stop ≤ stop ∧ ∀ b ∈ as, anchorRanges.Apart a b

variable {as as' : List Anchor}

theorem Filled.same (h : anchorRanges.Sorted as) (page stop : Nat) : Filled page stop as as :=
  ⟨h, fun _ ha => ha, fun _ ha => .inl ha⟩

theorem Filled.pass (hs : anchorRanges.Sorted (a :: as))
    (hf : Filled n stop as as') (ha : a.stop ≤ n) (hp : page ≤ n) :
    Filled page stop (a :: as) (a :: as') := by
  have hafter : ∀ b ∈ as', a.stop ≤ b.first := by
    intro b hb
    rcases hf.new b hb with hold | ⟨_, hnext, _⟩
    · exact hs.head_le hold
    · omega
  refine ⟨hf.sorted.cons (hs.nonempty a (mem_cons_self ..)) hafter,
    forall_mem_cons.mpr ⟨mem_cons_self .., fun b hb => mem_cons_of_mem _ (hf.kept b hb)⟩,
    forall_mem_cons.mpr ⟨.inl (mem_cons_self ..), fun b hb => ?_⟩⟩
  rcases hf.new b hb with hold | ⟨hu, hl, hr, hd⟩
  · exact .inl (mem_cons_of_mem _ hold)
  · exact .inr ⟨hu, by omega, hr, forall_mem_cons.mpr ⟨.inr (hafter b hb), hd⟩⟩

theorem Filled.fill (hf : Filled page stop as as') (hne : 0 < n.count)
    (hnew : n.users = 0 ∧ page ≤ n.first ∧ n.stop ≤ stop) (hbefore : ∀ b ∈ as', n.stop ≤ b.first) :
    Filled page stop as (n :: as') := by
  refine ⟨hf.sorted.cons (show n.first < n.first + n.count by omega) hbefore,
    fun b hb => mem_cons_of_mem _ (hf.kept b hb), forall_mem_cons.mpr ⟨.inr ?_, hf.new⟩⟩
  exact ⟨hnew.1, hnew.2.1, hnew.2.2, fun c hc => .inl (hbefore c (hf.kept c hc))⟩

/-- `horizon_memfile_anchor_locked` only fills gaps, and on success leaves none. -/
theorem anchor_pages_filled (stop : Nat) (as : List Anchor) (page : Nat) (s : σ)
    (hs : anchorRanges.Sorted as) :
    let r := anchorPages ops stop as page s
    Filled page stop as r.2.1 ∧
      (r.1 = none → anchorRanges.Covers r.2.1 page stop) := by
  induction as generalizing page s with
  | nil =>
    simp only [anchorPages]
    split
    · cases hn : newAnchor ops page stop s with
      | mk e s' =>
      cases e with
      | error e => exact ⟨.same hs page stop, by simp⟩
      | ok a =>
        obtain ⟨hf, hc, hu⟩ := new_anchor_ok ops hn
        have hstop : a.stop = stop := by unfold Anchor.stop; omega
        refine ⟨(Filled.same hs page stop).fill (by omega) ⟨hu, by omega, by omega⟩ (by simp), ?_⟩
        intro _ q hl hr
        exact ⟨a, mem_cons_self .., by simp only [Ranges.Has, anchorRanges]; omega⟩
    · exact ⟨.same hs page stop, fun _ q hl hr => by omega⟩
  | cons a rest ih =>
    have hne : a.first < a.stop := hs.nonempty a (mem_cons_self ..)
    simp only [anchorPages]
    split
    · split
      · rename_i hskip
        obtain ⟨hf, hcov⟩ := ih page s hs.tail
        exact ⟨hf.pass hs hskip (Nat.le_refl _),
          fun he => (hcov he).mono (subset_cons_self ..)⟩
      split
      · rename_i hfirst
        obtain ⟨hf, hcov⟩ := ih a.stop s hs.tail
        exact ⟨hf.pass hs (Nat.le_refl _) (by omega), fun he => (hcov he).cons hfirst⟩
      · cases hn : newAnchor ops page (min a.first stop) s with
        | mk e s' =>
        cases e with
        | error e => exact ⟨.same hs page stop, by simp⟩
        | ok new =>
          obtain ⟨hnf, hnc, hnu⟩ := new_anchor_ok ops hn
          have hnstop : new.stop = min a.first stop := by unfold Anchor.stop; omega
          have hgap : ∀ q, page ≤ q → q < min a.first stop → anchorRanges.Has new q := by
            intro q hl hr
            simp only [Ranges.Has, anchorRanges]
            omega
          dsimp only
          split
          · obtain ⟨hf, hcov⟩ := ih a.stop s' hs.tail
            have hpassed := hf.pass hs (Nat.le_refl _) (show page ≤ a.stop by omega)
            refine ⟨hpassed.fill (by omega) ⟨hnu, by omega, by omega⟩ ?_, fun he q hl hr => ?_⟩
            · refine forall_mem_cons.mpr ⟨by omega, fun b hb => ?_⟩
              have : a.stop ≤ b.first := hpassed.sorted.head_le hb
              omega
            · by_cases hq : q < min a.first stop
              · exact ⟨new, mem_cons_self .., hgap q hl hq⟩
              · exact ((hcov he).cons (Nat.le_refl a.first)).mono (subset_cons_self ..) q
                  (by omega) hr
          · refine ⟨(Filled.same hs page stop).fill (by omega) ⟨hnu, by omega, by omega⟩ ?_,
              fun _ q hl hr => ⟨new, mem_cons_self .., hgap q hl (by omega)⟩⟩
            refine forall_mem_cons.mpr ⟨by omega, fun b hb => ?_⟩
            have : a.stop ≤ b.first := hs.head_le hb
            omega
    · exact ⟨.same hs page stop, fun _ q hl hr => by omega⟩

end Anchors

/-- Whether an anchor holds a page of `[v.1, v.2)`. -/
def meets (a : Anchor) (v : Nat × Nat) : Bool := decide (v.1 < a.stop ∧ a.first < v.2)

/-- An anchor after one more, or one fewer, range uses it. -/
def recount (up : Bool) (v : Nat × Nat) (a : Anchor) : Anchor :=
  if meets a v then { a with users := if up then a.users + 1 else a.users - 1 } else a

@[simp] theorem recount_first (up : Bool) (v : Nat × Nat) (a : Anchor) :
    (recount up v a).first = a.first := by
  unfold recount
  split <;> rfl

@[simp] theorem recount_stop (up : Bool) (v : Nat × Nat) (a : Anchor) :
    (recount up v a).stop = a.stop := by
  unfold recount
  split <;> rfl

@[simp] theorem recount_meets (up : Bool) (v : Nat × Nat) (a : Anchor) :
    meets (recount up v a) = meets a := by
  funext w
  simp [meets]

variable {as : List Anchor}

/-- Counting walks the anchors in order and changes those the range meets. -/
theorem use_locked_eq (up : Bool) (first stop : Nat)
    (hs : anchorRanges.Sorted as) :
    useLocked up first stop as = as.map (recount up (first, stop)) := by
  induction as with
  | nil => rfl
  | cons a rest ih =>
    have hne : a.first < a.stop := hs.nonempty a (mem_cons_self ..)
    rw [useLocked, map_cons]
    split
    · rw [ih hs.tail]
      split
      · have hno : meets a (first, stop) = false := by
          simp only [meets, decide_eq_false_iff_not]
          omega
        rw [recount, if_neg (by simp [hno])]
      · have hyes : meets a (first, stop) = true := by
          simp only [meets, decide_eq_true_eq]
          omega
        rw [recount, if_pos hyes]
    · -- the loop stops here: the anchors that follow begin later still
      have hno : ∀ b ∈ a :: rest, meets b (first, stop) = false := by
        intro b hb
        have : a.first ≤ b.first := by
          rcases mem_cons.mp hb with rfl | hb'
          · exact Nat.le_refl _
          · have : a.stop ≤ b.first := hs.head_le hb'
            omega
        simp only [meets, decide_eq_false_iff_not]
        omega
      have hsame : ∀ b ∈ a :: rest, recount up (first, stop) b = b := by
        intro b hb
        rw [recount, if_neg (by simp [hno b hb])]
      rw [← map_cons, map_congr_left hsame, map_id']

/-- The anchors of a section of `size` pages, of which the ranges `views` are mapped: disjoint and
in order, each counting the ranges that meet it, and every page of every range in one of them. -/
structure AnchorsInv (size : Nat) (views : List (Nat × Nat)) (as : List Anchor) : Prop where
  sorted : anchorRanges.Sorted as
  bounded : ∀ a ∈ as, a.stop ≤ size
  nonempty : ∀ v ∈ views, v.1 < v.2
  counted : ∀ a ∈ as, a.users = views.countP (meets a)
  covered : ∀ v ∈ views, anchorRanges.Covers as v.1 v.2

namespace AnchorsInv

theorem perm (h : AnchorsInv size views as) (hp : views.Perm views') : AnchorsInv size views' as :=
  ⟨h.sorted, h.bounded, fun v hv => h.nonempty v (hp.mem_iff.mpr hv),
    fun a ha => (h.counted a ha).trans (hp.countP_eq _), fun v hv => h.covered v (hp.mem_iff.mpr hv)⟩

theorem use (h : AnchorsInv size views as) (up : Bool) (w : Nat × Nat)
    (hne : ∀ v ∈ views', v.1 < v.2)
    (hcount : ∀ a ∈ as, (recount up w a).users = views'.countP (meets a))
    (hcov : ∀ v ∈ views', anchorRanges.Covers as v.1 v.2) :
    AnchorsInv size views' (useLocked up w.1 w.2 as) := by
  rw [use_locked_eq up w.1 w.2 h.sorted]
  refine ⟨h.sorted.map _ (recount_first up w) (recount_stop up w), ?_, hne, ?_, ?_⟩
  · intro b hb
    obtain ⟨a, ha, rfl⟩ := mem_map.mp hb
    rw [recount_stop]
    exact h.bounded a ha
  · intro b hb
    obtain ⟨a, ha, rfl⟩ := mem_map.mp hb
    rw [recount_meets]
    exact hcount a ha
  · intro v hv q hl hr
    obtain ⟨a, ha, hq⟩ := hcov v hv q hl hr
    refine ⟨_, mem_map_of_mem ha, ?_⟩
    simpa [Ranges.Has, anchorRanges] using hq

/-- A new range, all of whose pages are anchored, is counted. -/
theorem use_up (h : AnchorsInv size views as) (v : Nat × Nat) (hne : v.1 < v.2)
    (hv : anchorRanges.Covers as v.1 v.2) :
    AnchorsInv size (v :: views) (useLocked true v.1 v.2 as) := by
  apply h.use true v (forall_mem_cons.mpr ⟨hne, h.nonempty⟩) ?_
    (forall_mem_cons.mpr ⟨hv, h.covered⟩)
  intro a ha
  rw [countP_cons, ← h.counted a ha, recount]
  split <;> simp

theorem use_down (h : AnchorsInv size (v :: views) as) :
    AnchorsInv size views (useLocked false v.1 v.2 as) := by
  apply h.use false v
  · exact fun w hw => h.nonempty w (mem_cons_of_mem _ hw)
  · intro a ha
    have hold := h.counted a ha
    rw [countP_cons] at hold
    rw [recount]
    split <;> rename_i hm
    · simp only [hm, if_true] at hold
      simp only [Bool.false_eq_true, if_false]
      omega
    · simp only [hm, Bool.false_eq_true, if_false] at hold
      omega
  · exact fun w hw => h.covered w (mem_cons_of_mem _ hw)

/-- An anchor that goes is used by no range, so every range stays covered. -/
theorem trim (h : AnchorsInv size views as) (ops : MemfileOps σ) (s : σ) :
    AnchorsInv size views (trim ops as s).1 := by
  have hsub := trim_sublist ops as s
  refine ⟨h.sorted.sublist hsub, fun a ha => h.bounded a (hsub.subset ha), h.nonempty,
    fun a ha => h.counted a (hsub.subset ha), ?_⟩
  intro v hv q hl hr
  obtain ⟨a, ha, hq⟩ := h.covered v hv q hl hr
  refine ⟨a, trim_keeps_used ops as s ha ?_, hq⟩
  have hmeets : meets a v = true := by
    simp only [meets, decide_eq_true_eq]
    simp only [Ranges.Has, anchorRanges] at hq
    omega
  have hpos : 0 < views.countP (meets a) := countP_pos_iff.mpr ⟨v, hv, hmeets⟩
  rw [h.counted a ha]
  omega

/-- A gap that is filled is met by no range, since the ranges were covered before. -/
theorem filled (h : AnchorsInv size views as) (hf : Filled page stop as as') (hstop : stop ≤ size) :
    AnchorsInv size views as' := by
  refine ⟨hf.sorted, ?_, h.nonempty, ?_, ?_⟩
  · intro a ha
    rcases hf.new a ha with hold | ⟨_, _, hr, _⟩
    · exact h.bounded a hold
    · omega
  · intro a ha
    rcases hf.new a ha with hold | ⟨hu, _, _, hd⟩
    · exact h.counted a hold
    · rw [hu]
      symm
      apply countP_eq_zero.mpr
      intro v hv hm
      simp only [meets, decide_eq_true_eq] at hm
      have hne : a.first < a.stop := hf.sorted.nonempty a ha
      have hnev := h.nonempty v hv
      obtain ⟨b, hb, hq⟩ := h.covered v hv (max v.1 a.first) (by omega) (by omega)
      have := hd b hb
      simp only [Ranges.Has, Ranges.Apart, anchorRanges] at hq this
      omega
  · exact fun v hv => (h.covered v hv).mono hf.kept

end AnchorsInv

/-- How many ranges use a section page: the count of the anchor that holds it. -/
def usersAt (as : List Anchor) (q : Nat) : Nat := ((anchorRanges.at? as q).map Anchor.users).getD 0

/-- Trimming leaves each page's use as it was: what goes is not used. -/
theorem users_at_trim (ops : MemfileOps σ) (s : σ)
    (hs : anchorRanges.Sorted as) (q : Nat) : usersAt (trim ops as s).1 q = usersAt as q := by
  have hs' := hs.sublist (trim_sublist ops as s)
  unfold usersAt
  cases ha : anchorRanges.at? as q with
  | none =>
    rw [(Ranges.at_eq_none hs').mpr fun a hm =>
      (Ranges.at_eq_none hs).mp ha a ((trim_sublist ops as s).subset hm)]
  | some a =>
    obtain ⟨hm, hq⟩ := Ranges.at_some hs ha
    by_cases hu : a.users = 0
    · cases ha' : anchorRanges.at? (trim ops as s).1 q with
      | none => simp [hu]
      | some b =>
        obtain ⟨hb, hqb⟩ := Ranges.at_some hs' ha'
        rw [hs.unique ((trim_sublist ops as s).subset hb) hm hqb hq]
    · rw [(Ranges.at_eq_some hs').mpr ⟨trim_keeps_used ops as s hm hu, hq⟩]

theorem Filled.users_at {as' : List Anchor} (hf : Filled page stop as as')
    (hs : anchorRanges.Sorted as) (q : Nat) : usersAt as' q = usersAt as q := by
  unfold usersAt
  cases ha : anchorRanges.at? as' q with
  | none =>
    rw [(Ranges.at_eq_none hs).mpr fun a hm =>
      (Ranges.at_eq_none hf.sorted).mp ha a (hf.kept a hm)]
  | some a =>
    obtain ⟨hm, hq⟩ := Ranges.at_some hf.sorted ha
    rcases hf.new a hm with hold | ⟨hu, _, _, hd⟩
    · rw [(Ranges.at_eq_some hs).mpr ⟨hold, hq⟩]
    · rw [(Ranges.at_eq_none hs).mpr]
      · simp [hu]
      · intro b hb hqb
        have := hd b hb
        simp only [Ranges.Has, Ranges.Apart] at hq hqb this
        omega

theorem AnchorsInv.in_size (h : AnchorsInv size views as) (hv : v ∈ views) : v.2 ≤ size := by
  have hne := h.nonempty v hv
  obtain ⟨a, ha, hq⟩ := h.covered v hv (v.2 - 1) (by omega) (by omega)
  have hb := h.bounded a ha
  have hq' : v.2 - 1 < a.stop := hq.2
  omega

theorem range_valid_iff (file : Memfile) (offset size : Nat) :
    rangeValid file offset size = true ↔ size ≠ 0 ∧ offset + size ≤ file.size := by
  simp only [rangeValid, Bool.and_eq_true, decide_eq_true_eq]
  omega

theorem memfile_use_down (ops : MemfileOps σ) (file : Memfile) (s : σ)
    (h : AnchorsInv file.size ((first, first + count) :: views) file.anchors) :
    ∃ anchors, (memfileUse ops file first count false s).1 = { file with anchors } ∧
      AnchorsInv file.size views anchors := by
  have hsize := h.in_size (mem_cons_self ..)
  have hne : first < first + count := h.nonempty _ (mem_cons_self ..)
  have hvalid : rangeValid file first count = true := (range_valid_iff ..).mpr ⟨by omega, hsize⟩
  refine ⟨(trim ops (useLocked false first (first + count) file.anchors) s).1, ?_,
    (h.use_down).trim ops s⟩
  simp [memfileUse, hvalid]

theorem memfile_use_up (ops : MemfileOps σ) (file : Memfile) (s : σ)
    (h : AnchorsInv file.size views file.anchors) (hne : count ≠ 0)
    (hin : first + count ≤ file.size)
    (hcov : anchorRanges.Covers file.anchors first (first + count)) :
    ∃ anchors, memfileUse ops file first count true s = ({ file with anchors }, s) ∧
      AnchorsInv file.size ((first, first + count) :: views) anchors := by
  have hvalid : rangeValid file first count = true := (range_valid_iff ..).mpr ⟨hne, hin⟩
  refine ⟨useLocked true first (first + count) file.anchors, ?_,
    h.use_up (first, first + count) (by omega) hcov⟩
  simp [memfileUse, hvalid]

section Kernel

variable {ops : MemfileOps σ} {shown : σ → Nat → Bool} {refused : σ → Nat}
  (law : LawfulOps ops shown refused)

include law

/-- `horizon_memfile_map` adds a range that is anchored and counted, or leaves the use of every page
as it was; then, unless the kernel refused this call to put a piece back, it shows nothing new. -/
theorem memfile_map_spec {file : Memfile} (dst offset size : Nat) (s : σ)
    (h : AnchorsInv file.size views file.anchors) :
    let r := memfileMap ops file dst offset size s
    ∃ anchors, r.2.1 = { file with anchors } ∧
      (r.1 = none → AnchorsInv file.size ((offset, offset + size) :: views) anchors) ∧
      (r.1 ≠ none → AnchorsInv file.size views anchors ∧
        (∀ q, usersAt anchors q = usersAt file.anchors q) ∧
        ((∀ p, dst ≤ p → p < dst + size → shown s p = false) →
          shown r.2.2 = shown s ∨ refused s < refused r.2.2)) := by
  unfold memfileMap
  split
  · exact ⟨file.anchors, rfl, by simp, fun _ => ⟨h, fun _ => rfl, fun _ => .inl rfl⟩⟩
  rename_i hvalid
  obtain ⟨hsize, hin⟩ := (range_valid_iff file offset size).mp (by simpa using hvalid)
  obtain ⟨hfill, hcov⟩ := anchor_pages_filled ops (offset + size) file.anchors offset s h.sorted
  obtain ⟨hshown, hrefused⟩ := anchor_pages_shown law (offset + size) file.anchors offset s
  have hinv := h.filled hfill hin
  have husers := hfill.users_at h.sorted
  generalize anchorPages ops (offset + size) file.anchors offset s = r at *
  obtain ⟨e, as, s'⟩ := r
  dsimp only at *
  -- what both failures have in common
  have hfailed : ∀ s'',
      ((∀ p, dst ≤ p → p < dst + size → shown s p = false) →
        shown s'' = shown s ∨ refused s < refused s'') →
      AnchorsInv file.size views (trim ops as s'').1 ∧
        (∀ q, usersAt (trim ops as s'').1 q = usersAt file.anchors q) ∧
        ((∀ p, dst ≤ p → p < dst + size → shown s p = false) →
          shown (trim ops as s'').2 = shown s ∨ refused s < refused (trim ops as s'').2) := by
    intro s'' hsh
    obtain ⟨ht, htr⟩ := trim_shown law as s''
    refine ⟨hinv.trim ops s'', fun q => ?_, fun hfree => ?_⟩
    · rw [users_at_trim ops s'' hinv.sorted, husers]
    · rw [ht, htr]
      exact hsh hfree
  cases e with
  | some e' => exact ⟨_, rfl, nofun, fun _ => hfailed s' fun _ => .inl hshown⟩
  | none =>
    dsimp only
    have hlocked := alias_locked law true false dst offset (offset + size) as s' (by omega) hinv.sorted
    rw [show offset + size - offset = size by omega, hshown, hrefused] at hlocked
    generalize aliasLocked ops true false dst offset (offset + size) as s' = r at *
    obtain ⟨e, s''⟩ := r
    cases e with
    | some e' => exact ⟨_, rfl, nofun, fun _ => hfailed s'' fun hfree => hlocked hfree (by simp)⟩
    | none => exact ⟨_, rfl, fun _ => hinv.use_up (offset, offset + size) (by omega) (hcov rfl), by simp⟩

end Kernel

end Autorun.Guest
