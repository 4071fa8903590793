import Autorun.Proofs.Memfile

namespace Autorun.Guest

open Autorun.Lib List

/-- The ranges of section pages that live views show. -/
def viewRanges (live : List View) : List (Nat × Nat) := live.map fun v => (v.first, v.stop)

/-- The section's anchors fit its live views. -/
def ViewsInv (size : Nat) (t : Views σ) : Prop :=
  t.file.size = size ∧ AnchorsInv size (viewRanges t.live) t.file.anchors

def pieceRange (p : View) : List (Nat × Nat) := if p.count = 0 then [] else [(p.first, p.stop)]

theorem pieces_ranges (left right : View) (live : List View) :
    viewRanges (pieces left right ++ live) = pieceRange left ++ pieceRange right ++ viewRanges live := by
  unfold pieces pieceRange viewRanges
  by_cases hl : left.count = 0
  · by_cases hr : right.count = 0
    · simp [hl, hr]
    · simp [hl, hr]
  · by_cases hr : right.count = 0
    · simp [hl, hr]
    · simp [hl, hr]

theorem use_piece_up (ops : MemfileOps σ) (file : Memfile) (s : σ) (p : View)
    (h : AnchorsInv file.size views file.anchors) (hv : v ∈ views) (hl : v.1 ≤ p.first)
    (hr : p.stop ≤ v.2) :
    ∃ anchors, usePiece ops true p file s = ({ file with anchors }, s) ∧
      AnchorsInv file.size (pieceRange p ++ views) anchors := by
  unfold usePiece pieceRange
  split
  · exact ⟨file.anchors, rfl, h⟩
  · rename_i hne
    have hsize := h.in_size hv
    unfold View.stop at hr
    exact memfile_use_up ops file s h hne (by omega)
      fun q hlq hrq => h.covered v hv q (by omega) (by omega)

theorem use_piece_down (ops : MemfileOps σ) (file : Memfile) (s : σ) (p : View)
    (h : AnchorsInv file.size (pieceRange p ++ views) file.anchors) :
    ∃ anchors, (usePiece ops false p file s).1 = { file with anchors } ∧
      AnchorsInv file.size views anchors := by
  unfold usePiece
  unfold pieceRange at h
  split
  · rename_i hz
    rw [if_pos hz] at h
    exact ⟨file.anchors, rfl, h⟩
  · rename_i hne
    rw [if_neg hne] at h
    exact memfile_use_down ops file s h

variable {t : Views σ} {refused : σ → Nat} {shown : σ → Nat → Bool} {ops : MemfileOps σ}

/-- A range that becomes aliased, whether or not it can be recorded. -/
theorem enter_view_inv (law : LawfulOps ops shown refused) (v : View) (kept : Bool)
    (h : ViewsInv size t) : ViewsInv size (enterView ops t v kept) := by
  obtain ⟨hsize, hinv⟩ := h
  rw [← hsize] at hinv
  obtain ⟨anchors, hfile, hok, hbad⟩ := memfile_map_spec law v.dst v.first v.count t.kernel hinv
  unfold enterView
  generalize memfileMap ops t.file v.dst v.first v.count t.kernel = r at *
  obtain ⟨e, file, s⟩ := r
  subst hfile
  cases e with
  | some e => exact ⟨hsize, hsize ▸ (hbad (by simp)).1⟩
  | none =>
    have hnew := hok rfl
    dsimp only
    split
    · exact ⟨hsize, hsize ▸ hnew⟩
    · generalize memfileAlias ops { t.file with anchors } v.dst v.first v.count false true s = r
      obtain ⟨anchors', hfile', hinv'⟩ := memfile_use_down ops { t.file with anchors } r.2 hnew
      exact ⟨by rw [hfile']; exact hsize, by rw [hfile']; exact hsize ▸ hinv'⟩

variable (ops : MemfileOps σ)

/-- A part of an aliased range that goes, whatever piece cannot be made. -/
theorem leave_view_inv (v : View) (first stop : Nat)
    (lost : Option LostPiece) (h : ViewsInv size t) (hv : v ∈ t.live) (hl : v.first ≤ first)
    (hlt : first < stop) (hr : stop ≤ v.stop) : ViewsInv size (leaveView ops t v first stop lost) := by
  obtain ⟨hsize, hinv⟩ := h
  have hranges : (viewRanges t.live).Perm ((v.first, v.stop) :: viewRanges (t.live.erase v)) :=
    (perm_cons_erase hv).map fun v : View => (v.first, v.stop)
  have hmem : (v.first, v.stop) ∈ viewRanges t.live := hranges.mem_iff.mpr (mem_cons_self ..)
  have hv' : v.first ≤ v.stop := by omega
  have hleft : (v.part v.first first).stop ≤ v.stop := by
    simp only [View.part, View.stop] at *
    omega
  have hright : v.first ≤ (v.part stop v.stop).first ∧ (v.part stop v.stop).stop ≤ v.stop := by
    simp only [View.part, View.stop] at *
    omega
  rw [← hsize] at hinv
  unfold leaveView
  dsimp only
  generalize memfileAlias ops t.file (v.part first stop).dst (v.part first stop).first
    (v.part first stop).count false false t.kernel = r
  obtain ⟨e, s⟩ := r
  cases e with
  | some e => exact ⟨hsize, hsize ▸ hinv⟩
  | none =>
    dsimp only
    obtain ⟨as1, h1, i1⟩ := use_piece_up ops t.file s (v.part v.first first) hinv hmem (Nat.le_refl _) hleft
    have hundone : ∀ r : Option Errno × σ, ViewsInv size
        { t with
          file := (usePiece ops false (v.part v.first first) { t.file with anchors := as1 } s).1
          kernel := r.2 } := by
      intro r
      obtain ⟨as, hu, hi⟩ := use_piece_down ops { t.file with anchors := as1 } s _ i1
      exact ⟨by rw [hu]; exact hsize, by rw [hu]; exact hsize ▸ hi⟩
    cases lost with
    | some p =>
      cases p with
      | left => exact ⟨hsize, hsize ▸ hinv⟩
      | middle =>
        rw [h1]
        exact hundone _
      | right =>
        rw [h1]
        exact hundone _
    | none =>
      rw [h1]
      obtain ⟨as2, h2, i2⟩ := use_piece_up ops { t.file with anchors := as1 } s
        (v.part stop v.stop) i1 (mem_append_right _ hmem) hright.1 hright.2
      rw [h2]
      have hall : (pieceRange (v.part stop v.stop) ++ (pieceRange (v.part v.first first) ++
          viewRanges t.live)).Perm ((v.first, v.stop) :: viewRanges
            (pieces (v.part v.first first) (v.part stop v.stop) ++ t.live.erase v)) := by
        rw [pieces_ranges]
        refine (List.Perm.append_left _ (List.Perm.append_left _ hranges)).trans ?_
        refine (List.Perm.append_left _ perm_middle).trans (perm_middle.trans ?_)
        rw [← append_assoc]
        exact (List.Perm.append_right _ perm_append_comm).cons _
      obtain ⟨as3, h3, i3⟩ := memfile_use_down ops { t.file with anchors := as2 } s
        (i2.perm hall)
      exact ⟨by rw [h3]; exact hsize, by rw [h3]; exact hsize ▸ i3⟩

/-- Two anchors that map the same section pages at the same address. -/
def SamePlace (a b : Anchor) : Prop := a.first = b.first ∧ a.count = b.count ∧ a.addr = b.addr

/-- Every anchor of the second list stands where one of the first stood. -/
def Within (as as' : List Anchor) : Prop := ∀ a' ∈ as', ∃ a ∈ as, SamePlace a a'

theorem Within.refl (as : List Anchor) : Within as as := fun a ha => ⟨a, ha, rfl, rfl, rfl⟩

theorem Within.trans (h1 : Within as bs) (h2 : Within bs cs) : Within as cs := by
  intro c hc
  obtain ⟨b, hb, h⟩ := h2 c hc
  obtain ⟨a, ha, h'⟩ := h1 b hb
  exact ⟨a, ha, h'.1.trans h.1, h'.2.1.trans h.2.1, h'.2.2.trans h.2.2⟩

theorem within_trim (as : List Anchor) (s : σ) : Within as (trim ops as s).1 :=
  fun a ha => ⟨a, (trim_sublist ops as s).subset ha, rfl, rfl, rfl⟩

theorem within_use (up : Bool) (first stop : Nat) (as : List Anchor) :
    Within as (useLocked up first stop as) := by
  induction as with
  | nil => exact Within.refl _
  | cons a rest ih =>
    have hrest : ∀ x ∈ useLocked up first stop rest, ∃ b ∈ a :: rest, SamePlace b x := by
      intro x hx
      obtain ⟨b, hb, h⟩ := ih x hx
      exact ⟨b, mem_cons_of_mem _ hb, h⟩
    intro x hx
    rw [useLocked] at hx
    split at hx
    · split at hx
      · rcases mem_cons.mp hx with rfl | hx'
        · exact ⟨x, mem_cons_self .., rfl, rfl, rfl⟩
        · exact hrest x hx'
      · rcases mem_cons.mp hx with rfl | hx'
        · exact ⟨a, mem_cons_self .., rfl, rfl, rfl⟩
        · exact hrest x hx'
    · exact ⟨x, hx, rfl, rfl, rfl⟩

theorem within_memfile_use (file : Memfile) (first count : Nat) (up : Bool)
    (s : σ) : Within file.anchors (memfileUse ops file first count up s).1.anchors := by
  unfold memfileUse
  split
  · exact Within.refl _
  · split
    · exact within_use up first (first + count) file.anchors
    · exact (within_use up first (first + count) file.anchors).trans (within_trim ops _ s)

theorem within_use_piece (up : Bool) (p : View) (file : Memfile) (s : σ) :
    Within file.anchors (usePiece ops up p file s).1.anchors := by
  unfold usePiece
  split
  · exact Within.refl _
  · exact within_memfile_use ops file p.first p.count up s

/-- What becomes of the anchors in one step: each one stood there before, or is new and apart from
all that stood there. -/
def Succeeds (as as' : List Anchor) : Prop :=
  ∀ a' ∈ as', (∃ a ∈ as, SamePlace a a') ∨ ∀ a ∈ as, anchorRanges.Apart a' a

theorem Within.succeeds (h : Within as as') : Succeeds as as' := fun a ha => .inl (h a ha)

theorem Succeeds.within (h1 : Succeeds as bs) (h2 : Within bs cs) : Succeeds as cs := by
  intro c hc
  obtain ⟨b, hb, hbc⟩ := h2 c hc
  rcases h1 b hb with ⟨a, ha, hab⟩ | hnew
  · exact .inl ⟨a, ha, hab.1.trans hbc.1, hab.2.1.trans hbc.2.1, hab.2.2.trans hbc.2.2⟩
  · refine .inr fun a ha => ?_
    have := hnew a ha
    simp only [Ranges.Apart, anchorRanges, Anchor.stop] at this ⊢
    rw [← hbc.1, ← hbc.2.1]
    exact this

theorem memfile_map_succeeds (file : Memfile) (dst offset size : Nat) (s : σ)
    (hs : anchorRanges.Sorted file.anchors) :
    Succeeds file.anchors (memfileMap ops file dst offset size s).2.1.anchors := by
  unfold memfileMap
  split
  · exact (Within.refl _).succeeds
  obtain ⟨hfill, -⟩ := anchor_pages_filled ops (offset + size) file.anchors offset s hs
  generalize anchorPages ops (offset + size) file.anchors offset s = r at *
  obtain ⟨e, as, s'⟩ := r
  have hfilled : Succeeds file.anchors as := by
    intro a ha
    rcases hfill.new a ha with hold | ⟨_, _, _, hd⟩
    · exact .inl ⟨a, hold, rfl, rfl, rfl⟩
    · exact .inr hd
  cases e with
  | some e => exact hfilled.within (within_trim ops as s')
  | none =>
    dsimp only
    generalize aliasLocked ops true false dst offset (offset + size) as s' = r
    obtain ⟨e, s''⟩ := r
    cases e with
    | some e => exact hfilled.within (within_trim ops as s'')
    | none => exact hfilled.within (within_use true offset (offset + size) as)

theorem view_step_succeeds (t : Views σ) (op : ViewOp)
    (hs : anchorRanges.Sorted t.file.anchors) :
    Succeeds t.file.anchors (viewStep ops t op).file.anchors := by
  cases op with
  | enter v kept =>
    have hmap := memfile_map_succeeds ops t.file v.dst v.first v.count t.kernel hs
    simp only [viewStep, enterView]
    generalize memfileMap ops t.file v.dst v.first v.count t.kernel = r at *
    obtain ⟨e, file, s⟩ := r
    cases e with
    | some e => exact hmap
    | none =>
      dsimp only
      split
      · exact hmap
      · exact hmap.within (within_memfile_use ops file v.first v.count false _)
  | leave v first stop lost =>
    simp only [viewStep]
    split
    · unfold leaveView
      dsimp only
      generalize memfileAlias ops t.file (v.part first stop).dst (v.part first stop).first
        (v.part first stop).count false false t.kernel = r
      obtain ⟨e, s⟩ := r
      cases e with
      | some e => exact (Within.refl _).succeeds
      | none =>
        have hleft := within_use_piece ops true (v.part v.first first) t.file s
        dsimp only
        generalize usePiece ops true (v.part v.first first) t.file s = r at *
        obtain ⟨file1, s1⟩ := r
        cases lost with
        | some p =>
          have hback := hleft.trans (within_use_piece ops false (v.part v.first first) file1 s1)
          cases p with
          | left => exact (Within.refl _).succeeds
          | middle => exact hback.succeeds
          | right => exact hback.succeeds
        | none =>
          have hright := hleft.trans (within_use_piece ops true (v.part stop v.stop) file1 s1)
          generalize usePiece ops true (v.part stop v.stop) file1 s1 = r at *
          obtain ⟨file2, s2⟩ := r
          exact (hright.trans (within_memfile_use ops file2 v.first v.count false s2)).succeeds
    · exact (Within.refl _).succeeds

variable {ops}

/-- An anchor that some range uses after a step is still where it was. -/
theorem Succeeds.keeps (h : Succeeds as as') (hs : anchorRanges.Sorted as)
    (hinv : AnchorsInv size views as') (ha : a ∈ as) (hv : v ∈ views) (hm : meets a v = true) :
    ∃ a' ∈ as', SamePlace a a' := by
  simp only [meets, decide_eq_true_eq] at hm
  have hne := hinv.nonempty v hv
  have hna : a.first < a.stop := hs.nonempty a ha
  obtain ⟨a', ha', hq⟩ := hinv.covered v hv (max v.1 a.first) (by omega) (by omega)
  refine ⟨a', ha', ?_⟩
  have hqa : anchorRanges.Has a (max v.1 a.first) := by
    simp only [Ranges.Has, anchorRanges]
    omega
  rcases h a' ha' with ⟨b, hb, hplace⟩ | hnew
  · have hqb : anchorRanges.Has b (max v.1 a.first) := by
      simp only [Ranges.Has, anchorRanges, Anchor.stop] at hq ⊢
      rw [hplace.1, hplace.2.1]
      exact hq
    rw [hs.unique ha hb hqa hqb]
    exact hplace
  · have := hnew a ha
    simp only [Ranges.Has, Ranges.Apart] at hq hqa this
    omega

theorem view_step_inv
    (law : LawfulOps ops shown refused) (t : Views σ) (op : ViewOp) (h : ViewsInv size t) :
    ViewsInv size (viewStep ops t op) := by
  cases op with
  | enter v kept => exact enter_view_inv law v kept h
  | leave v first stop lost =>
    simp only [viewStep]
    split
    · rename_i hc
      exact leave_view_inv ops v first stop lost h hc.1 hc.2.1 hc.2.2.1 hc.2.2.2
    · exact h

section Runs

variable {ops : MemfileOps σ} {shown : σ → Nat → Bool} {refused : σ → Nat}

/-- A section no view has entered yet, over any kernel. -/
def newSection (data size : Nat) (s : σ) : Views σ := ⟨⟨data, size, 1, []⟩, [], s⟩

theorem new_section_inv (data size : Nat) (s : σ) : ViewsInv size (newSection data size s) :=
  ⟨rfl, Ranges.Sorted.nil, by simp [newSection], by simp [newSection, viewRanges],
    by simp [newSection], by simp [newSection, viewRanges]⟩

theorem views_run_inv (law : LawfulOps ops shown refused) (data size : Nat) (s : σ)
    (calls : List ViewOp) : ViewsInv size (run (viewStep ops) (newSection data size s) calls) :=
  run_invariant (view_step_inv law) (new_section_inv data size s) calls

/-- The anchors of a section after any changes of its views. The kernel may refuse any call. Only
a roll-back refused during the failed call itself leaves pages of its range shown. -/
theorem section_anchors (law : LawfulOps ops shown refused) (data size : Nat) (s : σ)
    (calls : List ViewOp) :
    let t := run (viewStep ops) (newSection data size s) calls
    anchorRanges.Sorted t.file.anchors ∧
    (∀ a ∈ t.file.anchors, a.stop ≤ size) ∧
    (∀ a ∈ t.file.anchors, a.users = t.live.countP fun v => meets a (v.first, v.stop)) ∧
    (∀ v ∈ t.live, ∀ q, v.first ≤ q → q < v.stop →
      ∃ a ∈ t.file.anchors, anchorRanges.Has a q ∧ a.users ≠ 0) ∧
    (∀ op, ∀ a ∈ t.file.anchors, ∀ v ∈ (viewStep ops t op).live,
      meets a (v.first, v.stop) = true → ∃ a' ∈ (viewStep ops t op).file.anchors, SamePlace a a') ∧
    (∀ dst first count, let r := memfileMap ops t.file dst first count t.kernel
      r.1 ≠ none → (∀ q, usersAt r.2.1.anchors q = usersAt t.file.anchors q) ∧
        ((∀ p, dst ≤ p → p < dst + count → shown t.kernel p = false) →
          refused t.kernel < refused r.2.2 ∨
            ∀ p, dst ≤ p → p < dst + count → shown r.2.2 p = false)) := by
  intro t
  obtain ⟨hsize, hinv⟩ : ViewsInv size t := views_run_inv law data size s calls
  have hcount : ∀ a ∈ t.file.anchors,
      a.users = t.live.countP fun v => meets a (v.first, v.stop) := by
    intro a ha
    rw [hinv.counted a ha, viewRanges, countP_map]
    rfl
  refine ⟨hinv.sorted, hinv.bounded, hcount, ?_, ?_, ?_⟩
  · intro v hv q hl hr
    obtain ⟨a, ha, hq⟩ := hinv.covered (v.first, v.stop) (mem_map_of_mem hv) q hl hr
    refine ⟨a, ha, hq, ?_⟩
    rw [hcount a ha]
    -- the view itself is among those that meet the anchor
    refine Nat.ne_of_gt (countP_pos_iff.mpr ⟨v, hv, decide_eq_true ?_⟩)
    simp only [Ranges.Has, anchorRanges] at hq
    omega
  · intro op a ha v hv hm
    obtain ⟨-, hnext⟩ := view_step_inv law t op ⟨hsize, hinv⟩
    exact (view_step_succeeds ops t op hinv.sorted).keeps hinv.sorted hnext ha
      (mem_map_of_mem hv) hm
  · intro dst first count r hfail
    obtain ⟨anchors, hfile, -, hfailed⟩ :=
      memfile_map_spec law dst first count t.kernel (hsize.symm ▸ hinv)
    obtain ⟨-, husers, hshown⟩ := hfailed hfail
    refine ⟨fun q => ?_, fun hfree => ?_⟩
    · rw [show r.2.1 = _ from hfile]
      exact husers q
    · rcases hshown hfree with hsame | hrefused
      · refine .inr fun p hl hr => ?_
        rw [show shown r.2.2 = _ from hsame]
        exact hfree p hl hr
      · exact .inl hrefused

end Runs

/-- A kernel small enough to run: the calls so far, the pages shown, and how many roll-backs were
refused. -/
structure ListKernel where
  calls : Nat
  shown : List Nat
  refusals : Nat
  deriving DecidableEq, Repr

/-- Refuses the calls whose number is listed. -/
def listOps (refused : List Nat) : MemfileOps ListKernel where
  calloc k := (none, k)
  anchor k first _ := (.ok (1000 + first), k)
  unanchor k _ := (none, k)
  aliasPages undo k dst _ count :=
    if k.calls ∈ refused then (some .nomem, ⟨k.calls + 1, k.shown, k.refusals + undo.toNat⟩)
    else (none, ⟨k.calls + 1, List.range' dst count ++ k.shown, k.refusals⟩)
  unaliasPages undo k dst _ count :=
    if k.calls ∈ refused then (some .nomem, ⟨k.calls + 1, k.shown, k.refusals + undo.toNat⟩)
    else (none, ⟨k.calls + 1, k.shown.filter fun p => !decide (dst ≤ p ∧ p < dst + count), k.refusals⟩)

theorem list_ops_lawful (refused : List Nat) :
    LawfulOps (listOps refused) (fun k p => decide (p ∈ k.shown)) (·.refusals) where
  calloc k := ⟨rfl, rfl⟩
  anchor k first count := ⟨rfl, rfl⟩
  unanchor k a := ⟨rfl, rfl⟩
  alias_done u k dst src count h := by
    by_cases hc : k.calls ∈ refused
    · simp [listOps, hc] at h
    · simp [listOps, hc]
  alias_refused u k dst src count h := by
    by_cases hc : k.calls ∈ refused
    · exact ⟨by simp [listOps, hc], by simp [listOps, hc]⟩
    · simp [listOps, hc] at h
  unalias_done u k dst src count h := by
    by_cases hc : k.calls ∈ refused
    · simp [listOps, hc] at h
    · refine ⟨fun p => ?_, by simp [listOps, hc]⟩
      by_cases hp : dst ≤ p ∧ p < dst + count
      · simp [listOps, hc, hp]
      · simp only [listOps, hc, if_false, hp, decide_false, Bool.not_false, Bool.true_and,
          mem_filter, and_true]
  unalias_refused u k dst src count h := by
    by_cases hc : k.calls ∈ refused
    · exact ⟨by simp [listOps, hc], by simp [listOps, hc]⟩
    · simp [listOps, hc] at h

/-- The section after a range was mapped, and the second piece of another and then its roll-back
were refused. -/
def refusedOnce : Views ListKernel :=
  run (viewStep (listOps [2, 3, 5])) (newSection 7 4 ⟨0, [], 0⟩)
    [.enter ⟨50, 0, 1⟩ true, .enter ⟨60, 0, 2⟩ true]

/-- A third range whose second piece is refused: the first piece is taken back and no count has
changed, whatever was refused before. -/
theorem section_anchors_failed_map :
    let r := memfileMap (listOps [2, 3, 5]) refusedOnce.file 100 0 2 refusedOnce.kernel
    refusedOnce.kernel.refusals = 1 ∧ r.1 ≠ none ∧ r.2.2.refusals = 1 ∧
      usersAt r.2.1.anchors 0 = 1 ∧ 100 ∉ r.2.2.shown := by
  intro r
  obtain ⟨-, -, -, -, -, hmap⟩ := section_anchors (list_ops_lawful [2, 3, 5]) 7 4 ⟨0, [], 0⟩
    [.enter ⟨50, 0, 1⟩ true, .enter ⟨60, 0, 2⟩ true]
  obtain ⟨husers, hshown⟩ := hmap 100 0 2 (by decide)
  have hfree : ∀ p, 100 ≤ p → p < 102 → decide (p ∈ refusedOnce.kernel.shown) = false := by
    intro p hl _
    refine decide_eq_false fun hp => ?_
    have : p ∈ [60, 50] := hp
    simp only [mem_cons, not_mem_nil, or_false] at this
    omega
  refine ⟨by decide, by decide, by decide, husers 0, ?_⟩
  rcases hshown hfree with hrefused | hnone
  · exact absurd hrefused (by decide)
  · exact of_decide_eq_false (hnone 100 (by decide) (by decide))

/-- The failed call that came before it left its first page shown. -/
theorem failed_map_leaves_page :
    let t := run (viewStep (listOps [2, 3, 5])) (newSection 7 4 ⟨0, [], 0⟩)
      [.enter ⟨50, 0, 1⟩ true]
    let r := memfileMap (listOps [2, 3, 5]) t.file 60 0 2 t.kernel
    60 ∉ t.kernel.shown ∧ r.1 = some .nomem ∧ 60 ∈ r.2.2.shown := by
  decide

end Autorun.Guest
