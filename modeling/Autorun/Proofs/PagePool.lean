import Mathlib.Data.List.Basic
import Mathlib.Data.List.Nodup
import Mathlib.Data.List.Pairwise
import Mathlib.Data.List.Perm.Basic
import Autorun.Heap.PagePool

namespace Autorun.Heap.PagePool

open List

variable {used : Nat → Bool} {pages : Nat} {arenas arenas' : List Arena} {a : Arena}

def HasRun (used : Nat → Bool) (pages : Nat) : Prop :=
  ∃ first, first + pages ≤ arenaPages ∧ ∀ k < pages, used (first + k) = false

theorem find_run_some (h : findRun used pages left j run = some first) (hle : run ≤ j)
    (hrun : ∀ k < run, used (j - run + k) = false) :
    first + pages ≤ j + left ∧ ∀ k < pages, used (first + k) = false := by
  induction left generalizing j run with
  | zero => cases h
  | succ left ih =>
    unfold findRun at h
    dsimp only at h
    by_cases hused : used j = true
    · rw [if_pos hused] at h
      split at h
      · cases h
        refine ⟨by omega, fun k hk => ?_⟩
        omega
      · obtain ⟨hend, hfree⟩ := ih h (Nat.zero_le _) (by simp)
        exact ⟨by omega, hfree⟩
    · rw [if_neg hused] at h
      have hlonger : ∀ k < run + 1, used (j + 1 - (run + 1) + k) = false := by
        intro k hk
        rw [show j + 1 - (run + 1) + k = j - run + k by omega]
        rcases Nat.lt_succ_iff_lt_or_eq.mp hk with hk | rfl
        · exact hrun k hk
        · rw [show j - k + k = j by omega]
          simpa using hused
      split at h
      · cases h
        exact ⟨by omega, fun k hk => hlonger k (by omega)⟩
      · obtain ⟨hend, hfree⟩ := ih h (by omega) hlonger
        exact ⟨by omega, hfree⟩

theorem find_run_none (h : findRun used pages left j run = none) (hlt : run < pages) (first : Nat)
    (hfirst : j ≤ first + run) (hend : first + pages ≤ j + left) :
    ∃ k < pages, used (first + k) = true := by
  induction left generalizing j run with
  | zero => omega
  | succ left ih =>
    unfold findRun at h
    dsimp only at h
    by_cases hused : used j = true
    · rw [if_pos hused] at h
      split at h
      · cases h
      · by_cases hj : first ≤ j
        · exact ⟨j - first, by omega, by rw [show first + (j - first) = j by omega]; exact hused⟩
        · exact ih h (by omega) (by omega) (by omega)
    · rw [if_neg hused] at h
      split at h
      · cases h
      · exact ih h (by omega) (by omega) (by omega)

theorem find_run_spec (used : Nat → Bool) (hpages : 0 < pages) :
    match findRun used pages arenaPages 0 0 with
    | some first => first + pages ≤ arenaPages ∧ ∀ k < pages, used (first + k) = false
    | none => ¬HasRun used pages := by
  cases h : findRun used pages arenaPages 0 0 with
  | some first =>
    have hfound := find_run_some h (Nat.zero_le _) (by simp)
    exact ⟨by omega, hfound.2⟩
  | none =>
    rintro ⟨first, hend, hfree⟩
    obtain ⟨k, hk, hused⟩ := find_run_none h hpages first (by omega) (by omega)
    rw [hfree k hk] at hused
    cases hused

/-- The pages of an arena that are not in use. -/
def unused (used : Nat → Bool) : Nat := (List.range arenaPages).countP fun j => !used j

theorem range_split (hend : first + n ≤ total) :
    List.range total =
      List.range' 0 first ++ List.range' first n ++ List.range' (first + n) (total - first - n) := by
  rw [range_eq_range', append_assoc]
  have h₂ : List.range' first n ++ List.range' (first + n) (total - first - n) =
      List.range' first (total - first) := by
    rw [range'_append_1, show n + (total - first - n) = total - first by omega]
  have h₁ : List.range' 0 first ++ List.range' first (total - first) = List.range' 0 total := by
    have h := @range'_append_1 0 first (total - first)
    rw [Nat.zero_add, show first + (total - first) = total by omega] at h
    exact h
  rw [h₂, h₁]

/-- Outside of the pages that are filled the count is the same; inside it is what they are filled
with. -/
theorem unused_fill (hend : first + n ≤ arenaPages) (hold : ∀ k < n, used (first + k) = !v) :
    unused (fill used first n v) + (if v then n else 0) =
      unused used + (if v then 0 else n) := by
  have hout : ∀ l : List Nat, (∀ j ∈ l, ¬(first ≤ j ∧ j < first + n)) →
      l.countP (fun j => !fill used first n v j) = l.countP fun j => !used j := by
    intro l hl
    refine countP_congr fun j hj => ?_
    unfold fill
    rw [if_neg (hl j hj)]
  have hin : ∀ (b : Bool) (f : Nat → Bool), (∀ j, first ≤ j → j < first + n → f j = b) →
      (List.range' first n).countP f = if b then n else 0 := by
    intro b f hf
    have hall : ∀ j ∈ List.range' first n, f j = b := fun j hj => by
      rw [mem_range'_1] at hj
      exact hf j hj.1 hj.2
    cases b with
    | true =>
      rw [countP_eq_length.mpr fun j hj => hall j hj, length_range']
      rfl
    | false =>
      rw [countP_eq_zero.mpr fun j hj => by simp [hall j hj]]
      rfl
  have hnew : (List.range' first n).countP (fun j => !fill used first n v j) = if !v then n else 0 :=
    hin (!v) _ fun j h₁ h₂ => by
      unfold fill
      rw [if_pos ⟨h₁, h₂⟩]
  have hbefore : (List.range' first n).countP (fun j => !used j) = if v then n else 0 :=
    hin v _ fun j h₁ h₂ => by
      have := hold (j - first) (by omega)
      rw [show first + (j - first) = j by omega] at this
      simp [this]
  unfold unused
  rw [range_split hend]
  simp only [countP_append]
  rw [hout (List.range' 0 first) fun j hj => by rw [mem_range'_1] at hj; omega,
    hout (List.range' (first + n) _) fun j hj => by rw [mem_range'_1] at hj; omega, hnew, hbefore]
  cases v <;> simp <;> omega

/-- The addresses of the arenas that have memory. -/
def memories (arenas : List Arena) : List Nat := arenas.filterMap Arena.memory

theorem mem_memories : m ∈ memories arenas ↔ ∃ a ∈ arenas, a.memory = some m := mem_filterMap

/-- What `horizon_pages_alloc` does to the arena it takes pages of. -/
def TookRun (pages ptr : Nat) (arenas arenas' : List Arena) : Prop :=
  ∃ a rest m first, arenas.Perm (a :: rest) ∧ a.memory = some m ∧ first + pages ≤ arenaPages ∧
    (∀ k < pages, a.used (first + k) = false) ∧ ptr = m + first * page ∧
    arenas'.Perm ({ a with used := fill a.used first pages true, freePages := a.freePages - pages } :: rest)

theorem take_run_some (hpages : 0 < pages) (h : takeRun pages arenas = some (ptr, arenas')) :
    TookRun pages ptr arenas arenas' := by
  induction arenas generalizing arenas' with
  | nil => cases h
  | cons a arenas ih =>
    have hnext : ((takeRun pages arenas).map fun r => (r.1, a :: r.2)) = some (ptr, arenas') →
        TookRun pages ptr (a :: arenas) arenas' := by
      intro h
      obtain ⟨⟨ptr', arenas1⟩, htake, he⟩ := Option.map_eq_some_iff.mp h
      cases he
      obtain ⟨b, rest, m, first, hold, hm, hend, hfree, hptr, hnew⟩ := ih htake
      exact ⟨b, a :: rest, m, first, (hold.cons a).trans (.swap ..), hm, hend, hfree, hptr,
        (hnew.cons a).trans (.swap ..)⟩
    unfold takeRun at h
    split at h
    · exact hnext h
    rename_i m hm
    split at h
    · exact hnext h
    have hfind := find_run_spec a.used hpages
    split at h
    · exact hnext h
    · rename_i first hfirst
      rw [hfirst] at hfind
      cases h
      exact ⟨a, arenas, m, first, .refl _, hm, hfind.1, hfind.2, rfl, .refl _⟩

/-- If no arena has the run of pages, none has one: the counts that say so are right. -/
theorem take_run_none (hpages : 0 < pages) (h : takeRun pages arenas = none)
    (hcount : ∀ a ∈ arenas, ∀ m, a.memory = some m → a.freePages = unused a.used) :
    ∀ a ∈ arenas, ∀ m, a.memory = some m → ¬HasRun a.used pages := by
  induction arenas with
  | nil => simp
  | cons a rest ih =>
    have hnext : ((takeRun pages rest).map fun r => (r.1, a :: r.2)) = none →
        ∀ b ∈ rest, ∀ m, b.memory = some m → ¬HasRun b.used pages := by
      intro h
      exact ih (Option.map_eq_none_iff.mp h) fun b hb => hcount b (by simp [hb])
    unfold takeRun at h
    intro b hb m hm
    rcases mem_cons.mp hb with rfl | hb
    · rw [hm] at h
      dsimp only at h
      split at h
      · rename_i hless
        rintro ⟨first, hend, hfree⟩
        rw [hcount b (by simp) m hm] at hless
        have hfill := unused_fill (v := true) hend (fun k hk => by simpa using hfree k hk)
        simp only [if_true] at hfill
        omega
      · have hfind := find_run_spec b.used hpages
        split at h
        · rename_i hnone
          rw [hnone] at hfind
          exact hfind
        · cases h
    · split at h
      · exact hnext h b hb m hm
      split at h
      · exact hnext h b hb m hm
      split at h
      · exact hnext h b hb m hm
      · cases h

def Apart (p n q m : Nat) : Prop := p + n ≤ q ∨ q + m ≤ p

/-- The page at `address` belongs to the allocation. -/
def Covers (l : Allocation) (address : Nat) : Prop :=
  l.pooled = true ∧ l.ptr ≤ address ∧ address < l.ptr + l.size

/-- The pages of an arena that an allocation is made of. -/
structure Inside (l : Allocation) (m first n : Nat) : Prop where
  ptr : l.ptr = m + first * page
  size : l.size = n * page
  some : 0 < n
  fits : first + n ≤ arenaPages

/-- The pages an arena calls used are those of allocations, and it counts the others. -/
def Fine (live : List Allocation) (a : Arena) : Prop :=
  match a.memory with
  | none => ∀ j, a.used j = false
  | some m => 0 < m ∧ m + arenaSize ≤ 2 ^ 64 ∧ a.freePages = unused a.used ∧
      ∀ j < arenaPages, a.used j = true ↔ ∃ l ∈ live, Covers l (m + j * page)

theorem fine_none (hm : a.memory = none) : Fine live a ↔ ∀ j, a.used j = false := by
  unfold Fine
  rw [hm]

theorem fine_some (hm : a.memory = some m) : Fine live a ↔ 0 < m ∧ m + arenaSize ≤ 2 ^ 64 ∧
    a.freePages = unused a.used ∧ ∀ j < arenaPages, a.used j = true ↔ ∃ l ∈ live, Covers l (m + j * page) := by
  unfold Fine
  rw [hm]

/-- What holds of the table of arenas and of the allocations made from it between two requests. -/
structure Sound (arenas : List Arena) (active : Nat) (live : List Allocation) : Prop where
  apart : (memories arenas).Pairwise fun m m' => Apart m arenaSize m' arenaSize
  fine : ∀ a ∈ arenas, Fine live a
  active : active = (memories arenas).length
  pooled : ∀ l ∈ live, l.pooled = true → ∃ m ∈ memories arenas, ∃ first n, Inside l m first n
  direct : ∀ l ∈ live, l.pooled = false → 0 < l.size ∧ l.size ≤ l.extent ∧
    l.ptr + l.extent ≤ 2 ^ 64 ∧ ∀ m ∈ memories arenas, Apart l.ptr l.extent m arenaSize
  disjoint : (live.filter (·.pooled)).Pairwise fun l l' => Apart l.ptr l.size l'.ptr l'.size

abbrev World.Sound (w : World) : Prop := PagePool.Sound w.pool.arenas w.pool.activeArenas w.live

/-- Memory the allocator can hand out: nothing that is in use meets it. -/
def World.Fresh (w : World) (p n : Nat) : Prop :=
  0 < p ∧ p + n ≤ 2 ^ 64 ∧ (∀ m ∈ memories w.pool.arenas, Apart p n m arenaSize) ∧
    ∀ l ∈ w.live, l.pooled = false → Apart p n l.ptr l.extent

/-- The allocator hands out fresh memory only. -/
structure World.Honest (w : World) (size : Nat) (answers : Answers) : Prop where
  arena : ∀ p ∈ answers.arena, w.Fresh p arenaSize
  block : ∀ p ∈ answers.block, w.Fresh p (rounded size)
  direct : ∀ p ∈ answers.direct, w.Fresh p size

def World.Ok (w : World) : Op × Answers → Prop
  | (.alloc size, answers) | (.allocDedicated size, answers) | (.allocAny size, answers) =>
    w.Honest size answers
  | (.free a, _) => a ∈ w.live
  | (.trim, _) => True

instance : Decidable (Apart p n q m) := inferInstanceAs (Decidable (_ ∨ _))

instance (w : World) (p n : Nat) : Decidable (w.Fresh p n) := inferInstanceAs (Decidable (_ ∧ _))

instance (w : World) (size : Nat) (answers : Answers) : Decidable (w.Honest size answers) :=
  decidable_of_iff ((∀ p ∈ answers.arena, w.Fresh p arenaSize) ∧
    (∀ p ∈ answers.block, w.Fresh p (rounded size)) ∧ ∀ p ∈ answers.direct, w.Fresh p size)
    ⟨fun ⟨h₁, h₂, h₃⟩ => ⟨h₁, h₂, h₃⟩, fun ⟨h₁, h₂, h₃⟩ => ⟨h₁, h₂, h₃⟩⟩

instance (w : World) : (label : Op × Answers) → Decidable (w.Ok label)
  | (.alloc size, answers) => inferInstanceAs (Decidable (w.Honest size answers))
  | (.allocDedicated size, answers) => inferInstanceAs (Decidable (w.Honest size answers))
  | (.allocAny size, answers) => inferInstanceAs (Decidable (w.Honest size answers))
  | (.free a, _) => inferInstanceAs (Decidable (a ∈ w.live))
  | (.trim, _) => isTrue trivial

theorem Inside.covers (hin : Inside l m first n) (hpooled : l.pooled = true) (j : Nat) :
    Covers l (m + j * page) ↔ first ≤ j ∧ j < first + n := by
  have hptr := hin.ptr
  have hsize := hin.size
  unfold page at *
  constructor
  · rintro ⟨-, h₁, h₂⟩
    omega
  · rintro ⟨h₁, h₂⟩
    exact ⟨hpooled, by omega, by omega⟩

/-- An allocation covers no page of an arena it is not part of. -/
theorem Inside.not_covers (hin : Inside l m first n) (hapart : Apart m arenaSize m' arenaSize)
    (hj : j < arenaPages) : ¬Covers l (m' + j * page) := by
  rintro ⟨-, h₁, h₂⟩
  have hptr := hin.ptr
  have hsize := hin.size
  have hfits := hin.fits
  unfold Apart arenaSize arenaPages page at *
  omega

theorem Inside.apart (hin : Inside l m first n) (hapart : Apart m arenaSize p arenaSize)
    (hlen : len ≤ arenaSize) : Apart l.ptr l.size p len := by
  have hptr := hin.ptr
  have hsize := hin.size
  have hfits := hin.fits
  unfold Apart arenaSize arenaPages page at *
  omega

theorem memories_some (hm : a.memory = some m) (l : List Arena) : memories (a :: l) = m :: memories l :=
  filterMap_cons_some hm

theorem memories_none (hm : a.memory = none) (l : List Arena) : memories (a :: l) = memories l :=
  filterMap_cons_none hm

theorem memories_perm (h : arenas.Perm arenas') : (memories arenas).Perm (memories arenas') := h.filterMap _

theorem apart_symm (h : Apart p n q m) : Apart q m p n := Or.symm h

variable {live live' : List Allocation} {l : Allocation} {rest : List Arena} {w : World}

theorem Sound.perm (hs : Sound arenas n live) (ha : arenas.Perm arenas') (hl : live.Perm live') :
    Sound arenas' n live' where
  apart := hs.apart.perm (memories_perm ha) apart_symm
  fine a h := by
    have hfine := hs.fine a (ha.mem_iff.mpr h)
    unfold Fine at hfine ⊢
    simpa only [hl.mem_iff] using hfine
  active := hs.active.trans (memories_perm ha).length_eq
  pooled l h hp := by simpa only [(memories_perm ha).mem_iff] using hs.pooled l (hl.mem_iff.mpr h) hp
  direct l h hp := by simpa only [(memories_perm ha).mem_iff] using hs.direct l (hl.mem_iff.mpr h) hp
  disjoint := hs.disjoint.perm (hl.filter _) apart_symm

theorem Sound.eq_or_apart (hs : Sound arenas n live) (hm : m ∈ memories arenas) (hm' : m' ∈ memories arenas) :
    m = m' ∨ Apart m arenaSize m' arenaSize := by
  by_cases he : m = m'
  · exact .inl he
  · refine .inr ?_
    have : Std.Symm fun m m' => Apart m arenaSize m' arenaSize := ⟨fun _ _ => apart_symm⟩
    exact hs.apart.forall hm hm' he

theorem Sound.others (hs : Sound (a :: rest) n live) (hm : a.memory = some m) (hb : b ∈ rest)
    (hm' : b.memory = some m') : Apart m arenaSize m' arenaSize := by
  have happart := hs.apart
  rw [memories_some hm] at happart
  exact (pairwise_cons.mp happart).1 m' (mem_memories.mpr ⟨b, hb, hm'⟩)

theorem fine_cons (hnot : ∀ m, a.memory = some m → ∀ j < arenaPages, ¬Covers l (m + j * page)) :
    Fine (l :: live) a ↔ Fine live a := by
  cases hm : a.memory with
  | none => rw [fine_none hm, fine_none hm]
  | some m =>
    rw [fine_some hm, fine_some hm]
    refine and_congr_right' (and_congr_right' (and_congr_right' (forall₂_congr fun j hj => ?_)))
    simp [hnot m hm j hj]

theorem Sound.unused_apart (hs : Sound arenas n' live) (ha : a ∈ arenas) (hm : a.memory = some m)
    (hend : first + n ≤ arenaPages) (hfree : ∀ k < n, a.used (first + k) = false)
    (hn : 0 < n) (hl : l ∈ live) (hpooled : l.pooled = true) :
    Apart (m + first * page) (n * page) l.ptr l.size := by
  obtain ⟨m', hm', first', n', hin⟩ := hs.pooled l hl hpooled
  have hptr := hin.ptr
  have hsize := hin.size
  have hsome := hin.some
  have hfits := hin.fits
  rcases hs.eq_or_apart (mem_memories.mpr ⟨a, ha, hm⟩) hm' with rfl | hapart
  · by_contra hmeet
    have hover : first < first' + n' ∧ first' < first + n := by
      unfold Apart page at *
      omega
    have hj : max first first' < arenaPages := by omega
    have hused := (((fine_some hm).mp (hs.fine a ha)).2.2.2 (max first first') hj).mpr
      ⟨l, hl, (hin.covers hpooled _).mpr ⟨by omega, by omega⟩⟩
    rw [show max first first' = first + (max first first' - first) by omega,
      hfree _ (by omega)] at hused
    cases hused
  · unfold Apart arenaSize arenaPages page at *
    omega

theorem Sound.initial : World.Sound {} := by
  refine ⟨List.Pairwise.nil, ?_, rfl, ?_, ?_, List.Pairwise.nil⟩ <;> simp [memories]

theorem Sound.take (hs : Sound (a :: rest) n live) (hm : a.memory = some m) (hpages : 0 < pages)
    (hend : first + pages ≤ arenaPages) (hfree : ∀ k < pages, a.used (first + k) = false) :
    Sound ({ a with used := fill a.used first pages true, freePages := a.freePages - pages } :: rest) n
      (⟨m + first * page, pages * page, pages * page, true⟩ :: live) := by
  have hmem : memories ({ a with used := fill a.used first pages true, freePages := a.freePages - pages } :: rest) =
      memories (a :: rest) := rfl
  have hin : Inside ⟨m + first * page, pages * page, pages * page, true⟩ m first pages := ⟨rfl, rfl, hpages, hend⟩
  obtain ⟨hpos, hbound, hcount, hflags⟩ := (fine_some hm).mp (hs.fine a mem_cons_self)
  refine ⟨hmem ▸ hs.apart, forall_mem_cons.mpr ⟨?_, fun b hb => ?_⟩, hmem ▸ hs.active, hmem ▸ ?_, hmem ▸ ?_, ?_⟩
  · refine Iff.mpr (fine_some hm) ⟨hpos, hbound, ?_, fun j hj => ?_⟩
    · have hfill := unused_fill (v := true) hend (fun k hk => by simpa using hfree k hk)
      simp only [if_true] at hfill
      dsimp only
      omega
    · have hused := hflags j hj
      have hcovers := hin.covers rfl j
      simp only [mem_cons, exists_eq_or_imp, hcovers, ← hused, fill]
      split
      · simp [*]
      · simp [*]
  · refine (fine_cons fun m' hm' j hj => ?_).mpr (hs.fine b (mem_cons_of_mem _ hb))
    exact hin.not_covers (hs.others hm hb hm') hj
  · refine forall_mem_cons.mpr ⟨fun _ => ⟨m, mem_memories.mpr ⟨_, mem_cons_self, hm⟩, first, pages, hin⟩, hs.pooled⟩
  · exact forall_mem_cons.mpr ⟨nofun, hs.direct⟩
  · refine pairwise_cons.mpr ⟨fun l hl => ?_, hs.disjoint⟩
    obtain ⟨hl, hpooled⟩ := mem_filter.mp hl
    exact hs.unused_apart mem_cons_self hm hend hfree hpages hl hpooled

theorem Sound.give (hs : Sound (a :: rest) n (l :: live)) (hm : a.memory = some m) (hpooled : l.pooled = true)
    (hin : Inside l m first pages) :
    Sound ({ a with used := fill a.used first pages false, freePages := a.freePages + pages } :: rest) n live := by
  have hmem : memories ({ a with used := fill a.used first pages false, freePages := a.freePages + pages } :: rest) =
      memories (a :: rest) := rfl
  obtain ⟨hpos, hbound, hcount, hflags⟩ := (fine_some hm).mp (hs.fine a mem_cons_self)
  have hdisjoint := hs.disjoint
  rw [filter_cons_of_pos hpooled, pairwise_cons] at hdisjoint
  have hfits := hin.fits
  refine ⟨hmem ▸ hs.apart, forall_mem_cons.mpr ⟨?_, fun b hb => ?_⟩, hmem ▸ hs.active,
    hmem ▸ (forall_mem_cons.mp hs.pooled).2, hmem ▸ (forall_mem_cons.mp hs.direct).2, hdisjoint.2⟩
  · refine Iff.mpr (fine_some hm) ⟨hpos, hbound, ?_, fun j hj => ?_⟩
    · have hused : ∀ k < pages, a.used (first + k) = !false := fun k hk =>
        (hflags (first + k) (by omega)).mpr ⟨l, mem_cons_self, (hin.covers hpooled _).mpr (by omega)⟩
      have hfill := unused_fill hfits hused
      simp only [Bool.false_eq_true, if_false] at hfill
      dsimp only
      omega
    · have hold := hflags j hj
      have hcovers := hin.covers hpooled j
      simp only [mem_cons, exists_eq_or_imp, hcovers] at hold
      simp only [fill]
      split
      · rename_i hrange
        refine ⟨nofun, fun ⟨l', hl', hcov'⟩ => ?_⟩
        obtain ⟨-, h₁, h₂⟩ := hcovers.mpr hrange
        obtain ⟨hp', h₃, h4⟩ := hcov'
        have hapart := hdisjoint.1 l' (mem_filter.mpr ⟨hl', hp'⟩)
        unfold Apart at hapart
        omega
      · rename_i hrange
        rw [hold]
        exact or_iff_right hrange
  · refine (fine_cons fun m' hm' j hj => ?_).mp (hs.fine b (mem_cons_of_mem _ hb))
    exact hin.not_covers (hs.others hm hb hm') hj

theorem fine_direct (hdirect : l.pooled = false) : Fine (l :: live) a ↔ Fine live a :=
  fine_cons fun _ _ _ _ hcov => Bool.noConfusion (hcov.1.symm.trans hdirect)

theorem Sound.hold_direct (hs : Sound arenas n live) (hsize : 0 < size) (hext : size ≤ extent)
    (hbound : ptr + extent ≤ 2 ^ 64) (hapart : ∀ m ∈ memories arenas, Apart ptr extent m arenaSize) :
    Sound arenas n (⟨ptr, size, extent, false⟩ :: live) :=
  ⟨hs.apart, fun a ha => (fine_direct rfl).mpr (hs.fine a ha), hs.active,
    forall_mem_cons.mpr ⟨nofun, hs.pooled⟩,
    forall_mem_cons.mpr ⟨fun _ => ⟨hsize, hext, hbound, hapart⟩, hs.direct⟩, hs.disjoint⟩

theorem Sound.drop_direct (hs : Sound arenas n (l :: live)) (hdirect : l.pooled = false) : Sound arenas n live := by
  have hdisjoint := hs.disjoint
  rw [filter_cons_of_neg (by simp [hdirect])] at hdisjoint
  exact ⟨hs.apart, fun a ha => (fine_direct hdirect).mp (hs.fine a ha), hs.active,
    (forall_mem_cons.mp hs.pooled).2, (forall_mem_cons.mp hs.direct).2, hdisjoint⟩

theorem Sound.blank (hs : Sound arenas n live) : Sound ({} :: arenas) n live :=
  ⟨hs.apart, forall_mem_cons.mpr ⟨(fine_none rfl).mpr fun _ => rfl, hs.fine⟩, hs.active, hs.pooled,
    hs.direct, hs.disjoint⟩

theorem Sound.grow (hs : Sound arenas n live) (k : Nat) : Sound (arenas ++ List.replicate k ({} : Arena)) n live := by
  refine Sound.perm ?_ perm_append_comm (.refl _)
  induction k with
  | zero => exact hs
  | succ k ih => exact ih.blank

theorem Sound.open_arena (hs : Sound (a :: rest) n live) (hnone : a.memory = none) (hpos : 0 < m)
    (hbound : m + arenaSize ≤ 2 ^ 64) (hapart : ∀ m' ∈ memories rest, Apart m arenaSize m' arenaSize)
    (hdirect : ∀ l ∈ live, l.pooled = false → Apart m arenaSize l.ptr l.extent) :
    Sound (⟨some m, arenaPages, a.used⟩ :: rest) (n + 1) live := by
  have hblank := (fine_none hnone).mp (hs.fine a mem_cons_self)
  obtain ⟨happart, hfine, hactive, hpooled, hother, hdisjoint⟩ := hs
  rw [memories_none hnone] at happart hactive hpooled hother
  refine ⟨pairwise_cons.mpr ⟨hapart, happart⟩,
    forall_mem_cons.mpr ⟨(fine_some rfl).mpr ⟨hpos, hbound, ?_, fun j hj => ?_⟩, (forall_mem_cons.mp hfine).2⟩,
    congrArg (· + 1) hactive, fun l hl hp => ?_, fun l hl hp => ?_, hdisjoint⟩
  · unfold unused
    rw [countP_eq_length.mpr fun j _ => by simp [hblank j], length_range]
  · -- No allocation made before has a page in the new arena.
    have hclear : ¬∃ l ∈ live, Covers l (m + j * page) := by
      rintro ⟨l, hl, hcov⟩
      obtain ⟨m', hm', first, n, hin⟩ := hpooled l hl hcov.1
      exact hin.not_covers (apart_symm (hapart m' hm')) hj hcov
    simp [hblank j, hclear]
  · obtain ⟨m', hm', hrest⟩ := hpooled l hl hp
    exact ⟨m', mem_cons_of_mem _ hm', hrest⟩
  · obtain ⟨h₁, h₂, h₃, h4⟩ := hother l hl hp
    exact ⟨h₁, h₂, h₃, forall_mem_cons.mpr ⟨apart_symm (hdirect l hl hp), h4⟩⟩

theorem unused_all (h : unused used = arenaPages) (hj : j < arenaPages) : used j = false := by
  have hlen : (List.range arenaPages).countP (fun j => !used j) = (List.range arenaPages).length :=
    h.trans length_range.symm
  simpa using countP_eq_length.mp hlen j (mem_range.mpr hj)

theorem Sound.release (hs : Sound (a :: rest) n live) (hm : a.memory = some m) (hfree : a.freePages = arenaPages) :
    Sound ({} :: rest) (n - 1) live := by
  obtain ⟨-, -, hcount, hflags⟩ := (fine_some hm).mp (hs.fine a mem_cons_self)
  obtain ⟨happart, hfine, hactive, hpooled, hdirect, hdisjoint⟩ := hs
  rw [memories_some hm] at happart hactive hpooled hdirect
  refine Sound.blank ⟨(pairwise_cons.mp happart).2, (forall_mem_cons.mp hfine).2,
    by rw [hactive, length_cons, Nat.add_sub_cancel], fun l hl hp => ?_, fun l hl hp => ?_, hdisjoint⟩
  · obtain ⟨m', hm', first, k, hin⟩ := hpooled l hl hp
    rcases mem_cons.mp hm' with rfl | hm'
    · -- No allocation has a page in an arena whose pages are all free.
      have hfits := hin.fits
      have hsome := hin.some
      have hused := (hflags first (by omega)).mpr ⟨l, hl, (hin.covers hp first).mpr (by omega)⟩
      rw [unused_all (hcount.symm.trans hfree) (by omega)] at hused
      cases hused
    · exact ⟨m', hm', first, k, hin⟩
  · obtain ⟨h₁, h₂, h₃, h4⟩ := hdirect l hl hp
    exact ⟨h₁, h₂, h₃, (forall_mem_cons.mp h4).2⟩

theorem grow_table (h : growTable arenas table = some arenas') :
    (∃ n, arenas' = arenas ++ List.replicate n ({} : Arena)) ∧ ∃ a ∈ arenas', a.memory = none := by
  unfold growTable at h
  split at h
  · rename_i hany
    cases h
    obtain ⟨a, ha, hnone⟩ := any_eq_true.mp hany
    exact ⟨⟨0, by simp⟩, a, ha, Option.isNone_iff_eq_none.mp hnone⟩
  · dsimp only at h
    generalize hcapacity : (if arenas.length = 0 then 32 else arenas.length * 2) = capacity at h
    split at h
    · cases h
    · cases h
      refine ⟨⟨_, rfl⟩, {}, mem_append_right _ (mem_replicate.mpr ⟨?_, rfl⟩), rfl⟩
      split at hcapacity <;> omega

theorem place_arena (memory pages : Nat) (h : ∃ a ∈ arenas, a.memory = none) :
    ∃ a rest, arenas.Perm (a :: rest) ∧ a.memory = none ∧ (placeArena memory pages arenas).Perm
      (⟨some memory, arenaPages - pages, fill a.used 0 pages true⟩ :: rest) := by
  induction arenas with
  | nil =>
    obtain ⟨a, ha, -⟩ := h
    cases ha
  | cons b arenas ih =>
    unfold placeArena
    by_cases hb : b.memory = none
    · exact ⟨b, arenas, .refl _, hb, by rw [if_pos (by simp [hb])]⟩
    · obtain ⟨a, rest, hold, hnone, hnew⟩ := ih (by simpa [hb] using h)
      rw [if_neg (by simp [hb])]
      exact ⟨a, b :: rest, (hold.cons b).trans (.swap ..), hnone, (hnew.cons b).trans (.swap ..)⟩

/-- The arena `horizon_pages_free` looks for: the one the address lies in. -/
theorem free_in_skip (hm : a.memory = some m) (hpos : 0 < m) (hptr : ptr < 2 ^ 64)
    (hm64 : m + arenaSize ≤ 2 ^ 64) (hsize : 0 < size) (hout : Apart ptr size m arenaSize)
    (active : Nat) (rest : List Arena) :
    freeIn active ptr size (a :: rest) =
      (freeIn active ptr size rest).map fun r => (a :: r.1, r.2) := by
  have hcond : ¬((ptr + 2 ^ 64 - m) % 2 ^ 64 < arenaSize ∧ (ptr + 2 ^ 64 - m) % 2 ^ 64 % page = 0 ∧
      size ≤ arenaSize - (ptr + 2 ^ 64 - m) % 2 ^ 64) := by
    rintro ⟨h₁, -, h₂⟩
    unfold Apart at hout
    by_cases hle : m ≤ ptr
    · omega
    · omega
  conv_lhs => unfold freeIn
  rw [hm]
  dsimp only
  rw [if_neg hcond]

theorem free_in_append (hptr : ptr < 2 ^ 64) (hsize : 0 < size)
    (hout : ∀ m ∈ memories pre, 0 < m ∧ m + arenaSize ≤ 2 ^ 64 ∧ Apart ptr size m arenaSize)
    (active : Nat) (rest : List Arena) :
    freeIn active ptr size (pre ++ rest) =
      (freeIn active ptr size rest).map fun r => (pre ++ r.1, r.2) := by
  induction pre with
  | nil => simp
  | cons b pre ih =>
    have hstep : freeIn active ptr size (b :: (pre ++ rest)) =
        (freeIn active ptr size (pre ++ rest)).map fun r => (b :: r.1, r.2) := by
      cases hb : b.memory with
      | none =>
        conv_lhs => unfold freeIn
        rw [hb]
      | some m =>
        obtain ⟨h₁, h₂, h₃⟩ := hout m (by rw [memories_some hb]; simp)
        exact free_in_skip hb h₁ hptr h₂ hsize h₃ active _
    have hpre : ∀ m ∈ memories pre, m ∈ memories (b :: pre) := by
      intro m hm
      obtain ⟨c, hc, hcm⟩ := mem_memories.mp hm
      exact mem_memories.mpr ⟨c, by simp [hc], hcm⟩
    rw [cons_append, hstep, ih fun m hm => hout m (hpre m hm), Option.map_map]
    rfl

theorem free_in_direct (hs : Sound arenas n live) (hl : l ∈ live) (hdirect : l.pooled = false) (active : Nat) :
    freeIn active l.ptr l.size arenas = none := by
  obtain ⟨hsize, hext, hbound, hapart⟩ := hs.direct l hl hdirect
  have hout : ∀ m ∈ memories arenas, 0 < m ∧ m + arenaSize ≤ 2 ^ 64 ∧ Apart l.ptr l.size m arenaSize := by
    intro m hm
    obtain ⟨a, ha, ham⟩ := mem_memories.mp hm
    obtain ⟨h₁, h₂, -⟩ := (fine_some ham).mp (hs.fine a ha)
    have h₃ := hapart m hm
    unfold Apart at h₃ ⊢
    omega
  have h := free_in_append (by omega) hsize hout active []
  rw [append_nil] at h
  exact h

theorem free_in_pooled (hs : Sound (pre ++ a :: post) n' live) (hin : Inside l m first n) (hm : a.memory = some m)
    (active : Nat) : freeIn active l.ptr l.size (pre ++ a :: post) =
      some (pre ++ (giveBack a first n active).1 :: post, (giveBack a first n active).2) := by
  have hptr := hin.ptr
  have hsize := hin.size
  have hsome := hin.some
  have hfits := hin.fits
  have hfirst := hs.perm perm_middle (.refl _)
  obtain ⟨hpos, hbound, -⟩ := (fine_some hm).mp (hfirst.fine a mem_cons_self)
  have hout : ∀ m' ∈ memories pre, 0 < m' ∧ m' + arenaSize ≤ 2 ^ 64 ∧ Apart l.ptr l.size m' arenaSize := by
    intro m' hm'
    obtain ⟨b, hb, hbm⟩ := mem_memories.mp hm'
    have hb : b ∈ pre ++ post := mem_append_left _ hb
    obtain ⟨h₁, h₂, -⟩ := (fine_some hbm).mp (hfirst.fine b (mem_cons_of_mem _ hb))
    exact ⟨h₁, h₂, hin.apart (hfirst.others hm hb hbm) (Nat.le_refl _)⟩
  have hlen : first * page + n * page ≤ arenaSize := by
    rw [← Nat.add_mul]
    exact Nat.mul_le_mul_right _ hfits
  have hroom : 0 < n * page := Nat.mul_pos hsome (by decide)
  have hoffset : (l.ptr + 2 ^ 64 - m) % 2 ^ 64 = first * page := by
    rw [hptr, show m + first * page + 2 ^ 64 - m = first * page + 2 ^ 64 by omega,
      Nat.add_mod_right, Nat.mod_eq_of_lt (by omega)]
  have hplace : first * page / page = first := Nat.mul_div_cancel _ (by decide)
  have hn : n * page / page = n := Nat.mul_div_cancel _ (by decide)
  rw [free_in_append (by omega) (by omega) hout]
  unfold freeIn
  rw [hm]
  dsimp only
  rw [hoffset, if_pos ⟨by omega, Nat.mul_mod_left _ _, by omega⟩, hsize, hplace, hn]
  rfl

/-- What giving memory back does: no arena is new. -/
structure Shrunk (w w' : World) : Prop where
  sound : w'.Sound
  fewer : ∀ m ∈ memories w'.pool.arenas, m ∈ memories w.pool.arenas

/-- `horizon_pages_free` knows the pages of its arenas from memory of the heap's own. -/
theorem pages_free (hs : w.Sound) (hl : l ∈ w.live) :
    (pagesFree w.pool l.ptr l.size).1 = l.pooled ∧
      Shrunk w ⟨(pagesFree w.pool l.ptr l.size).2, w.live.erase l⟩ := by
  have hfront := hs.perm (.refl _) (perm_cons_erase hl)
  unfold pagesFree
  cases hpooled : l.pooled with
  | false =>
    have hdrop : Shrunk w ⟨w.pool, w.live.erase l⟩ := ⟨hfront.drop_direct hpooled, fun _ => id⟩
    split
    · exact ⟨rfl, hdrop⟩
    · rw [free_in_direct hs hl hpooled]
      exact ⟨rfl, hdrop⟩
  | true =>
    obtain ⟨m, hm, first, n, hin⟩ := hs.pooled l hl hpooled
    obtain ⟨a, ha, ham⟩ := mem_memories.mp hm
    obtain ⟨pre, post, hold⟩ := append_of_mem ha
    rw [World.Sound, hold] at hs
    rw [hold] at hfront
    have hgood : ¬(l.ptr = 0 ∨ l.size = 0 ∨ l.size % page ≠ 0) := by
      have hpos := ((fine_some ham).mp (hs.fine a (by simp))).1
      have hptr := hin.ptr
      have hsize := hin.size
      have hsome := hin.some
      unfold page at *
      omega
    rw [if_neg hgood, hold, free_in_pooled hs hin ham]
    refine ⟨rfl, ?_⟩
    have hgive := (hfront.perm perm_middle (.refl _)).give ham hpooled hin
    have hsub : ∀ b : Arena, (∀ m' ∈ b.memory, m' = m) → ∀ m' ∈ memories (pre ++ b :: post), m' ∈ memories w.pool.arenas := by
      intro b hb m' hm'
      rw [hold]
      simp only [mem_memories, mem_append, mem_cons] at hm' ⊢
      obtain ⟨c, hc | rfl | hc, hcm⟩ := hm'
      · exact ⟨c, .inl hc, hcm⟩
      · exact ⟨a, .inr (.inl rfl), hb m' hcm ▸ ham⟩
      · exact ⟨c, .inr (.inr hc), hcm⟩
    unfold giveBack
    dsimp only
    split
    · rename_i hempty
      exact ⟨(hgive.release ham hempty.1).perm perm_middle.symm (.refl _), hsub {} nofun⟩
    · refine ⟨hgive.perm perm_middle.symm (.refl _), hsub _ fun m' hm' => ?_⟩
      exact Option.some.inj ((Option.mem_def.mp hm').symm.trans ham)

theorem Sound.trim (todo : List Arena) (hs : Sound (arenas ++ todo) n live) :
    Sound (arenas ++ todo.map fun a => if trimmable a then {} else a) (n - todo.countP trimmable) live ∧
      ∀ m ∈ memories (todo.map fun a => if trimmable a then {} else a), m ∈ memories todo := by
  induction todo generalizing arenas n with
  | nil => exact ⟨hs, fun _ => id⟩
  | cons a todo ih =>
    have hmore : ∀ m ∈ memories todo, m ∈ memories (a :: todo) := fun m hm => by
      obtain ⟨b, hb, hbm⟩ := mem_memories.mp hm
      exact mem_memories.mpr ⟨b, mem_cons_of_mem _ hb, hbm⟩
    rw [map_cons, countP_cons]
    by_cases htrim : trimmable a = true
    · have hboth := Bool.and_eq_true_iff.mp htrim
      obtain ⟨m, hm⟩ := Option.isSome_iff_exists.mp hboth.1
      have hgone := ((hs.perm perm_middle (.refl _)).release hm (beq_iff_eq.mp hboth.2)).perm
        perm_middle.symm (.refl _)
      rw [append_cons] at hgone
      obtain ⟨hsound, hfewer⟩ := ih hgone
      rw [if_pos htrim, if_pos htrim, append_cons, Nat.add_comm, ← Nat.sub_sub]
      exact ⟨hsound, fun m hm => hmore m (hfewer m hm)⟩
    · rw [append_cons] at hs
      obtain ⟨hsound, hfewer⟩ := ih hs
      rw [if_neg htrim, if_neg htrim, append_cons, Nat.add_zero]
      refine ⟨hsound, fun m hm => ?_⟩
      obtain ⟨b, hb, hbm⟩ := mem_memories.mp hm
      rcases mem_cons.mp hb with rfl | hb
      · exact mem_memories.mpr ⟨b, mem_cons_self, hbm⟩
      · exact hmore m (hfewer m (mem_memories.mpr ⟨b, hb, hbm⟩))

theorem Sound.no_table (hs : Sound arenas 0 live) : Sound [] 0 live := by
  have hnone : memories arenas = [] := eq_nil_of_length_eq_zero hs.active.symm
  have hpooled := hs.pooled
  have hdirect := hs.direct
  rw [hnone] at hpooled hdirect
  exact ⟨.nil, nofun, rfl, hpooled, hdirect, hs.disjoint⟩

theorem pages_trim (hs : w.Sound) : Shrunk w ⟨(pagesTrim w.pool).2, w.live⟩ := by
  obtain ⟨hsound, hfewer⟩ := @Sound.trim [] _ _ w.pool.arenas hs
  unfold pagesTrim
  dsimp only
  split
  · rename_i hzero
    rw [hzero] at hsound ⊢
    exact ⟨hsound.no_table, nofun⟩
  · exact ⟨hsound, hfewer⟩

/-- What a request for pages does: it keeps every arena, and takes a new one only when none has the
run of pages. -/
structure Served (pages : Nat) (w w' : World) : Prop where
  sound : w'.Sound
  kept : ∀ m ∈ memories w.pool.arenas, m ∈ memories w'.pool.arenas
  taken : ∀ m ∈ memories w'.pool.arenas, m ∉ memories w.pool.arenas →
    ∀ a ∈ w.pool.arenas, a.memory.isSome → ¬HasRun a.used pages

theorem Served.of_perm (hs : World.Sound w') (hmem : (memories w'.pool.arenas).Perm (memories w.pool.arenas)) :
    Served pages w w' :=
  ⟨hs, fun _ => hmem.mem_iff.mpr, fun _ hm hnew => absurd (hmem.mem_iff.mp hm) hnew⟩

theorem memories_grown (arenas : List Arena) (n : Nat) :
    memories (arenas ++ List.replicate n ({} : Arena)) = memories arenas := by
  simp [memories]

/-- `horizon_pages_alloc`: pages of an arena, or a pool that holds what it held. -/
theorem pages_alloc (hs : w.Sound) (hfresh : ∀ p ∈ answers.arena, w.Fresh p arenaSize) :
    match pagesAlloc w.pool size answers with
    | (some ptr, pool) => Served (size / page) w ⟨pool, ⟨ptr, size, size, true⟩ :: w.live⟩
    | (none, pool) => World.Sound ⟨pool, w.live⟩ ∧ memories pool.arenas = memories w.pool.arenas := by
  unfold pagesAlloc
  by_cases hbad : size = 0 ∨ size % page ≠ 0 ∨ size / page > arenaPages
  · rw [if_pos hbad]
    exact ⟨hs, rfl⟩
  rw [if_neg hbad]
  simp only [not_or, not_not, Nat.not_lt] at hbad
  obtain ⟨hsize, hmod, hmax⟩ := hbad
  have hwhole : size / page * page = size := Nat.div_mul_cancel (Nat.dvd_of_mod_eq_zero hmod)
  have hpages : 0 < size / page := by
    refine Nat.pos_of_ne_zero fun h => hsize ?_
    rw [← hwhole, h, Nat.zero_mul]
  cases htake : takeRun (size / page) w.pool.arenas with
  | some r =>
    obtain ⟨ptr, arenas⟩ := r
    obtain ⟨a, rest, m, first, hold, hm, hend, hfree, rfl, hnew⟩ := take_run_some hpages htake
    have hsound := ((hs.perm hold (.refl _)).take hm hpages hend hfree).perm hnew.symm (.refl _)
    rw [hwhole] at hsound
    exact .of_perm hsound ((memories_perm hnew).trans (memories_perm hold).symm)
  | none =>
    cases hgrow : growTable w.pool.arenas answers.table with
    | none => exact ⟨hs, rfl⟩
    | some arenas =>
      obtain ⟨⟨n, rfl⟩, hplace⟩ := grow_table hgrow
      have hgrown := hs.grow n
      have hmem := memories_grown w.pool.arenas n
      cases harena : answers.arena with
      | none => exact ⟨hgrown, hmem⟩
      | some m =>
        obtain ⟨hpos, hbound, hapart, hdirect⟩ := hfresh m harena
        obtain ⟨a, rest, hold, hnone, hnew⟩ := place_arena m (size / page) hplace
        have hrest := memories_perm hold
        rw [hmem, memories_none hnone] at hrest
        have hopen := (hgrown.perm hold (.refl _)).open_arena hnone hpos hbound
          (fun m' hm' => hapart m' (hrest.mem_iff.mpr hm')) hdirect
        have hblank : ∀ k < size / page, a.used (0 + k) = false := fun k _ =>
          (fine_none hnone).mp (hgrown.fine a (hold.mem_iff.mpr mem_cons_self)) (0 + k)
        have hplaced := (hopen.take rfl hpages (by omega) hblank).perm hnew.symm (.refl _)
        rw [Nat.zero_mul, Nat.add_zero, hwhole] at hplaced
        refine ⟨hplaced, fun m' hm' => ?_, fun m' _ _ a ha hsome => ?_⟩
        · exact (memories_perm hnew).mem_iff.mpr (mem_cons_of_mem _ (hrest.mem_iff.mp hm'))
        · obtain ⟨m, hm⟩ := Option.isSome_iff_exists.mp hsome
          refine take_run_none hpages htake (fun b hb m' hm' => ?_) a ha m hm
          exact ((fine_some hm').mp (hs.fine b hb)).2.2.1

theorem pages_alloc_bad (h : size = 0 ∨ size % page ≠ 0 ∨ size / page > arenaPages) (pool : Pool)
    (answers : Answers) : pagesAlloc pool size answers = (none, pool) := by
  exact if_pos h

theorem size_le_rounded (size : Nat) : size ≤ rounded size := by
  unfold rounded arenaSize arenaPages page
  omega

/-- `horizon_pages_alloc_dedicated`: pages of an arena, or else a block that fills whole ones. -/
theorem pages_alloc_dedicated (hs : w.Sound) (hfresh : w.Honest size answers) :
    match pagesAllocDedicated w.pool size answers with
    | (some ptr, pool) => Served (size / page) w ⟨pool, ⟨ptr, size,
        if (pagesAlloc w.pool size answers).1.isSome then size else rounded size,
        (pagesAlloc w.pool size answers).1.isSome⟩ :: w.live⟩
    | (none, pool) => (pagesAlloc w.pool size answers).1 = none ∧ World.Sound ⟨pool, w.live⟩ ∧
        memories pool.arenas = memories w.pool.arenas := by
  have halloc : match pagesAlloc w.pool size answers with
    | (some ptr, pool) => Served (size / page) w ⟨pool, ⟨ptr, size, size, true⟩ :: w.live⟩
    | (none, pool) => World.Sound ⟨pool, w.live⟩ ∧ memories pool.arenas = memories w.pool.arenas :=
    pages_alloc hs hfresh.arena
  unfold pagesAllocDedicated
  by_cases hbad : size = 0 ∨ size % page ≠ 0 ∨ size > sizeMax - (arenaSize - 1)
  · have hnone : pagesAlloc w.pool size answers = (none, w.pool) := by
      refine pages_alloc_bad (hbad.imp_right fun h => h.imp_right fun h => ?_) _ _
      unfold sizeMax arenaSize arenaPages page at *
      omega
    rw [if_pos hbad, hnone]
    exact ⟨rfl, hs, rfl⟩
  rw [if_neg hbad]
  rcases hresult : pagesAlloc w.pool size answers with ⟨_ | ptr, pool⟩
  · rw [hresult] at halloc
    obtain ⟨hsound, hmem⟩ := halloc
    cases hblock : answers.block with
    | none => exact ⟨rfl, hsound, hmem⟩
    | some ptr =>
      have hsize : 0 < size := Nat.pos_of_ne_zero fun h => hbad (.inl h)
      obtain ⟨-, hbound, hapart, -⟩ := hfresh.block ptr hblock
      exact .of_perm (hsound.hold_direct hsize (size_le_rounded size) hbound (hmem ▸ hapart)) (.of_eq hmem)
  · rw [hresult] at halloc
    exact halloc

theorem served_hold {arena : Bool} (result : Option Nat × Pool)
    (h : match result with
      | (some ptr, pool) => Served pages w ⟨pool, ⟨ptr, size, extent, arena⟩ :: w.live⟩
      | (none, pool) => World.Sound ⟨pool, w.live⟩ ∧ memories pool.arenas = memories w.pool.arenas) :
    Served pages w (w.hold result size extent arena) := by
  obtain ⟨_ | ptr, pool⟩ := result
  · exact .of_perm h.1 (.of_eq h.2)
  · exact h

/-- `horizon_pages_alloc_any`: memory that shares its block as the last resort. -/
theorem pages_alloc_any (hs : w.Sound) (hfresh : w.Honest size answers) :
    match pagesAllocAny w.pool size answers with
    | (some ptr, pool) => Served (size / page) w ⟨pool, ⟨ptr, size,
        if (pagesAlloc w.pool size answers).1.isSome ||
          !(pagesAllocDedicated w.pool size answers).1.isSome then size else rounded size,
        (pagesAlloc w.pool size answers).1.isSome⟩ :: w.live⟩
    | (none, pool) => World.Sound ⟨pool, w.live⟩ ∧ memories pool.arenas = memories w.pool.arenas := by
  have hdedicated := pages_alloc_dedicated hs hfresh
  unfold pagesAllocAny
  rcases hresult : pagesAllocDedicated w.pool size answers with ⟨_ | ptr, pool⟩
  · rw [hresult] at hdedicated
    obtain ⟨hnone, hsound, hmem⟩ := hdedicated
    rw [hnone]
    by_cases hgood : size ≠ 0 ∧ size % page = 0
    · dsimp only
      rw [if_pos hgood]
      cases hdirect : answers.direct with
      | none => exact ⟨hsound, hmem⟩
      | some ptr =>
        obtain ⟨-, hbound, hapart, -⟩ := hfresh.direct ptr hdirect
        exact .of_perm (hsound.hold_direct (Nat.pos_of_ne_zero hgood.1) (Nat.le_refl _) hbound (hmem ▸ hapart))
          (.of_eq hmem)
    · dsimp only
      rw [if_neg hgood]
      exact ⟨hsound, hmem⟩
  · rw [hresult] at hdedicated
    simpa using hdedicated

/-- What the pool owes its callers at a request. -/
structure Kept (w : World) (label : Op × Answers) : Prop where
  /-- No arena with a live page is released. -/
  released : ∀ m ∈ memories w.pool.arenas, ∀ l ∈ (w.step label).live, ∀ j < arenaPages,
    Covers l (m + j * page) → m ∈ memories (w.step label).pool.arenas
  /-- A new arena is taken for a request only when no arena has the run of pages it asks for. -/
  taken : ∀ m ∈ memories (w.step label).pool.arenas, m ∉ memories w.pool.arenas →
    ∃ size, label.1 ∈ [.alloc size, .allocDedicated size, .allocAny size] ∧
      ∀ a ∈ w.pool.arenas, a.memory.isSome → ¬HasRun a.used (size / page)

theorem Shrunk.kept (h : Shrunk w (w.step label)) (hs : w.Sound) : Kept w label := by
  refine ⟨fun m hm l hl j hj hcov => ?_, fun m hm hnew => absurd (h.fewer m hm) hnew⟩
  obtain ⟨m', hm', first, n, hin⟩ := h.sound.pooled l hl hcov.1
  rcases hs.eq_or_apart hm (h.fewer m' hm') with rfl | hapart
  · exact hm'
  · exact absurd hcov (hin.not_covers (apart_symm hapart) hj)

theorem World.Sound.step (hs : w.Sound) (label : Op × Answers) (hok : w.Ok label) :
    (w.step label).Sound ∧ Kept w label := by
  have hserved : ∀ size, label.1 ∈ [.alloc size, .allocDedicated size, .allocAny size] →
      Served (size / page) w (w.step label) → (w.step label).Sound ∧ Kept w label :=
    fun size hop h => ⟨h.sound, fun m hm _ _ _ _ _ => h.kept m hm,
      fun m hm hnew => ⟨size, hop, h.taken m hm hnew⟩⟩
  obtain ⟨op, answers⟩ := label
  cases op with
  | alloc size => exact hserved size (by simp) (served_hold _ (pages_alloc hs hok.arena))
  | allocDedicated size =>
    refine hserved size (by simp) (served_hold _ ?_)
    have h := pages_alloc_dedicated hs hok
    revert h
    rcases pagesAllocDedicated w.pool size answers with ⟨_ | ptr, pool⟩
    · exact fun h => h.2
    · exact id
  | allocAny size => exact hserved size (by simp) (served_hold _ (pages_alloc_any hs hok))
  | free l =>
    have h := (pages_free hs hok).2
    exact ⟨h.sound, Shrunk.kept h hs⟩
  | trim =>
    have h := pages_trim hs
    exact ⟨h.sound, Shrunk.kept h hs⟩

open Autorun.Lib in
/-- After every run of requests the pages that callers hold of arenas are apart and each inside one
arena, the counts are right, `horizon_pages_free` tells whose memory it is given, and the next
request releases no arena in use and takes no arena without need. -/
theorem page_pool_integrity (labels : List (Op × Answers))
    (hok : Allowed World.Ok World.step {} labels) :
    let w := run World.step {} labels
    (w.live.filter (·.pooled)).Pairwise (fun l l' => Apart l.ptr l.size l'.ptr l'.size) ∧
      (∀ l ∈ w.live, l.pooled = true → ∃ m ∈ memories w.pool.arenas,
        m ≤ l.ptr ∧ l.ptr + l.size ≤ m + arenaSize) ∧
      (∀ a ∈ w.pool.arenas, ∀ m, a.memory = some m → a.freePages = unused a.used ∧
        ∀ j < arenaPages, a.used j = true ↔ ∃ l ∈ w.live, Covers l (m + j * page)) ∧
      w.pool.activeArenas = w.pool.arenas.countP (·.memory.isSome) ∧
      (∀ l ∈ w.live, (pagesFree w.pool l.ptr l.size).1 = l.pooled) ∧
      ∀ label, w.Ok label → Kept w label := by
  have hs : (run World.step {} labels).Sound :=
    run_allowed (P := World.Sound) (fun w label hok hs => (World.Sound.step hs label hok).1) Sound.initial labels hok
  refine ⟨hs.disjoint, fun l hl hpooled => ?_, fun a ha m hm => ((fine_some hm).mp (hs.fine a ha)).2.2, ?_,
    fun l hl => (pages_free hs hl).1, fun label hok => (World.Sound.step hs label hok).2⟩
  · obtain ⟨m, hm, first, n, hin⟩ := hs.pooled l hl hpooled
    have hlen : (first + n) * page ≤ arenaSize := Nat.mul_le_mul_right _ hin.fits
    rw [Nat.add_mul] at hlen
    refine ⟨m, hm, ?_, ?_⟩ <;> rw [hin.ptr]
    · omega
    · rw [hin.size]
      omega
  · rw [hs.active]
    unfold memories
    rw [length_filterMap_eq_countP]

/-- Two allocations share an arena, one too large for it gets a block, and the first goes back. -/
def someRequests : List (Op × Answers) :=
  [(.alloc 4096, { arena := some 0x200000 }), (.alloc 8192, { arena := some 0x400000 }),
    (.allocDedicated 0x201000, { block := some 0x400000 }),
    (.free ⟨0x200000, 4096, 4096, true⟩, {})]

open Autorun.Lib in
theorem page_pool_some_requests : Allowed World.Ok World.step {} someRequests ∧
    (run World.step {} someRequests).live.map (·.ptr) = [0x400000, 0x201000] ∧
    (run World.step {} someRequests).pool.activeArenas =
      (run World.step {} someRequests).pool.arenas.countP (·.memory.isSome) := by
  have hok : Allowed World.Ok World.step {} someRequests := by decide +kernel
  exact ⟨hok, by decide +kernel, (page_pool_integrity someRequests hok).2.2.2.1⟩

end Autorun.Heap.PagePool
