import Mathlib.Data.List.Perm.Basic
import Mathlib.Data.List.Pairwise

namespace Autorun.Lib

open List

/-- Ranges `[lo a, hi a)` kept in a list by address, as an ordered tree keeps
them: the list is the tree read from left to right. -/
structure Ranges (α : Type) where
  lo : α → Nat
  hi : α → Nat

namespace Ranges

variable {α : Type} (r : Ranges α)

def Apart (a b : α) : Prop := r.hi a ≤ r.lo b ∨ r.hi b ≤ r.lo a

def Has (a : α) (p : Nat) : Prop := r.lo a ≤ p ∧ p < r.hi a

instance (a : α) (p : Nat) : Decidable (r.Has a p) := inferInstanceAs (Decidable (_ ∧ _))

/-- Every point of `[start, stop)` is in an entry. -/
def Covers (l : List α) (start stop : Nat) : Prop :=
  ∀ p, start ≤ p → p < stop → ∃ a ∈ l, r.Has a p

/-- The lowest range that ends after `start`, if it begins before `stop`. -/
def overlap (l : List α) (start stop : Nat) : Option α :=
  (l.find? fun a => start < r.hi a).filter fun a => r.lo a < stop

/-- The entries from the lowest one that ends after `start` on. -/
def after (l : List α) (start : Nat) : List α := l.dropWhile fun a => r.hi a ≤ start

/-- The entry at a point, and the key of every entry is where it begins. -/
def at? (l : List α) (p : Nat) : Option α := r.overlap l p (p + 1)

/-- Entries are non-empty and follow one another without overlap. -/
structure Sorted (l : List α) : Prop where
  nonempty : ∀ a ∈ l, r.lo a < r.hi a
  ordered : l.Pairwise fun a b => r.hi a ≤ r.lo b

variable {r}

theorem Sorted.nil : r.Sorted [] := ⟨by simp, List.Pairwise.nil⟩

theorem Sorted.cons (h : r.Sorted l) (ha : r.lo a < r.hi a) (hle : ∀ b ∈ l, r.hi a ≤ r.lo b) :
    r.Sorted (a :: l) :=
  ⟨forall_mem_cons.mpr ⟨ha, h.nonempty⟩, pairwise_cons.mpr ⟨hle, h.ordered⟩⟩

theorem Covers.mono (h : r.Covers l start stop) (hs : l ⊆ k) : r.Covers k start stop := by
  intro p hl hu
  obtain ⟨a, ha, hp⟩ := h p hl hu
  exact ⟨a, hs ha, hp⟩

theorem Covers.cons (h : r.Covers l (r.hi a) stop) (ha : r.lo a ≤ start) :
    r.Covers (a :: l) start stop := by
  intro p hl hu
  by_cases hp : p < r.hi a
  · exact ⟨a, mem_cons_self .., by omega, hp⟩
  · exact h.mono (subset_cons_self ..) p (by omega) hu

theorem Sorted.tail (h : r.Sorted (a :: l)) : r.Sorted l :=
  ⟨fun b hb => h.nonempty b (mem_cons_of_mem _ hb), (pairwise_cons.mp h.ordered).2⟩

theorem Sorted.head_le (h : r.Sorted (a :: l)) (hb : b ∈ l) : r.hi a ≤ r.lo b :=
  (pairwise_cons.mp h.ordered).1 b hb

/-- Entries of a sorted list that share a point are the same entry. -/
theorem Sorted.unique (h : r.Sorted l) (ha : a ∈ l) (hb : b ∈ l) (hpa : r.Has a p)
    (hpb : r.Has b p) : a = b := by
  unfold Has at hpa hpb
  induction l with
  | nil => cases ha
  | cons c l ih =>
    rcases mem_cons.mp ha with rfl | ha'
    · rcases mem_cons.mp hb with rfl | hb'
      · rfl
      · have := h.head_le hb'
        omega
    · rcases mem_cons.mp hb with rfl | hb'
      · have := h.head_le ha'
        omega
      · exact ih h.tail ha' hb'

theorem overlap_some (h : r.Sorted l) (ho : r.overlap l start stop = some a) :
    a ∈ l ∧ r.lo a < stop ∧ start < r.hi a ∧ ∀ b ∈ l, start < r.hi b → r.lo a ≤ r.lo b := by
  obtain ⟨hf, hlt⟩ := Option.filter_eq_some_iff.mp ho
  have hhi : start < r.hi a := by simpa using List.find?_some hf
  refine ⟨mem_of_find?_eq_some hf, by simpa using hlt, hhi, ?_⟩
  clear ho hlt
  induction l with
  | nil => simp
  | cons c l ih =>
    intro b hb hsb
    rw [List.find?_cons] at hf
    split at hf
    · cases hf
      rcases mem_cons.mp hb with rfl | hb'
      · exact Nat.le_refl _
      · have := h.head_le hb'
        have := h.nonempty a (mem_cons_self ..)
        omega
    · rename_i hc
      rcases mem_cons.mp hb with rfl | hb'
      · simp at hc
        omega
      · exact ih h.tail hf b hb' hsb

theorem overlap_none (h : r.Sorted l) (ho : r.overlap l start stop = none) (hb : b ∈ l) :
    r.hi b ≤ start ∨ stop ≤ r.lo b := by
  by_contra hno
  cases hf : l.find? (fun a => start < r.hi a) with
  | none =>
    have := List.find?_eq_none.mp hf b hb
    simp at this
    omega
  | some a =>
    have hnot : ¬ r.lo a < stop := by
      intro hlt
      simp [overlap, hf] at ho
      omega
    have hwide : r.overlap l start (r.lo a + 1) = some a := by simp [overlap, hf]
    have := (overlap_some h hwide).2.2.2 b hb (by omega)
    omega

/-- A range the search cannot miss. -/
theorem overlap_isSome (h : r.Sorted l) (hb : b ∈ l) (start stop : Nat) (hs : start < r.hi b)
    (he : r.lo b < stop) :
    ∃ a, r.overlap l start stop = some a := by
  cases ho : r.overlap l start stop with
  | some a => exact ⟨a, rfl⟩
  | none =>
    have := overlap_none h ho hb
    omega

theorem at_some (h : r.Sorted l) (ho : r.at? l p = some a) : a ∈ l ∧ r.Has a p := by
  obtain ⟨hm, hlo, hhi, _⟩ := overlap_some h ho
  exact ⟨hm, by omega, hhi⟩

theorem at_eq_some (h : r.Sorted l) : r.at? l p = some a ↔ a ∈ l ∧ r.Has a p := by
  constructor
  · exact at_some h
  · rintro ⟨hm, hp⟩
    obtain ⟨b, hb⟩ := overlap_isSome h hm p (p + 1) hp.2 (Nat.lt_succ_of_le hp.1)
    obtain ⟨hbm, hbp⟩ := at_some h hb
    rw [h.unique hm hbm hp hbp]
    exact hb

theorem at_eq_none (h : r.Sorted l) : r.at? l p = none ↔ ∀ a ∈ l, ¬ r.Has a p := by
  constructor
  · intro hn a ha hp
    have := (at_eq_some h).mpr ⟨ha, hp⟩
    rw [hn] at this
    cases this
  · intro hno
    cases ho : r.at? l p with
    | none => rfl
    | some a =>
      obtain ⟨hm, hp⟩ := at_some h ho
      exact absurd hp (hno a hm)

theorem Sorted.sublist (h : r.Sorted l) (hs : k.Sublist l) : r.Sorted k :=
  ⟨fun a ha => h.nonempty a (hs.subset ha), h.ordered.sublist hs⟩

/-- A change of entries that keeps their ranges keeps the order. -/
theorem Sorted.map (h : r.Sorted l) (f : α → α) (hlo : ∀ a, r.lo (f a) = r.lo a)
    (hhi : ∀ a, r.hi (f a) = r.hi a) : r.Sorted (l.map f) := by
  refine ⟨?_, ?_⟩
  · intro b hb
    obtain ⟨a, ha, rfl⟩ := mem_map.mp hb
    rw [hlo, hhi]
    exact h.nonempty a ha
  · rw [pairwise_map]
    simpa [hlo, hhi] using h.ordered

/-- In a sorted list the walk from `start` visits the entries that end after it. -/
theorem Sorted.mem_after (h : r.Sorted l) : a ∈ r.after l start ↔ a ∈ l ∧ start < r.hi a := by
  unfold after
  induction l with
  | nil => simp
  | cons c l ih =>
    rw [dropWhile_cons]
    split
    · rename_i hle
      simp only [decide_eq_true_eq] at hle
      rw [ih h.tail, mem_cons]
      constructor
      · rintro ⟨hm, hs⟩
        exact ⟨.inr hm, hs⟩
      · rintro ⟨rfl | hm, hs⟩
        · omega
        · exact ⟨hm, hs⟩
    · rename_i hgt
      simp only [decide_eq_true_eq] at hgt
      constructor
      · intro hm
        refine ⟨hm, ?_⟩
        rcases mem_cons.mp hm with rfl | hm'
        · omega
        · have := h.head_le hm'
          have := h.nonempty a hm
          omega
      · exact fun hm => hm.1

/-- In a sorted list the walk up to `stop` visits the entries that begin before it. -/
theorem Sorted.mem_takeWhile (h : r.Sorted l) :
    a ∈ l.takeWhile (fun a => decide (r.lo a < stop)) ↔ a ∈ l ∧ r.lo a < stop := by
  induction l with
  | nil => simp
  | cons c l ih =>
    have hc := h.nonempty c (mem_cons_self ..)
    rw [takeWhile_cons]
    split
    · rename_i hlt
      simp only [decide_eq_true_eq] at hlt
      rw [mem_cons, mem_cons, ih h.tail]
      constructor
      · rintro (rfl | hm)
        · exact ⟨.inl rfl, hlt⟩
        · exact ⟨.inr hm.1, hm.2⟩
      · rintro ⟨rfl | hm, hlo⟩
        · exact .inl rfl
        · exact .inr ⟨hm, hlo⟩
    · rename_i hge
      simp only [decide_eq_true_eq] at hge
      constructor
      · intro hm
        cases hm
      · rintro ⟨hm, hlo⟩
        rcases mem_cons.mp hm with rfl | hm
        · exact absurd hlo hge
        · have := h.head_le hm
          omega

theorem Sorted.lo_nodup (h : r.Sorted l) : (l.map r.lo).Nodup := by
  refine pairwise_map.mpr (h.ordered.imp_of_mem fun {a b} ha hb hab => ?_)
  have := h.nonempty a ha
  omega

end Ranges

end Autorun.Lib
