import Mathlib.Algebra.GroupWithZero.Nat
import Mathlib.Data.List.Chain

namespace Autorun.Lib

open List

/-- A piece of a range that is cut up without gaps. -/
structure Tile where
  start : Nat
  length : Nat
  free : Bool
deriving DecidableEq

/-- Where a tile ends. -/
def Tile.stop (t : Tile) : Nat := t.start + t.length

/-- The tiles follow each other from `s` to `e`. -/
def Tiled : Nat → Nat → List Tile → Prop
  | s, e, [] => s = e
  | s, e, t :: ts => t.start = s ∧ 0 < t.length ∧ Tiled t.stop e ts

instance decidableTiled : (s e : Nat) → (ts : List Tile) → Decidable (Tiled s e ts)
  | s, e, [] => inferInstanceAs (Decidable (s = e))
  | s, e, t :: ts =>
    have : Decidable (Tiled t.stop e ts) := decidableTiled t.stop e ts
    inferInstanceAs (Decidable (t.start = s ∧ 0 < t.length ∧ Tiled t.stop e ts))

/-- What the tiles that are not free add up to. -/
def usedLength (ts : List Tile) : Nat := (ts.map fun t => if t.free then 0 else t.length).sum

theorem used_length_append (ts us : List Tile) :
    usedLength (ts ++ us) = usedLength ts + usedLength us := by
  unfold usedLength
  rw [map_append, sum_append]

theorem used_length_cons (t : Tile) (ts : List Tile) :
    usedLength (t :: ts) = (if t.free then 0 else t.length) + usedLength ts := rfl

/-- No two free tiles follow each other. -/
def Coalesced (ts : List Tile) : Prop := ts.IsChain fun t u => ¬(t.free = true ∧ u.free = true)

/-- A tile may be put between others if it is in use, or they end and begin with ones in use. -/
theorem coalesced_middle {t : Tile} {pre post : List Tile} : Coalesced (pre ++ t :: post) ↔
    Coalesced pre ∧ Coalesced post ∧ (t.free = true →
      (∀ u ∈ pre.getLast?, u.free = false) ∧ ∀ u ∈ post.head?, u.free = false) := by
  unfold Coalesced
  rw [isChain_append, isChain_cons]
  simp only [List.head?_cons, Option.mem_some_iff, forall_eq', Bool.not_eq_true, not_and]
  constructor
  · rintro ⟨hpre, ⟨hnext, hpost⟩, hlast⟩
    refine ⟨hpre, hpost, fun hfree => ⟨fun u hu => ?_, fun u hu => hnext u hu hfree⟩⟩
    by_contra hne
    rw [hlast u hu (by simpa using hne)] at hfree
    cases hfree
  · rintro ⟨hpre, hpost, hends⟩
    refine ⟨hpre, ⟨fun u hu hfree => (hends hfree).2 u hu, hpost⟩, fun u hu hfree => ?_⟩
    by_contra hne
    rw [(hends (by simpa using hne)).1 u hu] at hfree
    cases hfree

/-- A free tile may be put first if the next is in use. -/
theorem coalesced_cons {t : Tile} {ts : List Tile} : Coalesced (t :: ts) ↔
    Coalesced ts ∧ (t.free = true → ∀ u ∈ ts.head?, u.free = false) := by
  have h := @coalesced_middle t [] ts
  simp only [List.getLast?_nil, Option.not_mem_none, false_implies, implies_true, true_and] at h
  exact h.trans (and_iff_right .nil)

namespace Tiled

variable {s e : Nat} {t u : Tile} {ts pre post : List Tile}

theorem le (h : Tiled s e ts) : s ≤ e := by
  induction ts generalizing s with
  | nil => exact Nat.le_of_eq h
  | cons t ts ih =>
    obtain ⟨hstart, -, hrest⟩ := h
    have := ih hrest
    unfold Tile.stop at this
    omega

theorem append_iff : Tiled s e (pre ++ post) ↔ ∃ m, Tiled s m pre ∧ Tiled m e post := by
  induction pre generalizing s with
  | nil => exact ⟨fun h => ⟨s, rfl, h⟩, fun ⟨_, hm, h⟩ => hm ▸ h⟩
  | cons t pre ih =>
    constructor
    · rintro ⟨hstart, hpos, hrest⟩
      obtain ⟨m, hpre, hpost⟩ := ih.mp hrest
      exact ⟨m, ⟨hstart, hpos, hpre⟩, hpost⟩
    · rintro ⟨m, ⟨hstart, hpos, hpre⟩, hpost⟩
      exact ⟨hstart, hpos, ih.mpr ⟨m, hpre, hpost⟩⟩

theorem middle_iff : Tiled s e (pre ++ t :: post) ↔
    Tiled s t.start pre ∧ 0 < t.length ∧ Tiled t.stop e post := by
  rw [append_iff]
  constructor
  · rintro ⟨m, hpre, rfl, hpos, hpost⟩
    exact ⟨hpre, hpos, hpost⟩
  · rintro ⟨hpre, hpos, hpost⟩
    exact ⟨t.start, hpre, rfl, hpos, hpost⟩

theorem inside (h : Tiled s e ts) (ht : t ∈ ts) : s ≤ t.start ∧ 0 < t.length ∧ t.stop ≤ e := by
  obtain ⟨pre, post, rfl⟩ := append_of_mem ht
  obtain ⟨hpre, hpos, hpost⟩ := middle_iff.mp h
  exact ⟨hpre.le, hpos, hpost.le⟩

/-- The other tiles lie before or behind. -/
theorem others (h : Tiled s e (pre ++ t :: post)) (hu : u ∈ pre ++ post) :
    u.stop ≤ t.start ∨ t.stop ≤ u.start := by
  obtain ⟨hpre, -, hpost⟩ := middle_iff.mp h
  rcases mem_append.mp hu with hu | hu
  · exact .inl (hpre.inside hu).2.2
  · exact .inr (hpost.inside hu).1

/-- Two tiles are one, or one lies before the other. -/
theorem apart (h : Tiled s e ts) (ht : t ∈ ts) (hu : u ∈ ts) :
    t = u ∨ t.stop ≤ u.start ∨ u.stop ≤ t.start := by
  obtain ⟨pre, post, rfl⟩ := append_of_mem ht
  by_cases he : t = u
  · exact .inl he
  · have hu' : u ∈ pre ++ post := by
      simp only [mem_append, mem_cons] at hu ⊢
      rcases hu with hu | rfl | hu
      · exact .inl hu
      · exact absurd rfl he
      · exact .inr hu
    exact .inr (h.others hu').symm

theorem eq_of_start (h : Tiled s e ts) (ht : t ∈ ts) (hu : u ∈ ts) (hstart : t.start = u.start) :
    t = u := by
  have h1 := (h.inside ht).2.1
  have h2 := (h.inside hu).2.1
  rcases h.apart ht hu with he | hlt | hlt
  · exact he
  · unfold Tile.stop at hlt
    omega
  · unfold Tile.stop at hlt
    omega

/-- The tile behind one that does not end the range. -/
theorem after (h : Tiled s e (pre ++ t :: post)) (hlt : t.stop < e) :
    ∃ u post', post = u :: post' ∧ u.start = t.stop := by
  obtain ⟨-, -, hpost⟩ := middle_iff.mp h
  cases post with
  | nil =>
    have : t.stop = e := hpost
    omega
  | cons u post => exact ⟨u, post, rfl, hpost.1⟩

/-- The tile before one that does not begin the range. -/
theorem before (h : Tiled s e (pre ++ t :: post)) (hlt : s < t.start) :
    ∃ u pre', pre = pre' ++ [u] ∧ u.stop = t.start := by
  obtain ⟨hpre, -, -⟩ := middle_iff.mp h
  rcases eq_nil_or_concat pre with rfl | ⟨pre', u, rfl⟩
  · have : s = t.start := hpre
    omega
  · rw [concat_eq_append] at hpre
    obtain ⟨-, -, hlast⟩ := middle_iff.mp hpre
    exact ⟨u, pre', concat_eq_append, hlast⟩

/-- Other tiles take the place of one. -/
theorem replace {mid : List Tile} (h : Tiled s e (pre ++ t :: post))
    (hmid : Tiled t.start t.stop mid) : Tiled s e (pre ++ (mid ++ post)) := by
  obtain ⟨hpre, -, hpost⟩ := middle_iff.mp h
  exact append_iff.mpr ⟨_, hpre, append_iff.mpr ⟨_, hmid, hpost⟩⟩

end Tiled

end Autorun.Lib
