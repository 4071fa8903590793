import Mathlib.Logic.Function.Basic

namespace Autorun.Lib

open Function List

/-- A queue in a buffer whose places are used round and round. -/
structure RingQueue (α : Type u) where
  entries : Nat → α
  head : Nat := 0
  count : Nat := 0
  cap : Nat := 0

namespace RingQueue

variable {r : RingQueue α}

/-- What waits, the oldest first. -/
def contents (r : RingQueue α) : List α := (List.range r.count).map fun i => r.entries ((r.head + i) % r.cap)

/-- The entries at the start of another buffer. -/
def move (r : RingQueue α) (room : Nat) : RingQueue α :=
  ⟨fun i => if i < r.count then r.entries ((r.head + i) % r.cap) else r.entries i, 0, r.count, room⟩

/-- An entry behind the last. -/
def append (r : RingQueue α) (x : α) : RingQueue α :=
  { r with entries := update r.entries ((r.head + r.count) % r.cap) x, count := r.count + 1 }

/-- Without the oldest. -/
def drop (r : RingQueue α) : RingQueue α :=
  { r with head := if r.count - 1 = 0 then 0 else (r.head + 1) % r.cap, count := r.count - 1 }

theorem contents_length (r : RingQueue α) : r.contents.length = r.count := by
  unfold contents
  rw [length_map, length_range]

theorem contents_move (r : RingQueue α) {room : Nat} (hroom : r.count ≤ room) :
    (r.move room).contents = r.contents := by
  refine map_congr_left fun i hi => ?_
  have hi : i < r.count := mem_range.mp hi
  show (if (0 + i) % room < r.count then r.entries ((r.head + (0 + i) % room) % r.cap) else _) = _
  rw [Nat.zero_add, Nat.mod_eq_of_lt (by omega), if_pos hi]

variable {n k : Nat}

/-- Two places of a ring are different. -/
theorem index_ne {first : Nat} (hi : i < j) (hj : j < n) : (first + i) % n ≠ (first + j) % n := by
  intro he
  have hzero := Nat.sub_mod_eq_zero_of_mod_eq he.symm
  rw [Nat.add_sub_add_left, Nat.mod_eq_of_lt (by omega)] at hzero
  omega

theorem contents_append (r : RingQueue α) (x : α) (hlt : r.count < r.cap) :
    (r.append x).contents = r.contents ++ [x] := by
  show (List.range (r.count + 1)).map _ = _
  rw [range_succ, map_append]
  congr 1
  · refine map_congr_left fun i hi => ?_
    have hi : i < r.count := mem_range.mp hi
    exact update_of_ne (index_ne hi hlt) _ _
  · show [update r.entries ((r.head + r.count) % r.cap) x ((r.head + r.count) % r.cap)] = [x]
    rw [update_self]

theorem contents_cons (h : r.contents = x :: xs) : r.entries (r.head % r.cap) = x ∧ r.drop.contents = xs := by
  have hcount : r.count = xs.length + 1 := by
    rw [← r.contents_length, h, length_cons]
  unfold contents at h
  rw [hcount, range_succ_eq_map, map_cons, map_map] at h
  obtain ⟨hx, hxs⟩ := List.cons.inj h
  refine ⟨hx, ?_⟩
  rw [← hxs]
  unfold contents drop
  rw [hcount, Nat.add_sub_cancel]
  refine map_congr_left fun i hi => ?_
  have hi : i < xs.length := mem_range.mp hi
  rw [if_neg (by omega), Nat.mod_add_mod]
  show _ = r.entries ((r.head + (i + 1)) % r.cap)
  rw [Nat.add_right_comm, Nat.add_assoc]

variable {entries f : Nat → α}

variable (r : RingQueue α)

/-- Entries written behind the last. -/
theorem contents_extend
    (hold : ∀ i < r.count, entries ((r.head + i) % r.cap) = r.entries ((r.head + i) % r.cap))
    (hnew : ∀ i < k, entries ((r.head + (r.count + i)) % r.cap) = f i) :
    contents ⟨entries, r.head, r.count + k, r.cap⟩ = r.contents ++ (List.range k).map f := by
  unfold contents
  rw [range_add, map_append, map_map]
  congr 1
  · exact map_congr_left fun i hi => hold i (mem_range.mp hi)
  · exact map_congr_left fun i hi => hnew i (mem_range.mp hi)

/-- The oldest entries and the rest. -/
theorem contents_split (hk : k ≤ r.count) :
    r.contents = (List.range k).map (fun i => r.entries ((r.head + i) % r.cap)) ++
      contents ⟨r.entries, (r.head + k) % r.cap, r.count - k, r.cap⟩ := by
  have hrange : List.range r.count = List.range k ++ (List.range (r.count - k)).map (k + ·) := by
    rw [← range_add, Nat.add_sub_cancel' hk]
  unfold contents
  rw [hrange, map_append, map_map]
  congr 1
  refine map_congr_left fun i _ => ?_
  rw [Nat.mod_add_mod, Nat.add_assoc]
  rfl

variable {place : Nat → Nat}

/-- Writing places one after the other leaves every other place as it was. -/
theorem foldl_update_of_ne {p : Nat} (k : Nat)
    (hne : ∀ i < k, place i ≠ p) :
    (List.range k).foldl (fun es i => update es (place i) (f i)) entries p = entries p := by
  induction k with
  | zero => rfl
  | succ k ih =>
    rw [range_succ, foldl_append, foldl_cons, foldl_nil,
      update_of_ne (hne k (Nat.lt_succ_self k)).symm]
    exact ih fun i hi => hne i (Nat.lt_succ_of_lt hi)

theorem foldl_update_self {i : Nat} (k : Nat)
    (hne : ∀ i j, i < j → j < k → place i ≠ place j) (hi : i < k) :
    (List.range k).foldl (fun es i => update es (place i) (f i)) entries (place i) = f i := by
  induction k with
  | zero => exact absurd hi (Nat.not_lt_zero i)
  | succ k ih =>
    rw [range_succ, foldl_append, foldl_cons, foldl_nil]
    rcases Nat.lt_succ_iff_lt_or_eq.mp hi with hlt | rfl
    · rw [update_of_ne (hne i k hlt (Nat.lt_succ_self k))]
      exact ih (fun a b hab hb => hne a b hab (Nat.lt_succ_of_lt hb)) hlt
    · exact update_self ..

/-- Two arrays of which the same places are written, with values that belong together. -/
theorem foldl_update_rel {R : α → β → Prop} (place : Nat → Nat) {g : Nat → β} {l : List Nat}
    (hfg : ∀ i ∈ l, R (f i) (g i)) {a : Nat → α} {b : Nat → β} (hab : ∀ p, R (a p) (b p)) (p : Nat) :
    R (l.foldl (fun es i => update es (place i) (f i)) a p)
      (l.foldl (fun es i => update es (place i) (g i)) b p) := by
  induction l generalizing a b with
  | nil => exact hab p
  | cons i l ih =>
    rw [foldl_cons, foldl_cons]
    refine ih (fun j hj => hfg j (mem_cons_of_mem i hj)) fun q => ?_
    by_cases hq : q = place i
    · rw [hq, update_self, update_self]
      exact hfg i mem_cons_self
    · rw [update_of_ne hq, update_of_ne hq]
      exact hab q

/-- Several entries, each behind the one before. -/
theorem contents_appendAll (f : Nat → α) (hk : r.count + k ≤ r.cap) :
    contents ⟨(List.range k).foldl
        (fun es i => update es ((r.head + r.count + i) % r.cap) (f i)) r.entries,
      r.head, r.count + k, r.cap⟩ = r.contents ++ (List.range k).map f := by
  refine r.contents_extend (fun i hi => ?_) fun i hi => ?_
  · refine foldl_update_of_ne k fun j hj => ?_
    rw [Nat.add_assoc]
    exact (index_ne (by omega) (by omega)).symm
  · rw [← Nat.add_assoc]
    refine foldl_update_self k (fun a b hab hb => ?_) hi
    exact index_ne (by omega) (by omega)

/-- Some entries behind the oldest `n`. -/
theorem contents_window (hk : n + k ≤ r.count) :
    (List.range k).map (fun i => r.entries ((r.head + n + i) % r.cap)) = (r.contents.drop n).take k := by
  rw [r.contents_split (k := n) (by omega), drop_left' (by rw [length_map, length_range]),
    contents_split (k := k) _ (by dsimp only; omega),
    take_left' (by rw [length_map, length_range])]
  refine map_congr_left fun i _ => ?_
  rw [Nat.mod_add_mod]

end RingQueue

end Autorun.Lib
