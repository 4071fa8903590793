import Mathlib.Data.List.Range

namespace Autorun.Lib

variable {β : Type}

/-- The array `f` with `data` written from `offset` on. -/
def overwrite (f : Nat → β) (offset : Nat) (data : List β) : Nat → β :=
  fun i => if offset ≤ i then (data[i - offset]?).getD (f i) else f i

/-- The `count` elements of the array from `offset` on. -/
def slice (f : Nat → β) (offset count : Nat) : List β := (List.range' offset count).map f

variable (f : Nat → β)

@[simp] theorem overwrite_nil (offset : Nat) : overwrite f offset [] = f := by
  funext i
  simp [overwrite]

theorem overwrite_outside (offset : Nat) (data : List β)
    (h : i < offset ∨ offset + data.length ≤ i) : overwrite f offset data i = f i := by
  unfold overwrite
  split
  · rw [List.getElem?_eq_none (by omega)]
    rfl
  · rfl

theorem overwrite_inside (offset : Nat) (data : List β) (h : offset ≤ i)
    (hi : i - offset < data.length) : overwrite f offset data i = data[i - offset] := by
  rw [overwrite, if_pos h, List.getElem?_eq_getElem hi]
  rfl

/-- Two writes one after the other are one write. -/
theorem overwrite_append (offset : Nat) (xs ys : List β) :
    overwrite (overwrite f offset xs) (offset + xs.length) ys = overwrite f offset (xs ++ ys) := by
  funext i
  rcases Nat.lt_or_ge i offset with hlt | hge
  · rw [overwrite_outside _ _ _ (.inl hlt), overwrite_outside _ _ _ (.inl (by omega)),
      overwrite_outside _ _ _ (.inl hlt)]
  rcases Nat.lt_or_ge i (offset + xs.length) with hx | hx
  · rw [overwrite_outside _ _ _ (.inl hx), overwrite_inside _ _ _ hge (by omega),
      overwrite_inside _ _ _ hge (by rw [List.length_append]; omega),
      List.getElem_append_left (by omega)]
  · have hsub : i - offset - xs.length = i - (offset + xs.length) := by omega
    rw [overwrite, if_pos hx, overwrite_outside _ _ _ (.inr hx), overwrite, if_pos hge,
      List.getElem?_append_right (by omega), hsub]

theorem overwrite_one (offset : Nat) (x : β) (i : Nat) :
    overwrite f offset [x] i = if i = offset then x else f i := by
  split
  · rename_i h
    subst h
    simp [overwrite]
  · exact overwrite_outside _ _ _ (by simp; omega)

@[simp] theorem slice_length (offset count : Nat) :
    (slice f offset count).length = count := by simp [slice]

theorem slice_succ (offset count : Nat) :
    slice f offset (count + 1) = f offset :: slice f (offset + 1) count := by
  simp [slice, List.range'_succ]

theorem slice_add (offset m n : Nat) :
    slice f offset m ++ slice f (offset + m) n = slice f offset (m + n) := by
  simp [slice, ← List.map_append]

theorem slice_eq_map (offset count : Nat) :
    slice f offset count = (List.range count).map fun i => f (offset + i) := by
  rw [slice, List.range'_eq_map_range, List.map_map]
  rfl

theorem slice_congr {f g : Nat → β} (h : ∀ i, offset ≤ i → i < offset + count → f i = g i) :
    slice f offset count = slice g offset count :=
  List.map_congr_left fun i hi => by
    rw [List.mem_range'_1] at hi
    exact h i hi.1 hi.2

/-- What is written behind the first elements is read back behind them. -/
theorem slice_overwrite (offset : Nat) (data : List β) :
    slice (overwrite f offset data) 0 (offset + data.length) = slice f 0 offset ++ data := by
  rw [← slice_add, Nat.zero_add]
  congr 1
  · exact slice_congr fun i _ hi => overwrite_outside _ _ _ (.inl (by omega))
  · refine List.ext_getElem (slice_length _ _ _) fun i hi _ => ?_
    have hsub : offset + i - offset = i := by omega
    simp only [slice_eq_map, List.getElem_map, List.getElem_range]
    rw [overwrite_inside _ _ _ (by omega) (by omega)]
    simp

end Autorun.Lib
