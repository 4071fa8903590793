import Mathlib.Data.List.Nodup

namespace Autorun.Lib

open List

/-- The row of a list that has a key. -/
def row (key : α → Nat) (list : List α) (k : Nat) : Option α := list.find? fun a => key a = k

section row

variable {key : α → Nat} {list : List α} {a : α} {f : α → α} {j k : Nat}

theorem row_mem (ha : row key list k = some a) : a ∈ list ∧ key a = k :=
  ⟨mem_of_find?_eq_some ha, by simpa using List.find?_some ha⟩

theorem row_eq_some (hkeys : (list.map key).Nodup) : row key list k = some a ↔ a ∈ list ∧ key a = k := by
  refine ⟨row_mem, fun ⟨ha, hk⟩ => ?_⟩
  cases hrow : row key list k with
  | none => exact absurd hk (by simpa using List.find?_eq_none.mp hrow a ha)
  | some b =>
    obtain ⟨hb, hk'⟩ := row_mem hrow
    rw [inj_on_of_nodup_map hkeys hb ha (hk'.trans hk.symm)]

@[simp] theorem row_nil : row key [] k = none := rfl

/-- At most one row with a new key comes behind the others. -/
theorem row_append (new : Option α) (hkey : ∀ a ∈ new, key a = j) (hnew : row key list j = none) (k : Nat) :
    row key (list ++ new.toList) k = if k = j then new else row key list k := by
  unfold row at *
  rw [List.find?_append]
  cases new with
  | none =>
    by_cases hk : k = j
    · simp [hk, hnew]
    · simp [hk]
  | some a =>
    by_cases hk : k = j
    · simp [hk, hnew, hkey a rfl]
    · simp [hk, hkey a rfl, Ne.symm hk]

theorem row_filter (key : α → Nat) (list : List α) (j k : Nat) :
    row key (list.filter fun a => key a ≠ j) k = if k = j then none else row key list k := by
  unfold row
  rw [List.find?_filter]
  by_cases hk : k = j
  · simp [hk]
  · rw [if_neg hk]
    congr 1
    funext a
    grind

theorem row_map (hf : ∀ a ∈ list, key (f a) = key a) (k : Nat) : row key (list.map f) k = (row key list k).map f := by
  induction list with
  | nil => rfl
  | cons b list ih =>
    have ih := ih fun a ha => hf a (.tail _ ha)
    unfold row at *
    simp only [map_cons, List.find?_cons, hf b (.head _)]
    split
    · rfl
    · exact ih

/-- A write to the row with a key. -/
theorem row_set (hf : ∀ a, key (f a) = key a) (ha : row key list j = some a) (k : Nat) :
    row key (list.map fun a => if key a = j then f a else a) k = if k = j then some (f a) else row key list k := by
  rw [row_map]
  · by_cases hj : k = j
    · simp [hj, ha, (row_mem ha).2]
    · cases hrow : row key list k with
      | none => simp [hj]
      | some b => simp [hj, (row_mem hrow).2]
  · intro a _
    split
    · exact hf a
    · rfl

theorem map_set (key : α → Nat) (list : List α) (hf : ∀ a, key (f a) = key a) (j : Nat) :
    (list.map fun a => if key a = j then f a else a).map key = list.map key := by
  rw [map_map]
  refine map_congr_left fun a _ => ?_
  dsimp only [Function.comp_apply]
  split
  · exact hf a
  · rfl

theorem map_filter_sublist (p : α → Bool) : ((list.filter p).map key).Sublist (list.map key) :=
  filter_sublist.map key

end row

end Autorun.Lib
