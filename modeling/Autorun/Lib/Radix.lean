import Mathlib.Algebra.Group.Nat.Defs
import Mathlib.Logic.Function.Basic

namespace Autorun.Lib

open Function

/-- Entries under `k` levels of tables, in each of which a place may be empty. -/
@[reducible] def Radix (α : Type u) : Nat → Type u
  | 0 => Nat → α
  | k + 1 => Nat → Option (Radix α k)

namespace Radix

/-- Tables without any table in them; the innermost has the same entry everywhere. -/
def fresh (x : α) : (k : Nat) → Radix α k
  | 0 => fun _ => x
  | _ + 1 => fun _ => none

/-- The entry at the indexes `path`, if all the tables on the way are there. -/
def find : (k : Nat) → Radix α k → (Nat → Nat) → Option α
  | 0, t, path => some (t (path 0))
  | k + 1, t, path => (t (path (k + 1))).bind fun sub => find k sub path

/-- Another entry at `path`. -/
def set : (k : Nat) → Radix α k → (Nat → Nat) → α → Radix α k
  | 0, t, path, x => update t (path 0) x
  | k + 1, t, path, x => update t (path (k + 1)) ((t (path (k + 1))).map fun sub => set k sub path x)

/-- The outermost level at which there is no table on the way. -/
def missing : (k : Nat) → Radix α k → (Nat → Nat) → Option Nat
  | 0, _, _ => none
  | k + 1, t, path =>
    match t (path (k + 1)) with
    | none => some (k + 1)
    | some sub => missing k sub path

theorem find_fresh (x : α) (k : Nat) (path : Nat → Nat) : (find k (fresh x k) path).getD x = x := by
  cases k <;> rfl

variable {path path' : Nat → Nat} {k j : Nat}

theorem find_set_self (t : Radix α k) (path : Nat → Nat) (x : α) :
    find k (set k t path x) path = (find k t path).map fun _ => x := by
  induction k with
  | zero => exact congrArg some (update_self ..)
  | succ k ih =>
    unfold find set
    rw [update_self]
    cases t (path (k + 1)) with
    | none => rfl
    | some sub => exact ih sub

theorem find_set_of_ne (t : Radix α k) (x : α) (hj : j ≤ k)
    (hne : path' j ≠ path j) : find k (set k t path x) path' = find k t path' := by
  induction k with
  | zero =>
    rw [Nat.le_zero.mp hj] at hne
    exact congrArg some (update_of_ne hne ..)
  | succ k ih =>
    unfold find set
    by_cases hpath : path' (k + 1) = path (k + 1)
    · rw [hpath, update_self]
      have hlt : j ≤ k := by
        refine Nat.le_of_lt_succ (Nat.lt_of_le_of_ne hj fun heq => hne ?_)
        rw [heq, hpath]
      cases t (path (k + 1)) with
      | none => rfl
      | some sub => exact ih sub hlt
    · rw [update_of_ne hpath]

variable {t : Radix α k}

theorem missing_le (h : missing k t path = some j) : j ≤ k := by
  induction k with
  | zero => cases h
  | succ k ih =>
    unfold missing at h
    cases hsub : t (path (k + 1)) with
    | none =>
      rw [hsub] at h
      cases h
      exact Nat.le_refl _
    | some sub =>
      rw [hsub] at h
      exact Nat.le_succ_of_le (ih h)

/-- A level is missing for all that go the same way down to it. -/
theorem missing_congr (h : missing k t path = some j)
    (hsame : ∀ i, j ≤ i → path' i = path i) : missing k t path' = some j := by
  induction k with
  | zero => cases h
  | succ k ih =>
    have hle := missing_le h
    unfold missing at h ⊢
    rw [hsame (k + 1) hle]
    cases hsub : t (path (k + 1)) with
    | none =>
      rw [hsub] at h
      exact h
    | some sub =>
      rw [hsub] at h
      exact ih h

theorem missing_eq_none : missing k t path = none ↔ (find k t path).isSome := by
  induction k with
  | zero => exact ⟨fun _ => rfl, fun _ => rfl⟩
  | succ k ih =>
    unfold missing find
    cases t (path (k + 1)) with
    | none => simp
    | some sub => exact ih

end Radix

end Autorun.Lib
