import Autorun.Guest.World

namespace Autorun.Guest

open List

namespace Kernel

variable {k k' : Kernel} {dst block page src count : Nat} {perm : Perm}

/-- The heap pages `[page, page + count)` of a block, lent to the addresses from
`dst` on or to none. -/
def lend (lentTo : Nat → Nat → Option Nat) (block page count : Nat) (dst : Option Nat) :
    Nat → Nat → Option Nat :=
  fun b q => if b = block ∧ page ≤ q ∧ q < page + count then dst.map (· + (q - page))
    else lentTo b q

/-- A call that looks at each page before it changes any. -/
theorem checked {f : Nat → Bool} (dst : Nat) (h : (if (range count).all f then some k else none) = some k') :
    k' = k ∧ ∀ p, dst ≤ p → p < dst + count → f (p - dst) = true := by
  split at h
  · rename_i hall
    cases h
    exact ⟨rfl, fun p hl hr => all_eq_true.mp hall (p - dst) (mem_range.mpr (by omega))⟩
  · cases h

theorem map_code_some (h : k.mapCode dst block page count = some k') :
    (∀ p, dst ≤ p → p < dst + count → k.pages p = none) ∧
    (∀ p, k'.pages p = if dst ≤ p ∧ p < dst + count then
      some ⟨block, page + (p - dst), .none, .code⟩ else k.pages p) ∧
    k'.lentTo = lend k.lentTo block page count (some dst) := by
  obtain ⟨rfl, hall⟩ := checked dst h
  refine ⟨fun p hl hr => ?_, fun p => rfl, rfl⟩
  have hp := hall p hl hr
  rw [Nat.add_sub_cancel' hl, Bool.and_eq_true] at hp
  exact Option.isNone_iff_eq_none.mp hp.1

theorem unmap_code_some (h : k.unmapCode dst block page count = some k') :
    (∀ p, dst ≤ p → p < dst + count → ∃ e, k.pages p = some e ∧ e.page = page + (p - dst)) ∧
    (∀ p, k'.pages p = if dst ≤ p ∧ p < dst + count then none else k.pages p) ∧
    k'.lentTo = lend k.lentTo block page count none := by
  obtain ⟨rfl, hall⟩ := checked dst h
  refine ⟨fun p hl hr => ?_, fun p => rfl, rfl⟩
  have hp := hall p hl hr
  rw [Nat.add_sub_cancel' hl, Bool.and_eq_true, Option.any_eq_true] at hp
  obtain ⟨⟨e, he, hprops⟩, -⟩ := hp
  simp only [Bool.and_eq_true, beq_iff_eq] at hprops
  exact ⟨e, he, hprops.1.2⟩

theorem set_perm_some (h : k.setPerm dst count perm = some k') :
    (∀ p, k'.pages p = if dst ≤ p ∧ p < dst + count then
      (k.pages p).map fun e => { e with perm } else k.pages p) ∧ k'.lentTo = k.lentTo := by
  obtain ⟨rfl, -⟩ := checked dst h
  exact ⟨fun p => rfl, rfl⟩

theorem map_view_some (h : k.mapView dst src count = some k') :
    (∀ p, dst ≤ p → p < dst + count → k.pages p = none) ∧
    (∀ p, k'.pages p = if dst ≤ p ∧ p < dst + count then
      (k.pages (src + (p - dst))).map fun e => { e with perm := .rw, kind := .view }
      else k.pages p) ∧ k'.lentTo = k.lentTo := by
  obtain ⟨rfl, hall⟩ := checked dst h
  refine ⟨fun p hl hr => ?_, fun p => rfl, rfl⟩
  have hp := hall p hl hr
  rw [Nat.add_sub_cancel' hl, Bool.and_eq_true] at hp
  exact Option.isNone_iff_eq_none.mp hp.1

theorem unmap_view_some (h : k.unmapView dst src count = some k') :
    (∀ p, dst ≤ p → p < dst + count → ∃ e, k.pages p = some e ∧ e.kind = .view) ∧
    (∀ p, k'.pages p = if dst ≤ p ∧ p < dst + count then none else k.pages p) ∧
    k'.lentTo = k.lentTo := by
  obtain ⟨rfl, hall⟩ := checked dst h
  refine ⟨fun p hl hr => ?_, fun p => rfl, rfl⟩
  have hp := hall p hl hr
  rw [Nat.add_sub_cancel' hl, Option.any_eq_true] at hp
  obtain ⟨e, he, hprops⟩ := hp
  rw [Bool.and_eq_true, beq_iff_eq] at hprops
  exact ⟨e, he, hprops.1⟩

end Kernel

end Autorun.Guest
