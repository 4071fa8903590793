import Autorun.Guest.Swap
import Autorun.Proofs.Kernel

namespace Autorun.Guest

open Autorun.Lib

/-- A mapping that the pages of a backing are lent to. -/
def Mapping.Covers (b q : Nat) (m : Mapping) : Prop :=
  m.backing = some b ∧ m.swapUnmapped ≠ .unmapped ∧ m.sourceOffset ≤ q ∧ q < m.sourceOffset + m.size

/-- Heap blocks and tokens belong to one backing each, and what is not in the
heap is stored. -/
structure Placed (backings : Nat → Option Backing) (stored : Nat → Option (Nat → Page))
    (next : Nat) : Prop where
  block_lt : ∀ b k blk, backings b = some k → k.heapAddr = some blk → blk < next
  block_inj : ∀ b b' k k' blk, backings b = some k → backings b' = some k' →
    k.heapAddr = some blk → k'.heapAddr = some blk → b = b'
  away : ∀ b k, backings b = some k → k.heapAddr = none → k.swap.token ≠ 0
  token : ∀ b k, backings b = some k → k.swap.token ≠ 0 →
    k.swap.detached = true ∧ (stored k.swap.token).isSome
  token_inj : ∀ b b' k k', backings b = some k → backings b' = some k' → k.swap.token ≠ 0 →
    k.swap.token = k'.swap.token → b = b'

/-- What swapping needs of the mappings, their backings and the kernel's pages,
and keeps. `moving` is the backing that is being swapped. -/
structure Kept (w : World) (moving : Option Nat) : Prop where
  sorted : mappings.Sorted w.tree
  backed : ∀ m ∈ w.tree, ∀ b, m.backing = some b → ∃ k, w.backings b = some k ∧
    m.addr = k.codeAddr + m.sourceOffset ∧ m.sourceOffset + m.size ≤ k.size
  blocks : Placed w.backings w.stored w.next
  fresh : ∀ blk q, w.next ≤ blk → w.kernel.lentTo blk q = none
  lent : ∀ b k blk q, w.backings b = some k → k.heapAddr = some blk →
    w.kernel.lentTo blk q ≠ none → (∃ m ∈ w.tree, m.backing = some b) → ∃ m ∈ w.tree, m.Covers b q
  attached : ∀ b k, w.backings b = some k → k.swap.detached = false → moving ≠ some b →
    ∀ m ∈ w.tree, m.backing = some b → m.swapUnmapped = .attached

theorem update_some {f : Nat → Option Backing} (h : Function.update f b (some k') b' = some k) :
    b' = b ∧ k = k' ∨ b' ≠ b ∧ f b' = some k := by
  by_cases he : b' = b
  · subst he
    rw [Function.update_self] at h
    exact .inl ⟨rfl, (Option.some.inj h).symm⟩
  · rw [Function.update_of_ne he] at h
    exact .inr ⟨he, h⟩

theorem Placed.update (h : Placed backings stored next) (k' : Backing)
    (hblk : ∀ blk, k'.heapAddr = some blk → blk < next ∧
      ∀ b' k, b' ≠ b → backings b' = some k → k.heapAddr ≠ some blk)
    (haway : k'.heapAddr = none → k'.swap.token ≠ 0)
    (htoken : k'.swap.token ≠ 0 → k'.swap.detached = true ∧ (stored' k'.swap.token).isSome ∧
      ∀ b' k, b' ≠ b → backings b' = some k → k.swap.token ≠ k'.swap.token)
    (hstored : ∀ b' k, b' ≠ b → backings b' = some k → k.swap.token ≠ 0 →
      (stored' k.swap.token).isSome) :
    Placed (Function.update backings b (some k')) stored' next := by
  refine ⟨fun b' k blk hb hk => ?_, fun b1 b2 k1 k2 blk hb1 hb2 hk1 hk2 => ?_, fun b' k hb hk => ?_,
    fun b' k hb ht => ?_, fun b1 b2 k1 k2 hb1 hb2 ht he => ?_⟩
  · rcases update_some hb with ⟨rfl, rfl⟩ | ⟨-, hb⟩
    · exact (hblk blk hk).1
    · exact h.block_lt b' k blk hb hk
  · rcases update_some hb1 with ⟨rfl, rfl⟩ | ⟨hne1, hold1⟩
    · rcases update_some hb2 with ⟨rfl, rfl⟩ | ⟨hne2, hb2⟩
      · rfl
      · exact absurd hk2 ((hblk blk hk1).2 b2 k2 hne2 hb2)
    · rcases update_some hb2 with ⟨rfl, rfl⟩ | ⟨hne2, hb2⟩
      · exact absurd hk1 ((hblk blk hk2).2 b1 k1 hne1 hold1)
      · exact h.block_inj b1 b2 k1 k2 blk hold1 hb2 hk1 hk2
  · rcases update_some hb with ⟨rfl, rfl⟩ | ⟨-, hb⟩
    · exact haway hk
    · exact h.away b' k hb hk
  · rcases update_some hb with ⟨rfl, rfl⟩ | ⟨hne, hb⟩
    · exact ⟨(htoken ht).1, (htoken ht).2.1⟩
    · exact ⟨(h.token b' k hb ht).1, hstored b' k hne hb ht⟩
  · rcases update_some hb1 with ⟨rfl, rfl⟩ | ⟨hne1, hold1⟩
    · rcases update_some hb2 with ⟨rfl, rfl⟩ | ⟨hne2, hb2⟩
      · rfl
      · exact absurd he.symm ((htoken ht).2.2 b2 k2 hne2 hb2)
    · rcases update_some hb2 with ⟨rfl, rfl⟩ | ⟨hne2, hb2⟩
      · exact absurd he ((htoken (he ▸ ht)).2.2 b1 k1 hne1 hold1)
      · exact h.token_inj b1 b2 k1 k2 hold1 hb2 ht he

end Autorun.Guest
