import Autorun.Proofs.Invariant

namespace Autorun.Guest

open Autorun.Lib Function

variable {env : Env} {w w' : World} {mv : Option Nat}

theorem ask_cases (env : Env) (c : Call) (w : World) :
    ask env c w = (true, w.note (.called c true)) ∨ ask env c w = (false, w.note (.called c false)) := by
  unfold ask
  cases env.refuses c w.moment with
  | false => exact .inl rfl
  | true => exact .inr rfl

theorem svc_cases (env : Env) (c : Call) (f : Kernel → Option Kernel) (w : World) :
    svc env c f w = (false, w.note (.called c false)) ∨
    ∃ k, f w.kernel = some k ∧
      svc env c f w = (true, { w with kernel := k }.note (.called c true)) := by
  unfold svc
  split
  · exact .inl rfl
  · rename_i k hk
    refine .inr ⟨k, ?_, rfl⟩
    split at hk
    · cases hk
    · exact hk

/-- A log that has grown by events of a kind. -/
def Grown (P : Event → Prop) (log log' : List Event) : Prop :=
  ∃ new, log' = new ++ log ∧ ∀ e ∈ new, P e

namespace Grown

variable {P Q : Event → Prop}

theorem refl (P : Event → Prop) (log : List Event) : Grown P log log := ⟨[], rfl, by simp⟩

theorem trans (h1 : Grown P l1 l2) (h2 : Grown P l2 l3) : Grown P l1 l3 := by
  obtain ⟨new1, rfl, hnew1⟩ := h1
  obtain ⟨new2, rfl, hnew2⟩ := h2
  refine ⟨new2 ++ new1, by rw [List.append_assoc], fun e he => ?_⟩
  exact (List.mem_append.mp he).elim (hnew2 e) (hnew1 e)

theorem cons (hl : Grown P log log') (he : P e) : Grown P log (e :: log') :=
  hl.trans ⟨[e], rfl, fun _ hx => List.mem_singleton.mp hx ▸ he⟩

theorem mono (hl : Grown P log log') (hPQ : ∀ e, P e → Q e) : Grown Q log log' := by
  obtain ⟨new, rfl, hnew⟩ := hl
  exact ⟨new, rfl, fun e he => hPQ e (hnew e he)⟩

end Grown

/-- An event that tells of no token, and of no page that was still needed. -/
def Tokenless : Event → Prop
  | .saved .. => False
  | .discarded .. => False
  | .freed _ _ lent saved => saved = true ∧ lent = false
  | _ => True

def Harmless (log log' : List Event) : Prop := Grown Tokenless log log'

theorem Harmless.refl (log : List Event) : Harmless log log := Grown.refl _ log

theorem Harmless.one (log : List Event) (he : Tokenless e) : Harmless log (e :: log) :=
  (Grown.refl _ log).cons he

theorem Harmless.called (log : List Event) (c : Call) (accepted : Bool) :
    Harmless log (.called c accepted :: log) := Harmless.one log trivial

theorem set_backing_eq (hb : w.backings b = some k) (f : Backing → Backing) :
    w.setBacking b f = { w with backings := update w.backings b (some (f k)) } := by
  unfold World.setBacking
  rw [hb]
  rfl

theorem set_backing_again (hw : w.backings = update old b (some k)) (f : Backing → Backing) :
    w.setBacking b f = { w with backings := update old b (some (f k)) } := by
  unfold World.setBacking
  rw [hw, update_self, update_idem]
  rfl

theorem addr_unique (hs : mappings.Sorted tree) (hm : m ∈ tree) (hx : x ∈ tree)
    (ha : x.addr = m.addr) : x = m := by
  have hne := hs.nonempty m hm
  have hne' := hs.nonempty x hx
  exact hs.unique (p := m.addr) hx hm ⟨Nat.le_of_eq ha, ha ▸ hne'⟩ ⟨Nat.le_refl _, hne⟩

/-- The tree after where the pages of one mapping are has changed. -/
theorem mem_retag (state : SwapUnmapped) (hs : mappings.Sorted tree) (hm : m ∈ tree) :
    x ∈ (tree.map fun y => if y.addr = m.addr then { y with swapUnmapped := state } else y) ↔
      x = { m with swapUnmapped := state } ∨ x ∈ tree ∧ x.addr ≠ m.addr := by
  rw [List.mem_map]
  constructor
  · rintro ⟨y, hy, rfl⟩
    by_cases ha : y.addr = m.addr
    · rw [if_pos ha, addr_unique hs hm hy ha]
      exact .inl rfl
    · rw [if_neg ha]
      exact .inr ⟨hy, ha⟩
  · rintro (rfl | ⟨hx, ha⟩)
    · exact ⟨m, hm, if_pos rfl⟩
    · exact ⟨x, hx, if_neg ha⟩

/-- The pages of a mapping, if any are lent, are lent for it alone: where its
pages are can change. -/
theorem Kept.retag (hs : Kept w mv) (hb : w.backings b = some k)
    (hfree : mv = some b ∨ k.swap.detached = true ∨ state = .attached) (hm : m ∈ w.tree)
    (hu : m.backing = some b)
    (hcov : ∀ blk q, k.heapAddr = some blk → w.kernel.lentTo blk q ≠ none → m.Covers b q →
      state ≠ .unmapped) :
    Kept (w.setMapping m.addr fun m => { m with swapUnmapped := state }) mv := by
  have hmem := fun x => mem_retag (x := x) state hs.sorted hm
  refine { hs with
    sorted := hs.sorted.map _ (fun x => by split <;> rfl) (fun x => by split <;> rfl)
    backed := fun x hx b' hu' => ?_
    lent := fun b' k' blk q hk' hblk hl hused => ?_
    attached := fun b' k' hk' hd hnot x hx hu' => ?_ }
  · rcases (hmem x).mp hx with rfl | ⟨hx, -⟩
    · exact hs.backed m hm b' hu'
    · exact hs.backed x hx b' hu'
  · have hold : ∃ x ∈ w.tree, x.backing = some b' := by
      obtain ⟨x, hx, hu'⟩ := hused
      rcases (hmem x).mp hx with rfl | ⟨hx, -⟩
      · exact ⟨m, hm, hu'⟩
      · exact ⟨x, hx, hu'⟩
    obtain ⟨x, hx, hc⟩ := hs.lent b' k' blk q hk' hblk hl hold
    by_cases ha : x.addr = m.addr
    · have hxm := addr_unique hs.sorted hm hx ha
      subst hxm
      have hbb := Option.some.inj (hc.1.symm.trans hu)
      subst hbb
      have hkk := Option.some.inj (hb.symm.trans hk')
      subst hkk
      exact ⟨_, (hmem _).mpr (.inl rfl), hc.1, hcov blk q hblk hl hc, hc.2.2⟩
    · exact ⟨x, (hmem x).mpr (.inr ⟨hx, ha⟩), hc⟩
  · rcases (hmem x).mp hx with rfl | ⟨hx, -⟩
    · have hbb := Option.some.inj (hu.symm.trans hu')
      subst hbb
      have hkk := Option.some.inj (hb.symm.trans hk')
      subst hkk
      rcases hfree with hmov | hdet | hst
      · exact absurd hmov hnot
      · rw [hd] at hdet
        cases hdet
      · exact hst
    · exact hs.attached b' k' hk' hd hnot x hx hu'

theorem Kept.lend (hs : Kept w mv) (hb : w.backings b = some k) (hblk : k.heapAddr = some block)
    (hm : m ∈ w.tree) (hu : m.backing = some b) (hst : m.swapUnmapped ≠ .unmapped)
    (hk : w.kernel.mapCode dst block m.sourceOffset m.size = some k1) :
    Kept { w with kernel := k1 } mv := by
  obtain ⟨-, -, hlent⟩ := Kernel.map_code_some hk
  refine { hs with
    fresh := fun blk q hle => ?_
    lent := fun b' k' blk q hk' hblk' hl hused => ?_ }
  · have := hs.blocks.block_lt b k block hb hblk
    dsimp only at hle ⊢
    rw [hlent, Kernel.lend, if_neg (by omega)]
    exact hs.fresh blk q hle
  · dsimp only at hl
    rw [hlent, Kernel.lend] at hl
    split at hl
    · rename_i hin
      have hbb := hs.blocks.block_inj b' b k' k block hk' hb (hin.1 ▸ hblk') hblk
      exact ⟨m, hm, hbb ▸ hu, hst, hin.2⟩
    · exact hs.lent b' k' blk q hk' hblk' hl hused

theorem Kept.unlend (hs : Kept w mv) (hk : w.kernel.unmapCode dst block page count = some k1) :
    Kept { w with kernel := k1 } mv := by
  obtain ⟨-, -, hlent⟩ := Kernel.unmap_code_some hk
  have hold : ∀ blk q, w.kernel.lentTo blk q = none → k1.lentTo blk q = none := by
    intro blk q hnone
    rw [hlent, Kernel.lend]
    split
    · rfl
    · exact hnone
  exact { hs with
    fresh := fun blk q hle => hold blk q (hs.fresh blk q hle)
    lent := fun b k blk q hb hblk hl => hs.lent b k blk q hb hblk (mt (hold blk q) hl) }

theorem Kept.set_swap (hs : Kept w mv) (hb : w.backings b = some k) (addr : Option Nat)
    (swap : SwapEntry)
    (hblocks : Placed (update w.backings b (some { k with heapAddr := addr, swap := swap }))
      stored' w.next)
    (hlent : ∀ blk q, addr = some blk → w.kernel.lentTo blk q ≠ none → k.heapAddr = some blk)
    (hatt : swap.detached = false → mv ≠ some b → ∀ m ∈ w.tree, m.backing = some b →
      m.swapUnmapped = .attached) :
    Kept { w with
      backings := update w.backings b (some { k with heapAddr := addr, swap := swap })
      stored := stored' } mv := by
  refine { hs with
    backed := fun m hm b' hu => ?_
    blocks := hblocks
    lent := fun b' k' blk q hk' hblk hl => ?_
    attached := fun b' k' hk' hd hnot m hm hu => ?_ }
  · obtain ⟨k', hk', hin⟩ := hs.backed m hm b' hu
    by_cases he : b' = b
    · subst he
      have hkk := Option.some.inj (hb.symm.trans hk')
      subst hkk
      exact ⟨_, update_self .., hin⟩
    · exact ⟨k', (update_of_ne he ..).trans hk', hin⟩
  · rcases update_some hk' with ⟨rfl, rfl⟩ | ⟨-, hk'⟩
    · exact hs.lent b' k blk q hb (hlent blk q hblk hl) hl
    · exact hs.lent b' k' blk q hk' hblk hl
  · rcases update_some hk' with ⟨rfl, rfl⟩ | ⟨-, hk'⟩
    · exact hatt hd hnot m hm hu
    · exact hs.attached b' k' hk' hd hnot m hm hu

theorem Kept.moving (hs : Kept w none) (b : Nat) : Kept w (some b) :=
  { hs with attached := fun b' k hk hd _ => hs.attached b' k hk hd (by simp) }

theorem Kept.settled (hs : Kept w (some b))
    (hatt : ∀ k, w.backings b = some k → k.swap.detached = false → ∀ m ∈ w.tree,
      m.backing = some b → m.swapUnmapped = .attached) : Kept w none := by
  refine { hs with attached := fun b' k hk hd _ => ?_ }
  by_cases he : b = b'
  · subst he
    exact hatt k hk hd
  · exact hs.attached b' k hk hd (by simp [he])

end Autorun.Guest
