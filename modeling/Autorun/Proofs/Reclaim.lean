import Autorun.Proofs.Residency

namespace Autorun.Guest

open Autorun.Lib Function List

variable {env : Env} {w w' : World}

def KeepsDetached (w w' : World) : Prop :=
  ∀ b k, w.backings b = some k → k.swap.detached = true → w'.backings b = some k

/-- What every call that may swap others out does to the world. -/
structure Reclaimed (w w' : World) : Prop where
  kept : Kept w' none
  swapped : Swapped w w'
  detached : KeepsDetached w w'

theorem Reclaimed.trans (h1 : Reclaimed w1 w2) (h2 : Reclaimed w2 w3) : Reclaimed w1 w3 :=
  ⟨h2.kept, h1.swapped.trans h2.swapped, fun b k hb hd => h2.detached b k (h1.detached b k hb hd) hd⟩

theorem Reclaimed.same (hs : Kept w none) (cursor : Nat) (hlog : Harmless w.log log) :
    Reclaimed w { w with cursor := cursor, log := log } :=
  ⟨{ hs with }, Swapped.of_same rfl (fun _ _ _ => rfl) rfl (fun _ => id) hlog, fun _ _ hb _ => hb⟩

theorem Reclaimed.refl (hs : Kept w none) : Reclaimed w w :=
  Reclaimed.same hs w.cursor (Harmless.refl _)

variable (env : Env)

theorem reclaim_one (hs : Kept w none) (hm : m ∈ w.tree) (hu : m.backing = some b)
    (hb : w.backings b = some k) (hdet : k.swap.detached = false) (htok : k.swap.token = 0)
    (bytes : Nat) : Reclaimed w { (swapOut env w b).2 with storedBytes := bytes } := by
  obtain ⟨addr, swap, hone⟩ := swap_out env hs hb hdet htok hm hu
  refine ⟨{ hone.kept with }, { hone.swapped with }, fun b' k' hb' hd => ?_⟩
  dsimp only
  rw [hone.backings, update_of_ne]
  · exact hb'
  · rintro rfl
    rw [hb] at hb'
    cases hb'
    rw [hdet] at hd
    cases hd

theorem Swapped.mem_tree (hs : Swapped w w') (hm : m ∈ w.tree) :
    ∃ m' ∈ w'.tree, m'.resident = m.resident := by
  have : m.resident ∈ w'.tree.map Mapping.resident := hs.tree ▸ mem_map_of_mem hm
  obtain ⟨m', hm', he⟩ := mem_map.mp this
  exact ⟨m', hm', he⟩

theorem reclaim_walk (size : Nat) (ms : List Mapping) (freed : Nat) (hs : Kept w none)
    (hms : ∀ m ∈ ms, ∃ m' ∈ w.tree, m'.resident = m.resident) :
    Reclaimed w (reclaimWalk env size ms freed w).2.2 := by
  induction ms generalizing freed w with
  | nil => exact Reclaimed.refl hs
  | cons m ms ih =>
    -- every branch goes on from a world that swapping made
    have hnext : ∀ w' freed', Reclaimed w w' →
        Reclaimed w (reclaimWalk env size ms freed' w').2.2 := by
      intro w' freed' hr
      refine hr.trans (ih freed' hr.kept fun x hx => ?_)
      obtain ⟨y, hy, hyx⟩ := hms x (mem_cons_of_mem _ hx)
      obtain ⟨z, hz, hzy⟩ := hr.swapped.mem_tree hy
      exact ⟨z, hz, hzy.trans hyx⟩
    rw [reclaimWalk]
    split
    case isFalse => exact Reclaimed.refl hs
    have hcur := Reclaimed.same hs m.stop (Harmless.refl _)
    cases hback : m.backing with
    | none => exact hnext _ _ hcur
    | some b =>
      dsimp only
      cases hb : w.backings b with
      | none => exact hnext _ _ hcur
      | some k =>
        dsimp only
        split
        · exact hnext _ _ hcur
        rename_i htest
        simp only [Bool.or_eq_true, Bool.not_eq_true', decide_eq_true_eq, not_or, Bool.not_eq_false] at htest
        have hrec := htest.1.1
        simp only [reclaimable, Bool.and_eq_true, Bool.not_eq_true', beq_iff_eq] at hrec
        obtain ⟨m', hm', hres⟩ := hms m (mem_cons_self ..)
        have hout := fun bytes => hcur.trans (reclaim_one env hcur.kept hm'
          ((resident_backing hres).trans hback) hb hrec.1.2 hrec.2 bytes)
        generalize swapOut env { w with cursor := m.stop } b = r at *
        obtain ⟨e, w1⟩ := r
        cases e with
        | some e =>
          dsimp only
          split
          · exact hnext _ _ (hout w1.storedBytes)
          · exact hout w1.storedBytes
        | none =>
          dsimp only
          split
          · exact hout _
          · exact hnext _ _ (hout _)

theorem swap_reclaim (hs : Kept w none) (size : Nat) :
    Reclaimed w (swapReclaim env w size).2 := by
  unfold swapReclaim
  split
  · exact Reclaimed.refl hs
  dsimp only
  have hahead : (if w.cursor = 0 then w.tree else mappings.after w.tree w.cursor).Sublist w.tree := by
    split
    · exact List.Sublist.refl _
    · exact dropWhile_sublist _
  have hfirst := reclaim_walk env size _ 0 hs fun m hm => ⟨m, hahead.subset hm, rfl⟩
  generalize reclaimWalk env size _ 0 w = r at *
  obtain ⟨stop, freed, w1⟩ := r
  cases stop with
  | true => exact hfirst
  | false =>
    have hsecond := reclaim_walk env size (w1.tree.takeWhile (·.addr < w.cursor)) freed
      hfirst.kept fun m hm => ⟨m, (takeWhile_sublist _).subset hm, rfl⟩
    exact hfirst.trans hsecond

/-- A block of heap pages that nothing knows of. -/
structure FreshBlock (w : World) (block : Nat) : Prop where
  lt : block < w.next
  backing : ∀ b k, w.backings b = some k → k.heapAddr ≠ some block
  lent : ∀ q, w.kernel.lentTo block q = none

/-- What an allocation comes to, with or without a block. -/
def Allocated (w : World) (r : Option Nat × World) : Prop :=
  Reclaimed w r.2 ∧ ∀ block, r.1 = some block → FreshBlock r.2 block

theorem Allocated.after (hr : Reclaimed w w1) (ha : Allocated w1 r) : Allocated w r :=
  ⟨hr.trans ha.1, ha.2⟩

theorem alloc_pages (hs : Kept w none) : Allocated w (allocPages env w) := by
  unfold allocPages
  rcases ask_cases env .heapPages w with heq | heq
  · rw [heq]
    have hlt := fun b k blk hb hblk => hs.blocks.block_lt b k blk hb hblk
    refine ⟨⟨?_, Swapped.of_same rfl (fun b k hk => ?_) rfl (fun _ => id) (Harmless.called _ _ _),
      fun _ _ hb _ => hb⟩, fun block hblock => ?_⟩
    · exact { hs with
        blocks := { hs.blocks with block_lt := fun b k blk hb hblk => Nat.lt_succ_of_lt (hlt b k blk hb hblk) }
        fresh := fun blk q hle => hs.fresh blk q (Nat.le_of_succ_le hle) }
    · refine content_congr (fun blk hblk => ?_) fun _ => rfl
      exact update_of_ne (Nat.ne_of_lt (hlt b k blk hk hblk)) ..
    · cases hblock
      exact ⟨Nat.lt_succ_self _, fun b k hk he => Nat.lt_irrefl _ (hlt b k _ hk he),
        fun q => hs.fresh _ q (Nat.le_refl _)⟩
  · rw [heq]
    exact ⟨Reclaimed.same hs w.cursor (Harmless.called _ _ _), by simp⟩

theorem swap_alloc_retry (size tries : Nat) (hs : Kept w none) :
    Allocated w (swapAllocRetry env size tries w) := by
  induction tries generalizing w with
  | zero => exact ⟨Reclaimed.refl hs, by simp [swapAllocRetry]⟩
  | succ tries ih =>
    rw [swapAllocRetry]
    have hrec := swap_reclaim env hs (size * pageSize)
    split
    · rename_i w1 heq
      rw [heq] at hrec
      exact ⟨hrec, by simp⟩
    · rename_i freed w1 hne heq
      rw [heq] at hrec
      have halloc := alloc_pages env hrec.kept
      generalize allocPages env w1 = r at *
      obtain ⟨block, w2⟩ := r
      cases block with
      | some block => exact halloc.after hrec
      | none => exact (ih halloc.1.kept).after (hrec.trans halloc.1)

theorem swap_alloc_memory (size : Nat) (hs : Kept w none) :
    Allocated w (swapAllocMemory env w size) := by
  unfold swapAllocMemory
  have halloc := alloc_pages env hs
  generalize allocPages env w = r at *
  obtain ⟨block, w1⟩ := r
  cases block with
  | some block => exact halloc
  | none => exact (swap_alloc_retry env size (w1.tree.length + 1) halloc.1.kept).after halloc.1

/-- A detached backing whose pages are in the heap. -/
structure Loaded (b : Nat) (k : Backing) (w w' : World) (block : Nat) : Prop where
  kept : Kept w' none
  swapped : Swapped w w'
  self : w'.backings b = some { k with heapAddr := some block }

theorem load_block_cases (w : World) (token block : Nat) :
    (∃ e log, loadBlock env w token block = (some e, { w with log := log }) ∧ Harmless w.log log) ∨
    ∃ data log, w.stored token = some data ∧ Harmless w.log log ∧ loadBlock env w token block =
      (none, { w with heap := update w.heap block data, log := log }) := by
  unfold loadBlock
  rcases ask_cases env .load w with heq | heq
  · rw [heq]
    dsimp only
    cases hst : (w.note (.called .load true)).stored token with
    | none => exact .inl ⟨_, _, rfl, Harmless.called _ _ _⟩
    | some data => exact .inr ⟨data, _, hst, Harmless.called _ _ _, rfl⟩
  · rw [heq]
    exact .inl ⟨_, _, rfl, Harmless.called _ _ _⟩

/-- The pages of a stored backing come back into a block of their own. -/
theorem Reclaimed.load (hr : Reclaimed w w1) (hb : w.backings b = some k)
    (hdet : k.swap.detached = true) (haway : k.heapAddr = none) (hfresh : FreshBlock w1 block)
    (hdata : w1.stored k.swap.token = some data) (hlog : Harmless w1.log log) :
    Loaded b k w (World.setBacking { w1 with
      heap := update w1.heap block data, log := log } b
        fun k => { k with heapAddr := some block }) block := by
  have hb1 := hr.detached b k hb hdet
  have hs := hr.kept
  have htok := hs.blocks.away b k hb1 haway
  have hblocks : Placed (update w1.backings b
      (some { k with heapAddr := some block, swap := k.swap })) w1.stored w1.next := by
    refine hs.blocks.update _ (fun blk hblk => ?_) (by simp)
      (fun _ => ⟨hdet, (hs.blocks.token b k hb1 htok).2, fun b' k' hne hk' he => ?_⟩)
      fun b' k' _ hk' ht => (hs.blocks.token b' k' hk' ht).2
    · cases hblk
      exact ⟨hfresh.lt, fun b' k' _ => hfresh.backing b' k'⟩
    · exact hne (hs.blocks.token_inj b' b k' k hk' hb1 (he ▸ htok) he)
  have hset := hs.set_swap hb1 (some block) k.swap hblocks
    (fun blk q hblk hl => by cases hblk; exact absurd (hfresh.lent q) hl)
    (fun hd => by rw [hdet] at hd; cases hd)
  -- the bytes are in the new block before the backing has it
  have hload : Swapped w1 { w1 with heap := update w1.heap block data, log := log } := by
    refine Swapped.of_same rfl (fun b' k' hk' => ?_) rfl (fun _ => id) hlog
    refine content_congr (fun blk hblk => ?_) fun _ => rfl
    refine update_of_ne (fun he => ?_) ..
    exact hfresh.backing b' k' hk' (he ▸ hblk)
  generalize hw2 : { w1 with heap := update w1.heap block data, log := log } = w2 at *
  have hb2 : w2.backings b = some k := by
    rw [← hw2]
    exact hb1
  rw [set_backing_eq hb2]
  refine ⟨?_, (hr.swapped.trans hload).trans ?_, update_self ..⟩
  · subst hw2
    exact { hset with }
  · refine swapped_set hb2 (some block) k.swap w2.stored w2.log ?_ (fun _ _ _ _ _ => rfl)
      (.inr (.inl haway)) (fun _ _ _ => by omega) (Grown.refl _ _)
    subst hw2
    unfold content
    dsimp only
    rw [haway, update_self, hdata]
    rfl

theorem swap_load (hs : Kept w none) (hb : w.backings b = some k)
    (hdet : k.swap.detached = true) :
    let r := swapLoad env w b k
    (∃ e, r.1 = .error e ∧ Reclaimed w r.2) ∨ ∃ block, r.1 = .ok block ∧ Loaded b k w r.2 block := by
  unfold swapLoad
  cases hblk : k.heapAddr with
  | some block =>
    refine .inr ⟨block, rfl, hs, Swapped.refl w, ?_⟩
    rw [hb, ← hblk]
  | none =>
    obtain ⟨hrec, hfresh⟩ := swap_alloc_memory env k.size hs
    generalize swapAllocMemory env w k.size = r at *
    obtain ⟨block, w1⟩ := r
    cases block with
    | none => exact .inl ⟨_, rfl, hrec⟩
    | some block =>
      have hfresh := hfresh block rfl
      dsimp only at *
      have hb1 := hrec.detached b k hb hdet
      rcases load_block_cases env w1 k.swap.token block with ⟨e, log, heq, hlog⟩ | ⟨data, log, hdata, hlog, heq⟩
      · rw [heq]
        refine .inl ⟨e, rfl, ?_⟩
        -- the new block goes back, and nobody has pages of it
        have hfreed : ((w1.backings b).any fun k => (w1.stored k.swap.token).isSome) = true ∧
            lentRange w1 block k.size = false := by
          have htok := hrec.kept.blocks.away b k hb1 hblk
          have hsome := (hrec.kept.blocks.token b k hb1 htok).2
          refine ⟨by rw [hb1]; exact hsome, any_eq_false.mpr fun q _ => ?_⟩
          simpa using hfresh.lent q
        exact hrec.trans (Reclaimed.same hrec.kept w1.cursor (hlog.cons hfreed))
      · rw [heq]
        exact .inr ⟨block, rfl, hrec.load hb hdet hblk hfresh hdata hlog⟩

/-- The end of `horizon_swap_in`: a backing whose mappings all have their pages
is attached, and its token is given back. -/
theorem swap_attach (hs : Kept w none) (hb : w.backings b = some k) (hblk : k.heapAddr = some block)
    (hatt : ∀ x ∈ w.tree, x.backing = some b → x.swapUnmapped = .attached) :
    let w1 := w.setBacking b fun k => { k with swap := { k.swap with detached := false } }
    let w2 := if k.swap.token ≠ 0 then discardToken w1 b k.swap.token else w1
    let w3 := w2.setBacking b fun k => { k with swap := { k.swap with token := 0 } }
    w3.tree = w.tree ∧ Kept w3 none ∧ Swapped w w3 := by
  intro w1 w2 w3
  have hkeep : ∀ stored', (∀ b' k', b' ≠ b → w.backings b' = some k' → k'.swap.token ≠ 0 →
      stored' k'.swap.token = w.stored k'.swap.token) →
      Kept { w with
        backings := update w.backings b (some { k with heapAddr := k.heapAddr, swap := {} })
        stored := stored' } none := by
    intro stored' hsame
    refine hs.set_swap hb k.heapAddr {} ?_ (fun _ _ hblk' _ => hblk') (fun _ _ => hatt)
    refine hs.blocks.update _ (fun blk hblk' => ?_) (by simp [hblk]) (by simp)
      fun b' k' hne hk' ht => ?_
    · refine ⟨hs.blocks.block_lt b k blk hb hblk', fun b' k' hne hk' hblk'' => ?_⟩
      exact hne (hs.blocks.block_inj b' b k' k blk hk' hb hblk'' hblk')
    · rw [hsame b' k' hne hk' ht]
      exact (hs.blocks.token b' k' hk' ht).2
  have hcontent : ∀ stored', content { w with stored := stored' }
      { k with heapAddr := k.heapAddr, swap := {} } = content w k := fun stored' => by
    unfold content
    rw [hblk]
  have hw1 : w1 = { w with
      backings := update w.backings b (some { k with swap := { k.swap with detached := false } }) } :=
    set_backing_eq hb _
  by_cases htok : k.swap.token = 0
  · have hw3 : w3 = _ := (congrArg (World.setBacking · b _)
      ((if_neg (not_not.mpr htok) : w2 = w1).trans hw1)).trans (set_backing_again rfl _)
    rw [hw3]
    refine ⟨rfl, hkeep w.stored fun _ _ _ _ _ => rfl, ?_⟩
    refine swapped_set hb k.heapAddr {} w.stored w.log (hcontent _) (fun _ _ _ _ _ => rfl)
      (.inl rfl) (fun b' t _ => ?_) (Grown.refl _ _)
    rw [htok]
    dsimp only
    omega
  · have hw3 : w3 = _ := (congrArg (World.setBacking · b _)
      ((if_pos htok : w2 = discardToken w1 b k.swap.token).trans
        (congrArg (discardToken · b k.swap.token) hw1))).trans (set_backing_again rfl _)
    rw [hw3]
    have hsame : ∀ b' k', b' ≠ b → w.backings b' = some k' → k'.swap.token ≠ 0 →
        update w.stored k.swap.token none k'.swap.token = w.stored k'.swap.token :=
      fun b' k' hne hk' ht => update_of_ne
        (fun he => hne (hs.blocks.token_inj b' b k' k hk' hb ht he)) ..
    have hmapped : (w.tree.all fun m => !m.uses b || m.swapUnmapped == SwapUnmapped.attached) = true := by
      refine all_eq_true.mpr fun m hm => ?_
      by_cases hu : m.backing = some b
      · simp [hatt m hm hu]
      · simp [Mapping.uses, hu]
    refine ⟨rfl, { hkeep (update w.stored k.swap.token none) hsame with }, ?_⟩
    refine swapped_set hb k.heapAddr {} (update w.stored k.swap.token none) _ (hcontent _)
      (fun b' k' hne hk' haway => hsame b' k' hne hk' (hs.blocks.away b' k' hk' haway)) (.inl rfl)
      (fun b' t ht => ?_) ((Grown.refl _ _).cons hmapped)
    have hd' := discards_discarded b' t b k.swap.token
      (w.tree.all fun m => !m.uses b || m.swapUnmapped == SwapUnmapped.attached) w.log
    change saves b' t w.log + _ + _ = discards b' t (.discarded b k.swap.token _ :: w.log) + _ + _
    rw [hd']
    rw [if_neg (show ¬(b' = b ∧ 0 = t) from fun hc => ht hc.2.symm)]
    omega

theorem swap_in (hs : Kept w none) (hb : w.backings b = some k)
    (hdet : k.swap.detached = true) :
    let r := swapIn env w b
    Kept r.2 none ∧ Swapped w r.2 ∧
      (r.1 = none → ∀ x ∈ r.2.tree, x.backing = some b → x.swapUnmapped = .attached) := by
  unfold swapIn
  rw [hb]
  dsimp only
  rw [hdet]
  simp only [Bool.not_true, Bool.false_eq_true, ↓reduceIte]
  rcases swap_load env hs hb hdet with ⟨e, he, hrec⟩ | ⟨block, he, hload⟩
  · generalize swapLoad env w b k = r at *
    obtain ⟨e', w1⟩ := r
    subst he
    exact ⟨hrec.kept, hrec.swapped, by simp⟩
  · generalize swapLoad env w b k = r at *
    obtain ⟨e', w1⟩ := r
    subst he
    dsimp only
    obtain ⟨hturn, hdone⟩ := swap_map_memory env k hload.kept hload.self rfl rfl rfl (.inr hdet)
    generalize swapMapMemory env w1 b k block = r at *
    obtain ⟨e, w2⟩ := r
    have hsw := hload.swapped.trans hturn.swapped
    cases e with
    | some e => exact ⟨hturn.kept, hsw, by simp⟩
    | none =>
      have hself : w2.backings b = some { k with heapAddr := some block } := hturn.backings ▸ hload.self
      obtain ⟨htree, hkept, hatt⟩ := swap_attach hturn.kept hself rfl (hdone rfl)
      exact ⟨hkept, hsw.trans hatt, fun _ x hx hu => hdone rfl x (htree ▸ hx) hu⟩

end Autorun.Guest
