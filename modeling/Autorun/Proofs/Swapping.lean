import Autorun.Lib.Run
import Autorun.Proofs.Reclaim

namespace Autorun.Guest

open Autorun.Lib List

variable {env : Env} {w w' : World}

inductive SwapCall where
  | swapOut
  | swapIn
  deriving DecidableEq, Repr

/-- One call. As `swap_reclaim_locked` has it, only an entry that is attached
and has no token is swapped out. -/
def swapStep (env : Env) (b : Nat) (w : World) : SwapCall → World
  | .swapOut =>
    if (w.backings b).any fun k => !k.swap.detached && k.swap.token == 0 then (swapOut env w b).2 else w
  | .swapIn => (swapIn env w b).2

/-- What any number of such calls has kept. -/
structure SwapKept (w w' : World) : Prop where
  kept : Kept w' none
  swapped : Swapped w w'

theorem Swapped.used (hs : Swapped w w') (hm : m ∈ w.tree) (hu : m.backing = some b) :
    ∃ m' ∈ w'.tree, m'.backing = some b := by
  obtain ⟨m', hm', he⟩ := hs.mem_tree hm
  exact ⟨m', hm', (resident_backing he).trans hu⟩

theorem swap_in_kept (env : Env) (hs : Kept w none) (hm : m ∈ w.tree) (hu : m.backing = some b) :
    let r := swapIn env w b
    Kept r.2 none ∧ Swapped w r.2 ∧
      (r.1 = none → ∀ x ∈ r.2.tree, x.backing = some b → x.swapUnmapped = .attached) := by
  obtain ⟨k, hb, -⟩ := hs.backed m hm b hu
  cases hdet : k.swap.detached with
  | true => exact swap_in env hs hb hdet
  | false =>
    have hw : swapIn env w b = (none, w) := by
      unfold swapIn
      rw [hb]
      simp [hdet]
    rw [hw]
    exact ⟨hs, Swapped.refl w, fun _ => hs.attached b k hb hdet (by simp)⟩

theorem swap_step_kept (hm : m ∈ w.tree) (hu : m.backing = some b) (w' : World) (c : SwapCall)
    (hk : SwapKept w w') : SwapKept w (swapStep env b w' c) := by
  obtain ⟨m', hm', hu'⟩ := hk.swapped.used hm hu
  obtain ⟨k, hb, -⟩ := hk.kept.backed m' hm' b hu'
  cases c with
  | swapOut =>
    simp only [swapStep]
    split
    · rename_i htest
      rw [hb] at htest
      simp only [Option.any_some, Bool.and_eq_true, Bool.not_eq_true', beq_iff_eq] at htest
      obtain ⟨addr, swap, hone⟩ := swap_out env hk.kept hb htest.1 htest.2 hm' hu'
      exact ⟨hone.kept, hk.swapped.trans hone.swapped⟩
    · exact hk
  | swapIn =>
    obtain ⟨hkept, hsw, -⟩ := swap_in_kept env hk.kept hm' hu'
    exact ⟨hkept, hk.swapped.trans hsw⟩

theorem swap_run_kept (env : Env) (hs : Kept w none) (hm : m ∈ w.tree) (hu : m.backing = some b)
    (calls : List SwapCall) : SwapKept w (run (swapStep env b) w calls) :=
  run_invariant (P := SwapKept w) (swap_step_kept hm hu) ⟨hs, Swapped.refl w⟩ calls

/-- A token the log tells of is one that was given back, or the one there is. -/
theorem Swapped.token_count (hs : Swapped w w') (hb : w.backings b = some k) (hk : k.swap.token = 0)
    (hb' : w'.backings b = some k') (hlog : w'.log = new ++ w.log) (ht : t ≠ 0) :
    saves b t new = discards b t new + if k'.swap.token = t then 1 else 0 := by
  have hbal := hs.tokens b t ht
  have hbefore : holds w.backings b t = 0 := by
    simp [holds, hb, hk, Ne.symm ht]
  have hafter : holds w'.backings b t = if k'.swap.token = t then 1 else 0 := by
    simp [holds, hb']
  rw [hbefore, hafter, hlog] at hbal
  unfold saves discards at *
  rw [countP_append, countP_append] at hbal
  omega

/-- What the guest finds in the pages of a backing. -/
def SeenBy (w : World) (b : Nat) (data : Nat → Page) : Prop :=
  ∀ m ∈ w.tree, m.backing = some b → ∀ p, mappings.Has m p → ∃ e, w.kernel.pages p = some e ∧
    e.perm = getHorizonPerm m.prot ∧ w.heap e.block e.page = data (m.sourceOffset + (p - m.addr))

/-- An entry that is shown and attached is seen with its bytes. -/
theorem Shown.seen (hsh : Shown w b) (hb : w.backings b = some k)
    (hatt : ∀ x ∈ w.tree, x.backing = some b → x.swapUnmapped = .attached) :
    SeenBy w b (content w k) := by
  intro m hm hu p hp
  have hst := hatt m hm hu
  obtain ⟨block, hblk, hall⟩ := hsh k hb m hm hu (by rw [hst]; simp)
  obtain ⟨perm, hpte, hperm⟩ := hall p hp
  refine ⟨_, hpte, hperm hst, ?_⟩
  unfold content
  rw [hblk]

/-- Whatever fails in any number of swaps of a backing, its bytes stay in its
heap block or under its token, heap pages go back to the heap only when they are
stored and not lent, each token is given back once and not before every mapping
has its pages, and when the backing comes back the guest sees its bytes again. -/
theorem swapped_data_kept (env : Env) (hs : Kept w none) (hb : w.backings b = some k)
    (hattached : k.swap.detached = false) (hm : m ∈ w.tree) (hu : m.backing = some b)
    (hsh : Shown w b) (calls : List SwapCall) :
    let w' := run (swapStep env b) w calls
    (∃ k' new, w'.backings b = some k' ∧ w'.log = new ++ w.log ∧
      (∀ block, k'.heapAddr = some block → w'.heap block = content w k) ∧
      (k'.heapAddr = none → k'.swap.token ≠ 0 ∧ w'.stored k'.swap.token = some (content w k)) ∧
      (∀ block count lent saved, .freed block count lent saved ∈ new → saved = true ∧ lent = false) ∧
      (∀ t, t ≠ 0 → saves b t new = discards b t new + if k'.swap.token = t then 1 else 0) ∧
      ∀ b' t mapped, .discarded b' t mapped ∈ new → mapped = true) ∧
    ((swapIn env w' b).1 = none → SeenBy (swapIn env w' b).2 b (content w k)) := by
  intro w'
  have htok : k.swap.token = 0 := by
    by_contra ht
    have := (hs.blocks.token b k hb ht).1
    rw [hattached] at this
    cases this
  have hk : SwapKept w w' := swap_run_kept env hs hm hu calls
  obtain ⟨k', hb'⟩ := hk.swapped.live b k hb
  have hcontent : content w' k' = content w k := hk.swapped.content b k k' hb hb'
  obtain ⟨new, hlog, hnew⟩ := hk.swapped.log
  refine ⟨⟨k', new, hb', hlog, fun block hblk => ?_, fun haway => ?_, fun block count lent saved he => ?_,
    fun t ht => hk.swapped.token_count hb htok hb' hlog ht, fun b' t mapped he => hnew _ he⟩,
    fun hnone => ?_⟩
  · rw [← hcontent, content, hblk]
  · have ht := hk.kept.blocks.away b k' hb' haway
    obtain ⟨data, hdata⟩ := Option.isSome_iff_exists.mp (hk.kept.blocks.token b k' hb' ht).2
    refine ⟨ht, ?_⟩
    rw [← hcontent, content, haway, hdata]
    rfl
  · exact hnew _ he
  · obtain ⟨m', hm', hu'⟩ := hk.swapped.used hm hu
    obtain ⟨-, hsw, hatt⟩ := swap_in_kept env hk.kept hm' hu'
    have hall := hk.swapped.trans hsw
    obtain ⟨k'', hb''⟩ := hall.live b k hb
    rw [← hall.content b k k'' hb hb'']
    exact (hall.shown b hsh).seen hb'' (hatt hnone)

/-- A mapping of one page, backed by block 1. -/
def onePage : World where
  tree := [{ addr := 16, size := 1, prot := readWrite, backing := some 0 }]
  backings := Function.update (fun _ => none) 0 (some
    { heapAddr := some 1, codeAddr := 16, size := 1, swapPrivate := true })
  heap := fun _ _ _ => 7
  kernel :=
    { pages := fun p => if p = 16 then some ⟨1, 0, .rw, .code⟩ else none
      lentTo := fun b q => if b = 1 ∧ q = 0 then some 16 else none }
  aliasBits := fun b q => decide (b = 1 ∧ q = 0)
  stored := fun _ => none
  storedBytes := 0
  capacity := 1048576
  swapActive := true
  cursor := 0
  pins := []
  locks := []
  faultIndex := fun _ => false
  next := 2
  log := []

theorem one_page_backing (hb : onePage.backings b = some k) : b = 0 ∧ k =
    { heapAddr := some 1, codeAddr := 16, size := 1, swapPrivate := true } := by
  unfold onePage Function.update at hb
  by_cases he : b = 0
  · simp only [he, ↓reduceDIte, eq_rec_constant, Option.some.injEq] at hb
    exact ⟨he, hb.symm⟩
  · simp [he] at hb

theorem one_page_lent (hl : onePage.kernel.lentTo blk q ≠ none) : blk = 1 ∧ q = 0 := by
  by_contra hne
  exact hl (if_neg hne)

theorem one_page_mapping (hm : m ∈ onePage.tree) :
    m = { addr := 16, size := 1, prot := readWrite, backing := some 0 } := mem_singleton.mp hm

theorem one_page_placed : Placed onePage.backings onePage.stored onePage.next := by
  refine ⟨fun b k blk hb hblk => ?_, fun b b' k k' blk hb hb' _ _ => ?_, fun b k hb hn => ?_,
    fun b k hb ht => ?_, fun b b' k k' hb hb' _ _ => ?_⟩
  · obtain ⟨rfl, rfl⟩ := one_page_backing hb
    cases hblk
    decide
  · rw [(one_page_backing hb).1, (one_page_backing hb').1]
  · obtain ⟨rfl, rfl⟩ := one_page_backing hb
    cases hn
  · obtain ⟨rfl, rfl⟩ := one_page_backing hb
    exact absurd rfl ht
  · rw [(one_page_backing hb).1, (one_page_backing hb').1]

theorem one_page_kept : Kept onePage none where
  sorted := ⟨by simp [onePage, mappings, Mapping.stop], by simp [onePage]⟩
  backed := by
    rintro m hm b hb
    cases one_page_mapping hm
    cases hb
    exact ⟨_, rfl, rfl, by decide⟩
  blocks := one_page_placed
  fresh := by
    intro blk q hle
    by_contra hl
    have := (one_page_lent hl).1
    subst this
    exact absurd hle (by decide)
  lent := by
    intro b k blk q hb _ hl _
    obtain ⟨rfl, rfl⟩ := one_page_backing hb
    obtain ⟨-, rfl⟩ := one_page_lent hl
    exact ⟨_, mem_singleton.mpr rfl, rfl, by decide, by decide, by decide⟩
  attached := by
    intro b k _ _ _ m hm _
    cases one_page_mapping hm
    rfl

theorem one_page_shown : Shown onePage 0 := by
  intro k hk m hm _ _
  obtain ⟨-, rfl⟩ := one_page_backing hk
  cases one_page_mapping hm
  refine ⟨1, rfl, fun p hp => ⟨.rw, ?_, fun _ => rfl⟩⟩
  have : p = 16 := by
    simp only [Ranges.Has, mappings, Mapping.stop] at hp
    omega
  subst this
  rfl

/-- An environment in which the calls at the moments listed are refused. -/
def refusing (moments : List Nat) : Env where
  refuses := fun _ n => moments.contains n
  saveError := fun _ => .io
  loadError := fun _ => .io
  outOfTime := fun _ => false
  token := fun n => n + 1
  fresh := fun _ _ => zeroPage
  indexed := fun _ => 0

/-- The page is stored, a load of it is refused, and the next one succeeds. -/
theorem swapped_data_kept_refused_load :
    let w := run (swapStep (refusing [6]) 0) onePage [.swapOut, .swapIn]
    (swapIn (refusing [6]) w 0).1 = none ∧ (w.backings 0).any (·.heapAddr.isNone) = true ∧
      ∃ e, (swapIn (refusing [6]) w 0).2.kernel.pages 16 = some e ∧ e.perm = .rw ∧
        (swapIn (refusing [6]) w 0).2.heap e.block e.page = fun _ => 7 := by
  intro w
  have hnone : (swapIn (refusing [6]) w 0).1 = none := by decide +kernel
  have hm : { addr := 16, size := 1, prot := readWrite, backing := some 0 } ∈
      (swapIn (refusing [6]) w 0).2.tree := by decide +kernel
  obtain ⟨-, hseen⟩ := swapped_data_kept (refusing [6]) one_page_kept rfl rfl
    (mem_singleton.mpr rfl) rfl one_page_shown [.swapOut, .swapIn]
  obtain ⟨e, he, hperm, hdata⟩ := hseen hnone _ hm rfl 16 (by decide)
  exact ⟨hnone, by decide +kernel, e, he, hperm, hdata⟩

end Autorun.Guest
