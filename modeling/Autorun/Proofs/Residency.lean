import Autorun.Proofs.Primitives

namespace Autorun.Guest

open Autorun.Lib Function List

variable {env : Env} {w w' : World} {mv : Option Nat}

def Mapping.resident (m : Mapping) : Mapping := { m with swapUnmapped := .attached }

theorem resident_addr {m m' : Mapping} (he : m'.resident = m.resident) : m'.addr = m.addr := by
  have := congrArg Mapping.addr he
  exact this

theorem resident_backing {m m' : Mapping} (he : m'.resident = m.resident) :
    m'.backing = m.backing := by
  have := congrArg Mapping.backing he
  exact this

/-- Two trees that differ in where the pages of the mappings at some addresses
are. -/
structure Retagged (addrs : List Nat) (tree tree' : List Mapping) : Prop where
  resident : tree'.map Mapping.resident = tree.map Mapping.resident
  outside : ∀ x ∈ tree', x.addr ∉ addrs → x ∈ tree

namespace Retagged

theorem refl (addrs : List Nat) (tree : List Mapping) : Retagged addrs tree tree :=
  ⟨rfl, fun _ hx _ => hx⟩

theorem trans (h1 : Retagged as t1 t2) (h2 : Retagged bs t2 t3) : Retagged (as ++ bs) t1 t3 := by
  refine ⟨h2.resident.trans h1.resident, fun x hx hn => ?_⟩
  simp only [mem_append, not_or] at hn
  exact h1.outside x (h2.outside x hx hn.2) hn.1

theorem mem (ht : Retagged addrs tree tree') (hm : m ∈ tree) :
    ∃ m' ∈ tree', m'.resident = m.resident := by
  have : m.resident ∈ tree'.map Mapping.resident := ht.resident ▸ mem_map_of_mem hm
  obtain ⟨m', hm', he⟩ := mem_map.mp this
  exact ⟨m', hm', he⟩

theorem of_mem (ht : Retagged addrs tree tree') (hm : m' ∈ tree') :
    ∃ m ∈ tree, m'.resident = m.resident := by
  have : m'.resident ∈ tree.map Mapping.resident := ht.resident ▸ mem_map_of_mem hm
  obtain ⟨m, hm, he⟩ := mem_map.mp this
  exact ⟨m, hm, he.symm⟩

theorem keeps (ht : Retagged addrs tree tree') (hs : mappings.Sorted tree) (hm : m ∈ tree)
    (hn : m.addr ∉ addrs) : m ∈ tree' := by
  obtain ⟨m', hm', he⟩ := ht.mem hm
  have haddr := resident_addr he
  have hold := ht.outside m' hm' (haddr ▸ hn)
  have hne := hs.nonempty m hm
  have hne' := hs.nonempty m' hold
  rw [hs.unique (p := m.addr) hm hold ⟨Nat.le_refl _, hne⟩ ⟨Nat.le_of_eq haddr, haddr ▸ hne'⟩]
  exact hm'

theorem one (tree : List Mapping) (addr : Nat) (state : SwapUnmapped) :
    Retagged [addr] tree
      (tree.map fun m => if m.addr = addr then { m with swapUnmapped := state } else m) := by
  refine ⟨?_, fun x hx hn => ?_⟩
  · rw [map_map]
    refine map_congr_left fun m _ => ?_
    simp only [Function.comp]
    split <;> rfl
  · obtain ⟨m, hm, rfl⟩ := mem_map.mp hx
    by_cases ha : m.addr = addr
    · rw [if_pos ha] at hn
      exact absurd (mem_singleton.mpr ha) hn
    · rw [if_neg ha]
      exact hm

end Retagged

/-- What the kernel has to show of a mapping that is not unmapped: the pages of
its backing's heap block, and under its protection once it is attached. -/
def Mapping.ShownBy (pages : Nat → Option Pte) (addr : Option Nat) (m : Mapping) : Prop :=
  m.swapUnmapped ≠ .unmapped → ∃ block, addr = some block ∧ ∀ p, mappings.Has m p → ∃ perm,
    pages p = some ⟨block, m.sourceOffset + (p - m.addr), perm, .code⟩ ∧
      (m.swapUnmapped = .attached → perm = getHorizonPerm m.prot)

/-- The kernel shows every mapping of a backing. -/
def Shown (w : World) (b : Nat) : Prop :=
  ∀ k, w.backings b = some k → ∀ m ∈ w.tree, m.backing = some b →
    m.ShownBy w.kernel.pages k.heapAddr

/-- A step that changes one mapping and its pages leaves the others shown. -/
theorem shown_step (hs : mappings.Sorted w.tree) (hm : m ∈ w.tree)
    (htree : Retagged [m.addr] w.tree w'.tree) (hback : w'.backings = w.backings)
    (hpages : ∀ p, ¬mappings.Has m p → w'.kernel.pages p = w.kernel.pages p)
    (hself : ∀ b k, w.backings b = some k → m.backing = some b →
      m.ShownBy w.kernel.pages k.heapAddr → ∀ x ∈ w'.tree, x.addr = m.addr →
        x.ShownBy w'.kernel.pages k.heapAddr) (b : Nat) (hsh : Shown w b) : Shown w' b := by
  intro k hk x hx hu
  rw [hback] at hk
  by_cases ha : x.addr = m.addr
  · obtain ⟨y, hy, he⟩ := htree.of_mem hx
    have hym : y = m := addr_unique hs hm hy ((resident_addr he).symm.trans ha)
    subst hym
    have hub := (resident_backing he).symm.trans hu
    exact hself b k hk hub (hsh k hk y hm hub) x hx ha
  · have hx0 : x ∈ w.tree := htree.outside x hx (by simpa using ha)
    intro hst
    obtain ⟨block, hblk, hall⟩ := hsh k hk x hx0 hu hst
    refine ⟨block, hblk, fun p hp => ?_⟩
    rw [hpages p fun hmp => ha (congrArg Mapping.addr (hs.unique hx0 hm hp hmp))]
    exact hall p hp

theorem retag_at (state : SwapUnmapped) (hs : mappings.Sorted tree) (hm : m ∈ tree)
    (hx : x ∈ tree.map fun y => if y.addr = m.addr then { y with swapUnmapped := state } else y)
    (ha : x.addr = m.addr) : x = { m with swapUnmapped := state } :=
  ((mem_retag state hs hm).mp hx).resolve_right fun hold => hold.2 ha

/-- What a turn of a walk over the mappings of a backing leaves. -/
structure Turned (mv : Option Nat) (addrs : List Nat) (w w' : World) : Prop where
  only : ∃ tree k bits index log, w' =
    { w with tree := tree, kernel := k, aliasBits := bits, faultIndex := index, log := log } ∧
      Harmless w.log log
  tree : Retagged addrs w.tree w'.tree
  kept : Kept w' mv
  shown : ∀ b, Shown w b → Shown w' b

theorem Turned.trans (h1 : Turned mv' as w1 w2) (h2 : Turned mv bs w2 w3) :
    Turned mv (as ++ bs) w1 w3 := by
  refine ⟨?_, h1.tree.trans h2.tree, h2.kept, fun b hb => h2.shown b (h1.shown b hb)⟩
  obtain ⟨_, _, _, _, log1, rfl, hl1⟩ := h1.only
  obtain ⟨_, _, _, _, log2, rfl, hl2⟩ := h2.only
  exact ⟨_, _, _, _, _, rfl, hl1.trans hl2⟩

theorem Turned.backings (ht : Turned mv addrs w w') : w'.backings = w.backings := by
  obtain ⟨_, _, _, _, _, rfl, -⟩ := ht.only
  rfl

theorem Turned.weaken (ht : Turned mv as w w') (hsub : ∀ a ∈ as, a ∈ bs) : Turned mv bs w w' :=
  ⟨ht.only, ⟨ht.tree.resident, fun x hx hn => ht.tree.outside x hx fun ha => hn (hsub _ ha)⟩, ht.kept,
    ht.shown⟩

theorem Turned.same (hs : Kept w mv) (addrs : List Nat) (index : Nat → Bool)
    (hlog : Harmless w.log log) : Turned mv addrs w { w with faultIndex := index, log := log } :=
  ⟨⟨_, _, _, _, _, rfl, hlog⟩, Retagged.refl _ _, { hs with }, fun _ => id⟩

theorem Turned.refl (hs : Kept w mv) (addrs : List Nat) : Turned mv addrs w w :=
  Turned.same hs addrs w.faultIndex (Harmless.refl _)

theorem Turned.refused (hs : Kept w mv) (addrs : List Nat) (c : Call) :
    Turned mv addrs w (w.note (.called c false)) :=
  Turned.same hs addrs w.faultIndex (Harmless.called _ _ _)

variable (env : Env)

/-- The second half of a turn: the permission of a mapping that has its pages. -/
theorem swap_perm_one (hs : Kept w mv) (hb : w.backings b = some k) (hm : m ∈ w.tree)
    (hu : m.backing = some b) (hst : m.swapUnmapped = .mapped) :
    let r := match svc env .permission (·.setPerm m.addr m.size (getHorizonPerm m.prot)) w with
      | (false, w) => (some Errno.io, w)
      | (true, w) => (none, w.setMapping m.addr fun m => { m with swapUnmapped := .attached })
    Turned mv [m.addr] w r.2 ∧
      (r.1 = none → ∀ x ∈ r.2.tree, x.addr = m.addr → x.swapUnmapped = .attached) := by
  rcases svc_cases env .permission (·.setPerm m.addr m.size (getHorizonPerm m.prot)) w with
    heq | ⟨k', hk', heq⟩
  · rw [heq]
    exact ⟨Turned.refused hs _ _, by simp⟩
  · rw [heq]
    obtain ⟨hpages, hlent⟩ := Kernel.set_perm_some hk'
    have hat : ∀ x ∈ (w.setMapping m.addr fun m => { m with swapUnmapped := .attached }).tree,
        x.addr = m.addr → x = { m with swapUnmapped := .attached } := fun x hx ha =>
      retag_at .attached hs.sorted hm hx ha
    have hperm : Kept { w with kernel := k' } mv :=
      { hs with fresh := hlent ▸ hs.fresh, lent := hlent ▸ hs.lent }
    refine ⟨⟨⟨_, _, _, _, _, rfl, Harmless.called _ _ _⟩, Retagged.one _ _ _,
      { hperm.retag hb (.inr (.inr rfl)) hm hu (by simp) with }, ?_⟩,
      fun _ x hx ha => by rw [hat x hx ha]⟩
    refine shown_step hs.sorted hm (Retagged.one _ _ _) rfl (fun p hp => ?_)
      fun b k _ _ hsh x hx ha => ?_
    · exact (hpages p).trans (if_neg hp)
    · rw [hat x hx ha]
      intro _
      obtain ⟨block, hblk, hall⟩ := hsh (by rw [hst]; simp)
      refine ⟨block, hblk, fun p hp => ⟨_, ?_, fun _ => rfl⟩⟩
      obtain ⟨perm, hpte, -⟩ := hall p hp
      refine ((hpages p).trans (if_pos hp)).trans ?_
      rw [hpte]
      rfl

theorem swap_map_one (hs : Kept w mv) (hb : w.backings b = some k)
    (hblk : k.heapAddr = some block) (hfree : mv = some b ∨ k.swap.detached = true)
    (hm : m ∈ w.tree) (hu : m.backing = some b) :
    let r := swapMapOne env block m w
    Turned mv [m.addr] w r.2 ∧
      (r.1 = none → ∀ x ∈ r.2.tree, x.addr = m.addr → x.swapUnmapped = .attached) := by
  unfold swapMapOne
  cases hst : m.swapUnmapped with
  | attached =>
    refine ⟨Turned.refl hs _, fun _ x hx ha => ?_⟩
    rw [addr_unique hs.sorted hm hx ha, hst]
  | mapped =>
    exact swap_perm_one env hs hb hm hu hst
  | unmapped =>
    rcases svc_cases env .mapCode (·.mapCode m.addr block m.sourceOffset m.size) w with
      heq | ⟨k1, hk1, heq⟩
    · rw [heq]
      exact ⟨Turned.refused hs _ _, by simp⟩
    · rw [heq]
      simp only [Bool.not_true, Bool.false_eq_true, ↓reduceIte]
      -- the mapping takes its new state first, so that its pages may be lent
      have hmap : Kept (w.setMapping m.addr fun m => { m with swapUnmapped := .mapped }) mv :=
        hs.retag hb (hfree.imp_right .inl) hm hu fun _ _ _ _ _ => by simp
      have hm' : { m with swapUnmapped := .mapped } ∈
          (w.setMapping m.addr fun m => { m with swapUnmapped := .mapped }).tree :=
        mem_map.mpr ⟨m, hm, if_pos rfl⟩
      have hlend := hmap.lend hb hblk hm' hu (by simp) hk1
      have hshown : ∀ b, Shown w b → Shown { w.setMapping m.addr fun m => { m with swapUnmapped := .mapped }
          with kernel := k1 } b := by
        obtain ⟨-, hpages, -⟩ := Kernel.map_code_some hk1
        refine shown_step hs.sorted hm (Retagged.one _ _ _) rfl (fun p hp => ?_)
          fun b' k' hk' hu' _ x hx ha => ?_
        · exact (hpages p).trans (if_neg hp)
        · rw [retag_at .mapped hs.sorted hm hx ha]
          rw [hu] at hu'
          cases hu'
          rw [hb] at hk'
          cases hk'
          exact fun _ => ⟨block, hblk, fun p hp => ⟨_, (hpages p).trans (if_pos hp), by simp⟩⟩
      have hturn : Turned mv [m.addr] w ((noteAliasSource
          ({ w with kernel := k1 }.note (.called .mapCode true)) block m.sourceOffset m.size
          true).setMapping m.addr fun m => { m with swapUnmapped := .mapped }) :=
        ⟨⟨_, _, _, _, _, rfl, Harmless.called _ _ _⟩, Retagged.one _ _ _, { hlend with }, hshown⟩
      obtain ⟨hperm, hdone⟩ := swap_perm_one env hturn.kept hb hm' hu rfl
      exact ⟨(hturn.trans hperm).weaken (by simp), hdone⟩

theorem swap_map_walk (ms : List Mapping) (hs : Kept w mv) (hb : w.backings b = some k)
    (hblk : k.heapAddr = some block) (hfree : mv = some b ∨ k.swap.detached = true)
    (hms : ∀ m ∈ ms, m ∈ w.tree ∧ m.backing = some b) (hnd : (ms.map Mapping.addr).Nodup) :
    let r := swapMapWalk env block ms w
    Turned mv (ms.map Mapping.addr) w r.2 ∧
      (r.1 = none → ∀ x ∈ r.2.tree, x.addr ∈ ms.map Mapping.addr → x.swapUnmapped = .attached) := by
  induction ms generalizing w with
  | nil =>
    exact ⟨Turned.refl hs _, by simp⟩
  | cons m ms ih =>
    obtain ⟨hm, hu⟩ := hms m (mem_cons_self ..)
    obtain ⟨hnot, hnd⟩ := nodup_cons.mp hnd
    obtain ⟨hturn, hdone⟩ := swap_map_one env hs hb hblk hfree hm hu
    rw [swapMapWalk]
    generalize swapMapOne env block m w = r at *
    obtain ⟨e, w1⟩ := r
    cases e with
    | some e => exact ⟨hturn.weaken (by simp), by simp⟩
    | none =>
      have hms1 : ∀ x ∈ ms, x ∈ w1.tree ∧ x.backing = some b := by
        intro x hx
        obtain ⟨hxt, hxu⟩ := hms x (mem_cons_of_mem _ hx)
        refine ⟨hturn.tree.keeps hs.sorted hxt fun ha => hnot ?_, hxu⟩
        rw [← mem_singleton.mp ha]
        exact mem_map_of_mem hx
      obtain ⟨hrest, hdone'⟩ := ih hturn.kept (hturn.backings ▸ hb) hms1 hnd
      refine ⟨hturn.trans hrest, fun hnone x hx ha => ?_⟩
      by_cases hin : x.addr ∈ ms.map Mapping.addr
      · exact hdone' hnone x hx hin
      · rcases mem_cons.mp ha with ha | ha
        · exact hdone rfl x (hrest.tree.outside x hx hin) ha
        · exact absurd ha hin

theorem mem_backing_mappings (hs : Kept w mv) (hb : w.backings b = some k)
    (haddr : k0.codeAddr = k.codeAddr) (hsize : k0.size = k.size) :
    m ∈ backingMappings w b k0 ↔ m ∈ w.tree ∧ m.backing = some b := by
  have hafter : mappings.Sorted (mappings.after w.tree k0.codeAddr) :=
    hs.sorted.sublist (dropWhile_sublist _)
  unfold backingMappings
  rw [mem_filter]
  have htake : m ∈ (mappings.after w.tree k0.codeAddr).takeWhile
      (fun m => decide (m.addr < k0.codeAddr + k0.size)) ↔ _ := hafter.mem_takeWhile
  rw [htake, hs.sorted.mem_after]
  constructor
  · rintro ⟨⟨⟨hm, -⟩, -⟩, hu⟩
    exact ⟨hm, by simpa [Mapping.uses] using hu⟩
  · rintro ⟨hm, hu⟩
    obtain ⟨k', hk', haddr', hstop⟩ := hs.backed m hm b hu
    rw [hb] at hk'
    cases hk'
    have hne := hs.sorted.nonempty m hm
    simp only [mappings, Mapping.stop] at hne ⊢
    refine ⟨⟨⟨hm, ?_⟩, ?_⟩, by simp [Mapping.uses, hu]⟩
    · omega
    · omega

theorem backing_mappings_nodup (hs : Kept w mv) (b : Nat) (k : Backing) :
    ((backingMappings w b k).map Mapping.addr).Nodup := by
  have hsub : (backingMappings w b k).Sublist w.tree :=
    filter_sublist.trans ((takeWhile_sublist _).trans (dropWhile_sublist _))
  exact hs.sorted.lo_nodup.sublist (hsub.map _)

theorem index_update_eq (index : Nat → Bool) (addr size : Nat) (set : Bool) (w : World) :
    ∃ log, Harmless w.log log ∧
      (swapIndexUpdate env index addr size set w).2.2 = { w with log := log } := by
  unfold swapIndexUpdate
  split
  · exact ⟨w.log, Harmless.refl _, rfl⟩
  · rcases ask_cases env .index w with heq | heq
    · rw [heq]
      exact ⟨_, Harmless.called _ _ _, rfl⟩
    · rw [heq]
      exact ⟨_, Harmless.called _ _ _, rfl⟩

theorem mark_faults_eq (set : Bool) (ms : List Mapping) (w : World) :
    ∃ index log, Harmless w.log log ∧
      (swapMarkFaults env set ms w).2 = { w with faultIndex := index, log := log } := by
  induction ms generalizing w with
  | nil => exact ⟨w.faultIndex, w.log, Harmless.refl _, rfl⟩
  | cons m ms ih =>
    rw [swapMarkFaults]
    obtain ⟨log, hlog, heq⟩ := index_update_eq env w.faultIndex m.addr m.size set w
    generalize swapIndexUpdate env w.faultIndex m.addr m.size set w = r at *
    obtain ⟨ok, index, w1⟩ := r
    subst heq
    cases ok with
    | false => exact ⟨index, log, hlog, rfl⟩
    | true =>
      obtain ⟨index', log', hlog', heq'⟩ := ih { w with faultIndex := index, log := log }
      exact ⟨index', log', hlog.trans hlog', heq'⟩

theorem mark_faults_turned (hs : Kept w mv) (set : Bool) (ms : List Mapping) :
    Turned mv [] w (swapMarkFaults env set ms w).2 := by
  obtain ⟨index, log, hlog, heq⟩ := mark_faults_eq env set ms w
  rw [heq]
  exact Turned.same hs [] index hlog

theorem swap_map_memory (k0 : Backing) (hs : Kept w mv) (hb : w.backings b = some k)
    (haddr : k0.codeAddr = k.codeAddr) (hsize : k0.size = k.size)
    (hblk : k.heapAddr = some block) (hfree : mv = some b ∨ k.swap.detached = true) :
    let r := swapMapMemory env w b k0 block
    Turned mv ((backingMappings w b k0).map Mapping.addr) w r.2 ∧
      (r.1 = none → ∀ x ∈ r.2.tree, x.backing = some b → x.swapUnmapped = .attached) := by
  have hmem := fun m => mem_backing_mappings (m := m) hs hb haddr hsize
  obtain ⟨hturn, hdone⟩ := swap_map_walk env (backingMappings w b k0) hs hb hblk hfree
    (fun m hm => (hmem m).mp hm) (backing_mappings_nodup hs b k0)
  unfold swapMapMemory
  generalize swapMapWalk env block (backingMappings w b k0) w = r at *
  obtain ⟨e, w1⟩ := r
  cases e with
  | some e => exact ⟨hturn, by simp⟩
  | none =>
    have hmark := mark_faults_turned env hturn.kept false (backingMappings w1 b k0)
    refine ⟨(hturn.trans hmark).weaken (by simp), fun _ x hx hu => ?_⟩
    have hx1 := hmark.tree.outside x hx (by simp)
    obtain ⟨y, hy, he⟩ := hturn.tree.of_mem hx1
    refine hdone rfl x hx1 ?_
    rw [resident_addr he]
    exact mem_map_of_mem ((hmem y).mpr ⟨hy, (resident_backing he).symm.trans hu⟩)

theorem swap_unmap_one (hs : Kept w (some b)) (hb : w.backings b = some k)
    (hblk : k.heapAddr = some block) (hm : m ∈ w.tree) (hu : m.backing = some b) (c : Call)
    (hk1 : w.kernel.unmapCode m.addr block m.sourceOffset m.size = some k1) :
    Turned (some b) [m.addr] w ((noteAliasSource ({ w with kernel := k1 }.note (.called c true))
      block m.sourceOffset m.size false).setMapping m.addr
        fun m => { m with swapUnmapped := .unmapped }) := by
  have hun := hs.unlend hk1
  obtain ⟨-, hpages, hlent⟩ := Kernel.unmap_code_some hk1
  have hkept := @Kept.retag _ _ _ _ .unmapped _ hun hb (.inl rfl) hm hu fun blk q hblk' hl hc => ?_
  · refine ⟨⟨_, _, _, _, _, rfl, Harmless.called _ _ _⟩, Retagged.one _ _ _, { hkept with }, ?_⟩
    refine shown_step hs.sorted hm (Retagged.one _ _ _) rfl (fun p hp => ?_)
      fun b' k' _ _ _ x hx ha => ?_
    · exact (hpages p).trans (if_neg hp)
    · rw [retag_at .unmapped hs.sorted hm hx ha]
      exact fun hst => absurd rfl hst
  · -- its pages are not lent any more
    rw [hblk] at hblk'
    cases hblk'
    rw [hlent, Kernel.lend, if_pos ⟨rfl, hc.2.2⟩] at hl
    exact absurd rfl hl

theorem swap_unmap_walk (ms : List Mapping) (hs : Kept w (some b)) (hb : w.backings b = some k)
    (haddr : k0.codeAddr = k.codeAddr) (hsize : k0.size = k.size) (hblk : k.heapAddr = some block)
    (hms : ∀ m ∈ ms, m ∈ w.tree ∧ m.backing = some b) (hnd : (ms.map Mapping.addr).Nodup)
    (changed : Bool) (hchg : changed = false →
      ∀ m ∈ w.tree, m.backing = some b → m.swapUnmapped = .attached) :
    let r := swapUnmapWalk env b k0 block ms changed w
    (r.1 = none ∧ Turned (some b) (ms.map Mapping.addr) w r.2 ∧
      ∀ x ∈ r.2.tree, x.addr ∈ ms.map Mapping.addr → x.swapUnmapped = .unmapped) ∨
    (∃ e as, r.1 = some e ∧ Turned (some b) as w r.2 ∧
      ∀ x ∈ r.2.tree, x.backing = some b → x.swapUnmapped = .attached) ∨
    (∃ e w1 as, r = (some e, w1.setBacking b fun k => { k with swap := { k.swap with detached := true } }) ∧
      Turned (some b) as w w1) := by
  induction ms generalizing w changed with
  | nil => exact .inl ⟨rfl, Turned.refl hs _, by simp⟩
  | cons m ms ih =>
    obtain ⟨hm, hu⟩ := hms m (mem_cons_self ..)
    obtain ⟨hnot, hnd⟩ := nodup_cons.mp hnd
    rw [swapUnmapWalk]
    rcases svc_cases env .unmapCode (·.unmapCode m.addr block m.sourceOffset m.size) w with
      heq | ⟨k1, hk1, heq⟩
    · rw [heq]
      have hnote := Turned.refused hs [] .unmapCode
      refine .inr ?_
      dsimp only
      cases changed with
      | false =>
        have hmark := mark_faults_turned env hnote.kept false
          (backingMappings (w.note (.called .unmapCode false)) b k0)
        exact .inl ⟨_, _, rfl, hnote.trans hmark,
          fun x hx hxu => hchg rfl x (hmark.tree.outside x hx (by simp)) hxu⟩
      | true =>
        obtain ⟨hturn, hdone⟩ := swap_map_memory env k0 hnote.kept hb haddr hsize hblk (.inl rfl)
        generalize swapMapMemory env (w.note (.called .unmapCode false)) b k0 block = r at *
        obtain ⟨e, w1⟩ := r
        cases e with
        | some e => exact .inr ⟨e, w1, _, rfl, hnote.trans hturn⟩
        | none =>
          have hmark := mark_faults_turned env hturn.kept false (backingMappings w1 b k0)
          exact .inl ⟨_, _, rfl, (hnote.trans hturn).trans hmark,
            fun x hx hxu => hdone rfl x (hmark.tree.outside x hx (by simp)) hxu⟩
    · rw [heq]
      dsimp only
      have hturn := swap_unmap_one hs hb hblk hm hu .unmapCode hk1
      have hone : ∀ x ∈ ((noteAliasSource ({ w with kernel := k1 }.note
          (.called .unmapCode true)) block m.sourceOffset m.size false).setMapping m.addr
          fun m => { m with swapUnmapped := .unmapped }).tree,
          x.addr = m.addr → x.swapUnmapped = .unmapped := fun x hx ha => by
        rw [retag_at .unmapped hs.sorted hm hx ha]
      generalize (noteAliasSource ({ w with kernel := k1 }.note
        (.called .unmapCode true)) block m.sourceOffset m.size false).setMapping m.addr
          (fun m => { m with swapUnmapped := .unmapped }) = w1 at *
      have hms1 : ∀ x ∈ ms, x ∈ w1.tree ∧ x.backing = some b := by
        intro x hx
        obtain ⟨hxt, hxu⟩ := hms x (mem_cons_of_mem _ hx)
        refine ⟨hturn.tree.keeps hs.sorted hxt fun ha => hnot ?_, hxu⟩
        rw [← mem_singleton.mp ha]
        exact mem_map_of_mem hx
      rcases ih hturn.kept (hturn.backings ▸ hb) hms1 hnd true (by simp) with
        ⟨hnone, hrest, hdone⟩ | ⟨e, as, he, hrest, hdone⟩ | ⟨e, w2, as, he, hrest⟩
      · refine .inl ⟨hnone, hturn.trans hrest, fun x hx ha => ?_⟩
        by_cases hin : x.addr ∈ ms.map Mapping.addr
        · exact hdone x hx hin
        · rcases mem_cons.mp ha with ha | ha
          · exact hone x (hrest.tree.outside x hx hin) ha
          · exact absurd ha hin
      · exact .inr (.inl ⟨e, _, he, hturn.trans hrest, hdone⟩)
      · exact .inr (.inr ⟨e, w2, _, he, hturn.trans hrest⟩)

theorem swap_unmap_memory (hs : Kept w none) (hb : w.backings b = some k)
    (hblk : k.heapAddr = some block) (hdet : k.swap.detached = false) :
    let r := swapUnmapMemory env w b k block
    (∃ as, r.1 = none ∧ Turned (some b) as w r.2 ∧
      ∀ x ∈ r.2.tree, x.backing = some b → x.swapUnmapped = .unmapped) ∨
    (∃ e as, r.1 = some e ∧ Turned none as w r.2) ∨
    (∃ e w1 as, r = (some e, w1.setBacking b fun k => { k with swap := { k.swap with detached := true } }) ∧
      Turned (some b) as w w1) := by
  have hatt := hs.attached b k hb hdet (by simp)
  unfold swapUnmapMemory
  have hmark := mark_faults_turned env hs true (backingMappings w b k)
  generalize swapMarkFaults env true (backingMappings w b k) w = r at *
  obtain ⟨ok, w1⟩ := r
  cases ok with
  | false =>
    have hback := mark_faults_turned env hmark.kept false (backingMappings w1 b k)
    exact .inr (.inl ⟨_, _, rfl, hmark.trans hback⟩)
  | true =>
    have hb1 : w1.backings b = some k := hmark.backings ▸ hb
    have hmem := fun m => mem_backing_mappings (m := m) hmark.kept hb1 rfl rfl
    rcases swap_unmap_walk env (backingMappings w1 b k) (hmark.kept.moving b) hb1 rfl rfl hblk
      (fun m hm => (hmem m).mp hm) (backing_mappings_nodup hmark.kept b k)
      false (fun _ m hm => hatt m (hmark.tree.outside m hm (by simp))) with
      ⟨hnone, hturn, hdone⟩ | ⟨e, as, he, hturn, hdone⟩ | ⟨e, w2, as, he, hturn⟩
    · refine .inl ⟨_, hnone, hmark.trans hturn, fun x hx hu => ?_⟩
      obtain ⟨y, hy, heq⟩ := hturn.tree.of_mem hx
      refine hdone x hx ?_
      rw [resident_addr heq]
      exact mem_map_of_mem ((hmem y).mpr ⟨hy, (resident_backing heq).symm.trans hu⟩)
    · have hall := hmark.trans hturn
      exact .inr (.inl ⟨e, _, he, { hall with kept := hall.kept.settled fun _ _ _ => hdone }⟩)
    · exact .inr (.inr ⟨e, w2, _, he, hmark.trans hturn⟩)

variable {env}

def SwapEvent : Event → Prop
  | .freed _ _ lent saved => saved = true ∧ lent = false
  | .discarded _ _ mapped => mapped = true
  | _ => True

def Logged (log log' : List Event) : Prop := Grown SwapEvent log log'

theorem Harmless.logged (hl : Harmless log log') : Logged log log' := by
  refine hl.mono fun e he => ?_
  cases e with
  | freed => exact he
  | discarded => cases he
  | _ => trivial

/-- How often a log tells that a backing got a token, and that it gave it back. -/
def saves (b t : Nat) (log : List Event) : Nat :=
  log.countP fun e => match e with
    | .saved b' t' => b' == b && t' == t
    | _ => false

def discards (b t : Nat) (log : List Event) : Nat :=
  log.countP fun e => match e with
    | .discarded b' t' _ => b' == b && t' == t
    | _ => false

theorem saves_saved (b t b' t' : Nat) (log : List Event) :
    saves b t (.saved b' t' :: log) = saves b t log + if b = b' ∧ t' = t then 1 else 0 := by
  simp [saves, countP_cons, eq_comm (a := b)]

theorem discards_discarded (b t b' t' : Nat) (mapped : Bool) (log : List Event) :
    discards b t (.discarded b' t' mapped :: log) =
      discards b t log + if b = b' ∧ t' = t then 1 else 0 := by
  simp [discards, countP_cons, eq_comm (a := b)]

/-- Whether a backing has a token, as a number. -/
def holds (backings : Nat → Option Backing) (b t : Nat) : Nat :=
  if (backings b).any (·.swap.token == t) then 1 else 0

theorem Harmless.saves (hl : Harmless log log') (b t : Nat) : saves b t log' = saves b t log := by
  obtain ⟨new, rfl, hnew⟩ := hl
  unfold Guest.saves
  rw [countP_append, countP_eq_zero.mpr, Nat.zero_add]
  intro e he
  have := hnew e he
  cases e with
  | saved => cases this
  | _ => simp

theorem Harmless.discards (hl : Harmless log log') (b t : Nat) :
    discards b t log' = discards b t log := by
  obtain ⟨new, rfl, hnew⟩ := hl
  unfold Guest.discards
  rw [countP_append, countP_eq_zero.mpr, Nat.zero_add]
  intro e he
  have := hnew e he
  cases e with
  | discarded => cases this
  | _ => simp

/-- Every token a backing got since is one it gave back or still has. -/
def Balanced (backings backings' : Nat → Option Backing) (log log' : List Event) : Prop :=
  ∀ b t, t ≠ 0 → saves b t log' + discards b t log + holds backings b t =
    discards b t log' + saves b t log + holds backings' b t

theorem Harmless.balanced (hl : Harmless log log') (backings : Nat → Option Backing) :
    Balanced backings backings log log' := by
  intro b t _
  rw [hl.saves, hl.discards]
  omega

/-- What swapping does to every backing: its bytes move between the heap and
the store, and its mappings stay shown. -/
structure Swapped (w w' : World) : Prop where
  tree : w'.tree.map Mapping.resident = w.tree.map Mapping.resident
  live : ∀ b k, w.backings b = some k → ∃ k', w'.backings b = some k'
  content : ∀ b k k', w.backings b = some k → w'.backings b = some k' → content w' k' = content w k
  shown : ∀ b, Shown w b → Shown w' b
  tokens : Balanced w.backings w'.backings w.log w'.log
  log : Logged w.log w'.log

namespace Swapped

theorem trans (h1 : Swapped w1 w2) (h2 : Swapped w2 w3) : Swapped w1 w3 where
  tree := h2.tree.trans h1.tree
  live := fun b k hk => by
    obtain ⟨k2, hk2⟩ := h1.live b k hk
    exact h2.live b k2 hk2
  content := fun b k k' hk hk' => by
    obtain ⟨k2, hk2⟩ := h1.live b k hk
    exact (h2.content b k2 k' hk2 hk').trans (h1.content b k k2 hk hk2)
  shown := fun b hb => h2.shown b (h1.shown b hb)
  tokens := fun b t ht => by
    have := h1.tokens b t ht
    have := h2.tokens b t ht
    omega
  log := h1.log.trans h2.log

theorem of_same (hback : w'.backings = w.backings)
    (hcontent : ∀ b k, w.backings b = some k → Guest.content w' k = Guest.content w k)
    (htree : w'.tree.map Mapping.resident = w.tree.map Mapping.resident)
    (hshown : ∀ b, Shown w b → Shown w' b) (hlog : Harmless w.log w'.log) : Swapped w w' where
  tree := htree
  live := fun b k hk => ⟨k, hback ▸ hk⟩
  content := fun b k k' hk hk' => by
    rw [hback, hk] at hk'
    cases hk'
    exact hcontent b k hk
  shown := hshown
  tokens := hback ▸ hlog.balanced _
  log := hlog.logged

theorem refl (w : World) : Swapped w w :=
  of_same rfl (fun _ _ _ => rfl) rfl (fun _ => id) (Harmless.refl _)

end Swapped

theorem Turned.swapped (ht : Turned mv as w w') : Swapped w w' := by
  have hres := ht.tree.resident
  have hshown := ht.shown
  obtain ⟨_, _, _, _, _, rfl, hlog⟩ := ht.only
  exact Swapped.of_same rfl (fun _ _ _ => rfl) hres hshown hlog

/-- The blocks when a backing that keeps its pages is detached or attached. -/
theorem Placed.detach (hok : Placed backings stored n) (hb : backings b = some k)
    (htok : k.swap.token = 0) (detached : Bool) :
    Placed (Function.update backings b
      (some { k with heapAddr := k.heapAddr, swap := { k.swap with detached := detached } }))
      stored n := by
  refine hok.update _ (fun blk hblk => ?_) (fun hnone => ?_) (fun ht => ?_)
    (fun b' k' _ hk' ht => (hok.token b' k' hk' ht).2)
  · refine ⟨hok.block_lt b k blk hb hblk, fun b' k' hne hk' hblk' => ?_⟩
    exact hne (hok.block_inj b' b k' k blk hk' hb hblk' hblk)
  · exact absurd htok (hok.away b k hb hnone)
  · exact absurd htok ht

theorem content_congr (hheap : ∀ blk, k.heapAddr = some blk → w'.heap blk = w.heap blk)
    (hstored : k.heapAddr = none → w'.stored k.swap.token = w.stored k.swap.token) :
    content w' k = content w k := by
  unfold content
  cases hk : k.heapAddr with
  | some blk => exact hheap blk hk
  | none =>
    rw [hstored hk]

theorem swapped_set (hb : w.backings b = some k) (addr : Option Nat) (swap : SwapEntry)
    (stored' : Nat → Option (Nat → Page)) (log : List Event)
    (hself : content { w with stored := stored' } { k with heapAddr := addr, swap := swap } = content w k)
    (hother : ∀ b' k', b' ≠ b → w.backings b' = some k' → k'.heapAddr = none →
      stored' k'.swap.token = w.stored k'.swap.token)
    (hshown : addr = k.heapAddr ∨ k.heapAddr = none ∨
      ∀ m ∈ w.tree, m.backing = some b → m.swapUnmapped = .unmapped)
    (htokens : ∀ b' t, t ≠ 0 → saves b' t log + discards b' t w.log +
      (if b' = b ∧ k.swap.token = t then 1 else 0) = discards b' t log + saves b' t w.log +
        if b' = b ∧ swap.token = t then 1 else 0)
    (hlog : Logged w.log log) :
    Swapped w { w with
      backings := update w.backings b (some { k with heapAddr := addr, swap := swap })
      stored := stored'
      log := log } := by
  refine ⟨rfl, fun b' k' hk' => ?_, fun b' k1 k2 hk1 hk2 => ?_, fun b' hsh k' hk' m hm hu => ?_,
    fun b' t ht => ?_, hlog⟩
  · by_cases he : b' = b
    · subst he
      exact ⟨_, update_self ..⟩
    · exact ⟨k', (update_of_ne he ..).trans hk'⟩
  · rcases update_some hk2 with ⟨rfl, rfl⟩ | ⟨he, hold⟩
    · rw [hb] at hk1
      cases hk1
      exact hself
    · rw [hk1] at hold
      cases hold
      exact content_congr (fun _ _ => rfl) (hother b' k1 he hk1)
  · rcases update_some hk' with ⟨rfl, rfl⟩ | ⟨-, hold⟩
    · rcases hshown with rfl | haway | hall
      · exact hsh k hb m hm hu
      · intro hst
        obtain ⟨blk, hblk, -⟩ := hsh k hb m hm hu hst
        rw [haway] at hblk
        cases hblk
      · exact fun hst => absurd (hall m hm hu) hst
    · exact hsh k' hold m hm hu
  · have := htokens b' t ht
    dsimp only [holds]
    by_cases he : b' = b
    · subst he
      rw [hb, update_self]
      simpa using this
    · rw [update_of_ne he]
      simp only [he, false_and] at this
      omega

theorem save_block_cases (env : Env) (w : World) (b block : Nat) :
    (∃ e log, saveBlock env w b block = (.error e, { w with log := log }) ∧ Harmless w.log log) ∨
    ∃ token log, token ≠ 0 ∧ w.stored token = none ∧ Harmless w.log log ∧
      saveBlock env w b block = (.ok token, { w with
        stored := update w.stored token (some (w.heap block))
        log := .saved b token :: log }) := by
  unfold saveBlock
  rcases ask_cases env .save w with heq | heq
  · rw [heq]
    dsimp only
    generalize env.token (w.note (.called .save true)).moment = token
    split
    · exact .inl ⟨_, _, rfl, Harmless.called _ _ _⟩
    · rename_i hfree
      rw [not_or] at hfree
      exact .inr ⟨token, _, hfree.1, by simpa [World.note] using hfree.2, Harmless.called _ _ _, rfl⟩
  · rw [heq]
    exact .inl ⟨_, _, rfl, Harmless.called _ _ _⟩

structure SwappedOne (mv : Option Nat) (b : Nat) (k : Backing) (w w' : World) (addr : Option Nat)
    (swap : SwapEntry) : Prop where
  kept : Kept w' mv
  swapped : Swapped w w'
  backings : w'.backings = update w.backings b
    (some { k with heapAddr := addr, swap := swap })

theorem Turned.swapped_one (ht : Turned mv as w w') (hb : w.backings b = some k) :
    SwappedOne mv b k w w' k.heapAddr k.swap :=
  ⟨ht.kept, ht.swapped, ht.backings.trans (update_eq_self_iff.mpr hb.symm).symm⟩

theorem Turned.detach (ht : Turned mv as w w1) (hb : w.backings b = some k)
    (htok : k.swap.token = 0) (detached : Bool)
    (hatt : detached = false → ∀ m ∈ w1.tree, m.backing = some b → m.swapUnmapped = .attached) :
    SwappedOne mv b k w
      (w1.setBacking b fun k => { k with swap := { k.swap with detached := detached } })
      k.heapAddr { k.swap with detached := detached } := by
  have hb1 : w1.backings b = some k := ht.backings ▸ hb
  rw [set_backing_eq hb1]
  refine ⟨?_, ?_, ?_⟩
  · exact ht.kept.set_swap hb1 _ _ (ht.kept.blocks.detach hb1 htok detached) (fun _ _ hblk _ => hblk)
      fun hd _ => hatt hd
  · exact ht.swapped.trans (swapped_set hb1 k.heapAddr _ w1.stored w1.log rfl (fun _ _ _ _ _ => rfl)
      (.inl rfl) (fun b' t _ => by dsimp only; omega) (Grown.refl _ _))
  · exact congrArg (fun f => update f b _) ht.backings

namespace SwappedOne

theorem trans (h1 : SwappedOne mv' b k w1 w2 a1 s1)
    (h2 : SwappedOne mv b { k with heapAddr := a1, swap := s1 } w2 w3 a2 s2) :
    SwappedOne mv b k w1 w3 a2 s2 :=
  ⟨h2.kept, h1.swapped.trans h2.swapped, by rw [h2.backings, h1.backings, update_idem]⟩

theorem self (hs : SwappedOne mv b k w w' a s) :
    w'.backings b = some { k with heapAddr := a, swap := s } := by
  rw [hs.backings]
  exact update_self ..

theorem step (h1 : SwappedOne mv' b k w1 w2 a s) (h2 : Turned mv as w2 w3) :
    SwappedOne mv b k w1 w3 a s := h1.trans (h2.swapped_one h1.self)

theorem settled (hs : SwappedOne (some b) b k w w' a s) (hdet : s.detached = true) :
    SwappedOne none b k w w' a s := by
  refine { hs with kept := hs.kept.settled fun k' hk' hd => ?_ }
  rw [hs.self] at hk'
  cases hk'
  rw [hdet] at hd
  cases hd

end SwappedOne

theorem swap_store (hs : Kept w mv) (hb : w.backings b = some k) (hblk : k.heapAddr = some block)
    (hused : ∃ m ∈ w.tree, m.backing = some b) (hdet : k.swap.detached = true)
    (htok0 : k.swap.token = 0)
    (hno : ∀ m ∈ w.tree, m.backing = some b → m.swapUnmapped = .unmapped)
    (htok : token ≠ 0) (hfree : w.stored token = none) (hlog : Harmless w.log log) :
    SwappedOne mv b k w
      ((swapFreeMemory (World.setBacking { w with
          stored := update w.stored token (some (w.heap block))
          log := .saved b token :: log } b fun k => { k with swap := { k.swap with token } })
        b block k.size).setBacking b fun k => { k with heapAddr := none })
      none { k.swap with token } := by
  have hother : ∀ b' k', b' ≠ b → w.backings b' = some k' → k'.swap.token ≠ 0 →
      k'.swap.token ≠ token := by
    intro b' k' _ hk' ht he
    have := (hs.blocks.token b' k' hk' ht).2
    rw [he, hfree] at this
    cases this
  have hlent : ∀ q, w.kernel.lentTo block q = none := by
    intro q
    by_contra hl
    obtain ⟨m, hm, hc⟩ := hs.lent b k block q hb hblk hl hused
    exact hc.2.1 (hno m hm hc.1)
  have hblocks : Placed (update w.backings b
      (some { k with heapAddr := none, swap := { k.swap with token } }))
      (update w.stored token (some (w.heap block))) w.next := by
    refine hs.blocks.update _ (by simp) (fun _ => htok) (fun _ => ?_) ?_
    · refine ⟨hdet, by simp, fun b' k' hne hk' he => ?_⟩
      exact hother b' k' hne hk' (he ▸ htok) he
    · intro b' k' hne hk' ht
      rw [update_of_ne (hother b' k' hne hk' ht)]
      exact (hs.blocks.token b' k' hk' ht).2
  have hkept := hs.set_swap hb none { k.swap with token } hblocks (by simp)
    (fun hd => by rw [hdet] at hd; cases hd)
  rw [set_backing_eq (w := { w with
    stored := update w.stored token (some (w.heap block))
    log := .saved b token :: log }) hb, set_backing_again rfl]
  have hfreed : (((update w.backings b (some { k with swap := { k.swap with token } })) b).any
      fun k => (update w.stored token (some (w.heap block)) k.swap.token).isSome) = true ∧
      lentRange w block k.size = false := by
    refine ⟨by simp, any_eq_false.mpr fun q _ => ?_⟩
    simpa using hlent q
  refine ⟨{ hkept with }, ?_, rfl⟩
  refine swapped_set hb none _ (update w.stored token (some (w.heap block))) _ ?_
    (fun b' k' hne hk' haway => ?_) (.inr (.inr hno))
    (fun b' t ht => ?_) ((hlog.logged.cons (e := .saved b token) trivial).cons hfreed)
  · unfold content
    rw [hblk]
    dsimp only
    rw [update_self]
    rfl
  · exact update_of_ne (hother b' k' hne hk' (hs.blocks.away b' k' hk' haway)) ..
  · have hs' := saves_saved b' t b token log
    rw [hlog.saves] at hs'
    have hd' := hlog.discards b' t
    rw [if_neg (fun hc => ht (hc.2.symm.trans htok0))]
    -- nothing but the save counts
    change saves b' t (.saved b token :: log) + _ + _ = discards b' t log + _ + _
    dsimp only
    omega

theorem swap_out (env : Env) (hs : Kept w none) (hb : w.backings b = some k)
    (hdet : k.swap.detached = false) (htok : k.swap.token = 0) (hm : m ∈ w.tree)
    (hu : m.backing = some b) :
    ∃ addr swap, SwappedOne none b k w (swapOut env w b).2 addr swap := by
  unfold swapOut
  rw [hb]
  dsimp only
  rw [if_neg (not_not.mpr htok)]
  cases hblk : k.heapAddr with
  | none => exact absurd htok (hs.blocks.away b k hb hblk)
  | some block =>
    rw [hdet]
    simp only [Bool.false_eq_true, ↓reduceIte]
    rcases swap_unmap_memory env hs hb hblk hdet with
      ⟨as, hnone, hturn, hno⟩ | ⟨e, as, he, hturn⟩ | ⟨e, w1, as, he, hturn⟩
    · generalize swapUnmapMemory env w b k block = r at *
      obtain ⟨e, w1⟩ := r
      subst hnone
      dsimp only
      have hone := (hturn.detach hb htok true (by simp)).settled rfl
      have hself := hone.self
      obtain ⟨m', hm', hres⟩ := hturn.tree.mem hm
      have hused : ∃ m ∈ (w1.setBacking b fun k =>
          { k with swap := { k.swap with detached := true } }).tree, m.backing = some b :=
        ⟨m', hm', (resident_backing hres).trans hu⟩
      have hno : ∀ m ∈ (w1.setBacking b fun k =>
          { k with swap := { k.swap with detached := true } }).tree,
          m.backing = some b → m.swapUnmapped = .unmapped := hno
      generalize w1.setBacking b (fun k => { k with swap := { k.swap with detached := true } }) = w2 at *
      rcases save_block_cases env w2 b block with ⟨e, log, heq, hlog⟩ | ⟨token, log, ht, hfree, hlog, heq⟩
      · rw [heq]
        dsimp only
        have hone3 := hone.step (Turned.same hone.kept [] w2.faultIndex hlog)
        obtain ⟨hturn, hdone⟩ := swap_map_memory env k hone3.kept hone3.self rfl rfl hblk (.inr rfl)
        generalize swapMapMemory env { w2 with log := log } b k block = r at *
        obtain ⟨e', w3⟩ := r
        cases e' with
        | some e' => exact ⟨_, _, hone3.step hturn⟩
        | none =>
          have hback := hturn.detach hone3.self htok false fun _ => hdone rfl
          exact ⟨_, _, hone3.trans hback⟩
      · rw [heq]
        have hstore := swap_store hone.kept hself hblk hused rfl htok hno ht hfree hlog
        exact ⟨_, _, hone.trans hstore⟩
    · generalize swapUnmapMemory env w b k block = r at *
      obtain ⟨e', w1⟩ := r
      subst he
      exact ⟨_, _, hturn.swapped_one hb⟩
    · rw [he]
      exact ⟨_, _, (hturn.detach hb htok true (by simp)).settled rfl⟩

end Autorun.Guest
