import Mathlib.Tactic.Tauto
import Autorun.Guest.MemfileIo
import Autorun.Proofs.Memfile
import Autorun.Proofs.Kernel

namespace Autorun.Guest.SectionIo

open Autorun.Lib List

/-- What a section is for: an array of bytes with a position. -/
structure Flat where
  size : Nat
  bytes : Nat → UInt8
  pos : Int

namespace Flat

/-- How many of `len` bytes from `offset` on the array has. -/
def room (f : Flat) (offset len : Nat) : Nat := min (f.size - offset) len

def pread (f : Flat) (buffer : List UInt8) (offset : Int) : Reply :=
  if offset < 0 then ⟨-einval, buffer⟩
  else
    let n := f.room offset.toNat buffer.length
    ⟨n, slice f.bytes offset.toNat n ++ buffer.drop n⟩

def pwrite (f : Flat) (buffer : List UInt8) (offset : Int) : Reply × Flat :=
  if offset < 0 then (⟨-einval, buffer⟩, f)
  else if buffer ≠ [] ∧ f.size ≤ offset.toNat then (⟨-enospc, buffer⟩, f)
  else
    let n := f.room offset.toNat buffer.length
    (⟨n, buffer⟩, { f with bytes := overwrite f.bytes offset.toNat (buffer.take n) })

/-- The position moves by what was transferred. -/
def advance (f : Flat) (ret : Int) : Flat := { f with pos := f.pos + max ret 0 }

def moveTo (f : Flat) (target : Int) : Int × Flat :=
  if target < 0 ∨ maxOff < target then (-einval, f) else (target, { f with pos := target })

def seek (f : Flat) (offset : Int) : Whence → Int × Flat
  | .set => f.moveTo offset
  | .cur => f.moveTo (f.pos + offset)
  | .fromEnd => f.moveTo (f.size + offset)
  | .other => (-einval, f)

/-- Views and anchors are nothing to the array. -/
def call (f : Flat) : SectionCall → Option Reply × Flat
  | .pread buffer offset => (some (f.pread buffer offset), f)
  | .pwrite buffer offset => let (r, f) := f.pwrite buffer offset; (some r, f)
  | .read buffer => let r := f.pread buffer f.pos; (some r, f.advance r.ret)
  | .write buffer => let (r, f) := f.pwrite buffer f.pos; (some r, f.advance r.ret)
  | .seek offset whence => let (ret, f) := f.seek offset whence; (some ⟨ret, []⟩, f)
  | .map .. | .use .. | .trim => (none, f)

def calls (f : Flat) : List SectionCall → List Reply × Flat
  | [] => ([], f)
  | c :: cs =>
    let (r, f) := f.call c
    let (rs, f) := f.calls cs
    (r.toList ++ rs, f)

end Flat

/-- The two addresses of a section's pages: an anchored page shows at its
anchor, and only an anchored page is lent. -/
structure Mapped (data : Nat) (anchors : List Anchor) (m : Memory) : Prop where
  anchored : ∀ a ∈ anchors, ∀ p, anchorRanges.Has a p →
    m.kernel.pages (a.addr + (p - a.first)) = some ⟨data, p, .rw, .code⟩
  own : ∀ p, (∀ a ∈ anchors, ¬ anchorRanges.Has a p) → m.kernel.lentTo data p = none

variable {ans : Answers} {data size count : Nat} {anchors anchors' : List Anchor} {m m' : Memory}

theorem Mapped.of_mem (h : Mapped data anchors m) (he : ∀ a, a ∈ anchors' ↔ a ∈ anchors) :
    Mapped data anchors' m :=
  ⟨fun a ha => h.anchored a ((he a).mp ha), fun p hp => h.own p fun a ha => hp a ((he a).mpr ha)⟩

/-- Nothing is lent or given back, and no code mapping changes. -/
structure Quiet (m m' : Memory) : Prop where
  heap : m'.heap = m.heap
  lentTo : m'.kernel.lentTo = m.kernel.lentTo
  code : ∀ p e, m.kernel.pages p = some e → e.kind = .code → m'.kernel.pages p = some e

theorem Quiet.refl (m : Memory) : Quiet m m := ⟨rfl, rfl, fun _ _ h _ => h⟩

theorem Quiet.tick (m : Memory) : Quiet m m.tick := ⟨rfl, rfl, fun _ _ h _ => h⟩

theorem Quiet.trans (h1 : Quiet m1 m2) (h2 : Quiet m2 m3) : Quiet m1 m3 :=
  ⟨h2.heap.trans h1.heap, h2.lentTo.trans h1.lentTo,
    fun p e hp hk => h2.code p e (h1.code p e hp hk) hk⟩

theorem Mapped.quiet (h : Mapped data anchors m) (hq : Quiet m m') : Mapped data anchors m' :=
  ⟨fun a ha p hp => hq.code _ _ (h.anchored a ha p hp) rfl,
    fun p hp => by rw [hq.lentTo]; exact h.own p hp⟩

/-- A kernel call that is not refused did what the kernel does. -/
theorem kernel_call_some {call : Kernel → Option Kernel} (h : kernelCall ans call m = some m') :
    ∃ k, call m.kernel = some k ∧ m' = { m with kernel := k, calls := m.calls + 1 } := by
  unfold kernelCall at h
  split at h
  · cases h
  · obtain ⟨k, hk, rfl⟩ := Option.map_eq_some_iff.mp h
    exact ⟨k, hk, rfl⟩

theorem alias_pages_quiet (undo : Bool) (m : Memory) (dst src count : Nat) :
    Quiet m ((pageOps ans data).aliasPages undo m dst src count).2 := by
  dsimp only [pageOps]
  split
  · exact Quiet.tick m
  · rename_i m' h
    obtain ⟨k, hk, rfl⟩ := kernel_call_some h
    obtain ⟨hfree, hpages, hlent⟩ := Kernel.map_view_some hk
    refine ⟨rfl, hlent, fun p e hp _ => ?_⟩
    show k.pages p = some e
    rw [hpages p, if_neg fun hin => ?_]
    · exact hp
    · rw [hfree p hin.1 hin.2] at hp
      cases hp

theorem unalias_pages_quiet (undo : Bool) (m : Memory) (dst src count : Nat) :
    Quiet m ((pageOps ans data).unaliasPages undo m dst src count).2 := by
  dsimp only [pageOps]
  split
  · exact Quiet.tick m
  · rename_i m' h
    obtain ⟨k, hk, rfl⟩ := kernel_call_some h
    obtain ⟨hview, hpages, hlent⟩ := Kernel.unmap_view_some hk
    refine ⟨rfl, hlent, fun p e hp hcode => ?_⟩
    show k.pages p = some e
    rw [hpages p, if_neg fun hin => ?_]
    · exact hp
    · obtain ⟨e', he', hkind⟩ := hview p hin.1 hin.2
      rw [hp] at he'
      cases he'
      rw [hcode] at hkind
      cases hkind

theorem alias_range_quiet (map undo : Bool) (dst first stop : Nat) (as : List Anchor) (page : Nat)
    (m : Memory) :
    Quiet m (aliasRange (pageOps ans data) map undo dst first stop as page m).2.2 := by
  induction as generalizing page m with
  | nil => exact Quiet.refl m
  | cons a rest ih =>
    unfold aliasRange
    split
    swap
    · exact Quiet.refl m
    split
    · exact ih page m
    split
    · exact Quiet.refl m
    have hcall : ∀ dst src count, Quiet m ((if map then (pageOps ans data).aliasPages undo
        else (pageOps ans data).unaliasPages undo) m dst src count).2 := by
      intro dst src count
      split
      · exact alias_pages_quiet undo m dst src count
      · exact unalias_pages_quiet undo m dst src count
    have hq := hcall (dst + (page - first)) (a.addr + (page - a.first)) (min a.stop stop - page)
    dsimp only
    split
    · rename_i heq
      rw [heq] at hq
      exact hq
    · rename_i heq
      rw [heq] at hq
      exact hq.trans (ih _ _)

theorem alias_locked_quiet (map undo : Bool) (dst first stop : Nat) (as : List Anchor)
    (m : Memory) : Quiet m (aliasLocked (pageOps ans data) map undo dst first stop as m).2 := by
  have hq : Quiet m (aliasRange (pageOps ans data) map undo dst first stop as first m).2.2 :=
    alias_range_quiet map undo dst first stop as first m
  unfold aliasLocked
  split
  · rename_i heq
    rw [heq] at hq
    exact hq
  · rename_i heq
    rw [heq] at hq
    exact hq.trans (alias_range_quiet _ _ _ _ _ _ _ _)

theorem Mapped.anchor (h : Mapped data anchors m) (first count users : Nat)
    (hcall : (pageOps ans data).anchor m first count = (.ok addr, m')) :
    Mapped data (⟨first, count, addr, users⟩ :: anchors) m' ∧ m'.heap = m.heap := by
  dsimp only [pageOps] at hcall
  split at hcall
  · cases hcall
  rename_i heq
  cases hcall
  obtain ⟨k, hk, rfl⟩ := kernel_call_some heq
  obtain ⟨k1, hmap, hperm⟩ := Option.bind_eq_some_iff.mp hk
  obtain ⟨hfree, hpages1, hlent1⟩ := Kernel.map_code_some hmap
  obtain ⟨hpages, hlent⟩ := Kernel.set_perm_some hperm
  refine ⟨⟨?_, ?_⟩, rfl⟩
  · rintro a (⟨⟩ | ⟨_, ha⟩) p hp
    · have hlo : first ≤ p := hp.1
      have hhi : p < first + count := hp.2
      have hin : ans.address m.calls ≤ ans.address m.calls + (p - first) ∧
          ans.address m.calls + (p - first) < ans.address m.calls + count := by omega
      show k.pages (ans.address m.calls + (p - first)) = _
      rw [hpages, if_pos hin, hpages1, if_pos hin]
      have hpage : first + (ans.address m.calls + (p - first) - ans.address m.calls) = p := by omega
      simp only [hpage, Option.map_some]
    · have hold := h.anchored a ha p hp
      have hout : ¬ (ans.address m.calls ≤ a.addr + (p - a.first) ∧
          a.addr + (p - a.first) < ans.address m.calls + count) := fun hin => by
        rw [hfree _ hin.1 hin.2] at hold
        cases hold
      show k.pages (a.addr + (p - a.first)) = _
      rw [hpages, if_neg hout, hpages1, if_neg hout]
      exact hold
  · intro p hp
    have hout : ¬ (data = data ∧ first ≤ p ∧ p < first + count) := fun hin =>
      hp _ mem_cons_self ⟨hin.2.1, hin.2.2⟩
    show k.lentTo data p = none
    rw [hlent, hlent1, Kernel.lend, if_neg hout]
    exact h.own p fun a ha => hp a (mem_cons_of_mem _ ha)

theorem anchor_refused_quiet (first count : Nat)
    (hcall : (pageOps ans data).anchor m first count = (.error e, m')) : Quiet m m' := by
  dsimp only [pageOps] at hcall
  split at hcall
  · cases hcall
    exact Quiet.tick m
  · cases hcall

theorem new_anchor_mapped (h : Mapped data anchors m) (page stop : Nat)
    (hnew : newAnchor (pageOps ans data) page stop m = (.ok a, m')) :
    Mapped data (a :: anchors) m' ∧ m'.heap = m.heap := by
  unfold newAnchor at hnew
  split at hnew
  · cases hnew
  rename_i m1 hcalloc
  have hm1 : m1 = m.tick := (congrArg Prod.snd hcalloc).symm
  subst hm1
  split at hnew
  · cases hnew
  rename_i hcall
  cases hnew
  exact (h.quiet (Quiet.tick m)).anchor page (stop - page) 0 hcall

theorem new_anchor_refused (page stop : Nat)
    (hnew : newAnchor (pageOps ans data) page stop m = (.error e, m')) : Quiet m m' := by
  unfold newAnchor at hnew
  split at hnew
  · rename_i hcalloc
    cases hnew
    have hm : m' = m.tick := (congrArg Prod.snd hcalloc).symm
    exact hm ▸ Quiet.tick m
  rename_i m1 hcalloc
  have hm1 : m1 = m.tick := (congrArg Prod.snd hcalloc).symm
  subst hm1
  split at hnew
  · rename_i hcall
    cases hnew
    exact (Quiet.tick m).trans (anchor_refused_quiet _ _ hcall)
  · cases hnew

/-- The anchors `pre` before the list at hand stay as they are. -/
theorem anchor_pages_mapped (ans : Answers) (stop : Nat) (as pre : List Anchor) (page : Nat)
    (m : Memory) (h : Mapped data (pre ++ as) m) :
    let r := anchorPages (pageOps ans data) stop as page m
    Mapped data (pre ++ r.2.1) r.2.2 ∧ r.2.2.heap = m.heap := by
  induction as generalizing pre page m with
  | nil =>
    unfold anchorPages
    split
    swap
    · exact ⟨h, rfl⟩
    split
    · rename_i hnew
      have hq := new_anchor_refused _ _ hnew
      exact ⟨h.quiet hq, hq.heap⟩
    · rename_i hnew
      obtain ⟨hm, hheap⟩ := new_anchor_mapped h _ _ hnew
      exact ⟨hm.of_mem (by simp [or_comm]), hheap⟩
  | cons a rest ih =>
    -- the head joins the anchors that are passed
    have hpass : ∀ page, let r := anchorPages (pageOps ans data) stop rest page m
        Mapped data (pre ++ a :: r.2.1) r.2.2 ∧ r.2.2.heap = m.heap := fun page => by
      obtain ⟨hm, hheap⟩ := ih (pre ++ [a]) page m (h.of_mem (by simp))
      exact ⟨hm.of_mem (by simp), hheap⟩
    unfold anchorPages
    split
    swap
    · exact ⟨h, rfl⟩
    split
    · exact hpass page
    split
    · exact hpass a.stop
    split
    · rename_i hnew
      have hq := new_anchor_refused _ _ hnew
      exact ⟨h.quiet hq, hq.heap⟩
    rename_i new m1 hnew
    obtain ⟨hm, hheap⟩ := new_anchor_mapped h _ _ hnew
    split
    · obtain ⟨hm2, hheap2⟩ := ih (pre ++ [new, a]) a.stop m1
        (hm.of_mem fun x => by simp only [mem_append, mem_cons]; tauto)
      exact ⟨hm2.of_mem (by simp), hheap2.trans hheap⟩
    · exact ⟨hm.of_mem fun x => by simp only [mem_append, mem_cons]; tauto, hheap⟩

/-- An anchor that goes gives its pages back; the others' addresses are not its
own, since no page has two anchors. -/
theorem Mapped.unanchor (h : Mapped data (a :: anchors) m)
    (hs : ∀ b ∈ anchors, anchorRanges.Apart a b)
    (hcall : (pageOps ans data).unanchor m a = (none, m')) :
    Mapped data anchors m' ∧ m'.heap = m.heap := by
  dsimp only [pageOps] at hcall
  split at hcall
  · cases hcall
  rename_i heq
  cases hcall
  obtain ⟨k, hk, rfl⟩ := kernel_call_some heq
  obtain ⟨hcode, hpages, hlent⟩ := Kernel.unmap_code_some hk
  refine ⟨⟨?_, ?_⟩, rfl⟩
  · intro b hb p hp
    have hold := h.anchored b (mem_cons_of_mem _ hb) p hp
    show k.pages (b.addr + (p - b.first)) = _
    rw [hpages, if_neg fun hin => ?_]
    · exact hold
    · obtain ⟨e, he, hpage⟩ := hcode _ hin.1 hin.2
      rw [hold] at he
      cases he
      dsimp only at hpage
      obtain ⟨hlo, hhi⟩ : b.first ≤ p ∧ p < b.first + b.count := hp
      have hapart : a.first + a.count ≤ b.first ∨ b.first + b.count ≤ a.first := hs b hb
      omega
  · intro p hp
    show k.lentTo data p = none
    rw [hlent, Kernel.lend]
    split
    · rfl
    · rename_i hout
      refine h.own p fun b hb hbp => ?_
      rcases mem_cons.mp hb with rfl | hb
      · exact hout ⟨rfl, hbp.1, hbp.2⟩
      · exact hp b hb hbp

theorem unanchor_refused_quiet (hcall : (pageOps ans data).unanchor m a = (some e, m')) :
    Quiet m m' := by
  dsimp only [pageOps] at hcall
  split at hcall
  · cases hcall
    exact Quiet.tick m
  · cases hcall

theorem trim_mapped (ans : Answers) (as pre : List Anchor) (m : Memory)
    (hs : anchorRanges.Sorted (pre ++ as)) (h : Mapped data (pre ++ as) m) :
    let r := trim (pageOps ans data) as m
    Mapped data (pre ++ r.1) r.2 ∧ r.2.heap = m.heap := by
  induction as generalizing pre m with
  | nil => exact ⟨h, rfl⟩
  | cons a rest ih =>
    have hkeep : ∀ m', Quiet m m' → let r := trim (pageOps ans data) rest m'
        Mapped data (pre ++ a :: r.1) r.2 ∧ r.2.heap = m.heap := fun m' hq => by
      obtain ⟨hm, hheap⟩ := ih (pre ++ [a]) m' (by simpa using hs)
        ((h.quiet hq).of_mem (by simp))
      exact ⟨hm.of_mem (by simp), hheap.trans hq.heap⟩
    unfold trim
    split
    · exact hkeep m (Quiet.refl m)
    split
    · rename_i hcall
      exact hkeep _ (unanchor_refused_quiet hcall)
    · rename_i m1 hcall
      have hcons : Mapped data (a :: (pre ++ rest)) m :=
        h.of_mem fun x => by simp only [mem_append, mem_cons]; tauto
      have hapart : ∀ b ∈ pre ++ rest, anchorRanges.Apart a b := fun b hb => by
        obtain ⟨-, hp, hcross⟩ := pairwise_append.mp hs.ordered
        rcases mem_append.mp hb with hb | hb
        · exact .inr (hcross b hb a mem_cons_self)
        · exact .inl ((pairwise_cons.mp hp).1 b hb)
      obtain ⟨hm, hheap⟩ := hcons.unanchor hapart hcall
      obtain ⟨hm2, hheap2⟩ := ih pre m1
        (hs.sublist ((sublist_cons_self a rest).append_left pre)) hm
      exact ⟨hm2, hheap2.trans hheap⟩

/-- Where the pages of a section are, with its anchors in order and inside it. -/
structure Placed (data size : Nat) (anchors : List Anchor) (m : Memory) : Prop where
  sorted : anchorRanges.Sorted anchors
  bounded : ∀ a ∈ anchors, a.stop ≤ size
  mapped : Mapped data anchors m

theorem recount_has (a : Anchor) : anchorRanges.Has (recount up v a) p ↔ anchorRanges.Has a p := by
  simp [Ranges.Has, anchorRanges]

namespace Placed

theorem quiet (h : Placed data size anchors m) (hq : Quiet m m') : Placed data size anchors m' :=
  ⟨h.sorted, h.bounded, h.mapped.quiet hq⟩

theorem trim (h : Placed data size anchors m) (ans : Answers) :
    let r := Guest.trim (pageOps ans data) anchors m
    Placed data size r.1 r.2 ∧ r.2.heap = m.heap := by
  have hsub := trim_sublist (pageOps ans data) anchors m
  obtain ⟨hm, hheap⟩ := trim_mapped ans anchors [] m h.sorted h.mapped
  exact ⟨⟨h.sorted.sublist hsub, fun a ha => h.bounded a (hsub.subset ha), hm⟩, hheap⟩

theorem anchor (h : Placed data size anchors m) (ans : Answers) (first : Nat)
    (hstop : stop ≤ size) :
    let r := anchorPages (pageOps ans data) stop anchors first m
    Placed data size r.2.1 r.2.2 ∧ r.2.2.heap = m.heap := by
  obtain ⟨hf, -⟩ := anchor_pages_filled (pageOps ans data) stop anchors first m h.sorted
  obtain ⟨hm, hheap⟩ := anchor_pages_mapped ans stop anchors [] first m h.mapped
  refine ⟨⟨hf.sorted, fun a ha => ?_, hm⟩, hheap⟩
  rcases hf.new a ha with ha | ⟨-, -, ha, -⟩
  · exact h.bounded a ha
  · exact ha.trans hstop

theorem use (h : Placed data size anchors m) (up : Bool) (first stop : Nat) :
    Placed data size (useLocked up first stop anchors) m := by
  have hplace : ∀ a, (recount up (first, stop) a).addr = a.addr := fun a => by
    unfold recount
    split <;> rfl
  rw [use_locked_eq up first stop h.sorted]
  refine ⟨h.sorted.map _ (recount_first up _) (recount_stop up _), ?_, ?_, ?_⟩
  · intro b hb
    obtain ⟨a, ha, rfl⟩ := mem_map.mp hb
    rw [recount_stop]
    exact h.bounded a ha
  · intro b hb p hp
    obtain ⟨a, ha, rfl⟩ := mem_map.mp hb
    rw [hplace, recount_first]
    exact h.mapped.anchored a ha p ((recount_has a).mp hp)
  · intro p hp
    exact h.mapped.own p fun a ha hap => hp _ (mem_map_of_mem ha) ((recount_has a).mpr hap)

end Placed

theorem memfile_map_placed (ans : Answers) (file : Memfile) (dst offset count : Nat) (m : Memory)
    (h : Placed data file.size file.anchors m) :
    let r := memfileMap (pageOps ans data) file dst offset count m
    ∃ anchors, r.2.1 = { file with anchors } ∧ Placed data file.size anchors r.2.2 ∧
      r.2.2.heap = m.heap := by
  unfold memfileMap
  split
  · exact ⟨file.anchors, rfl, h, rfl⟩
  rename_i hvalid
  have hin := (range_valid_iff file offset count).mp (by simpa using hvalid)
  have hanchor := h.anchor ans offset hin.2
  split
  · rename_i anchors m1 heq
    rw [heq] at hanchor
    obtain ⟨ht, hheap⟩ := hanchor.1.trim ans
    exact ⟨_, rfl, ht, hheap.trans hanchor.2⟩
  rename_i anchors m1 heq
  rw [heq] at hanchor
  have hq : Quiet m1 (aliasLocked (pageOps ans data) true false dst offset (offset + count) anchors
      m1).2 := alias_locked_quiet true false dst offset (offset + count) anchors m1
  split
  · rename_i m2 heq2
    rw [heq2] at hq
    obtain ⟨ht, hheap⟩ := (hanchor.1.quiet hq).trim ans
    exact ⟨_, rfl, ht, hheap.trans (hq.heap.trans hanchor.2)⟩
  · rename_i m2 heq2
    rw [heq2] at hq
    exact ⟨_, rfl, (hanchor.1.quiet hq).use true offset (offset + count),
      hq.heap.trans hanchor.2⟩

theorem memfile_use_placed (ans : Answers) (file : Memfile) (offset count : Nat) (up : Bool)
    (m : Memory) (h : Placed data file.size file.anchors m) :
    let r := memfileUse (pageOps ans data) file offset count up m
    ∃ anchors, r.1 = { file with anchors } ∧ Placed data file.size anchors r.2 ∧
      r.2.heap = m.heap := by
  have huse := h.use up offset (offset + count)
  unfold memfileUse
  split
  · exact ⟨file.anchors, rfl, h, rfl⟩
  split
  · exact ⟨_, rfl, huse, rfl⟩
  · obtain ⟨ht, hheap⟩ := huse.trim ans
    exact ⟨_, rfl, ht, hheap⟩

def sectionBytes (data : Nat) (m : Memory) : Nat → UInt8 :=
  fun i => m.heap data (i / pageSize) (i % pageSize)

/-- The `count` bytes a pointer goes over are those of the section from `offset`
on, and none faults. -/
def Reaches (m : Memory) (ptr : Ptr) (data offset count : Nat) : Prop :=
  ∀ write, ∀ j < count, m.reach write (ptr.add j) =
    some (data, (offset + j) / pageSize, (offset + j) % pageSize)

theorem Ptr.add_zero (ptr : Ptr) : ptr.add 0 = ptr := by cases ptr <;> rfl

theorem Ptr.add_add (ptr : Ptr) (i j : Nat) : (ptr.add i).add j = ptr.add (i + j) := by
  cases ptr <;> simp [Ptr.add, Nat.add_assoc]

theorem Reaches.head (h : Reaches m ptr data offset (count + 1)) (write : Bool) :
    m.reach write ptr = some (data, offset / pageSize, offset % pageSize) := by
  have := h write 0 (Nat.succ_pos _)
  rwa [Ptr.add_zero] at this

theorem Reaches.tail (h : Reaches m ptr data offset (count + 1)) :
    Reaches m (ptr.add 1) data (offset + 1) count := fun write j hj => by
  have := h write (1 + j) (by omega)
  rwa [← Ptr.add_add, ← Nat.add_assoc] at this

theorem Reaches.mono (h : Reaches m ptr data offset count) (hle : count' ≤ count) :
    Reaches m ptr data offset count' := fun write j hj => h write j (hj.trans_le hle)

theorem load_eq_slice (h : Reaches m ptr data offset count) :
    m.load ptr count = some (slice (sectionBytes data m) offset count) := by
  induction count generalizing ptr offset with
  | zero => rfl
  | succ n ih =>
    rw [Memory.load, h.head false]
    rw [ih h.tail, slice_succ]
    rfl

/-- `bytes` have been written to the section from `offset` on, and nothing
else. -/
structure Wrote (data size offset : Nat) (bytes : List UInt8) (m m' : Memory) : Prop where
  kernel : m'.kernel = m.kernel
  bytes : sectionBytes data m' = overwrite (sectionBytes data m) offset bytes
  outside : ∀ b q i, b ≠ data ∨ size ≤ q → m'.heap b q i = m.heap b q i

theorem Wrote.nil (data size offset : Nat) (m : Memory) : Wrote data size offset [] m m :=
  ⟨rfl, (overwrite_nil _ _).symm, fun _ _ _ _ => rfl⟩

theorem Wrote.append (h1 : Wrote data size offset xs m1 m2)
    (h2 : Wrote data size (offset + xs.length) ys m2 m3) :
    Wrote data size offset (xs ++ ys) m1 m3 := by
  refine ⟨h2.kernel.trans h1.kernel, ?_, fun b q i ho => (h2.outside b q i ho).trans
    (h1.outside b q i ho)⟩
  rw [h2.bytes, h1.bytes, overwrite_append]

theorem page_size_pos : 0 < pageSize := by decide

theorem Wrote.byte (m : Memory) (hin : offset < size * pageSize) (b : UInt8) :
    Wrote data size offset [b] m (m.setByte data (offset / pageSize) (offset % pageSize) b) := by
  refine ⟨rfl, ?_, ?_⟩
  · funext i
    rw [overwrite_one]
    show (if data = data ∧ i / pageSize = offset / pageSize ∧ i % pageSize = offset % pageSize
      then b else sectionBytes data m i) = _
    refine if_congr ⟨fun h => ?_, fun h => by subst h; exact ⟨rfl, rfl, rfl⟩⟩ rfl rfl
    rw [← Nat.div_add_mod i pageSize, h.2.1, h.2.2, Nat.div_add_mod]
  · intro block page i ho
    refine if_neg fun hcond => ?_
    rcases ho with ho | ho
    · exact ho hcond.1
    · have := (Nat.div_lt_iff_lt_mul page_size_pos).mpr hin
      omega

theorem store_wrote (m : Memory) (bytes : List UInt8) (h : Reaches m ptr data offset bytes.length)
    (hin : offset + bytes.length ≤ size * pageSize) :
    ∃ m', m.store ptr bytes = some m' ∧ Wrote data size offset bytes m m' := by
  induction bytes generalizing ptr offset m with
  | nil => exact ⟨m, rfl, Wrote.nil data size offset m⟩
  | cons b bytes ih =>
    rw [length_cons] at h hin
    have hbyte : Wrote data size offset [b] m _ := Wrote.byte m (by omega) b
    obtain ⟨m', hstore, hw⟩ := ih (m.setByte data (offset / pageSize) (offset % pageSize) b)
      h.tail (by omega)
    refine ⟨m', ?_, hbyte.append hw⟩
    rw [Memory.store, h.head true]
    exact hstore

/-- What a transfer of the whole buffer does. -/
structure Copied (write : Bool) (data size offset : Nat) (buffer : List UInt8) (m : Memory)
    (out : List UInt8) (m' : Memory) : Prop where
  reads : write = false → out = slice (sectionBytes data m) offset buffer.length ∧ m' = m
  writes : write = true → out = buffer ∧ Wrote data size offset buffer m m'

theorem Copied.nil (write : Bool) (data size offset : Nat) (m : Memory) :
    Copied write data size offset [] m [] m :=
  ⟨fun _ => ⟨rfl, rfl⟩, fun _ => ⟨rfl, Wrote.nil data size offset m⟩⟩

theorem Copied.kernel (h : Copied write data size offset buffer m out m') :
    m'.kernel = m.kernel := by
  cases write with
  | false => rw [(h.reads rfl).2]
  | true => exact (h.writes rfl).2.kernel

theorem Copied.append (h1 : Copied write data size offset xs m1 out1 m2)
    (h2 : Copied write data size (offset + xs.length) ys m2 out2 m3) :
    Copied write data size offset (xs ++ ys) m1 (out1 ++ out2) m3 := by
  constructor
  · intro hw
    obtain ⟨rfl, rfl⟩ := h1.reads hw
    obtain ⟨rfl, rfl⟩ := h2.reads hw
    exact ⟨by rw [slice_add, length_append], rfl⟩
  · intro hw
    obtain ⟨rfl, hw1⟩ := h1.writes hw
    obtain ⟨rfl, hw2⟩ := h2.writes hw
    exact ⟨rfl, hw1.append hw2⟩

theorem copy_chunk (write : Bool) (m : Memory) (chunk : List UInt8)
    (h : Reaches m ptr data offset chunk.length) (hin : offset + chunk.length ≤ size * pageSize) :
    ∃ out m', copyChunk write ptr chunk m = some (out, m') ∧
      Copied write data size offset chunk m out m' := by
  unfold copyChunk
  cases write with
  | false =>
    rw [load_eq_slice h]
    exact ⟨_, m, rfl, fun _ => ⟨rfl, rfl⟩, nofun⟩
  | true =>
    obtain ⟨m', hstore, hw⟩ := store_wrote m chunk h hin
    rw [hstore]
    exact ⟨chunk, m', rfl, nofun, fun _ => ⟨rfl, hw⟩⟩

/-- A piece of a transfer stays in the section and goes to one of the two
addresses of its pages, whichever can be used. -/
theorem copy_place (file : Memfile) (rest : List Anchor)
    (h : Placed file.data file.size file.anchors m) (hin : offset < file.size * pageSize)
    (hs : anchorRanges.Sorted rest)
    (hrest : ∀ a, a ∈ rest ↔ a ∈ file.anchors ∧ offset / pageSize < a.stop) :
    let place := copyPlace file offset rest
    offset < place.1 ∧ place.1 ≤ file.size * pageSize ∧
      Reaches m place.2 file.data offset (place.1 - offset) := by
  -- a page at its own address: no anchor has it
  have hheap : ∀ stop, (∀ a ∈ rest, stop ≤ a.first * pageSize) →
      Reaches m (.heap file.data offset) file.data offset (stop - offset) := by
    intro stop hout write j hj
    have hown : m.kernel.lentTo file.data ((offset + j) / pageSize) = none := by
      refine h.mapped.own _ fun a ha hp => ?_
      have hle : offset / pageSize ≤ (offset + j) / pageSize :=
        Nat.div_le_div_right (Nat.le_add_right _ _)
      have hstop := hout a ((hrest a).mpr ⟨ha, hle.trans_lt hp.2⟩)
      have hfirst : a.first * pageSize ≤ offset + j := (Nat.le_div_iff_mul_le page_size_pos).mp hp.1
      omega
    simp [Ptr.add, Memory.reach, hown]
  cases rest with
  | nil => exact ⟨hin, Nat.le_refl _, hheap _ (by simp)⟩
  | cons a rest =>
    obtain ⟨ha, hstop⟩ := (hrest a).mp mem_cons_self
    have hle : a.stop * pageSize ≤ file.size * pageSize :=
      Nat.mul_le_mul_right _ (h.bounded a ha)
    unfold copyPlace
    dsimp only
    split
    · rename_i hfirst
      have hfirst' : a.first * pageSize ≤ offset := (Nat.le_div_iff_mul_le page_size_pos).mp hfirst
      refine ⟨(Nat.div_lt_iff_lt_mul page_size_pos).mp hstop, hle, fun write j hj => ?_⟩
      obtain ⟨x, hx⟩ := Nat.exists_eq_add_of_le (hfirst'.trans (Nat.le_add_right offset j))
      have haddr : a.addr * pageSize + (offset - a.first * pageSize) + j =
          a.addr * pageSize + x := by omega
      have hpage : (offset + j) / pageSize = a.first + x / pageSize := by
        rw [hx, Nat.mul_comm, Nat.mul_add_div page_size_pos]
      have hmod : (offset + j) % pageSize = x % pageSize := by
        rw [hx, Nat.mul_comm, Nat.mul_add_mod]
      have hhas : anchorRanges.Has a (a.first + x / pageSize) := by
        refine ⟨Nat.le_add_right _ _, ?_⟩
        rw [← hpage]
        have hlt : offset + j < a.stop * pageSize := by omega
        exact (Nat.div_lt_iff_lt_mul page_size_pos).mpr hlt
      have hmapped := h.mapped.anchored a ha _ hhas
      rw [Nat.add_sub_cancel_left] at hmapped
      show m.reach write (.mapped _) = _
      rw [haddr, Memory.reach, Nat.mul_comm, Nat.mul_add_div page_size_pos, hmapped,
        Nat.mul_add_mod, hpage, hmod]
      simp
    · rename_i hfirst
      refine ⟨(Nat.div_lt_iff_lt_mul page_size_pos).mp (Nat.lt_of_not_le hfirst), ?_,
        hheap _ fun b hb => Nat.mul_le_mul_right _ ?_⟩
      · exact (Nat.mul_le_mul_right _ (hs.nonempty a mem_cons_self).le).trans hle
      · rcases mem_cons.mp hb with rfl | hb
        · exact Nat.le_refl _
        · exact ((hs.nonempty a mem_cons_self).le).trans (hs.head_le hb)

/-- The loop copies what is left of the buffer. The anchors at hand are those
that end after the place it has come to. -/
theorem copy_loop (file : Memfile) (write : Bool) (fuel : Nat) (rest : List Anchor) (offset : Nat)
    (buffer : List UInt8) (m : Memory) (h : Placed file.data file.size file.anchors m)
    (hfuel : buffer.length ≤ fuel) (hin : offset + buffer.length ≤ file.size * pageSize)
    (hs : anchorRanges.Sorted rest)
    (hrest : ∀ a, offset / pageSize < a.stop → (a ∈ rest ↔ a ∈ file.anchors)) :
    ∃ out m', copyLoop file write fuel rest offset buffer m = some (out, m') ∧
      Copied write file.data file.size offset buffer m out m' := by
  induction fuel generalizing rest offset buffer m with
  | zero =>
    obtain rfl := length_eq_zero_iff.mp (Nat.le_zero.mp hfuel)
    exact ⟨[], m, rfl, Copied.nil ..⟩
  | succ fuel ih =>
    cases buffer with
    | nil => exact ⟨[], m, rfl, Copied.nil ..⟩
    | cons b bytes =>
      unfold copyLoop
      have hafter : ∀ a, a ∈ anchorRanges.after rest (offset / pageSize) ↔
          a ∈ file.anchors ∧ offset / pageSize < a.stop := fun a => by
        rw [hs.mem_after]
        exact ⟨fun ⟨ha, hlt⟩ => ⟨(hrest a hlt).mp ha, hlt⟩,
          fun ⟨ha, hlt⟩ => ⟨(hrest a hlt).mpr ha, hlt⟩⟩
      have hs' : anchorRanges.Sorted (anchorRanges.after rest (offset / pageSize)) :=
        hs.sublist (dropWhile_sublist _)
      have hlt : offset < file.size * pageSize := by
        rw [length_cons] at hin
        omega
      have hplace := copy_place file _ h hlt hs' hafter
      have heq : rest.dropWhile (fun a => decide (a.stop ≤ offset / pageSize)) =
          anchorRanges.after rest (offset / pageSize) := rfl
      simp only [heq]
      generalize anchorRanges.after rest (offset / pageSize) = next at *
      generalize copyPlace file offset next = place at *
      obtain ⟨stop, ptr⟩ := place
      obtain ⟨hstop, hsize, hreach⟩ := hplace
      generalize hchunk : min (stop - offset) (b :: bytes).length = chunk
      have hlen : ((b :: bytes).take chunk).length = chunk := by
        rw [length_take]
        omega
      have hpiece : offset + ((b :: bytes).take chunk).length ≤ file.size * pageSize := by omega
      obtain ⟨out1, m1, hcopy, hdone⟩ := copy_chunk write m ((b :: bytes).take chunk)
        (hreach.mono (by omega)) hpiece
      have hmapped : Placed file.data file.size file.anchors m1 := by
        refine ⟨h.sorted, h.bounded, ?_, ?_⟩
        · rw [hdone.kernel]
          exact h.mapped.anchored
        · rw [hdone.kernel]
          exact h.mapped.own
      obtain ⟨out2, m2, hloop, hrest2⟩ := ih next (offset + chunk) ((b :: bytes).drop chunk) m1
        hmapped (by rw [length_drop]; omega) (by rw [length_drop]; omega) hs'
        fun a ha => by
          rw [hafter]
          exact and_iff_left ((Nat.div_le_div_right (Nat.le_add_right _ _)).trans_lt ha)
      rw [hcopy]
      dsimp only
      rw [hloop]
      refine ⟨_, m2, rfl, ?_⟩
      rw [← take_append_drop chunk (b :: bytes)]
      exact hdone.append (hlen.symm ▸ hrest2)

theorem copy_locked (file : Memfile) (write : Bool) (offset : Nat) (buffer : List UInt8)
    (m : Memory) (h : Placed file.data file.size file.anchors m)
    (hin : offset + buffer.length ≤ file.size * pageSize) :
    ∃ out m', copyLocked file write offset buffer m = some (out, m') ∧
      Copied write file.data file.size offset buffer m out m' :=
  copy_loop file write _ _ offset buffer m h (Nat.le_refl _) hin h.sorted fun _ _ => Iff.rfl

structure Shows (s₀ s : OpenSection) (f : Flat) : Prop where
  file : ∃ anchors, s.file = { s₀.file with anchors }
  placed : Placed s.file.data s.file.size s.file.anchors s.memory
  size : f.size = s.file.size * pageSize
  bytes : f.bytes = sectionBytes s.file.data s.memory
  pos : f.pos = s.pos
  nonneg : 0 ≤ s.pos
  inRange : s.pos ≤ maxOff
  outside : ∀ b q i, b ≠ s.file.data ∨ s.file.size ≤ q →
    s.memory.heap b q i = s₀.memory.heap b q i

variable {s₀ s : OpenSection} {f : Flat}

theorem pread_locked (h : Shows s₀ s f) (buffer : List UInt8) (offset : Int) :
    preadLocked s.file buffer offset s.memory = some (f.pread buffer offset, s.memory) := by
  unfold preadLocked Flat.pread
  split
  · rfl
  rw [Flat.room, h.size]
  split
  · rename_i hend
    rw [Nat.sub_eq_zero_of_le hend, Nat.zero_min]
    rfl
  dsimp only
  generalize hcount : min (s.file.size * pageSize - offset.toNat) buffer.length = count
  have hlen : (buffer.take count).length = count := by
    rw [length_take]
    omega
  obtain ⟨out, m', hcopy, hdone⟩ := copy_locked s.file false offset.toNat (buffer.take count)
    s.memory h.placed (by omega)
  obtain ⟨rfl, rfl⟩ := hdone.reads rfl
  rw [hcopy, hlen, h.bytes]
  rfl

theorem pwrite_locked (h : Shows s₀ s f) (buffer : List UInt8) (offset : Int) :
    ∃ m', pwriteLocked s.file buffer offset s.memory = some ((f.pwrite buffer offset).1, m') ∧
      Shows s₀ { s with memory := m' } (f.pwrite buffer offset).2 := by
  unfold pwriteLocked Flat.pwrite
  split
  · exact ⟨s.memory, rfl, h⟩
  split
  · rename_i hempty
    subst hempty
    refine ⟨s.memory, ?_, ?_⟩
    · simp [Flat.room]
    · simpa using h
  rename_i hne
  rw [Flat.room, h.size]
  split
  · rename_i hend
    rw [if_pos ⟨hne, hend⟩]
    exact ⟨s.memory, rfl, h⟩
  rename_i hend
  rw [if_neg fun hc => hend hc.2]
  dsimp only
  generalize hcount : min (s.file.size * pageSize - offset.toNat) buffer.length = count
  have hlen : (buffer.take count).length = count := by
    rw [length_take]
    omega
  obtain ⟨out, m', hcopy, hdone⟩ := copy_locked s.file true offset.toNat (buffer.take count)
    s.memory h.placed (by omega)
  obtain ⟨rfl, hw⟩ := hdone.writes rfl
  refine ⟨m', ?_, ?_⟩
  · rw [hcopy]
    simp
  · refine ⟨h.file, ⟨h.placed.sorted, h.placed.bounded, ?_, ?_⟩, rfl, ?_, h.pos, h.nonneg,
      h.inRange, fun b q i ho => (hw.outside b q i ho).trans (h.outside b q i ho)⟩
    · show ∀ a ∈ s.file.anchors, _
      rw [hw.kernel]
      exact h.placed.mapped.anchored
    · rw [hw.kernel]
      exact h.placed.mapped.own
    · show overwrite f.bytes _ _ = sectionBytes s.file.data m'
      rw [hw.bytes, h.bytes]

theorem Shows.remap (h : Shows s₀ s f) (hp : Placed s.file.data s.file.size anchors m)
    (hheap : m.heap = s.memory.heap) :
    Shows s₀ { s with file := { s.file with anchors }, memory := m } f := by
  obtain ⟨_, hfile⟩ := h.file
  refine ⟨⟨anchors, by rw [hfile]⟩, hp, h.size, ?_, h.pos, h.nonneg, h.inRange, ?_⟩
  · rw [h.bytes]
    funext i
    exact congrFun (congrFun (congrFun hheap.symm _) _) _
  · intro b q i ho
    show m.heap b q i = _
    rw [hheap]
    exact h.outside b q i ho

theorem Shows.advance (h : Shows s₀ s f) (hsize : (s₀.file.size * pageSize : Nat) ≤ maxOff)
    (ret : Int) (hret : 0 < ret → s.pos + ret ≤ f.size) :
    Shows s₀ { s with pos := if 0 < ret then s.pos + ret else s.pos } (f.advance ret) := by
  obtain ⟨_, hfile⟩ := h.file
  have hle : (f.size : Int) ≤ maxOff := by
    rw [h.size, hfile]
    exact hsize
  have hpos := h.pos
  have hnonneg := h.nonneg
  have hrange := h.inRange
  have hmove : (f.advance ret).pos = if 0 < ret then s.pos + ret else s.pos := by
    show f.pos + max ret 0 = _
    split <;> omega
  refine { h with pos := hmove, nonneg := ?_, inRange := ?_ }
  · show 0 ≤ if 0 < ret then s.pos + ret else s.pos
    split <;> omega
  · show (if 0 < ret then s.pos + ret else s.pos) ≤ maxOff
    split
    · exact Int.le_trans (hret ‹_›) hle
    · exact hrange

theorem pread_end (f : Flat) (buffer : List UInt8) (hpos : 0 ≤ pos)
    (hret : 0 < (f.pread buffer pos).ret) : pos + (f.pread buffer pos).ret ≤ f.size := by
  unfold Flat.pread Flat.room at *
  rw [if_neg (by omega)] at *
  dsimp only at *
  omega

theorem pwrite_end (f : Flat) (buffer : List UInt8) (hpos : 0 ≤ pos)
    (hret : 0 < (f.pwrite buffer pos).1.ret) : pos + (f.pwrite buffer pos).1.ret ≤ f.size := by
  unfold Flat.pwrite Flat.room at *
  rw [if_neg (by omega)] at *
  split at hret
  · have : enospc = 28 := rfl
    dsimp only at hret
    omega
  · rw [if_neg ‹_›]
    dsimp only at *
    omega

theorem memfile_seek (h : Shows s₀ s f) (hsize : (s₀.file.size * pageSize : Nat) ≤ maxOff)
    (offset : Int) (whence : Whence) :
    (memfileSeek s offset whence).1 = (f.seek offset whence).1 ∧
      Shows s₀ (memfileSeek s offset whence).2 (f.seek offset whence).2 := by
  have hmove : ∀ base : Int, 0 ≤ base → base ≤ maxOff →
      let r := if (0 < offset ∧ maxOff - offset < base) ∨ base + offset < 0 then (-einval, s)
        else (base + offset, { s with pos := base + offset })
      r.1 = (f.moveTo (base + offset)).1 ∧ Shows s₀ r.2 (f.moveTo (base + offset)).2 := by
    intro base hbase hmax
    unfold Flat.moveTo
    by_cases hbad : base + offset < 0 ∨ maxOff < base + offset
    · rw [if_pos hbad, if_pos (by omega)]
      exact ⟨rfl, h⟩
    · rw [if_neg hbad, if_neg (by omega)]
      exact ⟨rfl, { h with pos := rfl, nonneg := by dsimp only; omega, inRange := by dsimp only; omega }⟩
  obtain ⟨_, hfile⟩ := h.file
  unfold memfileSeek Flat.seek
  cases whence with
  | set =>
    rw [show f.moveTo offset = f.moveTo (0 + offset) by rw [Int.zero_add]]
    exact hmove 0 (Int.le_refl 0) (by decide)
  | cur =>
    rw [h.pos]
    exact hmove s.pos h.nonneg h.inRange
  | fromEnd =>
    rw [h.size]
    exact hmove _ (Int.natCast_nonneg _) (by rw [hfile]; exact hsize)
  | other => exact ⟨rfl, h⟩

theorem section_call (ans : Answers) (h : Shows s₀ s f)
    (hsize : (s₀.file.size * pageSize : Nat) ≤ maxOff) (c : SectionCall) :
    ∃ s', sectionCall ans s c = some ((f.call c).1, s') ∧ Shows s₀ s' (f.call c).2 := by
  cases c with
  | pread buffer offset =>
    refine ⟨s, ?_, h⟩
    rw [sectionCall, pread_locked h]
    rfl
  | pwrite buffer offset =>
    obtain ⟨m', hw, hs⟩ := pwrite_locked h buffer offset
    refine ⟨_, ?_, hs⟩
    rw [sectionCall, hw]
    rfl
  | read buffer =>
    have hend := h.advance hsize _ (pread_end f buffer h.nonneg)
    refine ⟨_, ?_, h.pos ▸ hend⟩
    rw [sectionCall, pread_locked h, Flat.call, h.pos]
    rfl
  | write buffer =>
    obtain ⟨m', hw, hs⟩ := pwrite_locked h buffer s.pos
    have hsz : (f.pwrite buffer s.pos).2.size = f.size := by
      unfold Flat.pwrite
      split
      · rfl
      · split <;> rfl
    have hend := hs.advance hsize _ fun hret => hsz ▸ pwrite_end f buffer h.nonneg hret
    refine ⟨_, ?_, h.pos ▸ hend⟩
    rw [sectionCall, hw, Flat.call, h.pos]
    rfl
  | seek offset whence =>
    obtain ⟨hret, hs⟩ := memfile_seek h hsize offset whence
    refine ⟨_, ?_, hs⟩
    show some (some (⟨(memfileSeek s offset whence).1, []⟩ : Reply), _) = _
    rw [hret]
    rfl
  | map dst offset count =>
    obtain ⟨anchors, hfile, hp, hheap⟩ :=
      memfile_map_placed ans s.file dst offset count s.memory h.placed
    refine ⟨_, ?_, h.remap hp hheap⟩
    rw [← hfile]
    rfl
  | use offset count up =>
    obtain ⟨anchors, hfile, hp, hheap⟩ :=
      memfile_use_placed ans s.file offset count up s.memory h.placed
    refine ⟨_, ?_, h.remap hp hheap⟩
    rw [← hfile]
    rfl
  | trim =>
    obtain ⟨hp, hheap⟩ := h.placed.trim ans
    exact ⟨_, rfl, h.remap hp hheap⟩

theorem section_calls (ans : Answers) (h : Shows s₀ s f)
    (hsize : (s₀.file.size * pageSize : Nat) ≤ maxOff) (cs : List SectionCall) :
    ∃ s', sectionCalls ans s cs = some ((f.calls cs).1, s') ∧ Shows s₀ s' (f.calls cs).2 := by
  induction cs generalizing s f with
  | nil => exact ⟨s, rfl, h⟩
  | cons c cs ih =>
    obtain ⟨s1, hcall, hs1⟩ := section_call ans h hsize c
    obtain ⟨s2, hcalls, hs2⟩ := ih hs1
    refine ⟨s2, ?_, hs2⟩
    rw [sectionCalls, hcall]
    dsimp only
    rw [hcalls]
    rfl

theorem alloc_section_shows (data size : Nat) (m : Memory) :
    Shows (allocSection data size m) (allocSection data size m)
      ⟨size * pageSize, fun _ => 0, 0⟩ := by
  refine ⟨⟨[], rfl⟩, ⟨Ranges.Sorted.nil, by simp [allocSection], ⟨by simp [allocSection], ?_⟩⟩, rfl,
    ?_, rfl, Int.le_refl 0, (by decide : (0 : Int) ≤ maxOff), fun _ _ _ _ => rfl⟩
  · intro p _
    simp [allocSection]
  · funext i
    simp [sectionBytes, allocSection, zeroPage]

/-- A section is one flat array of bytes with a position: however the transfers
and the changes of its views and anchors follow each other, none faults, each
gives what the array gives, and the section's bytes are the array's. No byte
outside the section changes. -/
theorem section_is_flat (ans : Answers) (data size : Nat) (m : Memory)
    (hsize : (size * pageSize : Nat) ≤ maxOff) (cs : List SectionCall) :
    let start := allocSection data size m
    let flat := Flat.calls ⟨size * pageSize, fun _ => 0, 0⟩ cs
    ∃ s, sectionCalls ans start cs = some (flat.1, s) ∧
      (∀ i < size * pageSize, sectionBytes data s.memory i = flat.2.bytes i) ∧ s.pos = flat.2.pos ∧
      ∀ b q i, b ≠ data ∨ size ≤ q → s.memory.heap b q i = start.memory.heap b q i := by
  obtain ⟨s, hcalls, hs⟩ := section_calls ans (alloc_section_shows data size m) hsize cs
  obtain ⟨_, hfile⟩ := hs.file
  have hbytes := hs.bytes
  have hout := hs.outside
  rw [hfile] at hbytes hout
  exact ⟨s, hcalls, fun i _ => (congrFun hbytes i).symm, hs.pos.symm, hout⟩

/-- Memory in which nothing is mapped or lent. -/
def emptyMemory : Memory := ⟨⟨fun _ => none, fun _ _ => none⟩, fun _ _ => zeroPage, 0⟩

/-- Two bytes over a page boundary, read back while the first page is anchored. -/
theorem section_is_flat_across_anchor :
    (2 * pageSize : Nat) ≤ maxOff ∧ ∃ s, sectionCalls ⟨fun _ => false, fun _ => 100⟩
      (allocSection 7 2 emptyMemory) [.pwrite [1, 2] 4095, .map 50 0 1, .pread [0, 0] 4095] =
        some ([⟨2, [1, 2]⟩, ⟨2, [1, 2]⟩], s) := by
  refine ⟨by decide, ?_⟩
  obtain ⟨s, h, -⟩ := section_is_flat ⟨fun _ => false, fun _ => 100⟩ 7 2 emptyMemory (by decide)
    [.pwrite [1, 2] 4095, .map 50 0 1, .pread [0, 0] 4095]
  exact ⟨s, h⟩

/-- A write of nothing at the end of a section does not fail. -/
theorem empty_write_at_end :
    (sectionCalls ⟨fun _ => false, fun _ => 100⟩ (allocSection 7 1 emptyMemory)
      [.pwrite [] pageSize]).map Prod.fst = some [⟨0, []⟩] := by
  rfl

end Autorun.Guest.SectionIo
