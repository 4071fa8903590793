import Mathlib.Algebra.Order.BigOperators.Group.List
import Mathlib.Algebra.Order.Ring.Nat
import Autorun.Heap.Dynarec
import Autorun.Proofs.CodeArena

namespace Autorun.Heap.Dynarec

open Autorun.Lib List
open CodeArena hiding none World Kept

variable {arenas : List NxArena} {blocks : List (Nat × Nat)} {nx : NxArena}

def lengthAt (arenas : List NxArena) (b : Nat × Nat) : Nat :=
  (Code.chunks { arenas } b.1).chunkSize (b.2 - header)

def Clear (p n q m : Nat) : Prop := p + n ≤ q ∨ q + m ≤ p

/-- Two arenas are mapped at different places. -/
def Apart (a b : NxArena) : Prop :=
  Clear a.rw a.size b.rw b.size ∧ Clear a.rw a.size b.rx b.size ∧
    Clear a.rx a.size b.rw b.size ∧ Clear a.rx a.size b.rx b.size

/-- An arena is mapped twice, at different places. -/
structure Mapped (a : NxArena) : Prop where
  small : a.size < 2 ^ 32
  rw : 0 < a.rw ∧ a.rw + a.size ≤ 2 ^ 64
  rx : 0 < a.rx ∧ a.rx + a.size ≤ 2 ^ 64
  apart : Clear a.rw a.size a.rx a.size
  inside : a.alloc.size ≤ a.size

/-- The blocks of an arena are its chunks in use. -/
def Owns (blocks : List (Nat × Nat)) (i : Nat) (a : Arena) : Prop :=
  ∃ tiles, Sound a tiles ∧
    ∀ p, (i, p) ∈ blocks ↔ ∃ t ∈ tiles, t.free = false ∧ p = t.start + header

/-- The blocks are the chunks in use of all arenas. -/
structure Holds (arenas : List NxArena) (blocks : List (Nat × Nat)) : Prop where
  few : arenas.length ≤ maxArenas
  nodup : blocks.Nodup
  known : ∀ b ∈ blocks, b.1 < arenas.length
  owns : ∀ i nx, arenas[i]? = some nx → Owns blocks i nx.alloc
  mapped : ∀ nx ∈ arenas, Mapped nx
  apart : arenas.Pairwise Apart
  total : (blocks.map (lengthAt arenas)).sum = (arenas.map (·.alloc.live)).sum

theorem chunks_eq {c : Code} (h : c.arenas[i]? = some nx) : c.chunks i = nx.alloc := by
  unfold Code.chunks
  rw [h]
  rfl

theorem lengthAt_eq (h : arenas[i]? = some nx) (p : Nat) :
    lengthAt arenas (i, p) = nx.alloc.chunkSize (p - header) := by
  rw [lengthAt, chunks_eq h]

theorem Holds.tile (h : Holds arenas blocks) (hb : (i, p) ∈ blocks) :
    ∃ nx tiles t, arenas[i]? = some nx ∧ Sound nx.alloc tiles ∧ t ∈ tiles ∧ t.free = false ∧
      p = t.start + header ∧ lengthAt arenas (i, p) = t.length ∧
      ∀ q, (i, q) ∈ blocks ↔ ∃ t ∈ tiles, t.free = false ∧ q = t.start + header := by
  have hi := h.known _ hb
  obtain ⟨nx, hnx⟩ : ∃ nx, arenas[i]? = some nx := ⟨_, List.getElem?_eq_getElem hi⟩
  obtain ⟨tiles, hsound, hblocks⟩ := h.owns i nx hnx
  obtain ⟨t, ht, hused, rfl⟩ := (hblocks p).mp hb
  refine ⟨nx, tiles, t, hnx, hsound, ht, hused, rfl, ?_, hblocks⟩
  rw [lengthAt_eq hnx, Nat.add_sub_cancel, hsound.shape.size t ht]

theorem Holds.bound (h : Holds arenas blocks) : (blocks.map (lengthAt arenas)).sum ≤ 2 ^ 37 := by
  have hlive : ∀ nx ∈ arenas, nx.alloc.live ≤ 2 ^ 32 := by
    intro nx hnx
    obtain ⟨i, hi, he⟩ := mem_iff_getElem.mp hnx
    obtain ⟨tiles, hsound, -⟩ := h.owns i nx (he ▸ List.getElem?_eq_getElem hi)
    have := used_length_le hsound.shape.tiled
    have := hsound.shape.bound
    rw [hsound.live]
    omega
  have hsum : (arenas.map (·.alloc.live)).sum ≤ arenas.length * 2 ^ 32 := by
    have := sum_le_card_nsmul (arenas.map (·.alloc.live)) (2 ^ 32) (by
      intro n hn
      obtain ⟨nx, hnx, rfl⟩ := mem_map.mp hn
      exact hlive nx hnx)
    simpa using this
  have := h.few
  unfold maxArenas at this
  rw [h.total]
  omega

theorem sum_modify {l : List α} (g : α → Nat) (f : α → α) (h : l[i]? = some x) :
    ((l.modify i f).map g).sum + g x = (l.map g).sum + g (f x) := by
  induction l generalizing i with
  | nil => cases h
  | cons y l ih =>
    cases i with
    | zero =>
      cases h
      simp only [modify_zero_cons, map_cons, sum_cons]
      omega
    | succ i =>
      have := ih h
      simp only [modify_succ_cons, map_cons, sum_cons]
      omega

def withChunks (arenas : List NxArena) (i : Nat) (a : Arena) : List NxArena :=
  arenas.modify i fun nx => { nx with alloc := a }

theorem get_withChunks (h : arenas[i]? = some nx) (a : Arena) (j : Nat) :
    (withChunks arenas i a)[j]? = if i = j then some { nx with alloc := a } else arenas[j]? := by
  unfold withChunks
  by_cases hij : i = j
  · subst hij
    simp [h]
  · simp [hij]

/-- A block whose chunk is the same before and after has its length. -/
theorem lengthAt_kept (hnx : arenas[i]? = some nx) (hsound : Sound nx.alloc tiles) (hsound' : Sound a tiles')
    (hb : b.1 = i → ∃ t ∈ tiles, t ∈ tiles' ∧ b.2 = t.start + header) :
    lengthAt (withChunks arenas i a) b = lengthAt arenas b := by
  obtain ⟨j, p⟩ := b
  by_cases hj : j = i
  · subst hj
    obtain ⟨t, ht, ht', rfl⟩ := hb rfl
    have hget := (get_withChunks hnx a j).trans (if_pos rfl)
    rw [lengthAt_eq hget, lengthAt_eq hnx, Nat.add_sub_cancel, hsound.shape.size t ht]
    exact hsound'.shape.size t ht'
  · unfold lengthAt Code.chunks
    rw [get_withChunks hnx, if_neg (Ne.symm hj)]

/-- Where the arenas are mapped has not changed. -/
theorem pairwise_withChunks (h : arenas.Pairwise Apart) (i : Nat) (a : Arena) :
    (withChunks arenas i a).Pairwise Apart := by
  have hplace : (withChunks arenas i a).map (fun nx => { nx with alloc := a }) =
      arenas.map fun nx => { nx with alloc := a } := by
    unfold withChunks
    induction arenas generalizing i with
    | nil => simp
    | cons b rest ih => cases i <;> simp_all
  have hmap : (arenas.map fun nx => { nx with alloc := a }).Pairwise Apart := pairwise_map.mpr h
  rw [← hplace, pairwise_map] at hmap
  exact hmap

variable {blocks' live : List (Nat × Nat)}

theorem Holds.perm (h : Holds arenas blocks)
    (hperm : blocks.Perm blocks') : Holds arenas blocks' := by
  refine ⟨h.few, hperm.nodup_iff.mp h.nodup, fun b hb => h.known b (hperm.mem_iff.mpr hb),
    fun i nx hnx => ?_, h.mapped, h.apart, ?_⟩
  · obtain ⟨tiles, hsound, hblocks⟩ := h.owns i nx hnx
    exact ⟨tiles, hsound, fun p => hperm.mem_iff.symm.trans (hblocks p)⟩
  · rw [← h.total]
    exact ((hperm.map _).sum_eq).symm

theorem Holds.update {a : Arena} {tiles' : List Tile}
    (h : Holds arenas blocks) (hnx : arenas[i]? = some nx) (hnodup : blocks'.Nodup)
    (hsound : Sound a tiles') (hsize : a.size = nx.alloc.size)
    (hother : ∀ j q, j ≠ i → ((j, q) ∈ blocks' ↔ (j, q) ∈ blocks))
    (hown : ∀ q, (i, q) ∈ blocks' ↔ ∃ t ∈ tiles', t.free = false ∧ q = t.start + header)
    (htotal : (blocks'.map (lengthAt (withChunks arenas i a))).sum + nx.alloc.live =
      (blocks.map (lengthAt arenas)).sum + a.live) :
    Holds (withChunks arenas i a) blocks' := by
  have hlen : (withChunks arenas i a).length = arenas.length := length_modify _ _ _
  have hi : i < arenas.length := (List.getElem?_eq_some_iff.mp hnx).1
  refine ⟨hlen ▸ h.few, hnodup, fun b hb => ?_, fun j nx' hnx' => ?_, fun nx' hnx' => ?_,
    pairwise_withChunks h.apart i a, ?_⟩
  · rw [hlen]
    by_cases hbi : b.1 = i
    · omega
    · exact h.known b ((hother b.1 b.2 hbi).mp hb)
  · rw [get_withChunks hnx] at hnx'
    by_cases hij : i = j
    · subst hij
      rw [if_pos rfl] at hnx'
      cases hnx'
      exact ⟨tiles', hsound, hown⟩
    · rw [if_neg hij] at hnx'
      obtain ⟨tiles, hsound', hblocks⟩ := h.owns j nx' hnx'
      exact ⟨tiles, hsound', fun p => (hother j p (Ne.symm hij)).trans (hblocks p)⟩
  · obtain ⟨j, hj⟩ := mem_iff_getElem?.mp hnx'
    rw [get_withChunks hnx] at hj
    split at hj
    · cases hj
      have hm := h.mapped nx (mem_of_getElem? hnx)
      exact { hm with inside := hsize ▸ hm.inside }
    · exact h.mapped nx' (mem_of_getElem? hj)
  · have := sum_modify (fun nx : NxArena => nx.alloc.live) (fun nx => { nx with alloc := a }) hnx
    have := h.total
    unfold withChunks at *
    dsimp only at *
    omega

theorem Holds.alloc (h : Holds arenas blocks) (hnx : arenas[i]? = some nx) (size : Nat) :
    CodeArena.alloc nx.alloc size = (0, nx.alloc) ∨ ∃ p, (CodeArena.alloc nx.alloc size).1 = p ∧ p ≠ 0 ∧
      Holds (withChunks arenas i (CodeArena.alloc nx.alloc size).2) ((i, p) :: blocks) ∧
      ∀ b ∈ blocks, lengthAt (withChunks arenas i (CodeArena.alloc nx.alloc size).2) b =
        lengthAt arenas b := by
  obtain ⟨tiles, hsound, hblocks⟩ := h.owns i nx hnx
  rcases hsound.alloc size with hnone | ⟨t, tiles', hp, hused, hsound', ⟨-, -, hsize, hlive⟩, hmem, hnew⟩
  · exact .inl hnone
  right
  generalize CodeArena.alloc nx.alloc size = r at *
  obtain ⟨p, a⟩ := r
  dsimp only at *
  subst hp
  have hfresh : (i, t.start + header) ∉ blocks := by
    intro hb
    obtain ⟨u, hu, huused, he⟩ := (hblocks _).mp hb
    exact hnew u hu huused (Nat.add_right_cancel he).symm
  have hget : (withChunks arenas i a)[i]? = some { nx with alloc := a } := by
    rw [get_withChunks hnx, if_pos rfl]
  have hkept : ∀ b ∈ blocks, lengthAt (withChunks arenas i a) b = lengthAt arenas b := by
    intro b hb
    refine lengthAt_kept hnx hsound hsound' fun hi => ?_
    obtain ⟨u, hu, huused, he⟩ := (hblocks b.2).mp (hi ▸ hb)
    exact ⟨u, hu, (hmem u huused).mpr (.inr hu), he⟩
  have hself : lengthAt (withChunks arenas i a) (i, t.start + header) = t.length := by
    rw [lengthAt_eq hget, Nat.add_sub_cancel]
    exact hsound'.shape.size t ((hmem t hused).mpr (.inl rfl))
  refine ⟨_, rfl, by unfold header; omega, ?_, hkept⟩
  refine h.update hnx (nodup_cons.mpr ⟨hfresh, h.nodup⟩) hsound' hsize (fun j q hj => ?_)
    (fun q => ?_) ?_
  · rw [mem_cons]
    refine ⟨fun hor => hor.resolve_left fun he => hj ?_, .inr⟩
    cases he
    rfl
  · rw [mem_cons, hblocks q, exists_used hused hmem, Prod.mk.injEq, eq_self, true_and]
  · rw [map_cons, sum_cons, hself, map_congr_left hkept, hlive]
    omega

theorem Holds.free (h : Holds arenas blocks) (hnx : arenas[i]? = some nx) (hb : (i, p) ∈ blocks) :
    Holds (withChunks arenas i (arenaFree nx.alloc p).2) (blocks.erase (i, p)) ∧
      ∀ b ∈ blocks.erase (i, p),
        lengthAt (withChunks arenas i (arenaFree nx.alloc p).2) b = lengthAt arenas b := by
  obtain ⟨tiles, hsound, hblocks⟩ := h.owns i nx hnx
  obtain ⟨c, hc, hused, rfl⟩ := (hblocks p).mp hb
  obtain ⟨pre, post, rfl⟩ := append_of_mem hc
  obtain ⟨tiles', hsound', ⟨-, -, hsize, hlive⟩, hmem, hle⟩ := hsound.arena_free hused
  have hstarts := hsound.shape.starts
  have hlen : lengthAt arenas (i, c.start + header) = c.length := by
    rw [lengthAt_eq hnx, Nat.add_sub_cancel, hsound.shape.size c hc]
  generalize (arenaFree nx.alloc (c.start + header)).2 = a at *
  have hblocks' : ∀ q, (i, q) ∈ blocks.erase (i, c.start + header) ↔
      ∃ t ∈ tiles', t.free = false ∧ q = t.start + header := by
    intro q
    rw [h.nodup.mem_erase_iff, hblocks q]
    constructor
    · rintro ⟨hne, t, ht, htused, rfl⟩
      refine ⟨t, (hmem t htused).mpr ((mem_middle.mp ht).resolve_left ?_), htused, rfl⟩
      rintro rfl
      exact hne rfl
    · rintro ⟨t, ht, htused, rfl⟩
      have ht' := (hmem t htused).mp ht
      have := hstarts t ht'
      refine ⟨fun he => ?_, t, mem_middle.mpr (.inr ht'), htused, rfl⟩
      have := congrArg Prod.snd he
      omega
  have hkept : ∀ b ∈ blocks.erase (i, c.start + header),
      lengthAt (withChunks arenas i a) b = lengthAt arenas b := by
    intro b hb'
    refine lengthAt_kept hnx hsound hsound' fun hi => ?_
    obtain ⟨t, ht, htused, he⟩ := (hblocks' b.2).mp (hi ▸ hb')
    exact ⟨t, mem_middle.mpr (.inr ((hmem t htused).mp ht)), ht, he⟩
  refine ⟨h.update hnx (h.nodup.erase _) hsound' hsize (fun j q hj => ?_) hblocks' ?_, hkept⟩
  · rw [h.nodup.mem_erase_iff]
    refine ⟨And.right, fun hq => ⟨fun he => hj ?_, hq⟩⟩
    cases he
    rfl
  · have hsum : (blocks.map (lengthAt arenas)).sum = c.length +
        ((blocks.erase (i, c.start + header)).map (lengthAt arenas)).sum := by
      rw [((perm_cons_erase hb).map _).sum_eq, map_cons, sum_cons, hlen]
    rw [map_congr_left hkept, hsum]
    dsimp only at hlive
    omega

theorem lengthAt_append (nx : NxArena) (hb : b.1 < arenas.length) :
    lengthAt (arenas ++ [nx]) b = lengthAt arenas b := by
  unfold lengthAt Code.chunks
  rw [List.getElem?_append_left hb]

theorem Holds.create (h : Holds arenas blocks) (hroom : arenas.length < maxArenas)
    (hmapped : Mapped nx) (hapart : ∀ a ∈ arenas, Apart a nx)
    (hsound : Sound nx.alloc [⟨0, n, true⟩]) : Holds (arenas ++ [nx]) blocks := by
  have hget : ∀ (i : Nat) (a : NxArena), (arenas ++ [nx])[i]? = some a →
      arenas[i]? = some a ∨ i = arenas.length ∧ a = nx := by
    intro i a ha
    rw [List.getElem?_append] at ha
    split at ha
    · exact .inl ha
    · rw [List.getElem?_singleton] at ha
      split at ha
      · cases ha
        exact .inr ⟨by omega, rfl⟩
      · cases ha
  refine ⟨?_, h.nodup, fun b hb => ?_, fun i a ha => ?_, fun a ha => ?_,
    pairwise_append.mpr ⟨h.apart, pairwise_singleton .., fun a ha b hb => mem_singleton.mp hb ▸ hapart a ha⟩, ?_⟩
  · rw [length_append, length_singleton]
    omega
  · rw [length_append]
    have := h.known b hb
    omega
  · rcases hget i a ha with ha | ⟨rfl, rfl⟩
    · exact h.owns i a ha
    · refine ⟨_, hsound, fun p => ⟨fun hb => ?_, ?_⟩⟩
      · have := h.known _ hb
        omega
      · rintro ⟨t, ht, hused, -⟩
        rw [mem_singleton.mp ht] at hused
        cases hused
  · rcases mem_append.mp ha with ha | ha
    · exact h.mapped a ha
    · exact mem_singleton.mp ha ▸ hmapped
  · have hlive : nx.alloc.live = 0 := hsound.live
    rw [map_congr_left fun b hb => lengthAt_append nx (h.known b hb), h.total]
    simp [hlive]

theorem Holds.write (h : Holds arenas blocks) (hb : (i, p) ∈ blocks) (hx : p ≤ x)
    (hx' : x < p - header + lengthAt arenas (i, p)) (v : Nat) :
    Holds (withChunks arenas i ((Code.chunks { arenas } i).store x v)) blocks ∧
      ∀ b ∈ blocks, lengthAt (withChunks arenas i ((Code.chunks { arenas } i).store x v)) b =
        lengthAt arenas b := by
  obtain ⟨nx, tiles, t, hnx, hsound, ht, hused, rfl, hlen, hblocks⟩ := h.tile hb
  rw [hlen, Nat.add_sub_cancel] at hx'
  rw [chunks_eq hnx]
  have hsound' : Sound (nx.alloc.store x v) tiles :=
    ⟨hsound.shape.write ht hused hx hx' v, hsound.coalesced, hsound.live⟩
  have hkept : ∀ b ∈ blocks, lengthAt (withChunks arenas i (nx.alloc.store x v)) b =
      lengthAt arenas b := by
    intro b hb'
    refine lengthAt_kept hnx hsound hsound' fun hi => ?_
    obtain ⟨u, hu, -, he⟩ := (hblocks b.2).mp (hi ▸ hb')
    exact ⟨u, hu, hu, he⟩
  refine ⟨h.update hnx h.nodup hsound' rfl (fun _ _ _ => Iff.rfl) hblocks ?_, hkept⟩
  rw [map_congr_left hkept]
  rfl

/-- The queue of the quarantine is in its buffer. -/
def Fits (q : RingQueue Entry) : Prop := q.count ≤ q.cap ∧ (q.head = 0 ∨ q.head < q.cap)

theorem quarantine_push (hq : Fits q) (h : quarantinePush q e memory = some q') :
    Fits q' ∧ q'.contents = q.contents ++ [e] := by
  obtain ⟨hcount, hhead⟩ := hq
  unfold quarantinePush at h
  split at h
  · split at h
    · cases h
      have hroom : q.count < if q.cap = 0 then 256 else q.cap * 2 := by
        split <;> omega
      refine ⟨⟨hroom, .inl rfl⟩, ?_⟩
      rw [RingQueue.contents_append _ _ hroom, RingQueue.contents_move _ (by omega)]
    · cases h
  · cases h
    have hroom : q.count < q.cap := by omega
    exact ⟨⟨hroom, hhead⟩, RingQueue.contents_append _ _ hroom⟩

theorem quarantine_oldest (hq : Fits q) (h : quarantineOldest q = some e) :
    ∃ rest, q.contents = e :: rest ∧ q.drop.contents = rest ∧ Fits q.drop := by
  obtain ⟨hcount, hhead⟩ := hq
  unfold quarantineOldest at h
  split at h
  · cases h
  · rename_i hsome
    cases h
    have hlen := q.contents_length
    cases hc : q.contents with
    | nil =>
      rw [hc] at hlen
      exact absurd hlen.symm hsome
    | cons x rest =>
      obtain ⟨hx, hdrop⟩ := RingQueue.contents_cons hc
      rw [Nat.mod_eq_of_lt (by omega)] at hx
      refine ⟨rest, by rw [hx], hdrop, ?_, ?_⟩
      · show q.count - 1 ≤ q.cap
        omega
      · show (if q.count - 1 = 0 then 0 else (q.head + 1) % q.cap) = 0 ∨
          (if q.count - 1 = 0 then 0 else (q.head + 1) % q.cap) < q.cap
        split
        · exact .inl rfl
        · exact .inr (Nat.mod_lt _ (by omega))

theorem find_arena (hmapped : ∀ a ∈ arenas, Mapped a) (hapart : arenas.Pairwise Apart)
    (hnx : arenas[i]? = some nx) (hp : p < nx.size) (k : Nat) :
    findArena (nx.rw + p) k arenas = some (k + i, p) ∧
      findArena (nx.rx + p) k arenas = some (k + i, p) := by
  induction arenas generalizing i k with
  | nil => cases hnx
  | cons a rest ih =>
    obtain ⟨hhead, hrest⟩ := pairwise_cons.mp hapart
    have hm := hmapped nx (mem_of_getElem? hnx)
    obtain ⟨-, hrw⟩ := hm.rw
    obtain ⟨-, hrx⟩ := hm.rx
    cases i with
    | zero =>
      cases hnx
      have h1 : sub64 (nx.rw + p) nx.rw = p := by rw [sub64_eq (by omega) (by omega)]; omega
      have h2 : sub64 (nx.rx + p) nx.rx = p := by rw [sub64_eq (by omega) (by omega)]; omega
      have h3 : ¬sub64 (nx.rx + p) nx.rw < nx.size := by
        have := hm.apart
        unfold Clear at this
        exact sub64_outside (by omega) hrw (by omega)
      unfold findArena
      rw [h1, h2, if_pos hp, if_neg h3, if_pos hp]
      exact ⟨rfl, rfl⟩
    | succ i =>
      have ha := hmapped a (by simp)
      obtain ⟨h1, h2, h3, h4⟩ := hhead nx (mem_of_getElem? hnx)
      unfold Clear at h1 h2 h3 h4
      have hout : ∀ x, x = nx.rw + p ∨ x = nx.rx + p →
          ¬sub64 x a.rw < a.size ∧ ¬sub64 x a.rx < a.size := by
        intro x hx
        exact ⟨sub64_outside (by omega) ha.rw.2 (by omega), sub64_outside (by omega) ha.rx.2 (by omega)⟩
      obtain ⟨ih1, ih2⟩ := ih (fun b hb => hmapped b (by simp [hb])) hrest hnx (k + 1)
      unfold findArena
      rw [if_neg (hout _ (.inl rfl)).1, if_neg (hout _ (.inl rfl)).2, if_neg (hout _ (.inr rfl)).1,
        if_neg (hout _ (.inr rfl)).2, ih1, ih2, show k + 1 + i = k + (i + 1) by omega]
      exact ⟨rfl, rfl⟩

/-- What holds of the code and the blocks between two steps. -/
structure World.Inv (w : World) : Prop where
  fits : Fits w.code.quarantine
  holds : Holds w.code.arenas (w.live ++ w.waiting)
  bytes : w.code.dynarecBytes = (w.live.map fun b => w.chunkLength b - header).sum
  waitingBytes : w.code.quarantineBytes = (w.waiting.map w.chunkLength).sum

variable {w : World}

theorem World.Inv.chunk (h : w.Inv) (hb : (i, p) ∈ w.live ++ w.waiting) :
    ∃ nx, w.code.arenas[i]? = some nx ∧ w.code.chunks i = nx.alloc ∧ header ≤ p ∧
      sub32 p header = p - header ∧ nx.alloc.free (p - header) = 0 ∧
      nx.alloc.chunkSize (p - header) = w.chunkLength (i, p) ∧ least ≤ w.chunkLength (i, p) ∧
      w.chunkLength (i, p) < 2 ^ 32 := by
  obtain ⟨nx, tiles, t, hnx, hsound, ht, hused, rfl, hlen, -⟩ := h.holds.tile hb
  have hin := (hsound.shape.tiled.inside ht).2.2
  have hbound := hsound.shape.bound
  have hwhole := (hsound.shape.whole t ht).2.2
  unfold Tile.stop least at *
  refine ⟨nx, hnx, chunks_eq hnx, Nat.le_add_left _ _, sub32_eq (Nat.le_add_left _ _) (by omega), ?_, ?_, ?_, ?_⟩
  · rw [Nat.add_sub_cancel, hsound.shape.flag t ht, hused]
    rfl
  · rw [Nat.add_sub_cancel, hsound.shape.size t ht]
    exact hlen.symm
  · exact hwhole.trans (Nat.le_of_eq hlen.symm)
  · have : w.chunkLength (i, t.start + header) = t.length := hlen
    omega

theorem sum_erase {f : Nat × Nat → Nat} {l : List (Nat × Nat)} (hb : b ∈ l) :
    (l.map f).sum = f b + ((l.erase b).map f).sum := by
  rw [((perm_cons_erase hb).map f).sum_eq, map_cons, sum_cons]

theorem World.Inv.small (h : w.Inv) :
    (w.live.map w.chunkLength).sum + (w.waiting.map w.chunkLength).sum ≤ 2 ^ 37 := by
  have := h.holds.bound
  rw [map_append, sum_append] at this
  exact this

theorem World.Inv.held_le (l : List (Nat × Nat)) :
    (l.map fun b => w.chunkLength b - header).sum ≤ (l.map w.chunkLength).sum := by
  refine sum_le_sum fun b _ => ?_
  exact Nat.sub_le _ _

/-- The counts of bytes of blocks that keep their length. -/
theorem World.counts (w : World) {f : Nat × Nat → Nat} {l l' : List (Nat × Nat)}
    (hkept : ∀ b ∈ l ++ l', f b = w.chunkLength b) :
    (l.map fun b => f b - header).sum = (l.map fun b => w.chunkLength b - header).sum ∧
      (l'.map f).sum = (l'.map w.chunkLength).sum :=
  ⟨congrArg List.sum (map_congr_left fun b hb => congrArg (· - header) (hkept b (mem_append_left _ hb))),
    congrArg List.sum (map_congr_left fun b hb => hkept b (mem_append_right _ hb))⟩

theorem free_live_eq (h : w.Inv) (haddr : addr ≠ 0)
    (hfind : findArena addr 0 w.code.arenas = some (i, p)) (hb : (i, p) ∈ w.live)
    (hnx : w.code.arenas[i]? = some nx) :
    freeDynarecMap w.code addr now memory =
      match quarantinePush w.code.quarantine ⟨i, p, now⟩ memory with
      | some q => ⟨w.code.arenas, q, w.code.quarantineBytes + w.chunkLength (i, p),
          w.code.dynarecBytes - (w.chunkLength (i, p) - header)⟩
      | none => ⟨withChunks w.code.arenas i (arenaFree nx.alloc p).2, w.code.quarantine,
          w.code.quarantineBytes, w.code.dynarecBytes - (w.chunkLength (i, p) - header)⟩ := by
  obtain ⟨nx', hnx', hchunks, hp, hsub, hflag, hsize, hleast, hlt⟩ :=
    h.chunk (mem_append_left _ hb)
  obtain rfl : nx' = nx := Option.some.inj (hnx'.symm.trans hnx)
  have hsmall := h.small
  have hsum := sum_erase (f := fun b => w.chunkLength b - header) hb
  have hheld := World.Inv.held_le (w := w) w.live
  have hbytes := h.bytes
  have hwbytes := h.waitingBytes
  have hsize' : sub32 (w.chunkLength (i, p)) header = w.chunkLength (i, p) - header :=
    sub32_eq (by unfold least at hleast; omega) hlt
  have hcond : ¬(p < header ∨ (w.code.chunks i).free (sub32 p header) ≠ 0) := by
    rw [hchunks, hsub, hflag]
    omega
  have hdyn : sub64 w.code.dynarecBytes (w.chunkLength (i, p) - header) =
      w.code.dynarecBytes - (w.chunkLength (i, p) - header) :=
    sub64_eq (by omega) (by omega)
  have hwait : add64 w.code.quarantineBytes (w.chunkLength (i, p)) =
      w.code.quarantineBytes + w.chunkLength (i, p) := add64_eq (by omega)
  unfold freeDynarecMap
  rw [if_neg haddr, hfind]
  dsimp only
  rw [if_neg hcond, hchunks, hsub, hsize, hsize', hdyn, hwait]
  cases quarantinePush w.code.quarantine ⟨i, p, now⟩ memory with
  | some q => rfl
  | none => exact congrArg (fun a => (⟨withChunks w.code.arenas i (arenaFree a p).2, _, _, _⟩ : Code)) hchunks

theorem World.Inv.free_live (h : w.Inv) (haddr : addr ≠ 0)
    (hfind : findArena addr 0 w.code.arenas = some (i, p)) (hb : (i, p) ∈ w.live) :
    (w.step cfg (.free addr now memory)).Inv := by
  obtain ⟨nx, hnx, -⟩ := h.chunk (mem_append_left _ hb)
  have hsum := sum_erase (f := fun b => w.chunkLength b - header) hb
  have hbytes := h.bytes
  unfold World.step
  dsimp only
  rw [free_live_eq h haddr hfind hb hnx, if_neg haddr, hfind]
  cases hpush : quarantinePush w.code.quarantine ⟨i, p, now⟩ memory with
  | some q =>
    obtain ⟨hfits, hcontents⟩ := quarantine_push h.fits hpush
    have hwaiting : World.waiting ⟨⟨w.code.arenas, q, w.code.quarantineBytes + w.chunkLength (i, p),
        w.code.dynarecBytes - (w.chunkLength (i, p) - header)⟩, w.live.erase (i, p)⟩ =
        w.waiting ++ [(i, p)] := by
      unfold World.waiting
      rw [hcontents, map_append]
      rfl
    refine ⟨hfits, ?_, ?_, ?_⟩
    · rw [hwaiting]
      refine h.holds.perm ?_
      refine ((perm_cons_erase hb).append_right _).trans ?_
      rw [cons_append, ← append_assoc]
      exact (perm_append_singleton _ _).symm
    · show w.code.dynarecBytes - (w.chunkLength (i, p) - header) =
        ((w.live.erase (i, p)).map fun b => w.chunkLength b - header).sum
      omega
    · rw [hwaiting]
      show w.code.quarantineBytes + w.chunkLength (i, p) =
        ((w.waiting ++ [(i, p)]).map w.chunkLength).sum
      rw [map_append, sum_append, ← h.waitingBytes]
      simp
  | none =>
    obtain ⟨hholds, hkept⟩ := h.holds.free hnx (mem_append_left _ hb)
    rw [erase_append_left _ hb] at hholds hkept
    obtain ⟨hlive, hwait⟩ := w.counts hkept
    refine ⟨h.fits, hholds, Eq.trans ?_ hlive.symm, h.waitingBytes.trans hwait.symm⟩
    dsimp only
    omega

theorem World.Inv.step_free (h : w.Inv) (hok : w.Ok (.free addr now memory)) :
    (w.step cfg (.free addr now memory)).Inv := by
  by_cases haddr : addr = 0
  · unfold World.step freeDynarecMap
    dsimp only
    rw [if_pos haddr, if_pos haddr]
    exact h
  cases hfind : findArena addr 0 w.code.arenas with
  | none =>
    unfold World.step freeDynarecMap
    dsimp only
    rw [if_neg haddr, if_neg haddr, hfind]
    exact h
  | some b =>
    by_cases hb : b ∈ w.live
    · exact h.free_live haddr hfind hb
    · have hflag := (hok b hfind).resolve_left hb
      unfold World.step freeDynarecMap
      dsimp only
      rw [if_neg haddr, if_neg haddr, hfind]
      dsimp only
      rw [if_pos hflag, erase_of_not_mem hb]
      exact h

variable {c : Code}

theorem waiting_cons (hcontents : c.quarantine.contents = e :: rest) :
    World.waiting ⟨c, live⟩ = (e.arena, e.payload) :: rest.map fun e => (e.arena, e.payload) := by
  unfold World.waiting
  rw [hcontents]
  rfl

theorem World.Inv.requeue (h : World.Inv ⟨c, live⟩)
    (hold : quarantineOldest c.quarantine = some e)
    (hpush : quarantinePush c.quarantine.drop { e with stamp := now } memory = some q) :
    World.Inv ⟨{ c with quarantine := q }, live⟩ := by
  obtain ⟨rest, hcontents, hdrop, hfits⟩ := quarantine_oldest h.fits hold
  obtain ⟨hfits', hcontents'⟩ := quarantine_push hfits hpush
  have hwaiting' : World.waiting ⟨{ c with quarantine := q }, live⟩ =
      (rest.map fun e => (e.arena, e.payload)) ++ [(e.arena, e.payload)] := by
    unfold World.waiting
    rw [hcontents', hdrop, map_append]
    rfl
  have hperm : (World.waiting ⟨c, live⟩).Perm (World.waiting ⟨{ c with quarantine := q }, live⟩) := by
    rw [waiting_cons hcontents, hwaiting']
    exact (perm_append_singleton _ _).symm
  refine ⟨hfits', h.holds.perm (hperm.append_left _), h.bytes, ?_⟩
  exact h.waitingBytes.trans ((hperm.map _).sum_eq)

theorem World.Inv.expire (h : World.Inv ⟨c, live⟩)
    (hold : quarantineOldest c.quarantine = some e) :
    World.Inv ⟨{ (Code.setChunks { c with quarantine := c.quarantine.drop } e.arena
        (arenaFree (c.chunks e.arena) e.payload).2) with
      quarantineBytes := sub64 c.quarantineBytes
        ((c.chunks e.arena).chunkSize (sub32 e.payload header)) }, live⟩ := by
  obtain ⟨rest, hcontents, hdrop, hfits⟩ := quarantine_oldest h.fits hold
  have hwaiting : World.waiting ⟨c, live⟩ = _ := waiting_cons hcontents
  have hb : (e.arena, e.payload) ∈ live ++ World.waiting ⟨c, live⟩ := by
    rw [hwaiting]
    simp
  obtain ⟨nx, hnx, hchunks, hp, hsub, hflag, hsize, hleast, hlt⟩ := h.chunk hb
  obtain ⟨hholds, hkept⟩ := h.holds.free hnx hb
  have hnotlive : (e.arena, e.payload) ∉ live := by
    intro hl
    have := h.holds.nodup
    rw [hwaiting] at this
    exact (nodup_append.mp this).2.2 _ hl _ (by simp) rfl
  have herase : (live ++ World.waiting ⟨c, live⟩).erase (e.arena, e.payload) =
      live ++ rest.map fun e => (e.arena, e.payload) := by
    rw [hwaiting, erase_append_right _ hnotlive, erase_cons_head]
  rw [herase] at hholds hkept
  have hwbytes := h.waitingBytes
  rw [hwaiting, map_cons, sum_cons] at hwbytes
  have hsmall := h.small
  rw [hwaiting, map_cons, sum_cons] at hsmall
  dsimp only at hwbytes hsmall
  have hbytes' : sub64 c.quarantineBytes (World.chunkLength ⟨c, live⟩ (e.arena, e.payload)) =
      ((rest.map fun e => (e.arena, e.payload)).map (World.chunkLength ⟨c, live⟩)).sum := by
    rw [sub64_eq (by omega) (by omega)]
    omega
  rw [hchunks, hsub, hsize, hbytes']
  generalize (arenaFree nx.alloc e.payload).2 = a at *
  have hwaiting' : ∀ n, World.waiting ⟨{ (Code.setChunks { c with quarantine := c.quarantine.drop }
      e.arena a) with quarantineBytes := n }, live⟩ = rest.map fun e => (e.arena, e.payload) := by
    intro n
    rw [← hdrop]
    rfl
  obtain ⟨hlive, hwait⟩ := World.counts ⟨c, live⟩ hkept
  refine ⟨hfits, ?_, h.bytes.trans hlive.symm, ?_⟩
  · rw [hwaiting']
    exact hholds
  · rw [hwaiting']
    exact hwait.symm

theorem World.Inv.release (h : World.Inv ⟨c, live⟩) (now : Nat)
    (turns : List (Bool × Bool)) :
    World.Inv ⟨releaseQuarantine cfg now c turns, live⟩ := by
  induction turns generalizing c with
  | nil => exact h
  | cons turn turns ih =>
    obtain ⟨busy, memory⟩ := turn
    unfold releaseQuarantine
    cases hold : quarantineOldest c.quarantine with
    | none => exact h
    | some e =>
      dsimp only
      split
      · exact h
      · split
        · rename_i q hpush
          cases busy with
          | false => cases hpush
          | true => exact ih (h.requeue hold hpush)
        · exact ih (h.expire hold)

theorem alloc_from (h : allocFrom size k arenas = some (i, offset, arenas'))
    (hfail : ∀ nx ∈ arenas, (CodeArena.alloc nx.alloc size).1 = 0 →
      (CodeArena.alloc nx.alloc size).2 = nx.alloc) :
    ∃ j nx, i = k + j ∧ arenas[j]? = some nx ∧ offset = (CodeArena.alloc nx.alloc size).1 ∧
      offset ≠ 0 ∧ arenas' = withChunks arenas j (CodeArena.alloc nx.alloc size).2 := by
  induction arenas generalizing k arenas' with
  | nil => cases h
  | cons a rest ih =>
    unfold allocFrom at h
    dsimp only at h
    split at h
    · rename_i hne
      cases h
      exact ⟨0, a, rfl, rfl, rfl, hne, rfl⟩
    · rename_i hzero
      obtain ⟨⟨i', o', rest'⟩, hrest, he⟩ := Option.map_eq_some_iff.mp h
      cases he
      obtain ⟨j, nx, rfl, hnx, ho, hne, rfl⟩ := ih hrest fun nx hnx => hfail nx (by simp [hnx])
      rw [hfail a (by simp) (Decidable.not_not.mp hzero)]
      exact ⟨j + 1, nx, by omega, hnx, ho, hne, rfl⟩

variable {arenas : List NxArena}

theorem World.Inv.hand_out (h : w.Inv)
    (hholds : Holds arenas ((i, p) :: (w.live ++ w.waiting)))
    (hkept : ∀ b ∈ w.live ++ w.waiting, lengthAt arenas b = w.chunkLength b) :
    World.Inv ⟨(handOut { w.code with arenas } i p).2, (i, p) :: w.live⟩ := by
  have hb : (i, p) ∈ (i, p) :: (w.live ++ w.waiting) := by simp
  obtain ⟨nx, tiles, t, hnx, hsound, ht, hused, rfl, hlen, -⟩ := hholds.tile hb
  have hin := (hsound.shape.tiled.inside ht).2.2
  have hbound := hsound.shape.bound
  have hwhole := (hsound.shape.whole t ht).2.2
  have hsmall := hholds.bound
  rw [map_cons, sum_cons, map_append, sum_append, hlen] at hsmall
  have hlive : (w.live.map (lengthAt arenas)).sum = (w.live.map w.chunkLength).sum :=
    congrArg List.sum (map_congr_left fun b hb => hkept b (mem_append_left _ hb))
  have hheld := World.Inv.held_le (w := w) w.live
  have hbytes := h.bytes
  unfold Tile.stop least at *
  have hchunks : Code.chunks { w.code with arenas } i = nx.alloc := chunks_eq hnx
  have hnew : add64 w.code.dynarecBytes (sub32 ((Code.chunks { w.code with arenas } i).chunkSize
      (sub32 (t.start + header) header)) header) = w.code.dynarecBytes + (t.length - header) := by
    rw [hchunks, sub32_eq (Nat.le_add_left _ _) (by omega), Nat.add_sub_cancel,
      hsound.shape.size t ht, sub32_eq (by omega) (by omega), add64_eq (by omega)]
  unfold handOut
  dsimp only
  rw [hnew]
  obtain ⟨hsame, hwait⟩ := w.counts hkept
  refine ⟨h.fits, hholds, ?_, h.waitingBytes.trans hwait.symm⟩
  · show w.code.dynarecBytes + (t.length - header) =
      (((i, t.start + header) :: w.live).map fun b => lengthAt arenas b - header).sum
    rw [map_cons, sum_cons, hlen, hbytes, Nat.add_comm, hsame]

theorem withChunks_last (arenas : List NxArena) (nx : NxArena) (a : Arena) :
    withChunks (arenas ++ [nx]) arenas.length a = arenas ++ [{ nx with alloc := a }] := by
  induction arenas with
  | nil => rfl
  | cons b rest ih => exact congrArg (b :: ·) ih

theorem World.Inv.create (h : w.Inv) (hroom : w.code.arenas.length < maxArenas)
    {n : Created} (hfresh : w.Fresh n) :
    Holds (w.code.arenas ++ [⟨n.rw, n.rx, n.size, init n.mem n.size⟩]) (w.live ++ w.waiting) := by
  obtain ⟨hsound, hsize⟩ := Sound.init n.mem hfresh.least hfresh.small
  refine h.holds.create hroom ⟨hfresh.small, hfresh.rw, hfresh.rx, hfresh.twice, ?_⟩ (fun a ha => ?_) hsound
  · rw [hsize]
    exact Nat.div_mul_le_self _ _
  · have hclear : ∀ p ∈ [n.rw, n.rx], ∀ q ∈ [a.rw, a.rx], Clear q a.size p n.size :=
      fun p hp q hq => hfresh.apart a ha p hp q hq
    exact ⟨hclear _ (by simp) _ (by simp), hclear _ (by simp) _ (by simp),
      hclear _ (by simp) _ (by simp), hclear _ (by simp) _ (by simp)⟩

theorem World.Inv.more (h : w.Inv)
    (hholds : Holds arenas (w.live ++ w.waiting))
    (hkept : ∀ b ∈ w.live ++ w.waiting, lengthAt arenas b = w.chunkLength b) :
    World.Inv ⟨{ w.code with arenas }, w.live⟩ := by
  obtain ⟨hlive, hwait⟩ := w.counts hkept
  exact ⟨h.fits, hholds, h.bytes.trans hlive.symm, h.waitingBytes.trans hwait.symm⟩

theorem World.Inv.step_take (h : w.Inv) (hok : w.Ok (.take size created)) :
    (w.step cfg (.take size created)).Inv := by
  unfold World.step
  dsimp only
  split
  · exact h
  unfold allocDynarecMap
  dsimp only
  generalize (size + 15) % 2 ^ 64 / 16 * 16 = bytes
  have hfail : ∀ nx ∈ w.code.arenas, (CodeArena.alloc nx.alloc bytes).1 = 0 →
      (CodeArena.alloc nx.alloc bytes).2 = nx.alloc := by
    intro nx hnx hzero
    obtain ⟨i, hi⟩ := mem_iff_getElem?.mp hnx
    rcases h.holds.alloc hi bytes with hnone | ⟨p, rfl, hne, -⟩
    · rw [hnone]
    · exact absurd hzero hne
  cases halloc : allocLocked cfg w.code bytes with
  | some r =>
    obtain ⟨i, offset, arenas⟩ := r
    have hfrom : allocFrom bytes 0 w.code.arenas = some (i, offset, arenas) := by
      unfold allocLocked at halloc
      split at halloc
      · cases halloc
      · exact halloc
    obtain ⟨j, nx, rfl, hnx, rfl, hne, rfl⟩ := alloc_from hfrom hfail
    rcases h.holds.alloc hnx bytes with hnone | ⟨p, rfl, -, hholds, hkept⟩
    · rw [hnone] at hne
      exact absurd rfl hne
    · rw [Nat.zero_add]
      exact h.hand_out hholds hkept
  | none =>
    dsimp only
    split
    · exact h
    cases created with
    | none => exact h
    | some n =>
      have hcreate := h.create (by omega) (hok n rfl)
      have hold : ∀ b ∈ w.live ++ w.waiting, lengthAt (w.code.arenas ++
          [⟨n.rw, n.rx, n.size, init n.mem n.size⟩]) b = w.chunkLength b :=
        fun b hb => lengthAt_append _ (h.holds.known b hb)
      have hlast : (w.code.arenas ++ [⟨n.rw, n.rx, n.size, init n.mem n.size⟩])[w.code.arenas.length]? =
          some ⟨n.rw, n.rx, n.size, init n.mem n.size⟩ := by simp
      dsimp only
      rcases hcreate.alloc hlast bytes with hnone | ⟨p, hp, hne, hholds, hkept⟩
      · rw [hnone, if_pos rfl]
        exact h.more hcreate hold
      · rw [withChunks_last] at hholds hkept
        rw [hp, if_neg hne]
        exact h.hand_out hholds fun b hb => (hkept b hb).trans (hold b hb)

theorem World.Inv.step_write (h : w.Inv) (hok : w.Ok (.write i x v)) :
    (w.step cfg (.write i x v)).Inv := by
  obtain ⟨⟨j, p⟩, hb, rfl, hx, hx'⟩ := hok
  obtain ⟨hholds, hkept⟩ := h.holds.write hb hx hx' v
  exact h.more hholds hkept

theorem World.Inv.step (h : w.Inv) (label : Label) (hok : w.Ok label) : (w.step cfg label).Inv := by
  cases label with
  | release now turns => exact h.release now turns
  | take size created => exact h.step_take hok
  | free addr now memory => exact h.step_free hok
  | write i x v => exact h.step_write hok

theorem World.Inv.initial : World.Inv {} := by
  refine ⟨⟨Nat.le_refl _, .inl rfl⟩, ⟨Nat.zero_le _, nodup_nil, nofun, nofun, nofun, .nil, rfl⟩,
    rfl, rfl⟩

/-- In every run in which each address passed to `FreeDynarecMap` is that of a live block, or its
chunk is flagged free, the counts of bytes are right, a chunk waits at most once, and the chunk of a
live block is never given back. -/
theorem frees_spare_live_blocks (cfg : Config) (labels : List Label)
    (hok : Allowed World.Ok (World.step cfg) {} labels) :
    let w := run (World.step cfg) {} labels
    w.code.dynarecBytes = (w.live.map fun b => w.chunkLength b - header).sum ∧
      w.code.quarantineBytes = (w.waiting.map w.chunkLength).sum ∧ w.waiting.Nodup ∧
      w.live.Nodup ∧ (∀ b ∈ w.live, b ∉ w.waiting) ∧
      ∀ i p, (i, p) ∈ w.live → ∃ nx, w.code.arenas[i]? = some nx ∧
        nx.alloc.free (p - header) = 0 ∧
        findArena (nx.rw + p) 0 w.code.arenas = some (i, p) ∧
        findArena (nx.rx + p) 0 w.code.arenas = some (i, p) := by
  have h : (run (World.step cfg) {} labels).Inv :=
    run_allowed (P := World.Inv) (fun w label hok h => h.step label hok) World.Inv.initial labels hok
  obtain ⟨hlive, hwaiting, hboth⟩ := nodup_append.mp h.holds.nodup
  refine ⟨h.bytes, h.waitingBytes, hwaiting, hlive, fun b hb hb' => hboth b hb b hb' rfl,
    fun i p hb => ?_⟩
  obtain ⟨nx, hnx, -, -, -, hflag, -⟩ := h.chunk (mem_append_left _ hb)
  obtain ⟨nx', tiles, t, hnx', hsound, ht, -, rfl, -⟩ := h.holds.tile (mem_append_left _ hb)
  obtain rfl : nx' = nx := Option.some.inj (hnx'.symm.trans hnx)
  have hp : t.start + header < nx'.size := by
    have h1 := (hsound.shape.tiled.inside ht).2.2
    have h2 := (hsound.shape.whole t ht).2.2
    have h3 := (h.holds.mapped nx' (mem_of_getElem? hnx)).inside
    unfold Tile.stop least header align at *
    omega
  obtain ⟨h1, h2⟩ := find_arena h.holds.mapped h.holds.apart hnx hp 0
  rw [Nat.zero_add] at h1 h2
  exact ⟨nx', hnx, hflag, h1, h2⟩

/-- A megabyte of code memory, mapped twice. -/
def someMemory : Created := ⟨0x10000000, 0x20000000, 0x100000, fun _ => 0⟩

/-- Two blocks; the first is freed, waits and goes back, and its address is freed again. -/
def freedAgain : List Label :=
  [.take 100 (some someMemory), .take 40 none, .free 0x20000010 0 true,
    .release 2000000000 [(false, true), (false, true)], .free 0x20000010 2000000001 true]

theorem freed_again_spares_live : Allowed World.Ok (World.step {}) {} freedAgain ∧
    (run (World.step {}) {} freedAgain).live = [(0, 144)] ∧
    (run (World.step {}) {} freedAgain).code.dynarecBytes =
      ((run (World.step {}) {} freedAgain).live.map fun b =>
        (run (World.step {}) {} freedAgain).chunkLength b - header).sum := by
  have hok : Allowed World.Ok (World.step {}) {} freedAgain := by decide +kernel
  exact ⟨hok, by decide +kernel, (frees_spare_live_blocks {} freedAgain hok).1⟩

/-- A block is freed twice in a row. The first entry of the quarantine expires and the chunk is handed
out again, then the second expires. -/
def freedTwice : List Label :=
  [.take 100 (some someMemory), .free 0x10000010 0 true, .free 0x10000010 10 true,
    .release 2000000000 [(false, true), (false, true)], .take 100 none,
    .release 2000000010 [(false, true)]]

theorem second_free_takes_live_block :
    (0, 16) ∈ (run (World.step {}) {} freedTwice).live ∧
      ((run (World.step {}) {} freedTwice).code.chunks 0).free 0 ≠ 0 ∧
      ¬(run (World.step {}) {} (freedTwice.take 3)).waiting.Nodup ∧
      (run (World.step {}) {} (freedTwice.take 3)).code.dynarecBytes ≠ 0 := by
  decide +kernel

end Autorun.Heap.Dynarec
