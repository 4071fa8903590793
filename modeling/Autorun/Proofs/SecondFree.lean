import Autorun.Proofs.CodeArena

namespace Autorun.Heap.CodeArena

open Autorun.Lib List

variable {a : Arena} {t : Tile} {tiles : List Tile}

/-- `code_arena_free` past its first check puts some chunk at the head of a list. If that changed
nothing, the chunk was there before, and its size is what is returned. -/
theorem Sound.free_unchanged_iff (h : Sound a tiles) (hnone : a.free none = 0)
    (hin : y + header < a.size) : arenaFree a (y + header) = (0, a) ↔ a.free y ≠ 0 := by
  have hbound := h.shape.bound
  have hoffset : sub32 (y + header) header = y := by
    rw [sub32_eq (by omega) (by omega)]
    omega
  unfold arenaFree
  rw [hoffset]
  constructor
  · intro heq hzero
    rw [if_neg (by omega)] at heq
    dsimp only at heq
    generalize mergeAfter { a with live := sub32 a.live (a.chunkSize y) } y = a1 at heq
    generalize mergeBefore a1 y = r at heq
    obtain ⟨o, a2⟩ := r
    obtain ⟨hreturn, hsame⟩ := Prod.mk.inj heq
    rw [hsame] at hreturn
    unfold settle at hsame
    dsimp only at hsame
    generalize (if add32 o (a2.chunkSize o) < a2.size then
      a2.store (add32 o (a2.chunkSize o) + 4) (a2.chunkSize o) else a2) = a3 at hsame
    obtain ⟨hmem, hbins, -⟩ := link_eq a3 o
    rw [hsame] at hmem hbins
    have hhead : a.bins (arenaBin (a3.chunkSize o)) = o := (hbins _).trans (if_pos rfl)
    rcases h.shape.lists.head_cases (arenaBin (a3.chunkSize o)) with hempty | ⟨t, ht, hstart, -⟩
    · -- Nothing looks free where `CODE_ARENA_NONE` would lead, and a linked chunk does.
      obtain rfl : none = o := hempty.symm.trans hhead
      have hflag : a.free none = _ := hmem (none + 8)
      rw [hnone] at hflag
      split at hflag
      · cases hflag
      · cases hflag
    · rw [← hhead, ← hstart, h.shape.size t ht] at hreturn
      have := (h.shape.whole t ht).2.2
      unfold least header align at this
      omega
  · intro hfree
    exact if_pos (.inr (.inr hfree))

/-! Where the chunks start. -/

theorem Tiled.chunks {s : Nat} (h : Tiled s e tiles) (hs : Chunk a s)
    (hsize : ∀ t ∈ tiles, t.start < a.size ∧ a.chunkSize t.start = t.length) :
    ∀ t ∈ tiles, Chunk a t.start := by
  induction tiles generalizing s with
  | nil => exact fun _ ht => absurd ht not_mem_nil
  | cons u us ih =>
    obtain ⟨rfl, -, hrest⟩ := h
    obtain ⟨hlt, hlen⟩ := hsize u mem_cons_self
    have hnext : Chunk a u.stop := by
      rw [Tile.stop, ← hlen]
      exact hs.next hlt
    intro t ht
    rcases mem_cons.mp ht with rfl | ht
    · exact hs
    · exact ih hrest hnext (fun v hv => hsize v (mem_cons_of_mem _ hv)) t ht

theorem Shape.chunk_iff (h : Shape a tiles none) (hlt : y < a.size) :
    Chunk a y ↔ ∃ t ∈ tiles, t.start = y := by
  constructor
  · intro hc
    -- The chunks reached so far are tiles, or the end of the arena.
    have hreach : y = a.size ∨ ∃ t ∈ tiles, t.start = y := by
      clear hlt
      induction hc with
      | first =>
        have htiled := h.tiled
        cases tiles with
        | nil => exact .inl htiled
        | cons t ts => exact .inr ⟨t, mem_cons_self, htiled.1⟩
      | next _ hlt ih =>
        obtain ⟨t, ht, rfl⟩ := ih.resolve_left (by omega)
        rw [h.size t ht]
        obtain ⟨pre, post, rfl⟩ := append_of_mem ht
        rcases Nat.eq_or_lt_of_le (h.tiled.inside ht).2.2 with hend | hmore
        · exact .inl hend
        · obtain ⟨u, post', rfl, hu⟩ := h.tiled.after hmore
          exact .inr ⟨u, by simp, hu⟩
    exact hreach.resolve_left (by omega)
  · rintro ⟨t, ht, rfl⟩
    refine Tiled.chunks h.tiled .first (fun u hu => ⟨?_, h.size u hu⟩) t ht
    have := h.tiled.inside hu
    unfold Tile.stop at this
    omega

/-! What has been freed. -/

/-- A payload that was freed. Its header lies in no block that is in use, and looks free only where a free
chunk starts. -/
structure Stale (a : Arena) (tiles : List Tile) (p : Nat) : Prop where
  aligned : p % align = 0
  inside : header ≤ p ∧ p < a.size
  outside : ∀ t ∈ tiles, t.free = false → p - header < t.start ∨ t.stop ≤ p - header
  marks : Marks a tiles (p - header)

theorem Stale.mark_aligned (h : Stale a tiles p) : (p - header) % align = 0 ∨ p - header = none := by
  have h1 := h.aligned
  unfold align header at *
  omega

/-- A second free is harmless where the chunk is still one of its own. -/
theorem Stale.free_unchanged_iff (h : Stale a tiles p) (hs : Sound a tiles) (hnone : a.free none = 0) :
    arenaFree a p = (0, a) ↔ Chunk a (p - header) := by
  obtain ⟨hlow, hhigh⟩ := h.inside
  have hp : p - header + header = p := Nat.sub_add_cancel hlow
  have hfree := hs.free_unchanged_iff (y := p - header) hnone (by omega)
  rw [hp] at hfree
  rw [hfree, hs.shape.chunk_iff (by omega)]
  constructor
  · intro hflag
    obtain ⟨t, ht, -, hstart⟩ := h.marks hflag
    exact ⟨t, ht, hstart⟩
  · rintro ⟨t, ht, hstart⟩
    have hpos := (hs.shape.tiled.inside ht).2.1
    have htfree : t.free = true := by
      by_contra hused
      have := h.outside t ht (by simpa using hused)
      unfold Tile.stop at this
      omega
    rw [← hstart, hs.shape.flag t ht, if_pos htfree]
    exact Nat.one_ne_zero

structure History.Inv (h : History) (tiles : List Tile) : Prop where
  world : h.world.Inv tiles
  nowhere : Marks h.world.arena tiles none
  freed : ∀ p ∈ h.freed, Stale h.world.arena tiles p

variable {h : History}

theorem History.Inv.not_free (hi : h.Inv tiles) : h.world.arena.free none = 0 := by
  by_contra hne
  obtain ⟨t, ht, -, hstart⟩ := hi.nowhere hne
  exact hi.world.sound.shape.start_ne_none ht hstart

theorem History.Inv.step_alloc (hi : h.Inv tiles) (size : Nat) :
    ∃ tiles', (h.step (.alloc size)).Inv tiles' := by
  unfold History.step
  dsimp only
  rcases hi.world.sound.alloc size with
    hnone | ⟨t, tiles', hpayload, hused, hsound, ⟨-, hmarked, hsize, -⟩, hmem, hnew⟩
  · rw [hnone, if_pos rfl]
    unfold World.step
    dsimp only
    rw [hnone]
    exact ⟨tiles, hi.world, hi.nowhere, hi.freed⟩
  · have hstop : t.start + (CodeArena.alloc h.world.arena size).2.chunkSize t.start = t.stop := by
      rw [hsound.shape.size t ((hmem t hused).mpr (.inl rfl))]
      rfl
    rw [h.world.step_alloc_eq hpayload, hpayload, if_neg (by unfold header; omega), Nat.add_sub_cancel]
    rw [hstop]
    refine ⟨tiles', hi.world.hand_out hsound hused hmem hnew, hmarked none (.inr rfl) hi.nowhere,
      fun p hp => ?_⟩
    obtain ⟨hp, hout⟩ := mem_filter.mp hp
    have hs := hi.freed p hp
    refine ⟨hs.aligned, ?_, fun u hu huused => ?_, hmarked _ hs.mark_aligned hs.marks⟩
    · exact hsize.symm ▸ hs.inside
    · rcases (hmem u huused).mp hu with rfl | hu
      · have hlow := hs.inside.1
        have hout := of_decide_eq_true hout
        omega
      · exact hs.outside u hu huused

theorem History.Inv.step_free (hi : h.Inv tiles) (hp : p ∈ h.world.held) :
    ∃ tiles', (h.step (.free p)).Inv tiles' := by
  obtain ⟨c, hc, hused, rfl⟩ := (hi.world.held p).mp hp
  obtain ⟨pre, post, rfl⟩ := append_of_mem hc
  obtain ⟨tiles', hsound, ⟨-, hmarked, hsize, -⟩, hmem, -⟩ := hi.world.sound.arena_free hused
  have hshape := hi.world.sound.shape
  refine ⟨tiles', hi.world.take_back hsound hmem, hmarked none (.inr rfl) hi.nowhere, fun p hp => ?_⟩
  have hold : ∀ t ∈ tiles', t.free = false → t ∈ pre ++ post := fun t ht htused => (hmem t htused).mp ht
  rcases mem_cons.mp hp with rfl | hp
  · obtain ⟨hmod, -, hlen⟩ := hshape.whole c hc
    have hin := hshape.tiled.inside hc
    have hflag : h.world.arena.free c.start = 0 := by
      rw [hshape.flag c hc, hused]
      rfl
    refine ⟨?_, ⟨Nat.le_add_left _ _, hsize.symm ▸ ?_⟩, fun t ht htused => ?_, ?_⟩
    · unfold header align at *
      omega
    · dsimp only
      unfold Tile.stop least header align at *
      omega
    · have := hshape.tiled.others (hold t ht htused)
      unfold Tile.stop at *
      omega
    · exact hmarked _ (.inl hmod) fun hne => absurd hflag hne
  · have hs := hi.freed p hp
    exact ⟨hs.aligned, hsize.symm ▸ hs.inside,
      fun t ht htused => hs.outside t (mem_middle.mpr (.inr (hold t ht htused))) htused,
      hmarked _ hs.mark_aligned hs.marks⟩

theorem Marks.store (h : Marks a tiles y) (hx : x ≠ y + 8) (v : Nat) : Marks (a.store x v) tiles y := by
  intro hne
  refine h ?_
  rwa [Arena.free, Arena.store_mem, if_neg hx.symm] at hne

theorem History.Inv.step_write (hi : h.Inv tiles) (hok : h.world.Ok (.write x v)) :
    (h.step (.write x v)).Inv tiles := by
  have hworld := hi.world.step_write hok
  obtain ⟨q, hq, hx⟩ := hok
  obtain ⟨t, ht, hused, -, hx, hx'⟩ := hi.world.within hq hx
  refine ⟨hworld, hi.nowhere.store ?_ v, fun p hp => ?_⟩
  · have := hi.world.sound.shape.bound
    have := (hi.world.sound.shape.tiled.inside ht).2.2
    unfold none
    omega
  · have hs := hi.freed p hp
    refine ⟨hs.aligned, hs.inside, hs.outside, hs.marks.store ?_ v⟩
    have := hs.outside t ht hused
    unfold header at *
    omega

theorem History.Inv.step (hi : h.Inv tiles) (op : Op) (hok : h.world.Ok op) :
    ∃ tiles', (h.step op).Inv tiles' := by
  cases op with
  | alloc size => exact hi.step_alloc size
  | free p => exact hi.step_free hok
  | write x v => exact ⟨tiles, hi.step_write hok⟩

/-! An arena that is too small for a chunk hands nothing out. -/

def History.Empty (h : History) : Prop :=
  (∀ b, h.world.arena.bins b = none) ∧ h.world.held = [] ∧ h.freed = []

theorem search_empty (hbins : ∀ b, a.bins b = none) (want : Nat) : search a want = none := by
  unfold search
  generalize bins - arenaBin want = left
  generalize arenaBin want = bin
  induction left generalizing bin with
  | zero => rfl
  | succ left ih =>
    unfold searchFrom
    have htry : tryChunks a want walk none = none := by
      exact if_pos rfl
    rw [hbins, htry]
    exact ih (bin + 1)

theorem History.Empty.step (he : h.Empty) (op : Op) (hok : h.world.Ok op) : (h.step op).Empty := by
  obtain ⟨hbins, hheld, hfreed⟩ := he
  cases op with
  | alloc size =>
    have hnone : CodeArena.alloc h.world.arena size = (0, h.world.arena) :=
      if_pos (search_empty hbins (round size))
    unfold History.step World.step
    dsimp only
    rw [hnone]
    exact ⟨hbins, hheld, hfreed⟩
  | free p =>
    have hp : p ∈ h.world.held := hok
    rw [hheld] at hp
    cases hp
  | write x v =>
    obtain ⟨p, hp, -⟩ := hok
    rw [hheld] at hp
    cases hp

theorem History.start_cases (mem : Nat → Nat) (size : Nat) :
    (∃ tiles, (History.start mem size).Inv tiles) ∨ (History.start mem size).Empty := by
  unfold History.start
  have hbehind : ∀ x, 2 ^ 32 ≤ x → (fun x => if x < size % 2 ^ 32 then mem x else 0) x = 0 :=
    fun x hx => if_neg (by omega)
  generalize (fun x => if x < size % 2 ^ 32 then mem x else 0) = mem at hbehind
  by_cases hsmall : size / align * align % 2 ^ 32 < least
  · have hinit : init mem size = { size := size / align * align % 2 ^ 32, mem } := if_pos hsmall
    rw [hinit]
    exact .inr ⟨fun _ => rfl, rfl, rfl⟩
  · have hcut : init mem size = init mem (size % 2 ^ 32) := by
      have hsame : size / align * align % 2 ^ 32 = size % 2 ^ 32 / align * align % 2 ^ 32 := by
        unfold align
        omega
      unfold init
      rw [hsame]
    have hlarge : least ≤ size % 2 ^ 32 := by
      unfold align at hsmall
      omega
    have hflag : (init mem size).free none = 0 := by
      unfold init
      rw [if_neg hsmall, Arena.free, (link_eq _ 0).1]
      exact hbehind (none + 8) (by decide)
    obtain ⟨hsound, -⟩ := Sound.init mem hlarge (Nat.mod_lt _ (by decide))
    rw [← hcut] at hsound
    refine .inl ⟨_, ⟨hsound, nodup_nil, fun p => ⟨fun hp => absurd hp not_mem_nil, ?_⟩⟩,
      fun hne => absurd hflag hne, fun p hp => absurd hp not_mem_nil⟩
    rintro ⟨t, ht, hused, -⟩
    rw [mem_singleton.mp ht] at hused
    cases hused

/-- A payload that was freed and not handed out again can be freed once more without harm just where a chunk
still starts at its header: where the chunk before it has not taken it in. -/
theorem second_free_harmless_iff (mem : Nat → Nat) (size : Nat) (ops : List Op)
    (hok : Allowed (fun h => h.world.Ok) History.step (.start mem size) ops) :
    let h := run History.step (.start mem size) ops
    ∀ p ∈ h.freed, arenaFree h.world.arena p = (0, h.world.arena) ↔ Chunk h.world.arena (p - header) := by
  have hinv := run_allowed (P := fun h : History => (∃ tiles, h.Inv tiles) ∨ h.Empty)
    (fun h op hok hi => hi.imp (fun ⟨_, hi⟩ => hi.step op hok) fun he => he.step op hok)
    (History.start_cases mem size) ops hok
  intro h p hp
  rcases hinv with ⟨tiles, hi⟩ | ⟨-, -, hfreed⟩
  · exact (hi.freed p hp).free_unchanged_iff hi.world.sound hi.not_free
  · rw [show h.freed = [] from hfreed] at hp
    cases hp

/-- Two blocks, and the first one freed: it stays a chunk of its own. -/
theorem first_block_freed_twice :
    let h := run History.step (.start (fun _ => 0) 1000) [.alloc 100, .alloc 40, .free 16]
    16 ∈ h.freed ∧ arenaFree h.world.arena 16 = (0, h.world.arena) := by
  refine ⟨by decide +kernel, ?_⟩
  exact (second_free_harmless_iff (fun _ => 0) 1000 [.alloc 100, .alloc 40, .free 16] (by decide +kernel)
    16 (by decide +kernel)).mpr .first

/-- The second block is freed as well, and the first one takes it in: its flag stays clear, and another free
goes on with a header that is inside the free chunk. -/
theorem merged_block_freed_twice :
    let h := run History.step (.start (fun _ => 0) 1000) [.alloc 100, .alloc 40, .free 16, .free 144]
    Allowed (fun h => h.world.Ok) History.step (.start (fun _ => 0) 1000)
        [.alloc 100, .alloc 40, .free 16, .free 144] ∧
      144 ∈ h.freed ∧ (arenaFree h.world.arena 144).1 ≠ 0 ∧
      (arenaFree h.world.arena 144).2.live ≠ h.world.arena.live := by
  decide +kernel

end Autorun.Heap.CodeArena
