import Autorun.Lib.FreeLists
import Autorun.Heap.CodeArena

namespace Autorun.Heap.CodeArena

open Autorun.Lib List

namespace Arena

@[simp] theorem store_mem (a : Arena) (offset v x : Nat) :
    (a.store offset v).mem x = if x = offset then v else a.mem x :=
  Function.update_apply a.mem offset v x

@[simp] theorem store_size (a : Arena) (offset v : Nat) : (a.store offset v).size = a.size := rfl

@[simp] theorem store_live (a : Arena) (offset v : Nat) : (a.store offset v).live = a.live := rfl

@[simp] theorem store_bins (a : Arena) (offset v : Nat) : (a.store offset v).bins = a.bins := rfl

end Arena

variable {a a' : Arena} {c d t u : Tile} {pre post tiles : List Tile}

/-- The chunks of an arena, and the lists its free ones are on. The chunk at `stale` may not know
the size of the one before it. -/
structure Shape (a : Arena) (tiles : List Tile) (stale : Nat) : Prop where
  bound : a.size < 2 ^ 32
  tiled : Tiled 0 a.size tiles
  whole : ∀ t ∈ tiles, t.start % align = 0 ∧ t.length % align = 0 ∧ least ≤ t.length
  size : ∀ t ∈ tiles, a.chunkSize t.start = t.length
  flag : ∀ t ∈ tiles, a.free t.start = if t.free then 1 else 0
  first : ∀ t ∈ tiles, t.start = 0 → a.prevSize t.start = 0
  prev : ∀ t ∈ tiles, ∀ u ∈ tiles, t.stop = u.start → u.start ≠ stale → a.prevSize u.start = t.length
  lists : FreeLists a.bins a.nextFree a.prevFree none arenaBin tiles

/-- What the chunks in use hand out is as it was, but for the chunk at `offset`. -/
def Kept (a a' : Arena) (tiles : List Tile) (offset : Nat) : Prop :=
  ∀ t ∈ tiles, t.free = false → t.start ≠ offset → ∀ x, t.start + header ≤ x → x < t.stop →
    a'.mem x = a.mem x

/-- The place looks like a free chunk only if it is one. -/
def Marks (a : Arena) (tiles : List Tile) (y : Nat) : Prop :=
  a.free y ≠ 0 → ∃ t ∈ tiles, t.free = true ∧ t.start = y

/-- No place starts to look like a free chunk that is none, also where `CODE_ARENA_NONE` would lead. -/
def Marked (a a' : Arena) (tiles tiles' : List Tile) : Prop :=
  ∀ y, y % align = 0 ∨ y = none → Marks a tiles y → Marks a' tiles' y

variable {tiles' : List Tile} {a'' : Arena}

/-- What work on the chunk at `offset` leaves as it was. -/
structure Leaves (a a' : Arena) (tiles tiles' : List Tile) (offset : Nat) : Prop where
  kept : Kept a a' tiles offset
  marked : Marked a a' tiles tiles'
  size : a'.size = a.size
  live : a'.live = a.live

theorem Leaves.refl (a : Arena) (tiles : List Tile) (o : Nat) : Leaves a a tiles tiles o :=
  ⟨fun _ _ _ _ _ _ _ => rfl, fun _ _ hm => hm, rfl, rfl⟩

theorem Leaves.trans {tiles'' : List Tile} (h : Leaves a a' tiles tiles' o)
    (h' : Leaves a' a'' tiles' tiles'' o')
    (hsub : ∀ t ∈ tiles, t.free = false → t.start ≠ o → t ∈ tiles' ∧ t.start ≠ o') :
    Leaves a a'' tiles tiles'' o := by
  refine ⟨fun t ht hused hne x hx hx' => ?_, fun y hy hm => h'.marked y hy (h.marked y hy hm),
    h'.size.trans h.size, h'.live.trans h.live⟩
  obtain ⟨ht', hne'⟩ := hsub t ht hused hne
  exact (h'.kept t ht' hused hne' x hx hx').trans (h.kept t ht hused hne x hx hx')

theorem Marked.of_flag
    (hflag : ∀ y, y % align = 0 ∨ y = none → a'.free y = 0 ∨ a'.free y = a.free y)
    (hfree : ∀ t ∈ tiles, t.free = true → t ∈ tiles') : Marked a a' tiles tiles' := by
  intro y hy hm hne
  rcases hflag y hy with hzero | hsame
  · exact absurd hzero hne
  · obtain ⟨t, ht, htfree, hstart⟩ := hm (hsame ▸ hne)
    exact ⟨t, hfree t ht htfree, htfree, hstart⟩

theorem Marked.store {x : Nat} (hx : x % align = 0 ∨ x % align = 4) (v : Nat)
    (hfree : ∀ t ∈ tiles, t.free = true → t ∈ tiles') : Marked a (a.store x v) tiles tiles' := by
  refine .of_flag (fun y hy => .inr ?_) hfree
  unfold align none at *
  rw [Arena.free, Arena.store_mem, if_neg (by omega)]
  rfl

theorem Shape.sep (h : Shape a tiles stale) (ht : t ∈ tiles) (hu : u ∈ tiles) :
    t.start = u.start ∨ t.start + 32 ≤ u.start ∨ u.start + 32 ≤ t.start := by
  have h1 := (h.whole t ht).2.2
  have h2 := (h.whole u hu).2.2
  rcases h.tiled.apart ht hu with rfl | hlt | hlt
  · exact .inl rfl
  · unfold Tile.stop least header align at *
    omega
  · unfold Tile.stop least header align at *
    omega

theorem Shape.start_ne_none (h : Shape a tiles stale) (ht : t ∈ tiles) : t.start ≠ none := by
  have h1 := (h.whole t ht).1
  unfold align none at *
  omega

/-- `code_arena_unlink`, once the links of the chunk lead to other chunks. -/
theorem unlink_eq (hp : a.prevFree o ≠ none → a.prevFree o ≠ o ∧ a.prevFree o ≠ o + 4) :
    (∀ x, (unlink a o).mem x =
      if x = o + 12 ∨ x = o + 16 then none
      else if x = o + 8 then 0
      else if a.nextFree o ≠ none ∧ x = a.nextFree o + 16 then a.prevFree o
      else if a.prevFree o ≠ none ∧ x = a.prevFree o + 12 then a.nextFree o
      else a.mem x) ∧
    (∀ b, (unlink a o).bins b =
      if b = arenaBin (a.chunkSize o) ∧ a.prevFree o = none then a.nextFree o else a.bins b) ∧
    (unlink a o).size = a.size ∧ (unlink a o).live = a.live := by
  unfold unlink
  dsimp only
  -- The first of its writes goes to another chunk, or to none.
  generalize hfirst : (if a.prevFree o ≠ none then a.store (a.prevFree o + 12) (a.nextFree o) else
    { a with bins := Function.update a.bins (arenaBin (a.chunkSize o)) (a.nextFree o) }) = a1
  have hmem : ∀ x, a1.mem x =
      if a.prevFree o ≠ none ∧ x = a.prevFree o + 12 then a.nextFree o else a.mem x := by
    intro x
    subst hfirst
    by_cases hprev : a.prevFree o = none <;> simp [hprev]
  have hbins : ∀ b, a1.bins b =
      if b = arenaBin (a.chunkSize o) ∧ a.prevFree o = none then a.nextFree o else a.bins b := by
    intro b
    subst hfirst
    by_cases hprev : a.prevFree o = none <;> simp [hprev, Function.update_apply]
  have hsize : a1.size = a.size ∧ a1.live = a.live := by
    subst hfirst
    split <;> exact ⟨rfl, rfl⟩
  have hnext : a1.nextFree o = a.nextFree o := by
    rw [Arena.nextFree, hmem, if_neg]
    · rfl
    · rintro ⟨hprev, he⟩
      omega
  have hprev : a1.prevFree o = a.prevFree o := by
    rw [Arena.prevFree, hmem, if_neg]
    · rfl
    · rintro ⟨hprev, he⟩
      omega
  refine ⟨fun x => ?_, fun b => ?_, ?_⟩
  · split <;> simp only [Arena.store_mem] <;> grind
  · split <;> simp [hbins]
  · split <;> exact hsize

theorem link_eq (a : Arena) (o : Nat) :
    (∀ x, (link a o).mem x =
      if a.bins (arenaBin (a.chunkSize o)) ≠ none ∧
        x = a.bins (arenaBin (a.chunkSize o)) + 16 then o
      else if x = o + 12 then a.bins (arenaBin (a.chunkSize o))
      else if x = o + 16 then none
      else if x = o + 8 then 1
      else a.mem x) ∧
    (∀ b, (link a o).bins b = if b = arenaBin (a.chunkSize o) then o else a.bins b) ∧
    (link a o).size = a.size ∧ (link a o).live = a.live := by
  unfold link
  dsimp only
  have hnext : ((((a.store (o + 8) 1).store (o + 16) none).store (o + 12)
      (((a.store (o + 8) 1).store (o + 16) none).bins (arenaBin (a.chunkSize o)))).nextFree o) =
      a.bins (arenaBin (a.chunkSize o)) := by
    rw [Arena.nextFree, Arena.store_mem, if_pos rfl]
    rfl
  rw [hnext]
  refine ⟨fun x => ?_, fun b => ?_, ?_⟩
  · split <;> simp only [Arena.store_mem, Arena.store_bins] <;> grind
  · split <;> simp [Function.update_apply]
  · split <;> exact ⟨rfl, rfl⟩

/-- Where the chunks lie, and which chunk each of the others is. -/
theorem Shape.starts (h : Shape a (pre ++ c :: post) stale) :
    ∀ t ∈ pre ++ post, t.start + 32 ≤ c.start ∨ c.start + 32 ≤ t.start := by
  intro t ht
  have hmid := h.tiled.others ht
  have h1 := (h.whole t (mem_middle.mpr (.inr ht))).2.2
  have h2 := (h.whole c (mem_middle.mpr (.inl rfl))).2.2
  unfold Tile.stop least header align at *
  omega

/-- Linking and unlinking the chunk at `offset` write its flag and links, and links of free chunks. -/
def LinkWrites (a a' : Arena) (tiles : List Tile) (offset : Nat) : Prop :=
  ∀ x, x ≠ offset + 8 → x ≠ offset + 12 → x ≠ offset + 16 →
    (∀ f ∈ tiles, f.free = true → x ≠ f.start + 12 ∧ x ≠ f.start + 16) → a'.mem x = a.mem x

/-- A chunk changes its flag and the lists are right: nothing else of the headers has changed. -/
theorem Shape.relink (h : Shape a (pre ++ c :: post) stale)
    (hwrites : LinkWrites a a' (pre ++ c :: post) c.start) {c' : Tile} (hstart : c'.start = c.start)
    (hlength : c'.length = c.length) (hsize : a'.size = a.size) (hlive : a'.live = a.live)
    (hc : a'.free c.start = if c'.free then 1 else 0)
    (hlists : FreeLists a'.bins a'.nextFree a'.prevFree none arenaBin (pre ++ c' :: post)) :
    Shape a' (pre ++ c' :: post) stale ∧
      Leaves a a' (pre ++ c :: post) (pre ++ c' :: post) c.start := by
  have hmid : c ∈ pre ++ c :: post := mem_middle.mpr (.inl rfl)
  have hword : ∀ t ∈ pre ++ c :: post, ∀ k ≤ 8, (t.start = c.start → k < 8) →
      a'.mem (t.start + k) = a.mem (t.start + k) := by
    intro t ht k hk hself
    have := h.sep ht hmid
    refine hwrites _ (by omega) (by omega) (by omega) fun f hf _ => ?_
    have := h.sep ht hf
    omega
  have hheader : ∀ t ∈ pre ++ c :: post,
      a'.chunkSize t.start = a.chunkSize t.start ∧ a'.prevSize t.start = a.prevSize t.start :=
    fun t ht => ⟨hword t ht 0 (by omega) (by omega), hword t ht 4 (by omega) (by omega)⟩
  -- Each chunk lies where one of the old ones lay.
  have hold : ∀ t ∈ pre ++ c' :: post, ∃ t0 ∈ pre ++ c :: post,
      t0.start = t.start ∧ t0.length = t.length := by
    intro t ht
    rcases mem_middle.mp ht with rfl | ht
    · exact ⟨c, hmid, hstart.symm, hlength.symm⟩
    · exact ⟨t, mem_middle.mpr (.inr ht), rfl, rfl⟩
  refine ⟨⟨hsize ▸ h.bound, ?_, fun t ht => ?_, fun t ht => ?_, fun t ht => ?_, fun t ht hz => ?_,
    fun t ht u hu hadj hstale => ?_, hlists⟩, ?_, ?_, hsize, hlive⟩
  · rw [hsize]
    obtain ⟨h1, h2, h3⟩ := Tiled.middle_iff.mp h.tiled
    refine Tiled.middle_iff.mpr ⟨hstart ▸ h1, hlength ▸ h2, ?_⟩
    rw [Tile.stop, hstart, hlength]
    exact h3
  · obtain ⟨t0, ht0, hs, hl⟩ := hold t ht
    rw [← hs, ← hl]
    exact h.whole t0 ht0
  · obtain ⟨t0, ht0, hs, hl⟩ := hold t ht
    rw [← hs, ← hl, (hheader t0 ht0).1]
    exact h.size t0 ht0
  · rcases mem_middle.mp ht with rfl | ht
    · rw [hstart]
      exact hc
    · have hflag : t ∈ pre ++ c :: post := mem_middle.mpr (.inr ht)
      have := h.starts t ht
      rw [Arena.free, hword t hflag 8 (Nat.le_refl _) (by omega)]
      exact h.flag t hflag
  · obtain ⟨t0, ht0, hs, -⟩ := hold t ht
    rw [← hs] at hz ⊢
    rw [(hheader t0 ht0).2]
    exact h.first t0 ht0 hz
  · obtain ⟨t0, ht0, hts, htl⟩ := hold t ht
    obtain ⟨u0, hu0, hus, -⟩ := hold u hu
    rw [Tile.stop, ← hts, ← htl, ← hus] at hadj
    rw [← hus] at hstale ⊢
    rw [(hheader u0 hu0).2, ← htl]
    exact h.prev t0 ht0 u0 hu0 hadj hstale
  · intro t ht hused hne x h1 h2
    have hout : ∀ f ∈ pre ++ c :: post, f ≠ t → ∀ k ≤ 16, x ≠ f.start + k := by
      intro f hf hft k hk
      have hlen := (h.whole f hf).2.2
      rcases h.tiled.apart hf ht with he | hlt | hlt
      · exact absurd he hft
      · unfold Tile.stop least header align at *
        omega
      · omega
    have hct : c ≠ t := fun he => hne (he ▸ rfl)
    refine hwrites x (hout c hmid hct 8 (by omega)) (hout c hmid hct 12 (by omega))
      (hout c hmid hct 16 (by omega)) fun f hf hfree => ?_
    have hft : f ≠ t := ne_of_apply_ne Tile.free (by simp [hused, hfree])
    exact ⟨hout f hf hft 12 (by omega), hout f hf hft 16 (by omega)⟩
  · intro y hy hm hne
    by_cases he : y = c.start
    · refine ⟨c', mem_middle.mpr (.inl rfl), ?_, hstart.trans he.symm⟩
      by_contra hused
      rw [he, hc, if_neg hused] at hne
      exact hne rfl
    · have hc0 := (h.whole c hmid).1
      unfold align at hc0
      unfold align none at hy
      have hsame : a'.free y = a.free y := by
        refine hwrites _ (by omega) (by omega) (by omega) fun f hf _ => ?_
        have := (h.whole f hf).1
        unfold align at this
        omega
      obtain ⟨t, ht, htfree, hty⟩ := hm (hsame ▸ hne)
      refine ⟨t, mem_middle.mpr (.inr ((mem_middle.mp ht).resolve_left ?_)), htfree, hty⟩
      rintro rfl
      exact he hty.symm

theorem Shape.unlink (h : Shape a (pre ++ c :: post) stale) (hfree : c.free = true) :
    Shape (unlink a c.start) (pre ++ c.use :: post) stale ∧
      Leaves a (CodeArena.unlink a c.start) (pre ++ c :: post) (pre ++ c.use :: post) c.start := by
  have hstarts := h.starts
  have hmid : ∀ t ∈ pre ++ post, t ∈ pre ++ c :: post := fun t ht => mem_middle.mpr (.inr ht)
  obtain ⟨hnext, hprev⟩ := h.lists.link_cases hfree
  have hpc : a.prevFree c.start ≠ none →
      a.prevFree c.start ≠ c.start ∧ a.prevFree c.start ≠ c.start + 4 := by
    intro hne
    rcases hprev with hnone | ⟨t, ht, he, -⟩
    · exact absurd hnone hne
    · have := hstarts t ht
      omega
  obtain ⟨hmem, hbins, hsize, hlive⟩ := unlink_eq hpc
  refine h.relink (fun x h1 h2 h3 hf => ?_) rfl rfl hsize hlive ?_ ?_
  · rw [hmem, if_neg (by omega), if_neg h1, if_neg, if_neg]
    · rintro ⟨hne, rfl⟩
      rcases hprev with hnone | ⟨t, ht, he, htfree, -⟩
      · exact hne hnone
      · exact (hf t (hmid t ht) htfree).1 (by rw [he])
    · rintro ⟨hne, rfl⟩
      rcases hnext with hnone | ⟨t, ht, he, htfree, -⟩
      · exact hne hnone
      · exact (hf t (hmid t ht) htfree).2 (by rw [he])
  · rw [Arena.free, hmem, if_neg (by omega), if_pos rfl]
    rfl
  · -- The links of another chunk, and where the two links of this one lead.
    have hlink : ∀ t ∈ pre ++ post, ∀ n,
        (n = none ∨ ∃ u ∈ pre ++ post, u.start = n ∧ u.free = true ∧ arenaBin u.length = arenaBin c.length) → n ≠ none →
        t.start + 12 ≠ n + 16 ∧ t.start + 16 ≠ n + 12 := by
      rintro t ht n (hnone | ⟨u, hu, rfl, -⟩) hne
      · exact absurd hnone hne
      · have := h.sep (hmid t ht) (hmid u hu)
        omega
    have hnone : ∀ t ∈ pre ++ post, t.start ≠ none := fun t ht => h.start_ne_none (hmid t ht)
    refine h.lists.take hfree (fun t ht => ?_) (fun b => ?_) (fun t ht _ => ?_) (fun t ht _ => ?_)
    · have := hstarts t ht
      omega
    · rw [hbins, h.size c (mem_middle.mpr (.inl rfl))]
    · have := hstarts t ht
      rw [Arena.nextFree, hmem, if_neg (by omega), if_neg (by omega),
        if_neg fun hand => (hlink t ht _ hnext hand.1).1 hand.2]
      by_cases he : a.prevFree c.start = t.start
      · rw [if_pos ⟨he ▸ hnone t ht, by rw [he]⟩, if_pos he]
      · rw [if_neg (by omega), if_neg he]
        rfl
    · have := hstarts t ht
      rw [Arena.prevFree, hmem, if_neg (by omega), if_neg (by omega)]
      by_cases he : a.nextFree c.start = t.start
      · rw [if_pos ⟨he ▸ hnone t ht, by rw [he]⟩, if_pos he]
      · rw [if_neg (by omega), if_neg fun hand => (hlink t ht _ hprev hand.1).2 hand.2, if_neg he]
        rfl

theorem Shape.link (h : Shape a (pre ++ c :: post) stale) (hused : c.free = false) :
    Shape (link a c.start) (pre ++ c.release :: post) stale ∧
      Leaves a (CodeArena.link a c.start) (pre ++ c :: post) (pre ++ c.release :: post) c.start := by
  have hstarts := h.starts
  have hmid : ∀ t ∈ pre ++ post, t ∈ pre ++ c :: post := fun t ht => mem_middle.mpr (.inr ht)
  have hc : c ∈ pre ++ c :: post := mem_middle.mpr (.inl rfl)
  obtain ⟨hmem, hbins, hsize, hlive⟩ := link_eq a c.start
  rw [h.size c hc] at hmem hbins
  have hhead := h.lists.head_cases (arenaBin c.length)
  -- The first chunk of the list lies elsewhere.
  have hfar : a.bins (arenaBin c.length) ≠ none →
      ∃ t ∈ pre ++ post, t.start = a.bins (arenaBin c.length) ∧ t.free = true := by
    intro hne
    rcases hhead with hnone | ⟨t, ht, he, hfree, -⟩
    · exact absurd hnone hne
    · exact ⟨t, mem_others ht (by simp [hfree, hused]), he, hfree⟩
  have hself : a.bins (arenaBin c.length) ≠ none → ∀ k ≤ 16,
      c.start + k ≠ a.bins (arenaBin c.length) + 16 := by
    intro hne k hk
    obtain ⟨t, ht, he, -⟩ := hfar hne
    have := hstarts t ht
    omega
  refine h.relink (fun x h1 h2 h3 hf => ?_) rfl rfl hsize hlive ?_ ?_
  · rw [hmem, if_neg, if_neg h2, if_neg h3, if_neg h1]
    rintro ⟨hne, rfl⟩
    obtain ⟨t, ht, he, hfree⟩ := hfar hne
    exact (hf t (hmid t ht) hfree).2 (by rw [he])
  · rw [Arena.free, hmem, if_neg fun hand => hself hand.1 8 (by omega) hand.2, if_neg (by omega),
      if_neg (by omega), if_pos rfl]
    rfl
  · refine h.lists.add hused (h.start_ne_none hc) (fun t ht => ?_) hbins ?_ ?_
      (fun t ht _ => ?_) (fun t ht _ => ?_)
    · have := hstarts t ht
      omega
    · rw [Arena.nextFree, hmem, if_neg fun hand => hself hand.1 12 (by omega) hand.2, if_pos rfl]
    · rw [Arena.prevFree, hmem, if_neg fun hand => hself hand.1 16 (by omega) hand.2,
        if_neg (by omega), if_pos rfl]
    · have hsep := hstarts t ht
      rw [Arena.nextFree, hmem, if_neg, if_neg (by omega), if_neg (by omega), if_neg (by omega)]
      · rfl
      · rintro ⟨hne, he⟩
        obtain ⟨u, hu, hu', -⟩ := hfar hne
        have := h.sep (hmid t ht) (hmid u hu)
        omega
    · have hsep := hstarts t ht
      rw [Arena.prevFree, hmem]
      by_cases he : a.bins (arenaBin c.length) = t.start
      · rw [if_pos ⟨he ▸ h.start_ne_none (hmid t ht), by rw [he]⟩, if_pos he]
      · rw [if_neg (by omega), if_neg (by omega), if_neg (by omega), if_neg (by omega), if_neg he]
        rfl

theorem Shape.weaken (h : Shape a tiles none) (stale : Nat) : Shape a tiles stale :=
  { h with prev := fun t ht u hu hadj _ => h.prev t ht u hu hadj (h.start_ne_none hu) }

theorem Shape.recount (h : Shape a tiles stale) (n : Nat) : Shape { a with live := n } tiles stale :=
  { h with }

/-- Two chunks in use become one; the chunk behind them does not know yet. -/
theorem Shape.merge (h : Shape a (pre ++ c :: d :: post) stale) (hc : c.free = false)
    (hd : d.free = false) (hstale : stale = none ∨ stale = d.stop) :
    Shape (a.store c.start (c.length + d.length))
        (pre ++ ⟨c.start, c.length + d.length, false⟩ :: post) d.stop ∧
      Leaves a (a.store c.start (c.length + d.length)) (pre ++ c :: d :: post)
        (pre ++ ⟨c.start, c.length + d.length, false⟩ :: post) c.start := by
  have hcmem : c ∈ pre ++ c :: d :: post := mem_middle.mpr (.inl rfl)
  have hdmem : d ∈ pre ++ c :: d :: post := by simp
  have hrest : ∀ t ∈ pre ++ post, t ∈ pre ++ c :: d :: post := by
    intro t ht
    simp only [mem_append, mem_cons] at ht ⊢
    exact ht.imp_right fun ht => .inr (.inr ht)
  obtain ⟨h1, h2, hdstart, h3, h4⟩ := Tiled.middle_iff.mp h.tiled
  have hstop : d.stop = c.start + (c.length + d.length) := by
    unfold Tile.stop at *
    omega
  have hwc := h.whole c hcmem
  have hwd := h.whole d hdmem
  -- The chunks that stay as they are lie before or behind.
  have hout : ∀ t ∈ pre ++ post, t.stop ≤ c.start ∨ d.stop ≤ t.start := by
    intro t ht
    rcases mem_append.mp ht with ht | ht
    · exact .inl (h1.inside ht).2.2
    · exact .inr (h4.inside ht).1
  have hword : ∀ t ∈ pre ++ post, ∀ k ≤ 16, (a.store c.start (c.length + d.length)).mem (t.start + k) =
      a.mem (t.start + k) := by
    intro t ht k hk
    have := hout t ht
    have := (h.whole t (hrest t ht)).2.2
    unfold Tile.stop least header align at *
    rw [Arena.store_mem, if_neg (by omega)]
  have hself : ∀ k, 0 < k → (a.store c.start (c.length + d.length)).mem (c.start + k) =
      a.mem (c.start + k) := by
    intro k hk
    rw [Arena.store_mem, if_neg (by omega)]
  have hfree : ∀ t ∈ pre ++ c :: d :: post, t.free = true → t ∈ pre ++ post := fun t ht hfree =>
    mem_others (mem_others ht (by simp [hfree, hc])) (by simp [hfree, hd])
  refine ⟨⟨h.bound, ?_, fun t ht => ?_, fun t ht => ?_, fun t ht => ?_, fun t ht hz => ?_,
    fun t ht u hu hadj hne => ?_, ?_⟩, ?_,
    .store (.inl hwc.1) _ fun t ht htfree => mem_middle.mpr (.inr (hfree t ht htfree)), rfl, rfl⟩
  · refine Tiled.middle_iff.mpr ⟨h1, Nat.add_pos_left h2 _, ?_⟩
    rw [show (⟨c.start, c.length + d.length, false⟩ : Tile).stop = d.stop from hstop.symm]
    exact h4
  · rcases mem_middle.mp ht with rfl | ht
    · unfold least header align at *
      dsimp only
      omega
    · exact h.whole t (hrest t ht)
  · rcases mem_middle.mp ht with rfl | ht
    · exact (Arena.store_mem _ _ _ _).trans (if_pos rfl)
    · exact (hword t ht 0 (by omega)).trans (h.size t (hrest t ht))
  · rcases mem_middle.mp ht with rfl | ht
    · exact (hself 8 (by omega)).trans ((h.flag c hcmem).trans (by rw [hc]))
    · exact (hword t ht 8 (by omega)).trans (h.flag t (hrest t ht))
  · rcases mem_middle.mp ht with rfl | ht
    · exact (hself 4 (by omega)).trans (h.first c hcmem hz)
    · exact (hword t ht 4 (by omega)).trans (h.first t (hrest t ht) hz)
  · -- Only the chunk behind the two could tell them apart.
    have ht' : t ∈ pre ++ post := by
      rcases mem_middle.mp ht with rfl | ht
      · exact absurd (hadj.symm.trans hstop.symm) hne
      · exact ht
    have hold : ∀ v ∈ pre ++ c :: d :: post, v.start = u.start → v.start ≠ stale := by
      rintro v hv he hv'
      rcases hstale with rfl | rfl
      · exact h.start_ne_none hv hv'
      · exact hne (he ▸ hv')
    rcases mem_middle.mp hu with rfl | hu
    · exact (hself 4 (by omega)).trans (h.prev t (hrest t ht') c hcmem hadj (hold c hcmem rfl))
    · exact (hword u hu 4 (by omega)).trans
        (h.prev t (hrest t ht') u (hrest u hu) hadj (hold u (hrest u hu) rfl))
  · refine h.lists.congr (fun t htfree => ⟨fun ht => ?_, fun ht => ?_⟩) (fun _ => rfl)
      (fun t ht htfree => hword t (hfree t ht htfree) 12 (by omega))
      (fun t ht htfree => hword t (hfree t ht htfree) 16 (by omega))
    · exact hrest t (mem_others ht (by simp [htfree]))
    · exact mem_middle.mpr (.inr (hfree t ht htfree))
  · intro t ht _ hne x hx hx'
    rw [Arena.store_mem, if_neg]
    rintro rfl
    rcases h.tiled.apart ht hcmem with rfl | hlt | hlt
    · exact hne rfl
    · omega
    · unfold Tile.stop header least at *
      omega

theorem Shape.learn (h : Shape a (pre ++ c :: post) c.stop) :
    Shape (if c.stop < a.size then a.store (c.stop + 4) c.length else a) (pre ++ c :: post) none ∧
      Leaves a (if c.stop < a.size then a.store (c.stop + 4) c.length else a) (pre ++ c :: post)
        (pre ++ c :: post) c.start := by
  have hcmem : c ∈ pre ++ c :: post := mem_middle.mpr (.inl rfl)
  by_cases hlt : c.stop < a.size
  · rw [if_pos hlt]
    obtain ⟨n, post', rfl, hnstart⟩ := h.tiled.after hlt
    have hn : n ∈ pre ++ c :: n :: post' := by simp
    have hword : ∀ t ∈ pre ++ c :: n :: post', ∀ k, k = 0 ∨ k = 8 ∨ k = 12 ∨ k = 16 →
        (a.store (c.stop + 4) c.length).mem (t.start + k) = a.mem (t.start + k) := by
      intro t ht k hk
      have := (h.whole t ht).1
      have := (h.whole n hn).1
      unfold align at *
      rw [Arena.store_mem, if_neg (by omega)]
    have hplace : (c.stop + 4) % align = 4 := by
      have := (h.whole n hn).1
      unfold align at *
      omega
    refine ⟨⟨h.bound, h.tiled, h.whole, fun t ht => ?_, fun t ht => ?_, fun t ht hz => ?_,
      fun t ht u hu hadj _ => ?_, ?_⟩, ?_, .store (.inr hplace) _ fun t ht _ => ht, rfl, rfl⟩
    · exact (hword t ht 0 (by omega)).trans (h.size t ht)
    · exact (hword t ht 8 (by omega)).trans (h.flag t ht)
    · rw [Arena.prevSize, Arena.store_mem, if_neg]
      · exact h.first t ht hz
      · have := (h.tiled.inside hcmem).2.1
        unfold Tile.stop
        omega
    · by_cases he : u.start = c.stop
      · have htc : t = c := by
          have := (h.tiled.inside ht).2.1
          have := (h.tiled.inside hcmem).2.1
          rcases h.tiled.apart ht hcmem with htc | hlt | hlt
          · exact htc
          · unfold Tile.stop at *
            omega
          · unfold Tile.stop at *
            omega
        rw [Arena.prevSize, Arena.store_mem, if_pos (by rw [he]), htc]
      · rw [Arena.prevSize, Arena.store_mem, if_neg (by omega)]
        exact h.prev t ht u hu hadj he
    · exact h.lists.congr (fun _ _ => Iff.rfl) (fun _ => rfl)
        (fun t ht _ => hword t ht 12 (by omega)) (fun t ht _ => hword t ht 16 (by omega))
    · intro t ht _ hne x hx hx'
      rw [Arena.store_mem, if_neg]
      rintro rfl
      rcases h.tiled.apart ht hn with rfl | hlt | hlt
      · unfold header at hx
        omega
      · omega
      · unfold Tile.stop header at *
        omega
  · rw [if_neg hlt]
    refine ⟨{ h with prev := fun t ht u hu hadj _ => ?_ }, .refl _ _ _⟩
    refine h.prev t ht u hu hadj ?_
    have := h.tiled.inside hu
    unfold Tile.stop at *
    omega

structure Trimmed (ts ts' : List Tile) : Prop where
  used : ∀ t, t.free = false → (t ∈ ts' ↔ t ∈ ts)
  length : usedLength ts' = usedLength ts
  coalesced : Coalesced ts'

theorem Shape.stop_eq (h : Shape a tiles stale) (ht : t ∈ tiles) :
    add32 t.start (a.chunkSize t.start) = t.stop := by
  have := (h.tiled.inside ht).2.2
  have := h.bound
  rw [h.size t ht, add32_eq (by unfold Tile.stop at *; omega)]
  rfl

theorem Shape.merge_after (h : Shape a (pre ++ c :: post) none) (hused : c.free = false)
    (hco : Coalesced (pre ++ c :: post)) :
    ∃ c' post', c'.start = c.start ∧ c'.free = false ∧
      Shape (mergeAfter a c.start) (pre ++ c' :: post') c'.stop ∧
      Leaves a (mergeAfter a c.start) (pre ++ c :: post) (pre ++ c' :: post') c.start ∧
      Trimmed post post' ∧ ∀ u ∈ post'.head?, u.free = false := by
  have hc : c ∈ pre ++ c :: post := mem_middle.mpr (.inl rfl)
  obtain ⟨-, hpost, -⟩ := coalesced_middle.mp hco
  unfold mergeAfter
  dsimp only
  rw [h.stop_eq hc]
  by_cases hcond : c.stop < a.size ∧ a.free c.stop ≠ 0
  · rw [if_pos hcond]
    obtain ⟨d, post', rfl, hd⟩ := h.tiled.after hcond.1
    have hdmem : d ∈ pre ++ c :: d :: post' := by simp
    have hfree : d.free = true := by
      by_contra hne
      rw [← hd, h.flag d hdmem, if_neg hne] at hcond
      exact hcond.2 rfl
    rw [← hd]
    have happ : pre ++ c :: d :: post' = (pre ++ [c]) ++ d :: post' := by simp
    have happ' : pre ++ c :: d.use :: post' = (pre ++ [c]) ++ d.use :: post' := by simp
    obtain ⟨hshape, hleaves⟩ := (happ ▸ h).unlink hfree
    rw [← happ'] at hshape hleaves
    rw [← happ] at hleaves
    have hcsize := hshape.size c (mem_middle.mpr (.inl rfl))
    have hdsize : (CodeArena.unlink a d.start).chunkSize d.start = d.length :=
      hshape.size d.use (by simp)
    have hbound : c.length + d.length < 2 ^ 32 := by
      have := (h.tiled.inside hdmem).2.2
      have := h.bound
      unfold Tile.stop at *
      omega
    rw [hcsize, hdsize, add32_eq hbound]
    obtain ⟨hmerged, hleaves'⟩ := hshape.merge hused rfl (.inl rfl)
    have hstop : d.use.stop = (⟨c.start, c.length + d.length, false⟩ : Tile).stop := by
      unfold Tile.stop at *
      simp only [Tile.use_start, Tile.use_length]
      omega
    rw [hstop] at hmerged
    obtain ⟨hdpost, hnext⟩ := isChain_cons.mp hpost
    refine ⟨⟨c.start, c.length + d.length, false⟩, post', rfl, rfl, hmerged, ?_,
      ⟨fun t ht => ?_, ?_, hnext⟩, fun u hu => ?_⟩
    · have hleaves0 : Leaves a (CodeArena.unlink a d.start) (pre ++ c :: d :: post')
          (pre ++ c :: d.use :: post') c.start := by
        refine ⟨fun t ht htused _ => hleaves.kept t ht htused ?_, hleaves.marked, hleaves.size, hleaves.live⟩
        exact h.tiled.start_ne ht hdmem (by simp [hfree, htused])
      refine hleaves0.trans hleaves' fun t ht htused hne => ⟨?_, hne⟩
      rw [happ'] at *
      exact mem_middle.mpr (.inr (mem_others (happ ▸ ht) (by simp [hfree, htused])))
    · exact ⟨mem_cons_of_mem d, fun hor => @mem_others t d [] post' hor (by simp [hfree, ht])⟩
    · rw [used_length_cons, if_pos hfree, Nat.zero_add]
    · have := hdpost u hu
      simpa [hfree] using this
  · rw [if_neg hcond]
    refine ⟨c, post, rfl, hused, h.weaken _, .refl _ _ _, ⟨fun _ _ => Iff.rfl, rfl, hpost⟩, fun u hu => ?_⟩
    obtain ⟨post', rfl⟩ : ∃ post', post = u :: post' := by
      cases post with
      | nil => cases hu
      | cons v post' => exact ⟨post', by rw [Option.some.inj hu]⟩
    have humem : u ∈ pre ++ c :: u :: post' := by simp
    have hustart : u.start = c.stop := (Tiled.middle_iff.mp h.tiled).2.2.1
    have := (h.tiled.inside humem)
    by_contra hne
    refine hcond ⟨by unfold Tile.stop at *; omega, ?_⟩
    rw [← hustart, h.flag u humem, if_pos (by simpa using hne)]
    exact Nat.one_ne_zero

theorem Shape.merge_before_eq (h : Shape a (pre ++ c :: post) c.stop) :
    (mergeBefore a c.start = (c.start, a) ∧ ∀ u ∈ pre.getLast?, u.free = false) ∨
      ∃ p pre', pre = pre' ++ [p] ∧ p.stop = c.start ∧ p.free = true ∧ mergeBefore a c.start =
        (p.start, (CodeArena.unlink a p.start).store p.start
          (add32 ((CodeArena.unlink a p.start).chunkSize p.start)
            ((CodeArena.unlink a p.start).chunkSize c.start))) := by
  have hc : c ∈ pre ++ c :: post := mem_middle.mpr (.inl rfl)
  have hpos := (h.tiled.inside hc).2.1
  by_cases hzero : c.start = 0
  · refine .inl ⟨?_, ?_⟩
    · unfold mergeBefore
      rw [if_neg (by simp [h.first c hc hzero])]
    · obtain ⟨hpre, -, -⟩ := Tiled.middle_iff.mp h.tiled
      cases pre with
      | nil => simp
      | cons t pre =>
        have := hpre.2.2.le
        have := hpre.2.1
        unfold Tile.stop at *
        omega
  · obtain ⟨p, pre', rfl, hp⟩ := h.tiled.before (Nat.pos_of_ne_zero hzero)
    have hpmem : p ∈ pre' ++ [p] ++ c :: post := by simp
    have hppos := (h.tiled.inside hpmem).2.1
    have hprev : a.prevSize c.start = p.length :=
      h.prev p hpmem c hc hp (by unfold Tile.stop; omega)
    have hbefore : sub32 c.start p.length = p.start := by
      have := (h.tiled.inside hc).2.2
      have := h.bound
      unfold Tile.stop at *
      rw [sub32_eq (by omega) (by omega)]
      omega
    unfold mergeBefore
    rw [hprev, if_pos (by omega)]
    dsimp only
    rw [hbefore, h.flag p hpmem]
    by_cases hfree : p.free = true
    · exact .inr ⟨p, pre', rfl, hp, hfree, by rw [if_pos hfree, if_pos Nat.one_ne_zero]⟩
    · refine .inl ⟨by rw [if_neg hfree, if_neg (by simp)], fun u hu => ?_⟩
      rw [List.getLast?_append_cons] at hu
      cases hu
      simpa using hfree

theorem Shape.merge_before (h : Shape a (pre ++ c :: post) c.stop) (hused : c.free = false)
    (hco : Coalesced pre) :
    ∃ c' pre', (mergeBefore a c.start).1 = c'.start ∧ c'.free = false ∧
      Shape (mergeBefore a c.start).2 (pre' ++ c' :: post) c'.stop ∧
      Leaves a (mergeBefore a c.start).2 (pre ++ c :: post) (pre' ++ c' :: post) c.start ∧
      Trimmed pre pre' ∧ ∀ u ∈ pre'.getLast?, u.free = false := by
  rcases h.merge_before_eq with ⟨heq, hlast⟩ | ⟨p, pre', rfl, hp, hfree, heq⟩
  · rw [heq]
    exact ⟨c, pre, rfl, hused, h, .refl _ _ _, ⟨fun _ _ => Iff.rfl, rfl, hco⟩, hlast⟩
  · have happ : pre' ++ [p] ++ c :: post = pre' ++ p :: c :: post := by simp
    have hc : c ∈ pre' ++ [p] ++ c :: post := by simp
    have hpmem : p ∈ pre' ++ [p] ++ c :: post := by simp
    obtain ⟨hpre', hnil, hends⟩ := coalesced_middle.mp hco
    obtain ⟨hshape, hleaves⟩ := (happ ▸ h).unlink hfree
    have hpsize : (CodeArena.unlink a p.start).chunkSize p.start = p.length :=
      hshape.size p.use (by simp)
    have hcsize : (CodeArena.unlink a p.start).chunkSize c.start = c.length :=
      hshape.size c (by simp)
    have hbound : p.length + c.length < 2 ^ 32 := by
      have := (h.tiled.inside hc).2.2
      have := h.bound
      unfold Tile.stop at *
      omega
    rw [hpsize, hcsize, add32_eq hbound] at heq
    obtain ⟨hmerged, hleaves'⟩ := hshape.merge rfl hused (.inr rfl)
    have hstop : c.stop = (⟨p.start, p.length + c.length, false⟩ : Tile).stop := by
      unfold Tile.stop at *
      dsimp only
      omega
    rw [hstop] at hmerged
    have hpne : ∀ t ∈ pre' ++ [p] ++ c :: post, t.free = false → t.start ≠ p.start := by
      intro t ht htused
      exact h.tiled.start_ne ht hpmem (by simp [hfree, htused])
    rw [heq]
    refine ⟨⟨p.start, p.length + c.length, false⟩, pre', rfl, rfl, hmerged, ?_,
      ⟨fun t ht => ?_, ?_, hpre'⟩, (hends hfree).1⟩
    · have hleaves0 : Leaves a (CodeArena.unlink a p.start) (pre' ++ [p] ++ c :: post)
          (pre' ++ p.use :: c :: post) c.start :=
        ⟨fun t ht htused _ => hleaves.kept t (happ ▸ ht) htused (hpne t ht htused), happ ▸ hleaves.marked,
          hleaves.size, hleaves.live⟩
      refine hleaves0.trans hleaves' fun t ht htused _ => ⟨?_, hpne t ht htused⟩
      exact mem_middle.mpr (.inr (mem_others (happ ▸ ht) (by simp [hfree, htused])))
    · refine ⟨mem_append_left _, fun hor => ?_⟩
      simpa using mem_others hor (by simp [hfree, ht])
    · rw [used_length_append, used_length_cons, if_pos hfree]
      rfl

/-- The tail of a chunk, before it is linked. -/
def cut (a : Arena) (offset want rest : Nat) : Arena :=
  let tail := add32 offset want
  let after := add32 offset (a.chunkSize offset)
  let a := (((clear a tail).store tail rest).store (tail + 4) want).store offset want
  if after < a.size then a.store (after + 4) rest else a

theorem cut_mem (hlen : a.chunkSize o = want + rest) (hbound : o + want + rest < 2 ^ 32)
    (x : Nat) : (cut a o want rest).mem x =
      if o + want + rest < a.size ∧ x = o + want + rest + 4 then rest
      else if x = o then want
      else if x = o + want + 4 then want
      else if x = o + want then rest
      else if o + want ≤ x ∧ x < o + want + least then 0
      else a.mem x := by
  unfold cut
  dsimp only
  rw [hlen, add32_eq (by omega), add32_eq (by omega), ← Nat.add_assoc]
  have hsize : ((((clear a (o + want)).store (o + want) rest).store (o + want + 4) want).store o
    want).size = a.size := rfl
  rw [hsize]
  by_cases hlt : o + want + rest < a.size
  · rw [if_pos hlt]
    simp [clear, hlt]
  · simp [clear, hlt]

theorem Shape.cut (h : Shape a (pre ++ c :: post) none) (hused : c.free = false)
    (hlen : c.length = want + rest) (hwant : least ≤ want) (hmod : want % align = 0)
    (hrest : least ≤ rest) :
    Shape (cut a c.start want rest)
        (pre ++ ⟨c.start, want, false⟩ :: ⟨c.start + want, rest, false⟩ :: post) none ∧
      Leaves a (CodeArena.cut a c.start want rest) (pre ++ c :: post)
        (pre ++ ⟨c.start, want, false⟩ :: ⟨c.start + want, rest, false⟩ :: post) c.start := by
  have hcmem : c ∈ pre ++ c :: post := mem_middle.mpr (.inl rfl)
  have hwc := h.whole c hcmem
  have hin := h.tiled.inside hcmem
  have hbound := h.bound
  have hmem := cut_mem ((h.size c hcmem).trans hlen) (a := a) (o := c.start)
    (by unfold Tile.stop at hin; omega)
  obtain ⟨hsize, hlive, hbins⟩ : (CodeArena.cut a c.start want rest).size = a.size ∧
      (CodeArena.cut a c.start want rest).live = a.live ∧
      (CodeArena.cut a c.start want rest).bins = a.bins := by
    unfold CodeArena.cut
    dsimp only
    split <;> exact ⟨rfl, rfl, rfl⟩
  generalize CodeArena.cut a c.start want rest = b at *
  unfold least header align at hwant hrest hmem
  unfold align at hmod hwc
  have hold : ∀ t ∈ pre ++ post, t ∈ pre ++ c :: post := fun t ht => mem_middle.mpr (.inr ht)
  have hout : ∀ t ∈ pre ++ post, t.start + t.length ≤ c.start ∨ c.start + want + rest ≤ t.start := by
    intro t ht
    have := h.tiled.others ht
    unfold Tile.stop at *
    omega
  -- The words of the other chunks, but for what the one behind knows.
  have hword : ∀ t ∈ pre ++ post, ∀ k, k ≤ 16 → k % 4 = 0 → (k = 4 → t.start ≠ c.start + want + rest) →
      b.mem (t.start + k) = a.mem (t.start + k) := by
    intro t ht k hk hk4 hne
    have h1 := hout t ht
    have h2 := h.whole t (hold t ht)
    unfold least header align at h2
    rw [hmem]
    split_ifs <;> omega
  have hself : ∀ k, 0 < k → k ≤ 16 → b.mem (c.start + k) = a.mem (c.start + k) := by
    intro k hk hk'
    rw [hmem]
    split_ifs <;> omega
  have hmid : ∀ t ∈ pre ++ ⟨c.start, want, false⟩ :: ⟨c.start + want, rest, false⟩ :: post,
      (t.start = c.start ∧ t.length = want ∧ t.free = false) ∨
      (t.start = c.start + want ∧ t.length = rest ∧ t.free = false) ∨ t ∈ pre ++ post := by
    intro t ht
    rcases mem_middle.mp ht with rfl | ht
    · exact .inl ⟨rfl, rfl, rfl⟩
    rcases mem_middle.mp ht with rfl | ht
    · exact .inr (.inl ⟨rfl, rfl, rfl⟩)
    · exact .inr (.inr ht)
  have hfree : ∀ t ∈ pre ++ c :: post, t.free = true → t ∈ pre ++ post := by
    intro t ht hfree
    exact mem_others ht (by simp [hfree, hused])
  have hkept : ∀ t ∈ pre ++ post, t ∈ pre ++ ⟨c.start, want, false⟩ :: ⟨c.start + want, rest, false⟩ :: post :=
    fun t ht => mem_middle.mpr (.inr (mem_middle.mpr (.inr ht)))
  refine ⟨⟨hsize ▸ h.bound, ?_, fun t ht => ?_, fun t ht => ?_, fun t ht => ?_, fun t ht hz => ?_,
    fun t ht u hu hadj _ => ?_, ?_⟩, ?_,
    .of_flag (fun y hy => ?_) fun t ht htfree => hkept t (hfree t ht htfree), hsize, hlive⟩
  · rw [hsize]
    have hstop : c.start + want + rest = c.stop := by
      unfold Tile.stop
      omega
    have hcut : Tiled c.start c.stop [⟨c.start, want, false⟩, ⟨c.start + want, rest, false⟩] :=
      ⟨rfl, Nat.lt_of_lt_of_le (by decide) hwant, rfl, Nat.lt_of_lt_of_le (by decide) hrest, hstop⟩
    exact h.tiled.replace hcut
  · unfold least header align
    rcases hmid t ht with ⟨hs, hl, -⟩ | ⟨hs, hl, -⟩ | ht
    · omega
    · omega
    · exact h.whole t (hold t ht)
  · rcases hmid t ht with ⟨hs, hl, -⟩ | ⟨hs, hl, -⟩ | ht
    · rw [hs, hl, Arena.chunkSize, hmem, if_neg (by omega), if_pos rfl]
    · rw [hs, hl, Arena.chunkSize, hmem, if_neg (by omega), if_neg (by omega), if_neg (by omega), if_pos rfl]
    · exact (hword t ht 0 (by omega) rfl (by omega)).trans (h.size t (hold t ht))
  · rcases hmid t ht with ⟨hs, -, hf⟩ | ⟨hs, -, hf⟩ | ht
    · rw [hs, hf, ← hused]
      exact (hself 8 (by omega) (by omega)).trans (h.flag c hcmem)
    · rw [hs, hf, Arena.free, hmem]
      split_ifs <;> omega
    · exact (hword t ht 8 (by omega) rfl (by omega)).trans (h.flag t (hold t ht))
  · rcases hmid t ht with ⟨hs, -⟩ | ⟨hs, -⟩ | ht
    · rw [hs] at hz ⊢
      exact (hself 4 (by omega) (by omega)).trans (h.first c hcmem hz)
    · omega
    · exact (hword t ht 4 (by omega) rfl (by omega)).trans (h.first t (hold t ht) hz)
  · -- The chunk behind is the one that learns of the tail.
    unfold Tile.stop at hadj
    rcases hmid u hu with ⟨hus, -⟩ | ⟨hus, -⟩ | hu
    · rcases hmid t ht with ⟨hts, htl, -⟩ | ⟨hts, htl, -⟩ | ht
      · omega
      · omega
      · rw [hus] at hadj ⊢
        exact (hself 4 (by omega) (by omega)).trans
          (h.prev t (hold t ht) c hcmem hadj (h.start_ne_none hcmem))
    · rcases hmid t ht with ⟨hts, htl, -⟩ | ⟨hts, htl, -⟩ | ht
      · rw [hus, htl, Arena.prevSize, hmem, if_neg (by omega), if_neg (by omega), if_pos rfl]
      · omega
      · have := hout t ht
        omega
    · have hu' := h.tiled.inside (hold u hu)
      have hu'' := hout u hu
      rcases hmid t ht with ⟨hts, htl, -⟩ | ⟨hts, htl, -⟩ | ht
      · omega
      · unfold Tile.stop at hu'
        rw [htl, Arena.prevSize, hmem, if_pos (by omega)]
      · have h1 := hout t ht
        have h2 := (h.tiled.inside (hold t ht)).2.1
        exact (hword u hu 4 (by omega) rfl (by omega)).trans
          (h.prev t (hold t ht) u (hold u hu) hadj (h.start_ne_none (hold u hu)))
  · exact h.lists.congr (fun t htfree => ⟨fun ht => hold t (mem_others (mem_others ht (by simp [htfree]))
      (by simp [htfree])), fun ht => hkept t (hfree t ht htfree)⟩) (fun b => congrFun hbins b)
      (fun t ht htfree => hword t (hfree t ht htfree) 12 (by omega) rfl (by omega))
      (fun t ht htfree => hword t (hfree t ht htfree) 16 (by omega) rfl (by omega))
  · intro t ht _ hne x hx hx'
    have h1 := hout t ((mem_middle.mp ht).resolve_left fun he => hne (he ▸ rfl))
    unfold header Tile.stop at *
    rw [hmem]
    split_ifs <;> omega
  · unfold align none at hy
    rw [Arena.free, hmem, if_neg (by omega), if_neg (by omega), if_neg (by omega), if_neg (by omega)]
    split
    · exact .inl rfl
    · exact .inr rfl

theorem Shape.settle (h : Shape a (pre ++ c :: post) c.stop) (hused : c.free = false) :
    Shape (settle a c.start) (pre ++ c.release :: post) none ∧
      Leaves a (CodeArena.settle a c.start) (pre ++ c :: post) (pre ++ c.release :: post) c.start := by
  have hc : c ∈ pre ++ c :: post := mem_middle.mpr (.inl rfl)
  unfold CodeArena.settle
  rw [h.stop_eq hc, h.size c hc]
  obtain ⟨hshape, hleaves⟩ := h.learn
  obtain ⟨hshape', hleaves'⟩ := hshape.link hused
  exact ⟨hshape', hleaves.trans hleaves' fun t ht _ hne => ⟨ht, hne⟩⟩

theorem Shape.split_tail (h : Shape a (pre ++ c :: post) none) (hused : c.free = false)
    (hlen : c.length = want + rest) (hwant : least ≤ want) (hmod : want % align = 0)
    (hrest : least ≤ rest) :
    Shape (splitTail a c.start want rest)
        (pre ++ ⟨c.start, want, false⟩ :: ⟨c.start + want, rest, true⟩ :: post) none ∧
      Leaves a (splitTail a c.start want rest) (pre ++ c :: post)
        (pre ++ ⟨c.start, want, false⟩ :: ⟨c.start + want, rest, true⟩ :: post) c.start := by
  have hcmem : c ∈ pre ++ c :: post := mem_middle.mpr (.inl rfl)
  have hsplit : splitTail a c.start want rest =
      CodeArena.link (CodeArena.cut a c.start want rest) (add32 c.start want) := rfl
  have htail : add32 c.start want = c.start + want := by
    have hin := (h.tiled.inside hcmem).2.2
    have := h.bound
    unfold Tile.stop at hin
    rw [add32_eq (by omega)]
  obtain ⟨hcut, hleaves⟩ := h.cut hused hlen hwant hmod hrest
  rw [hsplit, htail]
  have happ : ∀ f, pre ++ ⟨c.start, want, false⟩ :: ⟨c.start + want, rest, f⟩ :: post =
      (pre ++ [⟨c.start, want, false⟩]) ++ ⟨c.start + want, rest, f⟩ :: post := by simp
  have hcut' := happ false ▸ hcut
  obtain ⟨hlink, hleaves'⟩ := hcut'.link rfl
  rw [happ true]
  rw [happ false] at hleaves
  refine ⟨hlink, hleaves.trans hleaves' fun t ht htused hne => ?_⟩
  have ht' : t ∈ (pre ++ [⟨c.start, want, false⟩]) ++ post := by
    rcases mem_middle.mp ht with rfl | ht
    · exact absurd rfl hne
    · simp only [mem_append] at ht ⊢
      exact ht.imp_left .inl
  have := hcut'.starts t ht'
  exact ⟨mem_middle.mpr (.inr ht'), by omega⟩

/-- What holds of an arena between two calls. -/
structure Sound (a : Arena) (tiles : List Tile) : Prop where
  shape : Shape a tiles none
  coalesced : Coalesced tiles
  live : a.live = usedLength tiles

theorem used_length_le (h : Tiled s e tiles) : s + usedLength tiles ≤ e := by
  induction tiles generalizing s with
  | nil => exact Nat.le_of_eq h
  | cons t ts ih =>
    obtain ⟨hstart, -, hrest⟩ := h
    have := ih hrest
    rw [used_length_cons]
    unfold Tile.stop at this
    split <;> omega

/-- `code_arena_free` of a chunk in use. -/
theorem Sound.arena_free (h : Sound a (pre ++ c :: post)) (hused : c.free = false) :
    ∃ tiles', Sound (arenaFree a (c.start + header)).2 tiles' ∧
      Leaves { a with live := a.live - c.length } (arenaFree a (c.start + header)).2 (pre ++ c :: post)
        tiles' c.start ∧
      (∀ t, t.free = false → (t ∈ tiles' ↔ t ∈ pre ++ post)) ∧ c.length ≤ a.live := by
  have hc : c ∈ pre ++ c :: post := mem_middle.mpr (.inl rfl)
  have hshape := h.shape
  have hin := hshape.tiled.inside hc
  have hlen := (hshape.whole c hc).2.2
  have hbound := hshape.bound
  unfold least header align at hlen
  have hoffset : sub32 (c.start + header) header = c.start := by
    unfold Tile.stop header at *
    rw [sub32_eq (by omega) (by omega)]
    omega
  have hgood : ¬(c.start + header < header ∨ c.start + header ≥ a.size ∨ a.free c.start ≠ 0) := by
    rw [hshape.flag c hc, hused]
    unfold Tile.stop header at *
    simp
    omega
  have hlive : a.live = usedLength pre + (c.length + usedLength post) := by
    rw [h.live, used_length_append, used_length_cons, if_neg (by simp [hused])]
  have hcount : sub32 a.live (a.chunkSize c.start) = a.live - c.length := by
    have hle := used_length_le hshape.tiled
    rw [← h.live] at hle
    rw [hshape.size c hc, sub32_eq (by omega) (by omega)]
  unfold arenaFree
  rw [hoffset, if_neg hgood, hcount]
  obtain ⟨hcopre, -, -⟩ := coalesced_middle.mp h.coalesced
  obtain ⟨c1, post1, hs1, hu1, hshape1, hleaves1, htrim1, hhead1⟩ :=
    (hshape.recount (a.live - c.length)).merge_after hused h.coalesced
  obtain ⟨c2, pre2, hs2, hu2, hshape2, hleaves2, htrim2, hlast2⟩ := hshape1.merge_before hu1 hcopre
  rw [hs1] at hs2 hshape2 hleaves2
  dsimp only
  generalize mergeAfter { a with live := a.live - c.length } c.start = a1 at *
  generalize mergeBefore a1 c.start = r at *
  obtain ⟨o, a2⟩ := r
  subst hs2
  obtain ⟨hshape3, hleaves3⟩ := hshape2.settle hu2
  have hother : ∀ t ∈ pre ++ c :: post, t.start ≠ c.start → t ∈ pre ++ post := fun t ht hne =>
    (mem_middle.mp ht).resolve_left fun he => hne (he ▸ rfl)
  have hused2 : ∀ t, t.free = false → (t ∈ pre2 ++ post1 ↔ t ∈ pre ++ post) := by
    intro t ht
    rw [mem_append, mem_append, htrim2.used t ht, htrim1.used t ht]
  have hleaves := (hleaves1.trans hleaves2 fun t ht htused hne => by
    rw [mem_middle, mem_append, htrim1.used t htused, ← mem_append]
    exact ⟨.inr (hother t ht hne), hne⟩).trans hleaves3 fun t ht htused hne => by
      have ht' := (hused2 t htused).mpr (hother t ht hne)
      have := hshape2.starts t ht'
      exact ⟨mem_middle.mpr (.inr ht'), by omega⟩
  refine ⟨pre2 ++ c2.release :: post1, ⟨hshape3, ?_, ?_⟩, hleaves, fun t ht => ?_, by omega⟩
  · exact coalesced_middle.mpr ⟨htrim2.coalesced, htrim1.coalesced, fun _ => ⟨hlast2, hhead1⟩⟩
  · rw [hleaves.live, used_length_append, used_length_cons, if_pos c2.release_free, htrim1.length,
      htrim2.length, Nat.zero_add]
    dsimp only
    omega
  · rw [← hused2 t ht]
    exact ⟨fun hor => mem_others hor (by simp [ht]), fun h => mem_middle.mpr (.inr h)⟩

theorem round_spec (size : Nat) : round size % align = 0 ∧ least ≤ round size := by
  unfold round
  dsimp only
  generalize add32 (add32 (size % 2 ^ 32) header) (align - 1) = n
  unfold least header align
  split <;> omega

theorem Shape.try_chunks (h : Shape a tiles stale) (want left : Nat)
    (ho : o = none ∨ ∃ t ∈ tiles, t.start = o ∧ t.free = true) :
    tryChunks a want left o = none ∨
      ∃ t ∈ tiles, t.start = tryChunks a want left o ∧ t.free = true ∧ want ≤ t.length := by
  induction left generalizing o with
  | zero => exact .inl rfl
  | succ left ih =>
    unfold tryChunks
    rcases ho with rfl | ⟨t, ht, rfl, hfree⟩
    · exact .inl (if_pos rfl)
    · rw [if_neg (h.start_ne_none ht), h.size t ht]
      split
      · rename_i hfits
        exact .inr ⟨t, ht, rfl, hfree, hfits⟩
      · obtain ⟨pre, post, rfl⟩ := append_of_mem ht
        exact ih ((h.lists.link_cases hfree).1.imp_right fun ⟨u, hu, hstart, hufree, _⟩ =>
          ⟨u, mem_middle.mpr (.inr hu), hstart, hufree⟩)

theorem Shape.search (h : Shape a tiles stale) (want : Nat) :
    search a want = none ∨
      ∃ t ∈ tiles, t.start = CodeArena.search a want ∧ t.free = true ∧ want ≤ t.length := by
  unfold CodeArena.search
  generalize bins - arenaBin want = left
  generalize arenaBin want = bin
  induction left generalizing bin with
  | zero => exact .inl rfl
  | succ left ih =>
    unfold searchFrom
    dsimp only
    split
    · refine h.try_chunks want walk ?_
      exact (h.lists.head_cases bin).imp_right fun ⟨t, ht, hstart, hfree, _⟩ => ⟨t, ht, hstart, hfree⟩
    · exact ih (bin + 1)

theorem Sound.alloc (h : Sound a tiles) (size : Nat) :
    alloc a size = (0, a) ∨ ∃ t tiles', (CodeArena.alloc a size).1 = t.start + header ∧
      t.free = false ∧ Sound (CodeArena.alloc a size).2 tiles' ∧
      Leaves { a with live := a.live + t.length } (CodeArena.alloc a size).2 tiles tiles' t.start ∧
      (∀ u, u.free = false → (u ∈ tiles' ↔ u = t ∨ u ∈ tiles)) ∧
      ∀ u ∈ tiles, u.free = false → u.start ≠ t.start := by
  obtain ⟨hmod, hleast⟩ := round_spec size
  unfold CodeArena.alloc
  generalize round size = want at *
  rcases h.shape.search want with hnone | ⟨c, hc, hstart, hfree, hfits⟩
  · exact .inl (if_pos hnone)
  · dsimp only
    rw [← hstart, if_neg (h.shape.start_ne_none hc)]
    obtain ⟨pre, post, rfl⟩ := append_of_mem hc
    obtain ⟨hshape, hleaves⟩ := h.shape.unlink hfree
    have hcuse : c.use ∈ pre ++ c.use :: post := mem_middle.mpr (.inl rfl)
    have hin := h.shape.tiled.inside hc
    have hbound := h.shape.bound
    obtain ⟨hcopre, hcopost, hends⟩ := coalesced_middle.mp h.coalesced
    have hother : ∀ u ∈ pre ++ c :: post, u.free = false → u.start ≠ c.start := fun u hu huused =>
      h.shape.tiled.start_ne hu hc (by simp [hfree, huused])
    have hpayload : add32 c.start header = c.start + header := by
      unfold Tile.stop least at *
      rw [add32_eq (by omega)]
    -- What is in use grows by the chunk; the rest of its tile was free.
    have hcount : usedLength (pre ++ c :: post) = usedLength pre + usedLength post := by
      rw [used_length_append, used_length_cons, if_pos hfree, Nat.zero_add]
    have hsize : (CodeArena.unlink a c.start).chunkSize c.start = c.length := hshape.size c.use hcuse
    have hroom : usedLength pre + usedLength post + c.length < 2 ^ 32 := by
      have hle := used_length_le hshape.tiled
      have := hshape.bound
      rw [used_length_append, used_length_cons, if_neg (by simp)] at hle
      simp only [Tile.use_length] at hle
      omega
    rw [hpayload, hsize, sub32_eq hfits (by omega)]
    generalize CodeArena.unlink a c.start = a1 at *
    right
    by_cases hrest : c.length - want ≥ least
    · rw [if_pos hrest]
      have hlen : c.use.length = want + (c.length - want) := by
        rw [Tile.use_length]
        omega
      obtain ⟨htail, hleaves'⟩ := hshape.split_tail rfl hlen hleast hmod hrest
      rw [Tile.use_start] at htail hleaves'
      generalize splitTail a1 c.start want (c.length - want) = a2 at *
      have hsize2 : a2.chunkSize c.start = want := htail.size _ (mem_middle.mpr (.inl rfl))
      have hlive2 : add32 a2.live want = usedLength pre + want + usedLength post := by
        rw [hleaves'.live, hleaves.live, h.live, hcount, add32_eq (by omega)]
        omega
      rw [hsize2, hlive2]
      have hboth := hleaves.trans hleaves' fun t ht _ hne =>
        ⟨mem_middle.mpr (.inr ((mem_middle.mp ht).resolve_left fun he => hne (he ▸ rfl))), hne⟩
      refine ⟨⟨c.start, want, false⟩, _, rfl, rfl, ⟨htail.recount _, ?_, ?_⟩,
        ⟨hboth.kept, hboth.marked, hboth.size, ?_⟩, fun u hu => ?_, hother⟩
      · refine coalesced_middle.mpr ⟨hcopre, ?_, nofun⟩
        exact coalesced_middle.mpr ⟨isChain_nil, hcopost, fun _ => ⟨nofun, (hends hfree).2⟩⟩
      · rw [used_length_append, used_length_cons, used_length_cons, if_neg nofun, if_pos rfl]
        dsimp only
        omega
      · rw [h.live, hcount]
        dsimp only
        omega
      · rw [mem_middle, mem_middle]
        simp only [mem_append]
        have h1 : u ≠ ⟨c.start + want, c.length - want, true⟩ := ne_of_apply_ne Tile.free (by simp [hu])
        have h2 : u ≠ c := ne_of_apply_ne Tile.free (by simp [hu, hfree])
        simp [h1, h2]
    · have hlive2 : add32 a1.live c.length = usedLength pre + c.length + usedLength post := by
        rw [hleaves.live, h.live, hcount, add32_eq (by omega)]
        omega
      rw [if_neg hrest, hsize, hlive2]
      refine ⟨c.use, _, rfl, rfl, ⟨hshape.recount _, ?_, ?_⟩,
        ⟨hleaves.kept, hleaves.marked, hleaves.size, ?_⟩, fun u hu => ?_, hother⟩
      · exact coalesced_middle.mpr ⟨hcopre, hcopost, nofun⟩
      · rw [used_length_append, used_length_cons, if_neg (by simp), Tile.use_length]
        dsimp only
        omega
      · rw [h.live, hcount, Tile.use_length]
        dsimp only
        omega
      · have h2 : u ≠ c := ne_of_apply_ne Tile.free (by simp [hu, hfree])
        rw [mem_middle, mem_middle]
        simp [h2]

theorem Sound.init (mem : Nat → Nat) (hleast : least ≤ size) (hsize : size < 2 ^ 32) :
    Sound (init mem size) [⟨0, size / align * align, true⟩] ∧
      (CodeArena.init mem size).size = size / align * align := by
  have hmul : size / align * align % 2 ^ 32 = size / align * align := by
    unfold align
    omega
  have hlen : least ≤ size / align * align ∧ size / align * align < 2 ^ 32 ∧
      size / align * align % align = 0 := by
    unfold least header align at *
    omega
  unfold CodeArena.init
  dsimp only
  rw [hmul]
  generalize size / align * align = n at *
  rw [if_neg (by omega)]
  obtain ⟨h1, h2, h3⟩ := hlen
  have hmem : ∀ x, ((clear ⟨n, 0, fun _ => none, mem⟩ 0).store 0 n).mem x =
      if x = 0 then n else if 0 ≤ x ∧ x < 0 + least then 0 else mem x := by
    intro x
    rw [Arena.store_mem]
    rfl
  have hshape : Shape ((clear ⟨n, 0, fun _ => none, mem⟩ 0).store 0 n) [⟨0, n, false⟩] none := by
    refine ⟨h2, ⟨rfl, Nat.lt_of_lt_of_le (by decide) h1, Nat.zero_add n⟩, ?_, ?_, ?_, ?_, ?_, ?_⟩
    · simp only [mem_singleton, forall_eq]
      exact ⟨rfl, h3, h1⟩
    · simp only [mem_singleton, forall_eq]
      exact (hmem 0).trans (if_pos rfl)
    · simp only [mem_singleton, forall_eq]
      exact hmem 8
    · simp only [mem_singleton, forall_eq]
      exact fun _ => hmem 4
    · simp only [mem_singleton, forall_eq]
      intro hadj
      unfold Tile.stop least header align at *
      dsimp only at hadj
      omega
    · refine ⟨fun _ => [], ⟨fun _ => rfl, fun _ => nodup_nil, nofun⟩, fun b n => ⟨nofun, ?_⟩⟩
      rintro ⟨t, ht, -, hfree, -⟩
      rw [mem_singleton.mp ht] at hfree
      cases hfree
  have hnil : [(⟨0, n, false⟩ : Tile)] = [] ++ ⟨0, n, false⟩ :: [] := rfl
  obtain ⟨hlink, hleaves⟩ := (hnil ▸ hshape).link rfl
  exact ⟨⟨hlink, isChain_singleton _, hleaves.live⟩, hleaves.size⟩

theorem Shape.write (h : Shape a tiles stale) (ht : t ∈ tiles) (hused : t.free = false)
    (hx : t.start + header ≤ x) (hx' : x < t.stop) (v : Nat) : Shape (a.store x v) tiles stale := by
  have hword : ∀ u ∈ tiles, ∀ k, k ≤ 12 ∨ (k ≤ 16 ∧ u.free = true) →
      (a.store x v).mem (u.start + k) = a.mem (u.start + k) := by
    intro u hu k hk
    have hlen := (h.whole u hu).2.2
    unfold least header align at *
    rw [Arena.store_mem, if_neg]
    rcases h.tiled.apart hu ht with rfl | hlt | hlt
    · rw [hused] at hk
      have := hk.resolve_right nofun
      omega
    · unfold Tile.stop at *
      omega
    · omega
  exact ⟨h.bound, h.tiled, h.whole, fun u hu => (hword u hu 0 (by omega)).trans (h.size u hu),
    fun u hu => (hword u hu 8 (by omega)).trans (h.flag u hu),
    fun u hu hz => (hword u hu 4 (by omega)).trans (h.first u hu hz),
    fun t ht u hu hadj hne => (hword u hu 4 (by omega)).trans (h.prev t ht u hu hadj hne),
    h.lists.congr (fun _ _ => Iff.rfl) (fun _ => rfl)
      (fun u hu _ => hword u hu 12 (by omega)) (fun u hu hfree => hword u hu 16 (.inr ⟨by omega, hfree⟩))⟩

/-- What is handed out are the payloads of the chunks in use. -/
structure World.Inv (w : World) (tiles : List Tile) : Prop where
  sound : Sound w.arena tiles
  nodup : w.held.Nodup
  held : ∀ p, p ∈ w.held ↔ ∃ t ∈ tiles, t.free = false ∧ p = t.start + header

/-- A call leaves alone what stays handed out. -/
def World.Untouched (w : World) (op : Op) : Prop :=
  ∀ p ∈ w.held, p ∈ (w.step op).held → ∀ x, w.Within p x → (w.step op).arena.mem x = w.arena.mem x

variable {w : World}

theorem World.Inv.within (h : w.Inv tiles) (hp : p ∈ w.held) (hx : w.Within p x) :
    ∃ t ∈ tiles, t.free = false ∧ p = t.start + header ∧ t.start + header ≤ x ∧ x < t.stop := by
  obtain ⟨t, ht, hused, rfl⟩ := (h.held p).mp hp
  obtain ⟨hx, hx'⟩ := hx
  rw [Nat.add_sub_cancel, h.sound.shape.size t ht] at hx'
  exact ⟨t, ht, hused, rfl, hx, hx'⟩

theorem World.Inv.hand_out (h : w.Inv tiles) (hsound : Sound a tiles')
    (hused : t.free = false) (hmem : ∀ u, u.free = false → (u ∈ tiles' ↔ u = t ∨ u ∈ tiles))
    (hnew : ∀ u ∈ tiles, u.free = false → u.start ≠ t.start) :
    World.Inv ⟨a, (t.start + header) :: w.held⟩ tiles' := by
  refine ⟨hsound, nodup_cons.mpr ⟨fun hp => ?_, h.nodup⟩, fun p => ?_⟩
  · obtain ⟨u, hu, huused, he⟩ := (h.held _).mp hp
    exact hnew u hu huused (Nat.add_right_cancel he).symm
  · rw [mem_cons, h.held p, exists_used hused hmem]

theorem World.Inv.take_back (h : w.Inv (pre ++ c :: post))
    (hsound : Sound a tiles') (hmem : ∀ t, t.free = false → (t ∈ tiles' ↔ t ∈ pre ++ post)) :
    World.Inv ⟨a, w.held.erase (c.start + header)⟩ tiles' := by
  refine ⟨hsound, h.nodup.erase _, fun p => ?_⟩
  rw [h.nodup.mem_erase_iff, h.held p]
  constructor
  · rintro ⟨hne, t, ht, htused, rfl⟩
    refine ⟨t, (hmem t htused).mpr ((mem_middle.mp ht).resolve_left ?_), htused, rfl⟩
    rintro rfl
    exact hne rfl
  · rintro ⟨t, ht, htused, rfl⟩
    have ht' := (hmem t htused).mp ht
    have := h.sound.shape.starts t ht'
    exact ⟨by omega, t, mem_middle.mpr (.inr ht'), htused, rfl⟩

theorem World.step_alloc_eq (w : World) (hpayload : (CodeArena.alloc w.arena size).1 = t.start + header) :
    w.step (.alloc size) = ⟨(CodeArena.alloc w.arena size).2, (t.start + header) :: w.held⟩ := by
  unfold World.step
  dsimp only
  rw [hpayload, if_neg (by unfold header; omega)]

theorem World.Inv.step_alloc (h : w.Inv tiles) (size : Nat) :
    (∃ tiles', (w.step (.alloc size)).Inv tiles') ∧ (w.step (.alloc size)).arena.size = w.arena.size ∧
      w.Untouched (.alloc size) := by
  unfold World.Untouched
  rcases h.sound.alloc size with hnone | ⟨t, tiles', hpayload, hused, hsound, hleaves, hmem, hnew⟩
  · unfold World.step
    dsimp only
    rw [hnone]
    exact ⟨⟨tiles, h⟩, rfl, fun _ _ _ _ _ => rfl⟩
  · rw [w.step_alloc_eq hpayload]
    refine ⟨⟨tiles', h.hand_out hsound hused hmem hnew⟩, hleaves.size, fun p hp _ x hx => ?_⟩
    obtain ⟨u, hu, huused, -, hx, hx'⟩ := h.within hp hx
    exact hleaves.kept u hu huused (hnew u hu huused) x hx hx'

theorem World.Inv.step_free (h : w.Inv tiles) (hp : p ∈ w.held) :
    (∃ tiles', (w.step (.free p)).Inv tiles') ∧ (w.step (.free p)).arena.size = w.arena.size ∧
      w.Untouched (.free p) := by
  obtain ⟨c, hc, hused, rfl⟩ := (h.held p).mp hp
  obtain ⟨pre, post, rfl⟩ := append_of_mem hc
  obtain ⟨tiles', hsound, hleaves, hmem, -⟩ := h.sound.arena_free hused
  refine ⟨⟨tiles', h.take_back hsound hmem⟩, hleaves.size, fun p hp hp' x hx => ?_⟩
  obtain ⟨t, ht, htused, rfl, hx, hx'⟩ := h.within hp hx
  refine hleaves.kept t ht htused ?_ x hx hx'
  rintro he
  exact (h.nodup.mem_erase_iff.mp hp').1 (by rw [he])

theorem World.Inv.step_write (h : w.Inv tiles) (hok : w.Ok (.write x v)) :
    (w.step (.write x v)).Inv tiles := by
  obtain ⟨p, hp, hx⟩ := hok
  obtain ⟨t, ht, hused, -, hx, hx'⟩ := h.within hp hx
  exact ⟨⟨h.sound.shape.write ht hused hx hx' v, h.sound.coalesced, h.sound.live⟩, h.nodup, h.held⟩

theorem World.Inv.step (h : w.Inv tiles) (op : Op) (hok : w.Ok op) :
    (∃ tiles', (w.step op).Inv tiles') ∧ (w.step op).arena.size = w.arena.size := by
  cases op with
  | alloc size => exact (h.step_alloc size).imp_right And.left
  | free p => exact (h.step_free hok).imp_right And.left
  | write x v => exact ⟨⟨tiles, h.step_write hok⟩, rfl⟩

/-- Free chunks that do not follow each other are one chunk. -/
theorem coalesced_free (hco : Coalesced tiles) (hfree : ∀ t ∈ tiles, t.free = true) :
    tiles = [] ∨ ∃ t, tiles = [t] := by
  cases tiles with
  | nil => exact .inl rfl
  | cons t ts =>
    cases ts with
    | nil => exact .inr ⟨t, rfl⟩
    | cons u ts =>
      obtain ⟨hnext, -⟩ := isChain_cons.mp hco
      exact absurd ⟨hfree t (by simp), hfree u (by simp)⟩ (hnext u rfl)

/-- After every run of calls the chunks tile the arena and know their predecessors, the free ones
are on the list for their size and never next to each other, the count is right, and what is handed
out are the aligned payloads of the others, which the next call leaves alone. -/
theorem code_arena_integrity (mem : Nat → Nat) (size : Nat) (hleast : least ≤ size)
    (hsize : size < 2 ^ 32) (ops : List Op)
    (hok : Allowed World.Ok World.step ⟨init mem size, []⟩ ops) :
    let w := run World.step ⟨init mem size, []⟩ ops
    w.arena.size = size / align * align ∧ ∃ tiles, Tiled 0 w.arena.size tiles ∧
      (∀ t ∈ tiles, w.arena.chunkSize t.start = t.length) ∧
      (∀ t ∈ tiles, t.start = 0 → w.arena.prevSize t.start = 0) ∧
      (∀ t ∈ tiles, ∀ u ∈ tiles, t.stop = u.start → w.arena.prevSize u.start = t.length) ∧
      (∀ t ∈ tiles, t.free = true ↔ w.arena.free t.start ≠ 0) ∧
      FreeLists w.arena.bins w.arena.nextFree w.arena.prevFree none arenaBin tiles ∧
      Coalesced tiles ∧ w.arena.live = usedLength tiles ∧ w.held.Nodup ∧
      (∀ p, p ∈ w.held ↔ ∃ t ∈ tiles, t.free = false ∧ p = t.start + header) ∧
      (∀ p ∈ w.held, p % align = 0) ∧
      (w.held = [] → tiles = [⟨0, w.arena.size, true⟩]) ∧
      (∀ size, w.Untouched (.alloc size)) ∧ ∀ p ∈ w.held, w.Untouched (.free p) := by
  obtain ⟨hinit, hwhole⟩ := Sound.init mem hleast hsize
  have hstart : ∃ tiles, World.Inv ⟨init mem size, []⟩ tiles := by
    refine ⟨_, hinit, nodup_nil, fun p => ⟨nofun, ?_⟩⟩
    rintro ⟨t, ht, hused, -⟩
    rw [mem_singleton.mp ht] at hused
    cases hused
  obtain ⟨⟨tiles, h⟩, hsame⟩ := run_allowed
    (P := fun w : World => (∃ tiles, w.Inv tiles) ∧ w.arena.size = size / align * align)
    (fun w op hok ⟨⟨_, h⟩, hs⟩ => (h.step op hok).imp_right (·.trans hs)) ⟨hstart, hwhole⟩ ops hok
  have hshape := h.sound.shape
  refine ⟨hsame, tiles, hshape.tiled, hshape.size, hshape.first,
    fun t ht u hu hadj => hshape.prev t ht u hu hadj (hshape.start_ne_none hu), fun t ht => ?_,
    hshape.lists, h.sound.coalesced, h.sound.live, h.nodup, h.held, fun p hp => ?_, fun hnil => ?_,
    fun n => (h.step_alloc n).2.2, fun p hp => (h.step_free hp).2.2⟩
  · rw [hshape.flag t ht]
    cases t.free <;> simp
  · obtain ⟨t, ht, -, rfl⟩ := (h.held p).mp hp
    have := (hshape.whole t ht).1
    unfold header align at *
    omega
  · have hfree : ∀ t ∈ tiles, t.free = true := by
      intro t ht
      by_contra hne
      have hp := (h.held (t.start + header)).mpr ⟨t, ht, by simpa using hne, rfl⟩
      rw [hnil] at hp
      cases hp
    have htiled := hshape.tiled
    rcases coalesced_free h.sound.coalesced hfree with rfl | ⟨t, rfl⟩
    · have hzero : 0 = size / align * align := htiled.trans hsame
      unfold least header align at *
      omega
    · obtain ⟨hs, -, hstop⟩ := htiled
      have hf := hfree t (by simp)
      unfold Tile.stop at hstop
      rw [hs, Nat.zero_add] at hstop
      obtain ⟨start, length, free⟩ := t
      dsimp only at hs hstop hf
      rw [hs, hstop, hf]

/-- Two blocks, a word written to the second, and the first freed. -/
def someCalls : List Op := [.alloc 100, .alloc 40, .write 148 7, .free 16]

theorem code_arena_some_calls :
    Allowed World.Ok World.step ⟨init (fun _ => 0) 1000, []⟩ someCalls ∧
      (run World.step ⟨init (fun _ => 0) 1000, []⟩ someCalls).held = [144] ∧
      (run World.step ⟨init (fun _ => 0) 1000, []⟩ someCalls).held.Nodup := by
  have hok : Allowed World.Ok World.step ⟨init (fun _ => 0) 1000, []⟩ someCalls := by
    decide +kernel
  obtain ⟨-, tiles, -, -, -, -, -, -, -, -, hnodup, -⟩ :=
    code_arena_integrity (fun _ => 0) 1000 (by decide) (by decide) someCalls hok
  exact ⟨hok, by decide +kernel, hnodup⟩

theorem init_below_least (mem : Nat → Nat) :
    (init mem 16).size = 16 ∧ ¬∃ tiles, Sound (init mem 16) tiles := by
  have hsize : (init mem 16).size = 16 := by
    unfold init
    exact congrArg Arena.size (if_pos (show 16 / align * align % 2 ^ 32 < least by decide))
  refine ⟨hsize, ?_⟩
  rintro ⟨tiles, h⟩
  have htiled := h.shape.tiled
  cases tiles with
  | nil => cases htiled
  | cons t ts =>
    have h1 := (h.shape.whole t (by simp)).2.2
    have h2 := (htiled.inside (mem_cons_self)).2.2
    unfold least header align Tile.stop at *
    omega

theorem small_arena_not_tiled :
    (init (fun _ => 0) 16).size = 16 ∧ ¬∃ tiles, Sound (init (fun _ => 0) 16) tiles :=
  init_below_least fun _ => 0

end Autorun.Heap.CodeArena
