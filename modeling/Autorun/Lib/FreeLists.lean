import Autorun.Lib.Links
import Autorun.Lib.Tiles

namespace Autorun.Lib

/-- The free tiles are on linked lists, each on the one for its length. -/
def FreeLists (heads next prev : Nat → Nat) (none : Nat) (bin : Nat → Nat) (ts : List Tile) : Prop :=
  ∃ lists, Binned heads next prev none lists ∧
    ∀ b n, n ∈ lists b ↔ ∃ t ∈ ts, t.start = n ∧ t.free = true ∧ bin t.length = b

/-- A tile that is no longer free. -/
def Tile.use (t : Tile) : Tile := { t with free := false }

/-- A tile that is free. -/
def Tile.release (t : Tile) : Tile := { t with free := true }

variable (t : Tile)

@[simp] theorem Tile.use_start : t.use.start = t.start := rfl

@[simp] theorem Tile.use_length : t.use.length = t.length := rfl

@[simp] theorem Tile.use_stop : t.use.stop = t.stop := rfl

@[simp] theorem Tile.use_free : t.use.free = false := rfl

@[simp] theorem Tile.release_start : t.release.start = t.start := rfl

@[simp] theorem Tile.release_length : t.release.length = t.length := rfl

@[simp] theorem Tile.release_stop : t.release.stop = t.stop := rfl

@[simp] theorem Tile.release_free : t.release.free = true := rfl

variable {t}

theorem mem_middle {x c : α} {pre post : List α} : x ∈ pre ++ c :: post ↔ x = c ∨ x ∈ pre ++ post := by
  simp only [List.mem_append, List.mem_cons]
  exact or_left_comm

/-- One of the tiles is none of those with the other flag. -/
theorem mem_others {t c : Tile} {pre post : List Tile} (ht : t ∈ pre ++ c :: post) (hne : t.free ≠ c.free) :
    t ∈ pre ++ post := (mem_middle.mp ht).resolve_left fun he => hne (he ▸ rfl)

theorem Tiled.start_ne {t u : Tile} {ts : List Tile} (h : Tiled s e ts) (ht : t ∈ ts) (hu : u ∈ ts)
    (hne : t.free ≠ u.free) : t.start ≠ u.start := fun he => hne (h.eq_of_start ht hu he ▸ rfl)

/-- The tiles in use with a property, once one more is in use. -/
theorem exists_used {c : Tile} {ts ts' : List Tile} {p : Tile → Prop} (hused : c.free = false)
    (hmem : ∀ t, t.free = false → (t ∈ ts' ↔ t = c ∨ t ∈ ts)) :
    (∃ t ∈ ts', t.free = false ∧ p t) ↔ p c ∨ ∃ t ∈ ts, t.free = false ∧ p t := by
  constructor
  · rintro ⟨t, ht, htused, hp⟩
    rcases (hmem t htused).mp ht with rfl | ht
    · exact .inl hp
    · exact .inr ⟨t, ht, htused, hp⟩
  · rintro (hp | ⟨t, ht, htused, hp⟩)
    · exact ⟨c, (hmem c hused).mpr (.inl rfl), hused, hp⟩
    · exact ⟨t, (hmem t htused).mpr (.inr ht), htused, hp⟩

namespace FreeLists

variable {heads next prev heads' next' prev' bin : Nat → Nat} {none : Nat} {c t : Tile}
  {ts ts' pre post : List Tile}

/-- Only which tiles are free makes the lists. -/
theorem congr (h : FreeLists heads next prev none bin ts)
    (hts : ∀ t, t.free = true → (t ∈ ts' ↔ t ∈ ts)) (hheads : ∀ b, heads' b = heads b)
    (hnext : ∀ t ∈ ts, t.free = true → next' t.start = next t.start)
    (hprev : ∀ t ∈ ts, t.free = true → prev' t.start = prev t.start) :
    FreeLists heads' next' prev' none bin ts' := by
  obtain ⟨lists, hbinned, hmem⟩ := h
  have hlinks : ∀ b, ∀ n ∈ lists b, next' n = next n ∧ prev' n = prev n := by
    intro b n hn
    obtain ⟨t, ht, rfl, hfree, -⟩ := (hmem b n).mp hn
    exact ⟨hnext t ht hfree, hprev t ht hfree⟩
  refine ⟨lists, ⟨fun b => ?_, hbinned.nodup, hbinned.apart⟩, fun b n => ?_⟩
  · rw [hheads b]
    exact (hbinned.linked b).congr (fun n hn => (hlinks b n hn).1) fun n hn => (hlinks b n hn).2
  · rw [hmem b n]
    constructor
    · rintro ⟨t, ht, hstart, hfree, hbin⟩
      exact ⟨t, (hts t hfree).mpr ht, hstart, hfree, hbin⟩
    · rintro ⟨t, ht, hstart, hfree, hbin⟩
      exact ⟨t, (hts t hfree).mp ht, hstart, hfree, hbin⟩

theorem head_cases (h : FreeLists heads next prev none bin ts) (b : Nat) :
    heads b = none ∨ ∃ t ∈ ts, t.start = heads b ∧ t.free = true ∧ bin t.length = b := by
  obtain ⟨lists, hbinned, hmem⟩ := h
  exact (hbinned.head_cases b).imp_right (hmem b _).mp

/-- Another node of the lists is the start of another free tile. -/
theorem other {lists : Nat → List Nat}
    (hmem : ∀ b n, n ∈ lists b ↔ ∃ t ∈ pre ++ c :: post, t.start = n ∧ t.free = true ∧ bin t.length = b)
    (hn : n ∈ lists b) (hne : n ≠ c.start) :
    ∃ t ∈ pre ++ post, t.start = n ∧ t.free = true ∧ bin t.length = b := by
  obtain ⟨t, ht, rfl, hrest⟩ := (hmem _ _).mp hn
  rcases mem_middle.mp ht with rfl | ht
  · exact absurd rfl hne
  · exact ⟨t, ht, rfl, hrest⟩

/-- A free tile's links lead to other free tiles. -/
theorem link_cases (h : FreeLists heads next prev none bin (pre ++ c :: post))
    (hfree : c.free = true) :
    (next c.start = none ∨ ∃ t ∈ pre ++ post, t.start = next c.start ∧ t.free = true ∧ bin t.length = bin c.length) ∧
      (prev c.start = none ∨ ∃ t ∈ pre ++ post, t.start = prev c.start ∧ t.free = true ∧ bin t.length = bin c.length) := by
  obtain ⟨lists, hbinned, hmem⟩ := h
  obtain ⟨hnext, hprev⟩ := hbinned.link_cases
    ((hmem (bin c.length) c.start).mpr ⟨c, mem_middle.mpr (.inl rfl), rfl, hfree, rfl⟩)
  exact ⟨hnext.imp_right fun ⟨hn, hne⟩ => other hmem hn hne, hprev.imp_right fun ⟨hn, hne⟩ => other hmem hn hne⟩

/-- A free tile is taken off its list. -/
theorem take (h : FreeLists heads next prev none bin (pre ++ c :: post)) (hfree : c.free = true)
    (hstart : ∀ t ∈ pre ++ post, t.start ≠ c.start)
    (hheads : ∀ b, heads' b =
      if b = bin c.length ∧ prev c.start = none then next c.start else heads b)
    (hnext : ∀ t ∈ pre ++ post, t.free = true →
      next' t.start = if prev c.start = t.start then next c.start else next t.start)
    (hprev : ∀ t ∈ pre ++ post, t.free = true →
      prev' t.start = if next c.start = t.start then prev c.start else prev t.start) :
    FreeLists heads' next' prev' none bin (pre ++ c.use :: post) := by
  obtain ⟨lists, hbinned, hmem⟩ := h
  have hc : c.start ∈ lists (bin c.length) :=
    (hmem _ _).mpr ⟨c, mem_middle.mpr (.inl rfl), rfl, hfree, rfl⟩
  refine ⟨_, hbinned.remove hc hheads (fun b n hn hne => ?_) (fun b n hn hne => ?_), fun b n => ?_⟩
  · obtain ⟨t, ht, rfl, hfree', -⟩ := other hmem hn hne
    exact hnext t ht hfree'
  · obtain ⟨t, ht, rfl, hfree', -⟩ := other hmem hn hne
    exact hprev t ht hfree'
  · have herase : n ∈ Function.update lists (bin c.length) ((lists (bin c.length)).erase c.start) b ↔
        n ∈ lists b ∧ n ≠ c.start := by
      by_cases hb : b = bin c.length
      · subst hb
        rw [Function.update_self, (hbinned.nodup _).mem_erase_iff]
        exact And.comm
      · rw [Function.update_of_ne hb]
        exact ⟨fun hn => ⟨hn, fun he => hb (hbinned.apart _ _ _ (he ▸ hn) hc)⟩, And.left⟩
    rw [herase]
    constructor
    · rintro ⟨hn, hne⟩
      obtain ⟨t, ht, hrest⟩ := other hmem hn hne
      exact ⟨t, mem_middle.mpr (.inr ht), hrest⟩
    · rintro ⟨t, ht, rfl, hfree', hbin⟩
      rcases mem_middle.mp ht with rfl | ht
      · cases hfree'
      · exact ⟨(hmem _ _).mpr ⟨t, mem_middle.mpr (.inr ht), rfl, hfree', hbin⟩, hstart t ht⟩

/-- A tile becomes free and the first on its list. -/
theorem add (h : FreeLists heads next prev none bin (pre ++ c :: post)) (hfree : c.free = false)
    (hnone : c.start ≠ none) (hstart : ∀ t ∈ pre ++ post, t.start ≠ c.start)
    (hheads : ∀ b, heads' b = if b = bin c.length then c.start else heads b)
    (hself : next' c.start = heads (bin c.length)) (hback : prev' c.start = none)
    (hnext : ∀ t ∈ pre ++ post, t.free = true → next' t.start = next t.start)
    (hprev : ∀ t ∈ pre ++ post, t.free = true →
      prev' t.start = if heads (bin c.length) = t.start then c.start else prev t.start) :
    FreeLists heads' next' prev' none bin (pre ++ c.release :: post) := by
  obtain ⟨lists, hbinned, hmem⟩ := h
  have hother : ∀ b, ∀ n ∈ lists b,
      ∃ t ∈ pre ++ post, t.start = n ∧ t.free = true ∧ bin t.length = b := by
    intro b n hn
    obtain ⟨t, ht, rfl, hfree', hbin⟩ := (hmem _ _).mp hn
    exact ⟨t, mem_others ht (by simp [hfree, hfree']), rfl, hfree', hbin⟩
  have hout : ∀ b, c.start ∉ lists b := by
    intro b hn
    obtain ⟨t, ht, he, -⟩ := hother b _ hn
    exact hstart t ht he
  refine ⟨_, hbinned.push hnone hout hheads hself hback (fun b n hn => ?_) (fun b n hn => ?_),
    fun b n => ?_⟩
  · obtain ⟨t, ht, rfl, hfree', -⟩ := hother b n hn
    exact hnext t ht hfree'
  · obtain ⟨t, ht, rfl, hfree', -⟩ := hother b n hn
    exact hprev t ht hfree'
  · have hpush : n ∈ Function.update lists (bin c.length) (c.start :: lists (bin c.length)) b ↔
        n = c.start ∧ b = bin c.length ∨ n ∈ lists b := by
      by_cases hb : b = bin c.length
      · subst hb
        simp
      · simp [hb]
    rw [hpush]
    constructor
    · rintro (⟨rfl, rfl⟩ | hn)
      · exact ⟨c.release, mem_middle.mpr (.inl rfl), rfl, rfl, rfl⟩
      · obtain ⟨t, ht, hrest⟩ := hother b n hn
        exact ⟨t, mem_middle.mpr (.inr ht), hrest⟩
    · rintro ⟨t, ht, rfl, hfree', hbin⟩
      rcases mem_middle.mp ht with rfl | ht
      · exact .inl ⟨rfl, hbin.symm⟩
      · exact .inr ((hmem _ _).mpr ⟨t, mem_middle.mpr (.inr ht), rfl, hfree', hbin⟩)

end FreeLists

end Autorun.Lib
