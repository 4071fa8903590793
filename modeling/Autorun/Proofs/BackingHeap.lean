import Mathlib.Data.List.Perm.Subperm
import Autorun.Lib.FreeLists
import Autorun.Lib.Run
import Autorun.Heap.BackingHeap

namespace Autorun.Heap.Backing

open Autorun.Lib Function List

variable {h h' : BackingHeap} {c d t u : Tile} {pre post tiles : List Tile} {loose : Nat → Prop}

def tagOf (t : Tile) : Nat := if t.free then t.length else usedTag t.length

/-- The blocks of the heap and the bins of the free ones. The tags of the used blocks at `loose` are
not written yet. -/
structure Shape (h : BackingHeap) (tiles : List Tile) (loose : Nat → Prop) : Prop where
  bound : h.count < 2 ^ 18
  tiled : Tiled h.bottom h.count tiles
  tags : ∀ t ∈ tiles, t.free = true ∨ ¬loose t.start →
    h.length t.start = tagOf t ∧ h.length (t.stop - 1) = tagOf t
  lists : FreeLists h.bins h.next h.previous none bin tiles
  holes : h.holes = tiles.countP (·.free)

theorem Shape.inside (hs : Shape h tiles loose) (ht : t ∈ tiles) :
    h.bottom ≤ t.start ∧ 0 < t.length ∧ t.start + t.length ≤ h.count ∧ h.count < 2 ^ 18 := by
  obtain ⟨h1, h2, h3⟩ := hs.tiled.inside ht
  exact ⟨h1, h2, h3, hs.bound⟩

theorem Shape.start_ne_none (hs : Shape h tiles loose) (ht : t ∈ tiles) : t.start ≠ none := by
  have := hs.inside ht
  unfold none
  omega

theorem Shape.others (hs : Shape h (pre ++ c :: post) loose) :
    ∀ t ∈ pre ++ post, 0 < t.length ∧ (t.start + t.length ≤ c.start ∨ c.start + c.length ≤ t.start) :=
  fun _ ht => ⟨(hs.inside (mem_middle.mpr (.inr ht))).2.1, hs.tiled.others ht⟩

theorem isUsed_tagOf (hlen : t.length < 2 ^ 31) : isUsed (tagOf t) = !t.free := by
  unfold isUsed tagOf usedTag
  cases t.free
  · simp only [Bool.false_eq_true, if_false, Bool.not_false, decide_eq_true_eq]
    omega
  · simp only [if_true, Bool.not_true, decide_eq_false_iff_not]
    omega

theorem bare_tagOf (hlen : t.length < 2 ^ 31) : bare (tagOf t) = t.length := by
  unfold bare tagOf usedTag
  split <;> omega

theorem countP_middle (pre post : List Tile) (c : Tile) :
    (pre ++ c :: post).countP (·.free) =
      (pre ++ post).countP (·.free) + if c.free then 1 else 0 := by
  rw [countP_append, countP_append, countP_cons]
  omega

/-- `backing_remove`. -/
theorem remove_eq (h : BackingHeap) (o : Nat) :
    (remove h o).length = h.length ∧
    (∀ x, (remove h o).next x =
      if h.previous o ≠ none ∧ x = h.previous o then h.next o else h.next x) ∧
    (∀ x, (remove h o).previous x =
      if h.next o ≠ none ∧ x = h.next o then h.previous o else h.previous x) ∧
    (∀ b, (remove h o).bins b =
      if b = bin (h.length o) ∧ h.previous o = none then h.next o else h.bins b) ∧
    (remove h o).holes = h.holes - 1 ∧ (remove h o).count = h.count ∧ (remove h o).bottom = h.bottom := by
  unfold remove
  by_cases hp : h.previous o = none
  · by_cases hn : h.next o = none
    · simp [hp, hn, update_apply]
    · simp [hp, hn, update_apply]
  · by_cases hn : h.next o = none
    · simp [hp, hn, update_apply]
    · simp [hp, hn, update_apply]

theorem tag_length (h : BackingHeap) (o len x : Nat) (used : Bool) :
    (tag h o len used).length x =
      if x = o ∨ x = o + len - 1 then (if used then usedTag len else len) else h.length x := by
  unfold tag
  simp only [update_apply]
  by_cases h1 : x = o
  · simp [h1]
  · simp [h1]

theorem insert_eq (h : BackingHeap) (o len : Nat) :
    (∀ x, (insert h o len).length x = if x = o ∨ x = o + len - 1 then len else h.length x) ∧
    (∀ x, (insert h o len).next x = if x = o then h.bins (bin len) else h.next x) ∧
    (∀ x, (insert h o len).previous x =
      if h.bins (bin len) ≠ none ∧ x = h.bins (bin len) then o
      else if x = o then none else h.previous x) ∧
    (∀ b, (insert h o len).bins b = if b = bin len then o else h.bins b) ∧
    (insert h o len).holes = h.holes + 1 ∧ (insert h o len).base = h.base ∧
    (insert h o len).count = h.count ∧ (insert h o len).bottom = h.bottom ∧
    (insert h o len).used = h.used := by
  have hlen := fun x => tag_length h o len x false
  unfold insert
  have hself : update (tag h o len false).next o ((tag h o len false).bins (bin len)) o =
      h.bins (bin len) := update_self _ _ _
  by_cases hn : h.bins (bin len) = none
  · simp only [hself]
    simp only [hlen, update_apply, hn, ne_eq, not_true_eq_false, if_false]
    simp [tag, hn]
  · simp only [hself]
    rw [if_pos hn]
    simp only [hlen, hn, update_apply, ne_eq]
    simp [tag]

theorem Shape.free_length (hs : Shape h tiles loose) (ht : t ∈ tiles) (hfree : t.free = true) :
    h.length t.start = t.length ∧ h.length (t.stop - 1) = t.length := by
  have htags := hs.tags t ht (.inl hfree)
  simpa [tagOf, hfree] using htags

theorem Shape.remove (hs : Shape h (pre ++ c :: post) loose) (hfree : c.free = true) :
    Shape (remove h c.start) (pre ++ c.use :: post) fun s => loose s ∨ s = c.start := by
  have hc : c ∈ pre ++ c :: post := mem_middle.mpr (.inl rfl)
  obtain ⟨hlen, hnext, hprev, hbins, hholes, hcount, hbottom⟩ := remove_eq h c.start
  have hstart : ∀ t ∈ pre ++ post, t.start ≠ c.start := fun t ht => by
    have := hs.others t ht
    have := (hs.inside hc).2.1
    omega
  have hnone : ∀ t ∈ pre ++ post, t.start ≠ none :=
    fun t ht => hs.start_ne_none (mem_middle.mpr (.inr ht))
  refine ⟨hcount ▸ hs.bound, ?_, fun t ht htag => ?_, ?_, ?_⟩
  · rw [hcount, hbottom]
    have hparts := Tiled.middle_iff.mp hs.tiled
    exact Tiled.middle_iff.mpr hparts
  · rw [hlen]
    rcases mem_middle.mp ht with rfl | ht
    · exact absurd (.inr rfl) (htag.resolve_left nofun)
    · exact hs.tags t (mem_middle.mpr (.inr ht)) (htag.imp_right fun hfirm hl => hfirm (.inl hl))
  · refine hs.lists.take hfree hstart (fun b => ?_) (fun t ht _ => ?_) fun t ht _ => ?_
    · rw [hbins, (hs.free_length hc hfree).1]
    · grind
    · grind
  · rw [hholes, hs.holes, countP_middle, countP_middle, hfree]
    simp

theorem Shape.insert (hs : Shape h (pre ++ c :: post) loose) (hfree : c.free = false) :
    Shape (insert h c.start c.length) (pre ++ c.release :: post) fun s => loose s ∧ s ≠ c.start := by
  have hc : c ∈ pre ++ c :: post := mem_middle.mpr (.inl rfl)
  obtain ⟨hlen, hnext, hprev, hbins, hholes, -, hcount, hbottom, -⟩ := insert_eq h c.start c.length
  have hpos := (hs.inside hc).2.1
  have hstart : ∀ t ∈ pre ++ post, t.start ≠ c.start := fun t ht => by
    have := hs.others t ht
    omega
  have hhead : h.bins (bin c.length) = none ∨
      ∃ t ∈ pre ++ post, t.start = h.bins (bin c.length) := by
    refine (hs.lists.head_cases _).imp_right fun ⟨t, ht, he, htfree, _⟩ => ?_
    exact ⟨t, mem_others ht (by simp [hfree, htfree]), he⟩
  refine ⟨hcount ▸ hs.bound, ?_, fun t ht htag => ?_, ?_, ?_⟩
  · rw [hcount, hbottom]
    have hparts := Tiled.middle_iff.mp hs.tiled
    exact Tiled.middle_iff.mpr hparts
  · rcases mem_middle.mp ht with rfl | ht
    · rw [hlen, hlen, if_pos (.inl rfl), if_pos (.inr rfl)]
      exact ⟨rfl, rfl⟩
    · have hout := hs.others t ht
      rw [hlen, hlen, if_neg (by omega), if_neg (by unfold Tile.stop; omega)]
      exact hs.tags t (mem_middle.mpr (.inr ht)) (htag.imp_right fun hfirm hl => hfirm ⟨hl, hstart t ht⟩)
  · refine hs.lists.add hfree (hs.start_ne_none hc) hstart hbins ?_ ?_ (fun t ht _ => ?_)
      fun t ht _ => ?_
    · rw [hnext, if_pos rfl]
    · rw [hprev, if_neg, if_pos rfl]
      rintro ⟨hne, he⟩
      obtain hn | ⟨t, ht, hthead⟩ := hhead
      · exact hne hn
      · exact hstart t ht (hthead.trans he.symm)
    · rw [hnext, if_neg (hstart t ht)]
    · have := hs.start_ne_none (mem_middle.mpr (.inr ht))
      grind
  · rw [hholes, hs.holes, countP_middle, countP_middle, hfree]
    simp

theorem Shape.tag (hs : Shape h (pre ++ c :: post) loose) (hfree : c.free = false) :
    Shape (tag h c.start c.length true) (pre ++ c :: post) fun s => loose s ∧ s ≠ c.start := by
  have hc : c ∈ pre ++ c :: post := mem_middle.mpr (.inl rfl)
  have hpos := (hs.inside hc).2.1
  refine { hs with tags := fun t ht htag => ?_ }
  simp only [tag_length, if_true]
  rcases mem_middle.mp ht with rfl | ht
  · rw [if_pos (.inl rfl), if_pos (.inr rfl)]
    simp [tagOf, hfree]
  · have hout := hs.others t ht
    rw [if_neg (by omega), if_neg (by unfold Tile.stop; omega)]
    exact hs.tags t (mem_middle.mpr (.inr ht)) (htag.imp_right fun hfirm hl => hfirm ⟨hl, by omega⟩)

theorem countP_used (h : ∀ t ∈ tiles, t.free = false) : tiles.countP (·.free) = 0 :=
  countP_eq_zero.mpr fun t ht => by simp [h t ht]

/-- Blocks in use are cut up or joined; what comes of them is not tagged yet. -/
theorem Shape.retile (old new : List Tile) (hs : Shape h (pre ++ (old ++ post)) loose)
    (hold : ∀ t ∈ old, t.free = false) (hnew : ∀ t ∈ new, t.free = false)
    (htiled : ∀ s e, Tiled s e old → Tiled s e new) :
    Shape h (pre ++ (new ++ post)) fun s => loose s ∨ ∃ t ∈ new, s = t.start := by
  have hmem : ∀ t, t ∈ pre ++ (new ++ post) → t ∈ new ∨ t ∈ pre ++ (old ++ post) := by
    intro t ht
    simp only [mem_append] at ht ⊢
    tauto
  have htiles : Tiled h.bottom h.count (pre ++ (new ++ post)) := by
    obtain ⟨m, hpre, hrest⟩ := Tiled.append_iff.mp hs.tiled
    obtain ⟨n, hmid, hpost⟩ := Tiled.append_iff.mp hrest
    exact Tiled.append_iff.mpr ⟨m, hpre, Tiled.append_iff.mpr ⟨n, htiled m n hmid, hpost⟩⟩
  refine ⟨hs.bound, htiles, fun t ht htag => ?_, ?_, ?_⟩
  · rcases hmem t ht with hn | ho
    · exact absurd (.inr ⟨t, hn, rfl⟩) (htag.resolve_left (by simp [hnew t hn]))
    · exact hs.tags t ho (htag.imp_right fun hfirm hl => hfirm (.inl hl))
  · refine hs.lists.congr (fun t htfree => ?_) (fun _ => rfl) (fun _ _ _ => rfl) fun _ _ _ => rfl
    have hn : t ∉ new := fun ht => by simp [hnew t ht] at htfree
    have ho : t ∉ old := fun ht => by simp [hold t ht] at htfree
    simp [hn, ho]
  · rw [hs.holes]
    simp [countP_used hold, countP_used hnew]

/-- The frontier moves up over a block in use at the bottom. -/
theorem Shape.raise (hs : Shape h (c :: post) loose) (hfree : c.free = false) :
    Shape { h with bottom := c.stop } post loose :=
  ⟨hs.bound, hs.tiled.2.2, fun t ht => hs.tags t (.tail _ ht),
    hs.lists.congr (fun t htfree => ⟨.tail _, fun ht => @mem_others t c [] post ht (by simp [hfree, htfree])⟩) (fun _ => rfl) (fun _ _ _ => rfl) fun _ _ _ => rfl,
    by rw [hs.holes, countP_cons, hfree]; rfl⟩

/-- The frontier moves down over a new block, which is not tagged yet. -/
theorem Shape.lower (hs : Shape h tiles loose) (hstop : c.stop = h.bottom) (hpos : 0 < c.length)
    (hfree : c.free = false) :
    Shape { h with bottom := c.start } (c :: tiles) fun s => loose s ∨ s = c.start := by
  refine ⟨hs.bound, ⟨rfl, hpos, hstop ▸ hs.tiled⟩, fun t ht htag => ?_,
    hs.lists.congr (fun t htfree => ⟨fun ht => ?_, .tail _⟩) (fun _ => rfl) (fun _ _ _ => rfl)
      fun _ _ _ => rfl, ?_⟩
  · rcases mem_cons.mp ht with rfl | ht
    · exact absurd (.inr rfl) (htag.resolve_left (by simp [hfree]))
    · exact hs.tags t ht (htag.imp_right fun hfirm hl => hfirm (.inl hl))
  · exact @mem_others t c [] tiles ht (by simp [hfree, htfree])
  · rw [countP_cons, hfree]
    exact hs.holes

/-- Of the blocks that may be loose only these are. -/
theorem Shape.mono {loose' : Nat → Prop} (hs : Shape h tiles loose)
    (hmore : ∀ t ∈ tiles, loose t.start → loose' t.start) : Shape h tiles loose' :=
  { hs with tags := fun t ht htag => hs.tags t ht (htag.imp_right fun hfirm hl => hfirm (hmore t ht hl)) }

theorem Shape.settled (hs : Shape h tiles loose) (hnone : ∀ t ∈ tiles, ¬loose t.start) :
    Shape h tiles fun _ => False := hs.mono hnone

/-- A block in use becomes two, neither of which is tagged yet. -/
theorem Shape.split (hs : Shape h (pre ++ c :: post) (· = c.start)) (hfree : c.free = false)
    (hpos : 0 < n) (hlt : n < c.length) :
    Shape h (pre ++ ⟨c.start, n, false⟩ :: ⟨c.start + n, c.length - n, false⟩ :: post)
      fun s => s = c.start ∨ s = c.start + n := by
  have hcut := hs.retile [c] [⟨c.start, n, false⟩, ⟨c.start + n, c.length - n, false⟩]
    (by simpa using hfree) (by simp) fun s e ⟨hstart, _, hend⟩ => by
      have hend : c.start + c.length = e := hend
      refine ⟨hstart, hpos, rfl, Nat.sub_pos_of_lt hlt, ?_⟩
      change c.start + n + (c.length - n) = e
      omega
  simp only [mem_cons, not_mem_nil, or_false, exists_eq_or_imp, exists_eq_left] at hcut
  exact hcut.mono fun _ _ => Or.rec .inl id

/-- What lies before a new block in the place of a hole is a hole again. -/
theorem Shape.cut_front (hs : Shape h (pre ++ c :: post) (· = c.start)) (hfree : c.free = false)
    (hat : c.start ≤ at_) (hlt : at_ < c.stop) :
    ∃ pre', Shape (if at_ > c.start then Backing.insert h c.start (at_ - c.start) else h)
        (pre' ++ ⟨at_, c.stop - at_, false⟩ :: post) (· = at_) ∧
      (at_ = c.start ∧ pre' = pre ∨
        c.start < at_ ∧ pre' = pre ++ [⟨c.start, at_ - c.start, true⟩]) := by
  obtain ⟨n, rfl⟩ := Nat.exists_eq_add_of_le hat
  have hrest : c.stop - (c.start + n) = c.length - n := by
    unfold Tile.stop
    omega
  rw [hrest, Nat.add_sub_cancel_left]
  rcases Nat.eq_zero_or_pos n with rfl | hpos
  · rw [if_neg (by omega), Nat.sub_zero, Nat.add_zero, ← hfree]
    exact ⟨pre, hs, .inl ⟨rfl, rfl⟩⟩
  · rw [if_pos (by omega)]
    refine ⟨_, ?_, .inr ⟨by omega, rfl⟩⟩
    have hinsert := (hs.split hfree hpos (by omega)).insert rfl
    rw [append_cons] at hinsert
    exact hinsert.mono fun _ _ hl => hl.1.resolve_left hl.2

theorem Shape.cut_back (hs : Shape h (pre ++ c :: post) (· = c.start)) (hfree : c.free = false)
    (hstop : c.stop = stop) (hpos : 0 < n) (hle : n ≤ c.length) :
    ∃ post', Shape (if c.start + n < stop then
          Backing.insert h (c.start + n) (stop - c.start - n) else h)
        (pre ++ ⟨c.start, n, false⟩ :: post') (· = c.start) ∧
      (n = c.length ∧ post' = post ∨
        n < c.length ∧ post' = ⟨c.start + n, c.length - n, true⟩ :: post) := by
  subst hstop
  have hrest : c.stop - c.start - n = c.length - n := by
    unfold Tile.stop
    omega
  rw [hrest]
  rcases Nat.eq_or_lt_of_le hle with rfl | hlt
  · rw [if_neg (by omega), ← hfree]
    exact ⟨post, hs, .inl ⟨rfl, rfl⟩⟩
  · rw [if_pos (by omega)]
    refine ⟨_, ?_, .inr ⟨hlt, rfl⟩⟩
    have hsplit := hs.split hfree hpos hlt
    rw [append_cons] at hsplit
    have hinsert := hsplit.insert rfl
    rw [← append_cons] at hinsert
    exact hinsert.mono fun _ _ hl => hl.1.resolve_right hl.2

theorem Shape.join (hs : Shape h (pre ++ c :: d :: post) loose) (hc : c.free = false)
    (hd : d.free = false) (hmore : ∀ s, loose s → s = c.start ∨ s = d.start) :
    Shape h (pre ++ ⟨c.start, c.length + d.length, false⟩ :: post) (· = c.start) := by
  have hjoin := hs.retile [c, d] [⟨c.start, c.length + d.length, false⟩] (by simp [hc, hd]) (by simp)
    fun s e ⟨hstart, hpos, hnext, _, hend⟩ => by
      have hnext : d.start = c.start + c.length := hnext
      have hend : d.start + d.length = e := hend
      refine ⟨hstart, Nat.add_pos_left hpos _, ?_⟩
      change c.start + (c.length + d.length) = e
      omega
  have hd' : ∀ t ∈ pre ++ ⟨c.start, c.length + d.length, false⟩ :: post, t.start ≠ d.start := by
    intro t ht he
    obtain ⟨-, hpos, hnext, hpos', -⟩ := Tiled.middle_iff.mp hs.tiled
    unfold Tile.stop at hnext
    rcases mem_middle.mp ht with rfl | ht
    · have he : c.start = d.start := he
      omega
    · obtain ⟨_, hout⟩ := hjoin.others t ht
      have hout : t.start + t.length ≤ c.start ∨ c.start + (c.length + d.length) ≤ t.start := hout
      omega
  refine hjoin.mono fun t ht hl => ?_
  rcases hl with hl | ⟨u, hu, he⟩
  · exact (hmore _ hl).resolve_right (hd' t ht)
  · simp only [mem_singleton] at hu
    exact he.trans (hu ▸ rfl)

structure Stays (h h' : BackingHeap) : Prop where
  base : h'.base = h.base
  count : h'.count = h.count
  used : h'.used = h.used

theorem Stays.trans {h'' : BackingHeap} (h1 : Stays h h') (h2 : Stays h' h'') : Stays h h'' :=
  ⟨h2.base.trans h1.base, h2.count.trans h1.count, h2.used.trans h1.used⟩

theorem remove_stays (h : BackingHeap) (o : Nat) : Stays h (remove h o) := by
  unfold remove
  dsimp only
  split <;> split <;> exact ⟨rfl, rfl, rfl⟩

theorem insert_stays (h : BackingHeap) (o n : Nat) : Stays h (insert h o n) := by
  obtain ⟨-, -, -, -, -, hbase, hcount, -, hused⟩ := insert_eq h o n
  exact ⟨hbase, hcount, hused⟩

theorem tag_stays (h : BackingHeap) (o n : Nat) (used : Bool) : Stays h (tag h o n used) :=
  ⟨rfl, rfl, rfl⟩

structure Region (h h' : BackingHeap) : Prop where
  base : h'.base = h.base
  count : h'.count = h.count

theorem Stays.region (hs : Stays h h') : Region h h' := ⟨hs.base, hs.count⟩

theorem Region.trans {h'' : BackingHeap} (h1 : Region h h') (h2 : Region h' h'') : Region h h'' :=
  ⟨h2.base.trans h1.base, h2.count.trans h1.count⟩

theorem grant_region (h : BackingHeap) (o n size : Nat) : Region h (grant h o n size) := ⟨rfl, rfl⟩

@[simp] theorem grant_used (h : BackingHeap) (o n size : Nat) :
    (grant h o n size).used = h.used + size := rfl

theorem insert_if_stays (h : BackingHeap) (o n : Nat) (p : Prop) [Decidable p] :
    Stays h (if p then insert h o n else h) := by
  split
  · exact insert_stays h o n
  · exact ⟨rfl, rfl, rfl⟩

theorem carve_stays (h : BackingHeap) (first stop at_ n : Nat) :
    Stays h (carve h first stop at_ n) :=
  ((remove_stays h first).trans (insert_if_stays _ _ _ _)).trans (insert_if_stays _ _ _ _)

structure Sound (h : BackingHeap) (tiles : List Tile) : Prop where
  shape : Shape h tiles fun _ => False
  coalesced : Coalesced tiles
  bottom : ∀ t ∈ tiles.head?, t.free = false
  used : h.used = usedLength tiles * unit

def SameUsed (tiles tiles' : List Tile) : Prop :=
  ∀ t : Tile, t.free = false → (t ∈ tiles' ↔ t ∈ tiles)

theorem Sound.pre_ne_nil (hs : Sound h (pre ++ c :: post)) (hfree : c.free = true) : pre ≠ [] := by
  rintro rfl
  have := hs.bottom c rfl
  rw [hfree] at this
  cases this

/-- A block in use takes the place of a hole, or of a part of it. -/
theorem Sound.hole (hs : Sound h (pre ++ c :: post)) (hfree : c.free = true)
    (hat : c.start ≤ at_) (hpos : 0 < n) (hend : at_ + n ≤ c.stop) :
    ∃ pre' post', Sound (grant (carve h c.start c.stop at_ n) at_ n (n * unit))
        (pre' ++ ⟨at_, n, false⟩ :: post') ∧ SameUsed (pre ++ post) (pre' ++ post') := by
  obtain ⟨hpre, hpost, hends⟩ := coalesced_middle.mp hs.coalesced
  obtain ⟨hlast, hhead⟩ := hends hfree
  obtain ⟨pre', hfront, hpre'⟩ := ((hs.shape.remove hfree).mono (by simp)).cut_front rfl
    hat (show at_ < c.use.stop by rw [Tile.use_stop]; omega)
  have hstop : (⟨at_, c.stop - at_, false⟩ : Tile).stop = c.stop := by
    change at_ + (c.stop - at_) = c.stop
    omega
  obtain ⟨post', hback, hpost'⟩ := hfront.cut_back rfl hstop hpos (show n ≤ c.stop - at_ by omega)
  have htag := (hback.tag rfl).settled fun _ _ hl => hl.2 hl.1
  refine ⟨pre', post', ⟨{ htag with },
    coalesced_middle.mpr ⟨?_, ?_, nofun⟩, fun t ht => ?_, ?_⟩, fun t ht => ?_⟩
  · rcases hpre' with ⟨-, rfl⟩ | ⟨-, rfl⟩
    · exact hpre
    · exact coalesced_middle.mpr ⟨hpre, .nil, fun _ => ⟨hlast, nofun⟩⟩
  · rcases hpost' with ⟨-, rfl⟩ | ⟨-, rfl⟩
    · exact hpost
    · exact coalesced_cons.mpr ⟨hpost, fun _ => hhead⟩
  · have hne := hs.pre_ne_nil hfree
    have hbottom := hs.bottom
    cases pre with
    | nil => exact absurd rfl hne
    | cons u pre => rcases hpre' with ⟨-, rfl⟩ | ⟨-, rfl⟩ <;> exact hbottom t ht
  · rw [grant_used, (carve_stays h c.start c.stop at_ n).used, hs.used, ← Nat.add_mul]
    congr 1
    rcases hpre' with ⟨-, rfl⟩ | ⟨-, rfl⟩ <;> rcases hpost' with ⟨-, rfl⟩ | ⟨-, rfl⟩ <;>
      simp [hfree, usedLength] <;> omega
  · rcases hpre' with ⟨-, rfl⟩ | ⟨-, rfl⟩ <;> rcases hpost' with ⟨-, rfl⟩ | ⟨-, rfl⟩ <;>
      simp only [mem_append]
    all_goals
      constructor <;> rintro (h | h) <;> grind

theorem Sound.frontier (hs : Sound h tiles) (hpos : 0 < n) (hend : at_ + n ≤ h.bottom) :
    ∃ post', Sound (grant (if at_ + n < h.bottom then
          insert { h with bottom := at_ } (at_ + n) (h.bottom - at_ - n)
        else { h with bottom := at_ }) at_ n (n * unit)) (⟨at_, n, false⟩ :: post') ∧
      SameUsed tiles post' := by
  have hstop : (⟨at_, h.bottom - at_, false⟩ : Tile).stop = h.bottom := by
    change at_ + (h.bottom - at_) = h.bottom
    omega
  have hlower : Shape { h with bottom := at_ } ([] ++ ⟨at_, h.bottom - at_, false⟩ :: tiles) _ :=
    hs.shape.lower hstop (show 0 < h.bottom - at_ by omega) rfl
  obtain ⟨post', hback, hpost'⟩ := (hlower.mono (by simp)).cut_back rfl hstop hpos
    (show n ≤ h.bottom - at_ by omega)
  have htag := (hback.tag rfl).settled fun _ _ hl => hl.2 hl.1
  refine ⟨post', ⟨{ htag with },
    coalesced_cons.mpr ⟨?_, nofun⟩, by simp, ?_⟩, fun t ht => ?_⟩
  · rcases hpost' with ⟨-, rfl⟩ | ⟨-, rfl⟩
    · exact hs.coalesced
    · exact coalesced_cons.mpr ⟨hs.coalesced, fun _ => hs.bottom⟩
  · have hused := (insert_if_stays { h with bottom := at_ } (at_ + n) (h.bottom - at_ - n)
      (at_ + n < h.bottom)).used
    rw [grant_used, hused, hs.used, ← Nat.add_mul]
    rcases hpost' with ⟨-, rfl⟩ | ⟨-, rfl⟩ <;> simp [usedLength, Nat.add_comm]
  · rcases hpost' with ⟨-, rfl⟩ | ⟨-, rfl⟩
    · exact Iff.rfl
    · refine ⟨fun hm => (mem_cons.mp hm).resolve_left ?_, .tail _⟩
      rintro rfl
      cases ht

theorem Shape.isUsed_start (hs : Shape h tiles loose) (ht : t ∈ tiles) (hfirm : ¬loose t.start) :
    isUsed (h.length t.start) = !t.free ∧ isUsed (h.length (t.stop - 1)) = !t.free := by
  have := hs.inside ht
  obtain ⟨hfirst, hlast⟩ := hs.tags t ht (.inr hfirm)
  rw [hfirst, hlast, isUsed_tagOf (by omega)]
  exact ⟨rfl, rfl⟩

theorem Shape.merge_before (hs : Shape h (pre ++ c :: post) fun _ => False) (hfree : c.free = false) :
    ∃ pre' d h', mergeBefore h c.start c.length = (d.start, d.length, h') ∧
      Shape h' (pre' ++ d :: post) (· = d.start) ∧ d.free = false ∧ Stays h h' ∧
      (pre' = pre ∧ (∀ u ∈ pre.getLast?, u.free = false) ∨
        ∃ u, u.free = true ∧ pre = pre' ++ [u]) := by
  unfold mergeBefore
  split
  case isTrue hmerge =>
    obtain ⟨hbottom, hhole⟩ := hmerge
    obtain ⟨u, pre', rfl, hstop⟩ := hs.tiled.before hbottom
    have hu : u ∈ pre' ++ [u] ++ c :: post := by simp
    have hufree : u.free = true := by
      rw [← hstop, (hs.isUsed_start hu id).2] at hhole
      simpa using hhole
    have hlen : h.length (c.start - 1) = u.length := hstop ▸ (hs.free_length hu hufree).2
    have hstart : c.start - u.length = u.start := by
      unfold Tile.stop at hstop
      omega
    rw [append_assoc] at hs
    refine ⟨pre', ⟨u.start, u.length + c.length, false⟩, Backing.remove h u.start, ?_,
      (hs.remove hufree).join rfl hfree fun s hl => .inl (hl.resolve_left id), rfl,
      remove_stays h u.start, .inr ⟨u, hufree, rfl⟩⟩
    simp [hlen, hstart, Nat.add_comm]
  case isFalse hmerge =>
    refine ⟨pre, c, h, rfl, hs.mono nofun, hfree, ⟨rfl, rfl, rfl⟩, .inl ⟨rfl, fun u hu => ?_⟩⟩
    obtain ⟨pre', rfl⟩ := List.getLast?_eq_some_iff.mp hu
    have hu : u ∈ pre' ++ [u] ++ c :: post := by simp
    have hin := hs.inside hu
    rw [append_assoc] at hs
    have hstop : c.start = u.stop := (Tiled.middle_iff.mp hs.tiled).2.2.1
    by_contra hne
    refine hmerge ⟨by rw [hstop]; unfold Tile.stop; omega, ?_⟩
    rw [hstop, (hs.isUsed_start (by simp) id).2]
    simpa using hne

theorem Shape.merge_after (hs : Shape h (pre ++ c :: post) (· = c.start)) (hfree : c.free = false) :
    ∃ post' d h', mergeAfter h c.start c.length = (d.length, h') ∧
      Shape h' (pre ++ d :: post') (· = d.start) ∧ d.free = false ∧ d.start = c.start ∧ Stays h h' ∧
      (post' = post ∧ (∀ u ∈ post.head?, u.free = false) ∨
        ∃ u, u.free = true ∧ post = u :: post') := by
  have hpos := (hs.inside (t := c) (by simp)).2.1
  unfold mergeAfter
  split
  case isTrue hmerge =>
    obtain ⟨hcount, hhole⟩ := hmerge
    obtain ⟨u, post', rfl, hstart⟩ := hs.tiled.after hcount
    have hstart : u.start = c.start + c.length := hstart
    have hu : u ∈ pre ++ c :: u :: post' := by simp
    have hufree : u.free = true := by
      rw [← hstart, (hs.isUsed_start hu (by omega)).1] at hhole
      simpa using hhole
    have hlen : h.length (c.start + c.length) = u.length := hstart ▸ (hs.free_length hu hufree).1
    rw [append_cons] at hs
    have hremove := hs.remove hufree
    rw [← append_cons] at hremove
    refine ⟨post', ⟨c.start, c.length + u.length, false⟩, Backing.remove h u.start, ?_,
      hremove.join hfree rfl fun s hl => hl, rfl, rfl, remove_stays h u.start,
      .inr ⟨u, hufree, rfl⟩⟩
    rw [hlen, hstart]
  case isFalse hmerge =>
    refine ⟨post, c, h, rfl, hs, hfree, rfl, ⟨rfl, rfl, rfl⟩, .inl ⟨rfl, fun u hu => ?_⟩⟩
    obtain ⟨post', rfl⟩ := List.head?_eq_some_iff.mp hu
    have hu : u ∈ pre ++ c :: u :: post' := by simp
    have hin := hs.inside hu
    have hstart : u.start = c.start + c.length := (Tiled.middle_iff.mp hs.tiled).2.2.1
    by_contra hne
    refine hmerge ⟨by omega, ?_⟩
    rw [← hstart, (hs.isUsed_start hu (by omega)).1]
    simpa using hne

theorem Shape.bare_start (hs : Shape h tiles loose) (ht : t ∈ tiles) (hfirm : ¬loose t.start) :
    bare (h.length t.start) = t.length := by
  have := hs.inside ht
  rw [(hs.tags t ht (.inr hfirm)).1, bare_tagOf (by omega)]

/-- A block in use becomes free, a part of the holes around it or of the frontier. -/
theorem Sound.freeAt (hs : Sound h (pre ++ c :: post)) (hfree : c.free = false) :
    ∃ tiles', Sound (freeAt h c.start) tiles' ∧ SameUsed (pre ++ post) tiles' ∧ Region h (freeAt h c.start) := by
  obtain ⟨hpre, hpost, -⟩ := coalesced_middle.mp hs.coalesced
  have hbare := hs.shape.bare_start (t := c) (by simp) id
  have hused : h.used - c.length * unit = usedLength (pre ++ post) * unit := by
    rw [hs.used, ← Nat.sub_mul]
    congr 1
    simp only [used_length_append, used_length_cons, hfree, Bool.false_eq_true, if_false]
    omega
  have hshape : Shape { h with used := h.used - c.length * unit } (pre ++ c :: post)
      fun _ => False :=
    { hs.shape with }
  obtain ⟨pre', d, h1, hbefore, hshape1, hd, hstays1, hpre'⟩ := hshape.merge_before hfree
  obtain ⟨post', e, h2, hafter, hshape2, he, hstart, hstays2, hpost'⟩ := hshape1.merge_after hd
  have hstays := hstays1.trans hstays2
  have hlast : Coalesced pre' ∧ ∀ u ∈ pre'.getLast?, u.free = false := by
    rcases hpre' with ⟨rfl, hlast⟩ | ⟨u, hu, rfl⟩
    · exact ⟨hpre, hlast⟩
    · obtain ⟨hpre', -, hends⟩ := coalesced_middle.mp hpre
      exact ⟨hpre', (hends hu).1⟩
  have hhead : Coalesced post' ∧ ∀ u ∈ post'.head?, u.free = false := by
    rcases hpost' with ⟨rfl, hhead⟩ | ⟨u, hu, rfl⟩
    · exact ⟨hpost, hhead⟩
    · exact (coalesced_cons.mp hpost).imp_right (· hu)
  have hsame : SameUsed (pre ++ post) (pre' ++ post') := by
    intro t ht
    rcases hpre' with ⟨rfl, -⟩ | ⟨u, hu, rfl⟩ <;> rcases hpost' with ⟨rfl, -⟩ | ⟨v, hv, rfl⟩ <;>
      grind
  have hlength : usedLength (pre' ++ post') = usedLength (pre ++ post) := by
    rcases hpre' with ⟨rfl, -⟩ | ⟨u, hu, rfl⟩ <;> rcases hpost' with ⟨rfl, -⟩ | ⟨v, hv, rfl⟩ <;>
      simp [usedLength, *]
  have hused2 : h2.used = usedLength (pre' ++ post') * unit := by
    rw [hlength, ← hused]
    exact hstays.used
  unfold Backing.freeAt
  simp only [hbare, hbefore, hafter]
  rw [← hstart]
  cases pre' with
  | nil =>
    have hbottom : e.start = h2.bottom := hshape2.tiled.1
    rw [if_pos hbottom]
    have hraise := (hshape2.raise he).settled fun t ht hl => by
      have hbelow := (hshape2.tiled.2.2.inside ht).1
      have hpos := hshape2.tiled.2.1
      unfold Tile.stop at hbelow
      omega
    rw [← hbottom]
    exact ⟨post', ⟨hraise, hhead.1, hhead.2, hused2⟩, hsame, hstays.base, hstays.count⟩
  | cons u pre' =>
    have hbottom : e.start ≠ h2.bottom := by
      obtain ⟨⟨hu, hpos, hrest⟩, -, -⟩ := Tiled.middle_iff.mp hshape2.tiled
      have := hrest.le
      unfold Tile.stop at this
      omega
    rw [if_neg hbottom]
    have hinsert := (hshape2.insert he).settled fun _ _ hl => hl.2 hl.1
    have hstays3 := hstays.trans (insert_stays h2 e.start e.length)
    refine ⟨_, ⟨hinsert, coalesced_middle.mpr ⟨hlast.1, hhead.1, fun _ => ⟨hlast.2, hhead.2⟩⟩, ?_, ?_⟩,
      ?_, hstays3.base, hstays3.count⟩
    · have hu : u ∈ (pre ++ c :: post).head? := by
        rcases hpre' with ⟨rfl, -⟩ | ⟨v, -, rfl⟩ <;> rfl
      intro t ht
      cases ht
      exact hs.bottom u hu
    · rw [(insert_stays h2 e.start e.length).used, hused2]
      simp [usedLength]
    · intro t ht
      rw [← hsame t ht, mem_middle]
      refine or_iff_right ?_
      rintro rfl
      cases ht

theorem Shape.mem_others (hs : Shape h (pre ++ c :: post) loose) :
    t ∈ pre ++ post ↔ t ∈ pre ++ c :: post ∧ t ≠ c := by
  rw [mem_middle]
  refine ⟨fun ht => ⟨.inr ht, ?_⟩, fun ⟨ht, hne⟩ => ht.resolve_left hne⟩
  rintro rfl
  have := hs.others t ht
  omega

/-- The units a request of `size` bytes takes. -/
def units (size : Nat) : Nat := (size + unit - 1) / unit

theorem units_bytes (size : Nat) : units size * unit / unit = units size :=
  Nat.mul_div_cancel _ (by decide)

theorem Sound.shrink (hs : Sound h (pre ++ c :: post)) (hfree : c.free = false) (hpos : 0 < n)
    (hlt : n < c.length) :
    ∃ tiles', Sound (Backing.freeAt (tag (tag h c.start n true) (c.start + n) (c.length - n) true)
          (c.start + n)) tiles' ∧
      (∀ t, t.free = false →
        (t ∈ tiles' ↔ t = ⟨c.start, n, false⟩ ∨ t ∈ pre ++ post)) ∧
      Region h (Backing.freeAt (tag (tag h c.start n true) (c.start + n) (c.length - n) true) (c.start + n)) := by
  obtain ⟨hpre, hpost, -⟩ := coalesced_middle.mp hs.coalesced
  have hfirst := ((hs.shape.mono nofun).split hfree hpos hlt).tag rfl
  rw [append_cons] at hfirst
  have hboth := (hfirst.tag rfl).settled fun t _ hl => hl.1.1.elim hl.1.2 hl.2
  have hsplit : Sound (tag (tag h c.start n true) (c.start + n) (c.length - n) true)
      (pre ++ [⟨c.start, n, false⟩] ++ ⟨c.start + n, c.length - n, false⟩ :: post) := by
    refine ⟨hboth, coalesced_middle.mpr ⟨coalesced_middle.mpr ⟨hpre, .nil, nofun⟩, hpost, nofun⟩,
      fun t ht => ?_, hs.used.trans ?_⟩
    · have hbottom := hs.bottom
      cases pre with
      | nil =>
        cases ht
        rfl
      | cons u pre => exact hbottom t ht
    · congr 1
      simp [usedLength, hfree]
      omega
  obtain ⟨tiles', hsound, hsame, hregion⟩ := hsplit.freeAt rfl
  refine ⟨tiles', hsound, fun t ht => ?_, hregion.base, hregion.count⟩
  rw [hsame t ht]
  simp only [mem_append, mem_singleton]
  tauto

/-- A block in use takes a part of the hole behind it, or all of it. -/
theorem Sound.grow (hs : Sound h (pre ++ c :: d :: post)) (hc : c.free = false)
    (hd : d.free = true) (hgt : c.length < n) (hle : n ≤ c.length + d.length) :
    let grown := tag (if n - c.length < d.length then
        insert (remove h d.start) (c.start + n) (c.length + d.length - n)
      else remove h d.start) c.start n true
    Stays h grown ∧
      ∃ tiles', Sound { grown with used := grown.used + (n - c.length) * unit } tiles' ∧
      ∀ t, t.free = false → (t ∈ tiles' ↔ t = ⟨c.start, n, false⟩ ∨ t ∈ pre ++ d :: post) := by
  obtain ⟨hpre, hdpost, -⟩ := coalesced_middle.mp hs.coalesced
  obtain ⟨hpost, hhead⟩ := coalesced_cons.mp hdpost
  have hshape := hs.shape
  rw [append_cons] at hshape
  have hremove := hshape.remove hd
  rw [← append_cons] at hremove
  have hjoin := hremove.join hc rfl fun s hl => .inr (hl.resolve_left id)
  obtain ⟨post', hback, hpost'⟩ := hjoin.cut_back rfl rfl (Nat.zero_lt_of_lt hgt) hle
  have hcond : (c.start + n < (⟨c.start, c.length + d.use.length, false⟩ : Tile).stop) =
      (n - c.length < d.length) := by
    simp only [Tile.stop, Tile.use_length, eq_iff_iff]
    omega
  have hrest : (⟨c.start, c.length + d.use.length, false⟩ : Tile).stop - c.start - n =
      c.length + d.length - n := by
    simp only [Tile.stop, Tile.use_length]
    omega
  simp only [hcond, hrest] at hback
  have htag := (hback.tag rfl).settled fun _ _ hl => hl.2 hl.1
  have hstays := ((remove_stays h d.start).trans (insert_if_stays (remove h d.start) (c.start + n)
    (c.length + d.length - n) (n - c.length < d.length))).trans (tag_stays _ c.start n true)
  refine ⟨hstays, _, ⟨{ htag with },
    coalesced_middle.mpr ⟨hpre, ?_, nofun⟩, fun t ht => ?_, ?_⟩, fun t ht => ?_⟩
  · rcases hpost' with ⟨-, rfl⟩ | ⟨-, rfl⟩
    · exact hpost
    · exact coalesced_cons.mpr ⟨hpost, fun _ => hhead hd⟩
  · have hbottom := hs.bottom
    cases pre with
    | nil =>
      cases ht
      rfl
    | cons u pre => exact hbottom t ht
  · dsimp only
    rw [hstays.used, hs.used, ← Nat.add_mul]
    congr 1
    rcases hpost' with ⟨-, rfl⟩ | ⟨-, rfl⟩ <;> simp [usedLength, hc, hd] <;> omega
  · rcases hpost' with ⟨-, rfl⟩ | ⟨-, rfl⟩ <;> rw [mem_middle] <;> grind

/-- `backing_resize` gives the block the length asked for where it is, or changes nothing and the
block was too short. -/
theorem Sound.resize (hs : Sound h (pre ++ c :: post)) (hfree : c.free = false)
    (hfirst : (p - h.base) / unit = c.start) (size : Nat) :
    Backing.resize h p size = (false, h) ∧ (size = 0 ∨ c.length * unit < size) ∨
      (Backing.resize h p size).1 = true ∧ 0 < units size ∧
        ∃ tiles', Sound (Backing.resize h p size).2 tiles' ∧
          (∀ t, t.free = false →
            (t ∈ tiles' ↔ t = ⟨c.start, units size, false⟩ ∨ t ∈ pre ++ post)) ∧
          Region h (Backing.resize h p size).2 := by
  have hc : c ∈ pre ++ c :: post := mem_middle.mpr (.inl rfl)
  have hin := hs.shape.inside hc
  have hbare := hs.shape.bare_start hc id
  have hunits : (size + unit - 1) / unit * unit / unit = units size := units_bytes size
  unfold Backing.resize
  simp only [hunits, hfirst, hbare]
  split
  case isTrue hbad =>
    refine .inl ⟨rfl, hbad.imp_right fun hbig => ?_⟩
    unfold sizeMax unit at hbig
    unfold unit
    omega
  case isFalse hgood =>
  have hpos : 0 < units size := by
    unfold units unit
    omega
  split
  case isTrue hbig =>
    refine .inl ⟨rfl, .inr ?_⟩
    unfold units unit at hbig
    unfold unit
    omega
  case isFalse hfits =>
  split
  case isTrue heq =>
    refine .inr ⟨rfl, hpos, _, hs, fun t _ => ?_, ⟨rfl, rfl⟩⟩
    rw [mem_middle, heq, ← hfree]
  case isFalse hne =>
  split
  case isTrue hlt =>
    exact .inr ⟨rfl, hpos, hs.shrink hfree hpos hlt⟩
  case isFalse hge =>
  have hshort : c.length * unit < size := by
    have : c.length < units size := by omega
    unfold units unit at this
    unfold unit
    omega
  split
  case isTrue => exact .inl ⟨rfl, .inr hshort⟩
  case isFalse hlast =>
  obtain ⟨d, post', rfl, hstart⟩ :=
    hs.shape.tiled.after (show c.start + c.length < h.count by omega)
  have hstart : d.start = c.start + c.length := hstart
  have hd : d ∈ pre ++ c :: d :: post' := by simp
  have hisused := (hs.shape.isUsed_start hd id).1
  rw [← hstart]
  split
  case isTrue => exact .inl ⟨rfl, .inr hshort⟩
  case isFalse hroom =>
  have hdfree : d.free = true := by
    rw [hisused] at hroom
    simpa using fun hd' => hroom (.inl hd')
  rw [(hs.shape.free_length hd hdfree).1] at hroom ⊢
  obtain ⟨hstays, tiles', hsound, hmem⟩ :=
    hs.grow (n := units size) hfree hdfree (by omega) (by omega)
  exact .inr ⟨rfl, hpos, tiles', hsound, hmem, hstays.base, hstays.count⟩

/-- The hole that `backing_alloc` settles on, if there is one. -/
def Fits (h : BackingHeap) (tiles : List Tile) (n size alignment first : Nat) : Prop :=
  ∃ t ∈ tiles, t.start = first ∧ t.free = true ∧ n ≤ t.length ∧
    h.base + t.start * unit ≤ place h t.stop size alignment

/-- The tag of a hole that fits is its length, and the hole is on a list. -/
theorem Shape.fits (hs : Shape h tiles loose) (hfits : Fits h tiles n size alignment x) :
    n ≤ h.length x ∧ h.base + x * unit ≤ place h (x + h.length x) size alignment ∧ x ≠ none := by
  obtain ⟨t, ht, rfl, hfree, hlong, hplace⟩ := hfits
  rw [(hs.free_length ht hfree).1]
  exact ⟨hlong, hplace, hs.start_ne_none ht⟩

/-- A shortest of the nodes seen that fit, or none. -/
def Least (length : Nat → Nat) (fits : Nat → Prop) (seen : List Nat) (best : Nat) : Prop :=
  best = none ∧ (∀ x ∈ seen, ¬fits x) ∨
    best ∈ seen ∧ fits best ∧ ∀ x ∈ seen, fits x → length best ≤ length x

namespace Least

variable {length : Nat → Nat} {fits : Nat → Prop} {seen : List Nat} {best x : Nat}

theorem skip (hbest : Least length fits seen best) (hx : ¬fits x) : Least length fits (seen ++ [x]) best := by
  have hold : ∀ y ∈ seen ++ [x], fits y → y ∈ seen := by
    intro y hy hfits
    rcases mem_append.mp hy with hy | hy
    · exact hy
    · exact absurd (mem_singleton.mp hy ▸ hfits) hx
  rcases hbest with ⟨hnone, hno⟩ | ⟨hmem, hfits, hleast⟩
  · exact .inl ⟨hnone, fun y hy hfits => hno y (hold y hy hfits) hfits⟩
  · exact .inr ⟨by simp [hmem], hfits, fun y hy hfits => hleast y (hold y hy hfits) hfits⟩

theorem take (hbest : Least length fits seen best) (hne : ∀ y, fits y → y ≠ none) (hx : fits x) :
    Least length fits (seen ++ [x]) (if best = none ∨ length x < length best then x else best) := by
  have hnew : (∀ y ∈ seen, fits y → length x ≤ length y) → Least length fits (seen ++ [x]) x :=
    fun hle => .inr ⟨by simp, hx, forall_mem_append.mpr ⟨hle, by simp⟩⟩
  rcases hbest with ⟨rfl, hno⟩ | ⟨hmem, hfits, hleast⟩
  · exact hnew fun y hy hfits => absurd hfits (hno y hy)
  · split
    case isTrue hlt =>
      have hlt := hlt.resolve_left (hne best hfits)
      exact hnew fun y hy hfits => hlt.le.trans (hleast y hy hfits)
    case isFalse hge =>
      have hge : length best ≤ length x := Nat.le_of_not_lt fun hlt => hge (.inr hlt)
      exact .inr ⟨by simp [hmem], hfits, forall_mem_append.mpr ⟨hleast, by simp [hge]⟩⟩

theorem exact (hbest : Least length fits seen best) (hle : ∀ y, fits y → length x ≤ length y)
    (hmem : x ∈ seen) (hx : fits x) (rest : List Nat) : Least length fits (seen ++ rest) best := by
  rcases hbest with ⟨-, hno⟩ | ⟨hbest, hfits, hleast⟩
  · exact absurd hx (hno x hmem)
  · exact .inr ⟨by simp [hbest], hfits, fun y _ hy => (hleast x hmem hx).trans (hle y hy)⟩

end Least

theorem Shape.scan (hs : Shape h tiles loose) (left : Nat)
    (hlinked : Linked h.next h.previous none before first rest)
    (hrest : ∀ x ∈ rest, ∃ t ∈ tiles, t.start = x ∧ t.free = true) (hleft : rest.length < left)
    (hbest : Least h.length (Fits h tiles n size alignment) seen best) :
    Least h.length (Fits h tiles n size alignment) (seen ++ rest) (Backing.scan h n size alignment left first best) := by
  induction left generalizing first best before rest seen with
  | zero => exact absurd hleft (Nat.not_lt_zero _)
  | succ left ih =>
    unfold Backing.scan
    cases rest with
    | nil =>
      rw [if_pos (show first = none from hlinked), append_nil]
      exact hbest
    | cons x rest =>
    obtain ⟨rfl, hne, -, hlinked⟩ := hlinked
    rw [if_neg hne, append_cons]
    have hnext : ∀ best, Least h.length (Fits h tiles n size alignment) (seen ++ [first]) best →
        Least h.length (Fits h tiles n size alignment) (seen ++ [first] ++ rest)
          (Backing.scan h n size alignment left (h.next first) best) := fun _ =>
      ih hlinked (fun x hx => hrest x (by simp [hx])) (Nat.lt_of_succ_lt_succ hleft)
    split
    case isTrue hshort => exact hnext _ (hbest.skip fun hfits => absurd (hs.fits hfits).1 (Nat.not_le.mpr hshort))
    case isFalse hlong =>
    split
    case isTrue hlow => exact hnext _ (hbest.skip fun hfits => absurd (hs.fits hfits).2.1 (Nat.not_le.mpr hlow))
    case isFalse hplace =>
    have hfits : Fits h tiles n size alignment first := by
      obtain ⟨t, ht, rfl, hfree⟩ := hrest first (by simp)
      rw [(hs.free_length ht hfree).1] at hlong hplace
      exact ⟨t, ht, rfl, hfree, Nat.le_of_not_lt hlong, Nat.le_of_not_lt hplace⟩
    have htake := hbest.take (fun y hy => (hs.fits hy).2.2) hfits
    dsimp only
    split
    case isTrue hexact => exact htake.exact (fun y hy => hexact.trans_le (hs.fits hy).1) (by simp) hfits rest
    case isFalse => exact hnext _ htake

/-- The search finds a smallest hole of its bin, or there is no hole that fits in the bins it passes. -/
theorem Shape.search (hs : Shape h tiles loose) (left b : Nat) :
    let r := Backing.search h n size alignment left b
    (r = none → ∀ t ∈ tiles, t.free = true → b ≤ bin t.length → bin t.length < b + left →
        ¬Fits h tiles n size alignment t.start) ∧
      (r ≠ none → Fits h tiles n size alignment r ∧ ∀ t ∈ tiles, t.free = true →
        bin t.length = bin (h.length r) → Fits h tiles n size alignment t.start → h.length r ≤ t.length) := by
  induction left generalizing b with
  | zero => exact ⟨fun _ t _ _ hb hb' => absurd hb (by omega), fun hne => absurd rfl hne⟩
  | succ left ih =>
    unfold Backing.search
    obtain ⟨lists, hbinned, hmem⟩ := hs.lists
    have hcount : (lists b).length ≤ h.count := by
      have hsub : lists b ⊆ List.range h.count := fun x hx => by
        obtain ⟨t, ht, rfl, -⟩ := (hmem b x).mp hx
        have := hs.inside ht
        exact mem_range.mpr (by omega)
      simpa using ((hbinned.nodup b).subperm hsub).length_le
    have hscan : Least h.length (Fits h tiles n size alignment) (lists b)
        (Backing.scan h n size alignment (h.count + 1) (h.bins b) none) :=
      hs.scan (h.count + 1) (hbinned.linked b)
        (fun x hx => ((hmem b x).mp hx).imp fun t ht => ⟨ht.1, ht.2.1, ht.2.2.1⟩)
        (Nat.lt_succ_of_le hcount) (show Least _ _ [] none from .inl ⟨rfl, nofun⟩)
    generalize Backing.scan h n size alignment (h.count + 1) (h.bins b) none = best at hscan ⊢
    rcases hscan with ⟨rfl, hno⟩ | ⟨hin, hfits, hleast⟩
    · refine ⟨fun hnone t ht hfree hle hlt => ?_, (ih (b + 1)).2⟩
      rcases hle.eq_or_lt with heq | hlt'
      · exact hno _ ((hmem b _).mpr ⟨t, ht, rfl, hfree, heq.symm⟩)
      · exact (ih (b + 1)).1 hnone t ht hfree hlt' (by omega)
    · have hne := (hs.fits hfits).2.2
      rw [if_pos hne]
      refine ⟨fun hnone => absurd hnone hne, fun _ => ⟨hfits, fun t ht hfree hbin htfits => ?_⟩⟩
      obtain ⟨c, hc, rfl, hcfree, rfl⟩ := (hmem b _).mp hin
      rw [(hs.free_length hc hcfree).1] at hbin
      have hle := hleast _ ((hmem _ _).mpr ⟨t, ht, rfl, hfree, hbin⟩) htfits
      rw [(hs.free_length ht hfree).1] at hle
      exact hle

theorem place_eq (hbase : h.base + h.count * unit ≤ 2 ^ 64) (hstop : stop ≤ h.count)
    (hpos : 0 < n) (hle : n ≤ stop) :
    place h stop (n * unit) alignment = (h.base + (stop - n) * unit) / alignment * alignment := by
  have hplace : sub64 (add64 h.base (stop * unit)) (n * unit) = h.base + (stop - n) * unit := by
    unfold sub64 add64
    unfold unit at *
    omega
  rw [place, hplace]

theorem place_spec (hbase : h.base + h.count * unit ≤ 2 ^ 64) (hstop : stop ≤ h.count)
    (hpos : 0 < n) (hle : n ≤ stop) :
    place h stop (n * unit) alignment ≤ h.base + (stop - n) * unit ∧
      place h stop (n * unit) alignment % alignment = 0 := by
  rw [place_eq hbase hstop hpos hle]
  exact ⟨Nat.div_mul_le_self _ _, Nat.mul_mod_left _ _⟩

/-- The alignment the heap uses is a multiple of the one asked for and of the unit. -/
theorem alignment_spec (hne : alignment ≠ 0) (hpow : alignment &&& (alignment - 1) = 0) :
    alignment ∣ (if alignment < unit then unit else alignment) ∧
      unit ∣ (if alignment < unit then unit else alignment) := by
  obtain ⟨k, rfl⟩ := (Nat.and_sub_one_eq_zero_iff_isPowerOfTwo hne).mp hpow
  have hunit : unit = 2 ^ 16 := rfl
  rw [hunit]
  split
  case isTrue hlt =>
    exact ⟨Nat.pow_dvd_pow 2 ((Nat.pow_lt_pow_iff_right (by decide)).mp hlt).le, Nat.dvd_refl _⟩
  case isFalse hge =>
    have hle : 2 ^ 16 ≤ 2 ^ k := Nat.le_of_not_lt hge
    exact ⟨Nat.dvd_refl _, Nat.pow_dvd_pow 2 ((Nat.pow_le_pow_iff_right (by decide)).mp hle)⟩

/-- An aligned run of so many units between two units. -/
def Room (h : BackingHeap) (alignment n start stop : Nat) : Prop :=
  ∃ k, start ≤ k ∧ k + n ≤ stop ∧ (h.base + k * unit) % alignment = 0

/-- Where there is an aligned run, the highest place is one. -/
theorem room_iff (hbase : h.base + h.count * unit ≤ 2 ^ 64) (hunit : h.base % unit = 0)
    (hpow : alignment.isPowerOfTwo) (hpos : 0 < n) (hstop : stop ≤ h.count) :
    Room h alignment n start stop ↔ start + n ≤ stop ∧
      h.base + start * unit ≤ place h stop (n * unit) (if alignment < unit then unit else alignment) := by
  have hne : alignment ≠ 0 := (Nat.pos_of_isPowerOfTwo hpow).ne'
  obtain ⟨hasked, hwide⟩ := alignment_spec hne ((Nat.and_sub_one_eq_zero_iff_isPowerOfTwo hne).mpr hpow)
  constructor
  · rintro ⟨k, hstart, hend, haligned⟩
    refine ⟨by omega, ?_⟩
    rw [place_eq hbase hstop hpos (by omega)]
    have hdvd : (if alignment < unit then unit else alignment) ∣ h.base + k * unit := by
      split
      · exact Nat.dvd_add (Nat.dvd_of_mod_eq_zero hunit) (Nat.dvd_mul_left _ _)
      · exact Nat.dvd_of_mod_eq_zero haligned
    calc h.base + start * unit ≤ h.base + k * unit :=
          Nat.add_le_add_left (Nat.mul_le_mul_right _ hstart) _
      _ = (h.base + k * unit) / _ * _ := (Nat.div_mul_cancel hdvd).symm
      _ ≤ _ := Nat.mul_le_mul_right _ (Nat.div_le_div_right
          (Nat.add_le_add_left (Nat.mul_le_mul_right _ (by omega)) _))
  · rintro ⟨hlong, hplace⟩
    generalize (if alignment < unit then unit else alignment) = wide at *
    obtain ⟨hle, hp⟩ : _ ∧ place h stop (n * unit) wide % wide = 0 :=
      place_spec hbase hstop hpos (show n ≤ stop by omega)
    generalize place h stop (n * unit) wide = p at *
    have hpunit := Nat.dvd_trans hwide (Nat.dvd_of_mod_eq_zero hp)
    have hat : h.base + (p - h.base) / unit * unit = p := by
      unfold unit at *
      omega
    refine ⟨(p - h.base) / unit, ?_, ?_, ?_⟩
    · unfold unit at *
      omega
    · unfold unit at *
      omega
    · rw [hat]
      exact Nat.mod_eq_zero_of_dvd (Nat.dvd_trans hasked (Nat.dvd_of_mod_eq_zero hp))

theorem Sound.alloc (hs : Sound h tiles) (hbase : h.base + h.count * unit ≤ 2 ^ 64)
    (floor alignment size : Nat) :
    Backing.alloc h floor alignment size = (Option.none, h) ∨
      ∃ p h' tiles', Backing.alloc h floor alignment size = (some p, h') ∧ h.base ≤ p ∧
        p % unit = 0 ∧ p % alignment = 0 ∧ Sound h' tiles' ∧
        Region h h' ∧ (∀ t ∈ tiles, t.free = false → t.start ≠ (p - h.base) / unit) ∧
        ∀ t, t.free = false →
          (t ∈ tiles' ↔ t = ⟨(p - h.base) / unit, units size, false⟩ ∨ t ∈ tiles) := by
  have hunits : (size + unit - 1) / unit = units size := rfl
  unfold Backing.alloc
  simp only [hunits, units_bytes]
  split
  case isTrue => exact .inl rfl
  case isFalse hgood =>
  simp only [not_or, not_not] at hgood
  obtain ⟨hsize, hne, hpow, -⟩ := hgood
  obtain ⟨hasked, hunit⟩ := alignment_spec hne hpow
  generalize (if alignment < unit then unit else alignment) = wide at hasked hunit ⊢
  have hpos : 0 < units size := by
    unfold units unit
    omega
  split
  case isTrue => exact .inl rfl
  case isFalse hfits =>
  have hmod : ∀ {stop}, place h stop (units size * unit) wide % wide = 0 →
      place h stop (units size * unit) wide % unit = 0 ∧
        place h stop (units size * unit) wide % alignment = 0 := fun hp =>
    ⟨Nat.mod_eq_zero_of_dvd (Nat.dvd_trans hunit (Nat.dvd_of_mod_eq_zero hp)),
      Nat.mod_eq_zero_of_dvd (Nat.dvd_trans hasked (Nat.dvd_of_mod_eq_zero hp))⟩
  have hsearch : _ → Fits h tiles (units size) (units size * unit) wide _ := fun hne =>
    ((hs.shape.search (bins - bin (units size)) (bin (units size))).2 hne).1
  generalize Backing.search h (units size) (units size * unit) wide (bins - bin (units size))
    (bin (units size)) = first at hsearch ⊢
  split
  case isTrue hfound =>
    obtain ⟨c, hc, rfl, hfree, hlong, hplace⟩ := hsearch hfound
    obtain ⟨pre, post, rfl⟩ := append_of_mem hc
    have hin := hs.shape.inside hc
    have hstop : c.start + c.length = c.stop := rfl
    rw [(hs.shape.free_length hc hfree).1, hstop]
    obtain ⟨hle, hp⟩ : _ ∧ place h c.stop (units size * unit) wide % wide = 0 :=
      place_spec hbase (show c.stop ≤ h.count from hin.2.2.1) hpos
        (show units size ≤ c.stop by omega)
    obtain ⟨hpunit, hpasked⟩ := hmod hp
    generalize place h c.stop (units size * unit) wide = p at *
    have hat : c.start ≤ (p - h.base) / unit := by
      unfold unit at *
      omega
    have hend : (p - h.base) / unit + units size ≤ c.stop := by
      unfold Tile.stop unit at *
      omega
    obtain ⟨pre', post', hsound, hsame⟩ := hs.hole hfree hat hpos hend
    have hstays := carve_stays h c.start c.stop ((p - h.base) / unit) (units size)
    have hne : ∀ t : Tile, t.free = false → t ≠ c := fun t ht => ne_of_apply_ne Tile.free (by simp [hfree, ht])
    refine .inr ⟨p, _, _, rfl, by omega, hpunit, hpasked, hsound, hstays.region.trans (grant_region _ _ _ _),
      fun t ht htused => ?_, fun t ht => ?_⟩
    · have hout := hs.shape.others t (hs.shape.mem_others.mpr ⟨ht, hne t htused⟩)
      omega
    · rw [mem_middle, hsame t ht, hs.shape.mem_others, and_iff_left (hne t ht)]
  case isFalse hnone =>
    split
    case isTrue => exact .inl rfl
    case isFalse hroom =>
    split
    case isTrue => exact .inl rfl
    case isFalse hfloor =>
    obtain ⟨hle, hp⟩ : _ ∧ place h h.bottom (units size * unit) wide % wide = 0 :=
      place_spec hbase hs.shape.tiled.le hpos (Nat.le_of_not_lt hroom)
    obtain ⟨hpunit, hpasked⟩ := hmod hp
    generalize place h h.bottom (units size * unit) wide = p at *
    have hend : (p - h.base) / unit + units size ≤ h.bottom := by
      unfold unit at *
      omega
    obtain ⟨post', hsound, hsame⟩ := hs.frontier hpos hend
    have hstays := insert_if_stays { h with bottom := (p - h.base) / unit }
      ((p - h.base) / unit + units size) (h.bottom - (p - h.base) / unit - units size)
      ((p - h.base) / unit + units size < h.bottom)
    refine .inr ⟨p, _, _, rfl, by omega, hpunit, hpasked, hsound,
      ⟨hstays.base, hstays.count⟩, fun t ht _ => ?_, fun t ht => ?_⟩
    · have := (hs.shape.inside ht).1
      omega
    · rw [mem_cons, hsame t ht]

/-- The address that `backing_alloc` finds for a request it looks for a place for. -/
theorem alloc_address (hsize : 0 < size) (hne : alignment ≠ 0) (hand : alignment &&& (alignment - 1) = 0)
    (hbound : h.count < 2 ^ 18) (hunits : ¬h.count < units size) :
    let wide := if alignment < unit then unit else alignment
    let first := search h (units size) (units size * unit) wide (bins - bin (units size)) (bin (units size))
    let address := place h h.bottom (units size * unit) wide
    (alloc h floor alignment size).1 =
      if first ≠ none then some (place h (first + h.length first) (units size * unit) wide)
      else if units size > h.bottom then Option.none
      else if address < h.base ∨ address < floor then Option.none else some address := by
  have heq : (size + unit - 1) / unit = units size := rfl
  intro wide first address
  unfold alloc
  simp only [heq, units_bytes]
  rw [if_neg ?good, if_neg hunits]
  case good =>
    unfold units sizeMax unit at *
    omega
  simp only [apply_ite Prod.fst]
  rfl

/-- What `backing_alloc` refuses fits nowhere, and the hole it takes is a smallest of its bin. -/
structure Complete (h : BackingHeap) (tiles : List Tile) (floor alignment size : Nat) : Prop where
  refused : (alloc h floor alignment size).1 = Option.none →
    (∀ t ∈ tiles, t.free = true → ¬Room h alignment (units size) t.start t.stop) ∧
      ∀ k, k + units size ≤ h.bottom → (h.base + k * unit) % alignment = 0 → h.base + k * unit < floor
  taken : ∀ p, (alloc h floor alignment size).1 = some p → h.base + h.bottom * unit ≤ p →
    ∃ t ∈ tiles, t.free = true ∧ h.base + t.start * unit ≤ p ∧
      p + units size * unit ≤ h.base + t.stop * unit ∧
      ∀ u ∈ tiles, u.free = true → bin u.length = bin t.length →
        Room h alignment (units size) u.start u.stop → t.length ≤ u.length

theorem Shape.complete (hs : Shape h tiles fun _ => False) (hbase : h.base + h.count * unit ≤ 2 ^ 64)
    (hunit : h.base % unit = 0) (floor : Nat) (hpow : alignment.isPowerOfTwo) (hsize : 0 < size) :
    Complete h tiles floor alignment size := by
  have hne : alignment ≠ 0 := (Nat.pos_of_isPowerOfTwo hpow).ne'
  have hand := (Nat.and_sub_one_eq_zero_iff_isPowerOfTwo hne).mpr hpow
  have hunits : (size + unit - 1) / unit = units size := rfl
  have hpos : 0 < units size := by
    unfold units unit
    omega
  have hroom : ∀ {start stop}, stop ≤ h.count → (Room h alignment (units size) start stop ↔ _) :=
    room_iff hbase hunit hpow hpos
  by_cases hbig : h.count < units size
  · -- no run is as long as this
    have hnone : (alloc h floor alignment size).1 = Option.none := by
      unfold Backing.alloc
      simp [hunits, units_bytes, hbig]
    refine ⟨fun _ => ⟨fun t ht _ ⟨k, _, hk, _⟩ => ?_, fun k hk => ?_⟩, fun p hp => ?_⟩
    · have := (hs.inside ht).2.2.1
      unfold Tile.stop at hk
      omega
    · have := hs.tiled.le
      omega
    · rw [hnone] at hp
      cases hp
  have halloc := @alloc_address h size alignment floor hsize hne hand hs.bound hbig
  dsimp only at halloc
  generalize (if alignment < unit then unit else alignment) = wide at *
  have hfits : ∀ t ∈ tiles, t.free = true → (Room h alignment (units size) t.start t.stop ↔
      Fits h tiles (units size) (units size * unit) wide t.start) := by
    intro t ht hfree
    rw [hroom (show t.stop ≤ h.count from (hs.inside ht).2.2.1)]
    constructor
    · rintro ⟨hlong, hplace⟩
      exact ⟨t, ht, rfl, hfree, Nat.le_of_add_le_add_left hlong, hplace⟩
    · intro hfits
      have hfits := hs.fits hfits
      rw [(hs.free_length ht hfree).1] at hfits
      exact ⟨Nat.add_le_add_left hfits.1 _, hfits.2.1⟩
  have hbelow : ∀ {stop}, stop ≤ h.count → units size ≤ stop →
      place h stop (units size * unit) wide + units size * unit ≤ h.base + stop * unit := by
    intro stop hstop hle
    obtain ⟨hspec, -⟩ : place h stop (units size * unit) wide ≤ _ ∧ _ := place_spec hbase hstop hpos hle
    unfold unit at *
    omega
  obtain ⟨hno, hfound⟩ : (Backing.search h (units size) (units size * unit) wide _ _ = _ → _) ∧ _ :=
    hs.search (bins - bin (units size)) (bin (units size))
  generalize Backing.search h (units size) (units size * unit) wide (bins - bin (units size))
    (bin (units size)) = first at *
  refine ⟨fun hnone => ?_, fun p hp hlow => ?_⟩
  · rw [halloc] at hnone
    split at hnone
    · cases hnone
    case isFalse hfirst =>
    refine ⟨fun t ht hfree hr => ?_, fun k hk haligned => ?_⟩
    · obtain ⟨hin, hpos, hin', hbound⟩ := hs.inside ht
      have hlong : units size ≤ t.length := Nat.le_of_add_le_add_left ((hroom hin').mp hr).1
      have hle : bin (units size) ≤ bin t.length :=
        (Nat.le_log2 (by omega)).mpr ((Nat.log2_self_le (by omega)).trans hlong)
      have hlt : bin t.length < bins := (Nat.log2_lt (by omega)).mpr (show t.length < 2 ^ 18 by omega)
      exact hno (not_not.mp hfirst) t ht hfree hle (by omega) ((hfits t ht hfree).mp hr)
    · have hplace := ((hroom hs.tiled.le).mp ⟨k, Nat.le_refl k, hk, haligned⟩).2
      rw [if_neg (by omega)] at hnone
      split at hnone
      · omega
      · cases hnone
  · rw [halloc] at hp
    split at hp
    case isTrue hfirst =>
      obtain ⟨⟨t, ht, rfl, hfree, hlong, hplace⟩, hleast⟩ := hfound hfirst
      rw [(hs.free_length ht hfree).1] at hp hleast
      cases hp
      exact ⟨t, ht, hfree, hplace, hbelow (hs.inside ht).2.2.1 (hlong.trans (Nat.le_add_left _ _)),
        fun u hu hufree hbin hr => hleast u hu hufree hbin ((hfits u hu hufree).mp hr)⟩
    case isFalse =>
    split at hp
    · cases hp
    case isFalse hle =>
    split at hp
    · cases hp
    cases hp
    have := hbelow hs.tiled.le (Nat.le_of_not_lt hle)
    unfold unit at *
    omega

/-- The blocks in use are those that were handed out and not freed. -/
structure World.Inv (base count : Nat) (w : World) (tiles : List Tile) : Prop where
  sound : Sound w.heap tiles
  base_eq : w.heap.base = base
  count_eq : w.heap.count = count
  distinct : (w.live.map (·.pointer)).Nodup
  aligned : ∀ l ∈ w.live, base ≤ l.pointer ∧ l.pointer % unit = 0 ∧ l.pointer % l.alignment = 0
  blocks : ∀ n, (∃ l ∈ w.live, w.first l = n) ↔ ∃ t ∈ tiles, t.free = false ∧ t.start = n

namespace World.Inv

variable {base count : Nat} {w : World} {l m : Live}

theorem block (hw : Inv base count w tiles) (hl : l ∈ w.live) :
    ∃ pre c post, tiles = pre ++ c :: post ∧ c.free = false ∧ w.first l = c.start := by
  obtain ⟨c, hc, hfree, hstart⟩ := (hw.blocks _).mp ⟨l, hl, rfl⟩
  obtain ⟨pre, post, rfl⟩ := append_of_mem hc
  exact ⟨pre, c, post, rfl, hfree, hstart.symm⟩

theorem first_lt (hw : Inv base count w tiles) (hl : l ∈ w.live) (hm : m ∈ w.live)
    (hlt : w.first l + n ≤ w.first m) : l.pointer + n * unit ≤ m.pointer := by
  have h1 := hw.aligned l hl
  have h2 := hw.aligned m hm
  unfold World.first at hlt
  rw [hw.base_eq] at hlt
  unfold unit at *
  omega

theorem pointer_eq (hw : Inv base count w tiles) (hl : l ∈ w.live) (hm : m ∈ w.live)
    (he : w.first l = w.first m) : l.pointer = m.pointer := by
  have h1 := hw.first_lt (n := 0) hl hm (by omega)
  have h2 := hw.first_lt (n := 0) hm hl (by omega)
  omega

theorem eq_of_first (hw : Inv base count w tiles) (hl : l ∈ w.live) (hm : m ∈ w.live)
    (he : w.first l = w.first m) : l = m :=
  inj_on_of_nodup_map hw.distinct hl hm (hw.pointer_eq hl hm he)

theorem bytes_eq (hw : Inv base count w (pre ++ c :: post)) (hfirst : w.first l = c.start) :
    w.bytes l = c.length * unit := by
  unfold World.bytes
  rw [hfirst, hw.sound.shape.bare_start (mem_middle.mpr (.inl rfl)) id]

theorem disjoint (hw : Inv base count w tiles) (hl : l ∈ w.live) (hm : m ∈ w.live) (hne : l ≠ m) :
    l.pointer + w.bytes l ≤ m.pointer ∨ m.pointer + w.bytes m ≤ l.pointer := by
  obtain ⟨t, ht, htused, hstart⟩ := (hw.blocks _).mp ⟨l, hl, rfl⟩
  obtain ⟨u, hu, huused, hstart'⟩ := (hw.blocks _).mp ⟨m, hm, rfl⟩
  have hbytes : w.bytes l = t.length * unit := by
    obtain ⟨pre, post, rfl⟩ := append_of_mem ht
    exact hw.bytes_eq hstart.symm
  have hbytes' : w.bytes m = u.length * unit := by
    obtain ⟨pre, post, rfl⟩ := append_of_mem hu
    exact hw.bytes_eq hstart'.symm
  rw [hbytes, hbytes']
  rcases hw.sound.shape.tiled.apart ht hu with rfl | hlt | hlt
  · exact absurd (hw.eq_of_first hl hm (hstart.symm.trans hstart')) hne
  · exact .inl (hw.first_lt hl hm (by rw [← hstart, ← hstart']; exact hlt))
  · exact .inr (hw.first_lt hm hl (by rw [← hstart, ← hstart']; exact hlt))

theorem alloc (hw : Inv base count w tiles) (hbase : base + count * unit ≤ 2 ^ 64)
    (floor alignment size : Nat) :
    ∃ tiles', Inv base count (w.step (.alloc floor alignment size)) tiles' := by
  unfold World.step
  rcases hw.sound.alloc (by rw [hw.base_eq, hw.count_eq]; exact hbase) floor alignment size with
    he | ⟨p, h', tiles', he, hp, hunit, hasked, hsound, ⟨hb, hc⟩, hnew, hmem⟩
  · simp only [he]
    exact ⟨tiles, hw⟩
  · have hb' : h'.base = base := hb.trans hw.base_eq
    simp only [he, Option.map_some, Option.toList_some, singleton_append]
    refine ⟨tiles', hsound, hb', hc.trans hw.count_eq, ?_, ?_, fun n => ?_⟩
    · rw [map_cons, nodup_cons]
      refine ⟨fun hin => ?_, hw.distinct⟩
      obtain ⟨l, hl, hlp⟩ := mem_map.mp hin
      obtain ⟨t, ht, htused, hstart⟩ := (hw.blocks _).mp ⟨l, hl, rfl⟩
      refine hnew t ht htused (hstart.trans ?_)
      unfold World.first
      rw [hlp]
    · intro l hl
      rcases mem_cons.mp hl with rfl | hl
      · exact ⟨hw.base_eq ▸ hp, hunit, hasked⟩
      · exact hw.aligned l hl
    · have hold : ∀ l : Live, (⟨h', ⟨p, alignment⟩ :: w.live⟩ : World).first l = w.first l := fun l => by
        unfold World.first
        rw [hb]
      simp only [hold, exists_mem_cons_iff, hw.blocks, exists_used rfl hmem]
      rfl

theorem free (hw : Inv base count w tiles) (hl : l ∈ w.live) :
    ∃ tiles', Inv base count (w.step (.free l)) tiles' := by
  obtain ⟨pre, c, post, rfl, hfree, hfirst⟩ := hw.block hl
  obtain ⟨tiles', hsound, hsame, hb, hc⟩ := hw.sound.freeAt hfree
  have herase : ∀ m, m ∈ w.live.erase l ↔ m ≠ l ∧ m ∈ w.live :=
    fun m => hw.distinct.of_map.mem_erase_iff
  have hstep : w.step (.free l) = ⟨freeAt w.heap c.start, w.live.erase l⟩ := by
    rw [← hfirst]
    rfl
  have hold : ∀ m : Live, (⟨freeAt w.heap c.start, w.live.erase l⟩ : World).first m = w.first m :=
    fun m => by
      unfold World.first
      rw [hb]
  rw [hstep]
  refine ⟨tiles', hsound, hb.trans hw.base_eq, hc.trans hw.count_eq,
    hw.distinct.sublist (erase_sublist.map _), fun m hm => hw.aligned m ((herase m).mp hm).2,
    fun n => ?_⟩
  simp only [hold, herase]
  constructor
  · rintro ⟨m, ⟨hne, hm⟩, rfl⟩
    obtain ⟨t, ht, htused, hstart⟩ := (hw.blocks _).mp ⟨m, hm, rfl⟩
    have htc : t ≠ c := by
      rintro rfl
      exact hne (hw.eq_of_first hm hl (hstart.symm.trans hfirst.symm))
    exact ⟨t, (hsame t htused).mpr (hw.sound.shape.mem_others.mpr ⟨ht, htc⟩), htused, hstart⟩
  · rintro ⟨t, ht, htused, hstart⟩
    obtain ⟨ht, htc⟩ := hw.sound.shape.mem_others.mp ((hsame t htused).mp ht)
    obtain ⟨m, hm, hmfirst⟩ := (hw.blocks n).mpr ⟨t, ht, htused, hstart⟩
    refine ⟨m, ⟨?_, hm⟩, hmfirst⟩
    rintro rfl
    exact htc (hw.sound.shape.tiled.eq_of_start ht (mem_middle.mpr (.inl rfl))
      (hstart.trans (hmfirst.symm.trans hfirst)))

/-- A resized block begins where it did, with the length asked for if that was granted. -/
theorem resize (hw : Inv base count w tiles) (hl : l ∈ w.live) (size : Nat) :
    ∃ tiles', Inv base count (w.step (.resize l size)) tiles' ∧
      (w.step (.resize l size)).first l = w.first l ∧
      (w.step (.resize l size)).bytes l =
        if (Backing.resize w.heap l.pointer size).1 then units size * unit else w.bytes l := by
  obtain ⟨pre, c, post, rfl, hfree, hfirst⟩ := hw.block hl
  rcases hw.sound.resize hfree hfirst size with ⟨he, -⟩ | ⟨hok, -, tiles', hsound, hmem, hb, hc⟩
  · have hstep : w.step (.resize l size) = w := by
      change { w with heap := (Backing.resize w.heap l.pointer size).2 } = w
      rw [he]
    rw [hstep, he]
    exact ⟨_, hw, rfl, rfl⟩
  · have hold : ∀ m : Live, (w.step (.resize l size)).first m = w.first m := fun m => by
      unfold World.first World.step
      rw [hb]
    have hinv : Inv base count (w.step (.resize l size)) tiles' := by
      refine ⟨hsound, hb.trans hw.base_eq, hc.trans hw.count_eq, hw.distinct, hw.aligned, fun n => ?_⟩
      simp only [hold]
      rw [exists_used rfl hmem, ← exists_used (p := fun t => t.start = n) hfree fun t _ => mem_middle]
      exact hw.blocks n
    refine ⟨tiles', hinv, hold l, ?_⟩
    obtain ⟨pre', post', rfl⟩ := append_of_mem ((hmem ⟨c.start, units size, false⟩ rfl).mpr (.inl rfl))
    rw [hinv.bytes_eq ((hold l).trans hfirst), if_pos hok]

theorem step (hw : Inv base count w tiles) (hbase : base + count * unit ≤ 2 ^ 64) (op : Op)
    (hok : w.Ok op) : ∃ tiles', Inv base count (w.step op) tiles' := by
  cases op with
  | alloc floor alignment size => exact hw.alloc hbase floor alignment size
  | free l => exact hw.free hok
  | resize l size =>
    obtain ⟨tiles', hw', -⟩ := hw.resize hok size
    exact ⟨tiles', hw'⟩

theorem init (length next previous : Nat → Nat) (hcount : count < 2 ^ 18) :
    Inv base count ⟨Backing.init length next previous base count, []⟩ [] := by
  have hshape : Shape (Backing.init length next previous base count) [] fun _ => False :=
    ⟨hcount, rfl, nofun, ⟨fun _ => [], ⟨fun _ => rfl, fun _ => .nil, nofun⟩, by simp⟩, rfl⟩
  exact ⟨⟨hshape, .nil, nofun, rfl⟩, rfl, rfl, .nil, nofun, by simp⟩

theorem run (length next previous : Nat → Nat) (hcount : count < 2 ^ 18)
    (hbase : base + count * unit ≤ 2 ^ 64) (ops : List Op)
    (hok : Allowed Ok World.step ⟨Backing.init length next previous base count, []⟩ ops) :
    ∃ tiles, Inv base count (Lib.run World.step ⟨Backing.init length next previous base count, []⟩ ops) tiles :=
  run_allowed (P := fun w => ∃ tiles, Inv base count w tiles)
    (fun _ op hok ⟨_, hw⟩ => hw.step hbase op hok) ⟨[], init length next previous hcount⟩ ops hok

end World.Inv

/-- After every run of calls the units from the frontier up are blocks with equal tags at both ends,
the holes are in the bins for their lengths, never next to each other or at the frontier, and counted;
what is handed out are the other blocks, which are aligned, apart, and resized where they are. -/
theorem backing_heap_integrity (length next previous : Nat → Nat) (base count : Nat)
    (hcount : count < 2 ^ 18) (hbase : base + count * unit ≤ 2 ^ 64) (ops : List Op)
    (hok : Allowed World.Ok World.step ⟨init length next previous base count, []⟩ ops) :
    let w := run World.step ⟨init length next previous base count, []⟩ ops
    (∃ tiles, Tiled w.heap.bottom count tiles ∧
      (∀ t ∈ tiles, w.heap.length t.start = tagOf t ∧ w.heap.length (t.stop - 1) = tagOf t) ∧
      FreeLists w.heap.bins w.heap.next w.heap.previous none bin tiles ∧
      (∀ t ∈ tiles, bin t.length < bins) ∧ Coalesced tiles ∧
      (∀ t ∈ tiles.head?, t.free = false) ∧ w.heap.used = usedLength tiles * unit ∧
      w.heap.holes = tiles.countP (·.free) ∧
      ∀ n, (∃ l ∈ w.live, w.first l = n) ↔ ∃ t ∈ tiles, t.free = false ∧ t.start = n) ∧
    (w.live.map (·.pointer)).Nodup ∧
    (∀ l ∈ w.live, ∀ m ∈ w.live, l ≠ m →
      l.pointer + w.bytes l ≤ m.pointer ∨ m.pointer + w.bytes m ≤ l.pointer) ∧
    (∀ l ∈ w.live, l.pointer % l.alignment = 0) ∧
    ∀ l ∈ w.live, ∀ size,
      isUsed ((w.step (.resize l size)).heap.length (w.first l)) = true ∧
      (w.step (.resize l size)).bytes l =
        if (resize w.heap l.pointer size).1 then units size * unit else w.bytes l := by
  obtain ⟨tiles, hw⟩ := World.Inv.run length next previous hcount hbase ops hok
  have hshape := hw.sound.shape
  have htiled := hshape.tiled
  rw [hw.count_eq] at htiled
  refine ⟨⟨tiles, htiled, fun t ht => hshape.tags t ht (.inr id), hshape.lists,
    fun t ht => ?_, hw.sound.coalesced, hw.sound.bottom, hw.sound.used, hshape.holes, hw.blocks⟩,
    hw.distinct, fun l hl m hm => hw.disjoint hl hm, fun l hl => (hw.aligned l hl).2.2,
    fun l hl size => ?_⟩
  · have := hshape.inside ht
    exact (Nat.log2_lt (by omega)).mpr (show t.length < 2 ^ 18 by omega)
  · obtain ⟨tiles', hw', hfirst, hbytes⟩ := hw.resize hl size
    refine ⟨?_, hbytes⟩
    obtain ⟨t, ht, htused, hstart⟩ := (hw'.blocks _).mp ⟨l, hl, hfirst⟩
    rw [← hstart, (hw'.sound.shape.isUsed_start ht id).1, htused]
    rfl

/-- A block grows into the hole its alignment left, another is cut down, the first is freed. -/
def someRequests : List Op :=
  [.alloc 0 4096 60000, .alloc 0 262144 70000, .resize ⟨1835008, 262144⟩ 190000,
    .alloc 0 65536 300000, .resize ⟨1507328, 65536⟩ 65536, .free ⟨2031616, 4096⟩]

theorem backing_heap_some_requests :
    Allowed World.Ok World.step ⟨init id id id 1048576 16, []⟩ someRequests ∧
      (run World.step ⟨init id id id 1048576 16, []⟩ someRequests).live =
        [⟨1507328, 65536⟩, ⟨1835008, 262144⟩] ∧
      (run World.step ⟨init id id id 1048576 16, []⟩ someRequests).heap.holes = 2 ∧
      ∃ tiles, Tiled (run World.step ⟨init id id id 1048576 16, []⟩ someRequests).heap.bottom 16 tiles ∧
        tiles.countP (·.free) = 2 := by
  have hok : Allowed World.Ok World.step ⟨init id id id 1048576 16, []⟩ someRequests := by
    decide +kernel
  have hholes : (run World.step ⟨init id id id 1048576 16, []⟩ someRequests).heap.holes = 2 := by
    decide +kernel
  obtain ⟨⟨tiles, htiled, -, -, -, -, -, -, hcounted, -⟩, -⟩ :=
    backing_heap_integrity id id id 1048576 16 (by decide) (by decide) someRequests hok
  exact ⟨hok, by decide +kernel, hholes, tiles, htiled, hcounted.symm.trans hholes⟩

/-- Whatever was called before, a request is refused only if no hole has an aligned run for it and
every one below the frontier is below the floor; a hole that is taken is a smallest of its bin. -/
theorem backing_alloc_complete (length next previous : Nat → Nat) (base count : Nat)
    (hcount : count < 2 ^ 18) (hbase : base + count * unit ≤ 2 ^ 64) (hunit : base % unit = 0)
    (ops : List Op) (hok : Allowed World.Ok World.step ⟨init length next previous base count, []⟩ ops)
    (floor alignment size : Nat) (hpow : alignment.isPowerOfTwo) (hsize : 0 < size) :
    let h := (run World.step ⟨init length next previous base count, []⟩ ops).heap
    ∃ tiles, Shape h tiles (fun _ => False) ∧ Complete h tiles floor alignment size := by
  obtain ⟨tiles, hw⟩ := World.Inv.run length next previous hcount hbase ops hok
  intro h
  have hs : Shape h tiles fun _ => False := hw.sound.shape
  have hbase : h.base + h.count * unit ≤ 2 ^ 64 := by
    rw [hw.base_eq, hw.count_eq]
    exact hbase
  have hunit : h.base % unit = 0 := by
    rw [hw.base_eq]
    exact hunit
  exact ⟨tiles, hs, hs.complete hbase hunit floor hpow hsize⟩

/-- The request goes into a hole that the calls before it left. -/
theorem backing_alloc_takes_hole :
    let h := (run World.step ⟨init id id id 1048576 16, []⟩ someRequests).heap
    (alloc h 0 65536 65536).1 = some 2031616 ∧ ∃ tiles, Shape h tiles (fun _ => False) ∧
      ∃ t ∈ tiles, t.free = true ∧ h.base + t.start * unit ≤ 2031616 := by
  intro h
  have hsome : (alloc h 0 65536 65536).1 = some 2031616 := by decide +kernel
  obtain ⟨tiles, hshape, hcomplete⟩ := backing_alloc_complete id id id 1048576 16 (by decide) (by decide)
    (by decide) someRequests (by decide +kernel) 0 65536 65536 ⟨16, rfl⟩ (by decide)
  obtain ⟨t, ht, hfree, hstart, -⟩ := hcomplete.taken 2031616 hsome (by decide +kernel)
  exact ⟨hsome, tiles, hshape, t, ht, hfree, hstart⟩

/-- A request for nothing is refused, and nothing fits everywhere. -/
theorem nothing_is_refused :
    let h := init id id id 1048576 16
    Shape h [] (fun _ => False) ∧ ¬Complete h [] 0 65536 0 := by
  intro h
  have hw : World.Inv 1048576 16 ⟨h, []⟩ [] := World.Inv.init id id id (by decide)
  exact ⟨hw.sound.shape, fun hc => absurd ((hc.refused rfl).2 0 (by decide) (by decide)) (by decide)⟩

/-- Once everything is freed the heap is as `backing_init` left it, whatever it went through, and any
block that it has units for can be had again. -/
theorem emptied_heap_is_new (length next previous : Nat → Nat) (base count : Nat) (hcount : count < 2 ^ 18)
    (hbase : base + count * unit ≤ 2 ^ 64) (hunit : base % unit = 0) (ops : List Op)
    (hok : Allowed World.Ok World.step ⟨init length next previous base count, []⟩ ops)
    (hfreed : (run World.step ⟨init length next previous base count, []⟩ ops).live = []) :
    let h := (run World.step ⟨init length next previous base count, []⟩ ops).heap
    h.bottom = count ∧ h.holes = 0 ∧ h.used = 0 ∧ (∀ b, h.bins b = none) ∧
      ∀ size, 0 < size → units size ≤ count → ∃ p, (alloc h base unit size).1 = some p := by
  obtain ⟨tiles, hw⟩ := World.Inv.run length next previous hcount hbase ops hok
  generalize run World.step ⟨init length next previous base count, []⟩ ops = w at *
  have hshape := hw.sound.shape
  -- a tile in use would be a block, and the first tile is in use
  obtain rfl : tiles = [] := by
    cases htiles : tiles with
    | nil => rfl
    | cons t ts =>
      obtain ⟨l, hl, -⟩ := (hw.blocks t.start).mpr ⟨t, by simp [htiles], hw.sound.bottom t (by simp [htiles]), rfl⟩
      simp [hfreed] at hl
  have hbottom : w.heap.bottom = w.heap.count := hshape.tiled
  rw [hw.count_eq] at hbottom
  refine ⟨hbottom, hshape.holes, hw.sound.used, fun b => ?_, fun size hsize hunits => ?_⟩
  · simpa using hshape.lists.head_cases b
  · have hcomplete := hshape.complete (by rwa [hw.base_eq, hw.count_eq]) (by rwa [hw.base_eq]) base
      (show unit.isPowerOfTwo from ⟨16, rfl⟩) hsize
    refine Option.ne_none_iff_exists'.mp fun hnone => ?_
    have hroom := (hcomplete.refused hnone).2 0 (by omega) (by rw [hw.base_eq]; simpa using hunit)
    rw [hw.base_eq] at hroom
    omega

/-- Two blocks with a hole between them, freed in the order they came. -/
theorem emptied_heap_twice :
    (run World.step ⟨init id id id 1048576 16, []⟩
      [.alloc 0 4096 60000, .alloc 0 262144 70000, .free ⟨2031616, 4096⟩, .free ⟨1835008, 262144⟩]).heap.bottom = 16 :=
  (emptied_heap_is_new id id id 1048576 16 (by decide) (by decide) (by decide) _ (by decide +kernel)
    (by decide +kernel)).1

end Autorun.Heap.Backing
