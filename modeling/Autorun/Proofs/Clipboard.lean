import Autorun.Lib.Bitmap
import Autorun.Lib.Run
import Autorun.Server.Clipboard
import Mathlib.Data.List.Nodup
import Mathlib.Data.List.Perm.Subperm

namespace Autorun.Server.Clip
open Lib List

def ids (formats : List Format) : List Word := formats.map (·.id)

@[simp] theorem ids_nil : ids [] = [] := rfl

@[simp] theorem ids_cons (f : Format) (fs : List Format) : ids (f :: fs) = f.id :: ids fs := rfl

@[simp] theorem ids_append (fs gs : List Format) : ids (fs ++ gs) = ids fs ++ ids gs := map_append

variable {id id' map : Word}

theorem mem_ids : id ∈ ids formats ↔ ∃ f ∈ formats, f.id = id := mem_map

/-- A format behind those with the ids `seen`: its id is new, and what it is made from is among them. -/
def After (seen : List Word) (f : Format) : Prop :=
  f.id ≠ 0 ∧ f.id ∉ seen ∧ (f.source = 0 ∨ f.source ∈ seen ∧ f.source < cfMax ∧ f.data = none)

/-- Each format stands behind what it is made from. -/
def Chained : List Word → List Format → Prop
  | _, [] => True
  | seen, f :: fs => After seen f ∧ Chained (seen ++ [f.id]) fs

variable {seen : List Word}

theorem chained_append : Chained seen (fs ++ gs) ↔ Chained seen fs ∧ Chained (seen ++ ids fs) gs := by
  induction fs generalizing seen with
  | nil => simp [Chained]
  | cons f fs ih => simp [Chained, ih, and_assoc]

theorem Chained.fresh (h : Chained seen fs) : (ids fs).Nodup ∧ ∀ id ∈ ids fs, id ≠ 0 ∧ id ∉ seen := by
  induction fs generalizing seen with
  | nil => simp
  | cons f fs ih =>
    obtain ⟨⟨hid, hnew, -⟩, hrest⟩ := h
    obtain ⟨hnodup, hfresh⟩ := ih hrest
    simp only [mem_append, mem_singleton, not_or] at hfresh
    refine ⟨nodup_cons.mpr ⟨fun hmem => (hfresh _ hmem).2.2 rfl, hnodup⟩,
      forall_mem_cons.mpr ⟨⟨hid, hnew⟩, fun id hmem => ⟨(hfresh id hmem).1, (hfresh id hmem).2.1⟩⟩⟩

def Mapped (formats : List Format) (map : Word) : Prop :=
  ∀ id, has map id = true ↔ id < cfMax ∧ id ∈ ids formats

/-- The count and the map are those of the list. -/
structure Sound (formats : List Format) (count map : Word) : Prop where
  chained : Chained [] formats
  bits : Mapped formats map
  count : count = BitVec.ofNat 32 formats.length

abbrev Clipboard.Sound (clip : Clipboard) : Prop := Clip.Sound clip.formats clip.formatCount clip.formatMap

theorem Clipboard.Sound.start : Clipboard.Sound {} := ⟨trivial, fun id => by simp [has], rfl⟩

/-! The map. -/

theorem lt_cfMax (h : id < cfMax) : id.toNat < 32 := by
  have hlt : id.toNat < cfMax.toNat := h
  have hmax : cfMax.toNat = 18 := rfl
  omega

/-- The bit of a format below the largest is that format's alone. -/
theorem has_bit (h : id < cfMax) (hlt : id'.toNat < 32) :
    (1#32 <<< id.toNat).getLsbD id'.toNat = decide (id' = id) := by
  have hbit := Bitmap.mask_bit (i := id.toNat) (Nat.zero_lt_succ 31) id'.toNat hlt
  rw [Bitmap.mask, Nat.mod_eq_of_lt (lt_cfMax h)] at hbit
  rw [hbit]
  exact decide_eq_decide.mpr BitVec.toNat_inj

theorem has_set (h : id < cfMax) :
    has (map ||| 1#32 <<< id.toNat) id' = true ↔ has map id' = true ∨ id' = id := by
  unfold has
  by_cases hlt : id'.toNat < 32
  · rw [BitVec.getLsbD_or, has_bit h hlt, Bool.or_eq_true, decide_eq_true_eq]
  · have hne : id' ≠ id := fun heq => hlt (heq ▸ lt_cfMax h)
    rw [BitVec.getLsbD_of_ge _ _ (Nat.le_of_not_lt hlt), BitVec.getLsbD_of_ge _ _ (Nat.le_of_not_lt hlt)]
    simp [hne]

theorem has_clear (h : id < cfMax) :
    has (map &&& ~~~(1#32 <<< id.toNat)) id' = true ↔ has map id' = true ∧ id' ≠ id := by
  unfold has
  by_cases hlt : id'.toNat < 32
  · rw [BitVec.getLsbD_and, BitVec.getLsbD_not, has_bit h hlt]
    simp [hlt]
  · rw [BitVec.getLsbD_of_ge _ _ (Nat.le_of_not_lt hlt), BitVec.getLsbD_of_ge _ _ (Nat.le_of_not_lt hlt)]
    simp

/-! A format is added or filled. -/

theorem Sound.add (h : Sound fs n map) (hg : After (ids fs) g) :
    Sound (fs ++ [g]) (n + 1) (if g.id < cfMax then map ||| 1#32 <<< g.id.toNat else map) where
  chained := chained_append.mpr ⟨h.chained, hg, trivial⟩
  bits id := by
    rw [ids_append, mem_append]
    have hone : id ∈ ids [g] ↔ id = g.id := mem_singleton
    rw [hone]
    split
    case isTrue hlt =>
      rw [has_set hlt, h.bits]
      constructor
      · rintro (⟨hlt', hmem⟩ | rfl)
        · exact ⟨hlt', .inl hmem⟩
        · exact ⟨hlt, .inr rfl⟩
      · rintro ⟨hlt', hmem | rfl⟩
        · exact .inl ⟨hlt', hmem⟩
        · exact .inr rfl
    case isFalse hlt =>
      rw [h.bits]
      constructor
      · exact fun ⟨hlt', hmem⟩ => ⟨hlt', .inl hmem⟩
      · rintro ⟨hlt', hmem | rfl⟩
        · exact ⟨hlt', hmem⟩
        · exact absurd hlt' hlt
  count := by
    rw [h.count, length_append, length_singleton, BitVec.ofNat_add]
    rfl

@[simp] theorem ids_replaceFormat (g : Format) (fs : List Format) : ids (replaceFormat g fs) = ids fs := by
  induction fs with
  | nil => rfl
  | cons f fs ih =>
    unfold replaceFormat
    split
    case isTrue h => rw [ids_cons, ids_cons, h]
    case isFalse => rw [ids_cons, ids_cons, ih]

theorem Chained.replace (h : Chained seen fs) (hg : g.source = 0) : Chained seen (replaceFormat g fs) := by
  induction fs generalizing seen with
  | nil => trivial
  | cons f fs ih =>
    obtain ⟨hf, hrest⟩ := h
    unfold replaceFormat
    split
    case isTrue hid =>
      rw [hid] at hrest
      exact ⟨⟨hid ▸ hf.1, hid ▸ hf.2.1, .inl hg⟩, hrest⟩
    case isFalse => exact ⟨hf, ih hrest⟩

theorem Sound.replace (h : Sound fs n map) (hg : g.source = 0) : Sound (replaceFormat g fs) n map where
  chained := h.chained.replace hg
  bits id := by
    rw [ids_replaceFormat]
    exact h.bits id
  count := by
    have hlen := congrArg List.length (ids_replaceFormat g fs)
    rw [ids, ids, length_map, length_map] at hlen
    rw [hlen, h.count]

/-! Formats are synthesized. -/

/-- The formats that the loop adds for the entries of the table. -/
def made (memory : Memory) (map seqno : Word) (entries : List (Word × Word × Word)) : List Format :=
  entries.filterMap fun e =>
    (sourceOf map e).bind fun source =>
      if memory.format e.1 then some { id := e.1, source, seqno } else none

theorem mem_made : f ∈ made memory map seqno entries ↔
    ∃ e ∈ entries, ∃ source, sourceOf map e = some source ∧ memory.format e.1 = true ∧
      f = { id := e.1, source, seqno } := by
  unfold made
  rw [mem_filterMap]
  constructor
  · rintro ⟨e, he, hf⟩
    obtain ⟨source, hs, hf⟩ := Option.bind_eq_some_iff.mp hf
    split at hf
    case isTrue hm => exact ⟨e, he, source, hs, hm, (Option.some.inj hf).symm⟩
    case isFalse => cases hf
  · rintro ⟨e, he, source, hs, hm, rfl⟩
    exact ⟨e, he, by rw [hs, Option.bind_some, if_pos hm]⟩

variable (memory : Memory)

theorem ids_made_sublist (map seqno : Word) (entries : List (Word × Word × Word)) :
    (ids (made memory map seqno entries)).Sublist (entries.map (·.1)) := by
  induction entries with
  | nil => exact List.Sublist.slnil
  | cons e es ih =>
    unfold made
    rw [filterMap_cons]
    cases hs : sourceOf map e with
    | none => exact ih.cons _
    | some source =>
      split
      case h_1 => exact ih.cons _
      case h_2 b hb =>
        split at hb
        case isTrue =>
          rw [← Option.some.inj hb]
          exact ih.cons_cons _
        case isFalse => cases hb

@[simp] theorem addFormat_seqno (clip : Clipboard) (f : Format) : (addFormat clip f).seqno = clip.seqno := rfl

theorem foldl_synthesizeOne (map : Word) (entries : List (Word × Word × Word))
    (r : Word × Clipboard) :
    (entries.foldl (synthesizeOne memory map) r).2 =
      (made memory map r.2.seqno entries).foldl addFormat r.2 := by
  induction entries generalizing r with
  | nil => rfl
  | cons e es ih =>
    rw [foldl_cons, ih]
    unfold made synthesizeOne
    rw [filterMap_cons]
    cases sourceOf map e with
    | none => rfl
    | some source =>
      by_cases hm : memory.format e.1 = true
      · simp [hm]
      · simp only [hm]
        rfl

/-- What is added one after the other stands behind what was there. -/
theorem foldl_addFormat (gs : List Format) (clip : Clipboard) :
    (gs.foldl addFormat clip).formats = clip.formats ++ gs := by
  induction gs generalizing clip with
  | nil => exact (append_nil _).symm
  | cons g gs ih =>
    rw [foldl_cons, ih, addFormat, append_assoc]
    rfl

variable {clip : Clipboard}

theorem Clipboard.Sound.addAll (h : clip.Sound) (hnodup : (ids gs).Nodup)
    (hg : ∀ g ∈ gs, After (ids clip.formats) g) : (gs.foldl addFormat clip).Sound := by
  induction gs generalizing clip with
  | nil => exact h
  | cons g gs ih =>
    rw [ids_cons, nodup_cons] at hnodup
    have hone : (addFormat clip g).Sound := h.add (hg g mem_cons_self)
    refine ih hone hnodup.2 fun g' hg' => ?_
    obtain ⟨hid, hnew, hsource⟩ := hg g' (mem_cons_of_mem _ hg')
    have hids : ids (addFormat clip g).formats = ids clip.formats ++ [g.id] := ids_append ..
    have hother : g'.id ≠ g.id := fun heq => hnodup.1 (heq ▸ mem_ids.mpr ⟨g', hg', rfl⟩)
    rw [hids]
    refine ⟨hid, ?_, hsource.imp_right fun hs => ⟨mem_append_left _ hs.1, hs.2⟩⟩
    rw [mem_append, mem_singleton, not_or]
    exact ⟨hnew, hother⟩

theorem addLocale_cases (clip : Clipboard) :
    addLocale memory clip = clip ∨
      has clip.formatMap cfLocale = false ∧
        addLocale memory clip =
          { addFormat clip { id := cfLocale, seqno := clip.seqno, size := 4,
                             data := some (wordBytes clip.lcid) } with seqno := clip.seqno + 1 } := by
  unfold addLocale
  dsimp only
  split
  case isTrue h =>
    simp only [Bool.and_eq_true, Bool.not_eq_true'] at h
    exact .inr ⟨h.1.1.1, rfl⟩
  case isFalse => exact .inl rfl

theorem Clipboard.Sound.not_mem (h : clip.Sound) (hid : id < cfMax)
    (hmap : has clip.formatMap id = false) : id ∉ ids clip.formats := by
  intro hmem
  rw [(h.bits id).mpr ⟨hid, hmem⟩] at hmap
  cases hmap

theorem Clipboard.Sound.addLocale (h : clip.Sound) (memory : Memory) :
    (addLocale memory clip).Sound := by
  rcases addLocale_cases memory clip with heq | ⟨hmap, heq⟩
  · rw [heq]
    exact h
  · rw [heq]
    have hid : cfLocale ≠ 0 := by decide
    have hlow : cfLocale < cfMax := by decide
    exact h.add ⟨hid, h.not_mem hlow hmap, .inl rfl⟩

theorem addLocale_ids (clip : Clipboard) :
    ids clip.formats ⊆ ids (addLocale memory clip).formats ∧
      ids (addLocale memory clip).formats ⊆ ids clip.formats ++ [cfLocale] := by
  rcases addLocale_cases memory clip with heq | ⟨-, heq⟩
  · rw [heq]
    exact ⟨List.Subset.refl _, subset_append_left _ _⟩
  · rw [heq]
    change _ ⊆ ids (clip.formats ++ [_]) ∧ ids (clip.formats ++ [_]) ⊆ _
    rw [ids_append]
    exact ⟨subset_append_left _ _, List.Subset.refl _⟩

theorem sourceOf_some (h : sourceOf map e = some source) :
    has map e.1 = false ∧ has map source = true := by
  unfold sourceOf at h
  split at h
  case isTrue => cases h
  case isFalse h1 =>
    have h1 : has map e.1 = false := by simpa using h1
    split at h
    case isTrue h2 =>
      obtain rfl := Option.some.inj h
      exact ⟨h1, h2⟩
    case isFalse =>
      split at h
      case isTrue h3 =>
        obtain rfl := Option.some.inj h
        exact ⟨h1, h3.2⟩
      case isFalse => cases h

theorem synthesize_eq (clip : Clipboard) :
    (synthesize memory clip).2 =
      (made memory clip.formatMap (addLocale memory clip).seqno synthesized).foldl addFormat
        (addLocale memory clip) := foldl_synthesizeOne ..

/-- The ids of the table are real ones, below the largest, and none is the locale. -/
theorem synthesized_ids : (synthesized.map (·.1)).Nodup ∧
    ∀ e ∈ synthesized, e.1 ≠ 0 ∧ e.1 < cfMax ∧ e.1 ≠ cfLocale := by
  have hall : synthesized.all (fun e => decide (e.1 ≠ 0 ∧ e.1 < cfMax ∧ e.1 ≠ cfLocale)) = true := by decide
  exact ⟨by decide, fun e he => of_decide_eq_true (all_eq_true.mp hall e he)⟩

theorem Clipboard.Sound.made (h : clip.Sound) (memory : Memory) :
    (synthesize memory clip).2.Sound := by
  rw [synthesize_eq]
  refine (h.addLocale memory).addAll ((ids_made_sublist ..).nodup synthesized_ids.1) fun g hg => ?_
  obtain ⟨e, he, source, hs, -, rfl⟩ := mem_made.mp hg
  obtain ⟨hmap, hsource⟩ := sourceOf_some hs
  obtain ⟨hid, hlt, hlocale⟩ := synthesized_ids.2 e he
  obtain ⟨hlow, hmem⟩ := (h.bits source).mp hsource
  obtain ⟨hsub, hsup⟩ := addLocale_ids memory clip
  refine ⟨hid, fun hmem => ?_, .inr ⟨hsub hmem, hlow, rfl⟩⟩
  rcases mem_append.mp (hsup hmem) with hmem | hmem
  · exact h.not_mem hlt hmap hmem
  · exact hlocale (mem_singleton.mp hmem)

theorem Clipboard.Sound.close (h : clip.Sound) (memory : Memory) :
    (closeLocked memory clip).2.Sound := by
  unfold closeLocked
  dsimp only
  split
  case isTrue => exact h
  case isFalse =>
    have hclosed : Clipboard.Sound { clip with openWin := 0, openTid := 0 } := h
    have hsynth := hclosed.made memory
    split
    · exact hsynth
    · exact hsynth

/-! An owner is released. -/

/-- The format has data, or is made from one of the formats for which that holds. -/
inductive Backed (formats : List Format) : Format → Prop where
  | data : f.data.isSome = true → Backed formats f
  | source : s ∈ formats → f.source ≠ 0 → s.id = f.source → Backed formats s → Backed formats f

theorem Backed.mono (hsub : fs ⊆ gs) (h : Backed fs f) : Backed gs f := by
  induction h with
  | data hdata => exact .data hdata
  | source hs hne hid _ ih => exact .source (hsub hs) hne hid ih

theorem Mapped.drop (h : Mapped (pre ++ f :: rest) map) (hnot : f.id ∉ ids (pre ++ rest)) :
    Mapped (pre ++ rest) (if f.id < cfMax then map &&& ~~~(1#32 <<< f.id.toNat) else map) := by
  have hmem : ∀ id, id ∈ ids (pre ++ f :: rest) ↔ id = f.id ∨ id ∈ ids (pre ++ rest) := by
    intro id
    rw [ids_append, ids_append, ids_cons, mem_append, mem_cons, mem_append]
    exact or_left_comm
  intro id
  split
  case isTrue hlt =>
    rw [has_clear hlt, h, hmem]
    constructor
    · rintro ⟨⟨hid, heq | hin⟩, hne⟩
      · exact absurd heq hne
      · exact ⟨hid, hin⟩
    · rintro ⟨hid, hin⟩
      exact ⟨⟨hid, .inr hin⟩, fun heq => hnot (heq ▸ hin)⟩
  case isFalse hlt =>
    rw [h, hmem]
    constructor
    · rintro ⟨hid, heq | hin⟩
      · exact absurd (heq ▸ hid) hlt
      · exact ⟨hid, hin⟩
    · rintro ⟨hid, hin⟩
      exact ⟨hid, .inr hin⟩

/-- What the loop makes of the formats left, behind those `pre` that it kept. -/
structure Released (pre rest : List Format) (r : List Format × Word × Nat) : Prop where
  chained : Chained [] (pre ++ r.1)
  mapped : Mapped (pre ++ r.1) r.2.1
  length : r.1.length + r.2.2 = rest.length
  backed : ∀ f ∈ pre ++ r.1, Backed (pre ++ r.1) f

theorem releaseLoop_spec (hrest : Chained seen rest) (hkept : Chained [] pre) (hseen : ids pre ⊆ seen)
    (h : Mapped (pre ++ rest) map) (hpre : ∀ f ∈ pre, Backed pre f) :
    Released pre rest (releaseLoop map rest) := by
  -- along the formats left; what was kept has its source among what was kept before
  induction rest generalizing pre map seen with
  | nil =>
    rw [releaseLoop]
    refine ⟨?_, h, rfl, ?_⟩
    · rw [append_nil]
      exact hkept
    · rw [append_nil]
      exact hpre
  | cons f rest ih =>
    obtain ⟨⟨hid, hnew, hsource⟩, hchain⟩ := hrest
    have hfresh := hchain.fresh.2
    simp only [mem_append, mem_singleton, not_or] at hfresh
    unfold releaseLoop
    split
    case isTrue hkeep =>
      -- a source that the map still has stands before its format
      have hfound : f.source = 0 ∨ f.source ∈ ids pre ∧ f.source < cfMax ∧ f.data = none := by
        refine hsource.imp_right fun ⟨hs, hlow, hnone⟩ => ⟨?_, hlow, hnone⟩
        rw [hnone] at hkeep
        obtain ⟨-, hmap⟩ := hkeep.resolve_left nofun
        have hmem := ((h f.source).mp hmap).2
        rw [ids_append, ids_cons, mem_append, mem_cons] at hmem
        rcases hmem with hmem | heq | hmem
        · exact hmem
        · exact absurd (heq ▸ hs) hnew
        · exact absurd hs (hfresh _ hmem).2.1
      have hone : Backed (pre ++ [f]) f := by
        rcases hkeep with hdata | ⟨hne, -⟩
        · exact .data hdata
        · obtain ⟨s, hs, hid⟩ := mem_ids.mp (hfound.resolve_left hne).1
          exact .source (mem_append_left _ hs) hne hid ((hpre s hs).mono (subset_append_left _ _))
      have hall : ∀ g ∈ pre ++ [f], Backed (pre ++ [f]) g := by
        refine forall_mem_append.mpr ⟨fun g hg => ?_, forall_mem_singleton.mpr hone⟩
        exact (hpre g hg).mono (subset_append_left _ _)
      have hlast : Chained [] (pre ++ [f]) :=
        chained_append.mpr ⟨hkept, ⟨hid, fun hmem => hnew (hseen hmem), hfound⟩, trivial⟩
      have hmore : ids (pre ++ [f]) ⊆ seen ++ [f.id] := by
        rw [ids_append]
        exact append_subset.mpr ⟨fun _ hmem => mem_append_left _ (hseen hmem), subset_append_right _ _⟩
      rw [append_cons] at h
      obtain ⟨hchained, hmapped, hlen, hbacked⟩ := ih hchain hlast hmore h hall
      rw [← append_cons] at hchained hmapped hbacked
      refine ⟨hchained, hmapped, ?_, hbacked⟩
      rw [length_cons, length_cons, Nat.add_right_comm]
      exact congrArg (· + 1) hlen
    case isFalse =>
      have hnot : f.id ∉ ids (pre ++ rest) := by
        rw [ids_append, mem_append, not_or]
        exact ⟨fun hmem => hnew (hseen hmem), fun hmem => (hfresh _ hmem).2.2 rfl⟩
      obtain ⟨hchained, hmapped, hlen, hbacked⟩ :=
        ih hchain hkept (fun _ hmem => mem_append_left _ (hseen hmem)) (h.drop hnot) hpre
      exact ⟨hchained, hmapped, congrArg (· + 1) hlen, hbacked⟩

theorem releaseLocked_frame (clip : Clipboard) :
    (releaseLocked clip).2.formats = (releaseLoop clip.formatMap clip.formats).1 ∧
      (releaseLocked clip).2.formatMap = (releaseLoop clip.formatMap clip.formats).2.1 ∧
      (releaseLocked clip).2.formatCount =
        clip.formatCount - BitVec.ofNat 32 (releaseLoop clip.formatMap clip.formats).2.2 := by
  unfold releaseLocked
  dsimp only
  split <;> exact ⟨rfl, rfl, rfl⟩

abbrev Clipboard.Backed (clip : Clipboard) : Prop := ∀ f ∈ clip.formats, Clip.Backed clip.formats f

theorem Clipboard.Sound.release (h : clip.Sound) :
    (releaseLocked clip).2.Sound ∧ (releaseLocked clip).2.Backed := by
  obtain ⟨hformats, hmap, hcount⟩ := releaseLocked_frame clip
  have hspec : Released [] clip.formats (releaseLoop clip.formatMap clip.formats) :=
    releaseLoop_spec h.chained trivial (nil_subset _) h.bits nofun
  obtain ⟨hchained, hmapped, hlen, hbacked⟩ := hspec
  rw [Clipboard.Sound, Clipboard.Backed, hformats, hmap, hcount]
  refine ⟨⟨hchained, hmapped, ?_⟩, hbacked⟩
  rw [h.count, ← hlen, BitVec.ofNat_add, BitVec.add_sub_cancel]

/-- What closing adds is a locale with its data, or made from a format that was there. -/
theorem Clipboard.Backed.made (h : clip.Sound) (hb : clip.Backed) (memory : Memory) :
    (synthesize memory clip).2.Backed := by
  have hlocale : (addLocale memory clip).Backed := by
    rcases addLocale_cases memory clip with heq | ⟨-, heq⟩
    · rw [heq]
      exact hb
    · rw [heq]
      refine forall_mem_append.mpr ⟨fun f hf => ?_, forall_mem_singleton.mpr (.data rfl)⟩
      exact (hb f hf).mono (subset_append_left _ _)
  rw [synthesize_eq, Clipboard.Backed, foldl_addFormat]
  intro f hf
  rcases mem_append.mp hf with hf | hf
  · exact (hlocale f hf).mono (subset_append_left _ _)
  · obtain ⟨e, -, source, hs, -, rfl⟩ := mem_made.mp hf
    obtain ⟨-, hsource⟩ := sourceOf_some hs
    have hmem := (addLocale_ids memory clip).1 ((h.bits source).mp hsource).2
    obtain ⟨s, hin, hid⟩ := mem_ids.mp hmem
    have hne := (h.chained.fresh.2 source ((h.bits source).mp hsource).2).1
    exact .source (mem_append_left _ hin) hne hid ((hlocale s hin).mono (subset_append_left _ _))

theorem Clipboard.Backed.close (h : clip.Sound) (hb : clip.Backed) (memory : Memory) :
    (closeLocked memory clip).2.Backed := by
  unfold closeLocked
  dsimp only
  split
  case isTrue => exact hb
  case isFalse =>
    have hclosed : Clipboard.Sound { clip with openWin := 0, openTid := 0 } := h
    have hsynth := Clipboard.Backed.made hclosed hb memory
    split
    · exact hsynth
    · exact hsynth

/-! The operations. -/

def Same (clip clip' : Clipboard) : Prop :=
  clip'.formats = clip.formats ∧ clip'.formatCount = clip.formatCount ∧ clip'.formatMap = clip.formatMap

theorem Same.refl (clip : Clipboard) : Same clip clip := ⟨rfl, rfl, rfl⟩

theorem Same.sound {clip' : Clipboard} (hsame : Same clip clip') (h : clip.Sound) : clip'.Sound := by
  rw [Clipboard.Sound, hsame.1, hsame.2.1, hsame.2.2]
  exact h

theorem openClip_same (clip : Clipboard) (tid win : Word) : Same clip (openClip clip tid win).2.2 := by
  unfold openClip
  split
  · exact .refl clip
  · dsimp only
    split <;> split <;> exact ⟨rfl, rfl, rfl⟩

theorem doneRendering_same (clip : Clipboard) (render : Bool) : Same clip (doneRendering clip render) := by
  unfold doneRendering
  split <;> exact ⟨rfl, rfl, rfl⟩

theorem getData_same (clip : Clipboard) (tid id : Word) (render cached : Bool) (seqno replyMax : Word) :
    Same clip (getData clip tid id render cached seqno replyMax).2.2 := by
  unfold getData
  split
  · exact .refl clip
  split
  · exact doneRendering_same clip render
  split
  · split <;> exact ⟨rfl, rfl, rfl⟩
  split
  · exact doneRendering_same clip render
  split
  · exact .refl clip
  · exact doneRendering_same clip render

theorem setViewer_same (clip : Clipboard) (viewer previous : Word) :
    Same clip (setViewer clip viewer previous).2.2.2 := by
  unfold setViewer
  split <;> exact ⟨rfl, rfl, rfl⟩

theorem addListener_same (clip : Clipboard) (win : Word) :
    Same clip (addListener memory clip win).2 := by
  unfold addListener
  split
  · exact .refl clip
  · split <;> exact ⟨rfl, rfl, rfl⟩

theorem Clipboard.Sound.empty (h : clip.Sound) (tid : Word) : (empty clip tid).2.Sound := by
  unfold Clip.empty
  split
  · exact h
  · exact Clipboard.Sound.start

/-- Setting data does nothing to the formats, fills the one with that id or adds it. -/
theorem setData_cases (clip : Clipboard) (id lcid : Word) (data : List UInt8) :
    Same clip (setData memory clip id lcid data).2.2 ∨
      id ≠ 0 ∧ ∃ format : Format, format.id = id ∧ format.source = 0 ∧
        (Same { clip with formats := replaceFormat format clip.formats }
            (setData memory clip id lcid data).2.2 ∨
          getFormat clip id = none ∧ Same (addFormat clip format) (setData memory clip id lcid data).2.2) := by
  unfold setData
  split
  case isTrue => exact .inl (.refl clip)
  case isFalse hopen =>
    split
    case isTrue => exact .inl (.refl clip)
    case isFalse =>
      have hid : id ≠ 0 := fun hz => hopen (.inl hz)
      dsimp only
      generalize (if data = [] then none else some data) = contents
      let format : Format :=
        { id, seqno := clip.seqno, size := BitVec.ofNat 32 data.length, data := contents }
      cases hget : getFormat clip id with
      | some old =>
        refine .inr ⟨hid, format, rfl, rfl, .inl ?_⟩
        dsimp only
        split <;> split <;> exact ⟨rfl, rfl, rfl⟩
      | none =>
        by_cases hm : memory.format id = true
        · refine .inr ⟨hid, format, rfl, rfl, .inr ⟨rfl, ?_⟩⟩
          rw [if_pos hm]
          dsimp only
          split <;> split <;> exact ⟨rfl, rfl, rfl⟩
        · rw [if_neg hm]
          exact .inl (.refl clip)

variable {memory}

theorem getFormat_none (h : getFormat clip id = none) : id ∉ ids clip.formats := by
  intro hmem
  obtain ⟨f, hf, hid⟩ := mem_ids.mp hmem
  have := List.find?_eq_none.mp h f hf
  exact this (decide_eq_true hid)

theorem Clipboard.Sound.setData (h : clip.Sound) (memory : Memory) (id lcid : Word)
    (data : List UInt8) : (setData memory clip id lcid data).2.2.Sound := by
  rcases setData_cases memory clip id lcid data with hsame | ⟨hid, f, rfl, hsource, hcase⟩
  · exact hsame.sound h
  rcases hcase with hsame | ⟨hget, hsame⟩
  · exact hsame.sound (h.replace hsource)
  · exact hsame.sound (h.add ⟨hid, getFormat_none hget, .inl hsource⟩)

/-- A window that goes away leaves the clipboard sound; as the owner it takes the formats without data along. -/
theorem windowDestroyed_sound (h : clip.Sound) (memory : Memory) (win : Word) :
    (windowDestroyed memory clip win).2.Sound ∧
      (clip.owner = win → (windowDestroyed memory clip win).2.Backed) := by
  unfold windowDestroyed
  dsimp only
  generalize hseen : (if (removeListener clip win).2.viewer = win then
    { (removeListener clip win).2 with viewer := 0 } else (removeListener clip win).2) = seen
  have hsame : Same clip seen ∧ seen.owner = clip.owner := by
    rw [← hseen]
    split <;> exact ⟨⟨rfl, rfl, rfl⟩, rfl⟩
  have hsound := hsame.1.sound h
  rw [← hsame.2]
  split
  case isTrue howner =>
    obtain ⟨hreleased, hbacked⟩ := hsound.release
    split
    · exact ⟨hreleased.close memory, fun _ => Clipboard.Backed.close hreleased hbacked memory⟩
    · exact ⟨hreleased, fun _ => hbacked⟩
  case isFalse howner =>
    split
    · exact ⟨hsound.close memory, fun heq => absurd heq howner⟩
    · exact ⟨hsound, fun heq => absurd heq howner⟩

theorem step_sound (clip : Clipboard) (op : Op) (h : clip.Sound) : (step clip op).Sound := by
  cases op with
  | openClip tid win known =>
    rw [step]
    split
    · exact h
    · exact (openClip_same clip tid win).sound h
  | close tid memory =>
    rw [step]
    split
    · exact h
    · exact h.close memory
  | empty tid => exact h.empty tid
  | setData tid id lcid data memory => exact h.setData memory id lcid data
  | getData tid id render cached seqno replyMax =>
    exact (getData_same clip tid id render cached seqno replyMax).sound h
  | release win known =>
    rw [step]
    split
    · exact h
    · exact h.release.1
  | setViewer viewer previous => exact (setViewer_same clip viewer previous).sound h
  | addListener win memory => exact (addListener_same memory clip win).sound h
  | removeListener win => exact h
  | windowDestroyed win memory =>
    rw [step]
    split
    · exact h
    · exact (windowDestroyed_sound h memory win).1
  | threadEnded tid memory =>
    rw [step, threadEnded]
    split
    · exact h
    · exact h.close memory

theorem step_releases {op : Op} (h : clip.Sound) (hop : op.Releases clip) :
    (step clip op).Backed := by
  cases op with
  | release win known =>
    obtain ⟨hknown, hwin, howner⟩ := hop
    have hgo : ¬ (known = false ∨ win = 0 ∨ clip.owner ≠ win) := by
      rintro (hunknown | hzero | hother)
      · rw [hknown] at hunknown
        cases hunknown
      · exact hwin hzero
      · exact hother howner
    rw [step, if_neg hgo]
    exact h.release.2
  | windowDestroyed win memory =>
    rw [step, if_neg hop.1]
    exact (windowDestroyed_sound h memory win).2 hop.2
  | _ => exact absurd hop id

theorem run_sound (ops : List Op) : (run step {} ops).Sound := run_invariant step_sound .start ops

/-- Fewer formats than there are ids: the count does not wrap. -/
theorem Clipboard.Sound.count_eq (h : clip.Sound) :
    clip.formatCount.toNat = clip.formats.length := by
  obtain ⟨hnodup, hfresh⟩ := h.chained.fresh
  have hnodup : ((0 : Word) :: ids clip.formats).Nodup :=
    nodup_cons.mpr ⟨fun hz => (hfresh 0 hz).1 rfl, hnodup⟩
  have hinj : (((0 : Word) :: ids clip.formats).map BitVec.toNat).Nodup :=
    hnodup.map fun _ _ heq => BitVec.eq_of_toNat_eq heq
  have hsub : ((0 : Word) :: ids clip.formats).map BitVec.toNat ⊆ List.range 4294967296 := by
    intro n hn
    obtain ⟨id, -, rfl⟩ := mem_map.mp hn
    exact mem_range.mpr id.isLt
  have hlen := (subperm_of_subset hinj hsub).length_le
  rw [length_map, length_cons, length_range, ids, length_map] at hlen
  rw [h.count, BitVec.toNat_ofNat]
  exact Nat.mod_eq_of_lt (by omega)

theorem Clipboard.Sound.before (h : clip.Sound) (heq : clip.formats = pre ++ f :: post)
    (hne : f.source ≠ 0) : ∃ s ∈ pre, s.id = f.source := by
  have hchained := h.chained
  rw [heq, chained_append] at hchained
  obtain ⟨-, ⟨-, -, hsource⟩, -⟩ := hchained
  exact mem_ids.mp (hsource.resolve_left hne).1

/-- In every run from an empty clipboard the count and the map are those of the list, whose ids differ and in
which a synthesized format stands after its source; and what a released owner leaves can be rendered. -/
theorem clipboard_bookkeeping (ops : List Op) :
    let clip := run step {} ops
    (clip.formats.map (·.id)).Nodup ∧
      clip.formatCount.toNat = clip.formats.length ∧
      (∀ id : Word, has clip.formatMap id = true ↔ id < cfMax ∧ ∃ f ∈ clip.formats, f.id = id) ∧
      (∀ pre f post, clip.formats = pre ++ f :: post → f.source ≠ 0 → ∃ s ∈ pre, s.id = f.source) ∧
      ∀ op : Op, op.Releases clip → ∀ f ∈ (step clip op).formats, Backed (step clip op).formats f := by
  intro clip
  have h : clip.Sound := run_sound ops
  refine ⟨h.chained.fresh.1, h.count_eq, fun id => ?_, fun _ _ _ heq hne => h.before heq hne, fun _ hop => ?_⟩
  · rw [h.bits, mem_ids]
  · exact step_releases h hop

/-- What comes next, after any format or at the start. -/
def nextId (formats : List Format) : Word := (formats.head?.map (·.id)).getD 0

theorem enumFormats_next {clip : Clipboard} (h : clip.Sound) (heq : clip.formats = pre ++ f :: post) :
    f.id ≠ 0 ∧ (enumFormats clip clip.openTid f.id).2 = nextId post := by
  obtain ⟨hnodup, hfresh⟩ := h.chained.fresh
  rw [heq] at hnodup hfresh
  have hzero : f.id ≠ 0 := (hfresh f.id (by simp [ids])).1
  have hpre : ∀ g ∈ pre, decide (g.id ≠ f.id) = true := fun g hg => by
    rw [ids, map_append] at hnodup
    exact decide_eq_true fun he => disjoint_of_nodup_append hnodup (mem_map_of_mem hg) (he ▸ mem_cons_self)
  refine ⟨hzero, ?_⟩
  unfold enumFormats
  rw [if_neg (not_not.mpr rfl), if_neg hzero, heq, dropWhile_append_of_pos hpre]
  simp [nextId]

/-- From any place of the list on the walk gives the rest. -/
theorem enumerate_rest {clip : Clipboard} (h : clip.Sound) (heq : clip.formats = pre ++ post) {previous : Word}
    (hnext : (enumFormats clip clip.openTid previous).2 = nextId post) :
    enumerate clip clip.openTid (post.length + 1) previous = some (ids post) := by
  induction post generalizing pre previous with
  | nil => simp [enumerate, hnext, nextId]
  | cons f post ih =>
    obtain ⟨hzero, hf⟩ := enumFormats_next h heq
    have hrest := ih (heq.trans (append_cons pre f post)) hf
    have hid : nextId (f :: post) = f.id := rfl
    rw [length_cons, enumerate, hnext, hid, if_neg hzero, hrest]
    rfl

/-- In every run, a thread that has the clipboard open and asks for one format after the other gets
each of them once, in their order, and then 0. -/
theorem enumeration_complete (ops : List Op) :
    let clip := run step {} ops
    enumerate clip clip.openTid (clip.formats.length + 1) 0 = some (clip.formats.map (·.id)) := by
  intro clip
  exact enumerate_rest (run_sound ops) (nil_append _).symm (by simp [enumFormats, nextId])

end Autorun.Server.Clip
