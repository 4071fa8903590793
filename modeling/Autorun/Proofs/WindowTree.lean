import Mathlib.Data.List.Nodup
import Mathlib.Data.Set.Finite.List
import Autorun.Lib.Ends
import Autorun.Server.WindowTree
import Autorun.Proofs.WindowOrder

namespace Autorun.Server.WindowTree

open WindowOrder Autorun.Lib Function List

variable {s s' : Session} {windows : List Window} {w parent ptr : Window} {h : Nat}

/-- A window under the handle `c` has the parent `p`. -/
def ParentOf (windows : List Window) (p c : Nat) : Prop := ∃ w ∈ windows, w.handle = c ∧ w.parent = p

def AtOrBelow (windows : List Window) (w other : Window) : Prop :=
  Relation.ReflTransGen (ParentOf windows) other.handle w.handle

/-- Windows that are told apart by their handles, with no cycle of parents. -/
structure Rooted (windows : List Window) : Prop where
  nodup : (windows.map (·.handle)).Nodup
  pos : ∀ w ∈ windows, w.handle ≠ 0
  ends : WellFounded (ParentOf windows)

namespace Rooted

theorem unique (hr : Rooted windows) (hw : w ∈ windows) (hp : parent ∈ windows)
    (he : w.handle = parent.handle) : w = parent :=
  inj_on_of_nodup_map hr.nodup hw hp he

theorem find (hr : Rooted windows) : findWindow windows h = some w ↔ w ∈ windows ∧ w.handle = h := by
  unfold findWindow
  constructor
  · intro hf
    exact ⟨mem_of_find?_eq_some hf, by simpa using List.find?_some hf⟩
  · rintro ⟨hw, rfl⟩
    cases hf : windows.find? (·.handle = w.handle) with
    | none => simpa using List.find?_eq_none.mp hf w hw
    | some u =>
      rw [hr.unique (mem_of_find?_eq_some hf) hw (by simpa using List.find?_some hf)]

theorem above_some (hr : Rooted windows) :
    above windows ptr = some w ↔ w ∈ windows ∧ w.handle = ptr.parent := by
  unfold above
  split
  · exact hr.find
  · rename_i h0
    refine ⟨nofun, fun ⟨hw, he⟩ => absurd (he.trans (by simpa using h0)) (hr.pos w hw)⟩

theorem above_none (hr : Rooted windows) (hn : above windows ptr = none) (hw : w ∈ windows) :
    w.handle ≠ ptr.parent := by
  intro he
  cases hn.symm.trans (hr.above_some.mpr ⟨hw, he⟩)

theorem climb (hr : Rooted windows) {P : Window → Prop}
    (hP : ∀ w ∈ windows, (∀ u, above windows w = some u → P u) → P w) : ∀ w ∈ windows, P w := by
  suffices ∀ h w, w ∈ windows → w.handle = h → P w from fun w hw => this w.handle w hw rfl
  intro h
  induction h using hr.ends.induction with
  | _ h ih =>
    intro w hw he
    refine hP w hw fun u hu => ?_
    obtain ⟨hu, hup⟩ := hr.above_some.mp hu
    exact ih u.handle ⟨w, hw, he, hup.symm⟩ u hu rfl

theorem parents_end (hr : Rooted windows) :
    ∀ w ∈ windows, ∃ turns handles, windowParents windows turns w = some handles := by
  refine hr.climb fun w hw ih => ?_
  cases hu : above windows w with
  | none =>
    refine ⟨1, if w.parent = 0 then [] else [w.parent], ?_⟩
    unfold above at hu
    by_cases h0 : w.parent = 0 <;> simp_all [windowParents]
  | some u =>
    obtain ⟨n, handles, heq⟩ := ih u hu
    refine ⟨n + 1, w.parent :: handles, ?_⟩
    unfold above at hu
    by_cases h0 : w.parent = 0 <;> simp_all [windowParents]

theorem rects_end (hr : Rooted windows) (g : Geometry) :
    ∀ w ∈ windows, Eventually fun turns => ∀ rects, ∃ rects', screenRects g windows turns w rects = some rects' := by
  refine hr.climb fun w hw ih => Eventually.succ ?_
  unfold screenRects
  cases hu : above windows w with
  | none => simp [Eventually]
  | some u =>
    obtain ⟨n, hn⟩ := ih u hu
    exact ⟨n, fun turns ht rects => hn turns ht _⟩

theorem meets_ends (hr : Rooted windows) (w : Window) :
    ∀ ptr ∈ windows, ∃ turns met, meets windows w turns ptr = some met := by
  refine hr.climb fun ptr hptr ih => ?_
  cases hu : above windows ptr with
  | none => exact ⟨1, if ptr.handle = w.handle then true else false, by simp only [meets, hu]; split <;> rfl⟩
  | some u =>
    obtain ⟨n, met, heq⟩ := ih u hu
    exact ⟨n + 1, if ptr.handle = w.handle then true else met, by simp only [meets, hu, heq]; split <;> rfl⟩

/-- The loop of `set_parent` tells whether the new parent is the window or below it. -/
theorem meets_iff (hr : Rooted windows) (hw : w ∈ windows) (hptr : ptr ∈ windows)
    (hmet : meets windows w turns ptr = some met) : met = true ↔ AtOrBelow windows ptr w := by
  induction turns generalizing ptr with
  | zero => cases hmet
  | succ turns ih =>
    unfold meets at hmet
    by_cases he : ptr.handle = w.handle
    · rw [if_pos he] at hmet
      cases hmet
      simp only [AtOrBelow, he, Relation.ReflTransGen.refl]
    · have hup : AtOrBelow windows ptr w ↔ Relation.ReflTransGen (ParentOf windows) w.handle ptr.parent := by
        constructor
        · intro hb
          rcases hb.cases_tail with heq | ⟨p, hb, u, hu, huh, rfl⟩
          · exact absurd heq he
          · rwa [hr.unique hu hptr huh] at hb
        · exact fun hb => hb.tail ⟨ptr, hptr, rfl, rfl⟩
      rw [if_neg he] at hmet
      rw [hup]
      split at hmet
      case h_1 u hu =>
        obtain ⟨hu, hup⟩ := hr.above_some.mp hu
        rw [← hup]
        exact ih hu hmet
      case h_2 hu =>
        cases hmet
        refine iff_of_false (by simp) fun hb => ?_
        rcases hb.cases_tail with heq | ⟨p, -, u, hu', huh, -⟩
        · exact hr.above_none hu hw heq.symm
        · exact hr.above_none hu hu' huh

theorem children_end (hr : Rooted windows) : WellFounded (flip (ParentOf windows)) := by
  refine flip_wellFounded hr.ends (finite_toSet (windows.map (·.handle))) ?_
  rintro p c ⟨u, hu, rfl, -⟩
  exact mem_map_of_mem hu

theorem fold_ends {f : List Nat → Window → Option (List Nat)} (l : List Window)
    (hf : ∀ u ∈ l, ∀ handles, ∃ handles', f handles u = some handles') (handles : List Nat) :
    ∃ handles', l.foldlM f handles = some handles' := by
  induction l generalizing handles with
  | nil => exact ⟨handles, rfl⟩
  | cons u l ih =>
    obtain ⟨h1, heq⟩ := hf u (by simp) handles
    obtain ⟨h2, heq2⟩ := ih (fun v hv => hf v (by simp [hv])) h1
    exact ⟨h2, by simp [heq, heq2]⟩

theorem point_ends (hr : Rooted windows) (g : Geometry) (x y : Int) (w : Window) (hw : w ∈ windows) :
    Eventually fun turns => ∀ handles, ∃ handles', windowsFromPoint g windows x y turns w handles = some handles' := by
  suffices ∀ h w, w ∈ windows → w.handle = h →
      Eventually fun turns => ∀ handles, ∃ handles', windowsFromPoint g windows x y turns w handles = some handles' from
    this w.handle w hw rfl
  intro h
  induction h using hr.children_end.induction with
  | _ h ih =>
    rintro w hw rfl
    have hchildren : Eventually fun turns => ∀ u ∈ windows, u.parent = w.handle →
        ∀ handles, ∃ handles', windowsFromPoint g windows x y turns u handles = some handles' := by
      refine Eventually.list windows fun u hu => ?_
      by_cases hp : u.parent = w.handle
      · obtain ⟨n, hn⟩ := ih u.handle ⟨u, hu, rfl, hp⟩ u hu rfl
        exact ⟨n, fun turns ht _ => hn turns ht⟩
      · exact ⟨0, fun _ _ h => absurd h hp⟩
    obtain ⟨n, hn⟩ := hchildren.and (hr.rects_end g w hw)
    refine Eventually.succ ⟨n, fun turns ht handles => ?_⟩
    obtain ⟨rects, hrects⟩ := (hn (turns + 1) (by omega)).2 (g.windowRect w, g.clientRect w)
    rw [windowsFromPoint, hrects]
    obtain ⟨h1, heq⟩ := fold_ends (f := fun handles child =>
      if child.parent ≠ w.handle ∨ g.visible child = false then some handles
      else windowsFromPoint g windows x y turns child handles) windows
      (fun u hu handles => by
        split
        · exact ⟨handles, rfl⟩
        · rename_i hin
          exact (hn turns ht).1 u hu (by tauto) handles) handles
    simp only [Option.bind_eq_bind, Option.bind_some]
    split
    · exact ⟨handles, rfl⟩
    · split
      · exact ⟨_, by rw [heq]; rfl⟩
      · exact ⟨_, rfl⟩

theorem sublist (hr : Rooted windows) (hsub : windows'.Sublist windows) : Rooted windows' where
  nodup := hr.nodup.sublist (hsub.map _)
  pos := fun w hw => hr.pos w (hsub.subset hw)
  ends := Subrelation.wf (fun ⟨u, hu, hc⟩ => ⟨u, hsub.subset hu, hc⟩) hr.ends

theorem cons (hr : Rooted windows) (hpos : w.handle ≠ 0) (hown : w.parent ≠ w.handle)
    (hfresh : ∀ u ∈ windows, u.handle ≠ w.handle ∧ u.parent ≠ w.handle) : Rooted (w :: windows) where
  nodup := by
    rw [map_cons, nodup_cons]
    refine ⟨fun hmem => ?_, hr.nodup⟩
    obtain ⟨u, hu, he⟩ := mem_map.mp hmem
    exact (hfresh u hu).1 he
  pos := forall_mem_cons.mpr ⟨hpos, hr.pos⟩
  ends := by
    refine redirect_wellFounded (a := w.handle) (b := w.parent) hr.ends (fun hb => ?_) fun p c hc => ?_
    · rcases hb.cases_head with he | ⟨c, ⟨u, hu, -, hup⟩, -⟩
      · exact hown he.symm
      · exact (hfresh u hu).2 hup
    · obtain ⟨u, hu, rfl, rfl⟩ := hc
      rcases mem_cons.mp hu with rfl | hu
      · exact .inr ⟨rfl, rfl⟩
      · exact .inl ⟨u, hu, rfl, rfl⟩

theorem perm (hr : Rooted windows) (hperm : windows.Perm windows') : Rooted windows' where
  nodup := (hperm.map _).nodup_iff.mp hr.nodup
  pos := fun w hw => hr.pos w (hperm.mem_iff.mpr hw)
  ends := Subrelation.wf (fun ⟨u, hu, hc⟩ => ⟨u, hperm.mem_iff.mpr hu, hc⟩) hr.ends

theorem reparent (hr : Rooted windows) (hperm : windows.Perm (w :: rest)) (hclear : ¬ AtOrBelow windows parent w)
    (topmost : Bool) : Rooted ({ w with parent := parent.handle, topmost } :: rest) where
  nodup := (hperm.map _).nodup_iff.mp hr.nodup
  pos := forall_mem_cons.mpr (forall_mem_cons.mp (hr.perm hperm).pos)
  ends := by
    refine redirect_wellFounded hr.ends hclear ?_
    rintro q c ⟨u, hu, rfl, rfl⟩
    rcases mem_cons.mp hu with rfl | hu
    · exact .inr ⟨rfl, rfl⟩
    · exact .inl ⟨u, hperm.mem_iff.mpr (mem_cons_of_mem _ hu), rfl, rfl⟩

theorem link_perm (hr : Rooted windows) (hw : w ∈ windows) (p : Nat) :
    ∃ rest topmost, windows.Perm (w :: rest) ∧
      (linkWindow windows { w with parent := p } linkTop).Perm ({ w with parent := p, topmost } :: rest) := by
  obtain ⟨as, bs, rfl⟩ := append_of_mem hw
  have hlink : linkWindow (as ++ w :: bs) { w with parent := p } linkTop =
      linkGroup (as ++ bs) { w with parent := p } linkTop := by
    rw [linkWindow, if_neg (by decide), relink, if_neg (by simp),
      @unlink_append as bs { w with parent := p } w hr.nodup rfl]
  obtain ⟨pre, post, moved, heq, hsplit, hmoved, -⟩ := linkGroup_cases (as ++ bs) { w with parent := p } linkTop
  refine ⟨as ++ bs, moved.topmost, perm_middle, ?_⟩
  rw [hlink, heq, hsplit, ← hmoved]
  exact perm_middle

end Rooted

def Issued (s : Session) (handle : Nat) : Prop :=
  ∃ i g, i < s.handleCount ∧ g ≤ (s.entries i).generation ∧ handle = userHandle i g

structure Inv (s : Session) : Prop where
  count : s.handleCount ≤ maxUserHandles
  issued : ∀ w ∈ s.windows, Issued s w.handle ∧ (w.parent = 0 ∨ Issued s w.parent)
  rooted : Rooted s.windows

/-- A request that takes an entry finds one whose generation has not come round. -/
def Fresh (s : Session) : Op → Prop
  | .alloc .. | .create .. => (s.entries (freeIndex s)).generation < 0xfffe
  | _ => True

theorem freeIndex_le (s : Session) : freeIndex s ≤ s.handleCount := by
  unfold freeIndex
  cases hf : (List.range s.handleCount).find? fun i => (s.entries i).type = 0 with
  | none => exact Nat.le_refl _
  | some i => exact (mem_range.mp (mem_of_find?_eq_some hf)).le

theorem userHandle_inj (hi : i < maxUserHandles) (hj : j < maxUserHandles) (he : userHandle i g = userHandle j g') :
    i = j ∧ g = g' := by
  unfold userHandle firstUserHandle at he
  unfold maxUserHandles firstUserHandle at hi hj
  exact ⟨by omega, UInt16.toNat_inj.mp (by omega)⟩

theorem Issued.ne_zero (hi : Issued s h) : h ≠ 0 := by
  obtain ⟨i, g, -, -, rfl⟩ := hi
  unfold userHandle firstUserHandle
  omega

theorem nextGeneration_eq (hg : g < 0xfffe) : nextGeneration g = g + 1 ∧ g < g + 1 := by
  have hlt : g.toNat < 0xfffe := UInt16.lt_iff_toNat_lt.mp hg
  have hadd : (g + 1).toNat = g.toNat + 1 := by
    rw [UInt16.toNat_add]
    exact Nat.mod_eq_of_lt (by simp; omega)
  refine ⟨if_neg ?_, UInt16.lt_iff_toNat_lt.mpr (by omega)⟩
  rintro (h | h)
  · rw [h] at hadd
    cases hadd
  · rw [h] at hadd
    have : (0xffff : UInt16).toNat = 0xffff := rfl
    omega

/-- What an allocation does: handles stay issued, and a new one is added. -/
structure Allocated (s : Session) (status : Status) (handle : Nat) (s' : Session) : Prop where
  windows : s'.windows = s.windows
  count : s'.handleCount ≤ maxUserHandles
  kept : ∀ h, Issued s h → Issued s' h
  fresh : status = .success → Issued s' handle ∧ ¬ Issued s handle

theorem alloc_allocated (hcount : s.handleCount ≤ maxUserHandles)
    (hfresh : (s.entries (freeIndex s)).generation < 0xfffe) (type : UInt16) (ready flushed : Bool) :
    Allocated s (allocUserHandle s type ready flushed).1 (allocUserHandle s type ready flushed).2.1
      (allocUserHandle s type ready flushed).2.2 := by
  have hle := freeIndex_le s
  obtain ⟨hnext, hlt⟩ := nextGeneration_eq hfresh
  unfold allocUserHandle
  dsimp only
  split
  · exact ⟨rfl, hcount, fun _ h => h, nofun⟩
  · split
    · exact ⟨rfl, hcount, fun _ h => h, nofun⟩
    · rename_i hmax
      refine ⟨rfl, ?_, ?_, ?_⟩
      · dsimp only
        split <;> omega
      · rintro h ⟨i, g, hi, hg, rfl⟩
        refine ⟨i, g, ?_, ?_, rfl⟩
        · dsimp only
          split <;> omega
        · by_cases he : i = freeIndex s
          · subst he
            simp only [update_self, hnext]
            exact UInt16.le_trans hg (UInt16.le_of_lt hlt)
          · simpa [he] using hg
      · intro _
        refine ⟨⟨freeIndex s, _, ?_, by simp, rfl⟩, ?_⟩
        · dsimp only
          split <;> omega
        · rintro ⟨i, g, hi, hg, he⟩
          obtain ⟨rfl, rfl⟩ := userHandle_inj (by omega) (by omega) he
          rw [hnext] at hg
          exact absurd hlt (UInt16.not_lt.mpr hg)

theorem Inv.allocated (hi : Inv s) (ha : Allocated s status handle s') : Inv s' where
  count := ha.count
  issued := fun w hw => by
    rw [ha.windows] at hw
    exact (hi.issued w hw).imp (ha.kept _) (.imp id (ha.kept _))
  rooted := ha.windows ▸ hi.rooted

theorem Inv.sublist (hi : Inv s) (hsub : windows.Sublist s.windows) : Inv { s with windows } :=
  ⟨hi.count, fun w hw => hi.issued w (hsub.subset hw), hi.rooted.sublist hsub⟩

theorem Inv.freed (hi : Inv s) (type : UInt16) (handle : Nat) (flushed : Bool) :
    Inv (freeUserHandle s type handle flushed).2 := by
  unfold freeUserHandle
  dsimp only
  generalize (if firstUserHandle ≤ handle % 0x10000 ∧ (handle % 0x10000 - firstUserHandle) % 2 = 0 then _ else _) = index
  split
  · exact hi
  · have hkept : ∀ h, Issued s h → Issued { s with
        entries := update s.entries index { s.entries index with type := 0 } } h := by
      rintro h ⟨i, g, hlt, hg, rfl⟩
      refine ⟨i, g, hlt, ?_, rfl⟩
      by_cases he : i = index
      · subst he
        simpa using hg
      · simpa [he] using hg
    have ha : Allocated s .failed 0 { s with
        entries := update s.entries index { s.entries index with type := 0 } } :=
      ⟨rfl, hi.count, hkept, nofun⟩
    exact hi.allocated ha

theorem parentFor_ok (hp : parentFor s desktop kind given = .ok p) : p = 0 ∨ ∃ w ∈ s.windows, w.handle = p := by
  unfold parentFor at hp
  dsimp only at hp
  generalize (if given ≠ 0 then given else _) = handle at hp
  split at hp
  · split at hp <;> cases hp
    exact .inl rfl
  · split at hp
    · cases hp
    · rename_i hf
      cases hp
      obtain ⟨w, hw⟩ := Option.ne_none_iff_exists'.mp (mt Option.isNone_iff_eq_none.mpr hf)
      exact .inr ⟨w, mem_of_find?_eq_some hw, by simpa using List.find?_some hw⟩

theorem Inv.created (hi : Inv s) (hfresh : (s.entries (freeIndex s)).generation < 0xfffe) (r : CreateRequest)
    (a : Answers) : Inv (createWindow s r a).2 := by
  unfold createWindow
  split
  · exact hi
  · rename_i desktop kind p hparent
    have hp : p = 0 ∨ Issued s p := by
      obtain ⟨d, k, hfor⟩ : ∃ d k, parentFor s d k r.parent = .ok p := by
        cases hd : r.desktop with
        | error => rw [hd] at hparent; cases hparent
        | ok d =>
          cases hk : r.kind with
          | error => rw [hd, hk] at hparent; cases hparent
          | ok k =>
            rw [hd, hk] at hparent
            cases hq : parentFor s (s.desktops d) k r.parent with
            | error => simp [hq, bind, Except.bind] at hparent
            | ok q =>
              simp [hq, bind, Except.bind, pure, Except.pure] at hparent
              exact ⟨_, _, hparent.2.2 ▸ hq⟩
      exact (parentFor_ok hfor).imp id fun ⟨w, hw, he⟩ => he ▸ (hi.issued w hw).1
    split
    · exact hi
    · split
      · exact hi
      · have ha := alloc_allocated hi.count hfresh objWindow a.ready a.entryFlushed
        split
        · rename_i handle s1 heq
          rw [heq] at ha
          have hi1 := hi.allocated ha
          obtain ⟨hnew, hnot⟩ := ha.fresh rfl
          split
          · exact hi1
          · refine ⟨hi1.count, forall_mem_cons.mpr ⟨⟨hnew, hp.imp id (ha.kept p)⟩, hi1.issued⟩, ?_⟩
            have hother : ∀ q, q = 0 ∨ Issued s q → q ≠ handle := by
              rintro q (rfl | hq) rfl
              · exact hnew.ne_zero rfl
              · exact hnot hq
            refine hi1.rooted.cons hnew.ne_zero (hother p hp) fun u hu => ?_
            rw [ha.windows] at hu
            exact ⟨hother _ (.inr (hi.issued u hu).1), hother _ (hi.issued u hu).2⟩
        · rename_i heq
          rw [heq] at ha
          exact hi.allocated ha

theorem setParent_ends (hi : Inv s) (handle parent : Nat) : ∃ turns result, setParent turns s handle parent = some result := by
  unfold setParent
  split
  · rename_i w p hw hp
    obtain ⟨n, met, hmet⟩ := hi.rooted.meets_ends w p (hi.rooted.find.mp hp).1
    refine ⟨n, ?_⟩
    unfold setParentLocked
    rw [hmet]
    split <;> exact ⟨_, rfl⟩
  · exact ⟨0, _, rfl⟩

/-- `set_parent` on two windows fails for a window without a parent, as the desktop is, and for a
parent that is the window or below it. -/
theorem setParent_iff (hi : Inv s) (hw : w ∈ s.windows) (hp : parent ∈ s.windows)
    (heq : setParent turns s w.handle parent.handle = some (status, s')) :
    Inv s' ∧ (status ≠ .success ↔ w.parent = 0 ∨ AtOrBelow s.windows parent w) := by
  have hr := hi.rooted
  unfold setParent setParentLocked at heq
  rw [hr.find.mpr ⟨hw, rfl⟩, hr.find.mpr ⟨hp, rfl⟩] at heq
  dsimp only at heq
  split at heq
  case isTrue h0 =>
    cases heq
    exact ⟨hi, by simp [h0]⟩
  case isFalse h0 =>
    cases hmet : meets s.windows w turns parent with
    | none => simp [hmet] at heq
    | some met =>
      have hiff := hr.meets_iff hw hp hmet
      rw [hmet] at heq
      cases met with
      | true =>
        cases heq
        exact ⟨hi, by simp [← hiff]⟩
      | false =>
        cases heq
        obtain ⟨rest, topmost, hperm, hlink⟩ := hr.link_perm hw parent.handle
        refine ⟨⟨hi.count, fun u hu => ?_, ?_⟩, by simp [h0, ← hiff]⟩
        · rcases mem_cons.mp (hlink.mem_iff.mp hu) with rfl | hu
          · exact ⟨(hi.issued w hw).1, .inr (hi.issued parent hp).1⟩
          · exact hi.issued u (hperm.mem_iff.mpr (mem_cons_of_mem _ hu))
        · exact (hr.reparent hperm (mt hiff.mpr (by simp)) topmost).perm hlink.symm

theorem Inv.step (hi : Inv s) (hop : Fresh s op) (heq : step turns s op = some s') : Inv s' := by
  cases op with
  | alloc type ready flushed =>
    cases heq
    exact hi.allocated (alloc_allocated hi.count hop type ready flushed)
  | free type handle flushed =>
    cases heq
    exact hi.freed type handle flushed
  | create r a =>
    cases heq
    exact hi.created hop r a
  | setParent handle parent =>
    obtain ⟨⟨status, s1⟩, hset, rfl⟩ := Option.map_eq_some_iff.mp heq
    cases hw : findWindow s.windows handle with
    | none =>
      simp only [setParent, hw] at hset
      cases hset
      exact hi
    | some w =>
      cases hp : findWindow s.windows parent with
      | none =>
        simp only [setParent, hw, hp] at hset
        cases hset
        exact hi
      | some p =>
        obtain ⟨hwin, rfl⟩ := hi.rooted.find.mp hw
        obtain ⟨hpar, rfl⟩ := hi.rooted.find.mp hp
        exact (setParent_iff hi hwin hpar hset).1
  | destroy handle ofThread =>
    cases heq
    unfold destroyWindow
    split
    · exact hi.sublist eraseP_sublist
    · exact hi.sublist filter_sublist

theorem reached_inv (hs : Reached Fresh s) : Inv s := by
  induction hs with
  | start =>
    exact ⟨Nat.zero_le _, by simp, ⟨by simp, by simp, ⟨fun x => ⟨x, fun _ ⟨_, hu, _⟩ => absurd hu (by simp)⟩⟩⟩⟩
  | step _ _ _ hop heq ih => exact ih.step hop heq

/-- As long as no allocation finds a generation that has come round, parents form no cycle: every
request and every walk over them ends, and `set_parent` fails for a window without a parent, as the
desktop is, and for a parent that is the window itself or below it. -/
theorem window_parents_end (hs : Reached Fresh s) :
    (∀ op, ∃ turns s', step turns s op = some s') ∧ WellFounded (ParentOf s.windows) ∧
    ∀ w ∈ s.windows,
      (∃ turns handles, windowParents s.windows turns w = some handles) ∧
      (∀ g rects, ∃ turns rects', screenRects g s.windows turns w rects = some rects') ∧
      (∀ g x y handles, ∃ turns handles', windowsFromPoint g s.windows x y turns w handles = some handles') ∧
      ∀ parent ∈ s.windows, ∀ turns status s', setParent turns s w.handle parent.handle = some (status, s') →
        (status ≠ .success ↔ w.parent = 0 ∨ AtOrBelow s.windows parent w) := by
  have hi := reached_inv hs
  refine ⟨fun op => ?_, hi.rooted.ends, fun w hw => ⟨hi.rooted.parents_end w hw, fun g rects => ?_,
    fun g x y handles => ?_, fun p hp turns status s' heq => (setParent_iff hi hw hp heq).2⟩⟩
  · cases op with
    | setParent handle parent =>
      obtain ⟨turns, result, heq⟩ := setParent_ends hi handle parent
      exact ⟨turns, result.2, by rw [step, heq]; rfl⟩
    | _ => exact ⟨0, _, rfl⟩
  · obtain ⟨n, hn⟩ := hi.rooted.rects_end g w hw
    exact ⟨n, hn n (Nat.le_refl n) rects⟩
  · obtain ⟨n, hn⟩ := hi.rooted.point_ends g x y w hw
    exact ⟨n, hn n (Nat.le_refl n) handles⟩

def granted : Answers := ⟨true, true, true, true, true⟩

theorem two_windows_end : ∃ s, Reached Fresh s ∧ s.windows.map (·.parent) = [0x10020, 0] ∧
    WellFounded (ParentOf s.windows) := by
  have hroot := Reached.start.step 0 (.create ⟨.ok 0, .ok .desktop, 0, 0, false⟩ granted)
    (show Fresh {} _ by unfold Fresh; decide) rfl
  have hchild := hroot.step 0 (.create ⟨.ok 0, .ok .other, 0, 0, false⟩ granted) (by unfold Fresh; decide) rfl
  exact ⟨_, hchild, by decide, (window_parents_end hchild).2.1⟩

def Anything (_ : Session) (_ : Op) : Prop := True

theorem free_last (hi : i < s.handleCount) (hmax : i < maxUserHandles) :
    (freeUserHandle s (s.entries i).type (userHandle i (s.entries i).generation) true).2 =
      { s with entries := update s.entries i { s.entries i with type := 0 } } := by
  have hlt := (s.entries i).generation.toNat_lt
  unfold maxUserHandles firstUserHandle at hmax
  unfold freeUserHandle userHandle firstUserHandle
  have hlow : (i * 2 + 0x20 + (s.entries i).generation.toNat * 0x10000) % 0x10000 = i * 2 + 0x20 := by omega
  have hhigh : (i * 2 + 0x20 + (s.entries i).generation.toNat * 0x10000) / 0x10000 = (s.entries i).generation.toNat := by
    omega
  simp [hlow, hhigh, Nat.not_le.mpr hi]

/-- The desktop's window is made, another below it, and the first is destroyed. -/
def gone : Session :=
  let s := (createWindow {} ⟨.ok 0, .ok .desktop, 0, 0, false⟩ granted).2
  let s := (createWindow s ⟨.ok 0, .ok .other, 0, 0, false⟩ granted).2
  (destroyWindow s 0x10020 fun _ => false).2

/-- The entry of the destroyed window is free. -/
def orphaned (generation : UInt16) : Session :=
  { gone with entries := update gone.entries 0 ⟨0, generation⟩ }

theorem orphaned_reached : Reached Anything (orphaned 1) := by
  have hgone : Reached Anything gone :=
    .step 0 (.destroy 0x10020 fun _ => false)
      (.step 0 (.create ⟨.ok 0, .ok .other, 0, 0, false⟩ granted)
        (.step 0 (.create ⟨.ok 0, .ok .desktop, 0, 0, false⟩ granted) .start trivial rfl) trivial rfl) trivial rfl
  refine .step 0 (.free objWindow 0x10020 true) hgone trivial (congrArg some ?_)
  exact @free_last gone 0 (by decide) (by decide)

theorem orphaned_free (g : UInt16) : freeIndex (orphaned g) = 0 := by
  unfold freeIndex
  rw [show (orphaned g).handleCount = 2 from rfl]
  simp [range_succ, orphaned]

theorem orphaned_next (hs : Reached Anything (orphaned g)) (hg : g < 0xfffe) : Reached Anything (orphaned (g + 1)) := by
  have halloc : (allocUserHandle (orphaned g) 2 true true).2.2 =
      { gone with entries := update gone.entries 0 ⟨2, g + 1⟩ } := by
    unfold allocUserHandle
    rw [orphaned_free]
    simp [orphaned, (nextGeneration_eq hg).1, show gone.handleCount = 2 from rfl, show 0 ≠ maxUserHandles by decide]
  have htaken := hs.step 0 (.alloc 2 true true) trivial (congrArg some halloc)
  refine htaken.step 0 (.free 2 (userHandle 0 (g + 1)) true) trivial (congrArg some ?_)
  have hfree := @free_last { gone with entries := update gone.entries 0 ⟨2, g + 1⟩ } 0
    (show 0 < gone.handleCount by decide) (by decide)
  simpa [orphaned] using hfree

/-- The handle of the desktop's window comes back for a window below its child. -/
theorem reused_handle_cycle : ∃ s, Reached Anything s ∧
    s.windows = [⟨0x10020, 0x10022, 0, false⟩, ⟨0x10022, 0x10020, 0, false⟩] ∧
    ∀ w ∈ s.windows, ∀ turns, windowParents s.windows turns w = none := by
  have hall : ∀ n, n < 0xfffe → Reached Anything (orphaned (UInt16.ofNat (n + 1))) := by
    intro n hn
    induction n with
    | zero => exact orphaned_reached
    | succ n ih =>
      have hlt : UInt16.ofNat (n + 1) < 0xfffe := by
        rw [UInt16.lt_iff_toNat_lt, UInt16.toNat_ofNat_of_lt' (Nat.lt_of_lt_of_le hn (by decide))]
        exact Nat.lt_of_lt_of_eq hn rfl
      rw [UInt16.ofNat_add]
      exact orphaned_next (ih (by omega)) hlt
  have hlast : Reached Anything (orphaned 0xfffe) := hall 0xfffd (by omega)
  obtain ⟨s, hs, hwin⟩ : ∃ s, Reached Anything s ∧
      s.windows = [⟨0x10020, 0x10022, 0, false⟩, ⟨0x10022, 0x10020, 0, false⟩] :=
    ⟨_, hlast.step 0 (.create ⟨.ok 0, .ok .other, 0x10022, 0, false⟩ granted) trivial rfl, by decide⟩
  have hloop : ∀ turns, ∀ w ∈ [(⟨0x10020, 0x10022, 0, false⟩ : Window), ⟨0x10022, 0x10020, 0, false⟩],
      windowParents [⟨0x10020, 0x10022, 0, false⟩, ⟨0x10022, 0x10020, 0, false⟩] turns w = none := by
    intro turns
    induction turns with
    | zero => exact fun _ _ => rfl
    | succ turns ih =>
      simp only [forall_mem_cons] at ih ⊢
      simp [windowParents, findWindow, ih.1, ih.2.1]
  refine ⟨s, hs, hwin, ?_⟩
  rw [hwin]
  exact fun w hw turns => hloop turns w hw

end Autorun.Server.WindowTree
