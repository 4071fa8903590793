import Mathlib.Data.List.Nodup
import Autorun.Server.WindowOrder

namespace Autorun.Server.WindowOrder

open List

variable {windows pre post : List Window} {window moved u : Window} {previous parent : Nat}

/-- Among the windows of a parent the topmost ones come first. -/
def TopmostFirst (parent : Nat) (windows : List Window) : Prop :=
  (windows.filter (·.parent = parent)).Pairwise fun a b => b.topmost = true → a.topmost = true

instance (parent : Nat) (windows : List Window) : Decidable (TopmostFirst parent windows) :=
  inferInstanceAs (Decidable (List.Pairwise _ _))

/-- A window may be put between others if it is topmost only below topmost siblings, and not topmost
only above others. -/
theorem topmost_first_insert (hparent : moved.parent = parent) :
    TopmostFirst parent (pre ++ moved :: post) ↔ TopmostFirst parent (pre ++ post) ∧
      (∀ u ∈ pre, u.parent = parent → moved.topmost = true → u.topmost = true) ∧
      ∀ u ∈ post, u.parent = parent → u.topmost = true → moved.topmost = true := by
  unfold TopmostFirst
  rw [filter_append, filter_cons_of_pos (by simpa using hparent), filter_append,
    pairwise_append, pairwise_append, pairwise_cons]
  simp only [mem_cons, mem_filter, decide_eq_true_eq, and_imp, forall_eq_or_imp]
  constructor
  · rintro ⟨h1, ⟨h2, h3⟩, h4⟩
    exact ⟨⟨h1, h3, fun a ha hp => (h4 a ha hp).2⟩, fun a ha hp => (h4 a ha hp).1, h2⟩
  · rintro ⟨⟨h1, h2, h3⟩, h4, h5⟩
    exact ⟨h1, ⟨h5, h2⟩, fun a ha hp => ⟨h4 a ha hp, h3 a ha hp⟩⟩

/-- Above a topmost sibling all are topmost, below one that is not none is. -/
theorem TopmostFirst.split (h : TopmostFirst parent (pre ++ u :: post)) (hparent : u.parent = parent) :
    (∀ v ∈ pre, v.parent = parent → u.topmost = true → v.topmost = true) ∧
      ∀ v ∈ post, v.parent = parent → v.topmost = true → u.topmost = true :=
  ((topmost_first_insert hparent).mp h).2

theorem TopmostFirst.first (h : TopmostFirst parent (pre ++ u :: post)) (hparent : u.parent = parent)
    (hv : v ∈ u :: post) (hp : v.parent = parent) (htop : v.topmost = true) : u.topmost = true := by
  rcases mem_cons.mp hv with rfl | hv
  · exact htop
  · exact (h.split hparent).2 v hv hp htop

theorem findPlace_found (ws : List Window) (i : Nat) (p : Place) (hfound : p.before = some n) :
    (findPlace window previous ws i p).before = some n ∧
      (findPlace window previous ws i p).topmost = p.topmost := by
  induction ws generalizing i p with
  | nil => exact ⟨hfound, rfl⟩
  | cons s ws ih =>
    unfold findPlace
    split
    · exact ih _ _ hfound
    · rw [if_pos (.inl (by simp [hfound]))]
      exact ih (i + 1) { p with after := some i } hfound

/-- A sibling the loop passes by without finding a place. -/
def Passed (window : Window) (previous : Nat) (topmost : Bool) (u : Window) : Prop :=
  u.parent = window.parent → previous = linkBottom ∨
    topmost = false ∧ u.topmost = true ∧ u.handle ≠ window.owner

/-- The place before the first sibling the loop does not pass by; if it passes all by, behind the
last of them. -/
def Placed (window : Window) (previous : Nat) (topmost : Bool) (i : Nat) (a : Option Nat)
    (ws : List Window) (p : Place) : Prop :=
  (∃ pre s post, ws = pre ++ s :: post ∧ (∀ u ∈ pre, Passed window previous topmost u) ∧
    s.parent = window.parent ∧ previous ≠ linkBottom ∧ p.before = some (i + pre.length) ∧
    ((topmost = true ∨ s.topmost = false) ∧ p.topmost = topmost ∨
      topmost = false ∧ s.topmost = true ∧ s.handle = window.owner ∧ p.topmost = true)) ∨
  p.before = none ∧ p.topmost = topmost ∧ (∀ u ∈ ws, Passed window previous topmost u) ∧
    ((∀ u ∈ ws, u.parent ≠ window.parent) ∧ p.after = a ∨
      ∃ pre s post, ws = pre ++ s :: post ∧ s.parent = window.parent ∧
        (∀ u ∈ post, u.parent ≠ window.parent) ∧ p.after = some (i + pre.length))

/-- A window that is passed by leaves what the rest of the list gives. -/
theorem Placed.pass {s : Window} {ws : List Window} {a a' : Option Nat} {topmost : Bool} {p : Place}
    (h : Placed window previous topmost (i + 1) a' ws p) (hs : Passed window previous topmost s)
    (hsome : s.parent = window.parent → a' = some i) (hnone : s.parent ≠ window.parent → a' = a) :
    Placed window previous topmost i a (s :: ws) p := by
  rcases h with ⟨pre, t, post, rfl, hpre, hrest⟩ | ⟨hbefore, htop, hall, hafter⟩
  · refine .inl ⟨s :: pre, t, post, rfl, by simpa using ⟨hs, hpre⟩, ?_⟩
    simpa [Nat.add_assoc, Nat.add_comm 1] using hrest
  · refine .inr ⟨hbefore, htop, by simpa using ⟨hs, hall⟩, ?_⟩
    rcases hafter with ⟨hno, hafter⟩ | ⟨pre, t, post, rfl, ht, hpost, hafter⟩
    · by_cases hp : s.parent = window.parent
      · exact .inr ⟨[], s, ws, rfl, hp, hno, by simpa [hsome hp] using hafter⟩
      · exact .inl ⟨by simpa using ⟨hp, hno⟩, hafter.trans (hnone hp)⟩
    · exact .inr ⟨s :: pre, t, post, rfl, ht, hpost,
        by simpa [Nat.add_assoc, Nat.add_comm 1] using hafter⟩

theorem findPlace_placed (ws : List Window) (i : Nat) (a : Option Nat) (topmost : Bool) :
    Placed window previous topmost i a ws (findPlace window previous ws i ⟨none, a, topmost⟩) := by
  induction ws generalizing i a with
  | nil => exact .inr ⟨rfl, rfl, by simp, .inl ⟨by simp, rfl⟩⟩
  | cons s ws ih =>
    rw [findPlace]
    by_cases hp : s.parent = window.parent
    · rw [if_neg (not_not.mpr hp)]
      simp only [Option.isSome_none, Bool.false_eq_true, false_or]
      split
      case isTrue hbottom => exact (ih _ _).pass (fun _ => .inl hbottom) (fun _ => rfl) (absurd hp)
      case isFalse hbottom =>
      split
      case isTrue hplace =>
        obtain ⟨hbefore, htop⟩ := findPlace_found ws (i + 1) ⟨some i, some i, topmost⟩ rfl
        exact .inl ⟨[], s, ws, rfl, by simp, hp, hbottom, hbefore, .inl ⟨hplace, htop⟩⟩
      case isFalse hplace =>
      obtain ⟨hlow, hhigh⟩ : topmost = false ∧ s.topmost = true := by simpa using hplace
      split
      case isTrue howner =>
        obtain ⟨hbefore, htop⟩ := findPlace_found ws (i + 1) ⟨some i, some i, true⟩ rfl
        exact .inl ⟨[], s, ws, rfl, by simp, hp, hbottom, hbefore, .inr ⟨hlow, hhigh, howner, htop⟩⟩
      case isFalse howner =>
        exact (ih _ _).pass (fun _ => .inr ⟨hlow, hhigh, howner⟩) (fun _ => rfl) (absurd hp)
    · rw [if_pos hp]
      exact (ih _ _).pass (absurd · hp) (absurd · hp) fun _ => rfl

theorem insertAt_append (pre post : List Window) (w : Window) :
    insertAt (pre ++ post) pre.length w = pre ++ w :: post := by
  unfold insertAt
  rw [take_left, drop_left]

/-- The flag the window has when the last loop starts. -/
def asked (window : Window) (previous : Nat) : Bool :=
  if previous = linkBottom then false else if previous = linkTopmost then true else window.topmost

/-- Where the last loop puts the window: before a sibling, directly above its owner if that makes it
topmost, or behind all siblings it passed by. -/
theorem linkGroup_cases (windows : List Window) (window : Window) (previous : Nat) :
    ∃ pre post moved, linkGroup windows window previous = pre ++ moved :: post ∧
      windows = pre ++ post ∧ moved = { window with topmost := moved.topmost } ∧
      (∀ u ∈ pre, Passed window previous (asked window previous) u) ∧
      ((∃ s rest, post = s :: rest ∧ s.parent = window.parent ∧ previous ≠ linkBottom ∧
          ((asked window previous = true ∨ s.topmost = false) ∧
              moved.topmost = asked window previous ∨
            asked window previous = false ∧ s.topmost = true ∧ s.handle = window.owner ∧
              moved.topmost = true)) ∨
        moved.topmost = asked window previous ∧ ∀ u ∈ post, u.parent ≠ window.parent) := by
  have hplaced : Placed window previous (asked window previous) 0 none windows _ :=
    findPlace_placed windows 0 none (asked window previous)
  unfold linkGroup
  dsimp only
  rw [show (if previous = linkBottom then false
    else if previous = linkTopmost then true else window.topmost) = asked window previous from rfl]
  generalize findPlace window previous windows 0 ⟨none, none, asked window previous⟩ = p at hplaced ⊢
  rcases hplaced with ⟨pre, s, post, rfl, hpre, hs, hbottom, hbefore, hflag⟩ |
    ⟨hbefore, htop, hall, hafter⟩
  · rw [hbefore, Nat.zero_add]
    refine ⟨pre, s :: post, { window with topmost := p.topmost }, insertAt_append _ _ _, rfl, rfl, hpre,
      .inl ⟨s, post, rfl, hs, hbottom, hflag⟩⟩
  · rw [hbefore]
    rcases hafter with ⟨hno, hafter⟩ | ⟨pre, s, post, rfl, hs, hpost, hafter⟩
    · rw [hafter]
      exact ⟨[], windows, { window with topmost := p.topmost }, rfl, rfl, rfl, by simp,
        .inr ⟨htop, hno⟩⟩
    · rw [hafter, Nat.zero_add]
      refine ⟨pre ++ [s], post, { window with topmost := p.topmost }, ?_, by simp, rfl,
        fun u hu => hall u ?_, .inr ⟨htop, hpost⟩⟩
      · have hlen : pre.length + 1 = (pre ++ [s]).length := by simp
        rw [append_cons]
        dsimp only
        rw [hlen]
        exact insertAt_append _ _ _
      · simp only [mem_append, mem_cons] at hu ⊢
        tauto

/-- The last loop keeps the topmost siblings first, and puts the window at the bottom, at the top of
its group or directly above its topmost owner. -/
theorem linkGroup_order (horder : TopmostFirst window.parent windows) :
    ∃ pre post moved, linkGroup windows window previous = pre ++ moved :: post ∧
      windows = pre ++ post ∧ moved = { window with topmost := moved.topmost } ∧
      TopmostFirst window.parent (pre ++ moved :: post) ∧
      (previous = linkBottom → moved.topmost = false ∧ ∀ u ∈ post, u.parent ≠ window.parent) ∧
      (previous ≠ linkBottom → asked window previous = true →
        moved.topmost = true ∧ ∀ u ∈ pre, u.parent ≠ window.parent) ∧
      (previous ≠ linkBottom → asked window previous = false →
        (∀ u ∈ pre, u.parent = window.parent → u.topmost = true ∧ u.handle ≠ window.owner) ∧
        if ∃ u ∈ windows, u.parent = window.parent ∧ u.topmost = true ∧ u.handle = window.owner then
          moved.topmost = true ∧ ∃ u ∈ post.head?, u.parent = window.parent ∧ u.handle = window.owner
        else moved.topmost = false) := by
  obtain ⟨pre, post, moved, hlink, rfl, hmoved, hpre, hpost⟩ := linkGroup_cases windows window previous
  have hparent : moved.parent = window.parent := by rw [hmoved]
  have hpassed : previous ≠ linkBottom → asked window previous = true →
      ∀ u ∈ pre, u.parent ≠ window.parent := by
    intro hb ha u hu hp
    obtain ⟨hfalse, -⟩ := (hpre u hu hp).resolve_left hb
    rw [ha] at hfalse
    cases hfalse
  refine ⟨pre, post, moved, hlink, rfl, hmoved, (topmost_first_insert hparent).mpr ⟨horder, ?_, ?_⟩,
    fun hb => ?_, fun hb ha => ⟨?_, hpassed hb ha⟩, fun hb ha => ⟨fun u hu hp => ?_, ?_⟩⟩
  · intro u hu hp htop
    rcases hpre u hu hp with hb | ⟨-, hutop, -⟩
    · have hfalse : asked window previous = false := if_pos hb
      rcases hpost with ⟨s, rest, -, -, hne, -⟩ | ⟨hflag, -⟩
      · exact absurd hb hne
      · rw [htop, hfalse] at hflag
        cases hflag
    · exact hutop
  · intro u hu hp hutop
    rcases hpost with ⟨s, rest, rfl, hs, hne, ⟨hplace, hflag⟩ | ⟨-, -, -, hflag⟩⟩ | ⟨-, hno⟩
    · rcases hplace with ha | hstop
      · rw [hflag, ha]
      · simp [horder.first hs hu hp hutop] at hstop
    · exact hflag
    · exact absurd hp (hno u hu)
  · have hfalse : asked window previous = false := if_pos hb
    rcases hpost with ⟨s, rest, -, -, hne, -⟩ | ⟨hflag, hno⟩
    · exact absurd hb hne
    · exact ⟨hflag.trans hfalse, hno⟩
  · rcases hpost with ⟨s, rest, -, -, -, ⟨-, hflag⟩ | ⟨hfalse, -⟩⟩ | ⟨hflag, -⟩
    · exact hflag.trans ha
    · rw [ha] at hfalse
      cases hfalse
    · exact hflag.trans ha
  · exact ((hpre u hu hp).resolve_left hb).2
  · have hno : ∀ u ∈ pre, ¬(u.parent = window.parent ∧ u.topmost = true ∧ u.handle = window.owner) :=
      fun u hu ⟨hp, _, howner⟩ => ((hpre u hu hp).resolve_left hb).2.2 howner
    rcases hpost with ⟨s, rest, rfl, hs, -, ⟨hplace, hflag⟩ | ⟨-, hstop, howner, hflag⟩⟩ | ⟨hflag, hnone⟩
    · have hstop : s.topmost = false := hplace.resolve_left (by simp [ha])
      rw [if_neg]
      · exact hflag.trans ha
      · rintro ⟨u, hu, hp, hutop, howner⟩
        rcases mem_append.mp hu with hu | hu
        · exact hno u hu ⟨hp, hutop, howner⟩
        · simp [horder.first hs hu hp hutop] at hstop
    · rw [if_pos ⟨s, by simp, hs, hstop, howner⟩]
      exact ⟨hflag, s, rfl, hs, howner⟩
    · rw [if_neg]
      · exact hflag.trans ha
      · rintro ⟨u, hu, hp, hutop, howner⟩
        rcases mem_append.mp hu with hu | hu
        · exact hno u hu ⟨hp, hutop, howner⟩
        · exact hnone u hu hp

theorem insertBehind_append (hpre : ∀ u ∈ pre, u.handle ≠ a.handle) (w : Window) :
    insertBehind (pre ++ a :: post) a.handle w = pre ++ [a] ++ w :: post ∧
      behind (pre ++ a :: post) a.handle = post := by
  induction pre with
  | nil => simp [insertBehind, behind]
  | cons u pre ih =>
    have hne := hpre u (by simp)
    obtain ⟨hinsert, hbehind⟩ := ih fun v hv => hpre v (by simp [hv])
    simp [insertBehind, behind, if_neg hne, hinsert, hbehind]

theorem linkBelow_order (horder : TopmostFirst window.parent (pre ++ a :: post))
    (hafter : a.parent = window.parent) (hpre : ∀ u ∈ pre, u.handle ≠ a.handle) :
    ∃ moved, linkBelow (pre ++ a :: post) window a = pre ++ [a] ++ moved :: post ∧
      moved = { window with topmost := moved.topmost } ∧
      TopmostFirst window.parent (pre ++ [a] ++ moved :: post) := by
  unfold linkBelow
  obtain ⟨habove, hbelow⟩ := horder.split hafter
  have hbehind : behind (pre ++ a :: post) a.handle = post := (insertBehind_append hpre window).2
  rw [hbehind]
  generalize hflag : ite (a.topmost = false) false _ = flag
  have hothers : TopmostFirst window.parent (pre ++ [a] ++ post) := by simpa using horder
  refine ⟨{ window with topmost := flag }, (insertBehind_append hpre _).1, rfl,
    (topmost_first_insert ?_).mpr ⟨hothers, ?_, ?_⟩⟩
  · rfl
  · intro u hu hp htop
    have htop : flag = true := htop
    have hatop : a.topmost = true := by
      by_contra hne
      rw [if_pos (by simpa using hne), htop] at hflag
      cases hflag
    rcases mem_append.mp hu with hu | hu
    · exact habove u hu hp hatop
    · rwa [mem_singleton.mp hu]
  · intro u hu hp hutop
    change flag = true
    rw [if_neg (by simp [hbelow u hu hp hutop])] at hflag
    -- the first sibling behind is topmost, since a later one is
    cases hfind : post.find? (·.parent = window.parent) with
    | none => simpa [hp] using List.find?_eq_none.mp hfind u hu
    | some s =>
      obtain ⟨hs, mid, rest, rfl, hmid⟩ := List.find?_eq_some_iff_append.mp hfind
      have hs : s.parent = window.parent := by simpa using hs
      have hstop : s.topmost = true := by
        rcases mem_append.mp hu with hu | hu
        · simpa [hp] using hmid u hu
        · have horder' : TopmostFirst window.parent ((pre ++ a :: mid) ++ s :: rest) := by
            simpa using horder
          exact horder'.first hs hu hp hutop
      rw [hfind] at hflag
      simpa [hstop] using hflag.symm

theorem unlink_append (hnodup : ((pre ++ moved :: post).map (·.handle)).Nodup)
    (hhandle : moved.handle = window.handle) : unlink (pre ++ moved :: post) window = pre ++ post := by
  unfold unlink
  have hpre : ∀ u ∈ pre, u.handle ≠ window.handle := by
    intro u hu he
    rw [map_append, nodup_append] at hnodup
    exact hnodup.2.2 u.handle (mem_map.mpr ⟨u, hu, rfl⟩) moved.handle (by simp)
      (he.trans hhandle.symm)
  rw [eraseP_append_right _ (by simpa using hpre), eraseP_cons_of_pos (by simpa using hhandle)]

/-- Where the moved window ends up, `above` and `below` it being the other windows. -/
structure Moved (window : Window) (previous : Nat) (above : List Window) (moved : Window)
    (below : List Window) : Prop where
  /-- Below a sibling it is directly behind that. -/
  sibling : previous ≠ linkTop → previous ≠ linkBottom → previous ≠ linkTopmost →
    previous ≠ linkNotopmost → ∃ u ∈ above.getLast?, u.handle = previous
  bottom : previous = linkBottom → moved.topmost = false ∧ ∀ u ∈ below, u.parent ≠ window.parent
  topmost : previous = linkTopmost → moved.topmost = true ∧ ∀ u ∈ above, u.parent ≠ window.parent
  /-- A topmost window stays one at the top. -/
  top : previous = linkTop → window.topmost = true →
    moved.topmost = true ∧ ∀ u ∈ above, u.parent ≠ window.parent
  /-- Another window comes below the topmost siblings, or directly above its topmost owner. -/
  group : previous = linkTop ∧ window.topmost = false ∨ previous = linkNotopmost →
    (∀ u ∈ above, u.parent = window.parent → u.topmost = true) ∧
    if ∃ u ∈ above ++ below, u.parent = window.parent ∧ u.topmost = true ∧ u.handle = window.owner then
      moved.topmost = true ∧ ∃ u ∈ below.head?, u.parent = window.parent ∧ u.handle = window.owner
    else moved.topmost = false

theorem relink_moved (horder : TopmostFirst window.parent (unlink windows window))
    (hnodup : (windows.map (·.handle)).Nodup) (hnot : previous ≠ linkNotopmost)
    (hprevious : previous = linkTop ∨ previous = linkBottom ∨ previous = linkTopmost ∨
      ∃ s ∈ unlink windows window, s.handle = previous ∧ s.parent = window.parent) :
    ∃ above moved below, relink windows window previous = above ++ moved :: below ∧
      unlink windows window = above ++ below ∧ moved = { window with topmost := moved.topmost } ∧
      TopmostFirst window.parent (above ++ moved :: below) ∧
      Moved window previous above moved below := by
  have hsub : ((unlink windows window).map (·.handle)).Nodup :=
    hnodup.sublist (eraseP_sublist.map _)
  unfold relink
  dsimp only
  split
  case isTrue hsibling =>
    obtain ⟨htop, hbottom, htopmost⟩ := hsibling
    obtain ⟨s, hs, rfl, hparent⟩ := ((hprevious.resolve_left htop).resolve_left hbottom).resolve_left
      htopmost
    obtain ⟨pre, post, he⟩ := append_of_mem hs
    rw [he] at horder hsub ⊢
    have hpre : ∀ u ∈ pre, u.handle ≠ s.handle := by
      intro u hu
      rw [map_append, nodup_append] at hsub
      exact hsub.2.2 u.handle (mem_map.mpr ⟨u, hu, rfl⟩) s.handle (by simp)
    have hfind : findWindow (pre ++ s :: post) s.handle = some s := by
      unfold findWindow
      rw [List.find?_append, List.find?_eq_none.mpr (by simpa using hpre)]
      simp
    rw [hfind]
    obtain ⟨moved, hlink, hmoved, horder'⟩ := linkBelow_order horder hparent hpre
    refine ⟨pre ++ [s], moved, post, hlink, by simp, hmoved, horder', ⟨fun _ _ _ _ => ⟨s, by simp, rfl⟩,
      (absurd · hbottom), (absurd · htopmost), (absurd · htop), ?_⟩⟩
    rintro (⟨h, -⟩ | h)
    · exact absurd h htop
    · exact absurd h hnot
  case isFalse hgroup =>
    obtain ⟨pre, post, moved, hlink, he, hmoved, horder', hbottom, hhigh, hlow⟩ :=
      @linkGroup_order _ window previous horder
    refine ⟨pre, moved, post, hlink, he, hmoved, horder', ⟨fun h1 h2 h3 => absurd ⟨h1, h2, h3⟩ hgroup,
      hbottom, ?_, ?_, ?_⟩⟩
    · rintro rfl
      exact hhigh (by decide) rfl
    · rintro rfl htop
      exact hhigh (by decide) htop
    · rintro (⟨rfl, hwindow⟩ | h)
      · obtain ⟨habove, howner⟩ := hlow (by decide) hwindow
        rw [he] at howner
        exact ⟨fun u hu hp => (habove u hu hp).1, howner⟩
      · exact absurd h hnot

/-- A window is moved as asked: every window is in the list once, the others in their order, the
topmost siblings first. A window that is not topmost and is asked not to be stays where it was. -/
theorem window_order_kept (hnodup : (windows.map (·.handle)).Nodup) (hmem : window ∈ windows)
    (horder : TopmostFirst window.parent (unlink windows window))
    (hprevious : previous = linkTop ∨ previous = linkBottom ∨ previous = linkTopmost ∨
      previous = linkNotopmost ∨
      ∃ s ∈ unlink windows window, s.handle = previous ∧ s.parent = window.parent) :
    if previous = linkNotopmost ∧ window.topmost = false then
      linkWindow windows window previous = windows
    else
      ∃ above moved below, linkWindow windows window previous = above ++ moved :: below ∧
        unlink windows window = above ++ below ∧
        (above ++ window :: below).Perm windows ∧
        moved = { window with topmost := moved.topmost } ∧
        TopmostFirst window.parent (above ++ moved :: below) ∧
        Moved window previous above moved below := by
  have hperm : (window :: unlink windows window).Perm windows := by
    obtain ⟨pre, post, rfl⟩ := append_of_mem hmem
    rw [unlink_append hnodup rfl]
    exact perm_middle.symm
  split
  case isTrue hnothing =>
    unfold linkWindow
    rw [if_pos hnothing.1, if_pos hnothing.2]
  case isFalse hmove =>
  by_cases hnot : previous = linkNotopmost
  · have htop : window.topmost = true := by simpa [hnot] using hmove
    obtain ⟨above, moved, below, hlink, he, hmoved, horder', hplace⟩ :=
      @relink_moved windows { window with topmost := false } linkTop horder hnodup (by decide)
        (.inl rfl)
    refine ⟨above, moved, below, ?_, he, ?_, hmoved, horder', ?_⟩
    · unfold linkWindow
      rw [if_pos hnot, if_neg (by simp [htop])]
      exact hlink
    · exact perm_middle.trans (he ▸ hperm)
    · subst hnot
      exact ⟨fun _ _ _ h => absurd rfl h, nofun, nofun, nofun, fun _ => hplace.group (.inl ⟨rfl, rfl⟩)⟩
  · obtain ⟨above, moved, below, hlink, he, hmoved, horder', hplace⟩ :=
      relink_moved horder hnodup hnot (by tauto)
    refine ⟨above, moved, below, ?_, he, perm_middle.trans (he ▸ hperm), hmoved, horder', hplace⟩
    unfold linkWindow
    rw [if_neg hnot]
    exact hlink

/-- Three siblings, of which one is moved below a topmost one, and a window of another parent. -/
def someWindows : List Window := [⟨2, 1, 0, true⟩, ⟨7, 9, 0, false⟩, ⟨3, 1, 0, false⟩, ⟨4, 1, 0, true⟩]

theorem some_window_below :
    linkWindow someWindows ⟨4, 1, 0, true⟩ 3 =
        [⟨2, 1, 0, true⟩, ⟨7, 9, 0, false⟩, ⟨3, 1, 0, false⟩, ⟨4, 1, 0, false⟩] ∧
      ∃ above moved below, linkWindow someWindows ⟨4, 1, 0, true⟩ 3 = above ++ moved :: below ∧
        Moved ⟨4, 1, 0, true⟩ 3 above moved below := by
  have hkept := @window_order_kept someWindows ⟨4, 1, 0, true⟩ 3 (by decide) (by decide) (by decide)
    (.inr (.inr (.inr (.inr ⟨⟨3, 1, 0, false⟩, by decide, rfl, rfl⟩))))
  obtain ⟨above, moved, below, hlink, -, -, -, -, hmoved⟩ := hkept
  exact ⟨by decide, above, moved, below, hlink, hmoved⟩

/-- Raised to the top, a window comes above its topmost owner and not above all of its group; and one
that was made above a topmost sibling stays there when it is asked not to be topmost. -/
theorem raised_window_not_at_top :
    (([⟨2, 1, 0, true⟩, ⟨3, 1, 0, true⟩, ⟨4, 1, 3, false⟩].map Window.handle).Nodup ∧
      TopmostFirst 1 (unlink [⟨2, 1, 0, true⟩, ⟨3, 1, 0, true⟩, ⟨4, 1, 3, false⟩] ⟨4, 1, 3, false⟩) ∧
      linkWindow [⟨2, 1, 0, true⟩, ⟨3, 1, 0, true⟩, ⟨4, 1, 3, false⟩] ⟨4, 1, 3, false⟩ linkTop =
        [⟨2, 1, 0, true⟩, ⟨4, 1, 3, true⟩, ⟨3, 1, 0, true⟩]) ∧
    TopmostFirst 1 (unlink [⟨5, 1, 0, false⟩, ⟨2, 1, 0, true⟩] ⟨5, 1, 0, false⟩) ∧
      ¬TopmostFirst 1
        (linkWindow [⟨5, 1, 0, false⟩, ⟨2, 1, 0, true⟩] ⟨5, 1, 0, false⟩ linkNotopmost) := by
  decide

/-! The request that asks for the place. -/

/-- What `horizon_server_link_window_locked` may be called with: one of the constants, or a sibling that is
there once the window is taken out of the list. -/
def Linkable (windows : List Window) (window : Window) (previous : Nat) : Prop :=
  previous ∈ [linkTop, linkBottom, linkTopmost, linkNotopmost] ∨
    ∃ s, findWindow windows previous = some s ∧ s.parent = window.parent ∧
      findWindow (unlink windows window) previous = some s

theorem findWindow_unlink (hne : previous ≠ window.handle) :
    findWindow (unlink windows window) previous = findWindow windows previous := by
  unfold findWindow unlink
  induction windows with
  | nil => rfl
  | cons w ws ih =>
    by_cases hw : w.handle = window.handle
    · have hprevious : ¬ w.handle = previous := fun h => hne (h.symm.trans hw)
      rw [eraseP_cons_of_pos (by simpa using hw), List.find?_cons_of_neg (by simpa using hprevious)]
    · rw [eraseP_cons_of_neg (by simpa using hw), List.find?_cons, List.find?_cons, ih]

/-- As an `int` a value is above 1 if it is from 2 to the largest `int`. -/
theorem one_lt_toInt (x : BitVec 32) : 1 < x.toInt ↔ 1 < x.toNat ∧ x.toNat < 0x80000000 := by
  rw [BitVec.toInt_eq_toNat_cond]
  split <;> omega

/-- A request that gets past the check names a sibling, unless its `previous` is not above 1 as an `int`. -/
theorem checkSibling_eq_none {r : PosRequest} (hmoves : r.moves window) :
    checkSibling windows window r = none ↔
      (1 < r.previous.toInt →
        ∃ s, findWindow windows r.previous.toNat = some s ∧ s.parent = window.parent) := by
  unfold checkSibling
  by_cases hint : 1 < r.previous.toInt
  · rw [if_pos ⟨hmoves, hint⟩]
    cases hfind : findWindow windows r.previous.toNat with
    | none => simp [hint]
    | some s => simp [hint]
  · simp [hint]

theorem setWindowPos_links {r : PosRequest} :
    setWindowPos windows r = .links window previous ↔
      findWindow windows r.handle.toNat = some window ∧ previous = r.previous.toNat ∧ r.moves window ∧
        ¬(r.window.right < r.window.left ∨ r.window.bottom < r.window.top) ∧
        checkSibling windows window r = none := by
  unfold setWindowPos
  cases hfind : findWindow windows r.handle.toNat with
  | none => simp
  | some w =>
    dsimp only
    cases hcheck : checkSibling windows w r with
    | some status =>
      constructor
      · nofun
      · rintro ⟨hw, -, -, -, hnone⟩
        obtain rfl := Option.some.inj hw
        rw [hcheck] at hnone
        cases hnone
    | none =>
      dsimp only
      split
      case isTrue hrect =>
        exact ⟨nofun, fun h => absurd hrect h.2.2.2.1⟩
      case isFalse hrect =>
        split
        case isTrue hmoves =>
          constructor
          · intro h
            injection h with hw hprevious
            subst hw
            exact ⟨rfl, hprevious.symm, hmoves, hrect, hcheck⟩
          · rintro ⟨hw, rfl, -⟩
            rw [Option.some.inj hw]
        case isFalse hstays =>
          constructor
          · nofun
          · rintro ⟨hw, -, hmoves, -⟩
            obtain rfl := Option.some.inj hw
            exact absurd hmoves hstays

/-- Where the linker is reached it gets a constant or a sibling, just where each `previous` that is negative
as an `int`, and no constant, names a sibling. -/
theorem set_window_pos_links_sibling_iff (windows : List Window) (r : PosRequest) :
    (∀ window previous, setWindowPos windows r = .links window previous →
        Linkable windows window previous) ↔
      ∀ window, findWindow windows r.handle.toNat = some window → r.moves window →
        ¬(r.window.right < r.window.left ∨ r.window.bottom < r.window.top) →
        0x80000000 ≤ r.previous.toNat → r.previous.toNat < 0xfffffffe →
        ∃ s, findWindow windows r.previous.toNat = some s ∧ s.parent = window.parent := by
  constructor
  · intro h window hfind hmoves hrect hneg hconst
    have hskip : checkSibling windows window r = none := by
      refine (checkSibling_eq_none hmoves).mpr fun hint => ?_
      have := (one_lt_toInt _).mp hint
      omega
    rcases h window _ (setWindowPos_links.mpr ⟨hfind, rfl, hmoves, hrect, hskip⟩) with hmem | ⟨s, hs, hparent, -⟩
    · simp only [linkTop, linkBottom, linkTopmost, linkNotopmost, mem_cons, not_mem_nil, or_false] at hmem
      omega
    · exact ⟨s, hs, hparent⟩
  · intro h window previous hlinks
    obtain ⟨hfind, rfl, hmoves, hrect, hcheck⟩ := setWindowPos_links.mp hlinks
    have hsibling := (checkSibling_eq_none hmoves).mp hcheck
    by_cases hconst : r.previous.toNat ∈ [linkTop, linkBottom, linkTopmost, linkNotopmost]
    · exact .inl hconst
    · have hs : ∃ s, findWindow windows r.previous.toNat = some s ∧ s.parent = window.parent := by
        simp only [linkTop, linkBottom, linkTopmost, linkNotopmost, mem_cons] at hconst
        by_cases hneg : 0x80000000 ≤ r.previous.toNat
        · exact h window hfind hmoves hrect hneg (by omega)
        · exact hsibling ((one_lt_toInt _).mpr (by omega))
      obtain ⟨s, hs, hparent⟩ := hs
      exact .inr ⟨s, hs, hparent, (findWindow_unlink hmoves.2.2).trans hs⟩

/-- Two windows with one parent, and one of another parent with a handle of generation 0x8000. -/
def foreignWindows : List Window :=
  [⟨0x10020, 1, 0, false⟩, ⟨0x10022, 1, 0, false⟩, ⟨0x80000024, 9, 0, false⟩]

/-- The linker is reached with the handle of no window, which it then follows, and with that of a window of
another parent. -/
theorem negative_previous_unchecked :
    (setWindowPos foreignWindows ⟨0x10022, 0x80000020, 0, ⟨0, 0, 10, 10⟩⟩ =
        .links ⟨0x10022, 1, 0, false⟩ 0x80000020 ∧
      findWindow (unlink foreignWindows ⟨0x10022, 1, 0, false⟩) 0x80000020 = none) ∧
    setWindowPos foreignWindows ⟨0x10022, 0x80000024, 0, ⟨0, 0, 10, 10⟩⟩ =
        .links ⟨0x10022, 1, 0, false⟩ 0x80000024 ∧
      findWindow foreignWindows 0x80000024 = some ⟨0x80000024, 9, 0, false⟩ := by
  decide

end Autorun.Server.WindowOrder
