import Mathlib.Data.List.Pairwise
import Mathlib.Tactic.Push
import Mathlib.Tactic.Tauto
import Autorun.Lib.Run
import Autorun.Server.FileAccess

namespace Autorun.Server

open Autorun.Lib List

/-- The access has a use that sharing modes speak of. -/
def HasData (access : BitVec 32) : Prop := ∃ u, uses access u = true

/-- The sharing mode allows others every use the access makes. -/
def Permits (sharing access : BitVec 32) : Prop :=
  ∀ u, uses access u = true → shares sharing u = true

theorem use_exists {p : Use → Prop} : (∃ u, p u) ↔ p .read ∨ p .write ∨ p .delete := by
  constructor
  · rintro ⟨u, hu⟩
    cases u with
    | read => exact .inl hu
    | write => exact .inr (.inl hu)
    | delete => exact .inr (.inr hu)
  · rintro (hu | hu | hu) <;> exact ⟨_, hu⟩

theorem use_forall {p : Use → Prop} : (∀ u, p u) ↔ p .read ∧ p .write ∧ p .delete :=
  ⟨fun h => ⟨h _, h _, h _⟩, fun ⟨hr, hw, hd⟩ u => by cases u <;> assumption⟩

instance (access : BitVec 32) : Decidable (HasData access) :=
  decidable_of_iff _ use_exists.symm

instance (sharing access : BitVec 32) : Decidable (Permits sharing access) :=
  decidable_of_iff _ use_forall.symm

theorem shares_iff (sharing : BitVec 32) (u : Use) : shares sharing u = sharing.getLsbD u.bit := by
  unfold shares
  rw [BitVec.and_twoPow]
  cases u <;> cases sharing.getLsbD _ <;> rfl

theorem uses_or (a b : BitVec 32) (u : Use) : uses (a ||| b) u = (uses a u || uses b u) := by
  have hand : (a ||| b) &&& u.mask = (a &&& u.mask) ||| (b &&& u.mask) := by
    ext i
    simp [Bool.and_or_distrib_right]
  unfold uses
  rw [hand, Bool.eq_iff_iff]
  simp only [bne_iff_ne, ne_eq, Bool.or_eq_true]
  rw [show (0 : BitVec 32) = 0#32 from rfl, BitVec.or_eq_zero_iff]
  tauto

theorem shares_and (a b : BitVec 32) (u : Use) : shares (a &&& b) u = (shares a u && shares b u) := by
  simp [shares_iff]

theorem has_data_iff (access : BitVec 32) :
    HasData access ↔ ¬ access &&& (Use.mask .read ||| Use.mask .write ||| Use.mask .delete) = 0 := by
  have hand : access &&& (Use.mask .read ||| Use.mask .write ||| Use.mask .delete) =
      access &&& Use.mask .read ||| access &&& Use.mask .write ||| access &&& Use.mask .delete := by
    ext i
    simp [Bool.and_or_distrib_left]
  rw [hand, show (0 : BitVec 32) = 0#32 from rfl, BitVec.or_eq_zero_iff, BitVec.or_eq_zero_iff]
  unfold HasData uses
  simp only [use_exists, bne_iff_ne]
  tauto

/-- A new handle is refused for a use that is not shared with it, or one it does not share. -/
theorem sharing_violation_iff (existingAccess existingSharing access sharing : BitVec 32) :
    fileSharingViolation existingAccess existingSharing access sharing = true ↔
      ¬ Permits existingSharing access ∨ (HasData access ∧ ¬ Permits sharing existingAccess) := by
  have hdata := has_data_iff access
  unfold fileSharingViolation Permits
  simp only [use_forall]
  split
  · rename_i h
    simp only [Bool.or_eq_true, Bool.and_eq_true] at h
    simp only [true_iff]
    left
    rintro ⟨hr, hw, hd⟩
    rcases h with (⟨hu, hs⟩ | ⟨hu, hs⟩) | ⟨hu, hs⟩
    · simp [hr hu] at hs
    · simp [hw hu] at hs
    · simp [hd hu] at hs
  · rename_i h
    simp only [Bool.or_eq_true, Bool.and_eq_true, Bool.not_eq_true', not_or, not_and,
      Bool.not_eq_false] at h
    obtain ⟨⟨hr, hw⟩, hd⟩ := h
    split
    · rename_i hz
      have hno : ¬ HasData access := fun hh => hdata.mp hh hz
      simp only [Bool.false_eq_true, false_iff, hno, false_and, or_false, not_not]
      exact ⟨hr, hw, hd⟩
    · rename_i hz
      have hyes : HasData access := hdata.mpr hz
      simp only [hyes, true_and, Bool.or_eq_true, Bool.and_eq_true, Bool.not_eq_true']
      have hfirst : ¬ ¬ ((uses access .read = true → shares existingSharing .read = true) ∧
          (uses access .write = true → shares existingSharing .write = true) ∧
          (uses access .delete = true → shares existingSharing .delete = true)) :=
        not_not.mpr ⟨hr, hw, hd⟩
      simp only [hfirst, false_or, not_and_or, Classical.not_imp, Bool.not_eq_true, or_assoc]

theorem existing_modes_fold (handles : List FileHandle) (path : UnixPath) (access sharing : BitVec 32)
    (u : Use) :
    let modes := handles.foldl (joinModes path) (access, sharing)
    (uses modes.1 u = true ↔ uses access u = true ∨
      ∃ h ∈ handles, h.object.opens path = true ∧ uses h.object.access u = true) ∧
    (shares modes.2 u = true ↔ shares sharing u = true ∧
      ∀ h ∈ handles, h.object.opens path = true → shares h.object.sharing u = true) := by
  induction handles generalizing access sharing with
  | nil => simp
  | cons h handles ih =>
    cases hopen : h.object.opens path with
    | true =>
      have ih := ih (access ||| h.object.access) (sharing &&& h.object.sharing)
      rw [uses_or, shares_and, Bool.or_eq_true, Bool.and_eq_true] at ih
      simp only [foldl_cons, joinModes, hopen, mem_cons, exists_eq_or_imp, forall_eq_or_imp, true_and, forall_const]
      exact ⟨ih.1.trans or_assoc, ih.2.trans and_assoc⟩
    | false =>
      have ih := ih access sharing
      simp only [foldl_cons, joinModes, hopen, Bool.false_eq_true, mem_cons, exists_eq_or_imp, forall_eq_or_imp, false_and, false_or, false_implies, true_and]
      exact ih

theorem existing_uses (handles : List FileHandle) (path : UnixPath) (u : Use) :
    uses (existingModes handles path).1 u = true ↔
      ∃ h ∈ handles, h.object.opens path = true ∧ uses h.object.access u = true := by
  have hfold := (existing_modes_fold handles path 0 7 u).1
  have hzero : uses 0 u = false := by cases u <;> rfl
  simp only [hzero, Bool.false_eq_true, false_or] at hfold
  exact hfold

theorem existing_shares (handles : List FileHandle) (path : UnixPath) (u : Use) :
    shares (existingModes handles path).2 u = true ↔
      ∀ h ∈ handles, h.object.opens path = true → shares h.object.sharing u = true := by
  have hfold := (existing_modes_fold handles path 0 7 u).2
  have hall : shares 7 u = true := by cases u <;> rfl
  simp only [hall, true_and] at hfold
  exact hfold

/-- The check refuses for a handle that does not share what the new one uses, or that uses what
a new handle with data access does not share. -/
theorem check_sharing_refuses (handles : List FileHandle) (r : CreateFile) :
    checkSharing handles r = .error .sharingViolation ↔
      ∃ h ∈ handles, h.object.opens r.filename = true ∧
        (¬ Permits h.object.sharing (fileMapAccess r.access) ∨
          (HasData (fileMapAccess r.access) ∧ ¬ Permits r.sharing h.object.access)) := by
  have hcheck : checkSharing handles r = .error .sharingViolation ↔
      fileSharingViolation (existingModes handles r.filename).1 (existingModes handles r.filename).2
        (fileMapAccess r.access) r.sharing = true := by
    unfold checkSharing
    split <;> simp_all
  rw [hcheck, sharing_violation_iff]
  unfold Permits
  simp only [existing_uses, existing_shares]
  constructor
  · rintro (hshare | ⟨hdata, huse⟩)
    · push Not at hshare
      obtain ⟨u, hu, h, hmem, hopen, hno⟩ := hshare
      exact ⟨h, hmem, hopen, .inl fun hp => hno (hp u hu)⟩
    · push Not at huse
      obtain ⟨u, ⟨h, hmem, hopen, hu⟩, hno⟩ := huse
      exact ⟨h, hmem, hopen, .inr ⟨hdata, fun hp => hno (hp u hu)⟩⟩
  · rintro ⟨h, hmem, hopen, hshare | ⟨hdata, huse⟩⟩
    · exact .inl fun hall => hshare fun u hu => hall u hu h hmem hopen
    · exact .inr ⟨hdata, fun hall => huse fun u hu => hall u ⟨h, hmem, hopen, hu⟩⟩

/-- The pairwise rule: two handles with data access share with each other what they use. -/
def Compatible (access sharing access' sharing' : BitVec 32) : Prop :=
  HasData access → HasData access' → Permits sharing access' ∧ Permits sharing' access

/-- Some handle with data access is incompatible with the new one. -/
def PairwiseRefused (handles : List FileHandle) (r : CreateFile) : Prop :=
  ∃ h ∈ handles, h.object.opens r.filename = true ∧
    ¬ Compatible h.object.access h.object.sharing (fileMapAccess r.access) r.sharing

theorem permits_no_data (hno : ¬ HasData access) : Permits sharing access :=
  fun u hu => absurd ⟨u, hu⟩ hno

theorem refused_of_pairwise (hp : PairwiseRefused handles r) :
    checkSharing handles r = .error .sharingViolation := by
  obtain ⟨h, hmem, hopen, hinc⟩ := hp
  unfold Compatible at hinc
  push Not at hinc
  obtain ⟨-, hnew, hno⟩ := hinc
  rw [check_sharing_refuses]
  refine ⟨h, hmem, hopen, ?_⟩
  by_cases hpermits : Permits h.object.sharing (fileMapAccess r.access)
  · exact .inr ⟨hnew, hno hpermits⟩
  · exact .inl hpermits

/-- The check is the pairwise rule unless what it refuses for is a handle for attributes only. -/
theorem check_sharing_pairwise (handles : List FileHandle) (r : CreateFile) :
    (checkSharing handles r = .error .sharingViolation ↔ PairwiseRefused handles r) ↔
      PairwiseRefused handles r ∨
        ∀ h ∈ handles, h.object.opens r.filename = true → ¬ HasData h.object.access →
          Permits h.object.sharing (fileMapAccess r.access) := by
  constructor
  · intro hiff
    by_cases hp : PairwiseRefused handles r
    · exact .inl hp
    · right
      intro h hmem hopen _
      by_contra hno
      exact hp (hiff.mp ((check_sharing_refuses handles r).mpr ⟨h, hmem, hopen, .inl hno⟩))
  · intro hcond
    refine ⟨fun hrefused => ?_, refused_of_pairwise⟩
    rcases hcond with hp | hattributes
    · exact hp
    · obtain ⟨h, hmem, hopen, hwhy⟩ := (check_sharing_refuses handles r).mp hrefused
      refine ⟨h, hmem, hopen, fun hcompat => ?_⟩
      by_cases hold : HasData h.object.access
      · by_cases hnew : HasData (fileMapAccess r.access)
        · obtain ⟨hthere, hback⟩ := hcompat hold hnew
          rcases hwhy with hno | ⟨-, hno⟩
          · exact hno hthere
          · exact hno hback
        · rcases hwhy with hno | ⟨hdata, -⟩
          · exact hno (permits_no_data hnew)
          · exact hnew hdata
      · rcases hwhy with hno | ⟨-, hno⟩
        · exact hno (hattributes h hmem hopen hold)
        · exact hno (permits_no_data hold)

/-- A handle that reads attributes and shares nothing: a reader is refused for it. -/
def attributesHandle : FileHandle :=
  ⟨1, fileObject ⟨0x80#32, 0, 0, some .openExisting, [97]⟩ (some 3) false⟩

theorem attributes_handle_blocks :
    checkSharing [attributesHandle] ⟨0x80000000#32, 7, 0, some .openExisting, [97]⟩ =
        .error .sharingViolation ∧
      ¬ PairwiseRefused [attributesHandle] ⟨0x80000000#32, 7, 0, some .openExisting, [97]⟩ := by
  refine ⟨rfl, ?_⟩
  rintro ⟨h, hmem, -, hinc⟩
  rw [mem_singleton] at hmem
  subst hmem
  exact hinc fun hdata => absurd hdata (by decide)

/-- The name two equal paths have in common. -/
def canonical : UnixPath → UnixPath
  | c :: rest =>
    if c = slash ∧ (rest.head? = some slash ∨ rest = []) then canonical rest
    else lowerAscii c :: canonical rest
  | [] => []

theorem canonical_skip (a : UnixPath) : canonical (skipSlashes a) = canonical a := by
  induction a with
  | nil => rfl
  | cons c rest ih =>
    unfold skipSlashes
    split
    · rename_i h
      rw [ih, canonical, if_pos h]
    · rfl

/-- A name without its leading slashes starts with a character that counts. -/
theorem canonical_skipped (h : skipSlashes a = c :: rest) :
    canonical a = lowerAscii c :: canonical rest ∧ rest.length < a.length := by
  induction a with
  | nil => cases h
  | cons d tail ih =>
    unfold skipSlashes at h
    split at h
    · rename_i hd
      obtain ⟨heq, hlt⟩ := ih h
      rw [canonical, if_pos hd]
      exact ⟨heq, Nat.lt_succ_of_lt hlt⟩
    · rename_i hd
      cases h
      rw [canonical, if_neg hd]
      exact ⟨rfl, Nat.lt_succ_self _⟩

theorem unix_path_equal_loop (hfuel : a.length < fuel) :
    unixPathEqualLoop fuel a b = true ↔ canonical a = canonical b := by
  induction fuel generalizing a b with
  | zero => omega
  | succ fuel ih =>
    unfold unixPathEqualLoop
    split
    · rename_i ha hb
      rw [← canonical_skip a, ← canonical_skip b, ha, hb]
      simp
    · rename_i ca ta cb tb ha hb
      obtain ⟨ha, hlt⟩ := canonical_skipped ha
      rw [ha, (canonical_skipped hb).1, List.cons.injEq, Bool.and_eq_true, beq_iff_eq,
        ih (by omega)]
    · rename_i hnil hcons
      cases ha : skipSlashes a with
      | nil =>
        have ha' := (canonical_skip a).symm.trans (congrArg canonical ha)
        cases hb : skipSlashes b with
        | nil => exact absurd hb (hnil ha)
        | cons cb tb => simp [ha', (canonical_skipped hb).1, canonical]
      | cons ca ta =>
        cases hb : skipSlashes b with
        | nil =>
          have hb' := (canonical_skip b).symm.trans (congrArg canonical hb)
          simp [hb', (canonical_skipped ha).1, canonical]
        | cons cb tb => exact absurd hb (hcons _ _ _ _ ha)

theorem unix_path_equal_iff (a b : UnixPath) :
    unixPathEqual a b = true ↔ canonical a = canonical b :=
  unix_path_equal_loop (Nat.lt_succ_self _)

theorem unix_path_equal_comm (a b : UnixPath) : unixPathEqual a b = unixPathEqual b a := by
  rw [Bool.eq_iff_iff, unix_path_equal_iff, unix_path_equal_iff, eq_comm]

/-- For all names, to be one path is to have one normal form, and so an equivalence. -/
theorem unix_path_equal_equivalence : (∀ a b, unixPathEqual a b = true ↔ canonical a = canonical b) ∧
    Equivalence fun a b => unixPathEqual a b = true := by
  refine ⟨unix_path_equal_iff, ?_⟩
  simp only [unix_path_equal_iff]
  exact ⟨fun _ => rfl, Eq.symm, Eq.trans⟩

theorem Compatible.symm (h : Compatible access sharing access' sharing') :
    Compatible access' sharing' access sharing := fun hd hd' => (h hd' hd).symm

/-- Two file handles of one path are compatible if both have data access. -/
def Agree (a b : FileObject) : Prop :=
  a.isDir = false → b.isDir = false → unixPathEqual a.name b.name = true →
    Compatible a.access a.sharing b.access b.sharing

theorem Agree.symm (h : Agree a b) : Agree b a := fun hb ha hpath =>
  (h ha hb ((unix_path_equal_comm _ _).trans hpath)).symm

/-- The creation is one of a file, as far as it has come. -/
def Stage.isFile : Stage → Bool
  | .opening _ => true
  | .registering _ isDir => !isDir

/-- What the server keeps while no two creations of one path overlap: its handles agree, and a
creation that has passed its check still agrees with them. -/
structure Shared (s : Files) : Prop where
  agree : s.handles.Pairwise fun a b => Agree a.object b.object
  files : ∀ h ∈ s.handles, h.object.isDir = false → h.object.shared = true ∧ h.object.fd.isSome = true
  dirs : ∀ h ∈ s.handles, h.object.isDir = true → ¬ HasData h.object.access
  opened : ∀ c ∈ s.creations, c.stage ≠ .registering none false
  passed : ∀ c ∈ s.creations, c.stage.isFile = true → ∀ h ∈ s.handles,
    h.object.opens c.request.filename = true →
      Compatible h.object.access h.object.sharing (fileMapAccess c.request.access) c.request.sharing
  apart : ∀ a ∈ s.creations, ∀ b ∈ s.creations, a.tid ≠ b.tid →
    unixPathEqual a.request.filename b.request.filename = false

/-- No other `create_file` of the path is between its check and its registration, and a directory,
which is never checked, is not opened for data access. -/
def Alone (s : Files) : FileAction → Prop
  | .begin _ r _ => ∀ c ∈ s.creations, unixPathEqual c.request.filename r.filename = false
  | .register tid _ => ∀ c ∈ s.creations, c.tid = tid →
    c.stage.isFile = true ∨ ¬ HasData (fileMapAccess c.request.access)
  | _ => True

instance (s : Files) (a : FileAction) : Decidable (Alone s a) := by
  cases a <;> unfold Alone <;> infer_instance

/-- A check that passes leaves nothing the pairwise rule would refuse. -/
theorem check_passed (h : checkSharing handles r = .ok ()) (hmem : f ∈ handles)
    (hopen : f.object.opens r.filename = true) :
    Compatible f.object.access f.object.sharing (fileMapAccess r.access) r.sharing := by
  by_contra hinc
  have := refused_of_pairwise ⟨f, hmem, hopen, hinc⟩
  rw [h] at this
  cases this

theorem create_file_begin (h : createFileBegin handles r answers = .ok stage) :
    (stage ≠ .registering none false) ∧
      (stage.isFile = true → checkSharing handles r = .ok ()) := by
  unfold createFileBegin at h
  simp only [bind, Except.bind, throw, throwThe, MonadExceptOf.throw] at h
  repeat' split at h
  all_goals try cases h
  all_goals simp_all [Stage.isFile]

theorem create_file_open (h : createFileOpen r flags answer = .ok stage) :
    stage ≠ .registering none false := by
  unfold createFileOpen at h
  repeat' split at h
  all_goals cases h
  all_goals simp

theorem creation_found {s : Files} (h : s.creation? tid = some c) : c ∈ s.creations ∧ c.tid = tid := by
  refine ⟨mem_of_find?_eq_some h, ?_⟩
  simpa using List.find?_some h

theorem mem_others {s : Files} : c ∈ s.others tid ↔ c ∈ s.creations ∧ c.tid ≠ tid := by
  simp [Files.others]

theorem Shared.fewer (hs : Shared s) (hsub : ∀ c ∈ s'.creations, c ∈ s.creations)
    (hhandles : s'.handles = s.handles) : Shared s' := by
  constructor
  · exact hhandles ▸ hs.agree
  · exact hhandles ▸ hs.files
  · exact hhandles ▸ hs.dirs
  · exact fun c hc => hs.opened c (hsub c hc)
  · exact fun c hc => hhandles ▸ hs.passed c (hsub c hc)
  · exact fun a ha b hb => hs.apart a (hsub a ha) b (hsub b hb)

theorem Shared.proceed (hs : Shared s) (hsub : ∀ c ∈ rest, c ∈ s.creations)
    (hopened : ∀ stage, result = .ok stage → stage ≠ .registering none false)
    (hpassed : ∀ stage, result = .ok stage → stage.isFile = true → ∀ h ∈ s.handles,
      h.object.opens r.filename = true →
        Compatible h.object.access h.object.sharing (fileMapAccess r.access) r.sharing)
    (hapart : ∀ c ∈ rest, c.tid ≠ tid → unixPathEqual c.request.filename r.filename = false) :
    Shared (s.proceed tid r rest result) := by
  cases result with
  | error status => exact hs.fewer hsub rfl
  | ok stage =>
    refine ⟨hs.agree, hs.files, hs.dirs, ?_, ?_, ?_⟩
    · intro c hc
      rcases mem_cons.mp hc with rfl | hc
      · exact hopened stage rfl
      · exact hs.opened c (hsub c hc)
    · intro c hc
      rcases mem_cons.mp hc with rfl | hc
      · exact hpassed stage rfl
      · exact hs.passed c (hsub c hc)
    · intro a ha b hb hne
      rcases mem_cons.mp ha with rfl | ha
      · rcases mem_cons.mp hb with rfl | hb
        · exact absurd rfl hne
        · exact (unix_path_equal_comm _ _).trans (hapart b hb hne.symm)
      · rcases mem_cons.mp hb with rfl | hb
        · exact hapart a ha hne
        · exact hs.apart a (hsub a ha) b (hsub b hb) hne

theorem Shared.register (hs : Shared s) (hc : c ∈ s.creations) (hstage : c.stage = .registering fd isDir)
    (hdata : isDir = true → ¬ HasData (fileMapAccess c.request.access)) :
    Shared { s with
      handles := ⟨s.nextHandle, fileObject c.request fd isDir⟩ :: s.handles
      nextHandle := s.nextHandle + 1
      creations := s.others c.tid
      replies := replies } := by
  have hfd : isDir = false → fd.isSome = true := fun hdir => by
    cases fd with
    | none => exact absurd (hdir ▸ hstage) (hs.opened c hc)
    | some fd => rfl
  constructor
  · refine pairwise_cons.mpr ⟨fun h hh hdir hdir' hpath => ?_, hs.agree⟩
    have hopen : h.object.opens c.request.filename = true := by
      obtain ⟨hshared, hfd⟩ := hs.files h hh hdir'
      simp only [FileObject.opens, hshared, hfd]
      exact (unix_path_equal_comm _ _).trans hpath
    have hfile : c.stage.isFile = true := by
      rw [hstage]
      exact congrArg (!·) hdir
    exact (hs.passed c hc hfile h hh hopen).symm
  · intro h hh
    rcases mem_cons.mp hh with rfl | hh
    · exact fun hdir => ⟨congrArg (!·) hdir, hfd hdir⟩
    · exact hs.files h hh
  · intro h hh
    rcases mem_cons.mp hh with rfl | hh
    · exact hdata
    · exact hs.dirs h hh
  · exact fun d hd => hs.opened d (mem_others.mp hd).1
  · intro d hd hfile h hh hopen
    obtain ⟨hd, hne⟩ := mem_others.mp hd
    rcases mem_cons.mp hh with rfl | hh
    · -- the creations left are of other paths
      have hother := hs.apart c hc d hd (Ne.symm hne)
      simp only [FileObject.opens, fileObject, hother, Bool.and_false] at hopen
      cases hopen
    · exact hs.passed d hd hfile h hh hopen
  · exact fun a ha b hb => hs.apart a (mem_others.mp ha).1 b (mem_others.mp hb).1

theorem Shared.step (hs : Shared s) (halone : Alone s a) : Shared (s.step a) := by
  cases a with
  | begin tid r answers =>
    cases hfound : s.creation? tid with
    | some c =>
      simp only [Files.step, hfound]
      exact hs
    | none =>
      simp only [Files.step, hfound]
      refine hs.proceed (fun _ hc => hc) (fun _ h => (create_file_begin h).1) ?_ fun c hc _ => halone c hc
      exact fun _ hok hfile h hmem hopen => check_passed ((create_file_begin hok).2 hfile) hmem hopen
  | opened tid answer =>
    simp only [Files.step]
    split
    · rename_i r flags hfound
      obtain ⟨hc, htid⟩ := creation_found hfound
      refine hs.proceed (fun _ h => (mem_others.mp h).1) (fun _ h => create_file_open h) ?_ ?_
      · exact fun _ _ _ => hs.passed _ hc rfl
      · intro d hd hne
        exact hs.apart d (mem_others.mp hd).1 _ hc (htid ▸ hne)
    · exact hs
  | register tid memory =>
    simp only [Files.step]
    split
    · rename_i r fd isDir hfound
      obtain ⟨hc, rfl⟩ := creation_found hfound
      cases memory with
      | true =>
        refine hs.register hc rfl fun hdir => ?_
        rcases halone _ hc rfl with hfile | hno
        · simp [Stage.isFile, hdir] at hfile
        · exact hno
      | false => exact hs.fewer (fun _ h => (mem_others.mp h).1) rfl
    · exact hs
  | close handle =>
    refine ⟨hs.agree.filter _, fun h hh => hs.files h ((mem_filter.mp hh).1),
      fun h hh => hs.dirs h ((mem_filter.mp hh).1), hs.opened, ?_, hs.apart⟩
    exact fun c hc hfile h hh => hs.passed c hc hfile h ((mem_filter.mp hh).1)

/-- In a run whose checks are each made while no other creation of the path is under way, and that
opens no directory for data access, any two handles of a path that both have data access are
compatible. -/
theorem sharing_enforced (as : List FileAction) (halone : Allowed Alone Files.step {} as) :
    ∀ a ∈ (run Files.step {} as).handles, ∀ b ∈ (run Files.step {} as).handles,
      a.handle ≠ b.handle → unixPathEqual a.object.name b.object.name = true →
      HasData a.object.access → HasData b.object.access →
      Permits a.object.sharing b.object.access ∧ Permits b.object.sharing a.object.access := by
  have hs : Shared (run Files.step {} as) := by
    refine run_allowed (fun s a ha hs => hs.step ha) ⟨?_, ?_, ?_, ?_, ?_, ?_⟩ as halone <;> simp
  intro a ha b hb hne hpath hdata hdata'
  have hfile : ∀ h ∈ (run Files.step {} as).handles, HasData h.object.access →
      h.object.isDir = false := fun h hh hd => by
    by_contra hdir
    exact hs.dirs h hh (Bool.not_eq_false _ ▸ hdir) hd
  have : Std.Symm fun x y : FileHandle => Agree x.object y.object := ⟨fun _ _ => Agree.symm⟩
  exact hs.agree.forall ha hb (fun heq => hne (heq ▸ rfl)) (hfile a ha hdata) (hfile b hb hdata')
    hpath hdata hdata'

/-- A reader of a path that shares nothing. -/
def exclusiveRead : CreateFile := ⟨0x80000000#32, 0, 0, some .openExisting, [97]⟩

/-- A reader that lets others read. -/
def sharedRead (name : UnixPath) : CreateFile := ⟨0x80000000#32, 1, 0, some .openExisting, name⟩

/-- One thread opens a file, another is refused it alone, then reads it under its name in capitals. -/
def twoReaders : List FileAction :=
  [.begin 1 (sharedRead [97]) {}, .opened 1 (.opened 3 true), .register 1 true, .begin 2 exclusiveRead {},
    .begin 2 (sharedRead [65]) {}, .opened 2 (.opened 4 true), .register 2 true]

theorem sharing_enforced_two_readers :
    ∃ a ∈ (run Files.step {} twoReaders).handles, ∃ b ∈ (run Files.step {} twoReaders).handles,
      a.handle ≠ b.handle ∧ unixPathEqual a.object.name b.object.name = true ∧
      HasData a.object.access ∧ HasData b.object.access ∧
      Permits a.object.sharing b.object.access ∧ Permits b.object.sharing a.object.access := by
  have hhandles : (run Files.step {} twoReaders).handles =
      [⟨2, fileObject (sharedRead [65]) (some 4) false⟩,
        ⟨1, fileObject (sharedRead [97]) (some 3) false⟩] := by decide
  have hall := sharing_enforced twoReaders (by decide)
  rw [hhandles] at hall ⊢
  refine ⟨_, mem_cons_self .., _, mem_cons_of_mem _ (mem_cons_self ..), by decide, by decide, by decide,
    by decide, ?_⟩
  exact hall _ (mem_cons_self ..) _ (mem_cons_of_mem _ (mem_cons_self ..)) (by decide) (by decide)
    (by decide) (by decide)

/-- Some two handles of one path with data access do not share what they use. -/
def Clash (s : Files) : Prop :=
  ∃ a ∈ s.handles, ∃ b ∈ s.handles, a.handle ≠ b.handle ∧
    unixPathEqual a.object.name b.object.name = true ∧ HasData a.object.access ∧
    HasData b.object.access ∧ ¬ Permits a.object.sharing b.object.access

instance (s : Files) : Decidable (Clash s) := by
  unfold Clash
  infer_instance

/-- Two threads check before either registers: both get the file for themselves. -/
theorem overlapping_creations :
    Clash (run Files.step {} [.begin 1 exclusiveRead {}, .begin 2 exclusiveRead {},
      .opened 1 (.opened 3 true), .opened 2 (.opened 4 true), .register 1 true, .register 2 true]) := by
  decide

/-- A directory is opened for reading twice, one after the other, by readers that share nothing. -/
theorem directories_not_checked :
    Clash (run Files.step {} [.begin 1 { exclusiveRead with options := 1 } {}, .register 1 true,
      .begin 2 { exclusiveRead with options := 1 } {}, .register 2 true]) := by
  decide

end Autorun.Server
