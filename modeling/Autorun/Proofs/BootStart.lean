import Autorun.Proofs.BootRecovery

namespace Autorun.Setup

open Autorun.Lib Function

variable {env : Env} {whole : Path → Prop} {P : Card → Prop} {W : Bytes → Prop} {card card' : Card}

/-! What a recovery that says OK leaves, whatever the card was like. -/

def HocStill (card : Card) : Prop :=
  (∃ b, card .hocKip = some b ∧ b.length ≤ payloadLimit) ∨ (card .hocKip = none ∧ card .hocPrevious = none)

theorem HocStill.beyond (h : HocStill card) (hbeyond : Beyond card card') : HocStill card' := by
  unfold HocStill
  rw [hbeyond .hocKip rfl, hbeyond .hocPrevious rfl]
  exact h

structure Rested (card : Card) : Prop where
  journal : card .journal = none
  committed : card .committed = none
  hoc : HocStill card

/-- The act is on files that the transaction may write. -/
def Act.Inside : Act → Prop
  | .read _ => True
  | .create p _ | .append p _ | .unlink p | .truncate p _ => p.outside = false
  | .rename source target => source.outside = false ∧ target.outside = false

theorem Act.Inside.apply {a : Act} (h : a.Inside) (card : Card) : Beyond card (a.apply card) := by
  cases a with
  | read p => exact fun _ _ => rfl
  | create p data => exact .update card h _
  | append p data => exact .update card h _
  | rename source target => exact fun p hp => (Beyond.update _ h.1 none p hp).trans (Beyond.update card h.2 _ p hp)
  | unlink p => exact .update card h none
  | truncate p size => exact .update card h _

theorem Act.Inside.torn {a : Act} (h : a.Inside) (hcut : a.torn whole card card') : Beyond card card' := by
  cases a with
  | read p => exact hcut.elim
  | create p data =>
    obtain ⟨-, n, -, rfl⟩ := hcut
    exact .update card h _
  | append p data =>
    obtain ⟨n, -, rfl⟩ := hcut
    exact .update card h _
  | rename source target => exact hcut.elim
  | unlink p => exact hcut.elim
  | truncate p size => exact hcut.elim

section Each

variable {I : Act → Prop}

theorem readFile_each (h : I (.read path)) (limit : Nat) : (readFile path limit).Each I := by
  refine ⟨h, fun ok => ?_⟩
  dsimp only
  split
  · intro c
    dsimp only
    split
    · exact trivial
    · exact trivial
  · exact trivial

theorem removeFile_each (h : I (.unlink path)) : (removeFile path).Each I := by
  intro c
  dsimp only
  split
  · exact ⟨h, fun _ => trivial⟩
  · exact trivial

theorem unlinkFile_each (h : I (.unlink path)) : (unlinkFile path).Each I := by
  intro c
  dsimp only
  split
  · exact ⟨h, fun _ => trivial⟩
  · exact trivial

theorem moveFile_each (h : I (.rename source target)) : (moveFile source target).Each I := by
  intro c
  dsimp only
  split
  · exact trivial
  · exact ⟨h, fun _ => trivial⟩

theorem writeNew_each (h : I (.create path data)) (hundo : I (.unlink path)) : (writeNew path data).Each I := by
  intro c
  dsimp only
  split
  · exact trivial
  · refine ⟨h, fun ok => ?_⟩
    cases ok with
    | false => exact ⟨hundo, fun _ => trivial⟩
    | true => exact trivial

theorem resizeFile_each (h : I (.truncate path size)) : (resizeFile path size).Each I := by
  intro c
  dsimp only
  split
  · exact ⟨h, fun _ => trivial⟩
  · exact trivial

theorem recoverMissingFixed_each {f : Fixed} (hread : ∀ p, I (.read p)) (h : I (.rename f.previous f.path)) :
    (recoverMissingFixed f).Each I := by
  refine (readFile_each (hread _) _).bind fun read => ?_
  cases read with
  | missing =>
    refine (readFile_each (hread _) _).bind fun previous => ?_
    cases previous with
    | data _ => exact moveFile_each h
    | _ => exact trivial
  | _ => exact trivial

theorem finishFixed_each {f : Fixed} {changed existed committed : Bool} (hread : ∀ p, I (.read p)) (hpath : I (.unlink f.path))
    (hstaged : I (.unlink f.staged)) (hmove : I (.rename f.previous f.path)) :
    (finishFixed f changed existed committed).Each I := by
  unfold finishFixed
  split
  · exact trivial
  split
  · refine (readFile_each (hread _) _).bind fun read => ?_
    cases read with
    | data _ => exact removeFile_each hstaged
    | _ => exact trivial
  split
  · refine (readFile_each (hread _) _).bind fun read => ?_
    cases read with
    | error => exact trivial
    | data _ => exact (removeFile_each hpath).check ((moveFile_each hmove).check (removeFile_each hstaged))
    | missing =>
      refine (readFile_each (hread _) _).bind fun read => ?_
      cases read with
      | data _ => exact removeFile_each hstaged
      | _ => exact trivial
  · exact (removeFile_each hpath).check (removeFile_each hstaged)

theorem removeIniBackups_each (hbackup : I (.unlink .backup)) (hupdate : I (.unlink .updateBackup)) :
    removeIniBackups.Each I :=
  (removeFile_each hbackup).bind fun _ => (removeFile_each hupdate).bind fun _ => trivial

end Each

variable (t : Transaction)

theorem restoreIni_inside (before : Bytes) (committed current : Read) :
    (restoreIni env t before committed current).Each Act.Inside := by
  cases current with
  | error => exact trivial
  | missing => exact Prog.Each.check (writeNew_each rfl rfl) trivial
  | data current =>
    rw [restoreIni]
    split
    · exact trivial
    split
    · exact trivial
    split
    · refine (readFile_each trivial _).bind fun read => ?_
      cases read with
      | data after =>
        dsimp only
        split
        · exact Prog.Each.check (resizeFile_each rfl) trivial
        · exact trivial
      | _ => exact trivial
    · exact trivial

theorem finishRecovery_inside (result : Result) :
    (finishRecovery t result).Each Act.Inside := by
  refine Prog.Each.check (finishFixed_each (fun _ => trivial) rfl rfl ⟨rfl, rfl⟩) ?_
  refine Prog.Each.check (finishFixed_each (fun _ => trivial) rfl rfl ⟨rfl, rfl⟩) ?_
  refine Prog.Each.check ⟨trivial, fun _ _ => trivial⟩ ?_
  refine Prog.Each.check (removeFile_each rfl) (Prog.Each.check (removeFile_each rfl) ?_)
  exact Prog.Each.check (unlinkFile_each rfl) (Prog.Each.check (removeIniBackups_each rfl rfl) trivial)

theorem recoverTransaction_inside : (recoverTransaction env t).Each Act.Inside := by
  refine (readFile_each trivial _).bind fun backup => ?_
  cases backup with
  | data before =>
    dsimp only
    split
    · refine (readFile_each trivial _).bind fun committed => ?_
      split
      · exact trivial
      · refine (readFile_each trivial _).bind fun current => (restoreIni_inside ..).bind fun result => ?_
        split
        · exact trivial
        · exact finishRecovery_inside t result
    · exact trivial
  | _ => exact trivial

theorem Act.Inside.stop {a : Act} (h : a.Inside) (hstop : card' = card ∨ a.torn whole card card') :
    Beyond card card' := by
  rcases hstop with rfl | hcut
  · exact fun _ _ => rfl
  · exact h.torn hcut

theorem beyond_keeps (hP : ∀ c c', P c → Beyond c c' → P c') : Prog.Keeps (cardActs whole) Act.Inside P where
  step := fun _ c ha hc => hP c _ hc (ha.apply c)
  stop := fun _ c c' ha hc hstop => hP c c' hc (ha.stop hstop)
  fail := fun _ _ _ _ _ hfail => hfail.elim

theorem each_inside {α : Type} {p : Io α} (h : p.Each Act.Inside) (hcard : HocStill card) :
    p.Safe (cardActs whole) HocStill (fun _ => HocStill) card :=
  h.safe (beyond_keeps fun _ _ => HocStill.beyond) hcard

theorem safe_any {α : Type} (p : Io α) (card : Card) :
    p.Safe (cardActs whole) (fun _ => True) (fun _ _ => True) card := by
  induction p generalizing card with
  | ret a => exact ⟨trivial, trivial⟩
  | look k ih => exact ih card card
  | act a k ih => exact ⟨fun _ _ => trivial, ih true _, fun _ hfail => hfail.elim⟩

theorem recoverHoc_still (card : Card) : (recoverHoc env).Safe (cardActs whole) (fun _ => True)
    (fun ok c => True ∧ (ok = true → HocStill c)) card := by
  unfold recoverHoc
  refine read_safe ?_
  cases hread : readOf (card .hocKip) payloadLimit with
  | error => exact ⟨trivial, trivial, fun h => by cases h⟩
  | data b =>
    obtain ⟨hkip, hsmall⟩ := readOf_data hread
    exact ⟨trivial, trivial, fun _ => .inl ⟨b, hkip, hsmall⟩⟩
  | missing =>
    have hkip := readOf_missing hread
    refine read_safe ?_
    cases hread : readOf (card .hocPrevious) payloadLimit with
    | error => exact ⟨trivial, trivial, fun h => by cases h⟩
    | missing => exact ⟨trivial, trivial, fun _ => .inr ⟨hkip, readOf_missing hread⟩⟩
    | data b =>
      obtain ⟨hprevious, hsmall⟩ := readOf_data hread
      dsimp only
      split
      · refine move_safe (hprevious ▸ rfl) hkip trivial trivial ⟨trivial, fun _ => .inl ⟨b, ?_, hsmall⟩⟩
        exact hprevious
      · exact ⟨trivial, trivial, fun h => by cases h⟩

def Cleared (card : Card) : Prop := card .journal = none ∧ card .committed = none

theorem finishRecovery_cleared (result : Result) (card : Card) :
    (finishRecovery t result).Safe (cardActs whole) (fun _ => True) (fun result c => result = .ok → Cleared c) card := by
  have any : ∀ (p : Io Bool) (c : Card), p.Safe (cardActs whole) (fun _ => True)
      (fun ok _ => True ∧ (ok = true → True)) c :=
    fun p c => (safe_any p c).mono (fun _ h => h) fun _ _ _ => ⟨trivial, fun _ => trivial⟩
  have hbad : ∀ c : Card, True → Result.recovery = .ok → Cleared c := fun c _ h => by cases h
  refine (any _ card).checked hbad fun c _ => (any _ c).checked hbad fun c _ => (any _ c).checked hbad fun c _ => ?_
  refine remove_check trivial (remove_check trivial ?_)
  generalize hc2 : update (update c .committed none) .staged none = c2
  have hcommitted : c2 .committed = none := by rw [← hc2]; rfl
  unfold unlinkFile
  rw [Prog.check, Prog.bind, Prog.Safe]
  split
  · refine ⟨fun _ _ => trivial, ?_, fun _ hfail => hfail.elim⟩
    change (removeIniBackups.check .io (Prog.ret result)).Safe (cardActs whole) _ _ (update c2 .journal none)
    refine Prog.Safe.check (T := Cleared) ?_ fun c hc => ⟨trivial, fun _ => hc⟩
    exact removeIniBackups_safe trivial trivial trivial ⟨rfl, rfl, hcommitted⟩
  · exact ⟨trivial, fun h => by cases h⟩

theorem recoverTransaction_cleared (card : Card) :
    (recoverTransaction env t).Safe (cardActs whole) (fun _ => True) (fun result c => result = .ok → Cleared c) card := by
  have hbad : ∀ c : Card, (Prog.ret Result.recovery : Io Result).Safe (cardActs whole) (fun _ => True)
      (fun result c => result = .ok → Cleared c) c := fun c => ⟨trivial, fun h => by cases h⟩
  refine read_safe ?_
  split
  · split
    · refine read_safe ?_
      split
      · exact hbad card
      · refine read_safe ((safe_any _ card).bind fun result c _ => ?_)
        split
        · exact hbad c
        · exact finishRecovery_cleared t result c
    · exact hbad card
  · exact hbad card

theorem recoverMissingFixed_cleared {f : Fixed} (hf : f ∈ targets) (hcard : Cleared card) :
    (recoverMissingFixed f).Safe (cardActs whole) (fun _ => True) (fun ok c => True ∧ (ok = true → Cleared c)) card := by
  have hkeep : ∀ c, Cleared c → Cleared ((Act.rename f.previous f.path).apply c) := by
    rcases eq_of_target hf with rfl | rfl
    · exact fun c hc => hc
    · exact fun c hc => hc
  have heach : (recoverMissingFixed f).Each fun a => a = .rename f.previous f.path ∨ ∃ p, a = .read p :=
    recoverMissingFixed_each (fun p => .inr ⟨p, rfl⟩) (.inl rfl)
  refine (heach.safe (P := Cleared) (⟨?_, ?_, fun _ _ _ _ _ hfail => hfail.elim⟩ : Prog.Keeps (cardActs whole) _ Cleared)
    hcard).mono (fun _ _ => trivial) fun _ _ hc => ⟨trivial, fun _ => hc⟩
  · rintro a c (rfl | ⟨p, rfl⟩) hc
    · exact hkeep c hc
    · exact hc
  · rintro a c c' (rfl | ⟨p, rfl⟩) hc (rfl | hcut)
    · exact hc
    · exact hcut.elim
    · exact hc
    · exact hcut.elim

/-- Whatever the card was like, a recovery that says OK leaves it at rest. -/
theorem recover_rested (card : Card) : (recover env).Safe (cardActs whole) (fun _ => True)
    (fun result c => result = .ok → Rested c) card := by
  have hbad : ∀ c : Card, (Prog.ret Result.recovery : Io Result).Safe (cardActs whole) (fun _ => True)
      (fun result c => result = .ok → Rested c) c := fun c => ⟨trivial, fun h => by cases h⟩
  have hrecovery : ∀ c : Card, True → Result.recovery = .ok → Cleared c := fun c _ h => by cases h
  -- both halves: the journal and the marker are gone, and the HOC files stay as they are
  have both : ∀ (p : Io Result) (c : Card), HocStill c → p.Each Act.Inside →
      p.Safe (cardActs whole) (fun _ => True) (fun result c => result = .ok → Cleared c) c →
      p.Safe (cardActs whole) (fun _ => True) (fun result c => result = .ok → Rested c) c := by
    intro p c hstill hinside hcleared
    exact ((each_inside hinside hstill).and hcleared).mono (fun _ _ => trivial)
      fun result c h hok => ⟨(h.2 hok).1, (h.2 hok).2, h.1⟩
  refine (recoverHoc_still card).checked (fun c _ h => by cases h) fun c hstill => read_safe ?_
  cases hread : readOf (c .journal) 72 with
  | error => exact hbad c
  | data journal =>
    dsimp only
    split
    · exact hbad c
    case h_2 t ht => exact both _ c hstill (recoverTransaction_inside t) (recoverTransaction_cleared t c)
  | missing =>
    refine both _ c hstill ?_ ?_
    · refine Prog.Each.check (removeFile_each rfl) (Prog.Each.check (recoverMissingFixed_each (fun _ => trivial) ⟨rfl, rfl⟩) ?_)
      exact Prog.Each.check (recoverMissingFixed_each (fun _ => trivial) ⟨rfl, rfl⟩) trivial
    · refine remove_check trivial ?_
      have hcleared : Cleared (update c .committed none) := ⟨readOf_missing hread, rfl⟩
      refine (recoverMissingFixed_cleared stock_target hcleared).checked hrecovery fun c1 hc1 => ?_
      exact (recoverMissingFixed_cleared mesosphere_target hc1).checked hrecovery fun c2 hc2 => ⟨trivial, fun _ => hc2⟩

/-! The files that are written before the journal. -/

/-- The new and the previous versions of the targets. -/
def Path.beside : Path → Bool
  | .mesosphereStaged | .mesospherePrevious | .stockStaged | .stockPrevious => true
  | _ => false

def Stages (W : Bytes → Prop) (p : Path) (file : Option Bytes) : Prop :=
  p = .backup ∨ p = .updateBackup ∨ (p = .staged ∧ ∃ b, file = some b ∧ W b) ∨ (p.beside = true ∧ file = none)

def Staging (W : Bytes → Prop) (card card' : Card) : Prop := ∀ p, card' p = card p ∨ Stages W p (card' p)

theorem Staging.refl (card : Card) : Staging W card card := fun _ => .inl rfl

theorem Staging.update (h : Staging W card card') (p : Path) (file : Option Bytes) (hp : Stages W p file) :
    Staging W card (update card' p file) := by
  intro q
  by_cases hq : q = p
  · rw [hq, update_self]
    exact .inr hp
  · rw [update_of_ne hq]
    exact h q

def Path.scratch : Path → Bool
  | .backup | .updateBackup | .staged => true
  | p => p.beside

theorem Staging.keep (h : Staging W card card') {p : Path} (hp : p.scratch = false) : card' p = card p := by
  rcases h p with heq | rfl | rfl | ⟨rfl, -⟩ | ⟨hbeside, -⟩
  · exact heq
  · cases hp
  · cases hp
  · cases hp
  · have hscratch : p.scratch = true := by cases p <;> first | rfl | cases hbeside
    rw [hp] at hscratch
    cases hscratch

theorem Staging.beyond (h : Staging W card card') : Beyond card card' := by
  intro p hp
  refine h.keep ?_
  cases p <;> first | rfl | cases hp

theorem Staging.previous (h : Staging W card card') {p : Path} (hp : p.beside = true) :
    card' p = card p ∨ card' p = none := by
  rcases h p with heq | rfl | rfl | ⟨rfl, -⟩ | ⟨-, hnone⟩
  · exact .inl heq
  · cases hp
  · cases hp
  · cases hp
  · exact .inr hnone

/-- What `fixed_state` finds. -/
def stateOf (env : Env) (file : Option Bytes) (data : Bytes) : FixedState :=
  match readOf file payloadLimit with
  | .error => .unreadable
  | .missing => .absent
  | .data current => if sameFile env current data then .same else .differs

theorem fixedState_safe {α : Type} {Q : α → Card → Prop} {f : FixedState → Io α} {data : Bytes}
    (h : (f (stateOf env (card path) data)).Safe (cardActs whole) P Q card) :
    ((fixedState env path data).bind f).Safe (cardActs whole) P Q card := by
  unfold fixedState
  rw [Prog.bind_assoc]
  refine read_safe ?_
  unfold stateOf at h
  cases hread : readOf (card path) payloadLimit with
  | error =>
    rw [hread] at h
    exact h
  | missing =>
    rw [hread] at h
    exact h
  | data current =>
    rw [hread] at h
    exact h

/-- What was found before a transaction starts, and what was made ready. -/
structure Begun (env : Env) (s : Started) (card : Card) : Prop extends Rested card where
  ini : card .ini = some s.ini
  backup : card (backupPath s.plan.change.isUpdate) = some s.ini
  staged : ∃ b, card .staged = some b ∧ sameFile env b s.output = true
  before_small : s.ini.length ≤ iniLimit
  after_small : s.output.length ≤ iniLimit
  kernel : s.kernelState = stateOf env (card .mesosphere) s.plan.kernel
  kernel_read : s.kernelState ≠ .unreadable
  kernel_previous : s.kernelState ≠ .same → card .mesospherePrevious = none
  loader : s.stockState = if s.plan.hoc then .same else stateOf env (card .stockKip) s.plan.loader
  loader_read : s.stockState ≠ .unreadable
  loader_previous : s.stockState ≠ .same → card .stockPrevious = none

theorem removeOld_safe {f : Fixed} {state : FixedState} (hf : f.staged.beside = true ∧ f.previous.beside = true)
    (h : Staging W card card') :
    (removeOld f state).Safe (cardActs whole) (Staging W card)
      (fun ok c => ok = true ∧ Staging W card c ∧ (state ≠ .same → c f.previous = none) ∧
        ∀ p, p ≠ f.staged → p ≠ f.previous → c p = card' p) card' := by
  unfold removeOld
  split
  case isTrue hsame => exact ⟨h, rfl, h, fun hne => absurd hsame hne, fun _ _ _ => rfl⟩
  case isFalse =>
    have h1 := h.update f.staged none (.inr (.inr (.inr ⟨hf.1, rfl⟩)))
    have h2 := h1.update f.previous none (.inr (.inr (.inr ⟨hf.2, rfl⟩)))
    refine remove_check h (remove_safe h1 h2 ⟨rfl, h2, fun _ => update_self .., fun p hp1 hp2 => ?_⟩)
    rw [update_of_ne hp2, update_of_ne hp1]

/-- The file that a stop may have left is kept only if it is the right one. -/
theorem immutable_kept {data : Bytes} {Q : Bool → Card → Prop} (hsmall : data.length ≤ payloadLimit) (hnow : P card)
    (hwrite : card path = none → ∀ n, P (update card path (some (data.take n))))
    (hbad : Q false card) (hold : ∀ b, card path = some b → sameFile env b data = true → Q true card)
    (hnew : card path = none → Q true (update card path (some data))) :
    (immutableFile env path data).Safe (cardActs whole) P Q card := by
  cases hpath : card path with
  | none =>
    have hall := hwrite hpath data.length
    rw [List.take_length] at hall
    exact immutable_safe hpath hsmall hnow (fun _ n _ => hwrite hpath n) hall (hnew hpath)
  | some b =>
    unfold immutableFile
    refine read_safe ?_
    rw [hpath, readOf]
    by_cases hread : b.length ≤ payloadLimit
    · rw [if_pos hread]
      refine ⟨hnow, ?_⟩
      cases hsame : sameFile env b data with
      | false => exact hbad
      | true => exact hold b hpath hsame
    · rw [if_neg hread]
      exact ⟨hnow, hbad⟩

theorem iniLimit_le : iniLimit ≤ payloadLimit := by decide

theorem stage_safe {s : Started} (hrest : Rested card) (hini : card .ini = some s.ini)
    (hbefore : s.ini.length ≤ iniLimit) (hafter : s.output.length ≤ iniLimit)
    (hkernel : s.kernelState = stateOf env (card .mesosphere) s.plan.kernel) (hkread : s.kernelState ≠ .unreadable)
    (hloader : s.stockState = if s.plan.hoc then .same else stateOf env (card .stockKip) s.plan.loader)
    (hlread : s.stockState ≠ .unreadable) (hW : ∀ n, W (s.output.take n)) :
    (stage env s).Safe (cardActs whole) (Staging W card)
      (fun result c => Staging W card c ∧ ∀ s', result = .ok s' → s' = s ∧ Begun env s c) card := by
  have hbad : ∀ (r : Result) (c : Card), Staging W card c →
      Staging W card c ∧ ∀ s', (.error r : Except Result Started) = .ok s' → s' = s ∧ Begun env s c :=
    fun r c hc => ⟨hc, fun s' h => by cases h⟩
  have hrefl := Staging.refl (W := W) card
  have h1 := hrefl.update .backup none (.inl rfl)
  have h2 := h1.update .updateBackup none (.inr (.inl rfl))
  unfold stage
  refine Prog.Safe.check (T := fun c => Staging W card c ∧ ∀ update, c (backupPath update) = none)
    (removeIniBackups_safe hrefl h1 h2 ⟨rfl, h2, fun update => by cases update <;> rfl⟩) ?_
  rintro c1 ⟨hc1, hbackup1⟩
  refine Prog.Safe.check (removeOld_safe ⟨rfl, rfl⟩ hc1) ?_
  rintro c2 ⟨hc2, hkprevious, hkeep2⟩
  refine Prog.Safe.check (removeOld_safe ⟨rfl, rfl⟩ hc2) ?_
  rintro c3 ⟨hc3, hlprevious, hkeep3⟩
  have hbackup3 : c3 (backupPath s.plan.change.isUpdate) = none := by
    rw [← hbackup1 s.plan.change.isUpdate]
    cases s.plan.change.isUpdate with
    | false => rw [hkeep3 _ (by decide) (by decide), hkeep2 _ (by decide) (by decide)]
    | true => rw [hkeep3 _ (by decide) (by decide), hkeep2 _ (by decide) (by decide)]
  have hstages : ∀ file, Stages W (backupPath s.plan.change.isUpdate) file := by
    intro file
    cases s.plan.change.isUpdate with
    | false => exact .inl rfl
    | true => exact .inr (.inl rfl)
  have hne : ∀ p : Path, p.own = false → p ≠ backupPath s.plan.change.isUpdate := by
    rintro p hp rfl
    rw [backupPath_own] at hp
    cases hp
  have hc4 := hc3.update _ (some s.ini) (hstages _)
  refine Prog.Safe.check (T := fun c => c = update c3 (backupPath s.plan.change.isUpdate) (some s.ini))
    (immutable_safe hbackup3 (Nat.le_trans hbefore iniLimit_le) hc3 (fun _ n _ => hc3.update _ _ (hstages _)) hc4
      ⟨rfl, rfl⟩) ?_
  rintro c4 hc4eq
  have hbackup4 : c4 (backupPath s.plan.change.isUpdate) = some s.ini := by rw [hc4eq, update_self]
  have hkprevious4 : s.kernelState ≠ .same → c4 .mesospherePrevious = none := by
    intro hchanged
    rw [hc4eq, update_of_ne (hne _ rfl), hkeep3 _ (by decide) (by decide)]
    exact hkprevious hchanged
  have hlprevious4 : s.stockState ≠ .same → c4 .stockPrevious = none := by
    intro hchanged
    rw [hc4eq, update_of_ne (hne _ rfl)]
    exact hlprevious hchanged
  rw [← hc4eq] at hc4
  have hWstaged : ∀ n, Stages W .staged (some (s.output.take n)) := fun n => .inr (.inr (.inl ⟨rfl, _, rfl, hW n⟩))
  -- the staged INI is written, or was left there by an install that was stopped
  refine Prog.Safe.checked (T := fun c => Staging W card c ∧
      c (backupPath s.plan.change.isUpdate) = some s.ini ∧ (s.kernelState ≠ .same → c .mesospherePrevious = none) ∧
      (s.stockState ≠ .same → c .stockPrevious = none) ∧ ∃ b, c .staged = some b ∧ sameFile env b s.output = true)
    ?_ (hbad .io) ?_
  · refine immutable_kept (Nat.le_trans hafter iniLimit_le) hc4 (fun _ n => hc4.update _ _ (hWstaged n))
      ⟨hc4, fun h => by cases h⟩ (fun b hb hsame => ⟨hc4, fun _ => ⟨hc4, hbackup4, hkprevious4, hlprevious4, b, hb, hsame⟩⟩)
      fun _ => ?_
    have hc5 := hc4.update _ _ (hWstaged s.output.length)
    rw [List.take_length] at hc5
    refine ⟨hc5, fun _ => ⟨hc5, ?_, hkprevious4, hlprevious4, s.output, update_self .., sameFile_self ..⟩⟩
    rw [update_of_ne (by cases s.plan.change.isUpdate <;> decide), hbackup4]
  · rintro c5 ⟨hc5, hbackup, hkp, hlp, hstaged⟩
    refine read_safe ?_
    have hini5 : c5 .ini = some s.ini := (hc5.keep rfl).trans hini
    rw [hini5, readOf_some hbefore]
    dsimp only
    rw [if_pos rfl]
    refine ⟨hc5, hc5, fun s' hs' => ⟨(Except.ok.inj hs').symm, ?_⟩⟩
    refine ⟨⟨(hc5.keep rfl).trans hrest.journal, (hc5.keep rfl).trans hrest.committed, hrest.hoc.beyond hc5.beyond⟩,
      hini5, hbackup, hstaged, hbefore, hafter, ?_, hkread, hkp, ?_, hlread, hlp⟩
    · rw [hkernel, hc5.keep (p := .mesosphere) rfl]
    · rw [hloader, hc5.keep (p := .stockKip) rfl]

theorem prepare_safe {choose : Card → Bytes → Except Result Plan}
    (hrecover : (recover env).Safe (cardActs whole) P (fun result c => P c ∧ (result = .ok → Rested c)) card)
    (hstaging : ∀ c c', P c → Rested c → Staging W c c' → P c')
    (hW : ∀ c ini plan, P c → Rested c → c .ini = some ini → choose c ini = .ok plan →
      ∀ n, W ((plan.change.output ini).take n)) :
    (prepare env choose).Safe (cardActs whole) P (fun result c => P c ∧ ∀ s, result = .ok s →
      Begun env s c ∧ ∃ c', choose c' s.ini = .ok s.plan) card := by
  unfold prepare
  refine hrecover.bind fun result c hc => ?_
  obtain ⟨hP, hrested⟩ := hc
  have hbad : ∀ r : Result, (Prog.ret (.error r) : Io (Except Result Started)).Safe (cardActs whole) P
      (fun result c => P c ∧ ∀ s, result = .ok s → Begun env s c ∧ ∃ c', choose c' s.ini = .ok s.plan) c :=
    fun r => ⟨hP, hP, fun s h => by cases h⟩
  split
  · exact hbad result
  case isFalse hok =>
    have hrest := hrested (not_not.mp hok)
    refine read_safe ?_
    cases hread : readOf (c .ini) iniLimit with
    | error => exact hbad .io
    | missing => exact hbad .io
    | data ini =>
      obtain ⟨hini, hbefore⟩ := readOf_data hread
      dsimp only
      rw [Prog.Safe]
      cases hchoose : choose c ini with
      | error r => exact hbad r
      | ok plan =>
        refine fixedState_safe ?_
        have htail : ∀ kernelState stockState, kernelState = stateOf env (c .mesosphere) plan.kernel →
            (stockState = if plan.hoc then .same else stateOf env (c .stockKip) plan.loader) →
            (if kernelState = .unreadable ∨ stockState = .unreadable then
                (Prog.ret (.error .unsupported) : Io (Except Result Started))
              else if (plan.change.output ini).length > iniLimit then .ret (.error .unsupported)
              else stage env ⟨plan, ini, kernelState, stockState⟩).Safe (cardActs whole) P
              (fun result c => P c ∧ ∀ s, result = .ok s → Begun env s c ∧ ∃ c', choose c' s.ini = .ok s.plan) c := by
          intro kernelState stockState hkernel hloader
          split
          · exact hbad .unsupported
          case isFalse hread =>
            rw [not_or] at hread
            split
            · exact hbad .unsupported
            case isFalse hafter =>
              have hsmall : (plan.change.output ini).length ≤ iniLimit := Nat.not_lt.mp hafter
              refine (stage_safe (s := ⟨plan, ini, kernelState, stockState⟩) hrest hini hbefore hsmall hkernel hread.1 hloader hread.2
                (hW c ini plan hP hrest hini hchoose)).mono (fun c' hc' => hstaging c c' hP hrest hc') ?_
              rintro result c' ⟨hc', hbegun⟩
              refine ⟨hstaging c c' hP hrest hc', fun s hs => ?_⟩
              obtain ⟨rfl, hstarted⟩ := hbegun s hs
              exact ⟨hstarted, c, hchoose⟩
        cases hhoc : plan.hoc with
        | true => exact htail _ _ rfl (by rw [hhoc]; rfl)
        | false => exact fixedState_safe (htail _ _ rfl (by rw [hhoc]; rfl))

end Autorun.Setup
