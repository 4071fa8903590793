import Autorun.Proofs.BootSetup

namespace Autorun.Setup

open Autorun.Lib Function

variable {env : Env} {whole : Path → Prop} {α : Type} {P : Card → Prop} {Q : α → Card → Prop} {card : Card}

/-! The HOC loader. -/

section Loader

variable {old : Option Bytes} {New : Bytes → Prop}

def LoaderKept (old : Option Bytes) (card : Card) : Prop :=
  card .hocKip = old ∧ (old = none → card .hocPrevious = none)

/-- What an install that is stopped or fails leaves of the loader. -/
inductive LoaderAt (old : Option Bytes) (New : Bytes → Prop) (card : Card) : Prop
  | kept (h : LoaderKept old card)
  | moved (hkip : card .hocKip = none) (hprevious : card .hocPrevious = old)
  | new (n : Bytes) (hn : New n) (hkip : card .hocKip = some n) (hprevious : old ≠ none → card .hocPrevious = old)

def LoaderIs (old : Option Bytes) (New : Bytes → Prop) (card : Card) : Prop :=
  card .hocKip = old ∨ ∃ n, New n ∧ card .hocKip = some n

theorem loaderKept_beyond {c c' : Card} (h : LoaderKept old c) (hbeyond : Beyond c c') : LoaderKept old c' := by
  unfold LoaderKept
  rw [hbeyond .hocKip rfl, hbeyond .hocPrevious rfl]
  exact h

theorem loaderAt_congr {c c' : Card} (h : LoaderAt old New c) (hkip : c' .hocKip = c .hocKip)
    (hprevious : c' .hocPrevious = c .hocPrevious) : LoaderAt old New c' := by
  cases h with
  | kept h =>
    refine .kept ?_
    unfold LoaderKept
    rw [hkip, hprevious]
    exact h
  | moved h1 h2 => exact .moved (hkip.trans h1) (hprevious.trans h2)
  | new n hn h1 h2 => exact .new n hn (hkip.trans h1) fun hne => hprevious.trans (h2 hne)

theorem loaderAt_beyond {c c' : Card} (h : LoaderAt old New c) (hbeyond : Beyond c c') : LoaderAt old New c' :=
  loaderAt_congr h (hbeyond _ rfl) (hbeyond _ rfl)

/-- A recovery of the loader that says yes has found it, or has put it back. -/
theorem recoverHoc_faulty (h : LoaderAt old New card) :
    (recoverHoc env).Safe (faultyActs whole) (LoaderAt old New)
      (fun ok c => LoaderAt old New c ∧ (ok = true → LoaderIs old New c)) card := by
  have hno : (Prog.ret false : Io Bool).Safe (faultyActs whole) (LoaderAt old New)
      (fun ok c => LoaderAt old New c ∧ (ok = true → LoaderIs old New c)) card :=
    ⟨h, h, fun hok => by cases hok⟩
  unfold recoverHoc
  refine faulty_read hno ?_
  cases hread : readOf (card .hocKip) payloadLimit with
  | error => exact hno
  | data b =>
    have hkip := (readOf_data hread).1
    refine ⟨h, h, fun _ => ?_⟩
    cases h with
    | kept h => exact .inl h.1
    | moved hnone _ => cases hnone.symm.trans hkip
    | new n hn hn' _ => exact .inr ⟨n, hn, hn'⟩
  | missing =>
    have hkip := readOf_missing hread
    -- the loader is missing: there was none, or it is beside its place
    have hprevious : card .hocPrevious = old := by
      cases h with
      | kept h => rw [h.2 (h.1.symm.trans hkip), ← h.1, hkip]
      | moved _ hprevious => exact hprevious
      | new n _ hn _ => cases hkip.symm.trans hn
    refine faulty_read hno ?_
    cases hread : readOf (card .hocPrevious) payloadLimit with
    | error => exact hno
    | missing => exact ⟨h, h, fun _ => .inl (hkip.trans ((readOf_missing hread).symm.trans hprevious))⟩
    | data b =>
      have hold : old ≠ none := by
        rw [← hprevious, (readOf_data hread).1]
        exact Option.some_ne_none b
      have hback : LoaderKept old ((Act.rename .hocPrevious .hocKip).apply card) :=
        ⟨hprevious, fun hnone => absurd hnone hold⟩
      dsimp only
      split
      · refine (faulty_move h fun _ => .kept hback).mono (fun _ hc => hc) fun ok c hc => ⟨hc.2.1, fun hok => ?_⟩
        rw [hc.1 hok]
        exact .inl hback.1
      · exact hno

theorem replaceHoc_faulty {loader : Bytes} (hwhole : whole .hocKip ∨ old ≠ none) (hnew : New loader)
    (h : LoaderKept old card) :
    (replaceHoc env loader).Safe (faultyActs whole) (LoaderAt old New) (fun _ => LoaderAt old New) card := by
  obtain ⟨rfl, hprevious⟩ := h
  exact replaceHoc_safe (.kept ⟨rfl, hprevious⟩)
    (fun hnone htorn => absurd (hwhole.resolve_right (· hnone)) htorn)
    (fun hnone => .new loader hnew (update_self ..) fun hsome => absurd hnone hsome)
    fun current hkip _ _ => ⟨fun c _ hc => .kept ⟨hc.trans hkip.symm, fun hnone => (by cases hkip.symm.trans hnone)⟩,
      fun c _ hnone hmoved => .moved hnone (hmoved.trans hkip.symm),
      fun c _ hc hmoved => .new loader hnew hc fun _ => hmoved.trans hkip.symm⟩

end Loader

/-! The rest of an install leaves the loader alone. -/

theorem immutableFile_each {I : Act → Prop} (hread : I (.read path)) (h : I (.create path data))
    (hundo : I (.unlink path)) : (immutableFile env path data).Each I := by
  refine (readFile_each hread _).bind fun read => ?_
  cases read with
  | missing =>
    refine (writeNew_each h hundo).check ((readFile_each hread _).bind fun read => ?_)
    cases read <;> exact trivial
  | _ => exact trivial

theorem fixedState_inside (path : Path) (data : Bytes) : (fixedState env path data).Each Act.Inside := by
  refine (readFile_each trivial _).bind fun read => ?_
  cases read <;> exact trivial

theorem removeOld_inside {f : Fixed} (hf : f ∈ targets) (state : FixedState) : (removeOld f state).Each Act.Inside := by
  unfold removeOld
  split
  · exact trivial
  · rcases eq_of_target hf with rfl | rfl
    · exact Prog.Each.check (removeFile_each rfl) (removeFile_each rfl)
    · exact Prog.Each.check (removeFile_each rfl) (removeFile_each rfl)

theorem stage_inside (s : Started) : (stage env s).Each Act.Inside := by
  have hbackup : (backupPath s.plan.change.isUpdate).outside = false := by
    cases s.plan.change.isUpdate <;> rfl
  refine Prog.Each.check (removeIniBackups_each rfl rfl) (Prog.Each.check (removeOld_inside mesosphere_target _) ?_)
  refine Prog.Each.check (removeOld_inside stock_target _) ?_
  refine Prog.Each.check (immutableFile_each trivial hbackup hbackup) ?_
  refine Prog.Each.check (immutableFile_each trivial rfl rfl) ((readFile_each trivial _).bind fun read => ?_)
  cases read <;> exact trivial

theorem replaceFixed_inside {f : Fixed} (hf : f ∈ targets) (data : Bytes) (state : FixedState) :
    (replaceFixed env f data state).Each Act.Inside := by
  have hin : f.path.outside = false ∧ f.staged.outside = false ∧ f.previous.outside = false := by
    rcases eq_of_target hf with rfl | rfl <;> exact ⟨rfl, rfl, rfl⟩
  obtain ⟨hpath, hstaged, hprevious⟩ := hin
  have hexchange : (replaceFixed env f data .differs).Each Act.Inside := by
    refine Prog.Each.check (removeFile_each hstaged) (Prog.Each.check (writeNew_each hstaged hstaged) ?_)
    refine Prog.Each.check (moveFile_each ⟨hpath, hprevious⟩) ((moveFile_each ⟨hstaged, hpath⟩).bind fun moved => ?_)
    split
    · refine (readFile_each trivial _).bind fun read => ?_
      cases read <;> exact trivial
    · exact (moveFile_each ⟨hprevious, hpath⟩).bind fun _ => trivial
  cases state with
  | same => exact trivial
  | absent => exact immutableFile_each trivial hpath hpath
  | differs => exact hexchange
  | unreadable => exact hexchange

theorem commit_inside (s : Started) : (match s.plan.change with
      | .add .. => appendCommit s.output s.ini.length
      | .update _ => if env.hash s.ini = env.hash s.output then .ret true else replaceCommit).Each Act.Inside := by
  split
  · intro c
    dsimp only
    split
    · exact trivial
    · split
      · exact ⟨rfl, fun _ => trivial⟩
      · exact trivial
  · split
    · exact trivial
    · refine Prog.Each.check (unlinkFile_each rfl) fun c => ?_
      dsimp only
      split
      · exact ⟨⟨rfl, rfl⟩, fun _ => trivial⟩
      · exact trivial

def recoverRest (env : Env) : Io Result :=
  (readFile .journal 72).bind fun
    | .missing =>
      (removeFile .committed).check .recovery <| (recoverMissingFixed stock).check .recovery <|
      (recoverMissingFixed mesosphere).check .recovery (.ret .ok)
    | .error => .ret .recovery
    | .data journal =>
      match Transaction.ofBytes journal with
      | none => .ret .recovery
      | some t => recoverTransaction env t

theorem recoverRest_inside : (recoverRest env).Each Act.Inside := by
  refine (readFile_each trivial _).bind fun read => ?_
  cases read with
  | error => exact trivial
  | missing =>
    refine Prog.Each.check (removeFile_each rfl) ?_
    refine Prog.Each.check (recoverMissingFixed_each (fun _ => trivial) ⟨rfl, rfl⟩) ?_
    exact Prog.Each.check (recoverMissingFixed_each (fun _ => trivial) ⟨rfl, rfl⟩) trivial
  | data journal =>
    dsimp only
    split
    · exact trivial
    · exact recoverTransaction_inside _

section Loader

variable {old : Option Bytes} {New : Bytes → Prop}

theorem recover_loader (h : LoaderAt old New card) :
    (recover env).Safe (faultyActs whole) (LoaderAt old New)
      (fun result c => LoaderAt old New c ∧ (result = .ok ∨ result = .already → LoaderIs old New c)) card := by
  refine Prog.Safe.bind (recoverHoc_faulty h) fun ok c hc => ?_
  split
  case isFalse =>
    refine ⟨hc.1, hc.1, fun hresult => ?_⟩
    rcases hresult with hresult | hresult <;> cases hresult
  case isTrue hok =>
    have hkeeps : Prog.Keeps (faultyActs whole) Act.Inside fun c => LoaderAt old New c ∧ LoaderIs old New c := by
      refine faulty_keeps fun c c' hc hbeyond => ⟨loaderAt_beyond hc.1 hbeyond, ?_⟩
      unfold LoaderIs
      rw [hbeyond .hocKip rfl]
      exact hc.2
    exact (recoverRest_inside.safe hkeeps ⟨hc.1, hc.2 hok⟩).mono (fun _ hc => hc.1)
      fun _ _ hc => ⟨hc.1, fun _ => hc.2⟩

theorem recover_kept (h : LoaderKept old card) :
    (recover env).Safe (faultyActs whole) (LoaderKept old) (fun _ c => LoaderKept old c) card := by
  refine Prog.Safe.bind (recoverHoc_keeps h fun hkip hsome => ?_) fun ok c hc => ?_
  · rw [h.2 (h.1.symm.trans hkip)] at hsome
    cases hsome
  split
  · exact recoverRest_inside.safe (faulty_keeps fun _ _ => loaderKept_beyond) hc
  · exact ⟨hc, hc⟩

theorem prepare_kept {choose : Card → Bytes → Except Result Plan} (h : LoaderKept old card) :
    (prepare env choose).Safe (faultyActs whole) (LoaderKept old) (fun _ c => LoaderKept old c) card := by
  refine (recover_kept h).bind fun result c hc => Prog.Each.safe ?_ (faulty_keeps fun _ _ => loaderKept_beyond) hc
  split
  · exact trivial
  refine (readFile_each trivial _).bind fun read => ?_
  cases read with
  | error => exact trivial
  | missing => exact trivial
  | data ini =>
    intro c
    dsimp only
    split
    · exact trivial
    case h_2 plan hplan =>
      refine (fixedState_inside _ _).bind fun kernelState => Prog.Each.bind ?_ fun stockState => ?_
      · split
        · exact trivial
        · exact fixedState_inside _ _
      · split
        · exact trivial
        split
        · exact trivial
        · exact stage_inside _

/-- The journal, the files at fixed places and the INI are not the loader. -/
theorem transact_loader {s : Started} (hwhole : whole .hocKip ∨ old ≠ none)
    (hnew : s.plan.hoc = true → New s.plan.loader) (h : LoaderKept old card) :
    (transact env s).Safe (faultyActs whole) (LoaderAt old New) (fun _ c => LoaderAt old New c) card := by
  have hkeeps : Prog.Keeps (faultyActs whole) Act.Inside (LoaderKept old) := faulty_keeps fun _ _ => loaderKept_beyond
  have hat : Prog.Keeps (faultyActs whole) Act.Inside (LoaderAt old New) := faulty_keeps fun _ _ => loaderAt_beyond
  have hrecover : ∀ (c : Card) (answer : Result → Result), LoaderAt old New c →
      ((recover env).bind fun result => .ret (answer result)).Safe (faultyActs whole) (LoaderAt old New)
        (fun _ c => LoaderAt old New c) c :=
    fun c _ hc => (recover_loader hc).bind fun _ c' hc' => ⟨hc'.1, hc'.1⟩
  have early : ∀ {β : Type} {p : Io β} {c : Card}, p.Each Act.Inside → LoaderKept old c →
      p.Safe (faultyActs whole) (LoaderAt old New) (fun _ => LoaderKept old) c :=
    fun hp hc => (hp.safe hkeeps hc).mono (fun _ hc => .kept hc) fun _ _ hc => hc
  unfold transact
  refine Prog.Safe.bind (early (writeNew_each rfl rfl) h) fun ok c1 hc1 => ?_
  split
  case isFalse => exact ⟨.kept hc1, .kept hc1⟩
  refine Prog.Safe.bind (early (replaceFixed_inside mesosphere_target _ _) hc1) fun kernel c2 hc2 => ?_
  refine Prog.Safe.bind (early (p := if kernel ∧ ¬ s.plan.hoc then _ else .ret kernel) ?_ hc2) fun fixed c3 hc3 => ?_
  · split
    · exact replaceFixed_inside stock_target _ _
    · exact trivial
  split
  · exact hrecover c3 _ (.kept hc3)
  have hloader : (if s.plan.hoc then replaceHoc env s.plan.loader else .ret true).Safe (faultyActs whole)
      (LoaderAt old New) (fun _ c => LoaderAt old New c) c3 := by
    split
    case isTrue hhoc => exact replaceHoc_faulty hwhole (hnew hhoc) hc3
    case isFalse => exact ⟨.kept hc3, .kept hc3⟩
  refine hloader.bind fun loader c4 hc4 => ?_
  split
  · exact hrecover c4 _ hc4
  refine Prog.Safe.bind ((commit_inside s).safe hat hc4) fun published c5 hc5 => ?_
  split
  · exact hrecover c5 _ hc5
  refine Prog.Safe.bind (Q := fun _ c => LoaderAt old New c) ?_ fun complete c6 hc6 => ?_
  · split
    · have hmarker : (writeNew .committed (env.hash s.output)).Each Act.Inside := writeNew_each rfl rfl
      exact hmarker.safe hat hc5
    · exact ⟨hc5, hc5⟩
  split
  · exact hrecover c6 _ hc6
  · exact hrecover c6 _ hc6

end Loader

/-- If a loader was there before, or the write of the first one is not cut short, a recovery that ends well leaves
the loader that was there or the complete new one. -/
theorem hoc_loader_old_or_new (env : Env) (whole : Path → Prop) (choose : Card → Bytes → Except Result Plan)
    (card₀ card₁ card₂ : Card) (result : Result)
    (hcard : (card₀ .hocKip).isSome ∨ (whole .hocKip ∧ card₀ .hocPrevious = none))
    (hinstall : (install env choose).Leaves (faultyActs whole) card₀ card₁)
    (hrecover : (recover env).Ends (faultyActs whole) card₁ result card₂) (hresult : result = .ok ∨ result = .already) :
    card₂ .hocKip = card₀ .hocKip ∨ ∃ s c, (prepare env choose).Ends (faultyActs whole) card₀ (.ok s) c ∧
      (transact env s).Leaves (faultyActs whole) c card₁ ∧ s.plan.hoc = true ∧ card₂ .hocKip = some s.plan.loader := by
  have hkept : LoaderKept (card₀ .hocKip) card₀ := by
    refine ⟨rfl, fun hnone => ?_⟩
    rcases hcard with hsome | ⟨-, hprevious⟩
    · rw [hnone] at hsome
      cases hsome
    · exact hprevious
  have hwhole : whole .hocKip ∨ card₀ .hocKip ≠ none := by
    rcases hcard with hsome | ⟨hwhole, -⟩
    · exact .inr (Option.isSome_iff_ne_none.mp hsome)
    · exact .inl hwhole
  have hold : LoaderKept (card₀ .hocKip) card₁ → card₂ .hocKip = card₀ .hocKip := by
    intro h
    have hat : LoaderAt (card₀ .hocKip) (fun _ => False) card₁ := .kept h
    rcases ((recover_loader hat).ends hrecover).2 hresult with hsame | ⟨_, hn, -⟩
    · exact hsame
    · exact hn.elim
  rcases hinstall.bind_cases with hcut | ⟨prepared, c, hprepare, hrest⟩
  · exact .inl (hold ((prepare_kept hkept).cut hcut))
  have hc := (prepare_kept hkept).ends hprepare
  cases prepared with
  | error r =>
    rcases hrest with rfl | ⟨_, -, rfl⟩ <;> exact .inl (hold hc)
  | ok s =>
    have hat : LoaderAt (card₀ .hocKip) (fun b => s.plan.hoc = true ∧ b = s.plan.loader) card₁ :=
      (transact_loader hwhole (fun hhoc => ⟨hhoc, rfl⟩) hc).leaves hrest
    rcases ((recover_loader hat).ends hrecover).2 hresult with hsame | ⟨_, ⟨hhoc, rfl⟩, hnew⟩
    · exact .inl hsame
    · exact .inr ⟨s, c, hprepare, hrest, hhoc, hnew⟩

/-- A stop that finds no loader in its place. -/
theorem hoc_loader_old_or_new_moved :
    let acts := faultyActs fun _ => False
    let card₀ := update newCard .hocKip (some [9])
    ∃ card₁, (install padEnv (newChoice true)).Leaves acts card₀ card₁ ∧ card₁ .hocKip = none ∧
      let card₂ := ((recover padEnv).run acts card₁).2
      (card₂ .hocKip = some [9] ∨ ∃ s c, (prepare padEnv (newChoice true)).Ends acts card₀ (.ok s) c ∧
        (transact padEnv s).Leaves acts c card₁ ∧ s.plan.hoc = true ∧ card₂ .hocKip = some s.plan.loader) := by
  intro acts card₀
  have hfault : (install padEnv (newChoice true)).fault acts 22 card₀ = some (_, _, _) := rfl
  have hstop := (Prog.leaves_fault hfault).1 (.inl rfl)
  exact ⟨_, hstop, rfl, hoc_loader_old_or_new padEnv (fun _ => False) (newChoice true) _ _ _ _ (.inl rfl) hstop
    (Prog.ends_run _ _) (.inl rfl)⟩

def hocStart : Started := ⟨newPlan true, [1], .absent, .same⟩

/-- The kernel is in its place, and no more than the name of the first loader. -/
def tornLoader : Card :=
  update (halfDone hocStart ((prepare padEnv (newChoice true)).run (faultyActs fun _ => False) newCard).2) .hocKip (some [])

/-- No loader was there, and the write of the first one is cut short: a recovery says OK and the part stays. -/
theorem first_loader_stays_torn :
    let card₂ := ((recover padEnv).run (faultyActs fun _ => False) tornLoader).2
    (install padEnv (newChoice true)).Cut (faultyActs fun _ => False) newCard tornLoader ∧
      (recover padEnv).Ends (faultyActs fun _ => False) tornLoader .ok card₂ ∧
      newCard .hocKip = none ∧ (newPlan true).loader = [2] ∧ card₂ .hocKip = some [] := by
  refine ⟨Prog.cut_bind _ _ (Prog.cut_bind (writeNew .journal _) _ ?_), Prog.ends_run (recover padEnv) tornLoader,
    rfl, rfl, rfl⟩
  refine Prog.cut_bind (replaceFixed padEnv mesosphere _ _) _ (Prog.cut_bind (.ret true) _ ?_)
  exact .inr (.inl (.inr (.inl (.inl (.inr ⟨id, 0, by decide, rfl⟩)))))

end Autorun.Setup
