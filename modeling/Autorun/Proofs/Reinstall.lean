import Mathlib.Data.List.Basic
import Autorun.Setup.Releases

namespace Autorun.Releases

open Autorun.Lib Function List

variable {F : Faults} {job : Job}

def Op.changes : Op → List Place
  | .make m | .write m => [.new m]
  | .removeEntry p | .removeDir p => [p]
  | .rename m => [.new m, .final m]
  | _ => []

def Act.Apart (a : Act) : Prop := ∀ m, Place.final m ∉ a.op.changes

variable {p : Place} {a : Act}

theorem apply_apart (h : p ∉ a.op.changes) (card : Card) : a.apply card p = card p := by
  obtain ⟨op, name, data⟩ := a
  cases op <;> simp_all [Op.changes, Act.apply]

variable {card : Card}

theorem part_apart {card' : Card} (h : p ∉ a.op.changes) (hpart : a.part card card') :
    card' p = card p := by
  rcases hpart with rfl | ⟨m, n, hop, rfl⟩
  · rfl
  · exact update_of_ne (fun he => h (by simp [hop, Op.changes, he])) _ _

theorem keeps_apart (F : Faults) (P : (Machine → Option Folder) → Prop) :
    Prog.Keeps F.acts Act.Apart (fun c => P fun m => c (.final m)) where
  step := fun a c ha hc => by
    rw [show (fun m => F.acts.apply a c (.final m)) = fun m => c (.final m) from funext fun m => apply_apart (ha m) c]
    exact hc
  stop := fun a c c' ha hc hstop => by
    rw [show (fun m => c' (.final m)) = fun m => c (.final m) from funext fun m => part_apart (ha m) hstop.2]
    exact hc
  fail := fun a c c' ha hc hfail => by
    rw [show (fun m => c' (.final m)) = fun m => c (.final m) from funext fun m => part_apart (ha m) hfail.2]
    exact hc

theorem removeEntries_apart (m : Machine) (folder : Folder) : (removeEntries (.new m) folder).Each Act.Apart := by
  induction folder with
  | nil => exact trivial
  | cons file rest ih =>
    refine ⟨by simp [Act.Apart, Op.changes], fun found => ?_⟩
    cases found with
    | false => exact ih
    | true => exact ⟨by simp [Act.Apart, Op.changes], fun _ => ih⟩

theorem removeTree_apart (m : Machine) : (removeTree (.new m)).Each Act.Apart := by
  refine ⟨by simp [Act.Apart, Op.changes], fun opened => ?_⟩
  cases opened with
  | false => exact trivial
  | true =>
    refine fun card => (removeEntries_apart m _).bind fun _ card => ?_
    dsimp only
    split
    · exact ⟨by simp [Act.Apart, Op.changes], fun _ => trivial⟩
    · exact trivial

theorem failed_apart (result : Result) : (Job.failed result).Each Act.Apart :=
  ⟨by simp [Act.Apart, Op.changes], fun _ => (removeTree_apart .x32).bind fun _ => (removeTree_apart .x64).bind fun _ => trivial⟩

theorem validate_apart (job : Job) (m : Machine) : (job.validate m).Each Act.Apart :=
  ⟨by simp [Act.Apart, Op.changes], fun _ _ => trivial⟩

theorem fill_apart (job : Job) : job.fill.Each Act.Apart := by
  unfold Job.fill
  split
  · exact trivial
  · refine (Prog.Each.all (by simp [Act.Apart, Op.changes])).check ?_
    split
    · exact trivial
    · refine (Prog.Each.all fun a ha => ?_).check ?_
      · obtain ⟨e, -, rfl⟩ := mem_map.mp ha
        simp [Act.Apart, Op.changes]
      split
      · exact trivial
      · exact (validate_apart job .x32).check ((validate_apart job .x64).check
          ((Prog.Each.all (by simp [Act.Apart, Op.changes])).check trivial))

theorem lookup_write_ne {name other : String} (h : other ≠ name) (folder : Folder) (data : Bytes) :
    List.lookup other (folder.write name data) = List.lookup other folder := by
  have hne : (other == name) = false := by simpa using h
  induction folder with
  | nil => simp [Folder.write, lookup_cons, hne]
  | cons file rest ih =>
    obtain ⟨n, d⟩ := file
    unfold Folder.write at ih ⊢
    by_cases hn : n = name
    · subst hn
      simpa [lookup_cons, hne] using ih
    · simp only [filter_cons, bne_iff_ne, ne_eq, hn, not_false_eq_true, if_true, cons_append, lookup_cons]
      split
      · rfl
      · exact ih

theorem valid_write_info (job : Job) (m : Machine) (folder : Folder) (data : Bytes) :
    job.valid m (folder.write "release.ini" data) = job.valid m folder := by
  have hdlls : ∀ dll ∈ job.backend.dlls, dll ≠ "release.ini" := by
    cases job.backend <;> decide
  have hfound : job.backend.dlls.filterMap (List.lookup · (folder.write "release.ini" data)) =
      job.backend.dlls.filterMap (List.lookup · folder) :=
    filterMap_congr fun dll hdll => lookup_write_ne (hdlls dll hdll) folder data
  unfold Job.valid validatePayload
  rw [hfound, lookup_write_ne (by decide)]

/-- The DLLs of the archive, the last of each name. -/
def Job.extracted (job : Job) (m : Machine) : Folder :=
  (job.files m).foldl (fun folder file => folder.write file.1 file.2) []

/-- The folder of the new release: its DLLs, `release.ini` and nothing else. -/
def Job.release (job : Job) (m : Machine) : Folder := (job.extracted m).write "release.ini" job.info

/-- Both new folders can take the place of the old ones. -/
def Job.Ready (job : Job) (card : Card) : Prop :=
  ∀ m, card (.new m) = some (job.release m) ∧ job.valid m (job.release m) = true

theorem extract_done (entries : List (Machine × String × Bytes)) (m : Machine) (card : Card) :
    (entries.map fun e => ({ op := .write e.1, name := e.2.1, data := e.2.2 } : Act)).foldl (fun c a => a.apply c) card (.new m) =
      (card (.new m)).map fun left =>
        ((entries.filter (·.1 == m)).map (·.2)).foldl (fun folder file => folder.write file.1 file.2) left := by
  induction entries generalizing card with
  | nil => simp
  | cons e rest ih =>
    rw [map_cons, foldl_cons, ih]
    by_cases hm : e.1 = m
    · simp [Act.apply, hm, Function.comp_def]
    · simp [Act.apply, hm, Ne.symm hm]

theorem validate_gives (job : Job) (m : Machine) (card : Card) : (job.validate m).Safe F.acts (fun _ => True)
    (fun ok c => True ∧ (ok = true → c = card ∧ ∃ folder, card (.new m) = some folder ∧ job.valid m folder = true)) card := by
  refine ⟨fun _ _ => trivial, ⟨trivial, trivial, fun hok => ⟨rfl, ?_⟩⟩, fun t _ => ⟨trivial, trivial, by simp⟩⟩
  have hany : (card (.new m)).any (job.valid m) = true := hok
  simpa [Option.any_eq_true] using hany

theorem refused_ne_ok {job : Job} {result : Result} (h : job.refused = some result) : result ≠ .ok := by
  unfold Job.refused at h
  grind

/-- A release that was filled in without a failure is complete and valid. -/
theorem fill_ready (job : Job) (hcard : ∀ m, card (.new m) = some []) :
    job.fill.Safe F.acts (fun _ => True) (fun result c => result = .ok → job.Ready c) card := by
  have hdone : ∀ (acts : List Act) (c : Card), (Prog.all acts).Safe F.acts (fun _ => True) (fun ok c' => True ∧
      (ok = true → c' = acts.foldl (fun c a => a.apply c) c)) c := by
    intro acts c
    exact (Prog.all_done F.acts acts c).mono (fun _ h => h) fun _ _ h => ⟨trivial, h⟩
  unfold Job.fill
  split
  · rename_i result hrefused
    exact ⟨trivial, fun hok => absurd hok (refused_ne_ok hrefused)⟩
  · refine (hdone _ card).checked (fun _ _ => by simp) fun c hc => ?_
    rw [show c = card from hc]
    split
    · exact ⟨trivial, by simp⟩
    refine (hdone _ _).checked (fun _ _ => by simp) fun c hc => ?_
    have hextracted : ∀ m, c (.new m) = some (job.extracted m) := by
      intro m
      rw [hc, extract_done]
      rw [hcard m]
      rfl
    split
    · exact ⟨trivial, by simp⟩
    refine (validate_gives job .x32 c).checked (fun _ _ => by simp) fun c' hc' => ?_
    obtain ⟨rfl, hx32⟩ := hc'
    refine (validate_gives job .x64 c').checked (fun _ _ => by simp) fun c'' hc'' => ?_
    obtain ⟨rfl, hx64⟩ := hc''
    refine (hdone _ _).checked (fun _ _ => by simp) fun c hc => ⟨trivial, fun _ m => ?_⟩
    constructor
    · rw [hc]
      cases m <;> simp [Act.apply, hextracted, Job.release]
    · rw [Job.release, valid_write_info]
      cases m <;> simp_all

/-- Between the removal of the old folders and the two renames. -/
def Op.critical : Op → Bool
  | .openDir (.final _) | .statEntry (.final _) | .removeEntry (.final _) | .removeDir (.final _) | .rename _ => true
  | _ => false

/-- From the first removal in the old x32 folder to the second rename nothing is stopped and nothing fails. -/
def Faults.Harmless (F : Faults) : Prop :=
  ∀ op, op.critical = true → ¬ F.fails op ∧ (op ≠ .openDir (.final .x32) → ¬ F.stops op)

/-- What an earlier install left in the new folders can be removed. -/
def Faults.Clears (F : Faults) (left : Machine → Prop) : Prop :=
  ∀ m, left m → ¬ F.fails (.openDir (.new m)) ∧ ¬ F.fails (.statEntry (.new m)) ∧ ¬ F.fails (.removeEntry (.new m))

/-- The operation does not fail, and is stopped only where nothing can be lost. -/
def Faults.Firm (F : Faults) (P : Card → Prop) (op : Op) : Prop := ¬ F.fails op ∧ (F.stops op → ∀ c, P c)

variable {P : Card → Prop}

theorem Faults.Firm.act (h : F.Firm P a.op) (card : Card) :
    (∀ c, F.acts.stop a card c → P c) ∧ ∀ c, ¬ F.acts.fail a card c :=
  ⟨fun c hstop => h.2 hstop.1 c, fun _ hfail => h.1 hfail.1⟩

theorem Faults.Harmless.firm {op : Op} (h : F.Harmless) (hop : op.critical = true) (hne : op ≠ .openDir (.final .x32)) :
    F.Firm P op :=
  ⟨(h op hop).1, fun hstop => absurd hstop ((h op hop).2 hne)⟩

theorem removeEntries_sure (hstat : F.Firm P (.statEntry p)) (hremove : F.Firm P (.removeEntry p)) (files : Folder)
    (card : Card) : (removeEntries p files).Sure F.acts P card := by
  induction files generalizing card with
  | nil => exact trivial
  | cons file rest ih =>
    obtain ⟨hstop, hfail⟩ := hstat.act (a := { op := .statEntry p }) card
    refine ⟨hstop, hfail, ?_⟩
    obtain ⟨hstop, hfail⟩ := hremove.act (a := { op := .removeEntry p, name := file.1 }) card
    exact ⟨hstop, hfail, ih _⟩

theorem removeEntries_run (place : Place) (files : Folder) (card : Card) :
    ((removeEntries place files).run F.acts card).2 =
      update card place ((card place).map (·.filter fun file => !(files.map (·.1)).contains file.1)) := by
  induction files generalizing card with
  | nil => simp [removeEntries, Prog.run]
  | cons file rest ih =>
    change ((removeEntries place rest).run F.acts (update card place _)).2 = _
    rw [ih]
    rw [update_idem, update_self, Option.map_map]
    refine congrArg (fun f => update card place (Option.map f (card place))) (funext fun folder => ?_)
    rw [Function.comp_apply, filter_filter]
    exact filter_congr fun f _ => by grind

/-- The loop of `remove_tree` empties the folder. -/
theorem removeEntries_all (p : Place) (card : Card) :
    ((removeEntries p ((card p).getD [])).run F.acts card).2 = update card p ((card p).map fun _ => []) := by
  rw [removeEntries_run]
  cases card p with
  | none => rfl
  | some folder =>
    have hempty : folder.filter (fun file => !(folder.map (·.1)).contains file.1) = [] := by
      refine filter_eq_nil_iff.mpr fun file hfile => ?_
      simpa using ⟨file.2, hfile⟩
    rw [Option.getD_some, Option.map_some, hempty]
    rfl

theorem removeOpened_run {place : Place} {folder : Folder} (hcard : card place = some folder) :
    ((removeOpened place).run F.acts card).2 = update card place none := by
  unfold removeOpened
  rw [Prog.run, Prog.run_bind, removeEntries_all, hcard, Option.map_some, Prog.run, if_pos (update_self ..)]
  exact update_idem ..

/-- A folder that is empty or not there, and everything else as before. -/
def Emptied (card : Card) (p : Place) (card' : Card) : Prop :=
  (card' p).getD [] = [] ∧ ∀ q ≠ p, card' q = card q

/-- Whatever fails at the end of `remove_tree`, an empty folder stays empty. -/
theorem removeDir_empties {card' : Card} (h : Emptied card p card') :
    (Prog.look fun c => if c p = some [] then .act { op := .removeDir p } fun _ => .ret () else .ret () : Io Unit).Safe
      F.acts (fun _ => True) (fun _ => Emptied card p) card' := by
  dsimp only [Prog.Safe]
  split
  · refine ⟨fun _ _ => trivial, ⟨trivial, ?_, fun q hq => ?_⟩, fun t hfail => ?_⟩
    · exact congrArg (Option.getD · []) (update_self (f := card') p none)
    · exact (update_of_ne hq ..).trans (h.2 q hq)
    · obtain rfl : t = card' := by simpa [Act.part] using hfail.2
      exact ⟨trivial, h⟩
  · exact ⟨trivial, h⟩

/-- `remove_tree` on a new folder in which there is nothing, or in which nothing fails before it is empty. -/
theorem removeTree_empties {left : Machine → Prop} (h : F.Clears left) {m : Machine}
    (hleft : ¬ left m → (card (.new m)).getD [] = []) :
    (removeTree (.new m)).Safe F.acts (fun _ => True) (fun _ => Emptied card (.new m)) card := by
  have hopened : (removeOpened (.new m)).Safe F.acts (fun _ => True) (fun _ => Emptied card (.new m)) card := by
    unfold removeOpened
    dsimp only [Prog.Safe]
    by_cases hm : left m
    · obtain ⟨-, hstat, hremove⟩ := h m hm
      refine (removeEntries_sure ⟨hstat, fun _ _ => trivial⟩ ⟨hremove, fun _ _ => trivial⟩ _ card).bind ?_
      rw [removeEntries_all]
      refine removeDir_empties ⟨?_, fun q hq => update_of_ne hq ..⟩
      rw [update_self]
      cases card (.new m) <;> rfl
    · rw [hleft hm]
      exact removeDir_empties ⟨hleft hm, fun _ _ => rfl⟩
  refine ⟨fun _ _ => trivial, hopened, fun t hfail => ?_⟩
  obtain rfl : t = card := by simpa [Act.part] using hfail.2
  exact ⟨trivial, hleft fun hm => (h m hm).1 hfail.1, fun _ _ => rfl⟩

theorem removeOpened_sure (h : F.Harmless) (m : Machine) (card : Card) :
    (removeOpened (.final m)).Sure F.acts P card := by
  refine (removeEntries_sure (h.firm rfl (by simp)) (h.firm rfl (by simp)) _ card).seq ?_
  dsimp only [Prog.Sure]
  split
  · obtain ⟨hstop, hfail⟩ := (h.firm rfl (by simp)).act (a := { op := .removeDir (.final m) }) _
    exact ⟨hstop, hfail, trivial⟩
  · exact trivial

theorem moveIn_sure (h : F.Harmless) (m : Machine) (card : Card) : (moveIn m).Sure F.acts P card := by
  dsimp only [moveIn, Prog.Sure]
  split
  · exact trivial
  · obtain ⟨hstop, hfail⟩ := (h.firm rfl (by simp)).act (a := { op := .rename m }) card
    exact ⟨hstop, hfail, trivial⟩

theorem moveIn_run {m : Machine} (hcard : card (.final m) = none) :
    (moveIn m).run F.acts card =
      (true, update (update card (.final m) (card (.new m))) (.new m) none) := by
  rw [moveIn, Prog.run, hcard]
  rfl

/-- `swap` once the old x32 folder is open. -/
def swapOpened : Io Bool :=
  (removeOpened (.final .x32)).bind fun _ => (removeTree (.final .x64)).bind fun _ =>
    (moveIn .x32).check false (moveIn .x64)

theorem swapOpened_sure (h : F.Harmless) (card : Card) : swapOpened.Sure F.acts P card := by
  refine (removeOpened_sure h .x32 card).seq (Prog.Sure.seq ?_ ((moveIn_sure h .x32 _).seq ?_))
  · obtain ⟨hstop, hfail⟩ := (h.firm rfl (by simp)).act (a := { op := .openDir (.final .x64) }) _
    exact ⟨hstop, hfail, removeOpened_sure h .x64 _⟩
  · split
    · exact moveIn_sure h .x64 _
    · exact trivial

theorem swapOpened_run {old : Machine → Folder} (hcard : ∀ m, card (.final m) = some (old m)) :
    ∃ card', swapOpened.run F.acts card = (true, card') ∧ ∀ m, card' (.final m) = card (.new m) := by
  have hrun : ∀ c, c (.final .x64) = some (old .x64) →
      ((removeTree (.final .x64)).run F.acts c).2 = update c (.final .x64) none := by
    intro c hc
    exact removeOpened_run hc
  unfold swapOpened
  rw [Prog.run_bind, removeOpened_run (hcard .x32), Prog.run_bind, hrun _ (by simpa using hcard .x64), Prog.check, Prog.run_bind,
    moveIn_run (by simp), if_pos rfl, moveIn_run (by simp)]
  exact ⟨_, rfl, fun m => by cases m <;> simp⟩

/-- Both folders are valid, and they are the old ones or those of the new release. -/
def Job.Kept (job : Job) (old : Machine → Folder) (card : Card) : Prop :=
  (∀ m, job.installed card m = true) ∧
    ((∀ m, card (.final m) = some (old m)) ∨ ∀ m, card (.final m) = some (job.release m))

section Kept

variable {old : Machine → Folder} (hold : ∀ m, job.valid m (old m) = true)

include hold

theorem kept_old (hcard : ∀ m, card (.final m) = some (old m)) : job.Kept old card :=
  ⟨fun m => by simp [Job.installed, hcard m, hold m], .inl hcard⟩

/-- Up to the swap the old folders are untouched, whatever else is known of the end. -/
theorem safe_apart {α : Type} {p : Io α} {Q : α → Card → Prop} (hp : p.Each Act.Apart)
    (hcard : ∀ m, card (.final m) = some (old m)) (hQ : p.Safe F.acts (fun _ => True) Q card) :
    p.Safe F.acts (job.Kept old) (fun a c => (∀ m, c (.final m) = some (old m)) ∧ Q a c) card := by
  have hkeeps := hp.safe (keeps_apart F fun final => ∀ m, final m = some (old m)) hcard
  exact (hkeeps.and hQ).mono (fun c hc => kept_old hold hc.1) fun _ _ hc => hc

theorem failed_kept (result : Result) (hcard : ∀ m, card (.final m) = some (old m)) :
    (Job.failed result).Safe F.acts (job.Kept old) (fun _ => job.Kept old) card :=
  ((failed_apart result).safe (keeps_apart F fun final => ∀ m, final m = some (old m)) hcard).mono
    (fun _ hc => kept_old hold hc) fun _ _ hc => kept_old hold hc

theorem swap_kept (h : F.Harmless) (hcard : ∀ m, card (.final m) = some (old m)) (hready : job.Ready card) :
    (Job.swap.bind fun moved => if moved then .act { op := .removeArchive } fun _ => .ret .ok
      else Job.failed .ioError).Safe F.acts (job.Kept old) (fun _ => job.Kept old) card := by
  obtain ⟨card', hrun, hmoved⟩ := swapOpened_run (F := F) hcard
  refine ⟨fun t hstop => ?_, (swapOpened_sure h card).bind ?_, fun t hfail => absurd hfail.1 (h _ rfl).1⟩
  · obtain rfl : t = card := by simpa [Act.part] using hstop.2
    exact kept_old hold hcard
  · rw [hrun]
    have hnew : job.Kept old card' := by
      refine ⟨fun m => ?_, .inr fun m => (hmoved m).trans (hready m).1⟩
      simp [Job.installed, hmoved, (hready m).1, (hready m).2]
    have hkeeps := keeps_apart F fun final => (∀ m, (final m).any (job.valid m) = true) ∧
      ((∀ m, final m = some (old m)) ∨ ∀ m, final m = some (job.release m))
    exact Prog.Each.safe (I := Act.Apart) ⟨by simp [Act.Apart, Op.changes], fun _ => trivial⟩ hkeeps hnew

theorem install_kept {left : Machine → Prop} (h : F.Harmless) (hclears : F.Clears left)
    (hcard : ∀ m, card (.final m) = some (old m)) (hleft : ∀ m, ¬ left m → (card (.new m)).getD [] = []) :
    job.install.Safe F.acts (job.Kept old) (fun _ => job.Kept old) card := by
  have hbases : Prog.Each Act.Apart (.all [{ op := .makeBases }] : Io Bool) := .all (by simp [Act.Apart, Op.changes])
  have hmake : Prog.Each Act.Apart (.all [{ op := .make .x32 }, { op := .make .x64 }] : Io Bool) :=
    .all (by simp [Act.Apart, Op.changes])
  unfold Job.install
  split
  · exact ⟨kept_old hold hcard, kept_old hold hcard⟩
  refine (safe_apart hold hbases hcard (Prog.all_done F.acts _ card)).bind fun ok c hc => ?_
  split
  · rename_i hok
    obtain rfl : c = card := hc.2 hok
    refine (safe_apart hold (removeTree_apart .x32) hcard (removeTree_empties hclears (hleft .x32))).bind fun _ c₁ hc₁ => ?_
    have hleft' : ¬ left .x64 → (c₁ (.new .x64)).getD [] = [] := by
      rw [hc₁.2.2 _ (by simp)]
      exact hleft .x64
    refine (safe_apart hold (removeTree_apart .x64) hc₁.1 (removeTree_empties hclears hleft')).bind fun _ c₂ hc₂ => ?_
    refine (safe_apart hold hmake hc₂.1 (Prog.all_done F.acts _ c₂)).bind fun ok c₃ hc₃ => ?_
    split
    · rename_i hok
      have hmade : ∀ m, c₃ (.new m) = some [] := by
        intro m
        rw [hc₃.2 hok]
        cases m with
        | x32 => simp [Faults.acts, Prog.Acts.only, Act.apply, hc₂.2.2, hc₁.2.1]
        | x64 => simp [Faults.acts, Prog.Acts.only, Act.apply, hc₂.2.1]
      refine (safe_apart hold (fill_apart job) hc₃.1 (fill_ready job hmade)).bind fun result c hc => ?_
      split
      · rename_i hresult
        exact swap_kept hold h hc.1 (hc.2 hresult)
      · exact failed_kept hold result hc.1
    · exact ⟨kept_old hold hc₃.1, kept_old hold hc₃.1⟩
  · exact ⟨kept_old hold hc.1, kept_old hold hc.1⟩

end Kept

/-- Whatever is stopped or fails, a release that was installed is still there, as it was or as the new one is. Only
for the machines of `left` there may be files of an earlier install in the new folder. -/
def ReinstallKeeps (F : Faults) (left : Machine → Prop) : Prop :=
  ∀ (job : Job) (old : Machine → Folder) (card card' : Card), (∀ m, card (.final m) = some (old m)) →
    (∀ m, ¬ left m → (card (.new m)).getD [] = []) → (∀ m, job.installed card m = true) →
    job.install.Leaves F.acts card card' → job.Kept old card'

/-- A release with one DLL for each machine. -/
def oneDll : Job where
  pe := fun _ _ => true
  backend := .dxvk
  recent := false
  accepted := true
  cancelDownload := false
  received := .ok
  cancelVerify := false
  compressed := true
  digestMatches := true
  cancelInstall := false
  entries := [(.x32, "d3d9.dll", [1]), (.x64, "d3d9.dll", [1])]
  complete := true
  info := [2]

def twoDlls : Card
  | .final _ => some [("d3d9.dll", [0]), ("dxgi.dll", [0])]
  | .new _ => none

def criticalOps : List Op :=
  [.openDir (.final .x32), .statEntry (.final .x32), .removeEntry (.final .x32), .removeDir (.final .x32),
    .openDir (.final .x64), .statEntry (.final .x64), .removeEntry (.final .x64), .removeDir (.final .x64),
    .rename .x32, .rename .x64]

def clearOps (m : Machine) : List Op := [.openDir (.new m), .statEntry (.new m), .removeEntry (.new m)]

/-- An install that was stopped has left a DLL that the new release does not have. -/
def leftover (m : Machine) : Card := update twoDlls (.new m) (some [("dxgi.dll", [3])])

/-- Neither the old release nor the new one. -/
def lost (card : Card) : Bool :=
  [Machine.x32, .x64].any (fun m => card (.final m) != twoDlls (.final m)) &&
    [Machine.x32, .x64].any (fun m => card (.final m) != some (oneDll.release m))

def plainActs : Prog.Acts Card Act := ⟨Act.apply, Act.part, Act.part⟩

theorem fails_lost : ∀ op ∈ criticalOps, ∃ n < 45,
    (oneDll.install.fault plainActs n twoDlls).any (fun x => x.1.op == op && lost x.2.2) = true := by
  decide +kernel

theorem stops_lost : ∀ op ∈ criticalOps, op ≠ .openDir (.final .x32) → ∃ n < 45,
    (oneDll.install.fault plainActs n twoDlls).any (fun x => x.1.op == op && lost x.2.1) = true := by
  decide +kernel

theorem leftover_lost (m : Machine) : ∀ op ∈ clearOps m, ∃ n < 45,
    (oneDll.install.fault plainActs n (leftover m)).any (fun x => x.1.op == op && lost x.2.2) = true := by
  cases m <;> decide +kernel

theorem found_fault (F : Faults) (card : Card) (op : Op) (q : Card → Card → Bool) (h : ∃ n < 45,
    (oneDll.install.fault plainActs n card).any (fun x => x.1.op == op && q x.2.1 x.2.2) = true) :
    ∃ stopped failed, q stopped failed = true ∧ (F.stops op → oneDll.install.Leaves F.acts card stopped) ∧
      (F.fails op → oneDll.install.Leaves F.acts card failed) := by
  obtain ⟨n, -, hn⟩ := h
  obtain ⟨⟨i, stopped, failed⟩, hfault, hq⟩ := (Option.any_eq_true _ _).mp hn
  obtain ⟨hop, hgood⟩ := Bool.and_eq_true_iff.mp hq
  have hfault' : oneDll.install.fault F.acts n card = _ := (Prog.fault_only _ _ _ _ _).trans hfault
  obtain ⟨hstop, hfail⟩ := Prog.leaves_fault hfault'
  obtain rfl : i.op = op := eq_of_beq hop
  exact ⟨stopped, failed, hgood, fun h => hstop ⟨h, .inl rfl⟩, fun h => hfail ⟨h, .inl rfl⟩⟩

theorem critical_mem {op : Op} (h : op.critical = true) : op ∈ criticalOps := by
  unfold Op.critical at h
  split at h <;> first | (rename_i m; cases m <;> decide) | cases h

theorem ReinstallKeeps.not_lost {left : Machine → Prop} {card' : Card} (h : ReinstallKeeps F left)
    (hcard : ∀ m, card (.final m) = twoDlls (.final m)) (hleft : ∀ m, ¬ left m → (card (.new m)).getD [] = [])
    (hleaves : oneDll.install.Leaves F.acts card card') : lost card' = false := by
  have hinstalled : ∀ m, oneDll.installed card m = true := by
    intro m
    rw [Job.installed, hcard m]
    cases m <;> rfl
  obtain ⟨-, hold | hnew⟩ := h oneDll (fun _ => [("d3d9.dll", [0]), ("dxgi.dll", [0])]) card card' hcard hleft hinstalled hleaves
  · have hsame : ∀ m, card' (.final m) = twoDlls (.final m) := hold
    simp [lost, hsame]
  · simp [lost, hnew]

end Autorun.Releases
