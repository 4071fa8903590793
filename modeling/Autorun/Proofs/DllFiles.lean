import Autorun.Setup.DllFiles

namespace Autorun.Dlls

open Autorun.Lib Function List

def Act.changes : Act → List Path
  | .open path | .write path _ | .remove path => [path]
  | .rename source target => [source, target]
  | _ => []

variable {path target name root : Path} {a : Act}

theorem apply_apart (h : path ∉ a.changes) (card : Card) : a.apply card path = card path := by
  cases a <;> simp_all [Act.changes, Act.apply]

variable {card card' : Card}

theorem part_apart (h : path ∉ a.changes) (hpart : a.part card card') : card' path = card path := by
  cases a with
  | write target data =>
    obtain ⟨n, rfl⟩ := hpart
    exact update_of_ne (fun he => h (by simp [Act.changes, he])) _ _
  | _ => rw [show card' = card from hpart]

variable {F : Faults} {path : Path} {P : Option Bytes → Prop}

theorem keeps_apart (F : Faults) (path : Path) (P : Option Bytes → Prop) :
    Prog.Keeps F.acts (fun a => path ∉ a.changes) (fun c => P (c path)) where
  step := fun a c ha hc => by
    rw [show F.acts.apply a c path = c path from apply_apart ha c]
    exact hc
  stop := fun a c c' ha hc hstop => (part_apart ha hstop.2).symm ▸ hc
  fail := fun a c c' ha hc hfail => (part_apart ha hfail.2).symm ▸ hc

theorem part_ne (path : Path) : part path ≠ path := by
  intro h
  have := congrArg List.length h
  simp [part] at this

theorem writeWhole_apart (h : path ≠ target) (data : Bytes) :
    (writeWhole target data).Each (path ∉ ·.changes) := by
  refine ⟨by simpa [Act.changes] using h, fun opened => ?_⟩
  cases opened with
  | false => exact trivial
  | true =>
    refine ⟨by simpa [Act.changes] using h, fun written => ⟨by simp [Act.changes], fun closed => ?_⟩⟩
    dsimp only
    split
    · exact trivial
    · exact ⟨by simpa [Act.changes] using h, fun _ => trivial⟩

theorem replace_apart (h : path ≠ target) (hpart : path ≠ part target) (ok : Bool) :
    (replace target ok).Each (path ∉ ·.changes) := by
  refine Prog.Each.bind ?_ fun ok => ?_
  · split
    · exact Prog.Each.all (by simp [Act.changes, h, hpart])
    · exact trivial
  · split
    · exact trivial
    · exact ⟨by simpa [Act.changes] using hpart, fun _ => trivial⟩

theorem writeAtomically_apart (h : path ≠ join root name) (hpart : path ≠ part (join root name))
    (data : Bytes) : (writeAtomically root name data).Each (path ∉ ·.changes) := by
  unfold writeAtomically
  dsimp only
  split
  · refine (Prog.Each.all (by simp [Act.changes, hpart])).check (Prog.Each.bind (Prog.Each.all (by simp [Act.changes, hpart]))
      fun ok => ⟨by simp [Act.changes], fun closed => replace_apart h hpart _⟩)
  · exact trivial

theorem open_apply (F : Faults) (path : Path) (card : Card) : F.acts.apply (.open path) card path = some [] :=
  update_self path _ card

variable {before data old : Bytes}

theorem write_apply (h : card path = some before) (data : Bytes) :
    F.acts.apply (.write path data) card path = some (before ++ data) := by
  change update card path _ path = _
  rw [update_self, h]
  rfl

theorem write_part (h : card path = some before)
    (hpart : (Act.write path data).part card card') : ∃ n, card' path = some (before ++ data.take n) := by
  obtain ⟨n, rfl⟩ := hpart
  exact ⟨n, by rw [update_self, h]; rfl⟩

theorem writeWhole_whole (F : Faults) (path : Path) (data : Bytes) (card : Card) :
    (writeWhole path data).Safe F.acts (fun _ => True) (fun ok c => ok = true → c path = some data) card := by
  have hbad : ∀ c, Prog.Safe F.acts (fun _ => True) (fun ok c => ok = true → c path = some data)
      (.act (.remove path) fun _ => .ret false) c := by
    intro c
    exact ⟨fun _ _ => trivial, ⟨trivial, by simp⟩, fun _ _ => ⟨trivial, by simp⟩⟩
  have hclose : ∀ written c, (written = true ∨ data = [] → c path = some data) →
      Prog.Safe F.acts (fun _ => True) (fun ok c => ok = true → c path = some data)
        (.act (.close path) fun closed => if (written || data.isEmpty) && closed then .ret true
          else .act (.remove path) fun _ => .ret false) c := by
    intro written c hc
    refine ⟨fun _ _ => trivial, ?_, fun t _ => ?_⟩
    · dsimp only
      split
      · rename_i hok
        exact ⟨trivial, fun _ => hc (by simpa using hok)⟩
      · exact hbad _
    · dsimp only
      rw [Bool.and_false, if_neg (by simp)]
      exact hbad t
  refine ⟨fun _ _ => trivial, ⟨fun _ _ => trivial, hclose true _ fun _ => ?_, fun t hfail => hclose false _ fun hdata => ?_⟩,
    fun t _ => ⟨trivial, by simp⟩⟩
  · exact write_apply (open_apply F path card) data
  · obtain ⟨n, hn⟩ := write_part (open_apply F path card) hfail.2
    simp_all

/-- The rename over the old file is not stopped and does not fail. -/
def Faults.Spares (F : Faults) (path : Path) : Prop :=
  ¬ F.stops (.rename (part path) path) ∧ ¬ F.fails (.rename (part path) path)

theorem replace_safe (hF : F.Spares path) {ok : Bool} (hpath : P (card path))
    (hpart : ok = true → P (card (part path))) :
    (replace path ok).Safe F.acts (fun c => P (c path)) (fun _ c => P (c path)) card := by
  have hgone : ∀ c, P (c path) → Prog.Safe F.acts (fun c => P (c path)) (fun _ c => P (c path))
      (.act (.remove (part path)) fun _ => .ret false) c := by
    intro c hc
    exact Prog.Each.safe (I := (path ∉ ·.changes))
      ⟨by simp [Act.changes, (part_ne path).symm], fun _ => trivial⟩ (keeps_apart F path P) hc
  cases ok with
  | false => exact hgone card hpath
  | true =>
    have hsame : ∀ c, c = card → P (c path) := fun c hc => hc ▸ hpath
    refine ⟨fun c hstop => hsame c hstop.2, ⟨fun c hstop => absurd hstop.1 hF.1, ?_, fun c hfail => absurd hfail.1 hF.2⟩,
      fun c hfail => hgone c (hsame c hfail.2)⟩
    have hnew : P (F.acts.apply (.rename (part path) path) (F.acts.apply (.remove path) card) path) := by
      change P (update (update (update card path none) path
        (update card path none (part path))) (part path) none path)
      simpa [update_of_ne (part_ne path), update_of_ne (part_ne path).symm] using hpart rfl
    exact ⟨hnew, hnew⟩

/-- Where the rename can be stopped or fail the file is lost, whatever comes after. -/
theorem replace_lost (h : ¬ F.Spares path) (card : Card) {k : Bool → Io Bool} (hk : k false = .ret false) :
    ∃ card', ((replace path true).bind k).Leaves F.acts card card' ∧ card' path = none := by
  have hnone : F.acts.apply (.remove path) card path = none := by
    change update card path none path = none
    exact update_self path none card
  by_cases hstop : F.stops (.rename (part path) path)
  · exact ⟨_, .inl (.inr (.inl (.inl ⟨hstop, rfl⟩))), hnone⟩
  · have hfail : F.fails (.rename (part path) path) := by
      by_contra hfail
      exact h ⟨hstop, hfail⟩
    have hends : ∀ c, (k false).Ends F.acts c false c := fun c => by
      rw [hk]
      exact ⟨rfl, rfl⟩
    refine ⟨_, .inr ⟨false, .inl (.inr ⟨_, ⟨hfail, rfl⟩, .inl (hends _)⟩)⟩, ?_⟩
    exact (apply_apart (a := .remove (part path)) (by simp [Act.changes, (part_ne path).symm]) _).trans hnone

/-- The complete old contents or the complete new contents. -/
def OldOrNew (old new : Bytes) (file : Option Bytes) : Prop := file = some old ∨ file = some new

/-- If `stat` can fail for a file that is there, the write over it is neither stopped nor fails. -/
def Faults.Sees (F : Faults) (path : Path) : Prop :=
  F.fails (.stat path) → (∀ data, data ≠ [] → ¬ F.stops (.write path data) ∧ ¬ F.fails (.write path data)) ∧
    ¬ F.fails (.close path)

/-- A file written over is the old one up to the write and then the new one. -/
theorem overwrite_safe (hcard : card path = some old)
    (hwrite : data ≠ [] → ¬ F.stops (.write path data) ∧ ¬ F.fails (.write path data)) (hclose : ¬ F.fails (.close path)) :
    (writeWhole path data).Safe F.acts (fun c => OldOrNew old data (c path))
      (fun _ c => OldOrNew old data (c path)) card := by
  have hsame : ∀ c, c = card → OldOrNew old data (c path) := fun c hc => .inl (hc ▸ hcard)
  have hopen := open_apply F path card
  -- A write of nothing has nothing to lose.
  have hempty : ∀ c, data = [] → (Act.write path data).part (F.acts.apply (.open path) card) c → c path = some data := by
    intro c hdata hpart
    obtain ⟨n, hn⟩ := write_part hopen hpart
    simpa [hdata] using hn
  have hdone : ∀ written c, (written = true ∨ data = []) → c path = some data →
      Prog.Safe F.acts (fun c => OldOrNew old data (c path)) (fun _ c => OldOrNew old data (c path))
        (.act (.close path) fun closed => if (written || data.isEmpty) && closed then .ret true
          else .act (.remove path) fun _ => .ret false) c := by
    intro written c hok hc
    refine ⟨fun c' hstop => .inr ?_, ?_, fun c' hfail => absurd hfail.1 hclose⟩
    · rw [show c' = c from hstop.2]
      exact hc
    · dsimp only
      rw [if_pos (by simpa using hok)]
      exact ⟨.inr hc, .inr hc⟩
  refine ⟨fun c hstop => hsame c hstop.2, ⟨fun c hstop => .inr ?_, hdone true _ (.inl rfl) (write_apply hopen data),
    fun c hfail => ?_⟩, fun c hfail => ⟨hsame c hfail.2, hsame c hfail.2⟩⟩
  · exact hempty c (by_contra fun hdata => (hwrite hdata).1 hstop.1) hstop.2
  · have hdata : data = [] := by_contra fun hdata => (hwrite hdata).2 hfail.1
    exact hdone false c (.inr hdata) (hempty c hdata hfail.2)

theorem putFile_safe (hF : (part path).length < 800 → F.Spares path) (hsees : F.Sees path)
    (hcard : card path = some old) (data : Bytes) :
    (putFile path data).Safe F.acts (fun c => OldOrNew old data (c path))
      (fun _ c => OldOrNew old data (c path)) card := by
  have hsame : ∀ c, c = card → OldOrNew old data (c path) := fun c hc => .inl (hc ▸ hcard)
  refine ⟨fun c hstop => hsame c hstop.2, ?_, fun c hfail => ?_⟩
  · change (if true && (card path).isSome then _ else _ : Io Bool).Safe _ _ _ card
    rw [hcard, if_pos (by rfl)]
    split
    · rename_i hfits
      refine Prog.Safe.checked (T := fun c => OldOrNew old data (c path) ∧ c (part path) = some data) ?_
        (fun c hc => hc) fun c hc => replace_safe (P := OldOrNew old data) (hF hfits) hc.1 fun _ => .inr hc.2
      refine (((writeWhole_apart (part_ne path).symm data).safe
        (keeps_apart F path (OldOrNew old data)) (.inl hcard)).and
          (writeWhole_whole F (part path) data card)).mono (fun c hc => hc.1) fun ok c hc => ⟨hc.1, fun hok => ⟨hc.1, hc.2 hok⟩⟩
    · exact ⟨.inl hcard, .inl hcard⟩
  · obtain rfl : c = card := hfail.2
    exact overwrite_safe hcard ((hsees hfail.1).1 data) (hsees hfail.1).2

theorem writeAtomically_safe (hF : (join root name).length < 768 → F.Spares (join root name))
    (hcard : P (card (join root name))) (hdata : P (some data)) :
    (writeAtomically root name data).Safe F.acts (fun c => P (c (join root name)))
      (fun _ c => P (c (join root name))) card := by
  unfold writeAtomically
  dsimp only
  split
  · rename_i hfits
    have hne := (part_ne (join root name)).symm
    have hkeeps := keeps_apart F (join root name) P
    refine Prog.Safe.checked (T := fun c => P (c (join root name)) ∧ c (part (join root name)) = some []) ?_
      (fun c hc => hc) fun c hc => Prog.Safe.bind (Q := fun ok c => P (c (join root name)) ∧
        (ok = true → c (part (join root name)) = some data)) ?_ fun ok c hc => ?_
    · refine (((Prog.Each.all (by simp [Act.changes, hne])).safe hkeeps hcard).and (Prog.all_done F.acts _ card)).mono
        (fun c hc => hc.1) fun ok c hc => ⟨hc.1, fun hok => ⟨hc.1, ?_⟩⟩
      rw [hc.2 hok]
      exact open_apply F _ card
    · refine (((Prog.Each.all (by simp [Act.changes, hne])).safe hkeeps hc.1).and (Prog.all_done F.acts _ c)).mono
        (fun c hc => hc.1) fun ok c' hc' => ⟨hc'.1, fun hok => ?_⟩
      rw [hc'.2 hok]
      exact write_apply (F := F) hc.2 data
    · have hreplace : ∀ c' closed, c' = c → (replace (join root name) (ok && closed)).Safe F.acts
          (fun c => P (c (join root name))) (fun _ c => P (c (join root name))) c' := by
        rintro c' closed rfl
        refine replace_safe (hF hfits.1) hc.1 fun hok => ?_
        rw [hc.2 (Bool.and_eq_true_iff.mp hok).1]
        exact hdata
      refine ⟨fun c' hstop => ?_, hreplace _ true rfl, fun c' hfail => hreplace c' false hfail.2⟩
      rw [show c' = c from hstop.2]
      exact hc.1
  · exact ⟨hcard, hcard⟩

theorem join_inj {a b : Path} : join root a = join root b ↔ a = b := by simp [join]

theorem part_join (root name : Path) : part (join root name) = join root (part name) := by simp [part, join]

/-- The files that `write_record` writes. -/
def recordNames : List Path := [manifestName, classesName]

theorem listed_ne_record (root : Path) (f : Listed) (hname : name ∈ recordNames) : f.path root ≠ join root name := by
  have hfolders : ∀ folder ∈ folders, folder.head? = some 'd' := by decide
  have hnames : ∀ name ∈ recordNames, name.head? = some 'h' := by decide
  intro h
  have hhead := congrArg List.head? (join_inj.mp h)
  rw [join, List.head?_append, hfolders _ (get_mem folders f.folder), hnames name hname] at hhead
  exact absurd (show some 'd' = some 'h' from hhead) (by decide)

theorem removeStale_apart (hash : Bytes → Bytes) (root : Path) (f : Listed) (hname : name ∈ recordNames) :
    (removeStale hash root f).Each (join root name ∉ ·.changes) := by
  unfold removeStale
  split
  · refine ⟨by simp [Act.changes], fun ok card => ?_⟩
    dsimp only
    split
    · exact ⟨by simpa [Act.changes] using (listed_ne_record root f hname).symm, fun _ => trivial⟩
    · exact trivial
  · exact trivial

/-- One file of the record while one of them, perhaps another one, is written. -/
theorem writeRecord_part (hF : (join root name).length < 768 → F.Spares (join root name)) {other : Path}
    (hname : name ∈ recordNames) (hother : other ∈ recordNames) (hcard : P (card (join root name)))
    (hdata : other = name → P (some data)) :
    (writeAtomically root other data).Safe F.acts (fun c => P (c (join root name)))
      (fun _ c => P (c (join root name))) card := by
  have hparts : ∀ name ∈ recordNames, ∀ other ∈ recordNames, name ≠ part other := by decide
  by_cases hsame : other = name
  · subst hsame
    exact writeAtomically_safe hF hcard (hdata rfl)
  · refine (writeAtomically_apart (mt join_inj.mp (Ne.symm hsame)) ?_ data).safe (keeps_apart F (join root name) P) hcard
    rw [part_join]
    exact mt join_inj.mp (hparts name hname other hother)

theorem record_safe (hF : (join root name).length < 768 → F.Spares (join root name)) (hname : name ∈ recordNames)
    {manifest classes : Option Bytes}
    (hnew : ∀ text, (name, some text) ∈ [(manifestName, manifest), (classesName, classes)] → P (some text))
    (hash : Bytes → Bytes) (stale : List Listed) (hcard : P (card (join root name))) :
    (record hash root manifest classes stale).Safe F.acts (fun c => P (c (join root name)))
      (fun _ c => P (c (join root name))) card := by
  induction stale generalizing card with
  | nil =>
    cases manifest with
    | none => exact ⟨hcard, hcard⟩
    | some text =>
      cases classes with
      | none => exact ⟨hcard, hcard⟩
      | some other =>
        refine Prog.Safe.checked ((writeRecord_part hF hname (by decide) hcard fun h => hnew other ?_).mono (fun c hc => hc)
          fun ok c hc => ⟨hc, fun _ => hc⟩) (fun c hc => hc) fun c hc => ?_
        · simp [← h]
        · exact writeRecord_part hF hname (by decide) hc fun h => hnew text (by simp [← h])
  | cons f stale ih =>
    exact ((removeStale_apart hash root f hname).safe (keeps_apart F (join root name) P) hcard).bind fun _ c hc => ih hc

/-- `put_file` leaves a file that was there with its old contents or with the new ones. -/
def PutKeeps (F : Faults) (path : Path) : Prop :=
  ∀ (card : Card) (data old : Bytes) (card' : Card), card path = some old →
    (putFile path data).Leaves F.acts card card' → OldOrNew old data (card' path)

/-- `record` leaves what can be read of each of its files. -/
def RecordKeeps (F : Faults) (root : Path) : Prop :=
  ∀ (readable : Bytes → Prop) (hash : Bytes → Bytes) (stale : List Listed) (manifest classes : Option Bytes)
    (card card' : Card), (record hash root manifest classes stale).Leaves F.acts card card' →
    ∀ name ∈ recordNames, (∃ old, card (join root name) = some old ∧ readable old) →
    (∀ text, (name, some text) ∈ [(manifestName, manifest), (classesName, classes)] → readable text) →
    ∃ text, card' (join root name) = some text ∧ readable text

theorem PutKeeps.spares (h : PutKeeps F path) (hfits : (part path).length < 800) : F.Spares path := by
  by_contra hF
  let card : Card := fun _ => some []
  obtain ⟨card', hleaves, hnone⟩ := replace_lost hF ((writeWhole (part path) []).run F.acts card).2 (k := .ret) rfl
  rw [Prog.bind_ret] at hleaves
  have hput : (putFile path []).Leaves F.acts card card' := by
    refine Prog.leaves_act (?_ : (if (part path).length < 800 then _ else _ : Io Bool).Leaves F.acts card card')
    rw [if_pos hfits]
    exact Prog.leaves_bind _ _ hleaves
  rcases h card [] [] card' rfl hput with hold | hold <;> simp [hnone] at hold

theorem PutKeeps.sees (h : PutKeeps F path) : F.Sees path := by
  intro hstat
  let card : Card := fun _ => some [0]
  have hopen := open_apply F path card
  -- Such a `stat` sends `put_file` to the write over the old file.
  have hcut : ∀ data card', (writeWhole path data).Cut F.acts card card' → OldOrNew [0] data (card' path) := by
    intro data card' hcut
    exact h card data [0] card' rfl (.inl (.inr (.inr ⟨card, ⟨hstat, rfl⟩, hcut⟩)))
  have hends : ∀ data ok card', (writeWhole path data).Ends F.acts card ok card' → card' path ≠ none := by
    intro data ok card' hends hnone
    rcases h card data [0] card' rfl (.inr ⟨ok, .inr ⟨card, ⟨hstat, rfl⟩, hends⟩⟩) with hold | hold <;> simp [hnone] at hold
  have hgone : ∀ c : Card, F.acts.apply (.remove path) c path = none := fun c => by
    change update c path none path = none
    exact update_self path none c
  refine ⟨fun data hdata => ⟨fun hstop => ?_, fun hfail => ?_⟩, fun hfail => ?_⟩
  · have htorn := hcut data _ (.inr (.inl (.inl ⟨hstop, 0, rfl⟩)))
    rw [update_self, hopen] at htorn
    rcases htorn with hold | hold
    · simp at hold
    · exact hdata (by simpa using hold.symm)
  · cases data with
    | nil => exact hdata rfl
    | cons b rest =>
      exact hends (b :: rest) false _ (.inl (.inr ⟨_, ⟨hfail, 0, rfl⟩, .inl (.inl ⟨rfl, rfl⟩)⟩)) (hgone _)
  · exact hends [] false _ (.inl (.inl (.inr ⟨_, ⟨hfail, rfl⟩, .inl ⟨rfl, rfl⟩⟩))) (hgone _)

theorem part_fits (h : path.length < 768) : (part path).length < 800 := by
  simp only [part, length_append, length_cons, length_nil]
  omega

theorem writeAtomically_run (hfits : (join root name).length < 768) (data : Bytes) (card : Card) :
    ((writeAtomically root name data).run F.acts card).1 = true := by
  unfold writeAtomically
  rw [if_pos ⟨hfits, part_fits hfits⟩]
  rfl

theorem writeAtomically_lost (hF : ¬ F.Spares (join root name)) (hfits : (join root name).length < 768) (data : Bytes)
    (card : Card) {k : Bool → Io Bool} (hk : k false = .ret false) :
    ∃ card', ((writeAtomically root name data).bind k).Leaves F.acts card card' ∧ card' (join root name) = none := by
  let new := part (join root name)
  obtain ⟨card', hleaves, hnone⟩ := replace_lost hF
    ((Prog.all [.makeFolders root, .open new, .write new data, .flush new, .sync new, .close new]).run F.acts card).2 hk
  refine ⟨card', ?_, hnone⟩
  unfold writeAtomically
  rw [if_pos ⟨hfits, part_fits hfits⟩, Prog.check, Prog.bind_assoc]
  refine Prog.leaves_bind _ _ ?_
  change (Prog.bind (Prog.bind _ _) k).Leaves _ _ _
  rw [Prog.bind_assoc]
  exact Prog.leaves_bind (Prog.all [Act.write _ _, Act.flush _, Act.sync _]) _ (Prog.leaves_act hleaves)

theorem RecordKeeps.spares (h : RecordKeeps F root) (hname : name ∈ recordNames)
    (hfits : (join root name).length < 768) : F.Spares (join root name) := by
  by_contra hF
  let card : Card := fun _ => some []
  suffices hlost : ∃ card', (record id root (some []) (some []) []).Leaves F.acts card card' ∧ card' (join root name) = none by
    obtain ⟨card', hleaves, hnone⟩ := hlost
    obtain ⟨text, htext, -⟩ := h (fun _ => True) id [] (some []) (some []) card card' hleaves name hname ⟨[], rfl, trivial⟩
      fun _ _ => trivial
    cases hnone.symm.trans htext
  have hcases : name = manifestName ∨ name = classesName := by simpa [recordNames] using hname
  rcases hcases with rfl | rfl
  · have hclasses : (join root classesName).length < 768 := by
      have : classesName.length ≤ manifestName.length := by decide
      simp only [join, length_append, length_cons] at hfits ⊢
      omega
    obtain ⟨card', hleaves, hnone⟩ := writeAtomically_lost hF hfits []
      ((writeAtomically root classesName []).run F.acts card).2 (k := .ret) rfl
    rw [Prog.bind_ret] at hleaves
    refine ⟨card', Prog.leaves_bind (writeAtomically root classesName []) _ ?_, hnone⟩
    rw [writeAtomically_run hclasses, if_pos rfl]
    exact hleaves
  · exact writeAtomically_lost hF hfits [] card rfl

/-- A DLL is never lost, and the record stays readable, just when the rename of the new file over the old name is not
stopped and does not fail once the old file is removed, and a file that is there is seen or written over without a
fault. -/
theorem dll_update_old_or_new_iff (F : Faults) (root path : Path) :
    PutKeeps F path ∧ RecordKeeps F root ↔
      ((part path).length < 800 → F.Spares path) ∧ F.Sees path ∧
        ∀ name ∈ recordNames, (join root name).length < 768 → F.Spares (join root name) := by
  constructor
  · rintro ⟨hput, hrecord⟩
    exact ⟨hput.spares, hput.sees, fun _ => hrecord.spares⟩
  · rintro ⟨hspares, hsees, hrecord⟩
    refine ⟨?_, ?_⟩
    · intro card data old card' hcard hleaves
      exact (putFile_safe hspares hsees hcard data).leaves hleaves
    · intro readable hash stale manifest classes card card' hleaves name hname hold hnew
      exact (record_safe (P := fun file => ∃ text, file = some text ∧ readable text) (hrecord name hname) hname
        (fun text htext => ⟨text, rfl, hnew text htext⟩) hash stale hold).leaves hleaves

/-- The new file is complete and the old one removed, then the rename fails: both are gone. -/
theorem failed_rename_loses_dll :
    let path := "d3d9.dll".toList
    let F : Faults := ⟨fun _ => False, fun act => act = .rename (part path) path⟩
    let card : Card := update (fun _ => none) path (some [1])
    ∃ card', (putFile path [2]).Ends F.acts card false card' ∧ card path = some [1] ∧ card' path = none ∧
      card' (part path) = none := by
  refine ⟨_, .inl (.inl (.inl (.inl (.inl (.inr ⟨_, ⟨rfl, rfl⟩, .inl ⟨rfl, rfl⟩⟩))))), rfl, ?_, ?_⟩
  · rfl
  · rfl

end Autorun.Dlls
