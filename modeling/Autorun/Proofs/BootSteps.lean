import Autorun.Setup.Boot

namespace Autorun.Setup

open Autorun.Lib Function

variable {env : Env} {whole : Path → Prop} {α : Type} {P : Card → Prop} {Q : α → Card → Prop} {card : Card}
variable {bad : α} {next : Io α}

/-! Each call to the file system. -/

theorem now {p : Io α} (h : p.Safe (cardActs whole) P Q card) : P card :=
  h.now fun _ _ => .inl rfl

theorem stop_atomic {a : Act} (hnow : P card) (htorn : ∀ c, a.torn whole card c → P c) :
    ∀ c, (cardActs whole).stop a card c → P c := by
  rintro c (rfl | hc)
  · exact hnow
  · exact htorn c hc

theorem act_safe {a : Act} {k : Bool → Io α} (hatomic : ∀ c, ¬ a.torn whole card c) (hnow : P card)
    (hnext : (k true).Safe (cardActs whole) P Q (a.apply card)) : (Prog.act a k).Safe (cardActs whole) P Q card :=
  ⟨stop_atomic hnow fun c htorn => absurd htorn (hatomic c), hnext, fun _ hfail => hfail.elim⟩

def readOf (file : Option Bytes) (limit : Nat) : Read :=
  match file with
  | none => .missing
  | some bytes => if bytes.length ≤ limit then .data bytes else .error

theorem readOf_some {bytes : Bytes} (h : bytes.length ≤ limit) : readOf (some bytes) limit = .data bytes := if_pos h

theorem readOf_data {file : Option Bytes} (h : readOf file limit = .data bytes) :
    file = some bytes ∧ bytes.length ≤ limit := by
  cases file with
  | none => cases h
  | some content =>
    rw [readOf] at h
    split at h
    · cases h
      exact ⟨rfl, by assumption⟩
    · cases h

theorem readOf_missing {file : Option Bytes} (h : readOf file limit = .missing) : file = none := by
  cases file with
  | none => rfl
  | some content =>
    rw [readOf] at h
    split at h
    · cases h
    · cases h

/-- What `readFile` does with the file it looks at. -/
theorem look_safe {f : Read → Io α} {acts : Prog.Acts Card Act} (h : (f (readOf (card path) limit)).Safe acts P Q card) :
    ((match card path with
      | none => (Prog.ret .missing : Io Read)
      | some bytes => .ret (if bytes.length ≤ limit then .data bytes else .error)).bind f).Safe acts P Q card := by
  unfold readOf at h
  cases hfile : card path with
  | none =>
    rw [hfile] at h
    exact h
  | some bytes =>
    rw [hfile] at h
    exact h

theorem read_safe {f : Read → Io α} (h : (f (readOf (card path) limit)).Safe (cardActs whole) P Q card) :
    ((readFile path limit).bind f).Safe (cardActs whole) P Q card :=
  act_safe (fun _ => id) (now h) (look_safe h)

theorem remove_safe {Q : Bool → Card → Prop} (hnow : P card) (hend : P (update card path none))
    (hQ : Q true (update card path none)) : (removeFile path).Safe (cardActs whole) P Q card := by
  unfold removeFile
  rw [Prog.Safe]
  split
  · exact act_safe (fun _ => id) hnow ⟨hend, hQ⟩
  case isFalse hnone =>
    have hsame : update card path none = card := by
      rw [Bool.not_eq_true, Option.isSome_eq_false_iff, Option.isNone_iff_eq_none] at hnone
      rw [← hnone]
      exact update_eq_self path card
    rw [hsame] at hQ
    exact ⟨hnow, hQ⟩

theorem remove_check (hnow : P card) (hnext : next.Safe (cardActs whole) P Q (update card path none)) :
    ((removeFile path).check bad next).Safe (cardActs whole) P Q card := by
  refine (remove_safe hnow (now hnext) ⟨rfl, rfl⟩).bind_eq ?_
  exact hnext

theorem unlink_check (hsome : (card path).isSome) (hnow : P card)
    (hnext : next.Safe (cardActs whole) P Q (update card path none)) :
    ((unlinkFile path).check bad next).Safe (cardActs whole) P Q card := by
  unfold unlinkFile
  rw [Prog.check, Prog.bind, Prog.Safe, if_pos hsome]
  exact act_safe (fun _ => id) hnow hnext

theorem flush_check (hsome : (card path).isSome) (hnext : next.Safe (cardActs whole) P Q card) :
    ((flushFile path).check bad next).Safe (cardActs whole) P Q card := by
  refine act_safe (fun _ => id) (now hnext) ?_
  change (if (true && (card path).isSome) then next else .ret bad).Safe (cardActs whole) P Q card
  rw [Bool.true_and, if_pos hsome]
  exact hnext

theorem resize_check (hsome : card path = some file) (hnow : P card)
    (hnext : next.Safe (cardActs whole) P Q (update card path (some (file.take size)))) :
    ((resizeFile path size).check bad next).Safe (cardActs whole) P Q card := by
  unfold resizeFile
  have hthere : (card path).isSome := by
    rw [hsome]
    rfl
  rw [Prog.check, Prog.bind, Prog.Safe, if_pos hthere]
  refine act_safe (fun _ => id) hnow ?_
  change next.Safe _ P Q (update card path ((card path).map (·.take size)))
  rw [hsome]
  exact hnext

theorem removeIniBackups_safe {Q : Bool → Card → Prop} (hnow : P card) (hmid : P (update card .backup none))
    (hend : P (update (update card .backup none) .updateBackup none))
    (hQ : Q true (update (update card .backup none) .updateBackup none)) :
    removeIniBackups.Safe (cardActs whole) P Q card := by
  unfold removeIniBackups
  refine (remove_safe hnow hmid ⟨rfl, rfl⟩).bind_eq ?_
  refine (remove_safe hmid hend ⟨rfl, rfl⟩).bind_eq ?_
  exact ⟨hend, hQ⟩

theorem move_safe {Q : Bool → Card → Prop} (hsource : (card source).isSome) (htarget : card target = none)
    (hnow : P card) (hend : P ((Act.rename source target).apply card))
    (hQ : Q true ((Act.rename source target).apply card)) :
    (moveFile source target).Safe (cardActs whole) P Q card := by
  unfold moveFile
  rw [Prog.Safe, if_neg]
  · exact act_safe (fun _ => id) hnow ⟨hend, hQ⟩
  · rw [htarget, Option.isNone_iff_eq_none]
    rintro (hnone | hsome)
    · rw [hnone] at hsource
      cases hsource
    · cases hsome

theorem move_check (hsource : (card source).isSome) (htarget : card target = none) (hnow : P card)
    (hnext : next.Safe (cardActs whole) P Q ((Act.rename source target).apply card)) :
    ((moveFile source target).check bad next).Safe (cardActs whole) P Q card := by
  refine (move_safe hsource htarget hnow (now hnext) ⟨rfl, rfl⟩).bind_eq ?_
  exact hnext

theorem write_safe {Q : Bool → Card → Prop} (hnone : card path = none) (hnow : P card)
    (htorn : ¬ whole path → ∀ n < data.length, P (update card path (some (data.take n))))
    (hend : P (update card path (some data))) (hQ : Q true (update card path (some data))) :
    (writeNew path data).Safe (cardActs whole) P Q card := by
  unfold writeNew
  rw [Prog.Safe, hnone, if_neg (by decide)]
  refine ⟨stop_atomic hnow fun c hc => ?_, ⟨hend, hQ⟩, fun _ hfail => hfail.elim⟩
  obtain ⟨hwhole, n, hn, rfl⟩ := hc
  exact htorn hwhole n hn

theorem write_check (hnone : card path = none) (hnow : P card)
    (htorn : ¬ whole path → ∀ n < data.length, P (update card path (some (data.take n))))
    (hnext : next.Safe (cardActs whole) P Q (update card path (some data))) :
    ((writeNew path data).check bad next).Safe (cardActs whole) P Q card := by
  refine (write_safe hnone hnow htorn (now hnext) ⟨rfl, rfl⟩).bind_eq ?_
  exact hnext

theorem sameFile_self (env : Env) (bytes : Bytes) : sameFile env bytes bytes = true := by
  unfold sameFile
  exact decide_eq_true ⟨rfl, rfl⟩

theorem immutable_safe {Q : Bool → Card → Prop} (hnone : card path = none) (hsmall : data.length ≤ payloadLimit)
    (hnow : P card) (htorn : ¬ whole path → ∀ n < data.length, P (update card path (some (data.take n))))
    (hend : P (update card path (some data))) (hQ : Q true (update card path (some data))) :
    (immutableFile env path data).Safe (cardActs whole) P Q card := by
  unfold immutableFile
  refine read_safe ?_
  rw [hnone]
  refine write_check hnone hnow htorn (read_safe ?_)
  rw [update_self, readOf_some hsmall]
  dsimp only
  rw [sameFile_self]
  exact ⟨hend, hQ⟩

/-! The files at fixed places. -/

/-- What a transaction does to one of them, and what was beside it. -/
structure Fix where
  old : Option Bytes
  beside : Option Bytes
  new : Bytes
  changed : Bool

structure Fixed.Distinct (f : Fixed) : Prop where
  staged : f.path ≠ f.staged
  previous : f.path ≠ f.previous
  beside : f.staged ≠ f.previous

theorem mesosphere_distinct : mesosphere.Distinct := ⟨by decide, by decide, by decide⟩

theorem stock_distinct : stock.Distinct := ⟨by decide, by decide, by decide⟩

/-- Only the files of `f` differ. -/
def Fixed.Only (f : Fixed) (card card' : Card) : Prop :=
  ∀ p, p ≠ f.path → p ≠ f.staged → p ≠ f.previous → card' p = card p

theorem Fixed.Only.refl (f : Fixed) (card : Card) : f.Only card card := fun _ _ _ _ => rfl

variable {x : Fix} {f : Fixed} {committed : Bool}

theorem Fixed.Only.update {card card' : Card} (h : f.Only card card') {p : Path}
    (hp : p = f.path ∨ p = f.staged ∨ p = f.previous) (file : Option Bytes) :
    f.Only card (update card' p file) := by
  intro q hpath hstaged hprevious
  have hq : q ≠ p := by
    rintro rfl
    rcases hp with hp | hp | hp
    · exact hpath hp
    · exact hstaged hp
    · exact hprevious hp
  rw [update_of_ne hq]
  exact h q hpath hstaged hprevious

/-- The old file can be had: it is in its place, or beside it. -/
def Fix.Any (x : Fix) (f : Fixed) (card : Card) : Prop :=
  if x.changed then card f.previous = x.old ∨ (card f.previous = none ∧ card f.path = x.old)
  else card f.path = x.old ∧ card f.previous = x.beside

/-- The new file is in its place, the old one beside it. -/
def Fix.Fresh (x : Fix) (f : Fixed) (card : Card) : Prop :=
  if x.changed then card f.path = some x.new ∧ card f.previous = x.old
  else card f.path = x.old ∧ card f.previous = x.beside

def Fix.Back (x : Fix) (f : Fixed) (card : Card) : Prop :=
  card f.path = x.old ∧ card f.previous = if x.changed then none else x.beside

theorem Fix.Fresh.any (h : x.Fresh f card) : x.Any f card := by
  unfold Fix.Fresh at h
  unfold Fix.Any
  split
  case isTrue hchanged =>
    rw [if_pos hchanged] at h
    exact .inl h.2
  case isFalse hchanged =>
    rw [if_neg hchanged] at h
    exact h

theorem Fix.Back.any (h : x.Back f card) : x.Any f card := by
  unfold Fix.Back at h
  unfold Fix.Any
  split
  case isTrue hchanged =>
    rw [if_pos hchanged] at h
    exact .inr h.symm
  case isFalse hchanged =>
    rw [if_neg hchanged] at h
    exact h

theorem Fix.back_of_changed (hchanged : x.changed = true) (hpath : card f.path = x.old)
    (hprevious : card f.previous = none) : x.Back f card := by
  unfold Fix.Back
  rw [if_pos hchanged]
  exact ⟨hpath, hprevious⟩

structure Fix.Small (x : Fix) : Prop where
  old : x.changed = true → ∀ o, x.old = some o → o.length ≤ payloadLimit
  new : x.new.length ≤ payloadLimit

theorem Fixed.Only.rename {card card' : Card} (h : f.Only card card') (source target : Path)
    (hsource : source = f.path ∨ source = f.staged ∨ source = f.previous)
    (htarget : target = f.path ∨ target = f.staged ∨ target = f.previous) :
    f.Only card ((Act.rename source target).apply card') :=
  (h.update htarget _).update hsource none

/-- Without the commit the old file comes back, from wherever a stop had left it. -/
theorem finish_back (hf : f.Distinct) (hx : x.Small) (hany : x.Any f card) :
    (finishFixed f x.changed x.old.isSome false).Safe (cardActs whole) (fun c => x.Any f c ∧ f.Only card c)
      (fun ok c => ok = true ∧ x.Back f c ∧ f.Only card c) card := by
  unfold finishFixed
  have hnow : x.Any f card ∧ f.Only card card := ⟨hany, .refl f card⟩
  cases hchanged : x.changed with
  | false =>
    refine ⟨hnow, rfl, ?_, hnow.2⟩
    rw [Fix.Any, hchanged] at hany
    rw [Fix.Back, hchanged]
    exact hany
  | true =>
    rw [Fix.Any, if_pos hchanged] at hany
    have any_of : ∀ c, (c f.previous = x.old ∨ (c f.previous = none ∧ c f.path = x.old)) → x.Any f c := by
      intro c hc
      rw [Fix.Any, if_pos hchanged]
      exact hc
    -- the staged file goes last and says nothing of the target
    have drop_staged : ∀ c, x.Back f c → f.Only card c →
        (removeFile f.staged).Safe (cardActs whole) (fun c => x.Any f c ∧ f.Only card c)
          (fun ok c => ok = true ∧ x.Back f c ∧ f.Only card c) c := by
      intro c hback honly
      have hdone : x.Back f (update c f.staged none) := by
        unfold Fix.Back
        rw [update_of_ne hf.staged, update_of_ne hf.beside.symm]
        exact hback
      have honly' := honly.update (.inr (.inl rfl)) none
      exact remove_safe ⟨hback.any, honly⟩ ⟨hdone.any, honly'⟩ ⟨rfl, hdone, honly'⟩
    cases hold : x.old with
    | none =>
      rw [hold] at hany
      have hprevious : card f.previous = none := by
        rcases hany with hprevious | ⟨hprevious, -⟩
        · exact hprevious
        · exact hprevious
      refine remove_check hnow (drop_staged _ (Fix.back_of_changed hchanged ?_ ?_) (hnow.2.update (.inl rfl) none))
      · rw [update_self, hold]
      · rw [update_of_ne hf.previous.symm, hprevious]
    | some o =>
      refine read_safe ?_
      rw [hold] at hany
      rcases hany with hprevious | ⟨hprevious, hpath⟩
      · rw [hprevious, readOf_some (hx.old hchanged o hold)]
        have hkept : update card f.path none f.previous = some o := by
          rw [update_of_ne hf.previous.symm, hprevious]
        have honly := hnow.2.update (.inl rfl) none
        have hgone : x.Any f (update card f.path none) :=
          any_of _ (.inl (hkept.trans hold.symm))
        refine remove_check hnow (move_check ?_ (update_self ..) ⟨hgone, honly⟩
          (drop_staged _ (Fix.back_of_changed hchanged ?_ (update_self ..))
            (honly.rename _ _ (.inr (.inr rfl)) (.inl rfl))))
        · rw [hkept]
          rfl
        · rw [Act.apply, update_of_ne hf.previous, update_self, hkept, hold]
      · rw [hprevious]
        refine read_safe ?_
        rw [hpath, readOf_some (hx.old hchanged o hold)]
        exact drop_staged card (Fix.back_of_changed hchanged (hpath.trans hold.symm) hprevious) hnow.2

theorem finish_fresh (hf : f.Distinct) (hx : x.Small) (hfresh : x.Fresh f card)
    (existed : Bool) : (finishFixed f x.changed existed true).Safe (cardActs whole)
      (fun c => x.Fresh f c ∧ f.Only card c) (fun ok c => ok = true ∧ x.Fresh f c ∧ f.Only card c) card := by
  unfold finishFixed
  have hnow : x.Fresh f card ∧ f.Only card card := ⟨hfresh, .refl f card⟩
  cases hchanged : x.changed with
  | false => exact ⟨hnow, rfl, hnow⟩
  | true =>
    refine read_safe ?_
    rw [Fix.Fresh, if_pos hchanged] at hfresh
    rw [hfresh.1, readOf_some hx.new]
    have hdone : x.Fresh f (update card f.staged none) := by
      rw [Fix.Fresh, if_pos hchanged, update_of_ne hf.staged, update_of_ne hf.beside.symm]
      exact hfresh
    have honly := hnow.2.update (.inr (.inl rfl)) none
    exact remove_safe hnow ⟨hdone, honly⟩ ⟨rfl, hdone, honly⟩

/-- How a target is while a recovery ends: with the commit, or without. -/
def Fix.At (x : Fix) (f : Fixed) (committed : Bool) (card : Card) : Prop :=
  if committed then x.Fresh f card else x.Any f card

def Fix.Done (x : Fix) (f : Fixed) (committed : Bool) (card : Card) : Prop :=
  if committed then x.Fresh f card else x.Back f card

theorem Fix.Done.at (h : x.Done f committed card) :
    x.At f committed card := by
  cases committed with
  | false => exact Fix.Back.any h
  | true => exact h

theorem Fix.Fresh.at (h : x.Fresh f card) (committed : Bool) : x.At f committed card := by
  cases committed with
  | false => exact h.any
  | true => exact h

theorem finish_safe (hf : f.Distinct) (hx : x.Small)
    (h : x.At f committed card) : (finishFixed f x.changed x.old.isSome committed).Safe (cardActs whole)
      (fun c => x.At f committed c ∧ f.Only card c)
      (fun ok c => ok = true ∧ x.Done f committed c ∧ f.Only card c) card := by
  cases committed with
  | false => exact finish_back hf hx h
  | true => exact finish_fresh hf hx h _

section Congr

variable {x : Fix} {f : Fixed} {card' : Card} (hpath : card' f.path = card f.path)
  (hprevious : card' f.previous = card f.previous)
include hpath hprevious

theorem Fix.Any.congr (h : x.Any f card) : x.Any f card' := by
  unfold Fix.Any
  rw [hpath, hprevious]
  exact h

theorem Fix.Fresh.congr (h : x.Fresh f card) : x.Fresh f card' := by
  unfold Fix.Fresh
  rw [hpath, hprevious]
  exact h

theorem Fix.Back.congr (h : x.Back f card) : x.Back f card' := by
  unfold Fix.Back
  rw [hpath, hprevious]
  exact h

theorem Fix.At.congr (h : x.At f committed card) : x.At f committed card' := by
  cases committed with
  | false => exact Fix.Any.congr hpath hprevious h
  | true => exact Fix.Fresh.congr hpath hprevious h

theorem Fix.Done.congr (h : x.Done f committed card) : x.Done f committed card' := by
  cases committed with
  | false => exact Fix.Back.congr hpath hprevious h
  | true => exact Fix.Fresh.congr hpath hprevious h

end Congr

/-- What `fixed_state` said of the old file, and what was removed beside it. -/
def Fix.Begun (x : Fix) (f : Fixed) (card : Card) : FixedState → Prop
  | .unreadable => False
  | .same => x.changed = false ∧ card f.previous = x.beside
  | .absent => x.changed = true ∧ x.old = none ∧ card f.previous = none
  | .differs => x.changed = true ∧ x.old.isSome ∧ card f.previous = none

theorem replace_fresh {state : FixedState} (hf : f.Distinct) (hx : x.Small)
    (hpath : card f.path = x.old) (hbegun : x.Begun f card state) :
    (replaceFixed env f x.new state).Safe (cardActs whole) (fun c => x.Any f c ∧ f.Only card c)
      (fun ok c => ok = true ∧ x.Fresh f c ∧ f.Only card c) card := by
  have honly := Fixed.Only.refl f card
  cases state with
  | unreadable => exact hbegun.elim
  | same =>
    have hfresh : x.Fresh f card := by
      rw [Fix.Fresh, if_neg (Bool.eq_false_iff.mp hbegun.1)]
      exact ⟨hpath, hbegun.2⟩
    exact ⟨⟨hfresh.any, honly⟩, rfl, hfresh, honly⟩
  | absent =>
    obtain ⟨hchanged, hold, hprevious⟩ := hbegun
    have any_of : ∀ file, x.Any f (update card f.path file) := by
      intro file
      rw [Fix.Any, if_pos hchanged, update_of_ne hf.previous.symm, hprevious, hold]
      exact .inl rfl
    have hback := Fix.back_of_changed hchanged hpath hprevious
    refine immutable_safe (hpath.trans hold) hx.new ⟨hback.any, honly⟩
      (fun _ n _ => ⟨any_of _, honly.update (.inl rfl) _⟩) ⟨any_of _, honly.update (.inl rfl) _⟩
      ⟨rfl, ?_, honly.update (.inl rfl) _⟩
    rw [Fix.Fresh, if_pos hchanged, update_self, update_of_ne hf.previous.symm, hprevious, hold]
    exact ⟨rfl, rfl⟩
  | differs =>
    obtain ⟨hchanged, hold, hprevious⟩ := hbegun
    have hback := Fix.back_of_changed hchanged hpath hprevious
    -- until the old file is moved only the staged one is written
    have back_of : ∀ c file, x.Back f c → x.Back f (update c f.staged file) := by
      intro c file h
      unfold Fix.Back
      rw [update_of_ne hf.staged, update_of_ne hf.beside.symm]
      exact h
    have hstaged : f.staged = f.path ∨ f.staged = f.staged ∨ f.staged = f.previous := .inr (.inl rfl)
    have hclear := back_of card none hback
    have honly1 := honly.update hstaged none
    have hwritten := back_of _ (some x.new) hclear
    have honly2 := honly1.update hstaged (some x.new)
    unfold replaceFixed
    refine remove_check ⟨hback.any, honly⟩ (write_check (update_self ..) ⟨hclear.any, honly1⟩
      (fun _ n _ => ⟨(back_of _ _ hclear).any, honly1.update hstaged _⟩) ?_)
    have honly3 := honly2.rename f.path f.previous (.inl rfl) (.inr (.inr rfl))
    refine move_check (hwritten.1 ▸ hold) (hwritten.2.trans (if_pos hchanged)) ⟨hwritten.any, honly2⟩ ?_
    generalize hcard2 : update (update card f.staged none) f.staged (some x.new) = card2
      at hwritten honly3 ⊢
    have hnew : card2 f.staged = some x.new := by rw [← hcard2, update_self]
    have hmoved : (Act.rename f.path f.previous).apply card2 f.previous = x.old := by
      rw [Act.apply, update_of_ne hf.previous.symm, update_self, hwritten.1]
    have hkept : (Act.rename f.path f.previous).apply card2 f.staged = some x.new := by
      rw [Act.apply, update_of_ne hf.staged.symm, update_of_ne hf.beside, hnew]
    have hempty : (Act.rename f.path f.previous).apply card2 f.path = none := update_self ..
    generalize (Act.rename f.path f.previous).apply card2 = card3 at hmoved hkept hempty honly3 ⊢
    have hbeside : x.Any f card3 := by
      rw [Fix.Any, if_pos hchanged]
      exact .inl hmoved
    have hfresh : x.Fresh f ((Act.rename f.staged f.path).apply card3) := by
      rw [Fix.Fresh, if_pos hchanged, Act.apply, update_of_ne hf.staged, update_self, hkept,
        update_of_ne hf.beside.symm, update_of_ne hf.previous.symm]
      exact ⟨rfl, hmoved⟩
    have honly4 := honly3.rename f.staged f.path (.inr (.inl rfl)) (.inl rfl)
    have hread : (Act.rename f.staged f.path).apply card3 f.path = some x.new := by
      rw [Act.apply, update_of_ne hf.staged, update_self, hkept]
    refine (move_safe (hkept ▸ rfl) hempty ⟨hbeside, honly3⟩ ⟨hfresh.any, honly4⟩ ⟨rfl, rfl⟩).bind_eq (read_safe ?_)
    rw [hread, readOf_some hx.new]
    exact ⟨⟨hfresh.any, honly4⟩, sameFile_self env x.new, hfresh, honly4⟩

end Autorun.Setup
