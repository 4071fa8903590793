import Autorun.Proofs.BootStart

namespace Autorun.Setup

open Autorun.Lib Function

variable {env : Env} {whole : Path → Prop} {α : Type} {P : Card → Prop} {Q : α → Card → Prop} {card : Card}

/-! Operations that can fail. -/

theorem faulty_read {f : Read → Io α} (herror : (f .error).Safe (faultyActs whole) P Q card)
    (h : (f (readOf (card path) limit)).Safe (faultyActs whole) P Q card) :
    ((readFile path limit).bind f).Safe (faultyActs whole) P Q card := by
  refine ⟨?_, ?_, ?_⟩
  · rintro c (rfl | htorn)
    · exact herror.now fun _ _ => .inl rfl
    · exact htorn.elim
  · exact look_safe h
  · rintro c (rfl | htorn | rfl)
    · exact herror
    · exact htorn.elim
    · exact herror

/-- An act that is done whole or not at all, whatever it answers. -/
theorem faulty_act {a : Act} {f : Bool → Io α} (hatomic : ∀ c, ¬ a.torn whole card c)
    (hfail : (f false).Safe (faultyActs whole) P Q card)
    (hdone : ∀ ok, (f ok).Safe (faultyActs whole) P Q (a.apply card)) :
    (Prog.act a f).Safe (faultyActs whole) P Q card := by
  refine ⟨?_, hdone true, ?_⟩
  · rintro c (rfl | htorn)
    · exact hfail.now fun _ _ => .inl rfl
    · exact absurd htorn (hatomic c)
  · rintro c (rfl | htorn | rfl)
    · exact hfail
    · exact absurd htorn (hatomic c)
    · exact hdone false

theorem faulty_remove (hnow : P card) (hend : P (update card path none)) :
    (removeFile path).Safe (faultyActs whole) P (fun ok c => (ok = true → c = update card path none) ∧
      (c = card ∨ c = update card path none)) card := by
  unfold removeFile
  rw [Prog.Safe]
  split
  · exact faulty_act (fun _ htorn => htorn) ⟨hnow, by simp, .inl rfl⟩ fun _ => ⟨hend, fun _ => rfl, .inr rfl⟩
  case isFalse hnone =>
    have hsame : update card path none = card := by
      rw [Bool.not_eq_true, Option.isSome_eq_false_iff, Option.isNone_iff_eq_none] at hnone
      rw [← hnone]
      exact update_eq_self path card
    exact ⟨hnow, fun _ => hsame.symm, .inl rfl⟩

theorem faulty_move (hnow : P card) (hend : card target = none → P ((Act.rename source target).apply card)) :
    (moveFile source target).Safe (faultyActs whole) P
      (fun ok c => (ok = true → c = (Act.rename source target).apply card) ∧ P c ∧
        (c = card ∨ c = (Act.rename source target).apply card)) card := by
  unfold moveFile
  rw [Prog.Safe]
  split
  · exact ⟨hnow, by simp, hnow, .inl rfl⟩
  case isFalse hfree =>
    rw [not_or, Bool.not_eq_true, Bool.not_eq_true, Option.isSome_eq_false_iff, Option.isNone_iff_eq_none] at hfree
    have hmoved := hend hfree.2
    exact faulty_act (fun _ htorn => htorn) ⟨hnow, by simp, hnow, .inl rfl⟩
      fun _ => ⟨hmoved, fun _ => rfl, hmoved, .inr rfl⟩

/-- A new file may be left in any state when it does not matter. -/
theorem faulty_write {data : Bytes} (hall : ∀ file, P (update card path file)) :
    (writeNew path data).Safe (faultyActs whole) P (fun ok c => (ok = true → c = update card path (some data)) ∧
      ∃ file, c = update card path file) card := by
  have hsame := update_eq_self path card
  have hnow : P card := hsame ▸ hall (card path)
  have hundo : ∀ file, (Prog.act (.unlink path) fun _ => (.ret false : Io Bool)).Safe (faultyActs whole) P
      (fun ok c => (ok = true → c = update card path (some data)) ∧
        ∃ file, c = update card path file) (update card path file) := by
    intro file
    refine faulty_act (fun _ htorn => htorn) ⟨hall file, by simp, file, rfl⟩ fun _ => ?_
    rw [show (Act.unlink path).apply _ = _ from update_idem ..]
    exact ⟨hall none, by simp, none, rfl⟩
  unfold writeNew
  rw [Prog.Safe]
  split
  · exact ⟨hnow, by simp, card path, hsame.symm⟩
  · refine ⟨?_, ⟨hall _, fun _ => rfl, _, rfl⟩, ?_⟩
    · rintro c (rfl | ⟨-, n, -, rfl⟩)
      · exact hnow
      · exact hall _
    · rintro c (rfl | ⟨-, n, -, rfl⟩ | rfl)
      · have := hundo (c path)
        rw [update_eq_self] at this
        exact this
      · exact hundo _
      · exact hundo _

theorem faulty_create {data : Bytes} (hnone : card path = none) (hnow : P card)
    (htorn : ¬ whole path → ∀ n < data.length, P (update card path (some (data.take n))))
    (hend : P (update card path (some data))) : (writeNew path data).Safe (faultyActs whole) P (fun _ => P) card := by
  have hundo : ∀ file, P (update card path (some file)) →
      (Prog.act (.unlink path) fun _ => (.ret false : Io Bool)).Safe (faultyActs whole) P (fun _ => P)
        (update card path (some file)) := by
    intro file hc
    refine faulty_act (fun _ htorn => htorn) ⟨hc, hc⟩ fun _ => ?_
    rw [show (Act.unlink path).apply _ = _ from update_idem .., ← hnone, update_eq_self]
    exact ⟨hnow, hnow⟩
  unfold writeNew
  rw [Prog.Safe, hnone, if_neg (by decide)]
  refine ⟨?_, ⟨hend, hend⟩, ?_⟩
  · rintro c (rfl | ⟨hwhole, n, hn, rfl⟩)
    · exact hnow
    · exact htorn hwhole n hn
  · rintro c (rfl | ⟨hwhole, n, hn, rfl⟩ | rfl)
    · refine faulty_act (fun _ htorn => htorn) ⟨hnow, hnow⟩ fun _ => ?_
      rw [show (Act.unlink path).apply c = update c path none from rfl, ← hnone, update_eq_self]
      exact ⟨hnow, hnow⟩
    · exact hundo _ (htorn hwhole n hn)
    · exact hundo _ hend

theorem faulty_keeps (hP : ∀ c c', P c → Beyond c c' → P c') : Prog.Keeps (faultyActs whole) Act.Inside P where
  step := fun _ c ha hc => hP c _ hc (ha.apply c)
  stop := fun _ c c' ha hc hstop => hP c c' hc (ha.stop hstop)
  fail := by
    rintro a c c' ha hc (rfl | htorn | rfl)
    · exact hc
    · exact hP c c' hc (ha.torn htorn)
    · exact hP c _ hc (ha.apply c)

/-- Where nothing fails less can happen. -/
theorem of_faulty {p : Io α} (h : p.Safe (faultyActs whole) P Q card) : p.Safe (cardActs whole) P Q card := by
  induction p generalizing card with
  | ret a => exact h
  | look k ih => exact ih card h
  | act a k ih => exact ⟨h.1, ih true h.2.1, fun _ hfail => hfail.elim⟩

/-! The HOC loader. -/

theorem Inside.update {c : Card} {p : Path} (h : Inside card c) (hp : p.outside = true) (file : Option Bytes) :
    Inside card (update c p file) := by
  intro q hq
  have hne : q ≠ p := by
    rintro rfl
    rw [hp] at hq
    cases hq
  rw [update_of_ne hne]
  exact h q hq

theorem recoverHoc_keeps (hnow : P card) (hback : card .hocKip = none → (card .hocPrevious).isSome →
      P ((Act.rename .hocPrevious .hocKip).apply card)) :
    (recoverHoc env).Safe (faultyActs whole) P (fun _ => P) card := by
  unfold recoverHoc
  refine faulty_read ⟨hnow, hnow⟩ ?_
  cases hread : readOf (card .hocKip) payloadLimit with
  | missing =>
    refine faulty_read ⟨hnow, hnow⟩ ?_
    cases hread : readOf (card .hocPrevious) payloadLimit with
    | data b =>
      dsimp only
      split
      · exact (faulty_move hnow fun hkip => hback hkip ((readOf_data hread).1 ▸ rfl)).mono (fun _ hc => hc)
          fun _ _ hc => hc.2.1
      · exact ⟨hnow, hnow⟩
    | _ => exact ⟨hnow, hnow⟩
  | _ => exact ⟨hnow, hnow⟩

/-- What may be left of a loader that is replaced: the old one, that one beside its place, or the new
one with it. -/
structure Survives (P : Card → Prop) (card : Card) (current loader : Bytes) : Prop where
  kept : ∀ c, Inside card c → c .hocKip = some current → P c
  moved : ∀ c, Inside card c → c .hocKip = none → c .hocPrevious = some current → P c
  new : ∀ c, Inside card c → c .hocKip = some loader → c .hocPrevious = some current → P c

section

variable {current loader : Bytes} {c : Card} (h : Survives P card current loader) (hin : Inside card c)
include h hin

theorem Survives.clear (hne : path ≠ .hocKip) (hout : path.outside = true) (hkip : c .hocKip = some current) :
    (removeFile path).Safe (faultyActs whole) P (fun _ c => Inside card c ∧ c .hocKip = some current) c := by
  have hin' : Inside card (update c path none) := hin.update hout none
  have hkip' : update c path none .hocKip = some current := (update_of_ne hne.symm ..).trans hkip
  refine (faulty_remove (h.kept c hin hkip) (h.kept _ hin' hkip')).mono (fun _ hc => hc) fun ok c' hc' => ?_
  rcases hc'.2 with rfl | rfl
  · exact ⟨hin, hkip⟩
  · exact ⟨hin', hkip'⟩

theorem Survives.put (hprevious : c .hocPrevious = some current) :
    P ((Act.rename .hocPrevious .hocKip).apply c) :=
  h.kept _ ((hin.update rfl _).update rfl _) hprevious

/-- The old loader is put back only where there is none. -/
theorem Survives.restore (hprevious : c .hocPrevious = some current) (hc : P c) :
    ((moveFile .hocPrevious .hocKip).bind fun _ => (.ret false : Io Bool)).Safe (faultyActs whole)
      P (fun _ => P) c :=
  (faulty_move hc fun _ => h.put hin hprevious).bind fun _ _ hc' => ⟨hc'.2.1, hc'.2.1⟩

/-- The new loader is looked at once more, and goes if it is not what was written. -/
theorem Survives.verify (hprevious : c .hocPrevious = some current) (hc : P c) (same : Bool) :
    (if same then (.ret true : Io Bool)
      else (removeFile .hocKip).check false ((moveFile .hocPrevious .hocKip).bind fun _ => .ret false)).Safe
      (faultyActs whole) P (fun _ => P) c := by
  have hgone := h.moved (update c .hocKip none) (hin.update rfl _) rfl hprevious
  split
  · exact ⟨hc, hc⟩
  refine Prog.Safe.bind (faulty_remove hc hgone) fun ok c' hc' => ?_
  cases ok with
  | false =>
    rcases hc'.2 with rfl | rfl
    · exact ⟨hc, hc⟩
    · exact ⟨hgone, hgone⟩
  | true =>
    obtain rfl := hc'.1 rfl
    exact h.restore (hin.update rfl _) hprevious hgone

end

/-- What is left of the loader by a `replace_hoc` that is stopped or fails: the first one, perhaps a
part of it, or what survives of an old one. -/
theorem replaceHoc_safe {loader : Bytes} (hnow : P card)
    (htorn : card .hocKip = none → ¬ whole .hocKip → ∀ n < loader.length,
      P (update card .hocKip (some (loader.take n))))
    (hfirst : card .hocKip = none → P (update card .hocKip (some loader)))
    (hold : ∀ current, card .hocKip = some current → current.length ≤ payloadLimit → env.isHoc current = true →
      Survives P card current loader) :
    (replaceHoc env loader).Safe (faultyActs whole) P (fun _ => P) card := by
  have hno : ∀ c, P c → ∀ b : Bool, (Prog.ret b : Io Bool).Safe (faultyActs whole) P (fun _ => P) c :=
    fun c hc _ => ⟨hc, hc⟩
  unfold replaceHoc
  refine faulty_read (hno card hnow false) ?_
  cases hread : readOf (card .hocKip) payloadLimit with
  | error => exact hno card hnow false
  | missing =>
    have hkip := readOf_missing hread
    unfold immutableFile
    refine faulty_read (hno card hnow false) ?_
    rw [hkip]
    refine Prog.Safe.bind (faulty_create hkip hnow (htorn hkip) (hfirst hkip)) fun ok c hc => ?_
    split
    · refine faulty_read (hno c hc false) ?_
      cases readOf (c .hocKip) payloadLimit <;> exact hno c hc _
    · exact hno c hc false
  | data current =>
    obtain ⟨hkip, hsmall⟩ := readOf_data hread
    dsimp only
    split
    · exact hno card hnow true
    split
    · exact hno card hnow false
    case isFalse hmatches =>
    have hs := hold current hkip hsmall (env.isHoc_of_matches current (by simpa using hmatches))
    refine Prog.Safe.bind (hs.clear (.refl card) (by decide) rfl hkip) fun ok c1 ⟨hin1, hkip1⟩ => ?_
    split
    case isFalse => exact hno c1 (hs.kept c1 hin1 hkip1) false
    refine Prog.Safe.bind (hs.clear hin1 (by decide) rfl hkip1) fun ok c2 ⟨hin2, hkip2⟩ => ?_
    split
    case isFalse => exact hno c2 (hs.kept c2 hin2 hkip2) false
    refine Prog.Safe.bind (faulty_write fun file => hs.kept _ (hin2.update rfl file) hkip2) fun ok c3 hc3 => ?_
    obtain ⟨hok, file, rfl⟩ := hc3
    have hin3 : Inside card (update c2 .hocStaged file) := hin2.update rfl file
    have hkip3 : update c2 .hocStaged file .hocKip = some current := hkip2
    have hc3 := hs.kept _ hin3 hkip3
    split
    case isFalse => exact hno _ hc3 false
    case isTrue hyes =>
      have hstaged : update c2 .hocStaged file .hocStaged = some loader := by
        rw [hok hyes]
        rfl
      generalize update c2 .hocStaged file = c3 at hin3 hkip3 hc3 hstaged ⊢
      -- the old loader goes beside its place
      have hin4 : Inside card ((Act.rename .hocKip .hocPrevious).apply c3) := (hin3.update rfl _).update rfl _
      have hprevious4 : (Act.rename .hocKip .hocPrevious).apply c3 .hocPrevious = some current := hkip3
      have hstaged4 : (Act.rename .hocKip .hocPrevious).apply c3 .hocStaged = some loader := hstaged
      have hc4 := hs.moved _ hin4 rfl hprevious4
      refine Prog.Safe.bind (faulty_move hc3 fun _ => hc4) fun ok c hc => ?_
      cases ok with
      | false =>
        refine Prog.Safe.bind (recoverHoc_keeps hc.2.1 fun hnone _ => ?_) fun _ c hc => hno c hc false
        rcases hc.2.2 with rfl | rfl
        · cases hkip3.symm.trans hnone
        · exact hs.put hin4 hprevious4
      | true =>
        obtain rfl := hc.1 rfl
        generalize (Act.rename .hocKip .hocPrevious).apply c3 = c4 at hin4 hprevious4 hstaged4 hc4 ⊢
        -- and the new one into it
        have hin5 : Inside card ((Act.rename .hocStaged .hocKip).apply c4) := (hin4.update rfl _).update rfl _
        have hprevious5 : (Act.rename .hocStaged .hocKip).apply c4 .hocPrevious = some current := hprevious4
        have hc5 := hs.new _ hin5 hstaged4 hprevious5
        refine Prog.Safe.bind (faulty_move hc4 fun _ => hc5) fun ok c hc => ?_
        cases ok with
        | false =>
          rcases hc.2.2 with rfl | rfl
          · exact hs.restore hin4 hprevious4 hc4
          · exact hs.restore hin5 hprevious5 hc5
        | true =>
          obtain rfl := hc.1 rfl
          exact faulty_read (hs.verify hin5 hprevious5 hc5 false) (hs.verify hin5 hprevious5 hc5 _)

end Autorun.Setup
