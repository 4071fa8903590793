import Autorun.Text.ConfigSave
import Autorun.Proofs.ConfigRoundTrip

namespace Autorun.Text.Config
open Lib List

theorem length_lines (es : List Entry) : (lines es).length = es.length := by
  induction es with
  | nil => rfl
  | cons e es ih => simp [lines, ih]

theorem length_pieces (es : List Entry) : (pieces es).length = es.length + 2 := by
  simp [pieces, length_lines]

/-- The stages after a call has failed, and the last one. -/
def Stage.Over : Stage → Prop
  | .closing ok => ok = false
  | .cleaning | .done _ => True
  | _ => False

variable {c : Call} {s : Save} {es : List Entry}

theorem Save.step_over (h : s.stage.Over) :
    (s.step es c).stage.Over ∧ (s.step es c).card.file = s.card.file := by
  obtain ⟨card, stage⟩ := s
  cases stage with
  | closing ok =>
    have hok : ok = false := h
    subst hok
    simp [Save.step, Stage.Over]
  | cleaning =>
    simp only [Save.step, Stage.Over, true_and]
    split <;> rfl
  | done ok => exact ⟨h, rfl⟩
  | _ => exact h.elim

theorem Save.run_over (cs : List Call) (h : s.stage.Over) :
    (run (Save.step es) s cs).card.file = s.card.file :=
  (run_invariant (P := fun t : Save => t.stage.Over ∧ t.card.file = s.card.file)
    (fun _ _ ht => ⟨(step_over ht.1).1, (step_over ht.1).2.trans ht.2⟩) ⟨h, rfl⟩ cs).2

variable {card : Card} {ps : List (List Char)}

theorem step_write {p : List Char}
    (hc : c.works) : Save.step es ⟨card, .next (p :: ps)⟩ c = ⟨card.append p, .next ps⟩ :=
  if_pos hc

variable {cs : List Call}

/-- Calls that all work write every text and close the file. -/
theorem run_writes {t : List Char} (hlen : cs.length = ps.length + 1) (hw : ∀ c ∈ cs, c.works)
    (ht : card.temp = some t) :
    run (Save.step es) ⟨card, .next ps⟩ cs = ⟨⟨card.file, some (t ++ ps.flatten)⟩, .removing⟩ := by
  induction ps generalizing cs card t with
  | nil =>
    obtain ⟨c, rfl⟩ := length_eq_one_iff.mp hlen
    have hc : c.works := hw c mem_cons_self
    simp [Stage.next, Save.step, hc, ← ht]
  | cons p ps ih =>
    obtain ⟨c, cs, rfl⟩ := exists_cons_of_length_eq_add_one hlen
    have hc : c.works := hw c mem_cons_self
    have happ : (card.append p).temp = some (t ++ p) := by simp [Card.append, ht]
    have hrest := ih (by simpa using hlen) (fun c hm => hw c (mem_cons_of_mem _ hm)) happ
    rw [run_cons, step_write hc, hrest, flatten_cons, append_assoc]
    rfl

/-- A stop or a failure before the temporary file is closed leaves the settings file alone. -/
theorem run_unwritten (h : ¬ (ps.length + 1 ≤ cs.length ∧ ∀ c ∈ cs.take (ps.length + 1), c.works)) :
    (run (Save.step es) ⟨card, .next ps⟩ cs).card.file = card.file := by
  induction ps generalizing cs card with
  | nil =>
    cases cs with
    | nil => rfl
    | cons c cs =>
      have hc : c.works = false := by simpa using h
      refine (Save.run_over cs ?_).trans ?_ <;> simp [Stage.next, Save.step, hc, Stage.Over]
  | cons p ps ih =>
    cases cs with
    | nil => rfl
    | cons c cs =>
      cases hc : c.works with
      | false =>
        refine (Save.run_over cs ?_).trans ?_ <;>
          simp [Stage.next, Save.step, hc, Stage.Over, Card.append]
      | true =>
        rw [run_cons, step_write hc, ih (by simpa [hc] using h)]
        rfl

theorem step_open (hc : c.works) :
    Save.step es ⟨card, .opening⟩ c = ⟨⟨card.file, some []⟩, .next (pieces es)⟩ :=
  if_pos hc

variable {path : List Char}

theorem start_opening (h : (path ++ suffix).length < tempSize) :
    Save.start path card = ⟨card, .opening⟩ := by
  rw [Save.start, if_neg (by omega)]

theorem stopped_of_not_written
    (h : ¬ Written es path cs) : (stopped es path card cs).file = card.file := by
  by_cases hp : (path ++ suffix).length < tempSize
  case neg =>
    rw [stopped, Save.start, if_pos (by omega)]
    exact Save.run_over cs trivial
  case pos =>
    rw [stopped, start_opening hp]
    cases cs with
    | nil => rfl
    | cons c cs =>
      cases hc : c.works with
      | false => refine (Save.run_over cs ?_).trans ?_ <;> simp [Save.step, hc, Stage.Over]
      | true =>
        have hun : ¬ ((pieces es).length + 1 ≤ cs.length ∧
            ∀ c ∈ cs.take ((pieces es).length + 1), c.works) := by
          rintro ⟨hl, hw⟩
          rw [length_pieces] at hl hw
          have hlen : toWrite es ≤ (c :: cs).length := Nat.succ_le_succ hl
          refine h ⟨hp, hlen, ?_⟩
          simpa [toWrite, hc] using hw
        rw [run_cons, step_open hc, run_unwritten hun]

/-- Once the temporary file is closed, the rest of the calls remove and rename. -/
theorem stopped_of_written (h : Written es path cs) :
    stopped es path card cs =
      (run (Save.step es) ⟨⟨card.file, some (write es)⟩, .removing⟩ (cs.drop (toWrite es))).card := by
  obtain ⟨hp, hl, hw⟩ := h
  rw [stopped, start_opening hp]
  conv_lhs => rw [← take_append_drop (toWrite es) cs, run_append]
  cases cs with
  | nil => simp [toWrite] at hl
  | cons c cs =>
    have hc : c.works := hw c (by simp [toWrite])
    have hlen : (cs.take (es.length + 3)).length = (pieces es).length + 1 := by
      simp only [toWrite, length_cons] at hl
      rw [length_take, length_pieces]
      omega
    have htake : (c :: cs).take (toWrite es) = c :: cs.take (es.length + 3) := rfl
    have hworks : ∀ d ∈ cs.take (es.length + 3), d.works :=
      fun d hm => hw d (htake ▸ mem_cons_of_mem _ hm)
    rw [htake, run_cons, step_open hc, run_writes hlen hworks rfl]
    rfl

theorem stopped_file (es : List Entry) (path : List Char) (card : Card) (cs : List Call) :
    (Renamed es path card cs ∧ (stopped es path card cs).file = some (write es)) ∨
    (¬ Renamed es path card cs ∧ Removed es path cs ∧ (stopped es path card cs).file = none) ∨
    (¬ Renamed es path card cs ∧ ¬ Removed es path cs ∧
      (stopped es path card cs).file = card.file) := by
  by_cases hw : Written es path cs
  case neg =>
    exact .inr (.inr ⟨fun h => hw h.1, fun h => hw h.1, stopped_of_not_written hw⟩)
  case pos =>
    have hget (i : Nat) : cs[toWrite es + i]? = (cs.drop (toWrite es))[i]? := by
      rw [List.getElem?_drop]
    have hremoved : Removed es path cs ↔ Works (cs.drop (toWrite es)) 0 := by
      simp [Removed, hw, Works]
    have hrenamed : Renamed es path card cs ↔
        (card.file = none ∨ Works (cs.drop (toWrite es)) 0) ∧ Works (cs.drop (toWrite es)) 1 := by
      simp [Renamed, hw, Works]
    rw [hremoved, hrenamed, stopped_of_written hw]
    generalize cs.drop (toWrite es) = rest
    match rest with
    | [] => simp [Works]
    | [c] => cases hc : c.works <;> simp [Works, Save.step, hc]
    | c :: d :: rest =>
      have hclean (k : Card) : (run (Save.step es) ⟨k, .cleaning⟩ rest).card.file = k.file :=
        Save.run_over rest trivial
      have hdone (k : Card) : (run (Save.step es) ⟨k, .done true⟩ rest).card.file = k.file :=
        Save.run_over rest trivial
      cases hc : c.works <;> cases hd : d.works <;> cases hf : card.file <;>
        simp [Works, Save.step, hc, hd, hclean, hdone]

/-- Settings that a text keeps: at most as many as there is room for, of C strings, with plain keys
and with values that are strings or level, in a text that is loaded in full. -/
structure Storable (es : List Entry) : Prop where
  room : es.length ≤ maxKeys
  keys : ∀ e ∈ es, Plain e.key
  values : ∀ e ∈ es, Value e.value ∧ e.value.length < valueSize
  strings : ∀ e ∈ es, '\x00' ∉ e.key ∧ '\x00' ∉ e.value
  fits : (write es).length ≤ loadSize

theorem nul_not_mem_lines (h : ∀ e ∈ es, '\x00' ∉ e.key ∧ '\x00' ∉ e.value) :
    '\x00' ∉ (lines es).flatten := by
  induction es with
  | nil => simp [lines]
  | cons e es ih =>
    obtain ⟨hkey, hvalue⟩ := h e mem_cons_self
    have hrest := ih fun f hf => h f (mem_cons_of_mem _ hf)
    cases es <;> simp_all [lines, line]

theorem Storable.loads (h : Storable es) : load (some (write es)) = some (true, es) := by
  have hnul : '\x00' ∉ write es := by
    have := nul_not_mem_lines h.strings
    simp_all [write, pieces]
  have htext : ((write es).take loadSize).takeWhile (· ≠ '\x00') = write es := by
    rw [take_of_length_le h.fits, takeWhile_eq_self_iff]
    intro c hc
    exact decide_eq_true fun he => hnul (he ▸ hc)
  rw [load, htext]
  exact read_of_plain h.room h.values h.keys

/-- Wherever a save stops and whichever of its calls fail, if what it puts in place can be stored
the settings load as before or as saved exactly where the old file, if it goes and the new one does
not come, held no settings. -/
theorem save_intact_iff (es : List Entry) (path : List Char) (card : Card) (cs : List Call)
    (hstorable : Renamed es path card cs → Storable es) :
    Intact es card (stopped es path card cs) ↔
      (Removed es path cs → ¬ Renamed es path card cs → load card.file = load none) := by
  have hnone : load none ≠ some (true, es) := by simp [load]
  rcases stopped_file es path card cs with ⟨hren, hf⟩ | ⟨hren, hrem, hf⟩ | ⟨hren, hrem, hf⟩
  · rw [Intact, hf]
    exact ⟨fun _ _ hn => absurd hren hn, fun _ => .inr (hstorable hren).loads⟩
  · rw [Intact, hf]
    exact ⟨fun h _ _ => (h.resolve_right hnone).symm, fun h => .inl (h hrem hren).symm⟩
  · rw [Intact, hf]
    exact ⟨fun _ hr => absurd hr hrem, fun _ => .inl rfl⟩

/-- All calls of a save over an older file work. -/
theorem save_intact_completed :
    let old : List Entry := [⟨['a'], ['0']⟩]
    let calls : List Call := List.replicate 7 ⟨true, 0⟩
    (stopped [levelEntry] ['s'] ⟨some (write old), none⟩ calls).file = some (write [levelEntry]) ∧
      Intact [levelEntry] ⟨some (write old), none⟩
        (stopped [levelEntry] ['s'] ⟨some (write old), none⟩ calls) := by
  intro old calls
  have hvalue : Value levelEntry.value :=
    .other rfl (by decide) (level_iff.mpr (by decide)) (by decide)
  have hstorable : Storable [levelEntry] :=
    ⟨by decide, by decide, by simpa using ⟨hvalue, by decide⟩, by decide, by decide⟩
  have hrenamed : Renamed [levelEntry] ['s'] ⟨some (write old), none⟩ calls :=
    ⟨⟨by decide, by decide, by decide⟩, .inr ⟨_, rfl, rfl⟩, ⟨_, rfl, rfl⟩⟩
  refine ⟨by decide +kernel, (save_intact_iff _ _ _ _ fun _ => hstorable).mpr fun _ hnot => ?_⟩
  exact absurd hrenamed hnot

/-- A rename that fails after the old file is removed takes both files. -/
theorem failed_rename_loses_settings :
    let old : List Entry := [⟨['a'], ['0']⟩]
    let new : List Entry := [⟨['a'], ['1']⟩]
    let card : Card := ⟨some (write old), none⟩
    let calls : List Call := List.replicate 6 ⟨true, 0⟩ ++ [⟨false, 0⟩, ⟨true, 0⟩]
    stopped new ['s'] card calls = ⟨none, none⟩ ∧ ¬ Intact new card (stopped new ['s'] card calls) := by
  decide +kernel

end Autorun.Text.Config
