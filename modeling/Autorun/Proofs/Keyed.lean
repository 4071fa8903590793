import Mathlib.Data.List.Nodup
import Autorun.Lib.Run
import Autorun.Sync.Keyed

namespace Autorun.Sync.Keyed

open Autorun.Lib List

variable {s s' : State} {self peer w : Waiter} {queue rest : List Waiter} {c : Call} {id : Nat}

theorem pairs_iff : peer.pairs self = true ↔
    peer.release ≠ self.release ∧ peer.object = self.object ∧ peer.key = self.key := by
  simp [Waiter.pairs, and_assoc]

theorem match_found (h : matchLocked self queue = some (peer, rest)) :
    ∃ before after, queue = before ++ peer :: after ∧ rest = before ++ after ∧
      peer.pairs self = true ∧ ∀ w ∈ before, w.pairs self = false := by
  induction queue generalizing rest with
  | nil => cases h
  | cons v queue ih =>
    unfold matchLocked at h
    split at h
    · cases h
      exact ⟨[], _, rfl, rfl, by assumption, by simp⟩
    · rename_i hv
      obtain ⟨⟨found, tail⟩, htail, heq⟩ := Option.map_eq_some_iff.mp h
      cases heq
      obtain ⟨before, after, rfl, rfl, hp, hbefore⟩ := ih htail
      refine ⟨v :: before, after, rfl, rfl, hp, fun w hw => ?_⟩
      rcases mem_cons.mp hw with rfl | hw
      · exact Bool.not_eq_true _ ▸ hv
      · exact hbefore w hw

theorem cancel_found (h : cancelLocked id queue = some rest) :
    ∃ before w after, queue = before ++ w :: after ∧ rest = before ++ after ∧ w.id = id := by
  induction queue generalizing rest with
  | nil => cases h
  | cons v queue ih =>
    unfold cancelLocked at h
    split at h
    · cases h
      exact ⟨[], v, _, rfl, rfl, by assumption⟩
    · obtain ⟨tail, htail, rfl⟩ := Option.map_eq_some_iff.mp h
      obtain ⟨before, w, after, rfl, rfl, hw⟩ := ih htail
      exact ⟨v :: before, w, after, rfl, rfl, hw⟩

theorem cancel_missing (h : cancelLocked id queue = none) : ∀ w ∈ queue, w.id ≠ id := by
  induction queue with
  | nil => simp
  | cons v queue ih =>
    unfold cancelLocked at h
    split at h
    · cases h
    · rename_i hv
      intro w hw
      rcases mem_cons.mp hw with rfl | hw
      · exact hv
      · exact ih (Option.map_eq_none_iff.mp h) w hw

def State.met (s : State) : List Nat := s.pairs.flatMap fun p => [p.1.id, p.2.id]

/-- The call is in its loop and nobody has met it. -/
structure Open (s : State) (c : Call) : Prop where
  phase : c.phase = .waiting ∨ c.phase = .expired
  done : c.done = false
  met : c.waiter.id ∉ s.met

/-- A call is queued, has met its peer, or has given up. -/
inductive Fate (s : State) (c : Call) : Prop
  | queued (hqueue : c.waiter ∈ s.queue) (hopen : Open s c)
  | met (hmet : c.waiter.id ∈ s.met) (hphase : c.phase ≠ .returned .timeout)
      (hdone : c.done = true ∨ c.phase = .returned .success)
  | late (hphase : c.phase = .returned .timeout) (hmet : c.waiter.id ∉ s.met)

structure Inv (s : State) : Prop where
  ids : ∀ id c, s.calls id = some c → c.waiter.id = id
  fates : ∀ id c, s.calls id = some c → Fate s c
  queue : ∀ w ∈ s.queue, ∃ c, s.calls w.id = some c ∧ c.waiter = w ∧ Open s c
  order : (s.queue.map Waiter.id).Sublist s.arrivals
  nodup : s.arrivals.Nodup
  arrived : ∀ id ∈ s.arrivals, s.calls id ≠ none
  sides : ∀ p ∈ s.pairs, p.1.pairs p.2 = true
  queuedSide : ∀ p ∈ s.pairs, ∃ c, s.calls p.1.id = some c ∧ c.waiter = p.1 ∧ c.done = true
  meetingSide : ∀ p ∈ s.pairs, ∃ c, s.calls p.2.id = some c ∧ c.waiter = p.2 ∧
    c.phase = .returned .success
  once : s.met.Nodup

@[simp] theorem put_queue (s : State) (id : Nat) (c : Call) : (s.put id c).queue = s.queue := rfl

@[simp] theorem put_pairs (s : State) (id : Nat) (c : Call) : (s.put id c).pairs = s.pairs := rfl

@[simp] theorem put_arrivals (s : State) (id : Nat) (c : Call) : (s.put id c).arrivals = s.arrivals := rfl

@[simp] theorem put_calls (s : State) (id i : Nat) (c : Call) :
    (s.put id c).calls i = if i = id then some c else s.calls i := rfl

theorem Open.carry (ho : Open s c) (hmet : c.waiter.id ∈ s'.met → c.waiter.id ∈ s.met) : Open s' c :=
  ⟨ho.phase, ho.done, mt hmet ho.met⟩

theorem Fate.carry (hf : Fate s c) (hqueue : c.waiter ∈ s.queue → c.waiter ∈ s'.queue)
    (hmet : c.waiter.id ∈ s'.met ↔ c.waiter.id ∈ s.met) : Fate s' c := by
  cases hf with
  | queued hq ho => exact .queued (hqueue hq) (ho.carry hmet.mp)
  | met hm hphase hdone => exact .met (hmet.mpr hm) hphase hdone
  | late hphase hm => exact .late hphase (mt hmet.mp hm)

theorem Inv.met_made (hi : Inv s) (hmet : id ∈ s.met) : s.calls id ≠ none := by
  obtain ⟨p, hp, hid⟩ := mem_flatMap.mp hmet
  rcases mem_cons.mp hid with rfl | hid
  · obtain ⟨c, hc, -⟩ := hi.queuedSide p hp
    simp [hc]
  · rw [mem_singleton] at hid
    subst hid
    obtain ⟨c, hc, -⟩ := hi.meetingSide p hp
    simp [hc]

/-- Calls as before but for one that moves on: its waiter stays, and a flag or a success is not
taken back. -/
structure Moves (c c' : Call) : Prop where
  waiter : c'.waiter = c.waiter
  done : c.done = true → c'.done = true
  success : c.phase = .returned .success → c'.phase = .returned .success

theorem Moves.refl (c : Call) : Moves c c := ⟨rfl, fun h => h, fun h => h⟩

theorem put_moves (hc : s.calls id = some c) (hm : Moves c c') (hd : s.calls i = some d) :
    ∃ d', (s.put id c').calls i = some d' ∧ Moves d d' := by
  by_cases hid : i = id
  · subst hid
    cases hc.symm.trans hd
    exact ⟨c', by simp, hm⟩
  · exact ⟨d, by simp [hid, hd], Moves.refl d⟩

/-- A call moves on, with the queue it leaves behind and a fate that is still one. -/
theorem Inv.put (hi : Inv s) (hc : s.calls id = some c) (hm : Moves c c')
    (hqueue : queue.Sublist s.queue) (hothers : ∀ w ∈ s.queue, w.id ≠ id → w ∈ queue)
    (hopen : c.waiter ∈ queue → Open s c') (hfate : Fate { s with queue } c') :
    Inv ({ s with queue }.put id c') := by
  have hid := hi.ids id c hc
  constructor
  · intro i d hd
    rw [put_calls] at hd
    split at hd
    · rename_i heq
      cases hd
      rw [hm.waiter, hid, heq]
    · exact hi.ids i d hd
  · intro i d hd
    rw [put_calls] at hd
    split at hd
    · cases hd
      exact hfate.carry (fun h => h) Iff.rfl
    · rename_i hne
      refine (hi.fates i d hd).carry (fun hq => hothers _ hq ?_) Iff.rfl
      exact hi.ids i d hd ▸ hne
  · intro w hw
    by_cases heq : w.id = id
    · obtain ⟨d, hd, rfl, -⟩ := hi.queue w (hqueue.subset hw)
      rw [heq, hc] at hd
      cases hd
      refine ⟨c', ?_, hm.waiter, (hopen hw).carry fun h => h⟩
      simp [heq]
    · obtain ⟨d, hd, hwd, ho⟩ := hi.queue w (hqueue.subset hw)
      exact ⟨d, by simp [heq, hd], hwd, ho.carry fun h => h⟩
  · exact (hqueue.map _).trans hi.order
  · exact hi.nodup
  · intro i hia
    obtain ⟨d, hd⟩ := Option.ne_none_iff_exists'.mp (hi.arrived i hia)
    obtain ⟨d', hd', -⟩ := put_moves hc hm hd
    exact Option.ne_none_iff_exists'.mpr ⟨d', hd'⟩
  · exact hi.sides
  · intro p hp
    obtain ⟨d, hd, hw, hdone⟩ := hi.queuedSide p hp
    obtain ⟨d', hd', hm'⟩ := put_moves hc hm hd
    exact ⟨d', hd', hm'.waiter.trans hw, hm'.done hdone⟩
  · intro p hp
    obtain ⟨d, hd, hw, hphase⟩ := hi.meetingSide p hp
    obtain ⟨d', hd', hm'⟩ := put_moves hc hm hd
    exact ⟨d', hd', hm'.waiter.trans hw, hm'.success hphase⟩
  · exact hi.once

theorem Inv.put_same (hi : Inv s) (hc : s.calls id = some c) (hm : Moves c c')
    (hopen : c.waiter ∈ s.queue → Open s c') (hfate : Fate s c') : Inv (s.put id c') :=
  hi.put hc hm (List.Sublist.refl s.queue) (fun _ hw _ => hw) hopen hfate

theorem Inv.open_of_queued (hi : Inv s) (hc : s.calls id = some c) (hw : c.waiter ∈ s.queue) :
    Open s c := by
  obtain ⟨d, hd, -, ho⟩ := hi.queue c.waiter hw
  rw [hi.ids id c hc, hc] at hd
  cases hd
  exact ho

theorem Inv.gone (hi : Inv s) (hqueue : s.queue = before ++ w :: rest) :
    ∀ v ∈ before ++ rest, v.id ≠ w.id := by
  intro v hv heq
  have hnodup : (s.queue.map Waiter.id).Nodup := hi.order.nodup hi.nodup
  rw [hqueue, map_append, map_cons, nodup_middle, nodup_cons] at hnodup
  refine hnodup.1 ?_
  rw [← heq, ← map_append]
  exact mem_map_of_mem hv

theorem taken_sublist (hqueue : queue = before ++ w :: rest) : (before ++ rest).Sublist queue :=
  hqueue ▸ List.Sublist.append_left (sublist_cons_self w rest) before

theorem taken_others (hqueue : queue = before ++ w :: rest) (hv : v ∈ queue) (hne : v.id ≠ w.id) :
    v ∈ before ++ rest := by
  rw [hqueue, mem_append, mem_cons] at hv
  rcases hv with hv | rfl | hv
  · exact mem_append_left _ hv
  · exact absurd rfl hne
  · exact mem_append_right _ hv

theorem Inv.look (hi : Inv s) (hc : s.calls id = some c) (timeUp : Bool) :
    Inv (s.put id (c.look timeUp)) := by
  have hsame : Inv (s.put id c) :=
    hi.put_same hc (Moves.refl c) (hi.open_of_queued hc) (hi.fates id c hc)
  unfold Call.look
  split
  · rename_i hwaiting
    split
    · rename_i hdone
      have hqueue : c.waiter ∉ s.queue := fun hw => by
        have := (hi.open_of_queued hc hw).done
        simp [hdone] at this
      refine hi.put_same hc ⟨rfl, fun h => h, fun _ => rfl⟩ (fun hw => absurd hw hqueue) ?_
      cases hi.fates id c hc with
      | queued hw _ => exact absurd hw hqueue
      | met hmet _ _ => exact .met hmet (by simp) (.inr rfl)
      | late hphase _ => simp [hwaiting] at hphase
    · rename_i hdone
      split
      · have hexpired : c.waiter ∈ s.queue → Open s { c with phase := .expired } := fun hw =>
          ⟨.inr rfl, (hi.open_of_queued hc hw).done, (hi.open_of_queued hc hw).met⟩
        refine hi.put_same hc ⟨rfl, fun h => h, by simp [hwaiting]⟩ hexpired ?_
        cases hi.fates id c hc with
        | queued hw _ => exact .queued hw (hexpired hw)
        | met _ _ hmeeting => simp [hwaiting, hdone] at hmeeting
        | late hphase _ => simp [hwaiting] at hphase
      · exact hsame
  · exact hsame

/-- Who gives up in time is not queued any more; who is too late goes back to the loop. -/
theorem Inv.cancel (hi : Inv s) (hc : s.calls id = some c) (hexpired : c.phase = .expired) :
    Inv (s.cancel id c) := by
  have hid := hi.ids id c hc
  unfold State.cancel
  split
  · rename_i queue hfound
    obtain ⟨before, w, after, hqueue, rfl, hw⟩ := cancel_found hfound
    have hmem : w ∈ s.queue := by simp [hqueue]
    obtain ⟨d, hd, hdw, ho⟩ := hi.queue w hmem
    rw [hw, hc] at hd
    cases hd
    have hgone : ∀ v ∈ before ++ after, v.id ≠ id := hw ▸ hi.gone hqueue
    exact hi.put hc ⟨rfl, fun h => h, by simp [hexpired]⟩ (taken_sublist hqueue)
      (fun v hv hne => taken_others hqueue hv (hw ▸ hne)) (fun hmem => absurd hid (hgone _ hmem))
      (.late rfl ho.met)
  · rename_i hmissing
    have hqueue : c.waiter ∉ s.queue := fun hw => cancel_missing hmissing _ hw hid
    refine hi.put_same hc ⟨rfl, fun h => h, by simp [hexpired]⟩ (fun hw => absurd hw hqueue) ?_
    cases hi.fates id c hc with
    | queued hw _ => exact absurd hw hqueue
    | met hmet _ hmeeting => exact .met hmet (by simp) (.inl (by simpa [hexpired] using hmeeting))
    | late hphase _ => simp [hexpired] at hphase

theorem Inv.arrive (hi : Inv s) (hc : s.calls self.id = none) (hwaiter : c.waiter = self)
    (hfate : Fate { s with queue := s.queue ++ new } c)
    (hnew : new = [] ∨ (new = [self] ∧ Open s c)) :
    Inv ({ s with queue := s.queue ++ new, arrivals := s.arrivals ++ new.map Waiter.id }.put self.id c) := by
  have hold : ∀ i d, s.calls i = some d → i ≠ self.id := by
    rintro i d hd rfl
    simp [hc] at hd
  have hcalls : ∀ i d, s.calls i = some d →
      ({ s with queue := s.queue ++ new, arrivals := s.arrivals ++ new.map Waiter.id }.put self.id
        c).calls i = some d := by
    intro i d hd
    simp [hold i d hd, hd]
  constructor
  · intro i d hd
    rw [put_calls] at hd
    split at hd
    · rename_i heq
      cases hd
      rw [hwaiter, heq]
    · exact hi.ids i d hd
  · intro i d hd
    rw [put_calls] at hd
    split at hd
    · cases hd
      exact hfate.carry (fun h => h) Iff.rfl
    · exact (hi.fates i d hd).carry (fun hq => mem_append_left _ hq) Iff.rfl
  · intro w hw
    rcases mem_append.mp hw with hw | hw
    · obtain ⟨d, hd, hwd, ho⟩ := hi.queue w hw
      exact ⟨d, hcalls _ d hd, hwd, ho.carry fun h => h⟩
    · rcases hnew with rfl | ⟨rfl, ho⟩
      · cases hw
      · rw [mem_singleton] at hw
        subst hw
        exact ⟨c, by simp, hwaiter, ho.carry fun h => h⟩
  · rw [put_queue, put_arrivals, map_append]
    exact hi.order.append_right _
  · rcases hnew with rfl | ⟨rfl, -⟩
    · simpa using hi.nodup
    · refine nodup_append.mpr ⟨hi.nodup, by simp, ?_⟩
      rintro a ha b hb rfl
      rw [map_singleton, mem_singleton] at hb
      subst hb
      exact hi.arrived _ ha hc
  · intro i hia
    rcases mem_append.mp hia with hia | hia
    · obtain ⟨d, hd⟩ := Option.ne_none_iff_exists'.mp (hi.arrived i hia)
      exact Option.ne_none_iff_exists'.mpr ⟨d, hcalls i d hd⟩
    · rcases hnew with rfl | ⟨rfl, -⟩
      · cases hia
      · rw [map_singleton, mem_singleton] at hia
        simp [hia]
  · exact hi.sides
  · intro p hp
    obtain ⟨d, hd, hw⟩ := hi.queuedSide p hp
    exact ⟨d, hcalls _ d hd, hw⟩
  · intro p hp
    obtain ⟨d, hd, hw⟩ := hi.meetingSide p hp
    exact ⟨d, hcalls _ d hd, hw⟩
  · exact hi.once

theorem Inv.meet (hi : Inv s) (hc : s.calls self.id = none)
    (hfound : matchLocked self s.queue = some (peer, queue)) (timeout : Int) :
    Inv (({ s with queue, pairs := (peer, self) :: s.pairs }.publish peer.id).put self.id
      { waiter := self, timeout, phase := .returned .success }) := by
  obtain ⟨before, after, hqueue, rfl, hpairs, -⟩ := match_found hfound
  have hmem : peer ∈ s.queue := by simp [hqueue]
  obtain ⟨d, hd, hdw, ho⟩ := hi.queue peer hmem
  have hpm : peer.id ∉ s.met := hdw ▸ ho.met
  have hsm : self.id ∉ s.met := fun h => hi.met_made h hc
  have hne : peer.id ≠ self.id := fun h => by simp [h, hc] at hd
  have hgone := hi.gone hqueue
  have hpublish : ({ s with queue := before ++ after, pairs := (peer, self) :: s.pairs } : State).publish
      peer.id = { s with queue := before ++ after, pairs := (peer, self) :: s.pairs }.put peer.id
        { d with done := true } := by
    simp [State.publish, hd]
  rw [hpublish]
  -- who is neither of the two is as before
  have hcalls : ∀ i e, s.calls i = some e → ∃ e', ((({ s with
      queue := before ++ after, pairs := (peer, self) :: s.pairs } : State).put peer.id
        { d with done := true }).put self.id
        { waiter := self, timeout, phase := .returned .success }).calls i = some e' ∧ Moves e e' := by
    intro i e he
    have hself : i ≠ self.id := fun h => by simp [h, hc] at he
    by_cases hpeer : i = peer.id
    · subst hpeer
      cases hd.symm.trans he
      exact ⟨{ d with done := true }, by simp [hself], rfl, fun _ => rfl, fun h => h⟩
    · exact ⟨e, by simp [hself, hpeer, he], Moves.refl e⟩
  constructor
  · intro i e he
    simp only [put_calls] at he
    split at he
    · rename_i heq
      cases he
      exact heq.symm
    · split at he
      · rename_i heq
        cases he
        rw [heq, ← hdw]
      · exact hi.ids i e he
  · intro i e he
    simp only [put_calls] at he
    split at he
    · cases he
      exact .met (by simp [State.met]) (by simp) (.inr rfl)
    · split at he
      · cases he
        refine .met (by simp [State.met, hdw]) ?_ (.inl rfl)
        rcases ho.phase with hphase | hphase <;> simp [hphase]
      · rename_i hself hpeer
        have hid := hi.ids i e he
        refine (hi.fates i e he).carry (fun hq => taken_others hqueue hq (hid ▸ hpeer)) ?_
        simp only [State.met] at *
        simp [hid, hself, hpeer]
  · intro v hv
    obtain ⟨e, he, hev, hoe⟩ := hi.queue v ((taken_sublist hqueue).subset hv)
    have hpeer := hgone v hv
    have hself : v.id ≠ self.id := fun h => by simp [h, hc] at he
    refine ⟨e, by simp [hself, hpeer, he], hev, hoe.carry fun h => ?_⟩
    simp only [State.met] at *
    simpa [hev, hself, hpeer] using h
  · exact ((taken_sublist hqueue).map _).trans hi.order
  · exact hi.nodup
  · intro i hia
    obtain ⟨e, he⟩ := Option.ne_none_iff_exists'.mp (hi.arrived i hia)
    obtain ⟨e', he', -⟩ := hcalls i e he
    exact Option.ne_none_iff_exists'.mpr ⟨e', he'⟩
  · intro p hp
    rcases mem_cons.mp hp with rfl | hp
    · exact hpairs
    · exact hi.sides p hp
  · intro p hp
    rcases mem_cons.mp hp with rfl | hp
    · exact ⟨{ d with done := true }, by simp [hne], hdw, rfl⟩
    · obtain ⟨e, he, hw, hdone⟩ := hi.queuedSide p hp
      obtain ⟨e', he', hm⟩ := hcalls _ e he
      exact ⟨e', he', hm.waiter.trans hw, hm.done hdone⟩
  · intro p hp
    rcases mem_cons.mp hp with rfl | hp
    · exact ⟨{ waiter := self, timeout, phase := .returned .success }, by simp, rfl, rfl⟩
    · obtain ⟨e, he, hw, hphase⟩ := hi.meetingSide p hp
      obtain ⟨e', he', hm⟩ := hcalls _ e he
      exact ⟨e', he', hm.waiter.trans hw, hm.success hphase⟩
  · exact nodup_cons.mpr ⟨not_mem_cons_of_ne_of_not_mem hne hpm,
      nodup_cons.mpr ⟨hsm, hi.once⟩⟩

theorem Inv.enter (hi : Inv s) (hc : s.calls self.id = none) (timeout : Int) :
    Inv (s.enter self timeout) := by
  have hmet : self.id ∉ s.met := fun h => hi.met_made h hc
  unfold State.enter
  split
  · rename_i peer queue hfound
    exact hi.meet hc hfound timeout
  · split
    · have := hi.arrive (c := { waiter := self, timeout, phase := .returned .timeout }) hc rfl
        (.late rfl hmet) (.inl rfl)
      simpa using this
    · have ho : Open s { waiter := self, timeout, phase := .waiting } := ⟨.inl rfl, rfl, hmet⟩
      exact hi.arrive hc rfl (.queued (by simp) (ho.carry fun h => h)) (.inr ⟨rfl, ho⟩)

theorem Inv.step (hi : Inv s) (a : Action) : Inv (s.step a) := by
  cases a with
  | enter self timeout =>
    cases hc : s.calls self.id with
    | none => simpa [State.step, hc] using hi.enter hc timeout
    | some c => simpa [State.step, hc] using hi
  | look id timeUp =>
    cases hc : s.calls id with
    | none => simpa [State.step, hc] using hi
    | some c => simpa [State.step, hc] using hi.look hc timeUp
  | cancel id =>
    cases hc : s.calls id with
    | none => simpa [State.step, hc] using hi
    | some c =>
      simp only [State.step, hc]
      split
      · exact hi.cancel hc (by assumption)
      · exact hi

theorem Inv.initial : Inv {} := by
  constructor <;> simp [State.met]

/-- Waits and releases are paired one to one. -/
structure OneToOne (s : State) : Prop where
  /-- A call that returned success is in a pair. -/
  success : ∀ id c, s.calls id = some c → c.phase = .returned .success → id ∈ s.met
  /-- A call that returned TIMEOUT is in none. -/
  timeout : ∀ id c, s.calls id = some c → c.phase = .returned .timeout → id ∉ s.met
  /-- No call is in two pairs. -/
  once : s.met.Nodup
  /-- A pair is a wait and a release of one key of one object. -/
  sides : ∀ p ∈ s.pairs, p.1.release ≠ p.2.release ∧ p.1.object = p.2.object ∧ p.1.key = p.2.key
  /-- The call that met a queued one has returned success. -/
  meeting : ∀ p ∈ s.pairs, ∃ c, s.calls p.2.id = some c ∧ c.waiter = p.2 ∧ c.phase = .returned .success
  /-- The queued one has, or does so at its next look even if it saw its time to be up. -/
  queued : ∀ p ∈ s.pairs, ∃ c, s.calls p.1.id = some c ∧ c.waiter = p.1 ∧
    (c.phase = .returned .success ∨ ∀ timeUp, ∃ c',
      ((s.step (.cancel p.1.id)).step (.look p.1.id timeUp)).calls p.1.id = some c' ∧
        c'.phase = .returned .success)

/-- A call that has been met goes back from its cancel and returns success. -/
theorem Inv.look_done (hi : Inv s) (hc : s.calls id = some c) (hdone : c.done = true)
    (hmet : id ∈ s.met) (timeUp : Bool) :
    c.phase = .returned .success ∨
      ∃ c', ((s.step (.cancel id)).step (.look id timeUp)).calls id = some c' ∧
        c'.phase = .returned .success := by
  have hqueue : c.waiter ∉ s.queue := fun hw => by
    have := (hi.open_of_queued hc hw).done
    simp [hdone] at this
  have hphase : c.phase ≠ .returned .timeout := by
    cases hi.fates id c hc with
    | queued hw _ => exact absurd hw hqueue
    | met _ hphase _ => exact hphase
    | late _ hlate => exact absurd (hi.ids id c hc ▸ hmet) hlate
  cases hp : c.phase with
  | waiting =>
    right
    simp [State.step, hc, hp, Call.look, hdone]
  | expired =>
    right
    have hcancel : s.cancel id c = s.put id { c with phase := .waiting } := by
      unfold State.cancel
      split
      · rename_i queue hfound
        obtain ⟨before, w, after, hsq, -, hw⟩ := cancel_found hfound
        obtain ⟨d, hd, hdw, ho⟩ := hi.queue w (by simp [hsq])
        rw [hw, hc] at hd
        cases hd
        have := ho.done
        simp [hdone] at this
      · rfl
    simp [State.step, hc, hp, hcancel, Call.look, hdone]
  | returned result =>
    cases result with
    | success => exact .inl rfl
    | timeout => exact absurd hp hphase

theorem Inv.one_to_one (hi : Inv s) : OneToOne s := by
  have hpaired : ∀ p ∈ s.pairs, p.1.id ∈ s.met := fun p hp =>
    mem_flatMap.mpr ⟨p, hp, by simp⟩
  refine ⟨?_, ?_, hi.once, fun p hp => pairs_iff.mp (hi.sides p hp), hi.meetingSide, ?_⟩
  · intro id c hc hphase
    cases hi.fates id c hc with
    | queued _ ho => simpa [hphase] using ho.phase
    | met hmet _ _ => exact hi.ids id c hc ▸ hmet
    | late hlate _ => simp [hphase] at hlate
  · intro id c hc hphase
    cases hi.fates id c hc with
    | queued _ ho => simpa [hphase] using ho.phase
    | met _ hmet _ => exact absurd hphase hmet
    | late _ hmet => exact hi.ids id c hc ▸ hmet
  · intro p hp
    obtain ⟨c, hc, hw, hdone⟩ := hi.queuedSide p hp
    refine ⟨c, hc, hw, ?_⟩
    by_cases hphase : c.phase = .returned .success
    · exact .inl hphase
    · exact .inr fun timeUp => (hi.look_done hc hdone (hpaired p hp) timeUp).resolve_left hphase

theorem Inv.oldest_first (hi : Inv s)
    (hpair : (s.step (.enter self timeout)).pairs = (peer, self) :: s.pairs)
    (hc : s.calls id = some c) (hwaits : ∀ result, c.phase ≠ .returned result) (hmet : id ∉ s.met)
    (hrelease : c.waiter.release = peer.release) (hobject : c.waiter.object = peer.object)
    (hkey : c.waiter.key = peer.key) : id = peer.id ∨ [peer.id, id].Sublist s.arrivals := by
  have hid := hi.ids id c hc
  have hqueued : c.waiter ∈ s.queue := by
    cases hi.fates id c hc with
    | queued hw _ => exact hw
    | met hm _ _ => exact absurd (hid ▸ hm) hmet
    | late hphase _ => exact absurd hphase (hwaits _)
  have hfound : ∃ queue, matchLocked self s.queue = some (peer, queue) := by
    cases hnew : s.calls self.id with
    | some d => simp [State.step, hnew] at hpair
    | none =>
      simp only [State.step, hnew, State.enter] at hpair
      split at hpair
      · rename_i p queue hfound
        have hpairs : (({ s with queue, pairs := (p, self) :: s.pairs } : State).publish p.id).pairs =
            (p, self) :: s.pairs := by
          unfold State.publish
          split <;> rfl
        rw [put_pairs, hpairs] at hpair
        cases hpair
        exact ⟨queue, hfound⟩
      · split at hpair <;> simp at hpair
  obtain ⟨queue, hfound⟩ := hfound
  obtain ⟨before, after, hqueue, -, hp, hbefore⟩ := match_found hfound
  have hside : c.waiter.pairs self = true := by
    rw [pairs_iff] at hp ⊢
    rw [hrelease, hobject, hkey]
    exact hp
  rw [hqueue, mem_append, mem_cons] at hqueued
  rcases hqueued with hw | hw | hw
  · simp [hbefore _ hw] at hside
  · exact .inl (hid.symm.trans (congrArg Waiter.id hw))
  · refine .inr (List.Sublist.trans ?_ hi.order)
    rw [hqueue, map_append, map_cons]
    refine List.Sublist.trans ?_ (sublist_append_right _ _)
    exact (singleton_sublist.mpr (hid ▸ mem_map_of_mem hw)).cons_cons peer.id

/-- However waits and releases interleave, they are paired one to one, and a call that meets
another meets the one that has been queued longest on its side of the key. -/
theorem keyed_events_pair (as : List Action) :
    let s := run State.step {} as
    OneToOne s ∧
      ∀ self timeout peer, (s.step (.enter self timeout)).pairs = (peer, self) :: s.pairs →
        ∀ id c, s.calls id = some c → (∀ result, c.phase ≠ .returned result) → id ∉ s.met →
          c.waiter.release = peer.release → c.waiter.object = peer.object → c.waiter.key = peer.key →
          id = peer.id ∨ [peer.id, id].Sublist s.arrivals := by
  have hi : Inv (run State.step {} as) := run_invariant (fun s a h => h.step a) Inv.initial as
  exact ⟨hi.one_to_one, fun _ _ _ hpair _ _ hc hwaits hmet => hi.oldest_first hpair hc hwaits hmet⟩

/-- Two waits of a key, the second with its time up, and a release: it meets the first. -/
theorem keyed_events_pair_two_waits :
    let s := run State.step {} [.enter ⟨1, 7, 2, false⟩ (-1), .enter ⟨2, 7, 2, false⟩ 5, .look 2 true]
    (s.step (.enter ⟨3, 7, 2, true⟩ 0)).pairs = (⟨1, 7, 2, false⟩, ⟨3, 7, 2, true⟩) :: s.pairs ∧
      (2 = 1 ∨ [1, 2].Sublist s.arrivals) :=
  ⟨rfl, (keyed_events_pair [.enter ⟨1, 7, 2, false⟩ (-1), .enter ⟨2, 7, 2, false⟩ 5, .look 2 true]).2
    ⟨3, 7, 2, true⟩ 0 ⟨1, 7, 2, false⟩ rfl 2 ⟨⟨2, 7, 2, false⟩, 5, .expired, false⟩ rfl
    (fun _ => by simp) (by decide) rfl rfl rfl⟩

theorem match_missing (h : matchLocked self queue = none) : ∀ w ∈ queue, w.pairs self = false := by
  induction queue with
  | nil => simp
  | cons v queue ih =>
    unfold matchLocked at h
    split at h
    · cases h
    · rename_i hv
      intro w hw
      rcases mem_cons.mp hw with rfl | hw
      · simpa using hv
      · exact ih (Option.map_eq_none_iff.mp h) w hw

/-- All that wait for one key of one object are on one side of it. -/
def OneSided (queue : List Waiter) : Prop :=
  ∀ v ∈ queue, ∀ w ∈ queue, v.object = w.object → v.key = w.key → v.release = w.release

theorem OneSided.remove (h : OneSided (before ++ w :: after')) : OneSided (before ++ after') := by
  have hsub : before ++ after' ⊆ before ++ w :: after' := ((sublist_cons_self _ _).append_left _).subset
  exact fun v hv u hu => h v (hsub hv) u (hsub hu)

theorem OneSided.enqueue (h : OneSided queue) (hnone : matchLocked self queue = none) :
    OneSided (enqueueLocked queue self) := by
  have hside : ∀ w ∈ queue, w.object = self.object → w.key = self.key → w.release = self.release := by
    intro w hw hobject hkey
    by_contra hne
    simpa [match_missing hnone w hw] using pairs_iff.mpr ⟨hne, hobject, hkey⟩
  intro v hv w hw hobject hkey
  simp only [enqueueLocked, mem_append, mem_singleton] at hv hw
  rcases hv with hv | rfl <;> rcases hw with hw | rfl
  · exact h v hv w hw hobject hkey
  · exact hside v hv hobject hkey
  · exact (hside w hw hobject.symm hkey.symm).symm
  · rfl

theorem publish_queue (s : State) (id : Nat) : (s.publish id).queue = s.queue := by
  unfold State.publish
  split <;> rfl

theorem OneSided.step (h : OneSided s.queue) (a : Action) : OneSided (s.step a).queue := by
  cases a with
  | enter self timeout =>
    simp only [State.step]
    split
    case h_2 => exact h
    case h_1 =>
    simp only [State.enter]
    split
    case h_1 hfound =>
      obtain ⟨before, after, heq, rfl, -⟩ := match_found hfound
      rw [State.put, publish_queue]
      exact (heq ▸ h).remove
    case h_2 hnone =>
      split
      · exact h
      · exact h.enqueue hnone
  | look id timeUp =>
    simp only [State.step]
    split <;> exact h
  | cancel id =>
    simp only [State.step]
    split
    case h_2 => exact h
    case h_1 =>
    split
    case isFalse => exact h
    case isTrue =>
    unfold State.cancel
    split
    case h_1 hfound =>
      obtain ⟨before, w, after, heq, rfl, -⟩ := cancel_found hfound
      exact (heq ▸ h).remove
    case h_2 => exact h

/-- However calls interleave and time out, a wait and a release of one key are never both queued:
whichever comes second meets the first. -/
theorem no_missed_rendezvous (as : List Action) : OneSided (run State.step {} as).queue :=
  run_invariant (P := fun s : State => OneSided s.queue) (fun _ a h => h.step a) (by simp [OneSided]) as

end Autorun.Sync.Keyed
