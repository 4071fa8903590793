import Mathlib.Data.List.Nodup
import Autorun.Server.WinTimers

namespace Autorun.Server.WinTimers

open List

variable {s : Timers} {list : List Timer} {tid win msg id lparam now : Nat} {rate : UInt32} {t : Timer}

theorem before_val (id : TimerId) : (before id).1 = if id.1 ≤ 0x101 then 0x7fff else id.1 - 1 := by
  unfold before
  split <;> split <;> first | rfl | omega

/-- How many turns take the counter from one id to another. -/
def ahead (id other : TimerId) : Nat := if other.1 ≤ id.1 then id.1 - other.1 else id.1 + 0x7eff - other.1

/-- How many turns the search has before it is back where it stops. -/
def left (id endId : TimerId) : Nat := if endId.1 < id.1 then id.1 - endId.1 else id.1 + 0x7eff - endId.1

theorem left_before (id endId : TimerId) :
    if (before id).1 = endId.1 then left id endId = 1 else left id endId = left (before id) endId + 1 := by
  unfold left
  rw [before_val]
  have := id.2
  have := endId.2
  grind

theorem ahead_before (id other : TimerId) (hne : other.1 ≠ id.1) :
    ahead id other = ahead (before id) other + 1 := by
  unfold ahead
  rw [before_val]
  have := id.2
  have := other.2
  grind

/-- The search ends with an id that is free, or has seen that none is. -/
theorem free_id (taken : TimerId → Bool) (endId : TimerId) (turns : Nat) (id : TimerId) (hturns : left id endId ≤ turns) :
    ∃ found next, freeId taken endId turns id = some (found, next) ∧
      (∀ i, found = some i → taken i = false) ∧
      (found = none → ∀ i, ahead id i < left id endId → taken i = true) := by
  induction turns generalizing id with
  | zero =>
    have := id.2
    have := endId.2
    unfold left at hturns
    split at hturns <;> omega
  | succ turns ih =>
    rw [freeId]
    cases htaken : taken id with
    | false => exact ⟨some id, _, rfl, fun i hi => (Option.some.inj hi) ▸ htaken, by simp⟩
    | true =>
      have hself : ∀ i : TimerId, i.1 = id.1 → taken i = true := fun i hi => Subtype.ext hi ▸ htaken
      have hstep := left_before id endId
      simp only [Bool.not_true, Bool.false_eq_true, ↓reduceIte]
      split at hstep
      · rename_i hend
        rw [if_pos hend]
        refine ⟨none, _, rfl, by simp, fun _ i hi => hself i ?_⟩
        by_contra hne
        rw [ahead_before id i hne] at hi
        omega
      · rename_i hend
        rw [if_neg hend]
        obtain ⟨found, next, heq, hfree, hall⟩ := ih (before id) (by omega)
        refine ⟨found, next, heq, hfree, fun hnone i hi => ?_⟩
        by_cases hne : i.1 = id.1
        · exact hself i hne
        · have := ahead_before id i hne
          exact hall hnone i (by omega)

/-- An id the server chose, or that all are taken. -/
def Chosen (list : List Timer) (tid msg : Nat) : Option Nat → Prop
  | some i => 0x101 ≤ i ∧ i ≤ 0x7fff ∧ find list (tid, 0, msg, i) = none
  | none => ∀ i, 0x101 ≤ i → i ≤ 0x7fff → (find list (tid, 0, msg, i)).isSome

theorem choose_id (s : Timers) (tid win msg id : Nat) :
    ∃ list found next, chooseId s tid win msg id = some (list, found, next) ∧
      (replaces s.list tid win msg id = true → list = remove s.list (tid, win, msg, id) ∧ found = some id) ∧
      (replaces s.list tid win msg id = false → list = s.list ∧
        (win = 0 → Chosen s.list tid msg found) ∧ (win ≠ 0 → found = some id)) := by
  unfold chooseId
  dsimp only
  cases replaces s.list tid win msg id with
  | true => exact ⟨_, _, _, rfl, fun _ => ⟨rfl, rfl⟩, by simp⟩
  | false =>
    simp only [Bool.false_eq_true, ↓reduceIte]
    split
    · rename_i hwin
      generalize s.nextId.getD ⟨0x7fff, by decide⟩ = nextId
      have hturns : left nextId nextId = 0x7eff := by
        unfold left
        split <;> omega
      obtain ⟨found, next, heq, hfree, hall⟩ :=
        free_id (fun id => (find s.list (tid, 0, msg, id.1)).isSome) nextId 0x7fff nextId (by omega)
      refine ⟨_, _, next, by rw [heq]; rfl, by simp, fun _ => ⟨rfl, fun _ => ?_, fun hne => absurd hwin hne⟩⟩
      cases found with
      | some i => exact ⟨i.2.1, i.2.2, by simpa using hfree i rfl⟩
      | none =>
        intro i hl hr
        refine hall rfl ⟨i, by omega, hr⟩ ?_
        have := nextId.2
        rw [hturns]
        unfold ahead
        dsimp only
        split <;> omega
    · rename_i hwin
      exact ⟨_, _, _, rfl, by simp, fun _ => ⟨rfl, fun h0 => absurd h0 hwin, fun _ => rfl⟩⟩

theorem find_none {key : Nat × Nat × Nat × Nat} :
    find list key = none ↔ key ∉ list.map Timer.key := by
  simp [find]

theorem remove_keys (list : List Timer) (key : Nat × Nat × Nat × Nat) :
    (remove list key).map Timer.key = (list.map Timer.key).erase key := by
  rw [remove, erase_eq_eraseP, eraseP_map]
  congr 2
  funext t
  simp [Bool.beq_eq_decide_eq, eq_comm]

/-- `horizon_win_timers_set` ends, and adds a timer that no other has the key of. -/
theorem set_keys (memory : Bool) (tid win msg id : Nat) (rate : UInt32) (lparam now : Nat)
    (hs : (s.list.map Timer.key).Nodup) :
    ∃ r s', set memory s tid win msg id rate lparam now = some (r, s') ∧ (s'.list.map Timer.key).Nodup := by
  obtain ⟨list, found, next, heq, hrep, hnew⟩ := choose_id s tid win msg id
  unfold set
  rw [heq]
  have hlist : (list.map Timer.key).Nodup ∧ ∀ i, found = some i → (tid, win, msg, i) ∉ list.map Timer.key := by
    cases hr : replaces s.list tid win msg id with
    | true =>
      obtain ⟨rfl, rfl⟩ := hrep hr
      rw [remove_keys]
      refine ⟨hs.erase _, fun i hi => ?_⟩
      cases hi
      exact hs.not_mem_erase
    | false =>
      obtain ⟨rfl, hzero, hwin⟩ := hnew hr
      refine ⟨hs, fun i hi => find_none.mp ?_⟩
      by_cases h0 : win = 0
      · subst h0
        have hc := hzero rfl
        rw [hi] at hc
        exact hc.2.2
      · cases hi.symm.trans (hwin h0)
        simpa [replaces, h0] using hr
  cases found with
  | none => exact ⟨_, _, rfl, hlist.1⟩
  | some i =>
    cases memory with
    | false => exact ⟨_, _, rfl, hlist.1⟩
    | true => exact ⟨_, _, rfl, nodup_cons.mpr ⟨hlist.2 i rfl, hlist.1⟩⟩

/-- A call that fails leaves the timers as they were, unless it had already taken out the one it was
to replace. -/
theorem set_failure_keeps_timers (memory : Bool) (s : Timers) (tid win msg id : Nat) (rate : UInt32)
    (lparam now : Nat) :
    (∀ e s', set memory s tid win msg id rate lparam now = some (.error e, s') → s'.list = s.list) ↔
      (memory = true ∨ (win = 0 ∧ id = 0) ∨ find s.list (tid, win, msg, id) = none) := by
  obtain ⟨list, found, next, heq, hrep, hnew⟩ := choose_id s tid win msg id
  have hkeeps : replaces s.list tid win msg id = false ↔
      (win = 0 ∧ id = 0) ∨ find s.list (tid, win, msg, id) = none := by
    simp [replaces, Classical.or_iff_not_imp_left]
  unfold set
  rw [heq, ← hkeeps]
  cases hr : replaces s.list tid win msg id with
  | false =>
    obtain ⟨rfl, -⟩ := hnew hr
    refine ⟨fun _ => .inr rfl, fun _ e s' he => ?_⟩
    cases found with
    | none =>
      cases he
      rfl
    | some i =>
      cases memory with
      | false =>
        cases he
        rfl
      | true => cases he
  | true =>
    obtain ⟨rfl, rfl⟩ := hrep hr
    cases memory with
    | true => exact ⟨fun _ => .inl rfl, fun _ e s' he => by cases he⟩
    | false =>
      refine ⟨fun h => ?_, by simp⟩
      have hlen := congrArg List.length (h .noMemory _ rfl)
      obtain ⟨t, ht⟩ := Option.isSome_iff_exists.mp (Bool.and_eq_true_iff.mp hr).2
      have hmem := mem_of_find?_eq_some ht
      have hpos := length_pos_of_mem hmem
      dsimp only at hlen
      rw [remove, length_eraseP_of_mem hmem (List.find?_some ht)] at hlen
      omega

/-- A timer is set again when there is no memory for it, and is gone. -/
theorem set_failure_drops_timer :
    let t : Timer := { tid := 1, win := 2, msg := 0x113, rate := ⟨10, by decide⟩, id := 3, lparam := 0, when := 10 }
    set false ⟨[t], none⟩ 1 2 0x113 3 20 0 5 = some (.error .noMemory, ⟨[], some ⟨0x7fff, by decide⟩⟩) := by
  rfl

/-- The best timer among those the loop has seen. -/
def Best (f : Filter) (seen : List Timer) : Option (Nat × Timer) → Prop
  | none => ∀ u ∈ seen, f.passes u = false
  | some (place, t) => seen[place]? = some t ∧ f.passes t = true ∧ ∀ u ∈ seen, f.passes u = true → t.when ≤ u.when

theorem Best.next {f : Filter} {seen : List Timer} {found : Option (Nat × Timer)} (hb : Best f seen found)
    (t : Timer) : Best f (seen ++ [t])
      (if f.passes t && found.all (fun best => t.when < best.2.when) then some (seen.length, t) else found) := by
  split
  · rename_i htest
    rw [Bool.and_eq_true] at htest
    refine ⟨by simp, htest.1, fun u hu hpass => ?_⟩
    rcases mem_append.mp hu with hu | hu
    · cases found with
      | none => simp [hb u hu] at hpass
      | some best =>
        have := hb.2.2 u hu hpass
        have hlt : t.when < best.2.when := by simpa using htest.2
        omega
    · exact Nat.le_of_eq (by rw [mem_singleton.mp hu])
  · rename_i htest
    cases found with
    | none =>
      intro u hu
      rcases mem_append.mp hu with hu | hu
      · exact hb u hu
      · rw [mem_singleton.mp hu]
        simpa using htest
    | some best =>
      refine ⟨(List.getElem?_append_left ?_).trans hb.1, hb.2.1, fun u hu hpass => ?_⟩
      · exact (List.getElem?_eq_some_iff.mp hb.1).1
      · rcases mem_append.mp hu with hu | hu
        · exact hb.2.2 u hu hpass
        · rw [mem_singleton.mp hu] at hpass ⊢
          simpa [hpass] using htest

theorem earliest_best {f : Filter} {seen : List Timer} {found : Option (Nat × Timer)} (hb : Best f seen found)
    (list : List Timer) : Best f (seen ++ list) (earliest f list seen.length found) := by
  induction list generalizing seen found with
  | nil => simpa [earliest] using hb
  | cons t list ih =>
    have := ih (hb.next t)
    simpa [earliest] using this

/-- The loop that moves a timer on ends at the first time past `now`, if the clock does not run
over. -/
theorem reschedule_first {rate : Nat} (hrate : 0 < rate) (hsmall : rate < 2 ^ 32) (hclock : now + 2 ^ 32 ≤ 2 ^ 64)
    (turns : Nat) (w : Nat) (hturns : now < w + turns) :
    ∃ n, reschedule rate now turns w = some (w + n * rate) ∧ now < w + n * rate ∧
      ∀ j < n, w + j * rate ≤ now := by
  induction turns generalizing w with
  | zero => exact ⟨0, by simp [reschedule]; omega, by omega, by simp⟩
  | succ turns ih =>
    rw [reschedule]
    split
    · rename_i hdue
      rw [Nat.mod_eq_of_lt (by omega)]
      obtain ⟨n, heq, hlt, hfirst⟩ := ih (w + rate) (by omega)
      have hsum : ∀ j, w + (j + 1) * rate = w + rate + j * rate := fun j => by
        rw [Nat.add_mul]
        omega
      refine ⟨n + 1, by rw [hsum, heq], hsum n ▸ hlt, fun j hj => ?_⟩
      cases j with
      | zero => omega
      | succ j => exact hsum j ▸ hfirst j (by omega)
    · exact ⟨0, by simp, by omega, by simp⟩

/-- The timer `t` as `horizon_win_timers_expired` leaves it. -/
def Moved (now : Nat) (remove : Bool) (t t' : Timer) : Prop :=
  if remove then ∃ n, t' = { t with when := t.when + n * t.rate.1.toNat } ∧ now < t'.when ∧
    ∀ j < n, t.when + j * t.rate.1.toNat ≤ now
  else t' = t

theorem expired_best (s : Timers) (f : Filter) (remove : Bool) (hclock : f.now + 2 ^ 32 ≤ 2 ^ 64) :
    (expired s f remove = some (none, s) ∧ ∀ t ∈ s.list, f.passes t = false) ∨
    ∃ place t t', expired s f remove = some (some t', { s with list := s.list.set place t' }) ∧
      s.list[place]? = some t ∧ f.passes t = true ∧ (∀ u ∈ s.list, f.passes u = true → t.when ≤ u.when) ∧
      Moved f.now remove t t' := by
  have hb : Best f s.list (earliest f s.list 0 none) := by
    simpa using earliest_best (show Best f [] none by simp [Best]) s.list
  unfold expired
  cases hfound : earliest f s.list 0 none with
  | none =>
    rw [hfound] at hb
    exact .inl ⟨rfl, hb⟩
  | some best =>
    obtain ⟨place, t⟩ := best
    rw [hfound] at hb
    obtain ⟨hplace, hpass, hleast⟩ := hb
    refine .inr ⟨place, t, ?_⟩
    cases remove with
    | false =>
      refine ⟨t, ?_, hplace, hpass, hleast, rfl⟩
      obtain ⟨hlt, rfl⟩ := List.getElem?_eq_some_iff.mp hplace
      rw [set_getElem_self]
      rfl
    | true =>
      have hpos : 0 < t.rate.1.toNat := Nat.pos_of_ne_zero fun h0 => t.rate.2 (UInt32.toNat_inj.mp h0)
      obtain ⟨n, heq, hlt, hfirst⟩ :=
        reschedule_first hpos t.rate.1.toNat_lt hclock (f.now + 1) t.when (by omega)
      exact ⟨_, by simp [heq], hplace, hpass, hleast, n, rfl, hlt, hfirst⟩

/-- The clock of a call is more than the longest rate away from running over. -/
def Op.Timely : Op → Prop
  | .expired f _ => f.now + 2 ^ 32 ≤ 2 ^ 64
  | _ => True

theorem step_keys (hs : (s.list.map Timer.key).Nodup) (op : Op) (hop : op.Timely) :
    ∃ s', step s op = some s' ∧ (s'.list.map Timer.key).Nodup := by
  cases op with
  | set memory tid win msg id rate lparam now =>
    obtain ⟨r, s', heq, hs'⟩ := set_keys memory tid win msg id rate lparam now hs
    exact ⟨s', by simp [step, heq], hs'⟩
  | kill tid win msg id =>
    refine ⟨_, rfl, ?_⟩
    unfold kill
    split
    · dsimp only
      rw [remove_keys]
      exact hs.erase _
    · exact hs
  | expired f remove =>
    rcases expired_best s f remove hop with ⟨heq, -⟩ | ⟨place, t, t', heq, hplace, -, -, hmoved⟩
    · exact ⟨s, by simp [step, heq], hs⟩
    · refine ⟨_, by simp [step, heq]; rfl, ?_⟩
      have hkey : t'.key = t.key := by
        unfold Moved at hmoved
        split at hmoved
        · obtain ⟨n, rfl, -⟩ := hmoved
          rfl
        · rw [hmoved]
      obtain ⟨hlt, rfl⟩ := List.getElem?_eq_some_iff.mp hplace
      have hlt' : place < (s.list.map Timer.key).length := by simpa using hlt
      dsimp only
      rw [map_set, hkey, ← getElem_map Timer.key (h := hlt'), set_getElem_self]
      exact hs
  | drop tid win => exact ⟨_, rfl, hs.sublist (filter_sublist.map _)⟩

theorem run_keys (ops : List Op) (hs : (s.list.map Timer.key).Nodup) (hops : ∀ op ∈ ops, op.Timely) :
    ∃ s', run s ops = some s' ∧ (s'.list.map Timer.key).Nodup := by
  induction ops generalizing s with
  | nil => exact ⟨s, rfl, hs⟩
  | cons op ops ih =>
    obtain ⟨s1, heq, hs1⟩ := step_keys hs op (hops op (mem_cons_self ..))
    obtain ⟨s', heq', hs'⟩ := ih hs1 fun x hx => hops x (mem_cons_of_mem _ hx)
    exact ⟨s', by simp [run, heq, heq'], hs'⟩

/-- In every run no two timers share thread, window, message and id. An id the server chooses is in
its range and free among the timers of that thread and message without a window, and the search for
one ends, without an id only if all are taken. The timer that has expired is the earliest that
passes, and moves on to the first time past `now`. -/
theorem win_timers_kept (ops : List Op) (hops : ∀ op ∈ ops, op.Timely) :
    ∃ s, run {} ops = some s ∧ (s.list.map Timer.key).Nodup ∧
      (∀ memory tid msg id rate lparam now, replaces s.list tid 0 msg id = false →
        ∃ r s', set memory s tid 0 msg id rate lparam now = some (r, s') ∧
          (∀ i, r = .ok i → 0x101 ≤ i ∧ i ≤ 0x7fff ∧
            ∀ t ∈ s.list, t.tid = tid → t.win = 0 → t.msg = msg → t.id ≠ i) ∧
          (r = .error .noIds → ∀ i, 0x101 ≤ i → i ≤ 0x7fff → ∃ t ∈ s.list, t.key = (tid, 0, msg, i))) ∧
      ∀ f remove, f.now + 2 ^ 32 ≤ 2 ^ 64 →
        (expired s f remove = some (none, s) ∧ ∀ t ∈ s.list, f.passes t = false) ∨
        ∃ place t t', expired s f remove = some (some t', { s with list := s.list.set place t' }) ∧
          s.list[place]? = some t ∧ f.passes t = true ∧
          (∀ u ∈ s.list, f.passes u = true → t.when ≤ u.when) ∧ Moved f.now remove t t' := by
  obtain ⟨s, heq, hs⟩ := run_keys (s := {}) ops (by simp) hops
  refine ⟨s, heq, hs, fun memory tid msg id rate lparam now hnew => ?_, expired_best s⟩
  obtain ⟨list, found, next, hchoose, -, hfound⟩ := choose_id s tid 0 msg id
  obtain ⟨rfl, hchosen, -⟩ := hfound hnew
  have hchosen := hchosen rfl
  unfold set
  rw [hchoose]
  cases found with
  | none =>
    refine ⟨_, _, rfl, by simp, fun _ i hl hr => ?_⟩
    obtain ⟨t, ht⟩ := Option.isSome_iff_exists.mp (hchosen i hl hr)
    exact ⟨t, mem_of_find?_eq_some ht, by simpa using List.find?_some ht⟩
  | some i =>
    obtain ⟨hl, hr, hfree⟩ := hchosen
    cases memory with
    | false => exact ⟨_, _, rfl, by simp, by simp⟩
    | true =>
      refine ⟨_, _, rfl, fun j hj => ?_, by simp⟩
      cases hj
      refine ⟨hl, hr, fun t ht h1 h2 h3 h4 => find_none.mp hfree (mem_map.mpr ⟨t, ht, ?_⟩)⟩
      rw [Timer.key, h1, h2, h3, h4]

/-- Two timers, of which the one that is due first expires. -/
theorem win_timers_kept_twice :
    let ops : List Op := [.set true 1 0 0x113 0 10 0 5, .set true 1 0 0x113 0 30 0 6, .expired ⟨1, 0, 0, 0, 100⟩ true]
    ∃ s, run {} ops = some s ∧ s.list.map (fun t => (t.id, t.when)) = [(0x7ffe, 36), (0x7fff, 105)] ∧ (s.list.map Timer.key).Nodup := by
  intro ops
  obtain ⟨s, heq, hkeys, -⟩ := win_timers_kept ops (by simp [ops, Op.Timely])
  refine ⟨s, heq, ?_, hkeys⟩
  have hend : (run {} ops).map (fun s => s.list.map fun t => (t.id, t.when)) =
      some [(0x7ffe, 36), (0x7fff, 105)] := by
    decide +kernel
  rw [heq] at hend
  exact Option.some.inj hend

/-- A timer without a window, under an id the server chose. -/
def unowned (msg : Nat) (id : TimerId) : Timer :=
  { tid := 1, win := 0, msg, rate := ⟨1, (rateOf 1).2⟩, id := id.1, lparam := 0, when := 1 }

/-- Timers are set and killed until the counter has come round. -/
def churn : Nat → List Op
  | 0 => [.set true 1 0 0x113 0 1 0 0, .kill 1 0 0x113 0x101]
  | n + 1 => .set true 1 0 0x113 0 1 0 0 :: .kill 1 0 0x113 (n + 1 + 0x101) :: churn n

theorem set_unowned (other id : TimerId) :
    set true ⟨[unowned 0x118 other], some id⟩ 1 0 0x113 0 1 0 0 =
      some (.ok id.1, ⟨[unowned 0x113 id, unowned 0x118 other], some (before id)⟩) := by
  have hfree : freeId (fun id => (find [unowned 0x118 other] (1, 0, 0x113, id.1)).isSome) id (0x7ffe + 1) id =
      some (some id, before id) := by
    simp [freeId, find, Timer.key, unowned]
  have hchoose : chooseId ⟨[unowned 0x118 other], some id⟩ 1 0 0x113 0 =
      some ([unowned 0x118 other], some id.1, before id) := by
    simp only [chooseId, replaces, Option.getD_some]
    rw [hfree]
    rfl
  unfold set
  rw [hchoose]
  rfl

theorem kill_unowned (other id : TimerId) (next : Option TimerId) :
    kill ⟨[unowned 0x113 id, unowned 0x118 other], next⟩ 1 0 0x113 id.1 =
      (true, ⟨[unowned 0x118 other], next⟩) := by
  simp [kill, find, remove, Timer.key, unowned]

theorem churn_wraps (other : TimerId) (n : Nat) (hn : n + 0x101 ≤ 0x7fff) :
    run ⟨[unowned 0x118 other], some ⟨n + 0x101, by omega, hn⟩⟩ (churn n) =
      some ⟨[unowned 0x118 other], some ⟨0x7fff, by decide⟩⟩ := by
  induction n with
  | zero =>
    have hkill := kill_unowned other ⟨0x101, by decide⟩
    simp [churn, run, step, set_unowned, hkill, before]
  | succ n ih =>
    have hkill := kill_unowned other ⟨n + 1 + 0x101, by omega, hn⟩
    have hbefore : before ⟨n + 1 + 0x101, by omega, hn⟩ = ⟨n + 0x101, by omega, by omega⟩ := by
      apply Subtype.ext
      rw [before_val]
      split <;> dsimp only at * <;> omega
    simp only [churn, run, step, set_unowned, Option.map_some, Option.bind_some]
    dsimp only at hkill ⊢
    rw [hbefore, hkill]
    exact ih (by omega)

theorem run_churn (n : Nat) (hn : n + 0x101 = 0x7ffe) :
    run {} (.set true 1 0 0x118 0 1 0 0 :: churn n) =
      some ⟨[unowned 0x118 ⟨0x7fff, by decide⟩], some ⟨0x7fff, by decide⟩⟩ := by
  have hfirst : step {} (.set true 1 0 0x118 0 1 0 0) =
      some ⟨[unowned 0x118 ⟨0x7fff, by decide⟩], some ⟨n + 0x101, by omega, by omega⟩⟩ := by
    simp only [hn]
    rfl
  rw [run, hfirst, Option.bind_some]
  exact churn_wraps ⟨0x7fff, by decide⟩ n (by omega)

/-- Two timers of one thread without a window, of different messages, get the same id. -/
theorem unowned_share_id :
    ∃ ops s s' t, (∀ op ∈ ops, op.Timely) ∧ run {} ops = some s ∧ t ∈ s.list ∧ t.tid = 1 ∧ t.win = 0 ∧
      set true s 1 0 0x113 0 1 0 0 = some (.ok t.id, s') := by
  obtain ⟨n, hn⟩ : ∃ n, n + 0x101 = 0x7ffe := ⟨0x7efd, rfl⟩
  have htimely : ∀ n, ∀ op ∈ churn n, op.Timely := by
    intro n
    induction n with
    | zero => simp [churn, Op.Timely]
    | succ n ih => simpa [churn, Op.Timely] using ih
  refine ⟨_, _, _, unowned 0x118 ⟨0x7fff, by decide⟩, fun op hop => ?_, run_churn n hn,
    mem_singleton.mpr rfl, rfl, rfl, set_unowned ⟨0x7fff, by decide⟩ ⟨0x7fff, by decide⟩⟩
  rcases mem_cons.mp hop with rfl | hop
  · trivial
  · exact htimely n op hop

end Autorun.Server.WinTimers
