import Mathlib.Data.List.Perm.Basic
import Autorun.Swap.Locks

namespace Autorun.Swap.Locks

open List

variable {p q : Pin} {locks rest : List Pin} {start stop size x : Nat}

def Pin.Has (p : Pin) (x : Nat) : Prop := p.addr ≤ x ∧ x < p.stop

def Pin.Apart (p q : Pin) : Prop := p.stop < q.addr ∨ q.stop < p.addr

def Covered (locks : List Pin) (x : Nat) : Prop := ∃ p ∈ locks, p.Has x

structure Inv (locks : List Pin) : Prop where
  nonempty : ∀ p ∈ locks, 0 < p.size ∧ p.stop < 2 ^ 64
  apart : locks.Pairwise Pin.Apart

theorem Pin.Apart.symm (h : p.Apart q) : q.Apart p := Or.symm h

theorem covered_cons : Covered (p :: locks) x ↔ p.Has x ∨ Covered locks x := exists_mem_cons_iff ..

theorem Inv.cons (h : Inv locks) (hp : 0 < p.size ∧ p.stop < 2 ^ 64) (hapart : ∀ q ∈ locks, p.Apart q) :
    Inv (p :: locks) :=
  ⟨forall_mem_cons.mpr ⟨hp, h.nonempty⟩, pairwise_cons.mpr ⟨hapart, h.apart⟩⟩

theorem Inv.tail (h : Inv (p :: locks)) : Inv locks :=
  ⟨fun q hq => h.nonempty q (mem_cons_of_mem _ hq), h.apart.of_cons⟩

theorem Inv.perm (h : Inv locks) (hperm : locks.Perm rest) : Inv rest :=
  ⟨fun p hp => h.nonempty p (hperm.mem_iff.mpr hp), h.apart.perm hperm Pin.Apart.symm⟩

theorem absorb_none (h : absorb start stop locks = none) (hp : p ∈ locks) : stop < p.addr ∨ p.stop < start := by
  induction locks with
  | nil => cases hp
  | cons old rest ih =>
    rw [absorb] at h
    split at h
    · cases h
    · rcases mem_cons.mp hp with rfl | hp
      · omega
      · exact ih (Option.map_eq_none_iff.mp h) hp

theorem absorb_some (h : absorb start stop locks = some (p, rest)) :
    p.addr ≤ stop ∧ start ≤ p.stop ∧ locks.Perm (p :: rest) := by
  induction locks generalizing rest with
  | nil => cases h
  | cons old locks ih =>
    rw [absorb] at h
    split at h
    case isTrue hmeet =>
      cases h
      exact ⟨hmeet.1, hmeet.2, .refl _⟩
    case isFalse =>
      obtain ⟨⟨taken, kept⟩, hsome, heq⟩ := Option.map_eq_some_iff.mp h
      cases heq
      obtain ⟨hle, hge, hperm⟩ := ih hsome
      exact ⟨hle, hge, (hperm.cons old).trans (.swap ..)⟩

theorem merge_spec (hinv : Inv locks) (hlt : start < stop) (hstop : stop < 2 ^ 64) (hleft : locks.length < left) :
    ∃ pin rest, merge left start stop locks = some (pin, rest) ∧ Inv (pin :: rest) ∧
      ∀ x, Covered (pin :: rest) x ↔ Covered locks x ∨ start ≤ x ∧ x < stop := by
  induction left generalizing start stop locks with
  | zero => exact absurd hleft (Nat.not_lt_zero _)
  | succ left ih =>
    rw [merge]
    cases habsorb : absorb start stop locks with
    | none =>
      have hpin : (⟨start, stop - start⟩ : Pin).stop = stop := Nat.add_sub_of_le (Nat.le_of_lt hlt)
      refine ⟨_, _, rfl, hinv.cons ⟨Nat.sub_pos_of_lt hlt, hpin.symm ▸ hstop⟩ fun q hq => ?_, fun x => ?_⟩
      · unfold Pin.Apart
        rw [hpin]
        exact absorb_none habsorb hq
      · rw [covered_cons, or_comm, Pin.Has, hpin]
    | some taken =>
      obtain ⟨old, kept⟩ := taken
      obtain ⟨hle, hge, hperm⟩ := absorb_some habsorb
      have hinv' := hinv.perm hperm
      have hold := hinv'.nonempty old (mem_cons_self ..)
      have hlen := hperm.length_eq
      rw [length_cons] at hlen
      obtain ⟨pin, rest, hmerge, hpinv, hcover⟩ :
          ∃ pin rest, merge left (min start old.addr) (max stop old.stop) kept = some (pin, rest) ∧ _ :=
        ih hinv'.tail (by omega) (by omega) (by omega)
      refine ⟨pin, rest, hmerge, hpinv, fun x => ?_⟩
      have hlocks : Covered locks x ↔ Covered (old :: kept) x := by simp [Covered, hperm.mem_iff]
      rw [hcover, hlocks, covered_cons, Pin.Has]
      have : min start old.addr ≤ x ∧ x < max stop old.stop ↔
          old.addr ≤ x ∧ x < old.stop ∨ start ≤ x ∧ x < stop := by omega
      tauto

structure Trimmed (start stop : Nat) (locks l : List Pin) : Prop where
  inv : Inv l
  within : ∀ q ∈ l, ∃ p ∈ locks, p.addr ≤ q.addr ∧ q.stop ≤ p.stop
  covered : ∀ x, Covered l x ↔ Covered locks x ∧ ¬(start ≤ x ∧ x < stop)

theorem Trimmed.append (hps : Trimmed start stop [p] ps) (hl : Trimmed start stop rest l)
    (hapart : ∀ q ∈ rest, p.Apart q) : Trimmed start stop (p :: rest) (ps ++ l) := by
  refine ⟨⟨forall_mem_append.mpr ⟨hps.inv.nonempty, hl.inv.nonempty⟩,
    pairwise_append.mpr ⟨hps.inv.apart, hl.inv.apart, fun a ha b hb => ?_⟩⟩, fun q hq => ?_, fun x => ?_⟩
  · obtain ⟨p', hp', ha1, ha2⟩ := hps.within a ha
    obtain ⟨q, hq, hb1, hb2⟩ := hl.within b hb
    cases mem_singleton.mp hp'
    have := hapart q hq
    unfold Pin.Apart at *
    omega
  · rcases mem_append.mp hq with hq | hq
    · obtain ⟨p', hp', hin⟩ := hps.within q hq
      exact ⟨p', by simp_all, hin⟩
    · obtain ⟨p', hp', hin⟩ := hl.within q hq
      exact ⟨p', mem_cons_of_mem _ hp', hin⟩
  · have happ : Covered (ps ++ l) x ↔ Covered ps x ∨ Covered l x := by
      simp [Covered, or_and_right, exists_or]
    have hone : Covered [p] x ↔ p.Has x := by simp [Covered]
    rw [happ, hps.covered, hl.covered, hone, covered_cons, or_and_right]

theorem Trimmed.piece (hp : 0 < p.size ∧ p.stop < 2 ^ 64) (hq : 0 < q.size) (hlo : p.addr ≤ q.addr)
    (hhi : q.stop ≤ p.stop) (hhas : ∀ x, q.Has x ↔ p.Has x ∧ ¬(start ≤ x ∧ x < stop)) :
    Trimmed start stop [p] [q] :=
  ⟨⟨by simp; omega, pairwise_singleton ..⟩, by simp [hlo, hhi], by simp [Covered, hhas]⟩

theorem trim_spec (hinv : Inv locks) (hlt : start < stop)
    (hright : ∀ p ∈ locks, p.addr < start → stop < p.stop → right = true) :
    ∃ l, trim start stop right locks = some l ∧ Trimmed start stop locks l := by
  induction locks generalizing right with
  | nil => exact ⟨[], rfl, hinv, nofun, by simp [Covered]⟩
  | cons pin rest ih =>
    have hpin := hinv.nonempty pin (mem_cons_self ..)
    have hapart := (pairwise_cons.mp hinv.apart).1
    obtain ⟨l, htrim, hl⟩ := ih hinv.tail fun p hp => hright p (mem_cons_of_mem _ hp)
    have hkeep : ∀ ps, Trimmed start stop [pin] ps →
        ∃ l', some (ps ++ l) = some l' ∧ Trimmed start stop (pin :: rest) l' :=
      fun ps hps => ⟨_, rfl, hps.append hl hapart⟩
    rw [trim]
    unfold Pin.stop at hpin ⊢
    split
    case isTrue hout =>
      rw [htrim]
      refine hkeep [pin] (.piece hpin hpin.1 (Nat.le_refl _) (Nat.le_refl _) fun x => ?_)
      unfold Pin.Has Pin.stop
      omega
    case isFalse hin =>
    split
    case isTrue hlow =>
      split
      case isTrue hhigh =>
        -- the other ranges are apart from this one, so none of them asks for the node again
        have hnone : ∀ p ∈ rest, p.addr < start → stop < p.stop → false = true := by
          intro p hp hlow' hhigh'
          have := hapart p hp
          unfold Pin.Apart Pin.stop at *
          omega
        obtain ⟨l, htrim, hl⟩ := ih hinv.tail hnone
        rw [hright pin (mem_cons_self ..) hlow hhigh, if_pos rfl, htrim]
        have hboth : Trimmed start stop [pin]
            [⟨pin.addr, start - pin.addr⟩, ⟨stop, pin.addr + pin.size - stop⟩] := by
          refine ⟨⟨?_, ?_⟩, ?_, fun x => ?_⟩
          all_goals
            simp [Covered, Pin.Apart, Pin.Has, Pin.stop]
            omega
        exact ⟨_, rfl, hboth.append hl hapart⟩
      case isFalse hhigh =>
        rw [htrim]
        refine hkeep [⟨pin.addr, start - pin.addr⟩] (.piece hpin ?_ ?_ ?_ fun x => ?_)
        all_goals
          simp only [Pin.Has, Pin.stop]
          omega
    case isFalse hlow =>
    split
    case isTrue hhigh =>
      rw [htrim]
      refine hkeep [⟨stop, pin.addr + pin.size - stop⟩] (.piece hpin ?_ ?_ ?_ fun x => ?_)
      all_goals
        simp only [Pin.Has, Pin.stop]
        omega
    case isFalse hhigh =>
      rw [htrim]
      refine hkeep [] ⟨⟨nofun, .nil⟩, nofun, fun x => ?_⟩
      simp [Covered, Pin.Has, Pin.stop]
      omega

theorem unlock_spec (memory : Bool) (start : Nat) (hinv : Inv locks) (hsize : 0 < size) :
    swapUnlockLocked memory start size locks = some (false, locks) ∨
      ∃ l, swapUnlockLocked memory start size locks = some (true, l) ∧ Trimmed start (start + size) locks l := by
  unfold swapUnlockLocked
  dsimp only
  split
  · exact .inl rfl
  · have hinner : ∀ p ∈ locks, p.addr < start → start + size < p.stop →
        locks.any (fun p => p.addr < start ∧ start + size < p.stop) = true := fun p hp hlow hhigh =>
      any_eq_true.mpr ⟨p, hp, decide_eq_true ⟨hlow, hhigh⟩⟩
    obtain ⟨l, htrim, hl⟩ := trim_spec hinv (by omega) hinner
    rw [htrim]
    exact .inr ⟨l, rfl, hl⟩

theorem lock_spec (a : Answers) (hinv : Inv locks) (hsize : 0 < size) (hwrap : start + size < 2 ^ 64) :
    (∃ reply, swapLock a start size locks = some (reply, locks) ∧ reply ≠ .done) ∨
      ∃ l, swapLock a start size locks = some (.done, l) ∧ Inv l ∧
        ∀ x, Covered l x ↔ Covered locks x ∨ start ≤ x ∧ x < start + size := by
  unfold swapLock
  split
  · exact .inl ⟨_, rfl, nofun⟩
  · rw [if_neg (by omega)]
    split
    · exact .inl ⟨_, rfl, nofun⟩
    · split
      · exact .inl ⟨_, rfl, nofun⟩
      · obtain ⟨pin, rest, hmerge, hpin⟩ :=
          merge_spec hinv (show start < start + size by omega) hwrap (Nat.lt_succ_self locks.length)
        rw [hmerge]
        exact .inr ⟨_, rfl, hpin⟩

/-- The list is what was locked and not unlocked since. -/
structure World.Exact (w : World) : Prop where
  inv : Inv w.locks
  covered : ∀ x, Covered w.locks x ↔ w.held x

theorem World.Exact.step {w : World} {op : Op} (h : w.Exact) (hok : op.Ok) : ∃ w', w.step op = some w' ∧ w'.Exact := by
  cases op with
  | lock a start size =>
    rw [World.step]
    rcases lock_spec a h.inv hok.1 hok.2 with ⟨reply, hlock, hne⟩ | ⟨l, hlock, hinv, hcover⟩
    · rw [hlock]
      exact ⟨_, rfl, h.inv, by simp [hne, h.covered]⟩
    · rw [hlock]
      exact ⟨_, rfl, hinv, by simp [hcover, h.covered]⟩
  | unlock memory start size =>
    rw [World.step]
    rcases unlock_spec memory start h.inv hok.1 with hlock | ⟨l, hlock, htrim⟩
    · rw [hlock]
      exact ⟨_, rfl, h.inv, by simp [h.covered]⟩
    · rw [hlock]
      exact ⟨_, rfl, htrim.inv, by simp [htrim.covered, h.covered]⟩

theorem World.Exact.run {w : World} (h : w.Exact) (ops : List Op) (hok : ∀ op ∈ ops, op.Ok) :
    ∃ w', ops.foldlM World.step w = some w' ∧ w'.Exact := by
  induction ops generalizing w with
  | nil => exact ⟨w, rfl, h⟩
  | cons op ops ih =>
    obtain ⟨w', hstep, h'⟩ := h.step (hok op (mem_cons_self ..))
    rw [foldlM_cons, hstep]
    exact ih h' fun op hop => hok op (mem_cons_of_mem _ hop)

/-- Whatever was locked and unlocked, no loop is stuck, the ranges are apart and hold what is locked,
and an unlock that fails leaves the list alone. -/
theorem locks_are_exact (ops : List Op) (hok : ∀ op ∈ ops, op.Ok) :
    ∃ w, ops.foldlM World.step ⟨[], fun _ => False⟩ = some w ∧ w.locks.Pairwise Pin.Apart ∧
      (∀ x, Covered w.locks x ↔ w.held x) ∧
      ∀ memory start size, 0 < size → ∀ l,
        swapUnlockLocked memory start size w.locks = some (false, l) → l = w.locks := by
  have hstart : World.Exact ⟨[], fun _ => False⟩ := ⟨⟨nofun, .nil⟩, by simp [Covered]⟩
  obtain ⟨w, hw, hexact⟩ := hstart.run ops hok
  refine ⟨w, hw, hexact.inv.apart, hexact.covered, fun memory start size hsize l hl => ?_⟩
  rcases unlock_spec memory start hexact.inv hsize with hfail | ⟨l', hdone, -⟩
  · rw [hfail] at hl
    cases hl
    rfl
  · rw [hdone] at hl
    cases hl

/-- Two ranges, one that bridges them, and an unlock in the middle. -/
def someLocks : List Op :=
  [.lock ⟨true, true, true⟩ 4096 4096, .lock ⟨true, true, true⟩ 12288 4096,
    .lock ⟨true, true, true⟩ 8192 4096, .unlock true 8192 1024]

theorem locks_are_exact_bridged :
    ∃ w, someLocks.foldlM World.step ⟨[], fun _ => False⟩ = some w ∧
      w.locks = [⟨4096, 4096⟩, ⟨9216, 7168⟩] ∧ w.held 9216 ∧ ¬w.held 9215 := by
  obtain ⟨w, hw, -, hcover, -⟩ := locks_are_exact someLocks (by simp [someLocks, Op.Ok])
  have hlocks : w.locks = [⟨4096, 4096⟩, ⟨9216, 7168⟩] := by
    cases hw
    rfl
  refine ⟨w, hw, hlocks, ?_⟩
  rw [← hcover, ← hcover, hlocks]
  simp [Covered, Pin.Has, Pin.stop]

/-- A lock of memory that is not swapped returns 0 and locks nothing. -/
theorem unswapped_memory_is_not_locked :
    swapLock ⟨false, true, true⟩ 4096 4096 [] = some (.nothing, []) ∧ ¬Covered [] 4096 :=
  ⟨rfl, by simp [Covered]⟩

end Autorun.Swap.Locks
