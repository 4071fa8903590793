import Autorun.Swap.Pager

namespace Autorun.Swap.Pager
open Autorun.Lib Function List

/-- The two tables are inverse to each other, a pinned page is resident and the
hand is on a slot. A closed pager has no slots. -/
structure Resident (p : SwapPager) : Prop where
  owner : ∀ i q, p.owners i = some q →
    i < p.slotCount ∧ q < p.pageCount ∧ (p.pages q).slot = some i
  slot : ∀ q i, (p.pages q).slot = some i → p.owners i = some q
  pinned : ∀ q, (p.pages q).pins ≠ 0 → (p.pages q).slot.isSome
  hand : p.slotCount = 0 ∨ p.hand < p.slotCount

/-- Every page's bytes are where the tables say: a resident page's in its
frame, mapped, another page's in its stored copy, or nowhere and zero. -/
structure Holds {n : Nat} (s : State n) : Prop where
  here : ∀ q i, (s.pager.pages q).slot = some i →
    s.ctx.mapped i = some q ∧ s.ctx.ram i = s.last q
  away : ∀ q, (s.pager.pages q).slot = none →
    if (s.pager.pages q).stored then s.ctx.disk q = s.last q else s.last q = zeroPage n

/-- The invariant of a run: the tables always, the bytes until the pager is
poisoned. A refused close drops frames without writing them back, so a run
that closes keeps the tables only: `kept` says that none has. -/
structure Inv {n : Nat} (kept : Prop) (s : State n) : Prop where
  resident : Resident s.pager
  holds : kept → s.pager.poisoned = false → Holds s

def OwnerPinned (p : SwapPager) (i : Nat) : Prop :=
  ∃ old, p.owners i = some old ∧ (p.pages old).pins ≠ 0

/-- The slot is free, or its owner may be evicted. -/
def Usable (p : SwapPager) (i : Nat) : Prop :=
  i < p.slotCount ∧ ∀ old, p.owners i = some old → (p.pages old).pins = 0

theorem init_resident (h : swapPagerInit pages slots = some p) : Resident p := by
  unfold swapPagerInit at h
  split at h
  · cases h
  · cases h
    refine ⟨?_, ?_, ?_, Or.inr ?_⟩
    · intro i q hq
      cases hq
    · intro q i hi
      cases hi
    · intro q hp
      exact absurd rfl hp
    · change 0 < slots
      omega

/-- Every slot the clock passed over is pinned or free, and the hand stays on a
slot. -/
theorem clock_scan (p : SwapPager) (i hand : Nat) (hh : hand < p.slotCount) :
    (clockScan p i hand).2 < p.slotCount ∧
    (∀ slot, (clockScan p i hand).1 = some slot →
      slot < p.slotCount ∧ ∃ old, p.owners slot = some old ∧ (p.pages old).pins = 0) ∧
    ((clockScan p i hand).1 = none → ∀ j < i, ∀ old,
      p.owners ((hand + j) % p.slotCount) = some old → (p.pages old).pins ≠ 0) := by
  induction i generalizing hand with
  | zero => simp [clockScan, hh]
  | succ i ih =>
    have hnext : (hand + 1) % p.slotCount < p.slotCount := Nat.mod_lt _ (by omega)
    unfold clockScan
    by_cases hf : (p.owners hand).any (fun old => (p.pages old).pins == 0) = true
    · simp only [hf]
      refine ⟨hnext, ?_, by simp⟩
      intro slot hs
      cases hs
      obtain ⟨old, ho, hp⟩ := (Option.any_eq_true _ _).mp hf
      exact ⟨hh, old, ho, by simpa using hp⟩
    · simp only [hf]
      obtain ⟨hlt, hsome, hnone⟩ := ih _ hnext
      refine ⟨hlt, hsome, ?_⟩
      intro hn j hj old ho
      cases j with
      | zero =>
        rw [Nat.add_zero, Nat.mod_eq_of_lt hh] at ho
        intro hp
        exact hf ((Option.any_eq_true _ _).mpr ⟨old, ho, by simpa using hp⟩)
      | succ j =>
        refine hnone hn j (by omega) old ?_
        rw [Nat.mod_add_mod]
        rwa [Nat.add_assoc, Nat.add_comm 1 j]

theorem turn_covers {hand i k : Nat} (hh : hand < k) (hi : i < k) :
    ∃ j < k, (hand + j) % k = i := by
  refine ⟨(i + k - hand) % k, Nat.mod_lt _ (by omega), ?_⟩
  rw [Nat.add_mod_mod, show hand + (i + k - hand) = i + k by omega, Nat.add_mod_right,
    Nat.mod_eq_of_lt hi]

/-- Choosing a slot moves the hand only, finds a usable slot, and fails just
when every slot's owner is pinned. -/
theorem select_slot {p : SwapPager} (h : Resident p) :
    (∃ hand, (selectSlot p).2 = { p with hand := hand } ∧
      (p.slotCount = 0 ∨ hand < p.slotCount)) ∧
    (∀ slot, (selectSlot p).1 = some slot → Usable p slot) ∧
    ((selectSlot p).1 = none ↔ ∀ i < p.slotCount, OwnerPinned p i) := by
  unfold selectSlot
  cases hf : (List.range p.slotCount).find? (fun i => (p.owners i).isNone) with
  | some i =>
    have hm := mem_range.mp (mem_of_find?_eq_some hf)
    have hn : p.owners i = none := by simpa using List.find?_some hf
    refine ⟨⟨p.hand, rfl, h.hand⟩, ?_, ?_⟩
    · intro slot hs
      cases hs
      refine ⟨hm, ?_⟩
      intro old ho
      rw [hn] at ho
      cases ho
    · constructor
      · intro hc
        cases hc
      · intro ha
        obtain ⟨old, ho, _⟩ := ha i hm
        rw [hn] at ho
        cases ho
  | none =>
    have hall : ∀ i < p.slotCount, ∃ old, p.owners i = some old := by
      intro i hi
      have := List.find?_eq_none.mp hf i (mem_range.mpr hi)
      exact Option.ne_none_iff_exists'.mp (by simpa using this)
    rcases h.hand with h0 | hh
    · refine ⟨⟨p.hand, ?_, Or.inl h0⟩, ?_, ?_⟩
      · simp [h0, clockScan]
      · simp [h0, clockScan]
      · simp [h0, clockScan]
    · obtain ⟨hlt, hsome, hnone⟩ := clock_scan p p.slotCount p.hand hh
      refine ⟨⟨_, rfl, Or.inr hlt⟩, ?_, ?_⟩
      · intro slot hs
        obtain ⟨hl, old, ho, hp⟩ := hsome slot hs
        refine ⟨hl, ?_⟩
        intro old' ho'
        rw [ho] at ho'
        cases ho'
        exact hp
      · constructor
        · intro hn i hi
          obtain ⟨j, hj, he⟩ := turn_covers hh hi
          obtain ⟨old, ho⟩ := hall i hi
          exact ⟨old, ho, hnone hn j hj old (he ▸ ho)⟩
        · intro ha
          cases hs : (clockScan p p.slotCount p.hand).1 with
          | none => rfl
          | some slot =>
            obtain ⟨hl, old, ho, hp⟩ := hsome slot hs
            obtain ⟨old', ho', hp'⟩ := ha slot hl
            rw [ho] at ho'
            cases ho'
            exact absurd hp hp'

/-- What a fault of `page` leaves alone, whether or not it succeeds: the sizes,
the guest's bytes, every pin count and the slots of the other pinned pages. -/
structure Keeps {n : Nat} (page : Nat) (s t : State n) : Prop where
  pageCount : t.pager.pageCount = s.pager.pageCount
  slotCount : t.pager.slotCount = s.pager.slotCount
  last : t.last = s.last
  pins : ∀ q, (t.pager.pages q).pins = (s.pager.pages q).pins
  slots : ∀ q, q ≠ page → (s.pager.pages q).pins ≠ 0 →
    (t.pager.pages q).slot = (s.pager.pages q).slot

theorem Keeps.same {n : Nat} (page : Nat) {s t : State n} (hp : t.pager.pages = s.pager.pages)
    (hc : t.pager.pageCount = s.pager.pageCount) (hs : t.pager.slotCount = s.pager.slotCount)
    (hl : t.last = s.last) : Keeps page s t :=
  ⟨hc, hs, hl, fun _ => by rw [hp], fun _ _ _ => by rw [hp]⟩

theorem Keeps.trans {n page : Nat} {s t u : State n} (h : Keeps page s t) (k : Keeps page t u) :
    Keeps page s u := by
  refine ⟨k.pageCount.trans h.pageCount, k.slotCount.trans h.slotCount, k.last.trans h.last, ?_, ?_⟩
  · intro q
    rw [k.pins, h.pins]
  · intro q hq hp
    rw [k.slots q hq (by rwa [h.pins]), h.slots q hq hp]

/-- Errors a callback reported, as opposed to the pager's own. -/
def FromCallback (r : Result) : Prop := ∀ e, r = .error e → ∃ errno, e = .callback errno

section Faults
variable {n : Nat} (cb : Callbacks n) {s : State n} {kept : Prop}

theorem Inv.setHand (h : Inv kept s) (hand : Nat)
    (hh : s.pager.slotCount = 0 ∨ hand < s.pager.slotCount) :
    Inv kept { s with pager := { s.pager with hand := hand } } := by
  refine ⟨{ h.resident with hand := hh }, ?_⟩
  intro hk hp
  exact { h.holds hk hp with }

/-- Callbacks that leave frames, stored copies and mappings alone keep the
invariant. -/
theorem Inv.setCalls (h : Inv kept s) (calls : Nat) :
    Inv kept { s with ctx := { s.ctx with calls := calls } } :=
  ⟨h.resident, fun hk hp => { h.holds hk hp with }⟩

theorem Inv.setFree (h : Inv kept s) (i : Nat) (hi : s.pager.owners i = none)
    (bytes : Page n) (calls : Nat) :
    Inv kept { s with ctx := { s.ctx with
      ram := update s.ctx.ram i bytes, calls := calls } } := by
  refine ⟨h.resident, fun hk hp => ⟨?_, (h.holds hk hp).away⟩⟩
  intro q j hj
  have hne : j ≠ i := by
    rintro rfl
    rw [h.resident.slot q j hj] at hi
    cases hi
  simp only [update_of_ne hne]
  exact (h.holds hk hp).here q j hj

theorem Resident.evict {p : SwapPager} (h : Resident p) {i old : Nat}
    (ho : p.owners i = some old) (hpin : (p.pages old).pins = 0) (stored : Bool) (writes : Nat) :
    Resident { p with
      pages := update p.pages old { p.pages old with stored, slot := none }
      owners := update p.owners i none
      writes := writes } := by
  obtain ⟨_, _, hslot⟩ := h.owner i old ho
  refine ⟨?_, ?_, ?_, h.hand⟩
  · intro j q hj
    by_cases hji : j = i
    · subst j
      simp at hj
    · simp only [update_of_ne hji] at hj
      obtain ⟨hl, hc, hs⟩ := h.owner j q hj
      have hqo : q ≠ old := by
        rintro rfl
        rw [hslot] at hs
        exact hji (Option.some.inj hs).symm
      exact ⟨hl, hc, by simpa [update_of_ne hqo] using hs⟩
  · intro q j hj
    by_cases hqo : q = old
    · subst q
      simp at hj
    · simp only [update_of_ne hqo] at hj
      have hji : j ≠ i := by
        rintro rfl
        rw [h.slot q j hj] at ho
        exact hqo (Option.some.inj ho)
      simpa [update_of_ne hji] using h.slot q j hj
  · intro q hne
    by_cases hqo : q = old
    · subst q
      simp [hpin] at hne
    · simp only [update_of_ne hqo] at hne ⊢
      exact h.pinned q hne

/-- Emptying a slot that may be emptied succeeds and the slot is free, or fails
and the page is back in it unless the pager is poisoned. -/
theorem evict_owner (h : Inv kept s) (hp : s.pager.poisoned = false) (page i : Nat)
    (hi : ∀ old, s.pager.owners i = some old → (s.pager.pages old).pins = 0) :
    Inv kept (evictOwner cb s i).2 ∧ Keeps page s (evictOwner cb s i).2 ∧
    FromCallback (evictOwner cb s i).1 ∧
    (∀ q, (s.pager.pages q).slot = none → ((evictOwner cb s i).2.pager.pages q).slot = none) ∧
    ((evictOwner cb s i).1 = .ok () →
      (evictOwner cb s i).2.pager.poisoned = false ∧
      (evictOwner cb s i).2.pager.owners i = none) := by
  unfold evictOwner
  cases ho : s.pager.owners i with
  | none => exact ⟨h, Keeps.same page rfl rfl rfl rfl, by simp [FromCallback], by simp, fun _ => ⟨hp, ho⟩⟩
  | some old =>
    have hpin := hi old ho
    obtain ⟨_, _, hslot⟩ := h.resident.owner i old ho
    simp only [Context.unmap]
    cases cb.fails s.ctx.calls with
    | some e => exact ⟨h.setCalls _, Keeps.same page rfl rfl rfl rfl, by simp [FromCallback], by simp, by simp⟩
    | none =>
      simp only [Context.write]
      cases cb.fails (s.ctx.calls + 1) with
      | some e =>
        simp only [Context.map]
        cases cb.fails (s.ctx.calls + 1 + 1) with
        | some e' =>
          refine ⟨⟨?_, ?_⟩, Keeps.same page rfl rfl rfl rfl, by simp [FromCallback], by simp, by simp⟩
          · exact { h.resident with }
          · intro _ hc
            cases hc
        | none =>
          refine ⟨⟨h.resident, fun hk _ => ?_⟩, Keeps.same page rfl rfl rfl rfl,
            by simp [FromCallback], by simp, by simp⟩
          have hback : update (update s.ctx.mapped i none) i (some old) =
              s.ctx.mapped := by
            rw [update_idem, ← ((h.holds hk hp).here old i hslot).1,
              update_eq_self]
          simp only [hback]
          exact { h.holds hk hp with }
      | none =>
        refine ⟨⟨h.resident.evict ho hpin true _, fun hk _ => ⟨?_, ?_⟩⟩, ⟨rfl, rfl, rfl, ?_, ?_⟩,
          by simp [FromCallback], ?_, fun _ => ⟨hp, by simp⟩⟩
        · intro q j hj
          by_cases hqo : q = old
          · subst q
            simp at hj
          · simp only [update_of_ne hqo] at hj
            have hji : j ≠ i := by
              rintro rfl
              rw [h.resident.slot q j hj] at ho
              exact hqo (Option.some.inj ho)
            simp only [update_of_ne hji]
            exact (h.holds hk hp).here q j hj
        · intro q hn
          by_cases hqo : q = old
          · subst q
            simp [((h.holds hk hp).here old i hslot).2]
          · simp only [update_of_ne hqo] at hn ⊢
            exact (h.holds hk hp).away q hn
        · intro q
          by_cases hqo : q = old
          · subst q
            simp
          · simp [update_of_ne hqo]
        · intro q _ hne
          have hqo : q ≠ old := by
            rintro rfl
            exact hne hpin
          simp [update_of_ne hqo]
        · intro q hn
          by_cases hqo : q = old
          · subst q
            simp
          · simpa [update_of_ne hqo] using hn

theorem fill_slot (h : Inv kept s) (hp : s.pager.poisoned = false) (page i : Nat)
    (hn : (s.pager.pages page).slot = none) (hi : s.pager.owners i = none) :
    Inv kept (fillSlot cb s page i).2 ∧ Keeps page s (fillSlot cb s page i).2 ∧
    FromCallback (fillSlot cb s page i).1 ∧
    (fillSlot cb s page i).2.pager.pages = s.pager.pages ∧
    (fillSlot cb s page i).2.pager.owners = s.pager.owners ∧
    (fillSlot cb s page i).2.pager.poisoned = false ∧
    (kept → (fillSlot cb s page i).1 = .ok () →
      (fillSlot cb s page i).2.ctx.ram i = s.last page) := by
  have haway := fun hk => (h.holds hk hp).away page hn
  unfold fillSlot
  by_cases hs : (s.pager.pages page).stored = true
  · simp only [hs, if_true] at haway ⊢
    simp only [Context.read]
    cases cb.fails s.ctx.calls with
    | some e =>
      exact ⟨h.setFree i hi _ _, Keeps.same page rfl rfl rfl rfl, by simp [FromCallback], rfl, rfl, hp, by simp⟩
    | none =>
      have hf := h.setFree i hi (s.ctx.disk page) (s.ctx.calls + 1)
      refine ⟨⟨?_, ?_⟩, Keeps.same page rfl rfl rfl rfl, by simp [FromCallback], rfl, rfl, hp,
        fun hk _ => by simp [haway hk]⟩
      · exact { hf.resident with }
      · intro hk hc
        exact { hf.holds hk hc with }
  · simp only [hs, Bool.false_eq_true, if_false] at haway ⊢
    exact ⟨h.setFree i hi _ _, Keeps.same page rfl rfl rfl rfl, by simp [FromCallback],
      trivial, trivial, hp, fun hk _ => by simp [Context.zero, haway hk]⟩

theorem Resident.place {p : SwapPager} (h : Resident p) {page i : Nat}
    (hpage : page < p.pageCount) (hlt : i < p.slotCount)
    (hn : (p.pages page).slot = none) (hi : p.owners i = none) (faults : Nat) :
    Resident { p with
      owners := update p.owners i (some page)
      pages := update p.pages page { p.pages page with slot := some i }
      faults := faults } := by
  refine ⟨?_, ?_, ?_, h.hand⟩
  · intro j q hj
    by_cases hji : j = i
    · subst j
      simp only [update_self, Option.some.injEq] at hj
      subst q
      exact ⟨hlt, hpage, by simp⟩
    · simp only [update_of_ne hji] at hj
      obtain ⟨hl, hc, hs⟩ := h.owner j q hj
      have hqp : q ≠ page := by
        rintro rfl
        rw [hn] at hs
        cases hs
      exact ⟨hl, hc, by simpa [update_of_ne hqp] using hs⟩
  · intro q j hj
    by_cases hqp : q = page
    · subst q
      simp only [update_self, Option.some.injEq] at hj
      subst j
      simp
    · simp only [update_of_ne hqp] at hj
      have hji : j ≠ i := by
        rintro rfl
        rw [h.slot q j hj] at hi
        cases hi
      simpa [update_of_ne hji] using h.slot q j hj
  · intro q hne
    by_cases hqp : q = page
    · subst q
      simp
    · simp only [update_of_ne hqp] at hne ⊢
      exact h.pinned q hne

theorem map_slot (h : Inv kept s) (hp : s.pager.poisoned = false) (page i : Nat)
    (hpage : page < s.pager.pageCount) (hlt : i < s.pager.slotCount)
    (hn : (s.pager.pages page).slot = none) (hi : s.pager.owners i = none)
    (hram : kept → s.ctx.ram i = s.last page) :
    Inv kept (mapSlot cb s page i).2 ∧ Keeps page s (mapSlot cb s page i).2 ∧
    FromCallback (mapSlot cb s page i).1 ∧
    (mapSlot cb s page i).2.pager.poisoned = false ∧
    ((mapSlot cb s page i).1 = .ok () →
      ((mapSlot cb s page i).2.pager.pages page).slot = some i) := by
  unfold mapSlot
  simp only [Context.map]
  cases cb.fails s.ctx.calls with
  | some e => exact ⟨h.setCalls _, Keeps.same page rfl rfl rfl rfl, by simp [FromCallback], hp, by simp⟩
  | none =>
    refine ⟨⟨h.resident.place hpage hlt hn hi _, fun hk _ => ⟨?_, ?_⟩⟩, ⟨rfl, rfl, rfl, ?_, ?_⟩,
      by simp [FromCallback], hp, by simp⟩
    · intro q j hj
      by_cases hqp : q = page
      · subst q
        simp only [update_self, Option.some.injEq] at hj
        subst j
        exact ⟨by simp, hram hk⟩
      · simp only [update_of_ne hqp] at hj
        have hji : j ≠ i := by
          rintro rfl
          rw [h.resident.slot q j hj] at hi
          cases hi
        simp only [update_of_ne hji]
        exact (h.holds hk hp).here q j hj
    · intro q hq
      by_cases hqp : q = page
      · subst q
        simp at hq
      · simp only [update_of_ne hqp] at hq ⊢
        exact (h.holds hk hp).away q hq
    · intro q
      by_cases hqp : q = page
      · subst q
        simp
      · simp [update_of_ne hqp]
    · intro q hqp _
      simp [update_of_ne hqp]

/-- What a fault does on an open pager. The error `busy` is the pager's own
and comes before any callback, just when every slot's owner is pinned. -/
theorem fault_spec (h : Inv kept s) (page : Nat) :
    Inv kept (swapPagerFault cb s page).2 ∧ Keeps page s (swapPagerFault cb s page).2 ∧
    (s.pager.poisoned = true → (swapPagerFault cb s page).1 ≠ .ok ()) ∧
    ((swapPagerFault cb s page).1 = .ok () →
      page < s.pager.pageCount ∧
      (swapPagerFault cb s page).2.pager.poisoned = false ∧
      ((swapPagerFault cb s page).2.pager.pages page).slot.isSome) ∧
    (s.pager.poisoned = false → page < s.pager.pageCount → (s.pager.pages page).slot = none →
      ((swapPagerFault cb s page).1 = .error .busy ↔
        ∀ i < s.pager.slotCount, OwnerPinned s.pager i)) := by
  unfold swapPagerFault
  by_cases hpage : page ≥ s.pager.pageCount
  · simp only [hpage]
    refine ⟨h, Keeps.same page rfl rfl rfl rfl, by simp, by simp, ?_⟩
    intro _ hlt
    omega
  have hpage' : page < s.pager.pageCount := by omega
  cases hp : s.pager.poisoned with
  | true =>
    simp only [hpage]
    exact ⟨h, Keeps.same page rfl rfl rfl rfl, by simp, by simp, by simp⟩
  | false =>
    cases hn : (s.pager.pages page).slot with
    | some i =>
      simp only [hpage]
      exact ⟨h, Keeps.same page rfl rfl rfl rfl, by simp, fun _ => ⟨hpage', hp, by simp [hn]⟩, by simp⟩
    | none =>
      simp only [hpage]
      obtain ⟨⟨hand, hsel, hlt⟩, husable, hbusy⟩ := select_slot h.resident
      rw [← Prod.eta (selectSlot s.pager), hsel]
      cases hsl : (selectSlot s.pager).1 with
      | none =>
        exact ⟨h.setHand hand hlt, Keeps.same page rfl rfl rfl rfl, by simp, by simp,
          fun _ _ _ => by simpa using hbusy.mp hsl⟩
      | some i =>
        dsimp only
        obtain ⟨hil, hiu⟩ := husable i hsl
        have hnb : ¬ ∀ i < s.pager.slotCount, OwnerPinned s.pager i := by
          rw [← hbusy, hsl]
          simp
        -- the state is `s` with the hand moved, then `s2`, `s3` after the first two stages
        obtain ⟨h2, k2, e2, n2, o2⟩ := evict_owner cb (h.setHand hand hlt) hp page i hiu
        generalize evictOwner cb _ i = r2 at *
        obtain ⟨r2, s2⟩ := r2
        have k12 : Keeps page s s2 := { k2 with }
        cases r2 with
        | error e =>
          obtain ⟨errno, rfl⟩ := e2 e rfl
          exact ⟨h2, k12, by simp, by simp, fun _ _ _ => by simpa using hnb⟩
        | ok _ =>
          obtain ⟨hp2, hi2⟩ := o2 rfl
          have hn2 := n2 page hn
          obtain ⟨h3, k3, e3, hpages, howners, hp3, hram⟩ := fill_slot cb h2 hp2 page i hn2 hi2
          dsimp only at *
          generalize fillSlot cb s2 page i = r3 at *
          obtain ⟨r3, s3⟩ := r3
          cases r3 with
          | error e =>
            obtain ⟨errno, rfl⟩ := e3 e rfl
            exact ⟨h3, k12.trans k3, by simp, by simp, fun _ _ _ => by simpa using hnb⟩
          | ok _ =>
            have k13 := k12.trans k3
            obtain ⟨h4, k4, e4, hp4, hs4⟩ := map_slot cb h3 hp3 page i
              (by rw [k13.pageCount]; exact hpage') (by rw [k13.slotCount]; exact hil)
              (by rw [hpages]; exact hn2) (by rw [howners]; exact hi2)
              (fun hk => by rw [hram hk rfl, k3.last])
            refine ⟨h4, k13.trans k4, by simp, ?_, ?_⟩
            · intro hok
              exact ⟨hpage', hp4, by simp [hs4 hok]⟩
            · intro _ _ _
              constructor
              · intro hb
                obtain ⟨errno, he⟩ := e4 _ hb
                cases he
              · intro hc
                exact absurd hc hnb

@[simp] theorem set_pins_slot (page pins q : Nat) :
    ((setPins s page pins).pager.pages q).slot = (s.pager.pages q).slot := by
  by_cases hq : q = page
  · subst q
    simp [setPins]
  · simp [setPins, update_of_ne hq]

@[simp] theorem set_pins_stored (page pins q : Nat) :
    ((setPins s page pins).pager.pages q).stored = (s.pager.pages q).stored := by
  by_cases hq : q = page
  · subst q
    simp [setPins]
  · simp [setPins, update_of_ne hq]

theorem set_pins_inv (h : Inv kept s) (page pins : Nat)
    (hs : pins ≠ 0 → (s.pager.pages page).slot.isSome) : Inv kept (setPins s page pins) := by
  refine ⟨⟨?_, ?_, ?_, h.resident.hand⟩, fun hk hp => ⟨?_, ?_⟩⟩
  · intro i q hq
    rw [set_pins_slot]
    exact h.resident.owner i q hq
  · intro q i hq
    rw [set_pins_slot] at hq
    exact h.resident.slot q i hq
  · intro q hne
    rw [set_pins_slot]
    by_cases hq : q = page
    · subst q
      exact hs (by simpa [setPins] using hne)
    · exact h.resident.pinned q (by simpa [setPins, update_of_ne hq] using hne)
  · intro q i hq
    rw [set_pins_slot] at hq
    exact (h.holds hk hp).here q i hq
  · intro q hq
    rw [set_pins_slot] at hq
    rw [set_pins_stored]
    exact (h.holds hk hp).away q hq

theorem pin_inv (h : Inv kept s) (page : Nat) : Inv kept (swapPagerPin cb s page).2 := by
  unfold swapPagerPin
  split
  · exact h
  · obtain ⟨hf, _, _, hok, _⟩ := fault_spec cb h page
    generalize swapPagerFault cb s page = r at *
    obtain ⟨r, t⟩ := r
    cases r with
    | error e => exact hf
    | ok _ => exact set_pins_inv hf page _ (fun _ => (hok rfl).2.2)

theorem unpin_inv (h : Inv kept s) (page : Nat) : Inv kept (swapPagerUnpin s page).2 := by
  unfold swapPagerUnpin
  split
  · exact h
  · exact set_pins_inv h page _ (fun _ => h.resident.pinned page (by omega))

theorem write_inv (h : Inv kept s) (page : Nat) (off : Fin n) (byte : UInt8) :
    Inv kept (guestWrite s page off byte) := by
  unfold guestWrite
  cases hs : (s.pager.pages page).slot with
  | none => exact h
  | some i =>
    dsimp only
    split
    · refine ⟨h.resident, fun hk hp => ⟨?_, ?_⟩⟩
      · intro q j hj
        obtain ⟨hm, hr⟩ := (h.holds hk hp).here q j hj
        refine ⟨hm, ?_⟩
        by_cases hq : q = page
        · subst q
          have hji : j = i := by
            rw [hs] at hj
            exact (Option.some.inj hj).symm
          subst j
          simp [hr]
        · have hji : j ≠ i := by
            rintro rfl
            have ho := h.resident.slot page j hs
            rw [h.resident.slot q j hj] at ho
            exact hq (Option.some.inj ho)
          simp only [update_of_ne hji, update_of_ne hq]
          exact hr
      · intro q hn
        have hq : q ≠ page := by
          rintro rfl
          rw [hs] at hn
          cases hn
        simp only [update_of_ne hq]
        exact (h.holds hk hp).away q hn
    · exact h

theorem step_inv (h : Inv kept s) (o : Op n) : Inv kept (step cb s o) := by
  cases o with
  | fault page => exact (fault_spec cb h page).1
  | pin page => exact pin_inv cb h page
  | unpin page => exact unpin_inv h page
  | write page off byte => exact write_inv h page off byte

theorem close_slot_resident (h : Resident s.pager)
    (hpins : ∀ q < s.pager.pageCount, (s.pager.pages q).pins = 0) (failed : Bool) (i : Nat) :
    Resident (closeSlot cb (failed, s) i).2.pager ∧
    (closeSlot cb (failed, s) i).2.pager.pageCount = s.pager.pageCount ∧
    (∀ q, ((closeSlot cb (failed, s) i).2.pager.pages q).pins = (s.pager.pages q).pins) := by
  unfold closeSlot
  dsimp only
  cases ho : s.pager.owners i with
  | none => exact ⟨h, rfl, fun _ => rfl⟩
  | some page =>
    obtain ⟨_, hc, hslot⟩ := h.owner i page ho
    simp only [Context.unmap]
    cases cb.fails s.ctx.calls with
    | some e => exact ⟨h, rfl, fun _ => rfl⟩
    | none =>
      refine ⟨h.evict ho (hpins page hc) (s.pager.pages page).stored s.pager.writes, rfl, fun q => ?_⟩
      by_cases hq : q = page
      · subst q
        simp
      · simp [update_of_ne hq]

theorem close_loop_resident (is : List Nat) (failed : Bool) (h : Resident s.pager)
    (hpins : ∀ q < s.pager.pageCount, (s.pager.pages q).pins = 0) :
    Resident (is.foldl (closeSlot cb) (failed, s)).2.pager := by
  induction is generalizing failed s with
  | nil => exact h
  | cons i is ih =>
    obtain ⟨hr, hc, hq⟩ := close_slot_resident cb h hpins failed i
    generalize hcs : closeSlot cb (failed, s) i = r at *
    obtain ⟨failed', t⟩ := r
    rw [foldl_cons, hcs]
    refine ih failed' hr ?_
    intro q hlt
    rw [hq]
    exact hpins q (hc ▸ hlt)

theorem close_resident (h : Resident s.pager) : Resident (swapPagerClose cb s).2.pager := by
  unfold swapPagerClose
  split
  · exact h
  · rename_i hany
    have hpins : ∀ q < s.pager.pageCount, (s.pager.pages q).pins = 0 := by
      intro q hq
      by_contra hne
      exact hany (any_eq_true.mpr ⟨q, mem_range.mpr hq, by simpa using hne⟩)
    have hl := close_loop_resident cb (List.range s.pager.slotCount) s.pager.poisoned h hpins
    generalize (List.range s.pager.slotCount).foldl (closeSlot cb) (s.pager.poisoned, s) = r at *
    obtain ⟨failed, t⟩ := r
    cases failed with
    | true => exact hl
    | false => exact ⟨by simp [closedPager], by simp [closedPager], by simp [closedPager], Or.inl rfl⟩

theorem call_resident (h : Resident s.pager) (c : Call n) : Resident (callStep cb s c).pager := by
  cases c with
  | op o => exact (step_inv cb (show Inv False s from ⟨h, fun hk => hk.elim⟩) o).resident
  | close => exact close_resident cb h

theorem poisoned_refuses (hp : s.pager.poisoned = true) (page : Nat) :
    (∃ e, swapPagerFault cb s page = (.error e, s)) ∧
    ∃ e, swapPagerPin cb s page = (.error e, s) := by
  have hf : ∃ e, swapPagerFault cb s page = (.error e, s) := by
    unfold swapPagerFault
    split
    · exact ⟨_, rfl⟩
    · exact ⟨.io, rfl⟩
  refine ⟨hf, ?_⟩
  obtain ⟨e, he⟩ := hf
  unfold swapPagerPin
  split
  · exact ⟨_, rfl⟩
  · exact ⟨e, by rw [he]⟩

theorem poisoned_step (hp : s.pager.poisoned = true) (o : Op n) :
    (step cb s o).pager.poisoned = true := by
  cases o with
  | fault page =>
    obtain ⟨⟨e, he⟩, _⟩ := poisoned_refuses cb hp page
    simp [step, he, hp]
  | pin page =>
    obtain ⟨_, e, he⟩ := poisoned_refuses cb hp page
    simp [step, he, hp]
  | unpin page =>
    simp only [step, swapPagerUnpin]
    split
    · exact hp
    · exact hp
  | write page off byte =>
    simp only [step, guestWrite]
    split
    · exact hp
    · split
      · exact hp
      · exact hp

end Faults

theorem start_inv {n : Nat} (h : swapPagerInit pages slots = some p) (ram disk : Nat → Page n)
    (kept : Prop) : Inv kept (start p ram disk) := by
  have hr := init_resident h
  refine ⟨hr, fun _ _ => ⟨?_, ?_⟩⟩
  · intro q i hq
    unfold swapPagerInit at h
    split at h
    · cases h
    · cases h
      cases hq
  · intro q _
    unfold swapPagerInit at h
    split at h
    · cases h
    · cases h
      rfl

/-- A page brought in by a successful fault is mapped in its slot and holds
just what the guest last left there, after any run of calls, stores and
callback failures; a poisoned pager never brings one in again. -/
theorem swap_pager_transparent {n : Nat} (cb : Callbacks n) (pages slots : Nat) (p : SwapPager)
    (hinit : swapPagerInit pages slots = some p) (ram disk : Nat → Page n) (ops : List (Op n)) :
    (∀ page t, swapPagerFault cb (run (step cb) (start p ram disk) ops) page = (.ok (), t) →
      ∃ i, (t.pager.pages page).slot = some i ∧ t.ctx.mapped i = some page ∧
        t.ctx.ram i = t.last page ∧
        t.last page = (run (step cb) (start p ram disk) ops).last page) ∧
    ((run (step cb) (start p ram disk) ops).pager.poisoned = true → ∀ more page,
      (∃ e, (swapPagerFault cb (run (step cb) (start p ram disk) (ops ++ more)) page).1 = .error e) ∧
      ∃ e, (swapPagerPin cb (run (step cb) (start p ram disk) (ops ++ more)) page).1 = .error e) := by
  refine ⟨?_, ?_⟩
  · intro page t ht
    have hinv : Inv True (run (step cb) (start p ram disk) ops) :=
      run_invariant (P := fun s : State n => Inv True s) (fun _ o h => step_inv cb h o)
        (start_inv hinit ram disk True) ops
    obtain ⟨hi, hk, _, hok, _⟩ := fault_spec cb hinv page
    rw [ht] at hi hk hok
    obtain ⟨_, hp, hs⟩ := hok rfl
    obtain ⟨i, hslot⟩ := Option.isSome_iff_exists.mp hs
    obtain ⟨hm, hr⟩ := (hi.holds trivial hp).here page i hslot
    exact ⟨i, hslot, hm, hr, by rw [hk.last]⟩
  · intro hp more page
    have hq : (run (step cb) (start p ram disk) (ops ++ more)).pager.poisoned = true := by
      rw [run_append]
      exact run_invariant (P := fun s : State n => s.pager.poisoned = true)
        (fun _ o h => poisoned_step cb h o) hp more
    obtain ⟨⟨e, he⟩, e', he'⟩ := poisoned_refuses cb hq page
    exact ⟨⟨e, by rw [he]⟩, e', by rw [he']⟩

/-- Callbacks of which the eighth call alone fails. -/
def eighthFails : Callbacks 1 where
  fails k := if k = 7 then some 5 else none
  junk _ := fun _ => 255

def twoPages : SwapPager where
  pages := fun _ => ⟨none, 0, false⟩
  owners := fun _ => none
  pageCount := 2
  slotCount := 1
  hand := 0
  faults := 0
  reads := 0
  writes := 0
  poisoned := false

/-- A byte written to page 0 comes back after page 1 has taken the slot, though
the first attempt to map it again failed. -/
theorem swap_pager_transparent_refault :
    ∃ t i, swapPagerFault eighthFails (run (step eighthFails)
        (start twoPages (fun _ _ => 1) (fun _ _ => 2))
        [.fault 0, .write 0 0 7, .pin 1, .unpin 1, .fault 0]) 0 = (.ok (), t) ∧
      (t.pager.pages 0).slot = some i ∧ t.ctx.ram i 0 = 7 := by
  have h := (swap_pager_transparent eighthFails 2 1 twoPages rfl (fun _ _ => 1) (fun _ _ => 2)
    [.fault 0, .write 0 0 7, .pin 1, .unpin 1, .fault 0]).1 0 _ (Prod.ext rfl rfl)
  obtain ⟨i, hs, _, hr, hl⟩ := h
  refine ⟨_, i, Prod.ext rfl rfl, hs, ?_⟩
  rw [hr, hl]
  rfl

/-- In every state a pager reaches the two tables are inverse, pinned pages are
resident, no fault moves another pinned page, and a fault is refused as busy
just when every slot's owner is pinned; otherwise the slot it takes is free or
its owner is not pinned. -/
theorem swap_pager_residency {n : Nat} (cb : Callbacks n) (pages slots : Nat) (p : SwapPager)
    (hinit : swapPagerInit pages slots = some p) (ram disk : Nat → Page n) (calls : List (Call n))
    (s : State n) (hs : s = run (callStep cb) (start p ram disk) calls)
    (hp : s.pager.poisoned = false) :
    (∀ i < s.pager.slotCount, ∀ q < s.pager.pageCount,
      s.pager.owners i = some q ↔ (s.pager.pages q).slot = some i) ∧
    (∀ q < s.pager.pageCount, 0 < (s.pager.pages q).pins → (s.pager.pages q).slot.isSome) ∧
    (∀ page q, q ≠ page → 0 < (s.pager.pages q).pins →
      ((swapPagerFault cb s page).2.pager.pages q).slot = (s.pager.pages q).slot) ∧
    (∀ page < s.pager.pageCount, (s.pager.pages page).slot = none →
      ((swapPagerFault cb s page).1 = .error .busy ↔
        ∀ i < s.pager.slotCount, OwnerPinned s.pager i)) ∧
    ((¬ ∀ i < s.pager.slotCount, OwnerPinned s.pager i) →
      ∃ i, (selectSlot s.pager).1 = some i ∧ Usable s.pager i) := by
  have hr : Resident s.pager := by
    rw [hs]
    exact run_invariant (P := fun s : State n => Resident s.pager) (fun _ c h => call_resident cb h c)
      (start_inv hinit ram disk False).resident calls
  have hinv : Inv False s := ⟨hr, fun hk => hk.elim⟩
  obtain ⟨_, husable, hbusy⟩ := select_slot hr
  refine ⟨?_, ?_, ?_, ?_, ?_⟩
  · intro i _ q _
    exact ⟨fun h => (hr.owner i q h).2.2, hr.slot q i⟩
  · intro q _ hq
    exact hr.pinned q (by omega)
  · intro page q hne hq
    exact (fault_spec cb hinv page).2.1.slots q hne (by omega)
  · intro page hpage hn
    exact (fault_spec cb hinv page).2.2.2.2 hp hpage hn
  · intro hnot
    obtain ⟨i, hi⟩ := Option.ne_none_iff_exists'.mp (fun hn => hnot (hbusy.mp hn))
    exact ⟨i, hi, husable i hi⟩

/-- With its one slot pinned, the pager refuses the other page as busy. -/
theorem swap_pager_residency_busy :
    (swapPagerFault eighthFails (run (callStep eighthFails)
      (start twoPages (fun _ _ => 1) (fun _ _ => 2)) [.op (.pin 0)]) 1).1 = .error .busy := by
  refine ((swap_pager_residency eighthFails 2 1 twoPages rfl (fun _ _ => 1) (fun _ _ => 2)
    [.op (.pin 0)] _ rfl rfl).2.2.2.1 1 (by decide) rfl).mpr ?_
  intro i hi
  obtain rfl : i = 0 := Nat.lt_one_iff.mp hi
  exact ⟨0, rfl, by decide⟩

end Autorun.Swap.Pager
