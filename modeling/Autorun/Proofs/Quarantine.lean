import Mathlib.Data.List.Forall2
import Autorun.Heap.Quarantine
import Autorun.Proofs.Dynarec

namespace Autorun.Heap.Dynarec.Quarantine

open Autorun.Lib List

/-- As the loop meets the entries, none was freed after the time `now`; behind one that is too young it does not
look. -/
def Orderly (now wait : Nat) : List Entry → Prop
  | [] => True
  | e :: rest => e.stamp ≤ now ∧ (now - e.stamp < wait ∨ Orderly now wait rest)

theorem Orderly.append {now wait : Nat} {es : List Entry} (h : Orderly now wait es) {e : Entry}
    (he : e.stamp ≤ now) : Orderly now wait (es ++ [e]) := by
  induction es with
  | nil => exact ⟨he, .inr trivial⟩
  | cons x rest ih => exact ⟨h.1, h.2.imp id ih⟩

/-- The time `now` of a release was read after the chunks that it comes upon were freed. -/
def Timely (cfg : Config) (w : World) : Label → Prop
  | .release thread _ => Orderly (w.now thread) cfg.quarantineNs w.code.quarantine.contents
  | _ => True

structure World.Inv (cfg : Config) (w : World) : Prop where
  fits : Fits w.code.quarantine
  /-- a stamp is not older than the free -/
  since : List.Forall₂ (fun (e : Entry) t => t ≤ e.stamp) w.code.quarantine.contents w.freed
  small : w.clock < 2 ^ 64
  now : ∀ thread, w.now thread ≤ w.clock
  waited : ∀ r ∈ w.returned, r.freed + cfg.quarantineNs ≤ r.clock ∧ r.inUsed = 0

variable {cfg : Config} {w : World} {now : Nat}

theorem quarantinePush_memory (q : RingQueue Entry) (e : Entry) : ∃ q', quarantinePush q e true = some q' := by
  unfold quarantinePush
  split
  · exact ⟨_, rfl⟩
  · exact ⟨_, rfl⟩

/-- The oldest entry goes to the end with the stamp `now` if a thread is inside the block, and away if not. -/
theorem releaseQuarantine_turn {c : Code} {e : Entry} (hq : Fits c.quarantine)
    (he : quarantineOldest c.quarantine = some e) (hover : ¬ sub64 now e.stamp < cfg.quarantineNs) (busy : Bool) :
    ∃ rest, c.quarantine.contents = e :: rest ∧
      Fits (releaseQuarantine cfg now c [(busy, true)]).quarantine ∧
      (releaseQuarantine cfg now c [(busy, true)]).quarantine.contents =
        rest ++ if busy then [{ e with stamp := now }] else [] := by
  obtain ⟨rest, hcontents, hdrop, hfits⟩ := quarantine_oldest hq he
  refine ⟨rest, hcontents, ?_⟩
  rw [releaseQuarantine, he]
  dsimp only
  rw [if_neg hover]
  cases busy with
  | true =>
    obtain ⟨q, hpush⟩ := quarantinePush_memory c.quarantine.drop { e with stamp := now }
    obtain ⟨hfits', hcontents'⟩ := quarantine_push hfits hpush
    rw [if_pos rfl, hpush]
    rw [hdrop] at hcontents'
    exact ⟨hfits', hcontents'⟩
  | false =>
    rw [if_neg Bool.false_ne_true]
    dsimp only [releaseQuarantine, Code.setChunks]
    rw [hdrop]
    exact ⟨hfits, (append_nil rest).symm⟩

theorem turn_inv (h : w.Inv cfg) (hnow : now ≤ w.clock)
    (horder : Orderly now cfg.quarantineNs w.code.quarantine.contents) :
    (turn cfg now w).Inv cfg ∧ (turn cfg now w).clock = w.clock ∧
      Orderly now cfg.quarantineNs (turn cfg now w).code.quarantine.contents := by
  unfold turn
  cases he : quarantineOldest w.code.quarantine with
  | none => exact ⟨h, rfl, horder⟩
  | some e =>
    dsimp only
    split
    · exact ⟨h, rfl, horder⟩
    case isFalse hover =>
    obtain ⟨rest, hcontents, hfits, hrest⟩ :=
      releaseQuarantine_turn h.fits he hover (decide (w.inUsed (e.arena, e.payload) ≠ 0))
    have hsince := h.since
    rw [hcontents] at hsince horder
    obtain ⟨t, ts, ht, hts, hfreed⟩ := forall₂_cons_left_iff.mp hsince
    -- the entry is not younger than `now`, so its age is what it seems
    have hlt : now < 2 ^ 64 := Nat.lt_of_le_of_lt hnow h.small
    rw [sub64_eq horder.1 hlt] at hover
    have hyoung : Orderly now cfg.quarantineNs rest := horder.2.resolve_left hover
    split
    case isTrue hused =>
      rw [if_pos (decide_eq_true hused)] at hrest
      refine ⟨⟨hfits, ?_, h.small, h.now, h.waited⟩, rfl, ?_⟩
      · rw [hrest, hfreed]
        exact rel_append hts (.cons (Nat.le_trans ht horder.1) .nil)
      · rw [hrest]
        exact hyoung.append (Nat.le_refl now)
    case isFalse hused =>
      rw [if_neg fun hbusy => hused (of_decide_eq_true hbusy), append_nil] at hrest
      refine ⟨⟨hfits, ?_, h.small, h.now, fun r hr => ?_⟩, rfl, ?_⟩
      · rw [hrest, hfreed]
        exact hts
      · rcases mem_cons.mp hr with rfl | hr
        · refine ⟨?_, not_not.mp hused⟩
          dsimp only
          rw [hfreed, headD_cons]
          have := horder.1
          omega
        · exact h.waited r hr
      · rw [hrest]
        exact hyoung

theorem release_inv (turns : Nat) (h : w.Inv cfg) (hnow : now ≤ w.clock)
    (horder : Orderly now cfg.quarantineNs w.code.quarantine.contents) : (release cfg now turns w).Inv cfg := by
  induction turns generalizing w with
  | zero => exact h
  | succ turns ih =>
    obtain ⟨hinv, hclock, horder'⟩ := turn_inv h hnow horder
    exact ih hinv (hclock ▸ hnow) horder'

theorem allocDynarecMap_quarantine (cfg : Config) (c : Code) (size : Nat) (created : Option Created) :
    (allocDynarecMap cfg c size created).2.quarantine = c.quarantine := by
  unfold allocDynarecMap
  dsimp only
  split
  · rfl
  split
  · rfl
  split
  · rfl
  split <;> rfl

theorem freeDynarecMap_quarantine {c : Code} (hq : Fits c.quarantine) (addr now : Nat) :
    (freeDynarecMap c addr now true).quarantine = c.quarantine ∨
      ∃ e, e.stamp = now ∧ Fits (freeDynarecMap c addr now true).quarantine ∧
        (freeDynarecMap c addr now true).quarantine.contents = c.quarantine.contents ++ [e] := by
  unfold freeDynarecMap
  split
  · exact .inl rfl
  split
  · exact .inl rfl
  case h_2 i offset hfind =>
    split
    · exact .inl rfl
    dsimp only
    obtain ⟨q, hpush⟩ := quarantinePush_memory c.quarantine ⟨i, offset, now⟩
    rw [hpush]
    obtain ⟨hfits, hcontents⟩ := quarantine_push hq hpush
    exact .inr ⟨_, rfl, hfits, hcontents⟩

theorem World.Inv.free (h : w.Inv cfg) (addr : Nat) : (Quarantine.step cfg w (.free addr)).Inv cfg := by
  rw [Quarantine.step]
  rcases freeDynarecMap_quarantine h.fits addr w.clock with hsame | ⟨e, hstamp, hfits, hcontents⟩
  · refine ⟨hsame ▸ h.fits, ?_, h.small, h.now, h.waited⟩
    rw [hsame, if_neg fun hne => hne rfl]
    exact h.since
  · have hcount : (freeDynarecMap w.code addr w.clock true).quarantine.count ≠ w.code.quarantine.count := by
      rw [← RingQueue.contents_length, ← RingQueue.contents_length, hcontents, length_append]
      exact Nat.succ_ne_self _
    refine ⟨hfits, ?_, h.small, h.now, h.waited⟩
    rw [if_pos hcount, hcontents]
    exact rel_append h.since (.cons (Nat.le_of_eq hstamp.symm) .nil)

theorem step_inv (cfg : Config) (w : World) (label : Label) (htimely : Timely cfg w label) (h : w.Inv cfg) :
    (step cfg w label).Inv cfg := by
  cases label with
  | tick time =>
    rw [step]
    split
    case isTrue htime =>
      exact { h with small := htime.2, now := fun thread => Nat.le_trans (h.now thread) htime.1 }
    case isFalse => exact h
  | read thread =>
    refine { h with now := fun other => ?_ }
    rw [step]
    dsimp only
    by_cases hother : other = thread
    · rw [hother, Function.update_self]
    · rw [Function.update_of_ne hother]
      exact h.now other
  | release thread turns => exact release_inv turns h (h.now thread) htimely
  | take size created =>
    rw [step]
    split
    · exact h
    · have hsame := allocDynarecMap_quarantine cfg w.code size created
      refine ⟨hsame ▸ h.fits, ?_, h.small, h.now, h.waited⟩
      rw [hsame]
      exact h.since
  | free addr => exact h.free addr
  | enter chunk => exact { h with }
  | leave chunk => exact { h with }

/-- A block is freed and waits for two seconds. -/
def waitedRun : List Label :=
  [.take 100 (some someMemory), .free 0x20000010, .tick 2000000000, .read 0, .release 0 1]

/-- The time is read, then a block is freed as by a purge, and then the quarantine is released with that time. -/
def purgedRun : List Label :=
  [.take 100 (some someMemory), .tick 5, .read 0, .tick 6, .free 0x20000010, .release 0 1]

end Autorun.Heap.Dynarec.Quarantine
