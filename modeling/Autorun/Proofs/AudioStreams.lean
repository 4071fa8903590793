import Autorun.Audio.Driver
import Autorun.Lib.RingQueue
import Autorun.Lib.Run
import Mathlib.Data.Fintype.Basic
import Mathlib.Data.List.Basic
import Mathlib.Tactic.FinCases

namespace Autorun.Audio
open Lib Function List

theorem u32_eq {n : Nat} (h : n < 4294967296) : u32 n = n := Nat.mod_eq_of_lt h

theorem sub32_eq {a b : Nat} (hb : b ≤ a) (ha : a < 4294967296) : sub32 a b = a - b := by
  unfold sub32 u32
  omega

/-- The sum of a stream's `frames`. -/
def total (frames : Fin 4 → Nat) : Nat :=
  frames ⟨0, by decide⟩ + frames ⟨1, by decide⟩ + frames ⟨2, by decide⟩ + frames ⟨3, by decide⟩

theorem total_update (frames : Fin 4 → Nat) (i : Fin 4) (n : Nat) :
    total (update frames i n) + frames i = total frames + n := by
  unfold total
  fin_cases i <;> simp <;> omega

theorem frames_le_total (frames : Fin 4 → Nat) (i : Fin 4) : frames i ≤ total frames := by
  have := total_update frames i 0
  omega

/-- The ring of a stream as the queue it is. -/
def Stream.queue (s : Stream) : RingQueue Frame := ⟨s.ring, s.read, s.held, s.capacity⟩

/-- The frames stored since the last reset. -/
def Trace.since (t : Trace) : List Frame := t.written.drop t.base

/-- The counts of a stream, with those of the buffers at audout. -/
structure Stream.Counted (s : Stream) (output : Fin 4 → Nat) : Prop where
  least : 3840 ≤ s.capacity
  most : s.capacity ≤ 96000
  held : s.held ≤ s.capacity
  submitted : s.submitted ≤ s.held
  sum : s.submitted = total s.frames
  read : s.read < s.capacity
  locked : s.locked + s.held ≤ s.capacity
  idle : ∀ i, output i = 0 → s.frames i = 0

/-- The past of a stream: what is in its ring, what was played and what audout got. -/
structure Stream.Traced (s : Stream) : Prop where
  base : s.trace.base ≤ s.trace.written.length
  done : s.trace.done ≤ s.trace.since.length
  ring : s.queue.contents = s.trace.since.drop s.trace.done
  played : s.played = s.trace.done % 18446744073709551616
  start : s.trace.start ≤ s.trace.done
  recent : s.trace.recent = (s.trace.since.take (s.trace.done + s.submitted)).drop s.trace.start

variable {s : Stream}

theorem Stream.Traced.length (h : s.Traced) : s.trace.done + s.held = s.trace.since.length := by
  have hlen := congrArg List.length h.ring
  rw [RingQueue.contents_length, length_drop] at hlen
  have hdone := h.done
  have hheld : s.queue.count = s.held := rfl
  omega

/-- A stream still has what it was created with. -/
structure Stream.Made (s : Stream) : Prop where
  source : ∃ f tag, nxFormat f = true ∧ nxFormatTag f = some tag ∧ s.source = sourceOf f tag
  bytes : s.scratchBytes = scratchBytesOf s.capacity s.source

structure Stream.Inv (s : Stream) (output : Fin 4 → Nat) : Prop extends s.Counted output, s.Traced, s.Made

/-! The device: buffers come back and the output is reopened. -/

theorem Stream.Counted.bounds (h : s.Counted output) (i : Fin 4) :
    s.frames i ≤ s.submitted ∧ s.submitted ≤ s.held ∧ s.held ≤ s.capacity ∧ s.capacity ≤ 96000 := by
  have hi := frames_le_total s.frames i
  exact ⟨h.sum ▸ hi, h.submitted, h.held, h.most⟩

theorem Stream.Inv.released (h : s.Inv output) (i : Fin 4) :
    (s.released i).Inv (update output i 0) := by
  have hidle : ∀ j, update output i 0 j = 0 → j ≠ i → s.frames j = 0 := by
    intro j hj hne
    rw [update_of_ne hne] at hj
    exact h.idle j hj
  unfold Stream.released
  split
  case isTrue hzero =>
    refine { h with idle := fun j hj => ?_ }
    by_cases hji : j = i
    · rw [hji]
      exact hzero
    · exact hidle j hj hji
  case isFalse hsome =>
    obtain ⟨hi, hsub, hheld, hcap⟩ := h.bounds i
    have hread := h.read
    have hsum := total_update s.frames i 0
    have hsumEq := h.sum
    have hlocked := h.locked
    have hheldEq : sub32 s.held (s.frames i) = s.held - s.frames i := sub32_eq (by omega) (by omega)
    have hsubEq : sub32 s.submitted (s.frames i) = s.submitted - s.frames i := sub32_eq hi (by omega)
    have hreadEq : u32 (s.read + s.frames i) = s.read + s.frames i := u32_eq (by omega)
    rw [hheldEq, hsubEq, hreadEq]
    have hlen := h.length
    refine
      { least := h.least, most := h.most, held := ?_, submitted := ?_, sum := ?_, read := ?_, locked := ?_,
        idle := ?_, base := h.base, done := ?_, ring := ?_, played := ?_, start := ?_, recent := ?_
        source := h.source, bytes := h.bytes }
    all_goals dsimp only
    · omega
    · omega
    · omega
    · exact Nat.mod_lt _ (by omega)
    · omega
    · intro j hj
      by_cases hji : j = i
      · rw [hji, update_self]
      · rw [update_of_ne hji]
        exact hidle j hj hji
    · change s.trace.done + s.frames i ≤ s.trace.since.length
      omega
    · -- the oldest frames leave the ring
      have hsplit := s.queue.contents_split (k := s.frames i) (by change s.frames i ≤ s.held; omega)
      rw [h.ring] at hsplit
      change RingQueue.contents ⟨s.ring, (s.read + s.frames i) % s.capacity, s.held - s.frames i, s.capacity⟩ =
        s.trace.since.drop (s.trace.done + s.frames i)
      rw [← drop_drop, hsplit, drop_left' (by rw [length_map, length_range])]
      rfl
    · rw [h.played, Nat.mod_add_mod]
    · have := h.start
      omega
    · have hsame : s.trace.done + s.frames i + (s.submitted - s.frames i) = s.trace.done + s.submitted := by
        omega
      rw [hsame]
      exact h.recent

theorem Stream.Inv.reopen (h : s.Inv output) (ok : Bool) : (s.reopen ok).Inv fun _ => 0 := by
  refine
    { least := h.least, most := h.most, held := h.held, submitted := Nat.zero_le _, sum := rfl
      read := h.read, locked := h.locked, idle := fun _ _ => rfl, base := h.base, done := h.done
      ring := h.ring, played := h.played, start := Nat.le_refl _, recent := ?_, source := h.source
      bytes := h.bytes }
  change [] = (s.trace.since.take (s.trace.done + 0)).drop s.trace.done
  rw [Nat.add_zero, drop_take, Nat.sub_self, take_zero]

/-! The mixer: a buffer is filled, and appended or not. -/

theorem Stream.Counted.pending_eq (h : s.Counted output) : s.pending = s.held - s.submitted := by
  obtain ⟨-, hsub, hheld, hcap⟩ := h.bounds 0
  exact sub32_eq hsub (by omega)

theorem Stream.Counted.share_le (h : s.Counted output) (n : Nat) :
    s.share n + s.submitted ≤ s.held := by
  have hsub := h.submitted
  unfold Stream.share
  rw [h.pending_eq]
  split <;> omega

/-- A stream whose share of an empty buffer is `n` frames, running or not. -/
theorem fill_eq (h : s.Counted output) (hi : output i = 0) (frames : Nat) :
    ∃ n, n + s.submitted ≤ s.held ∧ s.fill i frames = { s with frames := update s.frames i n } := by
  unfold Stream.fill
  split
  · exact ⟨s.share frames, h.share_le frames, rfl⟩
  · refine ⟨0, by have := h.submitted; omega, ?_⟩
    have hzero : update s.frames i 0 = s.frames := by
      rw [← h.idle i hi]
      exact update_eq_self i s.frames
    rw [hzero]

theorem Stream.Inv.unfill (h : s.Inv output) (hi : output i = 0) (frames : Nat) :
    ((s.fill i frames).unfill i).Inv output := by
  obtain ⟨n, -, hfill⟩ := fill_eq h.toCounted hi frames
  have hsame : update (update s.frames i n) i 0 = s.frames := by
    rw [update_idem, ← h.idle i hi]
    exact update_eq_self i s.frames
  rw [hfill, Stream.unfill]
  rw [hsame]
  exact h

theorem Stream.Inv.submit (h : s.Inv output) (hi : output i = 0) {frames : Nat}
    (hframes : frames ≠ 0) :
    ((s.fill i frames).submit i).Inv (update output i frames) := by
  obtain ⟨n, hn, hfill⟩ := fill_eq h.toCounted hi frames
  obtain ⟨-, hsub, hheld, hcap⟩ := h.bounds i
  have hsum := total_update s.frames i n
  have hsumEq := h.sum
  have hzero := h.idle i hi
  have hlen := h.length
  have hread := h.read
  have hu32 : u32 (s.submitted + n) = s.submitted + n := u32_eq (by omega)
  rw [hfill, Stream.submit]
  dsimp only
  rw [update_self, hu32]
  refine
    { least := h.least, most := h.most, held := h.held, submitted := ?_, sum := ?_, read := h.read
      locked := h.locked, idle := ?_, base := h.base, done := h.done, ring := h.ring, played := h.played
      start := h.start, recent := ?_, source := h.source, bytes := h.bytes }
  · dsimp only
    omega
  · dsimp only
    omega
  · intro j hj
    dsimp only
    by_cases hji : j = i
    · rw [hji, update_self] at hj
      exact absurd hj hframes
    · rw [update_of_ne hji] at hj ⊢
      exact h.idle j hj
  · -- what was sent is what follows the frames that audout has
    have hsent : (List.range n).map s.ringFrame =
        (s.trace.since.drop (s.trace.done + s.submitted)).take n := by
      rw [← drop_drop, ← h.ring, ← s.queue.contents_window (by change s.submitted + n ≤ s.held; omega)]
      refine map_congr_left fun j hj => ?_
      have hj : j < n := mem_range.mp hj
      unfold Stream.ringFrame
      rw [u32_eq (by omega)]
      rfl
    have hstart := h.start
    change s.trace.recent ++ (List.range n).map s.ringFrame =
      (s.trace.since.take (s.trace.done + (s.submitted + n))).drop s.trace.start
    have htake : s.trace.since.take (s.trace.done + s.submitted + n) =
        s.trace.since.take (s.trace.done + s.submitted) ++
          (s.trace.since.drop (s.trace.done + s.submitted)).take n := take_add
    rw [hsent, h.recent, ← Nat.add_assoc, htake, drop_append_of_le_length]
    rw [length_take]
    omega

/-! The clients' calls. -/

theorem outFrames_room (h : s.Counted output) (hout : ¬ out > sub32 s.capacity s.held) :
    s.held + out ≤ s.capacity := by
  have hheld := h.held
  have hmost := h.most
  rw [sub32_eq hheld (by omega)] at hout
  omega

theorem Stream.Inv.getRenderBuffer (h : s.Inv output) (frames : Nat) :
    (getRenderBuffer s frames).2.Inv output := by
  unfold Audio.getRenderBuffer
  split
  · exact h
  split
  · exact h
  split
  case isTrue => exact h
  case isFalse hroom =>
    have hlocked := outFrames_room h.toCounted hroom
    exact { h with locked := by dsimp only; omega }

theorem Stream.Inv.releaseRenderBuffer (h : s.Inv output) (m : Machine) (written : Nat)
    (flags : UInt32) : (releaseRenderBuffer m s written flags).2.Inv output := by
  unfold Audio.releaseRenderBuffer
  split
  · exact h
  split
  · exact h
  split
  · exact h
  dsimp only
  split
  case isTrue => exact h
  case isFalse hroom =>
    have hout := outFrames_room h.toCounted hroom
    have hmost := h.most
    have hread := h.read
    have hsub := h.submitted
    have hlen := h.length
    generalize outFrames s.source.rate written = out at hout hroom ⊢
    generalize releasedFrame m s (flags &&& 2 ≠ 0) = frame
    have hheldEq : u32 (s.held + out) = s.held + out := u32_eq (by omega)
    have hsince : (s.trace.written ++ (List.range out).map frame).drop s.trace.base =
        s.trace.since ++ (List.range out).map frame := drop_append_of_le_length h.base
    rw [hheldEq]
    refine
      { least := h.least, most := h.most, held := hout, submitted := ?_, sum := h.sum, read := h.read
        locked := ?_, idle := h.idle, base := ?_, done := ?_, ring := ?_, played := h.played
        start := h.start, recent := ?_, source := h.source, bytes := h.bytes }
    · dsimp only
      omega
    · dsimp only
      omega
    · have := h.base
      dsimp only
      rw [length_append]
      omega
    · change s.trace.done ≤ (List.drop s.trace.base _).length
      rw [hsince, length_append]
      omega
    · change RingQueue.contents ⟨_, s.read, s.held + out, s.capacity⟩ = (List.drop s.trace.base _).drop _
      rw [hsince, drop_append_of_le_length h.done, ← h.ring, ← s.queue.contents_appendAll frame hout]
      congr 2
      refine foldl_ext _ _ _ fun ring i hi => ?_
      have hi : i < out := mem_range.mp hi
      rw [u32_eq (by omega)]
      rfl
    · change s.trace.recent = (List.take _ (List.drop s.trace.base _)).drop _
      rw [hsince, take_append_of_le_length (by dsimp only; omega)]
      exact h.recent

theorem Stream.Inv.reset (h : s.Inv output) (initialized : Bool) :
    (reset s initialized).2.Inv output := by
  unfold Audio.reset
  split
  · exact h
  split
  · exact h
  have hleast := h.least
  refine
    { least := h.least, most := h.most, held := Nat.zero_le _, submitted := Nat.le_refl _, sum := rfl
      read := ?_, locked := ?_, idle := fun _ _ => rfl, base := Nat.le_refl _, done := Nat.zero_le _
      ring := ?_, played := rfl, start := Nat.le_refl _, recent := ?_, source := h.source
      bytes := h.bytes }
  · dsimp only
    omega
  · dsimp only
    omega
  · change [] = (s.trace.written.drop s.trace.written.length).drop 0
    rw [drop_length, drop_nil]
  · change [] = ((s.trace.written.drop s.trace.written.length).take (0 + 0)).drop 0
    rw [drop_length, take_nil, drop_nil]

variable {duration : Nat}

theorem capacityOf_bounds (h : duration ≤ 20000000) :
    3840 ≤ capacityOf duration ∧ capacityOf duration ≤ 96000 := by
  have hlt : (duration * nxRate + 9999999) / 10000000 ≤ 96000 := by
    unfold nxRate
    omega
  unfold capacityOf
  rw [u32_eq (by omega)]
  have hfloor : 2 * nxBuffers * nxChunk = 3840 := rfl
  rw [hfloor]
  by_cases hsmall : (duration * nxRate + 9999999) / 10000000 < 3840
  · rw [if_pos hsmall]
    omega
  · rw [if_neg hsmall]
    omega

theorem Stream.Inv.new (handle : Nat) (event : Bool) (output : Fin 4 → Nat)
    (h : duration ≤ 20000000) (hf : nxFormat f = true) (htag : nxFormatTag f = some tag) :
    Stream.Inv { handle, capacity := capacityOf duration, source := sourceOf f tag,
                 scratchBytes := scratchBytesOf (capacityOf duration) (sourceOf f tag), eventCallback := event }
      output := by
  obtain ⟨hleast, hmost⟩ := capacityOf_bounds h
  exact
    { least := hleast, most := hmost, held := Nat.zero_le _, submitted := Nat.le_refl _, sum := rfl
      read := Nat.lt_of_lt_of_le (Nat.zero_lt_succ 3839) hleast, locked := Nat.zero_le _, idle := fun _ _ => rfl
      base := Nat.le_refl _, done := Nat.le_refl _, ring := rfl, played := rfl, start := Nat.le_refl _
      recent := rfl, source := ⟨f, tag, hf, htag, rfl⟩, bytes := rfl }

/-! The driver: what each change of a stream keeps, every operation keeps of every stream. -/

/-- A property of a stream, beside the frames of the buffers, that every change of the driver keeps. -/
structure Closed (m : Machine) (P : (Fin 4 → Nat) → Stream → Prop) : Prop where
  released : ∀ o s i, P o s → P (update o i 0) (s.released i)
  reopen : ∀ o s ok, P o s → P (fun _ => 0) (s.reopen ok)
  submit : ∀ o s i frames, P o s → o i = 0 → frames ≠ 0 →
    P (update o i frames) ((s.fill i frames).submit i)
  unfill : ∀ o s i frames, P o s → o i = 0 → P o ((s.fill i frames).unfill i)
  get : ∀ o s frames, P o s → P o (getRenderBuffer s frames).2
  release : ∀ o s written flags, P o s → P o (releaseRenderBuffer m s written flags).2
  reset : ∀ o s initialized, P o s → P o (reset s initialized).2
  volumes : ∀ o s left right, P o s → P o (setVolumes s left right)
  frame : ∀ o s scratch event running failed, P o s → P o { s with scratch, event, running, failed }
  new : ∀ o handle event duration f tag, duration ≤ 20000000 → nxFormat f = true → nxFormatTag f = some tag →
    P o { handle, capacity := capacityOf duration, source := sourceOf f tag,
          scratchBytes := scratchBytesOf (capacityOf duration) (sourceOf f tag), eventCallback := event }

def World.All (P : (Fin 4 → Nat) → Stream → Prop) (w : World) : Prop := ∀ s ∈ w.active, P w.outputFrames s

theorem all_map {P : (Fin 4 → Nat) → Stream → Prop} {streams : List Stream} (h : ∀ s ∈ streams, P o s)
    {f : Stream → Stream} (hf : ∀ s, P o s → P o' (f s)) : ∀ s ∈ streams.map f, P o' s := by
  intro s' hs'
  obtain ⟨s, hs, rfl⟩ := mem_map.mp hs'
  exact hf s (h s hs)

section
variable {m : Machine} {P : (Fin 4 → Nat) → Stream → Prop} {w : World}

theorem World.All.onStream (h : w.All P) (handle : Nat) {f : Stream → Stream}
    (hf : ∀ s, P w.outputFrames s → P w.outputFrames (f s)) : (onStream w handle f).All P := by
  refine all_map h fun s hs => ?_
  split
  · exact hf s hs
  · exact hs

namespace Closed
variable (c : Closed m P)
include c

theorem reopenOutput (h : w.All P) (ok : Bool) : (reopenOutput w ok).All P :=
  all_map h fun s hs => c.reopen _ s ok hs

theorem releaseLoop (h : w.All P) (n : Nat) : (releaseLoop w n).All P := by
  induction n generalizing w with
  | zero => exact h
  | succ n ih =>
    unfold Audio.releaseLoop
    split
    · exact h
    · exact ih (all_map h fun s hs => c.released _ s _ hs)

theorem fillBuffer (h : w.All P) (d : Device) (i : Fin 4) : (fillBuffer d w i).2.All P := by
  unfold Audio.fillBuffer
  split
  · exact h
  case isFalse hbusy =>
    have hi : w.outputFrames i = 0 := Decidable.not_not.mp hbusy
    dsimp only
    split
    · exact h
    case isFalse hframes =>
      rw [map_map, map_map]
      split
      · exact all_map h fun s hs => c.submit _ s i _ hs hi hframes
      · exact all_map h fun s hs => c.unfill _ s i _ hs hi

theorem fillLoop (h : w.All P) (d : Device) (is : List (Fin 4)) : (fillLoop d w is).2.All P := by
  induction is generalizing w with
  | nil => exact h
  | cons i is ih =>
    have hone := c.fillBuffer h d i
    unfold Audio.fillLoop
    split
    case h_1 w' heq =>
      rw [heq] at hone
      exact ih hone
    case h_2 flow w' _ heq =>
      rw [heq] at hone
      exact hone

theorem failAll (h : w.All P) : (failAll w).All P :=
  all_map h fun s hs => c.frame _ s s.scratch s.event s.running true hs

theorem pump (h : w.All P) (d : Device) : (pump w d).All P := by
  have hreleased := c.releaseLoop h d.released
  have hfilled := c.fillLoop hreleased d [0, 1, 2, 3]
  unfold Audio.pump
  dsimp only
  split
  · exact c.failAll hreleased
  split
  case h_1 w' heq =>
    rw [heq] at hfilled
    exact c.failAll hfilled
  case h_2 flow w' _ heq =>
    rw [heq] at hfilled
    exact hfilled

theorem setRunning (h : w.All P) (handle : Nat) (running : Bool) :
    (onStream w handle fun s => { s with running }).All P :=
  h.onStream handle fun s hs => c.frame _ s s.scratch s.event running s.failed hs

theorem createStream (h : w.All P) (f : WaveFormat) (duration : Int) (event memory : Bool) :
    (createStream w f duration event memory).2.All P := by
  unfold Audio.createStream
  split
  case h_2 => exact h
  case h_1 tag hf htag =>
    split
    · exact h
    case isFalse hduration =>
      split
      · exact h
      split
      · exact h
      intro s hs
      rcases mem_cons.mp hs with rfl | hs
      · exact c.new _ _ _ _ _ _ (by omega) hf htag
      · exact h s hs

theorem startOutput (h : w.All P) (handle : Nat) (started : Bool) : (startOutput w handle started).All P := by
  have hstop : ∀ o s, P o s → P o (if s.failed then { s with running := false } else s) := by
    intro o s hs
    split
    · exact c.frame o s s.scratch s.event false s.failed hs
    · exact hs
  refine World.All.onStream ?_ handle fun s hs => hstop _ s hs
  split
  · exact h
  split
  · exact h
  · exact h.onStream handle fun s hs => c.frame _ s s.scratch s.event s.running true hs

theorem start (h : w.All P) (handle : Nat) (thread started : Bool) (d : Device) :
    (start w handle thread started d).2.All P := by
  unfold Audio.start
  split
  · exact h
  split
  · exact h
  split
  · exact h
  split
  · exact h
  split
  · exact h
  have hthread : World.All P { w with thread := true } := h
  exact c.startOutput (c.pump (c.setRunning hthread handle true) d) handle started

theorem stop (h : w.All P) (handle : Nat) (reopens : Bool) : (stop w handle reopens).All P := by
  have hstopped := c.setRunning h handle false
  unfold Audio.stop
  dsimp only
  split
  · exact c.reopenOutput hstopped reopens
  · exact hstopped

theorem releaseStream (h : w.All P) (handle : Nat) (reopens : Bool) :
    (releaseStream w handle reopens).All P := by
  unfold Audio.releaseStream
  dsimp only
  have hrest : World.All P { w with active := w.active.filter (·.handle ≠ handle) } :=
    fun s hs => h s (mem_filter.mp hs).1
  split
  · split
    · exact hrest
    split
    · exact c.reopenOutput hrest reopens
    · exact hrest
  · exact h

theorem step (h : w.All P) (op : Op) : (step m w op).All P := by
  cases op with
  | testConnect ok => exact h
  | create f duration event memory =>
    rw [Audio.step]
    split
    · exact h
    · exact c.createStream h f duration event memory
  | write handle scratch =>
    exact h.onStream handle fun s hs => c.frame _ s scratch s.event s.running s.failed hs
  | getBuffer handle frames => exact h.onStream handle fun s hs => c.get _ s _ hs
  | releaseBuffer handle written flags => exact h.onStream handle fun s hs => c.release _ s _ _ hs
  | start handle thread started d => exact c.start h handle thread started d
  | stop handle reopens => exact c.stop h handle reopens
  | reset handle => exact h.onStream handle fun s hs => c.reset _ s _ hs
  | setVolumes handle left right => exact h.onStream handle fun s hs => c.volumes _ s left right hs
  | setEventHandle handle =>
    refine h.onStream handle fun s hs => ?_
    unfold Audio.setEventHandle
    split
    · exact c.frame _ s s.scratch true s.running s.failed hs
    · exact hs
  | tick d =>
    rw [Audio.step]
    split
    · exact c.pump h d
    · exact h
  | release handle reopens => exact c.releaseStream h handle reopens
  | close reopens =>
    rw [Audio.step, closeOutput]
    split
    · exact c.reopenOutput h reopens
    · exact h

theorem run (ops : List Op) : (run (Audio.step m) {} ops).All P :=
  run_invariant (P := World.All P) (fun _ op h => c.step h op) (fun _ hs => absurd hs not_mem_nil) ops

end Closed
end

theorem inv_closed (m : Machine) : Closed m fun output s => s.Inv output where
  released _ _ i h := h.released i
  reopen _ _ ok h := h.reopen ok
  submit _ _ _ _ h hi hframes := h.submit hi hframes
  unfill _ _ _ frames h hi := h.unfill hi frames
  get _ _ frames h := h.getRenderBuffer frames
  release _ _ written flags h := h.releaseRenderBuffer m written flags
  reset _ _ initialized h := h.reset initialized
  volumes _ _ _ _ h := { h with }
  frame _ _ _ _ _ _ h := { h with }
  new _ _ _ _ _ _ hd hf htag := Stream.Inv.new _ _ _ hd hf htag

theorem run_inv (m : Machine) (ops : List Op) :
    ∀ s ∈ (run (step m) {} ops).active, s.Inv (run (step m) {} ops).outputFrames :=
  (inv_closed m).run ops

/-- What audout has got from a stream since it was reopened or the stream reset is a run of the frames
written, from the first that was not played then; and the counts of the stream say where it stands in them. -/
theorem streams_played_in_order (m : Machine) (ops : List Op) (s : Stream)
    (hs : s ∈ (run (step m) {} ops).active) :
    s.submitted = s.frames 0 + s.frames 1 + s.frames 2 + s.frames 3 ∧
      s.submitted ≤ s.held ∧ s.held ≤ s.capacity ∧
      s.played = s.trace.done % 18446744073709551616 ∧
      s.trace.done + s.held = (s.trace.written.drop s.trace.base).length ∧
      s.trace.recent <+: (s.trace.written.drop s.trace.base).drop s.trace.start ∧
      s.trace.start + s.trace.recent.length = s.trace.done + s.submitted := by
  have h := run_inv m ops s hs
  have hlen := h.length
  have hsub := h.submitted
  have hstart := h.start
  refine ⟨h.sum, hsub, h.held, h.played, hlen, ?_, ?_⟩
  · rw [h.recent, drop_take]
    exact take_prefix _ _
  · rw [h.recent, length_drop, length_take]
    omega

def monoFormat : WaveFormat where
  formatTag := .pcm
  channels := 1
  samplesPerSec := 48000
  avgBytesPerSec := 96000
  blockAlign := 2
  bitsPerSample := 16

def plainMachine : Machine where
  floatSample _ := 0
  wide _ := 0

def writeFrame (handle : Nat) (value : UInt8) : List Op :=
  [.write handle fun k => if k = 0 then value else 0, .getBuffer handle 1, .releaseBuffer handle 1 0]

/-- A stream that is stopped beside another and reset before its second frame is handed on. -/
def resetRun : List Op :=
  [.testConnect true, .create monoFormat 0 false true, .create monoFormat 0 false true] ++
    writeFrame 1 9 ++ [.start 1 true true {}] ++
    writeFrame 0 1 ++ [.start 0 true true {}] ++
    writeFrame 0 2 ++ [.stop 0 true, .reset 0] ++
    writeFrame 0 3 ++ [.start 0 true true {}]

/-- What it hands on after the reset is the frame written then. -/
theorem streams_played_in_order_reset :
    ∃ s ∈ (run (step plainMachine) {} resetRun).active,
      s.trace.written = [(1, 1), (2, 2), (3, 3)] ∧ s.trace.recent = [(3, 3)] ∧ s.submitted = 1 ∧
        s.submitted ≤ s.held ∧
        s.trace.recent <+: (s.trace.written.drop s.trace.base).drop s.trace.start ∧
        s.trace.start + s.trace.recent.length = s.trace.done + s.submitted := by
  obtain ⟨s, hs, hwritten, hrecent, hsubmitted⟩ : ∃ s ∈ (run (step plainMachine) {} resetRun).active,
      s.trace.written = [(1, 1), (2, 2), (3, 3)] ∧ s.trace.recent = [(3, 3)] ∧ s.submitted = 1 := by
    decide +kernel
  obtain ⟨-, hheld, -, -, -, hprefix, hcount⟩ := streams_played_in_order plainMachine resetRun s hs
  exact ⟨s, hs, hwritten, hrecent, hsubmitted, hheld, hprefix, hcount⟩

/-- Between the frames that it handed on without the output being reopened, one is missing. -/
theorem reset_leaves_gap :
    ∃ s ∈ (run (step plainMachine) {} resetRun).active,
      s.trace.written = [(1, 1), (2, 2), (3, 3)] ∧ s.trace.handed = [(1, 1), (3, 3)] ∧
        ¬ s.trace.handed <:+: s.trace.written := by
  decide +kernel

end Autorun.Audio
