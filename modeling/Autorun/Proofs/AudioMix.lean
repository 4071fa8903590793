import Autorun.Proofs.AudioSamples

namespace Autorun.Audio
open Lib List

/-! What stands in a ring. -/

/-- Every place of the ring holds what its source frame was stored as. -/
structure Stream.Stored (m : Machine) (s : Stream) : Prop where
  cells : ∀ p, s.ring p = ((s.trace.origin p).map (Origin.stored m)).getD (0, 0)
  same : ∀ p o, s.trace.origin p = some o → o.source = s.source
  left : 0 ≤ s.volume.1 ∧ s.volume.1 ≤ 1
  right : 0 ≤ s.volume.2 ∧ s.volume.2 ≤ 1

variable {s : Stream}

theorem releasedFrame_eq (m : Machine) (h : s.source.Accepted) (silent : Bool) (hn : n ≤ 96000)
    (hi : i < outFrames s.source.rate n) : releasedFrame m s silent i = (originOf s silent i).stored m := by
  have hend := frame_end_le h.rate_pos hi s.source.frameBytes
  have hframe : s.source.frameBytes ≤ 8 := h.frameBytes_le
  have hbytes : n * s.source.frameBytes ≤ 96000 * 8 := Nat.mul_le_mul hn hframe
  unfold releasedFrame Origin.stored originOf
  refine storeFrame_congr m h s.volume silent fun k hk => ?_
  dsimp only
  rw [if_pos hk, srcFrame_eq h.rate_pos (by omega) hi, u32_eq (by omega)]

theorem Stream.Inv.stored_release (h : s.Inv output) (hs : s.Stored m) (written : Nat)
    (flags : UInt32) : (Audio.releaseRenderBuffer m s written flags).2.Stored m := by
  unfold Audio.releaseRenderBuffer
  split
  · exact hs
  split
  · exact hs
  split
  · exact hs
  case isFalse hlocked =>
    dsimp only
    split
    · exact hs
    have hmost := h.most
    have hroom := h.locked
    -- a frame and its origin go to the same place
    have hrel := Lib.RingQueue.foldl_update_rel
      (R := fun (x : Frame) (o : Option Origin) =>
        x = (o.map (Origin.stored m)).getD (0, 0) ∧ ∀ o', o = some o' → o'.source = s.source)
      (fun i => u32 (s.read + s.held + i) % s.capacity)
      (f := releasedFrame m s (flags &&& 2 ≠ 0)) (g := fun i => some (originOf s (flags &&& 2 ≠ 0) i))
      (l := List.range (outFrames s.source.rate written)) (a := s.ring) (b := s.trace.origin)
      (by
        intro i hi
        refine ⟨releasedFrame_eq m h.accepted _ (by omega) (mem_range.mp hi), fun o' ho => ?_⟩
        rw [← Option.some.inj ho]
        rfl)
      (fun p => ⟨hs.cells p, hs.same p⟩)
    exact ⟨fun p => (hrel p).1, fun p => (hrel p).2, hs.left, hs.right⟩

theorem clampVolume_range (v : ℚ) : 0 ≤ (if 0 ≤ v ∧ v ≤ 1 then v else 0) ∧ (if 0 ≤ v ∧ v ≤ 1 then v else 0) ≤ 1 := by
  split
  case isTrue h => exact h
  case isFalse => exact ⟨le_refl 0, by norm_num⟩

theorem stored_closed (m : Machine) : Closed m fun output s => s.Inv output ∧ s.Stored m where
  released o s i h := by
    refine ⟨h.1.released i, ?_⟩
    unfold Stream.released
    split
    · exact h.2
    · exact { h.2 with }
  reopen o s ok h := ⟨h.1.reopen ok, { h.2 with }⟩
  submit o s i frames h hi hframes := by
    refine ⟨h.1.submit hi hframes, ?_⟩
    obtain ⟨n, -, hfill⟩ := fill_eq h.1.toCounted hi frames
    rw [hfill]
    exact { h.2 with }
  unfill o s i frames h hi := by
    refine ⟨h.1.unfill hi frames, ?_⟩
    obtain ⟨n, -, hfill⟩ := fill_eq h.1.toCounted hi frames
    rw [hfill]
    exact { h.2 with }
  get o s frames h := by
    refine ⟨h.1.getRenderBuffer frames, ?_⟩
    unfold getRenderBuffer
    split
    · exact h.2
    split
    · exact h.2
    split
    · exact h.2
    · exact { h.2 with }
  release o s written flags h := ⟨h.1.releaseRenderBuffer m written flags, h.1.stored_release h.2 written flags⟩
  reset o s initialized h := by
    refine ⟨h.1.reset initialized, ?_⟩
    unfold reset
    split
    · exact h.2
    split
    · exact h.2
    · exact { h.2 with }
  volumes o s left right h :=
    ⟨{ h.1 with }, { h.2 with left := clampVolume_range left, right := clampVolume_range right }⟩
  frame o s scratch event running failed h := ⟨{ h.1 with }, { h.2 with }⟩
  new o handle event duration f tag hd hf htag :=
    ⟨Stream.Inv.new _ _ _ hd hf htag,
      { cells := fun _ => rfl
        same := fun _ _ ho => absurd ho (by simp)
        left := ⟨by norm_num, le_refl 1⟩
        right := ⟨by norm_num, le_refl 1⟩ }⟩

/-! Which streams may be mixed. -/

/-- The origins of the frames that a stream holds. -/
def Stream.origins (s : Stream) : RingQueue (Option Origin) := ⟨s.trace.origin, s.read, s.held, s.capacity⟩

/-- The streams that run have integer formats, their frames were stored at the volume that they have, and
formats and volumes are faithful in the order of mixing. -/
structure Fair (streams : List Stream) : Prop where
  pcm : ∀ s ∈ streams, s.running = true → s.source.tag = .pcm
  volume : ∀ s ∈ streams, s.running = true → ∀ o, some o ∈ s.origins.contents → o.volume = s.volume
  left : Faithful false ((streams.filter (·.running)).map fun s => (s.source.bits, s.volume.1))
  right : Faithful false ((streams.filter (·.running)).map fun s => (s.source.bits, s.volume.2))

theorem Faithful.sublist {cs cs' : List (Nat × ℚ)} (hsub : cs'.Sublist cs) (h : Faithful full cs)
    (hfull : full' = true → full = true) : Faithful full' cs' := by
  induction hsub generalizing full full' with
  | slnil => trivial
  | cons c hsub ih =>
    rcases h with ⟨-, -, h⟩ | ⟨-, -, h⟩
    · exact ih h fun _ => rfl
    · exact ih h hfull
  | cons_cons c hsub ih =>
    rcases h with ⟨hone, hbits, h⟩ | ⟨hsmall, hbits, h⟩
    · exact .inl ⟨hone, hbits, ih h fun _ => rfl⟩
    · refine .inr ⟨hsmall, hbits.imp id (Or.imp id fun hfalse => ?_), ih h hfull⟩
      cases full' with
      | false => rfl
      | true => rw [hfull rfl] at hfalse; cases hfalse

/-- What `nx_pump` does to a stream: it goes on with the same format and volume, and with no other frames. -/
structure Stream.Goes (s s' : Stream) : Prop where
  running : s'.running = s.running
  source : s'.source = s.source
  volume : s'.volume = s.volume
  origins : ∀ x ∈ s'.origins.contents, x ∈ s.origins.contents

theorem Fair.map {P : Stream → Prop} {streams : List Stream} (h : Fair streams) (hP : ∀ s ∈ streams, P s)
    {f : Stream → Stream} (hf : ∀ s, P s → s.Goes (f s)) : Fair (streams.map f) := by
  have hrunning : (streams.map f).filter (·.running) = (streams.filter (·.running)).map f := by
    rw [filter_map]
    congr 1
    refine filter_congr fun s hs => ?_
    exact (hf s (hP s hs)).running
  have hconfig : ∀ g : ℚ × ℚ → ℚ, ((streams.map f).filter (·.running)).map (fun s => (s.source.bits, g s.volume)) =
      (streams.filter (·.running)).map fun s => (s.source.bits, g s.volume) := by
    intro g
    rw [hrunning, map_map]
    refine map_congr_left fun s hs => ?_
    have hgoes := hf s (hP s (mem_filter.mp hs).1)
    dsimp only [Function.comp]
    rw [hgoes.source, hgoes.volume]
  constructor
  · intro s' hs' hrun
    obtain ⟨s, hs, rfl⟩ := mem_map.mp hs'
    have hgoes := hf s (hP s hs)
    rw [hgoes.source]
    exact h.pcm s hs (hgoes.running ▸ hrun)
  · intro s' hs' hrun o ho
    obtain ⟨s, hs, rfl⟩ := mem_map.mp hs'
    have hgoes := hf s (hP s hs)
    rw [hgoes.volume]
    exact h.volume s hs (hgoes.running ▸ hrun) o (hgoes.origins _ ho)
  · rw [hconfig Prod.fst]
    exact h.left
  · rw [hconfig Prod.snd]
    exact h.right

theorem Stream.Inv.released_goes (h : s.Inv output) (i : Fin 4) : s.Goes (s.released i) := by
  unfold Stream.released
  split
  · exact ⟨rfl, rfl, rfl, fun _ hx => hx⟩
  · refine ⟨rfl, rfl, rfl, fun x hx => ?_⟩
    obtain ⟨hi, hsub, hheld, hcap⟩ := h.bounds i
    have hread := h.read
    rw [s.origins.contents_split (k := s.frames i) (by change s.frames i ≤ s.held; omega)]
    refine mem_append_right _ ?_
    rwa [sub32_eq (by omega) (by omega), u32_eq (by omega)] at hx

theorem Stream.Inv.submit_goes (h : s.Inv output) (hi : output i = 0) (frames : Nat) :
    s.Goes ((s.fill i frames).submit i) := by
  obtain ⟨n, -, hfill⟩ := fill_eq h.toCounted hi frames
  rw [hfill]
  exact ⟨rfl, rfl, rfl, fun _ hx => hx⟩

/-! The mixer. -/

/-- What place `p` of the ring was made from, or silence. -/
def Stream.originAt (s : Stream) (p : Nat) : Origin := (s.trace.origin p).getD ⟨s.source, s.volume, true, fun _ => 0⟩

theorem stored_silent (m : Machine) (source : Source) (volume : ℚ × ℚ) (frame : Nat → UInt8) :
    Origin.stored m ⟨source, volume, true, frame⟩ = (0, 0) := by
  have hzero : ∀ v : ℚ, toShort m (((0 : Int) : ℚ) * v) = 0 := by
    intro v
    have htrunc : trunc ((0 : Int) : ℚ) = 0 := trunc_intCast 0
    rw [Int.cast_zero, zero_mul, ← Int.cast_zero, toShort_of_range] <;> rw [htrunc] <;> decide
  unfold Origin.stored storeFrame
  simp only [if_true, hzero]

theorem Stream.Stored.ringFrame_eq (h : s.Stored m) (j : Nat) :
    s.ringFrame j = (s.originAt (u32 (s.read + s.submitted + j) % s.capacity)).stored m ∧
      s.sourceFrame j = (s.originAt (u32 (s.read + s.submitted + j) % s.capacity)).samples := by
  unfold Stream.ringFrame Stream.sourceFrame Stream.originAt
  rw [h.cells]
  cases s.trace.origin (u32 (s.read + s.submitted + j) % s.capacity) with
  | none => exact ⟨(stored_silent m _ _ _).symm, rfl⟩
  | some o => exact ⟨rfl, rfl⟩

/-- The origin of a frame that is mixed has the stream's format and, when that is fair, its volume. -/
theorem Stream.Inv.originAt_spec (h : s.Inv output) (hs : s.Stored m) (hj : j + s.submitted < s.held)
    (hvolume : ∀ o, some o ∈ s.origins.contents → o.volume = s.volume) :
    (s.originAt (u32 (s.read + s.submitted + j) % s.capacity)).source = s.source ∧
      (s.originAt (u32 (s.read + s.submitted + j) % s.capacity)).volume = s.volume := by
  have hread := h.read
  have hheld := h.held
  have hmost := h.most
  have hmem : s.trace.origin (u32 (s.read + s.submitted + j) % s.capacity) ∈ s.origins.contents := by
    rw [u32_eq (by omega), Nat.add_assoc]
    exact mem_map_of_mem (mem_range.mpr (show s.submitted + j < s.held by omega))
  unfold Stream.originAt
  cases ho : s.trace.origin (u32 (s.read + s.submitted + j) % s.capacity) with
  | none => exact ⟨rfl, rfl⟩
  | some o =>
    rw [ho] at hmem
    exact ⟨hs.same _ o ho, hvolume o hmem⟩

theorem Stream.Counted.lt_share {frames : Nat} (h : s.Counted output) (hj : j < s.share frames) :
    j + s.submitted < s.held := by
  have := h.share_le frames
  omega

variable {w : World}

theorem chunk_eq (h : w.All fun output s => s.Inv output ∧ s.Stored m) (hfair : Fair w.active)
    (frames : Nat) : chunk w frames = wantedChunk w frames := by
  unfold chunk wantedChunk parts
  refine map_congr_left fun j _ => ?_
  -- the streams with a part in frame `j`, by the origins of their frames
  obtain ⟨mixed, hmixed⟩ : ∃ mixed, mixed =
      w.active.filter fun s => s.running && decide (j < s.share frames) := ⟨_, rfl⟩
  rw [← hmixed]
  have hin : ∀ s ∈ mixed, s ∈ w.active ∧ s.running = true ∧ j < s.share frames := by
    intro s hs
    rw [hmixed, mem_filter, Bool.and_eq_true, decide_eq_true_eq] at hs
    exact hs
  have horigin : ∀ s ∈ mixed,
      (s.originAt (u32 (s.read + s.submitted + j) % s.capacity)).source = s.source ∧
        (s.originAt (u32 (s.read + s.submitted + j) % s.capacity)).volume = s.volume := by
    intro s hs
    obtain ⟨hactive, hrun, hj⟩ := hin s hs
    obtain ⟨hinv, hstored⟩ := h s hactive
    exact hinv.originAt_spec hstored (hinv.lt_share hj) (hfair.volume s hactive hrun)
  have hsub : mixed.Sublist (w.active.filter (·.running)) := by
    have hagain : mixed = (w.active.filter (·.running)).filter fun s => decide (j < s.share frames) := by
      rw [hmixed, filter_filter]
      exact filter_congr fun s _ => Bool.and_comm _ _
    rw [hagain]
    exact filter_sublist
  obtain ⟨os, hos⟩ : ∃ os, os = mixed.map fun s => s.originAt (u32 (s.read + s.submitted + j) % s.capacity) :=
    ⟨_, rfl⟩
  have hring : (mixed.map fun s => (s.ringFrame j, s.volume)) = os.map fun o => (o.stored m, o.volume) := by
    rw [hos, map_map]
    refine map_congr_left fun s hs => ?_
    dsimp only [Function.comp]
    rw [((h s (hin s hs).1).2.ringFrame_eq j).1, (horigin s hs).2]
  have hsource : (mixed.map fun s => (s.sourceFrame j, s.volume)) = os.map fun o => (o.samples, o.volume) := by
    rw [hos, map_map]
    refine map_congr_left fun s hs => ?_
    dsimp only [Function.comp]
    rw [((h s (hin s hs).1).2.ringFrame_eq j).2, (horigin s hs).2]
  have hconfig : ∀ g : ℚ × ℚ → ℚ, os.map (fun o => (o.source.bits, g o.volume)) =
      mixed.map fun s => (s.source.bits, g s.volume) := by
    intro g
    rw [hos, map_map]
    refine map_congr_left fun s hs => ?_
    dsimp only [Function.comp]
    rw [(horigin s hs).1, (horigin s hs).2]
  rw [hring, hsource]
  refine frame_kept m ?_ ?_ ?_
  · intro o ho
    rw [hos] at ho
    obtain ⟨s, hs, rfl⟩ := mem_map.mp ho
    obtain ⟨hactive, hrun, -⟩ := hin s hs
    obtain ⟨hinv, hstored⟩ := h s hactive
    obtain ⟨hsame, hvol⟩ := horigin s hs
    constructor
    · rw [hsame]
      exact hinv.accepted
    · rw [hsame]
      exact hfair.pcm s hactive hrun
    · rw [hvol]
      exact hstored.left
    · rw [hvol]
      exact hstored.right
  · rw [hconfig Prod.fst]
    exact hfair.left.sublist (hsub.map _) fun hfalse => hfalse
  · rw [hconfig Prod.snd]
    exact hfair.right.sublist (hsub.map _) fun hfalse => hfalse

/-! Whole runs. -/

/-- What was handed to audout is what it should have been. -/
structure World.Heard (m : Machine) (w : World) : Prop where
  streams : w.All fun output s => s.Inv output ∧ s.Stored m
  log : w.log = w.wanted

theorem World.Heard.releaseLoop (h : w.Heard m) (hfair : Fair w.active) (n : Nat) :
    (releaseLoop w n).Heard m ∧ Fair (releaseLoop w n).active := by
  induction n generalizing w with
  | zero => exact ⟨h, hfair⟩
  | succ n ih =>
    unfold Audio.releaseLoop
    split
    · exact ⟨h, hfair⟩
    case h_2 i queue _ =>
      refine ih ⟨?_, h.log⟩ ?_
      · exact all_map (P := fun output s => s.Inv output ∧ s.Stored m) h.streams fun s hs =>
          (stored_closed m).released _ s i hs
      · exact hfair.map h.streams fun s hs => hs.1.released_goes i

theorem World.Heard.fillBuffer (h : w.Heard m) (hfair : Fair w.active) (d : Device) (i : Fin 4) :
    (fillBuffer d w i).2.Heard m ∧ ((fillBuffer d w i).1 = .next → Fair (fillBuffer d w i).2.active) := by
  have hstreams := (stored_closed m).fillBuffer h.streams d i
  refine ⟨⟨hstreams, ?_⟩, ?_⟩
  · unfold Audio.fillBuffer
    split
    · exact h.log
    dsimp only
    split
    · exact h.log
    split
    · rw [h.log, chunk_eq h.streams hfair]
    · exact h.log
  · unfold Audio.fillBuffer
    split
    case isTrue => exact fun _ => hfair
    case isFalse hbusy =>
      have hi : w.outputFrames i = 0 := Decidable.not_not.mp hbusy
      dsimp only
      split
      · exact fun _ => hfair
      split
      · intro _
        rw [map_map]
        exact hfair.map h.streams fun s hs => hs.1.submit_goes hi _
      · exact fun hnext => by cases hnext

theorem World.Heard.fillLoop (h : w.Heard m) (hfair : Fair w.active) (d : Device)
    (is : List (Fin 4)) : (fillLoop d w is).2.Heard m := by
  induction is generalizing w with
  | nil => exact h
  | cons i is ih =>
    obtain ⟨hheard, hnext⟩ := h.fillBuffer hfair d i
    unfold Audio.fillLoop
    split
    case h_1 w' heq =>
      rw [heq] at hheard hnext
      exact ih hheard (hnext rfl)
    case h_2 flow w' _ heq =>
      rw [heq] at hheard
      exact hheard

theorem World.Heard.failAll (h : w.Heard m) : (failAll w).Heard m :=
  ⟨(stored_closed m).failAll h.streams, h.log⟩

theorem World.Heard.pump (h : w.Heard m) (hfair : Fair w.active) (d : Device) :
    (pump w d).Heard m := by
  obtain ⟨hreleased, hfair'⟩ := h.releaseLoop hfair d.released
  have hfilled := hreleased.fillLoop hfair' d [0, 1, 2, 3]
  unfold Audio.pump
  dsimp only
  split
  · exact hreleased.failAll
  split
  case h_1 w' heq =>
    rw [heq] at hfilled
    exact hfilled.failAll
  case h_2 flow w' _ heq =>
    rw [heq] at hfilled
    exact hfilled

/-- The mixer runs with streams that may be mixed, in `nx_start` with the one that is started. -/
def MixesFairly (w : World) : Op → Prop
  | .start handle _ _ _ =>
    Fair (w.active.map fun s => if s.handle = handle then { s with running := true } else s)
  | .tick _ => Fair w.active
  | _ => True

theorem startOutput_log (w : World) (handle : Nat) (started : Bool) :
    (startOutput w handle started).log = w.log ∧ (startOutput w handle started).wanted = w.wanted := by
  unfold startOutput
  dsimp only
  split
  · exact ⟨rfl, rfl⟩
  · split <;> exact ⟨rfl, rfl⟩

theorem World.Heard.start (h : w.Heard m) (handle : Nat) (thread started : Bool) (d : Device)
    (hfair : MixesFairly w (.start handle thread started d)) :
    (Audio.start w handle thread started d).2.Heard m := by
  refine ⟨(stored_closed m).start h.streams handle thread started d, ?_⟩
  have hthread : World.All (fun output s => s.Inv output ∧ s.Stored m) { w with thread := true } := h.streams
  have hrunning : World.Heard m
      (Audio.onStream { w with thread := true } handle fun s => { s with running := true }) :=
    ⟨(stored_closed m).setRunning hthread handle true, h.log⟩
  have hpumped := hrunning.pump hfair d
  unfold Audio.start
  split
  · exact h.log
  split
  · exact h.log
  split
  · exact h.log
  split
  · exact h.log
  split
  · exact h.log
  rw [(startOutput_log _ handle started).1, (startOutput_log _ handle started).2]
  exact hpumped.log

theorem step_log (h : w.log = w.wanted) (op : Op) (hstart : ∀ a b c d, op ≠ .start a b c d)
    (htick : ∀ d, op ≠ .tick d) : (step m w op).log = (step m w op).wanted := by
  cases op with
  | start a b c d => exact absurd rfl (hstart a b c d)
  | tick d => exact absurd rfl (htick d)
  | create f duration event memory =>
    rw [step]
    split
    · exact h
    unfold createStream
    split
    · split
      · exact h
      split
      · exact h
      split <;> exact h
    · exact h
  | stop handle reopens =>
    rw [step, stop]
    split <;> exact h
  | release handle reopens =>
    rw [step, releaseStream]
    split
    · dsimp only
      split
      · exact h
      split <;> exact h
    · exact h
  | close reopens =>
    rw [step, closeOutput]
    split <;> exact h
  | _ => exact h

theorem step_heard (m : Machine) (w : World) (op : Op) (hfair : MixesFairly w op) (h : w.Heard m) :
    (step m w op).Heard m := by
  have hstreams := (stored_closed m).step h.streams op
  cases op with
  | start handle thread started d => exact h.start handle thread started d hfair
  | tick d =>
    rw [step]
    split
    · exact h.pump hfair d
    · exact h
  | _ => exact ⟨hstreams, step_log h.log _ (fun _ _ _ _ heq => by cases heq) fun _ heq => by cases heq⟩

/-- In a run whose mixing is fair, audout gets what it should; and of given formats and volumes, it gets that
whatever the streams have written just when they are faithful in both channels. -/
theorem samples_keep_value_iff (m : Machine) :
    (∀ ops : List Op, Allowed MixesFairly (step m) {} ops →
        (run (step m) {} ops).log = (run (step m) {} ops).wanted) ∧
      ∀ cs : List (Source × (ℚ × ℚ)), (∀ c ∈ cs, c.1.Accepted ∧ c.1.tag = .pcm) →
        (∀ c ∈ cs, (0 ≤ c.2.1 ∧ c.2.1 ≤ 1) ∧ 0 ≤ c.2.2 ∧ c.2.2 ≤ 1) →
        ((∀ os : List Origin, os.map (fun o => (o.source, o.volume)) = cs →
            outputFrame (os.map fun o => (o.stored m, o.volume)) =
              wantedFrame (os.map fun o => (o.samples, o.volume))) ↔
          Faithful false (cs.map fun c => (c.1.bits, c.2.1)) ∧
            Faithful false (cs.map fun c => (c.1.bits, c.2.2))) := by
  refine ⟨fun ops hops => ?_, fun cs hcs hvolumes => frame_kept_iff m hcs hvolumes⟩
  have hstart : World.Heard m {} := ⟨fun _ hs => absurd hs not_mem_nil, rfl⟩
  exact (run_allowed (P := World.Heard m) (step_heard m) hstart ops hops).log

/-- A stream at the volume it was created with. -/
def fullVolumeRun : List Op :=
  createRun monoFormat 0 ++
    [.write 0 fun k => if k = 0 then 100 else 0, .getBuffer 0 1, .releaseBuffer 0 1 0,
      .start 0 true true {}]

theorem full_volume_fair : Allowed MixesFairly (step plainMachine) {} fullVolumeRun := by
  refine ⟨trivial, trivial, trivial, trivial, trivial, ⟨by decide +kernel, ?_, ?_, ?_⟩, trivial⟩
  · have hall : ∀ s ∈ (run (step plainMachine) {} (fullVolumeRun.take 5)).active.map
        (fun s => if s.handle = 0 then { s with running := true } else s),
        ∀ x ∈ s.origins.contents, x.all (·.volume == s.volume) := by decide +kernel
    intro s hs _ o ho
    exact eq_of_beq (hall s hs (some o) ho)
  · exact .inl ⟨by decide +kernel, by decide +kernel, trivial⟩
  · exact .inl ⟨by decide +kernel, by decide +kernel, trivial⟩

theorem samples_keep_value_full : (run (step plainMachine) {} fullVolumeRun).log = [[(100, 100)]] ∧
    (run (step plainMachine) {} fullVolumeRun).wanted = [[(100, 100)]] := by
  have hlog : (run (step plainMachine) {} fullVolumeRun).log = [[(100, 100)]] := by decide +kernel
  have hkept := (samples_keep_value_iff plainMachine).1 fullVolumeRun full_volume_fair
  exact ⟨hlog, hkept.symm.trans hlog⟩

/-- A stream at half volume: its one frame is handed on at a quarter. -/
def halfVolumeRun : List Op :=
  createRun monoFormat 0 ++
    [.setVolumes 0 (1 / 2) (1 / 2), .write 0 fun k => if k = 0 then 100 else 0, .getBuffer 0 1,
      .releaseBuffer 0 1 0, .start 0 true true {}]

theorem half_volume_twice :
    (run (step plainMachine) {} halfVolumeRun).log = [[(25, 25)]] ∧
      (run (step plainMachine) {} halfVolumeRun).wanted = [[(50, 50)]] := by
  decide +kernel

end Autorun.Audio
