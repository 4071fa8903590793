import Autorun.Proofs.AudioStreams

namespace Autorun.Audio
open Lib List

/-- What `nx_format` accepts. -/
structure Source.Accepted (source : Source) : Prop where
  rate_pos : 0 < source.rate
  rate_lt : source.rate < 4294967296
  channels : source.channels = 1 ∨ source.channels = 2
  bits : source.bits = 8 ∨ source.bits = 16 ∨ source.bits = 24 ∨ source.bits = 32
  float : source.tag = .ieeeFloat → source.bits = 32
  bytes : source.frameBytes = source.channels * (source.bits / 8)

theorem nxFormat_accepts (hf : nxFormat f = true) (htag : nxFormatTag f = some tag) :
    (sourceOf f tag).Accepted := by
  unfold nxFormat at hf
  split at hf
  case isTrue => cases hf
  case isFalse hbasic =>
    rw [htag] at hf
    dsimp only at hf
    split at hf
    case isTrue => cases hf
    case isFalse hfloat =>
      obtain ⟨hbits, halign, -⟩ := of_decide_eq_true hf
      obtain ⟨hrate, hlow, hhigh⟩ : f.samplesPerSec ≠ 0 ∧ ¬ f.channels < 1 ∧ ¬ f.channels > 2 :=
        ⟨fun h => hbasic (.inl h), fun h => hbasic (.inr (.inl h)), fun h => hbasic (.inr (.inr h))⟩
      have hlow : ¬ f.channels.toNat < 1 := hlow
      have hhigh : ¬ 2 < f.channels.toNat := hhigh
      refine ⟨?_, f.samplesPerSec.toNat_lt, ?_, ?_, ?_, halign⟩
      · exact Nat.pos_of_ne_zero fun h => hrate (UInt32.toNat_inj.mp h)
      · change f.channels.toNat = 1 ∨ f.channels.toNat = 2
        omega
      · rcases hbits with h | h | h | h <;> simp [sourceOf, h]
      · intro hieee
        by_contra hne
        exact hfloat ⟨hieee, fun h => hne (congrArg UInt16.toNat h)⟩

/-! What a release reads. -/

variable {a b scratch : Nat → UInt8}

theorem leNat_congr (n : Nat) (h : ∀ k < n, a k = b k) : leNat a n = leNat b n := by
  induction n generalizing a b with
  | zero => rfl
  | succ n ih =>
    unfold leNat
    rw [h 0 (Nat.zero_lt_succ n), ih fun k hk => h (k + 1) (Nat.succ_lt_succ hk)]

variable {source : Source}

theorem sampleAt_congr (m : Machine) (h : source.Accepted) (hc : c < source.channels)
    (hab : ∀ k < source.frameBytes, a k = b k) :
    sampleAt m source a c = sampleAt m source b c := by
  have hwidth : (c + 1) * (source.bits / 8) ≤ source.frameBytes := by
    rw [h.bytes]
    exact Nat.mul_le_mul_right _ hc
  unfold sampleAt
  split
  case isTrue hfloat =>
    rw [h.float hfloat] at hwidth ⊢
    congr 1
    refine map_congr_left fun k hk => hab _ ?_
    have hk : k < 4 := mem_range.mp hk
    omega
  case isFalse =>
    split
    case isTrue h8 =>
      rw [h8] at hwidth
      rw [hab c (by omega)]
    case isFalse h8 =>
      split
      case isTrue h16 =>
        rw [h16] at hwidth
        rw [leNat_congr 2 fun k hk => hab _ (by omega)]
      case isFalse h16 =>
        split
        case isTrue h24 =>
          rw [h24] at hwidth
          rw [leNat_congr 3 fun k hk => hab _ (by omega)]
        case isFalse h24 =>
          have h32 : source.bits = 32 := by
            have := h.bits
            omega
          rw [h32] at hwidth
          rw [leNat_congr 4 fun k hk => hab _ (by omega)]

theorem storeFrame_congr (m : Machine) (h : source.Accepted) (volume : ℚ × ℚ)
    (silent : Bool) (hab : ∀ k < source.frameBytes, a k = b k) :
    storeFrame m source volume silent a = storeFrame m source volume silent b := by
  have hchannels := h.channels
  have hleft : sampleAt m source a 0 = sampleAt m source b 0 := sampleAt_congr m h (by omega) hab
  unfold storeFrame
  by_cases hmono : source.channels = 1
  · simp [hleft, if_pos hmono]
  · have hright : sampleAt m source a 1 = sampleAt m source b 1 := sampleAt_congr m h (by omega) hab
    simp [hleft, hright]

/-- Every output frame of a release of `n` frames is made from one of these. -/
theorem source_lt (hrate : 0 < rate) (hi : i < outFrames rate n) : i * rate / nxRate < n := by
  unfold outFrames at hi
  dsimp only at hi
  have hwrap : u32 (n * nxRate) ≤ n * nxRate := Nat.mod_le _ _
  have hprod : i * rate < n * nxRate := by
    split at hi
    case isTrue hone =>
      have hzero : i = 0 := by omega
      rw [hzero, Nat.zero_mul]
      exact Nat.mul_pos (by omega) (by decide)
    case isFalse =>
      have hmul := (Nat.le_div_iff_mul_le hrate).mp (Nat.succ_le_of_lt hi)
      rw [Nat.succ_mul] at hmul
      omega
  exact (Nat.div_lt_iff_lt_mul (by decide)).mpr hprod

theorem srcFrame_eq (hrate : 0 < rate) (hn : n < 4294967296) (hi : i < outFrames rate n) :
    srcFrame rate i = i * rate / nxRate := by
  have hlt := source_lt hrate hi
  exact u32_eq (by omega)

theorem frame_end_le {rate n i : Nat} (hrate : 0 < rate) (hi : i < outFrames rate n) (bytes : Nat) :
    i * rate / nxRate * bytes + bytes ≤ n * bytes := by
  rw [← Nat.succ_mul]
  exact Nat.mul_le_mul_right _ (source_lt hrate hi)

variable {s : Stream}

theorem releasedFrame_congr (m : Machine) (h : s.source.Accepted) (silent : Bool)
    (hn : n ≤ 96000) (hi : i < outFrames s.source.rate n)
    (hsame : ∀ k < n * s.source.frameBytes, scratch k = s.scratch k) :
    releasedFrame m { s with scratch } silent i = releasedFrame m s silent i := by
  have hend := frame_end_le h.rate_pos hi s.source.frameBytes
  refine storeFrame_congr m h s.volume silent fun k hk => hsame _ ?_
  dsimp only at hk ⊢
  rw [srcFrame_eq h.rate_pos (by omega) hi]
  have hwrap : u32 (i * s.source.rate / nxRate * s.source.frameBytes) ≤
      i * s.source.rate / nxRate * s.source.frameBytes := Nat.mod_le _ _
  omega

theorem originOf_congr (h : s.source.Accepted) (silent : Bool)
    (hi : i < outFrames s.source.rate n) (hsame : ∀ k < n * s.source.frameBytes, scratch k = s.scratch k) :
    originOf { s with scratch } silent i = originOf s silent i := by
  have hend := frame_end_le h.rate_pos hi s.source.frameBytes
  unfold originOf
  dsimp only
  congr 1
  funext k
  split
  · exact hsame _ (by omega)
  · rfl

/-! Which rates and capacities agree. -/

/-- The scratch buffer has room for a whole capacity of source frames, and no number of source frames below
it becomes more output frames. -/
def Fits (rate capacity : Nat) : Prop :=
  capacity ≤ u32 (capacity * rate) / nxRate + 2 ∧
    (nxRate ≤ rate ∨ min capacity 89478 * (nxRate - rate) < rate)

instance (rate capacity : Nat) : Decidable (Fits rate capacity) := inferInstanceAs (Decidable (_ ∧ _))

/-- Without a wrap, a quotient is no more than `n` as long as the lower rate does not lose a frame. -/
theorem div_le_iff (hrate : 0 < rate) (hlt : rate < nxRate) (n : Nat) :
    n * nxRate / rate ≤ n ↔ n * (nxRate - rate) < rate := by
  obtain ⟨d, hd⟩ := Nat.exists_eq_add_of_lt hlt
  rw [← Nat.lt_succ_iff, Nat.div_lt_iff_lt_mul hrate, hd, Nat.add_assoc, Nat.add_sub_cancel_left,
    Nat.mul_add, Nat.succ_mul]
  omega

theorem Fits.frames_le (h : Fits rate capacity) (hrate : 0 < rate) (hn : n ≤ capacity) :
    outFrames rate n ≤ n := by
  have hquot : u32 (n * nxRate) / rate ≤ n := by
    have hwrap : u32 (n * nxRate) / rate ≤ n * nxRate / rate := Nat.div_le_div_right (Nat.mod_le _ _)
    refine Nat.le_trans hwrap ?_
    by_cases hlt : rate < nxRate
    · rw [div_le_iff hrate hlt]
      rcases h.2 with hge | hfit
      · omega
      · -- a capacity above 89478 would need a rate above `nxRate`
        have hcases : n ≤ min capacity 89478 := by
          by_contra hbig
          have hmin : min capacity 89478 = 89478 := by omega
          rw [hmin] at hfit
          unfold nxRate at *
          omega
        exact Nat.lt_of_le_of_lt (Nat.mul_le_mul_right _ hcases) hfit
    · rw [Nat.div_le_iff_le_mul_add_pred hrate]
      have hmul := Nat.mul_le_mul_left n (Nat.le_of_not_lt hlt)
      rw [Nat.mul_comm rate n]
      omega
  unfold outFrames
  dsimp only
  split
  · omega
  · exact hquot

theorem Source.Accepted.frameBytes_pos (h : source.Accepted) : 0 < source.frameBytes := by
  rw [h.bytes]
  rcases h.channels with hc | hc <;> rcases h.bits with hb | hb | hb | hb <;> rw [hc, hb] <;> decide

theorem Source.Accepted.frameBytes_le (h : source.Accepted) : source.frameBytes ≤ 8 := by
  rw [h.bytes]
  rcases h.channels with hc | hc <;> rcases h.bits with hb | hb | hb | hb <;> rw [hc, hb] <;> decide

theorem scratchBytesOf_eq (h : source.Accepted) (capacity : Nat) :
    scratchBytesOf capacity source = (u32 (capacity * source.rate) / nxRate + 2) * source.frameBytes := by
  have hframe := h.frameBytes_le
  have hwrap : u32 (capacity * source.rate) < 4294967296 := Nat.mod_lt _ (by decide)
  have hquot : u32 (capacity * source.rate) / nxRate < 89479 :=
    (Nat.div_lt_iff_lt_mul (by decide)).mpr (Nat.lt_of_lt_of_le hwrap (by decide))
  have hprod := Nat.mul_le_mul (Nat.add_le_add_right (Nat.le_of_lt hquot) 2) hframe
  exact u32_eq (Nat.lt_of_le_of_lt hprod (by decide))

/-! The streams of a run. -/

/-- The frames that are granted fit the scratch buffer, and so many or fewer can be given back, with no
other bytes read than theirs. -/
def Grantable (m : Machine) (s : Stream) : Prop :=
  s.locked * s.source.frameBytes ≤ s.scratchBytes ∧
    ∀ n ≤ s.locked, ∀ flags : UInt32, flags &&& ~~~2 = 0 →
      (releaseRenderBuffer m s n flags).1 = .ok ∧ (releaseRenderBuffer m s n flags).2.locked = 0 ∧
        ∀ scratch : Nat → UInt8, (∀ k < n * s.source.frameBytes, scratch k = s.scratch k) →
          releaseRenderBuffer m { s with scratch } n flags =
            ((releaseRenderBuffer m s n flags).1, { (releaseRenderBuffer m s n flags).2 with scratch })

theorem Stream.Inv.accepted (h : s.Inv output) : s.source.Accepted := by
  obtain ⟨f, tag, hf, htag, hsource⟩ := h.source
  rw [hsource]
  exact nxFormat_accepts hf htag

theorem Stream.Inv.grantable (h : s.Inv output) (m : Machine)
    (hfits : Fits s.source.rate s.capacity) : Grantable m s := by
  have haccepted := h.accepted
  have hlocked := h.locked
  have hmost := h.most
  refine ⟨?_, fun n hn flags hflags => ?_⟩
  · rw [h.bytes, scratchBytesOf_eq haccepted]
    have := hfits.1
    exact Nat.mul_le_mul_right _ (by omega)
  · have hout := hfits.frames_le haccepted.rate_pos (n := n) (by omega)
    have hroom : ¬ outFrames s.source.rate n > sub32 s.capacity s.held := by
      rw [sub32_eq h.held (by omega)]
      omega
    have hopen : ¬ (n ≠ 0 ∧ s.locked = 0) := by omega
    unfold Audio.releaseRenderBuffer
    simp only [if_neg (not_not.mpr hflags), if_neg hopen, if_neg (Nat.not_lt.mpr hn), if_neg hroom]
    refine ⟨trivial, trivial, fun scratch hsame => ?_⟩
    have hframe : ∀ i ∈ List.range (outFrames s.source.rate n),
        releasedFrame m { s with scratch } (flags &&& 2 ≠ 0) i = releasedFrame m s (flags &&& 2 ≠ 0) i :=
      fun i hi => releasedFrame_congr m haccepted _ (by omega) (mem_range.mp hi) hsame
    rw [map_congr_left hframe]
    congr 2
    · refine foldl_ext _ _ _ fun ring i hi => ?_
      rw [hframe i hi]
    · congr 1
      refine foldl_ext _ _ _ fun origin i hi => ?_
      rw [originOf_congr haccepted _ (mem_range.mp hi) hsame]

/-! Runs that reach every fill level. -/

/-- The run with one stream of a format and a duration. -/
def createRun (f : WaveFormat) (duration : Nat) : List Op := [.testConnect true, .create f duration false true]

def singleFrames : Nat → List Op
  | 0 => []
  | k + 1 => .getBuffer 0 1 :: .releaseBuffer 0 1 0 :: singleFrames k

/-- The only stream, which holds `k` frames and has `n` granted. -/
structure Filled (f : WaveFormat) (tag : Coding) (duration k n : Nat) (s : Stream) : Prop where
  handle : s.handle = 0
  failed : s.failed = false
  source : s.source = sourceOf f tag
  capacity : s.capacity = capacityOf duration
  bytes : s.scratchBytes = scratchBytesOf s.capacity s.source
  held : s.held = k
  locked : s.locked = n

theorem createRun_filled (m : Machine) (hf : nxFormat f = true) (htag : nxFormatTag f = some tag)
    (hd : duration ≤ 20000000) :
    ∃ s, (run (step m) {} (createRun f duration)).active = [s] ∧ Filled f tag duration 0 0 s := by
  have hrange : ¬ ((duration : Int) < 0 ∨ (duration : Int) > 20000000) := by omega
  simp only [createRun, run_cons, step, createStream, hf, htag, if_neg hrange]
  exact ⟨_, rfl, rfl, rfl, rfl, rfl, rfl, rfl, rfl⟩

variable {w : World}

theorem getBuffer_filled (m : Machine) (hw : w.active = [s]) (h : Filled f tag duration k 0 s)
    (hd : duration ≤ 20000000) (hn : k + n ≤ capacityOf duration) :
    ∃ s', (step m w (.getBuffer 0 n)).active = [s'] ∧ Filled f tag duration k n s' := by
  obtain ⟨-, hmost⟩ := capacityOf_bounds hd
  have hroom : ¬ u32 n > sub32 s.capacity s.held := by
    rw [u32_eq (by omega), h.capacity, h.held, sub32_eq (by omega) (by omega)]
    omega
  have hget : (getRenderBuffer s (u32 n)).2 = { s with locked := n } := by
    unfold getRenderBuffer
    rw [if_neg (not_not.mpr h.locked), if_neg (by rw [h.failed]; decide), if_neg hroom, u32_eq (by omega)]
  refine ⟨{ s with locked := n }, ?_, { h with locked := rfl }⟩
  rw [step, onStream, hw, map_singleton, if_pos h.handle, hget]

theorem releaseBuffer_filled (m : Machine) (hw : w.active = [s]) (h : Filled f tag duration k 1 s)
    (hd : duration ≤ 20000000) (hone : outFrames (sourceOf f tag).rate 1 = 1)
    (hk : k + 1 ≤ capacityOf duration) :
    ∃ s', (step m w (.releaseBuffer 0 1 0)).active = [s'] ∧ Filled f tag duration (k + 1) 0 s' := by
  obtain ⟨-, hmost⟩ := capacityOf_bounds hd
  have hout : outFrames s.source.rate 1 = 1 := by rw [h.source, hone]
  have hroom : ¬ 1 > sub32 s.capacity s.held := by
    rw [h.capacity, h.held, sub32_eq (by omega) (by omega)]
    omega
  refine ⟨(releaseRenderBuffer m s 1 0).2, ?_, ?_⟩
  · have hu : u32 1 = 1 := rfl
    rw [step, onStream, hw, map_singleton, if_pos h.handle, hu]
  · have hheld : u32 (s.held + 1) = k + 1 := by rw [h.held, u32_eq (by omega)]
    unfold releaseRenderBuffer
    simp only [hout, if_neg hroom, h.locked]
    exact { h with held := hheld, locked := rfl }

theorem singleFrames_filled (m : Machine) (hd : duration ≤ 20000000)
    (hone : outFrames (sourceOf f tag).rate 1 = 1) (n : Nat) (hw : w.active = [s])
    (h : Filled f tag duration k 0 s) (hn : k + n ≤ capacityOf duration) :
    ∃ s', (run (step m) w (singleFrames n)).active = [s'] ∧ Filled f tag duration (k + n) 0 s' := by
  induction n generalizing w s k with
  | zero => exact ⟨s, hw, h⟩
  | succ n ih =>
    obtain ⟨s1, hw1, h1⟩ := getBuffer_filled m hw h hd (n := 1) (by omega)
    obtain ⟨s2, hw2, h2⟩ := releaseBuffer_filled m hw1 h1 hd hone (by omega)
    obtain ⟨s3, hw3, h3⟩ := ih hw2 h2 (by omega)
    rw [Nat.add_assoc, Nat.add_comm 1 n] at h3
    exact ⟨s3, hw3, h3⟩

/-- `k` frames held and `n` granted, with no frame held or one made of each source frame. -/
theorem exists_filled (m : Machine) (hf : nxFormat f = true) (htag : nxFormatTag f = some tag)
    (hd : duration ≤ 20000000) (hk : k = 0 ∨ outFrames (sourceOf f tag).rate 1 = 1)
    (hn : k + n ≤ capacityOf duration) :
    ∃ ops s, (run (step m) {} ops).active = [s] ∧ Filled f tag duration k n s := by
  obtain ⟨s1, hw1, h1⟩ := createRun_filled m hf htag hd
  have hheld : ∃ ops s, (run (step m) {} ops).active = [s] ∧ Filled f tag duration k 0 s := by
    rcases hk with rfl | hone
    · exact ⟨_, s1, hw1, h1⟩
    · obtain ⟨s2, hw2, h2⟩ := singleFrames_filled m hd hone k hw1 h1 (by omega)
      rw [← run_append] at hw2
      rw [Nat.zero_add] at h2
      exact ⟨_, s2, hw2, h2⟩
  obtain ⟨ops, s2, hw2, h2⟩ := hheld
  obtain ⟨s3, hw3, h3⟩ := getBuffer_filled m hw2 h2 hd hn
  refine ⟨ops ++ [.getBuffer 0 n], s3, ?_, h3⟩
  rw [run_append]
  exact hw3

/-- A grant that can be given back has room for what is made of it. -/
theorem Grantable.room (h : Grantable m s) (hs : Filled f tag duration k n s) (hd : duration ≤ 20000000)
    (hk : k ≤ capacityOf duration) : outFrames (sourceOf f tag).rate n + k ≤ capacityOf duration := by
  obtain ⟨-, hmost⟩ := capacityOf_bounds hd
  have hle : n ≤ s.locked := Nat.le_of_eq hs.locked.symm
  have hok := (h.2 n hle 0 rfl).1
  by_contra hroom
  have hfull : outFrames s.source.rate n > sub32 s.capacity s.held := by
    rw [hs.source, hs.capacity, hs.held, sub32_eq hk (by omega)]
    omega
  simp [releaseRenderBuffer, hfull, hs.locked] at hok

/-- Of a format and a duration that `nx_create_stream` accepts, every grant in every run can be written and
given back just when rate and capacity agree. -/
theorem granted_buffer_fits_iff (f : WaveFormat) (tag : Coding) (duration : Nat) (hf : nxFormat f = true)
    (htag : nxFormatTag f = some tag) (hd : duration ≤ 20000000) :
    (∀ (m : Machine) (ops : List Op), ∀ s ∈ (run (step m) {} ops).active,
        s.source = sourceOf f tag → s.capacity = capacityOf duration → Grantable m s) ↔
      Fits f.samplesPerSec.toNat (capacityOf duration) := by
  have haccepted := nxFormat_accepts hf htag
  have hrate : 0 < f.samplesPerSec.toNat := haccepted.rate_pos
  obtain ⟨hleast, hmost⟩ := capacityOf_bounds hd
  have hsourceRate : (sourceOf f tag).rate = f.samplesPerSec.toNat := rfl
  constructor
  · intro hall
    let m : Machine := ⟨fun _ => 0, fun _ => 0⟩
    have hgrant : ∀ k n, (k = 0 ∨ outFrames f.samplesPerSec.toNat 1 = 1) → k + n ≤ capacityOf duration →
        ∃ s, Filled f tag duration k n s ∧ Grantable m s := by
      intro k n hk hn
      obtain ⟨ops, s, hw, hs⟩ := exists_filled m hf htag hd hk hn
      exact ⟨s, hs, hall m ops s (hw ▸ mem_singleton_self s) hs.source hs.capacity⟩
    refine ⟨?_, ?_⟩
    · obtain ⟨s, hs, hg⟩ := hgrant 0 (capacityOf duration) (.inl rfl) (by omega)
      have hbytes := hg.1
      rw [hs.locked, hs.bytes, hs.capacity, hs.source, scratchBytesOf_eq haccepted] at hbytes
      exact Nat.le_of_mul_le_mul_right hbytes haccepted.frameBytes_pos
    · by_contra hneither
      obtain ⟨hlow, hfit⟩ := not_or.mp hneither
      have hlt : f.samplesPerSec.toNat < nxRate := Nat.lt_of_not_le hlow
      -- so many source frames, without a wrap, become more output frames
      obtain ⟨n, hn⟩ : ∃ n, n = min (capacityOf duration) 89478 := ⟨_, rfl⟩
      rw [← hn, ← div_le_iff hrate hlt] at hfit
      have hquot : outFrames f.samplesPerSec.toNat n = n * nxRate / f.samplesPerSec.toNat := by
        unfold outFrames
        rw [u32_eq (by unfold nxRate; omega), if_neg (by omega)]
      by_cases hhalf : f.samplesPerSec.toNat ≤ 24000
      · obtain ⟨s, hs, hg⟩ := hgrant 0 n (.inl rfl) (by omega)
        have hroom := hg.room hs hd (by omega)
        have htwice : n * 2 ≤ n * nxRate / f.samplesPerSec.toNat := by
          rw [Nat.le_div_iff_mul_le hrate, Nat.mul_assoc]
          exact Nat.mul_le_mul_left n (by unfold nxRate; omega)
        rw [hsourceRate, hquot] at hroom
        omega
      · have hone : outFrames f.samplesPerSec.toNat 1 = 1 := by
          have hdiv : nxRate / f.samplesPerSec.toNat = 1 :=
            Nat.div_eq_of_lt_le (by omega) (by unfold nxRate; omega)
          unfold outFrames
          rw [u32_eq (by decide), Nat.one_mul, hdiv]
          rfl
        obtain ⟨s, hs, hg⟩ := hgrant (capacityOf duration - n) n (.inr hone) (by omega)
        have hroom := hg.room hs hd (by omega)
        rw [hsourceRate, hquot] at hroom
        omega
  · intro hfits m ops s hs hsource hcap
    refine (run_inv m ops s hs).grantable m ?_
    rw [hsource, hcap]
    exact hfits

theorem granted_buffer_fits_mono :
    Fits 48000 3840 ∧ ∀ (m : Machine) (ops : List Op), ∀ s ∈ (run (step m) {} ops).active,
      s.source = sourceOf monoFormat .pcm → s.capacity = capacityOf 0 → Grantable m s :=
  ⟨by decide, (granted_buffer_fits_iff monoFormat .pcm 0 rfl rfl (by decide)).mpr (by decide)⟩

/-- Two seconds at 48 kHz: the size of the scratch buffer has wrapped, the grant is for all of them. -/
theorem two_seconds_do_not_fit :
    ∃ s ∈ (run (step plainMachine) {} (createRun monoFormat 20000000 ++ [.getBuffer 0 96000])).active,
      s.locked = 96000 ∧ s.source.frameBytes = 2 ∧ s.scratchBytes = 13046 ∧
        ¬ s.locked * s.source.frameBytes ≤ s.scratchBytes := by
  decide +kernel

end Autorun.Audio
