import Autorun.Proofs.AudioBuffers
import Mathlib.Algebra.Order.Field.Rat
import Mathlib.Tactic.Linarith
import Mathlib.Tactic.Ring

namespace Autorun.Audio
open Lib List

/-! Numbers without their fraction. -/

@[simp] theorem trunc_intCast (n : Int) : trunc n = n := by
  simp [trunc]

variable {x v : ℚ}

theorem trunc_of_nonneg (h : 0 ≤ x) : trunc x = ⌊x⌋ := by
  rw [Rat.floor_def', trunc]
  exact Int.tdiv_eq_ediv_of_nonneg (Rat.num_nonneg.mpr h)

theorem trunc_neg (x : ℚ) : trunc (-x) = -trunc x := by
  simp [trunc]

theorem trunc_of_nonpos (h : x ≤ 0) : trunc x = -⌊-x⌋ := by
  rw [← trunc_of_nonneg (neg_nonneg.mpr h), trunc_neg, Int.neg_neg]

theorem trunc_eq_zero (hlo : -1 < x) (hhi : x < 1) : trunc x = 0 := by
  rcases le_total 0 x with h | h
  · rw [trunc_of_nonneg h]
    exact Int.floor_eq_zero_iff.mpr ⟨h, hhi⟩
  · rw [trunc_of_nonpos h, Int.floor_eq_zero_iff.mpr ⟨neg_nonneg.mpr h, by linarith⟩, Int.neg_zero]

theorem toShort_of_range (m : Machine) (hlo : -32768 ≤ trunc x) (hhi : trunc x ≤ 32767) :
    toShort m x = trunc x := if_pos ⟨hlo, hhi⟩

variable {n mix : Int}

theorem nxSample_of_range (hlo : -32768 ≤ n) (hhi : n ≤ 32767) : nxSample n = n := by
  unfold nxSample
  rw [if_neg (by omega), if_neg (by omega)]

/-! The samples of a format. -/

variable {source : Source}

theorem sampleAt_pcm (m : Machine) (hpcm : source.tag = .pcm) (frame : Nat → UInt8) (c : Nat) :
    sampleAt m source frame c =
      if source.bits = 8 then (((frame c).toNat : Int) - 128) * 256
      else if source.bits = 16 then signed 32768 (leNat (fun k => frame (c * 2 + k)) 2)
      else if source.bits = 24 then signed 8388608 (leNat (fun k => frame (c * 3 + k)) 3)
      else signed 2147483648 (leNat (fun k => frame (c * 4 + k)) 4) / 65536 := by
  unfold sampleAt
  rw [if_neg (by rw [hpcm]; decide)]

theorem leNat_lt (n : Nat) (bytes : Nat → UInt8) : leNat bytes n < 256 ^ n := by
  induction n generalizing bytes with
  | zero => exact Nat.one_pos
  | succ n ih =>
    have hone := (bytes 0).toNat_lt
    have hrest := ih fun k => bytes (k + 1)
    unfold leNat
    omega

theorem signed_bounds (half : Nat) {n : Nat} (h : n < 2 * half) : -(half : Int) ≤ signed half n ∧ signed half n < half := by
  unfold signed
  split <;> omega

theorem signed_div (half high : Nat) {d low : Nat} (h : low < d) :
    signed (half * d) (low + d * high) / (d : Int) = signed half high := by
  have hd : (d : Int) ≠ 0 := by omega
  have hlow : (low : Int) / d = 0 := Int.ediv_eq_zero_of_lt (by omega) (by omega)
  have hsplit : low + d * high < half * d ↔ high < half := by
    rw [Nat.mul_comm half d]
    constructor
    · intro hlt
      exact Nat.lt_of_mul_lt_mul_left (a := d) (by omega)
    · intro hlt
      have hmul := Nat.mul_le_mul_left d hlt
      rw [Nat.mul_succ] at hmul
      omega
  unfold signed
  by_cases hhigh : high < half
  · rw [if_pos hhigh, if_pos (hsplit.mpr hhigh)]
    push_cast
    rw [Int.add_mul_ediv_left _ _ hd, hlow, Int.zero_add]
  · rw [if_neg hhigh, if_neg fun hlt => hhigh (hsplit.mp hlt)]
    have heq : ((low + d * high : Nat) : Int) - 2 * ((half * d : Nat) : Int) = low + d * (high - 2 * half) := by
      push_cast
      ring
    rw [heq, Int.add_mul_ediv_left _ _ hd, hlow, Int.zero_add]

def InRange (bits : Nat) (x : Int) : Prop :=
  if bits = 24 then -8388608 ≤ x ∧ x ≤ 8388607 else -32768 ≤ x ∧ x ≤ 32767

theorem inRange_of_short (bits : Nat) {x : Int} (hlo : -32768 ≤ x) (hhi : x ≤ 32767) : InRange bits x := by
  unfold InRange
  split <;> omega

/-- The 16 highest bits of a decoded sample. -/
def topOf (bits : Nat) (x : Int) : Int := if bits = 24 then x / 256 else x

theorem sampleAt_range (m : Machine) (hpcm : source.tag = .pcm) (h : source.Accepted)
    (frame : Nat → UInt8) (c : Nat) : InRange source.bits (sampleAt m source frame c) := by
  rw [sampleAt_pcm m hpcm]
  unfold InRange
  rcases h.bits with hb | hb | hb | hb
  all_goals simp only [hb, if_true, Nat.reduceEqDiff, if_false]
  · have hbyte := (frame c).toNat_lt
    omega
  · have := signed_bounds 32768 (leNat_lt 2 fun k => frame (c * 2 + k))
    omega
  · have := signed_bounds 8388608 (leNat_lt 3 fun k => frame (c * 3 + k))
    omega
  · have := signed_bounds 2147483648 (leNat_lt 4 fun k => frame (c * 4 + k))
    omega

theorem topSample_eq (m : Machine) (hpcm : source.tag = .pcm) (h : source.Accepted)
    (frame : Nat → UInt8) (c : Nat) :
    topSample source frame c = topOf source.bits (sampleAt m source frame c) := by
  rw [sampleAt_pcm m hpcm]
  unfold topSample topOf
  rcases h.bits with hb | hb | hb | hb
  all_goals simp only [hb, if_true, Nat.reduceEqDiff, if_false]
  · rfl
  · have hlow : (frame (c * 3)).toNat < 256 := (frame (c * 3)).toNat_lt
    exact (signed_div 32768 _ hlow).symm
  · have hlow : leNat (fun k => frame (c * 4 + k)) 2 < 65536 := leNat_lt 2 _
    have hsplit : leNat (fun k => frame (c * 4 + k)) 4 =
        leNat (fun k => frame (c * 4 + k)) 2 + 65536 * leNat (fun k => frame (c * 4 + 2 + k)) 2 := by
      simp only [leNat, Nat.add_assoc, Nat.reduceAdd]
      omega
    rw [hsplit]
    exact (signed_div 32768 _ hlow).symm

/-! One channel. -/

/-- The part of a stream in one sample: its format's bits, its volume and the decoded sample. -/
structure Part where
  bits : Nat
  volume : ℚ
  sample : Int

/-- A sample that the format has, and a volume as `nx_set_volumes` leaves it. -/
structure Part.Valid (p : Part) : Prop where
  range : InRange p.bits p.sample
  nonneg : 0 ≤ p.volume
  le_one : p.volume ≤ 1

/-- The sample stored at its release, mixed when it is pumped. -/
def mixPart (m : Machine) (mix : Int) (p : Part) : Int := mixSample mix (toShort m (p.sample * p.volume)) p.volume

def Part.share (p : Part) : Int := trunc (topOf p.bits p.sample * p.volume)

/-- Formats and volumes, in the order of mixing, of which every sample keeps its value: full volume, but not
of 24 bits, or next to none. A 24-bit sample at a volume between 2^-23 and 2^-15 leaves a fraction, which
is nothing by itself and takes one from what a stream of full volume has put in the mix before. -/
def Faithful (full : Bool) : List (Nat × ℚ) → Prop
  | [] => True
  | (bits, volume) :: rest =>
    (volume = 1 ∧ bits ≠ 24 ∧ Faithful true rest) ∨
      (volume < 1 / 32768 ∧ (bits ≠ 24 ∨ volume < 1 / 8388608 ∨ full = false) ∧ Faithful full rest)

variable {p : Part}

variable (m : Machine)

theorem mixPart_full (h : p.Valid) (hbits : p.bits ≠ 24) (hone : p.volume = 1)
    (mix : Int) : mixPart m mix p = mix + p.share := by
  have hrange := h.range
  unfold InRange at hrange
  rw [if_neg hbits] at hrange
  have hstored : toShort m (p.sample * p.volume) = p.sample := by
    rw [hone, mul_one, toShort_of_range] <;> rw [trunc_intCast]
    · exact hrange.1
    · exact hrange.2
  have hsum : (mix : ℚ) + p.sample = ((mix + p.sample : Int) : ℚ) := by push_cast; rfl
  unfold mixPart mixSample Part.share topOf
  rw [hstored, if_neg hbits, hone, mul_one, hsum, trunc_intCast, trunc_intCast]

theorem share_small (h : p.Valid) (hsmall : p.volume < 1 / 32768) : p.share = 0 := by
  have hrange := h.range
  have hnonneg := h.nonneg
  have htop : -32768 ≤ topOf p.bits p.sample ∧ topOf p.bits p.sample ≤ 32767 := by
    unfold InRange at hrange
    unfold topOf
    split at hrange <;> rename_i hb
    · omega
    · rw [if_neg hb]
      exact hrange
  have hlo : (-32768 : ℚ) ≤ topOf p.bits p.sample := by exact_mod_cast htop.1
  have hhi : (topOf p.bits p.sample : ℚ) ≤ 32767 := by exact_mod_cast htop.2
  refine trunc_eq_zero ?_ ?_ <;> nlinarith

theorem stored_zero (h : p.Valid) (hsmall : p.volume < 1 / 32768)
    (hbits : p.bits ≠ 24 ∨ p.volume < 1 / 8388608) : toShort m (p.sample * p.volume) = 0 := by
  have hrange := h.range
  have hnonneg := h.nonneg
  have hzero : trunc (p.sample * p.volume) = 0 := by
    unfold InRange at hrange
    split at hrange
    case isTrue hb =>
      have htiny : p.volume < 1 / 8388608 := hbits.resolve_left fun hne => hne hb
      have hlo : (-8388608 : ℚ) ≤ p.sample := by exact_mod_cast hrange.1
      have hhi : (p.sample : ℚ) ≤ 8388607 := by exact_mod_cast hrange.2
      refine trunc_eq_zero ?_ ?_ <;> nlinarith
    case isFalse =>
      have hlo : (-32768 : ℚ) ≤ p.sample := by exact_mod_cast hrange.1
      have hhi : (p.sample : ℚ) ≤ 32767 := by exact_mod_cast hrange.2
      refine trunc_eq_zero ?_ ?_ <;> nlinarith
  rw [toShort_of_range m (by omega) (by omega), hzero]

/-- A 24-bit sample at a small volume is stored in eight bits. -/
theorem stored_small (h : p.Valid) (hbits : p.bits = 24)
    (hsmall : p.volume < 1 / 32768) :
    -256 ≤ toShort m (p.sample * p.volume) ∧ toShort m (p.sample * p.volume) ≤ 256 := by
  have hrange := h.range
  have hnonneg := h.nonneg
  unfold InRange at hrange
  rw [if_pos hbits] at hrange
  have hlo : (-8388608 : ℚ) ≤ p.sample := by exact_mod_cast hrange.1
  have hhi : (p.sample : ℚ) ≤ 8388607 := by exact_mod_cast hrange.2
  have hbound : -256 ≤ trunc (p.sample * p.volume) ∧ trunc (p.sample * p.volume) ≤ 256 := by
    rcases le_total 0 ((p.sample : ℚ) * p.volume) with hpos | hneg
    · rw [trunc_of_nonneg hpos]
      refine ⟨by have := Int.floor_nonneg.mpr hpos; omega, Int.le_of_lt_add_one (Int.floor_lt.mpr ?_)⟩
      push_cast
      nlinarith
    · rw [trunc_of_nonpos hneg]
      have hfloor : ⌊-((p.sample : ℚ) * p.volume)⌋ < 257 := by
        refine Int.floor_lt.mpr ?_
        push_cast
        nlinarith
      have hnonneg' := Int.floor_nonneg.mpr (neg_nonneg.mpr hneg)
      omega
  rw [toShort_of_range m (by omega) (by omega)]
  exact hbound

theorem mixPart_small (h : p.Valid) (hsmall : p.volume < 1 / 32768)
    (hbits : p.bits ≠ 24 ∨ p.volume < 1 / 8388608 ∨ mix = 0) : mixPart m mix p = mix + p.share := by
  rw [share_small h hsmall, Int.add_zero]
  unfold mixPart mixSample
  by_cases htiny : p.bits ≠ 24 ∨ p.volume < 1 / 8388608
  · rw [stored_zero m h hsmall htiny, Int.cast_zero, zero_mul, add_zero, trunc_intCast]
  · obtain ⟨hb, hlarge⟩ := not_or.mp htiny
    obtain ⟨hlo, hhi⟩ := stored_small m h (not_not.mp hb) hsmall
    have hzero : mix = 0 := (hbits.resolve_left hb).resolve_left hlarge
    have hlo : (-256 : ℚ) ≤ toShort m (p.sample * p.volume) := by exact_mod_cast hlo
    have hhi : (toShort m (p.sample * p.volume) : ℚ) ≤ 256 := by exact_mod_cast hhi
    rw [hzero, Int.cast_zero, zero_add]
    refine trunc_eq_zero ?_ ?_ <;> nlinarith

def shares (ps : List Part) : Int := ps.foldr (fun p sum => p.share + sum) 0

variable {ps : List Part}

theorem Faithful.mix_eq (hps : ∀ p ∈ ps, p.Valid)
    (h : Faithful full (ps.map fun p => (p.bits, p.volume))) (hmix : full = false → mix = 0) :
    ps.foldl (mixPart m) mix = mix + shares ps := by
  -- along the streams; as long as none had full volume, nothing is in the mix
  induction ps generalizing full mix with
  | nil => exact (Int.add_zero mix).symm
  | cons p ps ih =>
    have hp := hps p mem_cons_self
    have hrest := fun q hq => hps q (mem_cons_of_mem p hq)
    rw [foldl_cons]
    rcases h with ⟨hone, hbits, h⟩ | ⟨hsmall, hbits, h⟩
    · rw [mixPart_full m hp hbits hone, ih hrest h (fun hfalse => absurd hfalse (by decide)), Int.add_assoc]
      rfl
    · rw [mixPart_small m hp hsmall (hbits.imp id (Or.imp id hmix)), share_small hp hsmall, Int.add_zero,
        ih hrest h hmix]
      change mix + shares ps = mix + (p.share + shares ps)
      rw [share_small hp hsmall, Int.zero_add]

/-! Samples that do not keep their value. -/

theorem nxSample_eq_zero (h : nxSample n = 0) : n = 0 := by
  unfold nxSample at h
  split at h
  · omega
  split at h <;> omega

theorem mixPart_zero (h : p.sample = 0) (mix : Int) : mixPart m mix p = mix := by
  have hstored : toShort m (p.sample * p.volume) = 0 := by
    have hzero : trunc ((0 : Int) : ℚ) = 0 := trunc_intCast 0
    rw [h, Int.cast_zero, zero_mul, ← Int.cast_zero, toShort_of_range] <;> rw [hzero] <;> decide
  unfold mixPart mixSample
  rw [hstored, Int.cast_zero, zero_mul, add_zero, trunc_intCast]

theorem share_zero (h : p.sample = 0) : p.share = 0 := by
  have htop : topOf p.bits 0 = 0 := by
    unfold topOf
    split <;> rfl
  unfold Part.share
  rw [h, htop, Int.cast_zero, zero_mul, ← Int.cast_zero, trunc_intCast]

theorem foldl_mixPart_zero (h : ∀ p ∈ ps, p.sample = 0) (mix : Int) :
    ps.foldl (mixPart m) mix = mix := by
  induction ps generalizing mix with
  | nil => rfl
  | cons p ps ih =>
    rw [foldl_cons, mixPart_zero m (h p mem_cons_self)]
    exact ih (fun q hq => h q (mem_cons_of_mem p hq)) mix

theorem shares_append (ps qs : List Part) : shares (ps ++ qs) = shares ps + shares qs := by
  induction ps with
  | nil => exact (Int.zero_add _).symm
  | cons p ps ih =>
    change p.share + shares (ps ++ qs) = p.share + shares ps + shares qs
    rw [ih, Int.add_assoc]

theorem shares_zero (h : ∀ p ∈ ps, p.sample = 0) : shares ps = 0 := by
  induction ps with
  | nil => rfl
  | cons p ps ih =>
    change p.share + shares ps = 0
    rw [share_zero (h p mem_cons_self), ih fun q hq => h q (mem_cons_of_mem p hq)]
    rfl

theorem trunc_lowest (n : Int) (hv : 0 ≤ (n : ℚ) * v) : trunc (((-n : Int) : ℚ) * v) = -⌊(n : ℚ) * v⌋ := by
  have heq : ((-n : Int) : ℚ) * v = -((n : ℚ) * v) := by
    push_cast
    ring
  rw [heq, trunc_neg, trunc_of_nonneg hv]

theorem toShort_lowest (n : Int) (hv : 0 ≤ (n : ℚ) * v) (hmax : ⌊(n : ℚ) * v⌋ ≤ 32767) :
    toShort m (((-n : Int) : ℚ) * v) = -⌊(n : ℚ) * v⌋ := by
  have hnonneg : 0 ≤ ⌊(n : ℚ) * v⌋ := Int.floor_nonneg.mpr hv
  rw [toShort_of_range, trunc_lowest n hv] <;> rw [trunc_lowest n hv] <;> omega

variable {bits : Nat}

theorem quiet_twice (hbits : bits ≠ 24) (hlo : 1 / 32768 ≤ v) (hhi : v < 1) :
    nxSample (mixPart m 0 ⟨bits, v, -32768⟩) ≠ nxSample (Part.share ⟨bits, v, -32768⟩) := by
  have hnonneg : (0 : ℚ) ≤ ((32768 : Int) : ℚ) * v := mul_nonneg (by norm_num) (by linarith)
  obtain ⟨t, ht⟩ : ∃ t, t = ⌊((32768 : Int) : ℚ) * v⌋ := ⟨_, rfl⟩
  have htlo : 1 ≤ t := by
    rw [ht]
    refine Int.le_floor.mpr ?_
    push_cast
    linarith
  have hthi : t ≤ 32767 := by
    rw [ht]
    refine Int.le_of_lt_add_one (Int.floor_lt.mpr ?_)
    push_cast
    linarith
  have hstored : trunc (((-32768 : Int) : ℚ) * v) = -t := ht ▸ trunc_lowest 32768 hnonneg
  have hshort : toShort m (((-32768 : Int) : ℚ) * v) = -t := ht ▸ toShort_lowest m 32768 hnonneg (ht ▸ hthi)
  have hmix : mixPart m 0 ⟨bits, v, -32768⟩ = -⌊(t : ℚ) * v⌋ := by
    have htq : (0 : ℚ) ≤ t := by exact_mod_cast (by omega : 0 ≤ t)
    have heq : ((0 : Int) : ℚ) + ((-t : Int) : ℚ) * v = -((t : ℚ) * v) := by push_cast; ring
    unfold mixPart mixSample
    rw [hshort, heq, trunc_neg, trunc_of_nonneg (mul_nonneg htq (by linarith))]
  have hshare : Part.share ⟨bits, v, -32768⟩ = -t := by
    unfold Part.share topOf
    rw [if_neg hbits]
    exact hstored
  have htq : (1 : ℚ) ≤ t := by exact_mod_cast htlo
  have hless : ⌊(t : ℚ) * v⌋ < t := Int.floor_lt.mpr (by nlinarith)
  have hzero : 0 ≤ ⌊(t : ℚ) * v⌋ := Int.floor_nonneg.mpr (mul_nonneg (by linarith) (by linarith))
  rw [hmix, hshare, nxSample_of_range (by omega) (by omega), nxSample_of_range (by omega) (by omega)]
  omega

/-- A 24-bit sample is mixed like its negative, of which the highest bits are not the negative ones. -/
theorem low_bits_heard (hlo : 1 / 32768 ≤ v) (hhi : v ≤ 1) :
    ∃ x : Int, 0 ≤ x ∧ x ≤ 8388607 ∧
      ¬ (nxSample (mixPart m 0 ⟨24, v, x⟩) = nxSample (Part.share ⟨24, v, x⟩) ∧
        nxSample (mixPart m 0 ⟨24, v, -x⟩) = nxSample (Part.share ⟨24, v, -x⟩)) := by
  have hv : 0 < v := lt_of_lt_of_le (by norm_num) hlo
  obtain ⟨k, hk⟩ : ∃ k, k = ⌈1 / v⌉ := ⟨_, rfl⟩
  have hupper : 1 ≤ (k : ℚ) * v := by
    rw [hk]
    exact (div_le_iff₀ hv).mp (Int.le_ceil _)
  have hlower : ((k : ℚ) - 1) * v < 1 := by
    have := Int.ceil_lt_add_one (1 / v)
    rw [← hk] at this
    exact (lt_div_iff₀ hv).mp (by linarith)
  have hkpos : 1 ≤ k := by
    rw [hk]
    exact Int.one_le_ceil_iff.mpr (by positivity)
  have hkmax : k ≤ 32768 := by
    rw [hk]
    refine Int.ceil_le.mpr ((div_le_iff₀ hv).mpr ?_)
    push_cast
    linarith
  obtain ⟨x, hx⟩ : ∃ x, x = 256 * (k - 1) + 1 := ⟨_, rfl⟩
  refine ⟨x, by omega, by omega, fun ⟨hplus, hminus⟩ => ?_⟩
  have hxq : (x : ℚ) * v = 256 * (((k : ℚ) - 1) * v) + v := by
    rw [hx]
    push_cast
    ring
  have hxnonneg : 0 ≤ (x : ℚ) * v := by
    linarith
  have hstored : 0 ≤ trunc ((x : ℚ) * v) ∧ trunc ((x : ℚ) * v) ≤ 257 := by
    rw [trunc_of_nonneg hxnonneg]
    refine ⟨Int.floor_nonneg.mpr hxnonneg, Int.le_of_lt_add_one (Int.floor_lt.mpr ?_)⟩
    push_cast
    linarith
  have hneg : ((-x : Int) : ℚ) * v = -((x : ℚ) * v) := by push_cast; ring
  have hshort : toShort m (((-x : Int) : ℚ) * v) = -toShort m ((x : ℚ) * v) := by
    rw [toShort_of_range m (x := (x : ℚ) * v) (by omega) (by omega), toShort_of_range, hneg, trunc_neg] <;>
      rw [hneg, trunc_neg] <;> omega
  have hodd : mixPart m 0 ⟨24, v, -x⟩ = -mixPart m 0 ⟨24, v, x⟩ := by
    have heq : ((0 : Int) : ℚ) + ((-toShort m ((x : ℚ) * v) : Int) : ℚ) * v =
        -(((0 : Int) : ℚ) + (toShort m ((x : ℚ) * v) : ℚ) * v) := by push_cast; ring
    unfold mixPart mixSample
    rw [hshort, heq, trunc_neg]
  have hplusShare : Part.share ⟨24, v, x⟩ = 0 := by
    have htop : topOf 24 x = k - 1 := by
      unfold topOf
      omega
    unfold Part.share
    rw [htop]
    push_cast
    exact trunc_eq_zero (by linarith) hlower
  have hminusShare : Part.share ⟨24, v, -x⟩ ≠ 0 := by
    have htop : topOf 24 (-x) = -k := by
      unfold topOf
      omega
    have hfloor : 1 ≤ ⌊(k : ℚ) * v⌋ := Int.le_floor.mpr (by exact_mod_cast hupper)
    have heq : ((-k : Int) : ℚ) * v = -((k : ℚ) * v) := by push_cast; ring
    unfold Part.share
    rw [htop, heq, trunc_neg, trunc_of_nonneg (by linarith)]
    omega
  rw [hplusShare] at hplus
  have hzero : mixPart m 0 ⟨24, v, x⟩ = 0 := nxSample_eq_zero hplus
  rw [hodd, hzero] at hminus
  exact hminusShare (nxSample_eq_zero hminus.symm)

theorem fraction_heard (hlo : 1 / 8388608 ≤ v) (hhi : v < 1 / 32768) :
    mixPart m 256 ⟨24, v, -8388608⟩ = 255 := by
  have hnonneg : (0 : ℚ) ≤ ((8388608 : Int) : ℚ) * v := mul_nonneg (by norm_num) (by linarith)
  obtain ⟨t, ht⟩ : ∃ t, t = ⌊((8388608 : Int) : ℚ) * v⌋ := ⟨_, rfl⟩
  have htlo : 1 ≤ t := by
    rw [ht]
    refine Int.le_floor.mpr ?_
    push_cast
    linarith
  have hthi : t ≤ 255 := by
    rw [ht]
    refine Int.le_of_lt_add_one (Int.floor_lt.mpr ?_)
    push_cast
    linarith
  have hshort : toShort m (((-8388608 : Int) : ℚ) * v) = -t := by
    rw [ht]
    exact toShort_lowest m 8388608 hnonneg (by omega)
  have htq : (1 : ℚ) ≤ t := by exact_mod_cast htlo
  have htq' : (t : ℚ) ≤ 255 := by exact_mod_cast hthi
  have hsmall : 0 < (t : ℚ) * v ∧ (t : ℚ) * v < 1 := ⟨by nlinarith, by nlinarith⟩
  have heq : ((256 : Int) : ℚ) + ((-t : Int) : ℚ) * v = 256 - (t : ℚ) * v := by push_cast; ring
  unfold mixPart mixSample
  rw [hshort, heq, trunc_of_nonneg (by linarith)]
  refine Int.floor_eq_iff.mpr ⟨?_, ?_⟩
  · push_cast
    linarith
  · push_cast
    linarith

variable {cs : List (Nat × ℚ)}

/-- Where a list of formats and volumes is not faithful: at a stream that is neither full nor next to silent, or
at a 24-bit one whose fraction is heard behind a full one. -/
theorem exists_of_not_faithful (h : ¬ Faithful full cs) :
    ∃ pre bits v post, cs = pre ++ (bits, v) :: post ∧
      ((1 / 32768 ≤ v ∧ (v ≠ 1 ∨ bits = 24)) ∨
        (bits = 24 ∧ 1 / 8388608 ≤ v ∧ v < 1 / 32768 ∧
          (full = true ∨ ∃ first b second, pre = first ++ (b, 1) :: second ∧ b ≠ 24))) := by
  induction cs generalizing full with
  | nil => exact absurd trivial h
  | cons c cs ih =>
    obtain ⟨bits, v⟩ := c
    obtain ⟨hfull, hsmall⟩ := not_or.mp h
    by_cases hone : v = 1 ∧ bits ≠ 24
    · have hrest : ¬ Faithful true cs := fun hr => hfull ⟨hone.1, hone.2, hr⟩
      obtain ⟨pre, b, u, post, rfl, hat⟩ := ih hrest
      refine ⟨(bits, v) :: pre, b, u, post, rfl, hat.imp id fun hfraction => ?_⟩
      refine ⟨hfraction.1, hfraction.2.1, hfraction.2.2.1, .inr ⟨[], bits, pre, ?_, hone.2⟩⟩
      rw [hone.1]
      rfl
    by_cases hlarge : 1 / 32768 ≤ v
    · refine ⟨[], bits, v, cs, rfl, .inl ⟨hlarge, ?_⟩⟩
      by_cases hv : v = 1
      · exact .inr (not_not.mp fun hb => hone ⟨hv, hb⟩)
      · exact .inl hv
    · have hlt : v < 1 / 32768 := lt_of_not_ge hlarge
      by_cases hquiet : bits ≠ 24 ∨ v < 1 / 8388608 ∨ full = false
      · have hrest : ¬ Faithful full cs := fun hr => hsmall ⟨hlt, hquiet, hr⟩
        obtain ⟨pre, b, u, post, rfl, hat⟩ := ih hrest
        refine ⟨(bits, v) :: pre, b, u, post, rfl, hat.imp id fun hfraction => ?_⟩
        refine ⟨hfraction.1, hfraction.2.1, hfraction.2.2.1, hfraction.2.2.2.imp id ?_⟩
        rintro ⟨first, b', second, rfl, hb'⟩
        exact ⟨(bits, v) :: first, b', second, rfl, hb'⟩
      · obtain ⟨hb, hrest⟩ := not_or.mp hquiet
        obtain ⟨hv, hnot⟩ := not_or.mp hrest
        refine ⟨[], bits, v, cs, rfl, .inr ⟨not_not.mp hb, le_of_not_gt hv, hlt, .inl ?_⟩⟩
        exact Bool.eq_true_of_not_eq_false hnot

def silence (cs : List (Nat × ℚ)) : List Part := cs.map fun c => ⟨c.1, c.2, 0⟩

theorem silence_sample (hp : p ∈ silence cs) : p.sample = 0 := by
  obtain ⟨c, -, rfl⟩ := mem_map.mp hp
  rfl

theorem silence_config (cs : List (Nat × ℚ)) : (silence cs).map (fun p => (p.bits, p.volume)) = cs := by
  unfold silence
  rw [map_map]
  exact map_id cs

theorem mix_alone (pre post : List (Nat × ℚ)) (p : Part) :
    (silence pre ++ p :: silence post).foldl (mixPart m) 0 = mixPart m 0 p ∧
      shares (silence pre ++ p :: silence post) = p.share := by
  have hpre : ∀ q ∈ silence pre, q.sample = 0 := fun q hq => silence_sample hq
  have hpost : ∀ q ∈ silence post, q.sample = 0 := fun q hq => silence_sample hq
  constructor
  · rw [foldl_append, foldl_mixPart_zero m hpre, foldl_cons, foldl_mixPart_zero m hpost]
  · rw [shares_append, shares_zero hpre, Int.zero_add]
    change p.share + shares (silence post) = p.share
    rw [shares_zero hpost, Int.add_zero]

theorem mix_pair (first second post : List (Nat × ℚ)) (p q : Part) :
    (silence first ++ p :: (silence second ++ q :: silence post)).foldl (mixPart m) 0 =
        mixPart m (mixPart m 0 p) q ∧
      shares (silence first ++ p :: (silence second ++ q :: silence post)) = p.share + q.share := by
  have hfirst : ∀ r ∈ silence first, r.sample = 0 := fun r hr => silence_sample hr
  have hsecond : ∀ r ∈ silence second, r.sample = 0 := fun r hr => silence_sample hr
  have hpost : ∀ r ∈ silence post, r.sample = 0 := fun r hr => silence_sample hr
  constructor
  · rw [foldl_append, foldl_mixPart_zero m hfirst, foldl_cons, foldl_append,
      foldl_mixPart_zero m hsecond, foldl_cons, foldl_mixPart_zero m hpost]
  · rw [shares_append, shares_zero hfirst, Int.zero_add]
    change p.share + shares _ = _
    rw [(mix_alone m second post q).2]

/-- A sample that bytes can be given for; those of 8 bits end in zeros. -/
structure Part.Writable (p : Part) : Prop extends p.Valid where
  whole : p.bits = 8 → p.sample % 256 = 0

theorem silence_writable (cs : List (Nat × ℚ)) (h : ∀ c ∈ cs, 0 ≤ c.2 ∧ c.2 ≤ 1) :
    ∀ p ∈ silence cs, p.Writable := by
  intro p hp
  obtain ⟨c, hc, rfl⟩ := mem_map.mp hp
  have hrange : InRange c.1 0 := inRange_of_short c.1 (by decide) (by decide)
  exact ⟨⟨hrange, (h c hc).1, (h c hc).2⟩, fun _ => rfl⟩

/-- If no samples of these formats and volumes show a difference, there is none to be shown. -/
theorem faithful_of_mix (hcs : ∀ c ∈ cs, 0 ≤ c.2 ∧ c.2 ≤ 1)
    (hall : ∀ ps : List Part, ps.map (fun p => (p.bits, p.volume)) = cs → (∀ p ∈ ps, p.Writable) →
      nxSample (ps.foldl (mixPart m) 0) = nxSample (shares ps)) : Faithful false cs := by
  by_contra hnot
  obtain ⟨pre, bits, v, post, rfl, hat⟩ := exists_of_not_faithful hnot
  have hpre := silence_writable _ fun c hc => hcs c (mem_append_left _ hc)
  have hpost := silence_writable _ fun c hc => hcs c (mem_append_right _ (mem_cons_of_mem _ hc))
  obtain ⟨hnonneg, hle⟩ := hcs (bits, v) (mem_append_right _ mem_cons_self)
  have hwrite : ∀ x, InRange bits x → (bits = 8 → x % 256 = 0) →
      nxSample (mixPart m 0 ⟨bits, v, x⟩) = nxSample (Part.share ⟨bits, v, x⟩) := by
    intro x hrange hwhole
    have hps := hall (silence pre ++ ⟨bits, v, x⟩ :: silence post)
      (by rw [map_append, map_cons, silence_config, silence_config]) (by
        intro p hp
        rcases mem_append.mp hp with hp | hp
        · exact hpre p hp
        rcases mem_cons.mp hp with rfl | hp
        · exact ⟨⟨hrange, hnonneg, hle⟩, hwhole⟩
        · exact hpost p hp)
    rwa [(mix_alone m pre post _).1, (mix_alone m pre post _).2] at hps
  rcases hat with ⟨hlarge, hneither⟩ | ⟨rfl, hlo, hhi, hbefore⟩
  · by_cases hbits : bits = 24
    · subst hbits
      obtain ⟨x, hx, hx', hheard⟩ := low_bits_heard m hlarge hle
      refine hheard ⟨hwrite x ?_ (fun h => absurd h (by decide)), hwrite (-x) ?_ fun h => absurd h (by decide)⟩
      · exact ⟨by omega, by omega⟩
      · exact ⟨by omega, by omega⟩
    · have hlt : v < 1 := lt_of_le_of_ne hle (hneither.resolve_right hbits)
      exact quiet_twice m hbits hlarge hlt
        (hwrite _ (inRange_of_short bits (by decide) (by decide)) fun _ => by decide)
  · rcases hbefore with htrue | ⟨first, b, second, rfl, hb⟩
    · cases htrue
    · have hfirst := silence_writable first fun c hc =>
        hcs c (mem_append_left _ (mem_append_left _ hc))
      have hsecond := silence_writable second fun c hc =>
        hcs c (mem_append_left _ (mem_append_right _ (mem_cons_of_mem _ hc)))
      have hrange : InRange b 256 := inRange_of_short b (by decide) (by decide)
      have hloud : Part.Valid ⟨b, 1, 256⟩ := ⟨hrange, by norm_num, le_refl _⟩
      have hlowest : InRange 24 (-8388608) := ⟨by decide, by decide⟩
      have hquiet : Part.Valid ⟨24, v, -8388608⟩ := ⟨hlowest, hnonneg, hle⟩
      have hwide : (24 : Nat) ≠ 8 := by decide
      have hps := hall (silence first ++ ⟨b, 1, 256⟩ :: (silence second ++ ⟨24, v, -8388608⟩ :: silence post))
        (by simp [silence_config]) (by
          intro p hp
          rcases mem_append.mp hp with hp | hp
          · exact hfirst p hp
          rcases mem_cons.mp hp with rfl | hp
          · exact ⟨hloud, fun _ => rfl⟩
          rcases mem_append.mp hp with hp | hp
          · exact hsecond p hp
          rcases mem_cons.mp hp with rfl | hp
          · exact ⟨hquiet, fun h => absurd h hwide⟩
          · exact hpost p hp)
      rw [(mix_pair m first second post _ _).1, (mix_pair m first second post _ _).2,
        mixPart_full m hloud hb rfl, share_small hquiet hhi] at hps
      have hshare : Part.share ⟨b, 1, 256⟩ = 256 := by
        unfold Part.share topOf
        rw [if_neg hb, mul_one, trunc_intCast]
      rw [hshare, Int.zero_add, fraction_heard m hlo hhi] at hps
      exact absurd hps (by decide)

variable {m}

/-! Both channels of a frame. -/

def Origin.stored (m : Machine) (o : Origin) : Frame := storeFrame m o.source o.volume o.silent o.frame

def Origin.left (m : Machine) (o : Origin) : Part where
  bits := o.source.bits
  volume := o.volume.1
  sample := if o.silent then 0 else sampleAt m o.source o.frame 0

def Origin.right (m : Machine) (o : Origin) : Part where
  bits := o.source.bits
  volume := o.volume.2
  sample := if o.silent then 0 else sampleAt m o.source o.frame (if o.source.channels = 1 then 0 else 1)

/-- An integer format that `nx_format` accepts, with volumes between 0 and 1. -/
structure Origin.Valid (o : Origin) : Prop where
  accepted : o.source.Accepted
  pcm : o.source.tag = .pcm
  left : 0 ≤ o.volume.1 ∧ o.volume.1 ≤ 1
  right : 0 ≤ o.volume.2 ∧ o.volume.2 ≤ 1

theorem silent_range {x : Int} (silent : Bool) (h : InRange bits x) :
    InRange bits (if silent then 0 else x) := by
  have hzero : InRange bits 0 := inRange_of_short bits (by decide) (by decide)
  cases silent with
  | true => exact hzero
  | false => exact h

variable {o : Origin}

theorem Origin.Valid.left_valid (h : o.Valid) (m : Machine) : (o.left m).Valid :=
  ⟨silent_range o.silent (sampleAt_range m h.pcm h.accepted o.frame 0), h.left.1, h.left.2⟩

theorem Origin.Valid.right_valid (h : o.Valid) (m : Machine) : (o.right m).Valid :=
  ⟨silent_range o.silent (sampleAt_range m h.pcm h.accepted o.frame _), h.right.1, h.right.2⟩

variable (m : Machine)

theorem Origin.stored_eq (o : Origin) :
    o.stored m = (toShort m ((o.left m).sample * (o.left m).volume),
      toShort m ((o.right m).sample * (o.right m).volume)) := by
  unfold Origin.stored storeFrame Origin.left Origin.right
  cases o.silent with
  | true => rfl
  | false =>
    by_cases hmono : o.source.channels = 1
    · simp only [if_pos hmono]
      rfl
    · simp [if_neg hmono]

theorem Origin.samples_eq (h : o.Valid) (m : Machine) :
    o.samples = (topOf o.source.bits (o.left m).sample, topOf o.source.bits (o.right m).sample) := by
  have htop : topOf o.source.bits 0 = 0 := by
    unfold topOf
    split <;> rfl
  unfold Origin.samples Origin.left Origin.right
  cases o.silent with
  | true => simp [htop]
  | false =>
    simp only [Bool.false_eq_true, if_false]
    rw [topSample_eq m h.pcm h.accepted, topSample_eq m h.pcm h.accepted]

theorem foldl_mixFrame (os : List Origin) (mix : Frame) :
    (os.map fun o => (o.stored m, o.volume)).foldl mixFrame mix =
      ((os.map (·.left m)).foldl (mixPart m) mix.1, (os.map (·.right m)).foldl (mixPart m) mix.2) := by
  induction os generalizing mix with
  | nil => rfl
  | cons o os ih =>
    rw [map_cons, foldl_cons, ih, map_cons, foldl_cons, map_cons, foldl_cons]
    rw [mixFrame, Origin.stored_eq]
    rfl

theorem outputFrame_eq (os : List Origin) :
    outputFrame (os.map fun o => (o.stored m, o.volume)) =
      (nxSample ((os.map (·.left m)).foldl (mixPart m) 0),
        nxSample ((os.map (·.right m)).foldl (mixPart m) 0)) := by
  unfold outputFrame
  rw [foldl_mixFrame]

theorem wantedSample_eq (ps : List Part) :
    wantedSample (ps.map fun p => (topOf p.bits p.sample, p.volume)) = nxSample (shares ps) := by
  unfold wantedSample shares
  rw [foldr_map]
  rfl

variable {os : List Origin}

theorem wantedFrame_eq (hos : ∀ o ∈ os, o.Valid) :
    wantedFrame (os.map fun o => (o.samples, o.volume)) =
      (nxSample (shares (os.map (·.left m))), nxSample (shares (os.map (·.right m)))) := by
  unfold wantedFrame
  rw [← wantedSample_eq, ← wantedSample_eq, map_map, map_map, map_map, map_map]
  congr 2
  · refine map_congr_left fun o ho => ?_
    dsimp only [Function.comp]
    rw [Origin.samples_eq (hos o ho) m]
    rfl
  · refine map_congr_left fun o ho => ?_
    dsimp only [Function.comp]
    rw [Origin.samples_eq (hos o ho) m]
    rfl

/-- One channel, which `part` takes from the source frames. -/
theorem Faithful.channel_eq {part : Origin → Part}
    (hvalid : ∀ o ∈ os, (part o).Valid)
    (h : Faithful false (os.map fun o => ((part o).bits, (part o).volume))) :
    (os.map part).foldl (mixPart m) 0 = shares (os.map part) := by
  have hps : ∀ p ∈ os.map part, p.Valid := by
    intro p hp
    obtain ⟨o, ho, rfl⟩ := mem_map.mp hp
    exact hvalid o ho
  have hconfig : Faithful false ((os.map part).map fun p => (p.bits, p.volume)) := by
    rw [map_map]
    exact h
  rw [Faithful.mix_eq m hps hconfig fun _ => rfl, Int.zero_add]

theorem frame_kept (hos : ∀ o ∈ os, o.Valid)
    (hleft : Faithful false (os.map fun o => (o.source.bits, o.volume.1)))
    (hright : Faithful false (os.map fun o => (o.source.bits, o.volume.2))) :
    outputFrame (os.map fun o => (o.stored m, o.volume)) =
      wantedFrame (os.map fun o => (o.samples, o.volume)) := by
  have hl : (os.map (·.left m)).foldl (mixPart m) 0 = shares (os.map (·.left m)) :=
    Faithful.channel_eq m (fun o ho => (hos o ho).left_valid m) hleft
  have hr : (os.map (·.right m)).foldl (mixPart m) 0 = shares (os.map (·.right m)) :=
    Faithful.channel_eq m (fun o ho => (hos o ho).right_valid m) hright
  rw [outputFrame_eq, wantedFrame_eq m hos, hl, hr]

/-! Bytes for any samples. -/

def byteOf : Nat → Nat → UInt8
  | n, 0 => UInt8.ofNat n
  | n, j + 1 => byteOf (n / 256) j

theorem leNat_byteOf (w : Nat) {n : Nat} (h : n < 256 ^ w) : leNat (byteOf n) w = n := by
  induction w generalizing n with
  | zero =>
    exact (Nat.lt_one_iff.mp h).symm
  | succ w ih =>
    have hrest : leNat (fun k => byteOf n (k + 1)) w = n / 256 := ih (n := n / 256) (by omega)
    have hbyte : (byteOf n 0).toNat = n % 256 := UInt8.toNat_ofNat'
    unfold leNat
    omega

/-- The bytes of one sample, over and over. -/
def encode (bits : Nat) (x : Int) (k : Nat) : UInt8 :=
  if bits = 8 then UInt8.ofNat (x / 256 + 128).toNat
  else if bits = 16 then byteOf (x % 65536).toNat (k % 2)
  else if bits = 24 then byteOf (x % 16777216).toNat (k % 3)
  else byteOf (65536 * (x % 65536).toNat) (k % 4)

theorem signed_emod {half : Nat} {x : Int} (hlo : -(half : Int) ≤ x) (hhi : x < half) :
    signed half (x % (2 * half : Nat)).toNat = x := by
  unfold signed
  rcases Int.lt_or_le x 0 with hneg | hpos
  · have hmod : x % (2 * half : Nat) = x + (2 * half : Nat) := by
      rw [← Int.add_emod_right]
      exact Int.emod_eq_of_lt (by omega) (by omega)
    omega
  · rw [Int.emod_eq_of_lt hpos (by omega), if_pos (by omega)]
    omega

theorem sampleAt_encode (hpcm : source.tag = .pcm) (h : source.Accepted)
    {x : Int} (hrange : InRange source.bits x) (hwhole : source.bits = 8 → x % 256 = 0) (c : Nat) :
    sampleAt m source (encode source.bits x) c = x := by
  rw [sampleAt_pcm m hpcm]
  unfold InRange at hrange
  rcases h.bits with hb | hb | hb | hb
  all_goals simp only [hb, if_true, Nat.reduceEqDiff, if_false] at hrange ⊢
  · have hbyte : (encode 8 x c).toNat = (x / 256 + 128).toNat % 256 := UInt8.toNat_ofNat'
    omega
  · have hbytes : leNat (fun k => encode 16 x (c * 2 + k)) 2 = (x % (2 * 32768 : Nat)).toNat := by
      rw [← leNat_byteOf 2 (n := (x % (2 * 32768 : Nat)).toNat) (by omega)]
      refine leNat_congr 2 fun k hk => ?_
      have hk : (c * 2 + k) % 2 = k := by omega
      unfold encode
      rw [hk]
      rfl
    rw [hbytes]
    exact signed_emod (by omega) (by omega)
  · have hbytes : leNat (fun k => encode 24 x (c * 3 + k)) 3 = (x % (2 * 8388608 : Nat)).toNat := by
      rw [← leNat_byteOf 3 (n := (x % (2 * 8388608 : Nat)).toNat) (by omega)]
      refine leNat_congr 3 fun k hk => ?_
      have hk : (c * 3 + k) % 3 = k := by omega
      unfold encode
      rw [hk]
      rfl
    rw [hbytes]
    exact signed_emod (by omega) (by omega)
  · have hbytes : leNat (fun k => encode 32 x (c * 4 + k)) 4 = 0 + 65536 * (x % (2 * 32768 : Nat)).toNat := by
      rw [Nat.zero_add, ← leNat_byteOf 4 (n := 65536 * (x % (2 * 32768 : Nat)).toNat) (by omega)]
      refine leNat_congr 4 fun k hk => ?_
      have hk : (c * 4 + k) % 4 = k := by omega
      unfold encode
      rw [hk]
      rfl
    have hzero : 0 < 65536 := by decide
    have hhigh := signed_div 32768 (x % (2 * 32768 : Nat)).toNat hzero
    rw [hbytes]
    exact hhigh.trans (signed_emod (by omega) (by omega))

/-- Source frames with these samples in every channel. -/
def originsOf (cs : List (Source × (ℚ × ℚ))) (ps : List Part) : List Origin :=
  List.zipWith (fun c p => ⟨c.1, c.2, false, encode c.1.bits p.sample⟩) cs ps

theorem originsOf_spec (right : Bool) {cs : List (Source × (ℚ × ℚ))}
    (hcs : ∀ c ∈ cs, c.1.Accepted ∧ c.1.tag = .pcm) (hps : ∀ p ∈ ps, p.Writable)
    (hconfig : ps.map (fun p => (p.bits, p.volume)) =
      cs.map fun c => (c.1.bits, if right then c.2.2 else c.2.1)) :
    (originsOf cs ps).map (fun o => (o.source, o.volume)) = cs ∧
      (originsOf cs ps).map (fun o => if right then o.right m else o.left m) = ps := by
  induction cs generalizing ps with
  | nil =>
    have hnil : ps = [] := map_eq_nil_iff.mp hconfig
    rw [hnil]
    exact ⟨rfl, rfl⟩
  | cons c cs ih =>
    cases ps with
    | nil => cases hconfig
    | cons p ps =>
      rw [map_cons, map_cons, List.cons.injEq, Prod.mk.injEq] at hconfig
      obtain ⟨⟨hbits, hvolume⟩, hrest⟩ := hconfig
      obtain ⟨haccepted, hpcm⟩ := hcs c mem_cons_self
      have hp := hps p mem_cons_self
      obtain ⟨hsame, hparts⟩ := ih (fun c' hc => hcs c' (mem_cons_of_mem c hc))
        (fun q hq => hps q (mem_cons_of_mem p hq)) hrest
      have hrange := hp.range
      have hwhole := hp.whole
      rw [hbits] at hrange hwhole
      have hsample := fun k => sampleAt_encode m hpcm haccepted hrange hwhole k
      unfold originsOf at hsame hparts ⊢
      rw [zipWith_cons_cons, map_cons, map_cons, hsame, hparts]
      refine ⟨rfl, congrArg (· :: ps) ?_⟩
      obtain ⟨bits, volume, sample⟩ := p
      dsimp only at hbits hvolume hsample
      cases right with
      | true =>
        change Part.mk c.1.bits c.2.2 (sampleAt m c.1 (encode c.1.bits sample) _) = _
        rw [hsample, hbits, hvolume]
        rfl
      | false =>
        change Part.mk c.1.bits c.2.1 (sampleAt m c.1 (encode c.1.bits sample) _) = _
        rw [hsample, hbits, hvolume]
        rfl

/-- Whatever the streams have written, a frame of theirs is mixed as it should be just when their formats and
volumes are faithful in both channels. -/
theorem frame_kept_iff {cs : List (Source × (ℚ × ℚ))}
    (hcs : ∀ c ∈ cs, c.1.Accepted ∧ c.1.tag = .pcm)
    (hvolumes : ∀ c ∈ cs, (0 ≤ c.2.1 ∧ c.2.1 ≤ 1) ∧ 0 ≤ c.2.2 ∧ c.2.2 ≤ 1) :
    (∀ os : List Origin, os.map (fun o => (o.source, o.volume)) = cs →
        outputFrame (os.map fun o => (o.stored m, o.volume)) =
          wantedFrame (os.map fun o => (o.samples, o.volume))) ↔
      Faithful false (cs.map fun c => (c.1.bits, c.2.1)) ∧
        Faithful false (cs.map fun c => (c.1.bits, c.2.2)) := by
  have hvalid : ∀ os : List Origin, os.map (fun o => (o.source, o.volume)) = cs → ∀ o ∈ os, o.Valid := by
    intro os hos o ho
    have hmem : (o.source, o.volume) ∈ cs := hos ▸ mem_map_of_mem ho
    obtain ⟨hleft, hright⟩ := hvolumes _ hmem
    exact ⟨(hcs _ hmem).1, (hcs _ hmem).2, hleft, hright⟩
  constructor
  · intro hall
    have hframes : ∀ os : List Origin, os.map (fun o => (o.source, o.volume)) = cs →
        nxSample ((os.map (·.left m)).foldl (mixPart m) 0) = nxSample (shares (os.map (·.left m))) ∧
          nxSample ((os.map (·.right m)).foldl (mixPart m) 0) = nxSample (shares (os.map (·.right m))) := by
      intro os hos
      have hframe := hall os hos
      rw [outputFrame_eq, wantedFrame_eq m (hvalid os hos)] at hframe
      exact Prod.mk.inj hframe
    constructor
    · refine faithful_of_mix m ?_ fun ps hconfig hps => ?_
      · intro c hc
        obtain ⟨c', hc', rfl⟩ := mem_map.mp hc
        exact (hvolumes c' hc').1
      · obtain ⟨hsame, hparts⟩ := originsOf_spec m false hcs hps hconfig
        have hframe := (hframes _ hsame).1
        rwa [show (originsOf cs ps).map (·.left m) = ps from hparts] at hframe
    · refine faithful_of_mix m ?_ fun ps hconfig hps => ?_
      · intro c hc
        obtain ⟨c', hc', rfl⟩ := mem_map.mp hc
        exact (hvolumes c' hc').2
      · obtain ⟨hsame, hparts⟩ := originsOf_spec m true hcs hps hconfig
        have hframe := (hframes _ hsame).2
        rwa [show (originsOf cs ps).map (·.right m) = ps from hparts] at hframe
  · rintro ⟨hleft, hright⟩ os hos
    rw [← hos, map_map] at hleft hright
    exact frame_kept m (hvalid os hos) hleft hright

end Autorun.Audio
