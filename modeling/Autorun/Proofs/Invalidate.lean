import Mathlib.Data.List.Nodup
import Autorun.Proofs.JumpTable

namespace Autorun.Dynarec

open Autorun.Lib List

variable {S : Shape}

theorem or_mask (pos s : Nat) : pos ||| (2 ^ s - 1) = 2 ^ s * (pos / 2 ^ s) + (2 ^ s - 1) := by
  have hpow : 0 < 2 ^ s := Nat.two_pow_pos s
  have hlow : pos % 2 ^ s < 2 ^ s := Nat.mod_lt _ hpow
  have hmask : pos % 2 ^ s ||| (2 ^ s - 1) = 2 ^ s - 1 := by
    have hlt : pos % 2 ^ s ||| (2 ^ s - 1) < 2 ^ s := Nat.or_lt_two_pow hlow (by omega)
    have hle : 2 ^ s - 1 ≤ pos % 2 ^ s ||| (2 ^ s - 1) := Nat.right_le_or
    omega
  calc pos ||| (2 ^ s - 1) = (2 ^ s * (pos / 2 ^ s) + pos % 2 ^ s) ||| (2 ^ s - 1) := by rw [Nat.div_add_mod]
    _ = 2 ^ s * (pos / 2 ^ s) ||| (2 ^ s - 1) := by
      rw [Nat.two_pow_add_eq_or_of_lt hlow, Nat.or_assoc, hmask]
    _ = 2 ^ s * (pos / 2 ^ s) + (2 ^ s - 1) := (Nat.two_pow_add_eq_or_of_lt (by omega) _).symm

/-- Only addresses in the same part of the address space are skipped, unless the walk is at the start of the
last part. -/
theorem nextTableBoundary_spec {pos s : Nat} (hs : s ≤ 64) (hpos : pos < uintptrMax) (hne : pos ≠ 2 ^ 64 - 2 ^ s) :
    pos < nextTableBoundary pos s ∧
      ∀ p, pos ≤ p → p < nextTableBoundary pos s → p / 2 ^ s = pos / 2 ^ s := by
  have hpow : 0 < 2 ^ s := Nat.two_pow_pos s
  have hparts : 2 ^ s * 2 ^ (64 - s) = 2 ^ 64 := by rw [← Nat.pow_add, Nat.add_sub_cancel' hs]
  have hcount : 0 < 2 ^ (64 - s) := Nat.two_pow_pos _
  obtain ⟨B, hB⟩ : ∃ B, B = 2 ^ s := ⟨_, rfl⟩
  obtain ⟨C, hC⟩ : ∃ C, C = 2 ^ (64 - s) - 1 := ⟨_, rfl⟩
  have hC' : 2 ^ (64 - s) = C + 1 := by omega
  rw [hC', ← hB, Nat.mul_succ] at hparts
  rw [← hB] at hne hpow
  have hmax : uintptrMax = B * C + B - 1 := by
    rw [hparts]
    rfl
  have hdiv := Nat.div_add_mod pos B
  have hmod := Nat.mod_lt pos hpow
  unfold nextTableBoundary
  dsimp only
  rw [or_mask, ← hB]
  split
  case isTrue hlast =>
    refine ⟨hpos, fun p hp hlt => ?_⟩
    -- both are in the last part
    have hquot : ∀ q, B * C ≤ q → q < B * C + B → q / B = C := by
      intro q hlo hhi
      refine Nat.div_eq_of_lt_le ?_ ?_
      · rw [Nat.mul_comm]
        exact hlo
      · rw [Nat.succ_mul, Nat.mul_comm C B]
        exact hhi
    rw [hquot p (by omega) (by omega), hquot pos (by omega) (by omega)]
  case isFalse hlast =>
    have hquot : pos / B < C := by
      rw [Nat.div_lt_iff_lt_mul hpow, Nat.mul_comm]
      omega
    have hnext : B * (pos / B) + B ≤ B * C := by
      exact Nat.mul_le_mul_left B hquot
    have heq : B * (pos / B) + (B - 1) + 1 = B * (pos / B) + B := by omega
    rw [heq, Nat.mod_eq_of_lt (by omega)]
    refine ⟨by omega, fun p hp hlt => ?_⟩
    refine Nat.div_eq_of_lt_le ?_ ?_
    · rw [Nat.mul_comm]
      omega
    · rw [Nat.succ_mul, Nat.mul_comm _ B]
      exact hlt

theorem Shape.start_le (S : Shape) {k n : Nat} (h : k ≤ n) : S.start k ≤ S.start n := by
  induction n with
  | zero => exact Nat.le_of_eq (congrArg S.start (Nat.le_zero.mp h))
  | succ n ih =>
    rcases Nat.le_succ_iff.mp h with hle | rfl
    · exact Nat.le_trans (ih hle) (Nat.le_add_right _ _)
    · exact Nat.le_refl _

/-- In one part of the address space, the indexes from the level on are the same. -/
theorem Shape.path_eq {p q k i : Nat} (hsame : p / 2 ^ S.start k = q / 2 ^ S.start k) (hi : k ≤ i) :
    S.path p i = S.path q i := by
  have hsplit : S.start i = S.start k + (S.start i - S.start k) := by
    have := S.start_le hi
    omega
  unfold Shape.path
  rw [hsplit, Nat.pow_add, ← Nat.div_div_eq_div_mul, ← Nat.div_div_eq_div_mul, hsame]

/-- What the jump table holds at an address. -/
def entryAt (S : Shape) (nativeNext : Nat) (table : Radix Nat (S.outer + 1)) (p : Nat) : Nat :=
  (Radix.find _ table (S.path p)).getD nativeNext

/-- The address and its target, if there is one. -/
def visit (S : Shape) (nativeNext : Nat) (table : Radix Nat (S.outer + 1)) (p : Nat) : Option (Nat × Nat) :=
  if entryAt S nativeNext table p = nativeNext then none else some (p, entryAt S nativeNext table p)

def visits (S : Shape) (nativeNext : Nat) (table : Radix Nat (S.outer + 1)) (pos stop : Nat) : List (Nat × Nat) :=
  (List.range' pos (stop - pos)).filterMap (visit S nativeNext table)

variable {nativeNext : Nat} {table : Radix Nat (S.outer + 1)} {pos stop : Nat}

theorem visit_missing {k : Nat} (h : Radix.missing _ table (S.path pos) = some k) : visit S nativeNext table pos = none := by
  have hfind : Radix.find _ table (S.path pos) = none := by
    cases hfind : Radix.find _ table (S.path pos) with
    | none => rfl
    | some x =>
      have hnone := Radix.missing_eq_none.mpr (hfind ▸ rfl : (Radix.find _ table (S.path pos)).isSome)
      rw [hnone] at h
      cases h
  unfold visit entryAt
  rw [hfind]
  exact if_pos rfl

theorem visits_of_le (h : stop ≤ pos) : visits S nativeNext table pos stop = [] := by
  unfold visits
  rw [Nat.sub_eq_zero_of_le h]
  rfl

theorem visits_cons (h : pos < stop) :
    visits S nativeNext table pos stop =
      (visit S nativeNext table pos).toList ++ visits S nativeNext table (pos + 1) stop := by
  unfold visits
  have hlen : stop - pos = stop - (pos + 1) + 1 := by omega
  rw [hlen, range'_succ, filterMap_cons]
  cases visit S nativeNext table pos <;> rfl

theorem visits_skip {next : Nat} (hle : pos ≤ next)
    (hnone : ∀ p, pos ≤ p → p < next → visit S nativeNext table p = none) :
    visits S nativeNext table pos stop = visits S nativeNext table next stop := by
  induction hn : next - pos generalizing pos with
  | zero => rw [show pos = next by omega]
  | succ n ih =>
    rcases Nat.lt_or_ge pos stop with hlt | hge
    · rw [visits_cons hlt, hnone pos (Nat.le_refl _) (by omega)]
      exact ih (by omega) (fun p hp => hnone p (by omega)) (by omega)
    · rw [visits_of_le hge, visits_of_le (by omega)]

/-- The range does not reach, from below or from its start, into a table that is missing at the very top of the
address space. -/
def ClearOfTop (S : Shape) (table : Radix Nat (S.outer + 1)) (pos stop : Nat) : Prop :=
  ∀ k, Radix.missing _ table (S.path uintptrMax) = some k →
    ¬ (pos ≤ 2 ^ 64 - 2 ^ S.start k ∧ 2 ^ 64 - 2 ^ S.start k < stop)

/-- With a missing level, the walk goes on behind addresses that have no entry. -/
theorem nextTableBoundary_skips (nativeNext : Nat) (hS : S.Whole) {k : Nat} (hclear : ClearOfTop S table pos stop) (hlt : pos < stop)
    (hstop : stop ≤ uintptrMax) (hmissing : Radix.missing _ table (S.path pos) = some k) :
    pos < nextTableBoundary pos (S.start k) ∧
      visits S nativeNext table pos stop = visits S nativeNext table (nextTableBoundary pos (S.start k)) stop := by
  have hk : S.start k ≤ 64 := by
    rw [← hS]
    exact S.start_le (Nat.le_succ_of_le (Radix.missing_le hmissing))
  have hpow : 0 < 2 ^ S.start k := Nat.two_pow_pos _
  have hle : 2 ^ S.start k ≤ 2 ^ 64 := Nat.pow_le_pow_right (by decide) hk
  have hne : pos ≠ 2 ^ 64 - 2 ^ S.start k := by
    intro heq
    refine hclear k (Radix.missing_congr hmissing fun i hi => Shape.path_eq ?_ hi) ⟨Nat.le_of_eq heq, heq ▸ hlt⟩
    -- the last part begins here
    have hdvd : 2 ^ S.start k ∣ pos := by
      rw [heq]
      exact Nat.dvd_sub (Nat.pow_dvd_pow 2 hk) (Nat.dvd_refl _)
    obtain ⟨c, hc⟩ := hdvd
    have hmax : uintptrMax = 2 ^ S.start k * c + (2 ^ S.start k - 1) := by
      unfold uintptrMax
      omega
    rw [hc, Nat.mul_div_cancel_left _ hpow, hmax, Nat.mul_add_div hpow,
      Nat.div_eq_of_lt (Nat.sub_lt hpow Nat.one_pos), Nat.add_zero]
  obtain ⟨hnext, hsame⟩ := nextTableBoundary_spec hk (Nat.lt_of_lt_of_le hlt hstop) hne
  refine ⟨hnext, visits_skip (Nat.le_of_lt hnext) fun p hp hplt => ?_⟩
  exact visit_missing (Radix.missing_congr hmissing fun i hi => Shape.path_eq (hsame p hp hplt) hi)

/-- The walk ends, and finds the entries of the range in their order. -/
theorem walk_finds (nativeNext : Nat) (hS : S.Whole) (hclear : ClearOfTop S table pos stop) (hstop : stop ≤ uintptrMax) :
    ∃ fuel, walk S nativeNext table stop fuel pos = some (visits S nativeNext table pos stop) := by
  -- along what is left of the range; the start of the walk only moves up
  induction hn : stop - pos using Nat.strongRecOn generalizing pos with
  | ind n ih =>
    rcases Nat.lt_or_ge pos stop with hlt | hge
    · have hlater : ∀ next, pos ≤ next → ClearOfTop S table next stop := fun next hle k hk hreach =>
        hclear k hk ⟨Nat.le_trans hle hreach.1, hreach.2⟩
      cases hmissing : Radix.missing _ table (S.path pos) with
      | some k =>
        obtain ⟨hnext, hsame⟩ := nextTableBoundary_skips nativeNext hS hclear hlt hstop hmissing
        obtain ⟨fuel, hfuel⟩ := ih _ (by omega) (hlater _ (Nat.le_of_lt hnext)) rfl
        refine ⟨fuel + 1, ?_⟩
        rw [walk, if_pos hlt, hmissing, hsame]
        exact hfuel
      | none =>
        obtain ⟨fuel, hfuel⟩ := ih _ (by omega) (hlater (pos + 1) (Nat.le_succ pos)) rfl
        refine ⟨fuel + 1, ?_⟩
        rw [walk, if_pos hlt, hmissing, visits_cons hlt, visit]
        dsimp only
        rw [hfuel]
        unfold entryAt
        split <;> rfl
    · refine ⟨0, ?_⟩
      rw [walk, if_neg (Nat.not_lt.mpr hge), visits_of_le hge]

theorem mem_visits {e : Nat × Nat} :
    e ∈ visits S nativeNext table pos stop ↔
      pos ≤ e.1 ∧ e.1 < stop ∧ e.2 = entryAt S nativeNext table e.1 ∧ e.2 ≠ nativeNext := by
  unfold visits
  rw [mem_filterMap]
  constructor
  · rintro ⟨p, hp, hvisit⟩
    obtain ⟨hlo, hhi⟩ := mem_range'_1.mp hp
    unfold visit at hvisit
    split at hvisit
    · cases hvisit
    case isFalse hentry =>
      rw [← Option.some.inj hvisit]
      exact ⟨hlo, by omega, rfl, hentry⟩
  · rintro ⟨hlo, hhi, hentry, hne⟩
    refine ⟨e.1, mem_range'_1.mpr ⟨hlo, by omega⟩, ?_⟩
    rw [visit, ← hentry, if_neg hne]

theorem visits_nodup : ((visits S nativeNext table pos stop).map (·.1)).Nodup := by
  have hself : ∀ p q, q ∈ (visit S nativeNext table p).map (·.1) → q = p := by
    intro p q hq
    unfold visit at hq
    split at hq
    · cases hq
    · exact (Option.some.inj hq).symm
  unfold visits
  rw [map_filterMap]
  refine List.Nodup.filterMap (fun p p' q hp hp' => ?_) (nodup_range' ..)
  rw [← hself p q hp, ← hself p' q hp']

/-- Which addresses an invalidation looks at, and the calls that it makes for the blocks there. -/
structure Reaches (S : Shape) (nativeNext : Nat) (table : Radix Nat (S.outer + 1)) (maxBlockSize : Nat)
    (dbOf : Nat → Nat) (addr stop : Nat) (destroy : Bool) (found : List (Nat × Nat)) (calls : List RangeCall) :
    Prop where
  once : (found.map (·.1)).Nodup
  exactly : ∀ p target, (p, target) ∈ found ↔
    addr - maxBlockSize ≤ p ∧ p < stop ∧ target = entryAt S nativeNext table p ∧ target ≠ nativeNext
  /-- a block from `p` on, of the length `len p`, that overlaps the range -/
  overlapping : ∀ len : Nat → Nat, (∀ p, entryAt S nativeNext table p ≠ nativeNext → len p ≤ maxBlockSize) →
    ∀ p, entryAt S nativeNext table p ≠ nativeNext → dbOf (entryAt S nativeNext table p) ≠ 0 →
      p < stop → addr < p + len p → ⟨destroy, dbOf (entryAt S nativeNext table p), addr, stop - addr⟩ ∈ calls

/-- An invalidation of no bytes looks at nothing. Any other ends, visits each entry of the range and of what lies
up to the largest block before it exactly once, and passes on every block that overlaps the range, unless it runs
into the start of a missing table at the very top of the address space. The range ends at the last address, or
before it where it does not go that far. -/
theorem invalidate_reaches_range (hS : S.Whole) (nativeNext : Nat) (table : Radix Nat (S.outer + 1))
    (maxBlockSize : Nat) (dbOf : Nat → Nat) (addr size : Addr) (destroy : Bool) :
    (size = 0 → ∀ fuel, invalidate S nativeNext table maxBlockSize dbOf addr size destroy fuel = some ([], [])) ∧
      let stop := min (addr.toNat + size.toNat) uintptrMax
      (size ≠ 0 → ClearOfTop S table (addr.toNat - maxBlockSize) stop →
        ∃ fuel found calls,
          invalidate S nativeNext table maxBlockSize dbOf addr size destroy fuel = some (found, calls) ∧
            Reaches S nativeNext table maxBlockSize dbOf addr.toNat stop destroy found calls) := by
  refine ⟨fun hzero fuel => if_pos hzero, fun hsize hclear => ?_⟩
  obtain ⟨fuel, hfuel⟩ := walk_finds nativeNext hS hclear (Nat.min_le_right ..)
  have hstop : (if size.toNat > uintptrMax - addr.toNat then uintptrMax else addr.toNat + size.toNat) =
      min (addr.toNat + size.toNat) uintptrMax := by
    unfold uintptrMax
    split <;> omega
  have hpos : (if addr.toNat > maxBlockSize then addr.toNat - maxBlockSize else 0) = addr.toNat - maxBlockSize := by
    split <;> omega
  have hresult : invalidate S nativeNext table maxBlockSize dbOf addr size destroy fuel =
      some (visits S nativeNext table (addr.toNat - maxBlockSize) (min (addr.toNat + size.toNat) uintptrMax),
        ((visits S nativeNext table (addr.toNat - maxBlockSize) (min (addr.toNat + size.toNat) uintptrMax)).filter
          fun e => dbOf e.2 ≠ 0).map fun e =>
            ⟨destroy, dbOf e.2, addr.toNat, min (addr.toNat + size.toNat) uintptrMax - addr.toNat⟩) := by
    rw [invalidate, if_neg hsize]
    dsimp only
    rw [hstop, hpos, hfuel]
    rfl
  refine ⟨fuel, _, _, hresult, visits_nodup, fun p target => mem_visits, fun len hlen p hp hdb hlt hover => ?_⟩
  have hle := hlen p hp
  refine mem_map.mpr ⟨(p, entryAt S nativeNext table p), mem_filter.mpr ⟨?_, decide_eq_true hdb⟩, rfl⟩
  exact mem_visits.mpr ⟨by omega, hlt, rfl, hp⟩

def oneBlock : World fiveLevels := run (step 1) (initJumpTables 1) [.addIfDefault 0x1000 77 fun _ => false]

theorem invalidate_reaches_one_block :
    ∃ fuel found calls,
      invalidate fiveLevels 1 oneBlock.table 0x1000 id 0x1008 8 true fuel = some (found, calls) ∧
        Reaches fiveLevels 1 oneBlock.table 0x1000 id 0x1008 0x1010 true found calls := by
  have hwhole : fiveLevels.Whole := rfl
  refine (invalidate_reaches_range hwhole 1 oneBlock.table 0x1000 id 0x1008 8 true).2 (by decide) ?_
  intro k hk hreach
  obtain rfl := Option.some.inj hk
  exact absurd hreach.2 (by decide)

/-- An invalidation of no bytes does not look at a block right before its address. -/
theorem empty_range_visits_nothing :
    entryAt fiveLevels 1 oneBlock.table 0x1000 = 77 ∧ 0x1800 - 0x1000 ≤ 0x1000 ∧ 0x1000 < 0x1800 + 0 ∧
      ∀ fuel, invalidate fiveLevels 1 oneBlock.table 0x1000 id 0x1800 0 true fuel = some ([], []) :=
  ⟨by decide +kernel, by decide, by decide, fun _ => rfl⟩

end Autorun.Dynarec
