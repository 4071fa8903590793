import Mathlib.Logic.Function.Basic
import Mathlib.Data.List.Range

namespace Autorun.Lib

open List

/-- A set of naturals kept as an array of `w`-bit words, bit `i % w` of word
`i / w` for `i`. -/
abbrev Bitmap (w : Nat) := Nat → BitVec w

namespace Bitmap

def mask (w i : Nat) : BitVec w := 1#w <<< (i % w)

def test (m : Bitmap w) (i : Nat) : Bool := m (i / w) &&& mask w i != 0#w

def set (m : Bitmap w) (i : Nat) : Bitmap w :=
  Function.update m (i / w) (m (i / w) ||| mask w i)

def clear (m : Bitmap w) (i : Nat) : Bitmap w :=
  Function.update m (i / w) (m (i / w) &&& ~~~(mask w i))

/-- Bits `first` to `first + count`, one after the other. -/
def setRange (m : Bitmap w) (first count : Nat) : Bitmap w :=
  (List.range' first count).foldl set m

def clearRange (m : Bitmap w) (first count : Nat) : Bitmap w :=
  (List.range' first count).foldl clear m

/-- The number of bits set below `n`. -/
def card (m : Bitmap w) (n : Nat) : Nat := (List.range n).countP (test m)

variable {i w : Nat}

theorem mask_bit (hw : 0 < w) (j : Nat) (hj : j < w) :
    (mask w i).getLsbD j = decide (j = i % w) := by
  have hi : i % w < w := Nat.mod_lt _ hw
  unfold mask
  by_cases he : j = i % w
  · subst he
    simp [hi]
  · by_cases hl : j < i % w
    · simp [hl, he]
    · have : j - i % w ≠ 0 := by omega
      simp [he, this]

/-- Testing a bit through its mask reads that bit. -/
theorem test_eq (hw : 0 < w) (m : Bitmap w) (i : Nat) : test m i = (m (i / w)).getLsbD (i % w) := by
  have hi : i % w < w := Nat.mod_lt _ hw
  unfold test
  cases hb : (m (i / w)).getLsbD (i % w) with
  | true =>
    rw [bne_iff_ne]
    intro h0
    have := congrArg (fun b => BitVec.getLsbD b (i % w)) h0
    simp [hb, mask_bit hw _ hi] at this
  | false =>
    rw [bne_eq_false_iff_eq]
    apply BitVec.eq_of_getLsbD_eq
    intro j hj
    rw [BitVec.getLsbD_and, mask_bit hw j hj]
    by_cases he : j = i % w
    · subst he
      simp [hb]
    · simp [he]

/-- Two indices share word and bit only when they are one. -/
theorem index_ext {j : Nat} (hd : i / w = j / w) (hm : i % w = j % w) : i = j := by
  rw [← Nat.div_add_mod i w, ← Nat.div_add_mod j w, hd, hm]

theorem test_set (hw : 0 < w) (m : Bitmap w) (i j : Nat) :
    test (set m i) j = (decide (j = i) || test m j) := by
  have hj : j % w < w := Nat.mod_lt _ hw
  rw [test_eq hw, test_eq hw, set]
  by_cases hd : j / w = i / w
  · rw [hd, Function.update_self, BitVec.getLsbD_or, mask_bit hw _ hj, Bool.or_comm]
    congr 1
    by_cases hm : j % w = i % w
    · simp [index_ext hd hm]
    · have : j ≠ i := fun he => hm (he ▸ rfl)
      simp [hm, this]
  · have : j ≠ i := fun he => hd (he ▸ rfl)
    rw [Function.update_of_ne hd]
    simp [this]

theorem test_clear (hw : 0 < w) (m : Bitmap w) (i j : Nat) :
    test (clear m i) j = (!decide (j = i) && test m j) := by
  have hj : j % w < w := Nat.mod_lt _ hw
  rw [test_eq hw, test_eq hw, clear]
  by_cases hd : j / w = i / w
  · rw [hd, Function.update_self, BitVec.getLsbD_and, BitVec.getLsbD_not, mask_bit hw _ hj,
      Bool.and_comm]
    congr 1
    by_cases hm : j % w = i % w
    · simp [index_ext hd hm]
    · have : j ≠ i := fun he => hm (he ▸ rfl)
      simp [hm, this, hj]
  · have : j ≠ i := fun he => hd (he ▸ rfl)
    rw [Function.update_of_ne hd]
    simp [this]

theorem test_setRange (hw : 0 < w) (m : Bitmap w) (first count j : Nat) :
    test (setRange m first count) j =
      (decide (first ≤ j ∧ j < first + count) || test m j) := by
  unfold setRange
  induction count generalizing m first with
  | zero =>
    have hempty : ¬ (first ≤ j ∧ j < first + 0) := by omega
    rw [decide_eq_false hempty]
    rfl
  | succ count ih =>
    rw [range'_succ, foldl_cons, ih, test_set hw, ← Bool.or_assoc]
    congr 1
    rw [← Bool.decide_or]
    apply decide_eq_decide.mpr
    omega

theorem test_clearRange (hw : 0 < w) (m : Bitmap w) (first count j : Nat) :
    test (clearRange m first count) j =
      (!decide (first ≤ j ∧ j < first + count) && test m j) := by
  unfold clearRange
  induction count generalizing m first with
  | zero =>
    have hempty : ¬ (first ≤ j ∧ j < first + 0) := by omega
    rw [decide_eq_false hempty]
    rfl
  | succ count ih =>
    rw [range'_succ, foldl_cons, ih, test_clear hw, ← Bool.and_assoc]
    congr 1
    rw [← Bool.not_or, ← Bool.decide_or]
    congr 1
    apply decide_eq_decide.mpr
    omega

/-- Bitmaps with the same bits are the same array. -/
theorem ext_test (hw : 0 < w) {m k : Bitmap w} (h : ∀ i, test m i = test k i) : m = k := by
  funext a
  apply BitVec.eq_of_getLsbD_eq
  intro j hj
  have hi := h (w * a + j)
  rw [test_eq hw, test_eq hw] at hi
  have hd : (w * a + j) / w = a := by
    rw [Nat.mul_add_div hw, Nat.div_eq_of_lt hj, Nat.add_zero]
  have hm : (w * a + j) % w = j := by
    rw [Nat.mul_add_mod, Nat.mod_eq_of_lt hj]
  rwa [hd, hm] at hi

/-- Clearing a range that was clear before it was set undoes the setting. -/
theorem clearRange_setRange (hw : 0 < w) (m : Bitmap w) (first count : Nat)
    (hm : ∀ j, first ≤ j → j < first + count → test m j = false) :
    clearRange (setRange m first count) first count = m := by
  apply ext_test hw
  intro j
  rw [test_clearRange hw, test_setRange hw]
  by_cases hj : first ≤ j ∧ j < first + count
  · simp [hj, hm j hj.1 hj.2]
  · simp [hj]

/-- Setting bits that were clear adds their number. -/
theorem card_set_interval (m k : Bitmap w) (first count n : Nat)
    (hn : first + count ≤ n)
    (hk : ∀ j, test k j = (decide (first ≤ j ∧ j < first + count) || test m j))
    (hm : ∀ j, first ≤ j → j < first + count → test m j = false) :
    card k n = card m n + count := by
  have key : ∀ n, (List.range n).countP (test k) =
      (List.range n).countP (test m) + (min n (first + count) - min n first) := by
    intro n
    induction n with
    | zero => simp
    | succ n ih =>
      rw [range_succ, countP_append, countP_append, ih]
      simp only [countP_singleton, hk n]
      by_cases hin : first ≤ n ∧ n < first + count
      · rw [hm n hin.1 hin.2]
        simp only [hin, and_self, decide_true, Bool.true_or, if_true, Bool.false_eq_true, if_false]
        omega
      · simp only [hin, decide_false, Bool.false_or]
        omega
  unfold card
  rw [key n]
  omega

end Bitmap

end Autorun.Lib
