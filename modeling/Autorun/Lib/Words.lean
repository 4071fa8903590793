import Mathlib.Algebra.Group.Nat.Defs

namespace Autorun.Lib

/-- Addition of `uint32_t`. -/
def add32 (x y : Nat) : Nat := (x + y) % 2 ^ 32

/-- Subtraction of `uint32_t`. -/
def sub32 (x y : Nat) : Nat := (2 ^ 32 + x - y) % 2 ^ 32

/-- Addition of `uint64_t`. -/
def add64 (x y : Nat) : Nat := (x + y) % 2 ^ 64

/-- Subtraction of `uint64_t`. -/
def sub64 (x y : Nat) : Nat := (2 ^ 64 + x - y) % 2 ^ 64

theorem add32_eq (h : x + y < 2 ^ 32) : add32 x y = x + y := Nat.mod_eq_of_lt h

theorem sub32_eq (h : y ≤ x) (hx : x < 2 ^ 32) : sub32 x y = x - y := by
  unfold sub32
  omega

theorem add64_eq (h : x + y < 2 ^ 64) : add64 x y = x + y := Nat.mod_eq_of_lt h

theorem sub64_eq (h : y ≤ x) (hx : x < 2 ^ 64) : sub64 x y = x - y := by
  unfold sub64
  omega

/-- An address before or behind a range is no offset in it. -/
theorem sub64_outside (hout : x < start ∨ start + size ≤ x) (hend : start + size ≤ 2 ^ 64)
    (hx : x < 2 ^ 64) : ¬sub64 x start < size := by
  unfold sub64
  omega

end Autorun.Lib
