import Mathlib.Algebra.Group.Int.Defs
import Mathlib.Algebra.Group.Nat.Defs
import Mathlib.Data.Int.Basic
import Mathlib.Tactic.Common

/-!
# Fixed-width arithmetic

Unsigned 32-bit values are natural numbers below `2 ^ 32`.  An operation that may
leave the range is written with `u32` or `u32sub`; the lemmas remove the reduction
where the operands are known to be small.  A `size_t` has 64 bits, an `int` has 32
bits and is an integer here; `sizeT` and `int32` are the conversions to them.
-/

namespace LuaSys.Lib

/-- Reduction to 32 bits. -/
def u32 (n : ℕ) : ℕ := n % 2 ^ 32

/-- Subtraction of unsigned 32-bit values, with wrap-around. -/
def u32sub (a b : ℕ) : ℕ := (a + (2 ^ 32 - b)) % 2 ^ 32

theorem u32_of_lt {n : ℕ} (h : n < 2 ^ 32) : u32 n = n := Nat.mod_eq_of_lt h

theorem u32_lt (n : ℕ) : u32 n < 2 ^ 32 := Nat.mod_lt _ (by decide)

theorem u32sub_lt (a b : ℕ) : u32sub a b < 2 ^ 32 := Nat.mod_lt _ (by decide)

theorem u32sub_of_le {a b : ℕ} (h : b ≤ a) (ha : a < 2 ^ 32) : u32sub a b = a - b := by
  simp only [u32sub]
  omega

/-- The conversion of an integer to `size_t`. -/
def sizeT (i : ℤ) : ℕ := (i % 0x10000000000000000).toNat

/-- The conversion of an integer to `int`. -/
def int32 (i : ℤ) : ℤ := (i + 0x80000000) % 0x100000000 - 0x80000000

theorem sizeT_natCast {n : ℕ} (h : n < 2 ^ 64) : sizeT n = n := by
  simp only [sizeT]
  omega

theorem sizeT_lt (i : ℤ) : sizeT i < 2 ^ 64 := by
  simp only [sizeT]
  omega

theorem int32_of_range {i : ℤ} (h₁ : -2 ^ 31 ≤ i) (h₂ : i < 2 ^ 31) : int32 i = i := by
  simp only [int32]
  omega

theorem int32_of_ge {i : ℤ} (h₁ : 2 ^ 31 ≤ i) (h₂ : i < 2 ^ 32) : int32 i = i - 2 ^ 32 := by
  simp only [int32]
  omega

/-- The conversion may be made at any point of a sum. -/
theorem int32_int32_add (a b : ℤ) : int32 (int32 a + b) = int32 (a + b) := by
  simp only [int32]
  omega

/-- Values that are less than `2 ^ 32` apart are told apart. -/
theorem int32_injOn {a b : ℤ} (h : int32 a = int32 b) (hlt : a - b < 2 ^ 32)
    (hgt : b - a < 2 ^ 32) : a = b := by
  simp only [int32] at h
  omega

theorem int32_range (i : ℤ) : -2 ^ 31 ≤ int32 i ∧ int32 i < 2 ^ 31 := by
  simp only [int32]
  omega

end LuaSys.Lib
