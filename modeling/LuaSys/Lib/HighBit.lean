import Mathlib.Algebra.Group.Nat.Defs
import Mathlib.Tactic.Common

/-!
# The highest bit of a number

A shift to the right and a disjunction spread every bit of a number to the places below it.
When the distance is doubled each time, a few steps fill all of the places below the highest
bit, and the result depends on that bit only.

## Main definitions

* `Spread v m w` — in `w` the bits of `v` are spread over `m` places.

## Main results

* `Spread.step` — the distance is doubled.
* `Spread.eq_two_pow` — the places below the highest bit are filled.
* `or_mask` — a disjunction with `2 ^ k - 1` fills the last `k` places.
-/

namespace LuaSys.Lib

/-- A bit of `w` is set when `v` has one at its place or at most `m` places above. -/
def Spread (v m w : ℕ) : Prop :=
  ∀ i, w.testBit i = true ↔ ∃ j ≤ m, v.testBit (i + j) = true

theorem spread_zero (v : ℕ) : Spread v 0 v := by
  intro i
  constructor
  · exact fun h => ⟨0, Nat.le_refl 0, h⟩
  · rintro ⟨j, hj, h⟩
    obtain rfl := Nat.le_zero.mp hj
    exact h

/-- The bits are spread over twice as many places. -/
theorem Spread.step {v m w : ℕ} (h : Spread v m w) :
    Spread v (2 * m + 1) (w ||| w >>> (m + 1)) := by
  intro i
  rw [Nat.testBit_or, Nat.testBit_shiftRight, Bool.or_eq_true, h i, h (m + 1 + i)]
  constructor
  · rintro (⟨j, hj, hbit⟩ | ⟨j, hj, hbit⟩)
    · exact ⟨j, by omega, hbit⟩
    · refine ⟨m + 1 + j, by omega, ?_⟩
      rw [← hbit]
      congr 1
      omega
  · rintro ⟨j, hj, hbit⟩
    by_cases hlow : j ≤ m
    · exact Or.inl ⟨j, hlow, hbit⟩
    · refine Or.inr ⟨j - (m + 1), by omega, ?_⟩
      rw [← hbit]
      congr 1
      omega

/-- When there are places enough, all of them below the highest bit are filled. -/
theorem Spread.eq_two_pow {v m w : ℕ} (h : Spread v m w) (hv : v ≠ 0) (hm : v.log2 ≤ m) :
    w = 2 ^ (v.log2 + 1) - 1 := by
  refine Nat.eq_of_testBit_eq fun i => ?_
  rw [Nat.testBit_two_pow_sub_one, Bool.eq_iff_iff, decide_eq_true_eq, h i]
  constructor
  · rintro ⟨j, -, hbit⟩
    have hle : i + j ≤ v.log2 := (Nat.le_log2 hv).mpr (Nat.ge_two_pow_of_testBit hbit)
    omega
  · intro hi
    refine ⟨v.log2 - i, by omega, ?_⟩
    rw [Nat.add_sub_cancel' (by omega)]
    exact Nat.testBit_log2 hv

/-- The last `k` places are filled. -/
theorem or_mask (n k : ℕ) : n ||| (2 ^ k - 1) = 2 ^ k * (n / 2 ^ k) + (2 ^ k - 1) := by
  have hlt : 2 ^ k - 1 < 2 ^ k := Nat.sub_lt (Nat.two_pow_pos k) Nat.one_pos
  rw [Nat.two_pow_add_eq_or_of_lt hlt]
  refine Nat.eq_of_testBit_eq fun i => ?_
  rw [Nat.testBit_or, Nat.testBit_or, Nat.testBit_two_pow_sub_one, Nat.testBit_two_pow_mul]
  by_cases hi : i < k
  · simp [hi]
  · have hk : k ≤ i := Nat.le_of_not_lt hi
    rw [Nat.testBit_div_two_pow, Nat.sub_add_cancel hk]
    simp [hi, hk]

end LuaSys.Lib
