import Mathlib.Algebra.Group.Int.Defs
import Mathlib.Algebra.Group.Nat.Defs
import Mathlib.Data.Int.Bitwise
import Mathlib.Tactic.Common

/-!
# Memory by its bits

A memory is a function from addresses to bytes.  Numbers lie in it with the low byte first, so
that the bits of a number are bits of the memory in the same order, and a store and a load are
compared bit by bit: a store changes the bits of its interval, a load depends on the bits of its
interval.

## Main definitions

* `memBit m k` — the bit `k` of the memory, counted from the lowest bit of the byte 0.
* `loadLE m a n`, `storeLE m a n v` — a number of `n` bytes at the address `a`.
* `copyBytes m a bs` — the bytes `bs` at the address `a`.
* `setBit m k b` — a single bit.
* `toSigned w n` — the number of `w` bits `n`, read as a signed one.

## Main results

* `testBit_loadLE`, `memBit_storeLE`, `memBit_copyBytes`, `memBit_setBit` — all of them by bits.
* `loadLE_storeLE` — what has been stored is loaded.
* `testBit_toSigned` — the bits of a signed number.
* `and_bit_ne_zero` — a bit of a byte, as C tests it.
-/

namespace LuaSys.Lib

variable {m m' : ℤ → UInt8} {a k : ℤ} {n v : ℕ}

/-- A bit of the memory. -/
def memBit (m : ℤ → UInt8) (k : ℤ) : Bool := (m (k / 8)).toNat.testBit (k % 8).toNat

/-- Load a number of `n` bytes. -/
def loadLE (m : ℤ → UInt8) (a : ℤ) : ℕ → ℕ
  | 0 => 0
  | n + 1 => (m a).toNat + 2 ^ 8 * loadLE m (a + 1) n

/-- Store a number of `n` bytes. -/
def storeLE (m : ℤ → UInt8) (a : ℤ) (n v : ℕ) : ℤ → UInt8 :=
  fun i => if a ≤ i ∧ i < a + n then UInt8.ofNat (v >>> (8 * (i - a).toNat)) else m i

/-- Copy bytes to the address. -/
def copyBytes (m : ℤ → UInt8) (a : ℤ) (bs : List UInt8) : ℤ → UInt8 :=
  fun i => if a ≤ i ∧ i < a + bs.length then bs.getD (i - a).toNat 0 else m i

/-- Set or clear the bit `r` of the byte at the address. -/
def setBit (m : ℤ → UInt8) (a : ℤ) (r : ℕ) (b : Bool) : ℤ → UInt8 :=
  fun i => if i = a then
    if b then m i ||| UInt8.ofNat (1 <<< r) else m i &&& ~~~(UInt8.ofNat (1 <<< r))
  else m i

/-- A number of `w` bits, read as a signed one. -/
def toSigned (w n : ℕ) : ℤ := if n < 2 ^ (w - 1) then n else n - 2 ^ w

/-! ## Loads -/

theorem testBit_loadLE (m : ℤ → UInt8) (a : ℤ) (n k : ℕ) :
    (loadLE m a n).testBit k = (decide (k < 8 * n) && memBit m (8 * a + k)) := by
  induction n generalizing a k with
  | zero => simp [loadLE]
  | succ n ih =>
      have hbyte : (m a).toNat < 2 ^ 8 := (m a).toNat_lt
      rw [loadLE, Nat.add_comm, Nat.testBit_two_pow_mul_add _ hbyte]
      by_cases hk : k < 8
      · have hdiv : (8 * a + (k : ℤ)) / 8 = a := by omega
        have hmod : ((8 * a + (k : ℤ)) % 8).toNat = k := by omega
        rw [if_pos hk, memBit, hdiv, hmod, decide_eq_true (by omega), Bool.true_and]
      · have haddr : 8 * (a + 1) + ((k - 8 : ℕ) : ℤ) = 8 * a + k := by omega
        have hlt : (k - 8 < 8 * n) = (k < 8 * (n + 1)) := propext (by omega)
        rw [if_neg hk, ih, haddr]
        simp only [hlt]

theorem loadLE_lt (m : ℤ → UInt8) (a : ℤ) (n : ℕ) : loadLE m a n < 2 ^ (8 * n) := by
  refine Nat.lt_pow_two_of_testBit _ fun i hi => ?_
  rw [testBit_loadLE, decide_eq_false (by omega), Bool.false_and]

/-- A load depends on the bits of its interval. -/
theorem loadLE_congr (h : ∀ k, 8 * a ≤ k → k < 8 * (a + n) → memBit m k = memBit m' k) :
    loadLE m a n = loadLE m' a n := by
  refine Nat.eq_of_testBit_eq fun k => ?_
  rw [testBit_loadLE, testBit_loadLE]
  by_cases hk : k < 8 * n
  · rw [h (8 * a + k) (by omega) (by omega)]
  · rw [decide_eq_false hk, Bool.false_and, Bool.false_and]

/-! ## Stores -/

theorem memBit_storeLE : memBit (storeLE m a n v) k =
    if 8 * a ≤ k ∧ k < 8 * (a + n) then v.testBit (k - 8 * a).toNat else memBit m k := by
  have hrange : (a ≤ k / 8 ∧ k / 8 < a + n) = (8 * a ≤ k ∧ k < 8 * (a + n)) :=
    propext ⟨fun _ => by omega, fun _ => by omega⟩
  rw [memBit, storeLE]
  simp only [hrange]
  split
  next hk =>
    have hmod : (k % 8).toNat < 8 := by omega
    have hsum : 8 * (k / 8 - a).toNat + (k % 8).toNat = (k - 8 * a).toNat := by omega
    rw [UInt8.toNat_ofNat', Nat.testBit_mod_two_pow, decide_eq_true hmod, Bool.true_and,
      Nat.testBit_shiftRight, hsum]
  next => rfl

/-- What has been stored is loaded. -/
theorem loadLE_storeLE : loadLE (storeLE m a n v) a n = v % 2 ^ (8 * n) := by
  refine Nat.eq_of_testBit_eq fun k => ?_
  rw [testBit_loadLE, memBit_storeLE, Nat.testBit_mod_two_pow]
  by_cases hk : k < 8 * n
  · rw [if_pos (by omega), show (8 * a + (k : ℤ) - 8 * a).toNat = k by omega]
  · rw [decide_eq_false hk, Bool.false_and, Bool.false_and]

theorem memBit_copyBytes {bs : List UInt8} (h : k < 8 * a ∨ 8 * (a + bs.length) ≤ k) :
    memBit (copyBytes m a bs) k = memBit m k := by
  have hout : ¬(a ≤ k / 8 ∧ k / 8 < a + bs.length) := by omega
  rw [memBit, copyBytes, if_neg hout, memBit]

/-- The bit `r` of a byte, as C tests it. -/
theorem and_bit_ne_zero (b : UInt8) {r : ℕ} (hr : r < 8) :
    b &&& UInt8.ofNat (1 <<< r) ≠ 0 ↔ b.toNat.testBit r = true := by
  have hpow : 2 ^ r < 2 ^ 8 := Nat.pow_lt_pow_right (by decide) hr
  rw [ne_eq, ← UInt8.toNat_inj, UInt8.toNat_and, UInt8.toNat_ofNat', Nat.one_shiftLeft,
    Nat.mod_eq_of_lt hpow, Nat.and_two_pow]
  cases b.toNat.testBit r <;> simp

theorem memBit_setBit {r : ℕ} {b : Bool} (hr : r < 8) :
    memBit (setBit m a r b) k = if k = 8 * a + r then b else memBit m k := by
  rw [memBit, setBit]
  by_cases ha : k / 8 = a
  · have hk : (k = 8 * a + r) = (r = (k % 8).toNat) :=
      propext ⟨fun _ => by omega, fun _ => by omega⟩
    have hmod : (k % 8).toNat < 8 := by omega
    have hbit :
        (UInt8.ofNat (1 <<< r)).toNat.testBit (k % 8).toNat = decide (r = (k % 8).toNat) := by
      rw [UInt8.toNat_ofNat', Nat.testBit_mod_two_pow, decide_eq_true hmod, Bool.true_and,
        Nat.one_shiftLeft, Nat.testBit_two_pow]
    have hnot : (~~~(UInt8.ofNat (1 <<< r))).toNat.testBit (k % 8).toNat =
        !decide (r = (k % 8).toNat) := by
      rw [UInt8.toNat_not, show UInt8.size - 1 - (UInt8.ofNat (1 <<< r)).toNat =
          2 ^ 8 - ((UInt8.ofNat (1 <<< r)).toNat + 1) by simp only [UInt8.size]; omega,
        Nat.testBit_two_pow_sub_succ (UInt8.ofNat (1 <<< r)).toNat_lt, hbit, decide_eq_true hmod,
        Bool.true_and]
    simp only [if_pos ha, hk]
    cases b with
    | true =>
        rw [if_pos rfl, UInt8.toNat_or, Nat.testBit_or, hbit]
        by_cases h : r = (k % 8).toNat <;> simp [h, memBit]
    | false =>
        rw [if_neg Bool.false_ne_true, UInt8.toNat_and, Nat.testBit_and, hnot]
        by_cases h : r = (k % 8).toNat <;> simp [h, memBit]
  · have hk : k ≠ 8 * a + r := by omega
    rw [if_neg ha, if_neg hk, memBit]

/-! ## Signed numbers -/

/-- A signed number is read again. -/
theorem toSigned_mod {w : ℕ} {z : ℤ} (hw : w ≠ 0) (hlow : -2 ^ (w - 1) ≤ z)
    (hhigh : z < 2 ^ (w - 1)) : toSigned w (z % 2 ^ w).toNat = z := by
  have hpow : 2 ^ w = 2 * 2 ^ (w - 1) := by
    rw [Nat.mul_comm, ← Nat.pow_succ, Nat.succ_eq_add_one,
      Nat.sub_add_cancel (Nat.pos_of_ne_zero hw)]
  have hcast : (2 : ℤ) ^ w = (2 * 2 ^ (w - 1) : ℕ) := by
    rw [← hpow, Nat.cast_pow, Nat.cast_ofNat]
  have hhalf : (2 : ℤ) ^ (w - 1) = (2 ^ (w - 1) : ℕ) := by rw [Nat.cast_pow, Nat.cast_ofNat]
  rw [hhalf] at hlow hhigh
  rw [toSigned, hcast]
  generalize 2 ^ (w - 1) = p at hlow hhigh
  by_cases hz : 0 ≤ z
  · rw [Int.emod_eq_of_lt hz (by omega), if_pos (by omega), Int.toNat_of_nonneg hz]
  · have hmod : z % (2 * p : ℕ) = z + (2 * p : ℕ) := by
      rw [← Int.add_emod_right, Int.emod_eq_of_lt (by omega) (by omega)]
    rw [hmod, if_neg (by omega)]
    omega

/-- The bits of a signed number are those of the number. -/
theorem testBit_toSigned {w : ℕ} (hn : n < 2 ^ w) {i : ℕ} (hi : i < w) :
    (toSigned w n).testBit i = n.testBit i := by
  rw [toSigned]
  split
  · rfl
  · have hneg : (n : ℤ) - 2 ^ w = Int.negSucc (2 ^ w - (n + 1)) := by
      have hcast : (2 : ℤ) ^ w = (2 ^ w : ℕ) := by rw [Nat.cast_pow, Nat.cast_ofNat]
      rw [hcast, Int.negSucc_eq]
      omega
    rw [hneg, Int.testBit, Nat.testBit_two_pow_sub_succ hn, decide_eq_true hi, Bool.true_and,
      Bool.not_not]

end LuaSys.Lib
