import LuaSys.Mem.Membuf
import Mathlib.Algebra.Order.Group.Int
import Mathlib.Algebra.Order.Ring.Int
import Mathlib.Data.Int.ModEq
import Mathlib.Tactic.Linarith
import Mathlib.Tactic.Ring

/-!
# Growth of a memory buffer

When `membuf_addlstring` comes to an end, and when its result is what it says: that there
is room.  The fields of a buffer are values of type `int`, and beyond that nothing is
assumed about them, so the results are about every buffer that the functions can produce.

The doubling runs before the test whether the buffer may grow at all.  So a buffer without
a block, as `mem.pointer ()` returns it, makes the loop run forever.  And the length is
stored as an `int`: a length from `2 ^ 31` on is reported as a success, but it is not what
is stored.

## Main definitions

* `Membuf.IntFields` — the fields have the range of their type.
* `Membuf.GrowthEnds` — the function returns, and a success means that there is room.
* `Membuf.CanGrow` — the condition for it.

## Main results

* `growthEnds_iff` — growth ends well exactly under this condition.
* `empty_buffer_grows_forever` — the loop for a buffer without capacity.
-/

namespace LuaSys.Mem

open LuaSys.Lib

/-! ## The loop -/

/-- A multiple of a `size_t` wraps around like a multiple of the integer. -/
theorem sizeT_mul_sizeT (c : ℕ) (n : ℤ) : sizeT ((c * sizeT n : ℕ) : ℤ) = sizeT (c * n) := by
  have hn : ((sizeT n : ℕ) : ℤ) = n % 0x10000000000000000 := by
    simp only [sizeT]
    omega
  simp only [sizeT] at hn ⊢
  rw [Nat.cast_mul, hn, Int.mul_emod, Int.emod_emod_of_dvd _ (dvd_refl _), ← Int.mul_emod]

/-- The loop runs forever when no power of two times the length is enough. -/
theorem doubleLen_none {newlen : ℕ} {n : ℤ} (h : ∀ k, 1 ≤ k → sizeT (2 ^ k * n) ≤ newlen)
    (fuel : ℕ) : doubleLen fuel (sizeT n) newlen = none := by
  induction fuel generalizing n with
  | zero => rfl
  | succ fuel ih =>
      have hdouble : sizeT (2 * (sizeT n : ℕ)) = sizeT (2 * n) := by
        have := sizeT_mul_sizeT 2 n
        push_cast at this
        exact this
      have hone := h 1 le_rfl
      rw [pow_one] at hone
      rw [doubleLen, hdouble, if_pos hone]
      apply ih
      intro k hk
      have hnext := h (k + 1) (Nat.le_succ_of_le hk)
      rwa [pow_succ, mul_assoc] at hnext

/-- The loop ends with the first power of two times the length that is enough. -/
theorem doubleLen_first {fuel len newlen len' : ℕ} (hlen : len ≤ newlen) (hnew : newlen < 2 ^ 63)
    (h : doubleLen fuel len newlen = some len') :
    (∃ k, len' = len * 2 ^ k) ∧ ∀ k, newlen < len * 2 ^ k → len' ≤ len * 2 ^ k := by
  induction fuel generalizing len with
  | zero => exact absurd h (by simp [doubleLen])
  | succ fuel ih =>
      -- The length itself is not enough, so one factor can be taken out.
      have hsucc : ∀ k, newlen < len * 2 ^ k → ∃ j, k = j + 1 ∧ len * 2 ^ k = 2 * len * 2 ^ j := by
        intro k hk
        cases k with
        | zero => omega
        | succ j =>
            refine ⟨j, rfl, ?_⟩
            rw [Nat.pow_succ]
            ring
      rw [doubleLen, Membuf.sizeT_double hlen hnew] at h
      split at h
      · rename_i hle
        obtain ⟨⟨k, hk⟩, hleast⟩ := ih hle h
        refine ⟨⟨k + 1, ?_⟩, fun j hj => ?_⟩
        · rw [hk, Nat.pow_succ]
          ring
        · obtain ⟨i, rfl, heq⟩ := hsucc j hj
          rw [heq] at hj ⊢
          exact hleast i hj
      · obtain rfl := Option.some.inj h
        refine ⟨⟨1, by ring⟩, fun j hj => ?_⟩
        obtain ⟨i, rfl, heq⟩ := hsucc j hj
        rw [heq]
        exact Nat.le_mul_of_pos_right _ (Nat.two_pow_pos i)

namespace Membuf

/-- The fields of type `int` are in its range. -/
structure IntFields (mb : Membuf) : Prop where
  len : -2 ^ 31 ≤ mb.len ∧ mb.len < 2 ^ 31
  offset : -2 ^ 31 ≤ mb.offset ∧ mb.offset < 2 ^ 31

/-- `membuf_addlstring` returns, and if it reports success, more than the bytes wanted fit
into the buffer. -/
def GrowthEnds (mb : Membuf) (size : ℕ) (realloc : Option Lib.Mem) : Prop :=
  ∃ fuel ok mb', mb.reserve fuel size realloc = some (ok, mb') ∧
    (ok = true → mb.offset + size < mb'.len)

/-- There is room already; or the length is positive, and the buffer may not grow, or
`realloc` fails, or a power of two times the length is enough and below `2 ^ 31`. -/
def CanGrow (mb : Membuf) (size : ℕ) (realloc : Option Lib.Mem) : Prop :=
  mb.offset + size < mb.len ∧ (0 ≤ mb.offset + size ∨ mb.len < 0) ∨
    0 < mb.len ∧ 0 ≤ mb.offset + size ∧
      (mb.alloc = false ∨ realloc = none ∨
        ∃ k : ℕ, mb.offset + size < mb.len * 2 ^ k ∧ mb.len * 2 ^ k < 2 ^ 31)

section Growth

variable {mb : Membuf} {size : ℕ} {realloc : Option Lib.Mem}

/-- A want below zero is a huge `size_t`, which no power of two times the length
exceeds. -/
theorem sizeT_pow_mul_le {n want : ℤ} (hn : -2 ^ 31 ≤ n ∧ n < 2 ^ 31)
    (hwant : -2 ^ 31 ≤ want ∧ want < 0) (hle : 0 ≤ n ∨ n ≤ want) (k : ℕ) (hk : 1 ≤ k) :
    sizeT (2 ^ k * n) ≤ sizeT want := by
  by_cases hbig : 33 ≤ k
  · -- The product is a multiple of `2 ^ 33`.
    obtain ⟨j, rfl⟩ := Nat.exists_eq_add_of_le hbig
    have hfactor : (2 : ℤ) ^ (33 + j) * n = 2 ^ 33 * (2 ^ j * n) := by ring
    rw [hfactor]
    generalize (2 : ℤ) ^ j * n = m
    simp only [sizeT]
    omega
  · obtain ⟨c, hc⟩ : ∃ c : ℤ, c = 2 ^ k := ⟨_, rfl⟩
    have hlow : 2 ≤ c := by
      calc (2 : ℤ) = 2 ^ 1 := (pow_one 2).symm
        _ ≤ 2 ^ k := pow_le_pow_right₀ (by norm_num) hk
        _ = c := hc.symm
    have hhigh : c ≤ 2 ^ 32 := by
      rw [hc]
      exact pow_le_pow_right₀ (by norm_num) (by omega)
    rw [← hc]
    rcases hle with hpos | hneg
    · have h₁ : 0 ≤ c * n := mul_nonneg (by omega) hpos
      have h₂ : c * n ≤ 2 ^ 32 * 2 ^ 31 := by
        apply mul_le_mul hhigh (by omega) hpos (by norm_num)
      simp only [sizeT]
      omega
    · have h₁ : c * n ≤ n := by nlinarith
      have h₂ : -(2 ^ 32 * 2 ^ 31) ≤ c * n := by nlinarith
      simp only [sizeT]
      omega

/-- A want that is not negative, as a `size_t`. -/
theorem sizeT_want {want : ℤ} (h : 0 ≤ want ∧ want < 2 ^ 32) : (sizeT want : ℤ) = want := by
  simp only [sizeT]
  omega

/-- The function returns at once when there is room. -/
theorem growthEnds_of_lt (hroom : sizeT (mb.offset + size) < sizeT mb.len) :
    mb.GrowthEnds size realloc ↔ mb.offset + size < mb.len := by
  have hrun : ∀ fuel, mb.reserve fuel size realloc = some (true, mb) := fun fuel => by
    rw [Membuf.reserve, if_neg (Nat.not_le.mpr hroom)]
  constructor
  · rintro ⟨fuel, ok, mb', h, hok⟩
    obtain ⟨rfl, rfl⟩ := Prod.mk.inj (Option.some.inj ((hrun fuel).symm.trans h))
    exact hok rfl
  · exact fun hlt => ⟨0, true, mb, hrun 0, fun _ => hlt⟩

/-- What the function does after its loop. -/
theorem reserve_of_le (realloc : Option Lib.Mem) {fuel len' : ℕ}
    (hfull : sizeT mb.len ≤ sizeT (mb.offset + size))
    (hlen' : doubleLen fuel (sizeT mb.len) (sizeT (mb.offset + size)) = some len') :
    ∃ ok mb', mb.reserve fuel size realloc = some (ok, mb') ∧
      (ok = true ↔ mb.alloc = true ∧ realloc ≠ none) ∧ (ok = true → mb'.len = int32 len') := by
  rw [Membuf.reserve, if_pos hfull, hlen', Option.map_some]
  cases halloc : mb.alloc with
  | false => exact ⟨_, _, rfl, by simp, by simp⟩
  | true =>
      cases realloc with
      | none => exact ⟨_, _, rfl, by simp, by simp⟩
      | some block => exact ⟨_, _, rfl, by simp, fun _ => rfl⟩

/-- The loop ends exactly if the length is positive and the want is not negative. -/
theorem doubleLen_ends_iff (h : mb.IntFields) (hsize : size < 2 ^ 31)
    (hfull : sizeT mb.len ≤ sizeT (mb.offset + size)) :
    (∃ fuel len', doubleLen fuel (sizeT mb.len) (sizeT (mb.offset + size)) = some len') ↔
      0 < mb.len ∧ 0 ≤ mb.offset + size := by
  have hlen := h.len
  have hoff := h.offset
  constructor
  · rintro ⟨fuel, len', hrun⟩
    by_contra hnot
    have hnone : ∀ k, 1 ≤ k → sizeT (2 ^ k * mb.len) ≤ sizeT (mb.offset + size) := by
      by_cases hwant : 0 ≤ mb.offset + size
      · have hzero : mb.len = 0 := by
          by_contra hne
          have hw := sizeT_want ⟨hwant, by omega⟩
          have hneg : (sizeT mb.len : ℤ) = 2 ^ 64 + mb.len := by
            simp only [sizeT]
            omega
          omega
        intro k _
        rw [hzero, mul_zero]
        exact Nat.zero_le _
      · refine sizeT_pow_mul_le hlen ⟨by omega, by omega⟩ ?_
        by_cases hpos : 0 ≤ mb.len
        · exact Or.inl hpos
        · right
          simp only [sizeT] at hfull
          omega
    rw [doubleLen_none hnone] at hrun
    exact absurd hrun (by simp)
  · rintro ⟨hpos, hwant⟩
    have hw := sizeT_want ⟨hwant, by omega⟩
    have hl : (sizeT mb.len : ℤ) = mb.len := sizeT_want ⟨by omega, by omega⟩
    obtain ⟨len', hrun⟩ : ∃ len', doubleLen 33 (sizeT mb.len) (sizeT (mb.offset + size)) = some len' :=
      doubleLen_isSome hfull (by omega) (by omega)
    exact ⟨33, len', hrun⟩

/-- A doubled length is what is stored, and enough, exactly if it is below `2 ^ 31`. -/
theorem int32_doubled_iff {len newlen len' : ℕ} (hle : newlen < len' ∧ len' ≤ 2 * newlen)
    (hnew : newlen < 2 ^ 32)
    (hfirst : (∃ k, len' = len * 2 ^ k) ∧ ∀ k, newlen < len * 2 ^ k → len' ≤ len * 2 ^ k) :
    (newlen : ℤ) < int32 len' ↔ ∃ k : ℕ, newlen < len * 2 ^ k ∧ len * 2 ^ k < 2 ^ 31 := by
  have hint : (newlen : ℤ) < int32 len' ↔ len' < 2 ^ 31 := by
    simp only [int32]
    omega
  rw [hint]
  constructor
  · intro hlt
    obtain ⟨k, rfl⟩ := hfirst.1
    exact ⟨k, hle.1, hlt⟩
  · rintro ⟨k, hk, hlt⟩
    exact Nat.lt_of_le_of_lt (hfirst.2 k hk) hlt

/-- The stored length after the loop is enough exactly if some doubled length is below
`2 ^ 31`. -/
theorem stored_iff (h : mb.IntFields) (hsize : size < 2 ^ 31) (hpos : 0 < mb.len)
    (hwant : 0 ≤ mb.offset + size) (hfull : sizeT mb.len ≤ sizeT (mb.offset + size))
    {fuel len' : ℕ} (hlen' : doubleLen fuel (sizeT mb.len) (sizeT (mb.offset + size)) = some len') :
    mb.offset + size < int32 len' ↔
      ∃ k : ℕ, mb.offset + size < mb.len * 2 ^ k ∧ mb.len * 2 ^ k < 2 ^ 31 := by
  have hlen := h.len
  have hoff := h.offset
  have hw := sizeT_want ⟨hwant, by omega⟩
  have hl : (sizeT mb.len : ℤ) = mb.len := sizeT_want ⟨by omega, by omega⟩
  have hiff := int32_doubled_iff (doubleLen_spec hfull (by omega) hlen') (by omega)
    (doubleLen_first hfull (by omega) hlen')
  rw [hw] at hiff
  rw [hiff]
  refine exists_congr fun k => ?_
  rw [← Int.ofNat_lt, ← Int.ofNat_lt, hw]
  push_cast
  rw [hl]

/-- Without room, growth ends well exactly under the condition. -/
theorem growthEnds_of_le (h : mb.IntFields) (hsize : size < 2 ^ 31)
    (hfull : sizeT mb.len ≤ sizeT (mb.offset + size)) :
    mb.GrowthEnds size realloc ↔ 0 < mb.len ∧ 0 ≤ mb.offset + size ∧
      (mb.alloc = false ∨ realloc = none ∨
        ∃ k : ℕ, mb.offset + size < mb.len * 2 ^ k ∧ mb.len * 2 ^ k < 2 ^ 31) := by
  constructor
  · rintro ⟨fuel, ok, mb', hrun, hok⟩
    obtain ⟨len', hlen'⟩ : ∃ len',
        doubleLen fuel (sizeT mb.len) (sizeT (mb.offset + size)) = some len' := by
      rw [Membuf.reserve, if_pos hfull] at hrun
      obtain ⟨len', hlen', -⟩ := Option.map_eq_some_iff.mp hrun
      exact ⟨len', hlen'⟩
    obtain ⟨hpos, hwant⟩ := (doubleLen_ends_iff h hsize hfull).mp ⟨fuel, len', hlen'⟩
    refine ⟨hpos, hwant, ?_⟩
    obtain ⟨ok₁, mb₁, hrun₁, hok₁, hstored⟩ := reserve_of_le realloc hfull hlen'
    obtain ⟨rfl, rfl⟩ := Prod.mk.inj (Option.some.inj (hrun₁.symm.trans hrun))
    by_cases halloc : mb.alloc = true
    · by_cases hnone : realloc = none
      · exact Or.inr (Or.inl hnone)
      · right
        right
        have htrue := hok₁.mpr ⟨halloc, hnone⟩
        have hlt := hok htrue
        rw [hstored htrue] at hlt
        exact (stored_iff h hsize hpos hwant hfull hlen').mp hlt
    · exact Or.inl (by simpa using halloc)
  · rintro ⟨hpos, hwant, hcond⟩
    obtain ⟨fuel, len', hlen'⟩ := (doubleLen_ends_iff h hsize hfull).mpr ⟨hpos, hwant⟩
    obtain ⟨ok, mb', hrun, hok, hstored⟩ := reserve_of_le realloc hfull hlen'
    refine ⟨fuel, ok, mb', hrun, fun htrue => ?_⟩
    obtain ⟨halloc, hnone⟩ := hok.mp htrue
    have hk := (hcond.resolve_left (by simp [halloc])).resolve_left hnone
    rw [hstored htrue]
    exact (stored_iff h hsize hpos hwant hfull hlen').mpr hk

end Growth

/-- **Growth ends well exactly under this condition.**  For every buffer with fields of
type `int`, every size below `2 ^ 31` and every result of `realloc`, `membuf_addlstring`
returns, and with success only if there is room, exactly when there is room already, or
the length is positive and the buffer may not grow, or `realloc` fails, or a doubled
length is enough before it reaches `2 ^ 31`. -/
theorem growthEnds_iff {mb : Membuf} (h : mb.IntFields) {size : ℕ} (hsize : size < 2 ^ 31)
    (realloc : Option Lib.Mem) : mb.GrowthEnds size realloc ↔ mb.CanGrow size realloc := by
  have hlen := h.len
  have hoff := h.offset
  -- The comparison of the sizes, as one of integers.
  have hcompare : sizeT (mb.offset + size) < sizeT mb.len ↔
      (0 ≤ mb.offset + size ∧ mb.len < 0) ∨
        mb.offset + size < mb.len ∧ (0 ≤ mb.offset + size ∨ mb.len < 0) := by
    simp only [sizeT]
    omega
  by_cases hroom : sizeT (mb.offset + size) < sizeT mb.len
  · rw [growthEnds_of_lt hroom, CanGrow]
    rw [hcompare] at hroom
    constructor
    · intro hlt
      exact Or.inl ⟨hlt, by omega⟩
    · rintro (⟨hlt, -⟩ | ⟨hpos, hwant, -⟩)
      · exact hlt
      · omega
  · rw [growthEnds_of_le h hsize (Nat.not_lt.mp hroom), CanGrow]
    rw [hcompare] at hroom
    constructor
    · exact Or.inr
    · rintro (⟨hlt, hsign⟩ | hgrow)
      · exact absurd (Or.inr ⟨hlt, hsign⟩) hroom
      · exact hgrow

/-- A buffer as `mem.pointer (n)` returns it. -/
def memNew (n : ℕ) : Membuf where
  data _ := 0
  size := n
  len := int32 n
  offset := 0
  alloc := false

/-- A buffer of 128 bytes that is filled, and one more byte. -/
theorem growthEnds_iff_filled : GrowthEnds
    { memNew 128 with alloc := true, offset := 128 } 1 (some fun _ => 0) := by
  have hfields : IntFields { memNew 128 with alloc := true, offset := 128 } :=
    ⟨by decide, by decide⟩
  refine (growthEnds_iff hfields (by decide) _).mpr (Or.inr ⟨by decide, by decide, ?_⟩)
  exact Or.inr (Or.inr ⟨1, by decide, by decide⟩)

/-- The buffer of `mem.pointer ()` has no capacity: the loop of a write or of `reserve`
runs forever.  And a buffer of `2 ^ 30` bytes that is full up to one byte reports with one
more byte that it has grown, and its length is negative. -/
theorem empty_buffer_grows_forever :
    (∀ fuel, (memNew 0).reserve fuel 1 none = none) ∧ ¬(memNew 0).GrowthEnds 1 none ∧
      ∃ mb', ({ memNew (2 ^ 30) with alloc := true, offset := 2 ^ 30 - 1 } : Membuf).reserve 31 1
        (some fun _ => 0) = some (true, mb') ∧ mb'.len = -2 ^ 31 := by
  have hforever : ∀ fuel, (memNew 0).reserve fuel 1 none = none := by
    intro fuel
    have hfull : sizeT ((memNew 0).offset + (1 : ℕ)) ≥ sizeT (memNew 0).len := by decide
    have hlen : sizeT (memNew 0).len = 0 := by decide
    rw [Membuf.reserve, if_pos hfull, hlen, doubleLen_zero, Option.map_none]
  refine ⟨hforever, ?_, _, rfl, by decide⟩
  rintro ⟨fuel, ok, mb', hrun, -⟩
  rw [hforever] at hrun
  exact absurd hrun (by simp)

end Membuf

end LuaSys.Mem
