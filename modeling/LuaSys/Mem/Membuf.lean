import LuaSys.Lib.Memory
import LuaSys.Lib.Word

/-!
# Memory buffers

`struct membuf` without streams, and the part of `membuf_addlstring` that makes room:
a buffer that owns its block doubles its length until more than the wanted bytes fit.

The length is a `size_t` in this loop and an `int` in the buffer.  A length of zero is
never more than what is wanted, however often it is doubled.  A length from `2 ^ 31` on
is stored as a negative `int`, which converts to a huge `size_t`: from then on the
buffer is never found to be too small.

A write outside the block is `none`, and so is a loop that does not end.

## Main definitions

* `Membuf` — the buffer and its block.
* `Membuf.reserve` — `membuf_addlstring` without a string.
* `Membuf.store` — a write to the block.
* `Membuf.Growable` — buffers that own a block.

## Main results

* `Membuf.Growable.reserve` — below `2 ^ 31` bytes there is room afterwards, and the
  bytes of the buffer are still there.
-/

namespace LuaSys.Mem

open LuaSys.Lib

/-- `struct membuf`, with the bytes and the size of the block it points to. -/
structure Membuf where
  /-- The bytes at `data`. -/
  data : Lib.Mem
  /-- The size of the block. -/
  size : ℕ
  len : ℤ
  offset : ℤ
  /-- `MEM_ALLOC`: the block comes from `malloc`. -/
  alloc : Bool

/-- `while ((len *= 2) <= newlen) continue;` -/
def doubleLen : ℕ → ℕ → ℕ → Option ℕ
  | 0, _, _ => none
  | fuel + 1, len, newlen =>
      if sizeT (2 * len) ≤ newlen then doubleLen fuel (sizeT (2 * len)) newlen
      else some (sizeT (2 * len))

namespace Membuf

/-- `membuf_addlstring (L, mb, NULL, size)`: its result, and the buffer.  `realloc` is
the new block, or `none`; the bytes of the old one are kept. -/
def reserve (fuel : ℕ) (mb : Membuf) (size : ℕ) (realloc : Option Lib.Mem) :
    Option (Bool × Membuf) :=
  let newlen := sizeT (mb.offset + size)
  if newlen ≥ sizeT mb.len then
    (doubleLen fuel (sizeT mb.len) newlen).map fun len =>
      match mb.alloc, realloc with
      | true, some block =>
          (true, { mb with
            data := fun i => if i < mb.size then mb.data i else block i
            size := len
            len := int32 len })
      | _, _ => (false, mb)
  else some (true, mb)

/-- The part of `membuf_addlstring` that doubles the length. -/
def growTo (fuel : ℕ) (mb : Membuf) (newlen : ℕ) (realloc : Option Lib.Mem) :
    Option (Bool × Membuf) :=
  (doubleLen fuel (sizeT mb.len) newlen).map fun len =>
    match mb.alloc, realloc with
    | true, some block =>
        (true, { mb with
          data := fun i => if i < mb.size then mb.data i else block i
          size := len
          len := int32 len })
    | _, _ => (false, mb)

/-- The byte at an index of the block. -/
def byte (mb : Membuf) (i : ℤ) : UInt8 := mb.data i.toNat

/-- Write bytes to the block. -/
def store (mb : Membuf) (i : ℤ) (bs : List UInt8) : Option Membuf :=
  if 0 ≤ i ∧ i + bs.length ≤ mb.size then
    some { mb with data := writeBytes mb.data i.toNat bs }
  else none

/-- A buffer that owns its block: `len` is its size, or this size did not fit. -/
structure Growable (mb : Membuf) : Prop where
  alloc : mb.alloc = true
  len : 0 ≤ mb.len ∧ mb.size = mb.len ∧ mb.len < 2 ^ 31 ∨
    -2 ^ 31 ≤ mb.len ∧ mb.len < 0 ∧ 2 ^ 31 ≤ mb.size
  offset : 0 ≤ mb.offset ∧ mb.offset < 2 ^ 31 ∧ mb.offset ≤ mb.size

/-! ## Making room -/

theorem sizeT_double {len newlen : ℕ} (hlen : len ≤ newlen) (hnew : newlen < 2 ^ 63) :
    sizeT (2 * len) = 2 * len := by
  simp only [sizeT]
  omega

/-- The loop ends with a length that is enough. -/
theorem lt_of_doubleLen {fuel len newlen len' : ℕ} (h : doubleLen fuel len newlen = some len') :
    newlen < len' := by
  induction fuel generalizing len with
  | zero => exact absurd h (by simp [doubleLen])
  | succ fuel ih =>
      rw [doubleLen] at h
      split at h
      · exact ih h
      · next hlt =>
        rw [← Option.some.inj h]
        omega

/-- It is at most twice what is wanted. -/
theorem le_of_doubleLen {fuel len newlen len' : ℕ} (hlen : len ≤ newlen) (hnew : newlen < 2 ^ 63)
    (h : doubleLen fuel len newlen = some len') : len' ≤ 2 * newlen := by
  induction fuel generalizing len with
  | zero => exact absurd h (by simp [doubleLen])
  | succ fuel ih =>
      rw [doubleLen, sizeT_double hlen hnew] at h
      split at h
      · next hle => exact ih hle h
      · rw [← Option.some.inj h]
        omega

theorem doubleLen_spec {fuel len newlen len' : ℕ} (hlen : len ≤ newlen) (hnew : newlen < 2 ^ 63)
    (h : doubleLen fuel len newlen = some len') : newlen < len' ∧ len' ≤ 2 * newlen :=
  ⟨lt_of_doubleLen h, le_of_doubleLen hlen hnew h⟩

theorem doubleLen_isSome {fuel len newlen : ℕ} (hlen : len ≤ newlen) (hnew : newlen < 2 ^ 63)
    (hfuel : newlen < len * 2 ^ fuel) : ∃ len', doubleLen fuel len newlen = some len' := by
  induction fuel generalizing len with
  | zero => omega
  | succ fuel ih =>
      rw [doubleLen, sizeT_double hlen hnew]
      split
      · rename_i hle
        refine ih hle ?_
        rw [Nat.pow_succ] at hfuel
        calc newlen < len * (2 ^ fuel * 2) := hfuel
          _ = 2 * len * 2 ^ fuel := by rw [Nat.mul_comm (2 ^ fuel), ← Nat.mul_assoc, Nat.mul_comm len]
      · exact ⟨_, rfl⟩

/-- A length of zero stays zero. -/
theorem doubleLen_zero (fuel newlen : ℕ) : doubleLen fuel 0 newlen = none := by
  induction fuel with
  | zero => rfl
  | succ fuel ih =>
      have hzero : sizeT (2 * (0 : ℕ)) = 0 := rfl
      rw [doubleLen, hzero, if_pos (Nat.zero_le _)]
      exact ih

section reserve
variable {mb mb' : Membuf} {size fuel : ℕ} {realloc : Option Lib.Mem}

/-- The wanted length, below the limit. -/
theorem Growable.newlen_eq (h : mb.Growable) (hsize : mb.offset + size < 2 ^ 31) :
    (sizeT (mb.offset + size) : ℤ) = mb.offset + size := by
  have := h.offset
  simp only [sizeT]
  omega

/-- Room is made by doubling the length, if the wanted length is out of it. -/
theorem reserve_eq (fuel : ℕ) (mb : Membuf) (size : ℕ) (realloc : Option Lib.Mem) :
    mb.reserve fuel size realloc =
      if sizeT (mb.offset + size) ≥ sizeT mb.len then
        mb.growTo fuel (sizeT (mb.offset + size)) realloc
      else some (true, mb) := rfl

/-- Below `2 ^ 31` bytes, the buffer gets more than the wanted length or stays as it is. -/
theorem Growable.growTo (h : mb.Growable) {newlen : ℕ} (hge : sizeT mb.len ≤ newlen)
    (hnew : newlen < 2 ^ 31) (hoffset : mb.offset ≤ newlen) {ok : Bool}
    (hrun : mb.growTo fuel newlen realloc = some (ok, mb')) :
    ok = false ∧ mb' = mb ∨
      ok = true ∧ mb'.Growable ∧ mb'.offset = mb.offset ∧ newlen ≤ mb'.size ∧
        ∀ i < mb.size, mb'.data i = mb.data i := by
  have hoff := h.offset
  unfold Membuf.growTo at hrun
  obtain ⟨len', hlen', heq⟩ := Option.map_eq_some_iff.mp hrun
  have hbounds := doubleLen_spec hge (by omega) hlen'
  rw [h.alloc] at heq
  cases realloc with
  | none =>
      obtain ⟨rfl, rfl⟩ := Prod.mk.inj heq
      exact Or.inl ⟨rfl, rfl⟩
  | some block =>
      obtain ⟨rfl, rfl⟩ := Prod.mk.inj heq
      refine Or.inr ⟨rfl, ⟨rfl, ?_, ?_⟩, rfl, ?_, fun i hi => if_pos hi⟩
      · by_cases hbig : len' < 2 ^ 31
        · left
          simp only [int32]
          omega
        · right
          simp only [int32]
          omega
      · dsimp only
        omega
      · dsimp only
        omega

/-- A buffer that has grown has a length. -/
theorem growTo_len {newlen : ℕ} (hge : sizeT mb.len ≤ newlen) (hnew : newlen < 2 ^ 31)
    (hrun : mb.growTo fuel newlen realloc = some (true, mb')) : mb'.len ≠ 0 := by
  obtain ⟨len', hlen', heq⟩ := Option.map_eq_some_iff.mp hrun
  have hbounds := doubleLen_spec hge (by omega) hlen'
  have hne : int32 (len' : ℤ) ≠ 0 := by
    simp only [int32]
    omega
  cases halloc : mb.alloc <;> cases realloc <;> rw [halloc] at heq
  · exact absurd (Prod.mk.inj heq).1 (by simp)
  · exact absurd (Prod.mk.inj heq).1 (by simp)
  · exact absurd (Prod.mk.inj heq).1 (by simp)
  · obtain ⟨-, rfl⟩ := Prod.mk.inj heq
    exact hne

/-- Without a new block the buffer does not grow. -/
theorem growTo_none {newlen : ℕ} : mb.growTo fuel newlen none ≠ some (true, mb') := by
  intro h
  obtain ⟨len', -, heq⟩ := Option.map_eq_some_iff.mp h
  cases halloc : mb.alloc <;> rw [halloc] at heq <;> exact absurd (Prod.mk.inj heq).1 (by simp)

/-- Unless the length is zero, the loop ends. -/
theorem Growable.growTo_isSome (h : mb.Growable) (hlen : mb.len ≠ 0) {newlen : ℕ}
    (hge : sizeT mb.len ≤ newlen) (hnew : newlen < 2 ^ 31) (hfuel : 31 ≤ fuel)
    (realloc : Option Lib.Mem) :
    ∃ ok mb', mb.growTo fuel newlen realloc = some (ok, mb') ∧ (realloc.isSome → ok = true) := by
  have hpos : 0 < sizeT mb.len := by
    rcases h.len with hl | hl <;> simp only [sizeT] <;> omega
  have hpow : 2 ^ 31 ≤ sizeT mb.len * 2 ^ fuel := by
    calc 2 ^ 31 ≤ 2 ^ fuel := Nat.pow_le_pow_right (by omega) hfuel
      _ ≤ sizeT mb.len * 2 ^ fuel := Nat.le_mul_of_pos_left _ hpos
  obtain ⟨len', hlen'⟩ := doubleLen_isSome hge (by omega) (show _ < _ * 2 ^ fuel by omega)
  unfold Membuf.growTo
  rw [hlen', Option.map_some]
  cases realloc with
  | some block =>
      rw [h.alloc]
      exact ⟨_, _, rfl, fun _ => rfl⟩
  | none => exact ⟨_, _, rfl, fun h => absurd h (by simp)⟩

/-- Where the wanted length is below the length, there is room. -/
theorem Growable.le_size (h : mb.Growable) (hsize : mb.offset + size < 2 ^ 31)
    (hlt : ¬sizeT (mb.offset + size) ≥ sizeT mb.len) : mb.offset + size ≤ mb.size := by
  have hnew := h.newlen_eq hsize
  rcases h.len with hlen | hlen
  · have hlen' : (sizeT mb.len : ℤ) = mb.len := by
      simp only [sizeT]
      omega
    omega
  · omega

/-- Below `2 ^ 31` bytes, room is made or the buffer stays as it is. -/
theorem Growable.reserve (h : mb.Growable) (hsize : mb.offset + size < 2 ^ 31) {ok : Bool}
    (hrun : mb.reserve fuel size realloc = some (ok, mb')) :
    ok = false ∧ mb' = mb ∨
      ok = true ∧ mb'.Growable ∧ mb'.offset = mb.offset ∧ mb.offset + size ≤ mb'.size ∧
        ∀ i < mb.size, mb'.data i = mb.data i := by
  have hnew := h.newlen_eq hsize
  have hoff := h.offset
  rw [reserve_eq] at hrun
  split at hrun
  · rename_i hge
    rcases h.growTo hge (by omega) (by omega) hrun with hfail | ⟨hok, hgrow, hsame, hroom, hdata⟩
    · exact Or.inl hfail
    · exact Or.inr ⟨hok, hgrow, hsame, by omega, hdata⟩
  · rename_i hlt
    obtain ⟨rfl, rfl⟩ := Prod.mk.inj (Option.some.inj hrun)
    exact Or.inr ⟨rfl, h, rfl, h.le_size hsize hlt, fun _ _ => rfl⟩

/-- Unless the length is zero, the call ends. -/
theorem Growable.reserve_isSome (h : mb.Growable) (hlen : mb.len ≠ 0)
    (hsize : mb.offset + size < 2 ^ 31) (hfuel : 31 ≤ fuel) (realloc : Option Lib.Mem) :
    ∃ ok mb', mb.reserve fuel size realloc = some (ok, mb') ∧ (realloc.isSome → ok = true) := by
  have hnew := h.newlen_eq hsize
  rw [reserve_eq]
  split
  · rename_i hge
    exact h.growTo_isSome hlen hge (by omega) hfuel realloc
  · exact ⟨_, _, rfl, fun _ => rfl⟩

end reserve

/-- A write inside the block. -/
theorem store_eq {mb : Membuf} {i : ℤ} {n : ℕ} {bs : List UInt8} (hi : i = n)
    (hn : n + bs.length ≤ mb.size) :
    mb.store i bs = some { mb with data := writeBytes mb.data n bs } := by
  subst hi
  rw [store, if_pos (by omega), Int.toNat_natCast]

end Membuf

end LuaSys.Mem
