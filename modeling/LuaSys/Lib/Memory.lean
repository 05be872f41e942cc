import Mathlib.Algebra.Group.Nat.Defs
import Mathlib.Data.List.Basic
import Mathlib.Tactic.Common

/-!
# Byte blocks

A block of memory is a total function from offsets to bytes.  The size of the
allocation is kept by the owner of the block: an owner checks the bounds of an
access before it performs one, so the functions here never fail.

A write replaces the bytes of one interval and a read lists them.  The lemmas are
the two facts every layout proof goes through: a read of the interval just
written returns what was written, and a read of a disjoint interval does not see
the write.

## Main definitions

* `Mem` — a block, as a function of the offset.
* `readBytes m off n`, `writeBytes m off bs` — the bytes of an interval.
* `le16`, `load16` — an unsigned 16-bit field, low byte first.
* `be16` — the same field in network order.
* `le64`, `load64` — a 64-bit field, low byte first.
-/

namespace LuaSys.Lib

/-- A block of bytes.  Offsets outside the allocation hold arbitrary bytes. -/
abbrev Mem := ℕ → UInt8

/-- The `n` bytes from `off` on. -/
def readBytes (m : Mem) (off n : ℕ) : List UInt8 :=
  (List.range n).map fun i => m (off + i)

/-- Replace the bytes from `off` on by `bs`. -/
def writeBytes (m : Mem) (off : ℕ) (bs : List UInt8) : Mem :=
  fun i => if off ≤ i ∧ i < off + bs.length then bs.getD (i - off) 0 else m i

/-! ## Reading -/

@[simp] theorem length_readBytes (m : Mem) (off n : ℕ) :
    (readBytes m off n).length = n := by simp [readBytes]

@[simp] theorem readBytes_zero (m : Mem) (off : ℕ) : readBytes m off 0 = [] := rfl

theorem getElem_readBytes (m : Mem) (off n i : ℕ) (h : i < (readBytes m off n).length) :
    (readBytes m off n)[i] = m (off + i) := by simp [readBytes]

/-- Two adjacent intervals read as one. -/
theorem readBytes_add (m : Mem) (off a b : ℕ) :
    readBytes m off (a + b) = readBytes m off a ++ readBytes m (off + a) b := by
  simp only [readBytes, List.range_add, List.map_append, List.map_map, List.append_cancel_left_eq]
  refine List.map_congr_left fun i _ => ?_
  simp [Nat.add_assoc]

/-- A read depends on the bytes of its interval only. -/
theorem readBytes_congr {m m' : Mem} {off n : ℕ} (h : ∀ i, off ≤ i → i < off + n → m i = m' i) :
    readBytes m off n = readBytes m' off n := by
  refine List.map_congr_left fun i hi => ?_
  have hi' : i < n := List.mem_range.mp hi
  exact h _ (by omega) (by omega)

/-! ## Reading after a write -/

theorem writeBytes_of_lt {m : Mem} {off i : ℕ} {bs : List UInt8} (h : i < off) :
    writeBytes m off bs i = m i := by
  simp only [writeBytes]
  rw [if_neg (by omega)]

theorem writeBytes_of_ge {m : Mem} {off i : ℕ} {bs : List UInt8} (h : off + bs.length ≤ i) :
    writeBytes m off bs i = m i := by
  simp only [writeBytes]
  rw [if_neg (by omega)]

/-- The interval just written holds what was written. -/
@[simp] theorem readBytes_writeBytes_self (m : Mem) (off : ℕ) (bs : List UInt8) :
    readBytes (writeBytes m off bs) off bs.length = bs := by
  apply List.ext_getElem
  · simp
  · intro i h₁ h₂
    have hcond : off ≤ off + i ∧ off + i < off + bs.length := by omega
    rw [getElem_readBytes, writeBytes, if_pos hcond, Nat.add_sub_cancel_left]
    simp [List.getElem?_eq_getElem h₂]

/-- A disjoint interval does not see the write. -/
theorem readBytes_writeBytes_of_disjoint {m : Mem} {off off' n : ℕ} {bs : List UInt8}
    (h : off' + n ≤ off ∨ off + bs.length ≤ off') :
    readBytes (writeBytes m off bs) off' n = readBytes m off' n := by
  refine readBytes_congr fun i h₁ h₂ => ?_
  rcases h with h | h
  · exact writeBytes_of_lt (by omega)
  · exact writeBytes_of_ge (by omega)

/-! ## Sixteen-bit fields -/

/-- The two bytes of a 16-bit field, low byte first. -/
def le16 (n : ℕ) : List UInt8 := [UInt8.ofNat (n % 256), UInt8.ofNat (n / 256)]

/-- The two bytes of a 16-bit field in network order. -/
def be16 (n : ℕ) : List UInt8 := [UInt8.ofNat (n / 256), UInt8.ofNat (n % 256)]

/-- Read a 16-bit field, low byte first. -/
def load16 (m : Mem) (off : ℕ) : ℕ := (m off).toNat + 256 * (m (off + 1)).toNat

@[simp] theorem length_le16 (n : ℕ) : (le16 n).length = 2 := rfl
@[simp] theorem length_be16 (n : ℕ) : (be16 n).length = 2 := rfl

/-- The field is determined by the two bytes of its interval. -/
theorem load16_of_readBytes {m : Mem} {off n : ℕ} (h : readBytes m off 2 = le16 n)
    (hn : n < 65536) : load16 m off = n := by
  have hbytes : [m off, m (off + 1)] = le16 n := by simpa [readBytes, List.range_succ] using h
  simp only [le16, List.cons.injEq, and_true] at hbytes
  simp only [load16, hbytes.1, hbytes.2, UInt8.toNat_ofNat']
  omega

/-! ## Sixty-four-bit fields -/

/-- The bytes of a 64-bit field, low byte first. -/
def le64 (n : UInt64) : List UInt8 :=
  (List.range 8).map fun i => UInt8.ofNat (n.toNat / 256 ^ i % 256)

/-- Read a 64-bit field, low byte first. -/
def load64 (m : Mem) (off : ℕ) : UInt64 :=
  UInt64.ofNat ((List.range 8).foldr (fun i n => (m (off + i)).toNat + 256 * n) 0)

@[simp] theorem length_le64 (n : UInt64) : (le64 n).length = 8 := rfl

/-- The field is determined by the eight bytes of its interval. -/
theorem load64_of_readBytes {m : Mem} {off : ℕ} {n : UInt64} (h : readBytes m off 8 = le64 n) :
    load64 m off = n := by
  have hbyte : ∀ i < 8, (m (off + i)).toNat = n.toNat / 256 ^ i % 256 := by
    intro i hi
    have hget := congrArg (fun l => l[i]?) h
    simp only [readBytes, le64, List.getElem?_map, List.getElem?_range hi, Option.map_some] at hget
    rw [Option.some.inj hget, UInt8.toNat_ofNat']
    omega
  have hlt := n.toNat_lt
  apply UInt64.toNat.inj
  simp only [load64, List.range, List.range.loop, List.foldr, UInt64.toNat_ofNat']
  rw [hbyte 0, hbyte 1, hbyte 2, hbyte 3, hbyte 4, hbyte 5, hbyte 6, hbyte 7] <;> omega

end LuaSys.Lib
