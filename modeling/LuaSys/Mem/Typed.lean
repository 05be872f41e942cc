import LuaSys.Lib.BitMemory
import LuaSys.Lib.Run
import LuaSys.Lib.Word
import Mathlib.Tactic.Positivity
import Mathlib.Tactic.Zify

/-!
# The elements of a memory buffer

A memory buffer has a pointer and a type, and `buf[i]` is its element `i` of this type.  The bytes
have no type: a program changes the type, or has other buffers that point to the same bytes.
There is no check of bounds.

An element is an interval of bits, one bit for the type `bitstring`.  An assignment changes the
bits of its element, or those of as many bytes as the string has, and the value of an element
depends on the bits of its own.

A number of Lua is an integer or a `lua_Number`, which is a `double`.  An assignment makes it a
`lua_Number` first.  How a processor rounds is not said here: `LuaNumbers` has the conversions, and
what is used of them is that a `double` in memory is the number that was put there.

## Main definitions

* `LuaNumbers` — the conversions of `lua_Number`.
* `MemType`, `MemView`, `memlen` — the types, a buffer, and the distance of an element.
* `MemType.encode`, `MemType.decode` — a number in the bytes of an element.
* `MemView.call` — a buffer that points to an element of another.
* `index`, `newindex` — `buf[i]` and `buf[i] = v`.
* `MemWrite`, `MemWrite.step` — what writes to the bytes, one after the other.
* `elem`, `MemWrite.written` — the bits of an element, and those that are written.

## Main results

* `last_store` — an element has the value last assigned to it, whatever buffers are used.
* `stores_foldl` — one buffer with one type is an array.
* `index_bits` — the bits of a number are elements of the type `bitstring`.
-/

namespace LuaSys.Mem

open LuaSys.Lib

/-- The conversions of `lua_Number`: from an integer, to its integer part if it is finite, and
to and from the bits of a `float` and a `double`. -/
structure LuaNumbers (ν : Type*) where
  ofInt : ℤ → ν
  trunc : ν → Option ℤ
  toFloat : ν → ℕ
  ofFloat : ℕ → ν
  toDouble : ν → ℕ
  ofDouble : ℕ → ν
  toFloat_lt : ∀ x, toFloat x < 2 ^ 32
  toDouble_lt : ∀ x, toDouble x < 2 ^ 64
  /-- `lua_Number` is `double`. -/
  ofDouble_toDouble : ∀ x, ofDouble (toDouble x) = x

/-- The types of elements. -/
inductive MemType
  | char
  | uchar
  | short
  | ushort
  | int
  | uint
  | long
  | ulong
  | float
  | double
  | number
  | bitstring
  deriving DecidableEq, Repr

/-- The fields `data` and `type` of a buffer. -/
structure MemView where
  data : ℤ
  type : MemType
  deriving DecidableEq, Repr

/-- A value of Lua that is assigned, or read. -/
inductive MemValue (ν : Type*)
  | integer (z : ℤ)
  | float (x : ν)
  | boolean (b : Bool)
  | string (s : List UInt8)
  /-- A value of another type. -/
  | other
  deriving DecidableEq, Repr

/-- Why an access fails. -/
inductive IndexError
  /-- `luaL_argerror`. -/
  | argument (arg : ℕ) (text : String)
  /-- Behaviour that is not defined: a number that its type does not hold, a distance that is no
  `int`, or bytes that are copied over themselves. -/
  | undefined
  deriving DecidableEq, Repr

section
variable {ν : Type*} (N : LuaNumbers ν)

namespace MemType

/-- `memtypesize`. -/
def size : MemType → ℕ
  | .char | .uchar | .bitstring => 1
  | .short | .ushort => 2
  | .int | .uint | .float => 4
  | .long | .ulong | .double | .number => 8

def signed : MemType → Bool
  | .char | .short | .int | .long => true
  | _ => false

/-- The numbers of an integer type.  The conversion of another number is not defined. -/
def holds (t : MemType) (z : ℤ) : Prop :=
  if t.signed then -2 ^ (8 * t.size - 1) ≤ z ∧ z < 2 ^ (8 * t.size - 1)
  else 0 ≤ z ∧ z < 2 ^ (8 * t.size)

instance (t : MemType) (z : ℤ) : Decidable (t.holds z) := by
  unfold holds
  infer_instance

/-- The integer with these bits. -/
def ofBits (t : MemType) (k : ℕ) : ℤ := if t.signed then toSigned (8 * t.size) k else k

/-- The bits of a number that is assigned, if its conversion is defined. -/
def encode (t : MemType) (x : ν) : Option ℕ :=
  match t with
  | .char | .uchar | .short | .ushort | .int | .uint | .long | .ulong =>
      (N.trunc x).bind fun z =>
        if t.holds z then some (z % 2 ^ (8 * t.size)).toNat else none
  | .float => some (N.toFloat x)
  | .double | .number => some (N.toDouble x)
  | .bitstring => none

/-- The number that is read; `lua_pushinteger` and `lua_pushnumber`. -/
def decode (t : MemType) (k : ℕ) : MemValue ν :=
  match t with
  | .char | .uchar | .short | .ushort | .int | .uint => .integer (t.ofBits k)
  | .long | .ulong => .float (N.ofInt (t.ofBits k))
  | .float => .float (N.ofFloat k)
  | .double | .number => .float (N.ofDouble k)
  -- is read in another way
  | .bitstring => .other

end MemType

/-- `memlen`, if the result is an `int`. -/
def memlen (t : MemType) (nitems : ℤ) : Option ℤ :=
  if t ≠ .bitstring then
    if -2 ^ 31 ≤ nitems * t.size ∧ nitems * t.size < 2 ^ 31 then some (nitems * t.size) else none
  else some (nitems >>> (3 : ℕ) + 1)

/-- `off & 7`. -/
def bitOf (off : ℤ) : ℕ := (off % 8).toNat

/-- `mem_call`, `mem_getptr` and `mem_setptr`: the target points to an element, of one byte for the
type `bitstring`.  The size is unsigned, and so is the distance. -/
def MemView.call (w : MemView) (i : ℤ) (target : MemView) : MemView :=
  { target with data := w.data + w.type.size * int32 i % 2 ^ 32 }

/-- `mem_index`, with a number that `lua_tointeger` makes `i`. -/
def index (m : ℤ → UInt8) (w : MemView) (i : ℤ) : Except IndexError (MemValue ν) :=
  let off := int32 i
  match memlen w.type off with
  | none => .error .undefined
  | some len =>
      let ptr := w.data + len
      match w.type with
      | .bitstring =>
          .ok (.boolean (decide (m (ptr - 1) &&& UInt8.ofNat (1 <<< bitOf off) ≠ 0)))
      | t => .ok (t.decode N (loadLE m ptr t.size))

/-- The assignment of a number in `mem_newindex`. -/
def setNumber (m : ℤ → UInt8) (t : MemType) (ptr : ℤ) (num : ν) :
    Except IndexError (ℤ → UInt8) :=
  if t = .bitstring then .error (.argument 3 "boolean expected")
  else
    match t.encode N num with
    | some k => .ok (storeLE m ptr t.size k)
    | none => .error .undefined

/-- `mem_newindex`. -/
def newindex (m : ℤ → UInt8) (w : MemView) (i : ℤ) (v : MemValue ν) :
    Except IndexError (ℤ → UInt8) :=
  let off := int32 i
  match memlen w.type off with
  | none => .error .undefined
  | some len =>
      let ptr := w.data + len
      match v with
      | .integer z => setNumber N m w.type ptr (N.ofInt z)
      | .float x => setNumber N m w.type ptr x
      | .boolean b =>
          if w.type ≠ .bitstring then .error (.argument 1 "bitstring expected")
          else .ok (setBit m (ptr - 1) (bitOf off) b)
      | .string s => .ok (copyBytes m ptr s)
      | .other => .error (.argument 3 "membuf value expected")

/-- What writes to the bytes. -/
inductive MemWrite (ν : Type*)
  /-- `buf[i] = v`. -/
  | set (w : MemView) (i : ℤ) (v : MemValue ν)
  | memset (w : MemView) (ch : ℤ) (len : ℕ)
  | memcpy (w src : MemView) (len : ℕ)

/-! ## The bits of an element -/

/-- Two intervals have nothing in common. -/
def Apart (p q : ℤ × ℤ) : Prop := p.2 ≤ q.1 ∨ q.2 ≤ p.1

instance (p q : ℤ × ℤ) : Decidable (Apart p q) := inferInstanceAs (Decidable (_ ∨ _))

/-- The bits of an element: from the first to the second. -/
def elem (w : MemView) (i : ℤ) : ℤ × ℤ :=
  let off := int32 i
  if w.type = .bitstring then (8 * w.data + off, 8 * w.data + off + 1)
  else (8 * (w.data + off * w.type.size), 8 * (w.data + off * w.type.size + w.type.size))

/-- The bits that an assignment writes. -/
def assigned (w : MemView) (i : ℤ) : MemValue ν → ℤ × ℤ
  | .string s =>
      let len := (memlen w.type (int32 i)).getD 0
      (8 * (w.data + len), 8 * (w.data + len + s.length))
  | _ => elem w i

/-- The bits that are written. -/
def MemWrite.written : MemWrite ν → ℤ × ℤ
  | .set w i v => assigned w i v
  | .memset w _ len => (8 * w.data, 8 * (w.data + len))
  | .memcpy w _ len => (8 * w.data, 8 * (w.data + len))

/-- The type takes the value, and does not raise an error. -/
def MemType.Takes (t : MemType) : MemValue ν → Prop
  | .integer _ | .float _ => t ≠ .bitstring
  | .boolean _ => t = .bitstring
  | .string _ => True
  | .other => False

instance (t : MemType) (v : MemValue ν) : Decidable (t.Takes v) := by
  unfold MemType.Takes
  split <;> infer_instance

/-- The value of one element: a string is assigned to many. -/
def MemValue.single : MemValue ν → Bool
  | .integer _ | .float _ | .boolean _ => true
  | _ => false

/-- The number that is read again: what its type keeps of it. -/
def MemType.keptNumber (t : MemType) (x : ν) : MemValue ν :=
  match t with
  | .char | .uchar | .short | .ushort | .int | .uint => .integer ((N.trunc x).getD 0)
  | .long | .ulong => .float (N.ofInt ((N.trunc x).getD 0))
  | .float => .float (N.ofFloat (N.toFloat x))
  | .double | .number => .float x
  | .bitstring => .other

/-- The value that is read again. -/
def MemType.kept (t : MemType) : MemValue ν → MemValue ν
  | .integer z => t.keptNumber N (N.ofInt z)
  | .float x => t.keptNumber N x
  | v => v

/-- `mem_newindex`, `mem_memset` and `mem_memcpy`.  An assignment that raises an error does
nothing. -/
def MemWrite.step (m : ℤ → UInt8) : MemWrite ν → Option (ℤ → UInt8)
  | .set w i v =>
      match newindex N m w i v with
      | .ok m' => some m'
      | .error (.argument _ _) => some m
      | .error .undefined => none
  | .memset w ch len =>
      some (copyBytes m w.data (List.replicate len (UInt8.ofNat (ch % 256).toNat)))
  | .memcpy w src len =>
      if Apart (w.data, w.data + len) (src.data, src.data + len) then
        some (copyBytes m w.data ((List.range len).map fun i : ℕ => m (src.data + i)))
      else none

end

section
variable {ν : Type*} {N : LuaNumbers ν}
variable {m m' : ℤ → UInt8} {t : MemType} {w w' : MemView} {i i' off len : ℤ} {v : MemValue ν}

theorem bitOf_lt : bitOf off < 8 := by
  unfold bitOf
  omega

theorem shiftRight_three : off >>> (3 : ℕ) = off / 8 := by
  rw [Int.shiftRight_eq_div_pow]
  rfl

/-- The bit of an element of the type `bitstring`. -/
theorem bit_address (data off : ℤ) : 8 * (data + off / 8) + bitOf off = 8 * data + off := by
  rw [bitOf]
  omega

/-- An element of the type `bitstring`. -/
theorem index_bitstring (m : ℤ → UInt8) (data i : ℤ) :
    index N m ⟨data, .bitstring⟩ i = .ok (.boolean (memBit m (8 * data + int32 i))) := by
  have hlen : memlen .bitstring (int32 i) = some (int32 i / 8 + 1) := by
    rw [← shiftRight_three]
    rfl
  have haddr : data + (int32 i / 8 + 1) - 1 = (8 * data + int32 i) / 8 := by omega
  have hbit : bitOf (int32 i) = ((8 * data + int32 i) % 8).toNat := by
    rw [bitOf]
    omega
  have htest : decide (m ((8 * data + int32 i) / 8) &&& UInt8.ofNat (1 <<< bitOf (int32 i)) ≠ 0) =
      memBit m (8 * data + int32 i) := by
    rw [Bool.eq_iff_iff, decide_eq_true_eq, and_bit_ne_zero _ bitOf_lt, hbit, memBit]
  rw [index]
  dsimp only
  rw [hlen]
  dsimp only
  rw [haddr, htest]

/-- The distance of an element of another type. -/
theorem memlen_eq_some (ht : t ≠ .bitstring) (h : memlen t off = some len) :
    len = off * t.size := by
  rw [memlen, if_pos ht] at h
  exact (Option.some.inj (Option.ite_none_right_eq_some.mp h).2).symm

/-- The value that the bits of an element give. -/
theorem index_eq (ht : w.type ≠ .bitstring) (h : memlen w.type (int32 i) = some len) :
    index N m w i = .ok (w.type.decode N (loadLE m (w.data + len) w.type.size)) := by
  obtain ⟨data, t⟩ := w
  rw [index]
  dsimp only at h ht ⊢
  rw [h]
  cases t <;> first | exact absurd rfl ht | rfl

theorem assigned_of_single (h : v.single = true) : assigned w i v = elem w i := by
  cases v with
  | integer => rfl
  | float => rfl
  | boolean => rfl
  | string => cases h
  | other => cases h

/-- The value depends on the bits of the element. -/
theorem index_congr (h : ∀ k, (elem w i).1 ≤ k → k < (elem w i).2 → memBit m k = memBit m' k) :
    index N m w i = index N m' w i := by
  obtain ⟨data, t⟩ := w
  by_cases ht : t = .bitstring
  · subst ht
    rw [index_bitstring, index_bitstring,
      h (8 * data + int32 i) (Int.le_refl _) (Int.lt_succ _)]
  · cases hlen : memlen t (int32 i) with
    | none =>
        rw [index, index]
        dsimp only
        rw [hlen]
    | some len =>
        rw [elem] at h
        dsimp only at h
        rw [if_neg ht, ← memlen_eq_some ht hlen] at h
        rw [index_eq ht hlen, index_eq ht hlen, loadLE_congr h]

/-! ## Numbers -/

/-- An integer that the type holds has the bits of its own. -/
theorem ofBits_toNat {z : ℤ} (hz : t.holds z) : t.ofBits (z % 2 ^ (8 * t.size)).toNat = z := by
  have hpow : (0 : ℤ) < 2 ^ (8 * t.size) := by positivity
  have hnonneg := Int.emod_nonneg z (Int.ne_of_gt hpow)
  rw [MemType.ofBits]
  rw [MemType.holds] at hz
  split
  next hs =>
    rw [if_pos hs] at hz
    have hw : 8 * t.size ≠ 0 := by cases t <;> decide
    exact toSigned_mod hw hz.1 hz.2
  next hs =>
    rw [if_neg hs] at hz
    rw [Int.toNat_of_nonneg hnonneg, Int.emod_eq_of_lt hz.1 hz.2]

/-- The bits of an integer. -/
theorem toNat_emod_lt (z : ℤ) (n : ℕ) : (z % 2 ^ n).toNat < 2 ^ n := by
  have hpow : (0 : ℤ) < 2 ^ n := by positivity
  have hmod := Int.emod_lt_of_pos z hpow
  zify
  rw [Int.toNat_of_nonneg (Int.emod_nonneg z (Int.ne_of_gt hpow))]
  exact hmod

/-- What is decoded is what the type keeps of a number, and the bits fit the type. -/
theorem encode_spec {x : ν} {k : ℕ} (h : t.encode N x = some k) :
    t.decode N k = t.keptNumber N x ∧ k < 2 ^ (8 * t.size) := by
  have hint : ∀ t : MemType, (N.trunc x).bind (fun z =>
      if t.holds z then some (z % 2 ^ (8 * t.size)).toNat else none) = some k →
      t.ofBits k = (N.trunc x).getD 0 ∧ k < 2 ^ (8 * t.size) := by
    intro t h
    obtain ⟨z, hz, h⟩ := Option.bind_eq_some_iff.mp h
    obtain ⟨hholds, h⟩ := Option.ite_none_right_eq_some.mp h
    obtain rfl := Option.some.inj h
    exact ⟨by rw [ofBits_toNat hholds, hz, Option.getD_some], toNat_emod_lt _ _⟩
  cases t with
  | char | uchar | short | ushort | int | uint =>
      obtain ⟨hk, hlt⟩ := hint _ h
      exact ⟨congrArg MemValue.integer hk, hlt⟩
  | long | ulong =>
      obtain ⟨hk, hlt⟩ := hint _ h
      exact ⟨congrArg (fun z => MemValue.float (N.ofInt z)) hk, hlt⟩
  | float =>
      obtain rfl := Option.some.inj h
      exact ⟨rfl, N.toFloat_lt x⟩
  | double | number =>
      obtain rfl := Option.some.inj h
      exact ⟨congrArg MemValue.float (N.ofDouble_toDouble x), N.toDouble_lt x⟩
  | bitstring => cases h

/-- A number that has been stored is loaded again. -/
theorem decode_storeLE {x : ν} {k : ℕ} (h : t.encode N x = some k) (ptr : ℤ) :
    t.decode N (loadLE (storeLE m ptr t.size k) ptr t.size) = t.keptNumber N x := by
  obtain ⟨hdecode, hlt⟩ := encode_spec h
  rw [loadLE_storeLE, Nat.mod_eq_of_lt hlt, hdecode]

/-- What an assignment of a number does. -/
theorem setNumber_ok {ptr : ℤ} {x : ν} (h : setNumber N m t ptr x = .ok m') :
    t ≠ .bitstring ∧ ∃ k, t.encode N x = some k ∧ m' = storeLE m ptr t.size k := by
  rw [setNumber] at h
  split at h
  · cases h
  next ht =>
    split at h
    next k hk => exact ⟨ht, k, hk, (Except.ok.inj h).symm⟩
    next => cases h

/-! ## Assignments -/

/-- The number that is assigned. -/
def MemValue.num (N : LuaNumbers ν) : MemValue ν → Option ν
  | .integer z => some (N.ofInt z)
  | .float x => some x
  | _ => none

/-- What an assignment does. -/
theorem newindex_cases (h : newindex N m w i v = .ok m') :
    (∃ x k len, v.num N = some x ∧ w.type ≠ .bitstring ∧ memlen w.type (int32 i) = some len ∧
      w.type.encode N x = some k ∧ m' = storeLE m (w.data + len) w.type.size k) ∨
    (∃ b, v = .boolean b ∧ w.type = .bitstring ∧
      m' = setBit m (w.data + int32 i / 8) (bitOf (int32 i)) b) ∨
    ∃ s len, v = .string s ∧ memlen w.type (int32 i) = some len ∧
      m' = copyBytes m (w.data + len) s := by
  obtain ⟨data, t⟩ := w
  rw [newindex] at h
  dsimp only at h ⊢
  cases hlen : memlen t (int32 i) with
  | none =>
      rw [hlen] at h
      cases h
  | some len =>
      rw [hlen] at h
      cases v with
      | integer z =>
          obtain ⟨ht, k, hk, hm⟩ := setNumber_ok h
          exact .inl ⟨_, k, len, rfl, ht, rfl, hk, hm⟩
      | float x =>
          obtain ⟨ht, k, hk, hm⟩ := setNumber_ok h
          exact .inl ⟨_, k, len, rfl, ht, rfl, hk, hm⟩
      | boolean b =>
          dsimp only at h
          split at h
          · cases h
          next ht =>
            obtain rfl := Decidable.not_not.mp ht
            have hsome : some (int32 i >>> (3 : ℕ) + 1) = some len := hlen
            have hptr : data + len - 1 = data + int32 i / 8 := by
              rw [← shiftRight_three, ← Option.some.inj hsome, ← Int.add_assoc,
                Int.add_sub_cancel]
            exact .inr (.inl ⟨b, rfl, rfl, hptr ▸ (Except.ok.inj h).symm⟩)
      | string s => exact .inr (.inr ⟨s, len, rfl, rfl, (Except.ok.inj h).symm⟩)
      | other => cases h

theorem MemValue.single_of_num {x : ν} (h : v.num N = some x) : v.single = true := by
  cases v with
  | integer => rfl
  | float => rfl
  | boolean => cases h
  | string => cases h
  | other => cases h

/-- An assignment changes the bits that it writes. -/
theorem newindex_memBit (h : newindex N m w i v = .ok m') {k : ℤ}
    (hk : k < (assigned w i v).1 ∨ (assigned w i v).2 ≤ k) : memBit m' k = memBit m k := by
  rcases newindex_cases h with ⟨x, n, len, hx, ht, hlen, -, rfl⟩ | ⟨b, rfl, ht, rfl⟩ |
    ⟨s, len, rfl, hlen, rfl⟩
  · rw [assigned_of_single (MemValue.single_of_num hx), elem] at hk
    rw [if_neg ht, ← memlen_eq_some ht hlen] at hk
    rw [memBit_storeLE, if_neg (by omega)]
  · rw [assigned_of_single rfl, elem] at hk
    rw [if_pos ht] at hk
    rw [memBit_setBit bitOf_lt, bit_address, if_neg (by omega)]
  · rw [assigned] at hk
    dsimp only at hk
    rw [hlen] at hk
    exact memBit_copyBytes hk

/-- What has been assigned to an element is read again. -/
theorem index_newindex (h : newindex N m w i v = .ok m') (hv : v.single = true) :
    index N m' w i = .ok (w.type.kept N v) := by
  rcases newindex_cases h with ⟨x, k, len, hx, ht, hlen, hk, rfl⟩ | ⟨b, rfl, ht, rfl⟩ |
    ⟨s, len, rfl, -, -⟩
  · rw [index_eq ht hlen, decode_storeLE hk]
    cases v with
    | integer | float =>
        obtain rfl := Option.some.inj hx
        rfl
    | boolean => cases hx
    | string => cases hx
    | other => cases hx
  · obtain ⟨data, t⟩ := w
    obtain rfl : t = .bitstring := ht
    rw [index_bitstring, memBit_setBit bitOf_lt, bit_address, if_pos rfl]
    rfl
  · cases hv

/-- Two elements of one buffer. -/
theorem elem_apart (w : MemView) (h : int32 i ≠ int32 i') : Apart (elem w i) (elem w i') := by
  obtain ⟨data, t⟩ := w
  unfold Apart elem
  generalize int32 i = off, int32 i' = off' at h ⊢
  cases t <;> simp only [reduceCtorEq, if_false, if_true, MemType.size] <;> omega

/-! ## Runs -/

/-- An assignment raises an error for a value that the type does not take. -/
theorem newindex_argument {arg : ℕ} {text : String}
    (h : newindex N m w i v = .error (.argument arg text)) : ¬w.type.Takes v := by
  have hnumber : ∀ {ptr : ℤ} {x : ν}, setNumber N m w.type ptr x = .error (.argument arg text) →
      ¬w.type ≠ .bitstring := by
    intro ptr x h
    rw [setNumber] at h
    split at h
    next ht => exact not_not_intro ht
    next => split at h <;> cases h
  rw [newindex] at h
  dsimp only at h
  split at h
  · cases h
  · split at h
    · exact hnumber h
    · exact hnumber h
    · split at h
      next ht => exact ht
      next => cases h
    · cases h
    · exact not_false

/-- An assignment that is defined writes, if the type takes the value, and otherwise does
nothing. -/
theorem step_newindex (h : (MemWrite.set w i v).step N m = some m') :
    w.type.Takes v ∧ newindex N m w i v = .ok m' ∨ ¬w.type.Takes v ∧ m' = m := by
  rw [MemWrite.step] at h
  split at h
  next m₁ hm =>
    obtain rfl := Option.some.inj h
    refine .inl ⟨?_, hm⟩
    rcases newindex_cases hm with ⟨x, k, len, hx, ht, -⟩ | ⟨b, rfl, ht, -⟩ | ⟨s, len, rfl, -⟩
    · cases v with
      | integer | float => exact ht
      | boolean => cases hx
      | string => cases hx
      | other => cases hx
    · exact ht
    · trivial
  next hm => exact .inr ⟨newindex_argument hm, (Option.some.inj h).symm⟩
  next => cases h

/-- A step changes the bits that it writes. -/
theorem step_memBit {op : MemWrite ν} (h : op.step N m = some m') {k : ℤ}
    (hk : k < op.written.1 ∨ op.written.2 ≤ k) : memBit m' k = memBit m k := by
  cases op with
  | set w i v =>
      rcases step_newindex h with ⟨-, hm⟩ | ⟨-, rfl⟩
      · exact newindex_memBit hm hk
      · rfl
  | memset w ch len =>
      obtain rfl := Option.some.inj h
      refine memBit_copyBytes ?_
      rw [List.length_replicate]
      exact hk
  | memcpy w src len =>
      obtain ⟨-, hm⟩ := Option.ite_none_right_eq_some.mp h
      obtain rfl := Option.some.inj hm
      refine memBit_copyBytes ?_
      rw [List.length_map, List.length_range]
      exact hk

/-- An element that is not written keeps its value. -/
theorem index_run_of_apart {ops : List (MemWrite ν)}
    (hapart : ∀ op ∈ ops, Apart op.written (elem w i))
    (hrun : runOps (MemWrite.step N) m ops = some m') : index N m' w i = index N m w i := by
  induction ops generalizing m with
  | nil => rw [Option.some.inj hrun]
  | cons op ops ih =>
      obtain ⟨m₁, hop, hrest⟩ := runOps_cons hrun
      rw [ih (fun op' hmem => hapart op' (List.mem_cons_of_mem op hmem)) hrest]
      refine index_congr fun k hlow hhigh => step_memBit hop ?_
      rcases hapart op List.mem_cons_self with hle | hle
      · exact .inr (Int.le_trans hle hlow)
      · exact .inl (Int.lt_of_lt_of_le hhigh hle)

/-- **The last assignment counts.**  After any writes through any buffers, an element has what its
type keeps of the value last assigned to it, if nothing has been written over it since. -/
theorem last_store {pre post : List (MemWrite ν)} (htakes : w.type.Takes v)
    (hsingle : v.single = true) (hpost : ∀ op ∈ post, Apart op.written (elem w i))
    (hrun : runOps (MemWrite.step N) m (pre ++ .set w i v :: post) = some m') :
    index N m' w i = .ok (w.type.kept N v) := by
  obtain ⟨m₁, -, hrest⟩ := runOps_append hrun
  obtain ⟨m₂, hstep, hlast⟩ := runOps_cons hrest
  rw [index_run_of_apart hpost hlast]
  rcases step_newindex hstep with ⟨-, hm⟩ | ⟨hnot, -⟩
  · exact index_newindex hm hsingle
  · exact absurd htakes hnot

/-- An array with elements of the type: the abstract meaning of an assignment. -/
def assign (N : LuaNumbers ν) (t : MemType) (a : ℤ → Except IndexError (MemValue ν))
    (p : ℤ × MemValue ν) : ℤ → Except IndexError (MemValue ν) :=
  if t.Takes p.2 then Function.update a p.1 (.ok (t.kept N p.2)) else a

/-- The elements of a buffer; an index is an `int`. -/
theorem index_int32 (m : ℤ → UInt8) (w : MemView) (i : ℤ) :
    index N m w (int32 i) = index N m w i := by
  have htwice : int32 (int32 i) = int32 i := by
    obtain ⟨hlow, hhigh⟩ := int32_range i
    exact int32_of_range hlow hhigh
  rw [index, index, htwice]

/-- One assignment is one to the array. -/
theorem index_step {p : ℤ × MemValue ν} (hv : ∀ s, p.2 ≠ .string s)
    (h : (MemWrite.set w p.1 p.2).step N m = some m') (i : ℤ) :
    index N m' w (int32 i) =
      assign N w.type (fun off => index N m w off) (int32 p.1, p.2) (int32 i) := by
  rw [index_int32, assign]
  rcases step_newindex h with ⟨htakes, hm⟩ | ⟨hnot, rfl⟩
  · have hsingle : p.2.single = true := by
      cases hp : p.2 with
      | integer => rfl
      | float => rfl
      | boolean => rfl
      | string s => exact absurd hp (hv s)
      | other =>
          rw [hp] at htakes
          exact htakes.elim
    rw [if_pos htakes]
    by_cases hoff : int32 i = int32 p.1
    · have hsame : index N m' w i = index N m' w p.1 := by
        rw [← index_int32, hoff, index_int32]
      rw [hoff, Function.update_self, hsame]
      exact index_newindex hm hsingle
    · rw [Function.update_of_ne hoff, index_int32]
      refine index_congr fun k hlow hhigh => newindex_memBit hm ?_
      rw [assigned_of_single hsingle]
      rcases elem_apart w (Ne.symm hoff) with hle | hle
      · exact .inr (Int.le_trans hle hlow)
      · exact .inl (Int.lt_of_lt_of_le hhigh hle)
  · rw [if_neg hnot, index_int32]

/-- Arrays that have the same elements have them after an assignment. -/
theorem assign_congr {a a' : ℤ → Except IndexError (MemValue ν)}
    (h : ∀ i, a (int32 i) = a' (int32 i)) (p : ℤ × MemValue ν) (i : ℤ) :
    assign N t a p (int32 i) = assign N t a' p (int32 i) := by
  rw [assign, assign]
  split
  · by_cases hoff : int32 i = p.1
    · rw [hoff, Function.update_self, Function.update_self]
    · rw [Function.update_of_ne hoff, Function.update_of_ne hoff, h i]
  · exact h i

theorem foldl_assign_congr {stores : List (ℤ × MemValue ν)}
    {a a' : ℤ → Except IndexError (MemValue ν)} (h : ∀ i, a (int32 i) = a' (int32 i)) (i : ℤ) :
    stores.foldl (assign N t) a (int32 i) = stores.foldl (assign N t) a' (int32 i) := by
  induction stores generalizing a a' with
  | nil => exact h i
  | cons p stores ih =>
      rw [List.foldl_cons, List.foldl_cons]
      exact ih fun i => assign_congr h p i

/-- **The buffer is an array.**  With one type, and without strings, the elements after any
assignments are those of an array with the same assignments; an index is made an `int`. -/
theorem stores_foldl {stores : List (ℤ × MemValue ν)} (hv : ∀ p ∈ stores, ∀ s, p.2 ≠ .string s)
    (hrun : runOps (MemWrite.step N) m (stores.map fun p => .set w p.1 p.2) = some m') (i : ℤ) :
    index N m' w i = (stores.map fun p => (int32 p.1, p.2)).foldl (assign N w.type)
      (fun off => index N m w off) (int32 i) := by
  induction stores generalizing m with
  | nil => rw [Option.some.inj hrun, List.map_nil, List.foldl_nil, index_int32]
  | cons p stores ih =>
      rw [List.map_cons] at hrun
      obtain ⟨m₁, hp, hrest⟩ := runOps_cons hrun
      rw [ih (fun q hq => hv q (List.mem_cons_of_mem p hq)) hrest, List.map_cons, List.foldl_cons]
      exact foldl_assign_congr (fun i => index_step (hv p List.mem_cons_self) hp i) i

/-- **The bits of a number are elements.**  When a buffer of the type `bitstring` points to the
number, its element `j` is the bit `j` of the number. -/
theorem index_bits {z data : ℤ} {j : ℕ} (hi : 0 ≤ int32 i)
    (h : index N m w i = .ok (.integer z)) (hj : j < 8 * w.type.size) :
    index N m (w.call i ⟨data, .bitstring⟩) j = .ok (.boolean (z.testBit j)) := by
  obtain ⟨data', t⟩ := w
  have ht : t ≠ .bitstring := by
    rintro rfl
    rw [index_bitstring] at h
    cases h
  cases hlen : memlen t (int32 i) with
  | none =>
      rw [index] at h
      dsimp only at h
      rw [hlen] at h
      cases h
  | some len =>
      rw [index_eq ht hlen] at h
      have hz : t.ofBits (loadLE m (data' + len) t.size) = z := by
        have hread := Except.ok.inj h
        cases t <;> first | exact MemValue.integer.inj hread | cases hread
      have hbit : z.testBit j = (loadLE m (data' + len) t.size).testBit j := by
        rw [← hz, MemType.ofBits]
        split
        · exact testBit_toSigned (loadLE_lt m _ t.size) hj
        · rfl
      have hsize : 8 * t.size ≤ 64 := by cases t <;> decide
      have hint : int32 (j : ℤ) = j := int32_of_range (by omega) (by dsimp only at hj; omega)
      -- The distance is not negative, so that it is the same number without a sign.
      have hptr : (t.size : ℤ) * int32 i % 2 ^ 32 = len := by
        rw [memlen_eq_some ht hlen, Int.mul_comm]
        rw [memlen, if_pos ht] at hlen
        obtain ⟨⟨-, hlt⟩, -⟩ := Option.ite_none_right_eq_some.mp hlen
        exact Int.emod_eq_of_lt (Int.mul_nonneg hi (Int.natCast_nonneg _)) (by omega)
      rw [MemView.call, index_bitstring, hint, hbit, testBit_loadLE, decide_eq_true hj,
        Bool.true_and]
      dsimp only
      rw [hptr]

end

/-! ## Doubles -/

/-- The bits of an integer that a `double` has exactly. -/
def doubleOfInt (z : ℤ) : BitVec 64 :=
  let n := z.natAbs
  let e := n.log2
  if n = 0 then 0
  else BitVec.ofNat 64 ((if z < 0 then 2 ^ 63 else 0) + (1022 + e) * 2 ^ 52 + n * 2 ^ 52 / 2 ^ e)

/-- The integer part of a `double`. -/
def doubleTrunc (x : BitVec 64) : Option ℤ :=
  let e := x.toNat / 2 ^ 52 % 2 ^ 11
  let n : ℕ := (2 ^ 52 + x.toNat % 2 ^ 52) * 2 ^ e / 2 ^ (1023 + 52)
  if e = 2047 then none else some (if x.toNat < 2 ^ 63 then (n : ℤ) else -n)

/-- A `double` that is a `float` as well, as one. -/
def doubleToFloat (x : BitVec 64) : ℕ :=
  if x.toNat % 2 ^ 63 = 0 then x.toNat / 2 ^ 63 * 2 ^ 31
  else (x.toNat / 2 ^ 63 * 2 ^ 31 + x.toNat % 2 ^ 63 / 2 ^ 29 - (1023 - 127) * 2 ^ 23) % 2 ^ 32

/-- A `float` as a `double`. -/
def floatToDouble (k : ℕ) : BitVec 64 :=
  if k % 2 ^ 31 = 0 then BitVec.ofNat 64 (k / 2 ^ 31 * 2 ^ 63)
  else BitVec.ofNat 64 (k / 2 ^ 31 * 2 ^ 63 + (k % 2 ^ 31 + (1023 - 127) * 2 ^ 23) * 2 ^ 29)

/-- The numbers by their bits, for those that are not rounded. -/
def doubles : LuaNumbers (BitVec 64) where
  ofInt := doubleOfInt
  trunc := doubleTrunc
  toFloat := doubleToFloat
  ofFloat := floatToDouble
  toDouble x := x.toNat
  ofDouble := BitVec.ofNat 64
  toFloat_lt x := by
    unfold doubleToFloat
    split <;> omega
  toDouble_lt x := x.isLt
  ofDouble_toDouble x := by simp

/-- A number, and then a bit, another number and a string elsewhere, through other buffers. -/
theorem last_store_short : ∃ m', runOps (MemWrite.step doubles) (fun _ => 0)
      ([.set ⟨0, .uint⟩ 1 (.integer 77)] ++
        .set ((⟨0, .uint⟩ : MemView).call 1 ⟨9, .short⟩) 1 (.integer (-2)) ::
        [.set ⟨0, .bitstring⟩ 5 (.boolean true), .set ⟨8, .float⟩ 0 (.float (doubleOfInt 3)),
          .set ⟨0, .char⟩ 0 (.string [122, 115]), .memset ⟨8, .int⟩ 7 4]) = some m' ∧
      index doubles m' ((⟨0, .uint⟩ : MemView).call 1 ⟨9, .short⟩) 1 = .ok (.integer (-2)) := by
  obtain ⟨m', hrun⟩ := Option.isSome_iff_exists.mp (show (runOps (MemWrite.step doubles) (fun _ => 0)
      ([.set ⟨0, .uint⟩ 1 (.integer 77)] ++
        .set ((⟨0, .uint⟩ : MemView).call 1 ⟨9, .short⟩) 1 (.integer (-2)) ::
        [.set ⟨0, .bitstring⟩ 5 (.boolean true), .set ⟨8, .float⟩ 0 (.float (doubleOfInt 3)),
          .set ⟨0, .char⟩ 0 (.string [122, 115]), .memset ⟨8, .int⟩ 7 4])).isSome = true by
    decide +kernel)
  refine ⟨m', hrun, (last_store (by decide) rfl (by decide +kernel) hrun).trans ?_⟩
  decide +kernel

theorem stores_foldl_float : ∃ m', runOps (MemWrite.step doubles) (fun _ => 0)
      ([(7, .float (doubleOfInt 5)), (3, .integer 6), (3 + 2 ^ 32, .integer (-12)),
        (4, .boolean true)].map
        fun p : ℤ × MemValue (BitVec 64) => .set ⟨0, .float⟩ p.1 p.2) = some m' ∧
      index doubles m' ⟨0, .float⟩ 3 = .ok (.float (doubleOfInt (-12))) := by
  obtain ⟨m', hrun⟩ := Option.isSome_iff_exists.mp (show (runOps (MemWrite.step doubles) (fun _ => 0)
      ([(7, .float (doubleOfInt 5)), (3, .integer 6), (3 + 2 ^ 32, .integer (-12)),
        (4, .boolean true)].map
        fun p : ℤ × MemValue (BitVec 64) => .set ⟨0, .float⟩ p.1 p.2)).isSome = true by
    decide +kernel)
  refine ⟨m', hrun, ?_⟩
  rw [stores_foldl (by simp) hrun]
  decide +kernel

theorem index_bits_int : (128 : ℤ).testBit 7 = true ∧
    index doubles (storeLE (fun _ => 0) 4 4 128) ((⟨0, .int⟩ : MemView).call 1 ⟨0, .bitstring⟩)
      (7 : ℕ) = .ok (.boolean ((128 : ℤ).testBit 7)) :=
  ⟨rfl, index_bits (by decide)
    (show index doubles (storeLE (fun _ => 0) 4 4 128) ⟨0, .int⟩ 1 = .ok (.integer 128) by
      decide +kernel) (by decide)⟩

end LuaSys.Mem
