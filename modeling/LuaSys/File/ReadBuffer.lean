import LuaSys.File.Read
import LuaSys.Mem.Growth

/-!
# Reading into a memory buffer

The model of `sys_read` and `sock_read` with a memory buffer that has no output stream.
The loop is the one for strings: each read goes behind the bytes of the buffer, and when
it has filled the buffer and more is wanted, the buffer grows to twice its length.

The offset is moved at two places.  `sys_buffer_write_next` sets it to the end of the
buffer before it lets the buffer grow, and `sys_buffer_write_done` adds the result of the
last read.  So the two agree unless the last read has failed, or it has been counted
before the growth that has failed.

## Main definitions

* `Membuf.writeNext`, `Membuf.writeDone` — the growing buffer.
* `readBufferLoop`, `sysReadBuffer`, `sockReadBuffer` — the functions of the source.
* `ReadIntoExact` — what is delivered is appended, and the fields agree with it.
* `Miscounts` — a read or a growth fails after a full chunk.

## Main results

* `reads_into_exact_iff` — a read into a buffer is exact if and only if nothing fails
  after a full chunk.
-/

namespace LuaSys.File

open LuaSys.Lib LuaSys.Mem

/-! ## The loop -/

/-- `sys_buffer_write_next` for a buffer, as `sys_read` calls it: with `buflen = 0`. -/
def writeNext (fuel : ℕ) (mb : Membuf) (realloc : Option Lib.Mem) : Option (Bool × Membuf) :=
  ({ mb with offset := mb.len } : Membuf).reserve fuel 0 realloc

/-- `sys_buffer_write_done` for a buffer. -/
def writeDone (mb : Membuf) (tail : ℕ) : Membuf :=
  { mb with offset := int32 (mb.offset + int32 tail) }

/-- The locals when the loop is left, with the bytes delivered so far. -/
structure BufferExit where
  nr : ℤ
  n : ℕ
  mb : Membuf
  again : Bool
  delivered : List UInt8

/-- The loop of `sys_read` from iteration `k` on. -/
def readBufferLoop (env : ReadEnv) : (fuel k n : ℕ) → Membuf → List UInt8 → Option BufferExit
  | 0, _, _, _, _ => none
  | fuel + 1, k, n, mb, delivered =>
      let size := sizeT (int32 (mb.len - mb.offset))
      let rlen := if n ≤ size then n else size
      match env.read k with
      | none => some ⟨-1, n, mb, env.again k, delivered⟩
      | some there => do
          let bs := there.take rlen
          let nr := int32 bs.length
          let mb ← mb.store mb.offset bs
          if nr = -1 then some ⟨nr, n, mb, env.again k, delivered ++ bs⟩
          else
            let n := sizeT (n - nr)
            if n ≠ 0 ∧ nr = int32 rlen then do
              let (ok, mb) ← writeNext (fuel + 1) mb (env.alloc k)
              if ok then readBufferLoop env fuel (k + 1) n mb (delivered ++ bs)
              else some ⟨nr, n, mb, env.again k, delivered ++ bs⟩
            else some ⟨nr, n, mb, env.again k, delivered ++ bs⟩

/-- What the functions leave on the Lua stack. -/
inductive BufferReturn
  | count (n : ℕ)
  | pushFalse
  | nothing
  | error
  deriving DecidableEq, Repr

/-- The result of a read: what is returned, the buffer, and the bytes the system has
delivered. -/
structure BufferOutcome where
  ret : BufferReturn
  mb : Membuf
  delivered : List UInt8

/-- The part behind the loop. -/
def readBufferFinish (len : ℕ) (e : BufferExit) : BufferOutcome :=
  if e.nr ≤ 0 ∧ len = e.n then
    ⟨if e.nr ≠ 0 ∧ e.again then .pushFalse else if e.nr = 0 then .nothing else .error, e.mb,
      e.delivered⟩
  else ⟨.count (sizeT ((len : ℤ) - e.n)), writeDone e.mb (sizeT e.nr), e.delivered⟩

/-- The body the two functions share. -/
def readBuffer (env : ReadEnv) (mb : Membuf) (count : Option ℤ) (fuel : ℕ) :
    Option BufferOutcome :=
  (readBufferLoop env fuel 0 (readCount count) mb []).map (readBufferFinish (readCount count))

/-- `sys_read` with a buffer. -/
def sysReadBuffer (env : ReadEnv) (mb : Membuf) (count : Option ℤ) (fuel : ℕ) :
    Option BufferOutcome :=
  readBuffer env mb count fuel

/-- `sock_read` with a buffer. -/
def sockReadBuffer (env : ReadEnv) (mb : Membuf) (count : Option ℤ) (fuel : ℕ) :
    Option BufferOutcome :=
  readBuffer env mb count fuel

/-! ## The property and its condition -/

/-- A buffer without streams that has room: its block has at least `len` bytes. -/
structure HasRoom (mb : Membuf) : Prop where
  offset : 0 ≤ mb.offset
  lt : mb.offset < mb.len
  len : mb.len < 2 ^ 31
  size : mb.len ≤ mb.size

/-- The delivered bytes are appended, and the offset and the result count them. -/
structure ReadIntoExact (mb : Membuf) (o : BufferOutcome) : Prop where
  offset : o.mb.offset = mb.offset + o.delivered.length
  range : 0 ≤ o.mb.offset ∧ o.mb.offset ≤ o.mb.len
  bytes : readBytes o.mb.data 0 o.mb.offset.toNat =
    readBytes mb.data 0 mb.offset.toNat ++ o.delivered
  count : ∀ c, o.ret = .count c → c = o.delivered.length
  other : (∀ c, o.ret ≠ .count c) → o.delivered = []

/-- The offset at the start of iteration `k`, when all chunks before have been filled:
each of them has filled the buffer. -/
def chunkStart (mb : Membuf) : ℕ → ℤ
  | 0 => mb.offset
  | k + 1 => mb.len * 2 ^ k

/-- Iteration `j` fills the buffer, and more is wanted. -/
def FillsBuffer (env : ReadEnv) (mb : Membuf) (count : ℕ) (j : ℕ) : Prop :=
  (∃ bs, env.read j = some bs ∧ chunkStart mb (j + 1) - chunkStart mb j ≤ bs.length) ∧
    chunkStart mb (j + 1) - mb.offset < count

/-- The buffer grows after iteration `j`. -/
def Enlarges (env : ReadEnv) (mb : Membuf) (j : ℕ) : Prop :=
  mb.alloc = true ∧ (env.alloc j).isSome ∧ mb.len * 2 ^ (j + 1) < 2 ^ 31

/-- Something fails after full chunks: a read, or the growth of the buffer. -/
def Miscounts (env : ReadEnv) (mb : Membuf) (count : ℕ) : Prop :=
  ∃ k, (∀ j < k, FillsBuffer env mb count j ∧ Enlarges env mb j) ∧
    (0 < k ∧ env.read k = none ∨ FillsBuffer env mb count k ∧ ¬Enlarges env mb k)

/-! ## Growing -/

section Growing

variable {mb : Membuf}

theorem writeNext_loop (hpos : 0 < mb.len) (hlt : mb.len < 2 ^ 31) (fuel : ℕ) :
    sizeT (mb.len + (0 : ℕ)) ≥ sizeT mb.len ∧
      doubleLen (fuel + 1) (sizeT mb.len) (sizeT (mb.len + (0 : ℕ))) =
        some (2 * mb.len.toNat) := by
  have hzero : sizeT (mb.len + (0 : ℕ)) = sizeT mb.len := by simp
  have hlen : sizeT mb.len = mb.len.toNat := by
    simp only [sizeT]
    omega
  have hdouble : sizeT (2 * (mb.len.toNat : ℤ)) = 2 * mb.len.toNat := by
    simp only [sizeT]
    omega
  rw [hzero, hlen]
  refine ⟨le_rfl, ?_⟩
  rw [doubleLen, hdouble, if_neg (by omega)]

/-- The buffer grows to twice its length. -/
theorem writeNext_of_some (hpos : 0 < mb.len) (hlt : mb.len < 2 ^ 31) (halloc : mb.alloc = true)
    (fuel : ℕ) (block : Lib.Mem) :
    writeNext (fuel + 1) mb (some block) = some (true, { mb with
      data := fun i => if i < mb.size then mb.data i else block i
      size := 2 * mb.len.toNat
      len := int32 (2 * mb.len.toNat : ℕ)
      offset := mb.len }) := by
  obtain ⟨hfull, hrun⟩ := writeNext_loop hpos hlt fuel
  rw [writeNext, Membuf.reserve, if_pos hfull, hrun, Option.map_some]
  simp only [halloc]

/-- The buffer does not grow, but the offset has been moved to its end. -/
theorem writeNext_of_not (hpos : 0 < mb.len) (hlt : mb.len < 2 ^ 31) {realloc : Option Lib.Mem}
    (hnot : mb.alloc = false ∨ realloc = none) (fuel : ℕ) :
    writeNext (fuel + 1) mb realloc = some (false, { mb with offset := mb.len }) := by
  obtain ⟨hfull, hrun⟩ := writeNext_loop hpos hlt fuel
  rw [writeNext, Membuf.reserve, if_pos hfull, hrun, Option.map_some]
  rcases hnot with halloc | rfl
  · simp only [halloc]
  · cases mb.alloc <;> rfl

/-- A buffer whose length has become negative does not grow any more: the loop of the
growth runs forever. -/
theorem writeNext_of_neg (h₁ : -2 ^ 31 ≤ mb.len) (hneg : mb.len < 0) (fuel : ℕ)
    (realloc : Option Lib.Mem) : writeNext fuel mb realloc = none := by
  have hzero : mb.len + (0 : ℕ) = mb.len := by simp
  have hnone := doubleLen_none
    (Membuf.sizeT_pow_mul_le ⟨h₁, by omega⟩ ⟨h₁, hneg⟩ (Or.inr le_rfl)) fuel
  rw [writeNext, Membuf.reserve]
  dsimp only
  rw [hzero, if_pos le_rfl, hnone, Option.map_none]

theorem len_of_store {i : ℤ} {bs : List UInt8} {mb' : Membuf} (h : mb.store i bs = some mb') :
    mb'.len = mb.len := by
  obtain ⟨-, heq⟩ := Option.ite_none_right_eq_some.mp h
  rw [← Option.some.inj heq]

/-- After such a growth, whatever the loop returns has a negative length. -/
theorem len_neg_of_loop (h₁ : -2 ^ 31 ≤ mb.len) (hneg : mb.len < 0) {env : ReadEnv}
    {fuel k n : ℕ} {d : List UInt8} {e : BufferExit}
    (h : readBufferLoop env fuel k n mb d = some e) : e.mb.len < 0 := by
  cases fuel with
  | zero => exact absurd h (by simp [readBufferLoop])
  | succ fuel =>
      rw [readBufferLoop] at h
      cases hread : env.read k with
      | none =>
          rw [hread] at h
          obtain rfl := Option.some.inj h
          exact hneg
      | some there =>
          rw [hread] at h
          dsimp only at h
          generalize (if n ≤ sizeT (int32 (mb.len - mb.offset)) then n
            else sizeT (int32 (mb.len - mb.offset))) = rlen at h
          generalize there.take rlen = bs at h
          generalize int32 (bs.length : ℤ) = nr, int32 (rlen : ℤ) = full at h
          obtain ⟨mb', hstore, hrest⟩ := Option.bind_eq_some_iff.mp h
          have hlen : mb'.len = mb.len := len_of_store hstore
          have hneg' : mb'.len < 0 := by omega
          by_cases hminus : nr = -1
          · rw [if_pos hminus] at hrest
            rw [← Option.some.inj hrest]
            exact hneg'
          · rw [if_neg hminus] at hrest
            generalize sizeT (n - nr) = n' at hrest
            by_cases hmore : n' ≠ 0 ∧ nr = full
            · rw [if_pos hmore] at hrest
              obtain ⟨next, hnext, -⟩ := Option.bind_eq_some_iff.mp hrest
              rw [writeNext_of_neg (by omega) hneg'] at hnext
              exact absurd hnext (by simp)
            · rw [if_neg hmore] at hrest
              rw [← Option.some.inj hrest]
              exact hneg'

end Growing

/-! ## One iteration -/

/-- The state at the start of iteration `k`: every iteration before has filled the buffer,
and the buffer has grown after it. -/
structure AtBuffer (env : ReadEnv) (mb : Membuf) (count k n : ℕ) (m : Membuf)
    (d : List UInt8) : Prop where
  alloc : m.alloc = mb.alloc
  len : m.len = mb.len * 2 ^ k
  lt : m.len < 2 ^ 31
  size : m.len ≤ m.size
  offset : m.offset = chunkStart mb k
  offset_eq : m.offset = mb.offset + d.length
  bytes : readBytes m.data 0 m.offset.toNat = readBytes mb.data 0 mb.offset.toNat ++ d
  n_add : n + d.length = count
  more : 0 < k → 0 < n
  steps : ∀ j < k, FillsBuffer env mb count j ∧ Enlarges env mb j

/-- The buffer with a chunk behind its bytes. -/
def filled (m : Membuf) (bs : List UInt8) : Membuf :=
  { m with data := writeBytes m.data m.offset.toNat bs }

section Iteration

variable {env : ReadEnv} {mb m : Membuf} {count k n : ℕ} {d : List UInt8}

theorem AtBuffer.init (hroom : HasRoom mb) : AtBuffer env mb count 0 count mb [] where
  alloc := rfl
  len := by simp
  lt := hroom.len
  size := hroom.size
  offset := rfl
  offset_eq := by simp
  bytes := by simp
  n_add := rfl
  more := fun h => absurd h (Nat.lt_irrefl 0)
  steps := fun j hj => absurd hj (Nat.not_lt_zero j)

/-- There is room for the next chunk. -/
theorem AtBuffer.room (h : AtBuffer env mb count k n m d) (hroom : HasRoom mb) :
    0 ≤ m.offset ∧ m.offset < m.len := by
  have hoff := hroom.offset
  have hlt := hroom.lt
  have hstart := h.offset
  have hlen := h.len
  constructor
  · have := h.offset_eq
    omega
  · cases k with
    | zero =>
        simp only [chunkStart] at hstart
        omega
    | succ k =>
        have hpow : mb.len * 2 ^ (k + 1) = 2 * (mb.len * 2 ^ k) := by ring
        have hpos : 0 < mb.len * 2 ^ k := mul_pos (by omega) (by positivity)
        simp only [chunkStart] at hstart
        omega

/-- The buffer is filled exactly if the chunk is there and shorter than what is wanted. -/
theorem AtBuffer.fills_iff (h : AtBuffer env mb count k n m d) :
    FillsBuffer env mb count k ↔
      (∃ bs, env.read k = some bs ∧ m.len - m.offset ≤ bs.length) ∧ m.len - m.offset < n := by
  have hnext : chunkStart mb (k + 1) = m.len := h.len.symm
  have hoff := h.offset_eq
  have hadd := h.n_add
  rw [FillsBuffer, hnext, ← h.offset]
  exact and_congr_right' (by omega)

/-- The bytes of the buffer after a chunk. -/
theorem AtBuffer.bytes_filled (h : AtBuffer env mb count k n m d) (hroom : HasRoom mb)
    (bs : List UInt8) : readBytes (filled m bs).data 0 (m.offset + bs.length).toNat =
      readBytes mb.data 0 mb.offset.toNat ++ (d ++ bs) := by
  have hoff := hroom.offset
  have hstart := h.offset_eq
  have hbytes := h.bytes
  obtain ⟨old, hold⟩ : ∃ old, old = readBytes mb.data 0 mb.offset.toNat ++ d := ⟨_, rfl⟩
  have hlength : m.offset.toNat = old.length := by
    rw [hold, List.length_append, length_readBytes]
    omega
  have hsum : (m.offset + bs.length).toNat = (old ++ bs).length := by
    rw [List.length_append]
    omega
  rw [hlength, ← hold] at hbytes
  rw [hsum, filled, hlength, ← List.append_assoc, ← hold]
  exact SysBuffer.readBytes_write_behind hbytes

/-- The sizes of the first iteration, as numbers. -/
theorem sizes_eq {want size : ℕ} (hsize : size < 2 ^ 31) {bs : List UInt8}
    (hbs : bs.length ≤ min want size) (hwant : want < 2 ^ 64) :
    sizeT (int32 size) = size ∧ int32 (bs.length : ℤ) = bs.length ∧
      int32 ((min want size : ℕ) : ℤ) = (min want size : ℕ) ∧
      sizeT ((want : ℤ) - bs.length) = want - bs.length := by
  refine ⟨?_, ?_, ?_, ?_⟩
  · rw [int32_of_range (by omega) (by omega), sizeT_natCast (by omega)]
  · exact int32_of_range (by omega) (by omega)
  · exact int32_of_range (by omega) (by omega)
  · simp only [sizeT]
    omega

/-- The body of the loop when the read succeeds. -/
theorem AtBuffer.loop_eq (h : AtBuffer env mb count k n m d) (hroom : HasRoom mb)
    (hcount : count < 2 ^ 64) {there bs : List UInt8} (hread : env.read k = some there)
    (hbs : bs = there.take (min n (m.len - m.offset).toNat)) (fuel : ℕ) :
    readBufferLoop env (fuel + 1) k n m d =
      if n - bs.length ≠ 0 ∧ bs.length = min n (m.len - m.offset).toNat then do
        let (ok, mb) ← writeNext (fuel + 1) (filled m bs) (env.alloc k)
        if ok then readBufferLoop env fuel (k + 1) (n - bs.length) mb (d ++ bs)
        else some ⟨bs.length, n - bs.length, mb, env.again k, d ++ bs⟩
      else some ⟨bs.length, n - bs.length, filled m bs, env.again k, d ++ bs⟩ := by
  obtain ⟨hoff, hlt⟩ := h.room hroom
  have hlen := h.lt
  have hadd := h.n_add
  obtain ⟨size, hsize⟩ : ∃ size : ℕ, m.len - m.offset = size := ⟨(m.len - m.offset).toNat, by omega⟩
  rw [hsize, Int.toNat_natCast] at hbs
  rw [hsize, Int.toNat_natCast]
  have hle : bs.length ≤ min n size := by
    rw [hbs, List.length_take]
    exact Nat.min_le_left _ _
  have hstore : m.store m.offset bs = some (filled m bs) := by
    have hblock := h.size
    exact Membuf.store_eq (by omega) (by omega)
  have hmin : (if n ≤ size then n else size) = min n size := by
    split <;> omega
  have hne : ¬(bs.length : ℤ) = -1 := by omega
  obtain ⟨hroomSize, hnr, hrlen, hn⟩ := sizes_eq (show size < 2 ^ 31 by omega) hle (by omega)
  rw [readBufferLoop, hread, hsize, hroomSize, hmin]
  dsimp only
  rw [← hbs, hnr, hrlen, hstore, Option.bind_eq_bind, Option.bind_some, if_neg hne, hn]
  simp only [Nat.cast_inj]

/-- The loop is left after a chunk that does not fill the buffer, or is all that is
wanted. -/
theorem AtBuffer.loop_of_not_fills (h : AtBuffer env mb count k n m d) (hroom : HasRoom mb)
    (hcount : count < 2 ^ 64) {there : List UInt8} (hread : env.read k = some there)
    (hnot : ¬FillsBuffer env mb count k) (fuel : ℕ) :
    ∃ bs, bs.length ≤ n ∧ bs.length ≤ m.len - m.offset ∧
      readBufferLoop env (fuel + 1) k n m d =
        some ⟨bs.length, n - bs.length, filled m bs, env.again k, d ++ bs⟩ := by
  obtain ⟨hoff, hlt⟩ := h.room hroom
  obtain ⟨bs, hbs⟩ : ∃ bs, bs = there.take (min n (m.len - m.offset).toNat) := ⟨_, rfl⟩
  have hlength : bs.length = min (min n (m.len - m.offset).toNat) there.length := by
    rw [hbs, List.length_take]
  refine ⟨bs, by omega, by omega, ?_⟩
  rw [h.loop_eq hroom hcount hread hbs, if_neg]
  rintro ⟨hne, hfull⟩
  exact hnot (h.fills_iff.mpr ⟨⟨there, hread, by omega⟩, by omega⟩)

/-- After a chunk that fills the buffer, when more is wanted, the buffer grows. -/
theorem AtBuffer.loop_of_fills (h : AtBuffer env mb count k n m d) (hroom : HasRoom mb)
    (hcount : count < 2 ^ 64) (hfills : FillsBuffer env mb count k) (fuel : ℕ) :
    ∃ bs, bs.length = m.len - m.offset ∧ bs.length < n ∧
      readBufferLoop env (fuel + 1) k n m d = (do
        let (ok, mb) ← writeNext (fuel + 1) (filled m bs) (env.alloc k)
        if ok then readBufferLoop env fuel (k + 1) (n - bs.length) mb (d ++ bs)
        else some ⟨bs.length, n - bs.length, mb, env.again k, d ++ bs⟩) := by
  obtain ⟨hoff, hlt⟩ := h.room hroom
  obtain ⟨⟨there, hread, hle⟩, hmore⟩ := h.fills_iff.mp hfills
  obtain ⟨bs, hbs⟩ : ∃ bs, bs = there.take (min n (m.len - m.offset).toNat) := ⟨_, rfl⟩
  have hlength : bs.length = min (min n (m.len - m.offset).toNat) there.length := by
    rw [hbs, List.length_take]
  refine ⟨bs, by omega, by omega, ?_⟩
  rw [h.loop_eq hroom hcount hread hbs, if_pos ⟨by omega, by omega⟩]

/-- If the buffer can grow, the next iteration starts in the same way. -/
theorem AtBuffer.grows (h : AtBuffer env mb count k n m d) (hroom : HasRoom mb)
    (hcount : count < 2 ^ 64) (hfills : FillsBuffer env mb count k) (hgrow : Enlarges env mb k)
    (fuel : ℕ) : ∃ n' m' d', AtBuffer env mb count (k + 1) n' m' d' ∧
      readBufferLoop env (fuel + 1) k n m d = readBufferLoop env fuel (k + 1) n' m' d' := by
  obtain ⟨hoff, hlt⟩ := h.room hroom
  obtain ⟨bs, hlength, hmore, hrun⟩ := h.loop_of_fills hroom hcount hfills fuel
  obtain ⟨halloc, hblock, hsmall⟩ := hgrow
  obtain ⟨block, hblock⟩ := Option.isSome_iff_exists.mp hblock
  have hlen := h.len
  have hsize := h.size
  have hdouble : mb.len * 2 ^ (k + 1) = 2 * m.len := by
    rw [hlen]
    ring
  have hfull : 0 < (filled m bs).len := show 0 < m.len by omega
  have hnext := writeNext_of_some hfull h.lt (h.alloc.trans halloc) fuel block
  rw [hrun, hblock, hnext, Option.bind_eq_bind, Option.bind_some]
  dsimp only
  rw [if_pos rfl]
  refine ⟨_, _, _, ?_, rfl⟩
  have hint : int32 ((2 * m.len.toNat : ℕ) : ℤ) = mb.len * 2 ^ (k + 1) := by
    rw [int32_of_range (by omega) (by omega)]
    omega
  have hadd := h.n_add
  have hstart := h.offset_eq
  refine ⟨h.alloc, hint, ?_, ?_, hlen, ?_, ?_, ?_, ?_, ?_⟩
  · exact lt_of_eq_of_lt hint hsmall
  · refine le_of_eq (hint.trans ?_)
    change _ = ((2 * m.len.toNat : ℕ) : ℤ)
    omega
  · change m.len = _
    rw [List.length_append]
    omega
  · -- The new block keeps the bytes of the old one.
    have hbytes := h.bytes_filled hroom bs
    have hend : m.offset + bs.length = m.len := by omega
    rw [hend] at hbytes
    rw [← hbytes]
    apply readBytes_congr
    intro i _ hi
    change i < 0 + m.len.toNat at hi
    exact if_pos (show i < m.size by omega)
  · rw [List.length_append]
    omega
  · intro _
    omega
  · intro j hj
    rcases Nat.lt_succ_iff_lt_or_eq.mp hj with hj | rfl
    · exact h.steps j hj
    · exact ⟨hfills, halloc, by rw [hblock]; rfl, hsmall⟩

/-! ## Leaving the loop -/

/-- A failed read is counted, unless it is the first. -/
theorem AtBuffer.exact_failed_iff (h : AtBuffer env mb count k n m d) (hroom : HasRoom mb)
    (again : Bool) :
    ReadIntoExact mb (readBufferFinish count ⟨-1, n, m, again, d⟩) ↔ k = 0 := by
  obtain ⟨hoff, hlt⟩ := h.room hroom
  have hstart := h.offset_eq
  have hadd := h.n_add
  have hlen := h.lt
  cases k with
  | zero =>
      have hd : d = [] := by
        apply List.length_eq_zero_iff.mp
        have hzero : m.offset = mb.offset := h.offset
        omega
      subst hd
      have hfinish : readBufferFinish count ⟨-1, n, m, again, []⟩ =
          ⟨if (-1 : ℤ) ≠ 0 ∧ again then .pushFalse else .error, m, []⟩ := by
        rw [readBufferFinish, if_pos ⟨by simp, hadd.symm⟩]
        rfl
      rw [hfinish]
      refine ⟨fun _ => rfl, fun _ => ⟨hstart, ⟨hoff, hlt.le⟩, h.bytes, fun c hc => ?_, fun _ => rfl⟩⟩
      dsimp only at hc
      split at hc
      · exact absurd hc (by simp)
      · exact absurd hc (by simp)
  | succ k =>
      have hpos : 0 < d.length := by
        have hfirst := hroom.lt
        have hoffset : m.offset = mb.len * 2 ^ k := h.offset
        have hle : mb.len * 1 ≤ mb.len * 2 ^ k :=
          mul_le_mul_of_nonneg_left (one_le_pow₀ (by norm_num)) (by have := hroom.offset; omega)
        omega
      constructor
      · intro hexact
        have hoffset := hexact.offset
        rw [readBufferFinish, if_neg (by dsimp only; omega)] at hoffset
        have htail : int32 (sizeT (-1) : ℕ) = -1 := by decide
        simp only [writeDone, htail] at hoffset
        rw [int32_of_range (by omega) (by omega)] at hoffset
        omega
      · intro hk
        exact absurd hk (Nat.succ_ne_zero k)

/-- A chunk that does not fill the buffer is counted right. -/
theorem AtBuffer.exact_stopped (h : AtBuffer env mb count k n m d) (hroom : HasRoom mb)
    (hcount : count < 2 ^ 64) {bs : List UInt8} (hn : bs.length ≤ n)
    (hsize : bs.length ≤ m.len - m.offset) (again : Bool) :
    ReadIntoExact mb
      (readBufferFinish count ⟨bs.length, n - bs.length, filled m bs, again, d ++ bs⟩) := by
  obtain ⟨hoff, hlt⟩ := h.room hroom
  have hstart := h.offset_eq
  have hadd := h.n_add
  have hlen := h.lt
  have hbytes := h.bytes_filled hroom bs
  rw [readBufferFinish]
  dsimp only
  split
  · rename_i hnothing
    obtain rfl : bs = [] := List.length_eq_zero_iff.mp (by omega)
    obtain rfl : d = [] := List.length_eq_zero_iff.mp (by
      have := hnothing.2
      simp only [List.length_nil] at this
      omega)
    refine ⟨hstart, ⟨hoff, hlt.le⟩, ?_, fun c hc => ?_, fun _ => rfl⟩
    · rw [List.length_nil, Nat.cast_zero, add_zero] at hbytes
      exact hbytes
    · dsimp only at hc
      rw [if_neg (by simp)] at hc
      exact absurd hc (by simp)
  · have htail : int32 (sizeT (bs.length : ℤ) : ℕ) = bs.length := by
      rw [sizeT_natCast (by omega), int32_of_range (by omega) (by omega)]
    have hsum : int32 (m.offset + bs.length) = m.offset + bs.length :=
      int32_of_range (by omega) (by omega)
    have hdone : (writeDone (filled m bs) (sizeT (bs.length : ℤ))).offset = m.offset + bs.length := by
      rw [writeDone, htail]
      exact hsum
    have hlength : sizeT ((count : ℤ) - (n - bs.length : ℕ)) = (d ++ bs).length := by
      rw [List.length_append]
      simp only [sizeT]
      omega
    refine ⟨?_, ?_, ?_, fun c hc => ?_, fun hc => absurd rfl (hc _)⟩
    · dsimp only
      rw [hdone, hstart, List.length_append]
      omega
    · dsimp only
      rw [hdone]
      constructor
      · omega
      · change _ ≤ m.len
        omega
    · dsimp only
      rw [hdone]
      exact hbytes
    · rw [← hlength]
      exact (BufferReturn.count.inj hc).symm

/-- A full chunk after which the buffer cannot grow is counted twice, or the length is
stored as a negative number. -/
theorem AtBuffer.not_exact_full (h : AtBuffer env mb count k n m d) (hroom : HasRoom mb)
    (hcount : count < 2 ^ 64) (hfills : FillsBuffer env mb count k) (hnot : ¬Enlarges env mb k)
    {fuel : ℕ} {e : BufferExit} (he : readBufferLoop env (fuel + 1) k n m d = some e) :
    ¬ReadIntoExact mb (readBufferFinish count e) := by
  obtain ⟨hoff, hlt⟩ := h.room hroom
  have hlen := h.lt
  obtain ⟨bs, hlength, hmore, hrun⟩ := h.loop_of_fills hroom hcount hfills fuel
  have hfull : 0 < (filled m bs).len := show 0 < m.len by omega
  rw [hrun] at he
  by_cases hgrow : m.alloc = true ∧ (env.alloc k).isSome
  · -- Only the length is too large.
    obtain ⟨halloc, hblock⟩ := hgrow
    obtain ⟨block, hblock⟩ := Option.isSome_iff_exists.mp hblock
    have hdouble : mb.len * 2 ^ (k + 1) = 2 * m.len := by
      rw [h.len]
      ring
    have hbig : 2 ^ 31 ≤ 2 * m.len := by
      by_contra hsmall
      apply hnot
      refine ⟨h.alloc ▸ halloc, by rw [hblock]; rfl, ?_⟩
      rw [hdouble]
      omega
    have hint : -2 ^ 31 ≤ int32 ((2 * m.len.toNat : ℕ) : ℤ) ∧ int32 ((2 * m.len.toNat : ℕ) : ℤ) < 0 := by
      simp only [int32]
      omega
    rw [hblock, writeNext_of_some hfull hlen halloc, Option.bind_eq_bind, Option.bind_some] at he
    dsimp only at he
    rw [if_pos rfl] at he
    have hneg : e.mb.len < 0 := by
      apply len_neg_of_loop _ _ he
      · exact hint.1
      · exact hint.2
    intro hexact
    have hrange := hexact.range
    have hkept : (readBufferFinish count e).mb.len = e.mb.len := by
      rw [readBufferFinish]
      split <;> rfl
    omega
  · have hstays : (filled m bs).alloc = false ∨ env.alloc k = none := by
      by_cases halloc : m.alloc = true
      · exact Or.inr (Option.not_isSome_iff_eq_none.mp fun hblock => hgrow ⟨halloc, hblock⟩)
      · exact Or.inl (Bool.eq_false_of_not_eq_true halloc)
    rw [writeNext_of_not hfull hlen hstays, Option.bind_eq_bind, Option.bind_some] at he
    dsimp only at he
    rw [if_neg Bool.false_ne_true] at he
    obtain rfl := Option.some.inj he
    intro hexact
    have hrange := hexact.range
    rw [readBufferFinish, if_neg (by dsimp only; omega)] at hrange
    have htail : int32 (sizeT (bs.length : ℤ) : ℕ) = bs.length := by
      rw [sizeT_natCast (by omega), int32_of_range (by omega) (by omega)]
    simp only [writeDone, htail] at hrange
    change 0 ≤ int32 (m.len + bs.length) ∧ int32 (m.len + bs.length) ≤ m.len at hrange
    simp only [int32] at hrange
    omega

/-- Where the loop is stuck, the condition is about this iteration. -/
theorem miscounts_iff_of_stuck (hsteps : ∀ j < k, FillsBuffer env mb count j ∧ Enlarges env mb j)
    (hstuck : ¬(FillsBuffer env mb count k ∧ Enlarges env mb k)) :
    Miscounts env mb count ↔
      0 < k ∧ env.read k = none ∨ FillsBuffer env mb count k ∧ ¬Enlarges env mb k := by
  constructor
  · rintro ⟨i, hi, hfails⟩
    rcases Nat.lt_trichotomy i k with hlt | rfl | hlt
    · obtain ⟨hfills, hgrows⟩ := hsteps i hlt
      rcases hfails with ⟨-, hnone⟩ | ⟨-, hnot⟩
      · obtain ⟨⟨bs, hsome, -⟩, -⟩ := hfills
        rw [hnone] at hsome
        exact absurd hsome (by simp)
      · exact absurd hgrows hnot
    · exact hfails
    · exact absurd (hi k hlt) hstuck
  · intro hfails
    exact ⟨k, hsteps, hfails⟩

/-- From every iteration on, the outcome is exact if and only if nothing fails after a full
chunk. -/
theorem AtBuffer.exact_iff (hroom : HasRoom mb) (hcount : count < 2 ^ 64) {fuel : ℕ}
    (hfuel : 31 ≤ fuel + k) (h : AtBuffer env mb count k n m d) :
    (∃ e, readBufferLoop env fuel k n m d = some e ∧
      ReadIntoExact mb (readBufferFinish count e)) ↔ ¬Miscounts env mb count := by
  induction fuel generalizing k n m d with
  | zero =>
      -- The length would be too large.
      have hpow : (2 : ℤ) ^ 31 ≤ 2 ^ k := pow_le_pow_right₀ (by norm_num) (by omega)
      have hle : (1 : ℤ) * 2 ^ k ≤ mb.len * 2 ^ k := by
        apply mul_le_mul_of_nonneg_right _ (by positivity)
        have := hroom.offset
        have := hroom.lt
        omega
      have hlen := h.len
      have hlt := h.lt
      omega
  | succ fuel ih =>
      by_cases hfills : FillsBuffer env mb count k
      · by_cases hgrow : Enlarges env mb k
        · obtain ⟨n', m', d', hnext, hrun⟩ := h.grows hroom hcount hfills hgrow fuel
          rw [hrun]
          exact ih (by omega) hnext
        · have hmis := (miscounts_iff_of_stuck h.steps fun hboth => hgrow hboth.2).mpr
            (Or.inr ⟨hfills, hgrow⟩)
          constructor
          · rintro ⟨e, he, hexact⟩
            exact absurd hexact (h.not_exact_full hroom hcount hfills hgrow he)
          · intro hnot
            exact absurd hmis hnot
      · rw [miscounts_iff_of_stuck h.steps fun hboth => hfills hboth.1]
        cases hread : env.read k with
        | none =>
            have hrun : readBufferLoop env (fuel + 1) k n m d =
                some ⟨-1, n, m, env.again k, d⟩ := by rw [readBufferLoop, hread]
            have hfailed := h.exact_failed_iff hroom (env.again k)
            rw [hrun]
            constructor
            · rintro ⟨e, he, hexact⟩
              obtain rfl := Option.some.inj he
              have hzero := hfailed.mp hexact
              rintro (⟨hpos, -⟩ | ⟨hfull, -⟩)
              · omega
              · exact hfills hfull
            · intro hnot
              refine ⟨_, rfl, hfailed.mpr ?_⟩
              by_contra hne
              exact hnot (Or.inl ⟨by omega, rfl⟩)
        | some there =>
            obtain ⟨bs, hn, hsize, hrun⟩ := h.loop_of_not_fills hroom hcount hread hfills fuel
            rw [hrun]
            constructor
            · rintro - (⟨-, hnone⟩ | ⟨hfull, -⟩)
              · exact absurd hnone (by simp)
              · exact hfills hfull
            · intro _
              exact ⟨_, rfl, h.exact_stopped hroom hcount hn hsize _⟩

end Iteration

/-- The body of the two functions. -/
theorem readBuffer_exact_iff (env : ReadEnv) {mb : Membuf} (hroom : HasRoom mb)
    (count : Option ℤ) {fuel : ℕ} (hfuel : 31 ≤ fuel) :
    (∃ o, readBuffer env mb count fuel = some o ∧ ReadIntoExact mb o) ↔
      ¬Miscounts env mb (readCount count) := by
  have hcount : readCount count < 2 ^ 64 := by
    cases count with
    | none => exact sizeT_lt _
    | some i => exact sizeT_lt i
  rw [← AtBuffer.exact_iff hroom hcount hfuel (AtBuffer.init hroom)]
  constructor
  · rintro ⟨o, ho, hexact⟩
    obtain ⟨e, he, rfl⟩ := Option.map_eq_some_iff.mp ho
    exact ⟨e, he, hexact⟩
  · rintro ⟨e, he, hexact⟩
    exact ⟨_, Option.map_eq_some_iff.mpr ⟨e, he, rfl⟩, hexact⟩

/-- **A read into a buffer is exact if and only if nothing fails after a full chunk.**  For
every buffer with room, every `count` and whatever the system calls return, `sys_read` and
`sock_read` return with exactly the delivered bytes appended, the offset and the result
being right, exactly if no read fails after a full chunk, and the buffer can grow whenever
a chunk has filled it and more is wanted. -/
theorem reads_into_exact_iff (env : ReadEnv) {mb : Membuf} (hroom : HasRoom mb)
    (count : Option ℤ) {fuel : ℕ} (hfuel : 31 ≤ fuel) :
    ((∃ o, sysReadBuffer env mb count fuel = some o ∧ ReadIntoExact mb o) ↔
        ¬Miscounts env mb (readCount count)) ∧
      ((∃ o, sockReadBuffer env mb count fuel = some o ∧ ReadIntoExact mb o) ↔
        ¬Miscounts env mb (readCount count)) :=
  ⟨readBuffer_exact_iff env hroom count hfuel, readBuffer_exact_iff env hroom count hfuel⟩

/-- A buffer of four bytes that may grow or not, on a descriptor that delivers four bytes
and then what `next` says. -/
def fourBytes (alloc : Bool) : Membuf where
  data _ := 0
  size := 4
  len := 4
  offset := 0
  alloc := alloc

def fourThen (next : Option (List UInt8)) : ReadEnv where
  read k := if k = 0 then some [1, 2, 3, 4] else next
  alloc _ := some fun _ => 0
  again _ := true
  stack _ := 0

/-- The four bytes fill the buffer, it grows, and two more bytes are the end. -/
theorem reads_into_exact_iff_sixBytes :
    (∃ o, sysReadBuffer (fourThen (some [5, 6])) (fourBytes true) none 31 = some o ∧
        ReadIntoExact (fourBytes true) o) ∧
      ∃ o, sockReadBuffer (fourThen (some [5, 6])) (fourBytes true) none 31 = some o ∧
        ReadIntoExact (fourBytes true) o := by
  have hroom : HasRoom (fourBytes true) := ⟨by decide, by decide, by decide, by decide⟩
  have hshort : ¬FillsBuffer (fourThen (some [5, 6])) (fourBytes true) (readCount none) 1 := by
    rintro ⟨⟨bs, hbs, hle⟩, -⟩
    obtain rfl := Option.some.inj (show some [5, 6] = some bs from hbs)
    exact absurd hle (by decide)
  have hsteps : ∀ j < 1, FillsBuffer (fourThen (some [5, 6])) (fourBytes true) (readCount none) j ∧
      Enlarges (fourThen (some [5, 6])) (fourBytes true) j := by
    intro j hj
    obtain rfl : j = 0 := by omega
    exact ⟨⟨⟨_, rfl, by decide⟩, by decide⟩, rfl, rfl, by decide⟩
  have hnot : ¬Miscounts (fourThen (some [5, 6])) (fourBytes true) (readCount none) := by
    rw [miscounts_iff_of_stuck hsteps fun hboth => hshort hboth.1]
    rintro (⟨-, hnone⟩ | ⟨hfull, -⟩)
    · exact absurd hnone (by simp [fourThen])
    · exact hshort hfull
  obtain ⟨hsys, hsock⟩ := reads_into_exact_iff (fourThen (some [5, 6])) hroom none (le_refl 31)
  exact ⟨hsys.mpr hnot, hsock.mpr hnot⟩

/-- When the second read returns -1, four bytes are delivered, four are reported, and the
offset is three.  And when the buffer may not grow, the offset is eight, beyond the length
of four. -/
theorem failed_read_counted :
    (sysReadBuffer (fourThen none) (fourBytes true) none 31).map
        (fun o => (o.ret, o.mb.offset, o.delivered)) = some (.count 4, 3, [1, 2, 3, 4]) ∧
      (sysReadBuffer (fourThen none) (fourBytes false) none 31).map
        (fun o => (o.ret, o.mb.offset, o.mb.len)) = some (.count 4, 8, 4) ∧
      ¬∃ o, sysReadBuffer (fourThen none) (fourBytes true) none 31 = some o ∧
        ReadIntoExact (fourBytes true) o := by
  have hrun : (sysReadBuffer (fourThen none) (fourBytes true) none 31).map
      (fun o => (o.ret, o.mb.offset, o.delivered)) = some (.count 4, 3, [1, 2, 3, 4]) := by
    decide +kernel
  refine ⟨hrun, by decide +kernel, ?_⟩
  rintro ⟨o, ho, hexact⟩
  rw [ho] at hrun
  obtain ⟨-, hrest⟩ := Prod.mk.inj (Option.some.inj hrun)
  obtain ⟨hoffset, hdelivered⟩ := Prod.mk.inj hrest
  have hsum := hexact.offset
  rw [hoffset, hdelivered] at hsum
  exact absurd hsum (by decide)

end LuaSys.File
