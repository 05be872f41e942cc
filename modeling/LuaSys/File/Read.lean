import LuaSys.Lib.Memory
import LuaSys.Lib.Word

/-!
# Reading into a Lua string

The model of `sys_read` and `sock_read` without a buffer argument.  Both run the same
loop: the first chunk goes into a buffer on the stack; each time a chunk has been
filled and more is wanted, the bytes move to a block of twice the size, and the next
chunk goes behind them.  The bookkeeping of the block, its address and the number of
bytes before the current chunk, lies over the stack buffer.

The operating system is an environment: what the `k`-th read delivers, what the
allocation after it returns, and whether `errno` then says "again".  The loop that
repeats an interrupted read is part of one read.  A loop takes fuel; the number of
chunks is bounded because their sizes double.  The model ends with the string; that
`sys_thread_check` may raise an error instead of returning it is not part of it.

## Main definitions

* `ReadEnv` — the results of the system calls.
* `writeInit`, `writeNext`, `writeDone` — the growing buffer.
* `readLoop`, `sysRead`, `sockRead` — the functions of the source.
* `ReadExact` — no byte is lost or invented.
* `FailsAfterChunks` — a read fails after one or more full chunks.

## Main results

* `reads_exact_iff` — a read is exact if and only if it does not fail after a full
  chunk.
-/

namespace LuaSys.File

open LuaSys.Lib

/-- `SYS_BUFSIZE`. -/
def sysBufSize : ℕ := 4096

/-- The most that one `read(2)` transfers, whatever it is asked for. -/
def maxRwCount : ℕ := 0x7ffff000

/-! ## The operating system -/

/-- The outcomes of the system calls of one run, by iteration of the loop. -/
structure ReadEnv where
  /-- The bytes that are there for the `k`-th read, or `none` for `-1`. -/
  read : ℕ → Option (List UInt8)
  /-- The block of the `k`-th `malloc` or `realloc`, or `none`. -/
  alloc : ℕ → Option Mem
  /-- `SYS_IS_EAGAIN(SYS_ERRNO)` when the loop is left in iteration `k`. -/
  again : ℕ → Bool
  /-- The bytes of `buf` on entry. -/
  stack : Mem

/-- The documented limit of `read(2)`: no call transfers more than `maxRwCount`. -/
def ReadEnv.Limited (env : ReadEnv) : Prop :=
  ∀ k bs, env.read k = some bs → bs.length ≤ maxRwCount

/-! ## The string buffer -/

/-- Where `struct sys_buffer` points: to `buf`, or behind the `osbSize` bytes of the
block that the overlay in `buf` describes. -/
inductive Target
  | stack (buf : Mem)
  | heap (block : Mem) (osbSize : ℕ)

/-- `struct sys_buffer` with `mb = NULL`: the place of the current chunk and its size. -/
structure SysBuffer where
  target : Target
  size : ℕ

namespace SysBuffer

/-- `sys_buffer_write_init`. -/
def writeInit (buf : Mem) : SysBuffer := ⟨.stack buf, sysBufSize⟩

/-- The bytes the system puts at `sb.ptr.w`. -/
def store (sb : SysBuffer) (bs : List UInt8) : SysBuffer :=
  match sb.target with
  | .stack buf => { sb with target := .stack (writeBytes buf 0 bs) }
  | .heap block osbSize => { sb with target := .heap (writeBytes block osbSize bs) osbSize }

/-- `sys_buffer_write_next`.  The new block keeps the bytes of the old one. -/
def writeNext (sb : SysBuffer) (alloc : Option Mem) : Option SysBuffer :=
  match sb.target with
  | .stack buf =>
      alloc.map fun p => ⟨.heap (writeBytes p 0 (readBytes buf 0 sb.size)) sb.size, sb.size⟩
  | .heap block osbSize =>
      alloc.map fun p =>
        ⟨.heap (writeBytes p 0 (readBytes block 0 (sizeT (2 * osbSize)))) (sizeT (2 * osbSize)),
          sizeT (2 * osbSize)⟩

/-- `sys_buffer_write_done`: the string it pushes. -/
def writeDone (sb : SysBuffer) (tail : ℕ) : List UInt8 :=
  match sb.target with
  | .stack buf => readBytes buf 0 tail
  | .heap block osbSize => readBytes block 0 (sizeT (osbSize + tail))

end SysBuffer

/-! ## The loop -/

/-- The locals when the loop is left, with the bytes delivered so far. -/
structure LoopExit where
  nr : ℤ
  n : ℕ
  sb : SysBuffer
  again : Bool
  delivered : List UInt8

/-- The loop of `sys_read` from iteration `k` on. -/
def readLoop (env : ReadEnv) : (fuel k n : ℕ) → SysBuffer → List UInt8 → Option LoopExit
  | 0, _, _, _, _ => none
  | fuel + 1, k, n, sb, delivered =>
      let rlen := if n ≤ sb.size then n else sb.size
      match env.read k with
      | none => some ⟨-1, n, sb, env.again k, delivered⟩
      | some there =>
          let bs := there.take rlen
          let nr := int32 bs.length
          let sb := sb.store bs
          if nr = -1 then some ⟨nr, n, sb, env.again k, delivered ++ bs⟩
          else
            let n := sizeT (n - nr)
            if n ≠ 0 ∧ nr = int32 rlen then
              match sb.writeNext (env.alloc k) with
              | none => some ⟨nr, n, sb, env.again k, delivered ++ bs⟩
              | some sb => readLoop env fuel (k + 1) n sb (delivered ++ bs)
            else some ⟨nr, n, sb, env.again k, delivered ++ bs⟩

/-- What the functions leave on the Lua stack. -/
inductive ReadReturn
  | string (bs : List UInt8)
  | pushFalse
  | nothing
  | error
  deriving DecidableEq, Repr

/-- The part behind the loop. -/
def readFinish (len : ℕ) (e : LoopExit) : ReadReturn :=
  if e.nr ≤ 0 ∧ len = e.n then
    if e.nr ≠ 0 ∧ e.again then .pushFalse
    else if e.nr = 0 then .nothing
    else .error
  else .string (e.sb.writeDone (sizeT e.nr))

/-- The argument `count`: a number converted to `size_t`, or the largest one. -/
def readCount (count : Option ℤ) : ℕ :=
  match count with
  | some i => sizeT i
  | none => sizeT (-1)

/-- The result of a read with the bytes the system has delivered for it. -/
structure ReadOutcome where
  ret : ReadReturn
  delivered : List UInt8

/-- The body the two functions share. -/
def readString (env : ReadEnv) (count : Option ℤ) (fuel : ℕ) : Option ReadOutcome :=
  let len := readCount count
  (readLoop env fuel 0 len (.writeInit env.stack) []).map fun e => ⟨readFinish len e, e.delivered⟩

/-- `sys_read` without a buffer argument. -/
def sysRead (env : ReadEnv) (count : Option ℤ) (fuel : ℕ) : Option ReadOutcome :=
  readString env count fuel

/-- `sock_read` without a buffer argument. -/
def sockRead (env : ReadEnv) (count : Option ℤ) (fuel : ℕ) : Option ReadOutcome :=
  readString env count fuel

/-! ## The property and its condition -/

/-- No byte is lost or invented. -/
structure ReadExact (o : ReadOutcome) : Prop where
  /-- Delivered bytes come back as one string. -/
  string_of_delivered : o.delivered ≠ [] → o.ret = .string o.delivered
  /-- Nothing else comes back unless nothing was delivered. -/
  delivered_of_not_string : (∀ bs, o.ret ≠ .string bs) → o.delivered = []

/-- The size of the `k`-th chunk: the stack buffer, then the doubling halves of the
blocks. -/
def chunkSize : ℕ → ℕ
  | 0 => sysBufSize
  | k + 1 => sysBufSize * 2 ^ k

/-- The number of bytes before the `k`-th chunk. -/
def chunkOffset : ℕ → ℕ
  | 0 => 0
  | k + 1 => sysBufSize * 2 ^ k

/-- Iteration `j` fills its chunk and gets a block for the next one. -/
def ReadEnv.FillsChunk (env : ReadEnv) (j : ℕ) : Prop :=
  (∃ bs, env.read j = some bs ∧ chunkSize j ≤ bs.length) ∧ (env.alloc j).isSome

/-- A read fails in an iteration after the first, which is reached because every
chunk before has been filled and more is wanted. -/
def FailsAfterChunks (env : ReadEnv) (count : Option ℤ) : Prop :=
  ∃ k, 0 < k ∧ chunkOffset k < readCount count ∧ env.read k = none ∧ ∀ j < k, env.FillsChunk j

/-! ## Chunks -/

theorem chunkOffset_succ (k : ℕ) : chunkOffset (k + 1) = chunkOffset k + chunkSize k := by
  cases k with
  | zero => simp [chunkOffset, chunkSize]
  | succ k =>
      simp only [chunkOffset, chunkSize, Nat.pow_succ, ← Nat.mul_assoc]
      omega

/-- From the second chunk on, a chunk is as large as all before it. -/
theorem chunkSize_eq_chunkOffset {k : ℕ} (hk : 0 < k) : chunkSize k = chunkOffset k := by
  cases k with
  | zero => omega
  | succ k => rfl

theorem chunkSize_pos (k : ℕ) : 0 < chunkSize k := by
  cases k with
  | zero => decide
  | succ k => exact Nat.mul_pos (by decide) (Nat.two_pow_pos k)

theorem chunkOffset_le {j k : ℕ} (h : j ≤ k) : chunkOffset j ≤ chunkOffset k := by
  induction h with
  | refl => exact Nat.le_refl _
  | step _ ih =>
      rw [chunkOffset_succ]
      omega

theorem chunkOffset_twenty : chunkOffset 20 = 2 ^ 31 := by decide

/-! ## The bytes in the buffer -/

/-- The buffer holds the bytes `d` before its `k`-th chunk. -/
def SysBuffer.Holds (sb : SysBuffer) (k : ℕ) (d : List UInt8) : Prop :=
  sb.size = chunkSize k ∧ d.length = chunkOffset k ∧
    match sb.target with
    | .stack _ => k = 0
    | .heap block osbSize => 0 < k ∧ osbSize = d.length ∧ readBytes block 0 d.length = d

namespace SysBuffer

variable {sb : SysBuffer} {k : ℕ} {d bs : List UInt8}

theorem holds_writeInit (buf : Mem) : (writeInit buf).Holds 0 [] := ⟨rfl, rfl, rfl⟩

/-- A block that holds `d` holds `d ++ bs` when `bs` is written behind `d`. -/
theorem readBytes_write_behind {block : Mem} (h : readBytes block 0 d.length = d) :
    readBytes (writeBytes block d.length bs) 0 (d ++ bs).length = d ++ bs := by
  rw [List.length_append, readBytes_add, Nat.zero_add, readBytes_writeBytes_self,
    readBytes_writeBytes_of_disjoint (Or.inl (by omega)), h]

/-- The string pushed behind a chunk is all that was delivered. -/
theorem Holds.writeDone_store (h : sb.Holds k d) (hlen : d.length + bs.length < 2 ^ 64) :
    (sb.store bs).writeDone bs.length = d ++ bs := by
  obtain ⟨target, size⟩ := sb
  obtain ⟨-, hd, htarget⟩ := h
  cases target with
  | stack buf =>
      obtain rfl : k = 0 := htarget
      obtain rfl : d = [] := List.length_eq_zero_iff.mp hd
      simp [store, writeDone]
  | heap block osbSize =>
      obtain ⟨-, rfl, hblock⟩ := htarget
      simp only [store, writeDone]
      rw [← Int.natCast_add, sizeT_natCast hlen, ← List.length_append]
      exact readBytes_write_behind hblock

/-- With `nr = -1` as the tail, the string pushed lacks the last byte. -/
theorem Holds.length_writeDone_fail (h : sb.Holds k d) (hk : 0 < k) (hlen : d.length < 2 ^ 64) :
    (sb.writeDone (sizeT (-1))).length = d.length - 1 := by
  obtain ⟨target, size⟩ := sb
  obtain ⟨-, hd, htarget⟩ := h
  have hpos : 0 < d.length := by
    rw [hd, ← chunkSize_eq_chunkOffset hk]
    exact chunkSize_pos k
  cases target with
  | stack buf => exact absurd htarget (by omega)
  | heap block osbSize =>
      obtain ⟨-, rfl, -⟩ := htarget
      simp only [writeDone, length_readBytes, sizeT]
      omega

/-- A full chunk and a new block: the buffer holds the chunk too. -/
theorem Holds.writeNext_store (h : sb.Holds k d) (hbs : bs.length = chunkSize k)
    (hk : k < 20) (p : Mem) :
    ∃ sb', (sb.store bs).writeNext (some p) = some sb' ∧ sb'.Holds (k + 1) (d ++ bs) := by
  obtain ⟨target, size⟩ := sb
  obtain ⟨hsize, hd, htarget⟩ := h
  have hlen : (d ++ bs).length = chunkOffset (k + 1) := by
    rw [List.length_append, chunkOffset_succ, hd, hbs]
  have hsize' : chunkSize (k + 1) = chunkOffset (k + 1) := chunkSize_eq_chunkOffset (by omega)
  obtain rfl : size = chunkSize k := hsize
  cases target with
  | stack buf =>
      obtain rfl : k = 0 := htarget
      obtain rfl : d = [] := List.length_eq_zero_iff.mp hd
      refine ⟨_, rfl, rfl, hlen, by omega, hbs.symm, ?_⟩
      change readBytes (writeBytes p 0 (readBytes (writeBytes buf 0 bs) 0 (chunkSize 0))) 0 _ = _
      rw [List.nil_append, ← hbs, readBytes_writeBytes_self, readBytes_writeBytes_self]
  | heap block osbSize =>
      obtain ⟨hpos, rfl, hblock⟩ := htarget
      have hbound : chunkOffset (k + 1) ≤ 2 ^ 31 := by
        rw [← chunkOffset_twenty]
        exact chunkOffset_le (by omega)
      have hdouble : sizeT (2 * (d.length : ℤ)) = (d ++ bs).length := by
        have hcast : (2 * (d.length : ℤ)) = ((d ++ bs).length : ℤ) := by
          rw [List.length_append, hbs, chunkSize_eq_chunkOffset hpos, ← hd]
          push_cast
          omega
        rw [hcast]
        exact sizeT_natCast (by omega)
      refine ⟨_, rfl, ?_, hlen, by omega, hdouble, ?_⟩
      · rw [hdouble, hsize', hlen]
      · rw [hdouble, readBytes_write_behind hblock, readBytes_writeBytes_self]

end SysBuffer

/-! ## One iteration -/

/-- The state at the start of iteration `k`: every chunk before has been filled, and
the buffer holds what was delivered. -/
structure AtChunk (env : ReadEnv) (len k n : ℕ) (sb : SysBuffer) (d : List UInt8) : Prop where
  holds : sb.Holds k d
  n_add : n + chunkOffset k = len
  more : 0 < k → 0 < n
  le_twenty : k ≤ 20
  fills : ∀ j < k, env.FillsChunk j

section Iteration

variable {env : ReadEnv} {len k n : ℕ} {sb : SysBuffer} {d : List UInt8}

/-- An iteration whose read succeeds: `nr` is the number of bytes delivered, and
nothing wraps. -/
theorem readLoop_of_some {there : List UInt8} (hread : env.read k = some there) {rlen : ℕ}
    (hrlen : rlen = if n ≤ sb.size then n else sb.size) {bs : List UInt8}
    (hbs : bs = there.take rlen) (hsmall : bs.length ≤ maxRwCount) (hn : n < 2 ^ 64) (fuel : ℕ) :
    readLoop env (fuel + 1) k n sb d =
      if n - bs.length ≠ 0 ∧ (bs.length : ℤ) = int32 rlen then
        match (sb.store bs).writeNext (env.alloc k) with
        | none => some ⟨bs.length, n - bs.length, sb.store bs, env.again k, d ++ bs⟩
        | some sb' => readLoop env fuel (k + 1) (n - bs.length) sb' (d ++ bs)
      else some ⟨bs.length, n - bs.length, sb.store bs, env.again k, d ++ bs⟩ := by
  have hle : bs.length ≤ n := by
    rw [hbs, List.length_take]
    split at hrlen <;> omega
  have hnr : int32 (bs.length : ℤ) = bs.length := by
    simp only [maxRwCount] at hsmall
    exact int32_of_range (by omega) (by omega)
  have hn' : sizeT ((n : ℤ) - bs.length) = n - bs.length := by
    rw [← Int.natCast_sub hle]
    exact sizeT_natCast (by omega)
  have hnr' : (bs.length : ℤ) ≠ -1 := by omega
  simp only [readLoop, hread, ← hrlen, ← hbs, hnr, hn', if_neg hnr']

/-- The chunk before iteration 20 is the last one that an `int` can count. -/
theorem chunkSize_lt {k : ℕ} (hk : k < 20) : chunkSize k < 2 ^ 31 := by
  have hle := chunkOffset_le (show k + 1 ≤ 20 by omega)
  rw [chunkOffset_twenty, chunkOffset_succ] at hle
  cases k with
  | zero => exact Nat.lt_of_lt_of_le (show chunkSize 0 < 4097 by decide) (by omega)
  | succ k =>
      rw [← chunkSize_eq_chunkOffset (show 0 < k + 1 by omega)] at hle
      omega

/-- A read that fills what it was asked for, when more is wanted, fills its chunk;
the chunk of iteration 20 is too large for that. -/
theorem filled_of_int32_eq {rlen c : ℕ} (hk : k ≤ 20)
    (hrlen : rlen = if n ≤ chunkSize k then n else chunkSize k) (hc : c ≤ maxRwCount)
    (hint : (c : ℤ) = int32 rlen) (hne : n - c ≠ 0) :
    k < 20 ∧ c = chunkSize k := by
  simp only [maxRwCount] at hc
  have hle : rlen ≤ chunkSize k := by split at hrlen <;> omega
  have hlt : k < 20 := by
    rcases Nat.lt_or_eq_of_le hk with hlt | rfl
    · exact hlt
    · have h20 : chunkSize 20 = 2147483648 := by decide
      rw [h20] at hrlen hle
      simp only [int32] at hint
      split at hrlen <;> omega
  have hchunk := chunkSize_lt hlt
  rw [int32_of_range (by omega) (by omega)] at hint
  refine ⟨hlt, ?_⟩
  split at hrlen <;> omega

/-- What one iteration can do: the read fails; or the loop ends with the bytes of
the chunk delivered, and it does not fill the chunk or no more is wanted; or the
next iteration starts. -/
theorem AtChunk.iteration (h : AtChunk env len k n sb d) (hlim : env.Limited)
    (hlen : len < 2 ^ 64) (fuel : ℕ) :
    (env.read k = none ∧
      readLoop env (fuel + 1) k n sb d = some ⟨-1, n, sb, env.again k, d⟩) ∨
    (∃ bs : List UInt8, env.read k ≠ none ∧ bs.length ≤ n ∧
      ¬(env.FillsChunk k ∧ chunkOffset (k + 1) < len) ∧
      readLoop env (fuel + 1) k n sb d =
        some ⟨bs.length, n - bs.length, sb.store bs, env.again k, d ++ bs⟩) ∨
    ∃ n' sb' d', AtChunk env len (k + 1) n' sb' d' ∧
      readLoop env (fuel + 1) k n sb d = readLoop env fuel (k + 1) n' sb' d' := by
  obtain ⟨hholds, hn, hmore, hk, hfills⟩ := h
  cases hread : env.read k with
  | none => exact Or.inl ⟨rfl, by simp only [readLoop, hread]⟩
  | some there =>
      right
      obtain ⟨rlen, hrlen⟩ : ∃ r, r = if n ≤ sb.size then n else sb.size := ⟨_, rfl⟩
      obtain ⟨bs, hbs⟩ : ∃ bs, bs = there.take rlen := ⟨_, rfl⟩
      have hthere := hlim k there hread
      have hbslen : bs.length = min rlen there.length := by rw [hbs, List.length_take]
      have hsmall : bs.length ≤ maxRwCount := by omega
      have hloop := readLoop_of_some (d := d) hread hrlen hbs hsmall (by omega) fuel
      simp only [maxRwCount] at hthere
      rw [hholds.1] at hrlen
      have hoff := chunkOffset_succ k
      have hbsn : bs.length ≤ n := by split at hrlen <;> omega
      by_cases hcont : n - bs.length ≠ 0 ∧ (bs.length : ℤ) = int32 rlen
      · rw [if_pos hcont] at hloop
        obtain ⟨hk', hchunk⟩ :=
          filled_of_int32_eq hk hrlen hsmall hcont.2 hcont.1
        obtain ⟨hne, -⟩ := hcont
        clear hsmall
        cases halloc : env.alloc k with
        | none =>
            have hnext : (sb.store bs).writeNext none = none := by
              unfold SysBuffer.writeNext
              cases (sb.store bs).target <;> rfl
            rw [halloc, hnext] at hloop
            exact Or.inl ⟨bs, by simp, hbsn, fun hf => by simp [ReadEnv.FillsChunk, halloc] at hf,
              hloop⟩
        | some p =>
            obtain ⟨sb', hnext, hholds'⟩ := hholds.writeNext_store hchunk hk' p
            rw [halloc, hnext] at hloop
            refine Or.inr ⟨_, sb', _, ⟨hholds', by omega, fun _ => by omega, by omega, ?_⟩, hloop⟩
            intro j hj
            rcases Nat.lt_succ_iff_lt_or_eq.mp hj with hj | rfl
            · exact hfills j hj
            · exact ⟨⟨there, hread, by omega⟩, by simp [halloc]⟩
      · rw [if_neg hcont] at hloop
        refine Or.inl ⟨bs, by simp, hbsn, fun hf => hcont ?_, hloop⟩
        obtain ⟨⟨⟨bs₁, hbs₁, hle⟩, -⟩, hlt⟩ := hf
        obtain rfl : there = bs₁ := Option.some.inj (hread.symm.trans hbs₁)
        have hr : rlen = chunkSize k := by split at hrlen <;> omega
        clear hsmall hcont
        have hfull : bs.length = rlen := by omega
        have hne : n - bs.length ≠ 0 := by omega
        have hint : int32 (rlen : ℤ) = rlen := int32_of_range (by omega) (by omega)
        exact ⟨hne, by rw [hint, hfull]⟩

/-! ## The result of a whole read -/

/-- The part behind the loop when the last read has delivered `bs`. -/
theorem AtChunk.exact_of_stop (h : AtChunk env len k n sb d) (hlen : len < 2 ^ 64)
    {bs : List UInt8} (hbs : bs.length ≤ n) (again : Bool) :
    ReadExact ⟨readFinish len ⟨bs.length, n - bs.length, sb.store bs, again, d ++ bs⟩, d ++ bs⟩ := by
  have hd : d.length = chunkOffset k := h.holds.2.1
  have hn := h.n_add
  by_cases hnone : (bs.length : ℤ) ≤ 0 ∧ len = n - bs.length
  · have hdelivered : d ++ bs = [] := by
      apply List.length_eq_zero_iff.mp
      rw [List.length_append]
      omega
    exact ⟨fun hne => absurd hdelivered hne, fun _ => hdelivered⟩
  · have hstring : readFinish len ⟨bs.length, n - bs.length, sb.store bs, again, d ++ bs⟩ =
        .string (d ++ bs) := by
      simp only [readFinish]
      rw [if_neg hnone, sizeT_natCast (by omega), h.holds.writeDone_store (by omega)]
    exact ⟨fun _ => hstring, fun hno => absurd hstring (hno _)⟩

/-- The part behind the loop when the last read has failed. -/
theorem AtChunk.exact_of_fail_iff (h : AtChunk env len k n sb d) (hlen : len < 2 ^ 64)
    (again : Bool) : ReadExact ⟨readFinish len ⟨-1, n, sb, again, d⟩, d⟩ ↔ k = 0 := by
  have hd : d.length = chunkOffset k := h.holds.2.1
  have hn := h.n_add
  constructor
  · intro hexact
    by_contra hk
    have hpos := chunkSize_eq_chunkOffset (Nat.pos_of_ne_zero hk) ▸ chunkSize_pos k
    have hne : d ≠ [] := fun hnil => by rw [hnil] at hd; simp at hd; omega
    have hret := hexact.string_of_delivered hne
    simp only [readFinish] at hret
    rw [if_neg (by omega)] at hret
    have hlength := congrArg List.length (ReadReturn.string.inj hret)
    rw [h.holds.length_writeDone_fail (Nat.pos_of_ne_zero hk) (by omega)] at hlength
    omega
  · rintro rfl
    have hnil : d = [] := List.length_eq_zero_iff.mp hd
    exact ⟨fun hne => absurd hnil hne, fun _ => hnil⟩

/-- A run from iteration `k` on returns, and it is exact unless a later read fails. -/
theorem AtChunk.run {count : Option ℤ} {fuel : ℕ} (h : AtChunk env (readCount count) k n sb d)
    (hlim : env.Limited) (hlen : readCount count < 2 ^ 64) (hfuel : 21 ≤ fuel + k) :
    ∃ e, readLoop env fuel k n sb d = some e ∧
      (ReadExact ⟨readFinish (readCount count) e, e.delivered⟩ ↔ ¬FailsAfterChunks env count) := by
  induction fuel generalizing k n sb d with
  | zero => exact absurd h.le_twenty (by omega)
  | succ fuel ih =>
      rcases h.iteration hlim hlen fuel with ⟨hread, heq⟩ | ⟨bs, hread, hbs, hnot, heq⟩ |
        ⟨n', sb', d', h', heq⟩
      · refine ⟨_, heq, (h.exact_of_fail_iff hlen _).trans ⟨?_, ?_⟩⟩
        · rintro rfl ⟨k', hk', -, -, hall⟩
          obtain ⟨⟨bs, hbs, -⟩, -⟩ := hall 0 hk'
          exact absurd (hread.symm.trans hbs) (by simp)
        · intro hno
          by_contra hk
          have hn := h.n_add
          have hmore := h.more (Nat.pos_of_ne_zero hk)
          exact hno ⟨k, Nat.pos_of_ne_zero hk, by omega, hread, h.fills⟩
      · refine ⟨_, heq, iff_of_true (h.exact_of_stop hlen hbs _) ?_⟩
        rintro ⟨k', -, hlt, hfail, hall⟩
        rcases Nat.lt_trichotomy k' k with hk' | rfl | hk'
        · obtain ⟨⟨bs, hbs, -⟩, -⟩ := h.fills k' hk'
          exact absurd (hfail.symm.trans hbs) (by simp)
        · exact hread hfail
        · have hle := chunkOffset_le (show k + 1 ≤ k' by omega)
          exact hnot ⟨hall k hk', by omega⟩
      · rw [heq]
        exact ih h' (by omega)

end Iteration

theorem readCount_lt (count : Option ℤ) : readCount count < 2 ^ 64 := by
  cases count <;> exact sizeT_lt _

theorem readString_exact_iff {env : ReadEnv} (hlim : env.Limited) (count : Option ℤ) {fuel : ℕ}
    (hfuel : 21 ≤ fuel) :
    ∃ o, readString env count fuel = some o ∧ (ReadExact o ↔ ¬FailsAfterChunks env count) := by
  have hstart : AtChunk env (readCount count) 0 (readCount count) (.writeInit env.stack) [] :=
    ⟨SysBuffer.holds_writeInit _, rfl, by omega, by omega, fun j hj => absurd hj (Nat.not_lt_zero j)⟩
  obtain ⟨e, he, hexact⟩ := hstart.run hlim (readCount_lt count) (show 21 ≤ fuel + 0 by omega)
  exact ⟨_, by rw [readString, he]; rfl, hexact⟩

/-- **A read is exact if and only if it does not fail after a full chunk.**  For every
count, every result of the reads and of the allocations, both functions return, and
what they return is all that was delivered unless a read fails in an iteration after
the first. -/
theorem reads_exact_iff (env : ReadEnv) (hlim : env.Limited) (count : Option ℤ) (fuel : ℕ)
    (hfuel : 21 ≤ fuel) :
    (∃ o, sysRead env count fuel = some o ∧ (ReadExact o ↔ ¬FailsAfterChunks env count)) ∧
      ∃ o, sockRead env count fuel = some o ∧ (ReadExact o ↔ ¬FailsAfterChunks env count) :=
  ⟨readString_exact_iff hlim count hfuel, readString_exact_iff hlim count hfuel⟩

/-- Two chunks of 4096 bytes are filled, and one byte comes into the third one. -/
def threeChunks : ReadEnv where
  read k := some (if k < 2 then List.replicate 4096 (UInt8.ofNat k) else [2])
  alloc _ := some fun _ => 0
  again _ := false
  stack _ := 0

theorem threeChunks_limited : threeChunks.Limited := by
  intro k bs h
  have hlen : bs.length ≤ 4096 := by
    rw [← Option.some.inj h]
    split
    · exact Nat.le_of_eq List.length_replicate
    · exact Nat.le_of_ble_eq_true rfl
  exact Nat.le_trans hlen (by decide)

theorem reads_exact_threeChunks :
    ∃ o, sysRead threeChunks none 21 = some o ∧ o.delivered.length = 8193 ∧ ReadExact o := by
  have hrun : (sysRead threeChunks none 21).map (fun o => o.delivered.length) = some 8193 := by
    decide +kernel
  obtain ⟨o, ho, hlen⟩ := Option.map_eq_some_iff.mp hrun
  obtain ⟨o', ho', hexact⟩ := (reads_exact_iff threeChunks threeChunks_limited none 21 (by decide)).1
  obtain rfl := Option.some.inj (ho.symm.trans ho')
  refine ⟨o, ho, hlen, hexact.mpr ?_⟩
  rintro ⟨k, -, -, hfail, -⟩
  exact absurd hfail (Option.some_ne_none _)

/-- A non-blocking descriptor with 4096 bytes: the first read fills the stack buffer
and the second one says "again". -/
def fullThenAgain : ReadEnv where
  read k := if k = 0 then some (List.replicate 4096 97) else none
  alloc _ := some fun _ => 0
  again _ := true
  stack _ := 0

/-- The last byte of the chunk before a failing read is lost. -/
theorem read_loses_byte :
    ∃ o, fullThenAgain.Limited ∧ sysRead fullThenAgain none 21 = some o ∧
      sockRead fullThenAgain none 21 = some o ∧ o.delivered.length = 4096 ∧
      (∃ bs, o.ret = .string bs ∧ bs.length = 4095) ∧ ¬ReadExact o := by
  have hlim : fullThenAgain.Limited := by
    intro k bs h
    have hlen : bs.length ≤ 4096 := by
      simp only [fullThenAgain] at h
      split at h
      · rw [← Option.some.inj h, List.length_replicate]
      · exact absurd h (by simp)
    exact Nat.le_trans hlen (by decide)
  have hrun : (sysRead fullThenAgain none 21).map (fun o =>
      (o.delivered.length, match o.ret with | .string bs => some bs.length | _ => none)) =
        some (4096, some 4095) := by
    decide +kernel
  obtain ⟨o, ho, heq⟩ := Option.map_eq_some_iff.mp hrun
  obtain ⟨hdelivered, hret⟩ := Prod.mk.inj heq
  cases hstring : o.ret with
  | string bs =>
      rw [hstring] at hret
      have hbs : bs.length = 4095 := Option.some.inj hret
      refine ⟨o, hlim, ho, ho, hdelivered, ⟨bs, hstring, hbs⟩, fun hexact => ?_⟩
      have hne : o.delivered ≠ [] := fun hnil => by simp [hnil] at hdelivered
      have hall := hstring.symm.trans (hexact.string_of_delivered hne)
      rw [← ReadReturn.string.inj hall, hbs] at hdelivered
      omega
  | pushFalse => rw [hstring] at hret; exact absurd hret (by simp)
  | nothing => rw [hstring] at hret; exact absurd hret (by simp)
  | error => rw [hstring] at hret; exact absurd hret (by simp)

end LuaSys.File
