import LuaSys.Mem.Buffer

/-!
# A memory buffer is a byte queue

A buffer that owns its block holds the bytes below the offset.  Writes append to them,
whether the block grows or not; reads take from the front.  So the results are those of
a queue of bytes, for every order of the calls.

## Main definitions

* `QueueCall.next`, `QueueCall.result` — what a call does to a queue of bytes, and what it returns.
* `QueueCall.Fits` — the bytes stay below `2 ^ 30`.
* `Membuf.Holds` — a growable buffer with its bytes.

## Main results

* `Membuf.Holds.addlstring`, `Membuf.Holds.consume` — writes append, and reads take from
  the front.
* `membuf_is_byteQueue` — the results of all runs of calls.
-/

namespace LuaSys.Mem

open LuaSys.Lib

/-! ## The queue -/

/-- The calls on a queue; the blocks are those of the allocations, which succeed. -/
inductive QueueCall
  | write (args : List (List UInt8)) (blocks : ℕ → Lib.Mem)
  | writeln (args : List (List UInt8)) (blocks : ℕ → Lib.Mem)
  | reserve (len : ℤ) (block : Lib.Mem)
  | read (n : ℤ)
  | readLine
  | readAll

namespace QueueCall

/-- The call of the buffer. -/
def toOp : QueueCall → Membuf.MembufOp
  | .write args blocks => .write args fun i => some (blocks i)
  | .writeln args blocks => .writeln args fun i => some (blocks i)
  | .reserve len block => .reserve len (some block)
  | .read n => .read n
  | .readLine => .readLine
  | .readAll => .readAll

/-- The bytes that a call appends. -/
def given : QueueCall → List UInt8
  | .write args _ => args.flatten
  | .writeln args _ => args.flatten ++ [Membuf.newline]
  | .reserve _ _ => []
  | .read _ => []
  | .readLine => []
  | .readAll => []

/-- The bytes that a call takes from the front of a queue. -/
def taken (q : List UInt8) : QueueCall → List UInt8
  | .write _ _ => []
  | .writeln _ _ => []
  | .reserve _ _ => []
  | .read n => q.take n.toNat
  | .readLine =>
      match q.findIdx? (· == Membuf.newline) with
      | some l => q.take (l + 1)
      | none => q
  | .readAll => q

/-- What a call returns. -/
def result (q : List UInt8) : QueueCall → MemResult
  | .write _ _ => .pushTrue
  | .writeln _ _ => .pushTrue
  | .reserve _ _ => .self
  | .read n => Membuf.pushString (q.take n.toNat)
  | .readLine =>
      match q.findIdx? (· == Membuf.newline) with
      | some l => .string (q.take l)
      | none => Membuf.pushString q
  | .readAll => Membuf.pushString q

/-- The queue after a call. -/
def next (q : List UInt8) (c : QueueCall) : List UInt8 := q.drop (c.taken q).length ++ c.given

/-- The bytes stay below `2 ^ 30`, and the number of a read is not negative. -/
def Fits (q : List UInt8) : QueueCall → Prop
  | .write args _ => (q ++ args.flatten).length < 2 ^ 30
  | .writeln args _ => (q ++ (args.flatten ++ [Membuf.newline])).length < 2 ^ 30
  | .reserve len _ => 0 ≤ q.length + len ∧ q.length + len < 2 ^ 30
  | .read n => 0 ≤ n ∧ n < 2 ^ 63
  | .readLine => True
  | .readAll => True

/-- The calls one after another: the results and the queue. -/
def run (q : List UInt8) : List QueueCall → List MemResult × List UInt8
  | [] => ([], q)
  | c :: cs => (c.result q :: (run (c.next q) cs).1, (run (c.next q) cs).2)

/-- All calls of a run fit. -/
def RunFits (q : List UInt8) : List QueueCall → Prop
  | [] => True
  | c :: cs => c.Fits q ∧ RunFits (c.next q) cs

/-- The bytes given and taken by the calls of a run. -/
def runGiven : List QueueCall → List UInt8
  | [] => []
  | c :: cs => c.given ++ runGiven cs

def runTaken (q : List UInt8) : List QueueCall → List UInt8
  | [] => []
  | c :: cs => c.taken q ++ runTaken (c.next q) cs

theorem taken_prefix (q : List UInt8) (c : QueueCall) : c.taken q <+: q := by
  cases c with
  | write args blocks => exact List.nil_prefix
  | writeln args blocks => exact List.nil_prefix
  | reserve len block => exact List.nil_prefix
  | read n => exact List.take_prefix n.toNat q
  | readLine =>
      rw [taken]
      split
      · exact List.take_prefix _ q
      · exact List.prefix_rfl
  | readAll => exact List.prefix_rfl

/-- What a call takes away is what stood at the front. -/
theorem taken_append_next (q : List UInt8) (c : QueueCall) :
    c.taken q ++ c.next q = q ++ c.given := by
  obtain ⟨r, hr⟩ := c.taken_prefix q
  have hdrop : q.drop (c.taken q).length = r :=
    (congrArg (List.drop (c.taken q).length) hr.symm).trans List.drop_left
  rw [next, hdrop, ← List.append_assoc, hr]

/-- Nothing is lost, reordered or duplicated: the bytes taken by a run, followed by the
bytes left, are the bytes that were there, followed by the bytes given. -/
theorem runTaken_append_run (q : List UInt8) (cs : List QueueCall) :
    runTaken q cs ++ (run q cs).2 = q ++ runGiven cs := by
  induction cs generalizing q with
  | nil => simp [runTaken, run, runGiven]
  | cons c cs ih =>
      rw [runTaken, run, runGiven, List.append_assoc, ih, ← List.append_assoc, taken_append_next,
        List.append_assoc]

end QueueCall

namespace Membuf

/-! ## The bytes below the offset -/

section bytes
variable {mb : Membuf} {q : List UInt8} {l src n : ℕ}

/-- Bytes behind the first ones. -/
theorem readBytes_drop {m : Lib.Mem} (hbytes : Lib.readBytes m 0 q.length = q)
    (hn : l + n ≤ q.length) : Lib.readBytes m l n = (q.drop l).take n := by
  obtain ⟨r, hr⟩ := Nat.exists_eq_add_of_le hn
  rw [hr, readBytes_add, readBytes_add, Nat.zero_add, Nat.zero_add] at hbytes
  rw [← hbytes, List.append_assoc, List.drop_left' (length_readBytes _ _ _),
    List.take_left' (length_readBytes _ _ _)]

/-- The search looks at the bytes of the buffer. -/
theorem findNewline_eq (hbytes : Lib.readBytes mb.data 0 q.length = q) (hsize : q.length ≤ mb.size) :
    mb.findNewline q.length = some (q.findIdx? (· == newline)) := by
  rw [findNewline]
  by_cases hzero : q.length = 0
  · rw [if_pos hzero, List.length_eq_zero_iff.mp hzero]
    rfl
  · rw [if_neg hzero, Nat.min_eq_left hsize, hbytes]
    cases q.findIdx? (· == newline) with
    | some l => rfl
    | none => exact if_pos hsize

/-- What is taken, and what is left. -/
theorem consume_eq (hbytes : Lib.readBytes mb.data 0 q.length = q) (hsize : q.length ≤ mb.size)
    (hlt : q.length < 2 ^ 31) (hl : l ≤ src) (hn : src + n = q.length) :
    ∃ data, mb.consume l src n =
        some (q.take l, { mb with data := data, offset := (q.drop src).length }) ∧
      Lib.readBytes data 0 (q.drop src).length = q.drop src := by
  have hlen : (q.drop src).length = n := by
    rw [List.length_drop]
    omega
  have hfetch : mb.fetch l = some (q.take l) := by
    have htake := readBytes_drop hbytes (show 0 + l ≤ q.length by omega)
    rw [List.drop_zero] at htake
    rw [fetch, if_pos (by omega), htake]
  rw [Membuf.consume, hfetch]
  simp only [Option.bind_eq_bind, Option.bind_some]
  rw [int32_of_range (i := (n : ℤ)) (by omega) (by omega), hlen]
  by_cases hzero : n = 0
  · have hnil : q.drop src = [] := List.length_eq_zero_iff.mp (hlen.trans hzero)
    rw [if_pos hzero, hnil, hzero]
    exact ⟨mb.data, rfl, rfl⟩
  · have hmove : ({ mb with offset := n } : Membuf).moveDown src n = some
        { mb with offset := n, data := writeBytes mb.data 0 (Lib.readBytes mb.data src n) } :=
      if_pos (show src + n ≤ mb.size by omega)
    rw [if_neg hzero, hmove, Option.map_some]
    refine ⟨_, rfl, ?_⟩
    have hrest := readBytes_drop hbytes (show src + n ≤ q.length by omega)
    have hself := readBytes_writeBytes_self mb.data 0 (Lib.readBytes mb.data src n)
    rw [length_readBytes, hrest] at hself
    rw [hrest, hself]
    exact List.take_of_length_le (Nat.le_of_eq hlen)

end bytes

/-! ## The buffer -/

/-- A growable buffer of positive capacity, with the bytes below its offset. -/
structure Holds (mb : Membuf) (q : List UInt8) : Prop where
  alloc : mb.alloc = true
  pos : 0 < mb.len
  lt : mb.len < 2 ^ 31
  size : mb.size = mb.len
  offset : mb.offset = q.length
  le : mb.offset ≤ mb.len
  bytes : Lib.readBytes mb.data 0 q.length = q

section Holds

variable {mb : Membuf} {q s : List UInt8} {fuel : ℕ}

/-- Every growable buffer holds the bytes below its offset. -/
theorem holds_of_growable (halloc : mb.alloc = true) (hlen : 0 < mb.len ∧ mb.len < 2 ^ 31)
    (hsize : mb.size = mb.len) (hoffset : 0 ≤ mb.offset ∧ mb.offset ≤ mb.len) :
    mb.Holds (Lib.readBytes mb.data 0 mb.offset.toNat) :=
  ⟨halloc, hlen.1, hlen.2, hsize, by rw [length_readBytes]; omega, hoffset.2,
    by rw [length_readBytes]⟩

/-- Below `2 ^ 30` bytes there is room, and the bytes are still there. -/
theorem Holds.reserve (h : mb.Holds q) {size : ℕ} (hsize : q.length + size < 2 ^ 30)
    (hfuel : 31 ≤ fuel) (block : Lib.Mem) :
    ∃ mb', mb.reserve fuel size (some block) = some (true, mb') ∧ mb'.Holds q ∧
      q.length + size ≤ mb'.size := by
  obtain ⟨halloc, hpos, hlt, hsz, hoff, hle, hbytes⟩ := h
  have hnew : sizeT (mb.offset + size) = q.length + size := by
    simp only [sizeT]
    omega
  have hlen : sizeT mb.len = mb.size := by
    rw [← hsz]
    exact sizeT_natCast (by omega)
  by_cases hfull : q.length + size ≥ mb.size
  · have hpow : 2 ^ 31 ≤ mb.size * 2 ^ fuel := by
      calc 2 ^ 31 ≤ 2 ^ fuel := Nat.pow_le_pow_right (by omega) hfuel
        _ ≤ mb.size * 2 ^ fuel := Nat.le_mul_of_pos_left _ (by omega)
    obtain ⟨len', hlen'⟩ := doubleLen_isSome hfull (by omega) (show _ < _ * 2 ^ fuel by omega)
    have hspec := doubleLen_spec hfull (by omega) hlen'
    have hrun : mb.reserve fuel size (some block) = some (true, { mb with
        data := fun i => if i < mb.size then mb.data i else block i
        size := len'
        len := int32 len' }) := by
      rw [Membuf.reserve, hnew, hlen, if_pos hfull, hlen', Option.map_some, halloc]
    rw [int32_of_range (i := (len' : ℤ)) (by omega) (by omega)] at hrun
    refine ⟨_, hrun, ⟨halloc, ?_, ?_, rfl, hoff, ?_, ?_⟩, ?_⟩
    · dsimp only
      omega
    · dsimp only
      omega
    · dsimp only
      omega
    · conv_rhs => rw [← hbytes]
      exact readBytes_congr fun i _ hi => if_pos (show i < mb.size by omega)
    · dsimp only
      omega
  · refine ⟨mb, ?_, ⟨halloc, hpos, hlt, hsz, hoff, hle, hbytes⟩, by omega⟩
    rw [Membuf.reserve, hnew, hlen, if_neg hfull]

/-- A write appends, whether the block grows or not. -/
theorem Holds.addlstring (h : mb.Holds q) (hsize : (q ++ s).length < 2 ^ 30) (hfuel : 31 ≤ fuel)
    (block : Lib.Mem) :
    ∃ mb', mb.addlstring fuel s (some block) = some (true, mb') ∧ mb'.Holds (q ++ s) := by
  rw [List.length_append] at hsize
  obtain ⟨mb₁, hrun, h₁, hroom⟩ := h.reserve hsize hfuel block
  have hstore := store_eq h₁.offset hroom
  have hoff : int32 (mb₁.offset + int32 s.length) = (q ++ s).length := by
    rw [h₁.offset, List.length_append, int32_of_range (i := (s.length : ℤ)) (by omega) (by omega),
      int32_of_range (by omega) (by omega)]
    push_cast
    rfl
  refine ⟨{ mb₁ with data := writeBytes mb₁.data q.length s, offset := (q ++ s).length }, ?_,
    ⟨h₁.alloc, h₁.pos, h₁.lt, h₁.size, rfl, ?_, ?_⟩⟩
  · simp [Membuf.addlstring, hrun, putString, hstore, hoff]
  · have := h₁.size
    simp only [List.length_append]
    omega
  · rw [List.length_append, readBytes_add, Nat.zero_add, readBytes_writeBytes_self,
      readBytes_writeBytes_of_disjoint (by omega), h₁.bytes]

/-- All strings of a write are appended. -/
theorem Holds.writeArgs (h : mb.Holds q) {args : List (List UInt8)}
    (hsize : (q ++ args.flatten).length < 2 ^ 30) (hfuel : 31 ≤ fuel) (blocks : ℕ → Lib.Mem) :
    ∃ mb', mb.writeArgs fuel (fun i => some (blocks i)) args = some (true, mb') ∧
      mb'.Holds (q ++ args.flatten) := by
  induction args generalizing mb q blocks with
  | nil => exact ⟨mb, rfl, by simpa using h⟩
  | cons s args ih =>
      rw [List.flatten_cons, ← List.append_assoc] at hsize ⊢
      rw [Membuf.writeArgs]
      by_cases hs : s = []
      · subst hs
        rw [if_pos rfl, List.append_nil]
        exact ih h (by simpa using hsize) fun i => blocks (i + 1)
      · obtain ⟨mb₁, hrun, h₁⟩ := h.addlstring (s := s)
          (Nat.lt_of_le_of_lt (by simp) hsize) hfuel (blocks 0)
        obtain ⟨mb', hrest, h'⟩ := ih h₁ hsize fun i => blocks (i + 1)
        exact ⟨mb', by simp [hs, hrun, hrest], h'⟩

theorem Holds.sizeT_offset (h : mb.Holds q) : sizeT mb.offset = q.length := by
  have hle := h.le
  have hlt := h.lt
  rw [h.offset] at hle ⊢
  exact sizeT_natCast (by omega)

/-- A read takes from the front. -/
theorem Holds.consume (h : mb.Holds q) {l src n : ℕ} (hl : l ≤ src) (hn : src + n = q.length) :
    ∃ mb', mb.consume l src n = some (q.take l, mb') ∧ mb'.Holds (q.drop src) := by
  have hle := h.le
  have hsize := h.size
  have hlt := h.lt
  have hoff := h.offset
  obtain ⟨data, hrun, hdata⟩ := consume_eq h.bytes (by omega) (by omega) hl hn
  refine ⟨_, hrun, ⟨h.alloc, h.pos, hlt, hsize, rfl, ?_, hdata⟩⟩
  dsimp only
  rw [List.length_drop]
  omega

theorem pushString_take {l : ℕ} (hl : 0 < l) (hq : l ≤ q.length) :
    pushString (q.take l) = .string (q.take l) := by
  rw [pushString, if_neg]
  intro hnil
  have hlen := congrArg List.length hnil
  rw [List.length_take, List.length_nil] at hlen
  omega

/-- `read_bytes` takes the wanted bytes, or all of them. -/
theorem Holds.readBytes (h : mb.Holds q) (l : ℕ) :
    ∃ mb', mb.readBytes l = some (pushString (q.take l), mb') ∧ mb'.Holds (q.drop l) := by
  have hsize := h.size
  have hle := h.le
  have hlt := h.lt
  have hoff := h.sizeT_offset
  obtain ⟨k, hk⟩ : ∃ k, k = if l > q.length then q.length else l := ⟨_, rfl⟩
  have hkq : k ≤ q.length := by
    rw [hk]
    split <;> omega
  have htake : q.take l = q.take k := by
    rw [hk]
    split
    · rw [List.take_of_length_le (by omega), List.take_length]
    · rfl
  have hdrop : q.drop l = q.drop k := by
    rw [hk]
    split
    · rw [List.drop_of_length_le (by omega), List.drop_length]
    · rfl
  rw [htake, hdrop, Membuf.readBytes]
  simp only [hoff, ← hk]
  by_cases hzero : k = 0
  · exact ⟨mb, by simp [hzero, pushString], by simpa [hzero] using h⟩
  · have hrest : sizeT (int32 (mb.offset - int32 k)) = q.length - k := by
      have hoff' := h.offset
      clear hk htake hdrop
      rw [int32_of_range (i := (k : ℤ)) (by omega) (by omega), int32_of_range (by omega) (by omega)]
      simp only [sizeT]
      omega
    obtain ⟨mb', hrun, h'⟩ := h.consume (le_refl k) (show k + (q.length - k) = q.length by omega)
    rw [if_neg hzero, hrest, hrun, pushString_take (by omega) hkq]
    exact ⟨mb', rfl, h'⟩

/-- `read_line` takes the bytes up to the first newline, and the newline. -/
theorem Holds.readLine (h : mb.Holds q) :
    ∃ mb', mb.readLine = some (QueueCall.readLine.result q, mb') ∧
      mb'.Holds (QueueCall.readLine.next q) := by
  have hsize := h.size
  have hle := h.le
  have hlt := h.lt
  have hoff := h.sizeT_offset
  have hfind : mb.findNewline q.length = some (q.findIdx? (· == newline)) := by
    have := h.offset
    exact findNewline_eq h.bytes (by omega)
  simp only [Membuf.readLine, hoff, hfind, Option.bind_eq_bind, Option.bind_some, QueueCall.result,
    QueueCall.next, QueueCall.taken, QueueCall.given, List.append_nil]
  cases hnl : q.findIdx? (· == newline) with
  | some l =>
      have hl : l < q.length := (List.findIdx?_eq_some_iff_getElem.mp hnl).1
      have hrest : sizeT ((q.length : ℤ) - (l + 1)) = q.length - (l + 1) := by
        have := h.offset
        simp only [sizeT]
        omega
      obtain ⟨mb', hrun, h'⟩ :=
        h.consume (Nat.le_succ l) (show l + 1 + (q.length - (l + 1)) = q.length by omega)
      refine ⟨mb', ?_, ?_⟩
      · simp only [hrest, hrun, Option.map_some]
      · simpa only [List.length_take, Nat.min_eq_left (show l + 1 ≤ q.length from hl)] using h'
  | none =>
      have hfetch : mb.fetch q.length = some q := by
        have := h.offset
        rw [fetch, if_pos (by omega), h.bytes]
      refine ⟨{ mb with offset := 0 }, ?_, ⟨h.alloc, h.pos, hlt, hsize, ?_, Int.le_of_lt h.pos, ?_⟩⟩
      · simp only [hfetch, Option.map_some]
      · simp
      · simp

/-- **One call on the buffer is the call on the queue.** -/
theorem Holds.perform (h : mb.Holds q) {c : QueueCall} (hfits : c.Fits q) (hfuel : 31 ≤ fuel) :
    ∃ mb', mb.perform fuel c.toOp = some (c.result q, mb') ∧ mb'.Holds (c.next q) := by
  cases c with
  | write args blocks =>
      obtain ⟨mb', hrun, h'⟩ := h.writeArgs hfits hfuel blocks
      exact ⟨mb', by simp [QueueCall.toOp, Membuf.perform, Membuf.write, hrun, QueueCall.result], h'⟩
  | writeln args blocks =>
      have hflat : (args ++ [[newline]]).flatten = args.flatten ++ [newline] := by simp
      have hall : (q ++ (args ++ [[newline]]).flatten).length < 2 ^ 30 := by
        rw [hflat]
        exact hfits
      obtain ⟨mb', hrun, h'⟩ := h.writeArgs hall hfuel blocks
      rw [hflat] at h'
      exact ⟨mb', by simp [QueueCall.toOp, Membuf.perform, Membuf.writeln, Membuf.write, hrun,
        QueueCall.result], h'⟩
  | reserve len block =>
      have hroom : ∃ mb', mb.reserve fuel (sizeT (int32 len)) (some block) = some (true, mb') ∧
          mb'.Holds q := by
        have hoff := h.offset
        have hle := h.le
        have hlt := h.lt
        obtain ⟨hlow, hhigh⟩ := hfits
        rw [int32_of_range (by omega) (by omega)]
        by_cases hneg : 0 ≤ len
        · have hsize : sizeT len = len.toNat := by
            simp only [sizeT]
            omega
          obtain ⟨mb', hrun, h', -⟩ :=
            h.reserve (show q.length + len.toNat < 2 ^ 30 by omega) hfuel block
          exact ⟨mb', by rw [hsize, hrun], h'⟩
        · -- A negative number asks for fewer bytes than there are.
          have hnew : ¬sizeT (mb.offset + sizeT len) ≥ sizeT mb.len := by
            simp only [sizeT]
            omega
          exact ⟨mb, by rw [Membuf.reserve, if_neg hnew], h⟩
      obtain ⟨mb', hrun, h'⟩ := hroom
      refine ⟨mb', ?_, ?_⟩
      · rw [QueueCall.toOp, Membuf.perform, memReserve, hrun]
        rfl
      · simpa [QueueCall.next, QueueCall.taken, QueueCall.given] using h'
  | read n =>
      have hn : sizeT n = n.toNat := by
        have := hfits.1
        have := hfits.2
        simp only [sizeT]
        omega
      obtain ⟨mb', hrun, h'⟩ := h.readBytes n.toNat
      refine ⟨mb', ?_, ?_⟩
      · rw [QueueCall.toOp, Membuf.perform, hn, hrun]
        rfl
      · have hdrop : q.drop (q.take n.toNat).length = q.drop n.toNat := by
          rw [List.drop_eq_drop_iff, List.length_take]
          omega
        rw [QueueCall.next, QueueCall.taken, hdrop, QueueCall.given, List.append_nil]
        exact h'
  | readLine => exact h.readLine
  | readAll =>
      have hall : q.length ≤ sizeT (-1) := by
        have := h.offset
        have := h.le
        have := h.lt
        simp only [sizeT]
        omega
      obtain ⟨l, hl⟩ : ∃ l, l = sizeT (-1) := ⟨_, rfl⟩
      rw [← hl] at hall
      obtain ⟨mb', hrun, h'⟩ := h.readBytes l
      rw [List.take_of_length_le hall] at hrun
      rw [List.drop_of_length_le hall] at h'
      refine ⟨mb', ?_, ?_⟩
      · rw [QueueCall.toOp, Membuf.perform, ← hl, hrun]
        rfl
      · simpa [QueueCall.next, QueueCall.taken, QueueCall.given] using h'

/-- The calls one after another: the results and the buffer. -/
def performAll (fuel : ℕ) (mb : Membuf) : List MembufOp → Option (List MemResult × Membuf)
  | [] => some ([], mb)
  | op :: ops => do
      let (r, mb) ← mb.perform fuel op
      let (rs, mb) ← mb.performAll fuel ops
      some (r :: rs, mb)

theorem Holds.performAll (h : mb.Holds q) {cs : List QueueCall} (hfits : QueueCall.RunFits q cs)
    (hfuel : 31 ≤ fuel) :
    ∃ mb', mb.performAll fuel (cs.map QueueCall.toOp) = some ((QueueCall.run q cs).1, mb') ∧
      mb'.Holds (QueueCall.run q cs).2 := by
  induction cs generalizing mb q with
  | nil => exact ⟨mb, rfl, h⟩
  | cons c cs ih =>
      obtain ⟨mb₁, hrun, h₁⟩ := h.perform hfits.1 hfuel
      obtain ⟨mb', hrest, h'⟩ := ih h₁ hfits.2
      refine ⟨mb', ?_, h'⟩
      simp [Membuf.performAll, hrun, hrest, QueueCall.run]

end Holds

/-- **A memory buffer without streams is a byte queue.**  For every growable buffer of
positive capacity and every sequence of calls whose bytes stay below `2 ^ 30` and whose
allocations succeed, the results are those of a queue of bytes, and the buffer holds the
bytes of the queue.  The bytes taken, followed by the bytes left, are the bytes that were
there, followed by the bytes given. -/
theorem membuf_is_byteQueue {mb : Membuf} (halloc : mb.alloc = true)
    (hlen : 0 < mb.len ∧ mb.len < 2 ^ 31) (hsize : mb.size = mb.len)
    (hoffset : 0 ≤ mb.offset ∧ mb.offset ≤ mb.len) {q : List UInt8}
    (hq : q = Lib.readBytes mb.data 0 mb.offset.toNat) {cs : List QueueCall}
    (hfits : QueueCall.RunFits q cs) {fuel : ℕ} (hfuel : 31 ≤ fuel) :
    (∃ mb', mb.performAll fuel (cs.map QueueCall.toOp) = some ((QueueCall.run q cs).1, mb') ∧
        mb'.Holds (QueueCall.run q cs).2) ∧
      QueueCall.runTaken q cs ++ (QueueCall.run q cs).2 = q ++ QueueCall.runGiven cs := by
  subst hq
  exact ⟨(holds_of_growable halloc hlen hsize hoffset).performAll hfits hfuel,
    QueueCall.runTaken_append_run _ cs⟩

/-- A buffer of four bytes. -/
def fourBytes : Membuf where
  data _ := 0
  size := 4
  len := 4
  offset := 0
  alloc := true

/-- Two strings with a newline between them, a line, a longer string that makes the buffer
grow, and the rest. -/
def lineCalls : List QueueCall :=
  [.write [[97, 98], [10, 99]] fun _ _ => 0, .readLine, .writeln [[100, 101, 102, 103]] fun _ _ => 0,
    .read 2, .readAll]

theorem membuf_is_byteQueue_lineCalls : ∃ mb',
    fourBytes.performAll 31 (lineCalls.map QueueCall.toOp) = some
      ([.pushTrue, .string [97, 98], .pushTrue, .string [99, 100], .string [101, 102, 103, 10]],
        mb') := by
  have hfits : QueueCall.RunFits [] lineCalls := by
    have hlong : (4 : ℕ) < 2 ^ 30 := by decide
    have hline : (6 : ℕ) < 2 ^ 30 := by decide
    exact ⟨hlong, trivial, hline, ⟨by decide, by decide⟩, trivial, trivial⟩
  obtain ⟨⟨mb', hrun, -⟩, -⟩ := membuf_is_byteQueue (show fourBytes.alloc = true from rfl) (by decide) rfl (by decide)
    rfl hfits (le_refl 31)
  exact ⟨mb', hrun⟩

end Membuf

end LuaSys.Mem
