import LuaSys.Thread.Pipe
import Mathlib.Order.Basic

/-!
# The layout of a pipe buffer

`PipeBuf.Holds buf ms` says that the buffer stores the messages `ms`, oldest
first.  The indexes alone decide between the three layouts the code distinguishes:
an empty buffer, a straight one, and a wrapped one whose old part ends at a
sentinel.  A wrapped buffer may also be exactly full, with `begin = end ≠ 0`: a
reader still finds every message there, while a writer takes the buffer for a
straight one.  The lemmas about writing exclude that layout, and the lemma about
reading does not.

## Main definitions

* `Run data a b ms` — the messages `ms` lie one after another from `a` to `b`.
* `PipeBuf.Sized` — the block holds `len` bytes and one more size field.
* `PipeBuf.Holds` — the three layouts.
* `PipeBuf.ExactlyFull` — the layout that a writer misreads.
-/

namespace LuaSys.Thread

open LuaSys.Lib

/-! ## Runs of messages -/

/-- The messages `ms` lie one after another in the bytes from `a` to `b`. -/
def Run (data : Mem) : ℕ → ℕ → List Message → Prop
  | a, b, [] => a = b
  | a, b, m :: ms => readBytes data a m.size = m.bytes ∧ Run data (a + m.size) b ms

variable {data : Mem} {a b c : ℕ} {ms ns : List Message} {msg : Message}

@[simp] theorem run_nil : Run data a b [] ↔ a = b := Iff.rfl

@[simp] theorem run_cons :
    Run data a b (msg :: ms) ↔
      readBytes data a msg.size = msg.bytes ∧ Run data (a + msg.size) b ms := Iff.rfl

/-- Every message of a run takes at least its size field. -/
theorem Run.le (h : Run data a b ms) : a + 2 * ms.length ≤ b := by
  induction ms generalizing a with
  | nil => simpa using h.le
  | cons m ms ih =>
      have htail := ih h.2
      have hsize := m.two_le_size
      simp only [List.length_cons]
      omega

theorem Run.append (h₁ : Run data a b ms) (h₂ : Run data b c ns) : Run data a c (ms ++ ns) := by
  induction ms generalizing a with
  | nil =>
      cases h₁
      exact h₂
  | cons m ms ih => exact ⟨h₁.1, ih h₁.2⟩

/-- A write outside the run does not disturb it. -/
theorem Run.write {off : ℕ} {bs : List UInt8} (h : Run data a b ms)
    (hoff : off + bs.length ≤ a ∨ b ≤ off) : Run (writeBytes data off bs) a b ms := by
  induction ms generalizing a with
  | nil => exact h
  | cons m ms ih =>
      have hle := h.2.le
      refine ⟨?_, ih h.2 (by omega)⟩
      rw [readBytes_writeBytes_of_disjoint (by omega)]
      exact h.1

/-- Writing a message at the end of a run extends it. -/
theorem Run.write_end (h : Run data a b ms) (msg : Message) :
    Run (writeBytes data b msg.bytes) a (b + msg.size) (ms ++ [msg]) := by
  refine (h.write (Or.inr le_rfl)).append ?_
  refine ⟨?_, rfl⟩
  rw [← msg.length_bytes]
  exact readBytes_writeBytes_self data b msg.bytes

/-- The size field at the start of a run is the size of its first message. -/
theorem Run.load16_eq (h : Run data a b (msg :: ms)) : load16 data a = msg.size := by
  have hsize : msg.size = 2 + msg.items.length := rfl
  have hbytes := h.1
  rw [hsize, readBytes_add, Message.bytes] at hbytes
  have hfield : readBytes data a 2 = le16 msg.size := (List.append_inj hbytes (by simp)).1
  exact load16_of_readBytes hfield (by have := msg.size_le; omega)

/-- The size field of the sentinel. -/
theorem load16_write_zero (data : Mem) (off : ℕ) :
    load16 (writeBytes data off (le16 0)) off = 0 :=
  load16_of_readBytes (readBytes_writeBytes_self data off (le16 0)) (by decide)

theorem load16_write_of_disjoint {off off' : ℕ} {bs : List UInt8}
    (h : off' + 2 ≤ off ∨ off + bs.length ≤ off') :
    load16 (writeBytes data off bs) off' = load16 data off' := by
  rcases h with h | h
  · simp only [load16, writeBytes_of_lt (show off' < off by omega),
      writeBytes_of_lt (show off' + 1 < off by omega)]
  · simp only [load16, writeBytes_of_ge h,
      writeBytes_of_ge (show off + bs.length ≤ off' + 1 by omega)]

/-! ## Layouts -/

namespace PipeBuf

/-- The block has room for `len` bytes and one more size field, and `len` for more
than two messages of maximal size. -/
structure Sized (buf : PipeBuf) : Prop where
  size_eq : buf.size = buf.len + 2
  min_le : pipeBufMinSize ≤ buf.len + pipeBufExtraSize
  le_max : buf.len + pipeBufExtraSize ≤ pipeBufMaxSize

/-- The buffer stores the messages, oldest first. -/
inductive Holds (buf : PipeBuf) : List Message → Prop
  /-- No message. -/
  | empty (hb : buf.beginIdx = 0) (he : buf.endIdx = 0) : Holds buf []
  /-- One run between the indexes. -/
  | straight {ms : List Message} (hlt : buf.beginIdx < buf.endIdx) (hle : buf.endIdx ≤ buf.len)
      (hrun : Run buf.data buf.beginIdx buf.endIdx ms) : Holds buf ms
  /-- A run up to the sentinel at `s`, and one from the start of the block. -/
  | wrapped {ms ns : List Message} {s : ℕ} (hpos : 0 < buf.endIdx)
      (hle : buf.endIdx ≤ buf.beginIdx) (hs : buf.beginIdx ≤ s) (hlen : s ≤ buf.len)
      (hold : Run buf.data buf.beginIdx s ms) (hsent : load16 buf.data s = 0)
      (hnew : Run buf.data 0 buf.endIdx ns) : Holds buf (ms ++ ns)

/-- The new buffer has the dimensions and the successor of the old one. -/
structure SameFrame (buf old : PipeBuf) : Prop where
  len : buf.len = old.len
  size : buf.size = old.size
  nextBuf : buf.nextBuf = old.nextBuf

/-- The indexes have met in a buffer that is not empty. -/
def ExactlyFull (buf : PipeBuf) : Prop := buf.beginIdx = buf.endIdx ∧ buf.endIdx ≠ 0

instance (buf : PipeBuf) : Decidable buf.ExactlyFull :=
  inferInstanceAs (Decidable (buf.beginIdx = buf.endIdx ∧ buf.endIdx ≠ 0))

variable {buf buf' : PipeBuf}

theorem Holds.endIdx_le (h : Holds buf ms) : buf.endIdx ≤ buf.len := by
  cases h with
  | empty hb he => omega
  | straight hlt hle hrun => exact hle
  | wrapped hpos hle hs hlen hold hsent hnew => omega

/-- The messages of a buffer take at most its length. -/
theorem Holds.length_le (h : Holds buf ms) : 2 * ms.length ≤ buf.len := by
  cases h with
  | empty hb he => simp
  | straight hlt hle hrun =>
      have := hrun.le
      omega
  | wrapped hpos hle hs hlen hold hsent hnew =>
      have h₁ := hold.le
      have h₂ := hnew.le
      simp only [List.length_append]
      omega

/-- A buffer is empty exactly when both indexes are zero. -/
theorem Holds.eq_nil_iff (h : Holds buf ms) :
    ms = [] ↔ buf.beginIdx = 0 ∧ buf.endIdx = 0 := by
  cases h with
  | empty hb he => simp [hb, he]
  | straight hlt hle hrun =>
      refine ⟨fun hms => ?_, fun hz => by omega⟩
      rw [hms, run_nil] at hrun
      omega
  | wrapped hpos hle hs hlen hold hsent hnew =>
      refine ⟨fun hms => ?_, fun hz => by omega⟩
      rw [(List.append_eq_nil_iff.mp hms).2, run_nil] at hnew
      omega

/-- The layout does not depend on the place of the buffer in the ring. -/
theorem Holds.relink (h : Holds buf ms) (n : ℕ) : Holds { buf with nextBuf := n } ms := by
  cases h with
  | empty hb he => exact .empty hb he
  | straight hlt hle hrun => exact .straight hlt hle hrun
  | wrapped hpos hle hs hlen hold hsent hnew => exact .wrapped hpos hle hs hlen hold hsent hnew

theorem Sized.relink (h : Sized buf) (n : ℕ) : Sized { buf with nextBuf := n } :=
  ⟨h.size_eq, h.min_le, h.le_max⟩

/-- The room behind the end index, without the wrap-around of the subtraction. -/
theorem Holds.room_eq (h : Holds buf ms) (hok : buf.Sized) :
    buf.room = (if buf.wrapped then buf.beginIdx else buf.len) - buf.endIdx := by
  have hend := h.endIdx_le
  have hmax := hok.le_max
  simp only [pipeBufMaxSize] at hmax
  simp only [room]
  by_cases hw : buf.wrapped
  · rw [if_pos hw]
    have hw' : buf.endIdx < buf.beginIdx := hw
    refine u32sub_of_le hw'.le ?_
    cases h with
    | empty hb he => omega
    | straight hlt hle hrun => omega
    | wrapped hpos hle hs hlen hold hsent hnew => omega
  · rw [if_neg hw]
    exact u32sub_of_le hend (by omega)

/-! ## Writing -/

theorem append_eq_some {msg : Message} (h : buf.endIdx + msg.size ≤ buf.size) :
    buf.append msg = some
      { buf with
        data := writeBytes buf.data buf.endIdx msg.bytes
        endIdx := u32 (buf.endIdx + msg.size) } := by
  simp [append, store, h]

/-- A message that fits behind the end index is appended, unless the buffer is
exactly full. -/
theorem Holds.append_of_room (h : Holds buf ms) (hok : buf.Sized) (hnf : ¬buf.ExactlyFull)
    (hfit : msg.size ≤ buf.room) :
    ∃ buf', buf.append msg = some buf' ∧ Holds buf' (ms ++ [msg]) ∧
      SameFrame buf' buf := by
  have hroom := h.room_eq hok
  have hend := h.endIdx_le
  have hmax := hok.le_max
  have hsize := hok.size_eq
  have hpos := msg.two_le_size
  simp only [pipeBufMaxSize] at hmax
  have hbound : buf.endIdx + msg.size ≤ buf.len := by
    by_cases hw : buf.wrapped
    · rw [if_pos hw] at hroom
      cases h with
      | empty hb he => omega
      | straight hlt hle hrun => omega
      | wrapped hpos' hle hs hlen hold hsent hnew => omega
    · rw [if_neg hw] at hroom
      omega
  have hu : u32 (buf.endIdx + msg.size) = buf.endIdx + msg.size := u32_of_lt (by omega)
  refine ⟨_, append_eq_some (by omega), ?_, rfl, rfl, rfl⟩
  rw [hu]
  cases h with
  | empty hb he =>
      have hrun : Run buf.data 0 0 [] := rfl
      refine Holds.straight ?_ ?_ ?_
      · simp only [hb, he]; omega
      · simpa only [he] using hbound
      · simpa only [hb, he] using hrun.write_end msg
  | straight hlt hle hrun =>
      exact Holds.straight (by simp only; omega) hbound (hrun.write_end msg)
  | wrapped hpos' hle hs hlen hold hsent hnew =>
      have hne : buf.endIdx < buf.beginIdx := by
        refine lt_of_le_of_ne hle fun heq => hnf ⟨heq.symm, ?_⟩
        omega
      have hgap : buf.endIdx + msg.size ≤ buf.beginIdx := by
        rw [if_pos (show buf.wrapped from hne)] at hroom
        omega
      rw [List.append_assoc]
      refine Holds.wrapped ?_ hgap hs hlen (hold.write ?_) ?_ (hnew.write_end msg)
      · simp only; omega
      · left; simpa using hgap
      · rw [load16_write_of_disjoint (by right; simp only [Message.length_bytes]; omega)]
        exact hsent

/-- A straight buffer whose start is free wraps around a sentinel. -/
theorem Holds.wrap_append (h : Holds buf ms) (hok : buf.Sized) (hnf : ¬buf.ExactlyFull)
    (hw : ¬buf.wrapped) (hfit : msg.size < buf.beginIdx) :
    ∃ buf₁ buf', buf.wrap = some buf₁ ∧ buf₁.append msg = some buf' ∧
      Holds buf' (ms ++ [msg]) ∧
      SameFrame buf' buf := by
  have hend := h.endIdx_le
  have hsize := hok.size_eq
  have hmax := hok.le_max
  have hpos := msg.two_le_size
  simp only [pipeBufMaxSize] at hmax
  have hw' : buf.beginIdx ≤ buf.endIdx := not_lt.mp hw
  have hlt : buf.beginIdx < buf.endIdx :=
    lt_of_le_of_ne hw' fun heq => hnf ⟨heq, by omega⟩
  have hrun : Run buf.data buf.beginIdx buf.endIdx ms := by
    cases h with
    | empty hb he => omega
    | straight _ _ hrun => exact hrun
    | wrapped hpos' hle hs hlen hold hsent hnew => omega
  have hwrap : buf.wrap = some
      { buf with data := writeBytes buf.data buf.endIdx (le16 0), endIdx := 0 } := by
    simp [wrap, store, show buf.endIdx + 2 ≤ buf.size by omega]
  refine ⟨_, _, hwrap, append_eq_some (by simp only; omega), ?_, rfl, rfl, rfl⟩
  have hu : u32 (0 + msg.size) = msg.size := by
    rw [Nat.zero_add]
    exact u32_of_lt (by have := msg.size_le; omega)
  have hnil : Run (writeBytes buf.data buf.endIdx (le16 0)) 0 0 [] := rfl
  have hsent : Run (writeBytes buf.data buf.endIdx (le16 0)) buf.beginIdx buf.endIdx ms :=
    hrun.write (Or.inr le_rfl)
  have hold : Run (writeBytes (writeBytes buf.data buf.endIdx (le16 0)) 0 msg.bytes)
      buf.beginIdx buf.endIdx ms :=
    hsent.write (Or.inl (by simp only [Message.length_bytes]; omega))
  refine Holds.wrapped (s := buf.endIdx) ?_ ?_ hlt.le hend hold ?_ ?_
  · simp only [hu]; omega
  · simp only [hu]; omega
  · rw [load16_write_of_disjoint (by right; simp only [Message.length_bytes]; omega)]
    exact load16_write_zero _ _
  · simp only [hu]
    simpa using hnil.write_end msg

/-- Any message fits into an empty buffer. -/
theorem append_of_empty (hok : buf.Sized) (hb : buf.beginIdx = 0) (he : buf.endIdx = 0)
    (msg : Message) :
    ∃ buf', buf.append msg = some buf' ∧ Holds buf' [msg] ∧
      SameFrame buf' buf := by
  have hempty : Holds buf [] := Holds.empty hb he
  have hroom : buf.room = buf.len := by
    rw [hempty.room_eq hok, if_neg (by simp [wrapped, hb]), he, Nat.sub_zero]
  refine hempty.append_of_room hok (by simp [ExactlyFull, he]) ?_
  have hmin := hok.min_le
  have hmsg := msg.size_le
  simp only [pipeBufMinSize, pipeBufExtraSize, pipeBufHeader, msgMaxSize] at hmin
  omega

/-! ## Reading -/

/-- `take` at the offset `off` of a message that lies in the block. -/
theorem take_eq_some {off : ℕ} (hfront : buf.front = some off)
    (hrun : Run buf.data off b (msg :: ms)) (hb : b ≤ buf.len) (hok : buf.Sized) :
    buf.take =
      if off + msg.size = buf.endIdx then
        some (msg.bytes, { buf with beginIdx := 0, endIdx := 0 }, true)
      else if off + msg.size = buf.len then
        some (msg.bytes, { buf with beginIdx := 0 }, false)
      else some (msg.bytes, { buf with beginIdx := off + msg.size }, false) := by
  have hle := hrun.2.le
  have hmsg := msg.size_le
  have hsize := hok.size_eq
  have hmax := hok.le_max
  simp only [pipeBufMaxSize] at hmax
  have hload : buf.loadSize off = some msg.size := by
    rw [loadSize, if_pos (by have := msg.two_le_size; omega), hrun.load16_eq]
  have hbytes : buf.load off msg.size = some msg.bytes := by
    rw [load, if_pos (by omega), hrun.1]
  have hu : u32 (off + msg.size) = off + msg.size := u32_of_lt (by omega)
  simp only [take, hfront, hload, hbytes, hu, Option.bind_eq_bind, Option.bind_some, msgMaxSize]
  rw [if_neg (by omega)]

/-- Reading the first message of one run up to the end index. -/
theorem take_of_run {off : ℕ} (hfront : buf.front = some off)
    (hrun : Run buf.data off buf.endIdx (msg :: ms)) (hle : buf.endIdx ≤ buf.len)
    (hok : buf.Sized) :
    ∃ buf', buf.take = some (msg.bytes, buf', ms.isEmpty) ∧ Holds buf' ms ∧
      SameFrame buf' buf := by
  have hpos := msg.two_le_size
  have htail := hrun.2.le
  rw [take_eq_some hfront hrun hle hok]
  by_cases heq : off + msg.size = buf.endIdx
  · have hms : ms = [] := List.length_eq_zero_iff.mp (by omega)
    subst hms
    rw [if_pos heq]
    exact ⟨_, rfl, Holds.empty rfl rfl, rfl, rfl, rfl⟩
  · have hms : ms ≠ [] := by
      intro hms
      rw [hms] at hrun
      exact heq hrun.2
    rw [if_neg heq, if_neg (by omega), show ms.isEmpty = false by simpa using hms]
    exact ⟨_, rfl, Holds.straight (by simp only; omega) hle hrun.2, rfl, rfl, rfl⟩

/-- Reading returns the oldest message, also from an exactly full buffer. -/
theorem Holds.take (h : Holds buf (msg :: ms)) (hok : buf.Sized) :
    ∃ buf', buf.take = some (msg.bytes, buf', ms.isEmpty) ∧ Holds buf' ms ∧
      SameFrame buf' buf := by
  have hsize := hok.size_eq
  have hpos := msg.two_le_size
  generalize hq : msg :: ms = q at h
  cases h with
  | empty hb he => exact absurd hq (by simp)
  | straight hlt hle hrun =>
      subst hq
      have hfront : buf.front = some buf.beginIdx := by
        rw [front, loadSize, if_pos (by omega), hrun.load16_eq, Option.map_some, if_neg (by omega)]
      exact take_of_run hfront hrun hle hok
  | @wrapped old new s hpos' hle hs hlen hold hsent hnew =>
      have hnewne : new ≠ [] := by
        intro hnil
        rw [hnil, run_nil] at hnew
        omega
      cases old with
      | nil =>
          -- The begin index stands on the sentinel.
          obtain rfl : buf.beginIdx = s := hold
          rw [List.nil_append] at hq
          subst hq
          have hfront : buf.front = some 0 := by
            rw [front, loadSize, if_pos (by omega), hsent, Option.map_some, if_pos rfl]
          exact take_of_run hfront hnew (by omega) hok
      | cons m old =>
          rw [List.cons_append, List.cons.injEq] at hq
          obtain ⟨rfl, rfl⟩ := hq
          have htail := hold.2.le
          have hfront : buf.front = some buf.beginIdx := by
            rw [front, loadSize, if_pos (by omega), hold.load16_eq, Option.map_some,
              if_neg (by omega)]
          rw [take_eq_some hfront hold hlen hok, if_neg (by omega),
            show (old ++ new).isEmpty = false by simp [hnewne]]
          by_cases heq : buf.beginIdx + msg.size = buf.len
          · have hold' : old = [] := List.length_eq_zero_iff.mp (by omega)
            subst hold'
            rw [if_pos heq]
            exact ⟨_, rfl, Holds.straight hpos' (by simp only; omega) hnew, rfl, rfl, rfl⟩
          · rw [if_neg heq]
            refine ⟨_, rfl, Holds.wrapped hpos' ?_ ?_ hlen hold.2 hsent hnew, rfl, rfl, rfl⟩
            · simp only; omega
            · simp only; omega

end PipeBuf

end LuaSys.Thread
