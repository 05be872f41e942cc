import LuaSys.Event.Loop
import LuaSys.Lib.HighBit
import LuaSys.Lib.Memory
import LuaSys.Lib.Run
import Mathlib.Tactic.Linarith

/-!
# The ids of the events

The model of `levq_new_event`, `getmaxbit` and the lookup of `levq_done` in `sys_evq.c`.  The
slots of an event queue lie in buffers of 64, 128, 256 events and so on.  A slot that is taken
from a buffer gets the next id, and `levq_done` finds its buffer and its place again from
the id alone.

The memory of a slot is a block of bytes.  A slot that has been given out may be written as an
event, as a timeout queue or as a synchronous operation; the layout says that none of them
reaches the field `ev_id`.  When it comes back from the free list, the id is read from the
slot, which is then cleared.

## Main definitions

* `getmaxbit` — the binary logarithm.
* `EventBuffers`, `EventBuffers.fresh` — the part of `levq_new_event` for an empty free list.
* `findEvent` — the computation of `levq_done`.
* `EventLayout`, `EventMemory` — the bytes of the slots.
* `SlotOp`, `EventMemory.step` — what happens to the slots.

## Main results

* `getmaxbit_eq` — the logarithm of all the values of 32 bits.
* `EventBuffers.Counted.fresh` — the ids are consecutive, up to the limit.
* `findEvent_id` — the buffer and the place come back.
* `eventIds_unique` — all of this in every run.
-/

namespace LuaSys.Event

open LuaSys.Lib

/-! ## The binary logarithm -/

/-- `bit_position`. -/
def bitPosition : List ℕ :=
  [0, 9, 1, 10, 13, 21, 2, 29, 11, 14, 16, 18, 22, 25, 3, 30,
   8, 12, 20, 28, 15, 17, 24, 7, 19, 27, 23, 6, 26, 5, 4, 31]

/-- `getmaxbit`, for an `unsigned int`. -/
def getmaxbit (v : ℕ) : ℕ :=
  let v := v ||| v >>> 1
  let v := v ||| v >>> 2
  let v := v ||| v >>> 4
  let v := v ||| v >>> 8
  let v := v ||| v >>> 16
  bitPosition.getD (u32 (v * 0x07C4ACDD) >>> 27) 0

/-! ## The buffers -/

/-- `EVQ_ENV_BUF_IDX` and `EVQ_ENV_BUF_MAX`. -/
def envBufIdx : ℕ := 6
def envBufMax : ℕ := 24

/-- A place in a buffer of `2 ^ buf` events. -/
structure EventSlot where
  buf : ℕ
  pos : ℕ
  deriving DecidableEq, Repr

/-- `buf_nevents` and `buf_index`, and the keys of the environment that hold a buffer. -/
structure EventBuffers where
  bufNevents : ℕ
  bufIndex : ℕ
  env : ℕ → Bool

/-- `(nmax - 1) & ~((1 << EVQ_ENV_BUF_IDX) - 1)`, for values of 32 bits. -/
def bufBase (nmax : ℕ) : ℕ := (nmax - 1) &&& (2 ^ 32 - 1 - (2 ^ envBufIdx - 1))

namespace EventBuffers

/-- The state of a new queue. -/
def init : EventBuffers := ⟨0, 0, fun _ => false⟩

/-- `levq_new_event` with an empty free list: the slot and its id.  `none` is the error "too
many events", or the one of an allocation that fails; both leave the queue as it was. -/
def fresh (s : EventBuffers) (alloc : Bool) : Option (EventSlot × ℕ × EventBuffers) :=
  let n := s.bufNevents
  let bufIdx := s.bufIndex + envBufIdx
  let nmax := 2 ^ bufIdx
  let key := bufIdx - envBufIdx + 1
  if s.env key then
    some (⟨bufIdx, n⟩, n + bufBase nmax,
      if nmax ≤ n + 1 then { s with bufNevents := 0, bufIndex := s.bufIndex + 1 }
      else { s with bufNevents := n + 1 })
  else if envBufMax < bufIdx then none
  else if alloc then
    some (⟨bufIdx, 0⟩, n + bufBase nmax,
      { s with bufNevents := 1, env := Function.update s.env key true })
  else none

end EventBuffers

/-- The buffer and the place that `levq_done` computes from an id. -/
def findEvent (evId : ℕ) : ℕ × ℤ :=
  let bufIdx := getmaxbit ((evId ||| (2 ^ envBufIdx - 1)) + 1)
  (bufIdx, (evId : ℤ) - bufBase (2 ^ bufIdx))

/-! ## The memory of the slots -/

/-- The layouts of `struct event`, `struct timeout_queue` and `struct evq_sync_op`: the field
`ev_id` lies in the first one, and behind the other two. -/
structure EventLayout where
  size : ℕ
  idOffset : ℕ
  tqSize : ℕ
  opSize : ℕ
  id_le : idOffset + 4 ≤ size
  tq_le : tqSize ≤ idOffset
  op_le : opSize ≤ idOffset

/-- The bytes of an `int`. -/
def le32 (n : ℕ) : List UInt8 := (List.range 4).map fun i => UInt8.ofNat (n / 256 ^ i % 256)

/-- The buffers with the bytes of their slots and, as a ghost, the slots given out from them
with their ids. -/
structure EventMemory where
  buffers : EventBuffers
  mem : EventSlot → Mem
  given : List (EventSlot × ℕ)

/-- What happens to a slot. -/
inductive SlotOp
  /-- A slot is taken from a buffer; `junk` is the memory of a new one. -/
  | fresh (alloc : Bool) (junk : Mem)
  /-- A slot is taken from the free list. -/
  | recycle (slot : EventSlot)
  /-- Some other fields of an event are written. -/
  | writeEvent (slot : EventSlot) (off : ℕ) (bs : List UInt8)
  /-- A slot is written as a timeout queue. -/
  | writeTimeoutQueue (slot : EventSlot) (off : ℕ) (bs : List UInt8)
  /-- A slot is written as a synchronous operation. -/
  | writeSyncOp (slot : EventSlot) (off : ℕ) (bs : List UInt8)

namespace EventMemory

/-- The state of a new queue. -/
def init (mem : EventSlot → Mem) : EventMemory := ⟨EventBuffers.init, mem, []⟩

/-- `memset(ev, 0, sizeof(struct event))` and `ev->ev_id = ev_id`. -/
def initEvent (layout : EventLayout) (m : Mem) (evId : List UInt8) : Mem :=
  writeBytes (writeBytes m 0 (List.replicate layout.size 0)) layout.idOffset evId

/-- Bytes of a slot that is in use are written. -/
def write (s : EventMemory) (slot : EventSlot) (off : ℕ) (bs : List UInt8) : EventMemory :=
  { s with mem := Function.update s.mem slot (writeBytes (s.mem slot) off bs) }

/-- One step.  A slot has been given out before it is written or comes from the free list. -/
def step (layout : EventLayout) (s : EventMemory) : SlotOp → Option EventMemory
  | .fresh alloc junk =>
      (s.buffers.fresh alloc).map fun r =>
        { buffers := r.2.2
          mem := Function.update s.mem r.1 (initEvent layout junk (le32 r.2.1))
          given := (r.1, r.2.1) :: s.given }
  | .recycle slot =>
      if slot ∈ s.given.map Prod.fst then
        let evId := readBytes (s.mem slot) layout.idOffset 4
        some { s with mem := Function.update s.mem slot (initEvent layout (s.mem slot) evId) }
      else none
  | .writeEvent slot off bs =>
      if slot ∈ s.given.map Prod.fst ∧
          (off + bs.length ≤ layout.idOffset ∨ layout.idOffset + 4 ≤ off) then
        some (s.write slot off bs)
      else none
  | .writeTimeoutQueue slot off bs =>
      if slot ∈ s.given.map Prod.fst ∧ off + bs.length ≤ layout.tqSize then
        some (s.write slot off bs)
      else none
  | .writeSyncOp slot off bs =>
      if slot ∈ s.given.map Prod.fst ∧ off + bs.length ≤ layout.opSize then
        some (s.write slot off bs)
      else none

end EventMemory

/-! ## The logarithm -/

/-- The table with its multiplier, for the values with all places filled. -/
theorem bitPosition_spec : ∀ k < 32,
    bitPosition.getD (u32 ((2 ^ (k + 1) - 1) * 0x07C4ACDD) >>> 27) 0 = k := by
  decide

/-- **The binary logarithm** of every value of 32 bits but zero. -/
theorem getmaxbit_eq {v : ℕ} (hv : v ≠ 0) (hlt : v < 2 ^ 32) : getmaxbit v = v.log2 := by
  have hlog : v.log2 < 32 := (Nat.log2_lt hv).mpr hlt
  have h₁ : Spread v 1 _ := (spread_zero v).step
  have h₃ : Spread v 3 _ := h₁.step
  have h₇ : Spread v 7 _ := h₃.step
  have h₁₅ : Spread v 15 _ := h₇.step
  have h₃₁ : Spread v 31 _ := h₁₅.step
  have hfilled := h₃₁.eq_two_pow hv (by omega)
  have hspec := bitPosition_spec v.log2 hlog
  rw [← hfilled] at hspec
  exact hspec

/-! ## The buffers -/

theorem bufBase_eq {b : ℕ} (hle : envBufIdx ≤ b) (hlt : b ≤ 25) : bufBase (2 ^ b) = 2 ^ b - 64 := by
  have hall : ∀ b < 26, envBufIdx ≤ b → bufBase (2 ^ b) = 2 ^ b - 64 := by decide
  exact hall b (Nat.lt_succ_of_le hlt) hle

/-- The slot with an id: the buffers in front of its own hold `2 ^ buf - 64` events. -/
structure EventSlot.HasId (slot : EventSlot) (evId : ℕ) : Prop where
  buf_ge : envBufIdx ≤ slot.buf
  buf_le : slot.buf ≤ envBufMax
  inside : slot.pos < 2 ^ slot.buf
  id_eq : evId + 64 = slot.pos + 2 ^ slot.buf

/-- **The lookup.**  The buffer and the place of an id. -/
theorem findEvent_id {slot : EventSlot} {evId : ℕ} (h : slot.HasId evId) :
    findEvent evId = (slot.buf, (slot.pos : ℤ)) := by
  obtain ⟨m, hm⟩ := Nat.exists_eq_add_of_le h.buf_ge
  have hin := h.inside
  have hid := h.id_eq
  have hle : slot.buf ≤ 24 := h.buf_le
  have hpow : 2 ^ slot.buf = 64 * 2 ^ m := by rw [hm, Nat.pow_add]; rfl
  have hmpos : 0 < 2 ^ m := Nat.two_pow_pos m
  have hbig : 2 ^ slot.buf ≤ 2 ^ 24 := Nat.pow_le_pow_right (by decide) hle
  have hmask : (evId ||| (2 ^ envBufIdx - 1)) + 1 = 64 * (evId / 64 + 1) := by
    rw [or_mask]
    simp only [envBufIdx]
    omega
  have hrange : 2 ^ slot.buf ≤ 64 * (evId / 64 + 1) ∧ 64 * (evId / 64 + 1) < 2 ^ (slot.buf + 1) := by
    rw [Nat.pow_succ, hpow]
    rw [hpow] at hin hid
    omega
  have hbuf : getmaxbit ((evId ||| (2 ^ envBufIdx - 1)) + 1) = slot.buf := by
    rw [hmask, getmaxbit_eq (by omega) (by omega)]
    exact (Nat.log2_eq_iff (by omega)).mpr hrange
  have hbase : bufBase (2 ^ slot.buf) = 2 ^ slot.buf - 64 :=
    bufBase_eq h.buf_ge (hle.trans (by decide))
  have hpos : (evId : ℤ) - (2 ^ slot.buf - 64 : ℕ) = slot.pos := by omega
  rw [findEvent, hbuf, hbase, hpos]

/-- A slot has one id, and an id has one slot. -/
theorem EventSlot.HasId.eq_iff {slot slot' : EventSlot} {evId evId' : ℕ} (h : slot.HasId evId)
    (h' : slot'.HasId evId') : slot = slot' ↔ evId = evId' := by
  constructor
  · rintro rfl
    have heq := h.id_eq
    have heq' := h'.id_eq
    omega
  · rintro rfl
    have hfind := findEvent_id h
    rw [findEvent_id h', Prod.mk.injEq, Int.natCast_inj] at hfind
    obtain ⟨buf, pos⟩ := slot
    obtain ⟨buf', pos'⟩ := slot'
    obtain ⟨rfl, rfl⟩ := hfind
    rfl

namespace EventBuffers

/-- The state after `k` slots: how far the current buffer is used, and which buffers exist. -/
structure Counted (s : EventBuffers) (k : ℕ) : Prop where
  index_le : s.bufIndex + envBufIdx ≤ envBufMax + 1
  nevents_lt : s.bufNevents < 2 ^ (s.bufIndex + envBufIdx)
  count : k + 64 = s.bufNevents + 2 ^ (s.bufIndex + envBufIdx)
  count_le : k ≤ maxSlots
  env_iff : ∀ i, s.env i = true ↔
    1 ≤ i ∧ (i ≤ s.bufIndex ∨ i = s.bufIndex + 1 ∧ s.bufNevents ≠ 0)

theorem counted_init : Counted init 0 := by
  refine ⟨by decide, by decide, by decide, by decide, fun i => ?_⟩
  simp only [init, Bool.false_eq_true, false_iff]
  omega

/-- Behind the last buffer nothing is used. -/
theorem Counted.bufNevents_eq_zero {s : EventBuffers} {k : ℕ} (h : Counted s k)
    (hlast : s.bufIndex + envBufIdx = envBufMax + 1) : s.bufNevents = 0 := by
  have hcount := h.count
  have hle := h.count_le
  rw [hlast] at hcount
  simp only [envBufMax, maxSlots] at hcount hle
  omega

/-- In front of that there is room. -/
theorem Counted.lt_maxSlots {s : EventBuffers} {k : ℕ} (h : Counted s k)
    (hle : s.bufIndex + envBufIdx ≤ envBufMax) : k < maxSlots := by
  have hlt := h.nevents_lt
  have hcount := h.count
  have hpow : 2 ^ (s.bufIndex + envBufIdx) ≤ 2 ^ envBufMax :=
    Nat.pow_le_pow_right Nat.two_pos hle
  simp only [envBufMax, maxSlots] at hpow ⊢
  omega

theorem Counted.env_next_iff {s : EventBuffers} {k : ℕ} (h : Counted s k) :
    s.env (s.bufIndex + envBufIdx - envBufIdx + 1) = true ↔ s.bufNevents ≠ 0 := by
  rw [Nat.add_sub_cancel, h.env_iff]
  omega

/-- **The next slot** has the next id. -/
theorem Counted.fresh {s s' : EventBuffers} {k evId : ℕ} {slot : EventSlot} {alloc : Bool}
    (h : Counted s k) (hrun : s.fresh alloc = some (slot, evId, s')) :
    evId = k ∧ slot.HasId k ∧ Counted s' (k + 1) ∧
      s'.env (slot.buf - envBufIdx + 1) = true ∧ ∀ i, s.env i = true → s'.env i = true := by
  have hindex := h.index_le
  have hlt := h.nevents_lt
  have hcount := h.count
  have henv := h.env_next_iff
  have hge : 64 ≤ 2 ^ (s.bufIndex + envBufIdx) := Nat.pow_le_pow_right Nat.two_pos (Nat.le_add_left 6 _)
  have hbase : bufBase (2 ^ (s.bufIndex + envBufIdx)) = 2 ^ (s.bufIndex + envBufIdx) - 64 :=
    bufBase_eq (Nat.le_add_left _ _) hindex
  have hnext : 2 ^ (s.bufIndex + 1 + envBufIdx) = 2 * 2 ^ (s.bufIndex + envBufIdx) := by
    rw [Nat.add_right_comm, Nat.pow_succ, Nat.mul_comm]
  unfold EventBuffers.fresh at hrun
  dsimp only at hrun
  by_cases hused : s.bufNevents = 0
  · rw [if_neg (henv.not.mpr (not_not_intro hused))] at hrun
    by_cases hfull : envBufMax < s.bufIndex + envBufIdx
    · rw [if_pos hfull] at hrun
      exact absurd hrun (by simp)
    · rw [if_neg hfull] at hrun
      obtain ⟨-, heq⟩ := Option.ite_none_right_eq_some.mp hrun
      obtain ⟨rfl, hid, rfl⟩ : _ ∧ _ ∧ _ := by simpa using heq
      have hle : s.bufIndex + envBufIdx ≤ envBufMax := Nat.le_of_not_lt hfull
      have hroom := h.lt_maxSlots hle
      refine ⟨by omega, ⟨Nat.le_add_left _ _, hle, Nat.two_pow_pos _, by dsimp only; omega⟩,
        ⟨hindex, by dsimp only; omega, by dsimp only; omega, hroom, fun i => ?_⟩, ?_, fun i hi => ?_⟩
      · dsimp only
        by_cases hi : i = s.bufIndex + 1
        · rw [hi, Function.update_self]
          simp
        · rw [Function.update_of_ne hi, h.env_iff]
          omega
      · rw [Nat.add_sub_cancel]
        exact Function.update_self ..
      · by_cases hkey : i = s.bufIndex + 1
        · rw [hkey]
          exact Function.update_self ..
        · exact (Function.update_of_ne hkey _ _).trans hi
  · rw [if_pos (henv.mpr hused), Option.some.injEq, Prod.mk.injEq, Prod.mk.injEq] at hrun
    obtain ⟨rfl, hid, hs'⟩ := hrun
    have hle : s.bufIndex + envBufIdx ≤ envBufMax := by
      by_contra hgt
      exact hused (h.bufNevents_eq_zero (by omega))
    have hroom := h.lt_maxSlots hle
    refine ⟨by omega, ⟨Nat.le_add_left _ _, hle, hlt, by dsimp only; omega⟩, ?_⟩
    by_cases hfull : 2 ^ (s.bufIndex + envBufIdx) ≤ s.bufNevents + 1
    · rw [if_pos hfull] at hs'
      subst hs'
      refine ⟨⟨by dsimp only; omega, Nat.two_pow_pos _, by dsimp only; omega, hroom, fun i => ?_⟩,
        henv.mpr hused, fun _ hi => hi⟩
      rw [h.env_iff]
      dsimp only
      omega
    · rw [if_neg hfull] at hs'
      subst hs'
      refine ⟨⟨hindex, Nat.lt_of_not_le hfull, by dsimp only; omega, hroom, fun i => ?_⟩,
        henv.mpr hused, fun _ hi => hi⟩
      rw [h.env_iff]
      dsimp only
      omega

/-- There is a next slot up to the limit. -/
theorem Counted.fresh_isSome_iff {s : EventBuffers} {k : ℕ} (h : Counted s k) :
    (s.fresh true).isSome = true ↔ k < maxSlots := by
  have henv := h.env_next_iff
  unfold EventBuffers.fresh
  dsimp only
  by_cases hfull : envBufMax < s.bufIndex + envBufIdx
  · have hlast : s.bufIndex + envBufIdx = envBufMax + 1 := Nat.le_antisymm h.index_le hfull
    have hzero := h.bufNevents_eq_zero hlast
    have hcount := h.count
    rw [if_neg (henv.not.mpr (not_not_intro hzero)), if_pos hfull]
    refine iff_of_false (by simp) ?_
    rw [hzero, hlast] at hcount
    simp only [envBufMax, maxSlots] at hcount ⊢
    omega
  · rw [if_neg hfull, if_pos rfl]
    refine iff_of_true ?_ (h.lt_maxSlots (Nat.le_of_not_lt hfull))
    split <;> rfl

end EventBuffers

/-- The model of the loop numbers its slots in the same way. -/
theorem newEvent_eq_fresh {s : EvqState} {b : EventBuffers} (h : b.Counted s.nslots)
    (hfree : s.q.evFree = none) :
    s.newEvent.map Prod.fst = (b.fresh true).map fun r => r.2.1 := by
  have hsome := h.fresh_isSome_iff
  unfold EvqState.newEvent
  rw [hfree]
  dsimp only
  cases hfresh : b.fresh true with
  | none =>
      rw [hfresh] at hsome
      have hfull : ¬s.nslots < maxSlots := fun hlt => absurd (hsome.mpr hlt) (by simp)
      rw [if_neg hfull]
      rfl
  | some r =>
      rw [hfresh] at hsome
      rw [if_pos (hsome.mp rfl)]
      have hid : r.2.1 = s.nslots := (h.fresh hfresh).1
      rw [Option.map_some, Option.map_some, hid]

/-! ## The memory -/

/-- **Ids name slots.**  The slots given out have different ids, lie in their buffers, are
found from their ids, and keep them. -/
structure IdsNameSlots (layout : EventLayout) (s : EventMemory) : Prop where
  slots_nodup : (s.given.map Prod.fst).Nodup
  ids_nodup : (s.given.map Prod.snd).Nodup
  inside : ∀ p ∈ s.given, p.1.pos < 2 ^ p.1.buf ∧ p.1.buf ≤ envBufMax ∧
    s.buffers.env (p.1.buf - envBufIdx + 1) = true
  found : ∀ p ∈ s.given, findEvent p.2 = (p.1.buf, (p.1.pos : ℤ))
  kept : ∀ p ∈ s.given, readBytes (s.mem p.1) layout.idOffset 4 = le32 p.2
  limit : (s.buffers.fresh true).isSome = true ↔ s.given.length < maxSlots

namespace EventMemory

variable {layout : EventLayout} {s s' : EventMemory}

/-- The id of a slot is its number. -/
structure Inv (layout : EventLayout) (s : EventMemory) : Prop where
  counted : s.buffers.Counted s.given.length
  ids : s.given.map Prod.snd = (List.range s.given.length).reverse
  hasId : ∀ p ∈ s.given, p.1.HasId p.2
  exist : ∀ p ∈ s.given, s.buffers.env (p.1.buf - envBufIdx + 1) = true
  kept : ∀ p ∈ s.given, readBytes (s.mem p.1) layout.idOffset 4 = le32 p.2

theorem inv_init (mem : EventSlot → Mem) : Inv layout (init mem) :=
  ⟨EventBuffers.counted_init, rfl, by simp [init], by simp [init], by simp [init]⟩

/-- The field is set behind the memory that is cleared. -/
theorem readBytes_initEvent (layout : EventLayout) (m : Mem) {evId : List UInt8}
    (hlen : evId.length = 4) : readBytes (initEvent layout m evId) layout.idOffset 4 = evId := by
  rw [← hlen]
  exact readBytes_writeBytes_self _ _ _

theorem Inv.ids_nodup (h : Inv layout s) : (s.given.map Prod.snd).Nodup := by
  rw [h.ids, List.nodup_reverse]
  exact List.nodup_range

/-- Another id is never given to a slot. -/
theorem Inv.eq_of_fst_eq (h : Inv layout s) {p q : EventSlot × ℕ} (hp : p ∈ s.given)
    (hq : q ∈ s.given) (heq : p.1 = q.1) : p.2 = q.2 :=
  ((h.hasId p hp).eq_iff (h.hasId q hq)).mp heq

/-- The memory of a slot changes, but its id does not. -/
theorem Inv.setMem (h : Inv layout s) {slot : EventSlot} {m : Mem}
    (hm : readBytes m layout.idOffset 4 = readBytes (s.mem slot) layout.idOffset 4) :
    Inv layout { s with mem := Function.update s.mem slot m } := by
  refine ⟨h.counted, h.ids, h.hasId, h.exist, fun p hp => ?_⟩
  have hkept := h.kept p hp
  by_cases heq : p.1 = slot
  · rw [← hkept, ← heq]
    dsimp only
    rw [heq, Function.update_self, hm]
  · rw [← hkept]
    exact congrArg (readBytes · layout.idOffset 4) (Function.update_of_ne heq _ _)

/-- A slot that is taken from a buffer is a new one. -/
theorem Inv.fresh (h : Inv layout s) {alloc : Bool} {junk : Mem}
    (hrun : s.step layout (.fresh alloc junk) = some s') : Inv layout s' := by
  obtain ⟨⟨slot, evId, b⟩, hfresh, rfl⟩ := Option.map_eq_some_iff.mp hrun
  obtain ⟨rfl, hid, hcounted, hexist, hmono⟩ := h.counted.fresh hfresh
  have hnew : ∀ p ∈ s.given, p.1 ≠ slot := by
    intro p hp heq
    have hpid : p.2 = s.given.length := ((h.hasId p hp).eq_iff hid).mp heq
    have hmem : p.2 ∈ s.given.map Prod.snd := List.mem_map_of_mem hp
    rw [h.ids, List.mem_reverse, List.mem_range] at hmem
    omega
  refine ⟨hcounted, ?_, ?_, ?_, ?_⟩
  · rw [List.map_cons, h.ids, List.length_cons, List.range_succ, List.reverse_append]
    rfl
  · exact List.forall_mem_cons.mpr ⟨hid, h.hasId⟩
  · exact List.forall_mem_cons.mpr ⟨hexist, fun p hp => hmono _ (h.exist p hp)⟩
  · refine List.forall_mem_cons.mpr ⟨?_, fun p hp => ?_⟩
    · dsimp only
      rw [Function.update_self]
      exact readBytes_initEvent layout junk rfl
    · dsimp only
      rw [Function.update_of_ne (hnew p hp)]
      exact h.kept p hp

/-- Bytes outside of the field are written. -/
theorem Inv.write (h : Inv layout s) {slot : EventSlot} {off : ℕ} {bs : List UInt8}
    (hoff : off + bs.length ≤ layout.idOffset ∨ layout.idOffset + 4 ≤ off) :
    Inv layout (s.write slot off bs) := by
  refine h.setMem (readBytes_writeBytes_of_disjoint ?_)
  rcases hoff with hoff | hoff
  · exact Or.inr hoff
  · exact Or.inl hoff

/-- A step keeps the ids. -/
theorem Inv.step (h : Inv layout s) {op : SlotOp} (hrun : s.step layout op = some s') :
    Inv layout s' := by
  have htq := layout.tq_le
  have hop := layout.op_le
  cases op with
  | fresh alloc junk => exact h.fresh hrun
  | recycle slot =>
      obtain ⟨-, heq⟩ := Option.ite_none_right_eq_some.mp hrun
      rw [← Option.some.inj heq]
      exact h.setMem (readBytes_initEvent layout _ (length_readBytes _ _ _))
  | writeEvent slot off bs =>
      obtain ⟨⟨-, hoff⟩, heq⟩ := Option.ite_none_right_eq_some.mp hrun
      exact Option.some.inj heq ▸ h.write hoff
  | writeTimeoutQueue slot off bs =>
      obtain ⟨⟨-, hoff⟩, heq⟩ := Option.ite_none_right_eq_some.mp hrun
      exact Option.some.inj heq ▸ h.write (Or.inl (hoff.trans htq))
  | writeSyncOp slot off bs =>
      obtain ⟨⟨-, hoff⟩, heq⟩ := Option.ite_none_right_eq_some.mp hrun
      exact Option.some.inj heq ▸ h.write (Or.inl (hoff.trans hop))

theorem Inv.idsNameSlots (h : Inv layout s) : IdsNameSlots layout s := by
  refine ⟨?_, h.ids_nodup, fun p hp => ?_, fun p hp => findEvent_id (h.hasId p hp), h.kept,
    h.counted.fresh_isSome_iff⟩
  · have hnd := h.ids_nodup
    rw [List.Nodup, List.pairwise_map] at hnd ⊢
    exact hnd.imp_of_mem fun hp hq hne heq => hne (h.eq_of_fst_eq hp hq heq)
  · exact ⟨(h.hasId p hp).inside, (h.hasId p hp).buf_le, h.exist p hp⟩

end EventMemory

/-- **The ids of the events.**  In every run the ids name the slots and can be looked up, and
the logarithm is right for all the values of an `unsigned int` but zero. -/
theorem eventIds_unique {layout : EventLayout} {mem : EventSlot → Mem} {ops : List SlotOp}
    {s : EventMemory} (hrun : runOps (EventMemory.step layout) (.init mem) ops = some s) :
    IdsNameSlots layout s ∧ ∀ v, v ≠ 0 → v < 2 ^ 32 → getmaxbit v = v.log2 := by
  have hreach := reach_of_runOps (fun s op s' hop => (⟨op, hop⟩ : ∃ op, s.step layout op = some s'))
    hrun
  have hinv := inv_of_reach (fun _ _ ⟨_, hop⟩ h => h.step hop) (EventMemory.inv_init mem) hreach
  exact ⟨hinv.idsNameSlots, fun v hv hlt => getmaxbit_eq hv hlt⟩

/-- The layout of a system with pointers of 8 bytes. -/
def layout64 : EventLayout where
  size := 64
  idOffset := 48
  tqSize := 40
  opSize := 32
  id_le := by decide
  tq_le := by decide
  op_le := by decide

/-- The first buffer is used up, and two slots come from the second one.  The last slot of the first
becomes a timeout queue, the first of the second an operation, and both are events again. -/
def recycledOps : List SlotOp :=
  List.replicate 66 (.fresh true fun _ => 1) ++
    [.writeTimeoutQueue ⟨6, 63⟩ 32 [1, 0], .writeSyncOp ⟨7, 0⟩ 0 [5, 5], .recycle ⟨7, 0⟩,
      .recycle ⟨6, 63⟩, .writeEvent ⟨7, 0⟩ 52 [3]]

theorem eventIds_unique_recycled :
    ∃ s : EventMemory, s.given.length = 66 ∧
      s.given.take 3 = [(⟨7, 1⟩, 65), (⟨7, 0⟩, 64), (⟨6, 63⟩, 63)] ∧
      IdsNameSlots layout64 s := by
  have hrun : (runOps (EventMemory.step layout64) (.init fun _ _ => 0) recycledOps).map
      (fun s => (s.given.length, s.given.take 3)) =
        some (66, [(⟨7, 1⟩, 65), (⟨7, 0⟩, 64), (⟨6, 63⟩, 63)]) := by
    decide +kernel
  obtain ⟨s, hs, heq⟩ := Option.map_eq_some_iff.mp hrun
  obtain ⟨hlen, hgiven⟩ := Prod.mk.inj heq
  exact ⟨s, hlen, hgiven, (eventIds_unique hs).1⟩

end LuaSys.Event
