import LuaSys.Lib.DList
import LuaSys.Lib.Word

/-!
# Events and event queues

The structures of `evq.h` and `timeout.h`.  The memory of an event queue is a pool of
slots of one size.  A slot is an event, the header of a timeout queue, a pending
synchronous operation, or free; the source casts between these structures.  Here
each field is a function of the slot, and each structure has its own fields: that no
slot has two of these roles at the same time is stated and proved where it matters.

A null pointer is `none`.  The flag word of an event is a record of its bits.

## Main definitions

* `EventFlags` — the bits of `ev->flags`.
* `Evq` — the queue with the fields of all its slots.
-/

namespace LuaSys.Event

open LuaSys.Lib

/-- The bits of `ev->flags`. -/
structure EventFlags where
  read : Bool := false
  write : Bool := false
  oneshot : Bool := false
  delete : Bool := false
  timer : Bool := false
  timeoutManual : Bool := false
  callback : Bool := false
  callbackCoro : Bool := false
  callbackSched : Bool := false
  active : Bool := false
  readRes : Bool := false
  writeRes : Bool := false
  timeoutRes : Bool := false
  eofRes : Bool := false
  deriving DecidableEq, Repr

/-- `flags &= ~EVENT_MASK_RES`. -/
def EventFlags.clearRes (f : EventFlags) : EventFlags :=
  { f with active := false, readRes := false, writeRes := false, timeoutRes := false,
           eofRes := false }

/-- `struct event_queue` and the fields of its slots. -/
structure Evq where
  /-- `struct event`; a registered event has `ev->evq != NULL`. -/
  nextReady : ℕ → Option ℕ
  prev : ℕ → Option ℕ
  next : ℕ → Option ℕ
  tq : ℕ → Option ℕ
  timeoutAt : ℕ → ℤ
  flags : ℕ → EventFlags
  registered : ℕ → Bool
  /-- `struct timeout_queue`. -/
  tqPrev : ℕ → Option ℕ
  tqNext : ℕ → Option ℕ
  evHead : ℕ → Option ℕ
  evTail : ℕ → Option ℕ
  msec : ℕ → ℤ
  /-- `struct event_queue`. -/
  now : ℤ
  evReady : Option ℕ
  evFree : Option ℕ
  tqHead : Option ℕ
  /-- Whether `tq_map_fn` is set, and the table behind it. -/
  tqMapFn : Bool
  tqMap : ℤ → Option ℕ

/-- `MIN_TIMEOUT`. -/
def minTimeout : ℤ := 10

/-- `TIMEOUT_INFINITE`. -/
def timeoutInfinite : ℤ := -1

/-- The sum of two values of type `msec_t`, which is `int`. -/
def msecAdd (a b : ℤ) : ℤ := int32 (a + b)

/-- The sum stays in the range of `msec_t`. -/
def NoOverflow (a b : ℤ) : Prop := -2 ^ 31 ≤ a + b ∧ a + b < 2 ^ 31

theorem msecAdd_eq {a b : ℤ} (h : NoOverflow a b) : msecAdd a b = a + b :=
  int32_of_range h.1 h.2

/-- `levq_timeout_map`: store, remove or search an entry. -/
def levqTimeoutMap (q : Evq) (tq : Option ℕ) (msec : ℤ) (isRemove : Bool) : Evq × Option ℕ :=
  match tq with
  | some t =>
      ({ q with tqMap := Function.update q.tqMap msec (if isRemove then none else some t) }, some t)
  | none => (q, q.tqMap msec)

end LuaSys.Event
