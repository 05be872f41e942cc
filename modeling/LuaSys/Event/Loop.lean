import LuaSys.Event.Timeout
import Mathlib.Logic.Relation

/-!
# Event slots and the event loop

The model of `sys_evq.c` with the backend functions `evq_add`, `evq_del` and
`evq_wait` of `epoll.c`, as far as they take slots from the pool and give them back.

The VM lock is released in `levq_control_wait`, in `evq_wait` and between the steps of
Lua code.  What runs without a release is one step here, so a call of `levq_add` is
two steps, the dispatch of an event is one, and the end of a coroutine that was
resumed as a callback is another one.  Everything may happen between two steps: the
other operations, from callbacks as well as from other threads.

The outcome of a system call and the events that `epoll_wait` reports are arguments
of the steps.  The operations of `evq:sync`, which lie on a C stack and take no slot,
are left out.

## Main definitions

* `EvqState` — the queue, the calls in progress and, as a ghost, the registered events.
* `newEvent`, `levqFreeEvent`, `evqDel`, `activate`, `levqDel`, `levqTimeout`, `dispatch` — the
  functions of the source.
* `EvqOp`, `EvqState.step` — the steps.
-/

namespace LuaSys.Event

open LuaSys.Lib

/-- The number of slots of all buffers, from `EVQ_ENV_BUF_IDX` to `EVQ_ENV_BUF_MAX`. -/
def maxSlots : ℕ := 2 ^ 25 - 2 ^ 6

/-- The type of the callback argument of `levq_add`. -/
inductive CallbackKind
  | absent
  | function
  | coroutine
  deriving DecidableEq, Repr

/-- The arguments of `levq_add`, from Lua or, with `sched`, from a scheduler. -/
structure AddArgs where
  write : Bool
  timer : Bool
  oneshot : Bool
  callback : CallbackKind
  timeout : ℤ
  sched : Bool

/-- The flags `levq_add` gives to a new event. -/
def AddArgs.flags (a : AddArgs) : EventFlags :=
  { read := !a.write, write := a.write, oneshot := a.oneshot, timer := a.timer,
    callback := a.callback ≠ .absent, callbackCoro := a.callback = .coroutine }

/-- The outcome of the backend in `levq_add`; `failsEarly` is a failure before
`ev->evq` is set. -/
inductive AddResult
  | ok
  | fails
  | failsEarly
  deriving DecidableEq, Repr

/-- A call of `levq_add` between the allocation of its slot and the backend. -/
structure Adding where
  ev : ℕ
  args : AddArgs

/-- An event queue with the calls in progress. -/
structure EvqState where
  q : Evq
  /-- The slots given out from the buffers so far. -/
  nslots : ℕ
  /-- The registered events: added and not deleted. -/
  live : ℕ → Bool
  adding : List Adding
  /-- The list `evq->sync_op`, and the lists that `levq_sync_process` works on. -/
  syncOps : List ℕ
  syncTaken : List (List ℕ)
  /-- Whether `op->L` of a synchronous operation is still set. -/
  opL : ℕ → Bool
  /-- The events whose coroutine has been resumed and runs. -/
  coros : List ℕ

/-! ## Slots -/

/-- `memset(ev, 0, sizeof(struct event))`. -/
def eventInit (q : Evq) (ev : ℕ) : Evq :=
  { q with
    nextReady := Function.update q.nextReady ev none
    prev := Function.update q.prev ev none
    next := Function.update q.next ev none
    tq := Function.update q.tq ev none
    timeoutAt := Function.update q.timeoutAt ev 0
    flags := Function.update q.flags ev {}
    registered := Function.update q.registered ev false }

/-- `levq_free_event`. -/
def levqFreeEvent (q : Evq) (ev : ℕ) : Evq :=
  { q with nextReady := Function.update q.nextReady ev q.evFree, evFree := some ev }

namespace EvqState

/-- `levq_new_event`; `none` is the error "too many events". -/
def newEvent (s : EvqState) : Option (ℕ × EvqState) :=
  match s.q.evFree with
  | some ev =>
      some (ev, { s with q := eventInit { s.q with evFree := s.q.nextReady ev } ev })
  | none =>
      if s.nslots < maxSlots then
        some (s.nslots, { s with q := eventInit s.q s.nslots, nslots := s.nslots + 1 })
      else none

/-- `levq_del_event`: the slot goes to the free list.  The entries of the callback and
object tables are not modelled. -/
def delEvent (s : EvqState) (ev : ℕ) : EvqState := { s with q := levqFreeEvent s.q ev }

/-- Set the flags of an event. -/
def setFlags (s : EvqState) (ev : ℕ) (f : EventFlags) : EvqState :=
  { s with q := { s.q with flags := Function.update s.q.flags ev f } }

/-- "Reserve place for timeout_queue"; `none` is the error "too many events". -/
def reserve (s : EvqState) : Option EvqState :=
  match s.q.evFree with
  | some _ => some s
  | none => s.newEvent.map fun r => { r.2 with q := { r.2.q with evFree := some r.1 } }

/-- `evq_del`. -/
def evqDel (s : EvqState) (ev : ℕ) : EvqState :=
  let q := if (s.q.tq ev).isSome then timeoutDel s.q ev else s.q
  { s with
    q := { q with registered := Function.update q.registered ev false }
    live := Function.update s.live ev false }

/-! ## Adding and deleting -/

/-- `levq_add` up to the wait in `levq_control_wait`.  An error in the second
allocation leaves the first slot behind. -/
def addBegin (s : EvqState) (args : AddArgs) : Option EvqState :=
  s.newEvent.map fun r =>
    let s := r.2.setFlags r.1 args.flags
    match s.reserve with
    | none => s
    | some s => { s with adding := ⟨r.1, args⟩ :: s.adding }

/-- `levq_add` from the backend on, for the `i`-th call in progress. -/
def addEnd (fuel : ℕ) (s : EvqState) (i : ℕ) (res : AddResult) : Option EvqState := do
  let a ← s.adding[i]?
  let s := { s with adding := s.adding.eraseIdx i }
  let s :=
    if a.args.timer ∨ res ≠ .failsEarly then
      { s with q := { s.q with registered := Function.update s.q.registered a.ev true } }
    else s
  if a.args.timer then
    let r ← evqSetTimeout fuel s.q a.ev a.args.timeout
    let s := { s with q := r.1 }
    if r.2 = 0 then some (finish s a) else some (s.delEvent a.ev)
  else if res = .ok then
    if a.args.timeout = timeoutInfinite then some (finish s a)
    else
      let r ← evqSetTimeout fuel s.q a.ev a.args.timeout
      some (finish { s with q := r.1 } a)
  else some (s.delEvent a.ev)
where
  /-- The event is registered; a scheduler marks its own events. -/
  finish (s : EvqState) (a : Adding) : EvqState :=
    let s := { s with live := Function.update s.live a.ev true }
    if a.args.sched then s.setFlags a.ev { s.q.flags a.ev with callbackSched := true } else s

/-- `levq_del`. -/
def levqDel (s : EvqState) (ev : ℕ) : EvqState :=
  let s := if s.q.registered ev then s.evqDel ev else s
  let s :=
    if (s.q.flags ev).active ∨ (s.q.flags ev).delete then s
    else s.delEvent ev
  s.setFlags ev { s.q.flags ev with delete := true }

/-- `levq_timeout`. -/
def levqTimeout (fuel : ℕ) (s : EvqState) (ev : ℕ) (timeout : ℤ) : Option EvqState := do
  let s ← s.reserve
  let r ← evqSetTimeout fuel s.q ev timeout
  some { s with q := r.1 }

/-! ## Activation and dispatch -/

/-- What happens to an event when it becomes active: a oneshot event is deleted, and a
timeout starts again. -/
def restart (s : EvqState) (ev : ℕ) (now : ℤ) : Option EvqState :=
  if (s.q.flags ev).oneshot then some (s.evqDel ev)
  else if (s.q.tq ev).isSome ∧ ¬(s.q.flags ev).timeoutManual then
    (timeoutReset s.q ev now).map fun q => { s with q := q }
  else some s

/-- The part of `evq_process_active` and of `evq_wait` for an event that is not active
yet: it becomes active and the first ready event. -/
def pushReady (s : EvqState) (ev : ℕ) (now : ℤ) : Option EvqState :=
  ((s.setFlags ev { s.q.flags ev with active := true }).restart ev now).map fun s =>
    { s with
      q := { s.q with
        nextReady := Function.update s.q.nextReady ev s.q.evReady
        evReady := some ev } }

/-- An event reported by `epoll_wait`, with its result flags, or an event that
`evq_process_active` activates. -/
def activate (s : EvqState) (ev : ℕ) (res : EventFlags) (now : ℤ) : Option EvqState :=
  let f := s.q.flags ev
  let s := s.setFlags ev { f with readRes := f.readRes || res.readRes,
                                  writeRes := f.writeRes || res.writeRes,
                                  eofRes := f.eofRes || res.eofRes }
  if (s.q.flags ev).active then some s else s.pushReady ev now

/-- `levq_notify`; an event that is not a timer is an error. -/
def levqNotify (s : EvqState) (ev : ℕ) : Option EvqState :=
  if (s.q.flags ev).timer then s.activate ev { readRes := true } s.q.now else none

/-- The timeouts in `evq_wait`. -/
def expire (fuel : ℕ) (s : EvqState) (now : ℤ) : Option EvqState :=
  (timeoutProcess fuel s.q s.q.tqHead s.q.evReady now).map fun r =>
    { s with q := { r.1 with evReady := r.2 } }

/-- "Deletion of oneshot event" in `sys_evq_loop`; a oneshot event may have been deleted
when it became active. -/
def release (s : EvqState) (ev : ℕ) (oneshot : Bool) : EvqState :=
  let s := if oneshot ∧ s.q.registered ev then s.evqDel ev else s
  if s.q.registered ev then s else s.delEvent ev

/-- The dispatch of the first ready event in `sys_evq_loop`, up to its callback. -/
def dispatch (s : EvqState) : Option EvqState := do
  let ev ← s.q.evReady
  let f := s.q.flags ev
  let s := s.setFlags ev f.clearRes
  let s := { s with q := { s.q with evReady := s.q.nextReady ev } }
  if f.delete then some (s.delEvent ev)
  else
    let s := s.release ev f.oneshot
    if ¬f.callbackSched ∧ f.callbackCoro then some { s with coros := ev :: s.coros }
    else some s

/-- A coroutine resumed as the callback of an event returns (`finished`), yields or
fails. -/
def coroEnd (s : EvqState) (i : ℕ) (finished : Bool) : Option EvqState := do
  let ev ← s.coros[i]?
  let s := { s with coros := s.coros.eraseIdx i }
  if finished ∧ s.q.registered ev then some ((s.evqDel ev).delEvent ev) else some s

/-! ## Operations of a scheduler -/

/-- `levq_sync_call` from `sys_evq_sched_add`, while the loop waits. -/
def syncCall (s : EvqState) : Option EvqState :=
  s.newEvent.map fun r =>
    { r.2 with syncOps := r.1 :: r.2.syncOps, opL := Function.update r.2.opL r.1 true }

/-- The loop takes the pending operations. -/
def syncTake (s : EvqState) : EvqState :=
  { s with syncOps := [], syncTaken := s.syncOps :: s.syncTaken }

/-- `levq_sync_process`, for the next operation of the `i`-th list: its slot is freed,
and unless the operation was cancelled, the event is added.  The addition may raise the
error "too many events". -/
def syncNext (s : EvqState) (i : ℕ) (args : AddArgs) : Option EvqState := do
  match ← s.syncTaken[i]? with
  | [] => some { s with syncTaken := s.syncTaken.eraseIdx i }
  | op :: ops =>
      let s := { s with syncTaken := s.syncTaken.set i ops }
      let s := s.delEvent op
      if s.opL op then some ((s.addBegin args).getD s) else some s

/-- `sys_evq_sched_del` of an event. -/
def schedDel (s : EvqState) (ev : ℕ) : EvqState :=
  if ¬s.q.registered ev ∨ (s.q.flags ev).active then s
  else
    let s := s.setFlags ev { s.q.flags ev with
      active := true, oneshot := true, callback := false, callbackCoro := false,
      callbackSched := false }
    { s with
      q := { s.q with
        nextReady := Function.update s.q.nextReady ev s.q.evReady
        evReady := some ev } }

/-- `sys_evq_sched_del` of an operation that is still pending. -/
def schedCancel (s : EvqState) (op : ℕ) : EvqState :=
  { s with opL := Function.update s.opL op false }

end EvqState

/-! ## Steps -/

/-- The steps of a run. -/
inductive EvqOp
  | addBegin (args : AddArgs)
  | addEnd (i : ℕ) (res : AddResult)
  | del (ev : ℕ)
  | timeout (ev : ℕ) (msec : ℤ)
  | timeoutManual (ev : ℕ) (manual : Bool)
  | notify (ev : ℕ)
  | clock (now : ℤ)
  | activate (ev : ℕ) (res : EventFlags) (now : ℤ)
  | expire (now : ℤ)
  | dispatch
  | coroEnd (i : ℕ) (finished : Bool)
  | syncCall
  | syncTake
  | syncNext (i : ℕ) (args : AddArgs)
  | schedDel (ev : ℕ)
  | schedCancel (op : ℕ)

namespace EvqState

/-- One step; `none` when it does not apply or raises an error. -/
def step (fuel : ℕ) (s : EvqState) : EvqOp → Option EvqState
  | .addBegin args => s.addBegin args
  | .addEnd i res => s.addEnd fuel i res
  | .del ev => some (s.levqDel ev)
  | .timeout ev msec => s.levqTimeout fuel ev msec
  | .timeoutManual ev manual =>
      some (s.setFlags ev { s.q.flags ev with timeoutManual := manual })
  | .notify ev => s.levqNotify ev
  | .clock now => some { s with q := { s.q with now := now } }
  | .activate ev res now => s.activate ev res now
  | .expire now => s.expire fuel now
  | .dispatch => s.dispatch
  | .coroEnd i finished => s.coroEnd i finished
  | .syncCall => s.syncCall
  | .syncTake => some s.syncTake
  | .syncNext i args => s.syncNext i args
  | .schedDel ev => some (s.schedDel ev)
  | .schedCancel op => some (s.schedCancel op)

/-- The state of a new event queue, as `levq_new` leaves it. -/
def init (now : ℤ) : EvqState where
  q :=
    { nextReady := fun _ => none, prev := fun _ => none, next := fun _ => none, tq := fun _ => none
      timeoutAt := fun _ => 0, flags := fun _ => {}, registered := fun _ => false
      tqPrev := fun _ => none, tqNext := fun _ => none, evHead := fun _ => none
      evTail := fun _ => none, msec := fun _ => 0
      now := now, evReady := none, evFree := none, tqHead := none
      tqMapFn := true, tqMap := fun _ => none }
  nslots := 0
  live := fun _ => false
  adding := []
  syncOps := []
  syncTaken := []
  opL := fun _ => false
  coros := []

/-- The transitions of a run. -/
def Step (s s' : EvqState) : Prop := ∃ op fuel, s.step fuel op = some s'

end EvqState

end LuaSys.Event
