import LuaSys.Lib.Run
import LuaSys.Lib.SwapDelete
import Mathlib.Data.Set.Defs

/-!
# The waiting threads of the Windows backend

`WaitForMultipleObjects` takes 64 handles at most, so the queue has records with arrays of that
size: one in the queue itself, `head`, whose handles `evq_wait` waits for, and one for each
helper thread, which runs `win32thr_wait`.  The threads are called by `win32thr_poll` at the
begin of `evq_wait`; one whose wait ends puts itself on `wth_ready` and wakes the queue.  A
thread that waits is not disturbed: before its arrays are changed, `win32thr_sleep` stops it.

An *owner* is whatever thread of the program runs the functions of the queue; there is one at a
time.  A step is what the owner or a helper thread does up to the next point named in `OwnerAt`
or `ThrAt`.  A section with `head.sig_cs` or with the lock of a record is one step, except
`win32thr_poll`, which keeps the lock of the queue over its whole loop; the sections of the
helper threads with that lock do not begin meanwhile.

The system decides how a wait ends, which objects are signalled and which timeouts have
expired.  Signals, timers, window messages and the events of the completion routines are in no
record and left out here; so are the timeout lists of the records.

## Main definitions

* `WthArrays`, `win32thrAdd`, `win32thrDel` — the arrays of a record and their changes.
* `OwnerAt`, `ThrAt` — where the owner and the helper threads are.
* `Win32Evq.scanFrom` — the loop of `evq_wait` over the events of a record.
* `Win32Evq.step` — the steps of the owner and the threads, in any interleaving.
* `Win32Evq.Placed` — the arrays, the places of the events and the last handle agree.

## Main results

* `Win32Evq.Placed.add`, `Win32Evq.Placed.del` — they still agree after a change.
* `Win32Evq.scanWth_spec` — which events of a record become ready, and which stay.
-/

namespace LuaSys.Event

open LuaSys.Lib

/-- `NEVENT`: the handles of a record. -/
def Win32Evq.nevent : ℕ := 63

/-- The code `WAIT_TIMEOUT`. -/
def waitTimeout : ℕ := 258

/-- The field `state` of a record. -/
inductive WthrState
  | sleep
  | poll
  | ready
  | ack
  deriving DecidableEq, Repr

/-- A handle in an array: the signal of the record, or the handle of an event. -/
inductive WaitHandle (ε : Type*)
  | signal
  | object (ev : ε)
  deriving DecidableEq

/-- The arrays of `struct win32thr`. -/
structure WthArrays (ε : Type*) where
  n : ℕ
  handles : ℕ → WaitHandle ε
  events : ℕ → Option ε

namespace WthArrays

variable {ε : Type*}

/-- The arrays at the begin of `win32thr_wait`. -/
def empty : WthArrays ε where
  n := 0
  handles _ := .signal
  events _ := none

/-- The handles that a wait of a thread is for: `n + 1` of them. -/
def waitList (a : WthArrays ε) (n : ℕ) : List (WaitHandle ε) := (List.range (n + 1)).map a.handles

end WthArrays

/-- Where a helper thread is. -/
inductive ThrAt (ε : Type*)
  /-- It has not been started, or it has not run yet. -/
  | unborn
  /-- In `WaitForSingleObject(wth.signal)`. -/
  | idle
  /-- Behind `n = wth.n`. -/
  | counted (n : ℕ)
  /-- Behind the section that decrements `nwakeup`. -/
  | begun (n : ℕ)
  /-- In `WaitForMultipleObjects`. -/
  | waiting (handles : List (WaitHandle ε))
  /-- Behind it. -/
  | woken (res : Bool)
  /-- Before the section that puts it on `wth_ready`. -/
  | reporting
  | gone
  deriving DecidableEq

/-- A helper thread, with the fields of its record that are not arrays. -/
structure Win32Thr (ε : Type*) where
  state : WthrState
  /-- The state of `signal`, an auto-reset event. -/
  signal : Bool
  pc : ThrAt ε
  deriving DecidableEq

/-- What the owner does to a record once its thread does not wait. -/
inductive WthChange (ε : Type*)
  /-- `win32thr_add`; `ok` is false if the handle of a socket cannot be made. -/
  | add (ev : ε) (ok : Bool)
  /-- `win32thr_del`. -/
  | del (ev : ε)
  /-- The end of `evq_modify` and of `evq_set_timeout`: the arrays stay. -/
  | touch
  deriving DecidableEq

/-- Where the owner is. -/
inductive OwnerAt (θ ε : Type*)
  /-- Outside the functions of the queue. -/
  | free
  /-- In `win32thr_sleep`, waiting for `ack_event`. -/
  | asleep (wth : θ) (change : WthChange ε)
  /-- In `win32thr_init`, waiting for `ack_event`. -/
  | starting (wth : θ) (ev : ε) (ok : Bool)
  /-- In the loop of `win32thr_poll`, with the lock of the queue. -/
  | calling (todo : List θ) (oldn : ℕ) (polled : Bool)
  /-- In `win32thr_poll`, waiting for `ack_event`. -/
  | counting
  /-- In `evq_wait`, behind `win32thr_poll`. -/
  | polled
  /-- In `MsgWaitForMultipleObjectsEx`. -/
  | waiting
  /-- Behind it. -/
  | collecting
  /-- In the loop of `evq_wait` over the records; `none` is `head`. -/
  | scanning (todo : List (Option θ))
  deriving DecidableEq

/-- An event queue with its helper threads. -/
structure Win32Evq (θ ε : Type*) where
  /-- The records; `none` is `head`. -/
  arrays : Option θ → WthArrays ε
  idx : Option θ → ℕ
  /-- The field `wth` of an event: null if it is in no record. -/
  evWth : ε → Option (Option θ)
  /-- The field `w.index` of an event. -/
  index : ε → ℕ
  /-- Whether an event has `EVENT_ONESHOT`. -/
  oneshot : ε → Bool
  /-- The flag `EVENT_ACTIVE`. -/
  active : ε → Bool
  evReady : List ε
  /-- The list that begins with `head.next`. -/
  threads : List θ
  thr : θ → Win32Thr ε
  nwakeup : ℤ
  /-- The state of `ack_event`, an auto-reset event. -/
  ack : Bool
  /-- The state of `head.signal`. -/
  headSignal : Bool
  wthReady : List θ
  owner : OwnerAt θ ε

/-- The steps. -/
inductive Win32Op (θ ε : Type*)
  /-- `evq_add`, of an event that goes into a record; `wth` is a new thread. -/
  | add (ev : ε) (ok : Bool) (wth : θ)
  | del (ev : ε)
  /-- `evq_modify` or `evq_set_timeout`. -/
  | touch (ev : ε)
  /-- The wait for `ack_event` ends. -/
  | acked
  /-- The loop over the ready events takes the next one. -/
  | dispatch
  /-- `evq_signal` of another thread. -/
  | interrupt
  /-- `evq_wait` up to the loop of `win32thr_poll`. -/
  | pollBegin
  /-- One round of that loop, or its end. -/
  | pollNext
  /-- `evq_wait` returns without a wait: the queue is empty. -/
  | waitCancel
  /-- `evq_wait` returns without a wait: timeouts of `head` have expired. -/
  | waitExpired (expired : List ε)
  | waitBegin
  /-- The wait ends for the handle `i`, for a timeout, or without a reason to look at the
  records. -/
  | waitReturn (i : ℕ)
  | waitTimeout
  | waitGiveUp
  /-- The section that takes `wth_ready`. -/
  | collect
  /-- One round of the loop over the records. -/
  | scanNext (signalled res : ε → Bool) (expired : List ε)
  /-- `win32thr_wait` up to its first wait. -/
  | birth (wth : θ)
  | thrCalled (wth : θ)
  | thrCount (wth : θ)
  | thrWait (wth : θ)
  | thrReturn (wth : θ) (i : ℕ)
  | thrTimeout (wth : θ)
  | thrSettle (wth : θ)
  | thrReport (wth : θ)

namespace Win32Evq

variable {θ ε : Type*} [DecidableEq θ] [DecidableEq ε]

/-- A queue as `evq_init` makes it. -/
def init (oneshot : ε → Bool) : Win32Evq θ ε where
  arrays _ := WthArrays.empty
  idx _ := 0
  evWth _ := none
  index _ := 0
  oneshot := oneshot
  active _ := false
  evReady := []
  threads := []
  thr _ := ⟨.sleep, false, .unborn⟩
  nwakeup := 0
  ack := false
  headSignal := false
  wthReady := []
  owner := .free

/-! ## The functions of the owner -/

/-- `win32thr_add`.  An event that cannot be added is freed by the caller. -/
def win32thrAdd (s : Win32Evq θ ε) (wth : Option θ) (ev : ε) (ok : Bool) : Win32Evq θ ε :=
  let a := s.arrays wth
  if ok then
    { s with
      arrays := Function.update s.arrays wth
        { n := a.n + 1
          handles := Function.update (Function.update a.handles (a.n + 1) .signal) a.n (.object ev)
          events := Function.update a.events a.n (some ev) }
      index := Function.update s.index ev a.n
      evWth := Function.update s.evWth ev (some wth) }
  else s

/-- `win32thr_del`. -/
def win32thrDel (s : Win32Evq θ ε) (wth : Option θ) (ev : ε) : Win32Evq θ ε :=
  let a := s.arrays wth
  let n := a.n - 1
  let i := s.index ev
  { s with
    arrays := Function.update s.arrays wth
      { n := n
        handles := Function.update (swapDel a.handles i n) n .signal
        events := swapDel a.events i n }
    index := reindex a.events s.index i n
    evWth := Function.update s.evWth ev none }

/-- The change of a record. -/
def change (s : Win32Evq θ ε) (wth : Option θ) : WthChange ε → Win32Evq θ ε
  | .add ev ok => s.win32thrAdd wth ev ok
  | .del ev => s.win32thrDel wth ev
  | .touch => s

/-- `win32thr_sleep`, and then the change. -/
def win32thrSleep (s : Win32Evq θ ε) (wth : Option θ) (c : WthChange ε) : Win32Evq θ ε :=
  match wth with
  | none => s.change none c
  | some w =>
      if (s.thr w).state = .poll then
        { s with
          thr := Function.update s.thr w { s.thr w with state := .ack, signal := true }
          owner := .asleep w c }
      else s.change (some w) c

/-- The loop of `evq_add` over the records: the first one with a place. -/
def placeFor (s : Win32Evq θ ε) : Option (Option θ) :=
  (none :: s.threads.map some).find? fun wth => (s.arrays wth).n < nevent - 1

/-- `evq_add`; `w` is the thread that `win32thr_init` creates. -/
def evqAdd (s : Win32Evq θ ε) (ev : ε) (ok : Bool) (w : θ) : Win32Evq θ ε :=
  match s.placeFor with
  | some wth => s.win32thrSleep wth (.add ev ok)
  | none => { s with owner := .starting w ev ok }

/-- `evq_del`. -/
def evqDel (s : Win32Evq θ ε) (wth : Option θ) (ev : ε) : Win32Evq θ ε :=
  if s.active ev then s.win32thrDel wth ev else s.win32thrSleep wth (.del ev)

/-- `evq_modify` and `evq_set_timeout`. -/
def evqTouch (s : Win32Evq θ ε) (wth : Option θ) (ev : ε) : Win32Evq θ ε :=
  if s.active ev then s else s.win32thrSleep wth .touch

/-- The end of the loop of `win32thr_poll`. -/
def pollEnd (s : Win32Evq θ ε) (polled : Bool) : Win32Evq θ ε :=
  { s with owner := if polled then .counting else .polled }

/-- One round of the loop of `win32thr_poll`. -/
def pollRound (s : Win32Evq θ ε) (w : θ) (todo : List θ) (oldn : ℕ) (polled : Bool) :
    Win32Evq θ ε :=
  let n := (s.arrays (some w)).n
  if (s.thr w).state = .sleep then
    if n = 0 then
      -- The deletion of the last empty thread is put off.
      if nevent / 2 < oldn ∧ todo = [] then s.pollEnd polled
      else { s with
        threads := s.threads.erase w
        thr := Function.update s.thr w { s.thr w with signal := true }
        owner := .calling todo oldn polled }
    else { s with
      thr := Function.update s.thr w { s.thr w with state := .poll, signal := true }
      nwakeup := s.nwakeup + 1
      owner := .calling todo n true }
  else { s with owner := .calling todo oldn polled }

/-- Events become active and are put before the others on `ev_ready`. -/
def setReady (s : Win32Evq θ ε) (evs : List ε) : Win32Evq θ ε :=
  { s with evReady := evs ++ s.evReady, active := fun ev => s.active ev || decide (ev ∈ evs) }

/-- An event has occurred: the queue, and whether the event has been deleted. -/
def markReady (s : Win32Evq θ ε) (wth : Option θ) (ev : ε) : Win32Evq θ ε × Bool :=
  if s.active ev then (s, false)
  else if s.oneshot ev then ((s.win32thrDel wth ev).setReady [ev], true)
  else (s.setReady [ev], false)

/-- The loop over the events of a record, at the place `i`, with `k` places to go.  The first
handle is not tested, and the place of an event that has been deleted is looked at again. -/
def scanFrom (wth : Option θ) (signalled res : ε → Bool) :
    ℕ → ℕ → Bool → Win32Evq θ ε → Win32Evq θ ε
  | 0, _, _, s => s
  | k + 1, i, first, s =>
      match (s.arrays wth).events i with
      | none => s
      | some ev =>
          if (first || signalled ev) && res ev then
            let r := s.markReady wth ev
            scanFrom wth signalled res k (if r.2 then i else i + 1) false r.1
          else scanFrom wth signalled res k (i + 1) false s

/-- The body of the loop of `evq_wait` over the records.  The state of `head` is not used. -/
def scanWth (s : Win32Evq θ ε) (wth : Option θ) (signalled res : ε → Bool)
    (expired : List ε) : Win32Evq θ ε :=
  let i := s.idx wth
  if i = Event.waitTimeout then s.setReady expired
  else scanFrom wth signalled res ((s.arrays wth).n - i) i true s

/-- `wth->state = WTHR_SLEEP`. -/
def setSleep (s : Win32Evq θ ε) : Option θ → Win32Evq θ ε
  | none => s
  | some w => { s with thr := Function.update s.thr w { s.thr w with state := .sleep } }

/-- The events whose timeouts have expired are those of a record, and none is active already. -/
def Expired (s : Win32Evq θ ε) (wth : Option θ) (expired : List ε) : Prop :=
  expired.Nodup ∧ ∀ ev ∈ expired, s.evWth ev = some wth ∧ s.active ev = false

instance (s : Win32Evq θ ε) (wth : Option θ) (expired : List ε) :
    Decidable (s.Expired wth expired) :=
  inferInstanceAs (Decidable (_ ∧ _))

/-- The records that `evq_wait` looks at.  `head` is not if only its signal was raised. -/
def readyRecords (s : Win32Evq θ ε) : List (Option θ) :=
  if s.idx none = (s.arrays none).n then s.wthReady.map some else none :: s.wthReady.map some

/-- The loop over the records has `todo` to go. -/
def scanTo (s : Win32Evq θ ε) (todo : List (Option θ)) : Win32Evq θ ε :=
  { s with owner := if todo = [] then .free else .scanning todo }

/-! ## Steps -/

/-- A thread goes on. -/
def setThr (s : Win32Evq θ ε) (w : θ) (t : Win32Thr ε) : Win32Evq θ ε :=
  { s with thr := Function.update s.thr w t }

/-- The steps of the owner. -/
def ownerStep (s : Win32Evq θ ε) : OwnerAt θ ε → Win32Op θ ε → Option (Win32Evq θ ε)
  | .free, .add ev ok w =>
      if s.evWth ev = none ∧ s.active ev = false ∧ (s.thr w).pc = .unborn then
        some (s.evqAdd ev ok w)
      else none
  | .free, .del ev => (s.evWth ev).map fun wth => s.evqDel wth ev
  | .free, .touch ev => (s.evWth ev).map fun wth => s.evqTouch wth ev
  | .free, .dispatch =>
      s.evReady.head?.map fun ev =>
        { s with evReady := s.evReady.tail, active := Function.update s.active ev false }
  | .free, .pollBegin =>
      if s.threads = [] then some { s with owner := .polled }
      else some { s with nwakeup := 0, owner := .calling s.threads 0 false }
  | .calling [] _ polled, .pollNext => some (s.pollEnd polled)
  | .calling (w :: todo) oldn polled, .pollNext => some (s.pollRound w todo oldn polled)
  | .polled, .waitCancel => some { s with owner := .free }
  | .polled, .waitExpired expired =>
      -- The list that `ev_ready` was before is dropped.
      if s.Expired none expired then
        some ({ s with evReady := [], owner := .free }.setReady expired)
      else none
  | .polled, .waitBegin => some { s with owner := .waiting }
  | .waiting, .waitReturn i =>
      let s' := { s with idx := Function.update s.idx none i, owner := .collecting }
      if i < (s.arrays none).n then some s'
      else if i = (s.arrays none).n ∧ s.headSignal then some { s' with headSignal := false }
      else none
  | .waiting, .waitTimeout =>
      some { s with idx := Function.update s.idx none Event.waitTimeout, owner := .collecting }
  | .waiting, .waitGiveUp => some { s with owner := .free }
  | .collecting, .collect =>
      some ({ s with headSignal := false, wthReady := [] }.scanTo s.readyRecords)
  | .scanning (wth :: todo), .scanNext signalled res expired =>
      if s.Expired wth expired then
        some (((s.setSleep wth).scanWth wth signalled res expired).scanTo todo)
      else none
  | owner, .acked =>
      if s.ack then
        match owner with
        | .asleep w c => some ({ s with ack := false, owner := .free }.change (some w) c)
        | .starting w ev ok =>
            some ({ s with ack := false, owner := .free }.win32thrAdd (some w) ev ok)
        | .counting => some { s with ack := false, owner := .polled }
        | _ => none
      else none
  | _, _ => none

/-- Whether the lock of the queue is free. -/
def unlocked (s : Win32Evq θ ε) : Bool :=
  match s.owner with
  | .calling _ _ _ => false
  | _ => true

/-- `win32thr_wait` up to its first wait. -/
def birth (s : Win32Evq θ ε) (w : θ) : Win32Evq θ ε :=
  { s with
    arrays := Function.update s.arrays (some w) WthArrays.empty
    thr := Function.update s.thr w ⟨.sleep, false, .idle⟩
    threads := w :: s.threads
    ack := true }

/-- `--evq->nwakeup`; the last thread wakes the poller. -/
def countDown (s : Win32Evq θ ε) : Win32Evq θ ε :=
  { s with nwakeup := s.nwakeup - 1, ack := s.ack || decide (s.nwakeup = 1) }

/-- The steps of a helper thread. -/
def thrStep (s : Win32Evq θ ε) (w : θ) : ThrAt ε → Win32Op θ ε → Option (Win32Evq θ ε)
  | .unborn, .birth _ =>
      match s.owner with
      | .starting w' _ _ => if w' = w then some (s.birth w) else none
      | _ => none
  | .idle, .thrCalled _ =>
      let n := (s.arrays (some w)).n
      if (s.thr w).signal then
        some (s.setThr w { s.thr w with
          signal := false
          pc := if n = 0 then .gone else .counted n })
      else none
  | .counted n, .thrCount _ =>
      if s.unlocked then some (s.countDown.setThr w { s.thr w with pc := .begun n })
      else none
  | .begun n, .thrWait _ =>
      some (s.setThr w { s.thr w with pc := .waiting ((s.arrays (some w)).waitList n) })
  | .waiting hs, .thrReturn _ i =>
      let s' := { s with idx := Function.update s.idx (some w) i }
      let res := decide (i + 1 < hs.length)
      match hs[i]? with
      | some (.object _) => some (s'.setThr w { s.thr w with pc := .woken res })
      | some .signal =>
          if (s.thr w).signal then
            some (s'.setThr w { s.thr w with signal := false, pc := .woken res })
          else none
      | none => none
  | .waiting _, .thrTimeout _ =>
      some ({ s with idx := Function.update s.idx (some w) Event.waitTimeout }.setThr w
        { s.thr w with pc := .woken true })
  | .woken res, .thrSettle _ =>
      let isAck := decide ((s.thr w).state = .ack)
      some ({ s with ack := s.ack || isAck }.setThr w
        { state := if res then .ready else .sleep
          signal := !isAck && (s.thr w).signal
          pc := if res then .reporting else .idle })
  | .reporting, .thrReport _ =>
      if s.unlocked then
        some ({ s with wthReady := w :: s.wthReady, headSignal := true }.setThr w
          { s.thr w with pc := .idle })
      else none
  | _, _ => none

/-- One step. -/
def step (s : Win32Evq θ ε) (op : Win32Op θ ε) : Option (Win32Evq θ ε) :=
  match op with
  | .interrupt => some { s with headSignal := true }
  | .birth w | .thrCalled w | .thrCount w | .thrWait w | .thrReturn w _ | .thrTimeout w
  | .thrSettle w | .thrReport w => s.thrStep w (s.thr w).pc op
  | op => s.ownerStep s.owner op

/-! ## The arrays -/

/-- The arrays, the places of the events and the last handle agree. -/
structure Recorded (s : Win32Evq θ ε) : Prop where
  placed : ∀ wth, Placed (s.arrays wth).events s.index 0 (s.arrays wth).n
    {ev | s.evWth ev = some wth}
  object : ∀ wth ev, s.evWth ev = some wth → (s.arrays wth).handles (s.index ev) = .object ev
  last : ∀ wth, (s.arrays wth).handles (s.arrays wth).n = .signal
  bound : ∀ wth, (s.arrays wth).n ≤ nevent - 1

/-- Only the arrays, the events and the list of the ready ones may differ. -/
def SameThreads (s s' : Win32Evq θ ε) : Prop :=
  s' = { s with
    arrays := s'.arrays
    index := s'.index
    evWth := s'.evWth
    active := s'.active
    evReady := s'.evReady }

section
variable {s s' s'' : Win32Evq θ ε} {wth : Option θ} {ev : ε}

@[simp] theorem win32thrDel_active : (s.win32thrDel wth ev).active = s.active := rfl
@[simp] theorem win32thrDel_evReady : (s.win32thrDel wth ev).evReady = s.evReady := rfl
@[simp] theorem win32thrDel_oneshot : (s.win32thrDel wth ev).oneshot = s.oneshot := rfl
@[simp] theorem win32thrDel_evWth :
    (s.win32thrDel wth ev).evWth = Function.update s.evWth ev none := rfl
omit [DecidableEq θ] in
@[simp] theorem setReady_arrays {evs : List ε} : (s.setReady evs).arrays = s.arrays := rfl
omit [DecidableEq θ] in
@[simp] theorem setReady_evWth {evs : List ε} : (s.setReady evs).evWth = s.evWth := rfl
omit [DecidableEq θ] in
@[simp] theorem setReady_index {evs : List ε} : (s.setReady evs).index = s.index := rfl
omit [DecidableEq θ] in
@[simp] theorem setReady_oneshot {evs : List ε} : (s.setReady evs).oneshot = s.oneshot := rfl
omit [DecidableEq θ] in
@[simp] theorem setReady_evReady {evs : List ε} : (s.setReady evs).evReady = evs ++ s.evReady := rfl
omit [DecidableEq θ] in
@[simp] theorem setReady_active {evs : List ε} :
    (s.setReady evs).active = fun ev => s.active ev || decide (ev ∈ evs) := rfl

omit [DecidableEq θ] [DecidableEq ε] in
theorem SameThreads.refl (s : Win32Evq θ ε) : s.SameThreads s := rfl

omit [DecidableEq θ] [DecidableEq ε] in
theorem SameThreads.trans (h : s.SameThreads s') (h' : s'.SameThreads s'') : s.SameThreads s'' := by
  unfold SameThreads at h h' ⊢
  rw [h] at h'
  exact h'

theorem sameThreads_add {ok : Bool} : s.SameThreads (s.win32thrAdd wth ev ok) := by
  unfold win32thrAdd
  cases ok <;> rfl

theorem sameThreads_del : s.SameThreads (s.win32thrDel wth ev) := rfl

omit [DecidableEq θ] in
theorem sameThreads_setReady {evs : List ε} : s.SameThreads (s.setReady evs) := rfl

theorem sameThreads_change {c : WthChange ε} : s.SameThreads (s.change wth c) := by
  cases c with
  | add ev ok => exact sameThreads_add
  | del ev => exact sameThreads_del
  | touch => exact SameThreads.refl s

theorem sameThreads_markReady : s.SameThreads (s.markReady wth ev).1 := by
  unfold markReady
  split
  · exact SameThreads.refl s
  · split
    · exact sameThreads_del.trans sameThreads_setReady
    · exact sameThreads_setReady

theorem sameThreads_scanFrom {signalled res : ε → Bool} {k i : ℕ} {first : Bool} :
    s.SameThreads (scanFrom wth signalled res k i first s) := by
  induction k generalizing i first s with
  | zero => exact SameThreads.refl s
  | succ k ih =>
      rw [scanFrom]
      split
      · exact SameThreads.refl s
      · split
        · exact sameThreads_markReady.trans ih
        · exact ih

theorem sameThreads_scanWth {signalled res : ε → Bool} {expired : List ε} :
    s.SameThreads (s.scanWth wth signalled res expired) := by
  unfold scanWth
  dsimp only
  split
  · exact sameThreads_setReady
  · exact sameThreads_scanFrom

end

omit [DecidableEq θ] [DecidableEq ε] in
theorem recorded_init (oneshot : ε → Bool) : (init oneshot : Win32Evq θ ε).Recorded where
  placed wth := by
    constructor
    · intro e he
      cases he
    · intro e he
      cases he
    · intro e he
      cases he
    · intro i _ hi
      exact absurd hi (Nat.not_lt_zero i)
  object wth ev h := nomatch h
  last wth := rfl
  bound wth := Nat.zero_le _

namespace Recorded
variable {s : Win32Evq θ ε} {wth wth' : Option θ} {ev x : ε}

omit [DecidableEq θ] [DecidableEq ε] in
/-- A record with events has more than none. -/
theorem pos (h : s.Recorded) (hev : s.evWth ev = some wth) : 0 < (s.arrays wth).n :=
  Nat.lt_of_le_of_lt (Nat.zero_le _) ((h.placed wth).lt ev hev)

omit [DecidableEq θ] [DecidableEq ε] in
/-- No event is in an empty record. -/
theorem evWth_ne (h : s.Recorded) (hn : (s.arrays wth).n = 0) : s.evWth ev ≠ some wth :=
  fun hev => Nat.ne_of_gt (h.pos hev) hn

/-- `win32thr_add` keeps the arrays in order. -/
theorem add {ok : Bool} (h : s.Recorded) (hn : (s.arrays wth).n < nevent - 1)
    (hev : s.evWth ev = none) : (s.win32thrAdd wth ev ok).Recorded := by
  cases ok with
  | false => exact h
  | true =>
    have hne : ∀ {x wth'}, s.evWth x = some wth' → x ≠ ev := by
      rintro x wth' hx rfl
      rw [hev] at hx
      cases hx
    have hset : ∀ wth', {x | Function.update s.evWth ev (some wth) x = some wth'} =
        if wth' = wth then insert ev {x | s.evWth x = some wth'}
        else {x | s.evWth x = some wth'} := by
      intro wth'
      ext x
      by_cases hx : x = ev
      · subst hx
        by_cases hw : wth' = wth
        · simp [hw]
        · simp [hw, hev, Ne.symm hw]
      · by_cases hw : wth' = wth <;> simp [hx, hw]
    constructor
    · intro wth'
      show Placed _ (Function.update s.index ev (s.arrays wth).n) 0 _
        {x | Function.update s.evWth ev (some wth) x = some wth'}
      rw [hset]
      by_cases hw : wth' = wth
      · subst hw
        have hnot : ev ∉ {x | s.evWth x = some wth'} := fun hx => hne hx rfl
        simpa [win32thrAdd] using (h.placed wth').add (Nat.zero_le _) hnot
      · have hsame : ∀ x ∈ {x | s.evWth x = some wth'},
            Function.update s.index ev (s.arrays wth).n x = s.index x :=
          fun x hx => Function.update_of_ne (hne hx) _ _
        simpa [win32thrAdd, hw] using (h.placed wth').congr_index hsame
    · intro wth' x hx
      change Function.update s.evWth ev (some wth) x = some wth' at hx
      show (Function.update s.arrays wth _ wth').handles
        (Function.update s.index ev (s.arrays wth).n x) = .object x
      by_cases hxe : x = ev
      · subst hxe
        obtain rfl : wth = wth' := by simpa using hx
        simp
      · rw [Function.update_of_ne hxe] at hx ⊢
        by_cases hw : wth' = wth
        · subst hw
          have hlt : s.index x < (s.arrays wth').n := (h.placed wth').lt x hx
          simpa [Nat.ne_of_lt hlt, Nat.ne_of_lt (Nat.lt_succ_of_lt hlt)] using h.object wth' x hx
        · simpa [hw] using h.object wth' x hx
    · intro wth'
      by_cases hw : wth' = wth
      · subst hw
        simp [win32thrAdd]
      · simpa [win32thrAdd, hw] using h.last wth'
    · intro wth'
      by_cases hw : wth' = wth
      · subst hw
        simpa [win32thrAdd] using Nat.succ_le_of_lt hn
      · simpa [win32thrAdd, hw] using h.bound wth'

/-- `win32thr_del` keeps the arrays in order. -/
theorem del (h : s.Recorded) (hev : s.evWth ev = some wth) : (s.win32thrDel wth ev).Recorded := by
  have hset : ∀ wth', {x | Function.update s.evWth ev none x = some wth'} =
      if wth' = wth then {x | s.evWth x = some wth'} \ {ev} else {x | s.evWth x = some wth'} := by
    intro wth'
    ext x
    by_cases hx : x = ev
    · subst hx
      by_cases hw : wth' = wth
      · simp [hw]
      · simp [hw, hev, Ne.symm hw]
    · by_cases hw : wth' = wth <;> simp [hx, hw]
  have hmem : ev ∈ {x | s.evWth x = some wth} := hev
  -- The place of the last event is told to that event only.
  have hsame : ∀ {wth'}, wth' ≠ wth → ∀ x ∈ {x | s.evWth x = some wth'},
      reindex (s.arrays wth).events s.index (s.index ev) ((s.arrays wth).n - 1) x = s.index x := by
    intro wth' hw x hx
    unfold reindex
    split
    · have hlt : (s.arrays wth).n - 1 < (s.arrays wth).n := Nat.sub_lt (h.pos hev) Nat.one_pos
      obtain ⟨m, hm, hslot, -⟩ := (h.placed wth).mem_slot _ (Nat.zero_le _) hlt
      rw [hslot, Option.elim_some]
      refine Function.update_of_ne ?_ _ _
      rintro rfl
      exact hw (Option.some.inj (hx.symm.trans hm))
    · rfl
  constructor
  · intro wth'
    show Placed _ (reindex _ _ _ _) 0 _ {x | Function.update s.evWth ev none x = some wth'}
    rw [hset]
    by_cases hw : wth' = wth
    · subst hw
      simpa [win32thrDel] using (h.placed wth').delete hmem
    · simpa [win32thrDel, hw] using (h.placed wth').congr_index (hsame hw)
  · intro wth' x hx
    change Function.update s.evWth ev none x = some wth' at hx
    have hxe : x ≠ ev := by
      rintro rfl
      simp at hx
    rw [Function.update_of_ne hxe] at hx
    by_cases hw : wth' = wth
    · subst hw
      have hlt := ((h.placed wth').delete hmem).lt x ⟨hx, hxe⟩
      have hobj := (h.placed wth').swapDel_match (b := (s.arrays wth').handles)
        (R := fun x hd => hd = .object x) (fun x hx => h.object wth' x hx) hmem x ⟨hx, hxe⟩
      simpa [win32thrDel, Nat.ne_of_lt hlt] using hobj
    · have hidx := hsame hw x hx
      simpa [win32thrDel, hw, hidx] using h.object wth' x hx
  · intro wth'
    by_cases hw : wth' = wth
    · subst hw
      simp [win32thrDel]
    · simpa [win32thrDel, hw] using h.last wth'
  · intro wth'
    by_cases hw : wth' = wth
    · subst hw
      simpa [win32thrDel] using Nat.le_trans (Nat.sub_le _ 1) (h.bound wth')
    · simpa [win32thrDel, hw] using h.bound wth'

omit [DecidableEq θ] in
theorem setReady {evs : List ε} (h : s.Recorded) : (s.setReady evs).Recorded :=
  ⟨h.placed, h.object, h.last, h.bound⟩

omit [DecidableEq ε] in
/-- A new record is empty. -/
theorem birth {w : θ} (h : s.Recorded) (hn : (s.arrays (some w)).n = 0) : (s.birth w).Recorded := by
  constructor
  · intro wth
    by_cases hw : wth = some w
    · subst hw
      have hno : ∀ ev, s.evWth ev ≠ some (some w) := fun ev => h.evWth_ne hn
      exact ⟨fun e he => absurd he (hno e), fun e he => absurd he (hno e),
        fun e he => absurd he (hno e),
        fun i _ hi => by simp [Win32Evq.birth, WthArrays.empty] at hi⟩
    · simpa [Win32Evq.birth, hw] using h.placed wth
  · intro wth ev hev
    have hw : wth ≠ some w := by
      rintro rfl
      exact h.evWth_ne hn hev
    simpa [Win32Evq.birth, hw] using h.object wth ev hev
  · intro wth
    by_cases hw : wth = some w
    · subst hw
      simp [Win32Evq.birth, WthArrays.empty]
    · simpa [Win32Evq.birth, hw] using h.last wth
  · intro wth
    by_cases hw : wth = some w
    · subst hw
      simp [Win32Evq.birth, WthArrays.empty]
    · simpa [Win32Evq.birth, hw] using h.bound wth

end Recorded

/-! ## The loop over the events of a record -/

/-- The events `found` of a record have become ready.  Those with `EVENT_ONESHOT` are in no
record any more. -/
structure Found (s s' : Win32Evq θ ε) (wth : Option θ) (found : List ε) : Prop where
  recorded : s'.Recorded
  same : s.SameThreads s'
  evReady : s'.evReady = found ++ s.evReady
  active : ∀ ev, s'.active ev = (s.active ev || decide (ev ∈ found))
  evWth : ∀ ev, s'.evWth ev = if ev ∈ found ∧ s.oneshot ev then none else s.evWth ev
  others : ∀ wth', wth' ≠ wth → s'.arrays wth' = s.arrays wth'

section
variable {s s₁ s₂ : Win32Evq θ ε} {wth : Option θ} {ev : ε} {f₁ f₂ : List ε}

omit [DecidableEq θ] [DecidableEq ε] in
theorem SameThreads.oneshot (h : s.SameThreads s₁) : s₁.oneshot = s.oneshot := by
  rw [SameThreads] at h
  rw [h]

omit [DecidableEq θ] in
theorem Found.refl (h : s.Recorded) : Found s s wth [] where
  recorded := h
  same := SameThreads.refl s
  evReady := rfl
  active ev := by simp
  evWth ev := by simp
  others _ _ := rfl

omit [DecidableEq θ] in
theorem Found.trans (h : Found s s₁ wth f₁) (h' : Found s₁ s₂ wth f₂) :
    Found s s₂ wth (f₂ ++ f₁) where
  recorded := h'.recorded
  same := h.same.trans h'.same
  evReady := by rw [h'.evReady, h.evReady, List.append_assoc]
  active ev := by
    rw [h'.active, h.active]
    by_cases h₁ : ev ∈ f₁ <;> by_cases h₂ : ev ∈ f₂ <;> simp [h₁, h₂]
  evWth ev := by
    rw [h'.evWth, h.evWth, h.same.oneshot]
    by_cases hone : s.oneshot ev
    · by_cases h₁ : ev ∈ f₁ <;> by_cases h₂ : ev ∈ f₂ <;> simp [h₁, h₂, hone]
    · simp [hone]
  others wth' hw := (h'.others wth' hw).trans (h.others wth' hw)

/-- An event of the record that is not active becomes ready. -/
theorem found_markReady (h : s.Recorded) (hev : s.evWth ev = some wth)
    (hactive : s.active ev = false) : Found s (s.markReady wth ev).1 wth [ev] := by
  unfold markReady
  rw [if_neg (by simp [hactive])]
  by_cases hone : s.oneshot ev
  · rw [if_pos hone]
    refine ⟨(h.del hev).setReady, sameThreads_del.trans sameThreads_setReady, rfl, fun x => rfl,
      fun x => ?_, fun wth' hw => ?_⟩
    · by_cases hx : x = ev
      · subst hx
        simp [hone]
      · simp [hx]
    · exact Function.update_of_ne hw _ _
  · rw [if_neg hone]
    refine ⟨h.setReady, sameThreads_setReady, rfl, fun x => rfl, fun x => ?_, fun _ _ => rfl⟩
    have hnot : ¬(x ∈ [ev] ∧ s.oneshot x = true) := by
      rintro ⟨hx, hxone⟩
      exact hone (List.mem_singleton.mp hx ▸ hxone)
    rw [if_neg hnot]
    rfl

/-- The event is at the place `i` or behind it, and the loop makes it ready. -/
def Ahead (s : Win32Evq θ ε) (wth : Option θ) (signalled res : ε → Bool) (first : Bool) (i : ℕ)
    (ev : ε) : Prop :=
  s.evWth ev = some wth ∧ i ≤ s.index ev ∧ (first = true ∧ s.index ev = i ∨ signalled ev) ∧
    res ev ∧ s.active ev = false

section
variable {signalled res : ε → Bool} {first : Bool} {i : ℕ} {e x : ε}

omit [DecidableEq θ] [DecidableEq ε] in
/-- Behind the event at the place `i` are all the others that are ahead. -/
theorem ahead_succ (h : s.Recorded) (he : s.evWth e = some wth) (hi : s.index e = i) (hx : x ≠ e) :
    s.Ahead wth signalled res false (i + 1) x ↔ s.Ahead wth signalled res first i x := by
  refine and_congr_right fun hxw => ?_
  have hidx : s.index x ≠ i := fun heq => hx ((h.placed wth).index_inj hxw he (heq.trans hi.symm))
  have hle : i + 1 ≤ s.index x ↔ i ≤ s.index x := by omega
  simp [hle, hidx]

omit [DecidableEq θ] [DecidableEq ε] in
theorem not_ahead_succ (hi : s.index e = i) : ¬s.Ahead wth signalled res false (i + 1) e := by
  rintro ⟨-, hle, -⟩
  omega

/-- When the event at the place `i` is ready, all the others are still ahead of the place that the
loop looks at next. -/
theorem ahead_markReady (h : s.Recorded) (he : s.evWth e = some wth) (hi : s.index e = i)
    (hactive : s.active e = false) (hx : x ≠ e) :
    (s.markReady wth e).1.Ahead wth signalled res false
        (if (s.markReady wth e).2 then i else i + 1) x ↔ s.Ahead wth signalled res first i x := by
  rw [← ahead_succ h he hi hx]
  unfold markReady
  rw [if_neg (by simp [hactive])]
  by_cases hone : s.oneshot e
  · rw [if_pos hone]
    dsimp only
    rw [if_pos rfl, Ahead, Ahead, setReady_evWth, win32thrDel_evWth, Function.update_of_ne hx]
    refine and_congr_right fun hxw => ?_
    have hidx : s.index x ≠ i := fun heq => hx ((h.placed wth).index_inj hxw he (heq.trans hi.symm))
    have hle : i ≤ reindex (s.arrays wth).events s.index (s.index e) ((s.arrays wth).n - 1) x ↔
        i + 1 ≤ s.index x := by
      rcases (h.placed wth).reindex_of_mem he hxw hx with ⟨hlast, heq⟩ | ⟨hlt, heq⟩
      · rw [heq]
        have hlt := (h.placed wth).lt e he
        omega
      · rw [heq]
        omega
    refine and_congr hle ?_
    simp [hx]
  · rw [if_neg hone]
    dsimp only
    rw [if_neg Bool.false_ne_true, Ahead, Ahead, setReady_evWth, setReady_index, setReady_active]
    simp [hx]

/-- The places that are left after an event has been made ready. -/
theorem markReady_left {k : ℕ} (hk : k + 1 = (s.arrays wth).n - i) (hactive : s.active e = false) :
    k = ((s.markReady wth e).1.arrays wth).n - (if (s.markReady wth e).2 then i else i + 1) := by
  unfold markReady
  rw [if_neg (by simp [hactive])]
  by_cases hone : s.oneshot e
  · rw [if_pos hone]
    show k = (Function.update s.arrays wth _ wth).n - i
    rw [Function.update_self]
    show k = (s.arrays wth).n - 1 - i
    omega
  · rw [if_neg hone]
    show k = (s.arrays wth).n - (i + 1)
    omega

end

/-- The loop makes ready, once, every event of the places ahead that has occurred and was not
active, however many of them are deleted on the way. -/
theorem scanFrom_spec {signalled res : ε → Bool} {k i : ℕ} (first : Bool) (h : s.Recorded)
    (hk : k = (s.arrays wth).n - i) :
    ∃ found, Found s (scanFrom wth signalled res k i first s) wth found ∧ found.Nodup ∧
      ∀ ev, ev ∈ found ↔ s.Ahead wth signalled res first i ev := by
  induction k generalizing s i first with
  | zero =>
      refine ⟨[], Found.refl h, List.nodup_nil, fun ev => ⟨nofun, ?_⟩⟩
      rintro ⟨hev, hi, -⟩
      have hlt : s.index ev < (s.arrays wth).n := (h.placed wth).lt ev hev
      omega
  | succ k ih =>
      have hin : i < (s.arrays wth).n := by omega
      obtain ⟨e, he, hslot, hindex⟩ := (h.placed wth).mem_slot i (Nat.zero_le i) hin
      -- The loop goes on behind an event that it does not make ready.
      have hskip : ¬s.Ahead wth signalled res first i e →
          ∃ found, Found s (scanFrom wth signalled res k (i + 1) false s) wth found ∧
            found.Nodup ∧ ∀ ev, ev ∈ found ↔ s.Ahead wth signalled res first i ev := by
        intro hnot
        obtain ⟨found, hfound, hnodup, hmem⟩ := ih (i := i + 1) false h (by omega)
        refine ⟨found, hfound, hnodup, fun x => (hmem x).trans ?_⟩
        by_cases hx : x = e
        · subst hx
          exact iff_of_false (not_ahead_succ hindex) hnot
        · exact ahead_succ h he hindex hx
      rw [scanFrom, hslot]
      dsimp only
      by_cases hhit : ((first || signalled e) && res e) = true
      · rw [if_pos hhit]
        have hocc : (first = true ∧ s.index e = i ∨ signalled e = true) ∧ res e = true := by
          simpa [hindex] using hhit
        cases hactive : s.active e with
        | true =>
            have hmark : s.markReady wth e = (s, false) := by simp [markReady, hactive]
            rw [hmark]
            exact hskip fun hahead => Bool.false_ne_true (hahead.2.2.2.2.symm.trans hactive)
        | false =>
            have hstep := found_markReady h he hactive
            obtain ⟨found, hfound, hnodup, hmem⟩ :=
              ih (s := (s.markReady wth e).1) false hstep.recorded (markReady_left hk hactive)
            have henot : e ∉ found := by
              intro hin
              have hoff := ((hmem e).mp hin).2.2.2.2
              rw [hstep.active] at hoff
              simp at hoff
            refine ⟨found ++ [e], hstep.trans hfound, ?_, fun x => ?_⟩
            · refine List.nodup_append.mpr ⟨hnodup, by simp, ?_⟩
              rintro a ha b hb rfl
              exact henot (List.mem_singleton.mp hb ▸ ha)
            · rw [List.mem_append, List.mem_singleton]
              by_cases hx : x = e
              · subst hx
                exact iff_of_true (.inr rfl)
                  ⟨he, Nat.le_of_eq hindex.symm, hocc.1, hocc.2, hactive⟩
              · rw [hmem x, ahead_markReady h he hindex hactive hx]
                exact or_iff_left hx
      · rw [if_neg hhit]
        refine hskip fun hahead => ?_
        obtain ⟨-, -, hocc, hres, -⟩ := hahead
        simp only [Bool.and_eq_true, Bool.or_eq_true, not_and] at hhit
        exact absurd hres (hhit (hocc.imp_left And.left))

/-- One round of the loop over the records keeps the arrays in order. -/
theorem Recorded.scanWth {signalled res : ε → Bool} {expired : List ε} (h : s.Recorded) :
    (s.scanWth wth signalled res expired).Recorded := by
  unfold Win32Evq.scanWth
  dsimp only
  split
  · exact h.setReady
  · obtain ⟨found, hfound, -⟩ := scanFrom_spec true h rfl
    exact hfound.recorded

/-- It makes events ready. -/
theorem Recorded.scanWth_ready (h : s.Recorded) (wth : Option θ) (signalled res : ε → Bool)
    (expired : List ε) :
    ∃ found, (s.scanWth wth signalled res expired).evReady = found ++ s.evReady ∧
      ∀ ev, (s.scanWth wth signalled res expired).active ev =
        (s.active ev || decide (ev ∈ found)) := by
  unfold Win32Evq.scanWth
  dsimp only
  split
  · exact ⟨expired, rfl, fun _ => rfl⟩
  · obtain ⟨found, hfound, -⟩ := scanFrom_spec true h rfl
    exact ⟨found, hfound.evReady, hfound.active⟩

/-- It does not touch the other records. -/
theorem scanWth_arrays_of_ne {signalled res : ε → Bool} {expired : List ε} {wth' : Option θ}
    (h : s.Recorded) (hne : wth' ≠ wth) :
    (s.scanWth wth signalled res expired).arrays wth' = s.arrays wth' := by
  unfold scanWth
  dsimp only
  split
  · rfl
  · obtain ⟨found, hfound, -⟩ := scanFrom_spec true h rfl
    exact hfound.others wth' hne

end

end Win32Evq

end LuaSys.Event
