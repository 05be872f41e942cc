import LuaSys.Thread.SchedRings

/-!
# Tasks that wait for events

A task waits by adding a one-shot event whose callback is its coroutine.  The loop of the
event queue finds the coroutine in its table of callbacks, and `sys_sched_event_ready`
finds the task on the stack of that coroutine: `sched_wait_obj` has yielded the scheduler,
the id of the task and the queue, and they stay in the first three slots of the stack
until the task is woken.

`sched_terminate` clears the stack.  It takes the callback away from the event only when
`sys_evq_sched_del` does, which returns at once for an event that is ready already or has
been deleted as a one-shot event.  The dispatch of such an event still finds the
coroutine, and the result of the event is now in the slot of the scheduler.

The model has the events and the additions of the scheduler; the other events of the queue
occupy slots that these cannot get.  The coroutine of a task is resumed by the scheduler
only.  The VM lock is held from one step to the next, and an operation of `levq_sync_process` is
one step: an `evq_add` in it that gives up the VM lock, because another thread waits in `evq_wait`,
is not modelled.

## Main definitions

* `WaitState` — a scheduler, the stacks of its coroutines, and its events.
* `WaitState.terminate`, `WaitState.syncProcess`, `WaitState.dispatch` — the functions of
  the source on both sides.
* `WaitOp`, `WaitState.step` — the steps.
* `WaitState.EventsReach` — the next dispatch is for the task that waits for the event.
* `WaitOp.Safe` — the condition on the state before a step.

## Main results

* `safe_run_eventsReach` — events reach their tasks in every run of safe steps.
* `terminated_ready_event` — a task that is terminated when its event is ready.
-/

namespace LuaSys.Thread

open LuaSys.Lib

/-- A scheduler and the events of its tasks. -/
structure WaitState where
  sched : Sched
  /-- `sched->cb_coctl`. -/
  coctl : Bool
  /-- `task->co`. -/
  co : ℕ → ℕ
  /-- The task id in the second slot of a coroutine, when the first one holds the scheduler
  and the third one the queue. -/
  slots : ℕ → Option ℕ
  /-- The coroutine of an event with `EVENT_CALLBACK_SCHED`. -/
  callback : ℕ → Option ℕ
  /-- `!event_deleted(ev)`. -/
  registered : ℕ → Bool
  /-- `EVENT_ACTIVE`. -/
  active : ℕ → Bool
  /-- `ev->next_ready` and `evq->ev_ready`. -/
  nextReady : ℕ → Option ℕ
  evReady : Option ℕ
  /-- The memory of the event is in use, for an event or for an operation. -/
  used : ℕ → Bool
  /-- The additions that a loop has still to process, and their field `L`. -/
  queued : ℕ → Bool
  opL : ℕ → Option ℕ

namespace WaitState

/-- The stack of the coroutine of a task changes. -/
def setSlots (s : WaitState) (task : ℕ) (slots : Option ℕ) : WaitState :=
  { s with slots := Function.update s.slots (s.co task) slots }

/-- `sched_task_del` clears the stack of the coroutine for the coroutines controller. -/
def clearDeleted (s : WaitState) (task : ℕ) : WaitState :=
  if s.coctl then s.setSlots task none else s

/-- The stack of a running task that calls `lua_yield`; the worker deletes a task that has
been asked to terminate. -/
def yieldSlots (s : WaitState) (task : ℕ) (canYield : Bool) (slots : Option ℕ) : WaitState :=
  if canYield ∧ s.sched.terminate task then (s.setSlots task slots).clearDeleted task
  else s.setSlots task slots

/-- `sched_put`; the arguments go to the stack of the coroutine. -/
def put (s : WaitState) (realloc : Bool) (co : ℕ) (slots : Option ℕ) : Option WaitState :=
  (s.sched.taskAlloc realloc).bind fun r =>
    (s.sched.schedPut realloc).map fun sched =>
      { s with
        sched := sched
        co := Function.update s.co r.1 co
        slots := Function.update s.slots co slots }

/-- `sched_loop` takes the first active task. -/
def take (s : WaitState) : Option WaitState :=
  s.sched.activeTaskId.bind fun task =>
    s.sched.loopTake.map fun sched =>
      let s' := if s.sched.terminate task then s.clearDeleted task else s.setSlots task none
      { s' with sched := sched }

/-- A running task yields, with values on its stack. -/
def yield (s : WaitState) (task : ℕ) (slots : Option ℕ) : Option WaitState :=
  if task ∈ s.sched.running then
    some { s.yieldSlots task true slots with sched := s.sched.loopYield task }
  else none

/-- The coroutine of a task ends, with its results or an error message on its stack. -/
def done (s : WaitState) (task : ℕ) (slots : Option ℕ) : Option WaitState :=
  if task ∈ s.sched.running then
    some { (s.setSlots task slots).clearDeleted task with sched := s.sched.loopDone task }
  else none

/-- `sched_suspend`. -/
def suspend (s : WaitState) (task : ℕ) (canYield : Bool) : Option WaitState :=
  (s.sched.schedSuspend task canYield).map fun sched =>
    { s.yieldSlots task canYield none with sched := sched }

/-- `sched_resume`; the arguments replace what is on the stack. -/
def resume (s : WaitState) (task : ℕ) (slots : Option ℕ) : Option WaitState :=
  (s.sched.schedResume task).map fun sched => { s.setSlots task slots with sched := sched }

/-- A new event has the coroutine as its callback. -/
def addEvent (s : WaitState) (ev c : ℕ) : WaitState :=
  { s with
    callback := Function.update s.callback ev (some c)
    registered := Function.update s.registered ev true
    active := Function.update s.active ev false
    used := Function.update s.used ev true }

/-- `sched_wait_obj` when `sys_evq_sched_add` adds the event. -/
def wait (s : WaitState) (task ev : ℕ) (canYield : Bool) : Option WaitState :=
  if s.used ev = false then
    (s.sched.schedEventAdd task (.added ev) canYield).map fun sched =>
      { (s.addEvent ev (s.co task)).yieldSlots task canYield (some task) with sched := sched }
  else none

/-- `sched_wait_obj` when `sys_evq_sched_add` leaves the addition to the loop. -/
def waitQueued (s : WaitState) (task op : ℕ) (canYield : Bool) : Option WaitState :=
  if s.used op = false then
    (s.sched.schedEventAdd task (.pending op) canYield).map fun sched =>
      { s.yieldSlots task canYield (some task) with
        sched := sched
        used := Function.update s.used op true
        queued := Function.update s.queued op true
        opL := Function.update s.opL op (some (s.co task)) }
  else none

/-- `sched_wait_obj` when `sys_evq_sched_add` fails. -/
def waitFails (s : WaitState) (task : ℕ) (canYield : Bool) : Option WaitState :=
  (s.sched.schedEventAdd task .fails canYield).map fun sched =>
    { s.yieldSlots task canYield none with sched := sched }

/-- `levq_sync_process` frees the memory of an operation. -/
def freeOp (s : WaitState) (op : ℕ) : WaitState :=
  { s with
    used := Function.update s.used op false
    queued := Function.update s.queued op false
    opL := Function.update s.opL op none }

/-- An operation in `levq_sync_process`, with the event that the called function adds;
`none` when it goes through a pointer that is not to the scheduler. -/
def syncProcess (s : WaitState) (op : ℕ) (res : Option ℕ) : Option WaitState :=
  if s.queued op then
    match s.opL op with
    | none => some (s.freeOp op)
    | some c =>
        (s.slots c).bind fun task =>
          if s.sched.checkTaskId task then
            match res with
            | some ev =>
                if (s.freeOp op).used ev = false then
                  some { (s.freeOp op).addEvent ev c with
                    sched := s.sched.eventAdded task (some ev) }
                else none
            | none =>
                some { s.freeOp op with
                  sched := s.sched.eventAdded task none
                  slots := if s.sched.suspended task then Function.update s.slots c none else s.slots }
          else none
  else none

/-- The called function raises an error: the operation is lost. -/
def syncRaises (s : WaitState) (op : ℕ) : Option WaitState :=
  if s.queued op ∧ s.opL op ≠ none then some (s.freeOp op) else none

/-- An event becomes the first one in the list of the ready ones. -/
def pushReady (s : WaitState) (ev : ℕ) : WaitState :=
  { s with
    active := Function.update s.active ev true
    nextReady := Function.update s.nextReady ev s.evReady
    evReady := some ev }

/-- A descriptor or a notification activates an event; some backends delete a one-shot
event here. -/
def activate (s : WaitState) (ev : ℕ) (deleted : Bool) : Option WaitState :=
  if s.registered ev ∧ s.active ev = false then
    some { s.pushReady ev with registered := Function.update s.registered ev (!deleted) }
  else none

/-- `timeout_process` activates an event, and does not look whether it is active. -/
def expire (s : WaitState) (ev : ℕ) : Option WaitState :=
  if s.registered ev then some (s.pushReady ev) else none

/-- `sys_evq_sched_del`. -/
def evqSchedDel (s : WaitState) (evOp : ℕ) (evAdded : Bool) : WaitState :=
  if evAdded then
    if s.registered evOp = false ∨ s.active evOp then s
    else { s.pushReady evOp with callback := Function.update s.callback evOp none }
  else { s with opL := Function.update s.opL evOp none }

/-- `sched_terminate`; `none` is the error when the queue is not in its slot. -/
def terminate (s : WaitState) (task : ℕ) : Option WaitState :=
  if s.sched.checkTaskId task then
    match s.sched.evOp task with
    | none => some { s with sched := s.sched.schedTerminate task }
    | some evOp =>
        if s.slots (s.co task) = none then none
        else
          some { (s.evqSchedDel evOp (s.sched.evAdded task)).setSlots task none with
            sched := s.sched.schedTerminate task }
  else some s

/-- The first ready event leaves the list and is deleted. -/
def popReady (s : WaitState) (ev : ℕ) : WaitState :=
  { s with
    evReady := s.nextReady ev
    active := Function.update s.active ev false
    registered := Function.update s.registered ev false
    callback := Function.update s.callback ev none
    used := Function.update s.used ev false }

/-- `sys_evq_loop` processes the first ready event; `none` when `sys_sched_event_ready`
goes through a pointer that is not to the scheduler. -/
def dispatch (s : WaitState) : Option WaitState :=
  s.evReady.bind fun ev =>
    match s.callback ev with
    | none => some (s.popReady ev)
    | some c =>
        (s.slots c).bind fun task =>
          if s.sched.checkTaskId task then
            some { s.popReady ev with
              sched := s.sched.eventReady task (some ev)
              slots :=
                if s.sched.evOp task = some ev then Function.update s.slots c none else s.slots }
          else none

end WaitState

/-! ## Steps -/

/-- The steps of a run. -/
inductive WaitOp
  | put (realloc : Bool) (co : ℕ) (slots : Option ℕ)
  | take
  | yield (task : ℕ) (slots : Option ℕ)
  | done (task : ℕ) (slots : Option ℕ)
  | suspend (task : ℕ) (canYield : Bool)
  | resume (task : ℕ) (slots : Option ℕ)
  | wait (task ev : ℕ) (canYield : Bool)
  | waitQueued (task op : ℕ) (canYield : Bool)
  | waitFails (task : ℕ) (canYield : Bool)
  | syncProcess (op : ℕ) (res : Option ℕ)
  | syncRaises (op : ℕ)
  | activate (ev : ℕ) (deleted : Bool)
  | expire (ev : ℕ)
  | terminate (task : ℕ)
  | dispatch

namespace WaitState

/-- One step; `none` when it does not apply, raises an error or is undefined. -/
def step (s : WaitState) : WaitOp → Option WaitState
  | .put realloc co slots => s.put realloc co slots
  | .take => s.take
  | .yield task slots => s.yield task slots
  | .done task slots => s.done task slots
  | .suspend task canYield => s.suspend task canYield
  | .resume task slots => s.resume task slots
  | .wait task ev canYield => s.wait task ev canYield
  | .waitQueued task op canYield => s.waitQueued task op canYield
  | .waitFails task canYield => s.waitFails task canYield
  | .syncProcess op res => s.syncProcess op res
  | .syncRaises op => s.syncRaises op
  | .activate ev deleted => s.activate ev deleted
  | .expire ev => s.expire ev
  | .terminate task => s.terminate task
  | .dispatch => s.dispatch

/-- A new scheduler with a queue without events. -/
def init (coctl : Bool) : WaitState where
  sched := Sched.init
  coctl := coctl
  co _ := 0
  slots _ := none
  callback _ := none
  registered _ := false
  active _ := false
  nextReady _ := none
  evReady := none
  used _ := false
  queued _ := false
  opL _ := none

/-- The transitions of a run. -/
def Step (s s' : WaitState) : Prop := ∃ op, s.step op = some s'

/-! ## The property -/

/-- The coroutine belongs to a task that waits for the event, and its stack says so; the
dispatch makes this task active and no other one. -/
def Delivers (s : WaitState) (ev c : ℕ) : Prop :=
  ∃ task s' active free, s.sched.checkTaskId task ∧ s.sched.live task = true ∧ s.co task = c ∧
    s.sched.evOp task = some ev ∧ s.slots c = some task ∧ s.dispatch = some s' ∧
    s.sched.TaskInv active free ∧ s'.sched.TaskInv (active ++ [task]) free

/-- The dispatch is defined and leaves the scheduler alone. -/
def Drops (s : WaitState) : Prop := ∃ s', s.dispatch = some s' ∧ s'.sched = s.sched

/-- The dispatch of the next ready event reaches the task that waits for it, or is
dropped. -/
def EventsReach (s : WaitState) : Prop :=
  ∀ ev, s.evReady = some ev → (s.callback ev = none → s.Drops) ∧
    ∀ c, s.callback ev = some c → s.Delivers ev c ∨ s.Drops

end WaitState

/-! ## What the tasks wait for -/

namespace Sched

/-- The tasks wait for the same events, and no task begins to live. -/
structure SameWaits (s s' : Sched) : Prop where
  bufIdx : s'.bufIdx = s.bufIdx
  evOp : s'.evOp = s.evOp
  evAdded : s'.evAdded = s.evAdded
  live : ∀ t, s'.live t = true → s.live t = true

variable {s s' s'' : Sched} {task : ℕ}

theorem SameWaits.trans (h : SameWaits s s') (h' : SameWaits s' s'') : SameWaits s s'' :=
  ⟨h'.bufIdx.trans h.bufIdx, h'.evOp.trans h.evOp, h'.evAdded.trans h.evAdded,
    fun t ht => h.live t (h'.live t ht)⟩

/-- The other fields do not matter. -/
theorem SameWaits.before (h : SameWaits s' s'') (hidx : s'.bufIdx = s.bufIdx) (hev : s'.evOp = s.evOp)
    (hadded : s'.evAdded = s.evAdded) (hlive : s'.live = s.live) : SameWaits s s'' :=
  ⟨h.bufIdx.trans hidx, h.evOp.trans hev, h.evAdded.trans hadded, fun t ht => hlive ▸ h.live t ht⟩

theorem sameWaits_tasklistAdd (s : Sched) (list : Option ℕ) (task : ℕ) :
    SameWaits s (s.tasklistAdd list task).1 := by
  cases list <;> exact ⟨rfl, rfl, rfl, fun _ ht => ht⟩

theorem sameWaits_tasklistDel (s : Sched) (list : Option ℕ) (task : ℕ) :
    SameWaits s (s.tasklistDel list task).1 := by
  unfold tasklistDel
  split <;> exact ⟨rfl, rfl, rfl, fun _ ht => ht⟩

theorem sameWaits_addActive (s : Sched) (task : ℕ) : SameWaits s (s.addActive task) := by
  have h := sameWaits_tasklistAdd s s.activeTaskId task
  exact ⟨h.bufIdx, h.evOp, h.evAdded, h.live⟩

theorem sameWaits_taskDel (s : Sched) (task : ℕ) : SameWaits s (s.taskDel task) := by
  have h := sameWaits_tasklistAdd s s.freeTaskId task
  refine ⟨h.bufIdx, h.evOp, h.evAdded, fun t ht => ?_⟩
  exact (update_false_eq ht).2

theorem sameWaits_loopDone (s : Sched) (task : ℕ) : SameWaits s (s.loopDone task) := by
  have h := sameWaits_taskDel { s with running := s.running.erase task } task
  exact ⟨h.bufIdx, h.evOp, h.evAdded, h.live⟩

theorem sameWaits_loopYield (s : Sched) (task : ℕ) : SameWaits s (s.loopYield task) := by
  unfold loopYield
  split
  · exact sameWaits_loopDone s task
  · dsimp only
    split
    · exact ⟨rfl, rfl, rfl, fun _ ht => ht⟩
    · have h := sameWaits_addActive { s with running := s.running.erase task } task
      exact ⟨h.bufIdx, h.evOp, h.evAdded, h.live⟩

theorem sameWaits_luaYield (s : Sched) (task : ℕ) (canYield : Bool) :
    SameWaits s (s.luaYield task canYield) := by
  cases canYield with
  | true => exact sameWaits_loopYield s task
  | false => exact ⟨rfl, rfl, rfl, fun _ ht => ht⟩

theorem sameWaits_loopTake (hrun : s.loopTake = some s') : SameWaits s s' := by
  obtain ⟨task, -, heq⟩ := Option.map_eq_some_iff.mp hrun
  rw [← heq]
  have h := sameWaits_tasklistDel s s.activeTaskId task
  dsimp only
  split
  · exact h.trans ((sameWaits_taskDel _ task).before rfl rfl rfl rfl)
  · exact ⟨h.bufIdx, h.evOp, h.evAdded, h.live⟩

theorem sameWaits_schedSuspend {canYield : Bool} (hrun : s.schedSuspend task canYield = some s') :
    SameWaits s s' := by
  obtain ⟨-, heq⟩ := Option.ite_none_right_eq_some.mp hrun
  rw [← Option.some.inj heq]
  exact (sameWaits_luaYield _ task canYield).before rfl rfl rfl rfl

theorem sameWaits_schedResume (hrun : s.schedResume task = some s') : SameWaits s s' := by
  obtain ⟨-, heq⟩ := Option.ite_none_right_eq_some.mp hrun
  rw [← Option.some.inj heq]
  have h := sameWaits_addActive s task
  exact ⟨h.bufIdx, h.evOp, h.evAdded, h.live⟩

/-- A task waits for an event or an operation. -/
def setWait (s : Sched) (task : ℕ) (evOp : Option ℕ) (evAdded : Bool) : Sched :=
  { s with
    evOp := Function.update s.evOp task evOp
    evAdded := Function.update s.evAdded task evAdded }

theorem sameWaits_eventReady {ev : ℕ} (hev : s.evOp task = some ev) :
    SameWaits (s.setWait task none false) (s.eventReady task (some ev)) := by
  simp only [eventReady, hev, ne_eq, not_true, if_false]
  exact (sameWaits_addActive _ task).before rfl rfl rfl rfl

theorem sameWaits_schedTerminate_none (hev : s.evOp task = none) :
    SameWaits s (s.schedTerminate task) := by
  unfold schedTerminate
  split
  · dsimp only
    split
    · simp only [evOp_addActive, hev, ne_eq, not_true, if_false]
      exact (sameWaits_addActive _ task).before rfl rfl rfl rfl
    · simp only [hev, ne_eq, not_true, if_false]
      exact ⟨rfl, rfl, rfl, fun _ ht => ht⟩
  · exact ⟨rfl, rfl, rfl, fun _ ht => ht⟩

theorem sameWaits_schedTerminate {x : ℕ} (hlt : s.checkTaskId task) (hev : s.evOp task = some x) :
    SameWaits (s.setWait task none false) (s.schedTerminate task) := by
  unfold schedTerminate
  rw [if_pos hlt]
  dsimp only
  split
  · simp only [evOp_addActive, hev, ne_eq, reduceCtorEq, not_false_eq_true, if_true]
    have h := sameWaits_addActive { s with
      terminate := Function.update s.terminate task true
      suspended := Function.update s.suspended task false } task
    exact ⟨h.bufIdx, rfl, congrArg (Function.update · task false) h.evAdded, h.live⟩
  · simp only [hev, ne_eq, reduceCtorEq, not_false_eq_true, if_true]
    exact ⟨rfl, rfl, rfl, fun _ ht => ht⟩

theorem sameWaits_eventAdded_some (s : Sched) (task ev : ℕ) :
    SameWaits (s.setWait task (some ev) true) (s.eventAdded task (some ev)) := by
  simp only [eventAdded, reduceCtorEq, false_and, if_false]
  exact ⟨rfl, rfl, rfl, fun _ ht => ht⟩

theorem sameWaits_eventAdded_none (hsus : s.suspended task = true) :
    SameWaits (s.setWait task none false) (s.eventAdded task none) := by
  simp only [eventAdded, hsus, and_self, if_true, eventReady, Function.update_self, ne_eq, not_true,
    if_false, Function.update_idem]
  exact (sameWaits_addActive _ task).before rfl rfl rfl rfl

theorem sameWaits_schedEventAdd_fails {canYield : Bool}
    (hrun : s.schedEventAdd task .fails canYield = some s') : SameWaits s s' := by
  obtain ⟨-, heq⟩ := Option.ite_none_right_eq_some.mp hrun
  rw [← Option.some.inj heq]
  exact sameWaits_luaYield s task canYield

theorem sameWaits_schedEventAdd_added {ev : ℕ} {canYield : Bool}
    (hrun : s.schedEventAdd task (.added ev) canYield = some s') :
    SameWaits (s.setWait task (some ev) true) s' := by
  obtain ⟨-, heq⟩ := Option.ite_none_right_eq_some.mp hrun
  rw [← Option.some.inj heq]
  simp only [schedEventAdd.added, eventAdded, reduceCtorEq, false_and, if_false, Function.update_self,
    Bool.true_eq_false]
  exact (sameWaits_luaYield _ task canYield).before rfl rfl rfl rfl

theorem sameWaits_schedEventAdd_pending {op : ℕ} {canYield : Bool} (hidle : s.evAdded task = false)
    (hrun : s.schedEventAdd task (.pending op) canYield = some s') :
    SameWaits (s.setWait task (some op) false) s' := by
  obtain ⟨-, heq⟩ := Option.ite_none_right_eq_some.mp hrun
  rw [← Option.some.inj heq]
  have hsame : Function.update s.evAdded task false = s.evAdded := by
    rw [← hidle, Function.update_eq_self]
  simp only [schedEventAdd.added, hidle, if_true]
  exact (sameWaits_luaYield _ task canYield).before rfl rfl hsame.symm rfl

/-- A task that waits is suspended, and lives. -/
theorem Sound.live_of_waits (h : s.Sound) {x : ℕ} (hlt : task < s.bufIdx) (hev : s.evOp task = some x) :
    s.suspended task = true ∧ s.live task = true := by
  obtain ⟨active, free, h⟩ := h
  have hsus := h.evOp_suspended task hlt (by simp [hev])
  exact ⟨hsus, (h.suspended_live task hlt hsus).1⟩

theorem Sound.evOp_of_running (h : s.Sound) (hrun : task ∈ s.running) :
    task < s.bufIdx ∧ s.live task = true ∧ s.evOp task = none := by
  obtain ⟨active, free, h⟩ := h
  obtain ⟨hlt, hlive, -⟩ := h.running_live task hrun
  exact ⟨hlt, hlive, h.evOp_none hlt (h.loose_of_running hrun).awake⟩

/-- The first active task lives and waits for nothing. -/
theorem Sound.evOp_of_head (h : s.Sound) (hhead : s.activeTaskId = some task) :
    task < s.bufIdx ∧ s.live task = true ∧ s.evOp task = none := by
  obtain ⟨active, free, h⟩ := h
  obtain ⟨active', p, n, head, -, h₁, ht⟩ := h.takeHead hhead
  exact ⟨ht.lt, ht.live, h₁.evOp_none ht.lt ht.awake⟩

/-- The new task waited for nothing, and the tasks before it stay. -/
theorem Sound.taskAlloc (h : s.Sound) {realloc : Bool} (halloc : s.taskAlloc realloc = some (task, s')) :
    s'.evOp = s.evOp ∧ s'.evAdded = s.evAdded ∧ s'.live = s.live ∧ task < s'.bufIdx ∧
      s.bufIdx ≤ s'.bufIdx ∧ (∀ t < s'.bufIdx, t ≠ task → t < s.bufIdx) ∧
      (task < s.bufIdx → s.evOp task = none) := by
  obtain ⟨active, free, h⟩ := h
  unfold Sched.taskAlloc at halloc
  cases hhead : s.freeTaskId with
  | some t =>
      simp only [hhead, Option.some.injEq, Prod.mk.injEq] at halloc
      obtain ⟨rfl, rfl⟩ := halloc
      have hring := h.freeRing
      rw [hhead] at hring
      have hmem : t ∈ free := hring.head_mem
      have hsame := sameWaits_tasklistDel s (some t) t
      have hlive : (s.tasklistDel (some t) t).1.live = s.live := by
        unfold tasklistDel
        split <;> rfl
      have hidx : (s.tasklistDel (some t) t).1.bufIdx = s.bufIdx := hsame.bufIdx
      have hlt : t < s.bufIdx := h.free_lt t hmem
      refine ⟨hsame.evOp, hsame.evAdded, hlive, hidx ▸ hlt, hidx.ge, fun x hx _ => hidx ▸ hx, fun _ => ?_⟩
      by_contra hne
      have := (h.suspended_live t hlt (h.evOp_suspended t hlt hne)).1
      simp [h.free_live t hmem] at this
  | none =>
      have hnew : ∀ t < s.bufIdx + 1, t ≠ s.bufIdx → t < s.bufIdx := fun t _ _ => by omega
      simp only [hhead] at halloc
      split at halloc
      · obtain ⟨-, heq⟩ := Option.ite_none_right_eq_some.mp halloc
        obtain ⟨rfl, rfl⟩ := Prod.mk.inj (Option.some.inj heq)
        exact ⟨rfl, rfl, rfl, Nat.lt_succ_self _, Nat.le_succ _, hnew, fun hlt => absurd hlt (lt_irrefl _)⟩
      · obtain ⟨rfl, rfl⟩ := Prod.mk.inj (Option.some.inj halloc)
        exact ⟨rfl, rfl, rfl, Nat.lt_succ_self _, Nat.le_succ _, hnew, fun hlt => absurd hlt (lt_irrefl _)⟩

/-- A task that waits is woken without its event. -/
theorem Sound.forget (h : s.Sound) (task : ℕ) : (s.setWait task none false).Sound := by
  obtain ⟨active, free, h⟩ := h
  exact ⟨active, free, h.withFlags h.suspended_live fun t hlt hne =>
    h.evOp_suspended t hlt (update_none_ne hne).2⟩

end Sched

/-! ## The invariant -/

namespace WaitState

/-- A task waits for an event, or for an operation that adds it. -/
structure Waits (s : WaitState) (task x : ℕ) (added : Bool) : Prop where
  lt : task < s.sched.bufIdx
  evOp : s.sched.evOp task = some x
  evAdded : s.sched.evAdded task = added

/-- The tasks that wait, their stacks, and the callbacks belong together. -/
structure Linked (s : WaitState) : Prop where
  sound : s.sched.Sound
  coInj : ∀ t t', t < s.sched.bufIdx → t' < s.sched.bufIdx → s.sched.live t = true →
    s.sched.live t' = true → s.co t = s.co t' → t = t'
  idle : ∀ t < s.sched.bufIdx, s.sched.evOp t = none → s.sched.evAdded t = false
  stack : ∀ t x a, s.Waits t x a → s.slots (s.co t) = some t
  event : ∀ t x, s.Waits t x true →
    s.callback x = some (s.co t) ∧ s.used x = true ∧ s.queued x = false
  operation : ∀ t x, s.Waits t x false → s.queued x = true ∧ s.opL x = some (s.co t)
  callback_owner : ∀ x c, s.callback x = some c → ∃ t, s.Waits t x true ∧ s.co t = c
  operation_owner : ∀ x c, s.queued x = true → s.opL x = some c → ∃ t, s.Waits t x false ∧ s.co t = c
  queued_used : ∀ x, s.queued x = true → s.used x = true

variable {s s' : WaitState} {task x : ℕ} {added : Bool}

namespace Linked

theorem live_of_waits (h : Linked s) (hw : s.Waits task x added) : s.sched.live task = true :=
  (h.sound.live_of_waits hw.lt hw.evOp).2

/-- The coroutines of two tasks that live are different. -/
theorem co_ne (h : Linked s) {t : ℕ} (hw : s.Waits t x added) (hlt : task < s.sched.bufIdx)
    (hlive : s.sched.live task = true) (hne : t ≠ task) : s.co t ≠ s.co task := fun heq =>
  hne (h.coInj t task hw.lt hlt (h.live_of_waits hw) hlive heq)

/-- One task waits for an event. -/
theorem waits_unique (h : Linked s) {t : ℕ} {a : Bool} (hw : s.Waits task x added)
    (hw' : s.Waits t x a) : t = task := by
  have hco : s.co t = s.co task := by
    cases added with
    | true =>
        cases a with
        | true => exact Option.some.inj ((h.event t x hw').1.symm.trans (h.event task x hw).1)
        | false =>
            have := (h.event task x hw).2.2
            simp [(h.operation t x hw').1] at this
    | false =>
        cases a with
        | true =>
            have := (h.event t x hw').2.2
            simp [(h.operation task x hw).1] at this
        | false => exact Option.some.inj ((h.operation t x hw').2.symm.trans (h.operation task x hw).2)
  exact h.coInj t task hw'.lt hw.lt (h.live_of_waits hw') (h.live_of_waits hw) hco

/-- Nobody waits for what is not in use. -/
theorem used_of_waits (h : Linked s) (hw : s.Waits task x added) : s.used x = true := by
  cases added with
  | true => exact (h.event task x hw).2.1
  | false => exact h.queued_used x (h.operation task x hw).1

/-- An operation has no callback. -/
theorem callback_of_queued (h : Linked s) (hqueued : s.queued x = true) : s.callback x = none := by
  by_contra hne
  obtain ⟨c, hc⟩ := Option.ne_none_iff_exists'.mp hne
  obtain ⟨t, hw, -⟩ := h.callback_owner x c hc
  have := (h.event t x hw).2.2
  simp [hqueued] at this

theorem not_queued_of_unused (h : Linked s) (hfree : s.used x = false) : s.queued x = false := by
  by_contra hq
  have := h.queued_used x (by simpa using hq)
  simp [hfree] at this

/-- The tasks that live have lived before, with the same coroutines. -/
theorem coInj_of (h : Linked s) (hidx : s'.sched.bufIdx = s.sched.bufIdx)
    (hlive : ∀ t, s'.sched.live t = true → s.sched.live t = true) (hco : s'.co = s.co) :
    ∀ t t', t < s'.sched.bufIdx → t' < s'.sched.bufIdx → s'.sched.live t = true →
      s'.sched.live t' = true → s'.co t = s'.co t' → t = t' := by
  intro t t' ht ht' hl hl' heq
  rw [hidx] at ht ht'
  rw [hco] at heq
  exact h.coInj t t' ht ht' (hlive t hl) (hlive t' hl') heq

/-- No task begins or ceases to wait. -/
theorem same (h : Linked s) (hsched : Sched.SameWaits s.sched s'.sched) (hsound : s'.sched.Sound)
    (hco : s'.co = s.co)
    (hwaited : ∀ t y a, s.Waits t y a → s'.slots (s.co t) = s.slots (s.co t) ∧
      s'.callback y = s.callback y ∧ s'.used y = s.used y ∧ s'.queued y = s.queued y ∧
      s'.opL y = s.opL y)
    (hcallback : ∀ y c, s'.callback y = some c → s.callback y = some c)
    (hop : ∀ y c, s'.queued y = true → s'.opL y = some c → s.queued y = true ∧ s.opL y = some c)
    (hqueued : ∀ y, s'.queued y = true → s'.used y = true) : Linked s' := by
  have hwaits : ∀ t y a, s'.Waits t y a ↔ s.Waits t y a := by
    intro t y a
    refine ⟨fun hw => ⟨?_, ?_, ?_⟩, fun hw => ⟨?_, ?_, ?_⟩⟩
    · exact hsched.bufIdx ▸ hw.lt
    · exact hsched.evOp ▸ hw.evOp
    · exact hsched.evAdded ▸ hw.evAdded
    · exact hsched.bufIdx.symm ▸ hw.lt
    · exact hsched.evOp.symm ▸ hw.evOp
    · exact hsched.evAdded.symm ▸ hw.evAdded
  refine ⟨hsound, h.coInj_of hsched.bufIdx hsched.live hco, ?_, ?_, ?_, ?_, ?_, ?_, hqueued⟩
  · rw [hsched.bufIdx, hsched.evOp, hsched.evAdded]
    exact h.idle
  · intro t y a hw
    rw [hwaits] at hw
    rw [hco, (hwaited t y a hw).1]
    exact h.stack t y a hw
  · intro t y hw
    rw [hwaits] at hw
    obtain ⟨-, hc, hu, hq, -⟩ := hwaited t y true hw
    rw [hc, hu, hq, hco]
    exact h.event t y hw
  · intro t y hw
    rw [hwaits] at hw
    obtain ⟨-, -, -, hq, ho⟩ := hwaited t y false hw
    rw [hq, ho, hco]
    exact h.operation t y hw
  · intro y c hc
    obtain ⟨t, hw, rfl⟩ := h.callback_owner y c (hcallback y c hc)
    exact ⟨t, (hwaits t y true).mpr hw, by rw [hco]⟩
  · intro y c hq hc
    obtain ⟨hq, hc⟩ := hop y c hq hc
    obtain ⟨t, hw, rfl⟩ := h.operation_owner y c hq hc
    exact ⟨t, (hwaits t y false).mpr hw, by rw [hco]⟩

/-- The scheduler moves a task that waits for nothing, and the stack of this task may
change. -/
theorem keep (h : Linked s) {sched : Sched} {f : ℕ → Option ℕ}
    (hsched : Sched.SameWaits s.sched sched) (hsound : sched.Sound) (hlt : task < s.sched.bufIdx)
    (hlive : s.sched.live task = true) (hev : s.sched.evOp task = none)
    (hslots : ∀ c, c ≠ s.co task → f c = s.slots c) : Linked { s with sched := sched, slots := f } := by
  refine h.same hsched hsound rfl (fun t y a hw => ⟨hslots _ ?_, rfl, rfl, rfl, rfl⟩)
    (fun _ _ hc => hc) (fun _ _ hq hc => ⟨hq, hc⟩) h.queued_used
  refine h.co_ne hw hlt hlive ?_
  rintro rfl
  have := hw.evOp
  simp [hev] at this

/-- A task ceases to wait. -/
theorem stop (h : Linked s) (hw : s.Waits task x added)
    (hsched : Sched.SameWaits (s.sched.setWait task none false) s'.sched) (hsound : s'.sched.Sound)
    (hco : s'.co = s.co) (hslots : ∀ c, c ≠ s.co task → s'.slots c = s.slots c)
    (hother : ∀ y, y ≠ x → s'.callback y = s.callback y ∧ s'.used y = s.used y ∧
      s'.queued y = s.queued y ∧ s'.opL y = s.opL y)
    (hcallback : s'.callback x = none)
    (hop : s'.queued x = true → s'.used x = true ∧ s'.opL x = none) : Linked s' := by
  have hlive := h.live_of_waits hw
  have hevOp : s'.sched.evOp = Function.update s.sched.evOp task none := hsched.evOp
  have hevAdded : s'.sched.evAdded = Function.update s.sched.evAdded task false := hsched.evAdded
  have hidx : s'.sched.bufIdx = s.sched.bufIdx := hsched.bufIdx
  have hwaits : ∀ t y a, s'.Waits t y a ↔ t ≠ task ∧ s.Waits t y a := by
    intro t y a
    constructor
    · intro hw'
      have hev := hw'.evOp
      have hadd := hw'.evAdded
      have hlt := hw'.lt
      rw [hevOp] at hev
      have hne : t ≠ task := (Sched.update_none_ne (by rw [hev]; simp)).1
      rw [Function.update_of_ne hne] at hev
      rw [hevAdded, Function.update_of_ne hne] at hadd
      exact ⟨hne, hidx ▸ hlt, hev, hadd⟩
    · rintro ⟨hne, hw'⟩
      refine ⟨hidx ▸ hw'.lt, ?_, ?_⟩
      · rw [hevOp, Function.update_of_ne hne]
        exact hw'.evOp
      · rw [hevAdded, Function.update_of_ne hne]
        exact hw'.evAdded
  have hother' : ∀ {t y a}, t ≠ task ∧ s.Waits t y a → y ≠ x := by
    rintro t y a ⟨hne, hw'⟩ rfl
    exact hne (h.waits_unique hw hw')
  refine ⟨hsound, h.coInj_of hidx hsched.live hco, ?_, ?_, ?_, ?_, ?_, ?_, ?_⟩
  · intro t ht hev
    rw [hidx] at ht
    by_cases hte : t = task
    · rw [hevAdded, hte, Function.update_self]
    · rw [hevOp, Function.update_of_ne hte] at hev
      rw [hevAdded, Function.update_of_ne hte]
      exact h.idle t ht hev
  · intro t y a hw'
    rw [hwaits] at hw'
    rw [hco, hslots _ (h.co_ne hw'.2 hw.lt hlive hw'.1)]
    exact h.stack t y a hw'.2
  · intro t y hw'
    rw [hwaits] at hw'
    obtain ⟨hc, hu, hq, -⟩ := hother y (hother' hw')
    rw [hc, hu, hq, hco]
    exact h.event t y hw'.2
  · intro t y hw'
    rw [hwaits] at hw'
    obtain ⟨-, -, hq, ho⟩ := hother y (hother' hw')
    rw [hq, ho, hco]
    exact h.operation t y hw'.2
  · intro y c hc
    by_cases hy : y = x
    · rw [hy, hcallback] at hc
      cases hc
    · rw [(hother y hy).1] at hc
      obtain ⟨t, hw', rfl⟩ := h.callback_owner y c hc
      refine ⟨t, (hwaits t y true).mpr ⟨?_, hw'⟩, by rw [hco]⟩
      rintro rfl
      exact hy (Option.some.inj (hw'.evOp.symm.trans hw.evOp))
  · intro y c hq hc
    by_cases hy : y = x
    · subst hy
      rw [(hop hq).2] at hc
      cases hc
    · obtain ⟨-, -, hq', ho⟩ := hother y hy
      rw [hq'] at hq
      rw [ho] at hc
      obtain ⟨t, hw', rfl⟩ := h.operation_owner y c hq hc
      refine ⟨t, (hwaits t y false).mpr ⟨?_, hw'⟩, by rw [hco]⟩
      rintro rfl
      exact hy (Option.some.inj (hw'.evOp.symm.trans hw.evOp))
  · intro y hq
    by_cases hy : y = x
    · subst hy
      exact (hop hq).1
    · obtain ⟨-, hu, hq', -⟩ := hother y hy
      rw [hq'] at hq
      rw [hu]
      exact h.queued_used y hq

/-- A task that waits for nothing begins to wait for something that is not in use. -/
theorem start (h : Linked s) (hlt : task < s.sched.bufIdx) (hlive : s.sched.live task = true)
    (hidle : s.sched.evOp task = none) (hfree : s.used x = false)
    (hsched : Sched.SameWaits (s.sched.setWait task (some x) added) s'.sched)
    (hsound : s'.sched.Sound) (hco : s'.co = s.co)
    (hslots : ∀ c, c ≠ s.co task → s'.slots c = s.slots c) (hself : s'.slots (s.co task) = some task)
    (hother : ∀ y, y ≠ x → s'.callback y = s.callback y ∧ s'.used y = s.used y ∧
      s'.queued y = s.queued y ∧ s'.opL y = s.opL y)
    (hused : s'.used x = true)
    (hevent : added = true → s'.callback x = some (s.co task) ∧ s'.queued x = false)
    (hop : added = false →
      s'.callback x = none ∧ s'.queued x = true ∧ s'.opL x = some (s.co task)) : Linked s' := by
  have hevOp : s'.sched.evOp = Function.update s.sched.evOp task (some x) := hsched.evOp
  have hevAdded : s'.sched.evAdded = Function.update s.sched.evAdded task added := hsched.evAdded
  have hidx : s'.sched.bufIdx = s.sched.bufIdx := hsched.bufIdx
  have hnew : s'.Waits task x added := by
    refine ⟨hidx.symm ▸ hlt, ?_, ?_⟩
    · rw [hevOp, Function.update_self]
    · rw [hevAdded, Function.update_self]
  have hold : ∀ {t y a}, s.Waits t y a → t ≠ task ∧ y ≠ x := by
    intro t y a hw
    constructor
    · rintro rfl
      have := hw.evOp
      simp [hidle] at this
    · rintro rfl
      have := h.used_of_waits hw
      simp [hfree] at this
  have hkeep : ∀ {t y a}, s.Waits t y a → s'.Waits t y a := by
    intro t y a hw
    have hne := (hold hw).1
    refine ⟨hidx.symm ▸ hw.lt, ?_, ?_⟩
    · rw [hevOp, Function.update_of_ne hne]
      exact hw.evOp
    · rw [hevAdded, Function.update_of_ne hne]
      exact hw.evAdded
  have hwaits : ∀ {t y a}, s'.Waits t y a → (t = task ∧ y = x ∧ a = added) ∨ s.Waits t y a := by
    intro t y a hw
    by_cases hte : t = task
    · subst hte
      exact .inl ⟨rfl, Option.some.inj (hw.evOp.symm.trans hnew.evOp),
        hw.evAdded.symm.trans hnew.evAdded⟩
    · have hev := hw.evOp
      have hadd := hw.evAdded
      rw [hevOp, Function.update_of_ne hte] at hev
      rw [hevAdded, Function.update_of_ne hte] at hadd
      exact .inr ⟨hidx ▸ hw.lt, hev, hadd⟩
  refine ⟨hsound, h.coInj_of hidx hsched.live hco, ?_, ?_, ?_, ?_, ?_, ?_, ?_⟩
  · intro t ht hev
    rw [hidx] at ht
    have hte : t ≠ task := by
      rintro rfl
      rw [hevOp, Function.update_self] at hev
      cases hev
    rw [hevOp, Function.update_of_ne hte] at hev
    rw [hevAdded, Function.update_of_ne hte]
    exact h.idle t ht hev
  · intro t y a hw
    rw [hco]
    rcases hwaits hw with ⟨rfl, -, -⟩ | hw
    · exact hself
    · rw [hslots _ (h.co_ne hw hlt hlive (hold hw).1)]
      exact h.stack t y a hw
  · intro t y hw
    rw [hco]
    rcases hwaits hw with ⟨rfl, rfl, hadd⟩ | hw
    · obtain ⟨hc, hq⟩ := hevent hadd.symm
      exact ⟨hc, hused, hq⟩
    · obtain ⟨hc, hu, hq, -⟩ := hother y (hold hw).2
      rw [hc, hu, hq]
      exact h.event t y hw
  · intro t y hw
    rw [hco]
    rcases hwaits hw with ⟨rfl, rfl, hadd⟩ | hw
    · exact (hop hadd.symm).2
    · obtain ⟨-, -, hq, ho⟩ := hother y (hold hw).2
      rw [hq, ho]
      exact h.operation t y hw
  · intro y c hc
    rw [hco]
    by_cases hy : y = x
    · subst hy
      cases added with
      | true => exact ⟨task, hnew, Option.some.inj ((hevent rfl).1.symm.trans hc)⟩
      | false =>
          rw [(hop rfl).1] at hc
          cases hc
    · rw [(hother y hy).1] at hc
      obtain ⟨t, hw, heq⟩ := h.callback_owner y c hc
      exact ⟨t, hkeep hw, heq⟩
  · intro y c hq hc
    rw [hco]
    by_cases hy : y = x
    · subst hy
      cases added with
      | true =>
          rw [(hevent rfl).2] at hq
          cases hq
      | false => exact ⟨task, hnew, Option.some.inj ((hop rfl).2.2.symm.trans hc)⟩
    · obtain ⟨-, -, hq', ho⟩ := hother y hy
      rw [hq'] at hq
      rw [ho] at hc
      obtain ⟨t, hw, heq⟩ := h.operation_owner y c hq hc
      exact ⟨t, hkeep hw, heq⟩
  · intro y hq
    by_cases hy : y = x
    · rw [hy]
      exact hused
    · obtain ⟨-, hu, hq', -⟩ := hother y hy
      rw [hq'] at hq
      rw [hu]
      exact h.queued_used y hq

end Linked

/-- The ready events are in use and marked, and an operation has no event. -/
structure ReadyList (s : WaitState) (l : List ℕ) : Prop where
  path : Path some s.nextReady s.evReady l none
  ready : ∀ y ∈ l, s.active y = true ∧ s.used y = true ∧ s.queued y = false
  registered : ∀ y, s.registered y = true → s.used y = true ∧ s.queued y = false

namespace ReadyList

variable {l : List ℕ}

theorem not_mem_of_unused (h : ReadyList s l) (hfree : s.used x = false) : x ∉ l := fun hmem => by
  have := (h.ready x hmem).2.1
  simp [hfree] at this

theorem not_registered (h : ReadyList s l) (hfree : s.used x = false) : s.registered x = false := by
  by_contra hreg
  have := (h.registered x (by simpa using hreg)).1
  simp [hfree] at this

/-- An event becomes ready. -/
theorem push (h : ReadyList s l) (hreg : s.registered x = true) (hidle : s.active x = false) :
    ReadyList (s.pushReady x) (x :: l) := by
  have hnot : x ∉ l := fun hmem => by
    have := (h.ready x hmem).1
    simp [hidle] at this
  refine ⟨⟨rfl, ?_⟩, fun y hy => ?_, h.registered⟩
  · show Path some (Function.update s.nextReady x s.evReady)
      (Function.update s.nextReady x s.evReady x) l none
    rw [Function.update_self]
    refine (path_congr fun y hy => ?_).mp h.path
    rw [Function.update_of_ne (ne_of_mem_of_not_mem hy hnot)]
  · rcases List.mem_cons.mp hy with rfl | hy
    · exact ⟨Function.update_self .., h.registered y hreg⟩
    · obtain ⟨ha, hu⟩ := h.ready y hy
      refine ⟨?_, hu⟩
      exact (Function.update_of_ne (ne_of_mem_of_not_mem hy hnot) _ _).trans ha

/-- The memory outside of the list changes its use. -/
theorem outside (h : ReadyList s l) (hnot : x ∉ l) (hnext : s'.nextReady = s.nextReady)
    (hhead : s'.evReady = s.evReady)
    (hother : ∀ y, y ≠ x → s'.active y = s.active y ∧ s'.used y = s.used y ∧
      s'.queued y = s.queued y ∧ s'.registered y = s.registered y)
    (hreg : s'.registered x = true → s'.used x = true ∧ s'.queued x = false) : ReadyList s' l := by
  refine ⟨?_, fun y hy => ?_, fun y hy => ?_⟩
  · rw [hnext, hhead]
    exact h.path
  · obtain ⟨ha, hu, hq, -⟩ := hother y (ne_of_mem_of_not_mem hy hnot)
    rw [ha, hu, hq]
    exact h.ready y hy
  · by_cases hyx : y = x
    · subst hyx
      exact hreg hy
    · obtain ⟨-, hu, hq, hr⟩ := hother y hyx
      rw [hr] at hy
      rw [hu, hq]
      exact h.registered y hy

/-- An event is added. -/
theorem addEvent (h : ReadyList s l) {c : ℕ} (hfree : s.used x = false) (hqueued : s.queued x = false) :
    ReadyList (s.addEvent x c) l := by
  refine h.outside (h.not_mem_of_unused hfree) rfl rfl (fun y hy => ?_) fun _ => ⟨?_, hqueued⟩
  · exact ⟨Function.update_of_ne hy _ _, Function.update_of_ne hy _ _, rfl, Function.update_of_ne hy _ _⟩
  · exact Function.update_self ..

/-- An operation is freed. -/
theorem freeOp (h : ReadyList s l) (hqueued : s.queued x = true) : ReadyList (s.freeOp x) l := by
  have hnot : x ∉ l := fun hmem => by
    have := (h.ready x hmem).2.2
    simp [hqueued] at this
  refine h.outside hnot rfl rfl (fun y hy => ?_) fun hreg => ?_
  · exact ⟨rfl, Function.update_of_ne hy _ _, Function.update_of_ne hy _ _, rfl⟩
  · have := (h.registered x hreg).2
    simp [hqueued] at this

/-- The first ready event is deleted. -/
theorem pop (h : ReadyList s l) (hhead : s.evReady = some x) :
    ∃ l', l = x :: l' ∧ ReadyList (s.popReady x) l' := by
  obtain ⟨path, ready, reg⟩ := h
  cases l with
  | nil =>
      rw [path_nil, hhead] at path
      cases path
  | cons y l =>
      obtain ⟨hy, hl⟩ := path
      obtain rfl : x = y := Option.some.inj (hhead.symm.trans hy)
      have hnd : (x :: l).Nodup := Path.nodup (p := some x) ⟨rfl, hl⟩
      have hnot : x ∉ l := (List.nodup_cons.mp hnd).1
      refine ⟨l, rfl, hl, fun y hy => ?_, fun y hy => ?_⟩
      · obtain ⟨ha, hu, hq⟩ := ready y (List.mem_cons_of_mem _ hy)
        have hne : y ≠ x := ne_of_mem_of_not_mem hy hnot
        exact ⟨(Function.update_of_ne hne _ _).trans ha, (Function.update_of_ne hne _ _).trans hu, hq⟩
      · obtain ⟨hne, hold⟩ := Sched.update_false_eq hy
        obtain ⟨hu, hq⟩ := reg y hold
        exact ⟨(Function.update_of_ne hne _ _).trans hu, hq⟩

end ReadyList

/-- Both parts of the invariant. -/
def Inv (s : WaitState) : Prop := s.Linked ∧ ∃ l, s.ReadyList l

/-! ## Steps keep the invariant -/

theorem clearDeleted_eq (s : WaitState) (task : ℕ) :
    ∃ f, s.clearDeleted task = { s with slots := f } ∧ ∀ c, c ≠ s.co task → f c = s.slots c := by
  unfold clearDeleted
  split
  · exact ⟨_, rfl, fun c hc => Function.update_of_ne hc _ _⟩
  · exact ⟨_, rfl, fun _ _ => rfl⟩

theorem yieldSlots_eq (s : WaitState) (task : ℕ) (canYield : Bool) (slots : Option ℕ) :
    ∃ f, s.yieldSlots task canYield slots = { s with slots := f } ∧
      (∀ c, c ≠ s.co task → f c = s.slots c) ∧
      (s.sched.terminate task = false → f (s.co task) = slots) := by
  unfold yieldSlots
  split
  · next hterm =>
    obtain ⟨f, heq, hf⟩ := clearDeleted_eq (s.setSlots task slots) task
    refine ⟨f, heq, fun c hc => ?_, fun hno => ?_⟩
    · exact (hf c hc).trans (Function.update_of_ne hc _ _)
    · simp [hno] at hterm
  · exact ⟨_, rfl, fun c hc => Function.update_of_ne hc _ _, fun _ => Function.update_self ..⟩

theorem init_inv (coctl : Bool) : (init coctl).Inv := by
  refine ⟨⟨Sched.init_sound, ?_, ?_, ?_, ?_, ?_, ?_, ?_, ?_⟩, [], rfl, ?_, ?_⟩
  · exact fun t t' ht => absurd ht (Nat.not_lt_zero t)
  · exact fun t ht => absurd ht (Nat.not_lt_zero t)
  · exact fun t x a hw => absurd hw.lt (Nat.not_lt_zero t)
  · exact fun t x hw => absurd hw.lt (Nat.not_lt_zero t)
  · exact fun t x hw => absurd hw.lt (Nat.not_lt_zero t)
  all_goals simp [init]

namespace Linked

theorem put (h : Linked s) {realloc : Bool} {c : ℕ} {slots : Option ℕ}
    (hsafe : ∀ t < s.sched.bufIdx, s.sched.live t = true → s.co t ≠ c)
    (hrun : s.put realloc c slots = some s') : Linked s' := by
  obtain ⟨⟨task, s₁⟩, halloc, hrun⟩ := Option.bind_eq_some_iff.mp hrun
  obtain ⟨sched, hput, heq⟩ := Option.map_eq_some_iff.mp hrun
  have hsound := h.sound.schedPut hput
  obtain ⟨hev, hadd, hlive, hlt, hle, hidx, hidle⟩ := h.sound.taskAlloc halloc
  rw [Sched.schedPut, halloc, Option.map_some] at hput
  have hsame := Sched.sameWaits_addActive (s₁.taskClear task) task
  have hsched : sched.bufIdx = s₁.bufIdx ∧ sched.evOp = Function.update s.sched.evOp task none ∧
      sched.evAdded = Function.update s.sched.evAdded task false ∧
      sched.live = Function.update s.sched.live task true := by
    rw [← Option.some.inj hput]
    refine ⟨hsame.bufIdx, hsame.evOp.trans ?_, hsame.evAdded.trans ?_, ?_⟩
    · rw [← hev]
      rfl
    · rw [← hadd]
      rfl
    · show Function.update ((s₁.taskClear task).addActive task).live task true = _
      rw [Sched.live_addActive, ← hlive]
      rfl
  obtain ⟨hbuf, hevOp, hevAdded, hlive'⟩ := hsched
  subst heq
  have hwaits : ∀ {t y a}, s.Waits t y a → t ≠ task := by
    rintro t y a hw rfl
    have := hw.evOp
    simp [hidle hw.lt] at this
  have hco : ∀ {t y a}, s.Waits t y a →
      Function.update s.co task c t = s.co t ∧ s.co t ≠ c := fun {t y a} hw =>
    ⟨Function.update_of_ne (hwaits hw) _ _, hsafe t hw.lt (h.live_of_waits hw)⟩
  have hkeep : ∀ {t y a}, s.Waits t y a → Waits { s with
      sched := sched, co := Function.update s.co task c, slots := Function.update s.slots c slots }
      t y a := by
    intro t y a hw
    refine ⟨?_, ?_, ?_⟩
    · show t < sched.bufIdx
      rw [hbuf]
      exact lt_of_lt_of_le hw.lt hle
    · show sched.evOp t = some y
      rw [hevOp, Function.update_of_ne (hwaits hw)]
      exact hw.evOp
    · show sched.evAdded t = a
      rw [hevAdded, Function.update_of_ne (hwaits hw)]
      exact hw.evAdded
  have hback : ∀ {t y a}, Waits { s with
      sched := sched, co := Function.update s.co task c, slots := Function.update s.slots c slots }
      t y a → s.Waits t y a := by
    intro t y a hw
    have hev' : sched.evOp t = some y := hw.evOp
    have hadd' : sched.evAdded t = a := hw.evAdded
    have hlt' : t < sched.bufIdx := hw.lt
    rw [hevOp] at hev'
    have hne : t ≠ task := (Sched.update_none_ne (by rw [hev']; simp)).1
    rw [Function.update_of_ne hne] at hev'
    rw [hevAdded, Function.update_of_ne hne] at hadd'
    rw [hbuf] at hlt'
    exact ⟨hidx t hlt' hne, hev', hadd'⟩
  -- A task other than the new one was there before.
  have hold : ∀ t, t < sched.bufIdx → sched.live t = true → t ≠ task →
      t < s.sched.bufIdx ∧ s.sched.live t = true := by
    intro t ht hl hne
    rw [hlive', Function.update_of_ne hne] at hl
    exact ⟨hidx t (hbuf ▸ ht) hne, hl⟩
  refine ⟨hsound, ?_, ?_, ?_, ?_, ?_, ?_, ?_, h.queued_used⟩
  · intro t t' ht ht' hl hl' hcc
    have hcc' : Function.update s.co task c t = Function.update s.co task c t' := hcc
    by_cases hte : t = task
    · by_cases hte' : t' = task
      · rw [hte, hte']
      · obtain ⟨hlt', hl''⟩ := hold t' ht' hl' hte'
        rw [hte, Function.update_self, Function.update_of_ne hte'] at hcc'
        exact absurd hcc'.symm (hsafe t' hlt' hl'')
    · obtain ⟨hlt₀, hl₀⟩ := hold t ht hl hte
      rw [Function.update_of_ne hte] at hcc'
      by_cases hte' : t' = task
      · rw [hte', Function.update_self] at hcc'
        exact absurd hcc' (hsafe t hlt₀ hl₀)
      · obtain ⟨hlt', hl''⟩ := hold t' ht' hl' hte'
        rw [Function.update_of_ne hte'] at hcc'
        exact h.coInj t t' hlt₀ hlt' hl₀ hl'' hcc'
  · intro t ht hnone
    show sched.evAdded t = false
    have hnone' : sched.evOp t = none := hnone
    by_cases hte : t = task
    · rw [hevAdded, hte, Function.update_self]
    · rw [hevOp, Function.update_of_ne hte] at hnone'
      rw [hevAdded, Function.update_of_ne hte]
      exact h.idle t (hidx t (hbuf ▸ ht) hte) hnone'
  · intro t y a hw
    obtain ⟨hc, hne⟩ := hco (hback hw)
    show Function.update s.slots c slots (Function.update s.co task c t) = some t
    rw [hc, Function.update_of_ne hne]
    exact h.stack t y a (hback hw)
  · intro t y hw
    show s.callback y = some (Function.update s.co task c t) ∧ _
    rw [(hco (hback hw)).1]
    exact h.event t y (hback hw)
  · intro t y hw
    show _ ∧ s.opL y = some (Function.update s.co task c t)
    rw [(hco (hback hw)).1]
    exact h.operation t y (hback hw)
  · intro y c' hc
    obtain ⟨t, hw, heq⟩ := h.callback_owner y c' hc
    exact ⟨t, hkeep hw, (hco hw).1.trans heq⟩
  · intro y c' hq hc
    obtain ⟨t, hw, heq⟩ := h.operation_owner y c' hq hc
    exact ⟨t, hkeep hw, (hco hw).1.trans heq⟩

end Linked

namespace Inv

/-- The scheduler moves a task that waits for nothing. -/
theorem keep (h : Inv s) {sched : Sched} {f : ℕ → Option ℕ}
    (hsched : Sched.SameWaits s.sched sched) (hsound : sched.Sound)
    (hidle : task < s.sched.bufIdx ∧ s.sched.live task = true ∧ s.sched.evOp task = none)
    (hslots : ∀ c, c ≠ s.co task → f c = s.slots c) : Inv { s with sched := sched, slots := f } := by
  obtain ⟨hlinked, l, hl⟩ := h
  exact ⟨hlinked.keep hsched hsound hidle.1 hidle.2.1 hidle.2.2 hslots, l, hl.path, hl.ready,
    hl.registered⟩

/-- A running task calls `lua_yield`. -/
theorem yielded (h : Inv s) {sched : Sched} {canYield : Bool} {slots : Option ℕ}
    (hrun : task ∈ s.sched.running) (hsched : Sched.SameWaits s.sched sched) (hsound : sched.Sound) :
    Inv { s.yieldSlots task canYield slots with sched := sched } := by
  obtain ⟨f, heq, hf, -⟩ := yieldSlots_eq s task canYield slots
  rw [heq]
  exact h.keep hsched hsound (h.1.sound.evOp_of_running hrun) hf

theorem put (h : Inv s) {realloc : Bool} {c : ℕ} {slots : Option ℕ}
    (hsafe : ∀ t < s.sched.bufIdx, s.sched.live t = true → s.co t ≠ c)
    (hrun : s.put realloc c slots = some s') : Inv s' := by
  obtain ⟨hlinked, l, hl⟩ := h
  refine ⟨hlinked.put hsafe hrun, l, ?_⟩
  obtain ⟨r, -, hrun⟩ := Option.bind_eq_some_iff.mp hrun
  obtain ⟨sched, -, rfl⟩ := Option.map_eq_some_iff.mp hrun
  exact ⟨hl.path, hl.ready, hl.registered⟩

theorem take (h : Inv s) (hrun : s.take = some s') : Inv s' := by
  obtain ⟨task, hhead, hrun⟩ := Option.bind_eq_some_iff.mp hrun
  obtain ⟨sched, htake, rfl⟩ := Option.map_eq_some_iff.mp hrun
  have hidle := h.1.sound.evOp_of_head hhead
  have hsched := Sched.sameWaits_loopTake htake
  have hsound := h.1.sound.loopTake htake
  by_cases hterm : s.sched.terminate task = true
  · obtain ⟨f, heq, hf⟩ := clearDeleted_eq s task
    simp only [hterm, if_true, heq]
    exact h.keep hsched hsound hidle hf
  · simp only [hterm]
    exact h.keep hsched hsound hidle fun c hc => Function.update_of_ne hc _ _

theorem yield (h : Inv s) {slots : Option ℕ} (hrun : s.yield task slots = some s') : Inv s' := by
  obtain ⟨hat, heq⟩ := Option.ite_none_right_eq_some.mp hrun
  rw [← Option.some.inj heq]
  exact h.yielded hat (Sched.sameWaits_loopYield s.sched task) (h.1.sound.loopYield hat)

theorem done (h : Inv s) {slots : Option ℕ} (hrun : s.done task slots = some s') : Inv s' := by
  obtain ⟨hat, heq⟩ := Option.ite_none_right_eq_some.mp hrun
  obtain ⟨f, hclear, hf⟩ := clearDeleted_eq (s.setSlots task slots) task
  rw [← Option.some.inj heq, hclear]
  exact h.keep (Sched.sameWaits_loopDone s.sched task) (h.1.sound.loopDone hat)
    (h.1.sound.evOp_of_running hat) fun c hc => (hf c hc).trans (Function.update_of_ne hc _ _)

theorem suspend (h : Inv s) {canYield : Bool}
    (hsafe : s.sched.terminate task = false ∧ canYield = true)
    (hrun : s.suspend task canYield = some s') : Inv s' := by
  obtain ⟨sched, hsus, rfl⟩ := Option.map_eq_some_iff.mp hrun
  obtain ⟨hat, -⟩ := Option.ite_none_right_eq_some.mp hsus
  exact h.yielded hat.1 (Sched.sameWaits_schedSuspend hsus) (h.1.sound.schedSuspend hsafe hsus)

theorem resume (h : Inv s) {slots : Option ℕ} (hrun : s.resume task slots = some s') : Inv s' := by
  obtain ⟨sched, hres, rfl⟩ := Option.map_eq_some_iff.mp hrun
  obtain ⟨⟨hlt, hsus, hev⟩, -⟩ := Option.ite_none_right_eq_some.mp hres
  obtain ⟨active, free, hinv⟩ := h.1.sound
  have hlive := (hinv.suspended_live task hlt hsus).1
  exact h.keep (Sched.sameWaits_schedResume hres) (h.1.sound.schedResume hres) ⟨hlt, hlive, hev⟩
    fun c hc => Function.update_of_ne hc _ _

theorem waitFails (h : Inv s) {canYield : Bool} (hrun : s.waitFails task canYield = some s') :
    Inv s' := by
  obtain ⟨sched, hadd, rfl⟩ := Option.map_eq_some_iff.mp hrun
  obtain ⟨hat, -⟩ := Option.ite_none_right_eq_some.mp hadd
  exact h.yielded hat (Sched.sameWaits_schedEventAdd_fails hadd)
    (h.1.sound.schedEventAdd (fun hne => absurd rfl hne) hadd)

theorem wait (h : Inv s) {ev : ℕ} {canYield : Bool}
    (hsafe : s.sched.terminate task = false ∧ canYield = true)
    (hrun : s.wait task ev canYield = some s') : Inv s' := by
  obtain ⟨hlinked, l, hl⟩ := h
  obtain ⟨hfree, hrun⟩ := Option.ite_none_right_eq_some.mp hrun
  obtain ⟨sched, hadd, rfl⟩ := Option.map_eq_some_iff.mp hrun
  obtain ⟨hat, -⟩ := Option.ite_none_right_eq_some.mp hadd
  obtain ⟨hlt, hlive, hidle⟩ := hlinked.sound.evOp_of_running hat
  have hqueued := hlinked.not_queued_of_unused hfree
  obtain ⟨f, heq, hf, hself⟩ := yieldSlots_eq (s.addEvent ev (s.co task)) task canYield (some task)
  rw [heq]
  constructor
  · refine hlinked.start hlt hlive hidle hfree (Sched.sameWaits_schedEventAdd_added hadd)
      (hlinked.sound.schedEventAdd (fun _ => hsafe) hadd) rfl hf (hself hsafe.1) (fun y hy => ?_) ?_
      (fun _ => ⟨?_, hqueued⟩) fun hno => ?_
    · exact ⟨Function.update_of_ne hy _ _, Function.update_of_ne hy _ _, rfl, rfl⟩
    · exact Function.update_self ..
    · exact Function.update_self ..
    · cases hno
  · have hl' := hl.addEvent (c := s.co task) hfree hqueued
    exact ⟨l, hl'.path, hl'.ready, hl'.registered⟩

theorem waitQueued (h : Inv s) {op : ℕ} {canYield : Bool}
    (hsafe : s.sched.terminate task = false ∧ canYield = true)
    (hrun : s.waitQueued task op canYield = some s') : Inv s' := by
  obtain ⟨hlinked, l, hl⟩ := h
  obtain ⟨hfree, hrun⟩ := Option.ite_none_right_eq_some.mp hrun
  obtain ⟨sched, hadd, rfl⟩ := Option.map_eq_some_iff.mp hrun
  obtain ⟨hat, -⟩ := Option.ite_none_right_eq_some.mp hadd
  obtain ⟨hlt, hlive, hidle⟩ := hlinked.sound.evOp_of_running hat
  have hsched := Sched.sameWaits_schedEventAdd_pending (hlinked.idle task hlt hidle) hadd
  obtain ⟨f, heq, hf, hself⟩ := yieldSlots_eq s task canYield (some task)
  rw [heq]
  constructor
  · refine hlinked.start hlt hlive hidle hfree hsched
      (hlinked.sound.schedEventAdd (fun _ => hsafe) hadd) rfl hf (hself hsafe.1) (fun y hy => ?_) ?_
      (fun hno => ?_) fun _ => ⟨?_, ?_, ?_⟩
    · exact ⟨rfl, Function.update_of_ne hy _ _, Function.update_of_ne hy _ _,
        Function.update_of_ne hy _ _⟩
    · exact Function.update_self ..
    · cases hno
    · by_contra hne
      obtain ⟨c, hc⟩ := Option.ne_none_iff_exists'.mp hne
      obtain ⟨t, hw, -⟩ := hlinked.callback_owner op c hc
      have := hlinked.used_of_waits hw
      simp [hfree] at this
    · exact Function.update_self ..
    · exact Function.update_self ..
  · refine ⟨l, hl.outside (hl.not_mem_of_unused hfree) rfl rfl (fun y hy => ?_) fun hreg => ?_⟩
    · exact ⟨rfl, Function.update_of_ne hy _ _, Function.update_of_ne hy _ _, rfl⟩
    · have hreg' : s.registered op = true := hreg
      simp [hl.not_registered hfree] at hreg'

theorem syncProcess (h : Inv s) {op : ℕ} {res : Option ℕ} (hrun : s.syncProcess op res = some s') :
    Inv s' := by
  obtain ⟨hlinked, l, hl⟩ := h
  obtain ⟨hqueued, hrun⟩ := Option.ite_none_right_eq_some.mp hrun
  have hl' := hl.freeOp hqueued
  cases hop : s.opL op with
  | none =>
      simp only [hop, Option.some.injEq] at hrun
      rw [← hrun]
      refine ⟨hlinked.same ⟨rfl, rfl, rfl, fun _ ht => ht⟩ hlinked.sound rfl (fun t y a hw => ?_)
        (fun _ _ hc => hc) (fun y c hq hc => ?_) fun y hq => ?_, l, hl'⟩
      · have hy : y ≠ op := by
          rintro rfl
          cases a with
          | true =>
              have := (hlinked.event t y hw).2.2
              simp [hqueued] at this
          | false =>
              have := (hlinked.operation t y hw).2
              simp [hop] at this
        exact ⟨rfl, rfl, Function.update_of_ne hy _ _, Function.update_of_ne hy _ _,
          Function.update_of_ne hy _ _⟩
      · obtain ⟨hy, hq'⟩ := Sched.update_false_eq hq
        exact ⟨hq', (Function.update_of_ne hy _ _).symm.trans hc⟩
      · obtain ⟨hy, hq'⟩ := Sched.update_false_eq hq
        exact (Function.update_of_ne hy _ _).trans (hlinked.queued_used y hq')
  | some c =>
      obtain ⟨task, hw, rfl⟩ := hlinked.operation_owner op c hqueued hop
      have hstack := hlinked.stack task op false hw
      have hlt : s.sched.checkTaskId task := hw.lt
      have hev : s.sched.evOp task ≠ none := by simp [hw.evOp]
      have hcallback := hlinked.callback_of_queued hqueued
      simp only [hop, hstack, Option.bind_some, if_pos hlt] at hrun
      have hother : ∀ y, y ≠ op → s.callback y = s.callback y ∧ (s.freeOp op).used y = s.used y ∧
          (s.freeOp op).queued y = s.queued y ∧ (s.freeOp op).opL y = s.opL y := fun y hy =>
        ⟨rfl, Function.update_of_ne hy _ _, Function.update_of_ne hy _ _, Function.update_of_ne hy _ _⟩
      have hfreed : (s.freeOp op).queued op = true → (s.freeOp op).used op = true ∧
          (s.freeOp op).opL op = none := fun hq => by simp [WaitState.freeOp] at hq
      cases res with
      | none =>
          obtain ⟨hsus, hlive⟩ := hlinked.sound.live_of_waits hw.lt hw.evOp
          simp only [hsus, if_true, Option.some.injEq] at hrun
          rw [← hrun]
          refine ⟨hlinked.stop hw (Sched.sameWaits_eventAdded_none hsus)
            (hlinked.sound.eventAdded hw.lt hev none) rfl (fun c hc => Function.update_of_ne hc _ _)
            hother hcallback hfreed, l, hl'.path, hl'.ready, hl'.registered⟩
      | some ev =>
          obtain ⟨hfree, heq⟩ := Option.ite_none_right_eq_some.mp hrun
          rw [← Option.some.inj heq]
          -- The task ceases to wait for the operation, and begins to wait for the event.
          have hstop : Linked { s.freeOp op with sched := s.sched.setWait task none false } :=
            hlinked.stop hw ⟨rfl, rfl, rfl, fun _ ht => ht⟩ (hlinked.sound.forget task) rfl
              (fun _ _ => rfl) hother hcallback hfreed
          have hq := hstop.not_queued_of_unused hfree
          have hsched : Sched.SameWaits ((s.sched.setWait task none false).setWait task (some ev) true)
              (s.sched.eventAdded task (some ev)) := by
            refine (Sched.sameWaits_eventAdded_some s.sched task ev).before rfl ?_ ?_ rfl
            · exact (Function.update_idem _ _ _).symm
            · exact (Function.update_idem _ _ _).symm
          constructor
          · refine hstop.start hw.lt (hlinked.live_of_waits hw) (Function.update_self ..) hfree hsched
              (hlinked.sound.eventAdded hw.lt hev (some ev)) rfl (fun _ _ => rfl) hstack (fun y hy => ?_)
              (Function.update_self ..) (fun _ => ⟨Function.update_self .., hq⟩) fun hno => ?_
            · exact ⟨Function.update_of_ne hy _ _, Function.update_of_ne hy _ _, rfl, rfl⟩
            · cases hno
          · have hl'' := hl'.addEvent (c := s.co task) hfree hq
            exact ⟨l, hl''.path, hl''.ready, hl''.registered⟩

/-- An event becomes ready. -/
theorem push (h : Inv s) {ev : ℕ} {reg : ℕ → Bool} (hreg : s.registered ev = true)
    (hidle : s.active ev = false) (hle : ∀ y, reg y = true → s.registered y = true) :
    Inv { s.pushReady ev with registered := reg } := by
  obtain ⟨hlinked, l, hl⟩ := h
  have hl' := hl.push hreg hidle
  refine ⟨hlinked.same ⟨rfl, rfl, rfl, fun _ ht => ht⟩ hlinked.sound rfl
    (fun _ _ _ _ => ⟨rfl, rfl, rfl, rfl, rfl⟩) (fun _ _ hc => hc) (fun _ _ hq hc => ⟨hq, hc⟩)
    hlinked.queued_used, ev :: l, hl'.path, hl'.ready, fun y hy => hl'.registered y (hle y hy)⟩

theorem activate (h : Inv s) {ev : ℕ} {deleted : Bool} (hrun : s.activate ev deleted = some s') :
    Inv s' := by
  obtain ⟨⟨hreg, hidle⟩, heq⟩ := Option.ite_none_right_eq_some.mp hrun
  rw [← Option.some.inj heq]
  refine h.push hreg hidle fun y hy => ?_
  by_cases hye : y = ev
  · rw [hye]
    exact hreg
  · rw [Function.update_of_ne hye] at hy
    exact hy

theorem expire (h : Inv s) {ev : ℕ} (hsafe : s.active ev = false) (hrun : s.expire ev = some s') :
    Inv s' := by
  obtain ⟨hreg, heq⟩ := Option.ite_none_right_eq_some.mp hrun
  rw [← Option.some.inj heq]
  exact h.push hreg hsafe fun _ hy => hy

theorem terminate (h : Inv s)
    (hsafe : ∀ ev, s.Waits task ev true → s.registered ev = true ∧ s.active ev = false)
    (hrun : s.terminate task = some s') : Inv s' := by
  obtain ⟨hlinked, l, hl⟩ := h
  unfold WaitState.terminate at hrun
  split at hrun
  · next hlt =>
    have hsound := hlinked.sound.schedTerminate task
    cases hev : s.sched.evOp task with
    | none =>
        simp only [hev, Option.some.injEq] at hrun
        rw [← hrun]
        refine ⟨hlinked.same (Sched.sameWaits_schedTerminate_none hev) hsound rfl
          (fun _ _ _ _ => ⟨rfl, rfl, rfl, rfl, rfl⟩) (fun _ _ hc => hc) (fun _ _ hq hc => ⟨hq, hc⟩)
          hlinked.queued_used, l, hl.path, hl.ready, hl.registered⟩
    | some x =>
        simp only [hev] at hrun
        obtain ⟨-, heq⟩ := Option.ite_none_left_eq_some.mp hrun
        rw [← Option.some.inj heq]
        have hsched := Sched.sameWaits_schedTerminate hlt hev
        cases hadded : s.sched.evAdded task with
        | true =>
            have hw : s.Waits task x true := ⟨hlt, hev, hadded⟩
            obtain ⟨hreg, hidle⟩ := hsafe x hw
            obtain ⟨-, hused, hqueued⟩ := hlinked.event task x hw
            have hl' := hl.push hreg hidle
            simp only [evqSchedDel, hreg, hidle, if_true, Bool.true_eq_false, Bool.false_eq_true, or_self,
              if_false]
            refine ⟨hlinked.stop hw hsched hsound rfl (fun c hc => Function.update_of_ne hc _ _)
              (fun y hy => ⟨Function.update_of_ne hy _ _, rfl, rfl, rfl⟩) (Function.update_self ..)
              fun hq => ?_, x :: l, hl'.path, hl'.ready, hl'.registered⟩
            have hq' : s.queued x = true := hq
            simp [hqueued] at hq'
        | false =>
            have hw : s.Waits task x false := ⟨hlt, hev, hadded⟩
            have hqueued := (hlinked.operation task x hw).1
            simp only [evqSchedDel, Bool.false_eq_true, if_false]
            refine ⟨hlinked.stop hw hsched hsound rfl (fun c hc => Function.update_of_ne hc _ _)
              (fun y hy => ⟨rfl, rfl, rfl, Function.update_of_ne hy _ _⟩) ?_
              fun hq => ⟨hlinked.queued_used x hqueued, Function.update_self ..⟩, l, hl.path, hl.ready,
              hl.registered⟩
            exact hlinked.callback_of_queued hqueued
  · rw [← Option.some.inj hrun]
    exact ⟨hlinked, l, hl⟩

/-- The event of a callback has been added by the task that waits for it. -/
theorem dispatch_some (h : Inv s) {ev c : ℕ} (hhead : s.evReady = some ev)
    (hcallback : s.callback ev = some c) :
    ∃ task, s.Waits task ev true ∧ s.co task = c ∧ s.slots c = some task ∧
      s.dispatch = some { s.popReady ev with
        sched := s.sched.eventReady task (some ev), slots := Function.update s.slots c none } := by
  obtain ⟨task, hw, rfl⟩ := h.1.callback_owner ev c hcallback
  have hstack := h.1.stack task ev true hw
  have hlt : s.sched.checkTaskId task := hw.lt
  refine ⟨task, hw, rfl, hstack, ?_⟩
  simp only [WaitState.dispatch, hhead, Option.bind_some, hcallback, hstack, if_pos hlt, hw.evOp, if_true]

theorem dispatch_none {ev : ℕ} (hhead : s.evReady = some ev) (hcallback : s.callback ev = none) :
    s.dispatch = some (s.popReady ev) := by
  simp only [WaitState.dispatch, hhead, Option.bind_some, hcallback]

theorem dispatch (h : Inv s) (hrun : s.dispatch = some s') : Inv s' := by
  obtain ⟨ev, hhead, -⟩ := Option.bind_eq_some_iff.mp hrun
  obtain ⟨hlinked, l, hl⟩ := id h
  obtain ⟨l', rfl, hl'⟩ := hl.pop hhead
  obtain ⟨-, -, hqueued⟩ := hl.ready ev (by simp)
  cases hcallback : s.callback ev with
  | none =>
      rw [dispatch_none hhead hcallback] at hrun
      rw [← Option.some.inj hrun]
      refine ⟨hlinked.same ⟨rfl, rfl, rfl, fun _ ht => ht⟩ hlinked.sound rfl (fun t y a hw => ?_)
        (fun y c hc => ?_) (fun _ _ hq hc => ⟨hq, hc⟩) fun y hq => ?_, l', hl'⟩
      · have hy : y ≠ ev := by
          rintro rfl
          cases a with
          | true =>
              have := (hlinked.event t y hw).1
              simp [hcallback] at this
          | false =>
              have := (hlinked.operation t y hw).1
              simp [hqueued] at this
        exact ⟨rfl, Function.update_of_ne hy _ _, Function.update_of_ne hy _ _, rfl, rfl⟩
      · have hc' : Function.update s.callback ev none y = some c := hc
        obtain ⟨hy, -⟩ := Sched.update_none_ne (t := y) (by rw [hc']; simp)
        rw [Function.update_of_ne hy] at hc'
        exact hc'
      · have hq' : s.queued y = true := hq
        have hy : y ≠ ev := by
          rintro rfl
          simp [hqueued] at hq'
        exact (Function.update_of_ne hy _ _).trans (hlinked.queued_used y hq')
  | some c =>
      obtain ⟨task, hw, rfl, -, heq⟩ := dispatch_some h hhead hcallback
      rw [heq] at hrun
      rw [← Option.some.inj hrun]
      refine ⟨hlinked.stop hw (Sched.sameWaits_eventReady hw.evOp) (hlinked.sound.eventReady hw.lt) rfl
        (fun c hc => Function.update_of_ne hc _ _) (fun y hy => ?_) (Function.update_self ..) fun hq => ?_,
        l', hl'.path, hl'.ready, hl'.registered⟩
      · exact ⟨Function.update_of_ne hy _ _, Function.update_of_ne hy _ _, rfl, rfl⟩
      · have hq' : s.queued ev = true := hq
        simp [hqueued] at hq'

theorem eventsReach (h : Inv s) : s.EventsReach := by
  intro ev hhead
  refine ⟨fun hcallback => ⟨_, dispatch_none hhead hcallback, rfl⟩, fun c hcallback => .inl ?_⟩
  obtain ⟨task, hw, hco, hstack, heq⟩ := h.dispatch_some hhead hcallback
  obtain ⟨active, free, hinv⟩ := h.1.sound
  exact ⟨task, _, active, free, hw.lt, h.1.live_of_waits hw, hco, hw.evOp, hstack, heq, hinv,
    hinv.eventReady hw.lt hw.evOp⟩

end Inv

end WaitState

/-! ## Safe runs -/

/-- A coroutine has one task at a time; a task waits where it can yield and has not been
asked to terminate; a queued addition raises no error; a timeout expires for an event that
is not ready; and a task that waits for an event is terminated while the event is
registered and not ready. -/
def WaitOp.Safe (s : WaitState) : WaitOp → Prop
  | .put _ co _ => ∀ t < s.sched.bufIdx, s.sched.live t = true → s.co t ≠ co
  | .suspend task canYield => s.sched.terminate task = false ∧ canYield = true
  | .wait task _ canYield => s.sched.terminate task = false ∧ canYield = true
  | .waitQueued task _ canYield => s.sched.terminate task = false ∧ canYield = true
  | .syncRaises _ => False
  | .expire ev => s.active ev = false
  | .terminate task => ∀ ev, s.Waits task ev true → s.registered ev = true ∧ s.active ev = false
  | _ => True

namespace WaitState

/-- The transitions of a run with safe steps only. -/
def SafeStep (s s' : WaitState) : Prop := ∃ op : WaitOp, op.Safe s ∧ s.step op = some s'

/-- A safe step keeps the invariant. -/
theorem SafeStep.inv {s s' : WaitState} (hstep : SafeStep s s') (h : s.Inv) : s'.Inv := by
  obtain ⟨op, hsafe, hop⟩ := hstep
  cases op with
  | put realloc co slots => exact h.put hsafe hop
  | take => exact h.take hop
  | yield task slots => exact h.yield hop
  | done task slots => exact h.done hop
  | suspend task canYield => exact h.suspend hsafe hop
  | resume task slots => exact h.resume hop
  | wait task ev canYield => exact h.wait hsafe hop
  | waitQueued task op canYield => exact h.waitQueued hsafe hop
  | waitFails task canYield => exact h.waitFails hop
  | syncProcess op res => exact h.syncProcess hop
  | syncRaises op => exact hsafe.elim
  | activate ev deleted => exact h.activate hop
  | expire ev => exact h.expire hsafe hop
  | terminate task => exact h.terminate hsafe hop
  | dispatch => exact h.dispatch hop

end WaitState

/-- **Events reach their tasks.**  In every run of safe steps, when the loop calls
`sys_sched_event_ready`, the coroutine belongs to the task that waits for the event and its
stack says so; and this task only is made active. -/
theorem safe_run_eventsReach {coctl : Bool} {s : WaitState}
    (hrun : Relation.ReflTransGen WaitState.SafeStep (WaitState.init coctl) s) : s.EventsReach :=
  (inv_of_reach (fun _ _ hstep => hstep.inv) (WaitState.init_inv coctl) hrun).eventsReach

/-- A task waits for an event, which becomes ready, and a second one is terminated while
its addition is queued. -/
theorem safe_run_eventsReach_ready :
    ∃ s, Relation.ReflTransGen WaitState.SafeStep (WaitState.init true) s ∧ s.evReady = some 7 ∧
      s.callback 7 = some 0 ∧ s.sched.evOp 0 = some 7 ∧ s.EventsReach := by
  have hrun : Relation.ReflTransGen WaitState.SafeStep (WaitState.init true) _ :=
    .tail (.tail (.tail (.tail (.tail (.tail (.tail (.tail .refl
      ⟨.put true 0 none, fun t ht => absurd ht (Nat.not_lt_zero t), rfl⟩)
      ⟨.take, trivial, rfl⟩)
      ⟨.wait 0 7 true, ⟨rfl, rfl⟩, rfl⟩)
      ⟨.put true 1 none, fun t ht _ => by
        obtain rfl := Nat.lt_one_iff.mp ht
        exact Nat.zero_ne_one, rfl⟩)
      ⟨.take, trivial, rfl⟩)
      ⟨.waitQueued 1 8 true, ⟨rfl, rfl⟩, rfl⟩)
      ⟨.terminate 1, fun ev hw => absurd hw.evAdded (by decide), rfl⟩)
      ⟨.activate 7 true, trivial, rfl⟩
  exact ⟨_, hrun, rfl, rfl, rfl, safe_run_eventsReach hrun⟩

/-- A task waits for an event, which becomes ready; then the task is terminated. -/
def terminateReadyOps : List WaitOp :=
  [.put true 0 none, .take, .wait 0 7 true, .activate 7 true, .terminate 0]

/-- The stack of the coroutine is empty, and the event has it as its callback. -/
theorem terminated_ready_event :
    ∃ s, Relation.ReflTransGen WaitState.Step (WaitState.init false) s ∧ ¬s.EventsReach := by
  have hrun : (runOps WaitState.step (WaitState.init false) terminateReadyOps).map
      (fun s => (s.evReady, s.callback 7, s.slots 0)) = some (some 7, some 0, none) := rfl
  obtain ⟨s, hs, heq⟩ := Option.map_eq_some_iff.mp hrun
  obtain ⟨hhead, heq⟩ := Prod.mk.inj heq
  obtain ⟨hcallback, hslots⟩ := Prod.mk.inj heq
  refine ⟨s, reach_of_runOps (fun _ op _ hop => ⟨op, hop⟩) hs, fun hreach => ?_⟩
  have hnone : s.dispatch = none := by
    simp only [WaitState.dispatch, hhead, Option.bind_some, hcallback, hslots, Option.bind_none]
  rcases (hreach 7 hhead).2 0 hcallback with ⟨task, s', -, -, -, -, -, -, -, hsome, -⟩ | ⟨s', hsome, -⟩
  · rw [hnone] at hsome
    cases hsome
  · rw [hnone] at hsome
    cases hsome

end LuaSys.Thread
