import LuaSys.Lib.Ring
import LuaSys.Lib.Word

/-!
# Tasks of a scheduler

The model of the tasks in `thread_sched.c`.  A task is an index into a buffer that
grows, and the tasks that are ready to run and the free ones form two rings that share
the links `prev_id` and `next_id`.  The other tasks run or are suspended.

The VM lock is held from one step to the next: a task that suspends itself or waits for
an event sets its flags, yields, and the worker looks at the flags, all in one step.  A
step of a task is a step of its coroutine, which the source compares with `task->co`.
The id `-1` is `none`.

## Main definitions

* `Sched` — the buffer of tasks and the heads of the rings.
* `tasklistAdd`, `tasklistDel`, `taskAlloc`, `taskDel`, `schedPut`, `schedTerminate`,
  `schedSuspend`, `schedResume`, `schedEventAdd`, `eventAdded`, `eventReady` — the
  functions of the source.
* `loopTake`, `loopYield`, `loopDone` — the parts of `sched_loop` around `lua_resume`.
* `TaskOp`, `Sched.step` — the steps.
-/

namespace LuaSys.Thread

open LuaSys.Lib

/-- `SCHED_BUF_MIN`. -/
def schedBufMin : ℕ := 32

/-- The fields of `struct scheduler` for the tasks, and of its tasks. -/
structure Sched where
  /-- `struct sched_task`; the pointer `ev_op` is an event or an operation. -/
  prevId : ℕ → ℕ
  nextId : ℕ → ℕ
  evOp : ℕ → Option ℕ
  started : ℕ → Bool
  suspended : ℕ → Bool
  evAdded : ℕ → Bool
  terminate : ℕ → Bool
  /-- `struct scheduler`. -/
  activeTaskId : Option ℕ
  freeTaskId : Option ℕ
  ntasks : ℕ
  bufIdx : ℕ
  bufMax : ℕ
  /-- The tasks inside of `lua_resume`. -/
  running : List ℕ
  /-- The tasks that were put and have not been deleted. -/
  live : ℕ → Bool

namespace Sched

/-- `sched_tasklist_add`, with the new head of the list. -/
def tasklistAdd (s : Sched) (list : Option ℕ) (task : ℕ) : Sched × Option ℕ :=
  match list with
  | some head =>
      let headPrev := s.prevId head
      let s := { s with nextId := Function.update s.nextId headPrev task }
      let s := { s with prevId := Function.update s.prevId task (s.prevId head) }
      let s := { s with prevId := Function.update s.prevId head task }
      ({ s with nextId := Function.update s.nextId task head }, some head)
  | none =>
      ({ s with prevId := Function.update s.prevId task task
                nextId := Function.update s.nextId task task }, some task)

/-- `sched_tasklist_del`, with the new head of the list. -/
def tasklistDel (s : Sched) (list : Option ℕ) (task : ℕ) : Sched × Option ℕ :=
  if task ≠ s.nextId task then
    let taskPrev := s.prevId task
    let taskNext := s.nextId task
    let s := { s with prevId := Function.update s.prevId taskNext (s.prevId task) }
    let s := { s with nextId := Function.update s.nextId taskPrev (s.nextId task) }
    (s, if list = some task then some (s.nextId task) else list)
  else (s, none)

/-- Add a task to the active ones. -/
def addActive (s : Sched) (task : ℕ) : Sched :=
  let r := s.tasklistAdd s.activeTaskId task
  { r.1 with activeTaskId := r.2 }

/-- `sched_task_alloc`; `none` when `realloc` fails, as it does when the size in
tasks leaves the range of `int`. -/
def taskAlloc (s : Sched) (realloc : Bool) : Option (ℕ × Sched) :=
  match s.freeTaskId with
  | some task =>
      let r := s.tasklistDel s.freeTaskId task
      some (task, { r.1 with freeTaskId := r.2 })
  | none =>
      if s.bufIdx = s.bufMax then
        let newlen := if s.bufMax ≠ 0 then s.bufMax * 2 else schedBufMin
        if realloc ∧ newlen < 2 ^ 31 then
          some (s.bufIdx, { s with bufMax := newlen, bufIdx := s.bufIdx + 1 })
        else none
      else some (s.bufIdx, { s with bufIdx := s.bufIdx + 1 })

/-- `sched_task_del`. -/
def taskDel (s : Sched) (task : ℕ) : Sched :=
  let r := s.tasklistAdd s.freeTaskId task
  { r.1 with
    freeTaskId := r.2
    ntasks := u32sub s.ntasks 1
    live := Function.update s.live task false }

/-- `memset(task, 0, sizeof(struct sched_task))`. -/
def taskClear (s : Sched) (task : ℕ) : Sched :=
  { s with
    prevId := Function.update s.prevId task 0
    nextId := Function.update s.nextId task 0
    evOp := Function.update s.evOp task none
    started := Function.update s.started task false
    suspended := Function.update s.suspended task false
    evAdded := Function.update s.evAdded task false
    terminate := Function.update s.terminate task false }

/-- `sched_put`, without the notification; `none` when there is no memory. -/
def schedPut (s : Sched) (realloc : Bool) : Option Sched :=
  (s.taskAlloc realloc).map fun r =>
    let s := (r.2.taskClear r.1).addActive r.1
    { s with ntasks := u32 (s.ntasks + 1), live := Function.update s.live r.1 true }

/-! ## The loop -/

/-- `sched_loop` takes the first active task, and runs it unless it has been
terminated. -/
def loopTake (s : Sched) : Option Sched :=
  s.activeTaskId.map fun task =>
    let r := s.tasklistDel s.activeTaskId task
    let s := { r.1 with activeTaskId := r.2 }
    if s.terminate task then s.taskDel task
    else { s with
      started := Function.update s.started task true
      running := task :: s.running }

/-- The coroutine of a task has returned, or failed. -/
def loopDone (s : Sched) (task : ℕ) : Sched :=
  ({ s with running := s.running.erase task }).taskDel task

/-- The coroutine of a task has yielded. -/
def loopYield (s : Sched) (task : ℕ) : Sched :=
  if s.terminate task then s.loopDone task
  else
    let s := { s with running := s.running.erase task }
    if s.suspended task then s else s.addActive task

/-- A function of a running task calls `lua_yield`, which is an error when the coroutine
cannot yield there. -/
def luaYield (s : Sched) (task : ℕ) (canYield : Bool) : Sched :=
  if canYield then s.loopYield task else s

/-! ## Operations -/

/-- `sched_check_task_id`. -/
def checkTaskId (s : Sched) (task : ℕ) : Prop := task < s.bufIdx

instance (s : Sched) (task : ℕ) : Decidable (s.checkTaskId task) := inferInstanceAs (Decidable (_ < _))

/-- `sched_terminate`. -/
def schedTerminate (s : Sched) (task : ℕ) : Sched :=
  if s.checkTaskId task then
    let s := { s with terminate := Function.update s.terminate task true }
    let s :=
      if s.suspended task then
        ({ s with suspended := Function.update s.suspended task false }).addActive task
      else s
    if s.evOp task ≠ none then
      { s with
        evOp := Function.update s.evOp task none
        evAdded := Function.update s.evAdded task false }
    else s
  else s

/-- A task that is not suspended does not become active. -/
theorem activeTaskId_schedTerminate {s : Sched} {task : ℕ} (h : s.suspended task = false) :
    (s.schedTerminate task).activeTaskId = s.activeTaskId := by
  unfold schedTerminate
  split
  · simp only [h, Bool.false_eq_true, if_false]
    split <;> rfl
  · rfl

/-- `sched_suspend`, called by a running task; `none` is an error. -/
def schedSuspend (s : Sched) (task : ℕ) (canYield : Bool) : Option Sched :=
  if task ∈ s.running ∧ s.evOp task = none then
    some (({ s with suspended := Function.update s.suspended task true }).luaYield task canYield)
  else none

/-- `sched_resume`; `none` is the error "Suspended coroutine expected". -/
def schedResume (s : Sched) (task : ℕ) : Option Sched :=
  if s.checkTaskId task ∧ s.suspended task ∧ s.evOp task = none then
    let s := s.addActive task
    some { s with suspended := Function.update s.suspended task false }
  else none

/-- `sys_sched_event_ready`; the pointer is null when the addition of the event has
failed. -/
def eventReady (s : Sched) (task : ℕ) (ev : Option ℕ) : Sched :=
  if s.evOp task ≠ ev then s
  else
    ({ s with
      evOp := Function.update s.evOp task none
      evAdded := Function.update s.evAdded task false
      suspended := Function.update s.suspended task false }).addActive task

/-- `sys_sched_event_added`. -/
def eventAdded (s : Sched) (task : ℕ) (ev : Option ℕ) : Sched :=
  let s := { s with
    evOp := Function.update s.evOp task ev
    evAdded := Function.update s.evAdded task true }
  if ev = none ∧ s.suspended task then s.eventReady task none else s

theorem activeTaskId_eventAdded {s : Sched} {task : ℕ} {ev : Option ℕ}
    (h : ¬(ev = none ∧ s.suspended task = true)) :
    (s.eventAdded task ev).activeTaskId = s.activeTaskId := by
  simp only [eventAdded, h, if_false]

/-- The result of `sys_evq_sched_add`: the event has been added, the addition is left to
the thread that waits in the queue, or it has failed. -/
inductive EventAddResult
  | added (ev : ℕ)
  | pending (op : ℕ)
  | fails
  deriving DecidableEq, Repr

/-- `sched_event_add` and the yield of `sched_wait_obj`, called by a running task. -/
def schedEventAdd (s : Sched) (task : ℕ) (res : EventAddResult) (canYield : Bool) : Option Sched :=
  if task ∈ s.running then
    match res with
    | .fails => some (s.luaYield task canYield)
    | .added ev => some ((added (s.eventAdded task (some ev)) task ev).luaYield task canYield)
    | .pending op => some ((added s task op).luaYield task canYield)
  else none
where
  /-- The flags of a task that has added an event. -/
  added (s : Sched) (task op : ℕ) : Sched :=
    let s := { s with suspended := Function.update s.suspended task true }
    if s.evAdded task = false then { s with evOp := Function.update s.evOp task (some op) }
    else if s.evOp task = none then
      { s with
        evAdded := Function.update s.evAdded task false
        suspended := Function.update s.suspended task false }
    else s

end Sched

/-! ## Steps -/

/-- The steps of a run. -/
inductive TaskOp
  | put (realloc : Bool)
  | take
  | yield (task : ℕ)
  | done (task : ℕ)
  | terminate (task : ℕ)
  | suspend (task : ℕ) (canYield : Bool)
  | resume (task : ℕ)
  | eventAdd (task : ℕ) (res : Sched.EventAddResult) (canYield : Bool)
  /-- The pending operation `op` of a task is processed. -/
  | eventAdded (task op : ℕ) (ev : Option ℕ)
  | eventReady (task ev : ℕ)

namespace Sched

/-- One step; `none` when it does not apply or raises an error. -/
def step (s : Sched) : TaskOp → Option Sched
  | .put realloc => s.schedPut realloc
  | .take => s.loopTake
  | .yield task => if task ∈ s.running then some (s.loopYield task) else none
  | .done task => if task ∈ s.running then some (s.loopDone task) else none
  | .terminate task => some (s.schedTerminate task)
  | .suspend task canYield => s.schedSuspend task canYield
  | .resume task => s.schedResume task
  | .eventAdd task res canYield => s.schedEventAdd task res canYield
  | .eventAdded task _ ev => if s.checkTaskId task then some (s.eventAdded task ev) else none
  | .eventReady task ev => if s.checkTaskId task then some (s.eventReady task (some ev)) else none

/-- The state of a new scheduler, as `sched_new` leaves it. -/
def init : Sched where
  prevId _ := 0
  nextId _ := 0
  evOp _ := none
  started _ := false
  suspended _ := false
  evAdded _ := false
  terminate _ := false
  activeTaskId := none
  freeTaskId := none
  ntasks := 0
  bufIdx := 0
  bufMax := 0
  running := []
  live _ := false

end Sched

end LuaSys.Thread
