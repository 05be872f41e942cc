import LuaSys.Lib.Run
import LuaSys.Thread.Sched

/-!
# The workers of a scheduler

The threads inside of `sched_loop` and the places where they block.  A worker without a
task waits for the condition variable of the scheduler, or, when all the others do, in
the event queue.  Each operation that makes a task active decides for itself whether to
signal the condition, and none of them interrupts the wait in the event queue.

A step is what a thread does while it holds the VM lock, up to the next place where it
blocks.  `thread_cond_signal` wakes one of the threads that wait for the condition; which
one is an argument of the step.  The new thread of `sched_thread_run` is inside of the
loop before `sched_put` goes on, so it is one step with it.

## Main definitions

* `Place` — where a thread is.
* `SchedSys`, `SchedOp`, `SchedSys.step` — the scheduler with its workers.
* `SchedSys.Asleep` — there is an active task, and all the workers are blocked.
-/

namespace LuaSys.Thread

open LuaSys.Lib

/-- Where a thread is. -/
inductive Place
  /-- Not inside of `sched_loop`. -/
  | outside
  | loop
  /-- Inside of `lua_resume`, for a task. -/
  | task (id : ℕ)
  /-- In `thread_cond_wait_vm`, without a signal. -/
  | condWait
  | condSignalled
  | condTimedOut
  /-- In `sys_evq_loop`, and there in `evq_wait`, perhaps interrupted. -/
  | evqLoop
  | evqWait (interrupted : Bool)
  deriving DecidableEq, Repr

/-- The thread blocks, and nothing has happened that wakes it. -/
def Place.blocked : Place → Bool
  | .condWait | .evqWait false => true
  | _ => false

/-- The thread is counted in `nwaiters`. -/
def Place.counted : Place → Bool
  | .condWait | .condSignalled | .condTimedOut => true
  | _ => false

/-- A scheduler and its threads. -/
structure SchedSys (θ : Type*) where
  tasks : Sched
  place : θ → Place
  stop : Bool
  evq : Option ℕ
  evqWaiting : Bool
  maxWorkers : ℕ
  /-- `unsigned short`. -/
  nworkers : ℕ
  nwaiters : ℕ

/-- The steps of the threads.  `pick` is the thread that a signal wakes. -/
inductive SchedOp (θ : Type*)
  | put (realloc : Bool) (pick : θ) (spawn : Option θ)
  | resume (task : ℕ)
  /-- The thread `interrupt` waits in the queue of the event, if any does. -/
  | terminate (task : ℕ) (interrupt : Option θ)
  | eventAdded (task : ℕ) (ev : Option ℕ) (pick : θ)
  | eventReady (task ev : ℕ) (pick : θ)
  | stop (stop : Bool) (pick : θ)
  | eventQueue (evq : ℕ)
  /-- The steps of a worker. -/
  | enter (w : θ)
  | take (w : θ)
  | yield (w : θ)
  | done (w : θ)
  | suspend (w : θ) (canYield : Bool)
  | eventAdd (w : θ) (res : Sched.EventAddResult) (canYield : Bool)
  | idle (w : θ)
  | condTimeout (w : θ)
  | condWake (w : θ)
  | evqBlock (w : θ)
  | evqInterrupt (w : θ)
  | evqWake (w : θ)
  | evqReturn (w : θ)
  | leave (w : θ) (pick : θ)
  | leaveStop (w : θ) (pick : θ)
  /-- An error leaves `sched_loop` on the way. -/
  | abort (w : θ)

namespace SchedSys

variable {θ : Type*} [DecidableEq θ]

/-- The thread goes to another place. -/
def goto (s : SchedSys θ) (w : θ) (p : Place) : SchedSys θ :=
  { s with place := Function.update s.place w p }

@[simp] theorem goto_self (s : SchedSys θ) (w : θ) (p : Place) : (s.goto w p).place w = p :=
  Function.update_self ..

theorem goto_of_ne (s : SchedSys θ) {w w' : θ} (h : w' ≠ w) (p : Place) :
    (s.goto w p).place w' = s.place w' := Function.update_of_ne h ..

/-- `thread_cond_signal`. -/
def condSignal (s : SchedSys θ) (pick : θ) : SchedSys θ :=
  if s.place pick = .condWait then s.goto pick .condSignalled else s

/-- The notification of `sched_put`, for a list that was empty. -/
def notify (s : SchedSys θ) (pick : θ) (spawn : Option θ) : SchedSys θ :=
  if s.nwaiters ≠ 0 then s.condSignal pick
  else if s.nworkers < s.maxWorkers then
    match spawn with
    | some w => ({ s with nworkers := (s.nworkers + 1) % 2 ^ 16 }).goto w .loop
    | none => s
  else s

/-- The notification of `sys_sched_event_ready`. -/
def notifyReady (s : SchedSys θ) (pick : θ) : SchedSys θ :=
  if s.tasks.activeTaskId = none ∧ s.nwaiters ≠ 0 then s.condSignal pick else s

/-- `evq_signal` reaches a worker in the event queue. -/
def evqSignal (s : SchedSys θ) (interrupt : Option θ) : SchedSys θ :=
  match interrupt with
  | some w => if s.place w = .evqWait false then s.goto w (.evqWait true) else s
  | none => s

/-- The end of `sched_loop`. -/
def loopEnd (s : SchedSys θ) (w pick : θ) : SchedSys θ :=
  let s := { s.goto w .outside with nworkers := (s.nworkers + (2 ^ 16 - 1)) % 2 ^ 16 }
  if s.stop = false ∧ s.evqWaiting = false ∧ s.evq ≠ none ∧ s.nwaiters = s.nworkers then
    s.condSignal pick
  else s

/-- `sched_loop` without an active task. -/
def loopIdle (s : SchedSys θ) (w : θ) : SchedSys θ :=
  if s.nwaiters + 1 = s.nworkers ∧ s.evq ≠ none ∧ s.evqWaiting = false then
    ({ s with evqWaiting := true }).goto w .evqLoop
  else ({ s with nwaiters := (s.nwaiters + 1) % 2 ^ 16 }).goto w .condWait

/-- One step; `none` when it does not apply or raises an error. -/
def step (s : SchedSys θ) : SchedOp θ → Option (SchedSys θ)
  | .put realloc pick spawn =>
      (s.tasks.schedPut realloc).bind fun t =>
        if (∀ w ∈ spawn, s.place w = .outside) then
          if s.tasks.activeTaskId = none then some (({ s with tasks := t }).notify pick spawn)
          else some { s with tasks := t }
        else none
  | .resume task => (s.tasks.schedResume task).map fun t => { s with tasks := t }
  | .terminate task interrupt =>
      let s' := { s with tasks := s.tasks.schedTerminate task }
      if s.tasks.checkTaskId task ∧ s.tasks.evOp task ≠ none then some (s'.evqSignal interrupt)
      else some s'
  | .eventAdded task ev pick =>
      if s.tasks.checkTaskId task then
        let s' := if ev = none ∧ s.tasks.suspended task then s.notifyReady pick else s
        some { s' with tasks := s.tasks.eventAdded task ev }
      else none
  | .eventReady task ev pick =>
      if s.tasks.checkTaskId task then
        let s' := if s.tasks.evOp task = some ev then s.notifyReady pick else s
        some { s' with tasks := s.tasks.eventReady task (some ev) }
      else none
  | .stop stop pick => some (({ s with stop := stop }).condSignal pick)
  | .eventQueue evq => if s.tasks.ntasks = 0 then some { s with evq := some evq } else none
  | .enter w =>
      if s.place w = .outside then
        some (({ s with nworkers := (s.nworkers + 1) % 2 ^ 16 }).goto w .loop)
      else none
  | .take w =>
      if s.place w = .loop ∧ s.stop = false then
        s.tasks.activeTaskId.bind fun id =>
          s.tasks.loopTake.map fun t =>
            ({ s with tasks := t }).goto w (if s.tasks.terminate id then .loop else .task id)
      else none
  | .yield w =>
      match s.place w with
      | .task id => some (({ s with tasks := s.tasks.loopYield id }).goto w .loop)
      | _ => none
  | .done w =>
      match s.place w with
      | .task id => some (({ s with tasks := s.tasks.loopDone id }).goto w .loop)
      | _ => none
  | .suspend w canYield =>
      match s.place w with
      | .task id =>
          (s.tasks.schedSuspend id canYield).map fun t =>
            ({ s with tasks := t }).goto w (if canYield then .loop else .task id)
      | _ => none
  | .eventAdd w res canYield =>
      match s.place w with
      | .task id =>
          (s.tasks.schedEventAdd id res canYield).map fun t =>
            ({ s with tasks := t }).goto w (if canYield then .loop else .task id)
      | _ => none
  | .idle w =>
      if s.place w = .loop ∧ s.stop = false ∧ s.tasks.activeTaskId = none then some (s.loopIdle w)
      else none
  | .condTimeout w => if s.place w = .condWait then some (s.goto w .condTimedOut) else none
  | .condWake w =>
      if (s.place w).counted then
        some (({ s with nwaiters := (s.nwaiters + (2 ^ 16 - 1)) % 2 ^ 16 }).goto w .loop)
      else none
  | .evqBlock w => if s.place w = .evqLoop then some (s.goto w (.evqWait false)) else none
  | .evqInterrupt w => if s.place w = .evqWait false then some (s.goto w (.evqWait true)) else none
  | .evqWake w =>
      match s.place w with
      | .evqWait _ => some (s.goto w .evqLoop)
      | _ => none
  | .evqReturn w =>
      if s.place w = .evqLoop then some (({ s with evqWaiting := false }).goto w .loop) else none
  | .leave w pick => if s.place w = .loop then some (s.loopEnd w pick) else none
  | .leaveStop w pick =>
      if s.place w = .loop ∧ s.stop then some ((s.condSignal pick).loopEnd w pick) else none
  | .abort w =>
      match s.place w with
      | .loop | .task _ | .evqLoop => some (s.goto w .outside)
      | _ => none

/-- A new scheduler, without workers. -/
def init (maxWorkers : ℕ) : SchedSys θ where
  tasks := Sched.init
  place _ := .outside
  stop := false
  evq := none
  evqWaiting := false
  maxWorkers := maxWorkers
  nworkers := 0
  nwaiters := 0

/-- There is an active task and a worker, and every worker is blocked. -/
def Asleep (s : SchedSys θ) : Prop :=
  s.tasks.activeTaskId ≠ none ∧ (∃ w, s.place w ≠ .outside) ∧ s.stop = false ∧
    ∀ w, s.place w ≠ .outside → (s.place w).blocked = true

end SchedSys

/-- `pthread_cond_signal` wakes a thread that waits, if there is one. -/
def SchedOp.Picks {θ : Type*} (s : SchedSys θ) : SchedOp θ → Prop
  | .put _ pick _ | .eventAdded _ _ pick | .eventReady _ _ pick | .stop _ pick | .leave _ pick
  | .leaveStop _ pick => s.place pick = .condWait ∨ ∀ w, s.place w ≠ .condWait
  | _ => True

/-- The transitions of a run. -/
def SchedSys.Step {θ : Type*} [DecidableEq θ] (s s' : SchedSys θ) : Prop :=
  ∃ op : SchedOp θ, op.Picks s ∧ s.step op = some s'

/-- The worker that takes a task or goes on with one. -/
def SchedOp.taskWorker {θ : Type*} : SchedOp θ → Option θ
  | .take w | .yield w | .done w | .suspend w _ | .eventAdd w _ _ => some w
  | _ => none

/-- A worker with a task goes on with the task or with the loop. -/
theorem SchedSys.task_of_step {θ : Type*} [DecidableEq θ] {s s' : SchedSys θ} {op : SchedOp θ} {w : θ}
    (hop : op.taskWorker = some w) (hrun : s.step op = some s') :
    ∃ t id c, (s.place w = .loop ∨ s.place w = .task id) ∧
      s' = ({ s with tasks := t }).goto w (if c = true then .loop else .task id) := by
  cases op with
  | take w =>
      obtain rfl := Option.some.inj hop
      obtain ⟨⟨hw, -⟩, hrun⟩ := Option.ite_none_right_eq_some.mp hrun
      obtain ⟨id, -, hrun⟩ := Option.bind_eq_some_iff.mp hrun
      obtain ⟨t, -, heq⟩ := Option.map_eq_some_iff.mp hrun
      exact ⟨t, id, s.tasks.terminate id, Or.inl hw, heq.symm⟩
  | yield w =>
      obtain rfl := Option.some.inj hop
      simp only [step] at hrun
      split at hrun
      · next id hw => exact ⟨_, id, true, Or.inr hw, (Option.some.inj hrun).symm⟩
      · exact absurd hrun (by simp)
  | done w =>
      obtain rfl := Option.some.inj hop
      simp only [step] at hrun
      split at hrun
      · next id hw => exact ⟨_, id, true, Or.inr hw, (Option.some.inj hrun).symm⟩
      · exact absurd hrun (by simp)
  | suspend w canYield =>
      obtain rfl := Option.some.inj hop
      simp only [step] at hrun
      split at hrun
      · next id hw =>
        obtain ⟨t, -, heq⟩ := Option.map_eq_some_iff.mp hrun
        exact ⟨t, id, canYield, Or.inr hw, heq.symm⟩
      · exact absurd hrun (by simp)
  | eventAdd w res canYield =>
      obtain rfl := Option.some.inj hop
      simp only [step] at hrun
      split at hrun
      · next id hw =>
        obtain ⟨t, -, heq⟩ := Option.map_eq_some_iff.mp hrun
        exact ⟨t, id, canYield, Or.inr hw, heq.symm⟩
      · exact absurd hrun (by simp)
  | _ => exact absurd hop (by simp [SchedOp.taskWorker])

end LuaSys.Thread
