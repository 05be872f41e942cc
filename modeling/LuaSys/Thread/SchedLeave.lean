import LuaSys.Lib.Census
import LuaSys.Thread.SchedWorkers

/-!
# Leaving the loop of a scheduler

`sched_loop` counts its worker in `nworkers`, and the context of the loop is a variable of
the C function: `td->sched_ctx` and `sched->ctx` point to it.  The end of the function
takes all this back.  A Lua error that is raised on the way, or a thread that exits, does
not come to the end: the error of an interrupted thread in `sys_thread_check`, an error of
the coroutines controller, which `sched_task_del` calls, and what happens inside of
`sys_evq_loop`.

Each call of `sched_loop` has a number here.  A thread holds the VM lock for its steps,
and when it gets the lock or gives it back, `sched_vm_switch` sets `sched->ctx`.  The
thread that `sched_thread_run` starts begins with the lock, while the other one waits.

## Main definitions

* `Room`, `SchedSys.rooms` — the part of `sched_loop` that a thread is in.
* `LoopCtx`, `LoopOp`, `LoopCtx.step` — the workers with their contexts.
* `LoopCtx.Restored` — counters, flag and pointers are as the threads are.
* `LoopOp.Safe` — the condition on a step.

## Main results

* `safe_run_restored` — they are in every run of safe steps.
* `interrupted_worker_counted` — a worker that is interrupted while it waits.
-/

namespace LuaSys.Thread

open LuaSys.Lib

/-- The parts of `sched_loop`. -/
inductive Room
  | outside
  | loop
  /-- `thread_cond_wait_vm`. -/
  | cond
  /-- `sys_evq_loop`. -/
  | evq
  deriving DecidableEq, Repr

/-- The part of `sched_loop` that a place belongs to. -/
def Place.room : Place → Room
  | .outside => .outside
  | .loop | .task _ => .loop
  | .condWait | .condSignalled | .condTimedOut => .cond
  | .evqLoop | .evqWait _ => .evq

/-- The thread has given the VM lock back to wait. -/
def Place.waits : Place → Bool
  | .condWait | .condSignalled | .condTimedOut | .evqWait _ => true
  | _ => false

/-- The parts that the threads are in. -/
def SchedSys.rooms {θ : Type*} (s : SchedSys θ) (w : θ) : Room := (s.place w).room

/-- The workers of a scheduler and the contexts of their loops. -/
structure LoopCtx (θ : Type*) where
  sys : SchedSys θ
  /-- The thread that holds the VM lock, and the one that the VM belongs to. -/
  vm : Option θ
  main : θ
  /-- The calls of `sched_loop` so far; the innermost call of a thread; and the calls around
  it, with the place where the thread goes on. -/
  ncalls : ℕ
  call : θ → Option ℕ
  outer : θ → List (ℕ × Place)
  /-- `td->sched_ctx` and `sched->ctx`. -/
  schedCtx : θ → Option ℕ
  ctx : Option ℕ

/-- How a thread leaves `sched_loop` without its end. -/
inductive Abort
  /-- `lua_error`. -/
  | error
  /-- `thread_exit`. -/
  | exit
  deriving DecidableEq, Repr

/-- The steps. -/
inductive LoopOp (θ : Type*)
  /-- A step of the scheduler by a thread. -/
  | sched (t : θ) (op : SchedOp θ)
  | vmLeave (t : θ)
  | vmEnter (t : θ)
  /-- A worker calls `sched_loop` again, from a task or a callback. -/
  | enterInner (t : θ)
  | abort (t : θ) (how : Abort)

/-- The worker whose step it is. -/
def SchedOp.worker {θ : Type*} : SchedOp θ → Option θ
  | .enter w | .take w | .yield w | .done w | .suspend w _ | .eventAdd w _ _ | .idle w
  | .condTimeout w | .condWake w | .evqBlock w | .evqInterrupt w | .evqWake w | .evqReturn w
  | .leave w _ | .leaveStop w _ | .abort w => some w
  | _ => none

/-- The thread that the step may start. -/
def SchedOp.spawn {θ : Type*} : SchedOp θ → Option θ
  | .put _ _ spawn => spawn
  | _ => none

/-- Who holds the VM lock before the step of a thread; the kernel does not look at it. -/
def SchedOp.vm {θ : Type*} (t : θ) : SchedOp θ → Option (Option θ)
  | .condTimeout _ | .evqInterrupt _ => none
  | .condWake _ | .evqWake _ => some none
  | _ => some (some t)

namespace LoopCtx

variable {θ : Type*} [DecidableEq θ]

/-- `sys_vm2_leave`. -/
def vmLeave (s : LoopCtx θ) (t : θ) : LoopCtx θ :=
  { s with vm := none, ctx := if s.schedCtx t = none then s.ctx else none }

/-- `sys_vm2_enter`. -/
def vmEnter (s : LoopCtx θ) (t : θ) : LoopCtx θ :=
  { s with vm := some t, ctx := if s.schedCtx t = none then s.ctx else s.schedCtx t }

/-- The begin of `sched_loop`. -/
def beginCall (s : LoopCtx θ) (t : θ) : LoopCtx θ :=
  { s with
    vm := some t
    ncalls := s.ncalls + 1
    call := Function.update s.call t (some s.ncalls)
    schedCtx := Function.update s.schedCtx t (some s.ncalls)
    ctx := some s.ncalls }

/-- The innermost call of `sched_loop` is over. -/
def endCall (s : LoopCtx θ) (t : θ) : LoopCtx θ :=
  match s.outer t with
  | [] => { s with call := Function.update s.call t none }
  | (n, p) :: rest =>
      { s with
        sys := s.sys.goto t p
        call := Function.update s.call t (some n)
        outer := Function.update s.outer t rest }

/-- The end of `sched_loop`. -/
def finish (s : LoopCtx θ) (t : θ) : LoopCtx θ :=
  ({ s with ctx := none, schedCtx := Function.update s.schedCtx t none }).endCall t

/-- What a step does to the contexts and the VM lock. -/
def after (s : LoopCtx θ) (t : θ) (sys : SchedSys θ) : SchedOp θ → LoopCtx θ
  | .enter _ => ({ s with sys := sys }).beginCall t
  | .put _ _ (some w) =>
      if sys.place w = .loop then (({ s with sys := sys }).vmLeave t).beginCall w
      else { s with sys := sys }
  | .leave _ _ | .leaveStop _ _ => ({ s with sys := sys }).finish t
  | .idle _ =>
      if sys.place t = .condWait then ({ s with sys := sys }).vmLeave t else { s with sys := sys }
  | .evqBlock _ => ({ s with sys := sys }).vmLeave t
  | .condWake _ | .evqWake _ => ({ s with sys := sys }).vmEnter t
  | _ => { s with sys := sys }

/-- `thread_exit`: the pointer of the thread is cleared, and the lock is given back in the
name of the thread that the VM belongs to. -/
def threadExit (s : LoopCtx θ) (t : θ) : LoopCtx θ :=
  ({ s with
    sys := s.sys.goto t .outside
    call := Function.update s.call t none
    outer := Function.update s.outer t []
    schedCtx := Function.update s.schedCtx t none }).vmLeave s.main

/-- One step; `none` when it does not apply. -/
def step (s : LoopCtx θ) : LoopOp θ → Option (LoopCtx θ)
  | .sched _ (.abort _) => none
  | .sched t op =>
      if (∀ w ∈ op.worker, w = t) ∧ (∀ w ∈ op.spawn, w ≠ t) ∧ ∀ v ∈ op.vm t, s.vm = v then
        (s.sys.step op).map fun sys => s.after t sys op
      else none
  | .vmLeave t => if s.vm = some t then some (s.vmLeave t) else none
  | .vmEnter t => if s.vm = none ∧ (s.sys.place t).waits = false then some (s.vmEnter t) else none
  | .enterInner t =>
      if s.vm = some t ∧ s.sys.place t ≠ .outside then
        (s.call t).map fun n =>
          ({ s with
            sys := ({ s.sys with nworkers := (s.sys.nworkers + 1) % 2 ^ 16 }).goto t .loop
            outer := Function.update s.outer t ((n, s.sys.place t) :: s.outer t) }).beginCall t
      else none
  | .abort t how =>
      if s.vm = some t then
        (s.sys.step (.abort t)).map fun sys =>
          match how with
          | .error => ({ s with sys := sys }).endCall t
          | .exit => s.threadExit t
      else none

/-- A new scheduler; the VM lock is with the thread of the VM. -/
def init (maxWorkers : ℕ) (main : θ) : LoopCtx θ where
  sys := SchedSys.init maxWorkers
  vm := some main
  main := main
  ncalls := 0
  call _ := none
  outer _ := []
  schedCtx _ := none
  ctx := none

/-- A call of `sched_loop` that has not ended. -/
def Active (s : LoopCtx θ) (n : ℕ) : Prop :=
  ∃ t, s.call t = some n ∨ ∃ p, (n, p) ∈ s.outer t

/-- The counters, the flag and the pointers are as the threads are. -/
structure Restored (s : LoopCtx θ) : Prop where
  workers : Census s.sys.rooms (· ≠ .outside) s.sys.nworkers
  waiters : Census s.sys.rooms (· = .cond) s.sys.nwaiters
  evqWaiting : s.sys.evqWaiting = true ↔ ∃ w, s.sys.rooms w = .evq
  schedCtx : ∀ t n, s.schedCtx t = some n → s.Active n
  ctx : ∀ n, s.ctx = some n → s.Active n

/-- The transitions of a run. -/
def Step (s s' : LoopCtx θ) : Prop := ∃ op, s.step op = some s'

end LoopCtx

/-- The end of `sched_loop` is not skipped, a worker does not call it again, and the counter
of the workers has 16 bits. -/
def LoopOp.Safe {θ : Type*} (s : LoopCtx θ) : LoopOp θ → Prop
  | .sched _ (.enter _) => s.sys.nworkers + 1 < 2 ^ 16
  | .sched _ (.put _ _ spawn) => spawn ≠ none → s.sys.nworkers + 1 < 2 ^ 16
  | .enterInner _ => False
  | .abort _ _ => False
  | _ => True

/-! ## What a step does -/

/-- The parts of the loop that the threads are in, with what the scheduler knows of it. -/
structure Tally (θ : Type*) where
  rooms : θ → Room
  nworkers : ℕ
  nwaiters : ℕ
  evqWaiting : Bool

/-- The tally of a scheduler. -/
def SchedSys.tally {θ : Type*} (s : SchedSys θ) : Tally θ :=
  ⟨s.rooms, s.nworkers, s.nwaiters, s.evqWaiting⟩

section Moves

variable {θ : Type*} [DecidableEq θ]

/-- One thread goes to another part of the loop, or none does.  The last arguments are the
thread that enters the loop and the thread that leaves it. -/
inductive Tally.Move (c : Tally θ) : Tally θ → Option θ → Option θ → Prop
  | stay : Move c c none none
  | enter (w : θ) (hold : c.rooms w = .outside) :
      Move c { c with
        rooms := Function.update c.rooms w .loop
        nworkers := (c.nworkers + 1) % 2 ^ 16 } (some w) none
  | leave (w : θ) (n : ℕ) (hold : c.rooms w = .loop) (hn : n = (c.nworkers + (2 ^ 16 - 1)) % 2 ^ 16) :
      Move c { c with rooms := Function.update c.rooms w .outside, nworkers := n } none (some w)
  | wait (w : θ) (hold : c.rooms w = .loop) :
      Move c { c with
        rooms := Function.update c.rooms w .cond
        nwaiters := (c.nwaiters + 1) % 2 ^ 16 } none none
  | wake (w : θ) (n : ℕ) (hold : c.rooms w = .cond) (hn : n = (c.nwaiters + (2 ^ 16 - 1)) % 2 ^ 16) :
      Move c { c with rooms := Function.update c.rooms w .loop, nwaiters := n } none none
  | poll (w : θ) (hold : c.rooms w = .loop) (hfree : c.evqWaiting = false) :
      Move c { c with rooms := Function.update c.rooms w .evq, evqWaiting := true } none none
  | polled (w : θ) (hold : c.rooms w = .evq) :
      Move c { c with rooms := Function.update c.rooms w .loop, evqWaiting := false } none none

namespace SchedSys

variable {s s' : SchedSys θ} {w : θ}

theorem rooms_goto (s : SchedSys θ) (w : θ) (p : Place) :
    (s.goto w p).rooms = Function.update s.rooms w p.room := by
  ext w'
  by_cases hw : w' = w
  · subst hw
    simp [rooms]
  · rw [Function.update_of_ne hw]
    simp only [rooms, goto_of_ne s hw]

/-- A thread stays in its part of the loop. -/
theorem tally_goto {p : Place} (hp : p.room = s.rooms w) : (s.goto w p).tally = s.tally := by
  have hrooms : (s.goto w p).rooms = s.rooms := by
    rw [rooms_goto, hp, Function.update_eq_self]
  rw [tally, hrooms]
  rfl

@[simp] theorem tally_condSignal (s : SchedSys θ) (pick : θ) : (s.condSignal pick).tally = s.tally := by
  unfold condSignal
  split
  · next hpick =>
    apply tally_goto
    rw [rooms, hpick]
    rfl
  · rfl

@[simp] theorem tally_notifyReady (s : SchedSys θ) (pick : θ) :
    (s.notifyReady pick).tally = s.tally := by
  unfold notifyReady
  split
  · exact tally_condSignal s pick
  · rfl

@[simp] theorem tally_evqSignal (s : SchedSys θ) (interrupt : Option θ) :
    (s.evqSignal interrupt).tally = s.tally := by
  cases interrupt with
  | none => rfl
  | some w =>
      simp only [evqSignal]
      split
      · next hw =>
        apply tally_goto
        rw [rooms, hw]
        rfl
      · rfl

/-- The end of `sched_loop` for a worker. -/
theorem move_loopEnd (pick : θ) (hold : s.rooms w = .loop) :
    Tally.Move s.tally (s.loopEnd w pick).tally none (some w) := by
  have hleave : ∀ n s₁, n = (s.nworkers + (2 ^ 16 - 1)) % 2 ^ 16 →
      s₁ = { s.goto w .outside with nworkers := n } → Tally.Move s.tally s₁.tally none (some w) := by
    rintro n s₁ hn rfl
    have htally : ({ s.goto w .outside with nworkers := n }).tally =
        ⟨(s.goto w .outside).rooms, n, s.nwaiters, s.evqWaiting⟩ := rfl
    rw [htally, rooms_goto]
    exact .leave w n hold hn
  unfold loopEnd
  lift_lets
  intro r s₁
  have hend := hleave _ s₁ rfl rfl
  split
  · rw [tally_condSignal]
    exact hend
  · exact hend

/-- The thread that a step starts, when it does. -/
def begins (s : SchedSys θ) : SchedOp θ → Option θ
  | .enter w => some w
  | .put _ _ (some w) => if s.place w = .loop then some w else none
  | _ => none

/-- The worker that leaves the loop. -/
def ends : SchedOp θ → Option θ
  | .leave w _ | .leaveStop w _ => some w
  | _ => none

theorem move_put {realloc : Bool} {pick : θ} {spawn : Option θ}
    (hrun : s.step (.put realloc pick spawn) = some s') :
    Tally.Move s.tally s'.tally (s'.begins (.put realloc pick spawn)) none := by
  obtain ⟨t, -, hrun⟩ := Option.bind_eq_some_iff.mp hrun
  obtain ⟨hout, hrun⟩ := Option.ite_none_right_eq_some.mp hrun
  -- When nobody is started, the thread in `spawn` stays outside.
  have hstay : s'.tally = s.tally →
      Tally.Move s.tally s'.tally (s'.begins (.put realloc pick spawn)) none := by
    intro hsame
    have hnone : s'.begins (.put realloc pick spawn) = none := by
      cases spawn with
      | none => rfl
      | some w =>
          have hw : s'.place w ≠ .loop := fun hloop => by
            have hroom : s'.rooms w = s.rooms w := congrFun (congrArg Tally.rooms hsame) w
            simp [rooms, hloop, hout w rfl, Place.room] at hroom
          simp only [begins, hw, if_false]
    rw [hnone, hsame]
    exact .stay
  split at hrun
  · have hs' := Option.some.inj hrun
    unfold notify at hs'
    split at hs'
    · apply hstay
      rw [← hs', tally_condSignal]
      rfl
    · split at hs'
      · cases spawn with
        | none => exact hstay (hs' ▸ rfl)
        | some w =>
            have hw : s'.place w = .loop := by
              rw [← hs', goto_self]
            simp only [begins, hw, if_true]
            have htally : s'.tally = ⟨(s.goto w .loop).rooms, (s.nworkers + 1) % 2 ^ 16, s.nwaiters,
                s.evqWaiting⟩ := hs' ▸ rfl
            rw [htally, rooms_goto]
            refine .enter w ?_
            show (s.place w).room = .outside
            rw [hout w rfl]
            rfl
      · exact hstay (hs' ▸ rfl)
  · exact hstay (Option.some.inj hrun ▸ rfl)

/-- What a step does to the parts of the loop. -/
theorem move_step {op : SchedOp θ} (hop : ∀ w, op ≠ .abort w) (hrun : s.step op = some s') :
    Tally.Move s.tally s'.tally (s'.begins op) (ends op) := by
  have hstay : s'.tally = s.tally → Tally.Move s.tally s'.tally none none := by
    intro hsame
    rw [hsame]
    exact .stay
  have htask : ∀ {w}, op.taskWorker = some w → s'.tally = s.tally := by
    intro w hw
    obtain ⟨t, id, c, hplace, rfl⟩ := task_of_step hw hrun
    have hroom : s.rooms w = .loop := by
      rcases hplace with hplace | hplace <;> exact congrArg Place.room hplace
    refine (tally_goto (s := { s with tasks := t }) ?_).trans rfl
    split <;> exact hroom.symm
  cases op with
  | put realloc pick spawn => exact move_put hrun
  | resume task =>
      obtain ⟨t, -, rfl⟩ := Option.map_eq_some_iff.mp hrun
      exact hstay rfl
  | terminate task interrupt =>
      simp only [step] at hrun
      split at hrun
      · exact hstay (Option.some.inj hrun ▸ tally_evqSignal _ interrupt)
      · exact hstay (Option.some.inj hrun ▸ rfl)
  | eventAdded task ev pick =>
      obtain ⟨-, hrun⟩ := Option.ite_none_right_eq_some.mp hrun
      apply hstay
      rw [← Option.some.inj hrun]
      split
      · exact tally_notifyReady s pick
      · rfl
  | eventReady task ev pick =>
      obtain ⟨-, hrun⟩ := Option.ite_none_right_eq_some.mp hrun
      apply hstay
      rw [← Option.some.inj hrun]
      split
      · exact tally_notifyReady s pick
      · rfl
  | stop stop pick => exact hstay (Option.some.inj hrun ▸ tally_condSignal _ pick)
  | eventQueue evq =>
      obtain ⟨-, hrun⟩ := Option.ite_none_right_eq_some.mp hrun
      exact hstay (Option.some.inj hrun ▸ rfl)
  | enter w =>
      obtain ⟨hat, hrun⟩ := Option.ite_none_right_eq_some.mp hrun
      have htally : s'.tally = ⟨(s.goto w .loop).rooms, (s.nworkers + 1) % 2 ^ 16, s.nwaiters,
          s.evqWaiting⟩ := Option.some.inj hrun ▸ rfl
      rw [htally, rooms_goto]
      exact .enter w (congrArg Place.room hat)
  | take w => exact hstay (htask rfl)
  | yield w => exact hstay (htask rfl)
  | done w => exact hstay (htask rfl)
  | suspend w canYield => exact hstay (htask rfl)
  | eventAdd w res canYield => exact hstay (htask rfl)
  | idle w =>
      obtain ⟨⟨hat, -⟩, hrun⟩ := Option.ite_none_right_eq_some.mp hrun
      have hroom : s.rooms w = .loop := congrArg Place.room hat
      have hs' := Option.some.inj hrun
      unfold loopIdle at hs'
      split at hs'
      · next hfree =>
        have htally : s'.tally = ⟨(s.goto w .evqLoop).rooms, s.nworkers, s.nwaiters, true⟩ := hs' ▸ rfl
        rw [htally, rooms_goto]
        exact .poll w hroom hfree.2.2
      · have htally : s'.tally = ⟨(s.goto w .condWait).rooms, s.nworkers, (s.nwaiters + 1) % 2 ^ 16,
            s.evqWaiting⟩ := hs' ▸ rfl
        rw [htally, rooms_goto]
        exact .wait w hroom
  | condTimeout w =>
      obtain ⟨hat, hrun⟩ := Option.ite_none_right_eq_some.mp hrun
      have hroom : s.rooms w = .cond := congrArg Place.room hat
      exact hstay (Option.some.inj hrun ▸ tally_goto hroom.symm)
  | condWake w =>
      obtain ⟨hat, hrun⟩ := Option.ite_none_right_eq_some.mp hrun
      have hroom : s.rooms w = .cond := by
        unfold rooms
        cases hplace : s.place w <;> simp_all [Place.counted, Place.room]
      have hwake : ∀ n, n = (s.nwaiters + (2 ^ 16 - 1)) % 2 ^ 16 →
          s' = ({ s with nwaiters := n }).goto w .loop → Tally.Move s.tally s'.tally none none := by
        rintro n hn rfl
        have htally : (({ s with nwaiters := n }).goto w .loop).tally =
            ⟨(s.goto w .loop).rooms, s.nworkers, n, s.evqWaiting⟩ := rfl
        rw [htally, rooms_goto]
        exact .wake w n hroom hn
      exact hwake _ rfl (Option.some.inj hrun).symm
  | evqBlock w =>
      obtain ⟨hat, hrun⟩ := Option.ite_none_right_eq_some.mp hrun
      have hroom : s.rooms w = .evq := congrArg Place.room hat
      exact hstay (Option.some.inj hrun ▸ tally_goto hroom.symm)
  | evqInterrupt w =>
      obtain ⟨hat, hrun⟩ := Option.ite_none_right_eq_some.mp hrun
      have hroom : s.rooms w = .evq := congrArg Place.room hat
      exact hstay (Option.some.inj hrun ▸ tally_goto hroom.symm)
  | evqWake w =>
      simp only [step] at hrun
      split at hrun
      · next b hat =>
        have hroom : s.rooms w = .evq := congrArg Place.room hat
        exact hstay (Option.some.inj hrun ▸ tally_goto hroom.symm)
      · cases hrun
  | evqReturn w =>
      obtain ⟨hat, hrun⟩ := Option.ite_none_right_eq_some.mp hrun
      have htally : s'.tally = ⟨(s.goto w .loop).rooms, s.nworkers, s.nwaiters, false⟩ :=
        Option.some.inj hrun ▸ rfl
      rw [htally, rooms_goto]
      exact .polled w (congrArg Place.room hat)
  | leave w pick =>
      obtain ⟨hat, hrun⟩ := Option.ite_none_right_eq_some.mp hrun
      rw [← Option.some.inj hrun]
      exact move_loopEnd pick (congrArg Place.room hat)
  | leaveStop w pick =>
      obtain ⟨⟨hat, -⟩, hrun⟩ := Option.ite_none_right_eq_some.mp hrun
      rw [← Option.some.inj hrun, ← tally_condSignal s pick]
      apply move_loopEnd
      have hrooms : (s.condSignal pick).rooms = s.rooms := congrArg Tally.rooms (tally_condSignal s pick)
      rw [hrooms]
      exact congrArg Place.room hat
  | abort w => exact absurd rfl (hop w)

end SchedSys

/-! ## The invariant -/

namespace Tally

variable {c c' : Tally θ} {w : θ}

/-- The counters and the flag are as the threads are; one thread at most is in the queue. -/
structure Sound (c : Tally θ) : Prop where
  workers : Census c.rooms (· ≠ .outside) c.nworkers
  workers_lt : c.nworkers < 2 ^ 16
  waiters : Census c.rooms (· = .cond) c.nwaiters
  evqWaiting : c.evqWaiting = true ↔ ∃ w, c.rooms w = .evq
  evq_unique : ∀ w w', c.rooms w = .evq → c.rooms w' = .evq → w = w'

/-- A move between other parts does not concern the queue. -/
theorem Sound.evq_update (h : Sound c) {r : Room} (hold : c.rooms w ≠ .evq) (hr : r ≠ .evq) :
    (c.evqWaiting = true ↔ ∃ w', Function.update c.rooms w r w' = .evq) ∧
      ∀ w₁ w₂, Function.update c.rooms w r w₁ = .evq → Function.update c.rooms w r w₂ = .evq → w₁ = w₂ := by
  have hsame : ∀ w', Function.update c.rooms w r w' = .evq ↔ c.rooms w' = .evq := by
    intro w'
    by_cases hw : w' = w
    · subst hw
      rw [Function.update_self]
      exact iff_of_false hr hold
    · rw [Function.update_of_ne hw]
  simp only [hsame]
  exact ⟨h.evqWaiting, h.evq_unique⟩

theorem Sound.move (h : Sound c) {a b : Option θ} (hmove : Move c c' a b)
    (hlt : a ≠ none → c.nworkers + 1 < 2 ^ 16) : Sound c' := by
  cases hmove with
  | stay => exact h
  | enter w hold =>
      have hmod : (c.nworkers + 1) % 2 ^ 16 = c.nworkers + 1 := Nat.mod_eq_of_lt (hlt (by simp))
      obtain ⟨hevq, hunique⟩ := h.evq_update (w := w) (r := .loop) (by simp [hold]) (by simp)
      refine ⟨?_, ?_, h.waiters.same (by simp [hold]), hevq, hunique⟩
      · show Census _ _ ((c.nworkers + 1) % 2 ^ 16)
        rw [hmod]
        exact h.workers.gain (by simp) (by simp [hold])
      · show (c.nworkers + 1) % 2 ^ 16 < 2 ^ 16
        omega
  | leave w n hold hn =>
      have hpos : 0 < c.nworkers := h.workers.pos (a := w) (by simp [hold])
      have hworkers := h.workers_lt
      have hmod : n = c.nworkers - 1 := by omega
      obtain ⟨hevq, hunique⟩ := h.evq_update (w := w) (r := .outside) (by simp [hold]) (by simp)
      subst hmod
      refine ⟨h.workers.lose (by simp) (by simp [hold]), ?_, h.waiters.same (by simp [hold]), hevq,
        hunique⟩
      show c.nworkers - 1 < 2 ^ 16
      omega
  | wait w hold =>
      -- The thread is a worker that does not wait, so there are fewer threads that wait.
      have hless : c.nwaiters < c.nworkers :=
        h.waiters.lt_of_imp h.workers (a := w) (fun b hb => by simp [hb]) (by simp [hold]) (by simp [hold])
      have hworkers := h.workers_lt
      have hmod : (c.nwaiters + 1) % 2 ^ 16 = c.nwaiters + 1 := Nat.mod_eq_of_lt (by omega)
      obtain ⟨hevq, hunique⟩ := h.evq_update (w := w) (r := .cond) (by simp [hold]) (by simp)
      refine ⟨h.workers.same (by simp [hold]), h.workers_lt, ?_, hevq, hunique⟩
      show Census _ _ ((c.nwaiters + 1) % 2 ^ 16)
      rw [hmod]
      exact h.waiters.gain rfl (by simp [hold])
  | wake w n hold hn =>
      have hpos : 0 < c.nwaiters := h.waiters.pos hold
      have hle : c.nwaiters < 2 ^ 16 := by
        have hless := h.waiters.le_of_imp h.workers (fun b hb => by simp [hb])
        have := h.workers_lt
        omega
      have hmod : n = c.nwaiters - 1 := by omega
      obtain ⟨hevq, hunique⟩ := h.evq_update (w := w) (r := .loop) (by simp [hold]) (by simp)
      subst hmod
      exact ⟨h.workers.same (by simp [hold]), h.workers_lt, h.waiters.lose (by simp) hold, hevq, hunique⟩
  | poll w hold hfree =>
      have hnone : ∀ w', c.rooms w' ≠ .evq := by
        intro w' hw'
        have := h.evqWaiting.mpr ⟨w', hw'⟩
        simp [hfree] at this
      have honly : ∀ w', Function.update c.rooms w .evq w' = .evq → w' = w := by
        intro w' hw'
        by_contra hne
        rw [Function.update_of_ne hne] at hw'
        exact hnone w' hw'
      refine ⟨h.workers.same (by simp [hold]), h.workers_lt, h.waiters.same (by simp [hold]), ?_, ?_⟩
      · exact iff_of_true rfl ⟨w, Function.update_self ..⟩
      · intro w₁ w₂ h₁ h₂
        rw [honly w₁ h₁, honly w₂ h₂]
  | polled w hold =>
      have hnone : ∀ w', Function.update c.rooms w .loop w' ≠ .evq := by
        intro w' hw'
        by_cases hw : w' = w
        · subst hw
          simp at hw'
        · rw [Function.update_of_ne hw] at hw'
          exact hw (h.evq_unique w' w hw' hold)
      refine ⟨h.workers.same (by simp [hold]), h.workers_lt, h.waiters.same (by simp [hold]), ?_, ?_⟩
      · exact iff_of_false (by simp) (not_exists.mpr hnone)
      · exact fun w₁ _ h₁ => absurd h₁ (hnone w₁)

/-- The threads outside stay outside, and the others stay inside. -/
theorem Move.outside_iff (hmove : Move c c' none none) (w : θ) :
    c'.rooms w = .outside ↔ c.rooms w = .outside := by
  have hupdate : ∀ w' r, c.rooms w' ≠ .outside → r ≠ Room.outside →
      (Function.update c.rooms w' r w = .outside ↔ c.rooms w = .outside) := by
    intro w' r hold hr
    by_cases hw : w = w'
    · subst hw
      rw [Function.update_self]
      exact iff_of_false hr hold
    · rw [Function.update_of_ne hw]
  cases hmove with
  | stay => exact Iff.rfl
  | wait w' hold => exact hupdate w' .cond (by simp [hold]) (by simp)
  | wake w' n hold hn => exact hupdate w' .loop (by simp [hold]) (by simp)
  | poll w' hold hfree => exact hupdate w' .evq (by simp [hold]) (by simp)
  | polled w' hold => exact hupdate w' .loop (by simp [hold]) (by simp)

end Tally

end Moves

namespace LoopCtx

variable {θ : Type*} {s s' : LoopCtx θ} {sys : SchedSys θ} {t w : θ}

/-- The tally is sound; a thread has a call as long as it is inside; and the pointers are to
such calls. -/
structure Inv (s : LoopCtx θ) : Prop where
  tally : s.sys.tally.Sound
  outer : ∀ t, s.outer t = []
  inside : ∀ t, s.call t = none ↔ s.sys.rooms t = .outside
  schedCtx : s.schedCtx = s.call
  ctx : ∀ n, s.ctx = some n → ∃ t, s.call t = some n

theorem init_inv (maxWorkers : ℕ) (main : θ) : (init maxWorkers main).Inv := by
  refine ⟨⟨Census.zero ?_, Nat.two_pow_pos 16, Census.zero ?_, ?_, ?_⟩, ?_, ?_, rfl, ?_⟩
  all_goals simp [init, SchedSys.init, SchedSys.tally, SchedSys.rooms, Place.room]

namespace Inv

theorem restored (h : Inv s) : s.Restored where
  workers := h.tally.workers
  waiters := h.tally.waiters
  evqWaiting := h.tally.evqWaiting
  schedCtx := fun t n hctx => ⟨t, .inl (h.schedCtx ▸ hctx)⟩
  ctx := fun n hctx => by
    obtain ⟨t, ht⟩ := h.ctx n hctx
    exact ⟨t, .inl ht⟩

theorem vmLeave (h : Inv s) (t : θ) : (s.vmLeave t).Inv := by
  refine ⟨h.tally, h.outer, h.inside, h.schedCtx, fun n hctx => ?_⟩
  have hctx' : (if s.schedCtx t = none then s.ctx else none) = some n := hctx
  split at hctx'
  · exact h.ctx n hctx'
  · cases hctx'

theorem vmEnter (h : Inv s) (t : θ) : (s.vmEnter t).Inv := by
  refine ⟨h.tally, h.outer, h.inside, h.schedCtx, fun n hctx => ?_⟩
  have hctx' : (if s.schedCtx t = none then s.ctx else s.schedCtx t) = some n := hctx
  split at hctx'
  · exact h.ctx n hctx'
  · exact ⟨t, h.schedCtx ▸ hctx'⟩

variable [DecidableEq θ]

/-- No thread enters or leaves the loop. -/
theorem withSys (h : Inv s) (hmove : Tally.Move s.sys.tally sys.tally none none) :
    Inv { s with sys := sys } where
  tally := h.tally.move hmove (absurd rfl)
  outer := h.outer
  inside := fun t => (h.inside t).trans (hmove.outside_iff t).symm
  schedCtx := h.schedCtx
  ctx := h.ctx

/-- A thread begins or ends a call, and enters or leaves the loop. -/
theorem inside_update {call : θ → Option ℕ} {rooms : θ → Room} {c : Option ℕ} {r : Room}
    (h : ∀ t, call t = none ↔ rooms t = .outside) (hcr : c = none ↔ r = .outside) (t : θ) :
    Function.update call w c t = none ↔ Function.update rooms w r t = .outside := by
  by_cases ht : t = w
  · subst ht
    rwa [Function.update_self, Function.update_self]
  · rw [Function.update_of_ne ht, Function.update_of_ne ht]
    exact h t

/-- A thread enters the loop. -/
theorem beginCall (h : Inv s) (hmove : Tally.Move s.sys.tally sys.tally (some w) none)
    (hlt : s.sys.nworkers + 1 < 2 ^ 16) : (({ s with sys := sys }).beginCall w).Inv := by
  have hsound := h.tally.move hmove fun _ => hlt
  have hrooms : sys.rooms = Function.update s.sys.rooms w .loop := by
    generalize hc : sys.tally = c at hmove
    cases hmove with
    | enter _ hold => exact congrArg Tally.rooms hc
  refine ⟨hsound, h.outer, fun t => ?_, ?_, fun n hctx => ⟨w, ?_⟩⟩
  · show Function.update s.call w (some s.ncalls) t = none ↔ sys.rooms t = .outside
    rw [hrooms]
    exact inside_update h.inside (by simp) t
  · show Function.update s.schedCtx w _ = Function.update s.call w _
    rw [h.schedCtx]
  · show Function.update s.call w (some s.ncalls) w = some n
    rw [Function.update_self]
    exact hctx

/-- A thread leaves the loop through its end. -/
theorem finish (h : Inv s) (hmove : Tally.Move s.sys.tally sys.tally none (some w)) :
    (({ s with sys := sys }).finish w).Inv := by
  have hsound := h.tally.move hmove (absurd rfl)
  have hrooms : sys.rooms = Function.update s.sys.rooms w .outside := by
    generalize hc : sys.tally = c at hmove
    cases hmove with
    | leave _ n hold hn => exact congrArg Tally.rooms hc
  simp only [LoopCtx.finish, endCall, h.outer]
  refine ⟨hsound, h.outer, fun t => ?_, ?_, fun n hctx => ?_⟩
  · show Function.update s.call w none t = none ↔ sys.rooms t = .outside
    rw [hrooms]
    exact inside_update h.inside (by simp) t
  · show Function.update s.schedCtx w none = Function.update s.call w none
    rw [h.schedCtx]
  · cases hctx

/-- A step of the scheduler. -/
theorem sched (h : Inv s) {op : SchedOp θ} (hop : ∀ w, op ≠ .abort w)
    (hworker : ∀ w ∈ op.worker, w = t) (hsafe : LoopOp.Safe s (.sched t op))
    (hrun : s.sys.step op = some sys) : (s.after t sys op).Inv := by
  have hmove := SchedSys.move_step hop hrun
  cases op with
  | enter w =>
      obtain rfl := hworker w rfl
      exact h.beginCall hmove hsafe
  | put realloc pick spawn =>
      cases spawn with
      | none => exact h.withSys hmove
      | some w =>
          simp only [after]
          simp only [SchedSys.begins] at hmove
          split
          · next hw =>
            rw [if_pos hw] at hmove
            exact Inv.beginCall (s := s.vmLeave t) (h.vmLeave t) hmove (hsafe (by simp))
          · next hw =>
            rw [if_neg hw] at hmove
            exact h.withSys hmove
  | leave w pick =>
      obtain rfl := hworker w rfl
      exact h.finish hmove
  | leaveStop w pick =>
      obtain rfl := hworker w rfl
      exact h.finish hmove
  | idle w =>
      simp only [after]
      split
      · exact (h.withSys hmove).vmLeave t
      · exact h.withSys hmove
  | evqBlock w => exact (h.withSys hmove).vmLeave t
  | condWake w => exact (h.withSys hmove).vmEnter t
  | evqWake w => exact (h.withSys hmove).vmEnter t
  | abort w => exact absurd rfl (hop w)
  | _ => exact h.withSys hmove

end Inv

variable [DecidableEq θ]

/-- The transitions of a run with safe steps only. -/
def SafeStep (s s' : LoopCtx θ) : Prop := ∃ op : LoopOp θ, op.Safe s ∧ s.step op = some s'

/-- A safe step keeps the invariant. -/
theorem SafeStep.inv (hstep : SafeStep s s') (h : s.Inv) : s'.Inv := by
  obtain ⟨op, hsafe, hop⟩ := hstep
  cases op with
  | sched t op =>
      have hne : ∀ w, op ≠ .abort w := by
        rintro w rfl
        simp [step] at hop
      have hstep : s.step (.sched t op) =
          if (∀ w ∈ op.worker, w = t) ∧ (∀ w ∈ op.spawn, w ≠ t) ∧ ∀ v ∈ op.vm t, s.vm = v then
            (s.sys.step op).map fun sys => s.after t sys op
          else none := by
        cases op <;> first | rfl | exact absurd rfl (hne _)
      rw [hstep] at hop
      obtain ⟨hcond, hop⟩ := Option.ite_none_right_eq_some.mp hop
      obtain ⟨sys, hrun, rfl⟩ := Option.map_eq_some_iff.mp hop
      exact h.sched hne hcond.1 hsafe hrun
  | vmLeave t =>
      obtain ⟨-, heq⟩ := Option.ite_none_right_eq_some.mp hop
      exact Option.some.inj heq ▸ h.vmLeave t
  | vmEnter t =>
      obtain ⟨-, heq⟩ := Option.ite_none_right_eq_some.mp hop
      exact Option.some.inj heq ▸ h.vmEnter t
  | enterInner t => exact hsafe.elim
  | abort t how => exact hsafe.elim

end LoopCtx

/-- **Leaving the loop.**  In every run of safe steps the counters of the workers and of the
waiting threads and the flag of the event queue are as the threads are, and no pointer is
to the context of a loop that has ended. -/
theorem safe_run_restored {θ : Type*} [DecidableEq θ] {maxWorkers : ℕ} {main : θ} {s : LoopCtx θ}
    (hrun : Relation.ReflTransGen LoopCtx.SafeStep (LoopCtx.init maxWorkers main) s) : s.Restored :=
  (inv_of_reach (fun _ _ hstep => hstep.inv) (LoopCtx.init_inv maxWorkers main) hrun).restored

/-- Two workers: one waits for the condition, and the other one leaves. -/
theorem safe_run_restored_twoWorkers :
    ∃ s : LoopCtx Bool, Relation.ReflTransGen LoopCtx.SafeStep (LoopCtx.init 2 true) s ∧
      s.sys.nworkers = 1 ∧ s.sys.nwaiters = 1 ∧ s.schedCtx true = none ∧ s.Restored := by
  have hrun : Relation.ReflTransGen LoopCtx.SafeStep (LoopCtx.init 2 true : LoopCtx Bool) _ :=
    .tail (.tail (.tail (.tail (.tail .refl
      ⟨.vmLeave true, trivial, rfl⟩)
      ⟨.vmEnter false, trivial, rfl⟩)
      ⟨.sched false (.enter false), show 0 + 1 < 2 ^ 16 by decide, rfl⟩)
      ⟨.sched false (.idle false), trivial, rfl⟩)
      ⟨.vmEnter true, trivial, rfl⟩
  have hrun' : Relation.ReflTransGen LoopCtx.SafeStep (LoopCtx.init 2 true : LoopCtx Bool) _ :=
    .tail (.tail hrun
      ⟨.sched true (.enter true), show 1 + 1 < 2 ^ 16 by decide, rfl⟩)
      ⟨.sched true (.leave true true), trivial, rfl⟩
  exact ⟨_, hrun', rfl, rfl, rfl, safe_run_restored hrun'⟩

/-- A worker waits for the condition, and an interrupt is noticed when it wakes up. -/
def interruptedWorkerOps : List (LoopOp Unit) :=
  [.sched () (.enter ()), .sched () (.idle ()), .sched () (.condTimeout ()), .sched () (.condWake ()),
    .abort () .error]

/-- The worker is counted although there is none. -/
theorem interrupted_worker_counted :
    ∃ s : LoopCtx Unit, Relation.ReflTransGen LoopCtx.Step (LoopCtx.init 1 ()) s ∧ ¬s.Restored := by
  have hrun : (runOps LoopCtx.step (LoopCtx.init 1 ()) interruptedWorkerOps).map
      (fun s => (s.sys.place (), s.sys.nworkers)) = some (.outside, 1) := rfl
  obtain ⟨s, hs, heq⟩ := Option.map_eq_some_iff.mp hrun
  obtain ⟨hplace, hworkers⟩ := Prod.mk.inj heq
  refine ⟨s, reach_of_runOps (fun _ op _ hop => ⟨op, hop⟩) hs, fun hrestored => ?_⟩
  have hzero : Census s.sys.rooms (· ≠ .outside) 0 := by
    apply Census.zero
    intro w
    have hroom : s.sys.rooms w = .outside := congrArg Place.room hplace
    simp [hroom]
  have hone := hrestored.workers.unique hzero
  simp [hworkers] at hone

end LuaSys.Thread
