import LuaSys.Lib.Sync
import LuaSys.Thread.PipeThreads

/-!
# The events of `thread_sync.c`

Where the system has no event of its own, `thread_event_t` is made of a condition, a critical
section and the flag `signalled`.  A wait leaves its VM, enters the critical section, and blocks on
the condition until it finds the flag set; it clears the flag, leaves the critical section and
enters its VM again.  A signal sets the flag and wakes one of the blocked threads.

A wait may wake up without a reason, after its timeout, or by an error, and between the signal and
the woken thread another one may take the flag.  To the callers this is all the same: they use an
event that resets itself, as Windows has it.

A thread does not wait for its VM while it is in the critical section; in the pipe it does.  So
here each thread gets back to its VM.

## Main definitions

* `EventPhase` — where a thread is.
* `EventThreads`, `EventOp`, `EventThreads.step` — an event with its threads, and their steps.
* `EventThreads.view`, `EventThreads.label` — the same for the callers.
* `EventThreads.Inv` — who holds which lock, and why no signal is lost.

## Main results

* `event_run` — it is an event that resets itself, and no signal is taken twice.
* `signal_taken` — while a thread is blocked and the flag is set, some wait can take the signal,
  without a timeout and without another signal.
* `event_return` — each thread that is not blocked gets back to its VM, or blocks.
-/

namespace LuaSys.Thread

open LuaSys.Lib Relation

/-- The result of `thread_event_wait`. -/
def WaitEnd.result : WaitEnd → ℤ
  | .signal | .spurious => 0
  | .timedOut => 1
  | .failed => -1

/-- Where a thread is; `timed` says whether the wait has a timeout. -/
inductive EventPhase
  /-- Without the lock of its VM. -/
  | away
  /-- With the lock of its VM, in Lua code. -/
  | running
  /-- In `thread_event_wait`, without the VM lock, in `thread_critsect_enter`. -/
  | entering (timed : Bool)
  /-- With the critical section, before the test of the loop; `res` as it will be returned. -/
  | testing (timed : Bool) (res : ℤ)
  /-- Blocked on the condition. -/
  | parked (timed : Bool)
  /-- Woken up, but not yet with the critical section. -/
  | woken (timed : Bool) (res : ℤ)
  /-- Behind the critical section, in `sys_vm2_enter`. -/
  | returning (res : ℤ)
  /-- In `thread_event_signal`, with the VM lock, in `thread_critsect_enter`. -/
  | notifying
  /-- With both locks. -/
  | flagging

namespace EventPhase

/-- The thread holds the lock of its VM. -/
def inVm : EventPhase → Bool
  | .running | .notifying | .flagging => true
  | _ => false

/-- The thread holds the critical section. -/
def inCs : EventPhase → Bool
  | .testing _ _ | .flagging => true
  | _ => false

def isParked : EventPhase → Bool
  | .parked _ => true
  | _ => false

/-- The thread is in its loop, has been woken up without an error, and will test the flag. -/
def isAwake : EventPhase → Bool
  | .woken _ res | .testing _ res => res = 0
  | _ => false

/-- Where a thread comes to with the critical section. -/
def locked : EventPhase → Option EventPhase
  | .entering timed => some (.testing timed 0)
  | .woken timed res => some (.testing timed res)
  | .notifying => some .flagging
  | _ => none

/-- What a caller sees. -/
def place : EventPhase → EventPlace
  | .away | .running | .notifying | .flagging => .outside
  | .entering _ | .testing _ _ | .parked _ | .woken _ _ => .waiting
  | .returning res => .returned (res = 0)

end EventPhase

/-- An event with its threads. -/
structure EventThreads (ν θ : Type*) where
  signalled : Bool
  /-- The thread with the critical section. -/
  cs : Option θ
  /-- The thread with the lock of each VM. -/
  vm : ν → Option θ
  phase : θ → EventPhase

/-- The steps of the threads; `pick` is the thread that a signal wakes. -/
inductive EventOp (θ : Type*)
  | vmEnter (t : θ)
  | vmLeave (t : θ)
  /-- A call of `thread_event_wait`, which leaves the VM. -/
  | wait (t : θ) (timed : Bool)
  /-- A call of `thread_event_signal`. -/
  | signal (t : θ)
  /-- The thread gets the critical section, at first or after it was blocked. -/
  | lock (t : θ)
  /-- The loop of `thread_cond_wait_value` tests the flag. -/
  | test (t : θ)
  /-- The flag is set, and a blocked thread is woken. -/
  | flag (t pick : θ)
  /-- The wait for the condition ends by itself. -/
  | wake (t : θ) (e : WaitEnd)
  /-- The thread gets its VM back. -/
  | resume (t : θ)

namespace EventOp

variable {θ : Type*}

/-- The event is signalled. -/
def isFlag : EventOp θ → Bool
  | .flag _ _ => true
  | _ => false

/-- A step of the code that a thread is in; it ends no wait by itself, and calls nothing. -/
def isOwn : EventOp θ → Bool
  | .vmLeave _ | .lock _ | .test _ | .flag _ _ | .resume _ => true
  | .vmEnter _ | .wait _ _ | .signal _ | .wake _ _ => false

end EventOp

namespace EventThreads

variable {ν θ : Type*}

/-- `thread_event_new`; the threads are elsewhere. -/
def init : EventThreads ν θ where
  signalled := false
  cs := none
  vm _ := none
  phase _ := .away

/-- The event, as its callers see it. -/
def view (s : EventThreads ν θ) : AutoReset θ := ⟨s.signalled, fun t => (s.phase t).place⟩

/-- The operation of the event that a step stands for. -/
def label (s : EventThreads ν θ) : EventOp θ → List (AutoResetOp θ)
  | .wait t _ => [.call t]
  | .test t =>
      match s.phase t with
      | .testing _ res =>
          if res ≠ 0 then [.giveUp t] else if s.signalled then [.take t] else []
      | _ => []
  | .flag _ _ => [.signal]
  | .resume t => [.leave t]
  | _ => []

/-- `pthread_cond_signal` wakes a blocked thread, if there is one. -/
def Picks (s : EventThreads ν θ) : EventOp θ → Prop
  | .flag _ pick => (s.phase pick).isParked ∨ ∀ t, (s.phase t).isParked = false
  | _ => True

instance [Fintype θ] (s : EventThreads ν θ) : (op : EventOp θ) → Decidable (s.Picks op)
  | .flag _ _ => inferInstanceAs (Decidable (_ ∨ _))
  | .vmEnter _ | .vmLeave _ | .wait _ _ | .signal _ | .lock _ | .test _ | .wake _ _ | .resume _ =>
      inferInstanceAs (Decidable True)

variable [DecidableEq θ]

/-- The thread comes to a phase. -/
def goto (s : EventThreads ν θ) (t : θ) (p : EventPhase) : EventThreads ν θ :=
  { s with phase := Function.update s.phase t p }

/-- `thread_cond_signal`. -/
def condSignal (s : EventThreads ν θ) (pick : θ) : EventThreads ν θ :=
  match s.phase pick with
  | .parked timed => s.goto pick (.woken timed WaitEnd.signal.result)
  | _ => s

section

variable (s : EventThreads ν θ) {t : θ} {p q : EventPhase}

@[simp] theorem goto_phase_self (t : θ) (p : EventPhase) : (s.goto t p).phase t = p :=
  Function.update_self ..

theorem goto_phase_of_ne {u : θ} (hu : u ≠ t) (p : EventPhase) :
    (s.goto t p).phase u = s.phase u :=
  Function.update_of_ne hu ..

theorem condSignal_eq_or (pick : θ) : s.condSignal pick = s ∨
    ∃ timed, s.phase pick = .parked timed ∧ s.condSignal pick = s.goto pick (.woken timed 0) := by
  unfold condSignal
  split
  next timed hphase => exact .inr ⟨timed, hphase, rfl⟩
  next => exact .inl rfl

theorem condSignal_signalled (pick : θ) : (s.condSignal pick).signalled = s.signalled := by
  rcases s.condSignal_eq_or pick with heq | ⟨timed, -, heq⟩ <;> rw [heq]
  rfl

/-- A signal only concerns a thread that is blocked. -/
theorem condSignal_phase (pick : θ) (h : (s.phase t).isParked = false) :
    (s.condSignal pick).phase t = s.phase t := by
  rcases s.condSignal_eq_or pick with heq | ⟨timed, hphase, heq⟩
  · rw [heq]
  · have hne : t ≠ pick := fun hpick => by simp [hpick, hphase, EventPhase.isParked] at h
    rw [heq, goto_phase_of_ne s hne]

theorem view_goto (t : θ) (p : EventPhase) : (s.goto t p).view = s.view.goto t p.place := by
  have hplace : (fun u => ((s.goto t p).phase u).place) =
      Function.update (fun u => (s.phase u).place) t p.place := by
    funext u
    by_cases hu : u = t
    · subst hu
      rw [goto_phase_self, Function.update_self]
    · rw [goto_phase_of_ne s hu, Function.update_of_ne hu]
  rw [view, hplace]
  rfl

/-- The callers do not see every step. -/
theorem view_goto_self (p : EventPhase) (h : s.phase t = q) (hplace : p.place = q.place) :
    (s.goto t p).view = s.view := by
  rw [view_goto, AutoReset.goto, hplace, ← h]
  exact congrArg (AutoReset.mk s.signalled) (Function.update_eq_self t _)

theorem view_condSignal (pick : θ) : (s.condSignal pick).view = s.view := by
  rcases s.condSignal_eq_or pick with heq | ⟨timed, hphase, heq⟩
  · rw [heq]
  · rw [heq]
    exact view_goto_self s _ hphase rfl

theorem place_locked (h : p.locked = some q) : q.place = p.place := by
  cases p <;> cases h <;> rfl

end

section

variable [DecidableEq ν]

/-- One step; `none` when the thread is elsewhere or a lock is held. -/
def step (vmOf : θ → ν) (s : EventThreads ν θ) : EventOp θ → Option (EventThreads ν θ)
  | .vmEnter t =>
      match s.vm (vmOf t), s.phase t with
      | none, .away =>
          some ({ s with vm := Function.update s.vm (vmOf t) (some t) }.goto t .running)
      | _, _ => none
  | .vmLeave t =>
      match s.phase t with
      | .running => some ({ s with vm := Function.update s.vm (vmOf t) none }.goto t .away)
      | _ => none
  | .wait t timed =>
      match s.phase t with
      | .running =>
          some ({ s with vm := Function.update s.vm (vmOf t) none }.goto t (.entering timed))
      | _ => none
  | .signal t =>
      match s.phase t with
      | .running => some (s.goto t .notifying)
      | _ => none
  | .lock t =>
      if s.cs = none then (s.phase t).locked.map ({ s with cs := some t }.goto t) else none
  | .test t =>
      match s.phase t with
      | .testing timed res =>
          if s.signalled = false ∧ res = 0 then some ({ s with cs := none }.goto t (.parked timed))
          else
            -- The flag is cleared if the wait has not failed.
            some ({ s with signalled := s.signalled && res ≠ 0, cs := none }.goto t
              (.returning res))
      | _ => none
  | .flag t pick =>
      match s.phase t with
      | .flagging =>
          some ({ ({ s with signalled := true }.condSignal pick) with cs := none }.goto t .running)
      | _ => none
  | .wake t e =>
      match s.phase t with
      | .parked timed =>
          if e ≠ .signal ∧ (e = .timedOut → timed) then some (s.goto t (.woken timed e.result))
          else none
      | _ => none
  | .resume t =>
      match s.vm (vmOf t), s.phase t with
      | none, .returning _ =>
          some ({ s with vm := Function.update s.vm (vmOf t) (some t) }.goto t .running)
      | _, _ => none

/-- The transitions of a run. -/
def Step (vmOf : θ → ν) (s s' : EventThreads ν θ) : Prop :=
  ∃ op : EventOp θ, s.Picks op ∧ s.step vmOf op = some s'

/-- The transitions of the code that the threads are in. -/
def OwnStep (vmOf : θ → ν) (s s' : EventThreads ν θ) : Prop :=
  ∃ op : EventOp θ, op.isOwn ∧ s.Picks op ∧ s.step vmOf op = some s'

/-- What each step requires and does. -/
inductive Transition (vmOf : θ → ν) (s : EventThreads ν θ) :
    EventOp θ → EventThreads ν θ → Prop
  | vmEnter {t : θ} (hvm : s.vm (vmOf t) = none) (hphase : s.phase t = .away) :
      Transition vmOf s (.vmEnter t)
        ({ s with vm := Function.update s.vm (vmOf t) (some t) }.goto t .running)
  | vmLeave {t : θ} (hphase : s.phase t = .running) :
      Transition vmOf s (.vmLeave t)
        ({ s with vm := Function.update s.vm (vmOf t) none }.goto t .away)
  | wait {t : θ} {timed : Bool} (hphase : s.phase t = .running) :
      Transition vmOf s (.wait t timed)
        ({ s with vm := Function.update s.vm (vmOf t) none }.goto t (.entering timed))
  | signal {t : θ} (hphase : s.phase t = .running) :
      Transition vmOf s (.signal t) (s.goto t .notifying)
  | lock {t : θ} {p : EventPhase} (hcs : s.cs = none) (hphase : (s.phase t).locked = some p) :
      Transition vmOf s (.lock t) ({ s with cs := some t }.goto t p)
  | park {t : θ} {timed : Bool} (hphase : s.phase t = .testing timed 0)
      (hsig : s.signalled = false) :
      Transition vmOf s (.test t) ({ s with cs := none }.goto t (.parked timed))
  | take {t : θ} {timed : Bool} (hphase : s.phase t = .testing timed 0)
      (hsig : s.signalled = true) :
      Transition vmOf s (.test t)
        ({ s with signalled := false, cs := none }.goto t (.returning 0))
  | giveUp {t : θ} {timed : Bool} {res : ℤ} (hphase : s.phase t = .testing timed res)
      (hres : res ≠ 0) :
      Transition vmOf s (.test t) ({ s with cs := none }.goto t (.returning res))
  | flag {t pick : θ} (hphase : s.phase t = .flagging) :
      Transition vmOf s (.flag t pick)
        ({ ({ s with signalled := true }.condSignal pick) with cs := none }.goto t .running)
  | wake {t : θ} {e : WaitEnd} {timed : Bool} (hphase : s.phase t = .parked timed) :
      Transition vmOf s (.wake t e) (s.goto t (.woken timed e.result))
  | resume {t : θ} {res : ℤ} (hvm : s.vm (vmOf t) = none) (hphase : s.phase t = .returning res) :
      Transition vmOf s (.resume t)
        ({ s with vm := Function.update s.vm (vmOf t) (some t) }.goto t .running)

variable {vmOf : θ → ν} {s s' : EventThreads ν θ} {op : EventOp θ} {t : θ}

/-- The steps are the transitions. -/
theorem transition_of_step (hstep : s.step vmOf op = some s') : Transition vmOf s op s' := by
  cases op with
  | vmEnter t =>
      simp only [step] at hstep
      split at hstep
      case h_1 hvm hphase => exact Option.some.inj hstep ▸ .vmEnter hvm hphase
      case h_2 => cases hstep
  | vmLeave t =>
      simp only [step] at hstep
      split at hstep
      case h_1 hphase => exact Option.some.inj hstep ▸ .vmLeave hphase
      case h_2 => cases hstep
  | wait t timed =>
      simp only [step] at hstep
      split at hstep
      case h_1 hphase => exact Option.some.inj hstep ▸ .wait hphase
      case h_2 => cases hstep
  | signal t =>
      simp only [step] at hstep
      split at hstep
      case h_1 hphase => exact Option.some.inj hstep ▸ .signal hphase
      case h_2 => cases hstep
  | lock t =>
      obtain ⟨hcs, hmap⟩ := Option.ite_none_right_eq_some.mp hstep
      obtain ⟨p, hphase, rfl⟩ := Option.map_eq_some_iff.mp hmap
      exact .lock hcs hphase
  | test t =>
      simp only [step] at hstep
      split at hstep
      case h_1 timed res hphase =>
        split at hstep
        next hpark =>
          obtain ⟨hsig, rfl⟩ := hpark
          exact Option.some.inj hstep ▸ .park hphase hsig
        next hpark =>
          obtain rfl := Option.some.inj hstep
          by_cases hres : res = 0
          · subst hres
            have hsig : s.signalled = true := by simpa using hpark
            simpa using Transition.take hphase hsig
          · simpa [hres] using Transition.giveUp hphase hres
      case h_2 => cases hstep
  | flag t pick =>
      simp only [step] at hstep
      split at hstep
      case h_1 hphase => exact Option.some.inj hstep ▸ .flag hphase
      case h_2 => cases hstep
  | wake t e =>
      simp only [step] at hstep
      split at hstep
      case h_1 timed hphase =>
        obtain ⟨-, heq⟩ := Option.ite_none_right_eq_some.mp hstep
        exact Option.some.inj heq ▸ .wake hphase
      case h_2 => cases hstep
  | resume t =>
      simp only [step] at hstep
      split at hstep
      case h_1 res hvm hphase => exact Option.some.inj hstep ▸ .resume hvm hphase
      case h_2 => cases hstep

/-! ## The event, as its callers see it -/

/-- **One step.**  Each step stands for an operation of the event, or for none. -/
theorem step_label (s : EventThreads ν θ) (op : EventOp θ) (s' : EventThreads ν θ)
    (hstep : s.step vmOf op = some s') :
    runOps AutoReset.step s.view (s.label op) = some s'.view := by
  cases transition_of_step hstep with
  | @vmEnter t hvm hphase => exact congrArg some (view_goto_self _ .running hphase rfl).symm
  | @vmLeave t hphase => exact congrArg some (view_goto_self _ .away hphase rfl).symm
  | @wait t timed hphase =>
      have hplace : s.view.place t = .outside := congrArg EventPhase.place hphase
      rw [label, runOps_singleton, AutoReset.step, if_pos hplace, view_goto]
      rfl
  | @signal t hphase => exact congrArg some (view_goto_self _ .notifying hphase rfl).symm
  | @lock t p hcs hphase => exact congrArg some (view_goto_self _ p rfl (place_locked hphase)).symm
  | @park t timed hphase hsig =>
      have hlabel : s.label (.test t) = [] := by simp [label, hphase, hsig]
      rw [hlabel]
      exact congrArg some (view_goto_self _ (.parked timed) hphase rfl).symm
  | @take t timed hphase hsig =>
      have hlabel : s.label (.test t) = [.take t] := by simp [label, hphase, hsig]
      have hplace : s.view.place t = .waiting := congrArg EventPhase.place hphase
      rw [hlabel, runOps_singleton, AutoReset.step, if_pos ⟨hplace, hsig⟩, view_goto]
      rfl
  | @giveUp t timed res hphase hres =>
      have hlabel : s.label (.test t) = [.giveUp t] := by simp [label, hphase, hres]
      have hplace : s.view.place t = .waiting := congrArg EventPhase.place hphase
      rw [hlabel, runOps_singleton, AutoReset.step, if_pos hplace, view_goto]
      simp [EventPhase.place, hres, view]
  | @flag t pick hphase =>
      let s₁ : EventThreads ν θ := { s with signalled := true }.condSignal pick
      have hphase₁ : s₁.phase t = .flagging := by
        rw [← hphase]
        exact condSignal_phase _ pick (by rw [hphase]; rfl)
      have hview : ({ s₁ with cs := none }.goto t .running).view = s₁.view :=
        view_goto_self _ .running hphase₁ rfl
      rw [label, runOps_singleton, AutoReset.step, hview, view_condSignal]
      rfl
  | @wake t e timed hphase =>
      exact congrArg some (view_goto_self _ (.woken timed e.result) hphase rfl).symm
  | @resume t res hvm hphase =>
      have hplace : s.view.place t = .returned (res = 0) := congrArg EventPhase.place hphase
      rw [label, runOps_singleton, AutoReset.step, hplace, view_goto]
      rfl

/-- Exactly the steps that set the flag are signals. -/
theorem countP_isSignal (s : EventThreads ν θ) (ops : List (EventOp θ)) :
    (labels (step vmOf) label s ops).countP AutoResetOp.isSignal ≤ ops.countP EventOp.isFlag := by
  induction ops generalizing s with
  | nil => exact Nat.le_refl 0
  | cons op ops ih =>
      have hone : (s.label op).countP AutoResetOp.isSignal ≤ if op.isFlag then 1 else 0 := by
        cases op with
        | test t =>
            simp only [label]
            split
            · split_ifs <;> exact Nat.zero_le _
            · exact Nat.zero_le _
        | _ => exact Nat.le_refl _
      rw [labels, List.countP_append, List.countP_cons, Nat.add_comm]
      refine Nat.add_le_add ?_ hone
      cases step vmOf s op with
      | none => exact Nat.zero_le _
      | some s₁ => exact ih s₁

/-- **The event resets itself.**  A run is a run of such an event, as far as the callers see it; and
the waits that have returned zero are not more than the signals. -/
theorem event_run {ops : List (EventOp θ)} (hrun : runOps (step vmOf) init ops = some s) :
    let acts := labels (step vmOf) label init ops
    runOps AutoReset.step AutoReset.init acts = some s.view ∧
      acts.countP AutoResetOp.isTake ≤ ops.countP EventOp.isFlag := by
  intro acts
  have hacts : runOps AutoReset.step (view init) acts = some s.view := runOps_labels step_label hrun
  refine ⟨hacts, ?_⟩
  calc acts.countP AutoResetOp.isTake
      ≤ acts.countP AutoResetOp.isTake + s.view.signalled.toNat := Nat.le_add_right _ _
    _ ≤ acts.countP AutoResetOp.isSignal := AutoReset.takes_le_signals hacts
    _ ≤ ops.countP EventOp.isFlag := countP_isSignal init ops

end

/-! ## Who holds which lock -/

section

variable {vmOf : θ → ν} {s s' : EventThreads ν θ} {op : EventOp θ} {t : θ}

/-- The locks are held by the threads that are at these places. -/
structure Locks (vmOf : θ → ν) (s : EventThreads ν θ) : Prop where
  vm : ∀ v, HeldBy (s.vm v) fun t => vmOf t = v ∧ (s.phase t).inVm
  cs : HeldBy s.cs fun t => (s.phase t).inCs

section

variable {vm : ν → Option θ} {cs : Option θ} {phase : θ → EventPhase} {p : EventPhase}

theorem apply_update {f : EventPhase → Bool} (hp : f p = f (phase t)) (u : θ) :
    f (Function.update phase t p u) = f (phase u) := by
  by_cases hu : u = t
  · rw [hu, Function.update_self, hp]
  · rw [Function.update_of_ne hu]

/-- The thread keeps the lock of its VM, or stays without it. -/
theorem vm_keep (h : ∀ v, HeldBy (vm v) fun u => vmOf u = v ∧ (phase u).inVm)
    (hp : p.inVm = (phase t).inVm) (v : ν) :
    HeldBy (vm v) fun u => vmOf u = v ∧ (Function.update phase t p u).inVm :=
  (h v).congr fun u => by rw [apply_update hp]

theorem vm_take [DecidableEq ν] (h : ∀ v, HeldBy (vm v) fun u => vmOf u = v ∧ (phase u).inVm)
    (hfree : vm (vmOf t) = none) (hp : p.inVm = true) (v : ν) :
    HeldBy (Function.update vm (vmOf t) (some t) v) fun u =>
      vmOf u = v ∧ (Function.update phase t p u).inVm := by
  by_cases hv : v = vmOf t
  · subst hv
    rw [Function.update_self]
    refine (hfree ▸ h (vmOf t)).take ⟨rfl, ?_⟩ fun u hu => ?_
    · rw [Function.update_self]
      exact hp
    · rw [Function.update_of_ne hu]
  · rw [Function.update_of_ne hv]
    refine (h v).congr fun u => and_congr_right fun hu => ?_
    rw [Function.update_of_ne fun heq => hv (hu.symm.trans (congrArg vmOf heq))]

theorem vm_release [DecidableEq ν] (h : ∀ v, HeldBy (vm v) fun u => vmOf u = v ∧ (phase u).inVm)
    (ht : (phase t).inVm = true) (hp : p.inVm = false) (v : ν) :
    HeldBy (Function.update vm (vmOf t) none v) fun u =>
      vmOf u = v ∧ (Function.update phase t p u).inVm := by
  by_cases hv : v = vmOf t
  · subst hv
    have hown : vm (vmOf t) = some t := (h (vmOf t) t).mpr ⟨rfl, ht⟩
    rw [Function.update_self]
    refine (hown ▸ h (vmOf t)).release (fun hin => ?_) fun u hu => ?_
    · rw [Function.update_self, hp] at hin
      exact Bool.false_ne_true hin.2
    · rw [Function.update_of_ne hu]
  · rw [Function.update_of_ne hv]
    refine (h v).congr fun u => and_congr_right fun hu => ?_
    rw [Function.update_of_ne fun heq => hv (hu.symm.trans (congrArg vmOf heq))]

theorem cs_keep (h : HeldBy cs fun u => (phase u).inCs) (hp : p.inCs = (phase t).inCs) :
    HeldBy cs fun u => (Function.update phase t p u).inCs :=
  h.congr fun u => by rw [apply_update hp]

theorem cs_take (h : HeldBy none fun u => (phase u).inCs) (hp : p.inCs = true) :
    HeldBy (some t) fun u => (Function.update phase t p u).inCs := by
  refine h.take ?_ fun u hu => ?_
  · rw [Function.update_self]
    exact hp
  · rw [Function.update_of_ne hu]

theorem cs_release (h : HeldBy cs fun u => (phase u).inCs) (ht : (phase t).inCs = true)
    (hp : p.inCs = false) : HeldBy none fun u => (Function.update phase t p u).inCs := by
  have hown : cs = some t := (h t).mpr ht
  refine (hown ▸ h).release (fun hin => ?_) fun u hu => ?_
  · rw [Function.update_self, hp] at hin
    exact Bool.false_ne_true hin
  · rw [Function.update_of_ne hu]

end

theorem Locks.condSignal (h : s.Locks vmOf) (pick : θ) : (s.condSignal pick).Locks vmOf := by
  rcases s.condSignal_eq_or pick with heq | ⟨timed, hphase, heq⟩
  · rw [heq]
    exact h
  · rw [heq]
    exact ⟨vm_keep h.vm (by rw [hphase]; rfl), cs_keep h.cs (by rw [hphase]; rfl)⟩

theorem locked_inVm {p q : EventPhase} (h : p.locked = some q) : q.inVm = p.inVm := by
  cases p <;> cases h <;> rfl

theorem locked_inCs {p q : EventPhase} (h : p.locked = some q) : q.inCs = true := by
  cases p <;> cases h <;> rfl

/-- The locks stay with those who hold them. -/
theorem Locks.step [DecidableEq ν] (h : s.Locks vmOf) (hstep : s.step vmOf op = some s') :
    s'.Locks vmOf := by
  cases transition_of_step hstep with
  | vmEnter hvm hphase => exact ⟨vm_take h.vm hvm rfl, cs_keep h.cs (by rw [hphase]; rfl)⟩
  | vmLeave hphase =>
      exact ⟨vm_release h.vm (by rw [hphase]; rfl) rfl, cs_keep h.cs (by rw [hphase]; rfl)⟩
  | wait hphase =>
      exact ⟨vm_release h.vm (by rw [hphase]; rfl) rfl, cs_keep h.cs (by rw [hphase]; rfl)⟩
  | signal hphase =>
      exact ⟨vm_keep h.vm (by rw [hphase]; rfl), cs_keep h.cs (by rw [hphase]; rfl)⟩
  | lock hcs hphase =>
      exact ⟨vm_keep h.vm (locked_inVm hphase), cs_take (hcs ▸ h.cs) (locked_inCs hphase)⟩
  | park hphase hsig =>
      exact ⟨vm_keep h.vm (by rw [hphase]; rfl), cs_release h.cs (by rw [hphase]; rfl) rfl⟩
  | take hphase hsig =>
      exact ⟨vm_keep h.vm (by rw [hphase]; rfl), cs_release h.cs (by rw [hphase]; rfl) rfl⟩
  | giveUp hphase hres =>
      exact ⟨vm_keep h.vm (by rw [hphase]; rfl), cs_release h.cs (by rw [hphase]; rfl) rfl⟩
  | @flag t pick hphase =>
      have h₁ : ({ s with signalled := true }.condSignal pick).Locks vmOf :=
        Locks.condSignal (s := { s with signalled := true }) ⟨h.vm, h.cs⟩ pick
      have hphase₁ : ({ s with signalled := true }.condSignal pick).phase t = .flagging := by
        rw [← hphase]
        exact condSignal_phase _ pick (by rw [hphase]; rfl)
      exact ⟨vm_keep h₁.vm (by rw [hphase₁]; rfl), cs_release h₁.cs (by rw [hphase₁]; rfl) rfl⟩
  | wake hphase =>
      exact ⟨vm_keep h.vm (by rw [hphase]; rfl), cs_keep h.cs (by rw [hphase]; rfl)⟩
  | resume hvm hphase => exact ⟨vm_take h.vm hvm rfl, cs_keep h.cs (by rw [hphase]; rfl)⟩

omit [DecidableEq θ] in
theorem init_locks : (init : EventThreads ν θ).Locks vmOf :=
  ⟨fun _ _ => iff_of_false (Option.some_ne_none _).symm fun h => Bool.false_ne_true h.2,
    fun _ => iff_of_false (Option.some_ne_none _).symm Bool.false_ne_true⟩

/-! ## No signal is lost -/

/-- While the flag is set and a thread is blocked, another one is about to test the flag. -/
def Kept (s : EventThreads ν θ) : Prop :=
  s.signalled = true → (∃ t, (s.phase t).isParked = true) → ∃ t, (s.phase t).isAwake = true

/-- A thread that is not in the way of others. -/
theorem Kept.goto (h : s.Kept) {p : EventPhase} (hsig : s'.signalled = true → s.signalled = true)
    (hphase : s'.phase = Function.update s.phase t p) (hparked : p.isParked = false)
    (hawake : (s.phase t).isAwake = true → p.isAwake = true) : s'.Kept := by
  intro hs' ⟨u, hu⟩
  have hne : u ≠ t := fun heq => by simp [hphase, heq, hparked] at hu
  rw [hphase, Function.update_of_ne hne] at hu
  obtain ⟨w, hw⟩ := h (hsig hs') ⟨u, hu⟩
  refine ⟨w, ?_⟩
  by_cases heq : w = t
  · subst heq
    rw [hphase, Function.update_self]
    exact hawake hw
  · rw [hphase, Function.update_of_ne heq]
    exact hw

theorem locked_isAwake {p q : EventPhase} (h : p.locked = some q) :
    q.isParked = false ∧ (p.isAwake = true → q.isAwake = true) := by
  cases p <;> cases h <;> exact ⟨rfl, by simp [EventPhase.isAwake]⟩

/-- A blocked thread is woken, or nobody is blocked. -/
theorem condSignal_kept {pick : θ}
    (hpick : (s.phase pick).isParked = true ∨ ∀ u, (s.phase u).isParked = false) :
    (s.condSignal pick).Kept := by
  intro _ ⟨u, hu⟩
  unfold condSignal at hu ⊢
  split at hu
  next timed hphase =>
    exact ⟨pick, by rw [goto_phase_self]; rfl⟩
  next hphase =>
    refine hpick.elim (fun hparked => ?_) fun hnone => ?_
    · cases hp : s.phase pick with
      | parked timed => exact absurd hp (hphase timed)
      | _ => simp [hp, EventPhase.isParked] at hparked
    · exact absurd hu (by rw [hnone]; exact Bool.false_ne_true)

theorem Kept.step [DecidableEq ν] (h : s.Kept) (hpick : s.Picks op)
    (hstep : s.step vmOf op = some s') :
    s'.Kept := by
  cases transition_of_step hstep with
  | vmEnter hvm hphase => exact h.goto id rfl rfl (by rw [hphase]; exact id)
  | vmLeave hphase => exact h.goto id rfl rfl (by rw [hphase]; exact id)
  | wait hphase => exact h.goto id rfl rfl (by rw [hphase]; exact id)
  | signal hphase => exact h.goto id rfl rfl (by rw [hphase]; exact id)
  | lock hcs hphase => exact h.goto id rfl (locked_isAwake hphase).1 (locked_isAwake hphase).2
  | park hphase hsig => exact fun hs' => absurd (hsig.symm.trans hs') Bool.false_ne_true
  | take hphase hsig => exact fun hs' => absurd hs' Bool.false_ne_true
  | giveUp hphase hres =>
      exact h.goto id rfl rfl fun hawake => by simp [hphase, EventPhase.isAwake, hres] at hawake
  | @flag t pick hphase =>
      have hkept : ({ s with signalled := true }.condSignal pick).Kept := condSignal_kept hpick
      have hphase₁ : ({ s with signalled := true }.condSignal pick).phase t = .flagging := by
        rw [← hphase]
        exact condSignal_phase _ pick (by rw [hphase]; rfl)
      exact hkept.goto id rfl rfl (by rw [hphase₁]; exact id)
  | wake hphase =>
      exact h.goto id rfl rfl fun hawake => by simp [hphase, EventPhase.isAwake] at hawake
  | resume hvm hphase => exact h.goto id rfl rfl (by rw [hphase]; exact id)

/-- What holds in every state reached. -/
structure Inv (vmOf : θ → ν) (s : EventThreads ν θ) : Prop extends s.Locks vmOf where
  kept : s.Kept

omit [DecidableEq θ] in
theorem init_inv : (init : EventThreads ν θ).Inv vmOf :=
  ⟨init_locks, fun h => absurd h Bool.false_ne_true⟩

theorem inv_of_reach [DecidableEq ν] (hrun : ReflTransGen (Step vmOf) init s) : s.Inv vmOf := by
  refine Lib.inv_of_reach (fun s s' hstep h => ?_) init_inv hrun
  obtain ⟨op, hpick, hop⟩ := hstep
  exact ⟨h.toLocks.step hop, h.kept.step hpick hop⟩

end

/-! ## The way back -/

variable [DecidableEq ν] {vmOf : θ → ν} {s s' s₁ : EventThreads ν θ} {t u : θ}

/-- The thread takes a step of its own, and nothing happens to the others, except that one of the
blocked threads may be woken. -/
structure Moves (vmOf : θ → ν) (t : θ) (s s' : EventThreads ν θ) : Prop where
  own : OwnStep vmOf s s'
  others : ∀ u, u ≠ t → (s.phase u).isParked = false → s'.phase u = s.phase u

theorem moves_goto {op : EventOp θ} {p : EventPhase}
    (hstep : s.step vmOf op = some (s₁.goto t p)) (hown : op.isOwn) (hpick : s.Picks op)
    (hphase : s₁.phase = s.phase) :
    Moves vmOf t s (s₁.goto t p) :=
  ⟨⟨op, hown, hpick, hstep⟩, fun u hu _ => by rw [goto_phase_of_ne s₁ hu, hphase]⟩

/-- A free critical section can be entered. -/
theorem move_lock (vmOf : θ → ν) {p : EventPhase} (hcs : s.cs = none)
    (hphase : (s.phase t).locked = some p) :
    ∃ s', Moves vmOf t s s' ∧ s'.phase t = p ∧ s'.signalled = s.signalled := by
  have hstep : s.step vmOf (.lock t) = some ({ s with cs := some t }.goto t p) := by
    rw [step, if_pos hcs, hphase]
    rfl
  exact ⟨_, moves_goto hstep rfl trivial rfl, goto_phase_self .., rfl⟩

/-- The test of the flag. -/
theorem move_test (vmOf : θ → ν) {timed : Bool} {res : ℤ}
    (hphase : s.phase t = .testing timed res) :
    ∃ s', Moves vmOf t s s' ∧ s'.cs = none ∧
      ((s'.phase t).isParked = true ∨ s'.phase t = .returning res) ∧
      (s.signalled = true → s'.phase t = .returning res ∧ (res ≠ 0 → s'.signalled = true)) := by
  by_cases hpark : s.signalled = false ∧ res = 0
  · have hstep : s.step vmOf (.test t) = some ({ s with cs := none }.goto t (.parked timed)) := by
      rw [step, hphase]
      exact if_pos hpark
    refine ⟨_, moves_goto hstep rfl trivial rfl, rfl, .inl ?_, fun hsig => ?_⟩
    · rw [goto_phase_self]
      rfl
    · exact absurd (hpark.1.symm.trans hsig) Bool.false_ne_true
  · have hstep : s.step vmOf (.test t) =
        some ({ s with signalled := s.signalled && res ≠ 0, cs := none }.goto t
          (.returning res)) := by
      rw [step, hphase]
      exact if_neg hpark
    refine ⟨_, moves_goto hstep rfl trivial rfl, rfl, .inr (goto_phase_self ..), fun hsig =>
      ⟨goto_phase_self .., fun hres => ?_⟩⟩
    change (s.signalled && decide (res ≠ 0)) = true
    rw [hsig, Bool.true_and]
    exact decide_eq_true hres

/-- The flag is set. -/
theorem move_flag (vmOf : θ → ν) (hphase : s.phase t = .flagging) :
    ∃ s', Moves vmOf t s s' ∧ s'.cs = none ∧ s'.phase t = .running ∧ s'.signalled = true := by
  obtain ⟨pick, hpick⟩ : ∃ pick, s.Picks (.flag t pick) := by
    by_cases h : ∃ u, (s.phase u).isParked = true
    · exact h.imp fun u hu => .inl hu
    · exact ⟨t, .inr fun u => Bool.eq_false_iff.mpr fun hu => h ⟨u, hu⟩⟩
  let s₁ : EventThreads ν θ := { s with signalled := true }.condSignal pick
  have hstep : s.step vmOf (.flag t pick) = some ({ s₁ with cs := none }.goto t .running) := by
    rw [step, hphase]
  have hsig : s₁.signalled = true := condSignal_signalled _ pick
  refine ⟨_, ⟨⟨_, rfl, hpick, hstep⟩, fun u hu hparked => ?_⟩, rfl, goto_phase_self .., hsig⟩
  rw [goto_phase_of_ne _ hu]
  exact condSignal_phase _ pick hparked

/-- A wait of `s` has taken the signal. -/
def Takes (s s' : EventThreads ν θ) : Prop :=
  ∃ u, (s.phase u).place = .waiting ∧ s'.phase u = .returning 0

/-- The thread with the critical section leaves it; this does not lose a signal. -/
theorem Locks.move_out (h : s.Locks vmOf) (hcs : s.cs = some t) :
    ∃ s', Moves vmOf t s s' ∧ s'.cs = none ∧
      (s.signalled = true →
        (s.phase t).place = .waiting ∧ s'.phase t = .returning 0 ∨ s'.signalled = true) := by
  have hin : (s.phase t).inCs = true := (h.cs t).mp hcs
  cases hphase : s.phase t with
  | testing timed res =>
      obtain ⟨s', hmoves, hcs', -, hsig⟩ := move_test vmOf hphase
      refine ⟨s', hmoves, hcs', fun hs => ?_⟩
      obtain ⟨hret, hkept⟩ := hsig hs
      by_cases hres : res = 0
      · exact .inl ⟨rfl, hres ▸ hret⟩
      · exact .inr (hkept hres)
  | flagging =>
      obtain ⟨s', hmoves, hcs', -, hsig⟩ := move_flag vmOf hphase
      exact ⟨s', hmoves, hcs', fun _ => .inr hsig⟩
  | _ => simp [hphase, EventPhase.inCs] at hin

/-- A run of own steps keeps the locks. -/
theorem Locks.reach (h : s.Locks vmOf) (hrun : ReflTransGen (OwnStep vmOf) s s') :
    s'.Locks vmOf := by
  refine Lib.inv_of_reach (fun s s' hstep h => ?_) h hrun
  obtain ⟨op, -, -, hop⟩ := hstep
  exact h.step hop

/-- A thread that wants the critical section gets it; no signal is lost, and the threads that are
behind the critical section stay where they are. -/
theorem Locks.reach_lock (h : s.Locks vmOf) {p : EventPhase}
    (hphase : (s.phase t).locked = some p) :
    ∃ s', ReflTransGen (OwnStep vmOf) s s' ∧ s'.phase t = p ∧
      (∀ u, u ≠ t → (s.phase u).isParked = false → (s.phase u).inCs = false →
        s'.phase u = s.phase u) ∧
      (s.signalled = true → s.Takes s' ∨ s'.signalled = true) := by
  cases hcs : s.cs with
  | none =>
      obtain ⟨s', hmoves, ht, hsig⟩ := move_lock vmOf hcs hphase
      exact ⟨s', .single hmoves.own, ht, fun u hu hparked _ => hmoves.others u hu hparked,
        fun hs => .inr (hsig.trans hs)⟩
  | some w =>
      -- The holder is another thread, and this one is not blocked.
      have hin : (s.phase w).inCs = true := (h.cs w).mp hcs
      have hne : t ≠ w := fun heq => by
        rw [← heq] at hin
        cases hp : s.phase t <;> simp [hp, EventPhase.inCs, EventPhase.locked] at hin hphase
      have hparked : (s.phase t).isParked = false := by
        cases hp : s.phase t <;> simp [hp, EventPhase.isParked, EventPhase.locked] at hphase ⊢
      obtain ⟨s₁, hout, hfree, hkept⟩ := h.move_out hcs
      have hphase₁ : (s₁.phase t).locked = some p := by rw [hout.others t hne hparked, hphase]
      obtain ⟨s', hmoves, ht, hsig⟩ := move_lock vmOf hfree hphase₁
      refine ⟨s', (ReflTransGen.single hout.own).tail hmoves.own, ht, fun u hu hp hcs' => ?_,
        fun hs => ?_⟩
      · have hw : u ≠ w := fun heq => by simp [heq, hin] at hcs'
        have hsame : s₁.phase u = s.phase u := hout.others u hw hp
        rw [hmoves.others u hu (by rw [hsame, hp]), hsame]
      · refine (hkept hs).imp (fun hret => ⟨w, hret.1, ?_⟩) fun hs₁ => hsig.trans hs₁
        rw [hmoves.others w hne.symm (by rw [hret.2]; rfl), hret.2]

/-- A thread in Lua code leaves its VM to one that waits for it. -/
theorem reach_resume (hu : s.phase u = .running) (hvm : vmOf u = vmOf t) {res : ℤ}
    (ht : s.phase t = .returning res) :
    ∃ s', ReflTransGen (OwnStep vmOf) s s' ∧ s'.phase t = .running := by
  have hne : t ≠ u := fun heq => by rw [heq, hu] at ht; cases ht
  let s₁ : EventThreads ν θ := { s with vm := Function.update s.vm (vmOf u) none }.goto u .away
  have hleave : s.step vmOf (.vmLeave u) = some s₁ := by
    rw [step, hu]
  have ht₁ : s₁.phase t = .returning res := (goto_phase_of_ne _ hne _).trans ht
  have hfree : s₁.vm (vmOf t) = none := by
    rw [← hvm]
    exact Function.update_self ..
  let s₂ : EventThreads ν θ :=
    { s₁ with vm := Function.update s₁.vm (vmOf t) (some t) }.goto t .running
  have hresume : s₁.step vmOf (.resume t) = some s₂ := by
    rw [step, hfree, ht₁]
  exact ⟨s₂, (ReflTransGen.single ⟨.vmLeave u, rfl, trivial, hleave⟩).tail
    ⟨.resume t, rfl, trivial, hresume⟩, goto_phase_self ..⟩

/-- A thread behind its critical section gets its VM back. -/
theorem Locks.reach_vm (h : s.Locks vmOf) {res : ℤ} (ht : s.phase t = .returning res) :
    ∃ s', ReflTransGen (OwnStep vmOf) s s' ∧ s'.phase t = .running := by
  cases hvm : s.vm (vmOf t) with
  | none =>
      have hresume : s.step vmOf (.resume t) =
          some ({ s with vm := Function.update s.vm (vmOf t) (some t) }.goto t .running) := by
        rw [EventThreads.step, hvm, ht]
      exact ⟨_, .single ⟨.resume t, rfl, trivial, hresume⟩, goto_phase_self ..⟩
  | some u =>
      obtain ⟨hsame, hin⟩ := (h.vm (vmOf t) u).mp hvm
      have hne : t ≠ u := fun heq => by simp [← heq, ht, EventPhase.inVm] at hin
      have hparked : (s.phase t).isParked = false := by rw [ht]; rfl
      cases hu : s.phase u with
      | running => exact reach_resume hu hsame ht
      | flagging =>
          obtain ⟨s₁, hmoves, -, hrun₁, -⟩ := move_flag vmOf hu
          obtain ⟨s', hrest, hback⟩ :=
            reach_resume hrun₁ hsame ((hmoves.others t hne hparked).trans ht)
          exact ⟨s', hrest.head hmoves.own, hback⟩
      | notifying =>
          obtain ⟨s₁, hlock, hu₁, hothers, -⟩ := h.reach_lock (t := u) (congrArg _ hu)
          have ht₁ : s₁.phase t = .returning res :=
            (hothers t hne hparked (by rw [ht]; rfl)).trans ht
          obtain ⟨s₂, hmoves, -, hrun₂, -⟩ := move_flag vmOf hu₁
          obtain ⟨s', hrest, hback⟩ := reach_resume hrun₂ hsame
            ((hmoves.others t hne (by rw [ht₁]; rfl)).trans ht₁)
          exact ⟨s', hlock.trans (hrest.head hmoves.own), hback⟩
      | _ => simp [hu, EventPhase.inVm] at hin

/-- **No signal is lost.**  While the flag is set and a thread is blocked, some wait can take the
signal, without a timeout and without another signal. -/
theorem signal_taken (hrun : ReflTransGen (Step vmOf) init s) (hsig : s.signalled = true)
    (hparked : (s.phase t).isParked = true) :
    ∃ s', ReflTransGen (OwnStep vmOf) s s' ∧ s.Takes s' := by
  have hinv : s.Inv vmOf := inv_of_reach hrun
  obtain ⟨u, hu⟩ := hinv.kept hsig ⟨t, hparked⟩
  cases hphase : s.phase u with
  | testing timed res =>
      obtain rfl : res = 0 := by simpa [hphase, EventPhase.isAwake] using hu
      obtain ⟨s', hmoves, -, -, htake⟩ := move_test vmOf hphase
      exact ⟨s', .single hmoves.own, u, by rw [hphase]; rfl, (htake hsig).1⟩
  | woken timed res =>
      obtain rfl : res = 0 := by simpa [hphase, EventPhase.isAwake] using hu
      obtain ⟨s₁, hlock, hu₁, -, hkept⟩ := hinv.toLocks.reach_lock (t := u) (congrArg _ hphase)
      rcases hkept hsig with htakes | hsig₁
      · exact ⟨s₁, hlock, htakes⟩
      · obtain ⟨s', hmoves, -, -, htake⟩ := move_test vmOf hu₁
        exact ⟨s', hlock.tail hmoves.own, u, by rw [hphase]; rfl, (htake hsig₁).1⟩
  | _ => simp [hphase, EventPhase.isAwake] at hu

/-- A test ends in a wait or leads back. -/
theorem Locks.return_test (h : s.Locks vmOf) {timed : Bool} {res : ℤ}
    (ht : s.phase t = .testing timed res) :
    ∃ s', ReflTransGen (OwnStep vmOf) s s' ∧
      (s'.phase t = .running ∨ (s'.phase t).isParked = true) := by
  obtain ⟨s₁, hmoves, -, hparked | hret, -⟩ := move_test vmOf ht
  · exact ⟨s₁, .single hmoves.own, .inr hparked⟩
  · obtain ⟨s', hrest, hback⟩ := (h.reach (.single hmoves.own)).reach_vm hret
    exact ⟨s', hrest.head hmoves.own, .inl hback⟩

/-- **Each thread gets back.**  A thread that is not blocked comes back to its VM, or it is
blocked; this needs no timeout and no signal. -/
theorem event_return (hrun : ReflTransGen (Step vmOf) init s) (haway : s.phase t ≠ .away) :
    ∃ s', ReflTransGen (OwnStep vmOf) s s' ∧
      (s'.phase t = .running ∨ (s'.phase t).isParked = true) := by
  have h : s.Locks vmOf := (inv_of_reach hrun).toLocks
  cases ht : s.phase t with
  | away => exact absurd ht haway
  | running => exact ⟨s, .refl, .inl ht⟩
  | parked timed => exact ⟨s, .refl, .inr (by rw [ht]; rfl)⟩
  | testing timed res => exact h.return_test ht
  | entering timed =>
      obtain ⟨s₁, hlock, ht₁, -, -⟩ := h.reach_lock (t := t) (congrArg _ ht)
      obtain ⟨s', hrest, hback⟩ := (h.reach hlock).return_test ht₁
      exact ⟨s', hlock.trans hrest, hback⟩
  | woken timed res =>
      obtain ⟨s₁, hlock, ht₁, -, -⟩ := h.reach_lock (t := t) (congrArg _ ht)
      obtain ⟨s', hrest, hback⟩ := (h.reach hlock).return_test ht₁
      exact ⟨s', hlock.trans hrest, hback⟩
  | returning res =>
      obtain ⟨s', hreach, hback⟩ := h.reach_vm ht
      exact ⟨s', hreach, .inl hback⟩
  | notifying =>
      obtain ⟨s₁, hlock, ht₁, -, -⟩ := h.reach_lock (t := t) (congrArg _ ht)
      obtain ⟨s', hmoves, -, hback, -⟩ := move_flag vmOf ht₁
      exact ⟨s', hlock.tail hmoves.own, .inl hback⟩
  | flagging =>
      obtain ⟨s', hmoves, -, hback, -⟩ := move_flag vmOf ht
      exact ⟨s', .single hmoves.own, .inl hback⟩

/-! ## Two waits and a signal -/

/-- The threads 0 and 1 wait, and the thread 2 signals the event once. -/
def twoWaits : List (EventOp (Fin 3)) :=
  [.vmEnter 0, .wait 0 false, .lock 0, .test 0, .vmEnter 1, .wait 1 true, .lock 1, .test 1,
    .vmEnter 2, .signal 2, .lock 2, .flag 2 0]

theorem event_run_twoWaits :
    ∃ s, runOps (step fun _ => ()) init (twoWaits ++ [.lock 0, .test 0]) = some s ∧
      s.view.place 0 = .returned true ∧
      (labels (step fun _ : Fin 3 => ()) label init
        (twoWaits ++ [.lock 0, .test 0])).countP AutoResetOp.isTake ≤ 1 := by
  have hplace : (runOps (step fun _ => ()) init (twoWaits ++ [.lock 0, .test 0])).map
      (fun s => s.view.place 0) = some (.returned true) := by decide +kernel
  obtain ⟨s, hs, hplace⟩ := Option.map_eq_some_iff.mp hplace
  exact ⟨s, hs, hplace, (event_run hs).2⟩

/-- The states of the run. -/
theorem twoWaits_reach : ∃ s : EventThreads Unit (Fin 3),
    ReflTransGen (Step fun _ => ()) init s ∧ s.signalled = true ∧
      (s.phase 1).isParked = true ∧ (s.phase 0).isAwake = true := by
  have hrun : (runOps (fun (s : EventThreads Unit (Fin 3)) op =>
      if s.Picks op then s.step (fun _ => ()) op else none) init twoWaits).map
        (fun s => (s.signalled, (s.phase 1).isParked, (s.phase 0).isAwake)) =
      some (true, true, true) := by decide +kernel
  obtain ⟨s, hs, heq⟩ := Option.map_eq_some_iff.mp hrun
  obtain ⟨hsig, hphases⟩ := Prod.mk.inj heq
  refine ⟨s, reach_of_runOps (fun _ op _ hop => ?_) hs, hsig, Prod.mk.inj hphases⟩
  obtain ⟨hpick, hstep⟩ := Option.ite_none_right_eq_some.mp hop
  exact ⟨op, hpick, hstep⟩

theorem signal_taken_twoWaits : ∃ s s' : EventThreads Unit (Fin 3),
    (s.phase 1).isParked = true ∧ ReflTransGen (OwnStep fun _ => ()) s s' ∧ s.Takes s' := by
  obtain ⟨s, hreach, hsig, hparked, -⟩ := twoWaits_reach
  obtain ⟨s', hrun, htakes⟩ := signal_taken hreach hsig hparked
  exact ⟨s, s', hparked, hrun, htakes⟩

theorem event_return_twoWaits : ∃ s s' : EventThreads Unit (Fin 3),
    (s.phase 0).isAwake = true ∧ ReflTransGen (OwnStep fun _ => ()) s s' ∧
      (s'.phase 0 = .running ∨ (s'.phase 0).isParked = true) := by
  obtain ⟨s, hreach, -, -, hawake⟩ := twoWaits_reach
  obtain ⟨s', hrun, hback⟩ := event_return (t := 0) hreach fun haway => by
    simp [haway, EventPhase.isAwake] at hawake
  exact ⟨s, s', hawake, hrun, hback⟩

end EventThreads

end LuaSys.Thread
