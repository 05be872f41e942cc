import LuaSys.Lib.Run
import LuaSys.Thread.Pipe
import Mathlib.Data.Fintype.Basic

/-!
# The threads of a pipe

The threads that use one pipe, with the two locks they take: the lock of their VM, which a
thread holds while it runs Lua code, and the critical section `pp->cs` of the pipe.  A
thread with the VM lock enters `pp->cs` and makes a pass of its loop.  When the pass
blocks, `pipe_cond_wait` releases the VM lock and waits for a condition, which releases
`pp->cs`; after the wait it takes `pp->cs` again, and only then the VM lock.

A pass runs with both locks and does not block, so it is one step, together with the entry
before it and the release after it.  `pthread_cond_signal` wakes one of the threads that
wait; which one is an argument of the step.  A wait may also end by itself, by a timeout,
an error, or without a reason.

The two locks are taken in opposite orders.  A thread whose wait is over holds `pp->cs` and
wants the VM lock, while a thread that has just called `pipe_put` holds the VM lock and
wants `pp->cs`.

## Main definitions

* `PipePhase` — where a thread is.
* `PipeThreads`, `PipeThreadOp`, `PipeThreads.step` — the threads and their steps.
* `PipeThreads.Transition` — what each step requires and does; the invariants use it.
* `PipeThreads.Deadlock` — two threads hold the locks and wait for each other.
* `PipeThreadOp.KeepsOrder` — the steps that do not cross.

## Main results

* `Deadlock.step` — it is one: no step resolves it.
* `safe_run_no_deadlock` — it does not arise as long as nobody calls a function of the pipe
  while a thread of the same VM comes back from its wait.
* `wake_crosses_put` — a run in which it does.
-/

namespace LuaSys.Thread

open LuaSys.Lib

/-- The functions with a loop. -/
inductive PipeLoop
  | put (msg : Message)
  | get

/-- The functions that enter the critical section. -/
inductive PipeCall
  | loop (l : PipeLoop)
  | count
  | xdup

/-- The two sides of a pipe. -/
inductive PipeRole
  | reader
  | writer
  deriving DecidableEq, Repr

/-- The side of a loop. -/
def PipeLoop.role : PipeLoop → PipeRole
  | .put _ => .writer
  | .get => .reader

/-- How a wait ends. -/
inductive WaitEnd
  | signal
  /-- The wait returns zero without a signal. -/
  | spurious
  | timedOut
  | failed
  deriving DecidableEq, Repr

/-- The result of the wait is zero. -/
def WaitEnd.ok : WaitEnd → Bool
  | .signal | .spurious => true
  | .timedOut | .failed => false

/-- Where a thread is. -/
inductive PipePhase
  /-- Without the lock of its VM. -/
  | away
  /-- With the lock of its VM, in Lua code. -/
  | running
  /-- With the VM lock, in `thread_critsect_enter`. -/
  | entering (c : PipeCall)
  /-- In `pipe_cond_wait`: without the VM lock, but still with `pp->cs`. -/
  | parking (l : PipeLoop)
  /-- Blocked on the condition. -/
  | waiting (l : PipeLoop)
  /-- The wait is over, but not yet with `pp->cs`. -/
  | woken (l : PipeLoop) (e : WaitEnd)
  /-- With `pp->cs`, in `sys_vm2_enter`. -/
  | reentering (l : PipeLoop) (e : WaitEnd)

/-- The thread is blocked on the condition of its side. -/
def PipePhase.waitsAs (r : PipeRole) : PipePhase → Bool
  | .waiting l => l.role = r
  | _ => false

/-- The message of a writer that is blocked on its condition. -/
def PipePhase.putOffer : PipePhase → Option Message
  | .waiting (.put msg) => some msg
  | _ => none

theorem PipePhase.putOffer_eq_some {ph : PipePhase} {msg : Message}
    (h : ph.putOffer = some msg) : ph = .waiting (.put msg) := by
  cases ph with
  | waiting l =>
      cases l with
      | put msg' =>
          obtain rfl : msg' = msg := Option.some.inj h
          rfl
      | _ => cases h
  | _ => cases h

/-- The thread holds the lock of its VM. -/
def PipePhase.inVm : PipePhase → Bool
  | .running | .entering _ => true
  | _ => false

/-- The thread holds `pp->cs`. -/
def PipePhase.inCs : PipePhase → Bool
  | .parking _ | .reentering _ _ => true
  | _ => false

/-- A pipe with its threads. -/
structure PipeThreads (ν θ : Type*) where
  pp : Pipe
  /-- The thread with `pp->cs`, where it does not run. -/
  cs : Option θ
  /-- The thread with the lock of each VM. -/
  vm : ν → Option θ
  phase : θ → PipePhase

/-- The steps of the threads; `reader` and `writer` are the threads that signals wake. -/
inductive PipeThreadOp (θ : Type*)
  | vmEnter (t : θ)
  | vmLeave (t : θ)
  /-- A function of the pipe is called. -/
  | call (t : θ) (c : PipeCall)
  /-- The thread has `pp->cs`, and makes its first pass. -/
  | enter (t : θ) (malloc : Option Mem) (reader writer : θ)
  /-- The wait releases `pp->cs`. -/
  | park (t : θ)
  /-- The wait ends by itself. -/
  | wake (t : θ) (e : WaitEnd)
  /-- The wait takes `pp->cs` again. -/
  | lockAgain (t : θ)
  /-- The thread has the VM lock again, and goes on after its wait. -/
  | resume (t : θ) (malloc : Option Mem) (reader writer : θ)

namespace PipeThreads

variable {ν θ : Type*} [DecidableEq ν] [DecidableEq θ]

/-- `thread_cond_signal`. -/
def condSignal (s : PipeThreads ν θ) (r : PipeRole) (pick : θ) : PipeThreads ν θ :=
  match s.phase pick with
  | .waiting l =>
      if l.role = r then { s with phase := Function.update s.phase pick (.woken l .signal) }
      else s
  | _ => s

/-- The end of a call: `pp->cs` is released. -/
def leave (s : PipeThreads ν θ) (t : θ) : PipeThreads ν θ :=
  { s with cs := none, phase := Function.update s.phase t .running }

/-- The start of `pipe_cond_wait`: the VM lock is released. -/
def startWait (vmOf : θ → ν) (s : PipeThreads ν θ) (t : θ) (l : PipeLoop) : PipeThreads ν θ :=
  { s with
    cs := some t
    vm := Function.update s.vm (vmOf t) none
    phase := Function.update s.phase t (.parking l) }

/-- What follows a pass of `pipe_put`. -/
def endPut (vmOf : θ → ν) (s : PipeThreads ν θ) (t : θ) (msg : Message) (reader : θ) :
    PutPass → PipeThreads ν θ
  | .stored pp signalPut =>
      let s := { s with pp := pp }
      (if signalPut then s.condSignal .reader reader else s).leave t
  | .blocked pp => ({ s with pp := pp }).startWait vmOf t (.put msg)

/-- What follows a pass of `pipe_get`. -/
def endGet (vmOf : θ → ν) (s : PipeThreads ν θ) (t : θ) (reader writer : θ) :
    GetPass → PipeThreads ν θ
  | .taken pp _ signalPut signalGet =>
      let s := { s with pp := pp }
      let s := if signalPut then s.condSignal .reader reader else s
      let s := if signalGet then s.condSignal .writer writer else s
      s.leave t
  | .blocked pp => ({ s with pp := pp }).startWait vmOf t .get

/-- A pass of a loop. -/
def pass (vmOf : θ → ν) (s : PipeThreads ν θ) (t : θ) (l : PipeLoop) (malloc : Option Mem)
    (reader writer : θ) : Option (PipeThreads ν θ) :=
  match l with
  | .put msg => (pipePutPass s.pp msg malloc).map (s.endPut vmOf t msg reader)
  | .get => (pipeGetPass s.pp).map (s.endGet vmOf t reader writer)

/-- What a loop does right after its wait: the counter goes down, and a writer wakes up the
next one. -/
def afterWait (s : PipeThreads ν θ) (l : PipeLoop) (writer : θ) : PipeThreads ν θ :=
  match l with
  | .put _ =>
      let r := putWake s.pp
      let s := { s with pp := r.1 }
      if r.2 then s.condSignal .writer writer else s
  | .get => { s with pp := getWake s.pp }

/-- One step; `none` when the thread is elsewhere or a lock is held. -/
def step (vmOf : θ → ν) (s : PipeThreads ν θ) : PipeThreadOp θ → Option (PipeThreads ν θ)
  | .vmEnter t =>
      match s.vm (vmOf t), s.phase t with
      | none, .away =>
          some { s with
            vm := Function.update s.vm (vmOf t) (some t)
            phase := Function.update s.phase t .running }
      | _, _ => none
  | .vmLeave t =>
      match s.phase t with
      | .running =>
          some { s with
            vm := Function.update s.vm (vmOf t) none
            phase := Function.update s.phase t .away }
      | _ => none
  | .call t c =>
      match s.phase t with
      | .running => some { s with phase := Function.update s.phase t (.entering c) }
      | _ => none
  | .enter t malloc reader writer =>
      match s.cs, s.phase t with
      | none, .entering (.loop l) => s.pass vmOf t l malloc reader writer
      -- `pp->nmsg` is read, or `pp->nref` incremented
      | none, .entering _ => some (s.leave t)
      | _, _ => none
  | .park t =>
      match s.phase t with
      | .parking l => some { s with cs := none, phase := Function.update s.phase t (.waiting l) }
      | _ => none
  | .wake t e =>
      match s.phase t with
      | .waiting l =>
          if e ≠ .signal then some { s with phase := Function.update s.phase t (.woken l e) }
          else none
      | _ => none
  | .lockAgain t =>
      match s.cs, s.phase t with
      | none, .woken l e =>
          some { s with cs := some t, phase := Function.update s.phase t (.reentering l e) }
      | _, _ => none
  | .resume t malloc reader writer =>
      match s.vm (vmOf t), s.phase t with
      | none, .reentering l e =>
          let s := { s with vm := Function.update s.vm (vmOf t) (some t) }
          let s := s.afterWait l writer
          if e.ok then s.pass vmOf t l malloc reader writer else some (s.leave t)
      | _, _ => none

/-- A pipe whose threads are elsewhere. -/
def init (pp : Pipe) : PipeThreads ν θ where
  pp := pp
  cs := none
  vm _ := none
  phase _ := .away

end PipeThreads

/-- `pthread_cond_signal` wakes a thread that waits, if there is one. -/
def PipeThreadOp.Picks {ν θ : Type*} (s : PipeThreads ν θ) : PipeThreadOp θ → Prop
  | .enter _ _ reader writer | .resume _ _ reader writer =>
      ((s.phase reader).waitsAs .reader ∨ ∀ t, ¬(s.phase t).waitsAs .reader) ∧
        ((s.phase writer).waitsAs .writer ∨ ∀ t, ¬(s.phase t).waitsAs .writer)
  | _ => True

instance {ν θ : Type*} [Fintype θ] (s : PipeThreads ν θ) :
    (op : PipeThreadOp θ) → Decidable (op.Picks s)
  | .enter _ _ _ _ | .resume _ _ _ _ => inferInstanceAs (Decidable (_ ∧ _))
  | .vmEnter _ | .vmLeave _ | .call _ _ | .park _ | .wake _ _ | .lockAgain _ =>
      inferInstanceAs (Decidable True)

/-- The transitions of a run. -/
def PipeThreads.Step {ν θ : Type*} [DecidableEq ν] [DecidableEq θ] (vmOf : θ → ν)
    (s s' : PipeThreads ν θ) : Prop :=
  ∃ op : PipeThreadOp θ, op.Picks s ∧ s.step vmOf op = some s'

namespace PipeThreads

/-- What an operation requires of the phase of its thread and of the locks, and what it does. -/
inductive Transition {ν θ : Type*} [DecidableEq ν] [DecidableEq θ] (vmOf : θ → ν)
    (s : PipeThreads ν θ) : PipeThreadOp θ → PipeThreads ν θ → Prop
  | vmEnter {t : θ} (hvm : s.vm (vmOf t) = none) (hphase : s.phase t = .away) :
      Transition vmOf s (.vmEnter t)
        { s with
          vm := Function.update s.vm (vmOf t) (some t)
          phase := Function.update s.phase t .running }
  | vmLeave {t : θ} (hphase : s.phase t = .running) :
      Transition vmOf s (.vmLeave t)
        { s with
          vm := Function.update s.vm (vmOf t) none
          phase := Function.update s.phase t .away }
  | call {t : θ} {c : PipeCall} (hphase : s.phase t = .running) :
      Transition vmOf s (.call t c) { s with phase := Function.update s.phase t (.entering c) }
  | enterLoop {t : θ} {l : PipeLoop} {malloc : Option Mem} {reader writer : θ}
      {s' : PipeThreads ν θ} (hcs : s.cs = none) (hphase : s.phase t = .entering (.loop l))
      (hpass : s.pass vmOf t l malloc reader writer = some s') :
      Transition vmOf s (.enter t malloc reader writer) s'
  | enter {t : θ} {c : PipeCall} {malloc : Option Mem} {reader writer : θ} (hcs : s.cs = none)
      (hphase : s.phase t = .entering c) :
      Transition vmOf s (.enter t malloc reader writer) (s.leave t)
  | park {t : θ} {l : PipeLoop} (hphase : s.phase t = .parking l) :
      Transition vmOf s (.park t)
        { s with cs := none, phase := Function.update s.phase t (.waiting l) }
  | wake {t : θ} {l : PipeLoop} {e : WaitEnd} (hphase : s.phase t = .waiting l) :
      Transition vmOf s (.wake t e) { s with phase := Function.update s.phase t (.woken l e) }
  | lockAgain {t : θ} {l : PipeLoop} {e : WaitEnd} (hcs : s.cs = none)
      (hphase : s.phase t = .woken l e) :
      Transition vmOf s (.lockAgain t)
        { s with cs := some t, phase := Function.update s.phase t (.reentering l e) }
  | resume {t : θ} {l : PipeLoop} {e : WaitEnd} {malloc : Option Mem} {reader writer : θ}
      {s₁ s' : PipeThreads ν θ} (hvm : s.vm (vmOf t) = none) (hphase : s.phase t = .reentering l e)
      (hs₁ : s₁ = ({ s with vm := Function.update s.vm (vmOf t) (some t) }).afterWait l writer)
      (hrun : (if e.ok = true then s₁.pass vmOf t l malloc reader writer
        else some (s₁.leave t)) = some s') :
      Transition vmOf s (.resume t malloc reader writer) s'

/-- The steps are the transitions. -/
theorem transition_of_step {ν θ : Type*} [DecidableEq ν] [DecidableEq θ] {vmOf : θ → ν}
    {s s' : PipeThreads ν θ} {op : PipeThreadOp θ} (hstep : s.step vmOf op = some s') :
    Transition vmOf s op s' := by
  cases op with
  | vmEnter t =>
      simp only [PipeThreads.step] at hstep
      split at hstep
      case h_1 hvm hphase => exact Option.some.inj hstep ▸ .vmEnter hvm hphase
      case h_2 => exact absurd hstep (by simp)
  | vmLeave t =>
      simp only [PipeThreads.step] at hstep
      split at hstep
      case h_1 hphase => exact Option.some.inj hstep ▸ .vmLeave hphase
      case h_2 => exact absurd hstep (by simp)
  | call t c =>
      simp only [PipeThreads.step] at hstep
      split at hstep
      case h_1 hphase => exact Option.some.inj hstep ▸ .call hphase
      case h_2 => exact absurd hstep (by simp)
  | enter t malloc reader writer =>
      simp only [PipeThreads.step] at hstep
      split at hstep
      case h_1 l hcs hphase => exact .enterLoop hcs hphase hstep
      case h_2 _ _ hcs hphase => exact Option.some.inj hstep ▸ .enter hcs hphase
      case h_3 => exact absurd hstep (by simp)
  | park t =>
      simp only [PipeThreads.step] at hstep
      split at hstep
      case h_1 l hphase => exact Option.some.inj hstep ▸ .park hphase
      case h_2 => exact absurd hstep (by simp)
  | wake t e =>
      simp only [PipeThreads.step] at hstep
      split at hstep
      case h_1 l hphase =>
        obtain ⟨-, heq⟩ := Option.ite_none_right_eq_some.mp hstep
        exact Option.some.inj heq ▸ .wake hphase
      case h_2 => exact absurd hstep (by simp)
  | lockAgain t =>
      simp only [PipeThreads.step] at hstep
      split at hstep
      case h_1 l e hcs hphase => exact Option.some.inj hstep ▸ .lockAgain hcs hphase
      case h_2 => exact absurd hstep (by simp)
  | resume t malloc reader writer =>
      simp only [PipeThreads.step] at hstep
      split at hstep
      case h_1 l e hvm hphase => exact .resume hvm hphase rfl hstep
      case h_2 => exact absurd hstep (by simp)

/-! ## Who holds which lock -/

section

variable {ν θ : Type*}

/-- The locks are held by the threads that are in the corresponding phases. -/
structure Locks (vmOf : θ → ν) (s : PipeThreads ν θ) : Prop where
  vm_owner : ∀ t, (s.phase t).inVm = true → s.vm (vmOf t) = some t
  cs_owner : ∀ t, (s.phase t).inCs = true → s.cs = some t

/-- The thread has the VM lock, and no other one has `pp->cs`. -/
structure Inside (vmOf : θ → ν) (s : PipeThreads ν θ) (t : θ) : Prop extends Locks vmOf s where
  vm_self : s.vm (vmOf t) = some t
  cs_free : s.cs = none ∨ s.cs = some t

theorem init_locks (vmOf : θ → ν) (pp : Pipe) : (init pp : PipeThreads ν θ).Locks vmOf :=
  ⟨fun _ h => absurd h (by simp [init, PipePhase.inVm]),
    fun _ h => absurd h (by simp [init, PipePhase.inCs])⟩

variable {vmOf : θ → ν} {s s' : PipeThreads ν θ} {t : θ}

/-- The pipe does not matter for the locks. -/
theorem Inside.setPipe (h : s.Inside vmOf t) (pp : Pipe) :
    ({ s with pp := pp } : PipeThreads ν θ).Inside vmOf t :=
  ⟨⟨h.vm_owner, h.cs_owner⟩, h.vm_self, h.cs_free⟩

/-- A thread that enters has the VM lock. -/
theorem Locks.inside_enter (h : s.Locks vmOf) (hcs : s.cs = none) (hin : (s.phase t).inVm = true) :
    s.Inside vmOf t := ⟨h, h.vm_owner t hin, Or.inl hcs⟩

/-- No other thread is in the critical section. -/
theorem Inside.not_inCs (h : s.Inside vmOf t) {t' : θ} (hne : t' ≠ t) :
    (s.phase t').inCs = false := by
  by_contra hin
  have hcs := h.cs_owner t' (by simpa using hin)
  rcases h.cs_free with hfree | hfree
  · exact absurd (hcs.symm.trans hfree) (by simp)
  · exact hne (Option.some.inj (hcs.symm.trans hfree))

/-- The lock of a VM changes its owner. -/
theorem Locks.vm_update [DecidableEq ν] (h : s.Locks vmOf) (hfree : s.vm (vmOf t) = none ∨ s.vm (vmOf t) = some t)
    {o : Option θ} {t' : θ} (hne : t' ≠ t) (hin : (s.phase t').inVm = true) :
    Function.update s.vm (vmOf t) o (vmOf t') = s.vm (vmOf t') := by
  have hown := h.vm_owner t' hin
  have hvm : vmOf t' ≠ vmOf t := by
    intro hvm
    rw [hvm] at hown
    rcases hfree with hfree | hfree
    · exact absurd (hown.symm.trans hfree) (by simp)
    · exact hne (Option.some.inj (hown.symm.trans hfree))
  rw [Function.update_of_ne hvm]

end

variable {ν θ : Type*} [DecidableEq θ] {vmOf : θ → ν} {s s' : PipeThreads ν θ} {t : θ}

/-- A signal only concerns a thread that waits. -/
theorem condSignal_eq_or (s : PipeThreads ν θ) (r : PipeRole) (pick : θ) :
    s.condSignal r pick = s ∨ ∃ l, s.phase pick = .waiting l ∧ l.role = r ∧
      s.condSignal r pick =
        { s with phase := Function.update s.phase pick (.woken l .signal) } := by
  unfold condSignal
  split
  · rename_i l hl
    by_cases hr : l.role = r
    · exact Or.inr ⟨l, hl, hr, by rw [if_pos hr]⟩
    · exact Or.inl (by rw [if_neg hr])
  · exact Or.inl rfl

/-- A property that is the same for a waiting thread and a woken one. -/
theorem condSignal_congr {f : PipePhase → Bool} (hf : ∀ l, f (.woken l .signal) = f (.waiting l))
    (s : PipeThreads ν θ) (r : PipeRole) (pick t : θ) :
    f ((s.condSignal r pick).phase t) = f (s.phase t) := by
  rcases s.condSignal_eq_or r pick with heq | ⟨l, hl, -, heq⟩
  · rw [heq]
  · rw [heq]
    by_cases ht : t = pick
    · simp [ht, hl, hf]
    · simp [ht]

@[simp] theorem condSignal_inVm (s : PipeThreads ν θ) (r : PipeRole) (pick t : θ) :
    ((s.condSignal r pick).phase t).inVm = (s.phase t).inVm :=
  condSignal_congr (fun _ => rfl) s r pick t

@[simp] theorem condSignal_inCs (s : PipeThreads ν θ) (r : PipeRole) (pick t : θ) :
    ((s.condSignal r pick).phase t).inCs = (s.phase t).inCs :=
  condSignal_congr (fun _ => rfl) s r pick t

@[simp] theorem condSignal_vm (s : PipeThreads ν θ) (r : PipeRole) (pick : θ) :
    (s.condSignal r pick).vm = s.vm := by
  rcases s.condSignal_eq_or r pick with heq | ⟨_, _, -, heq⟩ <;> rw [heq]

@[simp] theorem condSignal_cs (s : PipeThreads ν θ) (r : PipeRole) (pick : θ) :
    (s.condSignal r pick).cs = s.cs := by
  rcases s.condSignal_eq_or r pick with heq | ⟨_, _, -, heq⟩ <;> rw [heq]

@[simp] theorem condSignal_pp (s : PipeThreads ν θ) (r : PipeRole) (pick : θ) :
    (s.condSignal r pick).pp = s.pp := by
  rcases s.condSignal_eq_or r pick with heq | ⟨_, _, -, heq⟩ <;> rw [heq]

theorem Inside.condSignal (h : s.Inside vmOf t) (r : PipeRole) (pick : θ) :
    (s.condSignal r pick).Inside vmOf t := by
  refine ⟨⟨fun t' ht' => ?_, fun t' ht' => ?_⟩, ?_, ?_⟩
  · rw [condSignal_inVm] at ht'
    rw [condSignal_vm]
    exact h.vm_owner t' ht'
  · rw [condSignal_inCs] at ht'
    rw [condSignal_cs]
    exact h.cs_owner t' ht'
  · rw [condSignal_vm]
    exact h.vm_self
  · rw [condSignal_cs]
    exact h.cs_free

/-- A condition that is signalled or not. -/
theorem Inside.condSignal_if (h : s.Inside vmOf t) (b : Bool) (r : PipeRole) (pick : θ) :
    (if b = true then s.condSignal r pick else s).Inside vmOf t := by
  cases b with
  | true => exact h.condSignal r pick
  | false => exact h

/-- A thread takes a step, and the locks of the other threads stay. -/
theorem Locks.move {p : PipePhase} (h : s.Locks vmOf)
    (hphase : s'.phase = Function.update s.phase t p)
    (hvm : p.inVm = true → s'.vm (vmOf t) = some t)
    (hvm' : ∀ t', t' ≠ t → (s.phase t').inVm = true → s'.vm (vmOf t') = s.vm (vmOf t'))
    (hcs : p.inCs = true → s'.cs = some t)
    (hcs' : ∀ t', t' ≠ t → (s.phase t').inCs = true → s'.cs = s.cs) : s'.Locks vmOf := by
  refine ⟨fun t' ht' => ?_, fun t' ht' => ?_⟩
  · rw [hphase] at ht'
    by_cases heq : t' = t
    · rw [heq, Function.update_self] at ht'
      rw [heq]
      exact hvm ht'
    · rw [Function.update_of_ne heq] at ht'
      rw [hvm' t' heq ht']
      exact h.vm_owner t' ht'
  · rw [hphase] at ht'
    by_cases heq : t' = t
    · rw [heq, Function.update_self] at ht'
      rw [heq]
      exact hcs ht'
    · rw [Function.update_of_ne heq] at ht'
      rw [hcs' t' heq ht']
      exact h.cs_owner t' ht'

theorem Inside.leave (h : s.Inside vmOf t) : (s.leave t).Locks vmOf := by
  refine h.toLocks.move rfl (fun _ => h.vm_self) (fun _ _ _ => rfl)
    (fun hin => absurd hin (by simp [PipePhase.inCs])) fun t' hne hin => ?_
  exact absurd hin (by simp [h.not_inCs hne])

theorem Inside.afterWait (h : s.Inside vmOf t) (l : PipeLoop) (writer : θ) :
    (s.afterWait l writer).Inside vmOf t := by
  cases l with
  | put msg =>
      simp only [PipeThreads.afterWait]
      exact (h.setPipe _).condSignal_if _ _ _
  | get => exact h.setPipe _

variable [DecidableEq ν] {l : PipeLoop} {p : PipePhase} {op : PipeThreadOp θ}

theorem Inside.startWait (h : s.Inside vmOf t) (l : PipeLoop) :
    (s.startWait vmOf t l).Locks vmOf := by
  refine h.toLocks.move rfl (fun hin => absurd hin (by simp [PipePhase.inVm]))
    (fun t' hne hin => h.vm_update (Or.inr h.vm_self) hne hin) (fun _ => rfl)
    fun t' hne hin => ?_
  exact absurd hin (by simp [h.not_inCs hne])

/-- A pass ends outside of the critical section, or in a wait. -/
theorem Inside.pass (h : s.Inside vmOf t) {malloc : Option Mem} {reader writer : θ}
    (hpass : s.pass vmOf t l malloc reader writer = some s') : s'.Locks vmOf := by
  cases l with
  | put msg =>
      obtain ⟨r, -, rfl⟩ := Option.map_eq_some_iff.mp hpass
      cases r with
      | stored pp signalPut => exact ((h.setPipe pp).condSignal_if _ _ _).leave
      | blocked pp => exact (h.setPipe pp).startWait _
  | get =>
      obtain ⟨r, -, rfl⟩ := Option.map_eq_some_iff.mp hpass
      cases r with
      | taken pp msg signalPut signalGet =>
          exact (((h.setPipe pp).condSignal_if _ _ _).condSignal_if _ _ _).leave
      | blocked pp => exact (h.setPipe pp).startWait _

/-- A thread that comes back has both locks. -/
theorem Locks.inside_resume (h : s.Locks vmOf) (hvm : s.vm (vmOf t) = none)
    (hin : (s.phase t).inCs = true) :
    ({ s with vm := Function.update s.vm (vmOf t) (some t) } : PipeThreads ν θ).Inside vmOf t := by
  refine ⟨⟨fun t' ht' => ?_, h.cs_owner⟩, Function.update_self .., Or.inr (h.cs_owner t hin)⟩
  by_cases heq : t' = t
  · rw [heq]
    exact Function.update_self ..
  · rw [← h.vm_owner t' ht']
    exact h.vm_update (Or.inl hvm) heq ht'

theorem Locks.step (h : s.Locks vmOf) (hstep : s.step vmOf op = some s') : s'.Locks vmOf := by
  cases transition_of_step hstep with
  | vmEnter hvm hphase =>
      exact h.move rfl (fun _ => Function.update_self ..)
        (fun t' hne hin => h.vm_update (Or.inl hvm) hne hin)
        (fun hin => absurd hin (by simp [PipePhase.inCs])) fun _ _ _ => rfl
  | @vmLeave t hphase =>
      have hown := h.vm_owner t (by simp [hphase, PipePhase.inVm])
      exact h.move rfl (fun hin => absurd hin (by simp [PipePhase.inVm]))
        (fun t' hne hin => h.vm_update (Or.inr hown) hne hin)
        (fun hin => absurd hin (by simp [PipePhase.inCs])) fun _ _ _ => rfl
  | @call t c hphase =>
      exact h.move rfl (fun _ => h.vm_owner t (by simp [hphase, PipePhase.inVm]))
        (fun _ _ _ => rfl) (fun hin => absurd hin (by simp [PipePhase.inCs])) fun _ _ _ => rfl
  | enterLoop hcs hphase hpass =>
      exact (h.inside_enter hcs (by simp [hphase, PipePhase.inVm])).pass hpass
  | enter hcs hphase => exact (h.inside_enter hcs (by simp [hphase, PipePhase.inVm])).leave
  | @park t l hphase =>
      have hown := h.cs_owner t (by simp [hphase, PipePhase.inCs])
      refine h.move rfl (fun hin => absurd hin (by simp [PipePhase.inVm])) (fun _ _ _ => rfl)
        (fun hin => absurd hin (by simp [PipePhase.inCs])) fun t' hne hin => ?_
      exact absurd (Option.some.inj (hown.symm.trans (h.cs_owner t' hin))).symm hne
  | wake hphase =>
      exact h.move rfl (fun hin => absurd hin (by simp [PipePhase.inVm])) (fun _ _ _ => rfl)
        (fun hin => absurd hin (by simp [PipePhase.inCs])) fun _ _ _ => rfl
  | lockAgain hcs hphase =>
      refine h.move rfl (fun hin => absurd hin (by simp [PipePhase.inVm])) (fun _ _ _ => rfl)
        (fun _ => rfl) fun t' hne hin => ?_
      exact absurd (hcs.symm.trans (h.cs_owner t' hin)) (by simp)
  | @resume t l e malloc reader writer s₁ _ hvm hphase hs₁ hrun =>
      have hin := (h.inside_resume hvm (by simp [hphase, PipePhase.inCs])).afterWait l writer
      rw [← hs₁] at hin
      split_ifs at hrun
      · exact hin.pass hrun
      · exact Option.some.inj hrun ▸ hin.leave

/-! ## The order of the locks -/

end PipeThreads

/-- The thread has called a function of the pipe and wants `pp->cs`. -/
def PipePhase.wantsCs : PipePhase → Bool
  | .entering _ => true
  | _ => false

/-- The thread comes back from its wait and wants the VM lock. -/
def PipePhase.wantsVm : PipePhase → Bool
  | .reentering _ _ => true
  | _ => false

section

variable {ν θ : Type*}

/-- The thread `a` holds `pp->cs` and wants the lock of its VM, which `b` holds, who wants
`pp->cs`. -/
structure PipeThreads.Deadlock (vmOf : θ → ν) (s : PipeThreads ν θ) (a b : θ) : Prop where
  same_vm : vmOf b = vmOf a
  cs : s.cs = some a
  wants_vm : (s.phase a).wantsVm = true
  vm : s.vm (vmOf a) = some b
  wants_cs : (s.phase b).wantsCs = true

/-- Nobody calls a function of the pipe while a thread of the same VM comes back from its
wait with `pp->cs`, and no wait takes `pp->cs` again while a thread of the same VM wants
it. -/
def PipeThreadOp.KeepsOrder (vmOf : θ → ν) (s : PipeThreads ν θ) : PipeThreadOp θ → Prop
  | .call t _ => ∀ a, vmOf a = vmOf t → (s.phase a).wantsVm = false
  | .lockAgain t => ∀ b, vmOf b = vmOf t → (s.phase b).wantsCs = false
  | _ => True

end

instance {ν θ : Type*} [Fintype θ] [DecidableEq ν] (vmOf : θ → ν) (s : PipeThreads ν θ) :
    (op : PipeThreadOp θ) → Decidable (op.KeepsOrder vmOf s)
  | .call _ _ | .lockAgain _ => inferInstanceAs (Decidable (∀ _, _))
  | .vmEnter _ | .vmLeave _ | .enter _ _ _ _ | .park _ | .wake _ _ | .resume _ _ _ _ =>
      inferInstanceAs (Decidable True)

namespace PipeThreads

variable {ν θ : Type*} [DecidableEq θ] {vmOf : θ → ν} {s s' : PipeThreads ν θ} {t a b : θ}
  {l : PipeLoop} {op : PipeThreadOp θ}

/-- A step of a third thread. -/
theorem Deadlock.move {p : PipePhase} (h : s.Deadlock vmOf a b)
    (hphase : s'.phase = Function.update s.phase t p) (hcs : s'.cs = s.cs)
    (hvm : s'.vm (vmOf a) = s.vm (vmOf a)) (hvm' : (s.phase t).wantsVm = false)
    (hcs' : (s.phase t).wantsCs = false) : s'.Deadlock vmOf a b := by
  have ha : a ≠ t := by
    rintro rfl
    exact absurd h.wants_vm (by simp [hvm'])
  have hb : b ≠ t := by
    rintro rfl
    exact absurd h.wants_cs (by simp [hcs'])
  refine ⟨h.same_vm, hcs.trans h.cs, ?_, hvm.trans h.vm, ?_⟩
  · rw [hphase, Function.update_of_ne ha]
    exact h.wants_vm
  · rw [hphase, Function.update_of_ne hb]
    exact h.wants_cs

section

variable {f : PipePhase → Bool} (hwoken : ∀ l, f (.woken l .signal) = f (.waiting l))
include hwoken

theorem condSignal_if_congr (s : PipeThreads ν θ) (c : Bool) (r : PipeRole) (pick t : θ) :
    f ((if c = true then s.condSignal r pick else s).phase t) = f (s.phase t) := by
  cases c with
  | true => exact condSignal_congr hwoken s r pick t
  | false => rfl

theorem afterWait_congr (s : PipeThreads ν θ) (l : PipeLoop) (writer t : θ) :
    f ((s.afterWait l writer).phase t) = f (s.phase t) := by
  cases l with
  | put msg =>
      cases s
      simp only [PipeThreads.afterWait]
      rw [condSignal_if_congr hwoken]
  | get =>
      cases s
      rfl

end

variable [DecidableEq ν]

/-- The two threads wait for ever. -/
theorem Deadlock.step (h : s.Deadlock vmOf a b) (hlocks : s.Locks vmOf)
    (hstep : s.step vmOf op = some s') : s'.Deadlock vmOf a b := by
  have hother : ∀ {t : θ} {o : Option θ}, vmOf t ≠ vmOf a →
      Function.update s.vm (vmOf t) o (vmOf a) = s.vm (vmOf a) :=
    fun hne => Function.update_of_ne hne.symm ..
  cases transition_of_step hstep with
  | vmEnter hvm hphase =>
      refine h.move rfl rfl (hother fun hsame => ?_) (by simp [hphase, PipePhase.wantsVm])
        (by simp [hphase, PipePhase.wantsCs])
      rw [hsame, h.vm] at hvm
      exact absurd hvm (by simp)
  | @vmLeave t hphase =>
      have hown := hlocks.vm_owner t (by simp [hphase, PipePhase.inVm])
      refine h.move rfl rfl (hother fun hsame => ?_) (by simp [hphase, PipePhase.wantsVm])
        (by simp [hphase, PipePhase.wantsCs])
      rw [hsame, h.vm] at hown
      have hcs := h.wants_cs
      rw [Option.some.inj hown, hphase] at hcs
      exact absurd hcs (by simp [PipePhase.wantsCs])
  | call hphase =>
      exact h.move rfl rfl rfl (by simp [hphase, PipePhase.wantsVm])
        (by simp [hphase, PipePhase.wantsCs])
  | enterLoop hcs => exact absurd (hcs.symm.trans h.cs) (by simp)
  | enter hcs => exact absurd (hcs.symm.trans h.cs) (by simp)
  | @park t l hphase =>
      have hown := hlocks.cs_owner t (by simp [hphase, PipePhase.inCs])
      have hvm := h.wants_vm
      rw [Option.some.inj (h.cs.symm.trans hown), hphase] at hvm
      exact absurd hvm (by simp [PipePhase.wantsVm])
  | wake hphase =>
      exact h.move rfl rfl rfl (by simp [hphase, PipePhase.wantsVm])
        (by simp [hphase, PipePhase.wantsCs])
  | lockAgain hcs => exact absurd (hcs.symm.trans h.cs) (by simp)
  | @resume t l e malloc reader writer s₁ _ hvm hphase hs₁ hrun =>
      have hown := hlocks.cs_owner t (by simp [hphase, PipePhase.inCs])
      rw [Option.some.inj (hown.symm.trans h.cs), h.vm] at hvm
      exact absurd hvm (by simp)

/-- A pass only adds threads that run or begin to wait. -/
theorem pass_imp {f : PipePhase → Bool} (hwoken : ∀ l, f (.woken l .signal) = f (.waiting l))
    (hrunning : f .running = false) (hparking : ∀ l, f (.parking l) = false)
    {malloc : Option Mem} {reader writer : θ}
    (hpass : s.pass vmOf t l malloc reader writer = some s') {t' : θ}
    (h : f (s'.phase t') = true) : f (s.phase t') = true := by
  have hleave : ∀ s₁ : PipeThreads ν θ, (∀ t', f (s₁.phase t') = f (s.phase t')) →
      f ((s₁.leave t).phase t') = true → f (s.phase t') = true := by
    intro s₁ hs₁ hf
    by_cases ht : t' = t
    · exact absurd hf (by simp [ht, leave, hrunning])
    · simp only [leave, Function.update_of_ne ht] at hf
      rw [← hs₁]
      exact hf
  have hwait : ∀ (pp : Pipe) (l : PipeLoop),
      f ((({ s with pp := pp } : PipeThreads ν θ).startWait vmOf t l).phase t') = true →
        f (s.phase t') = true := by
    intro pp l hf
    by_cases ht : t' = t
    · exact absurd hf (by simp [ht, startWait, hparking])
    · simpa only [startWait, Function.update_of_ne ht] using hf
  cases l with
  | put msg =>
      obtain ⟨r, -, rfl⟩ := Option.map_eq_some_iff.mp hpass
      cases r with
      | stored pp signalPut =>
          refine hleave _ (fun t' => ?_) h
          rw [condSignal_if_congr hwoken]
      | blocked pp => exact hwait _ _ h
  | get =>
      obtain ⟨r, -, rfl⟩ := Option.map_eq_some_iff.mp hpass
      cases r with
      | taken pp msg signalPut signalGet =>
          refine hleave _ (fun t' => ?_) h
          rw [condSignal_if_congr hwoken, condSignal_if_congr hwoken]
      | blocked pp => exact hwait _ _ h

/-- A thread comes to want the VM lock after its wait only, and `pp->cs` by a call only. -/
def NewWants (op : PipeThreadOp θ) (s s' : PipeThreads ν θ) : Prop :=
  ∀ t, ((s'.phase t).wantsVm = true → (s.phase t).wantsVm = true ∨ op = .lockAgain t) ∧
    ((s'.phase t).wantsCs = true → (s.phase t).wantsCs = true ∨ ∃ c, op = .call t c)

omit [DecidableEq ν] in
theorem newWants_update {p : PipePhase} (hphase : s'.phase = Function.update s.phase t p)
    (hv : p.wantsVm = true → op = .lockAgain t) (hc : p.wantsCs = true → ∃ c, op = .call t c) :
    NewWants op s s' := by
  intro t'
  rw [hphase]
  by_cases ht : t' = t
  · rw [ht, Function.update_self]
    exact ⟨fun h => Or.inr (hv h), fun h => Or.inr (hc h)⟩
  · rw [Function.update_of_ne ht]
    exact ⟨Or.inl, Or.inl⟩

omit [DecidableEq ν] in
theorem newWants_leave (op : PipeThreadOp θ) (s : PipeThreads ν θ) (t : θ) :
    NewWants op s (s.leave t) :=
  newWants_update rfl (by simp [PipePhase.wantsVm]) (by simp [PipePhase.wantsCs])

theorem newWants_pass {s₁ : PipeThreads ν θ} {malloc : Option Mem} {reader writer : θ}
    (hv : ∀ t', (s₁.phase t').wantsVm = (s.phase t').wantsVm)
    (hc : ∀ t', (s₁.phase t').wantsCs = (s.phase t').wantsCs)
    (hpass : s₁.pass vmOf t l malloc reader writer = some s') : NewWants op s s' := by
  refine fun t' => ⟨fun h => Or.inl ?_, fun h => Or.inl ?_⟩
  · rw [← hv]
    exact pass_imp (fun _ => rfl) rfl (fun _ => rfl) hpass h
  · rw [← hc]
    exact pass_imp (fun _ => rfl) rfl (fun _ => rfl) hpass h

theorem step_newWants (hstep : s.step vmOf op = some s') : NewWants op s s' := by
  cases transition_of_step hstep with
  | vmEnter => exact newWants_update rfl (by simp [PipePhase.wantsVm]) (by simp [PipePhase.wantsCs])
  | vmLeave => exact newWants_update rfl (by simp [PipePhase.wantsVm]) (by simp [PipePhase.wantsCs])
  | @call t c => exact newWants_update rfl (by simp [PipePhase.wantsVm]) fun _ => ⟨c, rfl⟩
  | enterLoop hcs hphase hpass => exact newWants_pass (fun _ => rfl) (fun _ => rfl) hpass
  | enter => exact newWants_leave _ s _
  | park => exact newWants_update rfl (by simp [PipePhase.wantsVm]) (by simp [PipePhase.wantsCs])
  | wake => exact newWants_update rfl (by simp [PipePhase.wantsVm]) (by simp [PipePhase.wantsCs])
  | lockAgain => exact newWants_update rfl (fun _ => rfl) (by simp [PipePhase.wantsCs])
  | @resume t l e malloc reader writer s₁ _ hvm hphase hs₁ hrun =>
      have hv : ∀ t', (s₁.phase t').wantsVm = (s.phase t').wantsVm := fun t' => by
        rw [hs₁]
        exact afterWait_congr (fun _ => rfl) _ l writer t'
      have hc : ∀ t', (s₁.phase t').wantsCs = (s.phase t').wantsCs := fun t' => by
        rw [hs₁]
        exact afterWait_congr (fun _ => rfl) _ l writer t'
      split_ifs at hrun
      · exact newWants_pass hv hc hrun
      · intro t'
        rw [← Option.some.inj hrun, ← hv, ← hc]
        exact newWants_leave (.resume t malloc reader writer) s₁ t t'

/-- The transitions that do not cross. -/
def OrderedStep (vmOf : θ → ν) (s s' : PipeThreads ν θ) : Prop :=
  ∃ op : PipeThreadOp θ, op.Picks s ∧ op.KeepsOrder vmOf s ∧ s.step vmOf op = some s'

/-- Whatever the number of threads and VMs and their interleaving: as long as no call of a
function of the pipe crosses a thread of the same VM that comes back from its wait, no two
threads hold the VM lock and `pp->cs` and wait for each other. -/
theorem safe_run_no_deadlock {pp : Pipe}
    (hrun : Relation.ReflTransGen (OrderedStep vmOf) (init pp) s) :
    ∀ a b, ¬s.Deadlock vmOf a b := by
  have hinv : ∀ a b, vmOf b = vmOf a → (s.phase a).wantsVm = true →
      (s.phase b).wantsCs = false := by
    refine inv_of_reach (I := fun s : PipeThreads ν θ => ∀ a b, vmOf b = vmOf a →
      (s.phase a).wantsVm = true → (s.phase b).wantsCs = false) ?_ ?_ hrun
    · rintro s s' ⟨op, -, hsafe, hstep⟩ h a b hsame ha
      by_contra hb
      have hb' : (s'.phase b).wantsCs = true := by simpa using hb
      rcases (step_newWants hstep a).1 ha with ha₀ | rfl
      · rcases (step_newWants hstep b).2 hb' with hb₀ | ⟨c, rfl⟩
        · exact absurd (h a b hsame ha₀) (by simp [hb₀])
        · exact absurd (hsafe a hsame.symm) (by simp [ha₀])
      · rcases (step_newWants hstep b).2 hb' with hb₀ | ⟨c, hop⟩
        · exact absurd (hsafe b hsame) (by simp [hb₀])
        · exact absurd hop (by simp)
    · intro a b _ ha
      exact absurd ha (by simp [init, PipePhase.wantsVm])
  intro a b hd
  exact absurd hd.wants_cs (by simp [hinv a b hd.same_vm hd.wants_vm])

/-- A message without items. -/
def emptyMessage : Message := ⟨[], by decide⟩

/-- A reader `a` waits, a writer `b` puts a message and releases the VM lock, and the
reader takes the message. -/
def orderedOps {θ : Type} (a b : θ) : List (PipeThreadOp θ) :=
  [.vmEnter a, .call a (.loop .get), .enter a none a a, .park a, .vmEnter b,
    .call b (.loop (.put emptyMessage)), .enter b none a a, .vmLeave b, .lockAgain a,
    .resume a none a a]

theorem safe_run_no_deadlock_ordered :
    ∃ s : PipeThreads Unit (Fin 2), Relation.ReflTransGen (OrderedStep fun _ => ())
        (init (pipeInit 4096 4096 fun _ => 0)) s ∧
      (s.phase 0).inVm = true ∧ ∀ a b, ¬s.Deadlock (fun _ => ()) a b := by
  have hrun : (runOps (fun (s : PipeThreads Unit (Fin 2)) op =>
      if op.Picks s ∧ op.KeepsOrder (fun _ => ()) s then s.step (fun _ => ()) op else none)
      (init (pipeInit 4096 4096 fun _ => 0)) (orderedOps 0 1)).map (fun s => (s.phase 0).inVm) =
        some true := by decide +kernel
  obtain ⟨s, hs, hvm⟩ := Option.map_eq_some_iff.mp hrun
  have hreach : Relation.ReflTransGen (OrderedStep fun _ => ())
      (init (pipeInit 4096 4096 fun _ => 0)) s := by
    refine reach_of_runOps (fun _ op _ hop => ?_) hs
    obtain ⟨⟨hpicks, horder⟩, hstep⟩ := Option.ite_none_right_eq_some.mp hop
    exact ⟨op, hpicks, horder, hstep⟩
  exact ⟨s, hreach, hvm, safe_run_no_deadlock hreach⟩

/-- The reader `a` is signalled, but before it has taken `pp->cs` the writer `b` calls `put`
once more. -/
def crossingOps {θ : Type} (a b : θ) : List (PipeThreadOp θ) :=
  [.vmEnter a, .call a (.loop .get), .enter a none a a, .park a, .vmEnter b,
    .call b (.loop (.put emptyMessage)), .enter b none a a,
    .call b (.loop (.put emptyMessage)), .lockAgain a]

/-- Two threads of one VM: a wait ends while the other thread is about to enter `pp->cs`. -/
theorem wake_crosses_put :
    ∃ s : PipeThreads Unit (Fin 2), Relation.ReflTransGen (Step fun _ => ())
        (init (pipeInit 4096 4096 fun _ => 0)) s ∧ s.Deadlock (fun _ => ()) 0 1 := by
  have hrun : (runOps (fun (s : PipeThreads Unit (Fin 2)) op =>
      if op.Picks s then s.step (fun _ => ()) op else none)
      (init (pipeInit 4096 4096 fun _ => 0)) (crossingOps 0 1)).map (fun s =>
        (s.cs, (s.phase 0).wantsVm, s.vm (), (s.phase 1).wantsCs)) =
        some (some 0, true, some 1, true) := by decide +kernel
  obtain ⟨s, hs, heq⟩ := Option.map_eq_some_iff.mp hrun
  obtain ⟨hcs, hwants, hvm, hwants'⟩ : s.cs = some 0 ∧ (s.phase 0).wantsVm = true ∧
      s.vm () = some 1 ∧ (s.phase 1).wantsCs = true := by simpa using heq
  refine ⟨s, reach_of_runOps (fun _ op _ hop => ?_) hs, rfl, hcs, hwants, hvm, hwants'⟩
  obtain ⟨hpicks, hstep⟩ := Option.ite_none_right_eq_some.mp hop
  exact ⟨op, hpicks, hstep⟩

end PipeThreads

end LuaSys.Thread
