import LuaSys.Lib.Run
import LuaSys.Lib.Word
import Mathlib.Logic.Function.Basic

/-!
# Waiting and modifying

An event queue may be shared by threads.  One of them waits in `evq_wait`, with the VM
lock released, and the others must not change the queue meanwhile.  The handshake is
`levq_control_wait`: a thread that is going to change the queue counts itself in
`nactives`, interrupts the wait and yields until the flag `EVQ_FLAG_WAITING` is clear.

Only the first one does so.  The counter is shared with the handlers and with the
threads that still yield, and whoever finds it positive goes on at once.

A step is what a thread does from the point where it gets the VM lock, or from its last
step, to the next point named in `Activity`.  The counters of the source are `unsigned
int`.

## Main definitions

* `Activity` — where a thread is.
* `ControlState`, `ControlOp`, `ControlState.step` — the queue and the steps of the
  threads, in any interleaving.
* `ControlState.Exclusive` — no thread changes the queue while another one waits.
* `ControlOp.Safe` — the condition on the state before a step.

## Main results

* `safe_run_exclusive` — the exclusion in every run of safe steps.
* `second_modifier_enters` — a run of three threads without it.
-/

namespace LuaSys.Event

open LuaSys.Lib

/-- Where a thread is. -/
inductive Activity
  /-- Without the VM lock, outside the functions below. -/
  | away
  /-- With the VM lock, in Lua code or between two sections of `sys_evq_loop`. -/
  | running
  /-- In `thread_event_wait` of `sys_evq_loop`. -/
  | idle
  /-- In `evq_wait`, after the release of the VM lock. -/
  | waiting
  /-- In `sys_thread_switch` of `levq_control_wait`. -/
  | switching
  /-- Between `levq_control_wait(evq, 1)` and `levq_control_wait(evq, 0)`. -/
  | modifying
  deriving DecidableEq, Repr

/-- An event queue and its threads. -/
structure ControlState (θ : Type*) where
  /-- The thread with the VM lock. -/
  vm : Option θ
  act : θ → Activity
  /-- The loops of a thread that process ready events; callbacks may call `evq:loop`. -/
  handlers : θ → ℕ
  nactives : ℕ
  nidles : ℕ
  flagWaiting : Bool
  flagStop : Bool
  /-- The length of the list `ev_ready`. -/
  ready : ℕ
  /-- The state of `wait_tev`. -/
  signalled : Bool
  /-- Whether the wait has been interrupted by `evq_signal`. -/
  interrupted : Bool

/-- The steps of a thread. -/
inductive ControlOp (θ : Type*)
  | vmEnter (t : θ)
  | vmLeave (t : θ)
  /-- `levq_control_wait(evq, 1)`. -/
  | controlWait (t : θ)
  | threadSwitch (t : θ)
  /-- `levq_control_wait(evq, 0)`. -/
  | controlDone (t : θ)
  /-- An error inside the modification. -/
  | controlError (t : θ)
  /-- `levq_notify` makes an event ready. -/
  | notify (t : θ)
  /-- `levq_sync_call`; the thread is suspended until a loop has processed the operation. -/
  | syncCall (t : θ)
  /-- `levq_stop`. -/
  | stop (t : θ) (stop : Bool)
  /-- The wait section of `sys_evq_loop`. -/
  | loopWait (t : θ)
  | idleWake (t : θ) (error : Bool)
  /-- `epoll_wait` returns; `n` events become ready. -/
  | waitDone (t : θ) (n : ℕ)
  /-- The begin and the end of the loop over the ready events, and the next event. -/
  | dispatch (t : θ)
  | dispatchNext (t : θ)
  | dispatchDone (t : θ) (error : Bool)
  | loopExit (t : θ)

namespace ControlState

variable {θ : Type*}

/-- `if (evq->flags & EVQ_FLAG_WAITING) evq_signal(evq, EVQ_SIGEVQ)`. -/
def interrupt (s : ControlState θ) : ControlState θ :=
  if s.flagWaiting then { s with interrupted := true } else s

@[simp] theorem interrupt_vm (s : ControlState θ) : s.interrupt.vm = s.vm := by
  unfold interrupt
  split <;> rfl

@[simp] theorem interrupt_act (s : ControlState θ) : s.interrupt.act = s.act := by
  unfold interrupt
  split <;> rfl

@[simp] theorem interrupt_flagWaiting (s : ControlState θ) :
    s.interrupt.flagWaiting = s.flagWaiting := by
  unfold interrupt
  split <;> rfl

@[simp] theorem interrupt_nidles (s : ControlState θ) : s.interrupt.nidles = s.nidles := by
  unfold interrupt
  split <;> rfl

@[simp] theorem interrupt_nactives (s : ControlState θ) : s.interrupt.nactives = s.nactives := by
  unfold interrupt
  split <;> rfl

@[simp] theorem interrupt_signalled (s : ControlState θ) : s.interrupt.signalled = s.signalled := by
  unfold interrupt
  split <;> rfl

@[simp] theorem interrupt_handlers (s : ControlState θ) : s.interrupt.handlers = s.handlers := by
  unfold interrupt
  split <;> rfl

/-- A new queue; no thread uses it. -/
def init : ControlState θ where
  vm := none
  act _ := .away
  handlers _ := 0
  nactives := 0
  nidles := 0
  flagWaiting := false
  flagStop := false
  ready := 0
  signalled := false
  interrupted := false

/-- No thread changes the queue while another one waits for its events. -/
def Exclusive (s : ControlState θ) : Prop :=
  ∀ t t', s.act t = .modifying → s.act t' ≠ .waiting

/-- A modification holds the VM lock, there is at most one wait, its flag is set, and
they exclude each other. -/
structure Inv (s : ControlState θ) : Prop where
  modifying_vm : ∀ t, s.act t = .modifying → s.vm = some t
  waiting_flag : ∀ t, s.act t = .waiting → s.flagWaiting = true
  waiting_unique : ∀ t t', s.act t = .waiting → s.act t' = .waiting → t = t'
  exclusive : s.Exclusive

theorem init_inv : (init : ControlState θ).Inv := by
  refine ⟨?_, ?_, ?_, ?_⟩ <;> simp [init, Exclusive]

/-- A step that leaves the threads where they are. -/
theorem Inv.stay {s s' : ControlState θ} (h : s.Inv) (hvm : s'.vm = s.vm) (hact : s'.act = s.act)
    (hflag : s.flagWaiting = true → s'.flagWaiting = true) : s'.Inv := by
  refine ⟨?_, ?_, ?_, ?_⟩
  · rw [hact, hvm]
    exact h.modifying_vm
  · rw [hact]
    exact fun t ht => hflag (h.waiting_flag t ht)
  · rw [hact]
    exact h.waiting_unique
  · unfold Exclusive
    rw [hact]
    exact h.exclusive

variable [DecidableEq θ]

/-- The thread goes on with the VM lock. -/
def proceed (s : ControlState θ) (t : θ) (a : Activity) : ControlState θ :=
  { s with vm := some t, act := Function.update s.act t a }

/-- The thread releases the VM lock. -/
def block (s : ControlState θ) (t : θ) (a : Activity) : ControlState θ :=
  { s with vm := none, act := Function.update s.act t a }

/-- The thread holds the VM lock and is not inside of a section. -/
def Running (s : ControlState θ) (t : θ) : Prop := s.vm = some t ∧ s.act t = .running

/-- The thread waits for the VM lock after a release in `a`. -/
def Blocked (s : ControlState θ) (t : θ) (a : Activity) : Prop := s.vm = none ∧ s.act t = a

instance (s : ControlState θ) (t : θ) : Decidable (s.Running t) := inferInstanceAs (Decidable (_ ∧ _))

instance (s : ControlState θ) (t : θ) (a : Activity) : Decidable (s.Blocked t a) :=
  inferInstanceAs (Decidable (_ ∧ _))

/-- One step; `none` when the thread is elsewhere. -/
def step (s : ControlState θ) : ControlOp θ → Option (ControlState θ)
  | .vmEnter t => if s.Blocked t .away then some (s.proceed t .running) else none
  | .vmLeave t => if s.Running t then some (s.block t .away) else none
  | .controlWait t =>
      if s.Running t then
        let s' := { s with nactives := u32 (s.nactives + 1) }
        if s.nactives = 0 ∧ s.flagWaiting then some (s'.interrupt.block t .switching)
        else some (s'.proceed t .modifying)
      else none
  | .threadSwitch t =>
      if s.Blocked t .switching then
        if s.flagWaiting then some s else some (s.proceed t .modifying)
      else none
  | .controlDone t =>
      if s.vm = some t ∧ s.act t = .modifying then
        let n := u32sub s.nactives 1
        let s := { s with nactives := n, signalled := s.signalled || (n = 0 && s.nidles ≠ 0) }
        some (s.proceed t .running)
      else none
  | .controlError t =>
      if s.vm = some t ∧ s.act t = .modifying then some (s.proceed t .running) else none
  | .notify t =>
      if s.Running t then some { s.interrupt with ready := s.ready + 1 } else none
  | .syncCall t => if s.Running t then some (s.interrupt.block t .away) else none
  | .stop t stop =>
      if s.Running t then
        -- The source assigns `~EVQ_FLAG_STOP`, which sets the other flag.
        if stop then some (ControlState.interrupt { s with flagStop := true })
        else some (ControlState.interrupt { s with flagStop := false, flagWaiting := true })
      else none
  | .loopWait t =>
      -- `EVQ_FLAG_STOP` is tested before the synchronous operations, and these may set it.
      if s.Running t ∧ s.ready = 0 then
        if s.nactives ≠ 0 ∨ s.flagWaiting then
          some (({ s with nidles := u32 (s.nidles + 1) }).block t .idle)
        else some (({ s with flagWaiting := true }).block t .waiting)
      else none
  | .idleWake t error =>
      if s.Blocked t .idle ∧ (s.signalled ∨ error) then
        some (({ s with nidles := u32sub s.nidles 1, signalled := error && s.signalled }).proceed t
          .running)
      else none
  | .waitDone t n =>
      if s.Blocked t .waiting then
        some (({ s with flagWaiting := false, interrupted := false, ready := s.ready + n }).proceed t
          .running)
      else none
  | .dispatch t =>
      if s.Running t ∧ s.ready ≠ 0 then
        some { s with
          nactives := u32 (s.nactives + 1)
          handlers := Function.update s.handlers t (s.handlers t + 1)
          signalled := s.signalled || (s.nidles ≠ 0 && s.ready ≠ 1)
          ready := s.ready - 1 }
      else none
  | .dispatchNext t =>
      if s.Running t ∧ s.handlers t ≠ 0 ∧ s.ready ≠ 0 then some { s with ready := s.ready - 1 }
      else none
  | .dispatchDone t error =>
      if s.Running t ∧ s.handlers t ≠ 0 ∧ (s.ready = 0 ∨ error) then
        some { s with
          nactives := u32sub s.nactives 1
          handlers := Function.update s.handlers t (s.handlers t - 1) }
      else none
  | .loopExit t =>
      if s.Running t then
        some { s with signalled := s.signalled || (s.nidles ≠ 0 && !s.flagWaiting) }
      else none

/-- The transitions of a run. -/
def Step (s s' : ControlState θ) : Prop := ∃ op, s.step op = some s'

end ControlState

/-! ## Safe runs -/

/-- A thread that calls `levq_control_wait(evq, 1)` is the first one, or nobody waits. -/
def ControlOp.Safe {θ : Type*} (s : ControlState θ) : ControlOp θ → Prop
  | .controlWait _ => s.nactives = 0 ∨ s.flagWaiting = false
  | _ => True

namespace ControlState

variable {θ : Type*} [DecidableEq θ] {s s' : ControlState θ} {t : θ}

/-- The transitions of a run with safe steps only. -/
def SafeStep (s s' : ControlState θ) : Prop := ∃ op : ControlOp θ, op.Safe s ∧ s.step op = some s'

/-- A thread moves to an activity that is neither a wait nor a modification, while no
other thread modifies the queue. -/
theorem Inv.move (h : s.Inv) {a : Activity} (hvm : s.vm = none ∨ s.vm = some t)
    (hact : ∀ t', s'.act t' = if t' = t then a else s.act t') (hwait : a ≠ .waiting)
    (hmod : a ≠ .modifying)
    (hflag : ∀ t', t' ≠ t → s.act t' = .waiting → s'.flagWaiting = true) : s'.Inv := by
  have hother : ∀ t', t' ≠ t → s.act t' ≠ .modifying := by
    intro t' hne hmod'
    have := h.modifying_vm t' hmod'
    rcases hvm with hvm | hvm <;> simp_all
  have hnone : ∀ t', s'.act t' ≠ .modifying := by
    intro t'
    rw [hact]
    split
    · exact hmod
    · next hne => exact hother t' hne
  have hold : ∀ t', s'.act t' = .waiting → t' ≠ t ∧ s.act t' = .waiting := by
    intro t' ht'
    rw [hact] at ht'
    split at ht'
    · exact absurd ht' hwait
    · next hne => exact ⟨hne, ht'⟩
  refine ⟨fun t' ht' => absurd ht' (hnone t'), fun t' ht' => ?_, fun t₁ t₂ h₁ h₂ => ?_,
    fun t' _ ht' => absurd ht' (hnone t')⟩
  · obtain ⟨hne, hw⟩ := hold t' ht'
    exact hflag t' hne hw
  · exact h.waiting_unique t₁ t₂ (hold t₁ h₁).2 (hold t₂ h₂).2

/-- A thread that has found the flag clear begins to change the queue. -/
theorem Inv.modify (h : s.Inv) (hvm : s.vm = none ∨ s.vm = some t) (hflag : s.flagWaiting = false)
    (hvm' : s'.vm = some t)
    (hact : ∀ t', s'.act t' = if t' = t then .modifying else s.act t') : s'.Inv := by
  have hnone : ∀ t', s'.act t' ≠ .waiting := by
    intro t' ht'
    rw [hact] at ht'
    split at ht'
    · exact absurd ht' (by simp)
    · have := h.waiting_flag t' ht'
      simp [hflag] at this
  refine ⟨fun t' ht' => ?_, fun t' ht' => absurd ht' (hnone t'),
    fun t' _ ht' => absurd ht' (hnone t'), fun _ t' _ => hnone t'⟩
  rw [hact] at ht'
  split at ht'
  · next heq => rw [hvm', heq]
  · next hne =>
    have := h.modifying_vm t' ht'
    rcases hvm with hvm | hvm
    · simp [hvm] at this
    · rw [hvm, Option.some.injEq] at this
      exact absurd this.symm hne

/-- A thread with the VM lock that has found the flag clear begins to wait. -/
theorem Inv.wait (h : s.Inv) (hvm : s.vm = some t) (hflag : s.flagWaiting = false)
    (hflag' : s'.flagWaiting = true)
    (hact : ∀ t', s'.act t' = if t' = t then .waiting else s.act t') : s'.Inv := by
  have honly : ∀ t', s'.act t' = .waiting → t' = t := by
    intro t' ht'
    by_contra hne
    rw [hact, if_neg hne] at ht'
    have := h.waiting_flag t' ht'
    simp [hflag] at this
  have hnone : ∀ t', s'.act t' ≠ .modifying := by
    intro t' ht'
    rw [hact] at ht'
    split at ht'
    · exact absurd ht' (by simp)
    · next hne =>
      have := h.modifying_vm t' ht'
      rw [hvm, Option.some.injEq] at this
      exact hne this.symm
  exact ⟨fun t' ht' => absurd ht' (hnone t'), fun _ _ => hflag',
    fun t₁ t₂ h₁ h₂ => (honly t₁ h₁).trans (honly t₂ h₂).symm,
    fun t' _ ht' => absurd ht' (hnone t')⟩

theorem proceed_act (s : ControlState θ) (t t' : θ) (a : Activity) :
    (s.proceed t a).act t' = if t' = t then a else s.act t' := Function.update_apply ..

theorem block_act (s : ControlState θ) (t t' : θ) (a : Activity) :
    (s.block t a).act t' = if t' = t then a else s.act t' := Function.update_apply ..

/-- A safe step keeps the invariant. -/
theorem SafeStep.inv (hstep : SafeStep s s') (h : s.Inv) : s'.Inv := by
  obtain ⟨op, hsafe, hop⟩ := hstep
  have hkeep : ∀ t₀ t' : θ, t' ≠ t₀ → s.act t' = .waiting → s.flagWaiting = true :=
    fun _ t' _ => h.waiting_flag t'
  cases op with
  | vmEnter t =>
      obtain ⟨hat, heq⟩ := Option.ite_none_right_eq_some.mp hop
      rw [← Option.some.inj heq]
      exact h.move (Or.inl hat.1) (s.proceed_act t · .running) (by simp) (by simp) (hkeep t)
  | vmLeave t =>
      obtain ⟨hat, heq⟩ := Option.ite_none_right_eq_some.mp hop
      rw [← Option.some.inj heq]
      exact h.move (Or.inr hat.1) (s.block_act t · .away) (by simp) (by simp) (hkeep t)
  | controlWait t =>
      obtain ⟨hat, heq⟩ := Option.ite_none_right_eq_some.mp hop
      split at heq
      · rw [← Option.some.inj heq]
        refine h.move (Or.inr hat.1) (fun t' => ?_) (a := .switching) (by simp) (by simp) ?_
        · rw [block_act, interrupt_act]
        · exact fun t' hne hw => (interrupt_flagWaiting _).trans (hkeep t t' hne hw)
      · next hfirst =>
        rw [← Option.some.inj heq]
        have hflag : s.flagWaiting = false := by
          rcases hsafe with hzero | hflag
          · simpa [hzero] using hfirst
          · exact hflag
        exact h.modify (Or.inr hat.1) hflag rfl (proceed_act _ t · .modifying)
  | threadSwitch t =>
      obtain ⟨hat, heq⟩ := Option.ite_none_right_eq_some.mp hop
      split at heq
      · exact Option.some.inj heq ▸ h
      · next hflag =>
        rw [← Option.some.inj heq]
        exact h.modify (Or.inl hat.1) (by simpa using hflag) rfl (s.proceed_act t · .modifying)
  | controlDone t =>
      obtain ⟨hat, heq⟩ := Option.ite_none_right_eq_some.mp hop
      rw [← Option.some.inj heq]
      exact h.move (Or.inr hat.1) (proceed_act _ t · .running) (by simp) (by simp) (hkeep t)
  | controlError t =>
      obtain ⟨hat, heq⟩ := Option.ite_none_right_eq_some.mp hop
      rw [← Option.some.inj heq]
      exact h.move (Or.inr hat.1) (s.proceed_act t · .running) (by simp) (by simp) (hkeep t)
  | notify t =>
      obtain ⟨hat, heq⟩ := Option.ite_none_right_eq_some.mp hop
      rw [← Option.some.inj heq]
      exact h.stay (interrupt_vm s) (interrupt_act s) fun hf => (interrupt_flagWaiting s).trans hf
  | syncCall t =>
      obtain ⟨hat, heq⟩ := Option.ite_none_right_eq_some.mp hop
      rw [← Option.some.inj heq]
      refine h.move (Or.inr hat.1) (fun t' => ?_) (a := .away) (by simp) (by simp) ?_
      · rw [block_act, interrupt_act]
      · exact fun t' hne hw => (interrupt_flagWaiting s).trans (hkeep t t' hne hw)
  | stop t stop =>
      obtain ⟨hat, heq⟩ := Option.ite_none_right_eq_some.mp hop
      split at heq
      · rw [← Option.some.inj heq]
        exact h.stay (interrupt_vm _) (interrupt_act _) fun hf => (interrupt_flagWaiting _).trans hf
      · rw [← Option.some.inj heq]
        exact h.stay (interrupt_vm _) (interrupt_act _) fun _ => interrupt_flagWaiting _
  | loopWait t =>
      obtain ⟨⟨hat, -⟩, heq⟩ := Option.ite_none_right_eq_some.mp hop
      split at heq
      · rw [← Option.some.inj heq]
        exact h.move (Or.inr hat.1) (block_act _ t · .idle) (by simp) (by simp) (hkeep t)
      · next hnot =>
        rw [not_or, Bool.not_eq_true] at hnot
        rw [← Option.some.inj heq]
        exact h.wait hat.1 hnot.2 rfl (block_act _ t · .waiting)
  | idleWake t error =>
      obtain ⟨⟨hat, -⟩, heq⟩ := Option.ite_none_right_eq_some.mp hop
      rw [← Option.some.inj heq]
      exact h.move (Or.inl hat.1) (proceed_act _ t · .running) (by simp) (by simp) (hkeep t)
  | waitDone t n =>
      obtain ⟨hat, heq⟩ := Option.ite_none_right_eq_some.mp hop
      rw [← Option.some.inj heq]
      refine h.move (Or.inl hat.1) (proceed_act _ t · .running) (by simp) (by simp) ?_
      -- The thread that clears the flag is the only one that waits.
      exact fun t' hne hw => absurd (h.waiting_unique t' t hw hat.2) hne
  | dispatch t =>
      obtain ⟨-, heq⟩ := Option.ite_none_right_eq_some.mp hop
      rw [← Option.some.inj heq]
      exact h.stay rfl rfl id
  | dispatchNext t =>
      obtain ⟨-, heq⟩ := Option.ite_none_right_eq_some.mp hop
      rw [← Option.some.inj heq]
      exact h.stay rfl rfl id
  | dispatchDone t error =>
      obtain ⟨-, heq⟩ := Option.ite_none_right_eq_some.mp hop
      rw [← Option.some.inj heq]
      exact h.stay rfl rfl id
  | loopExit t =>
      obtain ⟨-, heq⟩ := Option.ite_none_right_eq_some.mp hop
      rw [← Option.some.inj heq]
      exact h.stay rfl rfl id

/-- The condition on `levq_control_wait` is exact: a call that does not meet it, while a
thread waits, breaks the exclusion. -/
theorem controlWait_not_exclusive {t' : θ} (hat : s.Running t) (hwait : s.act t' = .waiting)
    (hcount : s.nactives ≠ 0) : ∃ s', s.step (.controlWait t) = some s' ∧ ¬s'.Exclusive := by
  have hne : t' ≠ t := by
    rintro rfl
    exact absurd (hat.2.symm.trans hwait) (by simp)
  refine ⟨_, by rw [step, if_pos hat, if_neg fun h => hcount h.1], fun hex => ?_⟩
  refine hex t t' ?_ ?_
  · rw [proceed_act, if_pos rfl]
  · rw [proceed_act, if_neg hne]
    exact hwait

end ControlState

/-- **Waiting and modifying exclude each other.**  For any threads and any interleaving,
as long as nobody calls `levq_control_wait(evq, 1)` while a thread waits and the
counter is positive. -/
theorem safe_run_exclusive {θ : Type*} [DecidableEq θ] {s : ControlState θ}
    (hrun : Relation.ReflTransGen ControlState.SafeStep ControlState.init s) : s.Exclusive :=
  (inv_of_reach (fun _ _ hstep => hstep.inv) ControlState.init_inv hrun).exclusive

/-- A thread waits, another one interrupts it and changes the queue. -/
theorem safe_run_exclusive_interrupt :
    ∃ s : ControlState ℕ, Relation.ReflTransGen ControlState.SafeStep ControlState.init s ∧
      s.act 1 = .modifying ∧ s.Exclusive := by
  have hrun : Relation.ReflTransGen ControlState.SafeStep (ControlState.init : ControlState ℕ) _ :=
    .tail (.tail (.tail (.tail (.tail (.tail (.tail .refl
      ⟨.vmEnter 0, trivial, rfl⟩)
      ⟨.loopWait 0, trivial, rfl⟩)
      ⟨.vmEnter 1, trivial, rfl⟩)
      ⟨.controlWait 1, Or.inl rfl, rfl⟩)
      ⟨.waitDone 0 0, trivial, rfl⟩)
      ⟨.vmLeave 0, trivial, rfl⟩)
      ⟨.threadSwitch 1, trivial, rfl⟩
  exact ⟨_, hrun, rfl, safe_run_exclusive hrun⟩

/-- The third thread of `second_modifier_enters` finds the counter of the second one. -/
def secondModifierOps : List (ControlOp ℕ) :=
  [.vmEnter 0, .loopWait 0, .vmEnter 1, .controlWait 1, .vmEnter 2, .controlWait 2]

/-- While a thread waits and another one yields for it, a third one changes the queue. -/
theorem second_modifier_enters :
    ∃ s : ControlState ℕ, Relation.ReflTransGen ControlState.Step ControlState.init s ∧
      ¬s.Exclusive := by
  have hrun : (runOps ControlState.step ControlState.init secondModifierOps).map
      (fun s => (s.act 2, s.act 0)) = some (.modifying, .waiting) := rfl
  obtain ⟨s, hs, heq⟩ := Option.map_eq_some_iff.mp hrun
  obtain ⟨hmod, hwait⟩ := Prod.mk.inj heq
  exact ⟨s, reach_of_runOps (fun _ op _ hop => ⟨op, hop⟩) hs, fun h => h 2 0 hmod hwait⟩

end LuaSys.Event
