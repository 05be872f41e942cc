import LuaSys.Event.Control
import Mathlib.Data.Finset.Card
import Mathlib.Data.Fintype.Basic

/-!
# The flag of the wait and the hand-over of the loop

Threads that run `sys_evq_loop` on one queue take turns.  One of them waits in
`evq_wait`, with `EVQ_FLAG_WAITING` set; the others are idle in `thread_event_wait` on
`wait_tev`, an event that wakes one thread.  Whoever stops being responsible for the
queue has to signal `wait_tev`, or the idle threads stay where they are.

The flag shares its word with `EVQ_FLAG_STOP`, and `evq:stop(false)` assigns the word as
a whole.  A loop that is left by `lua_error` or by the end of its thread, from
`sys_thread_check` or from a scheduled addition that fails, does not come to the signal
at the end of `sys_evq_loop`.

## Main definitions

* `ControlState.FlagTruth` — the flag is set exactly when a thread waits, and at most
  one does.
* `LoopState`, `LoopOp`, `LoopState.step` — the threads of a queue with their
  activations of `sys_evq_loop`.
* `LoopState.Stranded` — a thread is idle and nobody is going to wake it.

## Main results

* `safe_run_flagTruth` — the flag tells the truth in runs where `evq:stop(false)` is
  called during a wait only.
* `safe_run_not_stranded` — no idle thread is forgotten in runs where the last
  responsible thread does not leave its loop by an error or by its end.
* `stop_false_sets_flag`, `interrupted_loop_strands` — runs that break each of them.
-/

namespace LuaSys.Event

open LuaSys.Lib

/-! ## The flag -/

/-- The word of flags is assigned as a whole only while `EVQ_FLAG_WAITING` is set. -/
def ControlOp.KeepsFlag {θ : Type*} (s : ControlState θ) : ControlOp θ → Prop
  | .stop _ false => s.flagWaiting = true
  | _ => True

namespace ControlState

section

variable {θ : Type*}

/-- `EVQ_FLAG_WAITING` is set exactly when a thread is between setting and clearing it,
and at most one thread is there. -/
structure FlagTruth (s : ControlState θ) : Prop where
  flag : s.flagWaiting = true ↔ ∃ t, s.act t = .waiting
  unique : ∀ t t', s.act t = .waiting → s.act t' = .waiting → t = t'

theorem init_flagTruth : (init : ControlState θ).FlagTruth := by
  constructor <;> simp [init]

/-- The threads idle and waiting are the same. -/
def SameAsleep (s s' : ControlState θ) : Prop :=
  ∀ t a, a = .idle ∨ a = .waiting → (s'.act t = a ↔ s.act t = a)

theorem SameAsleep.of_act {s s' : ControlState θ} (h : s'.act = s.act) : SameAsleep s s' := by
  intro t a _
  rw [h]

/-- The truth of the flag depends on the flag and on the waiting threads only. -/
theorem FlagTruth.same {s s' : ControlState θ} (h : s.FlagTruth)
    (hflag : s'.flagWaiting = s.flagWaiting) (hasleep : SameAsleep s s') : s'.FlagTruth := by
  have hwait : ∀ t, s'.act t = .waiting ↔ s.act t = .waiting := fun t => hasleep t _ (Or.inr rfl)
  constructor
  · simp only [hflag, hwait, h.flag]
  · simpa only [hwait] using h.unique

/-- `nidles` counts the threads in `thread_event_wait`. -/
def CountsIdles (s : ControlState θ) : Prop :=
  s.nidles < 2 ^ 32 ∧ ∃ F : Finset θ, (∀ t, t ∈ F ↔ s.act t = .idle) ∧ F.card = s.nidles

theorem init_countsIdles : (init : ControlState θ).CountsIdles := by
  refine ⟨by simp [init], ∅, ?_⟩
  simp [init]

theorem CountsIdles.same {s s' : ControlState θ} (h : s.CountsIdles) (hidles : s'.nidles = s.nidles)
    (hasleep : SameAsleep s s') : s'.CountsIdles := by
  obtain ⟨hlt, F, hF, hcard⟩ := h
  refine ⟨by rw [hidles]; exact hlt, F, fun t => ?_, by rw [hidles]; exact hcard⟩
  rw [hasleep t _ (Or.inl rfl)]
  exact hF t

theorem CountsIdles.ne_zero {s : ControlState θ} {t : θ} (h : s.CountsIdles)
    (ht : s.act t = .idle) : s.nidles ≠ 0 := by
  obtain ⟨-, F, hF, hcard⟩ := h
  rw [← hcard]
  exact Finset.card_ne_zero_of_mem ((hF t).mpr ht)

end

variable {θ : Type*} [DecidableEq θ]

/-- What a step does to the flag, to the counters and to the threads idle and waiting. -/
inductive Change (s s' : ControlState θ) : ControlOp θ → Prop
  /-- Only other fields change. -/
  | quiet (op) (hflag : s'.flagWaiting = s.flagWaiting) (hidles : s'.nidles = s.nidles)
      (hactives : s'.nactives = s.nactives) (hsignal : s'.signalled = s.signalled)
      (hhandlers : s'.handlers = s.handlers) (hexit : ∀ t, op ≠ .loopExit t)
      (hasleep : SameAsleep s s') : Change s s' op
  /-- `evq:stop(false)`. -/
  | assign (t) (hflag : s'.flagWaiting = true) (hidles : s'.nidles = s.nidles)
      (hactives : s'.nactives = s.nactives) (hsignal : s'.signalled = s.signalled)
      (hhandlers : s'.handlers = s.handlers) (hasleep : SameAsleep s s') :
      Change s s' (.stop t false)
  | enter (t) (hflag : s'.flagWaiting = s.flagWaiting) (hidles : s'.nidles = s.nidles)
      (hactives : s'.nactives = u32 (s.nactives + 1)) (hhandlers : s'.handlers = s.handlers)
      (hasleep : SameAsleep s s') : Change s s' (.controlWait t)
  | release (t) (hflag : s'.flagWaiting = s.flagWaiting) (hidles : s'.nidles = s.nidles)
      (hsignal : s'.nactives = 0 → s.nidles ≠ 0 → s'.signalled = true)
      (hhandlers : s'.handlers = s.handlers) (hasleep : SameAsleep s s') :
      Change s s' (.controlDone t)
  | handle (t) (hat : s.Running t) (hflag : s'.flagWaiting = s.flagWaiting)
      (hidles : s'.nidles = s.nidles) (hact : s'.act = s.act)
      (hhandlers : ∀ t', s'.handlers t' = if t' = t then s.handlers t + 1 else s.handlers t') :
      Change s s' (.dispatch t)
  | handled (t error) (hat : s.Running t) (hflag : s'.flagWaiting = s.flagWaiting)
      (hidles : s'.nidles = s.nidles) (hact : s'.act = s.act) (hcount : s.handlers t ≠ 0)
      (hhandlers : ∀ t', s'.handlers t' = if t' = t then s.handlers t - 1 else s.handlers t') :
      Change s s' (.dispatchDone t error)
  | exit (t) (hflag : s'.flagWaiting = s.flagWaiting) (hidles : s'.nidles = s.nidles)
      (hsignal : s.flagWaiting = false → s.nidles ≠ 0 → s'.signalled = true)
      (hhandlers : s'.handlers = s.handlers) (hact : s'.act = s.act) :
      Change s s' (.loopExit t)
  | sleep (t) (hat : s.Running t) (hbusy : s.nactives ≠ 0 ∨ s.flagWaiting = true)
      (hflag : s'.flagWaiting = s.flagWaiting) (hidles : s'.nidles = u32 (s.nidles + 1))
      (hactives : s'.nactives = s.nactives) (hhandlers : s'.handlers = s.handlers)
      (hact : ∀ t', s'.act t' = if t' = t then .idle else s.act t') : Change s s' (.loopWait t)
  | wake (t error) (hat : s.act t = .idle) (hflag : s'.flagWaiting = s.flagWaiting)
      (hidles : s'.nidles = u32sub s.nidles 1) (hhandlers : s'.handlers = s.handlers)
      (hact : ∀ t', s'.act t' = if t' = t then .running else s.act t') :
      Change s s' (.idleWake t error)
  | start (t) (hat : s.Running t) (hold : s.flagWaiting = false) (hflag : s'.flagWaiting = true)
      (hidles : s'.nidles = s.nidles) (hhandlers : s'.handlers = s.handlers)
      (hact : ∀ t', s'.act t' = if t' = t then .waiting else s.act t') :
      Change s s' (.loopWait t)
  | done (t n) (hat : s.act t = .waiting) (hflag : s'.flagWaiting = false)
      (hidles : s'.nidles = s.nidles) (hhandlers : s'.handlers = s.handlers)
      (hact : ∀ t', s'.act t' = if t' = t then .running else s.act t') :
      Change s s' (.waitDone t n)

variable {s s' : ControlState θ} {t : θ}

/-- A thread moves between activities other than idle and waiting. -/
theorem SameAsleep.of_update {a b : Activity} (hold : s.act t = b)
    (hact : ∀ t', s'.act t' = if t' = t then a else s.act t')
    (ha : a ≠ .idle ∧ a ≠ .waiting) (hb : b ≠ .idle ∧ b ≠ .waiting) : SameAsleep s s' := by
  intro t' c hc
  rw [hact]
  by_cases ht : t' = t
  · rw [if_pos ht, ht, hold]
    rcases hc with rfl | rfl
    · exact iff_of_false ha.1 hb.1
    · exact iff_of_false ha.2 hb.2
  · rw [if_neg ht]

/-- The change made by a step. -/
theorem step_change {op : ControlOp θ} (hop : s.step op = some s') : Change s s' op := by
  cases op with
  | vmEnter t =>
      obtain ⟨hat, heq⟩ := Option.ite_none_right_eq_some.mp hop
      rw [← Option.some.inj heq]
      exact .quiet _ rfl rfl rfl rfl rfl (by simp)
        (.of_update hat.2 (s.proceed_act t · .running) (by simp) (by simp))
  | vmLeave t =>
      obtain ⟨hat, heq⟩ := Option.ite_none_right_eq_some.mp hop
      rw [← Option.some.inj heq]
      exact .quiet _ rfl rfl rfl rfl rfl (by simp)
        (.of_update hat.2 (s.block_act t · .away) (by simp) (by simp))
  | controlWait t =>
      obtain ⟨hat, heq⟩ := Option.ite_none_right_eq_some.mp hop
      split at heq
      · rw [← Option.some.inj heq]
        refine .enter t (interrupt_flagWaiting _) (interrupt_nidles _) (interrupt_nactives _)
          (interrupt_handlers _) (.of_update (a := .switching) hat.2 (fun t' => ?_) (by simp) (by simp))
        rw [block_act, interrupt_act]
      · rw [← Option.some.inj heq]
        exact .enter t rfl rfl rfl rfl
          (.of_update hat.2 (proceed_act _ t · .modifying) (by simp) (by simp))
  | threadSwitch t =>
      obtain ⟨hat, heq⟩ := Option.ite_none_right_eq_some.mp hop
      split at heq
      · rw [← Option.some.inj heq]
        exact .quiet _ rfl rfl rfl rfl rfl (by simp) (.of_act rfl)
      · rw [← Option.some.inj heq]
        exact .quiet _ rfl rfl rfl rfl rfl (by simp)
          (.of_update hat.2 (s.proceed_act t · .modifying) (by simp) (by simp))
  | controlDone t =>
      obtain ⟨hat, heq⟩ := Option.ite_none_right_eq_some.mp hop
      rw [← Option.some.inj heq]
      refine .release t rfl rfl (fun hzero hidle => ?_) rfl
        (.of_update hat.2 (proceed_act _ t · .running) (by simp) (by simp))
      have hzero : u32sub s.nactives 1 = 0 := hzero
      simp [proceed, hzero, hidle]
  | controlError t =>
      obtain ⟨hat, heq⟩ := Option.ite_none_right_eq_some.mp hop
      rw [← Option.some.inj heq]
      exact .quiet _ rfl rfl rfl rfl rfl (by simp)
        (.of_update hat.2 (s.proceed_act t · .running) (by simp) (by simp))
  | notify t =>
      obtain ⟨-, heq⟩ := Option.ite_none_right_eq_some.mp hop
      rw [← Option.some.inj heq]
      exact .quiet _ (interrupt_flagWaiting s) (interrupt_nidles s) (interrupt_nactives s)
        (interrupt_signalled s) (interrupt_handlers s) (by simp) (.of_act (interrupt_act s))
  | syncCall t =>
      obtain ⟨hat, heq⟩ := Option.ite_none_right_eq_some.mp hop
      rw [← Option.some.inj heq]
      refine .quiet _ (interrupt_flagWaiting s) (interrupt_nidles s) (interrupt_nactives s)
        (interrupt_signalled s) (interrupt_handlers s) (by simp)
        (.of_update (a := .away) hat.2 (fun t' => ?_) (by simp) (by simp))
      rw [block_act, interrupt_act]
  | stop t stop =>
      obtain ⟨-, heq⟩ := Option.ite_none_right_eq_some.mp hop
      cases stop with
      | true =>
          rw [← Option.some.inj heq]
          exact .quiet _ (interrupt_flagWaiting _) (interrupt_nidles _) (interrupt_nactives _)
            (interrupt_signalled _) (interrupt_handlers _) (by simp) (.of_act (interrupt_act _))
      | false =>
          rw [← Option.some.inj heq]
          exact .assign t (interrupt_flagWaiting _) (interrupt_nidles _) (interrupt_nactives _)
            (interrupt_signalled _) (interrupt_handlers _) (.of_act (interrupt_act _))
  | loopWait t =>
      obtain ⟨⟨hat, -⟩, heq⟩ := Option.ite_none_right_eq_some.mp hop
      split at heq
      · next hbusy =>
        rw [← Option.some.inj heq]
        exact .sleep t hat hbusy rfl rfl rfl rfl (block_act _ t · .idle)
      · next hnot =>
        rw [not_or, Bool.not_eq_true] at hnot
        rw [← Option.some.inj heq]
        exact .start t hat hnot.2 rfl rfl rfl (block_act _ t · .waiting)
  | idleWake t error =>
      obtain ⟨⟨hat, -⟩, heq⟩ := Option.ite_none_right_eq_some.mp hop
      rw [← Option.some.inj heq]
      exact .wake t error hat.2 rfl rfl rfl (proceed_act _ t · .running)
  | waitDone t n =>
      obtain ⟨hat, heq⟩ := Option.ite_none_right_eq_some.mp hop
      rw [← Option.some.inj heq]
      exact .done t n hat.2 rfl rfl rfl (proceed_act _ t · .running)
  | dispatch t =>
      obtain ⟨hat, heq⟩ := Option.ite_none_right_eq_some.mp hop
      rw [← Option.some.inj heq]
      exact .handle t hat.1 rfl rfl rfl (Function.update_apply s.handlers t _)
  | dispatchNext t =>
      obtain ⟨-, heq⟩ := Option.ite_none_right_eq_some.mp hop
      rw [← Option.some.inj heq]
      exact .quiet _ rfl rfl rfl rfl rfl (by simp) (.of_act rfl)
  | dispatchDone t error =>
      obtain ⟨hat, heq⟩ := Option.ite_none_right_eq_some.mp hop
      rw [← Option.some.inj heq]
      exact .handled t error hat.1 rfl rfl rfl hat.2.1 (Function.update_apply s.handlers t _)
  | loopExit t =>
      obtain ⟨-, heq⟩ := Option.ite_none_right_eq_some.mp hop
      rw [← Option.some.inj heq]
      refine .exit t rfl rfl (fun hflag hidle => ?_) rfl rfl
      simp [hflag, hidle]

/-- A thread that does not wait moves to where it does not wait. -/
theorem FlagTruth.move {a : Activity} (h : s.FlagTruth) (hold : s.act t ≠ .waiting)
    (hnew : a ≠ .waiting) (hflag : s'.flagWaiting = s.flagWaiting)
    (hact : ∀ t', s'.act t' = if t' = t then a else s.act t') : s'.FlagTruth := by
  have hwait : ∀ t', s'.act t' = .waiting ↔ s.act t' = .waiting := by
    intro t'
    rw [hact]
    by_cases ht : t' = t
    · rw [if_pos ht, ht]
      exact iff_of_false hnew hold
    · rw [if_neg ht]
  constructor
  · simp only [hflag, hwait, h.flag]
  · simpa only [hwait] using h.unique

/-- A thread becomes idle. -/
theorem CountsIdles.sleep (h : s.CountsIdles) (hold : s.act t ≠ .idle) (hlt : s.nidles + 1 < 2 ^ 32)
    (hidles : s'.nidles = u32 (s.nidles + 1))
    (hact : ∀ t', s'.act t' = if t' = t then .idle else s.act t') : s'.CountsIdles := by
  obtain ⟨-, F, hF, hcard⟩ := h
  rw [u32_of_lt hlt] at hidles
  have hnot : t ∉ F := fun hmem => hold ((hF t).mp hmem)
  refine ⟨by rw [hidles]; exact hlt, insert t F, fun t' => ?_, ?_⟩
  · rw [Finset.mem_insert, hF, hact]
    by_cases ht : t' = t <;> simp [ht]
  · rw [Finset.card_insert_of_notMem hnot, hcard, hidles]

/-- An idle thread wakes up. -/
theorem CountsIdles.wake (h : s.CountsIdles) (hold : s.act t = .idle)
    (hidles : s'.nidles = u32sub s.nidles 1)
    (hact : ∀ t', s'.act t' = if t' = t then .running else s.act t') : s'.CountsIdles := by
  have hpos : s.nidles ≠ 0 := h.ne_zero hold
  obtain ⟨hlt, F, hF, hcard⟩ := h
  rw [u32sub_of_le (Nat.one_le_iff_ne_zero.mpr hpos) hlt] at hidles
  refine ⟨by rw [hidles]; omega, F.erase t, fun t' => ?_, ?_⟩
  · rw [Finset.mem_erase, hF, hact]
    by_cases ht : t' = t <;> simp [ht]
  · rw [Finset.card_erase_of_mem ((hF t).mpr hold), hcard, hidles]

/-- A thread that is not idle moves to where it is not idle. -/
theorem CountsIdles.move {a : Activity} (h : s.CountsIdles) (hold : s.act t ≠ .idle)
    (hnew : a ≠ .idle) (hidles : s'.nidles = s.nidles)
    (hact : ∀ t', s'.act t' = if t' = t then a else s.act t') : s'.CountsIdles := by
  obtain ⟨hlt, F, hF, hcard⟩ := h
  refine ⟨by rw [hidles]; exact hlt, F, fun t' => ?_, by rw [hidles]; exact hcard⟩
  rw [hF, hact]
  by_cases ht : t' = t
  · rw [if_pos ht, ht]
    exact iff_of_false hold hnew
  · rw [if_neg ht]

/-- A step that keeps the flag keeps its truth. -/
theorem FlagTruth.step {op : ControlOp θ} (h : s.FlagTruth) (hkeep : op.KeepsFlag s)
    (hop : s.step op = some s') : s'.FlagTruth := by
  cases step_change hop with
  | quiet _ hflag _ _ _ _ _ hasleep => exact h.same hflag hasleep
  | assign _ hflag _ _ _ _ hasleep => exact h.same (hflag.trans hkeep.symm) hasleep
  | enter _ hflag _ _ _ hasleep => exact h.same hflag hasleep
  | release _ hflag _ _ _ hasleep => exact h.same hflag hasleep
  | handle _ _ hflag _ hact _ => exact h.same hflag (.of_act hact)
  | handled _ _ _ hflag _ hact _ _ => exact h.same hflag (.of_act hact)
  | exit _ hflag _ _ _ hact => exact h.same hflag (.of_act hact)
  | sleep t hat _ hflag _ _ _ hact => exact h.move (by simp [hat.2]) (by simp) hflag hact
  | wake t _ hat hflag _ _ hact => exact h.move (by simp [hat]) (by simp) hflag hact
  | start t hat hold hflag _ _ hact =>
      have honly : ∀ t', s'.act t' = .waiting → t' = t := by
        intro t' ht'
        by_contra hne
        rw [hact, if_neg hne] at ht'
        have := h.flag.mpr ⟨t', ht'⟩
        simp [hold] at this
      constructor
      · exact iff_of_true hflag ⟨t, by rw [hact, if_pos rfl]⟩
      · intro t₁ t₂ h₁ h₂
        rw [honly t₁ h₁, honly t₂ h₂]
  | done t n hat hflag _ _ hact =>
      have hnone : ∀ t', s'.act t' ≠ .waiting := by
        intro t' ht'
        rw [hact] at ht'
        split at ht'
        · exact absurd ht' (by simp)
        · next hne => exact hne (h.unique t' t ht' hat)
      constructor
      · rw [hflag]
        exact iff_of_false (by simp) fun ⟨t', ht'⟩ => hnone t' ht'
      · exact fun t' _ ht' => absurd ht' (hnone t')

/-- The condition is exact: from a truthful state without a waiting thread,
`evq:stop(false)` leads to an untruthful one. -/
theorem stop_false_not_flagTruth (h : s.FlagTruth) (hat : s.Running t)
    (hflag : s.flagWaiting = false) :
    ∃ s', s.step (.stop t false) = some s' ∧ ¬s'.FlagTruth := by
  refine ⟨_, if_pos hat, fun h' => ?_⟩
  obtain ⟨t', ht'⟩ := h'.flag.mp (interrupt_flagWaiting _)
  rw [interrupt_act] at ht'
  have := h.flag.mpr ⟨t', ht'⟩
  simp [hflag] at this

/-- The transitions of a run whose steps keep the flag. -/
def FlagStep (s s' : ControlState θ) : Prop :=
  ∃ op : ControlOp θ, op.KeepsFlag s ∧ s.step op = some s'

end ControlState

/-- **The flag tells the truth.**  For any threads and any interleaving of their steps,
as long as `evq:stop(false)` is called during a wait only. -/
theorem safe_run_flagTruth {θ : Type*} [DecidableEq θ] {s : ControlState θ}
    (hrun : Relation.ReflTransGen ControlState.FlagStep ControlState.init s) : s.FlagTruth :=
  inv_of_reach (fun _ _ ⟨_, hkeep, hop⟩ h => h.step hkeep hop) ControlState.init_flagTruth hrun

/-- A thread waits and another one calls `evq:stop(false)`. -/
theorem safe_run_flagTruth_stop :
    ∃ s : ControlState ℕ, Relation.ReflTransGen ControlState.FlagStep ControlState.init s ∧
      s.act 0 = .waiting ∧ s.FlagTruth := by
  have hrun : Relation.ReflTransGen ControlState.FlagStep (ControlState.init : ControlState ℕ) _ :=
    .tail (.tail (.tail (.tail .refl
      ⟨.vmEnter 0, trivial, rfl⟩)
      ⟨.loopWait 0, trivial, rfl⟩)
      ⟨.vmEnter 1, trivial, rfl⟩)
      ⟨.stop 1 false, rfl, rfl⟩
  exact ⟨_, hrun, rfl, safe_run_flagTruth hrun⟩

/-- A call of `evq:stop(false)` on a new queue sets `EVQ_FLAG_WAITING`. -/
theorem stop_false_sets_flag :
    ∃ s : ControlState ℕ, Relation.ReflTransGen ControlState.Step ControlState.init s ∧
      ¬s.FlagTruth := by
  have hrun : Relation.ReflTransGen ControlState.Step (ControlState.init : ControlState ℕ) _ :=
    .tail (.tail .refl ⟨.vmEnter 0, rfl⟩) ⟨.stop 0 false, rfl⟩
  refine ⟨_, hrun, fun h => ?_⟩
  obtain ⟨t, ht⟩ := h.flag.mp rfl
  change Function.update (fun _ => Activity.away) 0 .running t = .waiting at ht
  rw [Function.update_apply] at ht
  split at ht <;> exact absurd ht (by simp)

/-! ## The loops -/

/-- What another thread asks of a thread, in its `flags`. -/
inductive Request
  | interrupt
  | terminate
  deriving DecidableEq, Repr

/-- A queue, with the activations of `sys_evq_loop` on the stack of each thread. -/
structure LoopState (θ : Type*) where
  ctl : ControlState θ
  loops : θ → ℕ
  request : θ → Option Request

/-- The steps of threads that run loops. -/
inductive LoopOp (θ : Type*)
  /-- A step on the queue; `loopExit` is the end of `sys_evq_loop`. -/
  | control (op : ControlOp θ)
  | loopEnter (t : θ)
  /-- `thread_set_interrupt`, by the thread `t`. -/
  | setInterrupt (t target : θ) (recover : Bool)
  /-- `thread_set_terminate`, by the thread `t`. -/
  | setTerminate (t target : θ)
  /-- `sys_thread_check` in the wait section raises the interrupt error. -/
  | loopInterrupt (t : θ)
  /-- A scheduled addition of `levq_sync_process`, called by `lua_call`, raises an error. -/
  | syncError (t : θ)
  /-- `sys_thread_check` ends the thread. -/
  | threadExit (t : θ)

/-- The thread whose `sys_evq_loop` takes the step, outside of its handlers. -/
def ControlOp.looper {θ : Type*} : ControlOp θ → Option θ
  | .loopWait t | .idleWake t _ | .waitDone t _ | .dispatch t | .loopExit t => some t
  | _ => none

namespace LoopState

section

variable {θ : Type*}

/-- A new queue; no thread uses it. -/
def init : LoopState θ where
  ctl := ControlState.init
  loops _ := 0
  request _ := none

/-- The innermost activation of `sys_evq_loop` is outside of its handlers. -/
def Looping (s : LoopState θ) (t : θ) : Prop := s.ctl.handlers t < s.loops t

instance (s : LoopState θ) (t : θ) : Decidable (s.Looping t) := inferInstanceAs (Decidable (_ < _))

/-- A thread inside of `sys_evq_loop` that neither waits nor is idle: it goes on to the
next section of the loop by itself. -/
def Awake (s : LoopState θ) (t : θ) : Prop :=
  s.loops t ≠ 0 ∧ s.ctl.act t ≠ .idle ∧ s.ctl.act t ≠ .waiting

/-- A thread is idle, `wait_tev` is not signalled, nobody waits in `evq_wait`, handles
events or modifies the queue, and no loop is awake. -/
def Stranded (s : LoopState θ) : Prop :=
  (∃ t, s.ctl.act t = .idle) ∧ s.ctl.signalled = false ∧ (∀ t, s.ctl.act t ≠ .waiting) ∧
    s.ctl.nactives = 0 ∧ ∀ t, ¬s.Awake t

instance (s : LoopState θ) (t : θ) : Decidable (s.Awake t) :=
  inferInstanceAs (Decidable (_ ∧ _))

instance [Fintype θ] (s : LoopState θ) : Decidable s.Stranded :=
  inferInstanceAs (Decidable (_ ∧ _))

end

variable {θ : Type*} [DecidableEq θ]

/-- The innermost loop is left without its exit section. -/
def leaveLoop (s : LoopState θ) (t : θ) : LoopState θ :=
  { s with loops := Function.update s.loops t (s.loops t - 1) }

/-- `thread_exit`.  The handlers of the thread are not counted back in `nactives`. -/
def exitThread (s : LoopState θ) (t : θ) : LoopState θ where
  ctl := { s.ctl.block t .away with handlers := Function.update s.ctl.handlers t 0 }
  loops := Function.update s.loops t 0
  request := Function.update s.request t none

/-- The activations after a step on the queue. -/
def loopsAfter (loops : θ → ℕ) : ControlOp θ → θ → ℕ
  | .loopExit t => Function.update loops t (loops t - 1)
  | _ => loops

/-- One step; `none` when the thread is elsewhere. -/
def step (s : LoopState θ) : LoopOp θ → Option (LoopState θ)
  | .control op =>
      if ∀ t ∈ op.looper, s.Looping t then
        (s.ctl.step op).map fun ctl => { s with ctl, loops := loopsAfter s.loops op }
      else none
  | .loopEnter t =>
      if s.ctl.Running t then
        some { s with loops := Function.update s.loops t (s.loops t + 1) }
      else none
  | .setInterrupt t target recover =>
      if s.ctl.Running t then
        if recover then
          if s.request target = some .interrupt then
            some { s with request := Function.update s.request target none }
          else some s
        else some { s with request := Function.update s.request target (some .interrupt) }
      else none
  | .setTerminate t target =>
      if s.ctl.Running t then
        some { s with request := Function.update s.request target (some .terminate) }
      else none
  | .loopInterrupt t =>
      if s.ctl.Running t ∧ s.Looping t ∧ s.ctl.ready = 0 ∧ s.request t = some .interrupt then
        some (s.leaveLoop t)
      else none
  | .syncError t =>
      if s.ctl.Running t ∧ s.Looping t then some (s.leaveLoop t) else none
  | .threadExit t =>
      if s.ctl.Running t ∧ s.request t = some .terminate then some (s.exitThread t) else none

/-- The transitions of a run. -/
def Step (s s' : LoopState θ) : Prop := ∃ op, s.step op = some s'

end LoopState

/-! ## Safe runs of loops -/

namespace LoopState

variable {θ : Type*}

/-- Without the thread `t`, the idle threads are still looked after. -/
def Relieved (s : LoopState θ) (t : θ) : Prop :=
  s.ctl.nidles = 0 ∨ s.ctl.signalled = true ∨ s.ctl.flagWaiting = true ∨ s.ctl.nactives ≠ 0 ∨
    ∃ t', t' ≠ t ∧ s.Awake t'

end LoopState

/-- `evq:stop(false)` is called during a wait, the counters do not wrap around, and a
loop that is left without its exit section is not the last one that looks after the
queue. -/
def LoopOp.Safe {θ : Type*} (s : LoopState θ) : LoopOp θ → Prop
  | .control (.stop _ false) => s.ctl.flagWaiting = true
  | .control (.controlWait _) => s.ctl.nactives + 1 < 2 ^ 32
  | .control (.loopWait _) => s.ctl.nidles + 1 < 2 ^ 32
  | .loopInterrupt t | .syncError t => 1 < s.loops t ∨ s.Relieved t
  | .threadExit t => s.Relieved t
  | _ => True

namespace LoopState

section

variable {θ : Type*}

/-- The flag is true, `nidles` counts the idle threads, handlers are inside of loops, and
no idle thread is forgotten. -/
structure Inv (s : LoopState θ) : Prop where
  truth : s.ctl.FlagTruth
  idles : s.ctl.CountsIdles
  handlers_le : ∀ t, s.ctl.handlers t ≤ s.loops t
  covered : ¬s.Stranded

theorem init_inv : (init : LoopState θ).Inv where
  truth := ControlState.init_flagTruth
  idles := ControlState.init_countsIdles
  handlers_le _ := le_rfl
  covered := by
    rintro ⟨⟨t, ht⟩, -⟩
    simp [init, ControlState.init] at ht

variable {s s' : LoopState θ} {t : θ}

theorem not_stranded_of_signalled (h : s.ctl.signalled = true) : ¬s.Stranded := by
  rintro ⟨-, hsignal, -⟩
  simp [h] at hsignal

theorem not_stranded_of_waiting (h : s.ctl.act t = .waiting) : ¬s.Stranded :=
  fun hs => hs.2.2.1 t h

theorem not_stranded_of_nactives (h : s.ctl.nactives ≠ 0) : ¬s.Stranded := fun hs => h hs.2.2.2.1

theorem not_stranded_of_awake (h : s.Awake t) : ¬s.Stranded := fun hs => hs.2.2.2.2 t h

/-- A counter of zero says that nobody is idle. -/
theorem not_stranded_of_nidles (hidles : s.ctl.CountsIdles) (h : s.ctl.nidles = 0) :
    ¬s.Stranded := by
  rintro ⟨⟨t, ht⟩, -⟩
  exact hidles.ne_zero ht h

/-- A thread that runs a loop is awake. -/
theorem Awake.of_running (hloop : s.loops t ≠ 0) (hat : s.ctl.act t = .running) : s.Awake t := by
  refine ⟨hloop, ?_, ?_⟩ <;> simp [hat]

/-- The idle and waiting threads do not change and the loops do not either. -/
theorem Awake.same (h : s.Awake t) (hasleep : ControlState.SameAsleep s.ctl s'.ctl)
    (hloops : s'.loops = s.loops) : s'.Awake t := by
  refine ⟨?_, ?_, ?_⟩
  · rw [hloops]
    exact h.1
  · rw [Ne, hasleep t _ (Or.inl rfl)]
    exact h.2.1
  · rw [Ne, hasleep t _ (Or.inr rfl)]
    exact h.2.2

/-- The idle threads are looked after as long as nothing that looks after them is lost. -/
theorem not_stranded_mono (h : ¬s.Stranded) (hasleep : ControlState.SameAsleep s.ctl s'.ctl)
    (hsignal : s.ctl.signalled = true → s'.ctl.signalled = true)
    (hactives : s.ctl.nactives ≠ 0 → s'.ctl.nactives ≠ 0)
    (hawake : ∀ t, s.Awake t → ∃ t', s'.Awake t') : ¬s'.Stranded := by
  rintro ⟨⟨t, hidle⟩, hquiet, hwait, hnone, hloops⟩
  refine h ⟨⟨t, (hasleep t _ (Or.inl rfl)).mp hidle⟩, ?_, fun t' ht' => ?_, ?_, fun t' ht' => ?_⟩
  · by_contra hs
    simp [hsignal (by simpa using hs)] at hquiet
  · exact hwait t' ((hasleep t' _ (Or.inr rfl)).mpr ht')
  · by_contra hn
    exact hactives hn hnone
  · obtain ⟨t'', ht''⟩ := hawake t' ht'
    exact hloops t'' ht''

/-- A thread leaves loops without their exit section; the others go on as before. -/
theorem Inv.abandon (h : s.Inv) (hflag : s'.ctl.flagWaiting = s.ctl.flagWaiting)
    (hasleep : ControlState.SameAsleep s.ctl s'.ctl) (hidles : s'.ctl.nidles = s.ctl.nidles)
    (hsignal : s'.ctl.signalled = s.ctl.signalled) (hactives : s'.ctl.nactives = s.ctl.nactives)
    (hle : ∀ t, s'.ctl.handlers t ≤ s'.loops t) (hloops : ∀ t', t' ≠ t → s'.loops t' = s.loops t')
    (hsafe : s'.Awake t ∨ s.Relieved t) : s'.Inv := by
  have htruth : s'.ctl.FlagTruth := h.truth.same hflag hasleep
  have hidles' : s'.ctl.CountsIdles := h.idles.same hidles hasleep
  refine ⟨htruth, hidles', hle, ?_⟩
  rcases hsafe with hawake | hnone | hset | hwait | hbusy | ⟨t', hne, hloop, hidle, hwait⟩
  · exact not_stranded_of_awake hawake
  · exact not_stranded_of_nidles hidles' (hidles.trans hnone)
  · exact not_stranded_of_signalled (hsignal.trans hset)
  · obtain ⟨t', ht'⟩ := htruth.flag.mp (hflag.trans hwait)
    exact not_stranded_of_waiting ht'
  · exact not_stranded_of_nactives fun hzero => hbusy (hactives.symm.trans hzero)
  · refine not_stranded_of_awake (t := t') ⟨?_, ?_, ?_⟩
    · rw [hloops t' hne]
      exact hloop
    · exact fun hs => hidle ((hasleep t' _ (Or.inl rfl)).mp hs)
    · exact fun hs => hwait ((hasleep t' _ (Or.inr rfl)).mp hs)

end

variable {θ : Type*} [DecidableEq θ] {s s' : LoopState θ} {t : θ}

/-- The transitions of a run with safe steps only. -/
def SafeStep (s s' : LoopState θ) : Prop := ∃ op : LoopOp θ, op.Safe s ∧ s.step op = some s'

theorem loopsAfter_of_ne {op : ControlOp θ} (h : ∀ t, op ≠ .loopExit t) (loops : θ → ℕ) :
    loopsAfter loops op = loops := by
  cases op with
  | loopExit t => exact absurd rfl (h t)
  | _ => rfl

/-- A safe step on the queue keeps the invariant. -/
theorem Inv.control {op : ControlOp θ} {ctl : ControlState θ} (h : s.Inv)
    (hloop : ∀ t ∈ op.looper, s.Looping t) (hsafe : (LoopOp.control op).Safe s)
    (hop : s.ctl.step op = some ctl) :
    Inv { s with ctl, loops := loopsAfter s.loops op } := by
  have hkeep : op.KeepsFlag s.ctl := by
    unfold ControlOp.KeepsFlag
    split
    · exact hsafe
    · trivial
  have htruth : ctl.FlagTruth := h.truth.step hkeep hop
  have hsame : ctl.handlers = s.ctl.handlers → ∀ t, ctl.handlers t ≤ s.loops t := by
    intro heq
    rw [heq]
    exact h.handlers_le
  cases ControlState.step_change hop with
  | quiet _ hflag hidles hactives hsignal hhandlers hexit hasleep =>
      rw [loopsAfter_of_ne hexit]
      refine ⟨htruth, h.idles.same hidles hasleep, ?_, ?_⟩
      · exact hsame hhandlers
      · refine not_stranded_mono h.covered hasleep ?_ ?_ fun t ht => ⟨t, ht.same hasleep rfl⟩
        · simp only [hsignal, imp_self]
        · simp only [hactives, imp_self]
  | assign t hflag hidles hactives hsignal hhandlers hasleep =>
      refine ⟨htruth, h.idles.same hidles hasleep, ?_, ?_⟩
      · exact hsame hhandlers
      · refine not_stranded_mono h.covered hasleep ?_ ?_ fun t ht => ⟨t, ht.same hasleep rfl⟩
        · simp only [hsignal, imp_self]
        · simp only [hactives, imp_self]
  | enter t hflag hidles hactives hhandlers hasleep =>
      refine ⟨htruth, h.idles.same hidles hasleep, ?_, not_stranded_of_nactives ?_⟩
      · exact hsame hhandlers
      · change ctl.nactives ≠ 0
        rw [hactives, u32_of_lt hsafe]
        exact Nat.succ_ne_zero _
  | release t hflag hidles hsignal hhandlers hasleep =>
      refine ⟨htruth, h.idles.same hidles hasleep, ?_, ?_⟩
      · exact hsame hhandlers
      · by_cases hzero : ctl.nactives = 0
        · by_cases hnone : s.ctl.nidles = 0
          · exact not_stranded_of_nidles (h.idles.same hidles hasleep) (hidles.trans hnone)
          · exact not_stranded_of_signalled (hsignal hzero hnone)
        · exact not_stranded_of_nactives hzero
  | handle t hat hflag hidles hact hhandlers =>
      have hlt : s.ctl.handlers t < s.loops t := hloop t rfl
      refine ⟨htruth, h.idles.same hidles (.of_act hact), fun t' => ?_, ?_⟩
      · change ctl.handlers t' ≤ s.loops t'
        rw [hhandlers]
        split
        · next ht => rw [ht]; exact hlt
        · exact h.handlers_le t'
      · refine not_stranded_of_awake (t := t) (.of_running (Nat.ne_zero_of_lt hlt) ?_)
        change ctl.act t = .running
        rw [hact, hat.2]
  | handled t error hat hflag hidles hact hcount hhandlers =>
      have hle := h.handlers_le t
      refine ⟨htruth, h.idles.same hidles (.of_act hact), fun t' => ?_, ?_⟩
      · change ctl.handlers t' ≤ s.loops t'
        rw [hhandlers]
        split
        · next ht => rw [ht]; exact (Nat.sub_le _ _).trans hle
        · exact h.handlers_le t'
      · refine not_stranded_of_awake (t := t) (.of_running (fun hzero => hcount ?_) ?_)
        · have hzero : s.loops t = 0 := hzero
          omega
        · change ctl.act t = .running
          rw [hact, hat.2]
  | exit t hflag hidles hsignal hhandlers hact =>
      have hlt : s.ctl.handlers t < s.loops t := hloop t rfl
      have hidles' : ctl.CountsIdles := h.idles.same hidles (.of_act hact)
      refine ⟨htruth, hidles', fun t' => ?_, ?_⟩
      · change ctl.handlers t' ≤ Function.update s.loops t (s.loops t - 1) t'
        rw [hhandlers, Function.update_apply]
        split
        · next ht => rw [ht]; omega
        · exact h.handlers_le t'
      · by_cases hnone : s.ctl.nidles = 0
        · exact not_stranded_of_nidles hidles' (hidles.trans hnone)
        · by_cases hwait : s.ctl.flagWaiting = true
          · obtain ⟨t', ht'⟩ := htruth.flag.mp (hflag.trans hwait)
            exact not_stranded_of_waiting ht'
          · exact not_stranded_of_signalled (hsignal (by simpa using hwait) hnone)
  | sleep t hat hbusy hflag hidles hactives hhandlers hact =>
      refine ⟨htruth, h.idles.sleep (by simp [hat.2]) hsafe hidles hact, ?_, ?_⟩
      · exact hsame hhandlers
      · rcases hbusy with hbusy | hbusy
        · exact not_stranded_of_nactives fun hzero => hbusy (hactives.symm.trans hzero)
        · obtain ⟨t', ht'⟩ := htruth.flag.mp (hflag.trans hbusy)
          exact not_stranded_of_waiting ht'
  | wake t error hat hflag hidles hhandlers hact =>
      have hlt : s.ctl.handlers t < s.loops t := hloop t rfl
      refine ⟨htruth, h.idles.wake hat hidles hact, ?_, ?_⟩
      · exact hsame hhandlers
      · exact not_stranded_of_awake (.of_running (Nat.ne_zero_of_lt hlt) ((hact t).trans (if_pos rfl)))
  | start t hat hold hflag hidles hhandlers hact =>
      refine ⟨htruth, h.idles.move (by simp [hat.2]) (by simp) hidles hact, ?_, ?_⟩
      · exact hsame hhandlers
      · exact not_stranded_of_waiting ((hact t).trans (if_pos rfl))
  | done t n hat hflag hidles hhandlers hact =>
      have hlt : s.ctl.handlers t < s.loops t := hloop t rfl
      refine ⟨htruth, h.idles.move (by simp [hat]) (by simp) hidles hact, ?_, ?_⟩
      · exact hsame hhandlers
      · exact not_stranded_of_awake (.of_running (Nat.ne_zero_of_lt hlt) ((hact t).trans (if_pos rfl)))

/-- A loop is left by an error. -/
theorem Inv.leaveLoop (h : s.Inv) (hat : s.ctl.Running t) (hloop : s.Looping t)
    (hsafe : 1 < s.loops t ∨ s.Relieved t) : (s.leaveLoop t).Inv := by
  refine h.abandon (t := t) rfl (.of_act rfl) rfl rfl rfl (fun t' => ?_) (fun t' hne => ?_) ?_
  · change s.ctl.handlers t' ≤ Function.update s.loops t (s.loops t - 1) t'
    rw [Function.update_apply]
    split
    · next ht =>
      have hlt : s.ctl.handlers t < s.loops t := hloop
      rw [ht]
      omega
    · exact h.handlers_le t'
  · exact Function.update_of_ne hne _ _
  · refine hsafe.imp_left fun hmany => .of_running ?_ hat.2
    change Function.update s.loops t (s.loops t - 1) t ≠ 0
    rw [Function.update_self]
    omega

/-- A thread ends. -/
theorem Inv.exitThread (h : s.Inv) (hat : s.ctl.Running t) (hsafe : s.Relieved t) :
    (s.exitThread t).Inv := by
  refine h.abandon (t := t) rfl ?_ rfl rfl rfl (fun t' => ?_) (fun t' hne => ?_) (Or.inr hsafe)
  · exact .of_update hat.2 (s.ctl.block_act t · .away) (by simp) (by simp)
  · change Function.update s.ctl.handlers t 0 t' ≤ Function.update s.loops t 0 t'
    rw [Function.update_apply, Function.update_apply]
    split
    · exact le_rfl
    · exact h.handlers_le t'
  · exact Function.update_of_ne hne _ _

/-- A thread calls `sys_evq_loop`. -/
theorem Inv.loopEnter (h : s.Inv) (hat : s.ctl.Running t) :
    Inv { s with loops := Function.update s.loops t (s.loops t + 1) } := by
  refine ⟨h.truth, h.idles, fun t' => ?_, not_stranded_of_awake (t := t) (.of_running ?_ hat.2)⟩
  · change s.ctl.handlers t' ≤ Function.update s.loops t (s.loops t + 1) t'
    rw [Function.update_apply]
    split
    · next ht =>
      rw [ht]
      exact (h.handlers_le t).trans (Nat.le_succ _)
    · exact h.handlers_le t'
  · change Function.update s.loops t (s.loops t + 1) t ≠ 0
    rw [Function.update_self]
    exact Nat.succ_ne_zero _

/-- A safe step keeps the invariant. -/
theorem SafeStep.inv (hstep : SafeStep s s') (h : s.Inv) : s'.Inv := by
  obtain ⟨op, hsafe, hop⟩ := hstep
  cases op with
  | control op =>
      obtain ⟨hloop, heq⟩ := Option.ite_none_right_eq_some.mp hop
      obtain ⟨ctl, hctl, heq⟩ := Option.map_eq_some_iff.mp heq
      rw [← heq]
      exact h.control hloop hsafe hctl
  | loopEnter t =>
      obtain ⟨hat, heq⟩ := Option.ite_none_right_eq_some.mp hop
      rw [← Option.some.inj heq]
      exact h.loopEnter hat
  | setInterrupt t target recover =>
      obtain ⟨-, heq⟩ := Option.ite_none_right_eq_some.mp hop
      split at heq
      · split at heq
        · rw [← Option.some.inj heq]
          exact ⟨h.truth, h.idles, h.handlers_le, h.covered⟩
        · rw [← Option.some.inj heq]
          exact h
      · rw [← Option.some.inj heq]
        exact ⟨h.truth, h.idles, h.handlers_le, h.covered⟩
  | setTerminate t target =>
      obtain ⟨-, heq⟩ := Option.ite_none_right_eq_some.mp hop
      rw [← Option.some.inj heq]
      exact ⟨h.truth, h.idles, h.handlers_le, h.covered⟩
  | loopInterrupt t =>
      obtain ⟨⟨hat, hloop, -⟩, heq⟩ := Option.ite_none_right_eq_some.mp hop
      rw [← Option.some.inj heq]
      exact h.leaveLoop hat hloop hsafe
  | syncError t =>
      obtain ⟨⟨hat, hloop⟩, heq⟩ := Option.ite_none_right_eq_some.mp hop
      rw [← Option.some.inj heq]
      exact h.leaveLoop hat hloop hsafe
  | threadExit t =>
      obtain ⟨⟨hat, -⟩, heq⟩ := Option.ite_none_right_eq_some.mp hop
      rw [← Option.some.inj heq]
      exact h.exitThread hat hsafe

/-- The condition is exact: the last thread that looks after the queue strands the idle
ones when it leaves its only loop without the exit section. -/
theorem leaveLoop_stranded (h : s.Inv) (hone : s.loops t = 1) (hnot : ¬s.Relieved t) :
    (s.leaveLoop t).Stranded := by
  simp only [Relieved, not_or, not_exists, not_and, not_not] at hnot
  obtain ⟨hidles, hsignal, hflag, hactives, hothers⟩ := hnot
  obtain ⟨-, F, hF, hcard⟩ := h.idles
  obtain ⟨t', ht'⟩ : F.Nonempty := by
    rw [← Finset.card_pos, hcard]
    omega
  refine ⟨⟨t', (hF t').mp ht'⟩, Bool.eq_false_iff.mpr hsignal, fun t₁ ht₁ => ?_, hactives, fun t₁ ht₁ => ?_⟩
  · exact hflag (h.truth.flag.mpr ⟨t₁, ht₁⟩)
  · obtain ⟨hloop, hawake⟩ := ht₁
    change Function.update s.loops t (s.loops t - 1) t₁ ≠ 0 at hloop
    by_cases ht : t₁ = t
    · rw [ht, Function.update_self, hone] at hloop
      exact hloop rfl
    · rw [Function.update_of_ne ht] at hloop
      exact hothers t₁ ht ⟨hloop, hawake⟩

end LoopState

/-- **The loop is handed over.**  For any threads and any interleaving of their loops, an
idle thread is looked after, as long as `evq:stop(false)` is called during a wait only,
the counters do not wrap around, and the last thread that looks after the queue does not
leave its loop by an error of `sys_thread_check` or of a scheduled addition, or end. -/
theorem safe_run_not_stranded {θ : Type*} [DecidableEq θ] {s : LoopState θ}
    (hrun : Relation.ReflTransGen LoopState.SafeStep LoopState.init s) : ¬s.Stranded :=
  (inv_of_reach (fun _ _ hstep => hstep.inv) LoopState.init_inv hrun).covered

/-- A thread waits, another one is idle, and the first one leaves its loop. -/
theorem safe_run_not_stranded_exit :
    ∃ s : LoopState ℕ, Relation.ReflTransGen LoopState.SafeStep LoopState.init s ∧
      s.ctl.act 1 = .idle ∧ s.loops 0 = 0 ∧ ¬s.Stranded := by
  have hroom : (0 : ℕ) + 1 < 2 ^ 32 := by decide
  have hrun : Relation.ReflTransGen LoopState.SafeStep (LoopState.init : LoopState ℕ) _ :=
    .tail (.tail (.tail (.tail (.tail (.tail (.tail (.tail .refl
      ⟨.control (.vmEnter 0), trivial, rfl⟩)
      ⟨.loopEnter 0, trivial, rfl⟩)
      ⟨.control (.loopWait 0), hroom, rfl⟩)
      ⟨.control (.vmEnter 1), trivial, rfl⟩)
      ⟨.loopEnter 1, trivial, rfl⟩)
      ⟨.control (.loopWait 1), hroom, rfl⟩)
      ⟨.control (.waitDone 0 0), trivial, rfl⟩)
      ⟨.control (.loopExit 0), trivial, rfl⟩
  exact ⟨_, hrun, rfl, rfl, safe_run_not_stranded hrun⟩

/-- The thread `a` waits, `b` is idle, and `c` interrupts `a`. -/
def interruptedLoopOps {θ : Type} (a b c : θ) : List (LoopOp θ) :=
  [.control (.vmEnter a), .loopEnter a, .control (.loopWait a), .control (.vmEnter b),
    .loopEnter b, .control (.loopWait b), .control (.vmEnter c), .setInterrupt c a false,
    .control (.vmLeave c), .control (.waitDone a 0), .loopInterrupt a]

/-- A thread that is interrupted in its wait leaves the loop by the interrupt error, and
nobody wakes the idle thread. -/
theorem interrupted_loop_strands :
    ∃ s : LoopState (Fin 3), Relation.ReflTransGen LoopState.Step LoopState.init s ∧
      s.Stranded := by
  have hrun : (runOps LoopState.step LoopState.init (interruptedLoopOps (0 : Fin 3) 1 2)).map
      (fun s => decide s.Stranded) = some true := by decide
  obtain ⟨s, hs, heq⟩ := Option.map_eq_some_iff.mp hrun
  exact ⟨s, reach_of_runOps (fun _ op _ hop => ⟨op, hop⟩) hs, of_decide_eq_true heq⟩

end LuaSys.Event
