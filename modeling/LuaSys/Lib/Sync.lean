import LuaSys.Lib.Run
import Mathlib.Logic.Function.Basic

/-!
# Locks and events

What one says about the synchronization objects of a system, whatever its threads do.

A lock has an owner, and a thread owns it exactly while it is at certain places of its code;
`HeldBy` says so.  An event that resets itself lets one waiting thread through for each signal,
and signals that come before the first one is taken are lost.

## Main definitions

* `HeldBy` — the owner of a lock is the thread with a property.
* `AutoReset`, `AutoResetOp`, `AutoReset.step` — the event with the places of its threads.

## Main results

* `HeldBy.take`, `HeldBy.release`, `HeldBy.congr` — how a thread takes and releases a lock.
* `AutoReset.takes_le_signals` — no signal is taken twice.
-/

namespace LuaSys.Lib

/-! ## Locks -/

section

variable {θ : Type*} {P Q : θ → Prop} {o : Option θ} {t : θ}

/-- The thread with the property owns the lock. -/
def HeldBy (owner : Option θ) (P : θ → Prop) : Prop := ∀ t, owner = some t ↔ P t

theorem HeldBy.congr (h : HeldBy o P) (heq : ∀ u, Q u ↔ P u) : HeldBy o Q :=
  fun u => (h u).trans (heq u).symm

theorem HeldBy.take (h : HeldBy none P) (ht : Q t) (heq : ∀ u, u ≠ t → (Q u ↔ P u)) :
    HeldBy (some t) Q := by
  intro u
  by_cases hu : u = t
  · subst hu
    exact iff_of_true rfl ht
  · have hne : some t ≠ some u := fun heq' => hu (Option.some.inj heq').symm
    exact iff_of_false hne fun hQ => Option.some_ne_none u ((h u).mpr ((heq u hu).mp hQ)).symm

theorem HeldBy.release (h : HeldBy (some t) P) (ht : ¬Q t) (heq : ∀ u, u ≠ t → (Q u ↔ P u)) :
    HeldBy none Q := by
  intro u
  refine iff_of_false (Option.some_ne_none u).symm fun hQ => ?_
  by_cases hu : u = t
  · exact ht (hu ▸ hQ)
  · exact hu (Option.some.inj ((h u).mpr ((heq u hu).mp hQ))).symm

end

/-! ## An event that resets itself -/

/-- Where a thread is, as far as an event is concerned. -/
inductive EventPlace
  | outside
  | waiting
  /-- The wait is over; it has taken the signal or not. -/
  | returned (taken : Bool)
  deriving DecidableEq

/-- An event with its threads. -/
structure AutoReset (θ : Type*) where
  signalled : Bool
  place : θ → EventPlace

/-- The operations of the event. -/
inductive AutoResetOp (θ : Type*)
  | call (t : θ)
  | signal
  | take (t : θ)
  /-- The wait ends without the signal. -/
  | giveUp (t : θ)
  | leave (t : θ)

/-- A wait takes the signal. -/
def AutoResetOp.isTake {θ : Type*} : AutoResetOp θ → Bool
  | .take _ => true
  | _ => false

/-- The event is signalled. -/
def AutoResetOp.isSignal {θ : Type*} : AutoResetOp θ → Bool
  | .signal => true
  | _ => false

namespace AutoReset

variable {θ : Type*}

/-- Nobody waits, and there is no signal. -/
def init : AutoReset θ := ⟨false, fun _ => .outside⟩

variable [DecidableEq θ]

/-- The thread comes to a place. -/
def goto (s : AutoReset θ) (t : θ) (p : EventPlace) : AutoReset θ :=
  { s with place := Function.update s.place t p }

/-- One operation; `none` when the thread is elsewhere. -/
def step (s : AutoReset θ) : AutoResetOp θ → Option (AutoReset θ)
  | .call t => if s.place t = .outside then some (s.goto t .waiting) else none
  | .signal => some { s with signalled := true }
  | .take t =>
      if s.place t = .waiting ∧ s.signalled then
        some ({ s with signalled := false }.goto t (.returned true))
      else none
  | .giveUp t => if s.place t = .waiting then some (s.goto t (.returned false)) else none
  | .leave t =>
      match s.place t with
      | .returned _ => some (s.goto t .outside)
      | _ => none

variable {s s' : AutoReset θ} {op : AutoResetOp θ}

/-- An operation that takes a signal needs one. -/
theorem step_signals (hstep : s.step op = some s') :
    op.isTake.toNat + s'.signalled.toNat ≤ op.isSignal.toNat + s.signalled.toNat := by
  cases op with
  | call t =>
      obtain ⟨-, heq⟩ := Option.ite_none_right_eq_some.mp hstep
      obtain rfl := Option.some.inj heq
      exact Nat.le_refl _
  | signal =>
      obtain rfl := Option.some.inj hstep
      exact Nat.le_add_right 1 _
  | take t =>
      obtain ⟨⟨-, hsig⟩, heq⟩ := Option.ite_none_right_eq_some.mp hstep
      obtain rfl := Option.some.inj heq
      rw [hsig]
      exact Nat.le_refl 1
  | giveUp t =>
      obtain ⟨-, heq⟩ := Option.ite_none_right_eq_some.mp hstep
      obtain rfl := Option.some.inj heq
      exact Nat.le_refl _
  | leave t =>
      simp only [step] at hstep
      split at hstep
      · obtain rfl := Option.some.inj hstep
        exact Nat.le_refl _
      · cases hstep

/-- **No signal is taken twice.** -/
theorem takes_le_signals {ops : List (AutoResetOp θ)} (hrun : runOps step s ops = some s') :
    ops.countP AutoResetOp.isTake + s'.signalled.toNat ≤
      ops.countP AutoResetOp.isSignal + s.signalled.toNat := by
  induction ops generalizing s with
  | nil =>
      obtain rfl := Option.some.inj hrun
      exact Nat.le_refl _
  | cons op ops ih =>
      obtain ⟨s₁, hop, hrest⟩ := runOps_cons hrun
      have hone := step_signals hop
      have hothers := ih hrest
      rw [List.countP_cons, List.countP_cons]
      cases htake : op.isTake <;> cases hsignal : op.isSignal <;>
        simp only [htake, hsignal, Bool.toNat_true, Bool.toNat_false, if_true, if_false,
          Bool.false_eq_true] at hone ⊢ <;> omega

end AutoReset

end LuaSys.Lib
