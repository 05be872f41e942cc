import Mathlib.Data.Nat.Basic
import Mathlib.Tactic.Common

/-!
# Interrupts of a waiting loop

A thread that waits in `evq_wait` is interrupted by `evq_signal`.  The numbers of the
signals are collected in the bit set `sig_ready`, and a token in the descriptor
`sig_fd`, an eventfd or a pipe, ends the wait.  The waiting thread takes the token and
the set in `signal_process_interrupt`.

Both sides work in the critical section `sig_cs`, and a step of the model is one such
section.  A write to the descriptor succeeds.  A shift by a signal number takes the
number modulo the width of an `int`; the numbers that the source passes are below it.

## Main definitions

* `SignalState` — the set and the number of unread tokens.
* `evqSignal`, `signalProcessInterrupt` — the functions of `signal.c`.
* `SignalOp`, `SignalState.run` — the sections of the threads, in any order.

## Main results

* `interrupt_once` — there is one token exactly when the set is not empty, and a signal is
  in the set that the next `signal_process_interrupt` takes.
* `mem_signalNumbers` — the signals that are processed are those of the set.
-/

namespace LuaSys.Event

/-- `EVQ_SIGEVQ`, which is `SIGPIPE`: an interrupt without a signal. -/
def evqSigevq : ℕ := 13

/-- `1 << signo`. -/
def sigBit (signo : ℕ) : BitVec 32 := BitVec.twoPow 32 (signo % 32)

/-- The signal is in the set. -/
def SigHas (set : BitVec 32) (signo : ℕ) : Prop := set.getLsbD (signo % 32) = true

instance (set : BitVec 32) (signo : ℕ) : Decidable (SigHas set signo) :=
  inferInstanceAs (Decidable (_ = true))

theorem sigHas_or_sigBit {set : BitVec 32} {signo signo' : ℕ} :
    SigHas (set ||| sigBit signo) signo' ↔ SigHas set signo' ∨ signo % 32 = signo' % 32 := by
  have hlt : signo % 32 < 32 := Nat.mod_lt _ (by decide)
  simp only [SigHas, sigBit, BitVec.getLsbD_or, BitVec.getLsbD_twoPow, hlt, decide_true,
    Bool.true_and, Bool.or_eq_true, decide_eq_true_eq]

theorem not_sigHas_zero (signo : ℕ) : ¬SigHas 0 signo := by
  simp [SigHas]

/-! ## The sections -/

/-- The fields of the queue for interrupts. -/
structure SignalState where
  sigReady : BitVec 32
  /-- The unread tokens: the counter of an eventfd, or the bytes in a pipe. -/
  tokens : ℕ
  deriving DecidableEq

namespace SignalState

/-- A new event queue. -/
def init : SignalState where
  sigReady := 0
  tokens := 0

/-- `evq_interrupt`: write a token. -/
def evqInterrupt (s : SignalState) : SignalState := { s with tokens := s.tokens + 1 }

/-- `evq_signal`. -/
def evqSignal (s : SignalState) (signo : ℕ) : SignalState :=
  let s := if s.sigReady = 0 then s.evqInterrupt else s
  { s with sigReady := s.sigReady ||| sigBit signo }

/-- The read of eight bytes in `signal_process_interrupt`: the counter of an eventfd
becomes zero, and from a pipe come as many bytes as there are, but not more. -/
def readTokens (eventfd : Bool) (s : SignalState) : SignalState :=
  { s with tokens := if eventfd then 0 else s.tokens - 8 }

/-- The critical section of `signal_process_interrupt`, with the set that it takes. -/
def signalProcessInterrupt (eventfd : Bool) (s : SignalState) : SignalState × BitVec 32 :=
  let s := s.readTokens eventfd
  ({ s with sigReady := 0 }, s.sigReady)

end SignalState

/-- The loop of `signal_process_interrupt` from `signo` on: the signals for which
`signal_process_actives` is called. -/
def signalNumbers.loop : (fuel signo : ℕ) → (sigReady : BitVec 32) → List ℕ
  | 0, _, _ => []
  | fuel + 1, signo, sigReady =>
      if sigReady = 0 then []
      else if sigReady.getLsbD 0 then signo :: loop fuel (signo + 1) (sigReady >>> 1)
      else loop fuel (signo + 1) (sigReady >>> 1)

/-- The signals that `signal_process_interrupt` processes for the set it has taken. -/
def signalNumbers (set : BitVec 32) : List ℕ := signalNumbers.loop 32 0 (set &&& ~~~sigBit evqSigevq)

/-! ## Interleavings -/

/-- The critical sections of the threads. -/
inductive SignalOp (θ : Type*)
  | signal (t : θ) (signo : ℕ)
  | processInterrupt (t : θ)
  deriving DecidableEq

/-- The section is one of `signal_process_interrupt`. -/
def SignalOp.Takes {θ : Type*} : SignalOp θ → Prop
  | .signal _ _ => False
  | .processInterrupt _ => True

instance {θ : Type*} (op : SignalOp θ) : Decidable op.Takes :=
  match op with
  | .signal _ _ => inferInstanceAs (Decidable False)
  | .processInterrupt _ => inferInstanceAs (Decidable True)

namespace SignalState

variable {θ : Type*}

def step (eventfd : Bool) (s : SignalState) : SignalOp θ → SignalState
  | .signal _ signo => s.evqSignal signo
  | .processInterrupt _ => (s.signalProcessInterrupt eventfd).1

/-- The state after the sections `ops`. -/
def run (eventfd : Bool) (s : SignalState) (ops : List (SignalOp θ)) : SignalState :=
  ops.foldl (step eventfd) s

/-- One token for a set that is not empty, and none for the empty set. -/
def Paired (s : SignalState) : Prop := s.tokens = if s.sigReady = 0 then 0 else 1

theorem evqSignal_sigReady (s : SignalState) (signo : ℕ) :
    (s.evqSignal signo).sigReady = s.sigReady ||| sigBit signo := by
  unfold evqSignal
  split <;> rfl

theorem or_sigBit_ne_zero (set : BitVec 32) (signo : ℕ) : set ||| sigBit signo ≠ 0 := by
  intro hzero
  have hhas : SigHas (set ||| sigBit signo) signo := sigHas_or_sigBit.mpr (Or.inr rfl)
  rw [hzero] at hhas
  exact not_sigHas_zero signo hhas

/-- A step keeps the tokens and the set together. -/
theorem Paired.step {s : SignalState} (h : s.Paired) (eventfd : Bool) (op : SignalOp θ) :
    (s.step eventfd op).Paired := by
  cases op with
  | signal t signo =>
      rw [Paired] at h
      simp only [SignalState.step, Paired, evqSignal_sigReady, if_neg (or_sigBit_ne_zero _ _)]
      by_cases hzero : s.sigReady = 0
      · rw [if_pos hzero] at h
        rw [evqSignal, if_pos hzero]
        simp only [evqInterrupt, h]
      · rw [if_neg hzero] at h
        rw [evqSignal, if_neg hzero]
        exact h
  | processInterrupt t =>
      rw [Paired] at h
      have hle : s.tokens ≤ 1 := by
        rw [h]
        split <;> decide
      simp only [SignalState.step, signalProcessInterrupt, readTokens, Paired, if_true]
      split
      · rfl
      · omega

theorem Paired.run {s : SignalState} (h : s.Paired) (eventfd : Bool) (ops : List (SignalOp θ)) :
    (s.run eventfd ops).Paired := by
  induction ops generalizing s with
  | nil => exact h
  | cons op ops ih => exact ih (h.step eventfd op)

/-- A signal stays in the set until the set is taken. -/
theorem sigHas_run {s : SignalState} {signo : ℕ} (h : SigHas s.sigReady signo) (eventfd : Bool)
    {ops : List (SignalOp θ)} (hops : ∀ op ∈ ops, ¬op.Takes) :
    SigHas (s.run eventfd ops).sigReady signo := by
  induction ops generalizing s with
  | nil => exact h
  | cons op ops ih =>
      have hrest : ∀ op ∈ ops, ¬op.Takes := fun op' hop' => hops op' (List.mem_cons_of_mem op hop')
      cases op with
      | signal t signo' =>
          apply ih _ hrest
          rw [SignalState.step, evqSignal_sigReady, sigHas_or_sigBit]
          exact Or.inl h
      | processInterrupt t => exact absurd trivial (hops _ List.mem_cons_self)

/-- After any sections of any threads, the set is not empty if and only if there is exactly
one unread token; and a signal that is raised then, with any sections of `evq_signal`
after it, is in the set that the next `signal_process_interrupt` takes. -/
theorem interrupt_once (eventfd : Bool) (before after : List (SignalOp θ)) (t : θ) (signo : ℕ)
    (hafter : ∀ op ∈ after, ¬op.Takes) :
    ((run eventfd init before).sigReady ≠ 0 ↔ (run eventfd init before).tokens = 1) ∧
      (run eventfd init before).tokens ≤ 1 ∧
      SigHas ((run eventfd init (before ++ .signal t signo :: after)).signalProcessInterrupt
        eventfd).2 signo := by
  have hpaired : (run eventfd init before).Paired := by
    apply Paired.run
    rfl
  rw [Paired] at hpaired
  refine ⟨?_, ?_, ?_⟩
  · rw [hpaired]
    split <;> simp_all
  · rw [hpaired]
    split <;> decide
  · rw [run, List.foldl_append]
    apply sigHas_run _ eventfd hafter
    rw [SignalState.step, evqSignal_sigReady, sigHas_or_sigBit]
    exact Or.inr rfl

/-- Two threads interrupt the loop once more before it takes the set. -/
theorem interrupt_once_twoThreads :
    (run true init [.signal 0 evqSigevq, .signal 1 15]).tokens = 1 ∧
      SigHas ((run true init [.signal 0 evqSigevq, .signal 1 15, .signal 0 2,
        .signal 1 evqSigevq]).signalProcessInterrupt true).2 2 := by
  obtain ⟨hiff, -, hhas⟩ := interrupt_once true [.signal 0 evqSigevq, .signal 1 15]
    [.signal 1 evqSigevq] 0 2 (by decide)
  exact ⟨hiff.mp (by decide), hhas⟩

end SignalState

/-! ## The signals that are processed -/

theorem mem_signalNumbers_loop {fuel signo n : ℕ} {set : BitVec 32}
    (hfuel : ∀ i, fuel ≤ i → set.getLsbD i = false) :
    n ∈ signalNumbers.loop fuel signo set ↔ signo ≤ n ∧ set.getLsbD (n - signo) = true := by
  induction fuel generalizing signo set with
  | zero => simp [signalNumbers.loop, hfuel]
  | succ fuel ih =>
      have hshift : ∀ i, (set >>> 1).getLsbD i = set.getLsbD (i + 1) := by
        intro i
        rw [BitVec.getLsbD_ushiftRight, Nat.add_comm]
      have hrest : n ∈ signalNumbers.loop fuel (signo + 1) (set >>> 1) ↔
          signo + 1 ≤ n ∧ (set >>> 1).getLsbD (n - (signo + 1)) = true := by
        apply ih
        intro i hi
        rw [hshift]
        exact hfuel (i + 1) (by omega)
      -- the numbers above `signo` are the bits of the shifted set
      have habove : n ∈ signalNumbers.loop fuel (signo + 1) (set >>> 1) ↔
          signo < n ∧ set.getLsbD (n - signo) = true := by
        rw [hrest, hshift]
        constructor
        · rintro ⟨hle, hbit⟩
          refine ⟨hle, ?_⟩
          rwa [show n - (signo + 1) + 1 = n - signo by omega] at hbit
        · rintro ⟨hlt, hbit⟩
          refine ⟨hlt, ?_⟩
          rwa [show n - (signo + 1) + 1 = n - signo by omega]
      rw [signalNumbers.loop]
      by_cases hzero : set = 0
      · simp [hzero]
      · rw [if_neg hzero]
        by_cases hbit : set.getLsbD 0 = true
        · rw [if_pos hbit, List.mem_cons, habove]
          constructor
          · rintro (rfl | ⟨hlt, hn⟩)
            · simp [hbit]
            · exact ⟨Nat.le_of_lt hlt, hn⟩
          · rintro ⟨hle, hn⟩
            rcases Nat.lt_or_eq_of_le hle with hlt | heq
            · exact Or.inr ⟨hlt, hn⟩
            · exact Or.inl heq.symm
        · rw [if_neg hbit, habove]
          constructor
          · rintro ⟨hlt, hn⟩
            exact ⟨Nat.le_of_lt hlt, hn⟩
          · rintro ⟨hle, hn⟩
            refine ⟨lt_of_le_of_ne hle ?_, hn⟩
            rintro rfl
            rw [Nat.sub_self] at hn
            exact hbit hn

/-- The events of a signal are activated if and only if the signal is in the set and is
not `EVQ_SIGEVQ`. -/
theorem mem_signalNumbers {set : BitVec 32} {signo : ℕ} (hlt : signo < 32) :
    signo ∈ signalNumbers set ↔ SigHas set signo ∧ signo ≠ evqSigevq := by
  rw [signalNumbers, mem_signalNumbers_loop (fun i hi => BitVec.getLsbD_of_ge _ i hi), SigHas,
    Nat.mod_eq_of_lt hlt]
  have hbit : (sigBit evqSigevq).getLsbD signo = decide (evqSigevq = signo) := by
    rw [sigBit, BitVec.getLsbD_twoPow]
    rfl
  simp only [BitVec.getLsbD_and, BitVec.getLsbD_not, Nat.sub_zero, Nat.zero_le, true_and, hbit,
    hlt, decide_true, Bool.true_and, Bool.and_eq_true, Bool.not_eq_true', decide_eq_false_iff_not]
  rw [ne_comm]

end LuaSys.Event
