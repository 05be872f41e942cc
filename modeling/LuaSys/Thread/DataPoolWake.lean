import LuaSys.Thread.DataPoolFlow
import Mathlib.Data.Fintype.Basic

/-!
# Wake-ups of a data pool

One event serves the readers that wait for data and the writers that wait for room.  It
is signalled when a tuple is offered, when the first tuple is stored and when the number
of tuples leaves the maximum; each signal wakes up one thread, and signals that come
before somebody has taken the first one are lost.  A thread that has taken a signal does
not pass it on.  So it may use up a signal that stands for several tuples, or for several
free places, while others still wait.

What a step means for the waiting threads is collected in `WakeChange`.  Which resumptions
leave a waiting thread behind, and that nothing else does, follows from it, for readers
and for writers in the same way.

## Main definitions

* `PoolPhase.kind` — where a thread is, as far as wake-ups are concerned.
* `WakeChange` — what a step does to the event, the counter and the waiting threads.
* `DataPool.StrandedReader`, `DataPool.StrandedWriter` — a thread waits though there is
  something to do, and nobody is about to look.
* `PoolOp.KeepsReaders`, `PoolOp.KeepsWriters` — the resumptions that leave nobody behind.

## Main results

* `safe_run_no_strandedReader`, `safe_run_no_strandedWriter` — such runs strand nobody.
* `coalesced_signal_strands_reader`, `leaving_max_once_strands_writer` — runs that do.
-/

namespace LuaSys.Thread

open LuaSys.Lib

/-- Where a thread is, as far as wake-ups are concerned. -/
inductive PoolKind
  | other
  | putWait
  | getWait
  /-- The thread has taken a signal. -/
  | woken
  deriving DecidableEq

/-- The kind of a phase. -/
def PoolPhase.kind {α : Type*} : PoolPhase α → PoolKind
  | .putWait _ => .putWait
  | .getWait => .getWait
  | .putWoken _ | .getWoken => .woken
  | _ => .other

namespace DataPool

variable {θ α : Type*}

/-- The kind of the phase of a thread. -/
def kind (s : DataPool θ α) (t : θ) : PoolKind := (s.phase t).kind

/-- A signal is there, or a thread that has taken one is on its way. -/
def Alert (s : DataPool θ α) : Prop := s.signalled = true ∨ ∃ t, s.kind t = .woken

/-- The same, without the thread `t`. -/
def AlertBut (s : DataPool θ α) (t : θ) : Prop :=
  s.signalled = true ∨ ∃ t', t' ≠ t ∧ s.kind t' = .woken

/-- A thread is blocked, and nobody is about to look. -/
def Unseen (s : DataPool θ α) (k : PoolKind) : Prop := (∃ t, s.kind t = k) ∧ ¬s.Alert

/-- A reader is blocked, though there are data. -/
def StrandedReader (s : DataPool θ α) : Prop := s.n ≠ 0 ∧ s.Unseen .getWait

/-- A writer is blocked, though there is room. -/
def StrandedWriter (s : DataPool θ α) : Prop := s.n < s.max ∧ s.Unseen .putWait

instance [Fintype θ] (s : DataPool θ α) : Decidable s.Alert :=
  inferInstanceAs (Decidable (_ ∨ _))

instance [Fintype θ] (s : DataPool θ α) (k : PoolKind) : Decidable (s.Unseen k) :=
  inferInstanceAs (Decidable (_ ∧ _))

instance [Fintype θ] (s : DataPool θ α) : Decidable s.StrandedReader :=
  inferInstanceAs (Decidable (_ ∧ _))

instance [Fintype θ] (s : DataPool θ α) : Decidable s.StrandedWriter :=
  inferInstanceAs (Decidable (_ ∧ _))

/-- When `t` goes on, it leaves no thread of the kind `k` behind. -/
def Spares (s : DataPool θ α) (t : θ) (k : PoolKind) : Prop :=
  (∀ t', s.kind t' ≠ k) ∨ s.AlertBut t

/-- The thread `t` takes a step to a phase of the kind `k`. -/
structure Acts (s s' : DataPool θ α) (t : θ) (k : PoolKind) : Prop where
  self : s'.kind t = k
  others : ∀ t', t' ≠ t → s'.kind t' = s.kind t'

/-- The thread with the VM lock runs. -/
def Running (s : DataPool θ α) : Prop := ∀ t, s.vm = some t → s.phase t = .running

/-- In addition, the counters are unsigned. -/
structure Plain (s : DataPool θ α) : Prop where
  running : s.Running
  n_lt : s.n < 2 ^ 32
  max_lt : s.max < 2 ^ 32

end DataPool

section

variable {θ α : Type*}

/-- What a step does to the event, the counters and the waiting threads. -/
inductive WakeChange (op : PoolOp θ α) (s s' : DataPool θ α) : Prop
  | quiet (t : θ) (acts : s.Acts s' t .other) (asleep : s.kind t ≠ .woken) (n : s'.n = s.n)
      (max : s'.max = s.max) (signalled : s'.signalled = s.signalled)
  /-- A writer waits for room. -/
  | full (t : θ) (acts : s.Acts s' t .putWait)
      (cause : s.kind t ≠ .woken ∨ op = .putResume t false) (isFull : s.max ≤ s.n)
      (n : s'.n = s.n) (max : s'.max = s.max) (signalled : s'.signalled = s.signalled)
  /-- A reader waits for data. -/
  | empty (t : θ) (acts : s.Acts s' t .getWait)
      (cause : s.kind t ≠ .woken ∨ op = .getResume t false ∧ s.nput = 0) (isEmpty : s.n = 0)
      (n : s'.n = s.n) (max : s'.max = s.max) (signalled : s'.signalled = s.signalled)
  /-- A waiting thread takes the signal. -/
  | consumed (t : θ) (acts : s.Acts s' t .woken) (n : s'.n = s.n) (max : s'.max = s.max)
  | offered (t : θ) (acts : s.Acts s' t .other) (n : s'.n = s.n) (max : s'.max = s.max)
      (signalled : s'.signalled = true)
  | stored (t : θ) (acts : s.Acts s' t .other)
      (cause : s.kind t ≠ .woken ∨ op = .putResume t false ∧ ¬s.Direct)
      (counts : s.n < s.max ∨ (∃ v, op = .putReturn t v) ∨ op = .offerDone t)
      (n : s'.n = u32 (s.n + 1)) (max : s'.max = s.max)
      (signalled : s'.signalled = (s.signalled || s.n = 0))
  | taken (t : θ) (acts : s.Acts s' t .other)
      (cause : s.kind t ≠ .woken ∨ op = .getResume t false ∧ s.nput = 0) (some_left : s.n ≠ 0)
      (n : s'.n = u32sub s.n 1) (max : s'.max = s.max)
      (signalled : s'.signalled = (s.signalled || s.n = s.max))
  /-- A woken thread goes on without the storage: by an error, or with an offer. -/
  | dropped (t : θ) (acts : s.Acts s' t .other) (wasWoken : s.kind t = .woken)
      (cause : op = .putResume t true ∨ op = .getResume t true ∨
        op = .getResume t false ∧ s.nput ≠ 0)
      (n : s'.n = s.n) (max : s'.max = s.max) (signalled : s'.signalled = s.signalled)
  | limited (t : θ) (m : ℕ) (acts : s.Acts s' t .other) (asleep : s.kind t ≠ .woken)
      (cause : op = .setMax t m) (n : s'.n = s.n) (max : s'.max = u32 m)
      (signalled : s'.signalled = s.signalled)

end

namespace DataPool

variable {θ α : Type*} {s s' : DataPool θ α} {t : θ} {k : PoolKind} {op : PoolOp θ α}

theorem Alert.but (h : s.Alert) (ht : s.kind t ≠ .woken) : s.AlertBut t := by
  obtain hsig | ⟨t', ht'⟩ := h
  · exact Or.inl hsig
  · refine Or.inr ⟨t', ?_, ht'⟩
    rintro rfl
    exact ht ht'

/-- The others stay on their way. -/
theorem AlertBut.alert (h : s.AlertBut t) (hacts : s.Acts s' t k)
    (hsig : s.signalled = true → s'.signalled = true) : s'.Alert := by
  obtain hs | ⟨t', hne, ht'⟩ := h
  · exact Or.inl (hsig hs)
  · exact Or.inr ⟨t', (hacts.others t' hne).trans ht'⟩

/-- A thread that waits after the step has waited before, if it is not the one that takes
the step. -/
theorem Acts.waits (hacts : s.Acts s' t k) {k' : PoolKind} (hne : k' ≠ k)
    (h : ∃ t', s'.kind t' = k') : ∃ t', t' ≠ t ∧ s.kind t' = k' := by
  obtain ⟨t', ht'⟩ := h
  have htt : t' ≠ t := by
    rintro rfl
    exact hne (ht'.symm.trans hacts.self)
  exact ⟨t', htt, (hacts.others t' htt).symm.trans ht'⟩

theorem Plain.change_n_lt (h : s.Plain) (hchange : WakeChange op s s') : s'.n < 2 ^ 32 := by
  cases hchange with
  | quiet _ _ _ hn | full _ _ _ _ hn | empty _ _ _ _ hn | consumed _ _ hn | offered _ _ hn
  | dropped _ _ _ _ hn | limited _ _ _ _ _ hn =>
      rw [hn]
      exact h.n_lt
  | stored _ _ _ _ hn =>
      rw [hn]
      exact u32_lt _
  | taken _ _ _ _ hn =>
      rw [hn]
      exact Nat.mod_lt _ (by decide)

theorem Plain.change_max_lt (h : s.Plain) (hchange : WakeChange op s s') : s'.max < 2 ^ 32 := by
  cases hchange with
  | quiet _ _ _ _ hmax | full _ _ _ _ _ hmax | empty _ _ _ _ _ hmax | consumed _ _ _ hmax
  | offered _ _ _ hmax | dropped _ _ _ _ _ hmax | stored _ _ _ _ _ hmax
  | taken _ _ _ _ _ hmax =>
      rw [hmax]
      exact h.max_lt
  | limited _ _ _ _ _ _ hmax =>
      rw [hmax]
      exact u32_lt _

/-! ## The steps -/

theorem Running.kind (h : s.Running) (ht : s.vm = some t) : s.kind t = .other := by
  rw [DataPool.kind, h t ht]
  rfl

theorem Running.asleep (h : s.Running) (ht : s.vm = some t) : s.kind t ≠ .woken := by
  rw [h.kind ht]
  simp

/-- The threads, the counters and the event are the same. -/
structure Looks (s s₀ : DataPool θ α) : Prop where
  phase : s₀.phase = s.phase
  n : s₀.n = s.n
  max : s₀.max = s.max
  signalled : s₀.signalled = s.signalled

/-- Nothing changes for the threads. -/
theorem Acts.of_phase_eq (hphase : s'.phase = s.phase) : s.Acts s' t (s.kind t) := by
  refine ⟨?_, fun t' _ => ?_⟩ <;> rw [DataPool.kind, DataPool.kind, hphase]

theorem Running.quiet (h : s.Running) (ht : s.vm = some t) (hphase : s'.phase = s.phase)
    (hvm : s'.vm = s.vm) (hn : s'.n = s.n) (hmax : s'.max = s.max)
    (hsig : s'.signalled = s.signalled) : s'.Running ∧ WakeChange op s s' := by
  refine ⟨?_, .quiet t ?_ (h.asleep ht) hn hmax hsig⟩
  · rw [Running, hvm, hphase]
    exact h
  · rw [← h.kind ht]
    exact Acts.of_phase_eq hphase

theorem running_of_none (hvm : s'.vm = none) : s'.Running :=
  fun _ ht => absurd (hvm.symm.trans ht) (by simp)

/-- The counters after a tuple has been taken. -/
theorem takeStored_counts (s : DataPool θ α) :
    s.takeStored.n = u32sub s.n 1 ∧ s.takeStored.max = s.max ∧
      s.takeStored.signalled = (s.signalled || s.n = s.max) ∧ s.takeStored.phase = s.phase := by
  cases s
  exact ⟨rfl, rfl, rfl, rfl⟩

variable [DecidableEq θ] {p : PoolPhase α} {v : Tuple α}

@[simp] theorem proceed_n (s : DataPool θ α) (t : θ) : (s.proceed t).n = s.n := rfl

@[simp] theorem proceed_max (s : DataPool θ α) (t : θ) : (s.proceed t).max = s.max := rfl

@[simp] theorem proceed_signalled (s : DataPool θ α) (t : θ) :
    (s.proceed t).signalled = s.signalled := rfl

@[simp] theorem proceed_phase (s : DataPool θ α) (t : θ) :
    (s.proceed t).phase = Function.update s.phase t .running := rfl

theorem Acts.of_update (hphase : s'.phase = Function.update s.phase t p) :
    s.Acts s' t p.kind := by
  refine ⟨?_, fun t' hne => ?_⟩
  · rw [DataPool.kind, hphase, Function.update_self]
  · rw [DataPool.kind, DataPool.kind, hphase, Function.update_of_ne hne]

theorem running_of_some (hvm : s'.vm = some t)
    (hphase : s'.phase = Function.update s.phase t .running) : s'.Running := by
  intro t' ht'
  obtain rfl : t = t' := Option.some.inj (hvm.symm.trans ht')
  rw [hphase, Function.update_self]

/-- A thread without the VM lock changes its phase. -/
theorem Running.update (h : s.Running) (ht : s.phase t ≠ .running) (hvm : s'.vm = s.vm)
    (hphase : s'.phase = Function.update s.phase t p) : s'.Running := by
  intro t' ht'
  rw [hvm] at ht'
  have hne : t' ≠ t := by
    rintro rfl
    exact ht (h t' ht')
  rw [hphase, Function.update_of_ne hne]
  exact h t' ht'

/-- The end of `dpool_put`, from a state in which only the calls differ. -/
theorem deliver_wakes {s₀ : DataPool θ α} (hl : Looks s s₀) (hdirect : s₀.Direct ↔ s.Direct)
    (hcause : s.kind t ≠ .woken ∨ op = .putResume t false)
    (hcounts : s.n < s.max ∨ (∃ v, op = .putReturn t v) ∨ op = .offerDone t) :
    (s₀.deliver t v).Running ∧ WakeChange op s (s₀.deliver t v) := by
  unfold DataPool.deliver
  dsimp only
  by_cases hd : s₀.nwaits ≠ 0 ∧ s₀.L = none
  · rw [if_pos hd]
    refine ⟨running_of_none rfl, .offered t (Acts.of_update (p := .offering v) ?_) hl.n hl.max rfl⟩
    rw [← hl.phase]
    rfl
  · rw [if_neg hd]
    refine ⟨running_of_some (s := s₀) rfl rfl, .stored t (Acts.of_update (p := .running) ?_)
      (hcause.imp_right fun hop => ⟨hop, fun h => hd (hdirect.mpr h)⟩) hcounts ?_ hl.max ?_⟩
    · rw [← hl.phase]
      rfl
    · rw [← hl.n]
      rfl
    · rw [← hl.n, ← hl.signalled]
      rfl

/-- The loop of `dpool_get`, from a state in which only the calls and the number of waiting
readers differ. -/
theorem getLoop_wakes {s₀ : DataPool θ α} (hl : Looks s s₀)
    (hcause : s.kind t ≠ .woken ∨ op = .getResume t false ∧ s.nput = 0) :
    (s₀.getLoop t).Running ∧ WakeChange op s (s₀.getLoop t) := by
  unfold DataPool.getLoop
  by_cases hn : s₀.n ≠ 0
  · rw [if_pos hn]
    obtain ⟨hn', hmax, hsig, hphase⟩ := s₀.takeStored_counts
    have hphase' : (s₀.takeStored.proceed t).phase = Function.update s.phase t .running := by
      rw [proceed_phase, hphase, hl.phase]
    rw [hl.n] at hn hn'
    rw [hl.n, hl.signalled, hl.max] at hsig
    refine ⟨running_of_some rfl hphase', .taken t (Acts.of_update hphase') hcause hn ?_ ?_ ?_⟩
    · rw [proceed_n, hn']
    · rw [proceed_max, hmax, hl.max]
    · rw [proceed_signalled, hsig]
  · rw [if_neg hn]
    refine ⟨running_of_none rfl, .empty t (Acts.of_update (p := .getWait) ?_) hcause ?_ hl.n hl.max
      hl.signalled⟩
    · rw [← hl.phase]
      rfl
    · rw [← hl.n]
      exact not_not.mp hn

/-- The steps in which a thread without the VM lock only changes its phase. -/
theorem Running.quiet_update (h : s.Running) (ht : s.phase t ≠ .running)
    (hold : s.kind t ≠ .woken) (hp : p.kind = .other) :
    ({ s with phase := Function.update s.phase t p }).Running ∧
      WakeChange op s { s with phase := Function.update s.phase t p } := by
  refine ⟨h.update ht rfl rfl, .quiet t ?_ hold rfl rfl rfl⟩
  rw [← hp]
  exact Acts.of_update rfl

/-- A thread goes on after a wait without a signal, or without a wait. -/
theorem quiet_proceed {s₀ : DataPool θ α} (hl : Looks s s₀) (hold : s.kind t ≠ .woken) :
    (s₀.proceed t).Running ∧ WakeChange op s (s₀.proceed t) := by
  refine ⟨running_of_some (s := s₀) rfl rfl, .quiet t (Acts.of_update (p := .running) ?_) hold hl.n
    hl.max hl.signalled⟩
  rw [proceed_phase, hl.phase]

/-- A woken thread goes on and leaves the storage alone. -/
theorem dropped_proceed {s₀ : DataPool θ α} (hn : s₀.n = s.n) (hmax : s₀.max = s.max)
    (hsig : s₀.signalled = s.signalled) (hkind : ∀ t', s₀.kind t' = s.kind t')
    (hwoken : s.kind t = .woken)
    (hcause : op = .putResume t true ∨ op = .getResume t true ∨
      op = .getResume t false ∧ s.nput ≠ 0) :
    (s₀.proceed t).Running ∧ WakeChange op s (s₀.proceed t) := by
  refine ⟨running_of_some (s := s₀) rfl rfl, .dropped t ⟨?_, fun t' hne => ?_⟩ hwoken hcause hn
    hmax hsig⟩
  · rw [DataPool.kind, proceed_phase, Function.update_self]
    rfl
  · rw [← hkind t', DataPool.kind, DataPool.kind, proceed_phase, Function.update_of_ne hne]

/-- A hand-over only concerns the two threads. -/
theorem handOver_kind (hrun : s.handOver = some s') :
    s'.n = s.n ∧ s'.max = s.max ∧ s'.signalled = s.signalled ∧ ∀ t, s'.kind t = s.kind t := by
  unfold DataPool.handOver at hrun
  split at hrun
  · exact absurd hrun (by simp)
  · rename_i w _
    split at hrun
    · rename_i v hw
      obtain rfl := Option.some.inj hrun
      refine ⟨rfl, rfl, rfl, fun t => ?_⟩
      by_cases ht : t = w
      · simp only [DataPool.kind, ht, Function.update_self, hw]
        rfl
      · simp only [DataPool.kind, Function.update_of_ne ht]
    · exact absurd hrun (by simp)

/-- What a step does. -/
theorem Running.step (h : s.Running) (hstep : s.step op = some s') :
    s'.Running ∧ WakeChange op s s' := by
  cases steps_of_step hstep with
  | proceed hphase =>
      refine quiet_proceed ⟨rfl, rfl, rfl, rfl⟩ ?_
      rcases hphase with hphase | hphase <;> simp [DataPool.kind, hphase, PoolPhase.kind]
  | vmLeave hvm =>
      exact ⟨running_of_none rfl, .quiet _ (Acts.of_update (p := .away) rfl) (h.asleep hvm)
        rfl rfl rfl⟩
  | callback hvm => exact h.quiet hvm rfl rfl rfl rfl rfl
  | @putBlocks t v hvm hv hfull =>
      exact ⟨running_of_none rfl, .full t (Acts.of_update (p := .putWait v) rfl)
        (Or.inl (h.asleep hvm)) hfull rfl rfl rfl⟩
  | put hvm hv hroom =>
      exact deliver_wakes ⟨rfl, rfl, rfl, rfl⟩ Iff.rfl (Or.inl (h.asleep hvm)) (Or.inl hroom)
  | @putReturn t v hvm hv =>
      exact deliver_wakes ⟨rfl, rfl, rfl, rfl⟩ Iff.rfl (Or.inl (h.asleep hvm))
        (Or.inr (Or.inl ⟨v, rfl⟩))
  | @putConsume t v hphase =>
      exact ⟨h.update (by simp [hphase]) rfl rfl,
        .consumed t (Acts.of_update (p := .putWoken v) rfl) rfl rfl⟩
  | putFail hphase =>
      exact h.quiet_update (by simp [hphase]) (by simp [DataPool.kind, hphase, PoolPhase.kind]) rfl
  | putChecked hphase =>
      exact dropped_proceed rfl rfl rfl (fun _ => rfl)
        (by simp [DataPool.kind, hphase, PoolPhase.kind]) (Or.inl rfl)
  | @putBlocksAgain t v hphase hfull =>
      exact ⟨running_of_none rfl, .full t (Acts.of_update (p := .putWait v) rfl)
        (Or.inr rfl) hfull rfl rfl rfl⟩
  | putResume hphase hroom =>
      exact deliver_wakes ⟨rfl, rfl, rfl, rfl⟩ Iff.rfl (Or.inr rfl) (Or.inl hroom)
  | offerTaken hphase hn =>
      exact quiet_proceed ⟨rfl, rfl, rfl, rfl⟩ (by simp [DataPool.kind, hphase, PoolPhase.kind])
  | offerStored hphase hn =>
      exact ⟨running_of_some (s := s) rfl rfl, .stored _ (Acts.of_update (p := .running) rfl)
        (Or.inl (by simp [DataPool.kind, hphase, PoolPhase.kind])) (Or.inr (Or.inr rfl))
        rfl rfl rfl⟩
  | get hvm getCalls => exact getLoop_wakes ⟨rfl, rfl, rfl, rfl⟩ (Or.inl (h.asleep hvm))
  | getConsume hphase =>
      exact ⟨h.update (by simp [hphase]) rfl rfl,
        .consumed _ (Acts.of_update (p := .getWoken) rfl) rfl rfl⟩
  | getFail hphase =>
      exact h.quiet_update (by simp [hphase]) (by simp [DataPool.kind, hphase, PoolPhase.kind]) rfl
  | getChecked hphase =>
      exact dropped_proceed rfl rfl rfl (fun _ => rfl)
        (by simp [DataPool.kind, hphase, PoolPhase.kind]) (Or.inr (Or.inl rfl))
  | getHandOver hphase hn hover =>
      obtain ⟨hn₁, hmax, hsig, hkind⟩ := handOver_kind hover
      exact dropped_proceed hn₁ hmax hsig hkind (by simp [DataPool.kind, hphase, PoolPhase.kind])
        (Or.inr (Or.inr ⟨rfl, hn⟩))
  | getResume hphase hn => exact getLoop_wakes ⟨rfl, rfl, rfl, rfl⟩ (Or.inr ⟨rfl, hn⟩)
  | getFailed hphase =>
      exact quiet_proceed ⟨rfl, rfl, rfl, rfl⟩ (by simp [DataPool.kind, hphase, PoolPhase.kind])
  | @setMax t max hvm =>
      refine ⟨h, .limited t max ?_ (h.asleep hvm) rfl rfl rfl rfl⟩
      rw [← h.kind hvm]
      exact Acts.of_phase_eq rfl

theorem Plain.step (h : s.Plain) (hstep : s.step op = some s') :
    s'.Plain ∧ WakeChange op s s' := by
  obtain ⟨hrun, hchange⟩ := h.running.step hstep
  exact ⟨⟨hrun, h.change_n_lt hchange, h.change_max_lt hchange⟩, hchange⟩

end DataPool

section

variable {θ α : Type*}

/-! ## Readers -/

/-- A woken thread goes on: no other reader waits for data, somebody else is on the way, the
storage is empty or becomes so, or the step signals the event. -/
def PoolOp.KeepsReaders (s : DataPool θ α) : PoolOp θ α → Prop
  | .putResume t error => s.kind t = .woken → s.n = 0 ∨ s.Spares t .getWait ∨
      error = false ∧ s.n < s.max ∧ s.Direct
  | .getResume t error => s.kind t = .woken → s.n = 0 ∨ s.Spares t .getWait ∨
      error = false ∧ s.nput = 0 ∧ (s.n = 1 ∨ s.n = s.max)
  | _ => True

/-- A woken thread goes on: no writer waits for room, somebody else is on the way, the
storage is full or becomes so, or the step signals the event.  The counter of tuples does
not wrap around, and a new maximum makes no room for a waiting writer. -/
def PoolOp.KeepsWriters (s : DataPool θ α) : PoolOp θ α → Prop
  | .putReturn _ _ | .offerDone _ => s.n + 1 < 2 ^ 32
  | .putResume t error => s.kind t = .woken → s.max ≤ s.n ∨ s.Spares t .putWait ∨
      error = false ∧ (s.Direct ∨ s.n = 0 ∨ s.n + 1 = s.max)
  | .getResume t _ => s.kind t = .woken → s.max ≤ s.n ∨ s.Spares t .putWait
  | .setMax _ m => u32 m ≤ s.n ∨ (∀ t', s.kind t' ≠ .putWait) ∨ s.Alert
  | _ => True

end

namespace DataPool

variable {θ α : Type*} {s s' : DataPool θ α} {t : θ} {k : PoolKind} {op : PoolOp θ α}

/-- After the step somebody is on the way, if the one who takes it spares the others. -/
theorem alert_of_step {k' : PoolKind} (hacts : s.Acts s' t k) (hne : k' ≠ k)
    (hsig : s.signalled = true → s'.signalled = true) (hold : ¬s.Unseen k')
    (hwoken : s.kind t = .woken → s.Spares t k') : ¬s'.Unseen k' := by
  rintro ⟨hwait, halert⟩
  obtain ⟨t', hne', ht'⟩ := hacts.waits hne hwait
  have hbut : s.AlertBut t := by
    by_cases ht : s.kind t = .woken
    · exact (hwoken ht).resolve_left fun hall => hall t' ht'
    · have halert : s.Alert := by
        by_contra hno
        exact hold ⟨⟨t', ht'⟩, hno⟩
      exact halert.but ht
  exact halert (hbut.alert hacts hsig)

end DataPool

section

variable {θ α : Type*} {s s' : DataPool θ α} {op : PoolOp θ α}

/-- Only the resumption of a woken thread may leave a reader behind. -/
theorem WakeChange.not_strandedReader (hchange : WakeChange op s s') (hsafe : op.KeepsReaders s)
    (hold : ¬s.StrandedReader) : ¬s'.StrandedReader := by
  rintro ⟨hn', hunseen⟩
  have hold' : s.n ≠ 0 → ¬s.Unseen .getWait := fun hn h => hold ⟨hn, h⟩
  cases hchange with
  | quiet t hacts hasleep hn _ hsig =>
      rw [hn] at hn'
      exact DataPool.alert_of_step hacts (by simp) (by rw [hsig]; exact id) (hold' hn')
        (fun hwoken => absurd hwoken hasleep) hunseen
  | full t hacts hcause hfull hn _ hsig =>
      rw [hn] at hn'
      refine DataPool.alert_of_step hacts (by simp) (by rw [hsig]; exact id) (hold' hn')
        (fun hwoken => ?_) hunseen
      obtain hasleep | rfl := hcause
      · exact absurd hwoken hasleep
      · rcases hsafe hwoken with hzero | hspares | ⟨-, hlt, -⟩
        · exact absurd hzero hn'
        · exact hspares
        · omega
  | empty t _ _ hempty hn => exact hn' (hn.trans hempty)
  | consumed t hacts => exact hunseen.2 (Or.inr ⟨t, hacts.self⟩)
  | offered t _ _ _ hsig => exact hunseen.2 (Or.inl hsig)
  | stored t hacts hcause _ hn _ hsig =>
      by_cases hzero : s.n = 0
      · exact hunseen.2 (Or.inl (by simp [hsig, hzero]))
      · refine DataPool.alert_of_step hacts (by simp) (fun hs => by simp [hsig, hs]) (hold' hzero)
          (fun hwoken => ?_) hunseen
        obtain hasleep | ⟨rfl, hdirect⟩ := hcause
        · exact absurd hwoken hasleep
        · rcases hsafe hwoken with hzero' | hspares | ⟨-, -, hd⟩
          · exact absurd hzero' hzero
          · exact hspares
          · exact absurd hd hdirect
  | taken t hacts hcause hsome hn _ hsig =>
      refine DataPool.alert_of_step hacts (by simp) (fun hs => by simp [hsig, hs]) (hold' hsome)
        (fun hwoken => ?_) hunseen
      obtain hasleep | ⟨rfl, -⟩ := hcause
      · exact absurd hwoken hasleep
      · rcases hsafe hwoken with hzero | hspares | ⟨-, -, hone | hmax⟩
        · exact absurd hzero hsome
        · exact hspares
        · rw [hn, hone, u32sub_of_le le_rfl (by decide)] at hn'
          exact absurd rfl hn'
        · exact absurd (Or.inl (by simp [hsig, hmax])) hunseen.2
  | dropped t hacts hwoken hcause hn _ hsig =>
      rw [hn] at hn'
      refine DataPool.alert_of_step hacts (by simp) (by rw [hsig]; exact id) (hold' hn')
        (fun _ => ?_) hunseen
      rcases hcause with rfl | rfl | ⟨rfl, hnput⟩
      · rcases hsafe hwoken with hzero | hspares | ⟨herror, -⟩
        · exact absurd hzero hn'
        · exact hspares
        · exact absurd herror (by simp)
      · rcases hsafe hwoken with hzero | hspares | ⟨herror, -⟩
        · exact absurd hzero hn'
        · exact hspares
        · exact absurd herror (by simp)
      · rcases hsafe hwoken with hzero | hspares | ⟨-, hnput', -⟩
        · exact absurd hzero hn'
        · exact hspares
        · exact absurd hnput' hnput
  | limited t _ hacts hasleep _ hn _ hsig =>
      rw [hn] at hn'
      exact DataPool.alert_of_step hacts (by simp) (by rw [hsig]; exact id) (hold' hn')
        (fun hwoken => absurd hwoken hasleep) hunseen

/-- Only the resumption of a woken thread and a new maximum may leave a writer behind. -/
theorem WakeChange.not_strandedWriter (hchange : WakeChange op s s') (h : s.Plain)
    (hsafe : op.KeepsWriters s) (hold : ¬s.StrandedWriter) : ¬s'.StrandedWriter := by
  rintro ⟨hlt, hunseen⟩
  have hold' : s.n < s.max → ¬s.Unseen .putWait := fun hn hun => hold ⟨hn, hun⟩
  cases hchange with
  | quiet t hacts hasleep hn hmax hsig =>
      rw [hn, hmax] at hlt
      exact DataPool.alert_of_step hacts (by simp) (by rw [hsig]; exact id) (hold' hlt)
        (fun hwoken => absurd hwoken hasleep) hunseen
  | full t _ _ hfull hn hmax =>
      rw [hn, hmax] at hlt
      omega
  | empty t hacts hcause hempty hn hmax hsig =>
      rw [hn, hmax] at hlt
      refine DataPool.alert_of_step hacts (by simp) (by rw [hsig]; exact id) (hold' hlt)
        (fun hwoken => ?_) hunseen
      obtain hasleep | ⟨rfl, -⟩ := hcause
      · exact absurd hwoken hasleep
      · exact (hsafe hwoken).resolve_left (not_le.mpr hlt)
  | consumed t hacts => exact hunseen.2 (Or.inr ⟨t, hacts.self⟩)
  | offered t _ _ _ hsig => exact hunseen.2 (Or.inl hsig)
  | stored t hacts hcause hcounts hn hmax hsig =>
      have hroom : s.n + 1 < 2 ^ 32 := by
        have := h.max_lt
        rcases hcounts with hlt' | ⟨v, rfl⟩ | rfl
        · omega
        · exact hsafe
        · exact hsafe
      rw [hn, hmax, u32_of_lt hroom] at hlt
      refine DataPool.alert_of_step hacts (by simp) (fun hs => by simp [hsig, hs]) (hold' (by omega))
        (fun hwoken => ?_) hunseen
      obtain hasleep | ⟨rfl, hdirect⟩ := hcause
      · exact absurd hwoken hasleep
      · rcases hsafe hwoken with hfull | hspares | ⟨-, hd | hzero | hlast⟩
        · omega
        · exact hspares
        · exact absurd hd hdirect
        · exact absurd (Or.inl (by simp [hsig, hzero])) hunseen.2
        · omega
  | taken t hacts hcause hsome hn hmax hsig =>
      by_cases hfull : s.n = s.max
      · exact hunseen.2 (Or.inl (by simp [hsig, hfull]))
      · have hlt' : s.n < s.max := by
          rw [hn, hmax, u32sub_of_le (by omega) h.n_lt] at hlt
          omega
        refine DataPool.alert_of_step hacts (by simp) (fun hs => by simp [hsig, hs]) (hold' hlt')
          (fun hwoken => ?_) hunseen
        obtain hasleep | ⟨rfl, -⟩ := hcause
        · exact absurd hwoken hasleep
        · exact (hsafe hwoken).resolve_left (not_le.mpr hlt')
  | dropped t hacts hwoken hcause hn hmax hsig =>
      rw [hn, hmax] at hlt
      refine DataPool.alert_of_step hacts (by simp) (by rw [hsig]; exact id) (hold' hlt)
        (fun _ => ?_) hunseen
      rcases hcause with rfl | rfl | ⟨rfl, -⟩
      · rcases hsafe hwoken with hfull | hspares | ⟨herror, -⟩
        · omega
        · exact hspares
        · exact absurd herror (by simp)
      · exact (hsafe hwoken).resolve_left (not_le.mpr hlt)
      · exact (hsafe hwoken).resolve_left (not_le.mpr hlt)
  | limited t m hacts hasleep hcause hn hmax hsig =>
      rw [hcause] at hsafe
      rw [hn, hmax] at hlt
      obtain ⟨hwait, halert⟩ := hunseen
      rcases hsafe with hfull | hall | hon
      · omega
      · obtain ⟨t', -, ht'⟩ := hacts.waits (by simp) hwait
        exact hall t' ht'
      · exact halert ((hon.but hasleep).alert hacts (by rw [hsig]; exact id))

end

namespace DataPool

variable {θ α : Type*}

theorem init_plain : (init : DataPool θ α).Plain :=
  ⟨fun _ ht => absurd ht (by simp [init]), by simp [init], by simp [init]⟩

theorem init_not_unseen (k : PoolKind) (hk : k ≠ .other) : ¬(init : DataPool θ α).Unseen k := by
  rintro ⟨⟨t, ht⟩, -⟩
  exact hk ht.symm

variable [DecidableEq θ] {s s' : DataPool θ α}

/-- The transitions of a run that leaves no reader behind. -/
def ReaderStep (s s' : DataPool θ α) : Prop :=
  ∃ op : PoolOp θ α, op.KeepsReaders s ∧ s.step op = some s'

/-- The transitions of a run that leaves no writer behind. -/
def WriterStep (s s' : DataPool θ α) : Prop :=
  ∃ op : PoolOp θ α, op.KeepsWriters s ∧ s.step op = some s'

/-- Whatever the number of threads and their interleaving: as long as each woken thread that
goes on is not the only one on the way while other readers wait and data are left, or
signals the event itself, no reader is stranded. -/
theorem safe_run_no_strandedReader
    (hrun : Relation.ReflTransGen ReaderStep (init : DataPool θ α) s) : ¬s.StrandedReader := by
  have hinv : s.Running ∧ ¬s.StrandedReader := by
    refine inv_of_reach (I := fun s : DataPool θ α => s.Running ∧ ¬s.StrandedReader) ?_ ?_ hrun
    · rintro s s' ⟨op, hsafe, hstep⟩ ⟨hrunning, hold⟩
      obtain ⟨hrunning', hchange⟩ := hrunning.step hstep
      exact ⟨hrunning', hchange.not_strandedReader hsafe hold⟩
    · exact ⟨init_plain.running, fun h => init_not_unseen .getWait (by simp) h.2⟩
  exact hinv.2

/-- A reader is woken up by an offer and takes it. -/
theorem safe_run_no_strandedReader_offer :
    ∃ s : DataPool ℕ ℕ, Relation.ReflTransGen ReaderStep init s ∧ s.returned = [[.other 7]] ∧
      ¬s.StrandedReader := by
  have hrun : Relation.ReflTransGen ReaderStep (init : DataPool ℕ ℕ) _ :=
    .tail (.tail (.tail (.tail (.tail (.tail .refl
      ⟨.vmEnter 0, trivial, rfl⟩)
      ⟨.get 0, trivial, rfl⟩)
      ⟨.vmEnter 1, trivial, rfl⟩)
      ⟨.put 1 [.other 7], trivial, rfl⟩)
      ⟨.getConsume 0, trivial, rfl⟩)
      ⟨.getResume 0 false, fun _ => Or.inl rfl, rfl⟩
  exact ⟨_, hrun, rfl, safe_run_no_strandedReader hrun⟩

/-- The readers `b` and `c` wait.  The writer `a` puts two tuples before a reader takes the
signal. -/
def coalescedOps {θ : Type} (a b c : θ) : List (PoolOp θ ℕ) :=
  [.vmEnter b, .get b, .vmEnter c, .get c, .vmEnter a, .put a [.other 1], .offerDone a,
    .put a [.other 2], .offerDone a, .vmLeave a, .getConsume b, .getResume b false]

/-- The first reader uses up the one signal for two tuples; the second one waits on. -/
theorem coalesced_signal_strands_reader :
    ∃ s : DataPool (Fin 3) ℕ, Relation.ReflTransGen Step init s ∧ s.StrandedReader := by
  have hrun : (runOps DataPool.step init (coalescedOps (0 : Fin 3) 1 2)).map
      (fun s => decide s.StrandedReader) = some true := by decide +kernel
  obtain ⟨s, hs, heq⟩ := Option.map_eq_some_iff.mp hrun
  exact ⟨s, reach_of_runOps (fun _ op _ hop => ⟨op, hop⟩) hs, of_decide_eq_true heq⟩

/-- The same for the writers: as long as each woken thread that goes on is not the only one
on the way while writers wait and there is room, or signals the event itself, no writer is
stranded. -/
theorem safe_run_no_strandedWriter
    (hrun : Relation.ReflTransGen WriterStep (init : DataPool θ α) s) : ¬s.StrandedWriter := by
  have hinv : s.Plain ∧ ¬s.StrandedWriter := by
    refine inv_of_reach (I := fun s : DataPool θ α => s.Plain ∧ ¬s.StrandedWriter) ?_ ?_ hrun
    · rintro s s' ⟨op, hsafe, hstep⟩ ⟨hplain, hold⟩
      obtain ⟨hplain', hchange⟩ := hplain.step hstep
      exact ⟨hplain', hchange.not_strandedWriter hplain hsafe hold⟩
    · exact ⟨init_plain, fun h => init_not_unseen .putWait (by simp) h.2⟩
  exact hinv.2

/-- A writer waits for room, and is woken up when there is some. -/
theorem safe_run_no_strandedWriter_room :
    ∃ s : DataPool (Fin 2) ℕ, Relation.ReflTransGen WriterStep init s ∧
      s.accepted = [[.other 1], [.other 2]] ∧ s.n = 1 ∧ ¬s.StrandedWriter := by
  have hrun : Relation.ReflTransGen WriterStep (init : DataPool (Fin 2) ℕ) _ :=
    .tail (.tail (.tail (.tail (.tail (.tail (.tail (.tail (.tail .refl
      ⟨.vmEnter 0, trivial, rfl⟩)
      ⟨.setMax 0 1, Or.inr (Or.inl (by decide)), rfl⟩)
      ⟨.put 0 [.other 1], trivial, rfl⟩)
      ⟨.put 0 [.other 2], trivial, rfl⟩)
      ⟨.vmEnter 1, trivial, rfl⟩)
      ⟨.get 1, trivial, rfl⟩)
      ⟨.vmLeave 1, trivial, rfl⟩)
      ⟨.putConsume 0, trivial, rfl⟩)
      ⟨.putResume 0 false, fun _ => Or.inr (Or.inr ⟨rfl, Or.inr (Or.inl rfl)⟩), rfl⟩
  exact ⟨_, hrun, rfl, rfl, safe_run_no_strandedWriter hrun⟩

/-- With a maximum of three tuples, the writers `b` and `c` wait for room.  The reader `a`
takes two tuples, and then `b` stores its own. -/
def leavingMaxOps {θ : Type} (a b c : θ) : List (PoolOp θ ℕ) :=
  [.vmEnter a, .setMax a 3, .put a [.other 1], .put a [.other 2], .put a [.other 3], .vmLeave a,
    .vmEnter b, .put b [.other 4], .vmEnter c, .put c [.other 5], .vmEnter a, .get a, .get a,
    .vmLeave a, .putConsume b, .putResume b false]

/-- Only the first of the two tuples taken has made the reader signal the event; the second
writer waits on, though there is room. -/
theorem leaving_max_once_strands_writer :
    ∃ s : DataPool (Fin 3) ℕ, Relation.ReflTransGen Step init s ∧ s.StrandedWriter := by
  have hrun : (runOps DataPool.step init (leavingMaxOps (0 : Fin 3) 1 2)).map
      (fun s => decide s.StrandedWriter) = some true := by decide +kernel
  obtain ⟨s, hs, heq⟩ := Option.map_eq_some_iff.mp hrun
  exact ⟨s, reach_of_runOps (fun _ op _ hop => ⟨op, hop⟩) hs, of_decide_eq_true heq⟩

end DataPool

end LuaSys.Thread
