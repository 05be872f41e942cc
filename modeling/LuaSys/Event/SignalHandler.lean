import LuaSys.Event.SignalList
import LuaSys.Lib.Activations
import LuaSys.Lib.Run

/-!
# The locks of the signal handler

`signal_handler` locks `g_Signal.cs`, and in `evq_signal` the lock `sig_cs` of a queue.  The
functions that the handler interrupts hold the same locks, which are not recursive, and no
signal is blocked meanwhile.  So a handler that interrupts its own thread in a critical section
of `g_Signal.cs` waits for ever, and so does one that interrupts a critical section of `sig_cs`
and finds an event of that queue.

With kqueue the handler does nothing; the model is for the other backends.  The disposition of
the signals is left out: the handler may run at any time.  An event is registered once, that
is, the memory of an event is a new event when it is used again.

## Main definitions

* `SigFrame` — an activation of one of the functions.
* `SigThreads`, `SigThreads.step` — the threads, the lists and the queues.
* `SigThreads.NoSelfDeadlock` — a handler does not wait for its own thread.
* `SigOp.Safe` — a delivery does not interrupt a critical section that the handler needs.

## Main results

* `safe_run_no_self_deadlock` — in a run of such deliveries no handler waits for its own
  thread.
* `handler_interrupts_signal_add` — a run in which one does.
-/

namespace LuaSys.Event

open LuaSys.Lib

/-- The lock `g_Signal.cs`, and the lock `sig_cs` of each queue. -/
inductive SigLock (κ : Type*)
  | global
  | queue (evq : κ)
  deriving DecidableEq

/-- Where `signal_handler` is. -/
inductive HandlerPc (ε : Type*)
  | start
  /-- In the loop, with the next event. -/
  | walk (ev : Option ε)

/-- Where `signal_process_actives` is. -/
inductive ActivesPc (ε : Type*)
  | start
  /-- In the critical section. -/
  | collect
  /-- In the second loop, with the rest of the events. -/
  | events (evNext : List ε)

/-- Where `signal_process_interrupt` is. -/
inductive InterruptPc
  | start
  /-- In the critical section. -/
  | take
  /-- In the loop, with the rest of the signals. -/
  | signals (sigReady : List SigNo)

/-- An activation.  Those of the other functions are either before or in their critical
section. -/
inductive SigFrame (ε κ : Type*)
  | handler (signo : SigNo) (pc : HandlerPc ε)
  | evqSignal (evq : κ) (signo : SigNo) (locked : Bool)
  | ignoreSignal (signo : SigNo) (ignore locked : Bool)
  | signalAdd (evq : κ) (ev : ε) (signo : SigNo) (locked : Bool)
  | signalDel (ev : ε) (signo : SigNo) (locked : Bool)
  | processActives (evq : κ) (signo : SigNo) (pc : ActivesPc ε)
  | processInterrupt (evq : κ) (pc : InterruptPc)

namespace SigFrame

variable {ε κ : Type*}

/-- The lock that the activation waits for. -/
def wants : SigFrame ε κ → Option (SigLock κ)
  | handler signo .start => (signalGethead signo).map fun _ => .global
  | evqSignal evq _ false => some (.queue evq)
  | ignoreSignal _ false false => some .global
  | signalAdd _ _ signo false => (signalGethead signo).map fun _ => .global
  | signalDel _ _ false => some .global
  | processActives _ _ .start => some .global
  | processInterrupt evq .start => some (.queue evq)
  | _ => none

/-- The lock that the activation holds. -/
def holds : SigFrame ε κ → Option (SigLock κ)
  | handler _ (.walk _) => some .global
  | evqSignal evq _ true => some (.queue evq)
  | ignoreSignal _ _ true => some .global
  | signalAdd _ _ _ true => some .global
  | signalDel _ _ true => some .global
  | processActives _ _ .collect => some .global
  | processInterrupt evq .take => some (.queue evq)
  | _ => none

/-- The activation has got its lock. -/
def enter (g : SignalEvents ε) : SigFrame ε κ → SigFrame ε κ
  | handler signo _ => handler signo (.walk ((signalGethead signo).bind g.events))
  | evqSignal evq signo _ => evqSignal evq signo true
  | ignoreSignal signo ignore _ => ignoreSignal signo ignore true
  | signalAdd evq ev signo _ => signalAdd evq ev signo true
  | signalDel ev signo _ => signalDel ev signo true
  | processActives evq signo _ => processActives evq signo .collect
  | processInterrupt evq _ => processInterrupt evq .take

/-- The activation runs for a handler: it is the handler, or the function that it calls. -/
def InHandler : List (SigFrame ε κ) → Prop
  | handler _ _ :: _ => True
  | evqSignal _ _ _ :: handler _ _ :: _ => True
  | _ => False

end SigFrame

/-- The threads, the signal events and the queues. -/
structure SigThreads (θ ε κ : Type*) where
  g : SignalEvents ε
  /-- The field `evq` of an event: null for one that is not registered. -/
  evq : ε → Option κ
  /-- The signal of an event: `EVQ_SIGCHLD` if it is for a process, else its `fd`. -/
  signo : ε → SigNo
  /-- The flag `EVENT_ONESHOT`. -/
  oneshot : ε → Bool
  /-- The flag `EVENT_ACTIVE`. -/
  active : ε → Bool
  sigReady : κ → SigNo → Bool
  threads : Activations θ (SigFrame ε κ) (SigLock κ)
  /-- Number of the events that were linked, which bounds the loops over the lists. -/
  nadds : ℕ

/-- The calls from outside. -/
inductive SigCall (ε κ : Type*)
  | evqSignal (evq : κ) (signo : SigNo)
  | ignoreSignal (signo : SigNo) (ignore : Bool)
  /-- `evq_add` for a signal event. -/
  | add (evq : κ) (ev : ε)
  /-- `evq_del` for a signal event. -/
  | del (ev : ε)
  /-- `signal_process_interrupt` in `evq_wait`. -/
  | processInterrupt (evq : κ)

/-- What can happen. -/
inductive SigOp (θ ε κ : Type*)
  /-- A thread that is in none of the functions calls one. -/
  | call (t : θ) (fn : SigCall ε κ)
  /-- A signal is delivered to a thread. -/
  | deliver (t : θ) (signo : SigNo)
  /-- The running activation of a thread takes a step; its system call, if it makes one, is
  successful or not. -/
  | run (t : θ) (success : Bool)
  /-- The loop of the queue takes an active event. -/
  | dispatch (ev : ε)

namespace SigThreads

variable {θ ε κ : Type*} [DecidableEq θ] [DecidableEq ε] [DecidableEq κ]

/-- The thread goes on with other activations. -/
def goto (s : SigThreads θ ε κ) (t : θ) (st : List (SigFrame ε κ)) : SigThreads θ ε κ :=
  { s with threads := s.threads.setStack t st }

/-- The thread unlocks and goes on. -/
def leave (s : SigThreads θ ε κ) (t : θ) (l : SigLock κ) (st : List (SigFrame ε κ)) :
    SigThreads θ ε κ :=
  { s with threads := s.threads.unlock t l st }

/-- `evq_del`: the event is marked as deleted, and `signal_del` is called. -/
def evqDel (s : SigThreads θ ε κ) (t : θ) (ev : ε) (st : List (SigFrame ε κ)) :
    Option (SigThreads θ ε κ) :=
  if (s.evq ev).isSome then
    some (goto { s with evq := Function.update s.evq ev none } t
      (.signalDel ev (s.signo ev) false :: st))
  else none

/-- The first loop of `signal_process_actives`: the events of the queue that are not active,
last first. -/
def collectEvents (s : SigThreads θ ε κ) (evq : κ) (i : ℕ) : List ε :=
  SignalEvents.foldEvents s.g.nextObject
    (fun evNext ev => if s.evq ev = some evq ∧ s.active ev = false then ev :: evNext else evNext)
    s.nadds (s.g.events i) []

/-- The signals that `signal_process_interrupt` finds in `sig_ready`, without `EVQ_SIGEVQ`. -/
def signals (sigReady : SigNo → Bool) : List SigNo :=
  [.hup, .int, .quit, .term, .chld].filter sigReady

/-- The running activation of a thread, over the others, takes a step that is not the
beginning of a critical section. -/
def body (s : SigThreads θ ε κ) (t : θ) (success : Bool) (st : List (SigFrame ε κ)) :
    SigFrame ε κ → Option (SigThreads θ ε κ)
  -- The signal has no list.
  | .handler _ .start => some (s.goto t st)
  | .handler _ (.walk none) => some (s.leave t .global st)
  -- The list is locked, so the link of the event stays while `evq_signal` runs.
  | .handler signo (.walk (some ev)) =>
      let f := .handler signo (.walk (s.g.nextObject ev))
      match s.evq ev with
      | none => some (s.goto t (f :: st))
      | some q => some (s.goto t (.evqSignal q signo false :: f :: st))
  | .evqSignal q signo _ =>
      some (leave { s with
        sigReady := Function.update s.sigReady q (Function.update (s.sigReady q) signo true) }
        t (.queue q) st)
  -- The signal is ignored, for which `signal_set` needs no lock.
  | .ignoreSignal _ _ false => some (s.goto t st)
  | .ignoreSignal _ _ true => some (s.leave t .global st)
  -- `signal_set` is called for the first event only.
  | .signalAdd q ev signo _ =>
      match signalGethead signo with
      | none => some (s.goto t st)
      | some i =>
          if (s.g.events i).isSome || success then
            some (leave { s with
              g := s.g.link i ev
              evq := Function.update s.evq ev (some q)
              nadds := s.nadds + 1 } t .global st)
          else some (s.leave t .global st)
  | .signalDel ev signo _ =>
      (signalGethead signo).bind fun i =>
        (s.g.unlink s.nadds i ev).map fun g => leave { s with g := g } t .global st
  | .processActives _ _ .start => none
  | .processActives q signo .collect =>
      (signalGethead signo).map fun i =>
        s.leave t .global (.processActives q signo (.events (s.collectEvents q i)) :: st)
  | .processActives _ _ (.events []) => some (s.goto t st)
  -- `signal_process_child` fails, or `evq_process_active` marks the event.
  | .processActives q signo (.events (ev :: evNext)) =>
      let f := .processActives q signo (.events evNext)
      if (signo = .chld ∧ success = false) ∨ s.active ev = true then some (s.goto t (f :: st))
      else
        let s := { s with active := Function.update s.active ev true }
        if s.oneshot ev then s.evqDel t ev (f :: st) else some (s.goto t (f :: st))
  | .processInterrupt _ .start => none
  | .processInterrupt q .take =>
      some (leave { s with sigReady := Function.update s.sigReady q fun _ => false } t (.queue q)
        (.processInterrupt q (.signals (signals (s.sigReady q))) :: st))
  | .processInterrupt _ (.signals []) => some (s.goto t st)
  | .processInterrupt q (.signals (signo :: sigReady)) =>
      some (s.goto t (.processActives q signo .start :: .processInterrupt q (.signals sigReady) ::
        st))

/-- The running activation takes a step: it locks, when the lock is free, or goes on. -/
def runTop (s : SigThreads θ ε κ) (t : θ) (success : Bool) (f : SigFrame ε κ)
    (st : List (SigFrame ε κ)) : Option (SigThreads θ ε κ) :=
  match f.wants with
  | some l =>
      if s.threads.owner l = none then
        some { s with threads := s.threads.lock t l (f.enter s.g :: st) }
      else none
  | none => s.body t success st f

/-- A function is called. -/
def call (s : SigThreads θ ε κ) (t : θ) : SigCall ε κ → Option (SigThreads θ ε κ)
  | .evqSignal q signo => some (s.goto t [.evqSignal q signo false])
  | .ignoreSignal signo ignore => some (s.goto t [.ignoreSignal signo ignore false])
  | .add q ev =>
      if s.evq ev = none then some (s.goto t [.signalAdd q ev (s.signo ev) false]) else none
  | .del ev => s.evqDel t ev []
  | .processInterrupt q => some (s.goto t [.processInterrupt q .start])

/-- One step; `none` when it does not apply. -/
def step (s : SigThreads θ ε κ) : SigOp θ ε κ → Option (SigThreads θ ε κ)
  | .call t fn =>
      match s.threads.stack t with
      | [] => s.call t fn
      | _ :: _ => none
  | .deliver t signo => some (s.goto t (.handler signo .start :: s.threads.stack t))
  | .run t success =>
      match s.threads.stack t with
      | [] => none
      | f :: st => s.runTop t success f st
  | .dispatch ev =>
      if s.active ev = true then some { s with active := Function.update s.active ev false }
      else none

/-- No events are registered and no function is running. -/
def init (signo : ε → SigNo) (oneshot : ε → Bool) : SigThreads θ ε κ where
  g := .init
  evq _ := none
  signo := signo
  oneshot := oneshot
  active _ := false
  sigReady _ _ := false
  threads := .init
  nadds := 0

/-- An attempt of a handler to lock what its own thread holds. -/
def NoSelfDeadlock (s : SigThreads θ ε κ) : Prop :=
  ∀ t f st l, s.threads.stack t = f :: st → SigFrame.InHandler (f :: st) → f.wants = some l →
    s.threads.owner l ≠ some t

end SigThreads

/-- The queue has a registered event for the signal. -/
def HasEvent {ε κ : Type*} (evq : ε → Option κ) (signoOf : ε → SigNo) (q : κ) (signo : SigNo) :
    Prop :=
  ∃ ev, evq ev = some q ∧ signoOf ev = signo

/-- A handler with a list to lock does not interrupt a critical section of `g_Signal.cs`, nor
one of a queue that has an event for the signal; and `signal_add` does not link the first such
event while a handler that interrupts the queue waits for the list. -/
def SigOp.Safe {θ ε κ : Type*} (s : SigThreads θ ε κ) : SigOp θ ε κ → Prop
  | .deliver t signo => signalGethead signo = none ∨ (s.threads.owner .global ≠ some t ∧
      ∀ q, s.threads.owner (.queue q) = some t → ¬HasEvent s.evq s.signo q signo)
  | .run t _ => ∀ q ev signo st, s.threads.stack t = .signalAdd q ev signo true :: st →
      ∀ u, s.threads.owner (.queue q) = some u → .handler signo .start ∉ s.threads.stack u
  | _ => True

/-- What an activation may still lock, itself or in a function that it calls. -/
def SigFrame.MayLock {ε κ : Type*} (evq : ε → Option κ) (signoOf : ε → SigNo) :
    SigFrame ε κ → SigLock κ → Prop
  | handler signo .start, .global => signalGethead signo ≠ none
  | handler _ (.walk _), .global => False
  | handler signo _, .queue q => signalGethead signo ≠ none ∧ HasEvent evq signoOf q signo
  | evqSignal q _ locked, l => locked = false ∧ l = .queue q
  | processInterrupt q _, l => l = .global ∨ l = .queue q
  | _, l => l = .global

namespace SigThreads

/-! ## The invariant -/

section

variable {θ ε κ : Type*}

/-- A handler goes along the list of its signal, and `signal_add` links an event into the
list of its signal. -/
def FrameOk (signoOf : ε → SigNo) : SigFrame ε κ → Prop
  | .handler signo (.walk p) =>
      signalGethead signo ≠ none ∧ ∀ ev, p = some ev → signoOf ev = signo
  | .signalAdd _ ev signo locked =>
      signoOf ev = signo ∧ (locked = true → signalGethead signo ≠ none)
  | _ => True

/-- The activations are in order, and the lists have the events of their signals. -/
structure Inv (s : SigThreads θ ε κ) : Prop where
  wf : s.threads.Wf SigFrame.holds (SigFrame.MayLock s.evq s.signo)
  head : ∀ i ev, s.g.events i = some ev → signalGethead (s.signo ev) = some i
  next : ∀ ev ev', s.g.nextObject ev = some ev' → s.signo ev' = s.signo ev
  frames : ∀ t, ∀ f ∈ s.threads.stack t, FrameOk s.signo f

variable {s s' : SigThreads θ ε κ} {t u : θ} {q : κ} {ev : ε} {signo : SigNo} {i : ℕ}
  {l : SigLock κ} {f f' c : SigFrame ε κ} {st : List (SigFrame ε κ)} {success : Bool}

theorem inv_init (signo : ε → SigNo) (oneshot : ε → Bool) :
    (init signo oneshot : SigThreads θ ε κ).Inv := by
  refine ⟨Activations.wf_init, fun i ev hev => ?_, fun ev ev' hev => ?_, fun t f hf => ?_⟩
  · exact absurd hev (by simp [init, SignalEvents.init])
  · exact absurd hev (by simp [init, SignalEvents.init])
  · exact absurd hf List.not_mem_nil

/-- The activations that wait for a lock. -/
inductive Waits : SigFrame ε κ → SigLock κ → Prop
  | handler {signo : SigNo} {i : ℕ} (hi : signalGethead signo = some i) :
      Waits (.handler signo .start) .global
  | evqSignal (q : κ) (signo : SigNo) : Waits (.evqSignal q signo false) (.queue q)
  | ignoreSignal (signo : SigNo) : Waits (.ignoreSignal signo false false) .global
  | signalAdd (q : κ) (ev : ε) {signo : SigNo} {i : ℕ} (hi : signalGethead signo = some i) :
      Waits (.signalAdd q ev signo false) .global
  | signalDel (ev : ε) (signo : SigNo) : Waits (.signalDel ev signo false) .global
  | processActives (q : κ) (signo : SigNo) : Waits (.processActives q signo .start) .global
  | processInterrupt (q : κ) : Waits (.processInterrupt q .start) (.queue q)

theorem waits_of_wants (h : f.wants = some l) : Waits f l := by
  unfold SigFrame.wants at h
  split at h
  · next signo =>
      obtain ⟨i, hi, rfl⟩ := Option.map_eq_some_iff.mp h
      exact .handler hi
  · next q signo => exact Option.some.inj h ▸ .evqSignal q signo
  · next signo => exact Option.some.inj h ▸ .ignoreSignal signo
  · next q ev signo =>
      obtain ⟨i, hi, rfl⟩ := Option.map_eq_some_iff.mp h
      exact .signalAdd q ev hi
  · next ev signo => exact Option.some.inj h ▸ .signalDel ev signo
  · next q signo => exact Option.some.inj h ▸ .processActives q signo
  · next q => exact Option.some.inj h ▸ .processInterrupt q
  · exact absurd h (by simp)

/-- An activation that waits holds nothing. -/
theorem holds_of_wants (h : f.wants = some l) : f.holds = none := by
  cases waits_of_wants h <;> rfl

/-- What an activation waits for, it may lock. -/
theorem mayLock_of_wants {evq : ε → Option κ} {signoOf : ε → SigNo} (h : f.wants = some l) :
    f.MayLock evq signoOf l := by
  cases waits_of_wants h with
  | handler hi => simp [SigFrame.MayLock, hi]
  | evqSignal q signo => exact ⟨rfl, rfl⟩
  | processInterrupt q => exact Or.inr rfl
  | _ => rfl

/-- After it has got its lock, an activation holds it. -/
theorem holds_enter (g : SignalEvents ε) (h : f.wants = some l) : (f.enter g).holds = some l := by
  cases waits_of_wants h <;> rfl

/-- In its critical section an activation may lock no more than before. -/
theorem mayLock_of_enter {evq : ε → Option κ} {signoOf : ε → SigNo} {g : SignalEvents ε}
    (h : (f.enter g).MayLock evq signoOf l) : f.MayLock evq signoOf l := by
  cases f with
  | handler signo pc =>
      cases l with
      | global => exact absurd h not_false
      | queue q => cases pc <;> exact h
  | evqSignal q signo locked => exact absurd h.1 (by simp)
  | _ => exact h

/-- A handler finds the first event of its list. -/
theorem frameOk_enter {g : SignalEvents ε} {signoOf : ε → SigNo}
    (hhead : ∀ i ev, g.events i = some ev → signalGethead (signoOf ev) = some i)
    (h : f.wants = some l) (hok : FrameOk signoOf f) : FrameOk signoOf (f.enter g) := by
  cases waits_of_wants h with
  | handler hi =>
      refine ⟨by simp [hi], fun ev hev => ?_⟩
      rw [hi] at hev
      exact signalGethead_inj (hhead _ ev hev) hi
  | signalAdd q ev hi => exact ⟨hok.1, fun _ => by simp [hi]⟩
  | _ => exact trivial

/-- No thread waits for itself. -/
theorem Inv.noSelfDeadlock (h : s.Inv) : s.NoSelfDeadlock := by
  intro t f st l hst _ hwants
  exact h.wf.owner_ne hst (mayLock_of_wants hwants) (by simp [holds_of_wants hwants])

/-! ## Data -/

/-- The flags of the events and the bits of the queues do not matter. -/
theorem Inv.marks (h : s.Inv) (active : ε → Bool) (sigReady : κ → SigNo → Bool) :
    Inv { s with active := active, sigReady := sigReady } :=
  ⟨h.wf, h.head, h.next, h.frames⟩

/-- What the activations may lock shrinks when an event is marked as deleted. -/
theorem MayLock.of_update [DecidableEq ε] {evq : ε → Option κ} {signoOf : ε → SigNo}
    (h : f.MayLock (Function.update evq ev none) signoOf l) : f.MayLock evq signoOf l := by
  have hevent : ∀ q signo, HasEvent (Function.update evq ev none) signoOf q signo →
      HasEvent evq signoOf q signo := by
    rintro q signo ⟨e, he, hs⟩
    by_cases hne : e = ev
    · subst hne
      exact absurd he (by simp)
    · exact ⟨e, by rwa [Function.update_of_ne hne] at he, hs⟩
  cases f with
  | handler signo pc =>
      cases l with
      | global => cases pc <;> exact h
      | queue q => cases pc <;> exact ⟨h.1, hevent q signo h.2⟩
  | _ => exact h

theorem Inv.unregister [DecidableEq ε] (h : s.Inv) (ev : ε) :
    Inv { s with evq := Function.update s.evq ev none } :=
  ⟨h.wf.mono fun _ _ _ _ _ _ hmay _ => MayLock.of_update hmay, h.head, h.next, h.frames⟩

/-- The event found by the loop of `signal_del` is the one before the event. -/
theorem nextObject_of_findBefore [DecidableEq ε] {next : ε → Option ε} {p : Option ε} {fuel : ℕ}
    {a : ε} (h : SignalEvents.findBefore next ev fuel p = some a) : next a = some ev := by
  induction fuel generalizing p with
  | zero => simp [SignalEvents.findBefore] at h
  | succ fuel ih =>
      cases p with
      | none => simp [SignalEvents.findBefore] at h
      | some b =>
          by_cases hb : next b = some ev
          · obtain rfl : b = a := by simpa [SignalEvents.findBefore, hb] using h
            exact hb
          · exact ih (by simpa [SignalEvents.findBefore, hb] using h)

/-- The links around an event that is taken out have its signal. -/
theorem Inv.unlink [DecidableEq ε] (h : s.Inv) {g : SignalEvents ε} {fuel : ℕ}
    (hg : s.g.unlink fuel i ev = some g) : Inv { s with g := g } := by
  unfold SignalEvents.unlink at hg
  split at hg
  · next hhead =>
      obtain rfl := Option.some.inj hg
      refine ⟨h.wf, fun j e he => ?_, h.next, h.frames⟩
      by_cases hj : j = i
      · subst hj
        dsimp only at he
        rw [Function.update_self] at he
        rw [h.next ev e he]
        exact h.head j ev hhead
      · exact h.head j e (by simpa only [Function.update_of_ne hj] using he)
  · obtain ⟨a, ha, rfl⟩ := Option.map_eq_some_iff.mp hg
    have hnext := nextObject_of_findBefore ha
    refine ⟨h.wf, h.head, fun e e' he => ?_, h.frames⟩
    by_cases hea : e = a
    · subst hea
      dsimp only at he
      rw [Function.update_self] at he
      rw [h.next ev e' he, h.next e ev hnext]
    · exact h.next e e' (by simpa only [Function.update_of_ne hea] using he)

/-- A new event of a queue, if no handler for its signal interrupts the queue. -/
theorem Inv.link [DecidableEq ε] (h : s.Inv) (hi : signalGethead (s.signo ev) = some i)
    (hnone : ∀ u pc, s.threads.owner (.queue q) = some u →
      .handler (s.signo ev) pc ∉ s.threads.stack u) (nadds : ℕ) :
    Inv { s with
      g := s.g.link i ev
      evq := Function.update s.evq ev (some q)
      nadds := nadds } := by
  refine ⟨h.wf.mono fun u f hf f' hf' l hmay hl => ?_, fun j e he => ?_, fun e e' he => ?_,
    h.frames⟩
  · have hevent : ∀ q' signo pc, .handler signo pc ∈ s.threads.stack u →
        s.threads.owner (.queue q') = some u →
        HasEvent (Function.update s.evq ev (some q)) s.signo q' signo →
        HasEvent s.evq s.signo q' signo := by
      rintro q' signo pc hmem howner ⟨e, he, rfl⟩
      by_cases hne : e = ev
      · subst hne
        rw [Function.update_self] at he
        obtain rfl := Option.some.inj he
        exact absurd hmem (hnone u pc howner)
      · exact ⟨e, by rwa [Function.update_of_ne hne] at he, rfl⟩
    have howner := h.wf.owner_of_mem hf' hl
    cases f with
    | handler signo pc =>
        cases l with
        | global => cases pc <;> exact hmay
        | queue q' => cases pc <;> exact ⟨hmay.1, hevent q' signo _ hf howner hmay.2⟩
    | _ => exact hmay
  · by_cases hj : j = i
    · subst hj
      obtain rfl : ev = e := by simpa [SignalEvents.link] using he
      exact hi
    · exact h.head j e (by simpa only [SignalEvents.link, Function.update_of_ne hj] using he)
  · by_cases hne : e = ev
    · subst hne
      have hhead : s.g.events i = some e' := by simpa [SignalEvents.link] using he
      exact signalGethead_inj (h.head i e' hhead) hi
    · exact h.next e e' (by simpa only [SignalEvents.link, Function.update_of_ne hne] using he)

/-! ## Activations -/

/-- The functions below the running one, and the running one later on. -/
theorem Inv.frames_goto (h : s.Inv) (hst : s.threads.stack t = f :: st)
    (hf' : FrameOk s.signo f') : ∀ g ∈ f' :: st, FrameOk s.signo g := by
  intro g hg
  rcases List.mem_cons.mp hg with rfl | hg
  · exact hf'
  · exact h.frames t g (hst ▸ List.mem_cons_of_mem f hg)

theorem Inv.below (h : s.Inv) (hst : s.threads.stack t = f :: st) :
    Activations.Below SigFrame.holds (SigFrame.MayLock s.evq s.signo) (f :: st) :=
  hst ▸ h.wf.below t

variable [DecidableEq θ]

theorem forall_mem_update {P : SigFrame ε κ → Prop} {stack : θ → List (SigFrame ε κ)}
    (h : ∀ u, ∀ f ∈ stack u, P f) (hst : ∀ f ∈ st, P f) :
    ∀ u, ∀ f ∈ Function.update stack t st u, P f := by
  intro u f hf
  by_cases hu : u = t
  · subst hu
    exact hst f (by rwa [Function.update_self] at hf)
  · exact h u f (by rwa [Function.update_of_ne hu] at hf)

/-- A thread goes on with other activations that hold the same locks. -/
theorem Inv.setStack (h : s.Inv)
    (hheld : st.filterMap SigFrame.holds = (s.threads.stack t).filterMap SigFrame.holds)
    (hst : Activations.Below SigFrame.holds (SigFrame.MayLock s.evq s.signo) st)
    (hok : ∀ f ∈ st, FrameOk s.signo f) : (s.goto t st).Inv :=
  ⟨h.wf.setStack hheld hst, h.head, h.next, forall_mem_update h.frames hok⟩

/-- The running activation returns. -/
theorem Inv.ret (h : s.Inv) (hst : s.threads.stack t = f :: st) (hf : f.holds = none) :
    (s.goto t st).Inv := by
  refine h.setStack ?_ (h.below hst).tail fun g hg => h.frames t g (hst ▸ List.mem_cons_of_mem f hg)
  rw [hst, List.filterMap_cons_none hf]

/-- The running activation goes on. -/
theorem Inv.goto (h : s.Inv) (hst : s.threads.stack t = f :: st) (hheld : f'.holds = f.holds)
    (hmay : ∀ l, f'.MayLock s.evq s.signo l → f.MayLock s.evq s.signo l)
    (hf' : FrameOk s.signo f') : (s.goto t (f' :: st)).Inv := by
  refine h.setStack ?_ ((h.below hst).goto hmay) (h.frames_goto hst hf')
  rw [hst, List.filterMap_cons, List.filterMap_cons, hheld]

/-- The running activation calls a function. -/
theorem Inv.call (h : s.Inv) (hst : s.threads.stack t = f :: st) (hc : c.holds = none)
    (hmay : ∀ l, c.MayLock s.evq s.signo l → f.MayLock s.evq s.signo l ∧ f.holds ≠ some l)
    (hok : FrameOk s.signo c) : (s.goto t (c :: f :: st)).Inv := by
  refine h.setStack ?_ ((h.below hst).call (fun l hl => (hmay l hl).1) fun l hl => (hmay l hl).2) ?_
  · rw [hst, List.filterMap_cons_none hc]
  · intro g hg
    rcases List.mem_cons.mp hg with rfl | hg
    · exact hok
    · exact h.frames t g (hst ▸ hg)

/-- The running activation goes on and calls a function. -/
theorem Inv.goto_call (h : s.Inv) (hst : s.threads.stack t = f :: st) (hheld : f'.holds = f.holds)
    (hmay' : ∀ l, f'.MayLock s.evq s.signo l → f.MayLock s.evq s.signo l)
    (hf' : FrameOk s.signo f') (hc : c.holds = none)
    (hmay : ∀ l, c.MayLock s.evq s.signo l → f'.MayLock s.evq s.signo l ∧ f'.holds ≠ some l)
    (hok : FrameOk s.signo c) : (s.goto t (c :: f' :: st)).Inv := by
  have hgoto : (s.goto t (f' :: st)).threads.stack t = f' :: st := Function.update_self ..
  have hcall := (h.goto hst hheld hmay' hf').call hgoto hc hmay hok
  simpa only [SigThreads.goto, Activations.setStack, Function.update_idem] using hcall

/-- A function is called by a thread that is in none of them. -/
theorem Inv.start (h : s.Inv) (hst : s.threads.stack t = []) (hf : f.holds = none)
    (hok : FrameOk s.signo f) : (s.goto t [f]).Inv := by
  refine h.setStack ?_ Activations.below_singleton fun g hg => ?_
  · rw [hst, List.filterMap_cons_none hf]
  · exact List.mem_singleton.mp hg ▸ hok

/-- The handler interrupts a thread. -/
theorem Inv.deliver (h : s.Inv) (hsafe : (SigOp.deliver t signo : SigOp θ ε κ).Safe s) :
    (s.goto t (.handler signo .start :: s.threads.stack t)).Inv := by
  have hbelow : Activations.Below SigFrame.holds (SigFrame.MayLock s.evq s.signo)
      (.handler signo .start :: s.threads.stack t) := by
    refine List.pairwise_cons.mpr ⟨fun f hf l hl hheld => ?_, h.wf.below t⟩
    have howner := h.wf.owner_of_mem hf hheld
    cases l with
    | global =>
        rcases hsafe with hunknown | ⟨hglobal, -⟩
        · exact hl hunknown
        · exact hglobal howner
    | queue q =>
        rcases hsafe with hunknown | ⟨-, hqueue⟩
        · exact hl.1 hunknown
        · exact hqueue q howner hl.2
  refine h.setStack ?_ hbelow fun f hf => ?_
  · rw [List.filterMap_cons_none rfl]
  · rcases List.mem_cons.mp hf with rfl | hf
    · exact trivial
    · exact h.frames t f hf

/-- `evq_del` is called by `signal_process_actives`. -/
theorem Inv.evqDel_call [DecidableEq ε] (h : s.Inv) (hst : s.threads.stack t = f :: st)
    {evNext evNext' : List ε} (hf : f = .processActives q signo (.events evNext))
    (hs : s.evqDel t ev (.processActives q signo (.events evNext') :: st) = some s') : s'.Inv := by
  obtain ⟨-, hs⟩ := Option.ite_none_right_eq_some.mp hs
  subst hf
  rw [← Option.some.inj hs]
  exact (h.unregister ev).goto_call hst rfl (fun l hl => hl) trivial rfl
    (fun l hl => ⟨hl, by simp [SigFrame.holds]⟩) trivial

variable [DecidableEq κ]

/-- The running activation unlocks and returns. -/
theorem Inv.unlock_ret (h : s.Inv) (hst : s.threads.stack t = f :: st) (hf : f.holds = some l) :
    (s.leave t l st).Inv := by
  refine ⟨h.wf.unlock ?_ (h.below hst).tail, h.head, h.next, forall_mem_update h.frames
    fun g hg => h.frames t g (hst ▸ List.mem_cons_of_mem f hg)⟩
  rw [hst, List.filterMap_cons_some hf]

/-- The running activation unlocks and goes on. -/
theorem Inv.unlock_goto (h : s.Inv) (hst : s.threads.stack t = f :: st) (hf : f.holds = some l)
    (hf' : f'.holds = none) (hmay : ∀ l, f'.MayLock s.evq s.signo l → f.MayLock s.evq s.signo l)
    (hok : FrameOk s.signo f') : (s.leave t l (f' :: st)).Inv := by
  refine ⟨h.wf.unlock ?_ ((h.below hst).goto hmay), h.head, h.next,
    forall_mem_update h.frames (h.frames_goto hst hok)⟩
  rw [hst, List.filterMap_cons_some hf, List.filterMap_cons_none hf']

/-- The running activation gets the lock it waits for. -/
theorem Inv.enter (h : s.Inv) (hst : s.threads.stack t = f :: st) (hf : f.wants = some l)
    (hfree : s.threads.owner l = none) :
    Inv { s with threads := s.threads.lock t l (f.enter s.g :: st) } := by
  have hok := frameOk_enter h.head hf (h.frames t f (hst ▸ List.mem_cons_self))
  refine ⟨h.wf.lock hfree ?_ ((h.below hst).goto fun l hl => mayLock_of_enter hl), h.head, h.next,
    forall_mem_update h.frames (h.frames_goto hst hok)⟩
  rw [hst, List.filterMap_cons_some (holds_enter s.g hf),
    List.filterMap_cons_none (holds_of_wants hf)]

variable [DecidableEq ε]

/-- The handler goes on to the next event. -/
theorem Inv.walk (h : s.Inv) (hst : s.threads.stack t = .handler signo (.walk (some ev)) :: st)
    (hs : s.body t success st (.handler signo (.walk (some ev))) = some s') : s'.Inv := by
  obtain ⟨hknown, hsig⟩ := h.frames t _ (hst ▸ List.mem_cons_self)
  have hev : s.signo ev = signo := hsig ev rfl
  have hok : FrameOk s.signo (.handler signo (.walk (s.g.nextObject ev)) : SigFrame ε κ) :=
    ⟨hknown, fun e he => (h.next ev e he).trans hev⟩
  have hmay : ∀ l, SigFrame.MayLock s.evq s.signo (.handler signo (.walk (s.g.nextObject ev))) l →
      SigFrame.MayLock s.evq s.signo (.handler signo (.walk (some ev))) l := by
    intro l hl
    cases l with
    | global => exact hl
    | queue q => exact hl
  simp only [body] at hs
  cases hq : s.evq ev with
  | none =>
      simp only [hq] at hs
      exact Option.some.inj hs ▸ h.goto hst rfl hmay hok
  | some q =>
      simp only [hq] at hs
      refine Option.some.inj hs ▸ h.goto_call hst rfl hmay hok rfl ?_ trivial
      rintro l ⟨-, rfl⟩
      exact ⟨⟨hknown, ev, hq, hev⟩, by simp [SigFrame.holds]⟩

/-- `signal_add` links the event. -/
theorem Inv.add (h : s.Inv) (hst : s.threads.stack t = .signalAdd q ev signo true :: st)
    (hsafe : ∀ u, s.threads.owner (.queue q) = some u →
      .handler signo .start ∉ s.threads.stack u)
    (hs : s.body t success st (.signalAdd q ev signo true) = some s') : s'.Inv := by
  obtain ⟨rfl, hknown⟩ : FrameOk s.signo (.signalAdd q ev signo true) :=
    h.frames t _ (hst ▸ List.mem_cons_self)
  obtain ⟨i, hi⟩ := Option.ne_none_iff_exists'.mp (hknown rfl)
  simp only [body, hi] at hs
  split at hs
  · have hnone : ∀ u pc, s.threads.owner (.queue q) = some u →
        .handler (s.signo ev) pc ∉ s.threads.stack u := by
      intro u pc howner hmem
      cases pc with
      | start => exact hsafe u howner hmem
      | walk p => exact absurd (h.wf.eq_of_holds hst rfl hmem rfl) (by simp)
    exact Option.some.inj hs ▸ (h.link hi hnone (s.nadds + 1)).unlock_ret hst rfl
  · exact Option.some.inj hs ▸ h.unlock_ret hst rfl

/-- A step that does not begin a critical section. -/
theorem Inv.body (h : s.Inv) (hst : s.threads.stack t = f :: st) (hf : f.wants = none)
    (hsafe : (SigOp.run t success : SigOp θ ε κ).Safe s)
    (hs : s.body t success st f = some s') : s'.Inv := by
  cases f with
  | handler signo pc =>
      cases pc with
      | start => exact Option.some.inj hs ▸ h.ret hst rfl
      | walk p =>
          cases p with
          | none => exact Option.some.inj hs ▸ h.unlock_ret hst rfl
          | some ev => exact h.walk hst hs
  | evqSignal q signo locked =>
      cases locked with
      | false => exact absurd hf (by simp [SigFrame.wants])
      | true =>
          exact Option.some.inj hs ▸ (h.marks _ _).unlock_ret hst rfl
  | ignoreSignal signo ignore locked =>
      cases locked with
      | false => exact Option.some.inj hs ▸ h.ret hst rfl
      | true => exact Option.some.inj hs ▸ h.unlock_ret hst rfl
  | signalAdd q ev signo locked =>
      cases locked with
      | false =>
          have hunknown : signalGethead signo = none := Option.map_eq_none_iff.mp hf
          simp only [SigThreads.body, hunknown] at hs
          exact Option.some.inj hs ▸ h.ret hst rfl
      | true => exact h.add hst (hsafe q ev signo st hst) hs
  | signalDel ev signo locked =>
      cases locked with
      | false => exact absurd hf (by simp [SigFrame.wants])
      | true =>
          obtain ⟨i, -, hs⟩ := Option.bind_eq_some_iff.mp hs
          obtain ⟨g, hg, rfl⟩ := Option.map_eq_some_iff.mp hs
          exact (h.unlink hg).unlock_ret hst rfl
  | processActives q signo pc =>
      cases pc with
      | start => exact absurd hf (by simp [SigFrame.wants])
      | collect =>
          obtain ⟨i, -, rfl⟩ := Option.map_eq_some_iff.mp hs
          exact h.unlock_goto hst rfl rfl (fun l hl => hl) trivial
      | events evNext =>
          cases evNext with
          | nil => exact Option.some.inj hs ▸ h.ret hst rfl
          | cons ev evNext =>
              have hactive := h.marks (Function.update s.active ev true) s.sigReady
              simp only [SigThreads.body] at hs
              split at hs
              · exact Option.some.inj hs ▸ h.goto hst rfl (fun l hl => hl) trivial
              · split at hs
                · exact hactive.evqDel_call hst rfl hs
                · exact Option.some.inj hs ▸ hactive.goto hst rfl (fun l hl => hl) trivial
  | processInterrupt q pc =>
      cases pc with
      | start => exact absurd hf (by simp [SigFrame.wants])
      | take =>
          exact Option.some.inj hs ▸
            (h.marks _ _).unlock_goto hst rfl rfl (fun l hl => hl) trivial
      | signals sigReady =>
          cases sigReady with
          | nil => exact Option.some.inj hs ▸ h.ret hst rfl
          | cons signo sigReady =>
              exact Option.some.inj hs ▸ h.goto_call hst rfl (fun l hl => hl) trivial rfl
                (fun l hl => ⟨Or.inl hl, by simp [SigFrame.holds]⟩) trivial

/-- A step of the system in which a delivery is safe. -/
def SafeStep (s s' : SigThreads θ ε κ) : Prop := ∃ op, SigOp.Safe s op ∧ s.step op = some s'

omit [DecidableEq θ] [DecidableEq κ] [DecidableEq ε] in
theorem safe_run (hst : s.threads.stack t = f :: st)
    (hf : ∀ q ev signo, f ≠ .signalAdd q ev signo true) :
    (SigOp.run t success : SigOp θ ε κ).Safe s := by
  intro q ev signo st' hst'
  exact absurd (List.cons.inj (hst.symm.trans hst')).1 (hf q ev signo)

omit [DecidableEq θ] [DecidableEq κ] [DecidableEq ε] in
theorem safe_run_of_free (h : ∀ q, s.threads.owner (.queue q) = none) :
    (SigOp.run t success : SigOp θ ε κ).Safe s := by
  intro q ev signo st _ u howner
  exact absurd ((h q).symm.trans howner) (by simp)

omit [DecidableEq θ] [DecidableEq κ] [DecidableEq ε] in
theorem safe_deliver_of_free (h : ∀ l, s.threads.owner l = none) :
    (SigOp.deliver t signo : SigOp θ ε κ).Safe s :=
  Or.inr ⟨by simp [h], fun q howner => absurd ((h (.queue q)).symm.trans howner) (by simp)⟩

theorem Inv.step {op : SigOp θ ε κ} (h : s.Inv) (hsafe : op.Safe s) (hs : s.step op = some s') :
    s'.Inv := by
  cases op with
  | call t fn =>
      simp only [SigThreads.step] at hs
      split at hs
      · next hst =>
          cases fn with
          | evqSignal q signo => exact Option.some.inj hs ▸ h.start hst rfl trivial
          | ignoreSignal signo ignore =>
              exact Option.some.inj hs ▸ h.start hst rfl trivial
          | add q ev =>
              obtain ⟨-, hs⟩ := Option.ite_none_right_eq_some.mp hs
              exact Option.some.inj hs ▸ h.start hst rfl ⟨rfl, by simp⟩
          | del ev =>
              obtain ⟨-, hs⟩ := Option.ite_none_right_eq_some.mp hs
              exact Option.some.inj hs ▸ (h.unregister ev).start hst rfl trivial
          | processInterrupt q => exact Option.some.inj hs ▸ h.start hst rfl trivial
      · exact absurd hs (by simp)
  | deliver t signo => exact Option.some.inj hs ▸ h.deliver hsafe
  | run t success =>
      simp only [SigThreads.step] at hs
      split at hs
      · exact absurd hs (by simp)
      · next f st hst =>
          unfold runTop at hs
          split at hs
          · next l hf =>
              obtain ⟨hfree, hs⟩ := Option.ite_none_right_eq_some.mp hs
              exact Option.some.inj hs ▸ h.enter hst hf hfree
          · next hf => exact h.body hst hf hsafe hs
  | dispatch ev =>
      obtain ⟨-, hs⟩ := Option.ite_none_right_eq_some.mp hs
      exact Option.some.inj hs ▸ h.marks _ _

/-- **The handler does not wait for its own thread** in a run in which it interrupts no
critical section that it needs. -/
theorem safe_run_no_self_deadlock {signo : ε → SigNo} {oneshot : ε → Bool}
    {s : SigThreads θ ε κ} (hrun : Relation.ReflTransGen SafeStep (init signo oneshot) s) :
    s.NoSelfDeadlock := by
  have hinv : s.Inv :=
    inv_of_reach (fun _ _ ⟨_, hsafe, hop⟩ h => h.step hsafe hop) (inv_init signo oneshot) hrun
  exact hinv.noSelfDeadlock

end

/-- An event is registered, and then the handler sets the bit of its queue. -/
theorem safe_run_no_self_deadlock_idle :
    ∃ s : SigThreads Unit Unit Unit,
      Relation.ReflTransGen SafeStep (init (fun _ => .int) fun _ => false) s ∧
      s.threads.stack () = [.handler .int (.walk none)] ∧ s.sigReady () .int = true ∧
      s.NoSelfDeadlock := by
  have hcall : SafeStep (init (fun _ => .int) fun _ => false : SigThreads Unit Unit Unit) _ :=
    ⟨.call () (.add () ()), trivial, rfl⟩
  have hlock := (Relation.ReflTransGen.single hcall).tail
    ⟨.run () true, safe_run rfl nofun, rfl⟩
  have hadd := hlock.tail ⟨.run () true, safe_run_of_free fun _ => rfl, rfl⟩
  have hdeliver := hadd.tail
    ⟨.deliver () .int, safe_deliver_of_free fun l => by cases l <;> rfl, rfl⟩
  have hwalk := hdeliver.tail ⟨.run () true, safe_run rfl nofun, rfl⟩
  have hsignal := hwalk.tail ⟨.run () true, safe_run rfl nofun, rfl⟩
  have hrun := (hsignal.tail ⟨.run () true, safe_run rfl nofun, rfl⟩).tail
    ⟨.run () true, safe_run rfl nofun, rfl⟩
  exact ⟨_, hrun, rfl, rfl, safe_run_no_self_deadlock hrun⟩

/-- The handler interrupts `signal_add` in its critical section: it waits for the lock that its
own thread holds, and no step of the thread applies any more. -/
theorem handler_interrupts_signal_add :
    ∃ s : SigThreads Unit Unit Unit,
      runOps step (init (fun _ => .int) fun _ => false)
        [.call () (.add () ()), .run () true, .deliver () .int] = some s ∧
      s.threads.stack () = [.handler .int .start, .signalAdd () () .int true] ∧
      s.threads.owner .global = some () ∧ s.step (.run () true) = none ∧ ¬s.NoSelfDeadlock :=
  ⟨_, rfl, rfl, rfl, rfl, fun hno => hno () _ _ .global rfl trivial rfl rfl⟩

end SigThreads

end LuaSys.Event
