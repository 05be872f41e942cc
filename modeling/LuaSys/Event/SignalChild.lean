import LuaSys.Event.SignalList
import LuaSys.Lib.Run

/-!
# Exits of child processes

`evq:add_pid` registers an event for the exit of a child process.  The kernel tells of an exit
with `SIGCHLD`, once for all children that have exited meanwhile; the handler sets the bit of
`SIGCHLD` in `sig_ready` of every queue with such an event, and the next `evq_wait` of the
queue takes the bit and calls `waitpid` for each of its events.

The handler is installed with the first event, and removed with the last one.  Without it,
`SIGCHLD` is discarded, also one that is pending.  So nobody is told of a child that exits
before its event is registered: `signal_add` does not look whether it is still there.  Nor is
a second event for one child told of the exit, since `waitpid` succeeds only once.

The list of the events has the lock `g_Signal.cs`, and a queue belongs to one VM.  Its events
are registered, deleted and dispatched with the lock of the VM, and `evq_wait` has it while it
works on them, so these steps do not interleave with an `evq_wait` of the same queue; exits,
deliveries and the other queues do.

## Main definitions

* `ChildSignals`, `ChildOp`, `ChildSignals.step` — the events, the signal and the children.
* `ChildSignals.NoMissedExit` — an exit is reported, or will be.
* `ChildOp.Safe` — a registration is for a child that has no other event, and whose exit has
  not been signalled yet.

## Main results

* `safe_run_no_missed_exit` — a run of such registrations misses no exit.
* `exit_before_add_missed` — a run that does.
-/

namespace LuaSys.Event

open LuaSys.Lib

/-- The index of the list for `EVQ_SIGCHLD`. -/
def sigchldIdx : ℕ := 4

example : signalGethead .chld = some sigchldIdx := rfl

/-- The events for processes, the signal, and the processes. -/
structure ChildSignals (ε κ π : Type*) where
  g : SignalEvents ε
  /-- The field `evq` of an event: null for one that is not registered. -/
  evq : ε → Option κ
  /-- The field `fd` of an event. -/
  pid : ε → π
  /-- The flag `EVENT_ACTIVE`. -/
  active : ε → Bool
  /-- The bit of `EVQ_SIGCHLD` in `sig_ready`. -/
  sigReady : κ → Bool
  /-- The disposition of `SIGCHLD` is `signal_handler`, else `SIG_DFL`. -/
  handler : Bool
  /-- `SIGCHLD` is pending for the process. -/
  pending : Bool
  terminated : π → Bool
  /-- `waitpid` has returned the status of the child. -/
  reaped : π → Bool
  /-- The events that the running `evq_wait` of a queue has not yet looked at. -/
  todo : κ → List ε
  /-- Number of the calls of `signal_add`, which bounds the loops over the list. -/
  nadds : ℕ

/-- What can happen. -/
inductive ChildOp (ε κ π : Type*)
  /-- A child terminates. -/
  | exit (c : π)
  /-- `SIGCHLD` is delivered. -/
  | deliver
  /-- `evq:add_pid`. -/
  | add (evq : κ) (ev : ε) (c : π)
  /-- `timeout_process` finds that the event has timed out. -/
  | timeout (ev : ε)
  /-- The loop takes an active event: it is a oneshot one. -/
  | dispatch (ev : ε)
  /-- `evq:del`. -/
  | del (ev : ε)
  /-- `evq_wait` takes the bit and collects the events of its queue. -/
  | collect (evq : κ)
  /-- `evq_wait` looks at the next event. -/
  | process (evq : κ)

namespace ChildSignals

variable {ε κ π : Type*} [DecidableEq ε] [DecidableEq κ] [DecidableEq π]

/-- `signal_set` for `SIGCHLD`.  The default action is to ignore the signal, which discards a
pending one. -/
def signalSet (s : ChildSignals ε κ π) (handler : Bool) : ChildSignals ε κ π :=
  { s with handler := handler, pending := handler && s.pending }

/-- The body of the loop of `signal_handler`: `evq_signal` for an event that is not deleted. -/
def signalEvent (evq : ε → Option κ) (sigReady : κ → Bool) (ev : ε) : κ → Bool :=
  match evq ev with
  | none => sigReady
  | some q => Function.update sigReady q true

/-- `signal_handler`: the bit is set in the queues of the events. -/
def signalHandler (s : ChildSignals ε κ π) : ChildSignals ε κ π :=
  { s with
    sigReady := SignalEvents.foldEvents s.g.nextObject (signalEvent s.evq) s.nadds
      (s.g.events sigchldIdx) s.sigReady }

/-- `signal_add`. -/
def signalAdd (s : ChildSignals ε κ π) (evq : κ) (ev : ε) (c : π) : ChildSignals ε κ π :=
  let s' := if (s.g.events sigchldIdx).isSome then s else s.signalSet true
  { s' with
    g := s.g.link sigchldIdx ev
    evq := Function.update s.evq ev (some evq)
    pid := Function.update s.pid ev c
    nadds := s.nadds + 1 }

/-- `evq_del`: the event is marked as deleted, and unlinked by `signal_del`. -/
def evqDel (s : ChildSignals ε κ π) (ev : ε) : Option (ChildSignals ε κ π) :=
  (s.g.unlink s.nadds sigchldIdx ev).map fun g =>
    let s' := if s.g.events sigchldIdx = some ev ∧ s.g.nextObject ev = none then
      s.signalSet false else s
    { s' with g := g, evq := Function.update s.evq ev none }

/-- The first loop of `signal_process_actives`: the events of the queue that are not active,
last first. -/
def collectEvents (s : ChildSignals ε κ π) (evq : κ) : List ε :=
  SignalEvents.foldEvents s.g.nextObject
    (fun evNext ev => if s.evq ev = some evq ∧ s.active ev = false then ev :: evNext else evNext)
    s.nadds (s.g.events sigchldIdx) []

/-- `signal_process_child`: `waitpid` succeeds once for a child that has terminated. -/
def signalProcessChild (s : ChildSignals ε κ π) (ev : ε) : Option (ChildSignals ε κ π) :=
  if s.terminated (s.pid ev) = true ∧ s.reaped (s.pid ev) = false then
    some { s with reaped := Function.update s.reaped (s.pid ev) true }
  else none

/-- One pass of the second loop of `signal_process_actives`.  `evq_process_active` marks the
event and deletes it, for it is a oneshot one. -/
def processEvent (s : ChildSignals ε κ π) (ev : ε) : Option (ChildSignals ε κ π) :=
  match s.signalProcessChild ev with
  | none => some s
  | some s => evqDel { s with active := Function.update s.active ev true } ev

/-- One step; `none` when it does not apply. -/
def step (s : ChildSignals ε κ π) : ChildOp ε κ π → Option (ChildSignals ε κ π)
  | .exit c =>
      if s.terminated c = false then
        some { s with
          terminated := Function.update s.terminated c true
          pending := s.pending || s.handler }
      else none
  | .deliver =>
      if s.pending = true then some { s.signalHandler with pending := false } else none
  | .add q ev c =>
      if s.todo q = [] ∧ s.evq ev = none ∧ s.active ev = false then some (s.signalAdd q ev c)
      else none
  | .timeout ev =>
      (s.evq ev).bind fun q =>
        if s.todo q = [] then some { s with active := Function.update s.active ev true } else none
  | .dispatch ev =>
      if s.active ev = true then
        let s := { s with active := Function.update s.active ev false }
        match s.evq ev with
        | none => some s
        | some q => if s.todo q = [] then s.evqDel ev else none
      else none
  | .del ev => (s.evq ev).bind fun q => if s.todo q = [] then s.evqDel ev else none
  | .collect q =>
      if s.sigReady q = true ∧ s.todo q = [] then
        some { s with
          sigReady := Function.update s.sigReady q false
          todo := Function.update s.todo q (s.collectEvents q) }
      else none
  | .process q =>
      match s.todo q with
      | [] => none
      | ev :: evs => processEvent { s with todo := Function.update s.todo q evs } ev

/-- No events, and all children are running. -/
def init (pid : ε → π) : ChildSignals ε κ π where
  g := .init
  evq _ := none
  pid := pid
  active _ := false
  sigReady _ := false
  handler := false
  pending := false
  terminated _ := false
  reaped _ := false
  todo _ := []
  nadds := 0

/-- If the event is registered and its child has terminated, the event is active, or it will
be, because the signal is pending, or an `evq_wait` of the queue will look at the event, or is
going to do so right now. -/
def Reported (s : ChildSignals ε κ π) (ev : ε) : Prop :=
  ∀ q, s.evq ev = some q → s.terminated (s.pid ev) = true →
    s.active ev = true ∨ s.pending = true ∨ s.sigReady q = true ∨ ev ∈ s.todo q

/-- No exit of a child is missed. -/
def NoMissedExit (s : ChildSignals ε κ π) : Prop := ∀ ev, s.Reported ev

end ChildSignals

/-- The child of a new event has no other event, and it is running, or its exit is going to
be signalled to the queue. -/
def ChildOp.Safe {ε κ π : Type*} (s : ChildSignals ε κ π) : ChildOp ε κ π → Prop
  | .add q _ c => (∀ ev', s.evq ev' ≠ none → s.pid ev' ≠ c) ∧
      (s.terminated c = true → s.reaped c = false ∧ (s.pending = true ∨ s.sigReady q = true))
  | _ => True

namespace ChildSignals

/-! ## The invariant -/

section

variable {ε κ π : Type*}

/-- The registered events are those of the list. -/
structure Listed (s : ChildSignals ε κ π) (l : ℕ → List ε) : Prop where
  lists : s.g.Lists l
  others : ∀ i, i ≠ sigchldIdx → l i = []
  mem_iff : ∀ ev, ev ∈ l sigchldIdx ↔ s.evq ev ≠ none
  length_le : (l sigchldIdx).length ≤ s.nadds

/-- The events, the handler and the processes belong together. -/
structure Base (s : ChildSignals ε κ π) : Prop where
  listed : ∃ l, s.Listed l
  handler_iff : s.handler = true ↔ ∃ ev, s.evq ev ≠ none
  pending_handler : s.pending = true → s.handler = true
  /-- A child has one event. -/
  pid_inj : ∀ ev ev', s.evq ev ≠ none → s.evq ev' ≠ none → s.pid ev = s.pid ev' → ev = ev'
  not_reaped : ∀ ev, s.evq ev ≠ none → s.reaped (s.pid ev) = false
  terminated_of_reaped : ∀ c, s.reaped c = true → s.terminated c = true
  todo_evq : ∀ q, ∀ ev ∈ s.todo q, s.evq ev = some q
  todo_nodup : ∀ q, (s.todo q).Nodup

variable {s s' : ChildSignals ε κ π} {l : ℕ → List ε} {ev : ε} {q : κ} {c : π}

theorem Listed.path (h : s.Listed l) :
    Path some s.g.nextObject (s.g.events sigchldIdx) (l sigchldIdx) none :=
  h.lists.path sigchldIdx

/-- The list depends on its links and the registered events. -/
theorem Listed.congr (h : s.Listed l) (hg : s'.g = s.g) (he : s'.evq = s.evq)
    (hn : s'.nadds = s.nadds) : s'.Listed l :=
  ⟨hg ▸ h.lists, h.others, he ▸ h.mem_iff, hn ▸ h.length_le⟩

/-- The flag of an event and the bits of the queues do not matter. -/
theorem Base.marks (h : s.Base) (active : ε → Bool) (sigReady : κ → Bool) :
    Base { s with active := active, sigReady := sigReady } :=
  ⟨h.listed.imp fun _ hl => hl.congr rfl rfl rfl, h.handler_iff, h.pending_handler, h.pid_inj,
    h.not_reaped, h.terminated_of_reaped, h.todo_evq, h.todo_nodup⟩

/-- The loop of `signal_handler`. -/
theorem foldl_signalEvent [DecidableEq κ] (evq : ε → Option κ) (l : List ε) (ready : κ → Bool)
    (q : κ) : l.foldl (signalEvent evq) ready q = true ↔
      ready q = true ∨ ∃ ev ∈ l, evq ev = some q := by
  induction l generalizing ready with
  | nil => simp
  | cons a l ih =>
      rw [List.foldl_cons, ih, List.exists_mem_cons_iff, signalEvent]
      cases ha : evq a with
      | none => simp
      | some q' =>
          by_cases hq : q = q'
          · simp [hq]
          · simp [hq, Ne.symm hq]

/-- The first loop of `signal_process_actives`. -/
theorem foldl_collect (P : ε → Prop) [DecidablePred P] (l acc : List ε) :
    l.foldl (fun evNext ev => if P ev then ev :: evNext else evNext) acc =
      (l.filter P).reverse ++ acc := by
  induction l generalizing acc with
  | nil => rfl
  | cons a l ih =>
      rw [List.foldl_cons, ih]
      by_cases ha : P a
      · simp [ha]
      · simp [ha]

/-- What a state needs besides the events that are reported. -/
theorem base_init (pid : ε → π) : (init pid : ChildSignals ε κ π).Base where
  listed := ⟨fun _ => [], SignalEvents.lists_init, fun _ _ => rfl, by simp [init], Nat.le_refl 0⟩
  handler_iff := by simp [init]
  pending_handler := by simp [init]
  pid_inj := by simp [init]
  not_reaped := by simp [init]
  terminated_of_reaped := by simp [init]
  todo_evq := by simp [init]
  todo_nodup := by simp [init]

end

variable {ε κ π : Type*} {s s' : ChildSignals ε κ π} {ev : ε} {q : κ} {c : π}

/-- The handler sets the bits of the queues with registered events. -/
theorem Base.signalHandler [DecidableEq κ] (h : s.Base) (q : κ) :
    s.signalHandler.sigReady q = true ↔ s.sigReady q = true ∨ ∃ ev, s.evq ev = some q := by
  obtain ⟨l, hl⟩ := h.listed
  simp only [ChildSignals.signalHandler]
  rw [SignalEvents.foldEvents_eq hl.path hl.length_le, foldl_signalEvent]
  refine or_congr_right ⟨fun ⟨ev, _, hev⟩ => ⟨ev, hev⟩, fun ⟨ev, hev⟩ => ⟨ev, ?_, hev⟩⟩
  exact (hl.mem_iff ev).mpr (by simp [hev])

/-- The events that `evq_wait` looks at are those of its queue that are not active. -/
theorem Base.collectEvents [DecidableEq κ] (h : s.Base) (q : κ) :
    (s.collectEvents q).Nodup ∧
      ∀ ev, ev ∈ s.collectEvents q ↔ s.evq ev = some q ∧ s.active ev = false := by
  obtain ⟨l, hl⟩ := h.listed
  rw [ChildSignals.collectEvents, SignalEvents.foldEvents_eq hl.path hl.length_le, foldl_collect,
    List.append_nil, List.nodup_reverse]
  refine ⟨(hl.lists.nodup _).filter _, fun ev => ?_⟩
  rw [List.mem_reverse, List.mem_filter, hl.mem_iff, decide_eq_true_eq]
  exact ⟨fun hev => hev.2, fun hev => ⟨by simp [hev.1], hev⟩⟩

/-! ### Deletion -/

/-- What `evq_del` does: the event is no more registered, and the handler and a pending signal
go with the last one. -/
structure Deletes [DecidableEq ε] (s : ChildSignals ε κ π) (ev : ε) (s' : ChildSignals ε κ π) : Prop where
  base : s'.Base
  evq : s'.evq = Function.update s.evq ev none
  pid : s'.pid = s.pid
  active : s'.active = s.active
  sigReady : s'.sigReady = s.sigReady
  terminated : s'.terminated = s.terminated
  todo : s'.todo = s.todo
  pending : (∃ ev', s'.evq ev' ≠ none) → s'.pending = s.pending

theorem Base.evqDel [DecidableEq ε] (h : s.Base) (hev : s.evq ev ≠ none) (htodo : ∀ q, ev ∉ s.todo q)
    (hs : s.evqDel ev = some s') : s.Deletes ev s' := by
  obtain ⟨g, hg, rfl⟩ := Option.map_eq_some_iff.mp hs
  obtain ⟨l, hl⟩ := h.listed
  have hmem : ev ∈ l sigchldIdx := (hl.mem_iff ev).mpr hev
  obtain ⟨g', hg', hlists⟩ := hl.lists.exists_unlink hmem hl.length_le
  obtain rfl := Option.some.inj (hg.symm.trans hg')
  have hreg : ∀ e, Function.update s.evq ev none e ≠ none ↔ e ≠ ev ∧ s.evq e ≠ none := by
    intro e
    by_cases he : e = ev
    · simp [he]
    · simp [he]
  have hmem' : ∀ e, e ∈ (l sigchldIdx).erase ev ↔ Function.update s.evq ev none e ≠ none := by
    intro e
    rw [hreg, (hl.lists.nodup _).mem_erase_iff, hl.mem_iff]
  have hlast : s.g.events sigchldIdx = some ev ∧ s.g.nextObject ev = none ↔
      ¬∃ e, Function.update s.evq ev none e ≠ none := by
    rw [hl.lists.eq_singleton_iff]
    constructor
    · rintro heq ⟨e, he⟩
      have hin := (hmem' e).mpr he
      rw [heq, List.erase_cons_head] at hin
      exact absurd hin List.not_mem_nil
    · intro hno
      have hnil : (l sigchldIdx).erase ev = [] :=
        List.eq_nil_iff_forall_not_mem.mpr fun e he => hno ⟨e, (hmem' e).mp he⟩
      have hperm := List.perm_cons_erase hmem
      rw [hnil] at hperm
      exact List.perm_singleton.mp hperm
  have hbase : ∀ hd pd : Bool, (hd = true ↔ ∃ e, Function.update s.evq ev none e ≠ none) →
      (pd = true → hd = true) → Base
        { s with g := g, evq := Function.update s.evq ev none, handler := hd, pending := pd } := by
    intro hd pd hhd hpd
    refine ⟨⟨_, hlists, fun i hi => ?_, fun e => ?_, ?_⟩, hhd, hpd, fun a b ha hb => ?_, fun a ha => ?_,
      h.terminated_of_reaped, fun q e he => ?_, h.todo_nodup⟩
    · rw [Function.update_of_ne hi]
      exact hl.others i hi
    · rw [Function.update_self]
      exact hmem' e
    · rw [Function.update_self]
      exact Nat.le_trans List.length_erase_le hl.length_le
    · exact h.pid_inj a b ((hreg a).mp ha).2 ((hreg b).mp hb).2
    · exact h.not_reaped a ((hreg a).mp ha).2
    · have hne : e ≠ ev := by
        rintro rfl
        exact htodo q he
      exact (Function.update_of_ne hne ..).trans (h.todo_evq q e he)
  split_ifs with hcase
  · have hno := hlast.mp hcase
    exact ⟨hbase false false (iff_of_false (by simp) hno) (by simp), rfl, rfl, rfl, rfl, rfl, rfl,
      fun hex => absurd hex hno⟩
  · have hex := not_not.mp (mt hlast.mpr hcase)
    have hhandler : s.handler = true := h.handler_iff.mpr ⟨ev, hev⟩
    exact ⟨hbase s.handler s.pending (iff_of_true hhandler hex) h.pending_handler, rfl, rfl, rfl, rfl,
      rfl, rfl, fun _ => rfl⟩

/-- The other events are reported after a deletion as they were before. -/
theorem Deletes.noMissedExit [DecidableEq ε] (h : s.Deletes ev s') (hall : ∀ e, e ≠ ev → s.Reported e) :
    s'.NoMissedExit := by
  intro e q he hterm
  have hne : e ≠ ev := by
    rintro rfl
    rw [h.evq, Function.update_self] at he
    exact absurd he (by simp)
  have hpending := h.pending ⟨e, by simp [he]⟩
  rw [h.evq, Function.update_of_ne hne] at he
  rw [h.terminated, h.pid] at hterm
  rw [h.active, hpending, h.sigReady, h.todo]
  exact hall e hne q he hterm

/-! ### Registration -/

/-- A safe registration. -/
theorem Base.add [DecidableEq ε] (h : s.Base) (hev : s.evq ev = none) (hsafe : (ChildOp.add q ev c).Safe s) :
    (s.signalAdd q ev c).Base ∧ (s.signalAdd q ev c).pending = s.pending ∧
      (s.signalAdd q ev c).sigReady = s.sigReady := by
  obtain ⟨l, hl⟩ := h.listed
  have hfresh : ∀ j, ev ∉ l j := by
    intro j hmem
    by_cases hj : j = sigchldIdx
    · exact (hl.mem_iff ev).mp (hj ▸ hmem) hev
    · rw [hl.others j hj] at hmem
      exact absurd hmem List.not_mem_nil
  have hreg : ∀ e, Function.update s.evq ev (some q) e ≠ none ↔ e = ev ∨ s.evq e ≠ none := by
    intro e
    by_cases he : e = ev
    · simp [he]
    · simp [he]
  have hpid : ∀ e, s.evq e ≠ none → Function.update s.pid ev c e = s.pid e := fun e he =>
    Function.update_of_ne (by rintro rfl; exact he hev) ..
  have hbase : ∀ pd : Bool, Base
      { s with
        g := s.g.link sigchldIdx ev
        evq := Function.update s.evq ev (some q)
        pid := Function.update s.pid ev c
        handler := true
        pending := pd
        nadds := s.nadds + 1 } := by
    intro pd
    refine ⟨⟨_, hl.lists.link hfresh, fun i hi => ?_, fun e => ?_, ?_⟩, ?_, fun _ => rfl,
      fun a b ha hb hab => ?_, fun a ha => ?_, h.terminated_of_reaped, fun q' e he => ?_, h.todo_nodup⟩
    · rw [Function.update_of_ne hi]
      exact hl.others i hi
    · rw [Function.update_self, List.mem_cons, hl.mem_iff]
      exact (hreg e).symm
    · rw [Function.update_self]
      exact Nat.succ_le_succ hl.length_le
    · exact iff_of_true rfl ⟨ev, (hreg ev).mpr (Or.inl rfl)⟩
    · dsimp only at hab
      rcases (hreg a).mp ha with rfl | ha' <;> rcases (hreg b).mp hb with rfl | hb'
      · rfl
      · rw [Function.update_self, hpid b hb'] at hab
        exact absurd hab.symm (hsafe.1 b hb')
      · rw [Function.update_self, hpid a ha'] at hab
        exact absurd hab (hsafe.1 a ha')
      · rw [hpid a ha', hpid b hb'] at hab
        exact h.pid_inj a b ha' hb' hab
    · dsimp only
      rcases (hreg a).mp ha with rfl | ha
      · rw [Function.update_self]
        by_contra hreaped
        rw [Bool.not_eq_false] at hreaped
        have hfree := (hsafe.2 (h.terminated_of_reaped c hreaped)).1
        exact absurd (hreaped.symm.trans hfree) (by simp)
      · rw [hpid a ha]
        exact h.not_reaped a ha
    · have he' := h.todo_evq q' e he
      exact (Function.update_of_ne (by rintro rfl; simp [hev] at he') ..).trans he'
  have hhandler : (s.g.events sigchldIdx).isSome = true → s.handler = true := by
    intro hsome
    rw [hl.lists.head_eq] at hsome
    obtain ⟨e, he⟩ := Option.isSome_iff_exists.mp hsome
    exact h.handler_iff.mpr ⟨e, (hl.mem_iff e).mp (List.mem_of_mem_head? he)⟩
  simp only [signalAdd, signalSet]
  split_ifs with hhead
  · refine ⟨?_, rfl, rfl⟩
    have := hbase s.pending
    rwa [← hhandler hhead] at this
  · refine ⟨?_, Bool.true_and _, rfl⟩
    have := hbase (true && s.pending)
    exact this

/-! ### Steps -/

/-- What a run of safe registrations keeps. -/
structure Inv (s : ChildSignals ε κ π) : Prop where
  base : s.Base
  noMissedExit : s.NoMissedExit

/-- No `evq_wait` has an event of a queue without a running one to look at. -/
theorem Base.notMem_todo (h : s.Base) (hq : s.evq ev = some q) (htodo : s.todo q = []) (q' : κ) :
    ev ∉ s.todo q' := by
  intro hmem
  obtain rfl := Option.some.inj ((h.todo_evq q' ev hmem).symm.trans hq)
  rw [htodo] at hmem
  exact absurd hmem List.not_mem_nil

/-- An event of a queue without a running `evq_wait` is deleted. -/
theorem Inv.del [DecidableEq ε] (h : s.Inv) (hq : s.evq ev = some q) (htodo : s.todo q = [])
    (hs : s.evqDel ev = some s') : s'.Inv := by
  have hdel := h.base.evqDel (by simp [hq]) (h.base.notMem_todo hq htodo) hs
  exact ⟨hdel.base, hdel.noMissedExit fun e _ => h.noMissedExit e⟩

theorem Inv.exit [DecidableEq π] (h : s.Inv) (c : π) :
    Inv { s with
      terminated := Function.update s.terminated c true
      pending := s.pending || s.handler } := by
  obtain ⟨hbase, -⟩ := h
  refine ⟨⟨hbase.listed.imp fun _ hl => hl.congr rfl rfl rfl, hbase.handler_iff, fun hp => ?_,
    hbase.pid_inj, hbase.not_reaped, fun c' hc' => ?_, hbase.todo_evq, hbase.todo_nodup⟩,
    fun e q he _ => ?_⟩
  · rcases (Bool.or_eq_true _ _).mp hp with hp | hp
    · exact hbase.pending_handler hp
    · exact hp
  · dsimp only
    by_cases hcc : c' = c
    · rw [hcc, Function.update_self]
    · rw [Function.update_of_ne hcc]
      exact hbase.terminated_of_reaped c' hc'
  · -- The handler is there for a registered event, so the signal is pending now.
    have hhandler : s.handler = true := hbase.handler_iff.mpr ⟨e, by rw [he]; simp⟩
    exact Or.inr (Or.inl (by simp [hhandler]))

theorem Inv.deliver [DecidableEq κ] (h : s.Inv) : Inv { s.signalHandler with pending := false } := by
  obtain ⟨hbase, -⟩ := h
  refine ⟨⟨hbase.listed.imp fun _ hl => hl.congr rfl rfl rfl, hbase.handler_iff, by simp,
    hbase.pid_inj, hbase.not_reaped, hbase.terminated_of_reaped, hbase.todo_evq, hbase.todo_nodup⟩,
    fun e q he _ => ?_⟩
  exact Or.inr (Or.inr (Or.inl ((hbase.signalHandler q).mpr (Or.inr ⟨e, he⟩))))

theorem Inv.add [DecidableEq ε] (h : s.Inv) (hev : s.evq ev = none)
    (hsafe : (ChildOp.add q ev c).Safe s) : (s.signalAdd q ev c).Inv := by
  obtain ⟨hbase, hpending, hready⟩ := h.base.add hev hsafe
  refine ⟨hbase, fun e q' he hterm => ?_⟩
  have hterminated : (s.signalAdd q ev c).terminated = s.terminated := by
    simp only [signalAdd]
    split_ifs <;> rfl
  have hactive : (s.signalAdd q ev c).active = s.active := by
    simp only [signalAdd]
    split_ifs <;> rfl
  have htodo : (s.signalAdd q ev c).todo = s.todo := by
    simp only [signalAdd]
    split_ifs <;> rfl
  rw [hactive, hpending, hready, htodo]
  rw [hterminated] at hterm
  by_cases hne : e = ev
  · subst hne
    obtain rfl : q = q' := by simpa [signalAdd] using he
    have hterm' : s.terminated c = true := by simpa [signalAdd] using hterm
    rcases (hsafe.2 hterm').2 with hp | hr
    · exact Or.inr (Or.inl hp)
    · exact Or.inr (Or.inr (Or.inl hr))
  · refine h.noMissedExit e q' ?_ ?_
    · simpa [signalAdd, hne] using he
    · simpa [signalAdd, hne] using hterm

theorem Inv.timeout [DecidableEq ε] (h : s.Inv) (ev : ε) :
    Inv { s with active := Function.update s.active ev true } := by
  refine ⟨h.base.marks _ s.sigReady, fun e q he hterm => ?_⟩
  rcases h.noMissedExit e q he hterm with hact | hrest
  · left
    dsimp only
    by_cases hne : e = ev
    · rw [hne, Function.update_self]
    · rwa [Function.update_of_ne hne]
  · exact Or.inr hrest

theorem Inv.collect [DecidableEq κ] (h : s.Inv) (q : κ) :
    Inv { s with
      sigReady := Function.update s.sigReady q false
      todo := Function.update s.todo q (s.collectEvents q) } := by
  obtain ⟨hnodup, hmem⟩ := h.base.collectEvents q
  obtain ⟨hbase, hreported⟩ := h
  refine ⟨⟨hbase.listed.imp fun _ hl => hl.congr rfl rfl rfl, hbase.handler_iff,
    hbase.pending_handler, hbase.pid_inj, hbase.not_reaped, hbase.terminated_of_reaped,
    fun q' e he => ?_, fun q' => ?_⟩, fun e q' he hterm => ?_⟩
  · dsimp only at he
    by_cases hq : q' = q
    · subst hq
      rw [Function.update_self] at he
      exact ((hmem e).mp he).1
    · rw [Function.update_of_ne hq] at he
      exact hbase.todo_evq q' e he
  · dsimp only
    by_cases hq : q' = q
    · rwa [hq, Function.update_self]
    · rw [Function.update_of_ne hq]
      exact hbase.todo_nodup q'
  · dsimp only
    by_cases hq : q' = q
    · subst hq
      rw [Function.update_self, Function.update_self]
      cases hact : s.active e with
      | true => exact Or.inl rfl
      | false => exact Or.inr (Or.inr (Or.inr ((hmem e).mpr ⟨he, hact⟩)))
    · rw [Function.update_of_ne hq, Function.update_of_ne hq]
      exact hreported e q' he hterm

theorem Inv.dispatch [DecidableEq ε] (h : s.Inv)
    (hs : (s.evq ev = none ∧ s' = { s with active := Function.update s.active ev false }) ∨
      ∃ q, s.evq ev = some q ∧ s.todo q = [] ∧
        evqDel { s with active := Function.update s.active ev false } ev = some s') : s'.Inv := by
  have hothers : ∀ e, e ≠ ev →
      Reported { s with active := Function.update s.active ev false } e := by
    intro e hne q he hterm
    dsimp only
    rw [Function.update_of_ne hne]
    exact h.noMissedExit e q he hterm
  have hbase := h.base.marks (Function.update s.active ev false) s.sigReady
  rcases hs with ⟨hnone, rfl⟩ | ⟨q, hq, htodo, hs⟩
  · refine ⟨hbase, fun e q he => hothers e ?_ q he⟩
    rintro rfl
    exact absurd (he.symm.trans hnone) (by simp)
  · have hdel := hbase.evqDel (by simp [hq]) (h.base.notMem_todo hq htodo) hs
    exact ⟨hdel.base, hdel.noMissedExit hothers⟩

/-- `evq_del` does not look at the status of the children. -/
theorem evqDel_reaped [DecidableEq ε] (s : ChildSignals ε κ π) (ev : ε) (reaped : π → Bool) :
    evqDel { s with reaped := reaped } ev =
      (s.evqDel ev).map fun s' => { s' with reaped := reaped } := by
  simp only [evqDel, Option.map_map]
  congr 1
  funext g
  simp only [Function.comp_apply]
  split_ifs <;> rfl

theorem Inv.process [DecidableEq ε] [DecidableEq κ] [DecidableEq π] {evs : List ε} (h : s.Inv)
    (htodo : s.todo q = ev :: evs)
    (hs : processEvent { s with todo := Function.update s.todo q evs } ev = some s') : s'.Inv := by
  have hq : s.evq ev = some q := h.base.todo_evq q ev (by simp [htodo])
  have hreg : s.evq ev ≠ none := by simp [hq]
  have hnodup := htodo ▸ h.base.todo_nodup q
  have hsub : ∀ q', List.Sublist (Function.update s.todo q evs q') (s.todo q') := by
    intro q'
    by_cases hq' : q' = q
    · rw [hq', Function.update_self, htodo]
      exact List.sublist_cons_self ev evs
    · rw [Function.update_of_ne hq']
  have hbase : Base { s with todo := Function.update s.todo q evs } := by
    obtain ⟨h₁, h₂, h₃, h₄, h₅, h₆, h₇, h₈⟩ := h.base
    exact ⟨h₁.imp fun _ hl => hl.congr rfl rfl rfl, h₂, h₃, h₄, h₅, h₆,
      fun q' e he => h₇ q' e ((hsub q').subset he), fun q' => (hsub q').nodup (h₈ q')⟩
  -- The next event leaves the list of the events to look at.
  have hothers : ∀ e, e ≠ ev → Reported { s with todo := Function.update s.todo q evs } e := by
    intro e hne q' he hterm
    rcases h.noMissedExit e q' he hterm with hact | hp | hr | hmem
    · exact Or.inl hact
    · exact Or.inr (Or.inl hp)
    · exact Or.inr (Or.inr (Or.inl hr))
    · refine Or.inr (Or.inr (Or.inr ?_))
      dsimp only
      by_cases hq' : q' = q
      · rw [hq', htodo] at hmem
        rw [hq', Function.update_self]
        exact (List.mem_cons.mp hmem).resolve_left hne
      · rwa [Function.update_of_ne hq']
  simp only [processEvent, signalProcessChild] at hs
  split_ifs at hs with hchild
  · -- The child is reaped, and its event becomes active and is deleted.
    dsimp only at hs
    rw [evqDel_reaped { s with
      todo := Function.update s.todo q evs, active := Function.update s.active ev true } ev] at hs
    obtain ⟨s₁, hs₁, rfl⟩ := Option.map_eq_some_iff.mp hs
    have hnot : ∀ q', ev ∉ Function.update s.todo q evs q' := by
      intro q' hmem
      by_cases hq' : q' = q
      · rw [hq', Function.update_self] at hmem
        exact (List.nodup_cons.mp hnodup).1 hmem
      · have hq'' := h.base.todo_evq q' ev ((hsub q').subset hmem)
        exact hq' (Option.some.inj (hq''.symm.trans hq))
    have hdel := (hbase.marks (Function.update s.active ev true) s.sigReady).evqDel hreg hnot hs₁
    have hreported := hdel.noMissedExit fun e hne q' he hterm => by
      dsimp only
      rw [Function.update_of_ne hne]
      exact hothers e hne q' he hterm
    obtain ⟨h₁, h₂, h₃, h₄, h₅, h₆, h₇, h₈⟩ := hdel.base
    refine ⟨⟨h₁.imp fun _ hl => hl.congr rfl rfl rfl, h₂, h₃, h₄, fun e he => ?_, fun c hc => ?_, h₇,
      h₈⟩, hreported⟩
    · rw [hdel.evq] at he
      have hne : e ≠ ev := by
        rintro rfl
        rw [Function.update_self] at he
        exact he rfl
      rw [Function.update_of_ne hne] at he
      have hpid : s.pid e ≠ s.pid ev := fun heq => hne (h.base.pid_inj e ev he hreg heq)
      dsimp only
      rw [hdel.pid, Function.update_of_ne hpid]
      exact h.base.not_reaped e he
    · dsimp only at hc ⊢
      rw [hdel.terminated]
      by_cases hcc : c = s.pid ev
      · rw [hcc]
        exact hchild.1
      · rw [Function.update_of_ne hcc] at hc
        exact h.base.terminated_of_reaped c hc
  · -- The child is still running.
    obtain rfl := Option.some.inj hs
    refine ⟨hbase, fun e q' he hterm => ?_⟩
    by_cases hne : e = ev
    · subst hne
      exact absurd ⟨hterm, h.base.not_reaped e hreg⟩ hchild
    · exact hothers e hne q' he hterm

variable [DecidableEq ε] [DecidableEq κ] [DecidableEq π]

/-- A step of the system in which a registration is safe. -/
def SafeStep (s s' : ChildSignals ε κ π) : Prop := ∃ op, ChildOp.Safe s op ∧ s.step op = some s'

theorem Inv.step {op : ChildOp ε κ π} (h : s.Inv) (hsafe : op.Safe s) (hs : s.step op = some s') :
    s'.Inv := by
  cases op with
  | exit c =>
      obtain ⟨-, hs⟩ := Option.ite_none_right_eq_some.mp hs
      exact Option.some.inj hs ▸ h.exit c
  | deliver =>
      obtain ⟨-, hs⟩ := Option.ite_none_right_eq_some.mp hs
      exact Option.some.inj hs ▸ h.deliver
  | add q ev c =>
      obtain ⟨⟨-, hev, -⟩, hs⟩ := Option.ite_none_right_eq_some.mp hs
      exact Option.some.inj hs ▸ h.add hev hsafe
  | timeout ev =>
      obtain ⟨q, -, hs⟩ := Option.bind_eq_some_iff.mp hs
      obtain ⟨-, hs⟩ := Option.ite_none_right_eq_some.mp hs
      exact Option.some.inj hs ▸ h.timeout ev
  | dispatch ev =>
      obtain ⟨-, hs⟩ := Option.ite_none_right_eq_some.mp hs
      cases hq : s.evq ev with
      | none =>
          simp only [hq] at hs
          exact h.dispatch (Or.inl ⟨hq, (Option.some.inj hs).symm⟩)
      | some q =>
          simp only [hq] at hs
          obtain ⟨htodo, hs⟩ := Option.ite_none_right_eq_some.mp hs
          exact h.dispatch (Or.inr ⟨q, hq, htodo, hs⟩)
  | del ev =>
      obtain ⟨q, hq, hs⟩ := Option.bind_eq_some_iff.mp hs
      obtain ⟨htodo, hs⟩ := Option.ite_none_right_eq_some.mp hs
      exact h.del hq htodo hs
  | collect q =>
      obtain ⟨-, hs⟩ := Option.ite_none_right_eq_some.mp hs
      exact Option.some.inj hs ▸ h.collect q
  | process q =>
      simp only [ChildSignals.step] at hs
      split at hs
      · exact absurd hs (by simp)
      · next ev evs htodo => exact h.process htodo hs

/-- **No exit of a child is missed** in a run in which every event is registered for a child
that has no other one, and whose exit has not been signalled before. -/
theorem safe_run_no_missed_exit {pid : ε → π} {s : ChildSignals ε κ π}
    (hrun : Relation.ReflTransGen SafeStep (init pid) s) : s.NoMissedExit := by
  have hinit : (init pid : ChildSignals ε κ π).Inv :=
    ⟨base_init pid, fun ev q hev => absurd hev (by simp [init])⟩
  have hinv : s.Inv := inv_of_reach (fun _ _ ⟨_, hsafe, hop⟩ h => h.step hsafe hop) hinit hrun
  exact hinv.noMissedExit

/-- The child exits after its event is registered. -/
theorem safe_run_no_missed_exit_later :
    ∃ s : ChildSignals Unit Unit Unit, Relation.ReflTransGen SafeStep (init fun _ => ()) s ∧
      s.evq () = some () ∧ s.terminated () = true ∧ s.NoMissedExit := by
  have hadd : SafeStep (init fun _ => () : ChildSignals Unit Unit Unit) _ :=
    ⟨.add () () (), ⟨fun _ h => absurd rfl h, fun h => absurd h (by decide)⟩, rfl⟩
  have hrun := ((Relation.ReflTransGen.single hadd).tail ⟨.exit (), trivial, rfl⟩).tail
    ⟨.deliver, trivial, rfl⟩
  exact ⟨_, hrun, rfl, rfl, safe_run_no_missed_exit hrun⟩

/-- The child exits before its event is registered: the event is not active, no signal is
pending, and no `evq_wait` will look at it. -/
theorem exit_before_add_missed :
    ∃ s : ChildSignals Unit Unit Unit,
      runOps step (init fun _ => ()) [.exit (), .add () () ()] = some s ∧ s.evq () = some () ∧
      s.terminated () = true ∧ s.active () = false ∧ s.pending = false ∧ s.sigReady () = false ∧
      s.todo () = [] ∧ ¬s.NoMissedExit := by
  refine ⟨_, rfl, rfl, rfl, rfl, rfl, rfl, rfl, fun hno => ?_⟩
  rcases hno () () rfl rfl with h | h | h | h
  · exact absurd h (by decide)
  · exact absurd h (by decide)
  · exact absurd h (by decide)
  · exact absurd h List.not_mem_nil

end ChildSignals

end LuaSys.Event
