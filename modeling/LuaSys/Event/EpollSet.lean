import LuaSys.Event.Backend

/-!
# The epoll set

The kernel keeps, for each descriptor in the epoll set, the pointer to the event that
`evq_add` has given it, and `evq_wait` follows the pointer when the descriptor is ready.
The entry is removed by `epoll_ctl`, or when the descriptor is closed.

`evq_del` removes the entry only when its argument `reuse_fd` is set.  The loop sets it
for oneshot events; a call of `evq:del` has it from the program, which is expected to
close the descriptor otherwise; and it is not set when a coroutine that was resumed as
a callback returns.

A report is one step, which looks at the set when the loop has the VM lock again.  What
`epoll_wait` has returned before another thread deletes the event is not modelled here.

## Main definitions

* `EventSource` — the kind of an event and its descriptor.
* `EpollState`, `EpollOp`, `EpollState.step` — the queue with the epoll set.
* `EpollState.KernelSound` — the pointers in the epoll set are those of registered events.
* `EpollOp.Safe` — the condition on the state before a step.

## Main results

* `safe_run_kernelSound` — the pointers are right in every run of safe steps.
* `coro_end_leaves_entry` — a coroutine returns and leaves the pointer to a free slot.
-/

namespace LuaSys.Event

open LuaSys.Lib

/-- The kind of an event and the field `fd`. -/
inductive EventSource
  | timer
  | signal
  | descriptor (fd : ℕ)
  /-- The descriptor of an inotify instance. -/
  | dirwatch (fd : ℕ)
  deriving DecidableEq, Repr

/-- The descriptor in the epoll set. -/
def EventSource.fd : EventSource → Option ℕ
  | .timer => none
  | .signal => none
  | .descriptor fd => some fd
  | .dirwatch fd => some fd

/-- The event is on a descriptor of the program. -/
def EventSource.OnDescriptor : EventSource → Prop
  | .descriptor _ => True
  | .timer | .signal | .dirwatch _ => False

instance (source : EventSource) : Decidable source.OnDescriptor :=
  match source with
  | .descriptor _ => inferInstanceAs (Decidable True)
  | .timer | .signal | .dirwatch _ => inferInstanceAs (Decidable False)

/-- An event queue with the kernel's side of it. -/
structure EpollState where
  evq : EvqState
  source : ℕ → EventSource
  /-- The field `data.ptr` of the entry of a descriptor. -/
  epoll : ℕ → Option ℕ
  /-- The open descriptors. -/
  opened : ℕ → Bool
  /-- The descriptors that the program still has to close. -/
  closing : ℕ → Bool

/-- The steps of a run.  A call of `levq_add` gets its descriptor with its second step; the
descriptor of a directory watcher comes from `inotify_init1`. -/
inductive EpollOp
  | add (i : ℕ) (res : AddResult) (source : EventSource)
  | del (ev : ℕ) (reuseFd : Bool)
  /-- `epoll_wait` reports a descriptor. -/
  | report (fd : ℕ) (res : EventFlags) (now : ℤ)
  /-- `levq_mod_socket`. -/
  | modify (ev : ℕ) (write : Bool)
  | openFd (fd : ℕ)
  | close (fd : ℕ)
  /-- Another step of the loop; an event that becomes active here is a signal or a timer. -/
  | loop (op : EvqOp)

/-- The step has no form of its own in `EpollOp`. -/
def EvqOp.isLoop : EvqOp → Bool
  | .addEnd _ _ | .del _ => false
  | _ => true

/-- The argument `reuse_fd` of `evq_del` inside the loop. -/
def EvqOp.reuseFd : EvqOp → Bool
  | .coroEnd _ _ => false
  | _ => true

namespace EpollState

/-- The kernel removes the entry of a descriptor. -/
def drop (s : EpollState) (fd : ℕ) : EpollState :=
  { s with epoll := Function.update s.epoll fd none }

/-- `close`. -/
def closeFd (s : EpollState) (fd : ℕ) : EpollState :=
  { s.drop fd with
    opened := Function.update s.opened fd false
    closing := Function.update s.closing fd false }

/-- The end of `evq_del`. -/
def evqDel (s : EpollState) (ev : ℕ) (reuseFd : Bool) : EpollState :=
  match s.source ev with
  | .timer => s
  | .signal => s
  | .dirwatch fd => s.closeFd fd
  | .descriptor fd => if reuseFd then s.drop fd else s

/-- The kernel's side of a call of the backend in a step of the loop. -/
def called (s : EpollState) (reuseFd : Bool) : Option BackendCall → EpollState
  | some (.del ev) => s.evqDel ev reuseFd
  | _ => s

/-- The system calls in `evq_add` and `evq_add_dirwatch` can have this outcome: `epoll_ctl`
takes an open descriptor that has no entry, and the descriptor of an inotify instance
is a new one. -/
def Accepts (s : EpollState) (res : AddResult) : EventSource → Prop
  | .descriptor fd => res = .ok → s.opened fd = true ∧ s.epoll fd = none
  | .dirwatch fd => res ≠ .failsEarly → s.opened fd = false
  | .timer | .signal => True

instance (s : EpollState) (res : AddResult) (source : EventSource) :
    Decidable (s.Accepts res source) :=
  match source with
  | .descriptor _ => inferInstanceAs (Decidable (_ → _))
  | .dirwatch _ => inferInstanceAs (Decidable (_ → _))
  | .timer | .signal => inferInstanceAs (Decidable True)

/-- The end of `evq_add` and `evq_add_dirwatch`.  An inotify instance stays open when
`evq_add` fails. -/
def evqAdd (s : EpollState) (ev : ℕ) (source : EventSource) (res : AddResult)
    (succeeds : Bool) : EpollState :=
  match source with
  | .timer => s
  | .signal => s
  | .descriptor fd =>
      if succeeds then { s with epoll := Function.update s.epoll fd (some ev) } else s
  | .dirwatch fd =>
      let s := if res = .failsEarly then s else { s with opened := Function.update s.opened fd true }
      if succeeds then { s with epoll := Function.update s.epoll fd (some ev) } else s

/-- One step; `none` when it does not apply or raises an error. -/
def step (fuel : ℕ) (s : EpollState) : EpollOp → Option EpollState
  | .add i res source => do
      let a ← s.evq.adding[i]?
      let source := if a.args.timer then .timer else source
      if s.Accepts res source then
        (s.evq.step fuel (.addEnd i res)).map fun evq =>
          { s with evq := evq, source := Function.update s.source a.ev source }.evqAdd a.ev source res
            (s.evq.addSucceeds fuel a res)
      else none
  | .del ev reuseFd =>
      (s.evq.step fuel (.del ev)).map fun evq =>
        let call := s.evq.backendCall fuel (.del ev)
        let s := { s with evq := evq }.called reuseFd call
        match s.source ev with
        | .descriptor fd =>
            if call.isSome ∧ ¬reuseFd then { s with closing := Function.update s.closing fd true }
            else s
        | _ => s
  | .report fd res now => do
      let ev ← s.epoll fd
      (s.evq.step fuel (.activate ev res now)).map fun evq =>
        { s with evq := evq }.called true (s.evq.backendCall fuel (.activate ev res now))
  | .modify ev write =>
      let s := { s with
        evq := s.evq.setFlags ev { s.evq.q.flags ev with read := !write, write := write } }
      match (s.source ev).fd with
      | some fd =>
          if (s.epoll fd).isSome then some { s with epoll := Function.update s.epoll fd (some ev) }
          else none
      | none => none
  | .openFd fd =>
      if s.opened fd then none else some { s with opened := Function.update s.opened fd true }
  | .close fd => if s.opened fd then some (s.closeFd fd) else none
  | .loop op =>
      if op.isLoop then
        (s.evq.step fuel op).map fun evq =>
          { s with evq := evq }.called op.reuseFd (s.evq.backendCall fuel op)
      else none

/-- A new event queue; the program has no descriptors yet. -/
def init (now : ℤ) : EpollState where
  evq := EvqState.init now
  source _ := .timer
  epoll _ := none
  opened _ := false
  closing _ := false

/-- The transitions of a run. -/
def Step (s s' : EpollState) : Prop := ∃ op fuel, s.step fuel op = some s'

/-- Every pointer in the epoll set is that of an event registered with the descriptor, except
for a descriptor that the program is about to close. -/
def KernelSound (s : EpollState) : Prop :=
  ∀ fd ev, s.epoll fd = some ev → s.closing fd = true ∨
    (s.evq.live ev = true ∧ s.evq.q.registered ev = true ∧ (s.source ev).fd = some fd)

end EpollState

/-- The flags that the step looks at tell the truth, the program has closed its descriptors
before it waits, and a coroutine does not return while its event is on a descriptor. -/
def EpollOp.Safe (s : EpollState) : EpollOp → Prop
  | .del ev _ => (EvqOp.del ev).Safe s.evq
  | .report _ _ _ => ∀ fd, s.closing fd = false
  | .modify ev _ => s.evq.live ev = true
  | .loop (.coroEnd i finished) => (EvqOp.coroEnd i finished).Safe s.evq ∧
      ∀ ev, s.evq.coros[i]? = some ev → finished = true → s.evq.q.registered ev = true →
        ¬(s.source ev).OnDescriptor
  | .loop op => op.Safe s.evq
  | .add _ _ _ | .openFd _ | .close _ => True

namespace EpollState

/-- The transitions of a run with safe steps only. -/
def SafeStep (s s' : EpollState) : Prop := ∃ op fuel, op.Safe s ∧ s.step fuel op = some s'

/-! ## Steps that keep the entries -/

/-- The entries are those of registered events. -/
def Entries (s : EpollState) : Prop :=
  ∀ fd ev, s.epoll fd = some ev → s.closing fd = true ∨
    (s.evq.live ev = true ∧ (s.source ev).fd = some fd)

variable {s s' : EpollState} {fuel ev : ℕ}

theorem Entries.kernelSound (h : s.Entries) (hreg : s.evq.Regular) : s.KernelSound := by
  intro fd ev hentry
  obtain ⟨slots, ready, hslots, -⟩ := hreg.sound
  rcases h fd ev hentry with hclosing | ⟨hlive, hfd⟩
  · exact Or.inl hclosing
  · exact Or.inr ⟨hlive, hslots.live_registered ev hlive, hfd⟩

/-- The events that were registered still are. -/
theorem Entries.of_live (h : s.Entries)
    (hlive : ∀ x, s.evq.live x = true → s'.evq.live x = true) (hsource : s'.source = s.source)
    (hepoll : s'.epoll = s.epoll) (hclosing : s'.closing = s.closing) : s'.Entries := by
  intro fd x hentry
  rw [hepoll] at hentry
  rw [hclosing, hsource]
  exact (h fd x hentry).imp_right fun hx => ⟨hlive x hx.1, hx.2⟩

/-- The registration of an event ends.  Entries of other descriptors stay, and that of its
own descriptor is gone, or the program closes it. -/
theorem Entries.of_del (h : s.Entries)
    (hlive : s'.evq.live = Function.update s.evq.live ev false) (hsource : s'.source = s.source)
    (hkeep : ∀ fd x, s'.epoll fd = some x →
      s.epoll fd = some x ∧ (s.closing fd = true → s'.closing fd = true))
    (hdrop : ∀ fd, (s.source ev).fd = some fd → s'.epoll fd = some ev → s'.closing fd = true) :
    s'.Entries := by
  intro fd x hentry
  obtain ⟨hold, hclosing⟩ := hkeep fd x hentry
  rcases h fd x hold with hc | ⟨hx, hfd⟩
  · exact Or.inl (hclosing hc)
  · by_cases hxe : x = ev
    · subst hxe
      exact Or.inl (hdrop fd hfd hentry)
    · right
      rw [hlive, hsource, Function.update_of_ne hxe]
      exact ⟨hx, hfd⟩

theorem drop_epoll {fd fd' x : ℕ} (h : (s.drop fd).epoll fd' = some x) :
    fd' ≠ fd ∧ s.epoll fd' = some x := by
  by_cases hfd : fd' = fd
  · simp [drop, hfd] at h
  · simp only [drop, Function.update_of_ne hfd] at h
    exact ⟨hfd, h⟩

/-- `evq_del` with `reuse_fd`, or for an event that is not on a descriptor of the
program. -/
theorem Entries.evqDel (h : s.Entries) {evq : EvqState}
    (hlive : evq.live = Function.update s.evq.live ev false) {reuseFd : Bool}
    (hreuse : reuseFd = true ∨ ¬(s.source ev).OnDescriptor) :
    ({ s with evq := evq }.evqDel ev reuseFd).Entries := by
  unfold EpollState.evqDel
  dsimp only
  cases hsource : s.source ev with
  | timer | signal =>
      refine h.of_del hlive rfl (fun fd x hx => ⟨hx, id⟩) fun fd hfd => ?_
      rw [hsource] at hfd
      exact absurd hfd (by simp [EventSource.fd])
  | dirwatch fd =>
      refine h.of_del hlive rfl (fun fd' x hx => ?_) fun fd' hfd hx => ?_
      · obtain ⟨hne, hold⟩ := drop_epoll hx
        refine ⟨hold, fun hc => ?_⟩
        simp only [closeFd, Function.update_of_ne hne]
        exact hc
      · rw [hsource] at hfd
        exact absurd (Option.some.inj hfd).symm (drop_epoll hx).1
  | descriptor fd =>
      have hr : reuseFd = true := by
        rw [hsource] at hreuse
        exact hreuse.resolve_right fun hnot => hnot trivial
      simp only [hr, if_true]
      refine h.of_del hlive rfl (fun fd' x hx => ⟨(drop_epoll hx).2, id⟩) fun fd' hfd hx => ?_
      rw [hsource] at hfd
      exact absurd (Option.some.inj hfd).symm (drop_epoll hx).1

/-- A step of the loop, with its call of the backend. -/
theorem Entries.called (h : s.Entries) {evq : EvqState} {reuseFd : Bool}
    {call : Option BackendCall} (hlive : evq.live = BackendCall.live s.evq.live call)
    (hreuse : ∀ ev, call = some (.del ev) → reuseFd = true ∨ ¬(s.source ev).OnDescriptor) :
    ({ s with evq := evq }.called reuseFd call).Entries := by
  match call with
  | none => exact h.of_live (fun x hx => (congrFun hlive x).trans hx) rfl rfl rfl
  | some (.add ev) =>
      refine h.of_live (fun x hx => ?_) rfl rfl rfl
      have hevq : evq.live x = true := by
        rw [hlive, BackendCall.live]
        by_cases hxe : x = ev
        · simp [hxe]
        · rw [Function.update_of_ne hxe]
          exact hx
      exact hevq
  | some (.del ev) => exact h.evqDel hlive (hreuse ev rfl)

@[simp] theorem evqDel_evq (s : EpollState) (ev : ℕ) (reuseFd : Bool) :
    (s.evqDel ev reuseFd).evq = s.evq := by
  unfold EpollState.evqDel
  split
  · rfl
  · rfl
  · rfl
  · split <;> rfl

@[simp] theorem called_evq (s : EpollState) (reuseFd : Bool) (call : Option BackendCall) :
    (s.called reuseFd call).evq = s.evq := by
  unfold called
  split
  · exact evqDel_evq ..
  · rfl

@[simp] theorem evqAdd_evq (s : EpollState) (ev : ℕ) (source : EventSource) (res : AddResult)
    (succeeds : Bool) : (s.evqAdd ev source res succeeds).evq = s.evq := by
  cases source with
  | timer | signal => rfl
  | descriptor fd =>
      simp only [EpollState.evqAdd]
      split <;> rfl
  | dirwatch fd =>
      simp only [EpollState.evqAdd]
      split <;> split <;> rfl

/-- The queue is regular and the entries are right. -/
structure EpollInv (s : EpollState) : Prop where
  regular : s.evq.Regular
  entries : s.Entries

/-- `evq_add`. -/
theorem Entries.evqAdd (h : s.Entries) {evq : EvqState} {source : EventSource} {res : AddResult}
    {succeeds : Bool} (hdead : s.evq.live ev = false)
    (hlive : evq.live = if succeeds then Function.update s.evq.live ev true else s.evq.live) :
    ({ s with evq := evq, source := Function.update s.source ev source }.evqAdd ev source res
      succeeds).Entries := by
  -- an entry that was there is not that of `ev`, or its descriptor is about to be closed
  have hold : ∀ fd x, s.epoll fd = some x → s.closing fd = true ∨
      (evq.live x = true ∧ (Function.update s.source ev source x).fd = some fd) := by
    intro fd x hentry
    rcases h fd x hentry with hclosing | ⟨hx, hfd⟩
    · exact Or.inl hclosing
    · have hxe : x ≠ ev := by
        rintro rfl
        exact absurd (hdead.symm.trans hx) (by simp)
      rw [hlive, Function.update_of_ne hxe]
      refine Or.inr ⟨?_, hfd⟩
      split
      · rw [Function.update_of_ne hxe]
        exact hx
      · exact hx
  have hnew : ∀ fd, succeeds = true → source.fd = some fd → ∀ fd' x,
      Function.update s.epoll fd (some ev) fd' = some x → s.closing fd' = true ∨
        (evq.live x = true ∧ (Function.update s.source ev source x).fd = some fd') := by
    intro fd hsucceeds hfd fd' x hentry
    by_cases hfd' : fd' = fd
    · subst hfd'
      rw [Function.update_self, Option.some.injEq] at hentry
      subst hentry
      right
      rw [hlive, if_pos hsucceeds, Function.update_self, Function.update_self]
      exact ⟨rfl, hfd⟩
    · rw [Function.update_of_ne hfd'] at hentry
      exact hold fd' x hentry
  cases source with
  | timer | signal => exact hold
  | descriptor fd =>
      simp only [EpollState.evqAdd]
      by_cases hs : succeeds = true
      · rw [if_pos hs]
        exact hnew fd hs rfl
      · rw [if_neg hs]
        exact hold
  | dirwatch fd =>
      simp only [EpollState.evqAdd]
      by_cases hs : succeeds = true
      · rw [if_pos hs]
        split <;> exact hnew fd hs rfl
      · rw [if_neg hs]
        split <;> exact hold

theorem EpollInv.add (h : s.EpollInv) {i : ℕ} {res : AddResult} {source : EventSource}
    (hrun : s.step fuel (.add i res source) = some s') : s'.EpollInv := by
  obtain ⟨a, ha, hrun⟩ := Option.bind_eq_some_iff.mp hrun
  obtain ⟨-, hrun⟩ := Option.ite_none_right_eq_some.mp hrun
  obtain ⟨evq, hevq, rfl⟩ := Option.map_eq_some_iff.mp hrun
  have hlive := (EvqState.step_livesOn hevq).live
  simp only [EvqState.backendCall, ha, Option.bind_some] at hlive
  have hdead : s.evq.live a.ev = false := by
    obtain ⟨slots, ready, hslots, -⟩ := h.regular.sound
    obtain ⟨hlt, rfl⟩ := List.getElem?_eq_some_iff.mp ha
    exact (hslots.reserved_apart _
      (List.mem_append_left _ (List.mem_map_of_mem (List.getElem_mem hlt)))).1
  refine ⟨?_, h.entries.evqAdd hdead ?_⟩
  · rw [evqAdd_evq]
    have hsafe : (EvqOp.addEnd i res).Safe s.evq := trivial
    exact h.regular.step hsafe hevq
  · rw [hlive]
    by_cases hs : s.evq.addSucceeds fuel a res
    · rw [if_pos hs, if_pos (decide_eq_true hs)]
      rfl
    · rw [if_neg hs, if_neg (by simpa using hs)]
      rfl

theorem backendCall_del (s : EvqState) (fuel ev : ℕ) :
    s.backendCall fuel (.del ev) = none ∨ s.backendCall fuel (.del ev) = some (.del ev) := by
  simp only [EvqState.backendCall]
  split
  · exact Or.inr rfl
  · exact Or.inl rfl

/-- `levq_del`: without `reuse_fd` the program has to close the descriptor. -/
theorem EpollInv.del (h : s.EpollInv) {reuseFd : Bool} (hsafe : (EvqOp.del ev).Safe s.evq)
    (hrun : s.step fuel (.del ev reuseFd) = some s') : s'.EpollInv := by
  rw [EpollState.step, Option.map_eq_some_iff] at hrun
  obtain ⟨evq, hevq, rfl⟩ := hrun
  have hregular := h.regular.step hsafe hevq
  have hlive := (EvqState.step_livesOn hevq).live
  dsimp only
  rcases backendCall_del s.evq fuel ev with hcall | hcall
  · rw [hcall] at hlive ⊢
    have hentries : ({ s with evq := evq } : EpollState).Entries :=
      @Entries.called _ h.entries _ reuseFd _ hlive (by simp)
    simp only [EpollState.called, Option.isSome_none, Bool.false_eq_true, false_and, if_false]
    split <;> exact ⟨hregular, hentries⟩
  · rw [hcall] at hlive ⊢
    simp only [EpollState.called, Option.isSome_some, true_and]
    by_cases hreuse : reuseFd = true ∨ ¬(s.source ev).OnDescriptor
    · have hentries := h.entries.evqDel hlive hreuse
      have hinv : ({ s with evq := evq }.evqDel ev reuseFd).EpollInv :=
        ⟨by rw [evqDel_evq]; exact hregular, hentries⟩
      split
      · next fd hfd =>
        split
        · next hnot =>
          -- closing more descriptors only allows more entries
          refine ⟨hinv.regular, fun fd' x hx => ?_⟩
          rcases hinv.entries fd' x hx with hc | hx'
          · left
            by_cases hfd' : fd' = fd
            · simp [hfd']
            · simp only [Function.update_of_ne hfd']
              exact hc
          · exact Or.inr hx'
        · exact hinv
      · exact hinv
    · rw [not_or, not_not, Bool.not_eq_true] at hreuse
      obtain ⟨hr, hon⟩ := hreuse
      cases hsource : s.source ev with
      | timer | signal | dirwatch fd =>
          rw [hsource] at hon
          exact absurd hon id
      | descriptor fd =>
          simp only [EpollState.evqDel, hsource, hr, Bool.false_eq_true, if_false, not_false_eq_true,
            if_true]
          refine ⟨hregular, h.entries.of_del hlive rfl (fun fd' x hx => ⟨hx, fun hc => ?_⟩)
            fun fd' hfd' _ => ?_⟩
          · by_cases hfd' : fd' = fd
            · simp [hfd']
            · simp only [Function.update_of_ne hfd']
              exact hc
          · rw [hsource] at hfd'
            simp [Option.some.inj hfd']

/-- A descriptor is reported when no descriptor is about to be closed: then its event is
registered. -/
theorem EpollInv.report (h : s.EpollInv) {fd : ℕ} {res : EventFlags} {now : ℤ}
    (hsafe : ∀ fd, s.closing fd = false)
    (hrun : s.step fuel (.report fd res now) = some s') : s'.EpollInv := by
  obtain ⟨ev, hev, hrun⟩ := Option.bind_eq_some_iff.mp hrun
  obtain ⟨evq, hevq, rfl⟩ := Option.map_eq_some_iff.mp hrun
  have hlive : s.evq.live ev = true := by
    rcases h.entries fd ev hev with hc | ⟨hlive, -⟩
    · exact absurd ((hsafe fd).symm.trans hc) (by simp)
    · exact hlive
  refine ⟨?_, h.entries.called (EvqState.step_livesOn hevq).live fun _ _ => Or.inl rfl⟩
  rw [called_evq]
  have hop : (EvqOp.activate ev res now).Safe s.evq := Or.inl hlive
  exact h.regular.step hop hevq

theorem EpollInv.modify (h : s.EpollInv) {write : Bool} (hlive : s.evq.live ev = true)
    (hrun : s.step fuel (.modify ev write) = some s') : s'.EpollInv := by
  have hregular : (s.evq.setFlags ev
      { s.evq.q.flags ev with read := !write, write := write }).Regular := by
    obtain ⟨slots, ready, hslots, hact⟩ := h.regular.sound
    exact ⟨⟨slots, ready, hslots.keepFlags rfl rfl, hact.calmer (EvqState.Calmer.setFlags id)⟩,
      h.regular.stale.setFlags fun hx => h.regular.stale ev hx, h.regular.nslots⟩
  simp only [EpollState.step] at hrun
  split at hrun
  · next fd hfd =>
    obtain ⟨-, hrun⟩ := Option.ite_none_right_eq_some.mp hrun
    rw [← Option.some.inj hrun]
    refine ⟨hregular, fun fd' x hx => ?_⟩
    dsimp only at hx
    by_cases hfd' : fd' = fd
    · subst hfd'
      rw [Function.update_self, Option.some.injEq] at hx
      exact Or.inr ⟨hx ▸ hlive, hx ▸ hfd⟩
    · rw [Function.update_of_ne hfd'] at hx
      exact h.entries fd' x hx
  · exact absurd hrun (by simp)

theorem Entries.closeFd (h : s.Entries) (fd : ℕ) : (s.closeFd fd).Entries := by
  intro fd' x hx
  obtain ⟨hne, hold⟩ := drop_epoll hx
  simp only [EpollState.closeFd, Function.update_of_ne hne]
  exact h fd' x hold

/-- A step of the loop. -/
theorem EpollInv.loop (h : s.EpollInv) {op : EvqOp} (hsafe : (EpollOp.loop op).Safe s)
    (hrun : s.step fuel (.loop op) = some s') : s'.EpollInv := by
  obtain ⟨hloop, hrun⟩ := Option.ite_none_right_eq_some.mp hrun
  obtain ⟨evq, hevq, rfl⟩ := Option.map_eq_some_iff.mp hrun
  have hsafe' : op.Safe s.evq := by
    cases op with
    | coroEnd i finished => exact hsafe.1
    | _ => exact hsafe
  refine ⟨?_, h.entries.called (EvqState.step_livesOn hevq).live fun ev hcall => ?_⟩
  · rw [called_evq]
    exact h.regular.step hsafe' hevq
  · cases op with
    | coroEnd i finished =>
        right
        obtain ⟨ev', hev', hcall⟩ := Option.bind_eq_some_iff.mp hcall
        obtain ⟨hcond, hcall⟩ := Option.ite_none_right_eq_some.mp hcall
        simp only [Option.some.injEq, BackendCall.del.injEq] at hcall
        exact hcall ▸ hsafe.2 ev' hev' hcond.1 hcond.2
    | _ => exact Or.inl rfl

theorem EpollInv.step (h : s.EpollInv) {op : EpollOp} (hsafe : op.Safe s)
    (hrun : s.step fuel op = some s') : s'.EpollInv := by
  cases op with
  | add i res source => exact h.add hrun
  | del ev reuseFd => exact h.del hsafe hrun
  | report fd res now => exact h.report hsafe hrun
  | modify ev write => exact h.modify hsafe hrun
  | openFd fd =>
      simp only [EpollState.step] at hrun
      split at hrun
      · exact absurd hrun (by simp)
      · rw [← Option.some.inj hrun]
        exact ⟨h.regular, h.entries⟩
  | close fd =>
      obtain ⟨-, hrun⟩ := Option.ite_none_right_eq_some.mp hrun
      rw [← Option.some.inj hrun]
      exact ⟨h.regular, h.entries.closeFd fd⟩
  | loop op => exact h.loop hsafe hrun

theorem init_epollInv (now : ℤ) : (init now).EpollInv :=
  ⟨EvqState.Regular.init now, fun _ _ hx => absurd hx (by simp [init])⟩

end EpollState

/-- In every run of safe steps, every pointer in the epoll set is that of an event registered
with the descriptor, or the program is about to close the descriptor. -/
theorem safe_run_kernelSound {now : ℤ} {s : EpollState}
    (hrun : Relation.ReflTransGen EpollState.SafeStep (EpollState.init now) s) : s.KernelSound := by
  have hinv : s.EpollInv := by
    refine inv_of_reach ?_ (EpollState.init_epollInv now) hrun
    rintro s s' ⟨op, fuel, hsafe, hstep⟩ h
    exact h.step hsafe hstep
  exact hinv.entries.kernelSound hinv.regular

/-- A oneshot event and one that is deleted by the program are ended; the latter leaves its
entry until its descriptor is closed. -/
theorem safe_run_kernelSound_closing :
    ∃ s, Relation.ReflTransGen EpollState.SafeStep (EpollState.init 0) s ∧ s.epoll 4 = none ∧
      s.epoll 5 = some 1 ∧ s.closing 5 = true ∧ s.KernelSound := by
  have hrun : Relation.ReflTransGen EpollState.SafeStep (EpollState.init 0) _ :=
    .tail (.tail (.tail (.tail (.tail (.tail (.tail (.tail (.tail .refl
      ⟨.openFd 4, 1, trivial, rfl⟩)
      ⟨.openFd 5, 1, trivial, rfl⟩)
      ⟨.loop (.addBegin ⟨false, false, true, .function, -1, false⟩), 1, trivial, rfl⟩)
      ⟨.add 0 .ok (.descriptor 4), 2, trivial, rfl⟩)
      ⟨.loop (.addBegin ⟨false, false, false, .function, -1, false⟩), 1, trivial, rfl⟩)
      ⟨.add 0 .ok (.descriptor 5), 2, trivial, rfl⟩)
      ⟨.report 4 { readRes := true } 0, 1, fun _ => rfl, rfl⟩)
      ⟨.loop .dispatch, 1, trivial, rfl⟩)
      ⟨.del 1 false, 1, Or.inl rfl, rfl⟩
  exact ⟨_, hrun, rfl, rfl, rfl, safe_run_kernelSound hrun⟩

/-- The coroutine of an event on the descriptor 5 is resumed and returns. -/
def coroDescriptorOps : List EpollOp :=
  [.openFd 5, .loop (.addBegin ⟨false, false, false, .coroutine, -1, false⟩),
    .add 0 .ok (.descriptor 5), .report 5 { readRes := true } 0, .loop .dispatch,
    .loop (.coroEnd 0 true)]

/-- The slot of the event is free, and the kernel still has the pointer to it. -/
theorem coro_end_leaves_entry :
    ∃ s, Relation.ReflTransGen EpollState.Step (EpollState.init 0) s ∧ s.epoll 5 = some 0 ∧
      s.evq.q.evFree = some 0 ∧ ¬s.KernelSound := by
  have hrun : (runOps (EpollState.step 2) (EpollState.init 0) coroDescriptorOps).map
      (fun s => (s.epoll 5, s.evq.q.evFree, s.closing 5, s.evq.live 0)) =
        some (some 0, some 0, false, false) := by
    rfl
  obtain ⟨s, hs, heq⟩ := Option.map_eq_some_iff.mp hrun
  simp only [Prod.mk.injEq] at heq
  obtain ⟨hepoll, hfree, hclosing, hlive⟩ := heq
  refine ⟨s, reach_of_runOps (fun _ op _ hop => ⟨op, 2, hop⟩) hs, hepoll, hfree, fun hsound => ?_⟩
  rcases hsound 5 0 hepoll with hc | ⟨hl, -⟩
  · exact absurd (hclosing.symm.trans hc) (by simp)
  · exact absurd (hlive.symm.trans hl) (by simp)

end LuaSys.Event
