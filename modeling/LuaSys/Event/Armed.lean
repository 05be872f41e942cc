import LuaSys.Event.Backend
import LuaSys.Event.Control
import LuaSys.Event.TimeoutSpec

/-!
# Timeouts that are requested

A timeout with a new value needs a slot for its timeout queue.  `levq_add` reserves one
before `levq_control_wait`, where the VM lock may be released, and arms the timeout
behind it; `levq_timeout` reserves the slot behind it.  The slot that is reserved is only
the first one of the free list: the next caller may take it.

The slots of `EvqState` and the handshake of `ControlState` are put together here.  A
step is what a thread does with the VM lock, so nothing happens between the two halves of
a call that has not yielded.

## Main definitions

* `Evq.timeout`, `Evq.HasPlace` — the value of a timeout, and a place for one.
* `SharedState`, `SharedOp`, `SharedState.step` — an event queue and its threads.
* `Return` — what a call with a finite timeout leaves behind.
* `SharedOp.Safe` — the condition on the state before a step.

## Main results

* `timeoutAdd_result`, `evqSetTimeout_result` — a timeout is armed exactly when there is a
  place for it.
* `addEnd_result` — the same for the second half of `levq_add`.
* `safe_run_armed` — the timeouts that are requested are armed, in every run of safe steps.
* `reserved_slot_taken` — a run of three threads in which one is not.
-/

namespace LuaSys.Event

open LuaSys.Lib

/-! ## A place for a timeout -/

/-- `ev->tq->msec`, if the event has a timeout. -/
def Evq.timeout (q : Evq) (ev : ℕ) : Option ℤ := (q.tq ev).map q.msec

/-- There is a slot for a timeout queue, or an event has the same timeout. -/
def Evq.HasPlace (q : Evq) (msec : ℤ) : Prop :=
  q.evFree ≠ none ∨ ∃ ev, q.timeout ev = some msec

section Place

variable {slots : ℕ → Prop} {q q' : Evq} {fuel ev : ℕ} {msec now res : ℤ}

/-- The timeout queues that exist are those of the events. -/
theorem TimeoutRep.exists_timeout_iff {tqs : List ℕ} {evs : ℕ → List ℕ} {timely : Prop}
    (h : TimeoutRep timely q now tqs evs) (msec : ℤ) :
    (∃ ev, q.timeout ev = some msec) ↔ ∃ t ∈ tqs, q.msec t = msec := by
  constructor
  · rintro ⟨ev, hev⟩
    obtain ⟨t, htq, hmsec⟩ := Option.map_eq_some_iff.mp hev
    exact ⟨t, (h.mem_of_tq htq).1, hmsec⟩
  · rintro ⟨t, ht, hmsec⟩
    obtain ⟨ev, hev⟩ := List.exists_mem_of_ne_nil _ (h.nonempty t ht)
    have htq : q.tq ev = some t := (h.tq_iff ev t).mpr ⟨ht, hev⟩
    exact ⟨ev, by rw [Evq.timeout, htq, Option.map_some, hmsec]⟩

/-- `timeout_add` arms the timeout if there is a place for it, and changes nothing
otherwise. -/
theorem timeoutAdd_result (h : PoolOk slots q)
    (hrun : timeoutAdd fuel q ev msec now = some (q', res)) :
    (q.HasPlace msec ∧ res = 0 ∧ q'.timeout ev = some msec) ∨
      (¬q.HasPlace msec ∧ res = -1 ∧ q' = q) := by
  obtain ⟨tqs, evs, free, hinv, -⟩ := h
  have hlen : tqs.length < max fuel (tqs.length + 1) := lt_max_of_lt_right (Nat.lt_succ_self _)
  have hrun := fuel_mono (f := fun n => timeoutAdd n q ev msec now) (fun _ _ => timeoutAdd_succ)
    (le_max_left fuel (tqs.length + 1)) hrun
  have hexists := hinv.toTimeoutRep.exists_timeout_iff msec
  rcases timeoutFind_spec hinv.toTimeoutRep hlen with
    ⟨p, t, hfind, ht, hm⟩ | ⟨m₁, m₂, hsplit, hfind, hne, -⟩
  · left
    obtain ⟨hq', hres⟩ := Prod.mk.inj (Option.some.inj (hrun.symm.trans
      (timeoutAdd_of_found hfind hm)))
    refine ⟨Or.inr (hexists.mpr ⟨t, ht, hm⟩), hres, ?_⟩
    rw [hq', Evq.timeout]
    dsimp only
    rw [Function.update_self, Option.map_some, hm]
  · have hnone : ¬∃ ev, q.timeout ev = some msec := by
      rw [hexists]
      rintro ⟨t, ht, hm⟩
      exact hne t ht hm
    have ho := head_msec_ne hsplit hne
    cases hfree : q.evFree with
    | none =>
        right
        obtain ⟨hq', hres⟩ := Prod.mk.inj (Option.some.inj (hrun.symm.trans
          (timeoutAdd_of_full hfind ho hfree)))
        refine ⟨?_, hres, hq'⟩
        rintro (hplace | hplace)
        · exact hplace hfree
        · exact hnone hplace
    | some n =>
        left
        obtain ⟨hq', hres⟩ := Prod.mk.inj (Option.some.inj (hrun.symm.trans
          (timeoutAdd_of_new hfind ho hfree)))
        refine ⟨Or.inl (by rw [hfree]; exact Option.some_ne_none n), hres, ?_⟩
        rw [hq', Evq.timeout]
        dsimp only
        rw [Function.update_self, Option.map_some, Function.update_self]

/-- `evq_set_timeout` for an event without a timeout. -/
theorem evqSetTimeout_result (h : PoolOk slots q) (htq : q.tq ev = none)
    (hfinite : msec ≠ timeoutInfinite) (hrun : evqSetTimeout fuel q ev msec = some (q', res)) :
    (q.HasPlace msec ∧ res = 0 ∧ q'.timeout ev = some msec) ∨
      (¬q.HasPlace msec ∧ res = -1 ∧ q' = q) := by
  simp only [evqSetTimeout, htq, evqArmTimeout, if_neg hfinite] at hrun
  exact timeoutAdd_result h hrun

/-- `evq_set_timeout` succeeds when a slot is free. -/
theorem evqSetTimeout_armed (h : PoolOk slots q) (hfree : q.evFree ≠ none)
    (hfinite : msec ≠ timeoutInfinite) (hrun : evqSetTimeout fuel q ev msec = some (q', res)) :
    res = 0 ∧ q'.timeout ev = some msec := by
  have hadd : ∀ q₁ : Evq, PoolOk slots q₁ → q₁.evFree ≠ none →
      evqArmTimeout fuel q₁ ev msec = some (q', res) → res = 0 ∧ q'.timeout ev = some msec := by
    intro q₁ h₁ hfree₁ hrun₁
    rw [evqArmTimeout, if_neg hfinite] at hrun₁
    rcases timeoutAdd_result h₁ hrun₁ with ⟨-, harmed⟩ | ⟨hnot, -⟩
    · exact harmed
    · exact absurd (Or.inl hfree₁) hnot
  cases htq : q.tq ev with
  | none =>
      simp only [evqSetTimeout, htq] at hrun
      exact hadd q h hfree hrun
  | some t =>
      simp only [evqSetTimeout, htq] at hrun
      split at hrun
      · next hm =>
        obtain ⟨q₁, hreset, hpair⟩ := Option.map_eq_some_iff.mp hrun
        obtain ⟨rfl, rfl⟩ := Prod.mk.inj hpair
        obtain ⟨tqs, evs, free, hinv, -⟩ := h
        have hle : False → (0 : ℤ) ≤ q.now := False.elim
        have hov : False → NoOverflow q.now (q.msec t) := False.elim
        obtain ⟨q₂, hq₂, -, htq₂, hmsec₂, -⟩ := timeoutReset_spec hinv.toTimeoutRep hle htq hov
        obtain rfl := Option.some.inj (hreset.symm.trans hq₂)
        refine ⟨rfl, ?_⟩
        rw [Evq.timeout, htq₂, hmsec₂, htq, Option.map_some, hm]
      · refine hadd _ (TimeoutOk.del h ev).2.2 (fun hnone => hfree ?_) hrun
        exact evFree_of_timeoutDel hnone

end Place

/-! ## The second half of a call -/

/-- The call gives its event a timeout when the backend has accepted it. -/
def Adding.Requests (a : Adding) (res : AddResult) : Prop :=
  a.args.timeout ≠ timeoutInfinite ∧ (a.args.timer = true ∨ res = .ok)

instance (a : Adding) (res : AddResult) : Decidable (a.Requests res) :=
  inferInstanceAs (Decidable (_ ∧ _))

namespace EvqState

/-- Whether `timeout_add` finds a place in the second half of `levq_add`. -/
def addFinds (fuel : ℕ) (s : EvqState) (a : Adding) : Bool :=
  (evqSetTimeout fuel { s.q with registered := Function.update s.q.registered a.ev true } a.ev
    a.args.timeout).map Prod.snd = some 0

/-- Whether `evq_set_timeout` succeeds in `levq_timeout`. -/
def timeoutFinds (fuel : ℕ) (s : EvqState) (ev : ℕ) (msec : ℤ) : Bool :=
  (s.reserve.bind fun s => evqSetTimeout fuel s.q ev msec).map Prod.snd = some 0

variable {s s' : EvqState} {fuel ev : ℕ}

theorem reserve_evFree (h : s.reserve = some s') : s'.q.evFree ≠ none := by
  obtain ⟨hfree, rfl⟩ | ⟨-, ev, s₁, -, rfl⟩ := reserve_cases h
  · exact hfree
  · exact Option.some_ne_none ev

theorem newEvent_adding (h : s.newEvent = some (ev, s')) : s'.adding = s.adding := by
  obtain ⟨-, rfl⟩ | ⟨-, -, -, rfl⟩ := newEvent_cases h
  · rfl
  · rfl

/-- A call of `levq_add` that comes to its second half has reserved a slot. -/
theorem addBegin_evFree {args : AddArgs} (h : s.addBegin args = some s')
    (hlt : s.adding.length < s'.adding.length) : s'.q.evFree ≠ none := by
  obtain ⟨ev, s₁, hnew, hcase⟩ := addBegin_cases h
  have hadding : s₁.adding = s.adding := newEvent_adding hnew
  obtain rfl | ⟨s₂, hres, rfl⟩ := hcase
  · exact absurd (congrArg List.length hadding) (Nat.ne_of_gt hlt)
  · have hfree : s₂.q.evFree ≠ none := reserve_evFree hres
    exact hfree

theorem syncNext_evFree {i : ℕ} {args : AddArgs} (h : s.syncNext i args = some s')
    (hlt : s.adding.length < s'.adding.length) : s'.q.evFree ≠ none := by
  obtain ⟨ops, -, h⟩ := Option.bind_eq_some_iff.mp h
  split at h
  · rw [← Option.some.inj h] at hlt
    exact absurd hlt (lt_irrefl _)
  · next op ops =>
    dsimp only at h
    split at h
    · rw [← Option.some.inj h] at hlt ⊢
      cases hadd : EvqState.addBegin _ args with
      | none =>
          rw [hadd, Option.getD_none] at hlt
          exact absurd hlt (lt_irrefl _)
      | some s₁ =>
          rw [hadd, Option.getD_some] at hlt
          exact addBegin_evFree hadd hlt
    · rw [← Option.some.inj h] at hlt
      exact absurd hlt (lt_irrefl _)

theorem finish_q (s : EvqState) (a : Adding) (x : ℕ) :
    (addEnd.finish s a).q.timeout x = s.q.timeout x := by
  unfold addEnd.finish
  dsimp only
  split <;> rfl

/-- In the second half of `levq_add` the timeout is armed exactly when there is a place
for it. -/
theorem addEnd_result (h : s.Sound) {i : ℕ} {a : Adding} {res : AddResult}
    (ha : s.adding[i]? = some a) (hreq : a.Requests res) (hrun : s.addEnd fuel i res = some s') :
    (s.q.HasPlace a.args.timeout ∧ s.addFinds fuel a = true ∧
        s'.q.timeout a.ev = some a.args.timeout) ∨
      (¬s.q.HasPlace a.args.timeout ∧ s.addFinds fuel a = false ∧ s'.q.timeout a.ev = none) := by
  obtain ⟨slots, ready, h, -⟩ := h
  obtain ⟨hfinite, hcase⟩ := hreq
  have hmem : a ∈ s.adding := List.mem_of_getElem? ha
  have hdead : s.live a.ev = false :=
    (h.reserved_apart a.ev (List.mem_append_left _ (List.mem_map_of_mem hmem))).1
  have htq : s.q.tq a.ev = none := h.tq_none hdead
  have hpool := (h.setRegistered a.ev).pool
  -- the event is registered, and the result of `evq_set_timeout` decides
  obtain ⟨q', r, hset, htimeout⟩ : ∃ q' r, evqSetTimeout fuel
      { s.q with registered := Function.update s.q.registered a.ev true } a.ev a.args.timeout =
        some (q', r) ∧ s'.q.timeout a.ev = q'.timeout a.ev := by
    obtain ⟨b, hb, hends⟩ := addEnd_cases hrun
    obtain rfl := Option.some.inj (ha.symm.trans hb)
    have hbackend : a.args.timer = false → res = .ok := fun htimer =>
      hcase.resolve_left (by simp [htimer])
    cases hends with
    | timeout q' r hset hok => exact ⟨q', r, hset, finish_q _ a a.ev⟩
    | infinite htimer hok hinf => exact absurd hinf hfinite
    | noTimeout q' r hset htimer hr => exact ⟨q', r, hset, rfl⟩
    | failed htimer hok => exact absurd (hbackend htimer) hok
    | failedEarly htimer hok => exact absurd (hbackend htimer) hok
  rw [addFinds, hset, htimeout]
  rcases evqSetTimeout_result hpool htq hfinite hset with
    ⟨hplace, rfl, harmed⟩ | ⟨hnot, rfl, rfl⟩
  · exact Or.inl ⟨hplace, rfl, harmed⟩
  · refine Or.inr ⟨hnot, rfl, ?_⟩
    rw [Evq.timeout, htq, Option.map_none]

/-- `levq_timeout` arms the timeout. -/
theorem levqTimeout_result (h : s.Sound) {msec : ℤ} (hfinite : msec ≠ timeoutInfinite)
    (hrun : s.levqTimeout fuel ev msec = some s') :
    s.timeoutFinds fuel ev msec = true ∧ s'.q.timeout ev = some msec := by
  obtain ⟨slots, ready, h, -⟩ := h
  obtain ⟨s₁, hres, hrun⟩ := Option.bind_eq_some_iff.mp hrun
  obtain ⟨⟨q', r⟩, hset, hrun⟩ := Option.bind_eq_some_iff.mp hrun
  obtain ⟨⟨slots₁, h₁⟩, -⟩ := h.reserve hres
  obtain ⟨rfl, harmed⟩ := evqSetTimeout_armed h₁.pool (reserve_evFree hres) hfinite hset
  refine ⟨?_, ?_⟩
  · rw [timeoutFinds, hres, Option.bind_some, hset]
    rfl
  · rw [← Option.some.inj hrun]
    exact harmed

end EvqState

/-! ## Threads that change a queue -/

/-- A call that changes the queue, from `levq_control_wait(evq, 1)` on. -/
inductive Call
  | add (ev : ℕ)
  | timeout (ev : ℕ) (msec : ℤ)
  | del (ev : ℕ)
  deriving DecidableEq, Repr

/-- What a call with a finite timeout leaves behind. -/
structure Return where
  msec : ℤ
  /-- `timeout_add` has found a timeout queue or a slot for one. -/
  found : Bool
  /-- The call reports success. -/
  success : Bool
  /-- `ev->tq->msec`. -/
  armed : Option ℤ
  deriving DecidableEq, Repr

/-- An event queue, the handshake of its threads and their calls. -/
structure SharedState (θ : Type*) where
  ctl : ControlState θ
  evq : EvqState
  call : θ → Option Call
  /-- Whether the call has yielded in `levq_control_wait`. -/
  yielded : θ → Bool
  returns : List Return

/-- The steps of the threads. -/
inductive SharedOp (θ : Type*)
  /-- A step of the handshake that is not the begin or the end of a call. -/
  | control (op : ControlOp θ)
  /-- A step on the queue.  When `levq_add` has its slots, the call begins. -/
  | evq (t : θ) (op : EvqOp)
  /-- `levq_timeout` and `levq_del` begin. -/
  | timeout (t : θ) (ev : ℕ) (msec : ℤ)
  | del (t : θ) (ev : ℕ)
  /-- The rest of the call; that of `levq_add` is the `i`-th one in progress. -/
  | callEnd (t : θ) (i : ℕ) (res : AddResult)

/-- The begin and the end of a call. -/
def ControlOp.InCall {θ : Type*} : ControlOp θ → Bool
  | .controlWait _ | .controlDone _ => true
  | _ => false

/-- The second half of a call. -/
def EvqOp.InCall : EvqOp → Bool
  | .addEnd _ _ | .timeout _ _ | .del _ => true
  | _ => false

/-- The call of `levq_add` that a step has begun. -/
def EvqState.begun (s s' : EvqState) : EvqOp → Option Call
  | .addBegin _ | .syncNext _ _ =>
      if s.adding.length < s'.adding.length then s'.adding.head?.map fun a => .add a.ev else none
  | _ => none

/-- What the second half of `levq_add` leaves behind. -/
def EvqState.addReturn (fuel : ℕ) (s s' : EvqState) (a : Adding) (res : AddResult) : List Return :=
  if a.Requests res then
    [⟨a.args.timeout, s.addFinds fuel a, s.addSucceeds fuel a res, s'.q.timeout a.ev⟩]
  else []

/-- What `levq_timeout` leaves behind. -/
def EvqState.timeoutReturn (fuel : ℕ) (s s' : EvqState) (ev : ℕ) (msec : ℤ) : List Return :=
  if msec = timeoutInfinite then []
  else [⟨msec, s.timeoutFinds fuel ev msec, s.timeoutFinds fuel ev msec, s'.q.timeout ev⟩]

namespace SharedState

variable {θ : Type*}

/-- A new queue; no thread uses it. -/
def init (now : ℤ) : SharedState θ where
  ctl := ControlState.init
  evq := EvqState.init now
  call _ := none
  yielded _ := false
  returns := []

/-- The calls that requested a timeout have found a place for it, and those that report
success have armed it. -/
def Armed (s : SharedState θ) : Prop :=
  ∀ r ∈ s.returns, r.found = true ∧ (r.success = true → r.armed = some r.msec)

variable [DecidableEq θ]

/-- The thread calls `levq_control_wait(evq, 1)`. -/
def beginCall (s : SharedState θ) (t : θ) (evq : EvqState) (call : Call) :
    Option (SharedState θ) :=
  (s.ctl.step (.controlWait t)).map fun ctl =>
    { s with
      ctl, evq
      call := Function.update s.call t (some call)
      yielded := Function.update s.yielded t (ctl.act t = .switching) }

/-- The thread calls `levq_control_wait(evq, 0)`. -/
def endCall (s : SharedState θ) (t : θ) (evq : EvqState) (returns : List Return) :
    Option (SharedState θ) :=
  (s.ctl.step (.controlDone t)).map fun ctl =>
    { s with
      ctl, evq
      call := Function.update s.call t none
      returns := returns ++ s.returns }

/-- One step; `none` when the thread is elsewhere. -/
def step (fuel : ℕ) (s : SharedState θ) : SharedOp θ → Option (SharedState θ)
  | .control op => if op.InCall then none else (s.ctl.step op).map fun ctl => { s with ctl }
  | .evq t op =>
      if s.ctl.Running t ∧ ¬op.InCall then
        (s.evq.step fuel op).bind fun evq =>
          match s.evq.begun evq op with
          | none => some { s with evq }
          | some call => s.beginCall t evq call
      else none
  | .timeout t ev msec => s.beginCall t s.evq (.timeout ev msec)
  | .del t ev => s.beginCall t s.evq (.del ev)
  | .callEnd t i res =>
      match s.call t with
      | none => none
      | some (.add ev) =>
          s.evq.adding[i]?.bind fun a =>
            if a.ev = ev then
              (s.evq.step fuel (.addEnd i res)).bind fun evq =>
                s.endCall t evq (s.evq.addReturn fuel evq a res)
            else none
      | some (.timeout ev msec) =>
          (s.evq.step fuel (.timeout ev msec)).bind fun evq =>
            s.endCall t evq (s.evq.timeoutReturn fuel evq ev msec)
      | some (.del ev) => (s.evq.step fuel (.del ev)).bind fun evq => s.endCall t evq []

/-- The transitions of a run. -/
def Step (s s' : SharedState θ) : Prop := ∃ op fuel, s.step fuel op = some s'

end SharedState

/-- The slots that the calls refer to are still theirs, and a call of `levq_add` that has
yielded finds a place for its timeout. -/
def SharedOp.Safe {θ : Type*} (s : SharedState θ) : SharedOp θ → Prop
  | .evq _ op => op.Safe s.evq
  | .callEnd t i res =>
      (∀ ev, s.call t = some (.add ev) → s.yielded t = true → ∀ a, s.evq.adding[i]? = some a →
        a.Requests res → s.evq.q.HasPlace a.args.timeout) ∧
      (∀ ev msec, s.call t = some (.timeout ev msec) → (EvqOp.timeout ev msec).Safe s.evq) ∧
      ∀ ev, s.call t = some (.del ev) → (EvqOp.del ev).Safe s.evq
  | .control _ | .timeout _ _ _ | .del _ _ => True

/-! ## The thread of a step -/

/-- The thread that takes the step. -/
def ControlOp.thread {θ : Type*} : ControlOp θ → θ
  | .vmEnter t | .vmLeave t | .controlWait t | .threadSwitch t | .controlDone t
  | .controlError t | .notify t | .syncCall t | .stop t _ | .loopWait t | .idleWake t _
  | .waitDone t _ | .dispatch t | .dispatchNext t | .dispatchDone t _ | .loopExit t => t

namespace ControlState

variable {θ : Type*}

/-- What a step of the thread `t` does to the threads: it holds the VM lock or takes it, the
other ones stay where they are, and it modifies the queue with the VM lock. -/
structure Ran (s s' : ControlState θ) (op : ControlOp θ) (t : θ) : Prop where
  vm : s.vm = none ∨ s.vm = some t
  others : ∀ u, u ≠ t → s'.act u = s.act u
  modifying : s'.act t = .modifying →
    s'.vm = some t ∧ (op = .controlWait t ∨ s.act t = .switching)
  switching : s'.act t = .switching → op = .controlWait t ∨ s.act t = .switching

variable {s s' : ControlState θ} {op : ControlOp θ} {t : θ}

/-- The thread stays in Lua code or in a loop. -/
theorem Ran.stay (hrun : s.Running t) (hact : s'.act = s.act) : Ran s s' op t := by
  have ht : s'.act t = .running := by rw [hact, hrun.2]
  refine ⟨Or.inr hrun.1, fun u _ => congrFun hact u, fun h => ?_, fun h => ?_⟩
  · exact absurd (ht.symm.trans h) (by simp)
  · exact absurd (ht.symm.trans h) (by simp)

/-- Who modifies the queue holds the VM lock. -/
def Locked (s : ControlState θ) : Prop := ∀ t, s.act t = .modifying → s.vm = some t

theorem Ran.locked (h : Ran s s' op t) (hlock : s.Locked) : s'.Locked := by
  intro u hu
  by_cases hut : u = t
  · rw [hut] at hu ⊢
    exact (h.modifying hu).1
  · rw [h.others u hut] at hu
    have hvm := h.vm
    rw [hlock u hu] at hvm
    rcases hvm with hvm | hvm
    · exact absurd hvm (Option.some_ne_none u)
    · exact absurd (Option.some.inj hvm) hut

/-- While a thread takes a step, no other one modifies the queue. -/
theorem Ran.alone (h : Ran s s' op t) (hlock : s.Locked) {u : θ} (hu : s'.act u = .modifying) :
    u = t := by
  by_contra hut
  rw [h.others u hut] at hu
  have hvm := h.vm
  rw [hlock u hu] at hvm
  rcases hvm with hvm | hvm
  · exact absurd hvm (Option.some_ne_none u)
  · exact hut (Option.some.inj hvm)

variable [DecidableEq θ]

/-- The thread moves to an activity outside of a call. -/
theorem Ran.move {a : Activity} (hvm : s.vm = none ∨ s.vm = some t)
    (hact : ∀ u, s'.act u = if u = t then a else s.act u) (hmod : a ≠ .modifying)
    (hswitch : a ≠ .switching) : Ran s s' op t := by
  have ht : s'.act t = a := by rw [hact, if_pos rfl]
  refine ⟨hvm, fun u hu => by rw [hact, if_neg hu], fun h => ?_, fun h => ?_⟩
  · exact absurd (ht.symm.trans h) hmod
  · exact absurd (ht.symm.trans h) hswitch

theorem step_ran (hop : s.step op = some s') : Ran s s' op op.thread := by
  cases op with
  | vmEnter t =>
      obtain ⟨hat, heq⟩ := Option.ite_none_right_eq_some.mp hop
      rw [← Option.some.inj heq]
      exact .move (Or.inl hat.1) (s.proceed_act t · .running) (by simp) (by simp)
  | vmLeave t =>
      obtain ⟨hat, heq⟩ := Option.ite_none_right_eq_some.mp hop
      rw [← Option.some.inj heq]
      exact .move (Or.inr hat.1) (s.block_act t · .away) (by simp) (by simp)
  | controlWait t =>
      obtain ⟨hat, heq⟩ := Option.ite_none_right_eq_some.mp hop
      split at heq
      · rw [← Option.some.inj heq]
        refine ⟨Or.inr hat.1, fun u (hu : u ≠ t) => ?_, fun h => ?_, fun _ => Or.inl rfl⟩
        · rw [block_act, if_neg hu, interrupt_act]
        · rw [ControlOp.thread, block_act, if_pos rfl] at h
          exact absurd h (by simp)
      · rw [← Option.some.inj heq]
        refine ⟨Or.inr hat.1, fun u (hu : u ≠ t) => ?_, fun _ => ⟨rfl, Or.inl rfl⟩, fun _ => Or.inl rfl⟩
        rw [proceed_act, if_neg hu]
  | threadSwitch t =>
      obtain ⟨hat, heq⟩ := Option.ite_none_right_eq_some.mp hop
      split at heq
      · rw [← Option.some.inj heq]
        refine ⟨Or.inl hat.1, fun _ _ => rfl, fun h => ?_, fun _ => Or.inr hat.2⟩
        exact absurd (hat.2.symm.trans h) (by simp)
      · rw [← Option.some.inj heq]
        refine ⟨Or.inl hat.1, fun u (hu : u ≠ t) => ?_, fun _ => ⟨rfl, Or.inr hat.2⟩,
          fun _ => Or.inr hat.2⟩
        rw [proceed_act, if_neg hu]
  | controlDone t =>
      obtain ⟨hat, heq⟩ := Option.ite_none_right_eq_some.mp hop
      rw [← Option.some.inj heq]
      exact .move (Or.inr hat.1) (proceed_act _ t · .running) (by simp) (by simp)
  | controlError t =>
      obtain ⟨hat, heq⟩ := Option.ite_none_right_eq_some.mp hop
      rw [← Option.some.inj heq]
      exact .move (Or.inr hat.1) (s.proceed_act t · .running) (by simp) (by simp)
  | notify t =>
      obtain ⟨hat, heq⟩ := Option.ite_none_right_eq_some.mp hop
      rw [← Option.some.inj heq]
      exact .stay hat (interrupt_act s)
  | syncCall t =>
      obtain ⟨hat, heq⟩ := Option.ite_none_right_eq_some.mp hop
      rw [← Option.some.inj heq]
      refine .move (a := .away) (Or.inr hat.1) (fun u => ?_) (by simp) (by simp)
      rw [block_act, interrupt_act]
      rfl
  | stop t stop =>
      obtain ⟨hat, heq⟩ := Option.ite_none_right_eq_some.mp hop
      split at heq
      · rw [← Option.some.inj heq]
        exact .stay hat (interrupt_act _)
      · rw [← Option.some.inj heq]
        exact .stay hat (interrupt_act _)
  | loopWait t =>
      obtain ⟨⟨hat, -⟩, heq⟩ := Option.ite_none_right_eq_some.mp hop
      split at heq
      · rw [← Option.some.inj heq]
        exact .move (Or.inr hat.1) (block_act _ t · .idle) (by simp) (by simp)
      · rw [← Option.some.inj heq]
        exact .move (Or.inr hat.1) (block_act _ t · .waiting) (by simp) (by simp)
  | idleWake t error =>
      obtain ⟨⟨hat, -⟩, heq⟩ := Option.ite_none_right_eq_some.mp hop
      rw [← Option.some.inj heq]
      exact .move (Or.inl hat.1) (proceed_act _ t · .running) (by simp) (by simp)
  | waitDone t n =>
      obtain ⟨hat, heq⟩ := Option.ite_none_right_eq_some.mp hop
      rw [← Option.some.inj heq]
      exact .move (Or.inl hat.1) (proceed_act _ t · .running) (by simp) (by simp)
  | dispatch t =>
      obtain ⟨hat, heq⟩ := Option.ite_none_right_eq_some.mp hop
      rw [← Option.some.inj heq]
      exact .stay hat.1 rfl
  | dispatchNext t =>
      obtain ⟨hat, heq⟩ := Option.ite_none_right_eq_some.mp hop
      rw [← Option.some.inj heq]
      exact .stay hat.1 rfl
  | dispatchDone t error =>
      obtain ⟨hat, heq⟩ := Option.ite_none_right_eq_some.mp hop
      rw [← Option.some.inj heq]
      exact .stay hat.1 rfl
  | loopExit t =>
      obtain ⟨hat, heq⟩ := Option.ite_none_right_eq_some.mp hop
      rw [← Option.some.inj heq]
      exact .stay hat rfl

end ControlState

/-! ## Safe runs of threads -/

/-- When `levq_control_wait` begins, the slot for the timeout is there. -/
theorem EvqState.begun_evFree {s s' : EvqState} {fuel : ℕ} {op : EvqOp} {call : Call}
    (hrun : s.step fuel op = some s') (hbegun : s.begun s' op = some call) :
    s'.q.evFree ≠ none := by
  cases op with
  | addBegin args =>
      obtain ⟨hlt, -⟩ := Option.ite_none_right_eq_some.mp hbegun
      exact addBegin_evFree hrun hlt
  | syncNext i args =>
      obtain ⟨hlt, -⟩ := Option.ite_none_right_eq_some.mp hbegun
      exact syncNext_evFree hrun hlt
  | addEnd | del | timeout | timeoutManual | notify | clock | activate | expire | dispatch
  | coroEnd | syncCall | syncTake | schedDel | schedCancel => exact absurd hbegun (by simp [begun])

namespace SharedState

variable {θ : Type*}

/-- The slots have their roles, and a call that has not yielded still has the slot it has
reserved. -/
structure Inv (s : SharedState θ) : Prop where
  sound : s.evq.Sound
  locked : s.ctl.Locked
  switching : ∀ t, s.ctl.act t = .switching → s.yielded t = true
  place : ∀ t ev, s.ctl.act t = .modifying → s.call t = some (.add ev) → s.yielded t = false →
    s.evq.q.evFree ≠ none
  armed : s.Armed

theorem init_inv (now : ℤ) : (init now : SharedState θ).Inv where
  sound := EvqState.init_sound now
  locked := by simp [init, ControlState.init, ControlState.Locked]
  switching := by simp [init, ControlState.init]
  place := by simp [init]
  armed := by simp [init, Armed]

variable [DecidableEq θ]

/-- The transitions of a run with safe steps only. -/
def SafeStep (s s' : SharedState θ) : Prop :=
  ∃ (op : SharedOp θ) (fuel : ℕ), op.Safe s ∧ s.step fuel op = some s'

variable {s s' : SharedState θ} {t : θ} {evq : EvqState} {call : Call}

/-- A step of the handshake that is not part of a call. -/
theorem Inv.control (h : s.Inv) {op : ControlOp θ} {ctl : ControlState θ}
    (hop : op.InCall = false) (hrun : s.ctl.step op = some ctl) :
    Inv { s with ctl } := by
  have hran := ControlState.step_ran hrun
  have hnot : ∀ t, op ≠ .controlWait t := by
    rintro t rfl
    exact absurd hop (by simp [ControlOp.InCall])
  refine ⟨h.sound, hran.locked h.locked, fun u hu => ?_, fun u ev hu hcall hyield => ?_, h.armed⟩
  · by_cases hut : u = op.thread
    · rw [hut] at hu ⊢
      exact h.switching _ ((hran.switching hu).resolve_left (hnot _))
    · exact h.switching u ((hran.others u hut).symm.trans hu)
  · -- the thread has been in `sys_thread_switch`, so its call has yielded
    obtain rfl := hran.alone h.locked hu
    have hbefore := ((hran.modifying hu).2).resolve_left (hnot _)
    exact absurd ((h.switching _ hbefore).symm.trans hyield) (by simp)

theorem Inv.beginCall (h : s.Inv) (hsound : evq.Sound)
    (hfree : ∀ ev, call = .add ev → evq.q.evFree ≠ none)
    (hrun : s.beginCall t evq call = some s') : s'.Inv := by
  obtain ⟨ctl, hctl, rfl⟩ := Option.map_eq_some_iff.mp hrun
  have hran := ControlState.step_ran hctl
  refine ⟨hsound, hran.locked h.locked, fun u hu => ?_, fun u ev hu hcall _ => ?_, h.armed⟩
  · by_cases hut : u = t
    · subst hut
      simpa using hu
    · simp only [Function.update_of_ne hut]
      exact h.switching u ((hran.others u hut).symm.trans hu)
  · obtain rfl : u = t := hran.alone h.locked hu
    simp only [Function.update_self, Option.some.injEq] at hcall
    exact hfree ev hcall

theorem Inv.endCall (h : s.Inv) {returns : List Return} (hsound : evq.Sound)
    (hreturns : ∀ r ∈ returns, r.found = true ∧ (r.success = true → r.armed = some r.msec))
    (hrun : s.endCall t evq returns = some s') : s'.Inv := by
  obtain ⟨ctl, hctl, rfl⟩ := Option.map_eq_some_iff.mp hrun
  have hran := ControlState.step_ran hctl
  obtain ⟨⟨-, hat⟩, -⟩ := Option.ite_none_right_eq_some.mp hctl
  have hleft : ¬(ControlOp.controlDone t = .controlWait t ∨ s.ctl.act t = .switching) := by
    simp [hat]
  refine ⟨hsound, hran.locked h.locked, fun u hu => ?_, fun u ev hu _ _ => ?_, fun r hr => ?_⟩
  · by_cases hut : u = t
    · rw [hut] at hu
      exact absurd (hran.switching hu) hleft
    · exact h.switching u ((hran.others u hut).symm.trans hu)
  · obtain rfl : u = t := hran.alone h.locked hu
    exact absurd (hran.modifying hu).2 hleft
  · rcases List.mem_append.mp hr with hr | hr
    · exact hreturns r hr
    · exact h.armed r hr

/-- The second half of `levq_add` arms the timeout exactly when there is a place for it. -/
theorem addReturn_iff {s s' : EvqState} {fuel i : ℕ} {a : Adding} {res : AddResult} (h : s.Sound)
    (ha : s.adding[i]? = some a) (hrun : s.step fuel (.addEnd i res) = some s') :
    (∀ r ∈ s.addReturn fuel s' a res,
        r.found = true ∧ (r.success = true → r.armed = some r.msec)) ↔
      (a.Requests res → s.q.HasPlace a.args.timeout) := by
  unfold EvqState.addReturn
  by_cases hreq : a.Requests res
  · rw [if_pos hreq]
    rcases EvqState.addEnd_result h ha hreq hrun with ⟨hplace, hfinds, harmed⟩ | ⟨hnot, hfinds, -⟩
    · refine iff_of_true (fun r hr => ?_) fun _ => hplace
      rw [List.mem_singleton.mp hr]
      exact ⟨hfinds, fun _ => harmed⟩
    · refine iff_of_false (fun hall => ?_) fun hall => hnot (hall hreq)
      have hfound := (hall _ (List.mem_singleton_self _)).1
      exact absurd (hfinds.symm.trans hfound) (by simp)
  · rw [if_neg hreq]
    exact iff_of_true (fun r hr => absurd hr List.not_mem_nil) fun hreq' => absurd hreq' hreq

/-- A safe step keeps the invariant. -/
theorem SafeStep.inv (hstep : SafeStep s s') (h : s.Inv) : s'.Inv := by
  obtain ⟨op, fuel, hsafe, hrun⟩ := hstep
  cases op with
  | control op =>
      obtain ⟨hop, hrun⟩ := Option.ite_none_left_eq_some.mp hrun
      obtain ⟨ctl, hctl, rfl⟩ := Option.map_eq_some_iff.mp hrun
      exact h.control (by simpa using hop) hctl
  | evq t op =>
      obtain ⟨⟨hat, -⟩, hrun⟩ := Option.ite_none_right_eq_some.mp hrun
      obtain ⟨evq, hevq, hrun⟩ := Option.bind_eq_some_iff.mp hrun
      have hsound : evq.Sound := EvqState.SafeStep.sound ⟨op, fuel, hsafe, hevq⟩ h.sound
      split at hrun
      · rw [← Option.some.inj hrun]
        refine ⟨hsound, h.locked, h.switching, fun u ev hu _ _ => ?_, h.armed⟩
        -- the thread `t` holds the VM lock, and it is not in a call
        have hvm := (h.locked u hu).symm.trans hat.1
        obtain rfl := Option.some.inj hvm
        exact absurd (hu.symm.trans hat.2) (by simp)
      · next call hbegun =>
        exact h.beginCall hsound (fun _ _ => EvqState.begun_evFree hevq hbegun) hrun
  | timeout t ev msec => exact h.beginCall h.sound (fun _ hcall => by simp at hcall) hrun
  | del t ev => exact h.beginCall h.sound (fun _ hcall => by simp at hcall) hrun
  | callEnd t i res =>
      obtain ⟨hadd, htimeout, hdel⟩ := hsafe
      simp only [step] at hrun
      split at hrun
      · exact absurd hrun (by simp)
      · next ev hcall =>
        obtain ⟨a, ha, hrun⟩ := Option.bind_eq_some_iff.mp hrun
        obtain ⟨-, hrun⟩ := Option.ite_none_right_eq_some.mp hrun
        obtain ⟨evq, hevq, hrun⟩ := Option.bind_eq_some_iff.mp hrun
        have hsound : evq.Sound :=
          EvqState.SafeStep.sound ⟨.addEnd i res, fuel, trivial, hevq⟩ h.sound
        have hat : s.ctl.act t = .modifying := by
          obtain ⟨ctl, hctl, -⟩ := Option.map_eq_some_iff.mp hrun
          exact (Option.ite_none_right_eq_some.mp hctl).1.2
        refine h.endCall hsound ((addReturn_iff h.sound ha hevq).mpr fun hreq => ?_) hrun
        by_cases hyield : s.yielded t = true
        · exact hadd ev hcall hyield a ha hreq
        · exact Or.inl (h.place t ev hat hcall (by simpa using hyield))
      · next ev msec hcall =>
        obtain ⟨evq, hevq, hrun⟩ := Option.bind_eq_some_iff.mp hrun
        have hsound : evq.Sound := EvqState.SafeStep.sound
          ⟨.timeout ev msec, fuel, htimeout ev msec hcall, hevq⟩ h.sound
        refine h.endCall hsound (fun r hr => ?_) hrun
        unfold EvqState.timeoutReturn at hr
        split at hr
        · exact absurd hr List.not_mem_nil
        · next hfinite =>
          obtain ⟨hfinds, harmed⟩ := EvqState.levqTimeout_result h.sound hfinite hevq
          rw [List.mem_singleton.mp hr]
          exact ⟨hfinds, fun _ => harmed⟩
      · next ev hcall =>
        obtain ⟨evq, hevq, hrun⟩ := Option.bind_eq_some_iff.mp hrun
        have hsound : evq.Sound :=
          EvqState.SafeStep.sound ⟨.del ev, fuel, hdel ev hcall, hevq⟩ h.sound
        exact h.endCall hsound (fun r hr => absurd hr List.not_mem_nil) hrun

end SharedState

/-- **A timeout that is requested is armed.**  For any threads and any interleaving, as long
as a call of `levq_add` that has yielded in `levq_control_wait` finds, when it goes on, a free
slot or an event with the same timeout. -/
theorem safe_run_armed {θ : Type*} [DecidableEq θ] {now : ℤ} {s : SharedState θ}
    (hrun : Relation.ReflTransGen SharedState.SafeStep (SharedState.init now) s) : s.Armed :=
  (inv_of_reach (fun _ _ hstep => hstep.inv) (SharedState.init_inv now) hrun).armed

/-- A thread waits, and another one adds an event with a timeout. -/
theorem safe_run_armed_yielded :
    ∃ s : SharedState ℕ, Relation.ReflTransGen SharedState.SafeStep (SharedState.init 0) s ∧
      s.yielded 1 = true ∧ s.returns = [⟨100, true, true, some 100⟩] ∧ s.Armed := by
  have hrun : Relation.ReflTransGen SharedState.SafeStep (SharedState.init 0 : SharedState ℕ) _ :=
    .tail (.tail (.tail (.tail (.tail (.tail (.tail .refl
      ⟨.control (.vmEnter 0), 2, trivial, rfl⟩)
      ⟨.control (.loopWait 0), 2, trivial, rfl⟩)
      ⟨.control (.vmEnter 1), 2, trivial, rfl⟩)
      ⟨.evq 1 (.addBegin ⟨false, false, false, .function, 100, false⟩), 2, trivial, rfl⟩)
      ⟨.control (.waitDone 0 0), 2, trivial, rfl⟩)
      ⟨.control (.loopWait 0), 2, trivial, rfl⟩)
      ⟨.control (.threadSwitch 1), 2, trivial, rfl⟩
  have hlast := hrun.tail ⟨.callEnd 1 0 .ok, 2,
    ⟨fun _ _ _ _ _ _ => Or.inl (Option.some_ne_none 1), fun _ _ hcall => by simp at hcall,
      fun _ hcall => by simp at hcall⟩, rfl⟩
  exact ⟨_, hlast, rfl, rfl, safe_run_armed hlast⟩

/-- The thread `a` waits.  The thread `b` reserves a slot and yields; `c`, which finds the
counter of `b`, goes on at once and takes the slot for its event. -/
def takenSlotOps {θ : Type} (a b c : θ) : List (SharedOp θ) :=
  [.control (.vmEnter a), .control (.loopWait a), .control (.vmEnter b),
    .evq b (.addBegin ⟨false, false, false, .function, 100, false⟩), .control (.vmEnter c),
    .evq c (.addBegin ⟨false, false, false, .function, 200, false⟩), .callEnd c 0 .ok,
    .control (.vmLeave c), .control (.waitDone a 0), .control (.loopWait a),
    .control (.threadSwitch b), .callEnd b 0 .ok]

/-- The call of `b` reports success, and its event has no timeout. -/
theorem reserved_slot_taken :
    ∃ s : SharedState (Fin 3), Relation.ReflTransGen SharedState.Step (SharedState.init 0) s ∧
      ¬s.Armed := by
  have hrun : (runOps (SharedState.step 2) (SharedState.init 0) (takenSlotOps (0 : Fin 3) 1 2)).map
      (fun s => s.returns) = some [⟨100, false, true, none⟩, ⟨200, true, true, some 200⟩] := rfl
  obtain ⟨s, hs, hreturns⟩ := Option.map_eq_some_iff.mp hrun
  refine ⟨s, reach_of_runOps (fun _ op _ hop => ⟨op, 2, hop⟩) hs, fun harmed => ?_⟩
  have hlost := (harmed ⟨100, false, true, none⟩ (by rw [hreturns]; exact List.mem_cons_self)).2 rfl
  exact absurd hlost (by simp)

end LuaSys.Event
