import LuaSys.Event.Backend

/-!
# Deletion is final

A handle is a pointer to a slot, and a slot has many registrations in the course of a
run.  Here each registration has a number of its own, and the calls of its callback, the
return of `evq:del` for it and the releases of its slot are recorded under that number.

The runs are those of a single loop thread with function callbacks: the ready list is
empty when the loop waits, and the operations come from the callbacks.

The kernel tells the loop which slots to make active.  For a backend that keeps a list of its
events these are registered, but the entry of a descriptor in an epoll set may have the pointer
to a slot that has been released.

## Main definitions

* `EvqState.Held` — the slot is that of an event that is registered or ready.
* `RegState`, `RegState.step` — the queue with the records of the registrations.
* `RegState.Allowed`, `RegState.ReportsHeld` — what the program may do, and what the kernel must not.
* `RegState.Final` — what a deletion settles.

## Main results

* `deletion_final` — after `evq:del` the callback is not called again, and the slot is
  released once, as long as the kernel makes no event active that is neither registered nor
  ready.
-/

namespace LuaSys.Event

open LuaSys.Lib

namespace EvqState

/-! ## Slots in use -/

/-- The event in the slot is registered or ready. -/
def Held (s : EvqState) (ev : ℕ) : Prop := s.live ev = true ∨ (s.q.flags ev).active = true

/-- The event whose callback is called in a step. -/
def invokeCall (s : EvqState) : EvqOp → Option ℕ
  | .dispatch =>
      s.q.evReady.bind fun ev =>
        if ¬(s.q.flags ev).delete ∧ (s.q.flags ev).callback then some ev else none
  | _ => none

/-- The event that `levq_del` or the dispatch releases with `levq_del_event`. -/
def releaseCall (s : EvqState) : EvqOp → Option ℕ
  | .del ev => if (s.q.flags ev).active ∨ (s.q.flags ev).delete then none else some ev
  | .dispatch =>
      s.q.evReady.bind fun ev =>
        if (s.q.flags ev).delete ∨ (s.q.flags ev).oneshot ∨ ¬s.q.registered ev then some ev else none
  | _ => none

/-- The same slots are in use, with the same marks of deletion. -/
structure Keeps (s s' : EvqState) : Prop where
  held : ∀ x, s'.Held x ↔ s.Held x
  live : ∀ x, s'.live x = true → s.live x = true
  delete : ∀ x, s.Held x → (s'.q.flags x).delete = (s.q.flags x).delete

variable {s s' s₁ : EvqState} {fuel ev : ℕ} {slots : ℕ → Prop} {ready : List ℕ}

theorem Keeps.of_flags (hlive : s'.live = s.live) (hflags : s'.q.flags = s.q.flags) :
    Keeps s s' := by
  refine ⟨fun x => ?_, fun x hx => ?_, fun x _ => ?_⟩
  · rw [Held, Held, hlive, hflags]
  · rw [← hlive]
    exact hx
  · rw [hflags]

theorem Keeps.trans (h₁ : Keeps s s₁) (h₂ : Keeps s₁ s') : Keeps s s' := by
  refine ⟨fun x => ?_, fun x hx => ?_, fun x hx => ?_⟩
  · rw [h₂.held, h₁.held]
  · exact h₁.live x (h₂.live x hx)
  · rw [h₂.delete x ((h₁.held x).mpr hx), h₁.delete x hx]

/-- New flags that tell the same. -/
theorem Keeps.setFlags {f : EventFlags} (hactive : f.active = (s.q.flags ev).active)
    (hdelete : f.delete = (s.q.flags ev).delete) : Keeps s (s.setFlags ev f) := by
  have hflags : ∀ x, ((s.setFlags ev f).q.flags x).active = (s.q.flags x).active ∧
      ((s.setFlags ev f).q.flags x).delete = (s.q.flags x).delete := by
    intro x
    by_cases hx : x = ev
    · subst hx
      rw [setFlags_flags_self]
      exact ⟨hactive, hdelete⟩
    · simp [EvqState.setFlags, Function.update_of_ne hx]
  refine ⟨fun x => ?_, fun x hx => hx, fun x _ => (hflags x).2⟩
  rw [Held, Held, (hflags x).1]
  rfl

/-- `levq_new_event` gives out a slot that is not in use, and clears it. -/
theorem newEvent_keeps (h : s.Sound) (hnew : s.newEvent = some (ev, s')) :
    ¬s.Held ev ∧ Keeps s s' := by
  obtain ⟨slots, ready, hslots, hact⟩ := h
  obtain ⟨slots', hslots', hunused, -⟩ := hslots.newEvent hnew
  have hlive := (newEvent_livesOn hnew).live
  have hflags := (newEvent_fields hnew).1
  have hev : ¬s.Held ev := by
    rintro (hl | ha)
    · have hdead := hunused.dead
      rw [hlive] at hdead
      exact absurd (hdead.symm.trans hl) (by simp)
    · exact hunused.not_ready (hact ev ha)
  refine ⟨hev, fun x => ?_, fun x hx => ?_, fun x hx => ?_⟩
  · by_cases hx : x = ev
    · subst hx
      refine iff_of_false ?_ hev
      rw [Held, hflags, Function.update_self, hunused.dead]
      simp
    · rw [Held, Held, hlive, hflags, Function.update_of_ne hx]
  · rw [← hlive]
    exact hx
  · have hne : x ≠ ev := by
      rintro rfl
      exact hev hx
    rw [hflags, Function.update_of_ne hne]

theorem reserve_keeps (h : s.Sound) (hres : s.reserve = some s') : Keeps s s' := by
  obtain ⟨-, rfl⟩ | ⟨-, ev, s₁, hnew, rfl⟩ := reserve_cases hres
  · exact Keeps.of_flags rfl rfl
  · exact (newEvent_keeps h hnew).2.trans (Keeps.of_flags rfl rfl)

theorem addBegin_keeps (h : s.Regular) {args : AddArgs} (hrun : s.addBegin args = some s') :
    Keeps s s' := by
  obtain ⟨ev, s₁, hnew, hcase⟩ := addBegin_cases hrun
  obtain ⟨hev, hkeeps⟩ := newEvent_keeps h.sound hnew
  have hflags := (newEvent_fields hnew).1
  have hlive := (newEvent_livesOn hnew).live
  have hset : Keeps s₁ (s₁.setFlags ev args.flags) := by
    apply Keeps.setFlags
    · rw [hflags, Function.update_self]
      rfl
    · rw [hflags, Function.update_self]
      rfl
  have hsound : (s₁.setFlags ev args.flags).Sound := by
    obtain ⟨slots, ready, hslots, hact⟩ := h.sound
    obtain ⟨slots', hslots', hunused, -⟩ := hslots.newEvent hnew
    refine ⟨slots', ready, hslots'.keepFlags ?_ ?_, ?_⟩
    · rw [hflags, Function.update_self]
      rfl
    · rw [hflags, Function.update_self]
      rfl
    · exact (hact.calmer (Calmer.newEvent hnew)).calmer
        (Calmer.setFlags fun hf => absurd hf (by simp [AddArgs.flags]))
  obtain rfl | ⟨s₂, hres, rfl⟩ := hcase
  · exact hkeeps.trans hset
  · exact ((hkeeps.trans hset).trans (reserve_keeps hsound hres)).trans (Keeps.of_flags rfl rfl)

/-- A oneshot event that becomes ready is not registered any more, but its slot is in
use. -/
theorem activate_keeps (h : s.Regular) (hsafe : s.live ev = true ∨ (s.q.flags ev).active = true)
    {res : EventFlags} {now : ℤ} (hrun : s.activate ev res now = some s') : Keeps s s' := by
  have hcall := (activate_livesOn hrun).live
  obtain ⟨slots, ready, hslots, -⟩ := h.sound
  obtain ⟨f, hactive, hdelete, -, hcase⟩ := activate_cases hrun
  have hslots₁ : SlotInv (s.setFlags ev f) slots ready := hslots.keepFlags hactive hdelete
  rcases hcase with ⟨-, rfl⟩ | ⟨hnot, hpush⟩
  · exact Keeps.setFlags hactive hdelete
  · have hlive : s.live ev = true := hsafe.resolve_right (by simp [hnot])
    obtain ⟨s₂, hs₂, rfl⟩ := Option.map_eq_some_iff.mp hpush
    have hflags : s₂.q.flags = Function.update s.q.flags ev { f with active := true } := by
      rw [((hslots₁.setActive hlive).restart hs₂).2.2.2, setFlags_flags_self]
      simp only [EvqState.setFlags, Function.update_idem]
    -- only the event itself may change
    have hlive₂ : ∀ x, x ≠ ev → s₂.live x = s.live x := by
      intro x hx
      have hx₂ := congrFun hcall x
      rw [hx₂]
      unfold activateCall
      split
      · exact Function.update_of_ne hx _ _
      · rfl
    refine ⟨fun x => ?_, fun x hx => ?_, fun x _ => ?_⟩
    · by_cases hx : x = ev
      · subst hx
        refine iff_of_true (Or.inr ?_) (Or.inl hlive)
        show (s₂.q.flags x).active = true
        rw [hflags, Function.update_self]
      · show s₂.live x = true ∨ (s₂.q.flags x).active = true ↔ _
        rw [Held, hlive₂ x hx, hflags, Function.update_of_ne hx]
    · by_cases hxe : x = ev
      · rw [hxe]
        exact hlive
      · rw [← hlive₂ x hxe]
        exact hx
    · show (s₂.q.flags x).delete = _
      rw [hflags]
      by_cases hx : x = ev
      · subst hx
        rw [Function.update_self]
        exact hdelete
      · rw [Function.update_of_ne hx]

theorem expire_keeps (h : s.Regular) {now : ℤ} (hrun : s.expire fuel now = some s') :
    Keeps s s' := by
  obtain ⟨slots, ready, hslots, -⟩ := h.sound
  obtain ⟨⟨q', r'⟩, hq', rfl⟩ := Option.map_eq_some_iff.mp hrun
  obtain ⟨fired, hdue, -, -, -, hfired, -⟩ :=
    TimeoutOk.of_process hslots.pool False.elim False.elim hq'
  refine ⟨fun x => ?_, fun x hx => hx, fun x _ => ?_⟩
  · show s.live x = true ∨ (q'.flags x).active = true ↔ s.live x = true ∨ _
    rw [hfired.flags]
    by_cases hx : x ∈ fired
    · have hlive := hslots.tq_live x (hdue x hx).1
      exact iff_of_true (Or.inl hlive) (Or.inl hlive)
    · rw [if_neg hx]
  · show (q'.flags x).delete = _
    rw [hfired.flags]
    split <;> rfl

theorem timeout_keeps (h : s.Regular) (hlive : s.live ev = true) {msec : ℤ}
    (hrun : s.levqTimeout fuel ev msec = some s') : Keeps s s' := by
  obtain ⟨slots, ready, hslots, -⟩ := h.sound
  obtain ⟨s₁, hres, hrun⟩ := Option.bind_eq_some_iff.mp hrun
  obtain ⟨⟨q', r⟩, hset, hrun⟩ := Option.bind_eq_some_iff.mp hrun
  obtain ⟨⟨slots₁, hslots₁⟩, hl, -⟩ := hslots.reserve hres
  obtain ⟨-, hflags⟩ := setTimeout_sameEvents hslots₁
    (hslots₁.live_not_slots (by rw [hl, hlive])) hset
  rw [← Option.some.inj hrun]
  exact (reserve_keeps h.sound hres).trans (Keeps.of_flags rfl hflags)

/-- The flags of the events after the second step of `levq_add`. -/
theorem addEnd_flags (h : s.Regular) {i : ℕ} {res : AddResult}
    (hrun : s.addEnd fuel i res = some s') (x : ℕ) :
    (s'.q.flags x).active = (s.q.flags x).active ∧ (s'.q.flags x).delete = (s.q.flags x).delete := by
  obtain ⟨slots, ready, hslots, -⟩ := h.sound
  obtain ⟨a, ha, hends⟩ := addEnd_cases hrun
  have hmem : a ∈ s.adding := List.mem_of_getElem? ha
  have hev : ¬slots a.ev := fun hs =>
    (hslots.slots_apart a.ev hs).2.2.1 (List.mem_append_left _ (List.mem_map_of_mem hmem))
  have hfinish : ∀ t : EvqState, t.q.flags = s.q.flags →
      ((addEnd.finish t a).q.flags x).active = (s.q.flags x).active ∧
        ((addEnd.finish t a).q.flags x).delete = (s.q.flags x).delete := by
    intro t ht
    simp only [addEnd.finish]
    split
    · by_cases hx : x = a.ev
      · subst hx
        rw [setFlags_flags_self, ht]
        exact ⟨rfl, rfl⟩
      · simp [EvqState.setFlags, Function.update_of_ne hx, ht]
    · rw [ht]
      exact ⟨rfl, rfl⟩
  have hsame : ∀ q' r, evqSetTimeout fuel (s.setRegistered a.ev).q a.ev a.args.timeout =
      some (q', r) → q'.flags = s.q.flags := by
    intro q' r hset
    exact (setTimeout_sameEvents (hslots.setRegistered a.ev) hev hset).2
  cases hends with
  | timeout q' r hset hok => exact hfinish _ (hsame q' r hset)
  | infinite htimer hok hinf => exact hfinish _ rfl
  | noTimeout q' r hset htimer hr =>
      show (q'.flags x).active = _ ∧ (q'.flags x).delete = _
      rw [hsame q' r hset]
      exact ⟨rfl, rfl⟩
  | failed htimer hok => exact ⟨rfl, rfl⟩
  | failedEarly htimer hok => exact ⟨rfl, rfl⟩

theorem levqDel_flags (h : s.Regular) (ev : ℕ) :
    (s.levqDel ev).q.flags =
      Function.update s.q.flags ev { s.q.flags ev with delete := true } := by
  obtain ⟨slots, ready, hslots, -⟩ := h.sound
  have hflags : (if s.q.registered ev then s.evqDel ev else s).q.flags = s.q.flags := by
    split
    · exact hslots.evqDel_flags ev
    · rfl
  unfold EvqState.levqDel
  generalize (if s.q.registered ev then s.evqDel ev else s) = s₁ at hflags
  dsimp only
  split
  · simp only [EvqState.setFlags, hflags]
  · simp only [EvqState.setFlags, EvqState.delEvent, levqFreeEvent, hflags]

/-- The event is not registered after `levq_del`, and the other ones are as before. -/
theorem levqDel_live (h : s.Regular) (ev x : ℕ) :
    (s.levqDel ev).live x = true ↔ x ≠ ev ∧ s.live x = true := by
  obtain ⟨slots, ready, hslots, -⟩ := h.sound
  rw [(@levqDel_livesOn 0 s ev).live]
  simp only [backendCall]
  by_cases hreg : s.q.registered ev = true
  · rw [if_pos hreg, BackendCall.live]
    by_cases hx : x = ev
    · simp [hx]
    · simp [hx]
  · rw [if_neg hreg, BackendCall.live]
    refine ⟨fun hx => ⟨?_, hx⟩, And.right⟩
    rintro rfl
    exact hreg (hslots.live_registered x hx)

theorem dispatch_flags (h : s.Regular) (hev : s.q.evReady = some ev)
    (hrun : s.dispatch = some s') :
    s'.q.flags = Function.update s.q.flags ev (s.q.flags ev).clearRes := by
  obtain ⟨slots, ready, hslots, -⟩ := h.sound
  obtain ⟨ready', rfl⟩ := hslots.ready_cons hev
  have hslots₁ := hslots.popped
  rw [EvqState.dispatch, hev, Option.bind_eq_bind, Option.bind_some] at hrun
  dsimp only at hrun
  have hrelease : ∀ (t : EvqState) (oneshot : Bool), SlotInv t slots ready' →
      (t.release ev oneshot).q.flags = t.q.flags := by
    intro t oneshot ht
    have hkey : ∀ t₁ : EvqState,
        (if t₁.q.registered ev then t₁ else t₁.delEvent ev).q.flags = t₁.q.flags := by
      intro t₁
      split <;> rfl
    unfold EvqState.release
    dsimp only
    split
    · rw [hkey]
      exact ht.evqDel_flags ev
    · exact hkey t
  split at hrun
  · rw [← Option.some.inj hrun]
    rfl
  · split at hrun
    · rw [← Option.some.inj hrun]
      exact hrelease _ _ hslots₁
    · rw [← Option.some.inj hrun]
      exact hrelease _ _ hslots₁

/-- The event is registered after its dispatch exactly when its slot is not released. -/
theorem dispatch_live (h : s.Regular) (hev : s.q.evReady = some ev)
    (hrun : s.dispatch = some s') (x : ℕ) :
    s'.live x = true ↔ s.live x = true ∧ (x = ev → s.releaseCall .dispatch = none) := by
  have hactive := h.sound.active_of_evReady hev
  obtain ⟨slots, ready, hslots, -⟩ := h.sound
  rw [(@dispatch_livesOn _ _ 0 hrun).live]
  simp only [backendCall, releaseCall, hev, Option.bind_some]
  by_cases hx : x = ev
  · subst hx
    by_cases hlive : s.live x = true
    · have hreg := hslots.live_registered x hlive
      have hdelete := hslots.live_delete x hlive
      by_cases hone : (s.q.flags x).oneshot = true
      · simp [hreg, hdelete, hone, BackendCall.live]
      · simp [hreg, hdelete, hone, BackendCall.live, hlive]
    · refine iff_of_false ?_ fun hx => hlive hx.1
      split
      · simp [BackendCall.live]
      · exact hlive
  · refine Iff.trans ?_ ⟨fun hl => ⟨hl, fun heq => absurd heq hx⟩, And.left⟩
    split
    · rw [BackendCall.live, Function.update_of_ne hx]
    · rfl

/-- The slot that is released becomes the first one of the free list. -/
theorem releaseCall_evFree (h : s.Regular) {op : EvqOp} (hrun : s.step fuel op = some s')
    (hcall : s.releaseCall op = some ev) : s'.q.evFree = some ev := by
  obtain ⟨slots, ready, hslots, -⟩ := h.sound
  cases op with
  | del ev' =>
      simp only [releaseCall] at hcall
      split at hcall
      · exact absurd hcall (by simp)
      · next hnot =>
        obtain rfl := Option.some.inj hcall
        have hflags : (if s.q.registered ev' then s.evqDel ev' else s).q.flags = s.q.flags := by
          split
          · exact hslots.evqDel_flags ev'
          · rfl
        rw [← Option.some.inj hrun, EvqState.levqDel]
        dsimp only
        rw [hflags, if_neg hnot]
        rfl
  | dispatch =>
      obtain ⟨ev', hev, hcall⟩ := Option.bind_eq_some_iff.mp hcall
      obtain ⟨hcond, hcall⟩ := Option.ite_none_right_eq_some.mp hcall
      obtain rfl := Option.some.inj hcall
      rw [EvqState.step, EvqState.dispatch, hev, Option.bind_eq_bind, Option.bind_some] at hrun
      dsimp only at hrun
      split at hrun
      · rw [← Option.some.inj hrun]
        rfl
      · next hdelete =>
        have hrelease : ∀ t : EvqState, t.q.registered = s.q.registered →
            (t.release ev' (s.q.flags ev').oneshot).q.evFree = some ev' := by
          intro t ht
          by_cases hreg : s.q.registered ev' = true
          · have hone : (s.q.flags ev').oneshot = true := by simpa [hdelete, hreg] using hcond
            have hgone : (t.evqDel ev').q.registered ev' = false := by simp [EvqState.evqDel]
            simp only [EvqState.release, ht, hone, hreg, and_self, if_true, hgone,
              Bool.false_eq_true, if_false]
            rfl
          · simp only [EvqState.release, ht, hreg, Bool.false_eq_true, and_false, if_false]
            rfl
        split at hrun
        · rw [← Option.some.inj hrun]
          exact hrelease _ rfl
        · rw [← Option.some.inj hrun]
          exact hrelease _ rfl
  | addBegin | addEnd | timeout | timeoutManual | notify | clock | activate | expire | coroEnd
  | syncCall | syncTake | syncNext | schedDel | schedCancel => simp [releaseCall] at hcall

end EvqState

/-! ## Registrations -/

/-- An event queue with the records of its registrations. -/
structure RegState where
  evq : EvqState
  /-- The number of registrations so far. -/
  nregs : ℕ
  /-- The last registration in a slot, and the slot of a registration. -/
  regOf : ℕ → ℕ
  slotOf : ℕ → ℕ
  /-- Whether `evq:del` has returned for the registration. -/
  deleted : ℕ → Bool
  /-- How often its callback has been called, and how often its slot has been released. -/
  invoked : ℕ → ℕ
  released : ℕ → ℕ

namespace RegState

/-- One more in the record of a registration. -/
def tally (f : ℕ → ℕ) (regOf : ℕ → ℕ) : Option ℕ → ℕ → ℕ
  | none => f
  | some ev => Function.update f (regOf ev) (f (regOf ev) + 1)

/-- The records after a step. -/
def record (fuel : ℕ) (s : RegState) (op : EvqOp) (evq : EvqState) : RegState :=
  let s' := { s with
    evq := evq
    invoked := tally s.invoked s.regOf (s.evq.invokeCall op)
    released := tally s.released s.regOf (s.evq.releaseCall op) }
  match op, s.evq.backendCall fuel op with
  | .del ev, _ => { s' with deleted := Function.update s.deleted (s.regOf ev) true }
  | _, some (.add ev) =>
      { s' with
        nregs := s.nregs + 1
        regOf := Function.update s.regOf ev s.nregs
        slotOf := Function.update s.slotOf s.nregs ev }
  | _, _ => s'

def step (fuel : ℕ) (s : RegState) (op : EvqOp) : Option RegState :=
  (s.evq.step fuel op).map (s.record fuel op)

def init (now : ℤ) : RegState where
  evq := EvqState.init now
  nregs := 0
  regOf _ := 0
  slotOf _ := 0
  deleted _ := false
  invoked _ := 0
  released _ := 0

/-- What the program may do: the callbacks are functions, and an event is deleted once and before
its registration has ended.  The loop waits when no event is ready. -/
def Allowed (s : RegState) : EvqOp → Prop
  | .addBegin args => args.callback ≠ .coroutine ∧ args.sched = false
  | .del ev => s.evq.Held ev ∧ s.deleted (s.regOf ev) = false
  | .timeout ev _ => s.evq.live ev = true
  | .timeoutManual ev _ => s.evq.live ev = true
  | .notify ev => s.evq.Held ev
  | .expire _ => s.evq.q.evReady = none
  | .addEnd _ _ | .clock _ | .dispatch | .activate _ _ _ => True
  | .coroEnd _ _ | .syncCall | .syncTake | .syncNext _ _ | .schedDel _ | .schedCancel _ => False

/-- The event that becomes active is registered or ready. -/
def ReportsHeld (s : RegState) : EvqOp → Prop
  | .activate ev _ _ => s.evq.Held ev
  | _ => True

/-- The transitions of a run that meets this condition. -/
def HeldStep (s s' : RegState) : Prop :=
  ∃ op fuel, s.Allowed op ∧ s.ReportsHeld op ∧ s.step fuel op = some s'

/-- The slot is still that of the registration, and in use. -/
def Occupied (s : RegState) (n : ℕ) : Prop := s.regOf (s.slotOf n) = n ∧ s.evq.Held (s.slotOf n)

/-- The records fit the state of the queue. -/
structure RegInv (s : RegState) : Prop where
  regular : s.evq.Regular
  held : ∀ x, s.evq.Held x → s.regOf x < s.nregs ∧ s.slotOf (s.regOf x) = x
  deleted_lt : ∀ n, s.deleted n = true → n < s.nregs
  deleted_marked : ∀ n, s.deleted n = true → s.Occupied n →
    s.evq.live (s.slotOf n) = false ∧ (s.evq.q.flags (s.slotOf n)).delete = true
  released_occupied : ∀ n, n < s.nregs → s.Occupied n → s.released n = 0
  released_left : ∀ n, n < s.nregs → ¬s.Occupied n → s.released n = 1
  released_none : ∀ n, s.nregs ≤ n → s.released n = 0

variable {s s' : RegState} {fuel ev : ℕ}

/-! ## Steps that keep the records -/

/-- A step that neither ends nor begins a registration. -/
theorem RegInv.of_keeps (h : s.RegInv) {evq : EvqState} (hregular : evq.Regular)
    (hkeeps : EvqState.Keeps s.evq evq) : RegInv { s with evq := evq } := by
  have hocc : ∀ n, Occupied { s with evq := evq } n ↔ s.Occupied n := by
    intro n
    rw [Occupied, Occupied, hkeeps.held]
  refine ⟨hregular, fun x hx => h.held x ((hkeeps.held x).mp hx), h.deleted_lt, ?_, ?_, ?_,
    h.released_none⟩
  · intro n hdel hn
    obtain ⟨hlive, hmark⟩ := h.deleted_marked n hdel ((hocc n).mp hn)
    refine ⟨?_, ?_⟩
    · by_contra hnot
      have hl := hkeeps.live (s.slotOf n) (by simpa using hnot)
      exact absurd (hlive.symm.trans hl) (by simp)
    · rw [hkeeps.delete _ ((hocc n).mp hn).2]
      exact hmark
  · exact fun n hlt hn => h.released_occupied n hlt ((hocc n).mp hn)
  · exact fun n hlt hn => h.released_left n hlt fun hn' => hn ((hocc n).mpr hn')

/-- A step that neither deletes nor adds an event. -/
theorem record_of_ne_add {op : EvqOp} {evq : EvqState} (hop : ∀ ev, op ≠ .del ev)
    (hcall : ∀ ev, s.evq.backendCall fuel op ≠ some (.add ev)) :
    s.record fuel op evq = { s with
      evq := evq
      invoked := tally s.invoked s.regOf (s.evq.invokeCall op)
      released := tally s.released s.regOf (s.evq.releaseCall op) } := by
  unfold record
  dsimp only
  split
  · next _ ev => exact absurd rfl (hop ev)
  · next ev _ hadd => exact absurd hadd (hcall ev)
  · rfl

/-- The records do not change when no callback is called and no slot is released. -/
theorem record_of_keeps {op : EvqOp} {evq : EvqState} (hop : ∀ ev, op ≠ .del ev)
    (hinvoke : s.evq.invokeCall op = none) (hrelease : s.evq.releaseCall op = none)
    (hcall : ∀ ev, s.evq.backendCall fuel op ≠ some (.add ev)) :
    s.record fuel op evq = { s with evq := evq } := by
  rw [record_of_ne_add hop hcall, hinvoke, hrelease]
  rfl

/-- A new registration. -/
theorem RegInv.add (h : s.RegInv) {evq : EvqState} (hregular : evq.Regular)
    (hev : ¬s.evq.Held ev) (hlive : evq.live = Function.update s.evq.live ev true)
    (hflags : ∀ x, (evq.q.flags x).active = (s.evq.q.flags x).active ∧
      (evq.q.flags x).delete = (s.evq.q.flags x).delete) :
    RegInv { s with
      evq := evq
      nregs := s.nregs + 1
      regOf := Function.update s.regOf ev s.nregs
      slotOf := Function.update s.slotOf s.nregs ev } := by
  have hheld : ∀ x, x ≠ ev → (evq.Held x ↔ s.evq.Held x) := by
    intro x hx
    rw [EvqState.Held, EvqState.Held, hlive, Function.update_of_ne hx, (hflags x).1]
  have hslot : ∀ n, n < s.nregs → Function.update s.slotOf s.nregs ev n = s.slotOf n := fun n hn =>
    Function.update_of_ne (Nat.ne_of_lt hn) _ _
  -- the registrations so far are in other slots
  have hocc : ∀ n, n < s.nregs →
      (Function.update s.regOf ev s.nregs (s.slotOf n) = n ∧ evq.Held (s.slotOf n) ↔
        s.Occupied n) := by
    intro n hn
    by_cases hne : s.slotOf n = ev
    · rw [Occupied, hne, Function.update_self]
      exact iff_of_false (fun hx => absurd hx.1 (Nat.ne_of_gt hn)) fun hx => hev hx.2
    · rw [Occupied, Function.update_of_ne hne, hheld _ hne]
  refine ⟨hregular, ?_, ?_, ?_, ?_, ?_, ?_⟩
  · intro x hx
    dsimp only at hx ⊢
    by_cases hxe : x = ev
    · subst hxe
      rw [Function.update_self, Function.update_self]
      exact ⟨Nat.lt_succ_self _, rfl⟩
    · obtain ⟨hlt, hslotx⟩ := h.held x ((hheld x hxe).mp hx)
      rw [Function.update_of_ne hxe, hslot _ hlt]
      exact ⟨Nat.lt_succ_of_lt hlt, hslotx⟩
  · exact fun n hn => Nat.lt_succ_of_lt (h.deleted_lt n hn)
  · intro n hn hx
    have hlt := h.deleted_lt n hn
    rw [Occupied] at hx
    dsimp only at hx ⊢
    rw [hslot n hlt] at hx ⊢
    have hold := (hocc n hlt).mp hx
    obtain ⟨hl, hmark⟩ := h.deleted_marked n hn hold
    have hne : s.slotOf n ≠ ev := by
      intro heq
      exact hev (heq ▸ hold.2)
    rw [hlive, Function.update_of_ne hne, (hflags _).2]
    exact ⟨hl, hmark⟩
  · intro n hlt hx
    rw [Occupied] at hx
    dsimp only at hx hlt ⊢
    rcases Nat.lt_succ_iff_lt_or_eq.mp hlt with hn | hn
    · rw [hslot n hn] at hx
      exact h.released_occupied n hn ((hocc n hn).mp hx)
    · rw [hn]
      exact h.released_none s.nregs le_rfl
  · intro n hlt hx
    rw [Occupied] at hx
    dsimp only at hx hlt ⊢
    rcases Nat.lt_succ_iff_lt_or_eq.mp hlt with hn | hn
    · rw [hslot n hn] at hx
      exact h.released_left n hn fun hold => hx ((hocc n hn).mpr hold)
    · subst hn
      refine absurd ⟨?_, ?_⟩ hx
      · rw [Function.update_self, Function.update_self]
      · rw [Function.update_self, EvqState.Held, hlive, Function.update_self]
        exact Or.inl rfl
  · exact fun n hn => h.released_none n (Nat.le_of_succ_le hn)

/-- A step at one slot in use: the slot stays in use when `kept` holds, and is released
otherwise. -/
theorem RegInv.atSlot (h : s.RegInv) (hev : s.evq.Held ev) {evq : EvqState}
    (hregular : evq.Regular) (kept : Prop) {invoked released : ℕ → ℕ} {deleted : ℕ → Bool}
    (hheld : ∀ x, evq.Held x ↔ s.evq.Held x ∧ (x = ev → kept))
    (hlive : ∀ x, evq.live x = true → s.evq.live x = true)
    (hflags : ∀ x, x ≠ ev → (evq.q.flags x).delete = (s.evq.q.flags x).delete)
    (hkept : kept → released = s.released)
    (hleft : ¬kept →
      released = Function.update s.released (s.regOf ev) (s.released (s.regOf ev) + 1))
    (hdeleted : ∀ n, n ≠ s.regOf ev → deleted n = s.deleted n)
    (hmark : kept → deleted (s.regOf ev) = true →
      evq.live ev = false ∧ (evq.q.flags ev).delete = true) :
    RegInv { s with evq := evq, invoked := invoked, released := released, deleted := deleted } := by
  obtain ⟨hlt, hslot⟩ := h.held ev hev
  -- the other registrations are in other slots
  have hother : ∀ n, n ≠ s.regOf ev → s.regOf (s.slotOf n) = n → s.slotOf n ≠ ev := by
    rintro n hn hreg rfl
    exact hn hreg.symm
  have hocc : ∀ n, n ≠ s.regOf ev →
      (s.regOf (s.slotOf n) = n ∧ evq.Held (s.slotOf n) ↔ s.Occupied n) := by
    intro n hn
    rw [Occupied, hheld]
    constructor
    · exact fun hx => ⟨hx.1, hx.2.1⟩
    · exact fun hx => ⟨hx.1, hx.2, fun heq => absurd heq (hother n hn hx.1)⟩
  have hrelease : ∀ n, n ≠ s.regOf ev → released n = s.released n := by
    intro n hn
    by_cases hk : kept
    · rw [hkept hk]
    · rw [hleft hk, Function.update_of_ne hn]
  have hself : s.Occupied (s.regOf ev) := ⟨by rw [hslot], by rw [hslot]; exact hev⟩
  refine ⟨hregular, fun x hx => h.held x ((hheld x).mp hx).1, ?_, ?_, ?_, ?_, ?_⟩
  · intro n hn
    by_cases hne : n = s.regOf ev
    · rw [hne]
      exact hlt
    · dsimp only at hn
      rw [hdeleted n hne] at hn
      exact h.deleted_lt n hn
  · intro n hn hx
    rw [Occupied] at hx
    dsimp only at hn hx ⊢
    by_cases hne : n = s.regOf ev
    · subst hne
      rw [hslot] at hx ⊢
      exact hmark (((hheld ev).mp hx.2).2 rfl) hn
    · rw [hdeleted n hne] at hn
      obtain ⟨hl, hm⟩ := h.deleted_marked n hn ((hocc n hne).mp hx)
      refine ⟨?_, ?_⟩
      · by_contra hnot
        exact absurd (hl.symm.trans (hlive _ (by simpa using hnot))) (by simp)
      · rw [hflags _ (hother n hne hx.1)]
        exact hm
  · intro n hn hx
    rw [Occupied] at hx
    dsimp only at hn hx ⊢
    by_cases hne : n = s.regOf ev
    · subst hne
      rw [hslot] at hx
      rw [hkept (((hheld ev).mp hx.2).2 rfl)]
      exact h.released_occupied _ hn hself
    · rw [hrelease n hne]
      exact h.released_occupied n hn ((hocc n hne).mp hx)
  · intro n hn hx
    rw [Occupied] at hx
    dsimp only at hn hx ⊢
    by_cases hne : n = s.regOf ev
    · subst hne
      rw [hslot] at hx
      have hk : ¬kept := fun hk => hx ⟨rfl, (hheld ev).mpr ⟨hev, fun _ => hk⟩⟩
      rw [hleft hk, Function.update_self, h.released_occupied _ hn hself]
    · rw [hrelease n hne]
      exact h.released_left n hn fun hold => hx ((hocc n hne).mpr hold)
  · intro n hn
    have hne : n ≠ s.regOf ev := by
      rintro rfl
      exact absurd hlt (Nat.not_lt.mpr hn)
    dsimp only
    rw [hrelease n hne]
    exact h.released_none n hn

/-- `levq_del`: a ready event keeps its slot until its dispatch. -/
theorem RegInv.del (h : s.RegInv) (hev : s.evq.Held ev) (hregular : (s.evq.levqDel ev).Regular)
    (invoked : ℕ → ℕ) :
    RegInv { s with
      evq := s.evq.levqDel ev
      invoked := invoked
      released := tally s.released s.regOf (s.evq.releaseCall (.del ev))
      deleted := Function.update s.deleted (s.regOf ev) true } := by
  have hflags := EvqState.levqDel_flags h.regular ev
  have hlive := EvqState.levqDel_live h.regular ev
  refine h.atSlot hev hregular ((s.evq.q.flags ev).active = true) ?_ ?_ ?_ ?_ ?_ ?_ ?_
  · intro x
    rw [EvqState.Held, EvqState.Held, hlive, hflags]
    by_cases hx : x = ev
    · subst hx
      simp only [ne_eq, not_true_eq_false, false_and, Function.update_self, false_or, forall_const]
      exact ⟨fun hactive => ⟨Or.inr hactive, hactive⟩, And.right⟩
    · simp [hx]
  · exact fun x hx => ((hlive x).mp hx).2
  · intro x hx
    rw [hflags, Function.update_of_ne hx]
  · intro hactive
    simp only [EvqState.releaseCall, hactive, true_or, if_true, tally]
  · intro hactive
    obtain ⟨slots, ready, hslots, -⟩ := h.regular.sound
    have hdelete := hslots.live_delete ev (hev.resolve_right hactive)
    simp only [EvqState.releaseCall, hactive, hdelete, Bool.false_eq_true, or_self, if_false, tally]
  · exact fun n hn => Function.update_of_ne hn _ _
  · intro _ _
    refine ⟨?_, ?_⟩
    · have hnot := (hlive ev).not
      simpa using hnot
    · rw [hflags, Function.update_self]

/-- The dispatch of the first ready event. -/
theorem RegInv.dispatch (h : s.RegInv) {evq : EvqState} (hev : s.evq.q.evReady = some ev)
    (hrun : s.evq.dispatch = some evq) (hregular : evq.Regular) (invoked : ℕ → ℕ) :
    RegInv { s with
      evq := evq
      invoked := invoked
      released := tally s.released s.regOf (s.evq.releaseCall .dispatch) } := by
  have hactive := h.regular.sound.active_of_evReady hev
  have hheld : s.evq.Held ev := Or.inr hactive
  have hflags := EvqState.dispatch_flags h.regular hev hrun
  have hlive := EvqState.dispatch_live h.regular hev hrun
  have hcases : s.evq.releaseCall .dispatch = none ∨ s.evq.releaseCall .dispatch = some ev := by
    simp only [EvqState.releaseCall, hev, Option.bind_some]
    split
    · exact Or.inr rfl
    · exact Or.inl rfl
  -- an event that is not released is registered and not marked
  have hkept : s.evq.releaseCall .dispatch = none →
      s.evq.live ev = true ∧ (s.evq.q.flags ev).delete = false := by
    intro hnone
    simp only [EvqState.releaseCall, hev, Option.bind_some] at hnone
    split at hnone
    · exact absurd hnone (by simp)
    · next hnot =>
      rw [not_or, not_or, not_not, Bool.not_eq_true] at hnot
      exact ⟨h.regular.stale.live_of_registered hnot.2.2 (Or.inl hactive), hnot.1⟩
  refine h.atSlot hheld hregular (s.evq.releaseCall .dispatch = none) ?_ ?_ ?_ ?_ ?_ ?_ ?_
  · intro x
    rw [EvqState.Held, EvqState.Held, hlive, hflags]
    by_cases hx : x = ev
    · subst hx
      simp only [Function.update_self, EventFlags.clearRes, Bool.false_eq_true, or_false,
        forall_const, hactive, or_true, true_and]
      exact ⟨And.right, fun hnone => ⟨(hkept hnone).1, hnone⟩⟩
    · simp [hx]
  · exact fun x hx => ((hlive x).mp hx).1
  · intro x hx
    rw [hflags, Function.update_of_ne hx]
  · intro hnone
    rw [hnone]
    rfl
  · intro hsome
    rw [hcases.resolve_left hsome]
    rfl
  · exact fun _ _ => rfl
  · intro hnone hdel
    obtain ⟨-, hslot⟩ := h.held ev hheld
    obtain ⟨-, hmark⟩ := h.deleted_marked _ hdel ⟨by rw [hslot], by rw [hslot]; exact hheld⟩
    rw [hslot] at hmark
    exact absurd (hmark.symm.trans (hkept hnone).2) (by simp)

/-! ## Runs -/

/-- What is allowed is safe: no event is active when no event is ready. -/
theorem RegInv.safe (h : s.RegInv) {op : EvqOp} (hop : s.Allowed op) (hsafe : s.ReportsHeld op) :
    op.Safe s.evq := by
  cases op with
  | del ev => exact hop.1.imp_right Or.inl
  | timeout ev msec => exact hop
  | notify ev => exact hop
  | activate ev res now => exact hsafe
  | expire now =>
      obtain ⟨slots, ready, hslots, hact⟩ := h.regular.sound
      have hpath := hslots.readyList
      rw [show s.evq.q.evReady = none from hop] at hpath
      intro ev _ _
      by_contra hactive
      have hmem := hact ev (by simpa using hactive)
      cases ready with
      | nil => exact absurd hmem (by simp)
      | cons a ready' => exact absurd hpath.1 (by simp)
  | addBegin args | addEnd i res | timeoutManual ev manual | clock now | dispatch => exact trivial
  | coroEnd i finished | syncCall | syncTake | syncNext i args | schedDel ev | schedCancel op =>
      exact absurd hop id

theorem activateCall_ne_add (evq : EvqState) (ev ev' : ℕ) :
    evq.activateCall ev ≠ some (.add ev') := by
  unfold EvqState.activateCall
  split <;> simp

theorem RegInv.addEnd (h : s.RegInv) {i : ℕ} {res : AddResult}
    (hrun : s.step fuel (.addEnd i res) = some s') : s'.RegInv := by
  obtain ⟨evq, hevq, rfl⟩ := Option.map_eq_some_iff.mp hrun
  have hsafe : (EvqOp.addEnd i res).Safe s.evq := trivial
  have hregular := h.regular.step hsafe hevq
  have hflags := EvqState.addEnd_flags h.regular hevq
  have hlive := (EvqState.step_livesOn hevq).live
  cases hcall : s.evq.backendCall fuel (.addEnd i res) with
  | none =>
      rw [hcall] at hlive
      rw [record_of_keeps (by simp) rfl rfl (by simp [hcall])]
      refine h.of_keeps hregular ⟨fun x => ?_, fun x hx => ?_, fun x _ => (hflags x).2⟩
      · rw [EvqState.Held, EvqState.Held, hlive, (hflags x).1]
        rfl
      · rw [hlive] at hx
        exact hx
  | some c =>
      cases c with
      | del ev =>
          simp only [EvqState.backendCall] at hcall
          obtain ⟨a, -, hcall⟩ := Option.bind_eq_some_iff.mp hcall
          split at hcall <;> simp at hcall
      | add ev =>
          have hev : ¬s.evq.Held ev := by
            obtain ⟨slots, ready, hslots, hact⟩ := h.regular.sound
            obtain ⟨a, ha, hcall⟩ := Option.bind_eq_some_iff.mp hcall
            obtain ⟨-, hcall⟩ := Option.ite_none_right_eq_some.mp hcall
            obtain ⟨hlt, rfl⟩ := List.getElem?_eq_some_iff.mp ha
            simp only [Option.some.injEq, BackendCall.add.injEq] at hcall
            subst hcall
            obtain ⟨hdead, hready⟩ := hslots.reserved_apart _
              (List.mem_append_left _ (List.mem_map_of_mem (List.getElem_mem hlt)))
            rintro (hl | ha)
            · exact absurd (hdead.symm.trans hl) (by simp)
            · exact hready (hact _ ha)
          rw [hcall] at hlive
          have hadd := h.add hregular hev hlive hflags
          unfold record
          rw [hcall]
          exact hadd

theorem RegInv.step (h : s.RegInv) {op : EvqOp} (hop : s.Allowed op) (hheld : s.ReportsHeld op)
    (hrun : s.step fuel op = some s') : s'.RegInv := by
  have hsafe := h.safe hop hheld
  cases op with
  | addEnd i res => exact h.addEnd hrun
  | del ev =>
      obtain ⟨evq, hevq, rfl⟩ := Option.map_eq_some_iff.mp hrun
      have hregular := h.regular.step hsafe hevq
      obtain rfl : s.evq.levqDel ev = evq := Option.some.inj hevq
      exact h.del hop.1 hregular s.invoked
  | dispatch =>
      obtain ⟨evq, hevq, rfl⟩ := Option.map_eq_some_iff.mp hrun
      have hregular := h.regular.step hsafe hevq
      obtain ⟨ev, hev, -⟩ := Option.bind_eq_some_iff.mp hevq
      have hinv := h.dispatch hev hevq hregular
        (tally s.invoked s.regOf (s.evq.invokeCall .dispatch))
      have hcall : ∀ x, s.evq.backendCall fuel .dispatch ≠ some (.add x) := by
        intro x
        simp only [EvqState.backendCall, hev, Option.bind_some]
        split <;> simp
      rw [record_of_ne_add (by simp) hcall]
      exact hinv
  | addBegin args =>
      obtain ⟨evq, hevq, rfl⟩ := Option.map_eq_some_iff.mp hrun
      rw [record_of_keeps (by simp) rfl rfl (by simp [EvqState.backendCall])]
      exact h.of_keeps (h.regular.step hsafe hevq) (EvqState.addBegin_keeps h.regular hevq)
  | timeout ev msec =>
      obtain ⟨evq, hevq, rfl⟩ := Option.map_eq_some_iff.mp hrun
      rw [record_of_keeps (by simp) rfl rfl (by simp [EvqState.backendCall])]
      exact h.of_keeps (h.regular.step hsafe hevq) (EvqState.timeout_keeps h.regular hsafe hevq)
  | timeoutManual ev manual =>
      obtain ⟨evq, hevq, rfl⟩ := Option.map_eq_some_iff.mp hrun
      rw [record_of_keeps (by simp) rfl rfl (by simp [EvqState.backendCall])]
      refine h.of_keeps (h.regular.step hsafe hevq) ?_
      rw [← Option.some.inj hevq]
      exact EvqState.Keeps.setFlags rfl rfl
  | notify ev =>
      obtain ⟨evq, hevq, rfl⟩ := Option.map_eq_some_iff.mp hrun
      have hcall : ∀ x, s.evq.backendCall fuel (.notify ev) ≠ some (.add x) :=
        activateCall_ne_add s.evq ev
      rw [record_of_keeps (by simp) rfl rfl hcall]
      refine h.of_keeps (h.regular.step hsafe hevq) ?_
      simp only [EvqState.step, EvqState.levqNotify] at hevq
      obtain ⟨-, hevq⟩ := Option.ite_none_right_eq_some.mp hevq
      exact EvqState.activate_keeps h.regular hsafe hevq
  | activate ev res now =>
      obtain ⟨evq, hevq, rfl⟩ := Option.map_eq_some_iff.mp hrun
      have hcall : ∀ x, s.evq.backendCall fuel (.activate ev res now) ≠ some (.add x) :=
        activateCall_ne_add s.evq ev
      rw [record_of_keeps (by simp) rfl rfl hcall]
      exact h.of_keeps (h.regular.step hsafe hevq)
        (EvqState.activate_keeps h.regular hsafe hevq)
  | expire now =>
      obtain ⟨evq, hevq, rfl⟩ := Option.map_eq_some_iff.mp hrun
      rw [record_of_keeps (by simp) rfl rfl (by simp [EvqState.backendCall])]
      exact h.of_keeps (h.regular.step hsafe hevq) (EvqState.expire_keeps h.regular hevq)
  | clock now =>
      obtain ⟨evq, hevq, rfl⟩ := Option.map_eq_some_iff.mp hrun
      rw [record_of_keeps (by simp) rfl rfl (by simp [EvqState.backendCall])]
      refine h.of_keeps (h.regular.step hsafe hevq) ?_
      rw [← Option.some.inj hevq]
      exact EvqState.Keeps.of_flags rfl rfl
  | coroEnd i finished | syncCall | syncTake | syncNext i args | schedDel ev | schedCancel op =>
      exact absurd hop id

theorem init_regInv (now : ℤ) : (init now).RegInv := by
  have hheld : ∀ x, ¬(init now).evq.Held x := by
    rintro x (hlive | hactive)
    · exact absurd hlive (by simp [init, EvqState.init])
    · exact absurd hactive (by simp [init, EvqState.init])
  refine ⟨EvqState.Regular.init now, fun x hx => absurd hx (hheld x), ?_, ?_, ?_, ?_, ?_⟩
  · exact fun n hn => absurd hn (by simp [init])
  · exact fun n hn => absurd hn (by simp [init])
  · exact fun n hn => absurd hn (Nat.not_lt_zero n)
  · exact fun n hn => absurd hn (Nat.not_lt_zero n)
  · exact fun _ _ => rfl

theorem record_evq (s : RegState) (fuel : ℕ) (op : EvqOp) (evq : EvqState) :
    (s.record fuel op evq).evq = evq := by
  unfold record
  dsimp only
  split <;> rfl

theorem record_invoked (s : RegState) (fuel : ℕ) (op : EvqOp) (evq : EvqState) :
    (s.record fuel op evq).invoked = tally s.invoked s.regOf (s.evq.invokeCall op) := by
  unfold record
  dsimp only
  split <;> rfl

theorem record_deleted {n : ℕ} (hdel : s.deleted n = true) (fuel : ℕ) (op : EvqOp)
    (evq : EvqState) : (s.record fuel op evq).deleted n = true := by
  unfold record
  dsimp only
  split
  · next _ ev =>
    show Function.update s.deleted (s.regOf ev) true n = true
    by_cases hn : n = s.regOf ev
    · rw [hn, Function.update_self]
    · rw [Function.update_of_ne hn]
      exact hdel
  · exact hdel
  · exact hdel

/-- The event whose callback is called is that of a registration without a deletion. -/
theorem RegInv.invoke_not_deleted (h : s.RegInv) {op : EvqOp}
    (hcall : s.evq.invokeCall op = some ev) : s.deleted (s.regOf ev) = false := by
  cases op with
  | dispatch =>
      obtain ⟨x, hx, hcall⟩ := Option.bind_eq_some_iff.mp hcall
      obtain ⟨⟨hmark, -⟩, hcall⟩ := Option.ite_none_right_eq_some.mp hcall
      obtain rfl := Option.some.inj hcall
      have hheld : s.evq.Held x := Or.inr (h.regular.sound.active_of_evReady hx)
      obtain ⟨-, hslot⟩ := h.held x hheld
      by_contra hdel
      have hocc : s.Occupied (s.regOf x) := ⟨by rw [hslot], by rw [hslot]; exact hheld⟩
      have hdelete := (h.deleted_marked _ (by simpa using hdel) hocc).2
      rw [hslot] at hdelete
      exact hmark hdelete
  | addBegin | addEnd | del | timeout | timeoutManual | notify | clock | activate | expire
  | coroEnd | syncCall | syncTake | syncNext | schedDel | schedCancel =>
      simp [EvqState.invokeCall] at hcall

/-- No step calls the callback of a deleted registration. -/
theorem RegInv.step_deleted (h : s.RegInv) {op : EvqOp} {n : ℕ} (hdel : s.deleted n = true)
    (hrun : s.step fuel op = some s') : s'.deleted n = true ∧ s'.invoked n = s.invoked n := by
  obtain ⟨evq, hevq, rfl⟩ := Option.map_eq_some_iff.mp hrun
  refine ⟨record_deleted hdel fuel op evq, ?_⟩
  rw [record_invoked]
  cases hcall : s.evq.invokeCall op with
  | none => rfl
  | some ev =>
      have hne : n ≠ s.regOf ev := by
        rintro rfl
        exact absurd (hdel.symm.trans (h.invoke_not_deleted hcall)) (by simp)
      exact Function.update_of_ne hne _ _

theorem HeldStep.regInv (hstep : HeldStep s s') (h : s.RegInv) : s'.RegInv := by
  obtain ⟨op, fuel, hop, hsafe, hrun⟩ := hstep
  exact h.step hop hsafe hrun

/-- What a deletion has settled stays so. -/
theorem RegInv.run_deleted (h : s.RegInv) {n : ℕ} (hdel : s.deleted n = true)
    (hrun : Relation.ReflTransGen HeldStep s s') :
    s'.RegInv ∧ s'.deleted n = true ∧ s'.invoked n = s.invoked n := by
  induction hrun with
  | refl => exact ⟨h, hdel, rfl⟩
  | tail _ hstep ih =>
      obtain ⟨hinv, hdel', hcalls⟩ := ih
      have hinv' := hstep.regInv hinv
      obtain ⟨op, fuel, -, -, hstep⟩ := hstep
      obtain ⟨hdel'', hcalls'⟩ := hinv.step_deleted hdel' hstep
      exact ⟨hinv', hdel'', hcalls'.trans hcalls⟩

/-- The slot of a deleted registration is in use only as that of a ready event. -/
theorem RegInv.released_deleted (h : s.RegInv) {n : ℕ} (hdel : s.deleted n = true)
    {ready : List ℕ} (hready : ∀ ev, ev ∈ ready ↔ (s.evq.q.flags ev).active = true) :
    s.released n = if s.regOf (s.slotOf n) = n ∧ s.slotOf n ∈ ready then 0 else 1 := by
  have hlt := h.deleted_lt n hdel
  by_cases hocc : s.Occupied n
  · have hdead := (h.deleted_marked n hdel hocc).1
    have hmem : s.slotOf n ∈ ready := (hready _).mpr (hocc.2.resolve_left (by simp [hdead]))
    rw [if_pos ⟨hocc.1, hmem⟩]
    exact h.released_occupied n hlt hocc
  · rw [if_neg fun hx => hocc ⟨hx.1, Or.inr ((hready _).mp hx.2)⟩]
    exact h.released_left n hlt hocc

/-- What has been settled in the state `s`, where `evq:del` has returned for a registration,
still holds in `s'`: its callback has not been called again; no ready event is in a slot that
`levq_new_event` gives out; and the slot is released once: it has been released unless the
event is still in the ready list, and its release puts it into the free list. -/
def Final (s s' : RegState) (n : ℕ) : Prop :=
  s'.invoked n = s.invoked n ∧
    (∃ ready, Path some s'.evq.q.nextReady s'.evq.q.evReady ready none ∧ ready.Nodup ∧
      (∀ ev evq, s'.evq.newEvent = some (ev, evq) → ev ∉ ready) ∧
      s'.released n = if s'.regOf (s'.slotOf n) = n ∧ s'.slotOf n ∈ ready then 0 else 1) ∧
    ∀ fuel op ev evq, s'.evq.step fuel op = some evq → s'.evq.releaseCall op = some ev →
      evq.q.evFree = some ev

/-- In a run of such steps a deletion stays final. -/
theorem final_of_held {now : ℤ} {n : ℕ} (hrun : Relation.ReflTransGen HeldStep (init now) s)
    (hdel : s.deleted n = true) (hrest : Relation.ReflTransGen HeldStep s s') : s.Final s' n := by
  have hinv : s.RegInv := inv_of_reach (fun _ _ hstep => hstep.regInv) (init_regInv now) hrun
  obtain ⟨hinv', hdel', hcalls⟩ := hinv.run_deleted hdel hrest
  obtain ⟨slots, ready, hslots, hact⟩ := hinv'.regular.sound
  refine ⟨hcalls, ⟨ready, hslots.readyList, hslots.readyList.nodup, ?_, ?_⟩, ?_⟩
  · intro ev evq hnew
    obtain ⟨slots', -, hunused, -⟩ := hslots.newEvent hnew
    exact hunused.not_ready
  · exact hinv'.released_deleted hdel' fun ev => ⟨hslots.ready_active ev, hact ev⟩
  · intro fuel op ev evq hstep hcall
    exact EvqState.releaseCall_evFree hinv'.regular hstep hcall

end RegState

open RegState in
/-- **Deletion is final** in all of the rest of the run, as long as no event becomes active that
is neither registered nor ready. -/
theorem deletion_final {now : ℤ} {s s' : RegState} {n : ℕ}
    (hrun : Relation.ReflTransGen HeldStep (init now) s) (hdel : s.deleted n = true)
    (hrest : Relation.ReflTransGen HeldStep s s') : s.Final s' n := final_of_held hrun hdel hrest

open RegState in
/-- Two events become ready together; the callback of the second one deletes the first one,
whose callback is not called. -/
theorem deletion_final_ready :
    ∃ s s', Relation.ReflTransGen HeldStep (init 0) s ∧ s.deleted 0 = true ∧
      Relation.ReflTransGen HeldStep s s' ∧ s.released 0 = 0 ∧ s'.released 0 = 1 ∧
      s'.invoked 0 = s.invoked 0 ∧ s'.invoked 0 = 0 ∧ s'.invoked 1 = 1 := by
  have hrun : Relation.ReflTransGen HeldStep (init 0) _ :=
    .tail (.tail (.tail (.tail (.tail (.tail (.tail (.tail .refl
      ⟨.addBegin ⟨false, false, false, .function, -1, false⟩, 1, ⟨by simp, rfl⟩, trivial, rfl⟩)
      ⟨.addEnd 0 .ok, 1, trivial, trivial, rfl⟩)
      ⟨.addBegin ⟨false, false, false, .function, -1, false⟩, 1, ⟨by simp, rfl⟩, trivial, rfl⟩)
      ⟨.addEnd 0 .ok, 1, trivial, trivial, rfl⟩)
      ⟨.activate 0 { readRes := true } 0, 1, trivial, Or.inl rfl, rfl⟩)
      ⟨.activate 1 { readRes := true } 0, 1, trivial, Or.inl rfl, rfl⟩)
      ⟨.dispatch, 1, trivial, trivial, rfl⟩)
      ⟨.del 0, 1, ⟨Or.inr rfl, rfl⟩, trivial, rfl⟩
  have hfinal := deletion_final (n := 0) hrun rfl (.single ⟨.dispatch, 1, trivial, trivial, rfl⟩)
  exact ⟨_, _, hrun, rfl, .single ⟨.dispatch, 1, trivial, trivial, rfl⟩, rfl, rfl, hfinal.1, rfl,
    rfl⟩

end LuaSys.Event
