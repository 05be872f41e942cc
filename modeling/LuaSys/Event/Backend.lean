import LuaSys.Event.SlotsRun

/-!
# The calls of the backend

The functions `evq_add`, `signal_add` and `evq_add_timer` register an event, and `evq_del`
ends the registration.  A step of the loop makes at most one of these calls, and which
one is decided by the flags of the event, by `ev->evq` and by the outcome of system
calls.  The ghost `live` of the loop follows these calls; here they are named, for the
models that count them or send them to the kernel.

## Main definitions

* `BackendCall` — a registration or its end.
* `EvqState.backendCall` — the call of a step.
* `EvqState.LivesOn` — the registered events after a change, and the bound of the buffers.

## Main results

* `step_livesOn` — the registered events after a step are those before it, changed by the
  call of the backend.
* `Regular.add_dead`, `Regular.del_live` — in a safe run only events that are not registered
  are added, and only registered ones are deleted.
-/

namespace LuaSys.Event

open LuaSys.Lib

/-- A call of the backend. -/
inductive BackendCall
  /-- `evq_add`, `signal_add` or `evq_add_timer` succeeds. -/
  | add (ev : ℕ)
  /-- `evq_del`. -/
  | del (ev : ℕ)
  deriving DecidableEq, Repr

namespace EvqState

/-- Whether the backend registers the event of a call of `levq_add`: a timer needs a timeout
queue, and for the other events the result of the system calls counts. -/
def addSucceeds (fuel : ℕ) (s : EvqState) (a : Adding) (res : AddResult) : Prop :=
  if a.args.timer then
    (evqSetTimeout fuel { s.q with registered := Function.update s.q.registered a.ev true } a.ev
      a.args.timeout).map Prod.snd = some 0
  else res = .ok

instance (fuel : ℕ) (s : EvqState) (a : Adding) (res : AddResult) :
    Decidable (s.addSucceeds fuel a res) :=
  inferInstanceAs (Decidable (if a.args.timer then _ else _))

/-- `evq_del` for an event that becomes active. -/
def activateCall (s : EvqState) (ev : ℕ) : Option BackendCall :=
  if ¬(s.q.flags ev).active ∧ (s.q.flags ev).oneshot then some (.del ev) else none

/-- The call of the backend in a step. -/
def backendCall (fuel : ℕ) (s : EvqState) : EvqOp → Option BackendCall
  | .addEnd i res =>
      s.adding[i]?.bind fun a => if s.addSucceeds fuel a res then some (.add a.ev) else none
  | .del ev => if s.q.registered ev then some (.del ev) else none
  | .notify ev => s.activateCall ev
  | .activate ev _ _ => s.activateCall ev
  | .dispatch =>
      s.q.evReady.bind fun ev =>
        if ¬(s.q.flags ev).delete ∧ (s.q.flags ev).oneshot ∧ s.q.registered ev then some (.del ev)
        else none
  | .coroEnd i finished =>
      s.coros[i]?.bind fun ev => if finished ∧ s.q.registered ev then some (.del ev) else none
  | .addBegin _ | .timeout _ _ | .timeoutManual _ _ | .clock _ | .expire _ | .syncCall | .syncTake
  | .syncNext _ _ | .schedDel _ | .schedCancel _ => none

end EvqState

/-- The registered events after a call of the backend. -/
def BackendCall.live (live : ℕ → Bool) : Option BackendCall → ℕ → Bool
  | none => live
  | some (.add ev) => Function.update live ev true
  | some (.del ev) => Function.update live ev false

namespace EvqState

/-- The registered events of `s'` are `live`, and there are not too many slots. -/
structure LivesOn (s s' : EvqState) (live : ℕ → Bool) : Prop where
  live : s'.live = live
  nslots : s.nslots ≤ maxSlots → s'.nslots ≤ maxSlots

variable {s s' : EvqState} {fuel ev : ℕ}

/-! ## The parts of a step -/

theorem newEvent_livesOn (h : s.newEvent = some (ev, s')) : LivesOn s s' s.live := by
  obtain ⟨-, rfl⟩ | ⟨-, -, hlt, rfl⟩ := newEvent_cases h
  · exact ⟨rfl, id⟩
  · exact ⟨rfl, fun _ => hlt⟩

theorem reserve_livesOn (h : s.reserve = some s') : LivesOn s s' s.live := by
  obtain ⟨-, rfl⟩ | ⟨-, ev, s₁, hnew, rfl⟩ := reserve_cases h
  · exact ⟨rfl, id⟩
  · have hon := newEvent_livesOn hnew
    exact ⟨hon.live, hon.nslots⟩

theorem addBegin_livesOn {args : AddArgs} (h : s.addBegin args = some s') :
    LivesOn s s' s.live := by
  obtain ⟨ev, s₁, hnew, hcase⟩ := addBegin_cases h
  have hon := newEvent_livesOn hnew
  obtain rfl | ⟨s₂, hres, rfl⟩ := hcase
  · exact ⟨hon.live, hon.nslots⟩
  · have hon₂ := reserve_livesOn hres
    exact ⟨hon₂.live.trans hon.live, fun hle => hon₂.nslots (hon.nslots hle)⟩

theorem finish_live (s : EvqState) (a : Adding) :
    (addEnd.finish s a).live = Function.update s.live a.ev true ∧
      (addEnd.finish s a).nslots = s.nslots := by
  unfold addEnd.finish
  dsimp only
  split <;> exact ⟨rfl, rfl⟩

theorem addEnd_livesOn {i : ℕ} {res : AddResult} (h : s.addEnd fuel i res = some s') :
    LivesOn s s' (BackendCall.live s.live (s.backendCall fuel (.addEnd i res))) := by
  obtain ⟨a, ha, hends⟩ := addEnd_cases h
  simp only [backendCall, ha, Option.bind_some]
  -- in the branches where `finish` is reached the backend has registered the event
  have hfinish : ∀ q : Evq, LivesOn s (addEnd.finish { s with
      adding := s.adding.eraseIdx i, q := q } a) (BackendCall.live s.live (some (.add a.ev))) := by
    intro q
    obtain ⟨hlive, hn⟩ := finish_live { s with adding := s.adding.eraseIdx i, q := q } a
    exact ⟨hlive, fun hle => le_of_eq_of_le hn hle⟩
  have hbackend : a.args.timer = false → (s.addSucceeds fuel a res ↔ res = .ok) := by
    intro htimer
    rw [addSucceeds, if_neg (by simp [htimer])]
  have htimeout : ∀ q' r, evqSetTimeout fuel (s.setRegistered a.ev).q a.ev a.args.timeout =
      some (q', r) → a.args.timer = true → (s.addSucceeds fuel a res ↔ r = 0) := by
    intro q' r hset htimer
    rw [addSucceeds, if_pos htimer]
    exact (congrArg (Option.map Prod.snd · = some 0) hset).to_iff.trans Option.some_inj
  cases hends with
  | timeout q' r hset hok =>
      have hsucceeds : s.addSucceeds fuel a res := by
        obtain ⟨htimer, hr⟩ | ⟨htimer, hok, -⟩ := hok
        · exact (htimeout q' r hset htimer).mpr hr
        · exact (hbackend htimer).mpr hok
      rw [if_pos hsucceeds]
      exact hfinish q'
  | infinite htimer hok hinf =>
      rw [if_pos ((hbackend htimer).mpr hok)]
      exact hfinish _
  | noTimeout q' r hset htimer hr =>
      rw [if_neg fun hsucceeds => hr ((htimeout q' r hset htimer).mp hsucceeds)]
      exact ⟨rfl, id⟩
  | failed htimer hok | failedEarly htimer hok =>
      rw [if_neg fun hsucceeds => hok ((hbackend htimer).mp hsucceeds)]
      exact ⟨rfl, id⟩

theorem levqDel_livesOn (s : EvqState) (ev : ℕ) :
    LivesOn s (s.levqDel ev) (BackendCall.live s.live (s.backendCall fuel (.del ev))) := by
  have hkeep : ∀ s₁ : EvqState, LivesOn s₁ (if (s₁.q.flags ev).active ∨ (s₁.q.flags ev).delete
      then s₁ else s₁.delEvent ev) s₁.live := by
    intro s₁
    split <;> exact ⟨rfl, id⟩
  unfold EvqState.levqDel
  simp only [backendCall]
  by_cases hreg : s.q.registered ev = true
  · rw [if_pos hreg, if_pos hreg]
    exact ⟨(hkeep (s.evqDel ev)).live, (hkeep (s.evqDel ev)).nslots⟩
  · rw [if_neg hreg, if_neg hreg]
    exact ⟨(hkeep s).live, (hkeep s).nslots⟩

/-- A oneshot event is deleted when it becomes active. -/
def liveActivated (s : EvqState) (ev : ℕ) : ℕ → Bool :=
  if (s.q.flags ev).oneshot then Function.update s.live ev false else s.live

theorem restart_livesOn {now : ℤ} (h : s.restart ev now = some s') :
    LivesOn s s' (s.liveActivated ev) := by
  unfold EvqState.restart at h
  unfold liveActivated
  split at h
  · next hone =>
    rw [← Option.some.inj h, if_pos hone]
    exact ⟨rfl, id⟩
  · next hone =>
    rw [if_neg hone]
    split at h
    · obtain ⟨q', -, rfl⟩ := Option.map_eq_some_iff.mp h
      exact ⟨rfl, id⟩
    · rw [← Option.some.inj h]
      exact ⟨rfl, id⟩

theorem pushReady_livesOn {now : ℤ} (h : s.pushReady ev now = some s') :
    LivesOn s s' (s.liveActivated ev) := by
  obtain ⟨s₂, hs₂, rfl⟩ := Option.map_eq_some_iff.mp h
  have hon := restart_livesOn hs₂
  rw [liveActivated, setFlags_flags_self] at hon
  exact ⟨hon.live, hon.nslots⟩

theorem activate_livesOn {res : EventFlags} {now : ℤ} (h : s.activate ev res now = some s') :
    LivesOn s s' (BackendCall.live s.live (s.activateCall ev)) := by
  obtain ⟨f, -, -, honeshot, hcase⟩ := activate_cases h
  unfold activateCall
  rcases hcase with ⟨hact, rfl⟩ | ⟨hact, hpush⟩
  · rw [if_neg (fun hnot => hnot.1 hact)]
    exact ⟨rfl, id⟩
  · have hon := pushReady_livesOn hpush
    rw [liveActivated, setFlags_flags_self, honeshot] at hon
    by_cases hone : (s.q.flags ev).oneshot = true
    · rw [if_pos ⟨by simp [hact], hone⟩]
      rw [if_pos hone] at hon
      exact ⟨hon.live, hon.nslots⟩
    · rw [if_neg (fun hnot => hone hnot.2)]
      rw [if_neg hone] at hon
      exact ⟨hon.live, hon.nslots⟩

theorem release_livesOn (s : EvqState) (ev : ℕ) (oneshot : Bool) :
    LivesOn s (s.release ev oneshot)
      (if oneshot ∧ s.q.registered ev then Function.update s.live ev false else s.live) := by
  unfold EvqState.release
  dsimp only
  split
  · split <;> exact ⟨rfl, id⟩
  · split <;> exact ⟨rfl, id⟩

theorem dispatch_livesOn (h : s.dispatch = some s') :
    LivesOn s s' (BackendCall.live s.live (s.backendCall fuel .dispatch)) := by
  obtain ⟨ev, hev, h⟩ := Option.bind_eq_some_iff.mp h
  simp only [backendCall, hev, Option.bind_some]
  dsimp only at h
  by_cases hdel : (s.q.flags ev).delete = true
  · rw [if_pos hdel] at h
    rw [if_neg (fun hnot => hnot.1 hdel), ← Option.some.inj h]
    exact ⟨rfl, id⟩
  · rw [if_neg hdel] at h
    have hrel := release_livesOn ({ s with q := { s.q with
      evReady := s.q.nextReady ev } }.setFlags ev (s.q.flags ev).clearRes) ev (s.q.flags ev).oneshot
    have hon : LivesOn s s' (if (s.q.flags ev).oneshot ∧ s.q.registered ev then
        Function.update s.live ev false else s.live) := by
      split at h
      · rw [← Option.some.inj h]
        exact ⟨hrel.live, hrel.nslots⟩
      · rw [← Option.some.inj h]
        exact ⟨hrel.live, hrel.nslots⟩
    by_cases hone : (s.q.flags ev).oneshot = true ∧ s.q.registered ev = true
    · rw [if_pos ⟨hdel, hone⟩]
      rw [if_pos hone] at hon
      exact hon
    · rw [if_neg (fun hnot => hone hnot.2)]
      rw [if_neg hone] at hon
      exact hon

theorem coroEnd_livesOn {i : ℕ} {finished : Bool} (h : s.coroEnd i finished = some s') :
    LivesOn s s' (BackendCall.live s.live (s.backendCall fuel (.coroEnd i finished))) := by
  obtain ⟨ev, hev, h⟩ := Option.bind_eq_some_iff.mp h
  simp only [backendCall, hev, Option.bind_some]
  dsimp only at h
  split at h
  · next hfin =>
    rw [if_pos hfin, ← Option.some.inj h]
    exact ⟨rfl, id⟩
  · next hfin =>
    rw [if_neg hfin, ← Option.some.inj h]
    exact ⟨rfl, id⟩

theorem syncNext_livesOn {i : ℕ} {args : AddArgs} (h : s.syncNext i args = some s') :
    LivesOn s s' s.live := by
  obtain ⟨ops, hi, h⟩ := Option.bind_eq_some_iff.mp h
  split at h
  · rw [← Option.some.inj h]
    exact ⟨rfl, id⟩
  · dsimp only at h
    split at h
    · rw [← Option.some.inj h]
      cases hadd : EvqState.addBegin _ args with
      | none => exact ⟨rfl, id⟩
      | some s₃ =>
          have hon := addBegin_livesOn hadd
          exact ⟨hon.live, hon.nslots⟩
    · rw [← Option.some.inj h]
      exact ⟨rfl, id⟩

/-- The registered events after a step are those before it, changed by the call of the
backend. -/
theorem step_livesOn {op : EvqOp} (h : s.step fuel op = some s') :
    LivesOn s s' (BackendCall.live s.live (s.backendCall fuel op)) := by
  cases op with
  | addBegin args => exact addBegin_livesOn h
  | addEnd i res => exact addEnd_livesOn h
  | del ev =>
      rw [← Option.some.inj h]
      exact levqDel_livesOn s ev
  | timeout ev msec =>
      obtain ⟨s₁, hres, h⟩ := Option.bind_eq_some_iff.mp h
      obtain ⟨⟨q', r⟩, -, h⟩ := Option.bind_eq_some_iff.mp h
      rw [← Option.some.inj h]
      have hon := reserve_livesOn hres
      exact ⟨hon.live, hon.nslots⟩
  | notify ev =>
      simp only [step, levqNotify] at h
      split at h
      · exact activate_livesOn h
      · exact absurd h (by simp)
  | activate ev res now => exact activate_livesOn h
  | expire now =>
      obtain ⟨r, -, rfl⟩ := Option.map_eq_some_iff.mp h
      exact ⟨rfl, id⟩
  | dispatch => exact dispatch_livesOn h
  | coroEnd i finished => exact coroEnd_livesOn h
  | syncCall =>
      obtain ⟨⟨ev, s₁⟩, hnew, rfl⟩ := Option.map_eq_some_iff.mp h
      have hon := newEvent_livesOn hnew
      exact ⟨hon.live, hon.nslots⟩
  | syncNext i args => exact syncNext_livesOn h
  | schedDel ev =>
      rw [← Option.some.inj h]
      unfold EvqState.schedDel
      split <;> exact ⟨rfl, id⟩
  | timeoutManual ev manual | clock now | syncTake | schedCancel op =>
      rw [← Option.some.inj h]
      exact ⟨rfl, id⟩

/-! ## Events that only look registered

A call of `levq_add` that fails after `ev->evq` is set leaves the field behind in a free
slot.  Nobody has a handle to it. -/

/-- `ev->evq` is set, but the event is not registered. -/
def Stale (s : EvqState) (ev : ℕ) : Prop := s.q.registered ev = true ∧ s.live ev = false

/-- A stale event is neither active nor deleted. -/
def StaleFresh (s : EvqState) : Prop := ∀ ev, s.Stale ev → (s.q.flags ev).Fresh

variable {slots : ℕ → Prop} {ready : List ℕ}

/-- The same events look registered, with the same flags. -/
theorem StaleFresh.congr (h : s.StaleFresh) (hlive : s'.live = s.live)
    (hreg : s'.q.registered = s.q.registered) (hflags : s'.q.flags = s.q.flags) :
    s'.StaleFresh := by
  intro x hx
  rw [Stale, hlive, hreg] at hx
  rw [hflags]
  exact h x hx

theorem StaleFresh.setFlags (h : s.StaleFresh) {f : EventFlags} (hf : s.Stale ev → f.Fresh) :
    (s.setFlags ev f).StaleFresh := by
  intro x hx
  by_cases hxe : x = ev
  · subst hxe
    rw [setFlags_flags_self]
    exact hf hx
  · simp only [EvqState.setFlags, Function.update_of_ne hxe]
    exact h x hx

theorem newEvent_fields (h : s.newEvent = some (ev, s')) :
    s'.q.flags = Function.update s.q.flags ev {} ∧
      s'.q.registered = Function.update s.q.registered ev false := by
  obtain ⟨-, rfl⟩ | ⟨-, -, -, rfl⟩ := newEvent_cases h
  · exact ⟨rfl, rfl⟩
  · exact ⟨rfl, rfl⟩

theorem StaleFresh.newEvent (h : s.StaleFresh) (hnew : s.newEvent = some (ev, s')) :
    s'.StaleFresh ∧ ¬s'.Stale ev := by
  obtain ⟨hflags, hreg⟩ := newEvent_fields hnew
  have hlive := (newEvent_livesOn hnew).live
  have hev : ¬s'.Stale ev := by
    rw [Stale, hreg, Function.update_self]
    exact fun hx => absurd hx.1 (by simp)
  refine ⟨fun x hx => ?_, hev⟩
  by_cases hxe : x = ev
  · exact absurd (hxe ▸ hx) hev
  · rw [Stale, hlive, hreg, Function.update_of_ne hxe] at hx
    rw [hflags, Function.update_of_ne hxe]
    exact h x hx

theorem StaleFresh.reserve (h : s.StaleFresh) (hres : s.reserve = some s') : s'.StaleFresh := by
  obtain ⟨-, rfl⟩ | ⟨-, ev, s₁, hnew, rfl⟩ := reserve_cases hres
  · exact h
  · exact (h.newEvent hnew).1.congr rfl rfl rfl

theorem StaleFresh.addBegin (h : s.StaleFresh) {args : AddArgs}
    (hrun : s.addBegin args = some s') : s'.StaleFresh := by
  obtain ⟨ev, s₁, hnew, hcase⟩ := addBegin_cases hrun
  obtain ⟨h₁, hev⟩ := h.newEvent hnew
  have h₂ : (s₁.setFlags ev args.flags).StaleFresh := h₁.setFlags fun hx => absurd hx hev
  obtain rfl | ⟨s₂, hres, rfl⟩ := hcase
  · exact h₂
  · exact (h₂.reserve hres).congr rfl rfl rfl

/-- The end of a registration is not stale. -/
theorem StaleFresh.evqDel (h : s.StaleFresh) (hslots : SlotInv s slots ready) (ev : ℕ) :
    (s.evqDel ev).StaleFresh ∧ ¬(s.evqDel ev).Stale ev := by
  have hsame : (s.evqDel ev).q.registered = Function.update s.q.registered ev false := by
    simp only [EvqState.evqDel]
    split
    · rw [(TimeoutOk.del hslots.pool ev).1.registered]
    · rfl
  have hev : ¬(s.evqDel ev).Stale ev := by
    rw [Stale, hsame, Function.update_self]
    exact fun hx => absurd hx.1 (by simp)
  refine ⟨fun x hx => ?_, hev⟩
  by_cases hxe : x = ev
  · exact absurd (hxe ▸ hx) hev
  · rw [hslots.evqDel_flags]
    rw [Stale, hsame, Function.update_of_ne hxe] at hx
    simp only [EvqState.evqDel, Function.update_of_ne hxe] at hx
    exact h x hx

/-- A timeout of an event that is not in the pool. -/
theorem setTimeout_sameEvents (hslots : SlotInv s slots ready) (hev : ¬slots ev) {q' : Evq}
    {msec res : ℤ} (hrun : evqSetTimeout fuel s.q ev msec = some (q', res)) :
    q'.registered = s.q.registered ∧ q'.flags = s.q.flags := by
  obtain ⟨hsame, -, -⟩ := TimeoutOk.of_setTimeout hslots.pool False.elim hev False.elim hrun
  exact ⟨hsame.registered, hsame.flags⟩

theorem StaleFresh.finish (h : s.StaleFresh) (a : Adding) : (addEnd.finish s a).StaleFresh := by
  have hlive : StaleFresh { s with live := Function.update s.live a.ev true } := by
    intro x hx
    by_cases hxe : x = a.ev
    · rw [Stale, hxe] at hx
      simp at hx
    · rw [Stale] at hx
      simp only [Function.update_of_ne hxe] at hx
      exact h x hx
  simp only [addEnd.finish]
  split
  · refine hlive.setFlags fun hx => ?_
    rw [Stale] at hx
    simp at hx
  · exact hlive

theorem StaleFresh.addEnd (h : s.StaleFresh) (hslots : SlotInv s slots ready) {i : ℕ}
    {res : AddResult} (hrun : s.addEnd fuel i res = some s') : s'.StaleFresh := by
  obtain ⟨a, ha, hends⟩ := addEnd_cases hrun
  have hmem : a ∈ s.adding := List.mem_of_getElem? ha
  have hev : ¬slots a.ev := fun hs =>
    (hslots.slots_apart a.ev hs).2.2.1 (List.mem_append_left _ (List.mem_map_of_mem hmem))
  -- with `ev->evq` set, the event is stale and fresh
  have hreg : StaleFresh (setRegistered { s with adding := s.adding.eraseIdx i } a.ev) := by
    intro x hx
    by_cases hxe : x = a.ev
    · rw [hxe]
      exact hslots.adding_fresh a hmem
    · simp only [Stale, setRegistered, Function.update_of_ne hxe] at hx
      exact h x hx
  have htimeout : ∀ q' r, evqSetTimeout fuel (s.setRegistered a.ev).q a.ev a.args.timeout =
      some (q', r) → StaleFresh { s with adding := s.adding.eraseIdx i, q := q' } := by
    intro q' r hset
    obtain ⟨hr, hf⟩ := setTimeout_sameEvents (hslots.setRegistered a.ev) hev hset
    exact hreg.congr rfl hr hf
  cases hends with
  | timeout q' r hset hok => exact (htimeout q' r hset).finish a
  | infinite htimer hok hinf => exact hreg.finish a
  | noTimeout q' r hset htimer hr => exact (htimeout q' r hset).congr rfl rfl rfl
  | failed htimer hok => exact hreg.congr rfl rfl rfl
  | failedEarly htimer hok => exact h.congr rfl rfl rfl

theorem StaleFresh.levqDel (h : s.StaleFresh) (hslots : SlotInv s slots ready) (ev : ℕ) :
    (s.levqDel ev).StaleFresh := by
  have h₁ : (if s.q.registered ev then s.evqDel ev else s).StaleFresh ∧
      ¬(if s.q.registered ev then s.evqDel ev else s).Stale ev := by
    split
    · exact h.evqDel hslots ev
    · next hreg => exact ⟨h, fun hx => hreg hx.1⟩
  unfold EvqState.levqDel
  generalize (if s.q.registered ev then s.evqDel ev else s) = s₁ at h₁
  obtain ⟨h₁, hev⟩ := h₁
  dsimp only
  split
  · exact h₁.setFlags fun hx => absurd hx hev
  · exact StaleFresh.setFlags (s := s₁.delEvent ev) (h₁.congr rfl rfl rfl) fun hx => absurd hx hev

theorem StaleFresh.restart (h : s.StaleFresh) (hslots : SlotInv s slots ready) {now : ℤ}
    (hrun : s.restart ev now = some s') : s'.StaleFresh := by
  unfold EvqState.restart at hrun
  split at hrun
  · rw [← Option.some.inj hrun]
    exact (h.evqDel hslots ev).1
  · split at hrun
    · next htq =>
      obtain ⟨t, ht⟩ := Option.isSome_iff_exists.mp htq.1
      obtain ⟨q', hq', hsame, -, -⟩ :=
        @TimeoutOk.reset _ _ _ _ _ now _ _ hslots.pool False.elim ht False.elim
      rw [hq', Option.map_some, Option.some.injEq] at hrun
      rw [← hrun]
      exact h.congr rfl hsame.registered hsame.flags
    · rw [← Option.some.inj hrun]
      exact h

theorem StaleFresh.activate (h : s.StaleFresh) (hslots : SlotInv s slots ready)
    (hsafe : s.live ev = true ∨ (s.q.flags ev).active = true) {res : EventFlags} {now : ℤ}
    (hrun : s.activate ev res now = some s') : s'.StaleFresh := by
  have hev : ¬s.Stale ev := by
    intro hx
    rcases hsafe with hlive | hactive
    · exact absurd (hlive.symm.trans hx.2) (by simp)
    · exact absurd (hactive.symm.trans (h ev hx).1) (by simp)
  obtain ⟨f, hactive, hdelete, -, hcase⟩ := activate_cases hrun
  have h₁ : (s.setFlags ev f).StaleFresh := h.setFlags fun hx => absurd hx hev
  have hslots₁ : SlotInv (s.setFlags ev f) slots ready := hslots.keepFlags hactive hdelete
  rcases hcase with ⟨-, rfl⟩ | ⟨hnot, hpush⟩
  · exact h₁
  · have hlive : s.live ev = true := hsafe.resolve_right (by simp [hnot])
    obtain ⟨s₂, hs₂, rfl⟩ := Option.map_eq_some_iff.mp hpush
    have h₂ : ((s.setFlags ev f).setFlags ev
        { (s.setFlags ev f).q.flags ev with active := true }).StaleFresh :=
      h₁.setFlags fun hx => absurd hx hev
    exact (h₂.restart (hslots₁.setActive hlive) hs₂).congr rfl rfl rfl

theorem StaleFresh.expire (h : s.StaleFresh) (hslots : SlotInv s slots ready) {now : ℤ}
    (hrun : s.expire fuel now = some s') : s'.StaleFresh := by
  obtain ⟨⟨q', r'⟩, hq', rfl⟩ := Option.map_eq_some_iff.mp hrun
  obtain ⟨fired, hdue, -, -, -, hfired, -⟩ :=
    TimeoutOk.of_process hslots.pool False.elim False.elim hq'
  intro x hx
  have hx' : s.Stale x := ⟨hfired.registered ▸ hx.1, hx.2⟩
  have hnot : x ∉ fired := by
    intro hmem
    exact absurd ((hslots.tq_live x (hdue x hmem).1).symm.trans hx.2) (by simp)
  have hflags : q'.flags x = s.q.flags x := by rw [hfired.flags, if_neg hnot]
  rw [hflags]
  exact h x hx'

theorem StaleFresh.release (h : s.StaleFresh) (hslots : SlotInv s slots ready) (ev : ℕ)
    (oneshot : Bool) : (s.release ev oneshot).StaleFresh := by
  have hkey : ∀ s₁ : EvqState, s₁.StaleFresh →
      (if s₁.q.registered ev then s₁ else s₁.delEvent ev).StaleFresh := by
    intro s₁ h₁
    split
    · exact h₁
    · exact h₁.congr rfl rfl rfl
  unfold EvqState.release
  split
  · exact hkey _ (h.evqDel hslots ev).1
  · exact hkey s h

theorem StaleFresh.dispatch (h : s.StaleFresh) (hsound : s.Sound) (hrun : s.dispatch = some s') :
    s'.StaleFresh := by
  obtain ⟨slots, ready, hslots, -⟩ := hsound
  obtain ⟨ev, hev, hrun⟩ := Option.bind_eq_some_iff.mp hrun
  obtain ⟨ready', rfl⟩ := hslots.ready_cons hev
  have hslots₁ := hslots.popped
  have h₁ : ({ s with q := { s.q with evReady := s.q.nextReady ev } }.setFlags ev
      (s.q.flags ev).clearRes).StaleFresh :=
    StaleFresh.setFlags (s := { s with q := { s.q with evReady := s.q.nextReady ev } })
      (h.congr rfl rfl rfl) fun hx => ⟨rfl, (h ev hx).2⟩
  dsimp only at hrun
  split at hrun
  · rw [← Option.some.inj hrun]
    exact h₁.congr rfl rfl rfl
  · have h₂ := h₁.release hslots₁ ev (s.q.flags ev).oneshot
    split at hrun
    · rw [← Option.some.inj hrun]
      exact h₂.congr rfl rfl rfl
    · rw [← Option.some.inj hrun]
      exact h₂

theorem StaleFresh.coroEnd (h : s.StaleFresh) (hslots : SlotInv s slots ready) {i : ℕ}
    {finished : Bool} (hrun : s.coroEnd i finished = some s') : s'.StaleFresh := by
  obtain ⟨ev, -, hrun⟩ := Option.bind_eq_some_iff.mp hrun
  dsimp only at hrun
  split at hrun
  · rw [← Option.some.inj hrun]
    exact (h.evqDel hslots ev).1.congr rfl rfl rfl
  · rw [← Option.some.inj hrun]
    exact h.congr rfl rfl rfl

theorem StaleFresh.syncNext (h : s.StaleFresh) {i : ℕ} {args : AddArgs}
    (hrun : s.syncNext i args = some s') : s'.StaleFresh := by
  obtain ⟨ops, -, hrun⟩ := Option.bind_eq_some_iff.mp hrun
  cases ops with
  | nil =>
      rw [← Option.some.inj hrun]
      exact h.congr rfl rfl rfl
  | cons op ops =>
      have h₁ : ({ s with syncTaken := s.syncTaken.set i ops }.delEvent op).StaleFresh :=
        h.congr rfl rfl rfl
      dsimp only at hrun
      split at hrun
      · rw [← Option.some.inj hrun]
        cases hadd : EvqState.addBegin _ args with
        | none => exact h₁
        | some s₃ => exact h₁.addBegin hadd
      · rw [← Option.some.inj hrun]
        exact h₁

theorem StaleFresh.schedDel (h : s.StaleFresh)
    (hsafe : s.q.registered ev = true → s.live ev = true) : (s.schedDel ev).StaleFresh := by
  unfold EvqState.schedDel
  split
  · exact h
  · refine StaleFresh.congr (s := s.setFlags ev _) (h.setFlags fun hx => ?_) rfl rfl rfl
    exact absurd ((hsafe hx.1).symm.trans hx.2) (by simp)

theorem StaleFresh.step (h : s.StaleFresh) (hsound : s.Sound) {op : EvqOp} (hsafe : op.Safe s)
    (hrun : s.step fuel op = some s') : s'.StaleFresh := by
  obtain ⟨slots, ready, hslots, hact⟩ := id hsound
  cases op with
  | addBegin args => exact h.addBegin hrun
  | addEnd i res => exact h.addEnd hslots hrun
  | del ev =>
      rw [← Option.some.inj hrun]
      exact h.levqDel hslots ev
  | timeout ev msec =>
      obtain ⟨s₁, hres, hrun⟩ := Option.bind_eq_some_iff.mp hrun
      obtain ⟨⟨q', r⟩, hset, hrun⟩ := Option.bind_eq_some_iff.mp hrun
      obtain ⟨⟨slots₁, hslots₁⟩, hlive, -⟩ := hslots.reserve hres
      obtain ⟨hr, hf⟩ := setTimeout_sameEvents hslots₁
        (hslots₁.live_not_slots (by rw [hlive, hsafe])) hset
      rw [← Option.some.inj hrun]
      exact (h.reserve hres).congr rfl hr hf
  | timeoutManual ev manual =>
      rw [← Option.some.inj hrun]
      exact h.setFlags fun hx => h ev hx
  | notify ev =>
      simp only [EvqState.step, levqNotify] at hrun
      split at hrun
      · exact h.activate hslots hsafe hrun
      · exact absurd hrun (by simp)
  | activate ev res now => exact h.activate hslots hsafe hrun
  | expire now => exact h.expire hslots hrun
  | dispatch => exact h.dispatch hsound hrun
  | coroEnd i finished => exact h.coroEnd hslots hrun
  | syncCall =>
      obtain ⟨⟨ev, s₁⟩, hnew, rfl⟩ := Option.map_eq_some_iff.mp hrun
      exact (h.newEvent hnew).1.congr rfl rfl rfl
  | syncNext i args => exact h.syncNext hrun
  | schedDel ev =>
      rw [← Option.some.inj hrun]
      exact h.schedDel hsafe
  | clock now | syncTake | schedCancel op =>
      rw [← Option.some.inj hrun]
      exact h.congr rfl rfl rfl

/-! ## The calls are in order -/

/-- What holds between the steps of a safe run. -/
structure Regular (s : EvqState) : Prop where
  sound : s.Sound
  stale : s.StaleFresh
  nslots : s.nslots ≤ maxSlots

theorem Regular.init (now : ℤ) : (init now).Regular :=
  ⟨init_sound now, fun _ hx => absurd hx.1 (by simp [EvqState.init]), Nat.zero_le _⟩

theorem Regular.step (h : s.Regular) {op : EvqOp} (hsafe : op.Safe s)
    (hrun : s.step fuel op = some s') : s'.Regular :=
  ⟨SafeStep.sound ⟨op, fuel, hsafe, hrun⟩ h.sound, h.stale.step h.sound hsafe hrun,
    (step_livesOn hrun).nslots h.nslots⟩

/-- An event that looks registered and is not fresh is registered. -/
theorem StaleFresh.live_of_registered (h : s.StaleFresh) (hreg : s.q.registered ev = true)
    (hflags : (s.q.flags ev).active = true ∨ (s.q.flags ev).delete = true) : s.live ev = true := by
  by_contra hlive
  obtain ⟨hactive, hdelete⟩ := h ev ⟨hreg, by simpa using hlive⟩
  rcases hflags with hf | hf
  · exact absurd (hactive.symm.trans hf) (by simp)
  · exact absurd (hdelete.symm.trans hf) (by simp)

/-- An event that is registered was not. -/
theorem Regular.add_dead (h : s.Regular) {op : EvqOp}
    (hcall : s.backendCall fuel op = some (.add ev)) : s.live ev = false := by
  obtain ⟨slots, ready, hslots, -⟩ := h.sound
  cases op with
  | addEnd i res =>
      obtain ⟨a, ha, hcall⟩ := Option.bind_eq_some_iff.mp hcall
      obtain ⟨hlt, rfl⟩ := List.getElem?_eq_some_iff.mp ha
      split at hcall
      · simp only [Option.some.injEq, BackendCall.add.injEq] at hcall
        rw [← hcall]
        exact (hslots.reserved_apart _
          (List.mem_append_left _ (List.mem_map_of_mem (List.getElem_mem hlt)))).1
      · exact absurd hcall (by simp)
  | del ev' | notify ev' | activate ev' res now =>
      simp only [backendCall, activateCall] at hcall
      split at hcall <;> simp at hcall
  | dispatch =>
      obtain ⟨ev', -, hcall⟩ := Option.bind_eq_some_iff.mp hcall
      split at hcall <;> simp at hcall
  | coroEnd i finished =>
      obtain ⟨ev', -, hcall⟩ := Option.bind_eq_some_iff.mp hcall
      split at hcall <;> simp at hcall
  | addBegin | timeout | timeoutManual | clock | expire | syncCall | syncTake | syncNext | schedDel
  | schedCancel => simp [backendCall] at hcall

/-- The first ready event is active. -/
theorem Sound.active_of_evReady (h : s.Sound) (hev : s.q.evReady = some ev) :
    (s.q.flags ev).active = true := by
  obtain ⟨slots, ready, hslots, -⟩ := h
  obtain ⟨ready', rfl⟩ := hslots.ready_cons hev
  exact hslots.ready_active ev List.mem_cons_self

/-- `evq_del` is called for registered events only. -/
theorem Regular.del_live (h : s.Regular) {op : EvqOp} (hsafe : op.Safe s)
    (hcall : s.backendCall fuel op = some (.del ev)) : s.live ev = true := by
  have hactivate : ∀ ev', s.live ev' = true ∨ (s.q.flags ev').active = true →
      s.activateCall ev' = some (.del ev) → s.live ev = true := by
    intro ev' hsafe hcall
    unfold activateCall at hcall
    split at hcall
    · next hcond =>
      simp only [Option.some.injEq, BackendCall.del.injEq] at hcall
      exact hcall ▸ hsafe.resolve_right hcond.1
    · exact absurd hcall (by simp)
  cases op with
  | addEnd i res =>
      obtain ⟨a, -, hcall⟩ := Option.bind_eq_some_iff.mp hcall
      split at hcall <;> simp at hcall
  | del ev' =>
      simp only [backendCall] at hcall
      split at hcall
      · next hreg =>
        simp only [Option.some.injEq, BackendCall.del.injEq] at hcall
        subst hcall
        rcases hsafe with hlive | hflags
        · exact hlive
        · exact h.stale.live_of_registered hreg hflags
      · exact absurd hcall (by simp)
  | notify ev' => exact hactivate ev' hsafe hcall
  | activate ev' res now => exact hactivate ev' hsafe hcall
  | dispatch =>
      obtain ⟨ev', hev', hcall⟩ := Option.bind_eq_some_iff.mp hcall
      split at hcall
      · next hcond =>
        simp only [Option.some.injEq, BackendCall.del.injEq] at hcall
        subst hcall
        exact h.stale.live_of_registered hcond.2.2 (Or.inl (h.sound.active_of_evReady hev'))
      · exact absurd hcall (by simp)
  | coroEnd i finished =>
      obtain ⟨ev', hev', hcall⟩ := Option.bind_eq_some_iff.mp hcall
      split at hcall
      · next hcond =>
        simp only [Option.some.injEq, BackendCall.del.injEq] at hcall
        subst hcall
        exact (hsafe ev' hev' hcond.1 hcond.2).1
      · exact absurd hcall (by simp)
  | addBegin | timeout | timeoutManual | clock | expire | syncCall | syncTake | syncNext | schedDel
  | schedCancel => simp [backendCall] at hcall

end EvqState

end LuaSys.Event
