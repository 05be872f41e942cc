import LuaSys.Event.Slots
import LuaSys.Lib.Run
import Mathlib.Data.List.Perm.Basic

/-!
# Event slots are not shared

A slot is released in many places, and each of them decides by the flags of the event
whether the slot is still in use.  The decision is right as long as the steps are safe,
and then no slot on the free list has another role.

The flags do not say everything.  A oneshot event is released when its dispatch
begins, and its handle, which the callback gets, looks like that of an event that has
never been released.  `EvqOp.Safe` says for each step when the flags can be trusted.

## Main definitions

* `EvqState.SlotsApart` — what the free list promises.
* `EvqState.ReadySound` — what the ready list promises.
* `EvqOp.Safe` — the condition on the state before a step.

## Main results

* `safe_run_slotsApart` — in every run of safe steps the slots are apart.
* `oneshot_del_cycle` — a callback that deletes its own oneshot event makes the free
  list a cycle.
* `safe_run_readySound` — in every run of safe steps the ready list is that of the active
  events.
* `notified_timer_cycle` — a timer that is notified and due makes the ready list a cycle.
-/

namespace LuaSys.Event

open LuaSys.Lib

/-! ## Steps that keep the invariant -/

/-- The active events are in `ready`. -/
def EvqState.ActiveIn (s : EvqState) (ready : List ℕ) : Prop :=
  ∀ x, (s.q.flags x).active = true → x ∈ ready

/-- The slots have their roles, and the ready events are the active ones. -/
def EvqState.Sound (s : EvqState) : Prop :=
  ∃ slots ready, s.SlotInv slots ready ∧ s.ActiveIn ready

/-- No event becomes active. -/
def EvqState.Calmer (s s' : EvqState) : Prop :=
  ∀ x, (s'.q.flags x).active = true → (s.q.flags x).active = true

/-- A failure of `evq_set_timeout` for an event without a timeout changes nothing. -/
theorem evqSetTimeout_fails {fuel ev : ℕ} {q q' : Evq} {msec res : ℤ} (htq : q.tq ev = none)
    (hrun : evqSetTimeout fuel q ev msec = some (q', res)) (hres : res ≠ 0) : q' = q := by
  simp only [evqSetTimeout, htq, evqArmTimeout] at hrun
  split at hrun
  · simp only [Option.some.injEq, Prod.mk.injEq] at hrun
    exact hrun.1.symm
  · obtain ⟨⟨tqPrev, tq⟩, -, hrest⟩ := Option.bind_eq_some_iff.mp hrun
    dsimp only at hrest
    split at hrest
    · split at hrest
      · simp only [Option.some.injEq, Prod.mk.injEq] at hrest
        exact hrest.1.symm
      · simp only [Option.some.injEq, Prod.mk.injEq] at hrest
        exact absurd hrest.2.symm hres
    · simp only [Option.some.injEq, Prod.mk.injEq] at hrest
      exact absurd hrest.2.symm hres

namespace EvqState

variable {s s' : EvqState} {slots : ℕ → Prop} {ready : List ℕ} {ev fuel : ℕ}

theorem SlotInv.sound (h : SlotInv s slots ready) (hact : s.ActiveIn ready) : s.Sound :=
  ⟨slots, ready, h, hact⟩

theorem Calmer.of_flags (h : s'.q.flags = s.q.flags) : Calmer s s' := by
  intro x hx
  rw [← h]
  exact hx

/-- New flags that are active only when the old ones were. -/
theorem Calmer.setFlags {f : EventFlags} (h : f.active = true → (s.q.flags ev).active = true) :
    Calmer s (s.setFlags ev f) := by
  intro x hx
  by_cases hxe : x = ev
  · rw [hxe] at hx ⊢
    simp only [EvqState.setFlags, Function.update_self] at hx
    exact h hx
  · simp only [EvqState.setFlags, Function.update_of_ne hxe] at hx
    exact hx

theorem Calmer.newEvent (h : s.newEvent = some (ev, s')) : Calmer s s' := by
  have hinit : ∀ q : Evq, ∀ x, ((eventInit q ev).flags x).active = true →
      (q.flags x).active = true := by
    intro q x hx
    by_cases hxe : x = ev
    · simp [eventInit, hxe] at hx
    · simp only [eventInit, Function.update_of_ne hxe] at hx
      exact hx
  obtain ⟨-, rfl⟩ | ⟨-, rfl, -, rfl⟩ := newEvent_cases h
  · exact fun x hx => hinit _ x hx
  · exact fun x hx => hinit _ x hx

theorem Calmer.reserve (h : s.reserve = some s') : Calmer s s' := by
  obtain ⟨-, rfl⟩ | ⟨-, ev, s₁, hnew, rfl⟩ := reserve_cases h
  · exact fun _ => id
  · have hcalm : Calmer s s₁ := Calmer.newEvent hnew
    exact hcalm

theorem ActiveIn.calmer (h : s.ActiveIn ready) (hcalm : Calmer s s') : s'.ActiveIn ready :=
  fun x hx => h x (hcalm x hx)

/-- A timeout of a registered event. -/
theorem SlotInv.setTimeout (h : SlotInv s slots ready) (hlive : s.live ev = true) {q' : Evq}
    {msec res : ℤ} (hrun : evqSetTimeout fuel s.q ev msec = some (q', res)) :
    SlotInv { s with q := q' } slots ready ∧ q'.flags = s.q.flags := by
  obtain ⟨hsame, htq, hok⟩ :=
    TimeoutOk.of_setTimeout h.pool False.elim (h.live_not_slots hlive) False.elim hrun
  refine ⟨h.ofTimeouts (PoolOk.of_timeoutOk hok) hsame fun x hx => ?_, hsame.flags⟩
  by_cases hxe : x = ev
  · exact hxe ▸ hlive
  · rw [htq x hxe] at hx
    exact h.tq_live x hx

/-- `reserve` does not look at the calls in progress. -/
theorem reserve_adding (s : EvqState) (l : List Adding) :
    ({ s with adding := l } : EvqState).reserve = s.reserve.map fun s => { s with adding := l } := by
  unfold EvqState.reserve EvqState.newEvent
  cases hfree : s.q.evFree with
  | some a => simp
  | none => by_cases hlt : s.nslots < maxSlots <;> simp [hlt]

theorem Sound.addBegin (h : s.Sound) {args : AddArgs} (hrun : s.addBegin args = some s') :
    s'.Sound := by
  obtain ⟨slots, ready, h, hact⟩ := h
  obtain ⟨ev, s₁, hnew, hcase⟩ := addBegin_cases hrun
  obtain ⟨slots₁, h₁, hev, -⟩ := h.newEvent hnew
  have h₂ : SlotInv (s₁.setFlags ev args.flags) slots₁ ready := by
    refine h₁.setFlags (fun hmem => absurd hmem hev.not_ready) (fun _ => rfl) fun _ => ⟨rfl, rfl⟩
  have hact₂ : ActiveIn (s₁.setFlags ev args.flags) ready :=
    (hact.calmer (Calmer.newEvent hnew)).calmer
      (Calmer.setFlags fun hf => absurd hf (by simp [AddArgs.flags]))
  have hev₂ : Unused (s₁.setFlags ev args.flags) slots₁ ready ev :=
    ⟨hev.not_slots, hev.dead, hev.not_ready, hev.not_reserved, hev.lt⟩
  have h₃ : SlotInv { s₁.setFlags ev args.flags with adding := ⟨ev, args⟩ :: s₁.adding }
      slots₁ ready := by
    refine h₂.take hev₂ rfl rfl rfl (List.Perm.refl _) fun a ha => ?_
    rcases List.mem_cons.mp ha with rfl | ha
    · right
      simp only [EvqState.setFlags, Function.update_self]
      exact ⟨rfl, rfl⟩
    · exact Or.inl ha
  obtain rfl | ⟨s₂, hres, rfl⟩ := hcase
  · exact h₂.sound hact₂
  · have hsame : s₂.adding = s₁.adding := (h₂.reserve hres).2.2
    obtain ⟨⟨slots₄, h₄⟩, -⟩ := h₃.reserve (by rw [reserve_adding, hres]; rfl)
    rw [← hsame] at h₄
    have hact₃ : s₂.ActiveIn ready := hact₂.calmer (Calmer.reserve hres)
    exact h₄.sound hact₃

/-- The end of `levq_add` for an event that is registered. -/
theorem SlotInv.finish {a : Adding}
    (h : SlotInv { s with live := Function.update s.live a.ev true } slots ready)
    (hact : s.ActiveIn ready) : (addEnd.finish s a).Sound := by
  simp only [addEnd.finish]
  split
  · have hact' : ActiveIn { s with live := Function.update s.live a.ev true } ready := hact
    exact ⟨slots, ready, h.keepFlags rfl rfl, hact'.calmer (Calmer.setFlags id)⟩
  · exact h.sound hact

theorem Sound.addEnd (h : s.Sound) {i : ℕ} {res : AddResult}
    (hrun : s.addEnd fuel i res = some s') : s'.Sound := by
  obtain ⟨slots, ready, h, hact⟩ := h
  obtain ⟨a, hi, hends⟩ := addEnd_cases hrun
  obtain ⟨hlt, ha⟩ := List.getElem?_eq_some_iff.mp hi
  have hperm : s.reserved.Perm
      ([a.ev] ++ ({ s with adding := s.adding.eraseIdx i } : EvqState).reserved) := by
    have := (List.getElem_cons_eraseIdx_perm hlt).map Adding.ev
    rw [ha] at this
    exact this.symm.append_right s.pending
  obtain ⟨h₁, hunused⟩ := @SlotInv.give s { s with adding := s.adding.eraseIdx i } slots ready h _
    rfl rfl rfl hperm List.eraseIdx_subset
  have hev₁ := hunused a.ev (by simp)
  have hdel : (({ s with adding := s.adding.eraseIdx i } : EvqState).q.flags a.ev).delete = false :=
    (h.adding_fresh a (ha ▸ List.getElem_mem hlt)).2
  have hact₁ : ActiveIn { s with adding := s.adding.eraseIdx i } ready := hact
  generalize ({ s with adding := s.adding.eraseIdx i } : EvqState) = s₁ at h₁ hev₁ hends hdel hact₁
  -- The slot is in no list; from here on only the backend matters.
  have h₂ : SlotInv (s₁.setRegistered a.ev) slots ready := h₁.setRegistered a.ev
  have hact₂ : (s₁.setRegistered a.ev).ActiveIn ready := hact₁
  have hev₂ : Unused (s₁.setRegistered a.ev) slots ready a.ev :=
    ⟨hev₁.not_slots, hev₁.dead, hev₁.not_ready, hev₁.not_reserved, hev₁.lt⟩
  have hreg := h₂.register hev₂ (by simp [EvqState.setRegistered]) hdel
  cases hends with
  | timeout q' r hset hok =>
      obtain ⟨h₃, hflags⟩ := hreg.setTimeout (by simp) hset
      exact h₃.finish (hact₂.calmer (Calmer.of_flags hflags))
  | infinite htimer hok hinf => exact hreg.finish hact₂
  | noTimeout q' r hset htimer hr =>
      rw [evqSetTimeout_fails (h₂.tq_none hev₂.dead) hset hr]
      exact (h₂.delEvent hev₂).sound hact₂
  | failed htimer hok => exact (h₂.delEvent hev₂).sound hact₂
  | failedEarly htimer hok => exact (h₁.delEvent hev₁).sound hact₁

/-- The facts about a registered event that the flags tell. -/
theorem SlotInv.live_facts (h : SlotInv s slots ready) (hlive : s.live ev = true) :
    ¬slots ev ∧ ev ∉ s.reserved ∧ ev < s.nslots := by
  refine ⟨h.live_not_slots hlive, fun hmem => ?_, h.used_lt ev (Or.inl hlive)⟩
  have := (h.reserved_apart ev hmem).1
  simp [hlive] at this

theorem SlotInv.not_ready (h : SlotInv s slots ready) (hactive : (s.q.flags ev).active = false) :
    ev ∉ ready := by
  intro hmem
  have := h.ready_active ev hmem
  simp [hactive] at this

theorem evqDel_live (s : EvqState) (ev : ℕ) : (s.evqDel ev).live ev = false := by
  simp [EvqState.evqDel]

theorem SlotInv.evqDel_flags (h : SlotInv s slots ready) (ev : ℕ) :
    (s.evqDel ev).q.flags = s.q.flags := by
  simp only [EvqState.evqDel]
  split
  · exact (TimeoutOk.del h.pool ev).1.flags
  · rfl

theorem Sound.levqDel (h : s.Sound)
    (hsafe : s.live ev = true ∨ (s.q.flags ev).active = true ∨ (s.q.flags ev).delete = true) :
    (s.levqDel ev).Sound := by
  obtain ⟨slots, ready, h, hact⟩ := h
  -- After `evq_del` the event is not registered any more.
  have h₁ : SlotInv (if s.q.registered ev then s.evqDel ev else s) slots ready ∧
      (if s.q.registered ev then s.evqDel ev else s).live ev = false ∧
      (if s.q.registered ev then s.evqDel ev else s).q.flags = s.q.flags ∧
      (if s.q.registered ev then s.evqDel ev else s).reserved = s.reserved ∧
      (if s.q.registered ev then s.evqDel ev else s).nslots = s.nslots := by
    split
    · exact ⟨h.evqDel ev, evqDel_live s ev, h.evqDel_flags ev, rfl, rfl⟩
    · next hreg =>
      refine ⟨h, ?_, rfl, rfl, rfl⟩
      by_contra hlive
      exact hreg (h.live_registered ev (by simpa using hlive))
  unfold EvqState.levqDel
  generalize (if s.q.registered ev then s.evqDel ev else s) = s₁ at h₁
  obtain ⟨h₁, hdead, hflags, hres, hn⟩ := h₁
  have hact₁ : s₁.ActiveIn ready := hact.calmer (Calmer.of_flags hflags)
  dsimp only
  split
  · next hkeep =>
    refine ⟨slots, ready, h₁.setFlags (fun hmem => h₁.ready_active ev hmem)
      (fun hl => absurd hl (by simp [hdead])) fun hmem => ?_, hact₁.calmer (Calmer.setFlags id)⟩
    obtain ⟨a, ha, rfl⟩ := List.mem_map.mp hmem
    have := h₁.adding_fresh a ha
    simp [this.1, this.2] at hkeep
  · next hfree =>
    rw [not_or, Bool.not_eq_true, Bool.not_eq_true] at hfree
    have hlive : s.live ev = true := by
      rw [hflags] at hfree
      simpa [hfree.1, hfree.2] using hsafe
    obtain ⟨hslot, hnres, hlt⟩ := h.live_facts hlive
    have hev : Unused s₁ slots ready ev :=
      ⟨hslot, hdead, h₁.not_ready hfree.1, hres ▸ hnres, hn ▸ hlt⟩
    have h₂ := h₁.delEvent hev
    refine ⟨_, _, h₂.setFlags (fun hmem => absurd hmem hev.not_ready)
      (fun hl => absurd (hdead.symm.trans hl) (by simp)) fun hmem => ?_,
      ActiveIn.calmer (s := s₁.delEvent ev) hact₁ (Calmer.setFlags id)⟩
    exact absurd (List.mem_append_left _ hmem) hev.not_reserved

theorem Sound.levqTimeout (h : s.Sound) (hlive : s.live ev = true) {timeout : ℤ}
    (hrun : s.levqTimeout fuel ev timeout = some s') : s'.Sound := by
  obtain ⟨slots, ready, h, hact⟩ := h
  obtain ⟨s₁, hres, hrun⟩ := Option.bind_eq_some_iff.mp hrun
  obtain ⟨⟨q', res⟩, hset, hrun⟩ := Option.bind_eq_some_iff.mp hrun
  obtain ⟨⟨slots₁, h₁⟩, hl, -⟩ := h.reserve hres
  rw [← Option.some.inj hrun]
  obtain ⟨h₂, hflags⟩ := h₁.setTimeout (by rw [hl, hlive]) hset
  exact h₂.sound ((hact.calmer (Calmer.reserve hres)).calmer (Calmer.of_flags hflags))

/-- The registration and the timeout of an event that becomes active. -/
theorem SlotInv.restart (h : SlotInv s slots ready) {now : ℤ}
    (hrun : s.restart ev now = some s') :
    SlotInv s' slots ready ∧ s'.reserved = s.reserved ∧ s'.nslots = s.nslots ∧
      s'.q.flags = s.q.flags := by
  unfold EvqState.restart at hrun
  split at hrun
  · rw [← Option.some.inj hrun]
    exact ⟨h.evqDel ev, rfl, rfl, h.evqDel_flags ev⟩
  · split at hrun
    · next htq =>
      obtain ⟨t, ht⟩ := Option.isSome_iff_exists.mp htq.1
      obtain ⟨q', hq', hsame, htq', hok⟩ :=
        @TimeoutOk.reset _ _ _ _ _ now _ _ h.pool False.elim ht False.elim
      rw [hq', Option.map_some, Option.some.injEq] at hrun
      rw [← hrun]
      refine ⟨h.ofTimeouts (PoolOk.of_timeoutOk hok) hsame ?_, rfl, rfl, hsame.flags⟩
      rw [htq']
      exact h.tq_live
    · rw [← Option.some.inj hrun]
      exact ⟨h, rfl, rfl, rfl⟩

/-- Another event may be active when it is put in front of the ready events. -/
theorem ActiveIn.cons (h : s.ActiveIn ready) {f : EventFlags}
    (hflags : s'.q.flags = Function.update s.q.flags ev f) : s'.ActiveIn (ev :: ready) := by
  intro x hx
  by_cases hxe : x = ev
  · exact hxe ▸ List.mem_cons_self
  · rw [hflags, Function.update_of_ne hxe] at hx
    exact List.mem_cons_of_mem _ (h x hx)

/-- A registered event may be marked as active. -/
theorem SlotInv.setActive (h : SlotInv s slots ready) (hlive : s.live ev = true) :
    SlotInv (s.setFlags ev { s.q.flags ev with active := true }) slots ready :=
  h.setFlags (fun _ => rfl) (fun _ => h.live_delete ev hlive)
    fun hmem => absurd (List.mem_append_left _ hmem) (h.live_facts hlive).2.1

/-- An event that is registered and not active becomes ready. -/
theorem SlotInv.pushReady (h : SlotInv s slots ready) (hact : s.ActiveIn ready)
    (hlive : s.live ev = true) (hactive : (s.q.flags ev).active = false) {now : ℤ}
    (hrun : s.pushReady ev now = some s') : s'.Sound := by
  obtain ⟨hslot, hres, hlt⟩ := h.live_facts hlive
  obtain ⟨s₂, hs₂, heq⟩ := Option.map_eq_some_iff.mp hrun
  obtain ⟨h₂, hres₂, hn₂, hflags₂⟩ := (h.setActive hlive).restart hs₂
  rw [← heq]
  have hpush := h₂.push hslot (h.not_ready hactive) (hres₂ ▸ hres) (hn₂ ▸ hlt) (by
    rw [hflags₂]
    simp [EvqState.setFlags])
  exact hpush.sound (hact.cons hflags₂)

theorem setFlags_flags_self (s : EvqState) (ev : ℕ) (f : EventFlags) :
    (s.setFlags ev f).q.flags ev = f := Function.update_self ..

/-- The results are added to the flags, and the event becomes ready unless it is active. -/
theorem activate_cases {res : EventFlags} {now : ℤ} (hrun : s.activate ev res now = some s') :
    ∃ f : EventFlags, f.active = (s.q.flags ev).active ∧ f.delete = (s.q.flags ev).delete ∧
      f.oneshot = (s.q.flags ev).oneshot ∧
      ((s.q.flags ev).active = true ∧ s' = s.setFlags ev f ∨
        (s.q.flags ev).active = false ∧ (s.setFlags ev f).pushReady ev now = some s') := by
  unfold EvqState.activate at hrun
  dsimp only at hrun
  rw [setFlags_flags_self] at hrun
  refine ⟨{ s.q.flags ev with
    readRes := (s.q.flags ev).readRes || res.readRes
    writeRes := (s.q.flags ev).writeRes || res.writeRes
    eofRes := (s.q.flags ev).eofRes || res.eofRes }, rfl, rfl, rfl, ?_⟩
  split at hrun
  · next hactive => exact Or.inl ⟨hactive, (Option.some.inj hrun).symm⟩
  · next hnot => exact Or.inr ⟨by simpa using hnot, hrun⟩

theorem Sound.activate (h : s.Sound) (hsafe : s.live ev = true ∨ (s.q.flags ev).active = true)
    {res : EventFlags} {now : ℤ} (hrun : s.activate ev res now = some s') : s'.Sound := by
  obtain ⟨slots, ready, h, hact⟩ := h
  obtain ⟨f, hactive, hdelete, -, hcase⟩ := activate_cases hrun
  have h₁ : SlotInv (s.setFlags ev f) slots ready := h.keepFlags hactive hdelete
  have hact₁ : (s.setFlags ev f).ActiveIn ready :=
    hact.calmer (Calmer.setFlags fun hf => hactive ▸ hf)
  rcases hcase with ⟨-, rfl⟩ | ⟨hnot, hpush⟩
  · exact h₁.sound hact₁
  · have hlive : (s.setFlags ev f).live ev = true := hsafe.resolve_right (by simp [hnot])
    refine h₁.pushReady hact₁ hlive ?_ hpush
    rw [setFlags_flags_self, hactive]
    exact hnot

theorem Sound.expire (h : s.Sound) {now : ℤ}
    (hsafe : ∀ ev, s.q.tq ev ≠ none → s.q.timeoutAt ev < now + minTimeout →
      (s.q.flags ev).active = false) (hrun : s.expire fuel now = some s') : s'.Sound := by
  obtain ⟨slots, ready, h, hact⟩ := h
  obtain ⟨⟨q', r'⟩, hq', heq⟩ := Option.map_eq_some_iff.mp hrun
  obtain ⟨fired, hdue, -, hnodup, hpath, hfired, hok⟩ :=
    TimeoutOk.of_process h.pool False.elim False.elim hq'
  have hlive : ∀ x ∈ fired, s.live x = true := fun x hx => h.tq_live x (hdue x hx).1
  have hnew : ∀ x ∈ fired, x ∉ ready := fun x hx =>
    h.not_ready (hsafe x (hdue x hx).1 (hdue x hx).2)
  have hflags : ∀ x, x ∉ fired → q'.flags x = s.q.flags x := fun x hx => by
    rw [hfired.flags, if_neg hx]
  have hdelete : ∀ x, (q'.flags x).delete = (s.q.flags x).delete := by
    intro x
    rw [hfired.flags]
    split <;> rfl
  subst heq
  refine ⟨slots, fired ++ ready, ⟨PoolOk.congr (PoolOk.of_timeoutOk hok)
    ⟨fun _ _ => rfl, rfl, rfl, rfl, rfl, rfl, rfl, rfl, rfl, rfl, rfl, rfl, rfl⟩, ?_, ?_, ?_, ?_,
    h.reserved_nodup, ?_, ?_, ?_, ?_, ?_⟩, ?_⟩
  · intro x hx
    obtain ⟨hdead, hready, hrest⟩ := h.slots_apart x hx
    refine ⟨hdead, ?_, hrest⟩
    rw [List.mem_append, not_or]
    exact ⟨fun hmem => by simp [hlive x hmem] at hdead, hready⟩
  · refine path_append.mpr ⟨s.q.evReady, hpath, ?_⟩
    exact (path_congr fun x hx => (hfired.nextReady x fun hmem => hnew x hmem hx).symm).mp
      h.readyList
  · intro x hx
    show (q'.flags x).active = true
    rw [hfired.flags]
    split
    · rfl
    · next hnot =>
      exact h.ready_active x ((List.mem_append.mp hx).resolve_left hnot)
  · rintro x (hx | hx | hx)
    · exact h.used_lt x (Or.inl hx)
    · rcases List.mem_append.mp hx with hx | hx
      · exact h.used_lt x (Or.inl (hlive x hx))
      · exact h.used_lt x (Or.inr (Or.inl hx))
    · exact h.used_lt x (Or.inr (Or.inr hx))
  · intro x hx
    obtain ⟨hdead, hready⟩ := h.reserved_apart x hx
    refine ⟨hdead, ?_⟩
    rw [List.mem_append, not_or]
    exact ⟨fun hmem => by simp [hlive x hmem] at hdead, hready⟩
  · intro x hx
    show q'.registered x = true
    rw [hfired.registered]
    exact h.live_registered x hx
  · intro x hx
    exact (hdelete x).trans (h.live_delete x hx)
  · intro x hx
    have hx' : s.q.tq x ≠ none := by
      rw [← hfired.tq]
      exact hx
    exact h.tq_live x hx'
  · intro a ha
    have hnot : a.ev ∉ fired := fun hmem => by
      have := (h.reserved_apart a.ev (List.mem_append_left _ (List.mem_map_of_mem ha))).1
      simp [hlive a.ev hmem] at this
    show (q'.flags a.ev).Fresh
    rw [hflags a.ev hnot]
    exact h.adding_fresh a ha
  · intro x hx
    by_cases hmem : x ∈ fired
    · exact List.mem_append_left _ hmem
    · refine List.mem_append_right _ (hact x ?_)
      rw [← hflags x hmem]
      exact hx

/-- The coroutines in progress have no slots. -/
theorem Sound.withCoros (h : s.Sound) (l : List ℕ) : Sound { s with coros := l } := by
  obtain ⟨slots, ready, h, hact⟩ := h
  exact ⟨slots, ready, ⟨h.pool, h.slots_apart, h.readyList, h.ready_active, h.used_lt,
    h.reserved_nodup, h.reserved_apart, h.live_registered, h.live_delete, h.tq_live,
    h.adding_fresh⟩, hact⟩

theorem Sound.withOpL (h : s.Sound) (f : ℕ → Bool) : Sound { s with opL := f } := by
  obtain ⟨slots, ready, h, hact⟩ := h
  exact ⟨slots, ready, ⟨h.pool, h.slots_apart, h.readyList, h.ready_active, h.used_lt,
    h.reserved_nodup, h.reserved_apart, h.live_registered, h.live_delete, h.tq_live,
    h.adding_fresh⟩, hact⟩

theorem Sound.withClock (h : s.Sound) (now : ℤ) : Sound { s with q := { s.q with now := now } } := by
  obtain ⟨slots, ready, h, hact⟩ := h
  exact ⟨slots, ready, ⟨h.pool.congr
    ⟨fun _ _ => rfl, rfl, rfl, rfl, rfl, rfl, rfl, rfl, rfl, rfl, rfl, rfl, rfl⟩, h.slots_apart,
    h.readyList, h.ready_active, h.used_lt, h.reserved_nodup, h.reserved_apart, h.live_registered,
    h.live_delete, h.tq_live, h.adding_fresh⟩, hact⟩

/-- The release of an event that has left the ready list: after the oneshot events are
deleted, an event that is not registered has no role. -/
theorem SlotInv.release (h : SlotInv s slots ready) (hact : s.ActiveIn ready) (hslot : ¬slots ev)
    (hready : ev ∉ ready) (hres : ev ∉ s.reserved) (hlt : ev < s.nslots) (oneshot : Bool) :
    (s.release ev oneshot).Sound := by
  have hkey : ∀ s₁, SlotInv s₁ slots ready → s₁.reserved = s.reserved → s₁.nslots = s.nslots →
      s₁.q.flags = s.q.flags → (if s₁.q.registered ev then s₁ else s₁.delEvent ev).Sound := by
    intro s₁ h₁ hres₁ hn₁ hflags₁
    have hact₁ : s₁.ActiveIn ready := hact.calmer (Calmer.of_flags hflags₁)
    split
    · exact h₁.sound hact₁
    · next hreg =>
      refine (h₁.delEvent ⟨hslot, ?_, hready, hres₁ ▸ hres, hn₁ ▸ hlt⟩).sound hact₁
      by_contra hlive
      exact hreg (h₁.live_registered ev (by simpa using hlive))
  unfold EvqState.release
  split
  · exact hkey _ (h.evqDel ev) rfl rfl (h.evqDel_flags ev)
  · exact hkey s h rfl rfl rfl

/-- The first ready event. -/
theorem SlotInv.ready_cons (h : SlotInv s slots ready) (hev : s.q.evReady = some ev) :
    ∃ ready', ready = ev :: ready' := by
  have hpath := h.readyList
  rw [hev] at hpath
  cases ready with
  | nil => exact absurd hpath (by simp)
  | cons a ready' => exact ⟨ready', by rw [Option.some.inj hpath.1]⟩

/-- The first ready event has left the list, and its result flags are clear. -/
theorem SlotInv.popped (h : SlotInv s slots (ev :: ready)) :
    SlotInv ({ s with q := { s.q with evReady := s.q.nextReady ev } }.setFlags ev
      (s.q.flags ev).clearRes) slots ready := by
  have hready : ev ∉ ready := (List.nodup_cons.mp h.readyList.nodup).1
  have hres : ev ∉ s.reserved := fun hmem => (h.reserved_apart ev hmem).2 (by simp)
  exact h.pop.setFlags (fun hmem => absurd hmem hready) (fun hlive => h.live_delete ev hlive)
    fun hmem => absurd (List.mem_append_left _ hmem) hres

theorem Sound.dispatch (h : s.Sound) (hrun : s.dispatch = some s') : s'.Sound := by
  obtain ⟨slots, ready, h, hact⟩ := h
  obtain ⟨ev, hev, hrun⟩ := Option.bind_eq_some_iff.mp hrun
  obtain ⟨ready', rfl⟩ := h.ready_cons hev
  have hready : ev ∉ ready' := (List.nodup_cons.mp h.readyList.nodup).1
  have hslot : ¬slots ev := h.ready_not_slots ev (by simp)
  have hres : ev ∉ s.reserved := fun hmem => (h.reserved_apart ev hmem).2 (by simp)
  have hlt : ev < s.nslots := h.used_lt ev (Or.inr (Or.inl (by simp)))
  have h₁ := h.popped
  have hact₁ : ActiveIn ({ s with q := { s.q with evReady := s.q.nextReady ev } }.setFlags ev
      (s.q.flags ev).clearRes) ready' := by
    intro x hx
    by_cases hxe : x = ev
    · simp [EvqState.setFlags, hxe, EventFlags.clearRes] at hx
    · simp only [EvqState.setFlags, Function.update_of_ne hxe] at hx
      exact (List.mem_cons.mp (hact x hx)).resolve_left hxe
  dsimp only at hrun
  split at hrun
  · next hdel =>
    have hdead : s.live ev = false := by
      by_contra hlive
      have := h.live_delete ev (by simpa using hlive)
      simp [this] at hdel
    rw [← Option.some.inj hrun]
    exact (h₁.delEvent ⟨hslot, hdead, hready, hres, hlt⟩).sound hact₁
  · have h₂ := h₁.release hact₁ hslot hready hres hlt (s.q.flags ev).oneshot
    split at hrun
    · rw [← Option.some.inj hrun]
      exact h₂.withCoros _
    · rw [← Option.some.inj hrun]
      exact h₂

theorem Sound.coroEnd (h : s.Sound) {i : ℕ} {finished : Bool}
    (hsafe : ∀ ev, s.coros[i]? = some ev → finished = true → s.q.registered ev = true →
      s.live ev = true ∧ (s.q.flags ev).active = false)
    (hrun : s.coroEnd i finished = some s') : s'.Sound := by
  obtain ⟨slots, ready, h, hact⟩ := h
  obtain ⟨ev, hev, hrun⟩ := Option.bind_eq_some_iff.mp hrun
  dsimp only at hrun
  split at hrun
  · next hfin =>
    obtain ⟨hlive, hactive⟩ := hsafe ev hev hfin.1 hfin.2
    obtain ⟨hslot, hres, hlt⟩ := h.live_facts hlive
    rw [← Option.some.inj hrun]
    have hdel : Sound ((s.evqDel ev).delEvent ev) :=
      ((h.evqDel ev).delEvent ⟨hslot, evqDel_live _ ev, h.not_ready hactive, hres, hlt⟩).sound
        (hact.calmer (Calmer.of_flags (h.evqDel_flags ev)))
    exact hdel.withCoros _
  · rw [← Option.some.inj hrun]
    exact (h.sound hact).withCoros _

theorem Sound.syncCall (h : s.Sound) (hrun : s.syncCall = some s') : s'.Sound := by
  obtain ⟨slots, ready, h, hact⟩ := h
  obtain ⟨⟨op, s₁⟩, hnew, heq⟩ := Option.map_eq_some_iff.mp hrun
  obtain ⟨slots₁, h₁, hop, -⟩ := h.newEvent hnew
  have hact₁ : s₁.ActiveIn ready := hact.calmer (Calmer.newEvent hnew)
  rw [← heq]
  refine ⟨slots₁, ready, h₁.take hop rfl rfl rfl ?_ fun a ha => Or.inl ha, hact₁⟩
  simp only [reserved, pending, List.cons_append]
  exact List.perm_middle

theorem Sound.syncTake (h : s.Sound) : s.syncTake.Sound := by
  obtain ⟨slots, ready, h, hact⟩ := h
  refine ⟨slots, ready,
    (@SlotInv.give s s.syncTake slots ready h [] rfl rfl rfl ?_ (fun _ => id)).1, hact⟩
  simp [reserved, pending, EvqState.syncTake]

theorem Sound.syncNext (h : s.Sound) {i : ℕ} {args : AddArgs}
    (hrun : s.syncNext i args = some s') : s'.Sound := by
  obtain ⟨slots, ready, h, hact⟩ := h
  obtain ⟨ops, hi, hrun⟩ := Option.bind_eq_some_iff.mp hrun
  obtain ⟨hlt, rfl⟩ := List.getElem?_eq_some_iff.mp hi
  split at hrun
  · next hops =>
    rw [← Option.some.inj hrun]
    refine ⟨slots, ready, (@SlotInv.give s { s with syncTaken := s.syncTaken.eraseIdx i }
      slots ready h [] rfl rfl rfl ?_ (fun _ => id)).1, hact⟩
    have hperm := (List.getElem_cons_eraseIdx_perm hlt).flatten
    rw [hops] at hperm
    exact (hperm.symm.append_left s.syncOps).append_left _
  · next op ops hops =>
    have hperm : s.reserved.Perm
        ([op] ++ ({ s with syncTaken := s.syncTaken.set i ops } : EvqState).reserved) := by
      have hold := (List.getElem_cons_eraseIdx_perm hlt).flatten
      have hnew := (List.set_perm_cons_eraseIdx hlt ops).flatten
      rw [hops] at hold
      have : s.syncTaken.flatten.Perm (op :: (s.syncTaken.set i ops).flatten) :=
        hold.symm.trans (hnew.symm.cons op)
      refine ((this.append_left s.syncOps).trans List.perm_middle).append_left _ |>.trans ?_
      exact List.perm_middle
    obtain ⟨h₁, hop⟩ := @SlotInv.give s { s with syncTaken := s.syncTaken.set i ops } slots ready h _
      rfl rfl rfl hperm (fun _ => id)
    have h₂ := (h₁.delEvent (hop op (by simp))).sound hact
    dsimp only at hrun
    split at hrun
    · rw [← Option.some.inj hrun]
      cases hadd : EvqState.addBegin _ args with
      | none => simpa using h₂
      | some s₃ => exact h₂.addBegin hadd
    · rw [← Option.some.inj hrun]
      exact h₂

theorem Sound.schedDel (h : s.Sound) (hsafe : s.q.registered ev = true → s.live ev = true) :
    (s.schedDel ev).Sound := by
  obtain ⟨slots, ready, h, hact⟩ := h
  unfold EvqState.schedDel
  split
  · exact h.sound hact
  · next hnot =>
    rw [not_or, not_not, Bool.not_eq_true] at hnot
    have hlive := hsafe hnot.1
    obtain ⟨hslot, hres, hlt⟩ := h.live_facts hlive
    refine ⟨slots, ev :: ready, SlotInv.push (s := s.setFlags ev _) ?_ hslot (h.not_ready hnot.2)
      hres hlt ?_, hact.cons rfl⟩
    · exact h.setFlags (fun _ => rfl) (fun _ => h.live_delete ev hlive)
        fun hmem => absurd (List.mem_append_left _ hmem) hres
    · simp [EvqState.setFlags]

end EvqState

/-! ## Safe runs -/

/-- The flags that the step looks at tell the truth, in the state before the step. -/
def EvqOp.Safe (s : EvqState) : EvqOp → Prop
  | .del ev => s.live ev = true ∨ (s.q.flags ev).active = true ∨ (s.q.flags ev).delete = true
  | .timeout ev _ => s.live ev = true
  | .notify ev => s.live ev = true ∨ (s.q.flags ev).active = true
  | .activate ev _ _ => s.live ev = true ∨ (s.q.flags ev).active = true
  | .expire now => ∀ ev, s.q.tq ev ≠ none → s.q.timeoutAt ev < now + minTimeout →
      (s.q.flags ev).active = false
  | .coroEnd i finished => ∀ ev, s.coros[i]? = some ev → finished = true →
      s.q.registered ev = true → s.live ev = true ∧ (s.q.flags ev).active = false
  | .schedDel ev => s.q.registered ev = true → s.live ev = true
  | .schedCancel op => op ∈ s.pending
  | .addBegin _ | .addEnd _ _ | .timeoutManual _ _ | .clock _ | .dispatch | .syncCall | .syncTake
  | .syncNext _ _ => True

namespace EvqState

/-- The transitions of a run with safe steps only. -/
def SafeStep (s s' : EvqState) : Prop := ∃ op fuel, op.Safe s ∧ s.step fuel op = some s'

/-- The free list ends, visits no slot twice, and none of its slots is a registered
event, a ready event, the header of a timeout queue or a pending operation. -/
def SlotsApart (s : EvqState) : Prop :=
  ∃ free ready tqs tail, Path some s.q.nextReady s.q.evFree free none ∧ free.Nodup ∧
    Path some s.q.nextReady s.q.evReady ready none ∧
    DList s.q.tqNext s.q.tqPrev s.q.tqHead tail tqs ∧
    ∀ x ∈ free, s.live x = false ∧ x ∉ ready ∧ x ∉ tqs ∧ x ∉ s.pending

variable {s s' : EvqState}

theorem Sound.slotsApart (h : s.Sound) : s.SlotsApart := by
  obtain ⟨slots, ready, h, -⟩ := h
  obtain ⟨tqs, evs, free, hinv, hslots⟩ := h.pool
  obtain ⟨tail, htqs⟩ := hinv.queues
  refine ⟨free, ready, tqs, tail, hinv.freeList, hinv.freeList.nodup, h.readyList, htqs,
    fun x hx => ?_⟩
  obtain ⟨hdead, hready, hres, -⟩ := h.slots_apart x ((hslots x).mp (Or.inr hx))
  exact ⟨hdead, hready, (hinv.free_role x hx).1, fun hmem => hres (List.mem_append_right _ hmem)⟩

theorem init_sound (now : ℤ) : (init now).Sound := by
  refine ⟨fun _ => False, [], ⟨⟨[], fun _ => [], [], ⟨⟨⟨none, rfl, rfl⟩, ?_, ?_, ?_, ?_, False.elim,
    False.elim, ?_, ?_⟩, rfl, ?_, ?_, ?_⟩, ?_⟩, ?_, rfl, ?_, ?_, List.nodup_nil, ?_, ?_, ?_, ?_, ?_⟩,
    ?_⟩
  all_goals simp [init, reserved, pending, ActiveIn]

/-- A safe step keeps the roles of the slots. -/
theorem SafeStep.sound (hstep : SafeStep s s') (h : s.Sound) : s'.Sound := by
  obtain ⟨op, fuel, hsafe, hrun⟩ := hstep
  cases op with
  | addBegin args => exact h.addBegin hrun
  | addEnd i res => exact h.addEnd hrun
  | del ev =>
      rw [← Option.some.inj hrun]
      exact h.levqDel hsafe
  | timeout ev msec => exact h.levqTimeout hsafe hrun
  | timeoutManual ev manual =>
      rw [← Option.some.inj hrun]
      obtain ⟨slots, ready, h, hact⟩ := h
      exact ⟨slots, ready, h.keepFlags rfl rfl, hact.calmer (Calmer.setFlags id)⟩
  | notify ev =>
      simp only [step, levqNotify] at hrun
      split at hrun
      · exact h.activate hsafe hrun
      · exact absurd hrun (by simp)
  | clock now =>
      rw [← Option.some.inj hrun]
      exact h.withClock now
  | activate ev res now => exact h.activate hsafe hrun
  | expire now => exact h.expire hsafe hrun
  | dispatch => exact h.dispatch hrun
  | coroEnd i finished => exact h.coroEnd hsafe hrun
  | syncCall => exact h.syncCall hrun
  | syncTake =>
      rw [← Option.some.inj hrun]
      exact h.syncTake
  | syncNext i args => exact h.syncNext hrun
  | schedDel ev =>
      rw [← Option.some.inj hrun]
      exact h.schedDel hsafe
  | schedCancel op =>
      rw [← Option.some.inj hrun]
      exact h.withOpL _

end EvqState

/-- In every run of safe steps the slots are apart. -/
theorem safe_run_slotsApart {now : ℤ} {s : EvqState}
    (hrun : Relation.ReflTransGen EvqState.SafeStep (EvqState.init now) s) : s.SlotsApart := by
  have hsound : s.Sound :=
    inv_of_reach (fun _ _ hstep => hstep.sound) (EvqState.init_sound now) hrun
  exact hsound.slotsApart

/-- A timer that is added, fires and is deleted by its own callback. -/
theorem safe_run_slotsApart_timer :
    ∃ s, Relation.ReflTransGen EvqState.SafeStep (EvqState.init 0) s ∧ s.q.evFree = some 0 ∧
      s.SlotsApart := by
  have hrun : Relation.ReflTransGen EvqState.SafeStep (EvqState.init 0) _ :=
    .tail (.tail (.tail (.tail (.tail .refl
      ⟨.addBegin ⟨false, true, false, .function, 100, false⟩, 1, trivial, rfl⟩)
      ⟨.addEnd 0 .ok, 2, trivial, rfl⟩)
      ⟨.notify 0, 1, Or.inl rfl, rfl⟩)
      ⟨.dispatch, 1, trivial, rfl⟩)
      ⟨.del 0, 1, Or.inl rfl, rfl⟩
  exact ⟨_, hrun, rfl, safe_run_slotsApart hrun⟩

/-- A oneshot timer is added and fires, and its callback deletes it. -/
def oneshotDelOps : List EvqOp :=
  [.addBegin ⟨false, true, true, .function, 100, false⟩, .addEnd 0 .ok, .notify 0, .dispatch, .del 0]

/-- The callback of a oneshot timer deletes the event it was called for.  The slot, free
already, is freed again, and the free list becomes a cycle. -/
theorem oneshot_del_cycle :
    ∃ s, Relation.ReflTransGen EvqState.Step (EvqState.init 0) s ∧ ¬s.SlotsApart := by
  have hrun : (runOps (EvqState.step 2) (EvqState.init 0) oneshotDelOps).map
      (fun s => (s.q.evFree, s.q.nextReady 0)) = some (some 0, some 0) := by
    rfl
  obtain ⟨s, hs, heq⟩ := Option.map_eq_some_iff.mp hrun
  obtain ⟨hfree, hself⟩ := Prod.mk.inj heq
  refine ⟨s, reach_of_runOps (fun _ op _ hop => ⟨op, 2, hop⟩) hs, ?_⟩
  rintro ⟨free, -, -, -, hpath, -⟩
  rw [hfree] at hpath
  exact Path.not_self hself hpath

/-! ## The ready list -/

/-- The ready list ends, visits no event twice, and its events are the active ones. -/
def EvqState.ReadySound (s : EvqState) : Prop :=
  ∃ ready, Path some s.q.nextReady s.q.evReady ready none ∧ ready.Nodup ∧
    ∀ ev, ev ∈ ready ↔ (s.q.flags ev).active = true

theorem EvqState.Sound.readySound {s : EvqState} (h : s.Sound) : s.ReadySound := by
  obtain ⟨slots, ready, h, hact⟩ := h
  exact ⟨ready, h.readyList, h.readyList.nodup, fun ev => ⟨h.ready_active ev, hact ev⟩⟩

/-- In every run of safe steps, after each of them, the ready list has the active events,
each of them once. -/
theorem safe_run_readySound {now : ℤ} {s : EvqState}
    (hrun : Relation.ReflTransGen EvqState.SafeStep (EvqState.init now) s) : s.ReadySound := by
  have hsound : s.Sound :=
    inv_of_reach (fun _ _ hstep => hstep.sound) (EvqState.init_sound now) hrun
  exact hsound.readySound

/-- Two timers; one is notified, and the scheduler deletes the other one. -/
theorem safe_run_readySound_timers :
    ∃ s, Relation.ReflTransGen EvqState.SafeStep (EvqState.init 0) s ∧ s.q.evReady = some 2 ∧
      s.q.nextReady 2 = some 0 ∧ s.ReadySound := by
  have hrun : Relation.ReflTransGen EvqState.SafeStep (EvqState.init 0) _ :=
    .tail (.tail (.tail (.tail (.tail (.tail .refl
      ⟨.addBegin ⟨false, true, false, .function, 100, false⟩, 1, trivial, rfl⟩)
      ⟨.addEnd 0 .ok, 2, trivial, rfl⟩)
      ⟨.addBegin ⟨false, true, false, .coroutine, 100, true⟩, 1, trivial, rfl⟩)
      ⟨.addEnd 0 .ok, 2, trivial, rfl⟩)
      ⟨.notify 0, 1, Or.inl rfl, rfl⟩)
      ⟨.schedDel 2, 1, fun _ => rfl, rfl⟩
  exact ⟨_, hrun, rfl, rfl, safe_run_readySound hrun⟩

/-- A timer whose timeout is not reset by itself is notified, and then its timeout is
processed. -/
def notifiedTimerOps : List EvqOp :=
  [.addBegin ⟨false, true, false, .function, 100, false⟩, .addEnd 0 .ok, .timeoutManual 0 true,
    .notify 0, .expire 200]

/-- `timeout_process` does not look whether an event is active: the timer is linked to
itself. -/
theorem notified_timer_cycle :
    ∃ s, Relation.ReflTransGen EvqState.Step (EvqState.init 0) s ∧ ¬s.ReadySound := by
  have hrun : (runOps (EvqState.step 3) (EvqState.init 0) notifiedTimerOps).map
      (fun s => (s.q.evReady, s.q.nextReady 0)) = some (some 0, some 0) := by
    rfl
  obtain ⟨s, hs, heq⟩ := Option.map_eq_some_iff.mp hrun
  obtain ⟨hready, hself⟩ := Prod.mk.inj heq
  refine ⟨s, reach_of_runOps (fun _ op _ hop => ⟨op, 3, hop⟩) hs, ?_⟩
  rintro ⟨ready, hpath, -⟩
  rw [hready] at hpath
  exact Path.not_self hself hpath

end LuaSys.Event
