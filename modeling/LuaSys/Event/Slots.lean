import LuaSys.Event.Loop
import LuaSys.Event.TimeoutInv

/-!
# The slots of an event queue

Events, headers of timeout queues and pending operations of schedulers share one pool
of slots.  The slots that are free or headers are kept by the timeouts, as far as they
know; `PoolOk` takes the invariant of the timeouts for that.  The other roles are those
of the loop: a slot is registered, ready, or in the hands of a call in progress.

## Main definitions

* `PoolOk slots q` — `slots` are the free slots and the headers, all well linked.
* `EvqState.SlotInv` — the roles of the slots.
* `EvqState.Unused` — a slot without any role.

## Main results

* `SlotInv.newEvent`, `SlotInv.delEvent` — a slot leaves the pool and comes back.
* `SlotInv.setFlags`, `SlotInv.ofTimeouts`, `SlotInv.evqDel`, `SlotInv.push`,
  `SlotInv.give`, `SlotInv.take` — the effects of the parts of the loop.
-/

namespace LuaSys.Event

open LuaSys.Lib

/-! ## The pool -/

/-- The slots in `slots` are free or headers, and the other ones are not. -/
def PoolOk (slots : ℕ → Prop) (q : Evq) : Prop := TimeoutOk False (fun x => ¬slots x) slots q 0

/-- The fields that hold the pool together are the same. -/
structure SamePool (slots : ℕ → Prop) (q q' : Evq) : Prop where
  nextReady : ∀ x, slots x → q'.nextReady x = q.nextReady x
  prev : q'.prev = q.prev
  next : q'.next = q.next
  tq : q'.tq = q.tq
  tqPrev : q'.tqPrev = q.tqPrev
  tqNext : q'.tqNext = q.tqNext
  evHead : q'.evHead = q.evHead
  evTail : q'.evTail = q.evTail
  msec : q'.msec = q.msec
  evFree : q'.evFree = q.evFree
  tqHead : q'.tqHead = q.tqHead
  tqMapFn : q'.tqMapFn = q.tqMapFn
  tqMap : q'.tqMap = q.tqMap

section Pool

variable {slots : ℕ → Prop} {q q' : Evq} {ev : ℕ}

theorem PoolOk.of_timeoutOk {latest : ℤ} (h : TimeoutOk False (fun x => ¬slots x) slots q latest) :
    PoolOk slots q := h.mono False.elim

/-- The timeouts of a pool whose event `ev` has none do not see that event. -/
theorem TimeoutRep.initEvent {tqs : List ℕ} {evs : ℕ → List ℕ} {latest : ℤ}
    (h : TimeoutRep False q latest tqs evs) (hev : q.tq ev = none) :
    TimeoutRep False (eventInit q ev) latest tqs evs := by
  have hne : ∀ t ∈ tqs, ∀ a ∈ evs t, a ≠ ev := by
    rintro t ht a ha rfl
    exact absurd (hev.symm.trans ((h.tq_iff a t).mpr ⟨ht, ha⟩)) (by simp)
  refine ⟨h.queues, h.msec_inj, h.nonempty, fun t ht => ?_, fun a t => ?_, False.elim, False.elim,
    h.map_iff, h.list_sorted⟩
  · exact (h.lists t ht).congr (fun a ha => Function.update_of_ne (hne t ht a ha) _ _)
      fun a ha => Function.update_of_ne (hne t ht a ha) _ _
  · rw [← h.tq_iff a t]
    by_cases hae : a = ev
    · rw [hae, hev]
      simp [eventInit]
    · simp [eventInit, Function.update_of_ne hae]

/-- A change of the other fields keeps the pool. -/
theorem PoolOk.congr (h : PoolOk slots q) (hs : SamePool slots q q') : PoolOk slots q' := by
  obtain ⟨tqs, evs, free, hinv, hslots⟩ := h
  have hfree : ∀ x ∈ free, slots x := fun x hx => (hslots x).mp (Or.inr hx)
  refine ⟨tqs, evs, free, ⟨⟨?_, ?_, hinv.nonempty, ?_, ?_, False.elim, False.elim, ?_, ?_⟩, ?_,
    hinv.free_role, hinv.header_role, ?_⟩, hslots⟩
  · rw [hs.tqNext, hs.tqPrev, hs.tqHead]
    exact hinv.queues
  · rw [hs.msec]
    exact hinv.msec_inj
  · rw [hs.next, hs.prev, hs.evHead, hs.evTail]
    exact hinv.lists
  · rw [hs.tq]
    exact hinv.tq_iff
  · rw [hs.tqMapFn, hs.tqMap, hs.msec]
    exact hinv.map_iff
  · rw [hs.tqMapFn, hs.msec]
    exact hinv.list_sorted
  · rw [hs.evFree]
    exact (path_congr fun x hx => (hs.nextReady x (hfree x hx)).symm).mp hinv.freeList
  · rw [hs.tq]
    exact hinv.events_mem

/-- A slot without a timeout outside the pool can be cleared. -/
theorem PoolOk.initFresh (h : PoolOk slots q) (hev : ¬slots ev) (htq : q.tq ev = none) :
    PoolOk slots (eventInit q ev) := by
  obtain ⟨tqs, evs, free, hinv, hslots⟩ := h
  have hfree : ev ∉ free := fun hmem => hev ((hslots ev).mp (Or.inr hmem))
  refine ⟨tqs, evs, free, ⟨hinv.toTimeoutRep.initEvent htq, ?_, hinv.free_role, hinv.header_role,
    fun a ha => ?_⟩, hslots⟩
  · exact (path_update_of_notMem hfree).mpr hinv.freeList
  · refine hinv.events_mem a fun hnone => ha ?_
    by_cases hae : a = ev <;> simp [eventInit, hae, hnone]

/-- Take a slot from the free list. -/
theorem PoolOk.alloc (h : PoolOk slots q) (hfree : q.evFree = some ev) :
    slots ev ∧ PoolOk (fun x => slots x ∧ x ≠ ev)
      (eventInit { q with evFree := q.nextReady ev } ev) := by
  obtain ⟨tqs, evs, free, hinv, hslots⟩ := h
  obtain ⟨free', rfl⟩ := hinv.freeList.eq_cons hfree
  have hev : slots ev := (hslots ev).mp (Or.inr (by simp))
  have hnot : ev ∉ free' := (List.nodup_cons.mp hinv.freeList.nodup).1
  have hevt : ev ∉ tqs := (hinv.free_role ev (by simp)).1
  have htq : q.tq ev = none := by
    by_contra hne
    exact hinv.events_mem ev hne hev
  have hrep : TimeoutRep False { q with evFree := q.nextReady ev } 0 tqs evs :=
    ⟨hinv.queues, hinv.msec_inj, hinv.nonempty, hinv.lists, hinv.tq_iff, False.elim, False.elim,
      hinv.map_iff, hinv.list_sorted⟩
  refine ⟨hev, tqs, evs, free', ⟨hrep.initEvent htq, ?_, ?_, ?_, ?_⟩, ?_⟩
  · exact (path_update_of_notMem hnot).mpr hinv.freeList.2
  · intro x hx
    refine ⟨(hinv.free_role x (by simp [hx])).1, not_not_intro ⟨(hslots x).mp (Or.inr (by simp [hx])), ?_⟩⟩
    rintro rfl
    exact hnot hx
  · intro t ht
    refine not_not_intro ⟨(hslots t).mp (Or.inl ht), ?_⟩
    rintro rfl
    exact hevt ht
  · intro a ha hs
    have hne : q.tq a ≠ none := fun hnone => ha (by by_cases hae : a = ev <;> simp [eventInit, hae, hnone])
    exact hinv.events_mem a hne hs.1
  · intro x
    have hx := hslots x
    rw [List.mem_cons] at hx
    constructor
    · rintro (ht | hf)
      · exact ⟨hx.mp (Or.inl ht), by rintro rfl; exact hevt ht⟩
      · exact ⟨hx.mp (Or.inr (Or.inr hf)), by rintro rfl; exact hnot hf⟩
    · rintro ⟨hs, hne⟩
      rcases hx.mpr hs with ht | rfl | hf
      · exact Or.inl ht
      · exact absurd rfl hne
      · exact Or.inr hf

/-- Put a slot on the free list. -/
theorem PoolOk.free (h : PoolOk slots q) (hev : ¬slots ev) (htq : q.tq ev = none) :
    PoolOk (fun x => slots x ∨ x = ev) (levqFreeEvent q ev) := by
  obtain ⟨tqs, evs, free, hinv, hslots⟩ := h
  have hnot : ev ∉ free := fun hmem => hev ((hslots ev).mp (Or.inr hmem))
  have hevt : ev ∉ tqs := fun hmem => hev ((hslots ev).mp (Or.inl hmem))
  refine ⟨tqs, evs, ev :: free, ⟨⟨hinv.queues, hinv.msec_inj, hinv.nonempty, hinv.lists,
    hinv.tq_iff, False.elim, False.elim, hinv.map_iff, hinv.list_sorted⟩, ?_, ?_, ?_, ?_⟩, ?_⟩
  · refine ⟨rfl, ?_⟩
    simp only [levqFreeEvent, Function.update_self]
    exact (path_update_of_notMem hnot).mpr hinv.freeList
  · intro x hx
    rcases List.mem_cons.mp hx with rfl | hx
    · exact ⟨hevt, not_not_intro (Or.inr rfl)⟩
    · exact ⟨(hinv.free_role x hx).1, not_not_intro (Or.inl ((hslots x).mp (Or.inr hx)))⟩
  · exact fun t ht => not_not_intro (Or.inl ((hslots t).mp (Or.inl ht)))
  · rintro a ha (hs | rfl)
    · exact hinv.events_mem a ha hs
    · exact ha htq
  · intro x
    have hx := hslots x
    simp only [List.mem_cons]
    tauto

end Pool

/-! ## Where slots come from -/

namespace EvqState

variable {s s' : EvqState} {ev : ℕ}

/-- A slot of the free list, or one that has never been used. -/
theorem newEvent_cases (h : s.newEvent = some (ev, s')) :
    (s.q.evFree = some ev ∧
        s' = { s with q := eventInit { s.q with evFree := s.q.nextReady ev } ev }) ∨
      (s.q.evFree = none ∧ ev = s.nslots ∧ s.nslots < maxSlots ∧
        s' = { s with q := eventInit s.q ev, nslots := s.nslots + 1 }) := by
  unfold EvqState.newEvent at h
  cases hfree : s.q.evFree with
  | some a =>
      rw [hfree] at h
      obtain ⟨rfl, rfl⟩ := Prod.mk.inj (Option.some.inj h)
      exact Or.inl ⟨rfl, rfl⟩
  | none =>
      rw [hfree] at h
      obtain ⟨hlt, heq⟩ := Option.ite_none_right_eq_some.mp h
      obtain ⟨rfl, rfl⟩ := Prod.mk.inj (Option.some.inj heq)
      exact Or.inr ⟨rfl, rfl, hlt, rfl⟩

/-- There is a free slot already, or a new one becomes the only one. -/
theorem reserve_cases (h : s.reserve = some s') :
    (s.q.evFree ≠ none ∧ s' = s) ∨
      (s.q.evFree = none ∧ ∃ ev s₁, s.newEvent = some (ev, s₁) ∧
        s' = { s₁ with q := { s₁.q with evFree := some ev } }) := by
  unfold EvqState.reserve at h
  cases hfree : s.q.evFree with
  | some a =>
      rw [hfree] at h
      exact Or.inl ⟨by simp, (Option.some.inj h).symm⟩
  | none =>
      rw [hfree] at h
      obtain ⟨⟨ev, s₁⟩, hnew, rfl⟩ := Option.map_eq_some_iff.mp h
      exact Or.inr ⟨rfl, ev, s₁, hnew, rfl⟩

/-- The first half of `levq_add` takes a slot, and waits if there is another one for a
timeout queue. -/
theorem addBegin_cases {args : AddArgs} (h : s.addBegin args = some s') :
    ∃ ev s₁, s.newEvent = some (ev, s₁) ∧
      (s' = s₁.setFlags ev args.flags ∨
        ∃ s₂, (s₁.setFlags ev args.flags).reserve = some s₂ ∧
          s' = { s₂ with adding := ⟨ev, args⟩ :: s₂.adding }) := by
  obtain ⟨⟨ev, s₁⟩, hnew, heq⟩ := Option.map_eq_some_iff.mp h
  refine ⟨ev, s₁, hnew, ?_⟩
  dsimp only at heq
  cases hres : (s₁.setFlags ev args.flags).reserve with
  | none =>
      rw [hres] at heq
      exact Or.inl heq.symm
  | some s₂ =>
      rw [hres] at heq
      exact Or.inr ⟨s₂, rfl, heq.symm⟩

/-- `ev->evq = evq`. -/
def setRegistered (s : EvqState) (ev : ℕ) : EvqState :=
  { s with q := { s.q with registered := Function.update s.q.registered ev true } }

/-- The ends of `levq_add`, when its event is not in progress any more. -/
inductive AddEnds (fuel : ℕ) (s : EvqState) (a : Adding) (res : AddResult) : EvqState → Prop
  /-- The timeout is set. -/
  | timeout (q' : Evq) (r : ℤ)
      (hset : evqSetTimeout fuel (s.setRegistered a.ev).q a.ev a.args.timeout = some (q', r))
      (hok : a.args.timer = true ∧ r = 0 ∨
        a.args.timer = false ∧ res = .ok ∧ a.args.timeout ≠ timeoutInfinite) :
      AddEnds fuel s a res (addEnd.finish { s with q := q' } a)
  /-- There is no timeout to set. -/
  | infinite (htimer : a.args.timer = false) (hok : res = .ok)
      (hinf : a.args.timeout = timeoutInfinite) :
      AddEnds fuel s a res (addEnd.finish (s.setRegistered a.ev) a)
  /-- A timer has got no timeout. -/
  | noTimeout (q' : Evq) (r : ℤ)
      (hset : evqSetTimeout fuel (s.setRegistered a.ev).q a.ev a.args.timeout = some (q', r))
      (htimer : a.args.timer = true) (hr : r ≠ 0) :
      AddEnds fuel s a res (delEvent { s with q := q' } a.ev)
  /-- The backend has failed, behind `ev->evq = evq`. -/
  | failed (htimer : a.args.timer = false) (hok : res ≠ .ok) :
      AddEnds fuel s a res ((s.setRegistered a.ev).delEvent a.ev)
  /-- The backend has failed, before that. -/
  | failedEarly (htimer : a.args.timer = false) (hok : res ≠ .ok) :
      AddEnds fuel s a res (s.delEvent a.ev)

/-- The second half of `levq_add` has one of its ends. -/
theorem addEnd_cases {fuel i : ℕ} {res : AddResult} (h : s.addEnd fuel i res = some s') :
    ∃ a, s.adding[i]? = some a ∧ AddEnds fuel { s with adding := s.adding.eraseIdx i } a res s' := by
  obtain ⟨a, ha, h⟩ := Option.bind_eq_some_iff.mp h
  refine ⟨a, ha, ?_⟩
  by_cases htimer : a.args.timer = true
  · simp only [htimer, true_or, if_true] at h
    obtain ⟨⟨q', r⟩, hset, h⟩ := Option.bind_eq_some_iff.mp h
    dsimp only at h
    by_cases hr : r = 0
    · rw [if_pos hr] at h
      rw [← Option.some.inj h]
      exact .timeout q' r hset (Or.inl ⟨htimer, hr⟩)
    · rw [if_neg hr] at h
      rw [← Option.some.inj h]
      exact .noTimeout q' r hset htimer hr
  · have htimer := Bool.not_eq_true _ ▸ htimer
    by_cases hok : res = .ok
    · simp only [htimer, hok, reduceCtorEq, ne_eq, not_false_eq_true, or_true, if_true,
        Bool.false_eq_true, if_false] at h
      by_cases hinf : a.args.timeout = timeoutInfinite
      · rw [if_pos hinf] at h
        rw [← Option.some.inj h]
        exact .infinite htimer hok hinf
      · rw [if_neg hinf] at h
        obtain ⟨⟨q', r⟩, hset, h⟩ := Option.bind_eq_some_iff.mp h
        rw [← Option.some.inj h]
        exact .timeout q' r hset (Or.inr ⟨htimer, hok, hinf⟩)
    · simp only [htimer, hok, if_false, Option.some.injEq, Bool.false_eq_true, false_or] at h
      rw [← h]
      split
      · exact .failed htimer hok
      · exact .failedEarly htimer hok

end EvqState

/-! ## The invariant -/

/-- Neither active nor deleted. -/
def EventFlags.Fresh (f : EventFlags) : Prop := f.active = false ∧ f.delete = false

namespace EvqState

/-- The pending operations of schedulers. -/
def pending (s : EvqState) : List ℕ := s.syncOps ++ s.syncTaken.flatten

/-- The slots in the hands of a call in progress. -/
def reserved (s : EvqState) : List ℕ := s.adding.map Adding.ev ++ s.pending

/-- The roles of the slots: `slots` are the free ones and the headers, `ready` is the
list of the ready events. -/
structure SlotInv (s : EvqState) (slots : ℕ → Prop) (ready : List ℕ) : Prop where
  pool : PoolOk slots s.q
  slots_apart : ∀ x, slots x → s.live x = false ∧ x ∉ ready ∧ x ∉ s.reserved ∧ x < s.nslots
  readyList : Path some s.q.nextReady s.q.evReady ready none
  ready_active : ∀ x ∈ ready, (s.q.flags x).active = true
  used_lt : ∀ x, s.live x = true ∨ x ∈ ready ∨ x ∈ s.reserved → x < s.nslots
  reserved_nodup : s.reserved.Nodup
  reserved_apart : ∀ x ∈ s.reserved, s.live x = false ∧ x ∉ ready
  live_registered : ∀ x, s.live x = true → s.q.registered x = true
  live_delete : ∀ x, s.live x = true → (s.q.flags x).delete = false
  tq_live : ∀ x, s.q.tq x ≠ none → s.live x = true
  adding_fresh : ∀ a ∈ s.adding, (s.q.flags a.ev).Fresh

/-- A slot without any role, in the hands of the code that runs. -/
structure Unused (s : EvqState) (slots : ℕ → Prop) (ready : List ℕ) (ev : ℕ) : Prop where
  not_slots : ¬slots ev
  dead : s.live ev = false
  not_ready : ev ∉ ready
  not_reserved : ev ∉ s.reserved
  lt : ev < s.nslots

namespace SlotInv

variable {s s' : EvqState} {slots : ℕ → Prop} {ready : List ℕ} {ev : ℕ}

theorem tq_none (h : SlotInv s slots ready) (hev : s.live ev = false) : s.q.tq ev = none := by
  by_contra hne
  rw [h.tq_live ev hne] at hev
  exact absurd hev (by simp)

theorem ready_not_slots (h : SlotInv s slots ready) : ∀ x ∈ ready, ¬slots x :=
  fun x hx hs => (h.slots_apart x hs).2.1 hx

theorem live_not_slots (h : SlotInv s slots ready) (hev : s.live ev = true) : ¬slots ev :=
  fun hs => by simp [(h.slots_apart ev hs).1] at hev

/-- A slot without any role goes to the free list. -/
theorem delEvent (h : SlotInv s slots ready) (hev : Unused s slots ready ev) :
    SlotInv (s.delEvent ev) (fun x => slots x ∨ x = ev) ready := by
  refine ⟨h.pool.free hev.not_slots (h.tq_none hev.dead), ?_, ?_, h.ready_active, h.used_lt, h.reserved_nodup,
    h.reserved_apart, h.live_registered, h.live_delete, h.tq_live, h.adding_fresh⟩
  · rintro x (hx | rfl)
    · exact h.slots_apart x hx
    · exact ⟨hev.dead, hev.not_ready, hev.not_reserved, hev.lt⟩
  · exact (path_update_of_notMem hev.not_ready).mpr h.readyList

/-- New flags for an event. -/
theorem setFlags (h : SlotInv s slots ready) {f : EventFlags}
    (hactive : ev ∈ ready → f.active = true) (hlive : s.live ev = true → f.delete = false)
    (hadding : ev ∈ s.adding.map Adding.ev → f.Fresh) :
    SlotInv (s.setFlags ev f) slots ready := by
  have hflags : ∀ x, x ≠ ev → ((s.setFlags ev f).q.flags x) = s.q.flags x := fun x hx =>
    Function.update_of_ne hx _ _
  have hflag : (s.setFlags ev f).q.flags ev = f := Function.update_self ..
  refine ⟨h.pool.congr ⟨fun _ _ => rfl, rfl, rfl, rfl, rfl, rfl, rfl, rfl, rfl, rfl, rfl, rfl, rfl⟩,
    h.slots_apart, h.readyList, ?_, h.used_lt, h.reserved_nodup, h.reserved_apart,
    h.live_registered, ?_, h.tq_live, ?_⟩
  · intro x hx
    by_cases hxe : x = ev
    · subst hxe
      rw [hflag]
      exact hactive hx
    · rw [hflags x hxe]
      exact h.ready_active x hx
  · intro x hx
    by_cases hxe : x = ev
    · subst hxe
      rw [hflag]
      exact hlive hx
    · rw [hflags x hxe]
      exact h.live_delete x hx
  · intro a ha
    by_cases hae : a.ev = ev
    · rw [hae, hflag]
      exact hadding (hae ▸ List.mem_map_of_mem ha)
    · rw [hflags a.ev hae]
      exact h.adding_fresh a ha

/-- New flags that tell the same about the role of the event. -/
theorem keepFlags (h : SlotInv s slots ready) {f : EventFlags}
    (hactive : f.active = (s.q.flags ev).active) (hdelete : f.delete = (s.q.flags ev).delete) :
    SlotInv (s.setFlags ev f) slots ready := by
  refine h.setFlags (fun hmem => ?_) (fun hlive => ?_) fun hmem => ?_
  · rw [hactive]
    exact h.ready_active ev hmem
  · rw [hdelete]
    exact h.live_delete ev hlive
  · obtain ⟨a, ha, rfl⟩ := List.mem_map.mp hmem
    rw [EventFlags.Fresh, hactive, hdelete]
    exact h.adding_fresh a ha

/-- A change of the timeouts by an operation that leaves the events alone. -/
theorem ofTimeouts (h : SlotInv s slots ready) {q' : Evq} (hpool : PoolOk slots q')
    (hsame : SameEvents (fun x => ¬slots x) s.q q')
    (htq : ∀ x, q'.tq x ≠ none → s.live x = true) : SlotInv { s with q := q' } slots ready := by
  refine ⟨hpool, h.slots_apart, ?_, ?_, h.used_lt, h.reserved_nodup, h.reserved_apart, ?_, ?_, htq,
    ?_⟩
  · rw [hsame.evReady]
    exact (path_congr fun x hx => (hsame.nextReady x (h.ready_not_slots x hx)).symm).mp h.readyList
  · rw [hsame.flags]
    exact h.ready_active
  · rw [hsame.registered]
    exact h.live_registered
  · rw [hsame.flags]
    exact h.live_delete
  · rw [hsame.flags]
    exact h.adding_fresh

/-- `evq_del` ends the registration of an event and its timeout. -/
theorem evqDel (h : SlotInv s slots ready) (ev : ℕ) : SlotInv (s.evqDel ev) slots ready := by
  obtain ⟨hsame, htq, hok⟩ := TimeoutOk.del h.pool ev
  have hq : (if (s.q.tq ev).isSome then timeoutDel s.q ev else s.q) = timeoutDel s.q ev := by
    cases htq' : s.q.tq ev <;> simp [timeoutDel, htq']
  have hdel : SlotInv { s with q := timeoutDel s.q ev } slots ready :=
    h.ofTimeouts hok hsame fun x hx => h.tq_live x fun hnone => hx (by
      rw [htq]
      by_cases hxe : x = ev <;> simp [hxe, hnone])
  have hlive : ∀ x, (s.evqDel ev).live x = true → s.live x = true ∧ x ≠ ev := by
    intro x hx
    by_cases hxe : x = ev
    · simp [EvqState.evqDel, hxe] at hx
    · simp only [EvqState.evqDel, Function.update_of_ne hxe] at hx
      exact ⟨hx, hxe⟩
  have hdead : ∀ x, s.live x = false → (s.evqDel ev).live x = false := by
    intro x hx
    by_cases hxe : x = ev <;> simp [EvqState.evqDel, hxe, hx]
  have hqdef : (s.evqDel ev).q = { timeoutDel s.q ev with
      registered := Function.update (timeoutDel s.q ev).registered ev false } := by
    simp only [EvqState.evqDel, hq]
  refine ⟨?_, ?_, ?_, ?_, ?_, h.reserved_nodup, ?_, ?_, ?_, ?_, ?_⟩
  · rw [hqdef]
    exact hdel.pool.congr
      ⟨fun _ _ => rfl, rfl, rfl, rfl, rfl, rfl, rfl, rfl, rfl, rfl, rfl, rfl, rfl⟩
  · exact fun x hx => ⟨hdead x (h.slots_apart x hx).1, (h.slots_apart x hx).2⟩
  · rw [hqdef]
    exact hdel.readyList
  · rw [hqdef]
    exact hdel.ready_active
  · rintro x (hx | hx)
    · exact h.used_lt x (Or.inl (hlive x hx).1)
    · exact h.used_lt x (Or.inr hx)
  · exact fun x hx => ⟨hdead x (h.reserved_apart x hx).1, (h.reserved_apart x hx).2⟩
  · intro x hx
    obtain ⟨hx', hxe⟩ := hlive x hx
    rw [hqdef]
    simp only [Function.update_of_ne hxe]
    exact hdel.live_registered x hx'
  · intro x hx
    rw [hqdef]
    exact hdel.live_delete x (hlive x hx).1
  · intro x hx
    rw [hqdef] at hx
    simp only [htq] at hx
    by_cases hxe : x = ev
    · simp [hxe] at hx
    · rw [Function.update_of_ne hxe] at hx
      simp only [EvqState.evqDel, Function.update_of_ne hxe]
      exact h.tq_live x hx
  · rw [hqdef]
    exact hdel.adding_fresh

/-- A slot that nothing refers to is cleared. -/
theorem initEvent {slots' : ℕ → Prop} {evFree : Option ℕ} {nslots : ℕ} (h : SlotInv s slots ready)
    (hdead : s.live ev = false) (hready : ev ∉ ready) (hres : ev ∉ s.reserved)
    (hpool : PoolOk slots' (eventInit { s.q with evFree := evFree } ev))
    (hslots : ∀ x, slots' x → slots x) (hle : s.nslots ≤ nslots) :
    SlotInv { s with q := eventInit { s.q with evFree := evFree } ev, nslots := nslots } slots'
      ready := by
  have hne : ∀ x ∈ ready, x ≠ ev := fun x hx heq => hready (heq ▸ hx)
  have hlive : ∀ x, s.live x = true → x ≠ ev := by
    rintro x hx rfl
    simp [hdead] at hx
  refine ⟨hpool, ?_, ?_, ?_, ?_, h.reserved_nodup, h.reserved_apart, ?_, ?_, ?_, ?_⟩
  · intro x hx
    obtain ⟨h₁, h₂, h₃, h₄⟩ := h.slots_apart x (hslots x hx)
    exact ⟨h₁, h₂, h₃, lt_of_lt_of_le h₄ hle⟩
  · exact (path_update_of_notMem hready).mpr h.readyList
  · intro x hx
    simp only [eventInit, Function.update_of_ne (hne x hx)]
    exact h.ready_active x hx
  · exact fun x hx => lt_of_lt_of_le (h.used_lt x hx) hle
  · intro x hx
    simp only [eventInit, Function.update_of_ne (hlive x hx)]
    exact h.live_registered x hx
  · intro x hx
    simp only [eventInit, Function.update_of_ne (hlive x hx)]
    exact h.live_delete x hx
  · intro x hx
    by_cases hxe : x = ev
    · simp [eventInit, hxe] at hx
    · simp only [eventInit, Function.update_of_ne hxe] at hx
      exact h.tq_live x hx
  · intro b hb
    have hbe : b.ev ≠ ev := fun heq =>
      hres (List.mem_append_left _ (heq ▸ List.mem_map_of_mem hb))
    simp only [eventInit, Function.update_of_ne hbe]
    exact h.adding_fresh b hb

/-- `levq_new_event` gives out a slot without any role. -/
theorem newEvent (h : SlotInv s slots ready) (hnew : s.newEvent = some (ev, s')) :
    ∃ slots', SlotInv s' slots' ready ∧ Unused s' slots' ready ev ∧ s'.q.flags ev = {} ∧
      s'.adding = s.adding ∧ s'.syncOps = s.syncOps ∧ s'.syncTaken = s.syncTaken := by
  obtain ⟨hfree, rfl⟩ | ⟨hfree, rfl, -, rfl⟩ := newEvent_cases hnew
  · obtain ⟨hslot, hpool⟩ := h.pool.alloc hfree
    obtain ⟨hdead, hready, hres, hlt⟩ := h.slots_apart ev hslot
    exact ⟨_, h.initEvent hdead hready hres hpool (fun x hx => hx.1) le_rfl,
      ⟨fun hx => hx.2 rfl, hdead, hready, hres, hlt⟩, by simp [eventInit], rfl, rfl, rfl⟩
  · have hslot : ¬slots s.nslots := fun hx => absurd (h.slots_apart _ hx).2.2.2 (lt_irrefl _)
    have hused : ¬(s.live s.nslots = true ∨ s.nslots ∈ ready ∨ s.nslots ∈ s.reserved) :=
      fun hx => absurd (h.used_lt _ hx) (lt_irrefl _)
    rw [not_or, not_or, Bool.not_eq_true] at hused
    obtain ⟨hdead, hready, hres⟩ := hused
    have hpool := h.pool.initFresh hslot (h.tq_none hdead)
    exact ⟨slots, h.initEvent hdead hready hres hpool (fun x hx => hx) (Nat.le_succ _),
      ⟨hslot, hdead, hready, hres, Nat.lt_succ_self _⟩, by simp [eventInit], rfl, rfl, rfl⟩

/-- An event that is not ready becomes the first ready event. -/
theorem push (h : SlotInv s slots ready) (hslot : ¬slots ev) (hready : ev ∉ ready)
    (hres : ev ∉ s.reserved) (hlt : ev < s.nslots) (hactive : (s.q.flags ev).active = true) :
    SlotInv { s with q := { s.q with
      nextReady := Function.update s.q.nextReady ev s.q.evReady, evReady := some ev } }
      slots (ev :: ready) := by
  have hne : ∀ x, slots x → x ≠ ev := by
    rintro x hx rfl
    exact hslot hx
  refine ⟨h.pool.congr ⟨fun x hx => Function.update_of_ne (hne x hx) _ _, rfl, rfl, rfl, rfl, rfl,
    rfl, rfl, rfl, rfl, rfl, rfl, rfl⟩, ?_, ?_, ?_, ?_, h.reserved_nodup, ?_, h.live_registered,
    h.live_delete, h.tq_live, h.adding_fresh⟩
  · intro x hx
    obtain ⟨hdead, hnr, hrest⟩ := h.slots_apart x hx
    exact ⟨hdead, by simp [hne x hx, hnr], hrest⟩
  · refine ⟨rfl, ?_⟩
    simp only [Function.update_self]
    exact (path_update_of_notMem hready).mpr h.readyList
  · intro x hx
    rcases List.mem_cons.mp hx with rfl | hx
    · exact hactive
    · exact h.ready_active x hx
  · rintro x (hx | hx | hx)
    · exact h.used_lt x (Or.inl hx)
    · rcases List.mem_cons.mp hx with rfl | hx
      · exact hlt
      · exact h.used_lt x (Or.inr (Or.inl hx))
    · exact h.used_lt x (Or.inr (Or.inr hx))
  · intro x hx
    obtain ⟨hdead, hnr⟩ := h.reserved_apart x hx
    refine ⟨hdead, ?_⟩
    rw [List.mem_cons, not_or]
    refine ⟨?_, hnr⟩
    rintro rfl
    exact hres hx

/-- The first ready event leaves the list. -/
theorem pop (h : SlotInv s slots (ev :: ready)) :
    SlotInv { s with q := { s.q with evReady := s.q.nextReady ev } } slots ready := by
  refine ⟨h.pool.congr ⟨fun _ _ => rfl, rfl, rfl, rfl, rfl, rfl, rfl, rfl, rfl, rfl, rfl, rfl, rfl⟩,
    ?_, h.readyList.2, fun x hx => h.ready_active x (List.mem_cons_of_mem _ hx), ?_,
    h.reserved_nodup, ?_, h.live_registered, h.live_delete, h.tq_live, h.adding_fresh⟩
  · intro x hx
    obtain ⟨hdead, hready, hrest⟩ := h.slots_apart x hx
    exact ⟨hdead, fun hmem => hready (List.mem_cons_of_mem _ hmem), hrest⟩
  · rintro x (hx | hx | hx)
    · exact h.used_lt x (Or.inl hx)
    · exact h.used_lt x (Or.inr (Or.inl (List.mem_cons_of_mem _ hx)))
    · exact h.used_lt x (Or.inr (Or.inr hx))
  · intro x hx
    obtain ⟨hdead, hready⟩ := h.reserved_apart x hx
    exact ⟨hdead, fun hmem => hready (List.mem_cons_of_mem _ hmem)⟩

/-- A call in progress gives the slots in `taken` back to the code that runs. -/
theorem give (h : SlotInv s slots ready) {taken : List ℕ} (hq : s'.q = s.q)
    (hn : s'.nslots = s.nslots) (hl : s'.live = s.live)
    (hperm : s.reserved.Perm (taken ++ s'.reserved)) (hadding : s'.adding ⊆ s.adding) :
    SlotInv s' slots ready ∧ ∀ x ∈ taken, Unused s' slots ready x := by
  have hsub : ∀ x, x ∈ taken ∨ x ∈ s'.reserved → x ∈ s.reserved := by
    intro x hx
    rw [hperm.mem_iff, List.mem_append]
    exact hx
  have hnodup : (taken ++ s'.reserved).Nodup := hperm.nodup_iff.mp h.reserved_nodup
  refine ⟨⟨hq ▸ h.pool, ?_, hq ▸ h.readyList, hq ▸ h.ready_active, ?_, hnodup.of_append_right, ?_,
    ?_, ?_, ?_, ?_⟩, ?_⟩
  · intro x hx
    obtain ⟨hdead, hready, hres, hlt⟩ := h.slots_apart x hx
    exact ⟨hl ▸ hdead, hready, fun hmem => hres (hsub x (Or.inr hmem)), hn ▸ hlt⟩
  · rintro x hx
    rw [hn]
    rw [hl] at hx
    exact h.used_lt x (hx.imp_right (Or.imp_right fun hmem => hsub x (Or.inr hmem)))
  · intro x hx
    rw [hl]
    exact h.reserved_apart x (hsub x (Or.inr hx))
  · rw [hq, hl]
    exact h.live_registered
  · rw [hq, hl]
    exact h.live_delete
  · rw [hq, hl]
    exact h.tq_live
  · rw [hq]
    exact fun a ha => h.adding_fresh a (hadding ha)
  · intro x hx
    have hmem : x ∈ s.reserved := hsub x (Or.inl hx)
    obtain ⟨hdead, hready⟩ := h.reserved_apart x hmem
    refine ⟨fun hs => (h.slots_apart x hs).2.2.1 hmem, hl ▸ hdead, hready, ?_, ?_⟩
    · exact fun hmem' => List.disjoint_of_nodup_append hnodup hx hmem'
    · rw [hn]
      exact h.used_lt x (Or.inr (Or.inr hmem))

/-- A call in progress takes a slot. -/
theorem take (h : SlotInv s slots ready) (hev : Unused s slots ready ev) (hq : s'.q = s.q)
    (hn : s'.nslots = s.nslots) (hl : s'.live = s.live)
    (hperm : s'.reserved.Perm (ev :: s.reserved))
    (hadding : ∀ a ∈ s'.adding, a ∈ s.adding ∨ (s.q.flags a.ev).Fresh) :
    SlotInv s' slots ready := by
  have hmem : ∀ x, x ∈ s'.reserved ↔ x = ev ∨ x ∈ s.reserved := by
    intro x
    rw [hperm.mem_iff, List.mem_cons]
  refine ⟨hq ▸ h.pool, ?_, hq ▸ h.readyList, hq ▸ h.ready_active, ?_, ?_, ?_, ?_, ?_, ?_, ?_⟩
  · intro x hx
    obtain ⟨hdead, hready, hres, hlt⟩ := h.slots_apart x hx
    refine ⟨hl ▸ hdead, hready, ?_, hn ▸ hlt⟩
    rw [hmem, not_or]
    refine ⟨?_, hres⟩
    rintro rfl
    exact hev.not_slots hx
  · intro x hx
    rw [hn]
    rw [hl, hmem] at hx
    rcases hx with hx | hx | rfl | hx
    · exact h.used_lt x (Or.inl hx)
    · exact h.used_lt x (Or.inr (Or.inl hx))
    · exact hev.lt
    · exact h.used_lt x (Or.inr (Or.inr hx))
  · exact hperm.nodup_iff.mpr (List.nodup_cons.mpr ⟨hev.not_reserved, h.reserved_nodup⟩)
  · intro x hx
    rw [hl]
    rcases (hmem x).mp hx with rfl | hx
    · exact ⟨hev.dead, hev.not_ready⟩
    · exact h.reserved_apart x hx
  · rw [hq, hl]
    exact h.live_registered
  · rw [hq, hl]
    exact h.live_delete
  · rw [hq, hl]
    exact h.tq_live
  · rw [hq]
    exact fun a ha => (hadding a ha).elim (h.adding_fresh a) id

/-- A slot without any role becomes a registered event. -/
theorem register (h : SlotInv s slots ready) (hev : Unused s slots ready ev)
    (hreg : s.q.registered ev = true) (hdel : (s.q.flags ev).delete = false) :
    SlotInv { s with live := Function.update s.live ev true } slots ready := by
  have hlive : ∀ x, x ≠ ev → Function.update s.live ev true x = s.live x := fun x hx =>
    Function.update_of_ne hx _ _
  refine ⟨h.pool, ?_, h.readyList, h.ready_active, ?_, h.reserved_nodup, ?_, ?_, ?_, ?_,
    h.adding_fresh⟩
  · intro x hx
    have hne : x ≠ ev := by
      rintro rfl
      exact hev.not_slots hx
    exact ⟨(hlive x hne).trans (h.slots_apart x hx).1, (h.slots_apart x hx).2⟩
  · intro x hx
    by_cases hxe : x = ev
    · exact hxe ▸ hev.lt
    · exact h.used_lt x (hx.imp_left (hlive x hxe).symm.trans)
  · intro x hx
    have hne : x ≠ ev := by
      rintro rfl
      exact hev.not_reserved hx
    exact ⟨(hlive x hne).trans (h.reserved_apart x hx).1, (h.reserved_apart x hx).2⟩
  · intro x hx
    by_cases hxe : x = ev
    · exact hxe ▸ hreg
    · exact h.live_registered x ((hlive x hxe).symm.trans hx)
  · intro x hx
    by_cases hxe : x = ev
    · exact hxe ▸ hdel
    · exact h.live_delete x ((hlive x hxe).symm.trans hx)
  · intro x hx
    by_cases hxe : x = ev
    · simp [hxe]
    · exact (hlive x hxe).trans (h.tq_live x hx)

/-- `ev->evq` is set. -/
theorem setRegistered (h : SlotInv s slots ready) (ev : ℕ) :
    SlotInv { s with q := { s.q with registered := Function.update s.q.registered ev true } }
      slots ready := by
  refine ⟨h.pool.congr ⟨fun _ _ => rfl, rfl, rfl, rfl, rfl, rfl, rfl, rfl, rfl, rfl, rfl, rfl, rfl⟩,
    h.slots_apart, h.readyList, h.ready_active, h.used_lt, h.reserved_nodup, h.reserved_apart, ?_,
    h.live_delete, h.tq_live, h.adding_fresh⟩
  intro x hx
  by_cases hxe : x = ev
  · simp [hxe]
  · simp only [Function.update_of_ne hxe]
    exact h.live_registered x hx

/-- A place for a timeout queue. -/
theorem reserve (h : SlotInv s slots ready) (hrun : s.reserve = some s') :
    (∃ slots', SlotInv s' slots' ready) ∧ s'.live = s.live ∧ s'.adding = s.adding := by
  obtain ⟨-, rfl⟩ | ⟨hfree, ev, s₁, hnew, rfl⟩ := reserve_cases hrun
  · exact ⟨⟨slots, h⟩, rfl, rfl⟩
  · obtain ⟨slots', hinv, hev, -, hadding, -⟩ := h.newEvent hnew
    have hdel := hinv.delEvent hev
    -- The new slot is the only one on the free list, and its link is null already.
    have hs₁ : s₁.q.evFree = none ∧ s₁.q.nextReady ev = none ∧ s₁.live = s.live := by
      obtain ⟨hsome, -⟩ | ⟨-, rfl, -, rfl⟩ := newEvent_cases hnew
      · exact absurd (hsome.symm.trans hfree) (by simp)
      · exact ⟨hfree, by simp [eventInit], rfl⟩
    have heq : Function.update s₁.q.nextReady ev s₁.q.evFree = s₁.q.nextReady := by
      rw [hs₁.1, ← hs₁.2.1, Function.update_eq_self]
    rw [EvqState.delEvent, levqFreeEvent, heq] at hdel
    exact ⟨⟨_, hdel⟩, hs₁.2.2, hadding⟩

end SlotInv

end EvqState

end LuaSys.Event
