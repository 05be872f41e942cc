import LuaSys.Event.TimeoutSpec
import LuaSys.Lib.Run

/-!
# Timeouts with and without a map

`timeout_add` looks for the timeout queue of a value in the map of the event queue, or,
when the event queue has no map, in the list of the timeout queues, which is sorted
then.  With a map the list is not sorted: a new timeout queue becomes the first one.
What the timeouts are does not depend on this order.

## Main definitions

* `TimeoutCall`, `TimeoutCall.run` — the calls of the functions of the source.
* `SameTimeouts` — two event queues with the same timeout queues, in any order.
* `SameResults` — the results of a call on two event queues agree.

## Main results

* `map_refines_list` — the same calls on an event queue with a map and on one without it.
-/

namespace LuaSys.Event

open LuaSys.Lib

/-! ## Calls -/

/-- The calls of the functions of the source; `clock` is the assignment of `evq->now`. -/
inductive TimeoutCall
  | add (ev : ℕ) (msec now : ℤ)
  | reset (ev : ℕ) (now : ℤ)
  | del (ev : ℕ)
  | setTimeout (ev : ℕ) (msec : ℤ)
  | get (min now : ℤ)
  | process (evReady : Option ℕ) (now : ℤ)
  | clock (now : ℤ)

/-- What a call returns. -/
inductive TimeoutResult
  | done
  | status (res : ℤ)
  | msec (d : ℤ)
  | ready (ev : Option ℕ)
  deriving DecidableEq

namespace TimeoutCall

/-- One call. -/
def run (fuel : ℕ) (q : Evq) : TimeoutCall → Option (Evq × TimeoutResult)
  | .add ev msec now => (timeoutAdd fuel q ev msec now).map fun r => (r.1, .status r.2)
  | .reset ev now => (timeoutReset q ev now).map fun q => (q, .done)
  | .del ev => some (timeoutDel q ev, .done)
  | .setTimeout ev msec => (evqSetTimeout fuel q ev msec).map fun r => (r.1, .status r.2)
  | .get min now => (timeoutGet fuel q q.tqHead min now).map fun d => (q, .msec d)
  | .process evReady now =>
      (timeoutProcess fuel q q.tqHead evReady now).map fun r => (r.1, .ready r.2)
  | .clock now => some ({ q with now := now }, .done)

/-- What the callers promise: `timeout_add` is called for an event without a timeout and
`timeout_reset` for an event with one. -/
def Allowed (events : ℕ → Prop) (q : Evq) : TimeoutCall → Prop
  | .add ev _ _ => events ev ∧ q.tq ev = none
  | .reset ev _ => q.tq ev ≠ none
  | .setTimeout ev _ => events ev
  | .del _ | .get _ _ | .process _ _ | .clock _ => True

end TimeoutCall

/-- The call failed because there was no slot for the header of a timeout queue. -/
def TimeoutResult.NoSlot (r : TimeoutResult) : Prop := r = .status (-1)

/-- An event queue without timeouts, with or without a map, and with free slots. -/
structure NoTimeouts (events : ℕ → Prop) (useMap : Bool) (q : Evq) : Prop where
  tqMapFn : q.tqMapFn = useMap
  tqMap : ∀ msec, q.tqMap msec = none
  tqHead : q.tqHead = none
  tq : ∀ ev, q.tq ev = none
  freeList : ∃ free, Path some q.nextReady q.evFree free none ∧ ∀ n ∈ free, ¬events n

/-- A timeout queue as its users see it: the timeout value, and the events with their
deadlines. -/
def Evq.shown (q : Evq) (evs : ℕ → List ℕ) (t : ℕ) : ℤ × List (ℕ × ℤ) :=
  (q.msec t, (evs t).map fun ev => (ev, q.timeoutAt ev))

/-- The timeout queues `tqs`, with the events `evs`, are those linked in `q`. -/
def Evq.Linked (q : Evq) (tqs : List ℕ) (evs : ℕ → List ℕ) : Prop :=
  Path some q.tqNext q.tqHead tqs none ∧
    ∀ t ∈ tqs, Path some q.next (q.evHead t) (evs t) none

/-- The two event queues have the same timeout queues. -/
def SameTimeouts (q q' : Evq) : Prop :=
  ∃ tqs evs tqs' evs', q.Linked tqs evs ∧ q'.Linked tqs' evs' ∧
    (tqs.map (q.shown evs)).Perm (tqs'.map (q'.shown evs'))

/-- The results of a call on two event queues agree: `timeout_get` returns the same
value, and `timeout_process` activates the same events. -/
def SameResults (q q₁ q' q₁' : Evq) (call : TimeoutCall) (r r' : TimeoutResult) : Prop :=
  match call, r, r' with
  | .process evReady _, .ready ev, .ready ev' =>
      ∃ fired fired', Activates q q₁ evReady ev fired ∧ Activates q' q₁' evReady ev' fired' ∧
        ∀ x, x ∈ fired ↔ x ∈ fired'
  | .process _ _, _, _ => False
  | _, _, _ => r = r'

section Both

variable {events : ℕ → Prop} {q q' : Evq} {a : Timeouts}

theorem NoTimeouts.refines {useMap : Bool} (h : NoTimeouts events useMap q) :
    Refines events q ⟨fun _ => none, fun _ => [], fun _ => 0⟩ := by
  obtain ⟨free, hpath, hfree⟩ := h.freeList
  have hrep : TimeoutRep False q 0 [] fun _ => [] := by
    refine ⟨⟨none, h.tqHead, rfl⟩, ?_, ?_, ?_, ?_, ?_, ?_, ?_, ?_⟩ <;> simp [h.tq, h.tqMap]
  refine ⟨⟨fun n => n ∈ free, [], _, free, ⟨hrep, hpath, ?_, ?_, ?_⟩, by simp⟩, [], _, hrep, ?_, ?_,
    ?_, ?_⟩
  · exact fun n hn => ⟨by simp, hfree n hn⟩
  · simp
  · simp [h.tq]
  · simp
  · simp
  · simp [h.tq]
  · simp [h.tq]

theorem Refines.linked (h : Refines events q a) :
    ∃ tqs evs, q.Linked tqs evs ∧ (tqs.map (q.shown evs)).Nodup ∧
      ∀ x, x ∈ tqs.map (q.shown evs) ↔ a.queue x.1 ≠ [] ∧
        x.2 = (a.queue x.1).map fun ev => (ev, a.deadline ev) := by
  obtain ⟨-, tqs, evs, hrep, hshow⟩ := h
  obtain ⟨tail, hqs⟩ := hrep.queues
  have hshown : ∀ t ∈ tqs, q.shown evs t =
      (q.msec t, (a.queue (q.msec t)).map fun ev => (ev, a.deadline ev)) := by
    intro t ht
    rw [Evq.shown, hshow.queue t ht]
    congr 1
    apply List.map_congr_left
    intro ev hev
    rw [hshow.deadline ev (by simp [(hrep.tq_iff ev t).mpr ⟨ht, hev⟩])]
  refine ⟨tqs, evs, ⟨DSeg.forward hqs, fun t ht => DSeg.forward (hrep.lists t ht)⟩, ?_, ?_⟩
  · refine (List.nodup_map_iff_inj_on hrep.tqs_nodup).mpr fun t ht t' ht' heq => ?_
    exact hrep.msec_inj t ht t' ht' (Prod.mk.inj heq).1
  · rintro ⟨m, l⟩
    rw [List.mem_map]
    dsimp only
    constructor
    · rintro ⟨t, ht, heq⟩
      rw [hshown t ht] at heq
      obtain ⟨rfl, rfl⟩ := Prod.mk.inj heq
      refine ⟨?_, rfl⟩
      rw [hshow.queue t ht]
      exact hrep.nonempty t ht
    · rintro ⟨hne, rfl⟩
      obtain ⟨t, ht, rfl⟩ := hshow.covers m hne
      exact ⟨t, ht, hshown t ht⟩

theorem Refines.sameTimeouts (h : Refines events q a) (h' : Refines events q' a) :
    SameTimeouts q q' := by
  obtain ⟨tqs, evs, hlinked, hnd, hmem⟩ := h.linked
  obtain ⟨tqs', evs', hlinked', hnd', hmem'⟩ := h'.linked
  refine ⟨tqs, evs, tqs', evs', hlinked, hlinked', ?_⟩
  rw [List.perm_ext_iff_of_nodup hnd hnd']
  intro x
  rw [hmem, hmem']

theorem Refines.tq_none_iff (h : Refines events q a) (ev : ℕ) : q.tq ev = none ↔ a.value ev = none := by
  obtain ⟨-, tqs, evs, -, hshow⟩ := h
  rw [hshow.value, Option.map_eq_none_iff]

theorem Refines.allowed (h : Refines events q a) (h' : Refines events q' a) {call : TimeoutCall}
    (hcall : call.Allowed events q) : call.Allowed events q' := by
  have htq : ∀ ev, q.tq ev = none ↔ q'.tq ev = none := by
    intro ev
    rw [h.tq_none_iff, h'.tq_none_iff]
  cases call with
  | add ev msec now => exact ⟨hcall.1, (htq ev).mp hcall.2⟩
  | reset ev now => exact fun hnone => hcall ((htq ev).mpr hnone)
  | setTimeout ev msec => exact hcall
  | del ev | get min now | process r now | clock now => trivial

/-- What a call does to the timeouts. -/
def Timeouts.call (a : Timeouts) (now : ℤ) : TimeoutCall → Timeouts
  | .add ev msec now => a.add ev msec now
  | .reset ev now => a.reset ev now
  | .del ev => a.del ev
  | .setTimeout ev msec => a.setTimeout ev msec now
  | .process _ now => a.process now
  | .get _ _ | .clock _ => a

/-- The result of a call, as far as it is determined by the timeouts. -/
def Timeouts.Returns (a : Timeouts) (q q' : Evq) : TimeoutCall → TimeoutResult → Prop
  | .get min now, r => ∃ d, r = .msec d ∧ a.Waits min now d
  | .process evReady now, r => ∃ ev fired, r = .ready ev ∧ Activates q q' evReady ev fired ∧
      ∀ x, x ∈ fired ↔ ∃ msec, x ∈ a.due now msec
  | .add _ _ _, r | .setTimeout _ _, r => r = .status 0
  | .reset _ _, r | .del _, r | .clock _, r => r = .done

/-- The value of `evq->now` after a call. -/
def TimeoutCall.now (now : ℤ) : TimeoutCall → ℤ
  | .clock now' => now'
  | _ => now

theorem Refines.withClock (h : Refines events q a) (now : ℤ) :
    Refines events { q with now := now } a := by
  obtain ⟨⟨slots, tqs₁, evs₁, free, hinv, hslots⟩, tqs, evs, hrep, hshow⟩ := h
  refine ⟨⟨slots, tqs₁, evs₁, free, ⟨⟨hinv.queues, hinv.msec_inj, hinv.nonempty, hinv.lists,
    hinv.tq_iff, hinv.sorted, hinv.deadline_le, hinv.map_iff, hinv.list_sorted⟩, hinv.freeList,
    hinv.free_role, hinv.header_role, hinv.events_mem⟩, hslots⟩, tqs, evs, ?_, ?_⟩
  · exact ⟨hrep.queues, hrep.msec_inj, hrep.nonempty, hrep.lists, hrep.tq_iff, hrep.sorted,
      hrep.deadline_le, hrep.map_iff, hrep.list_sorted⟩
  · exact ⟨hshow.queue, hshow.covers, hshow.value, hshow.deadline⟩

/-- Every call of the source does on the links what it does to the timeouts, unless there is
no slot. -/
theorem Refines.call (h : Refines events q a) {call : TimeoutCall}
    (hcall : call.Allowed events q) :
    ∃ fuel₀, ∀ fuel, fuel₀ ≤ fuel → ∃ q' r, call.run fuel q = some (q', r) ∧
      q'.now = call.now q.now ∧
      ((a.Returns q q' call r ∧ Refines events q' (a.call q.now call)) ∨
        (r.NoSlot ∧ q.evFree = none)) := by
  cases call with
  | add ev msec now =>
      obtain ⟨fuel₀, hadd⟩ := h.add hcall.1 hcall.2 msec now
      refine ⟨fuel₀, fun fuel hfuel => ?_⟩
      obtain ⟨q', res, hrun, hnow, hres⟩ := hadd fuel hfuel
      refine ⟨q', .status res, by simp [TimeoutCall.run, hrun], hnow, ?_⟩
      rcases hres with ⟨rfl, href⟩ | ⟨rfl, hfree⟩
      · exact Or.inl ⟨rfl, href⟩
      · exact Or.inr ⟨rfl, hfree⟩
  | reset ev now =>
      obtain ⟨q', hrun, hnow, href⟩ := h.reset hcall
      refine ⟨0, fun fuel _ => ⟨q', .done, ?_, hnow, Or.inl ⟨rfl, href⟩⟩⟩
      simp only [TimeoutCall.run, hrun, Option.map_some]
  | del ev =>
      obtain ⟨hnow, -, href⟩ := h.del ev
      exact ⟨0, fun fuel _ => ⟨_, .done, rfl, hnow, Or.inl ⟨rfl, href⟩⟩⟩
  | setTimeout ev msec =>
      obtain ⟨fuel₀, hset⟩ := h.setTimeout hcall msec
      refine ⟨fuel₀, fun fuel hfuel => ?_⟩
      obtain ⟨q', res, hrun, hnow, hres⟩ := hset fuel hfuel
      refine ⟨q', .status res, by simp [TimeoutCall.run, hrun], hnow, ?_⟩
      rcases hres with ⟨rfl, href⟩ | ⟨rfl, hfree⟩
      · exact Or.inl ⟨rfl, href⟩
      · exact Or.inr ⟨rfl, hfree⟩
  | get min now =>
      obtain ⟨fuel₀, hget⟩ := h.get min now
      refine ⟨fuel₀, fun fuel hfuel => ?_⟩
      obtain ⟨d, hrun, hwaits⟩ := hget fuel hfuel
      exact ⟨q, .msec d, by simp [TimeoutCall.run, hrun], rfl, Or.inl ⟨⟨d, rfl, hwaits⟩, h⟩⟩
  | process r now =>
      obtain ⟨fuel₀, hprocess⟩ := h.process r now
      refine ⟨fuel₀, fun fuel hfuel => ?_⟩
      obtain ⟨q', r', fired, hrun, hnow, hfired, hdue, href⟩ := hprocess fuel hfuel
      exact ⟨q', .ready r', by simp [TimeoutCall.run, hrun], hnow,
        Or.inl ⟨⟨r', fired, rfl, hfired, hdue⟩, href⟩⟩
  | clock now =>
      exact ⟨0, fun fuel _ => ⟨_, .done, rfl, rfl, Or.inl ⟨rfl, h.withClock now⟩⟩⟩

/-- The timeouts determine the results. -/
theorem Timeouts.Returns.same {q₁ q₁' : Evq} {call : TimeoutCall} {r r' : TimeoutResult}
    (h : a.Returns q q₁ call r) (h' : a.Returns q' q₁' call r') :
    SameResults q q₁ q' q₁' call r r' := by
  cases call with
  | get min now =>
      obtain ⟨d, rfl, hd⟩ := h
      obtain ⟨d', rfl, hd'⟩ := h'
      rw [hd.unique hd']
      rfl
  | process evReady now =>
      obtain ⟨ev, fired, rfl, hfired, hdue⟩ := h
      obtain ⟨ev', fired', rfl, hfired', hdue'⟩ := h'
      exact ⟨fired, fired', hfired, hfired', fun x => (hdue x).trans (hdue' x).symm⟩
  | add ev msec now | setTimeout ev msec | reset ev now | del ev | clock now =>
      exact Eq.trans h (Eq.symm h')

/-- A result that the timeouts determine is not a failure. -/
theorem Timeouts.Returns.not_noSlot {call : TimeoutCall} {r : TimeoutResult}
    (h : a.Returns q q' call r) : ¬r.NoSlot := by
  cases call with
  | get min now =>
      obtain ⟨d, rfl, -⟩ := h
      exact fun hfail => absurd hfail (by simp [TimeoutResult.NoSlot])
  | process evReady now =>
      obtain ⟨ev, fired, rfl, -⟩ := h
      exact fun hfail => absurd hfail (by simp [TimeoutResult.NoSlot])
  | add ev msec now | setTimeout ev msec | reset ev now | del ev | clock now =>
      rw [show r = _ from h]
      exact fun hfail => absurd hfail (by simp [TimeoutResult.NoSlot])

/-! ## Fuel -/

theorem timeoutMin_succ {fuel tq : ℕ} {min d : ℤ} (h : timeoutMin q fuel tq min = some d) :
    timeoutMin q (fuel + 1) tq min = some d := by
  induction fuel generalizing tq min with
  | zero => exact absurd h (by simp [timeoutMin])
  | succ fuel ih =>
      rw [timeoutMin] at h ⊢
      obtain ⟨ev, hev, h⟩ := Option.bind_eq_some_iff.mp h
      refine Option.bind_eq_some_iff.mpr ⟨ev, hev, ?_⟩
      cases hnext : q.tqNext tq with
      | none => simpa only [hnext] using h
      | some tq' =>
          simp only [hnext] at h ⊢
          exact ih h

theorem timeoutGet_succ {fuel : ℕ} {tq : Option ℕ} {min now d : ℤ}
    (h : timeoutGet fuel q tq min now = some d) : timeoutGet (fuel + 1) q tq min now = some d := by
  cases tq with
  | none => exact h
  | some t =>
      simp only [timeoutGet] at h ⊢
      obtain ⟨ev, hev, h⟩ := Option.bind_eq_some_iff.mp h
      obtain ⟨c, hc, h⟩ := Option.bind_eq_some_iff.mp h
      exact Option.bind_eq_some_iff.mpr ⟨ev, hev,
        Option.bind_eq_some_iff.mpr ⟨c, timeoutMin_succ hc, h⟩⟩

theorem TimeoutCall.run_mono {fuel fuel' : ℕ} {call : TimeoutCall} {o : Evq × TimeoutResult}
    (h : call.run fuel q = some o) (hle : fuel ≤ fuel') : call.run fuel' q = some o := by
  refine fuel_mono (f := fun n => call.run n q) (fun n o ho => ?_) hle h
  cases call with
  | add ev msec now =>
      obtain ⟨x, hx, heq⟩ := Option.map_eq_some_iff.mp ho
      exact Option.map_eq_some_iff.mpr ⟨x, timeoutAdd_succ hx, heq⟩
  | setTimeout ev msec =>
      obtain ⟨x, hx, heq⟩ := Option.map_eq_some_iff.mp ho
      exact Option.map_eq_some_iff.mpr ⟨x, evqSetTimeout_succ hx, heq⟩
  | get min now =>
      obtain ⟨x, hx, heq⟩ := Option.map_eq_some_iff.mp ho
      exact Option.map_eq_some_iff.mpr ⟨x, timeoutGet_succ hx, heq⟩
  | process r now =>
      obtain ⟨x, hx, heq⟩ := Option.map_eq_some_iff.mp ho
      exact Option.map_eq_some_iff.mpr ⟨x, timeoutProcess_succ hx, heq⟩
  | reset ev now | del ev | clock now => exact ho

/-! ## The same calls on two event queues -/

/-- The same timeouts on both sides. -/
def BothRefine (events : ℕ → Prop) (s : Evq × Evq) : Prop :=
  s.2.now = s.1.now ∧ ∃ a, Refines events s.1 a ∧ Refines events s.2 a

/-- One call on both event queues, with enough free slots. -/
def BothStep (events : ℕ → Prop) (s s' : Evq × Evq) : Prop :=
  ∃ (call : TimeoutCall) (fuel : ℕ) (r r' : TimeoutResult), call.Allowed events s.1 ∧
    call.run fuel s.1 = some (s'.1, r) ∧
      call.run fuel s.2 = some (s'.2, r') ∧ ¬r.NoSlot ∧ ¬r'.NoSlot

/-- A call on both event queues. -/
theorem BothRefine.call {s : Evq × Evq} (h : BothRefine events s) {call : TimeoutCall}
    (hcall : call.Allowed events s.1) :
    ∃ fuel₀, ∀ fuel, fuel₀ ≤ fuel → ∃ q₁ r q₁' r', call.run fuel s.1 = some (q₁, r) ∧
      call.run fuel s.2 = some (q₁', r') ∧ (r.NoSlot → s.1.evFree = none) ∧
      (r'.NoSlot → s.2.evFree = none) ∧ (¬r.NoSlot → ¬r'.NoSlot →
        BothRefine events (q₁, q₁') ∧ SameResults s.1 q₁ s.2 q₁' call r r') := by
  obtain ⟨hnow, a, href, href'⟩ := h
  obtain ⟨fuel₁, hrun₁⟩ := href.call hcall
  obtain ⟨fuel₂, hrun₂⟩ := href'.call (href.allowed href' hcall)
  refine ⟨max fuel₁ fuel₂, fun fuel hfuel => ?_⟩
  obtain ⟨q₁, r, hrun, hclock, hres⟩ := hrun₁ fuel (le_trans (le_max_left _ _) hfuel)
  obtain ⟨q₁', r', hrun', hclock', hres'⟩ := hrun₂ fuel (le_trans (le_max_right _ _) hfuel)
  refine ⟨q₁, r, q₁', r', hrun, hrun', ?_, ?_, fun hslot hslot' => ?_⟩
  · intro hfail
    rcases hres with ⟨hret, -⟩ | ⟨-, hfree⟩
    · exact absurd hfail hret.not_noSlot
    · exact hfree
  · intro hfail
    rcases hres' with ⟨hret, -⟩ | ⟨-, hfree⟩
    · exact absurd hfail hret.not_noSlot
    · exact hfree
  · obtain ⟨hret, hnext⟩ := hres.resolve_right fun hfail => hslot hfail.1
    obtain ⟨hret', hnext'⟩ := hres'.resolve_right fun hfail => hslot' hfail.1
    refine ⟨⟨?_, _, hnext, ?_⟩, hret.same hret'⟩
    · rw [hclock, hclock', hnow]
    · rw [← hnow]
      exact hnext'

theorem BothStep.bothRefine {s s' : Evq × Evq} (hstep : BothStep events s s')
    (h : BothRefine events s) : BothRefine events s' := by
  obtain ⟨call, fuel, r, r', hcall, hrun, hrun', hslot, hslot'⟩ := hstep
  obtain ⟨fuel₀, hboth⟩ := h.call hcall
  obtain ⟨q₁, r₁, q₁', r₁', hrun₁, hrun₁', -, -, hnext⟩ := hboth _ (le_max_right fuel fuel₀)
  have heq := Option.some.inj (hrun₁.symm.trans (TimeoutCall.run_mono hrun (le_max_left _ _)))
  have heq' := Option.some.inj (hrun₁'.symm.trans (TimeoutCall.run_mono hrun' (le_max_left _ _)))
  obtain ⟨rfl, rfl⟩ := Prod.mk.inj heq
  obtain ⟨rfl, rfl⟩ := Prod.mk.inj heq'
  exact (hnext hslot hslot').1

end Both

/-- The same calls, made on an event queue that searches its sorted list and on one with
a map, keep the timeout queues of the two the same.  After any such calls, a further one
ends on both of them; unless one of them has no free slot, `timeout_get` returns the
same value, `timeout_process` activates the same events, and the timeout queues are the
same again. -/
theorem map_refines_list {events : ℕ → Prop} {q q' : Evq} {s : Evq × Evq}
    (hlist : NoTimeouts events false q) (hmap : NoTimeouts events true q') (hnow : q'.now = q.now)
    (hrun : Relation.ReflTransGen (BothStep events) (q, q') s) :
    SameTimeouts s.1 s.2 ∧ ∀ call : TimeoutCall, call.Allowed events s.1 →
      ∃ fuel₀, ∀ fuel, fuel₀ ≤ fuel → ∃ q₁ r q₁' r', call.run fuel s.1 = some (q₁, r) ∧
        call.run fuel s.2 = some (q₁', r') ∧ (r.NoSlot → s.1.evFree = none) ∧
        (r'.NoSlot → s.2.evFree = none) ∧ (¬r.NoSlot → ¬r'.NoSlot →
          SameTimeouts q₁ q₁' ∧ SameResults s.1 q₁ s.2 q₁' call r r') := by
  have hboth : BothRefine events s :=
    inv_of_reach (fun _ _ hstep => hstep.bothRefine) ⟨hnow, _, hlist.refines, hmap.refines⟩ hrun
  have hsame : ∀ {s : Evq × Evq}, BothRefine events s → SameTimeouts s.1 s.2 := by
    rintro s ⟨-, a, href, href'⟩
    exact href.sameTimeouts href'
  refine ⟨hsame hboth, fun call hcall => ?_⟩
  obtain ⟨fuel₀, hnext⟩ := hboth.call hcall
  refine ⟨fuel₀, fun fuel hfuel => ?_⟩
  obtain ⟨q₁, r, q₁', r', hrun₁, hrun₁', hfree, hfree', hres⟩ := hnext fuel hfuel
  refine ⟨q₁, r, q₁', r', hrun₁, hrun₁', hfree, hfree', fun hslot hslot' => ?_⟩
  obtain ⟨hboth₁, hresults⟩ := hres hslot hslot'
  exact ⟨hsame hboth₁, hresults⟩

/-- The second timeout queue is the last one of the sorted list, and the first one of the
list with a map. -/
theorem map_refines_list_twoEvents :
    ∃ s, Relation.ReflTransGen (BothStep (· < 2)) (twoEventQueue false, twoEventQueue true) s ∧
      s.1.tqHead = some 2 ∧ s.2.tqHead = some 3 ∧ SameTimeouts s.1 s.2 := by
  have hinit : ∀ useMap, NoTimeouts (· < 2) useMap (twoEventQueue useMap) := by
    intro useMap
    refine ⟨rfl, fun _ => rfl, rfl, fun _ => rfl, [2, 3], ⟨rfl, rfl, rfl⟩, ?_⟩
    simp
  have hok : ¬(TimeoutResult.status 0).NoSlot := by
    simp [TimeoutResult.NoSlot]
  have hfirst : BothStep (· < 2) (twoEventQueue false, twoEventQueue true) (_, _) :=
    ⟨.setTimeout 0 50, 5, .status 0, .status 0, Nat.zero_lt_two, rfl, rfl, hok, hok⟩
  have hrun : Relation.ReflTransGen (BothStep (· < 2)) _ (_, _) :=
    .tail (.single hfirst)
      ⟨.setTimeout 1 100, 5, .status 0, .status 0, Nat.one_lt_two, rfl, rfl, hok, hok⟩
  exact ⟨_, hrun, rfl, rfl, (map_refines_list (hinit false) (hinit true) rfl hrun).1⟩

end LuaSys.Event
