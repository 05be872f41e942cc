import LuaSys.Event.TimeoutProcess

/-!
# The timers that expire

What `timeout_process` does, in terms of deadlines.  It looks at each queue only up to
the first event that is not due; the queues are sorted, so the events before it are all
the events of the queue that are due.

## Main definitions

* `due q now ev` — the deadline of an event comes in less than `MIN_TIMEOUT`.
* `requeued q now l` — the events of a queue, those that are not due first.
* `Expired q q' now tqs evs fired` — the events `fired` are those that are due, they are
  marked and have a new deadline, and the others are as before.

## Main results

* `timeoutProcess_expires` — `timeout_process` puts exactly the events that are due
  before the ready events.
-/

namespace LuaSys.Event

open LuaSys.Lib

/-- The test of `timeout_process`. -/
def due (q : Evq) (now : ℤ) (ev : ℕ) : Bool := q.timeoutAt ev < now + minTimeout

/-- The events of a queue, those that are not due in their order and then those that are
due in their order. -/
def requeued (q : Evq) (now : ℤ) (l : List ℕ) : List ℕ :=
  l.filter (fun ev => !due q now ev) ++ l.filter (due q now)

/-- The events `fired` of the queues have expired: these are the events that are due,
each once. -/
structure Expired (q q' : Evq) (now : ℤ) (tqs : List ℕ) (evs : ℕ → List ℕ) (fired : List ℕ) :
    Prop where
  nodup : fired.Nodup
  mem_iff : ∀ ev, ev ∈ fired ↔ (∃ t ∈ tqs, ev ∈ evs t) ∧ q.timeoutAt ev < now + minTimeout
  /-- The fired events are marked and have their next deadline. -/
  flags : ∀ ev ∈ fired, q'.flags ev = { q.flags ev with active := true, timeoutRes := true }
  timeoutAt : ∀ t ∈ tqs, ∀ ev ∈ evs t, ev ∈ fired → q'.timeoutAt ev = now + q.msec t
  /-- The other events keep their flags and deadlines. -/
  others : ∀ ev, ev ∉ fired → q'.flags ev = q.flags ev ∧ q'.timeoutAt ev = q.timeoutAt ev
  /-- The queues are well linked and sorted, the fired events behind the others. -/
  lists : ∀ t ∈ tqs,
    DList q'.next q'.prev (q'.evHead t) (q'.evTail t) (requeued q now (evs t)) ∧
      (requeued q now (evs t)).Pairwise fun a b => q'.timeoutAt a ≤ q'.timeoutAt b
  rep : TimeoutRep True q' now tqs fun t => requeued q now (evs t)
  /-- All else is the same. -/
  queues : SameQueues q q'
  tq : q'.tq = q.tq
  registered : q'.registered = q.registered
  evFree : q'.evFree = q.evFree
  evReady : q'.evReady = q.evReady
  now : q'.now = q.now

/-! ## Sorted queues -/

/-- When a property of an element is one of the elements before it, the elements that
have it are the first ones. -/
theorem filter_append_filter_not {p : ℕ → Bool} {l : List ℕ}
    (hmono : l.Pairwise fun a b => p b = true → p a = true) :
    l.filter p ++ l.filter (fun x => !p x) = l := by
  induction l with
  | nil => rfl
  | cons a l ih =>
      obtain ⟨hhead, hmono⟩ := List.pairwise_cons.mp hmono
      by_cases ha : p a = true
      · rw [List.filter_cons_of_pos ha, List.filter_cons_of_neg (by simpa using ha),
          List.cons_append, ih hmono]
      · have hnone : l.filter p = [] := by
          rw [List.filter_eq_nil_iff]
          exact fun x hx hpx => ha (hhead x hx hpx)
        have hall := ih hmono
        rw [hnone, List.nil_append] at hall
        rw [List.filter_cons_of_neg ha, List.filter_cons_of_pos (by simpa using ha), hnone, hall,
          List.nil_append]

section Expire

variable {q : Evq} {now : ℤ} {tqs : List ℕ} {evs : ℕ → List ℕ}

/-- A sorted queue is cut by the loop where its events stop to be due. -/
theorem recycled_eq_requeued {l : List ℕ}
    (hsorted : l.Pairwise fun a b => q.timeoutAt a ≤ q.timeoutAt b) :
    recycled q.timeoutAt now l = requeued q now l := by
  have hmono : l.Pairwise fun a b => due q now b = true → due q now a = true := by
    refine hsorted.imp fun {a b} hle hb => ?_
    simp only [due, decide_eq_true_eq] at hb ⊢
    omega
  have hdue : ∀ x ∈ l.filter (due q now), q.timeoutAt x < now + minTimeout := by
    intro x hx
    simpa [due] using (List.mem_filter.mp hx).2
  have hlater : ∀ x ∈ l.filter (fun ev => !due q now ev), ¬q.timeoutAt x < now + minTimeout := by
    intro x hx
    simpa [due] using (List.mem_filter.mp hx).2
  have hcut := recycled_append hdue fun x hx => hlater x (List.mem_of_mem_head? hx)
  rw [filter_append_filter_not hmono] at hcut
  rw [hcut, requeued]

/-- The representation does not depend on the events of slots that are no headers. -/
theorem TimeoutRep.congr {timely : Prop} {evs' : ℕ → List ℕ} (h : TimeoutRep timely q now tqs evs)
    (heq : ∀ t ∈ tqs, evs' t = evs t) : TimeoutRep timely q now tqs evs' := by
  refine ⟨h.queues, h.msec_inj, fun t ht => ?_, fun t ht => ?_, fun ev t => ?_,
    fun htimely t ht => ?_, fun htimely t ht => ?_, h.map_iff, h.list_sorted⟩
  · rw [heq t ht]
    exact h.nonempty t ht
  · rw [heq t ht]
    exact h.lists t ht
  · rw [h.tq_iff]
    exact and_congr_right fun ht => by rw [heq t ht]
  · rw [heq t ht]
    exact h.sorted htimely t ht
  · rw [heq t ht]
    exact h.deadline_le htimely t ht

/-- **`timeout_process` fires exactly the expired timers.**  For every set of timeout
queues, every list of ready events that are not in these queues, and every time without
overflow, it returns the list extended in front by exactly the events that are due. -/
theorem timeoutProcess_expires (h : TimeoutRep True q now tqs evs)
    (hov : ∀ t ∈ tqs, NoOverflow now (q.msec t)) {ready : List ℕ} {r : Option ℕ}
    (hready : Path some q.nextReady r ready none) (hout : ∀ t ∈ tqs, ∀ ev ∈ evs t, ev ∉ ready) :
    ∃ fuel₀, ∀ fuel, fuel₀ ≤ fuel → ∃ q' r' fired,
      timeoutProcess fuel q q.tqHead r now = some (q', r') ∧
        Path some q'.nextReady r' (fired ++ ready) none ∧ Expired q q' now tqs evs fired := by
  obtain ⟨N, hN⟩ := exists_bound (fun t => (evs t).length) tqs
  have hhead : q.tqHead = tqs.head? := h.queues.elim fun _ hqs => hqs.head_eq
  refine ⟨tqs.length + N + 1, fun fuel hfuel => ?_⟩
  obtain ⟨q', evs', fired, r', hrun, hdue, hall, hnd, hpath, hfired, hevs, hrep, -⟩ :=
    timeoutProcess_spec h (List.nil_append tqs).symm (fun _ => hov) hN
      (show tqs.length + N < fuel by omega) r
  have hmem : ∀ ev, ev ∈ fired ↔ (∃ t ∈ tqs, ev ∈ evs t) ∧ q.timeoutAt ev < now + minTimeout := by
    intro ev
    constructor
    · intro hev
      obtain ⟨t, ht, hevt, hlt⟩ := hdue ev hev
      exact ⟨⟨t, ht, hevt⟩, hlt⟩
    · rintro ⟨⟨t, ht, hevt⟩, hlt⟩
      exact hall trivial t ht ev hevt hlt
  have hrep' : TimeoutRep True q' now tqs fun t => requeued q now (evs t) := by
    apply hrep.congr
    intro t ht
    rw [hevs, if_pos ht, recycled_eq_requeued (h.sorted trivial t ht)]
  have hkept : Path some q'.nextReady r ready none := by
    refine (path_congr fun ev hev => ?_).mp hready
    have hnot : ev ∉ fired := fun hf => by
      obtain ⟨⟨t, ht, hevt⟩, -⟩ := (hmem ev).mp hf
      exact hout t ht ev hevt hev
    exact (hfired.nextReady ev hnot).symm
  refine ⟨q', r', fired, by rw [hhead]; exact hrun, path_append.mpr ⟨r, hpath, hkept⟩, hnd, hmem,
    ?_, ?_, ?_, fun t ht => ⟨hrep'.lists t ht, hrep'.sorted trivial t ht⟩, hrep',
    hfired.queues, hfired.tq, hfired.registered, hfired.evFree, hfired.evReady, hfired.now⟩
  · intro ev hev
    rw [hfired.flags, if_pos hev]
  · intro t ht ev hevt hev
    rw [hfired.timeoutAt, if_pos hev, h.rearmAt_eq ht hevt, msecAdd_eq (hov t ht)]
  · intro ev hev
    exact ⟨by rw [hfired.flags, if_neg hev], by rw [hfired.timeoutAt, if_neg hev]⟩

end Expire

/-- Two timers of 100 milliseconds, in the slots 0 and 1, with their header in slot 3, and
a ready event in slot 2.  The deadlines are 5 and 100. -/
def twoTimerQueue : Evq where
  nextReady _ := none
  prev ev := if ev = 1 then some 0 else none
  next ev := if ev = 0 then some 1 else none
  tq ev := if ev = 0 ∨ ev = 1 then some 3 else none
  timeoutAt ev := if ev = 0 then 5 else 100
  flags _ := {}
  registered _ := true
  tqPrev _ := none
  tqNext _ := none
  evHead _ := some 0
  evTail _ := some 1
  msec _ := 100
  now := 0
  evReady := some 2
  evFree := none
  tqHead := some 3
  tqMapFn := false
  tqMap _ := none

theorem twoTimerQueue_rep : TimeoutRep True twoTimerQueue 0 [3] fun _ => [0, 1] := by
  refine ⟨⟨some 3, rfl, rfl, rfl, rfl⟩, by simp, by simp, ?_, ?_, ?_, ?_, ?_, by simp⟩
  · exact fun _ _ => ⟨rfl, rfl, rfl, rfl, rfl, rfl⟩
  · intro ev t
    by_cases hev : ev = 0 ∨ ev = 1 <;> simp [twoTimerQueue, hev, eq_comm]
  · simp [twoTimerQueue]
  · intro _ t _ ev hev
    rcases List.mem_pair.mp hev with rfl | rfl <;> simp [twoTimerQueue]
  · simp [twoTimerQueue]

/-- The first of the two timers expires, and it stands before the ready event. -/
theorem timeoutProcess_expires_twoTimers : ∃ fuel₀, ∀ fuel, fuel₀ ≤ fuel → ∃ q' r',
    timeoutProcess fuel twoTimerQueue (some 3) (some 2) 0 = some (q', r') ∧
      Path some q'.nextReady r' [0, 2] none ∧
      Expired twoTimerQueue q' 0 [3] (fun _ => [0, 1]) [0] := by
  have hready : Path some twoTimerQueue.nextReady (some 2) [2] none := ⟨rfl, rfl⟩
  obtain ⟨fuel₀, hall⟩ := timeoutProcess_expires twoTimerQueue_rep
    (fun _ _ => by simp [NoOverflow, twoTimerQueue]) hready (by simp)
  refine ⟨fuel₀, fun fuel hfuel => ?_⟩
  obtain ⟨q', r', fired, hrun, hpath, hexp⟩ := hall fuel hfuel
  have hmem : ∀ ev, ev ∈ fired ↔ ev ∈ [0] := by
    intro ev
    rw [hexp.mem_iff, List.mem_singleton]
    constructor
    · rintro ⟨⟨t, -, hev⟩, hlt⟩
      rcases List.mem_pair.mp hev with rfl | rfl
      · rfl
      · simp [twoTimerQueue, minTimeout] at hlt
    · rintro rfl
      exact ⟨⟨3, by simp, by simp⟩, by simp [twoTimerQueue, minTimeout]⟩
  have hone : fired = [0] :=
    List.perm_singleton.mp ((List.perm_ext_iff_of_nodup hexp.nodup (by simp)).mpr hmem)
  subst hone
  exact ⟨q', r', hrun, hpath, hexp⟩

end LuaSys.Event
