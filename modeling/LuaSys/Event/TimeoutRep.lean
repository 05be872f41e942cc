import LuaSys.Event.Timeout
import Mathlib.Tactic.Linarith

/-!
# The representation of the timeout queues

Which headers are linked, which events each of them holds, and in which order.  Each
of `timeout_reset`, `timeout_del` and `timeout_add` keeps the representation; the
lemmas say which list changes and how.

## Main definitions

* `TimeoutRep timely q latest tqs evs` — the headers `tqs` and the events `evs t` of each,
  well linked, sorted by deadline, and found by the map.

## Main results

* `TimeoutRep.replace` — the rule for an operation on the events of one queue.
* `timeoutReset_spec`, `timeoutDel_spec_of_ne`, `timeoutDel_spec_of_alone`,
  `timeoutAdd_spec_of_found`, `timeoutAdd_spec_of_new` — the operations.
-/

namespace LuaSys.Event

open LuaSys.Lib

/-- The timeout queues `tqs` with their events `evs`, when `latest` is the latest
time the operations have seen.  The order of the deadlines is promised as long as the
operations are `timely`: their times have not gone back, and no deadline has
overflowed. -/
structure TimeoutRep (timely : Prop) (q : Evq) (latest : ℤ) (tqs : List ℕ) (evs : ℕ → List ℕ) : Prop where
  /-- The headers form a doubly linked list. -/
  queues : ∃ tail, DList q.tqNext q.tqPrev q.tqHead tail tqs
  /-- No two of them have the same timeout value. -/
  msec_inj : ∀ t ∈ tqs, ∀ t' ∈ tqs, q.msec t = q.msec t' → t = t'
  /-- None of them is empty. -/
  nonempty : ∀ t ∈ tqs, evs t ≠ []
  /-- The events of each form a doubly linked list. -/
  lists : ∀ t ∈ tqs, DList q.next q.prev (q.evHead t) (q.evTail t) (evs t)
  /-- The field `tq` of an event says where it is linked. -/
  tq_iff : ∀ ev t, q.tq ev = some t ↔ t ∈ tqs ∧ ev ∈ evs t
  /-- The events of a queue are sorted by deadline. -/
  sorted : timely → ∀ t ∈ tqs, (evs t).Pairwise fun a b => q.timeoutAt a ≤ q.timeoutAt b
  /-- No deadline is later than one that would be set now. -/
  deadline_le : timely → ∀ t ∈ tqs, ∀ ev ∈ evs t, q.timeoutAt ev ≤ latest + q.msec t
  /-- The map finds exactly the linked queues. -/
  map_iff : q.tqMapFn = true → ∀ m t, q.tqMap m = some t ↔ t ∈ tqs ∧ q.msec t = m
  /-- Without a map the queues are sorted by their timeout value. -/
  list_sorted : q.tqMapFn = false → tqs.Pairwise fun a b => q.msec a < q.msec b

/-- The links between the headers, their values and the map are the same. -/
structure SameQueues (q q' : Evq) : Prop where
  tqNext : q'.tqNext = q.tqNext
  tqPrev : q'.tqPrev = q.tqPrev
  tqHead : q'.tqHead = q.tqHead
  msec : q'.msec = q.msec
  tqMapFn : q'.tqMapFn = q.tqMapFn
  tqMap : q'.tqMap = q.tqMap

/-- The fields that the timeouts do not use are the same. -/
structure SameSlots (q q' : Evq) : Prop where
  nextReady : q'.nextReady = q.nextReady
  evFree : q'.evFree = q.evFree
  flags : q'.flags = q.flags
  registered : q'.registered = q.registered
  evReady : q'.evReady = q.evReady
  now : q'.now = q.now

namespace TimeoutRep

variable {timely : Prop} {q q' : Evq} {latest now : ℤ} {tqs : List ℕ} {evs : ℕ → List ℕ} {t ev : ℕ}

/-- Later times keep the invariant. -/
theorem mono (h : TimeoutRep timely q latest tqs evs) (hle : timely → latest ≤ now) : TimeoutRep timely q now tqs evs :=
  { h with
    deadline_le := fun ht t htq ev hev =>
      le_trans (h.deadline_le ht t htq ev hev) (by linarith [hle ht]) }

theorem mem_of_tq (h : TimeoutRep timely q latest tqs evs) (htq : q.tq ev = some t) :
    t ∈ tqs ∧ ev ∈ evs t := (h.tq_iff ev t).mp htq

theorem tqs_nodup (h : TimeoutRep timely q latest tqs evs) : tqs.Nodup :=
  h.queues.elim fun _ hl => hl.nodup

/-- An operation that changes the events of one queue only. -/
theorem replace (h : TimeoutRep timely q latest tqs evs) (hle : timely → latest ≤ now) (ht : t ∈ tqs)
    {l : List ℕ} (hl : l ≠ []) (hq : SameQueues q q')
    (hlist : DList q'.next q'.prev (q'.evHead t) (q'.evTail t) l)
    (hends : ∀ t', t' ≠ t → q'.evHead t' = q.evHead t' ∧ q'.evTail t' = q.evTail t')
    (hother : ∀ ev, q.tq ev ≠ some t → ev ∉ l →
      q'.next ev = q.next ev ∧ q'.prev ev = q.prev ev ∧ q'.timeoutAt ev = q.timeoutAt ev)
    (hnew : ∀ ev ∈ l, q.tq ev = some t ∨ q.tq ev = none)
    (htq : ∀ ev t', q'.tq ev = some t' ↔ if t' = t then ev ∈ l else q.tq ev = some t')
    (hsorted : timely → l.Pairwise fun a b => q'.timeoutAt a ≤ q'.timeoutAt b)
    (hdeadline : timely → ∀ ev ∈ l, q'.timeoutAt ev ≤ now + q.msec t) :
    TimeoutRep timely q' now tqs (Function.update evs t l) := by
  have hne : ∀ t' ∈ tqs, t' ≠ t → ∀ ev ∈ evs t', q.tq ev ≠ some t ∧ ev ∉ l := by
    intro t' ht' htt ev hev
    have hev' : q.tq ev = some t' := (h.tq_iff ev t').mpr ⟨ht', hev⟩
    refine ⟨fun heq => htt (Option.some.inj (hev'.symm.trans heq)), fun hmem => ?_⟩
    rcases hnew ev hmem with heq | heq
    · exact htt (Option.some.inj (hev'.symm.trans heq))
    · exact absurd (hev'.symm.trans heq) (by simp)
  refine ⟨?_, ?_, ?_, ?_, ?_, ?_, ?_, ?_, ?_⟩
  · rw [hq.tqNext, hq.tqPrev, hq.tqHead]
    exact h.queues
  · rw [hq.msec]
    exact h.msec_inj
  · intro t' ht'
    by_cases htt : t' = t
    · subst htt
      rwa [Function.update_self]
    · rw [Function.update_of_ne htt]
      exact h.nonempty t' ht'
  · intro t' ht'
    by_cases htt : t' = t
    · subst htt
      rwa [Function.update_self]
    · rw [Function.update_of_ne htt, (hends t' htt).1, (hends t' htt).2]
      refine (h.lists t' ht').congr (fun ev hev => ?_) fun ev hev => ?_
      · exact (hother ev (hne t' ht' htt ev hev).1 (hne t' ht' htt ev hev).2).1
      · exact (hother ev (hne t' ht' htt ev hev).1 (hne t' ht' htt ev hev).2).2.1
  · intro ev t'
    rw [htq]
    by_cases htt : t' = t
    · subst htt
      simp [ht]
    · rw [if_neg htt, Function.update_of_ne htt]
      exact h.tq_iff ev t'
  · intro htimely t' ht'
    by_cases htt : t' = t
    · subst htt
      rw [Function.update_self]
      exact hsorted htimely
    · rw [Function.update_of_ne htt]
      refine (h.sorted htimely t' ht').imp_of_mem fun {a b} ha hb hab => ?_
      rw [(hother a (hne t' ht' htt a ha).1 (hne t' ht' htt a ha).2).2.2,
        (hother b (hne t' ht' htt b hb).1 (hne t' ht' htt b hb).2).2.2]
      exact hab
  · intro htimely t' ht' ev hev
    rw [hq.msec]
    by_cases htt : t' = t
    · subst htt
      rw [Function.update_self] at hev
      exact hdeadline htimely ev hev
    · rw [Function.update_of_ne htt] at hev
      rw [(hother ev (hne t' ht' htt ev hev).1 (hne t' ht' htt ev hev).2).2.2]
      exact le_trans (h.deadline_le htimely t' ht' ev hev) (by linarith [hle htimely])
  · rw [hq.tqMapFn, hq.tqMap, hq.msec]
    exact h.map_iff
  · rw [hq.tqMapFn, hq.msec]
    exact h.list_sorted

end TimeoutRep

/-! ## Resetting a timeout -/

section Reset

variable {timely : Prop} {q : Evq} {latest now : ℤ} {tqs : List ℕ} {evs : ℕ → List ℕ} {t ev b d : ℕ}

/-- The assignments of `timeout_reset` for an event that is not the last one. -/
theorem timeoutReset_of_next (htq : q.tq ev = some t) (hnext : q.next ev = some b)
    (htail : q.evTail t = some d) :
    timeoutReset q ev now = some
      { q with
        timeoutAt := Function.update q.timeoutAt ev (msecAdd now (q.msec t))
        next := Function.update (Function.update (assign q.next (q.prev ev) (some b)) ev none) d
          (some ev)
        prev := Function.update (Function.update q.prev b (q.prev ev)) ev (some d)
        evHead := if q.prev ev = none then Function.update q.evHead t (some b) else q.evHead
        evTail := Function.update q.evTail t (some ev) } := by
  cases hprev : q.prev ev <;> simp [timeoutReset, htq, hnext, htail, hprev]

theorem timeoutReset_of_last (htq : q.tq ev = some t) (hnext : q.next ev = none) :
    timeoutReset q ev now =
      some { q with timeoutAt := Function.update q.timeoutAt ev (msecAdd now (q.msec t)) } := by
  simp [timeoutReset, htq, hnext]

/-- The deadlines of a queue stay sorted when an event is removed and one with the
latest deadline is put behind. -/
theorem pairwise_append_latest {l : List ℕ} {f : ℕ → ℤ} {v : ℤ}
    (hl : l.Pairwise fun a b => f a ≤ f b) (hev : ev ∉ l) (hle : ∀ a ∈ l, f a ≤ v) :
    (l ++ [ev]).Pairwise fun a b =>
      Function.update f ev v a ≤ Function.update f ev v b := by
  have hf : ∀ a ∈ l, Function.update f ev v a = f a := fun a ha =>
    Function.update_of_ne (fun heq : a = ev => hev (heq ▸ ha)) _ _
  rw [List.pairwise_append]
  refine ⟨hl.imp_of_mem fun {a b} ha hb hab => ?_, List.pairwise_singleton _ _, ?_⟩
  · rw [hf a ha, hf b hb]
    exact hab
  · intro a ha b hb
    rw [List.mem_singleton.mp hb, hf a ha, Function.update_self]
    exact hle a ha

/-- The list of the queue of an event, cut at the event. -/
theorem TimeoutRep.split (h : TimeoutRep timely q latest tqs evs) (htq : q.tq ev = some t) :
    ∃ l₁ l₂, evs t = l₁ ++ ev :: l₂ ∧ ev ∉ l₁ ++ l₂ ∧
      (timely → (l₁ ++ l₂).Pairwise fun a b => q.timeoutAt a ≤ q.timeoutAt b) := by
  obtain ⟨ht, hev⟩ := h.mem_of_tq htq
  obtain ⟨l₁, l₂, hl⟩ := List.append_of_mem hev
  have hnd := (h.lists t ht).nodup
  rw [hl] at hnd
  refine ⟨l₁, l₂, hl, (List.nodup_cons.mp (List.nodup_middle.mp hnd)).1, fun htimely => ?_⟩
  have hsorted := h.sorted htimely t ht
  rw [hl] at hsorted
  exact hsorted.sublist ((List.Sublist.refl l₁).append (List.sublist_cons_self ev l₂))

theorem TimeoutRep.erase_eq (h : TimeoutRep timely q latest tqs evs) (htq : q.tq ev = some t)
    {l₁ l₂ : List ℕ} (hl : evs t = l₁ ++ ev :: l₂) : (evs t).erase ev = l₁ ++ l₂ := by
  have hnd := (h.lists t (h.mem_of_tq htq).1).nodup
  rw [hl] at hnd ⊢
  have hnot : ev ∉ l₁ := fun hmem =>
    (List.nodup_cons.mp (List.nodup_middle.mp hnd)).1 (List.mem_append_left _ hmem)
  rw [List.erase_append_right _ hnot, List.erase_cons_head]

/-- `timeout_reset` keeps the invariant: the event becomes the last one of its queue. -/
theorem timeoutReset_spec (h : TimeoutRep timely q latest tqs evs) (hle : timely → latest ≤ now)
    (htq : q.tq ev = some t) (hov : timely → NoOverflow now (q.msec t)) :
    ∃ q', timeoutReset q ev now = some q' ∧ SameSlots q q' ∧ q'.tq = q.tq ∧ q'.msec = q.msec ∧
      q'.timeoutAt = Function.update q.timeoutAt ev (msecAdd now (q.msec t)) ∧
      TimeoutRep timely q' now tqs (Function.update evs t ((evs t).erase ev ++ [ev])) := by
  obtain ⟨ht, hev⟩ := h.mem_of_tq htq
  obtain ⟨l₁, l₂, hl, hevn, hsort⟩ := h.split htq
  have hlist := h.lists t ht
  rw [hl] at hlist
  rw [h.erase_eq htq hl]
  have hmem : ∀ a, a ∈ l₁ ++ l₂ ++ [ev] ↔ a ∈ evs t := by
    intro a
    rw [hl, List.mem_append, List.mem_singleton, List.perm_middle.mem_iff, List.mem_cons, or_comm]
  have htq' : ∀ a t', q.tq a = some t' ↔
      if t' = t then a ∈ l₁ ++ l₂ ++ [ev] else q.tq a = some t' := by
    intro a t'
    by_cases htt : t' = t
    · rw [if_pos htt, htt, hmem, h.tq_iff a t, and_iff_right ht]
    · rw [if_neg htt]
  have hkeep : timely → ∀ a ∈ l₁ ++ l₂, q.timeoutAt a ≤ msecAdd now (q.msec t) := by
    intro htimely a ha
    rw [msecAdd_eq (hov htimely)]
    exact (h.mono hle).deadline_le htimely t ht a ((hmem a).mp (List.mem_append_left _ ha))
  have hdead : timely → ∀ a ∈ l₁ ++ l₂ ++ [ev],
      Function.update q.timeoutAt ev (msecAdd now (q.msec t)) a ≤ now + q.msec t := by
    intro htimely a ha
    rw [← msecAdd_eq (hov htimely)]
    by_cases hae : a = ev
    · rw [hae, Function.update_self]
    · rw [Function.update_of_ne hae]
      exact hkeep htimely a ((List.mem_append.mp ha).resolve_right (by simpa using hae))
  have hnew : ∀ a ∈ l₁ ++ l₂ ++ [ev], q.tq a = some t ∨ q.tq a = none := fun a ha =>
    Or.inl ((h.tq_iff a t).mpr ⟨ht, (hmem a).mp ha⟩)
  have hout : ∀ a, a ∉ l₁ ++ l₂ ++ [ev] → a ≠ ev ∧ a ∉ evs t := fun a ha =>
    ⟨fun heq => ha (by simp [heq]), fun hmem' => ha ((hmem a).mpr hmem')⟩
  cases l₂ with
  | nil =>
      refine ⟨_, timeoutReset_of_last htq hlist.next_eq,
        ⟨rfl, rfl, rfl, rfl, rfl, rfl⟩, rfl, rfl, rfl,
        h.replace hle ht (by simp) ⟨rfl, rfl, rfl, rfl, rfl, rfl⟩ (by simpa using hlist)
          (fun _ _ => ⟨rfl, rfl⟩) ?_ hnew htq'
          (fun htimely => pairwise_append_latest (hsort htimely) hevn (hkeep htimely)) hdead⟩
      intro a _ ha
      exact ⟨rfl, rfl, Function.update_of_ne (hout a ha).1 _ _⟩
  | cons b l₂ =>
      obtain ⟨d, htail⟩ : ∃ d, q.evTail t = some d := by
        rw [hlist.tail_eq]
        exact Option.isSome_iff_exists.mp (by simp)
      rw [htail] at hlist
      have hmoved := hlist.moveLast
      have hb : q.tq b = some t := (h.tq_iff b t).mpr ⟨ht, by simp [hl]⟩
      have hdt : q.tq d = some t := by
        refine (h.tq_iff d t).mpr ⟨ht, ?_⟩
        rw [hl]
        exact List.mem_of_mem_getLast? hlist.tail_eq.symm
      have hpt : ∀ c, q.prev ev = some c → q.tq c = some t := by
        intro c hc
        rw [hlist.prev_eq] at hc
        refine (h.tq_iff c t).mpr ⟨ht, ?_⟩
        rw [hl]
        exact List.mem_append_left _ (List.mem_of_mem_getLast? hc)
      refine ⟨_, timeoutReset_of_next htq hlist.next_eq htail,
        ⟨rfl, rfl, rfl, rfl, rfl, rfl⟩, rfl, rfl, rfl,
        h.replace hle ht (by simp) ⟨rfl, rfl, rfl, rfl, rfl, rfl⟩ ?_ ?_ ?_ hnew htq'
          (fun htimely => pairwise_append_latest (hsort htimely) hevn (hkeep htimely)) hdead⟩
      · have hhead : (if q.prev ev = none then Function.update q.evHead t (some b) else q.evHead) t =
            if q.prev ev = none then some b else q.evHead t := by
          split <;> simp
        simpa only [hhead, Function.update_self] using hmoved
      · intro t' htt
        refine ⟨?_, Function.update_of_ne htt _ _⟩
        simp only
        split
        · exact Function.update_of_ne htt _ _
        · rfl
      · intro a hat ha
        have hne : ∀ c, q.tq c = some t → a ≠ c := fun c hc heq => hat (heq ▸ hc)
        refine ⟨?_, ?_, Function.update_of_ne (hout a ha).1 _ _⟩
        · simp only
          rw [Function.update_of_ne (hne d hdt), Function.update_of_ne (hout a ha).1]
          cases hc : q.prev ev with
          | none => rfl
          | some c => exact Function.update_of_ne (hne c (hpt c hc)) _ _
        · simp only
          rw [Function.update_of_ne (hout a ha).1, Function.update_of_ne (hne b hb)]

end Reset

/-! ## Deleting a timeout -/

section Del

variable {timely : Prop} {q : Evq} {latest now : ℤ} {tqs : List ℕ} {evs : ℕ → List ℕ} {t ev : ℕ}

/-- The assignments of `timeout_del` for an event that is not alone. -/
theorem timeoutDel_of_ne (htq : q.tq ev = some t) (hne : ¬(q.prev ev = none ∧ q.next ev = none)) :
    timeoutDel q ev =
      { q with
        tq := Function.update q.tq ev none
        next := assign q.next (q.prev ev) (q.next ev)
        prev := assign q.prev (q.next ev) (q.prev ev)
        evHead := if q.prev ev = none then Function.update q.evHead t (q.next ev) else q.evHead
        evTail := if q.next ev = none then Function.update q.evTail t (q.prev ev) else q.evTail } := by
  cases hprev : q.prev ev <;> cases hnext : q.next ev <;> simp_all [timeoutDel]

/-- The assignments for the last event of a queue. -/
theorem timeoutDel_of_alone (htq : q.tq ev = some t) (hprev : q.prev ev = none)
    (hnext : q.next ev = none) :
    timeoutDel q ev =
      { q with
        tq := Function.update q.tq ev none
        tqNext := assign q.tqNext (q.tqPrev t) (q.tqNext t)
        tqPrev := assign q.tqPrev (q.tqNext t) (q.tqPrev t)
        tqHead := if q.tqPrev t = none then q.tqNext t else q.tqHead
        nextReady := Function.update q.nextReady t q.evFree
        evFree := some t
        tqMap := if q.tqMapFn then Function.update q.tqMap (q.msec t) none else q.tqMap } := by
  cases hp : q.tqPrev t <;> cases hn : q.tqNext t <;> cases hm : q.tqMapFn <;>
    simp [timeoutDel, timeoutQueueFree, levqTimeoutMap, htq, hprev, hnext, hp, hn, hm]

/-- `timeout_del` of an event that is not alone in its queue. -/
theorem timeoutDel_spec_of_ne (h : TimeoutRep timely q latest tqs evs) (htq : q.tq ev = some t)
    (hne : ¬(q.prev ev = none ∧ q.next ev = none)) :
    SameSlots q (timeoutDel q ev) ∧
      TimeoutRep timely (timeoutDel q ev) latest tqs
        (Function.update evs t ((evs t).erase ev)) := by
  obtain ⟨ht, hev⟩ := h.mem_of_tq htq
  obtain ⟨l₁, l₂, hl, hevn, hsort⟩ := h.split htq
  have hlist := h.lists t ht
  rw [hl] at hlist
  have hin : ∀ a ∈ l₁ ++ l₂, a ∈ evs t ∧ a ≠ ev := by
    intro a ha
    refine ⟨?_, fun heq => hevn (heq ▸ ha)⟩
    rw [hl]
    exact List.perm_middle.mem_iff.mpr (List.mem_cons_of_mem ev ha)
  rw [timeoutDel_of_ne htq hne, h.erase_eq htq hl]
  refine ⟨⟨rfl, rfl, rfl, rfl, rfl, rfl⟩, h.replace (fun _ => le_rfl) ht ?_
    ⟨rfl, rfl, rfl, rfl, rfl, rfl⟩ ?_ ?_ ?_ ?_ ?_ hsort ?_⟩
  · intro hnil
    obtain ⟨rfl, rfl⟩ := List.append_eq_nil_iff.mp hnil
    exact hne ⟨hlist.prev_eq, hlist.next_eq⟩
  · have herase := hlist.erase
    have hhead : (if q.prev ev = none then Function.update q.evHead t (q.next ev) else q.evHead) t =
        if q.prev ev = none then q.next ev else q.evHead t := by
      split <;> simp
    have htail : (if q.next ev = none then Function.update q.evTail t (q.prev ev) else q.evTail) t =
        if q.next ev = none then q.prev ev else q.evTail t := by
      split <;> simp
    simpa only [hhead, htail] using herase
  · intro t' htt
    constructor
    · simp only
      split
      · exact Function.update_of_ne htt _ _
      · rfl
    · simp only
      split
      · exact Function.update_of_ne htt _ _
      · rfl
  · intro a hat _
    have hne' : ∀ c, c ∈ evs t → a ≠ c := fun c hc heq =>
      hat ((h.tq_iff a t).mpr ⟨ht, heq ▸ hc⟩)
    refine ⟨?_, ?_, rfl⟩
    · cases hc : q.prev ev with
      | none => rfl
      | some c =>
          refine Function.update_of_ne (hne' c ?_) _ _
          rw [hlist.prev_eq] at hc
          rw [hl]
          exact List.mem_append_left _ (List.mem_of_mem_getLast? hc)
    · cases hc : q.next ev with
      | none => rfl
      | some c =>
          refine Function.update_of_ne (hne' c ?_) _ _
          rw [hlist.next_eq] at hc
          rw [hl]
          exact List.mem_append_right _ (List.mem_cons_of_mem _ (List.mem_of_mem_head? hc))
  · exact fun a ha => Or.inl ((h.tq_iff a t).mpr ⟨ht, (hin a ha).1⟩)
  · intro a t'
    by_cases hae : a = ev
    · subst hae
      have hnot : a ∉ l₁ ++ l₂ := hevn
      by_cases htt : t' = t
      · simp [htt, hnot]
      · simp [htt, htq, Ne.symm htt]
    · simp only [Function.update_of_ne hae]
      by_cases htt : t' = t
      · rw [if_pos htt, htt, h.tq_iff a t, and_iff_right ht, hl]
        simp [hae]
      · rw [if_neg htt]
  · exact fun htimely a ha => h.deadline_le htimely t ht a (hin a ha).1

/-- `timeout_del` of the last event of a queue. -/
theorem timeoutDel_spec_of_alone (h : TimeoutRep timely q latest tqs evs) (htq : q.tq ev = some t)
    (hprev : q.prev ev = none) (hnext : q.next ev = none) :
    evs t = [ev] ∧ ∃ m₁ m₂, tqs = m₁ ++ t :: m₂ ∧
      TimeoutRep timely (timeoutDel q ev) latest (m₁ ++ m₂) evs := by
  obtain ⟨ht, hev⟩ := h.mem_of_tq htq
  obtain ⟨l₁, l₂, hl, hevn, -⟩ := h.split htq
  have hlist := h.lists t ht
  rw [hl] at hlist
  have halone : evs t = [ev] := by
    have h₁ : l₁ = [] := List.getLast?_eq_none_iff.mp (hlist.prev_eq.symm.trans hprev)
    have h₂ : l₂ = [] := List.head?_eq_none_iff.mp (hlist.next_eq.symm.trans hnext)
    rw [hl, h₁, h₂]
    rfl
  obtain ⟨m₁, m₂, hm⟩ := List.append_of_mem ht
  obtain ⟨tail, hqs⟩ := h.queues
  have hnd := h.tqs_nodup
  rw [hm] at hqs hnd
  have htn : t ∉ m₁ ++ m₂ := (List.nodup_cons.mp (List.nodup_middle.mp hnd)).1
  have hin : ∀ t' ∈ m₁ ++ m₂, t' ∈ tqs ∧ t' ≠ t := by
    intro t' ht'
    refine ⟨?_, fun heq => htn (heq ▸ ht')⟩
    rw [hm]
    exact List.perm_middle.mem_iff.mpr (List.mem_cons_of_mem t ht')
  have hmem : ∀ t', t' ∈ tqs → t' ≠ t → t' ∈ m₁ ++ m₂ := by
    intro t' ht' hne
    simp only [hm, List.mem_append, List.mem_cons, hne, false_or] at ht' ⊢
    exact ht'
  rw [timeoutDel_of_alone htq hprev hnext]
  refine ⟨halone, m₁, m₂, hm, ⟨_, hqs.erase⟩, ?_, ?_, ?_, ?_, ?_, ?_, ?_, ?_⟩
  · exact fun a ha b hb => h.msec_inj a (hin a ha).1 b (hin b hb).1
  · exact fun a ha => h.nonempty a (hin a ha).1
  · exact fun a ha => h.lists a (hin a ha).1
  · intro a t'
    by_cases hae : a = ev
    · subst hae
      refine ⟨fun heq => absurd heq (by simp), fun hmem' => ?_⟩
      have heq := (h.tq_iff a t').mpr ⟨(hin t' hmem'.1).1, hmem'.2⟩
      exact absurd (Option.some.inj (heq.symm.trans htq)) (hin t' hmem'.1).2
    · simp only [Function.update_of_ne hae]
      rw [h.tq_iff a t']
      refine ⟨fun hmem' => ⟨hmem t' hmem'.1 ?_, hmem'.2⟩, fun hmem' => ⟨(hin t' hmem'.1).1, hmem'.2⟩⟩
      rintro rfl
      rw [halone] at hmem'
      exact hae (List.mem_singleton.mp hmem'.2)
  · exact fun htimely a ha => h.sorted htimely a (hin a ha).1
  · exact fun htimely a ha => h.deadline_le htimely a (hin a ha).1
  · intro hfn m t'
    simp only [if_pos hfn]
    by_cases hmt : m = q.msec t
    · subst hmt
      refine ⟨fun heq => absurd heq (by simp), fun hmem' => ?_⟩
      exact absurd (h.msec_inj t' (hin t' hmem'.1).1 t ht hmem'.2) (hin t' hmem'.1).2
    · rw [Function.update_of_ne hmt, h.map_iff hfn m t']
      refine ⟨fun hmem' => ⟨hmem t' hmem'.1 ?_, hmem'.2⟩, fun hmem' => ⟨(hin t' hmem'.1).1, hmem'.2⟩⟩
      rintro rfl
      exact hmt hmem'.2.symm
  · intro hfn
    have hsorted := h.list_sorted hfn
    rw [hm] at hsorted
    exact hsorted.sublist ((List.Sublist.refl m₁).append (List.sublist_cons_self t m₂))

end Del

/-! ## Adding a timeout -/

section Add

variable {timely : Prop} {q : Evq} {latest now m : ℤ} {tqs : List ℕ} {evs : ℕ → List ℕ} {t ev n : ℕ}

/-- The search in the sorted list from a place before which all values are smaller. -/
theorem timeoutSearch_spec {tqs' m₁ m₂ : List ℕ} {tail : Option ℕ} {fuel : ℕ}
    (hl : DList q.tqNext q.tqPrev q.tqHead tail tqs') (hsplit : tqs' = m₁ ++ m₂)
    (hlt : ∀ a ∈ m₁, q.msec a < m) (hfuel : m₂.length < fuel) :
    ∃ n₁ n₂, tqs' = n₁ ++ n₂ ∧ (∀ a ∈ n₁, q.msec a < m) ∧
      (∀ b, n₂.head? = some b → m ≤ q.msec b) ∧
      timeoutSearch q m fuel m₁.getLast? m₂.head? = some (n₁.getLast?, n₂.head?) := by
  induction fuel generalizing m₁ m₂ with
  | zero => omega
  | succ fuel ih =>
      cases m₂ with
      | nil => exact ⟨m₁, [], hsplit, hlt, by simp, by simp [timeoutSearch]⟩
      | cons b m₂ =>
          by_cases hb : q.msec b < m
          · have hnext : q.tqNext b = m₂.head? := DList.next_eq (hsplit ▸ hl)
            obtain ⟨n₁, n₂, hn, hn₁, hn₂, hs⟩ := @ih (m₁ ++ [b]) m₂ (by simp [hsplit])
              (by simpa [or_imp, forall_and] using ⟨hlt, hb⟩) (by simpa using hfuel)
            refine ⟨n₁, n₂, hn, hn₁, hn₂, ?_⟩
            simpa [timeoutSearch, hb, hnext] using hs
          · exact ⟨m₁, b :: m₂, hsplit, hlt, by simpa using hb, by simp [timeoutSearch, hb]⟩

/-- What the search in `timeout_add` finds: the queue with the wanted value, or the
place for it. -/
theorem timeoutFind_spec (h : TimeoutRep timely q latest tqs evs) {fuel : ℕ} (hfuel : tqs.length < fuel) :
    (∃ p t, timeoutFind fuel q m = some (p, some t) ∧ t ∈ tqs ∧ q.msec t = m) ∨
    ∃ m₁ m₂, tqs = m₁ ++ m₂ ∧ timeoutFind fuel q m = some (m₁.getLast?, m₂.head?) ∧
      (∀ a ∈ tqs, q.msec a ≠ m) ∧
      (q.tqMapFn = false → (∀ a ∈ m₁, q.msec a < m) ∧ ∀ b ∈ m₂, m < q.msec b) := by
  obtain ⟨tail, hqs⟩ := h.queues
  cases hfn : q.tqMapFn with
  | true =>
      have hmap := h.map_iff hfn
      cases hfound : q.tqMap m with
      | some t =>
          left
          exact ⟨some t, t, by simp [timeoutFind, hfn, levqTimeoutMap, hfound], (hmap m t).mp hfound⟩
      | none =>
          right
          refine ⟨[], tqs, rfl, ?_, ?_, by simp⟩
          · simp [timeoutFind, hfn, levqTimeoutMap, hfound, hqs.head_eq]
          · intro a ha heq
            exact absurd (hfound.symm.trans ((hmap m a).mpr ⟨ha, heq⟩)) (by simp)
  | false =>
      have hsorted := h.list_sorted hfn
      obtain ⟨n₁, n₂, hn, hn₁, hn₂, hs⟩ :=
        @timeoutSearch_spec q m tqs [] tqs tail fuel hqs rfl (by simp) hfuel
      have hfind : timeoutFind fuel q m = some (n₁.getLast?, n₂.head?) := by
        simpa [timeoutFind, hfn, hqs.head_eq] using hs
      cases n₂ with
      | nil =>
          right
          refine ⟨n₁, [], hn, hfind, fun a ha => ?_, fun _ => ⟨hn₁, by simp⟩⟩
          exact ne_of_lt (hn₁ a (by simpa [hn] using ha))
      | cons b n₂ =>
          by_cases hb : q.msec b = m
          · exact Or.inl ⟨n₁.getLast?, b, by simpa using hfind, by simp [hn], hb⟩
          · right
            have hbm : m < q.msec b := lt_of_le_of_ne (hn₂ b rfl) (Ne.symm hb)
            have hgt : ∀ c ∈ b :: n₂, m < q.msec c := by
              intro c hc
              rw [hn, List.pairwise_append, List.pairwise_cons] at hsorted
              rcases List.mem_cons.mp hc with rfl | hc
              · exact hbm
              · exact lt_trans hbm (hsorted.2.1.1 c hc)
            refine ⟨n₁, b :: n₂, hn, hfind, fun a ha => ?_, fun _ => ⟨hn₁, hgt⟩⟩
            rw [hn, List.mem_append] at ha
            rcases ha with ha | ha
            · exact ne_of_lt (hn₁ a ha)
            · exact ne_of_gt (hgt a ha)

/-- The assignments of `timeout_add` for a queue that exists. -/
theorem timeoutAdd_of_found {fuel : ℕ} {p : Option ℕ}
    (hfind : timeoutFind fuel q m = some (p, some t)) (hm : q.msec t = m) :
    timeoutAdd fuel q ev m now = some
      ({ q with
          prev := Function.update q.prev ev (q.evTail t)
          next := Function.update (assign q.next (q.evTail t) (some ev)) ev none
          evHead := if q.evTail t = none then Function.update q.evHead t (some ev) else q.evHead
          evTail := Function.update q.evTail t (some ev)
          tq := Function.update q.tq ev (some t)
          timeoutAt := Function.update q.timeoutAt ev (msecAdd now m) }, 0) := by
  cases htail : q.evTail t <;>
    simp [timeoutAdd, hfind, hm, htail, timeoutLinkTail, Option.filter]

/-- `timeout_add` to a queue that exists keeps the invariant. -/
theorem timeoutAdd_spec_of_found (h : TimeoutRep timely q latest tqs evs) (hle : timely → latest ≤ now)
    (htq : q.tq ev = none) (hov : timely → NoOverflow now m) {fuel : ℕ} {p : Option ℕ}
    (hfind : timeoutFind fuel q m = some (p, some t)) (ht : t ∈ tqs) (hm : q.msec t = m) :
    ∃ q', timeoutAdd fuel q ev m now = some (q', 0) ∧ SameSlots q q' ∧
      TimeoutRep timely q' now tqs (Function.update evs t (evs t ++ [ev])) := by
  subst hm
  have hlist := h.lists t ht
  have hevn : ev ∉ evs t := fun hev =>
    absurd (htq.symm.trans ((h.tq_iff ev t).mpr ⟨ht, hev⟩)) (by simp)
  have hkeep : timely → ∀ a ∈ evs t, q.timeoutAt a ≤ msecAdd now (q.msec t) := by
    intro htimely
    rw [msecAdd_eq (hov htimely)]
    exact (h.mono hle).deadline_le htimely t ht
  refine ⟨_, timeoutAdd_of_found hfind rfl, ⟨rfl, rfl, rfl, rfl, rfl, rfl⟩,
    h.replace hle ht (by simp) ⟨rfl, rfl, rfl, rfl, rfl, rfl⟩ ?_ ?_ ?_ ?_ ?_
      (fun htimely => pairwise_append_latest (h.sorted htimely t ht) hevn (hkeep htimely)) ?_⟩
  · have happ := hlist.append hevn
    have hhead : (if q.evTail t = none then Function.update q.evHead t (some ev) else q.evHead) t =
        if q.evTail t = none then some ev else q.evHead t := by
      split <;> simp
    simpa only [hhead, Function.update_self] using happ
  · intro t' htt
    refine ⟨?_, Function.update_of_ne htt _ _⟩
    simp only
    split
    · exact Function.update_of_ne htt _ _
    · rfl
  · intro a hat ha
    have hae : a ≠ ev := fun heq => ha (by simp [heq])
    refine ⟨?_, Function.update_of_ne hae _ _, Function.update_of_ne hae _ _⟩
    simp only [Function.update_of_ne hae]
    cases hc : q.evTail t with
    | none => rfl
    | some c =>
        refine Function.update_of_ne (fun heq => hat ?_) _ _
        rw [hlist.tail_eq] at hc
        exact (h.tq_iff a t).mpr ⟨ht, heq ▸ List.mem_of_mem_getLast? hc⟩
  · intro a ha
    rcases List.mem_append.mp ha with ha | ha
    · exact Or.inl ((h.tq_iff a t).mpr ⟨ht, ha⟩)
    · exact Or.inr (List.mem_singleton.mp ha ▸ htq)
  · intro a t'
    by_cases hae : a = ev
    · subst hae
      by_cases htt : t' = t
      · simp [htt]
      · simp [htt, htq, Ne.symm htt]
    · simp only [Function.update_of_ne hae]
      by_cases htt : t' = t
      · rw [if_pos htt, htt, h.tq_iff a t, and_iff_right ht]
        simp [hae]
      · rw [if_neg htt]
  · intro htimely a ha
    rw [← msecAdd_eq (hov htimely)]
    simp only
    by_cases hae : a = ev
    · rw [hae, Function.update_self]
    · rw [Function.update_of_ne hae]
      exact hkeep htimely a ((List.mem_append.mp ha).resolve_right (by simpa using hae))

/-- The queue behind the place that the search found has another value. -/
theorem head_msec_ne {m₁ m₂ : List ℕ} (hsplit : tqs = m₁ ++ m₂) (hne : ∀ a ∈ tqs, q.msec a ≠ m) :
    ∀ t, m₂.head? = some t → q.msec t ≠ m := by
  intro t ht
  refine hne t ?_
  rw [hsplit]
  exact List.mem_append_right _ (List.mem_of_mem_head? ht)

theorem filter_msec_eq_none {o : Option ℕ} (ho : ∀ t, o = some t → q.msec t ≠ m) :
    o.filter (fun t => decide (q.msec t = m)) = none := by
  cases o with
  | none => rfl
  | some t => simp [Option.filter, ho t rfl]

/-- `timeout_add` without a free slot for a new queue. -/
theorem timeoutAdd_of_full {fuel : ℕ} {p o : Option ℕ} (hfind : timeoutFind fuel q m = some (p, o))
    (ho : ∀ t, o = some t → q.msec t ≠ m) (hfree : q.evFree = none) :
    timeoutAdd fuel q ev m now = some (q, -1) := by
  simp [timeoutAdd, hfind, filter_msec_eq_none ho, hfree]

/-- The assignments of `timeout_add` for a new queue. -/
theorem timeoutAdd_of_new {fuel : ℕ} {p o : Option ℕ} (hfind : timeoutFind fuel q m = some (p, o))
    (ho : ∀ t, o = some t → q.msec t ≠ m) (hfree : q.evFree = some n) :
    timeoutAdd fuel q ev m now = some
      ({ q with
          evFree := q.nextReady n
          tqNext := assign (Function.update q.tqNext n o) p (some n)
          tqPrev := Function.update (assign q.tqPrev o (some n)) n p
          tqHead := if p = none then some n else q.tqHead
          msec := Function.update q.msec n m
          evHead := Function.update q.evHead n (some ev)
          prev := Function.update q.prev ev none
          tqMap := if q.tqMapFn then Function.update q.tqMap m (some n) else q.tqMap
          next := Function.update q.next ev none
          evTail := Function.update q.evTail n (some ev)
          tq := Function.update q.tq ev (some n)
          timeoutAt := Function.update q.timeoutAt ev (msecAdd now m) }, 0) := by
  have hfilter := filter_msec_eq_none ho
  cases o <;> cases p <;> cases hfn : q.tqMapFn <;>
    simp [timeoutAdd, hfind, hfilter, hfree, timeoutQueueNew, timeoutLinkTail, levqTimeoutMap, hfn]

/-- A queue with a new period is the only one that has it. -/
theorem msec_inj_insert {msec : ℕ → ℤ} {l : List ℕ}
    (hinj : ∀ a ∈ tqs, ∀ b ∈ tqs, msec a = msec b → a = b) (hne : ∀ a ∈ tqs, msec a ≠ m)
    (hn : n ∉ tqs) (hmem : ∀ t', t' ∈ l ↔ t' = n ∨ t' ∈ tqs) :
    ∀ a ∈ l, ∀ b ∈ l, Function.update msec n m a = Function.update msec n m b → a = b := by
  have hnm : ∀ t' ∈ tqs, t' ≠ n := fun t' ht' heq => hn (heq ▸ ht')
  intro a ha b hb hab
  rcases (hmem a).mp ha with rfl | ha' <;> rcases (hmem b).mp hb with rfl | hb'
  · rfl
  · simp only [Function.update_self, Function.update_of_ne (hnm b hb')] at hab
    exact absurd hab.symm (hne b hb')
  · simp only [Function.update_self, Function.update_of_ne (hnm a ha')] at hab
    exact absurd hab (hne a ha')
  · simp only [Function.update_of_ne (hnm a ha'), Function.update_of_ne (hnm b hb')] at hab
    exact hinj a ha' b hb' hab

/-- The map with a queue of a new period. -/
theorem map_iff_insert {msec : ℕ → ℤ} {tqMap : ℤ → Option ℕ}
    (hmap : ∀ m' t', tqMap m' = some t' ↔ t' ∈ tqs ∧ msec t' = m') (hne : ∀ a ∈ tqs, msec a ≠ m)
    (hn : n ∉ tqs) (m' : ℤ) (t' : ℕ) : Function.update tqMap m (some n) m' = some t' ↔
      (t' = n ∨ t' ∈ tqs) ∧ Function.update msec n m t' = m' := by
  have hnm : ∀ t' ∈ tqs, t' ≠ n := fun t' ht' heq => hn (heq ▸ ht')
  by_cases hmm : m' = m
  · subst hmm
    simp only [Function.update_self, Option.some.injEq]
    constructor
    · rintro rfl
      simp
    · rintro ⟨rfl | ht', hms⟩
      · rfl
      · rw [Function.update_of_ne (hnm t' ht')] at hms
        exact absurd hms (hne t' ht')
  · rw [Function.update_of_ne hmm, hmap m' t']
    constructor
    · rintro ⟨ht', hms⟩
      exact ⟨Or.inr ht', by rwa [Function.update_of_ne (hnm t' ht')]⟩
    · rintro ⟨rfl | ht', hms⟩
      · exact absurd (hms.symm.trans (Function.update_self ..)) hmm
      · exact ⟨ht', by rwa [Function.update_of_ne (hnm t' ht')] at hms⟩

/-- The periods are still in their order with a queue at its place. -/
theorem pairwise_insert {msec : ℕ → ℤ} {m₁ m₂ : List ℕ} (hn : n ∉ m₁ ++ m₂)
    (hsorted : (m₁ ++ m₂).Pairwise fun a b => msec a < msec b) (hlt : ∀ a ∈ m₁, msec a < m)
    (hgt : ∀ b ∈ m₂, m < msec b) : (m₁ ++ n :: m₂).Pairwise fun a b =>
      Function.update msec n m a < Function.update msec n m b := by
  have hms : ∀ a ∈ m₁ ++ m₂, Function.update msec n m a = msec a := fun a ha =>
    Function.update_of_ne (fun heq : a = n => hn (heq ▸ ha)) _ _
  rw [List.pairwise_append] at hsorted ⊢
  obtain ⟨hs₁, hs₂, hcross⟩ := hsorted
  refine ⟨hs₁.imp_of_mem fun {a b} ha hb hab => ?_, List.pairwise_cons.mpr ⟨fun b hb => ?_,
    hs₂.imp_of_mem fun {a b} ha hb hab => ?_⟩, fun a ha b hb => ?_⟩
  · simp only [hms a (by simp [ha]), hms b (by simp [hb])]
    exact hab
  · simp only [Function.update_self, hms b (by simp [hb])]
    exact hgt b hb
  · simp only [hms a (by simp [ha]), hms b (by simp [hb])]
    exact hab
  · simp only [hms a (by simp [ha])]
    rcases List.mem_cons.mp hb with rfl | hb
    · rw [Function.update_self]
      exact hlt a ha
    · rw [hms b (by simp [hb])]
      exact hcross a ha b hb

/-- `timeout_add` with a new queue keeps the invariant. -/
theorem timeoutAdd_spec_of_new (h : TimeoutRep timely q latest tqs evs) (hle : timely → latest ≤ now)
    (htq : q.tq ev = none) (hov : timely → NoOverflow now m) {fuel : ℕ} {m₁ m₂ : List ℕ}
    (hsplit : tqs = m₁ ++ m₂) (hfind : timeoutFind fuel q m = some (m₁.getLast?, m₂.head?))
    (hne : ∀ a ∈ tqs, q.msec a ≠ m)
    (hlist : q.tqMapFn = false → (∀ a ∈ m₁, q.msec a < m) ∧ ∀ b ∈ m₂, m < q.msec b)
    (hfree : q.evFree = some n) (hn : n ∉ tqs) :
    ∃ q', timeoutAdd fuel q ev m now = some (q', 0) ∧ q'.evFree = q.nextReady n ∧
      q'.nextReady = q.nextReady ∧ q'.flags = q.flags ∧ q'.registered = q.registered ∧
      q'.evReady = q.evReady ∧ q'.now = q.now ∧
      TimeoutRep timely q' now (m₁ ++ n :: m₂) (Function.update evs n [ev]) := by
  have hnm : ∀ t' ∈ tqs, t' ≠ n := fun t' ht' heq => hn (heq ▸ ht')
  have hmem : ∀ t', t' ∈ m₁ ++ n :: m₂ ↔ t' = n ∨ t' ∈ tqs := by
    intro t'
    rw [hsplit, List.perm_middle.mem_iff, List.mem_cons]
  have hout : ∀ t' ∈ tqs, ∀ a ∈ evs t', a ≠ ev := by
    rintro t' ht' a ha rfl
    exact absurd (htq.symm.trans ((h.tq_iff a t').mpr ⟨ht', ha⟩)) (by simp)
  obtain ⟨tail, hqs⟩ := h.queues
  refine ⟨_, timeoutAdd_of_new hfind (head_msec_ne hsplit hne) hfree, rfl, rfl, rfl, rfl, rfl, rfl,
    ?_, ?_, ?_, ?_, ?_, ?_, ?_, ?_, ?_⟩
  · exact ⟨_, (hsplit ▸ hqs).insert (hsplit ▸ hn)⟩
  · exact msec_inj_insert h.msec_inj hne hn hmem
  · intro a ha
    rcases (hmem a).mp ha with rfl | ha'
    · simp
    · rw [Function.update_of_ne (hnm a ha')]
      exact h.nonempty a ha'
  · intro a ha
    rcases (hmem a).mp ha with rfl | ha'
    · simp [DList]
    · simp only [Function.update_of_ne (hnm a ha')]
      exact (h.lists a ha').congr
        (fun b hb => Function.update_of_ne (hout a ha' b hb) _ _)
        fun b hb => Function.update_of_ne (hout a ha' b hb) _ _
  · intro a t'
    rw [hmem t']
    by_cases htn : t' = n
    · subst htn
      by_cases hae : a = ev
      · simp [hae]
      · simp only [Function.update_of_ne hae, Function.update_self]
        rw [h.tq_iff a t']
        simp [hae, hn]
    · by_cases hae : a = ev
      · subst hae
        refine ⟨fun heq => absurd (Option.some.inj (by simpa using heq)) (Ne.symm htn), ?_⟩
        rw [Function.update_of_ne htn]
        rintro ⟨hor, ha⟩
        exact absurd rfl (hout t' (hor.resolve_left htn) a ha)
      · simp only [Function.update_of_ne hae, Function.update_of_ne htn]
        rw [h.tq_iff a t', or_iff_right htn]
  · intro htimely a ha
    rcases (hmem a).mp ha with rfl | ha'
    · simp
    · rw [Function.update_of_ne (hnm a ha')]
      refine (h.sorted htimely a ha').imp_of_mem fun {b c} hb hc hbc => ?_
      simp only [Function.update_of_ne (hout a ha' b hb), Function.update_of_ne (hout a ha' c hc)]
      exact hbc
  · intro htimely a ha b hb
    rcases (hmem a).mp ha with rfl | ha'
    · rw [Function.update_self, List.mem_singleton] at hb
      simp only [hb, Function.update_self, msecAdd_eq (hov htimely)]
      exact le_rfl
    · rw [Function.update_of_ne (hnm a ha')] at hb
      simp only [Function.update_of_ne (hout a ha' b hb), Function.update_of_ne (hnm a ha')]
      exact (h.mono hle).deadline_le htimely a ha' b hb
  · intro hfn m' t'
    rw [hmem t']
    simp only [if_pos hfn]
    exact map_iff_insert (h.map_iff hfn) hne hn m' t'
  · intro hfn
    obtain ⟨hlt, hgt⟩ := hlist hfn
    exact pairwise_insert (hsplit ▸ hn) (hsplit ▸ h.list_sorted hfn) hlt hgt

end Add

end LuaSys.Event
