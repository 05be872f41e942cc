import LuaSys.Event.TimeoutProcess
import Mathlib.Logic.Relation

/-!
# The invariant of the timeout queues

The timeouts of an event queue together with the free list from which the headers are
taken.  Every operation of `timeout.c` and `evq_set_timeout` keeps the invariant, for
any sequence of operations with a clock that does not go back.

## Main definitions

* `TimeoutInv` — the representation, the free list and the roles of the slots.
* `TimeoutOk` — the invariant as a property of the queue.
* `TimeoutSys`, `TimeoutOp` — the operations, with what their callers promise.

## Main results

* `timeout_run_inv` — the invariant holds after every sequence of operations, and
  every operation terminates.
-/

namespace LuaSys.Event

open LuaSys.Lib

/-! ## The slots -/

/-- The timeouts of the events `events`, with the free list.  Every slot has one role:
it is an event, a header or free. -/
structure TimeoutInv (timely : Prop) (events : ℕ → Prop) (q : Evq) (latest : ℤ) (tqs : List ℕ)
    (evs : ℕ → List ℕ) (free : List ℕ) : Prop extends TimeoutRep timely q latest tqs evs where
  freeList : Path some q.nextReady q.evFree free none
  free_role : ∀ s ∈ free, s ∉ tqs ∧ ¬events s
  header_role : ∀ t ∈ tqs, ¬events t
  events_mem : ∀ ev, q.tq ev ≠ none → events ev

/-- The invariant, with the slots that are not events. -/
def TimeoutOk (timely : Prop) (events slots : ℕ → Prop) (q : Evq) (latest : ℤ) : Prop :=
  ∃ tqs evs free, TimeoutInv timely events q latest tqs evs free ∧ ∀ s, s ∈ tqs ∨ s ∈ free ↔ slots s

/-- What the events have besides their timeouts is the same. -/
structure SameEvents (events : ℕ → Prop) (q q' : Evq) : Prop where
  nextReady : ∀ ev, events ev → q'.nextReady ev = q.nextReady ev
  flags : q'.flags = q.flags
  registered : q'.registered = q.registered
  evReady : q'.evReady = q.evReady
  now : q'.now = q.now

theorem SameSlots.sameEvents {q q' : Evq} (h : SameSlots q q') (events : ℕ → Prop) :
    SameEvents events q q' :=
  ⟨fun ev _ => congrFun h.nextReady ev, h.flags, h.registered, h.evReady, h.now⟩

theorem SameEvents.refl (events : ℕ → Prop) (q : Evq) : SameEvents events q q :=
  ⟨fun _ _ => rfl, rfl, rfl, rfl, rfl⟩

theorem SameEvents.trans {events : ℕ → Prop} {q q₁ q₂ : Evq} (h₁ : SameEvents events q q₁)
    (h₂ : SameEvents events q₁ q₂) : SameEvents events q q₂ :=
  ⟨fun ev hev => (h₂.nextReady ev hev).trans (h₁.nextReady ev hev), h₂.flags.trans h₁.flags,
    h₂.registered.trans h₁.registered, h₂.evReady.trans h₁.evReady, h₂.now.trans h₁.now⟩

section Slots

variable {timely : Prop} {events slots : ℕ → Prop} {q : Evq} {latest now m : ℤ} {t ev : ℕ}

theorem TimeoutOk.mono (h : TimeoutOk timely events slots q latest) (hle : timely → latest ≤ now) :
    TimeoutOk timely events slots q now := by
  obtain ⟨tqs, evs, free, hinv, hslots⟩ := h
  exact ⟨tqs, evs, free, { hinv with toTimeoutRep := hinv.toTimeoutRep.mono hle }, hslots⟩

/-- An operation inside the queues that exist leaves the free list alone. -/
theorem TimeoutInv.sameSlots {q' : Evq} {tqs free : List ℕ} {evs evs' : ℕ → List ℕ}
    (h : TimeoutInv timely events q latest tqs evs free) (hs : SameSlots q q')
    (hrep : TimeoutRep timely q' now tqs evs') (hev : ∀ ev, q'.tq ev ≠ none → q.tq ev ≠ none ∨ events ev) :
    TimeoutInv timely events q' now tqs evs' free := by
  refine ⟨hrep, ?_, h.free_role, h.header_role, fun a ha => ?_⟩
  · rw [hs.nextReady, hs.evFree]
    exact h.freeList
  · exact (hev a ha).elim (h.events_mem a) id

/-- `timeout_reset`. -/
theorem TimeoutOk.reset (h : TimeoutOk timely events slots q latest) (hle : timely → latest ≤ now)
    (htq : q.tq ev = some t) (hov : timely → NoOverflow now (q.msec t)) :
    ∃ q', timeoutReset q ev now = some q' ∧ SameEvents events q q' ∧ q'.tq = q.tq ∧
      TimeoutOk timely events slots q' now := by
  obtain ⟨tqs, evs, free, hinv, hslots⟩ := h
  obtain ⟨q', hrun, hs, htq', -, -, hrep⟩ := timeoutReset_spec hinv.toTimeoutRep hle htq hov
  exact ⟨q', hrun, hs.sameEvents events, htq', tqs, _, free,
    hinv.sameSlots hs hrep fun a ha => Or.inl (htq' ▸ ha), hslots⟩

/-- `timeout_del`. -/
theorem TimeoutOk.del (h : TimeoutOk timely events slots q latest) (ev : ℕ) :
    SameEvents events q (timeoutDel q ev) ∧
      (timeoutDel q ev).tq = Function.update q.tq ev none ∧
      TimeoutOk timely events slots (timeoutDel q ev) latest := by
  obtain ⟨tqs, evs, free, hinv, hslots⟩ := h
  cases htq : q.tq ev with
  | none =>
      have heq : timeoutDel q ev = q := by simp [timeoutDel, htq]
      rw [heq, ← htq, Function.update_eq_self]
      exact ⟨SameEvents.refl events q, rfl, tqs, evs, free, hinv, hslots⟩
  | some t =>
      by_cases halone : q.prev ev = none ∧ q.next ev = none
      · obtain ⟨-, m₁, m₂, hm, hrep⟩ :=
          timeoutDel_spec_of_alone hinv.toTimeoutRep htq halone.1 halone.2
        have heq := timeoutDel_of_alone htq halone.1 halone.2
        have ht : t ∈ tqs := (hinv.mem_of_tq htq).1
        have htm : t ∉ m₁ ++ m₂ := by
          have hnd := hinv.tqs_nodup
          rw [hm] at hnd
          exact (List.nodup_cons.mp (List.nodup_middle.mp hnd)).1
        have htf : t ∉ free := fun hmem => (hinv.free_role t hmem).1 ht
        have hmem : ∀ s, s ∈ tqs ↔ s = t ∨ s ∈ m₁ ++ m₂ := by
          intro s
          rw [hm, List.perm_middle.mem_iff, List.mem_cons]
        have htq' : (timeoutDel q ev).tq = Function.update q.tq ev none := by rw [heq]
        refine ⟨?_, htq', m₁ ++ m₂, evs, t :: free, ⟨hrep, ?_, ?_, ?_, ?_⟩, ?_⟩
        · rw [heq]
          refine ⟨fun a ha => Function.update_of_ne ?_ _ _, rfl, rfl, rfl, rfl⟩
          rintro rfl
          exact hinv.header_role a ht ha
        · rw [heq]
          refine ⟨rfl, ?_⟩
          simp only [Function.update_self]
          exact (path_update_of_notMem htf).mpr hinv.freeList
        · intro s hs
          rcases List.mem_cons.mp hs with rfl | hs
          · exact ⟨htm, hinv.header_role s ht⟩
          · exact ⟨fun hmem' => (hinv.free_role s hs).1 ((hmem s).mpr (Or.inr hmem')),
              (hinv.free_role s hs).2⟩
        · exact fun s hs => hinv.header_role s ((hmem s).mpr (Or.inr hs))
        · intro a ha
          refine hinv.events_mem a fun hnone => ha ?_
          rw [htq']
          by_cases hae : a = ev <;> simp [hae, hnone]
        · intro s
          rw [← hslots s, hmem s, List.mem_cons, or_left_comm, or_assoc]
      · obtain ⟨hs, hrep⟩ := timeoutDel_spec_of_ne hinv.toTimeoutRep htq halone
        have htq' : (timeoutDel q ev).tq = Function.update q.tq ev none := by
          rw [timeoutDel_of_ne htq halone]
        refine ⟨hs.sameEvents events, htq', tqs, _, free, hinv.sameSlots hs hrep fun a ha => ?_,
          hslots⟩
        refine Or.inl fun hnone => ha ?_
        rw [htq']
        by_cases hae : a = ev <;> simp [hae, hnone]

/-- `timeout_add`, which fails if there is no slot for a new header. -/
theorem TimeoutOk.add (h : TimeoutOk timely events slots q latest) (hle : timely → latest ≤ now)
    (hev : events ev) (htq : q.tq ev = none) (hov : timely → NoOverflow now m) :
    ∃ fuel₀, ∀ fuel, fuel₀ ≤ fuel → ∃ q' res, timeoutAdd fuel q ev m now = some (q', res) ∧
      SameEvents events q q' ∧ (∀ a, a ≠ ev → q'.tq a = q.tq a) ∧
      TimeoutOk timely events slots q' now := by
  obtain ⟨tqs, evs, free, hinv, hslots⟩ := h
  refine ⟨tqs.length + 1, fun fuel hfuel => ?_⟩
  rcases timeoutFind_spec hinv.toTimeoutRep (show tqs.length < fuel by omega) with
    ⟨p, t, hfind, ht, hm⟩ | ⟨m₁, m₂, hsplit, hfind, hne, hlist⟩
  · obtain ⟨q', hrun, hs, hrep⟩ :=
      timeoutAdd_spec_of_found hinv.toTimeoutRep hle htq hov hfind ht hm
    have htq' : q'.tq = Function.update q.tq ev (some t) := by
      rw [timeoutAdd_of_found hfind hm] at hrun
      rw [← (Prod.mk.inj (Option.some.inj hrun)).1]
    refine ⟨q', 0, hrun, hs.sameEvents events, ?_, tqs, _, free,
      hinv.sameSlots hs hrep fun a ha => ?_, hslots⟩
    · intro a hae
      rw [htq', Function.update_of_ne hae]
    · by_cases hae : a = ev
      · exact Or.inr (hae ▸ hev)
      · rw [htq', Function.update_of_ne hae] at ha
        exact Or.inl ha
  · have ho := head_msec_ne hsplit hne
    cases hfree : q.evFree with
    | none =>
        exact ⟨q, -1, timeoutAdd_of_full hfind ho hfree, SameEvents.refl events q, fun _ _ => rfl,
          TimeoutOk.mono ⟨tqs, evs, free, hinv, hslots⟩ hle⟩
    | some n =>
        obtain ⟨free', rfl⟩ := hinv.freeList.eq_cons hfree
        have hn : n ∉ tqs := (hinv.free_role n (by simp)).1
        obtain ⟨q', hrun, hfree', hready, hflags, hreg, hevr, hnow, hrep⟩ :=
          timeoutAdd_spec_of_new hinv.toTimeoutRep hle htq hov hsplit hfind hne hlist hfree hn
        have htq' : q'.tq = Function.update q.tq ev (some n) := by
          rw [timeoutAdd_of_new hfind ho hfree] at hrun
          rw [← (Prod.mk.inj (Option.some.inj hrun)).1]
        have hmem : ∀ t, t ∈ m₁ ++ n :: m₂ ↔ t = n ∨ t ∈ tqs := by
          intro t
          rw [hsplit, List.perm_middle.mem_iff, List.mem_cons]
        refine ⟨q', 0, hrun, ⟨fun a _ => congrFun hready a, hflags, hreg, hevr, hnow⟩, ?_,
          m₁ ++ n :: m₂, _, free', ⟨hrep, ?_, ?_, ?_, ?_⟩, ?_⟩
        · intro a hae
          rw [htq', Function.update_of_ne hae]
        · rw [hready, hfree']
          exact hinv.freeList.2
        · intro s hs
          have hnd := hinv.freeList.nodup
          refine ⟨fun hmem' => ?_, (hinv.free_role s (by simp [hs])).2⟩
          rcases (hmem s).mp hmem' with rfl | ht
          · exact (List.nodup_cons.mp hnd).1 hs
          · exact (hinv.free_role s (by simp [hs])).1 ht
        · intro t ht
          rcases (hmem t).mp ht with rfl | ht
          · exact (hinv.free_role t (by simp)).2
          · exact hinv.header_role t ht
        · intro a ha
          by_cases hae : a = ev
          · exact hae ▸ hev
          · rw [htq', Function.update_of_ne hae] at ha
            exact hinv.events_mem a ha
        · intro s
          rw [← hslots s, hmem s, List.mem_cons, or_left_comm, or_assoc]

/-- `evq_set_timeout`. -/
theorem TimeoutOk.setTimeout (h : TimeoutOk timely events slots q latest) (hle : timely → latest ≤ q.now)
    (hev : events ev) (hov : timely → NoOverflow q.now m) :
    ∃ fuel₀, ∀ fuel, fuel₀ ≤ fuel → ∃ q' res, evqSetTimeout fuel q ev m = some (q', res) ∧
      SameEvents events q q' ∧ (∀ a, a ≠ ev → q'.tq a = q.tq a) ∧
      TimeoutOk timely events slots q' q.now := by
  have harm : ∀ q₁, SameEvents events q q₁ → q₁.tq = Function.update q.tq ev none →
      TimeoutOk timely events slots q₁ latest →
      ∃ fuel₀, ∀ fuel, fuel₀ ≤ fuel → ∃ q' res, evqArmTimeout fuel q₁ ev m = some (q', res) ∧
        SameEvents events q q' ∧ (∀ a, a ≠ ev → q'.tq a = q.tq a) ∧
        TimeoutOk timely events slots q' q.now := by
    intro q₁ hs htq hok
    have htq₁ : ∀ a, a ≠ ev → q₁.tq a = q.tq a := by
      intro a hae
      rw [htq, Function.update_of_ne hae]
    by_cases hm : m = timeoutInfinite
    · exact ⟨0, fun fuel _ => ⟨q₁, 0, by simp [evqArmTimeout, hm], hs, htq₁, hok.mono hle⟩⟩
    · rw [← hs.now] at hle hov
      obtain ⟨fuel₀, hadd⟩ := hok.add hle hev (by rw [htq, Function.update_self]) hov
      refine ⟨fuel₀, fun fuel hfuel => ?_⟩
      obtain ⟨q', res, hrun, hs', htq', hok'⟩ := hadd fuel hfuel
      refine ⟨q', res, by simp [evqArmTimeout, hm, hrun], hs.trans hs',
        fun a hae => (htq' a hae).trans (htq₁ a hae), hs.now ▸ hok'⟩
  cases htq : q.tq ev with
  | none =>
      obtain ⟨fuel₀, hrun⟩ := harm q (SameEvents.refl events q)
        (by rw [← htq, Function.update_eq_self]) h
      exact ⟨fuel₀, fun fuel hfuel => by simpa [evqSetTimeout, htq] using hrun fuel hfuel⟩
  | some t =>
      by_cases hm : q.msec t = m
      · obtain ⟨q', hrun, hs, htq', hok⟩ := h.reset hle htq (hm ▸ hov)
        exact ⟨0, fun fuel _ => ⟨q', 0, by simp [evqSetTimeout, htq, hm, hrun], hs,
          fun a _ => congrFun htq' a, hok⟩⟩
      · obtain ⟨hs, htq', hok⟩ := h.del ev
        obtain ⟨fuel₀, hrun⟩ := harm (timeoutDel q ev) hs htq' hok
        exact ⟨fuel₀, fun fuel hfuel => by simpa [evqSetTimeout, htq, hm] using hrun fuel hfuel⟩

/-- `timeout_process` over all queues. -/
theorem TimeoutOk.process (h : TimeoutOk timely events slots q latest) (hle : timely → latest ≤ now)
    (hov : timely → ∀ ev t, q.tq ev = some t → NoOverflow now (q.msec t)) (r : Option ℕ) :
    ∃ fuel₀, ∀ fuel, fuel₀ ≤ fuel → ∃ q' fired r',
      timeoutProcess fuel q q.tqHead r now = some (q', r') ∧
      (∀ ev ∈ fired, q.tq ev ≠ none ∧ q.timeoutAt ev < now + minTimeout) ∧
      (timely → ∀ ev, q.tq ev ≠ none → q.timeoutAt ev < now + minTimeout → ev ∈ fired) ∧
      fired.Nodup ∧ Path some q'.nextReady r' fired r ∧ Fired q q' fired (rearmAt q now) ∧
      TimeoutOk timely events slots q' now := by
  obtain ⟨tqs, evs, free, hinv, hslots⟩ := h
  obtain ⟨N, hN⟩ := exists_bound (fun t => (evs t).length) tqs
  have hov' : timely → ∀ t ∈ tqs, NoOverflow now (q.msec t) := by
    intro htimely t ht
    obtain ⟨ev, hev⟩ := List.exists_mem_of_ne_nil _ (hinv.nonempty t ht)
    exact hov htimely ev t ((hinv.tq_iff ev t).mpr ⟨ht, hev⟩)
  refine ⟨tqs.length + N + 1, fun fuel hfuel => ?_⟩
  obtain ⟨q', evs', fired, r', hrun, hmust, hall, hnd, hpath, hfired, hevs, hrep, -⟩ :=
    timeoutProcess_spec (hinv.toTimeoutRep.mono hle) (List.nil_append tqs).symm hov' hN
      (show _ < fuel by omega) r
  obtain ⟨tail, hqs⟩ := hinv.queues
  have hmust' : ∀ ev ∈ fired, q.tq ev ≠ none ∧ q.timeoutAt ev < now + minTimeout := by
    intro ev hev
    obtain ⟨t, ht, hmem, hdue⟩ := hmust ev hev
    rw [(hinv.tq_iff ev t).mpr ⟨ht, hmem⟩]
    exact ⟨by simp, hdue⟩
  have hall' : timely → ∀ ev, q.tq ev ≠ none → q.timeoutAt ev < now + minTimeout → ev ∈ fired := by
    intro htimely ev hev hdue
    obtain ⟨t, htq⟩ := Option.ne_none_iff_exists'.mp hev
    obtain ⟨ht, hmem⟩ := (hinv.tq_iff ev t).mp htq
    exact hall htimely t ht ev hmem hdue
  refine ⟨q', fired, r', hqs.head_eq ▸ hrun, hmust', hall', hnd, hpath, hfired, tqs, evs', free,
    ⟨hrep, ?_, hinv.free_role, hinv.header_role, hfired.tq ▸ hinv.events_mem⟩, hslots⟩
  rw [hfired.evFree]
  refine (path_congr fun s hs => ?_).mp hinv.freeList
  refine (hfired.nextReady s fun hmem => ?_).symm
  exact (hinv.free_role s hs).2 (hinv.events_mem s (hmust' s hmem).1)

end Slots

/-! ## Fuel -/

section Fuel

variable {q : Evq} {fuel : ℕ}

theorem timeoutSearch_succ {m : ℤ} {p t : Option ℕ} {r : Option ℕ × Option ℕ}
    (h : timeoutSearch q m fuel p t = some r) : timeoutSearch q m (fuel + 1) p t = some r := by
  induction fuel generalizing p t with
  | zero => exact absurd h (by simp [timeoutSearch])
  | succ fuel ih =>
      cases t with
      | none => simpa [timeoutSearch] using h
      | some t =>
          rw [timeoutSearch] at h ⊢
          by_cases hm : q.msec t < m
          · simp only [hm, if_true] at h ⊢
            exact ih h
          · simpa only [hm, if_false] using h

theorem timeoutFire_succ {d timeout : ℤ} {ev : ℕ} {r : Option ℕ} {o : Evq × ℕ × Option ℕ}
    (h : timeoutFire d timeout fuel q ev r = some o) :
    timeoutFire d timeout (fuel + 1) q ev r = some o := by
  induction fuel generalizing q ev r with
  | zero => exact absurd h (by simp [timeoutFire])
  | succ fuel ih =>
      rw [timeoutFire] at h ⊢
      cases hn : q.next ev with
      | none => simpa only [hn] using h
      | some ev' =>
          simp only [hn] at h ⊢
          split at h
          · rename_i hdue
            rw [if_pos hdue]
            exact ih h
          · rename_i hdue
            rw [if_neg hdue]
            exact h

theorem timeoutProcess_succ {tq r : Option ℕ} {now : ℤ} {o : Evq × Option ℕ}
    (h : timeoutProcess fuel q tq r now = some o) :
    timeoutProcess (fuel + 1) q tq r now = some o := by
  induction fuel generalizing q tq r with
  | zero => exact absurd h (by simp [timeoutProcess])
  | succ fuel ih =>
      cases tq with
      | none => simpa [timeoutProcess] using h
      | some t =>
          rw [timeoutProcess] at h ⊢
          obtain ⟨o₁, ho₁, hrest⟩ := Option.bind_eq_some_iff.mp h
          refine Option.bind_eq_some_iff.mpr ⟨o₁, ?_, ih hrest⟩
          cases hhead : q.evHead t with
          | none => simpa [timeoutProcessQueue, hhead] using ho₁
          | some a =>
              simp only [timeoutProcessQueue, hhead] at ho₁ ⊢
              by_cases hdue : q.timeoutAt a < now + minTimeout
              · rw [if_pos hdue] at ho₁ ⊢
                obtain ⟨o₂, ho₂, hmatch⟩ := Option.bind_eq_some_iff.mp ho₁
                exact Option.bind_eq_some_iff.mpr ⟨o₂, timeoutFire_succ ho₂, hmatch⟩
              · rwa [if_neg hdue] at ho₁ ⊢

theorem timeoutAdd_succ {ev : ℕ} {m now : ℤ} {o : Evq × ℤ}
    (h : timeoutAdd fuel q ev m now = some o) : timeoutAdd (fuel + 1) q ev m now = some o := by
  obtain ⟨o₁, hfind, hrest⟩ := Option.bind_eq_some_iff.mp h
  refine Option.bind_eq_some_iff.mpr ⟨o₁, ?_, hrest⟩
  cases hfn : q.tqMapFn with
  | true => simpa [timeoutFind, hfn] using hfind
  | false =>
      simp only [timeoutFind, hfn, Bool.false_eq_true, if_false] at hfind ⊢
      exact timeoutSearch_succ hfind

theorem evqSetTimeout_succ {ev : ℕ} {m : ℤ} {o : Evq × ℤ}
    (h : evqSetTimeout fuel q ev m = some o) : evqSetTimeout (fuel + 1) q ev m = some o := by
  have harm : ∀ q₁ : Evq, evqArmTimeout fuel q₁ ev m = some o →
      evqArmTimeout (fuel + 1) q₁ ev m = some o := by
    intro q₁ h₁
    by_cases hm : m = timeoutInfinite
    · simpa [evqArmTimeout, hm] using h₁
    · simp only [evqArmTimeout, hm, if_false] at h₁ ⊢
      exact timeoutAdd_succ h₁
  cases htq : q.tq ev with
  | none =>
      simp only [evqSetTimeout, htq] at h ⊢
      exact harm q h
  | some t =>
      simp only [evqSetTimeout, htq] at h ⊢
      by_cases hm : q.msec t = m
      · simpa only [hm, if_true] using h
      · simp only [hm, if_false] at h ⊢
        exact harm _ h

/-- A function that keeps its result with one more unit of fuel keeps it with more. -/
theorem fuel_mono {α : Type*} {f : ℕ → Option α} (hf : ∀ n x, f n = some x → f (n + 1) = some x)
    {n n' : ℕ} {x : α} (hle : n ≤ n') (h : f n = some x) : f n' = some x := by
  induction hle with
  | refl => exact h
  | step _ ih => exact hf _ _ ih

end Fuel

section Results

variable {timely : Prop} {events slots : ℕ → Prop} {q q' : Evq} {latest now m : ℤ} {ev fuel : ℕ}

/-- The result of `evq_set_timeout`. -/
theorem TimeoutOk.of_setTimeout (h : TimeoutOk timely events slots q latest)
    (hle : timely → latest ≤ q.now) (hev : events ev) (hov : timely → NoOverflow q.now m) {res : ℤ}
    (hrun : evqSetTimeout fuel q ev m = some (q', res)) :
    SameEvents events q q' ∧ (∀ a, a ≠ ev → q'.tq a = q.tq a) ∧
      TimeoutOk timely events slots q' q.now := by
  obtain ⟨fuel₀, hset⟩ := h.setTimeout hle hev hov
  obtain ⟨q₁, res₁, hrun₁, hspec⟩ := hset (max fuel fuel₀) (le_max_right _ _)
  have hsame := fuel_mono (f := fun n => evqSetTimeout n q ev m) (fun _ _ => evqSetTimeout_succ)
    (le_max_left fuel fuel₀) hrun
  obtain ⟨rfl, -⟩ := Prod.mk.inj (Option.some.inj (hrun₁.symm.trans hsame))
  exact hspec

/-- The result of `timeout_process`. -/
theorem TimeoutOk.of_process (h : TimeoutOk timely events slots q latest)
    (hle : timely → latest ≤ now)
    (hov : timely → ∀ ev t, q.tq ev = some t → NoOverflow now (q.msec t)) {r r' : Option ℕ}
    (hrun : timeoutProcess fuel q q.tqHead r now = some (q', r')) :
    ∃ fired, (∀ ev ∈ fired, q.tq ev ≠ none ∧ q.timeoutAt ev < now + minTimeout) ∧
      (timely → ∀ ev, q.tq ev ≠ none → q.timeoutAt ev < now + minTimeout → ev ∈ fired) ∧
      fired.Nodup ∧ Path some q'.nextReady r' fired r ∧ Fired q q' fired (rearmAt q now) ∧
      TimeoutOk timely events slots q' now := by
  obtain ⟨fuel₀, hprocess⟩ := h.process hle hov r
  obtain ⟨q₁, fired, r₁, hrun₁, hspec⟩ := hprocess (max fuel fuel₀) (le_max_right _ _)
  have hsame := fuel_mono (f := fun n => timeoutProcess n q q.tqHead r now)
    (fun _ _ => timeoutProcess_succ) (le_max_left fuel fuel₀) hrun
  obtain ⟨rfl, rfl⟩ := Prod.mk.inj (Option.some.inj (hrun₁.symm.trans hsame))
  exact ⟨fired, hspec⟩

end Results

/-! ## Runs -/

/-- An event queue with the latest time that an operation has been given. -/
structure TimeoutSys where
  q : Evq
  latest : ℤ

/-- The operations on the timeouts.  `clock` is the assignment of `evq->now`. -/
inductive TimeoutOp
  | add (ev : ℕ) (msec now : ℤ)
  | reset (ev : ℕ) (now : ℤ)
  | del (ev : ℕ)
  | process (evReady : Option ℕ) (now : ℤ)
  | setTimeout (ev : ℕ) (msec : ℤ)
  | clock (now : ℤ)

namespace TimeoutSys

/-- One operation. -/
def step (fuel : ℕ) (s : TimeoutSys) : TimeoutOp → Option TimeoutSys
  | .add ev msec now => (timeoutAdd fuel s.q ev msec now).map fun r => ⟨r.1, now⟩
  | .reset ev now => (timeoutReset s.q ev now).map fun q => ⟨q, now⟩
  | .del ev => some ⟨timeoutDel s.q ev, s.latest⟩
  | .process evReady now =>
      (timeoutProcess fuel s.q s.q.tqHead evReady now).map fun r => ⟨r.1, now⟩
  | .setTimeout ev msec => (evqSetTimeout fuel s.q ev msec).map fun r => ⟨r.1, s.q.now⟩
  | .clock now => some ⟨{ s.q with now := now }, s.latest⟩

/-- What the callers of an operation promise: the event belongs to the queue, the
time does not go back, and a deadline does not overflow.  `timeout_add` is called for
an event without a timeout and `timeout_reset` for an event with one. -/
def Allowed (events : ℕ → Prop) (s : TimeoutSys) : TimeoutOp → Prop
  | .add ev msec now =>
      events ev ∧ s.q.tq ev = none ∧ s.latest ≤ now ∧ NoOverflow now msec
  | .reset ev now => s.latest ≤ now ∧ ∃ t, s.q.tq ev = some t ∧ NoOverflow now (s.q.msec t)
  | .del ev => events ev
  | .process _ now =>
      s.latest ≤ now ∧ ∀ ev t, s.q.tq ev = some t → NoOverflow now (s.q.msec t)
  | .setTimeout ev msec => events ev ∧ s.latest ≤ s.q.now ∧ NoOverflow s.q.now msec
  | .clock _ => True

/-- The transitions of a run. -/
def Step (events : ℕ → Prop) (s s' : TimeoutSys) : Prop :=
  ∃ op fuel, s.Allowed events op ∧ s.step fuel op = some s'

/-- The state before the first timeout: a free list apart from the events. -/
structure Initial (events : ℕ → Prop) (s : TimeoutSys) : Prop where
  tqHead : s.q.tqHead = none
  tq : ∀ ev, s.q.tq ev = none
  tqMap : ∀ m, s.q.tqMap m = none
  freeList : ∃ free, Path some s.q.nextReady s.q.evFree free none ∧ ∀ n ∈ free, ¬events n

variable {events slots : ℕ → Prop} {s s' : TimeoutSys}

theorem Initial.ok (h : Initial events s) : ∃ slots, TimeoutOk True events slots s.q s.latest := by
  obtain ⟨free, hpath, hfree⟩ := h.freeList
  refine ⟨fun n => n ∈ free, [], fun _ => [], free, ⟨⟨⟨none, ?_⟩, ?_, ?_, ?_, ?_, ?_, ?_, ?_, ?_⟩,
    hpath, ?_, ?_, ?_⟩, by simp⟩
  · exact ⟨h.tqHead, rfl⟩
  · simp
  · simp
  · simp
  · simp [h.tq]
  · simp
  · simp
  · simp [h.tqMap]
  · simp
  · exact fun n hn => ⟨by simp, hfree n hn⟩
  · simp
  · exact fun ev hev => absurd (h.tq ev) hev

/-- Every operation that its caller may perform terminates and keeps the invariant. -/
theorem step_ok (h : TimeoutOk True events slots s.q s.latest) {op : TimeoutOp}
    (hop : s.Allowed events op) :
    ∃ fuel₀, ∀ fuel, fuel₀ ≤ fuel →
      ∃ s', s.step fuel op = some s' ∧ TimeoutOk True events slots s'.q s'.latest := by
  cases op with
  | add ev msec now =>
      obtain ⟨hev, htq, hle, hov⟩ := hop
      obtain ⟨fuel₀, hadd⟩ := h.add (fun _ => hle) hev htq (fun _ => hov)
      refine ⟨fuel₀, fun fuel hfuel => ?_⟩
      obtain ⟨q', res, hrun, -, -, hok⟩ := hadd fuel hfuel
      exact ⟨⟨q', now⟩, by simp [step, hrun], hok⟩
  | reset ev now =>
      obtain ⟨hle, t, htq, hov⟩ := hop
      obtain ⟨q', hrun, -, -, hok⟩ := h.reset (fun _ => hle) htq (fun _ => hov)
      exact ⟨0, fun _ _ => ⟨⟨q', now⟩, by simp [step, hrun], hok⟩⟩
  | del ev => exact ⟨0, fun _ _ => ⟨_, rfl, (h.del ev).2.2⟩⟩
  | process evReady now =>
      obtain ⟨hle, hov⟩ := hop
      obtain ⟨fuel₀, hprocess⟩ := h.process (fun _ => hle) (fun _ => hov) evReady
      refine ⟨fuel₀, fun fuel hfuel => ?_⟩
      obtain ⟨q', fired, r', hrun, -, -, -, -, -, hok⟩ := hprocess fuel hfuel
      exact ⟨⟨q', now⟩, by simp [step, hrun], hok⟩
  | setTimeout ev msec =>
      obtain ⟨hev, hle, hov⟩ := hop
      obtain ⟨fuel₀, hset⟩ := h.setTimeout (fun _ => hle) hev (fun _ => hov)
      refine ⟨fuel₀, fun fuel hfuel => ?_⟩
      obtain ⟨q', res, hrun, -, -, hok⟩ := hset fuel hfuel
      exact ⟨⟨q', s.q.now⟩, by simp [step, hrun], hok⟩
  | clock now =>
      obtain ⟨tqs, evs, free, hinv, hslots⟩ := h
      exact ⟨0, fun _ _ => ⟨_, rfl, tqs, evs, free,
        ⟨⟨hinv.queues, hinv.msec_inj, hinv.nonempty, hinv.lists, hinv.tq_iff, hinv.sorted,
          hinv.deadline_le, hinv.map_iff, hinv.list_sorted⟩, hinv.freeList, hinv.free_role,
          hinv.header_role, hinv.events_mem⟩, hslots⟩⟩

/-- An operation that terminates has the same result with more fuel. -/
theorem step_mono {fuel fuel' : ℕ} {op : TimeoutOp} (h : s.step fuel op = some s')
    (hle : fuel ≤ fuel') : s.step fuel' op = some s' := by
  refine fuel_mono (f := fun n => s.step n op) (fun n x hx => ?_) hle h
  cases op with
  | add ev msec now =>
      obtain ⟨o, ho, heq⟩ := Option.map_eq_some_iff.mp hx
      exact Option.map_eq_some_iff.mpr ⟨o, timeoutAdd_succ ho, heq⟩
  | reset ev now => exact hx
  | del ev => exact hx
  | process evReady now =>
      obtain ⟨o, ho, heq⟩ := Option.map_eq_some_iff.mp hx
      exact Option.map_eq_some_iff.mpr ⟨o, timeoutProcess_succ ho, heq⟩
  | setTimeout ev msec =>
      obtain ⟨o, ho, heq⟩ := Option.map_eq_some_iff.mp hx
      exact Option.map_eq_some_iff.mpr ⟨o, evqSetTimeout_succ ho, heq⟩
  | clock now => exact hx

/-- A transition keeps the invariant. -/
theorem Step.ok (hstep : Step events s s') (h : TimeoutOk True events slots s.q s.latest) :
    TimeoutOk True events slots s'.q s'.latest := by
  obtain ⟨op, fuel, hop, hrun⟩ := hstep
  obtain ⟨fuel₀, hok⟩ := step_ok h hop
  obtain ⟨s₁, hs₁, hok₁⟩ := hok (max fuel fuel₀) (le_max_right _ _)
  obtain rfl := Option.some.inj ((step_mono hrun (le_max_left _ _)).symm.trans hs₁)
  exact hok₁

end TimeoutSys

/-- **The timeout queues are well formed in every run.**  After every sequence of
operations the headers and their events are well linked, sorted and found by the map,
each slot has one role, and every operation that may follow terminates. -/
theorem timeout_run_inv {events : ℕ → Prop} {s s' : TimeoutSys}
    (hinit : TimeoutSys.Initial events s)
    (hrun : Relation.ReflTransGen (TimeoutSys.Step events) s s') :
    (∃ tqs evs free, TimeoutInv True events s'.q s'.latest tqs evs free) ∧
      ∀ op, s'.Allowed events op → ∃ fuel s'', s'.step fuel op = some s'' := by
  obtain ⟨slots, hstart⟩ := hinit.ok
  have hok : TimeoutOk True events slots s'.q s'.latest := by
    induction hrun with
    | refl => exact hstart
    | tail _ hstep ih => exact hstep.ok ih
  refine ⟨?_, fun op hop => ?_⟩
  · obtain ⟨tqs, evs, free, hinv, -⟩ := hok
    exact ⟨tqs, evs, free, hinv⟩
  · obtain ⟨fuel₀, hstep⟩ := TimeoutSys.step_ok hok hop
    obtain ⟨s'', hs'', -⟩ := hstep fuel₀ le_rfl
    exact ⟨fuel₀, s'', hs''⟩

/-- A queue with the map, slot 0 for an event and slot 1 free. -/
def oneEventQueue : Evq where
  nextReady _ := none
  prev _ := none
  next _ := none
  tq _ := none
  timeoutAt _ := 0
  flags _ := {}
  registered _ := true
  tqPrev _ := none
  tqNext _ := none
  evHead _ := none
  evTail _ := none
  msec _ := 0
  now := 0
  evReady := none
  evFree := some 1
  tqHead := none
  tqMapFn := true
  tqMap _ := none

/-- Two free slots behind two events. -/
def twoEventQueue (useMap : Bool) : Evq :=
  { oneEventQueue with
    nextReady := fun n => if n = 2 then some 3 else none
    evFree := some 2
    tqMapFn := useMap }

/-- Two events get two timeout queues, and the timeout of one expires. -/
theorem timeout_run_inv_twoQueues :
    ∃ s', Relation.ReflTransGen (TimeoutSys.Step (· < 2)) ⟨twoEventQueue true, 0⟩ s' ∧
      s'.q.tq 0 = some 2 ∧ s'.q.tq 1 = some 3 ∧ s'.q.timeoutAt 0 = 105 ∧ s'.q.timeoutAt 1 = 120 ∧
      ∃ tqs evs free, TimeoutInv True (· < 2) s'.q s'.latest tqs evs free := by
  have hinit : TimeoutSys.Initial (· < 2) ⟨twoEventQueue true, 0⟩ :=
    ⟨rfl, fun _ => rfl, fun _ => rfl, [2, 3], ⟨rfl, rfl, rfl⟩, by simp⟩
  have hfirst : TimeoutSys.Step (· < 2) ⟨twoEventQueue true, 0⟩ _ :=
    ⟨.add 0 100 5, 5, ⟨Nat.zero_lt_two, rfl, by decide, by decide, by decide⟩, rfl⟩
  have hsecond : Relation.ReflTransGen (TimeoutSys.Step (· < 2)) ⟨twoEventQueue true, 0⟩ _ :=
    .tail (.single hfirst)
      ⟨.add 1 50 6, 5, ⟨Nat.one_lt_two, rfl, by decide, by decide, by decide⟩, rfl⟩
  have hrun : Relation.ReflTransGen (TimeoutSys.Step (· < 2)) ⟨twoEventQueue true, 0⟩ _ :=
    .tail hsecond ⟨.process none 70, 9, ⟨by decide, fun ev t ht => by
      match ev with
      | 0 => exact Option.some.inj ht ▸ ⟨by decide, by decide⟩
      | 1 => exact Option.some.inj ht ▸ ⟨by decide, by decide⟩
      | _ + 2 => cases ht⟩, rfl⟩
  exact ⟨_, hrun, rfl, rfl, rfl, rfl, (timeout_run_inv hinit hrun).1⟩

end LuaSys.Event
