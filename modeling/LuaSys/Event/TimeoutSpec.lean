import LuaSys.Event.TimeoutClock
import LuaSys.Event.TimeoutInv
import Mathlib.Order.Bounds.Basic

/-!
# What the timeouts are

`Timeouts` says what the timeouts of an event queue are, without the links: the events of
each timeout value, one after the other, and their deadlines.  The functions of
`timeout.c` do on the links what its operations do, whether the event queue has a map of
its timeout queues or a sorted list.

## Main definitions

* `Timeouts` — the timeouts, with the operations on them.
* `Refines events q a` — the links of `q` hold the timeouts `a`.
* `Activates` — the events that `timeout_process` puts before the ready events.

## Main results

* `Refines.add`, `Refines.reset`, `Refines.del`, `Refines.setTimeout`, `Refines.get`,
  `Refines.process` — the functions of the source.
-/

namespace LuaSys.Event

open LuaSys.Lib

/-! ## The timeouts -/

/-- The timeout value of each event, the events of each value in the order of their
queue, and their deadlines. -/
structure Timeouts where
  value : ℕ → Option ℤ
  queue : ℤ → List ℕ
  deadline : ℕ → ℤ

namespace Timeouts

def add (a : Timeouts) (ev : ℕ) (msec now : ℤ) : Timeouts where
  value := Function.update a.value ev (some msec)
  queue := Function.update a.queue msec (a.queue msec ++ [ev])
  deadline := Function.update a.deadline ev (msecAdd now msec)

def reset (a : Timeouts) (ev : ℕ) (now : ℤ) : Timeouts :=
  match a.value ev with
  | none => a
  | some msec =>
      { a with
        queue := Function.update a.queue msec ((a.queue msec).erase ev ++ [ev])
        deadline := Function.update a.deadline ev (msecAdd now msec) }

def del (a : Timeouts) (ev : ℕ) : Timeouts :=
  match a.value ev with
  | none => a
  | some msec =>
      { a with
        value := Function.update a.value ev none
        queue := Function.update a.queue msec ((a.queue msec).erase ev) }

def arm (a : Timeouts) (ev : ℕ) (msec now : ℤ) : Timeouts :=
  if msec = timeoutInfinite then a else a.add ev msec now

def setTimeout (a : Timeouts) (ev : ℕ) (msec now : ℤ) : Timeouts :=
  match a.value ev with
  | none => a.arm ev msec now
  | some msec' => if msec' = msec then a.reset ev now else (a.del ev).arm ev msec now

/-- The first events of a value that are due. -/
def due (a : Timeouts) (now msec : ℤ) : List ℕ :=
  (a.queue msec).takeWhile fun ev => a.deadline ev < now + minTimeout

/-- The events that are due are put behind the others, with new deadlines. -/
def process (a : Timeouts) (now : ℤ) : Timeouts :=
  { a with
    queue := fun msec => recycled a.deadline now (a.queue msec)
    deadline := fun ev =>
      match a.value ev with
      | none => a.deadline ev
      | some msec => if ev ∈ a.due now msec then msecAdd now msec else a.deadline ev }

/-- The points in time at which a wait for `min` milliseconds has to end. -/
def ends (a : Timeouts) (min now : ℤ) : Set ℤ :=
  { c | (min ≠ timeoutInfinite ∧ c = msecAdd min now) ∨
    ∃ msec ev, (a.queue msec).head? = some ev ∧ c = a.deadline ev }

/-- How long a wait for `min` milliseconds may last. -/
def Waits (a : Timeouts) (min now d : ℤ) : Prop :=
  ((∀ msec, a.queue msec = []) ∧ d = min) ∨
    ∃ c, (∃ msec, a.queue msec ≠ []) ∧ IsLeast (a.ends min now) c ∧
      d = if c - now < 0 then 0 else if maxTimeout < c - now then maxTimeout else c - now

theorem Waits.unique {a : Timeouts} {min now d d' : ℤ} (h : a.Waits min now d)
    (h' : a.Waits min now d') : d = d' := by
  rcases h with ⟨hnone, rfl⟩ | ⟨c, ⟨msec, hsome⟩, hleast, rfl⟩
  · rcases h' with ⟨-, rfl⟩ | ⟨-, ⟨msec, hsome⟩, -, -⟩
    · rfl
    · exact absurd (hnone msec) hsome
  · rcases h' with ⟨hnone, -⟩ | ⟨c', -, hleast', rfl⟩
    · exact absurd (hnone msec) hsome
    · rw [hleast.unique hleast']

end Timeouts

/-! ## The links of an event queue -/

/-- The timeout queues `tqs` with the events `evs` are those of `a`. -/
structure Shows (q : Evq) (tqs : List ℕ) (evs : ℕ → List ℕ) (a : Timeouts) : Prop where
  queue : ∀ t ∈ tqs, a.queue (q.msec t) = evs t
  covers : ∀ msec, a.queue msec ≠ [] → ∃ t ∈ tqs, q.msec t = msec
  value : ∀ ev, a.value ev = (q.tq ev).map q.msec
  deadline : ∀ ev, q.tq ev ≠ none → a.deadline ev = q.timeoutAt ev

/-- The event queue is well formed and has the timeouts `a`. -/
def Refines (events : ℕ → Prop) (q : Evq) (a : Timeouts) : Prop :=
  (∃ slots, TimeoutOk False events slots q 0) ∧
    ∃ tqs evs, TimeoutRep False q 0 tqs evs ∧ Shows q tqs evs a

section Shows

variable {events : ℕ → Prop} {q q' : Evq} {a : Timeouts} {tqs : List ℕ} {evs : ℕ → List ℕ}
  {t ev fuel : ℕ} {msec now : ℤ}

theorem TimeoutRep.tqs_unique {latest' : ℤ} {tqs' : List ℕ} {evs' : ℕ → List ℕ}
    (h : TimeoutRep False q latest' tqs evs) {latest : ℤ}
    (h' : TimeoutRep False q latest tqs' evs') : tqs = tqs' := by
  obtain ⟨tail, hqs⟩ := h.queues
  obtain ⟨tail', hqs'⟩ := h'.queues
  exact Path.unique (DSeg.forward hqs) (DSeg.forward hqs')

/-- The events of one queue change. -/
theorem Shows.replace (h : Shows q tqs evs a) (hrep : TimeoutRep False q 0 tqs evs) (ht : t ∈ tqs)
    (hmsec : q'.msec = q.msec) {l : List ℕ} {a' : Timeouts}
    (hqueue : a'.queue = Function.update a.queue (q.msec t) l)
    (hvalue : ∀ ev, a'.value ev = (q'.tq ev).map q'.msec)
    (hdeadline : ∀ ev, q'.tq ev ≠ none → a'.deadline ev = q'.timeoutAt ev) :
    Shows q' tqs (Function.update evs t l) a' := by
  refine ⟨?_, ?_, hvalue, hdeadline⟩
  · intro t' ht'
    rw [hmsec, hqueue]
    by_cases htt : t' = t
    · rw [htt, Function.update_self, Function.update_self]
    · have hne : q.msec t' ≠ q.msec t := fun heq => htt (hrep.msec_inj t' ht' t ht heq)
      rw [Function.update_of_ne hne, Function.update_of_ne htt]
      exact h.queue t' ht'
  · intro m hm
    rw [hmsec]
    by_cases hmt : m = q.msec t
    · exact ⟨t, ht, hmt.symm⟩
    · rw [hqueue, Function.update_of_ne hmt] at hm
      exact h.covers m hm

/-- A queue is removed. -/
theorem Shows.remove (h : Shows q tqs evs a) (hrep : TimeoutRep False q 0 tqs evs)
    {m₁ m₂ : List ℕ} (hm : tqs = m₁ ++ t :: m₂) (hmsec : q'.msec = q.msec) {a' : Timeouts}
    (hqueue : a'.queue = Function.update a.queue (q.msec t) [])
    (hvalue : ∀ ev, a'.value ev = (q'.tq ev).map q'.msec)
    (hdeadline : ∀ ev, q'.tq ev ≠ none → a'.deadline ev = q'.timeoutAt ev) :
    Shows q' (m₁ ++ m₂) evs a' := by
  have hnd := hrep.tqs_nodup
  rw [hm] at hnd
  have hnot := (List.nodup_cons.mp (List.nodup_middle.mp hnd)).1
  have hmem : ∀ t', t' ∈ m₁ ++ m₂ ↔ t' ∈ tqs ∧ t' ≠ t := by
    intro t'
    by_cases htt : t' = t
    · rw [htt]
      exact iff_of_false hnot fun hx => hx.2 rfl
    · simp [hm, htt]
  refine ⟨?_, ?_, hvalue, hdeadline⟩
  · intro t' ht'
    obtain ⟨ht', htt⟩ := (hmem t').mp ht'
    have hne : q.msec t' ≠ q.msec t := fun heq =>
      htt (hrep.msec_inj t' ht' t (by simp [hm]) heq)
    rw [hmsec, hqueue, Function.update_of_ne hne]
    exact h.queue t' ht'
  · intro m hne
    rw [hqueue] at hne
    rw [hmsec]
    have hmt : m ≠ q.msec t := by
      rintro rfl
      exact hne (Function.update_self ..)
    rw [Function.update_of_ne hmt] at hne
    obtain ⟨t', ht', heq⟩ := h.covers m hne
    refine ⟨t', (hmem t').mpr ⟨ht', ?_⟩, heq⟩
    rintro rfl
    exact hmt heq.symm

/-- A queue is inserted. -/
theorem Shows.insert (h : Shows q tqs evs a) {m₁ m₂ : List ℕ} (hsplit : tqs = m₁ ++ m₂) {n : ℕ}
    (hn : n ∉ tqs) (hne : ∀ t ∈ tqs, q.msec t ≠ msec) (hmsec : q'.msec = Function.update q.msec n msec)
    {l : List ℕ} {a' : Timeouts} (hqueue : a'.queue = Function.update a.queue msec l)
    (hvalue : ∀ ev, a'.value ev = (q'.tq ev).map q'.msec)
    (hdeadline : ∀ ev, q'.tq ev ≠ none → a'.deadline ev = q'.timeoutAt ev) :
    Shows q' (m₁ ++ n :: m₂) (Function.update evs n l) a' := by
  have hmem : ∀ t', t' ∈ m₁ ++ n :: m₂ ↔ t' = n ∨ t' ∈ tqs := by
    intro t'
    rw [hsplit, List.perm_middle.mem_iff, List.mem_cons]
  have hold : ∀ t' ∈ tqs, t' ≠ n := fun t' ht' heq => hn (heq ▸ ht')
  refine ⟨?_, ?_, hvalue, hdeadline⟩
  · intro t' ht'
    rw [hmsec, hqueue]
    rcases (hmem t').mp ht' with rfl | ht'
    · rw [Function.update_self, Function.update_self, Function.update_self]
    · rw [Function.update_of_ne (hold t' ht'), Function.update_of_ne (hne t' ht'),
        Function.update_of_ne (hold t' ht')]
      exact h.queue t' ht'
  · intro m hm
    rw [hmsec]
    by_cases hmm : m = msec
    · exact ⟨n, (hmem n).mpr (Or.inl rfl), by rw [Function.update_self, hmm]⟩
    · rw [hqueue, Function.update_of_ne hmm] at hm
      obtain ⟨t', ht', heq⟩ := h.covers m hm
      exact ⟨t', (hmem t').mpr (Or.inr ht'), by rw [Function.update_of_ne (hold t' ht'), heq]⟩

/-- `timeout_reset`. -/
theorem Refines.reset (h : Refines events q a) (htq : q.tq ev ≠ none) :
    ∃ q', timeoutReset q ev now = some q' ∧ q'.now = q.now ∧ Refines events q' (a.reset ev now) := by
  obtain ⟨⟨slots, hok⟩, tqs, evs, hrep, hshow⟩ := h
  obtain ⟨t, ht⟩ := Option.ne_none_iff_exists'.mp htq
  have hle : False → (0 : ℤ) ≤ now := False.elim
  obtain ⟨q', hrun, hsame, htq', hmsec, hat, hrep'⟩ := timeoutReset_spec hrep hle ht False.elim
  obtain ⟨q₁, hrun₁, -, -, hok'⟩ := hok.reset hle ht False.elim
  obtain rfl := Option.some.inj (hrun.symm.trans hrun₁)
  have hvalue : a.value ev = some (q.msec t) := by rw [hshow.value, ht]; rfl
  refine ⟨q', hrun, hsame.now, ⟨slots, hok'.mono False.elim⟩, tqs, _, hrep'.mono False.elim, ?_⟩
  have hmem := (hrep.mem_of_tq ht).1
  simp only [Timeouts.reset, hvalue]
  refine hshow.replace hrep hmem hmsec ?_ ?_ ?_
  · rw [hshow.queue t hmem]
  · intro x
    rw [htq', hmsec]
    exact hshow.value x
  · intro x hx
    rw [htq'] at hx
    rw [hat]
    dsimp only
    by_cases hxe : x = ev
    · rw [hxe, Function.update_self, Function.update_self]
    · rw [Function.update_of_ne hxe, Function.update_of_ne hxe]
      exact hshow.deadline x hx

/-- `timeout_del`. -/
theorem Refines.del (h : Refines events q a) (ev : ℕ) :
    (timeoutDel q ev).now = q.now ∧ (timeoutDel q ev).tq ev = none ∧
      Refines events (timeoutDel q ev) (a.del ev) := by
  obtain ⟨⟨slots, hok⟩, tqs, evs, hrep, hshow⟩ := h
  obtain ⟨hsame, htq', hok'⟩ := hok.del ev
  refine ⟨hsame.now, by rw [htq', Function.update_self], ⟨slots, hok'⟩, ?_⟩
  cases ht : q.tq ev with
  | none =>
      have hq : timeoutDel q ev = q := by simp [timeoutDel, ht]
      have ha : a.del ev = a := by simp [Timeouts.del, hshow.value, ht]
      rw [hq, ha]
      exact ⟨tqs, evs, hrep, hshow⟩
  | some t =>
      have hmem := (hrep.mem_of_tq ht).1
      have hvalue : a.value ev = some (q.msec t) := by rw [hshow.value, ht]; rfl
      have hfields : (timeoutDel q ev).msec = q.msec ∧
          (timeoutDel q ev).timeoutAt = q.timeoutAt := by
        by_cases halone : q.prev ev = none ∧ q.next ev = none
        · rw [timeoutDel_of_alone ht halone.1 halone.2]
          exact ⟨rfl, rfl⟩
        · rw [timeoutDel_of_ne ht halone]
          exact ⟨rfl, rfl⟩
      have hvalue' : ∀ x, Function.update a.value ev none x =
          ((timeoutDel q ev).tq x).map (timeoutDel q ev).msec := by
        intro x
        rw [htq', hfields.1]
        by_cases hx : x = ev
        · rw [hx, Function.update_self, Function.update_self]
          rfl
        · rw [Function.update_of_ne hx, Function.update_of_ne hx]
          exact hshow.value x
      have hdeadline' : ∀ x, (timeoutDel q ev).tq x ≠ none →
          a.deadline x = (timeoutDel q ev).timeoutAt x := by
        intro x hx
        rw [htq'] at hx
        have hne : x ≠ ev := by
          rintro rfl
          exact hx (Function.update_self ..)
        rw [Function.update_of_ne hne] at hx
        rw [hfields.2]
        exact hshow.deadline x hx
      simp only [Timeouts.del, hvalue]
      by_cases halone : q.prev ev = none ∧ q.next ev = none
      · obtain ⟨hone, m₁, m₂, hm, hrep'⟩ :=
          timeoutDel_spec_of_alone hrep ht halone.1 halone.2
        refine ⟨m₁ ++ m₂, evs, hrep', hshow.remove hrep hm hfields.1 ?_ hvalue' hdeadline'⟩
        rw [hshow.queue t hmem, hone, List.erase_cons_head]
      · obtain ⟨-, hrep'⟩ := timeoutDel_spec_of_ne hrep ht halone
        refine ⟨tqs, _, hrep', hshow.replace hrep hmem hfields.1 ?_ hvalue' hdeadline'⟩
        rw [hshow.queue t hmem]

/-- `timeout_add`, which fails when there is no slot for a new header. -/
theorem Refines.add (h : Refines events q a) (hev : events ev) (htq : q.tq ev = none)
    (msec now : ℤ) :
    ∃ fuel₀, ∀ fuel, fuel₀ ≤ fuel → ∃ q' res, timeoutAdd fuel q ev msec now = some (q', res) ∧
      q'.now = q.now ∧
      ((res = 0 ∧ Refines events q' (a.add ev msec now)) ∨ (res = -1 ∧ q.evFree = none)) := by
  obtain ⟨⟨slots, hok⟩, tqs, evs, hrep, hshow⟩ := h
  have hle : False → (0 : ℤ) ≤ now := False.elim
  have hov : False → NoOverflow now msec := False.elim
  obtain ⟨fuel₁, hadd⟩ := hok.add hle hev htq hov
  refine ⟨max fuel₁ (tqs.length + 1), fun fuel hfuel => ?_⟩
  obtain ⟨q', res, hrun, hsame, -, hok'⟩ := hadd fuel (le_trans (le_max_left _ _) hfuel)
  refine ⟨q', res, hrun, hsame.now, ?_⟩
  have hlen : tqs.length < fuel := lt_of_lt_of_le (Nat.lt_succ_self _)
    (le_trans (le_max_right _ _) hfuel)
  -- the fields that the two cases below have in common
  have hafter : ∀ t, q'.tq = Function.update q.tq ev (some t) →
      q'.timeoutAt = Function.update q.timeoutAt ev (msecAdd now msec) → q'.msec t = msec →
      (∀ t', t' ∈ tqs → q'.msec t' = q.msec t') →
      (∀ x, (a.add ev msec now).value x = (q'.tq x).map q'.msec) ∧
        ∀ x, q'.tq x ≠ none → (a.add ev msec now).deadline x = q'.timeoutAt x := by
    intro t htq' hat hmsec hothers
    refine ⟨fun x => ?_, fun x hx => ?_⟩
    · rw [htq', Timeouts.add]
      dsimp only
      by_cases hxe : x = ev
      · rw [hxe, Function.update_self, Function.update_self, Option.map_some, hmsec]
      · rw [Function.update_of_ne hxe, Function.update_of_ne hxe, hshow.value]
        cases hx : q.tq x with
        | none => rfl
        | some t' => rw [Option.map_some, Option.map_some, hothers t' (hrep.mem_of_tq hx).1]
    · rw [htq'] at hx
      rw [hat, Timeouts.add]
      dsimp only
      by_cases hxe : x = ev
      · rw [hxe, Function.update_self, Function.update_self]
      · rw [Function.update_of_ne hxe] at hx
        rw [Function.update_of_ne hxe, Function.update_of_ne hxe]
        exact hshow.deadline x hx
  rcases timeoutFind_spec hrep hlen with ⟨p, t, hfind, ht, hm⟩ | ⟨m₁, m₂, hsplit, hfind, hne, hlist⟩
  · obtain ⟨q₁, hrun₁, -, hrep'⟩ := timeoutAdd_spec_of_found hrep hle htq hov hfind ht hm
    obtain ⟨rfl, rfl⟩ := Prod.mk.inj (Option.some.inj (hrun₁.symm.trans hrun))
    have hq := (Prod.mk.inj (Option.some.inj (hrun.symm.trans (timeoutAdd_of_found hfind hm)))).1
    obtain ⟨hvalue, hdeadline⟩ := hafter t (by rw [hq]) (by rw [hq]) (by rw [hq]; exact hm)
      fun t' _ => by rw [hq]
    refine Or.inl ⟨rfl, ⟨slots, hok'.mono False.elim⟩, tqs, _, hrep'.mono False.elim,
      hshow.replace hrep ht (by rw [hq]) ?_ hvalue hdeadline⟩
    rw [Timeouts.add, hm, ← hshow.queue t ht, hm]
  · have ho := head_msec_ne hsplit hne
    cases hfree : q.evFree with
    | none =>
        have hfull := hrun.symm.trans (timeoutAdd_of_full hfind ho hfree)
        exact Or.inr ⟨(Prod.mk.inj (Option.some.inj hfull)).2, rfl⟩
    | some n =>
        obtain ⟨free, hpath, hrole⟩ : ∃ free, Path some q.nextReady q.evFree free none ∧
            ∀ n ∈ free, n ∉ tqs := by
          obtain ⟨tqs', evs', free, hinv, -⟩ := hok
          refine ⟨free, hinv.freeList, fun n hn => ?_⟩
          rw [hrep.tqs_unique hinv.toTimeoutRep]
          exact (hinv.free_role n hn).1
        have hn : n ∉ tqs := by
          obtain ⟨free', rfl⟩ := hpath.eq_cons hfree
          exact hrole n List.mem_cons_self
        obtain ⟨q₁, hrun₁, -, -, -, -, -, -, hrep'⟩ :=
          timeoutAdd_spec_of_new hrep hle htq hov hsplit hfind hne hlist hfree hn
        obtain ⟨rfl, rfl⟩ := Prod.mk.inj (Option.some.inj (hrun₁.symm.trans hrun))
        have hq := (Prod.mk.inj (Option.some.inj
          (hrun.symm.trans (timeoutAdd_of_new hfind ho hfree)))).1
        have hmsec : q₁.msec = Function.update q.msec n msec := by rw [hq]
        have hothers : ∀ t', t' ∈ tqs → q₁.msec t' = q.msec t' := by
          intro t' ht'
          have htn : t' ≠ n := fun heq => hn (heq ▸ ht')
          rw [hmsec, Function.update_of_ne htn]
        obtain ⟨hvalue, hdeadline⟩ := hafter n (by rw [hq]) (by rw [hq])
          (by rw [hmsec, Function.update_self]) hothers
        refine Or.inl ⟨rfl, ⟨slots, hok'.mono False.elim⟩, _, _, hrep'.mono False.elim,
          hshow.insert hsplit hn hne hmsec ?_ hvalue hdeadline⟩
        have hnil : a.queue msec = [] := by
          by_contra hsome
          obtain ⟨t, ht, heq⟩ := hshow.covers msec hsome
          exact hne t ht heq
        rw [Timeouts.add, hnil]
        rfl

/-- `timeout_del` does not take slots from the free list. -/
theorem evFree_of_timeoutDel (h : (timeoutDel q ev).evFree = none) : q.evFree = none := by
  cases ht : q.tq ev with
  | none => simpa [timeoutDel, ht] using h
  | some t =>
      by_cases halone : q.prev ev = none ∧ q.next ev = none
      · rw [timeoutDel_of_alone ht halone.1 halone.2] at h
        exact absurd h (by simp)
      · rw [timeoutDel_of_ne ht halone] at h
        exact h

/-- The end of `evq_set_timeout`. -/
theorem Refines.arm (h : Refines events q a) (hev : events ev) (htq : q.tq ev = none) (msec : ℤ) :
    ∃ fuel₀, ∀ fuel, fuel₀ ≤ fuel → ∃ q' res, evqArmTimeout fuel q ev msec = some (q', res) ∧
      q'.now = q.now ∧
      ((res = 0 ∧ Refines events q' (a.arm ev msec q.now)) ∨ (res = -1 ∧ q.evFree = none)) := by
  by_cases hinf : msec = timeoutInfinite
  · refine ⟨0, fun fuel _ => ⟨q, 0, by simp [evqArmTimeout, hinf], rfl, Or.inl ⟨rfl, ?_⟩⟩⟩
    rw [Timeouts.arm, if_pos hinf]
    exact h
  · simp only [evqArmTimeout, Timeouts.arm, hinf, if_false]
    exact h.add hev htq msec q.now

/-- `evq_set_timeout`. -/
theorem Refines.setTimeout (h : Refines events q a) (hev : events ev) (msec : ℤ) :
    ∃ fuel₀, ∀ fuel, fuel₀ ≤ fuel → ∃ q' res, evqSetTimeout fuel q ev msec = some (q', res) ∧
      q'.now = q.now ∧ ((res = 0 ∧ Refines events q' (a.setTimeout ev msec q.now)) ∨
        (res = -1 ∧ q.evFree = none)) := by
  have hvalue : a.value ev = (q.tq ev).map q.msec := by
    obtain ⟨-, tqs, evs, -, hshow⟩ := h
    exact hshow.value ev
  cases htq : q.tq ev with
  | none =>
      simp only [evqSetTimeout, Timeouts.setTimeout, htq, hvalue, Option.map_none]
      exact h.arm hev htq msec
  | some t =>
      simp only [evqSetTimeout, Timeouts.setTimeout, htq, hvalue, Option.map_some]
      by_cases hm : q.msec t = msec
      · obtain ⟨q', hrun, hnow, href⟩ := h.reset (by rw [htq]; simp)
        exact ⟨0, fun fuel _ => ⟨q', 0, by rw [if_pos hm, hrun]; rfl, hnow,
          Or.inl ⟨rfl, by rw [if_pos hm]; exact href⟩⟩⟩
      · obtain ⟨hnow, hnone, href⟩ := h.del ev
        obtain ⟨fuel₀, harm⟩ := href.arm hev hnone msec
        refine ⟨fuel₀, fun fuel hfuel => ?_⟩
        obtain ⟨q', res, hrun, hnow', hres⟩ := harm fuel hfuel
        rw [if_neg hm, if_neg hm, ← hnow]
        refine ⟨q', res, hrun, hnow', hres.imp id fun hfail => ⟨hfail.1, ?_⟩⟩
        exact evFree_of_timeoutDel hfail.2

theorem Shows.head (h : Shows q tqs evs a) (hrep : TimeoutRep False q 0 tqs evs) (ht : t ∈ tqs) :
    ∃ ev, q.evHead t = some ev ∧ (a.queue (q.msec t)).head? = some ev ∧
      a.deadline ev = q.timeoutAt ev := by
  have hhead := (hrep.lists t ht).head_eq
  cases hl : evs t with
  | nil => exact absurd hl (hrep.nonempty t ht)
  | cons ev l =>
      rw [hl] at hhead
      have htq : q.tq ev = some t := (hrep.tq_iff ev t).mpr ⟨ht, by simp [hl]⟩
      refine ⟨ev, hhead, ?_, h.deadline ev (by simp [htq])⟩
      rw [h.queue t ht, hl]
      rfl

/-- The ends of a wait, read from the links. -/
theorem Shows.mem_ends (h : Shows q tqs evs a) (hrep : TimeoutRep False q 0 tqs evs)
    {min c : ℤ} : c ∈ a.ends min now ↔ (min ≠ timeoutInfinite ∧ c = msecAdd min now) ∨
      ∃ t ∈ tqs, ∃ ev, q.evHead t = some ev ∧ c = q.timeoutAt ev := by
  apply or_congr Iff.rfl
  constructor
  · rintro ⟨m, ev, hhead, rfl⟩
    obtain ⟨t, ht, rfl⟩ := h.covers m (by rintro hnil; simp [hnil] at hhead)
    obtain ⟨ev', hev', hhead', hat⟩ := h.head hrep ht
    obtain rfl := Option.some.inj (hhead.symm.trans hhead')
    exact ⟨t, ht, ev, hev', hat⟩
  · rintro ⟨t, ht, ev, hev, rfl⟩
    obtain ⟨ev', hev', hhead, hat⟩ := h.head hrep ht
    obtain rfl := Option.some.inj (hev.symm.trans hev')
    exact ⟨q.msec t, ev, hhead, hat.symm⟩

/-- `timeout_get`. -/
theorem Refines.get (h : Refines events q a) (min now : ℤ) :
    ∃ fuel₀, ∀ fuel, fuel₀ ≤ fuel →
      ∃ d, timeoutGet fuel q q.tqHead min now = some d ∧ a.Waits min now d := by
  obtain ⟨-, tqs, evs, hrep, hshow⟩ := h
  obtain ⟨tail, hqs⟩ := hrep.queues
  have hhead := hqs.head_eq
  refine ⟨tqs.length, fun fuel hfuel => ?_⟩
  cases tqs with
  | nil =>
      refine ⟨min, by rw [hhead]; rfl, Or.inl ⟨fun m => ?_, rfl⟩⟩
      by_contra hne
      obtain ⟨t, ht, -⟩ := hshow.covers m hne
      exact absurd ht (by simp)
  | cons t l =>
      have hheads : ∀ t' ∈ t :: l, ∃ ev, q.evHead t' = some ev := fun t' ht' =>
        (hshow.head hrep ht').imp fun _ hev => hev.1
      obtain ⟨ev, hev⟩ := hheads t (by simp)
      have hpath := DSeg.forward hqs
      rw [hhead, List.head?_cons] at hpath
      obtain ⟨c, hrun, hc⟩ := timeoutMin_spec hpath hheads (show l.length < fuel from hfuel)
        (if min = timeoutInfinite then q.timeoutAt ev else msecAdd min now)
      refine ⟨_, ?_, Or.inr ⟨c, ⟨q.msec t, ?_⟩, ?_, rfl⟩⟩
      · rw [hhead]
        simp only [List.head?_cons, timeoutGet, hev, Option.bind_eq_bind, Option.bind_some, hrun]
      · rw [hshow.queue t (by simp)]
        exact hrep.nonempty t (by simp)
      -- the loop starts from a value that is one of the ends
      have hstart : (if min = timeoutInfinite then q.timeoutAt ev else msecAdd min now) ∈
          a.ends min now := by
        rw [hshow.mem_ends hrep]
        by_cases hinf : min = timeoutInfinite
        · rw [if_pos hinf]
          exact Or.inr ⟨t, by simp, ev, hev, rfl⟩
        · rw [if_neg hinf]
          exact Or.inl ⟨hinf, rfl⟩
      have hlower : c ∈ lowerBounds (a.ends min now) := by
        intro x hx
        rw [hc]
        rcases (hshow.mem_ends hrep).mp hx with ⟨hinf, rfl⟩ | ⟨t', ht', ev', hev', rfl⟩
        · rw [if_neg hinf]
          exact Or.inl le_rfl
        · exact Or.inr ⟨t', ht', ev', hev', le_rfl⟩
      refine ⟨?_, hlower⟩
      rcases (hc c).mp le_rfl with hle | ⟨t', ht', ev', hev', hle⟩
      · rw [le_antisymm (hlower hstart) hle]
        exact hstart
      · have hmem : q.timeoutAt ev' ∈ a.ends min now :=
          (hshow.mem_ends hrep).mpr (Or.inr ⟨t', ht', ev', hev', rfl⟩)
        rw [le_antisymm (hlower hmem) hle]
        exact hmem

theorem Shows.due_eq (h : Shows q tqs evs a) (hrep : TimeoutRep False q 0 tqs evs) (ht : t ∈ tqs) :
    a.due now (q.msec t) = (evs t).takeWhile fun x => q.timeoutAt x < now + minTimeout := by
  rw [Timeouts.due, h.queue t ht]
  apply takeWhile_congr
  intro x hx
  rw [h.deadline x (by simp [(hrep.tq_iff x t).mpr ⟨ht, hx⟩])]

/-- `timeout_process` marks `fired`, from the last one to the first one, and puts them
before the ready events `r`. -/
structure Activates (q q' : Evq) (r r' : Option ℕ) (fired : List ℕ) : Prop where
  nodup : fired.Nodup
  ready : Path some q'.nextReady r' fired r
  flags : ∀ ev, q'.flags ev =
    if ev ∈ fired then { q.flags ev with active := true, timeoutRes := true } else q.flags ev

/-- `timeout_process`. -/
theorem Refines.process (h : Refines events q a) (r : Option ℕ) (now : ℤ) :
    ∃ fuel₀, ∀ fuel, fuel₀ ≤ fuel →
      ∃ q' r' fired, timeoutProcess fuel q q.tqHead r now = some (q', r') ∧ q'.now = q.now ∧
        Activates q q' r r' fired ∧ (∀ ev, ev ∈ fired ↔ ∃ msec, ev ∈ a.due now msec) ∧
        Refines events q' (a.process now) := by
  obtain ⟨⟨slots, hok⟩, tqs, evs, hrep, hshow⟩ := h
  obtain ⟨fuel₁, hprocess⟩ := hok.process (fun hfalse : False => hfalse.elim) False.elim r
  obtain ⟨N, hN⟩ := exists_bound (fun t => (evs t).length) tqs
  refine ⟨max fuel₁ (tqs.length + N + 1), fun fuel hfuel => ?_⟩
  obtain ⟨q₁, -, r₁, hrun₁, -, -, -, -, -, hok'⟩ :=
    hprocess fuel (le_trans (le_max_left _ _) hfuel)
  have hfuel' : tqs.length + N < fuel := lt_of_lt_of_le (Nat.lt_succ_self _)
    (le_trans (le_max_right _ _) hfuel)
  obtain ⟨q', evs', fired, r', hrun, -, -, hnd, hpath, hfired, hevs, hrep', hexact⟩ :=
    timeoutProcess_spec (hrep.mono False.elim) (List.nil_append tqs).symm False.elim hN hfuel' r
  have hhead : q.tqHead = tqs.head? := hrep.queues.elim fun _ hqs => hqs.head_eq
  rw [← hhead] at hrun
  obtain ⟨rfl, rfl⟩ := Prod.mk.inj (Option.some.inj (hrun.symm.trans hrun₁))
  have hdue : ∀ t ∈ tqs, ∀ ev, ev ∈ evs t → (ev ∈ fired ↔ ev ∈ a.due now (q.msec t)) := by
    intro t ht ev hev
    rw [hexact, hshow.due_eq hrep ht]
    refine ⟨?_, fun hmem => ⟨t, ht, hmem⟩⟩
    rintro ⟨t', ht', hmem⟩
    have h₁ := (hrep.tq_iff ev t).mpr ⟨ht, hev⟩
    have h₂ := (hrep.tq_iff ev t').mpr ⟨ht', (List.takeWhile_sublist _).subset hmem⟩
    rw [Option.some.inj (h₁.symm.trans h₂)]
    exact hmem
  refine ⟨q', r', fired, hrun, hfired.now, ⟨hnd, hpath, hfired.flags⟩, ?_,
    ⟨slots, hok'.mono False.elim⟩, tqs, evs', hrep'.mono False.elim, ?_, ?_, ?_, ?_⟩
  · intro ev
    rw [hexact]
    constructor
    · rintro ⟨t, ht, hmem⟩
      exact ⟨q.msec t, by rw [hshow.due_eq hrep ht]; exact hmem⟩
    · rintro ⟨m, hmem⟩
      obtain ⟨t, ht, rfl⟩ := hshow.covers m fun hnil => by simp [Timeouts.due, hnil] at hmem
      exact ⟨t, ht, by rw [← hshow.due_eq hrep ht]; exact hmem⟩
  · intro t ht
    rw [hfired.queues.msec, hevs, if_pos ht, Timeouts.process]
    dsimp only
    rw [hshow.queue t ht]
    apply recycled_congr
    intro x hx
    exact hshow.deadline x (by simp [(hrep.tq_iff x t).mpr ⟨ht, hx⟩])
  · intro m hm
    rw [hfired.queues.msec]
    apply hshow.covers
    intro hnil
    exact hm (by simp [Timeouts.process, recycled, hnil])
  · intro ev
    rw [hfired.tq, hfired.queues.msec]
    exact hshow.value ev
  · intro ev hev
    rw [hfired.tq] at hev
    obtain ⟨t, htq⟩ := Option.ne_none_iff_exists'.mp hev
    obtain ⟨ht, hmem⟩ := hrep.mem_of_tq htq
    have hvalue : a.value ev = some (q.msec t) := by rw [hshow.value, htq]; rfl
    simp only [Timeouts.process, hvalue]
    rw [hfired.timeoutAt, hrep.rearmAt_eq ht hmem, hshow.deadline ev hev]
    simp only [hdue t ht ev hmem]

end Shows

end LuaSys.Event
