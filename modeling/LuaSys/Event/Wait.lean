import LuaSys.Event.Loop
import LuaSys.Event.TimeoutClock
import LuaSys.Event.TimeoutExpire
import Mathlib.Order.Bounds.Basic

/-!
# Waiting for events

The model of `evq_wait` of `epoll.c`.  It asks `timeout_get` how long it may wait, and
there are two places where it fires timers: at once, by the old clock, when there is
nothing to wait for, and by the new clock when `epoll_wait` comes back with nothing.
If no timer is fired then, it reports a timeout.

The lock of the VM is released while `epoll_wait` waits, and another thread may then
change the queue; so the queue after the wait is part of the environment.  A wait that is
interrupted by a signal comes back with nothing and fires nothing.

## Main definitions

* `WaitEnv` — the outcome of `epoll_wait`, the clock and the queue after it.
* `evqWait` — the function of the source.
* `WaitTime` — how long a wait may last.
* `FiresReached` — the timers whose deadline has been reached are ready.

## Main results

* `timeoutGet_waitTime` — `timeout_get` looks at the heads of the queues only, and finds
  the earliest of all deadlines.
* `evqWait_timers` — a wait neither oversleeps a timer nor gives up early.
-/

namespace LuaSys.Event

open LuaSys.Lib

/-- `SYS_ERR_TIMEOUT`. -/
def sysErrTimeout : ℤ := 1

/-- What `epoll_wait` returns: `-1`, with `errno` set to `EINTR` or not; or for each
descriptor that is ready the events it activates, with their results.  The descriptor
of the signals may activate any number of events. -/
inductive EpollResult
  | failed (eintr : Bool)
  | ready (reports : List (List (ℕ × EventFlags)))

/-- What one `evq_wait` meets. -/
structure WaitEnv where
  epoll : EpollResult
  /-- `sys_milliseconds ()` after the wait. -/
  clock : ℤ
  /-- The queue after the wait. -/
  wake : EvqState

namespace EvqState

/-- The loop over the descriptors that are ready. -/
def activateAll (s : EvqState) (now : ℤ) : List (ℕ × EventFlags) → Option EvqState
  | [] => some s
  | (ev, res) :: reports => (s.activate ev res now).bind fun s => s.activateAll now reports

/-- The part of `evq_wait` for `nready = 0`. -/
def pollExpire (fuel : ℕ) (s : EvqState) : Option (EvqState × ℤ) :=
  if s.q.tqHead.isSome then do
    let (q, evReady) ← timeoutProcess fuel s.q s.q.tqHead s.q.evReady s.q.now
    if evReady ≠ s.q.evReady then some ({ s with q := { q with evReady := evReady } }, 0)
    else some ({ s with q := q }, sysErrTimeout)
  else some (s, sysErrTimeout)

/-- `evq_wait` from `epoll_wait` on. -/
def evqPoll (fuel : ℕ) (env : WaitEnv) (timeout : ℤ) : Option (EvqState × ℤ) :=
  let s := { env.wake with q := { env.wake.q with now := env.clock } }
  match env.epoll with
  | .failed eintr => some (s, if eintr then 0 else -1)
  | .ready reports =>
      if timeout ≠ timeoutInfinite ∧ reports = [] then s.pollExpire fuel
      else
        let now := if timeout = timeoutInfinite then timeout else s.q.now
        (s.activateAll now reports.flatten).map fun s => (s, 0)

/-- `evq_wait`: its result and the queue. -/
def evqWait (fuel : ℕ) (s : EvqState) (env : WaitEnv) (timeout : ℤ) : Option (EvqState × ℤ) :=
  if timeout = 0 then evqPoll fuel env timeout
  else do
    let timeout ← timeoutGet fuel s.q s.q.tqHead timeout s.q.now
    if timeout = 0 then
      let (q, evReady) ← timeoutProcess fuel s.q s.q.tqHead none s.q.now
      some ({ s with q := { q with evReady := evReady } }, 0)
    else evqPoll fuel env timeout

end EvqState

/-! ## How long to wait -/

/-- The deadlines of all events of the queues. -/
def deadlines (q : Evq) (tqs : List ℕ) (evs : ℕ → List ℕ) : Set ℤ :=
  { c | ∃ t ∈ tqs, ∃ ev ∈ evs t, q.timeoutAt ev = c }

/-- How long a wait may last when the user allows `timeout`: that long without timers,
and otherwise not beyond the earliest deadline. -/
def WaitTime (q : Evq) (tqs : List ℕ) (evs : ℕ → List ℕ) (timeout d : ℤ) : Prop :=
  tqs = [] ∧ d = timeout ∨
    ∃ earliest, IsLeast (deadlines q tqs evs) earliest ∧
      d = max 0 (min maxTimeout
        (if timeout = timeoutInfinite then earliest - q.now
          else min timeout (earliest - q.now)))

section WaitTime

variable {q : Evq} {latest : ℤ} {tqs l : List ℕ} {evs : ℕ → List ℕ} {t ev : ℕ} {timeout : ℤ}

/-- The first event of a queue has its earliest deadline. -/
theorem TimeoutRep.head_le (h : TimeoutRep True q latest tqs evs) (ht : t ∈ tqs) :
    ∃ a ∈ evs t, q.evHead t = some a ∧ ∀ ev ∈ evs t, q.timeoutAt a ≤ q.timeoutAt ev := by
  have hhead := (h.lists t ht).head_eq
  have hsorted := h.sorted trivial t ht
  cases hl : evs t with
  | nil => exact absurd hl (h.nonempty t ht)
  | cons a l =>
      rw [hl] at hhead hsorted
      refine ⟨a, List.mem_cons_self, hhead, fun ev hev => ?_⟩
      rcases List.mem_cons.mp hev with rfl | hev
      · exact le_rfl
      · exact (List.pairwise_cons.mp hsorted).1 ev hev

theorem TimeoutRep.headPath (h : TimeoutRep True q latest tqs evs) (htqs : tqs = t :: l) :
    q.tqHead = some t ∧ Path some q.tqNext (some t) (t :: l) none := by
  obtain ⟨tail, hqs⟩ := h.queues
  subst htqs
  have hhead := hqs.head_eq
  have hforward := DSeg.forward hqs
  rw [hhead] at hforward
  exact ⟨hhead, hforward⟩

/-- The earliest deadline, found at the heads of the queues. -/
theorem TimeoutRep.exists_earliest (h : TimeoutRep True q latest tqs evs) (hne : tqs ≠ []) :
    ∃ e, IsLeast (deadlines q tqs evs) e ∧
      ∀ c, e ≤ c ↔ ∃ t ∈ tqs, ∃ a, q.evHead t = some a ∧ q.timeoutAt a ≤ c := by
  obtain ⟨t, l, htqs⟩ := List.exists_cons_of_ne_nil hne
  have hheads : ∀ t' ∈ t :: l, ∃ a, q.evHead t' = some a := fun t' ht' =>
    (h.head_le (htqs ▸ ht')).imp fun _ ha => ha.2.1
  obtain ⟨a, -, ha, -⟩ := h.head_le (t := t) (by simp [htqs])
  obtain ⟨e, -, he⟩ :=
    timeoutMin_spec (h.headPath htqs).2 hheads (Nat.lt_succ_self l.length) (q.timeoutAt a)
  rw [← htqs] at he
  have hiff : ∀ c, e ≤ c ↔ ∃ t ∈ tqs, ∃ a, q.evHead t = some a ∧ q.timeoutAt a ≤ c := by
    intro c
    rw [he]
    exact or_iff_right_of_imp fun hle => ⟨t, by simp [htqs], a, ha, hle⟩
  refine ⟨e, ⟨?_, ?_⟩, hiff⟩
  · obtain ⟨t', ht', a', ha', hle⟩ := (hiff e).mp le_rfl
    obtain ⟨b, hb, hb', -⟩ := h.head_le ht'
    obtain rfl : b = a' := Option.some.inj (hb'.symm.trans ha')
    exact ⟨t', ht', b, hb, le_antisymm hle ((hiff _).mpr ⟨t', ht', b, ha', le_rfl⟩)⟩
  · rintro c ⟨t', ht', ev, hev, rfl⟩
    obtain ⟨b, -, hb, hle⟩ := h.head_le ht'
    exact (hiff _).mpr ⟨t', ht', b, hb, hle ev hev⟩

/-- `timeout_get` looks at the first event of each queue only, but what it returns is
determined by the earliest deadline of all events. -/
theorem timeoutGet_waitTime (h : TimeoutRep True q latest tqs evs)
    (hov : timeout ≠ timeoutInfinite → NoOverflow timeout q.now) :
    ∃ d, WaitTime q tqs evs timeout d ∧
      ∀ fuel, tqs.length ≤ fuel → timeoutGet fuel q q.tqHead timeout q.now = some d := by
  cases htqs : tqs with
  | nil =>
      have hhead : q.tqHead = none := h.queues.elim fun _ hqs => by rw [hqs.head_eq, htqs]; rfl
      exact ⟨timeout, Or.inl ⟨rfl, rfl⟩, fun fuel _ => by rw [hhead]; rfl⟩
  | cons t l =>
      obtain ⟨e, hleast, he⟩ := h.exists_earliest (by simp [htqs])
      obtain ⟨hhead, hpath⟩ := h.headPath htqs
      have hheads : ∀ t' ∈ t :: l, ∃ a, q.evHead t' = some a := fun t' ht' =>
        (h.head_le (htqs ▸ ht')).imp fun _ ha => ha.2.1
      obtain ⟨a, ha⟩ := hheads t List.mem_cons_self
      have hea : e ≤ q.timeoutAt a := (he _).mpr ⟨t, by simp [htqs], a, ha, le_rfl⟩
      rw [htqs] at he hleast
      refine ⟨_, Or.inr ⟨e, hleast, rfl⟩, fun fuel hfuel => ?_⟩
      obtain ⟨m, hrun, hm⟩ := timeoutMin_spec hpath hheads (show l.length < fuel from hfuel)
        (if timeout = timeoutInfinite then q.timeoutAt a else msecAdd timeout q.now)
      have hmin : m = min (if timeout = timeoutInfinite then q.timeoutAt a
          else msecAdd timeout q.now) e := by
        apply eq_of_forall_ge_iff
        intro c
        rw [hm, ← he, min_le_iff]
      have hd : m - q.now = if timeout = timeoutInfinite then e - q.now
          else min timeout (e - q.now) := by
        rw [hmin]
        by_cases hinf : timeout = timeoutInfinite
        · rw [if_pos hinf, if_pos hinf]
          omega
        · rw [if_neg hinf, if_neg hinf, msecAdd_eq (hov hinf)]
          omega
      rw [hhead]
      simp only [timeoutGet, ha, Option.bind_eq_bind, Option.bind_some, hrun, ← hd, maxTimeout]
      congr 1
      omega

end WaitTime

/-! ## What a wait does to the timers -/

/-- The timers whose deadline has been reached at the time `now` are ready. -/
def FiresReached (q : Evq) (tqs : List ℕ) (evs : ℕ → List ℕ) (now : ℤ) (q' : Evq) : Prop :=
  ∃ ready, Path some q'.nextReady q'.evReady ready none ∧
    ∀ t ∈ tqs, ∀ ev ∈ evs t, q.timeoutAt ev ≤ now → ev ∈ ready

/-- No timer has been taken away or put off without another one that is as early. -/
def TimersKept (q : Evq) (tqs : List ℕ) (evs : ℕ → List ℕ) (q' : Evq) (tqs' : List ℕ)
    (evs' : ℕ → List ℕ) : Prop :=
  ∀ t ∈ tqs, ∀ ev ∈ evs t, ∃ t' ∈ tqs', ∃ ev' ∈ evs' t', q'.timeoutAt ev' ≤ q.timeoutAt ev

/-- A well formed queue with its ready events, at a time without overflow. -/
structure WellTimed (q : Evq) (now : ℤ) (tqs : List ℕ) (evs : ℕ → List ℕ) (ready : List ℕ) :
    Prop where
  rep : TimeoutRep True q now tqs evs
  noOverflow : ∀ t ∈ tqs, NoOverflow now (q.msec t)
  path : Path some q.nextReady q.evReady ready none
  notMem : ∀ t ∈ tqs, ∀ ev ∈ evs t, ev ∉ ready

section Wait

variable {s : EvqState} {tqs : List ℕ} {evs : ℕ → List ℕ} {ready : List ℕ} {timeout : ℤ}

/-- The fields of the timers do not depend on the clock. -/
theorem WellTimed.setNow {q : Evq} {now : ℤ} (h : WellTimed q now tqs evs ready) (c : ℤ) :
    WellTimed { q with now := c } now tqs evs ready :=
  ⟨⟨h.rep.queues, h.rep.msec_inj, h.rep.nonempty, h.rep.lists, h.rep.tq_iff, h.rep.sorted,
    h.rep.deadline_le, h.rep.map_iff, h.rep.list_sorted⟩, h.noOverflow, h.path, h.notMem⟩

/-- A wait that has come back with nothing: the timers whose deadline has been reached
are ready, and a timeout is reported only if no timer is due. -/
theorem EvqState.pollExpire_spec (h : WellTimed s.q s.q.now tqs evs ready) :
    ∃ fuel₀, ∀ fuel, fuel₀ ≤ fuel → ∃ s' res, s.pollExpire fuel = some (s', res) ∧
      s'.q.now = s.q.now ∧ FiresReached s.q tqs evs s.q.now s'.q ∧
      (res = sysErrTimeout → ∀ t ∈ tqs, ∀ ev ∈ evs t, ¬s.q.timeoutAt ev < s.q.now + minTimeout) := by
  obtain ⟨fuel₀, hprocess⟩ := timeoutProcess_expires h.rep h.noOverflow h.path h.notMem
  refine ⟨fuel₀, fun fuel hfuel => ?_⟩
  obtain ⟨q', r', fired, hrun, hpath, hexp⟩ := hprocess fuel hfuel
  have hreached : ∀ t ∈ tqs, ∀ ev ∈ evs t, s.q.timeoutAt ev ≤ s.q.now → ev ∈ fired ++ ready := by
    intro t ht ev hev hle
    refine List.mem_append_left _ ((hexp.mem_iff ev).mpr ⟨⟨t, ht, hev⟩, ?_⟩)
    simp only [minTimeout]
    omega
  have hhead : s.q.tqHead = tqs.head? := h.rep.queues.elim fun _ hqs => hqs.head_eq
  by_cases hsome : s.q.tqHead.isSome
  · by_cases hr : r' = s.q.evReady
    · -- The list of ready events is the same, so nothing has been fired.
      have hfired : fired = [] := by
        by_contra hne
        obtain ⟨a, f, rfl⟩ := List.exists_cons_of_ne_nil hne
        obtain ⟨⟨t, ht, hev⟩, -⟩ := (hexp.mem_iff a).mp List.mem_cons_self
        have ha : s.q.evReady = some a := hr ▸ hpath.1
        obtain ⟨l, rfl⟩ := h.path.eq_cons ha
        exact h.notMem t ht a hev List.mem_cons_self
      refine ⟨{ s with q := q' }, sysErrTimeout, ?_, hexp.now, ⟨_, ?_, hreached⟩, ?_⟩
      · simp [EvqState.pollExpire, hsome, hrun, hr]
      · rw [hexp.evReady, ← hr]
        exact hpath
      · intro _ t ht ev hev hlt
        have hmem := (hexp.mem_iff ev).mpr ⟨⟨t, ht, hev⟩, hlt⟩
        rw [hfired] at hmem
        exact absurd hmem (by simp)
    · refine ⟨{ s with q := { q' with evReady := r' } }, 0, ?_, hexp.now, ⟨_, hpath, hreached⟩, ?_⟩
      · simp [EvqState.pollExpire, hsome, hrun, hr]
      · exact fun hres => absurd hres (by decide)
  · have hnil : tqs = [] := by simpa [hhead] using hsome
    refine ⟨s, sysErrTimeout, by rw [EvqState.pollExpire, if_neg hsome], rfl,
      ⟨ready, h.path, ?_⟩, ?_⟩ <;> simp [hnil]

/-- A wait with nothing to wait for fires the timers by the old clock. -/
theorem EvqState.evqWait_now (h : TimeoutRep True s.q s.q.now tqs evs)
    (hmsec : ∀ t ∈ tqs, NoOverflow s.q.now (s.q.msec t)) (hne : timeout ≠ 0)
    (hget : ∀ fuel, tqs.length ≤ fuel →
      timeoutGet fuel s.q s.q.tqHead timeout s.q.now = some 0) (env : WaitEnv) :
    ∃ fuel₀, ∀ fuel, fuel₀ ≤ fuel → ∃ s', EvqState.evqWait fuel s env timeout = some (s', 0) ∧
      s'.q.now = s.q.now ∧ FiresReached s.q tqs evs s.q.now s'.q := by
  obtain ⟨fuel₀, hprocess⟩ := timeoutProcess_expires h hmsec (path_nil.mpr (Eq.refl none)) (by simp)
  refine ⟨fuel₀ + tqs.length, fun fuel hfuel => ?_⟩
  obtain ⟨q', r', fired, hrun, hpath, hexp⟩ := hprocess fuel (by omega)
  refine ⟨{ s with q := { q' with evReady := r' } }, ?_, hexp.now, _, hpath, ?_⟩
  · simp [EvqState.evqWait, hne, hget fuel (by omega), hrun]
  · intro t ht ev hev hle
    refine List.mem_append_left _ ((hexp.mem_iff ev).mpr ⟨⟨t, ht, hev⟩, ?_⟩)
    simp only [minTimeout]
    omega

/-- When an allowed time `d` has elapsed and the timers are still there, either a deadline
has been reached or the time that the user allows has elapsed. -/
theorem WaitTime.elapsed {q : Evq} {clock d : ℤ} (h : WaitTime q tqs evs timeout d)
    (hrep : TimeoutRep True q q.now tqs evs) (hmsec : ∀ t ∈ tqs, q.msec t ≤ maxTimeout)
    (htimeout : timeout ≤ maxTimeout) (hd : d ≠ 0) (hinf : d ≠ timeoutInfinite)
    (hclock : q.now + d ≤ clock) :
    (∃ t ∈ tqs, ∃ ev ∈ evs t, q.timeoutAt ev ≤ clock) ∨
      timeout ≠ timeoutInfinite ∧ q.now + timeout ≤ clock := by
  rcases h with ⟨-, rfl⟩ | ⟨e, hleast, rfl⟩
  · exact Or.inr ⟨hinf, hclock⟩
  · obtain ⟨t, ht, ev, hev, heq⟩ := hleast.1
    have hle := hrep.deadline_le trivial t ht ev hev
    have hmax := hmsec t ht
    by_cases hforever : timeout = timeoutInfinite
    · rw [if_pos hforever] at hd hclock
      exact Or.inl ⟨t, ht, ev, hev, by omega⟩
    · rw [if_neg hforever] at hd hclock
      by_cases hfirst : timeout ≤ e - q.now
      · exact Or.inr ⟨hforever, by omega⟩
      · exact Or.inl ⟨t, ht, ev, hev, by omega⟩

/-- **A wait neither oversleeps a timer nor gives up early.**  `timeout_get` allows the
time the user allows, but not beyond the earliest of all deadlines.  If that leaves no
time, the timers whose deadline has been reached are ready at once.  If `epoll_wait` comes
back with nothing after that time, the timers whose deadline has been reached are ready,
and a timeout is reported only if there is none and, unless another thread has taken
away or put off a timer in the meantime, the time the user allows has elapsed. -/
theorem evqWait_timers {s : EvqState} {tqs : List ℕ} {evs : ℕ → List ℕ} {timeout : ℤ}
    (h : TimeoutRep True s.q s.q.now tqs evs)
    (hmsec : ∀ t ∈ tqs, NoOverflow s.q.now (s.q.msec t) ∧ s.q.msec t ≤ maxTimeout)
    (htimeout : timeout = timeoutInfinite ∨ 0 < timeout ∧ timeout ≤ maxTimeout)
    (hov : timeout ≠ timeoutInfinite → NoOverflow timeout s.q.now) :
    ∃ d, WaitTime s.q tqs evs timeout d ∧
      (∀ fuel, tqs.length ≤ fuel →
        timeoutGet fuel s.q s.q.tqHead timeout s.q.now = some d) ∧
      (d = 0 → ∀ env, ∃ fuel₀, ∀ fuel, fuel₀ ≤ fuel → ∃ s',
        EvqState.evqWait fuel s env timeout = some (s', 0) ∧ s'.q.now = s.q.now ∧
          FiresReached s.q tqs evs s'.q.now s'.q) ∧
      (d ≠ 0 → d ≠ timeoutInfinite → ∀ (env : WaitEnv) tqs' evs' ready, env.epoll = .ready [] →
        WellTimed env.wake.q env.clock tqs' evs' ready → s.q.now + d ≤ env.clock →
        ∃ fuel₀, ∀ fuel, fuel₀ ≤ fuel → ∃ s' res,
          EvqState.evqWait fuel s env timeout = some (s', res) ∧ s'.q.now = env.clock ∧
            FiresReached env.wake.q tqs' evs' s'.q.now s'.q ∧
            (res = sysErrTimeout →
              (∀ t ∈ tqs', ∀ ev ∈ evs' t, s'.q.now < env.wake.q.timeoutAt ev) ∧
                (TimersKept s.q tqs evs env.wake.q tqs' evs' →
                  timeout ≠ timeoutInfinite ∧ s.q.now + timeout ≤ s'.q.now))) := by
  have hne : timeout ≠ 0 := by
    rcases htimeout with rfl | hpos
    · decide
    · omega
  have hle : timeout ≤ maxTimeout := by
    rcases htimeout with rfl | hpos
    · decide
    · exact hpos.2
  obtain ⟨d, hwait, hget⟩ := timeoutGet_waitTime h hov
  refine ⟨d, hwait, hget, ?_, ?_⟩
  · rintro rfl env
    obtain ⟨fuel₀, hnow⟩ := EvqState.evqWait_now h (fun t ht => (hmsec t ht).1) hne hget env
    refine ⟨fuel₀, fun fuel hfuel => ?_⟩
    obtain ⟨s', hrun, hsame, hfires⟩ := hnow fuel hfuel
    exact ⟨s', hrun, hsame, hsame ▸ hfires⟩
  · intro hd hinf env tqs' evs' ready hepoll hwell hclock
    obtain ⟨w, hw⟩ : ∃ w : EvqState,
        w = { env.wake with q := { env.wake.q with now := env.clock } } := ⟨_, rfl⟩
    have hwake : WellTimed w.q w.q.now tqs' evs' ready := by
      subst hw
      exact hwell.setNow env.clock
    obtain ⟨fuel₀, hexpire⟩ := EvqState.pollExpire_spec hwake
    refine ⟨fuel₀ + tqs.length, fun fuel hfuel => ?_⟩
    obtain ⟨s', res, hrun, hnow, hfires, hres⟩ := hexpire fuel (by omega)
    have hnow' : s'.q.now = env.clock := by rw [hnow, hw]
    have hat : w.q.timeoutAt = env.wake.q.timeoutAt := by rw [hw]
    refine ⟨s', res, ?_, hnow', ?_, fun hres' => ?_⟩
    · simp only [EvqState.evqWait, if_neg hne, hget fuel (by omega), Option.bind_eq_bind,
        Option.bind_some, if_neg hd, EvqState.evqPoll, hepoll, ← hw]
      rw [if_pos ⟨hinf, trivial⟩]
      exact hrun
    · obtain ⟨l, hl, hall⟩ := hfires
      refine ⟨l, hl, fun t ht ev hev hreached => hall t ht ev hev ?_⟩
      rw [hat, ← hnow]
      exact hreached
    · have hnone : ∀ t ∈ tqs', ∀ ev ∈ evs' t, s'.q.now < env.wake.q.timeoutAt ev := by
        intro t ht ev hev
        have hnot := hres hres' t ht ev hev
        rw [hat, ← hnow] at hnot
        simp only [minTimeout] at hnot
        omega
      refine ⟨hnone, fun hkept => ?_⟩
      rw [hnow']
      refine (hwait.elapsed h (fun t ht => (hmsec t ht).2) hle hd hinf hclock).resolve_left ?_
      rintro ⟨t, ht, ev, hev, hreached⟩
      obtain ⟨t', ht', ev', hev', hearly⟩ := hkept t ht ev hev
      have := hnone t' ht' ev' hev'
      omega

end Wait

/-- A queue with one timer of 100 milliseconds, in slot 0, with its header in slot 1. -/
def oneTimerQueue (now deadline : ℤ) : Evq where
  nextReady _ := none
  prev _ := none
  next _ := none
  tq ev := if ev = 0 then some 1 else none
  timeoutAt _ := deadline
  flags _ := {}
  registered _ := true
  tqPrev _ := none
  tqNext _ := none
  evHead _ := some 0
  evTail _ := some 0
  msec _ := 100
  now := now
  evReady := none
  evFree := none
  tqHead := some 1
  tqMapFn := false
  tqMap _ := none

/-- A queue with one timer of 100 milliseconds. -/
def oneTimer (now deadline : ℤ) : EvqState where
  q := { oneTimerQueue now deadline with flags := fun _ => { timer := true } }
  nslots := 2
  live ev := ev = 0
  adding := []
  syncOps := []
  syncTaken := []
  opL _ := false
  coros := []

theorem oneTimer_rep {now deadline : ℤ} (hle : deadline ≤ now + 100) :
    TimeoutRep True (oneTimer now deadline).q now [1] fun _ => [0] := by
  refine ⟨⟨some 1, rfl, rfl, rfl, rfl⟩, by simp, by simp, ?_, ?_, by simp, ?_, ?_, by simp⟩
  · exact fun _ _ => ⟨rfl, rfl, rfl, rfl⟩
  · intro ev t
    by_cases hev : ev = 0 <;> simp [oneTimer, oneTimerQueue, hev, eq_comm]
  · simpa [oneTimer, oneTimerQueue] using hle
  · simp [oneTimer, oneTimerQueue]

theorem oneTimer_wellTimed {now deadline clock : ℤ} (hle : deadline ≤ now + 100)
    (hclock : now ≤ clock) (hov : NoOverflow clock 100) :
    WellTimed (oneTimer now deadline).q clock [1] (fun _ => [0]) [] :=
  ⟨(oneTimer_rep hle).mono fun _ => hclock, fun _ _ => hov, rfl, by simp⟩

/-- The wait for the timer. -/
theorem oneTimer_waitTime {now deadline timeout d : ℤ}
    (h : WaitTime (oneTimer now deadline).q [1] (fun _ => [0]) timeout d)
    (hfin : timeout ≠ timeoutInfinite) :
    d = max 0 (min maxTimeout (min timeout (deadline - now))) := by
  rcases h with ⟨hnil, -⟩ | ⟨e, ⟨⟨t, -, ev, -, rfl⟩, -⟩, hd⟩
  · exact absurd hnil (by simp)
  · rw [if_neg hfin] at hd
    exact hd

/-- A wait of 100 milliseconds for a timer, which is ready then. -/
theorem evqWait_timers_oneTimer : ∃ fuel₀, ∀ fuel, fuel₀ ≤ fuel → ∃ s' res,
    EvqState.evqWait fuel (oneTimer 0 100) ⟨.ready [], 100, oneTimer 0 100⟩ 1000 = some (s', res) ∧
      s'.q.now = 100 ∧ FiresReached (oneTimer 0 100).q [1] (fun _ => [0]) 100 s'.q := by
  have htimeout : (1000 : ℤ) = timeoutInfinite ∨ 0 < (1000 : ℤ) ∧ 1000 ≤ maxTimeout :=
    Or.inr (by decide)
  have hmsec : NoOverflow 0 100 ∧ (100 : ℤ) ≤ maxTimeout := ⟨by simp [NoOverflow], by decide⟩
  obtain ⟨d, hwait, -, -, hpoll⟩ :=
    evqWait_timers (s := oneTimer 0 100) (oneTimer_rep (by decide)) (fun _ _ => hmsec) htimeout
      fun _ => show NoOverflow 1000 0 by simp [NoOverflow]
  obtain rfl : d = 100 := by
    rw [oneTimer_waitTime hwait (by decide)]
    decide
  obtain ⟨fuel₀, hall⟩ := hpoll (by decide) (by decide) ⟨.ready [], 100, oneTimer 0 100⟩ [1]
    (fun _ => [0]) [] rfl
    (oneTimer_wellTimed (by decide) (by decide) (by simp [NoOverflow])) (by decide)
  refine ⟨fuel₀, fun fuel hfuel => ?_⟩
  obtain ⟨s', res, hrun, hnow, hfires, -⟩ := hall fuel hfuel
  rw [hnow] at hfires
  exact ⟨s', res, hrun, hnow, hfires⟩

/-- No descriptor becomes ready, and the clock advances by what the wait allows; but an
interrupted wait fires nothing.  And a wait gives up early when another thread restarts
the timer with `evq:notify` after `epoll_wait` has come back with nothing, and before the
thread that waits has the lock of the VM again. -/
theorem interrupted_wait_oversleeps :
    (TimeoutRep True (oneTimer 0 100).q 0 [1] (fun _ => [0]) ∧
      timeoutGet 2 (oneTimer 0 100).q (some 1) 1000 0 = some 100 ∧
      ∃ s', EvqState.evqWait 2 (oneTimer 0 100) ⟨.failed true, 100, oneTimer 0 100⟩ 1000 =
          some (s', 0) ∧ s'.q.timeoutAt 0 ≤ s'.q.now ∧ s'.q.evReady = none) ∧
      TimeoutRep True (oneTimer 0 10).q 0 [1] (fun _ => [0]) ∧
        timeoutGet 2 (oneTimer 0 10).q (some 1) 1000 0 = some 10 ∧
        ∃ wake s', (oneTimer 0 10).levqNotify 0 = some wake ∧
          EvqState.evqWait 2 (oneTimer 0 10) ⟨.ready [], 10, wake⟩ 1000 =
            some (s', sysErrTimeout) ∧ s'.q.now < 0 + 1000 := by
  exact ⟨⟨oneTimer_rep (by decide), by decide, _, rfl, by decide, rfl⟩, oneTimer_rep (by decide),
    by decide, _, _, rfl, rfl, by decide⟩

end LuaSys.Event
