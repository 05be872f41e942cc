import LuaSys.Event.TimeoutProcess
import Mathlib.Data.List.TakeWhile
import Mathlib.Data.Set.Basic

/-!
# Timeouts and the clock

The clock and the deadlines are values of type `msec_t`, 32 bits wide, and wrap around
every 49.7 days.  `timeout_get` and `timeout_process` convert them to `long` before they
compare them, so a deadline that has wrapped around looks long past, and one of before
the wrap looks far away.

What a timer should do depends on the time that remains to its deadline, `remaining`,
which a shift of the clock leaves alone.

## Main definitions

* `TimersNear q tqs evs` — well formed queues whose deadlines are within `2 ^ 30` of the
  clock.
* `Evq.shiftClock` — the clock and the deadlines moved by a constant.
* `SameTimers` — `timeout_get` and `timeout_process` have the same results.
* `LooksPast` — how a comparison with a deadline comes out, by the time that remains.
* `NoWait`, `Missed`, `Early` — what a clock makes of the deadlines, and `SameSide`, two clocks
  that make the same of them.
* `FiresByElapsed` — a timer fires when its period has elapsed.

## Main results

* `mem_dueEvents_iff`, `timeoutGet_spec` — the results, by the time that remains.
* `clock_independent_iff` — when a shift of the clock leaves the results alone, and when timers
  fire by the time elapsed.
* `wrapped_timer_fires_early` — a timer across the wrap point.
-/

namespace LuaSys.Event

open LuaSys.Lib

/-! ## The time that remains -/

/-- The time to the deadline of an event, as a value of type `msec_t`. -/
def Evq.remaining (q : Evq) (ev : ℕ) : ℤ := int32 (q.timeoutAt ev - q.now)

/-- The clock and all deadlines moved by `k`. -/
def Evq.shiftClock (q : Evq) (k : ℤ) : Evq :=
  { q with now := int32 (q.now + k), timeoutAt := fun ev => int32 (q.timeoutAt ev + k) }

@[simp] theorem shiftClock_remaining (q : Evq) (k : ℤ) : (q.shiftClock k).remaining = q.remaining := by
  funext ev
  simp only [Evq.remaining, Evq.shiftClock, int32]
  omega

/-- Well formed timeout queues near the clock: the events of a queue are in the order of
the time that remains, none of them has more of it than its period, and none is further
than `2 ^ 30` from the clock. -/
structure TimersNear (q : Evq) (tqs : List ℕ) (evs : ℕ → List ℕ) : Prop
    extends TimeoutRep False q 0 tqs evs where
  now_range : -2 ^ 31 ≤ q.now ∧ q.now < 2 ^ 31
  at_range : ∀ t ∈ tqs, ∀ ev ∈ evs t, -2 ^ 31 ≤ q.timeoutAt ev ∧ q.timeoutAt ev < 2 ^ 31
  msec_range : ∀ t ∈ tqs, 0 ≤ q.msec t ∧ q.msec t < 2 ^ 30
  near : ∀ t ∈ tqs, ∀ ev ∈ evs t, -2 ^ 30 ≤ q.remaining ev ∧ q.remaining ev ≤ 2 ^ 30
  not_later : ∀ t ∈ tqs, ∀ ev ∈ evs t, q.remaining ev ≤ q.msec t
  by_remaining : ∀ t ∈ tqs, (evs t).Pairwise fun a b => q.remaining a ≤ q.remaining b

/-- The deadline in `r` milliseconds is less than `m` away for a clock of `c`: it is, and it
does not lie before the wrap point, or it lies beyond the next one. -/
def LooksPast (c r m : ℤ) : Prop := r < m ∧ -2 ^ 31 ≤ c + r ∨ 2 ^ 31 ≤ c + r

/-- The comparisons of `timeout_get` and `timeout_process`, in terms of the time that
remains. -/
theorem lt_iff_looksPast {c r m : ℤ} (hc : -2 ^ 31 ≤ c ∧ c < 2 ^ 31) (hr : -2 ^ 30 ≤ r ∧ r ≤ 2 ^ 30)
    (hm : 0 ≤ m ∧ m ≤ 2 ^ 30) : int32 (c + r) < c + m ↔ LooksPast c r m := by
  simp only [int32, LooksPast]
  omega

theorem le_iff_looksPast {c r : ℤ} (hc : -2 ^ 31 ≤ c ∧ c < 2 ^ 31) (hr : -2 ^ 30 ≤ r ∧ r ≤ 2 ^ 30) :
    int32 (c + r) ≤ c ↔ LooksPast c r 1 := by
  rw [← lt_iff_looksPast hc hr (by omega), Int.lt_add_one_iff]

/-- A deadline that does not look past is as far away as it is, or further than
`timeout_get` looks. -/
theorem le_add_iff {c r x : ℤ} (hc : -2 ^ 31 ≤ c ∧ c < 2 ^ 31) (hr : -2 ^ 30 ≤ r ∧ r ≤ 2 ^ 30)
    (hpast : ¬LooksPast c r 1) (hx : x < 2 ^ 31 - 1) : int32 (c + r) ≤ c + x ↔ 0 < r ∧ r ≤ x := by
  simp only [int32, LooksPast] at *
  omega

namespace TimersNear

variable {q : Evq} {tqs : List ℕ} {evs : ℕ → List ℕ} {t ev : ℕ}

theorem timeoutAt_eq (h : TimersNear q tqs evs) (ht : t ∈ tqs) (hev : ev ∈ evs t) :
    q.timeoutAt ev = int32 (q.now + q.remaining ev) := by
  have := h.at_range t ht ev hev
  simp only [Evq.remaining, int32]
  omega

/-- A shift of the clock keeps the queues well formed. -/
theorem shift (h : TimersNear q tqs evs) (k : ℤ) : TimersNear (q.shiftClock k) tqs evs := by
  refine ⟨⟨h.queues, h.msec_inj, h.nonempty, h.lists, h.tq_iff, False.elim, False.elim, h.map_iff,
    h.list_sorted⟩, int32_range _, fun _ _ _ _ => int32_range _, h.msec_range, ?_, ?_, ?_⟩
  · rw [shiftClock_remaining]
    exact h.near
  · rw [shiftClock_remaining]
    exact h.not_later
  · rw [shiftClock_remaining]
    exact h.by_remaining

/-- The first event of a queue has the least time. -/
theorem head (h : TimersNear q tqs evs) (ht : t ∈ tqs) :
    ∃ a, q.evHead t = some a ∧ a ∈ evs t ∧ ∀ ev ∈ evs t, q.remaining a ≤ q.remaining ev := by
  have hsorted := h.by_remaining t ht
  have hhead := (h.lists t ht).head_eq
  cases hl : evs t with
  | nil => exact absurd hl (h.nonempty t ht)
  | cons a l =>
      rw [hl] at hsorted hhead
      refine ⟨a, hhead, List.mem_cons_self, fun ev hev => ?_⟩
      rcases List.mem_cons.mp hev with rfl | hev
      · exact le_rfl
      · exact (List.pairwise_cons.mp hsorted).1 ev hev

theorem tqHead_eq (h : TimersNear q tqs evs) : q.tqHead = tqs.head? :=
  h.queues.elim fun _ hl => hl.head_eq

end TimersNear

/-! ## What `timeout_get` and `timeout_process` compute -/

section Results

variable {q : Evq} {tqs : List ℕ} {evs : ℕ → List ℕ} {t ev : ℕ} {min : ℤ}

/-- The loop of `timeout_get` finds the earliest of its values. -/
theorem timeoutMin_spec {fuel : ℕ} {l : List ℕ} (hpath : Path some q.tqNext (some t) (t :: l) none)
    (hheads : ∀ t' ∈ t :: l, ∃ a, q.evHead t' = some a) (hfuel : l.length < fuel) (min : ℤ) :
    ∃ m, timeoutMin q fuel t min = some m ∧
      ∀ c, m ≤ c ↔ min ≤ c ∨ ∃ t' ∈ t :: l, ∃ a, q.evHead t' = some a ∧ q.timeoutAt a ≤ c := by
  induction fuel generalizing t l min with
  | zero => omega
  | succ fuel ih =>
      obtain ⟨a, ha⟩ := hheads t (by simp)
      have hfirst : ∀ c, (if q.timeoutAt a < min then q.timeoutAt a else min) ≤ c ↔
          min ≤ c ∨ q.timeoutAt a ≤ c := by
        intro c
        split <;> omega
      cases l with
      | nil =>
          have hnext : q.tqNext t = none := hpath.2
          refine ⟨if q.timeoutAt a < min then q.timeoutAt a else min,
            by simp [timeoutMin, ha, hnext], fun c => ?_⟩
          rw [hfirst]
          simp [ha]
      | cons t' l =>
          have hnext : q.tqNext t = some t' := hpath.2.1
          obtain ⟨m, hrun, hm⟩ := ih (t := t') (l := l) ⟨rfl, hpath.2.2⟩
            (fun t'' ht'' => hheads t'' (by simp [ht''])) (by simpa using hfuel)
            (if q.timeoutAt a < min then q.timeoutAt a else min)
          refine ⟨m, by simp [timeoutMin, ha, hnext, hrun], fun c => ?_⟩
          rw [hm, hfirst, or_assoc]
          simp only [List.mem_cons, exists_eq_or_imp]
          simp [ha]

/-- For a clock of `c`, the time asked for or the first deadline of a queue looks past. -/
def NoWait (q : Evq) (tqs : List ℕ) (min c : ℤ) : Prop :=
  min ≠ timeoutInfinite ∧ LooksPast c min 1 ∨
    ∃ t ∈ tqs, ∃ a, q.evHead t = some a ∧ LooksPast c (q.remaining a) 1

/-- The time asked for or the time to the first deadline of a queue is positive, and `x` at
most. -/
def Within (q : Evq) (tqs : List ℕ) (min x : ℤ) : Prop :=
  min ≠ timeoutInfinite ∧ 0 < min ∧ min ≤ x ∨
    ∃ t ∈ tqs, ∃ a, q.evHead t = some a ∧ 0 < q.remaining a ∧ q.remaining a ≤ x

/-- `timeout_get` finds the least of its values that is less than `x` away. -/
theorem timeoutMin_le_iff (h : TimersNear q tqs evs)
    (hmin : min = timeoutInfinite ∨ 0 ≤ min ∧ min < 2 ^ 30) {m : ℤ}
    (hm : ∀ c, m ≤ c ↔ (min ≠ timeoutInfinite ∧ msecAdd min q.now ≤ c) ∨
      ∃ t ∈ tqs, ∃ a, q.evHead t = some a ∧ q.timeoutAt a ≤ c) :
    (m ≤ q.now ↔ NoWait q tqs min q.now) ∧
      (¬NoWait q tqs min q.now → ∀ x < 2 ^ 31 - 1, m ≤ q.now + x ↔ Within q tqs min x) := by
  have hnow := h.now_range
  have hrange : min ≠ timeoutInfinite → -2 ^ 30 ≤ min ∧ min ≤ 2 ^ 30 := by
    intro hinf
    have := hmin.resolve_left hinf
    omega
  have hfirst : ∀ t ∈ tqs, ∀ a, q.evHead t = some a → q.timeoutAt a = int32 (q.now + q.remaining a) ∧
      -2 ^ 30 ≤ q.remaining a ∧ q.remaining a ≤ 2 ^ 30 := by
    intro t ht a ha
    obtain ⟨a', ha', hmem, -⟩ := h.head ht
    obtain rfl := Option.some.inj (ha'.symm.trans ha)
    exact ⟨h.timeoutAt_eq ht hmem, h.near t ht a' hmem⟩
  constructor
  · rw [hm, NoWait]
    refine or_congr (and_congr_right fun hinf => ?_) (exists_congr fun t => and_congr_right fun ht =>
      exists_congr fun a => and_congr_right fun ha => ?_)
    · rw [msecAdd, add_comm, le_iff_looksPast hnow (hrange hinf)]
    · obtain ⟨hat, hnear⟩ := hfirst t ht a ha
      rw [hat, le_iff_looksPast hnow hnear]
  · intro hwait x hx
    rw [NoWait, not_or] at hwait
    rw [hm, Within]
    refine or_congr (and_congr_right fun hinf => ?_) (exists_congr fun t => and_congr_right fun ht =>
      exists_congr fun a => and_congr_right fun ha => ?_)
    · rw [msecAdd, add_comm min, le_add_iff hnow (hrange hinf) (fun hp => hwait.1 ⟨hinf, hp⟩) hx]
    · obtain ⟨hat, hnear⟩ := hfirst t ht a ha
      rw [hat, le_add_iff hnow hnear (fun hp => hwait.2 ⟨t, ht, a, ha, hp⟩) hx]

/-- `timeout_get` returns zero when there is nothing to wait for, and otherwise the least time
that is positive. -/
theorem timeoutGet_spec (h : TimersNear q tqs evs) {fuel : ℕ} (hfuel : tqs.length ≤ fuel)
    (hne : tqs ≠ []) (hmin : min = timeoutInfinite ∨ 0 ≤ min ∧ min < 2 ^ 30) :
    ∃ d, timeoutGet fuel q q.tqHead min q.now = some d ∧ (d = 0 ↔ NoWait q tqs min q.now) ∧
      (¬NoWait q tqs min q.now → ∀ x, d ≤ x ↔ maxTimeout ≤ x ∨ Within q tqs min x) := by
  have hhead := h.tqHead_eq
  obtain ⟨tail, hqs⟩ := h.queues
  have hheads : ∀ t ∈ tqs, ∃ a, q.evHead t = some a := fun t ht =>
    (h.head ht).imp fun _ ha => ha.1
  obtain ⟨t, l, rfl⟩ := List.exists_cons_of_ne_nil hne
  obtain ⟨a, ha⟩ := hheads t (by simp)
  have hpath := DSeg.forward hqs
  rw [hhead, List.head?_cons] at hpath
  obtain ⟨m, hrun, hm⟩ := timeoutMin_spec hpath hheads (show l.length < fuel from hfuel)
    (if min = timeoutInfinite then q.timeoutAt a else msecAdd min q.now)
  have hm' : ∀ c, m ≤ c ↔ (min ≠ timeoutInfinite ∧ msecAdd min q.now ≤ c) ∨
      ∃ t' ∈ t :: l, ∃ a, q.evHead t' = some a ∧ q.timeoutAt a ≤ c := by
    intro c
    rw [hm]
    by_cases hinf : min = timeoutInfinite
    · rw [if_pos hinf]
      simp only [hinf, ne_eq, not_true_eq_false, false_and, false_or]
      exact or_iff_right_of_imp fun hle => ⟨t, by simp, a, ha, hle⟩
    · rw [if_neg hinf]
      simp [hinf]
  obtain ⟨hzero, hleast⟩ := timeoutMin_le_iff h hmin hm'
  have hmax : maxTimeout = 2 ^ 31 - 1 := rfl
  refine ⟨if m - q.now < 0 then 0
      else if maxTimeout < m - q.now then maxTimeout else m - q.now, ?_, ?_, fun hwait x => ?_⟩
  · rw [hhead]
    simp only [List.head?_cons, timeoutGet, ha, Option.bind_eq_bind, Option.bind_some, hrun]
  · rw [← hzero]
    split_ifs <;> omega
  · have hlater : ¬m ≤ q.now := fun hle => hwait (hzero.mp hle)
    by_cases hx : x < 2 ^ 31 - 1
    · rw [← hleast hwait x hx]
      split_ifs <;> omega
    · refine iff_of_true ?_ (Or.inl (by omega))
      split_ifs <;> omega

/-- The events that `timeout_process` puts before an empty list of ready events. -/
def FiredBy (fuel : ℕ) (q : Evq) (fired : Set ℕ) : Prop :=
  ∃ q' r l, timeoutProcess fuel q q.tqHead none q.now = some (q', r) ∧
    Path some q'.nextReady r l none ∧ ∀ ev, ev ∈ fired ↔ ev ∈ l

/-- The first events of each queue that are due. -/
def dueEvents (q : Evq) (tqs : List ℕ) (evs : ℕ → List ℕ) : Set ℕ :=
  { ev | ∃ t ∈ tqs, ev ∈ (evs t).takeWhile fun x => q.timeoutAt x < q.now + minTimeout }

theorem FiredBy.unique {fuel : ℕ} {f f' : Set ℕ} (h : FiredBy fuel q f) (h' : FiredBy fuel q f') :
    f = f' := by
  obtain ⟨q₁, r, l, hrun, hpath, hmem⟩ := h
  obtain ⟨q₁', r', l', hrun', hpath', hmem'⟩ := h'
  obtain ⟨rfl, rfl⟩ := Prod.mk.inj (Option.some.inj (hrun.symm.trans hrun'))
  ext ev
  rw [hmem, hmem', hpath.unique hpath']

/-- `timeout_process` ends and fires the due events. -/
theorem TimersNear.fired (h : TimersNear q tqs evs) :
    ∃ N, ∀ fuel, N ≤ fuel → FiredBy fuel q (dueEvents q tqs evs) := by
  obtain ⟨N, hN⟩ := exists_bound (fun t => (evs t).length) tqs
  refine ⟨tqs.length + N + 1, fun fuel hfuel => ?_⟩
  obtain ⟨q', -, fired, r, hrun, -, -, -, hpath, -, -, -, hexact⟩ :=
    timeoutProcess_spec (h.toTimeoutRep.mono False.elim) (List.nil_append tqs).symm
      False.elim hN (show _ < fuel by omega) none
  exact ⟨q', r, fired, h.tqHead_eq ▸ hrun, hpath, fun ev => (hexact ev).symm⟩

end Results

/-! ## The events fired -/

/-- For a clock of `c`, a deadline of the queue lies before the wrap point: `timeout_process`
leaves the queue at once. -/
def Missed (q : Evq) (evs : List ℕ) (c : ℤ) : Prop := ∃ ev ∈ evs, c + q.remaining ev < -2 ^ 31

/-- For a clock of `c`, all deadlines to come lie beyond the next wrap point: `timeout_process`
fires the whole queue. -/
def Early (q : Evq) (evs : List ℕ) (c : ℤ) : Prop :=
  (∃ ev ∈ evs, minTimeout ≤ q.remaining ev) ∧
    ∀ ev ∈ evs, minTimeout ≤ q.remaining ev → 2 ^ 31 ≤ c + q.remaining ev

/-- In a sorted list, an element is reached when all elements that are not greater have
the property. -/
theorem mem_takeWhile_of_sorted {p : ℕ → Bool} {f : ℕ → ℤ} {l : List ℕ} {ev : ℕ}
    (hsorted : l.Pairwise fun a b => f a ≤ f b) (hmem : ev ∈ l)
    (hp : ∀ x ∈ l, f x ≤ f ev → p x = true) : ev ∈ l.takeWhile p := by
  induction l with
  | nil => exact absurd hmem (by simp)
  | cons a l ih =>
      obtain ⟨hle, hsorted⟩ := List.pairwise_cons.mp hsorted
      rcases List.mem_cons.mp hmem with rfl | hmem
      · rw [List.takeWhile_cons_of_pos (hp ev (by simp) le_rfl)]
        exact List.mem_cons_self
      · rw [List.takeWhile_cons_of_pos (hp a (by simp) (hle ev hmem))]
        exact List.mem_cons_of_mem _ (ih hsorted hmem fun x hx => hp x (by simp [hx]))

/-- In a sorted list, the smaller elements have been passed. -/
theorem of_mem_takeWhile_of_lt {p : ℕ → Bool} {f : ℕ → ℤ} {l : List ℕ} {ev x : ℕ}
    (hsorted : l.Pairwise fun a b => f a ≤ f b) (hmem : ev ∈ l.takeWhile p) (hx : x ∈ l)
    (hlt : f x < f ev) : p x = true := by
  induction l with
  | nil => exact absurd hx (by simp)
  | cons a l ih =>
      obtain ⟨hle, hsorted⟩ := List.pairwise_cons.mp hsorted
      by_cases ha : p a = true
      · rw [List.takeWhile_cons_of_pos ha] at hmem
        rcases List.mem_cons.mp hx with rfl | hxl
        · exact ha
        · rcases List.mem_cons.mp hmem with rfl | hmem
          · exact absurd (hle x hxl) (by omega)
          · exact ih hsorted hmem hxl
      · rw [List.takeWhile_cons_of_neg ha] at hmem
        exact absurd hmem (by simp)

section Fired

variable {q : Evq} {tqs : List ℕ} {evs : ℕ → List ℕ} {t ev : ℕ}

/-- The comparison of `timeout_process` for a linked event. -/
theorem TimersNear.due_iff (h : TimersNear q tqs evs) (ht : t ∈ tqs) (hev : ev ∈ evs t) :
    q.timeoutAt ev < q.now + minTimeout ↔ LooksPast q.now (q.remaining ev) minTimeout := by
  rw [h.timeoutAt_eq ht hev]
  exact lt_iff_looksPast h.now_range (h.near t ht ev hev) (by decide)

theorem TimersNear.mem_dueEvents (h : TimersNear q tqs evs) (ht : t ∈ tqs) (hev : ev ∈ evs t) :
    ev ∈ dueEvents q tqs evs ↔
      ev ∈ (evs t).takeWhile fun x => q.timeoutAt x < q.now + minTimeout := by
  constructor
  · rintro ⟨t', ht', hmem⟩
    have hev' : ev ∈ evs t' := List.takeWhile_subset _ hmem
    have heq : t = t' :=
      Option.some.inj (((h.tq_iff ev t).mpr ⟨ht, hev⟩).symm.trans ((h.tq_iff ev t').mpr ⟨ht', hev'⟩))
    exact heq ▸ hmem
  · exact fun hmem => ⟨t, ht, hmem⟩

/-- The events fired, by the time that remains. -/
theorem TimersNear.mem_dueEvents_iff (h : TimersNear q tqs evs) (ht : t ∈ tqs) (hev : ev ∈ evs t) :
    ev ∈ dueEvents q tqs evs ↔
      ¬Missed q (evs t) q.now ∧ (q.remaining ev < minTimeout ∨ Early q (evs t) q.now) := by
  have hsorted := h.by_remaining t ht
  have hnow := h.now_range
  have hdue : ∀ x ∈ evs t, decide (q.timeoutAt x < q.now + minTimeout) = true ↔
      LooksPast q.now (q.remaining x) minTimeout := fun x hx => by
    rw [decide_eq_true_eq]
    exact h.due_iff ht hx
  rw [h.mem_dueEvents ht hev]
  simp only [LooksPast, minTimeout] at hdue
  constructor
  · intro hmem
    have hself := (hdue ev hev).mp
      (List.mem_takeWhile_imp (p := fun x => decide (q.timeoutAt x < q.now + minTimeout)) hmem)
    have hbefore : ∀ x ∈ evs t, q.remaining x < q.remaining ev →
        q.remaining x < 10 ∧ -2 ^ 31 ≤ q.now + q.remaining x ∨ 2 ^ 31 ≤ q.now + q.remaining x :=
      fun x hx hlt => (hdue x hx).mp (of_mem_takeWhile_of_lt hsorted hmem hx hlt)
    constructor
    · rintro ⟨x, hx, hmissed⟩
      by_cases hlt : q.remaining x < q.remaining ev
      · have := hbefore x hx hlt
        omega
      · omega
    · refine or_iff_not_imp_left.mpr fun hle => ⟨⟨ev, hev, not_lt.mp hle⟩, fun x hx hlex => ?_⟩
      simp only [minTimeout] at hle hlex
      by_cases hlt : q.remaining x < q.remaining ev
      · have := hbefore x hx hlt
        omega
      · omega
  · rintro ⟨hmissed, hcome⟩
    refine mem_takeWhile_of_sorted hsorted hev fun x hx hle => (hdue x hx).mpr ?_
    by_cases hlt : q.remaining x < 10
    · refine Or.inl ⟨hlt, ?_⟩
      by_contra hbefore
      exact hmissed ⟨x, hx, not_le.mp hbefore⟩
    · rcases hcome with hcome | hearly
      · simp only [minTimeout] at hcome
        omega
      · exact Or.inr (hearly.2 x hx (not_lt.mp hlt))

/-- A queue cannot have deadlines on both sides of the range. -/
theorem TimersNear.not_missed (h : TimersNear q tqs evs) (ht : t ∈ tqs)
    (hearly : Early q (evs t) q.now) : ¬Missed q (evs t) q.now := by
  rintro ⟨x, hx, hmissed⟩
  obtain ⟨⟨ev, hev, hle⟩, hbeyond⟩ := hearly
  have hev' := hbeyond ev hev hle
  have hnear := h.near t ht
  have hx' := hnear x hx
  have hev'' := hnear ev hev
  omega

end Fired

/-! ## Independence of the clock -/

/-- `timeout_get` and `timeout_process` end with the same result, and the same events
fired, on both queues. -/
def SameTimers (q q' : Evq) (min : ℤ) : Prop :=
  ∃ N, ∀ fuel, N ≤ fuel →
    (∃ d, timeoutGet fuel q q.tqHead min q.now = some d ∧
      timeoutGet fuel q' q'.tqHead min q'.now = some d) ∧
    ∃ fired, FiredBy fuel q fired ∧ FiredBy fuel q' fired

/-- No timeout is set, or the clocks of `c` and `c'` have the deadlines on the same sides of
the wrap points, as far as it matters. -/
def SameSide (q : Evq) (tqs : List ℕ) (evs : ℕ → List ℕ) (min c c' : ℤ) : Prop :=
  q.tqHead = none ∨ (NoWait q tqs min c ↔ NoWait q tqs min c') ∧
    ∀ t ∈ tqs, (Missed q (evs t) c ↔ Missed q (evs t) c') ∧ (Early q (evs t) c ↔ Early q (evs t) c')

section Independence

variable {q q' : Evq} {tqs : List ℕ} {evs : ℕ → List ℕ} {t ev : ℕ} {min : ℤ}

theorem TimersNear.tqHead_none (h : TimersNear q tqs evs) : q.tqHead = none ↔ tqs = [] := by
  rw [h.tqHead_eq, List.head?_eq_none_iff]

/-- The queues have the same timers, with the same time to their deadlines. -/
structure SameRemaining (q q' : Evq) (tqs : List ℕ) (evs : ℕ → List ℕ) : Prop where
  left : TimersNear q tqs evs
  right : TimersNear q' tqs evs
  remaining : q'.remaining = q.remaining
  evHead : q'.evHead = q.evHead

theorem TimersNear.sameRemaining (h : TimersNear q tqs evs) (k : ℤ) :
    SameRemaining q (q.shiftClock k) tqs evs := ⟨h, h.shift k, shiftClock_remaining q k, rfl⟩

/-- The two functions have the same results exactly when each of them has. -/
theorem SameRemaining.sameTimers_iff (h : SameRemaining q q' tqs evs) :
    SameTimers q q' min ↔
      (∃ N, ∀ fuel, N ≤ fuel → ∃ d, timeoutGet fuel q q.tqHead min q.now = some d ∧
        timeoutGet fuel q' q'.tqHead min q'.now = some d) ∧
      dueEvents q' tqs evs = dueEvents q tqs evs := by
  obtain ⟨N₁, hN₁⟩ := h.left.fired
  obtain ⟨N₂, hN₂⟩ := h.right.fired
  constructor
  · rintro ⟨N, hN⟩
    refine ⟨⟨N, fun fuel hfuel => (hN fuel hfuel).1⟩, ?_⟩
    obtain ⟨-, fired, hf, hf'⟩ := hN (N + N₁ + N₂) (by omega)
    rw [(hN₁ _ (by omega)).unique hf, (hN₂ _ (by omega)).unique hf']
  · rintro ⟨⟨N, hN⟩, hdue⟩
    refine ⟨N + N₁ + N₂, fun fuel hfuel => ⟨hN fuel (by omega), dueEvents q tqs evs,
      hN₁ fuel (by omega), ?_⟩⟩
    exact hdue ▸ hN₂ fuel (by omega)

/-- `timeout_get` has the same result exactly when both clocks wait, or none does. -/
theorem SameRemaining.timeoutGet_iff (h : SameRemaining q q' tqs evs) (hne : tqs ≠ [])
    (hmin : min = timeoutInfinite ∨ 0 ≤ min ∧ min < 2 ^ 30) :
    (∃ N, ∀ fuel, N ≤ fuel → ∃ d, timeoutGet fuel q q.tqHead min q.now = some d ∧
      timeoutGet fuel q' q'.tqHead min q'.now = some d) ↔
      (NoWait q tqs min q.now ↔ NoWait q tqs min q'.now) := by
  have hwait : ∀ c, NoWait q' tqs min c ↔ NoWait q tqs min c := fun c => by
    rw [NoWait, NoWait, h.remaining, h.evHead]
  have hwithin : ∀ x, Within q' tqs min x ↔ Within q tqs min x := fun x => by
    rw [Within, Within, h.remaining, h.evHead]
  have hget : ∀ fuel, tqs.length ≤ fuel → ∃ d d', timeoutGet fuel q q.tqHead min q.now = some d ∧
      timeoutGet fuel q' q'.tqHead min q'.now = some d' ∧
      (d = d' ↔ (NoWait q tqs min q.now ↔ NoWait q tqs min q'.now)) := by
    intro fuel hfuel
    obtain ⟨d, hd, hzero, hleast⟩ := timeoutGet_spec h.left hfuel hne hmin
    obtain ⟨d', hd', hzero', hleast'⟩ := timeoutGet_spec h.right hfuel hne hmin
    rw [hwait] at hzero' hleast'
    refine ⟨d, d', hd, hd', fun heq => ?_, fun hiff => ?_⟩
    · rw [← hzero, ← hzero', heq]
    · by_cases hw : NoWait q tqs min q.now
      · rw [hzero.mpr hw, hzero'.mpr (hiff.mp hw)]
      · refine eq_of_forall_ge_iff fun x => ?_
        rw [hleast hw, hleast' fun hw' => hw (hiff.mpr hw'), hwithin]
  constructor
  · rintro ⟨N, hN⟩
    obtain ⟨d, d', hd, hd', hiff⟩ := hget (N + tqs.length) (by omega)
    obtain ⟨e, he, he'⟩ := hN (N + tqs.length) (by omega)
    exact hiff.mp (Option.some.inj ((hd.symm.trans he).trans (he'.symm.trans hd')))
  · intro hiff
    refine ⟨tqs.length, fun fuel hfuel => ?_⟩
    obtain ⟨d, d', hd, hd', heq⟩ := hget fuel hfuel
    obtain rfl := heq.mpr hiff
    exact ⟨d, hd, hd'⟩

/-- A queue that is fired in the same way looks the same. -/
theorem sides_of_fires {l : List ℕ} {c c' : ℤ} (hc : -2 ^ 31 ≤ c)
    (hnot : Early q l c → ¬Missed q l c)
    (hfires : ∀ ev ∈ l, (¬Missed q l c ∧ (q.remaining ev < minTimeout ∨ Early q l c) ↔
      ¬Missed q l c' ∧ (q.remaining ev < minTimeout ∨ Early q l c'))) :
    (Missed q l c → Missed q l c') ∧ (Early q l c → Early q l c') := by
  constructor
  · rintro ⟨x, hx, hmissed⟩
    have hcome : q.remaining x < minTimeout := by
      simp only [minTimeout]
      omega
    by_contra hnot'
    exact ((hfires x hx).mpr ⟨hnot', Or.inl hcome⟩).1 ⟨x, hx, hmissed⟩
  · intro hearly
    obtain ⟨x, hx, hle⟩ := hearly.1
    have hfired := (hfires x hx).mp ⟨hnot hearly, Or.inr hearly⟩
    exact hfired.2.resolve_left (not_lt.mpr hle)

/-- The same events are fired exactly when both clocks leave a queue at once, fire the whole
queue, or do neither. -/
theorem SameRemaining.dueEvents_iff (h : SameRemaining q q' tqs evs) :
    dueEvents q' tqs evs = dueEvents q tqs evs ↔
      ∀ t ∈ tqs, (Missed q (evs t) q.now ↔ Missed q (evs t) q'.now) ∧
        (Early q (evs t) q.now ↔ Early q (evs t) q'.now) := by
  have hleft := fun t (ht : t ∈ tqs) ev (hev : ev ∈ evs t) => h.left.mem_dueEvents_iff ht hev
  have hright : ∀ t ∈ tqs, ∀ ev ∈ evs t, ev ∈ dueEvents q' tqs evs ↔
      ¬Missed q (evs t) q'.now ∧ (q.remaining ev < minTimeout ∨ Early q (evs t) q'.now) := by
    intro t ht ev hev
    rw [h.right.mem_dueEvents_iff ht hev, Missed, Missed, Early, Early, h.remaining]
  constructor
  · intro heq t ht
    have hiff : ∀ ev ∈ evs t, (¬Missed q (evs t) q.now ∧
        (q.remaining ev < minTimeout ∨ Early q (evs t) q.now) ↔ ¬Missed q (evs t) q'.now ∧
        (q.remaining ev < minTimeout ∨ Early q (evs t) q'.now)) := fun ev hev => by
      rw [← hleft t ht ev hev, ← hright t ht ev hev, heq]
    have hnot : Early q (evs t) q'.now → ¬Missed q (evs t) q'.now := by
      have hright := h.right.not_missed ht
      rwa [Missed, Early, h.remaining] at hright
    obtain ⟨hm, he⟩ := sides_of_fires h.left.now_range.1 (h.left.not_missed ht) hiff
    obtain ⟨hm', he'⟩ := sides_of_fires h.right.now_range.1 hnot fun ev hev => (hiff ev hev).symm
    exact ⟨⟨hm, hm'⟩, he, he'⟩
  · intro hsame
    ext ev
    by_cases hmem : ∃ t ∈ tqs, ev ∈ evs t
    · obtain ⟨t, ht, hev⟩ := hmem
      rw [hleft t ht ev hev, hright t ht ev hev, (hsame t ht).1, (hsame t ht).2]
    · have hnot : ∀ q₁ : Evq, ev ∉ dueEvents q₁ tqs evs := by
        rintro q₁ ⟨t, ht, hev⟩
        exact hmem ⟨t, ht, List.takeWhile_subset _ hev⟩
      exact iff_of_false (hnot q') (hnot q)

/-- For a clock of `c`, no deadline meets a wrap point, and the time asked for does not
either. -/
def InRange (q : Evq) (tqs : List ℕ) (evs : ℕ → List ℕ) (min c : ℤ) : Prop :=
  (min ≠ timeoutInfinite → c + min < 2 ^ 31) ∧
    ∀ t ∈ tqs, ∀ ev ∈ evs t, -2 ^ 31 ≤ c + q.remaining ev ∧ c + q.remaining ev < 2 ^ 31

/-- In the range, deadlines look as far away as they are. -/
theorem InRange.sides {c : ℤ} (hr : InRange q tqs evs min c) (h : TimersNear q tqs evs)
    (hc : -2 ^ 31 ≤ c) (hmin : min = timeoutInfinite ∨ 0 ≤ min ∧ min < 2 ^ 30) :
    (NoWait q tqs min c ↔ min = 0 ∨ ∃ t ∈ tqs, ∃ a, q.evHead t = some a ∧ q.remaining a ≤ 0) ∧
      ∀ t ∈ tqs, ¬Missed q (evs t) c ∧ ¬Early q (evs t) c := by
  refine ⟨?_, fun t ht => ⟨?_, ?_⟩⟩
  · rw [NoWait]
    refine or_congr ⟨fun ⟨hinf, hp⟩ => ?_, fun hzero => ?_⟩ (exists_congr fun t =>
      and_congr_right fun ht => exists_congr fun a => and_congr_right fun ha => ?_)
    · have := hr.1 hinf
      have := hmin.resolve_left hinf
      simp only [LooksPast] at hp
      omega
    · rw [hzero]
      exact ⟨by decide, Or.inl ⟨by decide, by simpa using hc⟩⟩
    · obtain ⟨a', ha', hmem, -⟩ := h.head ht
      obtain rfl := Option.some.inj (ha'.symm.trans ha)
      have := hr.2 t ht a' hmem
      simp only [LooksPast]
      omega
  · rintro ⟨ev, hev, hlt⟩
    exact absurd (hr.2 t ht ev hev).1 (not_le.mpr hlt)
  · rintro ⟨⟨ev, hev, hle⟩, hbeyond⟩
    exact absurd (hr.2 t ht ev hev).2 (not_lt.mpr (hbeyond ev hev hle))

/-- A shift that does not meet a wrap point changes nothing. -/
theorem sameSide_of_inRange {c c' : ℤ} (h : TimersNear q tqs evs) (hc : -2 ^ 31 ≤ c)
    (hc' : -2 ^ 31 ≤ c') (hmin : min = timeoutInfinite ∨ 0 ≤ min ∧ min < 2 ^ 30)
    (hr : InRange q tqs evs min c) (hr' : InRange q tqs evs min c') :
    SameSide q tqs evs min c c' := by
  obtain ⟨hwait, hnone⟩ := hr.sides h hc hmin
  obtain ⟨hwait', hnone'⟩ := hr'.sides h hc' hmin
  exact Or.inr ⟨hwait.trans hwait'.symm, fun t ht =>
    ⟨iff_of_false (hnone t ht).1 (hnone' t ht).1, iff_of_false (hnone t ht).2 (hnone' t ht).2⟩⟩

/-- The results are the same exactly when both clocks make the same of the deadlines. -/
theorem SameRemaining.sameSide_iff (h : SameRemaining q q' tqs evs)
    (hhead : q'.tqHead = q.tqHead) (hmin : min = timeoutInfinite ∨ 0 ≤ min ∧ min < 2 ^ 30) :
    SameTimers q q' min ↔ SameSide q tqs evs min q.now q'.now := by
  rw [h.sameTimers_iff, h.dueEvents_iff]
  by_cases hne : tqs = []
  · have hnone : q.tqHead = none := h.left.tqHead_none.mpr hne
    refine iff_of_true ⟨⟨0, fun fuel _ => ⟨min, ?_, ?_⟩⟩, fun t ht => ?_⟩ (Or.inl hnone)
    · rw [hnone]
      rfl
    · rw [hhead, hnone]
      rfl
    · exact absurd ht (by simp [hne])
  · have hsome : q.tqHead ≠ none := fun hnone => hne (h.left.tqHead_none.mp hnone)
    rw [h.timeoutGet_iff hne hmin, SameSide, or_iff_right hsome]

end Independence

/-! ## Timers and the time elapsed -/

/-- A timer armed at the time `start` fires when its period, less `MIN_TIMEOUT`, has
elapsed since, modulo `2 ^ 32`. -/
def FiresByElapsed (q : Evq) (tqs : List ℕ) (evs : ℕ → List ℕ) : Prop :=
  ∃ N, ∀ fuel, N ≤ fuel → ∃ fired, FiredBy fuel q fired ∧
    ∀ t ∈ tqs, ∀ ev ∈ evs t, ∀ start, q.timeoutAt ev = msecAdd start (q.msec t) →
      (ev ∈ fired ↔ q.msec t - minTimeout < (q.now - start) % 2 ^ 32)

/-- No deadline that has come lies before the wrap point, and a queue with deadlines to
come has one of them before the next wrap point. -/
def ClearOfWrap (q : Evq) (tqs : List ℕ) (evs : ℕ → List ℕ) : Prop :=
  ∀ t ∈ tqs,
    (∀ ev ∈ evs t, q.remaining ev < minTimeout → -2 ^ 31 ≤ q.now + q.remaining ev) ∧
      ((∃ ev ∈ evs t, minTimeout ≤ q.remaining ev) →
        ∃ ev ∈ evs t, minTimeout ≤ q.remaining ev ∧ q.now + q.remaining ev < 2 ^ 31)

section Elapsed

variable {q : Evq} {tqs : List ℕ} {evs : ℕ → List ℕ} {t ev : ℕ} {min : ℤ}

/-- The time elapsed since a timer was armed, and the time that remains. -/
theorem TimersNear.elapsed (h : TimersNear q tqs evs) (ht : t ∈ tqs) (hev : ev ∈ evs t) {start : ℤ}
    (hstart : q.timeoutAt ev = msecAdd start (q.msec t)) :
    (q.now - start) % 2 ^ 32 = q.msec t - q.remaining ev := by
  have hmsec := h.msec_range t ht
  have hnear := h.near t ht ev hev
  have hlater := h.not_later t ht ev hev
  simp only [Evq.remaining, msecAdd, int32] at *
  omega

/-- Timers fire by the time elapsed exactly when no comparison meets the wrap point. -/
theorem TimersNear.firesByElapsed_iff (h : TimersNear q tqs evs) :
    FiresByElapsed q tqs evs ↔ ClearOfWrap q tqs evs := by
  obtain ⟨N, hN⟩ := h.fired
  -- The property says that the events fired are those with less than `MIN_TIMEOUT` left.
  have hright : FiresByElapsed q tqs evs ↔ ∀ t ∈ tqs, ∀ ev ∈ evs t,
      (ev ∈ dueEvents q tqs evs ↔ q.remaining ev < minTimeout) := by
    constructor
    · rintro ⟨N', hN'⟩ t ht ev hev
      obtain ⟨fired, hf, hiff⟩ := hN' (N + N') (by omega)
      rw [(hN (N + N') (by omega)).unique hf]
      have hstart : q.timeoutAt ev = msecAdd (q.timeoutAt ev - q.msec t) (q.msec t) := by
        have := h.at_range t ht ev hev
        rw [msecAdd, sub_add_cancel, int32_of_range this.1 this.2]
      rw [hiff t ht ev hev _ hstart, h.elapsed ht hev hstart]
      omega
    · intro hiff
      refine ⟨N, fun fuel hfuel => ⟨_, hN fuel hfuel, fun t ht ev hev start hstart => ?_⟩⟩
      rw [hiff t ht ev hev, h.elapsed ht hev hstart]
      omega
  have hclear : ClearOfWrap q tqs evs ↔
      ∀ t ∈ tqs, ¬Missed q (evs t) q.now ∧ ¬Early q (evs t) q.now := by
    refine forall₂_congr fun t ht => and_congr ?_ ?_
    · simp only [Missed, not_exists, not_and, not_lt]
      refine forall₂_congr fun ev hev => ⟨fun hcome => ?_, fun hle _ => hle⟩
      have := h.now_range
      simp only [minTimeout] at hcome
      omega
    · simp only [Early, not_and, not_forall, not_le, exists_prop]
  rw [hright, hclear]
  constructor
  · intro hiff t ht
    have hmissed : ¬Missed q (evs t) q.now := by
      rintro ⟨ev, hev, hlt⟩
      have := h.now_range
      have hcome : q.remaining ev < minTimeout := by
        simp only [minTimeout]
        omega
      exact ((h.mem_dueEvents_iff ht hev).mp ((hiff t ht ev hev).mpr hcome)).1 ⟨ev, hev, hlt⟩
    refine ⟨hmissed, fun hearly => ?_⟩
    obtain ⟨ev, hev, hle⟩ := hearly.1
    have hfired := (h.mem_dueEvents_iff ht hev).mpr ⟨hmissed, Or.inr hearly⟩
    exact absurd ((hiff t ht ev hev).mp hfired) (not_lt.mpr hle)
  · intro hnone t ht ev hev
    obtain ⟨hmissed, hearly⟩ := hnone t ht
    rw [h.mem_dueEvents_iff ht hev]
    simp [hmissed, hearly]

end Elapsed

/-- **Timers and the clock.**  For well formed queues near the clock, a shift of the clock by
`k` leaves the results of `timeout_get` and `timeout_process` alone exactly when it leaves the
deadlines on the same sides of the wrap points, and timers fire by the time elapsed exactly
when no comparison meets the wrap point. -/
theorem clock_independent_iff {q : Evq} {tqs : List ℕ} {evs : ℕ → List ℕ} {min : ℤ} (k : ℤ)
    (h : TimersNear q tqs evs) (hmin : min = timeoutInfinite ∨ 0 ≤ min ∧ min < 2 ^ 30) :
    (SameTimers q (q.shiftClock k) min ↔
      SameSide q tqs evs min q.now (q.shiftClock k).now) ∧
      (FiresByElapsed q tqs evs ↔ ClearOfWrap q tqs evs) :=
  ⟨(h.sameRemaining k).sameSide_iff rfl hmin, h.firesByElapsed_iff⟩

/-- A timer of 100 milliseconds in slot 0 and one of 1000 in slot 1, both just armed, with their
headers in the slots 2 and 3. -/
def twoTimersQueue : Evq where
  nextReady _ := none
  prev _ := none
  next _ := none
  tq ev := if ev = 0 then some 2 else if ev = 1 then some 3 else none
  timeoutAt ev := if ev = 0 then 100 else 1000
  flags _ := {}
  registered _ := true
  tqPrev t := if t = 3 then some 2 else none
  tqNext t := if t = 2 then some 3 else none
  evHead t := some (t - 2)
  evTail t := some (t - 2)
  msec t := if t = 2 then 100 else 1000
  now := 0
  evReady := none
  evFree := none
  tqHead := some 2
  tqMapFn := false
  tqMap _ := none

theorem twoTimersQueue_remaining : twoTimersQueue.now = 0 ∧
    (twoTimersQueue.msec 2 = 100 ∧ twoTimersQueue.msec 3 = 1000) ∧
    twoTimersQueue.remaining 0 = 100 ∧ twoTimersQueue.remaining 1 = 1000 := by
  decide

theorem twoTimersQueue_near : TimersNear twoTimersQueue [2, 3] fun t => [t - 2] := by
  obtain ⟨-, ⟨hshort, hlong⟩, hzero, hone⟩ := twoTimersQueue_remaining
  refine ⟨⟨⟨some 3, rfl, rfl, rfl, rfl, rfl, rfl⟩, by decide, by simp, ?_, ?_, False.elim, False.elim,
    nofun, by decide⟩, by decide, by decide, by decide, ?_, ?_, by simp⟩
  · exact fun _ _ => ⟨rfl, rfl, rfl, rfl⟩
  · intro ev t
    by_cases hev : ev = 0
    · subst hev
      simp [twoTimersQueue]
      omega
    · by_cases hev' : ev = 1 <;> simp [twoTimersQueue, hev, hev'] <;> omega
  · simp [hzero, hone]
  · simp [hzero, hone, hshort, hlong]

/-- The clock is moved by five milliseconds, and there are 50 to wait. -/
theorem clock_independent_iff_twoTimers :
    SameTimers twoTimersQueue (twoTimersQueue.shiftClock 5) 50 ∧
      FiresByElapsed twoTimersQueue [2, 3] fun t => [t - 2] := by
  have hmin : (50 : ℤ) = timeoutInfinite ∨ (0 : ℤ) ≤ 50 ∧ (50 : ℤ) < 2 ^ 30 := by decide
  obtain ⟨hnow, -, hzero, hone⟩ := twoTimersQueue_remaining
  obtain ⟨hsame, hfires⟩ := clock_independent_iff 5 twoTimersQueue_near hmin
  have hinRange : ∀ c, c = 0 ∨ c = 5 → InRange twoTimersQueue [2, 3] (fun t => [t - 2]) 50 c := by
    rintro c (rfl | rfl) <;> simp [InRange, hzero, hone]
  refine ⟨hsame.mpr (sameSide_of_inRange twoTimersQueue_near (by decide) (by decide) hmin
    (hinRange _ (Or.inl rfl)) (hinRange _ (Or.inr (by decide)))), hfires.mpr ?_⟩
  simp [ClearOfWrap, hnow, hzero, hone, minTimeout]

/-- A timer that has its 100 milliseconds before it is fired at once when the clock is
moved to the wrap point. -/
theorem wrapped_timer_fires_early :
    ∃ q tqs evs min k, TimersNear q tqs evs ∧ (min = timeoutInfinite ∨ 0 ≤ min ∧ min < 2 ^ 30) ∧
      ¬SameTimers q (q.shiftClock k) min := by
  refine ⟨twoTimersQueue, [2, 3], fun t => [t - 2], timeoutInfinite, 2 ^ 31 - 50, twoTimersQueue_near,
    Or.inl rfl, fun hsame => ?_⟩
  have hdue := ((twoTimersQueue_near.sameRemaining (2 ^ 31 - 50)).sameTimers_iff.mp hsame).2
  have hmem : 0 ∈ dueEvents (twoTimersQueue.shiftClock (2 ^ 31 - 50)) [2, 3] fun t => [t - 2] :=
    ⟨2, by simp, by decide⟩
  rw [hdue, twoTimersQueue_near.mem_dueEvents_iff (t := 2) (by simp) (by simp)] at hmem
  obtain ⟨-, hcome | ⟨-, hbeyond⟩⟩ := hmem
  · exact absurd hcome (by decide)
  · exact absurd (hbeyond 0 (by simp) (by decide)) (by decide)

end LuaSys.Event
