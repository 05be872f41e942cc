import LuaSys.Event.Backend
import LuaSys.Event.Poll
import Mathlib.Data.Finset.Card

/-!
# The number of events

The field `nevents` of an event queue is incremented where the backend has registered an
event, in `evq_add`, `signal_add` and `evq_add_timer`, and decremented in `evq_del`.  A
loop that does not linger leaves when it is zero and no event is ready.

The counter follows the calls of the backend.  It is right as long as `evq_del` is called
for registered events only.  The end of a coroutine that was resumed as a callback looks
at `ev->evq` of a slot that may have been released in the meantime, and then the field
tells nothing about the event of the coroutine.  The same holds for a second `evq:notify` of a
oneshot timer that has ended, which calls `evq_del` for a free slot.

With the backend `poll.c` the calls come from a scan of two arrays.  A deletion in the scan may
halve them, and what the scan reads after that is not in the arrays any more, so nothing can be
said about the events that it goes on to report and delete.

## Main definitions

* `PollArrays` — the sizes of the arrays of `poll.c`, and what a scan has done to them.
* `EvqCount` — an event queue with its counter.
* `EvqCount.CountExact` — the counter is the number of registered events.
* `EvqCount.emptyExit` — the test of `sys_evq_loop`.
* `EvqCount.Safe` — the condition on the state before a step.

## Main results

* `PollSet.sizes_evqAdd`, `PollSet.sizes_evqDel` — the sizes are those of the functions of `poll.c`.
* `safe_run_countExact` — the counter is exact in every run of safe steps.
* `coro_end_underflow` — a coroutine of a oneshot event whose `evq:add` fails makes the
  counter wrap around.
-/

namespace LuaSys.Event

open LuaSys.Lib

/-! ## The arrays of `poll.c` -/

/-- The arrays `events` and `fdset`: the entries in use and the room for them, whether the last
event that a scan has reported has halved them, and whether a scan has gone on after that, with
its pointers to the old ones. -/
structure PollArrays where
  npolls : ℕ := 1
  maxPolls : ℕ := nevent
  moved : Bool := false
  lost : Bool := false

namespace PollArrays

/-- `evq_add` for an event with an entry. -/
def add (p : PollArrays) : PollArrays :=
  { p with
    npolls := p.npolls + 1
    maxPolls := if p.maxPolls ≤ p.npolls then 2 * p.maxPolls else p.maxPolls }

/-- `evq_del` for an event with an entry. -/
def del (p : PollArrays) : PollArrays :=
  { p with
    npolls := p.npolls - 1
    maxPolls := if Shrinks (p.npolls - 1) p.maxPolls then p.maxPolls / 2 else p.maxPolls }

/-- A call of the backend.  Timers and signals have no entry. -/
def call (p : PollArrays) (hasEntry : ℕ → Bool) : Option BackendCall → PollArrays
  | none => p
  | some (.add ev) => if hasEntry ev then p.add else p
  | some (.del ev) => if hasEntry ev then p.del else p

/-- A step of the queue; `scanned` tells that it is the report of an event by `evq_wait`. -/
def step (p : PollArrays) (hasEntry : ℕ → Bool) (scanned : Bool) (c : Option BackendCall) :
    PollArrays :=
  let p' := p.call hasEntry c
  { p' with
    moved := scanned && decide (p'.maxPolls < p.maxPolls)
    lost := p.lost || (scanned && p.moved) }

end PollArrays

namespace PollSet
variable {ε : Type*} [DecidableEq ε] {s : PollSet ε} {ev : ε}

/-- The sizes of the arrays. -/
def sizes (s : PollSet ε) : PollArrays := { npolls := s.npolls, maxPolls := s.maxPolls }

theorem sizes_evqAdd (h : s.signal ev = false) :
    (s.evqAdd ev ⟨true, true⟩).1.sizes = s.sizes.add := by
  by_cases hfull : s.maxPolls ≤ s.npolls
  · simp [evqAdd, h, hfull, sizes, PollArrays.add, append, Watch.append]
  · simp [evqAdd, h, hfull, sizes, PollArrays.add, append, Watch.append]

theorem sizes_evqDel (h : s.polled ev) (r : Reallocs) : (s.evqDel ev r).sizes = s.sizes.del := by
  have hn := npolls_evqDel h
  rw [evqDel_of_polled h]
  simp only [sizes, PollArrays.del, hn]
  rfl

end PollSet

/-! ## The counter -/

/-- The step is the report of an event by `evq_wait`. -/
def EvqOp.isReport : EvqOp → Bool
  | .activate .. => true
  | _ => false

/-- An event queue with the field `nevents`, which is `unsigned int`.  There are no `arrays` with
the backend `epoll.c`.  `signal` is the flag `EVENT_SIGNAL`. -/
structure EvqCount where
  evq : EvqState
  nevents : ℕ
  signal : ℕ → Bool
  arrays : Option PollArrays

/-- The counter after a call of the backend. -/
def BackendCall.count (nevents : ℕ) : Option BackendCall → ℕ
  | none => nevents
  | some (.add _) => u32 (nevents + 1)
  | some (.del _) => u32sub nevents 1

namespace EvqCount

def init (now : ℤ) (arrays : Option PollArrays) : EvqCount where
  evq := EvqState.init now
  nevents := 0
  signal _ := false
  arrays := arrays

/-- The event has an entry in the arrays. -/
def hasEntry (s : EvqCount) (ev : ℕ) : Bool := !(s.evq.q.flags ev).timer && !s.signal ev

/-- The flag `EVENT_SIGNAL`, which is set for an event that is added. -/
def mark (s : EvqCount) (signal : Bool) : Option BackendCall → EvqCount
  | some (.add ev) => { s with signal := Function.update s.signal ev signal }
  | _ => s

/-- One step of the queue, with the counter.  The event that it adds is a signal or not. -/
def step (fuel : ℕ) (signal : Bool) (s : EvqCount) (op : EvqOp) : Option EvqCount :=
  let c := s.evq.backendCall fuel op
  let s := s.mark signal c
  (s.evq.step fuel op).map fun evq =>
    { evq
      nevents := BackendCall.count s.nevents c
      signal := s.signal
      arrays := s.arrays.map fun p => p.step s.hasEntry op.isReport c }

/-- "`if (!evq->ev_ready) { if (!linger && evq_is_empty(evq)) break;`". -/
def emptyExit (s : EvqCount) (linger : Bool) : Bool :=
  s.evq.q.evReady.isNone && !linger && s.nevents == 0

/-- The transitions of a run. -/
def Step (s s' : EvqCount) : Prop := ∃ op fuel signal, s.step fuel signal op = some s'

/-- A scan of `poll.c` reports no event after one whose deletion has halved the arrays. -/
def ScanStays (s : EvqCount) (op : EvqOp) : Prop :=
  ∀ p ∈ s.arrays, op.isReport = true → p.moved = false

/-- The flags can be trusted, and so can the arrays. -/
def Safe (s : EvqCount) (op : EvqOp) : Prop := op.Safe s.evq ∧ s.ScanStays op

/-- The transitions of a run with safe steps only. -/
def SafeStep (s s' : EvqCount) : Prop :=
  ∃ op fuel signal, s.Safe op ∧ s.step fuel signal op = some s'

/-- No scan has gone on in arrays that are gone. -/
def InArrays (s : EvqCount) : Prop := ∀ p ∈ s.arrays, p.lost = false

/-- The counter is the number of the registered events. -/
def CountExact (s : EvqCount) : Prop :=
  ∃ evs : Finset ℕ, (∀ ev, ev ∈ evs ↔ s.evq.live ev = true) ∧ s.nevents = evs.card

/-- The queue is regular and the counter is exact. -/
structure CountInv (s : EvqCount) : Prop where
  regular : s.evq.Regular
  exact : s.CountExact
  inArrays : s.InArrays

variable {s s' : EvqCount} {fuel : ℕ} {signal : Bool} {op : EvqOp}

theorem mark_eq (s : EvqCount) (signal : Bool) (c : Option BackendCall) :
    (s.mark signal c).evq = s.evq ∧ (s.mark signal c).nevents = s.nevents ∧
      (s.mark signal c).arrays = s.arrays := by
  unfold mark
  split <;> exact ⟨rfl, rfl, rfl⟩

/-- The parts of a step. -/
theorem step_cases (hrun : s.step fuel signal op = some s') :
    s.evq.step fuel op = some s'.evq ∧
      s'.nevents = BackendCall.count s.nevents (s.evq.backendCall fuel op) ∧
      ∃ hasEntry, s'.arrays = s.arrays.map fun p =>
        p.step hasEntry op.isReport (s.evq.backendCall fuel op) := by
  obtain ⟨hevq, hcount, harrays⟩ := s.mark_eq signal (s.evq.backendCall fuel op)
  obtain ⟨evq', hstep, rfl⟩ := Option.map_eq_some_iff.mp hrun
  rw [hevq] at hstep
  exact ⟨hstep, by rw [hcount], _, by rw [harrays]⟩

/-- There are not more registered events than slots. -/
theorem CountInv.nevents_le (h : s.CountInv) : s.nevents ≤ maxSlots := by
  obtain ⟨evs, hevs, hcard⟩ := h.exact
  obtain ⟨slots, ready, hslots, -⟩ := h.regular.sound
  have hsub : evs ⊆ Finset.range s.evq.nslots := by
    intro ev hev
    rw [Finset.mem_range]
    exact hslots.used_lt ev (Or.inl ((hevs ev).mp hev))
  have hle := Finset.card_le_card hsub
  rw [Finset.card_range] at hle
  rw [hcard]
  exact hle.trans h.regular.nslots

/-- A scan that stays in the arrays does not lose them. -/
theorem InArrays.step (h : s.InArrays) (hstays : s.ScanStays op)
    (hrun : s.step fuel signal op = some s') : s'.InArrays := by
  obtain ⟨-, -, hasEntry, harrays⟩ := step_cases hrun
  intro p' hp'
  rw [harrays] at hp'
  obtain ⟨p, hp, rfl⟩ := Option.map_eq_some_iff.mp hp'
  have hmoved : (op.isReport && p.moved) = false := by
    cases hop : op.isReport with
    | false => rfl
    | true => exact hstays p hp hop
  simp [PollArrays.step, h p hp, hmoved]

theorem CountInv.step (h : s.CountInv) (hsafe : s.Safe op)
    (hrun : s.step fuel signal op = some s') : s'.CountInv := by
  obtain ⟨hevq, hnevents, -⟩ := step_cases hrun
  have hle := h.nevents_le
  have hmax : maxSlots < 2 ^ 32 - 1 := by decide
  refine ⟨h.regular.step hsafe.1 hevq, ?_, h.inArrays.step hsafe.2 hrun⟩
  obtain ⟨evs, hevs, hcard⟩ := h.exact
  have hlive := (EvqState.step_livesOn hevq).live
  rw [CountExact, hlive, hnevents]
  cases hcall : s.evq.backendCall fuel op with
  | none => exact ⟨evs, hevs, hcard⟩
  | some c =>
      cases c with
      | add ev =>
          have hdead := h.regular.add_dead hcall
          have hnot : ev ∉ evs := by
            rw [hevs, hdead]
            simp
          refine ⟨insert ev evs, fun x => ?_, ?_⟩
          · rw [Finset.mem_insert, hevs, BackendCall.live]
            by_cases hx : x = ev
            · simp [hx]
            · simp [hx]
          · rw [Finset.card_insert_of_notMem hnot, ← hcard, BackendCall.count]
            exact u32_of_lt (by omega)
      | del ev =>
          have hmem : ev ∈ evs := (hevs ev).mpr (h.regular.del_live hsafe.1 hcall)
          refine ⟨evs.erase ev, fun x => ?_, ?_⟩
          · rw [Finset.mem_erase, hevs, BackendCall.live]
            by_cases hx : x = ev
            · simp [hx]
            · simp [hx]
          · have hpos : 1 ≤ s.nevents := by
              rw [hcard]
              exact Finset.card_pos.mpr ⟨ev, hmem⟩
            rw [Finset.card_erase_of_mem hmem, ← hcard, BackendCall.count]
            exact u32sub_of_le hpos (by omega)

/-- The test of the loop, for an exact counter. -/
theorem CountInv.emptyExit_iff (h : s.CountInv) :
    s.emptyExit false = true ↔
      ∀ ev, s.evq.live ev = false ∧ (s.evq.q.flags ev).active = false := by
  obtain ⟨evs, hevs, hcard⟩ := h.exact
  obtain ⟨slots, ready, hslots, hact⟩ := h.regular.sound
  have hempty : s.evq.q.evReady = none ↔ ready = [] := by
    have hpath := hslots.readyList
    cases ready with
    | nil => exact iff_of_true hpath rfl
    | cons ev ready' =>
        rw [hpath.1]
        simp
  simp only [emptyExit, Bool.and_eq_true, Option.isNone_iff_eq_none, Bool.not_false, and_true,
    beq_iff_eq, hempty, hcard, Finset.card_eq_zero]
  constructor
  · rintro ⟨rfl, rfl⟩ ev
    refine ⟨?_, ?_⟩
    · have hnot := (hevs ev).not
      simpa using hnot
    · by_contra hactive
      exact absurd (hact ev (by simpa using hactive)) (by simp)
  · intro hnone
    constructor
    · apply List.eq_nil_iff_forall_not_mem.mpr
      intro ev hev
      exact absurd ((hslots.ready_active ev hev).symm.trans (hnone ev).2) (by simp)
    · apply Finset.eq_empty_of_forall_notMem
      intro ev hev
      exact absurd (((hevs ev).mp hev).symm.trans (hnone ev).1) (by simp)

theorem init_countInv (now : ℤ) {arrays : Option PollArrays}
    (harrays : ∀ p ∈ arrays, p.lost = false) : (init now arrays).CountInv :=
  ⟨EvqState.Regular.init now, ⟨∅, by simp [init, EvqState.init], rfl⟩, harrays⟩

end EvqCount

/-- A new queue of one of the backends. -/
def EvqCount.initOf (poll : Bool) (now : ℤ) : EvqCount :=
  EvqCount.init now (if poll then some {} else none)

theorem EvqCount.initOf_countInv (poll : Bool) (now : ℤ) : (EvqCount.initOf poll now).CountInv := by
  refine init_countInv now fun p hp => ?_
  cases poll with
  | false => exact absurd hp (by simp)
  | true =>
      obtain rfl := Option.some.inj hp
      rfl

open EvqCount in
/-- **The counter of events.**  In every run of safe steps no scan leaves its arrays, the counter
is the number of the registered events, and a loop that does not linger leaves exactly when no
event is registered and none is ready. -/
theorem safe_run_countExact {poll : Bool} {now : ℤ} {s : EvqCount}
    (hrun : Relation.ReflTransGen EvqCount.SafeStep (EvqCount.initOf poll now) s) :
    s.InArrays ∧ s.CountExact ∧ (s.emptyExit false = true ↔
      ∀ ev, s.evq.live ev = false ∧ (s.evq.q.flags ev).active = false) := by
  have hinv : s.CountInv := by
    refine inv_of_reach ?_ (initOf_countInv poll now) hrun
    rintro s s' ⟨op, fuel, signal, hsafe, hstep⟩ h
    exact h.step hsafe hstep
  exact ⟨hinv.inArrays, hinv.exact, hinv.emptyExit_iff⟩

/-- A oneshot timer and a oneshot descriptor on `poll.c`, which are notified and reported, and a
descriptor that the backend refuses. -/
theorem safe_run_countExact_oneshot :
    ∃ s, Relation.ReflTransGen EvqCount.SafeStep (EvqCount.initOf true 0) s ∧ s.nevents = 0 ∧
      s.evq.q.evReady = some 2 ∧ s.CountExact ∧ ¬s.emptyExit false = true := by
  have hstays : ∀ (s : EvqCount) (op : EvqOp), op.isReport = false → s.ScanStays op := by
    intro s op hop p _ hreport
    exact absurd (hop.symm.trans hreport) (by simp)
  have hrun : Relation.ReflTransGen EvqCount.SafeStep (EvqCount.initOf true 0) _ :=
    .tail (.tail (.tail (.tail (.tail (.tail (.tail (.tail .refl
      ⟨.addBegin ⟨false, true, true, .function, 100, false⟩, 1, false,
        ⟨trivial, hstays _ _ rfl⟩, rfl⟩)
      ⟨.addEnd 0 .ok, 2, false, ⟨trivial, hstays _ _ rfl⟩, rfl⟩)
      ⟨.addBegin ⟨false, false, true, .function, -1, false⟩, 1, false,
        ⟨trivial, hstays _ _ rfl⟩, rfl⟩)
      ⟨.addEnd 0 .ok, 2, false, ⟨trivial, hstays _ _ rfl⟩, rfl⟩)
      ⟨.addBegin ⟨false, false, false, .function, -1, false⟩, 1, false,
        ⟨trivial, hstays _ _ rfl⟩, rfl⟩)
      ⟨.addEnd 0 .fails, 2, false, ⟨trivial, hstays _ _ rfl⟩, rfl⟩)
      ⟨.notify 0, 1, false, ⟨Or.inl rfl, hstays _ _ rfl⟩, rfl⟩)
      ⟨.activate 2 { readRes := true } 0, 1, false, ⟨Or.inl rfl, fun p hp _ => by
        obtain rfl := Option.some.inj hp
        rfl⟩, rfl⟩
  exact ⟨_, hrun, rfl, rfl, (safe_run_countExact hrun).2.1, by decide⟩

/-- The coroutine of a oneshot event is resumed.  It calls `evq:add` with a descriptor that
the backend refuses, and returns. -/
def coroEndOps : List EvqOp :=
  [.addBegin ⟨false, false, true, .coroutine, -1, false⟩, .addEnd 0 .ok,
    .activate 0 { readRes := true } 0, .dispatch,
    .addBegin ⟨false, false, false, .function, -1, false⟩, .addEnd 0 .fails, .coroEnd 0 true]

/-- The slot of the oneshot event has been used for the failed call, which leaves `ev->evq`
set; `evq_del` is called for it, and the counter wraps around. -/
theorem coro_end_underflow :
    ∃ s, Relation.ReflTransGen EvqCount.Step (EvqCount.initOf true 0) s ∧ s.nevents = 2 ^ 32 - 1 ∧
      (∀ ev, s.evq.live ev = false) ∧ ¬s.CountExact := by
  have hrun : (runOps (EvqCount.step 2 false) (EvqCount.initOf true 0) coroEndOps).map
      (fun s => (s.nevents, s.evq.live)) = some (2 ^ 32 - 1,
        Function.update (Function.update (Function.update (fun _ => false) 0 true) 0 false) 0
          false) := by
    rfl
  obtain ⟨s, hs, heq⟩ := Option.map_eq_some_iff.mp hrun
  obtain ⟨hcount, hlive⟩ := Prod.mk.inj heq
  have hnone : ∀ ev, s.evq.live ev = false := by
    intro ev
    rw [hlive]
    by_cases hev : ev = 0 <;> simp [hev]
  refine ⟨s, reach_of_runOps (fun _ op _ hop => ⟨op, 2, false, hop⟩) hs, hcount, hnone, ?_⟩
  rintro ⟨evs, hevs, hcard⟩
  have hempty : evs = ∅ := by
    apply Finset.eq_empty_of_forall_notMem
    intro ev hev
    exact absurd (((hevs ev).mp hev).symm.trans (hnone ev)) (by simp)
  rw [hcount, hempty] at hcard
  exact absurd hcard (by decide)

end LuaSys.Event
