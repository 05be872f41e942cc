import LuaSys.Event.Evq

/-!
# Timeouts

The model of `timeout.c` and of `evq_set_timeout`.  The events with one timeout value
are linked in the order of their deadlines in a timeout queue, and the timeout queues
are linked in a list.  A new timeout queue takes its header from the free events, and
a queue that becomes empty gives it back.

A pointer that the source follows without a test is followed in `Option`: a result
`some` includes that no null pointer was followed.  The loops take fuel.

## Main definitions

* `timeoutReset`, `timeoutDel`, `timeoutAdd`, `timeoutGet`, `timeoutProcess`,
  `evqSetTimeout` — the functions of the source.
-/

namespace LuaSys.Event

open LuaSys.Lib

/-- `timeout_reset`. -/
def timeoutReset (q : Evq) (ev : ℕ) (now : ℤ) : Option Evq := do
  let tq ← q.tq ev
  let q := { q with timeoutAt := Function.update q.timeoutAt ev (msecAdd now (q.msec tq)) }
  match q.next ev with
  | none => some q
  | some evNext =>
      let q := match q.prev ev with
        | some p => { q with next := Function.update q.next p (some evNext) }
        | none => { q with evHead := Function.update q.evHead tq (some evNext) }
      let q := { q with prev := Function.update q.prev evNext (q.prev ev) }
      let q := { q with next := Function.update q.next ev none }
      let tail ← q.evTail tq
      let q := { q with prev := Function.update q.prev ev (some tail) }
      let q := { q with next := Function.update q.next tail (some ev) }
      some { q with evTail := Function.update q.evTail tq (some ev) }

/-- The release of an empty timeout queue in `timeout_del`: unlink the header, push
it on the free list and remove it from the map. -/
def timeoutQueueFree (q : Evq) (tq : ℕ) : Evq :=
  let tqPrev := q.tqPrev tq
  let tqNext := q.tqNext tq
  let q := match tqPrev with
    | some p => { q with tqNext := Function.update q.tqNext p tqNext }
    | none => { q with tqHead := tqNext }
  let q := match tqNext with
    | some n => { q with tqPrev := Function.update q.tqPrev n tqPrev }
    | none => q
  let q := { q with nextReady := Function.update q.nextReady tq q.evFree }
  let q := { q with evFree := some tq }
  if q.tqMapFn then (levqTimeoutMap q (some tq) (q.msec tq) true).1 else q

/-- `timeout_del`. -/
def timeoutDel (q : Evq) (ev : ℕ) : Evq :=
  match q.tq ev with
  | none => q
  | some tq =>
      let q := { q with tq := Function.update q.tq ev none }
      let evPrev := q.prev ev
      let evNext := q.next ev
      if evPrev = none ∧ evNext = none then timeoutQueueFree q tq
      else
        let q := match evPrev with
          | some p => { q with next := Function.update q.next p evNext }
          | none => { q with evHead := Function.update q.evHead tq evNext }
        match evNext with
        | some n => { q with prev := Function.update q.prev n evPrev }
        | none => { q with evTail := Function.update q.evTail tq evPrev }

/-- The search in the sorted list: the last queue with a smaller value and the one
behind it. -/
def timeoutSearch (q : Evq) (msec : ℤ) : (fuel : ℕ) → (tqPrev tq : Option ℕ) →
    Option (Option ℕ × Option ℕ)
  | 0, _, _ => none
  | fuel + 1, tqPrev, tq =>
      match tq with
      | none => some (tqPrev, none)
      | some t =>
          if q.msec t < msec then timeoutSearch q msec fuel (some t) (q.tqNext t)
          else some (tqPrev, some t)

/-- The search in `timeout_add`, through the map or in the sorted list. -/
def timeoutFind (fuel : ℕ) (q : Evq) (msec : ℤ) : Option (Option ℕ × Option ℕ) :=
  if q.tqMapFn then
    let tqPrev := (levqTimeoutMap q none msec false).2
    some (tqPrev, if tqPrev = none then q.tqHead else tqPrev)
  else timeoutSearch q msec fuel none q.tqHead

/-- The new header in `timeout_add`, between `tqPrev` and `tq`, with `ev` as its
first event. -/
def timeoutQueueNew (q : Evq) (tqNew : ℕ) (tqPrev tq : Option ℕ) (ev : ℕ) (msec : ℤ) : Evq :=
  let q := { q with evFree := q.nextReady tqNew }
  let q := { q with tqNext := Function.update q.tqNext tqNew tq }
  let q := match tq with
    | some t => { q with tqPrev := Function.update q.tqPrev t (some tqNew) }
    | none => q
  let q := { q with tqPrev := Function.update q.tqPrev tqNew tqPrev }
  let q := match tqPrev with
    | some p => { q with tqNext := Function.update q.tqNext p (some tqNew) }
    | none => { q with tqHead := some tqNew }
  let q := { q with msec := Function.update q.msec tqNew msec }
  let q := { q with evHead := Function.update q.evHead tqNew (some ev) }
  let q := { q with prev := Function.update q.prev ev none }
  if q.tqMapFn then (levqTimeoutMap q (some tqNew) msec false).1 else q

/-- The end of `timeout_add`: `ev` is the last event of `tq`. -/
def timeoutLinkTail (q : Evq) (ev tq : ℕ) (msec now : ℤ) : Evq :=
  { q with
    evTail := Function.update q.evTail tq (some ev)
    next := Function.update q.next ev none
    tq := Function.update q.tq ev (some tq)
    timeoutAt := Function.update q.timeoutAt ev (msecAdd now msec) }

/-- `timeout_add`.  The result is `-1` when there is no slot for a new queue. -/
def timeoutAdd (fuel : ℕ) (q : Evq) (ev : ℕ) (msec now : ℤ) : Option (Evq × ℤ) := do
  let (tqPrev, tq) ← timeoutFind fuel q msec
  match tq.filter fun t => q.msec t = msec with
  | none =>
      match q.evFree with
      | none => some (q, -1)
      | some tqNew =>
          some (timeoutLinkTail (timeoutQueueNew q tqNew tqPrev tq ev msec) ev tqNew msec now, 0)
  | some t =>
      let q := { q with prev := Function.update q.prev ev (q.evTail t) }
      let q := match q.evTail t with
        | some tail => { q with next := Function.update q.next tail (some ev) }
        | none => { q with evHead := Function.update q.evHead t (some ev) }
      some (timeoutLinkTail q ev t msec now, 0)

/-- `MAX_TIMEOUT`. -/
def maxTimeout : ℤ := 2 ^ 31 - 1

/-- The loop of `timeout_get`: the earliest of `min` and the first deadlines of the
queues. -/
def timeoutMin (q : Evq) : (fuel tq : ℕ) → (min : ℤ) → Option ℤ
  | 0, _, _ => none
  | fuel + 1, tq, min => do
      let ev ← q.evHead tq
      let min := if q.timeoutAt ev < min then q.timeoutAt ev else min
      match q.tqNext tq with
      | none => some min
      | some tq => timeoutMin q fuel tq min

/-- `timeout_get`.  The deadlines are compared as values of type `long`. -/
def timeoutGet (fuel : ℕ) (q : Evq) (tq : Option ℕ) (min now : ℤ) : Option ℤ :=
  match tq with
  | none => some min
  | some t => do
      let ev ← q.evHead t
      let min := if min = timeoutInfinite then q.timeoutAt ev else msecAdd min now
      let min ← timeoutMin q fuel t min
      let d := min - now
      some (if d < 0 then 0 else if maxTimeout < d then maxTimeout else d)

/-- The inner loop of `timeout_process`: mark the events of one queue, from `ev` on,
as long as they are due.  It returns the last event marked, as the head of the ready
events, and the first event that is not due. -/
def timeoutFire (timeoutAt timeout : ℤ) : (fuel : ℕ) → Evq → (ev : ℕ) → (evReady : Option ℕ) →
    Option (Evq × ℕ × Option ℕ)
  | 0, _, _, _ => none
  | fuel + 1, q, ev, evReady =>
      let flags := { q.flags ev with active := true, timeoutRes := true }
      let q := { q with flags := Function.update q.flags ev flags }
      let q := { q with timeoutAt := Function.update q.timeoutAt ev timeoutAt }
      let q := { q with nextReady := Function.update q.nextReady ev evReady }
      match q.next ev with
      | none => some (q, ev, none)
      | some ev' =>
          if q.timeoutAt ev' < timeout then timeoutFire timeoutAt timeout fuel q ev' (some ev)
          else some (q, ev, some ev')

/-- "Recycle timeout queue": the marked events, from `evHead` to `evReady`, go behind
the others, which start with `ev`. -/
def timeoutRecycle (q : Evq) (tq ev evHead evReady : ℕ) : Option Evq := do
  let q := { q with evHead := Function.update q.evHead tq (some ev) }
  let q := { q with prev := Function.update q.prev ev none }
  let tail ← q.evTail tq
  let q := { q with next := Function.update q.next tail (some evHead) }
  let q := { q with prev := Function.update q.prev evHead (some tail) }
  let q := { q with evTail := Function.update q.evTail tq (some evReady) }
  some { q with next := Function.update q.next evReady none }

/-- The body of the outer loop of `timeout_process`, for one queue. -/
def timeoutProcessQueue (fuel : ℕ) (q : Evq) (tq : ℕ) (evReady : Option ℕ) (now : ℤ) :
    Option (Evq × Option ℕ) :=
  match q.evHead tq with
  | none => some (q, evReady)
  | some evHead =>
      if q.timeoutAt evHead < now + minTimeout then do
        let (q, last, rest) ←
          timeoutFire (msecAdd now (q.msec tq)) (now + minTimeout) fuel q evHead evReady
        match rest with
        | none => some (q, some last)
        | some ev => (timeoutRecycle q tq ev evHead last).map fun q => (q, some last)
      else some (q, evReady)

/-- `timeout_process`. -/
def timeoutProcess : (fuel : ℕ) → Evq → (tq evReady : Option ℕ) → (now : ℤ) →
    Option (Evq × Option ℕ)
  | 0, _, _, _, _ => none
  | fuel + 1, q, tq, evReady, now =>
      match tq with
      | none => some (q, evReady)
      | some t => do
          let (q, evReady) ← timeoutProcessQueue fuel q t evReady now
          timeoutProcess fuel q (q.tqNext t) evReady now

/-- The end of `evq_set_timeout`: no timeout, or a new one. -/
def evqArmTimeout (fuel : ℕ) (q : Evq) (ev : ℕ) (msec : ℤ) : Option (Evq × ℤ) :=
  if msec = timeoutInfinite then some (q, 0) else timeoutAdd fuel q ev msec q.now

/-- `evq_set_timeout`. -/
def evqSetTimeout (fuel : ℕ) (q : Evq) (ev : ℕ) (msec : ℤ) : Option (Evq × ℤ) :=
  match q.tq ev with
  | none => evqArmTimeout fuel q ev msec
  | some tq =>
      if q.msec tq = msec then (timeoutReset q ev q.now).map fun q => (q, 0)
      else evqArmTimeout fuel (timeoutDel q ev) ev msec

end LuaSys.Event
