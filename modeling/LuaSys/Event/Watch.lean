import LuaSys.Event.Evq
import LuaSys.Lib.SwapDelete
import Mathlib.Data.List.Count

/-!
# The events of the backends without a kernel queue

`poll.c` and `select.c` keep the events with a descriptor in the array `events`, from the place
1 on; the place 0 belongs to the pipe that interrupts the wait.  `evq_wait` goes over this array
and reports the events whose descriptor is ready.  An event that becomes ready for the first time
is put on the list of the ready ones, and is deleted if it is a oneshot event: `evq_del` moves
the last entry of the array to its place, while the loop goes on over the old range.

This is the part that both backends have in common.  Timers and signals have no place in the
array; the timeouts are left out.

## Main definitions

* `Watch`, `Watch.append`, `Watch.evqDel` — the array and the fields of the events.
* `Watch.report` — what `evq_wait` does with an event that is ready.
* `Watch.ScanInv` — the loop of `evq_wait` has come to a place.
* `Watch.Reported` — the ready events have been reported once each, and no others.

## Main results

* `Watch.ScanInv.skip`, `Watch.ScanInv.report` — one place is passed.
* `Watch.ScanInv.finish` — behind the last ready event, all of them have been reported.
-/

namespace LuaSys.Event

open LuaSys.Lib

/-- The events, and the fields of `struct event_queue` that both backends have. -/
structure Watch (ε : Type*) where
  fd : ε → ℕ
  flags : ε → EventFlags
  /-- The flag `EVENT_SIGNAL`. -/
  signal : ε → Bool
  /-- The field `evq` is not null. -/
  registered : ε → Bool
  index : ε → ℕ
  npolls : ℕ
  events : ℕ → Option ε
  /-- The list from `ev_ready` on. -/
  evReady : List ε

namespace Watch
variable {ε : Type*}

/-- The event has a place in the array. -/
def polled (w : Watch ε) (ev : ε) : Bool :=
  w.registered ev && !w.signal ev && !(w.flags ev).timer

/-- Each event with a place in the array knows it, and there are no others. -/
def Indexed (w : Watch ε) : Prop := Placed w.events w.index 1 w.npolls { ev | w.polled ev }

variable [DecidableEq ε]

/-- The ready events are those with the flag `EVENT_ACTIVE`, each once. -/
def ReadyOnce (w : Watch ε) : Prop :=
  ∀ ev, w.evReady.count ev = if (w.flags ev).active then 1 else 0

def setFlags (w : Watch ε) (ev : ε) (f : EventFlags) : Watch ε :=
  { w with flags := Function.update w.flags ev f }

/-- The end of `evq_add`: the event is put behind the others. -/
def append (w : Watch ε) (ev : ε) : Watch ε :=
  { w with
    events := Function.update w.events w.npolls (some ev)
    index := Function.update w.index ev w.npolls
    npolls := w.npolls + 1 }

/-- The end of `evq_del`: the last event gets the place of the deleted one. -/
def remove (w : Watch ε) (ev : ε) : Watch ε :=
  { w with
    events := swapDel w.events (w.index ev) (w.npolls - 1)
    index := reindex w.events w.index (w.index ev) (w.npolls - 1)
    npolls := w.npolls - 1 }

/-- `evq_del`, as far as the two backends agree. -/
def evqDel (w : Watch ε) (ev : ε) : Watch ε :=
  let w := { w with registered := Function.update w.registered ev false }
  if (w.flags ev).timer || w.signal ev then w else w.remove ev

/-- `ev->flags |= res`. -/
def setRes (w : Watch ε) (ev : ε) (res : EventFlags) : Watch ε :=
  let f := w.flags ev
  w.setFlags ev { f with readRes := f.readRes || res.readRes,
                         writeRes := f.writeRes || res.writeRes,
                         eofRes := f.eofRes || res.eofRes }

/-- An event is ready: unless it is active already, it becomes so, is deleted if it is a oneshot
event, and is put on the list. -/
def report (w : Watch ε) (ev : ε) (res : EventFlags) : Watch ε :=
  let w := w.setRes ev res
  if (w.flags ev).active then w
  else
    let w := w.setFlags ev { w.flags ev with active := true }
    let w := if (w.flags ev).oneshot then w.evqDel ev else w
    { w with evReady := ev :: w.evReady }

/-- `signal_process_interrupt`, for the events of the signals that have arrived. -/
def interrupt (w : Watch ε) (sigs : List ε) : Watch ε :=
  sigs.foldl (fun w ev => w.report ev { readRes := true }) w

/-! ## What a report does -/

section
variable {w w₀ : Watch ε} {ev x : ε} {res : EventFlags} {rep : ε → Bool} {i : ℕ}

/-- The flags that say what kind of event it is. -/
structure SameKind (f g : EventFlags) : Prop where
  read : f.read = g.read
  write : f.write = g.write
  oneshot : f.oneshot = g.oneshot
  timer : f.timer = g.timer

theorem SameKind.rfl {f : EventFlags} : SameKind f f := ⟨Eq.refl _, Eq.refl _, Eq.refl _, Eq.refl _⟩

theorem SameKind.trans {f g h : EventFlags} (h₁ : SameKind f g) (h₂ : SameKind g h) :
    SameKind f h :=
  ⟨h₁.read.trans h₂.read, h₁.write.trans h₂.write, h₁.oneshot.trans h₂.oneshot,
    h₁.timer.trans h₂.timer⟩

/-- An event that is active only gets its result flags. -/
theorem report_of_active (h : (w.flags ev).active) : w.report ev res = w.setRes ev res := by
  simp [report, setRes, setFlags, h]

/-- An event that was not active gets the flag and comes on the list; a oneshot event is deleted
before. -/
theorem report_of_not_active (h : (w.flags ev).active = false) (res : EventFlags) :
    ∃ f : EventFlags, SameKind f (w.flags ev) ∧ f.active = true ∧
      w.report ev res =
        { (if (w.flags ev).oneshot then (w.setFlags ev f).evqDel ev else w.setFlags ev f) with
          evReady := ev :: w.evReady } := by
  refine ⟨{ w.flags ev with
    active := true
    readRes := (w.flags ev).readRes || res.readRes
    writeRes := (w.flags ev).writeRes || res.writeRes
    eofRes := (w.flags ev).eofRes || res.eofRes }, ⟨rfl, rfl, rfl, rfl⟩, rfl, ?_⟩
  cases hone : (w.flags ev).oneshot <;>
    cases htimer : (w.flags ev).timer <;> cases hsig : w.signal ev <;>
      simp [report, setRes, setFlags, evqDel, remove, h, hone, htimer, hsig]

end

section
variable {w : Watch ε} {ev : ε}

/-- A report that deletes nothing leaves the array as it is. -/
theorem report_keep (h : (w.flags ev).active ∨ (w.flags ev).oneshot = false) (res : EventFlags) :
    (w.report ev res).index = w.index ∧ (w.report ev res).npolls = w.npolls ∧
      ∀ x, (w.report ev res).polled x = w.polled x := by
  have hpolled : ∀ f : EventFlags, SameKind f (w.flags ev) →
      ∀ x, (w.setFlags ev f).polled x = w.polled x := by
    intro f hf x
    by_cases hx : x = ev
    · simp [hx, polled, setFlags, hf.timer]
    · simp [hx, polled, setFlags]
  cases hactive : (w.flags ev).active with
  | true =>
      rw [report_of_active hactive]
      exact ⟨rfl, rfl, hpolled _ ⟨rfl, rfl, rfl, rfl⟩⟩
  | false =>
      obtain ⟨f, hf, -, heq⟩ := report_of_not_active hactive res
      have hone : (w.flags ev).oneshot = false := h.resolve_left (by simp [hactive])
      rw [heq, if_neg (by simp [hone])]
      exact ⟨rfl, rfl, hpolled f hf⟩

/-- An event in the array is deleted. -/
theorem evqDel_polled {f : EventFlags} (hpolled : w.polled ev)
    (htimer : f.timer = (w.flags ev).timer) :
    (w.setFlags ev f).evqDel ev = { (w.setFlags ev f).remove ev with
      registered := Function.update w.registered ev false } := by
  have hplace : (f.timer || w.signal ev) = false := by
    simp only [polled, Bool.and_eq_true, Bool.not_eq_true'] at hpolled
    simp [htimer, hpolled]
  simp [evqDel, setFlags, hplace, remove]

/-- A report that deletes the event moves the last one to its place. -/
theorem report_delete (hev : w.polled ev) (hactive : (w.flags ev).active = false)
    (hone : (w.flags ev).oneshot) (res : EventFlags) :
    (w.report ev res).index = reindex w.events w.index (w.index ev) (w.npolls - 1) ∧
      (w.report ev res).npolls = w.npolls - 1 ∧
      ∀ x, (w.report ev res).polled x → w.polled x ∧ x ≠ ev := by
  obtain ⟨f, hf, -, heq⟩ := report_of_not_active hactive res
  rw [heq, if_pos hone, evqDel_polled hev hf.timer]
  refine ⟨rfl, rfl, fun x hx => ?_⟩
  by_cases hxev : x = ev
  · simp [hxev, polled, setFlags] at hx
  · refine ⟨?_, hxev⟩
    simpa [polled, setFlags, remove, hxev] using hx

end

/-! ## The loop of a wait -/

/-- The event is reported, and its place is below `i`. -/
def met (w₀ : Watch ε) (rep : ε → Bool) (i : ℕ) (ev : ε) : Bool :=
  w₀.polled ev && rep ev && decide (w₀.index ev < i)

/-- The loop has deleted the event: a oneshot event that it has reported and that was not active
before. -/
def dropped (w₀ : Watch ε) (rep : ε → Bool) (i : ℕ) (ev : ε) : Bool :=
  w₀.met rep i ev && (w₀.flags ev).oneshot && !(w₀.flags ev).active

/-- The loop of `evq_wait` has come from the state `w₀` to the place `i`; `rep` says which events
are ready. -/
structure ScanInv (rep : ε → Bool) (w₀ : Watch ε) (i : ℕ) (w : Watch ε) : Prop where
  scanned : Scanned w₀.events w₀.index 1 w₀.npolls { ev | w₀.polled ev }
    { ev | w₀.dropped rep i ev } w.events w.index w.npolls i
  registered : ∀ ev, w.registered ev = (w₀.registered ev && !w₀.dropped rep i ev)
  active : ∀ ev, (w.flags ev).active = ((w₀.flags ev).active || w₀.met rep i ev)
  ready : ∀ ev, w.evReady.count ev =
    w₀.evReady.count ev + if w₀.met rep i ev && !(w₀.flags ev).active then 1 else 0
  kind : ∀ ev, SameKind (w.flags ev) (w₀.flags ev)
  fd : w.fd = w₀.fd
  signal : w.signal = w₀.signal

section
variable {w w₀ : Watch ε} {ev x : ε} {res : EventFlags} {rep : ε → Bool} {i : ℕ}

/-- The events below `i + 1` are those below `i` and the one at `i`. -/
theorem met_succ (rep : ε → Bool) (h : w₀.Indexed) (hev : w₀.polled ev) (hi : w₀.index ev = i)
    (x : ε) :
    w₀.met rep (i + 1) x = (w₀.met rep i x || (decide (x = ev) && rep ev)) := by
  by_cases hx : x = ev
  · subst hx
    simp [met, hev, hi]
  · have hlt : w₀.polled x = true → (w₀.index x < i + 1 ↔ w₀.index x < i) := by
      intro hpx
      have hne : w₀.index x ≠ i := fun heq => hx (h.index_inj hpx hev (heq.trans hi.symm))
      omega
    cases hpx : w₀.polled x
    · simp [met, hpx, hx]
    · simp [met, hpx, hx, hlt hpx]

omit [DecidableEq ε] in
theorem not_met_self (hi : w₀.index ev = i) : w₀.met rep i ev = false := by
  simp [met, hi]

theorem ScanInv.begin (h : w₀.Indexed) : w₀.ScanInv rep 1 w₀ := by
  have hmet : ∀ ev, w₀.met rep 1 ev = false := by
    intro ev
    cases hev : w₀.polled ev
    · simp [met, hev]
    · have hlo := h.lo_le ev hev
      simp only [met, hev, Bool.true_and, Bool.and_eq_false_imp, decide_eq_false_iff_not]
      omega
  have hdropped : ∀ ev, w₀.dropped rep 1 ev = false := fun ev => by simp [dropped, hmet]
  refine ⟨?_, ?_, ?_, ?_, fun _ => SameKind.rfl, rfl, rfl⟩
  · simpa [hdropped] using Scanned.begin h
  · simp [hdropped]
  · simp [hmet]
  · simp [hmet]

theorem ScanInv.indexed (h : w₀.ScanInv rep i w) : w₀.Indexed := h.scanned.start

/-- The loop finds the event that had this place when it began.  It is still registered, and has
not been reported before. -/
theorem ScanInv.current (h : w₀.ScanInv rep i w) (hi : i < w₀.npolls) :
    ∃ ev, w.events i = some ev ∧ w₀.events i = some ev ∧ w₀.polled ev ∧ w₀.index ev = i ∧
      w.polled ev ∧ w.index ev ≤ i ∧ (w.flags ev).active = (w₀.flags ev).active := by
  obtain ⟨ev, ⟨hev, hgone⟩, hslot, hslot₀, hindex, hle⟩ := h.scanned.current hi
  have hev : w₀.polled ev = true := hev
  have hnot : w₀.met rep i ev = false := not_met_self hindex
  refine ⟨ev, hslot, hslot₀, hev, hindex, ?_, hle, by rw [h.active, hnot, Bool.or_false]⟩
  have hreg : w.registered ev = w₀.registered ev := by simp [h.registered, dropped, hnot]
  rw [polled, hreg, h.signal, (h.kind ev).timer]
  exact hev

/-- The event at this place is not ready. -/
theorem ScanInv.skip (h : w₀.ScanInv rep i w) (hev : w₀.polled ev) (hi : w₀.index ev = i)
    (hrep : rep ev = false) : w₀.ScanInv rep (i + 1) w := by
  have hmet : w₀.met rep (i + 1) = w₀.met rep i := by
    ext x
    simp [met_succ rep h.indexed hev hi, hrep]
  have hdropped : w₀.dropped rep (i + 1) = w₀.dropped rep i := by
    ext x
    simp [dropped, hmet]
  refine ⟨?_, ?_, ?_, ?_, h.kind, h.fd, h.signal⟩
  · simpa [hdropped] using h.scanned.skip
  · simpa [hdropped] using h.registered
  · simpa [hmet] using h.active
  · simpa [hmet] using h.ready

theorem kind_update {f : EventFlags} (hf : SameKind f (w.flags ev)) (x : ε) :
    SameKind (Function.update w.flags ev f x) (w.flags x) := by
  by_cases hx : x = ev
  · subst hx
    simpa using hf
  · simpa [hx] using SameKind.rfl

/-- The event at this place is ready, and was active already: it is on the list, so neither the
list nor the array changes. -/
theorem ScanInv.report_active (h : w₀.ScanInv rep i w) (hev : w₀.polled ev)
    (hi : w₀.index ev = i) (hrep : rep ev) (hold : (w₀.flags ev).active)
    (hactive : (w.flags ev).active = (w₀.flags ev).active) (res : EventFlags) :
    w₀.ScanInv rep (i + 1) (w.report ev res) := by
  have hmet := fun x => met_succ rep h.indexed hev hi x
  simp only [hrep, Bool.and_true] at hmet
  have hdropped : w₀.dropped rep (i + 1) = w₀.dropped rep i := by
    ext x
    by_cases hx : x = ev
    · simp [dropped, hx, hold]
    · simp [dropped, hmet, hx]
  rw [report_of_active (hactive.trans hold)]
  refine ⟨?_, ?_, fun x => ?_, fun x => ?_, fun x => ?_, h.fd, h.signal⟩
  · simpa [hdropped, setRes, setFlags] using h.scanned.skip
  · simpa [hdropped, setRes, setFlags] using h.registered
  · by_cases hx : x = ev
    · simp [hx, setRes, setFlags, hactive, hold]
    · simpa [hx, setRes, setFlags, hmet] using h.active x
  · by_cases hx : x = ev
    · simpa [hx, setRes, setFlags, hold] using h.ready ev
    · simpa [hx, setRes, setFlags, hmet] using h.ready x
  · refine (kind_update ?_ x).trans (h.kind x)
    exact ⟨rfl, rfl, rfl, rfl⟩

/-- The event at this place becomes active. -/
theorem ScanInv.report_fresh (h : w₀.ScanInv rep i w) (hn : i < w₀.npolls)
    (hslot : w.events i = some ev) (hev : w₀.polled ev) (hi : w₀.index ev = i) (hrep : rep ev)
    (hold : (w₀.flags ev).active = false) (hpolled : w.polled ev)
    (hactive : (w.flags ev).active = (w₀.flags ev).active) (res : EventFlags) :
    w₀.ScanInv rep (i + 1) (w.report ev res) := by
  have hmet := fun x => met_succ rep h.indexed hev hi x
  simp only [hrep, Bool.and_true] at hmet
  have hnot : w₀.met rep i ev = false := not_met_self hi
  obtain ⟨f, hkind, hf, heq⟩ := report_of_not_active (hactive.trans hold) res
  have hone : (w.flags ev).oneshot = (w₀.flags ev).oneshot := (h.kind ev).oneshot
  have hready : ∀ x, (ev :: w.evReady).count x = w₀.evReady.count x +
      if w₀.met rep (i + 1) x && !(w₀.flags x).active then 1 else 0 := by
    intro x
    by_cases hx : x = ev
    · simp [hx, h.ready, hmet, hnot, hold]
    · simp [Ne.symm hx, h.ready, hmet, hx]
  have hflags : ∀ x, (Function.update w.flags ev f x).active =
      ((w₀.flags x).active || w₀.met rep (i + 1) x) := by
    intro x
    by_cases hx : x = ev
    · simp [hx, hf, hmet]
    · simp [hx, h.active, hmet]
  have hkinds : ∀ x, SameKind (Function.update w.flags ev f x) (w₀.flags x) :=
    fun x => (kind_update hkind x).trans (h.kind x)
  have hdropped : ∀ x, w₀.dropped rep (i + 1) x =
      (decide (x = ev) && (w₀.flags ev).oneshot || w₀.dropped rep i x) := by
    intro x
    by_cases hx : x = ev
    · simp [dropped, hx, hold, hmet, hnot]
    · simp [dropped, hmet, hx]
  rw [heq]
  cases hw : (w₀.flags ev).oneshot with
  | false =>
      have hsame : w₀.dropped rep (i + 1) = w₀.dropped rep i := by
        ext x
        simp [hdropped, hw]
      rw [if_neg (by simp [hone, hw])]
      refine ⟨?_, ?_, hflags, hready, hkinds, h.fd, h.signal⟩
      · simpa [hsame, setFlags] using h.scanned.skip
      · simpa [hsame, setFlags] using h.registered
  | true =>
      -- A oneshot event is in the array, so its deletion moves the last entry.
      rw [if_pos (by simp [hone, hw]), evqDel_polled hpolled hkind.timer]
      refine ⟨?_, fun x => ?_, hflags, hready, hkinds, h.fd, h.signal⟩
      · have hset : { x | w₀.dropped rep (i + 1) x = true } =
            insert ev { x | w₀.dropped rep i x = true } := by
          ext x
          simp [hdropped, hw]
        rw [hset]
        exact h.scanned.delete hn hslot
      · by_cases hx : x = ev
        · simp [hx, hdropped, hw]
        · simp [hx, hdropped, h.registered]

/-- The event at this place is ready. -/
theorem ScanInv.report (h : w₀.ScanInv rep i w) (hn : i < w₀.npolls)
    (hslot : w.events i = some ev) (hrep : rep ev) (res : EventFlags) :
    w₀.ScanInv rep (i + 1) (w.report ev res) := by
  obtain ⟨ev', hslot', -, hev, hi, hpolled, -, hactive⟩ := h.current hn
  obtain rfl : ev = ev' := Option.some.inj (hslot.symm.trans hslot')
  cases hold : (w₀.flags ev).active with
  | true => exact h.report_active hev hi hrep hold hactive res
  | false => exact h.report_fresh hn hslot hev hi hrep hold hpolled hactive res

end

/-! ## The wait as a whole -/

/-- From the state `w₀` to the state `w`, the events that `rep` names have been reported and no
others: they are active, those among them that are oneshot and were not active before are
unregistered, and the remaining events know their places. -/
structure Reported (rep : ε → Bool) (w₀ w : Watch ε) : Prop where
  active : ∀ ev, (w.flags ev).active = ((w₀.flags ev).active || w₀.polled ev && rep ev)
  registered : ∀ ev, w.registered ev = (w₀.registered ev &&
    !(w₀.polled ev && rep ev && (w₀.flags ev).oneshot && !(w₀.flags ev).active))
  ready : ∀ ev, w.evReady.count ev = w₀.evReady.count ev +
    if w₀.polled ev && rep ev && !(w₀.flags ev).active then 1 else 0
  kind : ∀ ev, SameKind (w.flags ev) (w₀.flags ev)
  fd : w.fd = w₀.fd
  signal : w.signal = w₀.signal
  indexed : w.Indexed

section
variable {w w₀ : Watch ε} {ev : ε} {rep : ε → Bool} {m : ℕ}

/-- The events that are left know their places. -/
theorem ScanInv.placed (h : w₀.ScanInv rep m w) : w.Indexed := by
  have hset : { ev | w.polled ev = true } =
      { ev | w₀.polled ev = true } \ { ev | w₀.dropped rep m ev = true } := by
    ext ev
    simp only [polled, h.registered, h.signal, (h.kind ev).timer, Set.mem_ofPred_eq,
      Set.mem_sdiff, Bool.and_eq_true, Bool.not_eq_true', Bool.not_eq_true]
    tauto
  rw [Indexed, hset]
  exact h.scanned.placed

/-- Behind the last ready event, the loop has reported them all. -/
theorem ScanInv.finish (h : w₀.ScanInv rep m w)
    (hlast : ∀ ev, w₀.polled ev → m ≤ w₀.index ev → rep ev = false) : w₀.Reported rep w := by
  have hmet : ∀ ev, w₀.met rep m ev = (w₀.polled ev && rep ev) := by
    intro ev
    by_cases hlt : w₀.index ev < m
    · simp [met, hlt]
    · cases hev : w₀.polled ev
      · simp [met, hev]
      · simp [met, hev, hlast ev hev (by omega)]
  refine ⟨?_, ?_, ?_, h.kind, h.fd, h.signal, ?_⟩
  · simpa [hmet] using h.active
  · simpa [hmet, dropped] using h.registered
  · simpa [hmet] using h.ready
  · exact h.placed

/-- The list of the ready events has each active event once. -/
theorem Reported.readyOnce (h : w₀.Reported rep w) (h₀ : w₀.ReadyOnce) : w.ReadyOnce := by
  intro ev
  rw [h.ready, h₀, h.active]
  cases (w₀.flags ev).active <;> cases w₀.polled ev <;> cases rep ev <;> rfl

end

/-! ## Signals -/

/-- Only events of signals have been touched. -/
structure OnlySignals (w₀ w : Watch ε) : Prop where
  flags : ∀ ev, w₀.signal ev = false → w.flags ev = w₀.flags ev
  registered : ∀ ev, w₀.signal ev = false → w.registered ev = w₀.registered ev
  ready : ∀ ev, w₀.signal ev = false → w.evReady.count ev = w₀.evReady.count ev
  fd : w.fd = w₀.fd
  signal : w.signal = w₀.signal
  index : w.index = w₀.index
  npolls : w.npolls = w₀.npolls
  events : w.events = w₀.events

section
variable {w w₀ w₁ : Watch ε} {ev : ε} {sigs : List ε}

theorem OnlySignals.refl (w : Watch ε) : w.OnlySignals w :=
  ⟨fun _ _ => rfl, fun _ _ => rfl, fun _ _ => rfl, rfl, rfl, rfl, rfl, rfl⟩

theorem OnlySignals.trans (h₁ : w₀.OnlySignals w₁) (h₂ : w₁.OnlySignals w) :
    w₀.OnlySignals w where
  flags ev hev := (h₂.flags ev (by rw [h₁.signal, hev])).trans (h₁.flags ev hev)
  registered ev hev := (h₂.registered ev (by rw [h₁.signal, hev])).trans (h₁.registered ev hev)
  ready ev hev := (h₂.ready ev (by rw [h₁.signal, hev])).trans (h₁.ready ev hev)
  fd := h₂.fd.trans h₁.fd
  signal := h₂.signal.trans h₁.signal
  index := h₂.index.trans h₁.index
  npolls := h₂.npolls.trans h₁.npolls
  events := h₂.events.trans h₁.events

theorem OnlySignals.polled (h : w₀.OnlySignals w) (ev : ε) : w.polled ev = w₀.polled ev := by
  cases hsig : w₀.signal ev
  · simp [Watch.polled, h.signal, hsig, h.flags ev hsig, h.registered ev hsig]
  · simp [Watch.polled, h.signal, hsig]

theorem OnlySignals.indexed (h : w₀.OnlySignals w) (h₀ : w₀.Indexed) : w.Indexed := by
  have hset : { ev | w.polled ev = true } = { ev | w₀.polled ev = true } := by
    ext ev
    simp [h.polled ev]
  rw [Indexed, hset, h.events, h.index, h.npolls]
  exact h₀

/-- The event of a signal is reported: the array stays as it is. -/
theorem report_signal (hsig : w.signal ev) (res : EventFlags) :
    w.OnlySignals (w.report ev res) ∧ (w.ReadyOnce → (w.report ev res).ReadyOnce) := by
  have hne : ∀ x, w.signal x = false → x ≠ ev := by
    rintro x hx rfl
    simp [hsig] at hx
  cases hold : (w.flags ev).active with
  | true =>
      rw [report_of_active hold]
      refine ⟨⟨fun x hx => ?_, fun _ _ => rfl, fun _ _ => rfl, rfl, rfl, rfl, rfl, rfl⟩,
        fun hready x => ?_⟩
      · simp [setRes, setFlags, hne x hx]
      · by_cases hx : x = ev
        · simpa [hx, setRes, setFlags] using hready ev
        · simpa [hx, setRes, setFlags] using hready x
  | false =>
      obtain ⟨f, -, hf, heq⟩ := report_of_not_active hold res
      have hready : w.ReadyOnce → ∀ x, (ev :: w.evReady).count x =
          if (Function.update w.flags ev f x).active then 1 else 0 := by
        intro h x
        by_cases hx : x = ev
        · simp [hx, hf, h ev, hold]
        · simpa [hx, Ne.symm hx] using h x
      -- Deletion of a signal ends the registration and nothing else.
      obtain ⟨r, hr, heq⟩ : ∃ r : ε → Bool, (∀ x ≠ ev, r x = w.registered x) ∧
          w.report ev res = { w.setFlags ev f with registered := r, evReady := ev :: w.evReady } := by
        cases hone : (w.flags ev).oneshot
        · exact ⟨w.registered, fun _ _ => rfl, by simp [heq, hone, setFlags]⟩
        · refine ⟨Function.update w.registered ev false, fun x hx => ?_, ?_⟩
          · simp [hx]
          · simp [heq, hone, setFlags, evqDel, hsig]
      rw [heq]
      refine ⟨⟨fun x hx => ?_, fun x hx => hr x (hne x hx), fun x hx => ?_, rfl, rfl, rfl, rfl,
        rfl⟩, hready⟩
      · simp [setFlags, hne x hx]
      · simp [Ne.symm (hne x hx)]

theorem interrupt_onlySignals (hsigs : ∀ ev ∈ sigs, w.signal ev) :
    w.OnlySignals (w.interrupt sigs) ∧ (w.ReadyOnce → (w.interrupt sigs).ReadyOnce) := by
  induction sigs generalizing w with
  | nil => exact ⟨OnlySignals.refl w, id⟩
  | cons ev sigs ih =>
      obtain ⟨hone, hready⟩ := report_signal (hsigs ev List.mem_cons_self) { readRes := true }
      obtain ⟨hrest, hready'⟩ := ih (w := w.report ev { readRes := true }) fun x hx => by
        rw [hone.signal]
        exact hsigs x (List.mem_cons_of_mem ev hx)
      exact ⟨hone.trans hrest, fun h => hready' (hready h)⟩

end

/-- A wait has put every event in the array that is ready on the list exactly once, and no other
event with a descriptor; it has unregistered the oneshot ones among those that it put there; and
all events that remain know their places. -/
structure MissesNothing (rep : ε → Bool) (w₀ w : Watch ε) : Prop where
  listed : ∀ ev, w₀.signal ev = false → w.evReady.count ev =
    if (w₀.flags ev).active || w₀.polled ev && rep ev then 1 else 0
  registered : ∀ ev, w₀.signal ev = false → w.registered ev = (w₀.registered ev &&
    !(w₀.polled ev && rep ev && (w₀.flags ev).oneshot && !(w₀.flags ev).active))
  indexed : w.Indexed

theorem Reported.missesNothing {w w₀ w₁ : Watch ε} {rep : ε → Bool} (h : w₁.Reported rep w)
    (h₀ : w₀.OnlySignals w₁) (hready : w₁.ReadyOnce) : w₀.MissesNothing rep w where
  listed ev hev := by
    rw [h.readyOnce hready, h.active, h₀.flags ev hev, h₀.polled]
  registered ev hev := by
    rw [h.registered, h₀.flags ev hev, h₀.polled, h₀.registered ev hev]
  indexed := h.indexed

theorem MissesNothing.congr {w w₀ : Watch ε} {rep rep' : ε → Bool} (h : w₀.MissesNothing rep w)
    (heq : ∀ ev, w₀.polled ev → rep ev = rep' ev) : w₀.MissesNothing rep' w := by
  have hand : ∀ ev, (w₀.polled ev && rep ev) = (w₀.polled ev && rep' ev) := by
    intro ev
    cases hev : w₀.polled ev
    · rfl
    · rw [heq ev hev]
  refine ⟨fun ev hev => ?_, fun ev hev => ?_, h.indexed⟩
  · rw [← hand]
    exact h.listed ev hev
  · rw [← hand]
    exact h.registered ev hev

end Watch

end LuaSys.Event
