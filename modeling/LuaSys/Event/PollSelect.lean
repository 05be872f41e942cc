import LuaSys.Event.SelectSets

/-!
# The backends `poll.c` and `select.c` do the same

Both backends keep their events in an array, and their waits go over it in the same order.  What
they ask the kernel is different: one hands over the array `fdset`, the other two sets of
descriptors and the largest of them.  So a program should not see which of them it has.

There is one wait for both of them, `Watch.wait`, which asks for each event whether its descriptor
is ready.  The wait of `poll.c` is this wait as long as it stays in its arrays.  The wait of
`select.c` is this wait if no two events wait for the same descriptor in the same direction, and
`select` is asked for all of them.  A run of one backend is then a run of the other.

For a hang-up, an error or a descriptor that is not open `poll` has bits of their own, which it
reports unasked, and `select` has none; the two do the same as long as there are no such bits.

## Main definitions

* `Readiness` — the descriptors that are ready.
* `QueueOp`, `PollSet.step`, `SelectSet.stepIo` — the calls of a backend, for each of them.
* `Watch.wait`, `Watch.perform` — what both backends do.
* `QueueOp.Safe` — the conditions for a call to be the same for both.

## Main results

* `PollSet.evqPoll_watch`, `SelectSet.evqSelect_watch` — the two waits are this one.
* `poll_run_simulated` — the events are the same after the same calls.
-/

namespace LuaSys.Event

open LuaSys.Lib

/-- The descriptors that are ready, and the other bits that `poll` has for a descriptor. -/
structure Readiness where
  read : ℕ → Bool
  write : ℕ → Bool
  failed : ℕ → ℕ

/-- A call of a backend.  The outcomes of `realloc` are for `poll.c` only. -/
inductive QueueOp (ε : Type*)
  /-- `levq_add` sets the fields of a free event and registers it. -/
  | add (ev : ε) (fd : ℕ) (flags : EventFlags) (signal : Bool) (r : Reallocs)
  | del (ev : ε) (r : Reallocs)
  /-- `levq_mod_socket`. -/
  | modify (ev : ε) (read : Bool)
  /-- `evq_wait`; `sigs` are the events of the signals that have arrived. -/
  | wait (io : Readiness) (sigs : List ε) (r : ℕ → Reallocs)
  /-- The loop changes other flags of an event, and the list of the ready events. -/
  | loop (ev : ε) (flags : EventFlags) (evReady : List ε)

section
variable {ε : Type*} [DecidableEq ε]

namespace PollSet

/-- `evq_init`; the array has the pipe at the place 0. -/
def init (sigFd : ℕ) : PollSet ε where
  fd _ := 0
  flags _ := {}
  signal _ := false
  registered _ := false
  index _ := 0
  npolls := 1
  events _ := none
  evReady := []
  maxPolls := nevent
  -- only the first entry is set by the source
  fdset _ := ⟨sigFd, pollIn, 0⟩
  eventsBlock := 0
  fdsetBlock := 0

/-- `evq_modify`, with the flags `EVENT_READ` or `EVENT_WRITE`. -/
def evqModify (s : PollSet ε) (ev : ε) (read : Bool) : PollSet ε :=
  { s with
    fdset := Function.update s.fdset (s.index ev)
      { s.fdset (s.index ev) with events := if read then pollIn else pollOut } }

/-- `levq_add`: an event that could not be registered is free again.  A timer does not come to
the backend. -/
def levqAdd (s : PollSet ε) (ev : ε) (fd : ℕ) (flags : EventFlags) (signal : Bool)
    (r : Reallocs) : PollSet ε :=
  let s := { s with
    fd := Function.update s.fd ev fd
    flags := Function.update s.flags ev flags
    signal := Function.update s.signal ev signal }
  if flags.timer then { s with registered := Function.update s.registered ev true }
  else
    let p := s.evqAdd ev r
    if p.2 = 0 then p.1 else { p.1 with registered := Function.update p.1.registered ev false }

/-- `levq_mod_socket`: `evq_modify`, and the new flag. -/
def levqModSocket (s : PollSet ε) (ev : ε) (read : Bool) : PollSet ε :=
  let s := s.evqModify ev read
  { s with toWatch := s.setFlags ev { s.flags ev with read := read, write := !read } }

/-- What `poll` finds for an entry: what it is asked for, and unasked that the descriptor has
failed. -/
def revents (s : PollSet ε) (io : Readiness) (i : ℕ) : ℕ :=
  (s.fdset i).events &&& ((if io.read (s.fdset i).fd then pollIn else 0) |||
    if io.write (s.fdset i).fd then pollOut else 0) |||
  io.failed (s.fdset i).fd &&& (pollErr ||| pollHup ||| pollNval)

/-- No entry has failed. -/
def Sound (s : PollSet ε) (io : Readiness) : Prop :=
  ∀ i < s.npolls, io.failed (s.fdset i).fd = 0

instance (s : PollSet ε) (io : Readiness) : Decidable (s.Sound io) :=
  inferInstanceAs (Decidable (∀ i < s.npolls, _))

/-- One call.  An event is added when it is free, and deleted or changed when it is registered;
the events of the signals in a wait are such. -/
def step (s : PollSet ε) : QueueOp ε → Option (PollSet ε)
  | .add ev fd flags signal r =>
      if s.registered ev then none else some (s.levqAdd ev fd flags signal r)
  | .del ev r => if s.registered ev then some (s.evqDel ev r) else none
  | .modify ev read => if s.polled ev then some (s.levqModSocket ev read) else none
  | .wait io sigs r =>
      if ∀ ev ∈ sigs, s.signal ev then s.evqPoll (s.revents io) sigs r else none
  | .loop ev flags evReady =>
      if SameDirection flags (s.flags ev) then
        some { s with toWatch := { s.setFlags ev flags with evReady := evReady } }
      else none

end PollSet

namespace SelectSet

/-- The sets that `select` leaves: of the members below `nfds`, those that are ready. -/
def workRead (s : SelectSet ε) (io : Readiness) : Finset ℕ :=
  s.readset.filter fun fd => io.read fd ∧ (fd : ℤ) < s.nfds

def workWrite (s : SelectSet ε) (io : Readiness) : Finset ℕ :=
  s.writeset.filter fun fd => io.write fd ∧ (fd : ℤ) < s.nfds

/-- The call with what `select` leaves. -/
def selectOp (s : SelectSet ε) : QueueOp ε → SelectOp ε
  | .add ev fd flags signal _ => .add ev fd flags signal
  | .del ev _ => .del ev
  | .modify ev read => .modify ev read
  | .wait io sigs _ => .wait (s.workRead io) (s.workWrite io) sigs
  | .loop ev flags evReady => .loop ev flags evReady

/-- One call. -/
def stepIo (s : SelectSet ε) (op : QueueOp ε) : Option (SelectSet ε) := s.step (s.selectOp op)

/-- No other event, nor the pipe, waits for the descriptor in a direction of these flags. -/
def Free (s : SelectSet ε) (ev : ε) (fd : ℕ) (f : EventFlags) : Prop :=
  (f.read → fd ≠ s.sigFd) ∧ ∀ x, s.polled x → x ≠ ev → s.fd x = fd →
    ¬((s.flags x).read ∧ f.read) ∧ ¬((s.flags x).write ∧ f.write)

end SelectSet

/-- The conditions for a call.  An event with a descriptor waits for input or output, there is room
for it, and it does not share its descriptor; a wait of `select.c` asks for everything, and no
descriptor has failed; and the loop keeps the list of the active events. -/
def QueueOp.Safe (p : PollSet ε) (s : SelectSet ε) : QueueOp ε → Prop
  | .add ev fd flags signal r =>
      flags.active = false ∧ (s.flags ev).active = false ∧
        (signal ∨ flags.timer ∨
          fd < fdSetsize ∧ s.npolls < fdSetsize ∧ (p.npolls < p.maxPolls ∨ r.events ∧ r.fdset) ∧
            (flags.read ∨ flags.write) ∧ s.Free ev fd flags)
  | .del _ _ => True
  | .modify ev read => s.Free ev (s.fd ev) { read := read, write := !read }
  | .wait io _ _ => s.KnowsMax ∧ p.Sound io
  | .loop ev flags evReady =>
      ({ s.setFlags ev flags with evReady := evReady } : Watch ε).ReadyOnce

/-! ## One wait for both -/

namespace Watch

/-- The result flags of an event, if it waits for input or else for output. -/
def expected (w : Watch ε) (io : Readiness) (ev : ε) : EventFlags :=
  if (w.flags ev).read then { readRes := io.read (w.fd ev) } else { writeRes := io.write (w.fd ev) }

/-- The descriptor of the event is ready. -/
def hit (w : Watch ε) (io : Readiness) (ev : ε) : Bool :=
  if (w.flags ev).read then io.read (w.fd ev) else io.write (w.fd ev)

/-- The event at the place `i` is reported if it is ready. -/
def visit (io : Readiness) (w : Watch ε) (i : ℕ) : Watch ε :=
  (w.events i).elim w fun ev => if w.hit io ev then w.report ev (w.expected io ev) else w

/-- A wait, without the count of those that are ready. -/
def wait (w : Watch ε) (io : Readiness) (sigFd : ℕ) (sigs : List ε) : Watch ε :=
  (List.range' 1 (w.npolls - 1)).foldl (visit io) (if io.read sigFd then w.interrupt sigs else w)

/-- The calls, for both. -/
def perform (sigFd : ℕ) (w : Watch ε) : QueueOp ε → Watch ε
  | .add ev fd flags signal _ =>
      let w := { w with
        fd := Function.update w.fd ev fd
        flags := Function.update w.flags ev flags
        signal := Function.update w.signal ev signal
        registered := Function.update w.registered ev true }
      if flags.timer || signal then w else w.append ev
  | .del ev _ => w.evqDel ev
  | .modify ev read => w.setFlags ev { w.flags ev with read := read, write := !read }
  | .wait io sigs _ => w.wait io sigFd sigs
  | .loop ev flags evReady => { w.setFlags ev flags with evReady := evReady }

/-- Each event with a descriptor waits for something, and no two wait for the same; the pipe waits
for input. -/
structure Apart (w : Watch ε) (sigFd : ℕ) : Prop where
  kind : ∀ ev, w.polled ev → (w.flags ev).read ∨ (w.flags ev).write
  read : ∀ x y, w.polled x → w.polled y → (w.flags x).read → (w.flags y).read →
    w.fd x = w.fd y → x = y
  write : ∀ x y, w.polled x → w.polled y → (w.flags x).write → (w.flags y).write →
    w.fd x = w.fd y → x = y
  pipe : ∀ x, w.polled x → (w.flags x).read → w.fd x ≠ sigFd

section
variable {w w₀ w₁ : Watch ε} {io : Readiness} {ev : ε} {i m : ℕ} {sigs : List ε}
variable {rep rep' : ε → Bool}

omit [DecidableEq ε] in
theorem polled_not_signal (h : w.polled ev) : w.signal ev = false := by
  simp only [polled, Bool.and_eq_true, Bool.not_eq_true'] at h
  exact h.1.2

omit [DecidableEq ε] in
theorem expected_res (w : Watch ε) (io : Readiness) (ev : ε) :
    ((w.expected io ev).readRes || (w.expected io ev).writeRes) = w.hit io ev := by
  unfold expected hit
  split
  · exact Bool.or_false _
  · exact Bool.false_or _

omit [DecidableEq ε] in
/-- The kind of an event and its descriptor say whether it is ready. -/
theorem hit_congr (io : Readiness) (hkind : (w.flags ev).read = (w₀.flags ev).read)
    (hfd : w.fd = w₀.fd) :
    w.hit io ev = w₀.hit io ev ∧ w.expected io ev = w₀.expected io ev := by
  rw [hit, hit, expected, expected, hkind, hfd]
  exact ⟨rfl, rfl⟩

theorem ScanInv.congr (h : w₀.ScanInv rep i w) (heq : ∀ ev, w₀.polled ev → rep ev = rep' ev) :
    w₀.ScanInv rep' i w := by
  have hmet : w₀.met rep i = w₀.met rep' i := by
    ext ev
    unfold met
    cases hev : w₀.polled ev
    · rfl
    · rw [heq ev hev]
  have hdropped : w₀.dropped rep i = w₀.dropped rep' i := by
    ext ev
    rw [dropped, dropped, hmet]
  exact ⟨hdropped ▸ h.scanned, hdropped ▸ h.registered, hmet ▸ h.active, hmet ▸ h.ready, h.kind,
    h.fd, h.signal⟩

/-- Behind the last ready event, the loop changes nothing. -/
theorem foldl_visit_rest (h : w₀.ScanInv (w₀.hit io) m w) {k : ℕ} (hk : m + k = w₀.npolls)
    (hlast : ∀ ev, w₀.polled ev → m ≤ w₀.index ev → w₀.hit io ev = false) :
    (List.range' m k).foldl (visit io) w = w := by
  induction k generalizing m with
  | zero => rfl
  | succ k ih =>
      obtain ⟨ev, hslot, -, hev, hindex, -⟩ := h.current (by omega)
      have hnot : w₀.hit io ev = false := hlast ev hev (Nat.le_of_eq hindex.symm)
      have hvisit : visit io w m = w := by
        rw [visit, hslot, Option.elim_some, (hit_congr io (h.kind ev).read h.fd).1, hnot]
        exact if_neg Bool.false_ne_true
      rw [List.range'_succ, List.foldl_cons, hvisit]
      exact ih (h.skip hev hindex hnot) (by omega) fun ev hev hle => hlast ev hev (by omega)

/-- It does not matter that the loop stops behind the last ready event. -/
theorem foldl_visit_all (h : w₀.ScanInv (w₀.hit io) m w) (hlo : 1 ≤ m) (hm : m ≤ w₀.npolls)
    (hfold : w = (List.range' 1 (m - 1)).foldl (visit io) w₀)
    (hlast : ∀ ev, w₀.polled ev → m ≤ w₀.index ev → w₀.hit io ev = false) :
    w = (List.range' 1 (w₀.npolls - 1)).foldl (visit io) w₀ := by
  have hsplit : List.range' 1 (w₀.npolls - 1) =
      List.range' 1 (m - 1) ++ List.range' m (w₀.npolls - m) := by
    have hstart : 1 + (m - 1) = m := by omega
    have hsum : w₀.npolls - 1 = m - 1 + (w₀.npolls - m) := by omega
    rw [hsum, ← List.range'_append_1, hstart]
  have hrest := foldl_visit_rest h (Nat.add_sub_cancel' hm) hlast
  rw [hsplit, List.foldl_append, ← hfold, hrest]

/-- The interruption of a wait does not change what is ready. -/
theorem hit_onlySignals (h : w₀.OnlySignals w₁) (hev : w₀.polled ev) :
    w₁.hit io ev = w₀.hit io ev ∧ w₁.expected io ev = w₀.expected io ev :=
  hit_congr io (by rw [h.flags ev (polled_not_signal hev)]) h.fd

/-- What a loop has left: fewer events, of the same kinds. -/
structure Fewer (w w₀ : Watch ε) : Prop where
  polled : ∀ ev, w.polled ev → w₀.polled ev
  read : ∀ ev, w.polled ev → (w.flags ev).read = (w₀.flags ev).read
  write : ∀ ev, w.polled ev → (w.flags ev).write = (w₀.flags ev).write
  fd : ∀ ev, w.polled ev → w.fd ev = w₀.fd ev

theorem ScanInv.fewer (h : w₁.ScanInv rep i w) (h₀ : w₀.OnlySignals w₁) : w.Fewer w₀ := by
  have hpolled : ∀ ev, w.polled ev → w₀.polled ev := by
    intro ev hev
    rw [← h₀.polled]
    simp only [Watch.polled, Bool.and_eq_true, Bool.not_eq_true', h.registered, h.signal,
      (h.kind ev).timer] at hev ⊢
    exact ⟨⟨hev.1.1.1, hev.1.2⟩, hev.2⟩
  have hflags : ∀ ev, w.polled ev → w₁.flags ev = w₀.flags ev := fun ev hev =>
    h₀.flags ev (polled_not_signal (hpolled ev hev))
  refine ⟨hpolled, fun ev hev => ?_, fun ev hev => ?_, fun ev _ => by rw [h.fd, h₀.fd]⟩
  · rw [(h.kind ev).read, hflags ev hev]
  · rw [(h.kind ev).write, hflags ev hev]

end

end Watch

/-! ## The wait of `poll.c` -/

namespace PollSet

/-- The entry of the pipe. -/
structure Piped (p : PollSet ε) (sigFd : ℕ) : Prop where
  fd : (p.fdset 0).fd = sigFd
  events : (p.fdset 0).events = pollIn

section
variable {p p' : PollSet ε} {io : Readiness} {sigs : List ε} {r : ℕ → Reallocs} {sigFd i : ℕ}
variable {ev : ε}

/-- What `poll` finds for an event that waits for something. -/
theorem revents_spec {f : EventFlags} (hkind : f.read ∨ f.write) (a b : Bool) :
    let found := pollEvents f &&& ((if a then pollIn else 0) ||| if b then pollOut else 0)
    decide (found ≠ 0) = (if f.read then a else b) ∧
      (found ≠ 0 →
        resultFlags found f = if f.read then { readRes := a } else { writeRes := b }) := by
  cases hread : f.read with
  | true =>
      cases a <;> cases b <;>
        simp [pollEvents, resultFlags, hread, pollIn, pollOut, pollErr, pollHup, pollNval,
          pollfdRead]
  | false =>
      have hwrite : f.write = true := hkind.resolve_left (by rw [hread]; exact Bool.false_ne_true)
      cases a <;> cases b <;>
        simp [pollEvents, resultFlags, hread, hwrite, pollIn, pollOut, pollErr, pollHup, pollNval,
          pollfdWrite]

omit [DecidableEq ε] in
/-- What `poll` finds for an entry that has not failed. -/
theorem Sound.revents (h : p.Sound io) (hi : i < p.npolls) : p.revents io i =
    (p.fdset i).events &&& ((if io.read (p.fdset i).fd then pollIn else 0) |||
      if io.write (p.fdset i).fd then pollOut else 0) := by
  rw [PollSet.revents, h i hi, Nat.zero_and, Nat.or_zero]

/-- The entry of an event tells whether it is ready. -/
theorem revents_eq (h : p.Wf) (hsound : p.Sound io)
    (hkind : ∀ ev, p.polled ev → (p.flags ev).read ∨ (p.flags ev).write)
    (hev : p.polled ev) : decide (p.revents io (p.index ev) ≠ 0) = p.hit io ev ∧
      (p.revents io (p.index ev) ≠ 0 →
        resultFlags (p.revents io (p.index ev)) (p.flags ev) = p.expected io ev) := by
  obtain ⟨hfd, hevents⟩ := h.fdset ev hev
  have hspec := revents_spec (hkind ev hev) (io.read (p.fd ev)) (io.write (p.fd ev))
  rw [hsound.revents (h.indexed.lt ev hev), hfd, hevents]
  exact hspec

/-- A deletion does not touch the entry of the pipe. -/
theorem evqDel_fdset_zero {re : Reallocs}
    (h : ((p.flags ev).timer || p.signal ev) = false → p.index ev ≠ 0) :
    (p.evqDel ev re).fdset 0 = p.fdset 0 := by
  unfold evqDel
  dsimp only
  split
  next => rfl
  next hplace =>
    rw [shrink_eq]
    exact swapDel_of_ne (Ne.symm (h (Bool.eq_false_iff.mpr hplace)))

theorem report_fdset_zero {res : EventFlags} {re : Reallocs} (h : p.index ev ≠ 0) :
    (p.report ev res re).fdset 0 = p.fdset 0 := by
  unfold report
  dsimp only
  split
  · rfl
  · split
    · exact evqDel_fdset_zero fun _ => h
    · rfl

/-- The body of the loop at the place `i`. -/
theorem visit_watch {e s s' : PollSet ε} {events fdset : ℕ} {b : Bool} (h : LoopInv r e i s)
    (hlo : 1 ≤ i) (hi : i < e.npolls)
    (hready : ∀ ev, e.polled ev → e.ready ev = e.hit io ev)
    (hres : ∀ ev, e.polled ev → (e.fdset (e.index ev)).revents ≠ 0 →
      resultFlags (e.fdset (e.index ev)).revents (e.flags ev) = e.expected io ev)
    (hvisit : visit events fdset r i s = some (s', b)) :
    s'.toWatch = s.toWatch.visit io i ∧ (s.Piped sigFd → s'.Piped sigFd) := by
  obtain ⟨ev, hslot, -, hev, hindex, hpolled, -⟩ := h.watch.current hi
  have hrev := congrArg PollFd.revents (h.ahead i (Nat.le_refl i))
  have hkind := h.watch.kind ev
  obtain ⟨hhit, hexpected⟩ := Watch.hit_congr io hkind.read h.watch.fd
  have hsame : s.toWatch.visit io i =
      if s.hit io ev then s.toWatch.report ev (s.expected io ev) else s.toWatch := by
    rw [Watch.visit, hslot, Option.elim_some]
  rw [hsame, hhit, hexpected, ← hready ev hev, ready, hindex]
  unfold visit at hvisit
  split at hvisit
  · dsimp only at hvisit
    rw [hrev] at hvisit
    split at hvisit
    next hzero =>
      obtain rfl : s = s' := congrArg Prod.fst (Option.some.inj hvisit)
      rw [hzero]
      exact ⟨rfl, id⟩
    next hne =>
      split at hvisit
      · rw [hslot, Option.map_some] at hvisit
        obtain rfl := congrArg Prod.fst (Option.some.inj hvisit)
        have hflags : resultFlags (e.fdset i).revents (s.flags ev) = e.expected io ev := by
          have hold := hres ev hev (by rw [hindex]; exact hne)
          rw [hindex] at hold
          rw [← hold, resultFlags, resultFlags, hkind.read, hkind.write]
        refine ⟨?_, fun hpipe => ?_⟩
        · rw [report_toWatch, hflags, decide_eq_true hne]
          rfl
        · have hindexed := h.watch.placed.lo_le ev hpolled
          have hne : s.index ev ≠ 0 := by omega
          have hzero : 0 ≠ i := by omega
          exact ⟨(congrArg PollFd.fd ((report_fdset_zero (by exact hne)).trans
              (Function.update_of_ne hzero _ _))).trans hpipe.fd,
            (congrArg PollFd.events ((report_fdset_zero (by exact hne)).trans
              (Function.update_of_ne hzero _ _))).trans hpipe.events⟩
      · cases hvisit
  · cases hvisit

/-- The loop of the wait. -/
theorem scan_watch {e p' : PollSet ε} {extra : ℕ} (h : LoopInv r e 1 e) (hpos : 1 ≤ e.npolls)
    (hready : ∀ ev, e.polled ev → e.ready ev = e.hit io ev)
    (hres : ∀ ev, e.polled ev → (e.fdset (e.index ev)).revents ≠ 0 →
      resultFlags (e.fdset (e.index ev)).revents (e.flags ev) = e.expected io ev)
    (hpipe : e.Piped sigFd)
    (hscan : scan (visit e.eventsBlock e.fdsetBlock r) (e.npolls - 1) 1
      (hits (fun i => decide ((e.fdset i).revents ≠ 0)) 1 (e.npolls - 1) + extra) e = some p') :
    p'.toWatch = (List.range' 1 (e.npolls - 1)).foldl (Watch.visit io) e.toWatch ∧
      p'.Piped sigFd ∧ ∃ m, e.toWatch.ScanInv (e.hit io) m p'.toWatch := by
  let Inv (i : ℕ) (s : PollSet ε) : Prop := 1 ≤ i ∧ LoopInv r e i s ∧
    s.toWatch = (List.range' 1 (i - 1)).foldl (Watch.visit io) e.toWatch ∧ s.Piped sigFd
  have hvisit : ∀ i s, i < e.npolls → Inv i s → e.InBounds r i →
      ∃ s', visit e.eventsBlock e.fdsetBlock r i s =
        some (s', decide ((e.fdset i).revents ≠ 0)) ∧ Inv (i + 1) s' := by
    rintro i s hi ⟨hlo, hinv, hfold, hpipe'⟩ hbounds
    obtain ⟨s', hvisit, hinv'⟩ := hinv.visit hlo hi hbounds
    obtain ⟨hwatch, hkeep⟩ := visit_watch hinv hlo hi hready hres hvisit
    obtain ⟨k, rfl⟩ := Nat.exists_eq_add_of_le' hlo
    refine ⟨s', hvisit, Nat.le_succ_of_le hlo, hinv', ?_, hkeep hpipe'⟩
    rw [hwatch, hfold, Nat.add_sub_cancel, Nat.add_sub_cancel, List.range'_1_concat,
      List.foldl_append, Nat.add_comm k 1]
    rfl
  have hstart : Inv 1 e := ⟨Nat.le_refl 1, h, rfl, hpipe⟩
  have hN : 1 + (e.npolls - 1) = e.npolls := by omega
  have hok := (scan_some_iff hvisit (fun i s _ hinv hout => hinv.2.1.visit_none hout) hN
    hstart).mp (by rw [hscan]; rfl)
  obtain ⟨s', m, hscan', ⟨hlo, hinv, hfold, hpipe'⟩, -, hmN, hlast⟩ :=
    scan_inv hvisit hN hstart hok
  obtain rfl := Option.some.inj (hscan'.symm.trans hscan)
  -- Behind the place `m` no event is ready, so it does not matter that the loop has stopped.
  have hwatch : e.toWatch.ScanInv (e.hit io) m s'.toWatch := hinv.watch.congr hready
  refine ⟨Watch.foldl_visit_all hwatch hlo hmN hfold fun ev hev hle => ?_, hpipe', m, hwatch⟩
  rw [← hready ev hev]
  exact hlast (e.index ev) hle (h.watch.indexed.lt ev hev)

/-- The wait is interrupted if and only if the pipe is ready. -/
theorem entered_io (sigs : List ε) (hsound : p.Sound io) (hpos : 1 ≤ p.npolls)
    (hpipe : p.Piped sigFd) :
    (p.entered (p.revents io) sigs).toWatch =
        (if io.read sigFd then p.toWatch.interrupt sigs else p.toWatch) ∧
      (p.entered (p.revents io) sigs).Piped sigFd := by
  have hentry : (p.fillRevents (p.revents io)).fdset 0 =
      { p.fdset 0 with revents := p.revents io 0 } := if_pos hpos
  have hbit : p.revents io 0 &&& pollIn ≠ 0 ↔ io.read sigFd = true := by
    rw [hsound.revents hpos, hpipe.fd, hpipe.events]
    cases io.read sigFd <;> cases io.write sigFd <;> decide
  unfold entered interrupted
  rw [hentry]
  by_cases hread : io.read sigFd = true
  · rw [if_pos (hbit.mpr hread), if_pos hread]
    exact ⟨rfl, ⟨hpipe.fd, hpipe.events⟩⟩
  · rw [if_neg fun hne => hread (hbit.mp hne), if_neg hread]
    exact ⟨rfl, ⟨(congrArg PollFd.fd hentry).trans hpipe.fd,
      (congrArg PollFd.events hentry).trans hpipe.events⟩⟩

/-- **The wait of `poll.c`**, as long as it stays in its arrays. -/
theorem evqPoll_watch (h : p.Wf) (hsound : p.Sound io)
    (hkind : ∀ ev, p.polled ev → (p.flags ev).read ∨ (p.flags ev).write) (hpipe : p.Piped sigFd)
    (hsigs : ∀ ev ∈ sigs, p.signal ev) (hp' : p.evqPoll (p.revents io) sigs r = some p') :
    p'.toWatch = p.toWatch.wait io sigFd sigs ∧ p'.Piped sigFd ∧ p'.toWatch.Fewer p.toWatch := by
  have hpos := h.pos
  obtain ⟨hw, -⟩ := entered_watch (p.revents io) hsigs
  have hn := hw.npolls
  have hpolled : ∀ ev, (p.entered (p.revents io) sigs).polled ev → p.polled ev :=
    fun ev hev => (hw.polled ev).symm.trans hev
  have hentry : ∀ ev, p.polled ev →
      ((p.entered (p.revents io) sigs).fdset (p.index ev)).revents = p.revents io (p.index ev) :=
    fun ev hev => by rw [entered_fdset (h.indexed.lo_le ev hev) (h.indexed.lt ev hev)]
  have hready : ∀ ev, (p.entered (p.revents io) sigs).polled ev →
      (p.entered (p.revents io) sigs).ready ev = (p.entered (p.revents io) sigs).hit io ev := by
    intro ev hev
    have hold := hpolled ev hev
    rw [ready, hw.index, hentry ev hold, (Watch.hit_onlySignals hw hold).1]
    exact (revents_eq h hsound hkind hold).1
  have hres : ∀ ev, (p.entered (p.revents io) sigs).polled ev →
      ((p.entered (p.revents io) sigs).fdset ((p.entered (p.revents io) sigs).index ev)).revents ≠
        0 → resultFlags ((p.entered (p.revents io) sigs).fdset
            ((p.entered (p.revents io) sigs).index ev)).revents
          ((p.entered (p.revents io) sigs).flags ev) =
            (p.entered (p.revents io) sigs).expected io ev := by
    intro ev hev hne
    have hold := hpolled ev hev
    rw [hw.index, hentry ev hold] at hne ⊢
    rw [(Watch.hit_onlySignals hw hold).2, hw.flags ev (Watch.polled_not_signal hold)]
    exact (revents_eq h hsound hkind hold).2 hne
  obtain ⟨hwatch, hpiped⟩ := entered_io sigs hsound hpos hpipe
  have hloop := loopInv_entered (p.revents io) r h hsigs
  rw [evqPoll_eq h, ← hn] at hp'
  obtain ⟨hfold, hpipe', m, hinv⟩ :=
    scan_watch hloop (by rw [hn]; exact hpos) hready hres hpiped hp'
  refine ⟨?_, hpipe', hinv.fewer hw⟩
  rw [hfold, hn, hwatch]
  rfl

end

end PollSet

/-! ## The wait of `select.c` -/

namespace SelectSet

section
variable {s s' : SelectSet ε} {io : Readiness} {sigs : List ε} {workRead workWrite : Finset ℕ}
variable {ev : ε} {i : ℕ}

omit [DecidableEq ε] in
theorem mem_workRead (h : s.SelectOk) {fd : ℕ} :
    fd ∈ s.workRead io ↔ fd ∈ s.readset ∧ io.read fd := by
  rw [workRead, Finset.mem_filter]
  refine and_congr_right fun hmem => and_iff_left ?_
  exact h.wide fd (Finset.mem_union_left _ hmem)

omit [DecidableEq ε] in
theorem mem_workWrite (h : s.SelectOk) {fd : ℕ} :
    fd ∈ s.workWrite io ↔ fd ∈ s.writeset ∧ io.write fd := by
  rw [workWrite, Finset.mem_filter]
  refine and_congr_right fun hmem => and_iff_left ?_
  exact h.wide fd (Finset.mem_union_right _ hmem)

omit [DecidableEq ε] in
/-- What `select` tells of an event. -/
theorem resultFlags_eq (h : s.SelectOk) (hdistinct : s.Distinct)
    (hkind : ∀ ev, s.polled ev → (s.flags ev).read ∨ (s.flags ev).write) (hev : s.polled ev) :
    resultFlags (s.workRead io) (s.workWrite io) (s.flags ev) (s.fd ev) = s.expected io ev := by
  unfold resultFlags Watch.expected
  cases hread : (s.flags ev).read with
  | true =>
      have hmem : s.fd ev ∈ s.readset :=
        (h.watching.read _).mpr (.inr ⟨ev, hev, hread, rfl⟩)
      -- Nobody else waits for output there, so its bit is not set for an event of both directions.
      have hnot : (s.flags ev).write = true → s.fd ev ∉ s.writeset := by
        intro hwrite hmem'
        obtain ⟨x, hx, hxread, hfd⟩ := (h.watching.write _).mp hmem'
        have hxwrite := (hkind x hx).resolve_left (by rw [hxread]; exact Bool.false_ne_true)
        obtain rfl := hdistinct.write x ev hx hev hxwrite hwrite hfd
        exact Bool.false_ne_true (hxread.symm.trans hread)
      have hin : decide (s.fd ev ∈ s.workRead io) = io.read (s.fd ev) := by
        simp [mem_workRead h, hmem]
      have hout : ((s.flags ev).write && decide (s.fd ev ∈ s.workWrite io)) = false := by
        rw [Bool.and_eq_false_imp]
        intro hwrite
        simp [mem_workWrite h, hnot hwrite]
      dsimp only
      rw [if_pos rfl, Bool.true_and, hin, Bool.and_assoc, hout, Bool.and_false]
  | false =>
      have hwrite := (hkind ev hev).resolve_left (by rw [hread]; exact Bool.false_ne_true)
      have hmem : s.fd ev ∈ s.writeset := (h.watching.write _).mpr ⟨ev, hev, hread, rfl⟩
      have hout : decide (s.fd ev ∈ s.workWrite io) = io.write (s.fd ev) := by
        simp [mem_workWrite h, hmem]
      dsimp only
      rw [if_neg Bool.false_ne_true, Bool.false_and, hwrite, hout]
      rfl

theorem report_sigFd {res : EventFlags} : (s.report ev res).sigFd = s.sigFd := by
  unfold report evqDel
  dsimp only
  split
  · rfl
  · split
    · split <;> rfl
    · rfl

/-- The body of the loop at the place `i`. -/
theorem visit_watch {e : SelectSet ε} {b : Bool} {rep : ε → Bool}
    (h : e.toWatch.ScanInv rep i s.toWatch) (hi : i < e.npolls)
    (hres : ∀ ev, e.polled ev →
      resultFlags workRead workWrite (e.flags ev) (e.fd ev) = e.expected io ev)
    (hvisit : visit workRead workWrite i s = some (s', b)) :
    s'.toWatch = s.toWatch.visit io i ∧ s'.sigFd = s.sigFd := by
  obtain ⟨ev, hslot, -, hev, -⟩ := h.current hi
  have hkind := h.kind ev
  obtain ⟨hhit, hexpected⟩ := Watch.hit_congr io hkind.read h.fd
  have hflags : resultFlags workRead workWrite (s.flags ev) (s.fd ev) = s.expected io ev := by
    rw [hexpected, ← hres ev hev, h.fd, resultFlags, resultFlags, hkind.read, hkind.write]
  unfold visit at hvisit
  rw [hslot, Option.map_some, hflags] at hvisit
  dsimp only at hvisit
  rw [Watch.expected_res] at hvisit
  rw [Watch.visit, hslot, Option.elim_some]
  cases hready : s.hit io ev with
  | true =>
      rw [hready, if_pos rfl] at hvisit
      obtain rfl := congrArg Prod.fst (Option.some.inj hvisit)
      exact ⟨report_toWatch, report_sigFd⟩
  | false =>
      rw [hready, if_neg Bool.false_ne_true] at hvisit
      obtain rfl : s = s' := congrArg Prod.fst (Option.some.inj hvisit)
      exact ⟨rfl, rfl⟩

/-- **The wait of `select.c`**, if the two sets tell what is ready. -/
theorem evqSelect_watch (h : s.Wf) (hsigs : ∀ ev ∈ sigs, s.signal ev)
    (hres : ∀ ev, s.polled ev →
      resultFlags workRead workWrite (s.flags ev) (s.fd ev) = s.expected io ev)
    (hpipe : s.sigFd ∈ workRead ↔ io.read s.sigFd = true) :
    ∃ s', s.evqSelect workRead workWrite sigs = some s' ∧
      s'.toWatch = s.toWatch.wait io s.sigFd sigs ∧ s'.sigFd = s.sigFd ∧
      s'.toWatch.Fewer s.toWatch := by
  have hpos := h.pos
  obtain ⟨hw, -⟩ := entered_watch workRead hsigs
  have hn := hw.npolls
  obtain ⟨extra, heq⟩ := evqSelect_eq h hsigs workRead workWrite
  have hready : ∀ ev, (s.entered workRead sigs).polled ev →
      ready (s.entered workRead sigs).toWatch workRead workWrite ev =
        (s.entered workRead sigs).hit io ev := by
    intro ev hev
    have hold : s.polled ev := (hw.polled ev).symm.trans hev
    rw [ready_entered hsigs hold, (Watch.hit_onlySignals hw hold).1, ← Watch.expected_res,
      ← hres ev hold]
    rfl
  have hres' : ∀ ev, (s.entered workRead sigs).polled ev →
      resultFlags workRead workWrite ((s.entered workRead sigs).flags ev)
        ((s.entered workRead sigs).fd ev) = (s.entered workRead sigs).expected io ev := by
    intro ev hev
    have hold : s.polled ev := (hw.polled ev).symm.trans hev
    rw [hw.flags ev (Watch.polled_not_signal hold), hw.fd, hres ev hold,
      (Watch.hit_onlySignals hw hold).2]
  have hwatch : (s.entered workRead sigs).toWatch =
        (if io.read s.sigFd then s.toWatch.interrupt sigs else s.toWatch) ∧
      (s.entered workRead sigs).sigFd = s.sigFd := by
    unfold entered
    by_cases hread : io.read s.sigFd = true
    · rw [if_pos (hpipe.mpr hread), if_pos hread]
      exact ⟨rfl, rfl⟩
    · rw [if_neg fun hmem => hread (hpipe.mp hmem), if_neg hread]
      exact ⟨rfl, rfl⟩
  let Inv (i : ℕ) (t : SelectSet ε) : Prop := 1 ≤ i ∧
    Watch.ScanInv (ready (s.entered workRead sigs).toWatch workRead workWrite)
      (s.entered workRead sigs).toWatch i t.toWatch ∧
    t.toWatch = (List.range' 1 (i - 1)).foldl (Watch.visit io) (s.entered workRead sigs).toWatch ∧
    t.sigFd = (s.entered workRead sigs).sigFd
  have hvisit : ∀ i t, i < s.npolls → Inv i t → True →
      ∃ t', visit workRead workWrite i t =
        some (t', ((s.entered workRead sigs).events i).any
          (ready (s.entered workRead sigs).toWatch workRead workWrite)) ∧ Inv (i + 1) t' := by
    rintro i t hi ⟨hlo, hinv, hfold, hsig⟩ -
    obtain ⟨t', hvisit, hinv'⟩ := visit_scanInv hinv (by rw [hn]; exact hi)
    obtain ⟨hstep, hsig'⟩ := visit_watch hinv (by rw [hn]; exact hi) hres' hvisit
    obtain ⟨k, rfl⟩ := Nat.exists_eq_add_of_le' hlo
    refine ⟨t', hvisit, Nat.le_succ_of_le hlo, hinv', ?_, hsig'.trans hsig⟩
    rw [hstep, hfold, Nat.add_sub_cancel, Nat.add_sub_cancel, List.range'_1_concat,
      List.foldl_append, Nat.add_comm k 1]
    rfl
  have hstart : Inv 1 (s.entered workRead sigs) :=
    ⟨Nat.le_refl 1, Watch.ScanInv.begin (hw.indexed h.indexed), rfl, rfl⟩
  obtain ⟨t, m, hscan, ⟨hlo, hinv, hfold, hsig⟩, -, hmN, hlast⟩ :=
    scan_inv (k := s.npolls - 1) hvisit (by omega) hstart fun _ _ _ (_ : Visited _ _ extra _) =>
      trivial
  refine ⟨t, heq.trans hscan, ?_, hsig.trans hwatch.2, hinv.fewer hw⟩
  have hall := Watch.foldl_visit_all (hinv.congr hready) hlo (by rw [hn]; exact hmN) hfold
    fun ev hev hle => by
      have hold : s.polled ev := (hw.polled ev).symm.trans hev
      rw [hw.index] at hle
      have hnot := hlast (s.index ev) hle (h.indexed.lt ev hold)
      rwa [hw.events, h.indexed.slot_index ev hold, Option.any_some, hready ev hev] at hnot
  rw [hall, hn, hwatch.1]
  rfl

end

end SelectSet

/-! ## The events after a call -/

namespace Watch

section
variable {w w' : Watch ε} {sigFd : ℕ} {ev : ε}

omit [DecidableEq ε] in
theorem Fewer.apart (h : w'.Fewer w) (hw : w.Apart sigFd) : w'.Apart sigFd where
  kind ev hev := by
    rw [h.read ev hev, h.write ev hev]
    exact hw.kind ev (h.polled ev hev)
  read x y hx hy hrx hry hfd := by
    rw [h.read x hx] at hrx
    rw [h.read y hy] at hry
    rw [h.fd x hx, h.fd y hy] at hfd
    exact hw.read x y (h.polled x hx) (h.polled y hy) hrx hry hfd
  write x y hx hy hwx hwy hfd := by
    rw [h.write x hx] at hwx
    rw [h.write y hy] at hwy
    rw [h.fd x hx, h.fd y hy] at hfd
    exact hw.write x y (h.polled x hx) (h.polled y hy) hwx hwy hfd
  pipe x hx hrx := by
    rw [h.read x hx] at hrx
    rw [h.fd x hx]
    exact hw.pipe x (h.polled x hx) hrx

theorem evqDel_fewer (w : Watch ε) (ev : ε) : (w.evqDel ev).Fewer w := by
  have hfields : (w.evqDel ev).flags = w.flags ∧ (w.evqDel ev).fd = w.fd ∧
      (w.evqDel ev).signal = w.signal ∧
      (w.evqDel ev).registered = Function.update w.registered ev false := by
    unfold evqDel
    dsimp only
    split <;> exact ⟨rfl, rfl, rfl, rfl⟩
  obtain ⟨hflags, hfd, hsignal, hreg⟩ := hfields
  refine ⟨fun x hx => ?_, fun x _ => by rw [hflags], fun x _ => by rw [hflags],
    fun x _ => by rw [hfd]⟩
  rw [polled, hflags, hsignal, hreg] at hx
  by_cases hxe : x = ev
  · subst hxe
    simp at hx
  · rwa [Function.update_of_ne hxe] at hx

theorem perform_add (w : Watch ε) (sigFd : ℕ) (ev : ε) (fd : ℕ) (flags : EventFlags)
    (signal : Bool) (r : Reallocs) :
    let w' := w.perform sigFd (.add ev fd flags signal r)
    w'.flags = Function.update w.flags ev flags ∧ w'.fd = Function.update w.fd ev fd ∧
      w'.signal = Function.update w.signal ev signal ∧
      w'.registered = Function.update w.registered ev true := by
  unfold perform
  dsimp only
  split <;> exact ⟨rfl, rfl, rfl, rfl⟩

/-- One event gets other fields and waits for something of its own. -/
theorem Apart.change (hw : w.Apart sigFd) (ev : ε)
    (hpolled : ∀ x, x ≠ ev → w'.polled x → w.polled x)
    (hflags : ∀ x, x ≠ ev → w'.flags x = w.flags x) (hfd : ∀ x, x ≠ ev → w'.fd x = w.fd x)
    (hkind : w'.polled ev → (w'.flags ev).read ∨ (w'.flags ev).write)
    (hpipe : w'.polled ev → (w'.flags ev).read → w'.fd ev ≠ sigFd)
    (hfree : w'.polled ev → ∀ x, w.polled x → x ≠ ev → w.fd x = w'.fd ev →
      ¬((w.flags x).read ∧ (w'.flags ev).read) ∧ ¬((w.flags x).write ∧ (w'.flags ev).write)) :
    w'.Apart sigFd := by
  refine ⟨fun x hx => ?_, fun x y hx hy hrx hry heq => ?_, fun x y hx hy hwx hwy heq => ?_,
    fun x hx hrx => ?_⟩
  · by_cases hxe : x = ev
    · exact hxe ▸ hkind (hxe ▸ hx)
    · rw [hflags x hxe]
      exact hw.kind x (hpolled x hxe hx)
  · by_cases hxe : x = ev
    · by_cases hye : y = ev
      · exact hxe.trans hye.symm
      · subst hxe
        rw [hflags y hye] at hry
        rw [hfd y hye] at heq
        exact absurd ⟨hry, hrx⟩ (hfree hx y (hpolled y hye hy) hye heq.symm).1
    · by_cases hye : y = ev
      · subst hye
        rw [hflags x hxe] at hrx
        rw [hfd x hxe] at heq
        exact absurd ⟨hrx, hry⟩ (hfree hy x (hpolled x hxe hx) hxe heq).1
      · rw [hflags x hxe] at hrx
        rw [hflags y hye] at hry
        rw [hfd x hxe, hfd y hye] at heq
        exact hw.read x y (hpolled x hxe hx) (hpolled y hye hy) hrx hry heq
  · by_cases hxe : x = ev
    · by_cases hye : y = ev
      · exact hxe.trans hye.symm
      · subst hxe
        rw [hflags y hye] at hwy
        rw [hfd y hye] at heq
        exact absurd ⟨hwy, hwx⟩ (hfree hx y (hpolled y hye hy) hye heq.symm).2
    · by_cases hye : y = ev
      · subst hye
        rw [hflags x hxe] at hwx
        rw [hfd x hxe] at heq
        exact absurd ⟨hwx, hwy⟩ (hfree hy x (hpolled x hxe hx) hxe heq).2
      · rw [hflags x hxe] at hwx
        rw [hflags y hye] at hwy
        rw [hfd x hxe, hfd y hye] at heq
        exact hw.write x y (hpolled x hxe hx) (hpolled y hye hy) hwx hwy heq
  · by_cases hxe : x = ev
    · exact hxe ▸ hpipe (hxe ▸ hx) (hxe ▸ hrx)
    · rw [hflags x hxe] at hrx
      rw [hfd x hxe]
      exact hw.pipe x (hpolled x hxe hx) hrx

end

end Watch

/-! ## The two backends -/

/-- The queues of the two backends have the same events. -/
structure Agree (p : PollSet ε) (s : SelectSet ε) : Prop where
  watch : p.toWatch = s.toWatch
  poll : p.Wf
  sets : s.SetsInv
  apart : s.toWatch.Apart s.sigFd
  pipe : p.Piped s.sigFd

namespace PollSet

/-- The arrays are well formed whatever the other fields are. -/
theorem Wf.congr {p p' : PollSet ε} (h : p.Wf) (hpolled : ∀ x, p'.polled x = p.polled x)
    (hread : ∀ x, p.polled x → (p'.flags x).read = (p.flags x).read)
    (hfd : ∀ x, p.polled x → p'.fd x = p.fd x) (hindex : p'.index = p.index)
    (hnpolls : p'.npolls = p.npolls) (hevents : p'.events = p.events)
    (hmax : p'.maxPolls = p.maxPolls) (hfdset : p'.fdset = p.fdset) (hready : p'.ReadyOnce) :
    p'.Wf := by
  refine ⟨hnpolls ▸ h.pos, ⟨hmax ▸ h.room.pos, ?_⟩, ?_, fun x hx => ?_, hready⟩
  · rw [hnpolls, hmax]
    exact h.room.le
  · have hset : { x | p'.polled x = true } = { x | p.polled x = true } := by
      ext x
      simp [hpolled]
    rw [Watch.Indexed, hset, hevents, hindex, hnpolls]
    exact h.indexed
  · rw [hpolled] at hx
    have hold := h.fdset x hx
    rw [hfdset, hindex]
    refine ⟨?_, ?_⟩
    · rw [hfd x hx]
      exact hold.fd
    · rw [pollEvents, hread x hx]
      exact hold.events

/-- A change of the direction goes to the entry of the event. -/
theorem Wf.levqModSocket {p : PollSet ε} {ev : ε} {read : Bool} (h : p.Wf) (hev : p.polled ev) :
    (p.levqModSocket ev read).Wf := by
  have hpolled : ∀ x, (p.levqModSocket ev read).polled x = p.polled x := by
    intro x
    by_cases hx : x = ev
    · simp [hx, PollSet.levqModSocket, evqModify, Watch.polled, Watch.setFlags]
    · simp [hx, PollSet.levqModSocket, evqModify, Watch.polled, Watch.setFlags]
  refine ⟨h.pos, ⟨h.room.pos, h.room.le⟩, ?_, fun x hx => ?_, fun x => ?_⟩
  · have hset : { x | (p.levqModSocket ev read).polled x = true } = { x | p.polled x = true } := by
      ext x
      rw [Set.mem_ofPred_eq, Set.mem_ofPred_eq, hpolled]
    rw [Watch.Indexed, hset]
    exact h.indexed
  · rw [hpolled] at hx
    have hmatch := h.fdset x hx
    by_cases hxe : x = ev
    · subst hxe
      refine ⟨?_, ?_⟩
      · simpa [PollSet.levqModSocket, evqModify, Watch.setFlags] using hmatch.fd
      · simp [PollSet.levqModSocket, evqModify, Watch.setFlags, pollEvents]
    · have hne : p.index x ≠ p.index ev := fun heq => hxe (h.indexed.index_inj hx hev heq)
      refine ⟨?_, ?_⟩
      · simpa [PollSet.levqModSocket, evqModify, Watch.setFlags, hne] using hmatch.fd
      · simpa [PollSet.levqModSocket, evqModify, Watch.setFlags, hne, hxe] using hmatch.events
  · have hold := h.readyOnce x
    by_cases hxe : x = ev
    · subst hxe
      simpa [PollSet.levqModSocket, evqModify, Watch.setFlags] using hold
    · simpa [PollSet.levqModSocket, evqModify, Watch.setFlags, hxe] using hold

end PollSet

section
variable {p p' : PollSet ε} {s : SelectSet ε} {ev : ε}

omit [DecidableEq ε] in
theorem Watch.Apart.distinct (h : s.toWatch.Apart s.sigFd) : s.Distinct :=
  ⟨h.read, h.write, h.pipe⟩

omit [DecidableEq ε] in
/-- An event does not share its bit. -/
theorem Watch.Apart.unshared (h : s.toWatch.Apart s.sigFd) (hev : s.polled ev) :
    s.Unshared ev := by
  refine ⟨h.pipe ev hev, fun x hx hread hfd => ?_⟩
  cases hr : (s.flags ev).read with
  | true => exact h.read x ev hx hev (hread.trans hr) hr hfd
  | false =>
      rw [hr] at hread
      have hwx := (h.kind x hx).resolve_left (by rw [hread]; exact Bool.false_ne_true)
      have hwe := (h.kind ev hev).resolve_left (by rw [hr]; exact Bool.false_ne_true)
      exact h.write x ev hx hev hwx hwe hfd

theorem Agree.selectWf (h : Agree p s) : s.Wf :=
  ⟨h.sets.pos, h.sets.indexed, h.apart.distinct, h.watch ▸ h.poll.readyOnce⟩

/-- The fields of an event that is added. -/
def Watch.fill (w : Watch ε) (ev : ε) (fd : ℕ) (flags : EventFlags) (signal : Bool) : Watch ε :=
  { w with
    fd := Function.update w.fd ev fd
    flags := Function.update w.flags ev flags
    signal := Function.update w.signal ev signal }

/-- An event with a descriptor is put behind the others, if there is room. -/
theorem PollSet.evqAdd_placed {r : Reallocs} (hsig : p.signal ev = false)
    (hroom : p.npolls < p.maxPolls ∨ r.events ∧ r.fdset) :
    (p.evqAdd ev r).2 = 0 ∧
      (p.evqAdd ev r).1.toWatch =
        { p.toWatch with registered := Function.update p.registered ev true }.append ev ∧
      (p.npolls ≠ 0 → (p.evqAdd ev r).1.fdset 0 = p.fdset 0) := by
  unfold PollSet.evqAdd
  dsimp only
  rw [if_neg (by simp [hsig])]
  split
  next hfull =>
    obtain ⟨hevents, hfdset⟩ := hroom.resolve_left (Nat.not_lt_of_le hfull)
    rw [if_pos hevents, if_pos hfdset]
    exact ⟨rfl, rfl, fun hne => Function.update_of_ne (Ne.symm hne) _ _⟩
  next => exact ⟨rfl, rfl, fun hne => Function.update_of_ne (Ne.symm hne) _ _⟩

theorem SelectSet.evqAdd_placed (hsig : s.signal ev = false) (hroom : s.npolls < fdSetsize) :
    (s.evqAdd ev).2 = 0 ∧
      (s.evqAdd ev).1.toWatch =
        { s.toWatch with registered := Function.update s.registered ev true }.append ev ∧
      (s.evqAdd ev).1.sigFd = s.sigFd := by
  unfold SelectSet.evqAdd
  dsimp only
  rw [if_neg (by simp [hsig]), if_neg (Nat.not_le_of_lt hroom)]
  exact ⟨rfl, rfl, rfl⟩

/-- The fields of an event that is not registered do not matter. -/
theorem PollSet.Wf.fill (h : p.Wf) (hreg : p.registered ev = false) (fd : ℕ) {flags : EventFlags}
    {signal : Bool} (b : Bool) (hactive : flags.active = (p.flags ev).active)
    (hb : b = true → (flags.timer || signal) = true) :
    ({ p with toWatch := { p.fill ev fd flags signal with
        registered := Function.update p.registered ev b } } : PollSet ε).Wf := by
  have hev : p.polled ev = false := by
    rw [Watch.polled, hreg]
    rfl
  have hne : ∀ x, p.polled x → x ≠ ev := by
    rintro x hx rfl
    exact Bool.false_ne_true (hev.symm.trans hx)
  refine h.congr (fun x => ?_) (fun x hx => ?_) (fun x hx => Function.update_of_ne (hne x hx) _ _)
    rfl rfl rfl rfl rfl fun x => ?_
  · by_cases hx : x = ev
    · subst hx
      rw [hev]
      cases b with
      | false => simp [Watch.fill, Watch.polled]
      | true =>
          have hplace := hb rfl
          cases htimer : flags.timer <;> simp_all [Watch.fill, Watch.polled]
    · simp [hx, Watch.fill, Watch.polled]
  · exact congrArg EventFlags.read (Function.update_of_ne (hne x hx) _ _)
  · have hold := h.readyOnce x
    by_cases hx : x = ev
    · subst hx
      simpa [Watch.fill, hactive] using hold
    · simpa [Watch.fill, hx] using hold

theorem PollSet.levqAdd_spec (h : p.Wf) (hreg : p.registered ev = false) (sigFd : ℕ) {fd : ℕ}
    {flags : EventFlags} {signal : Bool} {r : Reallocs}
    (hactive : flags.active = (p.flags ev).active)
    (hroom : (flags.timer || signal) = false → p.npolls < p.maxPolls ∨ r.events ∧ r.fdset) :
    (p.levqAdd ev fd flags signal r).toWatch =
        p.toWatch.perform sigFd (.add ev fd flags signal r) ∧
      (p.levqAdd ev fd flags signal r).Wf ∧
      (p.levqAdd ev fd flags signal r).fdset 0 = p.fdset 0 := by
  by_cases hplace : (flags.timer || signal) = true
  · have heq : p.levqAdd ev fd flags signal r =
        { p with toWatch := { p.fill ev fd flags signal with
            registered := Function.update p.registered ev true } } := by
      unfold PollSet.levqAdd PollSet.evqAdd
      cases htimer : flags.timer with
      | true => rfl
      | false =>
          rw [htimer, Bool.false_or] at hplace
          subst hplace
          simp [Watch.fill]
    rw [heq]
    exact ⟨(if_pos hplace).symm, h.fill hreg fd true hactive fun _ => hplace, rfl⟩
  · have hroom' := hroom (Bool.eq_false_iff.mpr hplace)
    rw [Bool.or_eq_true, not_or, Bool.not_eq_true, Bool.not_eq_true] at hplace
    obtain ⟨htimer, rfl⟩ := hplace
    let p₁ : PollSet ε := { p with toWatch := p.fill ev fd flags false }
    have hwf : p₁.Wf := by
      have hold : ({ p with toWatch := { p.fill ev fd flags false with
          registered := Function.update p.registered ev false } } : PollSet ε).Wf :=
        h.fill hreg fd false hactive nofun
      rwa [show Function.update p.registered ev false = p.registered from
        hreg ▸ Function.update_eq_self ev p.registered] at hold
    have hsig : p₁.signal ev = false := by simp [p₁, Watch.fill]
    obtain ⟨hzero, hwatch, hpipe⟩ := PollSet.evqAdd_placed hsig hroom'
    have heq : p.levqAdd ev fd flags false r = (p₁.evqAdd ev r).1 := by
      unfold PollSet.levqAdd
      dsimp only
      rw [if_neg (by rw [htimer]; exact Bool.false_ne_true)]
      exact if_pos hzero
    rw [heq]
    refine ⟨?_, ?_, hpipe (Nat.ne_of_gt h.pos)⟩
    · rw [hwatch, Watch.perform]
      exact (if_neg (by rw [htimer]; exact Bool.false_ne_true)).symm
    · exact hwf.evqAdd hreg hsig (by simp [p₁, Watch.fill, htimer]) hzero

theorem SelectSet.levqAdd_spec {fd : ℕ} {flags : EventFlags} {signal : Bool} {r : Reallocs}
    (hroom : (flags.timer || signal) = false → s.npolls < fdSetsize) :
    (s.levqAdd ev fd flags signal).toWatch =
        s.toWatch.perform s.sigFd (.add ev fd flags signal r) ∧
      (s.levqAdd ev fd flags signal).sigFd = s.sigFd := by
  by_cases hplace : (flags.timer || signal) = true
  · have heq : s.levqAdd ev fd flags signal =
        { s with toWatch := { s.fill ev fd flags signal with
            registered := Function.update s.registered ev true } } := by
      unfold SelectSet.levqAdd SelectSet.evqAdd
      cases htimer : flags.timer with
      | true => rfl
      | false =>
          rw [htimer, Bool.false_or] at hplace
          subst hplace
          simp [Watch.fill]
    rw [heq]
    exact ⟨(if_pos hplace).symm, rfl⟩
  · have hroom' := hroom (Bool.eq_false_iff.mpr hplace)
    rw [Bool.or_eq_true, not_or, Bool.not_eq_true, Bool.not_eq_true] at hplace
    obtain ⟨htimer, rfl⟩ := hplace
    let s₁ : SelectSet ε := { s with toWatch := s.fill ev fd flags false }
    have hsig : s₁.signal ev = false := by simp [s₁, Watch.fill]
    obtain ⟨hzero, hwatch, hsigFd⟩ := SelectSet.evqAdd_placed hsig hroom'
    have heq : s.levqAdd ev fd flags false = (s₁.evqAdd ev).1 := by
      unfold SelectSet.levqAdd
      dsimp only
      rw [if_neg (by rw [htimer]; exact Bool.false_ne_true)]
      exact if_pos hzero
    rw [heq]
    refine ⟨?_, hsigFd⟩
    rw [hwatch, Watch.perform]
    exact (if_neg (by rw [htimer]; exact Bool.false_ne_true)).symm

/-- The result of a call of `poll.c` is one of `select.c`. -/
def Simulated (p' : PollSet ε) (s : SelectSet ε) (op : QueueOp ε) : Prop :=
  ∃ s', s.stepIo op = some s' ∧ s'.sigFd = s.sigFd ∧
    p'.toWatch = s.toWatch.perform s.sigFd op ∧ Agree p' s'

/-- A deletion. -/
theorem Agree.del (h : Agree p s) {r : Reallocs} (hp' : p.step (.del ev r) = some p') :
    Simulated p' s (.del ev r) := by
  obtain ⟨hreg, heq⟩ := Option.ite_none_right_eq_some.mp hp'
  obtain rfl := Option.some.inj heq
  have hplace : p.polled ev = !((p.flags ev).timer || p.signal ev) := by
    rw [Watch.polled, hreg]
    cases (p.flags ev).timer <;> cases p.signal ev <;> rfl
  have hreg' : s.registered ev = true := h.watch ▸ hreg
  have hwatch : (p.evqDel ev r).toWatch = s.toWatch.evqDel ev := by
    rw [PollSet.evqDel_toWatch, h.watch]
  have hsig : (s.evqDel ev).sigFd = s.sigFd := by
    unfold SelectSet.evqDel
    split <;> rfl
  refine ⟨s.evqDel ev, if_pos hreg', hsig, hwatch, ?_, ?_, ?_, ?_, ?_⟩
  · rw [hwatch, SelectSet.evqDel_toWatch]
  · cases hev : p.polled ev with
    | true => exact h.poll.evqDel hev r
    | false =>
        rw [hev, eq_comm, Bool.not_eq_false'] at hplace
        have hdel : p.evqDel ev r =
            { p with registered := Function.update p.registered ev false } := by
          rw [PollSet.evqDel, if_pos hplace, Watch.evqDel, if_pos hplace]
        rw [hdel]
        refine h.poll.congr (fun x => ?_) (fun _ _ => rfl) (fun _ _ => rfl) rfl rfl rfl rfl rfl
          h.poll.readyOnce
        by_cases hx : x = ev
        · subst hx
          rw [hev]
          simp [Watch.polled]
        · simp [hx, Watch.polled]
  · exact h.sets.step ⟨.del ev, fun hev => h.apart.unshared hev, if_pos hreg'⟩
  · rw [SelectSet.evqDel_toWatch, hsig]
    exact (Watch.evqDel_fewer s.toWatch ev).apart h.apart
  · have hzero : (p.evqDel ev r).fdset 0 = p.fdset 0 := by
      refine PollSet.evqDel_fdset_zero fun hplace' => ?_
      rw [hplace', Bool.not_false] at hplace
      have hlo := h.poll.indexed.lo_le ev hplace
      omega
    rw [hsig]
    exact ⟨(congrArg PollFd.fd hzero).trans h.pipe.fd,
      (congrArg PollFd.events hzero).trans h.pipe.events⟩

/-- A change of the direction. -/
theorem Agree.modify (h : Agree p s) {read : Bool}
    (hsafe : s.Free ev (s.fd ev) { read := read, write := !read })
    (hp' : p.step (.modify ev read) = some p') : Simulated p' s (.modify ev read) := by
  obtain ⟨hev, heq⟩ := Option.ite_none_right_eq_some.mp hp'
  obtain rfl := Option.some.inj heq
  have hev' : s.polled ev = true := h.watch ▸ hev
  let w : Watch ε := s.toWatch.perform s.sigFd (.modify ev read)
  have hwatch : (p.levqModSocket ev read).toWatch = w := by
    change p.toWatch.perform s.sigFd (.modify ev read) = w
    rw [h.watch]
  have hread : (w.flags ev).read = read ∧ (w.flags ev).write = !read := by
    simp [w, Watch.perform, Watch.setFlags]
  have hother : ∀ x, x ≠ ev → w.flags x = s.flags x := fun x hx => Function.update_of_ne hx _ _
  have hpolled : ∀ x, w.polled x = s.polled x := by
    intro x
    by_cases hx : x = ev
    · simp [hx, w, Watch.perform, Watch.polled, Watch.setFlags]
    · rw [Watch.polled, hother x hx]
      rfl
  refine ⟨s.levqModSocket ev read, if_pos hev', rfl, hwatch, hwatch, ?_, ?_, ?_, ?_⟩
  · exact h.poll.levqModSocket hev
  · exact h.sets.step ⟨.modify ev read, .inr (h.apart.unshared hev'), if_pos hev'⟩
  · change w.Apart s.sigFd
    refine h.apart.change ev (fun x _ hx => (hpolled x).symm.trans hx) hother
      (fun _ _ => rfl) (fun _ => ?_) (fun _ hr => hsafe.1 (hread.1 ▸ hr)) (fun _ x hx hne hfd => ?_)
    · rw [hread.1, hread.2]
      cases read <;> simp
    · rw [hread.1, hread.2]
      exact hsafe.2 x hx hne hfd
  · have hlo := h.poll.indexed.lo_le ev hev
    have hzero : (p.levqModSocket ev read).fdset 0 = p.fdset 0 :=
      Function.update_of_ne (by omega) _ _
    exact ⟨(congrArg PollFd.fd hzero).trans h.pipe.fd,
      (congrArg PollFd.events hzero).trans h.pipe.events⟩

/-- The loop changes the list of the ready events. -/
theorem Agree.loop (h : Agree p s) {flags : EventFlags} {evReady : List ε}
    (hsafe : ({ s.setFlags ev flags with evReady := evReady } : Watch ε).ReadyOnce)
    (hp' : p.step (.loop ev flags evReady) = some p') :
    Simulated p' s (.loop ev flags evReady) := by
  obtain ⟨hdir, heq⟩ := Option.ite_none_right_eq_some.mp hp'
  obtain rfl := Option.some.inj heq
  have hdir' : SameDirection flags (s.flags ev) := h.watch ▸ hdir
  let w : Watch ε := s.toWatch.perform s.sigFd (.loop ev flags evReady)
  have hwatch : ({ p.setFlags ev flags with evReady := evReady } : Watch ε) = w := by
    rw [h.watch]
    rfl
  have hflags : ∀ x, SameDirection (w.flags x) (s.flags x) := by
    intro x
    by_cases hx : x = ev
    · simpa [hx, w, Watch.perform, Watch.setFlags] using hdir'
    · simp [hx, w, Watch.perform, Watch.setFlags, SameDirection]
  have hpolled : ∀ x, w.polled x = s.polled x := by
    intro x
    rw [Watch.polled, (hflags x).2.2]
    rfl
  have hfewer : w.Fewer s.toWatch :=
    ⟨fun x hx => (hpolled x).symm.trans hx, fun x _ => (hflags x).1, fun x _ => (hflags x).2.1,
      fun _ _ => rfl⟩
  refine ⟨{ s with toWatch := w }, if_pos hdir', rfl, hwatch, hwatch, ?_, ?_,
    hfewer.apart h.apart, h.pipe.fd, h.pipe.events⟩
  · refine h.poll.congr (fun x => ?_) (fun x _ => ?_) (fun _ _ => rfl) rfl rfl rfl rfl rfl ?_
    · rw [hwatch, hpolled, h.watch]
    · rw [hwatch, (hflags x).1, h.watch]
    · rw [hwatch]
      exact hsafe
  · exact h.sets.step ⟨.loop ev flags evReady, trivial, if_pos hdir'⟩

/-- A wait. -/
theorem Agree.wait (h : Agree p s) {io : Readiness} {sigs : List ε} {r : ℕ → Reallocs}
    (hsafe : s.KnowsMax) (hsound : p.Sound io) (hp' : p.step (.wait io sigs r) = some p') :
    Simulated p' s (.wait io sigs r) := by
  obtain ⟨hsigs, hpoll⟩ := Option.ite_none_right_eq_some.mp hp'
  have hsigs' : ∀ ev ∈ sigs, s.signal ev := h.watch ▸ hsigs
  have hkind : ∀ ev, p.polled ev → (p.flags ev).read ∨ (p.flags ev).write := by
    rw [h.watch]
    exact h.apart.kind
  obtain ⟨hwatch, hpipe, -⟩ := PollSet.evqPoll_watch h.poll hsound hkind h.pipe hsigs hpoll
  have hok : s.SelectOk := h.sets.selectOk_iff.mpr hsafe
  obtain ⟨hfind, hsig⟩ := SelectSet.findMaxFd_fields s
  have hwf : s.findMaxFd.Wf := by
    have happart : s.findMaxFd.toWatch.Apart s.findMaxFd.sigFd := by
      rw [hfind, hsig]
      exact h.apart
    refine ⟨?_, ?_, happart.distinct, ?_⟩
    all_goals rw [hfind]
    · exact h.selectWf.pos
    · exact h.selectWf.indexed
    · exact h.selectWf.readyOnce
  have hres : ∀ ev, s.findMaxFd.polled ev →
      SelectSet.resultFlags (s.workRead io) (s.workWrite io) (s.findMaxFd.flags ev)
        (s.findMaxFd.fd ev) = s.findMaxFd.expected io ev := by
    rw [hfind]
    exact fun ev hev => SelectSet.resultFlags_eq hok h.apart.distinct h.apart.kind hev
  have hbit : s.findMaxFd.sigFd ∈ s.workRead io ↔ io.read s.findMaxFd.sigFd = true := by
    rw [SelectSet.mem_workRead hok, hsig]
    exact and_iff_right ((h.sets.watching.read _).mpr (.inl rfl))
  obtain ⟨s', hselect, hwatch', hsig', hfewer⟩ :=
    SelectSet.evqSelect_watch hwf (by rw [hfind]; exact hsigs') hres hbit
  rw [hfind, hsig] at hwatch'
  rw [hfind] at hfewer
  rw [hsig] at hsig'
  have hstep : s.step (s.selectOp (.wait io sigs r)) = some s' :=
    (if_pos hsigs').trans hselect
  have heq : p'.toWatch = s.toWatch.wait io s.sigFd sigs := by rw [hwatch, h.watch]
  refine ⟨s', hstep, hsig', heq, heq.trans hwatch'.symm, ?_, ?_, ?_, ?_⟩
  · exact (PollSet.evqPoll_spec h.poll hsigs hpoll).2
  · exact h.sets.step ⟨.wait (s.workRead io) (s.workWrite io) sigs,
      ⟨hsafe, fun ev hev _ _ _ => h.apart.unshared hev⟩, hstep⟩
  · rw [hsig']
    exact hfewer.apart h.apart
  · rw [hsig']
    exact hpipe

/-- An addition. -/
theorem Agree.add (h : Agree p s) {fd : ℕ} {flags : EventFlags} {signal : Bool} {r : Reallocs}
    (hsafe : (QueueOp.add ev fd flags signal r).Safe p s)
    (hp' : p.step (.add ev fd flags signal r) = some p') :
    Simulated p' s (.add ev fd flags signal r) := by
  obtain ⟨hfree, heq⟩ := Option.ite_none_left_eq_some.mp hp'
  obtain rfl := Option.some.inj heq
  obtain ⟨hactive, hactive', hplace⟩ := hsafe
  have hreg : p.registered ev = false := Bool.eq_false_iff.mpr hfree
  have hreg' : s.registered ev = false := h.watch ▸ hreg
  have hstep : s.stepIo (.add ev fd flags signal r) = some (s.levqAdd ev fd flags signal) :=
    if_neg (by rw [hreg']; exact Bool.false_ne_true)
  have hrest : (flags.timer || signal) = false → _ := fun hno =>
    (hplace.resolve_left fun hsig => by simp [hsig] at hno).resolve_left fun htimer => by
      simp [htimer] at hno
  obtain ⟨hwatch, hwf, hzero⟩ := PollSet.levqAdd_spec h.poll hreg s.sigFd
    (hactive.trans (h.watch ▸ hactive'.symm)) fun hno => (hrest hno).2.2.1
  obtain ⟨hwatch', hsig⟩ := SelectSet.levqAdd_spec (r := r) fun hno => (hrest hno).2.1
  rw [h.watch] at hwatch
  refine ⟨s.levqAdd ev fd flags signal, hstep, hsig, hwatch, hwatch.trans hwatch'.symm, hwf, ?_,
    ?_, ?_⟩
  · exact h.sets.levqAdd hreg' (hplace.imp_right (Or.imp_right And.left))
  · rw [hwatch', hsig]
    obtain ⟨hflags, hfd, hsignal, hregs⟩ :=
      s.toWatch.perform_add s.sigFd ev fd flags signal r
    have hplaced : (s.toWatch.perform s.sigFd (.add ev fd flags signal r)).polled ev = true →
        (flags.timer || signal) = false := by
      rw [Watch.polled, hflags, hsignal, hregs]
      cases htimer : flags.timer <;> cases signal <;> simp [htimer]
    refine h.apart.change ev (fun x hx hpolled => ?_)
      (fun x hx => by rw [hflags, Function.update_of_ne hx])
      (fun x hx => by rw [hfd, Function.update_of_ne hx]) (fun hev => ?_) (fun hev hread => ?_)
      (fun hev x hx hne heq => ?_)
    · rw [Watch.polled, hflags, hsignal, hregs, Function.update_of_ne hx, Function.update_of_ne hx,
        Function.update_of_ne hx] at hpolled
      exact hpolled
    · rw [hflags, Function.update_self]
      exact (hrest (hplaced hev)).2.2.2.1
    · rw [hflags, Function.update_self] at hread
      rw [hfd, Function.update_self]
      exact (hrest (hplaced hev)).2.2.2.2.1 hread
    · rw [hfd, Function.update_self] at heq
      rw [hflags, Function.update_self]
      exact (hrest (hplaced hev)).2.2.2.2.2 x hx hne heq
  · rw [hsig]
    exact ⟨(congrArg PollFd.fd hzero).trans h.pipe.fd,
      (congrArg PollFd.events hzero).trans h.pipe.events⟩

/-- **One call.**  A call of `poll.c` is one of `select.c`, and the events are the same. -/
theorem Agree.step (h : Agree p s) {op : QueueOp ε} (hsafe : op.Safe p s)
    (hp' : p.step op = some p') : Simulated p' s op := by
  cases op with
  | add ev fd flags signal r => exact h.add hsafe hp'
  | del ev r => exact h.del hp'
  | modify ev read => exact h.modify hsafe hp'
  | wait io sigs r => exact h.wait hsafe.1 hsafe.2 hp'
  | loop ev flags evReady => exact h.loop hsafe hp'

theorem init_agree {sigFd : ℕ} (hsig : sigFd < fdSetsize) :
    Agree (PollSet.init sigFd : PollSet ε) (SelectSet.init sigFd) := by
  have hnone : ∀ ev : ε, (SelectSet.init sigFd).polled ev ≠ true := fun _ => Bool.false_ne_true
  have hsets : (SelectSet.init sigFd : SelectSet ε).SetsInv := SelectSet.init_setsInv hsig
  have hmax : 1 ≤ nevent := by decide
  refine ⟨rfl, ⟨Nat.le_refl 1, ⟨hmax, hmax⟩, hsets.indexed, fun ev hev => absurd hev (hnone ev),
    fun _ => rfl⟩, hsets, ⟨fun ev hev => absurd hev (hnone ev), fun x _ hx => absurd hx (hnone x),
      fun x _ hx => absurd hx (hnone x), fun x hx => absurd hx (hnone x)⟩, rfl, rfl⟩

end

end

/-- An event for the descriptor 7 is added; a wait finds it ready, and it is deleted. -/
def readAndDelete : List (QueueOp ℕ) :=
  [.add 0 7 forInput false ⟨true, true⟩,
    .wait ⟨fun fd => fd = 7, fun _ => false, fun fd => if fd = 9 then pollNval else 0⟩ [] fun _ =>
      ⟨true, true⟩, .del 0 ⟨true, true⟩]

end LuaSys.Event
