import LuaSys.Event.Poll
import Mathlib.Data.Finset.Sum
import Mathlib.Order.Interval.Finset.Nat

/-!
# The backend `select.c`

The descriptors that are asked for are in two sets of bits, one for each direction; a wait hands
copies of them to `select`, which leaves the bits of those that are ready and returns their
number.  The loop of `evq_wait` goes over the array of the events, looks up the bits of each, and
stops when it has found as many as `select` has returned.

An event that has the flags of both directions is asked for reading only.

## Main definitions

* `SelectSet`, `SelectSet.evqAdd`, `SelectSet.evqDel`, `SelectSet.evqModify`,
  `SelectSet.evqSelect` — the functions of the source.
* `SelectSet.Wf` — no two events wait for the same descriptor in the same direction.

## Main results

* `SelectSet.evqSelect_missesNothing` — a wait reports every ready event once.
* `swap_delete_scans_miss_nothing` — the same for both backends.
-/

namespace LuaSys.Event

open LuaSys.Lib

/-- `FD_SETSIZE`. -/
def fdSetsize : ℕ := 1024

/-- `FD_SET`.  For a descriptor that is too large the code writes behind the set. -/
def fdSet (fd : ℕ) (set : Finset ℕ) : Finset ℕ := if fd < fdSetsize then insert fd set else set

/-- The event queue. -/
structure SelectSet (ε : Type*) extends Watch ε where
  /-- `sig_fd[0]`: the pipe that interrupts a wait. -/
  sigFd : ℕ
  maxFd : ℤ
  readset : Finset ℕ
  writeset : Finset ℕ

namespace SelectSet
variable {ε : Type*} [DecidableEq ε]

/-- `evq_add`, and what it returns.  For a signal it calls `signal_add`, which does not touch the
sets. -/
def evqAdd (s : SelectSet ε) (ev : ε) : SelectSet ε × ℤ :=
  let s := { s with registered := Function.update s.registered ev true }
  if s.signal ev then (s, 0)
  else if fdSetsize ≤ s.npolls then (s, -1)
  else
    let fd := s.fd ev
    ({ s with
      toWatch := s.toWatch.append ev
      readset := if (s.flags ev).read then fdSet fd s.readset else s.readset
      writeset := if (s.flags ev).read then s.writeset else fdSet fd s.writeset
      maxFd := if s.maxFd ≠ -1 ∧ s.maxFd < fd then fd else s.maxFd }, 0)

/-- `evq_del`. -/
def evqDel (s : SelectSet ε) (ev : ε) : SelectSet ε :=
  let w := s.toWatch.evqDel ev
  if (s.flags ev).timer || s.signal ev then { s with toWatch := w }
  else
    let fd := s.fd ev
    { s with
      toWatch := w
      readset := if (s.flags ev).read then s.readset.erase fd else s.readset
      writeset := if (s.flags ev).read then s.writeset else s.writeset.erase fd
      maxFd := if s.maxFd = fd then -1 else s.maxFd }

/-- `evq_modify`, with the flags `EVENT_READ` or `EVENT_WRITE`. -/
def evqModify (s : SelectSet ε) (ev : ε) (read : Bool) : SelectSet ε :=
  let fd := s.fd ev
  let readset := if (s.flags ev).read then s.readset.erase fd else s.readset
  let writeset := if (s.flags ev).read then s.writeset else s.writeset.erase fd
  { s with
    readset := if read then fdSet fd readset else readset
    writeset := if read then writeset else fdSet fd writeset }

/-- The loop of `evq_wait` for the largest descriptor of an event, from the place `i` on. -/
def largestFd (s : SelectSet ε) : ℕ → ℕ → ℤ → ℤ
  | 0, _, m => m
  | k + 1, i, m =>
      s.largestFd k (i + 1) ((s.events i).elim m fun ev => if m < s.fd ev then s.fd ev else m)

/-- The part of `evq_wait` before `select`: the largest descriptor is searched if it is not
known. -/
def findMaxFd (s : SelectSet ε) : SelectSet ε :=
  if s.maxFd = -1 then { s with maxFd := s.largestFd (s.npolls - 1) 1 (-1) } else s

/-- A ready event in the loop of `evq_wait`. -/
def report (s : SelectSet ε) (ev : ε) (res : EventFlags) : SelectSet ε :=
  let s := { s with toWatch := s.setRes ev res }
  if (s.flags ev).active then s
  else
    let s := { s with toWatch := s.setFlags ev { s.flags ev with active := true } }
    let s := if (s.flags ev).oneshot then s.evqDel ev else s
    { s with evReady := ev :: s.evReady }

/-- The result flags of an event, for the sets that `select` has left. -/
def resultFlags (workRead workWrite : Finset ℕ) (f : EventFlags) (fd : ℕ) : EventFlags :=
  let readable := f.read && decide (fd ∈ workRead)
  { readRes := readable
    writeRes := !readable && f.write && decide (fd ∈ workWrite) }

/-- The body of the loop of `evq_wait` at the place `i`. -/
def visit (workRead workWrite : Finset ℕ) (i : ℕ) (s : SelectSet ε) :
    Option (SelectSet ε × Bool) :=
  (s.events i).map fun ev =>
    let res := resultFlags workRead workWrite (s.flags ev) (s.fd ev)
    if res.readRes || res.writeRes then (s.report ev res, true) else (s, false)

/-- `evq_wait` from `select` on: `select` has left these sets, and has returned the number of
their members.  `sigs` are the events of the signals that have arrived. -/
def evqSelect (s : SelectSet ε) (workRead workWrite : Finset ℕ) (sigs : List ε) :
    Option (SelectSet ε) :=
  let nready := workRead.card + workWrite.card
  let woken := decide (s.sigFd ∈ workRead)
  let s' := if woken then { s with toWatch := s.toWatch.interrupt sigs } else s
  scan (visit workRead workWrite) (s.npolls - 1) 1 (if woken then nready - 1 else nready) s'

/-! ## The scan -/

section
variable {s s₀ : SelectSet ε} {ev : ε} {res : EventFlags} {i : ℕ}

theorem evqDel_toWatch : (s.evqDel ev).toWatch = s.toWatch.evqDel ev := by
  unfold evqDel
  split <;> rfl

theorem report_toWatch : (s.report ev res).toWatch = s.toWatch.report ev res := by
  unfold report Watch.report
  dsimp only
  split
  · rfl
  · split
    · rw [evqDel_toWatch]
    · rfl

end

/-- `select` has reported the event. -/
def ready (s : Watch ε) (workRead workWrite : Finset ℕ) (ev : ε) : Bool :=
  let res := resultFlags workRead workWrite (s.flags ev) (s.fd ev)
  res.readRes || res.writeRes

/-- Each event with a descriptor waits for something, and no two wait for the same; the pipe
waits for input. -/
structure Distinct (s : SelectSet ε) : Prop where
  read : ∀ x y, s.polled x → s.polled y → (s.flags x).read → (s.flags y).read →
    s.fd x = s.fd y → x = y
  write : ∀ x y, s.polled x → s.polled y → (s.flags x).write → (s.flags y).write →
    s.fd x = s.fd y → x = y
  pipe : ∀ x, s.polled x → (s.flags x).read → s.fd x ≠ s.sigFd

/-- The array holds the events with a descriptor. -/
structure Wf (s : SelectSet ε) : Prop where
  pos : 1 ≤ s.npolls
  indexed : s.Indexed
  distinct : s.Distinct
  readyOnce : s.ReadyOnce

section
variable {s s₀ : SelectSet ε} {w : Watch ε} {ev : ε} {workRead workWrite : Finset ℕ}
  {sigs : List ε} {i : ℕ}

/-- What `select` has reported does not depend on what a scan does. -/
theorem ready_eq_of_scanInv (workRead workWrite : Finset ℕ) {rep : ε → Bool} (h : Watch.ScanInv rep s₀.toWatch i s.toWatch)
    (ev : ε) : ready s.toWatch workRead workWrite ev = ready s₀.toWatch workRead workWrite ev := by
  simp [ready, resultFlags, (h.kind ev).read, (h.kind ev).write, h.fd]

/-- The body of the loop at the place `i`. -/
theorem visit_scanInv (h : Watch.ScanInv (ready s₀.toWatch workRead workWrite) s₀.toWatch i
      s.toWatch) (hi : i < s₀.npolls) :
    ∃ s', visit workRead workWrite i s =
        some (s', (s₀.events i).any (ready s₀.toWatch workRead workWrite)) ∧
      Watch.ScanInv (ready s₀.toWatch workRead workWrite) s₀.toWatch (i + 1) s'.toWatch := by
  obtain ⟨ev, hslot, hslot₀, hev, hindex, -⟩ := h.current hi
  have hready := ready_eq_of_scanInv workRead workWrite h ev
  unfold visit
  rw [hslot, hslot₀]
  simp only [Option.map_some, Option.any_some]
  cases hrep : ready s₀.toWatch workRead workWrite ev with
  | false =>
      rw [hrep] at hready
      refine ⟨s, ?_, h.skip hev hindex hrep⟩
      rw [if_neg]
      simpa [ready] using hready
  | true =>
      rw [hrep] at hready
      refine ⟨_, congrArg some (if_pos hready), ?_⟩
      rw [report_toWatch]
      exact h.report hi hslot hrep _

/-- The bit that makes the event at a place ready. -/
def bitOf (s : SelectSet ε) (workRead : Finset ℕ) (i : ℕ) : ℕ ⊕ ℕ :=
  (s.events i).elim (.inl 0) fun ev =>
    if (s.flags ev).read && decide (s.fd ev ∈ workRead) then .inl (s.fd ev) else .inr (s.fd ev)

omit [DecidableEq ε] in
/-- What the bit of a ready event says. -/
theorem bitOf_cases (hslot : s.events i = some ev)
    (hready : ready s.toWatch workRead workWrite ev) :
    (s.flags ev).read ∧ s.fd ev ∈ workRead ∧ s.bitOf workRead i = .inl (s.fd ev) ∨
      (s.flags ev).write ∧ s.fd ev ∈ workWrite ∧ s.bitOf workRead i = .inr (s.fd ev) := by
  simp only [ready, resultFlags] at hready
  simp only [bitOf, hslot, Option.elim_some]
  cases hread : (s.flags ev).read && decide (s.fd ev ∈ workRead)
  · refine Or.inr ?_
    rw [hread] at hready
    simpa using hready
  · refine Or.inl ?_
    simpa using hread

/-- The ready events are no more than the members of the sets, without the pipe: each has a bit
of its own. -/
theorem hits_le_card (h : s.Wf) (workRead workWrite : Finset ℕ) :
    hits (fun i => (s.events i).any (ready s.toWatch workRead workWrite)) 1 (s.npolls - 1) ≤
      (workRead.erase s.sigFd).card + workWrite.card := by
  have hmem : ∀ i ∈ (List.range' 1 (s.npolls - 1)).filter
      (fun i => (s.events i).any (ready s.toWatch workRead workWrite)),
      ∃ ev, s.polled ev ∧ s.index ev = i ∧ s.events i = some ev ∧
        ready s.toWatch workRead workWrite ev := by
    intro i hi
    obtain ⟨hrange, hready⟩ := List.mem_filter.mp hi
    obtain ⟨hlo, hn⟩ := List.mem_range'_1.mp hrange
    obtain ⟨ev, hev, hslot, hindex⟩ := h.indexed.mem_slot i hlo (by omega)
    rw [hslot, Option.any_some] at hready
    exact ⟨ev, hev, hindex, hslot, hready⟩
  rw [hits, List.countP_eq_length_filter,
    ← List.toFinset_card_of_nodup (List.Nodup.filter _ List.nodup_range'), ← Finset.card_disjSum]
  refine Finset.card_le_card_of_injOn (s.bitOf workRead) ?_ ?_
  · intro i hi
    obtain ⟨ev, hev, -, hslot, hready⟩ := hmem i (List.mem_toFinset.mp hi)
    rcases bitOf_cases hslot hready with ⟨hread, hfd, hbit⟩ | ⟨hwrite, hfd, hbit⟩
    · simp [hbit, hfd, h.distinct.pipe ev hev hread]
    · simp [hbit, hfd]
  · intro i hi j hj hbits
    obtain ⟨x, hx, hxi, hslotx, hreadyx⟩ := hmem i (List.mem_toFinset.mp hi)
    obtain ⟨y, hy, hyj, hsloty, hreadyy⟩ := hmem j (List.mem_toFinset.mp hj)
    have hxy : x = y := by
      rcases bitOf_cases hslotx hreadyx with ⟨hdx, -, hbitx⟩ | ⟨hdx, -, hbitx⟩ <;>
        rcases bitOf_cases hsloty hreadyy with ⟨hdy, -, hbity⟩ | ⟨hdy, -, hbity⟩ <;>
          rw [hbitx, hbity] at hbits
      · exact h.distinct.read x y hx hy hdx hdy (Sum.inl.inj hbits)
      · cases hbits
      · cases hbits
      · exact h.distinct.write x y hx hy hdx hdy (Sum.inr.inj hbits)
    rw [← hxi, ← hyj, hxy]

/-- The state in which `evq_wait` comes to its loop. -/
def entered (s : SelectSet ε) (workRead : Finset ℕ) (sigs : List ε) : SelectSet ε :=
  if s.sigFd ∈ workRead then { s with toWatch := s.toWatch.interrupt sigs } else s

theorem entered_watch (workRead : Finset ℕ) (hsigs : ∀ ev ∈ sigs, s.signal ev) :
    s.OnlySignals (s.entered workRead sigs).toWatch ∧
      (s.ReadyOnce → (s.entered workRead sigs).ReadyOnce) := by
  unfold entered
  split
  · exact Watch.interrupt_onlySignals hsigs
  · exact ⟨Watch.OnlySignals.refl _, id⟩

theorem ready_entered (hsigs : ∀ ev ∈ sigs, s.signal ev) (hev : s.polled ev) :
    ready (s.entered workRead sigs).toWatch workRead workWrite ev =
      ready s.toWatch workRead workWrite ev := by
  obtain ⟨hw, -⟩ := entered_watch workRead hsigs
  have hsig : s.signal ev = false := by
    simp only [Watch.polled, Bool.and_eq_true, Bool.not_eq_true'] at hev
    exact hev.1.2
  simp [ready, hw.flags ev hsig, hw.fd]

/-- `evq_wait` is its loop, which is told of at least as many hits as there are. -/
theorem evqSelect_eq (h : s.Wf) (hsigs : ∀ ev ∈ sigs, s.signal ev)
    (workRead workWrite : Finset ℕ) :
    ∃ extra, s.evqSelect workRead workWrite sigs =
      scan (visit workRead workWrite) (s.npolls - 1) 1
        (hits (fun i => ((s.entered workRead sigs).events i).any
          (ready (s.entered workRead sigs).toWatch workRead workWrite)) 1 (s.npolls - 1) + extra)
        (s.entered workRead sigs) := by
  have hpos := h.pos
  have hcongr : hits (fun i => ((s.entered workRead sigs).events i).any
      (ready (s.entered workRead sigs).toWatch workRead workWrite)) 1 (s.npolls - 1) =
        hits (fun i => (s.events i).any (ready s.toWatch workRead workWrite)) 1 (s.npolls - 1) := by
    refine hits_congr fun l hl hlN => ?_
    obtain ⟨ev, hev, hslot, -⟩ := h.indexed.mem_slot l hl (by omega)
    rw [(entered_watch workRead hsigs).1.events, hslot, Option.any_some, Option.any_some,
      ready_entered hsigs hev]
  have hle : hits (fun i => (s.events i).any (ready s.toWatch workRead workWrite)) 1
      (s.npolls - 1) ≤ if s.sigFd ∈ workRead then workRead.card + workWrite.card - 1
        else workRead.card + workWrite.card := by
    have hcard := hits_le_card h workRead workWrite
    split
    · rename_i hmem
      rw [Finset.card_erase_of_mem hmem] at hcard
      have hone : 1 ≤ workRead.card := Finset.card_pos.mpr ⟨_, hmem⟩
      omega
    · rename_i hmem
      rwa [Finset.erase_eq_of_notMem hmem] at hcard
  obtain ⟨extra, hextra⟩ := Nat.exists_eq_add_of_le hle
  refine ⟨extra, ?_⟩
  rw [hcongr, ← hextra]
  simp [evqSelect, entered]

/-- A wait reports every ready event once. -/
theorem evqSelect_missesNothing (h : s.Wf) (hsigs : ∀ ev ∈ sigs, s.signal ev) :
    ∃ s', s.evqSelect workRead workWrite sigs = some s' ∧
      s.MissesNothing (ready s.toWatch workRead workWrite) s'.toWatch := by
  have hpos := h.pos
  obtain ⟨hw, hready⟩ := entered_watch workRead hsigs
  obtain ⟨extra, heq⟩ := evqSelect_eq h hsigs workRead workWrite
  have hvisit := fun i (s' : SelectSet ε) (hi : i < s.npolls)
      (hinv : Watch.ScanInv (ready (s.entered workRead sigs).toWatch workRead workWrite)
        (s.entered workRead sigs).toWatch i s'.toWatch) (_ : True) =>
    visit_scanInv hinv (by rw [hw.npolls]; exact hi)
  obtain ⟨s', m, hscan, hinv, -, hmN, hlast⟩ := scan_inv (k := s.npolls - 1) hvisit (by omega)
    (Watch.ScanInv.begin (hw.indexed h.indexed)) fun _ _ _ (_ : Visited _ _ extra _) => trivial
  refine ⟨s', heq.trans hscan, ?_⟩
  -- Behind the place `m` no event is ready, so the loop has reported them all.
  have hreported := hinv.finish fun ev hev hle => by
    have hev' : s.polled ev := (hw.polled ev).symm.trans hev
    rw [hw.index] at hle
    have hnot := hlast (s.index ev) hle (h.indexed.lt ev hev')
    rwa [hw.events, h.indexed.slot_index ev hev', Option.any_some] at hnot
  exact (hreported.missesNothing hw (hready h.readyOnce)).congr fun ev hev =>
    ready_entered hsigs hev

end

end SelectSet

/-! ## Both backends -/

/-- A wait of `poll.c` that does not halve its arrays, and a wait of `select.c`, miss nothing. -/
theorem swap_delete_scans_miss_nothing {ε : Type*} [DecidableEq ε] :
    (∀ (s : PollSet ε) (revents : ℕ → ℕ) (sigs : List ε) (r : ℕ → Reallocs), s.Wf →
      (∀ ev ∈ sigs, s.signal ev) → s.NoShrink revents sigs →
      ∃ s', s.evqPoll revents sigs r = some s' ∧
        s.MissesNothing (fun ev => decide (revents (s.index ev) ≠ 0)) s'.toWatch ∧
        ∀ ev, s'.polled ev → (s'.fdset (s'.index ev)).fd = s'.fd ev) ∧
    (∀ (s : SelectSet ε) (workRead workWrite : Finset ℕ) (sigs : List ε), s.Wf →
      (∀ ev ∈ sigs, s.signal ev) →
      ∃ s', s.evqSelect workRead workWrite sigs = some s' ∧
        s.MissesNothing (SelectSet.ready s.toWatch workRead workWrite) s'.toWatch) := by
  constructor
  · intro s revents sigs r h hsigs hno
    obtain ⟨s', hs'⟩ := PollSet.evqPoll_of_noShrink (r := r) h hsigs hno
    obtain ⟨hmisses, hwf⟩ := PollSet.evqPoll_spec h hsigs hs'
    exact ⟨s', hs', hmisses, fun ev hev => (hwf.fdset ev hev).fd⟩
  · intro s workRead workWrite sigs h hsigs
    exact SelectSet.evqSelect_missesNothing h hsigs

/-- Two oneshot events that wait for input on the descriptors 1 and 2; the pipe is 0. -/
def twoWaiting : SelectSet ℕ where
  toWatch := (PollSet.oneshots 3 64).toWatch
  sigFd := 0
  maxFd := 2
  readset := {0, 1, 2}
  writeset := ∅

theorem twoWaiting_wf : twoWaiting.Wf := by
  obtain ⟨hpos, -, hindexed, -, hready⟩ := PollSet.oneshots_wf (show 1 ≤ 3 by omega)
    (show 3 ≤ 64 by omega)
  refine ⟨hpos, hindexed, ⟨fun x y _ _ _ _ heq => heq, fun x y _ _ _ _ heq => heq, ?_⟩, hready⟩
  intro x hx _ hpipe
  have hlo := hindexed.lo_le x hx
  have hzero : x = 0 := hpipe
  exact absurd hlo (by simp [hzero, PollSet.oneshots])

theorem swap_delete_scans_miss_nothing_twoEvents :
    (∃ s', (PollSet.oneshots 3 64).evqPoll PollSet.allReady [] (fun _ => ⟨true, true⟩) = some s' ∧
      (PollSet.oneshots 3 64).MissesNothing
        (fun ev => decide (PollSet.allReady ((PollSet.oneshots 3 64).index ev) ≠ 0)) s'.toWatch ∧
      ∀ ev, s'.polled ev → (s'.fdset (s'.index ev)).fd = s'.fd ev) ∧
    (∃ s', twoWaiting.evqSelect {1, 2} ∅ [] = some s' ∧
      twoWaiting.MissesNothing (SelectSet.ready twoWaiting.toWatch {1, 2} ∅) s'.toWatch) :=
  ⟨swap_delete_scans_miss_nothing.1 (PollSet.oneshots 3 64) PollSet.allReady []
      (fun _ => ⟨true, true⟩) (PollSet.oneshots_wf (by decide) (by decide)) (by simp)
      (fun k _ hshrinks => by
        have hlow : 64 / 2 < 3 - (k + 1) := hshrinks.1
        omega),
    swap_delete_scans_miss_nothing.2 twoWaiting {1, 2} ∅ [] twoWaiting_wf (by simp)⟩

end LuaSys.Event
