import LuaSys.Event.Watch

/-!
# The backend `poll.c`

The array `fdset` is given to `poll` and has an entry for each entry of `events`.  Both have room
for `max_polls` entries: `evq_add` doubles them when they are full, and `evq_del` halves them when
they are three quarters empty.

`evq_wait` goes over the arrays with the pointers and the length it had before the wait, and calls
`evq_del` on the way.  A deletion that halves the arrays frees the memory behind these pointers,
or leaves places of the old range outside.  In the model, a look at such a place ends the scan.
The range is halved in a scan only if there are more than 32 events left, so it takes more than a
hundred events of which most are oneshot and ready at once.

## Main definitions

* `PollSet`, `PollSet.evqAdd`, `PollSet.evqDel`, `PollSet.evqPoll` — the functions of the source.
* `PollSet.capAfter` — the capacity after a number of deletions.
* `PollSet.InBounds` — the conditions for a scan to stay in the arrays.

## Main results

* `PollSet.evqPoll_isSome_iff` — a scan stays in the arrays exactly under these conditions.
* `PollSet.evqPoll_of_noShrink` — a scan that halves nothing reports every ready event once.
-/

namespace LuaSys.Event

open LuaSys.Lib

/-- `NEVENT`. -/
def nevent : ℕ := 64

def pollIn : ℕ := 0x001
def pollOut : ℕ := 0x004
def pollErr : ℕ := 0x008
def pollHup : ℕ := 0x010
def pollNval : ℕ := 0x020

/-- `POLLFD_READ`. -/
def pollfdRead : ℕ := pollIn ||| pollErr ||| pollHup ||| pollNval

/-- `POLLFD_WRITE`. -/
def pollfdWrite : ℕ := pollOut ||| pollErr ||| pollHup ||| pollNval

/-- The events that are asked for. -/
def pollEvents (f : EventFlags) : ℕ := if f.read then pollIn else pollOut

/-- `struct pollfd`. -/
structure PollFd where
  fd : ℕ
  events : ℕ
  revents : ℕ

/-- Whether the two calls of `realloc` succeed. -/
structure Reallocs where
  events : Bool
  fdset : Bool

/-- The event queue.  The numbers of the memory blocks tell the arrays from those that `realloc`
has replaced. -/
structure PollSet (ε : Type*) extends Watch ε where
  maxPolls : ℕ
  fdset : ℕ → PollFd
  eventsBlock : ℕ
  fdsetBlock : ℕ

/-- The test of `evq_del`: `npolls` entries are few enough to halve arrays of this capacity. -/
def Shrinks (npolls cap : ℕ) : Prop := nevent / 2 < npolls ∧ npolls ≤ cap / 4

instance (npolls cap : ℕ) : Decidable (Shrinks npolls cap) := inferInstanceAs (Decidable (_ ∧ _))

namespace PollSet
variable {ε : Type*} [DecidableEq ε]

/-- The end of `evq_add`. -/
def append (s : PollSet ε) (ev : ε) : PollSet ε :=
  { s with
    toWatch := s.toWatch.append ev
    fdset := Function.update s.fdset s.npolls
      ⟨s.fd ev, pollEvents (s.flags ev), 0⟩ }

/-- `evq_add`, and what it returns.  For a signal it calls `signal_add`, which does not touch the
arrays.  A queue has less than `2 ^ 25` events, so `2 * max_polls` does not wrap around. -/
def evqAdd (s : PollSet ε) (ev : ε) (r : Reallocs) : PollSet ε × ℤ :=
  let s := { s with registered := Function.update s.registered ev true }
  if s.signal ev then (s, 0)
  else if s.maxPolls ≤ s.npolls then
    if r.events then
      let s := { s with eventsBlock := s.eventsBlock + 1 }
      if r.fdset then
        let s := { s with fdsetBlock := s.fdsetBlock + 1, maxPolls := 2 * s.maxPolls }
        (s.append ev, 0)
      else (s, -1)
    else (s, -1)
  else (s.append ev, 0)

/-- The end of `evq_del`. -/
def shrink (s : PollSet ε) (r : Reallocs) : PollSet ε :=
  if Shrinks s.npolls s.maxPolls then
    { s with
      maxPolls := s.maxPolls / 2
      eventsBlock := if r.events then s.eventsBlock + 1 else s.eventsBlock
      fdsetBlock := if r.fdset then s.fdsetBlock + 1 else s.fdsetBlock }
  else s

/-- `evq_del`. -/
def evqDel (s : PollSet ε) (ev : ε) (r : Reallocs) : PollSet ε :=
  let w := s.toWatch.evqDel ev
  if (s.flags ev).timer || s.signal ev then { s with toWatch := w }
  else
    { s with
      toWatch := w
      fdset := swapDel s.fdset (s.index ev) (s.npolls - 1) }.shrink r

/-- The result flags for what `poll` has returned. -/
def resultFlags (revents : ℕ) (f : EventFlags) : EventFlags :=
  let readable := decide (revents &&& pollfdRead ≠ 0) && f.read
  { eofRes := decide (revents &&& pollHup ≠ 0)
    readRes := readable
    writeRes := !readable && decide (revents &&& pollfdWrite ≠ 0) && f.write }

/-- A ready event in the loop of `evq_wait`. -/
def report (s : PollSet ε) (ev : ε) (res : EventFlags) (r : Reallocs) : PollSet ε :=
  let s := { s with toWatch := s.setRes ev res }
  if (s.flags ev).active then s
  else
    let s := { s with toWatch := s.setFlags ev { s.flags ev with active := true } }
    let s := if (s.flags ev).oneshot then s.evqDel ev r else s
    { s with evReady := ev :: s.evReady }

/-- The body of the loop of `evq_wait` at the place `i`.  The loop uses the pointers that it had
at its start, to the blocks `events` and `fdset`; `r n` is the outcome of `realloc` when a deletion
leaves `n` entries. -/
def visit (events fdset : ℕ) (r : ℕ → Reallocs) (i : ℕ) (s : PollSet ε) :
    Option (PollSet ε × Bool) :=
  if s.fdsetBlock = fdset ∧ i < s.maxPolls then
    let revents := (s.fdset i).revents
    if revents = 0 then some (s, false)
    else
      let s := { s with fdset := Function.update s.fdset i { s.fdset i with revents := 0 } }
      if s.eventsBlock = events then
        (s.events i).map fun ev =>
          (s.report ev (resultFlags revents (s.flags ev)) (r (s.npolls - 1)), true)
      else none
  else none

/-- What `poll` writes. -/
def fillRevents (s : PollSet ε) (revents : ℕ → ℕ) : PollSet ε :=
  { s with fdset := fun i =>
      if i < s.npolls then { s.fdset i with revents := revents i } else s.fdset i }

/-- The interruption of the wait, if the pipe is readable. -/
def interrupted (s : PollSet ε) (sigs : List ε) : PollSet ε × ℕ :=
  if (s.fdset 0).revents &&& pollIn ≠ 0 then
    ({ s with
        fdset := Function.update s.fdset 0 { s.fdset 0 with revents := 0 }
        toWatch := s.toWatch.interrupt sigs }, 1)
  else (s, 0)

/-- `evq_wait` from `poll` on: `poll` has set the field `revents` of the entries to these values
and has returned how many of them are not zero.  `sigs` are the events of the signals that have
arrived. -/
def evqPoll (s : PollSet ε) (revents : ℕ → ℕ) (sigs : List ε) (r : ℕ → Reallocs) :
    Option (PollSet ε) :=
  let s := s.fillRevents revents
  let nready := hits (fun i => decide (revents i ≠ 0)) 0 s.npolls
  let p := s.interrupted sigs
  scan (visit s.eventsBlock s.fdsetBlock r) (s.npolls - 1) 1 (nready - p.2) p.1

/-! ## What a report does -/

section
variable {s s₀ : PollSet ε} {ev : ε} {res : EventFlags} {r : Reallocs}

omit [DecidableEq ε] in
/-- Halving the arrays changes the sizes and the blocks only. -/
theorem shrink_eq : s.shrink r =
    { s with
      maxPolls := if Shrinks s.npolls s.maxPolls then s.maxPolls / 2 else s.maxPolls
      eventsBlock := s.eventsBlock + if Shrinks s.npolls s.maxPolls ∧ r.events then 1 else 0
      fdsetBlock := s.fdsetBlock + if Shrinks s.npolls s.maxPolls ∧ r.fdset then 1 else 0 } := by
  unfold shrink
  split <;> cases r.events <;> cases r.fdset <;> simp_all

theorem evqDel_toWatch : (s.evqDel ev r).toWatch = s.toWatch.evqDel ev := by
  unfold evqDel
  split
  · rfl
  · rw [shrink_eq]

theorem npolls_evqDel (h : s.polled ev) : (s.toWatch.evqDel ev).npolls = s.npolls - 1 := by
  simp only [Watch.polled, Bool.and_eq_true, Bool.not_eq_true'] at h
  simp [Watch.evqDel, h, Watch.remove]

/-- The deletion of an event that is in the array. -/
theorem evqDel_of_polled (h : s.polled ev) :
    s.evqDel ev r =
      { toWatch := s.toWatch.evqDel ev
        fdset := swapDel s.fdset (s.index ev) (s.npolls - 1)
        maxPolls := if Shrinks (s.npolls - 1) s.maxPolls then s.maxPolls / 2 else s.maxPolls
        eventsBlock :=
          s.eventsBlock + if Shrinks (s.npolls - 1) s.maxPolls ∧ r.events then 1 else 0
        fdsetBlock :=
          s.fdsetBlock + if Shrinks (s.npolls - 1) s.maxPolls ∧ r.fdset then 1 else 0 } := by
  have hn := npolls_evqDel h
  simp only [Watch.polled, Bool.and_eq_true, Bool.not_eq_true'] at h
  unfold evqDel
  rw [if_neg (by simp [h]), shrink_eq]
  simp only [hn]

theorem report_toWatch (s : PollSet ε) (ev : ε) (res : EventFlags) (r : Reallocs) :
    (s.report ev res r).toWatch = s.toWatch.report ev res := by
  unfold report Watch.report
  dsimp only
  split
  · rfl
  · split
    · rw [evqDel_toWatch]
    · rfl

/-- An event that is not deleted leaves `fdset` and the sizes as they are. -/
theorem report_keep (h : (s.flags ev).active ∨ (s.flags ev).oneshot = false) :
    s.report ev res r = { s with toWatch := s.toWatch.report ev res } := by
  have hactive : (s.setRes ev res).flags ev = _ := Function.update_self ev _ s.flags
  unfold report Watch.report
  dsimp only
  split
  · rfl
  · split
    · simp_all [Watch.setFlags]
    · rfl

/-- An event that is deleted. -/
theorem report_delete (hpolled : s.polled ev) (hactive : (s.flags ev).active = false)
    (hone : (s.flags ev).oneshot) :
    s.report ev res r =
      { toWatch := s.toWatch.report ev res
        fdset := swapDel s.fdset (s.index ev) (s.npolls - 1)
        maxPolls := if Shrinks (s.npolls - 1) s.maxPolls then s.maxPolls / 2 else s.maxPolls
        eventsBlock :=
          s.eventsBlock + if Shrinks (s.npolls - 1) s.maxPolls ∧ r.events then 1 else 0
        fdsetBlock :=
          s.fdsetBlock + if Shrinks (s.npolls - 1) s.maxPolls ∧ r.fdset then 1 else 0 } := by
  -- The deletion comes after the flags have been set, which it does not look at.
  have hw := report_toWatch s ev res r
  let w := (s.setRes ev res).setFlags ev { (s.setRes ev res).flags ev with active := true }
  have hpolled' : w.polled ev := by
    simp only [Watch.polled] at hpolled ⊢
    simpa [w, Watch.setRes, Watch.setFlags] using hpolled
  have hreport : s.report ev res r =
      let s' := ({ s with toWatch := w } : PollSet ε).evqDel ev r
      { s' with evReady := ev :: s'.evReady } := by
    simp [report, w, Watch.setRes, Watch.setFlags, hactive, hone]
  rw [evqDel_of_polled hpolled'] at hreport
  rw [hreport] at hw ⊢
  simp only at hw ⊢
  rw [← hw]
  rfl

end

/-! ## The scan -/

section
variable (s₀ : PollSet ε) (r : ℕ → Reallocs)

/-- `poll` has reported the event. -/
def ready (ev : ε) : Bool := decide ((s₀.fdset (s₀.index ev)).revents ≠ 0)

/-- A scan from the state `s₀` deletes the event at the place `j`. -/
def deletes (j : ℕ) : Bool :=
  (s₀.events j).any fun ev => s₀.ready ev && (s₀.flags ev).oneshot && !(s₀.flags ev).active

/-- The number of events that it deletes at the places before `j`. -/
def deletions (j : ℕ) : ℕ := hits s₀.deletes 1 (j - 1)

/-- The capacity after `k` deletions. -/
def capAfter : ℕ → ℕ
  | 0 => s₀.maxPolls
  | k + 1 =>
      if Shrinks (s₀.npolls - (k + 1)) (capAfter k) then capAfter k / 2 else capAfter k

/-- No call of `realloc` in `k` deletions has replaced the array `a`. -/
def Kept (a : Reallocs → Bool) (k : ℕ) : Prop :=
  ∀ m < k, Shrinks (s₀.npolls - (m + 1)) (s₀.capAfter m) → a (r (s₀.npolls - (m + 1))) = false

/-- The place `j` can be looked at: the deletions before it have left it inside, and have not
replaced the array `fdset`, nor, if there is an event to report, the array `events`. -/
def InBounds (j : ℕ) : Prop :=
  j < s₀.capAfter (s₀.deletions j) ∧ s₀.Kept r Reallocs.fdset (s₀.deletions j) ∧
    ((s₀.fdset j).revents ≠ 0 → s₀.Kept r Reallocs.events (s₀.deletions j))

end

/-- An entry of `fdset` is about the descriptor and the direction of the event. -/
structure Matches (s : PollSet ε) (ev : ε) (p : PollFd) : Prop where
  fd : p.fd = s.fd ev
  events : p.events = pollEvents (s.flags ev)

/-- The loop has come from the state `s₀` to the place `i`. -/
structure LoopInv (r : ℕ → Reallocs) (s₀ : PollSet ε) (i : ℕ) (s : PollSet ε) : Prop where
  watch : s₀.toWatch.ScanInv s₀.ready i s.toWatch
  ahead : ∀ j, i ≤ j → s.fdset j = s₀.fdset j
  fdset : ∀ ev, s.polled ev → s₀.Matches ev (s.fdset (s.index ev))
  npolls : s.npolls = s₀.npolls - s₀.deletions i
  maxPolls : s.maxPolls = s₀.capAfter (s₀.deletions i)
  eventsBlock : s₀.eventsBlock ≤ s.eventsBlock ∧
    (s.eventsBlock = s₀.eventsBlock ↔ s₀.Kept r Reallocs.events (s₀.deletions i))
  fdsetBlock : s₀.fdsetBlock ≤ s.fdsetBlock ∧
    (s.fdsetBlock = s₀.fdsetBlock ↔ s₀.Kept r Reallocs.fdset (s₀.deletions i))

section
variable {s s₀ : PollSet ε} {r : ℕ → Reallocs} {ev : ε} {i k : ℕ} {a : Reallocs → Bool}

omit [DecidableEq ε] in
theorem deletions_succ (hi : 1 ≤ i) :
    s₀.deletions (i + 1) = s₀.deletions i + if s₀.deletes i then 1 else 0 := by
  obtain ⟨k, rfl⟩ := Nat.exists_eq_add_of_le hi
  simp only [deletions, Nat.add_sub_cancel, Nat.add_comm 1 k]
  rw [hits_concat, Nat.add_comm 1 k]

omit [DecidableEq ε] in
theorem kept_zero : s₀.Kept r a 0 := fun m hm => absurd hm (Nat.not_lt_zero m)

omit [DecidableEq ε] in
theorem kept_succ : s₀.Kept r a (k + 1) ↔ s₀.Kept r a k ∧
    (Shrinks (s₀.npolls - (k + 1)) (s₀.capAfter k) → a (r (s₀.npolls - (k + 1))) = false) := by
  constructor
  · intro h
    exact ⟨fun m hm => h m (by omega), h k (by omega)⟩
  · rintro ⟨h, hk⟩ m hm
    rcases Nat.lt_succ_iff_lt_or_eq.mp hm with hlt | rfl
    · exact h m hlt
    · exact hk

omit [DecidableEq ε] in
/-- One deletion, for a block number that tells whether an array is still the old one. -/
theorem block_succ {b b₀ : ℕ} (h : b₀ ≤ b ∧ (b = b₀ ↔ s₀.Kept r a k)) :
    let b' := b + if Shrinks (s₀.npolls - (k + 1)) (s₀.capAfter k) ∧
      a (r (s₀.npolls - (k + 1))) then 1 else 0
    b₀ ≤ b' ∧ (b' = b₀ ↔ s₀.Kept r a (k + 1)) := by
  obtain ⟨hle, hiff⟩ := h
  dsimp only
  rw [kept_succ, ← hiff]
  split
  · refine ⟨by omega, iff_of_false (by omega) ?_⟩
    simp_all
  · refine ⟨hle, ?_⟩
    simp_all

theorem LoopInv.begin (h : s.Indexed) 
    (hfd : ∀ ev, s.polled ev → s.Matches ev (s.fdset (s.index ev))) :
    LoopInv r s 1 s where
  watch := Watch.ScanInv.begin h
  ahead _ _ := rfl
  fdset := hfd
  npolls := rfl
  maxPolls := rfl
  eventsBlock := ⟨Nat.le_refl _, iff_of_true rfl kept_zero⟩
  fdsetBlock := ⟨Nat.le_refl _, iff_of_true rfl kept_zero⟩

/-- The loop looks at a place without an event to report. -/
theorem LoopInv.skip (h : LoopInv r s₀ i s) (hlo : 1 ≤ i) (hi : i < s₀.npolls)
    (hrev : (s₀.fdset i).revents = 0) : LoopInv r s₀ (i + 1) s := by
  obtain ⟨ev, -, hslot₀, hev, hindex, -⟩ := h.watch.current hi
  have hready : s₀.ready ev = false := by simp [ready, hindex, hrev]
  have hdel : s₀.deletions (i + 1) = s₀.deletions i := by
    simp [deletions_succ hlo, deletes, hslot₀, hready]
  refine ⟨h.watch.skip hev hindex hready, fun j hj => h.ahead j (by omega), h.fdset, ?_, ?_, ?_, ?_⟩
  all_goals rw [hdel]
  · exact h.npolls
  · exact h.maxPolls
  · exact h.eventsBlock
  · exact h.fdsetBlock

/-- The loop reports the event at a place. -/
theorem LoopInv.report (h : LoopInv r s₀ i s) (hlo : 1 ≤ i) (hi : i < s₀.npolls)
    (hslot : s.events i = some ev) (hrev : (s₀.fdset i).revents ≠ 0) (res : EventFlags)
    {s₁ : PollSet ε}
    (hs₁ : s₁ = { s with fdset := Function.update s.fdset i { s.fdset i with revents := 0 } }) :
    LoopInv r s₀ (i + 1) (s₁.report ev res (r (s.npolls - 1))) := by
  obtain ⟨ev', hslot', hslot₀, hev, hindex, hpolled, hle, hactive⟩ := h.watch.current hi
  obtain rfl : ev = ev' := Option.some.inj (hslot.symm.trans hslot')
  have hready : s₀.ready ev = true := by simp [ready, hindex, hrev]
  have hwatch : s₀.toWatch.ScanInv s₀.ready (i + 1)
      (s₁.report ev res (r (s.npolls - 1))).toWatch := by
    rw [report_toWatch, hs₁]
    exact h.watch.report hi hslot hready res
  -- The entries still match their events without the result of `poll`.
  have hmatch : ∀ x, s.polled x → s₀.Matches x (s₁.fdset (s.index x)) := by
    intro x hx
    have hold := h.fdset x hx
    rw [hs₁]
    by_cases hxi : s.index x = i
    · rw [hxi] at hold ⊢
      simpa using (⟨hold.fd, hold.events⟩ : s₀.Matches x { s.fdset i with revents := 0 })
    · simpa [hxi] using hold
  have hahead : ∀ j, i + 1 ≤ j → s₁.fdset j = s₀.fdset j := by
    intro j hj
    rw [← h.ahead j (by omega), hs₁]
    exact Function.update_of_ne (by omega) _ _
  have hone : (s.flags ev).oneshot = (s₀.flags ev).oneshot := (h.watch.kind ev).oneshot
  by_cases hkeep : (s₀.flags ev).active ∨ (s₀.flags ev).oneshot = false
  · have hkeep' : (s.flags ev).active ∨ (s.flags ev).oneshot = false := by
      rw [hactive, hone]
      exact hkeep
    have hdel : s₀.deletions (i + 1) = s₀.deletions i := by
      have hnot : s₀.deletes i = false := by
        rcases hkeep with hkeep | hkeep <;> simp [deletes, hslot₀, hkeep]
      simp [deletions_succ hlo, hnot]
    obtain ⟨hidx, hn, hpol⟩ := Watch.report_keep (w := s.toWatch) hkeep' res
    rw [hs₁] at hwatch hmatch hahead ⊢
    rw [report_keep (by exact hkeep')] at hwatch ⊢
    refine ⟨hwatch, hahead, fun x hx => ?_, ?_, ?_, ?_, ?_⟩
    · rw [hidx]
      exact hmatch x ((hpol x).symm.trans hx)
    all_goals rw [hdel]
    · exact hn.trans h.npolls
    · exact h.maxPolls
    · exact h.eventsBlock
    · exact h.fdsetBlock
  · obtain ⟨hnactive, hdrop⟩ := not_or.mp hkeep
    have hactive' : (s.flags ev).active = false := by simpa [hactive] using hnactive
    have hone' : (s.flags ev).oneshot = true := by simpa [hone] using hdrop
    have hdel : s₀.deletions (i + 1) = s₀.deletions i + 1 := by
      have hyes : s₀.deletes i = true := by
        simp_all [deletes]
      simp [deletions_succ hlo, hyes]
    obtain ⟨hidx, hn, hpol⟩ := Watch.report_delete (w := s.toWatch) hpolled hactive'
      hone' res
    have hpolled₁ : s₁.polled ev = true := by
      rw [hs₁]
      exact hpolled
    have hcap : s₀.capAfter (s₀.deletions i + 1) =
        if Shrinks (s.npolls - 1) s.maxPolls then s.maxPolls / 2 else s.maxPolls := by
      rw [capAfter, h.npolls, h.maxPolls, Nat.sub_sub]
    rw [report_delete hpolled₁ (by rw [hs₁]; exact hactive') (by rw [hs₁]; exact hone')]
      at hwatch ⊢
    refine ⟨hwatch, fun j hj => ?_, fun x hx => ?_, ?_, ?_, ?_, ?_⟩
    · -- The deletion changes a place that the loop has passed.
      have hidx₁ : s₁.index ev = s.index ev := by rw [hs₁]
      exact (swapDel_of_ne (by omega)).trans (hahead j hj)
    · obtain ⟨hx, hne⟩ := hpol x (by rw [hs₁] at hx; exact hx)
      have hmoved := h.watch.placed.swapDel_match (b := s₁.fdset) (R := s₀.Matches) hmatch hpolled
        x ⟨hx, hne⟩
      rw [hs₁] at hmoved ⊢
      rw [hidx]
      exact hmoved
    all_goals rw [hdel]
    · rw [hs₁]
      exact hn.trans (by rw [h.npolls, Nat.sub_sub])
    · rw [hcap, hs₁]
    · have hblock := block_succ h.eventsBlock
      rw [← h.maxPolls, ← Nat.sub_sub, ← h.npolls] at hblock
      rw [hs₁]
      exact hblock
    · have hblock := block_succ h.fdsetBlock
      rw [← h.maxPolls, ← Nat.sub_sub, ← h.npolls] at hblock
      rw [hs₁]
      exact hblock

/-- The body of the loop at a place that can be looked at. -/
theorem LoopInv.visit (h : LoopInv r s₀ i s) (hlo : 1 ≤ i) (hi : i < s₀.npolls)
    (hok : s₀.InBounds r i) :
    ∃ s', visit s₀.eventsBlock s₀.fdsetBlock r i s =
        some (s', decide ((s₀.fdset i).revents ≠ 0)) ∧ LoopInv r s₀ (i + 1) s' := by
  obtain ⟨hcap, hfdset, hevents⟩ := hok
  have hguard : s.fdsetBlock = s₀.fdsetBlock ∧ i < s.maxPolls :=
    ⟨h.fdsetBlock.2.mpr hfdset, by rw [h.maxPolls]; exact hcap⟩
  have hrev := congrArg PollFd.revents (h.ahead i (Nat.le_refl i))
  unfold PollSet.visit
  rw [if_pos hguard]
  dsimp only
  rw [hrev]
  by_cases hzero : (s₀.fdset i).revents = 0
  · exact ⟨s, by simp [hzero], h.skip hlo hi hzero⟩
  · obtain ⟨ev, hslot, -⟩ := h.watch.current hi
    rw [if_neg hzero, if_pos (h.eventsBlock.2.mpr (hevents hzero)), hslot]
    exact ⟨_, by simp [hzero], h.report hlo hi hslot hzero
      (resultFlags (s₀.fdset i).revents (s.flags ev)) rfl⟩

/-- The body of the loop at any other place. -/
theorem LoopInv.visit_none (h : LoopInv r s₀ i s) (hok : ¬s₀.InBounds r i) :
    PollSet.visit s₀.eventsBlock s₀.fdsetBlock r i s = none := by
  have hrev := congrArg PollFd.revents (h.ahead i (Nat.le_refl i))
  unfold PollSet.visit
  by_cases hguard : s.fdsetBlock = s₀.fdsetBlock ∧ i < s.maxPolls
  · rw [if_pos hguard]
    dsimp only
    rw [hrev]
    have hcap : i < s₀.capAfter (s₀.deletions i) := h.maxPolls ▸ hguard.2
    have hfdset := h.fdsetBlock.2.mp hguard.1
    have hzero : (s₀.fdset i).revents ≠ 0 := fun hzero =>
      hok ⟨hcap, hfdset, fun hne => absurd hzero hne⟩
    have hevents : s.eventsBlock ≠ s₀.eventsBlock := fun heq =>
      hok ⟨hcap, hfdset, fun _ => h.eventsBlock.2.mp heq⟩
    rw [if_neg hzero, if_neg hevents]
  · rw [if_neg hguard]

end

/-! ## The wait -/

/-- The numbers of the entries have room in the arrays. -/
structure Room (s : PollSet ε) : Prop where
  pos : 1 ≤ s.maxPolls
  le : s.npolls ≤ s.maxPolls

/-- The arrays hold the events with a descriptor, and the entry of the pipe. -/
structure Wf (s : PollSet ε) : Prop where
  pos : 1 ≤ s.npolls
  room : s.Room
  indexed : s.Indexed
  fdset : ∀ ev, s.polled ev → s.Matches ev (s.fdset (s.index ev))
  readyOnce : s.ReadyOnce

/-- The state in which `evq_wait` comes to its loop. -/
def entered (s : PollSet ε) (revents : ℕ → ℕ) (sigs : List ε) : PollSet ε :=
  ((s.fillRevents revents).interrupted sigs).1

/-- The pipe has a result that is not counted off: the loop does not stop before the end. -/
def uncounted (revents : ℕ → ℕ) : ℕ :=
  if revents 0 ≠ 0 ∧ revents 0 &&& pollIn = 0 then 1 else 0

section
variable {s : PollSet ε} {revents : ℕ → ℕ} {sigs : List ε} {r : ℕ → Reallocs} {ev : ε} {j k : ℕ}

theorem entered_fields (s : PollSet ε) (revents : ℕ → ℕ) (sigs : List ε) :
    (s.entered revents sigs).maxPolls = s.maxPolls ∧
      (s.entered revents sigs).eventsBlock = s.eventsBlock ∧
      (s.entered revents sigs).fdsetBlock = s.fdsetBlock := by
  unfold entered interrupted
  split <;> exact ⟨rfl, rfl, rfl⟩

theorem entered_watch (revents : ℕ → ℕ) (hsigs : ∀ ev ∈ sigs, s.signal ev) :
    s.OnlySignals (s.entered revents sigs).toWatch ∧
      (s.ReadyOnce → (s.entered revents sigs).ReadyOnce) := by
  unfold entered interrupted
  split
  · exact Watch.interrupt_onlySignals hsigs
  · exact ⟨Watch.OnlySignals.refl _, id⟩

theorem entered_fdset (hlo : 1 ≤ j) (hj : j < s.npolls) :
    (s.entered revents sigs).fdset j = { s.fdset j with revents := revents j } := by
  unfold entered interrupted
  split
  · simp [fillRevents, hj, show j ≠ 0 by omega]
  · simp [fillRevents, hj]

/-- `evq_wait` is its loop, which is told of `uncounted` hits too many. -/
theorem evqPoll_eq (h : s.Wf) :
    s.evqPoll revents sigs r =
      scan (visit (s.entered revents sigs).eventsBlock (s.entered revents sigs).fdsetBlock r)
        (s.npolls - 1) 1
        (hits (fun i => decide (((s.entered revents sigs).fdset i).revents ≠ 0)) 1 (s.npolls - 1) +
          uncounted revents) (s.entered revents sigs) := by
  have hpos := h.pos
  have hcongr : hits (fun i => decide (((s.entered revents sigs).fdset i).revents ≠ 0)) 1
      (s.npolls - 1) = hits (fun i => decide (revents i ≠ 0)) 1 (s.npolls - 1) :=
    hits_congr fun l hl hlN => by rw [entered_fdset hl (by omega)]
  have hsplit : hits (fun i => decide (revents i ≠ 0)) 0 s.npolls =
      hits (fun i => decide (revents i ≠ 0)) 1 (s.npolls - 1) +
        if revents 0 ≠ 0 then 1 else 0 := by
    obtain ⟨n, hn⟩ := Nat.exists_eq_add_of_le hpos
    rw [hn, Nat.add_comm 1 n, hits_succ]
    simp
  have hzero : ((s.fillRevents revents).fdset 0).revents = revents 0 := by
    simp [fillRevents, show 0 < s.npolls by omega]
  obtain ⟨-, hblock, hblock'⟩ := entered_fields s revents sigs
  have hcount : hits (fun i => decide (revents i ≠ 0)) 0 s.npolls -
      ((s.fillRevents revents).interrupted sigs).2 =
        hits (fun i => decide (revents i ≠ 0)) 1 (s.npolls - 1) + uncounted revents := by
    rw [hsplit]
    unfold interrupted uncounted
    rw [hzero]
    by_cases hin : revents 0 &&& pollIn = 0
    · by_cases hz : revents 0 = 0 <;> simp [hin, hz]
    · have hz : revents 0 ≠ 0 := by
        intro hz
        simp [hz] at hin
      simp [hin, hz]
  rw [hcongr, ← hcount, hblock, hblock']
  rfl

/-- What the loop does from the state in which `evq_wait` comes to it. -/
theorem loopInv_entered (revents : ℕ → ℕ) (r : ℕ → Reallocs) (h : s.Wf)
    (hsigs : ∀ ev ∈ sigs, s.signal ev) :
    LoopInv r (s.entered revents sigs) 1 (s.entered revents sigs) := by
  obtain ⟨hw, -⟩ := entered_watch revents hsigs
  refine LoopInv.begin (hw.indexed h.indexed) fun ev hev => ?_
  have hev : s.polled ev := (hw.polled ev).symm.trans hev
  have hsig : s.signal ev = false := by
    simp only [Watch.polled, Bool.and_eq_true, Bool.not_eq_true'] at hev
    exact hev.1.2
  have hold := h.fdset ev hev
  rw [hw.index, entered_fdset (h.indexed.lo_le ev hev) (h.indexed.lt ev hev)]
  refine ⟨?_, ?_⟩
  · rw [hw.fd]
    exact hold.fd
  · rw [hw.flags ev hsig]
    exact hold.events

/-- The body of the loop in the form of the rules for scans. -/
theorem visit_entered (hn : (s.entered revents sigs).npolls = s.npolls) (i : ℕ) (s' : PollSet ε)
    (hi : i < s.npolls) (hinv : 1 ≤ i ∧ LoopInv r (s.entered revents sigs) i s')
    (hok : (s.entered revents sigs).InBounds r i) :
    ∃ s'', visit (s.entered revents sigs).eventsBlock (s.entered revents sigs).fdsetBlock r i s' =
        some (s'', decide (((s.entered revents sigs).fdset i).revents ≠ 0)) ∧
      (1 ≤ i + 1 ∧ LoopInv r (s.entered revents sigs) (i + 1) s'') := by
  obtain ⟨s'', hvisit, hs''⟩ := hinv.2.visit hinv.1 (by rw [hn]; exact hi) hok
  exact ⟨s'', hvisit, by omega, hs''⟩

theorem visited_entered (hlo : 1 ≤ j) {extra : ℕ} :
    Visited (fun i => decide (((s.entered revents sigs).fdset i).revents ≠ 0)) s.npolls extra j ↔
      Visited (fun i => decide (revents i ≠ 0)) s.npolls extra j :=
  visited_congr fun l hl hlN => by rw [entered_fdset (by omega) hlN]

/-- A scan stays in the arrays if and only if every place that it looks at is in bounds. -/
theorem evqPoll_isSome_iff (h : s.Wf) (hsigs : ∀ ev ∈ sigs, s.signal ev) :
    (s.evqPoll revents sigs r).isSome ↔
      ∀ j, 1 ≤ j → j < s.npolls →
        Visited (fun i => decide (revents i ≠ 0)) s.npolls (uncounted revents) j →
        (s.entered revents sigs).InBounds r j := by
  have hpos := h.pos
  have hn := (entered_watch revents hsigs).1.npolls
  rw [evqPoll_eq h, scan_some_iff (N := s.npolls) (visit_entered hn)
    (fun i s' _ hinv hok => hinv.2.visit_none hok) (by omega)
    ⟨Nat.le_refl 1, loopInv_entered revents r h hsigs⟩]
  refine forall_congr' fun j => forall_congr' fun hlo => forall_congr' fun _ => ?_
  rw [visited_entered hlo]

omit [DecidableEq ε] in
/-- The entries have room after any number of deletions. -/
theorem room_capAfter (h : s.Room) (k : ℕ) : 1 ≤ s.capAfter k ∧ s.npolls - k ≤ s.capAfter k := by
  induction k with
  | zero => exact ⟨h.pos, h.le⟩
  | succ k ih =>
      rw [capAfter]
      split
      · rename_i hshrink
        obtain ⟨hlow, hhigh⟩ := hshrink
        simp only [nevent] at hlow
        omega
      · omega

/-- What a wait leaves behind if its scan stays in the arrays. -/
theorem evqPoll_spec (h : s.Wf) (hsigs : ∀ ev ∈ sigs, s.signal ev) {s' : PollSet ε}
    (hs' : s.evqPoll revents sigs r = some s') :
    s.MissesNothing (fun ev => decide (revents (s.index ev) ≠ 0)) s'.toWatch ∧ s'.Wf := by
  have hpos := h.pos
  obtain ⟨hw, hready⟩ := entered_watch revents hsigs
  have hn := hw.npolls
  have hok := (evqPoll_isSome_iff h hsigs).mp (by rw [hs']; rfl)
  obtain ⟨s'', m, hscan, ⟨hm, hinv⟩, -, hmN, hlast⟩ := scan_inv (N := s.npolls) (k := s.npolls - 1)
    (visit_entered hn) (by omega) ⟨Nat.le_refl 1, loopInv_entered revents r h hsigs⟩
    fun j hlo hj hvis => hok j hlo hj ((visited_entered hlo).mp hvis)
  rw [← evqPoll_eq h, hs'] at hscan
  obtain rfl := Option.some.inj hscan
  -- Behind the place `m` no event is ready, so the loop has reported them all.
  have hreported := hinv.watch.finish fun ev hev hle => by
    have hlt := h.indexed.lt ev ((hw.polled ev).symm.trans hev)
    rw [hw.index] at hle
    rw [ready, hw.index]
    exact hlast (s.index ev) hle hlt
  have hrep : ∀ ev, s.polled ev → (s.entered revents sigs).ready ev =
      decide (revents (s.index ev) ≠ 0) := by
    intro ev hev
    rw [ready, hw.index, entered_fdset (h.indexed.lo_le ev hev) (h.indexed.lt ev hev)]
  refine ⟨(hreported.missesNothing hw (hready h.readyOnce)).congr hrep, ?_, ?_, ?_, ?_, ?_⟩
  · rw [hinv.npolls, hn]
    have hle : (s.entered revents sigs).deletions m ≤ m - 1 := hits_le
    omega
  · have hroom : (s.entered revents sigs).Room :=
      ⟨by rw [(entered_fields s revents sigs).1]; exact h.room.pos,
        by rw [(entered_fields s revents sigs).1, hn]; exact h.room.le⟩
    obtain ⟨hcap, hle⟩ := room_capAfter hroom ((s.entered revents sigs).deletions m)
    exact ⟨by rw [hinv.maxPolls]; exact hcap, by rw [hinv.maxPolls, hinv.npolls]; exact hle⟩
  · exact hreported.indexed
  · intro ev hev
    have hold := hinv.fdset ev hev
    refine ⟨?_, ?_⟩
    · rw [hinv.watch.fd]
      exact hold.fd
    · rw [pollEvents, (hinv.watch.kind ev).read]
      exact hold.events
  · exact hreported.readyOnce (hready h.readyOnce)

/-- No deletion of the scan halves the arrays. -/
def NoShrink (s : PollSet ε) (revents : ℕ → ℕ) (sigs : List ε) : Prop :=
  ∀ k < (s.entered revents sigs).deletions s.npolls, ¬Shrinks (s.npolls - (k + 1)) s.maxPolls

omit [DecidableEq ε] in
theorem capAfter_of_not_shrinks (h : ∀ m < k, ¬Shrinks (s.npolls - (m + 1)) s.maxPolls) :
    s.capAfter k = s.maxPolls := by
  induction k with
  | zero => rfl
  | succ k ih =>
      have ih := ih fun m hm => h m (by omega)
      rw [capAfter, ih, if_neg (h k (by omega))]

/-- A scan that halves nothing stays in the arrays. -/
theorem evqPoll_of_noShrink (h : s.Wf) (hsigs : ∀ ev ∈ sigs, s.signal ev)
    (hno : s.NoShrink revents sigs) : ∃ s', s.evqPoll revents sigs r = some s' := by
  obtain ⟨hmax, -, -⟩ := entered_fields s revents sigs
  have hn := (entered_watch revents hsigs).1.npolls
  refine Option.isSome_iff_exists.mp ((evqPoll_isSome_iff h hsigs).mpr fun j hlo hj _ => ?_)
  have hle : (s.entered revents sigs).deletions j ≤ (s.entered revents sigs).deletions s.npolls :=
    hits_mono (by omega)
  have hbefore : ∀ m < (s.entered revents sigs).deletions j,
      ¬Shrinks ((s.entered revents sigs).npolls - (m + 1)) (s.entered revents sigs).maxPolls := by
    intro m hm
    rw [hn, hmax]
    exact hno m (by omega)
  have hkept : ∀ a, (s.entered revents sigs).Kept r a ((s.entered revents sigs).deletions j) := by
    intro a m hm hshrinks
    rw [capAfter_of_not_shrinks fun m' hm' => hbefore m' (by omega)] at hshrinks
    exact absurd hshrinks (hbefore m hm)
  refine ⟨?_, hkept _, fun _ => hkept _⟩
  rw [capAfter_of_not_shrinks hbefore, hmax]
  have := h.room.le
  omega

/-! ## Adding and deleting -/

/-- `evq_add` and `evq_del` keep room for the entries, whatever `realloc` does. -/
theorem Room.evqAdd (h : s.Room) (ev : ε) (r : Reallocs) : (s.evqAdd ev r).1.Room := by
  obtain ⟨hpos, hle⟩ := h
  unfold PollSet.evqAdd
  dsimp only
  split
  · exact ⟨hpos, hle⟩
  · split
    · split
      · split
        · refine ⟨?_, ?_⟩ <;> simp only [append, Watch.append] <;> omega
        · exact ⟨hpos, hle⟩
      · exact ⟨hpos, hle⟩
    · refine ⟨hpos, ?_⟩
      simp only [append, Watch.append]
      omega

theorem Room.evqDel (h : s.Room) (ev : ε) (r : Reallocs) : (s.evqDel ev r).Room := by
  obtain ⟨hpos, hle⟩ := h
  have hn : (s.toWatch.evqDel ev).npolls ≤ s.npolls := by
    unfold Watch.evqDel
    dsimp only
    split
    · exact Nat.le_refl _
    · exact Nat.sub_le _ _
  unfold PollSet.evqDel
  dsimp only
  split
  · exact ⟨hpos, hn.trans hle⟩
  · rw [shrink_eq]
    dsimp only
    split
    · rename_i hshrink
      obtain ⟨hlow, hhigh⟩ := hshrink
      simp only [nevent] at hlow
      refine ⟨?_, ?_⟩
      · dsimp only
        omega
      · dsimp only
        omega
    · exact ⟨hpos, hn.trans hle⟩

/-- A new event with a descriptor is added. -/
theorem Wf.append (h : s.Wf) (hnew : s.registered ev = false) (hsig : s.signal ev = false)
    (htimer : (s.flags ev).timer = false) (hroom : s.npolls < s.maxPolls) :
    ({ s with registered := Function.update s.registered ev true }.append ev).Wf := by
  have hpolled : ∀ x, ({ s with registered := Function.update s.registered ev true }.append
      ev).polled x = (decide (x = ev) || s.polled x) := by
    intro x
    by_cases hx : x = ev
    · simp [hx, PollSet.append, Watch.append, Watch.polled, hsig, htimer]
    · simp [hx, PollSet.append, Watch.append, Watch.polled]
  have hev : s.polled ev = false := by simp [Watch.polled, hnew]
  refine ⟨?_, ⟨h.room.pos, ?_⟩, ?_, fun x hx => ?_, h.readyOnce⟩
  · simp [PollSet.append, Watch.append]
  · simp only [PollSet.append, Watch.append]
    omega
  · have hset : { x | ({ s with registered := Function.update s.registered ev true }.append
        ev).polled x = true } = insert ev { x | s.polled x = true } := by
      ext x
      simp [hpolled]
    rw [Watch.Indexed, hset]
    exact h.indexed.add h.pos (by simp [hev])
  · rw [hpolled, Bool.or_eq_true, decide_eq_true_eq] at hx
    by_cases hxe : x = ev
    · subst hxe
      constructor <;> simp [PollSet.append, Watch.append]
    · have hx := hx.resolve_left hxe
      have hlt := h.indexed.lt x hx
      have hold := h.fdset x hx
      constructor
      · simpa [PollSet.append, Watch.append, hxe, Nat.ne_of_lt hlt] using hold.fd
      · simpa [PollSet.append, Watch.append, hxe, Nat.ne_of_lt hlt] using hold.events

/-- `evq_add` succeeds for a new event, and keeps the arrays well formed. -/
theorem Wf.evqAdd (h : s.Wf) (hnew : s.registered ev = false) (hsig : s.signal ev = false)
    (htimer : (s.flags ev).timer = false) {r : Reallocs} (hres : (s.evqAdd ev r).2 = 0) :
    (s.evqAdd ev r).1.Wf := by
  have hle := h.room.le
  have hpos := h.room.pos
  unfold PollSet.evqAdd at hres ⊢
  dsimp only at hres ⊢
  rw [if_neg (by simp [hsig])] at hres ⊢
  split
  · rename_i hfull
    rw [if_pos hfull] at hres
    cases hevents : r.events
    · simp [hevents] at hres
    · cases hfdset : r.fdset
      · simp [hevents, hfdset] at hres
      · simp only [if_true]
        have hwide : ({ s with
            eventsBlock := s.eventsBlock + 1
            fdsetBlock := s.fdsetBlock + 1
            maxPolls := 2 * s.maxPolls } : PollSet ε).Wf :=
          ⟨h.pos, ⟨by dsimp only; omega, by dsimp only; omega⟩, h.indexed,
            fun x hx => ⟨(h.fdset x hx).fd, (h.fdset x hx).events⟩, h.readyOnce⟩
        exact hwide.append hnew hsig htimer (by dsimp only; omega)
  · rename_i hroom
    exact h.append hnew hsig htimer (by omega)

/-- `evq_del` keeps the arrays well formed. -/
theorem Wf.evqDel (h : s.Wf) (hev : s.polled ev) (r : Reallocs) : (s.evqDel ev r).Wf := by
  have hroom := h.room.evqDel ev r
  rw [evqDel_of_polled hev] at hroom ⊢
  have hdel : s.toWatch.evqDel ev =
      { s.toWatch.remove ev with registered := Function.update s.registered ev false } := by
    simp only [Watch.polled, Bool.and_eq_true, Bool.not_eq_true'] at hev
    simp [Watch.evqDel, hev, Watch.remove]
  rw [hdel] at hroom ⊢
  have hpolled : ∀ x, ({ s.toWatch.remove ev with
      registered := Function.update s.registered ev false } : Watch ε).polled x = true ↔
        s.polled x = true ∧ x ≠ ev := by
    intro x
    by_cases hx : x = ev
    · simp [hx, Watch.polled]
    · simp [hx, Watch.polled, Watch.remove]
  have hlt := h.indexed.lt ev hev
  have hlo := h.indexed.lo_le ev hev
  refine ⟨?_, hroom, ?_, fun x hx => ?_, h.readyOnce⟩
  · simp only [Watch.remove]
    omega
  · have hset : { x | ({ s.toWatch.remove ev with
        registered := Function.update s.registered ev false } : Watch ε).polled x = true } =
          { x | s.polled x = true } \ {ev} := by
      ext x
      exact hpolled x
    show Placed _ _ _ _ _
    rw [hset]
    exact h.indexed.delete hev
  · obtain ⟨hx, hne⟩ := (hpolled x).mp hx
    have hmoved := h.indexed.swapDel_match (b := s.fdset) (R := s.Matches) h.fdset hev x ⟨hx, hne⟩
    exact ⟨hmoved.fd, hmoved.events⟩

end

/-- A call of `evq_add` or `evq_del`, with the outcome of `realloc`. -/
inductive Call (ε : Type*)
  | add (ev : ε) (r : Reallocs)
  | del (ev : ε) (r : Reallocs)

def call (s : PollSet ε) : Call ε → PollSet ε
  | .add ev r => (s.evqAdd ev r).1
  | .del ev r => s.evqDel ev r

/-- The scan of a wait looks at places in its arrays only, and any calls of `evq_add` and
`evq_del` leave room for the entries. -/
structure StaysInside (s : PollSet ε) (revents : ℕ → ℕ) (sigs : List ε) (r : ℕ → Reallocs) :
    Prop where
  scan : (s.evqPoll revents sigs r).isSome
  room : ∀ calls : List (Call ε), (calls.foldl call s).npolls ≤ (calls.foldl call s).maxPolls

section
variable {s : PollSet ε} {revents : ℕ → ℕ} {sigs : List ε} {r : ℕ → Reallocs}

theorem Room.calls (h : s.Room) (calls : List (Call ε)) : (calls.foldl call s).Room := by
  induction calls generalizing s with
  | nil => exact h
  | cons c calls ih =>
      cases c with
      | add ev r => exact ih (h.evqAdd ev r)
      | del ev r => exact ih (h.evqDel ev r)

/-- The accesses of a wait stay in the arrays if and only if no place that it looks at has been
left outside by the deletions before it, and these have not moved the arrays. -/
theorem staysInside_iff (h : s.Wf) (hsigs : ∀ ev ∈ sigs, s.signal ev) :
    s.StaysInside revents sigs r ↔
      ∀ j, 1 ≤ j → j < s.npolls →
        Visited (fun i => decide (revents i ≠ 0)) s.npolls (uncounted revents) j →
        (s.entered revents sigs).InBounds r j := by
  rw [← evqPoll_isSome_iff h hsigs]
  exact ⟨fun hs => hs.scan, fun hs => ⟨hs, fun calls => (h.room.calls calls).le⟩⟩

end

/-- A queue with `n - 1` oneshot events that wait for input, and arrays of the size `cap`. -/
def oneshots (n cap : ℕ) : PollSet ℕ where
  fd ev := ev
  flags _ := { read := true, oneshot := true }
  signal _ := false
  registered ev := decide (1 ≤ ev ∧ ev < n)
  index ev := ev
  npolls := n
  events i := some i
  evReady := []
  maxPolls := cap
  fdset i := ⟨i, pollIn, 0⟩
  eventsBlock := 0
  fdsetBlock := 0

theorem oneshots_wf {n cap : ℕ} (hn : 1 ≤ n) (hcap : n ≤ cap) : (oneshots n cap).Wf := by
  have hpolled : ∀ ev, (oneshots n cap).polled ev = true ↔ 1 ≤ ev ∧ ev < n := by
    intro ev
    simp [Watch.polled, oneshots]
  refine ⟨hn, ⟨by simp only [oneshots]; omega, hcap⟩, ?_, fun ev _ => ⟨rfl, rfl⟩, fun _ => rfl⟩
  refine ⟨fun ev hev => ((hpolled ev).mp hev).1, fun ev hev => ((hpolled ev).mp hev).2,
    fun _ _ => rfl, fun i hlo hi => ⟨i, (hpolled i).mpr ⟨hlo, hi⟩, rfl, rfl⟩⟩

/-- All events are ready, and the pipe is not. -/
def allReady (i : ℕ) : ℕ := if i = 0 then 0 else pollIn

/-- Forty events are deleted in one wait, and the arrays of the initial size are not halved. -/
theorem staysInside_iff_fortyEvents :
    (oneshots 41 64).StaysInside allReady [] (fun _ => ⟨true, true⟩) := by
  refine (staysInside_iff (oneshots_wf (by decide) (by decide)) (by simp)).mpr fun j _ hj _ => ?_
  have hno : ∀ m, ¬Shrinks (41 - (m + 1)) 64 := fun m hshrinks => by
    obtain ⟨hlow, hhigh⟩ := hshrinks
    rw [nevent] at hlow
    omega
  have hcap : ∀ k, ((oneshots 41 64).entered allReady []).capAfter k = 64 :=
    fun k => capAfter_of_not_shrinks fun m _ => hno m
  have hkept : ∀ a, ((oneshots 41 64).entered allReady []).Kept (fun _ => ⟨true, true⟩) a
      (((oneshots 41 64).entered allReady []).deletions j) := by
    intro a m _ hshrinks
    rw [hcap] at hshrinks
    exact absurd hshrinks (hno m)
  refine ⟨?_, hkept _, fun _ => hkept _⟩
  rw [hcap]
  exact Nat.lt_trans hj (by decide)

/-- With 129 oneshot events that are all ready, the arrays are halved after 66 of them have been
deleted, and the loop goes on in the old ones. -/
theorem scan_leaves_arrays :
    (oneshots 130 256).Wf ∧
      (oneshots 130 256).evqPoll allReady [] (fun _ => ⟨true, true⟩) = none := by
  have hwf : (oneshots 130 256).Wf := oneshots_wf (by decide) (by decide)
  refine ⟨hwf, ?_⟩
  have hdel : ((oneshots 130 256).entered allReady []).deletions 67 = 66 := by decide
  have hcap : ((oneshots 130 256).entered allReady []).capAfter 65 = 256 :=
    capAfter_of_not_shrinks fun m hm hshrinks => by
      have hle : 130 - (m + 1) ≤ 256 / 4 := hshrinks.2
      omega
  rw [← Option.not_isSome_iff_eq_none, evqPoll_isSome_iff hwf (by simp)]
  intro hall
  have hn : (oneshots 130 256).npolls = 130 := rfl
  rw [hn] at hall
  have hvisited : Visited (fun i => decide (allReady i ≠ 0)) 130 (uncounted allReady) 67 :=
    Or.inr ⟨67, Nat.le_refl 67, by decide, by simp [allReady, pollIn]⟩
  have hkept := (hall 67 (by decide) (by decide) hvisited).2.1
  rw [hdel] at hkept
  have hshrinks : Shrinks (130 - (65 + 1)) (((oneshots 130 256).entered allReady []).capAfter 65) := by
    rw [hcap]
    decide
  exact absurd (hkept 65 (by decide) hshrinks) (by simp)

end PollSet

end LuaSys.Event
