import LuaSys.Event.Win32Threads
import LuaSys.Lib.Census
import Mathlib.Data.List.ReduceOption

/-!
# The hand-shake with the waiting threads

The owner and a helper thread share the arrays of a record without a lock.  What keeps them
apart is the field `state`.  `win32thr_poll` calls the threads that sleep and waits until the
last one of them has read its `n`; `win32thr_sleep` asks a thread that may be in its wait to
acknowledge.  All answers come through one auto-reset event, `ack_event`, so an answer that
nobody waits for would make a later wait end too early.

`evq_del` leaves `win32thr_sleep` out for an event that is active: its thread has reported and
sleeps.  `Win32Evq.Safe` is what this relies on.

## Main definitions

* `Win32Evq.WaitsOnRecord` — a thread that waits does so for the handles of its record.
* `Phase`, `Outside` — the states of a thread in the list, and of one that is not in it.
* `Win32Evq.Owned` — what the owner may rely on, by the place where it is.
* `Win32Evq.Handshake` — the invariant.

## Main results

* `handshake_step` — the invariant is kept by all steps that are safe.
* `waits_on_record_iff` — the threads wait for their records all along a run if and only if no
  step of it deletes an active event under a wait.
-/

namespace LuaSys.Event

open LuaSys.Lib Relation

variable {θ ε : Type*}

/-- The owner does not wait for an answer, and does not call the threads. -/
def OwnerAt.plain : OwnerAt θ ε → Bool
  | .asleep _ _ => false
  | .starting _ _ _ => false
  | .calling _ _ _ => false
  | .counting => false
  | _ => true

/-- The helper threads that the loop over the records has to go to. -/
def OwnerAt.scanTodo : OwnerAt θ ε → List θ
  | .scanning todo => todo.reduceOption
  | _ => []

/-- The thread is about to wait, or waits. -/
def ThrAt.InWait : ThrAt ε → Prop
  | .begun _ => True
  | .waiting _ => True
  | _ => False

/-- Where a thread of the list may be, with its state and its signal. -/
inductive Phase : Win32Thr ε → Prop
  | asleep : Phase ⟨.sleep, false, .idle⟩
  | called : Phase ⟨.poll, true, .idle⟩
  | counted (n : ℕ) : Phase ⟨.poll, false, .counted n⟩
  | begun (n : ℕ) : Phase ⟨.poll, false, .begun n⟩
  | begunAck (n : ℕ) : Phase ⟨.ack, true, .begun n⟩
  | waiting (hs : List (WaitHandle ε)) : Phase ⟨.poll, false, .waiting hs⟩
  | waitingAck (hs : List (WaitHandle ε)) : Phase ⟨.ack, true, .waiting hs⟩
  | woken : Phase ⟨.poll, false, .woken true⟩
  | wokenAck : Phase ⟨.ack, true, .woken true⟩
  | stopped : Phase ⟨.ack, false, .woken false⟩
  | reporting : Phase ⟨.ready, false, .reporting⟩
  | ready : Phase ⟨.ready, false, .idle⟩

/-- Where a thread that is not in the list may be. -/
inductive Outside : Win32Thr ε → Prop
  | unborn : Outside ⟨.sleep, false, .unborn⟩
  | leaving : Outside ⟨.sleep, true, .idle⟩
  | gone : Outside ⟨.sleep, false, .gone⟩

/-- A thread that has been called and has not decremented `nwakeup` yet. -/
def Uncounted (t : Win32Thr ε) : Prop :=
  match t.pc with
  | .idle => t.state = .poll
  | .counted _ => True
  | _ => False

/-- What a thread knows of its record. -/
def Agrees (a : WthArrays ε) (t : Win32Thr ε) : Prop :=
  match t.pc with
  | .idle => t.state = .poll → 0 < a.n
  | .counted n => n = a.n ∧ 0 < n
  | .begun n => n = a.n
  | .waiting hs => hs = a.waitList a.n
  | _ => True

/-- A thread whose record may be changed. -/
def Still (t : Win32Thr ε) : Prop :=
  match t.pc with
  | .idle => t.state ≠ .poll
  | .counted _ => False
  | .begun _ => False
  | .waiting _ => False
  | _ => True

theorem Still.agrees {a : WthArrays ε} {t : Win32Thr ε} (h : Still t) : Agrees a t := by
  unfold Agrees
  unfold Still at h
  split at h
  · exact fun hpoll => absurd hpoll h
  · exact h.elim
  · exact h.elim
  · exact h.elim
  · trivial

/-- In the list, a thread that is neither called nor in its wait is still. -/
theorem Phase.still {t : Win32Thr ε} (h : Phase t) (hcount : ¬Uncounted t) (hwait : ¬t.pc.InWait) :
    Still t := by
  cases h <;> simp_all [Still, Uncounted, ThrAt.InWait]

theorem Phase.still_of_ne {t : Win32Thr ε} (h : Phase t) (hpoll : t.state ≠ .poll)
    (hack : t.state ≠ .ack) : Still t := by
  cases h <;> simp_all [Still]

theorem Phase.not_unborn {t : Win32Thr ε} (h : Phase t) : t.pc ≠ .unborn := by
  cases h <;> simp

theorem Outside.not_uncounted {t : Win32Thr ε} (h : Outside t) : ¬Uncounted t := by
  cases h <;> simp [Uncounted]

theorem Outside.state {t : Win32Thr ε} (h : Outside t) : t.state = .sleep := by
  cases h <;> rfl

namespace Win32Evq

variable [DecidableEq θ] [DecidableEq ε] {s s' : Win32Evq θ ε}

/-- A thread that waits, or is about to, does so for the handles of its record. -/
def WaitsOnRecord (s : Win32Evq θ ε) : Prop :=
  ∀ w, match (s.thr w).pc with
    | .begun n => n = (s.arrays (some w)).n
    | .waiting hs => hs = (s.arrays (some w)).waitList (s.arrays (some w)).n
    | _ => True

/-- No thread has been called, and no answer is to be had. -/
structure Quiet (s : Win32Evq θ ε) : Prop where
  counted : ∀ w, ¬Uncounted (s.thr w)
  nwakeup : s.nwakeup = 0

omit [DecidableEq θ] [DecidableEq ε] in
theorem Quiet.congr (h : s.Quiet) (hthr : s'.thr = s.thr) (hn : s'.nwakeup = s.nwakeup) :
    s'.Quiet :=
  ⟨fun w hw => h.counted w (hthr ▸ hw), hn.trans h.nwakeup⟩

/-- A change that may be made to a record. -/
def Allowed (s : Win32Evq θ ε) (wth : Option θ) : WthChange ε → Prop
  | .add ev _ => s.evWth ev = none ∧ s.active ev = false ∧ (s.arrays wth).n < nevent - 1
  | .del ev => s.evWth ev = some wth
  | .touch => True

/-- What the owner may rely on. -/
def Owned (s : Win32Evq θ ε) : Prop :=
  match s.owner with
  | .asleep w c => s.Quiet ∧ w ∈ s.threads ∧ s.Allowed (some w) c ∧
      if s.ack then (s.thr w).state ≠ .poll ∧ (s.thr w).state ≠ .ack else (s.thr w).state = .ack
  | .starting w ev _ => s.Quiet ∧ s.evWth ev = none ∧ s.active ev = false ∧
      if s.ack then w ∈ s.threads ∧ (s.arrays (some w)).n = 0 ∧ (s.thr w).state = .sleep
      else w ∉ s.threads ∧ (s.thr w).pc = .unborn
  | .calling todo _ polled => s.ack = false ∧ todo <:+ s.threads ∧
      (∀ w ∈ todo, ¬Uncounted (s.thr w)) ∧
      ∃ m : ℕ, Census s.thr Uncounted m ∧ s.nwakeup = m ∧ (polled = true ↔ 0 < m)
  | .counting => ∃ m : ℕ, Census s.thr Uncounted m ∧ s.nwakeup = m ∧ (s.ack = true ↔ m = 0)
  | _ => s.ack = false ∧ s.Quiet

/-- The threads that have reported are those on `wthReady` and those that the owner has taken
from there. -/
structure Reported (s : Win32Evq θ ε) : Prop where
  nodup : (s.owner.scanTodo ++ s.wthReady).Nodup
  mem_iff : ∀ w, w ∈ s.owner.scanTodo ++ s.wthReady ↔
    w ∈ s.threads ∧ (s.thr w).state = .ready ∧ (s.thr w).pc = .idle
  signalled : s.wthReady ≠ [] → s.headSignal = true ∨ s.owner = .collecting

/-- The owner and the threads agree on who is at a record. -/
structure Handshake (s : Win32Evq θ ε) : Prop where
  recorded : s.Recorded
  nodup : s.threads.Nodup
  phase : ∀ w ∈ s.threads, Phase (s.thr w)
  agrees : ∀ w ∈ s.threads, Agrees (s.arrays (some w)) (s.thr w)
  outside : ∀ w, w ∉ s.threads → Outside (s.thr w)
  empty : ∀ w, w ∉ s.threads → (s.arrays (some w)).n = 0
  acks : ∀ w, (s.thr w).state = .ack → ∃ c, s.owner = .asleep w c
  owned : s.Owned
  reported : s.Reported

omit [DecidableEq θ] [DecidableEq ε] in
theorem handshake_init (oneshot : ε → Bool) : (init oneshot : Win32Evq θ ε).Handshake where
  recorded := recorded_init oneshot
  nodup := List.nodup_nil
  phase _ hw := nomatch hw
  agrees _ hw := nomatch hw
  outside _ _ := .unborn
  empty _ _ := rfl
  acks _ h := nomatch h
  owned := ⟨rfl, fun _ => Outside.unborn.not_uncounted, rfl⟩
  reported := ⟨List.nodup_nil, fun w => by simp [init, OwnerAt.scanTodo], fun h => absurd rfl h⟩

omit [DecidableEq ε] in
theorem Handshake.waitsOnRecord (h : s.Handshake) : s.WaitsOnRecord := by
  intro w
  by_cases hw : w ∈ s.threads
  · have hagrees := h.agrees w hw
    unfold Agrees at hagrees
    split at hagrees <;> simp_all
  · have hout := h.outside w hw
    generalize s.thr w = t at hout
    cases hout <;> trivial

/-! ## Places of the owner -/

omit [DecidableEq θ] [DecidableEq ε] in
theorem owned_plain (hplain : s.owner.plain) : s.Owned ↔ s.ack = false ∧ s.Quiet := by
  unfold Owned
  cases ho : s.owner <;> simp_all [OwnerAt.plain]

section
variable {wth : Option θ} {ev : ε} {c : WthChange ε}

omit [DecidableEq θ] [DecidableEq ε] in
theorem SameThreads.thr (h : s.SameThreads s') : s'.thr = s.thr := by
  rw [SameThreads] at h
  rw [h]

omit [DecidableEq θ] [DecidableEq ε] in
theorem SameThreads.threads (h : s.SameThreads s') : s'.threads = s.threads := by
  rw [SameThreads] at h
  rw [h]

omit [DecidableEq θ] [DecidableEq ε] in
theorem SameThreads.owner (h : s.SameThreads s') : s'.owner = s.owner := by
  rw [SameThreads] at h
  rw [h]

omit [DecidableEq θ] [DecidableEq ε] in
theorem SameThreads.reported (h : s.SameThreads s') : s'.Reported ↔ s.Reported := by
  rw [SameThreads] at h
  rw [h]
  exact ⟨fun hr => ⟨hr.nodup, hr.mem_iff, hr.signalled⟩,
    fun hr => ⟨hr.nodup, hr.mem_iff, hr.signalled⟩⟩

omit [DecidableEq θ] [DecidableEq ε] in
theorem SameThreads.quiet (h : s.SameThreads s') : s'.ack = false ∧ s'.Quiet ↔
    s.ack = false ∧ s.Quiet := by
  rw [SameThreads] at h
  rw [h]
  exact and_congr_right fun _ => ⟨fun hq => ⟨hq.counted, hq.nwakeup⟩,
    fun hq => ⟨hq.counted, hq.nwakeup⟩⟩

omit [DecidableEq θ] [DecidableEq ε] in
/-- The record of a thread that is still may change. -/
theorem Handshake.sameThreads (h : s.Handshake) (hplain : s.owner.plain)
    (hsame : s.SameThreads s') (hrec : s'.Recorded)
    (harr : ∀ w, s'.arrays (some w) = s.arrays (some w) ∨ w ∈ s.threads ∧ Still (s.thr w)) :
    s'.Handshake where
  recorded := hrec
  nodup := hsame.threads ▸ h.nodup
  phase w hw := hsame.thr ▸ h.phase w (hsame.threads ▸ hw)
  agrees w hw := by
    rw [hsame.threads] at hw
    rw [hsame.thr]
    rcases harr w with heq | ⟨-, hstill⟩
    · exact heq ▸ h.agrees w hw
    · exact hstill.agrees
  outside w hw := hsame.thr ▸ h.outside w (hsame.threads ▸ hw)
  empty w hw := by
    rw [hsame.threads] at hw
    rcases harr w with heq | ⟨hin, -⟩
    · exact heq ▸ h.empty w hw
    · exact absurd hin hw
  acks w hw := by
    rw [hsame.thr] at hw
    rw [hsame.owner]
    exact h.acks w hw
  owned := by
    rw [owned_plain (hsame.owner ▸ hplain), hsame.quiet]
    exact (owned_plain hplain).mp h.owned
  reported := hsame.reported.mpr h.reported

theorem change_arrays_of_ne {wth' : Option θ} (hne : wth' ≠ wth) :
    (s.change wth c).arrays wth' = s.arrays wth' := by
  cases c with
  | add ev ok =>
      cases ok with
      | false => rfl
      | true => exact Function.update_of_ne hne _ _
  | del ev => exact Function.update_of_ne hne _ _
  | touch => rfl

theorem Recorded.change (h : s.Recorded) (hc : s.Allowed wth c) : (s.change wth c).Recorded := by
  cases c with
  | add ev ok => exact h.add hc.2.2 hc.1
  | del ev => exact h.del hc
  | touch => exact h

/-- The owner changes a record whose thread is still. -/
theorem Handshake.change (h : s.Handshake) (hplain : s.owner.plain) (hc : s.Allowed wth c)
    (hstill : ∀ w, wth = some w → w ∈ s.threads ∧ Still (s.thr w)) :
    (s.change wth c).Handshake := by
  refine h.sameThreads hplain sameThreads_change (h.recorded.change hc) fun w => ?_
  by_cases hw : wth = some w
  · exact .inr (hstill w hw)
  · exact .inl (change_arrays_of_ne fun heq => hw heq.symm)

omit [DecidableEq θ] [DecidableEq ε] in
/-- The owner goes on to a place where it waits for nothing. -/
theorem Handshake.goto (h : s.Handshake) (hplain : s.owner.plain) {o : OwnerAt θ ε}
    (ho : o.plain) (htodo : o.scanTodo = s.owner.scanTodo) {idx : Option θ → ℕ}
    {headSignal : Bool} (hsig : s.wthReady ≠ [] → headSignal = true ∨ o = .collecting) :
    Handshake { s with owner := o, idx := idx, headSignal := headSignal } where
  recorded := ⟨h.recorded.placed, h.recorded.object, h.recorded.last, h.recorded.bound⟩
  nodup := h.nodup
  phase := h.phase
  agrees := h.agrees
  outside := h.outside
  empty := h.empty
  acks w hw := by
    obtain ⟨c, hc⟩ := h.acks w hw
    rw [hc] at hplain
    cases hplain
  owned := by
    obtain ⟨hack, hquiet⟩ := (owned_plain hplain).mp h.owned
    refine (owned_plain ?_).mpr ⟨hack, hquiet.counted, hquiet.nwakeup⟩
    exact ho
  reported := ⟨htodo ▸ h.reported.nodup, htodo ▸ h.reported.mem_iff, hsig⟩

omit [DecidableEq ε] in
/-- The thread of a record with events is in the list. -/
theorem Handshake.mem_threads (h : s.Handshake) {w : θ} (hev : s.evWth ev = some (some w)) :
    w ∈ s.threads := by
  by_contra hw
  exact h.recorded.evWth_ne (h.empty w hw) hev

omit [DecidableEq ε] in
/-- A thread goes on, and neither reports nor is taken from the list. -/
theorem Reported.setThr (h : s.Reported) {w : θ} {t : Win32Thr ε}
    (hthr : s'.thr = Function.update s.thr w t)
    (ht : t.state = .ready ∧ t.pc = .idle ↔ (s.thr w).state = .ready ∧ (s.thr w).pc = .idle)
    (hthreads : s'.threads = s.threads) (hready : s'.wthReady = s.wthReady)
    (hsignal : s'.headSignal = s.headSignal) (htodo : s'.owner.scanTodo = s.owner.scanTodo)
    (howner : s.owner = .collecting → s'.owner = .collecting) : s'.Reported where
  nodup := by
    rw [htodo, hready]
    exact h.nodup
  mem_iff v := by
    rw [htodo, hready, h.mem_iff, hthreads, hthr]
    by_cases hvw : v = w
    · subst hvw
      rw [Function.update_self, ht]
    · rw [Function.update_of_ne hvw]
  signalled hne := by
    rw [hready] at hne
    rw [hsignal]
    exact (h.signalled hne).imp_right howner

omit [DecidableEq θ] [DecidableEq ε] in
/-- The owner goes on, and takes nothing from the list. -/
theorem Reported.goto (h : s.Reported) (hthr : s'.thr = s.thr) (hthreads : s'.threads = s.threads)
    (hready : s'.wthReady = s.wthReady) (hsignal : s'.headSignal = s.headSignal)
    (htodo : s'.owner.scanTodo = s.owner.scanTodo)
    (howner : s.owner = .collecting → s'.owner = .collecting) : s'.Reported where
  nodup := by
    rw [htodo, hready]
    exact h.nodup
  mem_iff v := by
    rw [htodo, hready, h.mem_iff, hthreads, hthr]
  signalled hne := by
    rw [hready] at hne
    rw [hsignal]
    exact (h.signalled hne).imp_right howner

/-- `win32thr_sleep`, from a place where nothing is waited for. -/
theorem Handshake.win32thrSleep (h : s.Handshake) (ho : s.owner = .free) (hc : s.Allowed wth c)
    (hin : ∀ w, wth = some w → w ∈ s.threads) : (s.win32thrSleep wth c).Handshake := by
  have hplain : s.owner.plain := by simp [ho, OwnerAt.plain]
  obtain ⟨hack, hquiet⟩ := (owned_plain hplain).mp h.owned
  cases wth with
  | none => exact h.change hplain hc fun w hw => nomatch hw
  | some w =>
    have hw : w ∈ s.threads := hin w rfl
    have hphase := h.phase w hw
    rw [Win32Evq.win32thrSleep]
    split
    next hpoll =>
      have hagrees := h.agrees w hw
      have hcount := hquiet.counted w
      have hnew : Phase { s.thr w with state := .ack, signal := true } ∧
          Agrees (s.arrays (some w)) { s.thr w with state := .ack, signal := true } ∧
          ¬Uncounted { s.thr w with state := .ack, signal := true } := by
        generalize s.thr w = t at hphase hagrees hcount hpoll ⊢
        cases hphase with
        | asleep => cases hpoll
        | called => exact absurd rfl hcount
        | counted n => exact absurd trivial hcount
        | begun n => exact ⟨.begunAck n, hagrees, id⟩
        | begunAck n => cases hpoll
        | waiting hs => exact ⟨.waitingAck hs, hagrees, id⟩
        | waitingAck hs => cases hpoll
        | woken => exact ⟨.wokenAck, hagrees, id⟩
        | wokenAck => cases hpoll
        | stopped => cases hpoll
        | reporting => cases hpoll
        | ready => cases hpoll
      refine ⟨⟨h.recorded.placed, h.recorded.object, h.recorded.last, h.recorded.bound⟩, h.nodup,
        fun v hv => ?_, fun v hv => ?_, fun v hv => ?_, h.empty, fun v hv => ?_, ?_, ?_⟩
      · by_cases hvw : v = w
        · subst hvw
          simpa using hnew.1
        · simpa [hvw] using h.phase v hv
      · by_cases hvw : v = w
        · subst hvw
          simpa using hnew.2.1
        · simpa [hvw] using h.agrees v hv
      · have hvw : v ≠ w := fun heq => hv (heq ▸ hw)
        simpa [hvw] using h.outside v hv
      · by_cases hvw : v = w
        · exact ⟨c, by rw [hvw]⟩
        · obtain ⟨c', hc'⟩ := h.acks v (by simpa [hvw] using hv)
          rw [ho] at hc'
          cases hc'
      · refine ⟨⟨fun v => ?_, hquiet.nwakeup⟩, hw, ?_, ?_⟩
        · by_cases hvw : v = w
          · subst hvw
            simpa using hnew.2.2
          · simpa [hvw] using hquiet.counted v
        · cases c <;> exact hc
        · simp [hack]
      · refine h.reported.setThr (w := w) rfl ?_ rfl rfl rfl (by rw [ho]; rfl) (by simp [ho])
        simp [hpoll]
    next hpoll =>
      have hnack : (s.thr w).state ≠ .ack := by
        intro heq
        obtain ⟨c', hc'⟩ := h.acks w heq
        rw [ho] at hc'
        cases hc'
      exact h.change hplain hc fun v hv =>
        Option.some.inj hv ▸ ⟨hw, hphase.still_of_ne hpoll hnack⟩

end

/-! ## The steps of the owner -/

section
variable {wth : Option θ} {ev : ε} {ok : Bool} {w : θ}

omit [DecidableEq θ] [DecidableEq ε] in
theorem placeFor_eq_some (h : s.placeFor = some wth) :
    (s.arrays wth).n < nevent - 1 ∧ ∀ w, wth = some w → w ∈ s.threads := by
  refine ⟨by simpa using List.find?_some h, fun w hw => ?_⟩
  have hmem := List.mem_of_find?_eq_some h
  simpa [hw] using hmem

/-- `evq_add`. -/
theorem Handshake.evqAdd (h : s.Handshake) (ho : s.owner = .free) (hev : s.evWth ev = none)
    (hactive : s.active ev = false) (hw : (s.thr w).pc = .unborn) :
    (s.evqAdd ev ok w).Handshake := by
  have hplain : s.owner.plain := by simp [ho, OwnerAt.plain]
  obtain ⟨hack, hquiet⟩ := (owned_plain hplain).mp h.owned
  rw [Win32Evq.evqAdd]
  split
  next wth hplace =>
    obtain ⟨hn, hin⟩ := placeFor_eq_some hplace
    exact h.win32thrSleep ho ⟨hev, hactive, hn⟩ hin
  next =>
    refine ⟨⟨h.recorded.placed, h.recorded.object, h.recorded.last, h.recorded.bound⟩, h.nodup,
      h.phase, h.agrees, h.outside, h.empty, fun v hv => ?_, ?_, ?_⟩
    · obtain ⟨c, hc⟩ := h.acks v hv
      rw [ho] at hc
      cases hc
    · refine ⟨⟨hquiet.counted, hquiet.nwakeup⟩, hev, hactive, ?_⟩
      simp only [hack, Bool.false_eq_true, if_false]
      exact ⟨fun hin => (h.phase w hin).not_unborn hw, hw⟩
    · exact h.reported.goto rfl rfl rfl rfl (by rw [ho]; rfl) (by simp [ho])

/-- `evq_del`. -/
theorem Handshake.evqDel (h : s.Handshake) (ho : s.owner = .free) (hev : s.evWth ev = some wth)
    (hsafe : s.active ev = true → ∀ w, wth = some w → ¬(s.thr w).pc.InWait) :
    (s.evqDel wth ev).Handshake := by
  have hplain : s.owner.plain := by simp [ho, OwnerAt.plain]
  have hin : ∀ w, wth = some w → w ∈ s.threads := fun w hw => h.mem_threads (hw ▸ hev)
  rw [Win32Evq.evqDel]
  split
  next hactive =>
    refine h.change hplain (c := .del ev) hev fun w hw => ⟨hin w hw, ?_⟩
    exact (h.phase w (hin w hw)).still (((owned_plain hplain).mp h.owned).2.counted w)
      (hsafe hactive w hw)
  next => exact h.win32thrSleep ho (c := .del ev) hev hin

/-- `evq_modify` and `evq_set_timeout`. -/
theorem Handshake.evqTouch (h : s.Handshake) (ho : s.owner = .free)
    (hev : s.evWth ev = some wth) : (s.evqTouch wth ev).Handshake := by
  rw [Win32Evq.evqTouch]
  split
  · exact h
  · exact h.win32thrSleep ho (c := .touch) trivial fun w hw => h.mem_threads (hw ▸ hev)

omit [DecidableEq θ] [DecidableEq ε] in
/-- An answer has come. -/
theorem Handshake.acked (h : s.Handshake) (hack : s.ack = true) {o : OwnerAt θ ε}
    (ho : o.plain) (htodo : o.scanTodo = []) : Handshake { s with ack := false, owner := o } := by
  have hold : s.owner.scanTodo = [] ∧ s.owner ≠ .collecting ∧
      ∀ w c, s.owner = .asleep w c → (s.thr w).state ≠ .ack := by
    have howned := h.owned
    unfold Owned at howned
    cases hso : s.owner <;> simp_all [OwnerAt.scanTodo]
  have hquiet : s.Quiet := by
    have howned := h.owned
    unfold Owned at howned
    cases hso : s.owner <;> simp_all
    exact ⟨fun w hw => absurd (howned.1.pos hw) (Nat.lt_irrefl 0), howned.2⟩
  refine ⟨⟨h.recorded.placed, h.recorded.object, h.recorded.last, h.recorded.bound⟩, h.nodup,
    h.phase, h.agrees, h.outside, h.empty, fun v hv => ?_, ?_, ?_⟩
  · obtain ⟨c, hc⟩ := h.acks v hv
    exact absurd hv (hold.2.2 v c hc)
  · refine (owned_plain ?_).mpr ⟨rfl, hquiet.counted, hquiet.nwakeup⟩
    exact ho
  · exact h.reported.goto rfl rfl rfl rfl (htodo.trans hold.1.symm) fun hc => absurd hc hold.2.1

omit [DecidableEq θ] [DecidableEq ε] in
/-- A place where the owner waits for nothing, with other fields changed on the way. -/
theorem Handshake.of_plain (h : s.Handshake) (hrec : s'.Recorded) (harrays : s'.arrays = s.arrays)
    (hthreads : s'.threads = s.threads) (hthr : s'.thr = s.thr) (hplain : s'.owner.plain)
    (hack : ∀ w, (s.thr w).state ≠ .ack) (hquiet : s'.ack = false ∧ s'.Quiet)
    (hrep : s'.Reported) : s'.Handshake where
  recorded := hrec
  nodup := hthreads ▸ h.nodup
  phase w hw := hthr ▸ h.phase w (hthreads ▸ hw)
  agrees w hw := by
    rw [harrays, hthr]
    exact h.agrees w (hthreads ▸ hw)
  outside w hw := hthr ▸ h.outside w (hthreads ▸ hw)
  empty w hw := harrays ▸ h.empty w (hthreads ▸ hw)
  acks w hw := by
    rw [hthr] at hw
    exact absurd hw (hack w)
  owned := (owned_plain hplain).mpr hquiet
  reported := hrep

omit [DecidableEq θ] [DecidableEq ε] in
theorem Handshake.state_ne_ack (h : s.Handshake) (ho : ∀ w c, s.owner ≠ .asleep w c) (v : θ) :
    (s.thr v).state ≠ .ack := by
  intro hv
  obtain ⟨c, hc⟩ := h.acks v hv
  exact ho v c hc

omit [DecidableEq θ] [DecidableEq ε] in
theorem Handshake.mem_scanTodo (h : s.Handshake) (hw : w ∈ s.owner.scanTodo) :
    w ∈ s.threads ∧ (s.thr w).state = .ready ∧ (s.thr w).pc = .idle :=
  (h.reported.mem_iff w).mp (List.mem_append_left _ hw)

omit [DecidableEq θ] [DecidableEq ε] in
/-- The begin of `win32thr_poll`. -/
theorem Handshake.pollBegin (h : s.Handshake) (ho : s.owner = .free) :
    Handshake { s with nwakeup := 0, owner := .calling s.threads 0 false } := by
  have hplain : s.owner.plain := by simp [ho, OwnerAt.plain]
  obtain ⟨hack, hquiet⟩ := (owned_plain hplain).mp h.owned
  refine ⟨⟨h.recorded.placed, h.recorded.object, h.recorded.last, h.recorded.bound⟩, h.nodup,
    h.phase, h.agrees, h.outside, h.empty, fun v hv => ?_, ?_, ?_⟩
  · exact absurd hv (h.state_ne_ack (by simp [ho]) v)
  · exact ⟨hack, List.suffix_refl _, fun v _ => hquiet.counted v, 0, Census.zero hquiet.counted,
      rfl, by simp⟩
  · exact h.reported.goto rfl rfl rfl rfl (by rw [ho]; rfl) (by simp [ho])

omit [DecidableEq θ] [DecidableEq ε] in
/-- The end of the loop of `win32thr_poll`. -/
theorem Handshake.pollEnd (h : s.Handshake) {todo : List θ} {oldn : ℕ} {polled : Bool}
    (ho : s.owner = .calling todo oldn polled) : (s.pollEnd polled).Handshake := by
  have howned := h.owned
  rw [Owned, ho] at howned
  obtain ⟨hack, -, -, m, hcensus, hn, hpolled⟩ := howned
  have hne := h.state_ne_ack (by simp [ho])
  have hrep : (s.pollEnd polled).Reported := by
    refine h.reported.goto rfl rfl rfl rfl ?_ (by simp [ho])
    rw [ho, Win32Evq.pollEnd]
    cases polled <;> rfl
  rw [Win32Evq.pollEnd] at hrep ⊢
  cases polled with
  | true =>
      refine ⟨⟨h.recorded.placed, h.recorded.object, h.recorded.last, h.recorded.bound⟩, h.nodup,
        h.phase, h.agrees, h.outside, h.empty, fun v hv => absurd hv (hne v), ?_, hrep⟩
      refine ⟨m, hcensus, hn, ?_⟩
      have hpos := hpolled.mp rfl
      simp [hack, Nat.ne_of_gt hpos]
  | false =>
      have hm : m = 0 := Nat.eq_zero_of_not_pos fun hpos => Bool.false_ne_true (hpolled.mpr hpos)
      subst hm
      refine h.of_plain ⟨h.recorded.placed, h.recorded.object, h.recorded.last, h.recorded.bound⟩
        rfl rfl rfl rfl hne ⟨hack, ⟨?_, hn⟩⟩ hrep
      exact fun v hv => absurd (hcensus.pos hv) (Nat.lt_irrefl 0)

omit [DecidableEq ε] in
/-- One round of the loop of `win32thr_poll`. -/
theorem Handshake.pollRound (h : s.Handshake) {todo : List θ} {oldn : ℕ} {polled : Bool}
    (ho : s.owner = .calling (w :: todo) oldn polled) :
    (s.pollRound w todo oldn polled).Handshake := by
  have howned := h.owned
  rw [Owned, ho] at howned
  obtain ⟨hack, ⟨pre, hpre⟩, htodo, m, hcensus, hn, hpolled⟩ := howned
  have hnodup := h.nodup
  rw [← hpre] at hnodup
  have hwtodo : w ∉ todo := (List.nodup_cons.mp (List.nodup_append.mp hnodup).2.1).1
  have hw : w ∈ s.threads := by simp [← hpre]
  have hrest : ∀ v ∈ todo, v ≠ w := fun v hv heq => hwtodo (heq ▸ hv)
  have hne := h.state_ne_ack (by simp [ho])
  have hphase := h.phase w hw
  have hstep : ∀ {s₁ : Win32Evq θ ε}, s₁.thr = s.thr → s₁.threads = s.threads →
      s₁.wthReady = s.wthReady → s₁.headSignal = s.headSignal → s₁.owner.scanTodo = [] →
      s₁.Reported := fun hthr hthreads hready hsignal htodo =>
    h.reported.goto hthr hthreads hready hsignal (by rw [htodo, ho]; rfl) (by simp [ho])
  rw [Win32Evq.pollRound]
  dsimp only
  by_cases hsleep : (s.thr w).state = .sleep
  · have hidle : s.thr w = ⟨.sleep, false, .idle⟩ := by
      generalize s.thr w = t at hphase hsleep
      cases hphase <;> first | rfl | cases hsleep
    rw [if_pos hsleep, hidle]
    by_cases hempty : (s.arrays (some w)).n = 0
    · rw [if_pos hempty]
      split
      · exact h.pollEnd ho
      · -- The thread is told to end, and is in the list no more.
        have herase : s.threads.erase w = pre ++ todo := by
          have hwpre : w ∉ pre := fun hin => (List.nodup_append.mp hnodup).2.2 w hin w (by simp) rfl
          rw [← hpre, List.erase_append_right _ hwpre, List.erase_cons_head]
        have hmem : ∀ v, v ∈ s.threads.erase w ↔ v ≠ w ∧ v ∈ s.threads := fun v =>
          h.nodup.mem_erase_iff
        refine ⟨⟨h.recorded.placed, h.recorded.object, h.recorded.last, h.recorded.bound⟩,
          h.nodup.erase w, fun v hv => ?_, fun v hv => ?_, fun v hv => ?_, fun v hv => ?_,
          fun v hv => ?_, ?_, ?_⟩
        · obtain ⟨hvw, hv⟩ := (hmem v).mp hv
          simpa [hvw] using h.phase v hv
        · obtain ⟨hvw, hv⟩ := (hmem v).mp hv
          simpa [hvw] using h.agrees v hv
        · by_cases hvw : v = w
          · subst hvw
            simpa using Outside.leaving
          · simpa [hvw] using h.outside v fun hin => hv ((hmem v).mpr ⟨hvw, hin⟩)
        · by_cases hvw : v = w
          · subst hvw
            exact hempty
          · exact h.empty v fun hin => hv ((hmem v).mpr ⟨hvw, hin⟩)
        · by_cases hvw : v = w
          · subst hvw
            simp at hv
          · exact absurd (by simpa [hvw] using hv) (hne v)
        · refine ⟨hack, ⟨pre, herase.symm⟩, fun v hv => ?_, m, ?_, hn, hpolled⟩
          · simpa [hrest v hv] using htodo v (List.mem_cons_of_mem w hv)
          · refine hcensus.same ?_
            simp [hidle, Uncounted]
        · have hrep := h.reported
          have hwrep : w ∉ s.owner.scanTodo ++ s.wthReady := by
            rw [hrep.mem_iff, hidle]
            simp
          refine ⟨?_, fun v => ?_, fun hr => (hrep.signalled hr).imp_right fun hc => ?_⟩
          · have hold := hrep.nodup
            rw [ho] at hold
            exact hold
          · have hold := hrep.mem_iff v
            rw [ho] at hold hwrep
            refine hold.trans ?_
            by_cases hvw : v = w
            · subst hvw
              simp [hidle]
            · simp [hmem, hvw]
          · rw [ho] at hc
            cases hc
    · rw [if_neg hempty]
      refine ⟨⟨h.recorded.placed, h.recorded.object, h.recorded.last, h.recorded.bound⟩, h.nodup,
        fun v hv => ?_, fun v hv => ?_, fun v hv => ?_, h.empty, fun v hv => ?_, ?_, ?_⟩
      · by_cases hvw : v = w
        · subst hvw
          simpa using Phase.called
        · simpa [hvw] using h.phase v hv
      · by_cases hvw : v = w
        · subst hvw
          simpa [Agrees] using Nat.pos_of_ne_zero hempty
        · simpa [hvw] using h.agrees v hv
      · have hvw : v ≠ w := fun heq => hv (heq ▸ hw)
        simpa [hvw] using h.outside v hv
      · by_cases hvw : v = w
        · subst hvw
          simp at hv
        · exact absurd (by simpa [hvw] using hv) (hne v)
      · refine ⟨hack, ⟨pre ++ [w], by simpa using hpre⟩, fun v hv => ?_, m + 1, ?_, ?_, by simp⟩
        · simpa [hrest v hv] using htodo v (List.mem_cons_of_mem w hv)
        · refine hcensus.gain rfl ?_
          simp [hidle, Uncounted]
        · simp [hn]
      · refine h.reported.setThr (w := w) rfl ?_ rfl rfl rfl (by rw [ho]; rfl) (by simp [ho])
        simp [hidle]
  · rw [if_neg hsleep]
    refine ⟨⟨h.recorded.placed, h.recorded.object, h.recorded.last, h.recorded.bound⟩, h.nodup,
      h.phase, h.agrees, h.outside, h.empty, fun v hv => absurd hv (hne v), ?_,
      hstep rfl rfl rfl rfl rfl⟩
    exact ⟨hack, ⟨pre ++ [w], by simpa using hpre⟩, fun v hv => htodo v (List.mem_cons_of_mem w hv),
      m, hcensus, hn, hpolled⟩

omit [DecidableEq θ] [DecidableEq ε] in
/-- The owner takes the threads that have reported. -/
theorem Handshake.collect (h : s.Handshake) (ho : s.owner = .collecting) :
    Handshake ({ s with headSignal := false, wthReady := [] }.scanTo s.readyRecords) := by
  have hplain : s.owner.plain := by simp [ho, OwnerAt.plain]
  obtain ⟨hack, hquiet⟩ := (owned_plain hplain).mp h.owned
  have hreduce : s.readyRecords.reduceOption = s.wthReady := by
    unfold readyRecords
    split <;> simp [List.reduceOption]
  have htodo : (if s.readyRecords = [] then OwnerAt.free
      else .scanning s.readyRecords : OwnerAt θ ε).scanTodo = s.wthReady := by
    split
    next hnil =>
      rw [hnil] at hreduce
      exact hreduce
    next => exact hreduce
  have hrep := h.reported
  refine h.of_plain
    ⟨h.recorded.placed, h.recorded.object, h.recorded.last, h.recorded.bound⟩ rfl rfl rfl ?_
    (h.state_ne_ack (by simp [ho])) ⟨hack, hquiet.counted, hquiet.nwakeup⟩
    ⟨?_, fun v => ?_, fun hne => absurd rfl hne⟩
  · rw [scanTo]
    dsimp only
    split <;> rfl
  · rw [scanTo]
    dsimp only
    rw [htodo, List.append_nil]
    exact (List.nodup_append.mp hrep.nodup).2.1
  · have hmem := hrep.mem_iff v
    rw [ho] at hmem
    rw [scanTo]
    dsimp only
    rw [htodo, List.append_nil]
    exact hmem

omit [DecidableEq θ] [DecidableEq ε] in
theorem SameThreads.scanTo {todo : List (Option θ)} (h : s.SameThreads s') :
    (s.scanTo todo).SameThreads (s'.scanTo todo) := by
  rw [SameThreads] at h
  rw [h]
  rfl

omit [DecidableEq θ] [DecidableEq ε] in
theorem scanTo_plain {todo : List (Option θ)} : (s.scanTo todo).owner.plain := by
  rw [Win32Evq.scanTo]
  dsimp only
  split <;> rfl

omit [DecidableEq θ] [DecidableEq ε] in
theorem scanTo_scanTodo {todo : List (Option θ)} :
    (s.scanTo todo).owner.scanTodo = todo.reduceOption := by
  rw [Win32Evq.scanTo]
  dsimp only
  split
  next hnil =>
    rw [hnil]
    rfl
  next => rfl

omit [DecidableEq ε] in
/-- The thread that the owner looks at sleeps from then on. -/
theorem Handshake.setSleep (h : s.Handshake) {todo : List (Option θ)}
    (ho : s.owner = .scanning (wth :: todo)) : ((s.setSleep wth).scanTo todo).Handshake := by
  have hplain : s.owner.plain := by simp [ho, OwnerAt.plain]
  obtain ⟨hack, hquiet⟩ := (owned_plain hplain).mp h.owned
  have hne := h.state_ne_ack (by simp [ho])
  have hrep := h.reported
  cases wth with
  | none =>
      refine h.of_plain
        ⟨h.recorded.placed, h.recorded.object, h.recorded.last, h.recorded.bound⟩ rfl rfl rfl
        scanTo_plain hne ⟨hack, hquiet.counted, hquiet.nwakeup⟩ ?_
      refine hrep.goto rfl rfl rfl rfl ?_ (by simp [ho])
      rw [scanTo_scanTodo, ho]
      rfl
  | some w =>
      have htodo : s.owner.scanTodo = w :: todo.reduceOption := by
        rw [ho]
        rfl
      obtain ⟨hw, hready, hidle⟩ := h.mem_scanTodo (w := w) (by rw [htodo]; simp)
      have hphase := h.phase w hw
      have heq : s.thr w = ⟨.ready, false, .idle⟩ := by
        generalize s.thr w = t at hphase hready hidle
        cases hphase <;> simp_all
      have hnodup := hrep.nodup
      rw [htodo, List.cons_append, List.nodup_cons] at hnodup
      have hthr : ((s.setSleep (some w)).scanTo todo).thr =
          Function.update s.thr w ⟨.sleep, false, .idle⟩ := by
        show Function.update s.thr w _ = _
        rw [heq]
      refine ⟨⟨h.recorded.placed, h.recorded.object, h.recorded.last, h.recorded.bound⟩, h.nodup,
        fun v hv => ?_, fun v hv => ?_, fun v hv => ?_, h.empty, fun v hv => ?_, ?_, ?_⟩
      · rw [hthr]
        by_cases hvw : v = w
        · subst hvw
          simpa using Phase.asleep
        · simpa [hvw] using h.phase v hv
      · rw [hthr]
        by_cases hvw : v = w
        · subst hvw
          simp [Agrees]
        · rw [Function.update_of_ne hvw]
          exact h.agrees v hv
      · have hvw : v ≠ w := fun heq => hv (heq ▸ hw)
        rw [hthr]
        simpa [hvw] using h.outside v hv
      · rw [hthr] at hv
        by_cases hvw : v = w
        · subst hvw
          simp at hv
        · exact absurd (by simpa [hvw] using hv) (hne v)
      · refine (owned_plain scanTo_plain).mpr ⟨hack, fun v => ?_, hquiet.nwakeup⟩
        rw [hthr]
        by_cases hvw : v = w
        · subst hvw
          simp [Uncounted]
        · simpa [hvw] using hquiet.counted v
      · refine ⟨?_, fun v => ?_, fun hr => (hrep.signalled hr).imp_right fun hc => ?_⟩
        · rw [scanTo_scanTodo]
          exact hnodup.2
        · rw [scanTo_scanTodo, hthr]
          have hmem := hrep.mem_iff v
          rw [htodo, List.cons_append, List.mem_cons] at hmem
          by_cases hvw : v = w
          · subst hvw
            rw [Function.update_self]
            exact ⟨fun hin => absurd hin hnodup.1, fun ⟨_, hst, _⟩ => nomatch hst⟩
          · simp only [hvw, false_or] at hmem
            rw [Function.update_of_ne hvw]
            exact hmem
        · rw [ho] at hc
          cases hc

/-- One round of the loop over the records. -/
theorem Handshake.scanNext (h : s.Handshake) {todo : List (Option θ)}
    {signalled res : ε → Bool} {expired : List ε} (ho : s.owner = .scanning (wth :: todo)) :
    (((s.setSleep wth).scanWth wth signalled res expired).scanTo todo).Handshake := by
  have hsleep := h.setSleep ho
  have hrec : (s.setSleep wth).Recorded := by
    have hr := hsleep.recorded
    exact ⟨hr.placed, hr.object, hr.last, hr.bound⟩
  have hscan : ((s.setSleep wth).scanWth wth signalled res expired).Recorded := hrec.scanWth
  refine hsleep.sameThreads scanTo_plain (sameThreads_scanWth.scanTo)
    ⟨hscan.placed, hscan.object, hscan.last, hscan.bound⟩ fun v => ?_
  by_cases hv : wth = some v
  · subst hv
    have hin : v ∈ s.threads := (h.mem_scanTodo (w := v) (by rw [ho]; exact List.mem_cons_self)).1
    refine .inr ⟨hin, ?_⟩
    have hphase := hsleep.phase v hin
    refine hphase.still_of_ne ?_ ?_ <;> simp [Win32Evq.setSleep, Win32Evq.scanTo]
  · exact .inl (scanWth_arrays_of_ne hrec fun heq => hv heq.symm)

end

/-- An active event is deleted only if its thread is not in its wait. -/
def Safe (s : Win32Evq θ ε) : Win32Op θ ε → Prop
  | .del ev => s.active ev = true → ∀ w, s.evWth ev = some (some w) → ¬(s.thr w).pc.InWait
  | _ => True

/-- The owner keeps the invariant. -/
theorem handshake_ownerStep {op : Win32Op θ ε} (h : s.Handshake) (hsafe : s.Safe op)
    (hstep : s.ownerStep s.owner op = some s') : s'.Handshake := by
  unfold ownerStep at hstep
  split at hstep
  next ev ok w ho =>
    obtain ⟨⟨hev, hactive, hw⟩, hs'⟩ := Option.ite_none_right_eq_some.mp hstep
    exact Option.some.inj hs' ▸ h.evqAdd ho hev hactive hw
  next ev ho =>
    obtain ⟨wth, hev, rfl⟩ := Option.map_eq_some_iff.mp hstep
    exact h.evqDel ho hev fun hactive w hw => hsafe hactive w (hw ▸ hev)
  next ev ho =>
    obtain ⟨wth, hev, rfl⟩ := Option.map_eq_some_iff.mp hstep
    exact h.evqTouch ho hev
  next ho =>
    obtain ⟨ev, -, rfl⟩ := Option.map_eq_some_iff.mp hstep
    have hr := h.recorded
    exact h.sameThreads (by simp [ho, OwnerAt.plain]) rfl
      ⟨hr.placed, hr.object, hr.last, hr.bound⟩ fun w => .inl rfl
  next ho =>
    have hplain : s.owner.plain := by simp [ho, OwnerAt.plain]
    split at hstep
    · obtain rfl := Option.some.inj hstep
      refine h.goto hplain (o := .polled) rfl (by rw [ho]; rfl) fun hne => .inl ?_
      exact (h.reported.signalled hne).resolve_right (by simp [ho])
    · exact Option.some.inj hstep ▸ h.pollBegin ho
  next oldn polled ho => exact Option.some.inj hstep ▸ h.pollEnd ho
  next w todo oldn polled ho => exact Option.some.inj hstep ▸ h.pollRound ho
  next ho =>
    obtain rfl := Option.some.inj hstep
    refine h.goto (by simp [ho, OwnerAt.plain]) (o := .free) rfl (by rw [ho]; rfl)
      fun hne => .inl ?_
    exact (h.reported.signalled hne).resolve_right (by simp [ho])
  next expired ho =>
    obtain ⟨-, hs'⟩ := Option.ite_none_right_eq_some.mp hstep
    obtain rfl := Option.some.inj hs'
    have hfree : Handshake { s with owner := .free } :=
      h.goto (by simp [ho, OwnerAt.plain]) rfl (by rw [ho]; rfl)
        fun hne => .inl ((h.reported.signalled hne).resolve_right (by simp [ho]))
    have hr := h.recorded
    exact hfree.sameThreads rfl rfl ⟨hr.placed, hr.object, hr.last, hr.bound⟩ fun w => .inl rfl
  next ho =>
    obtain rfl := Option.some.inj hstep
    refine h.goto (by simp [ho, OwnerAt.plain]) (o := .waiting) rfl (by rw [ho]; rfl)
      fun hne => .inl ?_
    exact (h.reported.signalled hne).resolve_right (by simp [ho])
  next i ho =>
    have hplain : s.owner.plain := by simp [ho, OwnerAt.plain]
    dsimp only at hstep
    split at hstep
    · obtain rfl := Option.some.inj hstep
      exact h.goto hplain (o := .collecting) rfl (by rw [ho]; rfl) fun _ => .inr rfl
    · obtain ⟨-, hs'⟩ := Option.ite_none_right_eq_some.mp hstep
      obtain rfl := Option.some.inj hs'
      exact h.goto hplain (o := .collecting) rfl (by rw [ho]; rfl) fun _ => .inr rfl
  next ho =>
    obtain rfl := Option.some.inj hstep
    exact h.goto (by simp [ho, OwnerAt.plain]) (o := .collecting) rfl (by rw [ho]; rfl)
      fun _ => .inr rfl
  next ho =>
    obtain rfl := Option.some.inj hstep
    refine h.goto (by simp [ho, OwnerAt.plain]) (o := .free) rfl (by rw [ho]; rfl)
      fun hne => .inl ?_
    exact (h.reported.signalled hne).resolve_right (by simp [ho])
  next ho => exact Option.some.inj hstep ▸ h.collect ho
  next wth todo signalled res expired ho =>
    obtain ⟨-, hs'⟩ := Option.ite_none_right_eq_some.mp hstep
    exact Option.some.inj hs' ▸ h.scanNext ho
  next =>
    obtain ⟨hack, hs'⟩ := Option.ite_none_right_eq_some.mp hstep
    have howned := h.owned
    rw [Owned] at howned
    split at hs'
    next w c ho =>
      rw [ho] at howned
      obtain ⟨-, hw, hc, hstate⟩ := howned
      rw [if_pos hack] at hstate
      obtain rfl := Option.some.inj hs'
      refine (h.acked hack (o := .free) rfl rfl).change rfl (by cases c <;> exact hc) fun v hv => ?_
      obtain rfl := Option.some.inj hv
      exact ⟨hw, (h.phase w hw).still_of_ne hstate.1 hstate.2⟩
    next w ev ok ho =>
      rw [ho] at howned
      obtain ⟨-, hev, hactive, hborn⟩ := howned
      rw [if_pos hack] at hborn
      obtain ⟨hw, hn, hstate⟩ := hborn
      obtain rfl := Option.some.inj hs'
      have hc : Allowed { s with ack := false, owner := .free } (some w) (.add ev ok) :=
        ⟨hev, hactive, by rw [hn]; decide⟩
      refine (h.acked hack (o := .free) rfl rfl).change rfl hc fun v hv => ?_
      obtain rfl := Option.some.inj hv
      exact ⟨hw, (h.phase w hw).still_of_ne (by simp [hstate]) (by simp [hstate])⟩
    next => exact Option.some.inj hs' ▸ h.acked hack (o := .polled) rfl rfl
    next => cases hs'
  next => cases hstep

/-! ## The steps of the threads -/

section
variable {w : θ} {t : Win32Thr ε} {op : Win32Op θ ε}

omit [DecidableEq ε] in
/-- A thread of the list goes on. -/
theorem Handshake.setThr (h : s.Handshake) (hw : w ∈ s.threads) (hphase : Phase t)
    (hagrees : Agrees (s.arrays (some w)) t) (hack : t.state = .ack → (s.thr w).state = .ack)
    {idx : Option θ → ℕ} {nwakeup : ℤ} {ack headSignal : Bool} {wthReady : List θ}
    (s₁ : Win32Evq θ ε)
    (hs₁ : s₁ = { s.setThr w t with
      idx := idx, nwakeup := nwakeup, ack := ack, headSignal := headSignal, wthReady := wthReady })
    (howned : s₁.Owned) (hreported : s₁.Reported) : s₁.Handshake := by
  subst hs₁
  refine ⟨⟨h.recorded.placed, h.recorded.object, h.recorded.last, h.recorded.bound⟩, h.nodup,
    fun v hv => ?_, fun v hv => ?_, fun v hv => ?_, h.empty, fun v hv => ?_, howned, hreported⟩
  · show Phase (Function.update s.thr w t v)
    by_cases hvw : v = w
    · subst hvw
      rwa [Function.update_self]
    · rw [Function.update_of_ne hvw]
      exact h.phase v hv
  · show Agrees (s.arrays (some v)) (Function.update s.thr w t v)
    by_cases hvw : v = w
    · subst hvw
      rwa [Function.update_self]
    · rw [Function.update_of_ne hvw]
      exact h.agrees v hv
  · have hvw : v ≠ w := fun heq => hv (heq ▸ hw)
    show Outside (Function.update s.thr w t v)
    rw [Function.update_of_ne hvw]
    exact h.outside v hv
  · change (Function.update s.thr w t v).state = .ack at hv
    by_cases hvw : v = w
    · subst hvw
      rw [Function.update_self] at hv
      exact h.acks v (hack hv)
    · rw [Function.update_of_ne hvw] at hv
      exact h.acks v hv

omit [DecidableEq ε] in
/-- A thread goes on without an answer.  Its state changes only if it has been called. -/
theorem Owned.setThr (h : s.Owned) (hpc : (s.thr w).pc ≠ .unborn)
    (hstate : t.state = (s.thr w).state ∨ (s.thr w).state = .poll)
    (hcount : Uncounted t ↔ Uncounted (s.thr w)) {idx : Option θ → ℕ} {headSignal : Bool}
    {wthReady : List θ} :
    Owned { s.setThr w t with idx := idx, headSignal := headSignal, wthReady := wthReady } := by
  have hst : ∀ v, (s.thr v).state ≠ .poll →
      (Function.update s.thr w t v).state = (s.thr v).state := by
    intro v hv
    by_cases hvw : v = w
    · subst hvw
      rw [Function.update_self]
      exact hstate.resolve_right hv
    · rw [Function.update_of_ne hvw]
  have hun : ∀ v, Uncounted (Function.update s.thr w t v) ↔ Uncounted (s.thr v) := by
    intro v
    by_cases hvw : v = w
    · subst hvw
      rw [Function.update_self, hcount]
    · rw [Function.update_of_ne hvw]
  have hquiet : ∀ {s₁ : Win32Evq θ ε}, s.Quiet → s₁.thr = Function.update s.thr w t →
      s₁.nwakeup = s.nwakeup → s₁.Quiet := fun hq hthr hn =>
    ⟨fun v hv => hq.counted v ((hun v).mp (hthr ▸ hv)), hn.trans hq.nwakeup⟩
  unfold Owned at h ⊢
  cases ho : s.owner with
  | asleep v c =>
      simp only [ho, Win32Evq.setThr] at h ⊢
      obtain ⟨hq, hv, hc, hstv⟩ := h
      refine ⟨hquiet hq rfl rfl, hv, by cases c <;> exact hc, ?_⟩
      have hpoll : (s.thr v).state ≠ .poll := by
        split at hstv
        · exact hstv.1
        · simp [hstv]
      rw [hst v hpoll]
      exact hstv
  | starting v ev ok =>
      simp only [ho, Win32Evq.setThr] at h ⊢
      obtain ⟨hq, hev, hactive, hborn⟩ := h
      refine ⟨hquiet hq rfl rfl, hev, hactive, ?_⟩
      split
      next hack =>
        rw [if_pos hack] at hborn
        rw [hst v (by simp [hborn.2.2])]
        exact hborn
      next hack =>
        rw [if_neg hack] at hborn
        have hvw : v ≠ w := fun heq => hpc (heq ▸ hborn.2)
        rw [Function.update_of_ne hvw]
        exact hborn
  | calling todo oldn polled =>
      simp only [ho, Win32Evq.setThr] at h ⊢
      obtain ⟨hack, htodo, hnot, m, hcensus, hm⟩ := h
      exact ⟨hack, htodo, fun v hv hu => hnot v hv ((hun v).mp hu), m, hcensus.same hcount, hm⟩
  | counting =>
      simp only [ho, Win32Evq.setThr] at h ⊢
      obtain ⟨m, hcensus, hm⟩ := h
      exact ⟨m, hcensus.same hcount, hm⟩
  | free => simp only [ho, Win32Evq.setThr] at h ⊢; exact ⟨h.1, hquiet h.2 rfl rfl⟩
  | polled => simp only [ho, Win32Evq.setThr] at h ⊢; exact ⟨h.1, hquiet h.2 rfl rfl⟩
  | waiting => simp only [ho, Win32Evq.setThr] at h ⊢; exact ⟨h.1, hquiet h.2 rfl rfl⟩
  | collecting => simp only [ho, Win32Evq.setThr] at h ⊢; exact ⟨h.1, hquiet h.2 rfl rfl⟩
  | scanning todo => simp only [ho, Win32Evq.setThr] at h ⊢; exact ⟨h.1, hquiet h.2 rfl rfl⟩

omit [DecidableEq ε] in
/-- A thread of the list goes on at its own record. -/
theorem Handshake.move (h : s.Handshake) (hw : w ∈ s.threads) (hphase : Phase t)
    (hagrees : Agrees (s.arrays (some w)) t) (hstate : t.state = (s.thr w).state)
    (hcount : Uncounted t ↔ Uncounted (s.thr w))
    (hidle : t.state = .ready ∧ t.pc = .idle ↔ (s.thr w).state = .ready ∧ (s.thr w).pc = .idle)
    (idx : Option θ → ℕ) : ({ s with idx := idx }.setThr w t).Handshake := by
  refine h.setThr hw hphase hagrees (fun heq => hstate ▸ heq) _ rfl
    (h.owned.setThr (h.phase w hw).not_unborn (.inl hstate) hcount) ?_
  exact h.reported.setThr rfl hidle rfl rfl rfl rfl id

omit [DecidableEq θ] [DecidableEq ε] in
/-- The handles that a thread waits for: the events of its record, and its signal last. -/
theorem Recorded.waitList_getElem? (h : s.Recorded) {i : ℕ} {hd : WaitHandle ε}
    (hi : ((s.arrays (some w)).waitList (s.arrays (some w)).n)[i]? = some hd) :
    i ≤ (s.arrays (some w)).n ∧ (hd = .signal ↔ i = (s.arrays (some w)).n) := by
  rw [WthArrays.waitList, List.getElem?_map, Option.map_eq_some_iff] at hi
  obtain ⟨j, hj, rfl⟩ := hi
  obtain ⟨hlt, hij⟩ := List.getElem?_eq_some_iff.mp hj
  rw [List.getElem_range] at hij
  subst hij
  rw [List.length_range] at hlt
  refine ⟨Nat.le_of_lt_succ hlt, fun hsignal => ?_, fun heq => heq ▸ h.last (some w)⟩
  by_contra hne
  obtain ⟨e, he, -, hindex⟩ := (h.placed (some w)).mem_slot i (Nat.zero_le i) (by omega)
  rw [← hindex, h.object (some w) e he] at hsignal
  cases hsignal

omit [DecidableEq ε] in
/-- `win32thr_wait` up to its first wait. -/
theorem Handshake.birth (h : s.Handshake) {ev : ε} {ok : Bool} (ho : s.owner = .starting w ev ok)
    (hpc : (s.thr w).pc = .unborn) : (s.birth w).Handshake := by
  have hw : w ∉ s.threads := fun hin => (h.phase w hin).not_unborn hpc
  have hn := h.empty w hw
  have howned := h.owned
  rw [Owned, ho] at howned
  obtain ⟨hquiet, hev, hactive, hborn⟩ := howned
  have hne := h.state_ne_ack (by simp [ho])
  have hmem : ∀ {v}, v ∈ w :: s.threads → v = w ∨ v ≠ w ∧ v ∈ s.threads := by
    intro v hv
    rcases List.mem_cons.mp hv with rfl | hv
    · exact .inl rfl
    · exact .inr ⟨fun heq => hw (heq ▸ hv), hv⟩
  refine ⟨h.recorded.birth hn, List.nodup_cons.mpr ⟨hw, h.nodup⟩, fun v hv => ?_, fun v hv => ?_,
    fun v hv => ?_, fun v hv => ?_, fun v hv => ?_, ?_, ?_⟩
  · rcases hmem hv with rfl | ⟨hvw, hv⟩
    · simpa [Win32Evq.birth] using Phase.asleep
    · simpa [Win32Evq.birth, hvw] using h.phase v hv
  · rcases hmem hv with rfl | ⟨hvw, hv⟩
    · simp [Win32Evq.birth, Agrees]
    · simpa [Win32Evq.birth, hvw] using h.agrees v hv
  · obtain ⟨hvw, hv⟩ := List.mem_cons.not.mp hv |> not_or.mp
    simpa [Win32Evq.birth, hvw] using h.outside v hv
  · obtain ⟨hvw, hv⟩ := List.mem_cons.not.mp hv |> not_or.mp
    simpa [Win32Evq.birth, hvw] using h.empty v hv
  · by_cases hvw : v = w
    · subst hvw
      simp [Win32Evq.birth] at hv
    · exact absurd (by simpa [Win32Evq.birth, hvw] using hv) (hne v)
  · rw [Owned]
    simp only [Win32Evq.birth, ho]
    refine ⟨⟨fun v => ?_, hquiet.nwakeup⟩, hev, hactive, ?_⟩
    · by_cases hvw : v = w
      · subst hvw
        simp [Uncounted]
      · simpa [hvw] using hquiet.counted v
    · simp [WthArrays.empty]
  · have hrep := h.reported
    refine ⟨hrep.nodup, fun v => (hrep.mem_iff v).trans ?_, hrep.signalled⟩
    by_cases hvw : v = w
    · subst hvw
      simp [Win32Evq.birth, hw]
    · simp [Win32Evq.birth, hvw]

omit [DecidableEq ε] in
/-- A thread that has been called, or told to end, goes on. -/
theorem Handshake.thrCalled (h : s.Handshake) (hpc : (s.thr w).pc = .idle)
    (hsignal : (s.thr w).signal = true) :
    (s.setThr w { s.thr w with
      signal := false
      pc := if (s.arrays (some w)).n = 0 then .gone
        else .counted (s.arrays (some w)).n }).Handshake := by
  by_cases hw : w ∈ s.threads
  · have hphase := h.phase w hw
    have hagrees := h.agrees w hw
    have heq : s.thr w = ⟨.poll, true, .idle⟩ := by
      generalize s.thr w = t at hphase hpc hsignal
      cases hphase <;> simp_all
    rw [heq] at hagrees
    have hpos : 0 < (s.arrays (some w)).n := hagrees rfl
    rw [if_neg (Nat.ne_of_gt hpos), heq]
    refine h.move hw (.counted _) ⟨rfl, hpos⟩ (by rw [heq]) ?_ ?_ s.idx
    · simp [heq, Uncounted]
    · simp [heq]
  · -- The thread ends.
    have hout := h.outside w hw
    have heq : s.thr w = ⟨.sleep, true, .idle⟩ := by
      generalize s.thr w = t at hout hpc hsignal
      cases hout <;> simp_all
    rw [if_pos (h.empty w hw), heq]
    have hmem : ∀ {v}, v ∈ s.threads → v ≠ w := fun hv hvw => hw (hvw ▸ hv)
    refine ⟨⟨h.recorded.placed, h.recorded.object, h.recorded.last, h.recorded.bound⟩, h.nodup,
      fun v hv => ?_, fun v hv => ?_, fun v hv => ?_, h.empty, fun v hv => ?_, ?_, ?_⟩
    · simpa [Win32Evq.setThr, hmem hv] using h.phase v hv
    · simpa [Win32Evq.setThr, hmem hv] using h.agrees v hv
    · by_cases hvw : v = w
      · subst hvw
        simpa [Win32Evq.setThr] using Outside.gone
      · simpa [Win32Evq.setThr, hvw] using h.outside v hv
    · by_cases hvw : v = w
      · subst hvw
        simp [Win32Evq.setThr] at hv
      · exact h.acks v (by simpa [Win32Evq.setThr, hvw] using hv)
    · refine h.owned.setThr (by simp [heq]) (.inl (by rw [heq])) ?_
      simp [heq, Uncounted]
    · refine h.reported.setThr rfl ?_ rfl rfl rfl rfl id
      simp [heq]

omit [DecidableEq ε] in
/-- A thread decrements `nwakeup`. -/
theorem Handshake.thrCount (h : s.Handshake) {n : ℕ} (hpc : (s.thr w).pc = .counted n)
    (hlock : s.unlocked = true) :
    (s.countDown.setThr w { s.thr w with pc := .begun n }).Handshake := by
  have hw : w ∈ s.threads := by
    by_contra hw
    have hout := h.outside w hw
    generalize s.thr w = t at hout hpc
    cases hout <;> cases hpc
  have hphase := h.phase w hw
  have hagrees := h.agrees w hw
  have heq : s.thr w = ⟨.poll, false, .counted n⟩ := by
    generalize s.thr w = t at hphase hpc
    cases hphase <;> simp_all
  have hun : Uncounted (s.thr w) := by
    rw [heq]
    trivial
  rw [heq] at hagrees ⊢
  -- Only the poller may wait for a thread that has not been counted.
  obtain ⟨ho, m, hcensus, hm, hack⟩ : s.owner = .counting ∧
      ∃ m : ℕ, Census s.thr Uncounted m ∧ s.nwakeup = m ∧ (s.ack = true ↔ m = 0) := by
    have howned := h.owned
    unfold Owned at howned
    unfold unlocked at hlock
    cases ho : s.owner <;> simp only [ho] at howned hlock
    case counting => exact ⟨rfl, howned⟩
    case calling => cases hlock
    case asleep => exact absurd hun (howned.1.counted w)
    case starting => exact absurd hun (howned.1.counted w)
    all_goals exact absurd hun (howned.2.counted w)
  have hpos : 0 < m := hcensus.pos hun
  refine h.setThr hw (.begun n) hagrees.1 (fun hst => nomatch hst) _ rfl ?_ ?_
  · show Owned _
    unfold Owned
    simp only [Win32Evq.setThr, countDown, ho]
    refine ⟨m - 1, hcensus.lose id hun, by omega, ?_⟩
    have hfalse : s.ack = false := Bool.eq_false_iff.mpr fun htrue => by
      have := hack.mp htrue
      omega
    rw [hfalse, Bool.false_or, decide_eq_true_iff]
    omega
  · refine h.reported.setThr rfl ?_ rfl rfl rfl rfl id
    simp [heq]

omit [DecidableEq ε] in
theorem Handshake.mem_of_pc (h : s.Handshake) (hidle : (s.thr w).pc ≠ .idle)
    (hunborn : (s.thr w).pc ≠ .unborn) (hgone : (s.thr w).pc ≠ .gone) : w ∈ s.threads := by
  by_contra hw
  have hout := h.outside w hw
  generalize s.thr w = t at hout hidle hunborn hgone
  cases hout <;> contradiction

omit [DecidableEq ε] in
/-- A thread begins its wait. -/
theorem Handshake.thrWait (h : s.Handshake) {n : ℕ} (hpc : (s.thr w).pc = .begun n) :
    (s.setThr w { s.thr w with
      pc := .waiting ((s.arrays (some w)).waitList n) }).Handshake := by
  have hw : w ∈ s.threads := h.mem_of_pc (by simp [hpc]) (by simp [hpc]) (by simp [hpc])
  have hphase := h.phase w hw
  have hagrees := h.agrees w hw
  unfold Agrees at hagrees
  rw [hpc] at hagrees
  dsimp only at hagrees
  refine h.move (t := { s.thr w with pc := .waiting ((s.arrays (some w)).waitList n) }) hw ?_
    (by rw [hagrees]; rfl) rfl ?_ ?_ s.idx
  · generalize s.thr w = t at hphase hpc
    cases hphase <;> simp only [reduceCtorEq, ThrAt.begun.injEq] at hpc
    · exact .waiting _
    · exact .waitingAck _
  · simp [Uncounted, hpc]
  · simp [hpc]

omit [DecidableEq ε] in
/-- A thread behind its wait for an event or a timeout. -/
theorem Handshake.woken (h : s.Handshake) {hs : List (WaitHandle ε)} {idx : Option θ → ℕ}
    (hpc : (s.thr w).pc = .waiting hs) :
    ({ s with idx := idx }.setThr w { s.thr w with pc := .woken true }).Handshake := by
  have hw : w ∈ s.threads := h.mem_of_pc (by simp [hpc]) (by simp [hpc]) (by simp [hpc])
  have hphase := h.phase w hw
  refine h.move (t := { s.thr w with pc := .woken true }) hw ?_ trivial rfl ?_ ?_ idx
  · generalize s.thr w = t at hphase hpc
    cases hphase <;> simp only [reduceCtorEq] at hpc
    · exact .woken
    · exact .wokenAck
  · simp [Uncounted, hpc]
  · simp [hpc]

omit [DecidableEq ε] in
/-- A thread behind its wait for its signal. -/
theorem Handshake.stopped (h : s.Handshake) {hs : List (WaitHandle ε)} {idx : Option θ → ℕ}
    (hpc : (s.thr w).pc = .waiting hs) (hsignal : (s.thr w).signal = true) :
    ({ s with idx := idx }.setThr w
      { s.thr w with signal := false, pc := .woken false }).Handshake := by
  have hw : w ∈ s.threads := h.mem_of_pc (by simp [hpc]) (by simp [hpc]) (by simp [hpc])
  have hphase := h.phase w hw
  refine h.move (t := { s.thr w with signal := false, pc := .woken false }) hw ?_ trivial rfl
    ?_ ?_ idx
  · generalize s.thr w = t at hphase hpc hsignal
    cases hphase <;> simp only [reduceCtorEq, Bool.false_eq_true] at hpc hsignal
    exact .stopped
  · simp [Uncounted, hpc]
  · simp [hpc]

/-- What the thread waited for has come: an event of the record, or the signal. -/
theorem Handshake.thrReturn (h : s.Handshake) {hs : List (WaitHandle ε)} {i : ℕ}
    {hd : WaitHandle ε} (hpc : (s.thr w).pc = .waiting hs) (hi : hs[i]? = some hd) :
    decide (i + 1 < hs.length) = decide (hd ≠ .signal) := by
  have hw : w ∈ s.threads := h.mem_of_pc (by simp [hpc]) (by simp [hpc]) (by simp [hpc])
  have hagrees := h.agrees w hw
  unfold Agrees at hagrees
  rw [hpc] at hagrees
  dsimp only at hagrees
  rw [hagrees] at hi
  obtain ⟨hle, hiff⟩ := h.recorded.waitList_getElem? hi
  have hlen : hs.length = (s.arrays (some w)).n + 1 := by
    rw [hagrees, WthArrays.waitList]
    simp
  rw [decide_eq_decide, hlen, Ne, hiff]
  omega

omit [DecidableEq ε] in
/-- The section behind the wait. -/
theorem Handshake.thrSettle (h : s.Handshake) {res : Bool} (hpc : (s.thr w).pc = .woken res) :
    ({ s with ack := s.ack || decide ((s.thr w).state = WthrState.ack) }.setThr w
      { state := if res then .ready else .sleep
        signal := !decide ((s.thr w).state = WthrState.ack) && (s.thr w).signal
        pc := if res then .reporting else .idle }).Handshake := by
  have hw : w ∈ s.threads := h.mem_of_pc (by simp [hpc]) (by simp [hpc]) (by simp [hpc])
  have hphase := h.phase w hw
  have hrep : ∀ {t : Win32Thr ε} {a : Bool}, ¬(t.state = .ready ∧ t.pc = .idle) →
      ({ s with ack := a }.setThr w t).Reported := fun ht =>
    h.reported.setThr rfl (by simp [hpc, ht]) rfl rfl rfl rfl id
  -- A thread that has been asked gives its answer, and the owner waits for it.
  have hanswer : ∀ {t : Win32Thr ε}, (s.thr w).state = .ack → t.state ≠ .poll → t.state ≠ .ack →
      ¬Uncounted t → ({ s with ack := true }.setThr w t).Owned := by
    intro t hack hpoll hnack hcount
    obtain ⟨c, ho⟩ := h.acks w hack
    have howned := h.owned
    rw [Owned, ho] at howned
    obtain ⟨hquiet, -, hc, -⟩ := howned
    rw [Owned]
    simp only [Win32Evq.setThr, ho]
    refine ⟨⟨fun v => ?_, hquiet.nwakeup⟩, hw, by cases c <;> exact hc, ?_⟩
    · by_cases hvw : v = w
      · subst hvw
        simpa using hcount
      · simpa [hvw] using hquiet.counted v
    · simp [hpoll, hnack]
  generalize ht : s.thr w = t at hphase hpc
  cases hphase <;> simp only [reduceCtorEq, ThrAt.woken.injEq] at hpc
  · -- The state was `poll`.
    subst hpc
    simp only [reduceCtorEq, decide_false, Bool.or_false, if_true, Bool.not_false, Bool.and_false]
    refine h.setThr hw .reporting trivial (fun hst => nomatch hst) _ rfl ?_ ?_
    · exact h.owned.setThr (by simp [ht]) (.inr (by rw [ht])) (by simp [Uncounted, ht])
    · exact hrep (by simp)
  · subst hpc
    simp only [decide_true, Bool.or_true, if_true, Bool.not_true, Bool.false_and]
    refine h.setThr hw .reporting trivial (fun hst => nomatch hst) _ rfl ?_ ?_
    · exact hanswer (by rw [ht]) (by simp) (by simp) (by simp [Uncounted])
    · exact hrep (by simp)
  · subst hpc
    simp only [decide_true, Bool.or_true, Bool.false_eq_true, if_false, Bool.not_true,
      Bool.false_and]
    refine h.setThr hw .asleep (fun hst => nomatch hst) (fun hst => nomatch hst) _ rfl ?_ ?_
    · exact hanswer (by rw [ht]) (by simp) (by simp) (by simp [Uncounted])
    · exact hrep (by simp)

omit [DecidableEq ε] in
/-- The section that puts the thread on `wthReady`. -/
theorem Handshake.thrReport (h : s.Handshake) (hpc : (s.thr w).pc = .reporting) :
    ({ s with wthReady := w :: s.wthReady, headSignal := true }.setThr w
      { s.thr w with pc := .idle }).Handshake := by
  have hw : w ∈ s.threads := h.mem_of_pc (by simp [hpc]) (by simp [hpc]) (by simp [hpc])
  have hphase := h.phase w hw
  have heq : s.thr w = ⟨.ready, false, .reporting⟩ := by
    generalize s.thr w = t at hphase hpc
    cases hphase <;> simp_all
  rw [heq]
  refine h.setThr hw .ready (fun hst => nomatch hst) (fun hst => nomatch hst) _ rfl ?_ ?_
  · exact h.owned.setThr (by simp [hpc]) (.inl (by rw [heq])) (by simp [Uncounted, heq])
  · have hrep := h.reported
    have hnot : w ∉ s.owner.scanTodo ++ s.wthReady := by
      rw [hrep.mem_iff, heq]
      simp
    refine ⟨List.nodup_middle.mpr (List.nodup_cons.mpr ⟨hnot, hrep.nodup⟩), fun v => ?_,
      fun _ => .inl rfl⟩
    have hmem := hrep.mem_iff v
    simp only [Win32Evq.setThr, List.mem_append, List.mem_cons] at hmem ⊢
    by_cases hvw : v = w
    · subst hvw
      simp [hw]
    · simpa [hvw] using hmem

end

/-- The threads keep the invariant. -/
theorem handshake_thrStep {w : θ} {op : Win32Op θ ε} (h : s.Handshake)
    (hstep : s.thrStep w (s.thr w).pc op = some s') : s'.Handshake := by
  unfold thrStep at hstep
  split at hstep
  next hpc =>
    split at hstep
    next ho =>
      obtain ⟨rfl, hs'⟩ := Option.ite_none_right_eq_some.mp hstep
      exact Option.some.inj hs' ▸ h.birth ho hpc
    next => cases hstep
  next hpc =>
    obtain ⟨hsignal, hs'⟩ := Option.ite_none_right_eq_some.mp hstep
    exact Option.some.inj hs' ▸ h.thrCalled hpc hsignal
  next hpc =>
    obtain ⟨hlock, hs'⟩ := Option.ite_none_right_eq_some.mp hstep
    exact Option.some.inj hs' ▸ h.thrCount hpc hlock
  next hpc => exact Option.some.inj hstep ▸ h.thrWait hpc
  next hs i hpc =>
    dsimp only at hstep
    split at hstep
    next hi =>
      rw [h.thrReturn hpc hi] at hstep
      exact Option.some.inj hstep ▸ h.woken hpc
    next hi =>
      rw [h.thrReturn hpc hi] at hstep
      obtain ⟨hsignal, hs'⟩ := Option.ite_none_right_eq_some.mp hstep
      exact Option.some.inj hs' ▸ h.stopped hpc hsignal
    next => cases hstep
  next hpc => exact Option.some.inj hstep ▸ h.woken hpc
  next hpc => exact Option.some.inj hstep ▸ h.thrSettle hpc
  next hpc =>
    obtain ⟨-, hs'⟩ := Option.ite_none_right_eq_some.mp hstep
    exact Option.some.inj hs' ▸ h.thrReport hpc
  next => cases hstep

omit [DecidableEq θ] [DecidableEq ε] in
/-- The queue is woken by another thread. -/
theorem Handshake.interrupt (h : s.Handshake) : Handshake { s with headSignal := true } := by
  have hr := h.recorded
  refine ⟨⟨hr.placed, hr.object, hr.last, hr.bound⟩, h.nodup, h.phase, h.agrees, h.outside,
    h.empty, h.acks, ?_, ⟨h.reported.nodup, h.reported.mem_iff, fun _ => .inl rfl⟩⟩
  have howned := h.owned
  unfold Owned at howned ⊢
  dsimp only
  cases ho : s.owner <;> simp only [ho] at howned
  case asleep w c =>
    obtain ⟨hquiet, hw, hc, hstate⟩ := howned
    exact ⟨hquiet.congr rfl rfl, hw, by cases c <;> exact hc, hstate⟩
  case starting => exact ⟨howned.1.congr rfl rfl, howned.2⟩
  case calling => exact howned
  case counting => exact howned
  all_goals exact ⟨howned.1, howned.2.congr rfl rfl⟩

/-- **The invariant is kept by every safe step.** -/
theorem handshake_step {op : Win32Op θ ε} (h : s.Handshake) (hsafe : s.Safe op)
    (hstep : s.step op = some s') : s'.Handshake := by
  unfold step at hstep
  split at hstep
  next =>
    exact Option.some.inj hstep ▸ h.interrupt
  all_goals first | exact handshake_thrStep h hstep | exact handshake_ownerStep h hsafe hstep

/-! ## Runs -/

theorem step_del {ev : ε} (hstep : s.step (.del ev) = some s') :
    ∃ wth, s.evWth ev = some wth ∧ s.evqDel wth ev = s' := by
  change s.ownerStep s.owner (.del ev) = some s' at hstep
  cases ho : s.owner <;> simp only [ho, ownerStep, reduceCtorEq] at hstep
  exact Option.map_eq_some_iff.mp hstep

/-- A thread whose record loses an event under its wait does not wait for its record. -/
theorem del_breaks {ev : ε} (h : s.Handshake) (hstep : s.step (.del ev) = some s')
    (hwaits : s'.WaitsOnRecord) : s.Safe (.del ev) := by
  intro hactive w hev hwait
  obtain ⟨wth, hwth, rfl⟩ := step_del hstep
  obtain rfl : some w = wth := Option.some.inj (hev.symm.trans hwth)
  have hpos := h.recorded.pos hev
  have hbefore := h.waitsOnRecord w
  have hafter := hwaits w
  have hn : ((s.evqDel (some w) ev).arrays (some w)).n = (s.arrays (some w)).n - 1 := by
    simp [evqDel, hactive, win32thrDel]
  have hthr : (s.evqDel (some w) ev).thr = s.thr := by
    simp [evqDel, hactive, win32thrDel]
  rw [hthr] at hafter
  cases hpc : (s.thr w).pc <;> simp only [hpc, ThrAt.InWait] at hwait hbefore hafter
  case begun n => omega
  case waiting hs =>
    have hlen := congrArg List.length (hbefore.symm.trans hafter)
    rw [hn] at hlen
    simp only [WthArrays.waitList, List.length_map, List.length_range] at hlen
    omega

/-- **The threads wait for their records all along a run if and only if no step of it deletes
an active event under a wait.** -/
theorem waits_on_record_iff (oneshot : ε → Bool) {ops : List (Win32Op θ ε)} {s' : Win32Evq θ ε}
    (hrun : runOps step (init oneshot) ops = some s') :
    (∀ pre s₁, pre <+: ops → runOps step (init oneshot) pre = some s₁ → s₁.WaitsOnRecord) ↔
      ∀ pre op s₁, pre ++ [op] <+: ops → runOps step (init oneshot) pre = some s₁ → s₁.Safe op := by
  refine forall_runOps_iff (A := Handshake) (fun s h => h.waitsOnRecord)
    (fun s op s₁ hstep h hsafe => handshake_step h hsafe hstep) ?_ (handshake_init oneshot) hrun
  intro s op s₁ hstep h hwaits
  cases op with
  | del ev => exact del_breaks h hstep hwaits
  | _ => trivial

/-- The head has no place for one event more, which a thread waits for. -/
def secondRecordOps : List (Win32Op ℕ ℕ) :=
  (List.range 63).map (fun ev => .add ev true 0) ++
    [.birth 0, .acked, .pollBegin, .pollNext, .pollNext, .thrCalled 0, .thrCount 0, .acked,
      .waitBegin, .thrWait 0]

/-- The event of the thread occurs, and the queue is polled again while the event is active. -/
def polledActiveOps : List (Win32Op ℕ ℕ) :=
  secondRecordOps ++
    [.thrReturn 0 0, .thrSettle 0, .thrReport 0, .waitReturn 62, .collect,
      .scanNext (fun ev => ev == 62) (fun _ => true) [], .pollBegin, .pollNext, .pollNext,
      .thrCalled 0, .thrCount 0, .acked, .waitBegin, .thrWait 0, .waitGiveUp]

/-- The active event is deleted, and the thread waits on for what is no longer its record. -/
theorem waits_on_record_iff_activeDel :
    ∃ s : Win32Evq ℕ ℕ, runOps step (init fun _ => false) (polledActiveOps ++ [.del 62]) = some s ∧
      ¬∀ pre s₁, pre <+: polledActiveOps ++ [.del 62] →
        runOps step (init fun _ => false) pre = some s₁ → s₁.WaitsOnRecord := by
  have hbefore : (runOps step (init fun _ => false) polledActiveOps).map (fun s : Win32Evq ℕ ℕ =>
      (s.active 62, s.evWth 62, (s.thr 0).pc, (s.step (.del 62)).isSome)) =
        some (true, some (some 0), .waiting [.object 62, .signal], true) := by
    decide +kernel
  obtain ⟨s₁, hs₁, heq⟩ := Option.map_eq_some_iff.mp hbefore
  simp only [Prod.mk.injEq] at heq
  obtain ⟨hactive, hwth, hpc, hsome⟩ := heq
  obtain ⟨s, hdel⟩ := Option.isSome_iff_exists.mp hsome
  have hrun : runOps step (init fun _ => false) (polledActiveOps ++ [.del 62]) = some s :=
    runOps_trans hs₁ ((runOps_singleton step s₁ (.del 62)).trans hdel)
  refine ⟨s, hrun, fun hall => ?_⟩
  have hsafe := (waits_on_record_iff _ hrun).mp hall _ _ s₁ (List.prefix_refl _) hs₁
  exact hsafe hactive 0 hwth (hpc ▸ trivial)

end Win32Evq

end LuaSys.Event
