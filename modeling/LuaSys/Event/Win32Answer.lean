import LuaSys.Event.Win32Polls

/-!
# Answers and reports

The owner blocks the whole queue while it waits for `ack_event`, so the answer must come.  It
does, in whatever order the threads run: each of their steps takes one of them closer to its
next `WaitForSingleObject`, and as long as there is no answer some thread has a step to make.  A
thread in `WaitForMultipleObjects` is no exception, since its signal has been set.

In the other direction, a thread that comes back from its wait must be noticed.  It puts itself
on `wthReady` and sets the signal of `head`; the owner resets that signal in the section where
it takes the list.

## Main definitions

* `Win32Evq.work` — the steps that the threads have before them.
* `Win32Evq.Involved` — the threads that the owner may wait for.

## Main results

* `idle_run_answer` — the answer comes within `work` steps.
* `idle_run_reports` — a report is noticed, and each thread reports once.
* `idle_run_scan` — which events of a record become ready.
-/

namespace LuaSys.Event

open LuaSys.Lib

variable {θ ε : Type*}

/-- The thread that makes a step. -/
def Win32Op.thread : Win32Op θ ε → Option θ
  | .birth w | .thrCalled w | .thrCount w | .thrWait w | .thrReturn w _ | .thrTimeout w
  | .thrSettle w | .thrReport w => some w
  | _ => none

/-- The steps that a thread has before it at most, before it waits for its signal again. -/
def Win32Thr.work (t : Win32Thr ε) : ℕ :=
  match t.pc with
  | .idle => if t.signal then 6 else 0
  | .counted _ => 5
  | .begun _ => 4
  | .waiting _ => 3
  | .woken _ => 2
  | .reporting => 1
  | _ => 0

/-- The owner waits for `ack_event`. -/
def OwnerAt.awaits : OwnerAt θ ε → Bool
  | .asleep _ _ => true
  | .starting _ _ _ => true
  | .counting => true
  | _ => false

namespace Win32Evq

variable [DecidableEq θ] [DecidableEq ε] {s s' : Win32Evq θ ε} {w : θ} {op : Win32Op θ ε}

/-- The thread is in the list, or the owner starts it. -/
def Involved (s : Win32Evq θ ε) (w : θ) : Prop :=
  w ∈ s.threads ∨ ∃ ev ok, s.owner = .starting w ev ok

/-- The steps that the threads have before them. -/
def work (s : Win32Evq θ ε) : ℕ :=
  (s.threads.map fun w => (s.thr w).work).sum +
    match s.owner with
    | .starting w _ _ => if (s.thr w).pc = .unborn then 1 else 0
    | _ => 0

omit [DecidableEq ε] in
/-- One thread of the list goes on, and the others stay. -/
theorem sum_work_lt {ws : List θ} {f : θ → Win32Thr ε} {t : Win32Thr ε} (hnodup : ws.Nodup)
    (hw : w ∈ ws) (ht : t.work < (f w).work) :
    (ws.map fun v => (Function.update f w t v).work).sum < (ws.map fun v => (f v).work).sum := by
  induction ws with
  | nil => cases hw
  | cons v ws ih =>
      obtain ⟨hv, hnodup⟩ := List.nodup_cons.mp hnodup
      simp only [List.map_cons, List.sum_cons]
      by_cases hvw : v = w
      · subst hvw
        have hsame : (ws.map fun x => (Function.update f v t x).work) =
            ws.map fun x => (f x).work := by
          refine List.map_congr_left fun x hx => ?_
          have hxv : x ≠ v := fun heq => hv (heq ▸ hx)
          rw [Function.update_of_ne hxv]
        rw [hsame, Function.update_self]
        exact Nat.add_lt_add_right ht _
      · have hrest := ih hnodup ((List.mem_cons.mp hw).resolve_left (Ne.symm hvw))
        rw [Function.update_of_ne hvw]
        exact Nat.add_lt_add_left hrest _

/-- A thread of the list has less work before it after each of its steps. -/
theorem work_thrStep (h : s.Handshake) (hw : s.Involved w)
    (hstep : s.thrStep w (s.thr w).pc op = some s') :
    s'.work < s.work ∧ s'.owner = s.owner ∧ ∀ v, s.Involved v → s'.Involved v := by
  have hset : ∀ {s₁ : Win32Evq θ ε} {t : Win32Thr ε}, s₁.thr = Function.update s.thr w t →
      s₁.threads = s.threads → s₁.owner = s.owner → (s.thr w).pc ≠ .unborn → t.pc ≠ .unborn →
      w ∈ s.threads → t.work < (s.thr w).work →
      s₁.work < s.work ∧ s₁.owner = s.owner ∧ ∀ v, s.Involved v → s₁.Involved v := by
    intro s₁ t hthr hthreads ho hpc hpc' hin hwork
    refine ⟨?_, ho, fun v hv => ?_⟩
    · have hsum := sum_work_lt (f := s.thr) h.nodup hin hwork
      unfold work
      rw [hthr, hthreads, ho]
      refine Nat.add_lt_add_of_lt_of_le hsum ?_
      split
      next v ev ok ho' =>
        by_cases hvw : v = w
        · subst hvw
          simp [hpc']
        · rw [Function.update_of_ne hvw]
      next => exact Nat.le_refl 0
    · rw [Involved, hthreads, ho]
      exact hv
  have hmem : (s.thr w).pc ≠ .unborn → w ∈ s.threads := by
    intro hpc
    rcases hw with hw | ⟨ev, ok, ho⟩
    · exact hw
    · have howned := h.owned
      rw [Owned, ho] at howned
      obtain ⟨-, -, -, hborn⟩ := howned
      split at hborn
      · exact hborn.1
      · exact absurd hborn.2 hpc
  unfold Win32Evq.thrStep at hstep
  split at hstep
  next hpc =>
    split at hstep
    next w' ev ok ho =>
      obtain ⟨rfl, hs'⟩ := Option.ite_none_right_eq_some.mp hstep
      obtain rfl := Option.some.inj hs'
      have hnot : w' ∉ s.threads := fun hin => (h.phase w' hin).not_unborn hpc
      have hsum : (s.threads.map fun v =>
          (Function.update s.thr w' ⟨.sleep, false, .idle⟩ v).work) =
            s.threads.map fun v => (s.thr v).work := by
        refine List.map_congr_left fun v hv => ?_
        have hvw : v ≠ w' := fun heq => hnot (heq ▸ hv)
        rw [Function.update_of_ne hvw]
      refine ⟨?_, rfl, fun v hv => ?_⟩
      · unfold work
        simp only [Win32Evq.birth, ho, hpc, List.map_cons, List.sum_cons, Function.update_self,
          hsum, reduceCtorEq, if_true, if_false]
        simp [Win32Thr.work]
      · exact hv.imp_left fun hin => List.mem_cons_of_mem _ hin
    next => cases hstep
  next hpc =>
    obtain ⟨hsignal, hs'⟩ := Option.ite_none_right_eq_some.mp hstep
    refine Option.some.inj hs' ▸ hset rfl rfl rfl (by simp [hpc]) ?_ (hmem (by simp [hpc])) ?_
    · dsimp only
      split <;> simp
    · simp only [Win32Thr.work, hpc, hsignal, if_true]
      split <;> simp_all
  next hpc =>
    obtain ⟨-, hs'⟩ := Option.ite_none_right_eq_some.mp hstep
    exact Option.some.inj hs' ▸ hset rfl rfl rfl (by simp [hpc]) (by simp) (hmem (by simp [hpc]))
      (by simp [Win32Thr.work, hpc])
  next hpc =>
    exact Option.some.inj hstep ▸ hset rfl rfl rfl (by simp [hpc]) (by simp) (hmem (by simp [hpc]))
      (by simp [Win32Thr.work, hpc])
  next hpc =>
    dsimp only at hstep
    split at hstep
    · exact Option.some.inj hstep ▸ hset rfl rfl rfl (by simp [hpc]) (by simp)
        (hmem (by simp [hpc])) (by simp [Win32Thr.work, hpc])
    · obtain ⟨-, hs'⟩ := Option.ite_none_right_eq_some.mp hstep
      exact Option.some.inj hs' ▸ hset rfl rfl rfl (by simp [hpc]) (by simp)
        (hmem (by simp [hpc])) (by simp [Win32Thr.work, hpc])
    · cases hstep
  next hpc =>
    exact Option.some.inj hstep ▸ hset rfl rfl rfl (by simp [hpc]) (by simp) (hmem (by simp [hpc]))
      (by simp [Win32Thr.work, hpc])
  next res _ hpc =>
    have hin := hmem (by simp [hpc])
    -- A thread whose signal is set has an answer to give, and resets it.
    have hsignal : (!decide ((s.thr w).state = WthrState.ack) && (s.thr w).signal) = false := by
      have hphase := h.phase w hin
      generalize s.thr w = t at hphase hpc
      cases hphase <;> simp_all
    refine Option.some.inj hstep ▸ hset rfl rfl rfl (by simp [hpc]) ?_ hin ?_
    · cases res <;> simp
    · cases res <;> simp [Win32Thr.work, hpc, hsignal]
  next hpc =>
    have hin := hmem (by simp [hpc])
    have hsignal : (s.thr w).signal = false := by
      have hphase := h.phase w hin
      generalize s.thr w = t at hphase hpc
      cases hphase <;> simp_all
    obtain ⟨-, hs'⟩ := Option.ite_none_right_eq_some.mp hstep
    exact Option.some.inj hs' ▸ hset rfl rfl rfl (by simp [hpc]) (by simp) hin
      (by simp [Win32Thr.work, hpc, hsignal])
  next => cases hstep

/-- As long as there is no answer, a thread that the owner may wait for has a step to make. -/
theorem exists_thrStep (h : s.Handshake) (ho : s.owner.awaits = true) (hack : s.ack = false) :
    ∃ w op, s.Involved w ∧ op.thread = some w ∧ (s.step op).isSome := by
  have howned := h.owned
  unfold Owned at howned
  cases hso : s.owner <;> simp only [hso, OwnerAt.awaits, Bool.false_eq_true] at howned ho
  case asleep w c =>
    obtain ⟨-, hw, -, hstate⟩ := howned
    rw [hack, if_neg Bool.false_ne_true] at hstate
    have hphase := h.phase w hw
    have hagrees := h.agrees w hw
    have hlast := h.recorded.last (some w)
    cases hpc : (s.thr w).pc with
    | begun n =>
        refine ⟨w, .thrWait w, .inl hw, rfl, ?_⟩
        simp [step, Win32Evq.thrStep, hpc]
    | waiting hs =>
        have hsignal : (s.thr w).signal = true := by
          generalize s.thr w = t at hphase hpc hstate
          cases hphase <;> simp_all
        unfold Agrees at hagrees
        rw [hpc] at hagrees
        dsimp only at hagrees
        have hlastAt : hs[(s.arrays (some w)).n]? = some .signal := by
          rw [hagrees, WthArrays.waitList]
          simp [hlast]
        refine ⟨w, .thrReturn w (s.arrays (some w)).n, .inl hw, rfl, ?_⟩
        simp [step, Win32Evq.thrStep, hpc, hlastAt, hsignal]
    | woken res =>
        refine ⟨w, .thrSettle w, .inl hw, rfl, ?_⟩
        simp [step, Win32Evq.thrStep, hpc]
    | _ =>
        generalize s.thr w = t at hphase hpc hstate
        cases hphase <;> simp_all
  case starting w ev ok =>
    obtain ⟨-, -, -, hborn⟩ := howned
    rw [hack, if_neg Bool.false_ne_true] at hborn
    refine ⟨w, .birth w, .inr ⟨ev, ok, hso⟩, rfl, ?_⟩
    simp [step, Win32Evq.thrStep, hborn.2, hso]
  case counting =>
    obtain ⟨m, hcensus, hm, hiff⟩ := howned
    obtain ⟨w, hun⟩ : ∃ w, Uncounted (s.thr w) := by
      by_contra hnone
      have hzero := hcensus.unique (Census.zero (not_exists.mp hnone))
      rw [hack] at hiff
      exact Bool.false_ne_true (hiff.mpr hzero)
    have hw : w ∈ s.threads := by
      by_contra hout
      exact (h.outside w hout).not_uncounted hun
    have hphase := h.phase w hw
    cases hpc : (s.thr w).pc with
    | idle =>
        have hsignal : (s.thr w).signal = true := by
          unfold Uncounted at hun
          rw [hpc] at hun
          dsimp only at hun
          generalize s.thr w = t at hphase hpc hun
          cases hphase <;> simp_all
        refine ⟨w, .thrCalled w, .inl hw, rfl, ?_⟩
        simp [step, Win32Evq.thrStep, hpc, hsignal]
    | counted n =>
        refine ⟨w, .thrCount w, .inl hw, rfl, ?_⟩
        simp [step, Win32Evq.thrStep, hpc, unlocked, hso]
    | _ =>
        rw [Uncounted, hpc] at hun
        exact hun.elim

/-- Steps of the threads that the owner may wait for. -/
theorem work_runOps {ops : List (Win32Op θ ε)} (h : s.Handshake)
    (hops : ∀ op ∈ ops, ∃ w, s.Involved w ∧ op.thread = some w)
    (hrun : runOps step s ops = some s') :
    ops.length + s'.work ≤ s.work ∧ s'.owner = s.owner ∧ s'.Handshake := by
  induction ops generalizing s with
  | nil =>
      obtain rfl := Option.some.inj hrun
      simpa using h
  | cons op ops ih =>
      obtain ⟨s₁, hstep, hrest⟩ := runOps_cons hrun
      obtain ⟨w, hw, hop⟩ := hops op List.mem_cons_self
      have hthr : s.thrStep w (s.thr w).pc op = some s₁ := by
        cases op <;> cases hop <;> exact hstep
      obtain ⟨hlt, ho, hinv⟩ := work_thrStep h hw hthr
      obtain ⟨hle, ho', hs'⟩ := ih (handshake_thrStep h hthr)
        (fun op' hop' => (hops op' (List.mem_cons_of_mem op hop')).imp fun v hv =>
          hv.imp_left (hinv v)) hrest
      refine ⟨?_, ho'.trans ho, hs'⟩
      rw [List.length_cons]
      omega

/-- **The owner gets its answer.**  In a run of a queue that is polled only if no event is
ready, after any steps of the threads that the owner may wait for, there is an answer, or one of
these threads has a step to make; and they do not make more than `work` steps. -/
theorem idle_run_answer (oneshot : ε → Bool) {ops : List (Win32Op θ ε)}
    {s : Win32Evq θ ε} (hrun : runOps loopStep (init oneshot) ops = some s)
    (ho : s.owner.awaits = true) {thrOps : List (Win32Op θ ε)}
    (hops : ∀ op ∈ thrOps, ∃ w, s.Involved w ∧ op.thread = some w) {s' : Win32Evq θ ε}
    (hrun' : runOps step s thrOps = some s') :
    thrOps.length + s'.work ≤ s.work ∧
      (s'.ack = true ∨ ∃ w op, s'.Involved w ∧ op.thread = some w ∧ (s'.step op).isSome) := by
  have h := (idle_run oneshot hrun).handshake
  obtain ⟨hle, ho', h'⟩ := work_runOps h hops hrun'
  refine ⟨hle, ?_⟩
  cases hack : s'.ack with
  | true => exact .inl rfl
  | false => exact .inr (exists_thrStep h' (ho' ▸ ho) hack)

/-- The thread of `secondRecordOps` is in its wait, and its event is deleted. -/
theorem idle_run_answer_secondRecord :
    ∃ s s' : Win32Evq ℕ ℕ, s.owner.awaits = true ∧
      runOps step s [.thrReturn 0 1] = some s' ∧ 1 + s'.work ≤ s.work := by
  have hrun : (runOps loopStep (init fun _ => false)
      (secondRecordOps ++ [.waitGiveUp, .del 62])).map
        (fun s => (s.owner.awaits, s.threads, (runOps step s [.thrReturn 0 1]).isSome)) =
          some (true, [0], true) := by
    decide +kernel
  obtain ⟨s, hs, heq⟩ := Option.map_eq_some_iff.mp hrun
  simp only [Prod.mk.injEq] at heq
  obtain ⟨hawaits, hthreads, hsome⟩ := heq
  obtain ⟨s', hs'⟩ := Option.isSome_iff_exists.mp hsome
  have hops : ∀ op ∈ ([.thrReturn 0 1] : List (Win32Op ℕ ℕ)),
      ∃ w, s.Involved w ∧ op.thread = some w := by
    intro op hop
    rw [List.mem_singleton.mp hop]
    exact ⟨0, .inl (by rw [hthreads]; exact List.mem_cons_self), rfl⟩
  exact ⟨s, s', hawaits, hs', (idle_run_answer _ hs hawaits hops hs').1⟩

/-! ## Reports -/

/-- **A report is noticed.**  In a run of a queue that is polled only if no event is ready,
the threads on `wthReady` and those that the owner has taken from there are the threads that
have reported, each of them once; and as long as one is on the list the signal of `head` is set,
so that a wait ends, unless the owner is about to take the list. -/
theorem idle_run_reports (oneshot : ε → Bool) {ops : List (Win32Op θ ε)}
    {s : Win32Evq θ ε} (hrun : runOps loopStep (init oneshot) ops = some s) :
    (s.owner.scanTodo ++ s.wthReady).Nodup ∧
      (∀ w, w ∈ s.owner.scanTodo ++ s.wthReady ↔
        w ∈ s.threads ∧ (s.thr w).state = .ready ∧ (s.thr w).pc = .idle) ∧
      (s.wthReady ≠ [] → s.owner = .waiting → (s.step (.waitReturn (s.arrays none).n)).isSome) ∧
      (s.owner = .collecting →
        ∃ s', s.step .collect = some s' ∧ s'.owner.scanTodo = s.wthReady) := by
  have h := (idle_run oneshot hrun).handshake
  have hrep := h.reported
  refine ⟨hrep.nodup, hrep.mem_iff, fun hne ho => ?_, fun ho => ?_⟩
  · have hsignal := (hrep.signalled hne).resolve_right (by simp [ho])
    simp [step, Win32Evq.ownerStep, ho, hsignal]
  · refine ⟨{ s with headSignal := false, wthReady := [] }.scanTo s.readyRecords, ?_, ?_⟩
    · simp [step, Win32Evq.ownerStep, ho]
    · rw [scanTo_scanTodo]
      unfold readyRecords
      split <;> simp [List.reduceOption]

/-- The event of the thread is signalled, and the thread reports. -/
theorem idle_run_reports_secondRecord :
    ∃ s : Win32Evq ℕ ℕ, s.wthReady = [0] ∧ s.owner = .waiting ∧
      (s.step (.waitReturn (s.arrays none).n)).isSome := by
  have hrun : (runOps loopStep (init fun _ => false)
      (secondRecordOps ++ [.thrReturn 0 0, .thrSettle 0, .thrReport 0])).map
        (fun s => (s.wthReady, s.owner)) = some ([0], .waiting) := by
    decide +kernel
  obtain ⟨s, hs, heq⟩ := Option.map_eq_some_iff.mp hrun
  simp only [Prod.mk.injEq] at heq
  obtain ⟨hready, ho⟩ := heq
  exact ⟨s, hready, ho, (idle_run_reports _ hs).2.2.1 (by simp [hready]) ho⟩

/-- **The events of a record.**  In a run of a queue that is polled only if no event is ready,
the loop over a record makes ready, once, the event that is now at the place where the wait ended
and every event behind it whose handle is signalled, if it has occurred and is not active; those
with `EVENT_ONESHOT` are in no record then, and the arrays are in order. -/
theorem idle_run_scan (oneshot : ε → Bool) {ops : List (Win32Op θ ε)}
    {s s' : Win32Evq θ ε} (hrun : runOps loopStep (init oneshot) ops = some s)
    {wth : Option θ} {todo : List (Option θ)} (ho : s.owner = .scanning (wth :: todo))
    (hidx : s.idx wth ≠ Event.waitTimeout) {signalled res : ε → Bool} {expired : List ε}
    (hstep : s.step (.scanNext signalled res expired) = some s') :
    s'.Recorded ∧ ∃ found, s'.evReady = found ++ s.evReady ∧ found.Nodup ∧
      (∀ ev, ev ∈ found ↔ s.evWth ev = some wth ∧ s.idx wth ≤ s.index ev ∧
        (s.index ev = s.idx wth ∨ signalled ev) ∧ res ev ∧ s.active ev = false) ∧
      ∀ ev, s'.evWth ev = if ev ∈ found ∧ s.oneshot ev then none else s.evWth ev := by
  have h := (idle_run oneshot hrun).handshake
  have hrec : (s.setSleep wth).Recorded := by
    have hr := (h.setSleep ho).recorded
    exact ⟨hr.placed, hr.object, hr.last, hr.bound⟩
  have hs' : s.Expired wth expired ∧
      ((s.setSleep wth).scanWth wth signalled res expired).scanTo todo = s' := by
    simpa [step, Win32Evq.ownerStep, ho] using hstep
  obtain ⟨-, rfl⟩ := hs'
  have hidx' : (s.setSleep wth).idx wth = s.idx wth := by cases wth <;> rfl
  unfold scanWth
  dsimp only
  rw [hidx', if_neg hidx]
  obtain ⟨found, hfound, hnodup, hmem⟩ := scanFrom_spec true hrec rfl
  refine ⟨⟨hfound.recorded.placed, hfound.recorded.object, hfound.recorded.last,
    hfound.recorded.bound⟩, found, ?_, hnodup, fun ev => ?_, fun ev => ?_⟩
  · have hready : (s.setSleep wth).evReady = s.evReady := by cases wth <;> rfl
    rw [← hready]
    exact hfound.evReady
  · have hev : (s.setSleep wth).evWth = s.evWth := by cases wth <;> rfl
    have hindex : (s.setSleep wth).index = s.index := by cases wth <;> rfl
    have hactive : (s.setSleep wth).active = s.active := by cases wth <;> rfl
    rw [hmem, Ahead, hev, hindex, hactive]
    simp
  · have hev : (s.setSleep wth).evWth = s.evWth := by cases wth <;> rfl
    have hone : (s.setSleep wth).oneshot = s.oneshot := by cases wth <;> rfl
    rw [← hev, ← hone]
    exact hfound.evWth ev

/-- Two events of the head are signalled, and the first one has `EVENT_ONESHOT`. -/
def scanHeadOps : List (Win32Op ℕ ℕ) :=
  [.add 5 true 0, .add 6 true 0, .add 7 true 0, .pollBegin, .waitBegin, .waitReturn 0, .collect]

theorem idle_run_scan_scanHead :
    ∃ s s' : Win32Evq ℕ ℕ, s.step (.scanNext (fun ev => ev == 7) (fun _ => true) []) = some s' ∧
      s'.Recorded := by
  have hrun : (runOps loopStep (init fun ev => ev == 5) scanHeadOps).map
      (fun s => (s.owner, s.idx none,
        (s.step (.scanNext (fun ev => ev == 7) (fun _ => true) [])).isSome)) =
      some (.scanning [none], 0, true) := by
    decide +kernel
  obtain ⟨s, hs, heq⟩ := Option.map_eq_some_iff.mp hrun
  simp only [Prod.mk.injEq] at heq
  obtain ⟨ho, hidx, hsome⟩ := heq
  obtain ⟨s', hs'⟩ := Option.isSome_iff_exists.mp hsome
  exact ⟨s, s', hs', (idle_run_scan _ hs ho (by rw [hidx]; decide) hs').1⟩

end Win32Evq

end LuaSys.Event
