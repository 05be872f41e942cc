import LuaSys.Event.Win32Handshake

/-!
# Waiting when no event is ready

`sys_evq_loop` calls `evq_wait` only if `ev_ready` is empty.  The events that are active are on
that list, so at the begin of a poll there are none; and an event becomes active when its record
is looked at, with its thread asleep.  So a thread that is called has no active events, and the
shortcut of `evq_del` is never taken under a wait.

The list is not lost either: `evq_wait` drops what was on it if timeouts have expired already,
but it was empty then.

## Main definitions

* `Win32Evq.Asleep` — the thread of an active event sleeps.
* `Win32Evq.Queued` — the active events are on the list of the ready ones.
* `Win32Evq.loopStep` — the steps of a queue that is polled with an empty list only.

## Main results

* `idle_run` — the invariants along a run of such polls.
* `idle_run_waits` — a thread in its wait waits for its events, for nothing else, and for its
  signal.
-/

namespace LuaSys.Event

open LuaSys.Lib Relation

variable {θ ε : Type*}

namespace Win32Evq

variable [DecidableEq θ] [DecidableEq ε] {s s' : Win32Evq θ ε}

/-! ## The threads of the active events -/

/-- No event in the record of a helper thread is active. -/
def Rested (s : Win32Evq θ ε) : Prop := ∀ ev w, s.evWth ev = some (some w) → s.active ev = false

/-- The thread of an active event sleeps, and no such thread is called. -/
structure Asleep (s : Win32Evq θ ε) : Prop where
  sleep : ∀ ev w, s.evWth ev = some (some w) → s.active ev = true → (s.thr w).state = .sleep
  calling : ∀ todo oldn polled, s.owner = .calling todo oldn polled → s.Rested

/-- A poll begins without active events in the records of the threads. -/
def PollsRested (s : Win32Evq θ ε) : Win32Op θ ε → Prop
  | .pollBegin => s.Rested
  | _ => True

omit [DecidableEq θ] [DecidableEq ε] in
theorem asleep_init (oneshot : ε → Bool) : (init oneshot : Win32Evq θ ε).Asleep where
  sleep _ _ h := nomatch h
  calling _ _ _ h := nomatch h

section
variable {wth : Option θ} {ev : ε} {c : WthChange ε} {w : θ} {op : Win32Op θ ε}

omit [DecidableEq θ] [DecidableEq ε] in
/-- Nothing becomes active, and no thread is called. -/
theorem Asleep.of (h : s.Asleep)
    (hev : ∀ ev w, s'.evWth ev = some (some w) → s'.active ev = true →
      s.evWth ev = some (some w) ∧ s.active ev = true)
    (hthr : ∀ ev w, s.evWth ev = some (some w) → s.active ev = true →
      (s.thr w).state = .sleep → (s'.thr w).state = .sleep)
    (ho : ∀ todo oldn polled, s'.owner = .calling todo oldn polled → s'.Rested) : s'.Asleep where
  sleep ev w hw hactive := by
    obtain ⟨hw', hactive'⟩ := hev ev w hw hactive
    exact hthr ev w hw' hactive' (h.sleep ev w hw' hactive')
  calling := ho

theorem change_evWth (hc : s.Allowed wth c) :
    ∀ ev w, (s.change wth c).evWth ev = some (some w) → (s.change wth c).active ev = true →
      s.evWth ev = some (some w) ∧ s.active ev = true := by
  intro x w hx hactive
  cases c with
  | add ev ok =>
      cases ok with
      | false => exact ⟨hx, hactive⟩
      | true =>
          have hxe : x ≠ ev := by
            rintro rfl
            exact Bool.false_ne_true (hc.2.1.symm.trans hactive)
          exact ⟨(Function.update_of_ne hxe _ _).symm.trans hx, hactive⟩
  | del ev =>
      change Function.update s.evWth ev none x = some (some w) at hx
      have hxe : x ≠ ev := by
        rintro rfl
        simp at hx
      exact ⟨(Function.update_of_ne hxe _ _).symm.trans hx, hactive⟩
  | touch => exact ⟨hx, hactive⟩

theorem Asleep.win32thrSleep (h : s.Asleep) (ho : s.owner = .free) (hc : s.Allowed wth c) :
    (s.win32thrSleep wth c).Asleep := by
  have hchange : (s.change wth c).Asleep := by
    refine h.of (change_evWth hc) (fun ev w _ _ hst => ?_) fun todo oldn polled hcall => ?_
    · rw [sameThreads_change.thr]
      exact hst
    · rw [sameThreads_change.owner, ho] at hcall
      cases hcall
  cases wth with
  | none => exact hchange
  | some w =>
      rw [Win32Evq.win32thrSleep]
      split
      next hpoll =>
        refine h.of (fun ev w hw hactive => ⟨hw, hactive⟩) (fun ev v _ _ hst => ?_)
          fun todo oldn polled hcall => by cases hcall
        have hvw : v ≠ w := by
          rintro rfl
          rw [hpoll] at hst
          cases hst
        show (Function.update s.thr w _ v).state = .sleep
        rw [Function.update_of_ne hvw]
        exact hst
      next => exact hchange

omit [DecidableEq ε] in
/-- The threads do not touch the events, and one that sleeps stays asleep. -/
theorem Asleep.thrStep (hs : s.Handshake) (h : s.Asleep)
    (hstep : s.thrStep w (s.thr w).pc op = some s') : s'.Asleep := by
  have hset : ∀ {s₁ : Win32Evq θ ε} {t : Win32Thr ε}, s₁.thr = Function.update s.thr w t →
      s₁.owner = s.owner → s₁.evWth = s.evWth → s₁.active = s.active →
      ((s.thr w).state = .sleep → t.state = .sleep) → s₁.Asleep := by
    intro s₁ t hthr ho hev hactive hst
    refine h.of (fun ev v hv hact => ⟨hev ▸ hv, hactive ▸ hact⟩) (fun ev v _ _ hv => ?_) ?_
    · rw [hthr]
      by_cases hvw : v = w
      · subst hvw
        rw [Function.update_self]
        exact hst hv
      · rw [Function.update_of_ne hvw]
        exact hv
    · intro todo oldn polled hcall ev v hv
      rw [hactive]
      exact h.calling todo oldn polled (ho ▸ hcall) ev v (hev ▸ hv)
  unfold Win32Evq.thrStep at hstep
  split at hstep
  next =>
    split at hstep
    next ho =>
      obtain ⟨-, hs'⟩ := Option.ite_none_right_eq_some.mp hstep
      exact Option.some.inj hs' ▸ hset rfl rfl rfl rfl fun _ => rfl
    next => cases hstep
  next =>
    obtain ⟨-, hs'⟩ := Option.ite_none_right_eq_some.mp hstep
    exact Option.some.inj hs' ▸ hset rfl rfl rfl rfl id
  next =>
    obtain ⟨-, hs'⟩ := Option.ite_none_right_eq_some.mp hstep
    exact Option.some.inj hs' ▸ hset rfl rfl rfl rfl id
  next => exact Option.some.inj hstep ▸ hset rfl rfl rfl rfl id
  next =>
    dsimp only at hstep
    split at hstep
    · exact Option.some.inj hstep ▸ hset rfl rfl rfl rfl id
    · obtain ⟨-, hs'⟩ := Option.ite_none_right_eq_some.mp hstep
      exact Option.some.inj hs' ▸ hset rfl rfl rfl rfl id
    · cases hstep
  next => exact Option.some.inj hstep ▸ hset rfl rfl rfl rfl id
  next res hpc =>
    have hw : w ∈ s.threads := hs.mem_of_pc (by simp [hpc]) (by simp [hpc]) (by simp [hpc])
    have hne : (s.thr w).state ≠ .sleep := by
      have hphase := hs.phase w hw
      generalize s.thr w = t at hphase hpc
      cases hphase <;> simp_all
    exact Option.some.inj hstep ▸ hset rfl rfl rfl rfl fun hst => absurd hst hne
  next =>
    obtain ⟨-, hs'⟩ := Option.ite_none_right_eq_some.mp hstep
    exact Option.some.inj hs' ▸ hset rfl rfl rfl rfl id
  next => cases hstep

/-- What the loop over a record makes active is in that record. -/
theorem scanWth_active {signalled res : ε → Bool} {expired : List ε} (h : s.Recorded)
    (hexp : s.Expired wth expired) :
    ∀ ev w, (s.scanWth wth signalled res expired).evWth ev = some (some w) →
      (s.scanWth wth signalled res expired).active ev = true →
      s.evWth ev = some (some w) ∧ (s.active ev = true ∨ wth = some w) := by
  intro ev w
  unfold scanWth
  dsimp only
  split
  · intro hev hactive
    refine ⟨hev, ?_⟩
    rcases Bool.or_eq_true_iff.mp hactive with hold | hnew
    · exact .inl hold
    · exact .inr (Option.some.inj ((hexp.2 ev (of_decide_eq_true hnew)).1.symm.trans hev))
  · obtain ⟨found, hfound, -, hmem⟩ := scanFrom_spec true h rfl
    rw [hfound.evWth, hfound.active]
    intro hev hactive
    obtain ⟨-, hev⟩ := Option.ite_none_left_eq_some.mp hev
    refine ⟨hev, (Bool.or_eq_true_iff.mp hactive).imp_right fun hnew => ?_⟩
    exact Option.some.inj (((hmem ev).mp (of_decide_eq_true hnew)).1.symm.trans hev)

omit [DecidableEq θ] [DecidableEq ε] in
/-- Only the place of the owner, and what has nothing to do with the events, changes. -/
theorem Asleep.same (h : s.Asleep) (hthr : s'.thr = s.thr) (hev : s'.evWth = s.evWth)
    (hactive : s'.active = s.active)
    (ho : ∀ todo oldn polled, s'.owner ≠ .calling todo oldn polled) : s'.Asleep :=
  h.of (fun _ _ hv hact => ⟨hev ▸ hv, hactive ▸ hact⟩) (fun _ _ _ _ hst => hthr ▸ hst)
    fun todo oldn polled hcall => absurd hcall (ho todo oldn polled)

theorem Asleep.evqAdd {ok : Bool} (h : s.Asleep) (ho : s.owner = .free) (hev : s.evWth ev = none)
    (hactive : s.active ev = false) : (s.evqAdd ev ok w).Asleep := by
  rw [Win32Evq.evqAdd]
  split
  next wth hplace => exact h.win32thrSleep ho ⟨hev, hactive, (placeFor_eq_some hplace).1⟩
  next => exact h.same rfl rfl rfl (by simp)

theorem Asleep.evqDel (h : s.Asleep) (ho : s.owner = .free) (hev : s.evWth ev = some wth) :
    (s.evqDel wth ev).Asleep := by
  rw [Win32Evq.evqDel]
  split
  · refine h.of (change_evWth (c := .del ev) hev) (fun _ _ _ _ hst => hst) fun _ _ _ hcall => ?_
    change s.owner = _ at hcall
    rw [ho] at hcall
    cases hcall
  · exact h.win32thrSleep ho (c := .del ev) hev

theorem Asleep.evqTouch (h : s.Asleep) (ho : s.owner = .free) : (s.evqTouch wth ev).Asleep := by
  rw [Win32Evq.evqTouch]
  split
  · exact h
  · exact h.win32thrSleep ho (c := .touch) trivial

omit [DecidableEq θ] in
/-- An event that is taken from the list is not active any more. -/
theorem Asleep.dispatch (h : s.Asleep) (ho : s.owner = .free) {evs : List ε} :
    ({ s with evReady := evs, active := Function.update s.active ev false } :
      Win32Evq θ ε).Asleep := by
  refine h.of (fun x v hv hact => ⟨hv, ?_⟩) (fun _ _ _ _ hst => hst) fun _ _ _ hcall => ?_
  · by_cases hvx : x = ev
    · subst hvx
      simp at hact
    · simpa [hvx] using hact
  · change s.owner = _ at hcall
    rw [ho] at hcall
    cases hcall

omit [DecidableEq ε] in
/-- A round of `win32thr_poll` calls a thread, when no event of the threads is active. -/
theorem Asleep.pollRound {todo : List θ} {oldn : ℕ} {polled : Bool} (h : s.Asleep)
    (ho : s.owner = .calling (w :: todo) oldn polled) :
    (s.pollRound w todo oldn polled).Asleep := by
  have hr : s.Rested := h.calling _ _ _ ho
  have hround : (s.pollRound w todo oldn polled).evWth = s.evWth ∧
      (s.pollRound w todo oldn polled).active = s.active := by
    rw [Win32Evq.pollRound, pollEnd]
    dsimp only
    split
    · split
      · split <;> exact ⟨rfl, rfl⟩
      · exact ⟨rfl, rfl⟩
    · exact ⟨rfl, rfl⟩
  have hr' : (s.pollRound w todo oldn polled).Rested := by
    intro ev v hv
    rw [hround.1] at hv
    rw [hround.2]
    exact hr ev v hv
  refine ⟨fun ev v hv hact => ?_, fun _ _ _ _ => hr'⟩
  rw [hr' ev v hv] at hact
  cases hact

omit [DecidableEq θ] in
/-- The events of the head that expire have no thread. -/
theorem Asleep.waitExpired (h : s.Asleep) {expired : List ε} (hexp : s.Expired none expired) :
    (({ s with evReady := [], owner := .free } : Win32Evq θ ε).setReady expired).Asleep := by
  refine h.of (fun ev v hv hact => ⟨hv, ?_⟩) (fun _ _ _ _ hst => hst)
    fun _ _ _ hcall => by cases hcall
  refine (Bool.or_eq_true_iff.mp hact).resolve_right fun hnew => ?_
  have hnone := (hexp.2 ev (of_decide_eq_true hnew)).1
  cases Option.some.inj (hnone.symm.trans hv)

omit [DecidableEq ε] in
theorem sleep_setSleep {v : θ} (hv : (s.thr v).state = .sleep ∨ wth = some v) :
    ((s.setSleep wth).thr v).state = .sleep := by
  cases wth with
  | none => exact hv.resolve_right (by simp)
  | some w =>
      by_cases hvw : v = w
      · subst hvw
        simp [setSleep]
      · simpa [setSleep, hvw, Ne.symm hvw] using hv

/-- The thread of a record that is looked at sleeps before its events become active. -/
theorem Asleep.scanNext {signalled res : ε → Bool} {expired : List ε} {todo : List (Option θ)}
    (hs : s.Handshake) (h : s.Asleep) (ho : s.owner = .scanning (wth :: todo))
    (hexp : s.Expired wth expired) :
    (((s.setSleep wth).scanWth wth signalled res expired).scanTo todo).Asleep := by
  have hrec : (s.setSleep wth).Recorded := by
    have hr := (hs.setSleep ho).recorded
    exact ⟨hr.placed, hr.object, hr.last, hr.bound⟩
  have hexp' : (s.setSleep wth).Expired wth expired := by cases wth <;> exact hexp
  have hsame : ((s.setSleep wth).scanWth wth signalled res expired).thr = (s.setSleep wth).thr :=
    sameThreads_scanWth.thr
  refine ⟨fun ev v hv hact => ?_, fun _ _ _ hcall => ?_⟩
  · obtain ⟨hv', hact'⟩ := scanWth_active hrec hexp' ev v hv hact
    show (((s.setSleep wth).scanWth wth signalled res expired).thr v).state = .sleep
    rw [hsame]
    refine sleep_setSleep (hact'.imp_left fun hact => h.sleep ev v ?_ ?_)
    · cases wth <;> exact hv'
    · cases wth <;> exact hact
  · simp only [scanTo] at hcall
    split at hcall <;> cases hcall

/-- The owner changes the record that it has waited for. -/
theorem Asleep.acked_change (h : s.Asleep) (hc : s.Allowed wth c) :
    (({ s with ack := false, owner := .free } : Win32Evq θ ε).change wth c).Asleep := by
  have hfree : Asleep { s with ack := false, owner := .free } := h.same rfl rfl rfl (by simp)
  have hc' : Allowed { s with ack := false, owner := .free } wth c := by cases c <;> exact hc
  refine hfree.of (change_evWth hc') (fun ev v _ _ hst => ?_) fun _ _ _ hcall => ?_
  · rw [sameThreads_change.thr]
    exact hst
  · rw [sameThreads_change.owner] at hcall
    cases hcall

/-- The owner does so too, if it polls at rest. -/
theorem Asleep.ownerStep (hs : s.Handshake) (h : s.Asleep) (hrest : s.PollsRested op)
    (hstep : s.ownerStep s.owner op = some s') : s'.Asleep := by
  unfold Win32Evq.ownerStep at hstep
  split at hstep
  next ev ok w ho =>
    obtain ⟨⟨hev, hactive, -⟩, hs'⟩ := Option.ite_none_right_eq_some.mp hstep
    exact Option.some.inj hs' ▸ h.evqAdd ho hev hactive
  next ev ho =>
    obtain ⟨wth, hev, rfl⟩ := Option.map_eq_some_iff.mp hstep
    exact h.evqDel ho hev
  next ev ho =>
    obtain ⟨wth, -, rfl⟩ := Option.map_eq_some_iff.mp hstep
    exact h.evqTouch ho
  next ho =>
    obtain ⟨e, -, rfl⟩ := Option.map_eq_some_iff.mp hstep
    exact h.dispatch ho
  next ho =>
    split at hstep
    · exact Option.some.inj hstep ▸ h.same rfl rfl rfl (by simp)
    · obtain rfl := Option.some.inj hstep
      exact h.of (fun _ _ hv hact => ⟨hv, hact⟩) (fun _ _ _ _ hst => hst) fun _ _ _ _ => hrest
  next oldn polled ho =>
    obtain rfl := Option.some.inj hstep
    refine h.same rfl rfl rfl fun _ _ _ hcall => ?_
    rw [pollEnd] at hcall
    cases polled <;> cases hcall
  next w todo oldn polled ho => exact Option.some.inj hstep ▸ h.pollRound ho
  next ho => exact Option.some.inj hstep ▸ h.same rfl rfl rfl (by simp)
  next expired ho =>
    obtain ⟨hexp, hs'⟩ := Option.ite_none_right_eq_some.mp hstep
    exact Option.some.inj hs' ▸ h.waitExpired hexp
  next ho => exact Option.some.inj hstep ▸ h.same rfl rfl rfl (by simp)
  next i ho =>
    dsimp only at hstep
    split at hstep
    · exact Option.some.inj hstep ▸ h.same rfl rfl rfl (by simp)
    · obtain ⟨-, hs'⟩ := Option.ite_none_right_eq_some.mp hstep
      exact Option.some.inj hs' ▸ h.same rfl rfl rfl (by simp)
  next ho => exact Option.some.inj hstep ▸ h.same rfl rfl rfl (by simp)
  next ho => exact Option.some.inj hstep ▸ h.same rfl rfl rfl (by simp)
  next ho =>
    obtain rfl := Option.some.inj hstep
    refine h.same rfl rfl rfl fun _ _ _ hcall => ?_
    simp only [scanTo] at hcall
    split at hcall <;> cases hcall
  next wth todo signalled res expired ho =>
    obtain ⟨hexp, hs'⟩ := Option.ite_none_right_eq_some.mp hstep
    exact Option.some.inj hs' ▸ h.scanNext hs ho hexp
  next =>
    obtain ⟨hack, hs'⟩ := Option.ite_none_right_eq_some.mp hstep
    have howned := hs.owned
    rw [Owned] at howned
    split at hs'
    next w c ho =>
      rw [ho] at howned
      exact Option.some.inj hs' ▸ h.acked_change howned.2.2.1
    next w ev ok ho =>
      rw [ho] at howned
      obtain ⟨-, hev, hactive, hborn⟩ := howned
      rw [if_pos hack] at hborn
      exact Option.some.inj hs' ▸
        h.acked_change (c := .add ev ok) ⟨hev, hactive, by rw [hborn.2.1]; decide⟩
    next => exact Option.some.inj hs' ▸ h.same rfl rfl rfl (by simp)
    next => cases hs'
  next => cases hstep

theorem asleep_step (hs : s.Handshake) (h : s.Asleep) (hrest : s.PollsRested op)
    (hstep : s.step op = some s') : s'.Asleep := by
  unfold step at hstep
  split at hstep
  next =>
    obtain rfl := Option.some.inj hstep
    exact h.of (fun _ _ hv hact => ⟨hv, hact⟩) (fun _ _ _ _ hst => hst) h.calling
  all_goals first | exact h.thrStep hs hstep | exact h.ownerStep hs hrest hstep

omit [DecidableEq ε] in
/-- The thread of an active event is not in its wait. -/
theorem Asleep.safe (hs : s.Handshake) (h : s.Asleep) (op : Win32Op θ ε) : s.Safe op := by
  cases op with
  | del ev =>
      intro hactive w hev hwait
      have hphase := hs.phase w (hs.mem_threads hev)
      have hst := h.sleep ev w hev hactive
      generalize s.thr w = t at hphase hst hwait
      cases hphase <;> simp_all [ThrAt.InWait]
  | _ => trivial

end

/-! ## The list of the ready events -/

/-- The owner is in `evq_wait`, before its wait. -/
def polling : OwnerAt θ ε → Bool
  | .calling _ _ _ => true
  | .counting => true
  | .polled => true
  | _ => false

/-- The active events are on the list of the ready ones, which is empty during a poll. -/
structure Queued (s : Win32Evq θ ε) : Prop where
  mem : ∀ ev, s.active ev = true → ev ∈ s.evReady
  nil : polling s.owner = true → s.evReady = []

/-- The steps of a queue that is run by `sys_evq_loop`: `evq_wait` is called if no event is
ready. -/
def loopStep (s : Win32Evq θ ε) (op : Win32Op θ ε) : Option (Win32Evq θ ε) :=
  match op with
  | .pollBegin => if s.evReady = [] then s.step .pollBegin else none
  | op => s.step op

/-- A poll begins with an empty list. -/
def PollsIdle (s : Win32Evq θ ε) : Win32Op θ ε → Prop
  | .pollBegin => s.evReady = []
  | _ => True

theorem loopStep_eq_some {op : Win32Op θ ε} (h : s.loopStep op = some s') :
    s.PollsIdle op ∧ s.step op = some s' := by
  cases op with
  | pollBegin => exact Option.ite_none_right_eq_some.mp h
  | _ => exact ⟨trivial, h⟩

omit [DecidableEq θ] [DecidableEq ε] in
theorem queued_init (oneshot : ε → Bool) : (init oneshot : Win32Evq θ ε).Queued where
  mem _ h := nomatch h
  nil _ := rfl

section
variable {wth : Option θ} {c : WthChange ε} {w : θ} {op : Win32Op θ ε}

omit [DecidableEq θ] [DecidableEq ε] in
theorem Queued.rested (h : s.Queued) (hidle : s.PollsIdle op) : s.PollsRested op := by
  cases op with
  | pollBegin =>
      intro ev w _
      refine Bool.eq_false_iff.mpr fun hactive => ?_
      have hmem := h.mem ev hactive
      rw [show s.evReady = [] from hidle] at hmem
      cases hmem
  | _ => trivial

omit [DecidableEq θ] [DecidableEq ε] in
/-- The events and the list stay, and the owner does not begin a poll. -/
theorem Queued.of (h : s.Queued) (hactive : s'.active = s.active) (hready : s'.evReady = s.evReady)
    (ho : polling s'.owner = true → polling s.owner = true) : s'.Queued where
  mem ev hev := by
    rw [hready]
    exact h.mem ev (hactive ▸ hev)
  nil hp := hready.trans (h.nil (ho hp))

theorem Queued.change (h : s.Queued) : (s.change wth c).Queued := by
  have hsame : s.SameThreads (s.change wth c) := sameThreads_change
  refine h.of ?_ ?_ fun hp => hsame.owner ▸ hp
  · cases c with
    | add ev ok => cases ok <;> rfl
    | del ev => rfl
    | touch => rfl
  · cases c with
    | add ev ok => cases ok <;> rfl
    | del ev => rfl
    | touch => rfl

theorem Queued.win32thrSleep (h : s.Queued) : (s.win32thrSleep wth c).Queued := by
  cases wth with
  | none => exact h.change
  | some w =>
      rw [Win32Evq.win32thrSleep]
      split
      · exact h.of rfl rfl fun hp => absurd hp Bool.false_ne_true
      · exact h.change

omit [DecidableEq θ] in
/-- More events become ready. -/
theorem Queued.ready (h : s.Queued) {found : List ε} (hready : s'.evReady = found ++ s.evReady)
    (hactive : ∀ ev, s'.active ev = (s.active ev || decide (ev ∈ found)))
    (ho : polling s'.owner = false) : s'.Queued where
  mem ev hev := by
    rw [hactive] at hev
    rw [hready, List.mem_append]
    rcases Bool.or_eq_true_iff.mp hev with hold | hnew
    · exact .inr (h.mem ev hold)
    · exact .inl (of_decide_eq_true hnew)
  nil hp := absurd (ho.symm.trans hp) Bool.false_ne_true

omit [DecidableEq ε] in
theorem Queued.thrStep (h : s.Queued) (hstep : s.thrStep w (s.thr w).pc op = some s') :
    s'.Queued := by
  unfold Win32Evq.thrStep at hstep
  split at hstep
  next =>
    split at hstep
    · obtain ⟨-, hs'⟩ := Option.ite_none_right_eq_some.mp hstep
      exact Option.some.inj hs' ▸ h.of rfl rfl id
    · cases hstep
  next =>
    obtain ⟨-, hs'⟩ := Option.ite_none_right_eq_some.mp hstep
    exact Option.some.inj hs' ▸ h.of rfl rfl id
  next =>
    obtain ⟨-, hs'⟩ := Option.ite_none_right_eq_some.mp hstep
    exact Option.some.inj hs' ▸ h.of rfl rfl id
  next => exact Option.some.inj hstep ▸ h.of rfl rfl id
  next =>
    dsimp only at hstep
    split at hstep
    · exact Option.some.inj hstep ▸ h.of rfl rfl id
    · obtain ⟨-, hs'⟩ := Option.ite_none_right_eq_some.mp hstep
      exact Option.some.inj hs' ▸ h.of rfl rfl id
    · cases hstep
  next => exact Option.some.inj hstep ▸ h.of rfl rfl id
  next => exact Option.some.inj hstep ▸ h.of rfl rfl id
  next =>
    obtain ⟨-, hs'⟩ := Option.ite_none_right_eq_some.mp hstep
    exact Option.some.inj hs' ▸ h.of rfl rfl id
  next => cases hstep

theorem Queued.evqAdd {ev : ε} {ok : Bool} (h : s.Queued) : (s.evqAdd ev ok w).Queued := by
  rw [Win32Evq.evqAdd]
  split
  · exact h.win32thrSleep
  · exact h.of rfl rfl fun hp => absurd hp Bool.false_ne_true

theorem Queued.evqDel {ev : ε} (h : s.Queued) : (s.evqDel wth ev).Queued := by
  rw [Win32Evq.evqDel]
  split
  · exact h.of rfl rfl id
  · exact h.win32thrSleep

theorem Queued.evqTouch {ev : ε} (h : s.Queued) : (s.evqTouch wth ev).Queued := by
  rw [Win32Evq.evqTouch]
  split
  · exact h
  · exact h.win32thrSleep

omit [DecidableEq θ] in
/-- The first event of the list is dispatched. -/
theorem Queued.dispatch {e : ε} (h : s.Queued) (ho : s.owner = .free)
    (he : s.evReady.head? = some e) :
    Queued { s with evReady := s.evReady.tail, active := Function.update s.active e false } where
  mem ev hev := by
    have hne : ev ≠ e := by
      rintro rfl
      simp at hev
    have hmem := h.mem ev (by simpa [hne] using hev)
    cases hready : s.evReady with
    | nil =>
        rw [hready] at hmem
        cases hmem
    | cons e' rest =>
        rw [hready] at hmem he
        obtain rfl := Option.some.inj he
        exact (List.mem_cons.mp hmem).resolve_left hne
  nil hp := by
    change polling s.owner = true at hp
    rw [ho] at hp
    cases hp

omit [DecidableEq ε] in
theorem Queued.pollRound {todo : List θ} {oldn : ℕ} {polled : Bool} (h : s.Queued)
    (ho : polling s.owner = true) : (s.pollRound w todo oldn polled).Queued := by
  have hround : (s.pollRound w todo oldn polled).active = s.active ∧
      (s.pollRound w todo oldn polled).evReady = s.evReady := by
    rw [Win32Evq.pollRound, pollEnd]
    dsimp only
    split
    · split
      · split <;> exact ⟨rfl, rfl⟩
      · exact ⟨rfl, rfl⟩
    · exact ⟨rfl, rfl⟩
  exact h.of hround.1 hround.2 fun _ => ho

/-- The events that the loop over the records finds. -/
theorem Queued.scanNext {todo : List (Option θ)} {signalled : ε → Bool} {res : ε → Bool}
    {expired : List ε} (hs : s.Handshake) (h : s.Queued)
    (ho : s.owner = .scanning (wth :: todo)) :
    (((s.setSleep wth).scanWth wth signalled res expired).scanTo todo).Queued := by
  have hrec : (s.setSleep wth).Recorded := by
    have hr := (hs.setSleep ho).recorded
    exact ⟨hr.placed, hr.object, hr.last, hr.bound⟩
  have hsleep : (s.setSleep wth).Queued := by cases wth <;> exact ⟨h.mem, h.nil⟩
  have hnot : polling (((s.setSleep wth).scanWth wth signalled res expired).scanTo todo).owner =
      false := by
    simp only [scanTo]
    split <;> rfl
  obtain ⟨found, hready, hactive⟩ := hrec.scanWth_ready wth signalled res expired
  exact hsleep.ready hready hactive hnot

theorem Queued.ownerStep (hs : s.Handshake) (h : s.Queued) (hidle : s.PollsIdle op)
    (hstep : s.ownerStep s.owner op = some s') : s'.Queued := by
  unfold Win32Evq.ownerStep at hstep
  split at hstep
  next ev ok w ho =>
    obtain ⟨-, hs'⟩ := Option.ite_none_right_eq_some.mp hstep
    exact Option.some.inj hs' ▸ h.evqAdd
  next ev ho =>
    obtain ⟨wth, -, rfl⟩ := Option.map_eq_some_iff.mp hstep
    exact h.evqDel
  next ev ho =>
    obtain ⟨wth, -, rfl⟩ := Option.map_eq_some_iff.mp hstep
    exact h.evqTouch
  next ho =>
    obtain ⟨e, he, rfl⟩ := Option.map_eq_some_iff.mp hstep
    exact h.dispatch ho he
  next ho =>
    split at hstep
    · obtain rfl := Option.some.inj hstep
      exact ⟨h.mem, fun _ => hidle⟩
    · obtain rfl := Option.some.inj hstep
      exact ⟨h.mem, fun _ => hidle⟩
  next oldn polled ho =>
    exact Option.some.inj hstep ▸ h.of rfl rfl fun _ => by rw [ho]; rfl
  next w todo oldn polled ho =>
    exact Option.some.inj hstep ▸ h.pollRound (by rw [ho]; rfl)
  next ho => exact Option.some.inj hstep ▸ h.of rfl rfl fun hp => absurd hp Bool.false_ne_true
  next expired ho =>
    obtain ⟨-, hs'⟩ := Option.ite_none_right_eq_some.mp hstep
    obtain rfl := Option.some.inj hs'
    have hnil : s.evReady = [] := h.nil (by rw [ho]; rfl)
    exact h.ready (by rw [hnil]; rfl) (fun _ => rfl) rfl
  next ho => exact Option.some.inj hstep ▸ h.of rfl rfl fun hp => absurd hp Bool.false_ne_true
  next i ho =>
    dsimp only at hstep
    split at hstep
    · exact Option.some.inj hstep ▸ h.of rfl rfl fun hp => absurd hp Bool.false_ne_true
    · obtain ⟨-, hs'⟩ := Option.ite_none_right_eq_some.mp hstep
      exact Option.some.inj hs' ▸ h.of rfl rfl fun hp => absurd hp Bool.false_ne_true
  next ho => exact Option.some.inj hstep ▸ h.of rfl rfl fun hp => absurd hp Bool.false_ne_true
  next ho => exact Option.some.inj hstep ▸ h.of rfl rfl fun hp => absurd hp Bool.false_ne_true
  next ho =>
    obtain rfl := Option.some.inj hstep
    refine h.of rfl rfl fun hp => ?_
    simp only [scanTo] at hp
    split at hp <;> cases hp
  next wth todo signalled res expired ho =>
    obtain ⟨-, hs'⟩ := Option.ite_none_right_eq_some.mp hstep
    exact Option.some.inj hs' ▸ h.scanNext hs ho
  next =>
    obtain ⟨-, hs'⟩ := Option.ite_none_right_eq_some.mp hstep
    have hfree : Queued { s with ack := false, owner := .free } :=
      h.of rfl rfl fun hp => absurd hp Bool.false_ne_true
    split at hs'
    · exact Option.some.inj hs' ▸ hfree.change
    · exact Option.some.inj hs' ▸ hfree.change (c := .add _ _)
    next ho =>
      exact Option.some.inj hs' ▸ h.of rfl rfl fun _ => by rw [ho]; rfl
    · cases hs'
  next => cases hstep

theorem queued_step (hs : s.Handshake) (h : s.Queued) (hidle : s.PollsIdle op)
    (hstep : s.step op = some s') : s'.Queued := by
  unfold step at hstep
  split at hstep
  next => exact Option.some.inj hstep ▸ h.of rfl rfl id
  all_goals first | exact h.thrStep hstep | exact h.ownerStep hs hidle hstep

end

/-- The invariants along a run in which the queue is polled only if no event is ready. -/
structure Waits (s : Win32Evq θ ε) : Prop where
  handshake : s.Handshake
  asleep : s.Asleep
  queued : s.Queued

theorem idle_run (oneshot : ε → Bool) {ops : List (Win32Op θ ε)} {s : Win32Evq θ ε}
    (hrun : runOps loopStep (init oneshot) ops = some s) : s.Waits := by
  have hkeep : ∀ s s' : Win32Evq θ ε, (∃ op, s.loopStep op = some s') → s.Waits → s'.Waits := by
    rintro s s' ⟨op, hloop⟩ h
    obtain ⟨hidle, hstep⟩ := loopStep_eq_some hloop
    exact ⟨handshake_step h.handshake (h.asleep.safe h.handshake op) hstep,
      asleep_step h.handshake h.asleep (h.queued.rested hidle) hstep,
      queued_step h.handshake h.queued hidle hstep⟩
  exact inv_of_reach (I := Waits) hkeep
    ⟨handshake_init oneshot, asleep_init oneshot, queued_init oneshot⟩
    (reach_of_runOps (fun _ op _ hop => ⟨op, hop⟩) hrun)

omit [DecidableEq ε] in
/-- A thread in its wait waits for its events, for nothing else, and for its signal behind
them. -/
theorem Handshake.waiting (h : s.Handshake) {w : θ} {hs : List (WaitHandle ε)}
    (hpc : (s.thr w).pc = .waiting hs) :
    (∀ ev, .object ev ∈ hs ↔ s.evWth ev = some (some w)) ∧ hs.getLast? = some .signal ∧
      hs.length ≤ nevent := by
  have hwaits := h.waitsOnRecord w
  rw [hpc] at hwaits
  dsimp only at hwaits
  have hr := h.recorded
  have hlast := hr.last (some w)
  refine ⟨fun ev => ?_, ?_, ?_⟩
  · constructor
    · intro hev
      rw [hwaits, WthArrays.waitList, List.mem_map] at hev
      obtain ⟨i, hi, hobj⟩ := hev
      have hlt : i < (s.arrays (some w)).n := by
        refine Nat.lt_of_le_of_ne (Nat.le_of_lt_succ (List.mem_range.mp hi)) fun heq => ?_
        rw [heq, hlast] at hobj
        cases hobj
      obtain ⟨e, he, -, hindex⟩ := (hr.placed (some w)).mem_slot i (Nat.zero_le i) hlt
      rw [← hindex, hr.object (some w) e he] at hobj
      cases hobj
      exact he
    · intro hev
      rw [hwaits, WthArrays.waitList, List.mem_map]
      have hlt := (hr.placed (some w)).lt ev hev
      exact ⟨s.index ev, List.mem_range.mpr (Nat.lt_succ_of_lt hlt), hr.object (some w) ev hev⟩
  · rw [hwaits, WthArrays.waitList, List.range_succ, List.map_append, List.map_singleton, hlast,
      List.getLast?_concat]
  · rw [hwaits, WthArrays.waitList, List.length_map, List.length_range]
    have hbound := hr.bound (some w)
    rw [nevent] at hbound ⊢
    omega

/-- **The threads wait for their events.**  In every run of a queue that is polled only if no
event is ready, a thread in its wait waits for the events of its record, for nothing else, and
for its signal behind them. -/
theorem idle_run_waits (oneshot : ε → Bool) {ops : List (Win32Op θ ε)} {s : Win32Evq θ ε}
    (hrun : runOps loopStep (init oneshot) ops = some s) (w : θ) (hs : List (WaitHandle ε))
    (hpc : (s.thr w).pc = .waiting hs) :
    (∀ ev, .object ev ∈ hs ↔ s.evWth ev = some (some w)) ∧ hs.getLast? = some .signal ∧
      hs.length ≤ nevent :=
  (idle_run oneshot hrun).handshake.waiting hpc

theorem idle_run_waits_secondRecord :
    ∃ s : Win32Evq ℕ ℕ, runOps loopStep (init fun _ => false) secondRecordOps = some s ∧
      (s.thr 0).pc = .waiting [.object 62, .signal] ∧
      ∀ ev, WaitHandle.object ev ∈ [.object 62, .signal] ↔ s.evWth ev = some (some 0) := by
  have hrun : (runOps loopStep (init fun _ => false) secondRecordOps).map
      (fun s => (s.thr 0).pc) = some (.waiting [.object 62, .signal]) := by decide +kernel
  obtain ⟨s, hs, hpc⟩ := Option.map_eq_some_iff.mp hrun
  exact ⟨s, hs, hpc, (idle_run_waits _ hs 0 _ hpc).1⟩

end Win32Evq

end LuaSys.Event
