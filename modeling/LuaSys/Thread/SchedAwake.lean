import LuaSys.Thread.SchedWorkers
import Mathlib.Data.List.Nodup

/-!
# A scheduler that does not sleep on its work

A task becomes active by `sched_put`, `sched_resume`, `sched_terminate` or an event.
The first one signals the condition, or starts a thread, and the last one signals the
condition when a thread waits for it; the others do nothing.  So a run is fine as long
as each step that gives no sign of new work leaves a worker behind that goes on.

## Main definitions

* `SchedSys.Awake`, `SchedSys.Attended` — a worker goes on without help.
* `SchedOp.Safe` — the condition on the state before a step.

## Main results

* `safe_run_not_asleep` — no run of safe steps leads to a scheduler asleep.
* `resume_does_not_wake` — a resumed task, and a worker that is not woken for it.
-/

namespace LuaSys.Thread

open LuaSys.Lib

namespace SchedSys

variable {θ : Type*}

/-- The worker goes on without help. -/
def Awake (s : SchedSys θ) (w : θ) : Prop := s.place w ≠ .outside ∧ (s.place w).blocked = false

/-- One of the workers goes on, or there is none. -/
def Attended (s : SchedSys θ) : Prop := (∀ w, s.place w = .outside) ∨ ∃ w, s.Awake w

/-- The same without the worker `w`. -/
def AttendedWithout (s : SchedSys θ) (w : θ) : Prop :=
  (∀ w' ≠ w, s.place w' = .outside) ∨ ∃ w' ≠ w, s.Awake w'

end SchedSys

/-- The condition on the state before a step: an operation that makes the first task
active without waking a worker, or a worker that blocks in the event queue or leaves,
leaves behind a worker that goes on.  The counter of the waiting threads has 16 bits. -/
def SchedOp.Safe {θ : Type*} (s : SchedSys θ) : SchedOp θ → Prop
  | .put _ _ spawn => s.tasks.activeTaskId = none → s.nwaiters = 0 →
      (s.nworkers < s.maxWorkers → spawn = none) → s.Attended
  | .resume _ => s.tasks.activeTaskId = none → s.Attended
  | .terminate task interrupt => s.tasks.activeTaskId = none → s.tasks.suspended task = true →
      (s.tasks.evOp task ≠ none → ∀ w ∈ interrupt, s.place w ≠ .evqWait false) → s.Attended
  | .eventAdded task ev _ => s.tasks.activeTaskId = none → s.nwaiters = 0 → ev = none →
      s.tasks.suspended task = true → s.Attended
  | .eventReady task ev _ => s.tasks.activeTaskId = none → s.nwaiters = 0 →
      s.tasks.evOp task = some ev → s.Attended
  | .stop b _ => b = false → s.tasks.activeTaskId ≠ none → s.nwaiters = 0 → s.Attended
  | .idle _ => s.nwaiters + 1 < 2 ^ 16
  | .evqBlock w => s.tasks.activeTaskId ≠ none → s.stop = false → ∃ w' ≠ w, s.Awake w'
  | .leave w _ => s.tasks.activeTaskId ≠ none → s.stop = false →
      (s.evqWaiting = false → s.evq ≠ none → s.nwaiters = (s.nworkers + (2 ^ 16 - 1)) % 2 ^ 16 →
        s.nwaiters = 0) → s.AttendedWithout w
  | .abort w => s.tasks.activeTaskId ≠ none → s.stop = false → s.AttendedWithout w
  | _ => True

namespace SchedSys

variable {θ : Type*} {s s' : SchedSys θ} {w pick : θ}

/-- The threads that wait for the condition are counted. -/
def Counted (s : SchedSys θ) : Prop :=
  s.nwaiters < 2 ^ 16 ∧
    ∃ l : List θ, l.Nodup ∧ (∀ w, w ∈ l ↔ (s.place w).counted = true) ∧ l.length = s.nwaiters

/-- Somebody waits for the condition when the counter is not zero. -/
theorem Counted.exists_counted (h : s.Counted) (hn : s.nwaiters ≠ 0) :
    ∃ w, (s.place w).counted = true := by
  obtain ⟨-, l, -, hl, hlen⟩ := h
  obtain ⟨w, hw⟩ := List.exists_mem_of_length_pos (show 0 < l.length by omega)
  exact ⟨w, (hl w).mp hw⟩

/-- The places change, but not the threads that are counted. -/
theorem Counted.congr (h : s.Counted) (hn : s'.nwaiters = s.nwaiters)
    (hp : ∀ w, (s'.place w).counted = (s.place w).counted) : s'.Counted := by
  obtain ⟨hlt, l, hnd, hl, hlen⟩ := h
  exact ⟨hn ▸ hlt, l, hnd, fun w => by rw [hp, hl], hn ▸ hlen⟩

theorem not_asleep_of_awake (h : s.Awake w) : ¬s.Asleep := by
  rintro ⟨-, -, -, hall⟩
  have := hall w h.1
  simp [h.2] at this

theorem not_asleep_of_idle (h : s.tasks.activeTaskId = none) : ¬s.Asleep := fun hs => hs.1 h

theorem Attended.not_asleep (h : s.Attended) : ¬s.Asleep := by
  rcases h with hout | ⟨w, hw⟩
  · rintro ⟨-, ⟨w, hw⟩, -⟩
    exact hw (hout w)
  · exact not_asleep_of_awake hw

/-- While there is an active task, a scheduler that is not asleep is attended. -/
theorem attended_of_not_asleep (h : ¬s.Asleep) (hactive : s.tasks.activeTaskId ≠ none)
    (hstop : s.stop = false) : s.Attended := by
  by_contra hnot
  rw [Attended, not_or] at hnot
  refine h ⟨hactive, not_forall.mp hnot.1, hstop, fun w hw => ?_⟩
  by_contra hb
  exact hnot.2 ⟨w, hw, by simpa using hb⟩

/-- The scheduler is not asleep, and the counter is right. -/
def Sound (s : SchedSys θ) : Prop := ¬s.Asleep ∧ s.Counted

theorem init_sound (maxWorkers : ℕ) : (init maxWorkers : SchedSys θ).Sound :=
  ⟨not_asleep_of_idle rfl, Nat.two_pow_pos 16, [], List.nodup_nil, by simp [init, Place.counted], rfl⟩

/-- The threads stay where they are while a task becomes active. -/
theorem Sound.withTasks (h : s.Sound) (t : Sched)
    (hsafe : s.tasks.activeTaskId = none → t.activeTaskId ≠ none → s.Attended) :
    Sound { s with tasks := t } := by
  refine ⟨?_, h.2⟩
  by_cases hactive : s.tasks.activeTaskId = none
  · intro hasleep
    have hatt : Attended { s with tasks := t } := hsafe hactive hasleep.1
    exact hatt.not_asleep hasleep
  · rintro ⟨-, hin, hstop, hall⟩
    exact h.1 ⟨hactive, hin, hstop, hall⟩

section Threads

variable [DecidableEq θ]

/-- The transitions of a run with safe steps only. -/
def SafeStep (s s' : SchedSys θ) : Prop :=
  ∃ op : SchedOp θ, op.Picks s ∧ op.Safe s ∧ s.step op = some s'

/-- A thread goes to a place of the same kind. -/
theorem Counted.goto (h : s.Counted) {p : Place} (hp : p.counted = (s.place w).counted)
    (hn : s'.nwaiters = s.nwaiters) (hs' : s'.place = (s.goto w p).place) : s'.Counted := by
  refine h.congr hn fun w' => ?_
  rw [hs']
  by_cases hw : w' = w
  · rw [hw, goto_self, hp]
  · rw [goto_of_ne s hw]

/-- A thread begins to wait. -/
theorem Counted.wait (h : s.Counted) (hw : (s.place w).counted = false)
    (hn : s.nwaiters + 1 < 2 ^ 16) :
    Counted (({ s with nwaiters := (s.nwaiters + 1) % 2 ^ 16 }).goto w .condWait) := by
  obtain ⟨-, l, hnd, hl, hlen⟩ := h
  have hmod : (s.nwaiters + 1) % 2 ^ 16 = s.nwaiters + 1 := Nat.mod_eq_of_lt hn
  refine ⟨by simp only [SchedSys.goto, hmod]; exact hn, w :: l, List.nodup_cons.mpr ⟨?_, hnd⟩,
    fun w' => ?_, ?_⟩
  · rw [hl, hw]
    simp
  · rw [List.mem_cons, hl]
    by_cases hww : w' = w
    · simp [SchedSys.goto, hww, Place.counted]
    · simp [SchedSys.goto, hww]
  · simp only [List.length_cons, SchedSys.goto, hmod, hlen]

/-- A thread stops to wait. -/
theorem Counted.wake (h : s.Counted) (hw : (s.place w).counted = true) :
    Counted (({ s with nwaiters := (s.nwaiters + (2 ^ 16 - 1)) % 2 ^ 16 }).goto w .loop) := by
  obtain ⟨hlt, l, hnd, hl, hlen⟩ := h
  have hmem : w ∈ l := (hl w).mpr hw
  have hpos : 0 < l.length := List.length_pos_of_mem hmem
  have hmod : (s.nwaiters + (2 ^ 16 - 1)) % 2 ^ 16 = s.nwaiters - 1 := by omega
  refine ⟨by simp only [SchedSys.goto, hmod]; omega, l.erase w, hnd.erase w, fun w' => ?_, ?_⟩
  · rw [hnd.mem_erase_iff, hl]
    by_cases hww : w' = w
    · simp [SchedSys.goto, hww, Place.counted]
    · simp [SchedSys.goto, hww]
  · simp only [List.length_erase_of_mem hmem, SchedSys.goto, hmod, hlen]

/-! ## Workers that go on -/

/-- A thread that has gone on. -/
theorem awake_goto {p : Place} (hs' : s'.place = (s.goto w p).place) (hp : p ≠ .outside)
    (hb : p.blocked = false) : s'.Awake w := by
  have hw : s'.place w = p := by
    rw [hs', goto_self]
  exact ⟨hw ▸ hp, hw ▸ hb⟩

/-- The other threads stay where they are. -/
theorem Awake.goto {w' : θ} (h : s.Awake w') {p : Place} (hs' : s'.place = (s.goto w p).place)
    (hne : w' ≠ w) : s'.Awake w' := by
  have hw : s'.place w' = s.place w' := by
    rw [hs', goto_of_ne s hne]
  rw [Awake, hw]
  exact h

/-- A signal concerns the threads that wait for the condition only. -/
theorem place_condSignal (h : s.place w ≠ .condWait) : (s.condSignal pick).place w = s.place w := by
  unfold SchedSys.condSignal
  split
  · next hpick =>
    have hne : w ≠ pick := by
      rintro rfl
      exact h hpick
    rw [goto_of_ne s hne]
  · rfl

theorem Awake.condSignal (h : s.Awake w) (pick : θ) : (s.condSignal pick).Awake w := by
  have hw : s.place w ≠ .condWait := by
    intro hw
    have := h.2
    simp [hw, Place.blocked] at this
  rw [Awake, place_condSignal hw]
  exact h

theorem Attended.condSignal (h : s.Attended) (pick : θ) : (s.condSignal pick).Attended := by
  rcases h with hout | ⟨w, hw⟩
  · exact Or.inl fun w => (place_condSignal (by simp [hout w])).trans (hout w)
  · exact Or.inr ⟨w, hw.condSignal pick⟩

theorem Counted.condSignal (h : s.Counted) (pick : θ) : (s.condSignal pick).Counted := by
  unfold SchedSys.condSignal
  split
  · next hpick => exact h.goto (by rw [hpick]; rfl) rfl rfl
  · exact h

theorem condSignal_same (s : SchedSys θ) (pick : θ) :
    (s.condSignal pick).tasks = s.tasks ∧ (s.condSignal pick).stop = s.stop := by
  unfold SchedSys.condSignal
  split <;> exact ⟨rfl, rfl⟩

/-- When somebody waits, somebody goes on after a signal. -/
theorem exists_awake_condSignal (hcount : ∃ w, (s.place w).counted = true)
    (hpick : s.place pick = .condWait ∨ ∀ w, s.place w ≠ .condWait) :
    ∃ w, (s.condSignal pick).Awake w := by
  unfold SchedSys.condSignal
  rcases hpick with hpick | hnone
  · rw [if_pos hpick]
    exact ⟨pick, awake_goto rfl (by simp) rfl⟩
  · rw [if_neg (hnone pick)]
    obtain ⟨w, hw⟩ := hcount
    refine ⟨w, ?_, ?_⟩
    · rintro heq
      simp [heq, Place.counted] at hw
    · have hne := hnone w
      cases hp : s.place w with
      | condWait => exact absurd hp hne
      | condSignalled => rfl
      | condTimedOut => rfl
      | outside => simp [hp, Place.counted] at hw
      | loop => simp [hp, Place.counted] at hw
      | task id => simp [hp, Place.counted] at hw
      | evqLoop => simp [hp, Place.counted] at hw
      | evqWait b => simp [hp, Place.counted] at hw

/-! ## Steps -/

/-- A signal does no harm. -/
theorem Sound.condSignal (h : s.Sound) (pick : θ) : (s.condSignal pick).Sound := by
  obtain ⟨htasks, hstop⟩ := s.condSignal_same pick
  refine ⟨fun hasleep => ?_, h.2.condSignal pick⟩
  have hatt := attended_of_not_asleep h.1 (htasks ▸ hasleep.1) (hstop ▸ hasleep.2.2.1)
  exact (hatt.condSignal pick).not_asleep hasleep

/-- A worker goes on. -/
theorem Sound.proceed (h : s.Sound) {p : Place} (hp : p ≠ .outside) (hb : p.blocked = false)
    (hc : p.counted = (s.place w).counted) (hn : s'.nwaiters = s.nwaiters)
    (hs' : s'.place = (s.goto w p).place) : s'.Sound :=
  ⟨not_asleep_of_awake (awake_goto hs' hp hb), h.2.goto hc hn hs'⟩

theorem Sound.notify (h : s.Sound) {spawn : Option θ} (t : Sched)
    (hpick : s.place pick = .condWait ∨ ∀ w, s.place w ≠ .condWait)
    (hspawn : ∀ w ∈ spawn, s.place w = .outside)
    (hsafe : s.nwaiters = 0 → (s.nworkers < s.maxWorkers → spawn = none) → s.Attended) :
    Sound (({ s with tasks := t }).notify pick spawn) := by
  unfold SchedSys.notify
  split
  · next hn =>
    obtain ⟨w, hw⟩ := exists_awake_condSignal (s := { s with tasks := t }) (h.2.exists_counted hn) hpick
    have hcount : Counted { s with tasks := t } := h.2
    exact ⟨not_asleep_of_awake hw, hcount.condSignal pick⟩
  · next hn =>
    rw [ne_eq, not_not] at hn
    split
    · next hlt =>
      cases spawn with
      | some w =>
          refine ⟨not_asleep_of_awake (awake_goto rfl (by simp) rfl), h.2.goto (w := w) (p := .loop) ?_ rfl rfl⟩
          rw [hspawn w rfl]
          rfl
      | none => exact h.withTasks t fun _ _ => hsafe hn fun _ => rfl
    · next hle => exact h.withTasks t fun _ _ => hsafe hn fun hlt => absurd hlt hle

/-- A task becomes active after a notification. -/
theorem Sound.notifyReady (h : s.Sound) (t : Sched)
    (hpick : s.place pick = .condWait ∨ ∀ w, s.place w ≠ .condWait)
    (hsafe : s.tasks.activeTaskId = none → s.nwaiters = 0 → s.Attended) :
    Sound { s.notifyReady pick with tasks := t } := by
  unfold SchedSys.notifyReady
  split
  · next hn =>
    obtain ⟨w, hw⟩ := exists_awake_condSignal (h.2.exists_counted hn.2) hpick
    exact ⟨not_asleep_of_awake (s := { s.condSignal pick with tasks := t }) hw,
      Counted.condSignal h.2 pick⟩
  · next hn =>
    refine h.withTasks t fun hactive _ => hsafe hactive ?_
    by_contra hne
    exact hn ⟨hactive, hne⟩

/-- An event that is interrupted makes its worker go on. -/
theorem Sound.evqSignal (h : s.Sound) (t : Sched) {interrupt : Option θ}
    (hsafe : s.tasks.activeTaskId = none → t.activeTaskId ≠ none →
      (∀ w ∈ interrupt, s.place w ≠ .evqWait false) → s.Attended) :
    Sound (({ s with tasks := t }).evqSignal interrupt) := by
  cases interrupt with
  | none => exact h.withTasks t fun hactive ht => hsafe hactive ht (by simp)
  | some w =>
      simp only [SchedSys.evqSignal]
      split
      · next hw => exact h.proceed (by simp) rfl (by rw [hw]; rfl) rfl rfl
      · next hw => exact h.withTasks t fun hactive ht => hsafe hactive ht (by simpa using hw)

theorem Sound.stop (h : s.Sound) {b : Bool}
    (hpick : s.place pick = .condWait ∨ ∀ w, s.place w ≠ .condWait)
    (hsafe : b = false → s.tasks.activeTaskId ≠ none → s.nwaiters = 0 → s.Attended) :
    Sound (({ s with stop := b }).condSignal pick) := by
  have hcount : Counted { s with stop := b } := h.2
  by_cases hn : s.nwaiters = 0
  · refine Sound.condSignal ⟨?_, hcount⟩ pick
    intro hasleep
    have hatt : Attended { s with stop := b } := hsafe hasleep.2.2.1 hasleep.1 hn
    exact hatt.not_asleep hasleep
  · refine ⟨?_, hcount.condSignal pick⟩
    obtain ⟨w, hw⟩ := exists_awake_condSignal (s := { s with stop := b }) (h.2.exists_counted hn) hpick
    exact not_asleep_of_awake hw

/-- A worker leaves without a signal. -/
theorem Sound.goAway (h : s.Sound) (hw : (s.place w).counted = false)
    (hsafe : s.tasks.activeTaskId ≠ none → s.stop = false → s.AttendedWithout w)
    (htasks : s'.tasks = s.tasks) (hstop : s'.stop = s.stop) (hn : s'.nwaiters = s.nwaiters)
    (hs' : s'.place = (s.goto w .outside).place) : s'.Sound := by
  refine ⟨?_, h.2.goto (by rw [hw]; rfl) hn hs'⟩
  rintro ⟨hactive, ⟨w₁, hw₁⟩, hstop', hall⟩
  have hne : ∀ w', s'.place w' ≠ .outside → w' ≠ w := by
    rintro w' hw' rfl
    rw [hs', goto_self] at hw'
    exact hw' rfl
  rcases hsafe (htasks ▸ hactive) (hstop ▸ hstop') with hout | ⟨w', hw', hawake⟩
  · refine hw₁ ?_
    rw [hs', goto_of_ne s (hne w₁ hw₁)]
    exact hout w₁ (hne w₁ hw₁)
  · have := hawake.goto hs' hw'
    have hblocked := hall w' this.1
    simp [this.2] at hblocked

/-- The end of the loop in terms of the number of workers that are left. -/
theorem loopEnd_eq (s : SchedSys θ) (w pick : θ) :
    ∃ k, k = (s.nworkers + (2 ^ 16 - 1)) % 2 ^ 16 ∧ s.loopEnd w pick =
      if s.stop = false ∧ s.evqWaiting = false ∧ s.evq ≠ none ∧ s.nwaiters = k then
        ({ s.goto w .outside with nworkers := k }).condSignal pick
      else { s.goto w .outside with nworkers := k } :=
  ⟨_, rfl, rfl⟩

/-- A worker leaves; when all the others wait for the condition, one of them takes over
the event queue. -/
theorem Sound.loopEnd (h : s.Sound) (hw : s.place w = .loop)
    (hpick : s.place pick = .condWait ∨ ∀ w, s.place w ≠ .condWait)
    (hsafe : s.tasks.activeTaskId ≠ none → s.stop = false →
      (s.evqWaiting = false → s.evq ≠ none → s.nwaiters = (s.nworkers + (2 ^ 16 - 1)) % 2 ^ 16 →
        s.nwaiters = 0) → s.AttendedWithout w) : (s.loopEnd w pick).Sound := by
  have hnot : (s.place w).counted = false := by
    rw [hw]
    rfl
  have hcount : Counted (s.goto w .outside) := h.2.goto (p := .outside) (hnot ▸ rfl) rfl rfl
  have hpick' : (s.goto w .outside).place pick = .condWait ∨
      ∀ w', (s.goto w .outside).place w' ≠ .condWait := by
    rcases hpick with hpick | hnone
    · have hne : pick ≠ w := by
        rintro rfl
        simp [hw] at hpick
      exact Or.inl (by rw [goto_of_ne s hne, hpick])
    · refine Or.inr fun w' => ?_
      by_cases hww : w' = w
      · simp [hww]
      · rw [goto_of_ne s hww]
        exact hnone w'
  obtain ⟨k, hk, hend⟩ := s.loopEnd_eq w pick
  rw [← hk] at hsafe
  rw [hend]
  have hcount' : Counted { s.goto w .outside with nworkers := k } := hcount
  split
  · next hcond =>
    by_cases hn : s.nwaiters = 0
    · have hgo : Sound { s.goto w .outside with nworkers := k } :=
        h.goAway hnot (fun ha hs => hsafe ha hs fun _ _ _ => hn) rfl rfl rfl rfl
      exact hgo.condSignal pick
    · obtain ⟨w', hw'⟩ := exists_awake_condSignal (hcount'.exists_counted hn) hpick'
      exact ⟨not_asleep_of_awake hw', hcount'.condSignal pick⟩
  · next hcond =>
    refine h.goAway hnot (fun ha hs => hsafe ha hs fun h₁ h₂ h₃ => ?_) rfl rfl rfl rfl
    exact absurd ⟨hs, h₁, h₂, h₃⟩ hcond

theorem loopEnd_of_stop (h : s.stop = true) (w pick : θ) :
    ∃ k, s.loopEnd w pick = { s.goto w .outside with nworkers := k } := by
  obtain ⟨k, -, hend⟩ := s.loopEnd_eq w pick
  refine ⟨k, ?_⟩
  rw [hend]
  exact if_neg fun hcond => absurd (h.symm.trans hcond.1) (by simp)

/-- A worker blocks in the event queue. -/
theorem Sound.evqBlock (h : s.Sound) (hw : s.place w = .evqLoop)
    (hsafe : s.tasks.activeTaskId ≠ none → s.stop = false → ∃ w' ≠ w, s.Awake w') :
    (s.goto w (.evqWait false)).Sound := by
  refine ⟨fun hasleep => ?_, h.2.goto (p := .evqWait false) (by rw [hw]; rfl) rfl rfl⟩
  obtain ⟨w', hne, hawake⟩ := hsafe hasleep.1 hasleep.2.2.1
  exact not_asleep_of_awake (hawake.goto rfl hne) hasleep

theorem Sound.loopIdle (h : s.Sound) (hw : s.place w = .loop) (hactive : s.tasks.activeTaskId = none)
    (hsafe : s.nwaiters + 1 < 2 ^ 16) : (s.loopIdle w).Sound := by
  unfold SchedSys.loopIdle
  split
  · exact h.proceed (by simp) rfl (by rw [hw]; rfl) rfl rfl
  · exact ⟨not_asleep_of_idle hactive, h.2.wait (by rw [hw]; rfl) hsafe⟩

/-- A worker goes on with the loop or with a task. -/
theorem Sound.task {op : SchedOp θ} (h : s.Sound) (hw : op.taskWorker = some w)
    (hop : s.step op = some s') : s'.Sound := by
  obtain ⟨t, id, c, hplace, rfl⟩ := task_of_step hw hop
  have hcounted : (s.place w).counted = false := by
    rcases hplace with hplace | hplace <;> rw [hplace] <;> rfl
  cases c
  · exact h.proceed (by simp) rfl (by rw [hcounted]; rfl) rfl rfl
  · exact h.proceed (by simp) rfl (by rw [hcounted]; rfl) rfl rfl

theorem Sound.put {realloc : Bool} {spawn : Option θ} (h : s.Sound)
    (hpick : (SchedOp.put realloc pick spawn).Picks s)
    (hsafe : (SchedOp.put realloc pick spawn).Safe s)
    (hop : s.step (.put realloc pick spawn) = some s') : s'.Sound := by
  obtain ⟨t, -, hop⟩ := Option.bind_eq_some_iff.mp hop
  obtain ⟨hspawn, heq⟩ := Option.ite_none_right_eq_some.mp hop
  split at heq
  · next hactive => exact Option.some.inj heq ▸ h.notify t hpick hspawn (hsafe hactive)
  · next hactive =>
    exact Option.some.inj heq ▸ h.withTasks t fun hnone _ => absurd hnone hactive

/-- The task becomes active only when it was suspended. -/
theorem Sound.terminate {task : ℕ} {interrupt : Option θ} (h : s.Sound)
    (hsafe : (SchedOp.terminate task interrupt).Safe s)
    (hop : s.step (.terminate task interrupt) = some s') : s'.Sound := by
  have hsus : s.tasks.activeTaskId = none → (s.tasks.schedTerminate task).activeTaskId ≠ none →
      s.tasks.suspended task = true := by
    intro hactive hne
    by_contra hsus
    rw [Sched.activeTaskId_schedTerminate (by simpa using hsus)] at hne
    exact hne hactive
  simp only [step] at hop
  split at hop
  · next hev =>
    rw [← Option.some.inj hop]
    exact h.evqSignal _ fun ha ht hw => hsafe ha (hsus ha ht) fun _ => hw
  · next hev =>
    rw [← Option.some.inj hop]
    refine h.withTasks _ fun ha ht => hsafe ha (hsus ha ht) fun hne => ?_
    -- A task that is not in the buffer does not change.
    exact absurd ha (by rwa [Sched.schedTerminate, if_neg fun hid => hev ⟨hid, hne⟩] at ht)

theorem Sound.eventAdded {task : ℕ} {ev : Option ℕ} (h : s.Sound)
    (hpick : (SchedOp.eventAdded task ev pick).Picks s)
    (hsafe : (SchedOp.eventAdded task ev pick).Safe s)
    (hop : s.step (.eventAdded task ev pick) = some s') : s'.Sound := by
  obtain ⟨-, heq⟩ := Option.ite_none_right_eq_some.mp hop
  rw [← Option.some.inj heq]
  split
  · next hev => exact h.notifyReady _ hpick fun ha hn => hsafe ha hn hev.1 hev.2
  · next hev =>
    refine h.withTasks _ fun ha hne => absurd ha ?_
    rwa [Sched.activeTaskId_eventAdded hev] at hne

theorem Sound.eventReady {task ev : ℕ} (h : s.Sound)
    (hpick : (SchedOp.eventReady task ev pick).Picks s)
    (hsafe : (SchedOp.eventReady task ev pick).Safe s)
    (hop : s.step (.eventReady task ev pick) = some s') : s'.Sound := by
  obtain ⟨-, heq⟩ := Option.ite_none_right_eq_some.mp hop
  rw [← Option.some.inj heq]
  split
  · next hev => exact h.notifyReady _ hpick fun ha hn => hsafe ha hn hev
  · next hev =>
    rw [Sched.eventReady, if_pos hev]
    exact h

/-- A thread leaves a loop that is to stop: no task has to be attended any more. -/
theorem Sound.leaveStop (h : s.Sound) (hop : s.step (.leaveStop w pick) = some s') : s'.Sound := by
  obtain ⟨⟨hw, hstop⟩, heq⟩ := Option.ite_none_right_eq_some.mp hop
  rw [← Option.some.inj heq]
  have hw' : (s.condSignal pick).place w = .loop := (place_condSignal (by simp [hw])).trans hw
  have hstop' : (s.condSignal pick).stop = true := (s.condSignal_same pick).2.trans hstop
  obtain ⟨k, hend⟩ := loopEnd_of_stop hstop' w pick
  rw [hend]
  refine (h.condSignal pick).goAway (by rw [hw']; rfl) (fun _ hs => ?_) rfl rfl rfl rfl
  exact absurd (hstop'.symm.trans hs) (by simp)

theorem Sound.abort (h : s.Sound) (hsafe : (SchedOp.abort w).Safe s)
    (hop : s.step (.abort w) = some s') : s'.Sound := by
  simp only [step] at hop
  split at hop
  · next hw => exact Option.some.inj hop ▸ h.goAway (by rw [hw]; rfl) hsafe rfl rfl rfl rfl
  · next id hw => exact Option.some.inj hop ▸ h.goAway (by rw [hw]; rfl) hsafe rfl rfl rfl rfl
  · next hw => exact Option.some.inj hop ▸ h.goAway (by rw [hw]; rfl) hsafe rfl rfl rfl rfl
  · exact absurd hop (by simp)

/-- A safe step does not put the scheduler to sleep. -/
theorem SafeStep.sound (hstep : SafeStep s s') (h : s.Sound) : s'.Sound := by
  obtain ⟨op, hpick, hsafe, hop⟩ := hstep
  cases op with
  | put realloc pick spawn => exact h.put hpick hsafe hop
  | resume task =>
      obtain ⟨t, -, heq⟩ := Option.map_eq_some_iff.mp hop
      exact heq ▸ h.withTasks t fun hactive _ => hsafe hactive
  | terminate task interrupt => exact h.terminate hsafe hop
  | eventAdded task ev pick => exact h.eventAdded hpick hsafe hop
  | eventReady task ev pick => exact h.eventReady hpick hsafe hop
  | stop b pick => exact Option.some.inj hop ▸ h.stop hpick hsafe
  | eventQueue evq =>
      obtain ⟨-, heq⟩ := Option.ite_none_right_eq_some.mp hop
      exact Option.some.inj heq ▸ h
  | enter w =>
      obtain ⟨hw, heq⟩ := Option.ite_none_right_eq_some.mp hop
      rw [← Option.some.inj heq]
      exact h.proceed (by simp) rfl (by rw [hw]; rfl) rfl rfl
  | take w => exact h.task rfl hop
  | yield w => exact h.task rfl hop
  | done w => exact h.task rfl hop
  | suspend w canYield => exact h.task rfl hop
  | eventAdd w res canYield => exact h.task rfl hop
  | idle w =>
      obtain ⟨⟨hw, -, hactive⟩, heq⟩ := Option.ite_none_right_eq_some.mp hop
      exact Option.some.inj heq ▸ h.loopIdle hw hactive hsafe
  | condTimeout w =>
      obtain ⟨hw, heq⟩ := Option.ite_none_right_eq_some.mp hop
      rw [← Option.some.inj heq]
      exact h.proceed (by simp) rfl (by rw [hw]; rfl) rfl rfl
  | condWake w =>
      obtain ⟨hw, heq⟩ := Option.ite_none_right_eq_some.mp hop
      rw [← Option.some.inj heq]
      exact ⟨not_asleep_of_awake (awake_goto rfl (by simp) rfl), h.2.wake hw⟩
  | evqBlock w =>
      obtain ⟨hw, heq⟩ := Option.ite_none_right_eq_some.mp hop
      exact Option.some.inj heq ▸ h.evqBlock hw hsafe
  | evqInterrupt w =>
      obtain ⟨hw, heq⟩ := Option.ite_none_right_eq_some.mp hop
      rw [← Option.some.inj heq]
      exact h.proceed (by simp) rfl (by rw [hw]; rfl) rfl rfl
  | evqWake w =>
      simp only [step] at hop
      split at hop
      · next b hw =>
        rw [← Option.some.inj hop]
        exact h.proceed (by simp) rfl (by rw [hw]; rfl) rfl rfl
      · exact absurd hop (by simp)
  | evqReturn w =>
      obtain ⟨hw, heq⟩ := Option.ite_none_right_eq_some.mp hop
      rw [← Option.some.inj heq]
      exact h.proceed (by simp) rfl (by rw [hw]; rfl) rfl rfl
  | leave w pick =>
      obtain ⟨hw, heq⟩ := Option.ite_none_right_eq_some.mp hop
      exact Option.some.inj heq ▸ h.loopEnd hw hpick hsafe
  | leaveStop w pick => exact h.leaveStop hop
  | abort w => exact h.abort hsafe hop

end Threads

end SchedSys

/-- **The scheduler does not sleep on its work.**  In every run of safe steps, for any
threads, a scheduler with an active task has a worker that goes on, or no worker. -/
theorem safe_run_not_asleep {θ : Type*} [DecidableEq θ] {maxWorkers : ℕ} {s : SchedSys θ}
    (hrun : Relation.ReflTransGen SchedSys.SafeStep (SchedSys.init maxWorkers) s) : ¬s.Asleep :=
  (inv_of_reach (fun _ _ hstep => hstep.sound) (SchedSys.init_sound maxWorkers) hrun).1

/-- A worker waits for the condition, and `sched_put` wakes it. -/
theorem safe_run_not_asleep_put :
    ∃ s : SchedSys (Fin 2), Relation.ReflTransGen SchedSys.SafeStep (SchedSys.init 1) s ∧
      s.tasks.activeTaskId = some 0 ∧ s.place 0 = .condSignalled ∧ ¬s.Asleep := by
  have hrun : Relation.ReflTransGen SchedSys.SafeStep (SchedSys.init 1 : SchedSys (Fin 2)) _ :=
    .tail (.tail (.tail .refl
      ⟨.enter 0, trivial, trivial, rfl⟩)
      ⟨.idle 0, trivial, show 0 + 1 < 2 ^ 16 by decide, rfl⟩)
      ⟨.put true 0 none, Or.inl rfl, fun _ h => absurd h (by decide), rfl⟩
  exact ⟨_, hrun, rfl, rfl, safe_run_not_asleep hrun⟩

/-- The only worker waits for the condition when its task, which had suspended itself, is
resumed: the task is active, and nobody wakes the worker. -/
theorem resume_does_not_wake :
    ∃ s : SchedSys (Fin 2), Relation.ReflTransGen SchedSys.Step (SchedSys.init 1) s ∧ s.Asleep := by
  have hrun : Relation.ReflTransGen SchedSys.Step (SchedSys.init 1 : SchedSys (Fin 2)) _ :=
    .tail (.tail (.tail (.tail (.tail (.tail .refl
      ⟨.enter 0, trivial, rfl⟩)
      ⟨.put true 0 none, Or.inr (by decide), rfl⟩)
      ⟨.take 0, trivial, rfl⟩)
      ⟨.suspend 0 true, trivial, rfl⟩)
      ⟨.idle 0, trivial, rfl⟩)
      ⟨.resume 0, trivial, rfl⟩
  exact ⟨_, hrun, by decide, ⟨0, by decide⟩, rfl, by decide⟩

end LuaSys.Thread
