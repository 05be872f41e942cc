import LuaSys.Lib.Run
import LuaSys.Thread.PipeThreads

/-!
# The conditions of the threads

The condition in the descriptor of a thread has three uses: the thread waits on it in
`sys_thread_suspend`, others wait on it in `thread_wait` for the end of the thread, and if the
thread is the first one of its VM, they wait on it in `thread_waitvm` for the end of its workers.
Each of the three waits is a loop that tests something of its own: the state of the thread, its
flags for `SYS_THREAD_KILLED`, and whether `nref` is zero.  These tests are what the results are
about; the flags say more and less than that a thread has ended, and `nref` counts what
`thread.run` and `thread.runvm` have not given back after an error.

POSIX wakes all the threads on a condition, and a thread for which nothing has changed waits again.
Windows, with its condition variables, wakes one of them.  If this is the wrong one, it waits again,
and the thread that could go on stays blocked.

The wait for the end of a thread uses a handle on Windows, and is not a step here.

## Main definitions

* `CondUse` — what a thread waits for; `CondUse.owner` says on whose condition.
* `CondThreads`, `CondOp`, `CondThreads.step` — the threads of a VM, and their steps.
* `CondThreads.Stranded` — a thread is blocked, though what it waits for has come.
* `CondOp.Wakes` — a step wakes the threads that can go on.

## Main results

* `no_stranded_iff` — in exactly the runs of such steps, no thread is left behind.
* `posix_no_stranded` — on POSIX these are all the runs with fewer than 2^32 threads.
-/

namespace LuaSys.Thread

open LuaSys.Lib

/-- How a condition is signalled. -/
inductive CondSystem
  | posix
  | windows
  deriving DecidableEq

/-- What a thread waits for. -/
inductive CondUse (θ : Type*)
  /-- In `sys_thread_suspend`. -/
  | resumed
  /-- In `thread_wait`, for the end of a thread. -/
  | killed (td : θ)
  /-- In `thread_waitvm`. -/
  | workers
  deriving DecidableEq

/-- The thread on whose condition the thread `t` waits; `main` is the first one of the VM. -/
def CondUse.owner {θ : Type*} (main t : θ) : CondUse θ → θ
  | .resumed => t
  | .killed td => td
  | .workers => main

/-- Where a thread is; `timed` says whether the wait has a timeout. -/
inductive CondPhase (θ : Type*)
  /-- Without the VM lock. -/
  | away
  /-- With the VM lock, in Lua code. -/
  | running
  /-- Blocked on a condition, without the VM lock. -/
  | parked (use : CondUse θ) (timed : Bool)
  /-- Woken up, but not yet with the VM lock; `ok` says whether the wait has returned zero. -/
  | woken (use : CondUse θ) (timed ok : Bool)
  /-- In `thread_exit`, between its two sections, and behind them. -/
  | exiting
  | ended

/-- What the thread waits for, in its loop. -/
def CondPhase.use {θ : Type*} : CondPhase θ → Option (CondUse θ)
  | .parked use _ | .woken use _ _ => some use
  | _ => none

/-- The threads of a VM. -/
structure CondThreads (θ : Type*) where
  /-- The thread with the VM lock. -/
  vm : Option θ
  phase : θ → CondPhase θ
  suspended : θ → Bool
  /-- The flags are `SYS_THREAD_KILLED`. -/
  killed : θ → Bool
  nref : ℕ

/-- The steps of the threads; on Windows, `pick` is the thread that is woken, or another one if
nobody waits. -/
inductive CondOp (θ : Type*)
  | vmEnter (t : θ)
  | vmLeave (t : θ)
  | suspend (t : θ) (timed : Bool)
  | resume (t td pick : θ)
  | waitThread (t td : θ) (timed : Bool)
  | waitVm (t : θ) (timed : Bool)
  /-- A wait ends by itself. -/
  | wake (t : θ) (e : WaitEnd)
  /-- A thread goes on after its wait; `sys_thread_check` may raise an error in `thread_wait`. -/
  | cont (t : θ) (raised : Bool)
  /-- `sys_thread_new`. -/
  | new (t : θ)
  /-- A request overwrites the flags of a thread. -/
  | request (t td : θ)
  /-- The first section of `thread_exit`. -/
  | exit (t : θ)
  /-- Its second section.  For the first thread of another VM, `reftd` is the thread of this VM that
  has called `thread.runvm`; it is marked as ended, and its condition is signalled. -/
  | exitRef (t : θ) (reftd : Option θ) (pick : θ)

namespace CondThreads

variable {θ : Type*}

/-- The threads of a new VM. -/
def init : CondThreads θ where
  vm := none
  phase _ := .away
  suspended _ := false
  killed _ := false
  nref := 0

/-- The test of a loop. -/
def met (s : CondThreads θ) (t : θ) : CondUse θ → Bool
  | .resumed => !s.suspended t
  | .killed td => s.killed td
  | .workers => s.nref = 0

/-- A thread is blocked, though what it waits for has come. -/
def Stranded (s : CondThreads θ) : Prop :=
  ∃ t use timed, s.phase t = .parked use timed ∧ s.met t use = true

variable [DecidableEq θ]

/-- The thread goes on with the VM lock. -/
def proceed (s : CondThreads θ) (t : θ) : CondThreads θ :=
  { s with vm := some t, phase := Function.update s.phase t .running }

/-- A loop: the thread goes on, or waits. -/
def waitLoop (s : CondThreads θ) (t : θ) (use : CondUse θ) (timed : Bool) : CondThreads θ :=
  if s.met t use then s.proceed t
  else { s with vm := none, phase := Function.update s.phase t (.parked use timed) }

/-- `pthread_cond_broadcast` on POSIX, and `thread_cond_signal` on Windows. -/
def notify (sys : CondSystem) (main : θ) (s : CondThreads θ) (td pick : θ) : CondThreads θ :=
  { s with
    phase := fun t =>
      match s.phase t with
      | .parked use timed =>
          if use.owner main t = td ∧ (sys = .posix ∨ t = pick) then .woken use timed true
          else .parked use timed
      | p => p }

/-- The flags of a thread become `SYS_THREAD_KILLED`; Windows does not signal its condition. -/
def kill (sys : CondSystem) (main : θ) (s : CondThreads θ) (td : θ) : CondThreads θ :=
  let s := { s with killed := Function.update s.killed td true }
  if sys = .posix then s.notify sys main td td else s

/-- The number of the workers becomes `n`. -/
def unref (sys : CondSystem) (main : θ) (s : CondThreads θ) (n : ℕ) (pick : θ) : CondThreads θ :=
  let s := { s with nref := n }
  if n = 0 then s.notify sys main main pick else s

/-- The second section of `thread_exit`. -/
def leaveVm (sys : CondSystem) (main : θ) (s : CondThreads θ) (reftd : Option θ) (pick : θ) :
    CondThreads θ :=
  let s := reftd.elim s (s.kill sys main)
  s.unref sys main (u32sub s.nref 1) pick

/-- One step; `none` when the thread is elsewhere. -/
def step (sys : CondSystem) (main : θ) (s : CondThreads θ) :
    CondOp θ → Option (CondThreads θ)
  | .vmEnter t =>
      match s.vm, s.phase t with
      | none, .away => some (s.proceed t)
      | _, _ => none
  | .vmLeave t =>
      match s.phase t with
      | .running => some { s with vm := none, phase := Function.update s.phase t .away }
      | _ => none
  | .suspend t timed =>
      match s.phase t with
      | .running =>
          some ({ s with suspended := Function.update s.suspended t true }.waitLoop t .resumed
            timed)
      | _ => none
  | .resume t td pick =>
      match s.phase t with
      | .running =>
          some ({ s with suspended := Function.update s.suspended td false }.notify sys main td
            pick)
      | _ => none
  | .waitThread t td timed =>
      match sys, s.phase t with
      | .posix, .running => some (s.waitLoop t (.killed td) timed)
      | _, _ => none
  | .waitVm t timed =>
      match s.phase t with
      | .running => some (s.waitLoop t .workers timed)
      | _ => none
  | .wake t e =>
      match s.phase t with
      | .parked use timed =>
          if e ≠ .signal ∧ (e = .timedOut → timed) then
            some { s with phase := Function.update s.phase t (.woken use timed e.ok) }
          else none
      | _ => none
  | .cont t raised =>
      match s.vm, s.phase t with
      | none, .woken (.killed td) timed ok =>
          if raised ∨ ok = false then some (s.proceed t)
          else some (s.waitLoop t (.killed td) timed)
      | none, .woken use timed ok =>
          if ok then some (s.waitLoop t use timed) else some (s.proceed t)
      | _, _ => none
  | .new t =>
      match s.phase t with
      | .running => some { s with nref := u32 (s.nref + 1) }
      | _ => none
  | .request t td =>
      match s.phase t with
      | .running => some { s with killed := Function.update s.killed td false }
      | _ => none
  | .exit t =>
      match s.phase t with
      | .running =>
          -- the first thread waits for its workers instead
          if t = main then none
          else
            let s := s.kill sys main t
            some { s with vm := none, phase := Function.update s.phase t .exiting }
      | _ => none
  | .exitRef t reftd pick =>
      match s.vm, s.phase t, reftd with
      -- a worker of this VM, or the first thread of another one
      | none, .exiting, none | none, .away, some _ =>
          let s := s.leaveVm sys main reftd pick
          some { s with phase := Function.update s.phase t .ended }
      | _, _, _ => none

end CondThreads

/-- The step wakes all threads that can go on.  On Windows the one that is woken is the only one
that can, and the counter of the workers does not wrap while somebody waits for them. -/
def CondOp.Wakes {θ : Type*} (sys : CondSystem) (s : CondThreads θ) : CondOp θ → Prop
  | .resume _ td pick => sys = .posix ∨ ∀ timed, s.phase td = .parked .resumed timed → td = pick
  | .new _ => u32 (s.nref + 1) = 0 → ∀ t timed, s.phase t ≠ .parked .workers timed
  | .exitRef _ _ pick => u32sub s.nref 1 = 0 →
      sys = .posix ∨ ∀ t timed, s.phase t = .parked .workers timed → t = pick
  | _ => True

namespace CondThreads

variable {θ : Type*} {sys : CondSystem} {main : θ} {s s' : CondThreads θ}
  {t td pick : θ} {use : CondUse θ} {timed : Bool} {op : CondOp θ}

/-! ## One step -/

/-- Nobody is left behind. -/
def Awake (s : CondThreads θ) : Prop :=
  ∀ t use timed, s.phase t = .parked use timed → s.met t use = false

/-- On Windows nobody waits on a condition for the end of a thread. -/
def Handles (sys : CondSystem) (s : CondThreads θ) : Prop :=
  sys ≠ .posix → ∀ t td, (s.phase t).use ≠ some (.killed td)

theorem awake_iff : s.Awake ↔ ¬s.Stranded := by
  constructor
  · intro h ⟨t, use, timed, hphase, hmet⟩
    exact Bool.false_ne_true ((h t use timed hphase).symm.trans hmet)
  · intro h t use timed hphase
    exact Bool.eq_false_iff.mpr fun hmet => h ⟨t, use, timed, hphase, hmet⟩

/-- A step that blocks nobody whose test holds. -/
theorem Awake.mono (h : s.Awake)
    (hphase : ∀ t use timed, s'.phase t = .parked use timed →
      s.phase t = .parked use timed ∧ s'.met t use = s.met t use ∨ s'.met t use = false) :
    s'.Awake := by
  intro t use timed hparked
  rcases hphase t use timed hparked with ⟨hold, hmet⟩ | hmet
  · rw [hmet]
    exact h t use timed hold
  · exact hmet

variable [DecidableEq θ]

/-- A thread comes to a place where it is not blocked; nothing else changes. -/
theorem Awake.goto (h : s.Awake) {p : CondPhase θ} (hp : ∀ use timed, p ≠ .parked use timed)
    (hphase : s'.phase = Function.update s.phase t p)
    (hmet : ∀ u use timed, s.phase u = .parked use timed → s'.met u use = s.met u use) :
    s'.Awake := by
  refine h.mono fun u use timed hparked => .inl ?_
  rw [hphase] at hparked
  by_cases hu : u = t
  · rw [hu, Function.update_self] at hparked
    exact absurd hparked (hp use timed)
  · rw [Function.update_of_ne hu] at hparked
    exact ⟨hparked, hmet u use timed hparked⟩

/-- A loop blocks only while its test fails. -/
theorem Awake.waitLoop (h : s.Awake) (t : θ) (use : CondUse θ) (timed : Bool) :
    (s.waitLoop t use timed).Awake := by
  unfold CondThreads.waitLoop
  split
  next => exact h.goto (fun _ _ => by simp) rfl fun _ use _ _ => by cases use <;> rfl
  next hmet =>
    refine h.mono fun u use' timed' hparked => ?_
    change Function.update s.phase t (.parked use timed) u = .parked use' timed' at hparked
    by_cases hu : u = t
    · rw [hu, Function.update_self] at hparked
      obtain ⟨rfl, -⟩ := CondPhase.parked.inj hparked
      refine .inr ?_
      rw [hu]
      cases use <;> exact Bool.eq_false_iff.mpr hmet
    · rw [Function.update_of_ne hu] at hparked
      exact .inl ⟨hparked, by cases use' <;> rfl⟩

/-- The threads that are still blocked after a condition has been signalled. -/
theorem notify_parked : (s.notify sys main td pick).phase t = .parked use timed ↔
    s.phase t = .parked use timed ∧ ¬(use.owner main t = td ∧ (sys = .posix ∨ t = pick)) := by
  simp only [notify]
  split
  next use' timed' hphase =>
    rw [hphase]
    split_ifs with hwake
    · refine iff_of_false (by simp) fun ⟨heq, hnot⟩ => hnot ?_
      obtain ⟨rfl, -⟩ := CondPhase.parked.inj heq
      exact hwake
    · refine ⟨fun heq => ⟨heq, ?_⟩, And.left⟩
      obtain ⟨rfl, -⟩ := CondPhase.parked.inj heq
      exact hwake
  next hphase =>
    exact iff_of_false (hphase use timed) fun ⟨heq, _⟩ => hphase use timed heq

theorem notify_met : (s.notify sys main td pick).met t use = s.met t use := by
  cases use <;> rfl

/-- A thread is resumed. -/
theorem awake_resume (h : s.Awake) :
    ({ s with suspended := Function.update s.suspended td false }.notify sys main td pick).Awake ↔
      (sys = .posix ∨ ∀ timed, s.phase td = .parked .resumed timed → td = pick) := by
  constructor
  · intro hawake
    refine or_iff_not_imp_left.mpr fun hsys timed hphase => ?_
    by_contra hne
    have hparked := hawake td .resumed timed
      (notify_parked.mpr ⟨hphase, fun hwake => hwake.2.elim hsys hne⟩)
    rw [notify_met] at hparked
    simp [met] at hparked
  · intro hwakes
    refine h.mono fun u use timed hparked => ?_
    obtain ⟨hphase, hnot⟩ := notify_parked.mp hparked
    refine .inl ⟨hphase, ?_⟩
    rw [notify_met]
    cases use with
    | resumed =>
        have hu : u ≠ td := by
          rintro rfl
          exact hnot ⟨rfl, hwakes.imp_right fun hpick => hpick timed hphase⟩
        simp [met, hu]
    | killed => rfl
    | workers => rfl

/-- A thread ends, or its descriptor in another VM does. -/
theorem awake_kill (h : s.Awake) (hhandles : s.Handles sys) (td : θ) :
    (s.kill sys main td).Awake := by
  unfold kill
  split
  next hsys =>
    refine h.mono fun u use timed hparked => ?_
    obtain ⟨hphase, hnot⟩ := notify_parked.mp hparked
    refine .inl ⟨hphase, ?_⟩
    rw [notify_met]
    cases use with
    | killed td' =>
        have hne : td' ≠ td := fun heq => hnot ⟨heq, .inl hsys⟩
        exact Function.update_of_ne hne ..
    | resumed => rfl
    | workers => rfl
  next hsys =>
    refine h.mono fun u use timed hparked => ?_
    change s.phase u = .parked use timed at hparked
    refine .inl ⟨hparked, ?_⟩
    cases use with
    | killed td' => exact absurd (by rw [hparked]; rfl) (hhandles hsys u td')
    | resumed => rfl
    | workers => rfl

omit [DecidableEq θ] in
/-- The number of the workers changes. -/
theorem awake_count (h : s.Awake) (n : ℕ) : ({ s with nref := n } : CondThreads θ).Awake ↔
    (n = 0 → ∀ t timed, s.phase t ≠ .parked .workers timed) := by
  constructor
  · intro hawake hn t timed hphase
    have hmet := hawake t .workers timed hphase
    simp [met, hn] at hmet
  · intro hnone
    refine h.mono fun u use timed hparked => ?_
    change s.phase u = .parked use timed at hparked
    cases use with
    | workers => exact .inr (decide_eq_false fun hn => hnone hn u timed hparked)
    | resumed => exact .inl ⟨hparked, rfl⟩
    | killed td => exact .inl ⟨hparked, rfl⟩

/-- The threads that wait for zero are woken. -/
theorem awake_unref (h : s.Awake) (n : ℕ) : (s.unref sys main n pick).Awake ↔
    (n = 0 → sys = .posix ∨ ∀ t timed, s.phase t = .parked .workers timed → t = pick) := by
  unfold unref
  split
  next hn =>
    constructor
    · intro hawake _
      refine or_iff_not_imp_left.mpr fun hsys t timed hphase => ?_
      by_contra hne
      have hmet := hawake t .workers timed
        (notify_parked.mpr ⟨hphase, fun hwake => hwake.2.elim hsys hne⟩)
      rw [notify_met] at hmet
      simp [met, hn] at hmet
    · intro hwakes
      refine h.mono fun u use timed hparked => ?_
      obtain ⟨hphase, hnot⟩ := notify_parked.mp hparked
      change s.phase u = .parked use timed at hphase
      rw [notify_met]
      cases use with
      | workers =>
          exact absurd ⟨rfl, (hwakes hn).imp_right fun hpick => hpick u timed hphase⟩ hnot
      | resumed => exact .inl ⟨hphase, rfl⟩
      | killed td => exact .inl ⟨hphase, rfl⟩
  next hn =>
    exact (awake_count h n).trans (iff_of_true (fun hzero => absurd hzero hn)
      fun hzero => absurd hzero hn)

theorem kill_nref (sys : CondSystem) (main : θ) (s : CondThreads θ) (td : θ) :
    (s.kill sys main td).nref = s.nref := by
  unfold kill
  split <;> rfl

theorem kill_phase (hsys : sys ≠ .posix) (td : θ) : (s.kill sys main td).phase = s.phase := by
  unfold kill
  rw [if_neg hsys]

theorem leaveVm_some (td : θ) : s.leaveVm sys main (some td) pick =
    (s.kill sys main td).unref sys main (u32sub s.nref 1) pick := by
  rw [← kill_nref sys main s td]
  rfl

theorem leaveVm_none : s.leaveVm sys main none pick =
    s.unref sys main (u32sub s.nref 1) pick := rfl

/-- The second section of `thread_exit`. -/
theorem awake_leaveVm (h : s.Awake) (hhandles : s.Handles sys) (reftd : Option θ) :
    (s.leaveVm sys main reftd pick).Awake ↔ (u32sub s.nref 1 = 0 →
      sys = .posix ∨ ∀ t timed, s.phase t = .parked .workers timed → t = pick) := by
  cases reftd with
  | none => rw [leaveVm_none, awake_unref h]
  | some td =>
      rw [leaveVm_some, awake_unref (awake_kill h hhandles td)]
      by_cases hsys : sys = .posix
      · exact iff_of_true (fun _ => .inl hsys) fun _ => .inl hsys
      · rw [kill_phase hsys]

/-- A thread that is not blocked goes elsewhere. -/
theorem awake_goto {p : CondPhase θ} (ht : ∀ use timed, s.phase t ≠ .parked use timed)
    (hp : ∀ use timed, p ≠ .parked use timed) :
    ({ s with phase := Function.update s.phase t p } : CondThreads θ).Awake ↔ s.Awake := by
  constructor
  · intro h
    refine h.mono fun u use timed hparked => .inl ⟨?_, by cases use <;> rfl⟩
    have hu : u ≠ t := fun heq => ht use timed (heq ▸ hparked)
    exact (Function.update_of_ne hu ..).trans hparked
  · intro h
    exact h.goto hp rfl fun _ use _ _ => by cases use <;> rfl

/-! ## What the threads wait for -/

theorem notify_use (t : θ) : ((s.notify sys main td pick).phase t).use = (s.phase t).use := by
  simp only [notify]
  split
  next hphase =>
    rw [hphase]
    split <;> rfl
  next => rfl

theorem kill_use (t : θ) : ((s.kill sys main td).phase t).use = (s.phase t).use := by
  unfold kill
  split
  · exact notify_use t
  · rfl

theorem leaveVm_use {reftd : Option θ} (t : θ) :
    ((s.leaveVm sys main reftd pick).phase t).use = (s.phase t).use := by
  have hreftd : ((reftd.elim s (s.kill sys main)).phase t).use = (s.phase t).use := by
    cases reftd with
    | none => rfl
    | some td => exact kill_use t
  rw [← hreftd, leaveVm, unref]
  split
  · exact notify_use t
  · rfl

theorem waitLoop_phase (t : θ) (use : CondUse θ) (timed : Bool) : ∃ p : CondPhase θ,
    (s.waitLoop t use timed).phase = Function.update s.phase t p ∧
      (p.use = none ∨ p.use = some use) := by
  unfold waitLoop
  split
  · exact ⟨.running, rfl, .inl rfl⟩
  · exact ⟨.parked use timed, rfl, .inr rfl⟩

/-- One thread goes elsewhere. -/
theorem Handles.update (h : s.Handles sys) {p : CondPhase θ}
    (hp : ∀ td, p.use = some (.killed td) → (s.phase t).use = some (.killed td))
    (hphase : s'.phase = Function.update s.phase t p) : s'.Handles sys := by
  intro hsys u td hu
  rw [hphase] at hu
  by_cases hut : u = t
  · rw [hut, Function.update_self] at hu
    exact h hsys t td (hp td hu)
  · rw [Function.update_of_ne hut] at hu
    exact h hsys u td hu

theorem Handles.waitLoop (h : s.Handles sys) (t : θ) {use : CondUse θ} (timed : Bool)
    (huse : ∀ td, use = .killed td → (s.phase t).use = some (.killed td)) :
    (s.waitLoop t use timed).Handles sys := by
  obtain ⟨p, hphase, hp⟩ := waitLoop_phase (s := s) t use timed
  refine h.update (fun td htd => ?_) hphase
  rcases hp with hp | hp
  · rw [hp] at htd
    cases htd
  · rw [hp] at htd
    exact huse td (Option.some.inj htd)

omit [DecidableEq θ] in
/-- The signals do not change what the threads wait for. -/
theorem Handles.congr (h : s.Handles sys) (huse : ∀ t, (s'.phase t).use = (s.phase t).use) :
    s'.Handles sys := fun hsys t td ht => h hsys t td ((huse t).symm.trans ht)

/-! ## The steps -/

theorem Awake.proceed (h : s.Awake) (t : θ) : (s.proceed t).Awake :=
  h.goto (p := .running) (fun _ _ => by simp) rfl fun _ use _ _ => by cases use <;> rfl

/-- The thread that suspends itself is not blocked yet. -/
theorem Awake.suspend (h : s.Awake) (t : θ) :
    ({ s with suspended := Function.update s.suspended t true } : CondThreads θ).Awake := by
  refine h.mono fun u use timed hparked => ?_
  change s.phase u = .parked use timed at hparked
  cases use with
  | resumed =>
      by_cases hu : u = t
      · exact .inr (by simp [met, hu])
      · exact .inl ⟨hparked, by simp [met, hu]⟩
  | killed => exact .inl ⟨hparked, rfl⟩
  | workers => exact .inl ⟨hparked, rfl⟩

/-- A request takes the end of a thread back. -/
theorem Awake.request (h : s.Awake) (td : θ) :
    ({ s with killed := Function.update s.killed td false } : CondThreads θ).Awake := by
  refine h.mono fun u use timed hparked => ?_
  change s.phase u = .parked use timed at hparked
  cases use with
  | killed td' =>
      by_cases htd : td' = td
      · exact .inr (by simp [met, htd])
      · exact .inl ⟨hparked, by simp [met, htd]⟩
  | resumed => exact .inl ⟨hparked, rfl⟩
  | workers => exact .inl ⟨hparked, rfl⟩

/-- What a step does.  For most operations there is nothing to wake. -/
inductive Change (sys : CondSystem) (main : θ) (s : CondThreads θ) :
    CondOp θ → CondThreads θ → Prop
  /-- A thread goes to a place where it is not blocked. -/
  | goto {op : CondOp θ} (t : θ) (vm : Option θ) (p : CondPhase θ)
      (hparked : ∀ use timed, p ≠ .parked use timed)
      (huse : p.use = none ∨ p.use = (s.phase t).use) (hwakes : op.Wakes sys s) :
      Change sys main s op { s with vm := vm, phase := Function.update s.phase t p }
  /-- A loop begins or goes on. -/
  | loop {op : CondOp θ} (t : θ) (use : CondUse θ) (timed : Bool)
      (huse : ∀ td, use = .killed td → sys = .posix ∨ (s.phase t).use = some (.killed td))
      (hwakes : op.Wakes sys s) : Change sys main s op (s.waitLoop t use timed)
  | suspend (t : θ) (timed : Bool) : Change sys main s (.suspend t timed)
      ({ s with suspended := Function.update s.suspended t true }.waitLoop t .resumed timed)
  | resume (t td pick : θ) : Change sys main s (.resume t td pick)
      ({ s with suspended := Function.update s.suspended td false }.notify sys main td pick)
  | new (t : θ) : Change sys main s (.new t) { s with nref := u32 (s.nref + 1) }
  | request (t td : θ) : Change sys main s (.request t td)
      { s with killed := Function.update s.killed td false }
  | exit (t : θ) : Change sys main s (.exit t) { s.kill sys main t with
      vm := none, phase := Function.update (s.kill sys main t).phase t .exiting }
  | exitRef (t : θ) (reftd : Option θ) (pick : θ) (huse : (s.phase t).use = none) :
      Change sys main s (.exitRef t reftd pick) { s.leaveVm sys main reftd pick with
        phase := Function.update (s.leaveVm sys main reftd pick).phase t .ended }

theorem change_of_step (hstep : s.step sys main op = some s') : s.Change sys main op s' := by
  cases op with
  | vmEnter t =>
      simp only [step] at hstep
      split at hstep
      next => exact Option.some.inj hstep ▸ .goto t (some t) .running nofun (.inl rfl) trivial
      next => cases hstep
  | vmLeave t =>
      simp only [step] at hstep
      split at hstep
      next => exact Option.some.inj hstep ▸ .goto t none .away nofun (.inl rfl) trivial
      next => cases hstep
  | suspend t timed =>
      simp only [step] at hstep
      split at hstep
      next => exact Option.some.inj hstep ▸ .suspend t timed
      next => cases hstep
  | resume t td pick =>
      simp only [step] at hstep
      split at hstep
      next => exact Option.some.inj hstep ▸ .resume t td pick
      next => cases hstep
  | waitThread t td timed =>
      simp only [step] at hstep
      split at hstep
      next => exact Option.some.inj hstep ▸ .loop t (.killed td) timed (fun _ _ => .inl rfl) trivial
      next => cases hstep
  | waitVm t timed =>
      simp only [step] at hstep
      split at hstep
      next => exact Option.some.inj hstep ▸ .loop t .workers timed (fun _ => nofun) trivial
      next => cases hstep
  | wake t e =>
      simp only [step] at hstep
      split at hstep
      next use timed hphase =>
        obtain ⟨-, hs'⟩ := Option.ite_none_right_eq_some.mp hstep
        exact Option.some.inj hs' ▸
          .goto t s.vm (.woken use timed e.ok) nofun (.inr (by rw [hphase]; rfl)) trivial
      next => cases hstep
  | cont t raised =>
      simp only [step] at hstep
      split at hstep
      next td timed ok _ hphase =>
        split at hstep
        · exact Option.some.inj hstep ▸ .goto t (some t) .running nofun (.inl rfl) trivial
        · exact Option.some.inj hstep ▸ .loop t (.killed td) timed
            (fun _ htd => .inr (by rw [hphase, ← htd]; rfl)) trivial
      next use timed ok _ _ hphase =>
        split at hstep
        · exact Option.some.inj hstep ▸ .loop t use timed
            (fun _ htd => .inr (by rw [hphase, ← htd]; rfl)) trivial
        · exact Option.some.inj hstep ▸ .goto t (some t) .running nofun (.inl rfl) trivial
      next => cases hstep
  | new t =>
      simp only [step] at hstep
      split at hstep
      next => exact Option.some.inj hstep ▸ .new t
      next => cases hstep
  | request t td =>
      simp only [step] at hstep
      split at hstep
      next => exact Option.some.inj hstep ▸ .request t td
      next => cases hstep
  | exit t =>
      simp only [step] at hstep
      split at hstep
      next =>
        obtain ⟨-, hs'⟩ := Option.ite_none_left_eq_some.mp hstep
        exact Option.some.inj hs' ▸ .exit t
      next => cases hstep
  | exitRef t reftd pick =>
      simp only [step] at hstep
      split at hstep
      next hphase => exact Option.some.inj hstep ▸ .exitRef t none pick (by rw [hphase]; rfl)
      next hphase => exact Option.some.inj hstep ▸ .exitRef t _ pick (by rw [hphase]; rfl)
      next => cases hstep

/-- **One step.**  It leaves nobody behind if and only if it wakes all threads that can go on. -/
theorem Change.awake_iff (hchange : s.Change sys main op s') (h : s.Awake)
    (hhandles : s.Handles sys) : s'.Awake ↔ op.Wakes sys s := by
  cases hchange with
  | goto t vm p hparked _ hwakes =>
      exact iff_of_true (h.goto hparked rfl fun _ use _ _ => by cases use <;> rfl) hwakes
  | loop t use timed _ hwakes => exact iff_of_true (h.waitLoop t use timed) hwakes
  | suspend t timed => exact iff_of_true ((h.suspend t).waitLoop t .resumed timed) trivial
  | resume => exact awake_resume h
  | new => exact awake_count h _
  | request t td => exact iff_of_true (h.request td) trivial
  | exit t =>
      exact iff_of_true ((awake_kill h hhandles t).goto (fun _ _ => by simp) rfl
        fun _ use _ _ => by cases use <;> rfl) trivial
  | exitRef t reftd pick huse =>
      have hnone : ((s.leaveVm sys main reftd pick).phase t).use = none := (leaveVm_use t).trans huse
      refine (awake_goto (fun use timed hparked => ?_) fun _ _ => by simp).trans
        (awake_leaveVm h hhandles reftd)
      rw [hparked] at hnone
      cases hnone

/-- The waits for the end of a thread, after any step. -/
theorem Change.handles (hchange : s.Change sys main op s') (h : s.Handles sys) :
    s'.Handles sys := by
  cases hchange with
  | goto t vm p _ huse _ =>
      refine h.update (fun td htd => ?_) rfl
      rcases huse with huse | huse
      · rw [huse] at htd
        cases htd
      · exact huse ▸ htd
  | loop t use timed huse _ =>
      intro hsys
      exact h.waitLoop t timed (fun td htd => (huse td htd).resolve_left hsys) hsys
  | suspend t timed =>
      have hsuspend : ({ s with suspended := Function.update s.suspended t true } :
          CondThreads θ).Handles sys := h
      exact hsuspend.waitLoop t timed fun _ => nofun
  | resume => exact h.congr fun u => notify_use u
  | new | request => exact h
  | exit t =>
      have hkill : (s.kill sys main t).Handles sys := h.congr fun u => kill_use u
      exact hkill.update (p := .exiting) (fun _ => nofun) rfl
  | exitRef t reftd pick _ =>
      have hleave : (s.leaveVm sys main reftd pick).Handles sys := h.congr leaveVm_use
      exact hleave.update (p := .ended) (fun _ => nofun) rfl

/-- The invariant: nobody is left behind, and on Windows nobody waits for the end of a thread. -/
def Inv (sys : CondSystem) (s : CondThreads θ) : Prop := s.Awake ∧ s.Handles sys

theorem Inv.step (h : s.Inv sys) (hstep : s.step sys main op = some s') (hwakes : op.Wakes sys s) :
    s'.Inv sys :=
  ⟨((change_of_step hstep).awake_iff h.1 h.2).mpr hwakes, (change_of_step hstep).handles h.2⟩

/-! ## Runs -/

omit [DecidableEq θ] in
theorem init_inv : (init : CondThreads θ).Inv sys := by
  constructor
  · intro t use timed hparked
    cases hparked
  · intro _ t td huse
    cases huse

/-- **Nobody is left behind.**  In a run no thread stays blocked when what it waits for has come,
at any time, if and only if every step of the run wakes all threads that can go on. -/
theorem no_stranded_iff {ops : List (CondOp θ)} (hrun : runOps (step sys main) init ops = some s) :
    (∀ pre s₁, pre <+: ops → runOps (step sys main) init pre = some s₁ → ¬s₁.Stranded) ↔
      ∀ pre op s₁, pre ++ [op] <+: ops → runOps (step sys main) init pre = some s₁ →
        op.Wakes sys s₁ :=
  forall_runOps_iff (fun _ (h : Inv sys _) => awake_iff.mp h.1)
    (fun _ _ _ hstep h hwakes => h.step hstep hwakes)
    (fun _ _ _ hstep h hnot => ((change_of_step hstep).awake_iff h.1 h.2).mp (awake_iff.mpr hnot))
    init_inv hrun

/-- **On POSIX nobody is left behind**, as long as the number of the workers fits its field. -/
theorem posix_no_stranded {ops : List (CondOp θ)}
    (hrun : runOps (step .posix main) init ops = some s)
    (hnref : ∀ pre s₁, pre <+: ops → runOps (step .posix main) init pre = some s₁ →
      s₁.nref + 1 < 2 ^ 32) : ¬s.Stranded := by
  have hinv : ∀ pre s₁, pre <+: ops → runOps (step .posix main) init pre = some s₁ →
      s₁.Inv .posix := by
    refine inv_of_safe (fun s op s' hstep h (hwakes : op.Wakes .posix s) => h.step hstep hwakes)
      init_inv fun pre op s₁ s₂ hpre hs₁ _ _ => ?_
    cases op with
    | resume => exact .inl rfl
    | exitRef => exact fun _ => .inl rfl
    | new t =>
        intro hzero
        rw [u32_of_lt (hnref pre s₁ ((List.prefix_append pre _).trans hpre) hs₁)] at hzero
        exact absurd hzero (Nat.succ_ne_zero _)
    | _ => trivial
  exact awake_iff.mp (hinv ops s (List.prefix_refl ops) hrun).1

/-- The first thread suspends itself, a worker waits for the workers, and the signal for the first
one wakes the worker on Windows. -/
def wrongWakeOps : List (CondOp ℕ) :=
  [.vmEnter 0, .new 0, .new 0, .suspend 0 false, .vmEnter 1, .waitVm 1 false, .vmEnter 2,
    .resume 2 0 1]

theorem no_stranded_iff_wrongWake : ∃ s : CondThreads ℕ,
    runOps (step .windows 0) init wrongWakeOps = some s ∧ s.Stranded ∧
      ((∀ pre s₁, pre <+: wrongWakeOps → runOps (step .windows 0) init pre = some s₁ →
        ¬s₁.Stranded) ↔ ∀ pre op s₁, pre ++ [op] <+: wrongWakeOps →
          runOps (step .windows 0) init pre = some s₁ → op.Wakes .windows s₁) :=
  ⟨_, rfl, ⟨0, .resumed, false, rfl, rfl⟩, no_stranded_iff rfl⟩

theorem posix_no_stranded_wrongWake : ∃ s : CondThreads ℕ,
    runOps (step .posix 0) init wrongWakeOps = some s ∧ ¬s.Stranded := by
  have hrun : (runOps (step .posix 0) init wrongWakeOps).isSome = true := by decide +kernel
  have hnref : ∀ pre ∈ wrongWakeOps.inits, ∀ s₁ ∈ runOps (step .posix 0) init pre,
      s₁.nref + 1 < 2 ^ 32 := by decide +kernel
  obtain ⟨s, hs⟩ := Option.isSome_iff_exists.mp hrun
  exact ⟨s, hs, posix_no_stranded hs fun pre s₁ hpre hs₁ =>
    hnref pre ((List.mem_inits pre _).mpr hpre) s₁ hs₁⟩

end CondThreads

end LuaSys.Thread
