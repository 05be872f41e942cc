import LuaSys.Lib.Run
import LuaSys.Thread.Sched
import Mathlib.Data.List.Nodup
import Mathlib.Data.List.Range
import Mathlib.Data.List.Perm.Subperm

/-!
# The rings of a scheduler

Whether a task is in one of the rings is not stored; the flags `suspended` and
`terminate` and the field `ev_op` decide it.  The source keeps them in step as long as
a task that has been asked to terminate does not suspend itself any more: the worker
deletes such a task although it is suspended, and a later `sched_terminate` or an event
links the deleted task into the ring of the active ones.

## Main definitions

* `Sched.WellFormed` — the rings and the flags fit together.
* `Sched.TaskInv` — the same with the lists, and what the steps need.
* `TaskOp.Safe` — the condition on the state before a step.

## Main results

* `safe_run_wellFormed` — the rings are well formed in every run of safe steps.
* `terminated_task_in_both_rings` — a task that is terminated while it runs, suspends
  itself and is terminated again.
-/

namespace LuaSys.Thread

open LuaSys.Lib

namespace Sched

/-! ## The links -/

variable {s : Sched} {head : Option ℕ} {task : ℕ} {l : List ℕ}

/-- `sched_tasklist_add` links the task before the head and leaves other rings alone. -/
theorem tasklistAdd_spec (h : Ring s.nextId s.prevId head l) (htask : task ∉ l) :
    ∃ p n head', s.tasklistAdd head task = ({ s with prevId := p, nextId := n }, head') ∧
      Ring n p head' (l ++ [task]) ∧
      ∀ x ∉ l, x ≠ task → n x = s.nextId x ∧ p x = s.prevId x := by
  cases head with
  | none =>
      rw [h.eq_nil]
      refine ⟨_, _, _, rfl, ring_single _ _ _, fun x _ hx => ?_⟩
      exact ⟨Function.update_of_ne hx _ _, Function.update_of_ne hx _ _⟩
  | some head =>
      refine ⟨Function.update (Function.update s.prevId task (s.prevId head)) head task,
        Function.update (Function.update s.nextId (s.prevId head) task) task head, some head, rfl,
        h.concat htask, fun x hx hne => ?_⟩
      have hhead : x ≠ head := fun heq => hx (heq ▸ h.head_mem)
      have hprev : x ≠ s.prevId head := fun heq => hx (heq ▸ h.prev_mem)
      rw [Function.update_of_ne hne, Function.update_of_ne hprev, Function.update_of_ne hhead,
        Function.update_of_ne hne]
      exact ⟨rfl, rfl⟩

/-- `sched_tasklist_del` unlinks a member and leaves other rings alone. -/
theorem tasklistDel_erase (h : Ring s.nextId s.prevId head l) (htask : task ∈ l) :
    ∃ p n head', s.tasklistDel head task = ({ s with prevId := p, nextId := n }, head') ∧
      Ring n p head' (l.erase task) ∧ ∀ x ∉ l, n x = s.nextId x ∧ p x = s.prevId x := by
  by_cases hl : l.erase task = []
  · have hself : task = s.nextId task := ((h.next_eq_self_iff htask).mpr hl).symm
    refine ⟨s.prevId, s.nextId, none, ?_, hl ▸ ring_nil, fun _ _ => ⟨rfl, rfl⟩⟩
    rw [tasklistDel, if_neg (not_not_intro hself)]
  · have hself : task ≠ s.nextId task := fun heq => hl ((h.next_eq_self_iff htask).mp heq.symm)
    -- The source reads the link again behind the assignments, which do not change it.
    have hnext : Function.update s.nextId (s.prevId task) (s.nextId task) task = s.nextId task := by
      by_cases hp : task = s.prevId task
      · rw [← hp, Function.update_self]
      · rw [Function.update_of_ne hp]
    refine ⟨_, _, _, ?_, h.erase htask hl, fun x hx => ?_⟩
    · simp only [tasklistDel, hself, ne_eq, not_false_eq_true, if_true, hnext]
    · obtain ⟨hn, hp⟩ := h.links_mem htask
      have hnx : x ≠ s.nextId task := fun heq => hx (heq ▸ hn)
      have hpx : x ≠ s.prevId task := fun heq => hx (heq ▸ hp)
      exact ⟨Function.update_of_ne hpx _ _, Function.update_of_ne hnx _ _⟩

/-- The first task of a ring leaves it. -/
theorem tasklistDel_spec (h : Ring s.nextId s.prevId (some task) (task :: l)) :
    ∃ p n head', s.tasklistDel (some task) task = ({ s with prevId := p, nextId := n }, head') ∧
      Ring n p head' l ∧ ∀ x ∉ task :: l, n x = s.nextId x ∧ p x = s.prevId x := by
  have hdel := tasklistDel_erase h List.mem_cons_self
  rwa [List.erase_cons_head] at hdel

/-! ## The invariant -/

/-- The rings are circular lists without common members; the free tasks are those that
are not live and wait for nothing; a task that runs or is suspended is in no ring; and
the tasks are counted. -/
def WellFormed (s : Sched) : Prop :=
  ∃ active free, Ring s.nextId s.prevId s.activeTaskId active ∧
    Ring s.nextId s.prevId s.freeTaskId free ∧ active.Disjoint free ∧
    (∀ t ∈ active ++ free, s.checkTaskId t) ∧
    (∀ t, s.checkTaskId t → (t ∈ free ↔ s.live t = false)) ∧
    (∀ t ∈ s.running, t ∉ active ∧ t ∉ free) ∧
    (∀ t, s.checkTaskId t → s.suspended t = true → t ∉ active ∧ t ∉ free) ∧
    (∀ t ∈ free, s.evOp t = none) ∧ s.ntasks = s.bufIdx - free.length

/-- The members of the rings and the roles of the other tasks. -/
structure TaskInv (s : Sched) (active free : List ℕ) : Prop where
  activeRing : Ring s.nextId s.prevId s.activeTaskId active
  freeRing : Ring s.nextId s.prevId s.freeTaskId free
  active_live : ∀ t ∈ active, t < s.bufIdx ∧ s.live t = true
  free_lt : ∀ t ∈ free, t < s.bufIdx
  free_iff : ∀ t < s.bufIdx, t ∈ free ↔ s.live t = false
  running_nodup : s.running.Nodup
  running_live : ∀ t ∈ s.running, t < s.bufIdx ∧ s.live t = true ∧ t ∉ active
  suspended_live : ∀ t < s.bufIdx, s.suspended t = true →
    s.live t = true ∧ t ∉ active ∧ t ∉ s.running
  evOp_suspended : ∀ t < s.bufIdx, s.evOp t ≠ none → s.suspended t = true
  count : s.ntasks + free.length = s.bufIdx
  bufIdx_le : s.bufIdx ≤ s.bufMax
  bufMax_lt : s.bufMax < 2 ^ 31

/-- A live task without a role, in the hands of the code that runs. -/
structure Loose (s : Sched) (active : List ℕ) (task : ℕ) : Prop where
  lt : task < s.bufIdx
  live : s.live task = true
  not_active : task ∉ active
  not_running : task ∉ s.running
  awake : s.suspended task = false

/-- The invariant holds for some rings. -/
def Sound (s : Sched) : Prop := ∃ active free, s.TaskInv active free

namespace TaskInv

variable {s s' : Sched} {active free : List ℕ} {task : ℕ}

theorem sound (h : TaskInv s active free) : s.Sound := ⟨active, free, h⟩

theorem free_live (h : TaskInv s active free) : ∀ t ∈ free, s.live t = false := fun t ht =>
  (h.free_iff t (h.free_lt t ht)).mp ht

theorem disjoint (h : TaskInv s active free) : active.Disjoint free := by
  intro t ha hf
  have hlive := (h.active_live t ha).2
  simp [h.free_live t hf] at hlive

theorem evOp_none (h : TaskInv s active free) {t : ℕ} (hlt : t < s.bufIdx)
    (hawake : s.suspended t = false) : s.evOp t = none := by
  by_contra hne
  simp [h.evOp_suspended t hlt hne] at hawake

theorem wellFormed (h : TaskInv s active free) : s.WellFormed := by
  refine ⟨active, free, h.activeRing, h.freeRing, h.disjoint, ?_, h.free_iff, ?_, ?_, ?_, ?_⟩
  · intro t ht
    rcases List.mem_append.mp ht with ht | ht
    · exact (h.active_live t ht).1
    · exact h.free_lt t ht
  · intro t ht
    obtain ⟨-, hlive, hnot⟩ := h.running_live t ht
    exact ⟨hnot, fun hf => by simp [h.free_live t hf] at hlive⟩
  · intro t ht hsus
    obtain ⟨hlive, hnot, -⟩ := h.suspended_live t ht hsus
    exact ⟨hnot, fun hf => by simp [h.free_live t hf] at hlive⟩
  · intro t ht
    refine h.evOp_none (h.free_lt t ht) ?_
    by_contra hsus
    have hlive := (h.suspended_live t (h.free_lt t ht) (by simpa using hsus)).1
    simp [h.free_live t ht] at hlive
  · have := h.count
    omega

/-- A task without a role becomes active. -/
theorem addActive (h : TaskInv s active free) (ht : Loose s active task) :
    TaskInv (s.addActive task) (active ++ [task]) free := by
  obtain ⟨p, n, head, heq, hring, hframe⟩ := tasklistAdd_spec h.activeRing ht.not_active
  have hs : s.addActive task = { s with prevId := p, nextId := n, activeTaskId := head } := by
    simp only [Sched.addActive, heq]
  have hnf : task ∉ free := fun hmem => by
    have := ht.live
    simp [h.free_live task hmem] at this
  rw [hs]
  refine ⟨hring, ?_, ?_, h.free_lt, h.free_iff, h.running_nodup, ?_, ?_, h.evOp_suspended, h.count,
    h.bufIdx_le, h.bufMax_lt⟩
  · refine h.freeRing.congr (fun x hx => ?_) fun x hx => ?_
    · exact (hframe x (fun ha => h.disjoint ha hx) fun heq => hnf (heq ▸ hx)).1
    · exact (hframe x (fun ha => h.disjoint ha hx) fun heq => hnf (heq ▸ hx)).2
  · intro t hmem
    rcases List.mem_append.mp hmem with hmem | hmem
    · exact h.active_live t hmem
    · rw [List.mem_singleton.mp hmem]
      exact ⟨ht.lt, ht.live⟩
  · intro t hmem
    obtain ⟨hlt, hlive, hnot⟩ := h.running_live t hmem
    refine ⟨hlt, hlive, ?_⟩
    rw [List.mem_append, List.mem_singleton, not_or]
    exact ⟨hnot, fun heq => ht.not_running (heq ▸ hmem)⟩
  · intro t hlt hsus
    obtain ⟨hlive, hnot, hrun⟩ := h.suspended_live t hlt hsus
    refine ⟨hlive, ?_, hrun⟩
    rw [List.mem_append, List.mem_singleton, not_or]
    refine ⟨hnot, ?_⟩
    rintro rfl
    simp [ht.awake] at hsus

/-- The free tasks leave room for a live one. -/
theorem ntasks_pos (h : TaskInv s active free) (hlt : task < s.bufIdx) (hlive : s.live task = true) :
    0 < s.ntasks := by
  have hnot : task ∉ free := fun hmem => by simp [h.free_live task hmem] at hlive
  have hsub : (task :: free).Subperm (List.range s.bufIdx) := by
    refine (List.nodup_cons.mpr ⟨hnot, h.freeRing.nodup⟩).subperm fun t ht => ?_
    rw [List.mem_range]
    rcases List.mem_cons.mp ht with rfl | ht
    · exact hlt
    · exact h.free_lt t ht
  have hlen := hsub.length_le
  rw [List.length_cons, List.length_range] at hlen
  have := h.count
  omega

/-- A task without a role is deleted. -/
theorem taskDel (h : TaskInv s active free) (ht : Loose s active task) :
    TaskInv (s.taskDel task) active (free ++ [task]) := by
  have hnf : task ∉ free := fun hmem => by
    have := ht.live
    simp [h.free_live task hmem] at this
  obtain ⟨p, n, head, heq, hring, hframe⟩ := tasklistAdd_spec h.freeRing hnf
  have hpos := h.ntasks_pos ht.lt ht.live
  have hcount := h.count
  have hbuf := h.bufIdx_le
  have hmax := h.bufMax_lt
  have hsub : u32sub s.ntasks 1 = s.ntasks - 1 := u32sub_of_le hpos (by omega)
  have hs : s.taskDel task = { s with
      prevId := p, nextId := n, freeTaskId := head, ntasks := s.ntasks - 1
      live := Function.update s.live task false } := by
    simp only [Sched.taskDel, heq, hsub]
  have hlive : ∀ t, t ≠ task → Function.update s.live task false t = s.live t := fun t hne =>
    Function.update_of_ne hne _ _
  rw [hs]
  refine ⟨?_, hring, ?_, ?_, ?_, h.running_nodup, ?_, ?_, h.evOp_suspended, ?_, h.bufIdx_le,
    h.bufMax_lt⟩
  · refine h.activeRing.congr (fun x hx => ?_) fun x hx => ?_
    · exact (hframe x (fun hf => h.disjoint hx hf) fun heq => ht.not_active (heq ▸ hx)).1
    · exact (hframe x (fun hf => h.disjoint hx hf) fun heq => ht.not_active (heq ▸ hx)).2
  · intro t hmem
    have hne : t ≠ task := fun heq => ht.not_active (heq ▸ hmem)
    exact ⟨(h.active_live t hmem).1, (hlive t hne).trans (h.active_live t hmem).2⟩
  · intro t hmem
    rcases List.mem_append.mp hmem with hmem | hmem
    · exact h.free_lt t hmem
    · rw [List.mem_singleton.mp hmem]
      exact ht.lt
  · intro t hlt
    rw [List.mem_append, List.mem_singleton]
    by_cases hne : t = task
    · simp [hne]
    · simp only [hne, or_false, hlive t hne]
      exact h.free_iff t hlt
  · intro t hmem
    obtain ⟨hlt, hl, hnot⟩ := h.running_live t hmem
    have hne : t ≠ task := fun heq => ht.not_running (heq ▸ hmem)
    exact ⟨hlt, (hlive t hne).trans hl, hnot⟩
  · intro t hlt hsus
    obtain ⟨hl, hnot, hrun⟩ := h.suspended_live t hlt hsus
    have hne : t ≠ task := by
      rintro rfl
      have := ht.awake
      simp only at hsus
      simp [this] at hsus
    exact ⟨(hlive t hne).trans hl, hnot, hrun⟩
  · simp only [List.length_append, List.length_singleton]
    omega

/-- The flags of the tasks change. -/
theorem withFlags (h : TaskInv s active free) {e : ℕ → Option ℕ} {st f ea te : ℕ → Bool}
    (hsus : ∀ t < s.bufIdx, f t = true → s.live t = true ∧ t ∉ active ∧ t ∉ s.running)
    (hev : ∀ t < s.bufIdx, e t ≠ none → f t = true) :
    TaskInv { s with evOp := e, started := st, suspended := f, evAdded := ea, terminate := te }
      active free :=
  ⟨h.activeRing, h.freeRing, h.active_live, h.free_lt, h.free_iff, h.running_nodup, h.running_live,
    hsus, hev, h.count, h.bufIdx_le, h.bufMax_lt⟩

/-- A task stops to run. -/
theorem eraseRunning (h : TaskInv s active free) (task : ℕ) :
    TaskInv { s with running := s.running.erase task } active free := by
  refine ⟨h.activeRing, h.freeRing, h.active_live, h.free_lt, h.free_iff, h.running_nodup.erase task,
    fun t ht => h.running_live t (List.mem_of_mem_erase ht), fun t hlt hsus => ?_, h.evOp_suspended,
    h.count, h.bufIdx_le, h.bufMax_lt⟩
  obtain ⟨hlive, hnot, hrun⟩ := h.suspended_live t hlt hsus
  exact ⟨hlive, hnot, fun hmem => hrun (List.mem_of_mem_erase hmem)⟩

/-- A running task that stops has no role. -/
theorem loose_of_running (h : TaskInv s active free) (hrun : task ∈ s.running) :
    Loose { s with running := s.running.erase task } active task := by
  obtain ⟨hlt, hlive, hnot⟩ := h.running_live task hrun
  refine ⟨hlt, hlive, hnot, h.running_nodup.not_mem_erase, ?_⟩
  by_contra hsus
  exact (h.suspended_live task hlt (by simpa using hsus)).2.2 hrun

/-- The first active task leaves the ring. -/
theorem takeHead (h : TaskInv s active free) (hhead : s.activeTaskId = some task) :
    ∃ active' p n head, s.tasklistDel s.activeTaskId task =
        ({ s with prevId := p, nextId := n }, head) ∧
      TaskInv { s with prevId := p, nextId := n, activeTaskId := head } active' free ∧
      Loose { s with prevId := p, nextId := n, activeTaskId := head } active' task := by
  have hring := h.activeRing
  rw [hhead] at hring
  obtain ⟨active', rfl⟩ := hring.eq_cons
  obtain ⟨hnot, -⟩ := List.nodup_cons.mp hring.nodup
  obtain ⟨p, n, head, heq, hring', hframe⟩ := tasklistDel_spec hring
  obtain ⟨hlt, hlive⟩ := h.active_live task (by simp)
  refine ⟨active', p, n, head, hhead.symm ▸ heq, ⟨hring', ?_, ?_, h.free_lt, h.free_iff,
    h.running_nodup, ?_, ?_, h.evOp_suspended, h.count, h.bufIdx_le, h.bufMax_lt⟩, hlt, hlive, hnot, ?_,
    ?_⟩
  · refine h.freeRing.congr (fun x hx => ?_) fun x hx => ?_
    · exact (hframe x fun ha => h.disjoint ha hx).1
    · exact (hframe x fun ha => h.disjoint ha hx).2
  · exact fun t ht => h.active_live t (List.mem_cons_of_mem _ ht)
  · intro t ht
    obtain ⟨hlt, hlive, hna⟩ := h.running_live t ht
    exact ⟨hlt, hlive, fun hmem => hna (List.mem_cons_of_mem _ hmem)⟩
  · intro t ht hsus
    obtain ⟨hlive, hna, hrun⟩ := h.suspended_live t ht hsus
    exact ⟨hlive, fun hmem => hna (List.mem_cons_of_mem _ hmem), hrun⟩
  · exact fun hmem => (h.running_live task hmem).2.2 (by simp)
  · by_contra hsus
    exact (h.suspended_live task hlt (by simpa using hsus)).2.1 (by simp)

/-- A loose task begins to run. -/
theorem run (h : TaskInv s active free) (ht : Loose s active task) (st : ℕ → Bool) :
    TaskInv { s with started := st, running := task :: s.running } active free := by
  refine ⟨h.activeRing, h.freeRing, h.active_live, h.free_lt, h.free_iff,
    List.nodup_cons.mpr ⟨ht.not_running, h.running_nodup⟩, fun t hmem => ?_, fun t hlt hsus => ?_,
    h.evOp_suspended, h.count, h.bufIdx_le, h.bufMax_lt⟩
  · rcases List.mem_cons.mp hmem with rfl | hmem
    · exact ⟨ht.lt, ht.live, ht.not_active⟩
    · exact h.running_live t hmem
  · obtain ⟨hlive, hnot, hrun⟩ := h.suspended_live t hlt hsus
    refine ⟨hlive, hnot, ?_⟩
    rw [List.mem_cons, not_or]
    refine ⟨?_, hrun⟩
    rintro rfl
    have := ht.awake
    simp only at hsus
    simp [this] at hsus

end TaskInv

variable {s s' : Sched} {task : ℕ}

theorem Sound.loopTake (h : s.Sound) (hrun : s.loopTake = some s') : s'.Sound := by
  obtain ⟨active, free, h⟩ := h
  obtain ⟨task, hhead, heq⟩ := Option.map_eq_some_iff.mp hrun
  obtain ⟨active', p, n, head, hdel, h₁, ht⟩ := h.takeHead hhead
  simp only [hdel] at heq
  rw [← heq]
  split
  · exact (h₁.taskDel ht).sound
  · exact (h₁.run ht _).sound

theorem Sound.loopDone (h : s.Sound) (hrun : task ∈ s.running) : (s.loopDone task).Sound := by
  obtain ⟨active, free, h⟩ := h
  exact ((h.eraseRunning task).taskDel (h.loose_of_running hrun)).sound

theorem Sound.loopYield (h : s.Sound) (hrun : task ∈ s.running) : (s.loopYield task).Sound := by
  unfold Sched.loopYield
  split
  · exact h.loopDone hrun
  · obtain ⟨active, free, h⟩ := h
    dsimp only
    split
    · exact (h.eraseRunning task).sound
    · exact ((h.eraseRunning task).addActive (h.loose_of_running hrun)).sound

/-- A running task is suspended and yields. -/
theorem Sound.suspendYield (h : s.Sound) (hrun : task ∈ s.running) (hterm : s.terminate task = false)
    {e : ℕ → Option ℕ} {ea : ℕ → Bool} (hev : ∀ t, t ≠ task → e t = s.evOp t) :
    (Sched.loopYield { s with
      evOp := e, suspended := Function.update s.suspended task true, evAdded := ea } task).Sound := by
  obtain ⟨active, free, h⟩ := h
  have ht := h.loose_of_running hrun
  simp only [Sched.loopYield, hterm, Bool.false_eq_true, if_false, Function.update_self, if_true]
  refine ⟨active, free, (h.eraseRunning task).withFlags (fun t hlt hsus => ?_) fun t hlt hne => ?_⟩
  · by_cases hte : t = task
    · rw [hte]
      exact ⟨ht.live, ht.not_active, ht.not_running⟩
    · rw [Function.update_of_ne hte] at hsus
      exact (h.eraseRunning task).suspended_live t hlt hsus
  · by_cases hte : t = task
    · rw [hte, Function.update_self]
    · rw [hev t hte] at hne
      rw [Function.update_of_ne hte]
      exact h.evOp_suspended t hlt hne

theorem Sound.luaYield (h : s.Sound) (hrun : task ∈ s.running) (canYield : Bool) :
    (s.luaYield task canYield).Sound := by
  cases canYield with
  | true => exact h.loopYield hrun
  | false => exact h

theorem update_none_ne {e : ℕ → Option ℕ} {t : ℕ} (h : Function.update e task none t ≠ none) :
    t ≠ task ∧ e t ≠ none := by
  by_cases hte : t = task
  · simp [hte] at h
  · rw [Function.update_of_ne hte] at h
    exact ⟨hte, h⟩

theorem update_false_eq {f : ℕ → Bool} {t : ℕ} (h : Function.update f task false t = true) :
    t ≠ task ∧ f t = true := by
  by_cases hte : t = task
  · simp [hte] at h
  · rw [Function.update_of_ne hte] at h
    exact ⟨hte, h⟩

/-- A suspended task becomes active again, and no other one does. -/
theorem TaskInv.wakeLast {active free : List ℕ} (h : TaskInv s active free) (hlt : task < s.bufIdx)
    (hsus : s.suspended task = true) {e : ℕ → Option ℕ} {ea te : ℕ → Bool}
    (hev : ∀ t, e t ≠ none → t ≠ task ∧ s.evOp t ≠ none) :
    TaskInv (({ s with
        evOp := e, suspended := Function.update s.suspended task false, evAdded := ea
        terminate := te } : Sched).addActive task) (active ++ [task]) free := by
  obtain ⟨hlive, hnot, hrun⟩ := h.suspended_live task hlt hsus
  have h₁ : TaskInv { s with
      evOp := e, suspended := Function.update s.suspended task false, evAdded := ea, terminate := te }
      active free := by
    refine h.withFlags (fun t hlt' ht => h.suspended_live t hlt' (update_false_eq ht).2) fun t hlt' ht => ?_
    obtain ⟨hne, hold⟩ := hev t ht
    rw [Function.update_of_ne hne]
    exact h.evOp_suspended t hlt' hold
  exact h₁.addActive ⟨hlt, hlive, hnot, hrun, by simp⟩

theorem TaskInv.wake {active free : List ℕ} (h : TaskInv s active free) (hlt : task < s.bufIdx)
    (hsus : s.suspended task = true) {e : ℕ → Option ℕ} {ea te : ℕ → Bool}
    (hev : ∀ t, e t ≠ none → t ≠ task ∧ s.evOp t ≠ none) :
    (({ s with
        evOp := e, suspended := Function.update s.suspended task false, evAdded := ea
        terminate := te } : Sched).addActive task).Sound :=
  (h.wakeLast hlt hsus hev).sound

/-- The other fields of a task may be set before or after it becomes active. -/
theorem addActive_suspended (s : Sched) (task : ℕ) (f : ℕ → Bool) :
    ({ s.addActive task with suspended := f } : Sched) =
      ({ s with suspended := f } : Sched).addActive task := by
  cases hhead : s.activeTaskId <;> simp [Sched.addActive, tasklistAdd, hhead]

theorem addActive_event (s : Sched) (task : ℕ) (e : ℕ → Option ℕ) (ea : ℕ → Bool) :
    ({ s.addActive task with evOp := e, evAdded := ea } : Sched) =
      ({ s with evOp := e, evAdded := ea } : Sched).addActive task := by
  cases hhead : s.activeTaskId <;> simp [Sched.addActive, tasklistAdd, hhead]

@[simp] theorem evOp_addActive (s : Sched) (task : ℕ) : (s.addActive task).evOp = s.evOp := by
  cases hhead : s.activeTaskId <;> simp [Sched.addActive, tasklistAdd, hhead]

@[simp] theorem suspended_addActive (s : Sched) (task : ℕ) :
    (s.addActive task).suspended = s.suspended := by
  cases hhead : s.activeTaskId <;> simp [Sched.addActive, tasklistAdd, hhead]

theorem Sound.schedTerminate (h : s.Sound) (task : ℕ) : (s.schedTerminate task).Sound := by
  obtain ⟨active, free, h⟩ := h
  unfold Sched.schedTerminate
  split
  · next hlt =>
    by_cases hsus : s.suspended task = true
    · simp only [hsus, if_true, evOp_addActive]
      split
      · rw [addActive_event]
        exact h.wake hlt hsus fun t ht => update_none_ne ht
      · next hev =>
        rw [ne_eq, not_not] at hev
        refine h.wake hlt hsus fun t ht => ⟨?_, ht⟩
        rintro rfl
        exact ht hev
    · have hev : s.evOp task = none := h.evOp_none hlt (by simpa using hsus)
      simp only [hsus, hev, Bool.false_eq_true, if_false, ne_eq, not_true]
      exact ⟨active, free, h.withFlags h.suspended_live h.evOp_suspended⟩
  · exact h.sound

theorem Sound.schedSuspend (h : s.Sound) {canYield : Bool}
    (hsafe : s.terminate task = false ∧ canYield = true)
    (hrun : s.schedSuspend task canYield = some s') : s'.Sound := by
  obtain ⟨hat, heq⟩ := Option.ite_none_right_eq_some.mp hrun
  rw [← Option.some.inj heq, hsafe.2]
  exact h.suspendYield hat.1 hsafe.1 fun _ _ => rfl

theorem Sound.schedResume (h : s.Sound) (hrun : s.schedResume task = some s') : s'.Sound := by
  obtain ⟨active, free, h⟩ := h
  obtain ⟨⟨hlt, hsus, hev⟩, heq⟩ := Option.ite_none_right_eq_some.mp hrun
  rw [← Option.some.inj heq, addActive_suspended, suspended_addActive]
  refine h.wake hlt hsus fun t ht => ⟨?_, ht⟩
  rintro rfl
  exact ht hev

/-- The task of a ready event becomes active. -/
theorem TaskInv.eventReady {active free : List ℕ} (h : TaskInv s active free) (hlt : task < s.bufIdx)
    {ev : ℕ} (hev : s.evOp task = some ev) :
    TaskInv (s.eventReady task (some ev)) (active ++ [task]) free := by
  simp only [Sched.eventReady, hev, ne_eq, not_true, if_false]
  exact h.wakeLast hlt (h.evOp_suspended task hlt (by simp [hev])) fun t ht => update_none_ne ht

theorem Sound.eventReady (h : s.Sound) (hlt : task < s.bufIdx) {ev : ℕ} :
    (s.eventReady task (some ev)).Sound := by
  by_cases hev : s.evOp task = some ev
  · obtain ⟨active, free, h⟩ := h
    exact (h.eventReady hlt hev).sound
  · simp only [Sched.eventReady, hev, ne_eq, not_false_eq_true, if_true]
    exact h

theorem Sound.eventAdded (h : s.Sound) (hlt : task < s.bufIdx) (hev : s.evOp task ≠ none)
    (ev : Option ℕ) : (s.eventAdded task ev).Sound := by
  obtain ⟨active, free, h⟩ := h
  have hsus := h.evOp_suspended task hlt hev
  cases ev with
  | none =>
      simp only [Sched.eventAdded, hsus, and_self, if_true, Sched.eventReady, Function.update_self, ne_eq,
        not_true, if_false]
      refine h.wake hlt hsus fun t ht => ?_
      obtain ⟨hne, hold⟩ := update_none_ne ht
      exact ⟨hne, (update_none_ne hold).2⟩
  | some ev =>
      simp only [Sched.eventAdded, reduceCtorEq, false_and, if_false]
      refine ⟨active, free, h.withFlags h.suspended_live fun t hlt' ht => ?_⟩
      by_cases hte : t = task
      · rw [hte, hsus]
      · rw [Function.update_of_ne hte] at ht
        exact h.evOp_suspended t hlt' ht

theorem Sound.schedEventAdd (h : s.Sound) {res : EventAddResult} {canYield : Bool}
    (hsafe : res ≠ .fails → s.terminate task = false ∧ canYield = true)
    (hrun : s.schedEventAdd task res canYield = some s') : s'.Sound := by
  obtain ⟨hat, heq⟩ := Option.ite_none_right_eq_some.mp hrun
  cases res with
  | fails =>
      rw [← Option.some.inj heq]
      exact h.luaYield hat canYield
  | added ev =>
      obtain ⟨hterm, hyield⟩ := hsafe (by simp)
      rw [← Option.some.inj heq, hyield]
      simp only [schedEventAdd.added, Sched.eventAdded, reduceCtorEq, false_and, if_false,
        Function.update_self, Bool.true_eq_false]
      exact h.suspendYield hat hterm fun t hne => Function.update_of_ne hne _ _
  | pending op =>
      obtain ⟨hterm, hyield⟩ := hsafe (by simp)
      rw [← Option.some.inj heq, hyield]
      simp only [schedEventAdd.added]
      split
      · exact h.suspendYield hat hterm fun t hne => Function.update_of_ne hne _ _
      · split
        · -- The error path: the flag is set and cleared again.
          obtain ⟨active, free, h⟩ := h
          have hawake : s.suspended task = false := (h.loose_of_running hat).awake
          have hsus : Function.update (Function.update s.suspended task true) task false =
              s.suspended := by
            rw [Function.update_idem, ← hawake, Function.update_eq_self]
          rw [hsus]
          have hs : Sound { s with evAdded := Function.update s.evAdded task false } :=
            ⟨active, free, h.withFlags h.suspended_live h.evOp_suspended⟩
          exact hs.luaYield hat true
        · exact h.suspendYield hat hterm fun t hne => rfl

/-- A task that is in no ring and does not run is cleared and counted. -/
theorem TaskInv.admit {active free free' : List ℕ} (h : TaskInv s active free) {p n : ℕ → ℕ}
    {head : Option ℕ} {idx max : ℕ} (hlinks : ∀ x ∈ active, n x = s.nextId x ∧ p x = s.prevId x)
    (hring : Ring n p head free') (hfree : ∀ t ∈ free', t < idx ∧ t ≠ task)
    (hiff : ∀ t < idx, t ≠ task → t < s.bufIdx ∧ (t ∈ free' ↔ t ∈ free))
    (hle : s.bufIdx ≤ idx) (hlt : task < idx) (hactive : task ∉ active) (hrun : task ∉ s.running)
    (hcount : s.ntasks + 1 + free'.length = idx) (hidx : idx ≤ max) (hmax : max < 2 ^ 31)
    {s₁ : Sched} (hs₁ : s₁ = { s with
      prevId := p, nextId := n, freeTaskId := head, bufIdx := idx, bufMax := max }) :
    TaskInv { s₁.taskClear task with
        ntasks := u32 (s₁.ntasks + 1), live := Function.update s₁.live task true } active free' ∧
      Loose { s₁.taskClear task with
        ntasks := u32 (s₁.ntasks + 1), live := Function.update s₁.live task true } active task := by
  subst hs₁
  have hlive : ∀ t, t ≠ task → Function.update s.live task true t = s.live t := fun t hne =>
    Function.update_of_ne hne _ _
  have hne : ∀ x ∈ active, x ≠ task := by
    rintro x hx rfl
    exact hactive hx
  refine ⟨⟨?_, ?_, ?_, fun t ht => (hfree t ht).1, ?_, h.running_nodup, ?_, ?_, ?_, ?_, hidx, hmax⟩, hlt,
    Function.update_self .., hactive, hrun, Function.update_self ..⟩
  · refine h.activeRing.congr (fun x hx => ?_) fun x hx => ?_
    · exact (Function.update_of_ne (hne x hx) _ _).trans (hlinks x hx).1
    · exact (Function.update_of_ne (hne x hx) _ _).trans (hlinks x hx).2
  · exact hring.congr (fun x hx => Function.update_of_ne (hfree x hx).2 _ _)
      fun x hx => Function.update_of_ne (hfree x hx).2 _ _
  · intro t ht
    obtain ⟨htlt, htlive⟩ := h.active_live t ht
    exact ⟨lt_of_lt_of_le htlt hle, (hlive t fun heq => hactive (heq ▸ ht)).trans htlive⟩
  · intro t ht
    by_cases hte : t = task
    · subst hte
      simp only [Function.update_self, Bool.true_eq_false, iff_false]
      exact fun hmem => (hfree t hmem).2 rfl
    · obtain ⟨hlt', hmem⟩ := hiff t ht hte
      rw [hmem, h.free_iff t hlt']
      simp only [hlive t hte]
  · intro t ht
    obtain ⟨htlt, htlive, hnot⟩ := h.running_live t ht
    exact ⟨lt_of_lt_of_le htlt hle, (hlive t fun heq => hrun (heq ▸ ht)).trans htlive, hnot⟩
  · intro t ht hs
    obtain ⟨hne, hold⟩ := update_false_eq hs
    obtain ⟨hl, hnot, hr⟩ := h.suspended_live t (hiff t ht hne).1 hold
    exact ⟨(hlive t hne).trans hl, hnot, hr⟩
  · intro t ht hev
    obtain ⟨hne, hold⟩ := update_none_ne hev
    exact (Function.update_of_ne hne _ _).trans (h.evOp_suspended t (hiff t ht hne).1 hold)
  · show u32 (s.ntasks + 1) + free'.length = idx
    rw [u32_of_lt (by omega)]
    exact hcount

/-- A task leaves the free ring, or the buffer grows. -/
theorem TaskInv.alloc {active free : List ℕ} (h : TaskInv s active free) {realloc : Bool} {s₁ : Sched}
    (halloc : s.taskAlloc realloc = some (task, s₁)) :
    ∃ free', TaskInv { s₁.taskClear task with
        ntasks := u32 (s₁.ntasks + 1), live := Function.update s₁.live task true } active free' ∧
      Loose { s₁.taskClear task with
        ntasks := u32 (s₁.ntasks + 1), live := Function.update s₁.live task true } active task := by
  have hcount := h.count
  have hidx := h.bufIdx_le
  have hmax := h.bufMax_lt
  unfold taskAlloc at halloc
  cases hhead : s.freeTaskId with
  | some t =>
      simp only [hhead, Option.some.injEq, Prod.mk.injEq] at halloc
      obtain ⟨rfl, heq⟩ := halloc
      have hring := h.freeRing
      rw [hhead] at hring
      obtain ⟨free', rfl⟩ := hring.eq_cons
      obtain ⟨hnot, -⟩ := List.nodup_cons.mp hring.nodup
      obtain ⟨p, n, head, hdel, hring', hframe⟩ := tasklistDel_spec hring
      have hdead := h.free_live t (by simp)
      refine ⟨free', h.admit (fun x hx => hframe x fun hf => h.disjoint hx hf) hring'
        (fun x hx => ⟨h.free_lt x (List.mem_cons_of_mem _ hx), ne_of_mem_of_not_mem hx hnot⟩)
        (fun x hx hne => ⟨hx, by simp [hne]⟩) le_rfl (h.free_lt t (by simp))
        (fun ha => h.disjoint ha (by simp)) (fun hr => ?_) ?_ hidx hmax ?_⟩
      · have := (h.running_live t hr).2.1
        simp [hdead] at this
      · rw [List.length_cons] at hcount
        omega
      · rw [← heq, hdel]
  | none =>
      have hring := h.freeRing
      rw [hhead] at hring
      obtain rfl := hring.eq_nil
      -- Both ways the next index of the buffer is taken.
      have hadmit : ∀ max, s.bufIdx + 1 ≤ max → max < 2 ^ 31 →
          ∀ s₁, s₁ = { s with freeTaskId := none, bufMax := max, bufIdx := s.bufIdx + 1 } →
          TaskInv { s₁.taskClear s.bufIdx with
            ntasks := u32 (s₁.ntasks + 1), live := Function.update s₁.live s.bufIdx true } active [] ∧
          Loose { s₁.taskClear s.bufIdx with
            ntasks := u32 (s₁.ntasks + 1)
            live := Function.update s₁.live s.bufIdx true } active s.bufIdx := by
        intro max hle hlt s₁ hs₁
        refine h.admit (fun x _ => ⟨rfl, rfl⟩) hring (by simp) (fun x hx hne => ⟨by omega, Iff.rfl⟩)
          (Nat.le_succ _) (Nat.lt_succ_self _) (fun ha => ?_) (fun hr => ?_) ?_ hle hlt ?_
        · exact absurd (h.active_live _ ha).1 (lt_irrefl _)
        · exact absurd (h.running_live _ hr).1 (lt_irrefl _)
        · simp only [List.length_nil] at hcount ⊢
          omega
        · rw [hs₁]
      simp only [hhead] at halloc
      split at halloc
      · next hfull =>
        obtain ⟨⟨-, hnew⟩, heq⟩ := Option.ite_none_right_eq_some.mp halloc
        simp only [Option.some.injEq, Prod.mk.injEq] at heq
        obtain ⟨rfl, heq⟩ := heq
        refine ⟨[], hadmit _ ?_ ?_ s₁ heq.symm⟩
        · rw [hfull]
          split
          · omega
          · simp only [schedBufMin]
            omega
        · exact hnew
      · next hroom =>
        simp only [Option.some.injEq, Prod.mk.injEq] at halloc
        obtain ⟨rfl, heq⟩ := halloc
        exact ⟨[], hadmit s.bufMax (by omega) hmax s₁ heq.symm⟩

@[simp] theorem ntasks_addActive (s : Sched) (task : ℕ) : (s.addActive task).ntasks = s.ntasks := by
  cases hhead : s.activeTaskId <;> simp [Sched.addActive, tasklistAdd, hhead]

@[simp] theorem live_addActive (s : Sched) (task : ℕ) : (s.addActive task).live = s.live := by
  cases hhead : s.activeTaskId <;> simp [Sched.addActive, tasklistAdd, hhead]

theorem addActive_count (s : Sched) (task n : ℕ) (l : ℕ → Bool) :
    ({ s.addActive task with ntasks := n, live := l } : Sched) =
      ({ s with ntasks := n, live := l } : Sched).addActive task := by
  cases hhead : s.activeTaskId <;> simp [Sched.addActive, tasklistAdd, hhead]

theorem Sound.schedPut (h : s.Sound) {realloc : Bool} (hrun : s.schedPut realloc = some s') :
    s'.Sound := by
  obtain ⟨active, free, h⟩ := h
  obtain ⟨⟨task, s₁⟩, halloc, heq⟩ := Option.map_eq_some_iff.mp hrun
  obtain ⟨free', h₁, ht⟩ := h.alloc halloc
  dsimp only at heq
  rw [addActive_count, ntasks_addActive, live_addActive] at heq
  exact heq ▸ (h₁.addActive ht).sound

theorem init_sound : init.Sound := by
  refine ⟨[], [], ring_nil, ring_nil, ?_, ?_, ?_, List.nodup_nil, ?_, ?_, ?_, rfl, ?_, ?_⟩
  all_goals simp [init]

end Sched

/-! ## Safe runs -/

/-- A task suspends itself only where it can yield and has not been asked to terminate,
and a pending operation is processed for a task that still waits for it. -/
def TaskOp.Safe (s : Sched) : TaskOp → Prop
  | .suspend task canYield => s.terminate task = false ∧ canYield = true
  | .eventAdd task res canYield => res ≠ .fails → s.terminate task = false ∧ canYield = true
  | .eventAdded task op _ => s.evOp task = some op
  | _ => True

namespace Sched

variable {s s' : Sched}

/-- The transitions of a run. -/
def Step (s s' : Sched) : Prop := ∃ op, s.step op = some s'

/-- The transitions of a run with safe steps only. -/
def SafeStep (s s' : Sched) : Prop := ∃ op : TaskOp, op.Safe s ∧ s.step op = some s'

/-- A safe step keeps the rings. -/
theorem SafeStep.sound (hstep : SafeStep s s') (h : s.Sound) : s'.Sound := by
  obtain ⟨op, hsafe, hop⟩ := hstep
  cases op with
  | put realloc => exact h.schedPut hop
  | take => exact h.loopTake hop
  | yield task =>
      obtain ⟨hrun, heq⟩ := Option.ite_none_right_eq_some.mp hop
      exact Option.some.inj heq ▸ h.loopYield hrun
  | done task =>
      obtain ⟨hrun, heq⟩ := Option.ite_none_right_eq_some.mp hop
      exact Option.some.inj heq ▸ h.loopDone hrun
  | terminate task => exact Option.some.inj hop ▸ h.schedTerminate task
  | suspend task canYield => exact h.schedSuspend hsafe hop
  | resume task => exact h.schedResume hop
  | eventAdd task res canYield => exact h.schedEventAdd hsafe hop
  | eventAdded task op ev =>
      obtain ⟨hlt, heq⟩ := Option.ite_none_right_eq_some.mp hop
      have hev : s.evOp task = some op := hsafe
      exact Option.some.inj heq ▸ h.eventAdded hlt (by simp [hev]) ev
  | eventReady task ev =>
      obtain ⟨hlt, heq⟩ := Option.ite_none_right_eq_some.mp hop
      exact Option.some.inj heq ▸ h.eventReady hlt

end Sched

/-- **The rings of a scheduler.**  In every run of safe steps the rings are well formed
and the flags and the counter of the tasks agree with them. -/
theorem safe_run_wellFormed {s : Sched}
    (hrun : Relation.ReflTransGen Sched.SafeStep Sched.init s) : s.WellFormed := by
  obtain ⟨active, free, h⟩ := inv_of_reach (fun _ _ hstep => hstep.sound) Sched.init_sound hrun
  exact h.wellFormed

/-- Two tasks: the first one runs and suspends itself. -/
theorem safe_run_wellFormed_twoTasks :
    ∃ s, Relation.ReflTransGen Sched.SafeStep Sched.init s ∧ s.activeTaskId = some 1 ∧
      s.freeTaskId = none ∧ s.suspended 0 = true ∧ s.WellFormed := by
  have hrun : Relation.ReflTransGen Sched.SafeStep Sched.init _ :=
    .tail (.tail (.tail (.tail .refl
      ⟨.put true, trivial, rfl⟩)
      ⟨.put true, trivial, rfl⟩)
      ⟨.take, trivial, rfl⟩)
      ⟨.suspend 0 true, ⟨rfl, rfl⟩, rfl⟩
  exact ⟨_, hrun, rfl, rfl, rfl, safe_run_wellFormed hrun⟩

/-- A task is terminated while it runs, suspends itself, and is terminated again. -/
def terminateSuspendOps : List TaskOp :=
  [.put true, .take, .terminate 0, .suspend 0 true, .terminate 0]

/-- The task has been deleted when the second termination makes it active. -/
theorem terminated_task_in_both_rings :
    ∃ s, Relation.ReflTransGen Sched.Step Sched.init s ∧ ¬s.WellFormed := by
  have hrun : (runOps Sched.step Sched.init terminateSuspendOps).map
      (fun s => (s.activeTaskId, s.freeTaskId)) = some (some 0, some 0) := rfl
  obtain ⟨s, hs, heq⟩ := Option.map_eq_some_iff.mp hrun
  obtain ⟨hactive, hfree⟩ := Prod.mk.inj heq
  refine ⟨s, reach_of_runOps (fun _ op _ hop => ⟨op, hop⟩) hs, ?_⟩
  rintro ⟨active, free, ha, hf, hdisj, -⟩
  rw [hactive] at ha
  rw [hfree] at hf
  exact hdisj ha.head_mem hf.head_mem

end LuaSys.Thread
