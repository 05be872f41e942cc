import LuaSys.Thread.SchedRings

/-!
# The rings of a scheduler as queues

A ring in the buffer is read from its head.  `sched_tasklist_add` puts a task at the end
of the list, behind the task that the head points back to, and `sched_tasklist_del`
takes a member out; both write the links of members only, so that the other rings stay
as they are.  `sched_loop` takes the head, hence the tasks are resumed in the order in
which they became active, as long as no task is linked that is in a ring already.

## Main definitions

* `Sched.BufferRing` — a well-formed ring in the buffer.
* `Sched.Relinks` — only the links of some tasks change.
* `TaskOp.becomes`, `TaskOp.takes` — the tasks that a step makes active, or takes.
* `SchedRun` — a run with the tasks that became active and those that were taken.

## Main results

* `task_rings_are_queues` — the operations of the rings, and the order of a run.
* `safe_run_keeps_order` — a run of safe steps from a new scheduler keeps the order.
-/

namespace LuaSys.Thread

open LuaSys.Lib

namespace Sched

/-! ## A ring in the buffer -/

/-- A well-formed ring in the buffer, known by its head. -/
structure BufferRing (s : Sched) (head : Option ℕ) (l : List ℕ) : Prop where
  ring : Ring s.nextId s.prevId head l
  inBuffer : ∀ t ∈ l, s.checkTaskId t

/-- Only the links of the tasks `l` change. -/
structure Relinks (s s' : Sched) (l : List ℕ) : Prop where
  eq_links : s' = { s with prevId := s'.prevId, nextId := s'.nextId }
  frame : ∀ x ∉ l, s'.nextId x = s.nextId x ∧ s'.prevId x = s.prevId x

variable {s s' : Sched} {head head' : Option ℕ} {task : ℕ} {l l' : List ℕ}

/-- A ring without the tasks that change stays. -/
theorem BufferRing.relinks (h : s.BufferRing head' l') (hlinks : Relinks s s' l)
    (hdisj : l'.Disjoint l) : s'.BufferRing head' l' := by
  refine ⟨h.ring.congr (fun x hx => (hlinks.frame x (hdisj hx)).1)
    fun x hx => (hlinks.frame x (hdisj hx)).2, fun t ht => ?_⟩
  rw [hlinks.eq_links]
  exact h.inBuffer t ht

/-- `sched_tasklist_add` appends a task. -/
theorem BufferRing.tasklistAdd (h : s.BufferRing head l) (hlt : s.checkTaskId task) (htask : task ∉ l) :
    (s.tasklistAdd head task).1.BufferRing (s.tasklistAdd head task).2 (l ++ [task]) ∧
      Relinks s (s.tasklistAdd head task).1 (task :: l) := by
  obtain ⟨p, n, head', heq, hring, hframe⟩ := tasklistAdd_spec h.ring htask
  rw [heq]
  refine ⟨⟨hring, fun t ht => ?_⟩, rfl, fun x hx => ?_⟩
  · rcases List.mem_append.mp ht with ht | ht
    · exact h.inBuffer t ht
    · exact List.mem_singleton.mp ht ▸ hlt
  · rw [List.mem_cons, not_or] at hx
    exact hframe x hx.2 hx.1

/-- `sched_tasklist_del` removes a member. -/
theorem BufferRing.tasklistDel (h : s.BufferRing head l) (htask : task ∈ l) :
    (s.tasklistDel head task).1.BufferRing (s.tasklistDel head task).2 (l.erase task) ∧
      Relinks s (s.tasklistDel head task).1 l := by
  obtain ⟨p, n, head', heq, hring, hframe⟩ := tasklistDel_erase h.ring htask
  rw [heq]
  exact ⟨⟨hring, fun t ht => h.inBuffer t (List.mem_of_mem_erase ht)⟩, rfl, hframe⟩

/-! ## Allocation -/

/-- The links behind the first `bound` tasks are what `realloc` finds in the new memory. -/
def withMemory (s : Sched) (bound : ℕ) (p n : ℕ → ℕ) : Sched :=
  { s with
    prevId := fun x => if x < bound then s.prevId x else p x
    nextId := fun x => if x < bound then s.nextId x else n x }

theorem BufferRing.withMemory (h : s.BufferRing head l) {bound : ℕ} (hbound : ∀ t ∈ l, t < bound)
    (p n : ℕ → ℕ) : (s.withMemory bound p n).BufferRing head l :=
  ⟨h.ring.congr (fun x hx => if_pos (hbound x hx)) fun x hx => if_pos (hbound x hx), h.inBuffer⟩

/-- `sched_task_alloc` without free tasks takes the next one of the buffer, which may have
to grow. -/
theorem taskAlloc_next (hfree : s.freeTaskId = none) {realloc : Bool} {r : ℕ × Sched}
    (halloc : s.taskAlloc realloc = some r) :
    ∃ max, r = (s.bufIdx, { s with freeTaskId := none, bufMax := max, bufIdx := s.bufIdx + 1 }) ∧
      (max = s.bufMax ∨ s.bufIdx = s.bufMax) := by
  simp only [taskAlloc, hfree] at halloc
  split at halloc
  · next hfull =>
    obtain ⟨-, heq⟩ := Option.ite_none_right_eq_some.mp halloc
    exact ⟨_, (Option.some.inj heq).symm, .inr hfull⟩
  · exact ⟨s.bufMax, (Option.some.inj halloc).symm, .inl rfl⟩

/-- The rings behind an allocation: the free one has lost its first task, the new task is
in no ring, and the other rings stay, also when the buffer has moved to new memory. -/
structure AllocKeeps (s : Sched) (free : List ℕ) (task : ℕ) (s₁ : Sched) : Prop where
  freeRing : s₁.BufferRing s₁.freeTaskId free.tail
  inBuffer : s₁.checkTaskId task
  unlinked : task ∉ free.tail
  others : ∀ head l, s.BufferRing head l → l.Disjoint free → s₁.BufferRing head l ∧ task ∉ l
  growth : s₁.bufMax ≠ s.bufMax → ∀ p n head l, s.BufferRing head l →
    (s₁.withMemory s.bufMax p n).BufferRing head l

theorem BufferRing.taskAlloc {free : List ℕ} (h : s.BufferRing s.freeTaskId free) {realloc : Bool}
    {s₁ : Sched} (halloc : s.taskAlloc realloc = some (task, s₁)) :
    AllocKeeps s free task s₁ ∧ s₁.activeTaskId = s.activeTaskId := by
  cases free with
  | nil =>
      have hfree : s.freeTaskId = none := h.ring.2.1
      obtain ⟨max, heq, hmax⟩ := taskAlloc_next hfree halloc
      obtain ⟨rfl, rfl⟩ := Prod.mk.inj heq
      have hkeep : ∀ head l, s.BufferRing head l → BufferRing
          { s with freeTaskId := none, bufMax := max, bufIdx := s.bufIdx + 1 } head l := fun head l hl =>
        ⟨hl.ring, fun t ht => Nat.lt_succ_of_lt (hl.inBuffer t ht)⟩
      refine ⟨⟨hkeep none [] ⟨ring_nil, by simp⟩, Nat.lt_succ_self _, by simp, fun head l hl _ => ?_,
        fun hne p n head l hl => ?_⟩, rfl⟩
      · exact ⟨hkeep head l hl, fun hmem => absurd (hl.inBuffer _ hmem) (lt_irrefl s.bufIdx)⟩
      · -- The buffer grows only when all of it is in use.
        have hfull : s.bufIdx = s.bufMax := hmax.resolve_left hne
        exact (hkeep head l hl).withMemory (fun t ht => hfull ▸ hl.inBuffer t ht) p n
  | cons t free =>
      have hhead : s.freeTaskId = some t := h.ring.2.1
      obtain ⟨hring, hlinks⟩ := h.tasklistDel List.mem_cons_self
      simp only [Sched.taskAlloc, hhead, Option.some.injEq, Prod.mk.injEq] at halloc
      obtain ⟨rfl, rfl⟩ := halloc
      rw [List.erase_cons_head, hhead] at hring
      rw [hhead] at hlinks
      obtain ⟨hnot, -⟩ := List.nodup_cons.mp h.ring.nodup
      have hidx : (s.tasklistDel (some t) t).1.bufIdx = s.bufIdx := by rw [hlinks.eq_links]
      refine ⟨⟨⟨hring.ring, hring.inBuffer⟩, ?_, hnot, fun head l hl hdisj => ?_, fun hne => ?_⟩, ?_⟩
      · exact hidx.symm ▸ h.inBuffer t List.mem_cons_self
      · have hkeep := hl.relinks hlinks hdisj
        exact ⟨⟨hkeep.ring, hkeep.inBuffer⟩, fun hmem => hdisj hmem List.mem_cons_self⟩
      · refine absurd ?_ hne
        rw [hlinks.eq_links]
      · rw [hlinks.eq_links]

/-! ## The two rings -/

/-- The rings of the active and of the free tasks. -/
structure Rings (s : Sched) (active free : List ℕ) : Prop where
  activeRing : s.BufferRing s.activeTaskId active
  freeRing : s.BufferRing s.freeTaskId free
  disjoint : active.Disjoint free

/-- A task of the buffer that is in no ring. -/
def Unlinked (s : Sched) (task : ℕ) : Prop :=
  s.checkTaskId task ∧ ∀ active free, s.Rings active free → task ∉ active ∧ task ∉ free

/-- The tasks that become active when `task` yields. -/
def yieldBecomes (s : Sched) (task : ℕ) (canYield : Bool) : List ℕ :=
  if canYield ∧ s.terminate task = false ∧ s.suspended task = false then [task] else []

/-- The tasks that are deleted when `task` yields. -/
def yieldDeletes (s : Sched) (task : ℕ) (canYield : Bool) : List ℕ :=
  if canYield ∧ s.terminate task then [task] else []

/-- The flags of a running task that waits for an event. -/
def eventFlags (s : Sched) (task : ℕ) : EventAddResult → Sched
  | .fails => s
  | .added ev => schedEventAdd.added (s.eventAdded task (some ev)) task ev
  | .pending op => schedEventAdd.added s task op

end Sched

/-- The tasks that a step makes active. -/
def TaskOp.becomes (s : Sched) : TaskOp → List ℕ
  | .put realloc => ((s.taskAlloc realloc).map Prod.fst).toList
  | .yield task => s.yieldBecomes task true
  | .terminate task => if s.checkTaskId task ∧ s.suspended task then [task] else []
  | .resume task => [task]
  | .eventAdd task res canYield => (s.eventFlags task res).yieldBecomes task canYield
  | .eventAdded task _ ev => if ev = none ∧ s.suspended task then [task] else []
  | .eventReady task ev => if s.evOp task = some ev then [task] else []
  | .take | .done _ | .suspend _ _ => []

/-- The task that `sched_loop` takes, and whether it has been terminated. -/
def TaskOp.takes (s : Sched) : TaskOp → List (ℕ × Bool)
  | .take => s.activeTaskId.toList.map fun task => (task, s.terminate task)
  | _ => []

/-- The tasks that a step other than `take` hands to the free ring. -/
def TaskOp.deletes (s : Sched) : TaskOp → List ℕ
  | .yield task => s.yieldDeletes task true
  | .done task => [task]
  | .suspend task canYield | .eventAdd task _ canYield => s.yieldDeletes task canYield
  | _ => []

/-- The tasks that a step links are in no ring.  `sched_put` and `sched_loop` link a task
that they have unlinked themselves. -/
def TaskOp.LinksUnlinked (s : Sched) : TaskOp → Prop
  | .put _ | .take => True
  | op => ∀ t ∈ op.becomes s ++ op.deletes s, s.Unlinked t

namespace Sched

namespace Rings

variable {s s' : Sched} {active free : List ℕ} {task : ℕ}

/-- The rings are those of the links and the heads. -/
theorem congr (h : s.Rings active free) (hn : s'.nextId = s.nextId) (hp : s'.prevId = s.prevId)
    (ha : s'.activeTaskId = s.activeTaskId) (hf : s'.freeTaskId = s.freeTaskId)
    (hidx : s'.bufIdx = s.bufIdx) : s'.Rings active free := by
  have hring : ∀ head l, s.BufferRing head l → s'.BufferRing head l := fun head l hl =>
    ⟨hl.ring.congr (fun x _ => congrFun hn x) fun x _ => congrFun hp x,
      fun t ht => lt_of_lt_of_eq (hl.inBuffer t ht) hidx.symm⟩
  exact ⟨ha ▸ hring _ _ h.activeRing, hf ▸ hring _ _ h.freeRing, h.disjoint⟩

/-- The flags of the tasks change. -/
theorem withFlags (h : s.Rings active free) {e : ℕ → Option ℕ} {st f ea te : ℕ → Bool} {run : List ℕ} :
    Rings { s with
      evOp := e, started := st, suspended := f, evAdded := ea, terminate := te, running := run }
      active free :=
  h.congr rfl rfl rfl rfl rfl

/-- A task becomes the last active one. -/
theorem addActive (h : s.Rings active free) (hlt : s.checkTaskId task) (ha : task ∉ active)
    (hf : task ∉ free) : (s.addActive task).Rings (active ++ [task]) free := by
  obtain ⟨hring, hlinks⟩ := h.activeRing.tasklistAdd hlt ha
  have hdisj : free.Disjoint (task :: active) :=
    List.disjoint_cons_right.mpr ⟨hf, (List.disjoint_comm.mp h.disjoint)⟩
  have hfree := h.freeRing.relinks hlinks hdisj
  refine ⟨⟨hring.ring, hring.inBuffer⟩, ?_, ?_⟩
  · have hhead : (s.addActive task).freeTaskId = s.freeTaskId := by
      rw [Sched.addActive, hlinks.eq_links]
    exact hhead ▸ ⟨hfree.ring, hfree.inBuffer⟩
  · exact List.disjoint_append_left.mpr ⟨h.disjoint, List.singleton_disjoint.mpr hf⟩

/-- A task becomes the last free one. -/
theorem taskDel (h : s.Rings active free) (hlt : s.checkTaskId task) (ha : task ∉ active)
    (hf : task ∉ free) : (s.taskDel task).Rings active (free ++ [task]) := by
  obtain ⟨hring, hlinks⟩ := h.freeRing.tasklistAdd hlt hf
  have hactive := h.activeRing.relinks hlinks (List.disjoint_cons_right.mpr ⟨ha, h.disjoint⟩)
  refine ⟨?_, ⟨hring.ring, hring.inBuffer⟩, ?_⟩
  · have hhead : (s.taskDel task).activeTaskId = s.activeTaskId := by
      rw [Sched.taskDel, hlinks.eq_links]
    exact hhead ▸ ⟨hactive.ring, hactive.inBuffer⟩
  · exact List.disjoint_append_right.mpr ⟨h.disjoint, List.disjoint_singleton.mpr ha⟩

/-- The first active task leaves its ring. -/
theorem takeHead (h : s.Rings (task :: active) free) :
    let r := s.tasklistDel s.activeTaskId task
    Rings { r.1 with activeTaskId := r.2 } active free ∧
      Relinks s r.1 (task :: active) := by
  obtain ⟨hring, hlinks⟩ := h.activeRing.tasklistDel List.mem_cons_self
  rw [List.erase_cons_head] at hring
  have hfree := h.freeRing.relinks hlinks (List.disjoint_comm.mp h.disjoint)
  refine ⟨⟨⟨hring.ring, hring.inBuffer⟩, ?_, (List.disjoint_cons_left.mp h.disjoint).2⟩, hlinks⟩
  have hhead : (s.tasklistDel s.activeTaskId task).1.freeTaskId = s.freeTaskId := by
    rw [hlinks.eq_links]
  exact hhead.symm ▸ ⟨hfree.ring, hfree.inBuffer⟩

/-- A new task is taken, cleared and made active. -/
theorem schedPut (h : s.Rings active free) {realloc : Bool} (hput : s.schedPut realloc = some s') :
    ∃ task, (s.taskAlloc realloc).map Prod.fst = some task ∧ s'.Rings (active ++ [task]) free.tail := by
  obtain ⟨⟨task, s₁⟩, halloc, heq⟩ := Option.map_eq_some_iff.mp hput
  obtain ⟨hkeep, hhead⟩ := h.freeRing.taskAlloc halloc
  obtain ⟨hactive, hnot⟩ := hkeep.others _ _ h.activeRing h.disjoint
  have h₁ : s₁.Rings active free.tail :=
    ⟨hhead ▸ hactive, hkeep.freeRing, List.disjoint_of_subset_right (fun _ => List.mem_of_mem_tail) h.disjoint⟩
  have h₂ : (s₁.taskClear task).Rings active free.tail := by
    have hlinks : ∀ head l, s₁.BufferRing head l → task ∉ l → (s₁.taskClear task).BufferRing head l :=
      fun head l hl hmem =>
        ⟨hl.ring.congr (fun x hx => Function.update_of_ne (ne_of_mem_of_not_mem hx hmem) _ _)
          fun x hx => Function.update_of_ne (ne_of_mem_of_not_mem hx hmem) _ _, hl.inBuffer⟩
    exact ⟨hlinks _ _ h₁.activeRing hnot, hlinks _ _ h₁.freeRing hkeep.unlinked, h₁.disjoint⟩
  refine ⟨task, by rw [halloc]; rfl, ?_⟩
  rw [← heq]
  exact (h₂.addActive hkeep.inBuffer hnot hkeep.unlinked).congr rfl rfl rfl rfl rfl

/-- A running task yields. -/
theorem luaYield (h : s.Rings active free) {canYield : Bool}
    (hlinks : ∀ t ∈ s.yieldBecomes task canYield ++ s.yieldDeletes task canYield, s.Unlinked t) :
    ∃ free', (s.luaYield task canYield).Rings (active ++ s.yieldBecomes task canYield) free' := by
  have hstop : ({ s with running := s.running.erase task } : Sched).Rings active free := h.withFlags
  cases canYield with
  | false => exact ⟨free, by simpa [Sched.luaYield, yieldBecomes] using h⟩
  | true =>
      simp only [yieldBecomes, yieldDeletes, true_and] at hlinks ⊢
      rw [Sched.luaYield, if_pos rfl, Sched.loopYield]
      cases hterm : s.terminate task with
      | true =>
          simp only [hterm, Bool.true_eq_false, false_and, if_false, if_true, List.nil_append,
            List.append_nil] at hlinks ⊢
          obtain ⟨hlt, hnot⟩ := hlinks task (List.mem_singleton_self task)
          obtain ⟨ha, hf⟩ := hnot active free h
          exact ⟨_, hstop.taskDel hlt ha hf⟩
      | false =>
          cases hsus : s.suspended task with
          | true => exact ⟨free, by simpa [hsus] using hstop⟩
          | false =>
              simp only [hterm, hsus, and_self, if_true, Bool.false_eq_true, if_false,
                List.append_nil] at hlinks ⊢
              obtain ⟨hlt, hnot⟩ := hlinks task (List.mem_singleton_self task)
              obtain ⟨ha, hf⟩ := hnot active free h
              exact ⟨free, hstop.addActive hlt ha hf⟩

end Rings

/-- The flags are not those of the rings. -/
theorem eventFlags_eq (s : Sched) (task : ℕ) (res : EventAddResult) :
    ∃ e f ea, s.eventFlags task res = { s with evOp := e, suspended := f, evAdded := ea } := by
  cases res with
  | fails => exact ⟨s.evOp, s.suspended, s.evAdded, rfl⟩
  | added ev =>
      refine ⟨Function.update s.evOp task (some ev), Function.update s.suspended task true,
        Function.update s.evAdded task true, ?_⟩
      simp [eventFlags, schedEventAdd.added, eventAdded]
  | pending op =>
      simp only [eventFlags, schedEventAdd.added]
      split
      · exact ⟨_, _, _, rfl⟩
      · split
        · exact ⟨_, _, _, rfl⟩
        · exact ⟨_, _, _, rfl⟩

theorem schedEventAdd_eq {s s' : Sched} {task : ℕ} {res : EventAddResult} {canYield : Bool}
    (h : s.schedEventAdd task res canYield = some s') :
    s' = (s.eventFlags task res).luaYield task canYield := by
  obtain ⟨-, heq⟩ := Option.ite_none_right_eq_some.mp h
  cases res <;> exact (Option.some.inj heq).symm

section steps

variable {s s' : Sched} {active free : List ℕ} {task : ℕ}

theorem Unlinked.congr (h : s.Unlinked task) (hn : s'.nextId = s.nextId) (hp : s'.prevId = s.prevId)
    (ha : s'.activeTaskId = s.activeTaskId) (hf : s'.freeTaskId = s.freeTaskId)
    (hidx : s'.bufIdx = s.bufIdx) : s'.Unlinked task :=
  ⟨lt_of_lt_of_eq h.1 hidx.symm, fun active free hr =>
    h.2 active free (hr.congr hn.symm hp.symm ha.symm hf.symm hidx.symm)⟩

/-- `sched_loop` takes the first active task. -/
theorem Rings.loopTake (h : s.Rings active free) (htake : s.loopTake = some s') :
    ∃ task active' free', active = task :: active' ∧ s.activeTaskId = some task ∧
      s'.Rings active' free' := by
  obtain ⟨task, hhead, heq⟩ := Option.map_eq_some_iff.mp htake
  have hring := h.activeRing.ring
  rw [hhead] at hring
  obtain ⟨active', rfl⟩ := hring.eq_cons
  obtain ⟨h₁, hlinks⟩ := h.takeHead
  obtain ⟨hnot, -⟩ := List.nodup_cons.mp hring.nodup
  have hf : task ∉ free := fun hmem => h.disjoint List.mem_cons_self hmem
  have hlt : s.checkTaskId task := h.activeRing.inBuffer task List.mem_cons_self
  have hidx : (s.tasklistDel s.activeTaskId task).1.bufIdx = s.bufIdx := by rw [hlinks.eq_links]
  dsimp only at heq
  split at heq
  · exact ⟨task, active', _, rfl, hhead, heq ▸ h₁.taskDel (lt_of_lt_of_eq hlt hidx.symm) hnot hf⟩
  · exact ⟨task, active', free, rfl, hhead, heq ▸ h₁.withFlags⟩

/-- A running task yields with other flags. -/
theorem Rings.flagsYield (h : s.Rings active free) {s₁ : Sched} {e : ℕ → Option ℕ} {f ea : ℕ → Bool}
    (hs₁ : s₁ = { s with evOp := e, suspended := f, evAdded := ea }) {canYield : Bool}
    (hlinks : ∀ t ∈ s₁.yieldBecomes task canYield ++ s.yieldDeletes task canYield, s.Unlinked t) :
    ∃ free', (s₁.luaYield task canYield).Rings (active ++ s₁.yieldBecomes task canYield) free' := by
  subst hs₁
  exact h.withFlags.luaYield fun t ht => (hlinks t ht).congr rfl rfl rfl rfl rfl

/-- A suspended task is asked to terminate and becomes active. -/
theorem Rings.schedTerminate (h : s.Rings active free)
    (hlinks : ∀ t ∈ (TaskOp.terminate task).becomes s, s.Unlinked t) :
    (s.schedTerminate task).Rings (active ++ (TaskOp.terminate task).becomes s) free := by
  rw [Sched.schedTerminate]
  by_cases hlt : s.checkTaskId task
  · rw [if_pos hlt]
    by_cases hsus : s.suspended task = true
    · simp only [TaskOp.becomes, hlt, hsus, and_self, if_true] at hlinks ⊢
      obtain ⟨-, hnot⟩ := hlinks task (List.mem_singleton_self task)
      obtain ⟨ha, hf⟩ := hnot active free h
      have h₁ : (({ s with
          terminate := Function.update s.terminate task true
          suspended := Function.update s.suspended task false } : Sched).addActive task).Rings
          (active ++ [task]) free :=
        h.withFlags.addActive hlt ha hf
      split
      · exact h₁.withFlags
      · exact h₁
    · rw [Bool.not_eq_true] at hsus
      simp only [TaskOp.becomes, hsus, and_false, Bool.false_eq_true, if_false, List.append_nil]
      split
      · exact h.withFlags
      · exact h.withFlags
  · rw [if_neg hlt]
    simpa [TaskOp.becomes, hlt] using h

/-- The task of an event becomes active. -/
theorem Rings.eventReady (h : s.Rings active free) (ev : Option ℕ)
    (hlinks : s.evOp task = ev → s.Unlinked task) :
    (s.eventReady task ev).Rings (active ++ if s.evOp task = ev then [task] else []) free := by
  rw [Sched.eventReady]
  by_cases hev : s.evOp task = ev
  · obtain ⟨hlt, hnot⟩ := hlinks hev
    obtain ⟨ha, hf⟩ := hnot active free h
    rw [if_neg (not_not_intro hev), if_pos hev]
    exact h.withFlags.addActive hlt ha hf
  · rw [if_pos hev, if_neg hev, List.append_nil]
    exact h

/-- The order of one step. -/
theorem Rings.step (h : s.Rings active free) {op : TaskOp} (hlinks : op.LinksUnlinked s)
    (hop : s.step op = some s') :
    ∃ active' free', s'.Rings active' free' ∧
      active ++ op.becomes s = (op.takes s).map Prod.fst ++ active' := by
  -- All steps but `take` leave the active tasks in front.
  have hlast : ∀ free', s'.Rings (active ++ op.becomes s) free' → op.takes s = [] →
      ∃ active' free', s'.Rings active' free' ∧
        active ++ op.becomes s = (op.takes s).map Prod.fst ++ active' :=
    fun free' hr hnil => ⟨_, free', hr, by rw [hnil]; rfl⟩
  cases op with
  | put realloc =>
      obtain ⟨task, halloc, hr⟩ := h.schedPut hop
      refine hlast free.tail ?_ rfl
      simpa [TaskOp.becomes, halloc] using hr
  | take =>
      obtain ⟨task, active', free', rfl, hhead, hr⟩ := h.loopTake hop
      exact ⟨active', free', hr, by simp [TaskOp.becomes, TaskOp.takes, hhead]⟩
  | yield task =>
      obtain ⟨-, heq⟩ := Option.ite_none_right_eq_some.mp hop
      have hyield : ∃ free', (s.luaYield task true).Rings (active ++ s.yieldBecomes task true) free' :=
        h.luaYield hlinks
      obtain ⟨free', hr⟩ := hyield
      exact hlast free' (Option.some.inj heq ▸ hr) rfl
  | done task =>
      obtain ⟨-, heq⟩ := Option.ite_none_right_eq_some.mp hop
      obtain ⟨hlt, hnot⟩ := hlinks task (List.mem_singleton_self task)
      obtain ⟨ha, hf⟩ := hnot active free h
      refine hlast (free ++ [task]) ?_ rfl
      simp only [TaskOp.becomes, List.append_nil]
      rw [← Option.some.inj heq]
      exact h.withFlags.taskDel hlt ha hf
  | terminate task =>
      have hr := h.schedTerminate fun t ht => hlinks t (List.mem_append_left _ ht)
      exact hlast free (Option.some.inj hop ▸ hr) rfl
  | suspend task canYield =>
      obtain ⟨-, heq⟩ := Option.ite_none_right_eq_some.mp hop
      -- The flag keeps the task out of the ring.
      have hnil : ({ s with suspended := Function.update s.suspended task true } : Sched).yieldBecomes
          task canYield = [] := by
        simp [yieldBecomes]
      obtain ⟨free', hr⟩ := h.flagsYield rfl (by rwa [hnil])
      rw [hnil] at hr
      exact hlast free' (Option.some.inj heq ▸ hr) rfl
  | resume task =>
      obtain ⟨⟨hlt, -, -⟩, heq⟩ := Option.ite_none_right_eq_some.mp hop
      obtain ⟨-, hnot⟩ := hlinks task (List.mem_singleton_self task)
      obtain ⟨ha, hf⟩ := hnot active free h
      refine hlast free ?_ rfl
      rw [← Option.some.inj heq]
      exact (h.addActive hlt ha hf).withFlags
  | eventAdd task res canYield =>
      obtain ⟨e, f, ea, hflags⟩ := s.eventFlags_eq task res
      obtain ⟨free', hr⟩ := h.flagsYield hflags hlinks
      exact hlast free' (schedEventAdd_eq hop ▸ hr) rfl
  | eventAdded task op ev =>
      obtain ⟨-, heq⟩ := Option.ite_none_right_eq_some.mp hop
      refine hlast free ?_ rfl
      rw [← Option.some.inj heq, Sched.eventAdded]
      by_cases hev : ev = none ∧ s.suspended task
      · have hun : s.Unlinked task := hlinks task (by simp [TaskOp.becomes, hev])
        simp only [TaskOp.becomes, hev, and_self, if_true]
        have h₁ : Rings { s with
            evOp := Function.update s.evOp task none
            evAdded := Function.update s.evAdded task true } active free := h.withFlags
        simpa using h₁.eventReady none fun _ => hun.congr rfl rfl rfl rfl rfl
      · simp only [TaskOp.becomes, hev, if_false, List.append_nil]
        exact h.withFlags
  | eventReady task ev =>
      obtain ⟨-, heq⟩ := Option.ite_none_right_eq_some.mp hop
      refine hlast free ?_ rfl
      rw [← Option.some.inj heq]
      refine h.eventReady (some ev) fun hev => hlinks task ?_
      simp [TaskOp.becomes, hev]

/-- A task that is taken is resumed, unless it has been terminated. -/
theorem running_loopTake (htake : s.loopTake = some s') :
    s'.running = (((TaskOp.takes s .take).filter fun t => !t.2).map Prod.fst) ++ s.running := by
  obtain ⟨task, hhead, heq⟩ := Option.map_eq_some_iff.mp htake
  have hrun : ∀ list, (s.tasklistDel list task).1.running = s.running := by
    intro list
    rw [Sched.tasklistDel]
    split <;> rfl
  have hterm : ∀ list, (s.tasklistDel list task).1.terminate = s.terminate := by
    intro list
    rw [Sched.tasklistDel]
    split <;> rfl
  have hdel : ∀ s₁ : Sched, (s₁.taskDel task).running = s₁.running := by
    intro s₁
    cases hfree : s₁.freeTaskId <;> simp [Sched.taskDel, Sched.tasklistAdd, hfree]
  dsimp only at heq
  rw [hterm] at heq
  simp only [TaskOp.takes, hhead, Option.toList_some, List.map_cons, List.map_nil]
  split at heq
  · next h =>
    rw [← heq, hdel, hrun]
    simp [h]
  · next h =>
    rw [← heq, hrun]
    simp [h]

end steps

end Sched

/-! ## Safe steps -/

namespace Sched

variable {s s' : Sched} {active free : List ℕ} {task t : ℕ}

/-- A live task that is not active is in no ring. -/
theorem TaskInv.unlinked (h : TaskInv s active free) (hlt : t < s.bufIdx) (hlive : s.live t = true)
    (ha : t ∉ active) : s.Unlinked t := by
  refine ⟨hlt, fun active' free' hr => ?_⟩
  rw [hr.activeRing.ring.unique h.activeRing, hr.freeRing.ring.unique h.freeRing]
  refine ⟨ha, fun hf => ?_⟩
  simp [h.free_live t hf] at hlive

theorem Sound.unlinked_running (h : s.Sound) (hrun : t ∈ s.running) : s.Unlinked t := by
  obtain ⟨active, free, h⟩ := h
  obtain ⟨hlt, hlive, ha⟩ := h.running_live t hrun
  exact h.unlinked hlt hlive ha

theorem Sound.unlinked_suspended (h : s.Sound) (hlt : s.checkTaskId t) (hsus : s.suspended t = true) :
    s.Unlinked t := by
  obtain ⟨active, free, h⟩ := h
  obtain ⟨hlive, ha, -⟩ := h.suspended_live t hlt hsus
  exact h.unlinked hlt hlive ha

/-- A task that waits for an event is suspended. -/
theorem Sound.suspended_of_evOp (h : s.Sound) (hlt : s.checkTaskId t) {ev : ℕ}
    (hev : s.evOp t = some ev) : s.suspended t = true := by
  obtain ⟨active, free, h⟩ := h
  exact h.evOp_suspended t hlt (by simp [hev])

theorem mem_ite_singleton {p : Prop} [Decidable p] : t ∈ (if p then [task] else []) ↔ p ∧ t = task := by
  split
  · next hp => simp [hp]
  · next hp => simp [hp]

theorem eq_of_mem_yield {f : Sched} {canYield : Bool}
    (h : t ∈ f.yieldBecomes task canYield ++ s.yieldDeletes task canYield) : t = task := by
  rcases List.mem_append.mp h with h | h
  · exact (mem_ite_singleton.mp h).2
  · exact (mem_ite_singleton.mp h).2

/-- The steps from a sound state link only tasks of no ring. -/
theorem Sound.linksUnlinked (h : s.Sound) {op : TaskOp} (hop : s.step op = some s') :
    op.LinksUnlinked s := by
  cases op with
  | put realloc => trivial
  | take => trivial
  | yield task =>
      obtain ⟨hrun, -⟩ := Option.ite_none_right_eq_some.mp hop
      intro t ht
      obtain rfl : t = task := eq_of_mem_yield ht
      exact h.unlinked_running hrun
  | done task =>
      obtain ⟨hrun, -⟩ := Option.ite_none_right_eq_some.mp hop
      intro t ht
      obtain rfl : t = task := List.mem_singleton.mp ht
      exact h.unlinked_running hrun
  | terminate task =>
      intro t ht
      simp only [TaskOp.becomes, TaskOp.deletes, List.append_nil] at ht
      obtain ⟨hsus, rfl⟩ := mem_ite_singleton.mp ht
      exact h.unlinked_suspended hsus.1 hsus.2
  | suspend task canYield =>
      obtain ⟨hrun, -⟩ := Option.ite_none_right_eq_some.mp hop
      intro t ht
      obtain ⟨-, rfl⟩ := mem_ite_singleton.mp ht
      exact h.unlinked_running hrun.1
  | resume task =>
      obtain ⟨⟨hlt, hsus, -⟩, -⟩ := Option.ite_none_right_eq_some.mp hop
      intro t ht
      obtain rfl : t = task := List.mem_singleton.mp ht
      exact h.unlinked_suspended hlt hsus
  | eventAdd task res canYield =>
      obtain ⟨hrun, -⟩ := Option.ite_none_right_eq_some.mp hop
      intro t ht
      obtain rfl : t = task := eq_of_mem_yield ht
      exact h.unlinked_running hrun
  | eventAdded task op ev =>
      obtain ⟨hlt, -⟩ := Option.ite_none_right_eq_some.mp hop
      intro t ht
      simp only [TaskOp.becomes, TaskOp.deletes, List.append_nil] at ht
      obtain ⟨hsus, rfl⟩ := mem_ite_singleton.mp ht
      exact h.unlinked_suspended hlt hsus.2
  | eventReady task ev =>
      obtain ⟨hlt, -⟩ := Option.ite_none_right_eq_some.mp hop
      intro t ht
      simp only [TaskOp.becomes, TaskOp.deletes, List.append_nil] at ht
      obtain ⟨hev, rfl⟩ := mem_ite_singleton.mp ht
      exact h.unlinked_suspended hlt (h.suspended_of_evOp hlt hev)

end Sched

/-! ## Runs -/

/-- A run, with the tasks that have become active and those that `sched_loop` has taken,
in order. -/
structure SchedRun where
  sched : Sched
  became : List ℕ
  taken : List (ℕ × Bool)

namespace SchedRun

/-- A run from `s` on. -/
def start (s : Sched) : SchedRun := ⟨s, [], []⟩

/-- The next step. -/
def step (r : SchedRun) (op : TaskOp) : Option SchedRun :=
  (r.sched.step op).map fun s =>
    { sched := s, became := r.became ++ op.becomes r.sched, taken := r.taken ++ op.takes r.sched }

/-- The steps that link only tasks of no ring. -/
def FifoStep (r r' : SchedRun) : Prop := ∃ op : TaskOp, op.LinksUnlinked r.sched ∧ r.step op = some r'

/-- The steps of a safe run. -/
def SafeStep (r r' : SchedRun) : Prop := ∃ op : TaskOp, op.Safe r.sched ∧ r.step op = some r'

/-- First in, first out: the tasks `l`, followed by those that became active, are the tasks
that were taken, followed by those that are active now. -/
def Fifo (l : List ℕ) (r : SchedRun) : Prop :=
  ∃ active free, r.sched.Rings active free ∧ l ++ r.became = r.taken.map Prod.fst ++ active

variable {r r' : SchedRun} {l : List ℕ}

/-- A step keeps the order. -/
theorem Fifo.step (h : r.Fifo l) (hstep : FifoStep r r') : r'.Fifo l := by
  obtain ⟨active, free, hrings, horder⟩ := h
  obtain ⟨op, hlinks, hop⟩ := hstep
  obtain ⟨s', hs', rfl⟩ := Option.map_eq_some_iff.mp hop
  obtain ⟨active', free', hrings', hlast⟩ := hrings.step hlinks hs'
  refine ⟨active', free', hrings', ?_⟩
  calc l ++ (r.became ++ op.becomes r.sched)
      = r.taken.map Prod.fst ++ (active ++ op.becomes r.sched) := by
        rw [← List.append_assoc, horder, List.append_assoc]
    _ = (r.taken ++ op.takes r.sched).map Prod.fst ++ active' := by
        rw [hlast, List.map_append, List.append_assoc]

end SchedRun

/-- A run of safe steps from a new scheduler keeps the order. -/
theorem safe_run_keeps_order {r : SchedRun}
    (hrun : Relation.ReflTransGen SchedRun.SafeStep (.start Sched.init) r) : r.Fifo [] := by
  have hinit : (SchedRun.start Sched.init).sched.Sound ∧ (SchedRun.start Sched.init).Fifo [] :=
    ⟨Sched.init_sound, [], [], ⟨⟨ring_nil, by simp⟩, ⟨ring_nil, by simp⟩, by simp⟩, rfl⟩
  refine (inv_of_reach (I := fun r : SchedRun => r.sched.Sound ∧ r.Fifo []) ?_ hinit hrun).2
  rintro r₁ r₂ ⟨op, hsafe, hop⟩ ⟨hsound, hfifo⟩
  obtain ⟨s', hs', heq⟩ := Option.map_eq_some_iff.mp hop
  refine ⟨?_, hfifo.step ⟨op, hsound.linksUnlinked hs', hop⟩⟩
  rw [← heq]
  exact Sched.SafeStep.sound ⟨op, hsafe, hs'⟩ hsound

/-- **The rings are queues.**  `sched_tasklist_add` appends a task that is not in the ring,
`sched_tasklist_del` removes a member and keeps the order of the others, and both leave
the other rings, the other tasks and the other fields alone.  `sched_task_alloc` takes the
first free task, or a new one of a buffer that may move to other memory, and keeps the
rings.  In every run from a state with rings, in which only tasks of no ring are linked,
the tasks are taken in the order in which they became active, and a task that is taken
runs unless it has been terminated. -/
theorem task_rings_are_queues :
    (∀ (s : Sched) (head : Option ℕ) (l : List ℕ) (task : ℕ), s.BufferRing head l →
      s.checkTaskId task → task ∉ l →
        (s.tasklistAdd head task).1.BufferRing (s.tasklistAdd head task).2 (l ++ [task]) ∧
        Sched.Relinks s (s.tasklistAdd head task).1 (task :: l) ∧
        ∀ head' l', s.BufferRing head' l' → l'.Disjoint (task :: l) →
          (s.tasklistAdd head task).1.BufferRing head' l') ∧
    (∀ (s : Sched) (head : Option ℕ) (l : List ℕ) (task : ℕ), s.BufferRing head l → task ∈ l →
        (s.tasklistDel head task).1.BufferRing (s.tasklistDel head task).2 (l.erase task) ∧
        Sched.Relinks s (s.tasklistDel head task).1 l ∧
        ∀ head' l', s.BufferRing head' l' → l'.Disjoint l →
          (s.tasklistDel head task).1.BufferRing head' l') ∧
    (∀ (s : Sched) (free : List ℕ) (realloc : Bool) (task : ℕ) (s₁ : Sched),
      s.BufferRing s.freeTaskId free → s.taskAlloc realloc = some (task, s₁) →
        s.AllocKeeps free task s₁) ∧
    (∀ (s : Sched) (active free : List ℕ) (r : SchedRun), s.Rings active free →
      Relation.ReflTransGen SchedRun.FifoStep (.start s) r → r.Fifo active) ∧
    ∀ s s' : Sched, s.loopTake = some s' →
      s'.running = (((TaskOp.takes s .take).filter fun t => !t.2).map Prod.fst) ++ s.running := by
  refine ⟨?_, ?_, ?_, ?_, fun s s' => Sched.running_loopTake⟩
  · intro s head l task h hlt htask
    obtain ⟨hring, hlinks⟩ := h.tasklistAdd hlt htask
    exact ⟨hring, hlinks, fun head' l' h' hdisj => h'.relinks hlinks hdisj⟩
  · intro s head l task h htask
    obtain ⟨hring, hlinks⟩ := h.tasklistDel htask
    exact ⟨hring, hlinks, fun head' l' h' hdisj => h'.relinks hlinks hdisj⟩
  · intro s free realloc task s₁ h halloc
    exact (h.taskAlloc halloc).1
  · intro s active free r h hrun
    have hinit : (SchedRun.start s).Fifo active := ⟨active, free, h, by simp [SchedRun.start]⟩
    exact inv_of_reach (fun _ _ hstep hr => hr.step hstep) hinit hrun

/-- Two tasks are taken in their order, and a third one waits. -/
theorem task_rings_are_queues_threeTasks :
    ∃ r, Relation.ReflTransGen SchedRun.FifoStep (.start Sched.init) r ∧ r.became = [0, 1, 2] ∧
      r.taken = [(0, false), (1, false)] ∧ r.sched.activeTaskId = some 2 ∧ r.Fifo [] := by
  have hinit : Sched.init.Rings [] [] := ⟨⟨ring_nil, by simp⟩, ⟨ring_nil, by simp⟩, by simp⟩
  have hrun : Relation.ReflTransGen SchedRun.FifoStep (.start Sched.init) _ :=
    .tail (.tail (.tail (.tail (.tail (.tail .refl
      ⟨.put true, trivial, rfl⟩)
      ⟨.put true, trivial, rfl⟩)
      ⟨.take, trivial, rfl⟩)
      ⟨.suspend 0 true, fun _ ht => absurd ht List.not_mem_nil, rfl⟩)
      ⟨.take, trivial, rfl⟩)
      ⟨.put true, trivial, rfl⟩
  exact ⟨_, hrun, rfl, rfl, rfl, task_rings_are_queues.2.2.2.1 _ _ _ _ hinit hrun⟩

end LuaSys.Thread
