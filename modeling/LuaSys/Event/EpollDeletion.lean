import LuaSys.Event.Deletion
import LuaSys.Event.EpollSet

/-!
# Deletion with an epoll set

`evq:del` without its argument `reuse_fd` leaves the entry of a descriptor in the epoll set: the
program is expected to close the descriptor, which removes the entry.  As long as it is open, the
kernel may report it, and the loop follows the pointer to a slot that has been released.

Here the queue has its epoll set, and the records of its registrations as well.  The kernel
reports the descriptors that have an entry.

## Main definitions

* `EpollRegs`, `EpollRegs.step` — the queue with the epoll set and the records.
* `EpollRegs.Allowed`, `EpollRegs.Closed` — what the program may do, and the condition.

## Main results

* `EpollRegs.run_held` — if the program closes its descriptors before it waits, the kernel makes
  registered events active, so a run is one of the records.
* `epoll_deletion_final` — then deletion is final.
* `open_descriptor_ready_slot` — a run in which a descriptor stays open.
-/

namespace LuaSys.Event

open LuaSys.Lib

/-- The step of the queue, if there is one. -/
def EpollState.evqOp (s : EpollState) : EpollOp → Option EvqOp
  | .add i res _ => some (.addEnd i res)
  | .del ev _ => some (.del ev)
  | .report fd res now => (s.epoll fd).map fun ev => .activate ev res now
  | .loop op => some op
  | .modify _ _ | .openFd _ | .close _ => none

/-- An event queue with its epoll set, and the records of its registrations. -/
structure EpollRegs where
  set : EpollState
  reg : RegState

namespace EpollRegs

/-- The records after a step. -/
def record (fuel : ℕ) (s : EpollRegs) (op : EpollOp) (set : EpollState) : EpollRegs where
  set := set
  reg := (s.set.evqOp op).elim s.reg fun op => s.reg.record fuel op set.evq

def step (fuel : ℕ) (s : EpollRegs) (op : EpollOp) : Option EpollRegs :=
  (s.set.step fuel op).map (s.record fuel op)

/-- A new event queue. -/
def init (now : ℤ) : EpollRegs where
  set := EpollState.init now
  reg := RegState.init now

/-- What the program may do: the same as with other backends, and it opens and closes
descriptors.  A step of the loop that makes an event active is about a signal or a timer, which
the queue finds in its own lists. -/
def Allowed (s : EpollRegs) : EpollOp → Prop
  | .add i res _ => s.reg.Allowed (.addEnd i res)
  | .del ev _ => s.reg.Allowed (.del ev)
  | .loop op => s.reg.Allowed op ∧ s.reg.ReportsHeld op
  | .report _ _ _ | .openFd _ | .close _ => True
  | .modify _ _ => False

/-- The program has closed the descriptors of the events that it has deleted without
`reuse_fd` before the loop waits. -/
def Closed (s : EpollRegs) : EpollOp → Prop
  | .report _ _ _ => ∀ fd, s.set.closing fd = false
  | _ => True

/-- The transitions of a run. -/
def Step (s s' : EpollRegs) : Prop := ∃ op fuel, s.Allowed op ∧ s.step fuel op = some s'

/-- The transitions of a run that meet the condition. -/
def ClosedStep (s s' : EpollRegs) : Prop :=
  ∃ op fuel, s.Allowed op ∧ s.Closed op ∧ s.step fuel op = some s'

/-- The epoll set, the records and the queue belong together. -/
structure Inv (s : EpollRegs) : Prop where
  set : s.set.EpollInv
  reg : s.reg.RegInv
  evq : s.reg.evq = s.set.evq

variable {s s' : EpollRegs} {fuel : ℕ} {op : EpollOp}

/-! ## A step of the queue -/

/-- What a step does to the queue. -/
theorem evq_step {set' : EpollState} (hrun : s.set.step fuel op = some set')
    (hmodify : ∀ ev write, op ≠ .modify ev write) :
    (s.set.evqOp op = none ∧ set'.evq = s.set.evq) ∨
      ∃ op', s.set.evqOp op = some op' ∧ s.set.evq.step fuel op' = some set'.evq := by
  cases op with
  | add i res source =>
      obtain ⟨a, -, hrun⟩ := Option.bind_eq_some_iff.mp hrun
      obtain ⟨-, hrun⟩ := Option.ite_none_right_eq_some.mp hrun
      obtain ⟨evq, hevq, rfl⟩ := Option.map_eq_some_iff.mp hrun
      exact Or.inr ⟨_, rfl, by rw [EpollState.evqAdd_evq]; exact hevq⟩
  | del ev reuseFd =>
      rw [EpollState.step, Option.map_eq_some_iff] at hrun
      obtain ⟨evq, hevq, rfl⟩ := hrun
      refine Or.inr ⟨_, rfl, hevq.trans (congrArg some ?_)⟩
      dsimp only
      split
      · split <;> simp only [EpollState.called_evq]
      · simp only [EpollState.called_evq]
  | report fd res now =>
      obtain ⟨ev, hev, hrun⟩ := Option.bind_eq_some_iff.mp hrun
      obtain ⟨evq, hevq, rfl⟩ := Option.map_eq_some_iff.mp hrun
      refine Or.inr ⟨.activate ev res now, ?_, ?_⟩
      · rw [EpollState.evqOp, hev, Option.map_some]
      · rw [EpollState.called_evq]
        exact hevq
  | modify ev write => exact absurd rfl (hmodify ev write)
  | openFd fd =>
      obtain ⟨-, hrun⟩ := Option.ite_none_left_eq_some.mp hrun
      exact Or.inl ⟨rfl, by rw [← Option.some.inj hrun]⟩
  | close fd =>
      obtain ⟨-, hrun⟩ := Option.ite_none_right_eq_some.mp hrun
      exact Or.inl ⟨rfl, by rw [← Option.some.inj hrun]; rfl⟩
  | loop op =>
      obtain ⟨-, hrun⟩ := Option.ite_none_right_eq_some.mp hrun
      obtain ⟨evq, hevq, rfl⟩ := Option.map_eq_some_iff.mp hrun
      exact Or.inr ⟨_, rfl, by rw [EpollState.called_evq]; exact hevq⟩

/-- When the descriptors are closed, the entry of another one is that of a registered event. -/
theorem Inv.held (h : s.Inv) (hclosed : ∀ fd, s.set.closing fd = false) {fd ev : ℕ}
    (hev : s.set.epoll fd = some ev) : s.reg.evq.Held ev := by
  rcases h.set.entries fd ev hev with hc | ⟨hlive, -⟩
  · exact absurd ((hclosed fd).symm.trans hc) (by simp)
  · rw [h.evq]
    exact Or.inl hlive

/-- The step of the queue is one that the records allow, and the event is registered or ready. -/
theorem Inv.allowed (h : s.Inv) (hop : s.Allowed op) (hclosed : s.Closed op) {op' : EvqOp}
    (hop' : s.set.evqOp op = some op') : s.reg.Allowed op' ∧ s.reg.ReportsHeld op' := by
  cases op with
  | add i res source => exact Option.some.inj hop' ▸ ⟨hop, trivial⟩
  | del ev reuseFd => exact Option.some.inj hop' ▸ ⟨hop, trivial⟩
  | report fd res now =>
      obtain ⟨ev, hev, rfl⟩ := Option.map_eq_some_iff.mp hop'
      exact ⟨trivial, h.held hclosed hev⟩
  | loop op => exact Option.some.inj hop' ▸ hop
  | modify ev write => exact absurd hop id
  | openFd fd | close fd => exact absurd hop' (by simp [EpollState.evqOp])

/-- The condition is what the epoll set needs. -/
theorem Inv.safe (h : s.Inv) (hop : s.Allowed op) (hclosed : s.Closed op) : op.Safe s.set := by
  cases op with
  | del ev reuseFd =>
      have hsafe : (EvqOp.del ev).Safe s.reg.evq := h.reg.safe hop trivial
      rw [h.evq] at hsafe
      exact hsafe
  | report fd res now => exact hclosed
  | loop op =>
      have hsafe : op.Safe s.set.evq := h.evq ▸ h.reg.safe hop.1 hop.2
      cases op with
      | coroEnd i finished => exact absurd hop.1 id
      | _ => exact hsafe
  | modify ev write => exact absurd hop id
  | add i res source | openFd fd | close fd => exact trivial

/-- A step that meets the condition is a step of the records that meets theirs, or leaves them alone. -/
theorem Inv.step (h : s.Inv) (hstep : ClosedStep s s') :
    s'.Inv ∧ (s'.reg = s.reg ∨ RegState.HeldStep s.reg s'.reg) := by
  obtain ⟨op, fuel, hop, hclosed, hrun⟩ := hstep
  obtain ⟨set', hset, rfl⟩ := Option.map_eq_some_iff.mp hrun
  have hinv := h.set.step (h.safe hop hclosed) hset
  have hmodify : ∀ ev write, op ≠ .modify ev write := by
    rintro ev write rfl
    exact hop
  rcases evq_step hset hmodify with ⟨hnone, hevq⟩ | ⟨op', hop', hevq⟩
  · have hreg : (s.record fuel op set').reg = s.reg := by simp only [record, hnone, Option.elim_none]
    exact ⟨⟨hinv, hreg ▸ h.reg, (congrArg RegState.evq hreg).trans (h.evq.trans hevq.symm)⟩,
      Or.inl hreg⟩
  · obtain ⟨hallowed, hsafe⟩ := h.allowed hop hclosed hop'
    have hreg : (s.record fuel op set').reg = s.reg.record fuel op' set'.evq := by
      simp only [record, hop', Option.elim_some]
    have hstep : s.reg.step fuel op' = some (s.record fuel op set').reg := by
      rw [RegState.step, h.evq, hevq, hreg, Option.map_some]
    refine ⟨⟨hinv, h.reg.step hallowed hsafe hstep, ?_⟩, Or.inr ⟨op', fuel, hallowed, hsafe, hstep⟩⟩
    rw [hreg]
    exact RegState.record_evq ..

theorem init_inv (now : ℤ) : (init now).Inv :=
  ⟨EpollState.init_epollInv now, RegState.init_regInv now, rfl⟩

/-- A run that meets the condition is one of the records that meets theirs. -/
theorem run_held (h : s.Inv) (hrun : Relation.ReflTransGen ClosedStep s s') :
    s'.Inv ∧ Relation.ReflTransGen RegState.HeldStep s.reg s'.reg := by
  induction hrun with
  | refl => exact ⟨h, .refl⟩
  | tail _ hstep ih =>
      obtain ⟨hinv, hreg⟩ := ih
      obtain ⟨hinv', hsame | hsafe⟩ := hinv.step hstep
      · exact ⟨hinv', hsame ▸ hreg⟩
      · exact ⟨hinv', hreg.tail hsafe⟩

end EpollRegs

open EpollRegs in
/-- If the program closes the descriptors of events that it has deleted without `reuse_fd`
before the loop waits, then deletion is final. -/
theorem epoll_deletion_final {now : ℤ} {s s' : EpollRegs} {n : ℕ}
    (hrun : Relation.ReflTransGen ClosedStep (init now) s) (hdel : s.reg.deleted n = true)
    (hrest : Relation.ReflTransGen ClosedStep s s') : s.reg.Final s'.reg n := by
  obtain ⟨hinv, hreg⟩ := run_held (init_inv now) hrun
  exact RegState.final_of_held hreg hdel (run_held hinv hrest).2

open EpollRegs in
/-- An event is deleted without `reuse_fd` and its descriptor stays open and becomes readable:
the slot is in the ready list while it is the first one that `levq_new_event` gives out. -/
theorem open_descriptor_ready_slot :
    ¬∀ (now : ℤ) (s s' : EpollRegs) (n : ℕ), Relation.ReflTransGen Step (init now) s →
      s.reg.deleted n = true → Relation.ReflTransGen Step s s' → s.reg.Final s'.reg n := by
  intro h
  have hrun : Relation.ReflTransGen Step (init 0) _ :=
    .tail (.tail (.tail (.tail .refl
      ⟨.openFd 4, 1, trivial, rfl⟩)
      ⟨.loop (.addBegin ⟨false, false, false, .function, -1, false⟩), 1, ⟨⟨by simp, rfl⟩, trivial⟩, rfl⟩)
      ⟨.add 0 .ok (.descriptor 4), 1, trivial, rfl⟩)
      ⟨.del 0 false, 1, ⟨Or.inl rfl, rfl⟩, rfl⟩
  obtain ⟨-, ⟨ready, hready, -, hfree, -⟩, -⟩ :=
    h 0 _ _ 0 hrun rfl (.single ⟨.report 4 { readRes := true } 0, 1, trivial, rfl⟩)
  have hmem : 0 ∈ ready := by
    cases ready with
    | nil =>
        have hnone : some 0 = none := hready
        exact absurd hnone (by simp)
    | cons a ready => exact Option.some.inj hready.1 ▸ List.mem_cons_self
  exact hfree 0 _ rfl hmem

end LuaSys.Event
