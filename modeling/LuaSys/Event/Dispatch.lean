import LuaSys.Event.Deletion
import LuaSys.Lib.Run

/-!
# What a dispatch does to the registrations

A dispatch clears the result flags of the first ready event, deletes it if it is oneshot,
and runs its callback.  When a coroutine has returned, the loop tests the slot of the event
once more and deletes what is registered there.  The callback may add, change and
delete events, also in this slot.

The registrations are numbered as in `RegState`, so two registrations in one slot are told
apart.  The body of a callback is any sequence of calls; the loop thread does not yield in
them, since it is counted in `nactives`.

## Main definitions

* `RegState.registered` — the registrations at a point of time.
* `CallbackOp`, `Body`, `Body.step` — the calls of a callback, with what they add and
  delete.
* `RegState.Dispatched` — one dispatch with its callback.
* `RegState.FrameKept` — what is registered after it.
* `Body.Reused` — the callback has added an event in the slot of its own event.

## Main results

* `RegState.step_change` — what a step does to the registrations.
* `Body.Inv.step` — what a call of the body does to them.
* `dispatch_frame_iff` — a dispatch keeps the other registrations exactly when it does not
  end with the return of a coroutine whose slot has been reused.
* `reused_slot_deleted` — an event that a oneshot coroutine has added is deleted by its
  return.
-/

namespace LuaSys.Event

open LuaSys.Lib

/-! ## The coroutines that run -/

namespace EvqState

variable {s s' : EvqState} {fuel ev : ℕ}

theorem newEvent_coros (h : s.newEvent = some (ev, s')) : s'.coros = s.coros := by
  obtain ⟨-, rfl⟩ | ⟨-, -, -, rfl⟩ := newEvent_cases h
  · rfl
  · rfl

theorem reserve_coros (h : s.reserve = some s') : s'.coros = s.coros := by
  obtain ⟨-, rfl⟩ | ⟨-, ev, s₁, hnew, rfl⟩ := reserve_cases h
  · rfl
  · have hcoros : s₁.coros = s.coros := newEvent_coros hnew
    exact hcoros

theorem addBegin_coros {args : AddArgs} (h : s.addBegin args = some s') : s'.coros = s.coros := by
  obtain ⟨ev, s₁, hnew, hcase⟩ := addBegin_cases h
  have hcoros : s₁.coros = s.coros := newEvent_coros hnew
  obtain rfl | ⟨s₂, hres, rfl⟩ := hcase
  · exact hcoros
  · have hcoros₂ : s₂.coros = (s₁.setFlags ev args.flags).coros := reserve_coros hres
    exact hcoros₂.trans hcoros

theorem finish_coros (s : EvqState) (a : Adding) : (addEnd.finish s a).coros = s.coros := by
  unfold addEnd.finish
  dsimp only
  split <;> rfl

theorem addEnd_coros {i : ℕ} {res : AddResult} (h : s.addEnd fuel i res = some s') :
    s'.coros = s.coros := by
  obtain ⟨a, -, hends⟩ := addEnd_cases h
  cases hends with
  | timeout q' r hset hok => exact finish_coros _ a
  | infinite htimer hok hinf => exact finish_coros _ a
  | noTimeout q' r hset htimer hr => rfl
  | failed htimer hok => rfl
  | failedEarly htimer hok => rfl

theorem levqDel_coros (s : EvqState) (ev : ℕ) : (s.levqDel ev).coros = s.coros := by
  have hcoros : (if s.q.registered ev then s.evqDel ev else s).coros = s.coros := by
    split <;> rfl
  unfold EvqState.levqDel
  generalize (if s.q.registered ev then s.evqDel ev else s) = s₁ at hcoros
  dsimp only
  split
  · exact hcoros
  · exact hcoros

theorem levqTimeout_coros {msec : ℤ} (h : s.levqTimeout fuel ev msec = some s') :
    s'.coros = s.coros := by
  obtain ⟨s₁, hres, h⟩ := Option.bind_eq_some_iff.mp h
  obtain ⟨⟨q', r⟩, -, h⟩ := Option.bind_eq_some_iff.mp h
  have hcoros : s₁.coros = s.coros := reserve_coros hres
  rw [← Option.some.inj h]
  exact hcoros

end EvqState

/-! ## The registrations -/

namespace RegState

/-- The registrations that are not deleted. -/
def registered (s : RegState) : Set ℕ := { n | ∃ x, s.evq.live x = true ∧ s.regOf x = n }

/-- The slot of a registration that is not deleted has its number. -/
structure Numbered (s : RegState) : Prop where
  regular : s.evq.Regular
  live_reg : ∀ x, s.evq.live x = true → s.regOf x < s.nregs ∧ s.slotOf (s.regOf x) = x

/-- What a step with a call of the backend does to the registrations. -/
inductive RegChange (s s' : RegState) : Option BackendCall → Prop
  | quiet (hlive : s'.evq.live = s.evq.live) (hnregs : s'.nregs = s.nregs)
      (hregOf : s'.regOf = s.regOf) (hslotOf : s'.slotOf = s.slotOf) : RegChange s s' none
  | del (ev) (hlive : s'.evq.live = Function.update s.evq.live ev false)
      (hnregs : s'.nregs = s.nregs) (hregOf : s'.regOf = s.regOf)
      (hslotOf : s'.slotOf = s.slotOf) : RegChange s s' (some (.del ev))
  | add (ev) (hlive : s'.evq.live = Function.update s.evq.live ev true)
      (hnregs : s'.nregs = s.nregs + 1) (hregOf : s'.regOf = Function.update s.regOf ev s.nregs)
      (hslotOf : s'.slotOf = Function.update s.slotOf s.nregs ev) :
      RegChange s s' (some (.add ev))

variable {s s' : RegState} {fuel ev : ℕ} {op : EvqOp}

theorem record_of_not_add (hcall : ∀ ev, s.evq.backendCall fuel op ≠ some (.add ev))
    (evq : EvqState) :
    (s.record fuel op evq).nregs = s.nregs ∧ (s.record fuel op evq).regOf = s.regOf ∧
      (s.record fuel op evq).slotOf = s.slotOf := by
  unfold record
  dsimp only
  split
  · exact ⟨rfl, rfl, rfl⟩
  · next ev _ hadd => exact absurd hadd (hcall ev)
  · exact ⟨rfl, rfl, rfl⟩

theorem record_of_add (hcall : s.evq.backendCall fuel op = some (.add ev)) (evq : EvqState) :
    (s.record fuel op evq).nregs = s.nregs + 1 ∧
      (s.record fuel op evq).regOf = Function.update s.regOf ev s.nregs ∧
      (s.record fuel op evq).slotOf = Function.update s.slotOf s.nregs ev := by
  unfold record
  dsimp only
  split
  · rw [EvqState.backendCall] at hcall
    split at hcall <;> simp at hcall
  · next ev' _ hadd =>
    obtain rfl : ev = ev' := by
      rw [hcall] at hadd
      simpa using hadd
    exact ⟨rfl, rfl, rfl⟩
  · next hnot => exact absurd hcall (hnot ev)

/-- A step changes the registrations by its call of the backend only. -/
theorem step_change (hrun : s.step fuel op = some s') :
    RegChange s s' (s.evq.backendCall fuel op) := by
  obtain ⟨evq, hevq, rfl⟩ := Option.map_eq_some_iff.mp hrun
  have hlive := (EvqState.step_livesOn hevq).live
  have hrecord := record_evq s fuel op evq
  cases hcall : s.evq.backendCall fuel op with
  | none =>
      have hnot : ∀ x, s.evq.backendCall fuel op ≠ some (.add x) := by simp [hcall]
      obtain ⟨hn, hreg, hslot⟩ := record_of_not_add hnot evq
      rw [hcall] at hlive
      exact .quiet (by rw [hrecord, hlive]; rfl) hn hreg hslot
  | some c =>
      cases c with
      | add ev =>
          obtain ⟨hn, hreg, hslot⟩ := record_of_add hcall evq
          rw [hcall] at hlive
          exact .add ev (by rw [hrecord, hlive]; rfl) hn hreg hslot
      | del ev =>
          have hnot : ∀ x, s.evq.backendCall fuel op ≠ some (.add x) := by simp [hcall]
          obtain ⟨hn, hreg, hslot⟩ := record_of_not_add hnot evq
          rw [hcall] at hlive
          exact .del ev (by rw [hrecord, hlive]; rfl) hn hreg hslot

/-- Two registrations that are not deleted are in different slots. -/
theorem Numbered.eq_of_regOf (h : s.Numbered) {x y : ℕ} (hx : s.evq.live x = true)
    (hy : s.evq.live y = true) (heq : s.regOf x = s.regOf y) : x = y := by
  rw [← (h.live_reg x hx).2, heq, (h.live_reg y hy).2]

theorem RegChange.nregs_le {call : Option BackendCall} (h : RegChange s s' call) :
    s.nregs ≤ s'.nregs ∧ ∀ n, n < s.nregs → s'.slotOf n = s.slotOf n := by
  cases h with
  | quiet _ hnregs _ hslotOf => exact ⟨hnregs.ge, fun n _ => congrFun hslotOf n⟩
  | del _ _ hnregs _ hslotOf => exact ⟨hnregs.ge, fun n _ => congrFun hslotOf n⟩
  | add ev _ hnregs _ hslotOf =>
      refine ⟨by rw [hnregs]; exact Nat.le_succ _, fun n hn => ?_⟩
      rw [hslotOf, Function.update_of_ne (Nat.ne_of_lt hn)]

theorem RegChange.registered_none (h : RegChange s s' none) : s'.registered = s.registered := by
  cases h with
  | quiet hlive _ hregOf _ => rw [registered, registered, hlive, hregOf]

theorem RegChange.registered_del (hnum : s.Numbered) (h : RegChange s s' (some (.del ev))) :
    s'.registered = s.registered \ { n | s.evq.live ev = true ∧ s.regOf ev = n } := by
  cases h with
  | del _ hlive _ hregOf _ =>
      ext n
      rw [registered, hlive, hregOf]
      constructor
      · rintro ⟨x, hx, rfl⟩
        by_cases hxe : x = ev
        · simp [hxe] at hx
        · rw [Function.update_of_ne hxe] at hx
          exact ⟨⟨x, hx, rfl⟩, fun hev => hxe (hnum.eq_of_regOf hx hev.1 hev.2.symm)⟩
      · rintro ⟨⟨x, hx, rfl⟩, hnot⟩
        refine ⟨x, ?_, rfl⟩
        by_cases hxe : x = ev
        · exact absurd ⟨hxe ▸ hx, by rw [hxe]⟩ hnot
        · rw [Function.update_of_ne hxe]
          exact hx

theorem RegChange.registered_add (hdead : s.evq.live ev = false)
    (h : RegChange s s' (some (.add ev))) : s'.registered = insert s.nregs s.registered := by
  have hne : ∀ x, s.evq.live x = true → x ≠ ev := by
    rintro x hx rfl
    exact absurd (hx.symm.trans hdead) (by simp)
  cases h with
  | add _ hlive _ hregOf _ =>
      ext n
      rw [registered, hlive, hregOf]
      constructor
      · rintro ⟨x, hx, rfl⟩
        by_cases hxe : x = ev
        · rw [hxe, Function.update_self]
          exact Set.mem_insert _ _
        · rw [Function.update_of_ne hxe] at hx ⊢
          exact Set.mem_insert_of_mem _ ⟨x, hx, rfl⟩
      · rintro (rfl | ⟨x, hx, rfl⟩)
        · exact ⟨ev, Function.update_self .., Function.update_self ..⟩
        · refine ⟨x, ?_, ?_⟩
          · rw [Function.update_of_ne (hne x hx)]
            exact hx
          · rw [Function.update_of_ne (hne x hx)]

/-- A safe step keeps the numbers. -/
theorem Numbered.step (h : s.Numbered) (op : EvqOp) (hsafe : op.Safe s.evq)
    (hrun : s.step fuel op = some s') : s'.Numbered := by
  have hregular : s'.evq.Regular := by
    obtain ⟨evq, hevq, rfl⟩ := Option.map_eq_some_iff.mp hrun
    rw [record_evq]
    exact h.regular.step hsafe hevq
  have hchange := step_change hrun
  refine ⟨hregular, fun x hx => ?_⟩
  cases hcall : s.evq.backendCall fuel op with
  | none =>
      rw [hcall] at hchange
      cases hchange with
      | quiet hlive hnregs hregOf hslotOf =>
          rw [hlive] at hx
          rw [hnregs, hregOf, hslotOf]
          exact h.live_reg x hx
  | some c =>
      rw [hcall] at hchange
      cases hchange with
      | del ev hlive hnregs hregOf hslotOf =>
          rw [hlive] at hx
          rw [hnregs, hregOf, hslotOf]
          by_cases hxe : x = ev
          · simp [hxe] at hx
          · rw [Function.update_of_ne hxe] at hx
            exact h.live_reg x hx
      | add ev hlive hnregs hregOf hslotOf =>
          rw [hlive] at hx
          rw [hnregs, hregOf, hslotOf]
          by_cases hxe : x = ev
          · rw [hxe, Function.update_self, Function.update_self]
            exact ⟨Nat.lt_succ_self _, rfl⟩
          · rw [Function.update_of_ne hxe] at hx ⊢
            obtain ⟨hlt, hslot⟩ := h.live_reg x hx
            rw [Function.update_of_ne (Nat.ne_of_lt hlt)]
            exact ⟨Nat.lt_succ_of_lt hlt, hslot⟩

end RegState

/-! ## The body of a callback -/

/-- The calls of a callback. -/
inductive CallbackOp
  | add (args : AddArgs) (res : AddResult)
  | del (ev : ℕ)
  | timeout (ev : ℕ) (msec : ℤ)

/-- How a callback ends. -/
inductive Ending
  | returns
  | yields
  | fails
  deriving DecidableEq, Repr

/-- The queue in the course of a callback, with the registrations that it has added and
deleted. -/
structure Body where
  reg : RegState
  added : List ℕ
  removed : List ℕ

/-- One call.  An error "too many events" is caught by the callback, or is its last call. -/
def Body.step (fuel : ℕ) (b : Body) : CallbackOp → Option Body
  | .add args res =>
      (b.reg.step fuel (.addBegin args)).bind fun s =>
        if b.reg.evq.adding.length < s.evq.adding.length then
          (s.step fuel (.addEnd 0 res)).map fun s' =>
            ⟨s', if s.nregs < s'.nregs then s.nregs :: b.added else b.added, b.removed⟩
        else some { b with reg := s }
  | .del ev =>
      (b.reg.step fuel (.del ev)).map fun s =>
        ⟨s, b.added, if b.reg.evq.live ev then b.reg.regOf ev :: b.removed else b.removed⟩
  | .timeout ev msec => (b.reg.step fuel (.timeout ev msec)).map fun s => { b with reg := s }

/-- The handles given to the calls are those of events in use or deleted before. -/
def CallbackOp.Safe (b : Body) : CallbackOp → Prop
  | .add _ _ => True
  | .del ev => (EvqOp.del ev).Safe b.reg.evq
  | .timeout ev msec => (EvqOp.timeout ev msec).Safe b.reg.evq

/-- The transitions of a body. -/
def Body.SafeStep (b b' : Body) : Prop :=
  ∃ (op : CallbackOp) (fuel : ℕ), op.Safe b ∧ b.step fuel op = some b'

/-- What the calls since the state `s` have done to the registrations. -/
structure Body.Inv (s : RegState) (b : Body) : Prop where
  numbered : b.reg.Numbered
  nregs_le : s.nregs ≤ b.reg.nregs
  slotOf : ∀ n, n < s.nregs → b.reg.slotOf n = s.slotOf n
  added_ge : ∀ n ∈ b.added, s.nregs ≤ n
  removed_lt : ∀ n ∈ b.removed, n < b.reg.nregs
  registered : b.reg.registered = (s.registered ∪ { n | n ∈ b.added }) \ { n | n ∈ b.removed }
  coros : b.reg.evq.coros = s.evq.coros

namespace Body

variable {s : RegState} {b b' : Body} {s' : RegState} {fuel ev : ℕ}

theorem init_inv (h : s.Numbered) : Inv s ⟨s, [], []⟩ := by
  refine ⟨h, le_rfl, fun _ _ => rfl, ?_, ?_, ?_, rfl⟩
  · exact fun n hn => absurd hn List.not_mem_nil
  · exact fun n hn => absurd hn List.not_mem_nil
  · simp

/-- A call that neither adds nor deletes a registration. -/
theorem Inv.quiet (h : b.Inv s) (hnum : s'.Numbered) (hcoros : s'.evq.coros = b.reg.evq.coros)
    (hchange : RegState.RegChange b.reg s' none) : Inv s ⟨s', b.added, b.removed⟩ := by
  obtain ⟨hle, hslot⟩ := hchange.nregs_le
  refine ⟨hnum, h.nregs_le.trans hle, fun n hn => ?_, h.added_ge,
    fun n hn => (h.removed_lt n hn).trans_le hle, ?_, hcoros.trans h.coros⟩
  · exact (hslot n (hn.trans_le h.nregs_le)).trans (h.slotOf n hn)
  · rw [hchange.registered_none]
    exact h.registered

theorem Inv.add (h : b.Inv s) (hnum : s'.Numbered) (hcoros : s'.evq.coros = b.reg.evq.coros)
    (hdead : b.reg.evq.live ev = false)
    (hchange : RegState.RegChange b.reg s' (some (.add ev))) :
    Inv s ⟨s', b.reg.nregs :: b.added, b.removed⟩ := by
  obtain ⟨hle, hslot⟩ := hchange.nregs_le
  refine ⟨hnum, h.nregs_le.trans hle, fun n hn => ?_, fun n hn => ?_,
    fun n hn => (h.removed_lt n hn).trans_le hle, ?_, hcoros.trans h.coros⟩
  · exact (hslot n (hn.trans_le h.nregs_le)).trans (h.slotOf n hn)
  · rcases List.mem_cons.mp hn with rfl | hn
    · exact h.nregs_le
    · exact h.added_ge n hn
  · -- the new number has not been deleted
    have hnew : b.reg.nregs ∉ { n | n ∈ b.removed } := fun hn =>
      absurd (h.removed_lt _ hn) (lt_irrefl _)
    rw [hchange.registered_add hdead, h.registered, ← Set.insert_sdiff_of_notMem _ hnew]
    ext n
    simp only [List.mem_cons, Set.mem_sdiff, Set.mem_insert_iff, Set.mem_union, Set.mem_ofPred_eq]
    tauto

theorem Inv.del (h : b.Inv s) (hnum : s'.Numbered) (hcoros : s'.evq.coros = b.reg.evq.coros)
    (hchange : RegState.RegChange b.reg s' (some (.del ev))) :
    Inv s ⟨s', b.added,
      if b.reg.evq.live ev then b.reg.regOf ev :: b.removed else b.removed⟩ := by
  obtain ⟨hle, hslot⟩ := hchange.nregs_le
  have hregistered := hchange.registered_del h.numbered
  refine ⟨hnum, h.nregs_le.trans hle, fun n hn => ?_, h.added_ge, fun n hn => ?_, ?_,
    hcoros.trans h.coros⟩
  · exact (hslot n (hn.trans_le h.nregs_le)).trans (h.slotOf n hn)
  · refine lt_of_lt_of_le ?_ hle
    dsimp only at hn
    split at hn
    · next hlive =>
      rcases List.mem_cons.mp hn with rfl | hn
      · exact (h.numbered.live_reg ev hlive).1
      · exact h.removed_lt n hn
    · exact h.removed_lt n hn
  · dsimp only
    rw [hregistered, h.registered]
    ext n
    by_cases hlive : b.reg.evq.live ev = true
    · simp only [hlive, if_true, true_and, Set.mem_sdiff, Set.mem_union, Set.mem_ofPred_eq,
        List.mem_cons, eq_comm (a := n)]
      tauto
    · simp only [hlive, if_false, false_and, Bool.false_eq_true, Set.mem_sdiff, Set.mem_ofPred_eq,
        not_false_eq_true, and_true]

/-- A safe call keeps the records. -/
theorem Inv.step (h : b.Inv s) {op : CallbackOp} (hsafe : op.Safe b)
    (hrun : b.step fuel op = some b') : b'.Inv s := by
  cases op with
  | add args res =>
      obtain ⟨s₁, hbegin, hrun⟩ := Option.bind_eq_some_iff.mp hrun
      have hnum₁ : s₁.Numbered := h.numbered.step (.addBegin args) trivial hbegin
      have hcoros₁ : s₁.evq.coros = b.reg.evq.coros := by
        obtain ⟨evq, hevq, rfl⟩ := Option.map_eq_some_iff.mp hbegin
        rw [RegState.record_evq]
        exact EvqState.addBegin_coros hevq
      have h₁ : Inv s ⟨s₁, b.added, b.removed⟩ :=
        h.quiet hnum₁ hcoros₁ (RegState.step_change hbegin)
      split at hrun
      · obtain ⟨s₂, hend, rfl⟩ := Option.map_eq_some_iff.mp hrun
        have hnum₂ : s₂.Numbered := hnum₁.step (.addEnd 0 res) trivial hend
        have hcoros₂ : s₂.evq.coros = s₁.evq.coros := by
          obtain ⟨evq, hevq, rfl⟩ := Option.map_eq_some_iff.mp hend
          rw [RegState.record_evq]
          exact EvqState.addEnd_coros hevq
        have hchange := RegState.step_change hend
        cases hcall : s₁.evq.backendCall fuel (.addEnd 0 res) with
        | none =>
            rw [hcall] at hchange
            have hn : s₂.nregs = s₁.nregs := by
              cases hchange with
              | quiet _ hnregs _ _ => exact hnregs
            rw [if_neg (by rw [hn]; exact lt_irrefl _)]
            exact h₁.quiet hnum₂ hcoros₂ hchange
        | some c =>
            obtain ⟨a, -, hsome⟩ := Option.bind_eq_some_iff.mp hcall
            obtain ⟨-, hsome⟩ := Option.ite_none_right_eq_some.mp hsome
            obtain rfl := Option.some.inj hsome
            rw [hcall] at hchange
            have hn : s₁.nregs < s₂.nregs := by
              cases hchange with
              | add _ _ hnregs _ _ =>
                  rw [hnregs]
                  exact Nat.lt_succ_self _
            rw [if_pos hn]
            exact h₁.add hnum₂ hcoros₂ (hnum₁.regular.add_dead hcall) hchange
      · rw [← Option.some.inj hrun]
        exact h₁
  | del ev =>
      rw [Body.step] at hrun
      obtain ⟨s₁, hdel, rfl⟩ := Option.map_eq_some_iff.mp hrun
      have hnum₁ : s₁.Numbered := h.numbered.step (.del ev) hsafe hdel
      have hcoros₁ : s₁.evq.coros = b.reg.evq.coros := by
        obtain ⟨evq, hevq, rfl⟩ := Option.map_eq_some_iff.mp hdel
        rw [RegState.record_evq, ← Option.some.inj hevq]
        exact EvqState.levqDel_coros b.reg.evq ev
      have hchange := RegState.step_change hdel
      simp only [EvqState.backendCall] at hchange
      split at hchange
      · exact h.del hnum₁ hcoros₁ hchange
      · next hreg =>
        -- what is not in the hands of the backend is not registered
        have hdead : ¬b.reg.evq.live ev = true := by
          intro hlive
          obtain ⟨slots, ready, hslots, -⟩ := h.numbered.regular.sound
          exact hreg (hslots.live_registered ev hlive)
        rw [if_neg hdead]
        exact h.quiet hnum₁ hcoros₁ hchange
  | timeout ev msec =>
      obtain ⟨s₁, htimeout, rfl⟩ := Option.map_eq_some_iff.mp hrun
      have hnum₁ : s₁.Numbered := h.numbered.step (.timeout ev msec) hsafe htimeout
      have hcoros₁ : s₁.evq.coros = b.reg.evq.coros := by
        obtain ⟨evq, hevq, rfl⟩ := Option.map_eq_some_iff.mp htimeout
        rw [RegState.record_evq]
        exact EvqState.levqTimeout_coros hevq
      exact h.quiet hnum₁ hcoros₁ (RegState.step_change htimeout)

theorem Inv.run (h : b.Inv s) (hrun : Relation.ReflTransGen SafeStep b b') : b'.Inv s := by
  induction hrun with
  | refl => exact h
  | tail _ hstep ih =>
      obtain ⟨op, fuel, hsafe, hop⟩ := hstep
      exact ih.step hsafe hop

end Body

/-! ## Dispatches -/

/-- The slot of the event is that of a registration added by the body. -/
def Body.Reused (b : Body) (ev : ℕ) : Prop :=
  b.reg.evq.live ev = true ∧ b.reg.regOf ev ∈ b.added

namespace RegState

/-- The transitions of a run with safe steps only. -/
def SafeStep (s s' : RegState) : Prop := ∃ op fuel, op.Safe s.evq ∧ s.step fuel op = some s'

/-- The callback of the event is a coroutine that the loop resumes. -/
def Resumes (s : RegState) (ev : ℕ) : Prop :=
  (s.evq.q.flags ev).delete = false ∧ (s.evq.q.flags ev).callbackSched = false ∧
    (s.evq.q.flags ev).callbackCoro = true

instance (s : RegState) (ev : ℕ) : Decidable (s.Resumes ev) :=
  inferInstanceAs (Decidable (_ ∧ _ ∧ _))

/-- The code behind the callback. -/
def callbackEnd (fuel : ℕ) (s : RegState) (ev : ℕ) (ending : Ending) (b : Body) :
    Option RegState :=
  if s.Resumes ev then b.reg.step fuel (.coroEnd 0 (ending = .returns)) else some b.reg

/-- The dispatch of the first ready event, the body of its callback and the code behind it. -/
structure Dispatched (s : RegState) (ev : ℕ) (ending : Ending) (b : Body) (s' : RegState) :
    Prop where
  ready : s.evq.q.evReady = some ev
  body : ∃ fuel s₁, s.step fuel .dispatch = some s₁ ∧
    Relation.ReflTransGen Body.SafeStep ⟨s₁, [], []⟩ b
  ended : ∃ fuel, s.callbackEnd fuel ev ending b = some s'

/-- The registration of the event, if it is oneshot. -/
def oneshotReg (s : RegState) (ev : ℕ) : Set ℕ :=
  { n | s.evq.live ev = true ∧ s.regOf ev = n ∧ (s.evq.q.flags ev).oneshot = true }

/-- The registration of the event, if it is oneshot or its coroutine has returned. -/
def endedReg (s : RegState) (ev : ℕ) (ending : Ending) : Set ℕ :=
  { n | s.evq.live ev = true ∧ s.regOf ev = n ∧
    ((s.evq.q.flags ev).oneshot = true ∨ s.Resumes ev ∧ ending = .returns) }

/-- After the dispatch, the registrations are those before it and those that the body has
added, without those that the body has deleted, and without that of the event, if it has
ended. -/
def FrameKept (s : RegState) (ev : ℕ) (ending : Ending) (b : Body) (s' : RegState) : Prop :=
  s'.registered =
    ((s.registered ∪ { n | n ∈ b.added }) \ { n | n ∈ b.removed }) \ s.endedReg ev ending

variable {s s' s₁ : RegState} {ev fuel : ℕ} {ending : Ending} {b : Body}

theorem init_numbered (now : ℤ) : (init now).Numbered :=
  ⟨EvqState.Regular.init now, fun x hx => absurd hx (by simp [init, EvqState.init])⟩

theorem SafeStep.numbered (hstep : SafeStep s s') (h : s.Numbered) : s'.Numbered := by
  obtain ⟨op, fuel, hsafe, hrun⟩ := hstep
  exact h.step op hsafe hrun

/-- Before the callback, a oneshot event is deleted. -/
theorem dispatch_registered (h : s.Numbered) (hready : s.evq.q.evReady = some ev)
    (hrun : s.step fuel .dispatch = some s₁) :
    s₁.nregs = s.nregs ∧ s₁.slotOf = s.slotOf ∧
      s₁.registered = s.registered \ s.oneshotReg ev := by
  obtain ⟨slots, ready, hslots, -⟩ := h.regular.sound
  have hchange := step_change hrun
  simp only [EvqState.backendCall, hready, Option.bind_some] at hchange
  split at hchange
  · next hcond =>
    have hset : s.oneshotReg ev = { n | s.evq.live ev = true ∧ s.regOf ev = n } := by
      ext n
      simp only [oneshotReg, hcond.2.1, and_true]
    rw [hset, ← hchange.registered_del h]
    cases hchange with
    | del _ _ hnregs _ hslotOf => exact ⟨hnregs, hslotOf, rfl⟩
  · next hcond =>
    -- a registered event that the backend keeps is not oneshot
    have hset : s.registered \ s.oneshotReg ev = s.registered := by
      ext n
      refine ⟨And.left, fun hn => ⟨hn, fun hone => hcond ⟨?_, hone.2.2, ?_⟩⟩⟩
      · rw [hslots.live_delete ev hone.1]
        exact Bool.false_ne_true
      · exact hslots.live_registered ev hone.1
    rw [hset, ← hchange.registered_none]
    cases hchange with
    | quiet _ hnregs _ hslotOf => exact ⟨hnregs, hslotOf, rfl⟩

theorem dispatch_coros (hready : s.evq.q.evReady = some ev) (hresumes : s.Resumes ev)
    (hrun : s.step fuel .dispatch = some s₁) : s₁.evq.coros[0]? = some ev := by
  obtain ⟨evq, hevq, rfl⟩ := Option.map_eq_some_iff.mp hrun
  rw [record_evq]
  obtain ⟨hdelete, hsched, hcoro⟩ := hresumes
  rw [EvqState.step, EvqState.dispatch, hready, Option.bind_eq_bind, Option.bind_some] at hevq
  dsimp only at hevq
  rw [if_neg (by rw [hdelete]; exact Bool.false_ne_true),
    if_pos ⟨by rw [hsched]; exact Bool.false_ne_true, hcoro⟩] at hevq
  rw [← Option.some.inj hevq]
  rfl

/-- The registrations when the callback ends. -/
theorem Dispatched.body_registered (h : s.Numbered) (hd : s.Dispatched ev ending b s') :
    b.reg.Numbered ∧ s.nregs ≤ b.reg.nregs ∧
      (∀ n, n < s.nregs → b.reg.slotOf n = s.slotOf n) ∧ (∀ n ∈ b.added, s.nregs ≤ n) ∧
      b.reg.registered =
        ((s.registered ∪ { n | n ∈ b.added }) \ { n | n ∈ b.removed }) \ s.oneshotReg ev := by
  obtain ⟨fuel, s₁, hrun, hbody⟩ := hd.body
  obtain ⟨hnregs, hslotOf, hregistered⟩ := dispatch_registered h hd.ready hrun
  have hnum₁ : s₁.Numbered := h.step .dispatch trivial hrun
  have hb := (Body.init_inv hnum₁).run hbody
  refine ⟨hb.numbered, hnregs ▸ hb.nregs_le, fun n hn => ?_, hnregs ▸ hb.added_ge, ?_⟩
  · rw [hb.slotOf n (hnregs ▸ hn), hslotOf]
  · -- the dispatched registration is older than the added ones
    have hold : ∀ n ∈ s.oneshotReg ev, n ∉ b.added := by
      rintro n ⟨hlive, rfl, -⟩ hn
      have hlt := (h.live_reg ev hlive).1
      exact absurd (hnregs ▸ hb.added_ge _ hn) (Nat.not_le.mpr hlt)
    rw [hb.registered, hregistered]
    ext n
    have hn := hold n
    simp only [Set.mem_sdiff, Set.mem_union, Set.mem_ofPred_eq]
    tauto

/-- When a coroutine has returned, what is registered in the slot of the event is deleted. -/
theorem Dispatched.ended_registered (h : s.Numbered) (hd : s.Dispatched ev ending b s') :
    s'.registered = b.reg.registered \ { n | (s.Resumes ev ∧ ending = .returns) ∧
      b.reg.evq.live ev = true ∧ b.reg.regOf ev = n } := by
  obtain ⟨hnum, -⟩ := hd.body_registered h
  obtain ⟨fuel₀, s₁, hrun, hbody⟩ := hd.body
  obtain ⟨fuel, hend⟩ := hd.ended
  unfold callbackEnd at hend
  split at hend
  · next hresumes =>
    have hcoro : b.reg.evq.coros[0]? = some ev := by
      have hnum₁ : s₁.Numbered := h.step .dispatch trivial hrun
      rw [((Body.init_inv hnum₁).run hbody).coros]
      exact dispatch_coros hd.ready hresumes hrun
    have hchange := step_change hend
    simp only [EvqState.backendCall, hcoro, Option.bind_some, decide_eq_true_eq] at hchange
    split at hchange
    · next hcond =>
      rw [hchange.registered_del hnum]
      simp only [hresumes, hcond.1, and_self, true_and]
    · next hcond =>
      rw [hchange.registered_none]
      ext n
      refine ⟨fun hn => ⟨hn, fun hgone => hcond ⟨hgone.1.2, ?_⟩⟩, And.left⟩
      obtain ⟨slots, ready, hslots, -⟩ := hnum.regular.sound
      exact hslots.live_registered ev hgone.2.1
  · next hnot =>
    rw [← Option.some.inj hend]
    ext n
    exact ⟨fun hn => ⟨hn, fun hgone => hnot hgone.1.1⟩, And.left⟩

/-- The other registrations are kept, unless the return of a coroutine finds its slot
reused. -/
theorem Dispatched.frameKept_iff (h : s.Numbered) (hd : s.Dispatched ev ending b s') :
    s.FrameKept ev ending b s' ↔ ¬(s.Resumes ev ∧ ending = .returns ∧ b.Reused ev) := by
  obtain ⟨hnum, hle, hslot, hadded, hbody⟩ := hd.body_registered h
  rw [FrameKept, hd.ended_registered h]
  by_cases hreturn : s.Resumes ev ∧ ending = .returns
  · constructor
    · -- the new registration in the slot would have to be there
      rintro hkept ⟨-, -, hlive, hmem⟩
      have hreg : b.reg.regOf ev ∈ b.reg.registered := ⟨ev, hlive, rfl⟩
      have hin : b.reg.regOf ev ∈ ((s.registered ∪ { n | n ∈ b.added }) \
          { n | n ∈ b.removed }) \ s.endedReg ev ending := by
        rw [hbody] at hreg
        refine ⟨hreg.1, fun hended => ?_⟩
        have hlt := (h.live_reg ev hended.1).1
        rw [hended.2.1] at hlt
        exact absurd (hadded _ hmem) (Nat.not_le.mpr hlt)
      rw [← hkept] at hin
      exact hin.2 ⟨hreturn, hlive, rfl⟩
    · intro hnot
      ext n
      constructor
      · rintro ⟨hreg, hself⟩
        have hin := hreg
        rw [hbody] at hin
        refine ⟨hin.1, fun hended => hself ⟨hreturn, ?_⟩⟩
        -- the dispatched registration is still that of its slot
        obtain ⟨x, hx, rfl⟩ := hreg
        have hlt := (h.live_reg ev hended.1).1
        have hold := (h.live_reg ev hended.1).2
        rw [hended.2.1] at hlt hold
        have hxe : x = ev := by
          rw [← (hnum.live_reg x hx).2, hslot _ hlt, hold]
        rw [hxe] at hx ⊢
        exact ⟨hx, rfl⟩
      · rintro ⟨hin, hended⟩
        have hone : n ∉ s.oneshotReg ev := fun hone =>
          hended ⟨hone.1, hone.2.1, Or.inl hone.2.2⟩
        refine ⟨by rw [hbody]; exact ⟨hin, hone⟩, ?_⟩
        rintro ⟨-, hlive, rfl⟩
        have hmem : b.reg.regOf ev ∉ b.added := fun hmem =>
          hnot ⟨hreturn.1, hreturn.2, hlive, hmem⟩
        -- an old registration in the slot is the dispatched one
        obtain ⟨x, hx, hreg⟩ := hin.1.resolve_right hmem
        obtain ⟨hlt, hold⟩ := h.live_reg x hx
        rw [hreg] at hlt hold
        have hxe : x = ev := by
          rw [← hold, ← hslot _ hlt, (hnum.live_reg ev hlive).2]
        rw [hxe] at hx hreg
        exact hended ⟨hx, hreg, Or.inr hreturn⟩
  · refine iff_of_true ?_ fun hall => hreturn ⟨hall.1, hall.2.1⟩
    rw [hbody]
    ext n
    simp only [hreturn, false_and, endedReg, oneshotReg, or_false, Set.mem_sdiff,
      Set.mem_ofPred_eq, not_false_eq_true, and_true]

end RegState

open RegState in
/-- **A dispatch has no effect on other registrations, or it deletes a new one.**  For every
event dispatched in a run, every callback and every body of it: the other registrations are
kept exactly when it is not the case that the callback is a coroutine, has returned, and has
added an event that is in the slot of its own event. -/
theorem dispatch_frame_iff {now : ℤ} {s s' : RegState} {ev : ℕ} {ending : Ending} {b : Body}
    (hrun : Relation.ReflTransGen SafeStep (init now) s) (hd : s.Dispatched ev ending b s') :
    s.FrameKept ev ending b s' ↔ ¬(s.Resumes ev ∧ ending = .returns ∧ b.Reused ev) :=
  hd.frameKept_iff (inv_of_reach (fun _ _ hstep => hstep.numbered) (init_numbered now) hrun)

open RegState in
/-- A coroutine is resumed for an event that is not oneshot.  It adds another event and
returns, and its own event is deleted. -/
theorem dispatch_frame_iff_coroutine : ∃ (s : RegState) (b : Body) (s' : RegState),
    s.Dispatched 0 .returns b s' ∧ s.Resumes 0 ∧ b.added = [1] ∧ s.FrameKept 0 .returns b s' := by
  have hrun : Relation.ReflTransGen SafeStep (init 0) _ :=
    .tail (.tail (.tail .refl
      ⟨.addBegin ⟨false, false, false, .coroutine, -1, false⟩, 2, trivial, rfl⟩)
      ⟨.addEnd 0 .ok, 2, trivial, rfl⟩)
      ⟨.activate 0 { readRes := true } 0, 2, Or.inl rfl, rfl⟩
  have hdispatch : ∃ (s : RegState) (b : Body) (s' : RegState),
      Relation.ReflTransGen SafeStep (init 0) s ∧ s.Dispatched 0 .returns b s' ∧ s.Resumes 0 ∧
        b.added = [1] ∧ b.reg.regOf 0 = 0 :=
    ⟨_, _, _, hrun, ⟨rfl, ⟨2, _, rfl,
      .single ⟨.add ⟨false, false, false, .function, -1, false⟩ .ok, 2, trivial, rfl⟩⟩, 2, rfl⟩,
      ⟨rfl, rfl, rfl⟩, rfl, rfl⟩
  obtain ⟨s, b, s', hrun, hd, hresumes, hadded, hreg⟩ := hdispatch
  refine ⟨s, b, s', hd, hresumes, hadded, (dispatch_frame_iff hrun hd).mpr ?_⟩
  rintro ⟨-, -, -, hmem⟩
  rw [hadded, hreg] at hmem
  exact absurd hmem (by decide)

open RegState in
/-- A oneshot event has a coroutine as its callback.  The coroutine adds an event, which gets
the slot that has just been released, and returns: the new event is deleted. -/
theorem reused_slot_deleted : ∃ (s : RegState) (b : Body) (s' : RegState),
    Relation.ReflTransGen SafeStep (init 0) s ∧ s.Dispatched 0 .returns b s' ∧
      ¬s.FrameKept 0 .returns b s' := by
  have hrun : Relation.ReflTransGen SafeStep (init 0) _ :=
    .tail (.tail (.tail .refl
      ⟨.addBegin ⟨false, false, true, .coroutine, -1, false⟩, 2, trivial, rfl⟩)
      ⟨.addEnd 0 .ok, 2, trivial, rfl⟩)
      ⟨.activate 0 { readRes := true } 0, 2, Or.inl rfl, rfl⟩
  have hdispatch : ∃ (s : RegState) (b : Body) (s' : RegState),
      Relation.ReflTransGen SafeStep (init 0) s ∧ s.Dispatched 0 .returns b s' ∧ s.Resumes 0 ∧
        b.Reused 0 :=
    ⟨_, _, _, hrun, ⟨rfl, ⟨2, _, rfl,
      .single ⟨.add ⟨false, false, false, .function, -1, false⟩ .ok, 2, trivial, rfl⟩⟩, 2, rfl⟩,
      ⟨rfl, rfl, rfl⟩, rfl, List.mem_singleton_self 1⟩
  obtain ⟨s, b, s', hrun, hd, hresumes, hreused⟩ := hdispatch
  have hnum : s.Numbered :=
    inv_of_reach (fun _ _ hstep => hstep.numbered) (init_numbered 0) hrun
  exact ⟨s, b, s', hrun, hd, fun hkept => (hd.frameKept_iff hnum).mp hkept ⟨hresumes, rfl, hreused⟩⟩

end LuaSys.Event
