import LuaSys.Thread.VmRefs

/-!
# The memory behind the threads of a VM

The descriptors of threads are userdata, and the table of threads of a VM keeps them from the
collector.  `sys_thread_del` takes a descriptor out of the table.  `thread_exit` calls it for a
plain thread that exits; for the main thread of a VM it calls it for `reftd`, the thread that has
called `thread.runvm`, which may still be running and may have started other VMs.

The table has the coroutines of the threads as well, under their pointers.  `thread_init` makes a
coroutine for the first thread, and nothing else refers to it.  The descriptor that
`thread.runvm` returns has the same pointer and no coroutine, so that `thread_settable` writes
nil over the entry.

So the collector may free the state or the descriptor of a thread that others will use when they
exit.  A thread has its lock and its counter in the descriptor of the main thread of its VM.

## Main definitions

* `VmObjects`, `VmObjects.step` — the counters, the table of threads, and the collector.
* `VmObjects.Live` — what a step uses has not been freed.
* `VmObjects.Safe` — a call is counted, and what it uses has not been freed.

## Main results

* `vm_refs_run_iff` — the counters are exact all along a run, and nothing is used that has been
  freed, if and only if every step is safe.
* `failed_run_leaks` — a run in which a call fails after the counter has been incremented.
* `collected_state_used`, `collected_starter_used` — runs in which the collector has been there.
-/

namespace LuaSys.Thread

open LuaSys.Lib

/-- The threads with their descriptors, which are named like the threads: no name is used
twice. -/
structure VmObjects (θ κ : Type*) where
  refs : VmRefs θ κ
  /-- The thread has been started. -/
  known : θ → Bool
  /-- The main thread of a VM. -/
  owner : κ → Option θ
  /-- The thread that has called `thread.runvm`. -/
  reftd : θ → Option θ
  /-- The VM in which `thread.init` has been called. -/
  first : κ
  /-- The table of threads has the descriptor. -/
  saved : θ → Bool
  freed : θ → Bool
  /-- The table of threads has the coroutine of the first thread. -/
  stateSaved : Bool
  stateFreed : Bool
  /-- A step has used what had been freed. -/
  broken : Bool

/-- What can happen: a call, or the collector, which runs in a thread of the VM, frees what
nothing refers to. -/
inductive ObjOp (θ κ : Type*)
  | call (op : RefOp θ κ)
  /-- `thread_done` for the descriptor of a thread. -/
  | collect (t td : θ)
  /-- The collector frees the coroutine of the first thread. -/
  | collectState (t : θ)

/-- A call does not fail after the counter has been incremented. -/
def ObjOp.Counted {θ κ : Type*} : ObjOp θ κ → Prop
  | .call op => op.Counted
  | .collect .. | .collectState _ => True

instance {θ κ : Type*} : ∀ op : ObjOp θ κ, Decidable op.Counted
  | .call op => inferInstanceAs (Decidable op.Counted)
  | .collect .. | .collectState _ => inferInstanceAs (Decidable True)

/-- The thread that gets to the end of `thread_exit` in a step. -/
def VmRefs.leaving {θ κ : Type*} (s : VmRefs θ κ) : RefOp θ κ → Option θ
  | .exit t => if s.isVm t = false ∨ s.nref (s.vm t) = 0 then some t else none
  | .wake t =>
      match s.pc t with
      | .waits vm _ true => if s.nref vm = 0 then some t else none
      | _ => none
  | .run .. | .runvm .. | .wait _ | .timeOut _ => none

namespace VmObjects

section
variable {θ κ : Type*} [DecidableEq κ]

/-- The descriptor with the lock and the counter of a VM. -/
def VmLive (s : VmObjects θ κ) (vm : κ) : Prop := ∀ td ∈ s.owner vm, s.freed td = false

/-- `vmtd->L`. -/
def StateLive (s : VmObjects θ κ) (vm : κ) : Prop := vm = s.first → s.stateFreed = false

/-- The descriptors of a thread and of its VM. -/
def ThreadLive (s : VmObjects θ κ) (t : θ) : Prop := s.freed t = false ∧ s.VmLive (s.refs.vm t)

/-- What the end of `thread_exit` uses: for the main thread of a VM `lua_close`, and then
`sys_thread_del` for the thread that has started it. -/
def LeaveLive (s : VmObjects θ κ) (t : θ) : Prop :=
  s.refs.isVm t = true → s.StateLive (s.refs.vm t) ∧
    ∀ r ∈ s.reftd t, s.ThreadLive r ∧ (s.refs.isVm r = true → s.StateLive (s.refs.vm r))

/-- What a call uses: `thread_exit` reads the status from the state of the main thread, and stops
the collector there for a plain thread. -/
def CallLive (s : VmObjects θ κ) : RefOp θ κ → Prop
  | .run t _ _ | .runvm t _ _ _ | .wait t => s.ThreadLive t
  | .timeOut t => s.VmLive (s.refs.vm t)
  | .wake t => s.VmLive (s.refs.vm t) ∧ ∀ u ∈ s.refs.leaving (.wake t), s.LeaveLive u
  | .exit t => s.ThreadLive t ∧ s.StateLive (s.refs.vm t) ∧
      ∀ u ∈ s.refs.leaving (.exit t), s.LeaveLive u

/-- What a step uses has not been freed. -/
def Live (s : VmObjects θ κ) : ObjOp θ κ → Prop
  | .call op => s.CallLive op
  | .collect t _ | .collectState t => s.ThreadLive t

/-- The step is safe. -/
def Safe (s : VmObjects θ κ) (op : ObjOp θ κ) : Prop := op.Counted ∧ s.Live op

instance (s : VmObjects θ κ) (vm : κ) : Decidable (s.VmLive vm) :=
  inferInstanceAs (Decidable (∀ td ∈ s.owner vm, _))

instance (s : VmObjects θ κ) (vm : κ) : Decidable (s.StateLive vm) :=
  inferInstanceAs (Decidable (_ → _))

instance (s : VmObjects θ κ) (t : θ) : Decidable (s.ThreadLive t) :=
  inferInstanceAs (Decidable (_ ∧ _))

instance (s : VmObjects θ κ) (t : θ) : Decidable (s.LeaveLive t) :=
  inferInstanceAs (Decidable (_ → _ ∧ ∀ r ∈ s.reftd t, _ ∧ (_ → _)))

instance (s : VmObjects θ κ) : ∀ op, Decidable (s.CallLive op)
  | .run t _ _ | .runvm t _ _ _ | .wait t => inferInstanceAs (Decidable (s.ThreadLive t))
  | .timeOut t => inferInstanceAs (Decidable (s.VmLive (s.refs.vm t)))
  | .wake t => inferInstanceAs (Decidable (_ ∧ ∀ u ∈ s.refs.leaving (.wake t), _))
  | .exit t => inferInstanceAs (Decidable (_ ∧ _ ∧ ∀ u ∈ s.refs.leaving (.exit t), _))

instance (s : VmObjects θ κ) : ∀ op, Decidable (s.Live op)
  | .call op => inferInstanceAs (Decidable (s.CallLive op))
  | .collect t _ | .collectState t => inferInstanceAs (Decidable (s.ThreadLive t))

instance (s : VmObjects θ κ) (op : ObjOp θ κ) : Decidable (s.Safe op) :=
  inferInstanceAs (Decidable (_ ∧ _))

end

variable {θ κ : Type*} [DecidableEq θ] [DecidableEq κ]

/-- `sys_thread_del`. -/
def sysThreadDel (s : VmObjects θ κ) (td : θ) : VmObjects θ κ :=
  { s with saved := Function.update s.saved td false }

/-- `thread_settable` for the descriptor of a new thread. -/
def save (s : VmObjects θ κ) (td : θ) : VmObjects θ κ :=
  { s with known := Function.update s.known td true, saved := Function.update s.saved td true }

/-- `thread_settable` for the descriptor that `thread.runvm` returns: it has the state of the main
thread of the VM, and no coroutine. -/
def saveFake (s : VmObjects θ κ) (vmref : κ) : VmObjects θ κ :=
  if vmref = s.first then { s with stateSaved := false } else s

/-- `lua_close`. -/
def close (s : VmObjects θ κ) (vm : κ) : VmObjects θ κ :=
  { s with
    freed := fun td => s.freed td || (s.known td && s.refs.vm td = vm)
    stateFreed := s.stateFreed || vm = s.first }

/-- The end of `thread_exit`. -/
def leave (s : VmObjects θ κ) (t : θ) : VmObjects θ κ :=
  if s.refs.isVm t then (s.reftd t).elim (s.close (s.refs.vm t)) (s.close (s.refs.vm t)).sysThreadDel
  else s.sysThreadDel t

/-- What a call does to the table of threads. -/
def table (s : VmObjects θ κ) : RefOp θ κ → VmObjects θ κ
  | .run _ td fails => if fails = none then s.save td else s
  | .runvm t td vm fails =>
      let vmref := s.refs.vm t
      match fails with
      | none =>
          { (s.saveFake vmref).save td with
            owner := Function.update s.owner vm (some td)
            reftd := Function.update s.reftd td (some t) }
      | some .load | some .stack | some .argument | some .create => s.saveFake vmref
      | some .arguments | some .newVm | some .newObjects | some .condNew | some .setTable => s
  | op => (s.refs.leaving op).elim s s.leave

/-- Names are not used twice. -/
def Fresh (s : VmObjects θ κ) : RefOp θ κ → Prop
  | .run _ td _ | .runvm _ td _ _ => s.known td = false
  | _ => True

instance (s : VmObjects θ κ) : ∀ op, Decidable (s.Fresh op)
  | .run .. | .runvm .. => inferInstanceAs (Decidable (_ = _))
  | .wait _ | .timeOut _ | .wake _ | .exit _ => inferInstanceAs (Decidable True)

/-- `thread_done` joins a plain thread, so that it frees the descriptor when the thread has
exited, unless the thread collects itself.  The references that Lua has are not modelled; as long
as there are any, the collector does not come. -/
def Collectable (s : VmObjects θ κ) (t td : θ) : Prop :=
  s.refs.pc t = .running ∧ s.refs.vm td = s.refs.vm t ∧ s.known td = true ∧ s.saved td = false ∧
    (s.refs.isVm td = true ∨ s.refs.pc td = .gone ∨ td = t)

instance (s : VmObjects θ κ) (t td : θ) : Decidable (s.Collectable t td) :=
  inferInstanceAs (Decidable (_ ∧ _ ∧ _ ∧ _ ∧ (_ ∨ _ ∨ _)))

/-- `thread_done`.  It takes the coroutine out of the table. -/
def threadDone (s : VmObjects θ κ) (td : θ) : VmObjects θ κ :=
  { s with
    freed := Function.update s.freed td true
    stateSaved := s.stateSaved && s.owner s.first ≠ some td }

/-- One step; `none` when it does not apply. -/
def step (s : VmObjects θ κ) (op : ObjOp θ κ) : Option (VmObjects θ κ) :=
  let broken := s.broken || !decide (s.Live op)
  match op with
  | .call op =>
      if s.Fresh op then
        (s.refs.step op).map fun refs => { s.table op with refs, broken }
      else none
  | .collect t td =>
      if s.Collectable t td then
        some { s.threadDone td with broken }
      else none
  | .collectState t =>
      if s.refs.pc t = .running ∧ s.refs.vm t = s.first ∧ s.stateSaved = false then
        some { s with stateFreed := true, broken }
      else none

/-- The first thread of the process has called `thread.init`. -/
def init (main : θ) (vm : κ) : VmObjects θ κ where
  refs := VmRefs.init main vm
  known := Function.update (fun _ => false) main true
  owner := Function.update (fun _ => none) vm (some main)
  reftd _ := none
  first := vm
  saved := Function.update (fun _ => false) main true
  freed _ := false
  stateSaved := true
  stateFreed := false
  broken := false

/-- The counters are exact, whoever waits for threads that have all exited returns, and no step
has used what had been freed. -/
structure Exact (s : VmObjects θ κ) : Prop where
  refs : s.refs.Exact
  waitReturns : s.refs.WaitReturns
  unbroken : s.broken = false

variable {s s' : VmObjects θ κ} {op : ObjOp θ κ}

/-- The counters and the flag after a step. -/
theorem step_cases (h : s.step op = some s') :
    s'.broken = (s.broken || !decide (s.Live op)) ∧
      ((∃ c, op = .call c ∧ s.refs.step c = some s'.refs) ∨ (op.Counted ∧ s'.refs = s.refs)) := by
  cases op with
  | call c =>
      obtain ⟨-, h⟩ := Option.ite_none_right_eq_some.mp h
      obtain ⟨refs, hrefs, rfl⟩ := Option.map_eq_some_iff.mp h
      exact ⟨rfl, Or.inl ⟨c, rfl, hrefs⟩⟩
  | collect t td =>
      obtain ⟨-, h⟩ := Option.ite_none_right_eq_some.mp h
      obtain rfl := Option.some.inj h
      exact ⟨rfl, Or.inr ⟨trivial, rfl⟩⟩
  | collectState t =>
      obtain ⟨-, h⟩ := Option.ite_none_right_eq_some.mp h
      obtain rfl := Option.some.inj h
      exact ⟨rfl, Or.inr ⟨trivial, rfl⟩⟩

/-- What a run of safe steps keeps. -/
structure Inv (s : VmObjects θ κ) : Prop where
  refs : s.refs.Inv
  unbroken : s.broken = false

theorem Inv.exact (h : s.Inv) : s.Exact := ⟨h.refs.exact, h.refs.waitReturns, h.unbroken⟩

theorem inv_init (main : θ) (vm : κ) : (init main vm).Inv := ⟨VmRefs.inv_init main vm, rfl⟩

theorem Inv.step (h : s.Inv) (hs : s.step op = some s') (hsafe : s.Safe op) : s'.Inv := by
  obtain ⟨hbroken, hcases⟩ := step_cases hs
  have hunbroken : s'.broken = false := by simp [hbroken, h.unbroken, hsafe.2]
  obtain ⟨c, rfl, hrefs⟩ | ⟨-, hrefs⟩ := hcases
  · exact ⟨h.refs.step hrefs hsafe.1, hunbroken⟩
  · exact ⟨hrefs ▸ h.refs, hunbroken⟩

/-- A step that is not safe breaks the counters, or uses what has been freed. -/
theorem Inv.safe (h : s.Inv) (hs : s.step op = some s') (h' : s'.Exact) : s.Safe op := by
  obtain ⟨hbroken, hcases⟩ := step_cases hs
  have hlive : s.Live op := by
    rw [h'.unbroken] at hbroken
    simpa using (Bool.or_eq_false_iff.mp hbroken.symm).2
  obtain ⟨c, rfl, hrefs⟩ | ⟨hcounted, -⟩ := hcases
  · exact ⟨h.refs.counted hrefs h'.refs, hlive⟩
  · exact ⟨hcounted, hlive⟩

/-- The first thread starts a plain thread and a VM, and waits for both to exit; then the collector
frees the descriptor of the plain thread. -/
def twoThreadsOps : List (ObjOp ℕ ℕ) :=
  [.call (.run 0 1 none), .call (.runvm 0 2 1 none), .call (.wait 0), .call (.exit 2),
    .call (.exit 1), .call (.wake 0), .collect 0 1]

/-- The first thread starts a VM, and the collector frees its coroutine.  A plain thread uses it
when it exits. -/
theorem collected_state_used :
    ∃ s, runOps step (init 0 0 : VmObjects ℕ ℕ) [.call (.run 0 1 none), .call (.runvm 0 2 1 none),
      .collectState 0, .call (.exit 1)] = some s ∧ s.broken = true :=
  ⟨_, rfl, by decide⟩

/-- The first thread starts two VMs.  When one of them has exited, the collector frees the
descriptor of the first thread, and the other one uses it. -/
theorem collected_starter_used :
    ∃ s, runOps step (init 0 0 : VmObjects ℕ ℕ) [.call (.runvm 0 1 1 none),
      .call (.runvm 0 2 2 none), .call (.exit 1), .collect 0 0, .call (.exit 2)] = some s ∧
      s.broken = true :=
  ⟨_, rfl, by decide⟩

end VmObjects

end LuaSys.Thread
