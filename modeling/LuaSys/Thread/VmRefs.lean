import LuaSys.Lib.Census
import LuaSys.Lib.Run

/-!
# The counter of the threads of a VM

`nref` counts the threads that have been started from a VM.  `sys_thread_new` increments it
before the thread is created, and `thread_exit` decrements it.  `thread_waitvm` waits until it
is zero, and the main thread of a VM does so before the VM is closed.

But `thread_run` and `thread_runvm` may fail after `sys_thread_new` has incremented the
counter: there may be no condition variable, no memory, no script, no thread, or an argument
that cannot be passed.  None of these paths decrements it.

A call has the lock of its VM, so it is one step, up to a wait in `thread_waitvm`.  The thread
that has left the lock of its own VM in `thread_exit`, and not yet entered the one of the VM
that has started it, has not yet exited.

The memory that these functions use is the subject of `LuaSys.Thread.VmObjects`.

## Main definitions

* `VmRefs`, `VmRefs.step` — the counters, and the threads that are started, wait and exit.
* `VmRefs.Exact` — the counters are the numbers of the threads.
* `VmRefs.WaitReturns` — `thread_waitvm` returns when all threads have exited.
* `RefOp.Counted` — a call does not fail after the counter has been incremented.

## Main results

* `Inv.step`, `Inv.counted` — the steps that keep the counters exact are those of counted calls.
* `Inv.waitReturns` — whoever waits for threads that have all exited has been woken up.
-/

namespace LuaSys.Thread

open LuaSys.Lib

/-- The steps of `thread_run` and `thread_runvm` that may fail, in their order. -/
inductive StartStep
  /-- The checks of the arguments, and of the threading. -/
  | arguments
  /-- `thread_newvm`, only in `thread_runvm`. -/
  | newVm
  /-- `lua_newthread` and `lua_newuserdata` in `sys_thread_new`. -/
  | newObjects
  /-- `thread_cond_new` in `sys_thread_new`. -/
  | condNew
  /-- `thread_settable` in `sys_thread_new`. -/
  | setTable
  /-- `luaL_loadbuffer` or `luaL_loadfile`, only in `thread_runvm`. -/
  | load
  /-- `luaL_checkstack`. -/
  | stack
  /-- An argument of an unsupported type, only in `thread_runvm`. -/
  | argument
  /-- `sys_thread_create`. -/
  | create
  deriving DecidableEq

/-- The steps of `thread_runvm` that `thread_run` does not have. -/
def StartStep.onlyVm : StartStep → Bool
  | newVm | load | argument => true
  | _ => false

/-- The steps before the counter is incremented. -/
def StartStep.before : StartStep → Bool
  | arguments | newVm | newObjects => true
  | _ => false

/-- What a thread is doing. -/
inductive RefPc (κ : Type*)
  /-- It has not been started, or has exited. -/
  | gone
  | running
  /-- It is in `thread_waitvm`, asleep or signalled, from `thread_wait` or `thread_exit`. -/
  | waits (vm : κ) (asleep exiting : Bool)
  deriving DecidableEq

/-- The VMs and the threads. -/
structure VmRefs (θ κ : Type*) where
  nref : κ → BitVec 32
  /-- The VM exists, or has existed. -/
  used : κ → Bool
  /-- The VM of a thread. -/
  vm : θ → κ
  /-- `thread_isvm`. -/
  isVm : θ → Bool
  /-- The VM that a thread has been started from: none for the first thread of the process, for
  one that is not started and for one that has exited. -/
  startedFrom : θ → Option κ
  pc : θ → RefPc κ

/-- What can happen. -/
inductive RefOp (θ κ : Type*)
  /-- `thread.run`: a thread starts another one, or fails. -/
  | run (t td : θ) (fails : Option StartStep)
  /-- `thread.runvm`: the same for the main thread of a new VM. -/
  | runvm (t td : θ) (vm : κ) (fails : Option StartStep)
  /-- `thread:wait` for the VM of the thread. -/
  | wait (t : θ)
  /-- The wait is too long. -/
  | timeOut (t : θ)
  /-- The condition of a `thread_waitvm` has been signalled. -/
  | wake (t : θ)
  /-- The thread calls `thread_exit`. -/
  | exit (t : θ)

namespace VmRefs

variable {θ κ : Type*} [DecidableEq θ] [DecidableEq κ]

def setPc (s : VmRefs θ κ) (t : θ) (pc : RefPc κ) : VmRefs θ κ :=
  { s with pc := Function.update s.pc t pc }

def incRef (s : VmRefs θ κ) (vmref : κ) : VmRefs θ κ :=
  { s with nref := Function.update s.nref vmref (s.nref vmref + 1) }

/-- `sys_thread_new`, which returns null if it fails, or raises an error. -/
def sysThreadNew (s : VmRefs θ κ) (vmref : κ) (fails : Option StartStep) : VmRefs θ κ × Bool :=
  if fails = some .newObjects then (s, false)
  else (s.incRef vmref, fails ≠ some .condNew ∧ fails ≠ some .setTable)

/-- A thread has been created. -/
def start (s : VmRefs θ κ) (td : θ) (vm : κ) (isVm : Bool) (vmref : κ) : VmRefs θ κ :=
  { s with
    used := Function.update s.used vm true
    vm := Function.update s.vm td vm
    isVm := Function.update s.isVm td isVm
    startedFrom := Function.update s.startedFrom td (some vmref)
    pc := Function.update s.pc td .running }

/-- `thread_run`. -/
def threadRun (s : VmRefs θ κ) (t td : θ) (fails : Option StartStep) : VmRefs θ κ :=
  if fails = some .arguments then s
  else
    let vmref := s.vm t
    match s.sysThreadNew vmref fails with
    | (s, false) => s
    | (s, true) =>
        if fails = some .stack ∨ fails = some .create then s else s.start td vmref false vmref

/-- `thread_runvm`. -/
def threadRunvm (s : VmRefs θ κ) (t td : θ) (vm : κ) (fails : Option StartStep) : VmRefs θ κ :=
  if fails = some .arguments ∨ fails = some .newVm then s
  else
    let vmref := s.vm t
    match s.sysThreadNew vmref fails with
    | (s, false) => s
    | (s, true) =>
        if fails = some .load ∨ fails = some .stack ∨ fails = some .argument ∨
          fails = some .create then s
        else s.start td vm true vmref

end VmRefs

/-- `pthread_cond_broadcast` for the condition of a VM. -/
def RefPc.signal {κ : Type*} [DecidableEq κ] (vm : κ) : RefPc κ → RefPc κ
  | .waits v asleep exiting => .waits v (asleep && v ≠ vm) exiting
  | pc => pc

namespace VmRefs

variable {θ κ : Type*} [DecidableEq θ] [DecidableEq κ]

/-- The end of `thread_exit`: the counter of the VM that has started the thread. -/
def leave (s : VmRefs θ κ) (t : θ) : VmRefs θ κ :=
  let s' := s.setPc t .gone
  match s.startedFrom t with
  | none => s'
  | some vmref =>
      let nref := s.nref vmref - 1
      { s' with
        nref := Function.update s.nref vmref nref
        startedFrom := Function.update s.startedFrom t none
        pc := if nref = 0 then fun u => (s'.pc u).signal vmref else s'.pc }

/-- One pass of the loop of `thread_waitvm`, and the rest of the function that has called
it. -/
def threadWaitvm (s : VmRefs θ κ) (t : θ) (vm : κ) (exiting : Bool) : VmRefs θ κ :=
  if s.nref vm = 0 then if exiting then s.leave t else s.setPc t .running
  else s.setPc t (.waits vm true exiting)

/-- `thread_exit`. -/
def threadExit (s : VmRefs θ κ) (t : θ) : VmRefs θ κ :=
  if s.isVm t then s.threadWaitvm t (s.vm t) true else s.leave t

/-- One step; `none` when it does not apply. -/
def step (s : VmRefs θ κ) : RefOp θ κ → Option (VmRefs θ κ)
  | .run t td fails =>
      if s.pc t = .running ∧ s.pc td = .gone ∧ fails.all (fun f => !f.onlyVm) = true then
        some (s.threadRun t td fails)
      else none
  | .runvm t td vm fails =>
      if s.pc t = .running ∧ s.pc td = .gone ∧ s.used vm = false then
        some (s.threadRunvm t td vm fails)
      else none
  | .wait t => if s.pc t = .running then some (s.threadWaitvm t (s.vm t) false) else none
  | .timeOut t =>
      match s.pc t with
      | .waits _ _ false => some (s.setPc t .running)
      | _ => none
  | .wake t =>
      match s.pc t with
      | .waits vm _ exiting => some (s.threadWaitvm t vm exiting)
      | _ => none
  | .exit t => if s.pc t = .running then some (s.threadExit t) else none

/-- The first thread of the process, in its VM. -/
def init (main : θ) (vm : κ) : VmRefs θ κ where
  nref _ := 0
  used := Function.update (fun _ => false) vm true
  vm _ := vm
  isVm := Function.update (fun _ => false) main true
  startedFrom _ := none
  pc := Function.update (fun _ => .gone) main .running

/-- There are `n` threads that have been started from the VM and have not yet exited. -/
def Started (s : VmRefs θ κ) (vm : κ) (n : ℕ) : Prop :=
  Census s.startedFrom (fun v => v = some vm) n

/-- The counters are the numbers of the threads, as values of the type `unsigned int`. -/
def Exact (s : VmRefs θ κ) : Prop := ∀ vm, ∃ n, s.Started vm n ∧ s.nref vm = BitVec.ofNat 32 n

/-- A thread that waits for the threads of a VM does not sleep when all have exited, and with
its next step it returns. -/
def WaitReturns (s : VmRefs θ κ) : Prop :=
  ∀ t vm asleep exiting, s.pc t = .waits vm asleep exiting → (∀ u, s.startedFrom u ≠ some vm) →
    asleep = false ∧ ∃ s', s.step (.wake t) = some s' ∧
      s'.pc t = if exiting then .gone else .running

end VmRefs

/-- A call is successful, or it fails before `sys_thread_new` increments the counter. -/
def RefOp.Counted {θ κ : Type*} : RefOp θ κ → Prop
  | .run _ _ fails | .runvm _ _ _ fails => ∀ f ∈ fails, f.before = true
  | .wait _ | .timeOut _ | .wake _ | .exit _ => True

instance {θ κ : Type*} : ∀ op : RefOp θ κ, Decidable op.Counted
  | .run _ _ fails | .runvm _ _ _ fails =>
      inferInstanceAs (Decidable (∀ f ∈ fails, f.before = true))
  | .wait _ | .timeOut _ | .wake _ | .exit _ => inferInstanceAs (Decidable True)

namespace VmRefs

variable {θ κ : Type*} [DecidableEq θ] [DecidableEq κ] {s s' : VmRefs θ κ} {t td u : θ}
  {vm vmref v : κ} {n : ℕ} {fails : Option StartStep} {isVm asleep exiting : Bool}

/-! ## Calls -/

/-- A call of `thread_run` or `thread_runvm`, whose thread is counted by `vmref`. -/
inductive Start (s : VmRefs θ κ) (td : θ) (vm : κ) (isVm : Bool) (vmref : κ)
    (fails : Option StartStep) : VmRefs θ κ → Prop
  | before (h : ∃ f ∈ fails, f.before = true) : Start s td vm isVm vmref fails s
  | after (h : ∃ f ∈ fails, f.before = false) :
      Start s td vm isVm vmref fails (s.incRef vmref)
  | started (h : fails = none) :
      Start s td vm isVm vmref fails ((s.incRef vmref).start td vm isVm vmref)

theorem start_threadRun (hvm : fails.all (fun f => !f.onlyVm) = true) :
    Start s td (s.vm t) false (s.vm t) fails (s.threadRun t td fails) := by
  cases fails with
  | none => exact .started rfl
  | some f =>
      cases f with
      | arguments => exact .before ⟨_, rfl, rfl⟩
      | newObjects => exact .before ⟨_, rfl, rfl⟩
      | condNew => exact .after ⟨_, rfl, rfl⟩
      | setTable => exact .after ⟨_, rfl, rfl⟩
      | stack => exact .after ⟨_, rfl, rfl⟩
      | create => exact .after ⟨_, rfl, rfl⟩
      | newVm => exact absurd hvm (by decide)
      | load => exact absurd hvm (by decide)
      | argument => exact absurd hvm (by decide)

theorem start_threadRunvm :
    Start s td vm true (s.vm t) fails (s.threadRunvm t td vm fails) := by
  cases fails with
  | none => exact .started rfl
  | some f =>
      cases f with
      | arguments => exact .before ⟨_, rfl, rfl⟩
      | newVm => exact .before ⟨_, rfl, rfl⟩
      | newObjects => exact .before ⟨_, rfl, rfl⟩
      | condNew => exact .after ⟨_, rfl, rfl⟩
      | setTable => exact .after ⟨_, rfl, rfl⟩
      | load => exact .after ⟨_, rfl, rfl⟩
      | stack => exact .after ⟨_, rfl, rfl⟩
      | argument => exact .after ⟨_, rfl, rfl⟩
      | create => exact .after ⟨_, rfl, rfl⟩

/-! ## The counters -/

theorem ofNat_add_one_ne (n : ℕ) : BitVec.ofNat 32 n + 1 ≠ BitVec.ofNat 32 n := by
  intro h
  simp at h

omit [DecidableEq θ] [DecidableEq κ] in
/-- The count of the threads of one VM, and its counter. -/
theorem Exact.nref_eq (h : s.Exact) (hn : s.Started vm n) : s.nref vm = BitVec.ofNat 32 n := by
  obtain ⟨m, hm, hnref⟩ := h vm
  rw [hnref, Census.unique hm hn]

omit [DecidableEq θ] [DecidableEq κ] in
/-- A counter that is not zero counts a thread. -/
theorem Exact.exists_started (h : s.Exact) (hvm : s.nref vm ≠ 0) :
    ∃ u, s.startedFrom u = some vm := by
  by_contra hnone
  push Not at hnone
  exact hvm (h.nref_eq (Census.zero hnone))

/-- The counter of one VM and the place of one thread change together. -/
theorem Exact.update (h : s.Exact) (td : θ) (vm : κ) (f : ℕ → ℕ) {r : Option κ} {x : BitVec 32}
    (hs : s'.startedFrom = Function.update s.startedFrom td r)
    (hnref : s'.nref = Function.update s.nref vm x)
    (hself : ∀ n, s.Started vm n → s'.Started vm (f n) ∧ x = BitVec.ofNat 32 (f n))
    (hothers : ∀ v, v ≠ vm → (r = some v ↔ s.startedFrom td = some v)) : s'.Exact := by
  intro v
  obtain ⟨n, hn, hv⟩ := h v
  by_cases hvm : v = vm
  · subst hvm
    obtain ⟨hn', hx⟩ := hself n hn
    exact ⟨f n, hn', by rw [hnref, Function.update_self, hx]⟩
  · refine ⟨n, ?_, by rw [hnref, Function.update_of_ne hvm, hv]⟩
    rw [Started, hs]
    exact hn.same (hothers v hvm)

theorem Exact.start (h : s.Exact) (htd : s.startedFrom td = none) (vm : κ) (isVm : Bool) :
    ((s.incRef vmref).start td vm isVm vmref).Exact := by
  refine h.update td vmref (· + 1) rfl rfl
    (fun n hn => ⟨hn.gain rfl (by simp [htd]), ?_⟩) fun v hv => ?_
  · rw [h.nref_eq hn, BitVec.ofNat_add]
    rfl
  · simp [htd, hv.symm]

theorem leave_none (h : s.startedFrom t = none) : s.leave t = s.setPc t .gone := by
  simp only [leave, h]

omit [DecidableEq θ] in
theorem signal_eq_gone {pc : RefPc κ} : pc.signal vm = .gone ↔ pc = .gone := by
  cases pc <;> simp [RefPc.signal]

omit [DecidableEq θ] in
/-- A broadcast leaves asleep those who wait for another VM. -/
theorem signal_eq_waits {pc : RefPc κ} :
    pc.signal vm = .waits v true exiting ↔ pc = .waits v true exiting ∧ v ≠ vm := by
  cases pc with
  | waits v' asleep exiting' =>
      simp only [RefPc.signal, RefPc.waits.injEq, Bool.and_eq_true, decide_eq_true_eq]
      constructor
      · rintro ⟨rfl, ⟨rfl, hv⟩, rfl⟩
        exact ⟨⟨rfl, rfl, rfl⟩, hv⟩
      · rintro ⟨⟨rfl, rfl, rfl⟩, hv⟩
        exact ⟨rfl, ⟨rfl, hv⟩, rfl⟩
  | _ => simp [RefPc.signal]

/-- A thread that is counted exits. -/
theorem leave_some (h : s.startedFrom t = some vmref) : ∃ pc, s.leave t = { s.setPc t .gone with
    nref := Function.update s.nref vmref (s.nref vmref - 1)
    startedFrom := Function.update s.startedFrom t none
    pc := pc } ∧ (∀ u, pc u = .gone ↔ (s.setPc t .gone).pc u = .gone) ∧
      ∀ u v exiting, pc u = .waits v true exiting →
        (s.setPc t .gone).pc u = .waits v true exiting ∧ (v = vmref → s.nref vmref - 1 ≠ 0) := by
  simp only [leave, h]
  refine ⟨_, rfl, fun u => ?_, fun u v exiting hu => ?_⟩
  · split_ifs
    · exact signal_eq_gone
    · exact Iff.rfl
  · split_ifs at hu with hzero
    · obtain ⟨hpc, hv⟩ := signal_eq_waits.mp hu
      exact ⟨hpc, fun heq => absurd heq hv⟩
    · exact ⟨hu, fun _ => hzero⟩

/-- The counter goes down with the number of the threads. -/
theorem ofNat_sub_one (hn : 0 < n) : BitVec.ofNat 32 n - 1 = BitVec.ofNat 32 (n - 1) := by
  obtain ⟨m, rfl⟩ := Nat.exists_eq_add_of_le' hn
  rw [BitVec.ofNat_add, Nat.add_sub_cancel]
  exact BitVec.add_sub_cancel _ _

theorem Exact.leave (h : s.Exact) (t : θ) : (s.leave t).Exact := by
  cases ht : s.startedFrom t with
  | none =>
      rw [leave_none ht]
      exact h
  | some vmref =>
      obtain ⟨pc, hleave, -, -⟩ := leave_some ht
      rw [hleave]
      refine h.update t vmref (· - 1) rfl rfl
        (fun n hn => ⟨hn.lose (by simp) ht, ?_⟩) fun v hv => ?_
      · rw [h.nref_eq hn, ofNat_sub_one (hn.pos ht)]
      · simp [ht, hv.symm]

/-! ## The invariant -/

/-- The counters are exact, and whoever sleeps waits for a thread. -/
structure Inv (s : VmRefs θ κ) : Prop where
  exact : s.Exact
  gone : ∀ td, s.pc td = .gone → s.startedFrom td = none
  asleep : ∀ t vm exiting, s.pc t = .waits vm true exiting → ∃ u, s.startedFrom u = some vm

theorem inv_init (main : θ) (vm : κ) : (init main vm).Inv := by
  refine ⟨fun v => ⟨0, Census.zero (by simp [init]), rfl⟩, fun td _ => rfl, fun t v exiting ht => ?_⟩
  by_cases htm : t = main
  · simp [init, htm] at ht
  · simp [init, htm] at ht

omit [DecidableEq κ] in
/-- A thread that stays goes on, and does not fall asleep for nobody. -/
theorem Inv.setPc (h : s.Inv) {pc : RefPc κ} (hpc : pc = .gone → s.startedFrom t = none)
    (hasleep : ∀ vm exiting, pc = .waits vm true exiting → ∃ u, s.startedFrom u = some vm) :
    (s.setPc t pc).Inv := by
  refine ⟨h.exact, fun td htd => ?_, fun t' vm exiting ht' => ?_⟩
  · by_cases htt : td = t
    · subst htt
      exact hpc (by simpa [VmRefs.setPc] using htd)
    · exact h.gone td (by simpa [VmRefs.setPc, htt] using htd)
  · by_cases htt : t' = t
    · subst htt
      exact hasleep vm exiting (by simpa [VmRefs.setPc] using ht')
    · exact h.asleep t' vm exiting (by simpa [VmRefs.setPc, htt] using ht')

theorem Inv.leave (h : s.Inv) (t : θ) : (s.leave t).Inv := by
  have hexact := h.exact.leave t
  cases ht : s.startedFrom t with
  | none =>
      rw [leave_none ht]
      exact h.setPc (fun _ => ht) fun vm exiting hpc => absurd hpc (by simp)
  | some vmref =>
      obtain ⟨pc, hleave, hgone, hwaits⟩ := leave_some ht
      rw [hleave] at hexact ⊢
      refine ⟨hexact, fun td htd => ?_, fun t' v exiting ht' => ?_⟩
      · have hpc := (hgone td).mp htd
        by_cases htt : td = t
        · subst htt
          simp
        · simpa [htt] using h.gone td (by simpa [VmRefs.setPc, htt] using hpc)
      · obtain ⟨hpc, hzero⟩ := hwaits t' v exiting ht'
        by_cases hv : v = vmref
        · subst hv
          exact hexact.exists_started (by simpa using hzero rfl)
        · have htt : t' ≠ t := by
            rintro rfl
            simp [VmRefs.setPc] at hpc
          obtain ⟨u, hu⟩ := h.asleep t' v exiting (by simpa [VmRefs.setPc, htt] using hpc)
          have hut : u ≠ t := by
            rintro rfl
            exact hv (Option.some.inj (hu.symm.trans ht))
          exact ⟨u, by simpa [Function.update_of_ne hut] using hu⟩

/-- A thread waits for the others, or has waited for them. -/
theorem Inv.threadWaitvm (h : s.Inv) (t : θ) (vm : κ) (exiting : Bool) :
    (s.threadWaitvm t vm exiting).Inv := by
  unfold VmRefs.threadWaitvm
  split_ifs with hzero
  · exact h.leave t
  · exact h.setPc (fun hpc => absurd hpc (by simp)) fun vm exiting hpc => absurd hpc (by simp)
  · refine h.setPc (fun hpc => absurd hpc (by simp)) fun v exiting hv => ?_
    obtain ⟨rfl, -, -⟩ := RefPc.waits.inj hv
    exact h.exact.exists_started hzero

theorem Inv.start (h : s.Inv) (htd : s.pc td = .gone) (vm : κ) (isVm : Bool) :
    ((s.incRef vmref).start td vm isVm vmref).Inv := by
  have hnone := h.gone td htd
  refine ⟨h.exact.start hnone vm isVm, fun u hu => ?_, fun u v exiting hu => ?_⟩
  · have hne : u ≠ td := by
      rintro rfl
      simp [VmRefs.start] at hu
    have hgone : s.pc u = .gone := by simpa [VmRefs.start, incRef, hne] using hu
    simpa [VmRefs.start, incRef, hne] using h.gone u hgone
  · have hne : u ≠ td := by
      rintro rfl
      simp [VmRefs.start] at hu
    obtain ⟨w, hw⟩ := h.asleep u v exiting (by simpa [VmRefs.start, incRef, hne] using hu)
    have hwt : w ≠ td := by
      rintro rfl
      exact absurd (hw.symm.trans hnone) (by simp)
    exact ⟨w, by simpa [VmRefs.start, incRef, hwt] using hw⟩

/-- A call that does not fail after the increment. -/
theorem Inv.call (h : s.Inv) (htd : s.pc td = .gone) (hs : Start s td vm isVm vmref fails s')
    (hcounted : ∀ f ∈ fails, f.before = true) : s'.Inv := by
  cases hs with
  | before _ => exact h
  | after hafter =>
      obtain ⟨f, hf, hbefore⟩ := hafter
      exact absurd ((hcounted f hf).symm.trans hbefore) (by simp)
  | started _ => exact h.start htd vm isVm

/-- A call that fails after the increment. -/
theorem Exact.counted (h : s.Exact) (hs : Start s td vm isVm vmref fails s') (h' : s'.Exact) :
    ∀ f ∈ fails, f.before = true := by
  cases hs with
  | before hbefore =>
      obtain ⟨f, hf, hbefore⟩ := hbefore
      intro f' hf'
      rwa [Option.some.inj (hf'.symm.trans hf)]
  | after _ =>
      obtain ⟨n, hn, hnref⟩ := h vmref
      have hleak : s.nref vmref + 1 = BitVec.ofNat 32 n := by
        have hn' : (s.incRef vmref).Started vmref n := hn
        simpa [incRef] using h'.nref_eq hn'
      rw [hnref] at hleak
      exact absurd hleak (ofNat_add_one_ne n)
  | started hnone => simp [hnone]

theorem Inv.step {op : RefOp θ κ} (h : s.Inv) (hs : s.step op = some s') (hcounted : op.Counted) :
    s'.Inv := by
  cases op with
  | run t td fails =>
      obtain ⟨⟨-, htd, hvm⟩, hs⟩ := Option.ite_none_right_eq_some.mp hs
      exact h.call htd (Option.some.inj hs ▸ start_threadRun hvm) hcounted
  | runvm t td vm fails =>
      obtain ⟨⟨-, htd, -⟩, hs⟩ := Option.ite_none_right_eq_some.mp hs
      exact h.call htd (Option.some.inj hs ▸ start_threadRunvm) hcounted
  | wait t =>
      obtain ⟨-, hs⟩ := Option.ite_none_right_eq_some.mp hs
      exact Option.some.inj hs ▸ h.threadWaitvm t _ _
  | timeOut t =>
      simp only [VmRefs.step] at hs
      split at hs
      · exact Option.some.inj hs ▸ h.setPc (fun hpc => absurd hpc (by simp))
          fun vm exiting hpc => absurd hpc (by simp)
      · exact absurd hs (by simp)
  | wake t =>
      simp only [VmRefs.step] at hs
      split at hs
      · exact Option.some.inj hs ▸ h.threadWaitvm t _ _
      · exact absurd hs (by simp)
  | exit t =>
      obtain ⟨-, hs⟩ := Option.ite_none_right_eq_some.mp hs
      obtain rfl := Option.some.inj hs
      unfold threadExit
      split_ifs
      · exact h.threadWaitvm t _ _
      · exact h.leave t

/-- Whoever waits for threads that have all exited has been woken up, and returns. -/
theorem Inv.waitReturns (h : s.Inv) : s.WaitReturns := by
  intro t vm asleep exiting hpc hnone
  constructor
  · cases asleep with
    | false => rfl
    | true =>
        obtain ⟨u, hu⟩ := h.asleep t vm exiting hpc
        exact absurd hu (hnone u)
  · have hzero : s.nref vm = 0 := h.exact.nref_eq (Census.zero hnone)
    refine ⟨s.threadWaitvm t vm exiting, by simp only [VmRefs.step, hpc], ?_⟩
    rw [VmRefs.threadWaitvm, if_pos hzero]
    cases exiting with
    | false => simp [VmRefs.setPc]
    | true =>
        cases ht : s.startedFrom t with
        | none => simp [leave_none ht, VmRefs.setPc]
        | some vmref =>
            obtain ⟨pc, hleave, hgone, -⟩ := leave_some ht
            rw [if_pos rfl, hleave]
            simpa using (hgone t).mpr (by simp [VmRefs.setPc])

/-- A step that keeps the counters exact is no call that fails after the increment. -/
theorem Inv.counted {op : RefOp θ κ} (h : s.Inv) (hs : s.step op = some s') (h' : s'.Exact) :
    op.Counted := by
  cases op with
  | run t td fails =>
      obtain ⟨⟨-, -, hvm⟩, hs⟩ := Option.ite_none_right_eq_some.mp hs
      exact h.exact.counted (Option.some.inj hs ▸ start_threadRun hvm) h'
  | runvm t td vm fails =>
      obtain ⟨-, hs⟩ := Option.ite_none_right_eq_some.mp hs
      exact h.exact.counted (Option.some.inj hs ▸ start_threadRunvm) h'
  | _ => exact trivial

end VmRefs

end LuaSys.Thread
