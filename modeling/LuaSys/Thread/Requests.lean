import LuaSys.Lib.Run
import Mathlib.Data.Int.Notation
import Mathlib.Logic.Function.Basic

/-!
# Requests to threads

The word `flags` of a thread's descriptor says whether the thread has been killed, and holds a
request to terminate or to interrupt it.  A request is carried out in `sys_thread_check`, which
every blocking operation calls for the descriptor of the running thread.

`thread_wait` calls it too, but for the descriptor of the thread that is waited for.  If that
one has a request when the waiting thread wakes up, the waiting thread carries it out: it
raises the interrupt error, or runs `thread_exit` and ends.

A thread of another VM has two descriptors: its own, and a fake one in the VM that has started
it, whose requests go to the former.  The locks of the VMs are left out, so that there are more
interleavings than in the code, and so are the counters of the threads, so that a thread may
stay in `thread_waitvm` for any time.  Where the code reads `flags` and writes it back, there is a step in
between.

## Main definitions

* `ThreadDescs` — the descriptors of the threads.
* `Threads`, `Threads.step` — the requests, and what the threads are about to do.
* `Threads.OwnRequests` — a thread carries out only its own requests.
* `ThreadOp.Unrequested` — a waiting thread wakes up while the other one has no request.

## Main results

* `own_requests_run_iff` — the threads carry out only their own requests all along a run if
  and only if every waiting thread wakes up like this.
* `waiter_is_terminated` — a run in which one does not.
-/

namespace LuaSys.Thread

open LuaSys.Lib

/-- `SYS_THREAD_KILLED`. -/
def threadKilled : BitVec 32 := 1

/-- `SYS_THREAD_TERMINATE`. -/
def threadTerminate : BitVec 32 := 2

/-- `SYS_THREAD_INTERRUPT`. -/
def threadInterrupt : BitVec 32 := 4

/-- The fields of the descriptors that do not change. -/
structure ThreadDescs (θ : Type*) where
  /-- The descriptor of the main thread of the VM. -/
  vmtd : θ → θ
  /-- The parent, or for a fake descriptor the thread that it stands for. -/
  reftd : θ → Option θ

namespace ThreadDescs

variable {θ : Type*} [DecidableEq θ]

/-- `thread_isvm`. -/
def isVm (d : ThreadDescs θ) (td : θ) : Bool := d.vmtd td = td

/-- `thread_unfake`. -/
def unfake (d : ThreadDescs θ) (td : θ) : θ :=
  if d.isVm td = false ∧ d.reftd td ≠ some (d.vmtd td) then (d.reftd td).getD td else td

end ThreadDescs

/-- What a thread is doing. -/
inductive ThreadPc (θ : Type*)
  /-- It runs Lua code, or is in a blocking operation. -/
  | idle
  /-- `thread_set_interrupt` has read the flags to recover. -/
  | recover (td : θ) (flags : BitVec 32)
  /-- `sys_thread_check` has found a request to terminate. -/
  | kill (td : θ)
  /-- It raises the interrupt error. -/
  | eintr (td : θ)
  /-- `thread_exit` begins. -/
  | exitFlags (td : θ)
  /-- `thread_exit` is going to look at `reftd`. -/
  | exitRef (td : θ)
  /-- It waits in `thread_wait`. -/
  | wait (td : θ)
  /-- It waits in `thread_waitvm`. -/
  | waitVm (td : θ)
  | ended
  deriving DecidableEq

/-- The descriptor whose request is being carried out. -/
def ThreadPc.acts {θ : Type*} : ThreadPc θ → Option θ
  | kill td | eintr td | exitFlags td | exitRef td => some td
  | _ => none

/-- The descriptors and the threads. -/
structure Threads (θ : Type*) where
  descs : ThreadDescs θ
  flags : θ → BitVec 32
  exitStatus : θ → ℤ
  pc : θ → ThreadPc θ

/-- What a thread can do. -/
inductive ThreadOp (θ : Type*)
  /-- A blocking operation of the thread calls `sys_thread_check`. -/
  | check
  /-- `thread:interrupt`. -/
  | interrupt (td : θ)
  /-- `thread:interrupt` with the argument `true`. -/
  | recover (td : θ)
  /-- `thread:terminate`. -/
  | terminate (td : θ) (status : ℤ)
  /-- `thread:wait`. -/
  | wait (td : θ)
  /-- The condition of a `thread:wait` has been signalled, or the time is over. -/
  | wake (timedOut : Bool)
  /-- The function of the thread returns. -/
  | exit
  /-- The next step of a function.  The number is the one on the Lua stack that `thread_exit`
  takes for the status. -/
  | cont (status : ℤ)

namespace Threads

variable {θ : Type*} [DecidableEq θ]

/-- The thread goes on. -/
def goto (s : Threads θ) (o : θ) (pc : ThreadPc θ) : Threads θ :=
  { s with pc := Function.update s.pc o pc }

def setFlags (s : Threads θ) (td : θ) (flags : BitVec 32) : Threads θ :=
  { s with flags := Function.update s.flags td flags }

def setStatus (s : Threads θ) (td : θ) (status : ℤ) : Threads θ :=
  { s with exitStatus := Function.update s.exitStatus td status }

/-- `sys_thread_check`, with what the thread does if there is no request. -/
def sysThreadCheck (s : Threads θ) (o td : θ) (pc : ThreadPc θ) : Threads θ :=
  if s.flags td = threadTerminate then s.goto o (.kill td)
  else if s.flags td = threadInterrupt then s.goto o (.eintr td)
  else s.goto o pc

/-- `thread_set_interrupt`.  `thread_cancel_syncio` ends a system call of the other thread,
which is in a blocking operation before and after. -/
def threadSetInterrupt (s : Threads θ) (o td : θ) : Threads θ :=
  let td := s.descs.unfake td
  let s := s.setFlags td threadInterrupt
  if td = o then s.sysThreadCheck o td .idle else s

/-- `thread_set_terminate`. -/
def threadSetTerminate (s : Threads θ) (o td : θ) (status : ℤ) : Threads θ :=
  let td := s.descs.unfake td
  let s := (s.setStatus td status).setFlags td threadTerminate
  if td = o then s.goto o (.exitFlags td) else s

/-- `thread_wait`. -/
def threadWait (s : Threads θ) (o td : θ) : Threads θ :=
  if s.descs.isVm td then s.goto o (.waitVm td)
  else if s.flags td = threadKilled then s else s.goto o (.wait td)

/-- One pass of the loop of `thread_wait`. -/
def threadWake (s : Threads θ) (o td : θ) (timedOut : Bool) : Threads θ :=
  s.sysThreadCheck o td
    (if s.flags td ≠ threadKilled ∧ timedOut = false then .wait td else .idle)

/-- The first part of `thread_exit`. -/
def threadExitFlags (s : Threads θ) (td : θ) (status : ℤ) : Threads θ :=
  if s.flags td ≠ threadKilled then (s.setFlags td threadKilled).setStatus td status else s

/-- The second part of `thread_exit`: the main thread of a VM marks the thread that it has in
`reftd`. -/
def threadExitRef (s : Threads θ) (td : θ) : Threads θ :=
  match s.descs.reftd td with
  | none => s
  | some reftd =>
      if s.descs.isVm td then (s.setFlags reftd threadKilled).setStatus reftd (s.exitStatus td)
      else s

/-- One step of a function, with the rest of the function after it. -/
def contPc (s : Threads θ) (o : θ) (status : ℤ) : ThreadPc θ → Option (Threads θ)
  | .recover td flags => some ((s.setFlags td (flags &&& ~~~threadInterrupt)).goto o .idle)
  | .kill td => some ((s.setFlags td threadKilled).goto o (.exitFlags td))
  | .eintr _ => some (s.goto o .idle)
  | .exitFlags td => some ((s.threadExitFlags td status).goto o (.exitRef td))
  | .exitRef td => some ((s.threadExitRef td).goto o .ended)
  | _ => none

/-- `thread_set_interrupt` with the argument `true`, up to the read of the flags. -/
def threadRecover (s : Threads θ) (o td : θ) : Threads θ :=
  let td := s.descs.unfake td
  s.goto o (.recover td (s.flags td))

/-- A method of a thread object.  When the main thread of a VM has ended, the VM is closed and
has no objects any more. -/
def method (s : Threads θ) (td : θ) (s' : Threads θ) : Option (Threads θ) :=
  if s.pc (s.descs.vmtd td) = .ended then none else some s'

/-- An operation of a thread that runs Lua code. -/
def call (s : Threads θ) (o : θ) : ThreadOp θ → Option (Threads θ)
  | .check => some (s.sysThreadCheck o o .idle)
  | .interrupt td => s.method td (s.threadSetInterrupt o td)
  | .recover td => s.method td (s.threadRecover o td)
  | .terminate td status => s.method td (s.threadSetTerminate o td status)
  | .wait td => s.method td (s.threadWait o td)
  | .exit => some (s.goto o (.exitFlags o))
  | _ => none

/-- One step of a thread; `none` when it does not apply.  No thread has a fake descriptor for
its own one. -/
def step (s : Threads θ) : θ × ThreadOp θ → Option (Threads θ)
  | (o, op) =>
      if s.descs.unfake o = o then
        match s.pc o, op with
        | .idle, op => s.call o op
        | .wait td, .wake timedOut => some (s.threadWake o td timedOut)
        | .waitVm _, .wake _ => some (s.goto o .idle)
        | pc, .cont status => s.contPc o status pc
        | _, _ => none
      else none

/-- The threads are running, and there are no requests. -/
def init (descs : ThreadDescs θ) : Threads θ where
  descs := descs
  flags _ := 0
  exitStatus _ := 0
  pc _ := .idle

/-- There is a request for the thread. -/
def Requested (s : Threads θ) (td : θ) : Prop :=
  s.flags td = threadTerminate ∨ s.flags td = threadInterrupt

/-- A thread carries out only the requests for the descriptor that describes it. -/
def OwnRequests (s : Threads θ) : Prop :=
  ∀ o td, (s.pc o).acts = some td → s.descs.unfake td = o

end Threads

/-- The descriptor has no request, or the thread waits for itself. -/
def ThreadOp.Unrequested {θ : Type*} [DecidableEq θ] (s : Threads θ) : θ × ThreadOp θ → Prop
  | (o, .wake _) => ∀ td, s.pc o = .wait td → s.Requested td → s.descs.unfake td = o
  | _ => True

namespace Threads

variable {θ : Type*} [DecidableEq θ] {s s' : Threads θ} {o o' td : θ} {pc : ThreadPc θ}
  {op : ThreadOp θ} {status : ℤ}

/-! ## Fields -/

@[simp] theorem goto_pc : (s.goto o pc).pc = Function.update s.pc o pc := rfl
@[simp] theorem goto_flags : (s.goto o pc).flags = s.flags := rfl
@[simp] theorem goto_descs : (s.goto o pc).descs = s.descs := rfl
@[simp] theorem setFlags_pc {f : BitVec 32} : (s.setFlags td f).pc = s.pc := rfl
@[simp] theorem setFlags_flags {f : BitVec 32} :
    (s.setFlags td f).flags = Function.update s.flags td f := rfl
@[simp] theorem setFlags_descs {f : BitVec 32} : (s.setFlags td f).descs = s.descs := rfl
@[simp] theorem setStatus_pc : (s.setStatus td status).pc = s.pc := rfl
@[simp] theorem setStatus_flags : (s.setStatus td status).flags = s.flags := rfl
@[simp] theorem setStatus_descs : (s.setStatus td status).descs = s.descs := rfl

/-- `sys_thread_check` carries out the request, if there is one. -/
theorem sysThreadCheck_eq (s : Threads θ) (o td : θ) (pc : ThreadPc θ) :
    ∃ pc', s.sysThreadCheck o td pc = s.goto o pc' ∧ ((¬s.Requested td ∧ pc' = pc) ∨
      (s.flags td = threadTerminate ∧ pc' = .kill td) ∨
      (s.flags td = threadInterrupt ∧ pc' = .eintr td)) := by
  unfold sysThreadCheck
  split_ifs with hterm hintr
  · exact ⟨_, rfl, Or.inr (Or.inl ⟨hterm, rfl⟩)⟩
  · exact ⟨_, rfl, Or.inr (Or.inr ⟨hintr, rfl⟩)⟩
  · exact ⟨_, rfl, Or.inl ⟨not_or_intro hterm hintr, rfl⟩⟩

theorem threadExitFlags_pc : (s.threadExitFlags td status).pc = s.pc := by
  unfold threadExitFlags
  split_ifs <;> rfl

theorem threadExitFlags_descs : (s.threadExitFlags td status).descs = s.descs := by
  unfold threadExitFlags
  split_ifs <;> rfl

theorem threadExitRef_pc : (s.threadExitRef td).pc = s.pc := by
  unfold threadExitRef
  split
  · rfl
  · split_ifs <;> rfl

theorem threadExitRef_descs : (s.threadExitRef td).descs = s.descs := by
  unfold threadExitRef
  split
  · rfl
  · split_ifs <;> rfl

/-! ## Steps -/

/-- A thread takes a step; the cases are those of the functions. -/
inductive Steps (s : Threads θ) (o : θ) : ThreadOp θ → Threads θ → Prop
  | check (hpc : s.pc o = .idle) : Steps s o .check (s.sysThreadCheck o o .idle)
  | interrupt {td : θ} (hpc : s.pc o = .idle) :
      Steps s o (.interrupt td) (s.threadSetInterrupt o td)
  | recover {td : θ} (hpc : s.pc o = .idle) : Steps s o (.recover td) (s.threadRecover o td)
  | terminate {td : θ} {status : ℤ} (hpc : s.pc o = .idle) :
      Steps s o (.terminate td status) (s.threadSetTerminate o td status)
  | wait {td : θ} (hpc : s.pc o = .idle) (hvm : s.pc (s.descs.vmtd td) ≠ .ended) :
      Steps s o (.wait td) (s.threadWait o td)
  | exit (hpc : s.pc o = .idle) : Steps s o .exit (s.goto o (.exitFlags o))
  | wake {td : θ} {timedOut : Bool} (hpc : s.pc o = .wait td) :
      Steps s o (.wake timedOut) (s.threadWake o td timedOut)
  | wakeVm {td : θ} {timedOut : Bool} (hpc : s.pc o = .waitVm td) :
      Steps s o (.wake timedOut) (s.goto o .idle)
  | recovered {td : θ} {flags : BitVec 32} {status : ℤ} (hpc : s.pc o = .recover td flags) :
      Steps s o (.cont status) ((s.setFlags td (flags &&& ~~~threadInterrupt)).goto o .idle)
  | kill {td : θ} {status : ℤ} (hpc : s.pc o = .kill td) :
      Steps s o (.cont status) ((s.setFlags td threadKilled).goto o (.exitFlags td))
  | eintr {td : θ} {status : ℤ} (hpc : s.pc o = .eintr td) :
      Steps s o (.cont status) (s.goto o .idle)
  | exitFlags {td : θ} {status : ℤ} (hpc : s.pc o = .exitFlags td) :
      Steps s o (.cont status) ((s.threadExitFlags td status).goto o (.exitRef td))
  | exitRef {td : θ} {status : ℤ} (hpc : s.pc o = .exitRef td) :
      Steps s o (.cont status) ((s.threadExitRef td).goto o .ended)

theorem steps_of_call (hpc : s.pc o = .idle) (hs : s.call o op = some s') : Steps s o op s' := by
  cases op with
  | check => exact Option.some.inj hs ▸ .check hpc
  | interrupt td =>
      obtain ⟨-, hs⟩ := Option.ite_none_left_eq_some.mp hs
      exact Option.some.inj hs ▸ .interrupt hpc
  | recover td =>
      obtain ⟨-, hs⟩ := Option.ite_none_left_eq_some.mp hs
      exact Option.some.inj hs ▸ .recover hpc
  | terminate td status =>
      obtain ⟨-, hs⟩ := Option.ite_none_left_eq_some.mp hs
      exact Option.some.inj hs ▸ .terminate hpc
  | wait td =>
      obtain ⟨hvm, hs⟩ := Option.ite_none_left_eq_some.mp hs
      exact Option.some.inj hs ▸ .wait hpc hvm
  | wake timedOut => exact absurd hs (by simp [call])
  | exit => exact Option.some.inj hs ▸ .exit hpc
  | cont status => exact absurd hs (by simp [call])

theorem steps_of_contPc (hpc : s.pc o = pc) (hs : s.contPc o status pc = some s') :
    Steps s o (.cont status) s' := by
  cases pc with
  | recover td flags => exact Option.some.inj hs ▸ .recovered hpc
  | kill td => exact Option.some.inj hs ▸ .kill hpc
  | eintr td => exact Option.some.inj hs ▸ .eintr hpc
  | exitFlags td => exact Option.some.inj hs ▸ .exitFlags hpc
  | exitRef td => exact Option.some.inj hs ▸ .exitRef hpc
  | _ => exact absurd hs (by simp [contPc])

theorem steps_of_step (h : s.step (o, op) = some s') : s.descs.unfake o = o ∧ Steps s o op s' := by
  obtain ⟨hown, hs⟩ := Option.ite_none_right_eq_some.mp h
  refine ⟨hown, ?_⟩
  split at hs
  · next hpc => exact steps_of_call hpc hs
  · next hpc => exact Option.some.inj hs ▸ .wake hpc
  · next hpc => exact Option.some.inj hs ▸ .wakeVm hpc
  · exact steps_of_contPc rfl hs
  · exact absurd hs (by simp)

/-- What a thread goes on with: an operation of its own, a request of its own or the one that
it finds when it wakes up, or the next part of `thread_exit`. -/
inductive Next (s : Threads θ) (o : θ) (op : ThreadOp θ) : ThreadPc θ → Prop
  | idle : Next s o op .idle
  | wait (td : θ) : Next s o op (.wait td)
  | waitVm (td : θ) : Next s o op (.waitVm td)
  | recover (td : θ) (flags : BitVec 32) : Next s o op (.recover td flags)
  | killSelf : Next s o op (.kill o)
  | eintrSelf : Next s o op (.eintr o)
  | exitSelf : Next s o op (.exitFlags o)
  | killFound {td : θ} {timedOut : Bool} (hop : op = .wake timedOut) (hpc : s.pc o = .wait td)
      (hflags : s.flags td = threadTerminate) : Next s o op (.kill td)
  | eintrFound {td : θ} {timedOut : Bool} (hop : op = .wake timedOut) (hpc : s.pc o = .wait td)
      (hflags : s.flags td = threadInterrupt) : Next s o op (.eintr td)
  | exitFlags {td : θ} (hpc : s.pc o = .kill td) : Next s o op (.exitFlags td)
  | exitRef {td : θ} (hpc : s.pc o = .exitFlags td) : Next s o op (.exitRef td)
  | ended {td : θ} (hpc : s.pc o = .exitRef td) : Next s o op .ended

/-- A step of one thread. -/
structure Turn (s : Threads θ) (o : θ) (op : ThreadOp θ) (s' : Threads θ) : Prop where
  descs : s'.descs = s.descs
  others : ∀ o', o' ≠ o → s'.pc o' = s.pc o'
  next : Next s o op (s'.pc o)

theorem turn_goto {s₁ : Threads θ} (hpc : Next s o op pc) (hdescs : s₁.descs = s.descs)
    (hs₁ : s₁.pc = s.pc) : Turn s o op (s₁.goto o pc) := by
  refine ⟨hdescs, fun o' ho' => ?_, ?_⟩
  · rw [goto_pc, Function.update_of_ne ho', hs₁]
  · rwa [goto_pc, Function.update_self]

omit [DecidableEq θ] in
theorem turn_same {s₁ : Threads θ} (hpc : s.pc o = .idle) (hdescs : s₁.descs = s.descs)
    (hs₁ : s₁.pc = s.pc) : Turn s o op s₁ :=
  ⟨hdescs, fun o' _ => by rw [hs₁], by rw [hs₁, hpc]; exact .idle⟩

/-- A thread looks at its own requests. -/
theorem turn_check {s₁ : Threads θ} (hdescs : s₁.descs = s.descs) (hs₁ : s₁.pc = s.pc) :
    Turn s o op (s₁.sysThreadCheck o o .idle) := by
  obtain ⟨pc', heq, hpc'⟩ := sysThreadCheck_eq s₁ o o .idle
  rw [heq]
  rcases hpc' with ⟨-, rfl⟩ | ⟨-, rfl⟩ | ⟨-, rfl⟩
  · exact turn_goto .idle hdescs hs₁
  · exact turn_goto .killSelf hdescs hs₁
  · exact turn_goto .eintrSelf hdescs hs₁

theorem turn_wake {timedOut : Bool} (hpc : s.pc o = .wait td) :
    Turn s o (.wake timedOut) (s.threadWake o td timedOut) := by
  unfold threadWake
  obtain ⟨pc', heq, hpc'⟩ := sysThreadCheck_eq s o td
    (if s.flags td ≠ threadKilled ∧ timedOut = false then .wait td else .idle)
  rw [heq]
  rcases hpc' with ⟨-, rfl⟩ | ⟨hflags, rfl⟩ | ⟨hflags, rfl⟩
  · split_ifs
    · exact turn_goto (.wait td) rfl rfl
    · exact turn_goto .idle rfl rfl
  · exact turn_goto (.killFound rfl hpc hflags) rfl rfl
  · exact turn_goto (.eintrFound rfl hpc hflags) rfl rfl

theorem Steps.turn (h : Steps s o op s') : Turn s o op s' := by
  cases h with
  | check hpc => exact turn_check rfl rfl
  | @interrupt td hpc =>
      unfold threadSetInterrupt
      dsimp only
      split_ifs with hself
      · rw [hself]
        exact turn_check rfl rfl
      · exact turn_same hpc rfl rfl
  | recover hpc => exact turn_goto (.recover _ _) rfl rfl
  | @terminate td status hpc =>
      unfold threadSetTerminate
      dsimp only
      split_ifs with hself
      · rw [hself]
        exact turn_goto .exitSelf rfl rfl
      · exact turn_same hpc rfl rfl
  | @wait td hpc _ =>
      unfold threadWait
      split_ifs
      · exact turn_goto (.waitVm td) rfl rfl
      · exact turn_same hpc rfl rfl
      · exact turn_goto (.wait td) rfl rfl
  | exit hpc => exact turn_goto .exitSelf rfl rfl
  | wake hpc => exact turn_wake hpc
  | wakeVm hpc => exact turn_goto .idle rfl rfl
  | recovered hpc => exact turn_goto .idle rfl rfl
  | kill hpc => exact turn_goto (.exitFlags hpc) rfl rfl
  | eintr hpc => exact turn_goto .idle rfl rfl
  | exitFlags hpc => exact turn_goto (.exitRef hpc) threadExitFlags_descs threadExitFlags_pc
  | exitRef hpc => exact turn_goto (.ended hpc) threadExitRef_descs threadExitRef_pc

omit [DecidableEq θ] in
/-- A thread that carries out a request has got it from itself, has begun before, or has found
it when it woke up. -/
theorem Next.acts {pc : ThreadPc θ} (h : Next s o op pc) (hacts : pc.acts = some td) :
    td = o ∨ (s.pc o).acts = some td ∨
      ∃ timedOut, op = .wake timedOut ∧ s.pc o = .wait td ∧ s.Requested td := by
  cases h with
  | idle => exact absurd hacts (by simp [ThreadPc.acts])
  | wait td => exact absurd hacts (by simp [ThreadPc.acts])
  | waitVm td => exact absurd hacts (by simp [ThreadPc.acts])
  | recover td flags => exact absurd hacts (by simp [ThreadPc.acts])
  | killSelf => exact Or.inl (Option.some.inj hacts).symm
  | eintrSelf => exact Or.inl (Option.some.inj hacts).symm
  | exitSelf => exact Or.inl (Option.some.inj hacts).symm
  | killFound hop hpc hflags =>
      obtain rfl := Option.some.inj hacts
      exact Or.inr (Or.inr ⟨_, hop, hpc, Or.inl hflags⟩)
  | eintrFound hop hpc hflags =>
      obtain rfl := Option.some.inj hacts
      exact Or.inr (Or.inr ⟨_, hop, hpc, Or.inr hflags⟩)
  | exitFlags hpc => exact Or.inr (Or.inl (hpc ▸ hacts))
  | exitRef hpc => exact Or.inr (Or.inl (hpc ▸ hacts))
  | ended hpc => exact absurd hacts (by simp [ThreadPc.acts])

/-! ## Runs -/

theorem ownRequests_init (descs : ThreadDescs θ) : (init descs).OwnRequests :=
  fun o td htd => absurd htd (by simp [init, ThreadPc.acts])

/-- A step of a thread that finds no request of another one. -/
theorem OwnRequests.step (h : s.OwnRequests) (hs : s.step (o, op) = some s')
    (hsafe : ThreadOp.Unrequested s (o, op)) : s'.OwnRequests := by
  obtain ⟨hown, hsteps⟩ := steps_of_step hs
  have hturn := hsteps.turn
  intro o' td htd
  rw [hturn.descs]
  by_cases ho' : o' = o
  · subst ho'
    rcases hturn.next.acts htd with rfl | hacts | ⟨timedOut, rfl, hwait, hflags⟩
    · exact hown
    · exact h o' td hacts
    · exact hsafe td hwait hflags
  · rw [hturn.others o' ho'] at htd
    exact h o' td htd

/-- A thread that finds a request of another one carries it out. -/
theorem OwnRequests.unrequested (h : s'.OwnRequests) (hs : s.step (o, op) = some s') :
    ThreadOp.Unrequested s (o, op) := by
  obtain ⟨-, hsteps⟩ := steps_of_step hs
  cases hsteps with
  | @wake td timedOut hpc =>
      intro td' hwait hflags
      obtain rfl := ThreadPc.wait.inj (hwait.symm.trans hpc)
      obtain ⟨pc', heq, hpc'⟩ := sysThreadCheck_eq s o td'
        (if s.flags td' ≠ threadKilled ∧ timedOut = false then .wait td' else .idle)
      have hown := h o td'
      rw [threadWake, heq, goto_pc, Function.update_self] at hown
      rcases hpc' with ⟨hnot, -⟩ | ⟨-, rfl⟩ | ⟨-, rfl⟩
      · exact absurd hflags hnot
      · exact hown rfl
      · exact hown rfl
  | wakeVm hpc =>
      intro td hwait
      exact absurd (hwait.symm.trans hpc) (by simp)
  | _ => exact trivial

/-- **A thread acts only on its own requests** in all states of a run if and only if no thread
that waits for another one wakes up while that one has a request. -/
theorem own_requests_run_iff {descs : ThreadDescs θ} {s : Threads θ} {ops : List (θ × ThreadOp θ)}
    (hrun : runOps step (init descs) ops = some s) :
    (∀ pre s', pre <+: ops → runOps step (init descs) pre = some s' → s'.OwnRequests) ↔
      ∀ pre op s', pre ++ [op] <+: ops → runOps step (init descs) pre = some s' →
        ThreadOp.Unrequested s' op :=
  forall_runOps_iff (A := OwnRequests) (fun _ h => h) (fun _ _ _ hs h hsafe => h.step hs hsafe)
    (fun _ _ _ hs _ h => h.unrequested hs) (ownRequests_init descs) hrun

/-- The main thread of a VM and the threads that it has started. -/
def workers : ThreadDescs ℕ where
  vmtd _ := 0
  reftd td := if td = 0 then none else some 0

/-- The main thread terminates another one and waits for it when it has ended. -/
theorem own_requests_run_iff_terminate :
    ∃ s, runOps step (init workers) [(0, .terminate 1 7), (1, .check), (1, .cont 0),
      (1, .cont 0), (1, .cont 0), (0, .wait 1)] = some s ∧
      s.pc 1 = .ended ∧ s.pc 0 = .idle ∧ s.OwnRequests := by
  obtain ⟨s, hrun, hended⟩ : ∃ s, runOps step (init workers) [(0, .terminate 1 7), (1, .check),
      (1, .cont 0), (1, .cont 0), (1, .cont 0), (0, .wait 1)] = some s ∧
      s.pc 1 = .ended ∧ s.pc 0 = .idle := ⟨_, rfl, by decide⟩
  refine ⟨s, hrun, hended.1, hended.2,
    (own_requests_run_iff hrun).mpr ?_ _ s (List.prefix_refl _) hrun⟩
  intro pre op s' hpre _
  have hop := hpre.subset (List.mem_append_right pre (List.mem_singleton_self op))
  obtain ⟨o, op⟩ := op
  cases op with
  | wake timedOut => simp at hop
  | _ => exact trivial

/-- The main thread waits for another one, which a third one terminates.  When the time of the
wait is over, the main thread runs `thread_exit`, and the other one goes on. -/
theorem waiter_is_terminated :
    ∃ s, runOps step (init workers) [(0, .wait 1), (2, .terminate 1 7), (0, .wake true)] = some s ∧
      s.pc 0 = .kill 1 ∧ ¬s.OwnRequests ∧
      ∃ s', runOps step s [(0, .cont 0), (0, .cont 0), (0, .cont 0)] = some s' ∧
        s'.pc 0 = .ended ∧ s'.pc 1 = .idle :=
  ⟨_, rfl, by decide, fun hown => absurd (hown 0 1 rfl) (by decide), _, rfl, by decide, by decide⟩

end Threads

end LuaSys.Thread
