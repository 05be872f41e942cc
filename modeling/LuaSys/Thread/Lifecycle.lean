import LuaSys.Thread.Requests

/-!
# The life of a thread

The word `flags` of a descriptor goes from nothing over the requests to `SYS_THREAD_KILLED`,
which `thread_exit` stores and `thread_wait` looks for.  But a late request overwrites it, and
a request to interrupt overwrites one to terminate; and a recovery stores what it has read
before.  A thread that waits for one with such flags waits for ever.

The same happens with the fake descriptor of a thread of another VM: `thread_exit` of that
thread marks its parent as killed, and never the fake descriptor.

## Main definitions

* `ThreadOp.Orderly` — a request comes before the exit of the thread, an interruption before a
  termination, and a wait for a thread of another VM before its exit.

## Main results

* `safe_run_life_cycle` — in a run of such operations the flags go forward only, and nobody
  waits for a thread that has ended.
* `late_interrupt_revives` — a run with a late request.
-/

namespace LuaSys.Thread

open LuaSys.Lib Relation

/-- A request does not overwrite a later state, nobody wakes up to end for another one, and a
wait for a thread of another VM begins before that one has ended. -/
def ThreadOp.Orderly {θ : Type*} [DecidableEq θ] (s : Threads θ) : θ × ThreadOp θ → Prop
  | (_, .interrupt td) => s.flags (s.descs.unfake td) ≠ threadKilled ∧
      s.flags (s.descs.unfake td) ≠ threadTerminate
  | (_, .terminate td _) => s.flags (s.descs.unfake td) ≠ threadKilled
  | (o, .cont _) => ∀ td flags, s.pc o = .recover td flags →
      s.flags td = threadKilled ∨ s.flags td = threadTerminate → flags = s.flags td
  | (o, .wake _) => ∀ td, s.pc o = .wait td → s.flags td = threadTerminate → td = o
  | (_, .wait td) => s.descs.unfake td ≠ td → s.pc (s.descs.unfake td) ≠ .ended
  | _ => True

namespace Threads

variable {θ : Type*} [DecidableEq θ] {s s' s'' : Threads θ} {o td : θ} {op : ThreadOp θ}
  {pc : ThreadPc θ} {status : ℤ}

/-! ## The flags -/

/-- What the operations store in the flags of a descriptor, except for `SYS_THREAD_KILLED`. -/
inductive Stored (s : Threads θ) (o : θ) : ThreadOp θ → θ → BitVec 32 → Prop
  | interrupt (td : θ) : Stored s o (.interrupt td) (s.descs.unfake td) threadInterrupt
  | terminate (td : θ) (status : ℤ) :
      Stored s o (.terminate td status) (s.descs.unfake td) threadTerminate
  | recover {td : θ} {flags : BitVec 32} (status : ℤ) (hpc : s.pc o = .recover td flags) :
      Stored s o (.cont status) td (flags &&& ~~~threadInterrupt)

theorem sysThreadCheck_flags : (s.sysThreadCheck o td pc).flags = s.flags := by
  unfold sysThreadCheck
  split_ifs <;> rfl

theorem threadSetInterrupt_flags : (s.threadSetInterrupt o td).flags =
    Function.update s.flags (s.descs.unfake td) threadInterrupt := by
  unfold threadSetInterrupt
  dsimp only
  split_ifs
  · rw [sysThreadCheck_flags, setFlags_flags]
  · rfl

theorem threadSetTerminate_flags : (s.threadSetTerminate o td status).flags =
    Function.update s.flags (s.descs.unfake td) threadTerminate := by
  unfold threadSetTerminate
  dsimp only
  split_ifs <;> rfl

theorem threadWait_flags : (s.threadWait o td).flags = s.flags := by
  unfold threadWait
  split_ifs <;> rfl

theorem threadExitFlags_flags : (s.threadExitFlags td status).flags =
    Function.update s.flags td threadKilled := by
  unfold threadExitFlags
  split_ifs with hflags
  · rfl
  · rw [not_not] at hflags
    rw [← hflags, Function.update_eq_self]

/-- The second part of `thread_exit` stores `SYS_THREAD_KILLED`, if anything. -/
theorem threadExitRef_flags (td' : θ) : (s.threadExitRef td).flags td' = s.flags td' ∨
    (s.threadExitRef td).flags td' = threadKilled := by
  unfold threadExitRef
  split
  · exact Or.inl rfl
  · next reftd _ =>
      split_ifs
      · by_cases htd : td' = reftd
        · subst htd
          exact Or.inr (by simp)
        · exact Or.inl (by simp [htd])
      · exact Or.inl rfl

/-- A store to the flags of one descriptor. -/
theorem update_flags {flags : θ → BitVec 32} {v : BitVec 32} (td' : θ)
    (h : v = threadKilled ∨ Stored s o op td v) : Function.update flags td v td' = flags td' ∨
      Function.update flags td v td' = threadKilled ∨
      Stored s o op td' (Function.update flags td v td') := by
  by_cases htd : td' = td
  · subst htd
    rw [Function.update_self]
    exact Or.inr h
  · exact Or.inl (Function.update_of_ne htd v flags)

/-- A step keeps the flags of a descriptor, or stores `SYS_THREAD_KILLED`, or it is a request
or a recovery for this descriptor. -/
theorem Steps.flags (h : Steps s o op s') (td : θ) : s'.flags td = s.flags td ∨
    s'.flags td = threadKilled ∨ Stored s o op td (s'.flags td) := by
  cases h with
  | check hpc => exact Or.inl (congrFun sysThreadCheck_flags td)
  | interrupt hpc =>
      rw [threadSetInterrupt_flags]
      exact update_flags td (Or.inr (.interrupt _))
  | recover hpc => exact Or.inl rfl
  | terminate hpc =>
      rw [threadSetTerminate_flags]
      exact update_flags td (Or.inr (.terminate _ _))
  | wait hpc _ => exact Or.inl (congrFun threadWait_flags td)
  | exit hpc => exact Or.inl rfl
  | wake hpc => exact Or.inl (congrFun sysThreadCheck_flags td)
  | wakeVm hpc => exact Or.inl rfl
  | recovered hpc => exact update_flags td (Or.inr (.recover _ hpc))
  | kill hpc => exact update_flags td (Or.inl rfl)
  | eintr hpc => exact Or.inl rfl
  | exitFlags hpc =>
      rw [goto_flags, threadExitFlags_flags]
      exact update_flags td (Or.inl rfl)
  | exitRef hpc =>
      rw [goto_flags]
      exact (threadExitRef_flags td).imp_right Or.inl

/-- The first part of `thread_exit` leaves `SYS_THREAD_KILLED`. -/
theorem Steps.flags_exitFlags (h : Steps s o op s') (hpc : s.pc o = .exitFlags td) :
    s'.flags td = threadKilled := by
  cases h with
  | exitFlags hpc' =>
      obtain rfl := ThreadPc.exitFlags.inj (hpc.symm.trans hpc')
      rw [goto_flags, threadExitFlags_flags, Function.update_self]
  | _ => simp_all

/-- An orderly step does not lead out of `SYS_THREAD_KILLED`. -/
theorem Steps.keeps_killed (h : Steps s o op s') (hsafe : ThreadOp.Orderly s (o, op))
    (hflags : s.flags td = threadKilled) : s'.flags td = threadKilled := by
  rcases h.flags td with heq | heq | hstored
  · exact heq.trans hflags
  · exact heq
  · generalize s'.flags td = v at hstored
    cases hstored with
    | interrupt td₀ => exact absurd hflags hsafe.1
    | terminate td₀ status => exact absurd hflags hsafe
    | recover status hpc =>
        rw [hsafe td _ hpc (Or.inl hflags), hflags]
        decide

/-- An orderly step does not replace a request to terminate. -/
theorem Steps.keeps_terminate (h : Steps s o op s') (hsafe : ThreadOp.Orderly s (o, op))
    (hflags : s.flags td = threadTerminate) :
    s'.flags td = threadTerminate ∨ s'.flags td = threadKilled := by
  rcases h.flags td with heq | heq | hstored
  · exact Or.inl (heq.trans hflags)
  · exact Or.inr heq
  · refine Or.inl ?_
    generalize s'.flags td = v at hstored
    cases hstored with
    | interrupt td₀ => exact absurd hflags hsafe.2
    | terminate td₀ status => rfl
    | recover status hpc =>
        rw [hsafe td _ hpc (Or.inr hflags), hflags]
        decide

/-! ## Runs -/

/-- A step of the system that is orderly. -/
def SafeStep (s s' : Threads θ) : Prop :=
  ∃ op, ThreadOp.Orderly s op ∧ s.step op = some s'

/-- The descriptor for which `thread_exit` runs. -/
def exitsFor : ThreadPc θ → Option θ
  | .kill td | .exitFlags td | .exitRef td => some td
  | _ => none

/-- `thread_exit` runs for the own descriptor, and has stored `SYS_THREAD_KILLED` before the
thread has ended. -/
structure Exits (s : Threads θ) : Prop where
  own : ∀ o td, exitsFor (s.pc o) = some td → td = o
  exitRef : ∀ o td, s.pc o = .exitRef td → s.flags td = threadKilled
  ended : ∀ o, s.pc o = .ended → s.flags o = threadKilled

omit [DecidableEq θ] in
theorem exits_init (descs : ThreadDescs θ) : (init descs).Exits :=
  ⟨fun o td h => absurd h (by simp [init, exitsFor]), fun o td h => absurd h (by simp [init]),
    fun o h => absurd h (by simp [init])⟩

/-- Nobody begins to end for another thread. -/
theorem Next.own {pc : ThreadPc θ} (h : Next s o op pc) (hexits : s.Exits)
    (hsafe : ThreadOp.Orderly s (o, op)) (hfor : exitsFor pc = some td) : td = o := by
  cases h with
  | killSelf => exact (Option.some.inj hfor).symm
  | exitSelf => exact (Option.some.inj hfor).symm
  | killFound hop hpc hflags =>
      obtain rfl := Option.some.inj hfor
      subst hop
      exact hsafe _ hpc hflags
  | exitFlags hpc => exact hexits.own o td (hpc ▸ hfor)
  | exitRef hpc => exact hexits.own o td (hpc ▸ hfor)
  | _ => exact absurd hfor (by simp [exitsFor])

theorem Exits.step (h : s.Exits) (hs : s.step (o, op) = some s')
    (hsafe : ThreadOp.Orderly s (o, op)) : s'.Exits := by
  obtain ⟨-, hsteps⟩ := steps_of_step hs
  have hturn := hsteps.turn
  constructor
  · intro o' td hfor
    by_cases ho' : o' = o
    · subst ho'
      exact hturn.next.own h hsafe hfor
    · rw [hturn.others o' ho'] at hfor
      exact h.own o' td hfor
  · intro o' td hpc
    by_cases ho' : o' = o
    · subst ho'
      have hnext := hturn.next
      rw [hpc] at hnext
      cases hnext with
      | exitRef hbefore => exact hsteps.flags_exitFlags hbefore
    · rw [hturn.others o' ho'] at hpc
      exact hsteps.keeps_killed hsafe (h.exitRef o' td hpc)
  · intro o' hpc
    by_cases ho' : o' = o
    · subst ho'
      have hnext := hturn.next
      rw [hpc] at hnext
      cases hnext with
      | @ended td hbefore =>
          have hown : td = o' := h.own o' td (by rw [hbefore]; rfl)
          exact hsteps.keeps_killed hsafe (hown ▸ h.exitRef o' td hbefore)
    · rw [hturn.others o' ho'] at hpc
      exact hsteps.keeps_killed hsafe (h.ended o' hpc)

/-- The flags have gone forward: a thread that is killed stays so, and a request to terminate
is there until the thread is killed. -/
def FlagsForward (s s' : Threads θ) : Prop := ∀ td,
  (s.flags td = threadKilled → s'.flags td = threadKilled) ∧
    (s.flags td = threadTerminate → s'.flags td = threadTerminate ∨ s'.flags td = threadKilled)

/-- An orderly `thread_wait` for a thread that has ended returns at once. -/
def NoLateWait (s : Threads θ) : Prop := ∀ o td s', ThreadOp.Orderly s (o, .wait td) →
  s.step (o, .wait td) = some s' → s.pc (s.descs.unfake td) = .ended → s'.pc o = .idle

omit [DecidableEq θ] in
theorem FlagsForward.refl (s : Threads θ) : s.FlagsForward s :=
  fun _ => ⟨id, Or.inl⟩

omit [DecidableEq θ] in
theorem FlagsForward.trans (h : s.FlagsForward s') (h' : s'.FlagsForward s'') :
    s.FlagsForward s'' := by
  intro td
  refine ⟨fun hkilled => (h' td).1 ((h td).1 hkilled), fun hterm => ?_⟩
  rcases (h td).2 hterm with hterm | hkilled
  · exact (h' td).2 hterm
  · exact Or.inr ((h' td).1 hkilled)

theorem SafeStep.flagsForward (h : SafeStep s s') : s.FlagsForward s' := by
  obtain ⟨⟨o, op⟩, hsafe, hs⟩ := h
  obtain ⟨-, hsteps⟩ := steps_of_step hs
  exact fun td => ⟨hsteps.keeps_killed hsafe, hsteps.keeps_terminate hsafe⟩

/-- The main thread of a VM stands for itself. -/
theorem unfake_of_isVm {d : ThreadDescs θ} (h : d.isVm td = true) :
    d.vmtd td = td ∧ d.unfake td = td := by
  refine ⟨of_decide_eq_true h, if_neg fun hnot => ?_⟩
  exact absurd (h.symm.trans hnot.1) (by simp)

/-- Once the thread has ended, its flags tell so. -/
theorem Exits.noLateWait (h : s.Exits) : s.NoLateWait := by
  intro o td s' hsafe hs hended
  have hreal : s.descs.unfake td = td := by
    by_contra hfake
    exact hsafe hfake hended
  rw [hreal] at hended
  obtain ⟨-, hsteps⟩ := steps_of_step hs
  cases hsteps with
  | wait hpc hopen =>
      have hvm : ¬s.descs.isVm td = true := by
        intro hvm
        rw [(unfake_of_isVm hvm).1] at hopen
        exact hopen hended
      rw [threadWait, if_neg hvm, if_pos (h.ended td hended)]
      exact hpc

/-- **The life of a thread goes forward** in a run of orderly operations: what happens later
does not take back that a thread is killed, nor replaces a request to terminate, and nobody
waits for a thread that has ended. -/
theorem safe_run_life_cycle {descs : ThreadDescs θ} (hrun : ReflTransGen SafeStep (init descs) s)
    (hlater : ReflTransGen SafeStep s s') : s.FlagsForward s' ∧ s'.NoLateWait := by
  constructor
  · induction hlater with
    | refl => exact .refl s
    | tail _ hstep ih => exact ih.trans hstep.flagsForward
  · have hexits : s'.Exits := inv_of_reach (fun _ _ ⟨_, hsafe, hs⟩ h => h.step hs hsafe)
      (exits_init descs) (hrun.trans hlater)
    exact hexits.noLateWait

/-- A thread is asked to terminate and ends; then another one waits for it. -/
theorem safe_run_life_cycle_terminate :
    ∃ s s', ReflTransGen SafeStep (init workers) s ∧ ReflTransGen SafeStep s s' ∧
      s.flags 1 = threadTerminate ∧ s'.pc 1 = .ended ∧ s.FlagsForward s' ∧ s'.NoLateWait := by
  have hterm : SafeStep (init workers) ((init workers).threadSetTerminate 0 1 7) :=
    ⟨(0, .terminate 1 7), fun h => absurd h (by decide), rfl⟩
  have hcheck : SafeStep ((init workers).threadSetTerminate 0 1 7) _ :=
    ⟨(1, .check), trivial, rfl⟩
  have hlater := (((ReflTransGen.single hcheck).tail ⟨(1, .cont 0), nofun, rfl⟩).tail
    ⟨(1, .cont 0), nofun, rfl⟩).tail ⟨(1, .cont 0), nofun, rfl⟩
  exact ⟨_, _, .single hterm, hlater, rfl, rfl, safe_run_life_cycle (.single hterm) hlater⟩

/-- A thread has ended, and is interrupted after that: a wait for it blocks. -/
theorem late_interrupt_revives :
    ∃ s s', runOps step (init workers) [(1, .exit), (1, .cont 0), (1, .cont 0)] = some s ∧
      s.flags 1 = threadKilled ∧ s.pc 1 = .ended ∧
      runOps step s [(0, .interrupt 1), (0, .wait 1)] = some s' ∧
      s'.flags 1 = threadInterrupt ∧ s'.pc 0 = .wait 1 :=
  ⟨_, _, rfl, rfl, rfl, rfl, rfl, rfl⟩

end Threads

end LuaSys.Thread
