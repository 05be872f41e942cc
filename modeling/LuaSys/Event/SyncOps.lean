import LuaSys.Lib.Run
import Mathlib.Data.List.Basic
import Mathlib.Logic.Function.Basic

/-!
# Synchronous operations

Threads hand functions to the loop of an event queue: `evq:sync` waits for the result,
and a scheduler that adds an event while the loop waits leaves the addition in the same
list, `evq->sync_op`.  A loop takes the whole list and runs its operations one after the
other in `levq_sync_process`.

The operation of `evq:sync` is a variable of the calling C function, and the caller waits
in `sys_thread_suspend`, on a flag that `thread:resume` clears, too.  The function of
`evq:sync` is called with `lua_pcall`, an addition with `lua_call`: its error leaves
`levq_sync_process`, and the operations behind it are in no list any more.

An operation has a number here.  Its function runs between two steps, since it may
release the VM lock.

## Main definitions

* `SyncState`, `SyncOp`, `SyncState.step` — the operations and the threads, in any
  interleaving.
* `SyncState.OnceEach`, `SyncState.ContinuesAfter` — each operation is executed once, and
  a caller continues after its operation.
* `SyncOp.Safe` — the condition on a step.

## Main results

* `safe_run_onceEach` — both properties in every run of safe steps.
* `raised_addition_drops_batch` — runs without them.
-/

namespace LuaSys.Event

open LuaSys.Lib

/-- Who has queued an operation: a thread that waits in `evq:sync`, or a scheduler. -/
inductive SyncKind (θ : Type*)
  | call (t : θ)
  | schedAdd
  deriving DecidableEq

/-- A run of `levq_sync_process`: the operation whose function is called, and those
behind it. -/
structure SyncBatch (θ : Type*) where
  owner : θ
  current : Option ℕ
  rest : List ℕ

/-- An event queue with its synchronous operations, and the threads. -/
structure SyncState (θ : Type*) where
  /-- The number of operations so far. -/
  nops : ℕ
  kind : ℕ → SyncKind θ
  /-- Whether `op->L` has been cleared by `sched_terminate`. -/
  cancelled : ℕ → Bool
  /-- `evq->sync_op`. -/
  queued : List ℕ
  batches : List (SyncBatch θ)
  /-- The operation that a thread waits for in `sys_thread_suspend`, and its flag. -/
  waiting : θ → Option ℕ
  suspended : θ → Bool
  /-- How often the function of an operation has been called, and how often it has been
  skipped. -/
  executed : ℕ → ℕ
  skipped : ℕ → ℕ
  /-- Whether its function has ended, and whether `evq:sync` has. -/
  done : ℕ → Bool
  returned : ℕ → Bool

/-- The steps of the threads. -/
inductive SyncOp (θ : Type*)
  /-- `evq:sync` up to the wait; `td` is `NULL` unless threading is initialized. -/
  | sync (t : θ) (initialized : Bool)
  /-- `levq_sync_call` from `sys_evq_sched_add`. -/
  | schedAdd
  /-- `sched_terminate` of a task whose addition is queued. -/
  | cancel (n : ℕ)
  /-- `thread:resume`. -/
  | resume (t : θ)
  /-- The thread wakes up in `sys_thread_suspend` and finds its flag cleared. -/
  | wake (t : θ)
  /-- A loop detaches the queued operations. -/
  | take (t : θ)
  /-- The next operation of a batch: its function is called. -/
  | begin (i : ℕ)
  /-- The function returns or raises an error. -/
  | finish (i : ℕ) (error : Bool)
  | leave (i : ℕ)

namespace SyncState

variable {θ : Type*}

/-- The operations that wait for their execution. -/
def pending (s : SyncState θ) : List ℕ := s.queued ++ s.batches.flatMap SyncBatch.rest

/-- The operations whose function is being called. -/
def running (s : SyncState θ) : List ℕ := s.batches.filterMap SyncBatch.current

variable [DecidableEq θ]

/-- The new operation becomes the first one of the list. -/
def enqueue (s : SyncState θ) (k : SyncKind θ) : SyncState θ :=
  { s with
    nops := s.nops + 1
    kind := Function.update s.kind s.nops k
    queued := s.nops :: s.queued }

/-- The operation `n` of the batch `b` in `levq_sync_process`.  An operation whose `evq:sync`
has returned is a variable of a C function that has ended: nothing is said about its
use. -/
def beginOp (s : SyncState θ) (i : ℕ) (b : SyncBatch θ) (n : ℕ) : Option (SyncState θ) :=
  if s.kind n = .schedAdd ∧ s.cancelled n then
    some { s with
      batches := s.batches.set i { b with rest := b.rest.tail }
      skipped := Function.update s.skipped n (s.skipped n + 1) }
  else if s.kind n ≠ .schedAdd ∧ s.returned n then none
  else
    some { s with
      batches := s.batches.set i { b with current := some n, rest := b.rest.tail }
      executed := Function.update s.executed n (s.executed n + 1) }

/-- The function of the operation has ended.  The error of an addition ends the whole
batch. -/
def finishOp (s : SyncState θ) (i : ℕ) (b : SyncBatch θ) (n : ℕ) (error : Bool) :
    Option (SyncState θ) :=
  let s' := { s with
    batches := s.batches.set i { b with current := none }
    done := Function.update s.done n true }
  match s.kind n with
  | .call t =>
      if s.returned n then none
      else some { s' with suspended := Function.update s.suspended t false }
  | .schedAdd => if error then some { s' with batches := s.batches.eraseIdx i } else some s'

/-- One step; `none` when it does not apply. -/
def step (s : SyncState θ) : SyncOp θ → Option (SyncState θ)
  | .sync t initialized =>
      if s.waiting t ≠ none then none
      else if initialized then
        some { s.enqueue (.call t) with
          waiting := Function.update s.waiting t (some s.nops)
          suspended := Function.update s.suspended t true }
      else
        -- The operation is queued before the test of `td`, which raises an error.
        some { s.enqueue (.call t) with returned := Function.update s.returned s.nops true }
  | .schedAdd => some (s.enqueue .schedAdd)
  | .cancel n =>
      if s.kind n = .schedAdd ∧ n ∈ s.pending then
        some { s with cancelled := Function.update s.cancelled n true }
      else none
  | .resume t => some { s with suspended := Function.update s.suspended t false }
  | .wake t =>
      (s.waiting t).bind fun n =>
        if s.suspended t then none
        else
          some { s with
            waiting := Function.update s.waiting t none
            returned := Function.update s.returned n true }
  | .take t =>
      if s.waiting t = none ∧ s.queued ≠ [] then
        some { s with queued := [], batches := ⟨t, none, s.queued⟩ :: s.batches }
      else none
  | .begin i =>
      s.batches[i]?.bind fun b =>
        if s.waiting b.owner ≠ none ∨ b.current ≠ none then none
        else b.rest.head?.bind fun n => s.beginOp i b n
  | .finish i error =>
      s.batches[i]?.bind fun b =>
        if s.waiting b.owner ≠ none then none
        else b.current.bind fun n => s.finishOp i b n error
  | .leave i =>
      s.batches[i]?.bind fun b =>
        if s.waiting b.owner ≠ none ∨ b.current ≠ none ∨ b.rest ≠ [] then none
        else some { s with batches := s.batches.eraseIdx i }

/-- The transitions of a run. -/
def Step (s s' : SyncState θ) : Prop := ∃ op, s.step op = some s'

/-- No operation has been queued yet. -/
def init : SyncState θ where
  nops := 0
  kind _ := .schedAdd
  cancelled _ := false
  queued := []
  batches := []
  waiting _ := none
  suspended _ := false
  executed _ := 0
  skipped _ := 0
  done _ := false
  returned _ := false

omit [DecidableEq θ]

/-- Every operation is still queued, or it has been executed once; an addition that has
been cancelled is skipped once instead. -/
def OnceEach (s : SyncState θ) : Prop :=
  ∀ n < s.nops,
    (s.pending.count n = 1 ∧ s.executed n = 0 ∧ s.skipped n = 0) ∨
    (n ∉ s.pending ∧ s.executed n = 1 ∧ s.skipped n = 0 ∧ s.cancelled n = false) ∨
    (n ∉ s.pending ∧ s.executed n = 0 ∧ s.skipped n = 1 ∧ s.kind n = .schedAdd ∧
      s.cancelled n = true)

/-- A thread has continued after `evq:sync` only when the function of its operation has
ended. -/
def ContinuesAfter (s : SyncState θ) : Prop := ∀ n, s.returned n = true → s.done n = true

end SyncState

/-! ## Safe runs -/

/-- Threading is initialized where `evq:sync` is called, no thread is resumed while it waits
in `evq:sync`, and an addition does not raise an error. -/
def SyncOp.Safe {θ : Type*} (s : SyncState θ) : SyncOp θ → Prop
  | .sync _ initialized => initialized = true
  | .resume t => s.waiting t = none
  | .finish i error => error = true → ∀ b n, s.batches[i]? = some b → b.current = some n →
      s.kind n ≠ .schedAdd
  | _ => True

namespace SyncState

variable {θ : Type*} {s s' : SyncState θ} {t : θ} {i n : ℕ}

/-- The places of the operations, and what the flags of the threads say about them. -/
structure Inv (s : SyncState θ) : Prop where
  places : ∀ n, s.pending.count n + s.executed n + s.skipped n = if n < s.nops then 1 else 0
  running_done : ∀ n, s.running.count n + (s.done n).toNat = s.executed n
  skipped : ∀ n, s.skipped n ≠ 0 → s.kind n = .schedAdd ∧ s.cancelled n = true
  cancelled : ∀ n, s.cancelled n = true →
    n < s.nops ∧ s.kind n = .schedAdd ∧ s.executed n = 0
  waiting : ∀ t n, s.waiting t = some n → n < s.nops ∧ s.kind n = .call t ∧ s.returned n = false
  unreturned : ∀ t n, n < s.nops → s.kind n = .call t → s.returned n = false → s.waiting t = some n
  resumed : ∀ t n, s.waiting t = some n → s.suspended t = false → s.done n = true
  returned : ∀ n, s.returned n = true → s.done n = true

theorem init_inv : (init : SyncState θ).Inv := by
  refine ⟨?_, ?_, ?_, ?_, ?_, ?_, ?_, ?_⟩ <;> simp [init, pending, running]

theorem Inv.onceEach (h : s.Inv) : s.OnceEach := by
  intro n hn
  have hplaces := h.places n
  rw [if_pos hn] at hplaces
  by_cases hmem : n ∈ s.pending
  · have hpos := List.count_pos_iff.mpr hmem
    exact Or.inl ⟨by omega, by omega, by omega⟩
  · rw [List.count_eq_zero.mpr hmem] at hplaces
    by_cases hskip : s.skipped n = 0
    · refine Or.inr (Or.inl ⟨hmem, by omega, hskip, ?_⟩)
      by_contra hcancel
      have hzero := (h.cancelled n (by simpa using hcancel)).2.2
      omega
    · obtain ⟨hkind, hcancel⟩ := h.skipped n hskip
      exact Or.inr (Or.inr ⟨hmem, by omega, by omega, hkind, hcancel⟩)

/-! ## Steps -/

/-- The batch at an index, with the lists before and behind it. -/
theorem exists_split {β : Type*} {l : List β} {b : β} (h : l[i]? = some b) :
    ∃ l₁ l₂, l = l₁ ++ b :: l₂ ∧ (∀ b', l.set i b' = l₁ ++ b' :: l₂) ∧ l.eraseIdx i = l₁ ++ l₂ := by
  obtain ⟨hlt, rfl⟩ := List.getElem?_eq_some_iff.mp h
  refine ⟨l.take i, l.drop (i + 1), ?_, fun b' => ?_, ?_⟩
  · rw [← List.drop_eq_getElem_cons hlt, List.take_append_drop]
  · rw [List.set_eq_take_append_cons_drop, if_pos hlt]
  · rw [List.eraseIdx_eq_take_drop_succ]

/-- Nothing is recorded about the next operation. -/
theorem Inv.fresh (h : s.Inv) (hn : s.nops ≤ n) :
    s.pending.count n = 0 ∧ s.executed n = 0 ∧ s.skipped n = 0 ∧ s.done n = false ∧
      s.returned n = false := by
  have hplaces := h.places n
  rw [if_neg (Nat.not_lt.mpr hn)] at hplaces
  have hexec : s.executed n = 0 := by omega
  have hdone : s.done n = false := by
    have hrunning := h.running_done n
    rw [hexec] at hrunning
    simpa using (Nat.eq_zero_of_add_eq_zero hrunning).2
  refine ⟨by omega, hexec, by omega, hdone, ?_⟩
  by_contra hret
  exact absurd ((h.returned n (by simpa using hret)).symm.trans hdone) (by simp)

/-- A new operation has its place in the list; the threads are treated below. -/
theorem Inv.enqueue (h : s.Inv) {k : SyncKind θ} {waiting : θ → Option ℕ} {suspended : θ → Bool}
    (hwaiting : ∀ t n, waiting t = some n →
      (n = s.nops ∧ k = .call t) ∨ (n < s.nops ∧ s.waiting t = some n))
    (hkept : ∀ t n, s.waiting t = some n → waiting t = some n)
    (hnew : ∀ t, k = .call t → waiting t = some s.nops)
    (hresumed : ∀ t n, waiting t = some n → suspended t = false →
      s.waiting t = some n ∧ s.suspended t = false) :
    Inv { s.enqueue k with waiting := waiting, suspended := suspended } := by
  obtain ⟨hcount, hexec, hskip, hdone, hret⟩ := h.fresh (Nat.le_refl s.nops)
  have hkind : ∀ n, n ≠ s.nops → Function.update s.kind s.nops k n = s.kind n := fun n hn =>
    Function.update_of_ne hn _ _
  have hpending : ∀ n, (s.nops :: s.queued ++ s.batches.flatMap SyncBatch.rest).count n =
      s.pending.count n + if s.nops = n then 1 else 0 := by
    intro n
    rw [pending, List.cons_append, List.count_cons]
    simp
  refine ⟨fun n => ?_, h.running_done, fun n hn => ?_, fun n hn => ?_, fun t n hn => ?_,
    fun t n hn hk hr => ?_, fun t n hn hs => ?_, h.returned⟩
  · have hplaces := h.places n
    show (s.nops :: s.queued ++ s.batches.flatMap SyncBatch.rest).count n + s.executed n +
      s.skipped n = if n < s.nops + 1 then 1 else 0
    rw [hpending]
    split at hplaces <;> split <;> split <;> omega
  · have hne : n ≠ s.nops := by
      rintro rfl
      exact hn hskip
    simp only [SyncState.enqueue, hkind n hne]
    exact h.skipped n hn
  · obtain ⟨hlt, hk, hzero⟩ := h.cancelled n hn
    simp only [SyncState.enqueue, hkind n (Nat.ne_of_lt hlt)]
    exact ⟨Nat.lt_succ_of_lt hlt, hk, hzero⟩
  · simp only [SyncState.enqueue]
    rcases hwaiting t n hn with ⟨rfl, rfl⟩ | ⟨hlt, hold⟩
    · rw [Function.update_self]
      exact ⟨Nat.lt_succ_self _, rfl, hret⟩
    · obtain ⟨-, hk, hr⟩ := h.waiting t n hold
      rw [hkind n (Nat.ne_of_lt hlt)]
      exact ⟨Nat.lt_succ_of_lt hlt, hk, hr⟩
  · simp only [SyncState.enqueue] at hn hk hr
    by_cases hne : n = s.nops
    · subst hne
      rw [Function.update_self] at hk
      exact hnew t hk
    · rw [hkind n hne] at hk
      exact hkept t n (h.unreturned t n (by omega) hk hr)
  · obtain ⟨hold, hs'⟩ := hresumed t n hn hs
    exact h.resumed t n hold hs'

/-- A step of a batch that leaves the operations where they are, up to their order. -/
theorem Inv.regroup (h : s.Inv) {queued : List ℕ} {batches : List (SyncBatch θ)}
    (hpending : ∀ n, (queued ++ batches.flatMap SyncBatch.rest).count n = s.pending.count n)
    (hrunning : ∀ n, (batches.filterMap SyncBatch.current).count n = s.running.count n) :
    Inv { s with queued := queued, batches := batches } := by
  refine ⟨fun n => ?_, fun n => ?_, h.skipped, h.cancelled, h.waiting, h.unreturned, h.resumed,
    h.returned⟩
  · simp only [pending, hpending]
    exact h.places n
  · simp only [running, hrunning]
    exact h.running_done n

/-- An operation that is in a list has not been run or skipped. -/
theorem Inv.of_pending (h : s.Inv) (hmem : n ∈ s.pending) :
    n < s.nops ∧ s.executed n = 0 ∧ s.skipped n = 0 := by
  have hpos := List.count_pos_iff.mpr hmem
  have hplaces := h.places n
  have hlt : n < s.nops := by
    by_contra hge
    rw [if_neg hge] at hplaces
    omega
  rw [if_pos hlt] at hplaces
  exact ⟨hlt, by omega, by omega⟩

/-- `sched_terminate` of a queued addition. -/
theorem Inv.cancel (h : s.Inv) (hkind : s.kind n = .schedAdd) (hmem : n ∈ s.pending) :
    Inv { s with cancelled := Function.update s.cancelled n true } := by
  obtain ⟨hlt, hzero, -⟩ := h.of_pending hmem
  refine ⟨h.places, h.running_done, fun m hm => ?_, fun m hm => ?_, h.waiting, h.unreturned,
    h.resumed, h.returned⟩
  · obtain ⟨hk, hc⟩ := h.skipped m hm
    refine ⟨hk, ?_⟩
    by_cases hmn : m = n
    · rw [hmn]
      exact Function.update_self ..
    · exact (Function.update_of_ne hmn _ _).trans hc
  · by_cases hmn : m = n
    · subst hmn
      exact ⟨hlt, hkind, hzero⟩
    · exact h.cancelled m ((Function.update_of_ne hmn _ _).symm.trans hm)

/-- The function of an operation has ended, without an error that leaves the batch. -/
theorem Inv.finished (h : s.Inv) {b : SyncBatch θ} (hb : s.batches[i]? = some b)
    (hn : b.current = some n) {suspended : θ → Bool}
    (hsuspended : ∀ t m, s.waiting t = some m → suspended t = false →
      m = n ∨ s.suspended t = false) :
    Inv { s with
      batches := s.batches.set i { b with current := none }
      done := Function.update s.done n true
      suspended := suspended } := by
  obtain ⟨l₁, l₂, hl, hset, -⟩ := exists_split hb
  have hpending : ∀ m, (s.queued ++ (s.batches.set i { b with current := none }).flatMap
      SyncBatch.rest).count m = s.pending.count m := by
    intro m
    rw [pending, hset, hl]
    simp only [List.flatMap_append, List.flatMap_cons, List.count_append]
  have hrunning : ∀ m, ((s.batches.set i { b with current := none }).filterMap
      SyncBatch.current).count m + (if n = m then 1 else 0) = s.running.count m := by
    intro m
    rw [running, hset, hl]
    simp only [List.filterMap_append, List.filterMap_cons, hn, List.count_append, List.count_cons,
      beq_iff_eq]
    omega
  have hdone : ∀ m, s.done m = true → Function.update s.done n true m = true := by
    intro m hm
    by_cases hmn : m = n
    · rw [hmn, Function.update_self]
    · rw [Function.update_of_ne hmn]
      exact hm
  refine ⟨fun m => ?_, fun m => ?_, h.skipped, h.cancelled, h.waiting, h.unreturned,
    fun t m hm hs => ?_, fun m hm => hdone m (h.returned m hm)⟩
  · have hm := h.places m
    simp only [pending] at hpending hm ⊢
    rw [hpending]
    exact hm
  · have hm := h.running_done m
    have hr := hrunning m
    have hplaces := h.places m
    simp only [running] at hm hr ⊢
    by_cases hmn : m = n
    · subst hmn
      rw [Function.update_self]
      rw [if_pos rfl] at hr
      have hle : (s.done m).toNat ≤ 1 := Bool.toNat_le _
      split at hplaces <;> simp only [Bool.toNat_true] <;> omega
    · rw [Function.update_of_ne hmn]
      rw [if_neg (Ne.symm hmn)] at hr
      omega
  · rcases hsuspended t m hm hs with rfl | hold
    · exact Function.update_self ..
    · exact hdone m (h.resumed t m hm hold)

variable [DecidableEq θ]

/-- A thread continues after `evq:sync`. -/
theorem Inv.wake (h : s.Inv) (hn : s.waiting t = some n) (hs : s.suspended t = false) :
    Inv { s with
      waiting := Function.update s.waiting t none
      returned := Function.update s.returned n true } := by
  obtain ⟨hlt, hkind, hret⟩ := h.waiting t n hn
  -- the other threads wait for other operations
  have hother : ∀ t' m, Function.update s.waiting t none t' = some m →
      t' ≠ t ∧ s.waiting t' = some m := by
    intro t' m hm
    have htt : t' ≠ t := by
      rintro rfl
      exact absurd ((Function.update_self ..).symm.trans hm) (by simp)
    exact ⟨htt, (Function.update_of_ne htt _ _).symm.trans hm⟩
  refine ⟨h.places, h.running_done, h.skipped, h.cancelled, fun t' m hm => ?_,
    fun t' m hm hk hr => ?_, fun t' m hm hs' => ?_, fun m hm => ?_⟩
  · obtain ⟨htt, hm⟩ := hother t' m hm
    obtain ⟨hlt', hk, hr⟩ := h.waiting t' m hm
    have hmn : m ≠ n := by
      rintro rfl
      exact htt (SyncKind.call.inj (hk.symm.trans hkind))
    exact ⟨hlt', hk, (Function.update_of_ne hmn _ _).trans hr⟩
  · have hmn : m ≠ n := by
      rintro rfl
      exact absurd ((Function.update_self ..).symm.trans hr) (by simp)
    have hwait := h.unreturned t' m hm hk ((Function.update_of_ne hmn _ _).symm.trans hr)
    have htt : t' ≠ t := by
      rintro rfl
      exact hmn (Option.some.inj (hwait.symm.trans hn))
    exact (Function.update_of_ne htt _ _).trans hwait
  · exact h.resumed t' m (hother t' m hm).2 hs'
  · by_cases hmn : m = n
    · rw [hmn]
      exact h.resumed t n hn hs
    · exact h.returned m ((Function.update_of_ne hmn _ _).symm.trans hm)

/-- The next operation of a batch. -/
theorem Inv.beginOp (h : s.Inv) {b : SyncBatch θ} (hb : s.batches[i]? = some b)
    (hcurrent : b.current = none) (hn : b.rest.head? = some n)
    (hrun : s.beginOp i b n = some s') : s'.Inv := by
  obtain ⟨l₁, l₂, hl, hset, -⟩ := exists_split hb
  obtain ⟨ns, hrest⟩ : ∃ ns, b.rest = n :: ns := by
    cases hr : b.rest with
    | nil => simp [hr] at hn
    | cons a ns => exact ⟨ns, by rw [hr] at hn; rw [Option.some.inj hn]⟩
  have hcount : ∀ (c : Option ℕ) (m : ℕ),
      (s.queued ++ (s.batches.set i { b with current := c, rest := ns }).flatMap
        SyncBatch.rest).count m + (if n = m then 1 else 0) = s.pending.count m := by
    intro c m
    rw [pending, hset, hl]
    simp only [List.flatMap_append, List.flatMap_cons, hrest, List.count_append, List.count_cons,
      beq_iff_eq]
    omega
  -- The operation leaves the list, and one of its counters goes up.
  have hmoved : ∀ (c : Option ℕ) (f : ℕ → ℕ) (m : ℕ),
      (s.queued ++ (s.batches.set i { b with current := c, rest := ns }).flatMap
        SyncBatch.rest).count m + Function.update f n (f n + 1) m = s.pending.count m + f m := by
    intro c f m
    have hc := hcount c m
    by_cases hmn : m = n
    · subst hmn
      rw [if_pos rfl] at hc
      rw [Function.update_self]
      omega
    · rw [if_neg (Ne.symm hmn)] at hc
      rw [Function.update_of_ne hmn]
      omega
  unfold SyncState.beginOp at hrun
  rw [hrest, List.tail_cons] at hrun
  split at hrun
  · next hskip =>
    rw [← Option.some.inj hrun]
    have hrunning : ∀ m, ((s.batches.set i { b with rest := ns }).filterMap
        SyncBatch.current).count m = s.running.count m := by
      intro m
      rw [running, hset, hl]
      simp only [List.filterMap_append, List.filterMap_cons, hcurrent]
    refine ⟨fun m => ?_, fun m => ?_, fun m hm => ?_, h.cancelled, h.waiting, h.unreturned,
      h.resumed, h.returned⟩
    · have hm := hmoved b.current s.skipped m
      rw [← h.places m]
      simp only [pending] at hm ⊢
      omega
    · simp only [running, hrunning]
      exact h.running_done m
    · by_cases hmn : m = n
      · rw [hmn]
        exact hskip
      · simp only [Function.update_of_ne hmn] at hm
        exact h.skipped m hm
  · next hnot =>
    obtain ⟨-, hrun⟩ := Option.ite_none_left_eq_some.mp hrun
    rw [← Option.some.inj hrun]
    have hrunning : ∀ m, ((s.batches.set i { b with current := some n, rest := ns }).filterMap
        SyncBatch.current).count m = s.running.count m + if n = m then 1 else 0 := by
      intro m
      rw [running, hset, hl]
      simp only [List.filterMap_append, List.filterMap_cons, hcurrent, List.count_append,
        List.count_cons, beq_iff_eq]
      omega
    refine ⟨fun m => ?_, fun m => ?_, h.skipped, fun m hm => ?_, h.waiting, h.unreturned,
      h.resumed, h.returned⟩
    · have hm := hmoved (some n) s.executed m
      rw [← h.places m]
      simp only [pending] at hm ⊢
      omega
    · have hm := h.running_done m
      simp only [running, hrunning] at hm ⊢
      by_cases hmn : m = n
      · subst hmn
        rw [Function.update_self, if_pos rfl]
        omega
      · rw [Function.update_of_ne hmn, if_neg (Ne.symm hmn)]
        exact hm
    · have hmn : m ≠ n := by
        rintro rfl
        exact hnot ⟨(h.cancelled m hm).2.1, hm⟩
      simp only [Function.update_of_ne hmn]
      exact h.cancelled m hm

/-- `levq_sync_process` after the call of a function. -/
theorem Inv.finishOp (h : s.Inv) {b : SyncBatch θ} {error : Bool} (hb : s.batches[i]? = some b)
    (hn : b.current = some n) (hsafe : error = true → s.kind n ≠ .schedAdd)
    (hrun : s.finishOp i b n error = some s') : s'.Inv := by
  obtain ⟨l₁, l₂, hl, -, -⟩ := exists_split hb
  have hrunning : 0 < s.running.count n := by
    rw [running, hl, List.count_pos_iff]
    simp [hn]
  have hplaces := h.places n
  have hequation := h.running_done n
  have hlt : n < s.nops := by
    by_contra hge
    rw [if_neg hge] at hplaces
    omega
  rw [if_pos hlt] at hplaces
  simp only [SyncState.finishOp] at hrun
  cases hkind : s.kind n with
  | call t =>
      rw [hkind] at hrun
      obtain ⟨hret, hrun⟩ := Option.ite_none_left_eq_some.mp hrun
      rw [← Option.some.inj hrun]
      apply h.finished hb hn
      intro t' m hm hs
      by_cases htt : t' = t
      · subst htt
        have hwait := h.unreturned t' n hlt hkind (by simpa using hret)
        exact Or.inl (Option.some.inj (hm.symm.trans hwait))
      · rw [Function.update_of_ne htt] at hs
        exact Or.inr hs
  | schedAdd =>
      rw [hkind] at hrun
      have herror : error = false := by
        by_contra hne
        exact hsafe (by simpa using hne) hkind
      rw [herror] at hrun
      rw [← Option.some.inj hrun]
      exact h.finished hb hn fun _ _ _ hs => Or.inr hs

/-- The transitions of a run with safe steps only. -/
def SafeStep (s s' : SyncState θ) : Prop := ∃ op : SyncOp θ, op.Safe s ∧ s.step op = some s'

theorem SafeStep.inv (hstep : SafeStep s s') (h : s.Inv) : s'.Inv := by
  obtain ⟨op, hsafe, hrun⟩ := hstep
  cases op with
  | sync t initialized =>
      obtain rfl : initialized = true := hsafe
      obtain ⟨hnot, hrun⟩ := Option.ite_none_left_eq_some.mp hrun
      have hnone : s.waiting t = none := by simpa using hnot
      rw [← Option.some.inj hrun]
      apply h.enqueue
      · intro t' n hn
        by_cases htt : t' = t
        · rw [htt, Function.update_self] at hn
          exact Or.inl ⟨(Option.some.inj hn).symm, by rw [htt]⟩
        · rw [Function.update_of_ne htt] at hn
          exact Or.inr ⟨(h.waiting t' n hn).1, hn⟩
      · intro t' n hn
        have htt : t' ≠ t := by
          rintro rfl
          exact absurd (hnone.symm.trans hn) (by simp)
        rw [Function.update_of_ne htt]
        exact hn
      · intro t' ht'
        obtain rfl := SyncKind.call.inj ht'
        exact Function.update_self ..
      · intro t' n hn hs
        have htt : t' ≠ t := by
          rintro rfl
          rw [Function.update_self] at hs
          exact absurd hs (by simp)
        rw [Function.update_of_ne htt] at hn hs
        exact ⟨hn, hs⟩
  | schedAdd =>
      rw [← Option.some.inj hrun]
      apply h.enqueue
      · exact fun t n hn => Or.inr ⟨(h.waiting t n hn).1, hn⟩
      · exact fun t n hn => hn
      · exact fun t ht => absurd ht (by simp)
      · exact fun t n hn hs => ⟨hn, hs⟩
  | cancel n =>
      obtain ⟨⟨hkind, hmem⟩, hrun⟩ := Option.ite_none_right_eq_some.mp hrun
      rw [← Option.some.inj hrun]
      exact h.cancel hkind hmem
  | resume t =>
      rw [← Option.some.inj hrun]
      refine ⟨h.places, h.running_done, h.skipped, h.cancelled, h.waiting, h.unreturned,
        fun t' n hn hs => ?_, h.returned⟩
      have htt : t' ≠ t := by
        rintro rfl
        exact absurd (hsafe.symm.trans hn) (by simp)
      exact h.resumed t' n hn ((Function.update_of_ne htt _ _).symm.trans hs)
  | wake t =>
      obtain ⟨n, hn, hrun⟩ := Option.bind_eq_some_iff.mp hrun
      obtain ⟨hs, hrun⟩ := Option.ite_none_left_eq_some.mp hrun
      rw [← Option.some.inj hrun]
      exact h.wake hn (by simpa using hs)
  | take t =>
      obtain ⟨-, hrun⟩ := Option.ite_none_right_eq_some.mp hrun
      rw [← Option.some.inj hrun]
      apply h.regroup
      · intro n
        simp [pending]
      · intro n
        simp [running]
  | begin i =>
      obtain ⟨b, hb, hrun⟩ := Option.bind_eq_some_iff.mp hrun
      obtain ⟨hnot, hrun⟩ := Option.ite_none_left_eq_some.mp hrun
      obtain ⟨n, hn, hrun⟩ := Option.bind_eq_some_iff.mp hrun
      rw [not_or, not_not, not_not] at hnot
      exact h.beginOp hb hnot.2 hn hrun
  | finish i error =>
      obtain ⟨b, hb, hrun⟩ := Option.bind_eq_some_iff.mp hrun
      obtain ⟨-, hrun⟩ := Option.ite_none_left_eq_some.mp hrun
      obtain ⟨n, hn, hrun⟩ := Option.bind_eq_some_iff.mp hrun
      exact h.finishOp hb hn (fun herror => hsafe herror b n hb hn) hrun
  | leave i =>
      obtain ⟨b, hb, hrun⟩ := Option.bind_eq_some_iff.mp hrun
      obtain ⟨hnot, hrun⟩ := Option.ite_none_left_eq_some.mp hrun
      rw [not_or, not_or, not_not, not_not, not_not] at hnot
      obtain ⟨l₁, l₂, hl, -, herase⟩ := exists_split hb
      rw [← Option.some.inj hrun]
      apply h.regroup
      · intro n
        rw [pending, herase, hl]
        simp [hnot.2.2]
      · intro n
        rw [running, herase, hl]
        simp [hnot.2.1]

end SyncState

/-- In every run of safe steps, after each of them, every operation is queued or has been
executed once, and the threads that have continued after `evq:sync` did so when the
function of their operation had ended. -/
theorem safe_run_onceEach {θ : Type*} [DecidableEq θ] {s : SyncState θ}
    (hrun : Relation.ReflTransGen SyncState.SafeStep SyncState.init s) :
    s.OnceEach ∧ s.ContinuesAfter := by
  have hinv : s.Inv := inv_of_reach (fun _ _ hstep => hstep.inv) SyncState.init_inv hrun
  exact ⟨hinv.onceEach, hinv.returned⟩

/-- Two threads and a scheduler; the addition is cancelled, and the function of the first
thread raises an error. -/
theorem safe_run_onceEach_cancelled :
    ∃ s : SyncState ℕ, Relation.ReflTransGen SyncState.SafeStep SyncState.init s ∧ s.nops = 3 ∧
      s.executed 0 = 1 ∧ s.skipped 1 = 1 ∧ s.executed 2 = 1 ∧ s.returned 2 = true ∧
      s.OnceEach ∧ s.ContinuesAfter := by
  have hrun : Relation.ReflTransGen SyncState.SafeStep (SyncState.init : SyncState ℕ) _ :=
    .tail (.tail (.tail (.tail (.tail (.tail (.tail (.tail (.tail (.tail (.tail .refl
      ⟨.sync 1 true, rfl, rfl⟩)
      ⟨.schedAdd, trivial, rfl⟩)
      ⟨.sync 2 true, rfl, rfl⟩)
      ⟨.cancel 1, trivial, rfl⟩)
      ⟨.take 0, trivial, rfl⟩)
      ⟨.begin 0, trivial, rfl⟩)
      ⟨.finish 0 false, nofun, rfl⟩)
      ⟨.wake 2, trivial, rfl⟩)
      ⟨.begin 0, trivial, rfl⟩)
      ⟨.begin 0, trivial, rfl⟩)
      ⟨.finish 0 true, by rintro - b n ⟨⟩ ⟨⟩; simp [SyncState.enqueue, SyncState.init], rfl⟩
  obtain ⟨honce, hafter⟩ := safe_run_onceEach hrun
  exact ⟨_, hrun, rfl, rfl, rfl, rfl, rfl, honce, hafter⟩

/-- A thread calls `evq:sync`, and a scheduler adds an event with wrong arguments. -/
def raisedAdditionOps : List (SyncOp ℕ) :=
  [.sync 1 true, .schedAdd, .take 0, .begin 0, .finish 0 true]

/-- A thread is resumed while it waits in `evq:sync`. -/
def strayResumeOps : List (SyncOp ℕ) := [.sync 1 true, .resume 1, .wake 1]

/-- The error of the addition drops the operation of the thread, which is not executed; and a
thread that is resumed by another one continues before its operation. -/
theorem raised_addition_drops_batch :
    (∃ s : SyncState ℕ, Relation.ReflTransGen SyncState.Step SyncState.init s ∧ 0 < s.nops ∧
      s.pending = [] ∧ s.executed 0 = 0 ∧ ¬s.OnceEach) ∧
    ∃ s : SyncState ℕ, Relation.ReflTransGen SyncState.Step SyncState.init s ∧
      s.pending = [0] ∧ s.executed 0 = 0 ∧ ¬s.ContinuesAfter := by
  have hdrop : (runOps SyncState.step SyncState.init raisedAdditionOps).map
      (fun s => (s.nops, s.pending, s.executed 0, s.skipped 0)) = some (2, [], 0, 0) := by
    rfl
  have hstray : (runOps SyncState.step SyncState.init strayResumeOps).map
      (fun s => (s.pending, s.executed 0, s.returned 0, s.done 0)) =
        some ([0], 0, true, false) := by
    rfl
  constructor
  · obtain ⟨s, hs, heq⟩ := Option.map_eq_some_iff.mp hdrop
    simp only [Prod.mk.injEq] at heq
    obtain ⟨hnops, hpending, hexec, hskip⟩ := heq
    refine ⟨s, reach_of_runOps (fun _ op _ hop => ⟨op, hop⟩) hs, by omega, hpending, hexec, ?_⟩
    intro honce
    have hzero := honce 0 (by omega)
    rw [hpending, hexec, hskip] at hzero
    simp at hzero
  · obtain ⟨s, hs, heq⟩ := Option.map_eq_some_iff.mp hstray
    simp only [Prod.mk.injEq] at heq
    obtain ⟨hpending, hexec, hreturned, hdone⟩ := heq
    refine ⟨s, reach_of_runOps (fun _ op _ hop => ⟨op, hop⟩) hs, hpending, hexec, fun hafter => ?_⟩
    exact absurd ((hafter 0 hreturned).symm.trans hdone) (by simp)

end LuaSys.Event
