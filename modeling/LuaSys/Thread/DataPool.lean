import LuaSys.Lib.Run
import LuaSys.Lib.Word
import Mathlib.Data.List.Induction
import Mathlib.Logic.Function.Basic
import Mathlib.Tactic.Linarith

/-!
# Data pools

The model of `thread_dpool.c`.  Threads of one virtual machine pass tuples of Lua values
through a data pool.  A tuple lies in the storage, a Lua table used as a queue of cells,
or goes from the stack of the writer to the stack of a reader that waits: the writer
leaves its state in `dp->L` and the size of the tuple in `dp->nput`, signals `dp->tev` and
yields; a reader that wakes up takes the tuple, or else the writer stores it.

One event, which wakes one thread and is then reset, tells readers of data and writers of
room.  A thread releases the VM lock in `thread_event_wait` and in `sys_thread_switch`,
and Lua code may release it between the calls; what runs without a release is one step.
A waiting thread takes the signal before it has the VM lock again.

The callbacks `put_on_full` and `get_on_empty` are Lua code: a call of `put` or `get` is in
progress until its callback has returned, and the callback may use the pool itself.

The loop of `dpool_get` over a stored tuple pushes the items without a call of
`luaL_checkstack`.  What it does with a tuple that is too large for its stack is not known; here
it takes any tuple, and the results about the tuples are for those with `FitsStack`.

## Main definitions

* `DataPool` — the pool, its threads and, as ghosts, the tuples accepted and returned.
* `storeCells`, `takeCells` — the loops over the storage.
* `FitsStack` — a tuple that the second loop can push.
* `PoolOp`, `DataPool.step` — the steps of the threads.
* `StoredAt` — the tuples that lie in the storage.

## Main results

* `StoredAt.store`, `StoredAt.take` — a tuple goes in at the end and comes out at the
  front, as it was.
* `DataPool.steps_of_step` — what the steps do, one case for each way through a function.
-/

namespace LuaSys.Thread

open LuaSys.Lib

/-- A Lua value. -/
inductive Value (α : Type*)
  | nil
  | integer (i : ℤ)
  | other (a : α)
  deriving DecidableEq, Repr

/-- `lua_tointeger`. -/
def Value.toInteger {α : Type*} : Value α → ℤ
  | .integer i => i
  | _ => 0

/-- The items of one call of `put`. -/
abbrev Tuple (α : Type*) := List (Value α)

/-- Where a thread is. -/
inductive PoolPhase (α : Type*)
  /-- Without the VM lock, outside of the pool. -/
  | away
  /-- With the VM lock, in Lua code. -/
  | running
  /-- In `thread_event_wait` of `dpool_put`, with the tuple on its stack. -/
  | putWait (v : Tuple α)
  /-- The wait is over: with the signal, or by an error. -/
  | putWoken (v : Tuple α)
  | putFailed
  /-- In `sys_thread_switch` of `dpool_put`, with the rest of the tuple on its stack. -/
  | offering (v : Tuple α)
  /-- In `thread_event_wait` of `dpool_get`. -/
  | getWait
  /-- The wait is over: with the signal, or by the timeout or an error. -/
  | getWoken
  | getFailed

/-- A data pool and its threads. -/
structure DataPool (θ α : Type*) where
  /-- `struct data_pool`. -/
  n : ℕ
  nwaits : ℤ
  nput : ℕ
  L : Option θ
  idx : ℤ
  top : ℤ
  max : ℕ
  putOnFull : Bool
  getOnEmpty : Bool
  /-- The state of `tev`. -/
  signalled : Bool
  storage : ℤ → Value α
  /-- The thread with the VM lock. -/
  vm : Option θ
  phase : θ → PoolPhase α
  /-- The calls of a thread that are in their callback. -/
  putCalls : θ → ℕ
  getCalls : θ → ℕ
  /-- The tuples accepted by `put`, the ones that `get` has taken from the pool and those it
  has got from the callback. -/
  accepted : List (Tuple α)
  returned : List (Tuple α)
  supplied : List (Tuple α)

/-! ## The storage -/

section Storage

variable {α : Type*}

/-- The loop "keep data in the storage": the values in front of each other on the stack,
one cell each. -/
def storeCells (storage : ℤ → Value α) (top : ℤ) : List (Value α) → (ℤ → Value α) × ℤ
  | [] => (storage, top)
  | a :: l => storeCells (Function.update storage (int32 (top + 1)) a) (int32 (top + 1)) l

/-- The loop "get from storage" over the `k` cells behind `idx`, from the last one on, on a
stack that is large enough. -/
def takeCells (storage : ℤ → Value α) (idx : ℤ) : ℕ → List (Value α) × (ℤ → Value α)
  | 0 => ([], storage)
  | k + 1 =>
      let r := takeCells (Function.update storage (idx + (k + 1)) .nil) idx k
      (storage (idx + (k + 1)) :: r.1, r.2)

/-- `LUA_MINSTACK`, the room on the stack of a C function behind its arguments. -/
def minStack : ℕ := 20

/-- The items fit on the stack of a call of `dpool_get` with no more than the pool.  Its stack
has the table of the storage, the pool, the number of the items, these, and a nil. -/
def FitsStack (v : Tuple α) : Prop := v.length + 4 ≤ 1 + minStack

/-- The cells of a tuple: the number of its items, and the items from the last one on. -/
def encode (v : Tuple α) : List (Value α) := .integer v.length :: v.reverse

/-- The cells behind `idx` are those of `l`. -/
def CellsAt (storage : ℤ → Value α) (idx : ℤ) (l : List (Value α)) : Prop :=
  ∀ j (hj : j < l.length), storage (idx + 1 + j) = l[j]

/-- The storage between `idx` and `top` holds the tuples `ts`. -/
structure StoredAt (storage : ℤ → Value α) (idx top : ℤ) (ts : List (Tuple α)) : Prop where
  idx_nonneg : 0 ≤ idx
  top_eq : top = idx + (ts.flatMap encode).length
  top_lt : top < 2 ^ 31
  cells : CellsAt storage idx (ts.flatMap encode)

variable {storage : ℤ → Value α} {idx top : ℤ} {l l' : List (Value α)} {ts : List (Tuple α)}
  {v : Tuple α}

theorem cellsAt_append : CellsAt storage idx (l ++ l') ↔
    CellsAt storage idx l ∧ CellsAt storage (idx + l.length) l' := by
  constructor
  · intro h
    refine ⟨fun j hj => ?_, fun j hj => ?_⟩
    · rw [h j (by rw [List.length_append]; omega), List.getElem_append_left hj]
    · have := h (l.length + j) (by rw [List.length_append]; omega)
      rw [List.getElem_append_right (by omega)] at this
      simpa [add_assoc, add_comm, add_left_comm] using this
  · rintro ⟨h, h'⟩ j hj
    by_cases hlt : j < l.length
    · rw [List.getElem_append_left hlt, h j hlt]
    · rw [List.getElem_append_right (by omega)]
      have hj' : j - l.length < l'.length := by
        rw [List.length_append] at hj
        omega
      rw [← h' (j - l.length) hj']
      congr 1
      omega

/-- Cells outside of the list do not matter. -/
theorem CellsAt.congr {storage' : ℤ → Value α} (h : CellsAt storage idx l)
    (heq : ∀ i, idx < i → i ≤ idx + l.length → storage' i = storage i) :
    CellsAt storage' idx l := by
  intro j hj
  rw [heq _ (by omega) (by omega), h j hj]

/-- The loop writes the values behind `top`. -/
theorem storeCells_spec (htop : 0 ≤ top) (hlt : top + l.length < 2 ^ 31) :
    (storeCells storage top l).2 = top + l.length ∧
      CellsAt (storeCells storage top l).1 top l ∧
      ∀ i, i ≤ top → (storeCells storage top l).1 i = storage i := by
  induction l generalizing storage top with
  | nil => exact ⟨by simp [storeCells], fun j hj => absurd hj (by simp), fun _ _ => rfl⟩
  | cons a l ih =>
      rw [List.length_cons] at hlt
      have hnext : int32 (top + 1) = top + 1 := int32_of_range (by omega) (by omega)
      obtain ⟨htop', hcells, hframe⟩ :=
        @ih (Function.update storage (int32 (top + 1)) a) (top + 1) (by omega) (by omega)
      simp only [storeCells, hnext] at htop' hcells hframe ⊢
      refine ⟨by rw [htop', List.length_cons]; omega, fun j hj => ?_, fun i hi => ?_⟩
      · cases j with
        | zero =>
            rw [hframe _ (by simp)]
            simp
        | succ j =>
            have hpos : top + 1 + ((j + 1 : ℕ) : ℤ) = top + 1 + 1 + j := by
              push_cast
              omega
            rw [hpos, List.getElem_cons_succ]
            exact hcells j (by simpa using hj)
      · rw [hframe i (by omega), Function.update_of_ne (by omega)]

/-- The loop gives the values in the opposite order. -/
theorem takeCells_spec (h : CellsAt storage idx l) :
    (takeCells storage idx l.length).1 = l.reverse ∧
      ∀ i, i ≤ idx ∨ idx + l.length < i → (takeCells storage idx l.length).2 i = storage i := by
  induction l using List.reverseRecOn generalizing storage with
  | nil => exact ⟨rfl, fun _ _ => rfl⟩
  | append_singleton l a ih =>
      obtain ⟨hl, ha⟩ := cellsAt_append.mp h
      have ha' : storage (idx + (l.length + 1)) = a := by
        have := ha 0 (by simp)
        simpa [add_assoc, add_comm, add_left_comm] using this
      have hl' : CellsAt (Function.update storage (idx + (l.length + 1)) .nil) idx l := by
        refine hl.congr fun i _ hi => ?_
        rw [Function.update_of_ne (by omega)]
      obtain ⟨htake, hframe⟩ := ih hl'
      rw [List.length_append, List.length_singleton, takeCells]
      refine ⟨?_, fun i hi => ?_⟩
      · rw [htake, ha', List.reverse_append, List.reverse_singleton, List.singleton_append]
      · push_cast at hi
        rw [hframe i (by omega), Function.update_of_ne (by omega)]

theorem length_encode (v : Tuple α) : (encode v).length = v.length + 1 := by
  simp [encode]

/-- A tuple is stored behind the others. -/
theorem StoredAt.store (h : StoredAt storage idx top ts) (hlt : top + v.length + 1 < 2 ^ 31) :
    StoredAt (storeCells storage top (encode v)).1 idx (storeCells storage top (encode v)).2
      (ts ++ [v]) := by
  have hlen := length_encode v
  have hidx := h.idx_nonneg
  have htop := h.top_eq
  obtain ⟨htop', hcells, hframe⟩ :=
    @storeCells_spec α storage top (encode v) (by omega) (by rw [hlen]; push_cast; omega)
  refine ⟨hidx, ?_, ?_, ?_⟩
  · rw [htop', htop, List.flatMap_append, List.length_append, List.flatMap_singleton]
    push_cast
    omega
  · rw [htop', hlen]
    push_cast
    omega
  · rw [List.flatMap_append, List.flatMap_singleton, cellsAt_append, ← htop]
    exact ⟨h.cells.congr fun i _ hi => hframe i (by omega), hcells⟩

/-- The first tuple comes out as it was stored; the others stay. -/
theorem StoredAt.take (h : StoredAt storage idx top (v :: ts)) :
    (storage (idx + 1)).toInteger = v.length ∧
      (takeCells (Function.update storage (idx + 1) .nil) (idx + 1) v.length).1 = v ∧
      StoredAt (takeCells (Function.update storage (idx + 1) .nil) (idx + 1) v.length).2
        (idx + 1 + v.length) top ts := by
  have hidx := h.idx_nonneg
  have hlen := length_encode v
  have hcells := h.cells
  rw [List.flatMap_cons, cellsAt_append, encode] at hcells
  obtain ⟨hv, hts⟩ := hcells
  have hcount : storage (idx + 1) = .integer v.length := by
    simpa using hv 0 (by simp)
  have hitems : CellsAt (Function.update storage (idx + 1) .nil) (idx + 1) v.reverse := by
    intro j hj
    have := hv (j + 1) (by simpa using hj)
    rw [Function.update_of_ne (by omega)]
    simpa [add_assoc, add_comm, add_left_comm] using this
  obtain ⟨htake, hframe⟩ := takeCells_spec hitems
  rw [List.length_reverse] at htake hframe
  refine ⟨by rw [hcount]; rfl, by rw [htake, List.reverse_reverse], ?_, ?_, h.top_lt, ?_⟩
  · omega
  · rw [h.top_eq, List.flatMap_cons, List.length_append, hlen]
    push_cast
    omega
  · have hstart : idx + 1 + v.length = idx + (encode v).length := by
      rw [hlen]
      push_cast
      omega
    rw [hstart]
    refine CellsAt.congr hts fun i hi _ => ?_
    rw [hframe i (Or.inr (by omega)), Function.update_of_ne (by omega)]

theorem storedAt_nil (storage : ℤ → Value α) : StoredAt storage 0 0 [] :=
  ⟨le_rfl, by simp, by decide, fun j hj => absurd hj (by simp)⟩

end Storage

/-! ## The operations -/

/-- The steps of the threads. -/
inductive PoolOp (θ α : Type*)
  | vmEnter (t : θ)
  | vmLeave (t : θ)
  /-- A call of `dpool_put` with the items `v`. -/
  | put (t : θ) (v : Tuple α)
  /-- The callback `put_on_full` returns `v`, or raises an error. -/
  | putReturn (t : θ) (v : Tuple α)
  | putThrow (t : θ)
  /-- The wait of `dpool_put` takes the signal, or fails. -/
  | putConsume (t : θ)
  | putFail (t : θ)
  /-- `dpool_put` goes on after its wait; with `error` it is left by `sys_thread_check`. -/
  | putResume (t : θ) (error : Bool)
  /-- `dpool_put` goes on after its offer. -/
  | offerDone (t : θ)
  /-- A call of `dpool_get`. -/
  | get (t : θ)
  /-- The callback `get_on_empty` returns `v`, or raises an error. -/
  | getReturn (t : θ) (v : Tuple α)
  | getThrow (t : θ)
  /-- The wait of `dpool_get` takes the signal, or ends without it. -/
  | getConsume (t : θ)
  | getFail (t : θ)
  /-- `dpool_get` goes on after its wait; with `error` it is left by `sys_thread_check` or
  `luaL_checkstack`. -/
  | getResume (t : θ) (error : Bool)
  /-- `dpool_max`, which takes the number as an `unsigned int`, and `dpool_callbacks`. -/
  | setMax (t : θ) (max : ℕ)
  | setCallbacks (t : θ) (putOnFull getOnEmpty : Bool)

namespace DataPool

variable {θ α : Type*}

/-- A new pool, as `dpool_new` leaves it. -/
def init : DataPool θ α where
  n := 0
  nwaits := 0
  nput := 0
  L := none
  idx := 0
  top := 0
  max := 2 ^ 32 - 1
  putOnFull := false
  getOnEmpty := false
  signalled := false
  storage _ := .nil
  vm := none
  phase _ := .away
  putCalls _ := 0
  getCalls _ := 0
  accepted := []
  returned := []
  supplied := []

variable [DecidableEq θ]

/-- The thread goes on with the VM lock. -/
def proceed (s : DataPool θ α) (t : θ) : DataPool θ α :=
  { s with vm := some t, phase := Function.update s.phase t .running }

/-- The thread releases the VM lock. -/
def block (s : DataPool θ α) (t : θ) (p : PoolPhase α) : DataPool θ α :=
  { s with vm := none, phase := Function.update s.phase t p }

/-- "Keep data in the storage". -/
def store (s : DataPool θ α) (v : Tuple α) : DataPool θ α :=
  let r := storeCells s.storage s.top (encode v)
  { s with storage := r.1, top := r.2, n := u32 (s.n + 1), signalled := s.signalled || s.n = 0 }

/-- The end of `dpool_put`, from "try directly move data between threads" on. -/
def deliver (s : DataPool θ α) (t : θ) (v : Tuple α) : DataPool θ α :=
  let s := { s with accepted := s.accepted ++ [v] }
  if s.nwaits ≠ 0 ∧ s.L = none then
    ({ s with L := some t, nput := v.length, signalled := true }).block t (.offering v)
  else (s.store v).proceed t

/-- The end of "get from storage": the tuple `v`, with `last` as its last cell, has been
taken. -/
def taken (s : DataPool θ α) (last : ℤ) (v : Tuple α) (storage : ℤ → Value α) : DataPool θ α :=
  { s with
    storage
    idx := if last = s.top then 0 else last
    top := if last = s.top then 0 else s.top
    n := u32sub s.n 1
    signalled := s.signalled || s.n = s.max
    returned := s.returned ++ [v] }

/-- "Get from storage". -/
def takeStored (s : DataPool θ α) : DataPool θ α :=
  let idx := int32 (s.idx + 1)
  let last := int32 (idx + int32 (s.storage idx).toInteger)
  let r := takeCells (Function.update s.storage idx .nil) idx (last - idx).toNat
  s.taken last r.1 r.2

/-- The loop of `dpool_get`, up to its wait. -/
def getLoop (s : DataPool θ α) (t : θ) : DataPool θ α :=
  if s.n ≠ 0 then s.takeStored.proceed t
  else ({ s with nwaits := int32 (s.nwaits + 1) }).block t .getWait

/-- "Get directly from another thread". -/
def handOver (s : DataPool θ α) : Option (DataPool θ α) :=
  match s.L with
  | none => none
  | some w =>
      match s.phase w with
      | .offering v =>
          some { s with
            nput := 0
            returned := s.returned ++ [v.drop (v.length - s.nput)]
            phase := Function.update s.phase w (.offering (v.take (v.length - s.nput))) }
      | _ => none

/-- One step; `none` when the thread is elsewhere. -/
def step (s : DataPool θ α) : PoolOp θ α → Option (DataPool θ α)
  | .vmEnter t =>
      match s.vm, s.phase t with
      | none, .away => some (s.proceed t)
      | _, _ => none
  | .vmLeave t => if s.vm = some t then some (s.block t .away) else none
  | .put t v =>
      if s.vm = some t ∧ v ≠ [] then
        if s.max ≤ s.n then
          if s.putOnFull then
            some { s with putCalls := Function.update s.putCalls t (s.putCalls t + 1) }
          else some (s.block t (.putWait v))
        else some (s.deliver t v)
      else none
  | .putReturn t v =>
      if s.vm = some t ∧ s.putCalls t ≠ 0 then
        let s := { s with putCalls := Function.update s.putCalls t (s.putCalls t - 1) }
        if v = [] then some s else some (s.deliver t v)
      else none
  | .putThrow t =>
      if s.vm = some t ∧ s.putCalls t ≠ 0 then
        some { s with putCalls := Function.update s.putCalls t (s.putCalls t - 1) }
      else none
  | .putConsume t =>
      match s.phase t, s.signalled with
      | .putWait v, true =>
          some { s with signalled := false, phase := Function.update s.phase t (.putWoken v) }
      | _, _ => none
  | .putFail t =>
      match s.phase t with
      | .putWait _ => some { s with phase := Function.update s.phase t .putFailed }
      | _ => none
  | .putResume t error =>
      match s.vm, s.phase t with
      | none, .putWoken v =>
          if error then some (s.proceed t)
          else if s.max ≤ s.n then some (s.block t (.putWait v))
          else some (s.deliver t v)
      | none, .putFailed => some (s.proceed t)
      | _, _ => none
  | .offerDone t =>
      match s.vm, s.phase t with
      | none, .offering v =>
          let s := { s with L := none }
          if s.nput = 0 then some (s.proceed t)
          else some (({ s with nput := 0 }).store v |>.proceed t)
      | _, _ => none
  | .get t =>
      if s.vm = some t then
        if s.getOnEmpty ∧ s.n = 0 then
          some { s with getCalls := Function.update s.getCalls t (s.getCalls t + 1) }
        else some (s.getLoop t)
      else none
  | .getReturn t v =>
      if s.vm = some t ∧ s.getCalls t ≠ 0 then
        let s := { s with getCalls := Function.update s.getCalls t (s.getCalls t - 1) }
        if v = [] then some (s.getLoop t) else some { s with supplied := s.supplied ++ [v] }
      else none
  | .getThrow t =>
      if s.vm = some t ∧ s.getCalls t ≠ 0 then
        some { s with getCalls := Function.update s.getCalls t (s.getCalls t - 1) }
      else none
  | .getConsume t =>
      match s.phase t, s.signalled with
      | .getWait, true =>
          some { s with signalled := false, phase := Function.update s.phase t .getWoken }
      | _, _ => none
  | .getFail t =>
      match s.phase t with
      | .getWait => some { s with phase := Function.update s.phase t .getFailed }
      | _ => none
  | .getResume t error =>
      match s.vm, s.phase t with
      | none, .getWoken =>
          let s := { s with nwaits := int32 (s.nwaits - 1) }
          if error then some (s.proceed t)
          else if s.nput ≠ 0 then s.handOver.map (·.proceed t)
          else some (s.getLoop t)
      | none, .getFailed => some (({ s with nwaits := int32 (s.nwaits - 1) }).proceed t)
      | _, _ => none
  | .setMax t max => if s.vm = some t then some { s with max := u32 max } else none
  | .setCallbacks t putOnFull getOnEmpty =>
      if s.vm = some t then
        some { s with putOnFull := putOnFull, getOnEmpty := getOnEmpty }
      else none

/-- The transitions of a run. -/
def Step (s s' : DataPool θ α) : Prop := ∃ op, s.step op = some s'

/-- A reader that wakes up is not counted any more. -/
def uncount (s : DataPool θ α) : DataPool θ α := { s with nwaits := int32 (s.nwaits - 1) }

/-- What the steps do. -/
inductive Steps (s : DataPool θ α) : PoolOp θ α → DataPool θ α → Prop
  /-- The thread gets the VM lock and goes on. -/
  | proceed {op : PoolOp θ α} {t : θ} (hphase : s.phase t = .away ∨ s.phase t = .putFailed) :
      Steps s op (s.proceed t)
  | vmLeave {t : θ} (hvm : s.vm = some t) : Steps s (.vmLeave t) (s.block t .away)
  /-- A callback begins or ends, or other callbacks are set. -/
  | callback {op : PoolOp θ α} {t : θ} (hvm : s.vm = some t) (putCalls getCalls : θ → ℕ)
      (putOnFull getOnEmpty : Bool) (supplied : List (Tuple α)) :
      Steps s op { s with putCalls, getCalls, putOnFull, getOnEmpty, supplied }
  | putBlocks {t : θ} {v : Tuple α} (hvm : s.vm = some t) (hv : v ≠ []) (hfull : s.max ≤ s.n) :
      Steps s (.put t v) (s.block t (.putWait v))
  | put {t : θ} {v : Tuple α} (hvm : s.vm = some t) (hv : v ≠ []) (hroom : s.n < s.max) :
      Steps s (.put t v) (s.deliver t v)
  | putReturn {t : θ} {v : Tuple α} (hvm : s.vm = some t) (hv : v ≠ []) (putCalls : θ → ℕ) :
      Steps s (.putReturn t v) ({ s with putCalls }.deliver t v)
  | putConsume {t : θ} {v : Tuple α} (hphase : s.phase t = .putWait v) :
      Steps s (.putConsume t)
        { s with signalled := false, phase := Function.update s.phase t (.putWoken v) }
  | putFail {t : θ} {v : Tuple α} (hphase : s.phase t = .putWait v) :
      Steps s (.putFail t) { s with phase := Function.update s.phase t .putFailed }
  | putChecked {t : θ} {v : Tuple α} (hphase : s.phase t = .putWoken v) :
      Steps s (.putResume t true) (s.proceed t)
  | putBlocksAgain {t : θ} {v : Tuple α} (hphase : s.phase t = .putWoken v)
      (hfull : s.max ≤ s.n) : Steps s (.putResume t false) (s.block t (.putWait v))
  | putResume {t : θ} {v : Tuple α} (hphase : s.phase t = .putWoken v) (hroom : s.n < s.max) :
      Steps s (.putResume t false) (s.deliver t v)
  | offerTaken {t : θ} {v : Tuple α} (hphase : s.phase t = .offering v) (hn : s.nput = 0) :
      Steps s (.offerDone t) ({ s with L := none }.proceed t)
  | offerStored {t : θ} {v : Tuple α} (hphase : s.phase t = .offering v) (hn : s.nput ≠ 0) :
      Steps s (.offerDone t) (({ s with L := none, nput := 0 }.store v).proceed t)
  /-- `dpool_get` begins its loop. -/
  | get {op : PoolOp θ α} {t : θ} (hvm : s.vm = some t) (getCalls : θ → ℕ) :
      Steps s op ({ s with getCalls }.getLoop t)
  | getConsume {t : θ} (hphase : s.phase t = .getWait) :
      Steps s (.getConsume t)
        { s with signalled := false, phase := Function.update s.phase t .getWoken }
  | getFail {t : θ} (hphase : s.phase t = .getWait) :
      Steps s (.getFail t) { s with phase := Function.update s.phase t .getFailed }
  | getChecked {t : θ} (hphase : s.phase t = .getWoken) :
      Steps s (.getResume t true) (s.uncount.proceed t)
  | getHandOver {t : θ} {s₁ : DataPool θ α} (hphase : s.phase t = .getWoken) (hn : s.nput ≠ 0)
      (hover : s.uncount.handOver = some s₁) : Steps s (.getResume t false) (s₁.proceed t)
  | getResume {t : θ} (hphase : s.phase t = .getWoken) (hn : s.nput = 0) :
      Steps s (.getResume t false) (s.uncount.getLoop t)
  | getFailed {t : θ} {error : Bool} (hphase : s.phase t = .getFailed) :
      Steps s (.getResume t error) (s.uncount.proceed t)
  | setMax {t : θ} {max : ℕ} (hvm : s.vm = some t) :
      Steps s (.setMax t max) { s with max := u32 max }

variable {s s' : DataPool θ α} {op : PoolOp θ α}

theorem steps_of_putResume {t : θ} {error : Bool}
    (h : s.step (.putResume t error) = some s') : Steps s (.putResume t error) s' := by
  simp only [step] at h
  split at h
  · next v _ hphase =>
      cases error with
      | true => exact Option.some.inj h ▸ .putChecked hphase
      | false =>
          simp only [Bool.false_eq_true, if_false] at h
          split_ifs at h with hfull
          · exact Option.some.inj h ▸ .putBlocksAgain hphase hfull
          · exact Option.some.inj h ▸ .putResume hphase (not_le.mp hfull)
  · next hphase => exact Option.some.inj h ▸ .proceed (Or.inr hphase)
  · exact absurd h (by simp)

theorem steps_of_getResume {t : θ} {error : Bool}
    (h : s.step (.getResume t error) = some s') : Steps s (.getResume t error) s' := by
  simp only [step] at h
  split at h
  · next _ hphase =>
      cases error with
      | true => exact Option.some.inj h ▸ .getChecked hphase
      | false =>
          simp only [Bool.false_eq_true, if_false] at h
          split_ifs at h with hn
          · obtain ⟨s₁, hover, rfl⟩ := Option.map_eq_some_iff.mp h
            exact .getHandOver hphase hn hover
          · exact Option.some.inj h ▸ .getResume hphase (not_not.mp hn)
  · next hphase => exact Option.some.inj h ▸ .getFailed hphase
  · exact absurd h (by simp)

/-- Every step is one of them. -/
theorem steps_of_step (h : s.step op = some s') : Steps s op s' := by
  cases op with
  | vmEnter t =>
      simp only [step] at h
      split at h
      · next hphase => exact Option.some.inj h ▸ .proceed (Or.inl hphase)
      · exact absurd h (by simp)
  | vmLeave t =>
      obtain ⟨hvm, h⟩ := Option.ite_none_right_eq_some.mp h
      exact Option.some.inj h ▸ .vmLeave hvm
  | put t v =>
      obtain ⟨⟨hvm, hv⟩, h⟩ := Option.ite_none_right_eq_some.mp h
      split_ifs at h with hfull
      · exact Option.some.inj h ▸ .callback hvm _ _ _ _ _
      · exact Option.some.inj h ▸ .putBlocks hvm hv hfull
      · exact Option.some.inj h ▸ .put hvm hv (not_le.mp hfull)
  | putReturn t v =>
      obtain ⟨⟨hvm, -⟩, h⟩ := Option.ite_none_right_eq_some.mp h
      split_ifs at h with hv
      · exact Option.some.inj h ▸ .callback hvm _ _ _ _ _
      · exact Option.some.inj h ▸ .putReturn hvm hv _
  | putThrow t =>
      obtain ⟨⟨hvm, -⟩, h⟩ := Option.ite_none_right_eq_some.mp h
      exact Option.some.inj h ▸ .callback hvm _ _ _ _ _
  | putConsume t =>
      simp only [step] at h
      split at h
      · next hphase _ => exact Option.some.inj h ▸ .putConsume hphase
      · exact absurd h (by simp)
  | putFail t =>
      simp only [step] at h
      split at h
      · next hphase => exact Option.some.inj h ▸ .putFail hphase
      · exact absurd h (by simp)
  | putResume t error => exact steps_of_putResume h
  | offerDone t =>
      simp only [step] at h
      split at h
      · next hphase =>
          split_ifs at h with hn
          · exact Option.some.inj h ▸ .offerTaken hphase hn
          · exact Option.some.inj h ▸ .offerStored hphase hn
      · exact absurd h (by simp)
  | get t =>
      obtain ⟨hvm, h⟩ := Option.ite_none_right_eq_some.mp h
      split_ifs at h
      · exact Option.some.inj h ▸ .callback hvm _ _ _ _ _
      · exact Option.some.inj h ▸ .get hvm s.getCalls
  | getReturn t v =>
      obtain ⟨⟨hvm, -⟩, h⟩ := Option.ite_none_right_eq_some.mp h
      split_ifs at h
      · exact Option.some.inj h ▸ .get hvm _
      · exact Option.some.inj h ▸ .callback hvm _ _ _ _ _
  | getThrow t =>
      obtain ⟨⟨hvm, -⟩, h⟩ := Option.ite_none_right_eq_some.mp h
      exact Option.some.inj h ▸ .callback hvm _ _ _ _ _
  | getConsume t =>
      simp only [step] at h
      split at h
      · next hphase _ => exact Option.some.inj h ▸ .getConsume hphase
      · exact absurd h (by simp)
  | getFail t =>
      simp only [step] at h
      split at h
      · next hphase => exact Option.some.inj h ▸ .getFail hphase
      · exact absurd h (by simp)
  | getResume t error => exact steps_of_getResume h
  | setMax t max =>
      obtain ⟨hvm, h⟩ := Option.ite_none_right_eq_some.mp h
      exact Option.some.inj h ▸ .setMax hvm
  | setCallbacks t putOnFull getOnEmpty =>
      obtain ⟨hvm, h⟩ := Option.ite_none_right_eq_some.mp h
      exact Option.some.inj h ▸ .callback hvm _ _ _ _ _

end DataPool

end LuaSys.Thread
