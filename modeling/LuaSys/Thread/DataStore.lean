import LuaSys.Thread.DataPool

/-!
# The storage of a data pool over long runs

The indexes `idx` and `top` of the storage are `unsigned int` and go back to zero only when
the pool becomes empty.  A pool that is never drained drives them through their whole
range, and `dpool_put` and `dpool_get` take them as values of type `int`.

The cells of the storage form a ring of `2 ^ 32` keys.  The loop of `dpool_put` goes around
the ring, and so does `dpool_get` from one tuple to the next.  The loop of `dpool_get` over the
cells of one tuple compares its index with that of the counter, and does not run when
the tuple lies across the largest `int`.

The stack of a C function has room for `LUA_MINSTACK` values behind its arguments.  The loop
of `dpool_get` pushes the items of a tuple without a call of `luaL_checkstack`, so a large
tuple runs over the end of the stack; nothing is known of the call then.

Here one thread at a time uses the pool and nobody waits, so the storage is all there is.
A Lua table has less than `2 ^ 32` entries, and an insertion that goes beyond its limits is
an error.

## Main definitions

* `DataStore`, `DataStore.put`, `DataStore.get` — the storage path of the functions.
* `HoldsRing` — the cells behind a position, and nil everywhere else.
* `StoreRun`, `StoreRun.step` — a run with its queue of tuples as a ghost.
* `StoreRun.Fifo` — the promise of the storage.

## Main results

* `DataPool.put_toStore`, `DataPool.get_toStore` — the pool with threads does the same.
* `HoldsRing.store`, `HoldsRing.take` — a tuple goes in at the end and comes out at the front.
* `StoreRun.Inv.get`, `StoreRun.Inv.safe_of_fifo` — a `get` returns its tuple and leaves
  nothing behind exactly when the tuple fits on the stack and does not lie across the largest
  `int`.
* `fifo_run_iff` — the same for whole runs.
* `undrained_pool_fails` — a pool that always holds a tuple fails after `2 ^ 30` tuples.
-/

namespace LuaSys.Thread

open LuaSys.Lib

/-! ## The storage path -/

/-- The storage and its indexes; these are the values of type `int` that the functions
take from the fields. -/
structure DataStore (α : Type*) where
  n : ℕ
  idx : ℤ
  top : ℤ
  storage : ℤ → Value α

namespace DataStore

variable {α : Type*}

def init : DataStore α where
  n := 0
  idx := 0
  top := 0
  storage _ := .nil

/-- "Keep data in the storage". -/
def put (s : DataStore α) (v : Tuple α) : DataStore α :=
  let r := storeCells s.storage s.top (encode v)
  { storage := r.1, top := r.2, idx := s.idx, n := u32 (s.n + 1) }

/-- The `n` results of a function of Lua are the last values of its stack. -/
def luaResults (n : ℕ) (stack : List (Value α)) : List (Value α) := stack.drop (stack.length - n)

/-- "Get from storage", in a call with `nargs` arguments.  Below the items the stack has the
table `env`, the pool `self` and the counter of the tuple, and above the last one there is a nil
for its cell.  There are no results when the stack is not large enough. -/
def get (env self : Value α) (nargs : ℕ) (s : DataStore α) :
    DataStore α × Option (List (Value α)) :=
  let idx := int32 (s.idx + 1)
  let count := s.storage idx
  let nput := int32 count.toInteger
  let last := int32 (idx + nput)
  let k := (last - idx).toNat
  let r := takeCells (Function.update s.storage idx .nil) idx k
  ({ storage := r.2
     idx := if last = s.top then 0 else last
     top := if last = s.top then 0 else s.top
     n := u32sub s.n 1 },
    if k + 4 ≤ nargs + minStack then some (luaResults nput.toNat ([env, self, count] ++ r.1))
    else none)

end DataStore

namespace DataPool

variable {θ α : Type*}

/-- The storage of a data pool. -/
def toStore (s : DataPool θ α) : DataStore α := ⟨s.n, s.idx, s.top, s.storage⟩

theorem put_toStore (s : DataPool θ α) (v : Tuple α) : (s.store v).toStore = s.toStore.put v := rfl

theorem get_toStore (s : DataPool θ α) (env self : Value α) (nargs : ℕ) :
    s.takeStored.toStore = (s.toStore.get env self nargs).1 := rfl

end DataPool

/-! ## The ring of the cells -/

section Ring

variable {α : Type*} {storage : ℤ → Value α} {p idx : ℤ} {l : List (Value α)} {v : Tuple α}

/-- The key of the `j`-th cell behind the position `p`. -/
def cellKey (p : ℤ) (j : ℕ) : ℤ := int32 (p + 1 + j)

/-- The cells behind `p` are those of `l`, and there is nothing else. -/
structure HoldsRing (storage : ℤ → Value α) (p : ℤ) (l : List (Value α)) : Prop where
  cells : ∀ j (hj : j < l.length), storage (cellKey p j) = l[j]
  rest : ∀ i, (∀ j, j < l.length → i ≠ cellKey p j) → storage i = .nil

theorem cellKey_add (p : ℤ) (k j : ℕ) : cellKey (p + k) j = cellKey p (k + j) := by
  unfold cellKey
  congr 1
  push_cast
  omega

theorem cellKey_int32 (p : ℤ) (j : ℕ) : cellKey (int32 p) j = cellKey p j := by
  rw [cellKey, cellKey, add_assoc, int32_int32_add, add_assoc]

theorem cellKey_inj {j k : ℕ} (h : cellKey p j = cellKey p k) (hj : j < 2 ^ 32)
    (hk : k < 2 ^ 32) : j = k := by
  have heq := int32_injOn h (by omega) (by omega)
  omega

theorem holdsRing_nil (p : ℤ) : HoldsRing (fun _ : ℤ => (Value.nil : Value α)) p [] :=
  ⟨fun _ hj => absurd hj (Nat.not_lt_zero _), fun _ _ => rfl⟩

/-- An empty storage is empty at every position. -/
theorem HoldsRing.move (h : HoldsRing storage p []) (p' : ℤ) : HoldsRing storage p' [] :=
  ⟨fun _ hj => absurd hj (Nat.not_lt_zero _),
    fun i _ => h.rest i fun _ hj => absurd hj (Nat.not_lt_zero _)⟩

/-- A position may be given by the value of its field. -/
theorem HoldsRing.wrap (h : HoldsRing storage p l) : HoldsRing storage (int32 p) l := by
  refine ⟨fun j hj => ?_, fun i hi => h.rest i fun j hj => ?_⟩
  · rw [cellKey_int32]
    exact h.cells j hj
  · rw [← cellKey_int32]
    exact hi j hj

/-- The loop of `dpool_put` goes around the ring. -/
theorem storeCells_ring (storage : ℤ → Value α) (p : ℤ) {l : List (Value α)}
    (hlen : l.length ≤ 2 ^ 32) :
    (storeCells storage (int32 p) l).2 = int32 (p + l.length) ∧
      (∀ j (hj : j < l.length), (storeCells storage (int32 p) l).1 (cellKey p j) = l[j]) ∧
      ∀ i, (∀ j, j < l.length → i ≠ cellKey p j) →
        (storeCells storage (int32 p) l).1 i = storage i := by
  induction l generalizing storage p with
  | nil =>
      refine ⟨by simp [storeCells], fun _ hj => absurd hj (Nat.not_lt_zero _), fun _ _ => rfl⟩
  | cons a l ih =>
      rw [List.length_cons] at hlen
      have hshift : ∀ j : ℕ, cellKey (p + 1) j = cellKey p (j + 1) := by
        intro j
        have hadd := cellKey_add p 1 j
        rw [Nat.cast_one, Nat.add_comm] at hadd
        exact hadd
      have hfirst : int32 (p + 1) = cellKey p 0 := by simp [cellKey]
      obtain ⟨htop, hcells, hframe⟩ :=
        ih (Function.update storage (int32 (p + 1)) a) (p + 1) (by omega)
      rw [storeCells, int32_int32_add]
      refine ⟨?_, fun j hj => ?_, fun i hi => ?_⟩
      · rw [htop, List.length_cons]
        congr 1
        push_cast
        omega
      · cases j with
        | zero =>
            rw [hframe _ fun j hj heq => ?_, hfirst, Function.update_self, List.getElem_cons_zero]
            rw [hshift] at heq
            have hzero := cellKey_inj heq (by omega) (by omega)
            omega
        | succ j =>
            rw [← hshift, hcells j (by simpa using hj), List.getElem_cons_succ]
      · rw [hframe i fun j hj => ?_, Function.update_of_ne]
        · rw [hfirst]
          exact hi 0 (by simp)
        · rw [hshift]
          exact hi (j + 1) (by simpa using hj)

/-- A tuple is stored behind the others. -/
theorem HoldsRing.store (h : HoldsRing storage p l)
    (hlen : l.length + (encode v).length ≤ 2 ^ 32) :
    HoldsRing (storeCells storage (int32 (p + l.length)) (encode v)).1 p (l ++ encode v) := by
  obtain ⟨-, hcells, hframe⟩ := storeCells_ring storage (p + l.length) (l := encode v) (by omega)
  refine ⟨fun j hj => ?_, fun i hi => ?_⟩
  · rw [List.length_append] at hj
    by_cases hlt : j < l.length
    · rw [List.getElem_append_left hlt, hframe _ fun k hk heq => ?_, h.cells j hlt]
      rw [cellKey_add] at heq
      have hjk := cellKey_inj heq (by omega) (by omega)
      omega
    · have hk : j - l.length < (encode v).length := by omega
      have hjk : l.length + (j - l.length) = j := by omega
      have hcell := hcells _ hk
      rw [cellKey_add, hjk] at hcell
      rw [List.getElem_append_right (by omega), hcell]
  · rw [hframe i fun k hk => ?_]
    · exact h.rest i fun j hj => hi j (by rw [List.length_append]; omega)
    · rw [cellKey_add]
      exact hi _ (by rw [List.length_append]; omega)

/-- The loop of `dpool_get` clears its cells, and no others. -/
theorem takeCells_cleared (storage : ℤ → Value α) (idx : ℤ) (k : ℕ) (i : ℤ) :
    (takeCells storage idx k).2 i = if idx < i ∧ i ≤ idx + k then .nil else storage i := by
  induction k generalizing storage with
  | zero =>
      rw [takeCells, if_neg]
      simp
  | succ k ih =>
      rw [takeCells, ih]
      by_cases hlast : i = idx + (k + 1)
      · rw [if_neg (by omega), hlast, Function.update_self, if_pos (by push_cast; omega)]
      · rw [Function.update_of_ne hlast]
        by_cases hin : idx < i ∧ i ≤ idx + k
        · rw [if_pos hin, if_pos (by push_cast; omega)]
        · rw [if_neg hin, if_neg (by push_cast; omega)]

/-- The keys of a tuple that does not lie across the largest `int`. -/
theorem cellKey_of_lt {n j : ℕ} (hlt : cellKey p 0 + n < 2 ^ 31) (hj : j ≤ n) :
    cellKey p j = cellKey p 0 + j := by
  have hrange := (int32_range (p + 1 + (0 : ℕ))).1
  have heq : cellKey p j = int32 (cellKey p 0 + j) := by
    unfold cellKey
    rw [int32_int32_add]
    congr 1
    push_cast
    omega
  rw [heq, int32_of_range]
  · unfold cellKey
    omega
  · omega

/-- The first tuple comes out as it was stored; the others stay. -/
theorem HoldsRing.take (h : HoldsRing storage p (encode v ++ l))
    (hlen : (encode v).length + l.length ≤ 2 ^ 32) (hlt : cellKey p 0 + v.length < 2 ^ 31) :
    (takeCells (Function.update storage (cellKey p 0) .nil) (cellKey p 0) v.length).1 = v ∧
      HoldsRing (takeCells (Function.update storage (cellKey p 0) .nil) (cellKey p 0) v.length).2
        (p + (encode v).length) l := by
  have hv := length_encode v
  have hkey : ∀ j, j ≤ v.length → cellKey p j = cellKey p 0 + j := fun j => cellKey_of_lt hlt
  have hitems : CellsAt (Function.update storage (cellKey p 0) .nil) (cellKey p 0) v.reverse := by
    intro j hj
    rw [List.length_reverse] at hj
    have hcell := h.cells (j + 1) (by rw [List.length_append]; omega)
    rw [hkey (j + 1) (by omega), List.getElem_append_left (by omega)] at hcell
    have hpos : cellKey p 0 + 1 + j = cellKey p 0 + (j + 1 : ℕ) := by
      push_cast
      omega
    rw [hpos, Function.update_of_ne (by push_cast; omega), hcell]
    rfl
  have htake := (takeCells_spec hitems).1
  rw [List.length_reverse, List.reverse_reverse] at htake
  refine ⟨htake, fun j hj => ?_, fun i hi => ?_⟩
  · -- the cells of the other tuples are not touched
    have hcell := h.cells ((encode v).length + j) (by rw [List.length_append]; omega)
    rw [List.getElem_append_right (by omega)] at hcell
    simp only [Nat.add_sub_cancel_left] at hcell
    have hne : ∀ k, k ≤ v.length → cellKey p ((encode v).length + j) ≠ cellKey p 0 + k := by
      intro k hk heq
      rw [← hkey k hk] at heq
      have hjk := cellKey_inj heq (by omega) (by omega)
      omega
    rw [cellKey_add, takeCells_cleared, if_neg, Function.update_of_ne]
    · exact hcell
    · have hzero := hne 0 (by omega)
      simpa using hzero
    · rintro ⟨hgt, hle⟩
      have hat := hne (cellKey p ((encode v).length + j) - cellKey p 0).toNat (by omega)
      omega
  · rw [takeCells_cleared]
    split
    · rfl
    · next hout =>
      by_cases hfirst : i = cellKey p 0
      · rw [hfirst, Function.update_self]
      · rw [Function.update_of_ne hfirst]
        refine h.rest i fun j hj heq => ?_
        rw [List.length_append] at hj
        by_cases hle : j ≤ v.length
        · have hj' := hkey j hle
          rw [← heq] at hj'
          have hpos : j ≠ 0 := by
            rintro rfl
            exact hfirst heq
          omega
        · have hback := hi (j - (encode v).length) (by omega)
          rw [cellKey_add, Nat.add_sub_cancel' (by omega)] at hback
          exact hback heq

end Ring

/-! ## Runs -/

/-- The storage, the tuples that it should hold, and what each `get` should have given and
has given. -/
structure StoreRun (α : Type*) where
  store : DataStore α
  queue : List (Tuple α)
  gets : List (Tuple α × Option (List (Value α)))

/-- The steps of a run. -/
inductive StoreOp (α : Type*)
  | put (v : Tuple α)
  /-- A call with `nargs` arguments, the pool and a timeout for example. -/
  | get (nargs : ℕ)

namespace StoreRun

variable {α : Type*}

/-- A new pool. -/
def init : StoreRun α := ⟨.init, [], []⟩

/-- The cells that the storage should hold. -/
def cells (s : StoreRun α) : List (Value α) := s.queue.flatMap encode

/-- One step.  A tuple has at least one item and fits on a stack of Lua, its cells fit into
the table, and `get` does not wait. -/
def step (env self : Value α) (s : StoreRun α) : StoreOp α → Option (StoreRun α)
  | .put v =>
      if 0 < v.length ∧ v.length < 2 ^ 31 ∧ s.cells.length + (v.length + 1) ≤ 2 ^ 32 then
        some { s with store := s.store.put v, queue := s.queue ++ [v] }
      else none
  | .get nargs =>
      if nargs = 0 ∨ s.store.n = 0 then none
      else
        let r := s.store.get env self nargs
        some { store := r.1
               queue := s.queue.tail
               gets := s.gets ++ [(s.queue.headD [], r.2)] }

/-- Each `get` has given the oldest tuple, and the storage holds the cells of the others
and nothing else. -/
def Fifo (s : StoreRun α) : Prop :=
  (∀ g ∈ s.gets, g.2 = some g.1) ∧ s.store.n = s.queue.length ∧
    HoldsRing s.store.storage s.store.idx s.cells

/-- The first tuple does not lie across the largest `int`: the key of its counter and the
number of its items do not add up to more. -/
def FirstBelow (s : StoreRun α) : Prop := ∀ v ∈ s.queue.head?, int32 (s.store.idx + 1) + v.length < 2 ^ 31

/-- The first tuple fits on the stack of a call with `nargs` arguments. -/
def FirstFits (s : StoreRun α) (nargs : ℕ) : Prop :=
  ∀ v ∈ s.queue.head?, v.length + 4 ≤ nargs + minStack

end StoreRun

/-- A `get` is safe when the first tuple does not lie across the largest `int`, and fits on the
stack. -/
def StoreOp.Safe {α : Type*} (s : StoreRun α) : StoreOp α → Prop
  | .put _ => True
  | .get nargs => s.FirstBelow ∧ s.FirstFits nargs

namespace StoreRun

/-- The storage holds the tuples of the queue, and the results so far were right. -/
structure Inv {α : Type*} (s : StoreRun α) : Prop where
  idx_eq : int32 s.store.idx = s.store.idx
  top_eq : s.store.top = int32 (s.store.idx + s.cells.length)
  holds : HoldsRing s.store.storage s.store.idx s.cells
  n_eq : s.store.n = s.queue.length
  cells_le : s.cells.length ≤ 2 ^ 32
  items : ∀ v ∈ s.queue, 0 < v.length ∧ v.length < 2 ^ 31
  good : ∀ g ∈ s.gets, g.2 = some g.1

variable {α : Type*} {env self : Value α} {nargs : ℕ} {s s' : StoreRun α} {v : Tuple α}
  {ts : List (Tuple α)}

theorem Inv.fifo (h : s.Inv) : s.Fifo := ⟨h.good, h.n_eq, h.holds⟩

theorem init_inv : (init : StoreRun α).Inv := by
  have hzero : int32 0 = 0 := int32_of_range (by decide) (by decide)
  refine ⟨hzero, ?_, holdsRing_nil 0, rfl, ?_, ?_, ?_⟩
  · simp only [init, DataStore.init, cells, List.flatMap_nil, List.length_nil, Nat.cast_zero, add_zero, hzero]
  · exact Nat.zero_le _
  · exact fun v hv => absurd hv List.not_mem_nil
  · exact fun g hg => absurd hg List.not_mem_nil

/-- Every tuple takes two cells at least. -/
theorem two_mul_length_le {ts : List (Tuple α)} (h : ∀ v ∈ ts, 0 < v.length) :
    2 * ts.length ≤ (ts.flatMap encode).length := by
  induction ts with
  | nil => simp
  | cons v ts ih =>
      have hv := h v List.mem_cons_self
      have hts := ih fun w hw => h w (List.mem_cons_of_mem v hw)
      rw [List.flatMap_cons, List.length_append, length_encode, List.length_cons]
      omega

/-- `put` stores its tuple. -/
theorem Inv.put (h : s.Inv) (hop : s.step env self (.put v) = some s') :
    s'.Inv ∧ s'.queue = s.queue ++ [v] ∧ s'.store.idx = s.store.idx := by
  obtain ⟨⟨hpos, hlt, hroom⟩, heq⟩ := Option.ite_none_right_eq_some.mp hop
  rw [← Option.some.inj heq]
  have hcells : cells { s with store := s.store.put v, queue := s.queue ++ [v] } = s.cells ++ encode v := by
    simp only [cells, List.flatMap_append, List.flatMap_singleton]
  have hlen := length_encode v
  have htop := (storeCells_ring s.store.storage (s.store.idx + s.cells.length)
    (show (encode v).length ≤ 2 ^ 32 by omega)).1
  have hn : 2 * s.queue.length ≤ s.cells.length := two_mul_length_le fun w hw => (h.items w hw).1
  refine ⟨⟨h.idx_eq, ?_, ?_, ?_, ?_, ?_, h.good⟩, rfl, rfl⟩
  · rw [hcells, DataStore.put, h.top_eq, htop, List.length_append]
    push_cast
    rw [add_assoc]
  · rw [hcells, DataStore.put, h.top_eq]
    exact h.holds.store (by omega)
  · rw [DataStore.put, List.length_append, List.length_singleton, h.n_eq]
    exact u32_of_lt (by omega)
  · rw [hcells, List.length_append]
    omega
  · intro w hw
    rcases List.mem_append.mp hw with hw | hw
    · exact h.items w hw
    · exact List.mem_singleton.mp hw ▸ ⟨hpos, hlt⟩

/-- The first cell is the counter of the first tuple. -/
theorem Inv.counter (h : s.Inv) (hq : s.queue = v :: ts) :
    s.store.storage (int32 (s.store.idx + 1)) = .integer v.length := by
  have hcells : s.cells = .integer v.length :: (v.reverse ++ ts.flatMap encode) := by
    rw [cells, hq, List.flatMap_cons, encode, List.cons_append]
  have hfirst := h.holds.cells 0 (by rw [hcells]; exact Nat.succ_pos _)
  rw [cellKey, Nat.cast_zero, add_zero] at hfirst
  rw [hfirst]
  simp only [hcells, List.getElem_cons_zero]

theorem Inv.cells_cons (h : s.Inv) (hq : s.queue = v :: ts) :
    s.cells = encode v ++ ts.flatMap encode ∧ (ts.flatMap encode).length + (v.length + 1) ≤ 2 ^ 32 ∧
      2 * ts.length ≤ (ts.flatMap encode).length ∧ v.length < 2 ^ 31 := by
  have hcells : s.cells = encode v ++ ts.flatMap encode := by rw [cells, hq, List.flatMap_cons]
  have hle := h.cells_le
  have hlen := length_encode v
  have hitems := h.items
  rw [hcells, List.length_append] at hle
  rw [hq] at hitems
  refine ⟨hcells, by omega, ?_, (hitems v List.mem_cons_self).2⟩
  exact two_mul_length_le fun w hw => (hitems w (List.mem_cons_of_mem v hw)).1

/-- What `get` does with the first tuple, apart from the loop over its cells. -/
theorem Inv.get_eq (h : s.Inv) (hq : s.queue = v :: ts) :
    s.store.get env self nargs =
      let k := int32 (s.store.idx + 1)
      let n := (int32 (k + v.length) - k).toNat
      let r := takeCells (Function.update s.store.storage k .nil) k n
      ({ storage := r.2
         idx := if ts.length = 0 then 0 else int32 (s.store.idx + (encode v).length)
         top := if ts.length = 0 then 0 else s.store.top
         n := ts.length },
        if n + 4 ≤ nargs + minStack then
          some (DataStore.luaResults v.length ([env, self, .integer v.length] ++ r.1))
        else none) := by
  obtain ⟨hcells, hle, hts, hlt⟩ := h.cells_cons hq
  have hlen := length_encode v
  have hnput : int32 (v.length : ℤ) = v.length := int32_of_range (by omega) (by omega)
  have hlast : int32 (int32 (s.store.idx + 1) + v.length) = int32 (s.store.idx + (encode v).length) := by
    rw [int32_int32_add, hlen, Nat.cast_add, Nat.cast_one, add_assoc, add_comm (1 : ℤ)]
  -- The last cell of the first tuple is the last one of all when there is no other tuple.
  have hempty : int32 (s.store.idx + (encode v).length) = s.store.top ↔ ts.length = 0 := by
    rw [h.top_eq, hcells, List.length_append]
    constructor
    · intro heq
      have hpos := int32_injOn heq (by omega) (by push_cast; omega)
      push_cast at hpos
      omega
    · intro hzero
      rw [List.length_eq_zero_iff.mp hzero]
      simp
  have hn : u32sub s.store.n 1 = ts.length := by
    have hsucc : s.store.n = ts.length + 1 := by rw [h.n_eq, hq, List.length_cons]
    have hsmall : s.store.n < 2 ^ 32 := by omega
    rw [u32sub_of_le (by omega) hsmall, hsucc, Nat.add_sub_cancel]
  simp only [DataStore.get, h.counter hq, Value.toInteger, hnput, hlast, hempty, hn, Int.toNat_natCast]

theorem luaResults_append (l r : List (Value α)) : DataStore.luaResults r.length (l ++ r) = r := by
  rw [DataStore.luaResults, List.length_append, Nat.add_sub_cancel, List.drop_left]

/-- A `get` in the range of `int`, with a tuple that fits on the stack, gives its tuple and keeps
the others. -/
theorem Inv.get (h : s.Inv) (hop : s.step env self (.get nargs) = some s') (hsafe : s.FirstBelow)
    (hfits : s.FirstFits nargs) :
    s'.Inv ∧ ∃ v ts, s.queue = v :: ts ∧ s'.queue = ts ∧
      (ts ≠ [] → s'.store.idx = int32 (s.store.idx + (encode v).length)) := by
  obtain ⟨hpos, heq⟩ := Option.ite_none_left_eq_some.mp hop
  cases hq : s.queue with
  | nil =>
      rw [h.n_eq, hq] at hpos
      exact absurd (Or.inr rfl) hpos
  | cons v ts =>
      obtain ⟨hcells, hle, hts, hlt⟩ := h.cells_cons hq
      have hlen := length_encode v
      have hbelow : int32 (s.store.idx + 1) + v.length < 2 ^ 31 := hsafe v (by rw [hq]; rfl)
      have hrange := (int32_range (s.store.idx + 1)).1
      have hkey : cellKey s.store.idx 0 = int32 (s.store.idx + 1) := by
        rw [cellKey, Nat.cast_zero, add_zero]
      have hsum : int32 (int32 (s.store.idx + 1) + v.length) - int32 (s.store.idx + 1) = v.length := by
        rw [int32_of_range (by omega) hbelow]
        omega
      have hholds := h.holds
      rw [hcells] at hholds
      obtain ⟨hv, hrest⟩ := hholds.take (by omega) (by rw [hkey]; exact hbelow)
      rw [hkey] at hv hrest
      rw [h.get_eq hq, hq] at heq
      have hroom : v.length + 4 ≤ nargs + minStack := hfits v (by rw [hq]; rfl)
      simp only [hsum, Int.toNat_natCast, hv, luaResults_append, if_pos hroom] at heq
      rw [← Option.some.inj heq]
      have hgood : ∀ g ∈ s.gets ++ [(v, some v)], g.2 = some g.1 := by
        intro g hg
        rcases List.mem_append.mp hg with hg | hg
        · exact h.good g hg
        · rw [List.mem_singleton.mp hg]
      have hitems : ∀ w ∈ ts, 0 < w.length ∧ w.length < 2 ^ 31 := fun w hw =>
        h.items w (by rw [hq]; exact List.mem_cons_of_mem v hw)
      refine ⟨?_, v, ts, rfl, rfl, fun hne => ?_⟩
      · cases ts with
        | nil =>
            have hzero : int32 0 = 0 := int32_of_range (by decide) (by decide)
            refine ⟨hzero, ?_, hrest.move 0, rfl, Nat.zero_le _, hitems, hgood⟩
            simp [cells, hzero]
        | cons w ts =>
            have hidem : int32 (int32 (s.store.idx + (encode v).length)) =
                int32 (s.store.idx + (encode v).length) :=
              int32_of_range (int32_range _).1 (int32_range _).2
            refine ⟨hidem, ?_, hrest.wrap, rfl, ?_, hitems, hgood⟩
            · have hne : (w :: ts).length ≠ 0 := Nat.succ_ne_zero ts.length
              simp only [if_neg hne, cells, List.tail_cons]
              rw [h.top_eq, hcells, int32_int32_add, List.length_append, Nat.cast_add, add_assoc]
            · exact le_trans (Nat.le_add_right _ _) hle
      · rw [if_neg (by rwa [List.length_eq_zero_iff])]

/-- The last result is the counter when the loop has not run. -/
theorem eq_concat_of_luaResults {n : ℕ} {c : Value α} (hn : 0 < n)
    (h : DataStore.luaResults n [env, self, c] = v) : ∃ l, v = l ++ [c] := by
  have hle : 3 - n ≤ [env, self].length := by
    rw [List.length_cons, List.length_singleton]
    omega
  refine ⟨[env, self].drop (3 - n), ?_⟩
  rw [← h, ← List.drop_append_of_le_length hle]
  rfl

/-- A `get` across the largest `int` leaves the cells of its tuple behind. -/
theorem Inv.firstBelow_of_fifo (h : s.Inv) (hop : s.step env self (.get nargs) = some s')
    (hfifo : s'.Fifo) : s.FirstBelow := by
  obtain ⟨-, heq⟩ := Option.ite_none_left_eq_some.mp hop
  intro v hv
  obtain ⟨ts, hq⟩ := List.head?_eq_some_iff.mp hv
  by_contra hacross
  obtain ⟨hcells, hle, -, hlt⟩ := h.cells_cons hq
  have hpos := (h.items v (by rw [hq]; exact List.mem_cons_self)).1
  have hlen := length_encode v
  have hkey : cellKey s.store.idx 0 = int32 (s.store.idx + 1) := by
    rw [cellKey, Nat.cast_zero, add_zero]
  -- The loop starts in front of its end.
  have hloop : (int32 (int32 (s.store.idx + 1) + v.length) - int32 (s.store.idx + 1)).toNat = 0 := by
    have hrange := (int32_range (s.store.idx + 1)).2
    rw [int32_of_ge (by omega) (by omega)]
    omega
  rw [h.get_eq hq, hq] at heq
  have hroom : 0 + 4 ≤ nargs + minStack := by
    unfold minStack
    omega
  simp only [hloop, takeCells, List.append_nil, if_pos hroom] at heq
  rw [← Option.some.inj heq] at hfifo
  obtain ⟨hgood, -, hholds⟩ := hfifo
  have hresult : DataStore.luaResults v.length [env, self, .integer v.length] = v :=
    Option.some.inj (hgood _ (List.mem_append_right _ (List.mem_singleton_self _)))
  obtain ⟨l, hl⟩ := eq_concat_of_luaResults hpos hresult
  -- So the second cell of the tuple holds its last item, which is an integer.
  have hrev : v.reverse = .integer v.length :: l.reverse := by
    calc v.reverse = (l ++ [Value.integer v.length]).reverse := congrArg List.reverse hl
      _ = .integer v.length :: l.reverse := by rw [List.reverse_append, List.reverse_singleton]; rfl
  have hcell : s.store.storage (cellKey s.store.idx 1) = .integer v.length := by
    have hlist : s.cells = .integer v.length :: .integer v.length ::
        (l.reverse ++ ts.flatMap encode) := by
      rw [hcells, encode, hrev]
      rfl
    rw [h.holds.cells 1 (by rw [hlist]; simp)]
    simp only [hlist, List.getElem_cons_succ, List.getElem_cons_zero]
  have hstays : Function.update s.store.storage (int32 (s.store.idx + 1)) .nil (cellKey s.store.idx 1) =
      .integer v.length := by
    rw [Function.update_of_ne, hcell]
    intro heq
    rw [← hkey] at heq
    exact absurd (cellKey_inj heq (by omega) (by omega)) (by omega)
  have hcleared : Function.update s.store.storage (int32 (s.store.idx + 1)) .nil (cellKey s.store.idx 1) =
      .nil := by
    refine hholds.rest _ fun j hj heq => ?_
    have hj' : j < (ts.flatMap encode).length := hj
    have hne : ts.length ≠ 0 := by
      intro hzero
      rw [List.length_eq_zero_iff.mp hzero] at hj'
      exact absurd hj' (Nat.not_lt_zero j)
    dsimp only at heq
    rw [if_neg hne, cellKey_int32, cellKey_add] at heq
    exact absurd (cellKey_inj heq (by omega) (by omega)) (by omega)
  rw [hstays] at hcleared
  cases hcleared

/-- A `get` of a tuple that runs over the end of the stack gives nothing. -/
theorem Inv.safe_of_fifo (h : s.Inv) (hop : s.step env self (.get nargs) = some s')
    (hfifo : s'.Fifo) : s.FirstBelow ∧ s.FirstFits nargs := by
  have hfirst := h.firstBelow_of_fifo hop hfifo
  obtain ⟨-, heq⟩ := Option.ite_none_left_eq_some.mp hop
  refine ⟨hfirst, fun v hv => ?_⟩
  obtain ⟨ts, hq⟩ := List.head?_eq_some_iff.mp hv
  have hbelow : int32 (s.store.idx + 1) + v.length < 2 ^ 31 := hfirst v hv
  have hrange := (int32_range (s.store.idx + 1)).1
  have hsum : int32 (int32 (s.store.idx + 1) + v.length) - int32 (s.store.idx + 1) = v.length := by
    rw [int32_of_range (by omega) hbelow]
    omega
  by_contra hlarge
  rw [h.get_eq hq] at heq
  simp only [hsum, Int.toNat_natCast, if_neg hlarge] at heq
  rw [← Option.some.inj heq] at hfifo
  have hresult := hfifo.1 _ (List.mem_append_right _ (List.mem_singleton_self _))
  exact absurd hresult (by simp)

end StoreRun

/-! ## The results -/

/-- **The storage as a queue.**  In a run from a new pool every `get` gives the items of the
oldest tuple and the storage holds no other cells, all along the run, if and only if no `get`
meets a tuple across the largest `int`, or one that does not fit on its stack. -/
theorem fifo_run_iff {α : Type*} (env self : Value α) {ops : List (StoreOp α)} {s : StoreRun α}
    (hrun : runOps (StoreRun.step env self) .init ops = some s) :
    (∀ pre s₁, pre <+: ops → runOps (StoreRun.step env self) .init pre = some s₁ → s₁.Fifo) ↔
      ∀ pre op s₁, pre ++ [op] <+: ops →
        runOps (StoreRun.step env self) .init pre = some s₁ → op.Safe s₁ := by
  refine forall_runOps_iff (A := StoreRun.Inv) (fun _ h => h.fifo) ?_ ?_ StoreRun.init_inv hrun
  · intro s₁ op s₂ hop h hsafe
    cases op with
    | put v => exact (h.put hop).1
    | get nargs => exact (h.get hop hsafe.1 hsafe.2).1
  · intro s₁ op s₂ hop h hfifo
    cases op with
    | put v => trivial
    | get nargs => exact h.safe_of_fifo hop hfifo

/-- Two tuples go through the storage. -/
theorem fifo_run_iff_twoTuples :
    ∃ s : StoreRun Unit, runOps (StoreRun.step (.other ()) (.other ())) .init
        [.put [.integer 7, .nil], .put [.other ()], .get 1, .get 2] = some s ∧
      s.gets = [([.integer 7, .nil], some [.integer 7, .nil]), ([.other ()], some [.other ()])] ∧
      s.Fifo := by
  obtain ⟨s, hrun, hgets⟩ : ∃ s : StoreRun Unit, runOps (StoreRun.step (.other ()) (.other ())) .init
      [.put [.integer 7, .nil], .put [.other ()], .get 1, .get 2] = some s ∧
      s.gets = [([.integer 7, .nil], some [.integer 7, .nil]), ([.other ()], some [.other ()])] :=
    ⟨_, rfl, rfl⟩
  have hsafe : ∀ {s : StoreRun Unit} {v : Tuple Unit} {nargs : ℕ}, s.queue.head? = some v →
      int32 (s.store.idx + 1) + v.length < 2 ^ 31 → v.length + 4 ≤ nargs + minStack →
      StoreOp.Safe s (.get nargs) := by
    intro s v nargs hv hlt hle
    refine ⟨fun w hw => ?_, fun w hw => ?_⟩
    · exact Option.some.inj (hv.symm.trans hw) ▸ hlt
    · exact Option.some.inj (hv.symm.trans hw) ▸ hle
  refine ⟨s, hrun, hgets, (fifo_run_iff _ _ hrun).mpr ?_ _ s (List.prefix_refl _) hrun⟩
  refine forall_steps_cons trivial fun s₁ hs₁ => forall_steps_cons trivial fun s₂ hs₂ => ?_
  obtain rfl := Option.some.inj hs₁
  obtain rfl := Option.some.inj hs₂
  refine forall_steps_cons (hsafe rfl (by decide) (by decide)) fun s₃ hs₃ => ?_
  obtain rfl := Option.some.inj hs₃
  exact forall_steps_cons (hsafe rfl (by decide) (by decide)) fun _ _ => forall_steps_nil

section undrained

variable {α : Type*} {env self x : Value α} {s : StoreRun α} {k : ℕ}

/-- One tuple goes in, and then always another one before the oldest comes out. -/
def backlogOps (x : Value α) : ℕ → List (StoreOp α)
  | 0 => [.put [x]]
  | k + 1 => backlogOps x k ++ [.put [x], .get 1]

/-- One item is stored behind a tuple at most. -/
theorem exists_put (h : s.Inv) (hlen : s.cells.length ≤ 2) :
    ∃ s₁, s.step env self (.put [x]) = some s₁ ∧ s₁.Inv ∧ s₁.queue = s.queue ++ [[x]] ∧
      s₁.store.idx = s.store.idx := by
  have hroom : 0 < [x].length ∧ [x].length < 2 ^ 31 ∧ s.cells.length + ([x].length + 1) ≤ 2 ^ 32 := by
    rw [List.length_singleton]
    omega
  have hput : s.step env self (.put [x]) =
      some { s with store := s.store.put [x], queue := s.queue ++ [[x]] } := if_pos hroom
  exact ⟨_, hput, h.put hput⟩

/-- One round of a pool with a tuple. -/
theorem backlog_round (env self : Value α) (h : s.Inv) (hq : s.queue = [[x]]) :
    ∃ s₁ s', s.step env self (.put [x]) = some s₁ ∧ s₁.step env self (.get 1) = some s' ∧
      s₁.Inv ∧ s₁.queue = [[x], [x]] ∧ s₁.store.idx = s.store.idx := by
  have hcells : s.cells.length = 2 := by rw [StoreRun.cells, hq]; rfl
  obtain ⟨s₁, hput, hinv, hqueue, hidx⟩ := exists_put h hcells.le
  rw [hq] at hqueue
  have hn : s₁.store.n ≠ 0 := by
    rw [hinv.n_eq, hqueue]
    exact Nat.succ_ne_zero 1
  exact ⟨s₁, _, hput, if_neg (by simpa using hn), hinv, hqueue, hidx⟩

theorem firstBelow_iff (hq : s.queue = [[x], [x]]) :
    s.FirstBelow ↔ int32 (s.store.idx + 1) + 1 < 2 ^ 31 := by
  rw [StoreRun.FirstBelow, hq]
  simp

/-- One item fits on the stack. -/
theorem firstFits_one (hq : s.queue = [[x], [x]]) : s.FirstFits 1 := by
  intro v hv
  rw [hq, List.head?_cons, Option.mem_some_iff] at hv
  rw [← hv, List.length_singleton]
  decide

/-- The indexes run through the range of `int`. -/
theorem backlog_run (env self x : Value α) (hk : k < 2 ^ 30) :
    ∃ s, runOps (StoreRun.step env self) .init (backlogOps x k) = some s ∧ s.Inv ∧ s.queue = [[x]] ∧
      s.store.idx = 2 * k := by
  induction k with
  | zero =>
      obtain ⟨s, hput, hinv, hq, hidx⟩ :=
        @exists_put α env self x .init StoreRun.init_inv (Nat.zero_le 2)
      refine ⟨s, ?_, hinv, hq, hidx⟩
      exact Option.bind_eq_some_iff.mpr ⟨s, hput, rfl⟩
  | succ k ih =>
      obtain ⟨s, hs, hinv, hq, hidx⟩ := ih (by omega)
      obtain ⟨s₁, s', hput, hget, hinv₁, hq₁, hidx₁⟩ := backlog_round env self hinv hq
      have hsmall : int32 (s₁.store.idx + 1) = 2 * k + 1 := by
        rw [hidx₁, hidx]
        exact int32_of_range (by omega) (by omega)
      have hbelow : s₁.FirstBelow := by
        rw [firstBelow_iff hq₁, hsmall]
        omega
      obtain ⟨hinv', v, ts, hqv, hq', hidx'⟩ := hinv₁.get hget hbelow (firstFits_one hq₁)
      obtain ⟨rfl, rfl⟩ := List.cons.inj (hq₁.symm.trans hqv)
      refine ⟨s', runOps_trans hs ?_, hinv', hq', ?_⟩
      · exact Option.bind_eq_some_iff.mpr ⟨s₁, hput, Option.bind_eq_some_iff.mpr ⟨s', hget, rfl⟩⟩
      · have hround : s₁.store.idx + (encode [x]).length = 2 * (k + 1 : ℕ) := by
          rw [hidx₁, hidx, length_encode, List.length_singleton]
          push_cast
          omega
        rw [hidx' (by simp), hround]
        exact int32_of_range (by omega) (by omega)

/-- After `2 ^ 30` rounds a tuple lies across the largest `int`. -/
theorem backlog_fails (env self x : Value α) :
    ∃ s, runOps (StoreRun.step env self) .init (backlogOps x (2 ^ 30)) = some s ∧ ¬s.Fifo := by
  obtain ⟨n, hn⟩ : ∃ n, n = 2 ^ 30 - 1 := ⟨_, rfl⟩
  have hops : backlogOps x (2 ^ 30) = backlogOps x n ++ [.put [x], .get 1] := by
    rw [show 2 ^ 30 = n + 1 by omega, backlogOps]
  obtain ⟨s, hs, hinv, hq, hidx⟩ := backlog_run env self x (show n < 2 ^ 30 by omega)
  obtain ⟨s₁, s', hput, hget, hinv₁, hq₁, hidx₁⟩ := backlog_round env self hinv hq
  have hlast : int32 (s₁.store.idx + 1) = 2 * n + 1 := by
    rw [hidx₁, hidx]
    exact int32_of_range (by omega) (by omega)
  have hacross : ¬s₁.FirstBelow := by
    rw [firstBelow_iff hq₁, hlast]
    omega
  refine ⟨s', ?_, fun hfifo => hacross (hinv₁.firstBelow_of_fifo hget hfifo)⟩
  rw [hops]
  refine runOps_trans hs ?_
  exact Option.bind_eq_some_iff.mpr ⟨s₁, hput, Option.bind_eq_some_iff.mpr ⟨s', hget, rfl⟩⟩

end undrained

/-- A pool that is never drained fails. -/
theorem undrained_pool_fails :
    ∃ s : StoreRun Unit, runOps (StoreRun.step (.other ()) (.other ())) .init
      (backlogOps (.integer 7) (2 ^ 30)) = some s ∧ ¬s.Fifo :=
  backlog_fails (.other ()) (.other ()) (.integer 7)

end LuaSys.Thread
