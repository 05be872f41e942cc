import LuaSys.Thread.DataPool
import Mathlib.Data.List.Perm.Basic

/-!
# The tuples of a data pool

A tuple that `put` has accepted is in the storage, on the stack of the one writer that
offers it, or has been returned by `get`.  Each step moves at most one tuple, in one of
the ways that `FlowChange` lists; what is kept of them all together, and in which order,
follows from these.

The storage is a queue, but an offer is looked at before the storage.  A reader that has
been woken up for an older tuple may find an offer made meanwhile and return it first.

## Main definitions

* `DataPool.Flow` — the storage, the offer and the phases of the threads fit together.
* `DataPool.Conserved` — the tuples returned, stored and offered are those accepted.
* `DataPool.InOrder` — the tuples are returned in the order in which they were accepted.
* `PoolOp.Fits` — a tuple that is stored fits on the stack of `get`, and its cells have indexes
  below `2 ^ 31`.

## Main results

* `fitting_run_conserved` — no tuple is lost, duplicated or changed.
* `callback_tuple_not_accepted` — tuples of the callback `get_on_empty` do not come from
  `put`.
* `safe_run_inOrder` — one writer and one reader keep the order, as long as no offer is
  taken while the storage holds a tuple.
* `offer_overtakes` — a run of one writer and one reader that does not keep it.
-/

namespace LuaSys.Thread

open LuaSys.Lib

/-- A waiting writer has a tuple to put. -/
def PoolPhase.Filled {α : Type*} : PoolPhase α → Prop
  | .putWait v | .putWoken v => v ≠ []
  | _ => True

namespace DataPool

section

variable {θ α : Type*}

/-- The cells of the tuple have indexes of an `int` when it is stored, and `get` has room for
its items. -/
def Room (s : DataPool θ α) (v : Tuple α) : Prop :=
  s.top + v.length + 1 < 2 ^ 31 ∧ FitsStack v

/-- A new tuple is offered to a reader first. -/
def Direct (s : DataPool θ α) : Prop := s.nwaits ≠ 0 ∧ s.L = none

/-- The tuple that is being handed over. -/
def offers (s : DataPool θ α) : List (Tuple α) :=
  match s.L with
  | none => []
  | some w =>
      match s.phase w with
      | .offering [] => []
      | .offering v => [v]
      | _ => []

/-- The storage holds `ts`, and `L` and `nput` describe the only offer. -/
structure Flow (s : DataPool θ α) (ts : List (Tuple α)) : Prop where
  stored : StoredAt s.storage s.idx s.top ts
  count : s.n = ts.length
  fits : ∀ v ∈ ts, FitsStack v
  running : ∀ t, s.vm = some t → s.phase t = .running
  offer : ∀ w, s.L = some w → ∃ v, s.phase w = .offering v ∧ s.nput = v.length
  offering : ∀ t v, s.phase t = .offering v → s.L = some t
  no_offer : s.L = none → s.nput = 0
  filled : ∀ t, (s.phase t).Filled

theorem init_flow : (init : DataPool θ α).Flow [] := by
  refine ⟨storedAt_nil _, rfl, ?_, ?_, ?_, ?_, fun _ => rfl, fun _ => trivial⟩ <;> simp [init]

/-- The tuples that `get` has taken from the pool, those in the storage and the one that is
being handed over are the tuples that `put` has accepted, and `get` has room for those in the
storage. -/
def Conserved (s : DataPool θ α) : Prop :=
  ∃ ts, StoredAt s.storage s.idx s.top ts ∧ s.n = ts.length ∧ (∀ v ∈ ts, FitsStack v) ∧
    (s.returned ++ ts ++ s.offers).Perm s.accepted

/-- The tuples are returned in the order in which they have been accepted. -/
def InOrder (s : DataPool θ α) : Prop := s.returned <+: s.accepted

/-- The data of the pool are the same. -/
structure SameData (s s' : DataPool θ α) : Prop where
  storage : s'.storage = s.storage
  idx : s'.idx = s.idx
  top : s'.top = s.top
  n : s'.n = s.n
  L : s'.L = s.L
  nput : s'.nput = s.nput

variable {s s' : DataPool θ α} {ts : List (Tuple α)} {t : θ} {v : Tuple α}

theorem Flow.offers_eq (h : s.Flow ts) {w : θ} (hL : s.L = some w) :
    ∃ v, s.phase w = .offering v ∧ s.nput = v.length ∧ s.offers = if v = [] then [] else [v] := by
  obtain ⟨v, hv, hn⟩ := h.offer w hL
  refine ⟨v, hv, hn, ?_⟩
  cases v <;> simp [offers, hL, hv]

/-- The writer that offers its tuple. -/
theorem Flow.offers_of_offering (h : s.Flow ts) (ht : s.phase t = .offering v) :
    s.nput = v.length ∧ s.offers = if v = [] then [] else [v] := by
  obtain ⟨v', hv', hlen, hoff⟩ := h.offers_eq (h.offering t v ht)
  obtain rfl := PoolPhase.offering.inj (ht.symm.trans hv')
  exact ⟨hlen, hoff⟩

theorem offers_of_none (hL : s.L = none) : s.offers = [] := by
  simp [offers, hL]

/-- A thread outside of an offer moves on, or nothing of this changes. -/
theorem Flow.move (h : s.Flow ts) (hdata : SameData s s')
    (hphase : ∀ t', t' ≠ t → s'.phase t' = s.phase t') (hold : ∀ v, s.phase t ≠ .offering v)
    (hnew : ∀ v, s'.phase t ≠ .offering v) (hfilled : (s'.phase t).Filled)
    (hvm : ∀ t', s'.vm = some t' → t' = t ∧ s'.phase t = .running ∨ t' ≠ t ∧ s.vm = some t') :
    s'.Flow ts ∧ s'.offers = s.offers := by
  have hne : ∀ w, s.L = some w → w ≠ t := by
    rintro w hL rfl
    obtain ⟨v, hv, -⟩ := h.offer w hL
    exact hold v hv
  refine ⟨⟨?_, ?_, h.fits, fun t' ht' => ?_, fun w hL => ?_, fun t' v hv => ?_, fun hL => ?_,
    fun t' => ?_⟩, ?_⟩
  · rw [hdata.storage, hdata.idx, hdata.top]
    exact h.stored
  · rw [hdata.n]
    exact h.count
  · rcases hvm t' ht' with ⟨rfl, hrun⟩ | ⟨hne', hvm'⟩
    · exact hrun
    · rw [hphase t' hne']
      exact h.running t' hvm'
  · rw [hdata.L] at hL
    rw [hphase w (hne w hL), hdata.nput]
    exact h.offer w hL
  · have hne' : t' ≠ t := by
      rintro rfl
      exact hnew v hv
    rw [hphase t' hne'] at hv
    rw [hdata.L]
    exact h.offering t' v hv
  · rw [hdata.L] at hL
    rw [hdata.nput]
    exact h.no_offer hL
  · by_cases ht : t' = t
    · rw [ht]
      exact hfilled
    · rw [hphase t' ht]
      exact h.filled t'
  · unfold offers
    rw [hdata.L]
    cases hL : s.L with
    | none => rfl
    | some w => simp only [hphase w (hne w hL)]

/-- The storage changes, and with it only fields that do not matter here. -/
theorem Flow.refill (h : s.Flow ts) {ts' : List (Tuple α)} (hvm : s'.vm = s.vm)
    (hphase : s'.phase = s.phase) (hL : s'.L = s.L) (hnput : s'.nput = s.nput)
    (hstored : StoredAt s'.storage s'.idx s'.top ts') (hcount : s'.n = ts'.length)
    (hfits : ∀ v ∈ ts', FitsStack v) : s'.Flow ts' ∧ s'.offers = s.offers := by
  refine ⟨⟨hstored, hcount, hfits, ?_, ?_, ?_, ?_, ?_⟩, ?_⟩
  · rw [hvm, hphase]
    exact h.running
  · rw [hL, hnput, hphase]
    exact h.offer
  · rw [hL, hphase]
    exact h.offering
  · rw [hL, hnput]
    exact h.no_offer
  · rw [hphase]
    exact h.filled
  · rw [offers, offers, hL, hphase]

/-- Only other fields change. -/
theorem Flow.congr (h : s.Flow ts) (hdata : SameData s s') (hvm : s'.vm = s.vm)
    (hphase : s'.phase = s.phase) : s'.Flow ts ∧ s'.offers = s.offers := by
  refine h.refill hvm hphase hdata.L hdata.nput ?_ (hdata.n.trans h.count) h.fits
  rw [hdata.storage, hdata.idx, hdata.top]
  exact h.stored

/-- A thread with the VM lock is not in an offer. -/
theorem Flow.not_offering (h : s.Flow ts) (ht : s.vm = some t) (v : Tuple α) :
    s.phase t ≠ .offering v := by
  rw [h.running t ht]
  simp

theorem Flow.filled_of {p : PoolPhase α} (h : s.Flow ts) (hp : s.phase t = p) : p.Filled := by
  rw [← hp]
  exact h.filled t

/-- Each tuple has a cell, so their number is small. -/
theorem length_le_flatMap_encode (ts : List (Tuple α)) : ts.length ≤ (ts.flatMap encode).length := by
  induction ts with
  | nil => simp
  | cons v ts ih =>
      rw [List.length_cons, List.flatMap_cons, List.length_append, length_encode]
      omega

theorem Flow.length_lt (h : s.Flow ts) : ts.length < 2 ^ 31 := by
  have := length_le_flatMap_encode ts
  have := h.stored.top_eq
  have := h.stored.top_lt
  have := h.stored.idx_nonneg
  omega

/-- Taking a tuple from the storage leaves the rest of the pool as it is. -/
theorem taken_frame (s : DataPool θ α) (last : ℤ) (v : Tuple α) (storage : ℤ → Value α) :
    (s.taken last v storage).returned = s.returned ++ [v] ∧
      (s.taken last v storage).accepted = s.accepted ∧ (s.taken last v storage).vm = s.vm ∧
      (s.taken last v storage).phase = s.phase ∧ (s.taken last v storage).L = s.L ∧
      (s.taken last v storage).nput = s.nput := by
  cases s
  exact ⟨rfl, rfl, rfl, rfl, rfl, rfl⟩

/-- A tuple is stored. -/
theorem Flow.store (h : s.Flow ts) (hfits : s.Room v) :
    (s.store v).Flow (ts ++ [v]) ∧ (s.store v).offers = s.offers := by
  have hlt := h.length_lt
  refine h.refill rfl rfl rfl rfl (h.stored.store hfits.1) ?_ fun w hw => ?_
  · change u32 (s.n + 1) = _
    rw [h.count, u32_of_lt (by omega), List.length_append, List.length_singleton]
  · rcases List.mem_append.mp hw with hw | hw
    · exact h.fits w hw
    · exact List.mem_singleton.mp hw ▸ hfits.2

/-- The first tuple leaves the storage. -/
theorem Flow.takeStored (h : s.Flow (v :: ts)) :
    s.takeStored.Flow ts ∧ s.takeStored.offers = s.offers ∧
      s.takeStored.returned = s.returned ++ [v] ∧ s.takeStored.accepted = s.accepted ∧
      s.takeStored.phase = s.phase := by
  have hlt := h.length_lt
  have hst := h.stored
  have hidx := hst.idx_nonneg
  have htop := hst.top_eq
  have htoplt := hst.top_lt
  have hlen := length_encode v
  rw [List.flatMap_cons, List.length_append] at htop
  obtain ⟨hcount, htake, hrest⟩ := hst.take
  have h₁ : int32 (s.idx + 1) = s.idx + 1 := int32_of_range (by omega) (by omega)
  have h₂ : int32 (v.length : ℤ) = v.length := int32_of_range (by omega) (by omega)
  have h₃ : int32 (s.idx + 1 + v.length) = s.idx + 1 + v.length :=
    int32_of_range (by omega) (by omega)
  have h₄ : (s.idx + 1 + v.length - (s.idx + 1)).toNat = v.length := by omega
  have hn : u32sub s.n 1 = ts.length := by
    rw [List.length_cons] at hlt
    rw [h.count, List.length_cons, u32sub_of_le (by omega) (by omega), Nat.add_sub_cancel]
  simp only [DataPool.takeStored, h₁, hcount, h₂, h₃, h₄, htake]
  generalize (takeCells (Function.update s.storage (s.idx + 1) .nil) (s.idx + 1) v.length).2 =
    storage at hrest ⊢
  obtain ⟨hret, hacc, hvm, hphase, hL, hnput⟩ := s.taken_frame (s.idx + 1 + v.length) v storage
  have hstored : StoredAt storage (if s.idx + 1 + v.length = s.top then 0 else s.idx + 1 + v.length)
      (if s.idx + 1 + v.length = s.top then 0 else s.top) ts := by
    by_cases hlast : s.idx + 1 + v.length = s.top
    · rw [if_pos hlast, if_pos hlast]
      have hnil : ts = [] := by
        have := length_le_flatMap_encode ts
        rw [← List.length_eq_zero_iff]
        omega
      rw [hnil]
      exact storedAt_nil _
    · rw [if_neg hlast, if_neg hlast]
      exact hrest
  obtain ⟨hflow, hoff⟩ := h.refill hvm hphase hL hnput hstored hn fun w hw =>
    h.fits w (List.mem_cons_of_mem v hw)
  exact ⟨hflow, hoff, hret, hacc, hphase⟩

end

variable {θ α : Type*} [DecidableEq θ] {s s' : DataPool θ α} {ts : List (Tuple α)} {t : θ}
  {v : Tuple α}

@[simp] theorem proceed_accepted (s : DataPool θ α) (t : θ) :
    (s.proceed t).accepted = s.accepted := rfl

@[simp] theorem proceed_L (s : DataPool θ α) (t : θ) : (s.proceed t).L = s.L := rfl

@[simp] theorem proceed_returned (s : DataPool θ α) (t : θ) :
    (s.proceed t).returned = s.returned := rfl

/-- The thread that takes a step and has not been in an offer goes on. -/
theorem Flow.proceed (h : s.Flow ts) (hold : ∀ v, s.phase t ≠ .offering v) :
    (s.proceed t).Flow ts ∧ (s.proceed t).offers = s.offers := by
  refine h.move (t := t) ⟨rfl, rfl, rfl, rfl, rfl, rfl⟩ (fun t' hne => Function.update_of_ne hne _ _)
    hold (by simp [DataPool.proceed]) (by simp [DataPool.proceed, PoolPhase.Filled]) fun t' ht' => Or.inl ⟨?_, by simp [DataPool.proceed]⟩
  exact (Option.some.inj ht').symm

/-- The thread that takes a step and has not been in an offer is blocked. -/
theorem Flow.block (h : s.Flow ts) (hold : ∀ v, s.phase t ≠ .offering v) {p : PoolPhase α}
    (hnew : ∀ v, p ≠ .offering v) (hfilled : p.Filled) :
    (s.block t p).Flow ts ∧ (s.block t p).offers = s.offers := by
  refine h.move (t := t) ⟨rfl, rfl, rfl, rfl, rfl, rfl⟩ (fun t' hne => Function.update_of_ne hne _ _)
    hold (by simpa [DataPool.block] using hnew) (by simpa [DataPool.block] using hfilled) fun t' ht' => ?_
  exact absurd ht' (by simp [DataPool.block])

/-- The end of `dpool_put`: the tuple is offered or stored. -/
theorem Flow.deliver (h : s.Flow ts) (hold : ∀ v, s.phase t ≠ .offering v) (hv : v ≠ [])
    (hfits : ¬s.Direct → s.Room v) :
    (s.deliver t v).returned = s.returned ∧ (s.deliver t v).accepted = s.accepted ++ [v] ∧
      (s.L = none ∧ (s.deliver t v).Flow ts ∧ (s.deliver t v).offers = [v] ∨
        (s.deliver t v).Flow (ts ++ [v]) ∧ (s.deliver t v).offers = s.offers) := by
  unfold DataPool.deliver
  dsimp only
  by_cases hdirect : s.nwaits ≠ 0 ∧ s.L = none
  · rw [if_pos hdirect]
    have hother : ∀ t' v', t' ≠ t → s.phase t' ≠ .offering v' := by
      intro t' v' _ hv'
      have := h.offering t' v' hv'
      simp [hdirect.2] at this
    refine ⟨rfl, rfl, Or.inl ⟨hdirect.2, ⟨h.stored, h.count, h.fits, ?_, ?_, ?_, ?_, ?_⟩, ?_⟩⟩
    · exact fun t' ht' => absurd ht' (by simp [DataPool.block])
    · intro w hw
      obtain rfl : t = w := Option.some.inj hw
      exact ⟨v, by simp [DataPool.block], rfl⟩
    · intro t' v' hv'
      by_cases ht : t' = t
      · rw [ht]
        rfl
      · simp only [DataPool.block, Function.update_of_ne ht] at hv'
        exact absurd hv' (hother t' v' ht)
    · exact fun hL => absurd hL (by simp [DataPool.block])
    · intro t'
      by_cases ht : t' = t
      · simp [ht, DataPool.block, PoolPhase.Filled]
      · simp only [DataPool.block, Function.update_of_ne ht]
        exact h.filled t'
    · cases v with
      | nil => exact absurd rfl hv
      | cons a l => simp [offers, DataPool.block]
  · rw [if_neg hdirect]
    have hdata : SameData s { s with accepted := s.accepted ++ [v] } :=
      ⟨rfl, rfl, rfl, rfl, rfl, rfl⟩
    obtain ⟨hflow, hoff⟩ := h.congr hdata rfl rfl
    obtain ⟨hstore, hoff'⟩ := hflow.store (v := v) (hfits hdirect)
    obtain ⟨hgo, hgo'⟩ := hstore.proceed (t := t) hold
    exact ⟨rfl, rfl, Or.inr ⟨hgo, hgo'.trans (hoff'.trans hoff)⟩⟩

/-- The loop of `dpool_get`: a stored tuple is returned, or the thread waits. -/
theorem Flow.getLoop (h : s.Flow ts) (hold : ∀ v, s.phase t ≠ .offering v) :
    (s.getLoop t).accepted = s.accepted ∧ (s.getLoop t).offers = s.offers ∧
      ((∃ v ts', ts = v :: ts' ∧ (s.getLoop t).Flow ts' ∧
          (s.getLoop t).returned = s.returned ++ [v]) ∨
        (s.getLoop t).Flow ts ∧ (s.getLoop t).returned = s.returned) := by
  unfold DataPool.getLoop
  by_cases hn : s.n ≠ 0
  · rw [if_pos hn]
    cases ts with
    | nil => exact absurd h.count (by simpa using hn)
    | cons v ts =>
        obtain ⟨htake, hoff, hret, hacc, hphase⟩ := h.takeStored
        obtain ⟨hgo, hoff'⟩ := htake.proceed (t := t) (by rw [hphase]; exact hold)
        refine ⟨?_, hoff'.trans hoff, Or.inl ⟨v, ts, rfl, hgo, ?_⟩⟩
        · rw [proceed_accepted, hacc]
        · rw [proceed_returned, hret]
  · rw [if_neg hn]
    have hdata : SameData s { s with nwaits := int32 (s.nwaits + 1) } :=
      ⟨rfl, rfl, rfl, rfl, rfl, rfl⟩
    obtain ⟨hflow, hoff⟩ := h.congr hdata rfl rfl
    obtain ⟨hgo, hgo'⟩ := hflow.block (t := t) (p := .getWait) hold (by simp) trivial
    exact ⟨rfl, hgo'.trans hoff, Or.inr ⟨hgo, rfl⟩⟩

/-- A tuple goes from the stack of the writer to that of a reader. -/
theorem Flow.handOver (h : s.Flow ts) (hn : s.nput ≠ 0) (hrun : s.handOver = some s') :
    ∃ v, s.offers = [v] ∧ s'.offers = [] ∧ s'.returned = s.returned ++ [v] ∧
      s'.accepted = s.accepted ∧ s'.L = s.L ∧ s'.Flow ts ∧
      ∀ t, (∀ v, s.phase t ≠ .offering v) → ∀ v, s'.phase t ≠ .offering v := by
  cases hL : s.L with
  | none => exact absurd (h.no_offer hL) hn
  | some w =>
      obtain ⟨v, hw, hlen, hoff⟩ := h.offers_eq hL
      have hv : v ≠ [] := by
        rintro rfl
        exact hn hlen
      have hsub : v.length - s.nput = 0 := by omega
      simp only [DataPool.handOver, hL, hw, hsub, List.drop_zero, List.take_zero,
        Option.some.injEq] at hrun
      rw [← hrun]
      refine ⟨v, by rw [hoff, if_neg hv], by simp [offers], rfl, rfl, rfl, ?_, ?_⟩
      · refine ⟨h.stored, h.count, h.fits, fun t ht => ?_, fun w' hw' => ?_, fun t v' hv' => ?_, ?_,
          fun t => ?_⟩
        · have hne : t ≠ w := by
            rintro rfl
            exact h.not_offering ht v hw
          simp only [Function.update_of_ne hne]
          exact h.running t ht
        · obtain rfl : w = w' := Option.some.inj hw'
          exact ⟨[], by simp, rfl⟩
        · by_cases ht : t = w
          · rw [ht]
          · simp only [Function.update_of_ne ht] at hv'
            exact hL.symm.trans (h.offering t v' hv')
        · exact fun hnone => absurd hnone (by simp)
        · by_cases ht : t = w
          · simp [ht, PoolPhase.Filled]
          · simp only [Function.update_of_ne ht]
            exact h.filled t
      · intro t ht v'
        have hne : t ≠ w := by
          rintro rfl
          exact ht v hw
        simp only [Function.update_of_ne hne]
        exact ht v'

/-- The writer goes on after its offer, which is no longer there. -/
theorem Flow.withdraw (h : s.Flow ts) (ht : s.phase t = .offering v) :
    (({ s with L := none, nput := 0 } : DataPool θ α).proceed t).Flow ts ∧
      (({ s with L := none, nput := 0 } : DataPool θ α).proceed t).offers = [] := by
  refine ⟨⟨h.stored, h.count, h.fits, fun t' ht' => ?_, ?_, fun t' v' hv' => ?_, fun _ => rfl,
    fun t' => ?_⟩, rfl⟩
  · obtain rfl : t = t' := Option.some.inj ht'
    simp [DataPool.proceed]
  · exact fun w hw => absurd hw (by simp [DataPool.proceed])
  · by_cases heq : t' = t
    · exact absurd hv' (by simp [heq, DataPool.proceed])
    · simp only [DataPool.proceed, Function.update_of_ne heq] at hv'
      have hL := (h.offering t' v' hv').symm.trans (h.offering t v ht)
      exact absurd (Option.some.inj hL) heq
  · by_cases heq : t' = t
    · simp [heq, DataPool.proceed, PoolPhase.Filled]
    · simp only [DataPool.proceed, Function.update_of_ne heq]
      exact h.filled t'

/-! ## What a step does -/

end DataPool

section

variable {θ α : Type*}

/-- The thread of a step in `dpool_put`. -/
def PoolOp.writer : PoolOp θ α → Option θ
  | .put t _ | .putReturn t _ | .putThrow t | .putConsume t | .putFail t | .putResume t _
  | .offerDone t => some t
  | _ => none

/-- The thread of a step in `dpool_get`. -/
def PoolOp.reader : PoolOp θ α → Option θ
  | .get t | .getReturn t _ | .getThrow t | .getConsume t | .getFail t | .getResume t _ => some t
  | _ => none

/-- The cells of the tuple that the step stores, if it does, have indexes of an `int`, and its
items fit on the stack of `get`. -/
def PoolOp.Fits (s : DataPool θ α) : PoolOp θ α → Prop
  | .put _ v => s.n < s.max → ¬s.Direct → s.Room v
  | .putReturn _ v => v ≠ [] → ¬s.Direct → s.Room v
  | .putResume t error =>
      error = false → s.n < s.max → ¬s.Direct → ∀ v, s.phase t = .putWoken v → s.Room v
  | .offerDone t => s.nput ≠ 0 → ∀ v, s.phase t = .offering v → s.Room v
  | _ => True

/-- The tuple that a step moves: `ts` and `ts'` are in the storage before and after it. -/
inductive FlowChange (op : PoolOp θ α) (s s' : DataPool θ α) (ts : List (Tuple α)) :
    List (Tuple α) → Prop
  | same (returned : s'.returned = s.returned) (accepted : s'.accepted = s.accepted)
      (offers : s'.offers = s.offers) : FlowChange op s s' ts ts
  /-- A new tuple, of a writer that does not offer one. -/
  | stored (t : θ) (v : Tuple α) (writer : op.writer = some t)
      (free : ∀ u, s.phase t ≠ .offering u) (returned : s'.returned = s.returned)
      (accepted : s'.accepted = s.accepted ++ [v]) (offers : s'.offers = s.offers) :
      FlowChange op s s' ts (ts ++ [v])
  | offered (v : Tuple α) (none_before : s.offers = []) (returned : s'.returned = s.returned)
      (accepted : s'.accepted = s.accepted ++ [v]) (offers : s'.offers = [v]) :
      FlowChange op s s' ts ts
  /-- The offer has not been taken. -/
  | settled (v : Tuple α) (before : s.offers = [v]) (returned : s'.returned = s.returned)
      (accepted : s'.accepted = s.accepted) (offers : s'.offers = []) :
      FlowChange op s s' ts (ts ++ [v])
  | taken (v : Tuple α) (ts' : List (Tuple α)) (first : ts = v :: ts')
      (returned : s'.returned = s.returned ++ [v]) (accepted : s'.accepted = s.accepted)
      (offers : s'.offers = s.offers) : FlowChange op s s' ts ts'
  | handed (t : θ) (v : Tuple α) (resume : op = .getResume t false) (nput : s.nput ≠ 0)
      (before : s.offers = [v]) (returned : s'.returned = s.returned ++ [v])
      (accepted : s'.accepted = s.accepted) (offers : s'.offers = []) : FlowChange op s s' ts ts

end

/-! ### What a moved tuple means for all of them -/

section

variable {θ α : Type*} {op : PoolOp θ α} {s s' : DataPool θ α} {ts ts' : List (Tuple α)}

/-- A step that moves a tuple keeps all of them. -/
theorem FlowChange.perm (hchange : FlowChange op s s' ts ts')
    (h : (s.returned ++ ts ++ s.offers).Perm s.accepted) :
    (s'.returned ++ ts' ++ s'.offers).Perm s'.accepted := by
  have hpast : ∀ (v : Tuple α) (a b : List (Tuple α)), (a ++ [v] ++ b).Perm (a ++ b ++ [v]) := by
    intro v a b
    rw [List.append_assoc, List.append_assoc]
    exact List.Perm.append_left a List.perm_append_comm
  cases hchange with
  | same hret hacc hoff =>
      rw [hret, hacc, hoff]
      exact h
  | stored t v _ _ hret hacc hoff =>
      rw [hret, hacc, hoff, ← List.append_assoc]
      exact (hpast v _ _).trans (h.append_right [v])
  | offered v hnone hret hacc hoff =>
      rw [hnone, List.append_nil] at h
      rw [hret, hacc, hoff]
      exact h.append_right [v]
  | settled v hbefore hret hacc hoff =>
      rw [hbefore, List.append_assoc] at h
      rw [hret, hacc, hoff, List.append_nil]
      exact h
  | taken v _ hfirst hret hacc hoff =>
      rw [hfirst, List.append_cons] at h
      rw [hret, hacc, hoff]
      exact h
  | handed t v _ _ hbefore hret hacc hoff =>
      rw [hbefore] at h
      rw [hret, hacc, hoff, List.append_nil]
      exact (hpast v _ _).trans h

/-- The tuples stay in order, if a tuple is stored only when none is offered, and handed
over only when none is stored. -/
theorem FlowChange.queue (hchange : FlowChange op s s' ts ts')
    (h : s.returned ++ ts ++ s.offers = s.accepted)
    (hstored : ∀ t, op.writer = some t → (∀ u, s.phase t ≠ .offering u) → s.offers = [])
    (hhanded : ∀ t, op = .getResume t false → s.nput ≠ 0 → ts = []) :
    s'.returned ++ ts' ++ s'.offers = s'.accepted := by
  cases hchange with
  | same hret hacc hoff => rw [hret, hacc, hoff, h]
  | stored t v hw hfree hret hacc hoff =>
      have hnone := hstored t hw hfree
      rw [hnone, List.append_nil] at h
      rw [hret, hacc, hoff, hnone, ← h, List.append_nil, List.append_assoc]
  | offered v hnone hret hacc hoff =>
      rw [hnone, List.append_nil] at h
      rw [hret, hacc, hoff, h]
  | settled v hbefore hret hacc hoff =>
      rw [hret, hacc, hoff, ← h, hbefore, List.append_nil, List.append_assoc]
  | taken v _ hfirst hret hacc hoff =>
      rw [hfirst, List.append_cons] at h
      rw [hret, hacc, hoff, h]
  | handed t v hop hn hbefore hret hacc hoff =>
      have hnil := hhanded t hop hn
      rw [hnil, hbefore, List.append_nil] at h
      rw [hret, hacc, hoff, hnil, List.append_nil, List.append_nil, h]

end

namespace DataPool

section

variable {θ α : Type*} {s s' : DataPool θ α} {ts : List (Tuple α)} {op : PoolOp θ α}

/-- The flow after a step, and the tuple that has been moved. -/
def Flows (op : PoolOp θ α) (s s' : DataPool θ α) (ts : List (Tuple α)) : Prop :=
  ∃ ts', s'.Flow ts' ∧ FlowChange op s s' ts ts' ∧
    ∀ w, s'.L = some w → s.L = some w ∨ op.writer = some w

/-- Nothing that matters for the tuples differs. -/
structure Alike (s s₀ : DataPool θ α) : Prop extends SameData s s₀ where
  vm : s₀.vm = s.vm
  phase : s₀.phase = s.phase
  returned : s₀.returned = s.returned
  accepted : s₀.accepted = s.accepted

theorem Alike.flow {s₀ : DataPool θ α} (ha : Alike s s₀) (h : s.Flow ts) :
    s₀.Flow ts ∧ s₀.offers = s.offers := h.congr ha.toSameData ha.vm ha.phase

theorem Alike.flows {s₀ : DataPool θ α} (ha : Alike s s₀) (h : s.Flow ts)
    (hflows : Flows op s₀ s' ts) : Flows op s s' ts := by
  obtain ⟨ts', hflow, hchange, hL⟩ := hflows
  have hoff := (ha.flow h).2
  rw [ha.L] at hL
  refine ⟨ts', hflow, ?_, hL⟩
  cases hchange with
  | same hret hacc hoff' =>
      exact .same (hret.trans ha.returned) (hacc.trans ha.accepted) (hoff'.trans hoff)
  | stored t v hw hfree hret hacc hoff' =>
      rw [ha.phase] at hfree
      rw [ha.returned] at hret
      rw [ha.accepted] at hacc
      exact .stored t v hw hfree hret hacc (hoff'.trans hoff)
  | offered v hnone hret hacc hoff' =>
      rw [ha.returned] at hret
      rw [ha.accepted] at hacc
      exact .offered v (hoff.symm.trans hnone) hret hacc hoff'
  | settled v hbefore hret hacc hoff' =>
      rw [ha.returned] at hret
      rw [ha.accepted] at hacc
      exact .settled v (hoff.symm.trans hbefore) hret hacc hoff'
  | taken v _ hfirst hret hacc hoff' =>
      rw [ha.returned] at hret
      exact .taken v _ hfirst hret (hacc.trans ha.accepted) (hoff'.trans hoff)
  | handed t v hop hn hbefore hret hacc hoff' =>
      rw [ha.returned] at hret
      rw [ha.nput] at hn
      exact .handed t v hop hn (hoff.symm.trans hbefore) hret (hacc.trans ha.accepted) hoff'

theorem Alike.flows_self (ha : Alike s s') (h : s.Flow ts) : Flows op s s' ts := by
  obtain ⟨hflow, hoff⟩ := ha.flow h
  refine ⟨ts, hflow, .same ha.returned ha.accepted hoff, fun w hw => Or.inl ?_⟩
  rw [← ha.L]
  exact hw

end

variable {θ α : Type*} [DecidableEq θ] {s s' : DataPool θ α} {ts : List (Tuple α)} {t : θ}
  {v : Tuple α} {op : PoolOp θ α}

theorem Flow.flows_proceed (h : s.Flow ts) (hold : ∀ v, s.phase t ≠ .offering v) :
    Flows op s (s.proceed t) ts := by
  obtain ⟨hflow, hoff⟩ := h.proceed hold
  exact ⟨ts, hflow, .same rfl rfl hoff, fun _ => Or.inl⟩

theorem Flow.flows_block (h : s.Flow ts) (hold : ∀ v, s.phase t ≠ .offering v) {p : PoolPhase α}
    (hnew : ∀ v, p ≠ .offering v) (hfilled : p.Filled) : Flows op s (s.block t p) ts := by
  obtain ⟨hflow, hoff⟩ := h.block hold hnew hfilled
  exact ⟨ts, hflow, .same rfl rfl hoff, fun _ => Or.inl⟩

/-- A thread changes its phase without the VM lock. -/
theorem Flow.flows_wake (h : s.Flow ts) {p : PoolPhase α} {signalled : Bool}
    (hvm : s.phase t ≠ .running) (hold : ∀ v, s.phase t ≠ .offering v)
    (hnew : ∀ v, p ≠ .offering v) (hfilled : p.Filled) :
    Flows op s { s with signalled := signalled, phase := Function.update s.phase t p } ts := by
  have hne : ∀ t', s.vm = some t' → t' ≠ t := by
    rintro t' ht' rfl
    exact hvm (h.running t' ht')
  have hdata : SameData s { s with
      signalled := signalled, phase := Function.update s.phase t p } :=
    ⟨rfl, rfl, rfl, rfl, rfl, rfl⟩
  obtain ⟨hflow, hoff⟩ := h.move hdata (fun t' hne => Function.update_of_ne hne _ _) hold
    (by simpa using hnew) (by simpa using hfilled) fun t' ht' => Or.inr ⟨hne t' ht', ht'⟩
  exact ⟨ts, hflow, .same rfl rfl hoff, fun _ => Or.inl⟩

theorem Flow.flows_deliver (h : s.Flow ts) (hold : ∀ v, s.phase t ≠ .offering v) (hv : v ≠ [])
    (hfits : ¬s.Direct → s.Room v) (hw : op.writer = some t) :
    Flows op s (s.deliver t v) ts := by
  have hL : ∀ w, (s.deliver t v).L = some w → s.L = some w ∨ op.writer = some w := by
    intro w
    unfold DataPool.deliver
    dsimp only
    split
    · intro hw'
      rw [hw]
      exact Or.inr hw'
    · exact Or.inl
  obtain ⟨hret, hacc, ⟨hnone, hflow, hoff⟩ | ⟨hflow, hoff⟩⟩ := h.deliver hold hv hfits
  · exact ⟨ts, hflow, .offered v (offers_of_none hnone) hret hacc hoff, hL⟩
  · exact ⟨ts ++ [v], hflow, .stored t v hw hold hret hacc hoff, hL⟩

theorem getLoop_L (s : DataPool θ α) (t : θ) : (s.getLoop t).L = s.L := by
  unfold DataPool.getLoop
  split
  · rw [proceed_L]
    exact (s.taken_frame _ _ _).2.2.2.2.1
  · rfl

theorem Flow.flows_getLoop (h : s.Flow ts) (hold : ∀ v, s.phase t ≠ .offering v) :
    Flows op s (s.getLoop t) ts := by
  have hL : ∀ w, (s.getLoop t).L = some w → s.L = some w ∨ op.writer = some w := by
    intro w hw
    rw [getLoop_L] at hw
    exact Or.inl hw
  obtain ⟨hacc, hoff, ⟨v, ts', hts, hflow, hret⟩ | ⟨hflow, hret⟩⟩ := h.getLoop hold
  · exact ⟨ts', hflow, .taken v ts' hts hret hacc hoff, hL⟩
  · exact ⟨ts, hflow, .same hret hacc hoff, hL⟩

/-- A reader has taken the whole tuple. -/
theorem Flow.flows_offerTaken (h : s.Flow ts) (ht : s.phase t = .offering v) (hn : s.nput = 0) :
    Flows op s (({ s with L := none } : DataPool θ α).proceed t) ts := by
  obtain ⟨hlen, hoff⟩ := h.offers_of_offering ht
  have hnil : v = [] := List.length_eq_zero_iff.mp (hlen.symm.trans hn)
  have hsame : ({ s with L := none } : DataPool θ α) = { s with L := none, nput := 0 } := by
    rw [← hn]
  obtain ⟨hflow, hnone⟩ := h.withdraw ht
  rw [hsame]
  refine ⟨ts, hflow, .same rfl rfl ?_, fun w hw => absurd hw (by simp)⟩
  rw [hnone, hoff, if_pos hnil]

/-- The writer keeps its tuple in the storage. -/
theorem Flow.flows_offerStored (h : s.Flow ts) (ht : s.phase t = .offering v) (hn : s.nput ≠ 0)
    (hfits : s.Room v) :
    Flows op s ((({ s with L := none, nput := 0 } : DataPool θ α).store v).proceed t) ts := by
  obtain ⟨hlen, hoff⟩ := h.offers_of_offering ht
  have hv : v ≠ [] := by
    rintro rfl
    exact hn hlen
  obtain ⟨hflow, hnone⟩ := h.withdraw ht
  obtain ⟨hflow', hoff'⟩ := hflow.store (v := v) hfits
  refine ⟨ts ++ [v], hflow', .settled v ?_ rfl rfl (hoff'.trans hnone),
    fun w hw => absurd hw (by simp [DataPool.store])⟩
  rw [hoff, if_neg hv]

/-- One step moves at most one tuple. -/
theorem Flow.step (h : s.Flow ts) (hfits : op.Fits s) (hstep : s.step op = some s') :
    Flows op s s' ts := by
  have hu : Alike s s.uncount := ⟨⟨rfl, rfl, rfl, rfl, rfl, rfl⟩, rfl, rfl, rfl, rfl⟩
  obtain ⟨huncount, -⟩ := hu.flow h
  cases steps_of_step hstep with
  | proceed hphase =>
      refine h.flows_proceed fun v hv => ?_
      rcases hphase with hphase | hphase <;> simp [hphase] at hv
  | vmLeave hvm => exact h.flows_block (h.not_offering hvm) (by simp) trivial
  | callback hvm => exact Alike.flows_self ⟨⟨rfl, rfl, rfl, rfl, rfl, rfl⟩, rfl, rfl, rfl, rfl⟩ h
  | putBlocks hvm hv hfull => exact h.flows_block (h.not_offering hvm) (by simp) hv
  | put hvm hv hroom => exact h.flows_deliver (h.not_offering hvm) hv (hfits hroom) rfl
  | putReturn hvm hv putCalls =>
      have ha : Alike s { s with putCalls } := ⟨⟨rfl, rfl, rfl, rfl, rfl, rfl⟩, rfl, rfl, rfl, rfl⟩
      exact ha.flows h ((ha.flow h).1.flows_deliver (h.not_offering hvm) hv (hfits hv) rfl)
  | putConsume hphase =>
      have hv := h.filled_of hphase
      exact h.flows_wake (by simp [hphase]) (by simp [hphase]) (by simp) hv
  | putFail hphase => exact h.flows_wake (by simp [hphase]) (by simp [hphase]) (by simp) trivial
  | putChecked hphase => exact h.flows_proceed (by simp [hphase])
  | putBlocksAgain hphase hfull =>
      have hv := h.filled_of hphase
      exact h.flows_block (by simp [hphase]) (by simp) hv
  | putResume hphase hroom =>
      exact h.flows_deliver (by simp [hphase]) (h.filled_of hphase)
        (fun hstore => hfits rfl hroom hstore _ hphase) rfl
  | offerTaken hphase hn => exact h.flows_offerTaken hphase hn
  | offerStored hphase hn => exact h.flows_offerStored hphase hn (hfits hn _ hphase)
  | get hvm getCalls =>
      have ha : Alike s { s with getCalls } := ⟨⟨rfl, rfl, rfl, rfl, rfl, rfl⟩, rfl, rfl, rfl, rfl⟩
      exact ha.flows h ((ha.flow h).1.flows_getLoop (h.not_offering hvm))
  | getConsume hphase => exact h.flows_wake (by simp [hphase]) (by simp [hphase]) (by simp) trivial
  | getFail hphase => exact h.flows_wake (by simp [hphase]) (by simp [hphase]) (by simp) trivial
  | getChecked hphase => exact hu.flows h (huncount.flows_proceed (by simp [uncount, hphase]))
  | @getHandOver t s₁ hphase hn hover =>
      obtain ⟨v, hbefore, hafter, hret, hacc, hL, hflow, hkeep⟩ := huncount.handOver hn hover
      obtain ⟨hgo, hoff⟩ := hflow.proceed (t := t) (hkeep t (by simp [uncount, hphase]))
      exact hu.flows h ⟨ts, hgo, .handed t v rfl hn hbefore hret hacc (hoff.trans hafter),
        fun w hw => Or.inl (hL.symm.trans hw)⟩
  | getResume hphase hn => exact hu.flows h (huncount.flows_getLoop (by simp [uncount, hphase]))
  | getFailed hphase => exact hu.flows h (huncount.flows_proceed (by simp [uncount, hphase]))
  | setMax hvm => exact Alike.flows_self ⟨⟨rfl, rfl, rfl, rfl, rfl, rfl⟩, rfl, rfl, rfl, rfl⟩ h

/-! ## No tuple is lost -/

/-- The transitions of a run whose tuples fit into the storage. -/
def FitStep (s s' : DataPool θ α) : Prop := ∃ op : PoolOp θ α, op.Fits s ∧ s.step op = some s'

/-- In every run whose tuples fit into the storage, whatever the number of threads, their
interleaving, the timeouts and the callbacks, no tuple is lost, duplicated, split, merged
or changed between `put` and `get`. -/
theorem fitting_run_conserved (hrun : Relation.ReflTransGen FitStep (init : DataPool θ α) s) :
    s.Conserved := by
  have hinv : ∃ ts, s.Flow ts ∧ (s.returned ++ ts ++ s.offers).Perm s.accepted := by
    refine inv_of_reach (I := fun s : DataPool θ α =>
      ∃ ts, s.Flow ts ∧ (s.returned ++ ts ++ s.offers).Perm s.accepted) ?_
      ⟨[], init_flow, List.Perm.refl _⟩ hrun
    rintro s s' ⟨op, hfits, hstep⟩ ⟨ts, hflow, hperm⟩
    obtain ⟨ts', hflow', hchange, -⟩ := hflow.step hfits hstep
    exact ⟨ts', hflow', hchange.perm hperm⟩
  obtain ⟨ts, hflow, hperm⟩ := hinv
  exact ⟨ts, hflow.stored, hflow.count, hflow.fits, hperm⟩

/-- A reader waits, a writer offers it a tuple with a `nil` in it, which the reader takes. -/
theorem fitting_run_conserved_handOver :
    ∃ s : DataPool ℕ ℕ, Relation.ReflTransGen FitStep init s ∧
      s.returned = [[.other 7, .nil]] ∧ s.Conserved := by
  have hrun : Relation.ReflTransGen FitStep (init : DataPool ℕ ℕ) _ :=
    .tail (.tail (.tail (.tail (.tail (.tail .refl
      ⟨.vmEnter 0, trivial, rfl⟩)
      ⟨.get 0, trivial, rfl⟩)
      ⟨.vmEnter 1, trivial, rfl⟩)
      ⟨.put 1 [.other 7, .nil], fun _ hstore => absurd ⟨by decide, rfl⟩ hstore, rfl⟩)
      ⟨.getConsume 0, trivial, rfl⟩)
      ⟨.getResume 0 false, trivial, rfl⟩
  exact ⟨_, hrun, rfl, fitting_run_conserved hrun⟩

/-- A tuple that `get_on_empty` has supplied is returned by `get`, and no `put` has accepted
it. -/
theorem callback_tuple_not_accepted :
    ∃ s : DataPool (Fin 1) ℕ, Relation.ReflTransGen FitStep init s ∧
      ∀ ts, ¬(s.returned ++ s.supplied ++ ts ++ s.offers).Perm s.accepted := by
  have hrun : Relation.ReflTransGen FitStep (init : DataPool (Fin 1) ℕ) _ :=
    .tail (.tail (.tail (.tail .refl
      ⟨.vmEnter 0, trivial, rfl⟩)
      ⟨.setCallbacks 0 false true, trivial, rfl⟩)
      ⟨.get 0, trivial, rfl⟩)
      ⟨.getReturn 0 [.other 7], trivial, rfl⟩
  refine ⟨_, hrun, fun ts hperm => ?_⟩
  have hlen := hperm.length_eq
  simp [offers, init, proceed] at hlen

/-! ## The order of the tuples -/

end DataPool

section

variable {θ α : Type*}

/-- Only `p` puts data, and only `c` gets them. -/
def PoolOp.OneEach (p c : θ) (op : PoolOp θ α) : Prop :=
  (op.writer = none ∨ op.writer = some p) ∧ (op.reader = none ∨ op.reader = some c)

instance [DecidableEq θ] (p c : θ) (op : PoolOp θ α) : Decidable (op.OneEach p c) :=
  inferInstanceAs (Decidable (_ ∧ _))

/-- A reader that goes on after its wait finds no offer while the storage holds a tuple. -/
def PoolOp.NotOvertaking (s : DataPool θ α) : PoolOp θ α → Prop
  | .getResume _ false => s.nput ≠ 0 → s.n = 0
  | _ => True

end

namespace DataPool

variable {θ α : Type*} [DecidableEq θ] {s s' : DataPool θ α} {ts : List (Tuple α)} {p c : θ}

/-- The transitions of one writer and one reader. -/
def PairStep (p c : θ) (s s' : DataPool θ α) : Prop :=
  ∃ op : PoolOp θ α, op.OneEach p c ∧ s.step op = some s'

/-- Those in which the tuples fit and no offer overtakes a stored tuple. -/
def SafePairStep (p c : θ) (s s' : DataPool θ α) : Prop :=
  ∃ op : PoolOp θ α, op.OneEach p c ∧ op.Fits s ∧ op.NotOvertaking s ∧ s.step op = some s'

/-- What holds along a run of safe steps. -/
structure Queued (p : θ) (s : DataPool θ α) (ts : List (Tuple α)) : Prop extends Flow s ts where
  writer : ∀ w, s.L = some w → w = p
  queue : s.returned ++ ts ++ s.offers = s.accepted

theorem Queued.step (h : s.Queued p ts) (hstep : SafePairStep p c s s') :
    ∃ ts', s'.Queued p ts' := by
  obtain ⟨op, ⟨hwriter, -⟩, hfits, hover, hstep⟩ := hstep
  obtain ⟨ts', hflow, hchange, hL⟩ := h.toFlow.step hfits hstep
  refine ⟨ts', hflow, fun w hw => ?_, ?_⟩
  · rcases hL w hw with hw | hw
    · exact h.writer w hw
    · simpa [hw] using hwriter
  · refine hchange.queue h.queue ?_ ?_
    · -- the only writer is not in an offer, so that there is none
      intro t ht hfree
      cases hLs : s.L with
      | none => exact offers_of_none hLs
      | some w =>
          obtain ⟨v, hv, -⟩ := h.offer w hLs
          have hw := h.writer w hLs
          have hpt : t = p := by simpa [ht] using hwriter
          rw [hw, ← hpt] at hv
          exact absurd hv (hfree v)
    · rintro t rfl hn
      exact List.length_eq_zero_iff.mp (h.count.symm.trans (hover hn))

/-- With one writer and one reader, in every run whose tuples fit into the storage and in
which the reader finds an offer only when the storage is empty, the tuples are returned in
the order in which they were accepted. -/
theorem safe_run_inOrder
    (hrun : Relation.ReflTransGen (SafePairStep p c) (init : DataPool θ α) s) : s.InOrder := by
  have hinv : ∃ ts, s.Queued p ts := by
    refine inv_of_reach (I := fun s : DataPool θ α => ∃ ts, s.Queued p ts) ?_ ?_ hrun
    · rintro s s' hstep ⟨ts, h⟩
      exact h.step hstep
    · exact ⟨[], init_flow, fun w hw => absurd hw (by simp [init]), rfl⟩
  obtain ⟨ts, h⟩ := hinv
  rw [InOrder, ← h.queue, List.append_assoc]
  exact List.prefix_append _ _

/-- A tuple is stored, the next one too, and the reader gets both. -/
theorem safe_run_inOrder_stored :
    ∃ s : DataPool (Fin 2) ℕ, Relation.ReflTransGen (SafePairStep 0 1) init s ∧
      s.returned = [[.other 1], [.other 2]] ∧ s.InOrder := by
  have hfirst : (0 : ℤ) + (1 : ℕ) + 1 < 2 ^ 31 ∧ 1 + 4 ≤ 1 + minStack := by decide
  have hsecond : (2 : ℤ) + (1 : ℕ) + 1 < 2 ^ 31 ∧ 1 + 4 ≤ 1 + minStack := by decide
  have hrun : Relation.ReflTransGen (SafePairStep 0 1) (init : DataPool (Fin 2) ℕ) _ :=
    .tail (.tail (.tail (.tail (.tail (.tail (.tail .refl
      ⟨.vmEnter 0, by decide, trivial, trivial, rfl⟩)
      ⟨.put 0 [.other 1], by decide, fun _ _ => hfirst, trivial, rfl⟩)
      ⟨.put 0 [.other 2], by decide, fun _ _ => hsecond, trivial, rfl⟩)
      ⟨.vmLeave 0, by decide, trivial, trivial, rfl⟩)
      ⟨.vmEnter 1, by decide, trivial, trivial, rfl⟩)
      ⟨.get 1, by decide, trivial, trivial, rfl⟩)
      ⟨.get 1, by decide, trivial, trivial, rfl⟩
  exact ⟨_, hrun, rfl, safe_run_inOrder hrun⟩

/-- The reader `b` has taken the signal of the first offer, but not the VM lock.  The
writer `a` stores the first tuple and offers the second one. -/
def overtakingOps {θ : Type} (a b : θ) : List (PoolOp θ ℕ) :=
  [.vmEnter b, .get b, .vmEnter a, .put a [.other 1], .getConsume b, .offerDone a,
    .put a [.other 2], .getResume b false]

/-- One writer and one reader: the second tuple is returned before the first one. -/
theorem offer_overtakes :
    ∃ s : DataPool (Fin 2) ℕ, Relation.ReflTransGen (PairStep 0 1) init s ∧ ¬s.InOrder := by
  have hrun : (runOps DataPool.step init (overtakingOps (0 : Fin 2) 1)).map
      (fun s => (s.returned, s.accepted)) = some ([[.other 2]], [[.other 1], [.other 2]]) := rfl
  obtain ⟨s, hs, heq⟩ := Option.map_eq_some_iff.mp hrun
  obtain ⟨hret, hacc⟩ := Prod.mk.inj heq
  refine ⟨s, reach_of_runOps_forall (P := PoolOp.OneEach 0 1)
    (fun _ op _ hop hstep => ⟨op, hop, hstep⟩) (by decide) hs, ?_⟩
  rw [InOrder, hret, hacc]
  decide

end DataPool

end LuaSys.Thread
